/-
First fit: the search for `n` free places in a row, in one pass that remembers
the place behind the last one in use. `room` says of which places a row may
begin at; it holds of every place before one it holds of.
-/
import Mathlib.Order.Basic

namespace FirstFit

/-- `n` free places from `r` on. -/
def Free (used : Nat → Prop) (n r : Nat) : Prop := ∀ i, r ≤ i → i < r + n → ¬ used i

/-- The pass; `last` is the place behind the last one in use, and `addr` the next one to look at. -/
def scan (used room : Nat → Prop) [DecidablePred used] [DecidablePred room] (n : Nat) : (fuel : Nat) → (last addr : Nat) → Option Nat
  | 0, _, _ => none
  | fuel + 1, last, addr =>
    if last + n = addr then some last
    else if ¬ room last then none
    else scan used room n fuel (if used addr then addr + 1 else last) (addr + 1)

variable {used room : Nat → Prop} {n : Nat}

/-- A row that begins before a place in use ends before it. -/
theorem not_free {i r : Nat} (hi : used i) (h₁ : r ≤ i) (h₂ : i < r + n) : ¬ Free used n r := fun h => h i h₁ h₂ hi

/-- What the pass is about to find, when the places from `last` to `addr` are free. -/
structure At (used room : Nat → Prop) (n last addr : Nat) : Prop where
  last_le : last ≤ addr
  le_last : addr ≤ last + n
  free : ∀ i, last ≤ i → i < addr → ¬ used i
  room : last < addr → room last

/-- The first row from `first` on there is room for. -/
def First (used room : Nat → Prop) (n first r : Nat) : Prop :=
  first ≤ r ∧ room r ∧ Free used n r ∧ ∀ q, first ≤ q → q < r → ¬ Free used n q

/-- There is no row from `first` on. -/
def NoRow (used room : Nat → Prop) (n first : Nat) : Prop := ∀ q, first ≤ q → room q → ¬ Free used n q

theorem At.start (last : Nat) : At used room n last last :=
  ⟨Nat.le_refl _, Nat.le_add_right .., fun i h₁ h₂ => by omega, fun hlt => by omega⟩

/-- The pass looks at one more place. -/
theorem At.next [DecidablePred used] {last addr : Nat} (h : At used room n last addr) (hlt : addr < last + n) (hroom : room last) :
    At used room n (if used addr then addr + 1 else last) (addr + 1) := by
  by_cases hu : used addr
  · rw [if_pos hu]
    exact ⟨Nat.le_refl _, Nat.le_add_right .., fun i h₁ h₂ => by omega, fun hlt => by omega⟩
  · rw [if_neg hu]
    refine ⟨by have := h.last_le; omega, by omega, fun i h₁ h₂ => ?_, fun _ => hroom⟩
    by_cases hi : i = addr
    · rw [hi]
      exact hu
    · exact h.free i h₁ (by omega)

theorem First.of_used {last addr r : Nat} (hu : used addr) (hlt : addr < last + n) (h : First used room n (addr + 1) r)
    (hle : last ≤ addr) : First used room n last r := by
  obtain ⟨hr, hroom, hfree, hmin⟩ := h
  refine ⟨by omega, hroom, hfree, fun q h₁ h₂ => ?_⟩
  rcases Nat.lt_or_ge addr q with hq | hq
  · exact hmin q hq h₂
  · exact not_free hu hq (by omega)

/-- What a pass from `first` on should find. -/
def Finds (used room : Nat → Prop) (n first : Nat) : Option Nat → Prop
  | some r => First used room n first r
  | none => NoRow used room n first

/-- The pass finds the first row, if there is one. -/
theorem scan_spec (used room : Nat → Prop) [DecidablePred used] [DecidablePred room] (hn : 0 < n)
    (hmono : ∀ q r, q ≤ r → room r → room q) : ∀ (fuel : Nat) {last addr : Nat}, At used room n last addr → 0 < fuel →
      (∀ r, room r → r + n < addr + fuel) → Finds used room n last (scan used room n fuel last addr) := by
  intro fuel
  induction fuel with
  | zero => intro last addr _ h0; exact absurd h0 (by omega)
  | succ fuel ih =>
    intro last addr h _ hfuel
    have hle := h.le_last
    have hlast := h.last_le
    rw [scan]
    by_cases hend : last + n = addr
    · rw [if_pos hend]
      exact ⟨Nat.le_refl _, h.room (by omega), fun i h₁ h₂ => h.free i h₁ (by omega), fun q h₁ h₂ => by omega⟩
    rw [if_neg hend]
    by_cases hroom : room last
    · rw [if_neg (not_not.mpr hroom)]
      have hlt : addr < last + n := by omega
      have hbound := hfuel last hroom
      have hnext := ih (h.next hlt hroom) (by omega) fun r hr => by have := hfuel r hr; omega
      by_cases hu : used addr
      · rw [if_pos hu] at hnext ⊢
        cases hscan : scan used room n fuel (addr + 1) (addr + 1) with
        | some r =>
          rw [hscan] at hnext
          exact First.of_used hu hlt hnext hlast
        | none =>
          rw [hscan] at hnext
          intro q h₁ hq
          rcases Nat.lt_or_ge addr q with hlt' | hge
          · exact hnext q hlt' hq
          · exact not_free hu hge (by omega)
      · rw [if_neg hu] at hnext ⊢
        exact hnext
    · rw [if_pos hroom]
      exact fun q h₁ hq => absurd (hmono last q h₁ hq) hroom

end FirstFit
