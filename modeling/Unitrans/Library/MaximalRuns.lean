/-
The maximal runs of equal values of a function on `0, …, n - 1`, those of one
value `z` left out. A scan keeps the run it is in and closes it where the value
changes (`scan`); what it closes are the maximal runs, in order (`mem_runs`,
`pairwise_runs`).
-/
import Mathlib.Data.List.Induction
import Mathlib.Order.Nat

namespace MaximalRuns

variable {α : Type _}

/-- `[first, past)`, where the value is `value`. -/
structure Run (α : Type _) where
  first : Nat
  past : Nat
  value : α

/-- A run of the value `v ≠ z` of `f` that does not extend to the left. -/
structure Opens (z : α) (f : Nat → α) (first past : Nat) (v : α) : Prop where
  lt : first < past
  value : ∀ k, first ≤ k → k < past → f k = v
  ne : v ≠ z
  left : first = 0 ∨ f (first - 1) ≠ v

/-- A maximal run on `0, …, n - 1`. -/
structure IsRun (z : α) (f : Nat → α) (n : Nat) (r : Run α) : Prop extends Opens z f r.first r.past r.value where
  le : r.past ≤ n
  right : r.past = n ∨ f r.past ≠ r.value

/-- The run a scan is in, and the ones it has closed. -/
structure Scan (α : Type _) where
  opened : Option (Nat × α) := none
  closed : List (Run α) := []

/-- The value of the run the scan is in. -/
def Scan.current (z : α) (s : Scan α) : α := (s.opened.map (·.2)).getD z

/-- Before `n` the scan has closed the runs that end before `n`, and it is in the run that holds `n - 1`. -/
structure Found (z : α) (f : Nat → α) (n : Nat) (s : Scan α) : Prop where
  closed : ∀ r, r ∈ s.closed ↔ Opens z f r.first r.past r.value ∧ r.past < n ∧ f r.past ≠ r.value
  sorted : s.closed.Pairwise fun r r' => r.past ≤ r'.first
  opened : ∀ a v, s.opened = some (a, v) → Opens z f a n v ∧ ∀ r ∈ s.closed, r.past ≤ a
  none : s.opened = none → n = 0 ∨ f (n - 1) = z

variable {z : α} {f : Nat → α} {n : Nat} {s : Scan α}

/-- The run that holds `n - 1` is one alone. -/
theorem Opens.unique {a b : Nat} {v w : α} (h : Opens z f a n v) (h' : Opens z f b n w) : a = b ∧ v = w := by
  have hvw : v = w := (h.value (n - 1) (by have := h.lt; omega) (by have := h.lt; omega)).symm.trans
    (h'.value (n - 1) (by have := h'.lt; omega) (by have := h'.lt; omega))
  subst hvw
  have hle : ∀ {a b}, Opens z f a n v → Opens z f b n v → ¬ a < b := fun {a b} h h' hlt => by
    rcases h'.left with h₀ | h₀
    · omega
    · exact h₀ (h.value _ (by omega) (by have := h'.lt; omega))
  have := hle h h'
  have := hle h' h
  exact ⟨by omega, rfl⟩

/-- The run that holds `n - 1` is the one the scan is in. -/
theorem Found.opened_iff (h : Found z f n s) (a : Nat) (v : α) : s.opened = some (a, v) ↔ Opens z f a n v := by
  refine ⟨fun hs => (h.opened a v hs).1, fun ho => ?_⟩
  cases hs : s.opened with
  | none =>
    rcases h.none hs with h₀ | h₀
    · have := ho.lt
      omega
    · have := ho.value (n - 1) (by have := ho.lt; omega) (by have := ho.lt; omega)
      exact absurd (this.symm.trans h₀) ho.ne
  | some p =>
    obtain ⟨rfl, rfl⟩ := ho.unique (h.opened p.1 p.2 hs).1
    rfl

/-- Where the scan has been, it is in a run of the last value. -/
theorem Found.current (h : Found z f n s) (hn : n ≠ 0) : s.current z = f (n - 1) := by
  rw [Scan.current]
  cases hs : s.opened with
  | none => exact ((h.none hs).resolve_left hn).symm
  | some p => exact ((h.opened p.1 p.2 hs).1.value (n - 1) (by have := (h.opened p.1 p.2 hs).1.lt; omega) (by omega)).symm

/-! ## The scan -/

variable [DecidableEq α]

/-- Close the run at `k`, where the value is to be `v`. -/
def Scan.close (z : α) (s : Scan α) (k : Nat) (v : α) : Scan α where
  opened := if v = z then none else some (k, v)
  closed := s.closed ++ s.opened.toList.map fun p => ⟨p.1, k, p.2⟩

def Scan.step (z : α) (f : Nat → α) (s : Scan α) (k : Nat) : Scan α :=
  if f k = s.current z then s else s.close z k (f k)

/-- The scan of `0, …, n - 1`. -/
def scan (z : α) (f : Nat → α) : Nat → Scan α
  | 0 => {}
  | n + 1 => (scan z f n).step z f n

/-- The maximal runs, in order. -/
def runs (z : α) (f : Nat → α) (n : Nat) : List (Run α) := ((scan z f n).close z n z).closed

theorem Found.mem_close (h : Found z f n s) (v : α) (r : Run α) :
    r ∈ (s.close z n v).closed ↔ r ∈ s.closed ∨ r.past = n ∧ Opens z f r.first n r.value := by
  simp only [Scan.close, List.mem_append, List.mem_map, Option.mem_toList]
  refine or_congr_right ⟨?_, ?_⟩
  · rintro ⟨⟨a, w⟩, hs, rfl⟩
    exact ⟨rfl, (h.opened_iff a w).mp hs⟩
  · rintro ⟨rfl, ho⟩
    exact ⟨(r.first, r.value), (h.opened_iff _ _).mpr ho, rfl⟩

theorem Found.sorted_close (h : Found z f n s) (v : α) :
    (s.close z n v).closed.Pairwise fun r r' => r.past ≤ r'.first := by
  rw [Scan.close, List.pairwise_append]
  refine ⟨h.sorted, ?_, fun r hr r' hr' => ?_⟩
  · cases s.opened <;> simp
  · obtain ⟨p, hp, rfl⟩ := List.mem_map.mp hr'
    exact (h.opened p.1 p.2 (Option.mem_toList.mp hp)).2 r hr

theorem Found.step (h : Found z f n s) : Found z f (n + 1) (s.step z f n) := by
  rw [Scan.step]
  split
  · -- the run goes on
    rename_i hsame
    have hopen : ∀ {a v}, s.opened = some (a, v) → f n = v := fun {a v} hs => by rw [hsame, Scan.current, hs]; rfl
    refine ⟨fun r => ?_, h.sorted, fun a v hs => ⟨?_, (h.opened a v hs).2⟩, fun hs => .inr ?_⟩
    · rw [h.closed]
      refine and_congr_right fun ho => ⟨fun hr => ⟨by omega, hr.2⟩, fun hr => ⟨?_, hr.2⟩⟩
      by_contra hge
      obtain hpast : r.past = n := by omega
      rw [hpast] at ho hr
      exact hr.2 (hopen ((h.opened_iff _ _).mpr ho))
    · have ho := (h.opened a v hs).1
      refine ⟨by have := ho.lt; omega, fun k h₁ h₂ => ?_, ho.ne, ho.left⟩
      rcases Nat.lt_or_ge k n with hk | hk
      · exact ho.value k h₁ hk
      · rw [show k = n by omega]
        exact hopen hs
    · rw [Nat.add_sub_cancel, hsame, Scan.current, hs]
      rfl
  · rename_i hne
    refine ⟨fun r => ?_, h.sorted_close _, fun a v hs => ?_, fun hs => .inr ?_⟩
    · rw [h.mem_close, h.closed]
      constructor
      · rintro (⟨ho, hlt, hr⟩ | ⟨rfl, ho⟩)
        · exact ⟨ho, by omega, hr⟩
        · refine ⟨ho, by omega, fun hv => hne ?_⟩
          rw [Scan.current, (h.opened_iff _ _).mpr ho, hv]
          rfl
      · rintro ⟨ho, hlt, hr⟩
        rcases Nat.lt_or_ge r.past n with hp | hp
        · exact .inl ⟨ho, hp, hr⟩
        · obtain hpast : r.past = n := by omega
          exact .inr ⟨hpast, hpast ▸ ho⟩
    · simp only [Scan.close] at hs
      split at hs
      · cases hs
      · rename_i hz
        obtain ⟨rfl, rfl⟩ := Prod.mk.inj (Option.some.inj hs)
        refine ⟨⟨by omega, fun k h₁ h₂ => ?_, hz, ?_⟩, fun r hr => ?_⟩
        · rw [show k = n by omega]
        · by_cases h₀ : n = 0
          · exact .inl h₀
          · exact .inr fun he => hne (by rw [h.current h₀, he])
        · rcases (h.mem_close _ r).mp hr with hr | ⟨hr, -⟩
          · have := ((h.closed r).mp hr).2.1
            omega
          · omega
    · simp only [Scan.close] at hs
      split at hs
      · rename_i hz
        rw [Nat.add_sub_cancel, hz]
      · cases hs

theorem found_scan (z : α) (f : Nat → α) (n : Nat) : Found z f n (scan z f n) := by
  induction n with
  | zero =>
    refine ⟨fun r => ?_, .nil, fun a v hs => (nomatch hs), fun _ => .inl rfl⟩
    simp [scan]
  | succ n ih => exact ih.step

/-- The runs the scan closes are the maximal ones. -/
theorem mem_runs {r : Run α} : r ∈ runs z f n ↔ IsRun z f n r := by
  rw [runs, (found_scan z f n).mem_close, (found_scan z f n).closed]
  constructor
  · rintro (⟨ho, hlt, hr⟩ | ⟨hp, ho⟩)
    · exact ⟨ho, by omega, .inr hr⟩
    · exact ⟨hp ▸ ho, by omega, .inl hp⟩
  · intro h
    rcases Nat.lt_or_ge r.past n with hp | hp
    · exact .inl ⟨h.toOpens, hp, h.right.resolve_left (by omega)⟩
    · obtain hpast : r.past = n := by have := h.le; omega
      exact .inr ⟨hpast, hpast ▸ h.toOpens⟩

/-- They are in order and do not overlap. -/
theorem pairwise_runs (z : α) (f : Nat → α) (n : Nat) : (runs z f n).Pairwise fun r r' => r.past ≤ r'.first :=
  (found_scan z f n).sorted_close z

/-- A value other than `z` is in one of them. -/
theorem exists_run {k : Nat} (hk : k < n) (hz : f k ≠ z) : ∃ r, IsRun z f n r ∧ r.first ≤ k ∧ k < r.past := by
  -- the run the scan is in behind `k`, and where it is closed
  have hscan : ∀ m, k + 1 ≤ m → (∃ a v, (scan z f m).opened = some (a, v) ∧ a ≤ k) ∨
      ∃ r ∈ (scan z f m).closed, r.first ≤ k ∧ k < r.past := by
    intro m hm
    induction m, hm using Nat.le_induction with
    | base =>
      have h := found_scan z f (k + 1)
      cases hs : (scan z f (k + 1)).opened with
      | none => exact absurd ((h.none hs).resolve_left (by omega)) hz
      | some p => exact .inl ⟨p.1, p.2, rfl, by have := (h.opened p.1 p.2 hs).1.lt; omega⟩
    | succ m hm ih =>
      rw [scan, Scan.step]
      split
      · exact ih
      · rcases ih with ⟨a, v, hs, ha⟩ | ⟨r, hr, h⟩
        · exact .inr ⟨⟨a, m, v⟩, by simp [Scan.close, hs], ha, hm⟩
        · exact .inr ⟨r, by simp [Scan.close, hr], h⟩
  have h := found_scan z f n
  rcases hscan n hk with ⟨a, v, hs, ha⟩ | ⟨r, hr, hk⟩
  · exact ⟨⟨a, n, v⟩, mem_runs.mp ((h.mem_close z _).mpr (.inr ⟨rfl, (h.opened_iff a v).mp hs⟩)), ha, hk⟩
  · exact ⟨r, mem_runs.mp ((h.mem_close z r).mpr (.inl hr)), hk⟩

end MaximalRuns
