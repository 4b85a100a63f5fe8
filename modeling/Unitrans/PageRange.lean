/-
`page_check_range`. A check for reading looks at every page of the range; a check
for writing returns at the first page it finds writable, whatever the pages
after it are; and neither looks at anything where the range is rounded to all of
the address space (`pageCheckRange_exact_iff`).
-/
import Unitrans.PageFlags

namespace Unitrans

open X86 Except

variable (hostPageSize : Word)

/-- The page at `addr` is valid and grants what `flags` requests; writing is granted by
`PAGE_WRITE_ORG`, and a page protected against writing can be unprotected. -/
structure Grants (m : L1Map) (flags addr : Word) (p : PageDesc) : Prop where
  found : pageFind m (pageIndex addr) = some p
  valid : hasFlag p.flags PAGE_VALID
  read : hasFlag flags PAGE_READ → hasFlag p.flags PAGE_READ
  write : hasFlag flags PAGE_WRITE → hasFlag p.flags PAGE_WRITE_ORG
  unprotect : hasFlag flags PAGE_WRITE → ¬ hasFlag p.flags PAGE_WRITE →
    ∃ r m', pageUnprotect hostPageSize m addr = .ok (r, m') ∧ r ≠ 0

/-- The page `k` is accessible. -/
def Accessible (m : L1Map) (flags : Word) (k : Nat) : Prop := ∃ p, Grants hostPageSize m flags (pageAddr k) p

/-- The last page of `len` bytes. -/
def endPage (start len : Word) : Nat := (start.toNat + len.toNat - 1) / 4096

/-- What the check is for: no bytes, or bytes that do not wrap around, in accessible pages. -/
def RangeOk (m : L1Map) (start len flags : Word) : Prop :=
  len = 0 ∨ start.toNat + len.toNat ≤ 2 ^ 32 ∧
    ∀ k, firstPage start ≤ k → k ≤ endPage start len → Accessible hostPageSize m flags k

/-- The C function returns 0. -/
def Passes (r : Result (Int × L1Map)) : Prop := ∃ m', r = .ok (0, m')

variable {hostPageSize} {m : L1Map} {flags : Word}

theorem passes_ok (r : Int) (m : L1Map) : Passes (.ok (r, m)) ↔ r = 0 := by
  constructor
  · rintro ⟨m', h⟩
    exact (Prod.mk.inj (Except.ok.inj h)).1
  · rintro rfl
    exact ⟨m, rfl⟩

theorem not_passes_neg (m : L1Map) : ¬ Passes (.ok (-1, m)) := fun h => absurd ((passes_ok _ _).mp h) (by decide)

/-- A page that does not grant the request fails the check. -/
theorem checkPages_cons (addr : Word) (addrs : List Word) :
    Passes (checkPages hostPageSize flags m (addr :: addrs)) ↔
      (∃ p, Grants hostPageSize m flags addr p) ∧
        (hasFlag flags PAGE_WRITE ∨ Passes (checkPages hostPageSize flags m addrs)) := by
  rw [checkPages]
  cases hfind : pageFind m (pageIndex addr) with
  | none =>
    refine iff_of_false (not_passes_neg m) fun ⟨⟨p, hp⟩, _⟩ => ?_
    exact absurd (hfind.symm.trans hp.found) nofun
  | some p =>
    have huniq : ∀ {q}, Grants hostPageSize m flags addr q → q = p := fun hq =>
      Option.some.inj (hq.found.symm.trans hfind)
    -- a request the page does not grant: `-1` is returned
    have hfail : ∀ {r}, ¬ Passes r → (¬ ∃ q, Grants hostPageSize m flags addr q) → (Passes r ↔
        (∃ q, Grants hostPageSize m flags addr q) ∧
          (hasFlag flags PAGE_WRITE ∨ Passes (checkPages hostPageSize flags m addrs))) :=
      fun h h' => iff_of_false h fun h'' => h' h''.1
    simp only [Bool.not_eq_true', Bool.and_eq_true]
    by_cases hv : hasFlag p.flags PAGE_VALID
    swap
    · rw [if_pos (Bool.eq_false_of_not_eq_true hv)]
      exact hfail (not_passes_neg m) fun ⟨q, hq⟩ => hv (huniq hq ▸ hq.valid)
    rw [if_neg (by simp [hv])]
    by_cases hr : hasFlag flags PAGE_READ ∧ hasFlag p.flags PAGE_READ = false
    · rw [if_pos hr]
      refine hfail (not_passes_neg m) fun ⟨q, hq⟩ => ?_
      have := huniq hq ▸ hq.read hr.1
      simp [hr.2] at this
    rw [if_neg hr]
    have hread : hasFlag flags PAGE_READ → hasFlag p.flags PAGE_READ := fun h => by
      by_contra hn
      exact hr ⟨h, Bool.eq_false_of_not_eq_true hn⟩
    by_cases hw : hasFlag flags PAGE_WRITE
    swap
    · rw [if_neg hw]
      exact ⟨fun h => ⟨⟨p, hfind, hv, hread, fun h' => absurd h' hw, fun h' => absurd h' hw⟩, .inr h⟩,
        fun h => h.2.resolve_left hw⟩
    rw [if_pos hw]
    by_cases ho : hasFlag p.flags PAGE_WRITE_ORG
    swap
    · rw [if_pos (Bool.eq_false_of_not_eq_true ho)]
      exact hfail (not_passes_neg m) fun ⟨q, hq⟩ => ho (huniq hq ▸ hq.write hw)
    rw [if_neg (by simp [ho])]
    by_cases hp : hasFlag p.flags PAGE_WRITE
    · rw [if_neg (by simp [hp])]
      exact iff_of_true ((passes_ok 0 m).mpr rfl)
        ⟨⟨p, hfind, hv, hread, fun _ => ho, fun _ h => absurd hp h⟩, .inl hw⟩
    rw [if_pos (Bool.eq_false_of_not_eq_true hp)]
    cases hun : pageUnprotect hostPageSize m addr with
    | error e =>
      refine hfail (fun ⟨m', h⟩ => nomatch h) fun ⟨q, hq⟩ => ?_
      obtain ⟨r, m', hok, -⟩ := hq.unprotect hw (huniq hq ▸ hp)
      exact nomatch hun.symm.trans hok
    | ok res =>
      obtain ⟨r, m'⟩ := res
      show Passes (.ok (if r = 0 then -1 else 0, m')) ↔ _
      rw [passes_ok]
      by_cases hz : r = 0
      · rw [if_pos hz]
        refine iff_of_false (by decide) fun ⟨⟨q, hq⟩, _⟩ => ?_
        obtain ⟨r', m'', hok, hne⟩ := hq.unprotect hw (huniq hq ▸ hp)
        exact hne ((Prod.mk.inj (Except.ok.inj (hun.symm.trans hok))).1 ▸ hz)
      · rw [if_neg hz]
        exact iff_of_true rfl ⟨⟨p, hfind, hv, hread, fun _ => ho, fun _ _ => ⟨r, m', hun, hz⟩⟩, .inl hw⟩

theorem checkPages_read (hw : ¬ hasFlag flags PAGE_WRITE) (addrs : List Word) :
    Passes (checkPages hostPageSize flags m addrs) ↔ ∀ a ∈ addrs, ∃ p, Grants hostPageSize m flags a p := by
  induction addrs with
  | nil => exact iff_of_true ((passes_ok 0 m).mpr rfl) (by simp)
  | cons a addrs ih =>
    rw [checkPages_cons, ih, List.forall_mem_cons]
    exact and_congr_right fun _ => or_iff_right hw

theorem checkPages_write (hw : hasFlag flags PAGE_WRITE) (a : Word) (addrs : List Word) :
    Passes (checkPages hostPageSize flags m (a :: addrs)) ↔ ∃ p, Grants hostPageSize m flags a p := by
  rw [checkPages_cons]
  exact and_iff_left (.inl hw)

/-! ## The range -/

variable {start len : Word}

theorem wraps_iff (hlen : len ≠ 0) : start + len - 1 < start ↔ 2 ^ 32 < start.toNat + len.toNat := by
  have h₀ : 0 < len.toNat := Nat.pos_of_ne_zero fun h => hlen (BitVec.eq_of_toNat_eq h)
  rw [BitVec.lt_def]
  bv_omega

theorem align_endPage (hlen : len ≠ 0) (h : start.toNat + len.toNat ≤ 2 ^ 32) :
    TARGET_PAGE_ALIGN (start + len) = pageAddr (endPage start len + 1) := by
  have h₀ : 0 < len.toNat := Nat.pos_of_ne_zero fun h => hlen (BitVec.eq_of_toNat_eq h)
  rcases Nat.lt_or_ge (start.toNat + len.toNat) (2 ^ 32) with hlt | hge
  · have hsum : (start + len).toNat = start.toNat + len.toNat := by
      rw [BitVec.toNat_add, Nat.mod_eq_of_lt hlt]
    rw [pageAlign_eq (by omega), hsum]
    rfl
  · have hsum : start + len = 0 := by bv_omega
    have hend : endPage start len + 1 = 2 ^ 20 := by
      rw [endPage]
      omega
    rw [hsum, hend]
    rfl

/-- The range is rounded to all of the address space. -/
def WholeRange (start len : Word) : Prop := firstPage start = 0 ∧ endPage start len = 2 ^ 20 - 1

instance (start len : Word) : Decidable (WholeRange start len) := inferInstanceAs (Decidable (_ ∧ _))

/-- When the check passes: nothing is looked at in the whole address space, and for
writing the first page is all that is looked at. -/
theorem passes_iff (hlen : len ≠ 0) (h : start.toNat + len.toNat ≤ 2 ^ 32) :
    Passes (pageCheckRange hostPageSize m start len flags) ↔ WholeRange start len ∨
      if hasFlag flags PAGE_WRITE then Accessible hostPageSize m flags (firstPage start)
      else ∀ k, firstPage start ≤ k → k ≤ endPage start len → Accessible hostPageSize m flags k := by
  have h₀ : 0 < len.toNat := Nat.pos_of_ne_zero fun h => hlen (BitVec.eq_of_toNat_eq h)
  have hle : firstPage start ≤ endPage start len := by
    rw [firstPage, endPage]
    omega
  have hl : endPage start len < 2 ^ 20 := by
    rw [endPage]
    omega
  have hnw : ¬ start + len - 1 < start := by
    rw [wraps_iff hlen]
    omega
  rw [pageCheckRange, if_neg hlen, if_neg hnw]
  simp only
  rw [pageRange_eq (align_endPage hlen h) hle hl]
  by_cases hw : WholeRange start len
  · rw [if_pos ⟨hw.1, hw.2⟩]
    exact iff_of_true ((passes_ok 0 m).mpr rfl) (.inl hw)
  rw [if_neg fun h => hw ⟨h.1, h.2⟩, or_iff_right hw]
  split
  · rename_i hf
    obtain ⟨n, hn⟩ : ∃ n, endPage start len + 1 - firstPage start = n + 1 := ⟨endPage start len - firstPage start, by omega⟩
    rw [hn, List.range_succ_eq_map, List.map_cons, checkPages_write hf]
    rfl
  · rename_i hf
    rw [checkPages_read hf]
    constructor
    · intro hall k h₁ h₂
      have := hall (pageAddr k) (List.mem_map.mpr ⟨k - firstPage start, List.mem_range.mpr (by omega), by
        rw [Nat.add_sub_cancel' h₁]⟩)
      exact this
    · intro hall a ha
      obtain ⟨i, hi, rfl⟩ := List.mem_map.mp ha
      have := List.mem_range.mp hi
      exact hall _ (by omega) (by omega)

theorem passes_wrap (hlen : len ≠ 0) (h : 2 ^ 32 < start.toNat + len.toNat) :
    ¬ Passes (pageCheckRange hostPageSize m start len flags) := by
  rw [pageCheckRange, if_neg hlen, if_pos ((wraps_iff hlen).mpr h)]
  exact not_passes_neg m

theorem accessible_flags {k : Nat} (hk : k < 2 ^ 20) (h : Accessible hostPageSize m flags k) :
    hasFlag (m.flags k) PAGE_VALID := by
  obtain ⟨p, hp⟩ := h
  have hfound := hp.found
  rw [pageIndex_pageAddr hk] at hfound
  rw [L1Map.flags, pageFind_eq_some hfound]
  exact hp.valid

/-- A page whose write protection is not that of `page_unprotect` is accessible by its flags. -/
theorem accessible_of_flags {k : Nat} (hk : k < 2 ^ 20) (hv : hasFlag (m.flags k) PAGE_VALID)
    (hr : hasFlag flags PAGE_READ → hasFlag (m.flags k) PAGE_READ)
    (hw : hasFlag flags PAGE_WRITE → hasFlag (m.flags k) PAGE_WRITE ∧ hasFlag (m.flags k) PAGE_WRITE_ORG) :
    Accessible hostPageSize m flags k := by
  cases hfind : pageFind m k with
  | none =>
    rw [L1Map.flags, pageFind_eq_none hfind] at hv
    exact absurd hv (by decide)
  | some p =>
    rw [L1Map.flags, pageFind_eq_some hfind] at hv hr hw
    exact ⟨p, by rw [pageIndex_pageAddr hk, hfind], hv, hr, fun h => (hw h).2, fun h h' => absurd (hw h).1 h'⟩

end Unitrans
