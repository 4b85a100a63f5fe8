/-
The page table as a map from pages to flags. `page_set_flags` gives the pages of
its range the flags and leaves the others as they are, where the range is not
the whole address space (`pageSetFlags_spec`); so every address has the flags of
the last call whose range contains it (`pageGetFlags_run`).
-/
import Unitrans.Library.Align
import Unitrans.PageTable

namespace Unitrans

open X86 RadixTree Except

/-! ## Addresses and pages -/

theorem and_pageMask (a : Word) : a &&& TARGET_PAGE_MASK = BitVec.ofNat 32 (4096 * (a.toNat / 4096)) := by
  have h : (a &&& ~~~Align.low 32 12).toNat = 4096 * (a.toNat / 4096) := Align.toNat_and_not_low a
  rw [show TARGET_PAGE_MASK = ~~~Align.low 32 12 by decide, ← h, BitVec.ofNat_toNat, BitVec.setWidth_eq]

theorem pageAlign_eq {a : Word} (h : 0 < a.toNat) :
    TARGET_PAGE_ALIGN a = BitVec.ofNat 32 (4096 * ((a.toNat - 1) / 4096 + 1)) := by
  have hsize : a + TARGET_PAGE_SIZE - 1 = a + 4095#32 := by
    rw [show TARGET_PAGE_SIZE = 4096#32 from rfl]
    bv_omega
  have := a.isLt
  rw [TARGET_PAGE_ALIGN, and_pageMask, hsize]
  apply BitVec.eq_of_toNat_eq
  rw [BitVec.toNat_ofNat, BitVec.toNat_ofNat, BitVec.toNat_add, BitVec.toNat_ofNat]
  omega

theorem pageIndex_eq (a : Word) : pageIndex a = a.toNat / 4096 := by
  rw [pageIndex, Nat.shiftRight_eq_div_pow]
  rfl

theorem pageIndex_lt (a : Word) : pageIndex a < 2 ^ 20 := by
  rw [pageIndex_eq]
  have := a.isLt
  omega

theorem pageAddrs_eq {fuel n : Nat} (hn : n ≤ fuel) (hn' : n < 2 ^ 20) (start : Word) :
    pageAddrs fuel start (BitVec.ofNat 32 (4096 * n)) =
      (List.range n).map fun i => start + BitVec.ofNat 32 (4096 * i) := by
  induction n generalizing fuel start with
  | zero => cases fuel <;> rfl
  | succ n ih =>
    obtain ⟨fuel, rfl⟩ : ∃ f, fuel = f + 1 := ⟨fuel - 1, by omega⟩
    have hne : BitVec.ofNat 32 (4096 * (n + 1)) ≠ 0 := fun h => by
      have := congrArg BitVec.toNat h
      simp at this
      omega
    have hlen : BitVec.ofNat 32 (4096 * (n + 1)) - TARGET_PAGE_SIZE = BitVec.ofNat 32 (4096 * n) := by
      have hsize : TARGET_PAGE_SIZE = 4096#32 := rfl
      rw [hsize]
      bv_omega
    rw [pageAddrs, if_neg hne, hlen, ih (by omega) (by omega), List.range_succ_eq_map, List.map_cons, List.map_map]
    refine congrArg₂ _ (by simp) (List.map_congr_left fun i _ => ?_)
    have hsize : TARGET_PAGE_SIZE = 4096#32 := rfl
    rw [Function.comp_apply, hsize]
    bv_omega

/-- The address of a page. -/
def pageAddr (k : Nat) : Word := BitVec.ofNat 32 (4096 * k)

theorem pageIndex_pageAddr {k : Nat} (h : k < 2 ^ 20) : pageIndex (pageAddr k) = k := by
  rw [pageIndex_eq, pageAddr, BitVec.toNat_ofNat]
  omega

/-- The page a range starts in. -/
def firstPage (start : Word) : Nat := start.toNat / 4096

/-- The loops visit the pages from the first to the last, and none where that is all of the address space. -/
theorem pageRange_eq {start end_ : Word} {l : Nat} (he : TARGET_PAGE_ALIGN end_ = pageAddr (l + 1))
    (hf : firstPage start ≤ l) (hl : l < 2 ^ 20) :
    pageRange (start &&& TARGET_PAGE_MASK) (TARGET_PAGE_ALIGN end_ - (start &&& TARGET_PAGE_MASK)) =
      if firstPage start = 0 ∧ l = 2 ^ 20 - 1 then []
      else (List.range (l + 1 - firstPage start)).map fun i => pageAddr (firstPage start + i) := by
  have hstart : start &&& TARGET_PAGE_MASK = pageAddr (firstPage start) := and_pageMask start
  have hlen : pageAddr (l + 1) - pageAddr (firstPage start) = BitVec.ofNat 32 (4096 * (l + 1 - firstPage start)) := by
    rw [pageAddr, pageAddr]
    bv_omega
  rw [he, hstart, hlen, pageRange]
  split
  · rename_i hw
    rw [hw.1, hw.2]
    rfl
  · rw [pageAddrs_eq (by omega) (by omega)]
    refine List.map_congr_left fun i _ => ?_
    rw [pageAddr, pageAddr, ← BitVec.ofNat_add, ← Nat.mul_add]

/-- The page the last byte of a range is in. -/
def lastPage (end_ : Word) : Nat := (end_.toNat - 1) / 4096

/-- The range is rounded to all of the address space. -/
def WholeSpace (start end_ : Word) : Prop := firstPage start = 0 ∧ lastPage end_ = 2 ^ 20 - 1

instance (start end_ : Word) : Decidable (WholeSpace start end_) := inferInstanceAs (Decidable (_ ∧ _))

theorem mem_pageRange {start end_ : Word} (h : start < end_) (k : Nat) :
    (∃ a ∈ pageRange (start &&& TARGET_PAGE_MASK) (TARGET_PAGE_ALIGN end_ - (start &&& TARGET_PAGE_MASK)),
      pageIndex a = k) ↔ ¬ WholeSpace start end_ ∧ firstPage start ≤ k ∧ k ≤ lastPage end_ := by
  have hlt : start.toNat < end_.toNat := BitVec.lt_def.mp h
  have he := end_.isLt
  have hle : firstPage start ≤ lastPage end_ := by
    rw [firstPage, lastPage]
    omega
  have hl : lastPage end_ < 2 ^ 20 := by
    rw [lastPage]
    omega
  have halign : TARGET_PAGE_ALIGN end_ = pageAddr (lastPage end_ + 1) := pageAlign_eq (by omega)
  rw [pageRange_eq halign hle hl]
  by_cases hw : WholeSpace start end_
  · rw [if_pos ⟨hw.1, hw.2⟩]
    simp [hw]
  · rw [if_neg fun h => hw ⟨h.1, h.2⟩]
    simp only [List.mem_map, List.mem_range, hw, not_false_iff, true_and]
    constructor
    · rintro ⟨a, ⟨i, hi, rfl⟩, hk⟩
      rw [pageIndex_pageAddr (by omega)] at hk
      omega
    · rintro ⟨h₁, h₂⟩
      refine ⟨_, ⟨k - firstPage start, by omega, rfl⟩, ?_⟩
      rw [pageIndex_pageAddr (by omega)]
      omega

/-! ## The table as a map -/

/-- The descriptor of a page, as far as it has one. -/
def L1Map.page (m : L1Map) (index : Nat) : PageDesc := (m (l1Index index)).get (l2Path index)

/-- The flags of a page. -/
def L1Map.flags (m : L1Map) (index : Nat) : Word := (m.page index).flags

theorem l1Index_eq {k : Nat} (h : k < 2 ^ 20) : l1Index k = k / 1024 := by
  show (k >>> 10) &&& (2 ^ 10 - 1) = k / 1024
  rw [Nat.and_two_pow_sub_one_eq_mod, Nat.shiftRight_eq_div_pow]
  omega

theorem l2Path_zero (k : Nat) : l2Path k 0 = k % 1024 := by
  show (k >>> 0) &&& (2 ^ 10 - 1) = k % 1024
  rw [Nat.and_two_pow_sub_one_eq_mod, Nat.shiftRight_zero]

/-- The indices tell any two pages apart. -/
theorem samePath_iff {k l : Nat} (hk : k < 2 ^ 20) (hl : l < 2 ^ 20) :
    l1Index k = l1Index l ∧ SamePath l2Levels (l2Path k) (l2Path l) ↔ k = l := by
  have hzero : SamePath l2Levels (l2Path k) (l2Path l) ↔ k % 1024 = l % 1024 := by
    rw [← l2Path_zero, ← l2Path_zero]
    exact ⟨fun h => h 0 (Nat.zero_le _), fun h i hi => Nat.eq_zero_of_le_zero hi ▸ h⟩
  rw [hzero, l1Index_eq hk, l1Index_eq hl]
  omega

theorem page_noPages (k : Nat) : noPages.page k = ⟨0, 0⟩ := get_empty _ _

theorem pageFind_eq_some {m : L1Map} {k : Nat} {p : PageDesc} (h : pageFind m k = some p) : m.page k = p := by
  have hl : (m (l1Index k)).lookup l2Levels (l2Path k) = some p := h
  rw [L1Map.page, RadixTree.Tree.get, hl, Option.getD_some]

theorem pageFind_eq_none {m : L1Map} {k : Nat} (h : pageFind m k = none) : m.page k = ⟨0, 0⟩ := by
  have hl : (m (l1Index k)).lookup l2Levels (l2Path k) = none := h
  rw [L1Map.page, RadixTree.Tree.get, hl, Option.getD_none]
  rfl

theorem pageGetFlags_eq (m : L1Map) (a : Word) : pageGetFlags m a = m.flags (pageIndex a) := by
  rw [pageGetFlags, L1Map.flags]
  cases h : pageFind m (pageIndex a) with
  | none => rw [pageFind_eq_none h]
  | some p => rw [pageFind_eq_some h]

/-- A table for the page is made where there is none; what is in the tables does not change. -/
theorem pageFindAlloc_true (m : L1Map) (k : Nat) : ∃ m', pageFindAlloc m k true = (some (m.page k), m') ∧
    pageFind m' k = some (m.page k) ∧ ∀ l, m'.page l = m.page l := by
  obtain ⟨m', hm'⟩ : ∃ m', m' = put m (l1Index k) ((m (l1Index k)).alloc l2Levels (l2Path k)) := ⟨_, rfl⟩
  have hlookup : (m' (l1Index k)).lookup l2Levels (l2Path k) = some (m.page k) := by
    rw [hm', put_self, lookup_alloc_self]
    rfl
  refine ⟨m', ?_, hlookup, fun l => ?_⟩
  · rw [pageFindAlloc, if_pos rfl, ← hm', hlookup]
  · rw [L1Map.page, L1Map.page, hm']
    by_cases h : l1Index l = l1Index k
    · rw [h, put_self, get_alloc]
    · rw [put_of_ne h]

/-- An assignment changes the one page. -/
theorem page_pageStore {m : L1Map} {k l : Nat} {p : PageDesc} (hk : k < 2 ^ 20) (hl : l < 2 ^ 20)
    (h : pageFind m k = some p) (f : PageDesc → PageDesc) :
    (pageStore m k f).page l = if k = l then f p else m.page l := by
  have hlookup : (m (l1Index k)).lookup l2Levels (l2Path k) = some p := h
  rw [pageStore, L1Map.page, L1Map.page]
  by_cases hi : l1Index l = l1Index k
  · rw [hi, put_self, get_update hlookup]
    exact if_congr (by rw [← samePath_iff hk hl, hi]; simp) rfl rfl
  · rw [put_of_ne hi, if_neg]
    rintro rfl
    exact hi rfl

/-! ## Setting flags -/

/-- No translated code is recorded for a page; nothing in the program does that. -/
def NoBlocks (m : L1Map) : Prop := ∀ k < 2 ^ 20, (m.page k).firstTb = 0

theorem setPageFlags_spec {m : L1Map} (hm : NoBlocks m) (flags addr : Word) : ∃ m', setPageFlags flags m addr = .ok m' ∧
    NoBlocks m' ∧ ∀ k < 2 ^ 20, m'.flags k = if k = pageIndex addr then flags else m.flags k := by
  obtain ⟨m₁, hfind, hsome, hpage⟩ := pageFindAlloc_true m (pageIndex addr)
  have hlt := pageIndex_lt addr
  have hstore : ∀ k < 2 ^ 20, (pageStore m₁ (pageIndex addr) fun p => { p with flags := flags }).page k =
      if pageIndex addr = k then { m.page (pageIndex addr) with flags := flags } else m.page k := fun k hk => by
    rw [page_pageStore hlt hk hsome, hpage]
  refine ⟨pageStore m₁ (pageIndex addr) fun p => { p with flags := flags }, ?_, fun k hk => ?_, fun k hk => ?_⟩
  · simp [setPageFlags, hfind, hm _ hlt]
    rfl
  · rw [hstore k hk]
    split
    · exact hm _ hlt
    · exact hm k hk
  · rw [L1Map.flags, hstore k hk, L1Map.flags]
    by_cases h : k = pageIndex addr
    · rw [if_pos h.symm, if_pos h]
    · rw [if_neg (Ne.symm h), if_neg h]

theorem setPageFlags_foldlM {m : L1Map} (hm : NoBlocks m) (flags : Word) (addrs : List Word) :
    ∃ m', addrs.foldlM (setPageFlags flags) m = .ok m' ∧ NoBlocks m' ∧
      ∀ k < 2 ^ 20, m'.flags k = if ∃ a ∈ addrs, pageIndex a = k then flags else m.flags k := by
  induction addrs generalizing m with
  | nil => exact ⟨m, rfl, hm, fun k _ => by simp⟩
  | cons a addrs ih =>
    obtain ⟨m₁, hset, hm₁, hflags₁⟩ := setPageFlags_spec hm flags a
    obtain ⟨m', hfold, hm', hflags⟩ := ih hm₁
    refine ⟨m', ?_, hm', fun k hk => ?_⟩
    · rw [List.foldlM_cons, hset]
      exact hfold
    · rw [hflags k hk, hflags₁ k hk]
      by_cases h : ∃ b ∈ addrs, pageIndex b = k
      · rw [if_pos h, if_pos (h.imp fun b hb => ⟨List.mem_cons_of_mem _ hb.1, hb.2⟩)]
      · rw [if_neg h]
        refine if_congr ?_ rfl rfl
        simp only [List.mem_cons, exists_eq_or_imp, h, or_false]
        exact eq_comm

/-- The flags a call gives the pages. -/
def storedFlags (flags : Word) : Word := if hasFlag flags PAGE_WRITE then flags ||| PAGE_WRITE_ORG else flags

theorem pageSetFlags_spec {m : L1Map} (hm : NoBlocks m) {start end_ : Word} (h : start < end_) (flags : Word) :
    ∃ m', pageSetFlags m start end_ flags = .ok m' ∧ NoBlocks m' ∧ ∀ k < 2 ^ 20, m'.flags k =
      if ¬ WholeSpace start end_ ∧ firstPage start ≤ k ∧ k ≤ lastPage end_ then storedFlags flags else m.flags k := by
  obtain ⟨m', hfold, hm', hflags⟩ := setPageFlags_foldlM hm (storedFlags flags)
    (pageRange (start &&& TARGET_PAGE_MASK) (TARGET_PAGE_ALIGN end_ - (start &&& TARGET_PAGE_MASK)))
  refine ⟨m', ?_, hm', fun k hk => ?_⟩
  · rw [pageSetFlags, if_neg (not_not.mpr h)]
    exact hfold
  · rw [hflags k hk]
    exact if_congr (mem_pageRange h k) rfl rfl

/-! ## Sequences of calls -/

structure SetFlags where
  start : Word
  end_ : Word
  flags : Word
  deriving DecidableEq

/-- The rounded range contains the address. -/
def SetFlags.Covers (c : SetFlags) (a : Word) : Prop :=
  firstPage c.start ≤ pageIndex a ∧ pageIndex a ≤ lastPage c.end_

instance (c : SetFlags) (a : Word) : Decidable (c.Covers a) := inferInstanceAs (Decidable (_ ∧ _))

/-- The calls one after the other, from the empty table. -/
def setFlagsRun (calls : List SetFlags) : Result L1Map :=
  calls.foldlM (fun m c => pageSetFlags m c.start c.end_ c.flags) noPages

/-- The flags of the last call that covers the address. -/
def lastFlags (calls : List SetFlags) (a : Word) : Word :=
  match calls.reverse.find? fun c => c.Covers a with
  | none => 0
  | some c => storedFlags c.flags

theorem lastFlags_append (calls : List SetFlags) (c : SetFlags) (a : Word) :
    lastFlags (calls ++ [c]) a = if c.Covers a then storedFlags c.flags else lastFlags calls a := by
  simp only [lastFlags, List.reverse_append, List.reverse_cons, List.reverse_nil, List.nil_append, List.singleton_append,
    List.find?_cons]
  by_cases h : c.Covers a <;> simp [h]

/-- Calls for all of the address space do nothing; the others are taken as they come. -/
theorem setFlagsRun_spec (calls : List SetFlags) (h : ∀ c ∈ calls, c.start < c.end_) :
    ∃ m, setFlagsRun calls = .ok m ∧ NoBlocks m ∧
      ∀ a, pageGetFlags m a = lastFlags (calls.filter fun c => ¬ WholeSpace c.start c.end_) a := by
  induction calls using List.reverseRecOn with
  | nil =>
    refine ⟨noPages, rfl, fun k _ => by rw [page_noPages], fun a => ?_⟩
    rw [pageGetFlags_eq, L1Map.flags, page_noPages]
    rfl
  | append_singleton calls c ih =>
    obtain ⟨m, hrun, hm, hflags⟩ := ih fun c hc => h c (by simp [hc])
    obtain ⟨m', hset, hm', hflags'⟩ := pageSetFlags_spec hm (h c (by simp)) c.flags
    refine ⟨m', ?_, hm', fun a => ?_⟩
    · rw [setFlagsRun, List.foldlM_append, ← setFlagsRun, hrun]
      simp [bind, Except.bind, hset, pure, Except.pure]
    · rw [pageGetFlags_eq, hflags' _ (pageIndex_lt a), ← pageGetFlags_eq, hflags, List.filter_append]
      by_cases hw : WholeSpace c.start c.end_
      · rw [if_neg fun hc => hc.1 hw]
        simp [hw]
      · have hone : [c].filter (fun c => decide ¬ WholeSpace c.start c.end_) = [c] := by simp [hw]
        rw [hone, lastFlags_append]
        exact if_congr (and_iff_right hw) rfl rfl

/-- Where no call is for all of the address space, every address has the flags of
the last call that covers it. -/
theorem pageGetFlags_run (calls : List SetFlags) (h : ∀ c ∈ calls, c.start < c.end_)
    (hw : ∀ c ∈ calls, ¬ WholeSpace c.start c.end_) :
    ∃ m, setFlagsRun calls = .ok m ∧ ∀ a, pageGetFlags m a = lastFlags calls a := by
  obtain ⟨m, hrun, -, hflags⟩ := setFlagsRun_spec calls h
  rw [List.filter_eq_self.mpr (by simpa using hw)] at hflags
  exact ⟨m, hrun, hflags⟩

theorem pageGetFlags_run_top : ∃ m, setFlagsRun [⟨0xffffe123, 0xfffff001, PAGE_READ⟩, ⟨0xfffff800, 0xfffff900, 3⟩] = .ok m ∧
    ∀ a, pageGetFlags m a = lastFlags [⟨0xffffe123, 0xfffff001, PAGE_READ⟩, ⟨0xfffff800, 0xfffff900, 3⟩] a :=
  pageGetFlags_run _ (by decide) (by decide)

/-- A call for all of the address space sets no flags. -/
theorem not_pageGetFlags_run : ¬ ∀ calls : List SetFlags, (∀ c ∈ calls, c.start < c.end_) →
    ∃ m, setFlagsRun calls = .ok m ∧ ∀ a, pageGetFlags m a = lastFlags calls a := by
  intro h
  obtain ⟨m, hrun, hflags⟩ := h [⟨0, 0xffffffff, PAGE_READ⟩] (by decide)
  obtain rfl : noPages = m := Except.ok.inj hrun
  have := hflags 0
  rw [pageGetFlags_eq, L1Map.flags, page_noPages] at this
  exact absurd this (by decide)

end Unitrans
