/-
What the host lets the guest do with its pages. Whatever the flags of a page permit, the protection of the host page
permits, in every run of calls that map, protect and unmap memory (`covered_of_run`); the pages behind the end of a mapping
at a fixed address are the exception, which `mmap_frag` takes to be in it.
-/
import Unitrans.FindVma

namespace Unitrans

open X86 Except

/-! ## Pages of the guest's and of the host's -/

namespace HostPages

variable (h : HostPages)

/-- How many pages of the guest's a host page has. -/
def per : Nat := 2 ^ (h.bits - 12)

/-- The host page a page is in. -/
def page (k : Nat) : Nat := k / h.per

/-- The host page that ends at a page or after it, and is the first to. -/
def upPage (k : Nat) : Nat := (k + h.per - 1) / h.per

variable {h}

theorem per_pos : 0 < h.per := Nat.two_pow_pos _

theorem pow_eq : 2 ^ h.bits = 4096 * h.per := by
  have hle : 12 ≤ h.bits := h.target_le
  obtain ⟨d, hd⟩ := Nat.exists_eq_add_of_le hle
  rw [per, hd, Nat.add_sub_cancel_left, Nat.pow_add]

theorem per_lt : h.per < 2 ^ 20 := by
  have hpow := h.pow_lt
  rw [pow_eq] at hpow
  omega

theorem addr_eq (i : Nat) : h.addr i = pageAddr (h.per * i) := by
  rw [addr, pageAddr, pow_eq, Nat.mul_assoc]

theorem mem_page {j k : Nat} : h.page k = j ↔ h.per * j ≤ k ∧ k < h.per * (j + 1) := by
  rw [page, Nat.div_eq_iff per_pos, Nat.mul_add, Nat.mul_one, Nat.mul_comm]
  have := per_pos (h := h)
  omega

theorem upPage_le {b j : Nat} : h.upPage b ≤ j ↔ b ≤ h.per * j := by
  have hpos := per_pos (h := h)
  rw [upPage, Nat.div_le_iff_le_mul_add_pred hpos]
  omega

/-- The host pages of a range. -/
theorem page_lt_upPage {b k : Nat} : h.page k < h.upPage b ↔ h.per * h.page k < b := by
  rw [← Nat.not_le, upPage_le, Nat.not_le]

theorem le_upPage (b : Nat) : b ≤ h.per * h.upPage b := upPage_le.mp (Nat.le_refl _)

theorem upPage_mul (j : Nat) : h.upPage (h.per * j) = j := by
  apply Nat.le_antisymm
  · exact upPage_le.mpr (Nat.le_refl _)
  · exact Nat.le_of_mul_le_mul_left (le_upPage (h.per * j)) per_pos

theorem mul_upPage_lt {b : Nat} : h.per * h.upPage b < b + h.per := by
  have hpos := per_pos (h := h)
  have hdiv := Nat.mul_div_le (b + h.per - 1) h.per
  show h.per * ((b + h.per - 1) / h.per) < _
  omega

theorem page_le (k : Nat) : h.per * h.page k ≤ k := Nat.mul_div_le k h.per

theorem lt_page (k : Nat) : k < h.per * (h.page k + 1) := (mem_page.mp rfl).2

end HostPages

theorem toNat_pageAddr {k : Nat} (hk : k < 2 ^ 20) : (pageAddr k).toNat = 4096 * k := by
  rw [pageAddr, BitVec.toNat_ofNat, Nat.mod_eq_of_lt (by omega)]

theorem pageAddr_add (k l : Nat) : pageAddr k + pageAddr l = pageAddr (k + l) := by
  rw [pageAddr, pageAddr, pageAddr, ← BitVec.ofNat_add, Nat.mul_add]

theorem pageAddr_sub {k l : Nat} (hle : l ≤ k) : pageAddr k - pageAddr l = pageAddr (k - l) := by
  rw [sub_eq_iff_eq_add, pageAddr_add, Nat.sub_add_cancel hle]

theorem pageAddr_lt {k l : Nat} (hk : k < 2 ^ 20) (hl : l < 2 ^ 20) : pageAddr k < pageAddr l ↔ k < l := by
  rw [BitVec.lt_def, toNat_pageAddr hk, toNat_pageAddr hl]
  omega

theorem pageAddr_inj {k l : Nat} (hk : k < 2 ^ 20) (hl : l < 2 ^ 20) : pageAddr k = pageAddr l ↔ k = l := by
  rw [← BitVec.toNat_inj, toNat_pageAddr hk, toNat_pageAddr hl]
  omega

/-- An aligned address is that of a page. -/
theorem exists_pageAddr {a : Word} (ha : a &&& ~~~TARGET_PAGE_MASK = 0) : ∃ k, a = pageAddr k ∧ k < 2 ^ 20 := by
  obtain ⟨k, hk⟩ := Nat.dvd_of_mod_eq_zero (and_not_pageMask_eq_zero.mp ha)
  have hlt := a.isLt
  refine ⟨k, ?_, by omega⟩
  rw [pageAddr, ← BitVec.toNat_inj, BitVec.toNat_ofNat]
  omega

theorem exists_pageAlign (len : Word) : ∃ n, TARGET_PAGE_ALIGN len = pageAddr n ∧ n < 2 ^ 20 := by
  rw [TARGET_PAGE_ALIGN, and_pageMask]
  have hlt := (len + TARGET_PAGE_SIZE - 1).isLt
  exact ⟨_, rfl, by omega⟩

namespace HostPages

variable {h : HostPages}

theorem and_mask {a : Nat} (ha : a < 2 ^ 20) : pageAddr a &&& h.mask = h.addr (h.page a) := by
  apply BitVec.eq_of_toNat_eq
  have hle := page_le (h := h) a
  rw [mask, size_sub_one, Align.toNat_and_not_low, addr_eq, toNat_pageAddr ha, toNat_pageAddr (by omega), pow_eq, page,
    Nat.mul_div_mul_left _ _ (by decide), Nat.mul_assoc]

theorem align_pageAddr {b : Nat} (hb : b + h.per ≤ 2 ^ 20) : h.align (pageAddr b) = h.addr (h.upPage b) := by
  have hlt := mul_upPage_lt (h := h) (b := b)
  have hper := per_pos (h := h)
  apply BitVec.eq_of_toNat_eq
  have hup : h.up (4096 * b) = 4096 * (h.per * h.upPage b) := by
    have hsum : 4096 * b + (4096 * h.per - 1) = 4095 + 4096 * (b + h.per - 1) := by omega
    rw [up, Align.up, pow_eq, hsum, ← Nat.div_div_eq_div_mul, Nat.add_mul_div_left _ _ (by decide), show 4095 / 4096 = 0 from rfl,
      Nat.zero_add, upPage, Nat.mul_assoc]
  rw [toNat_align, toNat_pageAddr (by omega), hup, addr_eq, toNat_pageAddr (by omega), if_pos (by omega)]

theorem addr_size : h.size = pageAddr h.per := by rw [size_eq, addr_eq, Nat.mul_one]

end HostPages

/-- Where a range is. -/
theorem range_pages {h : HostPages} {start len : Word} (hal : start &&& ~~~TARGET_PAGE_MASK = 0) (hlen : TARGET_PAGE_ALIGN len ≠ 0)
    (hfit : start.toNat + (TARGET_PAGE_ALIGN len).toNat + 2 ^ h.bits ≤ 2 ^ 32) :
    ∃ a n, start = pageAddr a ∧ TARGET_PAGE_ALIGN len = pageAddr n ∧ 0 < n ∧ a + n + h.per ≤ 2 ^ 20 ∧ a = pageIndex start ∧
      n = pageIndex (TARGET_PAGE_ALIGN len) := by
  obtain ⟨a, rfl, ha⟩ := exists_pageAddr hal
  obtain ⟨n, hn, hn'⟩ := exists_pageAlign len
  rw [hn] at hlen hfit ⊢
  rw [toNat_pageAddr ha, toNat_pageAddr hn', HostPages.pow_eq] at hfit
  refine ⟨a, n, rfl, rfl, ?_, by omega, (pageIndex_pageAddr ha).symm, (pageIndex_pageAddr hn').symm⟩
  rcases Nat.eq_zero_or_pos n with rfl | hpos
  · exact absurd rfl hlen
  · exact hpos

/-! ## Flags of a range -/

variable {h : HostPages} {m : L1Map} {a b i k n : Nat} {prot : Word}

theorem pageGetFlags_pageAddr (hk : k < 2 ^ 20) : pageGetFlags m (pageAddr k) = m.flags k := by
  rw [pageGetFlags_eq, pageIndex_pageAddr hk]

theorem pageAddr_succ (k : Nat) : pageAddr k + TARGET_PAGE_SIZE = pageAddr (k + 1) := by
  rw [← pageAddr_add]
  rfl

/-- The bits the loop collects. -/
theorem getLsbD_orFlags (hb : b < 2 ^ 20) : ∀ (fuel : Nat) {a : Nat} {prot : Word}, b ≤ a + fuel → a < 2 ^ 20 →
    ((Vm.orFlags m (pageAddr b) fuel (pageAddr a) prot).getLsbD i = true ↔
      prot.getLsbD i = true ∨ ∃ k, a ≤ k ∧ k < b ∧ (m.flags k).getLsbD i = true) := by
  intro fuel
  induction fuel with
  | zero =>
    intro a prot hle _
    refine ⟨Or.inl, fun hor => hor.resolve_right fun hk => ?_⟩
    obtain ⟨k, h₁, h₂, -⟩ := hk
    omega
  | succ fuel ih =>
    intro a prot hle ha
    rw [Vm.orFlags]
    by_cases hlt : a < b
    · rw [if_pos ((pageAddr_lt ha hb).mpr hlt), pageAddr_succ, ih (by omega) (by omega), pageGetFlags_pageAddr ha, BitVec.getLsbD_or,
        Bool.or_eq_true, or_assoc]
      refine or_congr_right ⟨fun hor => ?_, fun hk => ?_⟩
      · rcases hor with hbit | ⟨k, h₁, h₂, hbit⟩
        · exact ⟨a, Nat.le_refl _, hlt, hbit⟩
        · exact ⟨k, by omega, h₂, hbit⟩
      · obtain ⟨k, h₁, h₂, hbit⟩ := hk
        rcases Nat.eq_or_lt_of_le h₁ with rfl | h₁
        · exact Or.inl hbit
        · exact Or.inr ⟨k, h₁, h₂, hbit⟩
    · rw [if_neg fun hlt' => hlt ((pageAddr_lt ha hb).mp hlt')]
      refine ⟨Or.inl, fun hor => hor.resolve_right fun hk => ?_⟩
      obtain ⟨k, h₁, h₂, -⟩ := hk
      omega

theorem getLsbD_orPageFlags (ha : a < 2 ^ 20) (hb : b < 2 ^ 20) :
    (Vm.orPageFlags m (pageAddr a) (pageAddr b) prot).getLsbD i = true ↔
      prot.getLsbD i = true ∨ ∃ k, a ≤ k ∧ k < b ∧ (m.flags k).getLsbD i = true :=
  getLsbD_orFlags hb (2 ^ 20) (by omega) ha

theorem eq_zero_iff_getLsbD {w : Word} : w = 0 ↔ ∀ i, ¬ w.getLsbD i = true := by
  constructor
  · intro hw i
    simp [hw]
  · intro hw
    apply BitVec.eq_of_getLsbD_eq
    intro i _
    simp [hw i]

/-- Nothing is collected where there are no flags. -/
theorem orPageFlags_eq_zero (ha : a < 2 ^ 20) (hb : b < 2 ^ 20) :
    Vm.orPageFlags m (pageAddr a) (pageAddr b) prot = 0 ↔ prot = 0 ∧ ∀ k, a ≤ k → k < b → m.flags k = 0 := by
  rw [eq_zero_iff_getLsbD, eq_zero_iff_getLsbD (w := prot)]
  simp only [getLsbD_orPageFlags ha hb, not_or, not_exists, not_and]
  constructor
  · intro hw
    exact ⟨fun i => (hw i).1, fun k h₁ h₂ => eq_zero_iff_getLsbD.mpr fun i => (hw i).2 k h₁ h₂⟩
  · intro hw i
    exact ⟨hw.1 i, fun k h₁ h₂ => eq_zero_iff_getLsbD.mp (hw.2 k h₁ h₂) i⟩

/-- The bits the loop over the bytes of a host page collects. -/
theorem getLsbD_fragBytes {e x y : Nat} (he : e < 2 ^ 20) (hx : x < 2 ^ 20) (hy : y < 2 ^ 20) :
    ∀ (fuel : Nat) {v : Nat} {prot : Word}, 4096 * e ≤ v + fuel → v < 2 ^ 32 →
      ((Vm.fragFlags m (pageAddr e) (pageAddr x) (pageAddr y) fuel (BitVec.ofNat 32 v) prot).getLsbD i = true ↔
        prot.getLsbD i = true ∨ ∃ u, v ≤ u ∧ u < 4096 * e ∧ (u < 4096 * x ∨ 4096 * y ≤ u) ∧ (m.flags (u / 4096)).getLsbD i = true) := by
  intro fuel
  induction fuel with
  | zero =>
    intro v prot hle _
    refine ⟨Or.inl, fun hor => hor.resolve_right fun hu => ?_⟩
    obtain ⟨u, h₁, h₂, -⟩ := hu
    omega
  | succ fuel ih =>
    intro v prot hle hv
    have hval : (BitVec.ofNat 32 v).toNat = v := by rw [BitVec.toNat_ofNat, Nat.mod_eq_of_lt hv]
    have hsucc : BitVec.ofNat 32 v + 1 = BitVec.ofNat 32 (v + 1) := (BitVec.ofNat_add ..).symm
    have hlt : BitVec.ofNat 32 v < pageAddr e ↔ v < 4096 * e := by rw [BitVec.lt_def, hval, toNat_pageAddr he]
    have hout : (BitVec.ofNat 32 v < pageAddr x ∨ pageAddr y ≤ BitVec.ofNat 32 v) ↔ (v < 4096 * x ∨ 4096 * y ≤ v) := by
      rw [BitVec.lt_def, BitVec.le_def, hval, toNat_pageAddr hx, toNat_pageAddr hy]
    have hflags : pageGetFlags m (BitVec.ofNat 32 v) = m.flags (v / 4096) := by rw [pageGetFlags_eq, pageIndex_eq, hval]
    rw [Vm.fragFlags]
    by_cases hve : v < 4096 * e
    · rw [if_pos (hlt.mpr hve), hsucc, ih (by omega) (by omega)]
      by_cases ho : v < 4096 * x ∨ 4096 * y ≤ v
      · rw [if_pos (hout.mpr ho), hflags, BitVec.getLsbD_or, Bool.or_eq_true, or_assoc]
        refine or_congr_right ⟨fun hor => ?_, fun hu => ?_⟩
        · rcases hor with hbit | ⟨u, h₁, h₂, h₃⟩
          · exact ⟨v, Nat.le_refl _, hve, ho, hbit⟩
          · exact ⟨u, by omega, h₂, h₃⟩
        · obtain ⟨u, h₁, h₂, h₃, hbit⟩ := hu
          rcases Nat.eq_or_lt_of_le h₁ with rfl | h₁
          · exact Or.inl hbit
          · exact Or.inr ⟨u, h₁, h₂, h₃, hbit⟩
      · rw [if_neg (hout.not.mpr ho)]
        refine or_congr_right ⟨fun hu => ?_, fun hu => ?_⟩
        · obtain ⟨u, h₁, h₂⟩ := hu
          exact ⟨u, by omega, h₂⟩
        · obtain ⟨u, h₁, h₂, h₃, hbit⟩ := hu
          rcases Nat.eq_or_lt_of_le h₁ with rfl | h₁
          · exact absurd h₃ ho
          · exact ⟨u, h₁, h₂, h₃, hbit⟩
    · rw [if_neg (hlt.not.mpr hve)]
      refine ⟨Or.inl, fun hor => hor.resolve_right fun hu => ?_⟩
      obtain ⟨u, h₁, h₂, -⟩ := hu
      omega

/-- The flags of the pages of a host page that are not in a mapping. -/
theorem getLsbD_fragFlags {j x y : Nat} (hj : h.per * (j + 1) < 2 ^ 20) (hx : x < 2 ^ 20) (hy : y < 2 ^ 20) :
    (Vm.fragFlags m (h.addr j + h.size) (pageAddr x) (pageAddr y) h.size.toNat (h.addr j) 0).getLsbD i = true ↔
      ∃ k, h.page k = j ∧ (k < x ∨ y ≤ k) ∧ (m.flags k).getLsbD i = true := by
  have hmul : h.per * (j + 1) = h.per * j + h.per := Nat.mul_succ _ _
  have hend : h.addr j + h.size = pageAddr (h.per * (j + 1)) := by rw [HostPages.addr_eq, HostPages.addr_size, pageAddr_add, hmul]
  have hsize : h.size.toNat = 4096 * h.per := by rw [HostPages.toNat_size, HostPages.pow_eq]
  have hstart : h.addr j = BitVec.ofNat 32 (4096 * (h.per * j)) := HostPages.addr_eq j
  have hzero : ¬ (0 : Word).getLsbD i = true := by simp
  rw [hend, hstart, hsize, getLsbD_fragBytes hj hx hy _ (by omega) (by omega), or_iff_right hzero]
  constructor
  · intro hu
    obtain ⟨u, h₁, h₂, h₃, hbit⟩ := hu
    exact ⟨u / 4096, HostPages.mem_page.mpr (by omega), by omega, hbit⟩
  · intro hk
    obtain ⟨k, hkj, ho, hbit⟩ := hk
    have hin := HostPages.mem_page.mp hkj
    exact ⟨4096 * k, by omega, by omega, by omega, by rwa [Nat.mul_div_cancel_left _ (by decide)]⟩

/-! ## What the host does -/

/-- The host page overlaps a range. -/
def Overlaps (h : HostPages) (addr len : Word) (j : Nat) : Prop :=
  addr.toNat < 2 ^ h.bits * (j + 1) ∧ 2 ^ h.bits * j < addr.toNat + len.toNat

instance (addr len : Word) (j : Nat) : Decidable (Overlaps h addr len j) := inferInstanceAs (Decidable (_ ∧ _))

/-- What is mapped in the host pages of a range changes. -/
def HostMap.set (h : HostPages) (m : HostMap) (addr len : Word) (v : Option Word) : HostMap := fun j =>
  if Overlaps h addr len j then v else m j

/-- What the host has moved, from `old` to `p`: it is there with the protection it had. -/
structure Remapped (h : HostPages) (m m' : HostMap) (old oldSize newSize flags new p : Word) : Prop where
  aligned : old.toNat % 2 ^ h.bits = 0 ∧ p.toNat % 2 ^ h.bits = 0
  fits : old.toNat + oldSize.toNat < 2 ^ 32 ∧ p.toNat + newSize.toNat < 2 ^ 32
  moved : ∃ v, (∀ j, Overlaps h old oldSize j → m j = some v) ∧ m' = (m.set h old oldSize none).set h p newSize (some v)
  fixed : flags &&& MREMAP_FIXED ≠ 0 → p = new ∧ ∀ j, Overlaps h new newSize j → ¬ Overlaps h old oldSize j
  inPlace : flags &&& MREMAP_FIXED = 0 → flags &&& MREMAP_MAYMOVE = 0 →
    p = old ∧ ∀ j, Overlaps h old newSize j → ¬ Overlaps h old oldSize j → m j = none

/-- What the emulator relies on. A call that maps memory at a given address maps it there; one that may choose takes host
pages that are not mapped; a call that fails changes nothing. -/
structure Kernel.Lawful (h : HostPages) (K : Kernel) : Prop where
  fixed : ∀ (m m' : HostMap) (c : MmapCall) (p : Word), c.flags &&& MAP_FIXED ≠ 0 → K.mmap m c = (some p, m') →
    p = c.addr ∧ m' = m.set h c.addr c.len (some c.prot)
  anywhere : ∀ (m m' : HostMap) (c : MmapCall) (p : Word), c.flags &&& MAP_FIXED = 0 → K.mmap m c = (some p, m') →
    p.toNat % 2 ^ h.bits = 0 ∧ p.toNat + c.len.toNat < 2 ^ 32 ∧ (∀ j, Overlaps h p c.len j → m j = none) ∧
      m' = m.set h p c.len (some c.prot)
  failed : ∀ (m m' : HostMap) (c : MmapCall), K.mmap m c = (none, m') → m' = m
  munmap : ∀ (m m' : HostMap) (addr len ret : Word), K.munmap m addr len = (ret, m') →
    ret = 0 ∧ m' = m.set h addr len none ∨ ret ≠ 0 ∧ m' = m
  mprotect : ∀ (m m' : HostMap) (addr len prot : Word), K.mprotect m addr len prot = (0, m') →
    m' = m.set h addr len (some prot)
  mremap : ∀ (m m' : HostMap) (old oldSize newSize flags new p : Word),
    K.mremap m old oldSize newSize flags new = (some p, m') → Remapped h m m' old oldSize newSize flags new p
  stayed : ∀ (m m' : HostMap) (old oldSize newSize flags new : Word), K.mremap m old oldSize newSize flags new = (none, m') → m' = m
  refused : ∀ (m : HostMap) (addr len prot : Word), (K.mprotect m addr len prot).1 ≠ 0 → (K.mprotect m addr len prot).1 = -1

/-- The host refuses no protection for pages that are mapped, which `mmap_frag` takes for granted: it does not look at what
`mprotect` returns. -/
def Kernel.Granting (h : HostPages) (K : Kernel) : Prop :=
  ∀ (m : HostMap) (addr len prot : Word), (∀ j, Overlaps h addr len j → m j ≠ none) → (K.mprotect m addr len prot).1 = 0

/-- The host pages a range overlaps. -/
def hostPagesIn (h : HostPages) (addr len : Word) : List Nat :=
  (List.range' (addr.toNat / 2 ^ h.bits) (len.toNat / 2 ^ h.bits + 2)).filter (Overlaps h addr len ·)

theorem mem_hostPagesIn {addr len : Word} {j : Nat} : j ∈ hostPagesIn h addr len ↔ Overlaps h addr len j := by
  have hpos := Nat.two_pow_pos h.bits
  rw [hostPagesIn, List.mem_filter, List.mem_range'_1, decide_eq_true_iff, and_iff_right_iff_imp]
  intro ho
  obtain ⟨h₁, h₂⟩ := ho
  have h₃ := Nat.div_lt_of_lt_mul h₁
  have h₄ := Nat.lt_mul_div_succ addr.toNat hpos
  have h₅ := Nat.lt_mul_div_succ len.toNat hpos
  have h₆ : 2 ^ h.bits * j < 2 ^ h.bits * (addr.toNat / 2 ^ h.bits + 1 + (len.toNat / 2 ^ h.bits + 1)) := by
    rw [Nat.mul_add]
    omega
  have h₇ := Nat.lt_of_mul_lt_mul_left h₆
  omega

/-- A host that does what it is asked for, wherever it can. -/
def obliging (h : HostPages) : Kernel where
  mmap m c :=
    if c.flags &&& MAP_FIXED ≠ 0 then (some c.addr, m.set h c.addr c.len (some c.prot))
    else if c.addr.toNat % 2 ^ h.bits = 0 ∧ c.addr.toNat + c.len.toNat < 2 ^ 32 ∧ ∀ j ∈ hostPagesIn h c.addr c.len, m j = none then
      (some c.addr, m.set h c.addr c.len (some c.prot))
    else (none, m)
  munmap m addr len := (0, m.set h addr len none)
  mprotect m addr len prot :=
    if ∀ j ∈ hostPagesIn h addr len, m j ≠ none then (0, m.set h addr len (some prot)) else (-1, m)
  mremap m old oldSize newSize flags new :=
    if (flags &&& MREMAP_FIXED ≠ 0 ∧ (old.toNat % 2 ^ h.bits = 0 ∧ new.toNat % 2 ^ h.bits = 0) ∧
        (old.toNat + oldSize.toNat < 2 ^ 32 ∧ new.toNat + newSize.toNat < 2 ^ 32) ∧
        (∀ j ∈ hostPagesIn h old oldSize, m j = m (old.toNat / 2 ^ h.bits)) ∧
        ∀ j ∈ hostPagesIn h new newSize, ¬ Overlaps h old oldSize j) ∧ m (old.toNat / 2 ^ h.bits) ≠ none then
      (some new, (m.set h old oldSize none).set h new newSize (m (old.toNat / 2 ^ h.bits)))
    else (none, m)
  pread _ _ _ _ := true

theorem obliging_lawful (h : HostPages) : (obliging h).Lawful h where
  fixed m m' c p hfix hs := by
    obtain ⟨hp, hm⟩ := Prod.mk.inj ((if_pos hfix).symm.trans hs)
    exact ⟨(Option.some.inj hp).symm, hm.symm⟩
  anywhere m m' c p hfix hs := by
    have hs := (if_neg (not_not.mpr hfix)).symm.trans hs
    split at hs
    · rename_i hc
      obtain ⟨hp, hm⟩ := Prod.mk.inj hs
      obtain rfl := Option.some.inj hp
      exact ⟨hc.1, hc.2.1, fun j hj => hc.2.2 j (mem_hostPagesIn.mpr hj), hm.symm⟩
    · cases (Prod.mk.inj hs).1
  failed m m' c hs := by
    unfold obliging at hs
    dsimp only at hs
    split at hs
    · cases (Prod.mk.inj hs).1
    split at hs
    · cases (Prod.mk.inj hs).1
    · exact (Prod.mk.inj hs).2.symm
  munmap m m' addr len ret hs := by
    obtain ⟨hr, hm⟩ := Prod.mk.inj hs
    exact Or.inl ⟨hr.symm, hm.symm⟩
  mprotect m m' addr len prot hs := by
    unfold obliging at hs
    dsimp only at hs
    split at hs
    · exact (Prod.mk.inj hs).2.symm
    · exact absurd (Prod.mk.inj hs).1 (by decide)
  refused m addr len prot hne := by
    unfold obliging at hne ⊢
    dsimp only at hne ⊢
    split at hne
    · exact absurd rfl hne
    · rename_i hc
      rw [if_neg hc]
  mremap m m' old oldSize newSize flags new p hs := by
    unfold obliging at hs
    dsimp only at hs
    split at hs
    swap
    · cases (Prod.mk.inj hs).1
    rename_i hc
    obtain ⟨⟨hfix, hal, hfit, hold, hover⟩, hne⟩ := hc
    obtain ⟨hp, hm⟩ := Prod.mk.inj hs
    obtain rfl := Option.some.inj hp
    obtain ⟨v, hv⟩ := Option.ne_none_iff_exists'.mp hne
    rw [hv] at hm hold
    exact ⟨hal, hfit, ⟨v, fun j hj => hold j (mem_hostPagesIn.mpr hj), hm.symm⟩, fun _ => ⟨rfl, fun j hj => hover j (mem_hostPagesIn.mpr hj)⟩,
      fun hno => absurd hno hfix⟩
  stayed m m' old oldSize newSize flags new hs := by
    unfold obliging at hs
    dsimp only at hs
    split at hs
    · cases (Prod.mk.inj hs).1
    · exact (Prod.mk.inj hs).2.symm

theorem obliging_granting (h : HostPages) : (obliging h).Granting h := by
  intro m addr len prot hall
  unfold obliging
  dsimp only
  rw [if_pos fun j hj => hall j (mem_hostPagesIn.mp hj)]

theorem overlaps_addr {j l : Nat} (hl : h.per * (l + n) ≤ 2 ^ 20) (hn : 0 < n) (hlt : h.per * n < 2 ^ 20) :
    Overlaps h (h.addr l) (h.addr n) j ↔ l ≤ j ∧ j < l + n := by
  have hpos := HostPages.per_pos (h := h)
  have hmul : h.per * (l + n) = h.per * l + h.per * n := Nat.mul_add ..
  have hn' := Nat.mul_pos hpos hn
  have hcancel : ∀ p q, 4096 * (h.per * p) < 4096 * (h.per * q) ↔ p < q := fun p q => by
    rw [Nat.mul_lt_mul_left (by decide : 0 < 4096), Nat.mul_lt_mul_left hpos]
  rw [Overlaps, HostPages.addr_eq, HostPages.addr_eq, toNat_pageAddr (by omega), toNat_pageAddr hlt, HostPages.pow_eq, Nat.mul_assoc,
    Nat.mul_assoc, ← Nat.mul_add, ← hmul, hcancel, hcancel]
  omega

/-- One host page. -/
theorem overlaps_page {j l : Nat} (hl : h.per * (l + 1) ≤ 2 ^ 20) (hsmall : h.per < 2 ^ 20) :
    Overlaps h (h.addr l) h.size j ↔ j = l := by
  rw [HostPages.size_eq, overlaps_addr hl (by decide) (by omega)]
  omega

/-! ## Protection and flags -/

/-- A protection permits what flags permit. -/
def Permits (p f : Word) : Prop := ∀ i < 3, f.getLsbD i = true → p.getLsbD i = true

theorem Permits.refl (p : Word) : Permits p p := fun _ _ hi => hi

theorem Permits.trans {p q r : Word} (h₁ : Permits p q) (h₂ : Permits q r) : Permits p r := fun i hi hr => h₁ i hi (h₂ i hi hr)

theorem getLsbD_pageBits {i : Nat} (hi : i < 3) : PAGE_BITS.getLsbD i = true := by
  match i, hi with
  | 0, _ => rfl
  | 1, _ => rfl
  | 2, _ => rfl

/-- The bits above do not matter. -/
theorem permits_and {p f : Word} (hp : Permits p f) : Permits (p &&& PAGE_BITS) f := fun i hi hf => by
  rw [BitVec.getLsbD_and, hp i hi hf, getLsbD_pageBits hi]
  rfl

theorem permits_or_left (p q : Word) : Permits (p ||| q) p := fun i _ hp => by
  rw [BitVec.getLsbD_or, hp]
  rfl

theorem permits_or_right (p q : Word) : Permits (p ||| q) q := fun i _ hq => by
  rw [BitVec.getLsbD_or, hq, Bool.or_true]

theorem Permits.or {p f g : Word} (hf : Permits p f) (hg : Permits p g) : Permits p (f ||| g) := fun i hi hor => by
  rw [BitVec.getLsbD_or, Bool.or_eq_true] at hor
  exact hor.elim (hf i hi) (hg i hi)

/-- The host page of every page with flags is mapped, and its protection permits what the flags do. -/
def Covered (h : HostPages) (s : Vm) : Prop :=
  ∀ k < 2 ^ 20, s.pages.flags k ≠ 0 → ∃ p, s.host (h.page k) = some p ∧ Permits p (s.pages.flags k)

/-- The same, but for the pages in the host pages `D`. -/
def CoveredOff (h : HostPages) (D : Set Nat) (s : Vm) : Prop :=
  ∀ k < 2 ^ 20, h.page k ∉ D → s.pages.flags k ≠ 0 → ∃ p, s.host (h.page k) = some p ∧ Permits p (s.pages.flags k)

/-- Nothing but what the host has mapped differs. -/
structure OnlyHost (s s' : Vm) : Prop where
  pages : s'.pages = s.pages
  next : s'.mmapNextStart = s.mmapNextStart

theorem OnlyHost.refl (s : Vm) : OnlyHost s s := ⟨rfl, rfl⟩

theorem OnlyHost.trans {s t s' : Vm} (h₁ : OnlyHost s t) (h₂ : OnlyHost t s') : OnlyHost s s' :=
  ⟨h₂.pages.trans h₁.pages, h₂.next.trans h₁.next⟩

/-- The host pages `D` get a protection for a mapping of the pages from `a` to `b`: it permits what the mapping is for, and
what the flags of their other pages do, less those of the pages `T`. -/
structure Given (h : HostPages) (a b : Nat) (prot : Word) (T D : Set Nat) (s s' : Vm) : Prop where
  only : OnlyHost s s'
  other : ∀ j, j ∉ D → s'.host j = s.host j
  given : ∀ j ∈ D, ∃ p, s'.host j = some p ∧ Permits p prot ∧
    ∀ k < 2 ^ 20, h.page k = j → k < a ∨ b ≤ k → k ∉ T → Permits p (s.pages.flags k)

variable {s t s' : Vm} {T D E : Set Nat} {K : Kernel}

theorem Covered.off (hc : Covered h s) : CoveredOff h D s := fun k hk _ => hc k hk

theorem Given.pages (hg : Given h a b prot T D s s') : s'.pages = s.pages := hg.only.pages

theorem Given.refl (s : Vm) : Given h a b prot T ∅ s s := ⟨.refl s, fun _ _ => rfl, fun j hj => absurd hj (Set.notMem_empty j)⟩

theorem Given.trans (h₁ : Given h a b prot T D s t) (h₂ : Given h a b prot T E t s') : Given h a b prot T (D ∪ E) s s' := by
  refine ⟨h₁.only.trans h₂.only, fun j hj => ?_, fun j hj => ?_⟩
  · rw [h₂.other j fun hE => hj (Or.inr hE), h₁.other j fun hD => hj (Or.inl hD)]
  · by_cases hE : j ∈ E
    · have hg := h₂.given j hE
      rwa [h₁.pages] at hg
    · rw [h₂.other j hE]
      exact h₁.given j (hj.resolve_right hE)

/-! ## Protecting -/

namespace HostPages

theorem addr_lt {i j : Nat} (hi : h.per * i < 2 ^ 20) (hj : h.per * j < 2 ^ 20) : h.addr i < h.addr j ↔ i < j := by
  rw [addr_eq, addr_eq, pageAddr_lt hi hj, Nat.mul_lt_mul_left per_pos]

theorem addr_inj {i j : Nat} (hi : h.per * i < 2 ^ 20) (hj : h.per * j < 2 ^ 20) : h.addr i = h.addr j ↔ i = j := by
  rw [addr_eq, addr_eq, pageAddr_inj hi hj, Nat.mul_right_inj (Nat.ne_of_gt per_pos)]

theorem addr_lt_pageAddr {i : Nat} (hi : h.per * i < 2 ^ 20) (hk : k < 2 ^ 20) : h.addr i < pageAddr k ↔ h.per * i < k := by
  rw [addr_eq, pageAddr_lt hi hk]

theorem pageAddr_lt_addr {i : Nat} (hk : k < 2 ^ 20) (hi : h.per * i < 2 ^ 20) : pageAddr k < h.addr i ↔ k < h.per * i := by
  rw [addr_eq, pageAddr_lt hk hi]

theorem addr_sub {i j : Nat} (hle : j ≤ i) : h.addr i - h.addr j = h.addr (i - j) := by
  rw [addr_eq, addr_eq, addr_eq, pageAddr_sub (Nat.mul_le_mul_left _ hle), Nat.mul_sub]

theorem addr_succ (i : Nat) : h.addr i + h.size = h.addr (i + 1) := by rw [size_eq, addr_add]

end HostPages

theorem callMprotect_spec (hK : K.Lawful h) {l n : Nat} (hl : h.per * (l + n) ≤ 2 ^ 20) (hn : 0 < n) (hlt : h.per * n < 2 ^ 20)
    (hs : s.callMprotect K (h.addr l) (h.addr n) prot = (0, t)) :
    OnlyHost s t ∧ ∀ j, t.host j = if l ≤ j ∧ j < l + n then some prot else s.host j := by
  unfold Vm.callMprotect at hs
  cases hcall : K.mprotect s.host (h.addr l) (h.addr n) prot with
  | mk ret host =>
    rw [hcall] at hs
    obtain ⟨rfl, rfl⟩ := Prod.mk.inj hs
    refine ⟨⟨rfl, rfl⟩, fun j => ?_⟩
    show host j = _
    rw [hK.mprotect _ _ _ _ _ hcall, HostMap.set]
    exact if_congr (overlaps_addr hl hn hlt) rfl rfl

/-- The host pages of a range that is within the mapping get its protection. -/
theorem given_inside {l n : Nat} (ha : a ≤ h.per * l) (hb : h.per * (l + n) ≤ b) (honly : OnlyHost s t)
    (hhost : ∀ j, t.host j = if l ≤ j ∧ j < l + n then some prot else s.host j) : Given h a b prot T (Set.Ico l (l + n)) s t := by
  refine ⟨honly, fun j hj => ?_, fun j hj => ⟨prot, ?_, .refl _, fun k _ hk ho => ?_⟩⟩
  · have hj : ¬ (l ≤ j ∧ j < l + n) := hj
    rw [hhost, if_neg hj]
  · have hj : l ≤ j ∧ j < l + n := hj
    rw [hhost, if_pos hj]
  · obtain ⟨h₁, h₂⟩ := Set.mem_Ico.mp hj
    obtain ⟨h₃, h₄⟩ := HostPages.mem_page.mp hk
    have h₅ := Nat.mul_le_mul_left h.per h₁
    have h₆ := Nat.mul_le_mul_left h.per (show j + 1 ≤ l + n from h₂)
    omega

/-- A host page gets a protection that permits what it should. -/
theorem given_page (hK : K.Lawful h) {l : Nat} {prot1 : Word} (hl : h.per * (l + 1) ≤ 2 ^ 20)
    (hprot : Permits prot1 prot) (hflags : ∀ k < 2 ^ 20, h.page k = l → k < a ∨ b ≤ k → k ∉ T → Permits prot1 (s.pages.flags k))
    (hs : s.callMprotect K (h.addr l) h.size prot1 = (0, t)) : Given h a b prot T (Set.Ico l (l + 1)) s t := by
  rw [HostPages.size_eq] at hs
  have hper := HostPages.per_lt (h := h)
  obtain ⟨honly, hhost⟩ := callMprotect_spec hK hl (by decide) (by omega) hs
  refine ⟨honly, fun j hj => ?_, fun j hj => ?_⟩
  · have hj : ¬ (l ≤ j ∧ j < l + 1) := hj
    rw [hhost, if_neg hj]
  · have hj : l ≤ j ∧ j < l + 1 := hj
    obtain rfl : j = l := by omega
    exact ⟨prot1, by rw [hhost, if_pos hj], hprot, hflags⟩

/-- Where a call that protects is: the host pages still to do. -/
theorem mprotectStart_spec (hK : K.Lawful h) {u : Nat} {ret : Word} {r : Vm.Rest} (hab : a < b) (hb : b + h.per ≤ 2 ^ 20)
    (hu : u = h.upPage b) (hs : s.mprotectStart h K (pageAddr a) prot ⟨h.addr (h.page a), h.addr u, pageAddr b⟩ = (ret, r, t)) (h0 : ret = 0) :
    ∃ l b', r = ⟨h.addr l, h.addr u, pageAddr b'⟩ ∧ h.page a ≤ l ∧ a ≤ h.per * l ∧
      (b' = b ∧ l < u ∨ b' = h.per * u ∧ l = u) ∧ Given h a b prot T (Set.Ico (h.page a) l) s t := by
  subst h0
  have hper := HostPages.per_lt (h := h)
  have hle := HostPages.page_le (h := h) a
  have hlt := HostPages.lt_page (h := h) a
  have hup := HostPages.le_upPage (h := h) b
  have hup' := HostPages.mul_upPage_lt (h := h) (b := b)
  rw [← hu] at hup hup'
  have hsucc : h.per * (h.page a + 1) = h.per * h.page a + h.per := Nat.mul_succ ..
  have hpage : h.page a < u := by
    have := Nat.lt_of_mul_lt_mul_left (show h.per * h.page a < h.per * u by omega)
    exact this
  have hmul := Nat.mul_le_mul_left h.per (show h.page a + 1 ≤ u from hpage)
  unfold Vm.mprotectStart at hs
  dsimp only at hs
  by_cases hal : h.per * h.page a < a
  · rw [if_pos ((HostPages.addr_lt_pageAddr (by omega) (by omega)).mpr hal)] at hs
    obtain ⟨prot1, hprot1⟩ : ∃ prot1, prot1 = if h.addr u = h.addr (h.page a) + h.size then
        Vm.orPageFlags s.pages (pageAddr b) (h.addr u) (Vm.orPageFlags s.pages (h.addr (h.page a)) (pageAddr a) prot)
      else Vm.orPageFlags s.pages (h.addr (h.page a)) (pageAddr a) prot := ⟨_, rfl⟩
    rw [← hprot1] at hs
    cases hcall : s.callMprotect K (h.addr (h.page a)) h.size (prot1 &&& PAGE_BITS) with
    | mk ret' t' =>
      rw [hcall] at hs
      simp only [Prod.mk.injEq] at hs
      obtain ⟨rfl, rfl, rfl⟩ := hs
      have hsingle : h.addr u = h.addr (h.page a) + h.size ↔ u = h.page a + 1 := by
        rw [HostPages.addr_succ, HostPages.addr_inj (by omega) (by omega)]
      -- the flags of the pages before the range, and of those behind it in the same host page
      have hbits : ∀ i, prot.getLsbD i = true ∨ (∃ k, h.page k = h.page a ∧ (k < a ∨ b ≤ k) ∧ (s.pages.flags k).getLsbD i = true) →
          prot1.getLsbD i = true := fun i hi => by
        have hfirst : prot.getLsbD i = true ∨ (∃ k, h.page k = h.page a ∧ k < a ∧ (s.pages.flags k).getLsbD i = true) →
            (Vm.orPageFlags s.pages (h.addr (h.page a)) (pageAddr a) prot).getLsbD i = true := fun hi => by
          rw [HostPages.addr_eq, getLsbD_orPageFlags (by omega) (by omega)]
          refine hi.imp_right fun hk => ?_
          obtain ⟨k, hk, hka, hbit⟩ := hk
          exact ⟨k, (HostPages.mem_page.mp hk).1, hka, hbit⟩
        by_cases hone : u = h.page a + 1
        · rw [hprot1, if_pos (hsingle.mpr hone), HostPages.addr_eq u, getLsbD_orPageFlags (by omega) (by omega)]
          rcases hi with hi | ⟨k, hk, hka | hkb, hbit⟩
          · exact Or.inl (hfirst (Or.inl hi))
          · exact Or.inl (hfirst (Or.inr ⟨k, hk, hka, hbit⟩))
          · exact Or.inr ⟨k, hkb, by rw [hone]; exact (HostPages.mem_page.mp hk).2, hbit⟩
        · rw [hprot1, if_neg (hsingle.not.mpr hone)]
          refine hfirst (hi.imp_right fun hk => ?_)
          obtain ⟨k, hk, hka | hkb, hbit⟩ := hk
          · exact ⟨k, hk, hka, hbit⟩
          · have hlast : ¬ u ≤ h.page a + 1 := by omega
            have hend := (HostPages.mem_page.mp hk).2
            rw [hu, HostPages.upPage_le] at hlast
            omega
      have hgiven : Given h a b prot T (Set.Ico (h.page a) (h.page a + 1)) s t' := by
        refine given_page hK (by omega) (permits_and fun i _ hi => hbits i (Or.inl hi)) (fun k _ hk ho _ => ?_) hcall
        exact permits_and fun i _ hi => hbits i (Or.inr ⟨k, hk, ho, hi⟩)
      refine ⟨h.page a + 1, if u = h.page a + 1 then h.per * u else b, ?_, Nat.le_succ _, by omega, ?_, hgiven⟩
      · by_cases hone : u = h.page a + 1
        · rw [if_pos (hsingle.mpr hone), if_pos hone, HostPages.addr_succ, HostPages.addr_eq u]
        · rw [if_neg (hsingle.not.mpr hone), if_neg hone, HostPages.addr_succ]
      · by_cases hone : u = h.page a + 1
        · rw [if_pos hone]
          exact Or.inr ⟨rfl, hone.symm⟩
        · rw [if_neg hone]
          exact Or.inl ⟨rfl, by omega⟩
  · rw [if_neg ((HostPages.addr_lt_pageAddr (by omega) (by omega)).not.mpr hal)] at hs
    simp only [Prod.mk.injEq] at hs
    obtain ⟨-, rfl, rfl⟩ := hs
    refine ⟨h.page a, b, rfl, Nat.le_refl _, by omega, Or.inl ⟨rfl, hpage⟩, ?_⟩
    rw [Set.Ico_self]
    exact .refl s

theorem mprotectEnd_spec (hK : K.Lawful h) {l u b' : Nat} {ret : Word} {r : Vm.Rest} (hb : b + h.per ≤ 2 ^ 20)
    (hu : u = h.upPage b) (hal : a ≤ h.per * l) (hb' : b' = b ∧ l < u ∨ b' = h.per * u ∧ l = u)
    (hs : s.mprotectEnd h K prot ⟨h.addr l, h.addr u, pageAddr b'⟩ = (ret, r, t)) (h0 : ret = 0) :
    ∃ v, r.hostStart = h.addr l ∧ r.hostEnd = h.addr v ∧ l ≤ v ∧ v ≤ u ∧ (h.per * v ≤ b ∨ l = v) ∧
      Given h a b prot T (Set.Ico v u) s t := by
  subst h0
  have hper := HostPages.per_lt (h := h)
  have hup := HostPages.le_upPage (h := h) b
  have hup' := HostPages.mul_upPage_lt (h := h) (b := b)
  rw [← hu] at hup hup'
  unfold Vm.mprotectEnd at hs
  dsimp only at hs
  by_cases hlt : b' < h.per * u
  · rw [if_pos ((HostPages.pageAddr_lt_addr (by omega) (by omega)).mpr hlt)] at hs
    obtain ⟨rfl, hlu⟩ : b' = b ∧ l < u := hb'.resolve_right fun he => by omega
    have hsub : h.addr u - h.size = h.addr (u - 1) := by rw [HostPages.size_eq, HostPages.addr_sub (by omega)]
    have hpred : h.per * u = h.per * (u - 1) + h.per := by rw [← Nat.mul_succ, Nat.succ_eq_add_one, Nat.sub_add_cancel (by omega)]
    have hlast : h.per * (u - 1) < b' := by
      have hno : ¬ h.upPage b' ≤ u - 1 := by omega
      rw [HostPages.upPage_le] at hno
      omega
    have hmul := Nat.mul_le_mul_left h.per (show l ≤ u - 1 by omega)
    rw [hsub] at hs
    cases hcall : s.callMprotect K (h.addr (u - 1)) h.size (Vm.orPageFlags s.pages (pageAddr b') (h.addr u) prot &&& PAGE_BITS) with
    | mk ret' t' =>
      rw [hcall] at hs
      simp only [Prod.mk.injEq] at hs
      obtain ⟨rfl, rfl, rfl⟩ := hs
      have hbits : ∀ i, prot.getLsbD i = true ∨ (∃ k, b' ≤ k ∧ k < h.per * u ∧ (s.pages.flags k).getLsbD i = true) →
          (Vm.orPageFlags s.pages (pageAddr b') (h.addr u) prot).getLsbD i = true := fun i hi => by
        rwa [HostPages.addr_eq, getLsbD_orPageFlags (by omega) (by omega)]
      refine ⟨u - 1, rfl, rfl, by omega, by omega, Or.inl (by omega), ?_⟩
      have hone : u = u - 1 + 1 := by omega
      have hgiven : Given h a b' prot T (Set.Ico (u - 1) (u - 1 + 1)) s t' := by
        refine given_page hK (by rw [← hone]; omega) (permits_and fun i _ hi => hbits i (Or.inl hi)) (fun k _ hk ho _ => ?_) hcall
        obtain ⟨h₁, h₂⟩ := HostPages.mem_page.mp hk
        rw [← hone] at h₂
        exact permits_and fun i _ hi => hbits i (Or.inr ⟨k, by omega, h₂, hi⟩)
      rwa [← hone] at hgiven
  · rw [if_neg ((HostPages.pageAddr_lt_addr (by omega) (by omega)).not.mpr hlt)] at hs
    simp only [Prod.mk.injEq] at hs
    obtain ⟨-, rfl, rfl⟩ := hs
    refine ⟨u, rfl, rfl, by omega, Nat.le_refl _, ?_, ?_⟩
    · rcases hb' with ⟨rfl, -⟩ | ⟨-, rfl⟩
      · exact Or.inl (by omega)
      · exact Or.inr rfl
    · rw [Set.Ico_self]
      exact .refl s

/-- The bits of a protection `target_mprotect` looks at. -/
def protBits (prot : Word) : Word := prot &&& (PROT_READ ||| PROT_WRITE ||| PROT_EXEC)

theorem not_negEINVAL : negEINVAL ≠ 0 := by decide

/-- A call that ends with `page_set_flags`. -/
theorem setsFlags_ok {x : Result Vm} {v r : Word} (hs : (do let s ← x; return (v, s) : Result (Word × Vm)) = .ok (r, s')) :
    r = v ∧ x = .ok s' := by
  cases x with
  | error e => cases hs
  | ok w =>
    obtain ⟨rfl, rfl⟩ := Prod.mk.inj (Except.ok.inj hs)
    exact ⟨rfl, rfl⟩

/-- `target_mprotect` that returns 0: first the host pages, then the flags. -/
theorem targetMprotect_given (hK : K.Lawful h) {len ret : Word} (hlen : TARGET_PAGE_ALIGN len = pageAddr n) (hn : 0 < n)
    (hfit : a + n + h.per ≤ 2 ^ 20) (hs : s.targetMprotect h K (pageAddr a) len prot = .ok (ret, s')) (h0 : ret = 0) :
    ∃ t, Given h a (a + n) (protBits prot) T (Set.Ico (h.page a) (h.upPage (a + n))) s t ∧
      t.pageSetFlags (pageAddr a) (pageAddr (a + n)) (protBits prot ||| PAGE_VALID) = .ok s' := by
  subst h0
  have hper := HostPages.per_pos (h := h)
  have hlt := HostPages.per_lt (h := h)
  have hup' := HostPages.mul_upPage_lt (h := h) (b := a + n)
  obtain ⟨u, hu⟩ : ∃ u, u = h.upPage (a + n) := ⟨_, rfl⟩
  have hgpos : pageAddr n ≠ 0 := fun he => by
    have := (pageAddr_inj (k := n) (l := 0) (by omega) (by decide)).mp he
    omega
  have hover : ¬ pageAddr a + pageAddr n < pageAddr a := by
    rw [pageAddr_add, pageAddr_lt (by omega) (by omega)]
    omega
  unfold Vm.targetMprotect at hs
  rw [hlen] at hs
  dsimp only at hs
  by_cases hal : pageAddr a &&& ~~~TARGET_PAGE_MASK ≠ 0
  · rw [if_pos hal] at hs
    exact absurd (Prod.mk.inj (Except.ok.inj hs)).1 not_negEINVAL
  rw [if_neg hal, if_neg hover, if_neg hgpos, pageAddr_add, HostPages.and_mask (by omega), HostPages.align_pageAddr (by omega), ← hu,
    ← protBits] at hs
  cases h₁ : s.mprotectStart h K (pageAddr a) (protBits prot) ⟨h.addr (h.page a), h.addr u, pageAddr (a + n)⟩ with
  | mk ret₁ x =>
    obtain ⟨r₁, s₁⟩ := x
    rw [h₁] at hs
    dsimp only at hs
    by_cases hret₁ : ret₁ = 0
    swap
    · rw [if_pos hret₁] at hs
      exact absurd (Prod.mk.inj (Except.ok.inj hs)).1 hret₁
    rw [if_neg (not_not.mpr hret₁)] at hs
    obtain ⟨l, b', rfl, hl, hal, hb', hgiven₁⟩ := mprotectStart_spec (T := T) hK (show a < a + n by omega) hfit hu h₁ hret₁
    cases h₂ : s₁.mprotectEnd h K (protBits prot) ⟨h.addr l, h.addr u, pageAddr b'⟩ with
    | mk ret₂ x =>
      obtain ⟨r₂, s₂⟩ := x
      rw [h₂] at hs
      dsimp only at hs
      by_cases hret₂ : ret₂ = 0
      swap
      · rw [if_pos hret₂] at hs
        exact absurd (Prod.mk.inj (Except.ok.inj hs)).1 hret₂
      rw [if_neg (not_not.mpr hret₂)] at hs
      obtain ⟨v, hstart, hend, hlv, hvu, hv, hgiven₂⟩ := mprotectEnd_spec (T := T) hK hfit hu hal hb' h₂ hret₂
      rw [hstart, hend] at hs
      have hmulv := Nat.mul_le_mul_left h.per hvu
      have hmull := Nat.mul_le_mul_left h.per hlv
      rw [← hu] at hup'
      -- what has been done, and what is left
      have hdone := hgiven₁.trans hgiven₂
      have hall : Set.Ico (h.page a) l ∪ Set.Ico v u ∪ Set.Ico l v = Set.Ico (h.page a) u := by
        ext j
        simp only [Set.mem_union, Set.mem_Ico]
        omega
      by_cases hmid : l < v
      · rw [if_pos ((HostPages.addr_lt (by omega) (by omega)).mpr hmid), HostPages.addr_sub hlv] at hs
        have hsum : l + (v - l) = v := by omega
        have hmul : h.per * v = h.per * l + h.per * (v - l) := by rw [← Nat.mul_add, hsum]
        cases h₃ : s₂.callMprotect K (h.addr l) (h.addr (v - l)) (protBits prot) with
        | mk ret₃ s₃ =>
          rw [h₃] at hs
          dsimp only at hs
          by_cases hret₃ : ret₃ = 0
          swap
          · rw [if_pos hret₃] at hs
            exact absurd (Prod.mk.inj (Except.ok.inj hs)).1 hret₃
          rw [if_neg (not_not.mpr hret₃)] at hs
          subst hret₃
          obtain ⟨honly, hhost⟩ := callMprotect_spec hK (by rw [hsum]; omega) (by omega) (by omega) h₃
          have hgiven₃ : Given h a (a + n) (protBits prot) T (Set.Ico l (l + (v - l))) s₂ s₃ :=
            given_inside hal (by rw [hsum]; omega) honly hhost
          rw [hsum] at hgiven₃
          refine ⟨s₃, ?_, ?_⟩
          · have := hdone.trans hgiven₃
            rwa [hall, hu] at this
          · exact (setsFlags_ok hs).2
      · have hlv' : l = v := by omega
        rw [if_neg ((HostPages.addr_lt (by omega) (by omega)).not.mpr hmid)] at hs
        dsimp only at hs
        rw [if_neg (not_not.mpr rfl)] at hs
        refine ⟨s₂, ?_, ?_⟩
        · rw [hlv', Set.Ico_self, Set.union_empty] at hall
          rwa [hlv', hall, hu] at hdone
        · exact (setsFlags_ok hs).2

theorem callMprotect_ret (hK : K.Lawful h) {addr len : Word} : (s.callMprotect K addr len prot).1 ≠ 0 →
    (s.callMprotect K addr len prot).1 = -1 := hK.refused s.host addr len prot

theorem mprotectStart_ret (hK : K.Lawful h) {start : Word} {r : Vm.Rest} : (s.mprotectStart h K start prot r).1 ≠ 0 →
    (s.mprotectStart h K start prot r).1 = -1 := by
  unfold Vm.mprotectStart
  split
  · exact callMprotect_ret hK
  · exact fun hne => absurd rfl hne

theorem mprotectEnd_ret (hK : K.Lawful h) {r : Vm.Rest} : (s.mprotectEnd h K prot r).1 ≠ 0 → (s.mprotectEnd h K prot r).1 = -1 := by
  unfold Vm.mprotectEnd
  split
  · exact callMprotect_ret hK
  · exact fun hne => absurd rfl hne

/-- `target_mprotect` fails with the host's -1, where the range is the guest's. -/
theorem targetMprotect_ret (hK : K.Lawful h) {len ret : Word} (hlen : TARGET_PAGE_ALIGN len = pageAddr n) (hfit : a + n < 2 ^ 20)
    (hs : s.targetMprotect h K (pageAddr a) len prot = .ok (ret, s')) (hret : ret ≠ 0) : ret = -1 := by
  have hal : pageAddr a &&& ~~~TARGET_PAGE_MASK = 0 := by
    rw [and_not_pageMask_eq_zero, toNat_pageAddr (by omega)]
    omega
  have hover : ¬ pageAddr a + pageAddr n < pageAddr a := by
    rw [pageAddr_add, pageAddr_lt (by omega) (by omega)]
    omega
  unfold Vm.targetMprotect at hs
  rw [hlen] at hs
  dsimp only at hs
  rw [if_neg (not_not.mpr hal), if_neg hover] at hs
  split at hs
  · exact absurd (Prod.mk.inj (Except.ok.inj hs)).1.symm hret
  split at hs
  · rename_i hne
    exact (Prod.mk.inj (Except.ok.inj hs)).1 ▸ mprotectStart_ret hK hne
  split at hs
  · rename_i hne
    exact (Prod.mk.inj (Except.ok.inj hs)).1 ▸ mprotectEnd_ret hK hne
  split at hs <;> split at hs
  · rename_i hne
    exact (Prod.mk.inj (Except.ok.inj hs)).1 ▸ callMprotect_ret hK hne
  · exact absurd (setsFlags_ok hs).1 hret
  · rename_i hne
    exact absurd rfl hne
  · exact absurd (setsFlags_ok hs).1 hret

/-! ## Covered again -/

theorem permits_storedFlags {p f : Word} (hp : Permits p f) : Permits p (storedFlags (f ||| PAGE_VALID)) := by
  intro i hi hf
  have hvalid : PAGE_VALID.getLsbD i = false := by
    match i, hi with
    | 0, _ => rfl
    | 1, _ => rfl
    | 2, _ => rfl
  have horg : PAGE_WRITE_ORG.getLsbD i = false := by
    match i, hi with
    | 0, _ => rfl
    | 1, _ => rfl
    | 2, _ => rfl
  refine hp i hi ?_
  unfold storedFlags at hf
  split at hf
  · rwa [BitVec.getLsbD_or, BitVec.getLsbD_or, hvalid, horg, Bool.or_false, Bool.or_false] at hf
  · rwa [BitVec.getLsbD_or, hvalid, Bool.or_false] at hf

/-- `page_set_flags` for the pages from `a` to `b`. -/
theorem setFlags_spec {f : Word} (hm : NoBlocks s.pages) (hab : a < b) (hb : b < 2 ^ 20) :
    ∃ s', s.pageSetFlags (pageAddr a) (pageAddr b) f = .ok s' ∧ NoBlocks s'.pages ∧ s'.host = s.host ∧
      s'.mmapNextStart = s.mmapNextStart ∧
      ∀ k < 2 ^ 20, s'.pages.flags k = if a ≤ k ∧ k < b then storedFlags f else s.pages.flags k := by
  have hfirst : firstPage (pageAddr a) = a := by
    rw [firstPage, toNat_pageAddr (by omega)]
    omega
  have hlast : lastPage (pageAddr b) = b - 1 := by
    rw [lastPage, toNat_pageAddr hb]
    omega
  obtain ⟨m', hset, hm', hflags⟩ := pageSetFlags_spec hm ((pageAddr_lt (by omega) hb).mpr hab) f
  refine ⟨{ s with pages := m' }, ?_, hm', rfl, rfl, fun k hk => ?_⟩
  · rw [Vm.pageSetFlags, hset]
    rfl
  · have hw : ¬ WholeSpace (pageAddr a) (pageAddr b) := fun hw => by
      have hl := hw.2
      omega
    rw [hflags k hk, hfirst, hlast]
    exact if_congr ((and_iff_right hw).trans (by omega)) rfl rfl

/-- The flags follow the host's protection: every page is covered, but for those that are not looked after. -/
theorem Given.covered_iff {f : Word} (hg : Given h a b prot T (Set.Ico (h.page a) (h.upPage b)) s t)
    (hc : CoveredOff h (Set.Ico (h.page a) (h.upPage b)) s) (hm : NoBlocks s.pages) (hab : a < b) (hb : b < 2 ^ 20) (hf : Permits prot f)
    (hs : t.pageSetFlags (pageAddr a) (pageAddr b) (f ||| PAGE_VALID) = .ok s') :
    NoBlocks s'.pages ∧ (Covered h s' ↔ ∀ k ∈ T, k < 2 ^ 20 → k < a ∨ b ≤ k → s.pages.flags k ≠ 0 →
      ∃ p, t.host (h.page k) = some p ∧ Permits p (s.pages.flags k)) := by
  obtain ⟨s'', hset, hm', hhost, -, hflags⟩ := setFlags_spec (s := t) (f := f ||| PAGE_VALID) (hg.pages ▸ hm) hab hb
  obtain rfl : s'' = s' := Except.ok.inj (hset.symm.trans hs)
  refine ⟨hm', fun hcov k hT hk ho hne => ?_, fun hT k hk hne => ?_⟩
  · have hout : ¬ (a ≤ k ∧ k < b) := by omega
    have hkeep : s''.pages.flags k = s.pages.flags k := by rw [hflags k hk, if_neg hout, hg.pages]
    obtain ⟨p, hp, hperm⟩ := hcov k hk (by rw [hkeep]; exact hne)
    exact ⟨p, by rw [← hhost, hp], hkeep ▸ hperm⟩
  · rw [hhost]
    by_cases hin : a ≤ k ∧ k < b
    · have hD : h.page k ∈ Set.Ico (h.page a) (h.upPage b) := by
        refine Set.mem_Ico.mpr ⟨Nat.div_le_div_right hin.1, HostPages.page_lt_upPage.mpr ?_⟩
        have := HostPages.page_le (h := h) k
        omega
      obtain ⟨p, hp, hperm, -⟩ := hg.given _ hD
      refine ⟨p, hp, ?_⟩
      rw [hflags k hk, if_pos hin]
      exact permits_storedFlags (hperm.trans hf)
    · have hkeep : s''.pages.flags k = s.pages.flags k := by rw [hflags k hk, if_neg hin, hg.pages]
      rw [hkeep] at hne ⊢
      by_cases hkT : k ∈ T
      · exact hT k hkT hk (by omega) hne
      by_cases hD : h.page k ∈ Set.Ico (h.page a) (h.upPage b)
      · obtain ⟨p, hp, -, hperm⟩ := hg.given _ hD
        exact ⟨p, hp, hperm k hk rfl (by omega) hkT⟩
      · rw [hg.other _ hD]
        exact hc k hk hD hne

/-- `target_mprotect` keeps the pages covered. -/
theorem targetMprotect_covered (hK : K.Lawful h) {len ret : Word} (hlen : TARGET_PAGE_ALIGN len = pageAddr n) (hn : 0 < n)
    (hfit : a + n + h.per ≤ 2 ^ 20) (hc : CoveredOff h (Set.Ico (h.page a) (h.upPage (a + n))) s) (hm : NoBlocks s.pages)
    (hs : s.targetMprotect h K (pageAddr a) len prot = .ok (ret, s')) (h0 : ret = 0) : Covered h s' ∧ NoBlocks s'.pages := by
  have hper := HostPages.per_pos (h := h)
  obtain ⟨t, hgiven, hset⟩ := targetMprotect_given (T := ∅) hK hlen hn hfit hs h0
  obtain ⟨hm', hcov⟩ := hgiven.covered_iff hc hm (by omega) (by omega) (.refl _) hset
  exact ⟨hcov.mpr fun k hk => absurd hk (Set.notMem_empty k), hm'⟩

/-- `mprotect` that returns 0 sets the flags of its pages, and of no others, and changes no host page but theirs. Whatever was there
before, the host permits what the flags do on every page of these host pages, be it in the range or not. -/
theorem targetMprotect_permits (h : HostPages) (K : Kernel) (s s' : Vm) (start len prot : Word) (hK : K.Lawful h) (hm : NoBlocks s.pages)
    (hlen : TARGET_PAGE_ALIGN len ≠ 0) (hfit : start.toNat + (TARGET_PAGE_ALIGN len).toNat + 2 ^ h.bits ≤ 2 ^ 32)
    (hs : s.targetMprotect h K start len prot = .ok (0, s')) :
    (∀ k < 2 ^ 20, s'.pages.flags k =
      if pageIndex start ≤ k ∧ k < pageIndex start + pageIndex (TARGET_PAGE_ALIGN len) then storedFlags (protBits prot ||| PAGE_VALID)
      else s.pages.flags k) ∧
    (∀ j, j < h.page (pageIndex start) ∨ h.upPage (pageIndex start + pageIndex (TARGET_PAGE_ALIGN len)) ≤ j → s'.host j = s.host j) ∧
    ∀ k < 2 ^ 20, h.page (pageIndex start) ≤ h.page k → h.page k < h.upPage (pageIndex start + pageIndex (TARGET_PAGE_ALIGN len)) →
      ∃ p, s'.host (h.page k) = some p ∧ Permits p (s'.pages.flags k) := by
  have hal : start &&& ~~~TARGET_PAGE_MASK = 0 := by
    by_contra hno
    unfold Vm.targetMprotect at hs
    rw [if_pos hno] at hs
    exact not_negEINVAL (Prod.mk.inj (Except.ok.inj hs)).1
  obtain ⟨a, n, rfl, hn, hpos, hfit', ha, hn'⟩ := range_pages hal hlen hfit
  have hper := HostPages.per_pos (h := h)
  rw [← ha, ← hn']
  obtain ⟨t, hgiven, hset⟩ := targetMprotect_given (T := ∅) hK hn hpos hfit' hs rfl
  obtain ⟨s'', hset', -, hhost, -, hflags⟩ := setFlags_spec (s := t) (f := protBits prot ||| PAGE_VALID) (hgiven.pages ▸ hm)
    (show a < a + n by omega) (by omega)
  obtain rfl : s'' = s' := Except.ok.inj (hset'.symm.trans hset)
  rw [hgiven.pages] at hflags
  refine ⟨hflags, fun j hj => ?_, fun k hk h₁ h₂ => ?_⟩
  · rw [hhost]
    refine hgiven.other j fun hin => ?_
    have hin := Set.mem_Ico.mp hin
    omega
  · obtain ⟨p, hp, hperm, hout⟩ := hgiven.given (h.page k) (Set.mem_Ico.mpr ⟨h₁, h₂⟩)
    refine ⟨p, by rw [hhost, hp], ?_⟩
    rw [hflags k hk]
    by_cases hin : a ≤ k ∧ k < a + n
    · rw [if_pos hin]
      exact permits_storedFlags hperm
    · rw [if_neg hin]
      exact hout k hk rfl (by omega) (Set.notMem_empty k)

/-- A host the pages of which hold two of the guest's. -/
def doublePages : HostPages := ⟨13, by decide, by decide⟩

/-- One page of a host page: the other, which can be written to, still can. -/
theorem targetMprotect_permits_sample : ∃ m s', pageSetFlags noPages 0x40001000 0x40002000 (PAGE_READ ||| PAGE_WRITE ||| PAGE_VALID) = .ok m ∧
    Vm.targetMprotect doublePages (obliging doublePages)
      ⟨m, fun j => if j = 0x20000 then some (PROT_READ ||| PROT_WRITE) else none, TASK_UNMAPPED_BASE⟩ 0x40000000 0x1000 PROT_READ =
        .ok (0, s') ∧ ∃ p, s'.host 0x20000 = some p ∧ Permits p (s'.pages.flags 0x40001) := by
  obtain ⟨m, s', hm, hs⟩ : ∃ m s',
      pageSetFlags noPages 0x40001000 0x40002000 (PAGE_READ ||| PAGE_WRITE ||| PAGE_VALID) = .ok m ∧
      Vm.targetMprotect doublePages (obliging doublePages)
        ⟨m, fun j => if j = 0x20000 then some (PROT_READ ||| PROT_WRITE) else none, TASK_UNMAPPED_BASE⟩ 0x40000000 0x1000 PROT_READ =
          .ok (0, s') := ⟨_, _, rfl, rfl⟩
  obtain ⟨m', hm', hclean, -⟩ := pageSetFlags_spec (m := noPages) (fun k _ => by rw [page_noPages]) (show (0x40001000 : Word) < 0x40002000 by decide)
    (PAGE_READ ||| PAGE_WRITE ||| PAGE_VALID)
  obtain rfl : m' = m := Except.ok.inj (hm'.symm.trans hm)
  obtain ⟨-, -, hall⟩ := targetMprotect_permits doublePages (obliging doublePages) _ s' 0x40000000 0x1000 PROT_READ (obliging_lawful _) hclean
    (by decide) (by decide) hs
  exact ⟨m', s', hm, hs, hall 0x40001 (by decide) (by decide) (by decide)⟩

end Unitrans
