/-
The guest's address space over runs: the calls that map, protect and unmap memory, one after another, each with a host that
does as it likes within the rules it is relied on for.
-/
import Unitrans.Remap

namespace Unitrans

open X86 Except

variable {h : HostPages} {a b i k n : Nat} {prot : Word} {s t s' : Vm} {c : Settings} {K : Kernel} {q : Vm.Request}

/-! ## A mapping at a fixed address -/

/-- A file that cannot be mapped at an address, for its offset is not aligned as the address is; it is read. -/
def IsRead (h : HostPages) (q : Vm.Request) : Prop :=
  q.flags &&& MAP_ANONYMOUS = 0 ∧ q.offset &&& ~~~h.mask ≠ q.start &&& ~~~h.mask

theorem or_write {p : Word} (hp : p &&& PROT_WRITE ≠ 0) : p ||| PROT_WRITE = p := by
  apply BitVec.eq_of_getLsbD_eq
  intro i _
  rw [BitVec.getLsbD_or, Bool.eq_iff_iff, Bool.or_eq_true, getLsbD_write]
  refine ⟨fun hor => hor.elim id fun he => he ▸ getLsbD_of_write hp, Or.inl⟩

theorem pageAlign_pageAddr (hn : n < 2 ^ 20) : TARGET_PAGE_ALIGN (pageAddr n) = pageAddr n := by
  apply BitVec.eq_of_toNat_eq
  refine pageAlign_of_aligned ?_
  rw [toNat_pageAddr hn]
  omega

/-- The pages that are not in the mapping's host pages stay as they were. -/
theorem Given.coveredOff {T : Set Nat} {f : Word} (hg : Given h a b prot T (Set.Ico (h.page a) (h.upPage b)) s t) (hc : Covered h s)
    (hm : NoBlocks s.pages) (hab : a < b) (hb : b + h.per ≤ 2 ^ 20)
    (hs : t.pageSetFlags (pageAddr a) (pageAddr b) f = .ok s') : CoveredOff h (Set.Ico (h.page a) (h.upPage b)) s' := by
  have hper := HostPages.per_pos (h := h)
  obtain ⟨s'', hset, hm', hhost, -, hflags⟩ := setFlags_spec (s := t) (f := f) (hg.pages ▸ hm) hab (by omega)
  obtain rfl : s'' = s' := Except.ok.inj (hset.symm.trans hs)
  intro k hk hout hne
  have hno : ¬ (a ≤ k ∧ k < b) := fun hin => by
    refine hout (Set.mem_Ico.mpr ⟨Nat.div_le_div_right hin.1, HostPages.page_lt_upPage.mpr ?_⟩)
    have := HostPages.page_le (h := h) k
    omega
  rw [hflags k hk, if_neg hno, hg.pages] at hne ⊢
  rw [hhost, hg.other _ hout]
  exact hc k hk hne

/-- The flags of the pages behind the end of a mapping ask for no more than it is for; where a file is read for pages that cannot be
written to, what is done afterwards takes care of them. -/
def TailOk (h : HostPages) (a n : Nat) (q : Vm.Request) (s : Vm) : Prop :=
  IsRead h q ∧ q.prot &&& PROT_WRITE = 0 ∨ TailPermits h a (a + n) q.prot s

/-- A mapping at a fixed address, with nothing to read. -/
theorem mmapFixed_iff (hK : K.Lawful h) (hG : K.Granting h) (hok : VmOk h s) (hfix : q.flags &&& MAP_FIXED ≠ 0) (hstart : q.start = pageAddr a) (hn : 0 < n)
    (hfit : a + n + h.per ≤ 2 ^ 20) {ret : Word} (hs : s.mmapFixed h K q (pageAddr n) = .ok (ret, s')) (hret : ret ≠ -1) :
    NoBlocks s'.pages ∧ s'.mmapNextStart = s.mmapNextStart ∧ CoveredOff h (Set.Ico (h.page a) (h.upPage (a + n))) s' ∧
      (Covered h s' ↔ TailPermits h a (a + n) q.prot s) := by
  have hper := HostPages.per_pos (h := h)
  obtain ⟨-, t, hgiven, htail, hset⟩ := mmapFixed_given hK hG hfix hstart hn hfit hok.covered hs hret
  obtain ⟨hm', hiff⟩ := hgiven.tail_iff htail hok.covered.off hok.noBlocks (by omega) hfit hset
  refine ⟨hm', ?_, hgiven.coveredOff hok.covered hok.noBlocks (by omega) hfit hset, hiff⟩
  obtain ⟨s'', hset', -, -, hnext, -⟩ := setFlags_spec (s := t) (f := q.prot ||| PAGE_VALID) (hgiven.pages ▸ hok.noBlocks)
    (show a < a + n by omega) (by omega)
  obtain rfl : s'' = s' := Except.ok.inj (hset'.symm.trans hset)
  exact hnext.trans hgiven.only.next

theorem targetMprotect_next (hK : K.Lawful h) {len ret : Word} (hlen : TARGET_PAGE_ALIGN len = pageAddr n) (hn : 0 < n)
    (hfit : a + n + h.per ≤ 2 ^ 20) (hm : NoBlocks s.pages) (hs : s.targetMprotect h K (pageAddr a) len prot = .ok (ret, s'))
    (h0 : ret = 0) : s'.mmapNextStart = s.mmapNextStart := by
  have hper := HostPages.per_pos (h := h)
  obtain ⟨t, hgiven, hset⟩ := targetMprotect_given (T := ∅) hK hlen hn hfit hs h0
  obtain ⟨s'', hset', -, -, hnext, -⟩ := setFlags_spec (s := t) (f := protBits prot ||| PAGE_VALID) (hgiven.pages ▸ hm)
    (show a < a + n by omega) (by omega)
  obtain rfl : s'' = s' := Except.ok.inj (hset'.symm.trans hset)
  exact hnext.trans hgiven.only.next

/-- The mapping a file is read into. -/
def readInto (q : Vm.Request) (len : Word) : Vm.Request :=
  ⟨q.start, len, q.prot ||| PROT_WRITE, MAP_FIXED ||| MAP_PRIVATE ||| MAP_ANONYMOUS, -1, 0⟩

theorem targetMmapAt_readInto (hstart : q.start = pageAddr a) (ha : a < 2 ^ 20) (hn : 0 < n) (hn' : n < 2 ^ 20) :
    Vm.targetMmapAt h c K 1 s (readInto q (pageAddr n)) = s.mmapFixed h K (readInto q (pageAddr n)) (pageAddr n) := by
  have hpos : pageAddr n ≠ 0 := fun he => by
    have := (pageAddr_inj (k := n) (l := 0) hn' (by decide)).mp he
    omega
  have hal : q.start &&& ~~~TARGET_PAGE_MASK = 0 := by
    rw [hstart, and_not_pageMask_eq_zero, toNat_pageAddr ha]
    omega
  have hoff : (readInto q (pageAddr n)).offset &&& ~~~TARGET_PAGE_MASK = 0 := by simp [readInto]
  have hfix : (readInto q (pageAddr n)).flags &&& MAP_FIXED ≠ 0 := show (MAP_FIXED ||| MAP_PRIVATE ||| MAP_ANONYMOUS) &&& MAP_FIXED ≠ 0 by decide
  have hanon : (readInto q (pageAddr n)).flags &&& MAP_ANONYMOUS ≠ 0 :=
    show (MAP_FIXED ||| MAP_PRIVATE ||| MAP_ANONYMOUS) &&& MAP_ANONYMOUS ≠ 0 by decide
  unfold Vm.targetMmapAt
  dsimp only
  rw [show TARGET_PAGE_ALIGN (readInto q (pageAddr n)).len = pageAddr n from pageAlign_pageAddr hn', if_neg (not_not.mpr hoff), if_neg hpos,
    if_neg hfix, show (readInto q (pageAddr n)).start = q.start from rfl, if_neg (not_not.mpr hal), if_neg fun hno => hanon hno.1]

/-- `target_mmap` with `MAP_FIXED`. -/
theorem targetMmap_iff (hK : K.Lawful h) (hG : K.Granting h) (hok : VmOk h s) (hfix : q.flags &&& MAP_FIXED ≠ 0) (hstart : q.start = pageAddr a)
    (hlen : TARGET_PAGE_ALIGN q.len = pageAddr n) (hn : 0 < n) (hfit : a + n + h.per ≤ 2 ^ 20) {ret : Word}
    (hs : s.targetMmap h c K q = .ok (ret, s')) (hret : ret ≠ -1) :
    NoBlocks s'.pages ∧ s'.mmapNextStart = s.mmapNextStart ∧ (Covered h s' ↔ TailOk h a n q s) := by
  have hper := HostPages.per_pos (h := h)
  have hpos : pageAddr n ≠ 0 := fun he => by
    have := (pageAddr_inj (k := n) (l := 0) (by omega) (by decide)).mp he
    omega
  have hal : pageAddr a &&& ~~~TARGET_PAGE_MASK = 0 := by
    rw [and_not_pageMask_eq_zero, toNat_pageAddr (by omega)]
    omega
  unfold Vm.targetMmap Vm.targetMmapAt at hs
  rw [hlen] at hs
  dsimp only at hs
  by_cases hoff : q.offset &&& ~~~TARGET_PAGE_MASK = 0
  swap
  · rw [if_pos hoff] at hs
    exact absurd (Prod.mk.inj (Except.ok.inj hs)).1.symm hret
  rw [if_neg (not_not.mpr hoff), if_neg hpos, if_neg hfix, hstart, if_neg (not_not.mpr hal), ← hstart] at hs
  by_cases hread : q.flags &&& MAP_ANONYMOUS = 0 ∧ q.offset &&& ~~~h.mask ≠ q.start &&& ~~~h.mask
  swap
  · rw [if_neg hread] at hs
    obtain ⟨hm', hnext, -, hiff⟩ := mmapFixed_iff hK hG hok hfix hstart hn hfit hs hret
    exact ⟨hm', hnext, hiff.trans (or_iff_right fun hno => hread hno.1).symm⟩
  rw [if_pos hread] at hs
  by_cases hshared : q.flags &&& MAP_TYPE = MAP_SHARED ∧ q.prot &&& PROT_WRITE ≠ 0
  · rw [if_pos hshared] at hs
    exact absurd (Prod.mk.inj (Except.ok.inj hs)).1.symm hret
  rw [if_neg hshared] at hs
  cases hinner : Vm.targetMmapAt h c K 1 s (readInto q (pageAddr n)) with
  | error e =>
    unfold readInto at hinner
    rw [hinner] at hs
    cases hs
  | ok x =>
    obtain ⟨retaddr, s₁⟩ := x
    have hfixed := hinner
    rw [targetMmapAt_readInto hstart (by omega) hn (by omega)] at hfixed
    unfold readInto at hinner
    rw [hinner] at hs
    dsimp only [bind, Except.bind] at hs
    by_cases hfail : retaddr = -1
    · rw [if_pos hfail] at hs
      exact absurd (Prod.mk.inj (Except.ok.inj hs)).1.symm hret
    rw [if_neg hfail] at hs
    obtain ⟨hm', hnext, hoff', hiff⟩ := mmapFixed_iff (q := readInto q (pageAddr n)) hK hG hok
      (show (MAP_FIXED ||| MAP_PRIVATE ||| MAP_ANONYMOUS) &&& MAP_FIXED ≠ 0 by decide) hstart hn hfit hfixed hfail
    split at hs
    · exact absurd (Prod.mk.inj (Except.ok.inj hs)).1.symm hret
    by_cases hwr : q.prot &&& PROT_WRITE = 0
    · rw [if_pos hwr, hstart] at hs
      cases hprot : s₁.targetMprotect h K (pageAddr a) (pageAddr n) q.prot with
      | error e =>
        rw [hprot] at hs
        cases hs
      | ok y =>
        obtain ⟨ret', s₂⟩ := y
        rw [hprot] at hs
        obtain ⟨hr, rfl⟩ := Prod.mk.inj (Except.ok.inj hs)
        have h0 : ret' = 0 := by
          by_contra hne
          rw [if_pos hne, targetMprotect_ret hK (pageAlign_pageAddr (by omega)) (by omega) hprot hne] at hr
          exact hret hr.symm
        obtain ⟨hcov, hm₂⟩ := targetMprotect_covered hK (pageAlign_pageAddr (by omega)) hn hfit hoff' hm' hprot h0
        refine ⟨hm₂, ?_, iff_of_true hcov (Or.inl ⟨hread, hwr⟩)⟩
        exact (targetMprotect_next hK (pageAlign_pageAddr (by omega)) hn hfit hm' hprot h0).trans hnext
    · rw [if_neg hwr] at hs
      obtain ⟨-, rfl⟩ := Prod.mk.inj (Except.ok.inj hs)
      have hprot : (readInto q (pageAddr n)).prot = q.prot := or_write hwr
      rw [hprot] at hiff
      exact ⟨hm', hnext, hiff.trans (or_iff_right fun hno => hwr hno.2).symm⟩

/-! ## Runs -/

/-- One call, with a host of its own. A range ends before the last host page of the guest's space. -/
inductive VmStep (h : HostPages) (c : Settings) (s s' : Vm) : Prop
  | mmap (K : Kernel) (q : Vm.Request) (ret : Word) (lawful : K.Lawful h) (anywhere : q.flags &&& MAP_FIXED = 0)
    (fits : (TARGET_PAGE_ALIGN q.len).toNat + 2 * 2 ^ h.bits ≤ 2 ^ 32) (call : s.targetMmap h c K q = .ok (ret, s'))
  | mmapFixed (K : Kernel) (q : Vm.Request) (ret : Word) (lawful : K.Lawful h) (granting : K.Granting h)
    (fixed : q.flags &&& MAP_FIXED ≠ 0) (fits : q.start.toNat + (TARGET_PAGE_ALIGN q.len).toNat + 2 ^ h.bits ≤ 2 ^ 32)
    (tail : TailOk h (pageIndex q.start) (pageIndex (TARGET_PAGE_ALIGN q.len)) q s)
    (call : s.targetMmap h c K q = .ok (ret, s')) (success : ret ≠ -1)
  | mprotect (K : Kernel) (start len prot : Word) (lawful : K.Lawful h)
    (fits : start.toNat + (TARGET_PAGE_ALIGN len).toNat + 2 ^ h.bits ≤ 2 ^ 32)
    (call : s.targetMprotect h K start len prot = .ok (0, s'))
  /-- Whole host pages are moved. A call that may move them elsewhere succeeds; in reserved space none is cut off in place. -/
  | mremap (K : Kernel) (oldAddr oldSize newSize flags newAddr ret : Word) (lawful : K.Lawful h)
    (whole : oldSize.toNat % 2 ^ h.bits = 0 ∧ newSize.toNat % 2 ^ h.bits = 0) (pos : oldSize ≠ 0 ∧ newSize ≠ 0)
    (grows : flags &&& MREMAP_FIXED = 0 → flags &&& MREMAP_MAYMOVE = 0 → c.reservedVa ≠ 0 → oldSize ≤ newSize)
    (call : s.targetMremap h c K oldAddr oldSize newSize flags newAddr = .ok (ret, s'))
    (success : flags &&& MREMAP_FIXED = 0 → flags &&& MREMAP_MAYMOVE ≠ 0 → ret ≠ -1)
  | munmap (K : Kernel) (start len ret : Word) (lawful : K.Lawful h)
    (fits : start.toNat + (TARGET_PAGE_ALIGN len).toNat + 2 ^ h.bits ≤ 2 ^ 32)
    (call : s.targetMunmap h c K start len = .ok (ret, s'))

/-- A request that is looked into. -/
def Asked (q : Vm.Request) : Prop :=
  q.offset &&& ~~~TARGET_PAGE_MASK = 0 ∧ TARGET_PAGE_ALIGN q.len ≠ 0 ∧ (q.flags &&& MAP_FIXED ≠ 0 → q.start &&& ~~~TARGET_PAGE_MASK = 0)

/-- The others change nothing. -/
theorem targetMmap_unasked (hno : ¬ Asked q) {ret : Word} (hs : s.targetMmap h c K q = .ok (ret, s')) : s' = s := by
  unfold Vm.targetMmap Vm.targetMmapAt at hs
  dsimp only at hs
  by_cases hoff : q.offset &&& ~~~TARGET_PAGE_MASK = 0
  swap
  · rw [if_pos hoff] at hs
    exact (Prod.mk.inj (Except.ok.inj hs)).2.symm
  rw [if_neg (not_not.mpr hoff)] at hs
  by_cases hlen : TARGET_PAGE_ALIGN q.len = 0
  · rw [if_pos hlen] at hs
    exact (Prod.mk.inj (Except.ok.inj hs)).2.symm
  rw [if_neg hlen] at hs
  by_cases hfix : q.flags &&& MAP_FIXED = 0
  · exact absurd ⟨hoff, hlen, fun hne => absurd hfix hne⟩ hno
  rw [if_neg hfix] at hs
  by_cases hal : q.start &&& ~~~TARGET_PAGE_MASK = 0
  · exact absurd ⟨hoff, hlen, fun _ => hal⟩ hno
  · rw [if_pos hal] at hs
    exact (Prod.mk.inj (Except.ok.inj hs)).2.symm

theorem targetMprotect_unasked {start len : Word} (hno : ¬ (start &&& ~~~TARGET_PAGE_MASK = 0 ∧ TARGET_PAGE_ALIGN len ≠ 0)) {ret : Word}
    (hs : s.targetMprotect h K start len prot = .ok (ret, s')) : s' = s := by
  unfold Vm.targetMprotect at hs
  dsimp only at hs
  split at hs
  · exact (Prod.mk.inj (Except.ok.inj hs)).2.symm
  rename_i hal
  split at hs
  · exact (Prod.mk.inj (Except.ok.inj hs)).2.symm
  have hlen : TARGET_PAGE_ALIGN len = 0 := by
    by_contra hne
    exact hno ⟨not_not.mp hal, hne⟩
  rw [if_pos hlen] at hs
  exact (Prod.mk.inj (Except.ok.inj hs)).2.symm

theorem targetMunmap_unasked {start len : Word} (hno : ¬ (start &&& ~~~TARGET_PAGE_MASK = 0 ∧ TARGET_PAGE_ALIGN len ≠ 0)) {ret : Word}
    (hs : s.targetMunmap h c K start len = .ok (ret, s')) : s' = s := by
  unfold Vm.targetMunmap at hs
  dsimp only at hs
  split at hs
  · exact (Prod.mk.inj (Except.ok.inj hs)).2.symm
  rename_i hal
  have hlen : TARGET_PAGE_ALIGN len = 0 := by
    by_contra hne
    exact hno ⟨not_not.mp hal, hne⟩
  rw [if_pos hlen] at hs
  exact (Prod.mk.inj (Except.ok.inj hs)).2.symm

/-- One call keeps what a run keeps. -/
theorem VmOk.step (hres : c.reservedVa ≠ 0 → h.per = 1) (hok : VmOk h s) (hs : VmStep h c s s') : VmOk h s' := by
  cases hs with
  | mmap K q ret hK hany hfit hcall =>
    by_cases hq : Asked q
    swap
    · exact targetMmap_unasked hq hcall ▸ hok
    obtain ⟨hoff, hlen, -⟩ := hq
    rw [targetMmap_anywhere_eq hany hoff hlen] at hcall
    obtain ⟨o, ho, ho'⟩ := exists_pageAddr hoff
    obtain ⟨n, hn, hn'⟩ := exists_pageAlign q.len
    rw [hn] at hcall hlen hfit
    rw [toNat_pageAddr hn', HostPages.pow_eq] at hfit
    have hpos : 0 < n := by
      rcases Nat.eq_zero_or_pos n with rfl | hpos
      · exact absurd rfl hlen
      · exact hpos
    obtain ⟨ret', s'', hcall', hor⟩ := mmapAnywhere_spec hK hres hok.covered hok.noBlocks hok.next ho ho' hpos (by omega)
    obtain ⟨rfl, rfl⟩ := Prod.mk.inj (Except.ok.inj (hcall'.symm.trans hcall))
    rcases hor with ⟨-, hsearch⟩ | ⟨a, -, htaken, hm', hnext⟩
    · exact hok.searched hsearch
    · exact ⟨htaken.covered hok.covered, hm', hnext⟩
  | mmapFixed K q ret hK hG hfix hfit htail hcall hret =>
    by_cases hq : Asked q
    swap
    · exact targetMmap_unasked hq hcall ▸ hok
    obtain ⟨-, hlen, hal⟩ := hq
    obtain ⟨a, n, hstart, hn, hpos, hfit', ha, hn'⟩ := range_pages (hal hfix) hlen hfit
    rw [← ha, ← hn'] at htail
    obtain ⟨hm', hnext, hiff⟩ := targetMmap_iff hK hG hok hfix hstart hn hpos hfit' hcall hret
    exact ⟨hiff.mpr htail, hm', hnext ▸ hok.next⟩
  | mprotect K start len prot hK hfit hcall =>
    by_cases hr : start &&& ~~~TARGET_PAGE_MASK = 0 ∧ TARGET_PAGE_ALIGN len ≠ 0
    swap
    · exact targetMprotect_unasked hr hcall ▸ hok
    obtain ⟨a, n, rfl, hn, hpos, hfit', -, -⟩ := range_pages hr.1 hr.2 hfit
    obtain ⟨hcov, hm'⟩ := targetMprotect_covered hK hn hpos hfit' hok.covered.off hok.noBlocks hcall rfl
    exact ⟨hcov, hm', targetMprotect_next hK hn hpos hfit' hok.noBlocks hcall rfl ▸ hok.next⟩
  | mremap K old oldSize newSize flags newAddr ret hK hwhole hpos hgrow hcall hret =>
    obtain ⟨w, rfl, hw⟩ := HostPages.exists_addr hwhole.1
    obtain ⟨w', rfl, hw'⟩ := HostPages.exists_addr hwhole.2
    have hlt := HostPages.lt_of_mul_lt (h := h) (i := w) (hw ▸ BitVec.isLt _)
    have hlt' := HostPages.lt_of_mul_lt (h := h) (i := w') (hw' ▸ BitVec.isLt _)
    obtain ⟨ret', s'', hcall', hor⟩ := targetMremap_spec hK hres hok (HostPages.pos_of_addr hpos.1) (HostPages.pos_of_addr hpos.2) hlt hlt'
      old flags newAddr fun h₁ h₂ h₃ => by
        have hle := hgrow h₁ h₂ h₃
        rw [← BitVec.not_lt, HostPages.addr_lt hlt' hlt] at hle
        omega
    obtain ⟨rfl, rfl⟩ := Prod.mk.inj (Except.ok.inj (hcall'.symm.trans hcall))
    rcases hor with ⟨rfl, hsearch⟩ | ⟨l, r, -, -, hok', -⟩
    · refine hok.searched (hsearch ?_)
      by_cases hfix : flags &&& MREMAP_FIXED = 0
      · by_cases hmay : flags &&& MREMAP_MAYMOVE = 0
        · exact Or.inr hmay
        · exact absurd rfl (hret hfix hmay)
      · exact Or.inl hfix
    · exact hok'
  | munmap K start len ret hK hfit hcall =>
    by_cases hr : start &&& ~~~TARGET_PAGE_MASK = 0 ∧ TARGET_PAGE_ALIGN len ≠ 0
    swap
    · exact targetMunmap_unasked hr hcall ▸ hok
    obtain ⟨a, n, rfl, hn, hpos, hfit', -, -⟩ := range_pages hr.1 hr.2 hfit
    obtain ⟨ret', s'', hcall', hm', hnext, hor⟩ := targetMunmap_spec (c := c) hK hok.noBlocks hn hpos hfit'
    obtain ⟨rfl, rfl⟩ := Prod.mk.inj (Except.ok.inj (hcall'.symm.trans hcall))
    rcases hor with ⟨-, hpages, hhost⟩ | ⟨-, hun⟩
    · refine ⟨fun k hk hne => ?_, hm', hnext ▸ hok.next⟩
      rw [hpages] at hne ⊢
      rw [hhost]
      exact hok.covered k hk hne
    · exact ⟨hun.covered hok.covered, hm', hnext ▸ hok.next⟩

/-- A run keeps it. -/
theorem VmOk.run (hres : c.reservedVa ≠ 0 → h.per = 1) (hok : VmOk h s) (hs : Relation.ReflTransGen (VmStep h c) s s') : VmOk h s' := by
  induction hs with
  | refl => exact hok
  | tail _ hstep ih => exact ih.step hres hstep

/-- The obliging host maps a host page all of which is taken to be in the mapping. -/
theorem mmapFrag_obliging {flags fd offset : Word} {j : Nat} (hj : h.per * (j + 1) < 2 ^ 20) (hfix : flags &&& MAP_FIXED ≠ 0)
    (hanon : flags &&& MAP_ANONYMOUS ≠ 0) : ∃ t, s.mmapFrag h (obliging h) (h.addr j) (h.addr j) (h.addr (j + 1)) prot flags fd offset =
      (0, t) ∧ t.pages = s.pages := by
  have hmap : (obliging h).mmap s.host ⟨h.addr j, h.size, prot, flags ||| MAP_ANONYMOUS, -1, 0⟩ =
      (some (h.addr j), s.host.set h (h.addr j) h.size (some prot)) := if_pos (fixed_of_anonymous hfix)
  unfold Vm.mmapFrag
  dsimp only
  rw [fragFlags_whole hj, if_pos rfl, hmap]
  dsimp only
  rw [Vm.fragProtect, if_neg hanon]
  refine ⟨_, rfl, ?_⟩
  split <;> rfl

theorem mmapTail_obliging {v : Nat} (hb : b < h.per * (v + 1)) (hv : h.per * (v + 1) < 2 ^ 20) (hfix : q.flags &&& MAP_FIXED ≠ 0)
    (hanon : q.flags &&& MAP_ANONYMOUS ≠ 0) :
    ∃ t, s.mmapTail h (obliging h) q (pageAddr b) (h.addr (v + 1)) = (some (h.addr v), t) ∧ t.pages = s.pages := by
  have hsub : h.addr (v + 1) - h.size = h.addr v := by
    rw [HostPages.size_eq, HostPages.addr_sub (Nat.le_add_left 1 v), Nat.add_sub_cancel]
  obtain ⟨t, ht, hpages⟩ := @mmapFrag_obliging h q.prot s q.flags q.fd (q.offset + h.addr (v + 1) - h.size - q.start) v hv hfix hanon
  refine ⟨t, ?_, hpages⟩
  rw [Vm.mmapTail, if_pos ((HostPages.pageAddr_lt_addr (by omega) hv).mpr hb), hsub, ht]
  rfl

theorem targetMmap_oneHostPage {m : L1Map} (hm : NoBlocks m) (p : Word) :
    ∃ s', (oneHostPage m p).targetMmap doublePages ⟨0, 0x10000⟩ (obliging doublePages)
      ⟨0x40000000, 0x1000, PROT_READ, MAP_FIXED ||| MAP_PRIVATE ||| MAP_ANONYMOUS, -1, 0⟩ = .ok (0x40000000, s') := by
  obtain ⟨t, htail, hpages⟩ := @mmapTail_obliging doublePages 0x40001 (oneHostPage m p)
    ⟨0x40000000, 0x1000, PROT_READ, MAP_FIXED ||| MAP_PRIVATE ||| MAP_ANONYMOUS, -1, 0⟩ 0x20000 (by decide) (by decide) (by decide) (by decide)
  have hlow : doublePages.addr 0x20000 = 0x40000000 := by decide
  have hhigh : doublePages.addr (0x20000 + 1) = 0x40002000 := by decide
  rw [hlow, hhigh, show pageAddr 0x40001 = 0x40001000 by decide] at htail
  obtain ⟨s', hset, -⟩ := setFlags_spec (s := t) (f := PROT_READ ||| PAGE_VALID) (hpages ▸ hm) (show 0x40000 < 0x40001 by decide) (by decide)
  have hmiddle : t.mmapMiddle (obliging doublePages) ⟨0x40000000, 0x1000, PROT_READ, MAP_FIXED ||| MAP_PRIVATE ||| MAP_ANONYMOUS, -1, 0⟩
      0x40000000 0x40000000 = (true, t) := by
    rw [Vm.mmapMiddle, if_neg (by decide)]
  have hend : (0x40000000 : Word) + TARGET_PAGE_ALIGN 0x1000 = 0x40001000 := by decide
  have hup : doublePages.align 0x40001000 = 0x40002000 := by decide
  have hdown : (0x40000000 : Word) &&& doublePages.mask = 0x40000000 := by decide
  have hset : t.pageSetFlags 0x40000000 0x40001000 (PROT_READ ||| PAGE_VALID) = .ok s' := hset
  unfold Vm.targetMmap Vm.targetMmapAt
  dsimp only
  rw [if_neg (by decide), if_neg (by decide), if_neg (by decide), if_neg (by decide), if_neg (by decide), Vm.mmapFixed]
  dsimp only [Vm.mmapStart]
  rw [hend, hup, hdown, if_neg (by decide)]
  dsimp only
  rw [htail]
  dsimp only
  rw [hmiddle]
  dsimp only [Vm.mmapEnd]
  rw [hend, hset]
  exact ⟨s', rfl⟩

end Unitrans
