/-
A mapping anywhere (`target_mmap` without `MAP_FIXED`). It takes no page that is in use, and sets the flags of the pages it
returns and of no others.
-/
import Unitrans.FixedMap

namespace Unitrans

open X86 Except FirstFit

variable {h : HostPages} {m : L1Map} {a b i k n : Nat} {prot : Word} {s t s' : Vm} {c : Settings} {K : Kernel}

namespace HostPages

theorem and_mask_mod (a : Word) : (a &&& h.mask).toNat % 2 ^ h.bits = 0 := by
  rw [mask, size_sub_one, Align.toNat_and_not_low, Nat.mul_mod_right]

theorem addr_mod {i : Nat} (hi : 2 ^ h.bits * i < 2 ^ 32) : (h.addr i).toNat % 2 ^ h.bits = 0 := by
  rw [toNat_addr hi, Nat.mul_mod_right]

theorem mul_lt {i : Nat} (hi : h.per * i < 2 ^ 20) : 2 ^ h.bits * i < 2 ^ 32 := by
  rw [pow_eq, Nat.mul_assoc]
  omega

theorem lt_of_mul_lt {i : Nat} (hi : 2 ^ h.bits * i < 2 ^ 32) : h.per * i < 2 ^ 20 := by
  rw [pow_eq, Nat.mul_assoc] at hi
  omega

end HostPages

/-! ## Room -/

/-- The host pages from `l` on, `w` of them, are not in use. -/
structure Room (h : HostPages) (w : Nat) (s : Vm) (r : Word) (l : Nat) : Prop where
  at_ : r = h.addr l
  fits : h.per * (l + w) < 2 ^ 20
  free : ∀ k, h.per * l ≤ k → k < h.per * (l + w) → s.pages.flags k = 0

/-- What a search leaves as it was. -/
structure Searched (h : HostPages) (s s' : Vm) : Prop where
  pages : s'.pages = s.pages
  host : ∀ j, s.host j ≠ none → s'.host j = s.host j
  next : s'.mmapNextStart.toNat % 2 ^ h.bits = 0

/-- What a run keeps. -/
structure VmOk (h : HostPages) (s : Vm) : Prop where
  covered : Covered h s
  noBlocks : NoBlocks s.pages
  next : s.mmapNextStart.toNat % 2 ^ h.bits = 0

theorem VmOk.searched (hok : VmOk h s) (hs : Searched h s s') : VmOk h s' := by
  refine ⟨fun k hk hne => ?_, by rw [hs.pages]; exact hok.noBlocks, hs.next⟩
  rw [hs.pages] at hne ⊢
  obtain ⟨p, hp, hperm⟩ := hok.covered k hk hne
  exact ⟨p, by rw [hs.host _ (by rw [hp]; exact Option.some_ne_none p), hp], hperm⟩

/-- What the host gives is aligned for the guest, at the first try. -/
theorem findVma_spec (hK : K.Lawful h) (hc : Covered h s) (hnext : s.mmapNextStart.toNat % 2 ^ h.bits = 0) {w : Nat} (fuel again : Nat)
    (start addr prev : Word) (wrapped : Bool) (hw : 0 < w) (hw' : h.per * w < 2 ^ 20) :
    ∃ r s', Vm.findVma c K start (h.addr w) (fuel + 1) s addr prev wrapped again = .ok (r, s') ∧ Searched h s s' ∧
      (r = -1 ∨ ∃ l, Room h w s r l) := by
  have hpos := Nat.two_pow_pos h.bits
  have hval := HostPages.toNat_addr (HostPages.mul_lt hw')
  rw [Vm.findVma]
  cases hmap : K.mmap s.host ⟨addr, h.addr w, PROT_NONE, MAP_ANONYMOUS ||| MAP_PRIVATE ||| MAP_NORESERVE, -1, 0⟩ with
  | mk p host =>
    cases p with
    | none =>
      have hsame := hK.failed _ _ _ hmap
      exact ⟨_, _, rfl, ⟨rfl, fun j _ => by rw [hsame], hnext⟩, Or.inl rfl⟩
    | some p =>
      obtain ⟨hal, hroom, hnone, hset⟩ :=
        hK.anywhere _ _ _ _ (show (MAP_ANONYMOUS ||| MAP_PRIVATE ||| MAP_NORESERVE) &&& MAP_FIXED = 0 by decide) hmap
      obtain ⟨l, rfl, hl⟩ := HostPages.exists_addr hal
      change (h.addr l).toNat + (h.addr w).toNat < 2 ^ 32 at hroom
      rw [hval, hl, ← Nat.mul_add] at hroom
      have hfits := HostPages.lt_of_mul_lt hroom
      have hmul : h.per * (l + w) = h.per * l + h.per * w := Nat.mul_add ..
      have hpage : h.addr l &&& ~~~TARGET_PAGE_MASK = 0 := by
        rw [and_not_pageMask_eq_zero]
        exact Nat.mod_eq_zero_of_dvd ((Nat.pow_dvd_pow 2 h.target_le).trans (Nat.dvd_of_mod_eq_zero hal))
      have hover : ∀ j, Overlaps h (h.addr l) (h.addr w) j ↔ l ≤ j ∧ j < l + w := fun j =>
        overlaps_addr (by omega) hw hw'
      dsimp only
      rw [if_pos hpage]
      refine ⟨_, _, rfl, ⟨rfl, fun j hj => ?_, ?_⟩, Or.inr ⟨l, rfl, hfits, fun k h₁ h₂ => ?_⟩⟩
      · show host j = _
        rw [hset, HostMap.set, if_neg fun ho => hj (hnone j ho)]
      · dsimp only
        split
        · rw [HostPages.addr_add]
          exact HostPages.addr_mod (HostPages.mul_lt hfits)
        · exact hnext
      · by_contra hne
        obtain ⟨q, hq, -⟩ := hc k (by omega) hne
        have hle := HostPages.page_le (h := h) k
        have hlt := HostPages.lt_page (h := h) k
        have h₃ : l < h.page k + 1 := Nat.lt_of_mul_lt_mul_left (a := h.per) (by omega)
        have h₄ : h.page k < l + w := Nat.lt_of_mul_lt_mul_left (a := h.per) (by omega)
        have hno := hnone (h.page k) ((hover _).mpr (by omega))
        rw [hq] at hno
        cases hno

/-- Room that is free, whichever way it is looked for. A search in reserved space looks at the first page of each host page. -/
theorem mmapFindVma_spec (hK : K.Lawful h) (hres : c.reservedVa ≠ 0 → h.per = 1) (hc : Covered h s)
    (hnext : s.mmapNextStart.toNat % 2 ^ h.bits = 0) {w : Nat} (start : Word) (hw : 0 < w) (hw' : h.per * w < 2 ^ 20) :
    ∃ r s', s.mmapFindVma h c K start (h.addr w) = .ok (r, s') ∧ Searched h s s' ∧ (r = -1 ∨ ∃ l, Room h w s r l) := by
  have hval := HostPages.toNat_addr (HostPages.mul_lt hw')
  have hsize : h.align (h.addr w) = h.addr w := by
    apply BitVec.eq_of_toNat_eq
    have hup : h.up (h.addr w).toNat = (h.addr w).toNat := Align.up_of_dvd (HostPages.addr_mod (HostPages.mul_lt hw'))
    rw [HostPages.toNat_align, hup, if_pos (BitVec.isLt _)]
  unfold Vm.mmapFindVma
  dsimp only
  rw [hsize]
  obtain ⟨first, hfirst⟩ : ∃ first, first = if start = 0 then s.mmapNextStart else start &&& h.mask := ⟨_, rfl⟩
  have hmod : first.toNat % 2 ^ h.bits = 0 := by
    rw [hfirst]
    split
    · exact hnext
    · exact HostPages.and_mask_mod start
  rw [← hfirst]
  by_cases hzero : c.reservedVa = 0
  · rw [if_neg (not_not.mpr hzero)]
    obtain ⟨fuel, hfuel⟩ : ∃ fuel, 2 ^ 32 = fuel + 1 := ⟨4294967295, by decide⟩
    rw [hfuel]
    exact findVma_spec hK hc hnext fuel 0 first first 0 false hw hw'
  · rw [if_pos hzero]
    have hone := hres hzero
    obtain ⟨l, rfl, hl⟩ := HostPages.exists_addr hmod
    have hlt : 2 ^ h.bits * l < 2 ^ 32 := by
      rw [← hl]
      exact BitVec.isLt _
    -- a row of host pages without flags
    have hfound : ∀ {r first : Nat}, First (UsedAt h s.pages) (RoomAt h c (h.addr w)) w first r →
        s.mmapFindVmaReserved h c (h.addr l) (h.addr w) = .ok (h.addr r, { s with mmapNextStart := h.addr (r + w) }) →
        ∃ r s', s.mmapFindVmaReserved h c (h.addr l) (h.addr w) = .ok (r, s') ∧ Searched h s s' ∧ (r = -1 ∨ ∃ l, Room h w s r l) :=
      fun {r first} hr hs => by
        obtain ⟨-, hroom, hfree, -⟩ := hr
        have hbelow : 2 ^ h.bits * r + (h.addr w).toNat < c.reservedVa.toNat := hroom
        have hR := c.reservedVa.isLt
        rw [hval, ← Nat.mul_add] at hbelow
        have hfits := HostPages.lt_of_mul_lt (h := h) (i := r + w) (by omega)
        refine ⟨_, _, hs, ⟨rfl, fun j _ => rfl, HostPages.addr_mod (by omega)⟩, Or.inr ⟨r, rfl, hfits, fun k h₁ h₂ => ?_⟩⟩
        rw [hone, Nat.one_mul] at h₁ h₂ hfits
        have hfree := not_not.mp (hfree k h₁ h₂)
        rwa [HostPages.addr_eq, hone, Nat.one_mul, pageGetFlags_pageAddr (by omega)] at hfree
    rcases mmapFindVmaReserved_found (c := c) s hval hw hlt with ⟨r, hr, hs⟩ | ⟨-, ⟨r, hr, hs⟩ | ⟨-, hs⟩⟩
    · exact hfound hr hs
    · exact hfound hr hs
    · exact ⟨_, _, hs, ⟨rfl, fun j _ => rfl, hnext⟩, Or.inl rfl⟩

/-! ## The mapping -/

/-- The pages from `a` on, `n` of them, were not in use, and are for `prot` now; every page in use is as it was. -/
structure Taken (h : HostPages) (a n : Nat) (prot : Word) (s s' : Vm) : Prop where
  fits : a + n < 2 ^ 20
  free : ∀ k, a ≤ k → k < a + n → s.pages.flags k = 0
  flags : ∀ k < 2 ^ 20, s'.pages.flags k = if a ≤ k ∧ k < a + n then storedFlags (prot ||| PAGE_VALID) else s.pages.flags k
  mapped : ∀ k, a ≤ k → k < a + n → s'.host (h.page k) = some prot
  kept : ∀ k < 2 ^ 20, s.pages.flags k ≠ 0 → s'.host (h.page k) = s.host (h.page k)

theorem Taken.covered (ht : Taken h a n prot s s') (hc : Covered h s) : Covered h s' := by
  intro k hk hne
  rw [ht.flags k hk] at hne ⊢
  by_cases hin : a ≤ k ∧ k < a + n
  · rw [if_pos hin]
    exact ⟨prot, ht.mapped k hin.1 hin.2, permits_storedFlags (.refl prot)⟩
  · rw [if_neg hin] at hne ⊢
    rw [ht.kept k hk hne]
    exact hc k hk hne

variable {q : Vm.Request}

/-- What follows the search: the room is for `prot`, and `n` pages of it, from `d` on, get the flags. -/
theorem taken_of_room (prot : Word) {w d l : Nat} {r : Word} {s₁ t : Vm} (hc : Covered h s) (hm : NoBlocks s.pages) (hroom : Room h w s r l)
    (hsearch : Searched h s s₁) (hn : 0 < n) (hd : d + n ≤ h.per * w) (hpages : t.pages = s₁.pages)
    (hhost : ∀ j, t.host j = if l ≤ j ∧ j < l + w then some prot else s₁.host j) :
    ∃ s', t.pageSetFlags (pageAddr (h.per * l + d)) (pageAddr (h.per * l + d + n)) (prot ||| PAGE_VALID) = .ok s' ∧
      Taken h (h.per * l + d) n prot s s' ∧ NoBlocks s'.pages ∧ s'.mmapNextStart = t.mmapNextStart := by
  have hper := HostPages.per_pos (h := h)
  have hfits := hroom.fits
  have hmul : h.per * (l + w) = h.per * l + h.per * w := Nat.mul_add ..
  have hsame : t.pages = s.pages := hpages.trans hsearch.pages
  have hin : ∀ k, h.per * l ≤ k → k < h.per * (l + w) → l ≤ h.page k ∧ h.page k < l + w := fun k h₁ h₂ => by
    have hle := HostPages.page_le (h := h) k
    have hlt := HostPages.lt_page (h := h) k
    have h₃ : l < h.page k + 1 := Nat.lt_of_mul_lt_mul_left (a := h.per) (by omega)
    have h₄ : h.page k < l + w := Nat.lt_of_mul_lt_mul_left (a := h.per) (by omega)
    omega
  obtain ⟨s', hset, hm', hhost', hnext', hflags⟩ := setFlags_spec (s := t) (a := h.per * l + d) (b := h.per * l + d + n)
    (f := prot ||| PAGE_VALID) (hsame ▸ hm) (by omega) (by omega)
  refine ⟨s', hset, ⟨by omega, fun k h₁ h₂ => hroom.free k (by omega) (by omega), fun k hk => hsame ▸ hflags k hk, fun k h₁ h₂ => ?_,
    fun k hk hne => ?_⟩, hm', hnext'⟩
  · rw [hhost', hhost, if_pos (hin k (by omega) (by omega))]
  · have hout : ¬ (l ≤ h.page k ∧ h.page k < l + w) := fun hpg => by
      have h₁ := Nat.mul_le_mul_left h.per hpg.1
      have h₂ := Nat.mul_le_mul_left h.per (show h.page k + 1 ≤ l + w from hpg.2)
      have hle := HostPages.page_le (h := h) k
      have hlt := HostPages.lt_page (h := h) k
      exact hne (hroom.free k (by omega) (by omega))
    obtain ⟨p, hp, -⟩ := hc k hk hne
    rw [hhost', hhost, if_neg hout]
    exact hsearch.host _ (by rw [hp]; exact Option.some_ne_none p)

theorem fixed_or {flags : Word} : (flags ||| MAP_FIXED) &&& MAP_FIXED ≠ 0 := fun he => by
  have hbit := eq_zero_iff_getLsbD.mp he 4
  rw [BitVec.getLsbD_and, BitVec.getLsbD_or, show MAP_FIXED.getLsbD 4 = true from rfl, Bool.or_true] at hbit
  exact hbit rfl

theorem fixed_or_or {flags : Word} : (flags ||| MAP_FIXED ||| MAP_ANONYMOUS) &&& MAP_FIXED ≠ 0 := fixed_of_anonymous fixed_or

/-- Pages mapped once more with the protection they have. -/
theorem mmap_same (hK : K.Lawful h) {m : HostMap} {call : MmapCall} (hfix : call.flags &&& MAP_FIXED ≠ 0)
    (hprot : ∀ j, Overlaps h call.addr call.len j → m j = some call.prot) : (K.mmap m call).2 = m := by
  cases hmap : K.mmap m call with
  | mk p host =>
    cases p with
    | none => exact hK.failed _ _ _ hmap
    | some p =>
      obtain ⟨-, hset⟩ := hK.fixed _ _ _ _ hfix hmap
      rw [hset]
      funext j
      by_cases hj : Overlaps h call.addr call.len j
      · exact (if_pos hj).trans (hprot j hj).symm
      · exact if_neg hj

theorem overlaps_inside {j l w : Nat} (hl : h.per * (l + w) < 2 ^ 20) (hn : n ≤ h.per * w)
    (ho : Overlaps h (pageAddr (h.per * l)) (pageAddr n) j) : l ≤ j ∧ j < l + w := by
  have hmul : h.per * (l + w) = h.per * l + h.per * w := Nat.mul_add ..
  obtain ⟨h₁, h₂⟩ := ho
  rw [toNat_pageAddr (by omega), HostPages.pow_eq, Nat.mul_assoc] at h₁
  rw [toNat_pageAddr (by omega), toNat_pageAddr (by omega), HostPages.pow_eq, Nat.mul_assoc] at h₂
  have h₃ : l < j + 1 := Nat.lt_of_mul_lt_mul_left (a := h.per) (by omega)
  have h₄ : j < l + w := Nat.lt_of_mul_lt_mul_left (a := h.per) (by omega)
  omega

/-- The pages an address and a length take, with those of the host page before the address. -/
theorem hostLen_eq {o : Nat} (ho : o < 2 ^ 20) (hn : n + 2 * h.per ≤ 2 ^ 20) :
    h.align (pageAddr n + pageAddr o - (pageAddr o &&& h.mask)) = h.addr (h.upPage (n + (o - h.per * h.page o))) ∧
      pageAddr o - (pageAddr o &&& h.mask) = pageAddr (o - h.per * h.page o) ∧ o - h.per * h.page o < h.per := by
  have hle := HostPages.page_le (h := h) o
  have hlt := HostPages.lt_page (h := h) o
  have hmul : h.per * (h.page o + 1) = h.per * h.page o + h.per := Nat.mul_succ ..
  have hsub : n + o - h.per * h.page o = n + (o - h.per * h.page o) := by omega
  refine ⟨?_, ?_, by omega⟩
  · rw [HostPages.and_mask ho, HostPages.addr_eq, pageAddr_add, pageAddr_sub (by omega), hsub, HostPages.align_pageAddr (by omega)]
  · rw [HostPages.and_mask ho, HostPages.addr_eq, pageAddr_sub hle]

/-- `mmap` without `MAP_FIXED`: it returns -1, or the address of pages that were not in use. -/
theorem mmapAnywhere_spec (hK : K.Lawful h) (hres : c.reservedVa ≠ 0 → h.per = 1) (hc : Covered h s) (hm : NoBlocks s.pages)
    (hnext : s.mmapNextStart.toNat % 2 ^ h.bits = 0) {o : Nat} (hoff : q.offset = pageAddr o) (ho : o < 2 ^ 20) (hn : 0 < n)
    (hfit : n + 2 * h.per ≤ 2 ^ 20) : ∃ ret s', s.mmapAnywhere h c K q (pageAddr n) = .ok (ret, s') ∧
      (ret = -1 ∧ Searched h s s' ∨
        ∃ a, ret = pageAddr a ∧ Taken h a n q.prot s s' ∧ NoBlocks s'.pages ∧ s'.mmapNextStart.toNat % 2 ^ h.bits = 0) := by
  obtain ⟨hlen, hshift, hd⟩ := hostLen_eq (h := h) ho hfit
  obtain ⟨d, hdd⟩ : ∃ d, d = o - h.per * h.page o := ⟨_, rfl⟩
  obtain ⟨w, hw⟩ : ∃ w, w = h.upPage (n + d) := ⟨_, rfl⟩
  rw [← hdd] at hlen hshift hd
  rw [← hw] at hlen
  have hper := HostPages.per_pos (h := h)
  have hup := HostPages.le_upPage (h := h) (n + d)
  have hup' := HostPages.mul_upPage_lt (h := h) (b := n + d)
  rw [← hw] at hup hup'
  have hw₀ : 0 < w := by
    rcases Nat.eq_zero_or_pos w with rfl | hw₀
    · rw [Nat.mul_zero] at hup
      omega
    · exact hw₀
  obtain ⟨r, s₁, hfind, hsearch, hor⟩ := mmapFindVma_spec hK hres hc hnext (q.start &&& h.mask) hw₀ (by omega)
  unfold Vm.mmapAnywhere
  dsimp only
  rw [hoff, hlen, hshift, hfind]
  dsimp only [bind, Except.bind]
  by_cases hnone : r = -1
  · rw [if_pos hnone]
    exact ⟨-1, s₁, rfl, Or.inl ⟨rfl, hsearch⟩⟩
  rw [if_neg hnone]
  obtain ⟨l, hroom⟩ := hor.resolve_left hnone
  obtain rfl := hroom.at_
  have hfits := hroom.fits
  have hmul : h.per * (l + w) = h.per * l + h.per * w := Nat.mul_add ..
  cases hmap : K.mmap s₁.host ⟨h.addr l, h.addr w, q.prot, q.flags ||| MAP_FIXED ||| MAP_ANONYMOUS, -1, 0⟩ with
  | mk p host =>
    cases p with
    | none =>
      have hsame := hK.failed _ _ _ hmap
      refine ⟨-1, { s₁ with host := host }, rfl, Or.inl ⟨rfl, hsearch.pages, fun j hj => ?_, hsearch.next⟩⟩
      show host j = _
      rw [hsame]
      exact hsearch.host j hj
    | some p =>
      obtain ⟨rfl, hset⟩ := hK.fixed _ _ _ _ fixed_or_or hmap
      have hhost : ∀ j, host j = if l ≤ j ∧ j < l + w then some q.prot else s₁.host j := fun j => by
        rw [hset, HostMap.set]
        exact if_congr (overlaps_addr (by omega) hw₀ (by omega)) rfl rfl
      -- the flags of `n` pages, from one of the room's on
      have hend : ∀ {e : Nat}, e + n ≤ h.per * w →
          ∃ s', Vm.mmapEnd q { s₁ with host := host } (pageAddr (h.per * l + e)) (pageAddr n) = .ok (pageAddr (h.per * l + e), s') ∧
            Taken h (h.per * l + e) n q.prot s s' ∧ NoBlocks s'.pages ∧ s'.mmapNextStart.toNat % 2 ^ h.bits = 0 := fun {e} he => by
        obtain ⟨s', hset, htaken, hm', hnext'⟩ := taken_of_room q.prot (t := { s₁ with host := host }) hc hm hroom hsearch hn he
          rfl hhost
        refine ⟨s', ?_, htaken, hm', by rw [hnext']; exact hsearch.next⟩
        rw [Vm.mmapEnd, pageAddr_add, hset]
        rfl
      dsimp only
      by_cases hanon : q.flags &&& MAP_ANONYMOUS = 0
      · rw [if_pos hanon, HostPages.addr_eq l, pageAddr_add]
        -- the file is mapped over what is there, if at all
        have hagain : (K.mmap host ⟨pageAddr (h.per * l), pageAddr n, q.prot, q.flags ||| MAP_FIXED, q.fd, pageAddr o &&& h.mask⟩).2 = host :=
          mmap_same hK fixed_or fun j hj => (hhost j).trans (if_pos (overlaps_inside (w := w) (by omega) (by omega) hj))
        obtain ⟨s', hs', hrest⟩ := hend (e := d) (by omega)
        refine ⟨_, s', ?_, Or.inr ⟨_, rfl, hrest⟩⟩
        rw [← hs']
        exact congrArg (fun m => Vm.mmapEnd q { s₁ with host := m } (pageAddr (h.per * l + d)) (pageAddr n)) hagain
      · rw [if_neg hanon, HostPages.addr_eq l]
        obtain ⟨s', hs', hrest⟩ := hend (e := 0) (by omega)
        exact ⟨_, s', hs', Or.inr ⟨_, rfl, hrest⟩⟩

/-- A call without `MAP_FIXED` that gets as far as to look for room. -/
theorem targetMmap_anywhere_eq (hflags : q.flags &&& MAP_FIXED = 0) (hoff : q.offset &&& ~~~TARGET_PAGE_MASK = 0)
    (hlen : TARGET_PAGE_ALIGN q.len ≠ 0) : s.targetMmap h c K q = s.mmapAnywhere h c K q (TARGET_PAGE_ALIGN q.len) := by
  unfold Vm.targetMmap Vm.targetMmapAt
  dsimp only
  rw [if_neg (not_not.mpr hoff), if_neg hlen, if_pos hflags]

/-- Nothing is in use. -/
def emptyVm : Vm := ⟨noPages, fun _ => none, TASK_UNMAPPED_BASE⟩

theorem emptyVm_flags (k : Nat) : emptyVm.pages.flags k = 0 := by
  show L1Map.flags noPages k = 0
  rw [L1Map.flags, page_noPages]

theorem emptyVm_ok (h : HostPages) (hbits : h.bits = 13) : VmOk h emptyVm where
  covered k _ hne := absurd (emptyVm_flags k) hne
  noBlocks k _ := by
    show (L1Map.page noPages k).firstTb = 0
    rw [page_noPages]
  next := by
    rw [hbits]
    decide

/-- Nothing is mapped but one host page, for two pages of the guest's. -/
def oneHostPage (m : L1Map) (p : Word) : Vm := ⟨m, fun j => if j = 0x20000 then some p else none, TASK_UNMAPPED_BASE⟩

theorem oneHostPage_ok {m : L1Map} {p : Word} (hclean : NoBlocks m)
    (hflags : ∀ k < 2 ^ 20, m.flags k ≠ 0 → doublePages.page k = 0x20000 ∧ Permits p (m.flags k)) : VmOk doublePages (oneHostPage m p) where
  covered k hk hne := ⟨p, if_pos (hflags k hk hne).1, (hflags k hk hne).2⟩
  noBlocks := hclean
  next := show TASK_UNMAPPED_BASE.toNat % 2 ^ 13 = 0 by decide

end Unitrans
