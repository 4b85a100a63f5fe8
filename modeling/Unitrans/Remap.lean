/-
Moving memory (`target_mremap`). The pages are where they have been moved to, with the flags of the first.
-/
import Unitrans.Unmap

namespace Unitrans

open X86 Except

variable {h : HostPages} {a b i j k l n r w w' : Nat} {s t s' : Vm} {c : Settings} {K : Kernel} {flags newAddr : Word}

/-- The host pages from `l` on, `w` of them, have been moved to the `w'` from `r` on; every other page in use is as it was. -/
structure Moved (h : HostPages) (l w r w' : Nat) (s t : Vm) : Prop where
  pages : t.pages = s.pages
  next : t.mmapNextStart.toNat % 2 ^ h.bits = 0
  fits : h.per * (l + w) < 2 ^ 20 ∧ h.per * (r + w') < 2 ^ 20
  moved : ∃ v, (∀ j, l ≤ j → j < l + w → s.host j ≠ none → s.host j = some v) ∧ ∀ j, r ≤ j → j < r + w' → t.host j = some v
  kept : ∀ j, ¬ (l ≤ j ∧ j < l + w) → ¬ (r ≤ j ∧ j < r + w') → s.host j ≠ none → t.host j = s.host j

/-- The pages are in use where they are now, and not where they were. -/
structure Remaps (h : HostPages) (l w r w' : Nat) (s s' : Vm) : Prop where
  fits : h.per * (l + w) < 2 ^ 20 ∧ h.per * (r + w') < 2 ^ 20
  flags : ∀ k < 2 ^ 20, s'.pages.flags k =
    if h.per * r ≤ k ∧ k < h.per * (r + w') then storedFlags (s.pages.flags (h.per * l) ||| PAGE_VALID)
    else if h.per * l ≤ k ∧ k < h.per * (l + w) then 0 else s.pages.flags k

theorem in_pages : (h.per * l ≤ k ∧ k < h.per * (l + w)) ↔ l ≤ h.page k ∧ h.page k < l + w := by
  have hle := HostPages.page_le (h := h) k
  have hlt := HostPages.lt_page (h := h) k
  constructor
  · intro hin
    have h₁ : l < h.page k + 1 := Nat.lt_of_mul_lt_mul_left (a := h.per) (by omega)
    have h₂ : h.page k < l + w := Nat.lt_of_mul_lt_mul_left (a := h.per) (by omega)
    omega
  · intro hin
    have h₁ := Nat.mul_le_mul_left h.per hin.1
    have h₂ := Nat.mul_le_mul_left h.per (show h.page k + 1 ≤ l + w from hin.2)
    omega

/-- The end of `target_mremap`: the flags. -/
theorem Moved.remaps (hm : Moved h l w r w' s t) (hw : 0 < w) (hw' : 0 < w') (hb : NoBlocks s.pages) :
    ∃ t₁ s', t.pageSetFlags (h.addr l) (h.addr l + h.addr w) 0 = .ok t₁ ∧
      t₁.pageSetFlags (h.addr r) (h.addr r + h.addr w') (pageGetFlags s.pages (h.addr l) ||| PAGE_VALID) = .ok s' ∧
      Remaps h l w r w' s s' ∧ NoBlocks s'.pages ∧ s'.host = t.host ∧ s'.mmapNextStart = t.mmapNextStart := by
  have hper := HostPages.per_pos (h := h)
  obtain ⟨hl, hr⟩ := hm.fits
  have hl' := Nat.mul_lt_mul_of_pos_left (show l < l + w by omega) hper
  have hr' := Nat.mul_lt_mul_of_pos_left (show r < r + w' by omega) hper
  obtain ⟨t₁, hset₁, hm₁, hhost₁, hnext₁, hflags₁⟩ := setFlags_spec (s := t) (f := 0) (hm.pages ▸ hb) hl' hl
  obtain ⟨s', hset₂, hm₂, hhost₂, hnext₂, hflags₂⟩ := setFlags_spec (s := t₁)
    (f := pageGetFlags s.pages (h.addr l) ||| PAGE_VALID) hm₁ hr' hr
  rw [HostPages.addr_add, HostPages.addr_add, HostPages.addr_eq l, HostPages.addr_eq (l + w), HostPages.addr_eq r, HostPages.addr_eq (r + w')]
  rw [HostPages.addr_eq l] at hset₂ hflags₂
  refine ⟨t₁, s', hset₁, hset₂, ⟨hm.fits, fun k hk => ?_⟩, hm₂, hhost₂.trans hhost₁, hnext₂.trans hnext₁⟩
  rw [hflags₂ k hk, hflags₁ k hk, hm.pages, pageGetFlags_pageAddr (by omega)]
  rfl

theorem Remaps.covered (hs : Remaps h l w r w' s s') (hm : Moved h l w r w' s t) (hhost : s'.host = t.host) (hw : 0 < w)
    (hc : Covered h s) : Covered h s' := by
  have hper := HostPages.per_pos (h := h)
  obtain ⟨hl, hr⟩ := hm.fits
  have hl' := Nat.mul_lt_mul_of_pos_left (show l < l + w by omega) hper
  intro k hk hne
  rw [hs.flags k hk] at hne ⊢
  rw [hhost]
  by_cases hin : h.per * r ≤ k ∧ k < h.per * (r + w')
  · obtain ⟨v, hold, hnew⟩ := hm.moved
    obtain ⟨h₁, h₂⟩ := in_pages.mp hin
    rw [if_pos hin]
    refine ⟨v, hnew _ h₁ h₂, permits_storedFlags ?_⟩
    by_cases hz : s.pages.flags (h.per * l) = 0
    · rw [hz]
      exact fun i _ hi => absurd hi (by simp)
    · obtain ⟨p, hp, hperm⟩ := hc (h.per * l) (by omega) hz
      have hpage : h.page (h.per * l) = l := Nat.mul_div_cancel_left l hper
      rw [hpage] at hp
      have hv := hold l (Nat.le_refl _) (by omega) (by rw [hp]; exact Option.some_ne_none p)
      rw [hp, Option.some.injEq] at hv
      exact hv ▸ hperm
  · rw [if_neg hin] at hne ⊢
    by_cases hold : h.per * l ≤ k ∧ k < h.per * (l + w)
    · rw [if_pos hold] at hne
      exact absurd rfl hne
    · rw [if_neg hold] at hne ⊢
      obtain ⟨p, hp, hperm⟩ := hc k hk hne
      refine ⟨p, ?_, hperm⟩
      rw [hm.kept _ (in_pages.not.mp hold) (in_pages.not.mp hin) (by rw [hp]; exact Option.some_ne_none p), hp]

theorem HostPages.pos_of_addr (hne : h.addr w ≠ 0) : 0 < w := by
  rcases Nat.eq_zero_or_pos w with rfl | hw
  · exact absurd rfl hne
  · exact hw

/-! ## What the host is asked for -/

/-- The host has moved the pages; what it had reserved in between does not matter. -/
theorem Remapped.moved_of {old p : Word} {s₁ : Vm} {host : HostMap} (hr : Remapped h s₁.host host old (h.addr w) (h.addr w') flags newAddr p)
    (hs : Searched h s s₁) (hw : 0 < w) (hw' : 0 < w') (hlt : h.per * w < 2 ^ 20) (hlt' : h.per * w' < 2 ^ 20) :
    ∃ l r, old = h.addr l ∧ p = h.addr r ∧ Moved h l w r w' s { s₁ with host := host } ∧
      ((∀ j, Overlaps h p (h.addr w') j → ¬ Overlaps h old (h.addr w) j) → l + w ≤ r ∨ r + w' ≤ l) := by
  obtain ⟨l, rfl, hl⟩ := HostPages.exists_addr hr.aligned.1
  obtain ⟨r, rfl, hr'⟩ := HostPages.exists_addr hr.aligned.2
  obtain ⟨hfit, hfit'⟩ := hr.fits
  rw [hl, HostPages.toNat_addr (HostPages.mul_lt hlt), ← Nat.mul_add] at hfit
  rw [hr', HostPages.toNat_addr (HostPages.mul_lt hlt'), ← Nat.mul_add] at hfit'
  have hfits := HostPages.lt_of_mul_lt hfit
  have hfits' := HostPages.lt_of_mul_lt hfit'
  have hover : ∀ j, Overlaps h (h.addr l) (h.addr w) j ↔ l ≤ j ∧ j < l + w := fun j => overlaps_addr (by omega) hw hlt
  have hover' : ∀ j, Overlaps h (h.addr r) (h.addr w') j ↔ r ≤ j ∧ j < r + w' := fun j => overlaps_addr (by omega) hw' hlt'
  obtain ⟨v, hold, hset⟩ := hr.moved
  have hhost : ∀ j, host j = if r ≤ j ∧ j < r + w' then some v else if l ≤ j ∧ j < l + w then none else s₁.host j := fun j => by
    rw [hset, HostMap.set]
    refine if_congr (hover' j) rfl ?_
    exact if_congr (hover j) rfl rfl
  refine ⟨l, r, rfl, rfl, ⟨hs.pages, hs.next, ⟨hfits, hfits'⟩, ⟨v, fun j h₁ h₂ hne => ?_, fun j h₁ h₂ => ?_⟩, fun j h₁ h₂ hne => ?_⟩, fun hdis => ?_⟩
  · rw [← hs.host j hne]
    exact hold j ((hover j).mpr ⟨h₁, h₂⟩)
  · exact (hhost j).trans (if_pos ⟨h₁, h₂⟩)
  · exact ((hhost j).trans ((if_neg h₂).trans (if_neg h₁))).trans (hs.host j hne)
  · by_contra hno
    have h₁ := hdis (max l r)
    rw [hover', hover] at h₁
    omega

/-- The room the pages have left is reserved. -/
theorem Moved.reserve (hK : K.Lawful h) (hm : Moved h l w r w' s t) (hw : 0 < w) (hdis : l + w ≤ r ∨ r + w' ≤ l) :
    Moved h l w r w' s (t.mmapReserve h K (h.addr l) (h.addr w)) := by
  have hfits := hm.fits
  have hlen : h.addr w = h.addr (l + w) - h.addr l := by rw [HostPages.addr_sub (Nat.le_add_right ..), Nat.add_sub_cancel_left]
  obtain ⟨honly, hor⟩ := mmapReserve_spec (s := t) hK (show l < l + w by omega) (HostPages.mul_add_le hfits.1)
  rw [← hlen] at honly hor
  have hout : ∀ j, ¬ (l ≤ j ∧ j < l + w) → (t.mmapReserve h K (h.addr l) (h.addr w)).host j = t.host j := fun j hj => by
    rcases hor with hhost | hsame
    · exact (hhost j).trans (if_neg hj)
    · exact congrFun hsame j
  obtain ⟨v, hold, hnew⟩ := hm.moved
  refine ⟨honly.pages.trans hm.pages, honly.next ▸ hm.next, hfits, ⟨v, hold, fun j h₁ h₂ => ?_⟩, fun j h₁ h₂ hne => ?_⟩
  · rw [hout j (by omega)]
    exact hnew j h₁ h₂
  · rw [hout j h₁]
    exact hm.kept j h₁ h₂ hne

theorem Searched.refl (hnext : s.mmapNextStart.toNat % 2 ^ h.bits = 0) : Searched h s s := ⟨rfl, fun _ _ => rfl, hnext⟩

theorem fixed_of_or : (flags ||| MREMAP_FIXED) &&& MREMAP_FIXED ≠ 0 := fun he => by
  have hbit := eq_zero_iff_getLsbD.mp he 1
  rw [BitVec.getLsbD_and, BitVec.getLsbD_or, show MREMAP_FIXED.getLsbD 1 = true from rfl, Bool.or_true] at hbit
  exact hbit rfl

/-- What `target_mremap` asks the host for, and what comes of it. A call that may move the pages and fails has reserved them by then;
one that cuts off pages in reserved space reserves others than those. -/
theorem callMremap_spec (hK : K.Lawful h) (hres : c.reservedVa ≠ 0 → h.per = 1) (hc : Covered h s)
    (hnext : s.mmapNextStart.toNat % 2 ^ h.bits = 0) (hw : 0 < w) (hw' : 0 < w') (hlt : h.per * w < 2 ^ 20) (hlt' : h.per * w' < 2 ^ 20)
    (old flags newAddr : Word) (hgrow : flags &&& MREMAP_FIXED = 0 → flags &&& MREMAP_MAYMOVE = 0 → c.reservedVa ≠ 0 → w ≤ w') :
    ∃ p s₁, s.callMremap h c K old (h.addr w) (h.addr w') flags newAddr = .ok (p, s₁) ∧
      (∀ new, p = some new → ∃ l r, old = h.addr l ∧ new = h.addr r ∧ Moved h l w r w' s s₁) ∧
      (p = none → flags &&& MREMAP_FIXED ≠ 0 ∨ flags &&& MREMAP_MAYMOVE = 0 → Searched h s s₁) := by
  have hrefl := Searched.refl hnext
  have hsome : ∀ {new : Word}, ¬ (some new = none) := fun {new} => Option.some_ne_none new
  unfold Vm.callMremap
  by_cases hfix : flags &&& MREMAP_FIXED = 0
  swap
  · rw [if_pos hfix]
    cases hcall : K.mremap s.host old (h.addr w) (h.addr w') flags newAddr with
    | mk p host =>
      dsimp only
      cases p with
      | none =>
        have hsame := hK.stayed _ _ _ _ _ _ _ hcall
        refine ⟨none, { s with host := host }, ?_, fun new he => absurd he.symm hsome, fun _ _ => ⟨rfl, fun j _ => by rw [hsame], hnext⟩⟩
        rw [if_neg fun hno => absurd hno.2 (by decide)]
      | some p =>
        have hremap := hK.mremap _ _ _ _ _ _ _ _ hcall
        obtain ⟨hp, hover⟩ := hremap.fixed hfix
        obtain ⟨l, r, rfl, rfl, hmoved, hdis⟩ := hremap.moved_of hrefl hw hw' hlt hlt'
        refine ⟨some (h.addr r), _, rfl, fun new he => ?_, fun he => absurd he hsome⟩
        obtain rfl := Option.some.inj he
        refine ⟨l, r, rfl, rfl, ?_⟩
        split
        · exact hmoved.reserve hK hw (hdis (hp ▸ hover))
        · exact hmoved
  rw [if_neg (not_not.mpr hfix)]
  by_cases hmay : flags &&& MREMAP_MAYMOVE = 0
  swap
  · rw [if_pos hmay]
    obtain ⟨start, s₁, hfind, hsearch, -⟩ := mmapFindVma_spec hK hres hc hnext 0 hw' hlt'
    rw [hfind]
    dsimp only [bind, Except.bind]
    by_cases hnone : start = -1
    · rw [if_pos hnone]
      exact ⟨none, s₁, rfl, fun new he => absurd he.symm hsome, fun _ _ => hsearch⟩
    rw [if_neg hnone]
    cases hcall : K.mremap s₁.host old (h.addr w) (h.addr w') (flags ||| MREMAP_FIXED) start with
    | mk p host =>
      have hret : (pure ((K.mremap s₁.host old (h.addr w) (h.addr w') (flags ||| MREMAP_FIXED) start).1, Vm.mmapReserve h K
          { s₁ with host := (K.mremap s₁.host old (h.addr w) (h.addr w') (flags ||| MREMAP_FIXED) start).2 } old (h.addr w)) :
          Result (Option Word × Vm)) = .ok (p, Vm.mmapReserve h K { s₁ with host := host } old (h.addr w)) := by
        rw [hcall]
        rfl
      refine ⟨p, _, hret, fun new he => ?_, fun _ hor => absurd hor (not_or.mpr ⟨not_not.mpr hfix, hmay⟩)⟩
      subst he
      have hremap := hK.mremap _ _ _ _ _ _ _ _ hcall
      obtain ⟨rfl, hover⟩ := hremap.fixed fixed_of_or
      obtain ⟨l, r, rfl, rfl, hmoved, hdis⟩ := hremap.moved_of hsearch hw hw' hlt hlt'
      exact ⟨l, r, rfl, rfl, hmoved.reserve hK hw (hdis hover)⟩
  · rw [if_neg (not_not.mpr hmay)]
    dsimp only
    by_cases hroom : (if c.reservedVa ≠ 0 ∧ h.addr w < h.addr w' then
        Vm.orByteFlags s.pages (old + h.addr w') (2 ^ 32) (old + h.addr w) 0 else 0) = 0
    swap
    · rw [if_neg hroom]
      exact ⟨none, s, rfl, fun new he => absurd he.symm hsome, fun _ _ => hrefl⟩
    rw [if_pos hroom]
    cases hcall : K.mremap s.host old (h.addr w) (h.addr w') flags 0 with
    | mk p host =>
      have hcut : ¬ (p.isSome = true ∧ c.reservedVa ≠ 0 ∧ h.addr w' < h.addr w) := fun hno => by
        have h₁ := hgrow hfix hmay hno.2.1
        have h₂ := (HostPages.addr_lt hlt' hlt).mp hno.2.2
        omega
      have hret : (Except.ok ((K.mremap s.host old (h.addr w) (h.addr w') flags 0).1,
          if (K.mremap s.host old (h.addr w) (h.addr w') flags 0).1.isSome = true ∧ c.reservedVa ≠ 0 ∧ h.addr w' < h.addr w then
            Vm.mmapReserve h K { s with host := (K.mremap s.host old (h.addr w) (h.addr w') flags 0).2 } (old + h.addr w)
              (h.addr w' - h.addr w)
          else { s with host := (K.mremap s.host old (h.addr w) (h.addr w') flags 0).2 }) : Result (Option Word × Vm)) =
          .ok (p, { s with host := host }) := by
        rw [hcall, if_neg hcut]
      refine ⟨p, { s with host := host }, hret, fun new he => ?_, fun he _ => ?_⟩
      · subst he
        obtain ⟨l, r, rfl, rfl, hmoved, -⟩ := (hK.mremap _ _ _ _ _ _ _ _ hcall).moved_of hrefl hw hw' hlt hlt'
        exact ⟨l, r, rfl, rfl, hmoved⟩
      · subst he
        have hsame := hK.stayed _ _ _ _ _ _ _ hcall
        exact ⟨rfl, fun j _ => by rw [hsame], hnext⟩

/-- `target_mremap` of whole host pages: it returns -1, or the pages are where it says. -/
theorem targetMremap_spec (hK : K.Lawful h) (hres : c.reservedVa ≠ 0 → h.per = 1) (hok : VmOk h s) (hw : 0 < w) (hw' : 0 < w')
    (hlt : h.per * w < 2 ^ 20) (hlt' : h.per * w' < 2 ^ 20) (old flags newAddr : Word)
    (hgrow : flags &&& MREMAP_FIXED = 0 → flags &&& MREMAP_MAYMOVE = 0 → c.reservedVa ≠ 0 → w ≤ w') :
    ∃ ret s', s.targetMremap h c K old (h.addr w) (h.addr w') flags newAddr = .ok (ret, s') ∧
      (ret = -1 ∧ (flags &&& MREMAP_FIXED ≠ 0 ∨ flags &&& MREMAP_MAYMOVE = 0 → Searched h s s') ∨
        ∃ l r, old = h.addr l ∧ ret = h.addr r ∧ VmOk h s' ∧ Remaps h l w r w' s s') := by
  obtain ⟨p, s₁, hcall, hmoved, hstay⟩ := callMremap_spec hK hres hok.covered hok.next hw hw' hlt hlt' old flags newAddr hgrow
  unfold Vm.targetMremap
  rw [hcall]
  dsimp only [bind, Except.bind]
  cases p with
  | none => exact ⟨-1, s₁, rfl, Or.inl ⟨rfl, hstay rfl⟩⟩
  | some p =>
    obtain ⟨l, r, rfl, rfl, hm⟩ := hmoved p rfl
    obtain ⟨t₁, s', hset₁, hset₂, hremaps, hb, hhost, hnext⟩ := hm.remaps hw hw' hok.noBlocks
    dsimp only
    rw [hm.pages, hset₁]
    dsimp only
    rw [hset₂]
    exact ⟨h.addr r, s', rfl, Or.inr ⟨l, r, rfl, rfl, ⟨hremaps.covered hm hhost hw hok.covered, hb, hnext ▸ hm.next⟩, hremaps⟩⟩

end Unitrans
