/-
Unmapping (`target_munmap`). It unmaps the host pages of a range that no page in use outside it shares.
-/
import Unitrans.FreshMap

namespace Unitrans

open X86 Except

variable {h : HostPages} {m : L1Map} {a b i k n : Nat} {prot : Word} {s t s' : Vm} {c : Settings} {K : Kernel}

/-- A host page that starts in the guest's space ends in it. -/
theorem HostPages.mul_add_le (hi : h.per * i < 2 ^ 20) : h.per * i + h.per ≤ 2 ^ 20 := by
  have hbits := h.lt_word
  obtain ⟨e, he⟩ : h.per ∣ 2 ^ 20 := Nat.pow_dvd_pow 2 (by omega)
  rw [he] at hi ⊢
  exact Nat.mul_le_mul_left h.per (show i + 1 ≤ e from Nat.lt_of_mul_lt_mul_left hi)

/-- No page of a host page has flags, but for those from `a` to `b`. -/
def Unshared (h : HostPages) (m : L1Map) (a b j : Nat) : Prop := ∀ k, h.page k = j → k < a ∨ b ≤ k → m.flags k = 0

namespace HostPages

theorem mul_lt_of_lt_upPage {j : Nat} (hj : j < h.upPage b) : h.per * j < b := by
  rwa [← Nat.not_le, upPage_le, Nat.not_le] at hj

theorem page_lt_upPage_of_lt (hab : a < b) : h.page a < h.upPage b := by
  have hle := page_le (h := h) a
  have hup := le_upPage (h := h) b
  exact Nat.lt_of_mul_lt_mul_left (show h.per * h.page a < h.per * h.upPage b by omega)

end HostPages

/-- A host page in the middle has no other pages. -/
theorem unshared_middle {j : Nat} (h₁ : h.page a < j) (h₂ : j + 1 < h.upPage b) : Unshared h m a b j := by
  intro k hk ho
  have hin := HostPages.mem_page.mp hk
  have hlt := HostPages.lt_page (h := h) a
  have hb := HostPages.mul_lt_of_lt_upPage h₂
  have ha := Nat.mul_le_mul_left h.per (show h.page a + 1 ≤ j from h₁)
  omega

/-- The first host page, unless it is the last, is shared with the pages in front of the range. -/
theorem unshared_first (hu : h.page a + 1 < h.upPage b) :
    (∀ k, h.per * h.page a ≤ k → k < a → m.flags k = 0) ↔ Unshared h m a b (h.page a) := by
  have hb := HostPages.mul_lt_of_lt_upPage hu
  have hlt := HostPages.lt_page (h := h) a
  constructor
  · intro hz k hk ho
    have hin := HostPages.mem_page.mp hk
    exact hz k hin.1 (by omega)
  · intro hz k h₁ h₂
    exact hz k (HostPages.mem_page.mpr (by omega)) (Or.inl h₂)

/-- The last host page, unless the range starts within it, is shared with the pages behind the range. -/
theorem unshared_last {v : Nat} (hv : v < h.upPage b) (ha : a ≤ h.per * v) :
    (∀ k, b ≤ k → k < h.per * (v + 1) → m.flags k = 0) ↔ Unshared h m a b v := by
  have hb := HostPages.mul_lt_of_lt_upPage hv
  constructor
  · intro hz k hk ho
    have hin := HostPages.mem_page.mp hk
    exact hz k (by omega) hin.2
  · intro hz k h₁ h₂
    exact hz k (HostPages.mem_page.mpr (by omega)) (Or.inr h₁)

/-- The only host page of a range is shared with both. -/
theorem unshared_only (hab : a < b) (hu : h.upPage b = h.page a + 1) :
    ((∀ k, h.per * h.page a ≤ k → k < a → m.flags k = 0) ∧ ∀ k, b ≤ k → k < h.per * (h.page a + 1) → m.flags k = 0) ↔
      Unshared h m a b (h.page a) := by
  have hle := HostPages.page_le (h := h) a
  have hup := HostPages.le_upPage (h := h) b
  rw [hu] at hup
  constructor
  · intro hz k hk ho
    have hin := HostPages.mem_page.mp hk
    rcases ho with ho | ho
    · exact hz.1 k hin.1 ho
    · exact hz.2 k ho hin.2
  · intro hz
    exact ⟨fun k h₁ h₂ => hz k (HostPages.mem_page.mpr (by omega)) (Or.inl h₂),
      fun k h₁ h₂ => hz k (HostPages.mem_page.mpr (by omega)) (Or.inr h₁)⟩

/-- Where the host pages to unmap begin: behind the first one if it is shared. -/
def BeginsAt (h : HostPages) (m : L1Map) (a b l : Nat) : Prop :=
  l = h.page a ∧ Unshared h m a b (h.page a) ∨ l = h.page a + 1 ∧ ¬ Unshared h m a b (h.page a)

/-- Where they end: in front of the last one if it is shared. -/
def EndsAt (h : HostPages) (m : L1Map) (a b v : Nat) : Prop :=
  v = h.upPage b ∧ Unshared h m a b (h.upPage b - 1) ∨ v = h.upPage b - 1 ∧ ¬ Unshared h m a b (h.upPage b - 1)

/-- Between the two are those that are not shared. -/
theorem BeginsAt.range {l v j : Nat} (hl : BeginsAt h m a b l) (hv : EndsAt h m a b v) (hu : h.page a + 1 < h.upPage b) :
    l ≤ j ∧ j < v ↔ h.page a ≤ j ∧ j < h.upPage b ∧ Unshared h m a b j := by
  rw [BeginsAt] at hl
  rw [EndsAt] at hv
  have hmid : h.page a < j → j + 1 < h.upPage b → Unshared h m a b j := unshared_middle
  generalize h.page a = f at *
  generalize h.upPage b = u at *
  by_cases hj : f < j ∧ j + 1 < u
  · have hsh := hmid hj.1 hj.2
    rcases hl with ⟨rfl, -⟩ | ⟨rfl, -⟩ <;> rcases hv with ⟨rfl, -⟩ | ⟨rfl, -⟩ <;> simp only [hsh, and_true] <;> omega
  by_cases hjf : j = f
  · subst hjf
    rcases hl with ⟨rfl, hsh⟩ | ⟨rfl, hsh⟩
    · simp only [hsh, and_true]
      omega
    · simp only [hsh, and_false, iff_false]
      omega
  by_cases hju : j = u - 1
  · subst hju
    rcases hv with ⟨rfl, hsh⟩ | ⟨rfl, hsh⟩
    · simp only [hsh, and_true]
      omega
    · simp only [hsh, and_false, iff_false]
      omega
  · omega

/-- The end of the range: the flags behind it say whether the last host page is shared. -/
theorem wholePages_end (hb : b + h.per ≤ 2 ^ 20) (hpos : 0 < h.upPage b) (ha : a ≤ h.per * (h.upPage b - 1)) :
    ∃ v, (if pageAddr b < h.addr (h.upPage b) then
      if Vm.orPageFlags m (pageAddr b) (h.addr (h.upPage b)) 0 ≠ 0 then h.addr (h.upPage b) - h.size else h.addr (h.upPage b)
      else h.addr (h.upPage b)) = h.addr v ∧ EndsAt h m a b v := by
  have hper := HostPages.per_pos (h := h)
  have hup' := HostPages.mul_upPage_lt (h := h) (b := b)
  have hiff := unshared_last (m := m) (show h.upPage b - 1 < h.upPage b by omega) ha
  rw [Nat.sub_add_cancel hpos] at hiff
  by_cases hbu : b < h.per * h.upPage b
  · have hzero : Vm.orPageFlags m (pageAddr b) (pageAddr (h.per * h.upPage b)) 0 = 0 ↔
        (0 : Word) = 0 ∧ ∀ k, b ≤ k → k < h.per * h.upPage b → m.flags k = 0 := orPageFlags_eq_zero (by omega) (by omega)
    rw [if_pos ((HostPages.pageAddr_lt_addr (by omega) (by omega)).mpr hbu), HostPages.addr_eq (h.upPage b)]
    by_cases hsh : Unshared h m a b (h.upPage b - 1)
    · rw [if_neg (not_not.mpr (hzero.mpr ⟨rfl, hiff.mpr hsh⟩)), ← HostPages.addr_eq]
      exact ⟨h.upPage b, rfl, Or.inl ⟨rfl, hsh⟩⟩
    · rw [if_pos fun hz => hsh (hiff.mp (hzero.mp hz).2), ← HostPages.addr_eq, HostPages.size_eq, HostPages.addr_sub (by omega)]
      exact ⟨h.upPage b - 1, rfl, Or.inr ⟨rfl, hsh⟩⟩
  · rw [if_neg ((HostPages.pageAddr_lt_addr (by omega) (by omega)).not.mpr hbu)]
    exact ⟨h.upPage b, rfl, Or.inl ⟨rfl, hiff.mp fun k h₁ h₂ => absurd h₂ (by omega)⟩⟩

/-- What is left of a range of one host page, in which it starts. -/
theorem wholePages_one {l : Nat} (hu : h.upPage b = h.page a + 1)
    (hl : l = h.page a ∧ Unshared h m a b (h.page a) ∨ l = h.upPage b ∧ ¬ Unshared h m a b (h.page a)) (j : Nat) :
    l ≤ j ∧ j < h.upPage b ↔ h.page a ≤ j ∧ j < h.upPage b ∧ Unshared h m a b j := by
  rw [hu] at hl ⊢
  generalize h.page a = f at *
  constructor
  · intro hj
    obtain rfl : j = f := by omega
    exact ⟨by omega, by omega, (hl.resolve_right fun hno => by omega).2⟩
  · intro hj
    obtain rfl : j = f := by omega
    have := (hl.resolve_right fun hno => hno.2 hj.2.2).1
    omega

/-- The host pages of a range, less the first or the last if they are shared. -/
theorem wholePages_spec (hab : a < b) (hb : b + h.per ≤ 2 ^ 20) :
    ∃ l v, Vm.wholePages h m (pageAddr a) (pageAddr b) = (h.addr l, h.addr v) ∧ h.page a ≤ l ∧ l ≤ v ∧ v ≤ h.upPage b ∧
      ∀ j, l ≤ j ∧ j < v ↔ h.page a ≤ j ∧ j < h.upPage b ∧ Unshared h m a b j := by
  have hper := HostPages.per_pos (h := h)
  have hle := HostPages.page_le (h := h) a
  have hlt := HostPages.lt_page (h := h) a
  have hup' := HostPages.mul_upPage_lt (h := h) (b := b)
  have hfu := HostPages.page_lt_upPage_of_lt (h := h) hab
  have hmul := Nat.mul_le_mul_left h.per (show h.page a + 1 ≤ h.upPage b from hfu)
  have hsucc : h.per * (h.page a + 1) = h.per * h.page a + h.per := Nat.mul_succ ..
  have hsingle : h.addr (h.upPage b) = h.addr (h.page a) + h.size ↔ h.upPage b = h.page a + 1 := by
    rw [HostPages.addr_succ, HostPages.addr_inj (by omega) (by omega)]
  have hlast : h.page a + 1 < h.upPage b → a ≤ h.per * (h.upPage b - 1) := fun hu => by
    have := Nat.mul_le_mul_left h.per (show h.page a + 1 ≤ h.upPage b - 1 by omega)
    omega
  -- several host pages
  have hmore : ∀ {l v}, BeginsAt h m a b l → EndsAt h m a b v → h.page a + 1 < h.upPage b →
      h.page a ≤ l ∧ l ≤ v ∧ v ≤ h.upPage b ∧ ∀ j, l ≤ j ∧ j < v ↔ h.page a ≤ j ∧ j < h.upPage b ∧ Unshared h m a b j :=
    fun {l v} hl hv hu => by
      have h₁ := hl.imp And.left And.left
      have h₂ := hv.imp And.left And.left
      exact ⟨by omega, by omega, by omega, fun j => hl.range hv hu⟩
  unfold Vm.wholePages
  rw [HostPages.and_mask (by omega), HostPages.align_pageAddr hb]
  dsimp only
  by_cases hal : h.per * h.page a < a
  · rw [if_pos ((HostPages.addr_lt_pageAddr (by omega) (by omega)).mpr hal)]
    by_cases hs : h.upPage b = h.page a + 1
    · -- one single host page
      have hbits : Vm.orPageFlags m (pageAddr b) (h.addr (h.upPage b)) (Vm.orPageFlags m (h.addr (h.page a)) (pageAddr a) 0) ≠ 0 ↔
          ¬ Unshared h m a b (h.page a) := by
        rw [HostPages.addr_eq, HostPages.addr_eq, Ne, orPageFlags_eq_zero (by omega) (by omega),
          orPageFlags_eq_zero (by omega) (by omega), ← unshared_only hab hs, hs]
        exact not_congr (and_congr_left' (and_iff_right rfl))
      rw [if_pos (hsingle.mpr hs), if_pos (hsingle.mpr hs), if_neg (BitVec.lt_irrefl _)]
      by_cases hsh : Unshared h m a b (h.page a)
      · rw [if_neg (hbits.not.mpr (not_not.mpr hsh))]
        exact ⟨h.page a, h.upPage b, rfl, Nat.le_refl _, by omega, Nat.le_refl _, wholePages_one hs (Or.inl ⟨rfl, hsh⟩)⟩
      · rw [if_pos (hbits.mpr hsh), ← hsingle.mpr hs]
        exact ⟨h.upPage b, h.upPage b, rfl, by omega, Nat.le_refl _, Nat.le_refl _, wholePages_one hs (Or.inr ⟨rfl, hsh⟩)⟩
    · have hbits : Vm.orPageFlags m (h.addr (h.page a)) (pageAddr a) 0 ≠ 0 ↔ ¬ Unshared h m a b (h.page a) := by
        rw [HostPages.addr_eq, Ne, orPageFlags_eq_zero (by omega) (by omega), ← unshared_first (by omega)]
        exact not_congr (and_iff_right rfl)
      obtain ⟨v, hv, hends⟩ := wholePages_end (m := m) (a := a) hb (by omega) (hlast (by omega))
      rw [if_neg (hsingle.not.mpr hs), if_neg (hsingle.not.mpr hs), hv]
      by_cases hsh : Unshared h m a b (h.page a)
      · rw [if_neg (hbits.not.mpr (not_not.mpr hsh))]
        exact ⟨h.page a, v, rfl, hmore (Or.inl ⟨rfl, hsh⟩) hends (by omega)⟩
      · rw [if_pos (hbits.mpr hsh), HostPages.addr_succ]
        exact ⟨h.page a + 1, v, rfl, hmore (Or.inr ⟨rfl, hsh⟩) hends (by omega)⟩
  · rw [if_neg ((HostPages.addr_lt_pageAddr (h := h) (by omega) (by omega)).not.mpr hal)]
    dsimp only
    by_cases hs : h.upPage b = h.page a + 1
    · have hpred : h.upPage b - 1 = h.page a := by omega
      obtain ⟨v, hv, hends⟩ := wholePages_end (m := m) (a := a) hb (by omega) (by rw [hpred]; omega)
      rw [EndsAt, hpred] at hends
      rw [hv]
      rcases hends with ⟨rfl, hsh⟩ | ⟨rfl, hsh⟩
      · exact ⟨h.page a, h.upPage b, rfl, Nat.le_refl _, by omega, Nat.le_refl _, wholePages_one hs (Or.inl ⟨rfl, hsh⟩)⟩
      · refine ⟨h.page a, h.page a, rfl, Nat.le_refl _, Nat.le_refl _, by omega, fun j => ⟨fun hj => by omega, fun hj => ?_⟩⟩
        obtain rfl : j = h.page a := by omega
        exact absurd hj.2.2 hsh
    · obtain ⟨v, hv, hends⟩ := wholePages_end (m := m) (a := a) hb (by omega) (hlast (by omega))
      have hsh : Unshared h m a b (h.page a) := (unshared_first (by omega)).mp fun k h₁ h₂ => absurd h₂ (by omega)
      rw [hv]
      exact ⟨h.page a, v, rfl, hmore (Or.inl ⟨rfl, hsh⟩) hends (by omega)⟩

/-- The pages from `a` on, `n` of them, are not in use any more. The host pages they do not share are unmapped, or reserved if
the guest's space is; the others are as they were. -/
structure Unmapped (h : HostPages) (c : Settings) (a n : Nat) (s s' : Vm) : Prop where
  flags : ∀ k < 2 ^ 20, s'.pages.flags k = if a ≤ k ∧ k < a + n then 0 else s.pages.flags k
  gone : ∀ j, h.page a ≤ j → j < h.upPage (a + n) → Unshared h s.pages a (a + n) j →
    if c.reservedVa = 0 then s'.host j = none else s'.host j = some PROT_NONE ∨ s'.host j = s.host j
  kept : ∀ j, ¬ (h.page a ≤ j ∧ j < h.upPage (a + n) ∧ Unshared h s.pages a (a + n) j) → s'.host j = s.host j

theorem Unmapped.covered (hu : Unmapped h c a n s s') (hc : Covered h s) : Covered h s' := by
  intro k hk hne
  rw [hu.flags k hk] at hne ⊢
  by_cases hin : a ≤ k ∧ k < a + n
  · rw [if_pos hin] at hne
    exact absurd rfl hne
  · rw [if_neg hin] at hne ⊢
    rw [hu.kept (h.page k) fun hsh => hne (hsh.2.2 k rfl (by omega))]
    exact hc k hk hne

/-- A range of whole host pages is reserved, unless the host refuses. -/
theorem mmapReserve_spec (hK : K.Lawful h) {l v : Nat} (hlv : l < v) (hv : h.per * v + h.per ≤ 2 ^ 20) :
    OnlyHost s (s.mmapReserve h K (h.addr l) (h.addr v - h.addr l)) ∧
      ((∀ j, (s.mmapReserve h K (h.addr l) (h.addr v - h.addr l)).host j = if l ≤ j ∧ j < v then some PROT_NONE else s.host j) ∨
        (s.mmapReserve h K (h.addr l) (h.addr v - h.addr l)).host = s.host) := by
  have hper := HostPages.per_pos (h := h)
  have hmul := Nat.mul_le_mul_left h.per (Nat.le_of_lt hlv)
  have hlt : h.per * l < h.per * v := Nat.mul_lt_mul_of_pos_left hlv hper
  have hsum : h.addr l + (h.addr v - h.addr l) = h.addr v := by
    rw [HostPages.addr_sub (Nat.le_of_lt hlv), HostPages.addr_add, Nat.add_sub_cancel' (Nat.le_of_lt hlv)]
  have hpage : h.page (h.per * l) = l := Nat.mul_div_cancel_left l hper
  obtain ⟨l', v', hwhole, hl', hlv', hv', hrange⟩ := wholePages_spec (m := s.pages) (h := h) (a := h.per * l) (b := h.per * v) hlt hv
  rw [hpage, HostPages.upPage_mul] at hrange
  rw [hpage] at hl'
  rw [HostPages.upPage_mul] at hv'
  -- no page is outside the range and in one of its host pages
  have hall : ∀ j, l ≤ j → j < v → Unshared h s.pages (h.per * l) (h.per * v) j := fun j h₁ h₂ k hk ho => by
    have hin := HostPages.mem_page.mp hk
    have h₃ := Nat.mul_le_mul_left h.per h₁
    have h₄ := Nat.mul_le_mul_left h.per (show j + 1 ≤ v from h₂)
    omega
  obtain rfl : l' = l := by
    have := (hrange l).mpr ⟨Nat.le_refl _, hlv, hall l (Nat.le_refl _) hlv⟩
    omega
  obtain rfl : v' = v := by
    have := (hrange (v - 1)).mpr ⟨by omega, by omega, hall _ (by omega) (by omega)⟩
    omega
  rw [← HostPages.addr_eq, ← HostPages.addr_eq] at hwhole
  have hne : h.addr l' ≠ h.addr v' := fun he => by
    rw [HostPages.addr_inj (by omega) (by omega)] at he
    omega
  unfold Vm.mmapReserve
  rw [hsum, hwhole]
  dsimp only
  rw [if_pos hne, HostPages.addr_sub (Nat.le_of_lt hlv)]
  refine ⟨⟨rfl, rfl⟩, ?_⟩
  cases hmap : K.mmap s.host ⟨h.addr l', h.addr (v' - l'), PROT_NONE,
      MAP_FIXED ||| MAP_ANONYMOUS ||| MAP_PRIVATE ||| MAP_NORESERVE, -1, 0⟩ with
  | mk p host =>
    cases p with
    | none => exact Or.inr (hK.failed _ _ _ hmap)
    | some p =>
      obtain ⟨-, hset⟩ := hK.fixed _ _ _ _ (show (MAP_FIXED ||| MAP_ANONYMOUS ||| MAP_PRIVATE ||| MAP_NORESERVE) &&& MAP_FIXED ≠ 0
        by decide) hmap
      have hback : l' + (v' - l') = v' := by omega
      have hdiff : h.per * v' = h.per * l' + h.per * (v' - l') := by rw [← Nat.mul_add, hback]
      refine Or.inl fun j => ?_
      show host j = _
      rw [hset, HostMap.set]
      refine if_congr ((overlaps_addr (by rw [hback]; omega) (by omega) (by omega)).trans ?_) rfl rfl
      rw [hback]

/-- `munmap` of `n` pages: it fails and changes nothing, or they are not in use any more. -/
theorem targetMunmap_spec (hK : K.Lawful h) (hm : NoBlocks s.pages) {len : Word} (hlen : TARGET_PAGE_ALIGN len = pageAddr n) (hn : 0 < n)
    (hfit : a + n + h.per ≤ 2 ^ 20) : ∃ ret s', s.targetMunmap h c K (pageAddr a) len = .ok (ret, s') ∧ NoBlocks s'.pages ∧
      s'.mmapNextStart = s.mmapNextStart ∧ (ret ≠ 0 ∧ s'.pages = s.pages ∧ s'.host = s.host ∨ ret = 0 ∧ Unmapped h c a n s s') := by
  have hper := HostPages.per_pos (h := h)
  have hup := HostPages.mul_upPage_lt (h := h) (b := a + n)
  have hzero : pageAddr n ≠ 0 := fun he => by
    have := (pageAddr_inj (k := n) (l := 0) (by omega) (by decide)).mp he
    omega
  obtain ⟨l, v, hwhole, hl, hlv, hv, hrange⟩ := wholePages_spec (m := s.pages) (h := h) (show a < a + n by omega) hfit
  have hmul := Nat.mul_le_mul_left h.per hv
  have hmul' := Nat.mul_le_mul_left h.per hlv
  have hal : pageAddr a &&& ~~~TARGET_PAGE_MASK = 0 := by
    rw [and_not_pageMask_eq_zero, toNat_pageAddr (by omega)]
    omega
  -- the flags, once the host pages are done
  have hend : ∀ {t : Vm}, OnlyHost s t → (∀ j, l ≤ j → j < v →
      if c.reservedVa = 0 then t.host j = none else t.host j = some PROT_NONE ∨ t.host j = s.host j) →
      (∀ j, ¬ (l ≤ j ∧ j < v) → t.host j = s.host j) → ∃ s', t.pageSetFlags (pageAddr a) (pageAddr (a + n)) 0 = .ok s' ∧
        NoBlocks s'.pages ∧ s'.mmapNextStart = s.mmapNextStart ∧ Unmapped h c a n s s' := fun {t} honly hgone hkept => by
    obtain ⟨s', hset, hm', hhost, hnext, hflags⟩ := setFlags_spec (s := t) (f := 0) (honly.pages ▸ hm)
      (show a < a + n by omega) (by omega)
    refine ⟨s', hset, hm', hnext.trans honly.next, fun k hk => ?_, fun j h₁ h₂ h₃ => ?_, fun j hj => ?_⟩
    · rw [hflags k hk, honly.pages]
      rfl
    · have hin := (hrange j).mpr ⟨h₁, h₂, h₃⟩
      rw [hhost]
      exact hgone j hin.1 hin.2
    · rw [hhost]
      exact hkept j fun hin => hj ((hrange j).mp hin)
  unfold Vm.targetMunmap
  rw [hlen]
  dsimp only
  rw [if_neg (not_not.mpr hal), if_neg hzero, pageAddr_add, hwhole]
  dsimp only
  by_cases hlt : l < v
  · have hpos : h.addr l < h.addr v := (HostPages.addr_lt (by omega) (by omega)).mpr hlt
    have hback : l + (v - l) = v := by omega
    have hdiff : h.per * v = h.per * l + h.per * (v - l) := by rw [← Nat.mul_add, hback]
    rw [if_pos hpos]
    by_cases hres : c.reservedVa = 0
    · rw [if_neg (not_not.mpr hres), HostPages.addr_sub hlv]
      rcases hK.munmap s.host _ (h.addr l) (h.addr (v - l)) _ rfl with ⟨hret, hset⟩ | ⟨hret, hsame⟩
      · have hhost : ∀ j, (K.munmap s.host (h.addr l) (h.addr (v - l))).2 j = if l ≤ j ∧ j < v then none else s.host j := fun j => by
          rw [hset, HostMap.set]
          refine if_congr ((overlaps_addr (by rw [hback]; omega) (by omega) (by omega)).trans ?_) rfl rfl
          rw [hback]
        obtain ⟨s', hs', hm', hnext, hun⟩ := hend (t := { s with host := (K.munmap s.host (h.addr l) (h.addr (v - l))).2 }) ⟨rfl, rfl⟩
          (fun j h₁ h₂ => by rw [if_pos hres]; exact (hhost j).trans (if_pos ⟨h₁, h₂⟩)) (fun j hj => (hhost j).trans (if_neg hj))
        refine ⟨0, s', ?_, hm', hnext, Or.inr ⟨rfl, hun⟩⟩
        dsimp only
        rw [if_pos hret]
        exact congrArg (fun x => x >>= fun s => pure (0, s)) hs'
      · dsimp only
        rw [if_neg hret]
        exact ⟨_, _, rfl, hm, rfl, Or.inl ⟨hret, rfl, hsame⟩⟩
    · rw [if_pos hres]
      have hfits := HostPages.mul_add_le (h := h) (i := v) (by omega)
      obtain ⟨honly, hor⟩ := mmapReserve_spec (s := s) hK hlt hfits
      obtain ⟨s', hs', hm', hnext, hun⟩ := hend honly
        (fun j h₁ h₂ => by
          rw [if_neg hres]
          rcases hor with hhost | hsame
          · exact Or.inl ((hhost j).trans (if_pos ⟨h₁, h₂⟩))
          · exact Or.inr (congrFun hsame j))
        (fun j hj => by
          rcases hor with hhost | hsame
          · exact (hhost j).trans (if_neg hj)
          · exact congrFun hsame j)
      refine ⟨0, s', ?_, hm', hnext, Or.inr ⟨rfl, hun⟩⟩
      dsimp only
      rw [if_pos rfl, hs']
      rfl
  · rw [if_neg fun hpos => hlt ((HostPages.addr_lt (by omega) (by omega)).mp hpos)]
    dsimp only
    obtain ⟨s', hs', hm', hnext, hun⟩ := hend (.refl s) (fun j h₁ h₂ => absurd hlt (by omega)) (fun j _ => rfl)
    refine ⟨0, s', ?_, hm', hnext, Or.inr ⟨rfl, hun⟩⟩
    rw [if_pos rfl, hs']
    rfl

/-- `munmap` always returns. It fails and changes nothing; or its pages are not in use any more, no other page's flags change, and just the
host pages are unmapped that no page in use outside the range shares. -/
theorem targetMunmap_unshared (h : HostPages) (c : Settings) (K : Kernel) (s : Vm) (start len : Word) (hK : K.Lawful h)
    (hm : NoBlocks s.pages) (hal : start &&& ~~~TARGET_PAGE_MASK = 0) (hlen : TARGET_PAGE_ALIGN len ≠ 0)
    (hfit : start.toNat + (TARGET_PAGE_ALIGN len).toNat + 2 ^ h.bits ≤ 2 ^ 32) :
    ∃ ret s', s.targetMunmap h c K start len = .ok (ret, s') ∧ (ret ≠ 0 ∧ s'.pages = s.pages ∧ s'.host = s.host ∨
      ret = 0 ∧ Unmapped h c (pageIndex start) (pageIndex (TARGET_PAGE_ALIGN len)) s s') := by
  obtain ⟨a, n, rfl, hn, hpos, hfit', ha, hn'⟩ := range_pages hal hlen hfit
  rw [← ha, ← hn']
  obtain ⟨ret, s', hs, -, -, hor⟩ := targetMunmap_spec (c := c) hK hm hn hpos hfit'
  exact ⟨ret, s', hs, hor⟩

/-- One page of a host page: the host page stays for the other. -/
theorem targetMunmap_unshared_sample : ∃ m s', pageSetFlags noPages 0x40000000 0x40002000 (PAGE_READ ||| PAGE_VALID) = .ok m ∧
    (oneHostPage m PROT_READ).targetMunmap doublePages ⟨0, 0x10000⟩ (obliging doublePages) 0x40000000 0x1000 = .ok (0, s') ∧ s'.host 0x20000 = some PROT_READ ∧ s'.pages.flags 0x40000 = 0 := by
  obtain ⟨m, hm, hclean, hflags⟩ := pageSetFlags_spec (m := noPages) (fun k _ => by rw [page_noPages])
    (show (0x40000000 : Word) < 0x40002000 by decide) (PAGE_READ ||| PAGE_VALID)
  obtain ⟨m', s₁, hm', hs₁⟩ : ∃ m s', pageSetFlags noPages 0x40000000 0x40002000 (PAGE_READ ||| PAGE_VALID) = .ok m ∧
    (oneHostPage m PROT_READ).targetMunmap doublePages ⟨0, 0x10000⟩ (obliging doublePages) 0x40000000 0x1000 = .ok (0, s') := ⟨_, _, rfl, rfl⟩
  obtain rfl : m = m' := Except.ok.inj (hm.symm.trans hm')
  obtain ⟨ret, s', hs, hor⟩ := targetMunmap_unshared doublePages ⟨0, 0x10000⟩ (obliging doublePages) (oneHostPage m PROT_READ)
    0x40000000 0x1000 (obliging_lawful _) hclean (by decide) (by decide) (by decide)
  obtain ⟨rfl, rfl⟩ := Prod.mk.inj (Except.ok.inj (hs.symm.trans hs₁))
  have hun := (hor.resolve_left fun hno => hno.1 rfl).2
  refine ⟨m, s', hm, hs, ?_, (hun.flags 0x40000 (by decide)).trans (if_pos (by decide))⟩
  rw [hun.kept 0x20000 fun hno => ?_]
  · rfl
  · -- the other page is in use
    have hother := hno.2.2 0x40001 (by decide) (by decide)
    have hflag := (hflags 0x40001 (by decide)).trans (if_pos (by decide))
    exact absurd (hflag.symm.trans hother) (by decide)

end Unitrans
