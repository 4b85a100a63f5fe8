/-
A mapping at a fixed address (`target_mmap` with `MAP_FIXED`). The host pages that are partly in the mapping are shared with
what was there before.
-/
import Unitrans.HostProt

namespace Unitrans

open X86 Except

variable {h : HostPages} {m : L1Map} {a b i k n : Nat} {prot : Word} {s t s' : Vm} {T D E : Set Nat} {K : Kernel}

/-! ## Part of a host page -/

/-- One host page has the protection; nothing else changes. -/
structure PageIs (j : Nat) (p : Word) (s s' : Vm) : Prop where
  only : OnlyHost s s'
  host : ∀ i, s'.host i = if i = j then some p else s.host i

theorem PageIs.refl {j : Nat} {p : Word} (hp : s.host j = some p) : PageIs j p s s := by
  refine ⟨.refl s, fun i => ?_⟩
  split
  · rename_i hi
    rw [hi, hp]
  · rfl

theorem PageIs.trans {j : Nat} {p q : Word} (h₁ : PageIs j p s t) (h₂ : PageIs j q t s') : PageIs j q s s' := by
  refine ⟨h₁.only.trans h₂.only, fun i => ?_⟩
  rw [h₂.host]
  split
  · rfl
  · rename_i hi
    rw [h₁.host, if_neg hi]

theorem PageIs.mapped {j : Nat} {p : Word} (hp : PageIs j p s t) : t.host j = some p := by rw [hp.host, if_pos rfl]

/-- A page that is mapped is given the protection, though nobody looks whether it is. -/
theorem ignoreMprotect_spec (hK : K.Lawful h) (hG : K.Granting h) {j : Nat} {p q : Word} (hj : h.per * (j + 1) ≤ 2 ^ 20) (hp : s.host j = some p) :
    PageIs j q s (s.ignoreMprotect K (h.addr j) h.size q) := by
  have hper := HostPages.per_lt (h := h)
  have hgrant := hG s.host (h.addr j) h.size q fun i hi => by
    rw [overlaps_page hj hper] at hi
    rw [hi, hp]
    exact Option.some_ne_none p
  obtain ⟨t, ht⟩ : ∃ t, t = s.ignoreMprotect K (h.addr j) h.size q := ⟨_, rfl⟩
  have hcall : s.callMprotect K (h.addr j) (h.addr 1) q = (0, t) := by
    rw [ht, ← HostPages.size_eq]
    exact Prod.ext hgrant rfl
  obtain ⟨honly, hhost⟩ := callMprotect_spec hK hj (by decide) (by omega) hcall
  rw [← ht]
  exact ⟨honly, fun i => (hhost i).trans (if_congr (by omega) rfl rfl)⟩

theorem getLsbD_write {i : Nat} : PROT_WRITE.getLsbD i = true ↔ i = 1 := by
  show (2#32).getLsbD i = true ↔ _
  rw [BitVec.getLsbD_ofNat, show (2 : Nat) = 2 ^ 1 from rfl, Nat.testBit_two_pow, Bool.and_eq_true, decide_eq_true_iff, decide_eq_true_iff]
  omega

theorem getLsbD_of_write {p : Word} (hw : p &&& PROT_WRITE ≠ 0) : p.getLsbD 1 = true := by
  by_contra hno
  refine hw (eq_zero_iff_getLsbD.mpr fun i hi => hno ?_)
  rw [BitVec.getLsbD_and, Bool.and_eq_true, getLsbD_write] at hi
  exact hi.2 ▸ hi.1

theorem permits_write {p : Word} (hp : p.getLsbD 1 = true) : Permits p PROT_WRITE := fun i _ hi => by
  rwa [getLsbD_write.mp hi]

variable {x y prot1 flags fd offset ret : Word}

/-- The end of `mmap_frag`: the page has the protection of both, of the mapping and of what was there. -/
theorem fragProtect_spec (hK : K.Lawful h) (hG : K.Granting h) {j : Nat} {p : Word} (hj : h.per * (j + 1) ≤ 2 ^ 20) (hp : s.host j = some p)
    (hperm : Permits p prot1) (hs : Vm.fragProtect h K s (h.addr j) x y prot flags fd offset prot1 = (ret, t)) (hret : ret ≠ -1) :
    ∃ q, PageIs j q s t ∧ Permits q (prot ||| prot1) ∧ (Permits (prot ||| prot1) p → Permits (prot ||| prot1) q) := by
  unfold Vm.fragProtect at hs
  dsimp only at hs
  by_cases hanon : flags &&& MAP_ANONYMOUS = 0
  · rw [if_pos hanon] at hs
    by_cases hshared : flags &&& MAP_TYPE = MAP_SHARED ∧ prot &&& PROT_WRITE ≠ 0
    · rw [if_pos hshared] at hs
      exact absurd (Prod.mk.inj hs).1.symm hret
    rw [if_neg hshared] at hs
    -- the page can be written to
    obtain ⟨w, hw, q, hq, hqperm, hqp⟩ : ∃ w, w = (if prot1 &&& PROT_WRITE = 0 then
        s.ignoreMprotect K (h.addr j) h.size (prot1 ||| PROT_WRITE) else s) ∧
        ∃ q, PageIs j q s w ∧ Permits q (prot1 ||| PROT_WRITE) ∧ (q = p ∨ q = prot1 ||| PROT_WRITE) := by
      refine ⟨_, rfl, ?_⟩
      by_cases hwr : prot1 &&& PROT_WRITE = 0
      · rw [if_pos hwr]
        exact ⟨_, ignoreMprotect_spec hK hG hj hp, .refl _, Or.inr rfl⟩
      · rw [if_neg hwr]
        exact ⟨p, .refl hp, hperm.or (permits_write (hperm 1 (by decide) (getLsbD_of_write hwr))), Or.inl rfl⟩
    rw [← hw] at hs
    by_cases hread : K.pread fd x (y - x) offset = true
    swap
    · rw [if_neg hread] at hs
      exact absurd (Prod.mk.inj hs).1.symm hret
    rw [if_pos hread] at hs
    obtain ⟨-, rfl⟩ := Prod.mk.inj hs
    by_cases hnew : prot ||| prot1 ≠ prot1 ||| PROT_WRITE
    · rw [if_pos hnew]
      exact ⟨_, hq.trans (ignoreMprotect_spec hK hG hj hq.mapped), .refl _, fun _ => .refl _⟩
    · rw [if_neg hnew]
      refine ⟨q, hq, by rw [not_not.mp hnew]; exact hqperm, fun hle => ?_⟩
      rcases hqp with rfl | rfl
      · exact hle
      · rw [not_not.mp hnew]
        exact .refl _
  · rw [if_neg hanon] at hs
    obtain ⟨-, rfl⟩ := Prod.mk.inj hs
    by_cases hnew : prot ||| prot1 ≠ prot1
    · rw [if_pos hnew]
      exact ⟨_, ignoreMprotect_spec hK hG hj hp, .refl _, fun _ => .refl _⟩
    · rw [if_neg hnew]
      exact ⟨p, .refl hp, by rw [not_not.mp hnew]; exact hperm, fun hle => hle⟩

theorem fixed_of_anonymous {flags : Word} (hf : flags &&& MAP_FIXED ≠ 0) : (flags ||| MAP_ANONYMOUS) &&& MAP_FIXED ≠ 0 := by
  intro he
  refine hf ?_
  have hsplit : (flags ||| MAP_ANONYMOUS) &&& MAP_FIXED = (flags &&& MAP_FIXED) ||| (MAP_ANONYMOUS &&& MAP_FIXED) := by
    apply BitVec.eq_of_getLsbD_eq
    intro i _
    rw [BitVec.getLsbD_and, BitVec.getLsbD_or, BitVec.getLsbD_or, BitVec.getLsbD_and, BitVec.getLsbD_and, Bool.and_or_distrib_right]
  rw [hsplit, show MAP_ANONYMOUS &&& MAP_FIXED = 0 from rfl] at he
  simpa using he

/-- `mmap_frag`: the host page has the protection of the mapping and of its pages that are not in `[x, y)`. -/
theorem mmapFrag_given (hK : K.Lawful h) (hG : K.Granting h) (hfix : flags &&& MAP_FIXED ≠ 0) {j x y : Nat} (hj : h.per * (j + 1) < 2 ^ 20)
    (hx : x < 2 ^ 20) (hy : y < 2 ^ 20)
    (hc : ∀ k, h.page k = j → k < x ∨ y ≤ k → s.pages.flags k ≠ 0 → ∃ p, s.host j = some p ∧ Permits p (s.pages.flags k))
    (hT : ∀ k, h.page k = j → k < a ∨ b ≤ k → k ∉ T → k < x ∨ y ≤ k)
    (hs : s.mmapFrag h K (h.addr j) (pageAddr x) (pageAddr y) prot flags fd offset = (ret, t)) (hret : ret ≠ -1) :
    Given h a b prot T (Set.Ico j (j + 1)) s t := by
  have hper := HostPages.per_lt (h := h)
  unfold Vm.mmapFrag at hs
  dsimp only at hs
  obtain ⟨prot1, hprot1⟩ : ∃ w, w = Vm.fragFlags s.pages (h.addr j + h.size) (pageAddr x) (pageAddr y) h.size.toNat (h.addr j) 0 :=
    ⟨_, rfl⟩
  have hbits : ∀ i, prot1.getLsbD i = true ↔ ∃ k, h.page k = j ∧ (k < x ∨ y ≤ k) ∧ (s.pages.flags k).getLsbD i = true := fun i => by
    rw [hprot1]
    exact getLsbD_fragFlags hj hx hy
  rw [← hprot1] at hs
  -- what the page gets, and what that says about its pages
  have hgiven : ∀ {w : Vm} {q : Word}, OnlyHost s w → (∀ i, i ≠ j → w.host i = s.host i) → PageIs j q w t → Permits q prot →
      Permits q prot1 → Given h a b prot T (Set.Ico j (j + 1)) s t := fun {w q} honly hhost hq hqp hq1 => by
    refine ⟨honly.trans hq.only, fun i hi => ?_, fun i hi => ?_⟩
    · have hi : ¬ (j ≤ i ∧ i < j + 1) := hi
      rw [hq.host, if_neg (by omega), hhost i (by omega)]
    · have hi : j ≤ i ∧ i < j + 1 := hi
      obtain rfl : i = j := by omega
      exact ⟨q, hq.mapped, hqp, fun k _ hk ho hkT i hi hbit => hq1 i hi ((hbits i).mpr ⟨k, hk, hT k hk ho hkT, hbit⟩)⟩
  by_cases hzero : prot1 = 0
  · rw [if_pos hzero] at hs
    cases hmap : K.mmap s.host ⟨h.addr j, h.size, prot, flags ||| MAP_ANONYMOUS, -1, 0⟩ with
    | mk p host =>
      rw [hmap] at hs
      cases p with
      | none =>
        obtain ⟨rfl, -⟩ := Prod.mk.inj hs
        exact absurd rfl hret
      | some p =>
        obtain ⟨-, hset⟩ := hK.fixed _ _ _ _ (fixed_of_anonymous hfix) hmap
        have hhost : ∀ i, host i = if i = j then some prot else s.host i := fun i => by
          rw [hset, HostMap.set]
          exact if_congr (overlaps_page (by omega) hper) rfl rfl
        obtain ⟨q, hq, hqperm, -⟩ := fragProtect_spec hK hG (s := { s with host := host }) (by omega) ((hhost j).trans (if_pos rfl))
          (fun i _ hi => (Bool.and_eq_true_iff.mp (BitVec.getLsbD_and .. ▸ hi)).1) hs hret
        refine hgiven (w := { s with host := host }) ⟨rfl, rfl⟩ (fun i hi => (hhost i).trans (if_neg hi)) hq
          (hqperm.trans (permits_or_left _ _)) fun i _ hi => ?_
        rw [hzero] at hi
        exact absurd hi (by simp)
  · rw [if_neg hzero] at hs
    obtain ⟨i₀, hi₀⟩ : ∃ i, prot1.getLsbD i = true := by
      by_contra hno
      exact hzero (eq_zero_iff_getLsbD.mpr (not_exists.mp hno))
    have hflag : ∀ k i, (s.pages.flags k).getLsbD i = true → s.pages.flags k ≠ 0 := fun k i hi he => by
      rw [he] at hi
      exact absurd hi (by simp)
    obtain ⟨k₀, hk₀, ho₀, hbit₀⟩ := (hbits i₀).mp hi₀
    obtain ⟨p, hp, -⟩ := hc k₀ hk₀ ho₀ (hflag k₀ i₀ hbit₀)
    have hall : Permits p prot1 := fun i hi hbit => by
      obtain ⟨k, hk, ho, hkbit⟩ := (hbits i).mp hbit
      obtain ⟨p', hp', hperm⟩ := hc k hk ho (hflag k i hkbit)
      rw [hp, Option.some.injEq] at hp'
      rw [hp']
      exact hperm i hi hkbit
    obtain ⟨q, hq, hqperm, -⟩ := fragProtect_spec hK hG (by omega) hp
      (fun i hi hbit => hall i hi (Bool.and_eq_true_iff.mp (BitVec.getLsbD_and .. ▸ hbit)).1) hs hret
    refine hgiven (.refl s) (fun _ _ => rfl) hq (hqperm.trans (permits_or_left _ _)) ?_
    exact fun i hi hbit => hqperm i hi (permits_or_right _ _ i hi (permits_and (.refl _) i hi hbit))

/-- Where all of a host page is taken to be in the mapping, no page is there. -/
theorem fragFlags_whole {j : Nat} (hj : h.per * (j + 1) < 2 ^ 20) :
    Vm.fragFlags m (h.addr j + h.size) (h.addr j) (h.addr (j + 1)) h.size.toNat (h.addr j) 0 = 0 := by
  have hmul : h.per * (j + 1) = h.per * j + h.per := Nat.mul_succ _ _
  rw [eq_zero_iff_getLsbD]
  intro i hi
  rw [HostPages.addr_eq (j + 1), show Vm.fragFlags m (h.addr j + h.size) (h.addr j) = Vm.fragFlags m (h.addr j + h.size)
    (pageAddr (h.per * j)) from by rw [← HostPages.addr_eq], getLsbD_fragFlags hj (by omega) hj] at hi
  obtain ⟨k, hk, ho, -⟩ := hi
  have hin := HostPages.mem_page.mp hk
  omega

/-- A host page all of which is taken to be in the mapping has the protection of the mapping, whatever was there. -/
theorem mmapFrag_whole (hK : K.Lawful h) (hG : K.Granting h) (hfix : flags &&& MAP_FIXED ≠ 0) {j : Nat} (hj : h.per * (j + 1) < 2 ^ 20)
    (hs : s.mmapFrag h K (h.addr j) (h.addr j) (h.addr (j + 1)) prot flags fd offset = (ret, t)) (hret : ret ≠ -1) :
    OnlyHost s t ∧ (∀ i, i ≠ j → t.host i = s.host i) ∧ ∃ q, t.host j = some q ∧ Permits q prot ∧ Permits prot q := by
  have hper := HostPages.per_lt (h := h)
  unfold Vm.mmapFrag at hs
  dsimp only at hs
  rw [fragFlags_whole hj, if_pos rfl] at hs
  cases hmap : K.mmap s.host ⟨h.addr j, h.size, prot, flags ||| MAP_ANONYMOUS, -1, 0⟩ with
  | mk p host =>
    rw [hmap] at hs
    cases p with
    | none =>
      obtain ⟨rfl, -⟩ := Prod.mk.inj hs
      exact absurd rfl hret
    | some p =>
      obtain ⟨-, hset⟩ := hK.fixed _ _ _ _ (fixed_of_anonymous hfix) hmap
      have hhost : ∀ i, host i = if i = j then some prot else s.host i := fun i => by
        rw [hset, HostMap.set]
        exact if_congr (overlaps_page (by omega) hper) rfl rfl
      have hand : Permits prot (prot &&& PAGE_BITS) := fun i _ hi => (Bool.and_eq_true_iff.mp (BitVec.getLsbD_and .. ▸ hi)).1
      obtain ⟨q, hq, hqperm, hle⟩ := fragProtect_spec hK hG (s := { s with host := host }) (by omega) ((hhost j).trans (if_pos rfl)) hand hs hret
      refine ⟨.trans (t := { s with host := host }) ⟨rfl, rfl⟩ hq.only, fun i hi => ?_, q, hq.mapped, hqperm.trans (permits_or_left _ _), ?_⟩
      · rw [hq.host, if_neg hi]
        exact (hhost i).trans (if_neg hi)
      · exact (Permits.or (.refl _) hand).trans (hle (permits_or_left _ _))

/-! ## The mapping -/

/-- The pages behind the end of a mapping, in the host page it ends in, which are taken to be in it. Those in the host page the
mapping starts within are not. -/
def tailPages (h : HostPages) (a b : Nat) : Set Nat :=
  {k | b ≤ k ∧ k < h.per * h.upPage b ∧ ¬ (h.per * h.page a < a ∧ h.upPage b = h.page a + 1)}

variable {q : Vm.Request}

theorem mmapStart_spec (hK : K.Lawful h) (hG : K.Granting h) (hfix : q.flags &&& MAP_FIXED ≠ 0) (hstart : q.start = pageAddr a) {u : Nat} (hab : a < b)
    (hb : b + h.per ≤ 2 ^ 20) (hu : u = h.upPage b) (hc : Covered h s) {single : Bool} {r : Word}
    (hs : s.mmapStart h K q (pageAddr b) (h.addr (h.page a)) (h.addr u) = (single, some r, t)) :
    single = true ∧ (h.per * h.page a < a ∧ u = h.page a + 1) ∧ Given h a b q.prot T (Set.Ico (h.page a) u) s t ∨
    single = false ∧ ¬ (h.per * h.page a < a ∧ u = h.page a + 1) ∧ ∃ l, r = h.addr l ∧ h.page a ≤ l ∧ l < u ∧ a ≤ h.per * l ∧
      Given h a b q.prot T (Set.Ico (h.page a) l) s t := by
  have hper := HostPages.per_lt (h := h)
  have hle := HostPages.page_le (h := h) a
  have hlt := HostPages.lt_page (h := h) a
  have hup := HostPages.le_upPage (h := h) b
  have hup' := HostPages.mul_upPage_lt (h := h) (b := b)
  rw [← hu] at hup hup'
  have hsucc : h.per * (h.page a + 1) = h.per * h.page a + h.per := Nat.mul_succ ..
  have hpage : h.page a < u := Nat.lt_of_mul_lt_mul_left (show h.per * h.page a < h.per * u by omega)
  have hmul := Nat.mul_le_mul_left h.per (show h.page a + 1 ≤ u from hpage)
  have hcov : ∀ k, h.page k = h.page a → s.pages.flags k ≠ 0 → ∃ p, s.host (h.page a) = some p ∧ Permits p (s.pages.flags k) :=
    fun k hk hne => by
      have hin := HostPages.mem_page.mp hk
      rw [← hk]
      exact hc k (by omega) hne
  unfold Vm.mmapStart at hs
  rw [hstart] at hs
  by_cases hal : h.per * h.page a < a
  · rw [if_pos ((HostPages.addr_lt_pageAddr (by omega) (by omega)).mpr hal)] at hs
    have hsingle : h.addr u = h.addr (h.page a) + h.size ↔ u = h.page a + 1 := by
      rw [HostPages.addr_succ, HostPages.addr_inj (by omega) (by omega)]
    by_cases hone : u = h.page a + 1
    · rw [if_pos (hsingle.mpr hone)] at hs
      cases hfrag : s.mmapFrag h K (h.addr (h.page a)) (pageAddr a) (pageAddr b) q.prot q.flags q.fd q.offset with
      | mk ret s₁ =>
        rw [hfrag] at hs
        dsimp only at hs
        by_cases hret : ret = -1
        · rw [if_pos hret] at hs
          cases hs
        rw [if_neg hret] at hs
        obtain ⟨rfl, -, rfl⟩ : true = single ∧ _ ∧ s₁ = t := by simpa using hs
        refine Or.inl ⟨rfl, ⟨hal, hone⟩, ?_⟩
        rw [hone]
        exact mmapFrag_given hK hG hfix (by omega) (by omega) (by omega) (fun k hk _ => hcov k hk) (fun k _ ho _ => ho) hfrag hret
    · rw [if_neg (hsingle.not.mpr hone), HostPages.addr_succ, HostPages.addr_eq (h.page a + 1)] at hs
      cases hfrag : s.mmapFrag h K (h.addr (h.page a)) (pageAddr a) (pageAddr (h.per * (h.page a + 1))) q.prot q.flags q.fd q.offset with
      | mk ret s₁ =>
        rw [hfrag] at hs
        dsimp only at hs
        by_cases hret : ret = -1
        · rw [if_pos hret] at hs
          cases hs
        rw [if_neg hret] at hs
        obtain ⟨rfl, rfl, rfl⟩ : false = single ∧ pageAddr (h.per * (h.page a + 1)) = r ∧ s₁ = t := by simpa using hs
        have hlast : ¬ u ≤ h.page a + 1 := by omega
        rw [hu, HostPages.upPage_le] at hlast
        refine Or.inr ⟨rfl, fun hno => hone hno.2, h.page a + 1, (HostPages.addr_eq _).symm, Nat.le_succ _, by omega, by omega, ?_⟩
        refine mmapFrag_given hK hG hfix (by omega) (by omega) (by omega) (fun k hk _ => hcov k hk) (fun k hk ho _ => ?_) hfrag hret
        have hin := HostPages.mem_page.mp hk
        omega
  · rw [if_neg ((HostPages.addr_lt_pageAddr (by omega) (by omega)).not.mpr hal)] at hs
    obtain ⟨rfl, rfl, rfl⟩ : false = single ∧ h.addr (h.page a) = r ∧ s = t := by simpa using hs
    refine Or.inr ⟨rfl, fun hno => hal hno.1, h.page a, rfl, Nat.le_refl _, hpage, by omega, ?_⟩
    rw [Set.Ico_self]
    exact .refl s

theorem mmapTail_spec (hK : K.Lawful h) (hG : K.Granting h) (hfix : q.flags &&& MAP_FIXED ≠ 0) {l u : Nat} (hb : b + h.per ≤ 2 ^ 20)
    (hu : u = h.upPage b) (hal : a ≤ h.per * l) (hlu : l < u) (hT : ∀ k, b ≤ k → k < h.per * u → k ∈ T) {r : Word}
    (hs : s.mmapTail h K q (pageAddr b) (h.addr u) = (some r, t)) :
    ∃ v, r = h.addr v ∧ l ≤ v ∧ v ≤ u ∧ h.per * v ≤ b ∧ Given h a b q.prot T (Set.Ico v u) s t ∧
      ∀ k, b ≤ k → k < h.per * u → ∃ p, h.page k ∈ Set.Ico v u ∧ t.host (h.page k) = some p ∧ Permits p q.prot ∧ Permits q.prot p := by
  have hup := HostPages.le_upPage (h := h) b
  have hup' := HostPages.mul_upPage_lt (h := h) (b := b)
  rw [← hu] at hup hup'
  unfold Vm.mmapTail at hs
  by_cases hlt : b < h.per * u
  · rw [if_pos ((HostPages.pageAddr_lt_addr (by omega) (by omega)).mpr hlt)] at hs
    obtain ⟨v, rfl⟩ : ∃ v, u = v + 1 := ⟨u - 1, by omega⟩
    have hsub : h.addr (v + 1) - h.size = h.addr v := by rw [HostPages.size_eq, HostPages.addr_sub (by omega), Nat.add_sub_cancel]
    have hpred : h.per * (v + 1) = h.per * v + h.per := Nat.mul_succ ..
    have hlast : ¬ h.upPage b ≤ v := by omega
    rw [HostPages.upPage_le] at hlast
    have hmul := Nat.mul_le_mul_left h.per (show l ≤ v by omega)
    rw [hsub] at hs
    cases hfrag : s.mmapFrag h K (h.addr v) (h.addr v) (h.addr (v + 1)) q.prot q.flags q.fd
        (q.offset + h.addr (v + 1) - h.size - q.start) with
    | mk ret s₁ =>
      rw [hfrag] at hs
      dsimp only at hs
      by_cases hret : ret = -1
      · rw [if_pos hret] at hs
        cases hs
      rw [if_neg hret] at hs
      obtain ⟨rfl, rfl⟩ : h.addr v = r ∧ s₁ = t := by simpa using hs
      obtain ⟨honly, hother, p, hp, hperm, hperm'⟩ := mmapFrag_whole hK hG hfix (by omega) hfrag hret
      refine ⟨v, rfl, by omega, by omega, by omega, ⟨honly, fun i hi => hother i fun he => ?_, fun i hi => ?_⟩, fun k hk hku => ?_⟩
      · exact hi (he ▸ Set.mem_Ico.mpr (by omega))
      · have hi : v ≤ i ∧ i < v + 1 := hi
        obtain rfl : i = v := by omega
        refine ⟨p, hp, hperm, fun k _ hk ho hkT => ?_⟩
        have hin := HostPages.mem_page.mp hk
        exact absurd (hT k (by omega) (by omega)) hkT
      · have hkv : h.page k = v := HostPages.mem_page.mpr (by omega)
        exact ⟨p, hkv ▸ Set.mem_Ico.mpr (by omega), hkv ▸ hp, hperm, hperm'⟩
  · rw [if_neg ((HostPages.pageAddr_lt_addr (by omega) (by omega)).not.mpr hlt)] at hs
    obtain ⟨rfl, rfl⟩ : h.addr u = r ∧ s = t := by simpa using hs
    refine ⟨u, rfl, by omega, Nat.le_refl _, by omega, ?_, fun k hk hku => absurd hku (by omega)⟩
    rw [Set.Ico_self]
    exact .refl s

theorem mmapMiddle_spec (hK : K.Lawful h) (hfix : q.flags &&& MAP_FIXED ≠ 0) {l v : Nat} (hlv : l ≤ v) (hb : b + h.per ≤ 2 ^ 20)
    (hal : a ≤ h.per * l) (hvb : h.per * v ≤ b) (hs : s.mmapMiddle K q (h.addr l) (h.addr v) = (true, t)) :
    Given h a b q.prot T (Set.Ico l v) s t := by
  have hper := HostPages.per_pos (h := h)
  have hmul := Nat.mul_le_mul_left h.per hlv
  unfold Vm.mmapMiddle at hs
  by_cases hlt : l < v
  · rw [if_pos ((HostPages.addr_lt (by omega) (by omega)).mpr hlt), HostPages.addr_sub hlv] at hs
    obtain ⟨n, rfl⟩ := Nat.exists_eq_add_of_le hlv
    have hsum : h.per * (l + n) = h.per * l + h.per * n := Nat.mul_add ..
    rw [Nat.add_sub_cancel_left] at hs
    dsimp only at hs
    generalize (if q.flags &&& MAP_ANONYMOUS ≠ 0 then 0 else q.offset + h.addr l - q.start) = offset1 at hs
    have hs : ((K.mmap s.host ⟨h.addr l, h.addr n, q.prot, q.flags, q.fd, offset1⟩).1.isSome,
      ({ s with host := (K.mmap s.host ⟨h.addr l, h.addr n, q.prot, q.flags, q.fd, offset1⟩).2 } : Vm)) = (true, t) := hs
    cases hmap : K.mmap s.host ⟨h.addr l, h.addr n, q.prot, q.flags, q.fd, offset1⟩ with
    | mk p host =>
      rw [hmap] at hs
      obtain ⟨hp, rfl⟩ := Prod.mk.inj hs
      obtain ⟨p, rfl⟩ := Option.isSome_iff_exists.mp hp
      obtain ⟨-, hset⟩ := hK.fixed _ _ _ _ hfix hmap
      refine given_inside hal hvb ⟨rfl, rfl⟩ fun j => ?_
      show host j = _
      rw [hset, HostMap.set]
      exact if_congr (overlaps_addr (by omega) (by omega) (by omega)) rfl rfl
  · rw [if_neg ((HostPages.addr_lt (by omega) (by omega)).not.mpr hlt)] at hs
    obtain ⟨-, rfl⟩ := Prod.mk.inj hs
    obtain rfl : l = v := by omega
    rw [Set.Ico_self]
    exact .refl s

/-- What becomes of the pages behind the end of a mapping at a fixed address. -/
def TailGiven (h : HostPages) (a b : Nat) (prot : Word) (t : Vm) : Prop :=
  ∀ k ∈ tailPages h a b, ∃ p, h.page k ∈ Set.Ico (h.page a) (h.upPage b) ∧ t.host (h.page k) = some p ∧ Permits p prot ∧
    Permits prot p

/-- A mapping at a fixed address: first the host pages, then the flags. -/
theorem mmapFixed_given (hK : K.Lawful h) (hG : K.Granting h) (hfix : q.flags &&& MAP_FIXED ≠ 0) (hstart : q.start = pageAddr a) (hn : 0 < n)
    (hfit : a + n + h.per ≤ 2 ^ 20) (hc : Covered h s) {ret : Word} (hs : s.mmapFixed h K q (pageAddr n) = .ok (ret, s'))
    (hret : ret ≠ -1) :
    ret = q.start ∧ ∃ t, Given h a (a + n) q.prot (tailPages h a (a + n)) (Set.Ico (h.page a) (h.upPage (a + n))) s t ∧
      TailGiven h a (a + n) q.prot t ∧ t.pageSetFlags (pageAddr a) (pageAddr (a + n)) (q.prot ||| PAGE_VALID) = .ok s' := by
  have hper := HostPages.per_pos (h := h)
  obtain ⟨u, hu⟩ : ∃ u, u = h.upPage (a + n) := ⟨_, rfl⟩
  unfold Vm.mmapFixed at hs
  dsimp only at hs
  rw [hstart, pageAddr_add, HostPages.and_mask (by omega), HostPages.align_pageAddr (by omega), ← hu] at hs
  -- the flags are set last
  have hend : ∀ {w : Vm}, Vm.mmapEnd q w (pageAddr a) (pageAddr n) = .ok (ret, s') →
      ret = q.start ∧ w.pageSetFlags (pageAddr a) (pageAddr (a + n)) (q.prot ||| PAGE_VALID) = .ok s' := fun hw => by
    rw [Vm.mmapEnd, pageAddr_add] at hw
    rw [hstart]
    exact setsFlags_ok hw
  cases h₁ : s.mmapStart h K q (pageAddr (a + n)) (h.addr (h.page a)) (h.addr u) with
  | mk single x =>
    obtain ⟨r, s₁⟩ := x
    rw [h₁] at hs
    cases r with
    | none => exact absurd (Prod.mk.inj (Except.ok.inj hs)).1.symm hret
    | some r =>
      rcases mmapStart_spec (T := tailPages h a (a + n)) hK hG hfix hstart (show a < a + n by omega) hfit hu hc h₁ with
        ⟨rfl, hone, hgiven⟩ | ⟨rfl, hone, l, rfl, hl, hlu, hal, hgiven⟩
      · -- one single host page
        obtain ⟨hr, hset⟩ := hend hs
        refine ⟨hr, s₁, hu ▸ hgiven, fun k hk => ?_, hset⟩
        rw [hu] at hone
        exact absurd hone hk.2.2
      · dsimp only at hs
        cases h₂ : s₁.mmapTail h K q (pageAddr (a + n)) (h.addr u) with
        | mk r s₂ =>
          rw [h₂] at hs
          cases r with
          | none => exact absurd (Prod.mk.inj (Except.ok.inj hs)).1.symm hret
          | some r =>
            have htail : ∀ k, a + n ≤ k → k < h.per * u → k ∈ tailPages h a (a + n) := fun k hk hku =>
              ⟨hk, hu ▸ hku, hu ▸ hone⟩
            obtain ⟨v, rfl, hlv, hvu, hvb, hgiven₂, hwhole⟩ := mmapTail_spec hK hG hfix hfit hu hal hlu htail h₂
            dsimp only at hs
            cases h₃ : s₂.mmapMiddle K q (h.addr l) (h.addr v) with
            | mk mapped s₃ =>
              rw [h₃] at hs
              cases mapped with
              | false => exact absurd (Prod.mk.inj (Except.ok.inj hs)).1.symm hret
              | true =>
                obtain ⟨hr, hset⟩ := hend hs
                have hgiven₃ : Given h a (a + n) q.prot (tailPages h a (a + n)) (Set.Ico l v) s₂ s₃ :=
                  mmapMiddle_spec hK hfix hlv hfit hal hvb h₃
                have hall : Set.Ico (h.page a) l ∪ Set.Ico v u ∪ Set.Ico l v = Set.Ico (h.page a) u := by
                  ext j
                  simp only [Set.mem_union, Set.mem_Ico]
                  omega
                have hdone := (hgiven.trans hgiven₂).trans hgiven₃
                rw [hall, hu] at hdone
                refine ⟨hr, s₃, hdone, fun k hk => ?_, hset⟩
                obtain ⟨p, hin, hp, hperm⟩ := hwhole k hk.1 (hu ▸ hk.2.1)
                have hout : h.page k ∉ Set.Ico l v := fun hmid => by
                  have h₄ := (Set.mem_Ico.mp hmid).2
                  have h₅ := (Set.mem_Ico.mp hin).1
                  omega
                refine ⟨p, ?_, (hgiven₃.other _ hout).trans hp, hperm⟩
                have h₄ := Set.mem_Ico.mp hin
                exact Set.mem_Ico.mpr (by omega)

/-- The flags of the pages behind the end of a mapping ask for no more than the mapping is for. -/
def TailPermits (h : HostPages) (a b : Nat) (prot : Word) (s : Vm) : Prop :=
  ∀ k ∈ tailPages h a b, s.pages.flags k ≠ 0 → Permits prot (s.pages.flags k)

/-- The pages stay covered just when those behind the end of the mapping ask for no more than it is for. -/
theorem Given.tail_iff (hg : Given h a b prot (tailPages h a b) (Set.Ico (h.page a) (h.upPage b)) s t) (ht : TailGiven h a b prot t)
    (hc : CoveredOff h (Set.Ico (h.page a) (h.upPage b)) s) (hm : NoBlocks s.pages) (hab : a < b) (hb : b + h.per ≤ 2 ^ 20)
    (hs : t.pageSetFlags (pageAddr a) (pageAddr b) (prot ||| PAGE_VALID) = .ok s') :
    NoBlocks s'.pages ∧ (Covered h s' ↔ TailPermits h a b prot s) := by
  have hper := HostPages.per_pos (h := h)
  have hup := HostPages.mul_upPage_lt (h := h) (b := b)
  obtain ⟨hm', hiff⟩ := hg.covered_iff hc hm hab (by omega) (.refl _) hs
  refine ⟨hm', hiff.trans ⟨fun hall k hk hne => ?_, fun htail k hk hlt ho hne => ?_⟩⟩
  · have hkb := hk.1
    have hku := hk.2.1
    obtain ⟨p, hp, hperm⟩ := hall k hk (by omega) (Or.inr hkb) hne
    obtain ⟨p', -, hp', -, hle⟩ := ht k hk
    rw [hp, Option.some.injEq] at hp'
    exact (hp' ▸ hle).trans hperm
  · obtain ⟨p, -, hp, hge, -⟩ := ht k hk
    exact ⟨p, hp, hge.trans (htail k hk hne)⟩

end Unitrans
