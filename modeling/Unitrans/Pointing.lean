/-
Where the fields of a finished superblock lead. One iteration of `lazy_patch`
(`Pointed`) makes its field lead to the code of the block at its destination or
to a stub of its own, records where the field is, and keeps the fields before
it; the whole loop does so for every field (`Pointing`).
-/
import Mathlib.Data.List.Pairwise
import Unitrans.Fields

namespace Unitrans

open X86 FirstArrival Except

variable {L : Layout} {img : Mem} {s₀ s t s' : State} {e : PatchEntry}

/-! ## Sites -/

/-- A field of a direct branch, and the slot its owner has for it. -/
abbrev Site := PatchEntry × Word

/-- Where the jump with its field at `a` goes. -/
def jumpTarget (m : Mem) (a : Word) : Word := a + 4 + m.ld32 a

theorem jumpTarget_st32 (m : Mem) (a p : Word) : jumpTarget (m.st32 a (p - a - 4)) a = p := by
  rw [jumpTarget, Mem.ld32_st32]
  ring

theorem jumpTarget_congr {m m' : Mem} {a : Word} (h : ∀ x ∈ Span a 4, m' x = m x) : jumpTarget m' a = jumpTarget m a := by
  rw [jumpTarget, jumpTarget, Mem.ld32_congr h]

/-- The field leads to the code of the block at its destination. -/
def Resolved (s : State) (f : Site) : Prop :=
  ∃ (i : Nat) (b : TranslationBlock), s.tbs[i]? = some b ∧ b.pc = f.1.dest ∧ b.tcPtr ≠ NOT_TRANS_YET ∧
    jumpTarget s.mem f.1.loc = b.tcPtr

/-- The field leads to a stub of its own. -/
structure HasStub (L : Layout) (s : State) (f : Site) : Prop where
  sieve : Span (jumpTarget s.mem f.1.loc) 35 ⊆ sieveUpTo L s.sieveCodePtr
  code : s.mem.At (jumpTarget s.mem f.1.loc)
    (exitStubBytes L s.tbRetAddr (jumpTarget s.mem f.1.loc) (L.tbPtr f.1.tb) f.2 f.1.dest)

def LeadsTo (L : Layout) (s : State) (f : Site) : Prop := Resolved s f ∨ HasStub L s f

/-- The field leads back to its owner, or the slot says where it is, in 16 bits. -/
def Owned (s : State) (f : Site) : Prop :=
  ∃ b, s.tbs[f.1.tb]? = some b ∧ (b.pc = f.1.dest ∨
    b.tcPtr ≠ NOT_TRANS_YET ∧ b.tbJmpOffset f.2.toNat = (f.1.loc - b.tcPtr).setWidth 16)

/-- The blocks with code keep their addresses and their code. -/
def KeepsCode (s s' : State) : Prop :=
  ∀ (i : Nat) (b : TranslationBlock), s.tbs[i]? = some b → b.tcPtr ≠ NOT_TRANS_YET →
    ∃ c, s'.tbs[i]? = some c ∧ c.pc = b.pc ∧ c.tcPtr = b.tcPtr

theorem Resolved.keep {f : Site} (h : Resolved s f) (hf : ∀ x ∈ Span f.1.loc 4, s'.mem x = s.mem x) (hb : KeepsCode s s') :
    Resolved s' f := by
  obtain ⟨i, b, hi, hpc, htc, ht⟩ := h
  obtain ⟨c, hc, hpc', htc'⟩ := hb i b hi htc
  exact ⟨i, c, hc, hpc'.trans hpc, htc' ▸ htc, htc' ▸ (jumpTarget_congr hf).trans ht⟩

theorem LeadsTo.keep {f : Site} (h : LeadsTo L s f) (hf : ∀ x ∈ Span f.1.loc 4, s'.mem x = s.mem x)
    (hs : ∀ x ∈ sieveUpTo L s.sieveCodePtr, s'.mem x = s.mem x) (hp : sieveOff L s.sieveCodePtr ≤ sieveOff L s'.sieveCodePtr)
    (hr : s'.tbRetAddr = s.tbRetAddr) (hb : KeepsCode s s') : LeadsTo L s' f := by
  have htarget := jumpTarget_congr hf
  rcases h with h | ⟨hspan, hat⟩
  · exact Or.inl (h.keep hf hb)
  · refine Or.inr ⟨htarget ▸ hspan.trans (span_mono hp), ?_⟩
    rw [htarget, hr]
    refine hat.congr (by simp) fun x hx => hs x (hspan ?_)
    rwa [length_exitStubBytes] at hx

theorem Owned.keep {f : Site} (h : Owned s f) (hb : ∀ b, s.tbs[f.1.tb]? = some b → ∃ c, s'.tbs[f.1.tb]? = some c ∧
    c.pc = b.pc ∧ (b.tcPtr ≠ NOT_TRANS_YET → c.tcPtr = b.tcPtr ∧ c.tbJmpOffset = b.tbJmpOffset)) : Owned s' f := by
  obtain ⟨b, hi, hown⟩ := h
  obtain ⟨c, hc, hpc, hcode⟩ := hb b hi
  refine ⟨c, hc, hown.imp (hpc.trans ·) fun ⟨htc, hoff⟩ => ?_⟩
  obtain ⟨h₁, h₂⟩ := hcode htc
  exact ⟨h₁ ▸ htc, by rw [h₁, h₂, hoff]⟩

/-! ## One field -/

/-- The owner's slot is taken for the field. -/
def State.taken (s : State) (e : PatchEntry) (n : Word) : State :=
  ((s.setCurTb e.tb).logSlot n).updTb e.tb fun b => (b.setPatchNum n).setJmpOffset n.toNat ((e.loc - b.tcPtr).setWidth 16)

/-- What an iteration of `lazy_patch` does for the field `e`. -/
inductive Patches (L : Layout) (s : State) (e : PatchEntry) : State → Prop
  | linked {c i b n} : s.tbs[i]? = some b → b.pc = e.dest → b.tcPtr ≠ NOT_TRANS_YET →
      Patches L s e ((((s.withCache c).st32 e.loc (b.tcPtr - e.loc - 4)).taken e n).tbAddJmpFrom e.tb i n)
  | stubbed {t n} : (∃ c, t = s.withCache c ∨ t = (s.withCache c).withNewTb e.dest e.funcAddr) →
      sieveOff L (s.sieveCodePtr + BitVec.ofNat 32 35) ≤ DEFAULT_SIEVE_BUFFER_SIZE →
      Patches L s e (((t.st32 e.loc (s.sieveCodePtr - e.loc - 4)).taken e n).emitSieve
        (exitStubBytes L s.tbRetAddr s.sieveCodePtr (L.tbPtr e.tb) n e.dest))

theorem takeSlot_spec (s : State) (e : PatchEntry) : (s.takeSlot e).Ensures fun r => r.2 = s.taken e r.1 := by
  simp only [State.takeSlot, ensures_bind, ensures_pure]
  exact fun b _ => rfl

theorem patchToStub_spec {d : Option Nat} {c : Word → Option Nat} :
    ((s.withCache c).patchToStub L e d).Ensures (Patches L s e) := by
  have hmake : ((s.withCache c).makeDest L e d).Ensures fun t =>
      t = s.withCache c ∨ t = (s.withCache c).withNewTb e.dest e.funcAddr := by
    cases d with
    | none =>
      simp only [State.makeDest, ensures_bind, ensures_pure]
      refine makeTb_spec.mono fun p hp => ?_
      obtain ⟨i, t⟩ := p
      obtain ⟨-, rfl⟩ := hp
      exact Or.inr rfl
    | some d => exact ensures_ok.mpr (Or.inl rfl)
  simp only [State.patchToStub, ensures_bind, ensures_pure]
  refine hmake.mono fun t ht => (takeSlot_spec _ e).mono fun p hp => (checkSieve_ensures _).mono fun _ hcheck => ?_
  obtain ⟨n, u⟩ := p
  dsimp only at hp
  subst hp
  have hsieve : t.sieveCodePtr = s.sieveCodePtr ∧ t.tbRetAddr = s.tbRetAddr := by
    rcases ht with rfl | rfl
    · exact ⟨rfl, rfl⟩
    · exact ⟨rfl, rfl⟩
  have hlast : ∀ (u : State) (w : Word), ((u.st32 e.loc w).taken e n).sieveCodePtr = u.sieveCodePtr ∧
      ((u.st32 e.loc w).taken e n).tbRetAddr = u.tbRetAddr := fun _ _ => ⟨rfl, rfl⟩
  rw [cemitExitStub_eq, (hlast _ _).1, (hlast _ _).2, hsieve.1, hsieve.2] at hcheck ⊢
  rw [State.sieveCodePtr_emitSieve, length_exitStubBytes, (hlast _ _).1, hsieve.1] at hcheck
  exact .stubbed ⟨c, ht⟩ hcheck

theorem lazyPatchEntry_spec (s : State) (e : PatchEntry) : (s.lazyPatchEntry L e).Ensures (Patches L s e) := by
  simp only [State.lazyPatchEntry, ensures_bind]
  refine (tbFindFast_frame s e.dest e.tbTag).mono fun p hp => ?_
  obtain ⟨d, t⟩ := p
  obtain ⟨⟨c, rfl⟩, hfound⟩ := hp
  cases d with
  | none => exact patchToStub_spec
  | some d =>
    obtain ⟨b, hb, hpc⟩ := hfound d rfl
    simp only [ensures_bind, ensures_ite, ensures_pure]
    refine ((s.withCache c).tb_ensures d).mono fun b' hb' => ⟨fun htc => ?_, fun _ => patchToStub_spec⟩
    obtain rfl : b = b' := Option.some.inj (hb.symm.trans hb')
    refine (takeSlot_spec _ e).mono fun p hp => ?_
    obtain ⟨n, u⟩ := p
    dsimp only at hp
    subst hp
    exact .linked hb hpc htc

/-- The blocks keep what they have but for a slot, and new ones are plain. -/
structure Kept (s s' : State) : Prop where
  old : ∀ (i : Nat) (b : TranslationBlock), s.tbs[i]? = some b → ∃ c, s'.tbs[i]? = some c ∧ c.core = b.core
  new : ∀ (i : Nat) (c : TranslationBlock), s'.tbs[i]? = some c → s.tbs.length ≤ i → c.type = NOT_IND

theorem TranslationBlock.core_chain {b c : TranslationBlock} (h : c.core = b.core) : c.chain = b.chain :=
  congrArg (·.2.2) h

theorem Kept.of_tbs (h : s'.tbs = s.tbs) : Kept s s' := by
  refine ⟨fun i b hb => ⟨b, by rw [h, hb], rfl⟩, fun i c hc hlen => ?_⟩
  rw [h] at hc
  exact absurd (List.getElem?_eq_some_iff.mp hc).1 (by omega)

theorem Kept.trans (h₁ : Kept s t) (h₂ : Kept t s') : Kept s s' := by
  refine ⟨fun i b hb => ?_, fun i c hc hlen => ?_⟩
  · obtain ⟨c, hc, hcb⟩ := h₁.old i b hb
    obtain ⟨d, hd, hdc⟩ := h₂.old i c hc
    exact ⟨d, hd, hdc.trans hcb⟩
  · rcases Nat.lt_or_ge i t.tbs.length with hi | hi
    · obtain ⟨d, hd, hdc⟩ := h₂.old i _ (List.getElem?_eq_getElem hi)
      obtain rfl : c = d := Option.some.inj (hc.symm.trans hd)
      rw [TranslationBlock.chain_type (TranslationBlock.core_chain hdc)]
      exact h₁.new i _ (List.getElem?_eq_getElem hi) hlen
    · exact h₂.new i c hc hi

theorem Kept.chains {A : Set Word} (h : Kept s s') (hc : Chains A s) : Chains A s' := by
  intro i c hic hty
  rcases Nat.lt_or_ge i s.tbs.length with hi | hi
  · obtain ⟨d, hd, hcore⟩ := h.old i _ (List.getElem?_eq_getElem hi)
    obtain rfl : c = d := Option.some.inj (hic.symm.trans hd)
    have hch := TranslationBlock.core_chain hcore
    exact (hc i _ (List.getElem?_eq_getElem hi) (TranslationBlock.chain_type hch ▸ hty)).congr hch
  · exact absurd (h.new i c hic hi) hty

theorem Kept.code (h : Kept s s') : KeepsCode s s' := fun i b hb _ => by
  obtain ⟨c, hc, hcore⟩ := h.old i b hb
  simp only [TranslationBlock.core, Prod.mk.injEq] at hcore
  exact ⟨c, hc, hcore.1, hcore.2.1⟩

/-- The blocks after an iteration: the owner has the field in its slot. -/
def SlotTaken (e : PatchEntry) (n : Word) (s s' : State) : Prop :=
  ∀ (i : Nat) (b : TranslationBlock), s.tbs[i]? = some b → ∃ c, s'.tbs[i]? = some c ∧ c.core = b.core ∧
    if i = e.tb then c.tbJmpOffset n.toNat = (e.loc - b.tcPtr).setWidth 16 else c.tbJmpOffset = b.tbJmpOffset

theorem slotTaken_taken (s : State) (e : PatchEntry) (n : Word) : SlotTaken e n s (s.taken e n) := by
  intro i b hb
  have hget : (s.taken e n).tbs[i]? = (s.tbs[i]?).map fun b =>
      if e.tb = i then (b.setPatchNum n).setJmpOffset n.toNat ((e.loc - b.tcPtr).setWidth 16) else b := by
    show (s.tbs.modify e.tb _)[i]? = _
    rw [List.getElem?_modify]
    by_cases hi : e.tb = i <;> simp [hi]
  rw [hget, hb]
  refine ⟨_, rfl, ?_⟩
  dsimp only
  by_cases hi : e.tb = i
  · rw [if_pos hi, if_pos hi.symm]
    exact ⟨rfl, by simp [TranslationBlock.setJmpOffset]⟩
  · rw [if_neg hi, if_neg (Ne.symm hi)]
    exact ⟨rfl, rfl⟩

/-- A block of one state is one of the other, with its slots. -/
theorem exists_site (h : s'.sites = s.sites) {i : Nat} {b : TranslationBlock} (hb : s.tbs[i]? = some b) :
    ∃ c, s'.tbs[i]? = some c ∧ c.core = b.core ∧ c.tbJmpOffset = b.tbJmpOffset := by
  have hi : (s'.sites)[i]? = some (b.tbJmpOffset, b.core) := by rw [h, State.sites, List.getElem?_map, hb, Option.map_some]
  rw [State.sites, List.getElem?_map] at hi
  obtain ⟨c, hc, hcb⟩ := Option.map_eq_some_iff.mp hi
  obtain ⟨hoff, hcore⟩ := Prod.mk.inj hcb
  exact ⟨c, hc, hcore, hoff⟩

theorem Kept.of_sites (h : s'.sites = s.sites) : Kept s s' := by
  refine ⟨fun i b hb => ?_, fun i c hc hi => ?_⟩
  · obtain ⟨c, hc, hcore, -⟩ := exists_site h hb
    exact ⟨c, hc, hcore⟩
  · have hlen := congrArg List.length h
    simp only [State.sites, List.length_map] at hlen
    exact absurd (List.getElem?_eq_some_iff.mp hc).1 (by omega)

theorem Owned.of_sites {f : Site} (h : Owned s f) (hs : s'.sites = s.sites) : Owned s' f :=
  h.keep fun b hb => by
    obtain ⟨c, hc, hcore, hoff⟩ := exists_site hs hb
    simp only [TranslationBlock.core, Prod.mk.injEq] at hcore
    exact ⟨c, hc, hcore.1, fun _ => ⟨hcore.2.1, hoff⟩⟩

theorem SlotTaken.congr {n : Word} (h : SlotTaken e n s t) (hs : s'.sites = t.sites) : SlotTaken e n s s' := by
  intro i b hb
  obtain ⟨c, hc, hcore, hoff⟩ := h i b hb
  obtain ⟨d, hd, hdcore, hdoff⟩ := exists_site hs hc
  exact ⟨d, hd, hdcore.trans hcore, by rwa [hdoff]⟩

/-- The owner of a field has it in its slot. -/
theorem SlotTaken.owned {n : Word} (h : SlotTaken e n s s') (he : FieldOk L s e ∨ LeadsBack s e) : Owned s' (e, n) := by
  rcases he with ⟨b, hb, htc, -⟩ | ⟨b, hb, hpc, -⟩
  · obtain ⟨c, hc, hcore, hoff⟩ := h e.tb b hb
    simp only [TranslationBlock.core, Prod.mk.injEq] at hcore
    rw [if_pos rfl] at hoff
    exact ⟨c, hc, Or.inr ⟨hcore.2.1 ▸ htc, by rw [hcore.2.1, hoff]⟩⟩
  · obtain ⟨c, hc, hcore, -⟩ := h e.tb b hb
    simp only [TranslationBlock.core, Prod.mk.injEq] at hcore
    exact ⟨c, hc, Or.inl (hcore.1.trans hpc)⟩

/-- What an iteration for the field `e` leaves. -/
structure Pointed (L : Layout) (s : State) (e : PatchEntry) (s' : State) : Prop where
  mem : ∀ x, x ∉ Span e.loc 4 → (x ∈ Span L.sieveBuffer DEFAULT_SIEVE_BUFFER_SIZE → x ∈ sieveUpTo L s.sieveCodePtr) →
    s'.mem x = s.mem x
  le : sieveOff L s.sieveCodePtr ≤ sieveOff L s'.sieveCodePtr
  room : sieveOff L s'.sieveCodePtr ≤ DEFAULT_SIEVE_BUFFER_SIZE
  codePtr : s'.codePtr = s.codePtr
  patchArray : s'.patchArray = s.patchArray
  tbRetAddr : s'.tbRetAddr = s.tbRetAddr
  kept : Kept s s'
  slot : ∃ n, s'.log.slots = s.log.slots ++ [n] ∧ SlotTaken e n s s' ∧ LeadsTo L s' (e, n)

theorem SlotTaken.kept {n : Word} (h : SlotTaken e n s s') (hl : s'.tbs.length = s.tbs.length) : Kept s s' := by
  refine ⟨fun i b hb => ?_, fun i c hc hi => ?_⟩
  · obtain ⟨c, hc, hcore, -⟩ := h i b hb
    exact ⟨c, hc, hcore⟩
  · exact absurd (List.getElem?_eq_some_iff.mp hc).1 (by omega)

theorem length_taken (s : State) (e : PatchEntry) (n : Word) : (s.taken e n).tbs.length = s.tbs.length := List.length_modify ..

theorem kept_taken (s : State) (e : PatchEntry) (n : Word) : Kept s (s.taken e n) :=
  (slotTaken_taken s e n).kept (length_taken s e n)

theorem kept_withNewTb (s : State) (pc f : Word) : Kept s (s.withNewTb pc f) := by
  refine ⟨fun i b hb => ⟨b, ?_, rfl⟩, fun i c hc hi => ?_⟩
  · show (s.tbs ++ [_])[i]? = _
    rw [List.getElem?_append_left (List.getElem?_eq_some_iff.mp hb).1, hb]
  · have hc : (s.tbs ++ [newTb s pc f])[i]? = some c := hc
    rw [List.getElem?_append_right hi] at hc
    obtain rfl := List.mem_singleton.mp (List.mem_of_getElem? hc)
    rfl

theorem Patches.kept (h : Patches L s e s') : Kept s s' := by
  cases h with
  | @linked c i b n hb hpc htc =>
    have hstore : Kept s ((s.withCache c).st32 e.loc (b.tcPtr - e.loc - 4)) := .of_tbs rfl
    exact (hstore.trans (kept_taken _ e n)).trans (.of_sites (sites_updTb _ _ (fun _ => ⟨rfl, rfl, rfl⟩) fun _ => rfl))
  | @stubbed t n ht hcheck =>
    have hmake : Kept s t := by
      obtain ⟨c, rfl | rfl⟩ := ht
      · exact .of_tbs rfl
      · have hcache : Kept s (s.withCache c) := .of_tbs rfl
        exact hcache.trans (kept_withNewTb ..)
    have hstore : Kept t (t.st32 e.loc (s.sieveCodePtr - e.loc - 4)) := .of_tbs rfl
    exact ((hmake.trans hstore).trans (kept_taken _ e n)).trans (.of_tbs rfl)

theorem lazyPatch_kept (s : State) : (s.lazyPatch L).Ensures (Kept s) := by
  have hloop : ∀ (es : List PatchEntry) (t : State), Kept s t →
      (es.foldlM (fun t e => State.lazyPatchEntry L t e) t).Ensures (Kept s) := by
    intro es
    induction es with
    | nil =>
      intro t ht
      rw [List.foldlM_nil, ensures_pure]
      exact ht
    | cons e es ih =>
      intro t ht
      rw [List.foldlM_cons, ensures_bind]
      exact (lazyPatchEntry_spec t e).mono fun u hu => ih u (ht.trans hu.kept)
  exact hloop s.patchArray s (.of_tbs rfl)

/-- A jump to the code there is. -/
theorem pointed_linked {c : Word → Option Nat} {i : Nat} {b : TranslationBlock} {n : Word} (hb : s.tbs[i]? = some b)
    (hpc : b.pc = e.dest) (htc : b.tcPtr ≠ NOT_TRANS_YET) (hp : sieveOff L s.sieveCodePtr ≤ DEFAULT_SIEVE_BUFFER_SIZE) :
    Pointed L s e ((((s.withCache c).st32 e.loc (b.tcPtr - e.loc - 4)).taken e n).tbAddJmpFrom e.tb i n) := by
  have hkept : Kept s ((((s.withCache c).st32 e.loc (b.tcPtr - e.loc - 4)).taken e n).tbAddJmpFrom e.tb i n) :=
    (Patches.linked (L := L) hb hpc htc).kept
  obtain ⟨u, hu⟩ : ∃ u, u = (s.withCache c).st32 e.loc (b.tcPtr - e.loc - 4) := ⟨_, rfl⟩
  have htbs : u.tbs = s.tbs := by rw [hu]; rfl
  have hmem : u.mem = s.mem.st32 e.loc (b.tcPtr - e.loc - 4) := by rw [hu]; rfl
  rw [← hu] at hkept ⊢
  have hslot : SlotTaken e n s ((u.taken e n).tbAddJmpFrom e.tb i n) := by
    have hsites : ((u.taken e n).tbAddJmpFrom e.tb i n).sites = (u.taken e n).sites :=
      sites_updTb _ _ (fun _ => ⟨rfl, rfl, rfl⟩) fun _ => rfl
    have := (slotTaken_taken u e n).congr hsites
    rwa [SlotTaken, htbs] at this
  obtain ⟨d, hd, hcore, -⟩ := hslot i b hb
  simp only [TranslationBlock.core, Prod.mk.injEq] at hcore
  refine ⟨fun x hx _ => ?_, ?_, ?_, by rw [hu]; rfl, by rw [hu]; rfl, by rw [hu]; rfl, hkept, n, by rw [hu]; rfl,
    hslot, Or.inl ⟨i, d, hd, hcore.1.trans hpc, hcore.2.1 ▸ htc, ?_⟩⟩
  · show u.mem x = _
    rw [hmem, Mem.st32_of_notMem hx]
  · rw [hu]
    exact le_rfl
  · rw [hu]
    exact hp
  · show jumpTarget u.mem e.loc = _
    rw [hmem, jumpTarget_st32, hcore.2.1]

theorem sieveOff_add {p : Word} {n : Nat} (hn : n + DEFAULT_SIEVE_BUFFER_SIZE < 2 ^ 32)
    (hp : sieveOff L p ≤ DEFAULT_SIEVE_BUFFER_SIZE) : sieveOff L (p + BitVec.ofNat 32 n) = sieveOff L p + n := by
  have hsplit : p + BitVec.ofNat 32 n - L.sieveBuffer = (p - L.sieveBuffer) + BitVec.ofNat 32 n := by ring
  rw [sieveOff, hsplit, BitVec.toNat_add, BitVec.toNat_ofNat, Nat.mod_eq_of_lt (a := n) (by omega), ← sieveOff,
    Nat.mod_eq_of_lt (by omega)]

/-- What is put behind the sieve's code. -/
theorem behind_sieve {p x : Word} {n : Nat} (h : sieveOff L p + n ≤ DEFAULT_SIEVE_BUFFER_SIZE) (hx : x ∈ Span p n) :
    x ∈ Span L.sieveBuffer DEFAULT_SIEVE_BUFFER_SIZE ∧ x ∉ sieveUpTo L p := by
  have hsize : DEFAULT_SIEVE_BUFFER_SIZE = 67108864 := rfl
  have hoff : (p - L.sieveBuffer).toNat = sieveOff L p := rfl
  have hmem := offset_of_mem (a := L.sieveBuffer) hx (by omega)
  refine ⟨mem_span.mpr (by omega), fun hup => ?_⟩
  have hup := mem_span.mp hup
  omega

/-- A jump to a stub put into the sieve's buffer. -/
theorem pointed_stubbed {n : Word} (ht : ∃ c, t = s.withCache c ∨ t = (s.withCache c).withNewTb e.dest e.funcAddr)
    (he : Span e.loc 4 ⊆ codeArea L) (hp : sieveOff L s.sieveCodePtr ≤ DEFAULT_SIEVE_BUFFER_SIZE)
    (hcheck : sieveOff L (s.sieveCodePtr + BitVec.ofNat 32 35) ≤ DEFAULT_SIEVE_BUFFER_SIZE) :
    Pointed L s e (((t.st32 e.loc (s.sieveCodePtr - e.loc - 4)).taken e n).emitSieve
      (exitStubBytes L s.tbRetAddr s.sieveCodePtr (L.tbPtr e.tb) n e.dest)) := by
  obtain ⟨bs, hbs⟩ : ∃ bs, bs = exitStubBytes L s.tbRetAddr s.sieveCodePtr (L.tbPtr e.tb) n e.dest := ⟨_, rfl⟩
  have hlen : bs.length = 35 := by rw [hbs, length_exitStubBytes]
  have hkept : Kept s (((t.st32 e.loc (s.sieveCodePtr - e.loc - 4)).taken e n).emitSieve
      (exitStubBytes L s.tbRetAddr s.sieveCodePtr (L.tbPtr e.tb) n e.dest)) := (Patches.stubbed ht hcheck).kept
  rw [sieveOff_add (by decide) hp] at hcheck
  have hsame : t.mem = s.mem ∧ t.sieveCodePtr = s.sieveCodePtr ∧ t.codePtr = s.codePtr ∧ t.patchArray = s.patchArray ∧
      t.tbRetAddr = s.tbRetAddr ∧ t.log = s.log ∧
      ∀ (i : Nat) (b : TranslationBlock), s.tbs[i]? = some b → t.tbs[i]? = some b := by
    obtain ⟨c, rfl | rfl⟩ := ht
    · exact ⟨rfl, rfl, rfl, rfl, rfl, rfl, fun _ _ => id⟩
    · refine ⟨rfl, rfl, rfl, rfl, rfl, rfl, fun i b hb => ?_⟩
      show (s.tbs ++ [_])[i]? = _
      rw [List.getElem?_append_left (List.getElem?_eq_some_iff.mp hb).1, hb]
  obtain ⟨hmem, hptr, hcode, hpatch, hret, hlog, hold⟩ := hsame
  rw [← hbs] at hkept ⊢
  obtain ⟨u, hu⟩ : ∃ u, u = t.st32 e.loc (s.sieveCodePtr - e.loc - 4) := ⟨_, rfl⟩
  have htbs : u.tbs = t.tbs := by rw [hu]; rfl
  have humem : u.mem = s.mem.st32 e.loc (s.sieveCodePtr - e.loc - 4) := by
    rw [hu, ← hmem]
    rfl
  have huptr : u.sieveCodePtr = s.sieveCodePtr := by
    rw [hu]
    exact hptr
  rw [← hu] at hkept ⊢
  obtain ⟨v, hv⟩ : ∃ v, v = (u.taken e n).emitSieve bs := ⟨_, rfl⟩
  have hvmem : v.mem = (s.mem.st32 e.loc (s.sieveCodePtr - e.loc - 4)).put s.sieveCodePtr bs := by
    rw [hv, ← humem, ← huptr]
    rfl
  have hvptr : sieveOff L v.sieveCodePtr = sieveOff L s.sieveCodePtr + 35 := by
    have huv : v.sieveCodePtr = u.sieveCodePtr + BitVec.ofNat 32 bs.length := by rw [hv]; rfl
    rw [huv, huptr, hlen, sieveOff_add (by decide) hp]
  have hslot : SlotTaken e n t v := by
    have hemit : v.sites = (u.taken e n).sites := by rw [hv]; rfl
    have := (slotTaken_taken u e n).congr hemit
    rwa [SlotTaken, htbs] at this
  have htarget : jumpTarget v.mem e.loc = s.sieveCodePtr := by
    rw [hvmem]
    refine (jumpTarget_congr (m := s.mem.st32 e.loc (s.sieveCodePtr - e.loc - 4)) fun x hx => ?_).trans (jumpTarget_st32 ..)
    refine Mem.put_of_notMem fun hs => ?_
    rw [hlen] at hs
    exact Set.disjoint_left.mp L.code_sieve (he hx) (behind_sieve hcheck hs).1
  rw [← hv] at hkept ⊢
  refine ⟨fun x hx hs => ?_, by omega, by omega, by rw [hv, hu]; exact hcode, by rw [hv, hu]; exact hpatch,
    by rw [hv, hu]; exact hret, hkept, n, ?_, fun i b hb => hslot i b (hold i b hb), Or.inr ⟨?_, ?_⟩⟩
  · rw [hvmem, Mem.put_of_notMem fun hin => ?_, Mem.st32_of_notMem hx]
    rw [hlen] at hin
    exact (behind_sieve hcheck hin).2 (hs (behind_sieve hcheck hin).1)
  · rw [hv, hu]
    show t.log.slots ++ [n] = _
    rw [hlog]
  · rw [htarget]
    refine span_subset ?_
    show sieveOff L s.sieveCodePtr + 35 ≤ sieveOff L v.sieveCodePtr
    omega
  · have hvret : v.tbRetAddr = s.tbRetAddr := by
      rw [hv, hu]
      exact hret
    rw [htarget, hvret, ← hbs, hvmem]
    exact .put_self (by rw [hlen]; decide)

theorem Patches.pointed (h : Patches L s e s') (he : Span e.loc 4 ⊆ codeArea L)
    (hp : sieveOff L s.sieveCodePtr ≤ DEFAULT_SIEVE_BUFFER_SIZE) : Pointed L s e s' := by
  cases h with
  | linked hb hpc htc => exact pointed_linked hb hpc htc hp
  | stubbed ht hcheck => exact pointed_stubbed ht he hp hcheck

/-! ## The loop -/

/-- The fields the loop goes over: in the code, apart, of one block each. -/
structure Separate (L : Layout) (es : List PatchEntry) : Prop where
  code : ∀ e ∈ es, Span e.loc 4 ⊆ codeArea L
  apart : es.Pairwise fun e e' => Disjoint (Span e.loc 4) (Span e'.loc 4)
  once : (es.map (·.tb)).Nodup

/-- Between two iterations, the loop having begun in `t` and done the fields `done`. -/
structure Pointing (L : Layout) (t : State) (done : List PatchEntry) (s : State) : Prop where
  mem : ∀ x, (∀ e ∈ t.patchArray, x ∉ Span e.loc 4) →
    (x ∈ Span L.sieveBuffer DEFAULT_SIEVE_BUFFER_SIZE → x ∈ sieveUpTo L t.sieveCodePtr) → s.mem x = t.mem x
  le : sieveOff L t.sieveCodePtr ≤ sieveOff L s.sieveCodePtr
  room : sieveOff L s.sieveCodePtr ≤ DEFAULT_SIEVE_BUFFER_SIZE
  codePtr : s.codePtr = t.codePtr
  patchArray : s.patchArray = t.patchArray
  tbRetAddr : s.tbRetAddr = t.tbRetAddr
  kept : Kept t s
  sites : ∃ ns, s.log.slots = t.log.slots ++ ns ∧ ns.length = done.length ∧ ∀ f ∈ done.zip ns, LeadsTo L s f ∧ Owned s f

variable {done rest : List PatchEntry}

theorem Pointing.start (h : sieveOff L t.sieveCodePtr ≤ DEFAULT_SIEVE_BUFFER_SIZE) : Pointing L t [] t :=
  ⟨fun _ _ _ => rfl, le_rfl, h, rfl, rfl, rfl, .of_tbs rfl, [], by simp, rfl, fun f hf => absurd hf (by simp)⟩

/-- The next field, which is none of those before. -/
theorem Pointing.step (h : Pointing L t done s) (hp : Pointed L s e s') (hes : Separate L (done ++ e :: rest))
    (ht : t.patchArray = done ++ e :: rest) (he : FieldOk L s e ∨ LeadsBack s e) : Pointing L t (done ++ [e]) s' := by
  obtain ⟨ns, hns, hlen, hsites⟩ := h.sites
  obtain ⟨n, hn, hslot, hleads⟩ := hp.slot
  have hcode : Span e.loc 4 ⊆ codeArea L := hes.code e (by simp)
  have hother : ∀ d ∈ done, Disjoint (Span d.loc 4) (Span e.loc 4) ∧ d.tb ≠ e.tb := fun d hd => by
    have hnd := hes.once
    rw [List.map_append, List.map_cons, List.nodup_append] at hnd
    exact ⟨(List.pairwise_append.mp hes.apart).2.2 d hd e (by simp), hnd.2.2 d.tb (List.mem_map.mpr ⟨d, hd, rfl⟩) e.tb (by simp)⟩
  -- the sieve's code is no field
  have hsieve : ∀ x ∈ Span L.sieveBuffer DEFAULT_SIEVE_BUFFER_SIZE, x ∉ Span e.loc 4 := fun x hx hf =>
    Set.disjoint_left.mp L.code_sieve (hcode hf) hx
  have hup : ∀ x ∈ sieveUpTo L s.sieveCodePtr, x ∈ Span L.sieveBuffer DEFAULT_SIEVE_BUFFER_SIZE := fun x hx =>
    span_mono h.room hx
  refine ⟨fun x hx hs => ?_, h.le.trans hp.le, hp.room, hp.codePtr.trans h.codePtr, hp.patchArray.trans h.patchArray,
    hp.tbRetAddr.trans h.tbRetAddr, h.kept.trans hp.kept, ns ++ [n], ?_, ?_, ?_⟩
  · rw [hp.mem x (hx e (by simp [ht])) fun hin => span_mono h.le (hs hin), h.mem x hx hs]
  · rw [hn, hns, List.append_assoc]
  · rw [List.length_append, List.length_append, hlen]
    rfl
  · intro f hf
    rw [List.zip_append hlen.symm] at hf
    rcases List.mem_append.mp hf with hf | hf
    · obtain ⟨hl, ho⟩ := hsites f hf
      obtain ⟨hdis, htb⟩ := hother f.1 (List.of_mem_zip hf).1
      have hfc : Span f.1.loc 4 ⊆ codeArea L := hes.code f.1 (List.mem_append_left _ (List.of_mem_zip hf).1)
      refine ⟨hl.keep (fun x hx => ?_) (fun x hx => hp.mem x (hsieve x (hup x hx)) fun _ => hx) hp.le hp.tbRetAddr hp.kept.code,
        ho.keep fun b hb => ?_⟩
      · exact hp.mem x (Set.disjoint_left.mp hdis hx) fun hin => absurd hin (Set.disjoint_left.mp L.code_sieve (hfc hx))
      · obtain ⟨c, hc, hcore, hoff⟩ := hslot _ b hb
        simp only [TranslationBlock.core, Prod.mk.injEq] at hcore
        rw [if_neg htb] at hoff
        exact ⟨c, hc, hcore.1, fun _ => ⟨hcore.2.1, hoff⟩⟩
    · have hf : f ∈ [(e, n)] := hf
      obtain rfl := List.mem_singleton.mp hf
      exact ⟨hleads, hslot.owned he⟩

theorem Pointing.lazyPatch : ∀ (rest : List PatchEntry) {done : List PatchEntry} {s : State}, t.patchArray = done ++ rest →
    Separate L (done ++ rest) → Pointing L t done s → Linking L s₀ t.patchArray t.log.slots done s →
      (rest.foldlM (fun s e => State.lazyPatchEntry L s e) s).Ensures (Pointing L t t.patchArray)
  | [], done, s, ht, _, h, _ => by
    rw [List.append_nil] at ht
    rw [List.foldlM_nil, ensures_pure]
    exact ht ▸ h
  | e :: rest, done, s, ht, hes, h, hl => by
    rw [List.foldlM_cons, ensures_bind]
    have he : e ∈ t.patchArray := by simp [ht]
    refine ((lazyPatchEntry_spec s e).and (hl.lazyPatchEntry he)).mono fun s₁ hs₁ => ?_
    obtain ⟨hp, hl₁⟩ := hs₁
    have hp₁ := h.step (hp.pointed (hes.code e (by simp)) h.room) hes ht (hl.fields e he).2
    exact Pointing.lazyPatch rest (by rw [ht, List.append_assoc]; rfl) (by rw [List.append_assoc]; exact hes) hp₁ hl₁

/-! ## A superblock -/

variable {A : Set Word} {tb : Nat} {ds : Decode}

/-- The loop from its first instruction on, when that instruction gives `I`. -/
theorem genInsns_ensures_first {G : State.GenLoop} {I Q : State → Prop} {s₁ : State} {ds₁ : Decode} {left : Nat}
    (hfirst : (s₁.genInsn L img G ds₁).Ensures fun (_, cont, s₂) => if cont then I s₂ else Q s₂)
    (hinsn : ∀ {left s₁ ds₁}, Head L img G s ds tb left s₁ ds₁ → I s₁ →
      (s₁.genInsn L img G ds₁).Ensures fun (_, cont, s₂) => if cont then I s₂ else Q s₂)
    (hlimit : ∀ s₁, I s₁ → (s₁.limitExit L G).Ensures Q) (hd : Head L img G s ds tb left s₁ ds₁) :
    (s₁.genInsns L img G left ds₁).Ensures Q := by
  cases left with
  | zero =>
    rw [State.genInsns, ensures_bind]
    refine hfirst.mono fun p hs₂ => ?_
    obtain ⟨ds₂, cont, s₂⟩ := p
    cases cont with
    | false => exact ensures_pure.mpr hs₂
    | true =>
      simp only [Bool.not_true, Bool.false_eq_true, if_false, ensures_ite]
      exact ⟨fun _ => hlimit _ hs₂, fun _ => hlimit _ hs₂⟩
  | succ left =>
    rw [State.genInsns, ensures_bind]
    intro p h₂
    have hs₂ := hfirst p h₂
    obtain ⟨ds₂, cont, s₂⟩ := p
    cases cont with
    | false => exact ensures_pure.mpr hs₂
    | true =>
      simp only [Bool.not_true, Bool.false_eq_true, if_false, ensures_ite]
      refine ⟨fun _ => hlimit _ hs₂, fun hlt => genInsns_ensures hinsn hlimit left (.next hd h₂ ?_) hs₂⟩
      rw [not_or] at hlt
      omega

/-- Block `tb` has code, and as long as it is the current one its code is not behind what was emitted. -/
def Begun (L : Layout) (tb : Nat) (s : State) : Prop :=
  ∃ b, s.tbs[tb]? = some b ∧ b.tcPtr ≠ NOT_TRANS_YET ∧ (s.curTb = tb → codeOff L b.tcPtr ≤ codeOff L s.codePtr)

/-- It has code, and as long as it is the current one some of it was emitted. -/
def Started (L : Layout) (tb : Nat) (s : State) : Prop :=
  ∃ b, s.tbs[tb]? = some b ∧ b.tcPtr ≠ NOT_TRANS_YET ∧ (s.curTb = tb → codeOff L b.tcPtr < codeOff L s.codePtr)

/-- Block `tb` has code. -/
def HasCode (tb : Nat) (s : State) : Prop := ∃ b, s.tbs[tb]? = some b ∧ b.tcPtr ≠ NOT_TRANS_YET

theorem Begun.genInsn (h : Begun L tb s) (hp : codeOff L s.codePtr ≤ DEFAULT_CODE_GEN_BUFFER_SIZE) (hi : ShortInsns img) :
    (s.genInsn L img .target ds).Ensures fun (_, cont, s') => if cont then Started L tb s' else HasCode tb s' := by
  refine (genInsn_spec s ds).mono fun p hspec => ?_
  obtain ⟨r, cont, s'⟩ := p
  obtain ⟨ok, s₁, hr, he, hcheck, rfl⟩ := hspec
  obtain ⟨hmoves, hlen⟩ := hi _ _ _ _ hr
  have hsize : DEFAULT_CODE_GEN_BUFFER_SIZE = 134217728 := rfl
  have hlen : (s.beginInsn r ok).insnLen.toNat ≤ 2 ^ 31 := hlen
  have hne : (s.beginInsn r ok).insnLen ≠ 0 := fun h0 => hmoves (sub_eq_zero.mp h0)
  obtain ⟨bs, hbs, -, hptr, -⟩ := (he.adds hlen).code
  have hptr : s₁.codePtr = s.codePtr + BitVec.ofNat 32 bs.length := hptr
  have hfit := add_le_of_check (n := bs.length) hp (by omega) (hptr ▸ hcheck)
  have hoff : codeOff L s₁.codePtr = codeOff L s.codePtr + bs.length := by
    rw [hptr]
    exact codeOff_add (by omega) hp
  have hblocks : Blocks Set.univ (s.beginInsn r ok) s₁ := he.blocks (Set.subset_univ _)
  obtain ⟨b, hb, htc, hle⟩ := h
  obtain ⟨c, hc, hafter⟩ := hblocks.old tb b hb
  have htc' : c.tcPtr = b.tcPtr := hafter.tcPtr.resolve_right fun h => htc h.1
  obtain ⟨d, hd, hdtc⟩ : ∃ d, (s₁.updTb (State.GenLoop.target.who s₁) (·.incInsnCount)).tbs[tb]? = some d ∧ d.tcPtr = b.tcPtr := by
    obtain ⟨d, hd, -, hdtc, -⟩ := exists_core (cores_updTb s₁ (State.GenLoop.target.who s₁) (f := (·.incInsnCount))
      fun _ => ⟨rfl, rfl, rfl⟩) hc
    exact ⟨d, hd, hdtc.trans htc'⟩
  cases cont with
  | false => exact ⟨d, hd, hdtc ▸ htc⟩
  | true =>
    refine ⟨d, hd, hdtc ▸ htc, fun hcur => ?_⟩
    have hcur : s₁.curTb = tb := hcur
    show codeOff L d.tcPtr < codeOff L s₁.codePtr
    rw [hdtc]
    rcases hblocks.cur with hsame | ⟨hnty, -⟩
    · have hs : s.curTb = tb := by
        rw [← hcur, hsame]
        rfl
      obtain ⟨-, -, hstays⟩ := he.stays (b := b) (by show s.tbs[s.curTb]? = _; rw [hs, hb]) htc hsame
      have hgrows : s₁.codePtr ≠ s.codePtr := fun heq => hne (hstays heq hlen)
      have hpos : bs.length ≠ 0 := fun h0 => hgrows (by
        rw [hptr, h0]
        exact BitVec.add_zero _)
      have := hle hs
      omega
    · exact absurd (hnty b (by rw [hcur]; exact hb)) htc

theorem Started.begun (h : Started L tb s) : Begun L tb s := by
  obtain ⟨b, hb, htc, hlt⟩ := h
  exact ⟨b, hb, htc, fun hc => (hlt hc).le⟩

theorem cores_noted (s : State) (bs : List Byte) (e : PatchEntry) : ((s.emit bs).noted e).cores = s.cores :=
  cores_updTb ((s.emit bs).addPatch e) e.tb fun _ => ⟨rfl, rfl, rfl⟩

theorem Started.limitExit (h : Started L tb s) : (s.limitExit L .target).Ensures (HasCode tb) := by
  simp only [State.limitExit, State.GenLoop.target, ensures_bind, ensures_pure]
  refine (s.tb_ensures s.curTb).mono fun b hb => ?_
  obtain ⟨t, ht⟩ : ∃ t, t = if b.tcPtr = s.codePtr then s.updTb s.curTb (·.setTcPtr NOT_TRANS_YET) else s := ⟨_, rfl⟩
  rw [← ht]
  refine (notePatch_spec L _ _ _ _ _ _).mono fun s₁ hs₁ _ _ => ?_
  subst hs₁
  obtain ⟨c, hc, htc, hlt⟩ := h
  have hct : t.tbs[tb]? = some c := by
    rw [ht]
    split
    · rename_i hreset
      by_cases hcur : s.curTb = tb
      · rw [hcur] at hb
        obtain rfl : c = b := Option.some.inj (hc.symm.trans hb)
        have hlt := hlt hcur
        rw [hreset] at hlt
        exact absurd hlt (lt_irrefl _)
      · show (s.tbs.modify s.curTb _)[tb]? = _
        rw [List.getElem?_modify, hc]
        simp [hcur]
    · exact hc
  obtain ⟨d, hd, -, hdtc, -⟩ := exists_core (cores_noted t _ _) hct
  exact ⟨d, hd, hdtc ▸ htc⟩

/-- The first block of a superblock gets code. -/
theorem genInsns_hasCode {b : TranslationBlock} (hs : HasRoom L s) (hi : ShortInsns img) (hch : Chained L s)
    (htb : ∀ b, s.tbs[tb]? = some b → b.tcPtr = NOT_TRANS_YET) (hb : (s.placed tb).tbs[tb]? = some b)
    (hhead : Head L img .target (s.placed tb) ds tb MAX_INSNS ((s.placed tb).beginSuperblock b tb) ds) :
    (((s.placed tb).beginSuperblock b tb).genInsns L img .target MAX_INSNS ds).Ensures (HasCode tb) := by
  have hgen := Generating.start hs hch htb hb
  obtain ⟨b', hb', htc, hle, -⟩ := hgen.cur
  refine genInsns_ensures_first (I := fun s' => Started L tb s' ∧ Generating L s s')
    (((Begun.genInsn ⟨b', hb', htc, fun _ => hle⟩ hgen.codePtr hi).and (hgen.genInsn hi)).mono fun p hp => ?_)
    (fun _ hw => ((hw.1.begun.genInsn hw.2.codePtr hi).and (hw.2.genInsn hi)).mono fun p hp => ?_)
    (fun s₁ hw => hw.1.limitExit) hhead
  · obtain ⟨r, cont, s₂⟩ := p
    cases cont with
    | false => exact hp.1
    | true => exact ⟨hp.1, hp.2.2 rfl⟩
  · obtain ⟨r, cont, s₂⟩ := p
    cases cont with
    | false => exact hp.1
    | true => exact ⟨hp.1, hp.2.2 rfl⟩

theorem beginSuperblock_head {b : TranslationBlock} (hb : (s.placed tb).tb tb = .ok b)
    (hroom : abortIf (((s.placed tb).beginSuperblock b tb).stbs.length ≥ STB_MAX) "stb count overflow\n" = .ok ()) :
    Head L img .target (s.placed tb) ds tb MAX_INSNS ((s.placed tb).beginSuperblock b tb) ds := by
  refine .start hb ?_
  rw [abortIf] at hroom
  split at hroom
  · cases hroom
  · simp_all [State.beginSuperblock]

/-- A block without code has code behind `cpu_gen_code`. -/
theorem cpuGenCode_hasCode (hs : HasRoom L s) (hi : ShortInsns img) (hch : Chained L s)
    (htb : ∀ b, s.tbs[tb]? = some b → b.tcPtr = NOT_TRANS_YET) : (s.cpuGenCode L img ds tb).Ensures (HasCode tb) := by
  have hplaced : s.cpuGenCode L img ds tb = (s.placed tb).genSuperblock L img .target ds tb := rfl
  rw [hplaced]
  simp only [State.genSuperblock, ensures_bind, ensures_pure]
  intro b hb _ hroom
  have hget : (s.placed tb).tbs[tb]? = some b := State.tb_ensures _ _ b hb
  refine (genInsns_hasCode hs hi hch htb hget (beginSuperblock_head hb hroom)).mono fun t ht => ?_
  refine (lazyPatch_kept (t.setPcEnd _)).mono fun u hu _ _ => ?_
  obtain ⟨c, hc, htc⟩ := ht
  have hsites : (u.setCodeGenPtr.updTb tb fun b => b.setHcodeSize ((u.setCodeGenPtr.codeGenPtr - b.tcPtr).setWidth 16)).sites =
      u.sites := sites_updTb _ _ (fun _ => ⟨rfl, rfl, rfl⟩) fun _ => rfl
  obtain ⟨d, hd, -, hdtc⟩ := (hu.trans (.of_sites hsites)).code tb c hc htc
  exact ⟨d, hd, hdtc ▸ htc⟩

/-- The block `get_next_tb` finds is the one of the address, and has code. -/
theorem getNextTb_entered (hs : HasRoom L s) (hi : ShortInsns img) (hch : Chained L s) (pc prev : Word) :
    (s.getNextTb L img ds pc prev).Ensures fun r => ∃ b, r.2.tbs[r.1]? = some b ∧ b.pc = pc ∧ b.tcPtr ≠ NOT_TRANS_YET := by
  -- a block that is translated now keeps its address
  have hgen : ∀ {t : State} {i : Nat} {b : TranslationBlock}, HasRoom L t → Chained L t → t.tbs[i]? = some b → b.pc = pc →
      b.tcPtr = NOT_TRANS_YET → (t.cpuGenCode L img ds i).Ensures fun u => ∃ c, u.tbs[i]? = some c ∧ c.pc = pc ∧
        c.tcPtr ≠ NOT_TRANS_YET := fun {t i b} hst hcht hb hpc hnt => by
    have hnty : ∀ b', t.tbs[i]? = some b' → b'.tcPtr = NOT_TRANS_YET := fun b' h => by
      rw [← Option.some.inj (hb.symm.trans h), hnt]
    refine ((cpuGenCode_hasCode hst hi hcht hnty).and (cpuGenCode_translates hst hi hcht hnty)).mono fun u hu => ?_
    obtain ⟨⟨c, hc, htc⟩, htrans⟩ := hu
    obtain ⟨d, hd, hdpc⟩ := htrans.pcs i b hb
    obtain rfl : c = d := Option.some.inj (hc.symm.trans hd)
    exact ⟨c, hc, hdpc.trans hpc, htc⟩
  simp only [State.getNextTb, ensures_bind]
  refine (tbFindFast_frame s pc NORMAL_TB_TAG).mono fun p hp => ?_
  obtain ⟨d, t⟩ := p
  obtain ⟨⟨c, rfl⟩, hfound⟩ := hp
  have hch₁ : Chained L (s.withCache c) := hch.congr rfl
  cases d with
  | none =>
    simp only [ensures_bind, ensures_pure]
    intro f _
    refine makeTb_spec.mono fun p hp => ?_
    obtain ⟨tb, u⟩ := p
    obtain ⟨rfl, rfl⟩ := hp
    have hm : MakesOne (s.withCache c) ((s.withCache c).withNewTb pc f) := ⟨_, rfl, rfl⟩
    have hnew : ((s.withCache c).withNewTb pc f).tbs[s.tbs.length]? = some (newTb (s.withCache c) pc f) := by
      show (s.tbs ++ [_])[s.tbs.length]? = _
      simp
    exact hgen ⟨hs.codeGenPtr, hs.sieveCodePtr⟩ (hm.chained hch₁) hnew rfl rfl
  | some d =>
    obtain ⟨b, hb, hpc⟩ := hfound d rfl
    simp only [ensures_bind, ensures_ite, ensures_pure]
    refine ((s.withCache c).tb_ensures d).mono fun b' hb' => ?_
    obtain rfl : b = b' := Option.some.inj (hb.symm.trans hb')
    exact ⟨hgen ⟨hs.codeGenPtr, hs.sieveCodePtr⟩ hch₁ hb' hpc, fun ht => ⟨b, hb', hpc, ht⟩⟩

/-- The fields of the last superblock. -/
def State.fields (s : State) : List Site :=
  s.patchArray.zip (s.log.slots.drop (s.log.slots.length - s.patchArray.length))

/-- What a translation leaves, where the fields at `A` were: what was emitted is as it was, the new fields lead where
they should, apart from one another and from the chains. -/
structure Extends (L : Layout) (A : Set Word) (s s' : State) : Prop where
  code : ∀ x ∈ codeUpTo L s.codeGenPtr, s'.mem x = s.mem x
  sieve : ∀ x ∈ sieveUpTo L s.sieveCodePtr, s'.mem x = s.mem x
  codeGenPtr : codeOff L s.codeGenPtr ≤ codeOff L s'.codeGenPtr
  sieveCodePtr : sieveOff L s.sieveCodePtr ≤ sieveOff L s'.sieveCodePtr
  tbRetAddr : s'.tbRetAddr = s.tbRetAddr
  fields : ∀ f ∈ s'.fields, LeadsTo L s' f ∧ Owned s' f ∧
    codeOff L s.codeGenPtr ≤ codeOff L f.1.loc ∧ codeOff L f.1.loc + 4 ≤ codeOff L s'.codeGenPtr
  apart : ∀ f ∈ s'.fields, ∀ g ∈ s'.fields, f ≠ g → Disjoint (Span f.1.loc 4) (Span g.1.loc 4)
  chains : Chains (codeBut L (A ∪ {l | ∃ f ∈ s'.fields, f.1.loc = l}) s'.codeGenPtr) s'

theorem Drawing.separate (h : Drawing L A s₀ s) (honce : (s.patchArray.map (·.tb)).Nodup) : Separate L s.patchArray := by
  have hsize : DEFAULT_CODE_GEN_BUFFER_SIZE = 134217728 := rfl
  have hptr := h.codePtr
  refine ⟨fun e he => span_subset ?_, h.apart.imp_of_mem fun {d e} hd he hle => ?_, honce⟩
  · have := (h.fields e he).2
    show codeOff L e.loc + 4 ≤ _
    omega
  · have := (h.fields e he).2
    exact disjoint_of_codeOff hle (by omega)

theorem Drawing.start {b : TranslationBlock} (hs : HasRoom L s) (hc : Chains (codeBut L A s.codeGenPtr) s)
    (hb : (s.placed tb).tbs[tb]? = some b) : Drawing L A s ((s.placed tb).beginSuperblock b tb) := by
  have hptr : b.tcPtr = s.codeGenPtr := by
    have hb : (s.tbs.modify tb (·.setTcPtr s.codeGenPtr))[tb]? = some b := hb
    rw [List.getElem?_modify_eq, Option.map_eq_map, Option.map_eq_some_iff] at hb
    obtain ⟨c, -, rfl⟩ := hb
    rfl
  have hcode : ((s.placed tb).beginSuperblock b tb).codePtr = s.codeGenPtr := hptr
  refine ⟨by rw [hcode], by rw [hcode]; exact hs.codeGenPtr, fun _ _ => rfl, rfl, rfl,
    fun e he => absurd he List.not_mem_nil, List.Pairwise.nil, ?_⟩
  have hlocs : A ∪ ((s.placed tb).beginSuperblock b tb).locs = A := by
    refine Set.union_eq_left.mpr fun l hl => ?_
    obtain ⟨e, he, -⟩ := hl
    exact absurd he List.not_mem_nil
  rw [hcode, hlocs]
  have hplaced : Chains (codeBut L A s.codeGenPtr) (s.placed tb) := hc.updTb tb fun _ => rfl
  exact hplaced.congr rfl

theorem Pointing.fields (h : Pointing L t t.patchArray s) (ha : s'.patchArray = s.patchArray) (hl : s'.log = s.log) :
    ∃ ns, ns.length = t.patchArray.length ∧ s'.fields = t.patchArray.zip ns ∧
      ∀ f ∈ t.patchArray.zip ns, LeadsTo L s f ∧ Owned s f := by
  obtain ⟨ns, hns, hlen, hsites⟩ := h.sites
  refine ⟨ns, hlen, ?_, hsites⟩
  rw [State.fields, ha, hl, h.patchArray, hns, List.length_append, hlen, Nat.add_sub_cancel, List.drop_left]

/-- The state behind `lazy_patch`, once `code_gen_ptr` is behind the code. -/
theorem Pointing.extendsCode (hd : Drawing L A s₀ t) (hsep : Separate L t.patchArray) (h : Pointing L t t.patchArray s)
    (hs₀ : HasRoom L s₀) (hm : s'.mem = s.mem) (hp : s'.codeGenPtr = s.codePtr) (hsp : s'.sieveCodePtr = s.sieveCodePtr)
    (hr : s'.tbRetAddr = s.tbRetAddr) (ha : s'.patchArray = s.patchArray) (hl : s'.log = s.log) (hsites : s'.sites = s.sites) :
    Extends L A s₀ s' := by
  have hsize : DEFAULT_CODE_GEN_BUFFER_SIZE = 134217728 := rfl
  obtain ⟨ns, hlen, hf, hns⟩ := h.fields ha hl
  have hptr : codeOff L s'.codeGenPtr = codeOff L t.codePtr := by rw [hp, h.codePtr]
  have hin : ∀ f ∈ s'.fields, f.1 ∈ t.patchArray := fun f hff => by
    rw [hf] at hff
    exact (List.of_mem_zip hff).1
  have hcodeptr := hd.codePtr
  -- what was emitted before is no field of this superblock
  have hbehind : ∀ x ∈ codeUpTo L s₀.codeGenPtr, ∀ e ∈ t.patchArray, x ∉ Span e.loc 4 := fun x hx e he hxe => by
    have h₁ := mem_codeUpTo.mp hx
    have h₂ := hd.fields e he
    have h₃ := codeOff_of_mem (L := L) hxe (by omega)
    omega
  have hnotSieve : ∀ x ∈ codeArea L, x ∉ Span L.sieveBuffer DEFAULT_SIEVE_BUFFER_SIZE := fun x hx =>
    Set.disjoint_left.mp L.code_sieve hx
  refine ⟨fun x hx => ?_, fun x hx => ?_, by rw [hptr]; exact hd.le, ?_, (hr.trans h.tbRetAddr).trans hd.tbRetAddr,
    fun f hff => ?_, fun f hff g hg hne => ?_, ?_⟩
  · have hxc : x ∈ codeArea L := span_mono hs₀.codeGenPtr hx
    rw [hm, h.mem x (hbehind x hx) fun hin => absurd hin (hnotSieve x hxc), hd.mem x fun _ => hx]
  · have hxs : x ∈ Span L.sieveBuffer DEFAULT_SIEVE_BUFFER_SIZE := span_mono hs₀.sieveCodePtr hx
    have hxc : x ∉ codeArea L := fun hc => hnotSieve x hc hxs
    rw [hm, h.mem x (fun e he hxe => hxc (hsep.code e he hxe)) fun _ => by rw [hd.sieveCodePtr]; exact hx,
      hd.mem x fun hc => absurd hc hxc]
  · rw [hsp, ← hd.sieveCodePtr]
    exact h.le
  · have hzip := hff
    rw [hf] at hzip
    obtain ⟨hleads, howned⟩ := hns f hzip
    refine ⟨hleads.keep (fun x _ => by rw [hm]) (fun x _ => by rw [hm]) (by rw [hsp]) hr (Kept.of_sites hsites).code,
      howned.of_sites hsites, ?_⟩
    rw [hptr]
    exact hd.fields f.1 (hin f hff)
  · have hpair : (t.patchArray.zip ns).Pairwise fun f g => Disjoint (Span f.1.loc 4) (Span g.1.loc 4) := by
      refine List.Pairwise.of_map (R := fun f g : Site => Disjoint (Span f.1.loc 4) (Span g.1.loc 4)) Prod.fst
        (S := fun e e' : PatchEntry => Disjoint (Span e.loc 4) (Span e'.loc 4)) (fun _ _ => id) ?_
      rw [List.map_fst_zip hlen.ge]
      exact hsep.apart
    rw [hf] at hff hg
    have : Std.Symm fun f g : Site => Disjoint (Span f.1.loc 4) (Span g.1.loc 4) := ⟨fun _ _ h => h.symm⟩
    exact hpair.forall hff hg hne
  · have hlocs : {l | ∃ f ∈ s'.fields, f.1.loc = l} = t.locs := by
      ext l
      rw [hf]
      constructor
      · intro hx
        obtain ⟨f, hf, rfl⟩ := hx
        exact ⟨f.1, (List.of_mem_zip hf).1, rfl⟩
      · intro hx
        obtain ⟨e, he, rfl⟩ := hx
        have hfst : (t.patchArray.zip ns).map Prod.fst = t.patchArray := List.map_fst_zip hlen.ge
        rw [← hfst] at he
        obtain ⟨f, hf, rfl⟩ := List.mem_map.mp he
        exact ⟨f, hf, rfl⟩
    rw [hlocs, hp, h.codePtr]
    exact (h.kept.trans (.of_sites hsites)).chains hd.chains

/-- `cpu_gen_code`, for a block without code. -/
theorem cpuGenCode_extends (hs : HasRoom L s) (hset : Settled L s) (hi : ShortInsns img) (hch : Chained L s)
    (htb : ∀ b, s.tbs[tb]? = some b → b.tcPtr = NOT_TRANS_YET) (hA : ∀ l ∈ A, codeOff L l + 4 ≤ codeOff L s.codeGenPtr)
    (hc : Chains (codeBut L A s.codeGenPtr) s) :
    (s.cpuGenCode L img ds tb).Ensures (Extends L A s) := by
  have hplaced : s.cpuGenCode L img ds tb = (s.placed tb).genSuperblock L img .target ds tb := rfl
  rw [hplaced]
  simp only [State.genSuperblock, ensures_bind, ensures_pure]
  intro b hb _ hroom
  have hget : (s.placed tb).tbs[tb]? = some b := State.tb_ensures _ _ b hb
  have hhead : Head L img .target (s.placed tb) ds tb MAX_INSNS ((s.placed tb).beginSuperblock b tb) ds :=
    beginSuperblock_head hb hroom
  have hgen := Generating.start hs hch htb hget
  -- the loop, for each of the three invariants
  have hdrawn : (((s.placed tb).beginSuperblock b tb).genInsns L img .target MAX_INSNS ds).Ensures (Drawing L A s) :=
    @genInsns_ensures L img .target (s.placed tb) ds tb (Drawing L A s) (Drawing L A s)
      (fun _ hw => (hw.genInsn hA hi).mono fun p hp => by
        obtain ⟨r, cont, s₂⟩ := p
        cases cont with
        | false => exact hp
        | true => exact hp)
      (fun s₁ hw => hw.limitExit hA) MAX_INSNS _ _ hhead (.start hs hc hget)
  have hgenerated : (((s.placed tb).beginSuperblock b tb).genInsns L img .target MAX_INSNS ds).Ensures (Generated L s) :=
    @genInsns_ensures L img .target (s.placed tb) ds tb (Generating L s) (Generated L s)
      (fun _ hw => (hw.genInsn hi).mono fun p hp => by
        obtain ⟨r, cont, s₂⟩ := p
        cases cont with
        | false => exact hp.1
        | true => exact hp.2 rfl)
      (fun s₁ hw => hw.limitExit) MAX_INSNS _ _ hhead hgen
  refine ((hdrawn.and hgenerated).and (genInsns_books hset hhead)).mono fun t ht => ?_
  obtain ⟨⟨hd, hg⟩, hbooks, -⟩ := ht
  obtain ⟨u, hu⟩ : ∃ u, u = t.setPcEnd (s.placed tb).stbs.length := ⟨_, rfl⟩
  have hsep : Separate L u.patchArray := by
    have hsep := hd.separate hbooks.once
    rw [hu]
    exact hsep
  have hlink : Linking L s u.patchArray u.log.slots [] u := by
    rw [hu]
    exact ⟨hg.chained.congr rfl, hg.pcs.congr rfl, rfl, fun e he => (hg.patches e he).imp_right fun h =>
      h.imp (·.congr rfl) (·.congr rfl), [], by simp [State.setPcEnd], rfl, fun i e n h => absurd h (by simp)⟩
  have hroom : sieveOff L u.sieveCodePtr ≤ DEFAULT_SIEVE_BUFFER_SIZE := by
    have hsp : u.sieveCodePtr = s.sieveCodePtr := by
      rw [hu]
      exact hd.sieveCodePtr
    rw [hsp]
    exact hs.sieveCodePtr
  rw [← hu]
  refine (Pointing.lazyPatch u.patchArray (List.nil_append _).symm hsep (.start hroom) hlink).mono fun v hv => ?_
  intro _ _
  have hdu : Drawing L A s u := by
    rw [hu]
    exact hd.congr rfl rfl rfl rfl rfl fun _ hc => hc.congr rfl
  have hsites : (v.setCodeGenPtr.updTb tb fun b => b.setHcodeSize ((v.setCodeGenPtr.codeGenPtr - b.tcPtr).setWidth 16)).sites =
      v.sites := sites_updTb _ _ (fun _ => ⟨rfl, rfl, rfl⟩) fun _ => rfl
  exact hv.extendsCode hdu hsep hs rfl rfl rfl rfl rfl rfl hsites

theorem Extends.of_start (h : Extends L A s s') (hm : s.mem = s₀.mem) (hp : s.codeGenPtr = s₀.codeGenPtr)
    (hs : s.sieveCodePtr = s₀.sieveCodePtr) (hr : s.tbRetAddr = s₀.tbRetAddr) : Extends L A s₀ s' := by
  refine ⟨fun x hx => ?_, fun x hx => ?_, hp ▸ h.codeGenPtr, hs ▸ h.sieveCodePtr, h.tbRetAddr.trans hr, fun f hf => ?_,
    h.apart, h.chains⟩
  · rw [← hm]
    exact h.code x (hp ▸ hx)
  · rw [← hm]
    exact h.sieve x (hs ▸ hx)
  · rw [← hp]
    exact h.fields f hf

/-- `get_next_tb`: what was there stays. -/
theorem getNextTb_extends (hs : HasRoom L s) (hset : Settled L s) (hi : ShortInsns img) (hch : Chained L s)
    (hA : ∀ l ∈ A, codeOff L l + 4 ≤ codeOff L s.codeGenPtr) (hc : Chains (codeBut L A s.codeGenPtr) s) (pc prev : Word) :
    (s.getNextTb L img ds pc prev).Ensures fun r => Extends L A s r.2 ∨ ∃ c, r.2 = s.withCache c := by
  simp only [State.getNextTb, ensures_bind]
  refine (tbFindFast_frame s pc NORMAL_TB_TAG).mono fun p hp => ?_
  obtain ⟨d, t⟩ := p
  obtain ⟨⟨c, rfl⟩, hfound⟩ := hp
  have hs₁ : HasRoom L (s.withCache c) := ⟨hs.codeGenPtr, hs.sieveCodePtr⟩
  have hset₁ : Settled L (s.withCache c) := hset.congr (State.books_withCache _ _)
  have hch₁ : Chained L (s.withCache c) := hch.congr rfl
  have hc₁ : Chains (codeBut L A s.codeGenPtr) (s.withCache c) := hc.congr rfl
  cases d with
  | none =>
    simp only [ensures_bind, ensures_pure]
    intro f _
    refine makeTb_spec.mono fun p hp => ?_
    obtain ⟨tb, u⟩ := p
    obtain ⟨rfl, rfl⟩ := hp
    have hm : MakesOne (s.withCache c) ((s.withCache c).withNewTb pc f) := ⟨_, rfl, rfl⟩
    have hset₂ : Settled L ((s.withCache c).withNewTb pc f) :=
      ⟨by rw [State.books_withNewTb]; exact hset₁.balanced.make _, hset₁.room⟩
    have hnew : ((s.withCache c).withNewTb pc f).tbs[s.tbs.length]? = some (newTb (s.withCache c) pc f) := by
      show (s.tbs ++ [_])[s.tbs.length]? = _
      simp
    have hnty : ∀ b, ((s.withCache c).withNewTb pc f).tbs[s.tbs.length]? = some b → b.tcPtr = NOT_TRANS_YET := fun b hb => by
      rw [← Option.some.inj (hnew.symm.trans hb)]
      rfl
    have hs₂ : HasRoom L ((s.withCache c).withNewTb pc f) := ⟨hs.codeGenPtr, hs.sieveCodePtr⟩
    refine (cpuGenCode_extends hs₂ hset₂ hi (hm.chained hch₁) hnty hA (hc₁.makesOne hm)).mono fun u hu => ?_
    exact Or.inl (hu.of_start rfl rfl rfl rfl)
  | some d =>
    obtain ⟨b, hb, hpc⟩ := hfound d rfl
    simp only [ensures_bind, ensures_ite, ensures_pure]
    refine ((s.withCache c).tb_ensures d).mono fun b' hb' => ?_
    obtain rfl : b = b' := Option.some.inj (hb.symm.trans hb')
    refine ⟨fun ht => ?_, fun ht => Or.inr ⟨c, rfl⟩⟩
    have hnty : ∀ b', (s.withCache c).tbs[d]? = some b' → b'.tcPtr = NOT_TRANS_YET := fun b' h => by
      rw [← Option.some.inj (hb'.symm.trans h), ht]
    refine (cpuGenCode_extends hs₁ hset₁ hi hch₁ hnty hA hc₁).mono fun u hu => ?_
    exact Or.inl (hu.of_start rfl rfl rfl rfl)

end Unitrans
