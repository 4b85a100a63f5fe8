/-
Where the fields of direct branches lead. A translation emits code behind what
there was, and no two of its fields, nor a field and an inline chain, share a
byte (`Drawing`); `lazy_patch` makes each field lead to the code of its
destination or to a stub of its own, and records where it is (`Pointing`).
-/
import Unitrans.Links

namespace Unitrans

open X86 FirstArrival Except

variable {L : Layout} {img : Mem} {s₀ s t s' : State}

/-! ## Places in the buffers -/

/-- The code emitted up to `p`. -/
def codeUpTo (L : Layout) (p : Word) : Set Word := Span L.codeGenBuffer (codeOff L p)

/-- Where an address lies in the sieve's buffer. -/
def sieveOff (L : Layout) (p : Word) : Nat := (p - L.sieveBuffer).toNat

/-- The sieve's code up to `p`. -/
def sieveUpTo (L : Layout) (p : Word) : Set Word := Span L.sieveBuffer (sieveOff L p)

/-- The code up to `p` less the fields at `A`. -/
def codeBut (L : Layout) (A : Set Word) (p : Word) : Set Word := {x | x ∈ codeUpTo L p ∧ ∀ l ∈ A, x ∉ Span l 4}

theorem mem_codeUpTo {p x : Word} : x ∈ codeUpTo L p ↔ codeOff L x < codeOff L p := Iff.rfl

theorem mem_codeArea {x : Word} : x ∈ codeArea L ↔ codeOff L x < DEFAULT_CODE_GEN_BUFFER_SIZE := Iff.rfl

theorem offset_of_mem {a l x : Word} {n : Nat} (hx : x ∈ Span l n) (hl : (l - a).toNat + n ≤ 2 ^ 32) :
    (l - a).toNat ≤ (x - a).toNat ∧ (x - a).toNat < (l - a).toNat + n := by
  have hx : (x - l).toNat < n := hx
  have hsplit : x - a = (x - l) + (l - a) := by ring
  rw [hsplit, BitVec.toNat_add, Nat.mod_eq_of_lt (by omega)]
  omega

theorem codeOff_of_mem {l x : Word} {n : Nat} (hx : x ∈ Span l n) (hl : codeOff L l + n ≤ 2 ^ 32) :
    codeOff L l ≤ codeOff L x ∧ codeOff L x < codeOff L l + n := offset_of_mem hx hl

/-- Spans one behind the other share nothing. -/
theorem disjoint_of_codeOff {l k : Word} {m n : Nat} (h : codeOff L l + m ≤ codeOff L k) (hk : codeOff L k + n ≤ 2 ^ 32) :
    Disjoint (Span l m) (Span k n) := disjoint_span_of_le h hk

theorem codeBut_mono {A B : Set Word} {p q : Word} (hp : codeOff L p ≤ codeOff L q) (h : ∀ l ∈ B, l ∈ A ∨ ∀ x ∈ codeUpTo L p, x ∉ Span l 4) :
    codeBut L A p ⊆ codeBut L B q := by
  intro x hx
  obtain ⟨hx, hA⟩ := hx
  refine ⟨lt_of_lt_of_le (mem_codeUpTo.mp hx) hp, fun l hl => ?_⟩
  rcases h l hl with hl | hl
  · exact hA l hl
  · exact hl x hx

/-! ## Chains -/

theorem ChainIn.mono {A B : Set Word} {b : TranslationBlock} (h : ChainIn A b) (hAB : A ⊆ B) : ChainIn B b :=
  ⟨fun i hi => (h.src i hi).trans hAB, fun i hi => (h.dest i hi).trans hAB, h.enter.trans hAB⟩

/-- The inline chains are in `A`. -/
def Chains (A : Set Word) (s : State) : Prop :=
  ∀ (i : Nat) (b : TranslationBlock), s.tbs[i]? = some b → b.type ≠ NOT_IND → ChainIn A b

theorem Chains.mono {A B : Set Word} (h : Chains A s) (hAB : A ⊆ B) : Chains B s := fun i b hb hty => (h i b hb hty).mono hAB

theorem Chains.step {A B : Set Word} (h : Chains A s) (hb : Blocks B s s') : Chains (A ∪ B) s' := by
  intro i c hc hty
  rcases Nat.lt_or_ge i s.tbs.length with hi | hi
  · obtain ⟨b, hib⟩ : ∃ b, s.tbs[i]? = some b := ⟨_, List.getElem?_eq_getElem hi⟩
    obtain ⟨c', hc', hafter⟩ := hb.old i b hib
    obtain rfl : c' = c := Option.some.inj (hc'.symm.trans hc)
    rcases hafter.chain with he | ⟨-, hch⟩
    · exact ((h i b hib (TranslationBlock.chain_type he ▸ hty)).congr he).mono Set.subset_union_left
    · exact hch.mono Set.subset_union_right
  · exact absurd (hb.new i c hc hi).1 hty

theorem Chains.congr {A : Set Word} (h : Chains A s) (hc : s'.cores = s.cores) : Chains A s' := by
  intro i c hic hty
  obtain ⟨b, hb, -, -, hch⟩ := exists_core hc.symm hic
  exact (h i b hb (TranslationBlock.chain_type hch ▸ hty)).congr hch.symm

theorem Chains.updTb {A : Set Word} (h : Chains A s) (k : Nat) {f : TranslationBlock → TranslationBlock}
    (hf : ∀ b, (f b).chain = b.chain) : Chains A (s.updTb k f) := by
  intro i c hc hty
  have hc : (s.tbs.modify k f)[i]? = some c := hc
  rw [getElem?_modify_some] at hc
  obtain ⟨b, hb, hbc⟩ := hc
  have hch : c.chain = b.chain := by
    rw [← hbc]
    split
    · exact hf b
    · rfl
  exact (h i b hb (TranslationBlock.chain_type hch ▸ hty)).congr hch

theorem Chains.makesOne {A : Set Word} (h : Chains A s) (hm : MakesOne s s') : Chains A s' := by
  obtain ⟨n, hn, hty⟩ := hm.tbs
  intro i c hic hct
  rcases Nat.lt_or_ge i s.tbs.length with hi | hi
  · exact h i c (by rwa [hn, List.getElem?_append_left hi] at hic) hct
  · rw [hn, List.getElem?_append_right hi] at hic
    obtain rfl := List.mem_singleton.mp (List.mem_of_getElem? hic)
    exact absurd hty hct

/-- An instruction with a field has no chain. -/
theorem Emitted.noChain {ds : Decode} {cont : Bool} (h : Emitted L img s ds cont s') :
    s'.patchArray = s.patchArray ∨ Blocks ∅ s s' := by
  cases h with
  | normal => exact Or.inl rfl
  | int => exact Or.inl rfl
  | sysenter => exact Or.inl rfl
  | ret => exact Or.inl rfl
  | retIw => exact Or.inl rfl
  | jmpNearMem => exact Or.inl rfl
  | jmp hfn hb he =>
    refine Or.inr ?_
    cases he with
    | stays => exact .stay rfl rfl (KeepsChain.gives fun _ => ⟨rfl, rfl, rfl⟩)
    | copies hi hpc h0 hne => exact .stay rfl rfl (KeepsChain.gives fun _ => ⟨rfl, rfl, rfl⟩)
    | makes => exact .append rfl rfl rfl rfl fun _ => ⟨rfl, rfl, rfl⟩
  | callDisp hfn hn => exact Or.inr (hn.blocks.after rfl rfl (KeepsChain.gives fun _ => ⟨rfl, rfl, rfl⟩))
  | callNearMem hfn h4 hn => exact Or.inl hn.patchArray
  | jcond hfn hb hn => exact Or.inr (hn.blocks.after rfl rfl (KeepsChain.gives fun _ => ⟨rfl, rfl, rfl⟩))
  | otherJcond hfn hb hn => exact Or.inr (hn.blocks.after rfl rfl (KeepsChain.gives fun _ => ⟨rfl, rfl, rfl⟩))

theorem NextTb.tbRetAddr {cont : Bool} (h : NextTb s cont s') : s'.tbRetAddr = s.tbRetAddr := by
  cases h <;> rfl

theorem Emitted.tbRetAddr {ds : Decode} {cont : Bool} (h : Emitted L img s ds cont s') : s'.tbRetAddr = s.tbRetAddr := by
  cases h with
  | normal => rfl
  | int => rfl
  | sysenter => rfl
  | ret => rfl
  | retIw => rfl
  | jmpNearMem => rfl
  | jmp hfn hb he => cases he <;> rfl
  | callDisp hfn hn => exact hn.tbRetAddr
  | callNearMem hfn h4 hn => exact hn.tbRetAddr
  | jcond hfn hb hn => exact hn.tbRetAddr
  | otherJcond hfn hb hn => exact hn.tbRetAddr

/-! ## The loop -/

/-- The fields noted so far. -/
def State.locs (s : State) : Set Word := {l | ∃ e ∈ s.patchArray, e.loc = l}

/-- The translation that began in `s₀`, where the fields at `A` were, has come to `s`. -/
structure Drawing (L : Layout) (A : Set Word) (s₀ s : State) : Prop where
  le : codeOff L s₀.codeGenPtr ≤ codeOff L s.codePtr
  codePtr : codeOff L s.codePtr ≤ DEFAULT_CODE_GEN_BUFFER_SIZE
  mem : ∀ x, (x ∈ codeArea L → x ∈ codeUpTo L s₀.codeGenPtr) → s.mem x = s₀.mem x
  sieveCodePtr : s.sieveCodePtr = s₀.sieveCodePtr
  tbRetAddr : s.tbRetAddr = s₀.tbRetAddr
  fields : ∀ e ∈ s.patchArray, codeOff L s₀.codeGenPtr ≤ codeOff L e.loc ∧ codeOff L e.loc + 4 ≤ codeOff L s.codePtr
  apart : s.patchArray.Pairwise fun e e' => codeOff L e.loc + 4 ≤ codeOff L e'.loc
  chains : Chains (codeBut L (A ∪ s.locs) s.codePtr) s

variable {A : Set Word}

theorem Drawing.congr (h : Drawing L A s₀ s) (hm : s'.mem = s.mem) (hp : s'.codePtr = s.codePtr)
    (hs : s'.sieveCodePtr = s.sieveCodePtr) (hr : s'.tbRetAddr = s.tbRetAddr) (ha : s'.patchArray = s.patchArray)
    (hc : ∀ A, Chains A s → Chains A s') : Drawing L A s₀ s' := by
  refine ⟨hp ▸ h.le, hp ▸ h.codePtr, fun x hx => (congrFun hm x).trans (h.mem x hx), hs.trans h.sieveCodePtr,
    hr.trans h.tbRetAddr, ?_, ha ▸ h.apart, ?_⟩
  · rw [ha, hp]
    exact h.fields
  · rw [State.locs, ha, hp]
    exact hc _ h.chains

/-- Code emitted behind what there is, perhaps with a field in it or with a chain, but not with both. -/
theorem Drawing.grows {n : Nat} (h : Drawing L A s₀ s) (hA : ∀ l ∈ A, codeOff L l + 4 ≤ codeOff L s₀.codeGenPtr)
    (ha : Adds s s' n) (hr : s'.tbRetAddr = s.tbRetAddr) (hn : n ≤ 2 ^ 31 + 256)
    (hcheck : codeOff L s'.codePtr ≤ DEFAULT_CODE_GEN_BUFFER_SIZE)
    (hblocks : ∀ A, Span s.codePtr (s'.codePtr - s.codePtr).toNat ⊆ A → Blocks A s s')
    (hno : s'.patchArray = s.patchArray ∨ Blocks ∅ s s') : Drawing L A s₀ s' := by
  obtain ⟨bs, hlen, hm, hp, hpatch⟩ := ha.code
  have hsize : DEFAULT_CODE_GEN_BUFFER_SIZE = 134217728 := rfl
  have hle := h.le
  have hfit : codeOff L s.codePtr + bs.length ≤ DEFAULT_CODE_GEN_BUFFER_SIZE := by
    rw [hp] at hcheck
    exact add_le_of_check h.codePtr (by omega) hcheck
  have hoff : codeOff L s'.codePtr = codeOff L s.codePtr + bs.length := by
    rw [hp]
    exact codeOff_add (by omega) h.codePtr
  have hbytes : (s'.codePtr - s.codePtr).toNat = bs.length := codePtr_sub hp (by omega)
  -- what is emitted lies behind the fields there are
  have hbehind : ∀ x ∈ Span s.codePtr bs.length, codeOff L s.codePtr ≤ codeOff L x ∧ codeOff L x < codeOff L s'.codePtr :=
    fun x hx => by
      have := codeOff_of_mem (L := L) hx (by omega)
      omega
  have hold : ∀ l ∈ A ∪ s.locs, codeOff L l + 4 ≤ codeOff L s.codePtr := fun l hl => by
    rcases hl with hl | ⟨e, he, rfl⟩
    · exact (hA l hl).trans hle
    · exact (h.fields e he).2
  have hnot : ∀ l ∈ A ∪ s.locs, ∀ x ∈ Span s.codePtr bs.length, x ∉ Span l 4 := fun l hl x hx hl' => by
    have h₁ := hold l hl
    have h₂ := hbehind x hx
    have h₃ := codeOff_of_mem (L := L) hl' (by omega)
    omega
  have hnew : Span s.codePtr bs.length ⊆ codeBut L (A ∪ s.locs) s'.codePtr := fun x hx =>
    ⟨(hbehind x hx).2, fun l hl => hnot l hl x hx⟩
  refine ⟨by omega, hcheck, fun x hx => ?_, ha.sieveCodePtr.trans h.sieveCodePtr, hr.trans h.tbRetAddr, ?_, ?_, ?_⟩
  · rw [hm, Mem.put_of_notMem fun hs => ?_]
    · exact h.mem x hx
    · have h₁ := hbehind x hs
      have h₂ := mem_codeUpTo.mp (hx (mem_codeArea.mpr (by omega)))
      omega
  · have hkeep : ∀ e ∈ s.patchArray, codeOff L s₀.codeGenPtr ≤ codeOff L e.loc ∧ codeOff L e.loc + 4 ≤ codeOff L s'.codePtr :=
      fun e he => by
        have := h.fields e he
        omega
    rcases hpatch with he | ⟨e, k, he, -, hloc, hk⟩
    · rw [he]
      exact hkeep
    · rw [he]
      intro e' he'
      rcases List.mem_append.mp he' with he' | he'
      · exact hkeep e' he'
      · obtain rfl := List.mem_singleton.mp he'
        have hlo : codeOff L e'.loc = codeOff L s.codePtr + k := by
          rw [hloc]
          exact codeOff_add (by omega) h.codePtr
        omega
  · rcases hpatch with he | ⟨e, k, he, -, hloc, hk⟩
    · rw [he]
      exact h.apart
    · rw [he, List.pairwise_append]
      refine ⟨h.apart, List.pairwise_singleton _ _, fun e₁ he₁ e₂ he₂ => ?_⟩
      obtain rfl := List.mem_singleton.mp he₂
      have hlo : codeOff L e₂.loc = codeOff L s.codePtr + k := by
        rw [hloc]
        exact codeOff_add (by omega) h.codePtr
      have := (h.fields e₁ he₁).2
      omega
  · rcases hpatch with he | ⟨e, k, he, -, hloc, hk⟩
    · rw [State.locs, he]
      refine (h.chains.step (hblocks (codeBut L (A ∪ s.locs) s'.codePtr) (hbytes ▸ hnew))).mono ?_
      exact Set.union_subset (codeBut_mono (by omega) fun l hl => Or.inl hl) subset_rfl
    · have hnone : Blocks ∅ s s' := hno.resolve_left fun hsame => by
        have := congrArg List.length (he.symm.trans hsame)
        simp at this
      refine (h.chains.step hnone).mono ?_
      rw [Set.union_empty]
      refine codeBut_mono (by omega) fun l hl => ?_
      rcases hl with hl | ⟨e', he', rfl⟩
      · exact Or.inl (Or.inl hl)
      · rw [he] at he'
        rcases List.mem_append.mp he' with he' | he'
        · exact Or.inl (Or.inr ⟨e', he', rfl⟩)
        · obtain rfl := List.mem_singleton.mp he'
          have hlo : codeOff L e'.loc = codeOff L s.codePtr + k := by
            rw [hloc]
            exact codeOff_add (by omega) h.codePtr
          refine Or.inr fun x hx hx' => ?_
          have h₁ := mem_codeUpTo.mp hx
          have h₂ := codeOff_of_mem (L := L) hx' (by omega)
          omega

theorem Drawing.genInsn {ds : Decode} (h : Drawing L A s₀ s) (hA : ∀ l ∈ A, codeOff L l + 4 ≤ codeOff L s₀.codeGenPtr)
    (hi : ShortInsns img) : (s.genInsn L img .target ds).Ensures fun r => Drawing L A s₀ r.2.2 := by
  refine (genInsn_spec s ds).mono fun p hp => ?_
  obtain ⟨r, cont, s'⟩ := p
  obtain ⟨ok, s₁, hr, he, hcheck, rfl⟩ := hp
  have hlen : (s.beginInsn r ok).insnLen.toNat ≤ 2 ^ 31 := (hi _ _ _ _ hr).2
  have hbegun : Drawing L A s₀ (s.beginInsn r ok) := h.congr rfl rfl rfl rfl rfl fun _ hc => hc.congr rfl
  have hdone : Drawing L A s₀ s₁ := hbegun.grows hA (he.adds hlen) he.tbRetAddr (by omega) hcheck (fun _ => he.blocks) he.noChain
  exact hdone.congr rfl rfl rfl rfl rfl fun _ hc => hc.updTb _ fun _ => rfl

/-- The exit at the limit. -/
theorem Drawing.limitExit (h : Drawing L A s₀ s) (hA : ∀ l ∈ A, codeOff L l + 4 ≤ codeOff L s₀.codeGenPtr) :
    (s.limitExit L .target).Ensures (Drawing L A s₀) := by
  simp only [State.limitExit, State.GenLoop.target, ensures_bind, ensures_pure]
  intro b _
  obtain ⟨t, ht⟩ : ∃ t, t = if b.tcPtr = s.codePtr then s.updTb s.curTb (·.setTcPtr NOT_TRANS_YET) else s := ⟨_, rfl⟩
  have hd : Drawing L A s₀ t := by
    rw [ht]
    split
    · exact h.congr rfl rfl rfl rfl rfl fun _ hc => hc.updTb _ fun _ => rfl
    · exact h
  rw [← ht]
  refine (notePatch_spec L _ _ _ _ _ _).mono fun s₁ hs₁ => (checkCode_ensures s₁).mono fun _ hcheck => ?_
  subst hs₁
  have hkeep : ∀ (e : PatchEntry) bs, Blocks ∅ t ((t.emit bs).noted e) := fun e bs => .keeps rfl rfl fun _ => ⟨rfl, rfl, rfl⟩
  refine hd.grows hA (n := 5) ⟨⟨[0xe9] ++ le32 NEED_PATCH_32, by simp, rfl, rfl, Or.inr ⟨_, 1, rfl, rfl, ?_, by simp⟩⟩, rfl⟩
    rfl (by omega) hcheck (fun _ _ => .keeps rfl rfl fun _ => ⟨rfl, rfl, rfl⟩) (Or.inr (hkeep _ _))
  show (t.emit ([0xe9] ++ le32 NEED_PATCH_32)).codePtr - 4 = _
  rw [State.codePtr_emit]
  simp only [List.length_append, List.length_cons, List.length_nil, length_le32]
  bv_omega

end Unitrans
