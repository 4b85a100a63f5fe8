/-
What a translation leaves for the dispatcher to patch. A block's inline chain
and the field of a direct branch are code of the block (`ChainIn`, `FieldOk`),
kept by every instruction, by the exit at the limit and by `lazy_patch`; a
field that got a stub belongs to the block and the slot its stub names, or its
destination is known to the tables (`StubOk`).
-/
import Unitrans.RoundTrip

namespace Unitrans

open X86 FirstArrival Except

variable {L : Layout} {img : Mem}

/-! ## The blocks after an instruction -/

/-- The inline chain of a block. -/
def TranslationBlock.chain (b : TranslationBlock) : Word × (Nat → Word) × (Nat → Word) × Word :=
  (b.type, b.jindSrcAddr, b.jindDestAddr, b.indEnterSieve)

theorem TranslationBlock.chain_type {b c : TranslationBlock} (h : c.chain = b.chain) : c.type = b.type :=
  congrArg (·.1) h

/-- The words of the chain are in `A`. -/
structure ChainIn (A : Set Word) (b : TranslationBlock) : Prop where
  src : ∀ i < IND_SLOT_MAX, Span (b.jindSrcAddr i) 4 ⊆ A
  dest : ∀ i < IND_SLOT_MAX, Span (b.jindDestAddr i) 4 ⊆ A
  enter : Span b.indEnterSieve 5 ⊆ A

theorem ChainIn.congr {A : Set Word} {b c : TranslationBlock} (h : ChainIn A b) (hc : c.chain = b.chain) : ChainIn A c := by
  simp only [TranslationBlock.chain, Prod.mk.injEq] at hc
  obtain ⟨-, hs, hd, he⟩ := hc
  exact ⟨by rw [hs]; exact h.src, by rw [hd]; exact h.dest, by rw [he]; exact h.enter⟩

/-- Block `i`, `b` before an instruction and `c` after it: begun if it had no code, given a chain in `A`
if it was the current one. -/
structure After (A : Set Word) (s s' : State) (i : Nat) (b c : TranslationBlock) : Prop where
  pc : c.pc = b.pc
  tcPtr : c.tcPtr = b.tcPtr ∨ b.tcPtr = NOT_TRANS_YET ∧ i = s'.curTb ∧ c.tcPtr = s'.codePtr
  chain : c.chain = b.chain ∨ i = s.curTb ∧ ChainIn A c

/-- The blocks after an instruction. -/
structure Blocks (A : Set Word) (s s' : State) : Prop where
  old : ∀ i b, s.tbs[i]? = some b → ∃ c, s'.tbs[i]? = some c ∧ After A s s' i b c
  new : ∀ i c, s'.tbs[i]? = some c → s.tbs.length ≤ i →
    c.type = NOT_IND ∧ (c.tcPtr = NOT_TRANS_YET ∨ i = s'.curTb ∧ c.tcPtr = s'.codePtr)
  cur : s'.curTb = s.curTb ∨ (∀ b, s.tbs[s'.curTb]? = some b → b.tcPtr = NOT_TRANS_YET) ∧
    ∃ c, s'.tbs[s'.curTb]? = some c ∧ c.tcPtr = s'.codePtr ∧ c.pc = s'.pcPtr

/-- An assignment that leaves a block its address, its code and its chain. -/
def KeepsChain (f : TranslationBlock → TranslationBlock) : Prop :=
  ∀ b, (f b).pc = b.pc ∧ (f b).tcPtr = b.tcPtr ∧ (f b).chain = b.chain

/-- An assignment to the current block, which may give it a chain in `A`. -/
def GivesChain (A : Set Word) (f : TranslationBlock → TranslationBlock) : Prop :=
  ∀ b, (f b).pc = b.pc ∧ (f b).tcPtr = b.tcPtr ∧ ((f b).chain = b.chain ∨ ChainIn A (f b))

variable {A : Set Word} {s₀ s t s' : State}

theorem KeepsChain.gives {f : TranslationBlock → TranslationBlock} (h : KeepsChain f) : GivesChain A f := fun b =>
  ⟨(h b).1, (h b).2.1, Or.inl (h b).2.2⟩

theorem After.refl {i : Nat} (b : TranslationBlock) : After A s s' i b b := ⟨rfl, Or.inl rfl, Or.inl rfl⟩

/-- The current block is updated, and nothing else happens. -/
theorem Blocks.stay {f : TranslationBlock → TranslationBlock} (ht : s'.tbs = s.tbs.modify s.curTb f) (hc : s'.curTb = s.curTb)
    (hf : GivesChain A f) : Blocks A s s' := by
  refine ⟨fun i b hb => ?_, fun i c hc' hlen => ?_, Or.inl hc⟩
  · rw [ht, List.getElem?_modify, hb]
    by_cases hi : s.curTb = i
    · subst hi
      obtain ⟨h₁, h₂, h₃⟩ := hf b
      exact ⟨f b, by simp, h₁, Or.inl h₂, h₃.imp_right fun h => ⟨rfl, h⟩⟩
    · exact ⟨b, by simp [hi], .refl b⟩
  · have hlt := (List.getElem?_eq_some_iff.mp hc').1
    rw [ht, List.length_modify] at hlt
    omega

/-- What an emitter does before it goes on: it updates the current block. -/
theorem Blocks.after {f : TranslationBlock → TranslationBlock} (h : Blocks A t s') (ht : t.tbs = s.tbs.modify s.curTb f)
    (hc : t.curTb = s.curTb)
    (hf : GivesChain A f) : Blocks A s s' := by
  obtain ⟨hold, -, -⟩ := Blocks.stay ht hc hf
  have hlen : t.tbs.length = s.tbs.length := by rw [ht, List.length_modify]
  refine ⟨fun i b hb => ?_, fun i c hc' hle => h.new i c hc' (hlen ▸ hle), ?_⟩
  · obtain ⟨b', hb', h₁⟩ := hold i b hb
    obtain ⟨c, hc', h₂⟩ := h.old i b' hb'
    have htc : b'.tcPtr = b.tcPtr := by
      rw [ht, List.getElem?_modify, hb] at hb'
      by_cases hi : s.curTb = i
      · simp only [hi, if_true, Option.map_eq_map, Option.map_some, Option.some.injEq] at hb'
        rw [← hb', (hf b).2.1]
      · simp only [hi, if_false, Option.map_eq_map, Option.map_some, Option.some.injEq] at hb'
        rw [← hb']
    refine ⟨c, hc', h₂.pc.trans h₁.pc, htc ▸ h₂.tcPtr, ?_⟩
    rcases h₂.chain with hch | ⟨hi, hch⟩
    · exact h₁.chain.imp (hch.trans ·) fun h => ⟨h.1, h.2.congr hch⟩
    · exact Or.inr ⟨hi.trans hc, hch⟩
  · rcases h.cur with hcur | ⟨hnty, hcur⟩
    · exact Or.inl (hcur.trans hc)
    · refine Or.inr ⟨fun b hb => ?_, hcur⟩
      rw [ht] at hnty
      by_cases hi : s.curTb = s'.curTb
      · have := hnty (f b) (by rw [List.getElem?_modify, hb]; simp [hi])
        rw [← (hf b).2.1, this]
      · exact hnty b (by rw [List.getElem?_modify, hb]; simp [hi])

/-- Another block is updated. -/
theorem Blocks.keeps {k : Nat} {f : TranslationBlock → TranslationBlock} (ht : s'.tbs = s.tbs.modify k f)
    (hc : s'.curTb = s.curTb) (hf : KeepsChain f) : Blocks A s s' := by
  refine ⟨fun i b hb => ?_, fun i c hc' hlen => ?_, Or.inl hc⟩
  · rw [ht, List.getElem?_modify, hb]
    obtain ⟨h₁, h₂, h₃⟩ := hf b
    by_cases hi : k = i
    · exact ⟨f b, by simp [hi], h₁, Or.inl h₂, Or.inl h₃⟩
    · exact ⟨b, by simp [hi], .refl b⟩
  · have hlt := (List.getElem?_eq_some_iff.mp hc').1
    rw [ht, List.length_modify] at hlt
    omega

/-- A block is made, another one updated. -/
theorem Blocks.append {k : Nat} {n : TranslationBlock} {f : TranslationBlock → TranslationBlock}
    (ht : s'.tbs = (s.tbs ++ [n]).modify k f) (hc : s'.curTb = s.curTb) (hn : n.type = NOT_IND)
    (hn' : n.tcPtr = NOT_TRANS_YET) (hf : KeepsChain f) : Blocks A s s' := by
  refine ⟨fun i b hb => ?_, fun i c hc' hlen => ?_, Or.inl hc⟩
  · have hlt := (List.getElem?_eq_some_iff.mp hb).1
    rw [ht, List.getElem?_modify, List.getElem?_append_left hlt, hb]
    obtain ⟨h₁, h₂, h₃⟩ := hf b
    by_cases hi : k = i
    · exact ⟨f b, by simp [hi], h₁, Or.inl h₂, Or.inl h₃⟩
    · exact ⟨b, by simp [hi], .refl b⟩
  · have hlt := (List.getElem?_eq_some_iff.mp hc').1
    rw [ht, List.length_modify, List.length_append, List.length_singleton] at hlt
    obtain rfl : i = s.tbs.length := by omega
    have hnew : (s.tbs ++ [n])[s.tbs.length]? = some n := by simp
    rw [ht, List.getElem?_modify, hnew] at hc'
    obtain ⟨-, h₂, h₃⟩ := hf n
    by_cases hk : k = s.tbs.length
    · simp only [hk, if_true, Option.map_eq_map, Option.map_some, Option.some.injEq] at hc'
      subst hc'
      exact ⟨(TranslationBlock.chain_type h₃).trans hn, Or.inl (h₂.trans hn')⟩
    · simp only [hk, if_false, Option.map_eq_map, Option.map_some, Option.some.injEq] at hc'
      subst hc'
      exact ⟨hn, Or.inl hn'⟩

theorem NextTb.blocks {cont : Bool} (h : NextTb s cont s') : Blocks A s s' := by
  cases h with
  | @ends k c cur hk hpc htc hcur =>
    have hf : KeepsChain (·.setJmpOffset cur.patchNum.toNat ((s.codePtr + 1 - cur.tcPtr).setWidth 16)) := fun _ => ⟨rfl, rfl, rfl⟩
    have hg : KeepsChain fun b => b.addJmpFrom s.curTb cur.patchNum := fun _ => ⟨rfl, rfl, rfl⟩
    have hlast : Blocks A (((s.emit (jmpTo s.codePtr c.tcPtr)).logSlot cur.patchNum).updTb s.curTb
        (·.setJmpOffset cur.patchNum.toNat ((s.codePtr + 1 - cur.tcPtr).setWidth 16))) (s.jumped k c.tcPtr cur) :=
      .keeps rfl rfl hg
    exact hlast.after rfl rfl hf.gives
  | @opens k c hk hpc htc =>
    have hmod : (s.opened k).tbs = s.tbs.modify k (·.setTcPtr s.codePtr) := rfl
    refine ⟨fun i b hb => ?_, fun i b hb hlen => ?_, Or.inr ⟨fun b hb => ?_, c.setTcPtr s.codePtr, ?_, rfl, hpc⟩⟩
    · rw [hmod, List.getElem?_modify, hb]
      by_cases hi : k = i
      · subst hi
        obtain rfl : b = c := Option.some.inj (hb.symm.trans hk)
        exact ⟨b.setTcPtr s.codePtr, by simp, rfl, Or.inr ⟨htc, rfl, rfl⟩, Or.inl rfl⟩
      · exact ⟨b, by simp [hi], .refl b⟩
    · have hlt := (List.getElem?_eq_some_iff.mp hb).1
      rw [hmod, List.length_modify] at hlt
      omega
    · obtain rfl : b = c := Option.some.inj (hb.symm.trans hk)
      exact htc
    · show (s.opened k).tbs[k]? = _
      rw [hmod, List.getElem?_modify, hk]
      simp
  | makes f =>
    have hmod : ((s.withNewTb s.pcPtr f).opened s.tbs.length).tbs =
        (s.tbs ++ [newTb s s.pcPtr f]).modify s.tbs.length (·.setTcPtr s.codePtr) := rfl
    have hnew : (s.tbs ++ [newTb s s.pcPtr f])[s.tbs.length]? = some (newTb s s.pcPtr f) := by simp
    refine ⟨fun i b hb => ?_, fun i b hb hlen => ?_, Or.inr ⟨fun b hb => ?_, (newTb s s.pcPtr f).setTcPtr s.codePtr, ?_, rfl, rfl⟩⟩
    · have hlt := (List.getElem?_eq_some_iff.mp hb).1
      refine ⟨b, ?_, .refl b⟩
      rw [hmod, List.getElem?_modify, List.getElem?_append_left hlt, hb]
      have hne : s.tbs.length ≠ i := by omega
      simp [hne]
    · have hlt := (List.getElem?_eq_some_iff.mp hb).1
      rw [hmod, List.length_modify, List.length_append, List.length_singleton] at hlt
      obtain rfl : i = s.tbs.length := by omega
      rw [hmod, List.getElem?_modify, hnew] at hb
      simp only [if_true, Option.map_eq_map, Option.map_some, Option.some.injEq] at hb
      subst hb
      exact ⟨rfl, Or.inr ⟨rfl, rfl⟩⟩
    · have hlt := (List.getElem?_eq_some_iff.mp hb).1
      exact absurd hlt (Nat.lt_irrefl _)
    · show ((s.withNewTb s.pcPtr f).opened s.tbs.length).tbs[s.tbs.length]? = _
      rw [hmod, List.getElem?_modify, hnew]
      simp

/-- The fields of a chain emitted at `p`. -/
theorem chainIn_indOptFields {p : Word} {n : Nat} (b : TranslationBlock) (hn : n ≤ 32) (hA : Span p (67 + n) ⊆ A) :
    ChainIn A (indOptFields p n b) := by
  have hin : ∀ {j k : Nat}, j + k ≤ 67 + n → Span (p + BitVec.ofNat 32 j) k ⊆ A := fun h =>
    (span_subset_add h (by omega)).trans hA
  have hcases : ∀ {i : Nat}, i < IND_SLOT_MAX → i = 0 ∨ i = 1 ∨ i = 2 := fun h => by
    simp only [IND_SLOT_MAX] at h
    omega
  refine ⟨fun i hi => ?_, fun i hi => ?_, ?_⟩
  · rcases hcases hi with rfl | rfl | rfl
    · exact hin (j := 7) (by omega)
    · exact hin (j := 19) (by omega)
    · exact hin (j := 31) (by omega)
  · rcases hcases hi with rfl | rfl | rfl
    · exact hin (j := 43 + n) (by omega)
    · exact hin (j := 53 + n) (by omega)
    · exact hin (j := 63 + n) (by omega)
  · by_cases h : n < 32
    · exact hin (j := 37) (k := 5) (by omega)
    · exact hin (j := 37) (k := 5) (by omega)

theorem indOptFields_keeps (p : Word) (n : Nat) (t : Word) (b : TranslationBlock) :
    (indOptFields p n (b.setType t)).pc = b.pc ∧ (indOptFields p n (b.setType t)).tcPtr = b.tcPtr := by
  simp only [indOptFields, TranslationBlock.setJindSrcAddr, TranslationBlock.setJindDestAddr,
    TranslationBlock.setIndEnterSieve, TranslationBlock.setType, and_self]

theorem givesChain_jmpNearMem {r p b f : Word} {ds : Decode}
    (hA : Span p (jmpNearMemBytes L r p b f ds).length ⊆ A) : GivesChain A (jmpNearMemFields L r p b ds) := fun c => by
  have hexit := length_exitTbBytes_le L r (p + BitVec.ofNat 32 (10 + (pushRmBytes ds).length) + 37) b IND_TYPE_JMP
  have hlen := length_jmpNearMemBytes_le (L := L) r p b f ds
  rw [jmpNearMemFields]
  obtain ⟨hpc, htc⟩ := indOptFields_keeps (p + BitVec.ofNat 32 (10 + (pushRmBytes ds).length))
    (exitTbBytes L r (p + BitVec.ofNat 32 (10 + (pushRmBytes ds).length) + 37) b IND_TYPE_JMP).length IND_TYPE_JMP c
  refine ⟨hpc, htc, Or.inr (chainIn_indOptFields _ hexit ((span_subset_add ?_ (by omega)).trans hA))⟩
  simp only [jmpNearMemBytes, List.length_append, length_indOptBytes, length_movAbs]
  omega

theorem givesChain_callNearMem {r t p b pc : Word} {ds : Decode}
    (hA : Span p (callNearMemBytes L r t p b pc ds).length ⊆ A) : GivesChain A (callNearMemFields L r p b pc ds) := fun c => by
  have hexit := length_exitTbBytes_le L r (p + BitVec.ofNat 32 ((callPushBytes ds pc).length + 23) + 37) b IND_TYPE_CALL
  have hlen := length_callNearMemBytes_le (L := L) r t p b pc ds
  rw [callNearMemFields]
  obtain ⟨hpc, htc⟩ := indOptFields_keeps (p + BitVec.ofNat 32 ((callPushBytes ds pc).length + 23))
    (exitTbBytes L r (p + BitVec.ofNat 32 ((callPushBytes ds pc).length + 23) + 37) b IND_TYPE_CALL).length IND_TYPE_CALL c
  refine ⟨hpc, htc, Or.inr (chainIn_indOptFields _ hexit ((span_subset_add ?_ (by omega)).trans hA))⟩
  simp only [callNearMemBytes, List.length_append, length_callRcBytes, length_indOptBytes, length_rcCmpBytes]
  omega

/-- What was emitted, as the code it took. -/
theorem codePtr_sub {p q : Word} {n : Nat} (h : q = p + BitVec.ofNat 32 n) (hn : n < 2 ^ 32) : (q - p).toNat = n := by
  subst h
  bv_omega

theorem Emitted.blocks {ds : Decode} {cont : Bool} (h : Emitted L img s ds cont s')
    (hA : Span s.codePtr (s'.codePtr - s.codePtr).toNat ⊆ A) : Blocks A s s' := by
  have hsame : ∀ {t : State}, t.tbs = s.tbs → t.curTb = s.curTb → Blocks A s t := fun ht hc =>
    .stay (f := id) (by rw [ht, List.modify_id]) hc (KeepsChain.gives fun _ => ⟨rfl, rfl, rfl⟩)
  cases h with
  | normal => exact hsame rfl rfl
  | int => exact hsame rfl rfl
  | sysenter => exact hsame rfl rfl
  | ret => exact hsame rfl rfl
  | retIw => exact hsame rfl rfl
  | @jmpNearMem b hfn h4 hb =>
    have hlen := length_jmpNearMemBytes_le (L := L) s.tbRetAddr s.codePtr (L.tbPtr s.curTb) b.funcAddr ds
    have hbytes := codePtr_sub (p := s.codePtr) (n := (jmpNearMemBytes L s.tbRetAddr s.codePtr (L.tbPtr s.curTb) b.funcAddr
      ds).length) rfl (by omega)
    exact .stay rfl rfl (givesChain_jmpNearMem (f := b.funcAddr) (hbytes ▸ hA))
  | @jmp b c s₁ hfn hb he =>
    cases he with
    | stays => exact .stay rfl rfl (KeepsChain.gives fun _ => ⟨rfl, rfl, rfl⟩)
    | copies hi hpc h0 hne => exact .stay rfl rfl (KeepsChain.gives fun _ => ⟨rfl, rfl, rfl⟩)
    | makes => exact .append rfl rfl rfl rfl fun _ => ⟨rfl, rfl, rfl⟩
  | callDisp hfn hn => exact hn.blocks.after rfl rfl (KeepsChain.gives fun _ => ⟨rfl, rfl, rfl⟩)
  | @callNearMem c cont s' hfn h4 hn =>
    obtain ⟨bs, hbs, -, hptr⟩ := hn.code
    have hlen := length_callNearMemBytes_le (L := L) s.tbRetAddr s.sieveStub s.codePtr (L.tbPtr s.curTb) s.pcPtr ds
    have hsum : s'.codePtr = s.codePtr + BitVec.ofNat 32
        ((callNearMemBytes L s.tbRetAddr s.sieveStub s.codePtr (L.tbPtr s.curTb) s.pcPtr ds).length + bs.length) := by
      rw [hptr, BitVec.ofNat_add, ← BitVec.add_assoc]
      rfl
    have hbytes := codePtr_sub hsum (by omega)
    refine hn.blocks.after rfl rfl (givesChain_callNearMem (t := s.sieveStub) ((span_mono ?_).trans (hbytes ▸ hA)))
    exact Nat.le_add_right _ _
  | jcond hfn hb hn => exact hn.blocks.after rfl rfl (KeepsChain.gives fun _ => ⟨rfl, rfl, rfl⟩)
  | otherJcond hfn hb hn => exact hn.blocks.after rfl rfl (KeepsChain.gives fun _ => ⟨rfl, rfl, rfl⟩)

/-! ## A superblock -/

/-- Where an address lies in the code buffer. -/
def codeOff (L : Layout) (p : Word) : Nat := (p - L.codeGenBuffer).toNat

theorem codeOff_add {p : Word} {n : Nat} (hn : n + DEFAULT_CODE_GEN_BUFFER_SIZE < 2 ^ 32)
    (hp : codeOff L p ≤ DEFAULT_CODE_GEN_BUFFER_SIZE) : codeOff L (p + BitVec.ofNat 32 n) = codeOff L p + n := by
  have hsplit : p + BitVec.ofNat 32 n - L.codeGenBuffer = (p - L.codeGenBuffer) + BitVec.ofNat 32 n := by ring
  rw [codeOff, hsplit, BitVec.toNat_add, BitVec.toNat_ofNat, Nat.mod_eq_of_lt (a := n) (by omega), ← codeOff,
    Nat.mod_eq_of_lt (by omega)]

theorem codeOff_inj {p q : Word} (h : codeOff L p = codeOff L q) : p = q := by
  have := BitVec.eq_of_toNat_eq h
  exact sub_left_injective this

/-- The chains are in the code, and belong to blocks that have code. -/
def Chained (L : Layout) (s : State) : Prop :=
  ∀ (i : Nat) (b : TranslationBlock), s.tbs[i]? = some b → b.type ≠ NOT_IND → b.tcPtr ≠ NOT_TRANS_YET ∧ ChainIn (codeArea L) b

/-- The blocks keep their addresses. -/
def SamePcs (s₀ s : State) : Prop :=
  ∀ (i : Nat) (b : TranslationBlock), s₀.tbs[i]? = some b → ∃ c, s.tbs[i]? = some c ∧ c.pc = b.pc

/-- A field that waits for its jump is in the code of its block. -/
def FieldOk (L : Layout) (s : State) (e : PatchEntry) : Prop :=
  ∃ b, s.tbs[e.tb]? = some b ∧ b.tcPtr ≠ NOT_TRANS_YET ∧ codeOff L b.tcPtr ≤ codeOff L e.loc

/-- A field that leads to the start of its own block, which is without code. -/
def LeadsBack (s : State) (e : PatchEntry) : Prop :=
  ∃ b, s.tbs[e.tb]? = some b ∧ b.pc = e.dest ∧ b.tcPtr = NOT_TRANS_YET

/-- At the head of the loop, the blocks having been those of `s₀`. -/
structure Generating (L : Layout) (s₀ s : State) : Prop where
  chained : Chained L s
  pcs : SamePcs s₀ s
  codePtr : codeOff L s.codePtr ≤ DEFAULT_CODE_GEN_BUFFER_SIZE
  cur : ∃ b, s.tbs[s.curTb]? = some b ∧ b.tcPtr ≠ NOT_TRANS_YET ∧ codeOff L b.tcPtr ≤ codeOff L s.codePtr ∧
    (b.tcPtr = s.codePtr → b.pc = s.pcPtr ∧ b.type = NOT_IND)
  patches : ∀ e ∈ s.patchArray, Span e.loc 4 ⊆ codeArea L ∧ FieldOk L s e ∧ codeOff L e.loc < codeOff L s.codePtr

/-- Behind the loop. -/
structure Generated (L : Layout) (s₀ s : State) : Prop where
  chained : Chained L s
  pcs : SamePcs s₀ s
  patches : ∀ e ∈ s.patchArray, Span e.loc 4 ⊆ codeArea L ∧ (FieldOk L s e ∨ LeadsBack s e)

theorem NextTb.moves {b : TranslationBlock} (h : NextTb s true s') (hb : s.tbs[s.curTb]? = some b)
    (ht : b.tcPtr ≠ NOT_TRANS_YET) : s'.curTb ≠ s.curTb := by
  cases h with
  | @opens k c hk hpc htc =>
    intro he
    have he : k = s.curTb := he
    rw [he, hb] at hk
    exact ht (Option.some.inj hk ▸ htc)
  | makes f =>
    intro he
    have he : s.tbs.length = s.curTb := he
    have hlt := (List.getElem?_eq_some_iff.mp hb).1
    omega

/-- Translation goes on with the same block only behind an instruction that is copied. -/
theorem Emitted.stays {ds : Decode} {b : TranslationBlock} (h : Emitted L img s ds true s') (hb : s.tbs[s.curTb]? = some b)
    (ht : b.tcPtr ≠ NOT_TRANS_YET) (hc : s'.curTb = s.curTb) :
    s'.tbs = s.tbs ∧ s'.pcPtr = s.pcPtr ∧ (s'.codePtr = s.codePtr → s.insnLen.toNat ≤ 2 ^ 31 → s.insnLen = 0) := by
  have hmoves : ∀ {t : State} {f : TranslationBlock → TranslationBlock}, NextTb t true s' → t.tbs = s.tbs.modify s.curTb f →
      t.curTb = s.curTb → (∀ b, (f b).tcPtr = b.tcPtr) → False := fun {t f} hn htbs hcur hf => by
    refine hn.moves (b := f b) ?_ (by rw [hf]; exact ht) (hc.trans hcur.symm)
    rw [htbs, hcur, List.getElem?_modify, hb]
    simp
  have hread : (insnBytes img s).length = s.insnLen.toNat := length_read ..
  cases h with
  | normal =>
    refine ⟨rfl, rfl, fun he hlt => ?_⟩
    rw [State.codePtr_emit, hread] at he
    bv_omega
  | int =>
    refine ⟨rfl, rfl, fun he hlt => ?_⟩
    rw [State.codePtr_emit, State.codePtr_emit, hread] at he
    split at he
    · rw [length_exitTestBytes] at he
      bv_omega
    · simp only [List.length_nil] at he
      bv_omega
  | callDisp hfn hn => exact (hmoves hn rfl rfl fun _ => rfl).elim
  | callNearMem hfn h4 hn => exact (hmoves hn rfl rfl fun c => (givesChain_callNearMem (t := s.sieveStub) subset_rfl c).2.1).elim
  | jcond hfn hb hn => exact (hmoves hn rfl rfl fun _ => rfl).elim
  | otherJcond hfn hb hn => exact (hmoves hn rfl rfl fun _ => rfl).elim

theorem Chained.step (h : Chained L s) (hb : Blocks (codeArea L) s s')
    (hcur : ∀ b, s.tbs[s.curTb]? = some b → b.tcPtr ≠ NOT_TRANS_YET) : Chained L s' := by
  intro i c hc hty
  rcases Nat.lt_or_ge i s.tbs.length with hi | hi
  · obtain ⟨b, hib⟩ : ∃ b, s.tbs[i]? = some b := ⟨_, List.getElem?_eq_getElem hi⟩
    obtain ⟨c', hc', hafter⟩ := hb.old i b hib
    obtain rfl : c' = c := Option.some.inj (hc'.symm.trans hc)
    have htc : b.tcPtr ≠ NOT_TRANS_YET → c'.tcPtr ≠ NOT_TRANS_YET := fun hne => by
      rcases hafter.tcPtr with he | ⟨he, -⟩
      · rwa [he]
      · exact absurd he hne
    rcases hafter.chain with he | ⟨rfl, hch⟩
    · obtain ⟨h₁, h₂⟩ := h i b hib (TranslationBlock.chain_type he ▸ hty)
      exact ⟨htc h₁, h₂.congr he⟩
    · exact ⟨htc (hcur b hib), hch⟩
  · exact absurd (hb.new i c hc hi).1 hty

theorem SamePcs.step (h : SamePcs s₀ s) (hb : Blocks A s s') : SamePcs s₀ s' := by
  intro i b hib
  obtain ⟨c, hc, hpc⟩ := h i b hib
  obtain ⟨c', hc', hafter⟩ := hb.old i c hc
  exact ⟨c', hc', hafter.pc.trans hpc⟩

theorem FieldOk.step {e : PatchEntry} (h : FieldOk L s e) (hb : Blocks A s s') : FieldOk L s' e := by
  obtain ⟨b, hb', ht, hle⟩ := h
  obtain ⟨c, hc, hafter⟩ := hb.old _ b hb'
  have htc : c.tcPtr = b.tcPtr := hafter.tcPtr.resolve_right fun h => ht h.1
  exact ⟨c, hc, htc ▸ ht, htc ▸ hle⟩

/-- One instruction. -/
theorem Generating.emitted {ds : Decode} {cont : Bool} (h : Generating L s₀ s) (ht : t.tbs = s.tbs)
    (hp : t.codePtr = s.codePtr) (hc : t.curTb = s.curTb) (ha : t.patchArray = s.patchArray)
    (hz : t.insnLen = 0 → t.pcPtr = s.pcPtr) (he : Emitted L img t ds cont s') (hlen : t.insnLen.toNat ≤ 2 ^ 31)
    (hcheck : codeOff L s'.codePtr ≤ DEFAULT_CODE_GEN_BUFFER_SIZE) :
    Generated L s₀ s' ∧ (cont = true → Generating L s₀ s') := by
  obtain ⟨bs, hbs, -, hptr, hpatch⟩ := (he.adds hlen).code
  have hsize : DEFAULT_CODE_GEN_BUFFER_SIZE = 134217728 := rfl
  rw [hp] at hptr
  have hfit := add_le_of_check (n := bs.length) h.codePtr (by omega) (hptr ▸ hcheck)
  have hoff : codeOff L s'.codePtr = codeOff L s.codePtr + bs.length := by
    rw [codeOff, hptr, add_sub_right_comm, BitVec.toNat_add, BitVec.toNat_ofNat, Nat.mod_eq_of_lt (a := bs.length) (by omega),
      Nat.mod_eq_of_lt (by omega)]
    rfl
  have hblocks : Blocks (codeArea L) t s' := by
    refine he.blocks ?_
    rw [hp, codePtr_sub hptr (by omega)]
    exact span_subset hfit
  have hne : s'.codePtr ≠ NOT_TRANS_YET := codePtr_ne hcheck
  obtain ⟨b, hb, htc, hle, hstart⟩ := h.cur
  have hbt : t.tbs[t.curTb]? = some b := by rw [ht, hc, hb]
  have hchained : Chained L s' := by
    refine Chained.step (s := t) (fun i c hi hty => h.chained i c (ht ▸ hi) hty) hblocks fun c hcc => ?_
    rwa [← Option.some.inj (hbt.symm.trans hcc)]
  have hpcs : SamePcs s₀ s' := SamePcs.step (s := t) (fun i c hi => by rw [ht]; exact h.pcs i c hi) hblocks
  have hpatches : ∀ e ∈ s'.patchArray, Span e.loc 4 ⊆ codeArea L ∧ FieldOk L s' e ∧
      codeOff L e.loc < codeOff L s'.codePtr := by
    have hold : ∀ e ∈ s.patchArray, Span e.loc 4 ⊆ codeArea L ∧ FieldOk L s' e ∧
        codeOff L e.loc < codeOff L s'.codePtr := fun e he => by
      obtain ⟨hloc, hf, hlt⟩ := h.patches e he
      have hf' : FieldOk L t e := by
        obtain ⟨c, hc, h₁⟩ := hf
        exact ⟨c, ht ▸ hc, h₁⟩
      exact ⟨hloc, hf'.step hblocks, by omega⟩
    rcases hpatch with hsame | ⟨e, k, hadd, htb, hloc, hk⟩
    · rw [hsame, ha]
      exact hold
    · rw [hadd, ha]
      intro e' he'
      rcases List.mem_append.mp he' with he' | he'
      · exact hold e' he'
      · obtain rfl := List.mem_singleton.mp he'
        have hlo : codeOff L e'.loc = codeOff L s.codePtr + k := by
          rw [hloc, hp]
          exact codeOff_add (by omega) h.codePtr
        have hf : FieldOk L t e' := ⟨b, by rw [htb, hbt], htc, by omega⟩
        have hspan : Span e'.loc 4 ⊆ codeArea L := by
          rw [hloc, hp]
          exact (span_subset_add hk (by omega)).trans (span_subset hfit)
        exact ⟨hspan, hf.step hblocks, by omega⟩
  refine ⟨⟨hchained, hpcs, fun e he => ⟨(hpatches e he).1, Or.inl (hpatches e he).2.1⟩⟩, fun hcont => ⟨hchained, hpcs, hcheck, ?_, hpatches⟩⟩
  subst hcont
  rcases hblocks.cur with hcur | ⟨hnty, c, hcc, hct, hcpc⟩
  · obtain ⟨htbs, hpc, hzero⟩ := he.stays hbt htc hcur
    refine ⟨b, by rw [htbs, hcur, hbt], htc, by omega, fun heq => ?_⟩
    -- nothing was emitted: the instruction has no bytes
    have hsame : s'.codePtr = s.codePtr := by
      refine codeOff_inj (L := L) ?_
      rw [heq] at hle
      omega
    have hpc' := hz (hzero (hsame.trans hp.symm) hlen)
    rw [hpc, hpc']
    exact hstart (heq.trans hsame)
  · refine ⟨c, hcc, hct ▸ hne, by rw [hct], fun _ => ⟨hcpc, ?_⟩⟩
    by_contra hty
    rcases Nat.lt_or_ge s'.curTb t.tbs.length with hi | hi
    · obtain ⟨b', hb'⟩ : ∃ b', t.tbs[s'.curTb]? = some b' := ⟨_, List.getElem?_eq_getElem hi⟩
      obtain ⟨c', hc', hafter⟩ := hblocks.old _ b' hb'
      obtain rfl : c' = c := Option.some.inj (hc'.symm.trans hcc)
      rcases hafter.chain with hch | ⟨hcur, -⟩
      · exact (h.chained _ b' (ht ▸ hb') (TranslationBlock.chain_type hch ▸ hty)).1 (hnty b' hb')
      · rw [hcur, hbt] at hb'
        exact htc (Option.some.inj hb' ▸ hnty b (hcur ▸ hbt))
    · exact hty (hblocks.new _ c hcc hi).1

/-! ## What does not matter here -/

/-- A block's address, its code and its chain. -/
def TranslationBlock.core (b : TranslationBlock) : Word × Word × (Word × (Nat → Word) × (Nat → Word) × Word) :=
  (b.pc, b.tcPtr, b.chain)

def State.cores (s : State) : List (Word × Word × (Word × (Nat → Word) × (Nat → Word) × Word)) := s.tbs.map (·.core)

theorem cores_updTb (s : State) (k : Nat) {f : TranslationBlock → TranslationBlock} (hf : KeepsChain f) :
    (s.updTb k f).cores = s.cores := by
  simp only [State.cores, State.updTb]
  apply List.ext_getElem?
  intro j
  rw [List.getElem?_map, List.getElem?_map, List.getElem?_modify]
  cases s.tbs[j]? with
  | none => rfl
  | some b =>
    obtain ⟨h₁, h₂, h₃⟩ := hf b
    by_cases hj : k = j
    · simp [hj, TranslationBlock.core, h₁, h₂, h₃]
    · simp [hj]

/-- A block of one state is one of the other. -/
theorem exists_core (h : s'.cores = s.cores) {i : Nat} {b : TranslationBlock} (hb : s.tbs[i]? = some b) :
    ∃ c, s'.tbs[i]? = some c ∧ c.pc = b.pc ∧ c.tcPtr = b.tcPtr ∧ c.chain = b.chain := by
  have hi : (s'.cores)[i]? = some b.core := by rw [h, State.cores, List.getElem?_map, hb, Option.map_some]
  rw [State.cores, List.getElem?_map] at hi
  obtain ⟨c, hc, hcore⟩ := Option.map_eq_some_iff.mp hi
  simp only [TranslationBlock.core, Prod.mk.injEq] at hcore
  exact ⟨c, hc, hcore.1, hcore.2.1, hcore.2.2⟩

theorem Chained.congr (h : Chained L s) (hc : s'.cores = s.cores) : Chained L s' := by
  intro i c hic hty
  obtain ⟨b, hb, -, htc, hch⟩ := exists_core hc.symm hic
  obtain ⟨h₁, h₂⟩ := h i b hb (TranslationBlock.chain_type hch ▸ hty)
  exact ⟨htc ▸ h₁, h₂.congr hch.symm⟩

theorem SamePcs.congr (h : SamePcs s₀ s) (hc : s'.cores = s.cores) : SamePcs s₀ s' := by
  intro i b hib
  obtain ⟨c, hci, hpc⟩ := h i b hib
  obtain ⟨c', hc', hpc', -⟩ := exists_core hc hci
  exact ⟨c', hc', hpc'.trans hpc⟩

theorem FieldOk.congr {e : PatchEntry} (h : FieldOk L s e) (hc : s'.cores = s.cores) : FieldOk L s' e := by
  obtain ⟨b, hb, ht, hle⟩ := h
  obtain ⟨c, hcb, -, htc, -⟩ := exists_core hc hb
  exact ⟨c, hcb, htc ▸ ht, htc ▸ hle⟩

theorem LeadsBack.congr {e : PatchEntry} (h : LeadsBack s e) (hc : s'.cores = s.cores) : LeadsBack s' e := by
  obtain ⟨b, hb, hpc, ht⟩ := h
  obtain ⟨c, hcb, hpc', htc, -⟩ := exists_core hc hb
  exact ⟨c, hcb, hpc'.trans hpc, htc.trans ht⟩

theorem Generated.congr (h : Generated L s₀ s) (hc : s'.cores = s.cores) (ha : s'.patchArray = s.patchArray) :
    Generated L s₀ s' :=
  ⟨h.chained.congr hc, h.pcs.congr hc, fun e he => (h.patches e (ha ▸ he)).imp_right fun h => h.imp (·.congr hc) (·.congr hc)⟩

theorem Generating.congr (h : Generating L s₀ s) (hc : s'.cores = s.cores) (ha : s'.patchArray = s.patchArray)
    (hp : s'.codePtr = s.codePtr) (hpc : s'.pcPtr = s.pcPtr) (hcur : s'.curTb = s.curTb) : Generating L s₀ s' := by
  refine ⟨h.chained.congr hc, h.pcs.congr hc, by rw [hp]; exact h.codePtr, ?_, fun e he => ?_⟩
  · obtain ⟨b, hb, ht, hle, hstart⟩ := h.cur
    obtain ⟨c, hcb, hpcb, htc, hch⟩ := exists_core hc hb
    rw [hcur, hp, hpc]
    refine ⟨c, hcb, htc ▸ ht, htc ▸ hle, fun he => ?_⟩
    rw [hpcb, TranslationBlock.chain_type hch]
    exact hstart (htc ▸ he)
  · rw [hp]
    exact (h.patches e (ha ▸ he)).imp_right fun h => h.imp_left (·.congr hc)

/-! ## The loop -/

theorem Generating.genInsn {ds : Decode} (h : Generating L s₀ s) (hi : ShortInsns img) :
    (s.genInsn L img .target ds).Ensures fun r => Generated L s₀ r.2.2 ∧ (r.2.1 = true → Generating L s₀ r.2.2) := by
  refine (genInsn_spec s ds).mono fun p hp => ?_
  obtain ⟨r, cont, s'⟩ := p
  obtain ⟨ok, s₁, hr, he, hcheck, rfl⟩ := hp
  have hlen : (s.beginInsn r ok).insnLen.toNat ≤ 2 ^ 31 := (hi _ _ _ _ hr).2
  have hz : (s.beginInsn r ok).insnLen = 0 → (s.beginInsn r ok).pcPtr = s.pcPtr := fun h0 => by
    have h0 : r.decodeEip - s.pcPtr = 0 := h0
    exact sub_eq_zero.mp h0
  obtain ⟨hdone, hgo⟩ := h.emitted (t := s.beginInsn r ok) rfl rfl rfl rfl hz he hlen hcheck
  have hkeeps : (s₁.updTb (State.GenLoop.target.who s₁) (·.incInsnCount)).cores = s₁.cores :=
    cores_updTb _ _ fun _ => ⟨rfl, rfl, rfl⟩
  exact ⟨hdone.congr hkeeps rfl, fun hc => (hgo hc).congr hkeeps rfl rfl rfl rfl⟩

/-- A field is noted. -/
theorem Generated.noted {e : PatchEntry} (h : Generated L s₀ s) (hc : s'.cores = s.cores)
    (ha : s'.patchArray = s.patchArray ++ [e]) (hl : Span e.loc 4 ⊆ codeArea L)
    (he : FieldOk L s e ∨ LeadsBack s e) : Generated L s₀ s' := by
  refine ⟨h.chained.congr hc, h.pcs.congr hc, fun e' he' => ?_⟩
  rw [ha] at he'
  rcases List.mem_append.mp he' with he' | he'
  · exact (h.patches e' he').imp_right fun h => h.imp (·.congr hc) (·.congr hc)
  · rw [List.mem_singleton.mp he']
    exact ⟨hl, he.imp (·.congr hc) (·.congr hc)⟩

/-- The current block, just begun, is left without code. -/
theorem Generating.reset {b : TranslationBlock} (h : Generating L s₀ s) (hb : s.tbs[s.curTb]? = some b)
    (ht : b.tcPtr = s.codePtr) : Generated L s₀ (s.updTb s.curTb (·.setTcPtr NOT_TRANS_YET)) := by
  obtain ⟨b', hb', -, -, hstart⟩ := h.cur
  obtain rfl : b' = b := Option.some.inj (hb'.symm.trans hb)
  have hget : ∀ i, (s.updTb s.curTb (·.setTcPtr NOT_TRANS_YET)).tbs[i]? =
      (s.tbs[i]?).map fun c => if s.curTb = i then c.setTcPtr NOT_TRANS_YET else c := fun i => by
    simp only [State.updTb, List.getElem?_modify]
    by_cases hi : s.curTb = i <;> simp [hi]
  refine ⟨fun i c hc hty => ?_, fun i c hc => ?_, fun e he => ⟨(h.patches e he).1, Or.inl ?_⟩⟩
  · rw [hget, Option.map_eq_some_iff] at hc
    obtain ⟨c', hc', rfl⟩ := hc
    by_cases hi : s.curTb = i
    · subst hi
      obtain rfl : b' = c' := Option.some.inj (hb.symm.trans hc')
      rw [if_pos rfl] at hty
      exact absurd (hstart ht).2 hty
    · rw [if_neg hi] at hty ⊢
      exact h.chained i c' hc' hty
  · obtain ⟨c', hc', hpc⟩ := h.pcs i c hc
    rw [hget, hc']
    refine ⟨_, rfl, ?_⟩
    dsimp only
    split
    · exact hpc
    · exact hpc
  · obtain ⟨-, ⟨c, hc, htc, hle⟩, hlt⟩ := h.patches e he
    have hne : s.curTb ≠ e.tb := fun heq => by
      rw [← heq, hb] at hc
      obtain rfl := Option.some.inj hc
      rw [ht] at hle
      omega
    exact ⟨c, by rw [hget, hc, Option.map_some, if_neg hne], htc, hle⟩

/-- The exit at the limit. -/
theorem Generating.limitExit (h : Generating L s₀ s) : (s.limitExit L .target).Ensures (Generated L s₀) := by
  simp only [State.limitExit, State.GenLoop.target, ensures_bind, ensures_pure]
  refine (s.tb_ensures s.curTb).mono fun b hb => ?_
  obtain ⟨b', hb', htc, hle, hstart⟩ := h.cur
  obtain rfl : b' = b := Option.some.inj (hb'.symm.trans hb)
  have hnoted : ∀ (u : State) (e : PatchEntry) bs, ((u.emit bs).noted e).cores = u.cores := fun u e bs =>
    cores_updTb (u.emit bs |>.addPatch e) e.tb fun _ => ⟨rfl, rfl, rfl⟩
  have hloc : ∀ {u : State}, u.codePtr = s.codePtr →
      (u.emit ([0xe9] ++ le32 NEED_PATCH_32)).codePtr - 4 = s.codePtr + BitVec.ofNat 32 1 := fun {u} hu => by
    rw [State.codePtr_emit, hu]
    simp only [List.length_append, List.length_cons, List.length_nil, length_le32]
    bv_omega
  refine (notePatch_spec L _ _ _ _ _ _).mono fun s₁ hs₁ => (checkCode_ensures s₁).mono fun _ hcheck => ?_
  subst hs₁
  -- the field of the jump
  have hspan : (s.codePtr + BitVec.ofNat 32 5 - L.codeGenBuffer).toNat ≤ DEFAULT_CODE_GEN_BUFFER_SIZE →
      Span (s.codePtr + BitVec.ofNat 32 1) 4 ⊆ codeArea L := fun hcheck =>
    (span_subset_add (by decide) (by decide)).trans (span_subset (add_le_of_check (n := 5) h.codePtr (by decide) hcheck))
  by_cases hreset : b'.tcPtr = s.codePtr
  · rw [if_pos hreset] at hcheck ⊢
    refine (h.reset hb hreset).noted (hnoted _ _ _) rfl ?_ (Or.inr ⟨b'.setTcPtr NOT_TRANS_YET, ?_, (hstart hreset).1, rfl⟩)
    · dsimp only
      rw [hloc (u := s.updTb s.curTb _) rfl]
      exact hspan hcheck
    · simp only [State.updTb, List.getElem?_modify]
      show (s.tbs[s.curTb]?).map _ = _
      rw [hb]
      simp
  · rw [if_neg hreset] at hcheck ⊢
    have hdone : Generated L s₀ s := ⟨h.chained, h.pcs, fun e he => ⟨(h.patches e he).1, Or.inl (h.patches e he).2.1⟩⟩
    refine hdone.noted (hnoted _ _ _) rfl ?_ (Or.inl ⟨b', hb, htc, ?_⟩)
    · dsimp only
      rw [hloc rfl]
      exact hspan hcheck
    · have hoff := codeOff_add (L := L) (n := 1) (by decide) h.codePtr
      rw [hloc rfl, hoff]
      omega

/-! ## The fields of a finished superblock -/

/-- What a stub of slot `n` of block `tb` to `dest` makes `cpu_exec` patch: nothing, if it leads back to that
block, or else a word of the code. -/
def StubOk (L : Layout) (s : State) (tb : Nat) (n dest : Word) : Prop :=
  (∃ b, s.tbs[tb]? = some b ∧ b.pc = dest) ∨
    ∃ b, s.tbs[tb]? = some b ∧ b.tcPtr ≠ NOT_TRANS_YET ∧
      Span (b.tcPtr + (b.tbJmpOffset n.toNat).setWidth 32) 4 ⊆ codeArea L

/-- An offset cut to 16 bits still leads into the code. -/
theorem field_subset_code {tc loc : Word} (hle : codeOff L tc ≤ codeOff L loc) (hloc : Span loc 4 ⊆ codeArea L) :
    Span (tc + ((loc - tc).setWidth 16 : BitVec 16).setWidth 32) 4 ⊆ codeArea L := by
  have hsize : DEFAULT_CODE_GEN_BUFFER_SIZE = 134217728 := rfl
  have h0 := mem_span.mp (hloc (mem_span_add (i := 0) (by decide) (by decide)))
  have h3 := mem_span.mp (hloc (mem_span_add (i := 3) (by decide) (by decide)))
  have hend : codeOff L loc + 4 ≤ DEFAULT_CODE_GEN_BUFFER_SIZE := by
    have hadd := codeOff_add (L := L) (p := loc) (n := 3) (by decide) (by
      rw [BitVec.add_zero] at h0
      exact h0.le)
    have hlt : codeOff L (loc + BitVec.ofNat 32 3) < DEFAULT_CODE_GEN_BUFFER_SIZE := h3
    omega
  obtain ⟨k, hk, hkd⟩ : ∃ k : Nat, ((loc - tc).setWidth 16 : BitVec 16).setWidth 32 = BitVec.ofNat 32 k ∧
      codeOff L tc + k ≤ codeOff L loc := by
    refine ⟨((loc - tc).setWidth 16 : BitVec 16).toNat, by rw [BitVec.ofNat_toNat], ?_⟩
    have hsub : (loc - tc).toNat = codeOff L loc - codeOff L tc := by
      have heq : loc - tc = (loc - L.codeGenBuffer) - (tc - L.codeGenBuffer) := by ring
      rw [heq, BitVec.toNat_sub_of_le (by rwa [BitVec.le_def]), codeOff, codeOff]
    rw [BitVec.toNat_setWidth, hsub]
    have := Nat.mod_le (codeOff L loc - codeOff L tc) (2 ^ 16)
    omega
  rw [hk]
  refine span_subset ?_
  have hadd := codeOff_add (L := L) (p := tc) (n := k) (by omega) (by omega)
  rw [codeOff] at hadd
  omega

/-- A block is made. -/
structure MakesOne (s s' : State) : Prop where
  tbs : ∃ n, s'.tbs = s.tbs ++ [n] ∧ n.type = NOT_IND

theorem MakesOne.getElem? (h : MakesOne s s') {i : Nat} {b : TranslationBlock} (hb : s.tbs[i]? = some b) :
    s'.tbs[i]? = some b := by
  obtain ⟨n, hn, -⟩ := h.tbs
  rw [hn, List.getElem?_append_left (List.getElem?_eq_some_iff.mp hb).1, hb]

theorem MakesOne.chained (h : MakesOne s s') (hc : Chained L s) : Chained L s' := by
  obtain ⟨n, hn, hty⟩ := h.tbs
  intro i c hic hct
  rcases Nat.lt_or_ge i s.tbs.length with hi | hi
  · exact hc i c (by rwa [hn, List.getElem?_append_left hi] at hic) hct
  · rw [hn, List.getElem?_append_right hi] at hic
    obtain rfl := List.mem_singleton.mp (List.mem_of_getElem? hic)
    exact absurd hty hct

/-- Between two iterations of `lazy_patch`, with the entries `es` of the array, the first of which are done. -/
structure Linking (L : Layout) (s₀ : State) (es : List PatchEntry) (slots : List Word) (done : List PatchEntry)
    (s : State) : Prop where
  chained : Chained L s
  pcs : SamePcs s₀ s
  patchArray : s.patchArray = es
  fields : ∀ e ∈ es, Span e.loc 4 ⊆ codeArea L ∧ (FieldOk L s e ∨ LeadsBack s e)
  stubs : ∃ ns, s.log.slots = slots ++ ns ∧ ns.length = done.length ∧
    ∀ (i : Nat) (e : PatchEntry) (n : Word), done[i]? = some e → ns[i]? = some n → StubOk L s e.tb n e.dest

variable {es done : List PatchEntry} {slots : List Word} {e : PatchEntry}

/-- The same, and where the words `cpu_exec` patches are. -/
def State.sites (s : State) : List ((Nat → BitVec 16) × (Word × Word × (Word × (Nat → Word) × (Nat → Word) × Word))) :=
  s.tbs.map fun b => (b.tbJmpOffset, b.core)

theorem sites_updTb (s : State) (k : Nat) {f : TranslationBlock → TranslationBlock} (hf : KeepsChain f)
    (ho : ∀ b, (f b).tbJmpOffset = b.tbJmpOffset) : (s.updTb k f).sites = s.sites := by
  simp only [State.sites, State.updTb]
  apply List.ext_getElem?
  intro j
  rw [List.getElem?_map, List.getElem?_map, List.getElem?_modify]
  cases s.tbs[j]? with
  | none => rfl
  | some b =>
    obtain ⟨h₁, h₂, h₃⟩ := hf b
    by_cases hj : k = j
    · simp [hj, TranslationBlock.core, h₁, h₂, h₃, ho]
    · simp [hj]

theorem cores_of_sites (h : s'.sites = s.sites) : s'.cores = s.cores := by
  have hmap : ∀ t : State, t.cores = t.sites.map (·.2) := fun t => by simp [State.cores, State.sites]
  rw [hmap, h, hmap]

theorem StubOk.congr {tb : Nat} {n dest : Word} (h : StubOk L s tb n dest) (hs : s'.sites = s.sites) :
    StubOk L s' tb n dest := by
  have hex : ∀ {b}, s.tbs[tb]? = some b → ∃ c, s'.tbs[tb]? = some c ∧ c.tbJmpOffset = b.tbJmpOffset ∧ c.pc = b.pc ∧
      c.tcPtr = b.tcPtr := fun {b} hb => by
    have hi : (s'.sites)[tb]? = some (b.tbJmpOffset, b.core) := by
      rw [hs, State.sites, List.getElem?_map, hb, Option.map_some]
    rw [State.sites, List.getElem?_map] at hi
    obtain ⟨c, hc, hcore⟩ := Option.map_eq_some_iff.mp hi
    simp only [TranslationBlock.core, Prod.mk.injEq] at hcore
    exact ⟨c, hc, hcore.1, hcore.2.1, hcore.2.2.1⟩
  rcases h with ⟨b, hb, hpc⟩ | ⟨b, hb, ht, hspan⟩
  · obtain ⟨c, hc, -, hpc', -⟩ := hex hb
    exact Or.inl ⟨c, hc, hpc'.trans hpc⟩
  · obtain ⟨c, hc, ho, -, ht'⟩ := hex hb
    exact Or.inr ⟨c, hc, ht' ▸ ht, by rw [ht', ho]; exact hspan⟩

theorem Linking.congr (h : Linking L s₀ es slots done s) (hs : s'.sites = s.sites) (ha : s'.patchArray = s.patchArray)
    (hl : s'.log.slots = s.log.slots) : Linking L s₀ es slots done s' := by
  have hcores := cores_of_sites hs
  obtain ⟨ns, hns, hlen, hok⟩ := h.stubs
  exact ⟨h.chained.congr hcores, h.pcs.congr hcores, ha.trans h.patchArray,
    fun e he => (h.fields e he).imp_right fun h => h.imp (·.congr hcores) (·.congr hcores),
    ns, hl.trans hns, hlen, fun i e n h₁ h₂ => (hok i e n h₁ h₂).congr hs⟩

theorem Linking.makesOne (h : Linking L s₀ es slots done s) (hm : MakesOne s s') (ha : s'.patchArray = s.patchArray)
    (hl : s'.log.slots = s.log.slots) : Linking L s₀ es slots done s' := by
  obtain ⟨ns, hns, hlen, hok⟩ := h.stubs
  refine ⟨hm.chained h.chained, fun i b hb => ?_, ha.trans h.patchArray, fun e he => (h.fields e he).imp_right ?_,
    ns, hl.trans hns, hlen, fun i e n h₁ h₂ => ?_⟩
  · obtain ⟨c, hc, hpc⟩ := h.pcs i b hb
    exact ⟨c, hm.getElem? hc, hpc⟩
  · rintro (⟨b, hb, hr⟩ | ⟨b, hb, hr⟩)
    · exact Or.inl ⟨b, hm.getElem? hb, hr⟩
    · exact Or.inr ⟨b, hm.getElem? hb, hr⟩
  · rcases hok i e n h₁ h₂ with ⟨b, hb, hr⟩ | ⟨b, hb, hr⟩
    · exact Or.inl ⟨b, hm.getElem? hb, hr⟩
    · exact Or.inr ⟨b, hm.getElem? hb, hr⟩

theorem Linking.takeSlot (h : Linking L s₀ es slots done s) (he : e ∈ es) :
    (s.takeSlot e).Ensures fun r => Linking L s₀ es slots (done ++ [e]) r.2 := by
  simp only [State.takeSlot, ensures_bind, ensures_pure]
  refine (State.tb_ensures (s.setCurTb e.tb) e.tb).mono fun b hb => ?_
  have hb : s.tbs[e.tb]? = some b := hb
  obtain ⟨n, hn⟩ : ∃ n, n = b.patchNum - 1 := ⟨_, rfl⟩
  rw [← hn]
  obtain ⟨s', hs'⟩ : ∃ s' : State, s' = ((s.setCurTb e.tb).logSlot n).updTb e.tb fun b =>
    (b.setPatchNum n).setJmpOffset n.toNat ((e.loc - b.tcPtr).setWidth 16) := ⟨_, rfl⟩
  rw [← hs']
  have hcores : s'.cores = s.cores := by
    rw [hs']
    exact cores_updTb _ _ fun _ => ⟨rfl, rfl, rfl⟩
  have hget : s'.tbs[e.tb]? = some ((b.setPatchNum n).setJmpOffset n.toNat ((e.loc - b.tcPtr).setWidth 16)) := by
    rw [hs']
    show (s.tbs.modify e.tb _)[e.tb]? = _
    rw [List.getElem?_modify, hb]
    simp
  have hother : ∀ i, i ≠ e.tb → s'.tbs[i]? = s.tbs[i]? := fun i hi => by
    rw [hs']
    show (s.tbs.modify e.tb _)[i]? = _
    rw [List.getElem?_modify]
    simp [Ne.symm hi]
  obtain ⟨hloc, hfield⟩ := h.fields e he
  -- the offset recorded is one into the code, if the block has code
  have hsite : b.tcPtr ≠ NOT_TRANS_YET →
      Span (b.tcPtr + ((e.loc - b.tcPtr).setWidth 16 : BitVec 16).setWidth 32) 4 ⊆ codeArea L := fun ht => by
    rcases hfield with ⟨c, hc, -, hle⟩ | ⟨c, hc, -, hnty⟩
    · obtain rfl : b = c := Option.some.inj (hb.symm.trans hc)
      exact field_subset_code hle hloc
    · obtain rfl : b = c := Option.some.inj (hb.symm.trans hc)
      exact absurd hnty ht
  have hkeep : ∀ {tb : Nat} {k dest : Word}, StubOk L s tb k dest → StubOk L s' tb k dest := fun {tb k dest} hok => by
    by_cases htb : tb = e.tb
    · subst htb
      rcases hok with ⟨c, hc, hpc⟩ | ⟨c, hc, ht, hspan⟩
      · obtain rfl : b = c := Option.some.inj (hb.symm.trans hc)
        exact Or.inl ⟨_, hget, hpc⟩
      · obtain rfl : b = c := Option.some.inj (hb.symm.trans hc)
        refine Or.inr ⟨_, hget, ht, ?_⟩
        show Span (b.tcPtr + (Function.update b.tbJmpOffset n.toNat _ k.toNat).setWidth 32) 4 ⊆ codeArea L
        by_cases hk : k.toNat = n.toNat
        · rw [hk, Function.update_self]
          exact hsite ht
        · rwa [Function.update_of_ne hk]
    · unfold StubOk
      rw [hother tb htb]
      exact hok
  have hnew : StubOk L s' e.tb n e.dest := by
    rcases hfield with ⟨c, hc, ht, -⟩ | ⟨c, hc, hpc, -⟩
    · obtain rfl : b = c := Option.some.inj (hb.symm.trans hc)
      refine Or.inr ⟨_, hget, ht, ?_⟩
      show Span (b.tcPtr + (Function.update b.tbJmpOffset n.toNat _ n.toNat).setWidth 32) 4 ⊆ codeArea L
      rw [Function.update_self]
      exact hsite ht
    · obtain rfl : b = c := Option.some.inj (hb.symm.trans hc)
      exact Or.inl ⟨_, hget, hpc⟩
  obtain ⟨ns, hns, hlen, hok⟩ := h.stubs
  refine ⟨h.chained.congr hcores, h.pcs.congr hcores, ?_,
    fun e he => (h.fields e he).imp_right fun h => h.imp (·.congr hcores) (·.congr hcores), ns ++ [n], ?_, ?_, ?_⟩
  · rw [hs']
    exact h.patchArray
  · rw [hs']
    show s.log.slots ++ [n] = _
    rw [hns, List.append_assoc]
  · rw [List.length_append, List.length_append, hlen]
    rfl
  · intro i e' k hi hk
    rcases Nat.lt_or_ge i done.length with hlt | hge
    · rw [List.getElem?_append_left hlt] at hi
      rw [List.getElem?_append_left (hlen ▸ hlt)] at hk
      exact hkeep (hok i e' k hi hk)
    · rw [List.getElem?_append_right hge] at hi
      rw [List.getElem?_append_right (hlen ▸ hge)] at hk
      obtain rfl := List.mem_singleton.mp (List.mem_of_getElem? hi)
      obtain rfl := List.mem_singleton.mp (List.mem_of_getElem? hk)
      exact hnew

theorem Linking.patchToStub (h : Linking L s₀ es slots done s) (he : e ∈ es) (d : Option Nat) :
    (s.patchToStub L e d).Ensures (Linking L s₀ es slots (done ++ [e])) := by
  have hmake : (s.makeDest L e d).Ensures (Linking L s₀ es slots done) := by
    cases d with
    | none =>
      simp only [State.makeDest, ensures_bind, ensures_pure]
      refine makeTb_spec.mono fun p hp => ?_
      obtain ⟨i, s₁⟩ := p
      obtain ⟨-, rfl⟩ := hp
      exact h.makesOne ⟨_, rfl, rfl⟩ rfl rfl
    | some d => exact ensures_ok.mpr h
  simp only [State.patchToStub, ensures_bind, ensures_pure]
  refine hmake.mono fun s₁ h₁ => ?_
  have hst : Linking L s₀ es slots done (s₁.st32 e.loc (s₁.sieveCodePtr - e.loc - 4)) := h₁.congr rfl rfl rfl
  refine (hst.takeSlot he).mono fun p h₂ _ _ => ?_
  obtain ⟨n, s₂⟩ := p
  rw [cemitExitStub_eq]
  exact Linking.congr h₂ rfl rfl rfl

theorem Linking.lazyPatchEntry (h : Linking L s₀ es slots done s) (he : e ∈ es) :
    (s.lazyPatchEntry L e).Ensures (Linking L s₀ es slots (done ++ [e])) := by
  simp only [State.lazyPatchEntry, ensures_bind]
  refine (tbFindFast_frame s e.dest e.tbTag).mono fun p hp => ?_
  obtain ⟨d, s₁⟩ := p
  obtain ⟨⟨c, rfl⟩, -⟩ := hp
  have h₁ : Linking L s₀ es slots done (s.withCache c) := h.congr rfl rfl rfl
  cases d with
  | none => exact h₁.patchToStub he none
  | some d =>
    simp only [ensures_bind, ensures_ite, ensures_pure]
    intro b _
    refine ⟨fun _ => ?_, fun _ => h₁.patchToStub he _⟩
    have hst : Linking L s₀ es slots done ((s.withCache c).st32 e.loc (b.tcPtr - e.loc - 4)) := h₁.congr rfl rfl rfl
    refine (hst.takeSlot he).mono fun p h₂ => ?_
    obtain ⟨n, s₂⟩ := p
    exact Linking.congr h₂ (sites_updTb _ _ (fun _ => ⟨rfl, rfl, rfl⟩) fun _ => rfl) rfl rfl

/-- The loop of `lazy_patch`. -/
theorem Linking.lazyPatch : ∀ (rest : List PatchEntry) {done : List PatchEntry} {s : State}, done ++ rest = es →
    Linking L s₀ es slots done s →
      (rest.foldlM (fun s e => State.lazyPatchEntry L s e) s).Ensures (Linking L s₀ es slots es)
  | [], done, s, hes, h => by
    rw [List.append_nil] at hes
    rw [List.foldlM_nil, ensures_pure, ← hes]
    exact hes ▸ h
  | e :: rest, done, s, hes, h => by
    rw [List.foldlM_cons, ensures_bind]
    refine (h.lazyPatchEntry (e := e) (by simp [← hes])).mono fun s₁ h₁ => ?_
    exact Linking.lazyPatch rest (by rw [← hes, List.append_assoc]; rfl) h₁

/-- What the last superblock's fields were made: block, slot and destination of each. -/
def State.stubs (s : State) : List (Nat × Word × Word) :=
  (s.patchArray.zip (s.log.slots.drop (s.log.slots.length - s.patchArray.length))).map fun p => (p.1.tb, p.2, p.1.dest)

/-- The stubs of the last superblock are as `cpu_exec` expects them. -/
def StubsOk (L : Layout) (s : State) : Prop := ∀ x ∈ s.stubs, StubOk L s x.1 x.2.1 x.2.2

theorem Linking.stubsOk (h : Linking L s₀ es slots es s) : StubsOk L s := by
  obtain ⟨ns, hns, hlen, hok⟩ := h.stubs
  have hdrop : s.log.slots.drop (s.log.slots.length - s.patchArray.length) = ns := by
    rw [hns, h.patchArray, List.length_append, hlen, Nat.add_sub_cancel, List.drop_left]
  intro x hx
  rw [State.stubs, hdrop, h.patchArray, List.mem_map] at hx
  obtain ⟨p, hp, rfl⟩ := hx
  obtain ⟨i, hi⟩ := List.mem_iff_getElem?.mp hp
  rw [List.getElem?_zip_eq_some] at hi
  exact hok i p.1 p.2 hi.1 hi.2

/-- What `gen_target_code` leaves of the blocks. -/
structure Translates (L : Layout) (s₀ s : State) : Prop where
  chained : Chained L s
  pcs : SamePcs s₀ s
  stubs : StubsOk L s

/-- The state the loop starts in, for a block without code. -/
theorem Generating.start {tb : Nat} {b : TranslationBlock} (hs : HasRoom L s) (hc : Chained L s)
    (htb : ∀ b, s.tbs[tb]? = some b → b.tcPtr = NOT_TRANS_YET) (hb : (s.placed tb).tbs[tb]? = some b) :
    Generating L s ((s.placed tb).beginSuperblock b tb) := by
  have hget : ∀ i, (s.placed tb).tbs[i]? = (s.tbs[i]?).map fun c => if tb = i then c.setTcPtr s.codeGenPtr else c := fun i => by
    simp only [State.placed, State.updTb, List.getElem?_modify]
    by_cases hi : tb = i <;> simp [hi]
  have hne : s.codeGenPtr ≠ NOT_TRANS_YET := codePtr_ne hs.codeGenPtr
  obtain ⟨b₀, hb₀, rfl⟩ : ∃ b₀, s.tbs[tb]? = some b₀ ∧ b = b₀.setTcPtr s.codeGenPtr := by
    rw [hget, Option.map_eq_some_iff] at hb
    obtain ⟨b₀, hb₀, he⟩ := hb
    exact ⟨b₀, hb₀, by rw [← he, if_pos rfl]⟩
  have htype : b₀.type = NOT_IND := by
    by_contra hty
    exact (hc tb b₀ hb₀ hty).1 (htb b₀ hb₀)
  refine ⟨fun i c hic hty => ?_, fun i c hic => ?_, hs.codeGenPtr, ?_, fun e he => absurd he List.not_mem_nil⟩
  · have hic : (s.placed tb).tbs[i]? = some c := hic
    rw [hget, Option.map_eq_some_iff] at hic
    obtain ⟨c', hc', rfl⟩ := hic
    by_cases hi : tb = i
    · subst hi
      obtain rfl : b₀ = c' := Option.some.inj (hb₀.symm.trans hc')
      rw [if_pos rfl] at hty
      exact absurd htype hty
    · rw [if_neg hi] at hty ⊢
      exact hc i c' hc' hty
  · show ∃ c', (s.placed tb).tbs[i]? = some c' ∧ c'.pc = c.pc
    rw [hget, hic]
    refine ⟨_, rfl, ?_⟩
    dsimp only
    split <;> rfl
  · exact ⟨b₀.setTcPtr s.codeGenPtr, hb, hne, le_rfl, fun _ => ⟨rfl, htype⟩⟩

theorem cpuGenCode_translates {ds : Decode} {tb : Nat} (hs : HasRoom L s) (hi : ShortInsns img) (hc : Chained L s)
    (htb : ∀ b, s.tbs[tb]? = some b → b.tcPtr = NOT_TRANS_YET) : (s.cpuGenCode L img ds tb).Ensures (Translates L s) := by
  have hplaced : s.cpuGenCode L img ds tb = (s.placed tb).genSuperblock L img .target ds tb := rfl
  rw [hplaced]
  simp only [State.genSuperblock, ensures_bind, ensures_pure]
  refine (State.tb_ensures (s.placed tb) tb).mono fun b hb => ?_
  intro _ hstb
  have hcount : (s.placed tb).stbs.length + 1 < STB_MAX := by
    simp only [abortIf] at hstb
    split at hstb
    · cases hstb
    · simp_all [State.beginSuperblock]
  have hloop := @genInsns_ensures L img .target (s.placed tb) ds tb (Generating L s) (Generated L s)
    (fun _ hw => (hw.genInsn hi).mono fun p hp => ?_) (fun s₁ hw => hw.limitExit) MAX_INSNS _ _
    (.start (by rw [State.tb, hb]) hcount) (.start hs hc htb hb)
  · refine hloop.mono fun t ht => ?_
    have hstart : Linking L s t.patchArray t.log.slots [] (t.setPcEnd (s.placed tb).stbs.length) :=
      ⟨ht.chained.congr rfl, ht.pcs.congr rfl, rfl, fun e he => (ht.patches e he).imp_right fun h =>
        h.imp (·.congr rfl) (·.congr rfl), [], by simp [State.setPcEnd], rfl, fun i e n h => absurd h (by simp)⟩
    refine (Linking.lazyPatch t.patchArray (List.nil_append _) hstart).mono fun u hu => ?_
    intro _ _
    have hlast : Linking L s t.patchArray t.log.slots t.patchArray
        (u.setCodeGenPtr.updTb tb fun b => b.setHcodeSize ((u.setCodeGenPtr.codeGenPtr - b.tcPtr).setWidth 16)) :=
      hu.congr (sites_updTb _ _ (fun _ => ⟨rfl, rfl, rfl⟩) fun _ => rfl) rfl rfl
    exact ⟨hlast.chained, hlast.pcs, hlast.stubsOk⟩
  · obtain ⟨r, cont, s₂⟩ := p
    cases cont with
    | false => exact hp.1
    | true => exact hp.2 rfl

theorem Translates.of_withCache {c : Word → Option Nat} (h : Translates L (s.withCache c) s') : Translates L s s' :=
  ⟨h.chained, h.pcs, h.stubs⟩

theorem getNextTb_translates {ds : Decode} {pc prev : Word} (hs : HasRoom L s) (hi : ShortInsns img) (hc : Chained L s)
    (hst : StubsOk L s) : (s.getNextTb L img ds pc prev).Ensures fun r => Translates L s r.2 := by
  simp only [State.getNextTb, ensures_bind]
  refine (tbFindFast_frame s pc NORMAL_TB_TAG).mono fun p hp => ?_
  obtain ⟨d, s₁⟩ := p
  obtain ⟨⟨c, rfl⟩, -⟩ := hp
  have hs₁ : HasRoom L (s.withCache c) := ⟨hs.codeGenPtr, hs.sieveCodePtr⟩
  cases d with
  | none =>
    simp only [ensures_bind, ensures_pure]
    intro f _
    refine makeTb_spec.mono fun p hp => ?_
    obtain ⟨tb, s₂⟩ := p
    obtain ⟨rfl, rfl⟩ := hp
    have hs₂ : HasRoom L ((s.withCache c).withNewTb pc f) := ⟨hs.codeGenPtr, hs.sieveCodePtr⟩
    have hm : MakesOne s ((s.withCache c).withNewTb pc f) := ⟨_, rfl, rfl⟩
    refine (cpuGenCode_translates hs₂ hi (hm.chained hc) fun b hb => ?_).mono fun u hu =>
      ⟨hu.chained, fun i b hb => hu.pcs i b (hm.getElem? hb), hu.stubs⟩
    have hnew : newTb (s.withCache c) pc f = b := by simpa [State.withNewTb] using hb
    rw [← hnew]
    rfl
  | some d =>
    simp only [ensures_bind, ensures_ite, ensures_pure]
    refine ((s.withCache c).tb_ensures d).mono fun b hb => ⟨fun ht => ?_, fun _ => ?_⟩
    · refine (cpuGenCode_translates hs₁ hi (hc.congr rfl) fun b' hb' => ?_).mono fun u hu => hu.of_withCache
      rw [← Option.some.inj (hb.symm.trans hb'), ht]
    · exact ⟨hc.congr rfl, fun i b hb => ⟨b, hb, rfl⟩, fun x hx => (hst x hx).congr rfl⟩

end Unitrans
