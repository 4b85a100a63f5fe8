/-
What one iteration of `cpu_exec` writes: the two buffers of emitted code, the
hash table of the sieve and three fields of `env`, and nothing else in memory
(`cpuExecIter_frame`). On the way, what a superblock leaves of the blocks that
are translated already (`Writing`): where their code and their links are.
-/
import Unitrans.Bookkeeping
import Unitrans.Sieve

namespace Unitrans

open X86 Except

variable {L : Layout} {img : Mem}

/-- The bytes of `code_gen_buffer`. -/
def codeArea (L : Layout) : Set Word := Span L.codeGenBuffer DEFAULT_CODE_GEN_BUFFER_SIZE

/-- Where code is emitted to. -/
def buffers (L : Layout) : Set Word := codeArea L ∪ Span L.sieveBuffer DEFAULT_SIEVE_BUFFER_SIZE

/-! ## The links of a block -/

/-- Where a block's code is, and the words `cpu_exec` patches in it. -/
def TranslationBlock.links (b : TranslationBlock) :
    Word × Word × (Nat → BitVec 16) × (Nat → Word) × (Nat → Word) × Word × Word :=
  (b.pc, b.tcPtr, b.tbJmpOffset, b.jindSrcAddr, b.jindDestAddr, b.indEnterSieve, b.jmpIndIndex)

theorem TranslationBlock.links_pc {b c : TranslationBlock} (h : b.links = c.links) : b.pc = c.pc := congrArg (·.1) h

theorem TranslationBlock.links_tcPtr {b c : TranslationBlock} (h : b.links = c.links) : b.tcPtr = c.tcPtr :=
  congrArg (·.2.1) h

/-- An update of other fields. -/
def KeepsLinks (f : TranslationBlock → TranslationBlock) : Prop := ∀ b, (f b).links = b.links

/-- The links of block `i`. -/
def State.linksAt (s : State) (i : Nat) := (s.tbs[i]?).map (·.links)

theorem State.linksAt_updTb (s : State) {i j : Nat} {f : TranslationBlock → TranslationBlock}
    (h : j ≠ i ∨ KeepsLinks f) : (s.updTb i f).linksAt j = s.linksAt j := by
  unfold State.linksAt State.updTb
  rw [List.getElem?_modify]
  cases hj : s.tbs[j]? with
  | none => rfl
  | some b =>
    rcases h with hne | hf
    · simp [Ne.symm hne]
    · by_cases hij : i = j
      · simp [hij, hf b]
      · simp [hij]

theorem State.linksAt_withNewTb (s : State) (pc f : Word) {j : Nat} (hj : j < s.tbs.length) :
    (s.withNewTb pc f).linksAt j = s.linksAt j := by
  unfold State.linksAt State.withNewTb
  rw [List.getElem?_append_left hj]

theorem State.linksAt_congr {s s' : State} (h : s'.tbs = s.tbs) (j : Nat) : s'.linksAt j = s.linksAt j := by
  rw [State.linksAt, h, State.linksAt]

theorem State.linksAt_eq_some {s : State} {i : Nat} {l} (h : s.linksAt i = some l) :
    ∃ b, s.tbs[i]? = some b ∧ b.links = l := Option.map_eq_some_iff.mp h

/-! ## One instruction -/

/-- What the emitters leave of the blocks: all but the current one keep their links, and the
current block stays or is one without code. -/
structure KeepsBlocks (s s' : State) : Prop where
  links : ∀ i b, s.tbs[i]? = some b → i ≠ s.curTb → b.tcPtr ≠ NOT_TRANS_YET → s'.linksAt i = some b.links
  cur : s'.curTb = s.curTb ∨ ∀ b, s.tbs[s'.curTb]? = some b → b.tcPtr = NOT_TRANS_YET

theorem NextTb.keepsBlocks {s s' : State} {cont : Bool} (h : NextTb s cont s') : KeepsBlocks s s' := by
  have hlinks : ∀ {i b}, s.tbs[i]? = some b → s.linksAt i = some b.links := fun hb => by
    rw [State.linksAt, hb]
    rfl
  cases h with
  | @ends k c cur hk hpc htc hcur =>
    refine ⟨fun i b hb hi _ => ?_, Or.inl rfl⟩
    have hfrom : KeepsLinks fun b => b.addJmpFrom s.curTb cur.patchNum := fun _ => rfl
    unfold State.jumped State.tbAddJmpFrom
    rw [State.linksAt_updTb _ (Or.inr hfrom), State.linksAt_updTb _ (Or.inl hi)]
    exact (State.linksAt_congr rfl i).trans (hlinks hb)
  | @opens k c hk hpc htc =>
    refine ⟨fun i b hb hi ht => ?_, Or.inr fun b hb => ?_⟩
    · have hne : i ≠ k := fun he => ht (by rw [he, hk] at hb; rw [← Option.some.inj hb, htc])
      unfold State.opened
      exact (State.linksAt_congr rfl i).trans ((s.linksAt_updTb (Or.inl hne)).trans (hlinks hb))
    · obtain rfl : b = c := Option.some.inj (hb.symm.trans hk)
      exact htc
  | makes f =>
    refine ⟨fun i b hb hi _ => ?_, Or.inr fun b hb => ?_⟩
    · have hlt : i < s.tbs.length := (List.getElem?_eq_some_iff.mp hb).1
      have hne : i ≠ s.tbs.length := by omega
      unfold State.opened
      refine (State.linksAt_congr rfl i).trans ((State.linksAt_updTb _ (Or.inl hne)).trans ?_)
      rw [State.linksAt_withNewTb s _ _ hlt]
      exact hlinks hb
    · have hlt := (List.getElem?_eq_some_iff.mp hb).1
      exact absurd hlt (Nat.lt_irrefl _)

/-- What an emitter does before `trans_next`: it updates the current block. -/
theorem KeepsBlocks.after {s t s' : State} {f : TranslationBlock → TranslationBlock} (h : KeepsBlocks t s')
    (ht : t.tbs = s.tbs.modify s.curTb f) (hc : t.curTb = s.curTb) : KeepsBlocks s s' := by
  have hother : ∀ i, i ≠ s.curTb → t.tbs[i]? = s.tbs[i]? := fun i hi => by
    rw [ht, List.getElem?_modify]
    simp [Ne.symm hi]
  refine ⟨fun i b hb hi htc => h.links i b (by rw [hother i hi]; exact hb) (by rw [hc]; exact hi) htc, ?_⟩
  rw [← hc]
  by_cases hcur : s'.curTb = t.curTb
  · exact Or.inl hcur
  · refine Or.inr fun b hb => h.cur.resolve_left hcur b ?_
    rw [hother _ (hc ▸ hcur)]
    exact hb

theorem KeepsBlocks.stay {s s' : State} {f : TranslationBlock → TranslationBlock}
    (ht : s'.tbs = s.tbs.modify s.curTb f) (hc : s'.curTb = s.curTb) : KeepsBlocks s s' :=
  KeepsBlocks.after (t := s') ⟨fun i b hb _ _ => by rw [State.linksAt, hb]; rfl, Or.inl rfl⟩ ht hc

theorem Emitted.keepsBlocks {s s' : State} {ds : Decode} {cont : Bool} (h : Emitted L img s ds cont s') :
    KeepsBlocks s s' := by
  have hsame : ∀ {t : State}, t.tbs = s.tbs → t.curTb = s.curTb → KeepsBlocks s t := fun ht hc =>
    .stay (f := id) (by rw [ht, List.modify_id]) hc
  cases h with
  | normal => exact hsame rfl rfl
  | int => exact hsame rfl rfl
  | sysenter => exact hsame rfl rfl
  | ret => exact hsame rfl rfl
  | retIw => exact hsame rfl rfl
  | jmpNearMem hfn h4 hb => exact .stay rfl rfl
  | @jmp b c s₁ hfn hb he =>
    cases he with
    | stays => exact .stay rfl rfl
    | copies hi hpc h0 hne => exact .stay rfl rfl
    | makes =>
      refine ⟨fun i b hb hi _ => ?_, Or.inl rfl⟩
      have hlt : i < s.tbs.length := (List.getElem?_eq_some_iff.mp hb).1
      unfold State.noted
      refine (State.linksAt_updTb _ (Or.inl hi)).trans ?_
      refine (State.linksAt_congr rfl i).trans ((State.linksAt_withNewTb (s.withCache c) _ _ hlt).trans ?_)
      rw [State.linksAt]
      show (s.tbs[i]?).map _ = _
      rw [hb]
      rfl
  | callDisp hfn hn => exact hn.keepsBlocks.after rfl rfl
  | callNearMem hfn h4 hn => exact hn.keepsBlocks.after rfl rfl
  | jcond hfn hb hn => exact hn.keepsBlocks.after rfl rfl
  | otherJcond hfn hb hn => exact hn.keepsBlocks.after rfl rfl

theorem length_read (m : Mem) (a : Word) (n : Nat) : (m.read a n).length = n := by simp [Mem.read]

/-- The code an emitter adds, and the field it notes in it. -/
structure Adds (s s' : State) (n : Nat) : Prop where
  code : ∃ bs, bs.length ≤ n ∧ s'.mem = s.mem.put s.codePtr bs ∧ s'.codePtr = s.codePtr + BitVec.ofNat 32 bs.length ∧
    (s'.patchArray = s.patchArray ∨ ∃ e k, s'.patchArray = s.patchArray ++ [e] ∧ e.tb = s.curTb ∧
      e.loc = s.codePtr + BitVec.ofNat 32 k ∧ k + 4 ≤ bs.length)
  sieveCodePtr : s'.sieveCodePtr = s.sieveCodePtr

theorem NextTb.patchArray {s s' : State} {cont : Bool} (h : NextTb s cont s') : s'.patchArray = s.patchArray := by
  cases h <;> rfl

theorem NextTb.sieveCodePtr {s s' : State} {cont : Bool} (h : NextTb s cont s') :
    s'.sieveCodePtr = s.sieveCodePtr := by
  cases h <;> rfl

/-- An emitter that puts `cs` and goes on with `trans_next`. -/
theorem NextTb.adds {s t s' : State} {cont : Bool} {l : List Byte} {n : Nat} (h : NextTb t cont s')
    (hn : l.length + 5 ≤ n) (hn' : n ≤ 2 ^ 32) (hm : t.mem = s.mem.put s.codePtr l)
    (hp : t.codePtr = s.codePtr + BitVec.ofNat 32 l.length) (hs : t.sieveCodePtr = s.sieveCodePtr)
    (ha : t.patchArray = s.patchArray ∨ ∃ e k, t.patchArray = s.patchArray ++ [e] ∧ e.tb = s.curTb ∧
      e.loc = s.codePtr + BitVec.ofNat 32 k ∧ k + 4 ≤ l.length) : Adds s s' n := by
  obtain ⟨bs, hlen, hmem, hptr⟩ := h.code
  refine ⟨⟨l ++ bs, by simp; omega, ?_, ?_, ?_⟩, h.sieveCodePtr.trans hs⟩
  · rw [hmem, hm, hp, Mem.put_put_append (by omega)]
  · rw [hptr, hp, List.length_append, BitVec.ofNat_add, BitVec.add_assoc]
  · rw [h.patchArray]
    refine ha.imp_right fun he => ?_
    obtain ⟨e, k, h₁, h₂, h₃, h₄⟩ := he
    exact ⟨e, k, h₁, h₂, h₃, by simp; omega⟩

theorem length_jmpNearMemBytes_le (r p b f : Word) (ds : Decode) : (jmpNearMemBytes L r p b f ds).length ≤ 200 := by
  have hpush := length_pushRmBytes ds
  simp only [jmpNearMemBytes, List.length_append, length_indOptBytes, length_movAbs]
  have hexit := length_exitTbBytes_le L r (p + BitVec.ofNat 32 (10 + (pushRmBytes ds).length) + 37) b IND_TYPE_JMP
  omega

theorem Emitted.adds {s s' : State} {ds : Decode} {cont : Bool} (h : Emitted L img s ds cont s')
    (hl : s.insnLen.toNat ≤ 2 ^ 31) : Adds s s' (256 + s.insnLen.toNat) := by
  have hread : (insnBytes img s).length = s.insnLen.toNat := length_read ..
  have hput : ∀ {t : State} (bs : List Byte), bs.length ≤ 256 + s.insnLen.toNat → t.mem = s.mem.put s.codePtr bs →
      t.codePtr = s.codePtr + BitVec.ofNat 32 bs.length → t.patchArray = s.patchArray →
      t.sieveCodePtr = s.sieveCodePtr → Adds s t (256 + s.insnLen.toNat) := fun bs hlen hm hp ha hs =>
    ⟨⟨bs, hlen, hm, hp, Or.inl ha⟩, hs⟩
  -- the field of a jump that ends what is emitted
  have hfield : ∀ {bs : List Byte}, 6 ≤ bs.length → bs.length ≤ 16 →
      (s.emit bs).codePtr - 4 = s.codePtr + BitVec.ofNat 32 (bs.length - 4) := fun {bs} h₁ h₂ => by
    rw [State.codePtr_emit]
    bv_omega
  cases h with
  | normal hfn => exact hput (insnBytes img s) (by omega) rfl rfl rfl rfl
  | int hfn =>
    split
    · have hlen : (exitTestBytes L s.codePtr ++ insnBytes img s).length = 23 + s.insnLen.toNat := by simp [hread]
      rw [State.emit_emit (by rw [length_exitTestBytes, hread]; omega)]
      exact hput _ (by omega) rfl rfl rfl rfl
    · rw [State.emit_emit (by simp [hread]; omega)]
      exact hput _ (by simp [hread]) rfl rfl rfl rfl
  | sysenter hfn => exact hput [] (by simp) (Mem.put_nil ..).symm (BitVec.add_zero _).symm rfl rfl
  | ret hfn hb => exact hput _ (by simp; omega) rfl rfl rfl rfl
  | retIw hfn hb =>
    refine hput (retIwBytes L ds.imm16 _) ?_ rfl rfl rfl rfl
    simp only [retIwBytes, List.length_append, length_jmpRetCacheBytes]
    split <;> simp <;> omega
  | @jmpNearMem b hfn h4 hb =>
    have hlen := length_jmpNearMemBytes_le (L := L) s.tbRetAddr s.codePtr (L.tbPtr s.curTb) b.funcAddr ds
    exact hput _ (hlen.trans (by omega)) rfl rfl rfl rfl
  | @jmp b c s₁ hfn hb he =>
    have hjmp : ∀ cs : List Byte, cs.length ≤ 12 → s₁.mem = s.mem.put s.codePtr cs →
        s₁.codePtr = s.codePtr + BitVec.ofNat 32 cs.length → s₁.patchArray = s.patchArray → s₁.curTb = s.curTb →
        s₁.sieveCodePtr = s.sieveCodePtr → Adds s ((s₁.emit ([0xe9] ++ le32 NEED_PATCH_32)).noted
          ⟨s₁.codePtr + 1, s.jmpTargetOf ds, s₁.curTb, b.funcAddr, NORMAL_TB_TAG⟩) (256 + s.insnLen.toNat) := by
      intro cs hlen hm hp ha hc hs
      refine ⟨⟨cs ++ ([0xe9] ++ le32 NEED_PATCH_32), by simp; omega, ?_, ?_, Or.inr ⟨⟨s₁.codePtr + 1, s.jmpTargetOf ds,
        s₁.curTb, b.funcAddr, NORMAL_TB_TAG⟩, cs.length + 1, ?_, hc, ?_, ?_⟩⟩, hs⟩
      · show s₁.mem.put s₁.codePtr _ = _
        rw [hm, hp, Mem.put_put_append (by simp; omega)]
      · show s₁.codePtr + BitVec.ofNat 32 ([0xe9] ++ le32 NEED_PATCH_32).length = _
        rw [hp, BitVec.add_assoc, ← BitVec.ofNat_add, ← List.length_append]
      · show s₁.patchArray ++ _ = _
        rw [ha]
      · show s₁.codePtr + 1 = _
        rw [hp, BitVec.ofNat_add, BitVec.add_assoc]
        rfl
      · simp
    cases he with
    | stays => exact hjmp [] (by simp) (Mem.put_nil ..).symm (BitVec.add_zero _).symm rfl rfl rfl
    | copies hi hpc h0 hne => exact hjmp _ (by simp) rfl rfl rfl rfl rfl
    | makes => exact hjmp _ (by simp) rfl rfl rfl rfl rfl
  | callDisp hfn hn =>
    refine hn.adds (l := callDispBytes s.sieveStub s.codePtr _ _) (by simp; omega) (by omega) rfl rfl rfl ?_
    exact Or.inr ⟨_, 16, rfl, rfl, rfl, by simp⟩
  | callNearMem hfn h4 hn =>
    have hlen := length_callNearMemBytes_le (L := L) s.tbRetAddr s.sieveStub s.codePtr (L.tbPtr s.curTb) s.pcPtr ds
    exact hn.adds (l := callNearMemBytes L ..) (by omega) (by omega) rfl rfl rfl (Or.inl rfl)
  | jcond hfn hb hn =>
    have hlen : 6 ≤ (jcondBytes img ds).length ∧ (jcondBytes img ds).length ≤ 7 := by
      unfold jcondBytes
      split <;> simp
    exact hn.adds (l := jcondBytes img ds) (by omega) (by omega) rfl rfl rfl
      (Or.inr ⟨_, _, rfl, rfl, hfield hlen.1 (by omega), by omega⟩)
  | otherJcond hfn hb hn =>
    have hlen : 9 ≤ (otherJcondBytes ds).length ∧ (otherJcondBytes ds).length ≤ 10 := by
      unfold otherJcondBytes
      split <;> simp
    exact hn.adds (l := otherJcondBytes ds) (by omega) (by omega) rfl rfl rfl
      (Or.inr ⟨_, _, rfl, rfl, hfield (by omega) (by omega), by omega⟩)

/-! ## A superblock -/

/-- Every instruction of the guest has bytes, and none takes half its address space. -/
def ShortInsns (img : Mem) : Prop :=
  ∀ ds pc r ok, simpleDisasInsn img ds pc = some (r, ok) → r.decodeEip ≠ pc ∧ (r.decodeEip - pc).toNat ≤ 2 ^ 31

/-- The block `i` may be given code by the translation of `tb` that began in `s₀`. -/
def Translating (s₀ : State) (tb i : Nat) : Prop := i = tb ∨ ∀ b, s₀.tbs[i]? = some b → b.tcPtr = NOT_TRANS_YET

/-- The translation of `tb` that began in `s₀`, and has come to `s`. -/
structure Writing (L : Layout) (s₀ : State) (tb : Nat) (s : State) : Prop where
  mem : ∀ x, x ∉ buffers L → s.mem x = s₀.mem x
  codePtr : (s.codePtr - L.codeGenBuffer).toNat ≤ DEFAULT_CODE_GEN_BUFFER_SIZE
  sieveCodePtr : (s.sieveCodePtr - L.sieveBuffer).toNat ≤ DEFAULT_SIEVE_BUFFER_SIZE
  kept : ∀ i b, s₀.tbs[i]? = some b → ¬ Translating s₀ tb i → s.linksAt i = some b.links
  cur : Translating s₀ tb s.curTb
  patches : ∀ e ∈ s.patchArray, Span e.loc 4 ⊆ codeArea L ∧ Translating s₀ tb e.tb

variable {s₀ s s' : State} {tb : Nat}

theorem Writing.congr (h : Writing L s₀ tb s) (hm : s'.mem = s.mem) (hp : s'.codePtr = s.codePtr)
    (hs : s'.sieveCodePtr = s.sieveCodePtr) (hk : ∀ i, ¬ Translating s₀ tb i → i < s.tbs.length → s'.linksAt i = s.linksAt i)
    (hc : Translating s₀ tb s'.curTb) (ha : s'.patchArray = s.patchArray) : Writing L s₀ tb s' := by
  refine ⟨fun x hx => by rw [hm, h.mem x hx], by rw [hp]; exact h.codePtr, by rw [hs]; exact h.sieveCodePtr,
    fun i b hb hi => ?_, hc, by rw [ha]; exact h.patches⟩
  have hold := h.kept i b hb hi
  obtain ⟨c, hc, -⟩ := State.linksAt_eq_some hold
  rw [hk i hi (List.getElem?_eq_some_iff.mp hc).1, hold]

theorem Writing.updTb (h : Writing L s₀ tb s) {i : Nat} {f : TranslationBlock → TranslationBlock}
    (hi : Translating s₀ tb i ∨ KeepsLinks f) : Writing L s₀ tb (s.updTb i f) :=
  h.congr rfl rfl rfl (fun _ hj _ => s.linksAt_updTb (hi.imp_left fun hi he => hj (he ▸ hi))) h.cur rfl

theorem Writing.withNewTb (h : Writing L s₀ tb s) (pc f : Word) : Writing L s₀ tb (s.withNewTb pc f) :=
  h.congr rfl rfl rfl (fun _ _ hj => s.linksAt_withNewTb pc f hj) h.cur rfl

theorem Writing.withCache (h : Writing L s₀ tb s) (c : Word → Option Nat) : Writing L s₀ tb (s.withCache c) :=
  h.congr rfl rfl rfl (fun _ _ _ => rfl) h.cur rfl

/-- A store into the code. -/
theorem Writing.st32 (h : Writing L s₀ tb s) {a : Word} (ha : Span a 4 ⊆ codeArea L) (w : Word) :
    Writing L s₀ tb (s.st32 a w) := by
  refine ⟨fun x hx => ?_, h.codePtr, h.sieveCodePtr, h.kept, h.cur, h.patches⟩
  exact (Mem.st32_of_notMem fun hs => hx (Or.inl (ha hs))).trans (h.mem x hx)

/-- What was added ends within the buffer only if it lies in it. -/
theorem add_le_of_check {a p : Word} {n N : Nat} (hp : (p - a).toNat ≤ N) (hn : n + N < 2 ^ 32)
    (h : (p + BitVec.ofNat 32 n - a).toNat ≤ N) : (p - a).toNat + n ≤ N := by
  have hsplit : p + BitVec.ofNat 32 n - a = (p - a) + BitVec.ofNat 32 n := by ring
  rw [hsplit, BitVec.toNat_add, BitVec.toNat_ofNat, Nat.mod_eq_of_lt (a := n) (by omega), Nat.mod_eq_of_lt (by omega)] at h
  exact h

theorem Writing.emitted {n : Nat} (h : Writing L s₀ tb s) (ha : Adds s s' n) (hk : KeepsBlocks s s') (hn : n ≤ 2 ^ 31 + 256)
    (hcheck : (s'.codePtr - L.codeGenBuffer).toNat ≤ DEFAULT_CODE_GEN_BUFFER_SIZE) : Writing L s₀ tb s' := by
  obtain ⟨bs, hlen, hm, hp, hpatch⟩ := ha.code
  have hsize : DEFAULT_CODE_GEN_BUFFER_SIZE = 134217728 := rfl
  rw [hp] at hcheck
  have hfit := add_le_of_check h.codePtr (by omega) hcheck
  have hspan : Span s.codePtr bs.length ⊆ codeArea L := span_subset hfit
  have htc : ∀ i b, s₀.tbs[i]? = some b → ¬ Translating s₀ tb i → b.tcPtr ≠ NOT_TRANS_YET := fun i b hb hi ht =>
    hi (Or.inr fun c hc => by rw [← Option.some.inj (hb.symm.trans hc), ht])
  refine ⟨fun x hx => ?_, by rw [hp]; exact hcheck, by rw [ha.sieveCodePtr]; exact h.sieveCodePtr, fun i b hb hi => ?_,
    ?_, ?_⟩
  · rw [hm, Mem.put_of_notMem fun hs => hx (Or.inl (hspan hs)), h.mem x hx]
  · obtain ⟨c, hc, hl⟩ := State.linksAt_eq_some (h.kept i b hb hi)
    rw [← hl]
    exact hk.links i c hc (fun he => hi (he ▸ h.cur)) (by rw [TranslationBlock.links_tcPtr hl]; exact htc i b hb hi)
  · rcases hk.cur with hcur | hcur
    · rw [hcur]
      exact h.cur
    · by_contra hno
      obtain ⟨b, hb⟩ : ∃ b, s₀.tbs[s'.curTb]? = some b := by
        by_contra hnone
        exact hno (Or.inr fun b hb => absurd ⟨b, hb⟩ hnone)
      obtain ⟨c, hc, hl⟩ := State.linksAt_eq_some (h.kept _ b hb hno)
      exact htc _ b hb hno (by rw [← TranslationBlock.links_tcPtr hl, hcur c hc])
  · rcases hpatch with he | ⟨e, k, he, htb, hloc, hk⟩
    · rw [he]
      exact h.patches
    · rw [he]
      intro e' he'
      rcases List.mem_append.mp he' with he' | he'
      · exact h.patches e' he'
      · rw [List.mem_singleton.mp he', hloc, htb]
        exact ⟨(span_subset_add hk (by omega)).trans hspan, h.cur⟩

theorem Writing.genInsn {G : State.GenLoop} {ds : Decode} (h : Writing L s₀ tb s) (hi : ShortInsns img) :
    (s.genInsn L img G ds).Ensures fun r => Writing L s₀ tb r.2.2 := by
  refine (genInsn_spec s ds).mono fun p hp => ?_
  obtain ⟨r, cont, s'⟩ := p
  obtain ⟨ok, s₁, hr, he, hcheck, rfl⟩ := hp
  have hlen : (s.beginInsn r ok).insnLen.toNat ≤ 2 ^ 31 := (hi _ _ _ _ hr).2
  have hbegun : Writing L s₀ tb (s.beginInsn r ok) := h.congr rfl rfl rfl (fun _ _ _ => rfl) h.cur rfl
  exact (hbegun.emitted (he.adds hlen) he.keepsBlocks (by omega) hcheck).updTb (Or.inr fun _ => rfl)

theorem checkCode_ensures (s : State) : (s.checkCode L).Ensures fun _ =>
    (s.codePtr - L.codeGenBuffer).toNat ≤ DEFAULT_CODE_GEN_BUFFER_SIZE := by
  unfold State.checkCode
  rw [ensures_ite, ensures_ok]
  exact ⟨fun _ => ensures_error, not_lt.mp⟩

theorem checkSieve_ensures (s : State) : (s.checkSieve L).Ensures fun _ =>
    (s.sieveCodePtr - L.sieveBuffer).toNat ≤ DEFAULT_SIEVE_BUFFER_SIZE := by
  unfold State.checkSieve
  rw [ensures_ite, ensures_ok]
  exact ⟨fun _ => ensures_error, not_lt.mp⟩

theorem Writing.limitExit (h : Writing L s₀ tb s) : (s.limitExit L .target).Ensures (Writing L s₀ tb) := by
  simp only [State.limitExit, State.GenLoop.target, ensures_bind, ensures_pure]
  intro b _
  obtain ⟨t, ht⟩ : ∃ t, t = if b.tcPtr = s.codePtr then s.updTb s.curTb (·.setTcPtr NOT_TRANS_YET) else s := ⟨_, rfl⟩
  have hw : Writing L s₀ tb t := by
    rw [ht]
    split
    · exact h.updTb (Or.inl h.cur)
    · exact h
  rw [← ht]
  refine (notePatch_spec L _ _ _ _ _ _).mono fun s₁ hs₁ => (checkCode_ensures s₁).mono fun _ hcheck => ?_
  subst hs₁
  refine hw.emitted (n := 5) ⟨⟨[0xe9] ++ le32 NEED_PATCH_32, by simp, rfl, rfl, Or.inr ⟨_, 1, rfl, rfl, ?_, by simp⟩⟩, rfl⟩
    (.stay rfl rfl) (by omega) hcheck
  show (t.emit ([0xe9] ++ le32 NEED_PATCH_32)).codePtr - 4 = _
  rw [State.codePtr_emit]
  simp only [List.length_append, List.length_cons, List.length_nil, length_le32]
  bv_omega

/-- Between two iterations of `lazy_patch` on the entries `es`. -/
def Patching (L : Layout) (s₀ : State) (tb : Nat) (es : List PatchEntry) (s : State) : Prop :=
  Writing L s₀ tb s ∧ s.patchArray = es

variable {es : List PatchEntry} {e : PatchEntry}

theorem Patching.takeSlot (h : Patching L s₀ tb es s) (he : e ∈ es) :
    (s.takeSlot e).Ensures fun r => Patching L s₀ tb es r.2 := by
  obtain ⟨hw, ha⟩ := h
  have htb : Translating s₀ tb e.tb := (hw.patches e (ha ▸ he)).2
  simp only [State.takeSlot, ensures_bind, ensures_pure]
  intro b _
  have hcur : Writing L s₀ tb ((s.setCurTb e.tb).logSlot (b.patchNum - 1)) :=
    hw.congr rfl rfl rfl (fun _ _ _ => rfl) htb rfl
  exact ⟨hcur.updTb (Or.inl htb), ha⟩

theorem Patching.patchToStub (h : Patching L s₀ tb es s) (he : e ∈ es) (d : Option Nat) :
    (s.patchToStub L e d).Ensures (Patching L s₀ tb es) := by
  have hmake : (s.makeDest L e d).Ensures (Patching L s₀ tb es) := by
    cases d with
    | none =>
      simp only [State.makeDest, ensures_bind, ensures_pure]
      refine makeTb_spec.mono fun p hp => ?_
      obtain ⟨i, s₁⟩ := p
      obtain ⟨-, rfl⟩ := hp
      exact ⟨h.1.withNewTb _ _, h.2⟩
    | some d => exact ensures_ok.mpr h
  simp only [State.patchToStub, ensures_bind, ensures_pure]
  refine hmake.mono fun s₁ h₁ => ?_
  have hloc := (h₁.1.patches e (h₁.2 ▸ he)).1
  have hst : Patching L s₀ tb es (s₁.st32 e.loc (s₁.sieveCodePtr - e.loc - 4)) := ⟨h₁.1.st32 hloc _, h₁.2⟩
  refine (hst.takeSlot he).mono fun p h₂ => (checkSieve_ensures _).mono fun _ hcheck => ?_
  obtain ⟨n, s₂⟩ := p
  rw [cemitExitStub_eq] at hcheck ⊢
  have hw₂ : Writing L s₀ tb s₂ := h₂.1
  have hptr : s₂.sieveCodePtr + BitVec.ofNat 32 35 - L.sieveBuffer = _ := rfl
  have hsize : DEFAULT_SIEVE_BUFFER_SIZE = 67108864 := rfl
  have hfit := add_le_of_check (n := 35) hw₂.sieveCodePtr (by omega) hcheck
  refine ⟨⟨fun x hx => ?_, hw₂.codePtr, hcheck, hw₂.kept, hw₂.cur, hw₂.patches⟩, h₂.2⟩
  exact (Mem.put_of_notMem fun hs => hx (Or.inr (span_subset hfit hs))).trans (hw₂.mem x hx)

theorem Patching.lazyPatchEntry (h : Patching L s₀ tb es s) (he : e ∈ es) :
    (s.lazyPatchEntry L e).Ensures (Patching L s₀ tb es) := by
  simp only [State.lazyPatchEntry, ensures_bind]
  refine (tbFindFast_frame s e.dest e.tbTag).mono fun p hp => ?_
  obtain ⟨d, s₁⟩ := p
  obtain ⟨⟨c, rfl⟩, -⟩ := hp
  have h₁ : Patching L s₀ tb es (s.withCache c) := ⟨h.1.withCache c, h.2⟩
  cases d with
  | none => exact h₁.patchToStub he none
  | some d =>
    simp only [ensures_bind, ensures_ite, ensures_pure]
    intro b _
    refine ⟨fun _ => ?_, fun _ => h₁.patchToStub he _⟩
    have hloc := (h₁.1.patches e (h₁.2 ▸ he)).1
    have hst : Patching L s₀ tb es ((s.withCache c).st32 e.loc (b.tcPtr - e.loc - 4)) := ⟨h₁.1.st32 hloc _, h₁.2⟩
    exact (hst.takeSlot he).mono fun p h₂ => ⟨h₂.1.updTb (Or.inr fun _ => rfl), h₂.2⟩

/-- What the translation of `tb` leaves of what was there: the memory outside the buffers, and the
links of every block that had code. -/
structure Wrote (L : Layout) (s s' : State) : Prop where
  mem : ∀ x, x ∉ buffers L → s'.mem x = s.mem x
  sieveCodePtr : (s'.sieveCodePtr - L.sieveBuffer).toNat ≤ DEFAULT_SIEVE_BUFFER_SIZE
  links : ∀ i b, s.tbs[i]? = some b → b.tcPtr ≠ NOT_TRANS_YET → s'.linksAt i = some b.links

/-- There is room in both buffers. -/
structure HasRoom (L : Layout) (s : State) : Prop where
  codeGenPtr : (s.codeGenPtr - L.codeGenBuffer).toNat ≤ DEFAULT_CODE_GEN_BUFFER_SIZE
  sieveCodePtr : (s.sieveCodePtr - L.sieveBuffer).toNat ≤ DEFAULT_SIEVE_BUFFER_SIZE

theorem cpuGenCode_wrote {ds : Decode} (hs : HasRoom L s) (hi : ShortInsns img)
    (htb : ∀ b, s.tbs[tb]? = some b → b.tcPtr = NOT_TRANS_YET) : (s.cpuGenCode L img ds tb).Ensures (Wrote L s) := by
  have hplaced : s.cpuGenCode L img ds tb = (s.placed tb).genSuperblock L img .target ds tb := rfl
  rw [hplaced]
  simp only [State.genSuperblock, ensures_bind, ensures_pure]
  intro b hb _ hstb
  have hkept : ∀ i, ¬ Translating s tb i → (s.placed tb).linksAt i = s.linksAt i := fun i hi =>
    s.linksAt_updTb (Or.inl fun he => hi (Or.inl he))
  have htc : b.tcPtr = s.codeGenPtr := by
    have hb' : (s.placed tb).tbs[tb]? = some b := State.tb_ensures _ _ b hb
    simp only [State.placed, State.updTb, List.getElem?_modify_eq, Option.map_eq_map, Option.map_eq_some_iff] at hb'
    obtain ⟨c, -, rfl⟩ := hb'
    rfl
  have hstart : Writing L s tb ((s.placed tb).beginSuperblock b tb) := by
    refine ⟨fun x _ => rfl, ?_, hs.sieveCodePtr, fun i c hc hi => ?_, Or.inl rfl, fun e he => absurd he (by simp [State.beginSuperblock])⟩
    · show (b.tcPtr - _).toNat ≤ _
      rw [htc]
      exact hs.codeGenPtr
    · refine (State.linksAt_congr rfl i).trans ((hkept i hi).trans ?_)
      rw [State.linksAt, hc]
      rfl
  have hloop := @genInsns_ensures L img .target (s.placed tb) ds tb (Writing L s tb) (Writing L s tb)
    (fun _ hw => (hw.genInsn hi).mono fun p hp => ?_) (fun s₁ hw => hw.limitExit) MAX_INSNS _ _ (.start hb ?_) hstart
  · refine hloop.mono fun t ht => ?_
    have hend : Patching L s tb t.patchArray (t.setPcEnd (s.placed tb).stbs.length) :=
      ⟨ht.congr rfl rfl rfl (fun _ _ _ => rfl) ht.cur rfl, rfl⟩
    refine (Ensures.foldlM hend fun u e he hu => hu.lazyPatchEntry he).mono fun u hu => ?_
    intro _ _
    refine ⟨fun x hx => hu.1.mem x hx, hu.1.sieveCodePtr, fun i c hc hct => ?_⟩
    have hno : ¬ Translating s tb i := by
      rintro (rfl | h)
      · exact hct (htb c hc)
      · exact hct (h c hc)
    have hsize : KeepsLinks fun b => b.setHcodeSize ((u.setCodeGenPtr.codeGenPtr - b.tcPtr).setWidth 16) := fun _ => rfl
    rw [State.linksAt_updTb _ (Or.inr hsize)]
    exact (State.linksAt_congr rfl i).trans (hu.1.kept i c hc hno)
  · obtain ⟨r, cont, s₂⟩ := p
    cases cont <;> exact hp
  · simp only [abortIf] at hstb
    split at hstb
    · cases hstb
    · simp_all [State.beginSuperblock]

/-! ## The next block -/

theorem Wrote.refl (hs : HasRoom L s) : Wrote L s s :=
  ⟨fun _ _ => rfl, hs.sieveCodePtr, fun i b hb _ => by rw [State.linksAt, hb]; rfl⟩

theorem Wrote.of_withCache {c : Word → Option Nat} (h : Wrote L (s.withCache c) s') : Wrote L s s' :=
  ⟨h.mem, h.sieveCodePtr, h.links⟩

theorem getNextTb_wrote {ds : Decode} (hs : HasRoom L s) (hi : ShortInsns img) (pc prev : Word) :
    (s.getNextTb L img ds pc prev).Ensures fun r => Wrote L s r.2 := by
  simp only [State.getNextTb, ensures_bind]
  refine (tbFindFast_frame s pc NORMAL_TB_TAG).mono fun p hp => ?_
  obtain ⟨d, s₁⟩ := p
  obtain ⟨⟨c, rfl⟩, -⟩ := hp
  have hs₁ : HasRoom L (s.withCache c) := ⟨hs.codeGenPtr, hs.sieveCodePtr⟩
  cases d with
  | none =>
    simp only [ensures_bind, ensures_pure]
    intro f _
    refine makeTb_spec.mono fun p hp => ?_
    obtain ⟨tb, s₂⟩ := p
    obtain ⟨rfl, rfl⟩ := hp
    have hs₂ : HasRoom L ((s.withCache c).withNewTb pc f) := ⟨hs.codeGenPtr, hs.sieveCodePtr⟩
    refine (cpuGenCode_wrote hs₂ hi fun b hb => ?_).mono fun u hu => ⟨hu.mem, hu.sieveCodePtr, fun i b hb ht => ?_⟩
    · have hnew : newTb (s.withCache c) pc f = b := by simpa [State.withNewTb] using hb
      rw [← hnew]
      rfl
    · have hlt : i < s.tbs.length := (List.getElem?_eq_some_iff.mp hb).1
      refine hu.links i b ?_ ht
      show (s.tbs ++ _)[i]? = _
      rw [List.getElem?_append_left hlt, hb]
  | some d =>
    simp only [ensures_bind, ensures_ite, ensures_pure]
    refine ((s.withCache c).tb_ensures d).mono fun b hb => ⟨fun ht => ?_, fun _ => ?_⟩
    · refine (cpuGenCode_wrote hs₁ hi fun b' hb' => ?_).mono fun u hu => hu.of_withCache
      rw [← Option.some.inj (hb.symm.trans hb'), ht]
    · exact (Wrote.refl hs₁).of_withCache

/-- The block found for an address the tables know. -/
theorem getNextTb_found {ds : Decode} (ht : Tables s.index) {pc prev : Word} {i : Nat} (hl : s.index.lookup pc = some i) :
    (s.getNextTb L img ds pc prev).Ensures fun r => r.1 = i := by
  obtain ⟨c, hfind, -⟩ := tbFindFast_spec ht pc
  simp only [State.getNextTb, show NORMAL_TB_TAG = 0 from rfl, hfind, hl, ok_bind]
  simp only [ensures_bind, ensures_ite, ensures_pure]
  exact fun b _ => ⟨fun _ _ _ => trivial, fun _ => trivial⟩

/-! ## The rest of the iteration -/

/-- The block a `TranslationBlock *` points to. -/
def blockAt (L : Layout) (p : Word) : Nat := (p - L.tbs).toNat / sizeofTranslationBlock

theorem tbAt_ensures (s : State) (p : Word) : (s.tbAt L p).Ensures fun i => i = blockAt L p ∧ L.tbPtr i = p := by
  unfold State.tbAt
  dsimp only
  rw [ensures_ite, ensures_ok]
  exact ⟨fun h => ⟨rfl, h.2⟩, fun _ => ensures_error⟩

/-- The words `cpu_exec` is going to patch in block `i`, left with this `ind_type`, are in its code. -/
def Sited (L : Layout) (s : State) (i : Nat) : Prop :=
  ∃ b, s.tbs[i]? = some b ∧ b.tcPtr ≠ NOT_TRANS_YET ∧
    if s.mem.ld32 L.indType = NOT_IND then
      Span (b.tcPtr + (b.tbJmpOffset (s.mem.ld32 L.patchNum).toNat).setWidth 32) 4 ⊆ codeArea L
    else if b.jmpIndIndex.toNat < IND_SLOT_MAX then
      Span (b.jindSrcAddr b.jmpIndIndex.toNat) 4 ⊆ codeArea L ∧ Span (b.jindDestAddr b.jmpIndIndex.toNat) 4 ⊆ codeArea L
    else Span b.indEnterSieve 5 ⊆ codeArea L

/-- The block left, by the value of `prev_tb`: the sieve, a block with a place for the link, or the block
itself that is entered next. -/
def LeftFrom (L : Layout) (s : State) (prev : Word) : Prop :=
  prev = 0 ∨ Sited L s (blockAt L prev) ∨
    s.mem.ld32 L.indType = NOT_IND ∧ s.index.lookup (s.mem.ld32 L.eip) = some (blockAt L prev)

/-- What `cpu_exec` writes in `env`. -/
def envArea (L : Layout) : Set Word :=
  Span L.sieveHashtable (8 * SIEVE_SIZE) ∪ Span L.targetTc 4 ∪ Span L.retTb 4 ∪ Span L.indType 4

/-- Only what `cpu_exec` may write differs. -/
def SameOutside (L : Layout) (m m' : Mem) : Prop := ∀ x, x ∉ buffers L → x ∉ envArea L → m' x = m x

theorem SameOutside.trans {m m' m'' : Mem} (h : SameOutside L m m') (h' : SameOutside L m' m'') : SameOutside L m m'' :=
  fun x hb he => (h' x hb he).trans (h x hb he)

theorem SameOutside.st32_code {m : Mem} {a : Word} (ha : Span a 4 ⊆ codeArea L) (w : Word) :
    SameOutside L m (m.st32 a w) := fun _ hb _ => Mem.st32_of_notMem fun hs => hb (Or.inl (ha hs))

theorem SameOutside.st32_env {m : Mem} {a : Word} (ha : Span a 4 ⊆ envArea L) (w : Word) :
    SameOutside L m (m.st32 a w) := fun _ _ he => Mem.st32_of_notMem fun hs => he (ha hs)

theorem bucketOf_subset (pc : Word) : Span (bucketOf L pc) 5 ⊆ Span L.sieveHashtable (8 * SIEVE_SIZE) := by
  have hlt : (pc &&& 0xffff).toNat ≤ 0xffff := by
    rw [BitVec.toNat_and]
    exact Nat.and_le_right
  refine span_subset_add ?_ (by decide)
  simp only [SIEVE_SIZE]
  omega

/-- What a signed comparison with the size of a buffer lets pass. -/
theorem add_le_of_slt {v : Word} {n N : Nat} (hv : v.toNat ≤ N) (hn : n + N < 2 ^ 31)
    (h : BitVec.slt (BitVec.ofNat 32 N) (v + BitVec.ofNat 32 n) = false) : v.toNat + n ≤ N := by
  rw [BitVec.slt_eq_decide, decide_eq_false_iff_not] at h
  have hadd : (v + BitVec.ofNat 32 n).toNat = v.toNat + n := by
    rw [BitVec.toNat_add, BitVec.toNat_ofNat, Nat.mod_eq_of_lt (a := n) (by omega), Nat.mod_eq_of_lt (by omega)]
  have hN : (BitVec.ofNat 32 N).toNat = N := by rw [BitVec.toNat_ofNat, Nat.mod_eq_of_lt (by omega)]
  rw [BitVec.toInt_eq_toNat_of_lt (by omega), BitVec.toInt_eq_toNat_of_lt (by omega), hadd, hN] at h
  omega

theorem abortIf_ok {c : Bool} {msg : String} {u : Unit} (h : abortIf c msg = .ok u) : c = false := by
  unfold abortIf at h
  split at h
  · cases h
  · exact Bool.eq_false_iff.mpr ‹_›

/-- A node is added only if it ends within the sieve's buffer. -/
theorem sieve_fit {msg : String} {u : Unit} (hs : (s.sieveCodePtr - L.sieveBuffer).toNat ≤ DEFAULT_SIEVE_BUFFER_SIZE)
    (hcheck : abortIf (BitVec.slt (BitVec.ofNat 32 DEFAULT_SIEVE_BUFFER_SIZE)
      (s.sieveCodePtr + BitVec.ofNat 32 27 - L.sieveBuffer)) msg = .ok u) :
    (s.sieveCodePtr - L.sieveBuffer).toNat + 27 ≤ DEFAULT_SIEVE_BUFFER_SIZE := by
  have hsplit : s.sieveCodePtr + BitVec.ofNat 32 27 - L.sieveBuffer =
      (s.sieveCodePtr - L.sieveBuffer) + BitVec.ofNat 32 27 := by ring
  refine add_le_of_slt hs (by decide) ?_
  rw [← hsplit]
  exact abortIf_ok hcheck

theorem addSieveEntry_same (hs : (s.sieveCodePtr - L.sieveBuffer).toNat ≤ DEFAULT_SIEVE_BUFFER_SIZE) (i : Nat) (ty : Word) :
    (s.addSieveEntry L i ty).Ensures fun s' => SameOutside L s.mem s'.mem := by
  simp only [State.addSieveEntry, ensures_bind, ensures_ite, ensures_pure, cemitSieveNode_eq]
  intro b _
  refine ⟨fun _ _ _ _ => rfl, fun _ u hcheck => ?_⟩
  have hbucket : Span (SIEVE_HASH L.sieveHashtable (b.pc <<< 3) + 1) 4 ⊆ envArea L := by
    rw [bucketOf_eq]
    exact fun x hx => Or.inl (Or.inl (Or.inl (bucketOf_subset b.pc (span_subset_add (i := 1) (by decide) (by decide) hx))))
  have hptr : ∀ (i a w : Word), ((s.incSieveStat i).st32 a w).sieveCodePtr = s.sieveCodePtr := fun _ _ _ => rfl
  rw [State.sieveCodePtr_emitSieve, length_sieveNodeBytes, hptr] at hcheck
  have hfit := sieve_fit hs hcheck
  intro x hb he
  rw [State.mem_emitSieve, Mem.put_of_notMem]
  · exact Mem.st32_of_notMem fun hx => he (hbucket hx)
  · rw [length_sieveNodeBytes, hptr]
    exact fun hx => hb (Or.inr (span_subset hfit hx))

theorem patchIndOpt_same {i tb : Nat} (hs : Sited L s i) (hind : s.mem.ld32 L.indType ≠ NOT_IND) :
    (s.patchIndOpt L i tb).Ensures fun s' => SameOutside L s.mem s'.mem := by
  obtain ⟨b, hb, -, hsite⟩ := hs
  rw [if_neg hind] at hsite
  have htb : s.tb i = .ok b := by rw [State.tb, hb]
  simp only [State.patchIndOpt, State.patchJmpTarget, htb, ok_bind, ensures_ite, ensures_bind, ensures_pure]
  refine ⟨fun hlt c _ => ?_, fun hge => ?_⟩
  · rw [if_pos hlt] at hsite
    exact (SameOutside.st32_code hsite.1 _).trans (SameOutside.st32_code hsite.2 _)
  · rw [if_neg hge] at hsite
    rw [State.indPatchSieve, cemitSieveNopush_eq]
    intro x hx _
    exact Mem.put_of_notMem fun h => hx (Or.inl (hsite h))

/-- The places `cpu_exec` patches are still the places once it has the next block. -/
theorem Sited.wrote {i : Nat} (h : Sited L s i) (hw : Wrote L s s') (hm : ∀ a, Span a 4 ⊆ Span L.env sizeofEnv →
    s'.mem.ld32 a = s.mem.ld32 a) : Sited L s' i := by
  obtain ⟨b, hb, ht, hsite⟩ := h
  obtain ⟨c, hc, hl⟩ := State.linksAt_eq_some (hw.links i b hb ht)
  simp only [TranslationBlock.links, Prod.mk.injEq] at hl
  obtain ⟨-, htc, hoff, hsrc, hdest, henter, hindex⟩ := hl
  refine ⟨c, hc, htc ▸ ht, ?_⟩
  rw [hm _ L.indType_subset, hm _ L.patchNum_subset, htc, hoff, hsrc, hdest, henter, hindex]
  exact hsite

theorem env_notMem_buffers {x : Word} (h : x ∈ Span L.env sizeofEnv) : x ∉ buffers L := by
  rintro (hx | hx)
  · exact Set.disjoint_left.mp L.env_code h hx
  · exact Set.disjoint_left.mp L.env_sieve h hx

theorem Wrote.ld32_env (hw : Wrote L s s') {a : Word} (ha : Span a 4 ⊆ Span L.env sizeofEnv) :
    s'.mem.ld32 a = s.mem.ld32 a :=
  Mem.ld32_congr fun x hx => hw.mem x (env_notMem_buffers (ha hx))

theorem indType_envArea : Span L.indType 4 ⊆ envArea L := fun _ hx => Or.inr hx

/-- The target enters the sieve, or the chain of the block left. -/
theorem handleInd_same {prev : Word} {tb : Nat} (hroom : (s.sieveCodePtr - L.sieveBuffer).toNat ≤ DEFAULT_SIEVE_BUFFER_SIZE)
    (hleft : s.mem.ld32 L.indType ≠ NOT_IND → prev ≠ 0 → Sited L s (blockAt L prev)) :
    (s.handleInd L prev tb).Ensures fun r => SameOutside L s.mem r.2.mem ∧
      (s.mem.ld32 L.indType = NOT_IND → r = (prev, s)) ∧ (s.mem.ld32 L.indType ≠ NOT_IND → r.1 = 0) := by
  unfold State.handleInd
  rw [ensures_ite, ensures_ok]
  refine ⟨fun hind => ?_, fun hind => ⟨fun _ _ _ => rfl, fun _ => rfl, fun h => absurd h hind⟩⟩
  rw [ensures_ite]
  refine ⟨fun _ => ?_, fun hprev => ?_⟩
  · simp only [ensures_bind, ensures_pure]
    refine (addSieveEntry_same hroom tb _).mono fun s₁ h₁ => ⟨h₁.trans (.st32_env indType_envArea _), fun h => absurd h hind, ?_⟩
    exact fun _ => trivial
  · simp only [ensures_bind, ensures_pure]
    refine (tbAt_ensures s prev).mono fun i hi => ?_
    obtain ⟨rfl, -⟩ := hi
    exact (patchIndOpt_same (hleft hind hprev) hind).mono fun s₁ h₁ => ⟨h₁, fun h => absurd h hind, fun _ => trivial⟩

/-- A link is the field of the block left, unless that block is the next one. -/
theorem linkTb_same {prev : Word} {tb : Nat} (hind : s.mem.ld32 L.indType = NOT_IND)
    (hleft : prev ≠ 0 → tb = blockAt L prev ∨ Sited L s (blockAt L prev)) :
    (s.linkTb L prev tb).Ensures fun s' => SameOutside L s.mem s'.mem := by
  unfold State.linkTb
  rw [ensures_ite, ensures_ok]
  refine ⟨fun h => ?_, fun _ _ _ _ => rfl⟩
  obtain ⟨hprev, hne⟩ := h
  rw [ensures_bind]
  refine (tbAt_ensures s prev).mono fun i hi => ?_
  obtain ⟨rfl, hi⟩ := hi
  obtain htb | ⟨b, hb, -, hsite⟩ := hleft hprev
  · exact absurd (htb ▸ hi) hne
  rw [if_pos hind] at hsite
  have hcode : s.tb (blockAt L prev) = .ok b := by rw [State.tb, hb]
  simp only [State.tbAddJump, State.tbSetJmpTarget, hcode, ok_bind, ensures_bind, ensures_pure]
  exact fun c _ => SameOutside.st32_code hsite _

/-- One iteration of `cpu_exec` writes in the code buffers, the sieve's table and three fields of `env`. -/
theorem cpuExecIter_frame {ds : Decode} {prev : Word} (hs : HasRoom L s) (ht : Tables s.index) (hi : ShortInsns img)
    (hleft : LeftFrom L s prev) : (s.cpuExecIter L img ds prev).Ensures fun s' => SameOutside L s.mem s'.mem := by
  simp only [State.cpuExecIter, ensures_bind, ensures_pure]
  intro p hp
  have hw : Wrote L s p.2 := getNextTb_wrote hs hi _ _ _ hp
  have hfound : ∀ i, s.index.lookup (s.mem.ld32 L.eip) = some i → p.1 = i := fun i hl =>
    getNextTb_found ht hl _ hp
  obtain ⟨tb, s₁⟩ := p
  have hsame₁ : SameOutside L s.mem s₁.mem := fun x hx _ => hw.mem x hx
  have hind₁ : s₁.mem.ld32 L.indType = s.mem.ld32 L.indType := hw.ld32_env L.indType_subset
  -- the block left, once the next one is there
  have hleft₁ : prev ≠ 0 → Sited L s₁ (blockAt L prev) ∨ s.mem.ld32 L.indType = NOT_IND ∧ tb = blockAt L prev := by
    intro hprev
    obtain h | h | ⟨hind, hl⟩ := hleft
    · exact absurd h hprev
    · exact Or.inl (h.wrote hw fun a ha => hw.ld32_env ha)
    · exact Or.inr ⟨hind, hfound _ hl⟩
  refine (handleInd_same hw.sieveCodePtr fun hind hprev => ?_).mono fun q hq => ?_
  · exact (hleft₁ hprev).resolve_right fun h => hind (hind₁.trans h.1)
  obtain ⟨prev', s₂⟩ := q
  obtain ⟨hsame₂, hnot, hzero⟩ := hq
  have hlink : (s₂.linkTb L prev' tb).Ensures fun s' => SameOutside L s₂.mem s'.mem := by
    by_cases hind : s₁.mem.ld32 L.indType = NOT_IND
    · obtain ⟨rfl, rfl⟩ := Prod.mk.inj (hnot hind)
      refine linkTb_same hind fun hprev => ?_
      exact (hleft₁ hprev).elim Or.inr fun h => Or.inl h.2
    · obtain rfl : prev' = 0 := hzero hind
      unfold State.linkTb
      rw [if_neg (by simp), ensures_ok]
      exact fun _ _ _ => rfl
  refine hlink.mono fun s₃ hsame₃ b _ => ?_
  have htarget : Span L.targetTc 4 ⊆ envArea L := fun _ hx => Or.inl (Or.inl (Or.inr hx))
  have hret : Span L.retTb 4 ⊆ envArea L := fun _ hx => Or.inl (Or.inr hx)
  exact ((hsame₁.trans hsame₂).trans hsame₃).trans
    (((SameOutside.st32_env htarget _).trans (.st32_env hret _)).trans (.st32_env indType_envArea _))

end Unitrans
