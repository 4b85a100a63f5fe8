/-
`gen_target_code` hands one uninitialised `decode_t` from instruction to
instruction. An emitter reads of it only what the decoder set for the
instruction at hand, so two runs that begin with different contents do the
same: the states differ in the record of the calls at most.
-/
import Unitrans.DecodeInputs
import Unitrans.Superblock
import Unitrans.Library.Related

namespace Unitrans

open X86 Except

variable {L : Layout} {img : Mem}

/-! ## What an emitter reads of the instruction -/

/-- Two results of the decoder for one instruction: they agree but for what
the instruction leaves as it was. -/
structure SameInsnFields (r r' : Decode) : Prop where
  decodeEip : r'.decodeEip = r.decodeEip
  instr : r'.instr = r.instr
  attr : r'.attr = r.attr
  flags : r'.flags = r.flags
  group2Prefix : r'.group2Prefix = r.group2Prefix
  emitfn : r'.emitfn = r.emitfn
  pEntry : r'.pEntry = r.pEntry
  opstate : r'.opstate = r.opstate
  needSib : r'.needSib = r.needSib
  dispBytes : r'.dispBytes = r.dispBytes
  modrm : has r.attr DF_MODRM → r'.modrm = r.modrm
  sib : r.needSib → r'.sib = r.sib
  displacement : r.dispBytes ≠ 0 → r'.displacement = r.displacement
  immediate : has r.attr DF_Jv ∨ has r.attr DF_Jb → r'.immediate = r.immediate
  imm16 : has r.attr DF_Iw → r'.imm16 = r.imm16

/-- What an emitter relies on besides: its operand is there, and a SIB byte
where the ModRM byte asks for one. -/
structure OperandsSet (r : Decode) : Prop where
  emitfn : r.emitfn = r.pEntry.ptr
  operands : Operands r.pEntry r.attr
  sib : has r.attr DF_MODRM → ¬ has r.flags DSFL_GROUP4_PREFIX → mod r.modrm ≠ 3 → rm r.modrm = 4 → r.needSib

/-- Whatever `ds` held, the decoder answers the same. -/
theorem simpleDisasInsn_same (img : Mem) (ds ds' : Decode) (pc : Word) :
    (simpleDisasInsn img ds pc = none ∧ simpleDisasInsn img ds' pc = none) ∨
    ∃ r r' ok, simpleDisasInsn img ds pc = some (r, ok) ∧ simpleDisasInsn img ds' pc = some (r', ok) ∧
      SameInsnFields r r' ∧ OperandsSet r := by
  have hsome : ∀ {ds r ok} (ds' : Decode), simpleDisasInsn img ds pc = some (r, ok) →
      ∃ r', simpleDisasInsn img ds' pc = some (r', ok) ∧ SameInsnFields r r' ∧ OperandsSet r := by
    intro ds r ok ds' h
    obtain ⟨ps, F, hp, hat, hn, hl, hF, hd⟩ := exists_decoded h
    obtain ⟨r', ok', hr', hd'⟩ := simpleDisasInsn_eq ds' hp hat hn hl hF
    obtain rfl : ok = ok' := hd.ok.trans hd'.ok.symm
    have hmodrm : has F.attr DF_MODRM → F.modrm = some F.m := fun hm =>
      (exists_modrm hF (by rw [Found.hasModrm, has_or, hm, Bool.true_or])).1
    refine ⟨r', hr', ?_, ?_⟩
    · constructor
      case decodeEip => rw [hd'.decodeEip, hd.decodeEip]
      case instr => rw [hd'.instr, hd.instr]
      case attr => rw [hd'.attr, hd.attr]
      case flags => rw [hd'.flags, hd.flags]
      case group2Prefix => rw [hd'.group2Prefix, hd.group2Prefix]
      case emitfn => rw [hd'.emitfn, hd.emitfn]
      case pEntry => rw [hd'.pEntry, hd.pEntry]
      case opstate => rw [hd'.opstate, hd.opstate]
      case needSib => rw [hd'.needSib, hd.needSib]
      case dispBytes => rw [hd'.dispBytes, hd.dispBytes]
      case modrm =>
        rw [hd'.modrm, hd.modrm, hd.attr]
        intro hm
        rw [hmodrm hm]
        rfl
      case sib =>
        rw [hd'.sib, hd.sib, hd.needSib]
        intro hs
        rw [if_pos hs, if_pos hs]
      case displacement =>
        rw [hd'.displacement, hd.displacement, hd.dispBytes]
        intro hn
        rw [if_neg hn, if_neg hn]
      case immediate =>
        rw [hd'.immediate, hd.immediate, hd.attr]
        intro hj
        have hset : ∃ x, F.immediate ps (fetch img (pc + BitVec.ofNat 32 ps.length)) = some x := by
          simp only [Found.immediate, immediateOf, has_or]
          rcases hj with hj | hj <;> simp only [hj, Bool.true_or, Bool.or_true, if_true]
          · exact ⟨_, rfl⟩
          · split
            · exact ⟨_, rfl⟩
            · split
              · exact ⟨_, rfl⟩
              · split <;> exact ⟨_, rfl⟩
        obtain ⟨x, hx⟩ := hset
        rw [hx]
        rfl
      case imm16 =>
        rw [hd'.imm16, hd.imm16, hd.attr]
        intro hi
        have hset : ∃ x, F.imm16 ps (fetch img (pc + BitVec.ofNat 32 ps.length)) = some x := by
          simp only [Found.imm16, imm16Of, hi, if_true]
          split <;> exact ⟨_, rfl⟩
        obtain ⟨x, hx⟩ := hset
        rw [hx]
        rfl
    · constructor
      case emitfn => rw [hd.emitfn, hd.pEntry]
      case operands =>
        rw [hd.pEntry, hd.attr]
        exact found_operands hF
      case sib =>
        rw [hd.attr, hd.flags, hd.modrm, hd.needSib]
        intro hm h4 hmod hrm
        rw [hmodrm hm] at hmod hrm
        have ha : addr32 ps = true := by
          rw [addr32, List.count_eq_zero.mpr (mt (has_group4_iff _).mpr h4)]
          rfl
        simp only [Option.getD_some] at hmod hrm
        have hmod' : (mod F.m != 3) = true := bne_iff_ne.mpr hmod
        simp only [Found.needSib, Found.hasModrm, has_or, hm, hasSib, ha, hmod', hrm]
        rfl
  cases h : simpleDisasInsn img ds pc with
  | none =>
    cases h' : simpleDisasInsn img ds' pc with
    | none => exact Or.inl ⟨rfl, rfl⟩
    | some p =>
      obtain ⟨r, ok⟩ := p
      obtain ⟨r', hr', -⟩ := hsome ds h'
      rw [hr'] at h
      cases h
  | some p =>
    obtain ⟨r, ok⟩ := p
    obtain ⟨r', hr', hsame, hset⟩ := hsome ds' h
    exact Or.inr ⟨r, r', ok, rfl, hr', hsame, hset⟩

/-! ## One emitter, two contents -/

theorem transNext_congr {r r' : Decode} (h : r'.opstate = r.opstate) (s : State) :
    s.transNext L r' = s.transNext L r := by
  simp only [State.transNext, h]

section

variable {r r' : Decode} (h : SameInsnFields r r') (hm : has r.attr DF_MODRM)

include h hm in
theorem pushRmBytes_congr : pushRmBytes r' = pushRmBytes r := by
  have hsib : (if r'.needSib then [r'.sib] else []) = if r.needSib then [r.sib] else [] := by
    rw [h.needSib]
    by_cases hs : r.needSib
    · rw [if_pos hs, if_pos hs, h.sib hs]
    · rw [if_neg hs, if_neg hs]
  by_cases hd : r.dispBytes = 0
  · simp only [pushRmBytes, hsib, h.flags, h.group2Prefix, h.modrm hm, h.dispBytes, hd]
  · simp only [pushRmBytes, hsib, h.flags, h.group2Prefix, h.modrm hm, h.dispBytes, h.displacement hd]

include h hm in
theorem destBasedOnEsp_congr (hset : OperandsSet r) (h4 : ¬ has r.flags DSFL_GROUP4_PREFIX) :
    State.destBasedOnEsp r' = State.destBasedOnEsp r := by
  simp only [State.destBasedOnEsp, h.modrm hm]
  split
  · rfl
  · split
    · rfl
    · rename_i hmod
      by_cases hrm : rm r.modrm = 4
      · rw [h.sib (hset.sib hm h4 hmod hrm)]
      · have hno : (rm r.modrm == 4) = false := beq_eq_false_iff_ne.mpr hrm
        rw [hno, Bool.false_and, Bool.false_and]

include h hm in
theorem emitCallNearMem_congr (hset : OperandsSet r) (s : State) : s.emitCallNearMem L r' = s.emitCallNearMem L r := by
  rw [emitCallNearMem_eq, emitCallNearMem_eq, h.flags]
  split
  · rfl
  · rename_i h4
    have hpush : ∀ pc, callPushBytes r' pc = callPushBytes r pc := fun pc => by
      rw [callPushBytes, callPushBytes, destBasedOnEsp_congr h hm hset h4, pushRmBytes_congr h hm]
    have hfields : ∀ p t pc, callNearMemFields L p t pc s.pcPtr r' = callNearMemFields L p t pc s.pcPtr r :=
      fun p t pc => by
        funext b
        simp only [callNearMemFields, hpush]
    rw [hfields, transNext_congr h.opstate]
    simp only [callNearMemBytes, callRcAt, hpush]

include h hm in
theorem emitJmpNearMem_congr (s : State) : s.emitJmpNearMem L r' = s.emitJmpNearMem L r := by
  simp only [State.emitJmpNearMem, emitPushRm_eq, h.flags, pushRmBytes_congr h hm]

end

theorem jmpTargetOf_congr {r r' : Decode} (h : SameInsnFields r r') (hj : has r.attr DF_Jv ∨ has r.attr DF_Jb) (s : State) :
    s.jmpTargetOf r' = s.jmpTargetOf r := by
  simp only [State.jmpTargetOf, h.opstate, h.immediate hj]

/-- What an emitter does depends on what the instruction set. -/
theorem callEmitfn_congr {r r' : Decode} (h : SameInsnFields r r') (hset : OperandsSet r) (s : State) :
    s.callEmitfn L img r' = s.callEmitfn L img r := by
  have hop := hset.operands
  simp only [Operands, ← hset.emitfn] at hop
  simp only [State.callEmitfn, h.emitfn]
  cases hfn : r.emitfn with
  | null => rfl
  | table t => rfl
  | fn fn =>
    rw [hfn] at hop
    cases fn with
    | normal => rfl
    | int => simp only [State.emitInt, h.instr]
    | ret => rfl
    | sysenter => rfl
    | jcond =>
      simp only [State.emitJcond, jmpTargetOf_congr h hop, h.flags, h.group2Prefix, h.instr, transNext_congr h.opstate]
    | otherJcond =>
      simp only [State.emitOtherJcond, h.immediate (Or.inr hop), h.flags, h.group2Prefix, h.pEntry,
        transNext_congr h.opstate]
    | jmp => simp only [State.emitJmp, jmpTargetOf_congr h hop]
    | jmpNearMem => exact emitJmpNearMem_congr h hop s
    | callDisp => simp only [State.emitCallDisp, h.immediate (Or.inl hop), h.opstate, transNext_congr h.opstate]
    | callNearMem => exact emitCallNearMem_congr h hop hset s
    | retIw => simp only [State.emitRetIw, h.imm16 hop]

/-! ## States alike but for the record of the calls -/

def State.withLog (s : State) (l : Log) : State := { s with log := l }

/-- `t` is `s` with another record. -/
def Alike (s t : State) : Prop := ∃ l, t = s.withLog l

/-- Results with states alike. -/
def AlikeWith {α : Type _} (p q : α × State) : Prop := q.1 = p.1 ∧ Alike p.2 q.2

theorem Alike.refl (s : State) : Alike s s := ⟨s.log, rfl⟩

section

variable {s t : State} (h : Alike s t)

include h

theorem Alike.emit (bs : List Byte) : Alike (s.emit bs) (t.emit bs) := by
  obtain ⟨l, rfl⟩ := h
  exact ⟨l, rfl⟩

theorem Alike.emitSieve (bs : List Byte) : Alike (s.emitSieve bs) (t.emitSieve bs) := by
  obtain ⟨l, rfl⟩ := h
  exact ⟨l, rfl⟩

theorem Alike.updTb (i : Nat) (f : TranslationBlock → TranslationBlock) : Alike (s.updTb i f) (t.updTb i f) := by
  obtain ⟨l, rfl⟩ := h
  exact ⟨l, rfl⟩

theorem Alike.st32 (a w : Word) : Alike (s.st32 a w) (t.st32 a w) := by
  obtain ⟨l, rfl⟩ := h
  exact ⟨l, rfl⟩

theorem Alike.st8 (a : Word) (b : Byte) : Alike (s.st8 a b) (t.st8 a b) := by
  obtain ⟨l, rfl⟩ := h
  exact ⟨l, rfl⟩

theorem Alike.setCurTb (i : Nat) : Alike (s.setCurTb i) (t.setCurTb i) := by
  obtain ⟨l, rfl⟩ := h
  exact ⟨l, rfl⟩

theorem Alike.logSlot (n : Word) : Alike (s.logSlot n) (t.logSlot n) := by
  obtain ⟨l, rfl⟩ := h
  exact ⟨{ l with slots := l.slots ++ [n] }, rfl⟩

theorem Alike.logRcCmp (p : Word) : Alike (s.logRcCmp p) (t.logRcCmp p) := by
  obtain ⟨l, rfl⟩ := h
  exact ⟨{ l with rcCmps := l.rcCmps ++ [(p, s.pcPtr)] }, rfl⟩

theorem Alike.addPatch (e : PatchEntry) : Alike (s.addPatch e) (t.addPatch e) := by
  obtain ⟨l, rfl⟩ := h
  exact ⟨{ l with notes := l.notes ++ [e] }, rfl⟩

theorem Alike.setJmpCache (pc : Word) (i : Nat) : Alike (s.setJmpCache pc i) (t.setJmpCache pc i) := by
  obtain ⟨l, rfl⟩ := h
  exact ⟨l, rfl⟩

theorem Alike.beginInsn (r r' : Decode) (ok : Bool) (hr : r'.decodeEip = r.decodeEip) :
    Alike (s.beginInsn r ok) (t.beginInsn r' ok) := by
  obtain ⟨l, rfl⟩ := h
  refine ⟨((s.withLog l).beginInsn r' ok).log, ?_⟩
  simp only [State.beginInsn, State.withLog, hr]

theorem Alike.tb (i : Nat) : Related Eq (s.tb i) (t.tb i) := by
  obtain ⟨l, rfl⟩ := h
  exact Related.refl (fun _ => rfl) _

theorem Alike.curTb : Related Eq (s.tb s.curTb) (t.tb t.curTb) := by
  obtain ⟨l, rfl⟩ := h
  exact Related.refl (fun _ => rfl) _

theorem tbFindFast_alike (pc tag : Word) : Related AlikeWith (s.tbFindFast pc tag) (t.tbFindFast pc tag) := by
  have hslow : Related AlikeWith (s.tbFindSlow pc tag) (t.tbFindSlow pc tag) := by
    have hchain : State.chain t.tbs pc tag t.tbs.length (t.tbPhysHash (tbPhysHashFunc pc)) =
        State.chain s.tbs pc tag s.tbs.length (s.tbPhysHash (tbPhysHashFunc pc)) := by
      obtain ⟨l, rfl⟩ := h
      rfl
    simp only [State.tbFindSlow, hchain]
    refine (Related.refl (R := Eq) (fun _ => rfl) _).bind fun a b hab => ?_
    subst hab
    cases a with
    | none => exact ⟨rfl, h⟩
    | some i => exact ⟨rfl, h.setJmpCache pc i⟩
  have hcache : t.tbJmpCache = s.tbJmpCache := by
    obtain ⟨l, rfl⟩ := h
    rfl
  simp only [State.tbFindFast, hcache]
  cases s.tbJmpCache (tbJmpCacheHashFunc pc) with
  | none => exact hslow
  | some i =>
    refine (h.tb i).bind fun a b hab => ?_
    subst hab
    exact Related.ite (fun _ => hslow) fun _ => ⟨rfl, h⟩

theorem makeTb_alike (pc f tag : Word) : Related AlikeWith (s.makeTb L pc f tag) (t.makeTb L pc f tag) := by
  obtain ⟨l, rfl⟩ := h
  have halloc : (s.withLog l).tbAlloc L pc = (s.tbAlloc L pc).map fun p => (p.1, p.2.withLog l) := by
    rw [State.tbAlloc, State.tbAlloc, apply_ite (Option.map _)]
    rfl
  rw [State.makeTb, State.makeTb, halloc]
  cases s.tbAlloc L pc with
  | none => exact rfl
  | some p => exact ⟨rfl, l, rfl⟩

theorem notePatch_alike (loc dest : Word) (tb : Nat) (f tag : Word) :
    Related Alike (s.notePatch L loc dest tb f tag) (t.notePatch L loc dest tb f tag) := by
  have hpatch : t.patchArray = s.patchArray ∧ t.mem = s.mem := by
    obtain ⟨l, rfl⟩ := h
    exact ⟨rfl, rfl⟩
  simp only [State.notePatch, hpatch]
  refine (Related.refl (R := Eq) (fun _ => rfl) _).bind fun _ _ _ => ?_
  refine (Related.refl (R := Eq) (fun _ => rfl) _).bind fun _ _ _ => ?_
  exact (h.addPatch _).updTb _ _

theorem transNext_alike (ds : Decode) : Related AlikeWith (s.transNext L ds) (t.transNext L ds) := by
  obtain ⟨l, rfl⟩ := h
  have h : Alike s (s.withLog l) := ⟨l, rfl⟩
  simp only [State.transNext]
  refine Related.ite (fun _ => rfl) fun _ => (tbFindFast_alike h _ _).bind fun p q h₁ => ?_
  obtain ⟨i, s₁⟩ := p
  obtain ⟨j, t₁⟩ := q
  obtain ⟨rfl, l₁, rfl⟩ : j = i ∧ Alike s₁ t₁ := h₁
  have h₁ : Alike s₁ (s₁.withLog l₁) := ⟨l₁, rfl⟩
  cases j with
  | none =>
    refine h₁.curTb.bind fun cur _ hcur => ?_
    subst hcur
    refine (makeTb_alike h₁ _ _ _).bind fun p q h₂ => ?_
    obtain ⟨k, s₂⟩ := p
    obtain ⟨k', t₂⟩ := q
    obtain ⟨rfl, l₂, rfl⟩ : k' = k ∧ Alike s₂ t₂ := h₂
    exact ⟨rfl, l₂, rfl⟩
  | some i =>
    refine (h₁.tb i).bind fun b _ hb => ?_
    subst hb
    refine Related.ite (fun _ => ?_) fun _ => ⟨rfl, l₁, rfl⟩
    have h₂ := (h₁.emit [0xe9]).emit (le32 (b.tcPtr - (s₁.emit [0xe9]).codePtr - 4))
    refine h₂.curTb.bind fun cur _ hcur => ?_
    subst hcur
    have h₃ := (h₂.logSlot cur.patchNum).updTb s₁.curTb (·.setJmpOffset cur.patchNum.toNat
      ((((s₁.emit [0xe9]).emit (le32 (b.tcPtr - (s₁.emit [0xe9]).codePtr - 4))).codePtr - cur.tcPtr - 4).setWidth 16))
    exact ⟨rfl, h₃.updTb i (·.addJmpFrom s₁.curTb cur.patchNum)⟩

theorem emitJmpEntrance_alike (target cur : Word) :
    Related Alike (s.emitJmpEntrance L img target cur) (t.emitJmpEntrance L img target cur) := by
  simp only [State.emitJmpEntrance]
  refine (tbFindFast_alike h _ _).bind fun p q h₁ => ?_
  obtain ⟨i, s₁⟩ := p
  obtain ⟨j, t₁⟩ := q
  obtain ⟨rfl, h₁⟩ : j = i ∧ Alike s₁ t₁ := h₁
  cases j with
  | none =>
    refine Related.ite (fun _ => ?_) fun _ => h₁
    refine (makeTb_alike h₁ _ _ _).bind fun p q h₂ => ?_
    obtain ⟨k, s₂⟩ := p
    obtain ⟨k', t₂⟩ := q
    exact (h₂.2.emit _).emit _
  | some i =>
    refine (h₁.tb i).bind fun b _ hb => ?_
    subst hb
    exact Related.ite (fun _ => (h₁.emit _).emit _) fun _ => h₁

theorem emitJmp_alike (ds : Decode) : Related AlikeWith (s.emitJmp L img ds) (t.emitJmp L img ds) := by
  have htarget : t.jmpTargetOf ds = s.jmpTargetOf ds := by
    obtain ⟨l, rfl⟩ := h
    rfl
  simp only [State.emitJmp, htarget]
  refine h.curTb.bind fun cur _ hcur => ?_
  subst hcur
  refine (emitJmpEntrance_alike h _ _).bind fun s₁ t₁ h₁ => ?_
  obtain ⟨l, rfl⟩ := h₁
  have h₁ : Alike s₁ (s₁.withLog l) := ⟨l, rfl⟩
  refine (notePatch_alike (h₁.emit _) _ _ _ _ _).bind fun s₂ t₂ h₂ => ?_
  exact ⟨rfl, h₂⟩

theorem emitJcond_alike (ds : Decode) : Related AlikeWith (s.emitJcond L img ds) (t.emitJcond L img ds) := by
  obtain ⟨l, rfl⟩ := h
  have htarget : (s.withLog l).jmpTargetOf ds = s.jmpTargetOf ds := rfl
  have hseg : Alike (if has ds.flags DSFL_GROUP2_PREFIX then s.emit [ds.group2Prefix] else s)
      (if has ds.flags DSFL_GROUP2_PREFIX then (s.withLog l).emit [ds.group2Prefix] else s.withLog l) := by
    split <;> exact ⟨l, rfl⟩
  simp only [State.emitJcond, htarget]
  generalize (if has ds.flags DSFL_GROUP2_PREFIX then s.emit [ds.group2Prefix] else s) = s₁ at hseg ⊢
  obtain ⟨l₁, hl₁⟩ := hseg
  rw [hl₁]
  have h₁ : Alike s₁ (s₁.withLog l₁) := ⟨l₁, rfl⟩
  refine (h₁.emit _).curTb.bind fun cur _ hcur => ?_
  subst hcur
  exact (notePatch_alike (h₁.emit _) _ _ _ _ _).bind fun s₂ t₂ h₂ => transNext_alike h₂ ds

theorem emitOtherJcond_alike (ds : Decode) : Related AlikeWith (s.emitOtherJcond L ds) (t.emitOtherJcond L ds) := by
  obtain ⟨l, rfl⟩ := h
  have hseg : Alike (if has ds.flags DSFL_GROUP2_PREFIX then s.emit [ds.group2Prefix] else s)
      (if has ds.flags DSFL_GROUP2_PREFIX then (s.withLog l).emit [ds.group2Prefix] else s.withLog l) := by
    split <;> exact ⟨l, rfl⟩
  simp only [State.emitOtherJcond]
  generalize (if has ds.flags DSFL_GROUP2_PREFIX then s.emit [ds.group2Prefix] else s) = s₁ at hseg ⊢
  obtain ⟨l₁, hl₁⟩ := hseg
  rw [hl₁]
  have h₁ : Alike s₁ (s₁.withLog l₁) := ⟨l₁, rfl⟩
  have h₂ := ((h₁.emit [BitVec.ofNat 8 ds.pEntry.index, 0x02, 0xeb]).emit [NEED_PATCH_8]).emit ([0xe9] ++ le32 0)
  refine h₂.curTb.bind fun cur _ hcur => ?_
  subst hcur
  refine (notePatch_alike h₂ _ _ _ _ _).bind fun s₃ t₃ h₃ => ?_
  obtain ⟨l₃, rfl⟩ := h₃
  have h₃ : Alike s₃ (s₃.withLog l₃) := ⟨l₃, rfl⟩
  exact transNext_alike (h₃.st8 _ _) ds

theorem emitCallDisp_alike (ds : Decode) : Related AlikeWith (s.emitCallDisp L ds) (t.emitCallDisp L ds) := by
  obtain ⟨l, rfl⟩ := h
  have h : Alike s (s.withLog l) := ⟨l, rfl⟩
  simp only [State.emitCallDisp]
  refine Related.ite (fun _ => rfl) fun _ => ?_
  refine (notePatch_alike ((((h.emit _).emit _).emit _).emit _) _ _ _ _ _).bind fun s₁ t₁ h₁ => ?_
  obtain ⟨l₁, rfl⟩ := h₁
  have h₁ : Alike s₁ (s₁.withLog l₁) := ⟨l₁, rfl⟩
  rw [cemitRcCmp_eq, cemitRcCmp_eq]
  exact transNext_alike (((h₁.st32 _ _).emit _).logRcCmp _) ds

theorem emitCallNearMem_alike (ds : Decode) : Related AlikeWith (s.emitCallNearMem L ds) (t.emitCallNearMem L ds) := by
  obtain ⟨l, rfl⟩ := h
  have h : Alike s (s.withLog l) := ⟨l, rfl⟩
  rw [emitCallNearMem_eq, emitCallNearMem_eq]
  refine Related.ite (fun _ => rfl) fun _ => ?_
  exact transNext_alike (((h.emit _).updTb _ _).logRcCmp _) ds

theorem emitJmpNearMem_alike (ds : Decode) : Related AlikeWith (s.emitJmpNearMem L ds) (t.emitJmpNearMem L ds) := by
  obtain ⟨l, rfl⟩ := h
  have h : Alike s (s.withLog l) := ⟨l, rfl⟩
  simp only [State.emitJmpNearMem]
  refine (h.updTb _ _).curTb.bind fun cur _ hcur => ?_
  subst hcur
  rw [emitPushRm_eq, emitPushRm_eq]
  refine Related.bind (R := Alike) (Related.ite (fun _ => ?_) fun _ => ?_) fun s₁ t₁ h₁ => ?_
  · exact rfl
  · exact ((h.updTb _ _).emit _).emit _
  · obtain ⟨l₁, rfl⟩ := h₁
    have h₁ : Alike s₁ (s₁.withLog l₁) := ⟨l₁, rfl⟩
    rw [cemitIndOpt_eq, cemitIndOpt_eq]
    exact ⟨rfl, (h₁.emit _).updTb _ _⟩

theorem cemitJmpRetCache_alike : Related Alike (s.cemitJmpRetCache L) (t.cemitJmpRetCache L) := by
  simp only [State.cemitJmpRetCache]
  refine h.curTb.bind fun cur _ hcur => ?_
  subst hcur
  exact h.emit _

theorem emitRetIw_alike (ds : Decode) : Related AlikeWith (s.emitRetIw L ds) (t.emitRetIw L ds) := by
  simp only [State.emitRetIw]
  refine (cemitJmpRetCache_alike ?_).bind fun s₁ t₁ h₁ => ⟨rfl, h₁⟩
  split
  · exact (h.emit _).emit _
  · exact h.emit _

theorem emitInt_alike (ds : Decode) : Related AlikeWith (s.emitInt L img ds) (t.emitInt L img ds) := by
  obtain ⟨l, rfl⟩ := h
  have h : Alike s (s.withLog l) := ⟨l, rfl⟩
  rw [emitInt_eq, emitInt_eq]
  exact ⟨rfl, (h.emit _).emit _⟩

/-- One emitter from two states alike. -/
theorem callEmitfn_alike (ds : Decode) : Related AlikeWith (s.callEmitfn L img ds) (t.callEmitfn L img ds) := by
  simp only [State.callEmitfn]
  cases ds.emitfn with
  | null => exact rfl
  | table _ => exact rfl
  | fn fn =>
    cases fn with
    | normal =>
      obtain ⟨l, rfl⟩ := h
      exact ⟨rfl, l, rfl⟩
    | int => exact emitInt_alike h ds
    | ret => exact (cemitJmpRetCache_alike h).bind fun s₁ t₁ h₁ => ⟨rfl, h₁⟩
    | sysenter => exact ⟨rfl, h⟩
    | jcond => exact emitJcond_alike h ds
    | otherJcond => exact emitOtherJcond_alike h ds
    | jmp => exact emitJmp_alike h ds
    | jmpNearMem => exact emitJmpNearMem_alike h ds
    | callDisp => exact emitCallDisp_alike h ds
    | callNearMem => exact emitCallNearMem_alike h ds
    | retIw => exact emitRetIw_alike h ds

end

/-! ## A superblock, two contents -/

/-- Results of an iteration: the states alike, the contents whatever they are. -/
def AlikeStep (p q : Decode × Bool × State) : Prop := q.2.1 = p.2.1 ∧ Alike p.2.2 q.2.2

theorem checkCode_alike {s t : State} (h : Alike s t) : Related Eq (s.checkCode L) (t.checkCode L) := by
  obtain ⟨l, rfl⟩ := h
  exact Related.refl (fun _ => rfl) _

theorem checkSieve_alike {s t : State} (h : Alike s t) : Related Eq (s.checkSieve L) (t.checkSieve L) := by
  obtain ⟨l, rfl⟩ := h
  exact Related.refl (fun _ => rfl) _

theorem genInsn_alike {s t : State} (h : Alike s t) (ds ds' : Decode) :
    Related AlikeStep (s.genInsn L img .target ds) (t.genInsn L img .target ds') := by
  have hpc : t.pcPtr = s.pcPtr := by
    obtain ⟨l, rfl⟩ := h
    rfl
  simp only [State.genInsn, hpc]
  rcases simpleDisasInsn_same img ds ds' s.pcPtr with ⟨hn, hn'⟩ | ⟨r, r', ok, hr, hr', hsame, hset⟩
  · rw [hn, hn']
    exact rfl
  · rw [hr, hr']
    simp only [hsame.opstate, callEmitfn_congr hsame hset]
    refine (Related.refl (R := Eq) (fun _ => rfl) _).bind fun _ _ _ => ?_
    refine (callEmitfn_alike (h.beginInsn r r' ok hsame.decodeEip) r).bind fun p q h₁ => ?_
    obtain ⟨c, s₁⟩ := p
    obtain ⟨c', t₁⟩ := q
    obtain ⟨rfl, h₁⟩ : c' = c ∧ Alike s₁ t₁ := h₁
    refine (checkCode_alike h₁).bind fun _ _ _ => ?_
    obtain ⟨l, rfl⟩ := h₁
    exact ⟨rfl, l, rfl⟩

theorem limitExit_alike {s t : State} (h : Alike s t) : Related Alike (s.limitExit L .target) (t.limitExit L .target) := by
  obtain ⟨l, rfl⟩ := h
  have h : Alike s (s.withLog l) := ⟨l, rfl⟩
  simp only [State.limitExit]
  refine h.curTb.bind fun b _ hb => ?_
  subst hb
  have hrest : ∀ {s₁ t₁ : State}, Alike s₁ t₁ → Related Alike (s₁.checkCode L >>= fun _ => pure s₁)
      (t₁.checkCode L >>= fun _ => pure t₁) := fun h₁ => (checkCode_alike h₁).bind fun _ _ _ => h₁
  by_cases hc : b.tcPtr = s.codePtr
  · have hc' : b.tcPtr = (s.withLog l).codePtr := hc
    simp only [if_pos hc, if_pos hc']
    exact (notePatch_alike ((h.updTb _ _).emit _) _ _ _ _ _).bind fun s₁ t₁ h₁ => hrest h₁
  · have hc' : ¬ b.tcPtr = (s.withLog l).codePtr := hc
    simp only [if_neg hc, if_neg hc']
    exact (notePatch_alike (h.emit _) _ _ _ _ _).bind fun s₁ t₁ h₁ => hrest h₁

/-- What one iteration does alike, the loop does. -/
theorem genInsns_alike : ∀ (left : Nat) {s t : State}, Alike s t → ∀ ds ds' : Decode,
    Related Alike (s.genInsns L img .target left ds) (t.genInsns L img .target left ds') := by
  have hlen : ∀ {s t : State}, Alike s t → t.patchArray = s.patchArray := fun h => by
    obtain ⟨l, rfl⟩ := h
    rfl
  intro left
  induction left with
  | zero =>
    intro s t h ds ds'
    rw [State.genInsns, State.genInsns]
    refine (genInsn_alike h ds ds').bind fun p q h₁ => ?_
    obtain ⟨r, c, s₁⟩ := p
    obtain ⟨r', c', t₁⟩ := q
    obtain ⟨rfl, h₁⟩ : c' = c ∧ Alike s₁ t₁ := h₁
    simp only [hlen h₁]
    exact Related.ite (fun _ => h₁) fun _ => Related.ite (fun _ => limitExit_alike h₁) fun _ => limitExit_alike h₁
  | succ left ih =>
    intro s t h ds ds'
    rw [State.genInsns, State.genInsns]
    refine (genInsn_alike h ds ds').bind fun p q h₁ => ?_
    obtain ⟨r, c, s₁⟩ := p
    obtain ⟨r', c', t₁⟩ := q
    obtain ⟨rfl, h₁⟩ : c' = c ∧ Alike s₁ t₁ := h₁
    simp only [hlen h₁]
    exact Related.ite (fun _ => h₁) fun _ => Related.ite (fun _ => limitExit_alike h₁) fun _ => ih h₁ r r'

theorem takeSlot_alike {s t : State} (h : Alike s t) (e : PatchEntry) :
    Related AlikeWith (s.takeSlot e) (t.takeSlot e) := by
  simp only [State.takeSlot]
  refine ((h.setCurTb _).tb _).bind fun cur _ hcur => ?_
  subst hcur
  exact ⟨rfl, ((h.setCurTb _).logSlot _).updTb _ _⟩

theorem cemitExitStub_alike {s t : State} (h : Alike s t) (tb : Nat) (n dest : Word) :
    Alike (s.cemitExitStub L tb n dest) (t.cemitExitStub L tb n dest) := by
  have hptr : t.tbRetAddr = s.tbRetAddr ∧ t.sieveCodePtr = s.sieveCodePtr := by
    obtain ⟨l, rfl⟩ := h
    exact ⟨rfl, rfl⟩
  rw [cemitExitStub_eq, cemitExitStub_eq, hptr.1, hptr.2]
  exact h.emitSieve _

theorem patchToStub_alike {s t : State} (h : Alike s t) (e : PatchEntry) (d : Option Nat) :
    Related Alike (s.patchToStub L e d) (t.patchToStub L e d) := by
  have hmake : Related Alike (s.makeDest L e d) (t.makeDest L e d) := by
    cases d with
    | none =>
      simp only [State.makeDest]
      exact (makeTb_alike h _ _ _).bind fun _ _ h₁ => h₁.2
    | some d => exact h
  have hptr : ∀ {s₁ t₁ : State}, Alike s₁ t₁ → t₁.sieveCodePtr = s₁.sieveCodePtr := fun h₁ => by
    obtain ⟨l, rfl⟩ := h₁
    rfl
  simp only [State.patchToStub]
  refine hmake.bind fun s₁ t₁ h₁ => ?_
  rw [hptr h₁]
  refine (takeSlot_alike (h₁.st32 _ _) e).bind fun a b hab => ?_
  have h₂ : Alike (a.2.cemitExitStub L e.tb a.1 e.dest) (b.2.cemitExitStub L e.tb a.1 e.dest) :=
    cemitExitStub_alike hab.2 _ _ _
  rw [hab.1]
  generalize State.cemitExitStub L a.2 e.tb a.1 e.dest = s₂ at h₂ ⊢
  generalize State.cemitExitStub L b.2 e.tb a.1 e.dest = t₂ at h₂ ⊢
  exact (checkSieve_alike h₂).bind fun _ _ _ => h₂

theorem lazyPatchEntry_alike {s t : State} (h : Alike s t) (e : PatchEntry) :
    Related Alike (s.lazyPatchEntry L e) (t.lazyPatchEntry L e) := by
  simp only [State.lazyPatchEntry]
  refine (tbFindFast_alike h _ _).bind fun p q h₁ => ?_
  obtain ⟨d, s₁⟩ := p
  obtain ⟨d', t₁⟩ := q
  obtain ⟨rfl, h₁⟩ : d' = d ∧ Alike s₁ t₁ := h₁
  cases d' with
  | none => exact patchToStub_alike h₁ e none
  | some d =>
    refine (h₁.tb d).bind fun b _ hb => ?_
    subst hb
    refine Related.ite (fun _ => ?_) fun _ => patchToStub_alike h₁ e _
    refine (takeSlot_alike (h₁.st32 _ _) e).bind fun p q h₂ => ?_
    obtain ⟨n, s₂⟩ := p
    obtain ⟨n', t₂⟩ := q
    obtain ⟨rfl, h₂⟩ : n' = n ∧ Alike s₂ t₂ := h₂
    exact h₂.updTb _ _

theorem genTargetCode_alike {s t : State} (h : Alike s t) (ds ds' : Decode) (tb : Nat) :
    Related Alike (s.genTargetCode L img ds tb) (t.genTargetCode L img ds' tb) := by
  obtain ⟨l, rfl⟩ := h
  have h : Alike s (s.withLog l) := ⟨l, rfl⟩
  rw [genTargetCode_eq, genTargetCode_eq]
  simp only [State.genSuperblock]
  refine (h.tb tb).bind fun b _ hb => ?_
  subst hb
  refine (Related.refl (R := Eq) (fun _ => rfl) _).bind fun _ _ _ => ?_
  have hbegin : Alike (s.beginSuperblock b tb) ((s.withLog l).beginSuperblock b tb) := ⟨l, rfl⟩
  refine (genInsns_alike MAX_INSNS hbegin ds ds').bind fun s₁ t₁ h₁ => ?_
  obtain ⟨l₁, rfl⟩ := h₁
  have h₁ : Alike (s₁.setPcEnd s.stbs.length) ((s₁.withLog l₁).setPcEnd s.stbs.length) := ⟨l₁, rfl⟩
  refine (Related.foldlM (fun a b e hab => lazyPatchEntry_alike hab e) _ h₁).bind fun s₂ t₂ h₂ => ?_
  obtain ⟨l₂, rfl⟩ := h₂
  refine (Related.refl (R := Eq) (fun _ => rfl) _).bind fun _ _ _ => ?_
  exact ⟨l₂, rfl⟩

/-- The heads of the two loops go in pairs. -/
theorem Head.alike {s t : State} {ds ds' : Decode} {tb left : Nat} {s₁ : State} {ds₁ : Decode} (h : Alike s t)
    (hd : Head L img .target s ds tb left s₁ ds₁) :
    ∃ t₁ ds₂, Head L img .target t ds' tb left t₁ ds₂ ∧ Alike s₁ t₁ := by
  induction hd with
  | @start b hb hstb =>
    obtain ⟨l, rfl⟩ := h
    exact ⟨_, ds', .start hb hstb, l, rfl⟩
  | @next left s₁ s₂ ds₁ ds₂ _ hinsn hlen ih =>
    obtain ⟨t₁, ds₃, hd₁, h₁⟩ := ih
    obtain ⟨⟨ds₄, c, t₂⟩, ht₂, hc, h₂⟩ := (genInsn_alike h₁ ds₁ ds₃).exists_ok hinsn
    obtain rfl : c = true := hc
    refine ⟨t₂, ds₄, .next hd₁ ht₂ ?_, h₂⟩
    obtain ⟨l, hl⟩ := h₂
    have hpatch : t₂.patchArray = s₂.patchArray := by
      rw [show t₂ = _ from hl]
      rfl
    rw [hpatch]
    exact hlen

/-- What the `decode_t` held before does not matter: the two translations
return states that are the same but for the record of the calls, or both end
with the same fault; and they begin the same iterations, so that a fault is at
the same instruction. -/
theorem genTargetCode_stale (L : Layout) (img : Mem) (s : State) (tb : Nat) (ds ds' : Decode) :
    Related Alike (s.genTargetCode L img ds tb) (s.genTargetCode L img ds' tb) ∧
    ∀ left s₁ ds₁, Head L img .target s ds tb left s₁ ds₁ →
      ∃ t₁ ds₂, Head L img .target s ds' tb left t₁ ds₂ ∧ Alike s₁ t₁ :=
  ⟨genTargetCode_alike (Alike.refl s) ds ds' tb, fun _ _ _ hd => hd.alike (Alike.refl s)⟩

end Unitrans
