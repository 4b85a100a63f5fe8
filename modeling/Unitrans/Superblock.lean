/-
A superblock as a run: how `trans_next` and `emit_jmp` leave the blocks, and
the loop of `gen_target_code` by the states at its head (`Head`), with the
rules that carry an invariant from head to head and out of the loop.
-/
import Unitrans.TbFacts
import Unitrans.EmitInsn

namespace Unitrans

open X86 Except

variable {L : Layout} {img : Mem}

/-! ## Lookups -/

theorem chain_found {tbs : List TranslationBlock} {pc tag : Word} :
    ∀ (fuel : Nat) (h : Option Nat), (State.chain tbs pc tag fuel h).Ensures fun r =>
      ∀ i, r = some i → ∃ b, tbs[i]? = some b ∧ b.pc = pc
  | fuel, none => by cases fuel <;> simp [State.chain]
  | 0, some _ => by simp [State.chain]
  | fuel + 1, some j => by
    simp only [State.chain]
    cases hb : tbs[j]? with
    | none => simp
    | some b =>
      simp only [ensures_ite, ensures_ok]
      refine ⟨fun h i hi => ?_, fun _ => chain_found fuel b.physHashNext⟩
      obtain rfl := Option.some.inj hi
      exact ⟨b, hb, h.1⟩

/-- A lookup touches the cache alone, and what it answers is a block for the address. -/
theorem tbFindFast_frame (s : State) (pc tag : Word) : (s.tbFindFast pc tag).Ensures fun (r, s') =>
    (∃ c, s' = s.withCache c) ∧ ∀ i, r = some i → ∃ b, s.tbs[i]? = some b ∧ b.pc = pc := by
  have hslow : (s.tbFindSlow pc tag).Ensures fun (r, s') =>
      (∃ c, s' = s.withCache c) ∧ ∀ i, r = some i → ∃ b, s.tbs[i]? = some b ∧ b.pc = pc := by
    simp only [State.tbFindSlow, ensures_bind]
    refine (chain_found _ _).mono fun r hr => ?_
    cases r with
    | none => exact ensures_pure.mpr ⟨⟨s.tbJmpCache, rfl⟩, nofun⟩
    | some i => exact ensures_pure.mpr ⟨⟨_, rfl⟩, hr⟩
  simp only [State.tbFindFast]
  split
  · exact hslow
  · rename_i i _
    rw [ensures_bind]
    intro b hb
    rw [ensures_ite]
    refine ⟨fun _ => hslow, fun h => ensures_pure.mpr ⟨⟨s.tbJmpCache, rfl⟩, fun j hj => ?_⟩⟩
    obtain rfl := Option.some.inj hj
    simp only [not_or, not_not] at h
    refine ⟨b, ?_, h.1⟩
    simp only [State.tb] at hb
    split at hb
    · rename_i hb'
      rw [hb', Except.ok.inj hb]
    · cases hb

theorem State.tb_ensures (s : State) (i : Nat) : (s.tb i).Ensures fun b => s.tbs[i]? = some b := by
  simp only [State.tb]
  split <;> simp [*]

/-! ## The next block -/

/-- `tbs[i]`, current from here on. -/
def State.opened (s : State) (i : Nat) : State := (s.updTb i (·.setTcPtr s.codePtr)).setCurTb i

/-- A jump to the block `i` with code at `tcPtr` ends the superblock; `cur` is the current block. -/
def State.jumped (s : State) (i : Nat) (tcPtr : Word) (cur : TranslationBlock) : State :=
  (((s.emit (jmpTo s.codePtr tcPtr)).logSlot cur.patchNum).updTb s.curTb
    (·.setJmpOffset cur.patchNum.toNat ((s.codePtr + 1 - cur.tcPtr).setWidth 16))).tbAddJmpFrom s.curTb i cur.patchNum

/-- What `trans_next` may do, from the state after its lookup. -/
inductive NextTb (s : State) : Bool → State → Prop
  | ends {i b cur} : s.tbs[i]? = some b → b.pc = s.pcPtr → b.tcPtr ≠ NOT_TRANS_YET → s.tbs[s.curTb]? = some cur →
      NextTb s false (s.jumped i b.tcPtr cur)
  | opens {i b} : s.tbs[i]? = some b → b.pc = s.pcPtr → b.tcPtr = NOT_TRANS_YET → NextTb s true (s.opened i)
  | makes (f) : NextTb s true ((s.withNewTb s.pcPtr f).opened s.tbs.length)

theorem transNext_spec (s : State) (ds : Decode) : (s.transNext L ds).Ensures fun (cont, s') =>
    has ds.opstate OPSTATE_DATA32 ∧ ∃ c, NextTb (s.withCache c) cont s' := by
  simp only [State.transNext, ensures_ite]
  refine ⟨fun _ => ensures_error, fun h32 => ?_⟩
  have hdata : has ds.opstate OPSTATE_DATA32 := by simpa using h32
  rw [ensures_bind]
  refine (tbFindFast_frame s s.pcPtr NORMAL_TB_TAG).mono fun p h => ?_
  obtain ⟨r, s₁⟩ := p
  obtain ⟨⟨c, rfl⟩, hr⟩ := h
  have hpc : (s.withCache c).pcPtr = s.pcPtr := rfl
  cases r with
  | none =>
    simp only [ensures_bind]
    rintro cur -
    refine makeTb_spec.mono fun p h₂ => ?_
    obtain ⟨tb, s₂⟩ := p
    obtain ⟨rfl, rfl⟩ := h₂
    refine ensures_pure.mpr ⟨hdata, c, ?_⟩
    exact NextTb.makes cur.funcAddr
  | some i =>
    simp only [ensures_bind, ensures_ite, ensures_pure]
    refine ((s.withCache c).tb_ensures i).mono fun b hb => ?_
    obtain ⟨b', hb', hpcb⟩ := hr i rfl
    obtain rfl : b' = b := Option.some.inj (hb'.symm.trans hb)
    refine ⟨fun ht => ?_, fun ht => ⟨hdata, c, .opens hb (hpcb.trans hpc.symm) (not_not.mp ht)⟩⟩
    have hemit : ((s.withCache c).emit [0xe9]).emit (le32 (b'.tcPtr - ((s.withCache c).emit [0xe9]).codePtr - 4)) =
        (s.withCache c).emit (jmpTo (s.withCache c).codePtr b'.tcPtr) := by
      rw [State.emit_emit (by simp)]
      rfl
    rw [hemit]
    intro cur hcur
    have hcur' : (s.withCache c).tbs[(s.withCache c).curTb]? = some cur := by
      simpa using State.tb_ensures _ _ cur hcur
    have hoff : ((s.withCache c).emit (jmpTo (s.withCache c).codePtr b'.tcPtr)).codePtr - cur.tcPtr - 4 =
        (s.withCache c).codePtr + 1 - cur.tcPtr := by
      rw [State.codePtr_emit]
      simp only [jmpTo, List.length_append, List.length_cons, List.length_nil, length_le32]
      bv_omega
    refine ⟨hdata, c, ?_⟩
    have := NextTb.ends hb (hpcb.trans hpc.symm) ht hcur'
    rw [State.jumped, ← hoff] at this
    exact this

/-- `trans_next` emits a jump or nothing. -/
theorem NextTb.code {s s' : State} {cont : Bool} (h : NextTb s cont s') : ∃ bs, bs.length ≤ 5 ∧
    s'.mem = s.mem.put s.codePtr bs ∧ s'.codePtr = s.codePtr + BitVec.ofNat 32 bs.length := by
  cases h with
  | ends => exact ⟨jmpTo _ _, le_rfl, rfl, rfl⟩
  | opens => exact ⟨[], by simp, (Mem.put_nil ..).symm, (BitVec.add_zero _).symm⟩
  | makes => exact ⟨[], by simp, (Mem.put_nil ..).symm, (BitVec.add_zero _).symm⟩

/-- What `emit_jmp` may do before the jump, from the state after its lookup. -/
inductive Entrance (L : Layout) (s : State) (target cur : Word) : State → Prop
  | stays : Entrance L s target cur s
  | copies {i : Nat} {b : TranslationBlock} : s.tbs[i]? = some b → b.pc = target → b.funcAddr ≠ 0 → b.funcAddr ≠ cur →
      Entrance L s target cur (s.emit (rcCopyBytes L cur b.funcAddr))
  | makes : Entrance L s target cur ((s.withNewTb target target).emit (rcCopyBytes L cur target))

theorem emitJmpEntrance_spec (s : State) (target cur : Word) : (s.emitJmpEntrance L img target cur).Ensures fun s' =>
    ∃ c, Entrance L (s.withCache c) target cur s' := by
  simp only [State.emitJmpEntrance, ensures_bind]
  refine (tbFindFast_frame s target NORMAL_TB_TAG).mono fun p h => ?_
  obtain ⟨r, s₁⟩ := p
  obtain ⟨⟨c, rfl⟩, hr⟩ := h
  cases r with
  | none =>
    simp only [ensures_ite, ensures_bind, ensures_pure]
    refine ⟨fun _ => makeTb_spec.mono fun p h₂ => ⟨c, ?_⟩, fun _ => ⟨c, .stays⟩⟩
    obtain ⟨tb, s₂⟩ := p
    obtain ⟨-, rfl⟩ := h₂
    rw [cemitRcCopy_eq]
    exact .makes
  | some i =>
    simp only [ensures_bind, ensures_ite, ensures_pure]
    refine ((s.withCache c).tb_ensures i).mono fun b hb => ?_
    obtain ⟨b', hb', hpc⟩ := hr i rfl
    obtain rfl : b' = b := Option.some.inj (hb'.symm.trans hb)
    refine ⟨fun h => ⟨c, ?_⟩, fun _ => ⟨c, .stays⟩⟩
    rw [cemitRcCopy_eq]
    exact .copies hb hpc h.1 h.2

/-! ## How an emitter can fail -/

/-- Neither a call through a null emitter nor a full patch array. -/
def Fault.Plain (e : Fault) : Prop := e ≠ .nullEmitter ∧ e ≠ .abort "node_patch overflow\n"

theorem Fault.Plain.wild : Fault.wild.Plain := by simp [Fault.Plain]

theorem Fault.Plain.hang : Fault.hang.Plain := by simp [Fault.Plain]

theorem Fault.Plain.abort {msg : String} (h : msg ≠ "node_patch overflow\n") : (Fault.abort msg).Plain := by
  simp [Fault.Plain, h]

theorem abortIf_fails {c : Bool} {msg : String} (h : msg ≠ "node_patch overflow\n") :
    (abortIf c msg).Fails Fault.Plain := by
  rw [abortIf, fails_ite]
  exact ⟨fun _ => fails_error.mpr (.abort h), fun _ => fails_ok⟩

theorem State.tb_fails (s : State) (i : Nat) : (s.tb i).Fails Fault.Plain := by
  simp only [State.tb]
  split
  · exact fails_ok
  · exact fails_error.mpr .wild

theorem chain_fails {tbs : List TranslationBlock} {pc tag : Word} :
    ∀ (fuel : Nat) (h : Option Nat), (State.chain tbs pc tag fuel h).Fails Fault.Plain
  | fuel, none => by cases fuel <;> simp [State.chain]
  | 0, some _ => by simp [State.chain, Fault.Plain]
  | fuel + 1, some j => by
    simp only [State.chain]
    cases hb : tbs[j]? with
    | none => simp [Fault.Plain]
    | some b => simpa using fun _ => chain_fails fuel b.physHashNext

theorem tbFindFast_fails (s : State) (pc tag : Word) : (s.tbFindFast pc tag).Fails Fault.Plain := by
  have hslow : (s.tbFindSlow pc tag).Fails Fault.Plain := by
    simp only [State.tbFindSlow, fails_bind]
    refine ⟨chain_fails _ _, fun r _ => ?_⟩
    cases r <;> exact fails_pure
  simp only [State.tbFindFast]
  split
  · exact hslow
  · rw [fails_bind]
    exact ⟨s.tb_fails _, fun b _ => fails_ite.mpr ⟨fun _ => hslow, fun _ => fails_pure⟩⟩

theorem makeTb_fails (s : State) (pc f tag : Word) : (s.makeTb L pc f tag).Fails Fault.Plain := by
  rw [State.makeTb]
  cases s.tbAlloc L pc with
  | none => simp [Fault.Plain]
  | some p => exact fails_ok

theorem notePatch_fails {s : State} (h : s.patchArray.length < PATCH_ARRAY_SIZE) (loc dest : Word) (tb : Nat)
    (f tag : Word) : (s.notePatch L loc dest tb f tag).Fails Fault.Plain := by
  simp only [State.notePatch, fails_bind, fails_pure]
  have hno : ¬ PATCH_ARRAY_SIZE ≤ s.patchArray.length := by omega
  refine ⟨?_, fun _ _ => ⟨abortIf_fails (by decide), fun _ _ => trivial⟩⟩
  rw [abortIf, if_neg (by simpa using hno)]
  exact fails_ok

theorem transNext_fails (s : State) (ds : Decode) : (s.transNext L ds).Fails Fault.Plain := by
  simp only [State.transNext, fails_ite, fails_error, fails_bind]
  refine ⟨fun _ => .abort (by decide), fun _ => ⟨tbFindFast_fails _ _ _, fun p _ => ?_⟩⟩
  obtain ⟨r, s₁⟩ := p
  cases r with
  | none =>
    simp only [fails_bind, fails_pure]
    exact ⟨s₁.tb_fails _, fun _ _ => ⟨makeTb_fails _ _ _ _, fun _ _ => trivial⟩⟩
  | some i =>
    simp only [fails_bind, fails_ite, fails_pure]
    exact ⟨s₁.tb_fails _, fun _ _ => ⟨fun _ => ⟨State.tb_fails _ _, fun _ _ => trivial⟩, fun _ => trivial⟩⟩

theorem emitJmpEntrance_fails (s : State) (target cur : Word) :
    (s.emitJmpEntrance L img target cur).Fails Fault.Plain := by
  simp only [State.emitJmpEntrance, fails_bind]
  refine ⟨tbFindFast_fails _ _ _, fun p _ => ?_⟩
  obtain ⟨r, s₁⟩ := p
  cases r with
  | none =>
    simp only [fails_ite, fails_bind, fails_pure]
    exact ⟨fun _ => ⟨makeTb_fails _ _ _ _, fun _ _ => trivial⟩, fun _ => trivial⟩
  | some i =>
    simp only [fails_bind, fails_ite, fails_pure]
    exact ⟨s₁.tb_fails _, fun _ _ => ⟨fun _ => trivial, fun _ => trivial⟩⟩

@[simp] theorem State.patchArray_emit (s : State) (bs : List Byte) : (s.emit bs).patchArray = s.patchArray := by
  cases s; rfl

theorem Entrance.patchArray {s s' : State} {target cur : Word} (h : Entrance L s target cur s') :
    s'.patchArray = s.patchArray := by
  cases h <;> rfl

theorem emitJcond_fails {s : State} (h : s.patchArray.length < PATCH_ARRAY_SIZE) (ds : Decode) :
    (s.emitJcond L img ds).Fails Fault.Plain := by
  simp only [State.emitJcond, fails_bind]
  refine ⟨State.tb_fails _ _, fun _ _ => ⟨notePatch_fails ?_ _ _ _ _ _, fun s₁ _ => transNext_fails s₁ ds⟩⟩
  split <;> simpa using h

theorem emitOtherJcond_fails {s : State} (h : s.patchArray.length < PATCH_ARRAY_SIZE) (ds : Decode) :
    (s.emitOtherJcond L ds).Fails Fault.Plain := by
  simp only [State.emitOtherJcond, fails_bind]
  refine ⟨State.tb_fails _ _, fun _ _ => ⟨notePatch_fails ?_ _ _ _ _ _, fun s₁ _ => transNext_fails _ ds⟩⟩
  split <;> simpa using h

theorem emitCallDisp_fails {s : State} (h : s.patchArray.length < PATCH_ARRAY_SIZE) (ds : Decode) :
    (s.emitCallDisp L ds).Fails Fault.Plain := by
  simp only [State.emitCallDisp, fails_ite, fails_error, fails_bind]
  refine ⟨fun _ => .abort (by decide), fun _ => ⟨notePatch_fails ?_ _ _ _ _ _, ?_⟩⟩
  · simpa using h
  · exact fun s₁ _ => transNext_fails _ ds

theorem emitCallNearMem_fails (s : State) (ds : Decode) : (s.emitCallNearMem L ds).Fails Fault.Plain := by
  rw [emitCallNearMem_eq, fails_ite, fails_error]
  exact ⟨fun _ => .abort (by decide), fun _ => transNext_fails _ _⟩

theorem emitJmp_fails {s : State} (h : s.patchArray.length < PATCH_ARRAY_SIZE) (ds : Decode) :
    (s.emitJmp L img ds).Fails Fault.Plain := by
  simp only [State.emitJmp, fails_bind, fails_pure]
  refine ⟨s.tb_fails _, fun _ _ => ⟨emitJmpEntrance_fails _ _ _, (emitJmpEntrance_spec _ _ _).mono fun s₁ h₁ => ?_⟩⟩
  obtain ⟨c, hs₁⟩ := h₁
  refine ⟨notePatch_fails ?_ _ _ _ _ _, fun _ _ => trivial⟩
  rw [State.patchArray_emit, hs₁.patchArray]
  exact h

theorem emitJmpNearMem_fails (s : State) (ds : Decode) : (s.emitJmpNearMem L ds).Fails Fault.Plain := by
  cases hb : s.tbs[s.curTb]? with
  | none =>
    have htb : (s.updTb s.curTb (·.setType IND_TYPE_JMP)).tb s.curTb = .error .wild := by
      simp [State.tb, State.updTb, hb]
    simp only [State.emitJmpNearMem, State.curTb_updTb, htb, error_bind, fails_error]
    exact .wild
  | some b =>
    rw [emitJmpNearMem_eq L hb, fails_ite, fails_error]
    exact ⟨fun _ => .abort (by decide), fun _ => fails_ok⟩

theorem cemitJmpRetCache_fails (s : State) : (s.cemitJmpRetCache L).Fails Fault.Plain := by
  simp only [State.cemitJmpRetCache, fails_bind, fails_pure]
  exact ⟨s.tb_fails _, fun _ _ => trivial⟩

/-- An emitter fails otherwise only if it is null. -/
theorem callEmitfn_fails {s : State} {ds : Decode} (h : s.patchArray.length < PATCH_ARRAY_SIZE)
    (hfn : ds.emitfn ≠ .null) : (s.callEmitfn L img ds).Fails Fault.Plain := by
  simp only [State.callEmitfn]
  split
  case h_1 heq => exact absurd heq hfn
  case h_2 => exact fails_error.mpr .wild
  case h_3 => exact fails_pure
  case h_4 => exact emitJcond_fails h ds
  case h_5 => exact emitOtherJcond_fails h ds
  case h_6 => exact emitJmp_fails h ds
  case h_7 => exact emitJmpNearMem_fails s ds
  case h_8 => exact emitCallDisp_fails h ds
  case h_9 => exact emitCallNearMem_fails s ds
  case h_10 =>
    simp only [State.emitRet, fails_bind, fails_pure]
    exact ⟨cemitJmpRetCache_fails s, fun _ _ => trivial⟩
  case h_11 =>
    simp only [State.emitRetIw, fails_bind, fails_pure]
    exact ⟨cemitJmpRetCache_fails _, fun _ _ => trivial⟩
  case h_12 => exact fails_pure
  case h_13 => exact fails_pure

/-! ## What an emitter does -/

/-- What the emitter of `ds` may leave. -/
inductive Emitted (L : Layout) (img : Mem) (s : State) (ds : Decode) : Bool → State → Prop
  | normal : ds.emitfn = .fn .normal → Emitted L img s ds true (s.emit (insnBytes img s))
  | int : ds.emitfn = .fn .int → Emitted L img s ds true
      ((s.emit (if img (ds.instr + 1) = 0x80 then exitTestBytes L s.codePtr else [])).emit (insnBytes img s))
  | sysenter : ds.emitfn = .fn .sysenter → Emitted L img s ds false s
  | ret {b} : ds.emitfn = .fn .ret → s.tbs[s.curTb]? = some b →
      Emitted L img s ds false (s.emit (jmpRetCacheBytes L b.funcAddr))
  | retIw {b} : ds.emitfn = .fn .retIw → s.tbs[s.curTb]? = some b →
      Emitted L img s ds false (s.emit (retIwBytes L ds.imm16 b.funcAddr))
  | jmpNearMem {b} : ds.emitfn = .fn .jmpNearMem → ¬ has ds.flags DSFL_GROUP4_PREFIX → s.tbs[s.curTb]? = some b →
      Emitted L img s ds false ((s.emit (jmpNearMemBytes L s.tbRetAddr s.codePtr (L.tbPtr s.curTb) b.funcAddr ds)).updTb
        s.curTb (jmpNearMemFields L s.tbRetAddr s.codePtr (L.tbPtr s.curTb) ds))
  | jmp {b c s₁} : ds.emitfn = .fn .jmp → s.tbs[s.curTb]? = some b →
      Entrance L (s.withCache c) (s.jmpTargetOf ds) b.funcAddr s₁ →
      Emitted L img s ds false ((s₁.emit ([0xe9] ++ le32 NEED_PATCH_32)).noted
        ⟨s₁.codePtr + 1, s.jmpTargetOf ds, s₁.curTb, b.funcAddr, NORMAL_TB_TAG⟩)
  | callDisp {c cont s'} : ds.emitfn = .fn .callDisp → NextTb (((((s.emit (callDispBytes s.sieveStub s.codePtr
      (RET_HASH_FUNC L.retHashTable (s.pcPtr + ds.immediate)) s.pcPtr)).noted
        ⟨s.codePtr + 16, s.pcPtr + ds.immediate, s.curTb, s.pcPtr + ds.immediate, NORMAL_TB_TAG⟩).logRcCmp
          (s.codePtr + 20))).withCache c) cont s' → Emitted L img s ds cont s'
  | callNearMem {c cont s'} : ds.emitfn = .fn .callNearMem → ¬ has ds.flags DSFL_GROUP4_PREFIX →
      NextTb ((((s.emit (callNearMemBytes L s.tbRetAddr s.sieveStub s.codePtr (L.tbPtr s.curTb) s.pcPtr ds)).updTb
        s.curTb (callNearMemFields L s.tbRetAddr s.codePtr (L.tbPtr s.curTb) s.pcPtr ds)).logRcCmp
          (callRcAt L s.tbRetAddr s.codePtr (L.tbPtr s.curTb) s.pcPtr ds)).withCache c) cont s' →
      Emitted L img s ds cont s'
  | jcond {b c cont s'} : ds.emitfn = .fn .jcond → s.tbs[s.curTb]? = some b →
      NextTb (((s.emit (jcondBytes img ds)).noted ⟨(s.emit (jcondBytes img ds)).codePtr - 4, s.jmpTargetOf ds, s.curTb,
        b.funcAddr, NORMAL_TB_TAG⟩).withCache c) cont s' → Emitted L img s ds cont s'
  | otherJcond {b c cont s'} : ds.emitfn = .fn .otherJcond → s.tbs[s.curTb]? = some b →
      NextTb (((s.emit (otherJcondBytes ds)).noted ⟨(s.emit (otherJcondBytes ds)).codePtr - 4, s.pcPtr + ds.immediate,
        s.curTb, b.funcAddr, NORMAL_TB_TAG⟩).withCache c) cont s' → Emitted L img s ds cont s'

theorem State.tb_none {s : State} {i : Nat} (h : s.tbs[i]? = none) : s.tb i = .error .wild := by
  rw [State.tb, h]

theorem transNext_of_ok {s s' : State} {ds : Decode} {cont : Bool} (h : s.transNext L ds = .ok (cont, s')) :
    ∃ c, NextTb (s.withCache c) cont s' := (transNext_spec s ds _ h).2

theorem callEmitfn_spec (s : State) (ds : Decode) : (s.callEmitfn L img ds).Ensures fun (cont, s') =>
    Emitted L img s ds cont s' := by
  simp only [State.callEmitfn]
  split
  case h_1 => exact ensures_error
  case h_2 => exact ensures_error
  case h_3 h => exact ensures_pure.mpr (.normal h)
  case h_4 h =>
    cases hb : s.tbs[s.curTb]? with
    | none =>
      intro r hr
      simp only [State.emitJcond] at hr
      split at hr <;> simp [State.tb_none, hb] at hr
    | some b =>
      rintro ⟨cont, s'⟩ hr
      obtain ⟨c, hc⟩ := transNext_of_ok ((emitJcond_iff L hb).mp hr).2
      exact .jcond h hb hc
  case h_5 h =>
    cases hb : s.tbs[s.curTb]? with
    | none =>
      intro r hr
      simp only [State.emitOtherJcond] at hr
      split at hr <;> simp [State.tb_none, hb] at hr
    | some b =>
      rintro ⟨cont, s'⟩ hr
      obtain ⟨c, hc⟩ := transNext_of_ok ((emitOtherJcond_iff L hb).mp hr).2
      exact .otherJcond h hb hc
  case h_6 h =>
    cases hb : s.tbs[s.curTb]? with
    | none =>
      intro r hr
      simp [State.emitJmp, State.tb_none hb] at hr
    | some b =>
      refine (emitJmp_spec L hb).mono fun p hr => ?_
      obtain ⟨cont, s'⟩ := p
      obtain ⟨rfl, s₁, h₁, rfl⟩ := hr
      obtain ⟨c, hc⟩ := emitJmpEntrance_spec _ _ _ _ h₁
      exact .jmp h hb hc
  case h_7 h =>
    cases hb : s.tbs[s.curTb]? with
    | none =>
      have htb : (s.updTb s.curTb (·.setType IND_TYPE_JMP)).tb s.curTb = .error .wild := by
        simp [State.tb, State.updTb, hb]
      simp only [State.emitJmpNearMem, State.curTb_updTb, htb, error_bind, ensures_error]
    | some b =>
      rw [emitJmpNearMem_eq L hb, ensures_ite, ensures_ok]
      exact ⟨fun _ => ensures_error, fun h4 => .jmpNearMem h h4 hb⟩
  case h_8 h =>
    rintro ⟨cont, s'⟩ hr
    obtain ⟨c, hc⟩ := transNext_of_ok ((emitCallDisp_iff L).mp hr).2
    exact .callDisp h hc
  case h_9 h =>
    rw [emitCallNearMem_eq, ensures_ite]
    refine ⟨fun _ => ensures_error, fun h4 p hr => ?_⟩
    obtain ⟨cont, s'⟩ := p
    obtain ⟨c, hc⟩ := transNext_of_ok hr
    exact .callNearMem h h4 hc
  case h_10 h =>
    cases hb : s.tbs[s.curTb]? with
    | none =>
      intro r hr
      simp [State.emitRet, State.cemitJmpRetCache, State.tb_none hb] at hr
    | some b =>
      rw [emitRet_eq L hb, ensures_ok]
      exact .ret h hb
  case h_11 h =>
    cases hb : s.tbs[s.curTb]? with
    | none =>
      intro r hr
      simp only [State.emitRetIw, State.cemitJmpRetCache] at hr
      split at hr <;> simp [State.tb_none, hb] at hr
    | some b =>
      rw [emitRetIw_eq L hb, ensures_ok]
      exact .retIw h hb
  case h_12 h =>
    rw [emitInt_eq, ensures_ok]
    exact .int h
  case h_13 h => exact ensures_pure.mpr (.sysenter h)

/-- An emitter makes at most one entry in the patch array, for the current block. -/
theorem Emitted.patchArray {s s' : State} {ds : Decode} {cont : Bool} (h : Emitted L img s ds cont s') :
    s'.patchArray = s.patchArray ∨ ∃ e, e.tb = s.curTb ∧ s'.patchArray = s.patchArray ++ [e] := by
  have hnext : ∀ {t : State} {cont s'}, NextTb t cont s' → s'.patchArray = t.patchArray := fun h => by
    cases h <;> rfl
  cases h with
  | normal | int | sysenter | ret | retIw | jmpNearMem => exact Or.inl rfl
  | jmp hfn hb he =>
    cases he <;> exact Or.inr ⟨_, rfl, rfl⟩
  | callNearMem hfn h4 hn => exact Or.inl ((hnext hn).trans rfl)
  | callDisp hfn hn => exact Or.inr ⟨_, rfl, hnext hn⟩
  | jcond hfn hb hn => exact Or.inr ⟨_, rfl, hnext hn⟩
  | otherJcond hfn hb hn => exact Or.inr ⟨_, rfl, hnext hn⟩

/-! ## The loop by its heads -/

namespace State.GenLoop

/-- The loop of `gen_target_code`. -/
def target : GenLoop where
  who s := s.curTb
  tag _ := NORMAL_TB_TAG

/-- The loop of `regen_target_code` for block `tb`. -/
def regen (tb : Nat) : GenLoop where
  who _ := tb
  tag b := b.tbTag

end State.GenLoop

theorem genTargetCode_eq (s : State) (ds : Decode) (tb : Nat) :
    s.genTargetCode L img ds tb = s.genSuperblock L img .target ds tb := rfl

theorem regenTargetCode_eq (s : State) (ds : Decode) (tb : Nat) :
    s.regenTargetCode L img ds tb = s.genSuperblock L img (.regen tb) ds tb := rfl

variable {G : State.GenLoop}

@[simp] theorem State.patchArray_updTb (s : State) (i : Nat) (f : TranslationBlock → TranslationBlock) :
    (s.updTb i f).patchArray = s.patchArray := by cases s; rfl

@[simp] theorem State.patchArray_beginInsn (s : State) (ds : Decode) (ok : Bool) :
    (s.beginInsn ds ok).patchArray = s.patchArray := by cases s; rfl

theorem not_addr16 (opstate : Nat) : ¬ has opstate OPSTATE_ADDR16 := by simp [has, OPSTATE_ADDR16]

/-- One iteration: the decoder's answer, the emitter's work and the check of the buffer. -/
theorem genInsn_spec (s : State) (ds : Decode) : (s.genInsn L img G ds).Ensures fun (r, cont, s') =>
    ∃ ok s₁, simpleDisasInsn img ds s.pcPtr = some (r, ok) ∧ Emitted L img (s.beginInsn r ok) r cont s₁ ∧
      (s₁.codePtr - L.codeGenBuffer).toNat ≤ DEFAULT_CODE_GEN_BUFFER_SIZE ∧
      s' = s₁.updTb (G.who s₁) (·.incInsnCount) := by
  simp only [State.genInsn]
  cases hd : simpleDisasInsn img ds s.pcPtr with
  | none => exact ensures_error
  | some p =>
    obtain ⟨r, ok⟩ := p
    simp only [ensures_bind, ensures_pure]
    rintro _ -
    refine (callEmitfn_spec _ _).mono fun p hs₁ => ?_
    obtain ⟨cont, s₁⟩ := p
    intro _ hcheck
    refine ⟨ok, s₁, rfl, hs₁, ?_, rfl⟩
    simp only [State.checkCode] at hcheck
    split at hcheck
    · cases hcheck
    · omega

theorem genInsn_patches (s : State) (ds : Decode) : (s.genInsn L img G ds).Ensures fun (_, _, s') =>
    s'.patchArray.length ≤ s.patchArray.length + 1 := by
  refine (genInsn_spec s ds).mono fun p h => ?_
  obtain ⟨r, cont, s'⟩ := p
  obtain ⟨ok, s₁, -, hs₁, -, rfl⟩ := h
  rcases hs₁.patchArray with h | ⟨e, -, h⟩ <;> simp [h]

/-- The states in which the loop for block `tb` begins an iteration, with the
iterations left after it and what `ds` holds. -/
inductive Head (L : Layout) (img : Mem) (G : State.GenLoop) (s : State) (ds : Decode) (tb : Nat) :
    Nat → State → Decode → Prop
  | start {b} : s.tb tb = .ok b → s.stbs.length + 1 < STB_MAX →
      Head L img G s ds tb MAX_INSNS (s.beginSuperblock b tb) ds
  | next {left s₁ s₂ ds₁ ds₂} : Head L img G s ds tb (left + 1) s₁ ds₁ →
      s₁.genInsn L img G ds₁ = .ok (ds₂, true, s₂) → s₂.patchArray.length < PATCH_ARRAY_SIZE - 2 →
      Head L img G s ds tb left s₂ ds₂

variable {s : State} {ds : Decode} {tb : Nat}

theorem Head.patches {left : Nat} {s₁ : State} {ds₁ : Decode} (h : Head L img G s ds tb left s₁ ds₁) :
    s₁.patchArray.length < PATCH_ARRAY_SIZE - 2 := by
  cases h with
  | start => simp [State.beginSuperblock, PATCH_ARRAY_SIZE]
  | next _ _ h => exact h

/-- What an iteration preserves the loop preserves; the last iteration or the exit at the limit gives `Q`. -/
theorem genInsns_ensures {I Q : State → Prop}
    (hinsn : ∀ {left s₁ ds₁}, Head L img G s ds tb left s₁ ds₁ → I s₁ →
      (s₁.genInsn L img G ds₁).Ensures fun (_, cont, s₂) => if cont then I s₂ else Q s₂)
    (hlimit : ∀ s₁, I s₁ → (s₁.limitExit L G).Ensures Q) :
    ∀ (left : Nat) {s₁ : State} {ds₁ : Decode}, Head L img G s ds tb left s₁ ds₁ → I s₁ →
      (s₁.genInsns L img G left ds₁).Ensures Q := by
  intro left
  induction left with
  | zero =>
    intro s₁ ds₁ hd hs
    rw [State.genInsns, ensures_bind]
    refine (hinsn hd hs).mono fun p hs₂ => ?_
    obtain ⟨ds₂, cont, s₂⟩ := p
    cases cont with
    | false => exact ensures_pure.mpr hs₂
    | true =>
      simp only [Bool.not_true, Bool.false_eq_true, if_false, ensures_ite]
      exact ⟨fun _ => hlimit _ hs₂, fun _ => hlimit _ hs₂⟩
  | succ left ih =>
    intro s₁ ds₁ hd hs
    rw [State.genInsns, ensures_bind]
    rintro ⟨ds₂, cont, s₂⟩ h₂
    have hs₂ := hinsn hd hs _ h₂
    cases cont with
    | false => exact ensures_pure.mpr hs₂
    | true =>
      simp only [Bool.not_true, Bool.false_eq_true, if_false, ensures_ite]
      refine ⟨fun _ => hlimit _ hs₂, fun hlt => ih (.next hd h₂ ?_) hs₂⟩
      rw [not_or] at hlt
      omega

/-- How the loop can fail. -/
theorem genInsns_fails {E : Fault → Prop}
    (hinsn : ∀ {left s₁ ds₁}, Head L img G s ds tb left s₁ ds₁ → (s₁.genInsn L img G ds₁).Fails E)
    (hlimit : ∀ s₁ : State, s₁.patchArray.length < PATCH_ARRAY_SIZE - 1 → (s₁.limitExit L G).Fails E) :
    ∀ (left : Nat) {s₁ : State} {ds₁ : Decode}, Head L img G s ds tb left s₁ ds₁ →
      (s₁.genInsns L img G left ds₁).Fails E := by
  intro left
  induction left with
  | zero =>
    intro s₁ ds₁ hd
    rw [State.genInsns, fails_bind]
    refine ⟨hinsn hd, (genInsn_patches s₁ ds₁).mono fun p hs₂ => ?_⟩
    obtain ⟨ds₂, cont, s₂⟩ := p
    have hlt : s₂.patchArray.length < PATCH_ARRAY_SIZE - 1 := by
      have := hd.patches
      omega
    cases cont with
    | false => exact fails_pure
    | true =>
      simp only [Bool.not_true, Bool.false_eq_true, if_false, fails_ite]
      exact ⟨fun _ => hlimit _ hlt, fun _ => hlimit _ hlt⟩
  | succ left ih =>
    intro s₁ ds₁ hd
    rw [State.genInsns, fails_bind]
    refine ⟨hinsn hd, fun p h₂ => ?_⟩
    obtain ⟨ds₂, cont, s₂⟩ := p
    have hlt : s₂.patchArray.length < PATCH_ARRAY_SIZE - 1 := by
      have h₃ : s₂.patchArray.length ≤ s₁.patchArray.length + 1 := genInsn_patches s₁ ds₁ _ h₂
      have := hd.patches
      omega
    cases cont with
    | false => exact fails_pure
    | true =>
      simp only [Bool.not_true, Bool.false_eq_true, if_false, fails_ite]
      refine ⟨fun _ => hlimit _ hlt, fun hno => ih (.next hd h₂ ?_)⟩
      rw [not_or] at hno
      omega

theorem limitExit_fails {s₁ : State} (h : s₁.patchArray.length < PATCH_ARRAY_SIZE - 1) :
    (s₁.limitExit L G).Fails Fault.Plain := by
  have hcheck : ∀ t : State, (t.checkCode L).Fails Fault.Plain := fun t => by
    simp [State.checkCode, Fault.Plain]
  simp only [State.limitExit, fails_bind, fails_pure]
  refine ⟨s₁.tb_fails _, fun b _ => ⟨notePatch_fails ?_ _ _ _ _ _, fun s₂ _ => ⟨hcheck s₂, fun _ _ => trivial⟩⟩⟩
  split <;> simp <;> omega

theorem genInsn_fails {s₁ : State} {ds₁ : Decode} (h : s₁.patchArray.length < PATCH_ARRAY_SIZE)
    (hfn : ∀ r ok, simpleDisasInsn img ds₁ s₁.pcPtr = some (r, ok) → r.emitfn ≠ .null) :
    (s₁.genInsn L img G ds₁).Fails Fault.Plain := by
  have hcheck : ∀ t : State, (t.checkCode L).Fails Fault.Plain := fun t => by
    simp [State.checkCode, Fault.Plain]
  simp only [State.genInsn]
  cases hd : simpleDisasInsn img ds₁ s₁.pcPtr with
  | none => exact fails_error.mpr .hang
  | some p =>
    obtain ⟨r, ok⟩ := p
    simp only [fails_bind, fails_pure]
    refine ⟨abortIf_fails (by decide), fun _ _ => ⟨callEmitfn_fails ?_ (hfn r ok hd), fun p _ => ?_⟩⟩
    · simpa using h
    · exact ⟨hcheck p.2, fun _ _ => trivial⟩

/-- A superblock fails as one of its iterations does, or plainly. -/
theorem genSuperblock_fails {E : Fault → Prop} (hE : ∀ e, e.Plain → E e)
    (h : ∀ left s₁ ds₁, Head L img G s ds tb left s₁ ds₁ → (s₁.genInsn L img G ds₁).Fails E) :
    (s.genSuperblock L img G ds tb).Fails E := by
  have hslot : ∀ (t : State) (e : PatchEntry), (t.takeSlot e).Fails Fault.Plain := fun t e => by
    simp only [State.takeSlot, fails_bind, fails_pure]
    exact ⟨State.tb_fails _ _, fun _ _ => trivial⟩
  have hmake : ∀ (t : State) (e : PatchEntry) (d : Option Nat), (t.makeDest L e d).Fails Fault.Plain := by
    rintro t e (_ | d)
    · simp only [State.makeDest, fails_bind, fails_pure]
      exact ⟨makeTb_fails _ _ _ _, fun _ _ => trivial⟩
    · exact fails_ok
  have hstub : ∀ (t : State) (e : PatchEntry) (d : Option Nat), (t.patchToStub L e d).Fails Fault.Plain := by
    intro t e d
    simp only [State.patchToStub, fails_bind, fails_pure]
    refine ⟨hmake t e d, fun t₁ _ => ⟨hslot _ e, fun _ _ => ⟨?_, fun _ _ => trivial⟩⟩⟩
    simp [State.checkSieve, Fault.Plain]
  have hentry : ∀ (t : State) (e : PatchEntry), (t.lazyPatchEntry L e).Fails Fault.Plain := by
    intro t e
    simp only [State.lazyPatchEntry, fails_bind]
    refine ⟨tbFindFast_fails _ _ _, fun p _ => ?_⟩
    obtain ⟨d, t₁⟩ := p
    cases d with
    | none => exact hstub t₁ e none
    | some d =>
      simp only [fails_bind, fails_ite, fails_pure]
      exact ⟨t₁.tb_fails d, fun b _ => ⟨fun _ => ⟨hslot _ e, fun _ _ => trivial⟩, fun _ => hstub t₁ e _⟩⟩
  have hlazy : ∀ t : State, (t.lazyPatch L).Fails Fault.Plain := fun t =>
    Fails.foldlM (I := fun _ => True) trivial (fun _ _ _ _ => Ensures.trivial) fun t e _ _ => hentry t e
  simp only [State.genSuperblock, fails_bind, fails_pure]
  refine ⟨(s.tb_fails tb).mono hE, fun b hb => ⟨(abortIf_fails (by decide)).mono hE, fun _ hstb => ⟨?_, fun s₁ _ =>
    ⟨(hlazy _).mono hE, fun s₂ _ => ⟨(abortIf_fails (by decide)).mono hE, fun _ _ => trivial⟩⟩⟩⟩⟩
  refine genInsns_fails (h _ _ _) (fun s₁ hs₁ => (limitExit_fails hs₁).mono hE) MAX_INSNS (.start hb ?_)
  simp only [abortIf] at hstb
  split at hstb
  · cases hstb
  · simp only [State.beginSuperblock, List.length_append, List.length_singleton] at *
    simp_all

end Unitrans
