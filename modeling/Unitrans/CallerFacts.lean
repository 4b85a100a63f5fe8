/-
Every function that makes a block looks its address up first: `TbOk`, that the
tables are sound and no address has two blocks, is kept by `lazy_patch`,
`trans_next`, `emit_jmp` and `get_next_tb` and holds after
`codecache_prologue_init`.
-/
import Unitrans.DecodeInputs
import Unitrans.PrologueFacts
import Unitrans.TbFacts

namespace Unitrans

open X86 HashChain Except

structure TbOk (s : State) : Prop where
  tables : Tables s.index
  unique : Unique s.index
  /-- the only tag in this configuration -/
  normal : ∀ t ∈ s.index.tags, t = NORMAL_TB_TAG

theorem TbOk.congr {s s' : State} (hs : TbOk s) (h : s'.index = s.index) : TbOk s' := by
  refine ⟨?_, ?_, ?_⟩ <;> rw [h]
  exacts [hs.tables, hs.unique, hs.normal]

/-- A lookup, and the blocks are as before. -/
theorem TbOk.find {s : State} (hs : TbOk s) (pc : Word) :
    (s.tbFindFast pc 0).Ensures fun (tb, s') =>
      tb = s.index.lookup pc ∧ ∃ c, s' = s.withCache c ∧ TbOk (s.withCache c) := by
  obtain ⟨c, hc, ht⟩ := tbFindFast_spec hs.tables pc
  rw [hc, ensures_ok]
  exact ⟨rfl, c, rfl, ht, hs.unique, hs.normal⟩

theorem TbOk.make {s : State} (hs : TbOk s) {L : Layout} {pc funcAddr tag : Word}
    (hn : s.index.lookup pc = none) :
    (s.makeTb L pc funcAddr tag).Ensures fun (_, s') => TbOk s' :=
  makeTb_spec.mono fun p h => by
    obtain ⟨tb, s'⟩ := p
    obtain ⟨-, rfl⟩ : tb = s.tbs.length ∧ s' = s.withNewTb pc funcAddr := h
    exact ⟨hs.tables.make pc funcAddr, hs.unique.make hn funcAddr, hs.normal⟩

variable {L : Layout} {img : Mem}

/-! ## Functions that leave the blocks' addresses alone -/

theorem cemitExitTb_index (s : State) (a b : Word) : (s.cemitExitTb L a b).index = s.index := by
  simp only [State.cemitExitTb, State.index_emit]
  split <;> split <;> simp

@[simp] theorem cemitSieveNopush_index (s : State) : s.cemitSieveNopush.index = s.index := by
  simp [State.cemitSieveNopush]

theorem cemitRcCmp_index (s : State) (p : Word) : (s.cemitRcCmp p).index = s.index := by
  simp [State.cemitRcCmp]

theorem cemitIndOpt_index (s : State) (t : Word) :
    (s.cemitIndOpt L t).Ensures fun s' => s'.index = s.index := by
  have hcmp : ∀ (s : State) i, (s.indOptCompare i).1.index = s.index := fun s i => by
    simp [State.indOptCompare]
  have hhit : ∀ (s : State) i a, (s.indOptHit i a).Ensures fun s' => s'.index = s.index := fun s i a => by
    simp only [State.indOptHit, ensures_bind, ensures_pure]
    intro _ _
    simp
  have hfold : ∀ (l : List Nat) (p : State × List Word),
      (l.foldl (fun (p : State × List Word) i =>
        ((p.1.indOptCompare i).1, p.2 ++ [(p.1.indOptCompare i).2])) p).1.index = p.1.index := by
    intro l
    induction l with
    | nil => intro p; rfl
    | cons i l ih => intro p; rw [List.foldl_cons, ih]; exact hcmp p.1 i
  simp only [State.cemitIndOpt]
  refine Ensures.foldlM (I := fun s' : State => s'.index = s.index) ?_ fun s' p _ hs' => ?_
  · simp [cemitExitTb_index, hfold]
  · exact (hhit s' p.2 p.1).mono fun s'' h => h.trans hs'

theorem emitPushRm_index (s : State) (ds : Decode) :
    (s.emitPushRm ds).Ensures fun s' => s'.index = s.index := by
  simp only [State.emitPushRm, ensures_ite]
  refine ⟨fun _ => ensures_error, fun _ => ?_⟩
  split <;> rw [ensures_pure] <;> split <;> split <;> simp

theorem cemitJmpRetCache_index (s : State) :
    (s.cemitJmpRetCache L).Ensures fun s' => s'.index = s.index := by
  simp only [State.cemitJmpRetCache, ensures_bind, ensures_pure]
  exact fun _ _ => by simp

@[simp] theorem cemitSieveNode_index (s : State) (b : TranslationBlock) (n : Word) :
    (s.cemitSieveNode b n).index = s.index := by
  simp [State.cemitSieveNode]

theorem addSieveEntry_index (s : State) (tb : Nat) (t : Word) :
    (s.addSieveEntry L tb t).Ensures fun s' => s'.index = s.index := by
  simp only [State.addSieveEntry, ensures_bind, ensures_ite, ensures_pure]
  intro _ _
  exact ⟨fun _ => trivial, fun _ _ _ => by simp⟩

/-! ## Callers of `make_tb` -/

theorem notePatch_ok {s : State} (hs : TbOk s) (loc dest : Word) (tb : Nat) (f : Word) :
    (s.notePatch L loc dest tb f NORMAL_TB_TAG).Ensures TbOk := by
  simp only [State.notePatch, ensures_bind, ensures_pure]
  intro _ _ _ _
  have h : TbOk (s.addPatch { loc, dest, tb, funcAddr := f, tbTag := NORMAL_TB_TAG }) := by
    refine ⟨?_, ?_, ?_⟩ <;> rw [State.index_addPatch]
    · exact hs.tables.withTags _
    · exact hs.unique
    · intro t ht
      rcases List.mem_append.mp ht with ht | ht
      · exact hs.normal t ht
      · exact List.mem_singleton.mp ht
  exact h.congr (by simp)

theorem transNext_ok {s : State} (hs : TbOk s) (ds : Decode) :
    (s.transNext L ds).Ensures fun (_, s') => TbOk s' := by
  simp only [State.transNext, ensures_ite]
  refine ⟨fun _ => ensures_error, fun _ => ?_⟩
  rw [ensures_bind]
  refine (hs.find s.pcPtr).mono fun p h => ?_
  obtain ⟨tb, s₁⟩ := p
  obtain ⟨rfl, c, rfl, hs₁⟩ := h
  cases hf : s.index.lookup s.pcPtr with
  | none =>
    simp only [ensures_bind]
    rintro cur -
    refine (hs₁.make hf).mono fun p hs₂ => ?_
    obtain ⟨tb, s₂⟩ := p
    rw [ensures_pure]
    exact TbOk.congr hs₂ (by simp)
  | some tb =>
    simp only [ensures_bind, ensures_ite, ensures_pure]
    rintro b -
    exact ⟨fun _ cur _ => hs₁.congr (by simp), fun _ => hs₁.congr (by simp)⟩

theorem emitJmpEntrance_ok {s : State} (hs : TbOk s) (t f : Word) :
    (s.emitJmpEntrance L img t f).Ensures TbOk := by
  simp only [State.emitJmpEntrance, ensures_bind]
  refine (hs.find t).mono fun p h => ?_
  obtain ⟨tb, s₁⟩ := p
  obtain ⟨rfl, c, rfl, hs₁⟩ := h
  cases hf : s.index.lookup t with
  | none =>
    simp only [ensures_ite, ensures_bind, ensures_pure]
    refine ⟨fun _ => (hs₁.make hf).mono fun p hs₂ => ?_, fun _ => hs₁⟩
    obtain ⟨_, s₂⟩ := p
    exact hs₂.congr (s := s₂) (by simp [State.cemitRcCopy])
  | some tb =>
    simp only [ensures_bind, ensures_ite, ensures_pure]
    exact fun b _ => ⟨fun _ => hs₁.congr (by simp [State.cemitRcCopy]), fun _ => hs₁⟩

theorem emitJmp_ok {s : State} (hs : TbOk s) (ds : Decode) :
    (s.emitJmp L img ds).Ensures fun (_, s') => TbOk s' := by
  simp only [State.emitJmp, ensures_bind, ensures_pure]
  rintro cur -
  refine (emitJmpEntrance_ok hs _ _).mono fun s₁ hs₁ => ?_
  exact notePatch_ok (hs₁.congr (by simp)) _ _ _ _

theorem emitCallDisp_ok {s : State} (hs : TbOk s) (ds : Decode) :
    (s.emitCallDisp L ds).Ensures fun (_, s') => TbOk s' := by
  simp only [State.emitCallDisp, ensures_ite, ensures_bind]
  refine ⟨fun _ => ensures_error, fun _ => ?_⟩
  refine (notePatch_ok (hs.congr (by simp)) _ _ _ _).mono fun s₁ hs₁ => ?_
  exact transNext_ok (hs₁.congr (cemitRcCmp_index _ _)) ds

theorem emitCallPushes_index (s : State) (ds : Decode) :
    (s.emitCallPushes ds).Ensures fun s' => s'.index = s.index := by
  simp only [State.emitCallPushes, ensures_ite, ensures_bind, ensures_pure]
  refine ⟨fun _ => (emitPushRm_index s ds).mono fun s₁ h₁ => ?_, fun _ => ?_⟩
  · simpa using h₁
  · exact (emitPushRm_index _ ds).mono fun s₁ h₁ => h₁.trans (by simp)

theorem emitCallNearMem_ok {s : State} (hs : TbOk s) (ds : Decode) :
    (s.emitCallNearMem L ds).Ensures fun (_, s') => TbOk s' := by
  simp only [State.emitCallNearMem, ensures_bind]
  refine (emitCallPushes_index _ ds).mono fun s₁ h₁ => ?_
  refine (cemitIndOpt_index _ _).mono fun s₂ h₂ => transNext_ok (hs.congr ?_) ds
  rw [cemitRcCmp_index, h₂]
  simpa using h₁

theorem emitJcond_ok {s : State} (hs : TbOk s) (ds : Decode) :
    (s.emitJcond L img ds).Ensures fun (_, s') => TbOk s' := by
  simp only [State.emitJcond, ensures_bind]
  rintro cur -
  refine (notePatch_ok (hs.congr ?_) _ _ _ _).mono fun s₁ hs₁ => transNext_ok hs₁ ds
  split <;> simp

theorem emitOtherJcond_ok {s : State} (hs : TbOk s) (ds : Decode) :
    (s.emitOtherJcond L ds).Ensures fun (_, s') => TbOk s' := by
  simp only [State.emitOtherJcond, ensures_bind]
  rintro cur -
  refine (notePatch_ok (hs.congr ?_) _ _ _ _).mono fun s₁ hs₁ =>
    transNext_ok (hs₁.congr (State.index_st8 _ _ _)) ds
  split <;> simp

theorem emitJmpNearMem_index (s : State) (ds : Decode) :
    (s.emitJmpNearMem L ds).Ensures fun (_, s') => s'.index = s.index := by
  simp only [State.emitJmpNearMem, ensures_bind, ensures_pure]
  rintro cur -
  refine (emitPushRm_index _ ds).mono fun s₁ h₁ => (cemitIndOpt_index _ _).mono fun s₂ h₂ => ?_
  rw [h₂, h₁]
  simp

theorem emitRetIw_index (s : State) (ds : Decode) :
    (s.emitRetIw L ds).Ensures fun (_, s') => s'.index = s.index := by
  simp only [State.emitRetIw, ensures_bind, ensures_pure]
  refine (cemitJmpRetCache_index _).mono fun s₁ h₁ => h₁.trans ?_
  split <;> simp

theorem emitInt_index (s : State) (ds : Decode) :
    (s.emitInt L img ds).Ensures fun (_, s') => s'.index = s.index := by
  simp only [State.emitInt, ensures_pure, State.copyInsn, State.index_emit]
  split <;> simp

theorem callEmitfn_ok {s : State} (hs : TbOk s) (ds : Decode) :
    (s.callEmitfn L img ds).Ensures fun (_, s') => TbOk s' := by
  simp only [State.callEmitfn]
  split
  case h_1 => exact ensures_error
  case h_2 => exact ensures_error
  case h_3 => exact ensures_pure.2 (hs.congr (by simp [State.copyInsn]))
  case h_4 => exact emitJcond_ok hs ds
  case h_5 => exact emitOtherJcond_ok hs ds
  case h_6 => exact emitJmp_ok hs ds
  case h_7 => exact (emitJmpNearMem_index s ds).mono fun _ h => hs.congr h
  case h_8 => exact emitCallDisp_ok hs ds
  case h_9 => exact emitCallNearMem_ok hs ds
  case h_10 =>
    simp only [State.emitRet, ensures_bind, ensures_pure]
    exact (cemitJmpRetCache_index s).mono fun _ h => hs.congr h
  case h_11 => exact (emitRetIw_index s ds).mono fun _ h => hs.congr h
  case h_12 => exact (emitInt_index s ds).mono fun _ h => hs.congr h
  case h_13 => exact ensures_pure.2 hs

theorem takeSlot_index (s : State) (e : PatchEntry) :
    (s.takeSlot e).Ensures fun (_, s') => s'.index = s.index := by
  simp only [State.takeSlot, ensures_bind, ensures_pure]
  rintro cur -
  simp

theorem patchToStub_ok {s : State} (hs : TbOk s) (e : PatchEntry) (d : Option Nat)
    (hd : d = none → s.index.lookup e.dest = none) : (s.patchToStub L e d).Ensures TbOk := by
  have hmake : (s.makeDest L e d).Ensures TbOk := by
    cases d with
    | none =>
      simp only [State.makeDest, ensures_bind, ensures_pure]
      exact hs.make (hd rfl)
    | some d => exact ensures_ok.2 hs
  simp only [State.patchToStub, ensures_bind, ensures_pure]
  refine hmake.mono fun s₁ hs₁ => (takeSlot_index _ e).mono fun p h₂ => ?_
  obtain ⟨n, s₂⟩ := p
  rintro _ -
  refine hs₁.congr ?_
  simpa [State.cemitExitStub] using h₂

theorem lazyPatchEntry_ok {s : State} (hs : TbOk s) {e : PatchEntry} (he : e.tbTag = NORMAL_TB_TAG) :
    (s.lazyPatchEntry L e).Ensures TbOk := by
  simp only [State.lazyPatchEntry, ensures_bind, he]
  refine (hs.find e.dest).mono fun p h => ?_
  obtain ⟨d, s₁⟩ := p
  obtain ⟨rfl, c, rfl, hs₁⟩ := h
  cases hf : s.index.lookup e.dest with
  | none => exact patchToStub_ok hs₁ e none fun _ => hf
  | some d =>
    simp only [ensures_bind, ensures_ite, ensures_pure]
    rintro b -
    refine ⟨fun _ => (takeSlot_index _ e).mono fun p h₂ => ?_, fun _ => ?_⟩
    · obtain ⟨n, s₂⟩ := p
      exact hs₁.congr (by simpa using h₂)
    · exact patchToStub_ok hs₁ e _ fun h => absurd h (Option.some_ne_none d)

theorem lazyPatch_ok {s : State} (hs : TbOk s) : (s.lazyPatch L).Ensures TbOk :=
  Ensures.foldlM hs fun _ e he hs' =>
    lazyPatchEntry_ok hs' (hs.normal e.tbTag (List.mem_map_of_mem he))

/-! ## A whole superblock -/

variable {G : State.GenLoop} (hG : ∀ b, G.tag b = NORMAL_TB_TAG)

theorem genInsn_ok {s : State} (hs : TbOk s) (ds : Decode) :
    (s.genInsn L img G ds).Ensures fun (_, _, s') => TbOk s' := by
  simp only [State.genInsn]
  cases simpleDisasInsn img ds s.pcPtr with
  | none => exact ensures_error
  | some p =>
    obtain ⟨ds, ok⟩ := p
    simp only [ensures_bind, ensures_pure]
    rintro _ -
    refine (callEmitfn_ok (hs.congr (State.index_beginInsn _ _ _)) ds).mono fun p hs₁ => ?_
    obtain ⟨cont, s₁⟩ := p
    rintro _ -
    exact hs₁.congr (by simp)

include hG in
theorem limitExit_ok {s : State} (hs : TbOk s) : (s.limitExit L G).Ensures TbOk := by
  simp only [State.limitExit, ensures_bind, ensures_pure, hG]
  rintro b -
  refine (notePatch_ok (hs.congr ?_) _ _ _ _).mono fun s₁ hs₁ _ _ => hs₁
  split <;> simp

include hG in
theorem genInsns_ok : ∀ (left : Nat) {s : State}, TbOk s → ∀ ds,
    (s.genInsns L img G left ds).Ensures TbOk := by
  intro left
  induction left with
  | zero =>
    intro s hs ds
    rw [State.genInsns, ensures_bind]
    refine (genInsn_ok hs ds).mono fun p hs₁ => ?_
    obtain ⟨ds, cont, s₁⟩ := p
    simp only [ensures_ite, ensures_pure]
    exact ⟨fun _ => hs₁, fun _ => ⟨fun _ => limitExit_ok hG hs₁, fun _ => limitExit_ok hG hs₁⟩⟩
  | succ left ih =>
    intro s hs ds
    rw [State.genInsns, ensures_bind]
    refine (genInsn_ok hs ds).mono fun p hs₁ => ?_
    obtain ⟨ds, cont, s₁⟩ := p
    simp only [ensures_ite, ensures_pure]
    exact ⟨fun _ => hs₁, fun _ => ⟨fun _ => limitExit_ok hG hs₁, fun _ => ih hs₁ ds⟩⟩

theorem genTargetCode_ok {s : State} (hs : TbOk s) (ds : Decode) (tb : Nat) :
    (s.genTargetCode L img ds tb).Ensures TbOk := by
  simp only [State.genTargetCode, State.genSuperblock, ensures_bind, ensures_pure]
  rintro b - _ -
  have hbegin : TbOk (s.beginSuperblock b tb) := by
    refine ⟨?_, ?_, ?_⟩ <;> rw [State.index_beginSuperblock]
    exacts [hs.tables.withTags _, hs.unique, by simp]
  refine (genInsns_ok (fun _ => rfl) MAX_INSNS hbegin ds).mono fun s₁ hs₁ => ?_
  refine (lazyPatch_ok (hs₁.congr (by simp))).mono fun s₂ hs₂ => ?_
  rintro _ -
  exact hs₂.congr (by simp)

theorem cpuGenCode_ok {s : State} (hs : TbOk s) (ds : Decode) (tb : Nat) :
    (s.cpuGenCode L img ds tb).Ensures TbOk := genTargetCode_ok (hs.congr (by simp)) ds tb

theorem getNextTb_ok {s : State} (hs : TbOk s) (ds : Decode) (pc prev : Word) :
    (s.getNextTb L img ds pc prev).Ensures fun (_, s') => TbOk s' := by
  simp only [State.getNextTb, ensures_bind]
  refine (hs.find pc).mono fun p h => ?_
  obtain ⟨tb, s₁⟩ := p
  obtain ⟨rfl, c, rfl, hs₁⟩ := h
  cases hf : s.index.lookup pc with
  | none =>
    simp only [ensures_bind, ensures_pure]
    rintro f -
    exact (hs₁.make hf).mono fun p hs₂ => cpuGenCode_ok hs₂ ds p.1
  | some tb =>
    simp only [ensures_bind, ensures_ite, ensures_pure]
    rintro b -
    exact ⟨fun _ => cpuGenCode_ok hs₁ ds tb, fun _ => hs₁⟩

/-! ## The start -/

@[simp] theorem sieveInit_index (s : State) : (s.sieveInit L).index = s.index := by
  simp only [State.sieveInit, State.svTableInit]
  rw [State.index_foldl fun _ _ => by simp]
  simp only [State.index_setCodePtr, cemitExitTb_index, State.index_emitSieve]
  cases s
  rfl

@[simp] theorem retCacheProcInit_index (s : State) : (s.retCacheProcInit L).index = s.index := by
  simp only [State.retCacheProcInit]
  rw [State.index_foldl fun _ _ => State.index_st32 _ _ _]
  simp only [State.index_setCodePtr, State.cemitSieve, cemitSieveNopush_index, State.index_emit]

theorem cachePrologue_index (s : State) : (s.cachePrologue L).index = s.index := by
  simp only [State.cachePrologue, retCacheProcInit_index, sieveInit_index]
  cases s
  rfl

theorem Booted.tbOk {s : State} (hb : Booted L s) : TbOk s := by
  refine ⟨tables_empty ?_ hb.tbPhysHash hb.tbJmpCache, ?_, ?_⟩
  · simp [State.index, hb.tbs]
  · simp [Unique, State.index, hb.tbs]
  · simp [State.index, hb.patchArray]

theorem codecachePrologueInit_ok {s : State} (hb : Booted L s) :
    (s.codecachePrologueInit L).Ensures TbOk := by
  simp only [State.codecachePrologueInit, ensures_bind, ensures_pure]
  refine (hb.tbOk.congr (cachePrologue_index s)).make ?_
  rw [cachePrologue_index]
  simp [Index.lookup, State.index, hb.tbs]

theorem codecachePrologueInit_spec (s : State) : (s.codecachePrologueInit L).Ensures fun s' =>
    ∃ eip, s' = (s.cachePrologue L).withNewTb eip eip ∧ eip = (s.cachePrologue L).mem.ld32 L.eip := by
  simp only [State.codecachePrologueInit, ensures_bind, ensures_pure]
  exact makeTb_spec.mono fun _ h => ⟨_, h.2, rfl⟩

theorem makeTb_returns {s : State} (hlen : s.tbs.length < codeGenMaxBlocks)
    (hbuf : (s.codeGenPtr - L.codeGenBuffer).toNat < codeGenBufferMaxSize) (pc f tag : Word) :
    ∃ p, s.makeTb L pc f tag = .ok p := by
  rw [State.makeTb, State.tbAlloc, if_neg (by omega)]
  exact ⟨_, rfl⟩

theorem codecachePrologueInit_returns {s : State} (hb : Booted L s) : ∃ s', s.codecachePrologueInit L = .ok s' := by
  have htbs : (s.cachePrologue L).tbs = [] := by rw [cachePrologue_eq, hb.tbs]
  have hptr : (s.cachePrologue L).codeGenPtr = L.codeGenBuffer := by rw [cachePrologue_eq, hb.codeGenPtr]
  have hlen : (s.cachePrologue L).tbs.length < codeGenMaxBlocks := by
    rw [htbs]
    decide
  have hbuf : ((s.cachePrologue L).codeGenPtr - L.codeGenBuffer).toNat < codeGenBufferMaxSize := by
    rw [hptr, BitVec.sub_self]
    decide
  obtain ⟨p, hp⟩ := makeTb_returns hlen hbuf ((s.cachePrologue L).mem.ld32 L.eip)
    ((s.cachePrologue L).mem.ld32 L.eip) 0
  refine ⟨p.2, ?_⟩
  simp only [State.codecachePrologueInit, hp]
  rfl

theorem booted_boot (L : Layout) : Booted L (State.boot L fun _ => 0) := by
  refine ⟨rfl, rfl, rfl, rfl, rfl, rfl, rfl, ?_, ?_, ?_⟩ <;>
    simp [State.boot, Mem.ld32, word32, NOT_IND]

/-! ## The lookup refines a finite map -/

/-- States the functions that make blocks lead to, one call at a time and with
anything in between that leaves the blocks' addresses and the tables alone. -/
inductive CallersReach (L : Layout) (img : Mem) : State → Prop
  | codecachePrologueInit {s s'} : Booted L s → s.codecachePrologueInit L = .ok s' → CallersReach L img s'
  | lazyPatch {s s'} : CallersReach L img s → s.lazyPatch L = .ok s' → CallersReach L img s'
  | transNext {s s' ds cont} : CallersReach L img s → s.transNext L ds = .ok (cont, s') →
      CallersReach L img s'
  | emitJmp {s s' ds cont} : CallersReach L img s → s.emitJmp L img ds = .ok (cont, s') →
      CallersReach L img s'
  | getNextTb {s s' ds pc prev tb} : CallersReach L img s → s.getNextTb L img ds pc prev = .ok (tb, s') →
      CallersReach L img s'
  | notePatch {s s' loc dest tb f} : CallersReach L img s →
      s.notePatch L loc dest tb f NORMAL_TB_TAG = .ok s' → CallersReach L img s'
  | clearPatches {s} : CallersReach L img s → CallersReach L img { s with patchArray := [] }
  | other {s s'} : CallersReach L img s → s'.index = s.index → CallersReach L img s'

theorem CallersReach.ok {s : State} (h : CallersReach L img s) : TbOk s := by
  induction h with
  | codecachePrologueInit hb h => exact codecachePrologueInit_ok hb _ h
  | lazyPatch _ h ih => exact lazyPatch_ok ih _ h
  | transNext _ h ih => exact transNext_ok ih _ _ h
  | emitJmp _ h ih => exact emitJmp_ok ih _ _ h
  | getNextTb _ h ih => exact getNextTb_ok ih _ _ _ _ h
  | notePatch _ h ih => exact notePatch_ok ih _ _ _ _ _ h
  | clearPatches _ ih => exact ⟨ih.tables.withTags [], ih.unique, by simp [State.index]⟩
  | other _ h ih => exact ih.congr h

theorem Unique.eq {s : State} (hu : Unique s.index) {i j : Nat} {b c : TranslationBlock}
    (hb : s.tbs[i]? = some b) (hc : s.tbs[j]? = some c) (h : b.pc = c.pc) : i = j := by
  have hi : (s.index.sigs.map (·.pc))[i]? = some b.pc := by simp [State.index, hb, TranslationBlock.sig]
  have hj : (s.index.sigs.map (·.pc))[j]? = some b.pc := by simp [State.index, hc, TranslationBlock.sig, h]
  have hlt := (List.getElem?_eq_some_iff.mp hi).1
  exact (List.getElem?_inj hlt hu).mp (hi.trans hj.symm)

/-- From empty tables `tb_find_fast` answers, after any calls, the block made
last for an address, as the walk along its chain does; and no address has two
blocks in a state the callers reach. -/
theorem tbFindFast_refines_map (L : Layout) (img : Mem) :
    (∀ (s₀ : State) (ops : List TbOp) (made : List (Word × Nat)) (s : State),
      s₀.tbs = [] → s₀.tbPhysHash = (fun _ => none) → s₀.tbJmpCache = (fun _ => none) →
      runOps L s₀ ops = .ok (made, s) → ∀ pc,
        (∃ s', s.tbFindFast pc 0 = .ok (made.lookup pc, s')) ∧
        ∃ s', s.tbFindSlow pc 0 = .ok (made.lookup pc, s')) ∧
    ∀ (s : State), CallersReach L img s → ∀ (i j : Nat) (b c : TranslationBlock),
      s.tbs[i]? = some b → s.tbs[j]? = some c → b.pc = c.pc → i = j := by
  refine ⟨fun s₀ ops made s ht hh hc hr pc => ?_, fun s hs i j b c hb hc h => hs.ok.unique.eq hb hc h⟩
  obtain ⟨htab, hl⟩ := runOps_spec ht hh hc ops _ hr
  rw [← hl pc]
  obtain ⟨c, hfast, -⟩ := tbFindFast_spec htab pc
  obtain ⟨c', hslow, -⟩ := tbFindSlow_spec htab pc
  exact ⟨⟨_, hfast⟩, ⟨_, hslow⟩⟩

/-- An instruction without prefixes. -/
def plainInsn : Decode := { Decode.zero with opstate := OPSTATE_DATA32 }

theorem callersReach_boot : CallersReach .sample (fun _ => 0) ((State.boot .sample fun _ => 0).withNewTb 0 0) := by
  obtain ⟨s, hs⟩ := codecachePrologueInit_returns (booted_boot .sample)
  refine .other (.codecachePrologueInit (booted_boot .sample) hs) ?_
  obtain ⟨eip, rfl, heip⟩ := codecachePrologueInit_spec _ _ hs
  have hzero : eip = 0 := by
    rw [heip, cachePrologue_eq]
    dsimp only
    rw [Layout.eip, ld32_prologueMem _ (by decide)]
    rfl
  rw [hzero, cachePrologue_eq]
  simp only [State.index, State.withNewTb, newTb]

/-- Translation has come to `pc`. -/
def State.reached (s : State) (pc : Word) : State := { s with pcPtr := pc }

theorem CallersReach.reached {s : State} (h : CallersReach L img s) (pc : Word) : CallersReach L img (s.reached pc) :=
  .other h rfl

/-- `trans_next` has made blocks for two addresses of one chain. -/
theorem callersReach_sample : ∃ s, CallersReach .sample (fun _ => 0) s ∧ s.tbs.map (·.pc) = [0, 0x1000, 0x9000] := by
  obtain ⟨s₁, s₂, hs₁, hs₂, hpcs⟩ : ∃ s₁ s₂ : State,
      (((State.boot .sample fun _ => 0).withNewTb 0 0).reached 0x1000).transNext .sample plainInsn = .ok (true, s₁) ∧
      (s₁.reached 0x9000).transNext .sample plainInsn = .ok (true, s₂) ∧ s₂.tbs.map (·.pc) = [0, 0x1000, 0x9000] :=
    ⟨_, _, rfl, rfl, rfl⟩
  have h₁ : CallersReach .sample (fun _ => 0) s₁ := .transNext (callersReach_boot.reached 0x1000) hs₁
  exact ⟨s₂, .transNext (h₁.reached 0x9000) hs₂, hpcs⟩

/-- Two addresses of one chain, the first made anew. -/
theorem tbFindFast_refines_map_sample :
    (∃ made s, runOps .sample (.boot .sample fun _ => 0)
      [.make 0x1000 0x1000 0, .make 0x9000 0x1000 0, .find 0x1000, .make 0x1000 0x1000 0] = .ok (made, s) ∧
      (∃ s', s.tbFindFast 0x9000 0 = .ok (some 1, s')) ∧ ∃ s', s.tbFindFast 0x1000 0 = .ok (some 2, s')) ∧
    ∃ s, CallersReach .sample (fun _ => 0) s ∧ s.tbs.map (·.pc) = [0, 0x1000, 0x9000] ∧
      ∀ (i j : Nat) (b c : TranslationBlock), s.tbs[i]? = some b → s.tbs[j]? = some c → b.pc = c.pc → i = j := by
  have hmap := tbFindFast_refines_map .sample fun _ => 0
  constructor
  · obtain ⟨made, s, hr, hm⟩ : ∃ made s, runOps .sample (.boot .sample fun _ => 0)
        [.make 0x1000 0x1000 0, .make 0x9000 0x1000 0, .find 0x1000, .make 0x1000 0x1000 0] = .ok (made, s) ∧
        made = [(0x1000, 2), (0x9000, 1), (0x1000, 0)] := ⟨_, _, rfl, rfl⟩
    have h := hmap.1 _ _ made s rfl rfl rfl hr
    refine ⟨made, s, hr, ?_, ?_⟩
    · rw [hm] at h
      exact (h 0x9000).1
    · rw [hm] at h
      exact (h 0x1000).1
  · obtain ⟨s, hs, hpcs⟩ := callersReach_sample
    exact ⟨s, hs, hpcs, hmap.2 s hs⟩

end Unitrans
