/-
Where `cpu_exec` goes on: what the tables and buffers must have room for so
that a block is found, translated and linked without an abort, and a guest
for which they always have.
-/
import Unitrans.Pointing
import Unitrans.Visits

namespace Unitrans

open X86 FirstArrival Except

variable {L : Layout} {img : Mem} {s t s' : State}

/-! ## Room -/

theorem exists_ok_of_fails {ε α : Type _} {x : Except ε α} (h : x.Fails fun _ => False) : ∃ a, x = .ok a := by
  cases x with
  | error e => exact (h e rfl).elim
  | ok a => exact ⟨a, rfl⟩

/-- Of each table and buffer no more than `k` is in use. -/
structure Uses (L : Layout) (k : Nat) (s : State) : Prop where
  tbs : s.tbs.length ≤ k
  stbs : s.stbs.length ≤ k
  code : codeOff L s.codeGenPtr ≤ k
  sieve : sieveOff L s.sieveCodePtr ≤ k

theorem Uses.mono {k k' : Nat} (h : Uses L k s) (hle : k ≤ k') : Uses L k' s :=
  ⟨h.tbs.trans hle, h.stbs.trans hle, h.code.trans hle, h.sieve.trans hle⟩

theorem Uses.st32 {k : Nat} (h : Uses L k s) (a w : Word) : Uses L k (s.st32 a w) := ⟨h.tbs, h.stbs, h.code, h.sieve⟩

theorem abortIf_no {c : Bool} {msg : String} (h : c = false) : (abortIf c msg).Fails fun _ => False := by
  rw [abortIf, h]
  exact fails_ok

theorem tb_no {i : Nat} {b : TranslationBlock} (h : s.tbs[i]? = some b) : (s.tb i).Fails fun _ => False := by
  rw [State.tb, h]
  exact fails_ok

theorem tbFindFast_no (hs : Tables s.index) (pc : Word) : (s.tbFindFast pc NORMAL_TB_TAG).Fails fun _ => False := by
  obtain ⟨c, hc, -⟩ := tbFindFast_spec hs pc
  rw [show NORMAL_TB_TAG = 0 from rfl, hc]
  exact fails_ok

theorem makeTb_no (hlen : s.tbs.length < codeGenMaxBlocks) (hcode : codeOff L s.codeGenPtr < codeGenBufferMaxSize)
    (pc f tag : Word) : (s.makeTb L pc f tag).Fails fun _ => False := by
  obtain ⟨p, hp⟩ := makeTb_returns hlen hcode pc f tag
  rw [hp]
  exact fails_ok

/-- The words of `env` are not where code goes. -/
theorem ld32_put_code {m : Mem} {p a : Word} {bs : List Byte} (hp : codeOff L p + bs.length ≤ DEFAULT_CODE_GEN_BUFFER_SIZE)
    (ha : Span a 4 ⊆ Span L.env sizeofEnv) : (m.put p bs).ld32 a = m.ld32 a :=
  Mem.ld32_congr fun _ hx => Mem.put_of_notMem fun hin => env_notMem_buffers (ha hx) (Or.inl (span_subset hp hin))

/-! ## Fields and links -/

theorem takeSlot_no {e : PatchEntry} (hb : ∃ b, s.tbs[e.tb]? = some b) : (s.takeSlot e).Fails fun _ => False := by
  obtain ⟨b, hb⟩ := hb
  simp only [State.takeSlot, fails_bind, fails_pure]
  exact ⟨tb_no (s := s.setCurTb e.tb) hb, fun _ _ => trivial⟩

theorem patchToStub_no {e : PatchEntry} {d : Option Nat} (hlen : s.tbs.length < codeGenMaxBlocks)
    (hcode : codeOff L s.codeGenPtr < codeGenBufferMaxSize) (hsieve : sieveOff L s.sieveCodePtr + 35 ≤ DEFAULT_SIEVE_BUFFER_SIZE)
    (hb : ∃ b, s.tbs[e.tb]? = some b) : (s.patchToStub L e d).Fails fun _ => False := by
  have hmake : (s.makeDest L e d).Fails fun _ => False := by
    cases d with
    | none =>
      simp only [State.makeDest, fails_bind, fails_pure]
      exact ⟨makeTb_no hlen hcode _ _ _, fun _ _ => trivial⟩
    | some d => exact fails_ok
  have hmade : (s.makeDest L e d).Ensures fun t => t.sieveCodePtr = s.sieveCodePtr ∧ ∃ b, t.tbs[e.tb]? = some b := by
    obtain ⟨b, hb⟩ := hb
    cases d with
    | none =>
      simp only [State.makeDest, ensures_bind, ensures_pure]
      refine makeTb_spec.mono fun p hp => ?_
      obtain ⟨i, t⟩ := p
      obtain ⟨-, rfl⟩ := hp
      refine ⟨rfl, b, ?_⟩
      show (s.tbs ++ [_])[e.tb]? = _
      rw [List.getElem?_append_left (List.getElem?_eq_some_iff.mp hb).1, hb]
    | some d => exact ensures_ok.mpr ⟨rfl, b, hb⟩
  simp only [State.patchToStub, fails_bind, fails_pure]
  refine ⟨hmake, hmade.mono fun t ht => ?_⟩
  obtain ⟨hptr, hbt⟩ := ht
  refine ⟨takeSlot_no hbt, (takeSlot_spec _ e).mono fun p hp => ⟨?_, fun _ _ => trivial⟩⟩
  obtain ⟨n, u⟩ := p
  dsimp only at hp ⊢
  subst hp
  have hsize : DEFAULT_SIEVE_BUFFER_SIZE = 67108864 := rfl
  have hlast : ∀ (u : State) (w : Word), ((u.st32 e.loc w).taken e n).sieveCodePtr = u.sieveCodePtr := fun _ _ => rfl
  have hroom : ¬ (s.sieveCodePtr + BitVec.ofNat 32 35 - L.sieveBuffer).toNat > DEFAULT_SIEVE_BUFFER_SIZE := by
    show ¬ sieveOff L _ > _
    rw [sieveOff_add (by decide) (by omega)]
    omega
  rw [State.checkSieve, cemitExitStub_eq, State.sieveCodePtr_emitSieve, length_exitStubBytes, hlast, hptr, if_neg hroom]
  exact fails_ok

theorem lazyPatchEntry_no {e : PatchEntry} (hs : Tables s.index) (he : e.tbTag = NORMAL_TB_TAG) (hlen : s.tbs.length < codeGenMaxBlocks)
    (hcode : codeOff L s.codeGenPtr < codeGenBufferMaxSize) (hsieve : sieveOff L s.sieveCodePtr + 35 ≤ DEFAULT_SIEVE_BUFFER_SIZE)
    (hb : ∃ b, s.tbs[e.tb]? = some b) : (s.lazyPatchEntry L e).Fails fun _ => False := by
  simp only [State.lazyPatchEntry, fails_bind, he]
  refine ⟨tbFindFast_no hs _, (tbFindFast_frame s e.dest _).mono fun p hp => ?_⟩
  obtain ⟨d, t⟩ := p
  obtain ⟨⟨c, rfl⟩, hfound⟩ := hp
  cases d with
  | none => exact patchToStub_no (s := s.withCache c) hlen hcode hsieve hb
  | some d =>
    obtain ⟨b', hb', -⟩ := hfound d rfl
    simp only [fails_bind, fails_ite, fails_pure]
    exact ⟨tb_no hb', fun _ _ => ⟨fun _ => ⟨takeSlot_no (s := (s.withCache c).st32 _ _) hb, fun _ _ => trivial⟩,
      fun _ => patchToStub_no (s := s.withCache c) hlen hcode hsieve hb⟩⟩

/-- What an iteration of `lazy_patch` adds. -/
theorem Patches.adds {e : PatchEntry} (h : Patches L s e s') : s'.tbs.length ≤ s.tbs.length + 1 ∧ s'.stbs = s.stbs ∧
    s'.codeGenPtr = s.codeGenPtr ∧ (s'.sieveCodePtr = s.sieveCodePtr ∨ s'.sieveCodePtr = s.sieveCodePtr + BitVec.ofNat 32 35) := by
  cases h with
  | @linked c i b n hb hpc htc =>
    obtain ⟨u, hu⟩ : ∃ u, u = (s.withCache c).st32 e.loc (b.tcPtr - e.loc - 4) := ⟨_, rfl⟩
    have hsame : u.tbs = s.tbs ∧ u.stbs = s.stbs ∧ u.codeGenPtr = s.codeGenPtr ∧ u.sieveCodePtr = s.sieveCodePtr := by
      rw [hu]
      exact ⟨rfl, rfl, rfl, rfl⟩
    obtain ⟨htbs, hstbs, hgen, hsieve⟩ := hsame
    rw [← hu]
    have hlen : ((u.taken e n).tbAddJmpFrom e.tb i n).tbs.length = u.tbs.length :=
      (List.length_modify ..).trans (length_taken u e n)
    exact ⟨by rw [hlen, htbs]; exact Nat.le_succ _, hstbs, hgen, Or.inl hsieve⟩
  | @stubbed t n ht hcheck =>
    obtain ⟨bs, hbs⟩ : ∃ bs, bs = exitStubBytes L s.tbRetAddr s.sieveCodePtr (L.tbPtr e.tb) n e.dest := ⟨_, rfl⟩
    have hlen : bs.length = 35 := by rw [hbs, length_exitStubBytes]
    have hsame : t.tbs.length ≤ s.tbs.length + 1 ∧ t.stbs = s.stbs ∧ t.codeGenPtr = s.codeGenPtr ∧
        t.sieveCodePtr = s.sieveCodePtr := by
      obtain ⟨c, rfl | rfl⟩ := ht
      · exact ⟨Nat.le_succ _, rfl, rfl, rfl⟩
      · refine ⟨?_, rfl, rfl, rfl⟩
        show (s.tbs ++ [_]).length ≤ _
        rw [List.length_append, List.length_singleton]
    obtain ⟨htbs, hstbs, hgen, hsieve⟩ := hsame
    obtain ⟨u, hu⟩ : ∃ u, u = t.st32 e.loc (s.sieveCodePtr - e.loc - 4) := ⟨_, rfl⟩
    have hsame : u.tbs = t.tbs ∧ u.stbs = t.stbs ∧ u.codeGenPtr = t.codeGenPtr ∧ u.sieveCodePtr = t.sieveCodePtr := by
      rw [hu]
      exact ⟨rfl, rfl, rfl, rfl⟩
    obtain ⟨hutbs, hustbs, hugen, husieve⟩ := hsame
    rw [← hbs, ← hu]
    have hulen : ((u.taken e n).emitSieve bs).tbs.length = u.tbs.length := length_taken u e n
    refine ⟨by rw [hulen, hutbs]; exact htbs, hustbs.trans hstbs, hugen.trans hgen, Or.inr ?_⟩
    show u.sieveCodePtr + BitVec.ofNat 32 bs.length = _
    rw [hlen, husieve, hsieve]

theorem tbAt_no {tb : Nat} (hlt : tb < codeGenMaxBlocks) (hb : tb < s.tbs.length) : (s.tbAt L (L.tbPtr tb)).Fails fun _ => False := by
  have hat : (L.tbPtr tb - L.tbs).toNat / sizeofTranslationBlock = tb := blockAt_tbPtr hlt
  rw [State.tbAt, hat, if_pos ⟨hb, rfl⟩]
  exact fails_ok

/-- What `cpu_exec` is left with: nothing, or a block. -/
def LeftBlock (L : Layout) (s : State) (prev : Word) : Prop :=
  prev = 0 ∨ ∃ tb, tb < s.tbs.length ∧ tb < codeGenMaxBlocks ∧ prev = L.tbPtr tb

/-- A step that keeps the blocks there are. -/
theorem LeftBlock.mono {prev : Word} (h : LeftBlock L s prev) (hle : s.tbs.length ≤ s'.tbs.length) : LeftBlock L s' prev :=
  h.imp_right fun h => by
    obtain ⟨tb, hb, hlt, hp⟩ := h
    exact ⟨tb, by omega, hlt, hp⟩

theorem newFuncAddr_no {prev : Word} (pc : Word) (hind : s.mem.ld32 L.indType = NOT_IND) (hprev : LeftBlock L s prev) :
    (s.newFuncAddr L pc prev).Fails fun _ => False := by
  rw [State.newFuncAddr, hind]
  simp only [ne_eq, not_true_eq_false, false_and, if_false, fails_ite, fails_bind, fails_pure]
  refine ⟨fun hne => ?_, fun _ => fails_ok⟩
  obtain ⟨tb, hb, hlt, rfl⟩ := hprev.resolve_left hne
  refine ⟨tbAt_no hlt hb, (tbAt_ensures s _).mono fun i hi => ⟨?_, fun _ _ => trivial⟩⟩
  obtain ⟨rfl, -⟩ := hi
  rw [blockAt_tbPtr hlt]
  exact tb_no (List.getElem?_eq_getElem hb)

/-! ## A guest that only jumps -/

/-- Guest code that is `jmp` throughout. -/
def jmpCode : Mem := fun _ => 0xeb

theorem found_jmpCode : found (fun _ => 0xeb) = some ⟨⟨0xeb, .fn .jmp, 10485762⟩, 10485762, 1, none, 0xeb⟩ := by
  have hrow : TableId.nopbyte0.row 0xeb = ⟨0xeb, .fn .jmp, 10485762⟩ := rfl
  simp [found, foundAt, groupFound, hrow, has, DF_TABLE, DF_FLOAT, DF_MODRM, DF_GROUP]

theorem simpleDisasInsn_jmpCode {ds r : Decode} {pc : Word} {ok : Bool} (h : simpleDisasInsn jmpCode ds pc = some (r, ok)) :
    r.emitfn = .fn .jmp ∧ r.decodeEip = pc + 2 := by
  obtain ⟨ps, F, hp, hat, -, hl, hF, hdec⟩ := exists_decoded h
  have hps : ps = [] := by
    cases ps with
    | nil => rfl
    | cons p ps =>
      have hbyte : p = 0xeb := (hat 0 (by simp)).symm
      have hpre := hp p (by simp)
      rw [hbyte] at hpre
      exact absurd hpre (by decide)
  subst hps
  have hcode : fetch jmpCode (pc + BitVec.ofNat 32 ([] : List Byte).length) = fun _ => 0xeb := rfl
  rw [hcode] at hF hdec
  obtain rfl := Option.some.inj (hF.symm.trans found_jmpCode)
  exact ⟨hdec.emitfn, hdec.decodeEip⟩

theorem shortInsns_jmpCode : ShortInsns jmpCode := by
  intro ds pc r ok h
  rw [(simpleDisasInsn_jmpCode h).2]
  have h2 : pc + 2 - pc = 2 := by ring
  refine ⟨fun h => ?_, by rw [h2]; decide⟩
  rw [h, sub_self] at h2
  exact absurd h2 (by decide)

theorem exists_simpleDisasInsn_jmpCode (ds : Decode) (pc : Word) : ∃ r ok, simpleDisasInsn jmpCode ds pc = some (r, ok) := by
  have hF : found (fetch jmpCode (pc + BitVec.ofNat 32 ([] : List Byte).length)) = _ := found_jmpCode
  have hn : ¬ isPrefix (jmpCode (pc + BitVec.ofNat 32 ([] : List Byte).length)) := by
    show ¬ isPrefix 0xeb
    decide
  obtain ⟨r, ok, hr, -⟩ := simpleDisasInsn_eq ds (by simp) Mem.At.nil hn (by simp) hF
  exact ⟨r, ok, hr⟩

theorem emitJmp_no (img : Mem) (ds : Decode) {b : TranslationBlock} {k : Nat} (hs : Tables s.index) (hb : s.tbs[s.curTb]? = some b)
    (hr : Uses L k s) (hk : k < 1000) (hn : s.mem.ld32 L.patchNum < PATCH_MAX) (hptr : codeOff L s.codePtr ≤ k) (hpatch : s.patchArray = []) :
    (s.emitJmp L img ds).Fails fun _ => False := by
  have hsize : DEFAULT_CODE_GEN_BUFFER_SIZE = 134217728 := rfl
  have hmax : codeGenMaxBlocks = 2097152 := rfl
  have hbuf : codeGenBufferMaxSize = 134113280 := rfl
  have htbs := hr.tbs
  have hcode := hr.code
  simp only [State.emitJmp, fails_bind, fails_pure]
  refine ⟨tb_no hb, fun cur _ => ⟨?_, (emitJmpEntrance_spec _ _ _).mono fun s₁ h₁ => ⟨?_, fun _ _ => trivial⟩⟩⟩
  · obtain ⟨c, hc, -⟩ := tbFindFast_spec hs (s.jmpTargetOf ds)
    simp only [State.emitJmpEntrance, show NORMAL_TB_TAG = 0 from rfl, hc, ok_bind]
    cases hl : s.index.lookup (s.jmpTargetOf ds) with
    | none =>
      simp only [fails_ite, fails_bind, fails_pure]
      exact ⟨fun _ => ⟨makeTb_no (s := s.withCache c) (L := L) (by show s.tbs.length < _; omega) (by show codeOff L s.codeGenPtr < _; omega) _ _ _, fun _ _ => trivial⟩,
        fun _ => trivial⟩
    | some i =>
      simp only [fails_bind, fails_ite, fails_pure]
      obtain ⟨b', hb', -⟩ := (tbFindFast_frame s _ 0 _ hc).2 i hl
      exact ⟨tb_no (s := s.withCache c) hb', fun _ _ => ⟨fun _ => trivial, fun _ => trivial⟩⟩
  · obtain ⟨c, he⟩ := h₁
    have hentry : codeOff L s₁.codePtr ≤ k + 12 ∧ s₁.mem.ld32 L.patchNum = s.mem.ld32 L.patchNum := by
      have hcopy : ∀ bs : List Byte, bs.length = 12 → codeOff L (s.codePtr + BitVec.ofNat 32 bs.length) ≤ k + 12 ∧
          (s.mem.put s.codePtr bs).ld32 L.patchNum = s.mem.ld32 L.patchNum := fun bs hlen => by
        rw [hlen, codeOff_add (by omega) (by omega)]
        exact ⟨by omega, ld32_put_code (by omega) L.patchNum_subset⟩
      cases he with
      | stays => exact ⟨by show codeOff L s.codePtr ≤ _; omega, rfl⟩
      | copies => exact hcopy _ (length_rcCopyBytes ..)
      | makes => exact hcopy _ (length_rcCopyBytes ..)
    have hnum : (s₁.emit ([0xe9] ++ le32 NEED_PATCH_32)).mem.ld32 L.patchNum = s.mem.ld32 L.patchNum := by
      refine (ld32_put_code (p := s₁.codePtr) ?_ L.patchNum_subset).trans hentry.2
      simp only [List.length_append, List.length_cons, List.length_nil, length_le32]
      omega
    have hempty : (s₁.emit ([0xe9] ++ le32 NEED_PATCH_32)).patchArray = [] := by
      rw [State.patchArray_emit, he.patchArray]
      exact hpatch
    simp only [State.notePatch, fails_bind, fails_pure, hempty, hnum]
    refine ⟨abortIf_no (by decide), fun _ _ => ⟨abortIf_no ?_, fun _ _ => trivial⟩⟩
    simpa using hn

/-- What a jump adds, and its field. -/
structure Jumped (L : Layout) (s s' : State) (e : PatchEntry) : Prop where
  tbs : s'.tbs.length ≤ s.tbs.length + 1
  stbs : s'.stbs = s.stbs
  codeGenPtr : s'.codeGenPtr = s.codeGenPtr
  sieveCodePtr : s'.sieveCodePtr = s.sieveCodePtr
  codePtr : codeOff L s'.codePtr ≤ codeOff L s.codePtr + 17
  patchArray : s'.patchArray = s.patchArray ++ [e]
  tb : e.tb = s.curTb
  loc : codeOff L s.codePtr ≤ codeOff L e.loc ∧ codeOff L e.loc + 4 ≤ codeOff L s'.codePtr
  core : ∀ b, s.tbs[s.curTb]? = some b → ∃ c, s'.tbs[s.curTb]? = some c ∧ c.tcPtr = b.tcPtr

theorem Emitted.jumped {r : Decode} {cont : Bool} (h : Emitted L img s r cont s') (hfn : r.emitfn = .fn .jmp)
    (hptr : codeOff L s.codePtr ≤ 100000) : cont = false ∧ ∃ e, Jumped L s s' e := by
  have hsize : DEFAULT_CODE_GEN_BUFFER_SIZE = 134217728 := rfl
  have hno : ∀ {g : EmitFn}, r.emitfn = .fn g → g = .jmp := fun hg => by
    rw [hfn] at hg
    exact ((Ptr.fn.inj hg).symm)
  cases h with
  | @jmp b c s₁ hfn hb he =>
    refine ⟨rfl, ⟨s₁.codePtr + 1, s.jmpTargetOf r, s₁.curTb, b.funcAddr, NORMAL_TB_TAG⟩, ?_⟩
    have hentry : s₁.tbs.length ≤ s.tbs.length + 1 ∧ s₁.stbs = s.stbs ∧ s₁.codeGenPtr = s.codeGenPtr ∧
        s₁.sieveCodePtr = s.sieveCodePtr ∧ s₁.patchArray = s.patchArray ∧ s₁.curTb = s.curTb ∧
        (codeOff L s.codePtr ≤ codeOff L s₁.codePtr ∧ codeOff L s₁.codePtr ≤ codeOff L s.codePtr + 12) ∧
        ∀ b, s.tbs[s.curTb]? = some b → s₁.tbs[s.curTb]? = some b := by
      have hcopy : ∀ n, n = 12 → codeOff L s.codePtr ≤ codeOff L (s.codePtr + BitVec.ofNat 32 n) ∧
          codeOff L (s.codePtr + BitVec.ofNat 32 n) ≤ codeOff L s.codePtr + 12 := fun n hn => by
        rw [hn, codeOff_add (by omega) (by omega)]
        omega
      cases he with
      | stays => exact ⟨Nat.le_succ _, rfl, rfl, rfl, rfl, rfl, ⟨le_rfl, Nat.le_add_right _ _⟩, fun _ => id⟩
      | copies => exact ⟨Nat.le_succ _, rfl, rfl, rfl, rfl, rfl, hcopy _ (length_rcCopyBytes ..), fun _ => id⟩
      | makes =>
        refine ⟨?_, rfl, rfl, rfl, rfl, rfl, hcopy _ (length_rcCopyBytes ..), fun b hb => ?_⟩
        · show (s.tbs ++ [_]).length ≤ _
          rw [List.length_append, List.length_singleton]
        · show (s.tbs ++ [_])[s.curTb]? = _
          rw [List.getElem?_append_left (List.getElem?_eq_some_iff.mp hb).1, hb]
    obtain ⟨hlen, hstbs, hgen, hsieve, hpatch, hcur, hcode, hget⟩ := hentry
    obtain ⟨bs, hbs⟩ : ∃ bs, bs = [0xe9] ++ le32 NEED_PATCH_32 := ⟨_, rfl⟩
    have hblen : bs.length = 5 := by rw [hbs]; rfl
    rw [← hbs]
    have hptr' : codeOff L (s₁.codePtr + BitVec.ofNat 32 bs.length) = codeOff L s₁.codePtr + 5 := by
      rw [hblen, codeOff_add (by omega) (by omega)]
    have hloc : codeOff L (s₁.codePtr + 1) = codeOff L s₁.codePtr + 1 := codeOff_add (n := 1) (by decide) (by omega)
    obtain ⟨e, he⟩ : ∃ e : PatchEntry, e = ⟨s₁.codePtr + 1, s.jmpTargetOf r, s₁.curTb, b.funcAddr, NORMAL_TB_TAG⟩ := ⟨_, rfl⟩
    rw [← he]
    have htbs : ((s₁.emit bs).noted e).tbs = s₁.tbs.modify e.tb fun b => b.setPatchNum (b.patchNum + 1) := rfl
    have hnptr : ((s₁.emit bs).noted e).codePtr = s₁.codePtr + BitVec.ofNat 32 bs.length := rfl
    refine ⟨?_, hstbs, hgen, hsieve, ?_, ?_, by rw [he]; exact hcur, ?_, fun b hb => ?_⟩
    · rw [htbs, List.length_modify]
      exact hlen
    · rw [hnptr, hptr']
      omega
    · show s₁.patchArray ++ [e] = _
      rw [hpatch]
    · rw [hnptr, hptr', he]
      dsimp only
      omega
    · obtain ⟨c, hc, -, hctc, -⟩ := exists_core (cores_noted s₁ bs e) (hget b hb)
      exact ⟨c, hc, hctc⟩
  | normal hg => cases hno hg
  | int hg => cases hno hg
  | sysenter hg => cases hno hg
  | ret hg => cases hno hg
  | retIw hg => cases hno hg
  | jmpNearMem hg => cases hno hg
  | callDisp hg => cases hno hg
  | callNearMem hg => cases hno hg
  | jcond hg => cases hno hg
  | otherJcond hg => cases hno hg

/-- The loop, for a block that is a jump. -/
theorem genInsns_jmp (ds : Decode) {b : TranslationBlock} {k : Nat} (hok : TbOk s) (hb : s.tbs[s.curTb]? = some b)
    (hr : Uses L k s) (hk : k < 1000) (hn : s.mem.ld32 L.patchNum < PATCH_MAX) (hptr : codeOff L s.codePtr ≤ k)
    (hpatch : s.patchArray = [])
    (hdec : ∃ r ok, simpleDisasInsn img ds s.pcPtr = some (r, ok) ∧ r.emitfn = .fn .jmp) (left : Nat) :
    ∃ t e, s.genInsns L img .target left ds = .ok t ∧ Jumped L s t e := by
  have hsize : DEFAULT_CODE_GEN_BUFFER_SIZE = 134217728 := rfl
  obtain ⟨r, ok, hr', hfn⟩ := hdec
  have haddr : abortIf (has r.opstate OPSTATE_ADDR16) "error: OPSTATE_ADDR16\n" = .ok () := by
    rw [abortIf, if_neg (not_addr16 _)]
  have hbt : (s.beginInsn r ok).tbs[(s.beginInsn r ok).curTb]? = some b := hb
  have hokt : TbOk (s.beginInsn r ok) := hok.congr (State.index_beginInsn _ _ _)
  have hcall : (s.beginInsn r ok).callEmitfn L img r = (s.beginInsn r ok).emitJmp L img r := by
    simp only [State.callEmitfn, hfn]
  obtain ⟨p, hp⟩ := exists_ok_of_fails
    (emitJmp_no img r hokt.tables hbt ⟨hr.tbs, hr.stbs, hr.code, hr.sieve⟩ hk hn hptr hpatch)
  have hemitted : Emitted L img (s.beginInsn r ok) r p.1 p.2 := callEmitfn_spec (s.beginInsn r ok) r _ (hcall.trans hp)
  obtain ⟨cont, s₁⟩ := p
  obtain ⟨rfl, e, hj⟩ := Emitted.jumped hemitted hfn (by show codeOff L s.codePtr ≤ _; omega)
  have hcheck : s₁.checkCode L = .ok () := by
    have hle : codeOff L s₁.codePtr ≤ codeOff L s.codePtr + 17 := hj.codePtr
    rw [State.checkCode, if_neg]
    show ¬ codeOff L s₁.codePtr > _
    omega
  obtain ⟨u, hu⟩ : ∃ u, u = s₁.updTb (State.GenLoop.target.who s₁) (·.incInsnCount) := ⟨_, rfl⟩
  have hinsn : s.genInsn L img .target ds = .ok (r, false, u) := by
    simp only [State.genInsn, hr', haddr, ok_bind, hcall, hp, hcheck, hu]
    rfl
  have hdone : Jumped L s u e := by
    rw [hu]
    refine ⟨?_, hj.stbs, hj.codeGenPtr, hj.sieveCodePtr, hj.codePtr, hj.patchArray, hj.tb, hj.loc, fun b hb => ?_⟩
    · show (s₁.tbs.modify _ _).length ≤ _
      rw [List.length_modify]
      exact hj.tbs
    · obtain ⟨c, hc, hctc⟩ := hj.core b hb
      obtain ⟨d, hd, -, hdtc, -⟩ := exists_core (cores_updTb s₁ (State.GenLoop.target.who s₁) (f := (·.incInsnCount))
        fun _ => ⟨rfl, rfl, rfl⟩) hc
      exact ⟨d, hd, hdtc.trans hctc⟩
  refine ⟨u, e, ?_, hdone⟩
  cases left with
  | zero =>
    rw [State.genInsns, hinsn]
    rfl
  | succ left =>
    rw [State.genInsns, hinsn]
    rfl

/-- The field is not far from the start of its owner. -/
def ShortSlot (s : State) (f : Site) : Prop := ∀ b, s.tbs[f.1.tb]? = some b → (f.1.loc - b.tcPtr).toNat < 2 ^ 16

/-- What the translation of a block that is a jump leaves. -/
structure JumpMade (L : Layout) (k tb : Nat) (s : State) : Prop where
  uses : Uses L k s
  block : tb < s.tbs.length
  field : ∃ f, s.fields = [f] ∧ f.1.tb = tb ∧ ShortSlot s f

/-- Before the first instruction of block `tb`, with the code buffer as it is in `s`. -/
structure Beginning (L : Layout) (k tb : Nat) (s u : State) : Prop where
  ok : TbOk u
  uses : Uses L k u
  curTb : u.curTb = tb
  codePtr : u.codePtr = s.codeGenPtr
  patchArray : u.patchArray = []
  mem : u.mem = s.mem

theorem beginSuperblock_beginning {tb k : Nat} {b : TranslationBlock} (hok : TbOk s) (hr : Uses L k s) :
    Beginning L (k + 1) tb s ((s.placed tb).beginSuperblock (b.setTcPtr s.codeGenPtr) tb) := by
  obtain ⟨u, hu⟩ : ∃ u, u = (s.placed tb).beginSuperblock (b.setTcPtr s.codeGenPtr) tb := ⟨_, rfl⟩
  rw [← hu]
  have htbs : u.tbs.length = s.tbs.length := by rw [hu]; exact List.length_modify ..
  have hstbs : u.stbs.length = s.stbs.length + 1 := by rw [hu]; simp [State.beginSuperblock, State.placed, State.updTb]
  have hsame : u.codeGenPtr = s.codeGenPtr ∧ u.sieveCodePtr = s.sieveCodePtr := by
    rw [hu]
    exact ⟨rfl, rfl⟩
  have huses : Uses L (k + 1) u := by
    obtain ⟨h₁, h₂, h₃, h₄⟩ := hr
    refine ⟨by omega, by omega, ?_, ?_⟩
    · rw [hsame.1]
      omega
    · rw [hsame.2]
      omega
  have hp : TbOk (s.placed tb) := hok.congr (by simp [State.placed])
  refine ⟨⟨?_, ?_, ?_⟩, huses, by rw [hu]; rfl, by rw [hu]; rfl, by rw [hu]; rfl, by rw [hu]; rfl⟩
  · rw [hu, State.index_beginSuperblock]
    exact hp.tables.withTags _
  · rw [hu, State.index_beginSuperblock]
    exact hp.unique
  · rw [hu, State.index_beginSuperblock]
    simp

theorem Patches.uses {e : PatchEntry} {k : Nat} (h : Patches L s e s') (hr : Uses L k s) (hk : k < 1000) : Uses L (k + 35) s' := by
  have hsize : DEFAULT_SIEVE_BUFFER_SIZE = 67108864 := rfl
  obtain ⟨htbs, hstbs, hgen, hsieve⟩ := h.adds
  obtain ⟨h₁, h₂, h₃, h₄⟩ := hr
  refine ⟨by omega, by rw [hstbs]; omega, by rw [hgen]; omega, ?_⟩
  rcases hsieve with hsieve | hsieve
  · rw [hsieve]
    omega
  · rw [hsieve, sieveOff_add (by decide) (by omega)]
    omega

/-- `lazy_patch` for one field. -/
theorem lazyPatch_one {e : PatchEntry} {k : Nat} (hok : TbOk s) (hr : Uses L k s) (hk : k < 1000) (hp : s.patchArray = [e])
    (hb : ∃ b, s.tbs[e.tb]? = some b) (he : Span e.loc 4 ⊆ codeArea L) :
    ∃ t, s.lazyPatch L = .ok t ∧ Uses L (k + 35) t ∧ Pointed L s e t := by
  have hsize : DEFAULT_SIEVE_BUFFER_SIZE = 67108864 := rfl
  have hmax : codeGenMaxBlocks = 2097152 := rfl
  have hbuf : codeGenBufferMaxSize = 134113280 := rfl
  have htag : e.tbTag = NORMAL_TB_TAG :=
    hok.normal e.tbTag (List.mem_map_of_mem (by rw [hp]; exact List.mem_singleton_self e))
  have hsieve := hr.sieve
  have htbs := hr.tbs
  have hcode := hr.code
  obtain ⟨t, ht⟩ := exists_ok_of_fails (lazyPatchEntry_no (L := L) (e := e) hok.tables htag (by omega) (by omega) (by omega) hb)
  have hpatches := lazyPatchEntry_spec s e t ht
  refine ⟨t, ?_, hpatches.uses hr hk, hpatches.pointed he (by omega)⟩
  rw [State.lazyPatch, hp]
  simp only [List.foldlM_cons, List.foldlM_nil, ht, ok_bind]
  rfl

/-- The code that little is emitted of fits. -/
theorem codeBuffer_fits (h : codeOff L s.codePtr < 1000) :
    abortIf (BitVec.slt (BitVec.ofNat 32 DEFAULT_CODE_GEN_BUFFER_SIZE) (s.setCodeGenPtr.codeGenPtr - L.codeGenBuffer))
      "code_buffer overflow\n" = .ok () := by
  have hlt : (s.setCodeGenPtr.codeGenPtr - L.codeGenBuffer).toNat < 1000 := h
  have hslt : BitVec.slt (BitVec.ofNat 32 DEFAULT_CODE_GEN_BUFFER_SIZE) (s.setCodeGenPtr.codeGenPtr - L.codeGenBuffer) = false := by
    rw [BitVec.slt_eq_decide, decide_eq_false_iff_not, BitVec.toInt_eq_toNat_of_lt (x := s.setCodeGenPtr.codeGenPtr - L.codeGenBuffer)
      (by omega)]
    have hbig : (BitVec.ofNat 32 DEFAULT_CODE_GEN_BUFFER_SIZE).toInt = 134217728 := by decide
    omega
  rw [abortIf, hslt]
  rfl

/-- The one field of a block, once `cpu_gen_code` has noted the size of its code. -/
theorem Pointed.shortSlot {e : PatchEntry} {c : TranslationBlock} {f : TranslationBlock → TranslationBlock} (h : Pointed L s e t)
    (hs' : s' = t.setCodeGenPtr.updTb e.tb f) (hf : KeepsChain f) (ho : ∀ b, (f b).tbJmpOffset = b.tbJmpOffset)
    (hp : s.patchArray = [e]) (hc : s.tbs[e.tb]? = some c) (hshort : (e.loc - c.tcPtr).toNat < 2 ^ 16) :
    e.tb < s'.tbs.length ∧ ∃ n, s'.fields = [(e, n)] ∧ ShortSlot s' (e, n) := by
  obtain ⟨n, hslots, hslot, -⟩ := h.slot
  have hsites : s'.sites = t.sites := by
    rw [hs']
    exact sites_updTb _ _ hf ho
  obtain ⟨y, hy, hcore, -⟩ := hslot.congr hsites e.tb c hc
  simp only [TranslationBlock.core, Prod.mk.injEq] at hcore
  have hsame : s'.patchArray = t.patchArray ∧ s'.log.slots = t.log.slots := by
    rw [hs']
    exact ⟨rfl, rfl⟩
  refine ⟨(List.getElem?_eq_some_iff.mp hy).1, n, ?_, fun d hd => ?_⟩
  · rw [State.fields, hsame.1, hsame.2, h.patchArray, hp, hslots]
    simp
  · obtain rfl := Option.some.inj (hy.symm.trans hd)
    rw [hcore.2.1]
    exact hshort

/-- `cpu_gen_code` for a block that is a jump. -/
theorem cpuGenCode_jmp (img : Mem) (ds : Decode) {tb k : Nat} {b : TranslationBlock} (hok : TbOk s) (hb : s.tbs[tb]? = some b)
    (hr : Uses L k s) (hk : k < 900) (hn : s.mem.ld32 L.patchNum < PATCH_MAX)
    (hdec : ∃ r ok, simpleDisasInsn img ds b.pc = some (r, ok) ∧ r.emitfn = .fn .jmp) :
    ∃ s', s.cpuGenCode L img ds tb = .ok s' ∧ JumpMade L (k + 40) tb s' := by
  have hsize : DEFAULT_CODE_GEN_BUFFER_SIZE = 134217728 := rfl
  have hstbmax : STB_MAX = 1024 * 50 * 10 := rfl
  obtain ⟨b', hb'⟩ : ∃ b', b' = b.setTcPtr s.codeGenPtr := ⟨_, rfl⟩
  have hplaced : (s.placed tb).tb tb = .ok b' := by simp [State.placed, State.tb, State.updTb, hb, hb']
  have hbegin : Beginning L (k + 1) tb s ((s.placed tb).beginSuperblock b' tb) := by
    rw [hb']
    exact beginSuperblock_beginning hok hr
  obtain ⟨u, hu⟩ : ∃ u, u = (s.placed tb).beginSuperblock b' tb := ⟨_, rfl⟩
  have huget : u.tbs[tb]? = some b' := by
    rw [hu]
    simp [State.beginSuperblock, State.placed, State.updTb, hb, hb']
  have hupc : u.pcPtr = b.pc := by rw [hu, hb']; rfl
  rw [← hu] at hbegin
  obtain ⟨huok, huses, hucur, hucode, hupatch, humem⟩ := hbegin
  have hfull : abortIf (u.stbs.length ≥ STB_MAX) "stb count overflow\n" = .ok () := by
    have hle := huses.stbs
    rw [abortIf, if_neg (by simp; omega)]
  -- the jump
  have hcode := hr.code
  obtain ⟨t, e, ht, hj⟩ := genInsns_jmp (L := L) (k := k + 1) ds huok (by rw [hucur]; exact huget) huses (by omega)
    (by rw [humem]; exact hn) (by rw [hucode]; omega) hupatch (by rw [hupc]; exact hdec) MAX_INSNS
  have htok : TbOk t := genInsns_ok (G := .target) (fun _ => rfl) MAX_INSNS huok ds _ ht
  obtain ⟨c, hc, hctc⟩ := hj.core b' (by rw [hucur]; exact huget)
  have hetb : e.tb = tb := hj.tb.trans hucur
  have htcode := hj.codePtr
  have hloc := hj.loc
  rw [hucode] at htcode hloc
  -- its field
  obtain ⟨v, hv⟩ : ∃ v, v = t.setPcEnd (s.placed tb).stbs.length := ⟨_, rfl⟩
  have hvpatch : v.patchArray = [e] := by
    rw [hv]
    show t.patchArray = _
    rw [hj.patchArray, hupatch, List.nil_append]
  have hvuses : Uses L (k + 2) v := by
    have hlen : (t.setPcEnd (s.placed tb).stbs.length).stbs.length = t.stbs.length := List.length_modify ..
    have htbs := hj.tbs
    have hstbs := hj.stbs
    obtain ⟨h₁, h₂, h₃, h₄⟩ := huses
    rw [hv]
    refine ⟨?_, by rw [hlen, hstbs]; omega, ?_, ?_⟩
    · show t.tbs.length ≤ _
      omega
    · show codeOff L t.codeGenPtr ≤ _
      rw [hj.codeGenPtr]
      omega
    · show sieveOff L t.sieveCodePtr ≤ _
      rw [hj.sieveCodePtr]
      omega
  have hvget : v.tbs[e.tb]? = some c := by
    rw [hv, hetb, ← hucur]
    exact hc
  obtain ⟨w, hlazy, hwuses, hpointed⟩ := lazyPatch_one (by rw [hv]; exact htok.congr (by simp)) hvuses (by omega) hvpatch ⟨c, hvget⟩
    (span_subset (show codeOff L e.loc + 4 ≤ _ by omega))
  have hwcode : codeOff L w.codePtr ≤ k + 17 := by
    have hvcode : v.codePtr = t.codePtr := by rw [hv]; rfl
    rw [hpointed.codePtr, hvcode]
    omega
  have hshort : (e.loc - c.tcPtr).toNat < 2 ^ 16 := by
    have htc : c.tcPtr = s.codeGenPtr := hctc.trans (by rw [hb']; rfl)
    have h₁ : (e.loc - L.codeGenBuffer).toNat = codeOff L e.loc := rfl
    have h₂ : (s.codeGenPtr - L.codeGenBuffer).toNat = codeOff L s.codeGenPtr := rfl
    rw [htc]
    bv_omega
  obtain ⟨g, hg⟩ : ∃ g : TranslationBlock → TranslationBlock, g = fun b =>
    b.setHcodeSize ((w.setCodeGenPtr.codeGenPtr - b.tcPtr).setWidth 16) := ⟨_, rfl⟩
  obtain ⟨x, hx⟩ : ∃ x, x = w.setCodeGenPtr.updTb tb g := ⟨_, rfl⟩
  obtain ⟨hblock, n, hfields, hslot⟩ := hpointed.shortSlot (f := g) (hetb ▸ hx) (fun _ => by rw [hg]; exact ⟨rfl, rfl, rfl⟩) (fun _ => by rw [hg]; rfl) hvpatch
    hvget hshort
  refine ⟨x, ?_, ⟨?_, ?_, ?_, ?_⟩, hetb ▸ hblock, (e, n), hfields, hetb, hslot⟩
  · have hgen : s.cpuGenCode L img ds tb = (s.placed tb).genSuperblock L img .target ds tb := rfl
    rw [hgen, hx, hg]
    simp only [State.genSuperblock, hplaced, ok_bind, ← hu, hfull, ht, ← hv, hlazy, codeBuffer_fits (L := L) (s := w) (by omega)]
    rfl
  · have hlen : x.tbs.length = w.tbs.length := by rw [hx]; exact List.length_modify ..
    have hle := hwuses.tbs
    omega
  · have hsame : x.stbs = w.stbs := by rw [hx]; rfl
    have hle := hwuses.stbs
    rw [hsame]
    omega
  · have hgen : x.codeGenPtr = w.codePtr := by rw [hx]; rfl
    rw [hgen]
    omega
  · have hsame : x.sieveCodePtr = w.sieveCodePtr := by rw [hx]; rfl
    have hle := hwuses.sieve
    rw [hsame]
    omega

/-- The next block of a guest that only jumps. -/
theorem getNextTb_jmp (ds : Decode) {k : Nat} {prev : Word} (hok : TbOk s) (hr : Uses L k s) (hk : k < 800)
    (hn : s.mem.ld32 L.patchNum < PATCH_MAX) (hind : s.mem.ld32 L.indType = NOT_IND) (hprev : LeftBlock L s prev) (pc : Word) :
    ∃ p, s.getNextTb L jmpCode ds pc prev = .ok p ∧ Uses L (k + 41) p.2 ∧ p.1 < p.2.tbs.length ∧
      ((∃ (i : Nat) (b : TranslationBlock), s.tbs[i]? = some b ∧ b.pc = pc ∧ b.tcPtr = NOT_TRANS_YET) →
        ∃ f ∈ p.2.fields, f.1.tb = p.1 ∧ ShortSlot p.2 f) := by
  have hmax : codeGenMaxBlocks = 2097152 := rfl
  have hbuf : codeGenBufferMaxSize = 134113280 := rfl
  have hdec : ∀ pc, ∃ r ok, simpleDisasInsn jmpCode ds pc = some (r, ok) ∧ r.emitfn = .fn .jmp := fun pc => by
    obtain ⟨r, ok, hr⟩ := exists_simpleDisasInsn_jmpCode ds pc
    exact ⟨r, ok, hr, (simpleDisasInsn_jmpCode hr).1⟩
  obtain ⟨htbs, hstbs, hcode, hsieve⟩ := hr
  obtain ⟨c, hc, htab⟩ := tbFindFast_spec hok.tables pc
  obtain ⟨t, ht⟩ : ∃ t, t = s.withCache c := ⟨_, rfl⟩
  have htsame : t.tbs = s.tbs ∧ t.stbs = s.stbs ∧ t.codeGenPtr = s.codeGenPtr ∧ t.sieveCodePtr = s.sieveCodePtr ∧ t.mem = s.mem := by
    rw [ht]
    exact ⟨rfl, rfl, rfl, rfl, rfl⟩
  obtain ⟨htt, hts, htg, htv, htm⟩ := htsame
  have htok : TbOk t := ht ▸ ⟨htab, hok.unique, hok.normal⟩
  have hlook : s.index.lookup pc = t.index.lookup pc := by rw [ht]; rfl
  have hfound := (tbFindFast_frame s pc 0 _ hc).2
  rw [← ht, hlook] at hc
  rw [hlook] at hfound
  simp only [State.getNextTb, show NORMAL_TB_TAG = 0 from rfl, hc, ok_bind]
  cases hl : t.index.lookup pc with
  | none =>
    obtain ⟨f, hf⟩ := exists_ok_of_fails (newFuncAddr_no (s := t) (L := L) pc (by rw [htm]; exact hind)
      (hprev.mono (by rw [htt])))
    obtain ⟨p, hp⟩ := makeTb_returns (L := L) (s := t) (by rw [htt]; omega) (by rw [htg]; show codeOff L _ < _; omega) pc f 0
    have hmade := makeTb_spec p hp
    have hpok := htok.make hl p hp
    obtain ⟨i, u⟩ := p
    obtain ⟨rfl, hu⟩ := hmade
    have husame : u.tbs = t.tbs ++ [newTb t pc f] ∧ u.stbs = t.stbs ∧ u.codeGenPtr = t.codeGenPtr ∧
        u.sieveCodePtr = t.sieveCodePtr ∧ u.mem = t.mem := by
      rw [hu]
      exact ⟨rfl, rfl, rfl, rfl, rfl⟩
    obtain ⟨hut, hus, hug, huv, hum⟩ := husame
    have hget : u.tbs[t.tbs.length]? = some (newTb t pc f) := by rw [hut]; simp
    obtain ⟨v, hv, huses, hblock, g, hg, hgtb, hnear⟩ := cpuGenCode_jmp (L := L) (k := k + 1) jmpCode ds hpok hget
      ⟨by rw [hut, htt, List.length_append, List.length_singleton]; omega, by rw [hus, hts]; omega, by rw [hug, htg]; omega,
        by rw [huv, htv]; omega⟩ (by omega) (by rw [hum, htm]; exact hn) (hdec _)
    refine ⟨(t.tbs.length, v), ?_, huses, hblock, fun _ => ⟨g, by rw [hg]; exact List.mem_singleton_self g, hgtb, hnear⟩⟩
    simp only [hf, hp, hv, ok_bind]
    rfl
  | some i =>
    obtain ⟨b, hb, hpc⟩ := hfound i hl
    rw [← htt] at hb
    have htb : t.tb i = .ok b := by rw [State.tb, hb]
    by_cases htc : b.tcPtr = NOT_TRANS_YET
    · obtain ⟨v, hv, huses, hblock, g, hg, hgtb, hnear⟩ := cpuGenCode_jmp (L := L) (k := k) jmpCode ds htok hb
        ⟨by rw [htt]; omega, by rw [hts]; omega, by rw [htg]; omega, by rw [htv]; omega⟩ (by omega) (by rw [htm]; exact hn) (hdec _)
      refine ⟨(i, v), ?_, ?_, hblock, fun _ => ⟨g, by rw [hg]; exact List.mem_singleton_self g, hgtb, hnear⟩⟩
      · simp only [htb, htc, hv, ok_bind, if_true]
        rfl
      · exact huses.mono (by omega)
    · refine ⟨(i, t), ?_, ⟨?_, ?_, ?_, ?_⟩, (List.getElem?_eq_some_iff.mp hb).1, fun h => ?_⟩
      · simp only [htb, htc, ok_bind, if_false]
        rfl
      · rw [htt]
        omega
      · rw [hts]
        omega
      · rw [htg]
        omega
      · rw [htv]
        omega
      · obtain ⟨j, b', hb', hpc', htc'⟩ := h
        rw [← htt] at hb'
        obtain rfl : i = j := htok.unique.eq hb hb' (hpc.trans hpc'.symm)
        obtain rfl := Option.some.inj (hb.symm.trans hb')
        exact absurd htc' htc

theorem linkTb_uses {k tb : Nat} {prev : Word} (h : Uses L k s) : (s.linkTb L prev tb).Ensures (Uses L k) := by
  unfold State.linkTb
  rw [ensures_ite, ensures_ok]
  refine ⟨fun _ => ?_, fun _ => h⟩
  simp only [State.tbAddJump, State.tbSetJmpTarget, ensures_bind, ensures_pure]
  intro i _ b _ c _
  refine ⟨?_, h.stbs, h.code, h.sieve⟩
  show (s.tbs.modify _ _).length ≤ k
  rw [List.length_modify]
  exact h.tbs

/-- One iteration for a guest that only jumps. -/
theorem cpuExecIter_jmp (ds : Decode) {k : Nat} {prev : Word} {E : Stubs} (hv : VisitOk L s E) (hr : Uses L k s) (hk : k < 800)
    (hn : s.mem.ld32 L.patchNum < PATCH_MAX) (hind : s.mem.ld32 L.indType = NOT_IND) (hprev : LeftBlock L s prev) :
    ∃ s', s.cpuExecIter L jmpCode ds prev = .ok s' ∧ Uses L (k + 41) s' ∧
      ((∃ (i : Nat) (b : TranslationBlock), s.tbs[i]? = some b ∧ b.pc = s.mem.ld32 L.eip ∧ b.tcPtr = NOT_TRANS_YET) →
        ∃ f ∈ s'.fields, f.1.tb < s'.tbs.length ∧ ShortSlot s' f) := by
  obtain ⟨p, hp, huses, hblock, hfield⟩ := getNextTb_jmp ds hv.tbOk hr hk hn hind hprev (s.mem.ld32 L.eip)
  have hw : Wrote L s p.2 := getNextTb_wrote hv.room shortInsns_jmpCode _ _ _ hp
  have hpcs : SamePcs s p.2 := (getNextTb_translates hv.room shortInsns_jmpCode hv.chained hv.last _ hp).pcs
  obtain ⟨tb, s₁⟩ := p
  dsimp only at huses hblock hfield hw hpcs
  obtain ⟨b, hb⟩ : ∃ b, s₁.tbs[tb]? = some b := ⟨_, List.getElem?_eq_getElem hblock⟩
  have htb : s₁.tb tb = .ok b := by rw [State.tb, hb]
  have hhandle : s₁.handleInd L prev tb = .ok (prev, s₁) := by
    rw [State.handleInd, (hw.ld32_env L.indType_subset).trans hind, if_neg (by simp)]
  -- the link
  have hlink : (s₁.linkTb L prev tb).Fails fun _ => False := by
    unfold State.linkTb
    rw [fails_ite]
    refine ⟨fun h => ?_, fun _ => fails_ok⟩
    obtain ⟨i, hi, hlt, rfl⟩ := hprev.resolve_left h.1
    obtain ⟨c, hc, -⟩ := hpcs i _ (List.getElem?_eq_getElem hi)
    simp only [fails_bind, State.tbAddJump, State.tbSetJmpTarget, fails_pure]
    refine ⟨tbAt_no hlt (List.getElem?_eq_some_iff.mp hc).1, (tbAt_ensures s₁ _).mono fun j hj => ?_⟩
    obtain ⟨rfl, -⟩ := hj
    rw [blockAt_tbPtr hlt]
    exact ⟨tb_no hb, fun _ _ => ⟨⟨tb_no hc, fun _ _ => trivial⟩, fun _ _ => trivial⟩⟩
  obtain ⟨s₂, hs₂⟩ := exists_ok_of_fails hlink
  have hk₂ : KeepsSites L s₁ s₂ := linkTb_sites s₁ prev tb s₂ hs₂
  obtain ⟨c, hc, hcore, -⟩ := exists_site hk₂.sites hb
  have htb₂ : s₂.tb tb = .ok c := by rw [State.tb, hc]
  have hk₃ : KeepsSites L s₁ (s₂.clearEnv L c) := hk₂.trans (((KeepsSites.st32 s₂ _ _).trans (.st32 ..)).trans (.st32 ..))
  refine ⟨s₂.clearEnv L c, ?_, ?_, fun h => ?_⟩
  · simp only [State.cpuExecIter, hp, ok_bind, hhandle, hs₂, htb₂]
    rfl
  · have hu : Uses L (k + 41) s₂ := linkTb_uses huses s₂ hs₂
    exact ((hu.st32 L.targetTc c.tcPtr).st32 L.retTb 0).st32 L.indType NOT_IND
  · obtain ⟨f, hf, htbf, hnear⟩ := hfield h
    refine ⟨f, ?_, ?_, fun d hd => ?_⟩
    · rw [State.fields, hk₃.patchArray, hk₃.slots]
      exact hf
    · have hlen := congrArg List.length hk₃.sites
      simp only [State.sites, List.length_map] at hlen
      omega
    · obtain ⟨a, ha⟩ : ∃ a, s₁.tbs[f.1.tb]? = some a := ⟨_, List.getElem?_eq_getElem (htbf ▸ hblock)⟩
      obtain ⟨d', hd', hcore', -⟩ := exists_site hk₃.sites ha
      obtain rfl := Option.some.inj (hd'.symm.trans hd)
      simp only [TranslationBlock.core, Prod.mk.injEq] at hcore'
      rw [hcore'.2.1]
      exact hnear a ha

end Unitrans
