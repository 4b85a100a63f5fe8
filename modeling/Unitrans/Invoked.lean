/-
Which instructions reach an emitter. Nothing looks at what the decoder
answers, so an opcode the tables leave undefined goes to the emitter its row
names, a null one included; a superblock keeps to defined instructions exactly
when a sweep of the guest's code from its block on meets no other one.
-/
import Unitrans.InsnLength
import Unitrans.Sweep

namespace Unitrans

open X86 Except

variable {L : Layout} {img : Mem} {G : State.GenLoop}

/-- What stands at `pc` is, after its prefixes, no instruction the tables define. -/
def Undecodable (img : Mem) (pc : Word) : Prop :=
  ∃ (ps : List Byte) (F : Found), (∀ p ∈ ps, isPrefix p) ∧ img.At pc ps ∧
    ¬ isPrefix (img (pc + BitVec.ofNat 32 ps.length)) ∧ ps.length < 2 ^ 32 ∧
    found (fetch img (pc + BitVec.ofNat 32 ps.length)) = some F ∧ ¬ F.defined

/-- What the decoder answers depends on the bytes alone. -/
theorem undecodable_iff {ds r : Decode} {pc : Word} {ok : Bool} (h : simpleDisasInsn img ds pc = some (r, ok)) :
    Undecodable img pc ↔ ok = false := by
  constructor
  · rintro ⟨ps, F, hp, hat, hn, hl, hF, hdef⟩
    obtain ⟨r', ok', hr, hdec⟩ := simpleDisasInsn_eq ds hp hat hn hl hF
    rw [hr] at h
    obtain ⟨rfl, rfl⟩ := Prod.mk.inj (Option.some.inj h)
    rw [hdec.ok]
    simpa [Found.defined] using hdef
  · intro hok
    obtain ⟨ps, F, hp, hat, hn, hl, hF, hdec⟩ := exists_decoded h
    refine ⟨ps, F, hp, hat, hn, hl, hF, ?_⟩
    have := hdec.ok.symm.trans hok
    simpa [Found.defined] using this

theorem emitfn_ne_null {ds r : Decode} {pc : Word} (h : simpleDisasInsn img ds pc = some (r, true)) :
    r.emitfn ≠ .null := by
  obtain ⟨ps, F, -, -, -, -, -, hdec⟩ := exists_decoded h
  have hok := hdec.ok
  rw [hdec.emitfn]
  intro he
  simp [he] at hok

/-! ## The calls a superblock makes -/

/-- A call `ds->emitfn(env, ds)` made for block `tb` from `s` and `ds`. -/
def Invoked (L : Layout) (img : Mem) (G : State.GenLoop) (s : State) (ds : Decode) (tb : Nat) (i : Invocation) : Prop :=
  ∃ left s₁ ds₁, Head L img G s ds tb left s₁ ds₁ ∧ simpleDisasInsn img ds₁ s₁.pcPtr = some (i.ds, i.ok) ∧
    ¬ has i.ds.opstate OPSTATE_ADDR16 ∧ i.fn = i.ds.emitfn ∧ i.pc = s₁.pcPtr ∧ i.start = s₁.codePtr ∧ i.tb = s₁.curTb

/-- The loop ends before the instruction at hand, and what is translated stays:
the blocks keep their code, and the code its bytes. -/
def EndsBefore (L : Layout) (img : Mem) (G : State.GenLoop) (left : Nat) (s : State) (ds : Decode) : Prop :=
  ∃ s', s.genInsns L img G left ds = .ok s' ∧ s'.log.invocations = s.log.invocations ∧
    (∀ (i : Nat) (b : TranslationBlock), i ≠ s.curTb → s.tbs[i]? = some b →
      ∃ b', s'.tbs[i]? = some b' ∧ b'.tcPtr = b.tcPtr) ∧
    ∀ a ∈ Span L.codeGenBuffer (s.codePtr - L.codeGenBuffer).toNat, s'.mem a = s.mem a

/-- Only decoded instructions reach an emitter, and others end the superblock. -/
structure DecodedOnly (L : Layout) (img : Mem) (G : State.GenLoop) (s : State) (ds : Decode) (tb : Nat) : Prop where
  invoked : ∀ i, Invoked L img G s ds tb i → i.ok = true ∧ i.fn ≠ .null
  ends : ∀ left s₁ ds₁, Head L img G s ds tb left s₁ ds₁ → Undecodable img s₁.pcPtr → EndsBefore L img G left s₁ ds₁
  noNull : s.genSuperblock L img G ds tb ≠ .error .nullEmitter

/-- A superblock keeps to decoded instructions just if its loop meets no other one. -/
theorem decodedOnly_heads {s : State} {ds : Decode} {tb : Nat} : DecodedOnly L img G s ds tb ↔
    ∀ left s₁ ds₁, Head L img G s ds tb left s₁ ds₁ → ¬ Undecodable img s₁.pcPtr := by
  constructor
  · intro h left s₁ ds₁ hd hu
    have hr : ∃ r ok, simpleDisasInsn img ds₁ s₁.pcPtr = some (r, ok) := by
      obtain ⟨ps, F, hp, hat, hn, hl, hF, -⟩ := hu
      obtain ⟨r, ok, hr, -⟩ := simpleDisasInsn_eq ds₁ hp hat hn hl hF
      exact ⟨r, ok, hr⟩
    obtain ⟨r, ok, hr⟩ := hr
    obtain rfl := (undecodable_iff hr).mp hu
    have hi := h.invoked ⟨r.emitfn, r, false, s₁.pcPtr, s₁.codePtr, s₁.curTb⟩
      ⟨left, s₁, ds₁, hd, hr, not_addr16 _, rfl, rfl, rfl, rfl⟩
    exact absurd hi.1 (by simp)
  · intro h
    have hok : ∀ {left s₁ ds₁ r ok}, Head L img G s ds tb left s₁ ds₁ →
        simpleDisasInsn img ds₁ s₁.pcPtr = some (r, ok) → ok = true := fun hd hr => by
      have := (undecodable_iff hr).not.mp (h _ _ _ hd)
      simpa using this
    constructor
    case invoked =>
      rintro i ⟨left, s₁, ds₁, hd, hr, -, hfn, -⟩
      have hi := hok hd hr
      refine ⟨hi, ?_⟩
      rw [hfn]
      rw [hi] at hr
      exact emitfn_ne_null hr
    case ends => exact fun left s₁ ds₁ hd hu => absurd hu (h left s₁ ds₁ hd)
    case noNull =>
      intro he
      have hplain := genSuperblock_fails (fun _ h => h) (fun left s₁ ds₁ hd => ?_) _ he
      · exact hplain.1 rfl
      · refine genInsn_fails ?_ fun r ok hr => ?_
        · have := hd.patches
          simp only [PATCH_ARRAY_SIZE] at this ⊢
          omega
        · rw [hok hd hr] at hr
          exact emitfn_ne_null hr

/-- A superblock keeps to decoded instructions just if a sweep of the guest's
code meets no other one, the tables of blocks being as every caller leaves them
(`CallersReach.ok`). -/
theorem decodedOnly_iff (L : Layout) (img : Mem) (G : State.GenLoop) (s : State) (ds : Decode) (tb : Nat)
    (hs : Tables s.index) : DecodedOnly L img G s ds tb ↔ ∀ pc ∈ s.swept L img tb, ¬ Undecodable img pc := by
  rw [decodedOnly_heads]
  constructor
  · intro h pc hpc
    obtain ⟨left, t, ds₁, hd, rfl⟩ := (@mem_swept L img G s ds tb hs pc).mp hpc
    exact h left t ds₁ hd
  · exact fun h left t ds₁ hd => h _ ((mem_swept hs).mpr ⟨left, t, ds₁, hd, rfl⟩)

/-- `je` over nothing and `ret`, with `d6` behind them. -/
def jeRetCode : Mem := fun a => if a = 0 then 0x74 else if a = 1 then 0 else if a = 2 then 0xc3 else 0xd6

/-- One block, at address 0. -/
def oneBlock : State := ((State.boot .sample fun _ => 0).withNewTb 0 0).updTb 0 (·.setTcPtr Layout.sample.codeGenBuffer)

theorem tables_oneBlock : Tables oneBlock.index := by
  have hempty : Tables (State.boot .sample fun _ => 0).index := tables_empty rfl rfl rfl
  rw [oneBlock, State.index_updTb (TranslationBlock.keepsSig_setTcPtr _)]
  exact hempty.make 0 0

/-- The sweep stops at the `ret`, so what is behind it does not matter. -/
theorem decodedOnly_iff_sample : DecodedOnly .sample jeRetCode .target oneBlock .zero 0 ∧ Undecodable jeRetCode 3 := by
  have hje : (simpleDisasInsn jeRetCode .zero 0).map (·.2) = some true := by decide +kernel
  have hret : (simpleDisasInsn jeRetCode .zero 2).map (·.2) = some true := by decide +kernel
  have hd6 : (simpleDisasInsn jeRetCode .zero 3).map (·.2) = some false := by decide +kernel
  have hswept : oneBlock.swept .sample jeRetCode 0 = [0, 2] := by decide +kernel
  have hdec : ∀ {pc ok}, (simpleDisasInsn jeRetCode .zero pc).map (·.2) = some ok → (Undecodable jeRetCode pc ↔ ok = false) :=
    fun h => by
      obtain ⟨⟨r, ok⟩, hr, rfl⟩ := Option.map_eq_some_iff.mp h
      exact undecodable_iff hr
  refine ⟨(decodedOnly_iff _ _ _ _ _ _ tables_oneBlock).mpr fun pc hpc => ?_, (hdec hd6).mpr rfl⟩
  rw [hswept, List.mem_cons, List.mem_singleton] at hpc
  rcases hpc with rfl | rfl
  · exact (hdec hje).not.mpr (by simp)
  · exact (hdec hret).not.mpr (by simp)

/-- Guest code that is `d6` throughout, a row without an emitter. -/
def undefinedCode : Mem := fun _ => 0xd6

theorem simpleDisasInsn_undefinedCode (ds : Decode) (pc : Word) : ∃ r ok,
    simpleDisasInsn undefinedCode ds pc = some (r, ok) ∧ r.emitfn = .null := by
  have hrow : TableId.nopbyte0.row 0xd6 = ⟨0xd6, .null, DF_UNDEFINED⟩ := rfl
  have hF : found (fetch undefinedCode (pc + BitVec.ofNat 32 ([] : List Byte).length)) =
      some ⟨⟨0xd6, .null, DF_UNDEFINED⟩, DF_UNDEFINED, 1, none, 0xd6⟩ := by
    have hd6 : fetch undefinedCode (pc + BitVec.ofNat 32 ([] : List Byte).length) = fun _ => 0xd6 := rfl
    rw [hd6]
    simp [found, foundAt, groupFound, hrow, has, DF_UNDEFINED, DF_TABLE, DF_FLOAT, DF_MODRM, DF_GROUP]
  have hn : ¬ isPrefix (undefinedCode (pc + BitVec.ofNat 32 ([] : List Byte).length)) := by
    show ¬ isPrefix 0xd6
    decide
  obtain ⟨r, ok, hr, hdec⟩ := simpleDisasInsn_eq ds (by simp) Mem.At.nil hn (by simp) hF
  exact ⟨r, ok, hr, hdec.emitfn⟩

theorem genSuperblock_null {s : State} {ds r : Decode} {tb : Nat} {b : TranslationBlock} {ok : Bool} (hb : s.tb tb = .ok b)
    (hstb : s.stbs.length + 1 < STB_MAX) (hr : simpleDisasInsn img ds b.pc = some (r, ok)) (hfn : r.emitfn = .null) :
    s.genSuperblock L img G ds tb = .error .nullEmitter := by
  have hlen : (s.beginSuperblock b tb).stbs.length = s.stbs.length + 1 := by simp [State.beginSuperblock]
  have hfull : abortIf ((s.beginSuperblock b tb).stbs.length ≥ STB_MAX) "stb count overflow\n" = .ok () := by
    rw [abortIf, hlen, if_neg (by simpa using hstb)]
  have hinsn : (s.beginSuperblock b tb).genInsn L img G ds = .error .nullEmitter := by
    have hpc : (s.beginSuperblock b tb).pcPtr = b.pc := rfl
    have haddr : abortIf (has r.opstate OPSTATE_ADDR16) "error: OPSTATE_ADDR16\n" = .ok () := by
      rw [abortIf, if_neg (not_addr16 _)]
    simp only [State.genInsn, hpc, hr, haddr, ok_bind, State.callEmitfn, hfn, error_bind]
  have hloop : ∀ left, (s.beginSuperblock b tb).genInsns L img G left ds = .error .nullEmitter := by
    intro left
    cases left <;> rw [State.genInsns, hinsn, error_bind]
  simp only [State.genSuperblock, hb, ok_bind, hfull, hloop, error_bind]

/-- The first block of a guest whose code is undefined. -/
theorem not_decodedOnly : ∃ s, (State.boot .sample fun _ => 0).codecachePrologueInit .sample = .ok s ∧
    s.cpuGenCode .sample undefinedCode .zero 0 = .error .nullEmitter ∧
    ¬ DecodedOnly .sample undefinedCode .target (s.updTb 0 (·.setTcPtr s.codeGenPtr)) .zero 0 := by
  obtain ⟨s, hs⟩ := codecachePrologueInit_returns (booted_boot .sample)
  obtain ⟨eip, rfl, -⟩ := codecachePrologueInit_spec _ _ hs
  obtain ⟨s₀, hs₀⟩ : ∃ s₀, s₀ = (State.boot .sample fun _ => 0).cachePrologue .sample := ⟨_, rfl⟩
  have hempty : s₀.tbs = [] ∧ s₀.stbs = [] := by
    rw [hs₀, cachePrologue_eq]
    exact ⟨rfl, rfl⟩
  rw [← hs₀] at hs
  obtain ⟨t, ht⟩ : ∃ t, t = (s₀.withNewTb eip eip).updTb 0 (·.setTcPtr (s₀.withNewTb eip eip).codeGenPtr) := ⟨_, rfl⟩
  obtain ⟨b, hb⟩ : ∃ b, t.tb 0 = .ok b := by
    simp [ht, State.tb, State.updTb, State.withNewTb, hempty.1]
  have hstb : t.stbs.length + 1 < STB_MAX := by
    have : t.stbs = s₀.stbs := ht ▸ rfl
    rw [this, hempty.2]
    decide
  obtain ⟨r, ok, hr, hfn⟩ := simpleDisasInsn_undefinedCode .zero b.pc
  have hnull : t.genSuperblock .sample undefinedCode .target .zero 0 = .error .nullEmitter :=
    genSuperblock_null hb hstb hr hfn
  refine ⟨_, hs, ?_, ?_⟩
  · rw [State.cpuGenCode, genTargetCode_eq, ← ht]
    exact hnull
  · rw [← ht]
    exact fun h => h.noNull hnull

end Unitrans
