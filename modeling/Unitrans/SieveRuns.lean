/-
The sieve over a whole run: whatever was added to it, in whatever order and
with whatever collisions, a dispatch finds the block added last for the
address and nothing else (`sieve_refines_map`).
-/
import Unitrans.HostContext
import Unitrans.Sieve

namespace Unitrans

open X86 FirstArrival Except

variable {L : Layout}

/-- The block has code. -/
def Translated (L : Layout) (b : TranslationBlock) : Prop :=
  b.tcPtr ∈ Span L.codeGenBuffer DEFAULT_CODE_GEN_BUFFER_SIZE

theorem Translated.ne {b : TranslationBlock} (h : Translated L b) : b.tcPtr ≠ NOT_TRANS_YET := by
  intro he
  rw [Translated, he] at h
  exact L.not_trans_yet (span_mono (by decide) h)

/-- Out of the sieve: the code of the blocks, and the way back to the dispatcher. -/
def Outside (L : Layout) (x : Word) : Prop :=
  x ∈ Span L.codeGenBuffer DEFAULT_CODE_GEN_BUFFER_SIZE ∨ x = tbRet L

theorem quiet_outside : Quiet L (Outside L) := fun _ h => h

/-- What the sieve consists of, up to `sieve_code_ptr`. -/
def sieveArea (L : Layout) (p : Word) : Set Word :=
  Span L.sieveBuffer (p - L.sieveBuffer).toNat ∪ Span L.sieveHashtable (8 * SIEVE_SIZE) ∪ Span (sieveExit L) 22

/-- Anything else the emulator or the guest does: it may put more into the sieve buffer. -/
structure KeepsSieve (L : Layout) (s s' : State) : Prop where
  sieveStub : s'.sieveStub = s.sieveStub
  tbRetAddr : s'.tbRetAddr = s.tbRetAddr
  mem : ∀ x ∈ sieveArea L s.sieveCodePtr, s'.mem x = s.mem x
  grows : (s.sieveCodePtr - L.sieveBuffer).toNat ≤ (s'.sieveCodePtr - L.sieveBuffer).toNat
  fits : (s'.sieveCodePtr - L.sieveBuffer).toNat ≤ DEFAULT_SIEVE_BUFFER_SIZE

/-- A run from the prologue on, with the blocks added to the sieve, the last one first. -/
inductive SieveRun (L : Layout) : State → List TranslationBlock → Prop
  | init (s : State) : SieveRun L (s.cachePrologue L) []
  | add {s s' added i b ty} : SieveRun L s added → s.tbs[i]? = some b → Translated L b →
      s.addSieveEntry L i ty = .ok s' → SieveRun L s' (b :: added)
  | other {s s' added} : SieveRun L s added → KeepsSieve L s s' → SieveRun L s' added

def nodeOf (b : TranslationBlock) : Word × Word := (b.pc, b.tcPtr)

theorem lookup_nodeOf (added : List TranslationBlock) (t : Word) :
    (added.map nodeOf).lookup t = (added.find? fun b => b.pc = t).map (·.tcPtr) := by
  induction added with
  | nil => rfl
  | cons b added ih =>
    rw [List.map_cons, nodeOf, List.lookup_cons, List.find?_cons, ih]
    by_cases h : b.pc = t
    · simp [h]
    · simp [h, beq_false_of_ne (Ne.symm h)]

/-- What a run keeps. -/
structure SieveReach (L : Layout) (K : Code) (s : State) (added : List TranslationBlock) : Prop where
  inv : SieveInv L K s (added.map nodeOf)
  area : K.dom ⊆ sieveArea L s.sieveCodePtr
  sieveStub : s.sieveStub = L.sieveBuffer
  tbRetAddr : s.tbRetAddr = tbRet L
  translated : ∀ b ∈ added, Translated L b

theorem sieveArea_mono {p q : Word} (h : (p - L.sieveBuffer).toNat ≤ (q - L.sieveBuffer).toNat) :
    sieveArea L p ⊆ sieveArea L q :=
  Set.union_subset_union_left _ (Set.union_subset_union_left _ (span_mono h))

/-- The code of the sieve as it is at first. -/
def initDom (L : Layout) : Set Word := Span L.sieveBuffer 16 ∪ Span (sieveExit L) 22

theorem SieveReach.init (s : State) : ∃ K, SieveReach L K (s.cachePrologue L) [] := by
  have hcode := cacheCode_prologueMem (L := L) s.mem
  have hbuf : (L.sieveBuffer + 16 - L.sieveBuffer).toNat = 16 := by bv_omega
  have hsz : DEFAULT_SIEVE_BUFFER_SIZE = 67108864 := rfl
  have hexit : Span (sieveExit L) 22 ⊆ Span L.codeGenPrologue sizeofPrologue := prologue_subset (by decide)
  let K := Code.ofMem (prologueMem L s.mem) (initDom L)
  have hdom : K.dom = initDom L := Code.dom_ofMem _
  have hholds : Code.Holds (prologueMem L s.mem) K := Code.holds_ofMem _ _
  have hstub : SieveCode L K := by
    refine ⟨Code.placed_ofMem hcode.sieve (by simp) ?_, Code.placed_ofMem hcode.exit (by simp) ?_, ?_⟩
    · rw [length_sieveStubBytes]
      exact Set.subset_union_left
    · rw [length_sieveExitBytes]
      exact Set.subset_union_right
    · rw [hdom, initDom, Set.disjoint_union_right]
      exact ⟨L.env_sieve.mono_right (span_mono (by decide)), L.env_prologue.mono_right hexit⟩
  have htable : SieveTable L K (prologueMem L s.mem) [] := fun pc => by
    refine ⟨sieveExit L, bucket_prologueMem _ ?_, .exit⟩
    rw [BitVec.toNat_and]
    exact Nat.lt_succ_of_le Nat.and_le_right
  have hroom : SieveRoom L K (L.sieveBuffer + 16) := by
    refine ⟨by omega, fun x hx hb => ?_⟩
    rw [hdom] at hx
    rw [hbuf]
    rcases hx with hx | hx
    · exact hx
    · exact absurd hb (Set.disjoint_left.mp L.prologue_sieve (hexit hx))
  refine ⟨K, ?_⟩
  have harea : K.dom ⊆ sieveArea L (L.sieveBuffer + 16) := by
    rw [hdom, sieveArea, hbuf]
    exact Set.union_subset_union_left _ Set.subset_union_left
  refine ⟨⟨hstub, ?_, ?_, ?_⟩, ?_, ?_, ?_, by simp⟩ <;> simp only [cachePrologue_eq]
  · exact hholds
  · exact htable
  · exact hroom
  · exact harea

theorem SieveReach.add {K : Code} {s s' : State} {added : List TranslationBlock} {i : Nat} {b : TranslationBlock}
    {ty : Word} (h : SieveReach L K s added) (hb : s.tbs[i]? = some b) (ht : Translated L b)
    (hs : s.addSieveEntry L i ty = .ok s') : ∃ K', SieveReach L K' s' (b :: added) := by
  obtain ⟨K', a, rfl, hle, hdom, hinv⟩ := addSieveEntry_spec h.inv hb ht.ne hs
  have hstub : (s.sieveAdded L b a).sieveStub = s.sieveStub := by cases s; rfl
  have hret : (s.sieveAdded L b a).tbRetAddr = s.tbRetAddr := by cases s; rfl
  refine ⟨K', hinv, fun x hx => ?_, hstub.trans h.sieveStub, hret.trans h.tbRetAddr,
    List.forall_mem_cons.mpr ⟨ht, h.translated⟩⟩
  rcases hdom hx with hk | hbuf
  · rcases h.area hk with (hb | hb) | hb
    · exact Or.inl (Or.inl (hinv.room.free x hx (span_mono h.inv.room.le hb)))
    · exact Or.inl (Or.inr hb)
    · exact Or.inr hb
  · exact Or.inl (Or.inl (hinv.room.free x hx hbuf))

/-- With room in the buffer a block is added. -/
theorem SieveReach.exists_add {K : Code} {s : State} {added : List TranslationBlock} {i : Nat} {b : TranslationBlock}
    (h : SieveReach L K s added) (hb : s.tbs[i]? = some b) (ht : Translated L b) (ty : Word)
    (hroom : ¬BitVec.slt (BitVec.ofNat 32 DEFAULT_SIEVE_BUFFER_SIZE) (s.sieveCodePtr + 27 - L.sieveBuffer)) :
    ∃ s', s.addSieveEntry L i ty = .ok s' ∧ s'.tbs = s.tbs ∧ s'.sieveCodePtr = s.sieveCodePtr + 27 := by
  obtain ⟨a, ha, -⟩ := h.inv.table b.pc
  refine ⟨s.sieveAdded L b a, ?_, by cases s; rfl, sieveCodePtr_sieveAdded s b a⟩
  rw [addSieveEntry_eq ty hb ht.ne ha, abortIf, if_neg hroom]
  rfl

/-- The buckets are in the area. -/
theorem bucketOf_sieveArea (pc p : Word) : Span (bucketOf L pc) 5 ⊆ sieveArea L p := by
  have hlt : (pc &&& 0xffff).toNat ≤ 0xffff := by
    rw [BitVec.toNat_and]
    exact Nat.and_le_right
  refine (span_subset_add ?_ (by decide)).trans (Set.subset_union_right.trans Set.subset_union_left)
  simp only [SIEVE_SIZE]
  omega

theorem SieveReach.other {K : Code} {s s' : State} {added : List TranslationBlock} (h : SieveReach L K s added)
    (hk : KeepsSieve L s s') : SieveReach L K s' added := by
  refine ⟨⟨h.inv.code, h.inv.holds.congr fun x hx => hk.mem x (h.area hx), fun pc => ?_, hk.fits, fun x hx hb => ?_⟩,
    h.area.trans (sieveArea_mono hk.grows), hk.sieveStub.trans h.sieveStub, hk.tbRetAddr.trans h.tbRetAddr,
    h.translated⟩
  · obtain ⟨a, ha, hc⟩ := h.inv.table pc
    exact ⟨a, ha.congr (by simp) fun x hx => hk.mem x (bucketOf_sieveArea pc _ hx), hc⟩
  · exact lt_of_lt_of_le (h.inv.room.free x hx hb) hk.grows

theorem SieveRun.reach {s : State} {added : List TranslationBlock} (h : SieveRun L s added) :
    ∃ K, SieveReach L K s added := by
  induction h with
  | init s => exact SieveReach.init s
  | add _ hb ht hs ih =>
    obtain ⟨K, hK⟩ := ih
    exact hK.add hb ht hs
  | other _ hk ih =>
    obtain ⟨K, hK⟩ := ih
    exact ⟨K, hK.other hk⟩

/-! ## The map -/

/-- The registers once both words are popped. -/
def poppedRegs (c : Cpu) (r : Reg) : Word :=
  if r = .ecx then c.mem.ld32 (c.regs .esp) else if r = .esp then c.regs .esp + 8 else c.regs r

/-- A dispatch on the address in the second word of the stack. It looks into the bucket
`add_sieve_entry` uses for the address and leaves the sieve once: for the block added last for the
address, or, if there is none, for the dispatcher. -/
theorem sieve_refines_map {s : State} {added : List TranslationBlock} (hr : SieveRun L s added) {c : Cpu} {t : Word}
    (hc : c.mem = s.mem) (he : c.eip = s.sieveStub) (ht : c.mem.ld32 (c.regs .esp + 4) = t) :
    (∃ e, GoesBy (Outside L) c e ∧ e.eip = SIEVE_HASH L.sieveHashtable (t <<< 3)) ∧
    ∃ c', Arrives step (fun c => Outside L c.eip) c c' ∧ c'.regs = poppedRegs c ∧ c'.eflags = c.eflags ∧
      c'.segBase = c.segBase ∧
      (∀ b, added.find? (fun b => b.pc = t) = some b → c'.eip = b.tcPtr ∧ c'.mem = c.mem) ∧
      (c'.eip = s.tbRetAddr ↔ ∀ b ∈ added, b.pc ≠ t) ∧
      ((∀ b ∈ added, b.pc ≠ t) → c'.mem.ld32 L.eip = t ∧ c'.mem.ld32 L.indType = IND_TYPE_CALL ∧
        ∀ x, x ∉ Span L.eip 4 → x ∉ Span L.indType 4 → c'.mem x = c.mem x) := by
  obtain ⟨K, hK⟩ := hr.reach
  have hholds : Code.Holds c.mem K := by rw [hc]; exact hK.inv.holds
  have htable : SieveTable L K c.mem (added.map nodeOf) := by rw [hc]; exact hK.inv.table
  have hentry : c.eip = L.sieveBuffer := he.trans hK.sieveStub
  have hgoes := goes_sieve quiet_outside hK.inv.code hholds htable hentry
  rw [ht, lookup_nodeOf] at hgoes
  have hpop : ∀ a, (popBoth c a).regs = poppedRegs c := fun a => by
    funext r
    cases r <;> simp [popBoth, poppedRegs]
  have hnone : added.find? (fun b => b.pc = t) = none ↔ ∀ b ∈ added, b.pc ≠ t := by simp
  refine ⟨⟨_, goes_stub quiet_outside hK.inv.code hholds hentry, ?_⟩, _, ⟨hgoes, ?_⟩, ?_⟩
  · rw [Cpu.goto_eip, ht, bucketOf_eq]
  · cases hf : added.find? fun b => b.pc = t with
    | none => exact Or.inr (by simp [sieveOut, sieveMiss, popBoth])
    | some b => exact Or.inl (by
      simpa [sieveOut, popBoth, Translated] using hK.translated b (List.mem_of_find?_eq_some hf))
  cases hf : added.find? fun b => b.pc = t with
  | none =>
    refine ⟨by simp [sieveOut, sieveMiss, hpop], by simp [sieveOut, sieveMiss, popBoth],
      by simp [sieveOut, sieveMiss, popBoth], by simp, ?_, fun _ => ?_⟩
    · simpa [sieveOut, sieveMiss, popBoth, hK.tbRetAddr] using hnone.mp hf
    · have hd : Disjoint (Span L.indType 4) (Span L.eip 4) :=
        L.disjoint_field (i := 1840212) (j := 32) (Or.inr (by decide)) (by decide) (by decide)
      have hmem : (sieveOut L c (Option.map (·.tcPtr) (none : Option TranslationBlock))).mem =
          (c.mem.st32 L.eip t).st32 L.indType IND_TYPE_CALL := by rw [← ht]; simp [sieveOut, sieveMiss]
      rw [hmem, Mem.ld32_st32_of_disjoint hd, Mem.ld32_st32, Mem.ld32_st32]
      exact ⟨rfl, rfl, fun x h₁ h₂ => by rw [Mem.st32_of_notMem h₂, Mem.st32_of_notMem h₁]⟩
  | some b =>
    have hmem := List.mem_of_find?_eq_some hf
    have hpc : b.pc = t := by simpa using List.find?_some hf
    have hany : ¬ ∀ b ∈ added, b.pc ≠ t := fun h => h b hmem hpc
    refine ⟨hpop _, by simp [sieveOut, popBoth], by simp [sieveOut, popBoth], fun b' hb' => ?_, ?_,
      fun h => absurd h hany⟩
    · obtain rfl := Option.some.inj hb'
      exact ⟨by simp [sieveOut, popBoth], by simp [sieveOut, popBoth]⟩
    · refine iff_of_false (fun hret => ?_) hany
      have hin := hK.translated b hmem
      rw [Translated, show b.tcPtr = tbRet L by simpa [sieveOut, popBoth, hK.tbRetAddr] using hret] at hin
      exact Set.disjoint_left.mp L.prologue_code (mem_span_add (by decide) (by decide)) hin

theorem sieveArea_subset {p : Word} (h : (p - L.sieveBuffer).toNat ≤ DEFAULT_SIEVE_BUFFER_SIZE) :
    sieveArea L p ⊆ L.emu := by
  have htable : Span L.sieveHashtable (8 * SIEVE_SIZE) ⊆ Span L.env sizeofEnv := L.field_subset (by decide)
  have hexit : Span (sieveExit L) 22 ⊆ Span L.codeGenPrologue sizeofPrologue := prologue_subset (by decide)
  rintro x ((hx | hx) | hx)
  · exact Or.inr (span_mono h hx)
  · exact Or.inl (Or.inl (Or.inl (htable hx)))
  · exact Or.inl (Or.inl (Or.inr (hexit hx)))

/-- Two blocks of one bucket, whose addresses have the same last digits. -/
def collidingBlocks : List TranslationBlock :=
  [{ pc := 0x08048000, tcPtr := 0x30000000 }, { pc := 0x08058000, tcPtr := 0x30000100 }]

/-- The guest has pushed `t` and its code calls the sieve. -/
def dispatchCpu (m : Mem) (t : Word) : Cpu :=
  { regs := fun _ => 0x60000000, eflags := 2, eip := 0x40000000, segBase := fun _ => 0, undefAF := false
    mem := m.st32 0x60000004 t }

/-- A dispatch runs either block, the first one's code behind the node of the second; an address of the bucket
without a block goes to the dispatcher. -/
theorem sieve_refines_map_sample : bucketOf .sample 0x08048000 = bucketOf .sample 0x08058000 ∧ ∃ m,
    (∃ c', Arrives step (fun c => Outside .sample c.eip) (dispatchCpu m 0x08048000) c' ∧ c'.eip = 0x30000000) ∧
    (∃ c', Arrives step (fun c => Outside .sample c.eip) (dispatchCpu m 0x08058000) c' ∧ c'.eip = 0x30000100) ∧
    ∃ c', Arrives step (fun c => Outside .sample c.eip) (dispatchCpu m 0x08068000) c' ∧ c'.eip = tbRet .sample := by
  obtain ⟨s₀, h₀, hp⟩ : ∃ s₀ : State, SieveRun .sample s₀ [] ∧ s₀.sieveCodePtr = 0x40000010 :=
    ⟨_, .init (.boot .sample fun _ => 0), by rw [cachePrologue_eq]; rfl⟩
  have htr : ∀ b ∈ collidingBlocks, Translated .sample b := by
    simp only [collidingBlocks, List.forall_mem_cons, Translated, mem_span]
    decide
  have h₁ : SieveRun .sample { s₀ with tbs := collidingBlocks } [] := by
    refine .other h₀ ⟨rfl, rfl, fun _ _ => rfl, le_rfl, ?_⟩
    simp only [hp]
    decide
  obtain ⟨K, hK⟩ := h₁.reach
  obtain ⟨s₂, hs₂, htbs, hp₂⟩ := hK.exists_add (i := 0) rfl (htr _ (by simp [collidingBlocks])) 1
    (by simp only [hp]; decide)
  have h₂ := h₁.add rfl (htr _ (by simp [collidingBlocks])) hs₂
  obtain ⟨K₂, hK₂⟩ := h₂.reach
  have hb : s₂.tbs[1]? = some { pc := 0x08058000, tcPtr := 0x30000100 } := by
    rw [htbs]
    rfl
  obtain ⟨s₃, hs₃, -⟩ := hK₂.exists_add hb (htr _ (by simp [collidingBlocks])) 1 (by rw [hp₂]; simp only [hp]; decide)
  have h₃ := h₂.add hb (htr _ (by simp [collidingBlocks])) hs₃
  obtain ⟨K₃, hK₃⟩ := h₃.reach
  -- the guest pushes an address
  have h₄ (t : Word) : SieveRun .sample (s₃.withMem (s₃.mem.st32 0x60000004 t)) collidingBlocks.reverse := by
    refine .other h₃ ⟨rfl, rfl, fun x hx => Mem.st32_of_notMem fun hs => ?_, le_rfl, hK₃.inv.room.le⟩
    exact Set.disjoint_left.mp (disjoint_emu_sample (by decide) (by decide)) hs
      (sieveArea_subset hK₃.inv.room.le hx)
  have hfind (t : Word) := sieve_refines_map (h₄ t) (c := dispatchCpu s₃.mem t) rfl hK₃.sieveStub.symm
    (Mem.ld32_st32 ..)
  refine ⟨by decide, s₃.mem, ?_, ?_, ?_⟩
  · obtain ⟨-, c', hc', -, -, -, hhit, -⟩ := hfind 0x08048000
    exact ⟨c', hc', (hhit _ rfl).1⟩
  · obtain ⟨-, c', hc', -, -, -, hhit, -⟩ := hfind 0x08058000
    exact ⟨c', hc', (hhit _ rfl).1⟩
  · obtain ⟨-, c', hc', -, -, -, -, hmiss, -⟩ := hfind 0x08068000
    exact ⟨c', hc', (hmiss.mpr (by simp [collidingBlocks])).trans hK₃.tbRetAddr⟩

end Unitrans
