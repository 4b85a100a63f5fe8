/-
Where the code cache is entered. In whatever run `cpu_exec` enters it at the
code of the one block at the guest's `eip`, and a block that has code keeps it
(`entered_for_good`).
-/
import Unitrans.Progress

namespace Unitrans

open X86 FirstArrival Except

variable {L : Layout} {img : Mem} {s t s' : State} {E : Stubs} {ds : Decode} {prev : Word}

/-! ## Blocks with code -/

theorem KeepsCode.refl (s : State) : KeepsCode s s := fun _ b hb _ => ⟨b, hb, rfl, rfl⟩

theorem KeepsCode.trans (h₁ : KeepsCode s t) (h₂ : KeepsCode t s') : KeepsCode s s' := fun i b hb htc => by
  obtain ⟨c, hc, hpc, htc'⟩ := h₁ i b hb htc
  obtain ⟨d, hd, hpc', htc''⟩ := h₂ i c hc (htc' ▸ htc)
  exact ⟨d, hd, hpc'.trans hpc, htc''.trans htc'⟩

theorem Wrote.keepsCode (hw : Wrote L s s') : KeepsCode s s' := fun i b hb htc => by
  obtain ⟨c, hc, hl⟩ := State.linksAt_eq_some (hw.links i b hb htc)
  exact ⟨c, hc, TranslationBlock.links_pc hl, TranslationBlock.links_tcPtr hl⟩

/-! ## One iteration -/

/-- The code of block `b` is what `clear_env` leaves to enter. -/
theorem ld32_clearEnv_targetTc (s : State) (b : TranslationBlock) : (s.clearEnv L b).mem.ld32 L.targetTc = b.tcPtr := by
  have hind : Disjoint (Span L.indType 4) (Span L.targetTc 4) :=
    L.disjoint_field (i := 1840212) (j := 44) (by omega) (by decide) (by decide)
  have hret : Disjoint (Span L.retTb 4) (Span L.targetTc 4) :=
    L.disjoint_field (i := 56) (j := 44) (by omega) (by decide) (by decide)
  show (((s.mem.st32 L.targetTc _).st32 L.retTb 0).st32 L.indType NOT_IND).ld32 L.targetTc = _
  rw [Mem.ld32_st32_of_disjoint hind, Mem.ld32_st32_of_disjoint hret, Mem.ld32_st32]

theorem KeepsSites.clearEnv (s : State) (b : TranslationBlock) : KeepsSites L s (s.clearEnv L b) :=
  ((KeepsSites.st32 s _ _).trans (.st32 ..)).trans (.st32 ..)

/-- An iteration from the block it finds on. -/
structure EnteredAt (L : Layout) (s : State) (tb : Nat) (s' : State) : Prop where
  keepsCode : KeepsCode s s'
  block : ∃ b, s'.tbs[tb]? = some b ∧ b.pc = s.mem.ld32 L.eip ∧ b.tcPtr ≠ NOT_TRANS_YET ∧ s'.mem.ld32 L.targetTc = b.tcPtr

/-- The rest of an iteration, once the next block is found. -/
theorem enteredAt_rest {tb : Nat} {b : TranslationBlock} (hw : KeepsCode s t) (hk : KeepsSites L t s')
    (hb : t.tbs[tb]? = some b) (hpc : b.pc = s.mem.ld32 L.eip) (htc : b.tcPtr ≠ NOT_TRANS_YET) :
    (s'.tb tb).Ensures fun c => EnteredAt L s tb (s'.clearEnv L c) := by
  refine (s'.tb_ensures tb).mono fun c hc => ?_
  have hsites : KeepsSites L t (s'.clearEnv L c) := hk.trans (.clearEnv s' c)
  obtain ⟨c', hc', hcore, -⟩ := exists_site hk.sites hb
  obtain rfl : c' = c := Option.some.inj (hc'.symm.trans hc)
  obtain ⟨d, hd, hdcore, -⟩ := exists_site hsites.sites hb
  simp only [TranslationBlock.core, Prod.mk.injEq] at hcore hdcore
  refine ⟨hw.trans (Kept.of_sites hsites.sites).code, d, hd, hdcore.1.trans hpc, hdcore.2.1 ▸ htc, ?_⟩
  rw [ld32_clearEnv_targetTc, hcore.2.1, hdcore.2.1]

theorem cpuExecIter_enteredAt (hv : VisitOk L s E) (hi : ShortInsns img) :
    (s.cpuExecIter L img ds prev).Ensures fun s' => ∃ tb, EnteredAt L s tb s' := by
  simp only [State.cpuExecIter, ensures_bind, ensures_pure]
  intro p hp
  have hw : Wrote L s p.2 := getNextTb_wrote hv.room hi _ _ p hp
  obtain ⟨b, hb, hpc, htc⟩ := getNextTb_entered hv.room hi hv.chained _ _ p hp
  obtain ⟨tb, s₁⟩ := p
  refine (handleInd_sites s₁ prev tb).mono fun q hq => ?_
  obtain ⟨prev', s₂⟩ := q
  refine (linkTb_sites s₂ prev' tb).mono fun s₃ h₃ => ?_
  exact (enteredAt_rest hw.keepsCode (hq.trans h₃) hb hpc htc).mono fun c hc => ⟨tb, hc⟩

/-! ## Runs -/

/-- The cache is entered at the code of the block at `eip`. -/
def EntersBlock (L : Layout) (s : State) : Prop :=
  ∃ (i : Nat) (b : TranslationBlock), s.tbs[i]? = some b ∧ b.pc = s.mem.ld32 L.eip ∧ b.tcPtr ≠ NOT_TRANS_YET ∧
    s.mem.ld32 L.targetTc = b.tcPtr

theorem SameOutside.eip {m m' : Mem} (h : SameOutside L m m') : m'.ld32 L.eip = m.ld32 L.eip := by
  refine Mem.ld32_congr fun x hx => h x (env_notMem_buffers (L.eip_subset hx)) fun he => ?_
  have hd : ∀ {j l : Nat}, 36 ≤ j → j + l ≤ sizeofEnv → x ∉ Span (L.field j) l := fun {j l} h₁ h₂ => by
    have hd := L.disjoint_field (i := 32) (k := 4) (j := j) (l := l) (Or.inl h₁) (by decide) h₂
    exact Set.disjoint_left.mp hd hx
  rcases he with ((he | he) | he) | he
  · exact hd (j := 267344) (by decide) (by decide) he
  · exact hd (j := 44) (by decide) (by decide) he
  · exact hd (j := 56) (by decide) (by decide) he
  · exact hd (j := 1840212) (by decide) (by decide) he

/-- An iteration leaves `eip` as the guest has it. -/
theorem cpuExecIter_entersBlock (hv : VisitOk L s E) (hi : ShortInsns img) (hl : LeftFrom L s prev)
    (hs : s.cpuExecIter L img ds prev = .ok s') : EntersBlock L s' ∧ KeepsCode s s' := by
  obtain ⟨tb, hkeep, b, hb, hpc, htc, htarget⟩ := cpuExecIter_enteredAt hv hi s' hs
  have hsame := cpuExecIter_frame hv.room hv.tbOk.tables hi hl s' hs
  exact ⟨⟨tb, b, hb, hpc.trans hsame.eip.symm, htc, htarget⟩, hkeep⟩

/-- One more visit of a run: the guest takes an exit, and `cpu_exec` does an iteration. -/
inductive NextVisit (L : Layout) : State × Stubs → State × Stubs → Prop
  | mk {s s' : State} {E : Stubs} {m img : Mem} {ds : Decode} (e : Exit) : e.Of s E → e.Leaves L m → ShortInsns img →
      (s.withMem m).cpuExecIter L img ds (e.retTb L) = .ok s' → NextVisit L (s, E) (s', E ∪ {x | x ∈ s'.stubs})

theorem NextVisit.visited {c c' : State × Stubs} (h : NextVisit L c c') (hv : Visited L c.1 c.2) : Visited L c'.1 c'.2 := by
  cases h with
  | mk e he hl hi hs => exact .next e hv he hl hi hs

theorem NextVisit.keepsCode {c c' : State × Stubs} (h : NextVisit L c c') (hv : Visited L c.1 c.2) : KeepsCode c.1 c'.1 := by
  cases h with
  | mk e he hl hi hs => exact (cpuExecIter_entersBlock (hv.ok.withMem _) hi (hv.ok.leftFrom he hl) hs).2

theorem Visited.later {c c' : State × Stubs} (hv : Visited L c.1 c.2) (hr : Relation.ReflTransGen (NextVisit L) c c') :
    Visited L c'.1 c'.2 ∧ KeepsCode c.1 c'.1 := by
  induction hr with
  | refl => exact ⟨hv, .refl _⟩
  | tail _ hstep ih => exact ⟨hstep.visited ih.1, ih.2.trans (hstep.keepsCode ih.1)⟩

theorem Visited.entersBlock (h : Visited L s E) : EntersBlock L s := by
  cases h with
  | first hb hc hi hs => exact (cpuExecIter_entersBlock (visitOk_first hb hc) hi (Or.inl rfl) hs).1
  | next e hv he hl hi hs => exact (cpuExecIter_entersBlock (hv.ok.withMem _) hi (hv.ok.leftFrom he hl) hs).1

/-! ## In every run -/

/-- The exit by the stub of a field, as the stub leaves `env`. -/
theorem leaves_stub (m : Mem) (p : Word) {f : Site} (hlt : f.1.tb < codeGenMaxBlocks) : (Exit.stub p f.1.tb f.2 f.1.dest).Leaves L
    (((m.st32 L.eip f.1.dest).st32 L.patchNum f.2).st32 L.indType NOT_IND) := by
  have hd₁ : Disjoint (Span L.indType 4) (Span L.eip 4) :=
    L.disjoint_field (i := 1840212) (j := 32) (by omega) (by decide) (by decide)
  have hd₂ : Disjoint (Span L.patchNum 4) (Span L.eip 4) :=
    L.disjoint_field (i := 64) (j := 32) (by omega) (by decide) (by decide)
  have hd₃ : Disjoint (Span L.indType 4) (Span L.patchNum 4) :=
    L.disjoint_field (i := 1840212) (j := 64) (by omega) (by decide) (by decide)
  refine ⟨hlt, ?_, ?_, ?_⟩
  · rw [Mem.ld32_st32_of_disjoint hd₁, Mem.ld32_st32_of_disjoint hd₂, Mem.ld32_st32]
  · rw [Mem.ld32_st32_of_disjoint hd₃, Mem.ld32_st32]
  · rw [Mem.ld32_st32]

/-- A guest that only jumps: the first iteration, and a second one by the stub of the jump. -/
theorem exists_second_jmp (hb : Booted L s) : ∃ (s₁ s₂ s₃ : State) (m : Mem) (f : Site), s.codecachePrologueInit L = .ok s₁ ∧
    s₁.cpuExecIter L jmpCode .zero 0 = .ok s₂ ∧ f ∈ s₂.fields ∧ ShortSlot s₂ f ∧ (∀ x ∈ buffers L, m x = s₂.mem x) ∧
      (Exit.stub 0 f.1.tb f.2 f.1.dest).Leaves L m ∧
      (s₂.withMem m).cpuExecIter L jmpCode .zero ((Exit.stub 0 f.1.tb f.2 f.1.dest).retTb L) = .ok s₃ := by
  have hmax : codeGenMaxBlocks = 2097152 := rfl
  obtain ⟨s₁, h₁⟩ := codecachePrologueInit_returns hb
  have hok := visitOk_first hb h₁
  have hmem := codecachePrologueInit_mem h₁
  have hind : s₁.mem.ld32 L.indType = NOT_IND := by
    rw [hmem]
    exact (ld32_prologueMem s.mem (k := 1840212) (by decide)).trans hb.indType
  have hnum : s₁.mem.ld32 L.patchNum = 0 := by
    rw [hmem]
    exact (ld32_prologueMem s.mem (k := 64) (by decide)).trans hb.patchNum
  obtain ⟨b, htbs, hpc, htc, hptr, hstbs, hsieve⟩ := codecachePrologueInit_first hb h₁
  have huses : Uses L 100 s₁ := by
    refine ⟨by rw [htbs]; simp, by rw [hstbs]; simp, ?_, ?_⟩
    · rw [hptr, codeOff, sub_self]
      decide
    · rw [hsieve, sieveOff, add_sub_cancel_left]
      decide
  obtain ⟨s₂, h₂, huses₂, hfield⟩ := cpuExecIter_jmp .zero hok huses (by decide) (by rw [hnum]; decide) hind (Or.inl rfl)
  obtain ⟨f, hf, htb, hnear⟩ := hfield ⟨0, b, by rw [htbs]; rfl, hpc, htc⟩
  have hok₂ := hok.iter shortInsns_jmpCode s₂ h₂
  have hslot : f.2 < PATCH_MAX := by
    have hmem : f.2 ∈ s₂.log.slots := List.drop_subset _ _ (List.of_mem_zip hf).2
    have hlt : f.2 < CONT_TRANS_TAG := hok₂.reach.settled.balanced.slots f.2 hmem
    exact BitVec.lt_trans hlt (by decide)
  -- the stub of the jump
  have hlt : f.1.tb < codeGenMaxBlocks := by
    have hle := huses₂.tbs
    omega
  obtain ⟨m, hm⟩ : ∃ m, m = ((s₂.mem.st32 L.eip f.1.dest).st32 L.patchNum f.2).st32 L.indType NOT_IND := ⟨_, rfl⟩
  have hleaves := leaves_stub (L := L) s₂.mem 0 hlt
  rw [← hm] at hleaves
  have hout : ∀ x ∈ buffers L, m x = s₂.mem x := fun x hx => by
    rw [hm, Mem.st32_of_notMem fun hin => env_notMem_buffers (L.indType_subset hin) hx,
      Mem.st32_of_notMem fun hin => env_notMem_buffers (L.patchNum_subset hin) hx,
      Mem.st32_of_notMem fun hin => env_notMem_buffers (L.eip_subset hin) hx]
  have huses₃ : Uses L 141 (s₂.withMem m) := ⟨huses₂.tbs, huses₂.stbs, huses₂.code, huses₂.sieve⟩
  obtain ⟨hlt', heip, hn, hi⟩ := hleaves
  obtain ⟨s₃, h₃, -⟩ := cpuExecIter_jmp .zero (hok₂.withMem m) huses₃ (by decide)
    (by show m.ld32 L.patchNum < _; rw [hn]; exact hslot) hi (Or.inr ⟨f.1.tb, htb, hlt', rfl⟩)
  exact ⟨s₁, s₂, s₃, m, f, h₁, h₂, hf, hnear, hout, ⟨hlt', heip, hn, hi⟩, h₃⟩

/-- Whenever `cpu_exec` enters the code cache, in whatever run, it does so at the code of the one block at the guest's
`eip`, which is translated; and a block that is translated keeps its address and its code in every later state. -/
theorem entered_for_good (h : Visited L s E) :
    EntersBlock L s ∧
      (∀ (i j : Nat) (b b' : TranslationBlock), s.tbs[i]? = some b → s.tbs[j]? = some b' → b.pc = b'.pc → i = j) ∧
      ∀ (s' : State) (E' : Stubs), Relation.ReflTransGen (NextVisit L) (s, E) (s', E') → KeepsCode s s' :=
  ⟨h.entersBlock, fun _ _ _ _ hb hb' hpc => h.ok.tbOk.unique.eq hb hb' hpc, fun _ _ hr => (Visited.later h hr).2⟩

theorem entered_for_good_sample : ∃ (s s' : State) (E E' : Stubs), Visited .sample s E ∧ NextVisit .sample (s, E) (s', E') ∧
    EntersBlock .sample s ∧ KeepsCode s s' := by
  obtain ⟨s₁, s₂, s₃, m, f, h₁, h₂, hf, -, -, hl, h₃⟩ := exists_second_jmp (booted_boot .sample)
  have hrun : Visited .sample s₂ {x | x ∈ s₂.stubs} := .first (booted_boot .sample) h₁ shortInsns_jmpCode h₂
  have hstub : (f.1.tb, f.2, f.1.dest) ∈ s₂.stubs := List.mem_map.mpr ⟨f, hf, rfl⟩
  have hnext : NextVisit .sample (s₂, {x | x ∈ s₂.stubs}) (s₃, {x | x ∈ s₂.stubs} ∪ {x | x ∈ s₃.stubs}) :=
    .mk (.stub 0 f.1.tb f.2 f.1.dest) hstub hl shortInsns_jmpCode h₃
  obtain ⟨henters, -, hkeep⟩ := entered_for_good hrun
  exact ⟨s₂, s₃, _, _, hrun, hnext, henters, hkeep _ _ (.single hnext)⟩

end Unitrans
