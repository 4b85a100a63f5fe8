/-
Direct block chaining over whole runs. Whatever the guest runs and in
whichever order it leaves the code cache, the field of every direct branch
translated so far leads to the code of its destination or to a stub of its own
(`chaining`), and `cpu_exec` links a field for good the first time its stub is
taken (`resolved_for_good`).
-/
import Unitrans.Entry

namespace Unitrans

open X86 FirstArrival Except

variable {L : Layout} {img : Mem} {s t s' : State} {F : Set Site}

/-! ## The invariant -/

/-- Where the fields are. -/
def locs (F : Set Site) : Set Word := {l | ∃ f ∈ F, f.1.loc = l}

/-- The fields lead where they should, apart from one another and from the chains. -/
structure Sound (L : Layout) (s : State) (F : Set Site) : Prop where
  leads : ∀ f ∈ F, LeadsTo L s f
  owned : ∀ f ∈ F, Owned s f
  used : ∀ f ∈ F, codeOff L f.1.loc + 4 ≤ codeOff L s.codeGenPtr
  apart : ∀ f ∈ F, ∀ g ∈ F, f ≠ g → Disjoint (Span f.1.loc 4) (Span g.1.loc 4)
  chains : Chains (codeBut L (locs F) s.codeGenPtr) s

/-- Nothing that matters changes. -/
structure SameSites (L : Layout) (F : Set Site) (s s' : State) : Prop where
  fields : ∀ f ∈ F, ∀ x ∈ Span f.1.loc 4, s'.mem x = s.mem x
  sieve : ∀ x ∈ sieveUpTo L s.sieveCodePtr, s'.mem x = s.mem x
  sieveCodePtr : sieveOff L s.sieveCodePtr ≤ sieveOff L s'.sieveCodePtr
  codeGenPtr : s'.codeGenPtr = s.codeGenPtr
  tbRetAddr : s'.tbRetAddr = s.tbRetAddr
  sites : s'.sites = s.sites

theorem Sound.same (h : Sound L s F) (hs : SameSites L F s s') : Sound L s' F := by
  refine ⟨fun f hf => ?_, fun f hf => (h.owned f hf).of_sites hs.sites, fun f hf => ?_, h.apart, ?_⟩
  · exact (h.leads f hf).keep (hs.fields f hf) hs.sieve hs.sieveCodePtr hs.tbRetAddr (Kept.of_sites hs.sites).code
  · rw [hs.codeGenPtr]
    exact h.used f hf
  · rw [hs.codeGenPtr]
    exact h.chains.congr (cores_of_sites hs.sites)

theorem locs_union (F G : Set Site) : locs (F ∪ G) = locs F ∪ locs G := by
  ext l
  constructor
  · intro h
    obtain ⟨f, hf | hf, rfl⟩ := h
    · exact Or.inl ⟨f, hf, rfl⟩
    · exact Or.inr ⟨f, hf, rfl⟩
  · intro h
    rcases h with ⟨f, hf, rfl⟩ | ⟨f, hf, rfl⟩
    · exact ⟨f, Or.inl hf, rfl⟩
    · exact ⟨f, Or.inr hf, rfl⟩

/-- What was emitted is not in the fields behind it. -/
theorem Sound.extends (h : Sound L s F) (he : Extends L (locs F) s s') (hw : Wrote L s s') (hp : SamePcs s s')
    (hroom : codeOff L s.codeGenPtr ≤ DEFAULT_CODE_GEN_BUFFER_SIZE) : Sound L s' (F ∪ {f | f ∈ s'.fields}) := by
  have hsize : DEFAULT_CODE_GEN_BUFFER_SIZE = 134217728 := rfl
  have hold : ∀ f ∈ F, ∀ x ∈ Span f.1.loc 4, x ∈ codeUpTo L s.codeGenPtr := fun f hf x hx => by
    have h₁ := h.used f hf
    have h₂ := codeOff_of_mem (L := L) hx (by omega)
    exact mem_codeUpTo.mpr (by omega)
  have hbetween : ∀ f ∈ F, ∀ g ∈ s'.fields, Disjoint (Span f.1.loc 4) (Span g.1.loc 4) := fun f hf g hg => by
    refine Set.disjoint_left.mpr fun x hx hx' => ?_
    have h₁ := mem_codeUpTo.mp (hold f hf x hx)
    obtain ⟨-, -, h₂, h₃⟩ := he.fields g hg
    have h₄ : codeOff L s'.codeGenPtr < 2 ^ 32 := BitVec.isLt _
    have h₅ := codeOff_of_mem (L := L) hx' (by omega)
    omega
  refine ⟨fun f hf => ?_, fun f hf => ?_, fun f hf => ?_, fun f hf g hg hne => ?_, ?_⟩
  · rcases hf with hf | hf
    · exact (h.leads f hf).keep (fun x hx => he.code x (hold f hf x hx)) he.sieve he.sieveCodePtr he.tbRetAddr hw.keepsCode
    · exact (he.fields f hf).1
  · rcases hf with hf | hf
    · refine (h.owned f hf).keep fun b hb => ?_
      obtain ⟨c, hc, hpc⟩ := hp _ b hb
      refine ⟨c, hc, hpc, fun htc => ?_⟩
      obtain ⟨d, hd, hl⟩ := State.linksAt_eq_some (hw.links _ b hb htc)
      obtain rfl : c = d := Option.some.inj (hc.symm.trans hd)
      simp only [TranslationBlock.links, Prod.mk.injEq] at hl
      exact ⟨hl.2.1, hl.2.2.1⟩
    · exact (he.fields f hf).2.1
  · rcases hf with hf | hf
    · exact (h.used f hf).trans he.codeGenPtr
    · exact (he.fields f hf).2.2.2
  · rcases hf with hf | hf
    · rcases hg with hg | hg
      · exact h.apart f hf g hg hne
      · exact hbetween f hf g hg
    · rcases hg with hg | hg
      · exact (hbetween g hg f hf).symm
      · exact he.apart f hf g hg hne
  · rw [locs_union]
    exact he.chains

/-! ## The rest of the iteration -/

theorem Sound.field_code (h : Sound L s F) (hroom : codeOff L s.codeGenPtr ≤ DEFAULT_CODE_GEN_BUFFER_SIZE) {f : Site}
    (hf : f ∈ F) : Span f.1.loc 4 ⊆ codeArea L := span_subset ((h.used f hf).trans hroom)

theorem codeArea_notMem_sieve {x : Word} (h : x ∈ codeArea L) : x ∉ Span L.sieveBuffer DEFAULT_SIEVE_BUFFER_SIZE := fun hx =>
  Set.disjoint_left.mp L.code_sieve h hx

theorem SameSites.trans (h₁ : SameSites L F s t) (h₂ : SameSites L F t s') : SameSites L F s s' :=
  ⟨fun f hf x hx => (h₂.fields f hf x hx).trans (h₁.fields f hf x hx),
    fun x hx => (h₂.sieve x (span_mono h₁.sieveCodePtr hx)).trans (h₁.sieve x hx), h₁.sieveCodePtr.trans h₂.sieveCodePtr,
    h₂.codeGenPtr.trans h₁.codeGenPtr, h₂.tbRetAddr.trans h₁.tbRetAddr, h₂.sites.trans h₁.sites⟩

/-- A word of `env` is written. -/
theorem SameSites.st32_env {a : Word} (hF : ∀ f ∈ F, Span f.1.loc 4 ⊆ codeArea L)
    (hs : sieveOff L s.sieveCodePtr ≤ DEFAULT_SIEVE_BUFFER_SIZE) (ha : Span a 4 ⊆ Span L.env sizeofEnv) (w : Word) :
    SameSites L F s (s.st32 a w) := by
  have hout : ∀ x ∈ buffers L, (s.st32 a w).mem x = s.mem x := fun x hx =>
    Mem.st32_of_notMem fun hin => env_notMem_buffers (ha hin) hx
  exact ⟨fun f hf x hx => hout x (Or.inl (hF f hf hx)), fun x hx => hout x (Or.inr (span_mono hs hx)), le_rfl, rfl, rfl, rfl⟩

/-- The words of a chain are written. -/
theorem SameSites.st32_chain {a : Word} (hs : sieveOff L s.sieveCodePtr ≤ DEFAULT_SIEVE_BUFFER_SIZE)
    (hroom : codeOff L s.codeGenPtr ≤ DEFAULT_CODE_GEN_BUFFER_SIZE) (ha : Span a 4 ⊆ codeBut L (locs F) s.codeGenPtr) (w : Word) :
    SameSites L F s (s.st32 a w) := by
  refine ⟨fun f hf x hx => Mem.st32_of_notMem fun hin => (ha hin).2 _ ⟨f, hf, rfl⟩ hx,
    fun x hx => Mem.st32_of_notMem fun hin => ?_, le_rfl, rfl, rfl, rfl⟩
  exact codeArea_notMem_sieve (span_mono hroom (ha hin).1) (span_mono hs hx)

theorem SameSites.updTb (k : Nat) {f : TranslationBlock → TranslationBlock} (hf : KeepsChain f)
    (ho : ∀ b, (f b).tbJmpOffset = b.tbJmpOffset) : SameSites L F s (s.updTb k f) :=
  ⟨fun _ _ _ _ => rfl, fun _ _ => rfl, le_rfl, rfl, rfl, sites_updTb _ _ hf ho⟩

theorem addSieveEntry_sameSites (hF : ∀ f ∈ F, Span f.1.loc 4 ⊆ codeArea L)
    (hs : sieveOff L s.sieveCodePtr ≤ DEFAULT_SIEVE_BUFFER_SIZE) (i : Nat) (ty : Word) :
    (s.addSieveEntry L i ty).Ensures (SameSites L F s) := by
  suffices hrest : (s.addSieveEntry L i ty).Ensures fun s' => (∀ f ∈ F, ∀ x ∈ Span f.1.loc 4, s'.mem x = s.mem x) ∧
      (∀ x ∈ sieveUpTo L s.sieveCodePtr, s'.mem x = s.mem x) ∧ sieveOff L s.sieveCodePtr ≤ sieveOff L s'.sieveCodePtr ∧
      s'.codeGenPtr = s.codeGenPtr ∧ s'.tbRetAddr = s.tbRetAddr by
    refine (hrest.and (addSieveEntry_sites s i ty)).mono fun s' h => ?_
    obtain ⟨⟨hfields, hsieve, hle, hptr, hret⟩, hk⟩ := h
    exact ⟨hfields, hsieve, hle, hptr, hret, hk.sites⟩
  simp only [State.addSieveEntry, ensures_bind, ensures_ite, ensures_pure, cemitSieveNode_eq]
  intro b _
  refine ⟨fun _ => by simp, fun _ u hcheck => ?_⟩
  have hbucket : Span (SIEVE_HASH L.sieveHashtable (b.pc <<< 3) + 1) 4 ⊆ Span L.env sizeofEnv := by
    rw [bucketOf_eq]
    refine ((span_subset_add (i := 1) (by decide) (by decide)).trans (bucketOf_subset b.pc)).trans ?_
    exact L.field_subset (i := 267344) (by decide)
  have hptr : ∀ (i a w : Word), ((s.incSieveStat i).st32 a w).sieveCodePtr = s.sieveCodePtr := fun _ _ _ => rfl
  rw [State.sieveCodePtr_emitSieve, length_sieveNodeBytes, hptr] at hcheck
  have hfit : sieveOff L s.sieveCodePtr + 27 ≤ DEFAULT_SIEVE_BUFFER_SIZE := sieve_fit hs hcheck
  -- neither the bucket nor the node is in what is there
  have hout : ∀ (w : Word) (bs : List Byte), bs.length = 27 → ∀ x ∈ buffers L, (x ∈ Span L.sieveBuffer DEFAULT_SIEVE_BUFFER_SIZE →
      x ∈ sieveUpTo L s.sieveCodePtr) → (((s.incSieveStat ((b.pc &&& SIEVE_MASK) >>> 3)).st32
        (SIEVE_HASH L.sieveHashtable (b.pc <<< 3) + 1) w).emitSieve bs).mem x = s.mem x := fun w bs hlen x hx hup => by
    rw [State.mem_emitSieve, Mem.put_of_notMem]
    · exact Mem.st32_of_notMem fun hin => env_notMem_buffers (hbucket hin) hx
    · rw [hptr, hlen]
      intro hin
      obtain ⟨h₁, h₂⟩ := behind_sieve hfit hin
      exact h₂ (hup h₁)
  have hstay : ∀ (i a w : Word) (bs : List Byte), (((s.incSieveStat i).st32 a w).emitSieve bs).codeGenPtr = s.codeGenPtr ∧
      (((s.incSieveStat i).st32 a w).emitSieve bs).tbRetAddr = s.tbRetAddr := fun _ _ _ _ => by
    cases s
    exact ⟨rfl, rfl⟩
  refine ⟨fun f hf x hx => ?_, fun x hx => ?_, ?_, (hstay ..).1, (hstay ..).2⟩
  · exact hout _ _ (length_sieveNodeBytes ..) x (Or.inl (hF f hf hx)) fun h => absurd h (codeArea_notMem_sieve (hF f hf hx))
  · exact hout _ _ (length_sieveNodeBytes ..) x (Or.inr (span_mono hs hx)) fun _ => hx
  · rw [State.sieveCodePtr_emitSieve, length_sieveNodeBytes, hptr, sieveOff_add (by decide) hs]
    omega

/-- What `cpu_exec` does for an exit of indirect kind is not in the fields. -/
theorem handleInd_sameSites {prev : Word} {tb : Nat} (h : Sound L s F)
    (hs : sieveOff L s.sieveCodePtr ≤ DEFAULT_SIEVE_BUFFER_SIZE) (hroom : codeOff L s.codeGenPtr ≤ DEFAULT_CODE_GEN_BUFFER_SIZE)
    (hprev : s.mem.ld32 L.indType ≠ NOT_IND → prev ≠ 0 →
      ∃ b, s.tbs[blockAt L prev]? = some b ∧ ChainIn (codeBut L (locs F) s.codeGenPtr) b) :
    (s.handleInd L prev tb).Ensures fun r => SameSites L F s r.2 ∧
      (s.mem.ld32 L.indType = NOT_IND → r = (prev, s)) ∧ (s.mem.ld32 L.indType ≠ NOT_IND → r.1 = 0) := by
  have hF : ∀ f ∈ F, Span f.1.loc 4 ⊆ codeArea L := fun f hf => h.field_code hroom hf
  have hrefl : SameSites L F s s := ⟨fun _ _ _ _ => rfl, fun _ _ => rfl, le_rfl, rfl, rfl, rfl⟩
  unfold State.handleInd
  rw [ensures_ite, ensures_ok]
  refine ⟨fun hind => ?_, fun hind => ⟨hrefl, fun _ => rfl, fun h => absurd h hind⟩⟩
  rw [ensures_ite]
  refine ⟨fun _ => ?_, fun hne => ?_⟩
  · simp only [ensures_bind, ensures_pure]
    refine ((addSieveEntry_sameSites hF hs tb _).and (addSieveEntry_sites s tb _)).mono fun s₁ h₁ => ?_
    exact ⟨h₁.1.trans (.st32_env hF (h₁.2.sieveCodePtr hs) L.indType_subset _), fun h => absurd h hind, fun _ => trivial⟩
  · simp only [ensures_bind, ensures_pure]
    refine (tbAt_ensures s prev).mono fun i hi => ?_
    obtain ⟨rfl, -⟩ := hi
    obtain ⟨b, hb, hchain⟩ := hprev hind hne
    have htb : s.tb (blockAt L prev) = .ok b := by rw [State.tb, hb]
    simp only [State.patchIndOpt, State.patchJmpTarget, htb, ok_bind, ensures_ite, ensures_bind, ensures_pure]
    refine ⟨fun hlt c _ => ⟨?_, fun h => absurd h hind, fun _ => trivial⟩, fun _ => ⟨?_, fun h => absurd h hind, fun _ => trivial⟩⟩
    · have h₁ := SameSites.st32_chain hs hroom (hchain.src _ hlt) (-s.mem.ld32 L.eip)
      have h₂ := @SameSites.st32_chain L (s.st32 (b.jindSrcAddr b.jmpIndIndex.toNat) (-s.mem.ld32 L.eip)) F _ hs hroom
        (hchain.dest _ hlt) (c.tcPtr - b.jindDestAddr b.jmpIndIndex.toNat - 4)
      exact (h₁.trans h₂).trans (.updTb _ (fun _ => ⟨rfl, rfl, rfl⟩) fun _ => rfl)
    · rw [State.indPatchSieve, cemitSieveNopush_eq]
      have hnot : ∀ x ∈ Span b.indEnterSieve 5, x ∈ codeBut L (locs F) s.codeGenPtr := fun x hx => hchain.enter hx
      have hlen : (jmpTo b.indEnterSieve s.sieveStub).length = 5 := rfl
      refine ⟨fun f hf x hx => Mem.put_of_notMem fun hin => ?_, fun x hx => Mem.put_of_notMem fun hin => ?_, le_rfl, rfl, rfl, rfl⟩
      · exact (hnot x (hlen ▸ hin)).2 _ ⟨f, hf, rfl⟩ hx
      · exact codeArea_notMem_sieve (span_mono hroom (hnot x (hlen ▸ hin)).1) (span_mono hs hx)

/-! ## The link -/

/-- The slot of the field is not cut, unless the field leads back to its owner. -/
def Near (s : State) (f : Site) : Prop :=
  ∀ b, s.tbs[f.1.tb]? = some b → b.pc = f.1.dest ∨ (f.1.loc - b.tcPtr).toNat < 2 ^ 16

/-- A link is written. -/
structure LinkMade (L : Layout) (s : State) (f : Site) (s' : State) : Prop where
  next : ∃ (i : Nat) (b : TranslationBlock), s.tbs[i]? = some b ∧ b.pc = f.1.dest ∧ b.tcPtr ≠ NOT_TRANS_YET ∧
    s'.mem = s.mem.st32 f.1.loc (b.tcPtr - f.1.loc - 4)
  sieveCodePtr : s'.sieveCodePtr = s.sieveCodePtr
  codeGenPtr : s'.codeGenPtr = s.codeGenPtr
  tbRetAddr : s'.tbRetAddr = s.tbRetAddr
  sites : s'.sites = s.sites

variable {f : Site}

theorem tbPtr_ne_zero {tb : Nat} (h : tb < codeGenMaxBlocks) : L.tbPtr tb ≠ 0 := by
  have hpos := L.tbs_pos
  have htb := tbPtr_toNat (L := L) h
  intro he
  rw [he] at htb
  have hzero : (0 : Word).toNat = 0 := rfl
  omega

/-- `tb_add_jump` for the slot of a field writes that field. -/
theorem linkTb_made {tb : Nat} {b : TranslationBlock} (ho : Owned s f) (hn : Near s f) (hu : TbOk s) (hlt : f.1.tb < codeGenMaxBlocks)
    (hnum : s.mem.ld32 L.patchNum = f.2) (hb : s.tbs[tb]? = some b) (hpc : b.pc = f.1.dest) (htc : b.tcPtr ≠ NOT_TRANS_YET) :
    (s.linkTb L (L.tbPtr f.1.tb) tb).Ensures fun s' => (L.tbPtr tb = L.tbPtr f.1.tb ∧ s' = s) ∨ LinkMade L s f s' := by
  unfold State.linkTb
  rw [ensures_ite, ensures_ok]
  refine ⟨fun h => ?_, fun h => Or.inl ⟨?_, rfl⟩⟩
  · obtain ⟨-, hne⟩ := h
    rw [ensures_bind]
    refine (tbAt_ensures s _).mono fun i hi => ?_
    obtain ⟨rfl, -⟩ := hi
    rw [blockAt_tbPtr hlt]
    obtain ⟨c, hc, hown⟩ := ho
    have hother : c.pc ≠ f.1.dest := fun he => by
      obtain rfl : tb = f.1.tb := hu.unique.eq hb hc (hpc.trans he.symm)
      exact hne rfl
    obtain ⟨-, hoff⟩ := hown.resolve_left hother
    have hshort := (hn c hc).resolve_left hother
    have hcode : s.tb f.1.tb = .ok c := by rw [State.tb, hc]
    have hnext : s.tb tb = .ok b := by rw [State.tb, hb]
    -- the offset is not cut
    have hloc : c.tcPtr + (c.tbJmpOffset f.2.toNat).setWidth 32 = f.1.loc := by
      have hcut : ((f.1.loc - c.tcPtr).setWidth 16 : BitVec 16).setWidth 32 = f.1.loc - c.tcPtr := by
        apply BitVec.eq_of_toNat_eq
        rw [BitVec.toNat_setWidth, BitVec.toNat_setWidth, Nat.mod_eq_of_lt hshort, Nat.mod_eq_of_lt (by omega)]
      rw [hoff, hcut]
      ring
    simp only [State.tbAddJump, State.tbSetJmpTarget, hcode, hnext, ok_bind, ensures_bind, ensures_pure]
    refine Or.inr ⟨⟨tb, b, hb, hpc, htc, ?_⟩, rfl, rfl, rfl, sites_updTb _ _ (fun _ => ⟨rfl, rfl, rfl⟩) fun _ => rfl⟩
    show s.mem.st32 _ _ = _
    rw [hnum, hloc]
    congr 1
    ring
  · by_contra hne
    exact h ⟨tbPtr_ne_zero hlt, hne⟩

theorem LinkMade.linked (h : LinkMade L s f s') : Resolved s' f := by
  obtain ⟨i, b, hb, hpc, htc, hm⟩ := h.next
  obtain ⟨c, hc, hcore, -⟩ := exists_site h.sites hb
  simp only [TranslationBlock.core, Prod.mk.injEq] at hcore
  exact ⟨i, c, hc, hcore.1.trans hpc, hcore.2.1 ▸ htc, by rw [hm, jumpTarget_st32, hcore.2.1]⟩

/-- The other fields are apart from it. -/
theorem LinkMade.other {g : Site} (h : LinkMade L s f s') (hd : Disjoint (Span g.1.loc 4) (Span f.1.loc 4)) :
    ∀ x ∈ Span g.1.loc 4, s'.mem x = s.mem x := fun x hx => by
  obtain ⟨i, b, -, -, -, hm⟩ := h.next
  rw [hm, Mem.st32_of_notMem (Set.disjoint_left.mp hd hx)]

theorem LinkMade.keepsResolved {g : Site} (h : LinkMade L s f s') (hs : Sound L s F) (hf : f ∈ F) (hg : g ∈ F) (hl : Resolved s g) :
    Resolved s' g := by
  by_cases he : g = f
  · rw [he]
    exact h.linked
  · exact hl.keep (h.other (hs.apart g hg f hf he)) (Kept.of_sites h.sites).code

theorem Sound.linkMade (h : Sound L s F) (hroom : codeOff L s.codeGenPtr ≤ DEFAULT_CODE_GEN_BUFFER_SIZE)
    (hs : sieveOff L s.sieveCodePtr ≤ DEFAULT_SIEVE_BUFFER_SIZE) (hf : f ∈ F) (hl : LinkMade L s f s') : Sound L s' F := by
  refine ⟨fun g hg => ?_, fun g hg => (h.owned g hg).of_sites hl.sites, fun g hg => ?_, h.apart, ?_⟩
  · by_cases he : g = f
    · rw [he]
      exact Or.inl hl.linked
    · refine (h.leads g hg).keep (hl.other (h.apart g hg f hf he)) (fun x hx => ?_) (by rw [hl.sieveCodePtr]) hl.tbRetAddr
        (Kept.of_sites hl.sites).code
      obtain ⟨i, b, -, -, -, hm⟩ := hl.next
      rw [hm, Mem.st32_of_notMem fun hin => codeArea_notMem_sieve (h.field_code hroom hf hin) (span_mono hs hx)]
  · rw [hl.codeGenPtr]
    exact h.used g hg
  · rw [hl.codeGenPtr]
    exact h.chains.congr (cores_of_sites hl.sites)

/-! ## One iteration -/

theorem Near.wrote (h : Near s f) (ho : Owned s f) (hw : Wrote L s s') (hp : SamePcs s s') : Near s' f := by
  obtain ⟨b, hb, hown⟩ := ho
  obtain ⟨c, hc, hpc⟩ := hp _ b hb
  intro d hd
  obtain rfl : c = d := Option.some.inj (hc.symm.trans hd)
  by_cases hback : b.pc = f.1.dest
  · exact Or.inl (hpc.trans hback)
  · obtain ⟨htc, -⟩ := hown.resolve_left hback
    obtain ⟨d, hd, -, htc'⟩ := hw.keepsCode _ b hb htc
    obtain rfl : c = d := Option.some.inj (hc.symm.trans hd)
    rw [htc']
    exact Or.inr ((h b hb).resolve_left hback)

/-- How the guest comes to `cpu_exec`, with the value it returns and the field it came by: for the first time or from
the sieve, from the inline chain of a block, or from the stub of a field. -/
inductive LeftBy (L : Layout) (s : State) (F : Set Site) : Word → Option Site → Prop
  | outside : LeftBy L s F 0 none
  | chain {tb : Nat} {b : TranslationBlock} : tb < codeGenMaxBlocks → s.tbs[tb]? = some b → b.type ≠ NOT_IND → s.mem.ld32 L.indType ≠ NOT_IND →
      LeftBy L s F (L.tbPtr tb) none
  | stub {f : Site} : f ∈ F → f.1.tb < codeGenMaxBlocks → Near s f → s.mem.ld32 L.indType = NOT_IND →
      s.mem.ld32 L.eip = f.1.dest → s.mem.ld32 L.patchNum = f.2 → LeftBy L s F (L.tbPtr f.1.tb) (some f)

/-- What an iteration leaves. -/
structure Iterated (L : Layout) (s : State) (F : Set Site) (o : Option Site) (s' : State) : Prop where
  sound : Sound L s' (F ∪ {f | f ∈ s'.fields})
  tbRetAddr : s'.tbRetAddr = s.tbRetAddr
  linked : ∀ f ∈ F, Resolved s f → Resolved s' f
  others : ∀ f ∈ F, (∀ g, o = some g → f ≠ g) → ∀ x ∈ Span f.1.loc 4, s'.mem x = s.mem x
  taken : ∀ f, o = some f → Resolved s' f ∨ ∃ (i : Nat) (b : TranslationBlock), s'.tbs[i]? = some b ∧
    b.pc = s.mem.ld32 L.eip ∧ L.tbPtr i = L.tbPtr f.1.tb

variable {E : Stubs} {ds : Decode} {prev : Word} {o : Option Site}

/-- The next block, with the fields of the superblock it may take. -/
structure NextFound (L : Layout) (s : State) (F : Set Site) (pc : Word) (r : Nat × State) : Prop where
  sound : Sound L r.2 (F ∪ {f | f ∈ r.2.fields})
  tbRetAddr : r.2.tbRetAddr = s.tbRetAddr
  room : codeOff L r.2.codeGenPtr ≤ DEFAULT_CODE_GEN_BUFFER_SIZE
  code : codeBut L (locs F) s.codeGenPtr ⊆ codeBut L (locs (F ∪ {f | f ∈ r.2.fields})) r.2.codeGenPtr
  fields : ∀ f ∈ F, ∀ x ∈ Span f.1.loc 4, r.2.mem x = s.mem x
  keepsCode : KeepsCode s r.2
  block : ∃ b, r.2.tbs[r.1]? = some b ∧ b.pc = pc ∧ b.tcPtr ≠ NOT_TRANS_YET

theorem Extends.code_mono {A : Set Word} (h : Extends L A s s') :
    codeBut L A s.codeGenPtr ⊆ codeBut L (A ∪ locs {f | f ∈ s'.fields}) s'.codeGenPtr := by
  refine codeBut_mono h.codeGenPtr fun l hl => hl.imp_right fun hl x hx hin => ?_
  obtain ⟨f, hf, rfl⟩ := hl
  obtain ⟨-, -, h₁, h₂⟩ := h.fields f hf
  have h₃ : codeOff L s'.codeGenPtr < 2 ^ 32 := BitVec.isLt _
  have h₄ := codeOff_of_mem (L := L) hin (by omega)
  have h₅ := mem_codeUpTo.mp hx
  omega

theorem getNextTb_sound (hv : VisitOk L s E) (h : Sound L s F) (hlast : ∀ f ∈ s.fields, f ∈ F) (hi : ShortInsns img)
    (pc prev : Word) : (s.getNextTb L img ds pc prev).Ensures (NextFound L s F pc) := by
  have hA : ∀ l ∈ locs F, codeOff L l + 4 ≤ codeOff L s.codeGenPtr := fun l hl => by
    obtain ⟨f, hf, rfl⟩ := hl
    exact h.used f hf
  have hsize : DEFAULT_CODE_GEN_BUFFER_SIZE = 134217728 := rfl
  have hroom : codeOff L s.codeGenPtr ≤ DEFAULT_CODE_GEN_BUFFER_SIZE := hv.room.codeGenPtr
  intro r hr
  have hext := getNextTb_extends hv.room hv.reach.settled hi hv.chained hA h.chains pc prev r hr
  have hb : ∃ b, r.2.tbs[r.1]? = some b ∧ b.pc = pc ∧ b.tcPtr ≠ NOT_TRANS_YET := getNextTb_entered hv.room hi hv.chained pc prev r hr
  have hw : Wrote L s r.2 := getNextTb_wrote hv.room hi pc prev r hr
  have hp : SamePcs s r.2 := (getNextTb_translates hv.room hi hv.chained hv.last r hr).pcs
  have hset : codeOff L r.2.codeGenPtr ≤ DEFAULT_CODE_GEN_BUFFER_SIZE := by
    obtain ⟨tb, s₁⟩ := r
    exact (hv.reach.getNextTb hr).settled.room
  obtain hext | ⟨c, hc⟩ := hext
  · refine ⟨h.extends hext hw hp hroom, hext.tbRetAddr, hset, ?_, fun f hf x hx => ?_, hw.keepsCode, hb⟩
    · rw [locs_union]
      exact hext.code_mono
    · have h₁ := h.used f hf
      have h₂ := codeOff_of_mem (L := L) hx (by omega)
      exact hext.code x (mem_codeUpTo.mpr (by omega))
  · have hF : F ∪ {f | f ∈ r.2.fields} = F := by
      rw [hc]
      exact Set.union_eq_left.mpr hlast
    rw [hc] at hset hb
    refine ⟨?_, by rw [hc]; rfl, by rw [hc]; exact hset, by rw [hF, hc]; rfl, fun f _ x _ => by rw [hc]; rfl, hw.keepsCode,
      by rw [hc]; exact hb⟩
    rw [hF, hc]
    exact h.same ⟨fun _ _ _ _ => rfl, fun _ _ => rfl, le_rfl, rfl, rfl, rfl⟩

theorem Resolved.same (h : Resolved s f) (hf : f ∈ F) (hs : SameSites L F s s') : Resolved s' f :=
  h.keep (hs.fields f hf) (Kept.of_sites hs.sites).code

/-- The block of an inline chain still has its words apart from the fields. -/
theorem LeftBy.chainIn {A : Set Word} (hl : LeftBy L s F prev o) (hch : Chained L s) (hc : Chains A s) (hw : Wrote L s s')
    (hind : s.mem.ld32 L.indType ≠ NOT_IND) (hprev : prev ≠ 0) : ∃ b, s'.tbs[blockAt L prev]? = some b ∧ ChainIn A b := by
  cases hl with
  | outside => exact absurd rfl hprev
  | @chain k c hlt hget hty _ =>
    obtain ⟨hct, -⟩ := hch k c hget hty
    have hchain := hc k c hget hty
    obtain ⟨d, hd, hlinks⟩ := State.linksAt_eq_some (hw.links k c hget hct)
    simp only [TranslationBlock.links, Prod.mk.injEq] at hlinks
    rw [blockAt_tbPtr hlt]
    refine ⟨d, hd, ?_, ?_, ?_⟩
    · rw [hlinks.2.2.2.1]
      exact hchain.src
    · rw [hlinks.2.2.2.2.1]
      exact hchain.dest
    · rw [hlinks.2.2.2.2.2.1]
      exact hchain.enter
  | stub hf hlt hn hnot => exact absurd hnot hind

/-- Before the link: the fields are as they were, and a block to link from is left for a stub only. -/
structure Handled (L : Layout) (s : State) (F : Set Site) (prev : Word) (o : Option Site) (r : Word × State) : Prop where
  same : SameSites L F s r.2
  sites : KeepsSites L s r.2
  stub : ∀ f, o = some f → r = (prev, s)
  other : o = none → r.1 = 0

theorem NextFound.handleInd {pc : Word} {tb : Nat} (hfound : NextFound L s F pc (tb, t)) (hv : VisitOk L s E) (h : Sound L s F)
    (hw : Wrote L s t) (hl : LeftBy L s F prev o) :
    (t.handleInd L prev tb).Ensures (Handled L t (F ∪ {f | f ∈ t.fields}) prev o) := by
  have hind : t.mem.ld32 L.indType = s.mem.ld32 L.indType := hw.ld32_env L.indType_subset
  have hsame := @handleInd_sameSites L t _ prev tb hfound.sound hw.sieveCodePtr hfound.room fun hne hprev => by
    obtain ⟨b, hb, hchain⟩ := hl.chainIn hv.chained h.chains hw (hind ▸ hne) hprev
    exact ⟨b, hb, hchain.mono hfound.code⟩
  refine (hsame.and (handleInd_sites t prev tb)).mono fun q hq => ?_
  obtain ⟨⟨hsame, hnot, hzero⟩, hk⟩ := hq
  refine ⟨hsame, hk, fun f hf => ?_, fun hnone => ?_⟩
  · subst hf
    cases hl with
    | stub _ _ _ hind' _ _ => exact hnot (hind.trans hind')
  · subst hnone
    cases hl with
    | outside =>
      by_cases hne : t.mem.ld32 L.indType = NOT_IND
      · exact congrArg (·.1) (hnot hne)
      · exact hzero hne
    | chain _ _ _ hne => exact hzero (hind ▸ hne)

/-- Behind the link of block `tb`. -/
structure LinkStep (L : Layout) (s : State) (F : Set Site) (tb : Nat) (o : Option Site) (s' : State) : Prop where
  sound : Sound L s' F
  room : codeOff L s'.codeGenPtr ≤ DEFAULT_CODE_GEN_BUFFER_SIZE
  tbRetAddr : s'.tbRetAddr = s.tbRetAddr
  linked : ∀ g ∈ F, Resolved s g → Resolved s' g
  taken : ∀ g, o = some g → L.tbPtr tb = L.tbPtr g.1.tb ∨ Resolved s' g
  others : ∀ g ∈ F, (∀ g', o = some g' → g ≠ g') → ∀ x ∈ Span g.1.loc 4, s'.mem x = s.mem x

/-- There is no block to link from. -/
theorem linkTb_none {tb : Nat} (h : Sound L s F) (hroom : codeOff L s.codeGenPtr ≤ DEFAULT_CODE_GEN_BUFFER_SIZE) :
    (s.linkTb L 0 tb).Ensures (LinkStep L s F tb none) := by
  unfold State.linkTb
  rw [if_neg (by simp), ensures_ok]
  exact ⟨h, hroom, rfl, fun _ _ hl => hl, fun g hg => absurd hg (by simp), fun _ _ _ _ _ => rfl⟩

/-- The field whose stub was taken is linked. -/
theorem linkTb_stub {tb : Nat} {b : TranslationBlock} (h : Sound L s F)
    (hroom : codeOff L s.codeGenPtr ≤ DEFAULT_CODE_GEN_BUFFER_SIZE) (hs : sieveOff L s.sieveCodePtr ≤ DEFAULT_SIEVE_BUFFER_SIZE)
    (hok : TbOk s) (hf : f ∈ F) (hn : Near s f) (hlt : f.1.tb < codeGenMaxBlocks) (hnum : s.mem.ld32 L.patchNum = f.2)
    (hb : s.tbs[tb]? = some b) (hpc : b.pc = f.1.dest) (htc : b.tcPtr ≠ NOT_TRANS_YET) :
    (s.linkTb L (L.tbPtr f.1.tb) tb).Ensures (LinkStep L s F tb (some f)) := by
  refine (linkTb_made (h.owned f hf) hn hok hlt hnum hb hpc htc).mono fun s' hs' => ?_
  rcases hs' with ⟨hptr, rfl⟩ | hmade
  · refine ⟨h, hroom, rfl, fun _ _ hl => hl, fun g hg => Or.inl ?_, fun _ _ _ _ _ => rfl⟩
    rw [← Option.some.inj hg, hptr]
  · refine ⟨h.linkMade hroom hs hf hmade, by rw [hmade.codeGenPtr]; exact hroom, hmade.tbRetAddr,
      fun g hg hl => hmade.keepsResolved h hf hg hl, fun g hg => Or.inr ?_, fun g hg hne => ?_⟩
    · rw [← Option.some.inj hg]
      exact hmade.linked
    · exact hmade.other (h.apart g hg f hf (hne f rfl))

theorem clearEnv_sameSites (h : Sound L s F) (hroom : codeOff L s.codeGenPtr ≤ DEFAULT_CODE_GEN_BUFFER_SIZE)
    (hs : sieveOff L s.sieveCodePtr ≤ DEFAULT_SIEVE_BUFFER_SIZE) (b : TranslationBlock) : SameSites L F s (s.clearEnv L b) := by
  have hF : ∀ f ∈ F, Span f.1.loc 4 ⊆ codeArea L := fun f hf => h.field_code hroom hf
  have htarget : Span L.targetTc 4 ⊆ Span L.env sizeofEnv := L.field_subset (i := 44) (by decide)
  have h₁ := SameSites.st32_env hF hs htarget b.tcPtr
  have h₂ := @SameSites.st32_env L (s.st32 L.targetTc b.tcPtr) F _ hF hs L.retTb_subset 0
  have h₃ := @SameSites.st32_env L ((s.st32 L.targetTc b.tcPtr).st32 L.retTb 0) F _ hF hs L.indType_subset NOT_IND
  exact (h₁.trans h₂).trans h₃

/-- The link, behind the exit of indirect kind. -/
theorem Handled.linkTb {tb : Nat} {q : Word × State} {b : TranslationBlock} (hq : Handled L t (F ∪ {f | f ∈ t.fields}) prev o q)
    (hfound : NextFound L s F (s.mem.ld32 L.eip) (tb, t)) (h : Sound L s F) (hw : Wrote L s t) (hp : SamePcs s t) (hok : TbOk t)
    (hl : LeftBy L s F prev o) (hb : t.tbs[tb]? = some b) (hpc : b.pc = s.mem.ld32 L.eip) (htc : b.tcPtr ≠ NOT_TRANS_YET) :
    (q.2.linkTb L q.1 tb).Ensures (LinkStep L q.2 (F ∪ {f | f ∈ t.fields}) tb o) := by
  cases o with
  | none =>
    have hroom : codeOff L q.2.codeGenPtr ≤ DEFAULT_CODE_GEN_BUFFER_SIZE := by
      rw [hq.same.codeGenPtr]
      exact hfound.room
    rw [hq.other rfl]
    exact linkTb_none (hfound.sound.same hq.same) hroom
  | some f =>
    cases hl with
    | stub hf hlt hn _ heip hnum =>
      obtain rfl := hq.stub f rfl
      exact linkTb_stub hfound.sound hfound.room hw.sieveCodePtr hok (Or.inl hf) (hn.wrote (h.owned f hf) hw hp) hlt
        ((hw.ld32_env L.patchNum_subset).trans hnum) hb (hpc.trans heip) htc

/-- One iteration. -/
theorem Sound.iter (hv : VisitOk L s E) (h : Sound L s F) (hlast : ∀ f ∈ s.fields, f ∈ F) (hi : ShortInsns img)
    (hl : LeftBy L s F prev o) : (s.cpuExecIter L img ds prev).Ensures (Iterated L s F o) := by
  simp only [State.cpuExecIter, ensures_bind, ensures_pure]
  intro r hr
  have hfound : NextFound L s F (s.mem.ld32 L.eip) r := getNextTb_sound hv h hlast hi _ _ r hr
  have hw : Wrote L s r.2 := getNextTb_wrote hv.room hi _ _ r hr
  have hp : SamePcs s r.2 := (getNextTb_translates hv.room hi hv.chained hv.last r hr).pcs
  obtain ⟨tb, s₁⟩ := r
  have hok : TbOk s₁ := getNextTb_ok hv.tbOk ds _ _ (tb, s₁) hr
  obtain ⟨b, hb, hpc, htc⟩ := hfound.block
  refine (hfound.handleInd hv h hw hl).mono fun q hq => ?_
  have hlink := hq.linkTb hfound h hw hp hok hl hb hpc htc
  obtain ⟨prev', s₂⟩ := q
  refine (hlink.and (linkTb_sites s₂ prev' tb)).mono fun s₃ h₃ b' _ => ?_
  obtain ⟨hstep, hk₃⟩ := h₃
  have hk : KeepsSites L s₁ (s₃.clearEnv L b') := (hq.sites.trans hk₃).trans (.clearEnv s₃ b')
  have hsieve : sieveOff L s₃.sieveCodePtr ≤ DEFAULT_SIEVE_BUFFER_SIZE :=
    hk₃.sieveCodePtr (hq.sites.sieveCodePtr hw.sieveCodePtr)
  have hclear := clearEnv_sameSites hstep.sound hstep.room hsieve b'
  have hfields : (s₃.clearEnv L b').fields = s₁.fields := by
    rw [State.fields, State.fields, hk.patchArray, hk.slots]
  have hin : ∀ g ∈ F, g ∈ F ∪ {f | f ∈ s₁.fields} := fun g hg => Or.inl hg
  refine ⟨?_, ?_, fun g hg hres => ?_, fun g hg hne x hx => ?_, fun g hg => ?_⟩
  · rw [hfields]
    exact hstep.sound.same hclear
  · exact (hclear.tbRetAddr.trans hstep.tbRetAddr).trans (hq.same.tbRetAddr.trans hfound.tbRetAddr)
  · have hfoundRes : Resolved s₁ g := hres.keep (hfound.fields g hg) hfound.keepsCode
    exact (hstep.linked g (hin g hg) (hfoundRes.same (hin g hg) hq.same)).same (hin g hg) hclear
  · exact (((hclear.fields g (hin g hg) x hx).trans (hstep.others g (hin g hg) hne x hx)).trans
      (hq.same.fields g (hin g hg) x hx)).trans (hfound.fields g hg x hx)
  · rcases hstep.taken g hg with hptr | hres
    · obtain ⟨d, hd, hcore, -⟩ := exists_site hk.sites hb
      simp only [TranslationBlock.core, Prod.mk.injEq] at hcore
      exact Or.inr ⟨tb, d, hd, hcore.1.trans hpc, hptr⟩
    · subst hg
      cases hl with
      | stub hf _ _ _ _ _ => exact Or.inl (hres.same (hin g hf) hclear)

/-! ## Runs -/

/-- What an exit of a block has to do with the fields: the stub of one of them, which its slot can name, or else the
inline chain of a block, or the sieve. -/
def Exit.By (s : State) (F : Set Site) : Exit → Option Site → Prop
  | .stub _ tb n dest, o => ∃ f ∈ F, o = some f ∧ f.1.tb = tb ∧ f.2 = n ∧ f.1.dest = dest ∧ Near s f
  | .chain _ tb indType, o => o = none ∧ ∃ b, s.tbs[tb]? = some b ∧ b.type = indType
  | .sieve, o => o = none

/-- A visit to `cpu_exec` by an exit: the guest has run, whatever it wrote outside the code buffers. -/
inductive Visit (L : Layout) (o : Option Site) : State × Set Site → State × Set Site → Prop
  | mk {s s' : State} {F : Set Site} {m img : Mem} {ds : Decode} (e : Exit) : e.By s F o → e.Leaves L m →
      (∀ x ∈ buffers L, m x = s.mem x) → ShortInsns img → (s.withMem m).cpuExecIter L img ds (e.retTb L) = .ok s' →
        Visit L o (s, F) (s', F ∪ {f | f ∈ s'.fields})

/-- A run of `cpu_exec`, with the fields translated so far. -/
inductive Chaining (L : Layout) : State × Set Site → Prop
  | first {s s₁ s' : State} {img : Mem} {ds : Decode} : Booted L s → s.codecachePrologueInit L = .ok s₁ → ShortInsns img →
      s₁.cpuExecIter L img ds 0 = .ok s' → Chaining L (s', {f | f ∈ s'.fields})
  | next {c c' : State × Set Site} {o : Option Site} : Chaining L c → Visit L o c c' → Chaining L c'

/-- The stubs of fields. -/
def stubsOf (F : Set Site) : Stubs := (fun f : Site => (f.1.tb, f.2, f.1.dest)) '' F

theorem stubsOf_union (F : Set Site) (s : State) :
    stubsOf (F ∪ {f | f ∈ s.fields}) = stubsOf F ∪ {x | x ∈ s.stubs} := by
  rw [stubsOf, Set.image_union]
  congr 1
  ext x
  exact List.mem_map.symm

/-- What a run keeps. -/
structure ChainOk (L : Layout) (s : State) (F : Set Site) : Prop where
  visit : VisitOk L s (stubsOf F)
  sound : Sound L s F
  tbRetAddr : s.tbRetAddr = tbRet L
  last : ∀ f ∈ s.fields, f ∈ F

theorem ChainOk.withMem {m : Mem} (h : ChainOk L s F) (hm : ∀ x ∈ buffers L, m x = s.mem x) : ChainOk L (s.withMem m) F := by
  refine ⟨h.visit.withMem m, h.sound.same ⟨fun f hf x hx => hm x (Or.inl ?_), fun x hx => hm x (Or.inr ?_), le_rfl, rfl, rfl, rfl⟩,
    h.tbRetAddr, h.last⟩
  · exact h.sound.field_code h.visit.room.codeGenPtr hf hx
  · exact span_mono h.visit.sieve hx

theorem Exit.By.leftBy {e : Exit} {m : Mem} (h : e.By s F o) (hl : e.Leaves L m) : LeftBy L (s.withMem m) F (e.retTb L) o := by
  cases e with
  | stub p tb n dest =>
    obtain ⟨f, hf, rfl, rfl, rfl, rfl, hn⟩ := h
    obtain ⟨hlt, heip, hnum, hind⟩ := hl
    exact .stub hf hlt hn hind heip hnum
  | chain p tb indType =>
    obtain ⟨rfl, b, hb, rfl⟩ := h
    obtain ⟨hlt, hty, hind⟩ := hl
    have hne : (s.withMem m).mem.ld32 L.indType ≠ NOT_IND := by
      show m.ld32 L.indType ≠ NOT_IND
      rw [hind]
      exact hty
    exact .chain hlt hb hty hne
  | sieve =>
    obtain rfl : o = none := h
    exact .outside

theorem ChainOk.iter (h : ChainOk L s F) (hi : ShortInsns img) (hl : LeftBy L s F prev o) (hs : s.cpuExecIter L img ds prev = .ok s') :
    ChainOk L s' (F ∪ {f | f ∈ s'.fields}) ∧ Iterated L s F o s' := by
  have hiter : Iterated L s F o s' := h.sound.iter h.visit h.last hi hl _ hs
  refine ⟨⟨?_, hiter.sound, hiter.tbRetAddr.trans h.tbRetAddr, fun f hf => Or.inr hf⟩, hiter⟩
  rw [stubsOf_union]
  exact h.visit.iter hi _ hs

theorem chainOk_first (hb : Booted L s) (h : s.codecachePrologueInit L = .ok s') : ChainOk L s' ∅ := by
  have hvisit : VisitOk L s' (stubsOf ∅) := by
    rw [stubsOf, Set.image_empty]
    exact visitOk_first hb h
  obtain ⟨eip, rfl, -⟩ := codecachePrologueInit_spec s _ h
  obtain ⟨t, ht, htbs, hret, hpatches⟩ : ∃ t, t = s.cachePrologue L ∧ t.tbs = [] ∧ t.tbRetAddr = tbRet L ∧ t.patchArray = [] :=
    ⟨_, rfl, by rw [cachePrologue_eq, hb.tbs], by rw [cachePrologue_eq], by rw [cachePrologue_eq, hb.patchArray]⟩
  rw [← ht] at hvisit ⊢
  refine ⟨hvisit, ⟨fun f hf => absurd hf (Set.notMem_empty f), fun f hf => absurd hf (Set.notMem_empty f),
    fun f hf => absurd hf (Set.notMem_empty f), fun f hf => absurd hf (Set.notMem_empty f), fun i b hi hty => ?_⟩, hret,
    fun f hf => ?_⟩
  · have hi : (t.tbs ++ [newTb t eip eip])[i]? = some b := hi
    rw [htbs, List.nil_append] at hi
    obtain rfl := List.mem_singleton.mp (List.mem_of_getElem? hi)
    exact absurd rfl hty
  · have hf : f ∈ t.patchArray.zip (t.log.slots.drop (t.log.slots.length - t.patchArray.length)) := hf
    rw [hpatches] at hf
    exact absurd hf List.not_mem_nil

theorem LeftBy.of_some (h : LeftBy L s F prev (some f)) : f ∈ F ∧ s.mem.ld32 L.eip = f.1.dest := by
  cases h with
  | stub hf hlt hn hind heip hnum => exact ⟨hf, heip⟩

theorem Visit.ok {c c' : State × Set Site} (h : ChainOk L c.1 c.2) (hv : Visit L o c c') :
    ChainOk L c'.1 c'.2 ∧ (∀ f ∈ c.2, Resolved c.1 f → Resolved c'.1 f) ∧
      (∀ f ∈ c.2, (∀ g, o = some g → f ≠ g) → ∀ x ∈ Span f.1.loc 4, c'.1.mem x = c.1.mem x) ∧ c.2 ⊆ c'.2 ∧
      ∀ f, o = some f → f ∈ c.2 ∧ ((∃ (i : Nat) (b : TranslationBlock), c'.1.tbs[i]? = some b ∧ b.pc = f.1.dest ∧
        L.tbPtr i = L.tbPtr f.1.tb) ∨ Resolved c'.1 f) := by
  cases hv with
  | @mk s s' F m img ds e hby hl hm hi hs =>
    have hleft := hby.leftBy hl
    have hok := h.withMem hm
    obtain ⟨hok', hiter⟩ := hok.iter hi hleft hs
    have hfields : ∀ f ∈ F, ∀ x ∈ Span f.1.loc 4, m x = s.mem x := fun f hf x hx =>
      hm x (Or.inl (h.sound.field_code h.visit.room.codeGenPtr hf hx))
    refine ⟨hok', fun f hf hlink => hiter.linked f hf ?_,
      fun f hf hne x hx => (hiter.others f hf hne x hx).trans (hfields f hf x hx), fun f hf => Or.inl hf, fun f ho => ?_⟩
    · exact hlink.keep (hfields f hf) fun i b hb _ => ⟨b, hb, rfl, rfl⟩
    · subst ho
      obtain ⟨hf, heip⟩ := hleft.of_some
      refine ⟨hf, (hiter.taken f rfl).symm.imp_left fun hown => ?_⟩
      obtain ⟨i, b, hb, hpc, hptr⟩ := hown
      exact ⟨i, b, hb, hpc.trans heip, hptr⟩

theorem Chaining.ok {c : State × Set Site} (h : Chaining L c) : ChainOk L c.1 c.2 := by
  induction h with
  | @first s s₁ s' img ds hb hc hi hs =>
    have hok := ((chainOk_first hb hc).iter hi .outside hs).1
    rwa [Set.empty_union] at hok
  | next _ hv ih => exact (hv.ok ih).1

/-- Some visit. -/
def SomeVisit (L : Layout) (c c' : State × Set Site) : Prop := ∃ o, Visit L o c c'

theorem later_ok {c c' : State × Set Site} (h : ChainOk L c.1 c.2) (hr : Relation.ReflTransGen (SomeVisit L) c c') :
    ChainOk L c'.1 c'.2 ∧ c.2 ⊆ c'.2 ∧ ∀ f ∈ c.2, Resolved c.1 f → Resolved c'.1 f := by
  induction hr with
  | refl => exact ⟨h, subset_rfl, fun _ _ hl => hl⟩
  | tail _ hstep ih =>
    obtain ⟨o, hv⟩ := hstep
    obtain ⟨hok, hsub, hlink⟩ := ih
    obtain ⟨hok', hlink', -, hsub', -⟩ := hv.ok hok
    exact ⟨hok', hsub.trans hsub', fun f hf hl => hlink' f (hsub hf) (hlink f hf hl)⟩

/-! ## In every run -/

/-- A guest that only jumps: the first iteration, and a visit by the stub of the jump. -/
theorem exists_visit_jmp (hb : Booted L s) : ∃ (s₁ s₂ s₃ : State) (f : Site), s.codecachePrologueInit L = .ok s₁ ∧
    s₁.cpuExecIter L jmpCode .zero 0 = .ok s₂ ∧ Visit L (some f) (s₂, {f | f ∈ s₂.fields}) (s₃, {f | f ∈ s₂.fields} ∪ {f | f ∈ s₃.fields}) := by
  obtain ⟨s₁, s₂, s₃, m, f, h₁, h₂, hf, hnear, hout, hl, h₃⟩ := exists_second_jmp hb
  have hby : (Exit.stub 0 f.1.tb f.2 f.1.dest).By s₂ {f | f ∈ s₂.fields} (some f) :=
    ⟨f, hf, rfl, rfl, rfl, rfl, fun b hb => Or.inr (hnear b hb)⟩
  exact ⟨s₁, s₂, s₃, f, h₁, h₂, .mk (.stub 0 f.1.tb f.2 f.1.dest) hby hl hout shortInsns_jmpCode h₃⟩

/-- In every state of every run the field of each direct branch translated so far leads to the code of the block at its
destination or to its own stub; the fields share no byte, and a visit to `cpu_exec` changes none but the field whose stub
was taken. -/
theorem chaining {s : State} {F : Set Site} (h : Chaining L (s, F)) :
    (∀ f ∈ F, LeadsTo L s f) ∧ (∀ f ∈ F, ∀ g ∈ F, f ≠ g → Disjoint (Span f.1.loc 4) (Span g.1.loc 4)) ∧
      ∀ (o : Option Site) (s' : State) (F' : Set Site), Visit L o (s, F) (s', F') →
        ∀ f ∈ F, (∀ g, o = some g → f ≠ g) → ∀ x ∈ Span f.1.loc 4, s'.mem x = s.mem x := by
  have hok := h.ok
  exact ⟨hok.sound.leads, hok.sound.apart, fun o s' F' hv => (hv.ok hok).2.2.1⟩

theorem chaining_sample : ∃ (s : State) (F : Set Site), Chaining .sample (s, F) ∧ (∀ f ∈ F, LeadsTo .sample s f) ∧
    ∃ f ∈ F, ∃ (s' : State) (F' : Set Site), Visit .sample (some f) (s, F) (s', F') ∧
      ∀ g ∈ F, g ≠ f → ∀ x ∈ Span g.1.loc 4, s'.mem x = s.mem x := by
  obtain ⟨s₁, s₂, s₃, f, h₁, h₂, hv⟩ := exists_visit_jmp (booted_boot .sample)
  have hrun : Chaining .sample (s₂, {f | f ∈ s₂.fields}) := .first (booted_boot .sample) h₁ shortInsns_jmpCode h₂
  obtain ⟨hleads, -, hothers⟩ := chaining hrun
  have hf : f ∈ {f | f ∈ s₂.fields} := (hv.ok hrun.ok).2.2.2.2 f rfl |>.1
  refine ⟨s₂, _, hrun, hleads, f, hf, s₃, _, hv, fun g hg hne x hx => hothers _ s₃ _ hv g hg (fun g' hg' => ?_) x hx⟩
  rw [← Option.some.inj hg']
  exact hne

/-- The first time its stub is taken a field is linked for good: in every later state it leads to the code of the block
at its destination, unless that block is the one the field is in. -/
theorem resolved_for_good {c c' c'' : State × Set Site} (h : Chaining L c) (hv : Visit L (some f) c c')
    (hr : Relation.ReflTransGen (SomeVisit L) c' c'') :
    (∃ (i : Nat) (b : TranslationBlock), c'.1.tbs[i]? = some b ∧ b.pc = f.1.dest ∧ L.tbPtr i = L.tbPtr f.1.tb) ∨
      Resolved c''.1 f := by
  obtain ⟨hok, -, -, hsub, hres⟩ := hv.ok h.ok
  obtain ⟨hf, hown | hl⟩ := hres f rfl
  · exact Or.inl hown
  · exact Or.inr ((later_ok hok hr).2.2 f (hsub hf) hl)

theorem resolved_for_good_sample : ∃ (c c' : State × Set Site) (f : Site), Chaining .sample c ∧ Visit .sample (some f) c c' ∧
    ((∃ (i : Nat) (b : TranslationBlock), c'.1.tbs[i]? = some b ∧ b.pc = f.1.dest ∧
      Layout.sample.tbPtr i = Layout.sample.tbPtr f.1.tb) ∨ Resolved c'.1 f) := by
  obtain ⟨s₁, s₂, s₃, f, h₁, h₂, hv⟩ := exists_visit_jmp (booted_boot .sample)
  have hrun : Chaining .sample (s₂, {f | f ∈ s₂.fields}) := .first (booted_boot .sample) h₁ shortInsns_jmpCode h₂
  exact ⟨_, _, f, hrun, hv, resolved_for_good hrun hv .refl⟩

end Unitrans
