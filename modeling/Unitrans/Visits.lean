/-
Runs of the dispatcher, visit by visit: whichever exit the guest takes out of
the code cache, the words `cpu_exec` patches for it are code, so that it
writes nothing of the guest's and the visit goes unseen (`round_trip`).
-/
import Unitrans.Links
import Unitrans.Invoked

namespace Unitrans

open X86 FirstArrival Except

variable {L : Layout} {img : Mem} {s₀ s t s' : State}

/-! ## The rest of the iteration -/

/-- The rest of an iteration keeps what the exits lead to. -/
structure KeepsSites (L : Layout) (s s' : State) : Prop where
  sites : s'.sites = s.sites
  patchArray : s'.patchArray = s.patchArray
  slots : s'.log.slots = s.log.slots
  index : s'.index = s.index
  sieveCodePtr : (s.sieveCodePtr - L.sieveBuffer).toNat ≤ DEFAULT_SIEVE_BUFFER_SIZE →
    (s'.sieveCodePtr - L.sieveBuffer).toNat ≤ DEFAULT_SIEVE_BUFFER_SIZE

theorem KeepsSites.trans (h₁ : KeepsSites L s t) (h₂ : KeepsSites L t s') : KeepsSites L s s' :=
  ⟨h₂.sites.trans h₁.sites, h₂.patchArray.trans h₁.patchArray, h₂.slots.trans h₁.slots, h₂.index.trans h₁.index,
    fun h => h₂.sieveCodePtr (h₁.sieveCodePtr h)⟩

theorem KeepsSites.st32 (s : State) (a w : Word) : KeepsSites L s (s.st32 a w) := ⟨rfl, rfl, rfl, rfl, id⟩

theorem offset_add {a p : Word} {n N : Nat} (h : (p - a).toNat + n ≤ N) (hN : N < 2 ^ 32) :
    (p + BitVec.ofNat 32 n - a).toNat ≤ N := by
  have hsplit : p + BitVec.ofNat 32 n - a = (p - a) + BitVec.ofNat 32 n := by ring
  rw [hsplit, BitVec.toNat_add, BitVec.toNat_ofNat, Nat.mod_eq_of_lt (show n < 2 ^ 32 by omega), Nat.mod_eq_of_lt (by omega)]
  exact h

theorem addSieveEntry_sites (s : State) (i : Nat) (ty : Word) : (s.addSieveEntry L i ty).Ensures (KeepsSites L s) := by
  have hrest : (s.addSieveEntry L i ty).Ensures fun s' => s'.tbs = s.tbs ∧ s'.patchArray = s.patchArray ∧ s'.log = s.log ∧
      ((s.sieveCodePtr - L.sieveBuffer).toNat ≤ DEFAULT_SIEVE_BUFFER_SIZE →
        (s'.sieveCodePtr - L.sieveBuffer).toNat ≤ DEFAULT_SIEVE_BUFFER_SIZE) := by
    have hstay : ∀ (i a w : Word) (bs : List Byte), (((s.incSieveStat i).st32 a w).emitSieve bs).tbs = s.tbs ∧
        (((s.incSieveStat i).st32 a w).emitSieve bs).patchArray = s.patchArray ∧
        (((s.incSieveStat i).st32 a w).emitSieve bs).log = s.log := fun _ _ _ _ => by
      cases s
      exact ⟨rfl, rfl, rfl⟩
    simp only [State.addSieveEntry, ensures_bind, ensures_ite, ensures_pure, cemitSieveNode_eq]
    intro b _
    refine ⟨fun _ => by simp, fun _ u hcheck => ⟨(hstay ..).1, (hstay ..).2.1, (hstay ..).2.2, fun hroom => ?_⟩⟩
    have hptr : ∀ (i a w : Word), ((s.incSieveStat i).st32 a w).sieveCodePtr = s.sieveCodePtr := fun _ _ _ => rfl
    rw [State.sieveCodePtr_emitSieve, length_sieveNodeBytes, hptr] at hcheck ⊢
    exact offset_add (sieve_fit hroom hcheck) (by decide)
  intro s' hs'
  obtain ⟨htbs, ha, hl, hp⟩ := hrest s' hs'
  exact ⟨by rw [State.sites, htbs, State.sites], ha, by rw [hl], addSieveEntry_index s i ty s' hs', hp⟩

theorem handleInd_sites (s : State) (prev : Word) (tb : Nat) :
    (s.handleInd L prev tb).Ensures fun r => KeepsSites L s r.2 := by
  have hrefl : KeepsSites L s s := ⟨rfl, rfl, rfl, rfl, id⟩
  have hinc : ∀ (t : State) (i : Nat), KeepsSites L t (t.updTb i (·.incJmpIndIndex)) := fun t i =>
    ⟨sites_updTb _ _ (fun _ => ⟨rfl, rfl, rfl⟩) fun _ => rfl, rfl, rfl, State.index_updTb fun _ => rfl, id⟩
  unfold State.handleInd
  rw [ensures_ite, ensures_ok]
  refine ⟨fun _ => ?_, fun _ => hrefl⟩
  rw [ensures_ite]
  refine ⟨fun _ => ?_, fun _ => ?_⟩
  · simp only [ensures_bind, ensures_pure]
    exact (addSieveEntry_sites s tb _).mono fun s₁ h₁ => h₁.trans (.st32 ..)
  · simp only [State.patchIndOpt, State.patchJmpTarget, ensures_bind, ensures_ite, ensures_pure]
    refine fun i _ b _ => ⟨fun _ c _ d _ => ?_, fun _ => ?_⟩
    · exact ((KeepsSites.st32 s _ _).trans (.st32 ..)).trans (hinc _ _)
    · rw [State.indPatchSieve, cemitSieveNopush_eq]
      exact ⟨rfl, rfl, rfl, by simp, id⟩

theorem linkTb_sites (s : State) (prev : Word) (tb : Nat) : (s.linkTb L prev tb).Ensures (KeepsSites L s) := by
  unfold State.linkTb
  rw [ensures_ite, ensures_ok]
  refine ⟨fun _ => ?_, fun _ => ⟨rfl, rfl, rfl, rfl, id⟩⟩
  simp only [State.tbAddJump, State.tbSetJmpTarget, ensures_bind, ensures_pure]
  intro i _ b _ c _
  exact ⟨sites_updTb _ _ (fun _ => ⟨rfl, rfl, rfl⟩) fun _ => rfl, rfl, rfl, State.index_updTb fun _ => rfl, id⟩

/-! ## Runs -/

/-- The blocks, slots and destinations of direct branches. -/
abbrev Stubs := Set (Nat × Word × Word)

/-- The exit is one there is: of a direct branch translated so far, of a block with an inline chain, or of the sieve. -/
def Exit.Of (s : State) (E : Stubs) : Exit → Prop
  | .stub _ tb n dest => (tb, n, dest) ∈ E
  | .chain _ tb indType => ∃ b, s.tbs[tb]? = some b ∧ b.type = indType
  | .sieve => True

/-- What an exit leaves in `env`. -/
def Exit.Leaves (L : Layout) (m : Mem) : Exit → Prop
  | .stub _ tb n dest => tb < codeGenMaxBlocks ∧ m.ld32 L.eip = dest ∧ m.ld32 L.patchNum = n ∧ m.ld32 L.indType = NOT_IND
  | .chain _ tb indType => tb < codeGenMaxBlocks ∧ indType ≠ NOT_IND ∧ m.ld32 L.indType = indType
  | .sieve => True

theorem AtExit.leavesIn {e : Exit} {c : Cpu} (h : AtExit L e c) : e.Leaves L (e.mem L c) := by
  obtain ⟨heip, -, hkind⟩ := Exit.mem_fields h
  cases e with
  | stub p tb n dest => exact ⟨h.valid, heip, hkind.1, hkind.2⟩
  | chain p tb indType =>
    refine ⟨h.valid.1, ?_, hkind⟩
    rcases h.valid.2 with rfl | rfl <;> decide
  | sieve => trivial

/-- A run of `cpu_exec`: the state after an iteration, with the direct branches translated so far. The guest
then runs, whatever it writes, until it takes one of the exits. -/
inductive Visited (L : Layout) : State → Stubs → Prop
  | first {s s₁ s' img ds} : Booted L s → s.codecachePrologueInit L = .ok s₁ → ShortInsns img →
      s₁.cpuExecIter L img ds 0 = .ok s' → Visited L s' {x | x ∈ s'.stubs}
  | next {s s' E m img ds} (e : Exit) : Visited L s E → e.Of s E → e.Leaves L m → ShortInsns img →
      (s.withMem m).cpuExecIter L img ds (e.retTb L) = .ok s' → Visited L s' (E ∪ {x | x ∈ s'.stubs})

/-- What a run keeps. -/
structure VisitOk (L : Layout) (s : State) (E : Stubs) : Prop where
  reach : DispatchReach L s
  tbOk : TbOk s
  sieve : (s.sieveCodePtr - L.sieveBuffer).toNat ≤ DEFAULT_SIEVE_BUFFER_SIZE
  chained : Chained L s
  last : StubsOk L s
  stubs : ∀ x ∈ E, StubOk L s x.1 x.2.1 x.2.2

theorem VisitOk.room {E : Stubs} (h : VisitOk L s E) : HasRoom L s := ⟨h.reach.settled.room, h.sieve⟩

theorem VisitOk.withMem {E : Stubs} (h : VisitOk L s E) (m : Mem) : VisitOk L (s.withMem m) E :=
  ⟨.run h.reach, h.tbOk.congr rfl, h.sieve, h.chained.congr rfl, fun x hx => (h.last x hx).congr rfl,
    fun x hx => (h.stubs x hx).congr rfl⟩

/-- The block an address has is the one the tables know for it. -/
theorem TbOk.lookup (h : TbOk s) {i : Nat} {b : TranslationBlock} (hb : s.tbs[i]? = some b) :
    s.index.lookup b.pc = some i := by
  have hsig : s.index.sigs[i]? = some b.sig := by
    show (s.tbs.map (·.sig))[i]? = _
    rw [List.getElem?_map, hb]
    rfl
  refine HashChain.latest_of_unique hsig (by simp [TranslationBlock.sig]) fun j g hg hp => ?_
  have hg : (s.tbs.map (·.sig))[j]? = some g := hg
  rw [List.getElem?_map, Option.map_eq_some_iff] at hg
  obtain ⟨c, hc, rfl⟩ := hg
  exact h.unique.eq hc hb (of_decide_eq_true hp)

/-- The exit a run takes leaves `cpu_exec` with a block it can patch. -/
theorem VisitOk.leftFrom {E : Stubs} {e : Exit} {m : Mem} (h : VisitOk L s E) (he : e.Of s E) (hl : e.Leaves L m) :
    LeftFrom L (s.withMem m) (e.retTb L) := by
  cases e with
  | stub p tb n dest =>
    obtain ⟨hlt, heip, hn, hind⟩ := hl
    have hat : blockAt L (L.tbPtr tb) = tb := blockAt_tbPtr hlt
    have hst : StubOk L s tb n dest := h.stubs _ he
    rcases hst with ⟨b, hb, hpc⟩ | ⟨b, hb, ht, hspan⟩
    · refine Or.inr (Or.inr ⟨hind, ?_⟩)
      show s.index.lookup (m.ld32 L.eip) = some (blockAt L (L.tbPtr tb))
      rw [hat, heip, ← hpc]
      exact h.tbOk.lookup hb
    · refine Or.inr (Or.inl ?_)
      show Sited L (s.withMem m) (blockAt L (L.tbPtr tb))
      rw [hat]
      refine ⟨b, hb, ht, ?_⟩
      show if m.ld32 L.indType = NOT_IND then Span (b.tcPtr + (b.tbJmpOffset (m.ld32 L.patchNum).toNat).setWidth 32) 4 ⊆ _
        else _
      rw [if_pos hind, hn]
      exact hspan
  | chain p tb indType =>
    obtain ⟨hlt, hty, hind⟩ := hl
    obtain ⟨b, hb, htype⟩ := he
    obtain ⟨ht, hchain⟩ := h.chained tb b hb (htype ▸ hty)
    refine Or.inr (Or.inl ?_)
    show Sited L (s.withMem m) (blockAt L (L.tbPtr tb))
    rw [blockAt_tbPtr hlt]
    refine ⟨b, hb, ht, ?_⟩
    show if m.ld32 L.indType = NOT_IND then _ else _
    rw [if_neg (hind ▸ hty)]
    split
    · rename_i hi
      exact ⟨hchain.src _ hi, hchain.dest _ hi⟩
    · exact hchain.enter
  | sieve => exact Or.inl rfl

/-- The branches of before are still as `cpu_exec` expects them. -/
theorem StubOk.wrote {tb : Nat} {n dest : Word} (h : StubOk L s tb n dest) (hw : Wrote L s s') (hp : SamePcs s s') :
    StubOk L s' tb n dest := by
  rcases h with ⟨b, hb, hpc⟩ | ⟨b, hb, ht, hspan⟩
  · obtain ⟨c, hc, hpc'⟩ := hp tb b hb
    exact Or.inl ⟨c, hc, hpc'.trans hpc⟩
  · obtain ⟨c, hc, hl⟩ := State.linksAt_eq_some (hw.links tb b hb ht)
    simp only [TranslationBlock.links, Prod.mk.injEq] at hl
    obtain ⟨-, htc, hoff, -⟩ := hl
    exact Or.inr ⟨c, hc, htc ▸ ht, by rw [htc, hoff]; exact hspan⟩

/-- One iteration. -/
theorem VisitOk.iter {E : Stubs} {ds : Decode} {prev : Word} (h : VisitOk L s E) (hi : ShortInsns img) :
    (s.cpuExecIter L img ds prev).Ensures fun s' => VisitOk L s' (E ∪ {x | x ∈ s'.stubs}) := by
  intro s' hs'
  have hreach : DispatchReach L s' := h.reach.cpuExecIter hs'
  revert hs'
  suffices hrest : (s.cpuExecIter L img ds prev).Ensures fun s' => TbOk s' ∧
      (s'.sieveCodePtr - L.sieveBuffer).toNat ≤ DEFAULT_SIEVE_BUFFER_SIZE ∧ Chained L s' ∧ StubsOk L s' ∧
        ∀ x ∈ E, StubOk L s' x.1 x.2.1 x.2.2 by
    intro hs'
    obtain ⟨htb, hsieve, hch, hst, hold⟩ := hrest s' hs'
    exact ⟨hreach, htb, hsieve, hch, hst, fun x hx => hx.elim (hold x) (hst x)⟩
  simp only [State.cpuExecIter, ensures_bind, ensures_pure]
  intro p hp
  have hok := getNextTb_ok h.tbOk ds _ _ _ hp
  have hw : Wrote L s p.2 := getNextTb_wrote h.room hi _ _ _ hp
  have ht : Translates L s p.2 := getNextTb_translates h.room hi h.chained h.last _ hp
  obtain ⟨tb, s₁⟩ := p
  refine (handleInd_sites s₁ prev tb).mono fun q h₂ => ?_
  obtain ⟨prev', s₂⟩ := q
  refine (linkTb_sites s₂ prev' tb).mono fun s₃ h₃ b _ => ?_
  have hk : KeepsSites L s₁ (s₃.clearEnv L b) :=
    (h₂.trans h₃).trans (((KeepsSites.st32 s₃ _ _).trans (.st32 ..)).trans (.st32 ..))
  have hst : StubsOk L (s₃.clearEnv L b) := fun x hx => by
    refine (ht.stubs x ?_).congr hk.sites
    rw [State.stubs, hk.patchArray, hk.slots] at hx
    exact hx
  exact ⟨hok.congr hk.index, hk.sieveCodePtr hw.sieveCodePtr, ht.chained.congr (cores_of_sites hk.sites), hst,
    fun x hx => ((h.stubs x hx).wrote hw ht.pcs).congr hk.sites⟩

theorem State.mem_withNewTb (s : State) (pc f : Word) : (s.withNewTb pc f).mem = s.mem := rfl

theorem codecachePrologueInit_mem (h : s.codecachePrologueInit L = .ok s') : s'.mem = prologueMem L s.mem := by
  obtain ⟨eip, rfl, -⟩ := codecachePrologueInit_spec s _ h
  rw [State.mem_withNewTb, cachePrologue_eq]

theorem visitOk_first (hb : Booted L s) (h : s.codecachePrologueInit L = .ok s') : VisitOk L s' ∅ := by
  have hreach : DispatchReach L s' := .codecachePrologueInit hb h
  have htb : TbOk s' := codecachePrologueInit_ok hb _ h
  obtain ⟨eip, rfl, -⟩ := codecachePrologueInit_spec s _ h
  obtain ⟨t, ht, htbs, hptr, hpatches⟩ : ∃ t, t = s.cachePrologue L ∧ t.tbs = [] ∧ t.sieveCodePtr = L.sieveBuffer + 16 ∧
      t.patchArray = [] := ⟨_, rfl, by rw [cachePrologue_eq, hb.tbs], by rw [cachePrologue_eq], by
        rw [cachePrologue_eq, hb.patchArray]⟩
  rw [← ht] at hreach htb ⊢
  refine ⟨hreach, htb, ?_, fun i b hi hty => ?_, fun x hx => ?_, fun x hx => absurd hx (Set.notMem_empty x)⟩
  · have hoff : (t.withNewTb eip eip).sieveCodePtr - L.sieveBuffer = 16 := by
      show t.sieveCodePtr - L.sieveBuffer = 16
      rw [hptr]
      ring
    rw [hoff]
    decide
  · have hi : (t.tbs ++ [newTb t eip eip])[i]? = some b := hi
    rw [htbs, List.nil_append, List.getElem?_singleton] at hi
    split at hi
    · obtain rfl := Option.some.inj hi
      exact absurd rfl hty
    · cases hi
  · have hx : x ∈ (t.patchArray.zip (t.log.slots.drop (t.log.slots.length - t.patchArray.length))).map fun p =>
        (p.1.tb, p.2, p.1.dest) := hx
    rw [hpatches] at hx
    cases hx

theorem Visited.ok {E : Stubs} (h : Visited L s E) : VisitOk L s E := by
  induction h with
  | first hb hc hi hs => simpa using (visitOk_first hb hc).iter hi _ hs
  | next e _ _ _ hi hs ih => exact (ih.withMem _).iter hi _ hs

/-! ## A visit -/

/-- What an exit left for `cpu_exec` is there when it returns. -/
theorem AtExit.leavesFor {e : Exit} {c c' : Cpu} (h : AtExit L e c)
    (hm : ∀ x, x ∉ Span L.env 32 → x ∈ Span L.env sizeofEnv → c'.mem x = e.mem L c x) : e.Leaves L c'.mem := by
  have hfield : ∀ {i : Nat}, 32 ≤ i → i + 4 ≤ sizeofEnv → c'.mem.ld32 (L.field i) = (e.mem L c).ld32 (L.field i) :=
    fun {i} h₁ h₂ => Mem.ld32_congr fun x hx => hm x (fun he => by
      have hd := L.disjoint_field (i := 0) (k := 32) (j := i) (l := 4) (by omega) (by decide) h₂
      rw [Layout.field, BitVec.add_zero] at hd
      exact Set.disjoint_left.mp hd he hx) (L.field_subset h₂ hx)
  have heip : c'.mem.ld32 L.eip = (e.mem L c).ld32 L.eip := hfield (i := 32) (by decide) (by decide)
  have hnum : c'.mem.ld32 L.patchNum = (e.mem L c).ld32 L.patchNum := hfield (i := 64) (by decide) (by decide)
  have hind : c'.mem.ld32 L.indType = (e.mem L c).ld32 L.indType := hfield (i := 1840212) (by decide) (by decide)
  have hleaves := h.leavesIn
  cases e with
  | stub p tb n dest =>
    obtain ⟨hlt, h₁, h₂, h₃⟩ := hleaves
    exact ⟨hlt, heip.trans h₁, hnum.trans h₂, hind.trans h₃⟩
  | chain p tb indType =>
    obtain ⟨hlt, hty, h₁⟩ := hleaves
    exact ⟨hlt, hty, hind.trans h₁⟩
  | sieve => trivial

/-- The guest cannot tell a visit to the dispatcher: from the first entry on, and from whichever exit of a block
it takes in whichever state of a run, it is in the code cache again with the registers, the flags and the memory
it had, once the word below its stack is left out. -/
theorem round_trip (L : Layout) :
    (∀ (s s₁ s' : State) (img : Mem) (ds : Decode), Booted L s → s.codecachePrologueInit L = .ok s₁ → ShortInsns img →
      Disjoint (Span (envRegs L s.mem .esp - 4) 4) L.emu → s₁.cpuExecIter L img ds 0 = .ok s' →
        Unseen L (envRegs L s.mem) (s.mem.ld32 (envRegs L s.mem .esp - 4)) s.mem s'.mem) ∧
    ∀ (s : State) (E : Stubs), Visited L s E → ∀ (e : Exit) (c : Cpu), e.Of s E → AtExit L e c →
      Disjoint (Span (e.regs c .esp - 4) 4) L.emu →
        ∃ c', Leaves L c c' ∧ e.Leaves L c'.mem ∧ c'.regs .eax = e.retTb L ∧
          ∀ (img : Mem) (ds : Decode) (s' : State), ShortInsns img →
            (s.withMem c'.mem).cpuExecIter L img ds (c'.regs .eax) = .ok s' →
              Unseen L (e.regs c) c.eflags c.mem s'.mem := by
  constructor
  · intro s s₁ s' img ds hb hc hi hf hs
    have hok := visitOk_first hb hc
    have hsame := cpuExecIter_frame hok.room hok.tbOk.tables hi (Or.inl rfl) _ hs
    rw [codecachePrologueInit_mem hc] at hsame
    exact unseen_first hf hsame
  · intro s E hv e c he hc hf
    obtain ⟨c', hleaves, heax, -, -, henv⟩ := hc.leaves hf
    have hleft : e.Leaves L c'.mem := hc.leavesFor henv
    refine ⟨c', hleaves, hleft, heax, fun img ds s' hi hs => hc.unseen hf hleaves ?_⟩
    have hok : VisitOk L (s.withMem c'.mem) E := hv.ok.withMem _
    rw [heax] at hs
    exact cpuExecIter_frame hok.room hok.tbOk.tables hi (hv.ok.leftFrom he hleft) _ hs

/-- Guest code that is `ret` throughout. -/
def retCode : Mem := fun _ => 0xc3

theorem simpleDisasInsn_retCode {ds r : Decode} {pc : Word} {ok : Bool} (h : simpleDisasInsn retCode ds pc = some (r, ok)) :
    r.emitfn = .fn .ret ∧ r.decodeEip = pc + 1 := by
  obtain ⟨ps, F, hp, hat, -, hl, hF, hdec⟩ := exists_decoded h
  have hps : ps = [] := by
    cases ps with
    | nil => rfl
    | cons p ps =>
      have hbyte : p = 0xc3 := (hat 0 (by simp)).symm
      have hpre := hp p (by simp)
      rw [hbyte] at hpre
      exact absurd hpre (by decide)
  subst hps
  have hrow : TableId.nopbyte0.row 0xc3 = ⟨0xc3, .fn .ret, 10485760⟩ := rfl
  have hc3 : fetch retCode (pc + BitVec.ofNat 32 ([] : List Byte).length) = fun _ => 0xc3 := rfl
  rw [hc3] at hF hdec
  have hF' : found (fun _ => 0xc3) = some ⟨⟨0xc3, .fn .ret, 10485760⟩, 10485760, 1, none, 0xc3⟩ := by
    simp [found, foundAt, groupFound, hrow, has, DF_TABLE, DF_FLOAT, DF_MODRM, DF_GROUP]
  obtain rfl := Option.some.inj (hF.symm.trans hF')
  exact ⟨hdec.emitfn, hdec.decodeEip⟩

theorem shortInsns_retCode : ShortInsns retCode := by
  intro ds pc r ok h
  rw [(simpleDisasInsn_retCode h).2]
  have h1 : pc + 1 - pc = 1 := by ring
  refine ⟨fun h => ?_, by rw [h1]; decide⟩
  rw [h, sub_self] at h1
  exact absurd h1 (by decide)

theorem exists_simpleDisasInsn_retCode (ds : Decode) (pc : Word) : ∃ r ok, simpleDisasInsn retCode ds pc = some (r, ok) := by
  have hrow : TableId.nopbyte0.row 0xc3 = ⟨0xc3, .fn .ret, 10485760⟩ := rfl
  have hF : found (fetch retCode (pc + BitVec.ofNat 32 ([] : List Byte).length)) =
      some ⟨⟨0xc3, .fn .ret, 10485760⟩, 10485760, 1, none, 0xc3⟩ := by
    have hc3 : fetch retCode (pc + BitVec.ofNat 32 ([] : List Byte).length) = fun _ => 0xc3 := rfl
    rw [hc3]
    simp [found, foundAt, groupFound, hrow, has, DF_TABLE, DF_FLOAT, DF_MODRM, DF_GROUP]
  have hn : ¬ isPrefix (retCode (pc + BitVec.ofNat 32 ([] : List Byte).length)) := by
    show ¬ isPrefix 0xc3
    decide
  obtain ⟨r, ok, hr, -⟩ := simpleDisasInsn_eq ds (by simp) Mem.At.nil hn (by simp) hF
  exact ⟨r, ok, hr⟩

/-- A block that starts with `ret` is translated. -/
theorem cpuGenCode_ret {ds r : Decode} {tb : Nat} {b : TranslationBlock} {ok : Bool} (hb : s.tbs[tb]? = some b)
    (hptr : s.codeGenPtr = L.codeGenBuffer) (hstb : s.stbs.length + 1 < STB_MAX)
    (hr : simpleDisasInsn img ds b.pc = some (r, ok)) (hfn : r.emitfn = .fn .ret) :
    ∃ s', s.cpuGenCode L img ds tb = .ok s' := by
  let b' := b.setTcPtr s.codeGenPtr
  have hb' : (s.placed tb).tb tb = .ok b' := by simp [State.placed, State.tb, State.updTb, hb, b']
  let u := ((s.placed tb).beginSuperblock b' tb).beginInsn r ok
  have hcur : u.tb tb = .ok b' := hb'
  have hfull : abortIf (((s.placed tb).beginSuperblock b' tb).stbs.length ≥ STB_MAX) "stb count overflow\n" = .ok () := by
    have hlen : ((s.placed tb).beginSuperblock b' tb).stbs.length = s.stbs.length + 1 := by
      simp [State.beginSuperblock, State.placed, State.updTb]
    rw [abortIf, hlen, if_neg (by simpa using hstb)]
  let bs := [0xff, 0x25] ++ le32 (RET_HASH_FUNC L.retHashTable b'.funcAddr)
  have hoff : ((u.emit bs).codePtr - L.codeGenBuffer) = 6 := by
    have hu : u.codePtr = L.codeGenBuffer := hptr
    have hlen : bs.length = 6 := by simp [bs]
    simp only [State.emit, hlen, hu]
    have h6 : L.codeGenBuffer + BitVec.ofNat 32 6 - L.codeGenBuffer = BitVec.ofNat 32 6 := by ring
    exact h6
  have hinsn : ((s.placed tb).beginSuperblock b' tb).genInsn L img .target ds =
      .ok (r, false, (u.emit bs).updTb (State.GenLoop.target.who (u.emit bs)) (·.incInsnCount)) := by
    have hpc : ((s.placed tb).beginSuperblock b' tb).pcPtr = b.pc := rfl
    have haddr : abortIf (has r.opstate OPSTATE_ADDR16) "error: OPSTATE_ADDR16\n" = .ok () := by
      rw [abortIf, if_neg (not_addr16 _)]
    have hret : u.callEmitfn L img r = .ok (false, u.emit bs) := by
      have hcur' : u.tb u.curTb = .ok b' := hcur
      simp only [State.callEmitfn, hfn, State.emitRet, State.cemitJmpRetCache, hcur', ok_bind]
      rfl
    have hroom : (u.emit bs).checkCode L = .ok () := by
      rw [State.checkCode, hoff, if_neg (by decide)]
    simp only [State.genInsn, hpc, hr, haddr, ok_bind, show ((s.placed tb).beginSuperblock b' tb).beginInsn r ok = u from rfl,
      hret, hroom]
    rfl
  have hloop : ((s.placed tb).beginSuperblock b' tb).genInsns L img .target MAX_INSNS ds =
      .ok ((u.emit bs).updTb (State.GenLoop.target.who (u.emit bs)) (·.incInsnCount)) := by
    have hmax : MAX_INSNS = (MAX_INSNS - 1) + 1 := rfl
    rw [hmax, State.genInsns, hinsn]
    rfl
  obtain ⟨v, hv, hoffv, hpatches⟩ : ∃ v, v = (u.emit bs).updTb (State.GenLoop.target.who (u.emit bs)) (·.incInsnCount) ∧
      v.codePtr - L.codeGenBuffer = 6 ∧ v.patchArray = [] := ⟨_, rfl, hoff, rfl⟩
  rw [← hv] at hloop
  have hpatch : (v.setPcEnd (s.placed tb).stbs.length).lazyPatch L = .ok (v.setPcEnd (s.placed tb).stbs.length) := by
    have hnone : (v.setPcEnd (s.placed tb).stbs.length).patchArray = [] := hpatches
    rw [State.lazyPatch, hnone]
    rfl
  have hroom : abortIf (BitVec.slt (BitVec.ofNat 32 DEFAULT_CODE_GEN_BUFFER_SIZE)
      ((v.setPcEnd (s.placed tb).stbs.length).setCodeGenPtr.codeGenPtr - L.codeGenBuffer)) "code_buffer overflow\n" = .ok () := by
    have hoff' : (v.setPcEnd (s.placed tb).stbs.length).setCodeGenPtr.codeGenPtr - L.codeGenBuffer = 6 := hoffv
    rw [abortIf, hoff', if_neg (by decide)]
  have hplaced : s.cpuGenCode L img ds tb = (s.placed tb).genSuperblock L img .target ds tb := rfl
  rw [hplaced]
  simp only [State.genSuperblock, hb', ok_bind, hfull, hloop, hpatch, hroom]
  exact ⟨_, rfl⟩

/-- The first block, before anything is translated. -/
theorem codecachePrologueInit_first (hb : Booted L s) (h : s.codecachePrologueInit L = .ok s') :
    ∃ b, s'.tbs = [b] ∧ b.pc = s'.mem.ld32 L.eip ∧ b.tcPtr = NOT_TRANS_YET ∧ s'.codeGenPtr = L.codeGenBuffer ∧ s'.stbs = [] ∧
      s'.sieveCodePtr = L.sieveBuffer + 16 := by
  obtain ⟨t, ht, htbs, hptr, hstbs, hsieve⟩ : ∃ t, t = s.cachePrologue L ∧ t.tbs = [] ∧ t.codeGenPtr = L.codeGenBuffer ∧
      t.stbs = [] ∧ t.sieveCodePtr = L.sieveBuffer + 16 := ⟨_, rfl, by rw [cachePrologue_eq, hb.tbs], by
        rw [cachePrologue_eq, hb.codeGenPtr], by rw [cachePrologue_eq, hb.stbs], by rw [cachePrologue_eq]⟩
  suffices hm : (s.codecachePrologueInit L).Ensures fun s' => ∃ b, s'.tbs = [b] ∧ b.pc = s'.mem.ld32 L.eip ∧
      b.tcPtr = NOT_TRANS_YET ∧ s'.codeGenPtr = L.codeGenBuffer ∧ s'.stbs = [] ∧ s'.sieveCodePtr = L.sieveBuffer + 16 from hm _ h
  simp only [State.codecachePrologueInit, ← ht, ensures_bind, ensures_pure]
  refine makeTb_spec.mono fun p hp => ?_
  obtain ⟨i, u⟩ := p
  obtain ⟨-, rfl⟩ := hp
  refine ⟨newTb t (t.mem.ld32 L.eip) (t.mem.ld32 L.eip), ?_, rfl, rfl, hptr, hstbs, hsieve⟩
  show t.tbs ++ [_] = _
  rw [htbs, List.nil_append]

/-- The first iteration for a guest that starts with `ret`. -/
theorem cpuExecIter_ret (hb : Booted L s) (h : s.codecachePrologueInit L = .ok s') :
    ∃ s₁, s'.cpuExecIter L retCode .zero 0 = .ok s₁ := by
  have hok := visitOk_first hb h
  have hmem := codecachePrologueInit_mem h
  obtain ⟨b, hget, hpc, htc, hptr, hstbs, -⟩ := codecachePrologueInit_first hb h
  have hget : s'.tbs[0]? = some b := by
    rw [hget]
    rfl
  have hind : s'.mem.ld32 L.indType = NOT_IND := by
    rw [hmem]
    exact (ld32_prologueMem s.mem (k := 1840212) (by decide)).trans hb.indType
  have hlook : s'.index.lookup (s'.mem.ld32 L.eip) = some 0 := hpc ▸ hok.tbOk.lookup hget
  obtain ⟨c, hfind, -⟩ := tbFindFast_spec hok.tbOk.tables (s'.mem.ld32 L.eip)
  obtain ⟨r, ok, hr⟩ := exists_simpleDisasInsn_retCode .zero b.pc
  obtain ⟨u, hu⟩ : ∃ u, (s'.withCache c).cpuGenCode L retCode .zero 0 = .ok u :=
    cpuGenCode_ret (b := b) hget hptr (by
      show s'.stbs.length + 1 < STB_MAX
      rw [hstbs]
      decide) hr (simpleDisasInsn_retCode hr).1
  have htb : (s'.withCache c).tb 0 = .ok b := by
    have hget' : (s'.withCache c).tbs[0]? = some b := hget
    rw [State.tb, hget']
  have hnext : s'.getNextTb L retCode .zero (s'.mem.ld32 L.eip) 0 = .ok (0, u) := by
    simp only [State.getNextTb, show NORMAL_TB_TAG = 0 from rfl, hfind, hlook, ok_bind, htb, htc, if_true, hu]
    rfl
  have hw : Wrote L s' u := getNextTb_wrote hok.room shortInsns_retCode _ _ _ hnext
  have hindu : u.mem.ld32 L.indType = NOT_IND := (hw.ld32_env L.indType_subset).trans hind
  obtain ⟨b', hb', -⟩ := (getNextTb_translates hok.room shortInsns_retCode hok.chained hok.last _ hnext).pcs 0 b hget
  have hb' : u.tb 0 = .ok b' := by rw [State.tb, hb']
  have hhandle : u.handleInd L 0 0 = .ok (0, u) := by
    rw [State.handleInd, if_neg (not_not.mpr hindu)]
  have hlink : u.linkTb L 0 0 = .ok u := by
    rw [State.linkTb, if_neg (by simp)]
  refine ⟨u.clearEnv L b', ?_⟩
  simp only [State.cpuExecIter, hnext, ok_bind, hhandle, hlink, hb']
  rfl

/-- The sieve's exit, `env` zero. -/
def sampleExit : Cpu :=
  { regs := fun _ => 0x70000000, eflags := 2, eip := sieveExit .sample, segBase := fun _ => 0, undefAF := false
    mem := prologueMem .sample fun _ => 0 }

theorem atExit_sampleExit : AtExit .sample .sieve sampleExit := by
  have hmem : sampleExit.mem = prologueMem .sample fun _ => 0 := by rw [sampleExit]
  have hcache : CacheCode .sample sampleExit.mem := by
    rw [hmem]
    exact cacheCode_prologueMem _
  refine ⟨trivial, rfl, hcache.exit, ?_, hcache, ?_, ?_⟩
  · simp only [Exit.bytes, length_sieveExitBytes]
    exact prologue_subset (by decide)
  · rw [hmem]
    exact (ld32_prologueMem (fun _ => 0) (k := 56) (by decide)).trans rfl
  · rw [hmem]
    exact (ld32_prologueMem (fun _ => 0) (k := 1840212) (by decide)).trans rfl

theorem round_trip_sample : ∃ s s₁ s' E c', Booted .sample s ∧ s.codecachePrologueInit .sample = .ok s₁ ∧
    s₁.cpuExecIter .sample retCode .zero 0 = .ok s' ∧
    Unseen .sample (envRegs .sample s.mem) (s.mem.ld32 (envRegs .sample s.mem .esp - 4)) s.mem s'.mem ∧
    Visited .sample s' E ∧ Leaves .sample sampleExit c' ∧
    ∀ (img : Mem) (ds : Decode) (s₂ : State), ShortInsns img →
      (s'.withMem c'.mem).cpuExecIter .sample img ds (c'.regs .eax) = .ok s₂ →
        Unseen .sample (Exit.sieve.regs sampleExit) sampleExit.eflags sampleExit.mem s₂.mem := by
  obtain ⟨s₁, h₁⟩ := codecachePrologueInit_returns (booted_boot .sample)
  obtain ⟨s', h'⟩ := cpuExecIter_ret (booted_boot .sample) h₁
  have htrip := round_trip .sample
  have hv : Visited .sample s' {x | x ∈ s'.stubs} := .first (booted_boot .sample) h₁ shortInsns_retCode h'
  have hsieve : Exit.sieve.regs sampleExit .esp - 4 = 0x70000004 := by simp [Exit.regs, poppedRegs, sampleExit]
  have hesp : envRegs .sample (State.boot .sample fun _ => 0).mem .esp - 4 = 0xfffffffc := by
    rw [envRegs, show (State.boot .sample fun _ => 0).mem.ld32 (Layout.sample.reg (regIndex .esp)) = 0 from rfl]
    rfl
  obtain ⟨c', hc', -, -, hnext⟩ := htrip.2 s' _ hv .sieve sampleExit trivial atExit_sampleExit (by
    rw [hsieve]
    exact disjoint_emu_sample (by decide) (by decide))
  refine ⟨_, s₁, s', _, c', booted_boot .sample, h₁, h', ?_, hv, hc', hnext⟩
  exact htrip.1 _ s₁ s' retCode .zero (booted_boot .sample) h₁ shortInsns_retCode
    (by
      rw [hesp]
      exact disjoint_emu_sample (by decide) (by decide)) h'

end Unitrans
