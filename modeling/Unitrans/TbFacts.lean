/-
The two hash tables over the blocks refine a finite map from guest addresses:
`tb_find_fast` answers the block made last for an address (`Tables`), by the
cache or by the chain alike. Under the callers' discipline of looking a block
up before making it no address has two blocks (`Unique`).
-/
import Unitrans.CpuExec
import Unitrans.Library.Ensures
import Unitrans.Library.HashChain

namespace Unitrans

open X86 HashChain Except

/-- What the lookup reads of a block. -/
structure Sig where
  pc : Word
  tbTag : Word
  next : Option Nat

def TranslationBlock.sig (b : TranslationBlock) : Sig := ⟨b.pc, b.tbTag, b.physHashNext⟩

def Sig.key (g : Sig) : Word × Word := (g.pc, g.tbTag)

/-- What the lookup reads of a state, with the tags `lazy_patch` will look for. -/
structure Index where
  sigs : List Sig
  heads : Word → Option Nat
  cache : Word → Option Nat
  tags : List Word

def State.index (s : State) : Index :=
  ⟨s.tbs.map (·.sig), s.tbPhysHash, s.tbJmpCache, s.patchArray.map (·.tbTag)⟩

/-- The block made last for `pc`. -/
def Index.lookup (x : Index) (pc : Word) : Option Nat := latest (fun g => g.pc = pc) x.sigs

/-- The tables are the map `lookup`. -/
structure Tables (x : Index) : Prop where
  chained : Chained (fun k : Word × Word => tbPhysHashFunc k.1) Sig.key Sig.next x.heads x.sigs
  tag : ∀ g ∈ x.sigs, g.tbTag = 0
  cache : ∀ h i, x.cache h = some i →
    ∃ g, x.sigs[i]? = some g ∧ tbJmpCacheHashFunc g.pc = h ∧ x.lookup g.pc = some i

/-- At most one block for a guest address. -/
def Unique (x : Index) : Prop := (x.sigs.map (·.pc)).Nodup

/-- An assignment to fields the lookup does not read. -/
def KeepsSig (f : TranslationBlock → TranslationBlock) : Prop := ∀ b, (f b).sig = b.sig

namespace TranslationBlock

@[simp] theorem keepsSig_setTcPtr (p : Word) : KeepsSig (·.setTcPtr p) := fun _ => rfl
@[simp] theorem keepsSig_setPatchNum (n : TranslationBlock → Word) : KeepsSig fun b => b.setPatchNum (n b) :=
  fun _ => rfl
@[simp] theorem keepsSig_setJmpOffset (n : Nat) (o : BitVec 16) : KeepsSig (·.setJmpOffset n o) := fun _ => rfl
@[simp] theorem keepsSig_setSlot (p : Word) (n : Nat) (o : TranslationBlock → BitVec 16) :
    KeepsSig fun b => (b.setPatchNum p).setJmpOffset n (o b) := fun _ => rfl
@[simp] theorem keepsSig_setType (t : Word) : KeepsSig (·.setType t) := fun _ => rfl
@[simp] theorem keepsSig_setJindSrcAddr (i : Nat) (p : Word) : KeepsSig (·.setJindSrcAddr i p) := fun _ => rfl
@[simp] theorem keepsSig_setJindDestAddr (i : Nat) (p : Word) : KeepsSig (·.setJindDestAddr i p) := fun _ => rfl
@[simp] theorem keepsSig_setIndEnterSieve (p : Word) : KeepsSig (·.setIndEnterSieve p) := fun _ => rfl
@[simp] theorem keepsSig_setHcodeSize (n : TranslationBlock → BitVec 16) :
    KeepsSig fun b => b.setHcodeSize (n b) := fun _ => rfl
@[simp] theorem keepsSig_incInsnCount : KeepsSig (·.incInsnCount) := fun _ => rfl
@[simp] theorem keepsSig_incJmpIndIndex : KeepsSig (·.incJmpIndIndex) := fun _ => rfl
@[simp] theorem keepsSig_addJmpFrom (tb : Nat) (n : Word) : KeepsSig (·.addJmpFrom tb n) := fun _ => rfl

end TranslationBlock

@[simp] theorem State.index_updTb {s : State} {i : Nat} {f : TranslationBlock → TranslationBlock}
    (hf : KeepsSig f) : (s.updTb i f).index = s.index := by
  simp only [State.index, State.updTb, Index.mk.injEq, and_self, and_true]
  apply List.ext_getElem?
  intro j
  rw [List.getElem?_map, List.getElem?_map, List.getElem?_modify]
  cases s.tbs[j]? with
  | none => rfl
  | some b =>
    by_cases h : i = j
    · simp [h, hf b]
    · simp [h]

namespace State

variable (s : State)

@[simp] theorem index_tbAddJmpFrom (tb next : Nat) (n : Word) : (s.tbAddJmpFrom tb next n).index = s.index :=
  index_updTb (TranslationBlock.keepsSig_addJmpFrom tb n)

@[simp] theorem index_setCurTb (i : Nat) : (s.setCurTb i).index = s.index := by cases s; rfl
@[simp] theorem index_setCodePtr (p : Word) : (s.setCodePtr p).index = s.index := by cases s; rfl
@[simp] theorem index_setPcEnd (i : Nat) : (s.setPcEnd i).index = s.index := by cases s; rfl
@[simp] theorem index_setCodeGenPtr : s.setCodeGenPtr.index = s.index := by cases s; rfl
@[simp] theorem index_beginInsn (ds : Decode) (ok : Bool) : (s.beginInsn ds ok).index = s.index := by
  cases s; rfl
@[simp] theorem index_beginSuperblock (b : TranslationBlock) (i : Nat) :
    (s.beginSuperblock b i).index = { s.index with tags := [] } := by cases s; rfl
@[simp] theorem index_addPatch (e : PatchEntry) :
    (s.addPatch e).index = { s.index with tags := s.index.tags ++ [e.tbTag] } := by
  cases s; simp [State.index, State.addPatch]
@[simp] theorem index_logRcCmp (p : Word) : (s.logRcCmp p).index = s.index := by cases s; rfl
@[simp] theorem index_logSlot (n : Word) : (s.logSlot n).index = s.index := by cases s; rfl
@[simp] theorem index_incSieveStat (i : Word) : (s.incSieveStat i).index = s.index := by cases s; rfl
@[simp] theorem index_emit (bs : List Byte) : (s.emit bs).index = s.index := by cases s; rfl
@[simp] theorem index_emitSieve (bs : List Byte) : (s.emitSieve bs).index = s.index := by cases s; rfl
@[simp] theorem index_st32 (a w : Word) : (s.st32 a w).index = s.index := by cases s; rfl
@[simp] theorem index_st8 (a : Word) (b : Byte) : (s.st8 a b).index = s.index := by cases s; rfl

theorem index_foldl {α : Type _} {f : State → α → State} (hf : ∀ s a, (f s a).index = s.index) :
    ∀ (l : List α) (s : State), (l.foldl f s).index = s.index
  | [], _ => rfl
  | a :: l, s => by rw [List.foldl_cons, index_foldl hf l, hf]

end State

/-! ## Lookup -/

theorem Tables.withTags {x : Index} (hx : Tables x) (t : List Word) : Tables { x with tags := t } :=
  ⟨hx.chained, hx.tag, hx.cache⟩

theorem Index.lookup_eq_key {x : Index} (hx : Tables x) (pc : Word) :
    latest (fun g : Sig => g.key = (pc, 0)) x.sigs = x.lookup pc := by
  refine latest_congr fun g hg => ?_
  simp [Sig.key, hx.tag g hg]

theorem chain_of_walk {tbs : List TranslationBlock} {pc tag : Word} {r : Option Nat} :
    ∀ {fuel : Nat} {h : Option Nat},
      walk Sig.key Sig.next (tbs.map (·.sig)) (pc, tag) fuel h = some r →
      State.chain tbs pc tag fuel h = .ok r
  | fuel, none, hw => by
    cases fuel <;> simp_all [walk, State.chain]
  | 0, some _, hw => by simp [walk] at hw
  | fuel + 1, some i, hw => by
    simp only [walk, List.getElem?_map] at hw
    simp only [State.chain]
    cases hb : tbs[i]? with
    | none => simp [hb] at hw
    | some b =>
      simp only [hb, Option.map_some, Sig.key, TranslationBlock.sig, Prod.mk.injEq] at hw
      by_cases hk : b.pc = pc ∧ b.tbTag = tag
      · rw [if_pos hk] at hw
        simp only [if_pos hk]
        rw [Option.some.inj hw]
      · rw [if_neg hk] at hw
        simp only [if_neg hk]
        exact chain_of_walk hw

theorem Tables.chain_eq {s : State} (hs : Tables s.index) (pc : Word) :
    State.chain s.tbs pc 0 s.tbs.length (s.tbPhysHash (tbPhysHashFunc pc)) = .ok (s.index.lookup pc) := by
  have h := walk_heads hs.chained (pc, 0)
  rw [Index.lookup_eq_key hs] at h
  exact chain_of_walk (by simpa [State.index] using h)

theorem Tables.lookup_sig {x : Index} {pc : Word} {i : Nat} (h : x.lookup pc = some i) :
    ∃ g, x.sigs[i]? = some g ∧ g.pc = pc := by
  obtain ⟨g, hg, hp⟩ := latest_eq_some h
  exact ⟨g, hg, by simpa using hp⟩

/-- Entering a block found into the cache. -/
theorem Tables.cache_update {x : Index} (hx : Tables x) {pc : Word} {i : Nat} (hl : x.lookup pc = some i) :
    Tables { x with cache := Function.update x.cache (tbJmpCacheHashFunc pc) (some i) } := by
  refine ⟨hx.chained, hx.tag, fun h j hj => ?_⟩
  by_cases hh : h = tbJmpCacheHashFunc pc
  · subst hh
    obtain rfl : i = j := by simpa using hj
    obtain ⟨g, hg, rfl⟩ := Tables.lookup_sig hl
    exact ⟨g, hg, rfl, hl⟩
  · exact hx.cache h j (by simpa [Function.update_of_ne hh] using hj)

/-- `s` but for its cache. -/
def State.withCache (s : State) (c : Word → Option Nat) : State := { s with tbJmpCache := c }

@[simp] theorem State.lookup_withCache (s : State) (c : Word → Option Nat) (pc : Word) :
    (s.withCache c).index.lookup pc = s.index.lookup pc := rfl

/-- A lookup answers what `lookup` says and touches the cache alone. -/
theorem tbFindSlow_spec {s : State} (hs : Tables s.index) (pc : Word) :
    ∃ c, s.tbFindSlow pc 0 = .ok (s.index.lookup pc, s.withCache c) ∧ Tables (s.withCache c).index := by
  simp only [State.tbFindSlow, hs.chain_eq pc]
  cases hl : s.index.lookup pc with
  | none => exact ⟨s.tbJmpCache, rfl, hs⟩
  | some i => exact ⟨_, rfl, hs.cache_update hl⟩

theorem tbFindFast_spec {s : State} (hs : Tables s.index) (pc : Word) :
    ∃ c, s.tbFindFast pc 0 = .ok (s.index.lookup pc, s.withCache c) ∧ Tables (s.withCache c).index := by
  simp only [State.tbFindFast]
  cases hc : s.tbJmpCache (tbJmpCacheHashFunc pc) with
  | none => exact tbFindSlow_spec hs pc
  | some i =>
    obtain ⟨g, hg, -, hl⟩ := hs.cache _ i hc
    obtain ⟨b, hb, rfl⟩ : ∃ b, s.tbs[i]? = some b ∧ b.sig = g := by
      simpa [State.index] using hg
    have htag : b.tbTag = 0 := hs.tag _ (List.mem_of_getElem? hg)
    have hok : s.tb i = .ok b := by simp [State.tb, hb]
    simp only [hok]
    by_cases hpc : b.pc = pc
    · -- a hit: the cache entry is the latest block for its own address
      refine ⟨s.tbJmpCache, ?_, hs⟩
      have : s.index.lookup pc = some i := by rw [← hpc]; exact hl
      rw [this]
      simp [bind, Except.bind, pure, Except.pure, hpc, htag, State.withCache]
    · simpa [bind, Except.bind, hpc] using tbFindSlow_spec hs pc

/-! ## Making a block -/

/-- The block `make_tb` enters. -/
def newTb (s : State) (pc funcAddr : Word) : TranslationBlock :=
  { pc := pc, funcAddr := funcAddr, physHashNext := s.tbPhysHash (tbPhysHashFunc pc) }

/-- The state after `make_tb`. -/
def State.withNewTb (s : State) (pc funcAddr : Word) : State :=
  { s with
    tbs := s.tbs ++ [newTb s pc funcAddr]
    tbPhysHash := Function.update s.tbPhysHash (tbPhysHashFunc pc) (some s.tbs.length)
    tbJmpCache := Function.update s.tbJmpCache (tbJmpCacheHashFunc pc) (some s.tbs.length) }

theorem List.modify_append_last {α : Type _} (l : List α) (a : α) (f : α → α) :
    (l ++ [a]).modify l.length f = l ++ [f a] := by
  induction l with
  | nil => rfl
  | cons b l ih => simp [List.modify_succ_cons, ih]

theorem makeTb_spec {L : Layout} {s : State} {pc funcAddr tag : Word} :
    (s.makeTb L pc funcAddr tag).Ensures fun (tb, s') =>
      tb = s.tbs.length ∧ s' = s.withNewTb pc funcAddr := by
  rw [State.makeTb]
  cases ha : s.tbAlloc L pc with
  | none => simp
  | some p =>
    obtain ⟨tb, s₁⟩ := p
    simp only [State.tbAlloc] at ha
    split at ha
    · cases ha
    · simp only [Option.some.injEq, Prod.mk.injEq] at ha
      obtain ⟨rfl, rfl⟩ := ha
      simp only [ensures_ok, true_and]
      simp only [State.tbLinkPage, State.setJmpCache, State.updTb, List.modify_append_last, State.withNewTb, newTb]

theorem Tables.make {s : State} (hs : Tables s.index) (pc funcAddr : Word) :
    Tables (s.withNewTb pc funcAddr).index := by
  have hlen : s.tbs.length = s.index.sigs.length := by simp [State.index]
  have hsigs : (s.withNewTb pc funcAddr).index.sigs = s.index.sigs ++ [(newTb s pc funcAddr).sig] := by
    simp [State.index, State.withNewTb]
  have hlast : (s.withNewTb pc funcAddr).index.lookup pc = some s.tbs.length := by
    simp [Index.lookup, hsigs, latest_append_singleton, newTb, TranslationBlock.sig, hlen]
  refine ⟨?_, fun g hg => ?_, fun h i hi => ?_⟩
  · have := hs.chained.append (a := (newTb s pc funcAddr).sig) rfl
    rw [hsigs]
    rw [← hlen] at this
    exact this
  · rw [hsigs, List.mem_append, List.mem_singleton] at hg
    rcases hg with hg | rfl
    · exact hs.tag g hg
    · rfl
  · by_cases hh : h = tbJmpCacheHashFunc pc
    · subst hh
      have hi' : s.tbs.length = i := by simpa [State.index, State.withNewTb] using hi
      subst hi'
      exact ⟨(newTb s pc funcAddr).sig, by simp [hsigs, hlen], rfl, hlast⟩
    · have hi' : s.index.cache h = some i := by
        simpa [State.index, State.withNewTb, Function.update_of_ne hh] using hi
      obtain ⟨g, hg, hgh, hl⟩ := hs.cache h i hi'
      refine ⟨g, ?_, hgh, ?_⟩
      · rw [hsigs, List.getElem?_append_left (List.getElem?_eq_some_iff.mp hg).1, hg]
      · -- the new block has another address, its hash being another
        have hne : ¬ (newTb s pc funcAddr).sig.pc = g.pc := fun he => hh (by rw [← hgh, ← he]; rfl)
        rw [Index.lookup, hsigs, latest_append_singleton, if_neg (by simpa using hne)]
        exact hl

theorem Unique.make {s : State} (hs : Unique s.index) {pc : Word} (hn : s.index.lookup pc = none)
    (funcAddr : Word) : Unique (s.withNewTb pc funcAddr).index := by
  have hn' := latest_eq_none.mp hn
  simp only [Unique, State.index, State.withNewTb, List.map_append, List.map_cons, List.map_nil, newTb,
    TranslationBlock.sig] at hs ⊢
  rw [List.nodup_append]
  refine ⟨hs, List.nodup_singleton _, ?_⟩
  intro a ha b hb
  rw [List.mem_singleton] at hb
  subst hb
  intro he
  subst he
  obtain ⟨g, hg, rfl⟩ := List.mem_map.mp ha
  have := hn' g hg
  simp at this

/-! ## Any sequence of calls -/

/-- A call of `make_tb` or of `tb_find_fast`. -/
inductive TbOp
  | make (pc funcAddr tbTag : Word)
  | find (pc : Word)

/-- A call, with the blocks made so far, the last one first. -/
def TbOp.run (L : Layout) : List (Word × Nat) × State → TbOp → Result (List (Word × Nat) × State)
  | (made, s), .make pc funcAddr tbTag => do
    let (tb, s) ← s.makeTb L pc funcAddr tbTag
    return ((pc, tb) :: made, s)
  | (made, s), .find pc => do
    let (_, s) ← s.tbFindFast pc 0
    return (made, s)

def runOps (L : Layout) (s : State) (ops : List TbOp) : Result (List (Word × Nat) × State) :=
  ops.foldlM (TbOp.run L) ([], s)

theorem lookup_withNewTb (s : State) (pc funcAddr pc' : Word) :
    (s.withNewTb pc funcAddr).index.lookup pc' =
      if pc = pc' then some s.tbs.length else s.index.lookup pc' := by
  simp [Index.lookup, State.index, State.withNewTb, latest_append_singleton, newTb, TranslationBlock.sig]

/-- The tables hold what was made: one call. -/
theorem TbOp.run_spec {L : Layout} {p : List (Word × Nat) × State} (ht : Tables p.2.index)
    (hl : ∀ pc, p.2.index.lookup pc = p.1.lookup pc) (op : TbOp) :
    (TbOp.run L p op).Ensures fun p' => Tables p'.2.index ∧ ∀ pc, p'.2.index.lookup pc = p'.1.lookup pc := by
  obtain ⟨made, s⟩ := p
  cases op with
  | make pc funcAddr tbTag =>
    simp only [TbOp.run, ensures_bind, ensures_pure]
    refine makeTb_spec.mono fun p h => ?_
    obtain ⟨tb, s'⟩ := p
    obtain ⟨rfl, rfl⟩ := h
    refine ⟨ht.make pc funcAddr, fun pc' => ?_⟩
    rw [lookup_withNewTb, List.lookup_cons]
    by_cases h : pc' = pc
    · simp [h]
    · rw [if_neg (Ne.symm h), beq_false_of_ne h]
      exact hl pc'
  | find pc =>
    simp only [TbOp.run, ensures_bind, ensures_pure]
    obtain ⟨c, hc, ht'⟩ := tbFindFast_spec ht pc
    rw [hc, ensures_ok]
    exact ⟨ht', hl⟩

theorem tables_empty {x : Index} (hs : x.sigs = []) (hh : x.heads = fun _ => none)
    (hc : x.cache = fun _ => none) : Tables x := by
  refine ⟨?_, ?_, ?_⟩
  · rw [hs, hh]
    exact chained_nil
  · simp [hs]
  · simp [hc]

theorem runOps_spec {L : Layout} {s : State} (ht : s.tbs = []) (hh : s.tbPhysHash = fun _ => none)
    (hc : s.tbJmpCache = fun _ => none) (ops : List TbOp) :
    (runOps L s ops).Ensures fun p => Tables p.2.index ∧ ∀ pc, p.2.index.lookup pc = p.1.lookup pc := by
  let I (p : List (Word × Nat) × State) : Prop :=
    Tables p.2.index ∧ ∀ pc, p.2.index.lookup pc = p.1.lookup pc
  refine Ensures.foldlM (I := I) ?_ fun p op _ h => TbOp.run_spec h.1 h.2 op
  exact ⟨tables_empty (by simp [State.index, ht]) hh hc, fun pc => by simp [Index.lookup, State.index, ht]⟩

end Unitrans
