/-
A node of the statistics tallies the targets of its source: it lists each once,
with the number of times it was seen. That is so as long as there is a place
for each; the target after the last one takes the place of the first.
-/
import Unitrans.IndProf
import Unitrans.Library.Ensures
import Unitrans.Library.Tally
import Mathlib.Data.BitVec

namespace Unitrans

open X86 Tally

/-- A search stops at the first index that passes the test. -/
theorem search_eq (test : Nat → Result Bool) (p : Nat → Bool) : ∀ (n i : Nat),
    (∀ j, i ≤ j → j < i + n → test j = .ok (p j)) →
      ∃ k, search test n i = .ok k ∧ i ≤ k ∧ k ≤ i + n ∧ (∀ j, i ≤ j → j < k → p j = false) ∧ (k < i + n → p k = true)
  | 0, i, _ => ⟨i, rfl, Nat.le_refl _, Nat.le_refl _, fun j _ _ => by omega, fun h => by omega⟩
  | n + 1, i, h => by
    rw [search, h i (Nat.le_refl _) (by omega), Except.ok_bind]
    by_cases hp : p i = true
    · rw [if_pos hp]
      exact ⟨i, rfl, Nat.le_refl _, by omega, fun j _ _ => by omega, fun _ => hp⟩
    · rw [if_neg hp]
      obtain ⟨k, hk, hle, hle', hbefore, hat⟩ := search_eq test p n (i + 1) fun j hj hj' => h j (by omega) (by omega)
      refine ⟨k, hk, by omega, by omega, fun j hj hjk => ?_, fun h => hat (by omega)⟩
      rcases Nat.lt_or_ge i j with hij | hij
      · exact hbefore j hij hjk
      · rw [show j = i by omega]
        exact Bool.eq_false_of_not_eq_true hp

/-! ## One node -/

/-- The node has seen the targets `ts`. -/
structure Tallies (node : StatNode) (ts : List Word) : Prop where
  le : node.tgtCount ≤ STAT_TGT_MAX
  lists : Lists node.tgtAddr node.tgtCount ts
  hit : ∀ i < node.tgtCount, node.tgtAddrHit i = BitVec.ofNat 64 (ts.count (node.tgtAddr i))
  dyn : node.tgtDynCount = BitVec.ofNat 64 ts.length

/-- What the statistics say of the targets of a branch. -/
def SameTargets (node node' : StatNode) : Prop :=
  node'.srcAddr = node.srcAddr ∧ node'.tgtAddr = node.tgtAddr ∧ node'.tgtAddrHit = node.tgtAddrHit ∧
    node'.tgtDynCount = node.tgtDynCount ∧ node'.tgtCount = node.tgtCount

theorem SameTargets.tallies {node node' : StatNode} {ts : List Word} (hs : SameTargets node node') (h : Tallies node ts) :
    Tallies node' ts := by
  obtain ⟨-, h₁, h₂, h₃, h₄⟩ := hs
  obtain ⟨le, lists, hit, dyn⟩ := h
  constructor
  · rwa [h₄]
  · rwa [h₁, h₄]
  · rwa [h₁, h₂, h₄]
  · rwa [h₃]

theorem statTgtRecentTh_spec (tgtAddr : Word) (node : StatNode) (hits : Word) :
    ∃ node', statTgtRecentTh tgtAddr node hits = .ok node' ∧ SameTargets node node' := by
  obtain ⟨i, hi, -, -, -, -⟩ := search_eq (fun i => do return tgtAddr == (← node.tgtRecentAddr.load i))
    (fun i => tgtAddr == node.tgtRecentAddr i) IND_SLOT_MAX 0 (fun j _ hj => by
      rw [Elems.load_eq _ (by omega)]
      rfl)
  rw [statTgtRecentTh, hi, Except.ok_bind]
  dsimp only
  have hsame : SameTargets node (if i < IND_SLOT_MAX then { node with tgtRecentHit := node.tgtRecentHit + 1 } else node) := by
    split <;> exact ⟨rfl, rfl, rfl, rfl, rfl⟩
  generalize (if i < IND_SLOT_MAX then { node with tgtRecentHit := node.tgtRecentHit + 1 } else node) = node₁ at hsame ⊢
  by_cases hc : node₁.recentIndex.toNat < IND_SLOT_MAX ∧ i = IND_SLOT_MAX ∧ IND_THRESHOLD < hits
  · rw [if_pos hc, Elems.store_eq _ hc.1]
    exact ⟨_, rfl, hsame⟩
  · rw [if_neg hc]
    exact ⟨node₁, rfl, hsame⟩

/-- The place of a target, or the number of targets if it is not there. -/
theorem searchTgt_spec {node : StatNode} (h : node.tgtCount ≤ STAT_TGT_MAX) (tgtAddr : Word) :
    ∃ i, search (fun i => do return tgtAddr == (← node.tgtAddr.load i)) node.tgtCount 0 = .ok i ∧
      i ≤ node.tgtCount ∧ (∀ j < i, node.tgtAddr j ≠ tgtAddr) ∧ (i < node.tgtCount → node.tgtAddr i = tgtAddr) := by
  obtain ⟨i, hi, -, hle, hbefore, hat⟩ := search_eq (fun i => do return tgtAddr == (← node.tgtAddr.load i))
    (fun i => tgtAddr == node.tgtAddr i) node.tgtCount 0 (fun j _ hj => by
      rw [Elems.load_eq _ (by omega)]
      rfl)
  refine ⟨i, hi, by omega, fun j hj => ?_, fun h => ?_⟩
  · exact (beq_eq_false_iff_ne.mp (hbefore j (Nat.zero_le _) hj)).symm
  · exact (beq_iff_eq.mp (hat (by omega))).symm

/-- A target that has its place is counted there. -/
theorem addTgt_seen {node : StatNode} (h : node.tgtCount ≤ STAT_TGT_MAX) {tgtAddr : Word} {i : Nat}
    (hi : i < node.tgtCount) (hinj : ∀ j < node.tgtCount, node.tgtAddr j = tgtAddr → j = i)
    (hat : node.tgtAddr i = tgtAddr) :
    ∃ node', node.addTgt tgtAddr = .ok node' ∧ SameTargets
      { node with tgtDynCount := node.tgtDynCount + 1
                  tgtAddrHit := Function.update node.tgtAddrHit i (node.tgtAddrHit i + 1) } node' := by
  obtain ⟨k, hsearch, hk, hbefore, hat'⟩ := searchTgt_spec h tgtAddr
  have hki : k = i := by
    rcases Nat.lt_trichotomy k i with hlt | heq | hlt
    · exact hinj k (by omega) (hat' (by omega))
    · exact heq
    · exact absurd hat (hbefore i hlt)
  subst hki
  have hmax : k < STAT_TGT_MAX := by omega
  rw [StatNode.addTgt]
  dsimp only
  rw [hsearch]
  simp only [Except.ok_bind, if_pos hi, Elems.load_eq _ hmax, Elems.store_eq _ hmax, pure, Except.pure]
  exact statTgtRecentTh_spec _ _ _

/-- A new target takes the next place, or the first one when there is none. -/
theorem addTgt_new {node : StatNode} (h : node.tgtCount ≤ STAT_TGT_MAX) {tgtAddr : Word}
    (hnew : ∀ j < node.tgtCount, node.tgtAddr j ≠ tgtAddr) {i : Nat} (hi : i = node.tgtCount % STAT_TGT_MAX) :
    ∃ node', node.addTgt tgtAddr = .ok node' ∧ SameTargets
      { node with tgtDynCount := node.tgtDynCount + 1
                  tgtAddr := Function.update node.tgtAddr i tgtAddr
                  tgtAddrHit := Function.update node.tgtAddrHit i 1
                  tgtCount := node.tgtCount + 1 } node' := by
  obtain ⟨k, hsearch, hk, -, hat⟩ := searchTgt_spec h tgtAddr
  have hk : k = node.tgtCount := by
    rcases Nat.lt_or_eq_of_le hk with hlt | heq
    · exact absurd (hat hlt) (hnew k hlt)
    · exact heq
  have hplace : (if node.tgtCount ≥ STAT_TGT_MAX then node.tgtCount % STAT_TGT_MAX else node.tgtCount) = i := by
    rw [hi]
    split
    · rfl
    · exact (Nat.mod_eq_of_lt (by omega)).symm
  have hmax : i < STAT_TGT_MAX := hi ▸ Nat.mod_lt _ (by decide)
  rw [StatNode.addTgt]
  dsimp only
  rw [hsearch]
  simp only [hk, Except.ok_bind, Nat.lt_irrefl, if_false, hplace, Elems.load_eq _ hmax, Elems.store_eq _ hmax, pure,
    Except.pure]
  exact statTgtRecentTh_spec _ _ _

/-- The step of a node that has a place for the target. -/
theorem Tallies.addTgt {node : StatNode} {ts : List Word} (h : Tallies node ts) {tgtAddr : Word}
    (hle : (ts ++ [tgtAddr]).dedup.length ≤ STAT_TGT_MAX) :
    ∃ node', node.addTgt tgtAddr = .ok node' ∧ node'.srcAddr = node.srcAddr ∧ Tallies node' (ts ++ [tgtAddr]) := by
  have hdyn : node.tgtDynCount + 1 = BitVec.ofNat 64 (ts ++ [tgtAddr]).length := by
    rw [h.dyn, List.length_append, List.length_singleton, BitVec.ofNat_add]
    rfl
  by_cases hmem : tgtAddr ∈ ts
  · obtain ⟨i, hi, rfl⟩ := (h.lists.mem _).mp hmem
    obtain ⟨node', hadd, hsame⟩ := addTgt_seen h.le hi (fun j hj hji => h.lists.inj j hj i hi hji) rfl
    refine ⟨node', hadd, hsame.1, hsame.tallies ⟨h.le, h.lists.again hi, fun j hj => ?_, hdyn⟩⟩
    show Function.update node.tgtAddrHit i _ j = BitVec.ofNat 64 ((ts ++ [node.tgtAddr i]).count (node.tgtAddr j))
    rw [List.count_append, List.count_singleton, BitVec.ofNat_add, ← h.hit j hj]
    by_cases hji : j = i
    · rw [hji, Function.update_self, beq_self_eq_true, if_pos rfl]
      rfl
    · have hne : (node.tgtAddr i == node.tgtAddr j) = false :=
        beq_eq_false_iff_ne.mpr fun heq => hji (h.lists.inj j hj i hi heq.symm)
      rw [Function.update_of_ne hji, hne, if_neg Bool.false_ne_true]
      exact (BitVec.add_zero _).symm
  · have hnew : ∀ j < node.tgtCount, node.tgtAddr j ≠ tgtAddr := fun j hj hjt => hmem ((h.lists.mem _).mpr ⟨j, hj, hjt⟩)
    have hlists := h.lists.add hnew
    have hlt : node.tgtCount < STAT_TGT_MAX := by
      have := hlists.length_eq
      omega
    obtain ⟨node', hadd, hsame⟩ := addTgt_new h.le hnew (Nat.mod_eq_of_lt hlt).symm
    refine ⟨node', hadd, hsame.1, hsame.tallies ⟨hlt, hlists, fun j hj => ?_, hdyn⟩⟩
    show Function.update node.tgtAddrHit _ 1 j =
      BitVec.ofNat 64 ((ts ++ [tgtAddr]).count (Function.update node.tgtAddr _ tgtAddr j))
    rw [List.count_append, List.count_singleton]
    rcases Nat.lt_succ_iff_lt_or_eq.mp hj with hj | rfl
    · rw [Function.update_of_ne (by omega), Function.update_of_ne (by omega), h.hit j hj,
        beq_eq_false_iff_ne.mpr (hnew j hj).symm]
      rfl
    · rw [Function.update_self, Function.update_self, List.count_eq_zero_of_not_mem hmem, beq_self_eq_true]
      rfl

/-! ## All nodes -/

/-- The targets a run has shown at a source. -/
def targets (calls : List (Word × Word)) (srcAddr : Word) : List Word :=
  (calls.filter fun call => call.1 = srcAddr).map (·.2)

theorem targets_append (calls : List (Word × Word)) (src tgt srcAddr : Word) :
    targets (calls ++ [(src, tgt)]) srcAddr = targets calls srcAddr ++ if src = srcAddr then [tgt] else [] := by
  rw [targets, List.filter_append, List.map_append, ← targets]
  by_cases h : src = srcAddr <;> simp [h]

/-- There is one node for each of the sources, and it has seen the targets of its own. -/
structure Follows (c : StatNodes) (srcs : List Word) (calls : List (Word × Word)) : Prop where
  lt : c.count < STAT_NODE_MAX
  lists : Lists (fun i => (c.nodes i).srcAddr) c.count srcs
  subset : ∀ call ∈ calls, call.1 ∈ srcs
  tallies : ∀ i < c.count, Tallies (c.nodes i) (targets calls (c.nodes i).srcAddr)
  fresh : ∀ i, c.count ≤ i → c.nodes i = {}

theorem Follows.nil : Follows {} [] [] :=
  ⟨by decide, Lists.nil _, by simp, fun i hi => absurd hi (Nat.not_lt_zero i), fun _ _ => rfl⟩

/-- A source without a node gets one without targets. -/
theorem Follows.addNode {c : StatNodes} {srcs : List Word} {calls : List (Word × Word)} (h : Follows c srcs calls)
    {src : Word} (hnew : ∀ i < c.count, (c.nodes i).srcAddr ≠ src) (hlt : c.count + 1 < STAT_NODE_MAX) :
    Follows ⟨Function.update c.nodes c.count { c.nodes c.count with srcAddr := src, tgtCount := 0, tgtRecentHit := 0 },
      c.count + 1⟩ (srcs ++ [src]) calls := by
  have hsrc : (fun i => (Function.update c.nodes c.count
      { c.nodes c.count with srcAddr := src, tgtCount := 0, tgtRecentHit := 0 } i).srcAddr) =
      Function.update (fun i => (c.nodes i).srcAddr) c.count src := by
    funext i
    by_cases hi : i = c.count
    · rw [hi, Function.update_self, Function.update_self]
    · rw [Function.update_of_ne hi, Function.update_of_ne hi]
  constructor
  · exact hlt
  · show Lists (fun i => (Function.update c.nodes _ _ i).srcAddr) _ _
    rw [hsrc]
    exact h.lists.add hnew
  · exact fun call hcall => List.mem_append_left _ (h.subset call hcall)
  · intro i hi
    rcases Nat.lt_succ_iff_lt_or_eq.mp hi with hi | rfl
    · show Tallies (Function.update c.nodes _ _ i) (targets calls (Function.update c.nodes _ _ i).srcAddr)
      rw [Function.update_of_ne (by omega)]
      exact h.tallies i hi
    · have hnone : targets calls src = [] := by
        rw [targets, List.map_eq_nil_iff, List.filter_eq_nil_iff]
        intro call hcall heq
        obtain ⟨i, hi, hi'⟩ := (h.lists.mem _).mp (h.subset call hcall)
        exact hnew i hi (hi'.trans (of_decide_eq_true heq))
      show Tallies (Function.update c.nodes _ _ _) (targets calls (Function.update c.nodes _ _ _).srcAddr)
      rw [Function.update_self, hnone, h.fresh _ (Nat.le_refl _)]
      exact ⟨Nat.zero_le _, Lists.nil _, fun i hi => absurd hi (Nat.not_lt_zero i), rfl⟩
  · intro i hi
    have hi' : c.count + 1 ≤ i := hi
    show Function.update c.nodes _ _ i = _
    rw [Function.update_of_ne (by omega)]
    exact h.fresh i (by omega)

/-- The message of the abort when there are too many sources. -/
def statNodeOverflow : Fault := .abort "STAT_NODE overflow\n"

theorem statNode_spec {c : StatNodes} {srcs : List Word} {calls : List (Word × Word)} (h : Follows c srcs calls)
    (src : Word) : statNode c src = .error statNodeOverflow ∧ STAT_NODE_MAX ≤ (srcs ++ [src]).dedup.length ∨
      ∃ i c', statNode c src = .ok (i, c') ∧
        i < c'.count ∧ (c'.nodes i).srcAddr = src ∧ Follows c' (srcs ++ [src]) calls := by
  have hmax := h.lt
  obtain ⟨i, hsearch, -, hle, hbefore, hat⟩ := search_eq (fun i => do return (← c.nodes.load i).srcAddr == src)
    (fun i => (c.nodes i).srcAddr == src) c.count 0 (fun j _ hj => by
      rw [Elems.load_eq _ (by omega)]
      rfl)
  rw [statNode, hsearch, Except.ok_bind]
  by_cases hi : i = c.count
  · subst hi
    have hnew : ∀ i < c.count, (c.nodes i).srcAddr ≠ src := fun i hi =>
      beq_eq_false_iff_ne.mp (hbefore i (Nat.zero_le _) hi)
    rw [if_pos rfl, Elems.load_eq _ hmax, Except.ok_bind, Elems.store_eq _ hmax, Except.ok_bind]
    by_cases hfull : c.count + 1 = STAT_NODE_MAX
    · have := (h.lists.add hnew).length_eq
      rw [hfull, beq_self_eq_true]
      exact .inl ⟨rfl, by omega⟩
    · rw [beq_eq_false_iff_ne.mpr hfull]
      refine .inr ⟨_, _, rfl, Nat.lt_succ_self _, ?_, h.addNode hnew (by omega)⟩
      show (Function.update c.nodes _ _ _).srcAddr = src
      rw [Function.update_self]
  · have heq : (c.nodes i).srcAddr = src := beq_iff_eq.mp (hat (by omega))
    rw [if_neg hi]
    refine .inr ⟨i, c, rfl, by omega, heq, h.lt, ?_, fun call hcall => List.mem_append_left _ (h.subset call hcall),
      h.tallies, h.fresh⟩
    have hlists : Lists (fun i => (c.nodes i).srcAddr) c.count srcs := h.lists
    rw [← heq]
    exact hlists.again (by omega)

/-- The targets of the other sources stay what they are. -/
theorem Follows.setNode {c : StatNodes} {srcs : List Word} {calls : List (Word × Word)} (h : Follows c srcs calls)
    {i : Nat} (hi : i < c.count) {node : StatNode} {tgt : Word} (hsrc : node.srcAddr = (c.nodes i).srcAddr)
    (ht : Tallies node (targets calls (c.nodes i).srcAddr ++ [tgt])) :
    Follows { c with nodes := Function.update c.nodes i node } srcs (calls ++ [((c.nodes i).srcAddr, tgt)]) := by
  have hsrcs : ∀ j, (Function.update c.nodes i node j).srcAddr = (c.nodes j).srcAddr := fun j => by
    by_cases hj : j = i
    · rw [hj, Function.update_self, hsrc]
    · rw [Function.update_of_ne hj]
  constructor
  · exact h.lt
  · show Lists (fun j => (Function.update c.nodes i node j).srcAddr) _ _
    rw [funext hsrcs]
    exact h.lists
  · intro call hcall
    rcases List.mem_append.mp hcall with hcall | hcall
    · exact h.subset call hcall
    · rw [List.mem_singleton.mp hcall, h.lists.mem]
      exact ⟨i, hi, rfl⟩
  · intro j hj
    show Tallies (Function.update c.nodes i node j) (targets _ (Function.update c.nodes i node j).srcAddr)
    rw [hsrcs, targets_append]
    by_cases hji : j = i
    · rw [hji, Function.update_self, if_pos rfl]
      exact ht
    · have hne : (c.nodes i).srcAddr ≠ (c.nodes j).srcAddr := fun heq => hji (h.lists.inj i hi j hj heq).symm
      rw [Function.update_of_ne hji, if_neg hne, List.append_nil]
      exact h.tallies j hj
  · intro j hj
    have hj' : c.count ≤ j := hj
    show Function.update c.nodes i node j = _
    rw [Function.update_of_ne (by omega)]
    exact h.fresh j hj

/-- One call, where the source has no more targets than places. -/
theorem statTgtAdd_spec {c : StatNodes} {srcs : List Word} {calls : List (Word × Word)} (h : Follows c srcs calls)
    {src tgt : Word} (hle : (targets (calls ++ [(src, tgt)]) src).dedup.length ≤ STAT_TGT_MAX) :
    statTgtAdd c src tgt = .error statNodeOverflow ∧ STAT_NODE_MAX ≤ (srcs ++ [src]).dedup.length ∨
      ∃ c', statTgtAdd c src tgt = .ok c' ∧ Follows c' (srcs ++ [src]) (calls ++ [(src, tgt)]) := by
  rw [targets_append, if_pos rfl] at hle
  rcases statNode_spec h src with ⟨herr, hfull⟩ | ⟨i, c', hnode, hi, rfl, h'⟩
  · refine .inl ⟨?_, hfull⟩
    rw [statTgtAdd, herr]
    rfl
  · right
    have hmax := h'.lt
    obtain ⟨node, hadd, hsrc, ht⟩ := (h'.tallies i hi).addTgt hle
    refine ⟨_, ?_, h'.setNode hi hsrc ht⟩
    rw [statTgtAdd, hnode, Except.ok_bind]
    dsimp only
    rw [Elems.load_eq _ (by omega), Except.ok_bind, hadd, Except.ok_bind, Elems.store_eq _ (by omega)]
    rfl

theorem dedup_length_mono {α : Type} [DecidableEq α] {l l' : List α} (h : l ⊆ l') : l.dedup.length ≤ l'.dedup.length :=
  (List.subperm_of_subset l.nodup_dedup fun _ ht => List.mem_dedup.mpr (h (List.mem_dedup.mp ht))).length_le

theorem statRun_append (calls : List (Word × Word)) (call : Word × Word) :
    statRun (calls ++ [call]) = statRun calls >>= fun c => statTgtAdd c call.1 call.2 := by
  rw [statRun, List.foldlM_append, ← statRun]
  simp

/-- A run, where each source has no more targets than places. -/
theorem statRun_spec (calls : List (Word × Word)) (h : ∀ src, (targets calls src).dedup.length ≤ STAT_TGT_MAX) :
    statRun calls = .error statNodeOverflow ∧ STAT_NODE_MAX ≤ (calls.map (·.1)).dedup.length ∨
      ∃ c, statRun calls = .ok c ∧ Follows c (calls.map (·.1)) calls := by
  induction calls using List.reverseRecOn with
  | nil => exact .inr ⟨{}, rfl, Follows.nil⟩
  | append_singleton calls call ih =>
    have hle : ∀ src, (targets calls src).dedup.length ≤ STAT_TGT_MAX := fun src => by
      refine le_trans (dedup_length_mono ?_) (h src)
      rw [targets_append]
      exact List.subset_append_left _ _
    rw [statRun_append, List.map_append]
    rcases ih hle with ⟨herr, hfull⟩ | ⟨c, hc, hfollows⟩
    · refine .inl ⟨by rw [herr]; rfl, le_trans hfull (dedup_length_mono ?_)⟩
      exact List.subset_append_left _ _
    · rw [hc, Except.ok_bind]
      exact statTgtAdd_spec hfollows (h call.1)

/-! ## Consistency -/

/-- The places of the tables that are in use. -/
def StatNode.entries (node : StatNode) : List Nat := List.range (min node.tgtCount STAT_TGT_MAX)

/-- The entries of the node are distinct targets, and their hits add up to what was counted. -/
def Consistent (node : StatNode) : Prop :=
  (node.entries.map node.tgtAddr).Nodup ∧ (node.entries.map node.tgtAddrHit).sum = node.tgtDynCount

/-- A run that does not abort for too many sources stays inside the tables, and its nodes
are consistent. -/
def RunConsistent (calls : List (Word × Word)) : Prop :=
  statRun calls ≠ .error statNodeOverflow →
    ∃ c, statRun calls = .ok c ∧ ∀ i < c.count, Consistent (c.nodes i)

theorem Tallies.consistent {node : StatNode} {ts : List Word} (h : Tallies node ts) : Consistent node := by
  rw [Consistent, StatNode.entries, Nat.min_eq_left h.le]
  refine ⟨h.lists.nodup, ?_⟩
  have hsum : ∀ l : List Nat, (l.map fun i => BitVec.ofNat 64 i).sum = BitVec.ofNat 64 l.sum := fun l => by
    induction l with
    | nil => rfl
    | cons a l ih => rw [List.map_cons, List.sum_cons, List.sum_cons, ih, BitVec.ofNat_add]
  rw [h.dyn, ← h.lists.sum_count, ← hsum, List.map_map]
  congr 1
  exact List.map_congr_left fun i hi => h.hit i (List.mem_range.mp hi)

theorem targets_length_le (calls : List (Word × Word)) (src : Word) :
    (targets calls src).dedup.length ≤ calls.length := by
  refine le_trans (List.dedup_sublist _).length_le ?_
  rw [targets, List.length_map]
  exact List.length_filter_le _ _

/-- As many targets of one source as there are places. -/
def fullCalls : List (Word × Word) := (List.range STAT_TGT_MAX).map fun i => (1, BitVec.ofNat 32 i)

theorem targets_fullCalls : targets fullCalls 1 = (List.range STAT_TGT_MAX).map (BitVec.ofNat 32) := by
  rw [targets, fullCalls, List.filter_eq_self.mpr (by simp), List.map_map]
  rfl

/-- A node that holds as many targets as there are places, each seen once. -/
theorem Tallies.full {node : StatNode} (h : Tallies node (targets fullCalls 1)) :
    node.tgtCount = STAT_TGT_MAX ∧ node.tgtDynCount = 256 ∧ node.tgtAddrHit 0 = 1 ∧
      ∀ j < node.tgtCount, node.tgtAddr j ≠ 256 := by
  have hnodup : (targets fullCalls 1).Nodup := by
    rw [targets_fullCalls]
    refine List.Nodup.map_on (fun i hi j hj hij => ?_) List.nodup_range
    have hi : i < 256 := List.mem_range.mp hi
    have hj : j < 256 := List.mem_range.mp hj
    bv_omega
  have hlen : (targets fullCalls 1).length = STAT_TGT_MAX := by
    rw [targets_fullCalls, List.length_map, List.length_range]
  have hcount : node.tgtCount = STAT_TGT_MAX := by
    rw [h.lists.length_eq, hnodup.dedup, hlen]
  refine ⟨hcount, by rw [h.dyn, hlen]; rfl, ?_, fun j hj heq => ?_⟩
  · rw [h.hit 0 (by rw [hcount]; decide), List.count_eq_one_of_mem hnodup ((h.lists.mem _).mpr ⟨0, by rw [hcount]; decide, rfl⟩)]
    rfl
  · have hmem : (256 : Word) ∈ targets fullCalls 1 := (h.lists.mem _).mpr ⟨j, hj, heq⟩
    rw [targets_fullCalls, List.mem_map] at hmem
    obtain ⟨i, hi, hi'⟩ := hmem
    have hi : i < 256 := List.mem_range.mp hi
    bv_omega

/-- One target more than there are places takes the place of the first, whose hits are lost. -/
theorem not_statRun_consistent : ¬ ∀ calls, RunConsistent calls := by
  intro h
  have hfew : ∀ l : List (Word × Word), (∀ call ∈ l, call.1 = 1) → ¬ STAT_NODE_MAX ≤ (l.map (·.1)).dedup.length := by
    intro l hl hle
    have hsub : l.map (·.1) ⊆ [1] := fun src hsrc => by
      obtain ⟨call, hcall, rfl⟩ := List.mem_map.mp hsrc
      exact List.mem_singleton.mpr (hl call hcall)
    exact absurd (le_trans hle (dedup_length_mono hsub)) (by decide)
  have hone : ∀ call ∈ fullCalls, call.1 = 1 := fun call hcall => by
    obtain ⟨i, -, rfl⟩ := List.mem_map.mp hcall
    rfl
  rcases statRun_spec fullCalls (fun src => le_trans (targets_length_le _ _) (by rw [fullCalls]; simp)) with
    ⟨-, hfull⟩ | ⟨c, hrun, hfollows⟩
  · exact hfew _ hone hfull
  rcases statNode_spec hfollows 1 with ⟨-, hfull⟩ | ⟨i, c', hnode, hi, hsrc, h'⟩
  · refine hfew (fullCalls ++ [(1, 1)]) (fun call hcall => ?_) (by rwa [List.map_append])
    rcases List.mem_append.mp hcall with hcall | hcall
    · exact hone call hcall
    · rw [List.mem_singleton.mp hcall]
  have ht := h'.tallies i hi
  rw [hsrc] at ht
  obtain ⟨hcount, hdyn, hzero, hnew⟩ := ht.full
  obtain ⟨node, hadd, hsame⟩ := addTgt_new ht.le hnew (i := 0) (by rw [hcount]; rfl)
  have hmax := h'.lt
  have hrun' : statRun (fullCalls ++ [(1, 256)]) = .ok { c' with nodes := Function.update c'.nodes i node } := by
    rw [statRun_append, hrun, Except.ok_bind, statTgtAdd, hnode, Except.ok_bind]
    dsimp only
    rw [Elems.load_eq _ (by omega), Except.ok_bind, hadd, Except.ok_bind, Elems.store_eq _ (by omega)]
    rfl
  obtain ⟨c'', hc'', hcons⟩ := h (fullCalls ++ [(1, 256)]) (by rw [hrun']; exact nofun)
  rw [hrun', Except.ok.injEq] at hc''
  subst hc''
  have hnode' : Consistent (Function.update c'.nodes i node i) := hcons i hi
  rw [Function.update_self] at hnode'
  obtain ⟨-, hsum⟩ := hnode'
  obtain ⟨-, hsum'⟩ := ht.consistent
  obtain ⟨-, -, hhit, hdyn', hcount'⟩ := hsame
  rw [StatNode.entries, hcount', hhit, hdyn'] at hsum
  dsimp only at hsum
  rw [hdyn, hcount, ← hzero, Function.update_eq_self, hzero] at hsum
  rw [StatNode.entries, hcount, hdyn] at hsum'
  rw [show min (STAT_TGT_MAX + 1) STAT_TGT_MAX = min STAT_TGT_MAX STAT_TGT_MAX by decide, hsum'] at hsum
  exact absurd hsum (by decide)

/-- In a run that shows no more than `STAT_TGT_MAX` targets at each source, every access is
inside the tables and the nodes are consistent. -/
theorem statRun_consistent (calls : List (Word × Word))
    (h : ∀ src, (targets calls src).dedup.length ≤ STAT_TGT_MAX) : RunConsistent calls := by
  intro hne
  rcases statRun_spec calls h with ⟨herr, -⟩ | ⟨c, hc, hfollows⟩
  · exact absurd herr hne
  · exact ⟨c, hc, fun i hi => (hfollows.tallies i hi).consistent⟩

theorem statRun_consistent_two : RunConsistent [(0x8048000, 0x8049000), (0x8048000, 0x804a000), (0x8048000, 0x8049000)] :=
  statRun_consistent _ fun src => le_trans (targets_length_le _ src) (by decide)

end Unitrans
