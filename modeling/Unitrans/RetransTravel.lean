/-
The breadth-first travel of `get_retrans_tb` finds each path that leads to the start
block once. Every node stands for such a path, and the nodes still in the queue stand
for all the paths that go on from theirs.
-/
import Unitrans.Retrans
import Unitrans.TargetStats
import Unitrans.Library.Walks

namespace Unitrans

open X86 Walks

/-- Blocks with the links recorded into each, which come from blocks of the table. -/
structure LinkGraph where
  tbs : List TranslationBlock
  few : ∀ b ∈ tbs, b.jmpFromIndex < TB_FROM_MAX
  links : ∀ b ∈ tbs, ∀ i < b.jmpFromIndex.toNat, ∃ j < tbs.length, b.jmpFrom i = some j

/-- A path back from a block: the block before each, and the slot of its link. -/
abbrev Path := List (Nat × Word)

/-- Link `i` into a block. -/
def TranslationBlock.link (b : TranslationBlock) (i : Nat) : Nat × Word :=
  ((b.jmpFrom i).getD 0, (b.jmpFromNum i).setWidth 32)

namespace LinkGraph

variable (g : LinkGraph)

/-- The links into a block. -/
def preds (tb : Nat) : Path :=
  match g.tbs[tb]? with
  | none => []
  | some b => (List.range b.jmpFromIndex.toNat).map b.link

/-- The paths of at most `PATH_DEPTH` links back from a block. -/
def paths (startTb : Nat) : List Path := upTo g.preds PATH_DEPTH startTb

/-- Those that have `PATH_DEPTH` links or cannot go on. -/
def leafPaths (startTb : Nat) : List Path := maximal g.preds PATH_DEPTH startTb

end LinkGraph

/-- A step of the travel fails by the arrays only. -/
abbrev overrun {α : Type} : Result α := .error .outOfBounds

/-! ## The nodes of the links into one block -/

/-- The node for link `i` of block `b`, which is at node `n`. -/
def RetrNode.child (node : RetrNode) (n : Nat) (b : TranslationBlock) (i : Nat) : RetrNode :=
  ⟨(b.link i).1, some n, (b.link i).2, node.depth + 1⟩

/-- The travel with nodes for the first `m` links of a block. -/
def Travel.grown (t : Travel) (n : Nat) (b : TranslationBlock) (m : Nat) : Travel :=
  { t with
    nodes := fun k => if t.nodeIdx ≤ k ∧ k < t.nodeIdx + m then (t.nodes n).child n b (k - t.nodeIdx) else t.nodes k
    nodeIdx := t.nodeIdx + m
    travelQueue := fun k => if t.nodeIdx ≤ k ∧ k < t.nodeIdx + m then k else t.travelQueue k
    queueTail := t.nodeIdx + m }

theorem addChildren_spec {t : Travel} {n : Nat} {b : TranslationBlock} (htail : t.queueTail = t.nodeIdx)
    (hn : n < t.nodeIdx) (hroom : t.nodeIdx ≤ PATH_DEPTH * LEAF_MAX) {m : Nat} (hlinks : ∀ i < m, ∃ j, b.jmpFrom i = some j) :
    (List.range m).foldlM (Travel.addChild n b) t =
      if t.nodeIdx + m ≤ PATH_DEPTH * LEAF_MAX then .ok (t.grown n b m) else overrun := by
  induction m with
  | zero =>
    have hnone : ∀ k, ¬ (t.nodeIdx ≤ k ∧ k < t.nodeIdx) := fun k => by omega
    have hsame : t.grown n b 0 = t := by
      have hgrown : t.grown n b 0 = { t with queueTail := t.nodeIdx } := by
        unfold Travel.grown
        simp only [Nat.add_zero, hnone, if_false]
      rw [hgrown]
      cases t
      cases htail
      rfl
    rw [hsame]
    exact (if_pos hroom).symm
  | succ m ih =>
    rw [List.range_succ, List.foldlM_append, ih fun i hi => hlinks i (by omega)]
    by_cases hm : t.nodeIdx + m ≤ PATH_DEPTH * LEAF_MAX
    · obtain ⟨j, hj⟩ := hlinks m (Nat.lt_succ_self m)
      have hlink : b.link m = (j, (b.jmpFromNum m).setWidth 32) := by
        unfold TranslationBlock.link
        rw [hj, Option.getD_some]
      have hparent : (t.grown n b m).nodes n = t.nodes n := if_neg (by omega)
      rw [if_pos hm, Except.ok_bind, List.foldlM_cons]
      unfold Travel.addChild
      rw [hj]
      dsimp only
      rw [Elems.load_eq _ (show n < _ by omega), Except.ok_bind, hparent]
      show ((t.grown n b m).nodes.store (t.nodeIdx + m) _ >>= _) >>= _ = _
      by_cases hlast : t.nodeIdx + (m + 1) ≤ PATH_DEPTH * LEAF_MAX
      · rw [if_pos hlast, Elems.store_eq _ (by omega), Except.ok_bind]
        show ((t.grown n b m).travelQueue.store (t.nodeIdx + m) _ >>= _) >>= _ = _
        rw [Elems.store_eq _ (by omega), Except.ok_bind]
        have hnodes : Function.update (t.grown n b m).nodes (t.nodeIdx + m)
            ⟨j, some n, (b.jmpFromNum m).setWidth 32, (t.nodes n).depth + 1⟩ = (t.grown n b (m + 1)).nodes := by
          funext k
          by_cases hk : k = t.nodeIdx + m
          · rw [hk, Function.update_self]
            show _ = if t.nodeIdx ≤ t.nodeIdx + m ∧ t.nodeIdx + m < t.nodeIdx + (m + 1) then _ else _
            rw [if_pos ⟨by omega, by omega⟩, Nat.add_sub_cancel_left]
            unfold RetrNode.child
            rw [hlink]
          · rw [Function.update_of_ne hk]
            exact if_congr (by omega) rfl rfl
        have hqueue : Function.update (t.grown n b m).travelQueue (t.nodeIdx + m) (t.nodeIdx + m) =
            (t.grown n b (m + 1)).travelQueue := by
          funext k
          by_cases hk : k = t.nodeIdx + m
          · rw [hk, Function.update_self]
            exact (if_pos ⟨by omega, by omega⟩).symm
          · rw [Function.update_of_ne hk]
            exact if_congr (by omega) rfl rfl
        show Except.ok (⟨Function.update (t.grown n b m).nodes (t.nodeIdx + m) _, t.nodeIdx + m + 1, t.leaves, t.leafIdx,
          Function.update (t.grown n b m).travelQueue (t.nodeIdx + m) (t.nodeIdx + m), t.queueHead, t.nodeIdx + m + 1⟩ : Travel) =
            .ok (t.grown n b (m + 1))
        rw [hnodes, hqueue]
        rfl
      · rw [if_neg hlast, Elems.store, if_neg (by omega)]
        rfl
    · rw [if_neg hm, if_neg (by omega)]
      rfl

/-! ## The invariant -/

/-- Node `k` stands for the path `walk k`. -/
structure StandsFor (g : LinkGraph) (startTb : Nat) (walk : Nat → Path) (nodes : Nat → RetrNode) (k : Nat) : Prop where
  depth : (nodes k).depth = (walk k).length
  le : (walk k).length ≤ PATH_DEPTH
  tb : (nodes k).tb = stop startTb (walk k)
  lt : (nodes k).tb < g.tbs.length
  link : walk k = [] ∧ (nodes k).next = none ∧ (nodes k).patchNum = CONT_TRANS_TAG ∨
    ∃ m < k, (nodes k).next = some m ∧ walk k = walk m ++ [((nodes k).tb, (nodes k).patchNum)]

/-- What is left to find from node `k`. -/
def LinkGraph.pathsFrom (g : LinkGraph) (startTb : Nat) (w : Path) : List Path := upTo g.preds (PATH_DEPTH - w.length) (stop startTb w)

def LinkGraph.leavesFrom (g : LinkGraph) (startTb : Nat) (w : Path) : List Path :=
  (maximal g.preds (PATH_DEPTH - w.length) (stop startTb w)).map (w ++ ·)

/-- The nodes in the queue. -/
def Travel.pending (t : Travel) : List Nat := List.range' t.queueHead (t.nodeIdx - t.queueHead)

structure Travelled (g : LinkGraph) (startTb : Nat) (walk : Nat → Path) (t : Travel) : Prop where
  tail : t.queueTail = t.nodeIdx
  queue : ∀ k < t.nodeIdx, t.travelQueue k = k
  head : t.queueHead ≤ t.nodeIdx
  room : t.nodeIdx ≤ PATH_DEPTH * LEAF_MAX
  leafRoom : t.leafIdx ≤ LEAF_MAX
  node : ∀ k < t.nodeIdx, StandsFor g startTb walk t.nodes k
  leaf : ∀ i < t.leafIdx, t.leaves i < t.nodeIdx
  counted : t.nodeIdx + (t.pending.map fun k => (g.pathsFrom startTb (walk k)).length - 1).sum = (g.paths startTb).length
  covered : (((List.range t.leafIdx).map fun i => walk (t.leaves i)) ++ t.pending.flatMap fun k =>
    g.leavesFrom startTb (walk k)).Perm (g.leafPaths startTb)

variable {g : LinkGraph} {startTb : Nat} {walk : Nat → Path} {t : Travel}

theorem Travel.pending_cons (h : t.queueHead < t.nodeIdx) :
    t.pending = t.queueHead :: List.range' (t.queueHead + 1) (t.nodeIdx - (t.queueHead + 1)) := by
  unfold Travel.pending
  rw [show t.nodeIdx - t.queueHead = (t.nodeIdx - (t.queueHead + 1)) + 1 by omega, List.range'_succ]

theorem Travelled.start (junk : Travel) (hstart : startTb < g.tbs.length) :
    Travelled g startTb (fun _ => []) (junk.start startTb) := by
  have hnode : ∀ k < 1, k = 0 := fun k hk => by omega
  constructor
  · rfl
  · intro k hk
    rw [hnode k hk]
    rfl
  · exact Nat.zero_le _
  · show 1 ≤ PATH_DEPTH * LEAF_MAX
    decide
  · exact Nat.zero_le _
  · intro k hk
    rw [hnode k hk]
    exact ⟨rfl, Nat.zero_le _, rfl, hstart, .inl ⟨rfl, rfl, rfl⟩⟩
  · exact fun i hi => absurd hi (Nat.not_lt_zero i)
  · show 1 + ((g.paths startTb).length - 1 + 0) = (g.paths startTb).length
    have : 0 < (g.paths startTb).length := length_upTo_pos ..
    omega
  · show (((maximal g.preds PATH_DEPTH startTb).map ([] ++ ·)) ++ []).Perm (g.leafPaths startTb)
    simp [LinkGraph.leafPaths]

/-! ## One round -/

theorem LinkGraph.preds_eq {tb : Nat} {b : TranslationBlock} (hb : g.tbs[tb]? = some b) :
    g.preds tb = (List.range b.jmpFromIndex.toNat).map b.link := by
  unfold LinkGraph.preds
  rw [hb]

theorem preds_eq_nil {tb : Nat} {b : TranslationBlock} (hb : g.tbs[tb]? = some b) :
    g.preds tb = [] ↔ b.jmpFromIndex = 0 := by
  rw [LinkGraph.preds_eq hb, List.map_eq_nil_iff, List.range_eq_nil]
  constructor
  · exact fun h => BitVec.eq_of_toNat_eq h
  · exact fun h => congrArg BitVec.toNat h

/-- A node that is a leaf stands for its own path only. -/
theorem StandsFor.stuck {n : Nat} {b : TranslationBlock} (h : StandsFor g startTb walk t.nodes n)
    (hb : g.tbs[(t.nodes n).tb]? = some b) (hleaf : (t.nodes n).depth = PATH_DEPTH ∨ b.jmpFromIndex = 0) :
    (g.pathsFrom startTb (walk n)).length - 1 = 0 ∧ g.leavesFrom startTb (walk n) = [walk n] := by
  have hstuck : PATH_DEPTH - (walk n).length = 0 ∨ g.preds (stop startTb (walk n)) = [] := by
    rcases hleaf with hdepth | hzero
    · left
      rw [← h.depth, hdepth, Nat.sub_self]
    · right
      rw [← h.tb]
      exact (preds_eq_nil hb).mpr hzero
  unfold LinkGraph.pathsFrom LinkGraph.leavesFrom
  rw [upTo_stuck hstuck, maximal_stuck hstuck, List.map_singleton, List.append_nil]
  exact ⟨rfl, rfl⟩

/-- A leaf goes to the leaves. -/
theorem Travelled.addLeaf (h : Travelled g startTb walk t) (hlt : t.queueHead < t.nodeIdx) {b : TranslationBlock}
    (hb : g.tbs[(t.nodes t.queueHead).tb]? = some b)
    (hleaf : (t.nodes t.queueHead).depth = PATH_DEPTH ∨ b.jmpFromIndex = 0) (hroom : t.leafIdx < LEAF_MAX) :
    Travelled g startTb walk { t with
      queueHead := t.queueHead + 1, leaves := Function.update t.leaves t.leafIdx t.queueHead, leafIdx := t.leafIdx + 1 } := by
  obtain ⟨hcount, hself⟩ := (h.node _ hlt).stuck hb hleaf
  have hcounted := h.counted
  have hcovered := h.covered
  rw [t.pending_cons hlt, List.map_cons, List.sum_cons, hcount, Nat.zero_add] at hcounted
  rw [t.pending_cons hlt, List.flatMap_cons, hself] at hcovered
  constructor
  · exact h.tail
  · exact h.queue
  · exact hlt
  · exact h.room
  · exact hroom
  · exact h.node
  · intro i hi
    show Function.update t.leaves t.leafIdx t.queueHead i < t.nodeIdx
    rcases Nat.lt_succ_iff_lt_or_eq.mp hi with hi | rfl
    · rw [Function.update_of_ne (Nat.ne_of_lt hi)]
      exact h.leaf i hi
    · rw [Function.update_self]
      exact hlt
  · exact hcounted
  · have hleaves : (List.range (t.leafIdx + 1)).map (fun i => walk (Function.update t.leaves t.leafIdx t.queueHead i)) =
        (List.range t.leafIdx).map (fun i => walk (t.leaves i)) ++ [walk t.queueHead] := by
      rw [List.range_succ, List.map_append, List.map_singleton, Function.update_self]
      congr 1
      refine List.map_congr_left fun i hi => ?_
      rw [Function.update_of_ne (Nat.ne_of_lt (List.mem_range.mp hi))]
    show ((List.range (t.leafIdx + 1)).map (fun i => walk (Function.update t.leaves t.leafIdx t.queueHead i)) ++
      (List.range' (t.queueHead + 1) (t.nodeIdx - (t.queueHead + 1))).flatMap _).Perm _
    rw [hleaves, List.append_assoc]
    exact hcovered

/-- There are as many paths to leaves as leaves so far and more. -/
theorem Travelled.leaves_lt (h : Travelled g startTb walk t) (hlt : t.queueHead < t.nodeIdx) :
    t.leafIdx < (g.leafPaths startTb).length := by
  have hcovered := h.covered.length_eq
  have hpos : 0 < (g.leavesFrom startTb (walk t.queueHead)).length := by
    unfold LinkGraph.leavesFrom
    rw [List.length_map]
    exact length_maximal_pos ..
  rw [List.length_append, List.length_map, List.length_range, t.pending_cons hlt, List.flatMap_cons, List.length_append]
    at hcovered
  omega

theorem sum_sub_one {α : Type} (f : α → Nat) (l : List α) (h : ∀ a ∈ l, 0 < f a) :
    (l.map fun a => f a - 1).sum + l.length = (l.map f).sum := by
  induction l with
  | nil => rfl
  | cons a l ih =>
    have ha := h a List.mem_cons_self
    have := ih fun b hb => h b (List.mem_cons_of_mem _ hb)
    rw [List.map_cons, List.map_cons, List.sum_cons, List.sum_cons, List.length_cons]
    omega

/-- A node that is no leaf stands for the paths of its children. -/
theorem StandsFor.go {n : Nat} {b : TranslationBlock} (h : StandsFor g startTb walk t.nodes n)
    (hb : g.tbs[(t.nodes n).tb]? = some b) (hgo : ¬ ((t.nodes n).depth = PATH_DEPTH ∨ b.jmpFromIndex = 0)) :
    (g.pathsFrom startTb (walk n)).length - 1 = b.jmpFromIndex.toNat +
        ((List.range b.jmpFromIndex.toNat).map fun i => (g.pathsFrom startTb (walk n ++ [b.link i])).length - 1).sum ∧
      g.leavesFrom startTb (walk n) =
        (List.range b.jmpFromIndex.toNat).flatMap fun i => g.leavesFrom startTb (walk n ++ [b.link i]) := by
  push Not at hgo
  obtain ⟨hdepth, hpreds⟩ := hgo
  have hle := h.le
  rw [h.depth] at hdepth
  obtain ⟨r, hr⟩ : ∃ r, PATH_DEPTH - (walk n).length = r + 1 := ⟨PATH_DEPTH - (walk n).length - 1, by omega⟩
  have hnext : ∀ i, PATH_DEPTH - (walk n ++ [b.link i]).length = r := fun i => by
    rw [List.length_append, List.length_singleton]
    omega
  have hedges : g.preds (stop startTb (walk n)) = (List.range b.jmpFromIndex.toNat).map b.link := by
    rw [← h.tb]
    exact LinkGraph.preds_eq hb
  have hsome : g.preds (stop startTb (walk n)) ≠ [] := by
    rw [← h.tb]
    exact fun hnil => hpreds ((preds_eq_nil hb).mp hnil)
  unfold LinkGraph.pathsFrom LinkGraph.leavesFrom
  simp only [hr, hnext, stop_concat]
  constructor
  · have hsum := sum_sub_one (fun i => (upTo g.preds r (b.link i).1).length) (List.range b.jmpFromIndex.toNat)
      fun i _ => length_upTo_pos ..
    rw [length_upTo, hedges, List.map_map]
    rw [List.length_range] at hsum
    simp only [Function.comp_def]
    omega
  · rw [maximal_go hsome, hedges, List.flatMap_map, List.map_flatMap]
    refine List.flatMap_congr fun i _ => ?_
    rw [List.map_map]
    refine List.map_congr_left fun w _ => ?_
    show walk n ++ b.link i :: w = walk n ++ [b.link i] ++ w
    rw [List.append_assoc, List.singleton_append]

/-- The path of each node once block `b` at node `n` has its children, from node `k₀` on. -/
def grownWalk (walk : Nat → Path) (n k₀ : Nat) (b : TranslationBlock) (k : Nat) : Path :=
  if k < k₀ then walk k else walk n ++ [b.link (k - k₀)]

/-- The children of a node go to the queue. -/
theorem Travelled.grow (h : Travelled g startTb walk t) (hlt : t.queueHead < t.nodeIdx) {b : TranslationBlock}
    (hb : g.tbs[(t.nodes t.queueHead).tb]? = some b)
    (hgo : ¬ ((t.nodes t.queueHead).depth = PATH_DEPTH ∨ b.jmpFromIndex = 0))
    (hroom : t.nodeIdx + b.jmpFromIndex.toNat ≤ PATH_DEPTH * LEAF_MAX) :
    Travelled g startTb (grownWalk walk t.queueHead t.nodeIdx b)
      ({ t with queueHead := t.queueHead + 1 }.grown t.queueHead b b.jmpFromIndex.toNat) := by
  have hparent := h.node _ hlt
  obtain ⟨hcount, hleaves⟩ := hparent.go hb hgo
  have hcounted := h.counted
  have hcovered := h.covered
  push Not at hgo
  rw [t.pending_cons hlt, List.map_cons, List.sum_cons, hcount] at hcounted
  rw [t.pending_cons hlt, List.flatMap_cons, hleaves] at hcovered
  generalize hm : b.jmpFromIndex.toNat = m at *
  have hold : ∀ k < t.nodeIdx, grownWalk walk t.queueHead t.nodeIdx b k = walk k := fun k hk => if_pos hk
  have hnew : ∀ i, grownWalk walk t.queueHead t.nodeIdx b (t.nodeIdx + i) = walk t.queueHead ++ [b.link i] := fun i => by
    unfold grownWalk
    rw [if_neg (by omega), Nat.add_sub_cancel_left]
  have hqueue : List.range' (t.queueHead + 1) (t.nodeIdx + m - (t.queueHead + 1)) =
      List.range' (t.queueHead + 1) (t.nodeIdx - (t.queueHead + 1)) ++ (List.range m).map (t.nodeIdx + ·) := by
    rw [← List.range'_eq_map_range, show t.nodeIdx + m - (t.queueHead + 1) = t.nodeIdx - (t.queueHead + 1) + m by omega,
      ← List.range'_append_1]
    congr 2
    omega
  have hrest : ∀ k ∈ List.range' (t.queueHead + 1) (t.nodeIdx - (t.queueHead + 1)),
      grownWalk walk t.queueHead t.nodeIdx b k = walk k := fun k hk => by
    rw [List.mem_range'_1] at hk
    exact hold k (by omega)
  constructor
  · rfl
  · intro k hk
    show (if t.nodeIdx ≤ k ∧ k < t.nodeIdx + m then k else t.travelQueue k) = k
    split
    · rfl
    · exact h.queue k (by have hk : k < t.nodeIdx + m := hk; omega)
  · show t.queueHead + 1 ≤ t.nodeIdx + m
    omega
  · exact hroom
  · exact h.leafRoom
  · intro k hk
    have hk : k < t.nodeIdx + m := hk
    by_cases hkold : k < t.nodeIdx
    · obtain ⟨depth, le, tb, lt, link⟩ := h.node k hkold
      have hsame : ({ t with queueHead := t.queueHead + 1 }.grown t.queueHead b m).nodes k = t.nodes k :=
        if_neg (by show ¬ (t.nodeIdx ≤ k ∧ _); omega)
      constructor
      · rw [hsame, hold k hkold, depth]
      · rw [hold k hkold]
        exact le
      · rw [hsame, hold k hkold, tb]
      · rw [hsame]
        exact lt
      · rw [hsame, hold k hkold]
        refine link.imp_right fun ⟨j, hj, hnext, hwalk⟩ => ⟨j, hj, hnext, ?_⟩
        rw [hold j (by omega)]
        exact hwalk
    · obtain ⟨i, rfl⟩ : ∃ i, k = t.nodeIdx + i := ⟨k - t.nodeIdx, by omega⟩
      have hchild : ({ t with queueHead := t.queueHead + 1 }.grown t.queueHead b m).nodes (t.nodeIdx + i) =
          (t.nodes t.queueHead).child t.queueHead b i := by
        show (if t.nodeIdx ≤ t.nodeIdx + i ∧ t.nodeIdx + i < t.nodeIdx + m then _ else _) = _
        rw [if_pos ⟨by omega, by omega⟩]
        show RetrNode.child _ _ _ (t.nodeIdx + i - t.nodeIdx) = _
        rw [Nat.add_sub_cancel_left]
      have hmem : b ∈ g.tbs := List.mem_of_getElem? hb
      obtain ⟨j, hj, hfrom⟩ := g.links b hmem i (by omega)
      have hle := hparent.le
      have hdepth := hparent.depth
      constructor
      · rw [hchild, hnew, List.length_append, List.length_singleton]
        show (t.nodes t.queueHead).depth + 1 = _
        rw [hdepth]
      · rw [hnew, List.length_append, List.length_singleton]
        have := hgo.1
        omega
      · rw [hchild, hnew, stop_concat]
        rfl
      · rw [hchild]
        show (b.jmpFrom i).getD 0 < _
        rw [hfrom]
        exact hj
      · refine .inr ⟨t.queueHead, by omega, by rw [hchild]; rfl, ?_⟩
        rw [hnew, hold _ hlt, hchild]
        rfl
  · intro i hi
    exact Nat.lt_of_lt_of_le (h.leaf i hi) (Nat.le_add_right _ _)
  · show t.nodeIdx + m + ((List.range' (t.queueHead + 1) (t.nodeIdx + m - (t.queueHead + 1))).map _).sum = _
    rw [hqueue, List.map_append, List.sum_append, List.map_map, List.map_congr_left fun k hk => by rw [hrest k hk]]
    simp only [Function.comp_def, hnew]
    omega
  · show (((List.range t.leafIdx).map fun i => grownWalk walk t.queueHead t.nodeIdx b (t.leaves i)) ++
      (List.range' (t.queueHead + 1) (t.nodeIdx + m - (t.queueHead + 1))).flatMap _).Perm _
    rw [hqueue, List.flatMap_append, List.flatMap_map, List.map_congr_left fun i hi => hold _ (h.leaf i (List.mem_range.mp hi)),
      List.flatMap_congr fun k hk => by rw [hrest k hk]]
    simp only [hnew]
    refine List.Perm.trans (List.Perm.append_left _ ?_) hcovered
    exact List.perm_append_comm

/-- A round leaves the invariant, or overruns an array because there are more paths than places. -/
theorem Travelled.visit (h : Travelled g startTb walk t) (hlt : t.queueHead < t.nodeIdx) :
    (∃ walk' t', t.visit g.tbs = .ok t' ∧ Travelled g startTb walk' t' ∧ t'.queueHead = t.queueHead + 1) ∨
      t.visit g.tbs = overrun ∧ (PATH_DEPTH * LEAF_MAX < (g.paths startTb).length ∨ LEAF_MAX < (g.leafPaths startTb).length) := by
  have hroom := h.room
  have hnode := h.node _ hlt
  obtain ⟨b, hb⟩ : ∃ b, g.tbs[(t.nodes t.queueHead).tb]? = some b := ⟨_, List.getElem?_eq_getElem hnode.lt⟩
  have hmem : b ∈ g.tbs := List.mem_of_getElem? hb
  unfold Travel.visit
  rw [Elems.load_eq _ (by omega), Except.ok_bind, h.queue _ hlt]
  dsimp only
  rw [Elems.load_eq _ (by omega), Except.ok_bind, hb]
  dsimp only
  by_cases hleaf : (t.nodes t.queueHead).depth = PATH_DEPTH ∨ b.jmpFromIndex = 0
  · rw [if_pos hleaf]
    by_cases hfull : t.leafIdx < LEAF_MAX
    · rw [Elems.store_eq _ hfull]
      exact .inl ⟨walk, _, rfl, h.addLeaf hlt hb hleaf hfull, rfl⟩
    · have := h.leaves_lt hlt
      rw [Elems.store, if_neg hfull]
      exact .inr ⟨rfl, .inr (by omega)⟩
  · rw [if_neg hleaf, addChildren_spec (t := { t with queueHead := t.queueHead + 1 }) h.tail hlt hroom
      fun i hi => (g.links b hmem i hi).imp fun j hj => hj.2]
    by_cases hfits : t.nodeIdx + b.jmpFromIndex.toNat ≤ PATH_DEPTH * LEAF_MAX
    · exact .inl ⟨_, _, if_pos hfits, h.grow hlt hb hleaf hfits, rfl⟩
    · have hcounted := h.counted
      rw [t.pending_cons hlt, List.map_cons, List.sum_cons, (hnode.go hb hleaf).1] at hcounted
      exact .inr ⟨if_neg hfits, .inl (by omega)⟩

/-- The travel finds all paths, or there are more than places. -/
theorem Travelled.loop (fuel : Nat) : ∀ {walk : Nat → Path} {t : Travel}, Travelled g startTb walk t →
    PATH_DEPTH * LEAF_MAX < fuel + t.queueHead →
    (∃ walk' t', Travel.loop g.tbs fuel t = .ok t' ∧ Travelled g startTb walk' t' ∧ t'.queueHead = t'.nodeIdx) ∨
      Travel.loop g.tbs fuel t = overrun ∧
        (PATH_DEPTH * LEAF_MAX < (g.paths startTb).length ∨ LEAF_MAX < (g.leafPaths startTb).length) := by
  induction fuel with
  | zero =>
    intro walk t h hfuel
    have := h.head
    have := h.room
    omega
  | succ fuel ih =>
    intro walk t h hfuel
    unfold Travel.loop
    rw [h.tail]
    by_cases hdone : t.queueHead = t.nodeIdx
    · rw [if_neg (not_not_intro hdone)]
      exact .inl ⟨walk, t, rfl, h, hdone⟩
    · have hhead := h.head
      rw [if_pos hdone]
      rcases h.visit (by omega) with ⟨walk', t', hvisit, h', hhead'⟩ | ⟨herr, hmany⟩
      · rw [hvisit, Except.ok_bind]
        exact ih h' (by omega)
      · rw [herr]
        exact .inr ⟨rfl, hmany⟩

/-- At the end the leaves stand for the paths to leaves, and there are places for all. -/
theorem Travelled.finished (h : Travelled g startTb walk t) (hdone : t.queueHead = t.nodeIdx) :
    t.nodeIdx = (g.paths startTb).length ∧ t.leafIdx = (g.leafPaths startTb).length ∧
      ((List.range t.leafIdx).map fun i => walk (t.leaves i)).Perm (g.leafPaths startTb) := by
  have hcounted := h.counted
  have hcovered := h.covered
  have hnone : t.pending = [] := by
    unfold Travel.pending
    rw [hdone, Nat.sub_self]
    rfl
  rw [hnone] at hcounted hcovered
  rw [List.flatMap_nil, List.append_nil] at hcovered
  refine ⟨hcounted, ?_, hcovered⟩
  have := hcovered.length_eq
  rwa [List.length_map, List.length_range] at this

end Unitrans
