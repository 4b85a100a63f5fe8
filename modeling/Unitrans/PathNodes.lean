/-
The nodes of the statistics by path hold each source and path at most once: the list of
a source is searched before a node is added behind its end.
-/
import Unitrans.PathProf
import Unitrans.TargetStats
import Unitrans.Library.LinkedNodes

namespace Unitrans

open X86 LinkedNodes

def statTgtOverflow : Fault := .abort "STAT_TGT overflow\n"

/-- `chain i` lists the nodes of the source of node `i`. -/
structure Threaded (c : PathNodes) (chain : Nat → List Nat) : Prop where
  room : c.count < STAT_NODE_MAX
  back : c.bIdx < STAT_NODE_MAX
  count : c.fIdx + (STAT_NODE_MAX - 1 - c.bIdx) = c.count
  thread : ∀ i < c.fIdx, Thread (fun n => (c.nodes n).next) i (chain i)
  used : ∀ i < c.fIdx, ∀ n ∈ chain i, n < c.fIdx ∨ c.bIdx < n ∧ n < STAT_NODE_MAX
  src : ∀ i < c.fIdx, ∀ n ∈ chain i, (c.nodes n).srcAddr = (c.nodes i).srcAddr
  heads : ∀ i < c.fIdx, ∀ j < c.fIdx, (c.nodes i).srcAddr = (c.nodes j).srcAddr → i = j
  paths : ∀ i < c.fIdx, ((chain i).map fun n => (c.nodes n).path).Nodup
  fresh : ∀ n, c.fIdx ≤ n → n ≤ c.bIdx → (c.nodes n).next = none
  few : ∀ n, (c.nodes n).tgtCount < STAT_TGT_MAX

/-- Node `n` is the node of the source and the path. -/
def PathNodes.At (c : PathNodes) (chain : Nat → List Nat) (n : Nat) (key : Word × List Word) : Prop :=
  (∃ i < c.fIdx, n ∈ chain i) ∧ ((c.nodes n).srcAddr, (c.nodes n).path) = key

theorem Threaded.empty : Threaded {} fun _ => [] := by
  constructor
  · show 0 < STAT_NODE_MAX
    decide
  · show STAT_NODE_MAX - 1 < STAT_NODE_MAX
    decide
  · rfl
  · exact fun i hi => absurd hi (Nat.not_lt_zero i)
  · exact fun i hi => absurd hi (Nat.not_lt_zero i)
  · exact fun i hi => absurd hi (Nat.not_lt_zero i)
  · exact fun i hi => absurd hi (Nat.not_lt_zero i)
  · exact fun i hi => absurd hi (Nat.not_lt_zero i)
  · exact fun _ _ _ => rfl
  · intro n
    show 0 < STAT_TGT_MAX
    decide

variable {c : PathNodes} {chain : Nat → List Nat}

theorem Threaded.lt (h : Threaded c chain) {i n : Nat} (hi : i < c.fIdx) (hn : n ∈ chain i) : n < STAT_NODE_MAX := by
  have := h.room
  have := h.count
  rcases h.used i hi n hn with hn | hn <;> omega

/-- A source and a path have one node. -/
theorem Threaded.unique (h : Threaded c chain) {n m : Nat} {key : Word × List Word} (hn : c.At chain n key)
    (hm : c.At chain m key) : n = m := by
  obtain ⟨⟨i, hi, hni⟩, rfl⟩ := hn
  obtain ⟨⟨j, hj, hmj⟩, heq⟩ := hm
  rw [Prod.mk.injEq] at heq
  obtain ⟨hsrc, hpath⟩ := heq
  rw [h.src j hj m hmj, h.src i hi n hni] at hsrc
  obtain rfl := h.heads j hj i hi hsrc
  exact List.inj_on_of_nodup_map (h.paths j hj) hni hmj hpath.symm

/-- The walk ends at the node of the path, or at the end of the list when no node has the path. -/
theorem walkPath_spec (c : PathNodes) (path : List Word) {n : Nat} {l : List Nat}
    (hl : Thread (fun n => (c.nodes n).next) n l) (hlt : ∀ m ∈ l, m < STAT_NODE_MAX) :
    ∀ fuel, l.length ≤ fuel → ∃ m found, walkPath c path fuel n = .ok (m, found) ∧ m ∈ l ∧
      if found then (c.nodes m).path = path else (c.nodes m).next = none ∧ ∀ k ∈ l, (c.nodes k).path ≠ path := by
  induction hl with
  | @last n hnone =>
    rintro (_ | fuel) hfuel
    · exact absurd hfuel (Nat.not_succ_le_zero 0)
    unfold walkPath
    rw [Elems.load_eq _ (hlt n List.mem_cons_self), Except.ok_bind]
    by_cases hp : (c.nodes n).path = path
    · rw [if_pos hp]
      exact ⟨n, true, rfl, List.mem_cons_self, hp⟩
    · rw [if_neg hp, hnone]
      refine ⟨n, false, rfl, List.mem_cons_self, hnone, fun k hk => ?_⟩
      rw [List.mem_singleton.mp hk]
      exact hp
  | @cons n n' l hsome hl ih =>
    rintro (_ | fuel) hfuel
    · exact absurd hfuel (Nat.not_succ_le_zero l.length)
    unfold walkPath
    rw [Elems.load_eq _ (hlt n List.mem_cons_self), Except.ok_bind]
    by_cases hp : (c.nodes n).path = path
    · rw [if_pos hp]
      exact ⟨n, true, rfl, List.mem_cons_self, hp⟩
    · obtain ⟨m, found, hwalk, hm, hfound⟩ :=
        ih (fun m hm => hlt m (List.mem_cons_of_mem _ hm)) fuel (Nat.le_of_succ_le_succ hfuel)
      rw [if_neg hp, hsome]
      refine ⟨m, found, hwalk, List.mem_cons_of_mem _ hm, ?_⟩
      cases found with
      | true => exact hfound
      | false =>
        obtain ⟨hend, hnot⟩ := hfound
        refine ⟨hend, fun k hk => ?_⟩
        rcases List.mem_cons.mp hk with rfl | hk
        · exact hp
        · exact hnot k hk

theorem Threaded.length_le (h : Threaded c chain) {i : Nat} (hi : i < c.fIdx) : (chain i).length ≤ STAT_NODE_MAX := by
  have hsub : chain i ⊆ List.range STAT_NODE_MAX := fun n hn => List.mem_range.mpr (h.lt hi hn)
  have := (List.subperm_of_subset (h.paths i hi).of_map hsub).length_le
  rwa [List.length_range] at this

/-- The node that `make_stat_node` writes. -/
def PathNode.made (node : PathNode) (srcAddr : Word) (path : List Word) : PathNode :=
  { node with srcAddr := srcAddr, path := path, tgtCount := 0, tgtRecentHit := 0 }

theorem makeStatNode_eq (c : PathNodes) (srcAddr : Word) (path : List Word) {idx : Nat} (hidx : idx < STAT_NODE_MAX) :
    makeStatNode c srcAddr path idx = if c.count + 1 = STAT_NODE_MAX then .error statNodeOverflow
      else .ok { c with nodes := Function.update c.nodes idx ((c.nodes idx).made srcAddr path), count := c.count + 1 } := by
  unfold makeStatNode
  rw [Elems.load_eq _ hidx, Except.ok_bind]
  dsimp only
  rw [Elems.store_eq _ hidx, Except.ok_bind]
  split
  · rename_i hfull
    rw [hfull]
    rfl
  · rename_i hroom
    rw [beq_eq_false_iff_ne.mpr hroom]
    rfl

/-- The first node of a source. -/
theorem Threaded.addHead (h : Threaded c chain) {srcAddr : Word} (path : List Word)
    (hnew : ∀ i < c.fIdx, (c.nodes i).srcAddr ≠ srcAddr) (hroom : c.count + 1 < STAT_NODE_MAX) :
    Threaded { c with nodes := Function.update c.nodes c.fIdx ((c.nodes c.fIdx).made srcAddr path)
                      count := c.count + 1
                      fIdx := c.fIdx + 1 } (Function.update chain c.fIdx [c.fIdx]) := by
  obtain ⟨-, back, count, thread, used, src, heads, paths, fresh, few⟩ := h
  have hchain : ∀ i < c.fIdx, ∀ n ∈ chain i, n ≠ c.fIdx := fun i hi n hn => by
    rcases used i hi n hn with h | h <;> omega
  constructor
  · exact hroom
  · exact back
  · show c.fIdx + 1 + (STAT_NODE_MAX - 1 - c.bIdx) = c.count + 1
    omega
  · intro i hi
    rcases Nat.lt_succ_iff_lt_or_eq.mp hi with hi | rfl
    · rw [Function.update_of_ne (Nat.ne_of_lt hi)]
      refine (thread i hi).congr fun n hn => ?_
      show (Function.update c.nodes _ _ n).next = _
      rw [Function.update_of_ne (hchain i hi n hn)]
    · rw [Function.update_self]
      refine .last ?_
      show (Function.update c.nodes _ _ c.fIdx).next = none
      rw [Function.update_self]
      exact fresh c.fIdx (Nat.le_refl _) (by omega)
  · intro i hi n hn
    show n < c.fIdx + 1 ∨ _
    rcases Nat.lt_succ_iff_lt_or_eq.mp hi with hi | rfl
    · rw [Function.update_of_ne (Nat.ne_of_lt hi)] at hn
      rcases used i hi n hn with h | h
      · exact .inl (Nat.lt_succ_of_lt h)
      · exact .inr h
    · rw [Function.update_self, List.mem_singleton] at hn
      exact .inl (hn ▸ Nat.lt_succ_self _)
  · intro i hi n hn
    show (Function.update c.nodes _ _ n).srcAddr = (Function.update c.nodes _ _ i).srcAddr
    rcases Nat.lt_succ_iff_lt_or_eq.mp hi with hi | rfl
    · rw [Function.update_of_ne (Nat.ne_of_lt hi)] at hn
      rw [Function.update_of_ne (Nat.ne_of_lt hi), Function.update_of_ne (hchain i hi n hn)]
      exact src i hi n hn
    · rw [Function.update_self, List.mem_singleton] at hn
      rw [hn]
  · intro i hi j hj hij
    change (Function.update c.nodes _ _ i).srcAddr = (Function.update c.nodes _ _ j).srcAddr at hij
    rcases Nat.lt_succ_iff_lt_or_eq.mp hi with hi | rfl <;> rcases Nat.lt_succ_iff_lt_or_eq.mp hj with hj | rfl
    · rw [Function.update_of_ne (Nat.ne_of_lt hi), Function.update_of_ne (Nat.ne_of_lt hj)] at hij
      exact heads i hi j hj hij
    · rw [Function.update_of_ne (Nat.ne_of_lt hi), Function.update_self] at hij
      exact absurd hij (hnew i hi)
    · rw [Function.update_of_ne (Nat.ne_of_lt hj), Function.update_self] at hij
      exact absurd hij.symm (hnew j hj)
    · rfl
  · intro i hi
    rcases Nat.lt_succ_iff_lt_or_eq.mp hi with hi | rfl
    · rw [Function.update_of_ne (Nat.ne_of_lt hi)]
      refine (List.map_congr_left fun n hn => ?_) ▸ paths i hi
      show (c.nodes n).path = (Function.update c.nodes _ _ n).path
      rw [Function.update_of_ne (hchain i hi n hn)]
    · rw [Function.update_self]
      exact List.nodup_singleton _
  · intro n hn hle
    have hn : c.fIdx + 1 ≤ n := hn
    show (Function.update c.nodes _ _ n).next = none
    rw [Function.update_of_ne (by omega)]
    exact fresh n (by omega) hle
  · intro n
    show (Function.update c.nodes _ _ n).tgtCount < _
    by_cases hn : n = c.fIdx
    · rw [hn, Function.update_self]
      show 0 < STAT_TGT_MAX
      decide
    · rw [Function.update_of_ne hn]
      exact few n

/-- The nodes with a new one linked behind `prev`. -/
def PathNodes.linked (c : PathNodes) (srcAddr : Word) (path : List Word) (prev : Nat) : PathNodes :=
  let nodes := Function.update c.nodes c.bIdx ((c.nodes c.bIdx).made srcAddr path)
  { nodes := Function.update nodes prev { nodes prev with next := some c.bIdx }
    count := c.count + 1
    fIdx := c.fIdx
    bIdx := c.bIdx - 1 }

theorem linked_new (c : PathNodes) (srcAddr : Word) (path : List Word) {prev : Nat} (hprev : prev ≠ c.bIdx) :
    (c.linked srcAddr path prev).nodes c.bIdx = (c.nodes c.bIdx).made srcAddr path := by
  unfold PathNodes.linked
  dsimp only
  rw [Function.update_of_ne (Ne.symm hprev), Function.update_self]

/-- The other nodes keep everything but the link behind `prev`. -/
theorem linked_old (c : PathNodes) (srcAddr : Word) (path : List Word) (prev : Nat) {n : Nat} (hn : n ≠ c.bIdx) :
    (c.linked srcAddr path prev).nodes n = { c.nodes n with next := Function.update (fun n => (c.nodes n).next) prev (some c.bIdx) n } := by
  unfold PathNodes.linked
  dsimp only
  by_cases hnp : n = prev
  · rw [hnp, Function.update_self, Function.update_self, Function.update_of_ne (hnp ▸ hn)]
  · rw [Function.update_of_ne hnp, Function.update_of_ne hn, Function.update_of_ne hnp]

/-- A further path of a source. -/
theorem Threaded.addPath (h : Threaded c chain) {i prev : Nat} (hi : i < c.fIdx) (hprev : prev ∈ chain i)
    (hend : (c.nodes prev).next = none) {path : List Word} (hnew : ∀ n ∈ chain i, (c.nodes n).path ≠ path)
    (hroom : c.count + 1 < STAT_NODE_MAX) :
    Threaded (c.linked (c.nodes i).srcAddr path prev) (Function.update chain i (chain i ++ [c.bIdx])) := by
  have huniq : ∀ j < c.fIdx, j ≠ i → prev ∉ chain j := fun j hj hji hmem => by
    have := (h.src i hi prev hprev).symm.trans (h.src j hj prev hmem)
    exact hji (h.heads i hi j hj this).symm
  obtain ⟨-, back, count, thread, used, src, heads, paths, fresh, few⟩ := h
  have hchain : ∀ j < c.fIdx, ∀ n ∈ chain j, n ≠ c.bIdx := fun j hj n hn => by
    rcases used j hj n hn with h | h <;> omega
  have hhead : ∀ j < c.fIdx, j ≠ c.bIdx := fun j hj => by omega
  have hnext : ∀ j < c.fIdx, ∀ n ∈ chain j, ((c.linked (c.nodes i).srcAddr path prev).nodes n).next =
      Function.update (fun n => (c.nodes n).next) prev (some c.bIdx) n := fun j hj n hn => by
    rw [linked_old _ _ _ _ (hchain j hj n hn)]
  have hpath : ∀ j < c.fIdx, ∀ n ∈ chain j, ((c.linked (c.nodes i).srcAddr path prev).nodes n).path = (c.nodes n).path :=
    fun j hj n hn => by rw [linked_old _ _ _ _ (hchain j hj n hn)]
  have hsrc : ∀ n ≠ c.bIdx, ((c.linked (c.nodes i).srcAddr path prev).nodes n).srcAddr = (c.nodes n).srcAddr :=
    fun n hn => by rw [linked_old _ _ _ _ hn]
  have hne := hchain i hi prev hprev
  constructor
  · exact hroom
  · show c.bIdx - 1 < STAT_NODE_MAX
    omega
  · show c.fIdx + (STAT_NODE_MAX - 1 - (c.bIdx - 1)) = c.count + 1
    omega
  · intro j hj
    have hj : j < c.fIdx := hj
    by_cases hji : j = i
    · subst hji
      rw [Function.update_self]
      have hthread := (thread j hj).append hprev hend (fun hmem => hchain j hj _ hmem rfl) (fresh _ (by omega) (Nat.le_refl _))
      refine hthread.congr fun n hn => ?_
      rcases List.mem_append.mp hn with hn | hn
      · exact hnext j hj n hn
      · rw [List.mem_singleton.mp hn, linked_new _ _ _ hne, Function.update_of_ne hne.symm]
        rfl
    · rw [Function.update_of_ne hji]
      refine (thread j hj).congr fun n hn => ?_
      have hnp : n ≠ prev := fun heq => huniq j hj hji (heq ▸ hn)
      rw [hnext j hj n hn, Function.update_of_ne hnp]
  · intro j hj n hn
    have hj : j < c.fIdx := hj
    show n < c.fIdx ∨ c.bIdx - 1 < n ∧ n < STAT_NODE_MAX
    have hold : ∀ n ∈ chain j, n < c.fIdx ∨ c.bIdx - 1 < n ∧ n < STAT_NODE_MAX := fun n hn => by
      rcases used j hj n hn with h | h <;> omega
    by_cases hji : j = i
    · rw [hji, Function.update_self, List.mem_append] at hn
      rcases hn with hn | hn
      · exact hold n (hji ▸ hn)
      · rw [List.mem_singleton.mp hn]
        omega
    · rw [Function.update_of_ne hji] at hn
      exact hold n hn
  · intro j hj n hn
    have hj : j < c.fIdx := hj
    rw [hsrc j (hhead j hj)]
    by_cases hji : j = i
    · rw [hji, Function.update_self, List.mem_append] at hn
      rw [hji]
      rcases hn with hn | hn
      · rw [hsrc n (hchain i hi n hn)]
        exact src i hi n hn
      · rw [List.mem_singleton.mp hn, linked_new _ _ _ hne]
        rfl
    · rw [Function.update_of_ne hji] at hn
      rw [hsrc n (hchain j hj n hn)]
      exact src j hj n hn
  · intro j hj k hk hjk
    rw [hsrc j (hhead j hj), hsrc k (hhead k hk)] at hjk
    exact heads j hj k hk hjk
  · intro j hj
    have hj : j < c.fIdx := hj
    have hold : (chain j).map (fun n => ((c.linked (c.nodes i).srcAddr path prev).nodes n).path) =
        (chain j).map fun n => (c.nodes n).path := List.map_congr_left (hpath j hj)
    by_cases hji : j = i
    · rw [hji] at hold ⊢
      rw [Function.update_self, List.map_append, hold, List.map_singleton, linked_new _ _ _ hne]
      refine List.nodup_append.mpr ⟨paths i hi, List.nodup_singleton _, fun p hp q hq => ?_⟩
      obtain ⟨n, hn, rfl⟩ := List.mem_map.mp hp
      rw [List.mem_singleton.mp hq]
      exact hnew n hn
    · rw [Function.update_of_ne hji, hold]
      exact paths j hj
  · intro n hn hle
    have hn : c.fIdx ≤ n := hn
    have hle : n ≤ c.bIdx - 1 := hle
    have hnp : n ≠ prev := by
      rcases used i hi prev hprev with h | h <;> omega
    rw [linked_old _ _ _ _ (by omega), Function.update_of_ne hnp]
    exact fresh n hn (by omega)
  · intro n
    by_cases hn : n = c.bIdx
    · rw [hn, linked_new _ _ _ hne]
      show 0 < STAT_TGT_MAX
      decide
    · rw [linked_old _ _ _ _ hn]
      exact few n

/-! ## Calls -/

theorem findNodeWithPath_spec (h : Threaded c chain) (srcAddr : Word) (path : List Word) :
    findNodeWithPath c srcAddr path = .error statNodeOverflow ∨
      ∃ n c' chain', findNodeWithPath c srcAddr path = .ok (n, c') ∧ Threaded c' chain' ∧ c'.At chain' n (srcAddr, path) ∧
        ∀ m key, c.At chain m key → c'.At chain' m key := by
  have hcount := h.count
  have hroom := h.room
  obtain ⟨i, hsearch, -, hle, hbefore, hat⟩ := search_eq (fun i => do return (← c.nodes.load i).srcAddr == srcAddr)
    (fun i => (c.nodes i).srcAddr == srcAddr) c.fIdx 0 (fun j _ hj => by
      rw [Elems.load_eq _ (by omega)]
      rfl)
  unfold findNodeWithPath
  rw [hsearch, Except.ok_bind]
  by_cases hi : i = c.fIdx
  · have hnew : ∀ j < c.fIdx, (c.nodes j).srcAddr ≠ srcAddr := fun j hj =>
      beq_eq_false_iff_ne.mp (hbefore j (Nat.zero_le j) (hi ▸ hj))
    rw [if_pos hi, hi, makeStatNode_eq _ _ _ (by omega)]
    split
    · exact .inl rfl
    · rename_i hne
      change ¬ c.count + 1 = STAT_NODE_MAX at hne
      have hthreaded := h.addHead path hnew (by omega)
      refine .inr ⟨c.fIdx, _, _, rfl, hthreaded, ⟨⟨c.fIdx, Nat.lt_succ_self _, ?_⟩, ?_⟩, fun m key hm => ?_⟩
      · rw [Function.update_self]
        exact List.mem_singleton_self _
      · show ((Function.update c.nodes _ _ c.fIdx).srcAddr, (Function.update c.nodes _ _ c.fIdx).path) = _
        rw [Function.update_self]
        rfl
      · obtain ⟨⟨j, hj, hmj⟩, hkey⟩ := hm
        have hmf : m ≠ c.fIdx := by
          rcases h.used j hj m hmj with h | h <;> omega
        refine ⟨⟨j, Nat.lt_succ_of_lt hj, ?_⟩, ?_⟩
        · rw [Function.update_of_ne (Nat.ne_of_lt hj)]
          exact hmj
        · show ((Function.update c.nodes _ _ m).srcAddr, (Function.update c.nodes _ _ m).path) = _
          rw [Function.update_of_ne hmf]
          exact hkey
  · have hilt : i < c.fIdx := by omega
    have hsrc : (c.nodes i).srcAddr = srcAddr := beq_iff_eq.mp (hat (by omega))
    obtain ⟨prev, found, hwalk, hprev, hfound⟩ :=
      walkPath_spec c path (h.thread i hilt) (fun m hm => h.lt hilt hm) STAT_NODE_MAX (h.length_le hilt)
    rw [if_neg hi, hwalk, Except.ok_bind]
    dsimp only
    cases found with
    | true =>
      rw [if_pos rfl]
      refine .inr ⟨prev, c, chain, rfl, h, ⟨⟨i, hilt, hprev⟩, ?_⟩, fun _ _ hm => hm⟩
      have hpath : (c.nodes prev).path = path := hfound
      rw [h.src i hilt prev hprev, hsrc, hpath]
    | false =>
      obtain ⟨hend, hnew⟩ := hfound
      have hback := h.back
      have hne : prev ≠ c.bIdx := by
        rcases h.used i hilt prev hprev with h | h <;> omega
      rw [if_neg Bool.false_ne_true, makeStatNode_eq _ _ _ h.back]
      split
      · exact .inl rfl
      · rename_i hfull
        change ¬ c.count + 1 = STAT_NODE_MAX at hfull
        have hthreaded := h.addPath hilt hprev hend hnew (by omega)
        rw [hsrc] at hthreaded
        rw [Except.ok_bind, Elems.load_eq _ (h.lt hilt hprev), Except.ok_bind, Elems.store_eq _ (h.lt hilt hprev)]
        refine .inr ⟨c.bIdx, c.linked srcAddr path prev, _, rfl, hthreaded, ⟨⟨i, hilt, ?_⟩, ?_⟩, fun m key hm => ?_⟩
        · rw [Function.update_self]
          exact List.mem_append_right _ (List.mem_singleton_self _)
        · rw [linked_new _ _ _ hne]
          rfl
        · obtain ⟨⟨j, hj, hmj⟩, hkey⟩ := hm
          have hmb : m ≠ c.bIdx := by
            rcases h.used j hj m hmj with h | h <;> omega
          refine ⟨⟨j, hj, ?_⟩, by rw [linked_old _ _ _ _ hmb]; exact hkey⟩
          by_cases hji : j = i
          · rw [hji, Function.update_self]
            exact List.mem_append_left _ (hji ▸ hmj)
          · rw [Function.update_of_ne hji]
            exact hmj

/-- A target is counted, or there are as many targets as places. -/
theorem addTgtPath_spec {node : StatNode} (h : node.tgtCount < STAT_TGT_MAX) (tgtAddr : Word) :
    node.addTgtPath tgtAddr = .error statTgtOverflow ∨
      ∃ node', node.addTgtPath tgtAddr = .ok node' ∧ node'.srcAddr = node.srcAddr ∧ node'.tgtCount < STAT_TGT_MAX := by
  obtain ⟨i, hsearch, hi, -, -⟩ := searchTgt_spec (Nat.le_of_lt h) tgtAddr
  have hmax : i < STAT_TGT_MAX := by omega
  have hrecent : ∀ (n : StatNode) (hits : Word), n.srcAddr = node.srcAddr → n.tgtCount < STAT_TGT_MAX →
      ∃ node', statTgtRecentTh tgtAddr n hits = .ok node' ∧ node'.srcAddr = node.srcAddr ∧ node'.tgtCount < STAT_TGT_MAX := by
    intro n hits hsrc hlt
    obtain ⟨node', hok, hsame⟩ := statTgtRecentTh_spec tgtAddr n hits
    obtain ⟨hsrc', -, -, -, hcount⟩ := hsame
    exact ⟨node', hok, hsrc'.trans hsrc, hcount ▸ hlt⟩
  unfold StatNode.addTgtPath
  dsimp only
  rw [hsearch, Except.ok_bind]
  by_cases hlt : i < node.tgtCount
  · rw [if_pos hlt, Elems.load_eq _ hmax, Except.ok_bind, Elems.store_eq _ hmax, Except.ok_bind]
    right
    simp only [pure, Except.pure, Except.ok_bind, Elems.load_eq _ hmax]
    exact hrecent _ _ rfl h
  · rw [if_neg hlt, Elems.store_eq _ hmax, Except.ok_bind, Elems.store_eq _ hmax, Except.ok_bind]
    by_cases hfull : node.tgtCount + 1 = STAT_TGT_MAX
    · left
      rw [hfull]
      rfl
    · right
      rw [beq_eq_false_iff_ne.mpr hfull]
      simp only [abortIf, Bool.false_eq_true, if_false, pure, Except.pure, Except.ok_bind, Elems.load_eq _ hmax]
      exact hrecent _ _ rfl (show node.tgtCount + 1 < STAT_TGT_MAX by omega)

/-- The statistics of a node are no part of the lists. -/
theorem Threaded.setStat (h : Threaded c chain) (n : Nat) {stat : StatNode} (hsrc : stat.srcAddr = (c.nodes n).srcAddr)
    (hlt : stat.tgtCount < STAT_TGT_MAX) :
    Threaded { c with nodes := Function.update c.nodes n { c.nodes n with toStatNode := stat } } chain ∧
      ∀ m key, c.At chain m key →
        PathNodes.At { c with nodes := Function.update c.nodes n { c.nodes n with toStatNode := stat } } chain m key := by
  have hsame : ∀ m, (Function.update c.nodes n { c.nodes n with toStatNode := stat } m).srcAddr = (c.nodes m).srcAddr ∧
      (Function.update c.nodes n { c.nodes n with toStatNode := stat } m).path = (c.nodes m).path ∧
      (Function.update c.nodes n { c.nodes n with toStatNode := stat } m).next = (c.nodes m).next ∧
      (Function.update c.nodes n { c.nodes n with toStatNode := stat } m).tgtCount < STAT_TGT_MAX := fun m => by
    by_cases hm : m = n
    · rw [hm, Function.update_self]
      exact ⟨hsrc, rfl, rfl, hlt⟩
    · rw [Function.update_of_ne hm]
      exact ⟨rfl, rfl, rfl, h.few m⟩
  generalize Function.update c.nodes n { c.nodes n with toStatNode := stat } = nodes at hsame
  obtain ⟨room, back, count, thread, used, src, heads, paths, fresh, -⟩ := h
  refine ⟨⟨room, back, count, ?_, used, ?_, ?_, ?_, ?_, ?_⟩, ?_⟩
  · exact fun i hi => (thread i hi).congr fun m _ => (hsame m).2.2.1
  · intro i hi m hm
    show (nodes m).srcAddr = (nodes i).srcAddr
    rw [(hsame m).1, (hsame i).1]
    exact src i hi m hm
  · intro i hi j hj hij
    change (nodes i).srcAddr = (nodes j).srcAddr at hij
    rw [(hsame i).1, (hsame j).1] at hij
    exact heads i hi j hj hij
  · intro i hi
    refine (List.map_congr_left fun m _ => ?_) ▸ paths i hi
    exact (hsame m).2.1.symm
  · exact fun m hm hle => (hsame m).2.2.1.trans (fresh m hm hle)
  · exact fun m => (hsame m).2.2.2
  · rintro m key ⟨hmem, rfl⟩
    refine ⟨hmem, ?_⟩
    show ((nodes m).srcAddr, (nodes m).path) = _
    rw [(hsame m).1, (hsame m).2.1]

/-- The ways a run may abort. -/
def Overflow (f : Fault) : Prop := f = statNodeOverflow ∨ f = statTgtOverflow

theorem statTgtAddPath_spec (h : Threaded c chain) {call : PathCall} {path : List Word} (hpath : call.stack.path = .ok path) :
    (∃ f, statTgtAddPath c call = .error f ∧ Overflow f) ∨
      ∃ n c' chain', statTgtAddPath c call = .ok (n, c') ∧ Threaded c' chain' ∧ c'.At chain' n (call.srcAddr, path) ∧
        ∀ m key, c.At chain m key → c'.At chain' m key := by
  unfold statTgtAddPath
  rw [hpath, Except.ok_bind]
  rcases findNodeWithPath_spec h call.srcAddr path with herr | ⟨n, c₁, chain₁, hfind, h₁, hat, hkeep⟩
  · rw [herr]
    exact .inl ⟨_, rfl, .inl rfl⟩
  have hn : n < STAT_NODE_MAX := by
    obtain ⟨⟨i, hi, hni⟩, -⟩ := hat
    exact h₁.lt hi hni
  rw [hfind, Except.ok_bind]
  dsimp only
  rw [Elems.load_eq _ hn, Except.ok_bind]
  rcases addTgtPath_spec (h₁.few n) call.tgtAddr with herr | ⟨stat, hok, hsrc, hlt⟩
  · rw [herr]
    exact .inl ⟨_, rfl, .inr rfl⟩
  · obtain ⟨h₂, hkeep₂⟩ := h₁.setStat n hsrc hlt
    rw [hok, Except.ok_bind, Elems.store_eq _ hn]
    exact .inr ⟨n, _, chain₁, rfl, h₂, hkeep₂ n _ hat, fun m key hm => hkeep₂ m key (hkeep m key hm)⟩

/-- Each execution of a run has the node of its source and path. -/
theorem statPathRun_spec (path : PathStack → List Word) (hpath : ∀ s : PathStack, s.path = .ok (path s)) (calls : List PathCall) :
    ∀ {c : PathNodes} {chain : Nat → List Nat}, Threaded c chain →
      (∃ f, statPathRun c calls = .error f ∧ Overflow f) ∨
        ∃ ns c' chain', statPathRun c calls = .ok (ns, c') ∧ Threaded c' chain' ∧
          List.Forall₂ (fun call n => c'.At chain' n (call.srcAddr, path call.stack)) calls ns ∧
          ∀ m key, c.At chain m key → c'.At chain' m key := by
  induction calls with
  | nil =>
    intro c chain h
    exact .inr ⟨[], c, chain, rfl, h, .nil, fun _ _ hm => hm⟩
  | cons call calls ih =>
    intro c chain h
    unfold statPathRun
    rcases statTgtAddPath_spec h (hpath call.stack) with ⟨f, herr, hf⟩ | ⟨n, c₁, chain₁, hok, h₁, hat, hkeep⟩
    · rw [herr]
      exact .inl ⟨f, rfl, hf⟩
    rw [hok, Except.ok_bind]
    dsimp only
    rcases ih h₁ with ⟨f, herr, hf⟩ | ⟨ns, c₂, chain₂, hrun, h₂, hall, hkeep₂⟩
    · rw [herr]
      exact .inl ⟨f, rfl, hf⟩
    · rw [hrun]
      exact .inr ⟨n :: ns, c₂, chain₂, rfl, h₂, .cons (hkeep₂ n _ hat) hall, fun m key hm => hkeep₂ m key (hkeep m key hm)⟩

end Unitrans
