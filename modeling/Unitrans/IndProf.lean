/-
The statistics of indirect branches (`ind-prof.c`): a node for each branch, with
the targets seen at it and how often, and what the most frequent targets would
have caught.
-/
import Unitrans.State

namespace Unitrans

open X86

def STAT_NODE_MAX : Nat := 2048 * 8
def STAT_TGT_MAX : Nat := 256
def IND_THRESHOLD : Word := 30

/-- A loop over `n` places from `i` on that a passed test breaks: where it leaves `i`. -/
def search (test : Nat → Result Bool) : Nat → Nat → Result Nat
  | 0, i => .ok i
  | n + 1, i => do if ← test i then return i else search test n (i + 1)

/-! ## The nodes -/

structure StatNode where
  srcAddr : Word := 0
  tgtAddr : Elems STAT_TGT_MAX Word := fun _ => 0
  tgtAddrHit : Elems STAT_TGT_MAX (BitVec 64) := fun _ => 0
  tgtDynCount : BitVec 64 := 0
  tgtCount : Nat := 0
  tgtRecentAddr : Elems IND_SLOT_MAX Word := fun _ => 0
  tgtRecentHit : BitVec 64 := 0
  recentIndex : BitVec 64 := 0

/-- The nodes of `code_gen_context`. -/
structure StatNodes where
  nodes : Elems STAT_NODE_MAX StatNode := fun _ => {}
  count : Nat := 0

def statTgtRecentTh (tgtAddr : Word) (node : StatNode) (hits : Word) : Result StatNode := do
  let i ← search (fun i => do return tgtAddr == (← node.tgtRecentAddr.load i)) IND_SLOT_MAX 0
  let node := if i < IND_SLOT_MAX then { node with tgtRecentHit := node.tgtRecentHit + 1 } else node
  if node.recentIndex.toNat < IND_SLOT_MAX ∧ i = IND_SLOT_MAX ∧ IND_THRESHOLD < hits then do
    let recent ← node.tgtRecentAddr.store node.recentIndex.toNat tgtAddr
    return { node with tgtRecentAddr := recent, recentIndex := node.recentIndex + 1 }
  else return node

/-- `stat_tgt_add` from where it has the node. -/
def StatNode.addTgt (node : StatNode) (tgtAddr : Word) : Result StatNode := do
  let node := { node with tgtDynCount := node.tgtDynCount + 1 }
  let i ← search (fun i => do return tgtAddr == (← node.tgtAddr.load i)) node.tgtCount 0
  let (i, node) ← if i < node.tgtCount then do
      let hits ← node.tgtAddrHit.load i
      let tgtAddrHit ← node.tgtAddrHit.store i (hits + 1)
      pure (i, { node with tgtAddrHit := tgtAddrHit })
    else do
      let i := if i ≥ STAT_TGT_MAX then i % STAT_TGT_MAX else i
      let addr ← node.tgtAddr.store i tgtAddr
      let tgtAddrHit ← node.tgtAddrHit.store i 1
      pure (i, { node with tgtAddr := addr, tgtAddrHit := tgtAddrHit, tgtCount := node.tgtCount + 1 })
  let hits ← node.tgtAddrHit.load i
  statTgtRecentTh tgtAddr node (hits.setWidth 32)

/-- The node of a source, new if there is none. -/
def statNode (c : StatNodes) (srcAddr : Word) : Result (Nat × StatNodes) := do
  let i ← search (fun i => do return (← c.nodes.load i).srcAddr == srcAddr) c.count 0
  if i = c.count then do
    let node ← c.nodes.load i
    let nodes ← c.nodes.store i { node with srcAddr := srcAddr, tgtCount := 0, tgtRecentHit := 0 }
    abortIf (c.count + 1 == STAT_NODE_MAX) "STAT_NODE overflow\n"
    return (i, { nodes := nodes, count := c.count + 1 })
  else return (i, c)

def statTgtAdd (c : StatNodes) (srcAddr tgtAddr : Word) : Result StatNodes := do
  let (i, c) ← statNode c srcAddr
  let node ← c.nodes.load i
  let node ← node.addTgt tgtAddr
  let nodes ← c.nodes.store i node
  return { c with nodes := nodes }

/-- A run of calls, each with its source and its target. -/
def statRun (calls : List (Word × Word)) : Result StatNodes :=
  calls.foldlM (fun c call => statTgtAdd c call.1 call.2) {}

/-! ## The most frequent targets -/

/-- The loop of `heapify`; `i` grows in each round. -/
def heapifyFrom {m : Nat} (n : Nat) : Nat → Nat → Elems m (BitVec 64) → Result (Elems m (BitVec 64))
  | 0, _, _ => .error .hang
  | fuel + 1, i, heap =>
    if i ≤ n / 2 then do
      let left := i * 2
      let right := i * 2 + 1
      let swap ← if right > n then pure left
        else do if (← heap.load left) < (← heap.load right) then pure left else pure right
      let hi ← heap.load i
      let hswap ← heap.load swap
      if hi < hswap then return heap
      let heap ← heap.store i hswap
      let heap ← heap.store swap hi
      heapifyFrom n fuel swap heap
    else return heap

def heapify {m : Nat} (heap : Elems m (BitVec 64)) (n : Nat) : Result (Elems m (BitVec 64)) :=
  heapifyFrom n (n + 1) 1 heap

/-- The body of the first loop of `find_static_max_hit`. -/
def countHit (node : StatNode) (heap : Elems (IND_SLOT_MAX + 1) (BitVec 64)) (i : Nat) :
    Result (Elems (IND_SLOT_MAX + 1) (BitVec 64)) := do
  let hits ← node.tgtAddrHit.load i
  if (← heap.load 1) < hits then do
    let heap ← heap.store 1 hits
    heapify heap (IND_SLOT_MAX + 1)
  else return heap

def findStaticMaxHit (node : StatNode) : Result (BitVec 64) := do
  let heap ← (List.range node.tgtCount).foldlM (countHit node) fun _ => 0
  (List.range IND_SLOT_MAX).foldlM (fun sum i => do return sum + (← heap.load (i + 1))) 0

end Unitrans
