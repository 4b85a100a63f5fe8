/-
The statistics of indirect branches by path (`PROF_PATH`, `ind-prof.c`): a ring of the
blocks run last, and a node for each source and path to it. The nodes of the sources
fill the table from its front, the other paths of a source from its back, in a list
that starts at the node of the source.
-/
import Unitrans.IndProf

namespace Unitrans

open X86

def PATH_DEPTH : Nat := 4
def PATH_STACK_SIZE : Nat := 64

/-- The ring of the blocks, with the place of the next one. -/
structure PathStack where
  base : Elems PATH_STACK_SIZE Word
  index : Nat
  index_lt : index < PATH_STACK_SIZE

namespace PathStack

/-- `*(env->path_stack_base + j)`. -/
def load (s : PathStack) (j : Int) : Result Word := if 0 ≤ j then s.base.load j.toNat else .error .outOfBounds

/-- The loop of `stat_tgt_add_path` that fills the path, for `n` places from `i` on. -/
def pathFrom (s : PathStack) : Nat → Nat → Int → Result (List Word)
  | 0, _, _ => .ok []
  | n + 1, i, j => do
    let j := j - i
    let j := if j < 0 then j + PATH_STACK_SIZE else j
    let prevTb ← s.load j
    return prevTb :: (← pathFrom s n (i + 1) j)

def path (s : PathStack) : Result (List Word) := s.pathFrom PATH_DEPTH 0 (s.index - 1)

end PathStack

/-! ## The nodes -/

structure PathNode extends StatNode where
  path : List Word := List.replicate PATH_DEPTH 0
  next : Option Nat := none

/-- The nodes of `code_gen_context` with the indices `f_idx` and `b_idx`. -/
structure PathNodes where
  nodes : Elems STAT_NODE_MAX PathNode := fun _ => {}
  count : Nat := 0
  fIdx : Nat := 0
  bIdx : Nat := STAT_NODE_MAX - 1

/-- The `memcpy` copies `PATH_DEPTH + 1` words, one more than the caller's array has. That last word of the node's path,
which `find_node_with_path` does not compare, is left out. -/
def makeStatNode (c : PathNodes) (srcAddr : Word) (path : List Word) (idx : Nat) : Result PathNodes := do
  let node ← c.nodes.load idx
  let node := { node with srcAddr := srcAddr, path := path, tgtCount := 0, tgtRecentHit := 0 }
  let nodes ← c.nodes.store idx node
  abortIf (c.count + 1 == STAT_NODE_MAX) "STAT_NODE overflow\n"
  return { c with nodes := nodes, count := c.count + 1 }

/-- The loop of `find_node_with_path` along `next`: the last node it looked at, and whether the path is its path. -/
def walkPath (c : PathNodes) (path : List Word) : Nat → Nat → Result (Nat × Bool)
  | 0, _ => .error .hang
  | fuel + 1, n => do
    let node ← c.nodes.load n
    if node.path = path then return (n, true)
    else match node.next with
      | none => return (n, false)
      | some n' => walkPath c path fuel n'

def findNodeWithPath (c : PathNodes) (srcAddr : Word) (path : List Word) : Result (Nat × PathNodes) := do
  let i ← search (fun i => do return (← c.nodes.load i).srcAddr == srcAddr) c.fIdx 0
  if i = c.fIdx then do
    let c ← makeStatNode { c with fIdx := c.fIdx + 1 } srcAddr path i
    return (i, c)
  else do
    let (prev, found) ← walkPath c path STAT_NODE_MAX i
    if found then return (prev, c)
    else do
      let n := c.bIdx
      let c ← makeStatNode { c with bIdx := c.bIdx - 1 } srcAddr path n
      let prevNode ← c.nodes.load prev
      let nodes ← c.nodes.store prev { prevNode with next := some n }
      return (n, { c with nodes := nodes })

/-- `stat_tgt_add_path` from where it has the node. -/
def StatNode.addTgtPath (node : StatNode) (tgtAddr : Word) : Result StatNode := do
  let node := { node with tgtDynCount := node.tgtDynCount + 1 }
  let i ← search (fun i => do return tgtAddr == (← node.tgtAddr.load i)) node.tgtCount 0
  let node ← if i < node.tgtCount then do
      let hits ← node.tgtAddrHit.load i
      let tgtAddrHit ← node.tgtAddrHit.store i (hits + 1)
      pure { node with tgtAddrHit := tgtAddrHit }
    else do
      let addr ← node.tgtAddr.store i tgtAddr
      let tgtAddrHit ← node.tgtAddrHit.store i 1
      abortIf (node.tgtCount + 1 == STAT_TGT_MAX) "STAT_TGT overflow\n"
      pure { node with tgtAddr := addr, tgtAddrHit := tgtAddrHit, tgtCount := node.tgtCount + 1 }
  let hits ← node.tgtAddrHit.load i
  statTgtRecentTh tgtAddr node (hits.setWidth 32)

/-- An execution of an indirect branch: the ring then, the source and the target. -/
structure PathCall where
  stack : PathStack
  srcAddr : Word
  tgtAddr : Word

/-- `stat_tgt_add_path`; returns the node it counts the target at. -/
def statTgtAddPath (c : PathNodes) (call : PathCall) : Result (Nat × PathNodes) := do
  let path ← call.stack.path
  let (n, c) ← findNodeWithPath c call.srcAddr path
  let node ← c.nodes.load n
  let stat ← node.toStatNode.addTgtPath call.tgtAddr
  let nodes ← c.nodes.store n { node with toStatNode := stat }
  return (n, { c with nodes := nodes })

/-- A run of executions, with the node of each. -/
def statPathRun (c : PathNodes) : List PathCall → Result (List Nat × PathNodes)
  | [] => .ok ([], c)
  | call :: calls => do
    let (n, c) ← statTgtAddPath c call
    let (ns, c) ← statPathRun c calls
    return (n :: ns, c)

end Unitrans
