/-
Which blocks to translate again for an indirect branch that misses (`RETRANS_IND`,
`retrans-ind.c`): the paths that lead to its block by the recorded links, found breadth
first and laid out one after the other, each from the block backwards and with a NULL
behind it.
-/
import Unitrans.PathProf

namespace Unitrans

open X86

def RETRANS_STACK_MAX : Nat := 4096 * 4
def LEAF_MAX : Nat := 4096

/-- A `retr_node`; `next` is the index of the node it was reached from. -/
structure RetrNode where
  tb : Nat
  next : Option Nat
  patchNum : Word
  depth : Nat

/-- The locals of `get_retrans_tb`. The queue and the leaves hold indices of nodes. -/
structure Travel where
  nodes : Elems (PATH_DEPTH * LEAF_MAX) RetrNode
  nodeIdx : Nat
  leaves : Elems LEAF_MAX Nat
  leafIdx : Nat
  travelQueue : Elems (PATH_DEPTH * LEAF_MAX) Nat
  queueHead : Nat
  queueTail : Nat

/-- `retrans_stack`, `retrans_stack_patch` and `retrans_stack_index`. -/
structure RetransStack where
  tbs : Elems RETRANS_STACK_MAX (Option Nat) := fun _ => none
  patch : Elems RETRANS_STACK_MAX Word := fun _ => 0
  index : Nat := 0

/-- The start block as the first node, in the queue. What the arrays hold before is unknown. -/
def Travel.start (junk : Travel) (startTb : Nat) : Travel :=
  { junk with
    nodes := Function.update junk.nodes 0 ⟨startTb, none, CONT_TRANS_TAG, 0⟩, nodeIdx := 1, leafIdx := 0
    travelQueue := Function.update junk.travelQueue 0 0, queueHead := 0, queueTail := 1 }

/-- A node for link `i` of block `b`, which is at node `n`. -/
def Travel.addChild (n : Nat) (b : TranslationBlock) (t : Travel) (i : Nat) : Result Travel := do
  match b.jmpFrom i with
  | none => .error (.abort "")
  | some jmpFrom =>
    let node ← t.nodes.load n
    let nodes ← t.nodes.store t.nodeIdx ⟨jmpFrom, some n, (b.jmpFromNum i).setWidth 32, node.depth + 1⟩
    let travelQueue ← t.travelQueue.store t.queueTail t.nodeIdx
    return { t with nodes := nodes, nodeIdx := t.nodeIdx + 1, travelQueue := travelQueue, queueTail := t.queueTail + 1 }

/-- The body of the loop over the queue. -/
def Travel.visit (tbs : List TranslationBlock) (t : Travel) : Result Travel := do
  let n ← t.travelQueue.load t.queueHead
  let t := { t with queueHead := t.queueHead + 1 }
  let node ← t.nodes.load n
  match tbs[node.tb]? with
  | none => .error .wild
  | some b =>
    if node.depth = PATH_DEPTH ∨ b.jmpFromIndex = 0 then do
      let leaves ← t.leaves.store t.leafIdx n
      return { t with leaves := leaves, leafIdx := t.leafIdx + 1 }
    else (List.range b.jmpFromIndex.toNat).foldlM (Travel.addChild n b) t

def Travel.loop (tbs : List TranslationBlock) : Nat → Travel → Result Travel
  | 0, _ => .error .hang
  | fuel + 1, t =>
    if t.queueHead ≠ t.queueTail then do
      let t ← t.visit tbs
      loop tbs fuel t
    else .ok t

/-- `remove the unuse leaf`: the first node from `n` on whose own link is a jump. -/
def Travel.trim (t : Travel) : Nat → Nat → Result (Option Nat)
  | 0, _ => .error .hang
  | fuel + 1, n => do
    let node ← t.nodes.load n
    if node.patchNum = CONT_TRANS_TAG then
      match node.next with
      | none => return none
      | some next => trim t fuel next
    else return some n

/-- `push TBs from the leaf`, downwards from `pos`. -/
def Travel.push (t : Travel) : Nat → Nat → Nat → RetransStack → Result RetransStack
  | 0, _, _, _ => .error .hang
  | fuel + 1, n, pos, st => do
    let node ← t.nodes.load n
    let tbs ← st.tbs.store pos (some node.tb)
    match node.next with
    | none => return { st with tbs := tbs }
    | some next =>
      let patch ← st.patch.store pos node.patchNum
      if pos = 0 then .error .outOfBounds else push t fuel next (pos - 1) { st with tbs := tbs, patch := patch }

/-- Leaf `i` into the stack. -/
def Travel.pushLeaf (t : Travel) (st : RetransStack × Nat) (i : Nat) : Result (RetransStack × Nat) := do
  let (st, pathCount) := st
  let leaf ← t.leaves.load i
  match ← t.trim (PATH_DEPTH + 1) leaf with
  | none => return (st, pathCount)
  | some n =>
    let node ← t.nodes.load n
    let pos := st.index + node.depth
    let tbs ← st.tbs.store (pos + 1) none
    let st ← t.push (PATH_DEPTH + 1) n pos { st with tbs := tbs, index := pos + 2 }
    return (st, pathCount + 1)

/-- `get_retrans_tb`; answers the number of blocks in the stack. -/
def getRetransTb (tbs : List TranslationBlock) (junk : Travel) (st : RetransStack) (startTb : Nat) :
    Result (Nat × RetransStack) := do
  let t ← Travel.loop tbs (PATH_DEPTH * LEAF_MAX + 1) (junk.start startTb)
  abortIf (t.nodeIdx > PATH_DEPTH * LEAF_MAX) "retrans node overflow\n"
  let (st, pathCount) ← (List.range t.leafIdx).foldlM t.pushLeaf (st, 0)
  return (st.index - pathCount, st)

end Unitrans
