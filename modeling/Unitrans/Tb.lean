/-
Translation blocks: allocation, the two hash tables that find a block by its
guest address, and the links between blocks (`exec.c`, `exec-all.h` and the
lookup in `cpu-exec.c`).
-/
import Unitrans.State

namespace Unitrans

open X86

def tbJmpCacheHashFunc (pc : Word) : Word :=
  let tmp := pc ^^^ (pc >>> 6)
  ((tmp >>> 6) &&& 0xfc0) ||| (tmp &&& 0x3f)

def tbPhysHashFunc (pc : Word) : Word := pc &&& 0x7fff

/-- The entry of a link from slot `n` of `tb`, in the block it leads to. -/
def TranslationBlock.addJmpFrom (tb : Nat) (n : Word) (b : TranslationBlock) : TranslationBlock :=
  let i := b.jmpFromIndex
  { b with
    jmpFrom := Function.update b.jmpFrom i.toNat (some tb)
    jmpFromNum := Function.update b.jmpFromNum i.toNat (n.setWidth 8)
    jmpFromIndex := if i + 1 = TB_FROM_MAX then 0 else i + 1 }

namespace State

/-- `tb_alloc`: the index of a fresh block, none when the table or the code
buffer is full. What `make_tb` does not assign is zero. -/
def tbAlloc (L : Layout) (s : State) (pc : Word) : Option (Nat × State) :=
  if s.tbs.length ≥ codeGenMaxBlocks ∨ (s.codeGenPtr - L.codeGenBuffer).toNat ≥ codeGenBufferMaxSize then none
  else some (s.tbs.length, { s with tbs := s.tbs ++ [{ pc := pc }] })

def tbLinkPage (s : State) (tb : Nat) (physPc : Word) : State :=
  let h := tbPhysHashFunc physPc
  let s := s.updTb tb fun b => { b with physHashNext := s.tbPhysHash h }
  { s with tbPhysHash := Function.update s.tbPhysHash h (some tb) }

/-- `env->tb_jmp_cache[tb_jmp_cache_hash_func(pc)] = tb` -/
def setJmpCache (s : State) (pc : Word) (tb : Nat) : State :=
  { s with tbJmpCache := Function.update s.tbJmpCache (tbJmpCacheHashFunc pc) (some tb) }

/-- `make_tb`. It drops the tag it is given; `tb_flush` aborts. -/
def makeTb (L : Layout) (s : State) (pc funcAddr _tbTag : Word) : Result (Nat × State) :=
  match s.tbAlloc L pc with
  | none => .error (.abort "qemu: tb flush\n")
  | some (tb, s) =>
    let s := s.updTb tb fun b =>
      { b with
        tcPtr := NOT_TRANS_YET, insnCount := 0, funcAddr := funcAddr, tbTag := 0
        tbJmpOffset := fun _ => 0, jmpFromIndex := 0, jmpIndIndex := 0, patchNum := 0 }
    .ok (tb, (s.tbLinkPage tb pc).setJmpCache pc tb)

/-- The walk of `tb_find_slow` along one chain; a chain longer than the table
of blocks has a cycle. -/
def chain (tbs : List TranslationBlock) (pc tbTag : Word) : Nat → Option Nat → Result (Option Nat)
  | _, none => .ok none
  | 0, some _ => .error .hang
  | fuel + 1, some i =>
    match tbs[i]? with
    | none => .error .wild
    | some b => if b.pc = pc ∧ b.tbTag = tbTag then .ok (some i) else chain tbs pc tbTag fuel b.physHashNext

def tbFindSlow (s : State) (pc tbTag : Word) : Result (Option Nat × State) := do
  match ← chain s.tbs pc tbTag s.tbs.length (s.tbPhysHash (tbPhysHashFunc pc)) with
  | none => return (none, s)
  | some i => return (some i, s.setJmpCache pc i)

def tbFindFast (s : State) (pc tbTag : Word) : Result (Option Nat × State) :=
  match s.tbJmpCache (tbJmpCacheHashFunc pc) with
  | none => s.tbFindSlow pc tbTag
  | some i => do
    let b ← s.tb i
    if b.pc ≠ pc ∨ tbTag ≠ b.tbTag then s.tbFindSlow pc tbTag else return (some i, s)

/-- `tb_add_jmp_from` -/
def tbAddJmpFrom (s : State) (tb nextTb : Nat) (n : Word) : State := s.updTb nextTb (·.addJmpFrom tb n)

/-- `tb_set_jmp_target1` -/
def tbSetJmpTarget1 (s : State) (jmpAddr addr : Word) : State := s.st32 jmpAddr (addr - (jmpAddr + 4))

def tbSetJmpTarget (s : State) (tb : Nat) (n addr : Word) : Result State := do
  let b ← s.tb tb
  return s.tbSetJmpTarget1 (b.tcPtr + (b.tbJmpOffset n.toNat).setWidth 32) addr

def tbAddJump (s : State) (tb : Nat) (n : Word) (tbNext : Nat) : Result State := do
  let next ← s.tb tbNext
  let s ← s.tbSetJmpTarget tb n next.tcPtr
  return s.tbAddJmpFrom tb tbNext n

end State

end Unitrans
