/-
What the emitters leave in memory, as one run of bytes for each: successive
`code_emit`s are one, and a displacement patched afterwards is as if it had
been emitted so.
-/
import Unitrans.CpuExec
import Unitrans.X86.Exec
import Unitrans.Library.Ensures

namespace Unitrans

open X86 Except

namespace State

variable (s : State)

@[simp] theorem mem_emit (bs : List Byte) : (s.emit bs).mem = s.mem.put s.codePtr bs := by cases s; rfl
@[simp] theorem codePtr_emit (bs : List Byte) :
    (s.emit bs).codePtr = s.codePtr + BitVec.ofNat 32 bs.length := by cases s; rfl
@[simp] theorem tbs_emit (bs : List Byte) : (s.emit bs).tbs = s.tbs := by cases s; rfl
@[simp] theorem curTb_emit (bs : List Byte) : (s.emit bs).curTb = s.curTb := by cases s; rfl
@[simp] theorem pcPtr_emit (bs : List Byte) : (s.emit bs).pcPtr = s.pcPtr := by cases s; rfl
@[simp] theorem sieveStub_emit (bs : List Byte) : (s.emit bs).sieveStub = s.sieveStub := by cases s; rfl
@[simp] theorem tbRetAddr_emit (bs : List Byte) : (s.emit bs).tbRetAddr = s.tbRetAddr := by cases s; rfl
@[simp] theorem sieveCodePtr_emit (bs : List Byte) : (s.emit bs).sieveCodePtr = s.sieveCodePtr := by
  cases s; rfl

@[simp] theorem mem_emitSieve (bs : List Byte) : (s.emitSieve bs).mem = s.mem.put s.sieveCodePtr bs := by
  cases s; rfl
@[simp] theorem sieveCodePtr_emitSieve (bs : List Byte) :
    (s.emitSieve bs).sieveCodePtr = s.sieveCodePtr + BitVec.ofNat 32 bs.length := by cases s; rfl
@[simp] theorem tbRetAddr_emitSieve (bs : List Byte) : (s.emitSieve bs).tbRetAddr = s.tbRetAddr := by
  cases s; rfl

variable {s}

theorem emit_emit {bs cs : List Byte} (h : bs.length + cs.length ≤ 2 ^ 32) :
    (s.emit bs).emit cs = s.emit (bs ++ cs) := by
  simp only [emit, Mem.put_put_append h, BitVec.add_assoc, ← BitVec.ofNat_add, List.length_append]

theorem emitSieve_emitSieve {bs cs : List Byte} (h : bs.length + cs.length ≤ 2 ^ 32) :
    (s.emitSieve bs).emitSieve cs = s.emitSieve (bs ++ cs) := by
  simp only [emitSieve, Mem.put_put_append h, BitVec.add_assoc, ← BitVec.ofNat_add, List.length_append]

end State

/-! ## Leaving to the dispatcher and entering the sieve -/

/-- `movl $w, (a)` -/
def movAbs (a w : Word) : List Byte := [0xc7, 0x05] ++ le32 a ++ le32 w

@[simp] theorem length_movAbs (a w : Word) : (movAbs a w).length = 10 := rfl

def exitTbBytes (L : Layout) (tbRetAddr p retTb indType : Word) : List Byte :=
  let pre := [0x59] ++ ([0x8f, 0x05] ++ le32 L.eip) ++ (if retTb ≠ -1 then movAbs L.retTb retTb else []) ++
    (if indType ≠ -1 then movAbs L.indType indType else [])
  pre ++ jmpTo (p + BitVec.ofNat 32 pre.length) tbRetAddr

theorem cemitExitTb_eq (L : Layout) (s : State) (retTb indType : Word) :
    s.cemitExitTb L retTb indType = s.emit (exitTbBytes L s.tbRetAddr s.codePtr retTb indType) := by
  simp only [State.cemitExitTb, exitTbBytes, movAbs]
  split <;> split <;> simp [State.emit_emit, jmpTo, BitVec.add_assoc]

theorem cemitSieveNopush_eq (s : State) : s.cemitSieveNopush = s.emit (jmpTo s.codePtr s.sieveStub) := by
  simp [State.cemitSieveNopush, State.emit_emit, jmpTo]

/-! ## The sieve -/

/-- `mov 4(%esp),%ecx; movzwl %cx,%ecx; lea sieve_table(,%ecx,8),%ecx; jmp *%ecx` -/
def sieveStubBytes (L : Layout) : List Byte :=
  [0x8b, 0x4c, 0x24, 4] ++ [0x0f, 0xb7, 0xc9] ++ ([0x8d, 0x0c, 0xcd] ++ le32 L.sieveHashtable) ++ [0xff, 0xe1]

@[simp] theorem length_sieveStubBytes (L : Layout) : (sieveStubBytes L).length = 16 := rfl

/-- The node at `p` for the block at `tcPtr` of guest address `pc`. -/
def sieveNodeBytes (p pc nextNode tcPtr : Word) : List Byte :=
  [0x8b, 0x4c, 0x24, 4] ++ ([0x8d, 0x89] ++ le32 (-pc)) ++ [0xe3, 0x05] ++ jmpTo (p + 12) nextNode ++
    [0x59] ++ [0x8d, 0x64, 0x24, 4] ++ jmpTo (p + 22) tcPtr

@[simp] theorem length_sieveNodeBytes (p pc n t : Word) : (sieveNodeBytes p pc n t).length = 27 := rfl

theorem cemitSieveNode_eq (s : State) (b : TranslationBlock) (nextNode : Word) :
    s.cemitSieveNode b nextNode = s.emitSieve (sieveNodeBytes s.sieveCodePtr b.pc nextNode b.tcPtr) := by
  simp [State.cemitSieveNode, State.emitSieve_emitSieve, sieveNodeBytes, jmpTo, BitVec.add_assoc]

/-- The exit stub at `p` of slot `patchNum` of the block at `tb`. -/
def exitStubBytes (L : Layout) (tbRetAddr p tb patchNum dest : Word) : List Byte :=
  movAbs L.retTb tb ++ movAbs L.patchNum patchNum ++ movAbs L.eip dest ++ jmpTo (p + 30) tbRetAddr

@[simp] theorem length_exitStubBytes (L : Layout) (r p t n d : Word) : (exitStubBytes L r p t n d).length = 35 :=
  rfl

theorem cemitExitStub_eq (L : Layout) (s : State) (tb : Nat) (patchNum dest : Word) :
    s.cemitExitStub L tb patchNum dest =
      s.emitSieve (exitStubBytes L s.tbRetAddr s.sieveCodePtr (L.tbPtr tb) patchNum dest) := by
  simp [State.cemitExitStub, State.emitSieve_emitSieve, exitStubBytes, movAbs, jmpTo, BitVec.add_assoc]

end Unitrans
