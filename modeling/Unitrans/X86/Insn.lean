/-
A fragment of the IA-32 instruction set: 32-bit operands, flat segments with
`fs`/`gs` overrides, the stack, moves, near branches and the few flag
instructions. `decode` reads an instruction off a byte stream, `exec` is its
effect, and `step` is one instruction of a processor fetching from its memory.
-/
import Unitrans.X86.Mem
import Mathlib.Logic.Relation

namespace X86

inductive Reg
  | eax | ecx | edx | ebx | esp | ebp | esi | edi
  deriving DecidableEq, Repr

inductive Seg
  | es | cs | ss | ds | fs | gs
  deriving DecidableEq, Repr

def Reg.ofBits : BitVec 3 → Reg
  | 0 => .eax | 1 => .ecx | 2 => .edx | 3 => .ebx
  | 4 => .esp | 5 => .ebp | 6 => .esi | 7 => .edi

/-- A register or a memory operand `disp(base, index, 2^scale)`. -/
inductive Operand
  | reg (r : Reg)
  | mem (seg : Option Seg) (base : Option Reg) (index : Option (Reg × Nat)) (disp : Word)
  deriving DecidableEq, Repr

inductive Insn
  | push (src : Operand)
  | pushI (imm : Word)
  | pop (dst : Operand)
  | pushf
  | popf
  | mov (dst src : Operand)
  | movI (dst : Operand) (imm : Word)
  | lea (r : Reg) (src : Operand)
  /-- `movzwl`: the low half of the source, zero-extended. -/
  | movzw (r : Reg) (src : Operand)
  | andI (dst : Operand) (imm : Word)
  | cmpEaxI (imm : Word)
  | jmp (rel : Word)
  | jmpInd (src : Operand)
  | jcc (cc : BitVec 4) (rel : Word)
  | jecxz (rel : Word)
  /-- `loopne`, `loope`, `loop`: decrement `ecx`, branch while it is not zero
  (and `ZF` is as asked). -/
  | loop (zf : Option Bool) (rel : Word)
  | call (rel : Word)
  | ret
  deriving DecidableEq, Repr

/-- The processor: registers, flags, memory, and the value it leaves in `AF`
where the manual leaves it undefined. -/
@[ext] structure Cpu where
  regs : Reg → Word
  eflags : Word
  eip : Word
  segBase : Seg → Word
  undefAF : Bool
  mem : Mem

namespace Cpu

def set (c : Cpu) (r : Reg) (v : Word) : Cpu :=
  { c with regs := fun r' => if r' = r then v else c.regs r' }

def setMem (c : Cpu) (m : Mem) : Cpu := { c with mem := m }

def setEflags (c : Cpu) (fl : Word) : Cpu := { c with eflags := fl }

/-- Execution goes on at `a`. -/
def goto (c : Cpu) (a : Word) : Cpu := { c with eip := a }

abbrev ecx (c : Cpu) : Word := c.regs .ecx

section

variable (c : Cpu) (r r' : Reg) (v a : Word) (m : Mem)

@[simp] theorem set_regs : (c.set r v).regs r' = if r' = r then v else c.regs r' := by cases c; rfl
@[simp] theorem set_mem : (c.set r v).mem = c.mem := by cases c; rfl
@[simp] theorem set_eip : (c.set r v).eip = c.eip := by cases c; rfl
@[simp] theorem set_eflags : (c.set r v).eflags = c.eflags := by cases c; rfl
@[simp] theorem set_segBase : (c.set r v).segBase = c.segBase := by cases c; rfl
@[simp] theorem set_undefAF : (c.set r v).undefAF = c.undefAF := by cases c; rfl

@[simp] theorem setMem_regs : (c.setMem m).regs = c.regs := by cases c; rfl
@[simp] theorem setMem_mem : (c.setMem m).mem = m := by cases c; rfl
@[simp] theorem setMem_eip : (c.setMem m).eip = c.eip := by cases c; rfl
@[simp] theorem setMem_eflags : (c.setMem m).eflags = c.eflags := by cases c; rfl
@[simp] theorem setMem_segBase : (c.setMem m).segBase = c.segBase := by cases c; rfl
@[simp] theorem setMem_undefAF : (c.setMem m).undefAF = c.undefAF := by cases c; rfl

@[simp] theorem setEflags_regs : (c.setEflags v).regs = c.regs := by cases c; rfl
@[simp] theorem setEflags_mem : (c.setEflags v).mem = c.mem := by cases c; rfl
@[simp] theorem setEflags_eip : (c.setEflags v).eip = c.eip := by cases c; rfl
@[simp] theorem setEflags_eflags : (c.setEflags v).eflags = v := by cases c; rfl
@[simp] theorem setEflags_segBase : (c.setEflags v).segBase = c.segBase := by cases c; rfl
@[simp] theorem setEflags_undefAF : (c.setEflags v).undefAF = c.undefAF := by cases c; rfl

@[simp] theorem goto_regs : (c.goto a).regs = c.regs := by cases c; rfl
@[simp] theorem goto_mem : (c.goto a).mem = c.mem := by cases c; rfl
@[simp] theorem goto_eip : (c.goto a).eip = a := by cases c; rfl
@[simp] theorem goto_eflags : (c.goto a).eflags = c.eflags := by cases c; rfl
@[simp] theorem goto_segBase : (c.goto a).segBase = c.segBase := by cases c; rfl
@[simp] theorem goto_undefAF : (c.goto a).undefAF = c.undefAF := by cases c; rfl
@[simp] theorem goto_goto (b : Word) : (c.goto a).goto b = c.goto b := by cases c; rfl

end

/-- The linear address of a memory operand. -/
def ea (c : Cpu) (seg : Option Seg) (base : Option Reg) (index : Option (Reg × Nat)) (disp : Word) : Word :=
  (match seg with | none => 0 | some s => c.segBase s) +
  (match base with | none => 0 | some r => c.regs r) +
  (match index with | none => 0 | some (r, k) => c.regs r <<< k) + disp

def read (c : Cpu) : Operand → Word
  | .reg r => c.regs r
  | .mem s b i d => c.mem.ld32 (c.ea s b i d)

def write (c : Cpu) (v : Word) : Operand → Cpu
  | .reg r => c.set r v
  | .mem s b i d => c.setMem (c.mem.st32 (c.ea s b i d) v)

def push (c : Cpu) (v : Word) : Cpu :=
  (c.set .esp (c.regs .esp - 4)).setMem (c.mem.st32 (c.regs .esp - 4) v)

section

variable (c : Cpu) (r : Reg) (v : Word)

@[simp] theorem push_mem : (c.push v).mem = c.mem.st32 (c.regs .esp - 4) v := setMem_mem ..
@[simp] theorem push_regs : (c.push v).regs r = if r = .esp then c.regs .esp - 4 else c.regs r := by
  simp [push]
@[simp] theorem push_eip : (c.push v).eip = c.eip := by simp [push]
@[simp] theorem push_eflags : (c.push v).eflags = c.eflags := by simp [push]
@[simp] theorem push_segBase : (c.push v).segBase = c.segBase := by simp [push]
@[simp] theorem push_undefAF : (c.push v).undefAF = c.undefAF := by simp [push]

@[simp] theorem write_reg : c.write v (.reg r) = c.set r v := rfl
@[simp] theorem write_mem (s : Option Seg) (b : Option Reg) (i : Option (Reg × Nat)) (d : Word) :
    c.write v (.mem s b i d) = c.setMem (c.mem.st32 (c.ea s b i d) v) := rfl

end

end Cpu

/-! ## Flags -/

/-- `CF`, `PF`, `AF`, `ZF`, `SF` and `OF`. -/
def statusMask : Word := 0x8d5

def flagBit (n : Nat) (b : Bool) : Word := if b then 1#32 <<< n else 0

/-- Even parity of the low byte. -/
def parity (w : Word) : Bool := ((List.range 8).countP fun i => w.getLsbD i) % 2 == 0

/-- `EFLAGS` after a logical instruction with result `r`: `CF` and `OF` are
cleared, `AF` is `af`. -/
def logicFlags (af : Bool) (fl r : Word) : Word :=
  (fl &&& ~~~statusMask) ||| flagBit 2 (parity r) ||| flagBit 4 af ||| flagBit 6 (r == 0) |||
    flagBit 7 (r.getLsbD 31)

/-- `EFLAGS` after the comparison of `a` with `b`. -/
def cmpFlags (fl a b : Word) : Word :=
  let r := a - b
  (fl &&& ~~~statusMask) ||| flagBit 0 (a.ult b) ||| flagBit 2 (parity r) |||
    flagBit 4 ((a &&& 0xf).ult (b &&& 0xf)) ||| flagBit 6 (r == 0) ||| flagBit 7 (r.getLsbD 31) |||
    flagBit 11 ((a.getLsbD 31 != b.getLsbD 31) && (a.getLsbD 31 != r.getLsbD 31))

def cf (fl : Word) : Bool := fl.getLsbD 0
def pf (fl : Word) : Bool := fl.getLsbD 2
def zf (fl : Word) : Bool := fl.getLsbD 6
def sf (fl : Word) : Bool := fl.getLsbD 7
def of (fl : Word) : Bool := fl.getLsbD 11

/-- The condition a `jcc` tests. -/
def cond (cc : BitVec 4) (fl : Word) : Bool :=
  let b := match cc.extractLsb' 1 3 with
    | 0 => of fl
    | 1 => cf fl
    | 2 => zf fl
    | 3 => cf fl || zf fl
    | 4 => sf fl
    | 5 => pf fl
    | 6 => sf fl != of fl
    | 7 => zf fl || (sf fl != of fl)
  b != cc.getLsbD 0

/-! ## Effects -/

/-- The effect of an instruction, `next` being the address after it. A `pop`
to memory computes its address after `esp` has moved. -/
def exec (next : Word) (c : Cpu) : Insn → Cpu
  | .push src => (c.push (c.read src)).goto next
  | .pushI imm => (c.push imm).goto next
  | .pop dst => ((c.set .esp (c.regs .esp + 4)).write (c.mem.ld32 (c.regs .esp)) dst).goto next
  | .pushf => (c.push c.eflags).goto next
  | .popf => ((c.set .esp (c.regs .esp + 4)).setEflags (c.mem.ld32 (c.regs .esp))).goto next
  | .mov dst src => (c.write (c.read src) dst).goto next
  | .movI dst imm => (c.write imm dst).goto next
  | .lea r (.mem _ b i d) => (c.set r (c.ea none b i d)).goto next
  | .lea r (.reg r') => (c.set r (c.regs r')).goto next
  | .movzw r (.mem s b i d) => (c.set r (c.mem.ld16 (c.ea s b i d))).goto next
  | .movzw r (.reg r') => (c.set r (c.regs r' &&& 0xffff)).goto next
  | .andI dst imm =>
    ((c.write (c.read dst &&& imm) dst).setEflags
      (logicFlags c.undefAF c.eflags (c.read dst &&& imm))).goto next
  | .cmpEaxI imm => (c.setEflags (cmpFlags c.eflags (c.regs .eax) imm)).goto next
  | .jmp rel => c.goto (next + rel)
  | .jmpInd src => c.goto (c.read src)
  | .jcc cc rel => c.goto (if cond cc c.eflags then next + rel else next)
  | .jecxz rel => c.goto (if c.regs .ecx = 0 then next + rel else next)
  | .loop z rel =>
    (c.set .ecx (c.regs .ecx - 1)).goto
      (if c.regs .ecx - 1 ≠ 0 ∧ (z = none ∨ z = some (zf c.eflags)) then next + rel else next)
  | .call rel => (c.push next).goto (next + rel)
  | .ret => (c.set .esp (c.regs .esp + 4)).goto (c.mem.ld32 (c.regs .esp))

/-! ## Decoding -/

/-- The bytes from `a` upwards. -/
def fetch (m : Mem) (a : Word) : Nat → Byte := fun i => m (a + BitVec.ofNat 32 i)

def imm32 (f : Nat → Byte) (i : Nat) : Word := word32 (f i) (f (i + 1)) (f (i + 2)) (f (i + 3))

def imm8 (f : Nat → Byte) (i : Nat) : Word := (f i).signExtend 32

/-- `mod`, `reg` and `rm`; also `scale`, `index` and `base` of a SIB byte. -/
def fields (b : Byte) : BitVec 2 × BitVec 3 × BitVec 3 :=
  (b.extractLsb' 6 2, b.extractLsb' 3 3, b.extractLsb' 0 3)

/-- The displacement at `i`, for `mod ≠ 3`, and the index after it. -/
def disp (f : Nat → Byte) (i : Nat) (mod : BitVec 2) : Word × Nat :=
  if mod = 1 then (imm8 f i, i + 1) else if mod = 2 then (imm32 f i, i + 4) else (0, i)

/-- The operand a ModRM byte at `i` names, and the index after it. -/
def operand (seg : Option Seg) (f : Nat → Byte) (i : Nat) : Operand × Nat :=
  let (mod, _, rm) := fields (f i)
  if mod = 3 then (.reg (Reg.ofBits rm), i + 1)
  else if rm = 4 then
    let (scale, index, base) := fields (f (i + 1))
    let idx := if index = 4 then none else some (Reg.ofBits index, scale.toNat)
    if mod = 0 ∧ base = 5 then (.mem seg none idx (imm32 f (i + 2)), i + 6)
    else
      let (d, j) := disp f (i + 2) mod
      (.mem seg (some (Reg.ofBits base)) idx d, j)
  else if mod = 0 ∧ rm = 5 then (.mem seg none none (imm32 f (i + 1)), i + 5)
  else
    let (d, j) := disp f (i + 1) mod
    (.mem seg (some (Reg.ofBits rm)) none d, j)

/-- The instruction whose opcode is at `i`, and the index after it. -/
def decodeOp (seg : Option Seg) (f : Nat → Byte) (i : Nat) : Option (Insn × Nat) :=
  let op := f i
  let reg := (fields (f (i + 1))).2.1
  let (e, j) := operand seg f (i + 1)
  if op.extractLsb' 3 5 = 0xa#5 then some (.push (.reg (Reg.ofBits (op.extractLsb' 0 3))), i + 1)
  else if op.extractLsb' 3 5 = 0xb#5 then some (.pop (.reg (Reg.ofBits (op.extractLsb' 0 3))), i + 1)
  else if op = 0x68 then some (.pushI (imm32 f (i + 1)), i + 5)
  else if op = 0xff ∧ reg = 6 then some (.push e, j)
  else if op = 0xff ∧ reg = 4 then some (.jmpInd e, j)
  else if op = 0x8f ∧ reg = 0 then some (.pop e, j)
  else if op = 0x9c then some (.pushf, i + 1)
  else if op = 0x9d then some (.popf, i + 1)
  else if op = 0x89 then some (.mov e (.reg (Reg.ofBits reg)), j)
  else if op = 0x8b then some (.mov (.reg (Reg.ofBits reg)) e, j)
  else if op = 0xc7 ∧ reg = 0 then some (.movI e (imm32 f j), j + 4)
  else if op = 0x8d then some (.lea (Reg.ofBits reg) e, j)
  else if op = 0x81 ∧ reg = 4 then some (.andI e (imm32 f j), j + 4)
  else if op = 0x3d then some (.cmpEaxI (imm32 f (i + 1)), i + 5)
  else if op = 0xe9 then some (.jmp (imm32 f (i + 1)), i + 5)
  else if op = 0xeb then some (.jmp (imm8 f (i + 1)), i + 2)
  else if op = 0xe3 then some (.jecxz (imm8 f (i + 1)), i + 2)
  else if op = 0xe0 then some (.loop (some false) (imm8 f (i + 1)), i + 2)
  else if op = 0xe1 then some (.loop (some true) (imm8 f (i + 1)), i + 2)
  else if op = 0xe2 then some (.loop none (imm8 f (i + 1)), i + 2)
  else if op = 0xe8 then some (.call (imm32 f (i + 1)), i + 5)
  else if op = 0xc3 then some (.ret, i + 1)
  else if op.extractLsb' 4 4 = 7#4 then some (.jcc (op.extractLsb' 0 4) (imm8 f (i + 1)), i + 2)
  else if op = 0x0f ∧ (f (i + 1)).extractLsb' 4 4 = 8#4 then
    some (.jcc ((f (i + 1)).extractLsb' 0 4) (imm32 f (i + 2)), i + 6)
  else if op = 0x0f ∧ f (i + 1) = 0xb7 then
    let (e, j) := operand seg f (i + 2)
    some (.movzw (Reg.ofBits (fields (f (i + 2))).2.1) e, j)
  else none

/-- The segment a prefix byte selects. -/
def segPrefix (b : Byte) : Option Seg :=
  if b = 0x26 then some .es else if b = 0x2e then some .cs else if b = 0x36 then some .ss
  else if b = 0x3e then some .ds else if b = 0x64 then some .fs else if b = 0x65 then some .gs
  else none

/-- The instruction at the start of a byte stream and its length: at most one
prefix, a segment override. -/
def decode (f : Nat → Byte) : Option (Insn × Nat) :=
  match segPrefix (f 0) with
  | some s => decodeOp (some s) f 1
  | none => decodeOp none f 0

/-! ## Execution -/

def step (c : Cpu) : Option Cpu :=
  (decode (fetch c.mem c.eip)).map fun (i, n) => exec (c.eip + BitVec.ofNat 32 n) c i

theorem step_of_decode {c : Cpu} {i : Insn} {n : Nat} (h : decode (fetch c.mem c.eip) = some (i, n)) :
    step c = some (exec (c.eip + BitVec.ofNat 32 n) c i) := by
  simp [step, h]

end X86
