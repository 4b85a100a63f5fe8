/-
How long an instruction is: the encoding grammar of IA-32 up to SSE2, in
32-bit mode. Legacy prefixes; an opcode of one or two bytes, which may have a
ModRM byte with the SIB byte and the displacement this asks for; an immediate
whose size goes by the opcode and by the operand and the address size. Opcode
by opcode, from the opcode maps; nothing here is of the translator.
-/
import Unitrans.X86.Insn

namespace X86

def legacyPrefixes : List Byte := [0xf0, 0xf2, 0xf3, 0x26, 0x2e, 0x36, 0x3e, 0x64, 0x65, 0x66, 0x67]

/-- What follows the opcode and its address form. -/
inductive Imm
  | none
  /-- a byte: an immediate or a short displacement -/
  | b
  /-- two bytes, whatever the operand size -/
  | w
  /-- an immediate or a displacement as wide as the operand -/
  | z
  /-- the two operands of `enter` -/
  | wb
  /-- a memory offset -/
  | moffs
  /-- a far pointer -/
  | far
  deriving DecidableEq

def Imm.size (o32 a32 : Bool) : Imm → Nat
  | .none => 0
  | .b => 1
  | .w => 2
  | .z => if o32 then 4 else 2
  | .wb => 3
  | .moffs => if a32 then 4 else 2
  | .far => (if o32 then 4 else 2) + 2

/-- What an opcode has for operands. -/
structure Form where
  modrm : Bool
  imm : Imm
  deriving DecidableEq

/-- The form of `op` in a map from ranges of opcodes. -/
def formOf (map : List (Nat × Nat × Form)) (op : Nat) : Option Form :=
  (map.find? fun r => r.1 ≤ op && op ≤ r.2.1).map (·.2.2)

/-- The opcodes from 40 on. -/
def oneByteMap : List (Nat × Nat × Form) := [
  (0x40, 0x61, ⟨false, .none⟩), (0x62, 0x63, ⟨true, .none⟩), (0x68, 0x68, ⟨false, .z⟩),
  (0x69, 0x69, ⟨true, .z⟩), (0x6a, 0x6a, ⟨false, .b⟩), (0x6b, 0x6b, ⟨true, .b⟩),
  (0x6c, 0x6f, ⟨false, .none⟩), (0x70, 0x7f, ⟨false, .b⟩), (0x80, 0x80, ⟨true, .b⟩),
  (0x81, 0x81, ⟨true, .z⟩), (0x82, 0x83, ⟨true, .b⟩), (0x84, 0x8f, ⟨true, .none⟩),
  (0x90, 0x99, ⟨false, .none⟩), (0x9a, 0x9a, ⟨false, .far⟩), (0x9b, 0x9f, ⟨false, .none⟩),
  (0xa0, 0xa3, ⟨false, .moffs⟩), (0xa4, 0xa7, ⟨false, .none⟩), (0xa8, 0xa8, ⟨false, .b⟩),
  (0xa9, 0xa9, ⟨false, .z⟩), (0xaa, 0xaf, ⟨false, .none⟩), (0xb0, 0xb7, ⟨false, .b⟩),
  (0xb8, 0xbf, ⟨false, .z⟩), (0xc0, 0xc1, ⟨true, .b⟩), (0xc2, 0xc2, ⟨false, .w⟩),
  (0xc3, 0xc3, ⟨false, .none⟩), (0xc4, 0xc5, ⟨true, .none⟩), (0xc6, 0xc6, ⟨true, .b⟩),
  (0xc7, 0xc7, ⟨true, .z⟩), (0xc8, 0xc8, ⟨false, .wb⟩), (0xc9, 0xc9, ⟨false, .none⟩),
  (0xca, 0xca, ⟨false, .w⟩), (0xcb, 0xcc, ⟨false, .none⟩), (0xcd, 0xcd, ⟨false, .b⟩),
  (0xce, 0xcf, ⟨false, .none⟩), (0xd0, 0xd3, ⟨true, .none⟩), (0xd4, 0xd5, ⟨false, .b⟩),
  (0xd7, 0xd7, ⟨false, .none⟩), (0xd8, 0xdf, ⟨true, .none⟩), (0xe0, 0xe7, ⟨false, .b⟩),
  (0xe8, 0xe9, ⟨false, .z⟩), (0xea, 0xea, ⟨false, .far⟩), (0xeb, 0xeb, ⟨false, .b⟩),
  (0xec, 0xef, ⟨false, .none⟩), (0xf4, 0xf5, ⟨false, .none⟩), (0xf6, 0xf7, ⟨true, .none⟩),
  (0xf8, 0xfd, ⟨false, .none⟩), (0xfe, 0xff, ⟨true, .none⟩)]

/-- The opcodes behind the byte `0f`. -/
def twoByteMap : List (Nat × Nat × Form) := [
  (0x00, 0x03, ⟨true, .none⟩), (0x06, 0x06, ⟨false, .none⟩), (0x08, 0x09, ⟨false, .none⟩),
  (0x0b, 0x0b, ⟨false, .none⟩), (0x10, 0x18, ⟨true, .none⟩), (0x20, 0x24, ⟨true, .none⟩),
  (0x26, 0x26, ⟨true, .none⟩), (0x28, 0x2f, ⟨true, .none⟩), (0x30, 0x35, ⟨false, .none⟩),
  (0x40, 0x6f, ⟨true, .none⟩), (0x70, 0x73, ⟨true, .b⟩), (0x74, 0x76, ⟨true, .none⟩),
  (0x77, 0x77, ⟨false, .none⟩), (0x7e, 0x7f, ⟨true, .none⟩), (0x80, 0x8f, ⟨false, .z⟩),
  (0x90, 0x9f, ⟨true, .none⟩), (0xa0, 0xa2, ⟨false, .none⟩), (0xa3, 0xa3, ⟨true, .none⟩),
  (0xa4, 0xa4, ⟨true, .b⟩), (0xa5, 0xa5, ⟨true, .none⟩), (0xa8, 0xaa, ⟨false, .none⟩),
  (0xab, 0xab, ⟨true, .none⟩), (0xac, 0xac, ⟨true, .b⟩), (0xad, 0xaf, ⟨true, .none⟩),
  (0xb0, 0xb7, ⟨true, .none⟩), (0xba, 0xba, ⟨true, .b⟩), (0xbb, 0xc1, ⟨true, .none⟩),
  (0xc2, 0xc2, ⟨true, .b⟩), (0xc3, 0xc3, ⟨true, .none⟩), (0xc4, 0xc6, ⟨true, .b⟩),
  (0xc7, 0xc7, ⟨true, .none⟩), (0xc8, 0xcf, ⟨false, .none⟩), (0xd1, 0xef, ⟨true, .none⟩),
  (0xf1, 0xfe, ⟨true, .none⟩)]

/-- A one-byte opcode, with the `reg` field of the byte after it: of the group
`f6`, `f7` only `test` has an immediate. -/
def oneByteForm (op reg : Nat) : Option Form :=
  if op < 0x40 then
    some (if op % 8 < 4 then ⟨true, .none⟩ else if op % 8 = 4 then ⟨false, .b⟩
      else if op % 8 = 5 then ⟨false, .z⟩ else ⟨false, .none⟩)
  else if op = 0xf6 ∧ reg < 2 then some ⟨true, .b⟩
  else if op = 0xf7 ∧ reg < 2 then some ⟨true, .z⟩
  else formOf oneByteMap op

/-- The ModRM byte, the SIB byte, if there is one, and the displacement, for
these fields `mod` and `rm` of the one and `base` of the other. -/
def addressBytes (a32 : Bool) (mod : BitVec 2) (rm base : BitVec 3) : Nat :=
  if mod = 3 then 1
  else if a32 then
    (if rm = 4 then 2 else 1) +
      (if mod = 1 then 1 else if mod = 2 then 4 else if rm = 5 ∨ rm = 4 ∧ base = 5 then 4 else 0)
  else 1 + (if mod = 1 then 1 else if mod = 2 then 2 else if rm = 6 then 2 else 0)

/-- The address form that starts with the ModRM byte `m`, the byte after it being `sib`. -/
def addressLength (a32 : Bool) (m sib : Byte) : Nat :=
  addressBytes a32 (fields m).1 (fields m).2.2 (fields sib).2.2

theorem operand_length (seg : Option Seg) (f : Nat → Byte) (i : Nat) :
    (operand seg f i).2 = i + addressLength true (f i) (f (i + 1)) := by
  simp only [operand, disp, addressLength, addressBytes, if_true]
  grind

/-- A move to or from a control, debug or test register. -/
def movesControl (f : Nat → Byte) : Bool := f 0 == 0x0f && (f 1).extractLsb' 3 5 == 4#5

/-- The first byte of a VEX prefix, told from `les` and `lds` by the byte after it. -/
def isVex (f : Nat → Byte) : Bool := (f 0 == 0xc4 || f 0 == 0xc5) && (fields (f 1)).1 == 3

/-- The form of the opcode at the start of `f`, and how many bytes the opcode has. -/
def opcodeForm (f : Nat → Byte) : Option (Nat × Form) :=
  if isVex f then none
  else if f 0 = 0x0f then (formOf twoByteMap (f 1).toNat).map ((2, ·))
  else (oneByteForm (f 0).toNat (fields (f 1)).2.1.toNat).map ((1, ·))

/-- The instruction from its opcode on. A move to or from a control register
has no memory operand, whatever `mod` is. -/
def opcodeLength (o32 a32 : Bool) (f : Nat → Byte) : Option Nat :=
  (opcodeForm f).map fun (k, form) =>
    k + (if form.modrm then if movesControl f then 1 else addressLength a32 (f k) (f (k + 1)) else 0) +
      form.imm.size o32 a32

/-- The prefixes; no instruction has more than 15 bytes. -/
def prefixesOf (f : Nat → Byte) : List Byte := ((List.range 15).map f).takeWhile (· ∈ legacyPrefixes)

/-- The length of the instruction at the start of `f`, if there is one. -/
def insnLength (f : Nat → Byte) : Option Nat :=
  let ps := prefixesOf f
  (opcodeLength (0x66 ∉ ps) (0x67 ∉ ps) fun i => f (ps.length + i)).map (ps.length + ·)

/-- `push %eax`, `movw $imm, disp8(%eax, %ecx)` and a short `jmp` under a segment override. -/
example : ([[0x50], [0x66, 0xc7, 0x44, 0x08], [0x2e, 0xeb]].map fun bs => insnLength fun i => bs.getD i 0) =
    [some 1, some 7, some 3] := by decide +kernel

end X86
