/-
The instruction decoder `simple_disas_insn` (`decode.c`). It fills in a
`decode_t` it is handed: what a call does not reset keeps the value of the
previous instruction. Guest code is a byte memory of its own; the answer is
`none` where the C function would not return.
-/
import Unitrans.DecodeTable
import Unitrans.X86.Mem

namespace Unitrans

open X86

def DSFL_GROUP1_PREFIX : Nat := 1
def DSFL_GROUP2_PREFIX : Nat := 2
def DSFL_GROUP3_PREFIX : Nat := 4
def DSFL_GROUP4_PREFIX : Nat := 8

def OPSTATE_ADDR32 : Nat := 1
def OPSTATE_DATA32 : Nat := 2
def OPSTATE_ADDR16 : Nat := 0

def HD_PREFIX_OPSZ : Word := 0x66
def HD_PREFIX_ADDRSZ : Word := 0x67

/-- `decode_t`. -/
structure Decode where
  decodeEip : Word
  /-- the address after the prefixes -/
  instr : Word
  /-- the byte the decoder reads last -/
  pInstr : Byte
  attr : Nat
  group2Prefix : Byte
  group4Prefix : Byte
  flags : Nat
  emitfn : Ptr
  pEntry : OpCode
  b : Word
  opstate : Nat
  modrm : Byte
  needSib : Bool
  sib : Byte
  dispBytes : Nat
  displacement : Word
  immediate : Word
  imm16 : Word
  deriving DecidableEq

/-! The fields of a ModRM byte; those of a SIB byte (`ss`, `index`, `base`) lie
the same way. -/

def mod (b : Byte) : BitVec 2 := b.extractLsb' 6 2
def reg (b : Byte) : BitVec 3 := b.extractLsb' 3 3
def rm (b : Byte) : BitVec 3 := b.extractLsb' 0 3

/-- `attr & f` -/
def has (attr f : Nat) : Bool := attr &&& f != 0

namespace Decode

variable (img : Mem)

/-- `READ_IN_NEXT_BYTE` -/
def readInNextByte (ds : Decode) : Decode :=
  { ds with b := (img ds.decodeEip).setWidth 32, decodeEip := ds.decodeEip + 1 }

/-- `READ_IN_NEXT_WORD` -/
def readInNextWord (ds : Decode) : Decode :=
  { ds with b := img.ld16 ds.decodeEip, decodeEip := ds.decodeEip + 2 }

/-- `READ_IN_NEXT_LONG` -/
def readInNextLong (ds : Decode) : Decode :=
  { ds with b := img.ld32 ds.decodeEip, decodeEip := ds.decodeEip + 4 }

/-- The reset at the head of `simple_disas_insn`. -/
def init (ds : Decode) (pc : Word) : Decode :=
  { ds with
    decodeEip := pc, attr := 0, emitfn := .null, needSib := false, dispBytes := 0,
    group2Prefix := 0, group4Prefix := 0, flags := 0, opstate := OPSTATE_DATA32 ||| OPSTATE_ADDR32 }

/-- The switch over a prefix byte `ds.b`. -/
def prefixByte (ds : Decode) : Decode :=
  if ds.b ∈ [0xf0, 0xf3, 0xf2] then { ds with flags := ds.flags ||| DSFL_GROUP1_PREFIX }
  else if ds.b ∈ [0x2e, 0x3e, 0x26, 0x64, 0x65, 0x36] then
    { ds with flags := ds.flags ||| DSFL_GROUP2_PREFIX, group2Prefix := ds.b.setWidth 8 }
  else if ds.b = HD_PREFIX_OPSZ then
    { ds with flags := ds.flags ||| DSFL_GROUP3_PREFIX, opstate := ds.opstate ^^^ OPSTATE_DATA32 }
  else if ds.b = HD_PREFIX_ADDRSZ then
    { ds with
      flags := ds.flags ||| DSFL_GROUP4_PREFIX, opstate := ds.opstate ^^^ OPSTATE_ADDR32
      group4Prefix := ds.b.setWidth 8 }
  else ds

/-- The prefix loop. It ends at the first byte that is no prefix, so the fuel
of a whole address space runs out only where the loop does not end. -/
def prefixes : Nat → Decode → Option Decode
  | 0, _ => none
  | fuel + 1, ds =>
    let ds := { ds with b := (img ds.decodeEip).setWidth 32 }
    let ds := { ds with attr := (TableId.nopbyte0.row ds.b.toNat).attr }
    if has ds.attr DF_PREFIX then
      prefixes fuel { ds.prefixByte with decodeEip := ds.decodeEip + 1 }
    else some ds

/-- The x87 escapes: the ModRM byte and the sub-tables it indexes. -/
def escape (table : TableId) (ds : Decode) : Option (Decode × OpCode) :=
  let ds := ds.readInNextByte img
  let ds := { ds with modrm := ds.b.setWidth 8 }
  if mod ds.modrm = 3 then
    let pEntry := table.row ((reg ds.modrm).toNat + 8)
    let ds := { ds with attr := pEntry.attr }
    if has ds.attr DF_ONE_MORE_LEVEL then
      match pEntry.ptr with
      | .table table =>
        let pEntry := table.row (rm ds.modrm).toNat
        some ({ ds with attr := pEntry.attr }, pEntry)
      | _ => none
    else some (ds, pEntry)
  else
    let pEntry := table.row (reg ds.modrm).toNat
    some ({ ds with attr := pEntry.attr }, pEntry)

/-- The loop over the opcode bytes. The last component is `wierd`: the ModRM
byte of an escape has been read. -/
def opcodes : Nat → TableId → Decode → Option (Decode × OpCode × Bool)
  | 0, _, _ => none
  | fuel + 1, table, ds =>
    let ds := ds.readInNextByte img
    let pEntry := table.row ds.b.toNat
    let ds := { ds with attr := pEntry.attr }
    if has ds.attr DF_TABLE then
      match pEntry.ptr with
      | .table table => opcodes fuel table ds
      | _ => none
    else if has ds.attr DF_FLOAT then
      match pEntry.ptr with
      | .table table => (ds.escape img table).map fun (ds, pEntry) => (ds, pEntry, true)
      | _ => none
    else some (ds, pEntry, false)

/-- The ModRM byte, and the row of an opcode group it selects. -/
def modrmByte (ds : Decode) (pEntry : OpCode) (wierd : Bool) : Option (Decode × OpCode) := do
  let ds := if !wierd && has ds.attr (DF_MODRM ||| DF_GROUP) then ds.readInNextByte img else ds
  let (ds, pEntry) ←
    if has ds.attr DF_GROUP then
      match pEntry.ptr with
      | .table table =>
        let ds := { ds with modrm := ds.b.setWidth 8 }
        let pEntry := table.row (reg ds.modrm).toNat
        some ({ ds with attr := ds.attr ||| pEntry.attr }, pEntry)
      | _ => none
    else some (ds, pEntry)
  return (if has ds.attr DF_MODRM then { ds with modrm := ds.b.setWidth 8 } else ds, pEntry)

/-- Whether a SIB byte follows and how long the displacement is, as far as
the ModRM byte says. -/
def addrForm (ds : Decode) : Decode :=
  if has ds.opstate OPSTATE_ADDR32 then
    let ds := if mod ds.modrm ≠ 3 ∧ rm ds.modrm = 4 then { ds with needSib := true } else ds
    if mod ds.modrm = 0 ∧ rm ds.modrm = 5 then { ds with dispBytes := 4 }
    else if mod ds.modrm = 1 then { ds with dispBytes := 1 }
    else if mod ds.modrm = 2 then { ds with dispBytes := 4 }
    else ds
  else
    if mod ds.modrm = 0 ∧ rm ds.modrm = 6 then { ds with dispBytes := 2 }
    else if mod ds.modrm = 1 then { ds with dispBytes := 1 }
    else if mod ds.modrm = 2 then { ds with dispBytes := 2 }
    else ds

def sibByte (ds : Decode) : Decode :=
  if ds.needSib then
    let ds := ds.readInNextByte img
    let ds := { ds with sib := ds.b.setWidth 8 }
    if rm ds.sib = 5 ∧ mod ds.modrm = 0 then { ds with dispBytes := 4 } else ds
  else ds

def dispField (ds : Decode) : Decode :=
  if ds.dispBytes = 0 then ds
  else
    let ds :=
      if ds.dispBytes > 2 then ds.readInNextLong img
      else if ds.dispBytes > 1 then ds.readInNextWord img
      else ds.readInNextByte img
    { ds with displacement := ds.b }

def address (ds : Decode) : Decode :=
  if has ds.attr (DF_MODRM ||| DF_GROUP) then ((ds.addrForm).sibByte img).dispField img else ds

/-- An immediate as wide as `wide` says. -/
def immV (wide : Bool) (ds : Decode) : Decode :=
  let ds := if wide then ds.readInNextLong img else ds.readInNextWord img
  { ds with immediate := ds.b }

def imm16W (ds : Decode) : Decode :=
  let ds := ds.readInNextWord img
  { ds with imm16 := ds.b }

def immB (ds : Decode) : Decode :=
  let ds := ds.readInNextByte img
  { ds with immediate := (ds.b.setWidth 8).signExtend 32 }

def immediates (ds : Decode) : Decode :=
  let ds := if has ds.attr DF_Iw then ds.imm16W img else ds
  let ds := if has ds.attr DF_Ib || has ds.attr DF_Jb then ds.immB img else ds
  let ds := if has ds.attr DF_Iv then ds.immV img (has ds.opstate OPSTATE_DATA32) else ds
  let ds :=
    if has ds.attr DF_Ov || has ds.attr DF_Ob then ds.immV img (has ds.opstate OPSTATE_ADDR32) else ds
  let ds :=
    if has ds.attr (DF_Jv ||| DF_Ap) then ds.immV img (has ds.opstate OPSTATE_DATA32) else ds
  if has ds.attr DF_Ap then ds.imm16W img else ds

/-- The tail of `simple_disas_insn`: one byte more is read, the emitter is
recorded, and undefined opcodes are reported. -/
def finish (ds : Decode) (pEntry : OpCode) : Decode × Bool :=
  let ds := { ds with pInstr := img ds.decodeEip, emitfn := pEntry.ptr, pEntry := pEntry }
  (ds, !has ds.attr DF_UNDEFINED && pEntry.ptr != .null)

end Decode

open Decode in
/-- `simple_disas_insn`: the filled-in `decode_t` and whether the instruction is
one the tables define. -/
def simpleDisasInsn (img : Mem) (ds : Decode) (pc : Word) : Option (Decode × Bool) := do
  let ds ← prefixes img (2 ^ 32) (ds.init pc)
  let ds := { ds with instr := ds.decodeEip }
  let (ds, pEntry, wierd) ← opcodes img 2 .nopbyte0 ds
  let (ds, pEntry) ← modrmByte img ds pEntry wierd
  return finish img (immediates img (address img ds)) pEntry

end Unitrans
