/-
The decoder's opcode tables (`decode-table.c`), row by row: the index a row
carries, what its `ptr` points to and its attributes. The rows' text, argument
modes, instruction type and flag effect are read by nothing here.
-/
import Mathlib.Data.Nat.Bits

namespace Unitrans

/-- The emitters a table row can name. -/
inductive EmitFn
  | normal | jcond | otherJcond | jmp | jmpNearMem | callDisp | callNearMem | ret | retIw | int | sysenter
  deriving DecidableEq, Repr

inductive TableId
  | group1EbIb | group1EvIv | group1EvIb | group2aEbIb | group2aEvIb | group2Eb1 | group2Ev1 | group2EbCL
  | group2EvCL | group3b | group3v | ngroup4 | ngroup5 | ngroup6 | ngroup7 | group8EvIb | ngroup9
  | twoByteOpcodes | nopbyte0 | floatD8 | floatD9 | floatD92 | floatD94 | floatD95 | floatD96 | floatD97
  | floatDa | floatDa5 | floatDb | floatDb4 | floatDc | floatDd | floatDe | floatDe3 | floatDf | floatDf4
  deriving DecidableEq, Repr

/-- What `OpCode.ptr` points to: nothing (`reserved`, `prefix`), an emitter or
a further table. -/
inductive Ptr
  | null
  | fn (f : EmitFn)
  | table (t : TableId)
  deriving DecidableEq, Repr

structure OpCode where
  index : Nat
  ptr : Ptr
  attr : Nat
  deriving DecidableEq, Repr

def DF_MODRM : Nat := 0x1
def DF_Ib : Nat := 0x2
def DF_Jb : Nat := 0x2
def DF_Iv : Nat := 0x8
def DF_Jv : Nat := 0x10
def DF_Ob : Nat := 0x40
def DF_Ov : Nat := 0x80
def DF_PREFIX : Nat := 0x100
def DF_UNDEFINED : Nat := 0x200
def DF_TABLE : Nat := 0x400
def DF_GROUP : Nat := 0x800
def DF_Iw : Nat := 0x4000
def DF_Ap : Nat := 0x8000
def DF_FLOAT : Nat := 0x10000
def DF_ONE_MORE_LEVEL : Nat := 0x20000

namespace DecodeTable

/-! ## Rows

`n` is copied as it is, `e` has an emitter of its own, `t` leads to a further
table, `x` is reserved and `p` is a prefix. -/

def n (index attr : Nat) : OpCode := ⟨index, .fn .normal, attr⟩
def e (index : Nat) (f : EmitFn) (attr : Nat) : OpCode := ⟨index, .fn f, attr⟩
def t (index : Nat) (id : TableId) (attr : Nat) : OpCode := ⟨index, .table id, attr⟩
def x (index : Nat) : OpCode := ⟨index, .null, 512⟩
def p (index : Nat) : OpCode := ⟨index, .null, 256⟩

/-! ## Tables -/

def group1EbIb : List OpCode := [
  n 0 1048579, n 1 1048579, n 2 1048579, n 3 1048579, n 4 1048579, n 5 1048579, n 6 1048579, n 7 1048579]

def group1EvIv : List OpCode := [
  n 0 3145737, n 1 3145737, n 2 3145737, n 3 3145737, n 4 3145737, n 5 3145737, n 6 3145737, n 7 3145737]

def group1EvIb : List OpCode := [
  n 0 3145731, n 1 3145731, n 2 3145731, n 3 3145731, n 4 3145731, n 5 3145731, n 6 3145731, n 7 3145731]

def group2aEbIb : List OpCode := [
  n 0 1048579, n 1 1048579, n 2 1048579, n 3 1048579, n 4 1048579, n 5 1048579, x 6, n 7 1048579]

def group2aEvIb : List OpCode := [
  n 0 3145731, n 1 3145731, n 2 3145731, n 3 3145731, n 4 3145731, n 5 3145731, x 6, n 7 3145731]

def group2Eb1 : List OpCode := [
  n 0 1048577, n 1 1048577, n 2 1048577, n 3 1048577, n 4 1048577, n 5 1048577, x 6, n 7 1048577]

def group2Ev1 : List OpCode := [
  n 0 3145729, n 1 3145729, n 2 3145729, n 3 3145729, n 4 3145729, n 5 3145729, x 6, n 7 3145729]

def group2EbCL : List OpCode := [
  n 0 1048577, n 1 1048577, n 2 1048577, n 3 1048577, n 4 1048577, n 5 1048577, x 6, n 7 1048577]

def group2EvCL : List OpCode := [
  n 0 3145729, n 1 3145729, n 2 3145729, n 3 3145729, n 4 3145729, n 5 3145729, x 6, n 7 3145729]

def group3b : List OpCode := [
  n 0 1048579, x 1, n 2 1048577, n 3 1048577, n 4 1048577, n 5 1048577, n 6 1048577, n 7 1048577]

def group3v : List OpCode := [
  n 0 3145737, x 1, n 2 3145729, n 3 3145729, n 4 3145729, n 5 3145729, n 6 3145729, n 6 3145729]

def ngroup4 : List OpCode := [
  n 0 1048577, n 1 1048577, x 2, x 3, x 4, x 5, x 6, x 7]

def ngroup5 : List OpCode := [
  n 0 3145729, n 1 3145729, e 2 .callNearMem 11534337, n 3 3145729, e 4 .jmpNearMem 11534337, n 5 3145729,
  n 6 3145729, x 7]

def ngroup6 : List OpCode := [
  n 0 1048577, n 1 1048577, n 2 1048577, n 3 1048577, n 4 1048577, n 5 1048577, x 6, x 7]

def ngroup7 : List OpCode := [
  n 0 3145729, n 1 3145729, n 2 3145729, n 3 3145729, n 4 3145729, x 5, n 6 1048577, n 7 1048577]

def group8EvIb : List OpCode := [
  x 0, x 1, x 2, x 3, n 4 3145731, n 5 3145731, n 6 3145731, n 7 3145731]

def ngroup9 : List OpCode := [
  x 0, n 1 1048577, x 2, x 3, x 4, x 5, x 6, x 7]

def twoByteOpcodes : List OpCode := [
  t 0x00 .ngroup6 2048, t 0x01 .ngroup7 2048, n 0x02 3145729, n 0x03 3145729, x 0x04, x 0x05, n 0x06 0,
  x 0x07, n 0x08 0, n 0x09 0, x 0x0a, n 0x0b 512, x 0x0c, x 0x0d, x 0x0e, x 0x0f, n 0x10 1048577,
  n 0x11 1048577, n 0x12 1048577, n 0x13 1048577, n 0x14 1048577, n 0x15 1048577, n 0x16 1048577,
  n 0x17 1048577, n 0x18 1048577, x 0x19, x 0x1a, x 0x1b, x 0x1c, x 0x1d, x 0x1e, x 0x1f, n 0x20 1,
  n 0x21 1, n 0x22 1, n 0x23 1, n 0x24 1, x 0x25, n 0x26 1, x 0x27, n 0x28 1048577, n 0x29 1048577,
  n 0x2a 1048577, n 0x2b 1048577, n 0x2c 1048577, n 0x2d 1048577, n 0x2e 1048577, n 0x2f 1048577, n 0x30 0,
  n 0x31 0, n 0x32 0, n 0x33 0, e 0x34 .sysenter 0, n 0x35 0, x 0x36, x 0x37, x 0x38, x 0x39, x 0x3a,
  x 0x3b, n 0x3c 1, x 0x3d, x 0x3e, x 0x3f, n 0x40 3145729, n 0x41 3145729, n 0x42 3145729, n 0x43 3145729,
  n 0x44 3145729, n 0x45 3145729, n 0x46 3145729, n 0x47 3145729, n 0x48 3145729, n 0x49 3145729,
  n 0x4a 3145729, n 0x4b 3145729, n 0x4c 3145729, n 0x4d 3145729, n 0x4e 3145729, n 0x4f 3145729,
  n 0x50 1048577, n 0x51 1048577, n 0x52 1048577, n 0x53 1048577, n 0x54 1048577, n 0x55 1048577,
  n 0x56 1048577, n 0x57 1048577, n 0x58 1048577, n 0x59 1048577, n 0x5a 1048577, n 0x5b 1048577,
  n 0x5c 1048577, n 0x5d 1048577, n 0x5e 1048577, n 0x5f 1048577, n 0x60 1048577, n 0x61 1048577,
  n 0x62 1048577, n 0x63 1048577, n 0x64 1048577, n 0x65 1048577, n 0x66 1048577, n 0x67 1048577,
  n 0x68 1048577, n 0x69 1048577, n 0x6a 1048577, n 0x6b 1048577, n 0x6c 1048577, n 0x6d 1048577,
  n 0x6e 1048577, n 0x6f 1048577, n 0x70 1048579, n 0x71 1048579, n 0x72 1048579, n 0x73 1048579,
  n 0x74 1048577, n 0x75 1048577, n 0x76 1048577, n 0x77 1048576, x 0x78, x 0x79, x 0x7a, x 0x7b, x 0x7c,
  x 0x7d, n 0x7e 1048577, n 0x7f 1048577, e 0x80 .jcond 10485776, e 0x81 .jcond 10485776,
  e 0x82 .jcond 10485776, e 0x83 .jcond 10485776, e 0x84 .jcond 10485776, e 0x85 .jcond 10485776,
  e 0x86 .jcond 10485776, e 0x87 .jcond 10485776, e 0x88 .jcond 10485776, e 0x89 .jcond 10485776,
  e 0x8a .jcond 10485776, e 0x8b .jcond 10485776, e 0x8c .jcond 10485776, e 0x8d .jcond 10485776,
  e 0x8e .jcond 10485776, e 0x8f .jcond 10485776, n 0x90 1048577, n 0x91 1048577, n 0x92 1048577,
  n 0x93 1048577, n 0x94 1048577, n 0x95 1048577, n 0x96 1048577, n 0x97 1048577, n 0x98 1048577,
  n 0x99 1048577, n 0x9a 1048577, n 0x9b 1048577, n 0x9c 1048577, n 0x9d 1048577, n 0x9e 1048577,
  n 0x9f 1048577, n 0xa0 2097152, n 0xa1 2097152, n 0xa2 0, n 0xa3 3145729, n 0xa4 3145731, n 0xa5 3145729,
  x 0xa6, x 0xa7, n 0xa8 2097152, n 0xa9 2097152, n 0xaa 0, n 0xab 3145729, n 0xac 3145731, n 0xad 3145729,
  n 0xae 1048577, n 0xaf 3145729, n 0xb0 1048577, n 0xb1 3145729, n 0xb2 3145729, n 0xb3 3145729,
  n 0xb4 3145729, n 0xb5 3145729, n 0xb6 3145729, n 0xb7 1048577, x 0xb8, x 0xb9, t 0xba .group8EvIb 2048,
  n 0xbb 3145729, n 0xbc 3145729, n 0xbd 3145729, n 0xbe 3145729, n 0xbf 1048577, n 0xc0 1048577,
  n 0xc1 3145729, n 0xc2 1048579, n 0xc3 1048577, n 0xc4 1048579, n 0xc5 1048579, n 0xc6 1048579,
  t 0xc7 .ngroup9 2048, n 0xc8 0, n 0xc9 0, n 0xca 0, n 0xcb 0, n 0xcc 0, n 0xcd 0, n 0xce 0, n 0xcf 0,
  x 0xd0, n 0xd1 1048577, n 0xd2 1048577, n 0xd3 1048577, n 0xd4 1048577, n 0xd5 1048577, n 0xd6 1048577,
  n 0xd7 1048577, n 0xd8 1048577, n 0xd9 1048577, n 0xda 1048577, n 0xdb 1048577, n 0xdc 1048577,
  n 0xdd 1048577, n 0xde 1048577, n 0xdf 1048577, n 0xe0 1048577, n 0xe1 1048577, n 0xe2 1048577,
  n 0xe3 1048577, n 0xe4 1048577, n 0xe5 1048577, n 0xe6 1048577, n 0xe7 1048577, n 0xe8 1048577,
  n 0xe9 1048577, n 0xea 1048577, n 0xeb 1048577, n 0xec 1048577, n 0xed 1048577, n 0xee 1048577,
  n 0xef 1048577, x 0xf0, n 0xf1 1048577, n 0xf2 1048577, n 0xf3 1048577, n 0xf4 1048577, n 0xf5 1048577,
  n 0xf6 1048577, n 0xf7 1048577, n 0xf8 1048577, n 0xf9 1048577, n 0xfa 1048577, n 0xfb 1048577,
  n 0xfc 1048577, n 0xfd 1048577, n 0xfe 1048577, x 0xff]

def nopbyte0 : List OpCode := [
  n 0x00 1048577, n 0x01 3145729, n 0x02 1048577, n 0x03 3145729, n 0x04 2, n 0x05 2097160, n 0x06 2097152,
  n 0x07 2097152, n 0x08 1048577, n 0x09 3145729, n 0x0a 1048577, n 0x0b 3145729, n 0x0c 2, n 0x0d 2097160,
  n 0x0e 2097152, t 0x0f .twoByteOpcodes 1024, n 0x10 1048577, n 0x11 3145729, n 0x12 1048577,
  n 0x13 3145729, n 0x14 2, n 0x15 2097160, n 0x16 2097152, n 0x17 2097152, n 0x18 1048577, n 0x19 3145729,
  n 0x1a 1048577, n 0x1b 3145729, n 0x1c 2, n 0x1d 2097160, n 0x1e 2097152, n 0x1f 2097152, n 0x20 1048577,
  n 0x21 3145729, n 0x22 1048577, n 0x23 3145729, n 0x24 2, n 0x25 2097160, p 0x26, n 0x27 0,
  n 0x28 1048577, n 0x29 3145729, n 0x2a 1048577, n 0x2b 3145729, n 0x2c 2, n 0x2d 2097160, p 0x2e,
  n 0x2f 0, n 0x30 1048577, n 0x31 3145729, n 0x32 1048577, n 0x33 3145729, n 0x34 2, n 0x35 2097160,
  p 0x36, n 0x37 0, n 0x38 1048577, n 0x39 3145729, n 0x3a 1048577, n 0x3b 3145729, n 0x3c 2,
  n 0x3d 2097160, p 0x3e, n 0x3f 0, n 0x40 2097152, n 0x41 2097152, n 0x42 2097152, n 0x43 2097152,
  n 0x44 2097152, n 0x45 2097152, n 0x46 2097152, n 0x47 2097152, n 0x48 2097152, n 0x49 2097152,
  n 0x4a 2097152, n 0x4b 2097152, n 0x4c 2097152, n 0x4d 2097152, n 0x4e 2097152, n 0x4f 2097152,
  n 0x50 2097152, n 0x51 2097152, n 0x52 2097152, n 0x53 2097152, n 0x54 2097152, n 0x55 2097152,
  n 0x56 2097152, n 0x57 2097152, n 0x58 2097152, n 0x59 2097152, n 0x5a 2097152, n 0x5b 2097152,
  n 0x5c 2097152, n 0x5d 2097152, n 0x5e 2097152, n 0x5f 2097152, n 0x60 2097152, n 0x61 2097152,
  n 0x62 3145729, n 0x63 1048577, p 0x64, p 0x65, p 0x66, p 0x67, n 0x68 2097160, n 0x69 3145737, n 0x6a 2,
  n 0x6b 3145731, n 0x6c 1048576, n 0x6d 3145728, n 0x6e 1048576, n 0x6f 3145728, e 0x70 .jcond 10485762,
  e 0x71 .jcond 10485762, e 0x72 .jcond 10485762, e 0x73 .jcond 10485762, e 0x74 .jcond 10485762,
  e 0x75 .jcond 10485762, e 0x76 .jcond 10485762, e 0x77 .jcond 10485762, e 0x78 .jcond 10485762,
  e 0x79 .jcond 10485762, e 0x7a .jcond 10485762, e 0x7b .jcond 10485762, e 0x7c .jcond 10485762,
  e 0x7d .jcond 10485762, e 0x7e .jcond 10485762, e 0x7f .jcond 10485762, t 0x80 .group1EbIb 2048,
  t 0x81 .group1EvIv 2048, t 0x82 .group1EbIb 2048, t 0x83 .group1EvIb 2048, n 0x84 1048577, n 0x85 3145729,
  n 0x86 1048577, n 0x87 3145729, n 0x88 1048577, n 0x89 3145729, n 0x8a 1048577, n 0x8b 3145729,
  n 0x8c 3145729, n 0x8d 3145729, n 0x8e 3145729, n 0x8f 3145729, n 0x90 2097152, n 0x91 2097152,
  n 0x92 2097152, n 0x93 2097152, n 0x94 2097152, n 0x95 2097152, n 0x96 2097152, n 0x97 2097152,
  n 0x98 2097152, n 0x99 2097152, n 0x9a 2129920, n 0x9b 0, n 0x9c 2097152, n 0x9d 2097152, n 0x9e 0,
  n 0x9f 0, n 0xa0 1048640, n 0xa1 3145856, n 0xa2 1048640, n 0xa3 3145856, n 0xa4 1048576, n 0xa5 3145728,
  n 0xa6 1048576, n 0xa7 3145728, n 0xa8 2, n 0xa9 2097160, n 0xaa 1048576, n 0xab 3145728, n 0xac 1048576,
  n 0xad 3145728, n 0xae 1048576, n 0xaf 3145728, n 0xb0 2, n 0xb1 2, n 0xb2 2, n 0xb3 2, n 0xb4 2,
  n 0xb5 2, n 0xb6 2, n 0xb7 2, n 0xb8 2097160, n 0xb9 2097160, n 0xba 2097160, n 0xbb 2097160,
  n 0xbc 2097160, n 0xbd 2097160, n 0xbe 2097160, n 0xbf 2097160, t 0xc0 .group2aEbIb 2048,
  t 0xc1 .group2aEvIb 2048, e 0xc2 .retIw 10502144, e 0xc3 .ret 10485760, n 0xc4 3145729, n 0xc5 3145729,
  n 0xc6 1048579, n 0xc7 3145737, n 0xc8 16386, n 0xc9 2097152, n 0xca 2113536, n 0xcb 2097152, n 0xcc 0,
  e 0xcd .int 2, n 0xce 0, n 0xcf 2097152, t 0xd0 .group2Eb1 2048, t 0xd1 .group2Ev1 2048,
  t 0xd2 .group2EbCL 2048, t 0xd3 .group2EvCL 2048, n 0xd4 2, n 0xd5 2, x 0xd6, n 0xd7 1048576,
  t 0xd8 .floatD8 65536, t 0xd9 .floatD9 65536, t 0xda .floatDa 65536, t 0xdb .floatDb 65536,
  t 0xdc .floatDc 65536, t 0xdd .floatDd 65536, t 0xde .floatDe 65536, t 0xdf .floatDf 65536,
  e 0xe0 .otherJcond 11534338, e 0xe1 .otherJcond 11534338, e 0xe2 .otherJcond 11534338,
  e 0xe3 .otherJcond 11534338, n 0xe4 2, n 0xe5 2097154, n 0xe6 2, n 0xe7 2097154,
  e 0xe8 .callDisp 10485776, e 0xe9 .jmp 10485776, n 0xea 2129920, e 0xeb .jmp 10485762, n 0xec 0,
  n 0xed 2097152, n 0xee 0, n 0xef 2097152, p 0xf0, x 0xf1, p 0xf2, p 0xf3, n 0xf4 0, n 0xf5 0,
  t 0xf6 .group3b 2048, t 0xf7 .group3v 2048, n 0xf8 0, n 0xf9 0, n 0xfa 0, n 0xfb 0, n 0xfc 0, n 0xfd 0,
  t 0xfe .ngroup4 2048, t 0xff .ngroup5 2048]

def floatD8 : List OpCode := [
  n 0 1048577, n 1 1048577, n 2 1048577, n 3 1048577, n 4 1048577, n 5 1048577, n 6 1048577, n 7 1048577,
  n 8 262144, n 9 262144, n 10 262144, n 11 262144, n 12 262144, n 13 262144, n 14 262144, n 15 262144]

def floatD9 : List OpCode := [
  n 0 1048577, x 1, n 2 1048577, n 3 1048577, n 4 1048577, n 5 1048577, n 6 1048577, n 7 1048577,
  n 8 262144, n 9 262144, t 10 .floatD92 131072, x 11, t 12 .floatD94 131072, t 13 .floatD95 131072,
  t 14 .floatD96 131072, t 15 .floatD97 131072]

def floatD92 : List OpCode := [
  n 0 0, x 1, x 2, x 3, x 4, x 5, x 6, x 7]

def floatD94 : List OpCode := [
  n 0 0, n 1 0, x 2, x 3, n 4 0, n 5 0, x 6, x 7]

def floatD95 : List OpCode := [
  n 0 0, n 1 0, n 2 0, n 3 0, n 4 0, n 5 0, n 6 0, x 7]

def floatD96 : List OpCode := [
  n 0 0, n 1 0, n 2 0, n 3 0, n 4 0, n 5 0, n 6 0, n 7 0]

def floatD97 : List OpCode := [
  n 0 0, n 1 0, n 2 0, n 3 0, n 4 0, n 5 0, n 6 0, n 7 0]

def floatDa : List OpCode := [
  n 0 1048577, n 1 1048577, n 2 1048577, n 3 1048577, n 4 1048577, n 5 1048577, n 6 1048577, n 7 1048577,
  n 8 262144, n 9 262144, n 10 262144, n 11 262144, x 12, t 13 .floatDa5 131072, x 14, x 15]

def floatDa5 : List OpCode := [
  x 0, n 1 0, x 2, x 3, x 4, x 5, x 6, x 7]

def floatDb : List OpCode := [
  n 0 1048577, x 1, n 2 1048577, n 3 1048577, x 4, n 5 1048577, x 6, n 7 1048577, n 8 262144, n 9 262144,
  n 10 262144, n 11 262144, t 12 .floatDb4 131072, n 13 262144, n 14 262144, x 15]

def floatDb4 : List OpCode := [
  x 0, x 1, n 2 0, n 3 0, x 4, x 5, x 6, x 7]

def floatDc : List OpCode := [
  n 0 1048577, n 1 1048577, n 2 1048577, n 3 1048577, n 4 1048577, n 5 1048577, n 6 1048577, n 7 1048577,
  n 8 786432, n 9 786432, x 10, x 11, n 12 786432, n 13 786432, n 14 786432, n 15 786432]

def floatDd : List OpCode := [
  n 0 1048577, x 1, n 2 1048577, n 3 1048577, n 4 1048577, x 5, n 6 1048577, n 7 1048577, n 8 0, x 9,
  n 10 0, n 11 0, n 12 786432, n 13 0, x 14, x 15]

def floatDe : List OpCode := [
  n 0 1048577, n 1 1048577, n 2 1048577, n 3 1048577, n 4 1048577, n 5 1048577, n 6 1048577, n 7 1048577,
  n 8 786432, n 9 786432, x 10, t 11 .floatDe3 131072, n 12 786432, n 13 786432, n 14 786432, n 15 786432]

def floatDe3 : List OpCode := [
  x 0, n 1 0, x 2, x 3, x 4, x 5, x 6, x 7]

def floatDf : List OpCode := [
  n 0 1048577, x 1, n 2 1048577, n 3 1048577, n 4 1048577, n 5 1048577, n 6 1048577, n 7 1048577, x 8, x 9,
  x 10, x 11, t 12 .floatDf4 131072, n 13 262144, n 14 262144, x 15]

def floatDf4 : List OpCode := [
  n 0 0, x 1, x 2, x 3, x 4, x 5, x 6, x 7]

end DecodeTable

def TableId.rows : TableId → List OpCode
  | .group1EbIb => DecodeTable.group1EbIb
  | .group1EvIv => DecodeTable.group1EvIv
  | .group1EvIb => DecodeTable.group1EvIb
  | .group2aEbIb => DecodeTable.group2aEbIb
  | .group2aEvIb => DecodeTable.group2aEvIb
  | .group2Eb1 => DecodeTable.group2Eb1
  | .group2Ev1 => DecodeTable.group2Ev1
  | .group2EbCL => DecodeTable.group2EbCL
  | .group2EvCL => DecodeTable.group2EvCL
  | .group3b => DecodeTable.group3b
  | .group3v => DecodeTable.group3v
  | .ngroup4 => DecodeTable.ngroup4
  | .ngroup5 => DecodeTable.ngroup5
  | .ngroup6 => DecodeTable.ngroup6
  | .ngroup7 => DecodeTable.ngroup7
  | .group8EvIb => DecodeTable.group8EvIb
  | .ngroup9 => DecodeTable.ngroup9
  | .twoByteOpcodes => DecodeTable.twoByteOpcodes
  | .nopbyte0 => DecodeTable.nopbyte0
  | .floatD8 => DecodeTable.floatD8
  | .floatD9 => DecodeTable.floatD9
  | .floatD92 => DecodeTable.floatD92
  | .floatD94 => DecodeTable.floatD94
  | .floatD95 => DecodeTable.floatD95
  | .floatD96 => DecodeTable.floatD96
  | .floatD97 => DecodeTable.floatD97
  | .floatDa => DecodeTable.floatDa
  | .floatDa5 => DecodeTable.floatDa5
  | .floatDb => DecodeTable.floatDb
  | .floatDb4 => DecodeTable.floatDb4
  | .floatDc => DecodeTable.floatDc
  | .floatDd => DecodeTable.floatDd
  | .floatDe => DecodeTable.floatDe
  | .floatDe3 => DecodeTable.floatDe3
  | .floatDf => DecodeTable.floatDf
  | .floatDf4 => DecodeTable.floatDf4

/-- `&table[i]`; past the end of a table there is no row. -/
def TableId.row (t : TableId) (i : Nat) : OpCode := t.rows.getD i ⟨0, .null, 0⟩

end Unitrans
