/-
Where the emulator's data lies, and the sizes and constants of the default
configuration. The layout of `CPUX86State` is the one of the 32-bit ABI; of
its fields the ones emitted code addresses have a name here.
-/
import Unitrans.X86.Mem

namespace Unitrans

open X86

/-! ## Configuration -/

def IND_SLOT_MAX : Nat := 3
def TB_FROM_MAX : Word := 16
def PATCH_MAX : Word := 8
def CONT_TRANS_TAG : Word := PATCH_MAX - 1
def PATCH_ARRAY_SIZE : Nat := 256
def STB_MAX : Nat := 1024 * 50 * 10
def NORMAL_TB_TAG : Word := 0
def NOT_TRANS_YET : Word := 0xdeadbeaf
def NEED_PATCH_32 : Word := 0x5a5a
def NEED_PATCH_8 : Byte := 0x5a
def MAX_INSNS : Nat := 1024 * 8
def TB_FOR_SIEVE_MAX_SIZE : Nat := 256

def RET_CACHE_SIZE : Nat := 1024 * 64
def RET_HASH_MASK : Word := 0xffff
def SIEVE_SIZE : Nat := 65536
def SIEVE_MASK : Word := 0x7fff8

def NOT_IND : Word := 0
def IND_TYPE_CALL : Word := 1
def IND_TYPE_JMP : Word := 2
def IND_TYPE_RET : Word := 3
def IND_TYPE_RECUR : Word := 4
def IND_TYPE_CALL_SP : Word := 5
def IND_TYPE_JMP_SP : Word := 6
def IND_TYPE_RET_SP : Word := 8
def TYPE_SYSCALL : Word := 9

def DEFAULT_CODE_GEN_BUFFER_SIZE : Nat := 128 * 1024 * 1024
def DEFAULT_SIEVE_BUFFER_SIZE : Nat := 64 * 1024 * 1024

/-- `TCG_MAX_OP_SIZE * OPC_MAX_SIZE` below the size of the buffer. -/
def codeGenBufferMaxSize : Nat := DEFAULT_CODE_GEN_BUFFER_SIZE - 192 * (640 - 96)
def codeGenMaxBlocks : Nat := DEFAULT_CODE_GEN_BUFFER_SIZE / 64

def sizeofTranslationBlock : Nat := 256
def sizeofPrologue : Nat := 2048
/-- `CPUX86State` up to and including `ind_type`. -/
def sizeofEnv : Nat := 1840216

def nrExitGroup : Word := 252

/-! ## Layout -/

/-- The emulator's static data: the CPU state, the prologue, the two code
buffers and the table of blocks, none overlapping another. -/
structure Layout where
  env : Word
  codeGenPrologue : Word
  codeGenBuffer : Word
  sieveBuffer : Word
  tbs : Word
  /-- the C function `exit_stub` -/
  exitStub : Word
  env_prologue : Disjoint (Span env sizeofEnv) (Span codeGenPrologue sizeofPrologue)
  env_code : Disjoint (Span env sizeofEnv) (Span codeGenBuffer DEFAULT_CODE_GEN_BUFFER_SIZE)
  env_sieve : Disjoint (Span env sizeofEnv) (Span sieveBuffer DEFAULT_SIEVE_BUFFER_SIZE)
  prologue_code : Disjoint (Span codeGenPrologue sizeofPrologue)
    (Span codeGenBuffer DEFAULT_CODE_GEN_BUFFER_SIZE)
  prologue_sieve : Disjoint (Span codeGenPrologue sizeofPrologue)
    (Span sieveBuffer DEFAULT_SIEVE_BUFFER_SIZE)
  code_sieve : Disjoint (Span codeGenBuffer DEFAULT_CODE_GEN_BUFFER_SIZE)
    (Span sieveBuffer DEFAULT_SIEVE_BUFFER_SIZE)
  tbs_pos : 0 < tbs.toNat
  tbs_end : tbs.toNat + codeGenMaxBlocks * sizeofTranslationBlock < 2 ^ 32
  /-- `NOT_TRANS_YET` is a kernel address, neither in the code buffer nor just behind it -/
  not_trans_yet : NOT_TRANS_YET ∉ Span codeGenBuffer (DEFAULT_CODE_GEN_BUFFER_SIZE + 1)

namespace Layout

variable (L : Layout)

/-- The address of the field of `env` at an offset. -/
def field (k : Nat) : Word := L.env + BitVec.ofNat 32 k

def reg (i : Nat) : Word := L.field (4 * i)
def eip : Word := L.field 32
def targetTc : Word := L.field 44
def espTmp : Word := L.field 48
def retTb : Word := L.field 56
def patchNum : Word := L.field 64
def retHashTable : Word := L.field 72
def sieveHashtable : Word := L.field 267344
def indDest : Word := L.field 1840208
def indType : Word := L.field 1840212

/-- `&tbs[i]` -/
def tbPtr (i : Nat) : Word := L.tbs + BitVec.ofNat 32 (sizeofTranslationBlock * i)

/-- The memory the guest has no business in. -/
def emu : Set Word :=
  Span L.env sizeofEnv ∪ Span L.codeGenPrologue sizeofPrologue ∪
    Span L.codeGenBuffer DEFAULT_CODE_GEN_BUFFER_SIZE ∪ Span L.sieveBuffer DEFAULT_SIEVE_BUFFER_SIZE

theorem field_subset {i k : Nat} (h : i + k ≤ sizeofEnv) : Span (L.field i) k ⊆ Span L.env sizeofEnv :=
  span_subset_add h (by decide)

theorem disjoint_field {i j k l : Nat} (h : i + k ≤ j ∨ j + l ≤ i) (hi : i + k ≤ sizeofEnv)
    (hj : j + l ≤ sizeofEnv) : Disjoint (Span (L.field i) k) (Span (L.field j) l) := by
  have hs : sizeofEnv ≤ 2 ^ 32 := by decide
  rcases h with h | h
  · exact disjoint_span_add h (by omega)
  · exact (disjoint_span_add h (by omega)).symm

theorem eip_subset : Span L.eip 4 ⊆ Span L.env sizeofEnv := L.field_subset (i := 32) (by decide)
theorem retTb_subset : Span L.retTb 4 ⊆ Span L.env sizeofEnv := L.field_subset (i := 56) (by decide)
theorem patchNum_subset : Span L.patchNum 4 ⊆ Span L.env sizeofEnv := L.field_subset (i := 64) (by decide)
theorem indDest_subset : Span L.indDest 4 ⊆ Span L.env sizeofEnv := L.field_subset (i := 1840208) (by decide)
theorem indType_subset : Span L.indType 4 ⊆ Span L.env sizeofEnv := L.field_subset (i := 1840212) (by decide)

/-- One such layout. -/
def sample : Layout where
  env := 0x10000000
  codeGenPrologue := 0x20000000
  codeGenBuffer := 0x30000000
  sieveBuffer := 0x40000000
  tbs := 0x50000000
  exitStub := 0x08048000
  env_prologue := disjoint_span_of_le (a := 0) (by decide) (by decide)
  env_code := disjoint_span_of_le (a := 0) (by decide) (by decide)
  env_sieve := disjoint_span_of_le (a := 0) (by decide) (by decide)
  prologue_code := disjoint_span_of_le (a := 0) (by decide) (by decide)
  prologue_sieve := disjoint_span_of_le (a := 0) (by decide) (by decide)
  code_sieve := disjoint_span_of_le (a := 0) (by decide) (by decide)
  tbs_pos := by decide
  tbs_end := by decide
  not_trans_yet := by rw [mem_span]; decide

end Layout

def RET_HASH_FUNC (b i : Word) : Word := b + (i &&& RET_HASH_MASK) * 4

def SIEVE_HASH (b i : Word) : Word := b + (i &&& SIEVE_MASK)

end Unitrans
