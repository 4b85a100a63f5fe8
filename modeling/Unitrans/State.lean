/-
The emulator's state: the blocks and their two hash tables, the translator's
context, and one byte memory for everything emitted code reads or writes (the
code buffers, the fields of `CPUX86State` it addresses, the guest's own
memory). A block is named by its index in `tbs`. What the C program counts
for statistics only is left out.

The last field is a record of what the translator did, which nothing reads.
-/
import Unitrans.Decode
import Unitrans.Layout

namespace Unitrans

open X86

/-- `TranslationBlock`. -/
structure TranslationBlock where
  pc : Word
  funcAddr : Word := 0
  tbTag : Word := 0
  hcodeSize : BitVec 16 := 0
  insnCount : Word := 0
  tcPtr : Word := NOT_TRANS_YET
  physHashNext : Option Nat := none
  patchNum : Word := 0
  tbJmpOffset : Nat → BitVec 16 := fun _ => 0
  jmpFrom : Nat → Option Nat := fun _ => none
  jmpFromNum : Nat → Byte := fun _ => 0
  jmpFromIndex : Word := 0
  type : Word := 0
  jindSrcAddr : Nat → Word := fun _ => 0
  jindDestAddr : Nat → Word := fun _ => 0
  jmpInd : Word := 0
  jmpIndIndex : Word := 0
  indEnterSieve : Word := 0

namespace TranslationBlock

/-! Assignments to a block's fields. -/

def setTcPtr (p : Word) (b : TranslationBlock) : TranslationBlock := { b with tcPtr := p }
def setPatchNum (n : Word) (b : TranslationBlock) : TranslationBlock := { b with patchNum := n }
def setJmpOffset (n : Nat) (offset : BitVec 16) (b : TranslationBlock) : TranslationBlock :=
  { b with tbJmpOffset := Function.update b.tbJmpOffset n offset }
def setType (t : Word) (b : TranslationBlock) : TranslationBlock := { b with type := t }
def setJindSrcAddr (i : Nat) (p : Word) (b : TranslationBlock) : TranslationBlock :=
  { b with jindSrcAddr := Function.update b.jindSrcAddr i p }
def setJindDestAddr (i : Nat) (p : Word) (b : TranslationBlock) : TranslationBlock :=
  { b with jindDestAddr := Function.update b.jindDestAddr i p }
def setIndEnterSieve (p : Word) (b : TranslationBlock) : TranslationBlock := { b with indEnterSieve := p }
def setHcodeSize (n : BitVec 16) (b : TranslationBlock) : TranslationBlock := { b with hcodeSize := n }
def incInsnCount (b : TranslationBlock) : TranslationBlock := { b with insnCount := b.insnCount + 1 }
def incJmpIndIndex (b : TranslationBlock) : TranslationBlock :=
  { b with jmpInd := 0, jmpIndIndex := b.jmpIndIndex + 1 }

end TranslationBlock

/-- `patch_entry`: the rel32 field (`at`), the guest address it leads to
(`to`) and the block it belongs to. -/
structure PatchEntry where
  loc : Word
  dest : Word
  tb : Nat
  funcAddr : Word
  tbTag : Word
  deriving DecidableEq

/-- `SuperTransBlock`. -/
structure SuperTransBlock where
  pcStart : Word
  pcEnd : Word
  tcPtr : Word
  deriving DecidableEq

/-- One call `ds->emitfn(env, ds)`. -/
structure Invocation where
  fn : Ptr
  ds : Decode
  /-- what `simple_disas_insn` answered -/
  ok : Bool
  /-- the address of the instruction -/
  pc : Word
  /-- `env->code_ptr` at the call -/
  start : Word
  /-- `cur_tb` at the call -/
  tb : Nat

/-- What the translator did so far. -/
structure Log where
  invocations : List Invocation := []
  /-- the calls of `note_patch` -/
  notes : List PatchEntry := []
  /-- where a `cemit_rc_cmp` sequence starts, and the return address it compares with -/
  rcCmps : List (Word × Word) := []
  /-- the indices `tb_jmp_offset` was assigned at -/
  slots : List Word := []

structure State where
  mem : Mem
  tbs : List TranslationBlock := []
  tbPhysHash : Word → Option Nat := fun _ => none
  tbJmpCache : Word → Option Nat := fun _ => none
  codeGenPtr : Word
  /-- `env->code_ptr` -/
  codePtr : Word
  /-- `env->sieve_code_ptr` -/
  sieveCodePtr : Word
  /-- the first `env->patch_count` entries of `env->patch_array` -/
  patchArray : List PatchEntry := []
  curTb : Nat := 0
  sieveStub : Word := 0
  tbRetAddr : Word := 0
  pcPtr : Word := 0
  pcStart : Word := 0
  insnLen : Word := 0
  stbs : List SuperTransBlock := []
  sieveStat : Word → Word := fun _ => 0
  log : Log := {}

/-- How a run of the C code can end other than by returning. -/
inductive Fault
  /-- `ABORT_IF` and `abort()` -/
  | abort (msg : String)
  /-- a call through a null `emitfn` -/
  | nullEmitter
  /-- an access through a pointer to nothing the program owns -/
  | wild
  /-- a loop that does not end -/
  | hang
  /-- an access past the end of a buffer or an array -/
  | outOfBounds
  deriving DecidableEq

abbrev Result := Except Fault

/-- `ABORT_IF(cond, msg)` -/
def abortIf (cond : Bool) (msg : String) : Result Unit := if cond then .error (.abort msg) else .ok ()

/-- An array of `n` elements. -/
abbrev Elems (_n : Nat) (α : Type) := Nat → α

namespace Elems

variable {n : Nat} {α : Type}

def load (a : Elems n α) (i : Nat) : Result α := if i < n then .ok (a i) else .error .outOfBounds

def store (a : Elems n α) (i : Nat) (x : α) : Result (Elems n α) :=
  if i < n then .ok (Function.update a i x) else .error .outOfBounds

theorem load_eq (a : Elems n α) {i : Nat} (hi : i < n) : a.load i = .ok (a i) := if_pos hi

theorem store_eq (a : Elems n α) {i : Nat} (hi : i < n) (x : α) : a.store i x = .ok (Function.update a i x) := if_pos hi

end Elems

namespace State

/-- `&tbs[i]`, as a fallible access. -/
def tb (s : State) (i : Nat) : Result TranslationBlock :=
  match s.tbs[i]? with
  | some b => .ok b
  | none => .error .wild

/-- An assignment to fields of `tbs[i]`. -/
def updTb (s : State) (i : Nat) (f : TranslationBlock → TranslationBlock) : State :=
  { s with tbs := s.tbs.modify i f }

def setCurTb (s : State) (i : Nat) : State := { s with curTb := i }

def setCodePtr (s : State) (p : Word) : State := { s with codePtr := p }

/-- `code_emit` through `env->code_ptr`. -/
def emit (s : State) (bs : List Byte) : State :=
  { s with mem := s.mem.put s.codePtr bs, codePtr := s.codePtr + BitVec.ofNat 32 bs.length }

/-- `code_emit` through `env->sieve_code_ptr`. -/
def emitSieve (s : State) (bs : List Byte) : State :=
  { s with mem := s.mem.put s.sieveCodePtr bs, sieveCodePtr := s.sieveCodePtr + BitVec.ofNat 32 bs.length }

/-- `*(uint32_t *)a = w` -/
def st32 (s : State) (a w : Word) : State := { s with mem := s.mem.st32 a w }

/-- `*a = b` -/
def st8 (s : State) (a : Word) (b : Byte) : State := { s with mem := s.mem.put a [b] }

end State

end Unitrans
