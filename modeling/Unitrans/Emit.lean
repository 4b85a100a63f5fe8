/-
The code the translator emits besides the guest's own instructions: leaving
to the dispatcher, entering the sieve, the comparison at a return point and
the inline targets of an indirect branch (`translate.c`, default
configuration).
-/
import Unitrans.Tb

namespace Unitrans

open X86

namespace State

variable (L : Layout)

/-- A new entry of `env->patch_array`. -/
def addPatch (s : State) (e : PatchEntry) : State :=
  { s with patchArray := s.patchArray ++ [e], log := { s.log with notes := s.log.notes ++ [e] } }

/-- `note_patch` -/
def notePatch (s : State) (loc dest : Word) (tb : Nat) (funcAddr tbTag : Word) : Result State := do
  abortIf (s.patchArray.length ≥ PATCH_ARRAY_SIZE) "node_patch overflow\n"
  abortIf (PATCH_MAX ≤ s.mem.ld32 L.patchNum) "tb patch_num overflow\n"
  let e : PatchEntry := { loc, dest, tb, funcAddr, tbTag }
  let s := s.addPatch e
  return s.updTb tb fun b => b.setPatchNum (b.patchNum + 1)

/-! ## Leaving the code cache -/

def cemitExitTb (s : State) (retTb indType : Word) : State :=
  -- pop %ecx
  let s := s.emit [0x59]
  -- pop (env->eip)
  let s := s.emit ([0x8f, 0x05] ++ le32 L.eip)
  -- movl $ret_tb, (ret_tb)
  let s := if retTb ≠ -1 then s.emit ([0xc7, 0x05] ++ le32 L.retTb ++ le32 retTb) else s
  -- movl $ind_type, (ind_type)
  let s := if indType ≠ -1 then s.emit ([0xc7, 0x05] ++ le32 L.indType ++ le32 indType) else s
  -- jmp tb_epilogue
  let s := s.emit [0xe9]
  s.emit (le32 (s.tbRetAddr - s.codePtr - 4))

def cemitSieveNopush (s : State) : State :=
  -- jmp sieve_stub
  let s := s.emit [0xe9]
  s.emit (le32 (s.sieveStub - s.codePtr - 4))

def cemitSieve (s : State) : State :=
  -- push %ecx
  let s := s.emit [0x51]
  s.cemitSieveNopush

/-! ## Return points -/

def logRcCmp (s : State) (start : Word) : State :=
  { s with log := { s.log with rcCmps := s.log.rcCmps ++ [(start, s.pcPtr)] } }

def cemitRcCmp (s : State) (patchAddrRc : Word) : State :=
  let start := s.codePtr
  let s := s.st32 patchAddrRc s.codePtr
  -- push %ecx; mov 4(%esp),%ecx; lea -pc_ptr(%ecx),%ecx
  let s := s.emit [0x51]
  let s := s.emit [0x8b, 0x4c, 0x24, 4]
  let s := s.emit ([0x8d, 0x89] ++ le32 (-s.pcPtr))
  -- jecxz equal
  let s := s.emit [0xe3]
  let patchAddr := s.codePtr
  let s := s.emit [NEED_PATCH_8]
  let s := s.cemitSieveNopush
  -- equal:
  let s := s.st8 patchAddr ((s.codePtr - patchAddr - 1).setWidth 8)
  -- pop %ecx; lea 4(%esp),%esp
  let s := s.emit [0x59]
  let s := s.emit [0x8d, 0x64, 0x24, 4]
  s.logRcCmp start

/-! ## Indirect branches -/

/-- `ind_patch_sieve` -/
def indPatchSieve (s : State) (enterSievePtr : Word) : State :=
  let codePtrReserved := s.codePtr
  let s := s.setCodePtr enterSievePtr
  let s := s.cemitSieveNopush
  s.setCodePtr codePtrReserved

/-- One comparison of `cemit_ind_opt`: the state after it and the address of
the `jecxz` displacement. -/
def indOptCompare (s : State) (i : Nat) : State × Word :=
  -- mov 4(%esp),%ecx; lea -SPC_i(%ecx),%ecx
  let s := s.emit [0x8b, 0x4c, 0x24, 4]
  let s := s.emit [0x8d, 0x89]
  let s := s.updTb s.curTb (·.setJindSrcAddr i s.codePtr)
  let s := s.emit (le32 (-NEED_PATCH_32))
  -- jecxz equal
  let s := s.emit [0xe3]
  let patchAddr := s.codePtr
  (s.emit [NEED_PATCH_8], patchAddr)

/-- One hit stub of `cemit_ind_opt`. -/
def indOptHit (s : State) (i : Nat) (patchAddr : Word) : Result State := do
  let jmpOffset := s.codePtr - patchAddr - 1
  abortIf (0xff < jmpOffset) "jmp_offest exceed\n"
  let s := s.st8 patchAddr (jmpOffset.setWidth 8)
  -- pop %ecx; lea 4(%esp),%esp; jmp TPC_i
  let s := s.emit [0x59]
  let s := s.emit [0x8d, 0x64, 0x24, 4]
  let s := s.emit [0xe9]
  let s := s.updTb s.curTb (·.setJindDestAddr i s.codePtr)
  return s.emit (le32 NEED_PATCH_32)

def cemitIndOpt (s : State) (indType : Word) : Result State := do
  -- push %ecx
  let s := s.emit [0x51]
  let (s, patchAddr) := (List.range IND_SLOT_MAX).foldl
    (fun (s, patchAddr) i => let (s, a) := s.indOptCompare i; (s, patchAddr ++ [a])) (s, [])
  let s := s.updTb s.curTb (·.setIndEnterSieve s.codePtr)
  let s := s.cemitExitTb L (L.tbPtr s.curTb) indType
  patchAddr.zipIdx.foldlM (fun s (a, i) => s.indOptHit i a) s

end State

end Unitrans
