/-
The dispatcher `cpu_exec` (`cpu-exec.c`): what one iteration of its loop does
between an exit from the code cache and the next entry.
-/
import Unitrans.Translate

namespace Unitrans

open X86

namespace State

variable (L : Layout) (img : Mem)

/-- The block a `TranslationBlock *` points to. -/
def tbAt (s : State) (p : Word) : Result Nat :=
  let i := (p - L.tbs).toNat / sizeofTranslationBlock
  if i < s.tbs.length ∧ L.tbPtr i = p then .ok i else .error .wild

/-- The function a block created for `curPc` belongs to, by the kind of exit
that asks for it. -/
def newFuncAddr (s : State) (curPc prevTb : Word) : Result Word :=
  let indType := s.mem.ld32 L.indType
  if indType ≠ NOT_IND ∧ indType ≠ TYPE_SYSCALL then
    if indType = IND_TYPE_CALL ∨ indType = IND_TYPE_CALL_SP then .ok curPc
    else if indType = IND_TYPE_JMP ∨ indType = IND_TYPE_JMP_SP then .ok (s.mem.ld32 L.indDest)
    else if indType = IND_TYPE_RET ∨ indType = IND_TYPE_RET_SP then .ok curPc
    else if indType = IND_TYPE_RECUR then .ok (s.mem.ld32 L.indDest)
    else .ok 0
  else if prevTb ≠ 0 then do
    let prev ← s.tbAt L prevTb
    let b ← s.tb prev
    return b.funcAddr
  else .ok 0

def getNextTb (s : State) (ds : Decode) (curPc prevTb : Word) : Result (Nat × State) := do
  let (tb, s) ← s.tbFindFast curPc NORMAL_TB_TAG
  match tb with
  | none =>
    let funcAddr ← s.newFuncAddr L curPc prevTb
    let (tb, s) ← s.makeTb L curPc funcAddr NORMAL_TB_TAG
    let s ← s.cpuGenCode L img ds tb
    return (tb, s)
  | some tb =>
    let b ← s.tb tb
    if b.tcPtr = NOT_TRANS_YET then
      let s ← s.cpuGenCode L img ds tb
      return (tb, s)
    else return (tb, s)

/-- `patch_jmp_target` -/
def patchJmpTarget (s : State) (tb : Nat) (srcAddr destAddr : Word) : Result State := do
  let b ← s.tb tb
  let i := b.jmpIndIndex.toNat
  let s := s.st32 (b.jindSrcAddr i) (-srcAddr)
  let s := s.st32 (b.jindDestAddr i) (destAddr - b.jindDestAddr i - 4)
  return s.updTb tb (·.incJmpIndIndex)

def patchIndOpt (s : State) (prevTb tb : Nat) : Result State := do
  let tgtAddr := s.mem.ld32 L.eip
  let prev ← s.tb prevTb
  if prev.jmpIndIndex.toNat < IND_SLOT_MAX then
    let b ← s.tb tb
    s.patchJmpTarget prevTb tgtAddr b.tcPtr
  else return s.indPatchSieve prev.indEnterSieve

/-- After an exit of indirect kind: the target enters the sieve or the inline
chain of the block left. The value is what `prev_tb` is set to. -/
def handleInd (s : State) (prevTb : Word) (tb : Nat) : Result (Word × State) :=
  if s.mem.ld32 L.indType ≠ NOT_IND then
    if prevTb = 0 then do
      -- from the sieve
      let s ← s.addSieveEntry L tb (s.mem.ld32 L.indType)
      return (0, s.st32 L.indType NOT_IND)
    else do
      let prev ← s.tbAt L prevTb
      let s ← s.patchIndOpt L prev tb
      return (0, s)
  else .ok (prevTb, s)

/-- The link from the block left to the next one. -/
def linkTb (s : State) (prevTb : Word) (tb : Nat) : Result State :=
  if prevTb ≠ 0 ∧ L.tbPtr tb ≠ prevTb then do
    let prev ← s.tbAt L prevTb
    s.tbAddJump prev (s.mem.ld32 L.patchNum) tb
  else .ok s

/-- `env->target_tc = tb->tc_ptr; env->ret_tb = 0; env->ind_type = NOT_IND` -/
def clearEnv (s : State) (b : TranslationBlock) : State :=
  let s := s.st32 L.targetTc b.tcPtr
  let s := s.st32 L.retTb 0
  s.st32 L.indType NOT_IND

/-- One iteration of `cpu_exec` from the value `prev_tb` the code cache
returned up to the next entry; `ds` is what `gen_target_code` finds in its
uninitialised `decode_t`. -/
def cpuExecIter (s : State) (ds : Decode) (prevTb : Word) : Result State := do
  let (tb, s) ← s.getNextTb L img ds (s.mem.ld32 L.eip) prevTb
  let (prevTb, s) ← s.handleInd L prevTb tb
  let s ← s.linkTb L prevTb tb
  let b ← s.tb tb
  return s.clearEnv L b

end State

/-- The state the emulator starts with: no blocks, zeroed tables, and a zeroed
`CPUX86State` but for the guest's registers. -/
structure Booted (L : Layout) (s : State) : Prop where
  tbs : s.tbs = []
  tbPhysHash : s.tbPhysHash = fun _ => none
  tbJmpCache : s.tbJmpCache = fun _ => none
  patchArray : s.patchArray = []
  stbs : s.stbs = []
  log : s.log = {}
  codeGenPtr : s.codeGenPtr = L.codeGenBuffer
  retTb : s.mem.ld32 L.retTb = 0
  patchNum : s.mem.ld32 L.patchNum = 0
  indType : s.mem.ld32 L.indType = NOT_IND

/-- Such a state, for memory with these three words zero. -/
def State.boot (L : Layout) (mem : Mem) : State :=
  { mem := mem, codeGenPtr := L.codeGenBuffer, codePtr := 0, sieveCodePtr := 0 }

end Unitrans
