/-
The translator (`translate.c`, default configuration): the emitter of each
kind of instruction, the translation of a superblock, the resolution of its
direct branches and the sieve. `img` is the guest's code.
-/
import Unitrans.Emit

namespace Unitrans

open X86

namespace State

variable (L : Layout) (img : Mem)

/-- The push of an instruction's r/m operand. -/
def emitPushRm (s : State) (ds : Decode) : Result State := do
  let modrm := (ds.modrm &&& 0xc7) ||| 0x30
  let s := if has ds.flags DSFL_GROUP2_PREFIX then s.emit [ds.group2Prefix] else s
  if has ds.flags DSFL_GROUP4_PREFIX then .error (.abort "") else
  let s := s.emit [0xff, modrm]
  let s := if ds.needSib then s.emit [ds.sib] else s
  match ds.dispBytes with
  | 1 => return s.emit [ds.displacement.setWidth 8]
  | 2 => return s.emit (le16 ds.displacement)
  | 4 => return s.emit (le32 ds.displacement)
  | _ => return s

def logSlot (s : State) (n : Word) : State := { s with log := { s.log with slots := s.log.slots ++ [n] } }

/-- What `trans_next` makes the current block: the block at `pc_ptr`, begun
here unless it is translated already, which ends the superblock with a jump. -/
def transNext (s : State) (ds : Decode) : Result (Bool × State) := do
  if !has ds.opstate OPSTATE_DATA32 then .error (.abort "") else
  let (tb, s) ← s.tbFindFast s.pcPtr NORMAL_TB_TAG
  match tb with
  | some tb =>
    let b ← s.tb tb
    if b.tcPtr ≠ NOT_TRANS_YET then
      let s := s.emit [0xe9]
      let s := s.emit (le32 (b.tcPtr - s.codePtr - 4))
      let cur ← s.tb s.curTb
      let s := s.logSlot cur.patchNum
      let s := s.updTb s.curTb (·.setJmpOffset cur.patchNum.toNat ((s.codePtr - cur.tcPtr - 4).setWidth 16))
      return (false, s.tbAddJmpFrom s.curTb tb cur.patchNum)
    else
      let s := s.updTb tb (·.setTcPtr s.codePtr)
      return (true, s.setCurTb tb)
  | none =>
    let cur ← s.tb s.curTb
    let (tb, s) ← s.makeTb L s.pcPtr cur.funcAddr NORMAL_TB_TAG
    let s := s.updTb tb (·.setTcPtr s.codePtr)
    return (true, s.setCurTb tb)

/-! ## Emitters

Each answers whether translation goes on. -/

/-- The instruction itself, copied. -/
def copyInsn (s : State) : State := s.emit (img.read (s.pcPtr - s.insnLen) s.insnLen.toNat)

def emitNormal (s : State) : Result (Bool × State) := return (true, s.copyInsn img)

def emitCallDisp (s : State) (ds : Decode) : Result (Bool × State) := do
  let jmpTarget := s.pcPtr + ds.immediate
  -- push next insn
  let s := s.emit ([0x68] ++ le32 s.pcPtr)
  if !has ds.opstate OPSTATE_DATA32 then .error (.abort "") else
  -- movl ret_tgt, (ret_cache_entry)
  let s := s.emit ([0xc7, 0x05] ++ le32 (RET_HASH_FUNC L.retHashTable jmpTarget))
  let patchAddrRc := s.codePtr
  let s := s.emit (le32 NEED_PATCH_32)
  -- jmp NEED_PATCH
  let s := s.emit ([0xe9] ++ le32 0)
  let s ← s.notePatch L (s.codePtr - 4) jmpTarget s.curTb jmpTarget NORMAL_TB_TAG
  let s := s.cemitRcCmp patchAddrRc
  s.transNext L ds

def destBasedOnEsp (ds : Decode) : Bool :=
  if reg ds.modrm = 4 then true
  else if mod ds.modrm = 3 then rm ds.modrm == 4
  else rm ds.modrm == 4 && rm ds.sib == 4

/-- The pushes of the return address and of the destination of an indirect call. -/
def emitCallPushes (s : State) (ds : Decode) : Result State :=
  if destBasedOnEsp ds then do
    let s ← s.emitPushRm ds
    -- push (%esp); mov pc_ptr, 4(%esp)
    let s := s.emit [0xff, 0x34, 0x24]
    return s.emit ([0xc7, 0x44, 0x24, 4] ++ le32 s.pcPtr)
  else
    -- push pc_ptr
    let s := s.emit ([0x68] ++ le32 s.pcPtr)
    s.emitPushRm ds

def emitCallNearMem (s : State) (ds : Decode) : Result (Bool × State) := do
  let s := s.updTb s.curTb (·.setType IND_TYPE_CALL)
  let s ← s.emitCallPushes ds
  -- push %ecx; mov 4(%esp),%ecx; andl $RET_HASH_MASK,%ecx
  let s := s.emit [0x51]
  let s := s.emit [0x8b, 0x4c, 0x24, 4]
  let s := s.emit ([0x81, 0xe1] ++ le32 RET_HASH_MASK)
  -- movl ret_jmp_addr, ret_hash_table(,%ecx,4)
  let s := s.emit ([0xc7, 0x04, 0x8d] ++ le32 L.retHashTable)
  let patchAddrRc := s.codePtr
  let s := s.emit (le32 NEED_PATCH_32)
  -- pop %ecx
  let s := s.emit [0x59]
  let s ← s.cemitIndOpt L IND_TYPE_CALL
  let s := s.cemitRcCmp patchAddrRc
  s.transNext L ds

/-- `jmp *(ret_cache_entry)` -/
def cemitJmpRetCache (s : State) : Result State := do
  let cur ← s.tb s.curTb
  return s.emit ([0xff, 0x25] ++ le32 (RET_HASH_FUNC L.retHashTable cur.funcAddr))

def emitRet (s : State) : Result (Bool × State) := do
  let s ← s.cemitJmpRetCache L
  return (false, s)

def emitRetIw (s : State) (ds : Decode) : Result (Bool × State) := do
  -- pop (imm16-4)(%esp); lea (imm16-4)(%esp),%esp
  let s := s.emit ([0x8f, 0x84, 0x24] ++ le32 (ds.imm16 - 4))
  let s := if ds.imm16 - 4 ≠ 0 then s.emit ([0x8d, 0xa4, 0x24] ++ le32 (ds.imm16 - 4)) else s
  let s ← s.cemitJmpRetCache L
  return (false, s)

/-- The target of a relative jump, cut to 16 bits under a 16-bit operand size. -/
def jmpTargetOf (s : State) (ds : Decode) : Word :=
  let jmpTarget := s.pcPtr + ds.immediate
  if !has ds.opstate OPSTATE_DATA32 then jmpTarget &&& 0xffff else jmpTarget

def emitJcond (s : State) (ds : Decode) : Result (Bool × State) := do
  let jmpTarget := jmpTargetOf s ds
  let s := if has ds.flags DSFL_GROUP2_PREFIX then s.emit [ds.group2Prefix] else s
  let cond := if img ds.instr = 0x0f then img (ds.instr + 1) else img ds.instr
  -- jcond NEED_PATCH
  let s := s.emit ([0x0f, (cond &&& 0x0f) ||| 0x80] ++ le32 NEED_PATCH_32)
  let cur ← s.tb s.curTb
  let s ← s.notePatch L (s.codePtr - 4) jmpTarget s.curTb cur.funcAddr NORMAL_TB_TAG
  s.transNext L ds

def emitOtherJcond (s : State) (ds : Decode) : Result (Bool × State) := do
  let s := if has ds.flags DSFL_GROUP2_PREFIX then s.emit [ds.group2Prefix] else s
  -- jcxz, loop, loope, loopne; jmp rel8
  let s := s.emit [BitVec.ofNat 8 ds.pEntry.index, 0x02, 0xeb]
  let patchAddrJother := s.codePtr
  let s := s.emit [NEED_PATCH_8]
  let jmpTarget := s.pcPtr + ds.immediate
  -- jmp NEED_PATCH
  let s := s.emit ([0xe9] ++ le32 0)
  let cur ← s.tb s.curTb
  let s ← s.notePatch L (s.codePtr - 4) jmpTarget s.curTb cur.funcAddr NORMAL_TB_TAG
  let s := s.st8 patchAddrJother ((s.codePtr - patchAddrJother - 1).setWidth 8)
  s.transNext L ds

/-- `push %ebp; movl %esp,%ebp` -/
def isFunctionPatten (addr : Word) : Bool := img addr == 0x55 && img (addr + 1) == 0x89 && img (addr + 2) == 0xe5

/-- The copy of one return-cache slot to another: `push (from); pop (to)`. -/
def cemitRcCopy (s : State) (fromAddr toAddr : Word) : State :=
  let s := s.emit ([0xff, 0x35] ++ le32 (RET_HASH_FUNC L.retHashTable fromAddr))
  s.emit ([0x8f, 0x05] ++ le32 (RET_HASH_FUNC L.retHashTable toAddr))

/-- A jump into another function hands its slot of the return cache on. -/
def emitJmpEntrance (s : State) (jmpTarget curFuncAddr : Word) : Result State := do
  let (tb, s) ← s.tbFindFast jmpTarget NORMAL_TB_TAG
  match tb with
  | some tb =>
    let b ← s.tb tb
    if b.funcAddr ≠ 0 ∧ b.funcAddr ≠ curFuncAddr then return s.cemitRcCopy L curFuncAddr b.funcAddr
    else return s
  | none =>
    -- maybe jump to a new function entrance
    if jmpTarget < curFuncAddr ∨ isFunctionPatten img jmpTarget then
      let (_, s) ← s.makeTb L jmpTarget jmpTarget NORMAL_TB_TAG
      return s.cemitRcCopy L curFuncAddr jmpTarget
    else return s

def emitJmp (s : State) (ds : Decode) : Result (Bool × State) := do
  let jmpTarget := jmpTargetOf s ds
  let cur ← s.tb s.curTb
  let s ← s.emitJmpEntrance L img jmpTarget cur.funcAddr
  -- jmp NEED_PATCH
  let s := s.emit ([0xe9] ++ le32 NEED_PATCH_32)
  let s ← s.notePatch L (s.codePtr - 4) jmpTarget s.curTb cur.funcAddr NORMAL_TB_TAG
  return (false, s)

def emitJmpNearMem (s : State) (ds : Decode) : Result (Bool × State) := do
  let s := s.updTb s.curTb (·.setType IND_TYPE_JMP)
  let cur ← s.tb s.curTb
  -- mov func_addr, (ind_dest)
  let s := s.emit ([0xc7, 0x05] ++ le32 L.indDest ++ le32 cur.funcAddr)
  let s ← s.emitPushRm ds
  let s ← s.cemitIndOpt L IND_TYPE_JMP
  return (false, s)

def emitInt (s : State) (ds : Decode) : Result (Bool × State) :=
  let s :=
    if img (ds.instr + 1) = 0x80 then
      -- pushf; cmp $__NR_exit_group,%eax; jne
      let s := s.emit [0x9c]
      let s := s.emit ([0x3d] ++ le32 nrExitGroup)
      let s := s.emit [0x75]
      let patchAddr := s.codePtr
      let s := s.emit [NEED_PATCH_8]
      -- push env; call exit_stub; lea 4(%esp),%esp
      let s := s.emit ([0x68] ++ le32 L.env)
      let s := s.emit [0xe8]
      let s := s.emit (le32 (L.exitStub - s.codePtr - 4))
      let s := s.emit [0x8d, 0x64, 0x24, 4]
      let s := s.st8 patchAddr ((s.codePtr - patchAddr - 1).setWidth 8)
      -- popf
      s.emit [0x9d]
    else s
  return (true, s.copyInsn img)

def emitSysenter (s : State) : Result (Bool × State) := return (false, s)

/-- `(ds->emitfn)(env, ds)` -/
def callEmitfn (s : State) (ds : Decode) : Result (Bool × State) :=
  match ds.emitfn with
  | .null => .error .nullEmitter
  | .table _ => .error .wild
  | .fn .normal => s.emitNormal img
  | .fn .jcond => s.emitJcond L img ds
  | .fn .otherJcond => s.emitOtherJcond L ds
  | .fn .jmp => s.emitJmp L img ds
  | .fn .jmpNearMem => s.emitJmpNearMem L ds
  | .fn .callDisp => s.emitCallDisp L ds
  | .fn .callNearMem => s.emitCallNearMem L ds
  | .fn .ret => s.emitRet L
  | .fn .retIw => s.emitRetIw L ds
  | .fn .int => s.emitInt L img ds
  | .fn .sysenter => s.emitSysenter

/-! ## Direct branches of a finished superblock -/

/-- `code_ptr` has not left its buffer. -/
def checkCode (s : State) : Result Unit :=
  if (s.codePtr - L.codeGenBuffer).toNat > DEFAULT_CODE_GEN_BUFFER_SIZE then .error .outOfBounds else .ok ()

/-- `sieve_code_ptr` has not left its buffer. -/
def checkSieve (s : State) : Result Unit :=
  if (s.sieveCodePtr - L.sieveBuffer).toNat > DEFAULT_SIEVE_BUFFER_SIZE then .error .outOfBounds else .ok ()

/-- The exit stub of a direct branch. -/
def cemitExitStub (s : State) (tb : Nat) (patchNum dest : Word) : State :=
  -- movl tb, (ret_tb); movl patch_num, (patch_num); movl jmp_target, (eip)
  let s := s.emitSieve ([0xc7, 0x05] ++ le32 L.retTb ++ le32 (L.tbPtr tb))
  let s := s.emitSieve ([0xc7, 0x05] ++ le32 L.patchNum ++ le32 patchNum)
  let s := s.emitSieve ([0xc7, 0x05] ++ le32 L.eip ++ le32 dest)
  -- jmp tb_epilogue
  let s := s.emitSieve [0xe9]
  s.emitSieve (le32 (s.tbRetAddr - s.sieveCodePtr - 4))

/-- The bookkeeping both branches of `lazy_patch` make for the owner of a
field: its slot number and the offset recorded in that slot. -/
def takeSlot (s : State) (e : PatchEntry) : Result (Word × State) := do
  let s := s.setCurTb e.tb
  let cur ← s.tb e.tb
  let n := cur.patchNum - 1
  let s := s.logSlot n
  return (n, s.updTb e.tb fun b => (b.setPatchNum n).setJmpOffset n.toNat ((e.loc - b.tcPtr).setWidth 16))

/-- `if(!dest_tb) make_tb(...)` -/
def makeDest (s : State) (e : PatchEntry) (destTb : Option Nat) : Result State :=
  match destTb with
  | none => do
    let (_, s) ← s.makeTb L e.dest e.funcAddr e.tbTag
    return s
  | some _ => .ok s

/-- The `else` branch of `lazy_patch`, for a destination without code. -/
def patchToStub (s : State) (e : PatchEntry) (destTb : Option Nat) : Result State := do
  let s ← s.makeDest L e destTb
  let s := s.st32 e.loc (s.sieveCodePtr - e.loc - 4)
  let (n, s) ← s.takeSlot e
  let s := s.cemitExitStub L e.tb n e.dest
  s.checkSieve L
  return s

/-- One iteration of `lazy_patch`. -/
def lazyPatchEntry (s : State) (e : PatchEntry) : Result State := do
  let (destTb, s) ← s.tbFindFast e.dest e.tbTag
  match destTb with
  | some d =>
    let b ← s.tb d
    if b.tcPtr ≠ NOT_TRANS_YET then
      let s := s.st32 e.loc (b.tcPtr - e.loc - 4)
      let (n, s) ← s.takeSlot e
      return s.tbAddJmpFrom e.tb d n
    else s.patchToStub L e destTb
  | none => s.patchToStub L e none

def lazyPatch (s : State) : Result State := s.patchArray.foldlM (fun s e => s.lazyPatchEntry L e) s

/-! ## Superblocks

`gen_target_code` and `regen_target_code` share their loop but for the block
the counter and the exit at the limit belong to (`who`) and the tag of that
exit. -/

structure GenLoop where
  who : State → Nat
  tag : TranslationBlock → Word

/-- The context's account of the instruction about to be emitted. -/
def beginInsn (s : State) (ds : Decode) (ok : Bool) : State :=
  let i : Invocation :=
    { fn := ds.emitfn, ds := ds, ok := ok, pc := s.pcPtr, start := s.codePtr, tb := s.curTb }
  { s with
    insnLen := ds.decodeEip - s.pcPtr, pcPtr := ds.decodeEip
    log := { s.log with invocations := s.log.invocations ++ [i] } }

/-- One iteration up to the emitter's return. What the decoder and the emitter
return is handed on; nothing looks at what the decoder answered. -/
def genInsn (G : GenLoop) (s : State) (ds : Decode) : Result (Decode × Bool × State) := do
  match simpleDisasInsn img ds s.pcPtr with
  | none => .error .hang
  | some (ds, ok) =>
    abortIf (has ds.opstate OPSTATE_ADDR16) "error: OPSTATE_ADDR16\n"
    let (cont, s) ← (s.beginInsn ds ok).callEmitfn L img ds
    s.checkCode L
    return (ds, cont, s.updTb (G.who s) (·.incInsnCount))

/-- The exit at the patch or instruction limit. -/
def limitExit (G : GenLoop) (s : State) : Result State := do
  let b ← s.tb (G.who s)
  let s := if b.tcPtr = s.codePtr then s.updTb (G.who s) (·.setTcPtr NOT_TRANS_YET) else s
  let s := s.emit ([0xe9] ++ le32 NEED_PATCH_32)
  let s ← s.notePatch L (s.codePtr - 4) s.pcPtr (G.who s) b.funcAddr (G.tag b)
  s.checkCode L
  return s

/-- The translation loop, with `MAX_INSNS - num_insns` iterations left. The
count `sieve_count` stays at zero in this configuration. -/
def genInsns (G : GenLoop) : Nat → State → Decode → Result State
  | left, s, ds => do
    let (ds, cont, s) ← s.genInsn L img G ds
    if !cont then return s else
    if s.patchArray.length ≥ PATCH_ARRAY_SIZE - 2 ∨ 0 ≥ TB_FOR_SIEVE_MAX_SIZE - 1 then s.limitExit L G else
    match left with
    | 0 => s.limitExit L G
    | left + 1 => genInsns G left s ds

/-- The context at the start of the superblock of block `tb`. -/
def beginSuperblock (s : State) (b : TranslationBlock) (tb : Nat) : State :=
  let curStb : SuperTransBlock := { pcStart := b.pc, pcEnd := 0, tcPtr := b.tcPtr }
  { s with
    pcStart := b.pc, pcPtr := b.pc, codePtr := b.tcPtr, curTb := tb, patchArray := []
    stbs := s.stbs ++ [curStb] }

/-- `cur_stb->pc_end = cgc->pc_ptr - 1` -/
def setPcEnd (s : State) (stb : Nat) : State :=
  { s with stbs := s.stbs.modify stb fun t => { t with pcEnd := s.pcPtr - 1 } }

/-- `code_gen_ptr = env->code_ptr` -/
def setCodeGenPtr (s : State) : State := { s with codeGenPtr := s.codePtr }

/-- The body both share. `ds` is the uninitialised `decode_t`. -/
def genSuperblock (G : GenLoop) (s : State) (ds : Decode) (tb : Nat) : Result State := do
  let b ← s.tb tb
  let stb := s.stbs.length
  let s := s.beginSuperblock b tb
  abortIf (s.stbs.length ≥ STB_MAX) "stb count overflow\n"
  let s ← s.genInsns L img G MAX_INSNS ds
  let s := s.setPcEnd stb
  let s ← s.lazyPatch L
  let s := s.setCodeGenPtr
  abortIf (BitVec.slt (BitVec.ofNat 32 DEFAULT_CODE_GEN_BUFFER_SIZE) (s.codeGenPtr - L.codeGenBuffer))
    "code_buffer overflow\n"
  return s.updTb tb fun b => b.setHcodeSize ((s.codeGenPtr - b.tcPtr).setWidth 16)

def genTargetCode (s : State) (ds : Decode) (tb : Nat) : Result State :=
  s.genSuperblock L img { who := fun s => s.curTb, tag := fun _ => NORMAL_TB_TAG } ds tb

/-- `regen_target_code`, which only the configuration with `RETRANS_IND` calls. -/
def regenTargetCode (s : State) (ds : Decode) (tb : Nat) : Result State :=
  s.genSuperblock L img { who := fun _ => tb, tag := fun b => b.tbTag } ds tb

/-- `cpu_gen_code` -/
def cpuGenCode (s : State) (ds : Decode) (tb : Nat) : Result State :=
  (s.updTb tb (·.setTcPtr s.codeGenPtr)).genTargetCode L img ds tb

/-! ## The sieve -/

def incSieveStat (s : State) (i : Word) : State :=
  { s with sieveStat := Function.update s.sieveStat i (s.sieveStat i + 1) }

/-- The code of a node: a comparison with the block's address, the jump to the
next node and the jump to the block. -/
def cemitSieveNode (s : State) (b : TranslationBlock) (nextNode : Word) : State :=
  -- mov 4(%esp),%ecx; lea -pc(%ecx),%ecx; jecxz equal
  let s := s.emitSieve [0x8b, 0x4c, 0x24, 4]
  let s := s.emitSieve ([0x8d, 0x89] ++ le32 (-b.pc))
  let s := s.emitSieve [0xe3, 0x05]
  -- jmp next_node
  let s := s.emitSieve [0xe9]
  let s := s.emitSieve (le32 (nextNode - s.sieveCodePtr - 4))
  -- equal: pop %ecx; lea 4(%esp),%esp
  let s := s.emitSieve [0x59]
  let s := s.emitSieve [0x8d, 0x64, 0x24, 4]
  -- jmp tc_ptr
  let s := s.emitSieve [0xe9]
  s.emitSieve (le32 (b.tcPtr - s.sieveCodePtr - 4))

def addSieveEntry (s : State) (tb : Nat) (_type : Word) : Result State := do
  let b ← s.tb tb
  if b.tcPtr = NOT_TRANS_YET then return s else
  let se := SIEVE_HASH L.sieveHashtable (b.pc <<< 3)
  let s := s.incSieveStat ((b.pc &&& SIEVE_MASK) >>> 3)
  let nextInsn := se + 5
  let nextNode := nextInsn + s.mem.ld32 (se + 1)
  let s := s.st32 (se + 1) (s.sieveCodePtr - nextInsn)
  let s := s.cemitSieveNode b nextNode
  abortIf (BitVec.slt (BitVec.ofNat 32 DEFAULT_SIEVE_BUFFER_SIZE) (s.sieveCodePtr - L.sieveBuffer))
    "out of sieve buffer\n"
  return s

/-- Entry `i` of a sieve table, at its address. -/
def sieveEntryAddr (table : Word) (i : Nat) : Word := table + BitVec.ofNat 32 (8 * i)

/-- `sv_table_init` for the table of calls: the exit stub at `codePtr`, and
every bucket a jump to it. -/
def svTableInit (s : State) (codePtr indType : Word) : State :=
  let svOutPtr := codePtr
  let codePtrReserved := s.codePtr
  let s := s.setCodePtr codePtr
  let s := s.cemitExitTb L (-1) indType
  let s := s.setCodePtr codePtrReserved
  (List.range SIEVE_SIZE).foldl (fun s i =>
    let e := sieveEntryAddr L.sieveHashtable i
    let s := s.st8 e 0xe9
    s.st32 (e + 1) (svOutPtr - (e + 1) - 4)) s

def sieveInit (s : State) : State :=
  let s := { s with sieveStub := s.sieveCodePtr }
  -- mov 4(%esp),%ecx; movzwl %cx,%ecx; lea sieve_table(,%ecx,8),%ecx; jmp *%ecx
  let s := s.emitSieve [0x8b, 0x4c, 0x24, 4]
  let s := s.emitSieve [0x0f, 0xb7, 0xc9]
  let s := s.emitSieve ([0x8d, 0x0c, 0xcd] ++ le32 L.sieveHashtable)
  let s := s.emitSieve [0xff, 0xe1]
  s.svTableInit L (L.codeGenPrologue + 256) IND_TYPE_CALL

/-- `ret_cache_proc_init`: every slot of the return cache enters the sieve. -/
def retCacheProcInit (s : State) : State :=
  let procEnterPtr := L.codeGenPrologue + 512
  let codePtrReserved := s.codePtr
  let s := s.setCodePtr procEnterPtr
  let s := s.cemitSieve
  let s := s.setCodePtr codePtrReserved
  (List.range RET_CACHE_SIZE).foldl (fun s i =>
    s.st32 (L.retHashTable + BitVec.ofNat 32 (4 * i)) procEnterPtr) s

/-! ## The prologue -/

/-- `mov (addr), reg` and `mov reg, (addr)` for all eight registers. -/
def movGpr (op : Byte) : List Byte :=
  (List.range 8).flatMap fun i => [op, 0x05 ||| (BitVec.ofNat 8 i <<< 3)] ++ le32 (L.reg i)

/-- The way in: save the host's context, load the guest's, jump to the block. -/
def enterBytes : List Byte :=
  -- push %ebx, %ebp, %esi, %edi; mov %esp, (esp_tmp)
  [0x53, 0x55, 0x56, 0x57] ++ ([0x89, 0x25] ++ le32 L.espTmp) ++ movGpr L 0x8b ++
  -- popf; jmp *(target_tc)
  [0x9d] ++ ([0xff, 0x25] ++ le32 L.targetTc)

/-- The way out, at `tb_ret_addr`. -/
def leaveBytes : List Byte :=
  -- pushf
  [0x9c] ++ movGpr L 0x89 ++
  -- mov (esp_tmp), %esp; pop %ebx, %ebp, %esi, %edi
  ([0x8b, 0x25] ++ le32 L.espTmp) ++ [0x5b, 0x5d, 0x5e, 0x5f] ++
  -- mov (ret_tb), %eax; ret
  ([0x8b, 0x05] ++ le32 L.retTb) ++ [0xc3]

/-- `codecache_prologue_init` up to the first block. -/
def cachePrologue (s : State) : State :=
  let s := s.st32 (L.reg 4) (s.mem.ld32 (L.reg 4) - 4)
  let s := { s with mem := s.mem.put L.codeGenPrologue (enterBytes L) }
  let tbRetAddr := L.codeGenPrologue + BitVec.ofNat 32 (enterBytes L).length
  let s := { s with tbRetAddr := tbRetAddr, mem := s.mem.put tbRetAddr (leaveBytes L) }
  let s := { s with sieveCodePtr := L.sieveBuffer }
  let s := s.sieveInit L
  s.retCacheProcInit L

def codecachePrologueInit (s : State) : Result State := do
  let s := s.cachePrologue L
  let eip := s.mem.ld32 L.eip
  let (_, s) ← s.makeTb L eip eip 0
  return s

end State

end Unitrans
