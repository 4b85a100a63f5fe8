/-
What each emitter does with an instruction: the bytes it emits, as one run
placed at `code_ptr`, and what it writes into the current block and the patch
array. Emitters that end in `trans_next` are given up to that call.
-/
import Unitrans.EmitFacts

namespace Unitrans

open X86 Except

namespace State

variable (s : State)

/-! ## Moving the emission to the front -/

theorem emit_updTb (i : Nat) (f : TranslationBlock → TranslationBlock) (bs : List Byte) :
    (s.updTb i f).emit bs = (s.emit bs).updTb i f := rfl

theorem st32_updTb (i : Nat) (f : TranslationBlock → TranslationBlock) (a w : Word) :
    (s.updTb i f).st32 a w = (s.st32 a w).updTb i f := rfl

theorem st8_updTb (i : Nat) (f : TranslationBlock → TranslationBlock) (a : Word) (b : Byte) :
    (s.updTb i f).st8 a b = (s.st8 a b).updTb i f := rfl

theorem updTb_updTb (i : Nat) (f g : TranslationBlock → TranslationBlock) :
    (s.updTb i f).updTb i g = s.updTb i (g ∘ f) := by
  simp only [updTb, List.modify_modify_eq]

@[simp] theorem codePtr_updTb (i : Nat) (f : TranslationBlock → TranslationBlock) :
    (s.updTb i f).codePtr = s.codePtr := by cases s; rfl
@[simp] theorem curTb_updTb (i : Nat) (f : TranslationBlock → TranslationBlock) :
    (s.updTb i f).curTb = s.curTb := by cases s; rfl
@[simp] theorem pcPtr_updTb (i : Nat) (f : TranslationBlock → TranslationBlock) :
    (s.updTb i f).pcPtr = s.pcPtr := by cases s; rfl
@[simp] theorem sieveStub_updTb (i : Nat) (f : TranslationBlock → TranslationBlock) :
    (s.updTb i f).sieveStub = s.sieveStub := by cases s; rfl
@[simp] theorem tbRetAddr_updTb (i : Nat) (f : TranslationBlock → TranslationBlock) :
    (s.updTb i f).tbRetAddr = s.tbRetAddr := by cases s; rfl

@[simp] theorem codePtr_st8 (a : Word) (b : Byte) : (s.st8 a b).codePtr = s.codePtr := by cases s; rfl
@[simp] theorem curTb_st8 (a : Word) (b : Byte) : (s.st8 a b).curTb = s.curTb := by cases s; rfl
@[simp] theorem codePtr_st32 (a w : Word) : (s.st32 a w).codePtr = s.codePtr := by cases s; rfl
@[simp] theorem pcPtr_st32 (a w : Word) : (s.st32 a w).pcPtr = s.pcPtr := by cases s; rfl
@[simp] theorem sieveStub_st32 (a w : Word) : (s.st32 a w).sieveStub = s.sieveStub := by cases s; rfl

variable {s}

/-- A byte patched after it was emitted. -/
theorem emit_st8 {xs zs : List Byte} {b c : Byte} (h : xs.length + (1 + zs.length) ≤ 2 ^ 32) :
    (s.emit (xs ++ ([b] ++ zs))).st8 (s.codePtr + BitVec.ofNat 32 xs.length) c = s.emit (xs ++ ([c] ++ zs)) := by
  simp only [emit, st8, Mem.put_patch (m := s.mem) (a := s.codePtr) (show [c].length = [b].length from rfl) h,
    List.length_append, List.length_singleton]

/-- A word patched after it was emitted. -/
theorem emit_st32 {xs zs : List Byte} {v w : Word} (h : xs.length + (4 + zs.length) ≤ 2 ^ 32) :
    (s.emit (xs ++ (le32 v ++ zs))).st32 (s.codePtr + BitVec.ofNat 32 xs.length) w =
      s.emit (xs ++ (le32 w ++ zs)) := by
  simp only [emit, st32, Mem.st32, List.length_append, length_le32,
    Mem.put_patch (m := s.mem) (a := s.codePtr) (show (le32 w).length = (le32 v).length from rfl) h]

end State

/-! ## Pieces -/

section

variable (L : Layout)

/-- `push r/m`, the operand of the instruction. -/
def pushRmBytes (ds : Decode) : List Byte :=
  (if has ds.flags DSFL_GROUP2_PREFIX then [ds.group2Prefix] else []) ++
    [0xff, (ds.modrm &&& 0xc7) ||| 0x30] ++ (if ds.needSib then [ds.sib] else []) ++
    match ds.dispBytes with
    | 1 => [ds.displacement.setWidth 8]
    | 2 => le16 ds.displacement
    | 4 => le32 ds.displacement
    | _ => []

theorem length_pushRmBytes (ds : Decode) : (pushRmBytes ds).length ≤ 8 := by
  simp only [pushRmBytes, List.length_append]
  split <;> split <;> split <;> simp

theorem emitPushRm_eq (s : State) (ds : Decode) : s.emitPushRm ds =
    if has ds.flags DSFL_GROUP4_PREFIX then .error (.abort "") else .ok (s.emit (pushRmBytes ds)) := by
  simp only [State.emitPushRm, pushRmBytes]
  refine if_congr Iff.rfl rfl ?_
  cases has ds.flags DSFL_GROUP2_PREFIX <;> cases ds.needSib <;> split <;>
    simp [State.emit_emit, pure, Except.pure, *]

/-- The comparison at the return point `p` for the return address `pc`. -/
def rcCmpBytes (sieveStub p pc : Word) : List Byte :=
  [0x51] ++ [0x8b, 0x4c, 0x24, 4] ++ ([0x8d, 0x89] ++ le32 (-pc)) ++ [0xe3, 0x05] ++ jmpTo (p + 13) sieveStub ++
    [0x59] ++ [0x8d, 0x64, 0x24, 4]

@[simp] theorem length_rcCmpBytes (t p pc : Word) : (rcCmpBytes t p pc).length = 23 := rfl

theorem cemitRcCmp_eq (s : State) (patchAddrRc : Word) : s.cemitRcCmp patchAddrRc =
    ((s.st32 patchAddrRc s.codePtr).emit (rcCmpBytes s.sieveStub s.codePtr s.pcPtr)).logRcCmp s.codePtr := by
  obtain ⟨t, ht⟩ : ∃ t, t = s.st32 patchAddrRc s.codePtr := ⟨_, rfl⟩
  have hptr : t.codePtr = s.codePtr := ht ▸ State.codePtr_st32 ..
  have hpc : t.pcPtr = s.pcPtr := ht ▸ State.pcPtr_st32 ..
  have hstub : t.sieveStub = s.sieveStub := ht ▸ State.sieveStub_st32 ..
  rw [State.cemitRcCmp, ← ht, ← hptr, ← hpc, ← hstub]
  clear ht
  let pre : List Byte := [0x51] ++ [0x8b, 0x4c, 0x24, 4] ++ ([0x8d, 0x89] ++ le32 (-t.pcPtr)) ++ [0xe3]
  have hpre : (((t.emit [0x51]).emit [0x8b, 0x4c, 0x24, 4]).emit ([0x8d, 0x89] ++ le32 (-t.pcPtr))).emit [0xe3] =
      t.emit pre := by simp [State.emit_emit, pre]
  have hjmp : ((t.emit pre).emit [NEED_PATCH_8]).cemitSieveNopush =
      t.emit (pre ++ ([NEED_PATCH_8] ++ jmpTo (t.codePtr + 13) t.sieveStub)) := by
    simp [cemitSieveNopush_eq, State.emit_emit, pre]
  have hpatch : (t.emit (pre ++ ([NEED_PATCH_8] ++ jmpTo (t.codePtr + 13) t.sieveStub))).st8 (t.codePtr + 12) 5 =
      t.emit (pre ++ ([5] ++ jmpTo (t.codePtr + 13) t.sieveStub)) := State.emit_st8 (by simp [pre])
  have hdisp : (t.codePtr + 18 - (t.codePtr + 12) - 1).setWidth 8 = (5 : Byte) := by
    rw [show t.codePtr + 18 - (t.codePtr + 12) - 1 = (5 : Word) by bv_omega]
    rfl
  have hafter : ((t.emit pre).emit [NEED_PATCH_8]).cemitSieveNopush.codePtr = t.codePtr + 18 := by
    rw [hjmp]
    simp [pre]
  simp only [State.pcPtr_emit, hpre, hafter]
  rw [show (t.emit pre).codePtr = t.codePtr + 12 by simp [pre], hdisp, hjmp, hpatch]
  simp [State.emit_emit, rcCmpBytes, pre]

def indCmpHead : List Byte := [0x8b, 0x4c, 0x24, 4] ++ ([0x8d, 0x89] ++ le32 (-NEED_PATCH_32)) ++ [0xe3]

/-- One comparison of the inline chain, `d` bytes before its hit. -/
def indCmpBytes (d : Byte) : List Byte := indCmpHead ++ [d]

/-- A hit of the inline chain. -/
def indHitBytes : List Byte := [0x59] ++ [0x8d, 0x64, 0x24, 4] ++ ([0xe9] ++ le32 NEED_PATCH_32)

/-- The inline chain of an indirect branch. -/
def indOptBytes (tbRetAddr p tb indType : Word) : List Byte :=
  let exit := exitTbBytes L tbRetAddr (p + 37) tb indType
  let d (i : Nat) := BitVec.ofNat 8 (24 + exit.length - 2 * i)
  [0x51] ++ indCmpBytes (d 0) ++ indCmpBytes (d 1) ++ indCmpBytes (d 2) ++ exit ++
    indHitBytes ++ indHitBytes ++ indHitBytes

/-- Where the parts of the chain at `p` are, its exit having `n` bytes. -/
def indOptFields (p : Word) (n : Nat) (b : TranslationBlock) : TranslationBlock :=
  ((((((b.setJindSrcAddr 0 (p + 7)).setJindSrcAddr 1 (p + 19)).setJindSrcAddr 2 (p + 31)).setIndEnterSieve
    (p + 37)).setJindDestAddr 0 (p + BitVec.ofNat 32 (43 + n))).setJindDestAddr 1
    (p + BitVec.ofNat 32 (53 + n))).setJindDestAddr 2 (p + BitVec.ofNat 32 (63 + n))

@[simp] theorem length_indCmpHead : indCmpHead.length = 11 := rfl
@[simp] theorem length_indCmpBytes (d : Byte) : (indCmpBytes d).length = 12 := rfl
@[simp] theorem length_indHitBytes : indHitBytes.length = 10 := rfl

theorem length_exitTbBytes_le (tbRetAddr p tb indType : Word) :
    (exitTbBytes L tbRetAddr p tb indType).length ≤ 32 := by
  simp only [exitTbBytes]
  split <;> split <;> simp

theorem indOptCompare_eq (s : State) (i : Nat) : s.indOptCompare i =
    ((s.emit (indCmpBytes NEED_PATCH_8)).updTb s.curTb (·.setJindSrcAddr i (s.codePtr + 6)), s.codePtr + 11) := by
  simp only [State.indOptCompare, State.emit_updTb, State.emit_emit, State.codePtr_updTb, State.codePtr_emit,
    State.curTb_emit, List.length_append, List.length_cons, List.length_nil, length_le32, Nat.reduceAdd,
    Nat.reduceLeDiff, Nat.reducePow]
  simp [indCmpBytes, indCmpHead]

theorem indOptHit_eq {s : State} {i n : Nat} {a : Word} (hn : s.codePtr - a - 1 = BitVec.ofNat 32 n) (hlt : n < 256) :
    s.indOptHit i a = .ok (((s.st8 a (BitVec.ofNat 8 n)).emit indHitBytes).updTb s.curTb
      (·.setJindDestAddr i (s.codePtr + 6))) := by
  have hle : ¬ 0xff < BitVec.ofNat 32 n := by bv_omega
  have hw : (BitVec.ofNat 32 n).setWidth 8 = BitVec.ofNat 8 n := by
    apply BitVec.eq_of_toNat_eq
    simp
  simp only [State.indOptHit, abortIf, hn, decide_eq_true_eq, if_neg hle, hw, ok_bind]
  simp [State.emit_updTb, State.emit_emit, indHitBytes, pure, Except.pure]

/-- A hit, its comparison ending in the byte `b` between `xs` and `zs`. -/
theorem indOptHit_emit (s : State) (xs zs : List Byte) {bs bs' : List Byte} {b d : Byte} {a c : Word} (i : Nat)
    (f : TranslationBlock → TranslationBlock) (hz : zs.length < 256) (hx : xs.length < 1024)
    (hbs : bs = xs ++ ([b] ++ zs)) (ha : a = s.codePtr + BitVec.ofNat 32 xs.length) (hd : BitVec.ofNat 8 zs.length = d)
    (hbs' : xs ++ ([d] ++ (zs ++ indHitBytes)) = bs')
    (hc : s.codePtr + BitVec.ofNat 32 (xs.length + zs.length + 7) = c) :
    ((s.emit bs).updTb s.curTb f).indOptHit i a =
      .ok ((s.emit bs').updTb s.curTb fun b => (f b).setJindDestAddr i c) := by
  subst hbs ha hd hbs' hc
  have hptr : (s.emit (xs ++ ([b] ++ zs))).codePtr = s.codePtr + BitVec.ofNat 32 (xs.length + zs.length + 1) := by
    simp [Nat.add_assoc]
  have hn : ((s.emit (xs ++ ([b] ++ zs))).updTb s.curTb f).codePtr - (s.codePtr + BitVec.ofNat 32 xs.length) - 1 =
      BitVec.ofNat 32 zs.length := by
    rw [State.codePtr_updTb, hptr]
    bv_omega
  rw [indOptHit_eq hn hz, State.st8_updTb, State.emit_st8 (by omega), State.emit_updTb, State.curTb_updTb,
    State.curTb_emit, State.updTb_updTb, State.emit_emit (by simp; omega), State.codePtr_updTb, hptr]
  simp [Function.comp_def, BitVec.add_assoc, ← BitVec.ofNat_add]

/-- The three hits behind the comparisons and the exit. -/
theorem indOptHits_eq (s : State) (exit : List Byte) (f : TranslationBlock → TranslationBlock)
    (hlen : exit.length ≤ 32) (d : Nat → Byte) (hd : ∀ i, d i = BitVec.ofNat 8 (24 + exit.length - 2 * i)) :
    (do
      let t ← ((s.emit ([0x51] ++ indCmpBytes NEED_PATCH_8 ++ indCmpBytes NEED_PATCH_8 ++
        indCmpBytes NEED_PATCH_8 ++ exit)).updTb s.curTb f).indOptHit 0 (s.codePtr + 12)
      let t ← t.indOptHit 1 (s.codePtr + 24)
      t.indOptHit 2 (s.codePtr + 36)) =
    .ok ((s.emit ([0x51] ++ indCmpBytes (d 0) ++ indCmpBytes (d 1) ++ indCmpBytes (d 2) ++ exit ++
      indHitBytes ++ indHitBytes ++ indHitBytes)).updTb s.curTb fun b =>
        (((f b).setJindDestAddr 0 (s.codePtr + BitVec.ofNat 32 (43 + exit.length))).setJindDestAddr 1
          (s.codePtr + BitVec.ofNat 32 (53 + exit.length))).setJindDestAddr 2
            (s.codePtr + BitVec.ofNat 32 (63 + exit.length))) := by
  have hz₀ : (indCmpBytes NEED_PATCH_8 ++ indCmpBytes NEED_PATCH_8 ++ exit).length = 24 + exit.length := by
    simp
    omega
  have hz₁ : (indCmpBytes NEED_PATCH_8 ++ exit ++ indHitBytes).length = 22 + exit.length := by
    simp
    omega
  have hz₂ : (exit ++ indHitBytes ++ indHitBytes).length = 20 + exit.length := by
    simp
    omega
  have hd₀ : BitVec.ofNat 8 (24 + exit.length) = d 0 := (hd 0).symm
  have hd₁ : BitVec.ofNat 8 (22 + exit.length) = d 1 := by rw [hd]; congr 1; omega
  have hd₂ : BitVec.ofNat 8 (20 + exit.length) = d 2 := by rw [hd]; congr 1; omega
  have h₀ : ((s.emit ([0x51] ++ indCmpBytes NEED_PATCH_8 ++ indCmpBytes NEED_PATCH_8 ++
      indCmpBytes NEED_PATCH_8 ++ exit)).updTb s.curTb f).indOptHit 0 (s.codePtr + 12) =
      .ok ((s.emit ([0x51] ++ indCmpBytes (d 0) ++ indCmpBytes NEED_PATCH_8 ++ indCmpBytes NEED_PATCH_8 ++ exit ++
        indHitBytes)).updTb s.curTb fun b => (f b).setJindDestAddr 0 (s.codePtr + BitVec.ofNat 32 (43 + exit.length))) :=
    indOptHit_emit s ([0x51] ++ indCmpHead) _ (b := NEED_PATCH_8) 0 f (by rw [hz₀]; omega) (by simp)
      (by simp [indCmpBytes]) rfl (hz₀ ▸ hd₀) (by simp [indCmpBytes]) (by rw [hz₀]; congr 2; simp; omega)
  have h₁ (f : TranslationBlock → TranslationBlock) : ((s.emit ([0x51] ++ indCmpBytes (d 0) ++
      indCmpBytes NEED_PATCH_8 ++ indCmpBytes NEED_PATCH_8 ++ exit ++ indHitBytes)).updTb s.curTb f).indOptHit 1
        (s.codePtr + 24) =
      .ok ((s.emit ([0x51] ++ indCmpBytes (d 0) ++ indCmpBytes (d 1) ++ indCmpBytes NEED_PATCH_8 ++ exit ++
        indHitBytes ++ indHitBytes)).updTb s.curTb
          fun b => (f b).setJindDestAddr 1 (s.codePtr + BitVec.ofNat 32 (53 + exit.length))) :=
    indOptHit_emit s ([0x51] ++ indCmpBytes (d 0) ++ indCmpHead) _ (b := NEED_PATCH_8) 1 f (by rw [hz₁]; omega)
      (by simp) (by simp [indCmpBytes]) rfl (hz₁ ▸ hd₁) (by simp [indCmpBytes]) (by rw [hz₁]; congr 2; simp; omega)
  have h₂ (f : TranslationBlock → TranslationBlock) : ((s.emit ([0x51] ++ indCmpBytes (d 0) ++ indCmpBytes (d 1) ++
      indCmpBytes NEED_PATCH_8 ++ exit ++ indHitBytes ++ indHitBytes)).updTb s.curTb f).indOptHit 2 (s.codePtr + 36) =
      .ok ((s.emit ([0x51] ++ indCmpBytes (d 0) ++ indCmpBytes (d 1) ++ indCmpBytes (d 2) ++ exit ++
        indHitBytes ++ indHitBytes ++ indHitBytes)).updTb s.curTb
          fun b => (f b).setJindDestAddr 2 (s.codePtr + BitVec.ofNat 32 (63 + exit.length))) :=
    indOptHit_emit s ([0x51] ++ indCmpBytes (d 0) ++ indCmpBytes (d 1) ++ indCmpHead) _ (b := NEED_PATCH_8) 2 f
      (by rw [hz₂]; omega) (by simp) (by simp [indCmpBytes]) rfl (hz₂ ▸ hd₂) (by simp [indCmpBytes])
      (by rw [hz₂]; congr 2; simp; omega)
  rw [h₀, ok_bind, h₁, ok_bind, h₂]

theorem cemitIndOpt_eq (s : State) (indType : Word) : s.cemitIndOpt L indType =
    .ok ((s.emit (indOptBytes L s.tbRetAddr s.codePtr (L.tbPtr s.curTb) indType)).updTb s.curTb
      (indOptFields s.codePtr (exitTbBytes L s.tbRetAddr (s.codePtr + 37) (L.tbPtr s.curTb) indType).length)) := by
  have hlen := length_exitTbBytes_le L s.tbRetAddr (s.codePtr + 37) (L.tbPtr s.curTb) indType
  simp only [State.cemitIndOpt, IND_SLOT_MAX, List.range_succ, List.range_zero, List.nil_append, List.cons_append,
    List.foldl_cons, List.foldl_nil, indOptCompare_eq, cemitExitTb_eq, State.emit_updTb, State.codePtr_updTb,
    State.curTb_updTb, State.tbRetAddr_updTb, State.codePtr_emit, State.curTb_emit, State.tbRetAddr_emit,
    State.updTb_updTb, length_indCmpBytes, List.length_cons, List.length_nil, BitVec.add_assoc, Nat.zero_add,
    BitVec.reduceAdd, List.zipIdx_cons, List.zipIdx_nil, List.foldlM_cons, List.foldlM_nil, bind_pure]
  rw [show 37#32 = (37 : Word) from rfl, show 12#32 = (12 : Word) from rfl, show 24#32 = (24 : Word) from rfl,
    show 36#32 = (36 : Word) from rfl, show 1 + 1 = 2 from rfl, indOptBytes]
  generalize exitTbBytes L s.tbRetAddr (s.codePtr + 37) (L.tbPtr s.curTb) indType = exit at hlen ⊢
  have hbody : ((((s.emit [0x51]).emit (indCmpBytes NEED_PATCH_8)).emit (indCmpBytes NEED_PATCH_8)).emit
      (indCmpBytes NEED_PATCH_8)).emit exit = s.emit ([0x51] ++ indCmpBytes NEED_PATCH_8 ++
        indCmpBytes NEED_PATCH_8 ++ indCmpBytes NEED_PATCH_8 ++ exit) := by
    rw [State.emit_emit, State.emit_emit, State.emit_emit, State.emit_emit]
    · simp
    all_goals simp
    all_goals omega
  rw [hbody, indOptHits_eq s exit _ hlen (fun i => BitVec.ofNat 8 (24 + exit.length - 2 * i)) fun _ => rfl]
  rfl

theorem length_indOptBytes (tbRetAddr p tb indType : Word) : (indOptBytes L tbRetAddr p tb indType).length =
    67 + (exitTbBytes L tbRetAddr (p + 37) tb indType).length := by
  simp [indOptBytes]
  omega

/-! ## Indirect branches -/

/-- The pushes of an indirect call with the return address `pc`. -/
def callPushBytes (ds : Decode) (pc : Word) : List Byte :=
  if State.destBasedOnEsp ds then pushRmBytes ds ++ [0xff, 0x34, 0x24] ++ ([0xc7, 0x44, 0x24, 4] ++ le32 pc)
  else ([0x68] ++ le32 pc) ++ pushRmBytes ds

theorem length_callPushBytes (ds : Decode) (pc : Word) : (callPushBytes ds pc).length ≤ 19 := by
  have := length_pushRmBytes ds
  simp only [callPushBytes]
  split <;> simp <;> omega

theorem emitCallPushes_eq (s : State) (ds : Decode) : s.emitCallPushes ds =
    if has ds.flags DSFL_GROUP4_PREFIX then .error (.abort "") else .ok (s.emit (callPushBytes ds s.pcPtr)) := by
  have hlen := length_pushRmBytes ds
  simp only [State.emitCallPushes, emitPushRm_eq, callPushBytes]
  split <;> split
  · rfl
  · rw [ok_bind, State.pcPtr_emit, State.pcPtr_emit, State.emit_emit, State.emit_emit]
    · simp [pure, Except.pure]
    all_goals simp
    all_goals omega
  · rfl
  · rw [State.emit_emit]
    simp
    omega

def callRcHead : List Byte :=
  [0x51] ++ [0x8b, 0x4c, 0x24, 4] ++ ([0x81, 0xe1] ++ le32 RET_HASH_MASK) ++
    ([0xc7, 0x04, 0x8d] ++ le32 L.retHashTable)

/-- The entry of the return point `rc` into the return cache. -/
def callRcBytes (rc : Word) : List Byte := callRcHead L ++ le32 rc ++ [0x59]

@[simp] theorem length_callRcHead : (callRcHead L).length = 18 := rfl

@[simp] theorem length_callRcBytes (rc : Word) : (callRcBytes L rc).length = 23 := rfl

/-- Where the return point of an indirect call emitted at `p` is. -/
def callRcAt (tbRetAddr p tb pc : Word) (ds : Decode) : Word :=
  let q := p + BitVec.ofNat 32 ((callPushBytes ds pc).length + 23)
  q + BitVec.ofNat 32 (indOptBytes L tbRetAddr q tb IND_TYPE_CALL).length

def callNearMemBytes (tbRetAddr sieveStub p tb pc : Word) (ds : Decode) : List Byte :=
  let q := p + BitVec.ofNat 32 ((callPushBytes ds pc).length + 23)
  let rc := callRcAt L tbRetAddr p tb pc ds
  callPushBytes ds pc ++ callRcBytes L rc ++ indOptBytes L tbRetAddr q tb IND_TYPE_CALL ++ rcCmpBytes sieveStub rc pc

/-- What the emission at `p` leaves in the block. -/
def callNearMemFields (tbRetAddr p tb pc : Word) (ds : Decode) (b : TranslationBlock) : TranslationBlock :=
  let q := p + BitVec.ofNat 32 ((callPushBytes ds pc).length + 23)
  indOptFields q (exitTbBytes L tbRetAddr (q + 37) tb IND_TYPE_CALL).length (b.setType IND_TYPE_CALL)

theorem emitCallNearMem_eq (s : State) (ds : Decode) : s.emitCallNearMem L ds =
    if has ds.flags DSFL_GROUP4_PREFIX then .error (.abort "")
    else State.transNext L (((s.emit (callNearMemBytes L s.tbRetAddr s.sieveStub s.codePtr (L.tbPtr s.curTb) s.pcPtr
      ds)).updTb s.curTb (callNearMemFields L s.tbRetAddr s.codePtr (L.tbPtr s.curTb) s.pcPtr ds)).logRcCmp
        (callRcAt L s.tbRetAddr s.codePtr (L.tbPtr s.curTb) s.pcPtr ds)) ds := by
  have hlen := length_callPushBytes ds s.pcPtr
  simp only [State.emitCallNearMem, emitCallPushes_eq]
  split
  · rfl
  · rw [ok_bind]
    simp only [State.emit_updTb, State.pcPtr_updTb]
    generalize hpush : callPushBytes ds s.pcPtr = push at hlen
    have hhead : ((((((s.emit push).emit [0x51]).emit [0x8b, 0x4c, 0x24, 4]).emit
        ([0x81, 0xe1] ++ le32 RET_HASH_MASK)).emit ([0xc7, 0x04, 0x8d] ++ le32 L.retHashTable)).emit
          (le32 NEED_PATCH_32)).emit [0x59] = s.emit (push ++ callRcBytes L NEED_PATCH_32) := by
      rw [State.emit_emit, State.emit_emit, State.emit_emit, State.emit_emit, State.emit_emit, State.emit_emit]
      · simp [callRcBytes, callRcHead]
      all_goals simp
      all_goals omega
    have hfield : (((((s.emit push).emit [0x51]).emit [0x8b, 0x4c, 0x24, 4]).emit
        ([0x81, 0xe1] ++ le32 RET_HASH_MASK)).emit ([0xc7, 0x04, 0x8d] ++ le32 L.retHashTable)).codePtr =
          s.codePtr + BitVec.ofNat 32 (push.length + 18) := by
      simp [BitVec.add_assoc, BitVec.ofNat_add]
    have hq : (s.emit (push ++ callRcBytes L NEED_PATCH_32)).codePtr =
        s.codePtr + BitVec.ofNat 32 (push.length + 23) := by simp
    rw [hhead, State.codePtr_updTb, hfield, cemitIndOpt_eq, ok_bind, cemitRcCmp_eq]
    simp only [State.emit_updTb, State.st32_updTb, State.curTb_updTb, State.codePtr_updTb, State.pcPtr_updTb,
      State.sieveStub_updTb, State.tbRetAddr_updTb, State.updTb_updTb, State.curTb_emit, State.pcPtr_emit,
      State.sieveStub_emit, State.tbRetAddr_emit, hq]
    have hind := length_indOptBytes L s.tbRetAddr (s.codePtr + BitVec.ofNat 32 (push.length + 23)) (L.tbPtr s.curTb)
      IND_TYPE_CALL
    have hexit := length_exitTbBytes_le L s.tbRetAddr (s.codePtr + BitVec.ofNat 32 (push.length + 23) + 37)
      (L.tbPtr s.curTb) IND_TYPE_CALL
    have hrc : ((s.emit (push ++ callRcBytes L NEED_PATCH_32)).emit (indOptBytes L s.tbRetAddr
        (s.codePtr + BitVec.ofNat 32 (push.length + 23)) (L.tbPtr s.curTb) IND_TYPE_CALL)).codePtr =
          callRcAt L s.tbRetAddr s.codePtr (L.tbPtr s.curTb) s.pcPtr ds := by
      rw [State.codePtr_emit, hq, callRcAt, hpush]
    rw [hrc, callNearMemBytes, hpush]
    generalize callRcAt L s.tbRetAddr s.codePtr (L.tbPtr s.curTb) s.pcPtr ds = rc
    have hfields : callNearMemFields L s.tbRetAddr s.codePtr (L.tbPtr s.curTb) s.pcPtr ds =
        (indOptFields (s.codePtr + BitVec.ofNat 32 (push.length + 23)) (exitTbBytes L s.tbRetAddr
          (s.codePtr + BitVec.ofNat 32 (push.length + 23) + 37) (L.tbPtr s.curTb) IND_TYPE_CALL).length ∘
            fun x => x.setType IND_TYPE_CALL) := by
      funext b
      rw [callNearMemFields, hpush]
      rfl
    rw [hfields]
    generalize indOptBytes L s.tbRetAddr (s.codePtr + BitVec.ofNat 32 (push.length + 23)) (L.tbPtr s.curTb)
      IND_TYPE_CALL = ind at hind ⊢
    have hlast : (((s.emit (push ++ callRcBytes L NEED_PATCH_32)).emit ind).st32
        (s.codePtr + BitVec.ofNat 32 (push.length + 18)) rc).emit (rcCmpBytes s.sieveStub rc s.pcPtr) =
          s.emit (push ++ callRcBytes L rc ++ ind ++ rcCmpBytes s.sieveStub rc s.pcPtr) := by
      have hsplit : ∀ w, push ++ callRcBytes L w ++ ind = (push ++ callRcHead L) ++ (le32 w ++ ([0x59] ++ ind)) :=
        fun w => by simp [callRcBytes]
      have hat : push.length + 18 = (push ++ callRcHead L).length := by simp
      rw [State.emit_emit, hsplit, hat, State.emit_st32, ← hsplit, State.emit_emit]
      all_goals simp
      all_goals omega
    rw [hlast]

theorem length_callNearMemBytes_le (r t p b pc : Word) (ds : Decode) :
    (callNearMemBytes L r t p b pc ds).length ≤ 200 := by
  have hpush := length_callPushBytes ds pc
  simp only [callNearMemBytes, List.length_append, length_callRcBytes, length_indOptBytes, length_rcCmpBytes]
  have hexit := length_exitTbBytes_le L r (p + BitVec.ofNat 32 ((callPushBytes ds pc).length + 23) + 37) b IND_TYPE_CALL
  omega

def jmpNearMemBytes (tbRetAddr p tb funcAddr : Word) (ds : Decode) : List Byte :=
  movAbs L.indDest funcAddr ++ pushRmBytes ds ++
    indOptBytes L tbRetAddr (p + BitVec.ofNat 32 (10 + (pushRmBytes ds).length)) tb IND_TYPE_JMP

def jmpNearMemFields (tbRetAddr p tb : Word) (ds : Decode) (b : TranslationBlock) : TranslationBlock :=
  let q := p + BitVec.ofNat 32 (10 + (pushRmBytes ds).length)
  indOptFields q (exitTbBytes L tbRetAddr (q + 37) tb IND_TYPE_JMP).length (b.setType IND_TYPE_JMP)

theorem emitJmpNearMem_eq {s : State} {ds : Decode} {b : TranslationBlock} (hb : s.tbs[s.curTb]? = some b) :
    s.emitJmpNearMem L ds =
      if has ds.flags DSFL_GROUP4_PREFIX then .error (.abort "")
      else .ok (false, (s.emit (jmpNearMemBytes L s.tbRetAddr s.codePtr (L.tbPtr s.curTb) b.funcAddr ds)).updTb s.curTb
        (jmpNearMemFields L s.tbRetAddr s.codePtr (L.tbPtr s.curTb) ds)) := by
  have hcur : (s.updTb s.curTb (·.setType IND_TYPE_JMP)).tb s.curTb = .ok (b.setType IND_TYPE_JMP) := by
    simp [State.tb, State.updTb, hb]
  have hlen := length_pushRmBytes ds
  simp only [State.emitJmpNearMem, State.curTb_updTb, hcur, ok_bind, emitPushRm_eq]
  split
  · rfl
  · have hf : (b.setType IND_TYPE_JMP).funcAddr = b.funcAddr := rfl
    rw [ok_bind, hf, State.emit_updTb, State.emit_updTb, cemitIndOpt_eq, ok_bind, State.emit_emit (by simp; omega)]
    simp only [State.emit_updTb, State.curTb_updTb, State.codePtr_updTb, State.tbRetAddr_updTb, State.updTb_updTb,
      State.curTb_emit, State.tbRetAddr_emit]
    have hq : (s.emit ([0xc7, 0x05] ++ le32 L.indDest ++ le32 b.funcAddr ++ pushRmBytes ds)).codePtr =
        s.codePtr + BitVec.ofNat 32 (10 + (pushRmBytes ds).length) := by
      rw [State.codePtr_emit]
      congr 2
      simp
      omega
    have hind := length_indOptBytes L s.tbRetAddr (s.codePtr + BitVec.ofNat 32 (10 + (pushRmBytes ds).length))
      (L.tbPtr s.curTb) IND_TYPE_JMP
    have hexit := length_exitTbBytes_le L s.tbRetAddr
      (s.codePtr + BitVec.ofNat 32 (10 + (pushRmBytes ds).length) + 37) (L.tbPtr s.curTb) IND_TYPE_JMP
    rw [hq, State.emit_emit (by simp; omega)]
    rfl

/-! ## Direct branches -/

/-- `note_patch`, once its checks have passed. -/
def State.noted (s : State) (e : PatchEntry) : State :=
  (s.addPatch e).updTb e.tb fun b => b.setPatchNum (b.patchNum + 1)

theorem State.emit_noted (s : State) (e : PatchEntry) (bs : List Byte) :
    (s.noted e).emit bs = (s.emit bs).noted e := rfl
theorem State.st32_noted (s : State) (e : PatchEntry) (a w : Word) : (s.noted e).st32 a w = (s.st32 a w).noted e :=
  rfl
theorem State.st8_noted (s : State) (e : PatchEntry) (a : Word) (b : Byte) :
    (s.noted e).st8 a b = (s.st8 a b).noted e := rfl
@[simp] theorem State.codePtr_noted (s : State) (e : PatchEntry) : (s.noted e).codePtr = s.codePtr := by cases s; rfl
@[simp] theorem State.pcPtr_noted (s : State) (e : PatchEntry) : (s.noted e).pcPtr = s.pcPtr := by cases s; rfl
@[simp] theorem State.sieveStub_noted (s : State) (e : PatchEntry) : (s.noted e).sieveStub = s.sieveStub := by
  cases s; rfl

/-- The checks of `note_patch` pass. -/
structure State.CanNote (s : State) : Prop where
  patches : s.patchArray.length < PATCH_ARRAY_SIZE
  patchNum : s.mem.ld32 L.patchNum < PATCH_MAX

theorem notePatch_iff {s s' : State} {loc dest : Word} {tb : Nat} {f tag : Word} :
    s.notePatch L loc dest tb f tag = .ok s' ↔ s.CanNote L ∧ s' = s.noted ⟨loc, dest, tb, f, tag⟩ := by
  have hpass : ∀ (c : Prop) [Decidable c] (msg : String), abortIf c msg = .ok () ↔ ¬ c := fun c _ msg => by
    by_cases h : c <;> simp [abortIf, h]
  simp only [State.notePatch, bind_eq_ok, hpass]
  constructor
  · rintro ⟨_, hlen, _, hnum, hs⟩
    exact ⟨⟨Nat.lt_of_not_le hlen, BitVec.not_le.mp hnum⟩, (Except.ok.inj hs).symm⟩
  · rintro ⟨⟨hlen, hnum⟩, rfl⟩
    exact ⟨(), Nat.not_le.mpr hlen, (), BitVec.not_le.mpr hnum, rfl⟩

theorem notePatch_spec (s : State) (loc dest : Word) (tb : Nat) (f tag : Word) :
    (s.notePatch L loc dest tb f tag).Ensures fun s' => s' = s.noted ⟨loc, dest, tb, f, tag⟩ :=
  fun _ h => ((notePatch_iff L).mp h).2

/-- The direct call at `p`. -/
def callDispBytes (sieveStub p slot pc : Word) : List Byte :=
  ([0x68] ++ le32 pc) ++ ([0xc7, 0x05] ++ le32 slot) ++ le32 (p + 20) ++ ([0xe9] ++ le32 0) ++
    rcCmpBytes sieveStub (p + 20) pc

@[simp] theorem length_callDispBytes (t p slot pc : Word) : (callDispBytes t p slot pc).length = 43 := rfl

/-- What the direct call has emitted at its `note_patch`. -/
def callDispFirst (slot pc : Word) : List Byte :=
  ([0x68] ++ le32 pc) ++ ([0xc7, 0x05] ++ le32 slot) ++ (le32 NEED_PATCH_32 ++ ([0xe9] ++ le32 0))

theorem emitCallDisp_iff {s : State} {ds : Decode} {r : Bool × State} : s.emitCallDisp L ds = .ok r ↔
    (s.emit (callDispFirst (RET_HASH_FUNC L.retHashTable (s.pcPtr + ds.immediate)) s.pcPtr)).CanNote L ∧
    State.transNext L (((s.emit (callDispBytes s.sieveStub s.codePtr
      (RET_HASH_FUNC L.retHashTable (s.pcPtr + ds.immediate)) s.pcPtr)).noted
        ⟨s.codePtr + 16, s.pcPtr + ds.immediate, s.curTb, s.pcPtr + ds.immediate, NORMAL_TB_TAG⟩).logRcCmp
          (s.codePtr + 20)) ds = .ok r := by
  simp only [State.emitCallDisp]
  by_cases h32 : has ds.opstate OPSTATE_DATA32
  case neg => simp [h32, State.transNext]
  rw [if_neg (by simp [h32]), bind_eq_ok]
  generalize hslot : RET_HASH_FUNC L.retHashTable (s.pcPtr + ds.immediate) = slot
  let head : List Byte := ([0x68] ++ le32 s.pcPtr) ++ ([0xc7, 0x05] ++ le32 slot)
  have hhead : (s.emit ([0x68] ++ le32 s.pcPtr)).emit ([0xc7, 0x05] ++ le32 slot) = s.emit head := by
    rw [State.emit_emit (by simp)]
  have hptr : (s.emit head).codePtr = s.codePtr + 11 := by simp [head]
  have hjmp : ((s.emit head).emit (le32 NEED_PATCH_32)).emit ([0xe9] ++ le32 0) = s.emit (callDispFirst slot s.pcPtr) := by
    rw [State.emit_emit (by simp), State.emit_emit (by simp [head])]
    simp [head, callDispFirst]
  have hafter : (s.emit (callDispFirst slot s.pcPtr)).codePtr = s.codePtr + 20 := by
    simp [callDispFirst]
  have hpatch : (s.emit (callDispFirst slot s.pcPtr)).st32 (s.codePtr + 11) (s.codePtr + 20) =
      s.emit (head ++ (le32 (s.codePtr + 20) ++ ([0xe9] ++ le32 0))) := State.emit_st32 (by simp)
  have hloc : s.codePtr + 20 - 4 = s.codePtr + 16 := by bv_omega
  -- the comparison behind the jump, its address put into the return cache
  have hnext : ∀ e, ((s.emit (callDispFirst slot s.pcPtr)).noted e).cemitRcCmp (s.codePtr + 11) =
      ((s.emit (callDispBytes s.sieveStub s.codePtr slot s.pcPtr)).noted e).logRcCmp (s.codePtr + 20) := fun e => by
    rw [cemitRcCmp_eq, State.codePtr_noted, hafter, State.st32_noted, hpatch, State.emit_noted,
      State.emit_emit (by simp [head])]
    rfl
  rw [hhead, hptr, hjmp, hafter, hloc]
  simp only [notePatch_iff]
  constructor
  · rintro ⟨s₁, ⟨hn, rfl⟩, hr⟩
    rw [hnext] at hr
    exact ⟨hn, hr⟩
  · rintro ⟨hn, hr⟩
    refine ⟨_, ⟨hn, rfl⟩, ?_⟩
    rw [hnext]
    exact hr

/-- The opcode byte that has the condition of a conditional jump. -/
def condOf (img : Mem) (ds : Decode) : Byte := if img ds.instr = 0x0f then img (ds.instr + 1) else img ds.instr

def jcondBytes (img : Mem) (ds : Decode) : List Byte :=
  (if has ds.flags DSFL_GROUP2_PREFIX then [ds.group2Prefix] else []) ++
    ([0x0f, (condOf img ds &&& 0x0f) ||| 0x80] ++ le32 NEED_PATCH_32)

theorem emitJcond_iff {img : Mem} {s : State} {ds : Decode} {b : TranslationBlock} {r : Bool × State}
    (hb : s.tbs[s.curTb]? = some b) : s.emitJcond L img ds = .ok r ↔
      (s.emit (jcondBytes img ds)).CanNote L ∧
      State.transNext L ((s.emit (jcondBytes img ds)).noted
        ⟨(s.emit (jcondBytes img ds)).codePtr - 4, s.jmpTargetOf ds, s.curTb, b.funcAddr, NORMAL_TB_TAG⟩) ds = .ok r := by
  have hemit : (if has ds.flags DSFL_GROUP2_PREFIX then s.emit [ds.group2Prefix] else s).emit
      ([0x0f, (condOf img ds &&& 0x0f) ||| 0x80] ++ le32 NEED_PATCH_32) = s.emit (jcondBytes img ds) := by
    rw [jcondBytes]
    split
    · rw [State.emit_emit (by simp)]
    · rfl
  have htb : (s.emit (jcondBytes img ds)).tb s.curTb = .ok b := by
    simp [State.tb, hb]
  have hcur : (s.emit (jcondBytes img ds)).curTb = s.curTb := State.curTb_emit ..
  rw [condOf] at hemit
  simp only [State.emitJcond, hemit, hcur, htb, ok_bind, bind_eq_ok, notePatch_iff]
  constructor
  · rintro ⟨s₁, ⟨hn, rfl⟩, hr⟩
    exact ⟨hn, hr⟩
  · rintro ⟨hn, hr⟩
    exact ⟨_, ⟨hn, rfl⟩, hr⟩

def otherJcondBytes (ds : Decode) : List Byte :=
  (if has ds.flags DSFL_GROUP2_PREFIX then [ds.group2Prefix] else []) ++
    ([BitVec.ofNat 8 ds.pEntry.index, 0x02, 0xeb] ++ ([0x05] ++ ([0xe9] ++ le32 0)))

/-- The same at its `note_patch`, the distance of the short jump still open. -/
def otherJcondFirst (ds : Decode) : List Byte :=
  (if has ds.flags DSFL_GROUP2_PREFIX then [ds.group2Prefix] else []) ++
    [BitVec.ofNat 8 ds.pEntry.index, 0x02, 0xeb] ++ ([NEED_PATCH_8] ++ ([0xe9] ++ le32 0))

theorem emitOtherJcond_iff {s : State} {ds : Decode} {b : TranslationBlock} {r : Bool × State}
    (hb : s.tbs[s.curTb]? = some b) : s.emitOtherJcond L ds = .ok r ↔
      (s.emit (otherJcondFirst ds)).CanNote L ∧
      State.transNext L ((s.emit (otherJcondBytes ds)).noted
        ⟨(s.emit (otherJcondBytes ds)).codePtr - 4, s.pcPtr + ds.immediate, s.curTb, b.funcAddr, NORMAL_TB_TAG⟩) ds =
          .ok r := by
  generalize hseg : (if has ds.flags DSFL_GROUP2_PREFIX then [ds.group2Prefix] else []) = seg
  have hfirst : otherJcondFirst ds = seg ++ [BitVec.ofNat 8 ds.pEntry.index, 0x02, 0xeb] ++
      ([NEED_PATCH_8] ++ ([0xe9] ++ le32 0)) := by rw [otherJcondFirst, hseg]
  have hsegs : (if has ds.flags DSFL_GROUP2_PREFIX then s.emit [ds.group2Prefix] else s) = s.emit seg := by
    subst hseg
    split
    · rfl
    · cases s
      simp [State.emit]
  have hlen : seg.length ≤ 1 := by
    subst hseg
    split <;> simp
  have hhead : (s.emit seg).emit [BitVec.ofNat 8 ds.pEntry.index, 0x02, 0xeb] =
      s.emit (seg ++ [BitVec.ofNat 8 ds.pEntry.index, 0x02, 0xeb]) := State.emit_emit (by simp; omega)
  have hptr : (s.emit (seg ++ [BitVec.ofNat 8 ds.pEntry.index, 0x02, 0xeb])).codePtr =
      s.codePtr + BitVec.ofNat 32 (seg ++ [BitVec.ofNat 8 ds.pEntry.index, 0x02, 0xeb]).length :=
    State.codePtr_emit ..
  have hjmp : ((s.emit (seg ++ [BitVec.ofNat 8 ds.pEntry.index, 0x02, 0xeb])).emit [NEED_PATCH_8]).emit
      ([0xe9] ++ le32 0) = s.emit (otherJcondFirst ds) := by
    rw [hfirst, State.emit_emit, State.emit_emit]
    all_goals simp
    all_goals omega
  have hpatch : (s.emit (otherJcondFirst ds)).st8 (s.codePtr + BitVec.ofNat 32
      (seg ++ [BitVec.ofNat 8 ds.pEntry.index, 0x02, 0xeb]).length) 5 = s.emit (otherJcondBytes ds) := by
    rw [hfirst, State.emit_st8 (by simp; omega), otherJcondBytes, hseg]
    simp
  have hsame : (s.emit (otherJcondFirst ds)).codePtr = (s.emit (otherJcondBytes ds)).codePtr := by
    rw [State.codePtr_emit, State.codePtr_emit, otherJcondBytes, hfirst, hseg]
    simp
  have hdisp : ((s.emit (otherJcondBytes ds)).codePtr - (s.codePtr + BitVec.ofNat 32
      (seg ++ [BitVec.ofNat 8 ds.pEntry.index, 0x02, 0xeb]).length) - 1).setWidth 8 = (5 : Byte) := by
    have : (s.emit (otherJcondBytes ds)).codePtr - (s.codePtr + BitVec.ofNat 32
        (seg ++ [BitVec.ofNat 8 ds.pEntry.index, 0x02, 0xeb]).length) - 1 = 5 := by
      rw [State.codePtr_emit, otherJcondBytes, hseg]
      simp only [List.length_append, List.length_cons, List.length_nil, length_le32]
      bv_omega
    rw [this]
    rfl
  have htb : (s.emit (otherJcondFirst ds)).tb s.curTb = .ok b := by
    simp [State.tb, hb]
  simp only [State.emitOtherJcond, hsegs, hhead, hjmp]
  rw [State.curTb_emit, State.pcPtr_emit, htb, ok_bind, hsame, hptr, bind_eq_ok]
  simp only [notePatch_iff]
  constructor
  · rintro ⟨s₁, ⟨hn, rfl⟩, hr⟩
    rw [State.codePtr_noted, hsame, hdisp, State.st8_noted, hpatch] at hr
    exact ⟨hn, hr⟩
  · rintro ⟨hn, hr⟩
    refine ⟨_, ⟨hn, rfl⟩, ?_⟩
    rw [State.codePtr_noted, hsame, hdisp, State.st8_noted, hpatch]
    exact hr

/-- A jump into another function: the return-cache slot of the function left is copied. -/
def rcCopyBytes (fromAddr toAddr : Word) : List Byte :=
  ([0xff, 0x35] ++ le32 (RET_HASH_FUNC L.retHashTable fromAddr)) ++
    ([0x8f, 0x05] ++ le32 (RET_HASH_FUNC L.retHashTable toAddr))

@[simp] theorem length_rcCopyBytes (a b : Word) : (rcCopyBytes L a b).length = 12 := rfl

theorem cemitRcCopy_eq (s : State) (a b : Word) : s.cemitRcCopy L a b = s.emit (rcCopyBytes L a b) :=
  State.emit_emit (by simp)

theorem emitJmp_spec {img : Mem} {s : State} {ds : Decode} {b : TranslationBlock} (hb : s.tbs[s.curTb]? = some b) :
    (s.emitJmp L img ds).Ensures fun (cont, s') => cont = false ∧
      ∃ s₁, s.emitJmpEntrance L img (s.jmpTargetOf ds) b.funcAddr = .ok s₁ ∧
        s' = (s₁.emit ([0xe9] ++ le32 NEED_PATCH_32)).noted
          ⟨s₁.codePtr + 1, s.jmpTargetOf ds, s₁.curTb, b.funcAddr, NORMAL_TB_TAG⟩ := by
  have htb : s.tb s.curTb = .ok b := by simp [State.tb, hb]
  simp only [State.emitJmp, htb, ok_bind, ensures_bind, ensures_pure]
  intro s₁ h₁
  refine (notePatch_spec L _ _ _ _ _ _).mono fun s₂ h₂ => ⟨trivial, s₁, h₁, ?_⟩
  have hloc : (s₁.emit ([0xe9] ++ le32 NEED_PATCH_32)).codePtr - 4 = s₁.codePtr + 1 := by
    rw [State.codePtr_emit]
    simp only [List.length_append, List.length_cons, List.length_nil, length_le32]
    bv_omega
  rw [h₂, hloc, State.curTb_emit]

/-! ## Returns and system calls -/

/-- `jmp *(ret_cache_entry)` -/
def jmpRetCacheBytes (funcAddr : Word) : List Byte := [0xff, 0x25] ++ le32 (RET_HASH_FUNC L.retHashTable funcAddr)

@[simp] theorem length_jmpRetCacheBytes (a : Word) : (jmpRetCacheBytes L a).length = 6 := rfl

theorem emitRet_eq {s : State} {b : TranslationBlock} (hb : s.tbs[s.curTb]? = some b) :
    s.emitRet L = .ok (false, s.emit (jmpRetCacheBytes L b.funcAddr)) := by
  have htb : s.tb s.curTb = .ok b := by simp [State.tb, hb]
  rw [State.emitRet, State.cemitJmpRetCache, htb]
  rfl

def retIwBytes (imm16 funcAddr : Word) : List Byte :=
  ([0x8f, 0x84, 0x24] ++ le32 (imm16 - 4)) ++
    (if imm16 - 4 ≠ 0 then [0x8d, 0xa4, 0x24] ++ le32 (imm16 - 4) else []) ++ jmpRetCacheBytes L funcAddr

theorem emitRetIw_eq {s : State} {ds : Decode} {b : TranslationBlock} (hb : s.tbs[s.curTb]? = some b) :
    s.emitRetIw L ds = .ok (false, s.emit (retIwBytes L ds.imm16 b.funcAddr)) := by
  have htb : ∀ bs, (s.emit bs).tb s.curTb = .ok b := fun bs => by simp [State.tb, hb]
  simp only [State.emitRetIw, State.cemitJmpRetCache, retIwBytes]
  by_cases h : ds.imm16 - 4 ≠ 0
  · rw [if_pos h, if_pos h, State.emit_emit (by simp), State.curTb_emit, htb, ok_bind, State.emit_emit (by simp)]
    rfl
  · rw [if_neg h, if_neg h, State.curTb_emit, htb, ok_bind, State.emit_emit (by simp), List.append_nil]
    rfl

/-- What precedes `int $0x80`: a test for `exit_group` and the call of `exit_stub`. -/
def exitTestBytes (p : Word) : List Byte :=
  [0x9c] ++ ([0x3d] ++ le32 nrExitGroup) ++ [0x75] ++ ([0x0e] ++ (([0x68] ++ le32 L.env) ++
    ([0xe8] ++ le32 (L.exitStub - (p + 14) - 4)) ++ [0x8d, 0x64, 0x24, 4])) ++ [0x9d]

@[simp] theorem length_exitTestBytes (p : Word) : (exitTestBytes L p).length = 23 := rfl

def insnBytes (img : Mem) (s : State) : List Byte := img.read (s.pcPtr - s.insnLen) s.insnLen.toNat

theorem emitNormal_eq (img : Mem) (s : State) : s.emitNormal img = .ok (true, s.emit (insnBytes img s)) := rfl

theorem emitInt_eq (img : Mem) (s : State) (ds : Decode) : s.emitInt L img ds =
    .ok (true, (s.emit (if img (ds.instr + 1) = 0x80 then exitTestBytes L s.codePtr else [])).emit
      (insnBytes img s)) := by
  have hcopy : ∀ t : State, t.pcPtr = s.pcPtr → t.insnLen = s.insnLen → t.copyInsn img = t.emit (insnBytes img s) :=
    fun t hp hl => by rw [State.copyInsn, insnBytes, hp, hl]
  rw [State.emitInt]
  split
  · let head : List Byte := [0x9c] ++ ([0x3d] ++ le32 nrExitGroup) ++ [0x75]
    let tail : List Byte := ([0x68] ++ le32 L.env) ++ ([0xe8] ++ le32 (L.exitStub - (s.codePtr + 14) - 4)) ++
      [0x8d, 0x64, 0x24, 4]
    have hhead : ((s.emit [0x9c]).emit ([0x3d] ++ le32 nrExitGroup)).emit [0x75] = s.emit head := by
      rw [State.emit_emit (by simp), State.emit_emit (by simp)]
      simp [head]
    have hcall : (((s.emit head).emit [NEED_PATCH_8]).emit ([0x68] ++ le32 L.env)).emit [0xe8] =
        s.emit (head ++ ([NEED_PATCH_8] ++ ([0x68] ++ le32 L.env ++ [0xe8]))) := by
      rw [State.emit_emit (by simp), State.emit_emit (by simp), State.emit_emit (by simp [head])]
    have hrel : (s.emit (head ++ ([NEED_PATCH_8] ++ ([0x68] ++ le32 L.env ++ [0xe8])))).codePtr = s.codePtr + 14 := by
      simp [head]
    have hall : ((s.emit (head ++ ([NEED_PATCH_8] ++ ([0x68] ++ le32 L.env ++ [0xe8])))).emit
        (le32 (L.exitStub - (s.codePtr + 14) - 4))).emit [0x8d, 0x64, 0x24, 4] =
          s.emit (head ++ ([NEED_PATCH_8] ++ tail)) := by
      rw [State.emit_emit (by simp), State.emit_emit (by simp [head])]
      simp [tail]
    have hafter : (s.emit (head ++ ([NEED_PATCH_8] ++ tail))).codePtr = s.codePtr + 22 := by simp [head, tail]
    have hptr : (s.emit head).codePtr = s.codePtr + 7 := by simp [head]
    have hdisp : (s.codePtr + 22 - (s.codePtr + 7) - 1).setWidth 8 = (0x0e : Byte) := by
      rw [show s.codePtr + 22 - (s.codePtr + 7) - 1 = (14 : Word) by bv_omega]
      rfl
    have hpatch : (s.emit (head ++ ([NEED_PATCH_8] ++ tail))).st8 (s.codePtr + 7) 0x0e =
        s.emit (head ++ ([0x0e] ++ tail)) := State.emit_st8 (by simp [head, tail])
    have hlast : (s.emit (head ++ ([0x0e] ++ tail))).emit [0x9d] = s.emit (exitTestBytes L s.codePtr) := by
      rw [State.emit_emit (by simp [head, tail]), exitTestBytes]
    simp only [hhead, hcall, hrel, hall, hafter, hptr, hdisp, hpatch, hlast]
    rw [hcopy _ (State.pcPtr_emit ..) (by cases s; rfl)]
    rfl
  · have hnil : s.emit [] = s := by
      cases s
      simp [State.emit]
    rw [hcopy s rfl rfl, hnil]
    rfl

end

end Unitrans
