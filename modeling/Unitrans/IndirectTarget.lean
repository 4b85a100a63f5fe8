/-
The operand of an indirect call or jump. The emitted code pushes it by a `push`
of the same address form (`encodes_pushRm`), for a call after it has pushed the
return address, unless the operand is based on `esp`. So a call reads its
operand from memory the return address is already in (`captures_iff`).
-/
import Unitrans.InsnLength
import Unitrans.CallerFacts
import Unitrans.HostContext
import Unitrans.Superblock

namespace Unitrans

open X86 Except FirstArrival

/-! ## The guest's instruction -/

/-- `call src` (`ff /2`) or `jmp src` (`ff /4`) is at `pc`, behind prefixes that
change neither size; `next` is the address after it. -/
structure NearIndirect (img : Mem) (pc : Word) (ps : List Byte) (call : Bool) (src : Operand) (next : Word) : Prop where
  prefixes : ∀ p ∈ ps, p ∈ legacyPrefixes
  opsize : 0x66 ∉ ps
  addrsize : 0x67 ∉ ps
  length : ps.length < 2 ^ 32
  placed : img.At pc ps
  opcode : img (pc + BitVec.ofNat 32 ps.length) = 0xff
  ext : (fields (img (pc + BitVec.ofNat 32 ps.length + 1))).2.1 = if call then 2 else 4
  src : src = (operand (segPrefix (group2Of ps)) (fetch img (pc + BitVec.ofNat 32 ps.length)) 1).1
  next : next = pc + BitVec.ofNat 32
    (ps.length + (operand (segPrefix (group2Of ps)) (fetch img (pc + BitVec.ofNat 32 ps.length)) 1).2)

/-! ## The operand replayed -/

theorem group2Of_append (ps : List Byte) (p : Byte) :
    group2Of (ps ++ [p]) = if p ∈ group2 then p else group2Of ps := by simp [group2Of]

theorem group2Of_cases (ps : List Byte) :
    has (flagsOf ps) DSFL_GROUP2_PREFIX = true ∧ group2Of ps ∈ group2 ∨
      has (flagsOf ps) DSFL_GROUP2_PREFIX = false ∧ group2Of ps = 0 := by
  induction ps using List.reverseRecOn with
  | nil => exact .inr ⟨rfl, rfl⟩
  | append_singleton ps p ih =>
    have hflag : flagOf p = DSFL_GROUP2_PREFIX ↔ p ∈ group2 := by decide +revert
    have hno : p ∉ group2 → has (flagOf p) DSFL_GROUP2_PREFIX = false := by decide +revert
    have hstep : has (flagsOf (ps ++ [p])) DSFL_GROUP2_PREFIX =
        (has (flagsOf ps) DSFL_GROUP2_PREFIX || has (flagOf p) DSFL_GROUP2_PREFIX) := by
      have hor : flagsOf (ps ++ [p]) = flagsOf ps ||| flagOf p := by simp [flagsOf]
      simp only [hor, has, Nat.and_or_distrib_right]
      grind
    rw [group2Of_append, hstep]
    by_cases hp : p ∈ group2
    · rw [if_pos hp, hflag.mpr hp]
      exact .inl ⟨by simp [has, DSFL_GROUP2_PREFIX], hp⟩
    · rw [if_neg hp, hno hp, Bool.or_false]
      exact ih

theorem decodeOp_push {seg : Option Seg} {g : Nat → Byte} {i : Nat} (h : g i = 0xff)
    (hr : (fields (g (i + 1))).2.1 = 6) :
    decodeOp seg g i = some (.push (operand seg g (i + 1)).1, (operand seg g (i + 1)).2) := by
  simp [decodeOp, h, hr]

/-- A `push` with the address form at `f 1`. -/
theorem encodes_pushOperand {seg : Option Seg} {pre tail : List Byte} {m : Byte} (f : Nat → Byte)
    (hpre : pre = [] ∧ seg = none ∨ ∃ p s, pre = [p] ∧ seg = some s ∧ segPrefix p = seg)
    (hm : (fields m).1 = (fields (f 1)).1) (hr : (fields m).2.2 = (fields (f 1)).2.2) (hreg : (fields m).2.1 = 6)
    (htail : tail = (List.range ((operand seg f 1).2 - 2)).map fun k => f (2 + k)) :
    Encodes (pre ++ [0xff, m] ++ tail) (.push (operand seg f 1).1) := by
  intro g
  have hlen : 2 ≤ (operand seg f 1).2 := by
    have : 1 ≤ addressLength true (f 1) (f (1 + 1)) := by
      rw [addressLength_eq]
      omega
    have := operand_length seg f 1
    omega
  have hpush : ∀ {i : Nat} {h : Nat → Byte}, h i = 0xff → h (i + 1) = m →
      (∀ k < (operand seg f 1).2 - 2, h (i + 1 + 1 + k) = f (1 + 1 + k)) →
      decodeOp seg h i = some (.push (operand seg f 1).1, i + (operand seg f 1).2) := by
    intro i h h₀ h₁ h₂
    have hsame : (operand seg h (i + 1)).1 = (operand seg f 1).1 ∧
        (operand seg h (i + 1)).2 + 1 = (operand seg f 1).2 + (i + 1) :=
      operand_congr (h₁ ▸ hm) (h₁ ▸ hr) fun k hk => h₂ k (by omega)
    rw [decodeOp_push h₀ (h₁ ▸ hreg), hsame.1]
    congr 2
    omega
  have hat : ∀ k < (operand seg f 1).2 - 2, tail[k]? = some (f (1 + 1 + k)) := fun k hk => by
    simp [htail, hk]
  have htl : tail.length = (operand seg f 1).2 - 2 := by simp [htail]
  rcases hpre with ⟨rfl, hs⟩ | ⟨p, s, rfl, hs, hp⟩
  · have hdec : decode (fun k => ([] ++ [0xff, m] ++ tail)[k]?.getD (g k)) =
        decodeOp seg (fun k => ([] ++ [0xff, m] ++ tail)[k]?.getD (g k)) 0 := by
      simp [decode, segPrefix, hs]
    rw [hdec, hpush (by simp) (by simp)]
    · simp [htl]
      omega
    · intro k hk
      have := hat k hk
      simp [show 0 + 1 + 1 + k = k + 2 by omega, this]
  · have hdec : decode (fun k => ([p] ++ [0xff, m] ++ tail)[k]?.getD (g k)) =
        decodeOp seg (fun k => ([p] ++ [0xff, m] ++ tail)[k]?.getD (g k)) 1 := by
      simp [decode, hp, hs]
    rw [hdec, hpush (by simp) (by simp)]
    · simp [htl]
      omega
    · intro k hk
      have := hat k hk
      simp [show 1 + 1 + 1 + k = k + 3 by omega, this]

theorem ofBits_esp (b : BitVec 3) : (Reg.ofBits b == Reg.esp) = (b == 4) := by decide +revert

/-- An address form names `esp` for its register or its base alone. -/
theorem operand_uses (seg : Option Seg) (f : Nat → Byte) (i : Nat) :
    (operand seg f i).1.uses .esp =
      if mod (f i) = 3 then rm (f i) == 4 else rm (f i) == 4 && rm (f (i + 1)) == 4 := by
  have hesp : ∀ b : BitVec 3, (some (Reg.ofBits b) == some Reg.esp) = (b == 4) := ofBits_esp
  have hidx : ∀ (b : BitVec 3) (n : Nat),
      (if b = 4 then none else some (Reg.ofBits b, n)).any (fun p => p.1 == Reg.esp) = false := by
    intro b n
    split
    · rfl
    · rename_i h
      exact (ofBits_esp b).trans (beq_false_of_ne h)
  show (operand seg f i).1.uses .esp = if (fields (f i)).1 = 3 then (fields (f i)).2.2 == 4 else
    (fields (f i)).2.2 == 4 && (fields (f (i + 1))).2.2 == 4
  simp only [operand]
  by_cases h3 : (fields (f i)).1 = 3
  · rw [if_pos h3, if_pos h3, Operand.uses, ofBits_esp]
  rw [if_neg h3, if_neg h3]
  by_cases h4 : (fields (f i)).2.2 = 4
  · rw [if_pos h4, h4]
    by_cases h5 : (fields (f i)).1 = 0 ∧ (fields (f (i + 1))).2.2 = 5
    · rw [if_pos h5, h5.2, Operand.uses, hidx]
      rfl
    · rw [if_neg h5, Operand.uses, hidx, hesp]
      simp
  · rw [if_neg h4, beq_false_of_ne h4]
    by_cases h5 : (fields (f i)).1 = 0 ∧ (fields (f i)).2.2 = 5
    · rw [if_pos h5]
      rfl
    · rw [if_neg h5, Operand.uses, hesp, beq_false_of_ne h4]
      rfl

/-- The bytes of the address form after ModRM, put together again from the fields the decoder leaves. -/
theorem operandTail_eq (f : Nat → Byte) (seg : Option Seg) :
    (if hasSib true (f 1) then [f 2] else []) ++
      (match dispSize true (f 1) (f 2) with
        | 1 => [(numAt f (2 + (hasSib true (f 1)).toNat) 1).setWidth 8]
        | 2 => le16 (numAt f (2 + (hasSib true (f 1)).toNat) 2)
        | 4 => le32 (numAt f (2 + (hasSib true (f 1)).toNat) 4)
        | _ => []) =
      (List.range ((operand seg f 1).2 - 2)).map fun k => f (2 + k) := by
  have hlen : (operand seg f 1).2 - 2 = (hasSib true (f 1)).toNat + dispSize true (f 1) (f 2) := by
    rw [operand_length, addressLength_eq, show 1 + 1 = 2 from rfl]
    omega
  have hsize : dispSize true (f 1) (f 2) = 0 ∨ dispSize true (f 1) (f 2) = 1 ∨ dispSize true (f 1) (f 2) = 4 := by
    simp only [dispSize, dispOf, if_true]
    grind
  have h4 : ∀ k, le32 (numAt f k 4) = [f k, f (k + 1), f (k + 2), f (k + 3)] := fun k => by
    simp [numAt, le32_word32]
  have h1 : ∀ k, (numAt f k 1).setWidth 8 = f k := fun k => by
    simp [numAt]
  rw [hlen]
  rcases hsize with h | h | h <;> cases hasSib true (f 1) <;> simp [h, h1, h4, List.range_succ]

/-- What the decoder and the emitters make of the instruction. -/
structure NearDecoded (call : Bool) (src : Operand) (next : Word) (ds : Decode) : Prop where
  emitfn : ds.emitfn = .fn (if call then .callNearMem else .jmpNearMem)
  decodeEip : ds.decodeEip = next
  based : call → State.destBasedOnEsp ds = src.uses .esp
  push : Encodes (pushRmBytes ds) (.push src)

/-- What is found at `ff /2` and `ff /4`. -/
def nearFound (call : Bool) (m : Byte) : Found where
  entry := ⟨if call then 2 else 4, .fn (if call then .callNearMem else .jmpNearMem), 11534337⟩
  attr := 11536385
  len := 2
  modrm := m
  last := m

theorem found_near {f : Nat → Byte} {call : Bool} (h : f 0 = 0xff) (hr : reg (f 1) = if call then 2 else 4) :
    found f = some (nearFound call (f 1)) := by
  have hff : TableId.nopbyte0.row 255 = ⟨0xff, .table .ngroup5, 2048⟩ := rfl
  have h2 : TableId.ngroup5.row 2 = ⟨2, .fn .callNearMem, 11534337⟩ := rfl
  have h4 : TableId.ngroup5.row 4 = ⟨4, .fn .jmpNearMem, 11534337⟩ := rfl
  simp only [found, foundAt, groupFound, h, hr]
  cases call <;> simp [hff, h2, h4, has, DF_TABLE, DF_FLOAT, DF_MODRM, DF_GROUP, nearFound]

theorem hasModrm_nearFound (call : Bool) (m : Byte) : (nearFound call m).hasModrm = true := by
  simp [Found.hasModrm, nearFound, has, DF_MODRM, DF_GROUP]

theorem immSize_nearFound (call : Bool) (m : Byte) (a32 : Bool) : immSize (nearFound call m).attr true a32 = 0 := by
  show immSize 11536385 true a32 = 0
  cases a32 <;> decide +kernel

theorem addr32_of_notMem {ps : List Byte} (h : 0x67 ∉ ps) : addr32 ps = true := by
  rw [addr32, List.count_eq_zero.mpr h]
  rfl

theorem data32_of_notMem {ps : List Byte} (h : 0x66 ∉ ps) : data32 ps = true := by
  rw [data32, List.count_eq_zero.mpr h]
  rfl

/-- The decoder finds it. -/
theorem NearIndirect.found {img : Mem} {pc : Word} {ps : List Byte} {call : Bool} {src : Operand} {next : Word}
    (hi : NearIndirect img pc ps call src next) {ds₀ ds : Decode} {ok : Bool}
    (hds : simpleDisasInsn img ds₀ pc = some (ds, ok)) :
    Decoded img ds₀ pc ps (fetch img (pc + BitVec.ofNat 32 ps.length))
      (nearFound call (fetch img (pc + BitVec.ofNat 32 ps.length) 1)) ds ok := by
  have h₀ : fetch img (pc + BitVec.ofNat 32 ps.length) 0 = 0xff := by
    simp only [fetch, BitVec.ofNat_eq_ofNat, BitVec.add_zero]
    exact hi.opcode
  have hno : ¬ isPrefix (img (pc + BitVec.ofNat 32 ps.length)) := by
    rw [hi.opcode]
    decide +kernel
  obtain ⟨r, ok', hr, hd⟩ := simpleDisasInsn_eq ds₀ (fun p hp => (isPrefix_iff_legacy p).mpr (hi.prefixes p hp))
    hi.placed hno hi.length (found_near h₀ hi.ext)
  obtain ⟨rfl, rfl⟩ := Prod.mk.inj (Option.some.inj (hr.symm.trans hds))
  exact hd

section Sizes

variable {ps : List Byte} {F : Found} (ha : 0x67 ∉ ps) (hm : F.hasModrm = true)
include ha hm

/-! The address form with 32-bit addresses. -/

theorem needSib_of_hasModrm : F.needSib ps = hasSib true F.m := by
  rw [Found.needSib, addr32_of_notMem ha, hm, Bool.true_and]

theorem dispAt_of_hasModrm : F.dispAt ps = F.len + (hasSib true F.m).toNat := by
  rw [Found.dispAt, needSib_of_hasModrm ha hm]

theorem dispLen_of_hasModrm (f : Nat → Byte) : F.dispLen ps f = dispSize true F.m (f F.len) := by
  rw [Found.dispLen, addr32_of_notMem ha, if_pos hm]

end Sizes

/-- The segment override in force, again a prefix. -/
def segBytes (ps : List Byte) : List Byte := if has (flagsOf ps) DSFL_GROUP2_PREFIX then [group2Of ps] else []

theorem segBytes_cases (ps : List Byte) : segBytes ps = [] ∧ segPrefix (group2Of ps) = none ∨
    ∃ p s, segBytes ps = [p] ∧ segPrefix (group2Of ps) = some s ∧ segPrefix p = segPrefix (group2Of ps) := by
  rw [segBytes]
  rcases group2Of_cases ps with ⟨hf, hg⟩ | ⟨hf, hg⟩
  · have hsome : ∃ s, segPrefix (group2Of ps) = some s := by
      have hall : ∀ p ∈ group2, (segPrefix p).isSome := by decide
      exact Option.isSome_iff_exists.mp (hall _ hg)
    obtain ⟨s, hs⟩ := hsome
    exact .inr ⟨group2Of ps, s, if_pos hf, hs, rfl⟩
  · exact .inl ⟨by rw [hf]; rfl, by rw [hg]; rfl⟩

/-- The `push` of the operand has the bytes of the instruction, but for ModRM's `reg`. -/
theorem NearIndirect.pushRmBytes_eq {img : Mem} {pc : Word} {ps : List Byte} {call : Bool} {src : Operand} {next : Word}
    (hi : NearIndirect img pc ps call src next) {ds₀ ds : Decode} {ok : Bool}
    (hds : simpleDisasInsn img ds₀ pc = some (ds, ok)) (seg : Option Seg) : pushRmBytes ds =
      segBytes ps ++ [0xff, (fetch img (pc + BitVec.ofNat 32 ps.length) 1 &&& 0xc7) ||| 0x30] ++
        (List.range ((operand seg (fetch img (pc + BitVec.ofNat 32 ps.length)) 1).2 - 2)).map
          fun k => fetch img (pc + BitVec.ofNat 32 ps.length) (2 + k) := by
  have hd := hi.found hds
  generalize fetch img (pc + BitVec.ofNat 32 ps.length) = f at *
  have hm := hasModrm_nearFound call (f 1)
  have hsib : (nearFound call (f 1)).needSib ps = hasSib true (f 1) := needSib_of_hasModrm hi.addrsize hm
  have hdisp : (nearFound call (f 1)).dispLen ps f = dispSize true (f 1) (f 2) := dispLen_of_hasModrm hi.addrsize hm f
  have hat : (nearFound call (f 1)).dispAt ps = 2 + (hasSib true (f 1)).toNat := dispAt_of_hasModrm hi.addrsize hm
  have hmodrm : ds.modrm = f 1 := hd.modrm
  have hsibs : (if ds.needSib then [ds.sib] else []) = if hasSib true (f 1) then [f 2] else [] := by
    rw [hd.needSib, hd.sib, hsib]
    cases hasSib true (f 1) <;> rfl
  have hdisps : (match ds.dispBytes with
      | 1 => [ds.displacement.setWidth 8]
      | 2 => le16 ds.displacement
      | 4 => le32 ds.displacement
      | _ => []) = match dispSize true (f 1) (f 2) with
      | 1 => [(numAt f (2 + (hasSib true (f 1)).toNat) 1).setWidth 8]
      | 2 => le16 (numAt f (2 + (hasSib true (f 1)).toNat) 2)
      | 4 => le32 (numAt f (2 + (hasSib true (f 1)).toNat) 4)
      | _ => [] := by
    have hdisplacement : ds.displacement = if dispSize true (f 1) (f 2) = 0 then ds₀.displacement
        else numAt f (2 + (hasSib true (f 1)).toNat) (dispSize true (f 1) (f 2)) := by
      rw [hd.displacement, ← hdisp, ← hat]
    rw [hd.dispBytes, hdisplacement, hdisp]
    rcases Decode.dispSize_cases true (f 1) (f 2) with h | h | h | h <;> simp [h]
  have htail := operandTail_eq f seg
  have hhead : (if has ds.flags DSFL_GROUP2_PREFIX then [ds.group2Prefix] else []) = segBytes ps := by
    rw [hd.flags, hd.group2Prefix, segBytes]
  rw [pushRmBytes, List.append_assoc, hhead, hsibs, hmodrm]
  exact congrArg _ ((congrArg _ hdisps).trans htail)

theorem NearIndirect.decoded {img : Mem} {pc : Word} {ps : List Byte} {call : Bool} {src : Operand} {next : Word}
    (hi : NearIndirect img pc ps call src next) {ds₀ ds : Decode} {ok : Bool}
    (hds : simpleDisasInsn img ds₀ pc = some (ds, ok)) : NearDecoded call src next ds := by
  have hd := hi.found hds
  have hbytes := hi.pushRmBytes_eq hds (segPrefix (group2Of ps))
  have hnext := hi.next
  have hsrc := hi.src
  have h₁ : reg (fetch img (pc + BitVec.ofNat 32 ps.length) 1) = if call then 2 else 4 := hi.ext
  generalize fetch img (pc + BitVec.ofNat 32 ps.length) = f at *
  have hm := hasModrm_nearFound call (f 1)
  have hmodrm : ds.modrm = f 1 := hd.modrm
  refine ⟨hd.emitfn, ?_, ?_, ?_⟩
  · have hsize := operand_length (segPrefix (group2Of ps)) f 1
    rw [addressLength_eq, show 1 + 1 = 2 from rfl] at hsize
    have hlen : (nearFound call (f 1)).size ps f = (operand (segPrefix (group2Of ps)) f 1).2 := by
      rw [Found.size, Found.immAt, dispAt_of_hasModrm hi.addrsize hm, dispLen_of_hasModrm hi.addrsize hm,
        data32_of_notMem hi.opsize, immSize_nearFound, hsize]
      show 2 + (hasSib true (f 1)).toNat + dispSize true (f 1) (f 2) + 0 = _
      omega
    rw [hd.decodeEip, hnext]
    exact congrArg (fun n => pc + BitVec.ofNat 32 (ps.length + n)) hlen
  · intro hc
    rw [hsrc, operand_uses, State.destBasedOnEsp, hmodrm, if_neg (by rw [h₁, hc]; decide)]
    by_cases h3 : mod (f 1) = 3
    · rw [if_pos h3]
      exact (if_pos h3).symm
    · rw [if_neg h3, if_neg h3]
      cases h4 : rm (f 1) == 4 with
      | false => rfl
      | true =>
        have hs : hasSib true (f 1) = true := by
          simp only [hasSib, h4, bne_iff_ne.mpr h3]
          rfl
        have : ds.sib = f 2 := by rw [hd.sib, if_pos ((needSib_of_hasModrm hi.addrsize hm).trans hs)]; rfl
        rw [this]
  · have hfields : ∀ m : Byte, fields ((m &&& 0xc7) ||| 0x30) = ((fields m).1, 6, (fields m).2.2) := by
      decide +kernel
    rw [hbytes, hsrc]
    exact encodes_pushOperand f (segBytes_cases ps) (by rw [hfields]) (by rw [hfields]) (by rw [hfields]) rfl

/-! ## The pushes, executed -/

variable {L : Layout} {call : Bool} {src : Operand} {next : Word} {ds : Decode} {c : Cpu}

/-- What the emitters put before the first comparison; `f` is the function of the current block. -/
def captureBytes (L : Layout) (call : Bool) (next f : Word) (ds : Decode) : List Byte :=
  if call then callPushBytes ds next else movAbs L.indDest f ++ pushRmBytes ds

/-- Its instructions. -/
def captureLine (L : Layout) (call : Bool) (src : Operand) (next f : Word) (ds : Decode) : Line :=
  if call then
    if src.uses .esp then
      [(pushRmBytes ds, .push src), ([0xff, 0x34, 0x24], .push (.mem none (some .esp) none 0)),
        ([0xc7, 0x44, 0x24, 4] ++ le32 next, .movI (.mem none (some .esp) none 4) next)]
    else [([0x68] ++ le32 next, .pushI next), (pushRmBytes ds, .push src)]
  else [(movAbs L.indDest f, .movI (.mem none none none L.indDest) f), (pushRmBytes ds, .push src)]

/-- The operand as it is before the instruction is on top of the stack; for a
call the return address, which is then the guest's top of stack, is below it. -/
structure Captures (call : Bool) (src : Operand) (next : Word) (c c' : Cpu) : Prop where
  target : c'.mem.ld32 (c'.regs .esp) = c.read src
  ret : call → c'.mem.ld32 (c'.regs .esp + 4) = next
  esp : c'.regs .esp + 4 = if call then c.regs .esp - 4 else c.regs .esp
  regs : ∀ r, r ≠ .esp → c'.regs r = c.regs r

/-- The return address pushed does not change the operand. -/
def Undisturbed (src : Operand) (next : Word) (c : Cpu) : Prop :=
  (c.setMem (c.mem.st32 (c.regs .esp - 4) next)).read src = c.read src

theorem bytes_captureLine {f : Word} (hd : NearDecoded call src next ds) :
    (captureLine L call src next f ds).bytes = captureBytes L call next f ds := by
  cases call with
  | false => simp [captureLine, captureBytes, Line.bytes]
  | true =>
    have hb := hd.based rfl
    cases hu : src.uses .esp <;>
      simp [captureLine, captureBytes, callPushBytes, Line.bytes, hb, hu]

/-- What the pushes write is out of the way of the code. -/
theorem runs_captureLine {K : Code} {f : Word} (hd : NearDecoded call src next ds)
    (hK : Disjoint (Span L.indDest 4) K.dom) (h₄ : Disjoint (Span (c.regs .esp - 4) 4) K.dom)
    (h₈ : Disjoint (Span (c.regs .esp - 8) 4) K.dom) : (captureLine L call src next f ds).Runs K c := by
  have hne : pushRmBytes ds ≠ [] := by simp [pushRmBytes]
  have hsub : c.regs .esp - 4 - 4 = c.regs .esp - 8 := by ring
  have hadd : c.regs .esp - 8 + 4 = c.regs .esp - 4 := by ring
  rw [captureLine]
  split
  · split
    · refine ⟨hne, hd.push, fun _ => rfl, ?_, by simp, encodes_pushTop, fun _ => rfl, ?_, by simp, encodes_movEsp _,
        fun h => absurd rfl h, ?_, trivial⟩
      · simpa [Insn.writes] using h₄
      · simpa [Insn.writes, exec] using hsub ▸ h₈
      · simpa [Insn.writes, exec, Cpu.ea, hsub, hadd] using h₄
    · refine ⟨by simp, encodes_pushI _, fun _ => rfl, ?_, hne, hd.push, fun h => absurd rfl h, ?_, trivial⟩
      · simpa [Insn.writes] using h₄
      · simpa [Insn.writes, exec] using hsub ▸ h₈
  · refine ⟨by simp [movAbs], encodes_movAbs _ _, fun _ => rfl, ?_, hne, hd.push, fun h => absurd rfl h, ?_, trivial⟩
    · simpa [Insn.writes, Cpu.ea] using hK
    · simpa [Insn.writes, exec] using h₄

theorem add_four_sub_four (a : Word) : a - 4 - 4 + 4 = a - 4 := by ring

/-- The words of the two pushes do not overlap. -/
theorem disjoint_pushes (a : Word) : Disjoint (Span (a - 4 - 4) 4) (Span (a - 4) 4) := by
  have h : a - 4 - 4 = a - 8 := by ring
  rw [h]
  exact disjoint_sub (j := 8) (k := 4) (by decide) (by decide) (by decide)

/-- A call whose operand goes by `esp` reads it first. -/
theorem captures_based (f : Word) (h : src.uses .esp) :
    Captures true src next c ((captureLine L true src next f ds).exec c) := by
  have hregs : ∀ r, ((captureLine L true src next f ds).exec c).regs r =
      if r = .esp then c.regs .esp - 4 - 4 else c.regs r := by
    intro r
    by_cases hr : r = .esp <;> simp [captureLine, h, Line.exec, exec, hr]
  have hmem : ((captureLine L true src next f ds).exec c).mem =
      ((c.mem.st32 (c.regs .esp - 4) (c.read src)).st32 (c.regs .esp - 4 - 4) (c.read src)).st32
        (c.regs .esp - 4) next := by
    simp [captureLine, h, Line.exec, exec, Cpu.ea, Cpu.read]
  refine ⟨?_, fun _ => ?_, ?_, fun r hr => ?_⟩
  · rw [hregs, if_pos rfl, hmem, Mem.ld32_st32_of_disjoint (disjoint_pushes _).symm, Mem.ld32_st32]
  · rw [hregs, if_pos rfl, hmem, add_four_sub_four, Mem.ld32_st32]
  · rw [hregs, if_pos rfl, add_four_sub_four, if_pos rfl]
  · rw [hregs, if_neg hr]

/-- Any other call reads it behind the return address. -/
theorem captures_call (f : Word) (h : ¬ src.uses .esp) :
    Captures true src next c ((captureLine L true src next f ds).exec c) ↔ Undisturbed src next c := by
  have hregs : ∀ r, ((captureLine L true src next f ds).exec c).regs r =
      if r = .esp then c.regs .esp - 4 - 4 else c.regs r := by
    intro r
    by_cases hr : r = .esp <;> simp [captureLine, h, Line.exec, exec, hr]
  have hread : ∀ a, ((c.push next).goto a).read src = (c.setMem (c.mem.st32 (c.regs .esp - 4) next)).read src := by
    intro a
    rw [Cpu.read_congr (c := c) (by simp)]
    · simp
    · intro r hr
      have : r ≠ .esp := fun he => h (he ▸ hr)
      simp [this]
  have hmem : ((captureLine L true src next f ds).exec c).mem =
      (c.mem.st32 (c.regs .esp - 4) next).st32 (c.regs .esp - 4 - 4)
        ((c.setMem (c.mem.st32 (c.regs .esp - 4) next)).read src) := by
    simp [captureLine, h, Line.exec, exec, hread]
  have htop : ((captureLine L true src next f ds).exec c).mem.ld32
      (((captureLine L true src next f ds).exec c).regs .esp) =
        (c.setMem (c.mem.st32 (c.regs .esp - 4) next)).read src := by
    rw [hregs, if_pos rfl, hmem, Mem.ld32_st32]
  refine ⟨fun hc => htop.symm.trans hc.target, fun hu => ⟨htop.trans hu, fun _ => ?_, ?_, fun r hr => ?_⟩⟩
  · rw [hregs, if_pos rfl, hmem, add_four_sub_four, Mem.ld32_st32_of_disjoint (disjoint_pushes _), Mem.ld32_st32]
  · rw [hregs, if_pos rfl, add_four_sub_four, if_pos rfl]
  · rw [hregs, if_neg hr]

/-- A jump pushes no word before it reads its operand. -/
theorem captures_jmp (f : Word) (h : ∀ a, c.addr src = some a → Disjoint (Span a 4) (Span L.indDest 4)) :
    Captures false src next c ((captureLine L false src next f ds).exec c) := by
  have hregs : ∀ r, ((captureLine L false src next f ds).exec c).regs r =
      if r = .esp then c.regs .esp - 4 else c.regs r := by
    intro r
    by_cases hr : r = .esp <;> simp [captureLine, Line.exec, exec, hr]
  have hread : ∀ a, ((c.setMem (c.mem.st32 L.indDest f)).goto a).read src = c.read src := by
    intro a
    rw [Cpu.read_congr (c := c) (by simp) fun r _ => by simp, Cpu.goto_mem, Cpu.setMem_mem]
    cases src with
    | reg r => simp [Cpu.read]
    | mem s b i d =>
      have hd := h _ (Cpu.addr_mem ..)
      have hea : (c.setMem (c.mem.st32 L.indDest f)).ea s b i d = c.ea s b i d := by
        simp only [Cpu.ea, Cpu.setMem_segBase, Cpu.setMem_regs]
      rw [Cpu.read, Cpu.read, hea, Cpu.setMem_mem, Mem.ld32_st32_of_disjoint hd.symm]
  have hmem : ((captureLine L false src next f ds).exec c).mem =
      (c.mem.st32 L.indDest f).st32 (c.regs .esp - 4) (c.read src) := by
    simp [captureLine, Line.exec, exec, Cpu.ea, hread]
  refine ⟨?_, fun h => absurd h Bool.false_ne_true, ?_, fun r hr => ?_⟩
  · rw [hregs, if_pos rfl, hmem, Mem.ld32_st32]
  · rw [hregs, if_pos rfl, BitVec.sub_add_cancel, if_neg (by decide)]
  · rw [hregs, if_neg hr]

/-! ## The emitters -/

variable {img : Mem} {s s' : State} {cont : Bool}

theorem State.mem_callEmitted (bs : List Byte) (i : Nat) (f : TranslationBlock → TranslationBlock) (a : Word)
    (c : Word → Option Nat) : ((((s.emit bs).updTb i f).logRcCmp a).withCache c).mem = s.mem.put s.codePtr bs ∧
      ((((s.emit bs).updTb i f).logRcCmp a).withCache c).codePtr = s.codePtr + BitVec.ofNat 32 bs.length := ⟨rfl, rfl⟩

theorem State.mem_jmpEmitted (bs : List Byte) (i : Nat) (f : TranslationBlock → TranslationBlock) :
    ((s.emit bs).updTb i f).mem = s.mem.put s.codePtr bs ∧
      ((s.emit bs).updTb i f).codePtr = s.codePtr + BitVec.ofNat 32 bs.length := ⟨rfl, rfl⟩

/-- The pushes are where the emitter began, and what it emitted ends behind them. -/
theorem Emitted.capture (h : Emitted L img s ds cont s') (hd : NearDecoded call src s.pcPtr ds) :
    ∃ f n, s'.mem.At s.codePtr (captureBytes L call s.pcPtr f ds) ∧ s'.codePtr = s.codePtr + BitVec.ofNat 32 n ∧
      (captureBytes L call s.pcPtr f ds).length ≤ n ∧ n < 256 := by
  have hfn := hd.emitfn
  have hother : ∀ {fn}, ds.emitfn = .fn fn → fn = if call then .callNearMem else .jmpNearMem := fun he =>
    Ptr.fn.inj (he.symm.trans hfn)
  have hat : ∀ {f : Word} {cs : List Byte}, (captureBytes L call s.pcPtr f ds ++ cs).length < 256 →
      s'.mem = s.mem.put s.codePtr (captureBytes L call s.pcPtr f ds ++ cs) →
      s'.codePtr = s.codePtr + BitVec.ofNat 32 (captureBytes L call s.pcPtr f ds ++ cs).length →
      ∃ f n, s'.mem.At s.codePtr (captureBytes L call s.pcPtr f ds) ∧ s'.codePtr = s.codePtr + BitVec.ofNat 32 n ∧
        (captureBytes L call s.pcPtr f ds).length ≤ n ∧ n < 256 := fun {f cs} hl hm hp =>
    ⟨f, _, hm ▸ (Mem.At.put_self (by omega)).left, hp, by simp, hl⟩
  have hexit := length_exitTbBytes_le L s.tbRetAddr
  cases h with
  | normal he | int he | sysenter he | ret he | retIw he | jmp he | callDisp he | jcond he | otherJcond he =>
    exact absurd (hother he) (by cases call <;> simp)
  | @jmpNearMem b he h4 hb =>
    cases call with
    | true => exact absurd (hother he) (by simp)
    | false =>
      have hlen := length_pushRmBytes ds
      have hind := length_indOptBytes L s.tbRetAddr (s.codePtr + BitVec.ofNat 32 (10 + (pushRmBytes ds).length))
        (L.tbPtr s.curTb) IND_TYPE_JMP
      have hx := hexit (s.codePtr + BitVec.ofNat 32 (10 + (pushRmBytes ds).length) + 37) (L.tbPtr s.curTb) IND_TYPE_JMP
      obtain ⟨hmem, hptr⟩ := s.mem_jmpEmitted (jmpNearMemBytes L s.tbRetAddr s.codePtr (L.tbPtr s.curTb) b.funcAddr ds)
        s.curTb (jmpNearMemFields L s.tbRetAddr s.codePtr (L.tbPtr s.curTb) ds)
      refine hat (f := b.funcAddr) ?_ hmem hptr
      simp only [captureBytes, List.length_append, length_movAbs, Bool.false_eq_true, if_false]
      omega
  | @callNearMem c _ _ he h4 hn =>
    cases call with
    | false => exact absurd (hother he) (by simp)
    | true =>
      have hlen := length_callPushBytes ds s.pcPtr
      obtain ⟨bs, hbs, hmem, hptr⟩ := hn.code
      obtain ⟨hm, hp⟩ := s.mem_callEmitted (callNearMemBytes L s.tbRetAddr s.sieveStub s.codePtr (L.tbPtr s.curTb)
        s.pcPtr ds) s.curTb (callNearMemFields L s.tbRetAddr s.codePtr (L.tbPtr s.curTb) s.pcPtr ds)
          (callRcAt L s.tbRetAddr s.codePtr (L.tbPtr s.curTb) s.pcPtr ds) c
      have hind := length_indOptBytes L s.tbRetAddr (s.codePtr + BitVec.ofNat 32 ((callPushBytes ds s.pcPtr).length + 23))
        (L.tbPtr s.curTb) IND_TYPE_CALL
      have hx := hexit (s.codePtr + BitVec.ofNat 32 ((callPushBytes ds s.pcPtr).length + 23) + 37) (L.tbPtr s.curTb)
        IND_TYPE_CALL
      have hcall : (callNearMemBytes L s.tbRetAddr s.sieveStub s.codePtr (L.tbPtr s.curTb) s.pcPtr ds).length ≤ 164 := by
        simp only [callNearMemBytes, List.length_append, length_callRcBytes, length_rcCmpBytes]
        omega
      obtain ⟨cs, hcs⟩ : ∃ cs, callNearMemBytes L s.tbRetAddr s.sieveStub s.codePtr (L.tbPtr s.curTb) s.pcPtr ds =
          captureBytes L true s.pcPtr 0 ds ++ cs := ⟨_, by simp only [callNearMemBytes, List.append_assoc]; rfl⟩
      rw [hp, hm] at hmem
      rw [hp] at hptr
      rw [hcs] at hmem hptr hcall
      rw [List.length_append] at hcall
      rw [Mem.put_put_append (by rw [List.length_append]; omega), List.append_assoc] at hmem
      rw [BitVec.add_assoc, ← BitVec.ofNat_add, ← List.length_append, List.append_assoc] at hptr
      refine hat ?_ hmem hptr
      simp only [List.length_append]
      omega

/-- The processor is about to run the pushes `bs` the emitter began with; the
guest's stack and the operand are in the guest's memory. -/
structure AtPushes (L : Layout) (s s' : State) (bs : List Byte) (src : Operand) (c : Cpu) : Prop where
  eip : c.eip = s.codePtr
  code : ∀ x ∈ Span s.codePtr bs.length, c.mem x = s'.mem x
  stack : Disjoint (Span (c.regs .esp - 8) 8) L.emu
  operand : ∀ a, c.addr src = some a → Disjoint (Span a 4) L.emu

theorem AtPushes.arrives {f : Word} (hd : NearDecoded call src next ds)
    (hc : AtPushes L s s' (captureBytes L call next f ds) src c)
    (hat : s'.mem.At s.codePtr (captureBytes L call next f ds))
    (hspan : Span s.codePtr (captureBytes L call next f ds).length ⊆ Span L.codeGenBuffer DEFAULT_CODE_GEN_BUFFER_SIZE) :
    Arrives step (fun c => c.eip = s.codePtr + BitVec.ofNat 32 (captureBytes L call next f ds).length) c
      ((captureLine L call src next f ds).exec c) := by
  have hlen : (captureBytes L call next f ds).length ≤ 19 := by
    have := length_callPushBytes ds next
    have := length_pushRmBytes ds
    rw [captureBytes]
    split
    · assumption
    · rw [List.length_append, length_movAbs]
      omega
  have hbytes := bytes_captureLine (L := L) (f := f) hd
  have hcode : c.mem.At c.eip (captureBytes L call next f ds) := by
    rw [hc.eip]
    exact hat.congr (by omega) hc.code
  rw [← hc.eip] at hspan ⊢
  rw [← hbytes] at hspan hcode hlen ⊢
  generalize hl : captureLine L call src next f ds = l at *
  let K := Code.ofMem c.mem (Span c.eip l.bytes.length)
  have hK : K.dom ⊆ Span L.codeGenBuffer DEFAULT_CODE_GEN_BUFFER_SIZE := by
    rw [Code.dom_ofMem]
    exact hspan
  have hKe : K.dom ⊆ L.emu := fun x hx => Or.inl (Or.inr (hK hx))
  have hp : Code.Placed K c.eip (l.bytes.map some) := Code.placed_ofMem hcode (by omega) subset_rfl
  have hne : l ≠ [] := by
    rw [← hl, captureLine]
    split
    · split <;> simp
    · simp
  have hstraight : l.straight := by
    rw [← hl, captureLine]
    split
    · split <;> rfl
    · rfl
  have hruns : l.Runs K c := by
    rw [← hl]
    refine runs_captureLine hd ?_ ?_ ?_
    · exact (L.env_code.mono_left L.indDest_subset).mono_right hK
    · exact (disjoint_below (n := 8) hc.stack (k := 4) (by decide) (by decide) (by decide)).mono_right hKe
    · exact (disjoint_below (n := 8) hc.stack (k := 8) (by decide) (by decide) (by decide)).mono_right hKe
  have hrun := (goes_line (S := (· = c.eip + BitVec.ofNat 32 l.bytes.length)) hne (Code.holds_ofMem _ _) hp hruns
    fun k hk hk' he => by bv_omega).1
  exact ⟨hrun, Line.exec_eip hstraight⟩

/-- An iteration of the translator at the instruction puts the pushes in the code buffer. -/
theorem genInsn_capture {G : State.GenLoop} {ds₀ : Decode} {ps : List Byte}
    (hi : NearIndirect img s.pcPtr ps call src next)
    (hs : (s.codePtr - L.codeGenBuffer).toNat ≤ DEFAULT_CODE_GEN_BUFFER_SIZE)
    (h : s.genInsn L img G ds₀ = .ok (ds, cont, s')) :
    NearDecoded call src next ds ∧ ∃ f, s'.mem.At s.codePtr (captureBytes L call next f ds) ∧
      Span s.codePtr (captureBytes L call next f ds).length ⊆
        Span L.codeGenBuffer DEFAULT_CODE_GEN_BUFFER_SIZE := by
  obtain ⟨ok, s₁, hds, hem, hin, rfl⟩ := genInsn_spec s ds₀ _ h
  have hd := hi.decoded hds
  have hpc : (s.beginInsn ds ok).pcPtr = next := hd.decodeEip
  obtain ⟨f, n, hat, hptr, hle, hn⟩ := hem.capture (hpc ▸ hd)
  rw [hpc] at hat hle
  have hcode : (s.beginInsn ds ok).codePtr = s.codePtr := rfl
  rw [hcode] at hat hptr
  have hend : (s.codePtr - L.codeGenBuffer).toNat + n ≤ DEFAULT_CODE_GEN_BUFFER_SIZE := by
    rw [hptr] at hin
    simp only [DEFAULT_CODE_GEN_BUFFER_SIZE] at hs hin ⊢
    bv_omega
  exact ⟨hd, f, hat, span_subset (by omega)⟩

/-! ## A call of an address that is loaded from below the stack -/

/-- `call *(%eax)` -/
def callEax : Mem := fun a => if a = 0x08048000 then 0xff else if a = 0x08048001 then 0x10 else 0x90

theorem nearIndirect_callEax :
    NearIndirect callEax 0x08048000 [] true (.mem none (some .eax) none 0) 0x08048002 where
  prefixes := by simp
  opsize := by simp
  addrsize := by simp
  length := by simp
  placed := Mem.At.nil
  opcode := rfl
  ext := rfl
  src := rfl
  next := rfl

/-- About to translate it. -/
def atCallEax : State where
  mem := fun _ => 0
  tbs := [{ pc := 0x08048000 }]
  codeGenPtr := Layout.sample.codeGenBuffer
  codePtr := Layout.sample.codeGenBuffer
  sieveCodePtr := Layout.sample.sieveBuffer
  pcPtr := 0x08048000

/-- A processor at the code emitted in `m`, with `eax = a` and a zero word just below the stack. -/
def atPushesEax (m : Mem) (a : Word) : Cpu where
  regs r := if r = .eax then a else if r = .esp then 0x60000000 else 0
  eflags := 2
  eip := Layout.sample.codeGenBuffer
  segBase _ := 0
  undefAF := false
  mem := m.st32 0x5ffffffc 0

theorem atPushes_eax (s' : State) {bs : List Byte} {a : Word} (ha : 0x52000000 ≤ a.toNat) (ha' : a.toNat + 4 ≤ 2 ^ 32)
    (hb : Span atCallEax.codePtr bs.length ⊆ Span Layout.sample.codeGenBuffer DEFAULT_CODE_GEN_BUFFER_SIZE) :
    AtPushes .sample atCallEax s' bs (.mem none (some .eax) none 0) (atPushesEax s'.mem a) := by
  refine ⟨rfl, fun x hx => Mem.st32_of_notMem fun hx' => ?_, ?_, fun a' ha'' => ?_⟩
  · exact Set.disjoint_left.mp (disjoint_emu_sample (a := 0x5ffffffc) (n := 4) (by decide) (by decide)) hx'
      (Or.inl (Or.inr (hb hx)))
  · exact disjoint_emu_sample (a := 0x60000000 - 8) (n := 8) (by decide) (by decide)
  · have hea : a' = a := by
      obtain rfl := Option.some.inj ha''
      simp [Cpu.ea, atPushesEax]
    rw [hea]
    exact disjoint_emu_sample ha ha'

/-- Where the lookup finds nothing and there is room, `trans_next` makes a block. -/
theorem transNext_makes {t : State} {b : TranslationBlock} (h32 : has ds.opstate OPSTATE_DATA32)
    (hc : ∀ h, t.tbJmpCache h = none) (hh : ∀ h, t.tbPhysHash h = none) (hb : t.tbs[t.curTb]? = some b)
    (hlen : t.tbs.length < codeGenMaxBlocks) (hbuf : (t.codeGenPtr - L.codeGenBuffer).toNat < codeGenBufferMaxSize) :
    ∃ s', t.transNext L ds = .ok (true, s') ∧ s'.codePtr = t.codePtr := by
  have hfind : t.tbFindFast t.pcPtr NORMAL_TB_TAG = .ok (none, t) := by
    cases hl : t.tbs.length <;>
      simp [State.tbFindFast, hc, State.tbFindSlow, hh, State.chain, hl, bind, Except.bind, pure, Except.pure]
  obtain ⟨p, hp⟩ := makeTb_returns hlen hbuf t.pcPtr b.funcAddr NORMAL_TB_TAG
  have hptr : p.2.codePtr = t.codePtr := by rw [(makeTb_spec _ hp).2]; rfl
  have hcur : t.tb t.curTb = .ok b := by rw [State.tb, hb]
  refine ⟨(p.2.updTb p.1 (·.setTcPtr p.2.codePtr)).setCurTb p.1, ?_, hptr⟩
  simp [State.transNext, h32, hfind, hcur, hp, pure, Except.pure]

theorem genInsn_atCallEax : ∃ ds s', atCallEax.genInsn .sample callEax .target .zero = .ok (ds, true, s') := by
  have hrow : (simpleDisasInsn callEax .zero 0x08048000).map (fun p => (p.1.opstate, p.1.flags, p.1.emitfn)) =
      some (3, 0, .fn .callNearMem) := by decide +kernel
  obtain ⟨⟨ds, ok⟩, hds, hrow⟩ := Option.map_eq_some_iff.mp hrow
  simp only [Prod.mk.injEq] at hrow
  obtain ⟨hop, hfl, hfn⟩ := hrow
  have hds' : simpleDisasInsn callEax .zero atCallEax.pcPtr = some (ds, ok) := hds
  have h16 : abortIf (has ds.opstate OPSTATE_ADDR16) "error: OPSTATE_ADDR16\n" = .ok () := by
    rw [abortIf, if_neg (not_addr16 _)]
  have h4 : has ds.flags DSFL_GROUP4_PREFIX = false := by
    rw [hfl]
    rfl
  obtain ⟨s₀, hs₀⟩ : ∃ s₀, s₀ = atCallEax.beginInsn ds ok := ⟨_, rfl⟩
  have hcall : s₀.callEmitfn .sample callEax ds = s₀.emitCallNearMem .sample ds := by
    simp only [State.callEmitfn, hfn]
  have hlen : (callNearMemBytes .sample s₀.tbRetAddr s₀.sieveStub s₀.codePtr (Layout.sample.tbPtr s₀.curTb) s₀.pcPtr
      ds).length < 256 := by
    have hpush := length_callPushBytes ds s₀.pcPtr
    have hind := length_indOptBytes .sample s₀.tbRetAddr (s₀.codePtr + BitVec.ofNat 32
      ((callPushBytes ds s₀.pcPtr).length + 23)) (Layout.sample.tbPtr s₀.curTb) IND_TYPE_CALL
    have hexit := length_exitTbBytes_le .sample s₀.tbRetAddr (s₀.codePtr + BitVec.ofNat 32
      ((callPushBytes ds s₀.pcPtr).length + 23) + 37) (Layout.sample.tbPtr s₀.curTb) IND_TYPE_CALL
    simp only [callNearMemBytes, List.length_append, length_callRcBytes, length_rcCmpBytes]
    omega
  have hfields : ∀ (bs : List Byte) (f : TranslationBlock → TranslationBlock) (a : Word),
      ∃ s', (((s₀.emit bs).updTb s₀.curTb f).logRcCmp a).transNext .sample ds = .ok (true, s') ∧
        s'.codePtr = s₀.codePtr + BitVec.ofNat 32 bs.length := by
    intro bs f a
    have htbs : (((s₀.emit bs).updTb s₀.curTb f).logRcCmp a).tbs = [f { pc := 0x08048000 }] := by
      rw [hs₀]
      rfl
    have hcur : (((s₀.emit bs).updTb s₀.curTb f).logRcCmp a).curTb = 0 := by
      rw [hs₀]
      rfl
    have hgen : (((s₀.emit bs).updTb s₀.curTb f).logRcCmp a).codeGenPtr = Layout.sample.codeGenBuffer := by
      rw [hs₀]
      rfl
    refine transNext_makes (by rw [hop]; rfl) (fun h => by rw [hs₀]; rfl) (fun h => by rw [hs₀]; rfl)
      (b := f { pc := 0x08048000 }) ?_ ?_ ?_
    · rw [hcur, htbs]
      rfl
    · rw [htbs, List.length_singleton]
      decide
    · rw [hgen, BitVec.sub_self]
      decide
  obtain ⟨s', hs', hptr⟩ := hfields (callNearMemBytes .sample s₀.tbRetAddr s₀.sieveStub s₀.codePtr
    (Layout.sample.tbPtr s₀.curTb) s₀.pcPtr ds) (callNearMemFields .sample s₀.tbRetAddr s₀.codePtr
      (Layout.sample.tbPtr s₀.curTb) s₀.pcPtr ds) (callRcAt .sample s₀.tbRetAddr s₀.codePtr
        (Layout.sample.tbPtr s₀.curTb) s₀.pcPtr ds)
  have hcode : s₀.codePtr = Layout.sample.codeGenBuffer := by
    rw [hs₀]
    rfl
  have hcheck : s'.checkCode .sample = .ok () := by
    have : (s'.codePtr - Layout.sample.codeGenBuffer).toNat ≤ DEFAULT_CODE_GEN_BUFFER_SIZE := by
      generalize (callNearMemBytes .sample s₀.tbRetAddr s₀.sieveStub s₀.codePtr (Layout.sample.tbPtr s₀.curTb)
        s₀.pcPtr ds).length = n at hlen hptr
      rw [hptr, hcode]
      simp only [DEFAULT_CODE_GEN_BUFFER_SIZE]
      bv_omega
    rw [State.checkCode, if_neg (by omega)]
  refine ⟨ds, s'.updTb s'.curTb (·.incInsnCount), ?_⟩
  simp only [State.genInsn, hds', h16, ok_bind, ← hs₀, hcall, emitCallNearMem_eq, h4, Bool.false_eq_true, if_false, hs',
    hcheck]
  rfl

/-- The word the pushes of `call *(%eax)` take for the target when `eax` is `a`. -/
theorem captures_callEax : ∃ ds s', atCallEax.genInsn .sample callEax .target .zero = .ok (ds, true, s') ∧
    ∃ f, s'.mem.At atCallEax.codePtr (captureBytes .sample true 0x08048002 f ds) ∧
      ∀ a : Word, 0x52000000 ≤ a.toNat → a.toNat + 4 ≤ 2 ^ 32 →
        AtPushes .sample atCallEax s' (captureBytes .sample true 0x08048002 f ds) (.mem none (some .eax) none 0)
          (atPushesEax s'.mem a) ∧
        ∃ c', Arrives step (fun c => c.eip = atCallEax.codePtr +
          BitVec.ofNat 32 (captureBytes .sample true 0x08048002 f ds).length) (atPushesEax s'.mem a) c' ∧
          (Captures true (.mem none (some .eax) none 0) 0x08048002 (atPushesEax s'.mem a) c' ↔
            Undisturbed (.mem none (some .eax) none 0) 0x08048002 (atPushesEax s'.mem a)) := by
  obtain ⟨ds, s', h⟩ := genInsn_atCallEax
  obtain ⟨hd, f, hat, hspan⟩ := genInsn_capture nearIndirect_callEax (by decide) h
  refine ⟨ds, s', h, f, hat, fun a ha ha' => ?_⟩
  have hc := atPushes_eax s' ha ha' hspan
  exact ⟨hc, _, hc.arrives hd hat hspan, captures_call f (by decide)⟩

/-- With the address just below the stack the call goes to its own return address. -/
theorem not_captures : ¬ ∀ (L : Layout) (img : Mem) (G : State.GenLoop) (s s' : State) (ds₀ ds : Decode) (cont : Bool)
    (ps : List Byte) (call : Bool) (src : Operand) (next f : Word) (c c' : Cpu),
    NearIndirect img s.pcPtr ps call src next →
    (s.codePtr - L.codeGenBuffer).toNat ≤ DEFAULT_CODE_GEN_BUFFER_SIZE →
    s.genInsn L img G ds₀ = .ok (ds, cont, s') →
    s'.mem.At s.codePtr (captureBytes L call next f ds) → AtPushes L s s' (captureBytes L call next f ds) src c →
    Arrives step (fun c => c.eip = s.codePtr + BitVec.ofNat 32 (captureBytes L call next f ds).length) c c' →
    Captures call src next c c' := by
  intro h
  obtain ⟨ds, s', hg, f, hat, hall⟩ := captures_callEax
  obtain ⟨hc, c', hc', hiff⟩ := hall 0x5ffffffc (by decide) (by decide)
  have hcap := h _ _ _ _ _ _ _ _ _ _ _ _ _ _ _ nearIndirect_callEax (by decide) hg hat hc hc'
  have hu : (atPushesEax s'.mem 0x5ffffffc).read (.mem none (some .eax) none 0) = 0x08048002 :=
    (hiff.mp hcap).symm.trans (by simp [Cpu.read, Cpu.ea, atPushesEax])
  simp [Cpu.read, Cpu.ea, atPushesEax] at hu

/-- What an indirect branch pushes is its operand as it is before the instruction
if and only if it is a jump, or the operand goes by `esp`, or the return address
stored at `esp - 4` leaves it as it is. -/
theorem captures_iff {G : State.GenLoop} {ds₀ : Decode} {ps : List Byte}
    (hi : NearIndirect img s.pcPtr ps call src next)
    (hs : (s.codePtr - L.codeGenBuffer).toNat ≤ DEFAULT_CODE_GEN_BUFFER_SIZE)
    (h : s.genInsn L img G ds₀ = .ok (ds, cont, s')) :
    ∃ f, s'.mem.At s.codePtr (captureBytes L call next f ds) ∧
      ∀ c, AtPushes L s s' (captureBytes L call next f ds) src c →
        ∃ c', Arrives step (fun c => c.eip = s.codePtr + BitVec.ofNat 32 (captureBytes L call next f ds).length) c c' ∧
          (Captures call src next c c' ↔ call = false ∨ src.uses .esp ∨ Undisturbed src next c) := by
  obtain ⟨hd, f, hat, hspan⟩ := genInsn_capture hi hs h
  refine ⟨f, hat, fun c hc => ⟨_, hc.arrives hd hat hspan, ?_⟩⟩
  cases call with
  | false =>
    have hind : ∀ a, c.addr src = some a → Disjoint (Span a 4) (Span L.indDest 4) := fun a ha =>
      (hc.operand a ha).mono_right fun x hx => Or.inl (Or.inl (Or.inl (L.indDest_subset hx)))
    simp [captures_jmp f hind]
  | true =>
    by_cases hu : src.uses .esp
    · simp [captures_based f hu, hu]
    · simp [captures_call f hu, hu]

theorem captures_iff_callEax : ∃ ds s', atCallEax.genInsn .sample callEax .target .zero = .ok (ds, true, s') ∧
    ∃ f c c', AtPushes .sample atCallEax s' (captureBytes .sample true 0x08048002 f ds) (.mem none (some .eax) none 0) c ∧
      Arrives step (fun c => c.eip = atCallEax.codePtr +
        BitVec.ofNat 32 (captureBytes .sample true 0x08048002 f ds).length) c c' ∧
      Captures true (.mem none (some .eax) none 0) 0x08048002 c c' := by
  obtain ⟨ds, s', hg⟩ := genInsn_atCallEax
  obtain ⟨f, -, hall⟩ := captures_iff nearIndirect_callEax (by decide) hg
  obtain ⟨hd, f', hat, hspan⟩ := genInsn_capture nearIndirect_callEax (by decide) hg
  have hlen : Span atCallEax.codePtr (captureBytes .sample true 0x08048002 f ds).length ⊆
      Span Layout.sample.codeGenBuffer DEFAULT_CODE_GEN_BUFFER_SIZE := hspan
  have hc := atPushes_eax s' (a := 0x60001000) (by decide) (by decide) hlen
  obtain ⟨c', hc', hiff⟩ := hall _ hc
  refine ⟨ds, s', hg, f, _, c', hc, hc', hiff.mpr (Or.inr (Or.inr ?_))⟩
  have hd : Disjoint (Span (0x5ffffffc : Word) 4) (Span 0x60001000 4) :=
    disjoint_span_of_le (a := 0) (by decide) (by decide)
  simp only [Undisturbed, Cpu.read, Cpu.ea, atPushesEax]
  exact Mem.ld32_st32_of_disjoint hd

end Unitrans
