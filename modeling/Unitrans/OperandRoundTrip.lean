/-
The operand of an indirect call or jump, written again. `emit_push_rm` puts the
address form the decoder left into a `push`; where it put it the decoder finds
the same address form (`pushRm_roundtrip`).
-/
import Unitrans.IndirectTarget

namespace Unitrans

open X86 Except

/-! ## What an operand is -/

/-- The displacement the processor adds: short ones are sign-extended. -/
def Decode.signedDisp (ds : Decode) : Word :=
  match ds.dispBytes with
  | 1 => (ds.displacement.setWidth 8).signExtend 32
  | 2 => (ds.displacement.setWidth 16).signExtend 32
  | 4 => ds.displacement
  | _ => 0

/-- The segment override in force. -/
def Decode.segOverride (ds : Decode) : Option Seg :=
  if has ds.flags DSFL_GROUP2_PREFIX then segPrefix ds.group2Prefix else none

/-- The instructions name their operand in the same way. -/
structure SameOperand (ds r : Decode) : Prop where
  mod : mod r.modrm = mod ds.modrm
  rm : rm r.modrm = rm ds.modrm
  needSib : r.needSib = ds.needSib
  sib : ds.needSib → r.sib = ds.sib
  dispBytes : r.dispBytes = ds.dispBytes
  disp : r.signedDisp = ds.signedDisp
  segOverride : r.segOverride = ds.segOverride

/-- `push r/m` (`ff /6`) is what was decoded. -/
structure IsPushRm (img : Mem) (ds : Decode) : Prop where
  opcode : img ds.instr = 0xff
  modrm : img (ds.instr + 1) = ds.modrm
  reg : reg ds.modrm = 6

/-! ## The push, decoded -/

/-- What is found at `ff /6`. -/
def pushFound (m : Byte) : Found where
  entry := ⟨6, .fn .normal, 3145729⟩
  attr := 3147777
  len := 2
  modrm := m
  last := m

theorem found_push {f : Nat → Byte} (h : f 0 = 0xff) (hr : reg (f 1) = 6) : found f = some (pushFound (f 1)) := by
  have hff : TableId.nopbyte0.row 255 = ⟨0xff, .table .ngroup5, 2048⟩ := rfl
  have h6 : TableId.ngroup5.row 6 = ⟨6, .fn .normal, 3145729⟩ := rfl
  simp only [found, foundAt, groupFound, h, hr]
  simp [hff, h6, has, DF_TABLE, DF_FLOAT, DF_MODRM, DF_GROUP, pushFound]

theorem hasModrm_pushFound (m : Byte) : (pushFound m).hasModrm = true := by
  simp [Found.hasModrm, pushFound, has, DF_MODRM, DF_GROUP]

theorem immSize_pushFound (m : Byte) (a32 : Bool) : immSize (pushFound m).attr true a32 = 0 := by
  show immSize 3147777 true a32 = 0
  cases a32 <;> decide +kernel

theorem accepted_pushFound (m : Byte) :
    (!has (pushFound m).attr DF_UNDEFINED && (pushFound m).entry.ptr != .null) = true := by
  show (!has 3147777 DF_UNDEFINED && Ptr.fn .normal != .null) = true
  decide +kernel

/-- ModRM with `reg` replaced. -/
theorem modrm_push (m : Byte) : mod ((m &&& 0xc7) ||| 0x30) = mod m ∧ reg ((m &&& 0xc7) ||| 0x30) = 6 ∧
    rm ((m &&& 0xc7) ||| 0x30) = rm m := by decide +revert

theorem segBytes_legacy (ps : List Byte) : ∀ p ∈ segBytes ps, p ∈ group2 := by
  intro p hp
  rw [segBytes] at hp
  rcases group2Of_cases ps with ⟨hf, hg⟩ | ⟨hf, hg⟩
  · rw [hf, if_pos rfl, List.mem_singleton] at hp
    exact hp ▸ hg
  · rw [hf, if_neg (by decide)] at hp
    cases hp

theorem segOverride_segBytes (ps : List Byte) :
    (if has (flagsOf (segBytes ps)) DSFL_GROUP2_PREFIX then segPrefix (group2Of (segBytes ps)) else none) =
      if has (flagsOf ps) DSFL_GROUP2_PREFIX then segPrefix (group2Of ps) else none := by
  rw [segBytes]
  rcases group2Of_cases ps with ⟨hf, hg⟩ | ⟨hf, hg⟩
  · have hone : ∀ p ∈ group2, has (flagsOf [p]) DSFL_GROUP2_PREFIX ∧ group2Of [p] = p := by decide
    rw [if_pos hf, if_pos hf, if_pos (hone _ hg).1, (hone _ hg).2]
  · rw [hf, if_neg Bool.false_ne_true, if_neg Bool.false_ne_true]
    rfl

/-! ## Decodes of one address form -/

section

variable {f g : Nat → Byte} {m m' : Byte}

theorem hasSib_congr (hmod : mod m' = mod m) (hrm : rm m' = rm m) : hasSib true m' = hasSib true m := by
  rw [hasSib, hasSib, hmod, hrm]

theorem dispSize_congr {x y : Byte} (hmod : mod m' = mod m) (hrm : rm m' = rm m) (hx : hasSib true m → y = x) :
    dispSize true m' y = dispSize true m x := by
  have hof : dispOf true m' = dispOf true m := by rw [dispOf, dispOf, hmod, hrm]
  rw [dispSize, dispSize, hasSib_congr hmod hrm, hof, hmod]
  by_cases h : hasSib true m
  · rw [hx h]
  · rw [if_neg (fun hc => h hc.1), if_neg (fun hc => h hc.1)]

theorem numAt_congr_of_size {j n : Nat} (hn : n = 1 ∨ n = 2 ∨ n = 4) (h : ∀ k < n, g (j + k) = f (j + k)) :
    numAt g j n = numAt f j n := by
  have h₀ : g j = f j := h 0 (by omega)
  rcases hn with rfl | rfl | rfl
  · simp [numAt, h₀]
  · simp [numAt, h₀, h 1]
  · simp [numAt, h₀, h 1, h 2, h 3]

end

/-- The operand read from the stream `g` is the one read from `f`, where the
ModRM bytes differ in `reg` only and the bytes of the address form agree. -/
theorem sameOperand_of_decoded {img img' : Mem} {ds₀ ds₁ ds r : Decode} {pc pc' : Word} {ps ps' : List Byte}
    {f g : Nat → Byte} {F G : Found} {ok ok' : Bool} (hd : Decoded img ds₀ pc ps f F ds ok)
    (hr : Decoded img' ds₁ pc' ps' g G r ok') (ha : 0x67 ∉ ps) (ha' : 0x67 ∉ ps') (hF : F.modrm = some (f 1))
    (hG : G.modrm = some (g 1)) (hm : F.hasModrm) (hm' : G.hasModrm) (hl : F.len = 2) (hl' : G.len = 2)
    (hmod : mod (g 1) = mod (f 1)) (hrm : rm (g 1) = rm (f 1))
    (hbytes : ∀ k < (hasSib true (f 1)).toNat + dispSize true (f 1) (f 2), g (2 + k) = f (2 + k))
    (hseg : r.segOverride = ds.segOverride) :
    SameOperand ds r ∧ G.dispAt ps' + G.dispLen ps' g = 2 + (hasSib true (f 1)).toNat + dispSize true (f 1) (f 2) := by
  have hmF : F.m = f 1 := by rw [Found.m, hF]; rfl
  have hmG : G.m = g 1 := by rw [Found.m, hG]; rfl
  have hsibs := hasSib_congr hmod hrm
  have hsib : hasSib true (f 1) → g 2 = f 2 := fun h => hbytes 0 (by simp [h])
  have hsize : dispSize true (g 1) (g 2) = dispSize true (f 1) (f 2) := dispSize_congr hmod hrm hsib
  have hneed : ds.needSib = hasSib true (f 1) := by rw [hd.needSib, needSib_of_hasModrm ha hm, hmF]
  have hneed' : r.needSib = hasSib true (f 1) := by rw [hr.needSib, needSib_of_hasModrm ha' hm', hmG, hsibs]
  have hlen : F.dispLen ps f = dispSize true (f 1) (f 2) := by rw [dispLen_of_hasModrm ha hm, hmF, hl]
  have hlen' : G.dispLen ps' g = dispSize true (f 1) (f 2) := by rw [dispLen_of_hasModrm ha' hm', hmG, hl', hsize]
  have hat : F.dispAt ps = 2 + (hasSib true (f 1)).toNat := by rw [dispAt_of_hasModrm ha hm, hmF, hl]
  have hat' : G.dispAt ps' = 2 + (hasSib true (f 1)).toNat := by rw [dispAt_of_hasModrm ha' hm', hmG, hl', hsibs]
  have hdisp : dispSize true (f 1) (f 2) ≠ 0 → r.displacement = ds.displacement := by
    intro h
    rw [hr.displacement, hd.displacement, hlen, hlen', if_neg h, if_neg h, hat, hat']
    refine numAt_congr_of_size ?_ fun k hk => ?_
    · rcases Decode.dispSize_cases true (f 1) (f 2) with h' | h' | h' | h' <;> simp_all
    · rw [Nat.add_assoc]
      exact hbytes _ (by omega)
  refine ⟨⟨?_, ?_, hneed'.trans hneed.symm, fun h => ?_, ?_, ?_, hseg⟩, by rw [hat', hlen']⟩
  · rw [hr.modrm, hd.modrm, hF, hG]
    exact hmod
  · rw [hr.modrm, hd.modrm, hF, hG]
    exact hrm
  · have hs := hneed ▸ h
    rw [hr.sib, hd.sib, ← hr.needSib, ← hd.needSib, hneed', hneed, if_pos hs, if_pos hs, hl, hl', hsib hs]
  · rw [hr.dispBytes, hd.dispBytes, hlen, hlen']
  · rw [Decode.signedDisp, Decode.signedDisp, hr.dispBytes, hd.dispBytes, hlen, hlen']
    rcases Decode.dispSize_cases true (f 1) (f 2) with h | h | h | h
    · simp [h]
    all_goals rw [hdisp (by omega)]

/-! ## The round trip -/

/-- What `emit_push_rm` writes for the operand of an indirect call or jump decodes,
to the last byte, to a `push` of the same operand. -/
theorem pushRm_roundtrip {img : Mem} {pc : Word} {ps : List Byte} {call : Bool} {src : Operand} {next : Word}
    {ds₀ ds : Decode} {ok : Bool} (hi : NearIndirect img pc ps call src next)
    (hds : simpleDisasInsn img ds₀ pc = some (ds, ok)) (s : State) (ds₁ : Decode) :
    ∃ s' r, s.emitPushRm ds = .ok s' ∧ simpleDisasInsn s'.mem ds₁ s.codePtr = some (r, true) ∧
      r.decodeEip = s'.codePtr ∧ IsPushRm s'.mem r ∧ SameOperand ds r := by
  have hd := hi.found hds
  have hbytes := hi.pushRmBytes_eq hds none
  have hlen := length_pushRmBytes ds
  have hemit : s.emitPushRm ds = .ok (s.emit (pushRmBytes ds)) := by
    rw [emitPushRm_eq, hd.flags, if_neg (mt (has_group4_iff ps).mp hi.addrsize)]
  have hput : (s.emit (pushRmBytes ds)).mem.At s.codePtr (pushRmBytes ds) := Mem.At.put_self (by omega)
  have hptr : (s.emit (pushRmBytes ds)).codePtr = s.codePtr + BitVec.ofNat 32 (pushRmBytes ds).length := rfl
  refine ⟨s.emit (pushRmBytes ds), ?_⟩
  generalize s.emit (pushRmBytes ds) = s' at *
  generalize fetch img (pc + BitVec.ofNat 32 ps.length) = f at *
  have hn : (operand none f 1).2 = 2 + ((hasSib true (f 1)).toNat + dispSize true (f 1) (f 2)) := by
    rw [operand_length, addressLength_eq, show 1 + 1 = 2 from rfl]
    omega
  rw [hbytes, hn, Nat.add_sub_cancel_left] at hput hptr
  generalize hk : (hasSib true (f 1)).toNat + dispSize true (f 1) (f 2) = n at *
  obtain ⟨g, hg⟩ : ∃ g, g = fetch s'.mem (s.codePtr + BitVec.ofNat 32 (segBytes ps).length) := ⟨_, rfl⟩
  rw [List.append_assoc] at hput
  have hrest : ∀ k, g k = ([0xff, (f 1 &&& 0xc7) ||| 0x30] ++ (List.range n).map fun k => f (2 + k))[k]?.getD (g k) :=
    fun k => hg ▸ congrFun (fetch_eq hput.right) k
  have h₀ : g 0 = 0xff := hrest 0
  have h₁ : g 1 = (f 1 &&& 0xc7) ||| 0x30 := hrest 1
  have h₂ : ∀ k < n, g (2 + k) = f (2 + k) := by
    intro k hk
    rw [hrest, Nat.add_comm 2 k]
    simp [hk, Nat.add_comm]
  obtain ⟨hmod, hreg, hrm⟩ := modrm_push (f 1)
  rw [← h₁] at hmod hreg hrm
  have hno : ¬ isPrefix (s'.mem (s.codePtr + BitVec.ofNat 32 (segBytes ps).length)) := by
    have : s'.mem (s.codePtr + BitVec.ofNat 32 (segBytes ps).length) = 0xff := by
      rw [← h₀, hg, fetch, BitVec.add_zero]
    rw [this]
    decide +kernel
  have hleg : ∀ p ∈ group2, isPrefix p ∧ p ≠ 0x67 ∧ p ≠ 0x66 := by decide +kernel
  have ha : 0x67 ∉ segBytes ps := fun h => (hleg _ (segBytes_legacy ps _ h)).2.1 rfl
  have ho : 0x66 ∉ segBytes ps := fun h => (hleg _ (segBytes_legacy ps _ h)).2.2 rfl
  have hl : (segBytes ps).length ≤ 1 := by
    rw [segBytes]
    split <;> simp
  obtain ⟨r, ok', hdec, hr⟩ := simpleDisasInsn_eq ds₁ (fun p hp => (hleg p (segBytes_legacy ps p hp)).1) hput.left hno
    (by omega) (hg ▸ found_push h₀ hreg)
  rw [← hg] at hr
  have hok : ok' = true := by
    rw [hr.ok, accepted_pushFound]
  have hseg : r.segOverride = ds.segOverride := by
    rw [Decode.segOverride, Decode.segOverride, hr.flags, hr.group2Prefix, hd.flags, hd.group2Prefix,
      segOverride_segBytes]
  obtain ⟨hsame, hsize⟩ := sameOperand_of_decoded hd hr hi.addrsize ha rfl rfl (hasModrm_nearFound _ _)
    (hasModrm_pushFound _) rfl rfl hmod hrm (hk ▸ h₂) hseg
  refine ⟨r, hemit, hok ▸ hdec, ?_, ⟨?_, ?_, ?_⟩, hsame⟩
  · rw [hr.decodeEip, hptr, Found.size, Found.immAt, hsize, data32_of_notMem ho, immSize_pushFound]
    congr 2
    simp only [List.length_append, List.length_map, List.length_range, List.length_cons, List.length_nil]
    omega
  · rw [hr.instr, ← h₀, hg, fetch, BitVec.add_zero]
  · rw [hr.instr, hr.modrm, hg]
    rfl
  · rw [hr.modrm]
    exact hreg

/-- `call *%gs:-8(%ecx,%edx,4)` -/
def callGs : Mem := fun a =>
  if a = 0x08048000 then 0x65 else if a = 0x08048001 then 0xff else if a = 0x08048002 then 0x54
  else if a = 0x08048003 then 0x91 else if a = 0x08048004 then 0xf8 else 0x90

theorem nearIndirect_callGs : NearIndirect callGs 0x08048000 [0x65] true
    (.mem (some .gs) (some .ecx) (some (.edx, 2)) 0xfffffff8) 0x08048005 where
  prefixes := by decide
  opsize := by decide
  addrsize := by decide
  length := by decide
  placed := Mem.At.cons.mpr ⟨rfl, Mem.At.nil⟩
  opcode := rfl
  ext := rfl
  src := rfl
  next := rfl

theorem pushRm_roundtrip_callGs : ∃ ds, simpleDisasInsn callGs .zero 0x08048000 = some (ds, true) ∧
    ds.signedDisp = 0xfffffff8 ∧ ∃ s' r, atCallEax.emitPushRm ds = .ok s' ∧
      simpleDisasInsn s'.mem .zero atCallEax.codePtr = some (r, true) ∧ r.decodeEip = s'.codePtr ∧ IsPushRm s'.mem r ∧
      SameOperand ds r := by
  have hdec : (simpleDisasInsn callGs .zero 0x08048000).map (fun p => (p.2, p.1.signedDisp)) =
      some (true, 0xfffffff8) := by decide +kernel
  obtain ⟨⟨ds, ok⟩, hds, hok⟩ := Option.map_eq_some_iff.mp hdec
  obtain ⟨rfl, hdisp⟩ := Prod.mk.inj hok
  exact ⟨ds, hds, hdisp, pushRm_roundtrip nearIndirect_callGs hds _ _⟩

end Unitrans
