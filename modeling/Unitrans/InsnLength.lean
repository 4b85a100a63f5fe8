/-
The decoder and the lengths of the processor's instructions. Row by row the
tables give every opcode the operands the opcode maps give it
(`rowFits`), and the two compute the same address form (`addressLength_eq`),
so `decode_eip` ends up behind the instruction, except for `0f 3c`: there the
tables have `movnti`, which is `0f c3`, and the processor has nothing.
-/
import Unitrans.DecodeInputs
import Unitrans.X86.Length

namespace Unitrans

open X86

/-! ## The tables against the opcode maps -/

/-- The row is reserved, or it has the operands of `form`. -/
def fits (form : Option Form) (e : OpCode) (attr : Nat) : Bool :=
  has attr DF_UNDEFINED || e.ptr == .null ||
    form.any fun g => has attr (DF_MODRM ||| DF_GROUP) == g.modrm &&
      [false, true].all fun d => [false, true].all fun a => immSize attr d a == g.imm.size d a

/-- The row, or every row of its group, for its value of the `reg` field. -/
def rowFits (form : Nat → Option Form) (e : OpCode) : Bool :=
  (List.range 8).all fun r =>
    if has e.attr DF_GROUP then
      match e.ptr with
      | .table t => fits (form r) (t.row r) (e.attr ||| (t.row r).attr)
      | _ => true
    else fits (form r) e e.attr

def noImm (attr : Nat) : Bool := [false, true].all fun d => [false, true].all fun a => immSize attr d a == 0

/-- No row of an x87 table has an immediate; one for a memory operand has a ModRM byte. -/
def escapeFits (e : OpCode) : Bool :=
  match e.ptr with
  | .table t => (List.range 8).all fun r =>
    noImm (t.row r).attr && (has (t.row r).attr (DF_MODRM ||| DF_GROUP) || has (t.row r).attr DF_UNDEFINED) &&
      noImm (t.row (r + 8)).attr && match (t.row (r + 8)).ptr with
        | .table t => (List.range 8).all fun r => noImm (t.row r).attr
        | _ => true
  | _ => true

theorem oneByte_fits (b : Byte) : has (TableId.nopbyte0.row b.toNat).attr DF_TABLE ∨
    has (TableId.nopbyte0.row b.toNat).attr DF_FLOAT ∨ isPrefix b ∨
      rowFits (oneByteForm b.toNat) (TableId.nopbyte0.row b.toNat) := by
  have hrows : ∀ e ∈ DecodeTable.nopbyte0, has e.attr DF_TABLE ∨ has e.attr DF_FLOAT ∨ has e.attr DF_PREFIX ∨
      rowFits (oneByteForm e.index) e := by decide +kernel
  have := hrows _ (nopbyte0_mem b)
  rwa [nopbyte0_index] at this

theorem twoByte_fits (b : Byte) (h : b ≠ 0x3c) :
    rowFits (fun _ => formOf twoByteMap b.toNat) (TableId.twoByteOpcodes.row b.toNat) := by
  have hrows : ∀ e ∈ DecodeTable.twoByteOpcodes, e.index = 0x3c ∨
      rowFits (fun _ => formOf twoByteMap e.index) e := by decide +kernel
  have := hrows _ (twoByteOpcodes_mem b)
  rw [twoByteOpcodes_index] at this
  exact this.resolve_left fun he => h (BitVec.eq_of_toNat_eq he)

theorem escape_fits (b : Byte) (h : has (TableId.nopbyte0.row b.toNat).attr DF_FLOAT) :
    escapeFits (TableId.nopbyte0.row b.toNat) ∧ ∀ r < 8, oneByteForm b.toNat r = some ⟨true, .none⟩ := by
  have hrows : ∀ e ∈ DecodeTable.nopbyte0, has e.attr DF_FLOAT →
      escapeFits e ∧ ∀ r < 8, oneByteForm e.index r = some ⟨true, .none⟩ := by decide +kernel
  have := hrows _ (nopbyte0_mem b) h
  rwa [nopbyte0_index] at this

theorem noImm_iff {attr : Nat} : noImm attr ↔ ∀ d a, immSize attr d a = 0 := by
  simp [noImm]

/-! ## The address form -/

theorem addressBytes_eq (a32 : Bool) (mod : BitVec 2) (rm base : BitVec 3) : addressBytes a32 mod rm base =
    1 + (a32 && mod != 3 && rm == 4).toNat +
      if (a32 && mod != 3 && rm == 4) ∧ base = 5 ∧ mod = 0 then 4
      else if a32 then if mod = 0 ∧ rm = 5 then 4 else if mod = 1 then 1 else if mod = 2 then 4 else 0
      else if mod = 0 ∧ rm = 6 then 2 else if mod = 1 then 1 else if mod = 2 then 2 else 0 := by
  revert mod rm base
  cases a32 <;> decide +kernel

theorem addressLength_eq (a32 : Bool) (m sib : Byte) :
    addressLength a32 m sib = 1 + (hasSib a32 m).toNat + dispSize a32 m sib :=
  addressBytes_eq a32 (mod m) (rm m) (rm sib)

theorem addressLength_register {a32 : Bool} {m : Byte} (sib : Byte) (h : mod m = 3) :
    addressLength a32 m sib = 1 := if_pos h

theorem has_attr_or (a b f : Nat) : has (a ||| b) f = (has a f || has b f) := by
  have hcomm : ∀ x y, has x y = has y x := fun x y => by rw [has, has, Nat.and_comm]
  rw [hcomm, has_or, hcomm f a, hcomm f b]

/-! ## What is found, against its form -/

/-- With its address form `F` ends where `k` bytes of opcode and the operands of `g` end. -/
structure Fit (f : Nat → Byte) (F : Found) (k : Nat) (g : Form) : Prop where
  immAt : ∀ ps, F.immAt ps f = k + if g.modrm then addressLength (addr32 ps) (f k) (f (k + 1)) else 0
  imm : ∀ d a, immSize F.attr d a = g.imm.size d a

/-- What is found is an instruction. -/
def Found.defined (F : Found) : Bool := !has F.attr DF_UNDEFINED && F.entry.ptr != .null

theorem fits_iff {o : Option Form} {e : OpCode} {attr : Nat} (hdef : !has attr DF_UNDEFINED && e.ptr != .null) :
    fits o e attr ↔ ∃ g, o = some g ∧ has attr (DF_MODRM ||| DF_GROUP) = g.modrm ∧
      ∀ d a, immSize attr d a = g.imm.size d a := by
  simp only [Bool.and_eq_true, Bool.not_eq_true', bne_iff_ne] at hdef
  cases o <;> simp [fits, hdef.1, hdef.2]

theorem Fit.of_modrm {f : Nat → Byte} {F : Found} {k : Nat} {g : Form} (hk : F.len = k + g.modrm.toNat)
    (hm : F.hasModrm = g.modrm) (hb : g.modrm → F.m = f k) (himm : ∀ d a, immSize F.attr d a = g.imm.size d a) :
    Fit f F k g := by
  refine ⟨fun ps => ?_, himm⟩
  simp only [Found.immAt, Found.dispAt, Found.dispLen, Found.needSib, hm, hk]
  cases hg : g.modrm with
  | true =>
    rw [hb hg]
    simp only [Bool.true_and, if_true, addressLength_eq, Bool.toNat_true]
    omega
  | false => simp

theorem groupFound_fit {form : Nat → Option Form} {f : Nat → Byte} {e : OpCode} {k : Nat} {last : Byte} {F : Found}
    (hfit : rowFits form e) (h : groupFound f e k last = some F) (hdef : F.defined) :
    ∃ g, form (reg (f k)).toNat = some g ∧ Fit f F k g := by
  have hr := List.all_eq_true.mp hfit (reg (f k)).toNat (List.mem_range.mpr (reg (f k)).isLt)
  rw [groupFound] at h
  split at h
  · rename_i hmodrm
    split at h
    · rename_i hgroup
      rw [if_pos hgroup] at hr
      split at h
      · rename_i t hptr
        rw [hptr] at hr
        obtain rfl := Option.some.inj h
        obtain ⟨g, hg, hm, himm⟩ := (fits_iff hdef).mp hr
        have htrue : g.modrm = true := by
          rw [← hm, has_attr_or, hmodrm, Bool.true_or]
        exact ⟨g, hg, .of_modrm (by simp [htrue]) hm (fun _ => rfl) himm⟩
      · cases h
    · rename_i hgroup
      rw [if_neg hgroup] at hr
      obtain rfl := Option.some.inj h
      obtain ⟨g, hg, hm, himm⟩ := (fits_iff hdef).mp hr
      have htrue : g.modrm = true := hm ▸ hmodrm
      exact ⟨g, hg, .of_modrm (by simp [htrue]) hm (fun _ => rfl) himm⟩
  · rename_i hmodrm
    have hgroup : ¬ has e.attr DF_GROUP := by
      rw [has_or, Bool.or_eq_true, not_or] at hmodrm
      exact hmodrm.2
    rw [if_neg hgroup] at hr
    obtain rfl := Option.some.inj h
    obtain ⟨g, hg, hm, himm⟩ := (fits_iff hdef).mp hr
    have hfalse : g.modrm = false := by
      rw [← hm]
      exact Bool.eq_false_iff.mpr hmodrm
    exact ⟨g, hg, .of_modrm (by simp [hfalse]) hm (by simp [hfalse]) himm⟩

theorem escapeRow_fit {e : OpCode} {t : TableId} {f : Nat → Byte} {k : Nat} {e' : OpCode} {F : Found}
    (hfit : escapeFits e) (hptr : e.ptr = .table t) (he : escapeRow t (f k) = some e')
    (hF : F = ⟨e', e'.attr, k + 1, f k, f k⟩) (hdef : F.defined) : Fit f F k ⟨true, .none⟩ := by
  simp only [escapeFits, hptr] at hfit
  have hr := List.all_eq_true.mp hfit (reg (f k)).toNat (List.mem_range.mpr (reg (f k)).isLt)
  simp only [Bool.and_eq_true, Bool.or_eq_true] at hr
  obtain ⟨⟨⟨hmem, hmodrm⟩, hreg⟩, hmore⟩ := hr
  rw [escapeRow] at he
  by_cases hmod : mod (f k) = 3
  · have hsib : ∀ a, hasSib a (f k) = false := fun a => by simp [hasSib, hmod]
    have hdisp : ∀ a b, dispSize a (f k) b = 0 := fun a b => by simp [dispSize, hsib, dispOf, hmod]
    have himm : noImm e'.attr := by
      rw [if_pos hmod] at he
      split at he
      · split at he
        · rename_i hptr'
          rw [hptr'] at hmore
          obtain rfl := Option.some.inj he
          exact List.all_eq_true.mp hmore _ (List.mem_range.mpr (rm (f k)).isLt)
        · cases he
      · obtain rfl := Option.some.inj he
        exact hreg
    subst hF
    refine ⟨fun ps => ?_, fun d a => noImm_iff.mp himm d a⟩
    have hm : Found.m ⟨e', e'.attr, k + 1, f k, f k⟩ = f k := rfl
    simp only [Found.immAt, Found.dispAt, Found.dispLen, Found.needSib, hm, hsib, hdisp, ite_self, Bool.and_false,
      Bool.toNat_false, if_true, addressLength_register _ hmod]
  · rw [if_neg hmod] at he
    obtain rfl := Option.some.inj he
    subst hF
    have hdef' : has (t.row (reg (f k)).toNat).attr DF_UNDEFINED = false := by
      simp only [Found.defined, Bool.and_eq_true, Bool.not_eq_true'] at hdef
      exact hdef.1
    refine .of_modrm rfl ?_ (fun _ => rfl) fun d a => noImm_iff.mp hmem d a
    exact hmodrm.resolve_right (by rw [hdef']; decide)

theorem foundAt_fit {form : Nat → Option Form} {f : Nat → Byte} {e : OpCode} {k : Nat} {last : Byte} {F : Found}
    (hfit : has e.attr DF_FLOAT = false → rowFits form e)
    (hesc : has e.attr DF_FLOAT → escapeFits e ∧ ∀ r < 8, form r = some ⟨true, .none⟩)
    (h : foundAt f e k last = some F) (hdef : F.defined) :
    ∃ g, form (reg (f k)).toNat = some g ∧ Fit f F k g := by
  rw [foundAt] at h
  split at h
  · rename_i hfloat
    obtain ⟨hrow, hform⟩ := hesc hfloat
    split at h
    · rename_i t hptr
      obtain ⟨e', he, hF⟩ := Option.map_eq_some_iff.mp h
      exact ⟨_, hform _ (reg (f k)).isLt, escapeRow_fit hrow hptr he hF.symm hdef⟩
    · cases h
  · rename_i hfloat
    exact groupFound_fit (hfit (Bool.eq_false_iff.mpr hfloat)) h hdef

/-- The opcode `0f 3c`. -/
def isMisplaced (f : Nat → Byte) : Prop := f 0 = 0x0f ∧ f 1 = 0x3c

theorem table_iff (b : Byte) : has (TableId.nopbyte0.row b.toNat).attr DF_TABLE ↔ b = 0x0f := by
  have hrows : ∀ e ∈ DecodeTable.nopbyte0, has e.attr DF_TABLE ↔ e.index = 0x0f := by decide +kernel
  rw [hrows _ (nopbyte0_mem b), nopbyte0_index]
  exact (BitVec.toNat_inj (x := b) (y := 0x0f#8))

/-- What the decoder finds is what the opcode maps say. -/
theorem found_fit {f : Nat → Byte} {F : Found} (h : found f = some F) (hdef : F.defined) (hp : ¬ isPrefix (f 0))
    (hvex : isVex f = false) (hmis : ¬ isMisplaced f) : ∃ k g, opcodeForm f = some (k, g) ∧ Fit f F k g := by
  rw [found] at h
  by_cases htwo : f 0 = 0x0f
  · rw [if_pos ((table_iff _).mpr htwo)] at h
    obtain ⟨g, hg, hfit⟩ := foundAt_fit (fun _ => twoByte_fits (f 1) fun he => hmis ⟨htwo, he⟩)
      (fun hf => absurd hf (twoByte_row _).2) h hdef
    exact ⟨2, g, by simp [opcodeForm, hvex, htwo, hg], hfit⟩
  · have htable : ¬ has (TableId.nopbyte0.row (f 0).toNat).attr DF_TABLE := fun ht => htwo ((table_iff _).mp ht)
    rw [if_neg htable] at h
    have hrow : has (TableId.nopbyte0.row (f 0).toNat).attr DF_FLOAT = false →
        rowFits (oneByteForm (f 0).toNat) (TableId.nopbyte0.row (f 0).toNat) := fun hf => by
      rcases oneByte_fits (f 0) with ht | hf' | hp' | hfit
      · exact absurd ht htable
      · rw [hf] at hf'
        cases hf'
      · exact absurd hp' hp
      · exact hfit
    obtain ⟨g, hg, hfit⟩ := foundAt_fit hrow (escape_fits (f 0)) h hdef
    refine ⟨1, g, ?_, hfit⟩
    have hreg : (fields (f 1)).2.1.toNat = (reg (f 1)).toNat := rfl
    rw [opcodeForm, if_neg (Bool.eq_false_iff.mp hvex), if_neg htwo, hreg, hg]
    rfl

theorem opcodeForm_misplaced {f : Nat → Byte} (h : isMisplaced f) : opcodeForm f = none := by
  have hnone : formOf twoByteMap (f 1).toNat = none := by
    rw [h.2]
    decide +kernel
  rw [opcodeForm, if_pos h.1, hnone]
  split <;> rfl

/-! ## The prefixes -/

/-- The prefixes `ps`, none of them twice, and then an opcode. -/
structure PrefixesAt (img : Mem) (pc : Word) (ps : List Byte) : Prop where
  prefixes : ∀ p ∈ ps, isPrefix p
  nodup : ps.Nodup
  bytes : img.At pc ps
  opcode : ¬ isPrefix (img (pc + BitVec.ofNat 32 ps.length))

theorem isPrefix_iff_legacy (b : Byte) : isPrefix b ↔ b ∈ legacyPrefixes := by
  rw [isPrefix_iff, legacyPrefixes]
  simp only [List.mem_cons, List.not_mem_nil, or_false]
  tauto

namespace PrefixesAt

variable {img : Mem} {pc : Word} {ps : List Byte}

theorem length_le (h : PrefixesAt img pc ps) : ps.length ≤ 11 :=
  (List.subperm_of_subset h.nodup fun p hp => (isPrefix_iff_legacy p).mp (h.prefixes p hp)).length_le

theorem sizes (h : PrefixesAt img pc ps) : data32 ps = decide (0x66 ∉ ps) ∧ addr32 ps = decide (0x67 ∉ ps) := by
  have hcount : ∀ b : Byte, (ps.count b % 2 == 0) = decide (b ∉ ps) := fun b => by
    have hle := List.nodup_iff_count_le_one.mp h.nodup b
    by_cases hb : b ∈ ps
    · have := List.count_pos_iff.mpr hb
      simp [hb, show ps.count b = 1 by omega]
    · simp [hb, List.count_eq_zero.mpr hb]
  exact ⟨hcount _, hcount _⟩

theorem prefixesOf_eq (h : PrefixesAt img pc ps) : prefixesOf (fetch img pc) = ps := by
  obtain ⟨n, hn⟩ : ∃ n, 15 = ps.length + (n + 1) := ⟨14 - ps.length, by have := h.length_le; omega⟩
  have hps : (List.range ps.length).map (fetch img pc) = ps := by
    refine List.ext_getElem (by simp) fun i hi hi' => ?_
    simpa [fetch] using h.bytes i hi'
  have hstop : ¬ fetch img pc ps.length ∈ legacyPrefixes := (isPrefix_iff_legacy _).not.mp h.opcode
  rw [prefixesOf, hn, List.range_add, List.map_append, hps, List.takeWhile_append_of_pos, List.range_succ_eq_map]
  · simp [hstop]
  · intro p hp
    simpa using (isPrefix_iff_legacy p).mp (h.prefixes p hp)

end PrefixesAt

/-! ## Lengths -/

theorem immSize_le (attr : Nat) (d a : Bool) : immSize attr d a ≤ 17 := by
  have hap : apLen attr ≤ 2 := by
    rw [apLen]
    split <;> omega
  have := apAt_le attr d a
  rw [immSize]
  omega

/-- For every instruction the tables define, except those at `0f 3c`, the decoder ends where the instruction ends. -/
theorem simpleDisasInsn_length (ds : Decode) {img : Mem} {pc : Word} {ps : List Byte} (h : PrefixesAt img pc ps)
    (hmov : movesControl (fetch img (pc + BitVec.ofNat 32 ps.length)) = false)
    (hvex : isVex (fetch img (pc + BitVec.ofNat 32 ps.length)) = false) :
    ∃ r ok, simpleDisasInsn img ds pc = some (r, ok) ∧
      (ok → (insnLength (fetch img pc) = some (r.decodeEip - pc).toNat ↔
        ¬ isMisplaced (fetch img (pc + BitVec.ofNat 32 ps.length)))) := by
  have hlen := h.length_le
  obtain ⟨F, r, ok, hF, hr, hdec⟩ := exists_simpleDisasInsn ds h.prefixes h.bytes h.opcode (by omega)
  refine ⟨r, ok, hr, fun hok => ?_⟩
  rw [hdec.ok] at hok
  set f := fetch img (pc + BitVec.ofNat 32 ps.length) with hf
  have hstream : (fun i => fetch img pc (ps.length + i)) = f := by
    funext i
    simp [hf, fetch, BitVec.ofNat_add, BitVec.add_assoc]
  have hinsn : insnLength (fetch img pc) = (opcodeLength (data32 ps) (addr32 ps) f).map (ps.length + ·) := by
    rw [insnLength]
    simp only [h.prefixesOf_eq, hstream, h.sizes]
  rw [hinsn, opcodeLength]
  by_cases hmis : isMisplaced f
  · simp [opcodeForm_misplaced hmis, hmis]
  · obtain ⟨k, g, hg, hfit⟩ := found_fit hF hok (by simpa [hf, fetch] using h.opcode) hvex hmis
    have hsize : F.size ps f ≤ 25 := by
      have := Found.immAt_le ps f (found_len hF).2
      have := immSize_le F.attr (data32 ps) (addr32 ps)
      rw [Found.size]
      omega
    have hdist : (r.decodeEip - pc).toNat = ps.length + F.size ps f := by
      rw [hdec.decodeEip]
      bv_omega
    simp only [hg, hmov, Option.map_some, hdist, Found.size, hfit.immAt, hfit.imm, hmis, Bool.false_eq_true, if_false,
      not_false_eq_true]

theorem simpleDisasInsn_length_sample : ∃ r ok, simpleDisasInsn (prefixedAdd [0x66]) .zero 0 = some (r, ok) ∧
    (ok → insnLength (fetch (prefixedAdd [0x66]) 0) = some (r.decodeEip - 0).toNat) := by
  have h : PrefixesAt (prefixedAdd [0x66]) 0 [0x66] :=
    ⟨by decide +kernel, by decide, Mem.At.put_self (by decide), by decide +kernel⟩
  obtain ⟨r, ok, hr, hlen⟩ := simpleDisasInsn_length .zero h (by decide +kernel) (by decide +kernel)
  have hmis : ¬ isMisplaced (fetch (prefixedAdd [0x66]) (0 + BitVec.ofNat 32 [(0x66 : Byte)].length)) := by
    rw [isMisplaced]
    decide +kernel
  exact ⟨r, ok, hr, fun hok => (hlen hok).mpr hmis⟩

/-- `0f 3c c0` at address 0. -/
def misplaced : Mem := Mem.put (fun _ => 0xc0) 0 [0x0f, 0x3c]

/-- The tables define `0f 3c c0`, the processor does not. -/
theorem not_insnLength : ¬ ∀ (img : Mem) (ds r : Decode) (pc : Word) (ps : List Byte), PrefixesAt img pc ps →
    movesControl (fetch img (pc + BitVec.ofNat 32 ps.length)) = false →
      isVex (fetch img (pc + BitVec.ofNat 32 ps.length)) = false →
        simpleDisasInsn img ds pc = some (r, true) → insnLength (fetch img pc) = some (r.decodeEip - pc).toNat := by
  intro h
  have hat : PrefixesAt misplaced 0 [] := ⟨by simp, by simp, Mem.At.nil, by decide +kernel⟩
  obtain ⟨F, r, ok, hF, hr, hdec⟩ := exists_simpleDisasInsn .zero hat.prefixes hat.bytes hat.opcode (by decide)
  have hdef : (found (fetch misplaced 0)).all Found.defined := by decide +kernel
  obtain rfl : ok = true := by
    have hF' : found (fetch misplaced 0) = some F := hF
    rw [hF'] at hdef
    rw [hdec.ok]
    exact hdef
  have hlen := h _ _ _ _ _ hat (by decide +kernel) (by decide +kernel) hr
  have hnone : insnLength (fetch misplaced 0) = none := by decide +kernel
  rw [hnone] at hlen
  cases hlen

end Unitrans
