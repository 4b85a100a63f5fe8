/-
What the decoder's answer depends on: it always has one once the prefixes end,
the bytes after them matter only as far as the instruction reaches, of the
prefixes the set and the parity of `66` and of `67` (`sameDecoding_iff`), and
the byte after the instruction is read as well (`not_fetchesOnly`).
-/
import Unitrans.DecodeFacts

namespace Unitrans

open X86

/-! ## There is an answer -/

theorem group_rows {e : OpCode} (h : e ∈ DecodeTable.nopbyte0 ∨ e ∈ DecodeTable.twoByteOpcodes) :
    has e.attr DF_GROUP → ∃ t, e.ptr = .table t := by
  have hrows : ∀ e ∈ DecodeTable.nopbyte0 ++ DecodeTable.twoByteOpcodes, has e.attr DF_GROUP →
      e.ptr ∈ [.table .group1EbIb, .table .group1EvIv, .table .group1EvIb, .table .group2aEbIb, .table .group2aEvIb,
        .table .group2Eb1, .table .group2Ev1, .table .group2EbCL, .table .group2EvCL, .table .group3b,
        .table .group3v, .table .ngroup4, .table .ngroup5, .table .ngroup6, .table .ngroup7, .table .group8EvIb,
        .table .ngroup9] := by decide +kernel
  intro hG
  have := hrows e (List.mem_append.mpr h) hG
  cases hp : e.ptr with
  | table t => exact ⟨t, rfl⟩
  | null => simp [hp] at this
  | fn f => simp [hp] at this

theorem exists_found (f : Nat → Byte) : ∃ F, found f = some F := by
  have hat : ∀ {e : OpCode} {k : Nat} {last : Byte}, e ∈ DecodeTable.nopbyte0 ∨ e ∈ DecodeTable.twoByteOpcodes →
      (has e.attr DF_FLOAT → e.ptr.isFloat) → ∃ F, foundAt f e k last = some F := by
    intro e k last he hfl
    rw [foundAt]
    split
    · rename_i hF
      obtain ⟨t, hptr, ht⟩ := Ptr.exists_of_isFloat (hfl hF)
      obtain ⟨e', he', -⟩ := exists_escapeRow ht (f k)
      simp only [hptr, he']
      exact ⟨_, rfl⟩
    · rw [groupFound]
      split
      · split
        · rename_i hG
          obtain ⟨t, hptr⟩ := group_rows he hG
          rw [hptr]
          exact ⟨_, rfl⟩
        · exact ⟨_, rfl⟩
      · exact ⟨_, rfl⟩
  rw [found]
  split
  · exact hat (Or.inr (twoByteOpcodes_mem _)) fun h => absurd h (twoByte_row _).2
  · exact hat (Or.inl (nopbyte0_mem _)) (float_row _)

/-- The decoder returns if and only if the prefixes end. -/
theorem exists_simpleDisasInsn {img : Mem} {pc : Word} {ps : List Byte} (ds : Decode) (hp : ∀ p ∈ ps, isPrefix p)
    (hat : img.At pc ps) (hn : ¬ isPrefix (img (pc + BitVec.ofNat 32 ps.length))) (hl : ps.length < 2 ^ 32) :
    ∃ F r ok, found (fetch img (pc + BitVec.ofNat 32 ps.length)) = some F ∧
      simpleDisasInsn img ds pc = some (r, ok) ∧
      Decoded img ds pc ps (fetch img (pc + BitVec.ofNat 32 ps.length)) F r ok := by
  obtain ⟨F, hF⟩ := exists_found (fetch img (pc + BitVec.ofNat 32 ps.length))
  obtain ⟨r, ok, h⟩ := simpleDisasInsn_eq ds hp hat hn hl hF
  exact ⟨F, r, ok, hF, h⟩

/-! ## The bytes after the prefixes -/

theorem found_len {f : Nat → Byte} {F : Found} (h : found f = some F) : 0 < F.len ∧ F.len ≤ 3 := by
  have hat : ∀ {e k last}, 0 < k → foundAt f e k last = some F → 0 < F.len ∧ F.len ≤ k + 1 := by
    intro e k last hk h
    rw [foundAt, groupFound] at h
    split at h
    · split at h
      · obtain ⟨e', -, rfl⟩ := Option.map_eq_some_iff.mp h
        simp
      · cases h
    · split at h
      · split at h
        · split at h
          · obtain rfl := Option.some.inj h
            simp
          · cases h
        · obtain rfl := Option.some.inj h
          simp
      · obtain rfl := Option.some.inj h
        simp [hk]
  rw [found] at h
  split at h
  · exact hat (by decide) h
  · have := hat (by decide) h
    omega

theorem found_congr {f g : Nat → Byte} (h : ∀ k < 32, f k = g k) : found f = found g := by
  simp only [found, foundAt, groupFound, h 0 (by decide), h 1 (by decide), h 2 (by decide)]

theorem numAt_congr {f g : Nat → Byte} {k n : Nat} (h : ∀ i < k + 4, f i = g i) : numAt f k n = numAt g k n := by
  simp only [numAt, h k (by omega), h (k + 1) (by omega), h (k + 2) (by omega), h (k + 3) (by omega)]

namespace Found

variable {F : Found} {ps : List Byte} {f g : Nat → Byte}

theorem dispAt_le (ps : List Byte) (h : F.len ≤ 3) : F.dispAt ps ≤ 4 := by
  simp only [dispAt]
  have := Bool.toNat_le (F.needSib ps)
  omega

theorem immAt_le (ps : List Byte) (f : Nat → Byte) (h : F.len ≤ 3) : F.immAt ps f ≤ 8 := by
  have hd := dispAt_le ps h
  have hn := Decode.dispSize_cases (addr32 ps) F.m (f F.len)
  simp only [immAt, dispLen]
  split <;> omega

theorem dispLen_congr (hl : F.len ≤ 3) (h : ∀ k < 32, f k = g k) : F.dispLen ps f = F.dispLen ps g := by
  rw [dispLen, dispLen, h F.len (by omega)]

end Found

theorem apAt_le (attr : Nat) (d32 a32 : Bool) : apAt attr d32 a32 ≤ 15 := by
  simp only [apAt, jvAt, ovAt, ivAt, ibAt, iwLen, ibLen, ivLen, ovLen, jvLen]
  split_ifs <;> omega

theorem immediateOf_congr {f g : Nat → Byte} (attr : Nat) (d32 a32 : Bool) (h : ∀ k < 24, f k = g k) :
    immediateOf attr d32 a32 f = immediateOf attr d32 a32 g := by
  have hap := apAt_le attr d32 a32
  have hjv : jvAt attr d32 a32 ≤ 15 := (Nat.le_add_right _ _).trans hap
  have hov : ovAt attr d32 ≤ 15 := (Nat.le_add_right _ _).trans hjv
  have hiv : ivAt attr ≤ 15 := (Nat.le_add_right _ _).trans hov
  have hib : ibAt attr ≤ 15 := (Nat.le_add_right _ _).trans hiv
  simp only [immediateOf]
  rw [numAt_congr fun i hi => h i (by omega), numAt_congr (k := ovAt attr d32) fun i hi => h i (by omega),
    numAt_congr (k := ivAt attr) fun i hi => h i (by omega), h _ (by omega)]

theorem imm16Of_congr {f g : Nat → Byte} (attr : Nat) (d32 a32 : Bool) (h : ∀ k < 24, f k = g k) :
    imm16Of attr d32 a32 f = imm16Of attr d32 a32 g := by
  have hap := apAt_le attr d32 a32
  simp only [imm16Of]
  rw [numAt_congr fun i hi => h i (by omega), numAt_congr (k := 0) fun i hi => h i (by omega)]

/-! ## Repeated and permuted prefixes -/

/-- The same prefixes but for their order and number; of several segment overrides the last one counts. -/
structure SamePrefixes (ps qs : List Byte) : Prop where
  left : ∀ p ∈ ps, isPrefix p
  right : ∀ p ∈ qs, isPrefix p
  mem : ∀ p, p ∈ ps ↔ p ∈ qs
  segment : (ps.filter (· ∈ group2)).getLast? = (qs.filter (· ∈ group2)).getLast?

/-- Two instructions read as the same one: `r` and `r'` agree on everything but where they lie. -/
structure SameDecoding (r r' : Decode) : Prop where
  opstate : r.opstate = r'.opstate
  length : r.decodeEip - r.instr = r'.decodeEip - r'.instr
  attr : r.attr = r'.attr
  flags : r.flags = r'.flags
  group2Prefix : r.group2Prefix = r'.group2Prefix
  emitfn : r.emitfn = r'.emitfn
  pEntry : r.pEntry = r'.pEntry
  modrm : r.modrm = r'.modrm
  needSib : r.needSib = r'.needSib
  sib : r.sib = r'.sib
  dispBytes : r.dispBytes = r'.dispBytes
  displacement : r.displacement = r'.displacement
  immediate : r.immediate = r'.immediate
  imm16 : r.imm16 = r'.imm16

theorem group2Of_eq (ps : List Byte) : group2Of ps = (ps.filter (· ∈ group2)).getLast?.getD 0 := by
  induction ps using List.reverseRecOn with
  | nil => rfl
  | append_singleton ps p ih =>
    have hstep : group2Of (ps ++ [p]) = if p ∈ group2 then p else group2Of ps := by simp [group2Of]
    rw [hstep, ih]
    by_cases h : p ∈ group2 <;> simp [h]

theorem testBit_flagsOf (ps : List Byte) (i : Nat) :
    (flagsOf ps).testBit i = ps.any fun p => (flagOf p).testBit i := by
  induction ps using List.reverseRecOn with
  | nil => simp [flagsOf]
  | append_singleton ps p ih =>
    have hstep : flagsOf (ps ++ [p]) = flagsOf ps ||| flagOf p := by simp [flagsOf]
    rw [hstep, Nat.testBit_or, ih]
    simp

/-- The flag of the prefix `67`. -/
theorem has_group4_iff (ps : List Byte) : has (flagsOf ps) DSFL_GROUP4_PREFIX ↔ 0x67 ∈ ps := by
  have hand : flagsOf ps &&& DSFL_GROUP4_PREFIX = if (flagsOf ps).testBit 3 then 2 ^ 3 else 0 := by
    apply Nat.eq_of_testBit_eq
    intro i
    rw [Nat.testBit_and, show DSFL_GROUP4_PREFIX = 2 ^ 3 from rfl]
    by_cases h : (flagsOf ps).testBit 3
    · rw [if_pos h, Nat.testBit_two_pow]
      by_cases hi : 3 = i
      · rw [← hi, h]
        rfl
      · simp [hi]
    · rw [if_neg h, Nat.testBit_two_pow, Nat.zero_testBit]
      by_cases hi : 3 = i
      · rw [← hi, Bool.eq_false_of_not_eq_true h]
        rfl
      · simp [hi]
  have hbit : ∀ p : Byte, (flagOf p).testBit 3 ↔ p = 0x67 := by decide +kernel
  have hany : (flagsOf ps).testBit 3 ↔ 0x67 ∈ ps := by
    rw [testBit_flagsOf, List.any_eq_true]
    simp only [hbit, exists_eq_right]
  rw [← hany, has, hand]
  cases (flagsOf ps).testBit 3 <;> decide

theorem SamePrefixes.flagsOf {ps qs : List Byte} (h : SamePrefixes ps qs) : flagsOf ps = flagsOf qs := by
  apply Nat.eq_of_testBit_eq
  intro i
  rw [testBit_flagsOf, testBit_flagsOf, Bool.eq_iff_iff, List.any_eq_true, List.any_eq_true]
  simp only [h.mem]

theorem SamePrefixes.group2Of {ps qs : List Byte} (h : SamePrefixes ps qs) : group2Of ps = group2Of qs := by
  rw [group2Of_eq, group2Of_eq, h.segment]

theorem opstateOf_inj {ps qs : List Byte} (h : opstateOf ps = opstateOf qs) :
    data32 ps = data32 qs ∧ addr32 ps = addr32 qs := by
  rw [← (has_opstateOf ps).1, ← (has_opstateOf ps).2, h, (has_opstateOf qs).1, (has_opstateOf qs).2]
  exact ⟨rfl, rfl⟩

theorem even_eq_iff (m n : Nat) : (m % 2 == 0) = (n % 2 == 0) ↔ m % 2 = n % 2 := by
  rcases Nat.mod_two_eq_zero_or_one m with h | h <;> rcases Nat.mod_two_eq_zero_or_one n with h' | h' <;> simp [h, h']

/-- The rest of the instruction decides the same once the two sizes are the same. -/
theorem Decoded.same {img img' : Mem} {ds r r' : Decode} {pc pc' : Word} {ps qs : List Byte} {f g : Nat → Byte}
    {F : Found} {ok ok' : Bool} (h : Decoded img ds pc ps f F r ok) (h' : Decoded img' ds pc' qs g F r' ok')
    (hF : found f = some F) (hpq : SamePrefixes ps qs) (hfg : ∀ k < 32, f k = g k) (hd : data32 ps = data32 qs)
    (ha : addr32 ps = addr32 qs) : SameDecoding r r' := by
  have hl := (found_len hF).2
  have hsib : F.needSib ps = F.needSib qs := by rw [Found.needSib, Found.needSib, ha]
  have hdispAt : F.dispAt ps = F.dispAt qs := by rw [Found.dispAt, Found.dispAt, hsib]
  have hdispLen : F.dispLen ps f = F.dispLen qs g := by
    rw [Found.dispLen_congr hl hfg, Found.dispLen, Found.dispLen, ha]
  have himmAt : F.immAt ps f = F.immAt qs g := by rw [Found.immAt, Found.immAt, hdispAt, hdispLen]
  have hsize : F.size ps f = F.size qs g := by rw [Found.size, Found.size, himmAt, hd, ha]
  have himm : ∀ k < 24, f (F.immAt qs g + k) = g (F.immAt qs g + k) := fun k hk => by
    have := Found.immAt_le qs g hl
    exact hfg _ (by omega)
  have hdisp := Found.dispAt_le qs hl
  constructor
  case opstate => rw [h.opstate, h'.opstate, opstateOf_eq, opstateOf_eq, hd, ha]
  case length =>
    rw [h.decodeEip, h.instr, h'.decodeEip, h'.instr, hsize, BitVec.ofNat_add, BitVec.ofNat_add]
    ring
  case attr => rw [h.attr, h'.attr]
  case flags => rw [h.flags, h'.flags, hpq.flagsOf]
  case group2Prefix => rw [h.group2Prefix, h'.group2Prefix, hpq.group2Of]
  case emitfn => rw [h.emitfn, h'.emitfn]
  case pEntry => rw [h.pEntry, h'.pEntry]
  case modrm => rw [h.modrm, h'.modrm]
  case needSib => rw [h.needSib, h'.needSib, hsib]
  case sib => rw [h.sib, h'.sib, hsib, hfg _ (by omega)]
  case dispBytes => rw [h.dispBytes, h'.dispBytes, hdispLen]
  case displacement =>
    rw [h.displacement, h'.displacement, hdispLen, hdispAt, numAt_congr fun i hi => hfg i (by omega)]
  case immediate =>
    rw [h.immediate, h'.immediate, Found.immediate, Found.immediate, himmAt, hd, ha, immediateOf_congr _ _ _ himm]
  case imm16 => rw [h.imm16, h'.imm16, Found.imm16, Found.imm16, himmAt, hd, ha, imm16Of_congr _ _ _ himm]

/-- The same instruction behind two sequences of the same prefixes. -/
structure SameInsn (img img' : Mem) (pc pc' : Word) (ps qs : List Byte) : Prop where
  prefixes : SamePrefixes ps qs
  left : img.At pc ps
  right : img'.At pc' qs
  length_left : ps.length < 2 ^ 32
  length_right : qs.length < 2 ^ 32
  opcode : ¬ isPrefix (img (pc + BitVec.ofNat 32 ps.length))
  rest : ∀ k < 32, fetch img (pc + BitVec.ofNat 32 ps.length) k = fetch img' (pc' + BitVec.ofNat 32 qs.length) k

/-- Both are decoded, and decoded alike if and only if `66` and `67` occur as often in the one
sequence as in the other, modulo two. -/
theorem sameDecoding_iff {img img' : Mem} {pc pc' : Word} {ps qs : List Byte} (ds : Decode)
    (h : SameInsn img img' pc pc' ps qs) :
    ∃ r ok r' ok', simpleDisasInsn img ds pc = some (r, ok) ∧ simpleDisasInsn img' ds pc' = some (r', ok') ∧
      ok = ok' ∧ (SameDecoding r r' ↔
        ps.count 0x66 % 2 = qs.count 0x66 % 2 ∧ ps.count 0x67 % 2 = qs.count 0x67 % 2) := by
  have hop : img (pc + BitVec.ofNat 32 ps.length) = img' (pc' + BitVec.ofNat 32 qs.length) := by
    simpa [fetch] using h.rest 0 (by decide)
  obtain ⟨F, r, ok, hF, hr, hdec⟩ := exists_simpleDisasInsn ds h.prefixes.left h.left h.opcode h.length_left
  obtain ⟨F', r', ok', hF', hr', hdec'⟩ :=
    exists_simpleDisasInsn ds h.prefixes.right h.right (hop ▸ h.opcode) h.length_right
  obtain rfl : F = F' := by
    rw [found_congr h.rest, hF'] at hF
    exact (Option.some.inj hF).symm
  refine ⟨r, ok, r', ok', hr, hr', by rw [hdec.ok, hdec'.ok], fun hsame => ?_, fun heven => ?_⟩
  · have hops := hsame.opstate
    rw [hdec.opstate, hdec'.opstate] at hops
    obtain ⟨hd, ha⟩ := opstateOf_inj hops
    exact ⟨(even_eq_iff _ _).mp hd, (even_eq_iff _ _).mp ha⟩
  · exact hdec.same hdec' hF h.prefixes h.rest ((even_eq_iff _ _).mpr heven.1) ((even_eq_iff _ _).mpr heven.2)

/-- A `decode_t` of zeros. -/
def Decode.zero : Decode where
  decodeEip := 0
  instr := 0
  pInstr := 0
  attr := 0
  group2Prefix := 0
  group4Prefix := 0
  flags := 0
  emitfn := .null
  pEntry := noRow
  b := 0
  opstate := 0
  modrm := 0
  needSib := false
  sib := 0
  dispBytes := 0
  displacement := 0
  immediate := 0
  imm16 := 0

/-- At address 0 the prefixes `ps` and then, for ever, `add $imm, %eax`. -/
def prefixedAdd (ps : List Byte) : Mem := Mem.put (fun _ => 0x05) 0 ps

theorem sameInsn_prefixedAdd {ps qs : List Byte} (h : SamePrefixes ps qs) (hp : ps.length ≤ 2)
    (hq : qs.length ≤ 2) : SameInsn (prefixedAdd ps) (prefixedAdd qs) 0 0 ps qs := by
  have hrest : ∀ (ps : List Byte), ps.length ≤ 2 → ∀ k < 32,
      fetch (prefixedAdd ps) (0 + BitVec.ofNat 32 ps.length) k = 0x05 := fun ps hp k hk => by
    refine Mem.put_of_notMem (m := fun _ => 0x05) ?_
    rw [mem_span]
    bv_omega
  refine ⟨h, Mem.At.put_self (by omega), Mem.At.put_self (by omega), by omega, by omega, ?_, fun k hk => ?_⟩
  · have hop := hrest ps hp 0 (by decide)
    rw [fetch, BitVec.add_zero] at hop
    rw [hop]
    decide +kernel
  · rw [hrest ps hp k hk, hrest qs hq k hk]

theorem sameDecoding_iff_sample : ∃ r ok r' ok',
    simpleDisasInsn (prefixedAdd [0x66, 0x2e]) .zero 0 = some (r, ok) ∧
      simpleDisasInsn (prefixedAdd [0x2e, 0x66]) .zero 0 = some (r', ok') ∧ SameDecoding r r' := by
  have hpq : SamePrefixes [0x66, 0x2e] [0x2e, 0x66] :=
    ⟨by decide +kernel, by decide +kernel, fun p => by simp [or_comm], by decide⟩
  obtain ⟨r, ok, r', ok', hr, hr', -, hiff⟩ :=
    sameDecoding_iff .zero (sameInsn_prefixedAdd hpq (by decide) (by decide))
  exact ⟨r, ok, r', ok', hr, hr', hiff.mpr (by decide)⟩

/-- Repeating the prefix `66` changes what is decoded. -/
theorem not_sameDecoding : ¬ ∀ (img img' : Mem) (pc pc' : Word) (ps qs : List Byte) (ds r r' : Decode) (ok ok' : Bool),
    SameInsn img img' pc pc' ps qs → simpleDisasInsn img ds pc = some (r, ok) →
      simpleDisasInsn img' ds pc' = some (r', ok') → SameDecoding r r' := by
  intro h
  have hpq : SamePrefixes [0x66] [0x66, 0x66] := ⟨by decide +kernel, by decide +kernel, by simp, by decide⟩
  have hin := sameInsn_prefixedAdd hpq (by decide) (by decide)
  have hop : ¬ isPrefix (prefixedAdd [0x66, 0x66] (0 + BitVec.ofNat 32 2)) := by decide +kernel
  obtain ⟨F, r, ok, -, hr, hdec⟩ := exists_simpleDisasInsn .zero hpq.left hin.left hin.opcode hin.length_left
  obtain ⟨F', r', ok', -, hr', hdec'⟩ := exists_simpleDisasInsn .zero hpq.right hin.right hop hin.length_right
  have hsame := (h _ _ _ _ _ _ _ _ _ _ _ hin hr hr').opstate
  rw [hdec.opstate, hdec'.opstate] at hsame
  revert hsame
  decide

/-! ## The byte after the instruction -/

/-- What the decoder answers depends on the byte at `a`. -/
def Reads (img : Mem) (ds : Decode) (pc a : Word) : Prop :=
  ∃ v, simpleDisasInsn (Function.update img a v) ds pc ≠ simpleDisasInsn img ds pc

/-- The decoder completes and reads nothing but the instruction, which ends at `decode_eip`. -/
def FetchesOnly (img : Mem) (ds : Decode) (pc : Word) : Prop :=
  ∃ r ok, simpleDisasInsn img ds pc = some (r, ok) ∧ ∀ a, Reads img ds pc a → a ∈ Span pc (r.decodeEip - pc).toNat

theorem pInstr_eq {img : Mem} {ds r : Decode} {pc : Word} {ok : Bool} (h : simpleDisasInsn img ds pc = some (r, ok)) :
    r.pInstr = img r.decodeEip := by
  obtain ⟨ps, F, -, -, -, -, -, hdec⟩ := exists_decoded h
  exact hdec.pInstr

/-- The byte at `decode_eip` is read into `pInstr`. -/
theorem reads_next {img : Mem} {ds r : Decode} {pc : Word} {ok : Bool}
    (h : simpleDisasInsn img ds pc = some (r, ok)) : Reads img ds pc r.decodeEip := by
  refine ⟨img r.decodeEip + 1, fun heq => ?_⟩
  have hnew := pInstr_eq (heq.trans h)
  rw [pInstr_eq h, Function.update_self] at hnew
  have := (img r.decodeEip).isLt
  bv_omega

theorem next_notMem (pc a : Word) : a ∉ Span pc (a - pc).toNat := by simp [mem_span]

/-- It reads more than the instruction, whatever the instruction. -/
theorem not_fetchesOnly (img : Mem) (ds : Decode) (pc : Word) : ¬ FetchesOnly img ds pc := by
  intro ⟨r, ok, h, hreads⟩
  exact next_notMem _ _ (hreads _ (reads_next h))

/-- A page that ends with a `nop`. -/
theorem not_fetchesOnly_nop : ¬ FetchesOnly (fun _ => 0x90) .zero 0x0804ffff := by
  intro ⟨r, ok, h, hreads⟩
  exact next_notMem _ _ (hreads _ (reads_next h))

end Unitrans
