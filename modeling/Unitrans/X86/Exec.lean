/-
Execution of bytes at a known address: the encodings in use (`Encodes`), the
step of an instruction whose bytes are in memory, and runs that do not stop
on the way.
-/
import Unitrans.X86.Code
import Unitrans.X86.Insn
import Unitrans.Library.FirstArrival

namespace X86

open Mem FirstArrival

/-- The bytes are the instruction, whatever follows them. -/
def Encodes (bs : List Byte) (i : Insn) : Prop :=
  ∀ g : Nat → Byte, decode (fun k => bs[k]?.getD (g k)) = some (i, bs.length)

theorem fetch_eq {m : Mem} {a : Word} {bs : List Byte} (h : At m a bs) :
    fetch m a = fun k => bs[k]?.getD (fetch m a k) := by
  funext k
  rcases Nat.lt_or_ge k bs.length with hk | hk
  · rw [List.getElem?_eq_getElem hk, Option.getD_some, fetch, h k hk]
  · rw [List.getElem?_eq_none hk, Option.getD_none]

theorem step_at {c : Cpu} {bs : List Byte} {i : Insn} (h : At c.mem c.eip bs) (hd : Encodes bs i) :
    step c = some (exec (c.eip + BitVec.ofNat 32 bs.length) c i) := by
  refine step_of_decode ?_
  rw [fetch_eq h]
  exact hd _

/-! ## Operands -/

theorem imm32_congr {f g : Nat → Byte} {i j : Nat} (h : ∀ k < 4, g (i + k) = f (j + k)) : imm32 g i = imm32 f j := by
  have h₀ := h 0 (by decide)
  rw [imm32, imm32, h 1 (by decide), h 2 (by decide), h 3 (by decide)]
  rw [Nat.add_zero, Nat.add_zero] at h₀
  rw [h₀]

theorem le_disp (f : Nat → Byte) (j : Nat) (mod : BitVec 2) : j ≤ (disp f j mod).2 := by
  rw [disp]
  split
  · omega
  · split <;> omega

theorem disp_congr {f g : Nat → Byte} {i j : Nat} {mod : BitVec 2}
    (h : ∀ k, j + k < (disp f j mod).2 → g (i + k) = f (j + k)) :
    (disp g i mod).1 = (disp f j mod).1 ∧ (disp g i mod).2 + j = (disp f j mod).2 + i := by
  simp only [disp] at h ⊢
  by_cases h1 : mod = 1
  · simp only [if_pos h1] at h ⊢
    refine ⟨congrArg (·.signExtend 32) (h 0 (by omega)), by omega⟩
  by_cases h2 : mod = 2
  · simp only [if_neg h1, if_pos h2] at h ⊢
    exact ⟨imm32_congr fun k hk => h k (by omega), by omega⟩
  · simp only [if_neg h1, if_neg h2]
    exact ⟨trivial, by omega⟩

/-- The operand a ModRM byte names goes by `mod`, `rm` and the bytes after it. -/
theorem operand_congr {seg : Option Seg} {f g : Nat → Byte} {i j : Nat}
    (hm : (fields (g i)).1 = (fields (f j)).1) (hr : (fields (g i)).2.2 = (fields (f j)).2.2)
    (h : ∀ k, j + 1 + k < (operand seg f j).2 → g (i + 1 + k) = f (j + 1 + k)) :
    (operand seg g i).1 = (operand seg f j).1 ∧ (operand seg g i).2 + j = (operand seg f j).2 + i := by
  simp only [operand, hm, hr] at h ⊢
  by_cases h3 : (fields (f j)).1 = 3
  · simp only [if_pos h3]
    exact ⟨trivial, by omega⟩
  simp only [if_neg h3] at h ⊢
  by_cases h4 : (fields (f j)).2.2 = 4
  · simp only [if_pos h4] at h ⊢
    by_cases h5 : (fields (f j)).1 = 0 ∧ (fields (f (j + 1))).2.2 = 5
    · simp only [if_pos h5] at h
      have hsib : g (i + 1) = f (j + 1) := h 0 (by omega)
      have himm : imm32 g (i + 2) = imm32 f (j + 2) := imm32_congr fun k hk => by
        have := h (1 + k) (by omega)
        rwa [← Nat.add_assoc, ← Nat.add_assoc] at this
      simp only [hsib, if_pos h5, himm]
      exact ⟨trivial, by omega⟩
    · simp only [if_neg h5] at h
      have hle := le_disp f (j + 2) (fields (f j)).1
      have hsib : g (i + 1) = f (j + 1) := h 0 (by omega)
      have hdisp := disp_congr (i := i + 2) fun k (hk : j + 2 + k < (disp f (j + 2) (fields (f j)).1).2) => by
        have := h (1 + k) (by omega)
        rwa [← Nat.add_assoc, ← Nat.add_assoc] at this
      simp only [hsib, if_neg h5, hdisp.1]
      exact ⟨trivial, by omega⟩
  simp only [if_neg h4] at h ⊢
  by_cases h5 : (fields (f j)).1 = 0 ∧ (fields (f j)).2.2 = 5
  · simp only [if_pos h5] at h ⊢
    have himm : imm32 g (i + 1) = imm32 f (j + 1) := imm32_congr fun k hk => h k (by omega)
    rw [himm]
    exact ⟨rfl, by omega⟩
  · simp only [if_neg h5] at h ⊢
    have hdisp := disp_congr (i := i + 1) h
    simp only [hdisp.1]
    exact ⟨trivial, by omega⟩

/-- The operand's value goes by the register. -/
def Operand.uses (r : Reg) : Operand → Bool
  | .reg r' => r' == r
  | .mem _ base index _ => base == some r || index.any (·.1 == r)

/-- Where the registers of an operand agree, it is the same but for the memory. -/
theorem Cpu.read_congr {c c' : Cpu} {o : Operand} (hs : c'.segBase = c.segBase)
    (hr : ∀ r, o.uses r → c'.regs r = c.regs r) : c'.read o = (c.setMem c'.mem).read o := by
  cases o with
  | reg r =>
    rw [read, read, setMem_regs]
    exact hr r (by simp [Operand.uses])
  | mem s b i d =>
    have hea : c'.ea s b i d = (c.setMem c'.mem).ea s b i d := by
      have hb : ∀ r, b = some r → c'.regs r = c.regs r := fun r h => hr r (by simp [Operand.uses, h])
      have hi : ∀ r k, i = some (r, k) → c'.regs r = c.regs r := fun r k h => hr r (by simp [Operand.uses, h])
      simp only [ea, setMem_segBase, setMem_regs, hs]
      cases b with
      | none => cases i with
        | none => rfl
        | some p => simp only [hi p.1 p.2 rfl]
      | some r => cases i with
        | none => simp only [hb r rfl]
        | some p => simp only [hb r rfl, hi p.1 p.2 rfl]
    rw [read, read, hea, setMem_mem]

/-! ## Encodings -/

section Encodings

variable (d e : Word)

theorem encodes_leaEcx : Encodes ([0x8d, 0x89] ++ le32 d) (.lea .ecx (.mem none (some .ecx) none d)) := by
  intro g
  simp [decode, segPrefix, decodeOp, operand, fields, disp, imm32, le32, word32_le32, Reg.ofBits]

theorem encodes_leaTable :
    Encodes ([0x8d, 0x0c, 0xcd] ++ le32 d) (.lea .ecx (.mem none none (some (.ecx, 3)) d)) := by
  intro g
  simp [decode, segPrefix, decodeOp, operand, fields, imm32, le32, word32_le32, Reg.ofBits]

theorem encodes_movAbs : Encodes ([0xc7, 0x05] ++ le32 d ++ le32 e) (.movI (.mem none none none d) e) := by
  intro g
  simp [decode, segPrefix, decodeOp, operand, fields, imm32, le32, word32_le32]

theorem encodes_movEsp : Encodes ([0xc7, 0x44, 0x24, 4] ++ le32 d)
    (.movI (.mem none (some .esp) none 4) d) := by
  intro g
  simp [decode, segPrefix, decodeOp, operand, fields, disp, imm32, imm8, le32, word32_le32, Reg.ofBits]

theorem encodes_popAbs : Encodes ([0x8f, 0x05] ++ le32 d) (.pop (.mem none none none d)) := by
  intro g
  simp [decode, segPrefix, decodeOp, operand, fields, imm32, le32, word32_le32]

theorem encodes_jmpAbs : Encodes ([0xff, 0x25] ++ le32 d) (.jmpInd (.mem none none none d)) := by
  intro g
  simp [decode, segPrefix, decodeOp, operand, fields, imm32, le32, word32_le32]

theorem encodes_pushI : Encodes ([0x68] ++ le32 d) (.pushI d) := by
  intro g
  simp [decode, segPrefix, decodeOp, imm32, le32, word32_le32]

theorem encodes_jmp : Encodes ([0xe9] ++ le32 d) (.jmp d) := by
  intro g
  simp [decode, segPrefix, decodeOp, imm32, le32, word32_le32]

theorem encodes_movEcx : Encodes [0x8b, 0x4c, 0x24, 4] (.mov (.reg .ecx) (.mem none (some .esp) none 4)) := by
  simp [Encodes, decode, segPrefix, decodeOp, operand, fields, disp, imm8, Reg.ofBits]

theorem encodes_leaEsp4 : Encodes [0x8d, 0x64, 0x24, 4] (.lea .esp (.mem none (some .esp) none 4)) := by
  simp [Encodes, decode, segPrefix, decodeOp, operand, fields, disp, imm8, Reg.ofBits]

theorem encodes_movzwEcx : Encodes [0x0f, 0xb7, 0xc9] (.movzw .ecx (.reg .ecx)) := by
  simp [Encodes, decode, segPrefix, decodeOp, operand, fields, Reg.ofBits]

theorem encodes_jmpEcx : Encodes [0xff, 0xe1] (.jmpInd (.reg .ecx)) := by
  simp [Encodes, decode, segPrefix, decodeOp, operand, fields, Reg.ofBits]

theorem encodes_pushTop : Encodes [0xff, 0x34, 0x24] (.push (.mem none (some .esp) none 0)) := by
  simp [Encodes, decode, segPrefix, decodeOp, operand, fields, disp, Reg.ofBits]

theorem encodes_jecxz (b : Byte) : Encodes [0xe3, b] (.jecxz (b.signExtend 32)) := by
  simp [Encodes, decode, segPrefix, decodeOp, imm8]

theorem encodes_cmpEax : Encodes ([0x3d] ++ le32 d) (.cmpEaxI d) := by
  intro g
  simp [decode, segPrefix, decodeOp, imm32, le32, word32_le32]

theorem encodes_call : Encodes ([0xe8] ++ le32 d) (.call d) := by
  intro g
  simp [decode, segPrefix, decodeOp, imm32, le32, word32_le32]

theorem encodes_jne8 (b : Byte) : Encodes [0x75, b] (.jcc 5 (b.signExtend 32)) := by
  simp [Encodes, decode, segPrefix, decodeOp, imm8]

theorem encodes_push (r : BitVec 3) : Encodes [0x50#8 ||| r.setWidth 8] (.push (.reg (Reg.ofBits r))) := by
  intro g
  have h₁ : (0x50#8 ||| r.setWidth 8).extractLsb' 3 5 = 10#5 := by decide +revert
  have h₂ : (0x50#8 ||| r.setWidth 8).extractLsb' 0 3 = r := by decide +revert
  have h₃ : segPrefix (0x50#8 ||| r.setWidth 8) = none := by decide +revert
  simp [decode, decodeOp, h₁, h₂, h₃]

theorem encodes_pop (r : BitVec 3) : Encodes [0x58#8 ||| r.setWidth 8] (.pop (.reg (Reg.ofBits r))) := by
  intro g
  have h₁ : (0x58#8 ||| r.setWidth 8).extractLsb' 3 5 = 11#5 := by decide +revert
  have h₂ : (0x58#8 ||| r.setWidth 8).extractLsb' 0 3 = r := by decide +revert
  have h₃ : segPrefix (0x58#8 ||| r.setWidth 8) = none := by decide +revert
  simp [decode, decodeOp, h₁, h₂, h₃]

theorem encodes_pushf : Encodes [0x9c] .pushf := by simp [Encodes, decode, segPrefix, decodeOp]

theorem encodes_popf : Encodes [0x9d] .popf := by simp [Encodes, decode, segPrefix, decodeOp]

theorem fields_abs (r : BitVec 3) : fields (5#8 ||| (r.setWidth 8 <<< 3)) = (0, r, 5) := by
  decide +revert

theorem encodes_load (r : BitVec 3) : Encodes ([0x8b#8, 0x05#8 ||| (r.setWidth 8 <<< 3)] ++ le32 d)
    (.mov (.reg (Reg.ofBits r)) (.mem none none none d)) := by
  intro g
  simp [decode, segPrefix, decodeOp, operand, imm32, le32, word32_le32, fields_abs]

theorem encodes_store (r : BitVec 3) : Encodes ([0x89#8, 0x05#8 ||| (r.setWidth 8 <<< 3)] ++ le32 d)
    (.mov (.mem none none none d) (.reg (Reg.ofBits r))) := by
  intro g
  simp [decode, segPrefix, decodeOp, operand, imm32, le32, word32_le32, fields_abs]

end Encodings

/-! ## Flags -/

/-- A comparison sets `ZF` where the two are equal. -/
theorem zf_cmpFlags (fl a b : Word) : zf (cmpFlags fl a b) = (a == b) := by
  have hmask : (~~~statusMask).getLsbD 6 = false := rfl
  have hclear : ∀ n ∈ [0, 2, 4, 7, 11], ∀ b, (flagBit n b).getLsbD 6 = false := by decide
  have hset : ∀ b, (flagBit 6 b).getLsbD 6 = b := by decide
  simp only [zf, cmpFlags, BitVec.getLsbD_or, BitVec.getLsbD_and, hmask, hset, hclear 0 (by simp), hclear 2 (by simp),
    hclear 4 (by simp), hclear 7 (by simp), hclear 11 (by simp), Bool.and_false, Bool.false_or, Bool.or_false]
  rw [Bool.eq_iff_iff, beq_iff_eq, beq_iff_eq]
  constructor
  · intro h
    bv_omega
  · rintro rfl
    exact BitVec.sub_self a

theorem cond_ne (fl : Word) : cond 5 fl = !zf fl := by
  show (zf fl != true) = _
  cases zf fl <;> rfl

/-! ## Jumps -/

/-- `jmp` at `p` to `target`. -/
def jmpTo (p target : Word) : List Byte := [0xe9] ++ le32 (target - (p + 1) - 4)

@[simp] theorem length_jmpTo (p t : Word) : (jmpTo p t).length = 5 := rfl

theorem jmp_target (p t : Word) : p + 5#32 + (t - (p + 1) - 4) = t := by bv_omega

theorem exec_jmpTo (c : Cpu) (t : Word) : exec (c.eip + 5#32) c (.jmp (t - (c.eip + 1) - 4)) = c.goto t := by
  rw [exec, jmp_target]

theorem step_jmpTo {c : Cpu} {t : Word} (h : At c.mem c.eip (jmpTo c.eip t)) : step c = some (c.goto t) := by
  rw [step_at h (encodes_jmp _), ← exec_jmpTo]
  rfl

/-! ## Lines

Instructions one after another. All but the last go on with the next one. -/

abbrev Line := List (List Byte × Insn)

def Line.bytes (l : Line) : List Byte := l.flatMap (·.1)

/-- The instruction after this one is the next in memory. -/
def Insn.straight : Insn → Bool
  | .jmp _ | .jmpInd _ | .jcc _ _ | .jecxz _ | .loop _ _ | .call _ | .ret => false
  | .push _ | .pushI _ | .pop _ | .pushf | .popf | .mov _ _ | .movI _ _ | .lea _ _ | .movzw _ _ | .andI _ _
  | .cmpEaxI _ => true

theorem exec_eip {i : Insn} (h : i.straight) (next : Word) (c : Cpu) : (exec next c i).eip = next := by
  cases i <;> try first | exact Cpu.goto_eip .. | cases h
  case lea r src => cases src <;> exact Cpu.goto_eip ..
  case movzw r src => cases src <;> exact Cpu.goto_eip ..

/-- What a line does. -/
def Line.exec : Line → Cpu → Cpu
  | [], c => c
  | (bs, i) :: l, c => Line.exec l (X86.exec (c.eip + BitVec.ofNat 32 bs.length) c i)

/-- Where an operand is in memory. -/
def Cpu.addr (c : Cpu) : Operand → Option Word
  | .reg _ => none
  | .mem s b i d => some (c.ea s b i d)

@[simp] theorem Cpu.addr_reg (c : Cpu) (r : Reg) : c.addr (.reg r) = none := rfl
@[simp] theorem Cpu.addr_mem (c : Cpu) (s : Option Seg) (b : Option Reg) (i : Option (Reg × Nat)) (d : Word) :
    c.addr (.mem s b i d) = some (c.ea s b i d) := rfl

/-- The word an instruction writes in memory. -/
def Insn.writes (c : Cpu) : Insn → Option Word
  | .push _ | .pushI _ | .pushf | .call _ => some (c.regs .esp - 4)
  | .pop dst => (c.set .esp (c.regs .esp + 4)).addr dst
  | .mov dst _ | .movI dst _ | .andI dst _ => c.addr dst
  | .popf | .lea _ _ | .movzw _ _ | .cmpEaxI _ | .jmp _ | .jmpInd _ | .jcc _ _ | .jecxz _ | .loop _ _ | .ret =>
    none

theorem exec_mem (next : Word) (c : Cpu) (i : Insn) :
    (exec next c i).mem = c.mem ∨ ∃ a v, i.writes c = some a ∧ (exec next c i).mem = c.mem.st32 a v := by
  cases i with
  | push src => exact .inr ⟨_, _, rfl, by simp [exec]; rfl⟩
  | pushI imm => exact .inr ⟨_, _, rfl, by simp [exec]; rfl⟩
  | pushf => exact .inr ⟨_, _, rfl, by simp [exec]; rfl⟩
  | call rel => exact .inr ⟨_, _, rfl, by simp [exec]; rfl⟩
  | pop dst =>
    cases dst with
    | reg r => exact .inl (by simp [exec])
    | mem s b i d => exact .inr ⟨_, _, rfl, by simp [exec]; rfl⟩
  | mov dst src =>
    cases dst with
    | reg r => exact .inl (by simp [exec])
    | mem s b i d => exact .inr ⟨_, _, rfl, by simp [exec]; rfl⟩
  | movI dst imm =>
    cases dst with
    | reg r => exact .inl (by simp [exec])
    | mem s b i d => exact .inr ⟨_, _, rfl, by simp [exec]; rfl⟩
  | andI dst imm =>
    cases dst with
    | reg r => exact .inl (by simp [exec])
    | mem s b i d => exact .inr ⟨_, _, rfl, by simp [exec]; rfl⟩
  | lea r src => cases src <;> exact .inl (by simp [exec])
  | movzw r src => cases src <;> exact .inl (by simp [exec])
  | _ => exact .inl (by simp [exec])

/-- The line can run: its bytes are its instructions, only the last one
branches, and none writes over the code `K`. -/
def Line.Runs (K : Code) : Line → Cpu → Prop
  | [], _ => True
  | (bs, i) :: l, c =>
    bs ≠ [] ∧ Encodes bs i ∧ (l ≠ [] → i.straight) ∧
      (∀ a, i.writes c = some a → Disjoint (Span a 4) K.dom) ∧
      Line.Runs K l (X86.exec (c.eip + BitVec.ofNat 32 bs.length) c i)

theorem holds_exec {K : Code} {c : Cpu} {i : Insn} (hK : Code.Holds c.mem K)
    (hw : ∀ a, i.writes c = some a → Disjoint (Span a 4) K.dom) (next : Word) :
    Code.Holds (exec next c i).mem K := by
  obtain h | ⟨a, v, ha, h⟩ := exec_mem next c i
  · rwa [h]
  · rw [h]
    exact hK.st32 (hw a ha)

theorem Line.exec_append (l₁ l₂ : Line) (c : Cpu) : (l₁ ++ l₂).exec c = l₂.exec (l₁.exec c) := by
  induction l₁ generalizing c with
  | nil => rfl
  | cons p l₁ ih =>
    rw [List.cons_append, Line.exec, ih]
    rfl

/-- No instruction branches. -/
def Line.straight (l : Line) : Bool := l.all fun p => p.2.straight

theorem Line.exec_eip {l : Line} {c : Cpu} (hs : l.straight) :
    (l.exec c).eip = c.eip + BitVec.ofNat 32 l.bytes.length := by
  induction l generalizing c with
  | nil => simp [Line.exec, Line.bytes]
  | cons p l ih =>
    rw [Line.straight, List.all_cons, Bool.and_eq_true] at hs
    rw [Line.exec, ih hs.2, X86.exec_eip hs.1, BitVec.add_assoc, ← BitVec.ofNat_add]
    simp [Line.bytes]

theorem Line.Runs.append {K : Code} {l₁ l₂ : Line} {c : Cpu} (h₁ : l₁.Runs K c) (hs : l₁.straight)
    (h₂ : l₂.Runs K (l₁.exec c)) : (l₁ ++ l₂).Runs K c := by
  induction l₁ generalizing c with
  | nil => exact h₂
  | cons p l₁ ih =>
    rw [Line.straight, List.all_cons, Bool.and_eq_true] at hs
    obtain ⟨hne, hd, -, hw, hl⟩ := h₁
    exact ⟨hne, hd, fun _ => hs.1, hw, ih hl hs.2 h₂⟩

/-- A run of one step or more that enters no address of `S` on the way. -/
abbrev GoesBy (S : Word → Prop) : Cpu → Cpu → Prop := Goes step fun c => S c.eip

/-- A line runs to its end where it enters nothing of `S` inside. -/
theorem goes_line {K : Code} {S : Word → Prop} : ∀ {l : Line} {c : Cpu}, l ≠ [] → Code.Holds c.mem K →
    Code.Placed K c.eip (l.bytes.map some) → l.Runs K c →
    (∀ k, 0 < k → k < l.bytes.length → ¬ S (c.eip + BitVec.ofNat 32 k)) →
    GoesBy S c (l.exec c) ∧ Code.Holds (l.exec c).mem K
  | [], _, h, _, _, _, _ => absurd rfl h
  | [(bs, i)], c, _, hK, hp, hr, _ => by
    obtain ⟨-, hd, -, hw, -⟩ := hr
    have hp : Code.Placed K c.eip (bs.map some) := by simpa [Line.bytes] using hp
    exact ⟨.single (step_at (hK.at hp) hd), holds_exec hK hw _⟩
  | (bs, i) :: p :: l, c, _, hK, hp, hr, hS => by
    obtain ⟨hne, hd, hst, hw, hl⟩ := hr
    rw [Line.bytes, List.flatMap_cons, List.map_append, Code.placed_append, List.length_map] at hp
    have he := exec_eip (hst (by simp)) (c.eip + BitVec.ofNat 32 bs.length) c
    have hlen : 0 < bs.length := List.length_pos_iff.mpr hne
    have hlen' : 0 < p.1.length := List.length_pos_iff.mpr hl.1
    have hbytes : Line.bytes ((bs, i) :: p :: l) = bs ++ Line.bytes (p :: l) := rfl
    have hbytes' : Line.bytes (p :: l) = p.1 ++ Line.bytes l := rfl
    rw [hbytes, List.length_append] at hS
    have hS' : ∀ k, k < (Line.bytes (p :: l)).length →
        ¬ S (c.eip + BitVec.ofNat 32 bs.length + BitVec.ofNat 32 k) := by
      intro k hk
      rw [BitVec.add_assoc, ← BitVec.ofNat_add]
      exact hS _ (by omega) (by omega)
    obtain ⟨hg, hK'⟩ := goes_line (S := S) (by simp) (holds_exec hK hw _) (by rw [he]; exact hp.2) hl
      (by rw [he]; exact fun k _ hk => hS' k hk)
    refine ⟨.cons (step_at (hK.at hp.1) hd) ?_ hg, hK'⟩
    rw [he]
    have := hS' 0 (by rw [hbytes', List.length_append]; omega)
    simpa using this

end X86
