/-
What `emit_int` puts before a copied `int $0x80`: a test for `exit_group`, and
on that path a call of the C function `exit_stub`. `EFLAGS` is kept around
both, the registers a C function may change are not (`int_preserves_iff`).
-/
import Unitrans.DecodeInputs
import Unitrans.EmitInsn
import Unitrans.X86.Exec

namespace Unitrans

open X86 Except FirstArrival

/-! ## The C function -/

/-- The processor with a C function at `a`. -/
def stepWith (a : Word) (f : Cpu → Cpu) (c : Cpu) : Option Cpu := if c.eip = a then some (f c) else step c

/-- The calling convention: the function returns, keeps the registers that are the
caller's and the stack above its argument, and does not write on `code`. What
it leaves in `eax`, `ecx`, `edx` and `EFLAGS` is open. -/
structure Cdecl (code : Set Word) (f : Cpu → Cpu) : Prop where
  eip : ∀ c, (f c).eip = c.mem.ld32 (c.regs .esp)
  esp : ∀ c, (f c).regs .esp = c.regs .esp + 4
  saved : ∀ c, ∀ r ∈ [Reg.ebx, .ebp, .esi, .edi], (f c).regs r = c.regs r
  frame : ∀ c, ∀ x ∈ Span (c.regs .esp + 8) 4, (f c).mem x = c.mem x
  code : ∀ c, ∀ x ∈ code, (f c).mem x = c.mem x

/-- The system call sees the registers and the flags of the guest. -/
structure Preserved (c c' : Cpu) : Prop where
  regs : c'.regs = c.regs
  eflags : c'.eflags = c.eflags

/-! ## The test and the call -/

variable {L : Layout} {p : Word} {f : Cpu → Cpu} {c : Cpu}

def testLine : Line :=
  [([0x9c], .pushf), ([0x3d] ++ le32 nrExitGroup, .cmpEaxI nrExitGroup), ([0x75, 0x0e], .jcc 5 ((0x0e : Byte).signExtend 32))]

def callLine (arg rel : Word) : Line := [([0x68] ++ le32 arg, .pushI arg), ([0xe8] ++ le32 rel, .call rel)]

def dropLine : Line := [([0x8d, 0x64, 0x24, 4], .lea .esp (.mem none (some .esp) none 4))]

def popfLine : Line := [([0x9d], .popf)]

theorem bytes_exitTest (L : Layout) (p : Word) :
    testLine.bytes ++ ((callLine L.env (L.exitStub - (p + 14) - 4)).bytes ++ (dropLine ++ popfLine).bytes) =
      exitTestBytes L p := by
  simp [testLine, callLine, dropLine, popfLine, Line.bytes, exitTestBytes]

/-- The processor is about to run the emitted code: it has room for three words
on the guest's stack, and the function is elsewhere. -/
structure AtExitTest (L : Layout) (s s' : State) (c : Cpu) : Prop where
  eip : c.eip = s.codePtr
  code : ∀ x ∈ Span s.codePtr 23, c.mem x = s'.mem x
  stack : Disjoint (Span (c.regs .esp - 12) 12) (Span s.codePtr 23)
  stub : L.exitStub ∉ Span s.codePtr 24

/-- After the test: the flags are saved, and the call is skipped for any other system call. -/
theorem exec_testLine (c : Cpu) :
    (testLine.exec c).eip = (if c.regs .eax = nrExitGroup then c.eip + 8 else c.eip + 22) ∧
      (∀ r, (testLine.exec c).regs r = if r = .esp then c.regs .esp - 4 else c.regs r) ∧
      (testLine.exec c).mem = c.mem.st32 (c.regs .esp - 4) c.eflags := by
  refine ⟨?_, fun r => ?_, ?_⟩
  · have hzf := zf_cmpFlags c.eflags (c.regs .eax) nrExitGroup
    simp only [testLine, Line.exec, exec, cond_ne, Cpu.setEflags_eflags, Cpu.goto_eflags]
    by_cases h : c.regs .eax = nrExitGroup
    · simp [zf_cmpFlags, h, BitVec.add_assoc]
    · simp [zf_cmpFlags, h, BitVec.add_assoc]
  · by_cases hr : r = .esp <;> simp [testLine, Line.exec, exec, hr]
  · simp [testLine, Line.exec, exec]

/-- At the entry of the function: its argument and the return address are on the stack. -/
theorem exec_callLine (arg rel : Word) (c : Cpu) :
    ((callLine arg rel).exec c).eip = c.eip + 10 + rel ∧
    (∀ r, ((callLine arg rel).exec c).regs r = if r = .esp then c.regs .esp - 8 else c.regs r) ∧
    ((callLine arg rel).exec c).mem = (c.mem.st32 (c.regs .esp - 4) arg).st32 (c.regs .esp - 8) (c.eip + 10) := by
  have hsub : c.regs .esp - 4#32 - 4#32 = c.regs .esp - 8#32 := by bv_omega
  refine ⟨?_, fun r => ?_, ?_⟩
  · simp [callLine, Line.exec, exec, BitVec.add_assoc]
  · by_cases hr : r = .esp <;> simp [callLine, Line.exec, exec, hr, hsub]
  · simp [callLine, Line.exec, exec, hsub, BitVec.add_assoc]

/-- Behind the return: the argument is dropped and the flags are restored. -/
theorem exec_backLine (c : Cpu) : ((dropLine ++ popfLine).exec c).eip = c.eip + 5 ∧
    (∀ r, ((dropLine ++ popfLine).exec c).regs r = if r = .esp then c.regs .esp + 8 else c.regs r) ∧
    ((dropLine ++ popfLine).exec c).eflags = c.mem.ld32 (c.regs .esp + 4) := by
  have hadd : c.regs .esp + 4#32 + 4#32 = c.regs .esp + 8#32 := by bv_omega
  refine ⟨?_, fun r => ?_, ?_⟩
  · simp [dropLine, popfLine, Line.exec, exec, BitVec.add_assoc]
  · by_cases hr : r = .esp <;> simp [dropLine, popfLine, Line.exec, exec, Cpu.ea, hr, hadd]
  · simp [dropLine, popfLine, Line.exec, exec, Cpu.ea]

theorem exec_popfLine (c : Cpu) : (popfLine.exec c).eip = c.eip + 1 ∧
    (∀ r, (popfLine.exec c).regs r = if r = .esp then c.regs .esp + 4 else c.regs r) ∧
    (popfLine.exec c).eflags = c.mem.ld32 (c.regs .esp) := by
  refine ⟨by simp [popfLine, Line.exec, exec], fun r => ?_, by simp [popfLine, Line.exec, exec]⟩
  by_cases hr : r = .esp <;> simp [popfLine, Line.exec, exec, hr]

/-! ## The run -/

/-- Addresses of the emitted code but the first are neither its end nor the function's. -/
theorem notMem_stop {a : Word} (ha : a ∉ Span p 24) : ∀ k : Nat, k < 23 →
    ¬ (p + BitVec.ofNat 32 k = p + 23 ∨ p + BitVec.ofNat 32 k = a) := by
  rintro k hk (h | h)
  · bv_omega
  · exact ha (h ▸ mem_span_add (by omega) (by decide))

theorem disjoint_top {a : Word} {j : Nat} (h : 4 ≤ j) (hj : j + 4 < 2 ^ 32) :
    Disjoint (Span (a - BitVec.ofNat 32 j) 4) (Span a 4) := by
  have hd := disjoint_sub (a := a + 4) (j := j + 4) (k := 4) (by omega) (by decide) hj
  have h₁ : a + 4 - BitVec.ofNat 32 (j + 4) = a - BitVec.ofNat 32 j := by bv_omega
  have h₂ : a + 4 - BitVec.ofNat 32 4 = a := by bv_omega
  rwa [h₁, h₂] at hd

/-- The emitted code at `p`, and the function elsewhere. -/
structure ExitTest (L : Layout) (p : Word) (K : Code) : Prop where
  dom : K.dom = Span p 23
  test : Code.Placed K p (testLine.bytes.map some)
  call : Code.Placed K (p + 8) ((callLine L.env (L.exitStub - (p + 14) - 4)).bytes.map some)
  back : Code.Placed K (p + 18) ((dropLine ++ popfLine).bytes.map some)
  popf : Code.Placed K (p + 22) (popfLine.bytes.map some)
  stub : L.exitStub ∉ Span p 24

theorem exitTest_of_at {m : Mem} (h : m.At p (exitTestBytes L p)) (hs : L.exitStub ∉ Span p 24) :
    ExitTest L p (Code.ofMem m (Span p 23)) := by
  have hplaced : Code.Placed (Code.ofMem m (Span p 23)) p ((exitTestBytes L p).map some) :=
    Code.placed_ofMem h (by simp) (by simp)
  rw [← bytes_exitTest] at hplaced
  simp only [List.map_append, Code.placed_append, List.length_map] at hplaced
  obtain ⟨htest, hcall, hback⟩ := hplaced
  have h18 : p + 8#32 + 10#32 = p + 18 := by rw [BitVec.add_assoc]; rfl
  have hback : Code.Placed (Code.ofMem m (Span p 23)) (p + 18) ((dropLine ++ popfLine).bytes.map some) := h18 ▸ hback
  have hpopf := hback
  have hb : (dropLine ++ popfLine).bytes = dropLine.bytes ++ popfLine.bytes := rfl
  have h22 : p + 18#32 + 4#32 = p + 22 := by rw [BitVec.add_assoc]; rfl
  rw [hb, List.map_append, Code.placed_append] at hpopf
  exact ⟨Code.dom_ofMem _, htest, hcall, hback, h22 ▸ hpopf.2, hs⟩

/-- From here on the processor knows the function, and stops at the end of the emitted code. -/
abbrev GoesTo (L : Layout) (f : Cpu → Cpu) (p : Word) : Cpu → Cpu → Prop :=
  Goes (stepWith L.exitStub f) fun c => c.eip = p + 23

namespace ExitTest

variable {K : Code} (h : ExitTest L p K)
include h

/-- A line `k` bytes behind the start runs as if there were no function. -/
theorem goes {l : Line} {k : Nat} (hl : l ≠ []) (he : c.eip = p + BitVec.ofNat 32 k) (hk : k + l.bytes.length ≤ 23)
    (hpos : 0 < l.bytes.length) (hK : Code.Holds c.mem K)
    (hp : Code.Placed K (p + BitVec.ofNat 32 k) (l.bytes.map some)) (hr : l.Runs K c) :
    GoesTo L f p c (l.exec c) ∧ Code.Holds (l.exec c).mem K := by
  obtain ⟨hrun, hK'⟩ := goes_line (S := fun a => a = p + 23 ∨ a = L.exitStub) hl hK (he ▸ hp) hr fun j _ hj => by
    rw [he, BitVec.add_assoc, ← BitVec.ofNat_add]
    exact notMem_stop h.stub _ (by omega)
  have hstep : ∀ d : Cpu, ¬ d.eip = L.exitStub → stepWith L.exitStub f d = step d := fun d hd => if_neg hd
  refine ⟨hrun.congr (fun hx => notMem_stop h.stub k (by omega) (.inr ?_)) hstep, hK'⟩
  rw [← he]
  exact hx

/-- The jump past the call. -/
theorem past (hK : Code.Holds c.mem K) (he : c.eip = p + 22) : ∃ c', GoesTo L f p c c' ∧ c'.eip = p + 23 ∧
    (∀ r, c'.regs r = if r = .esp then c.regs .esp + 4 else c.regs r) ∧ c'.eflags = c.mem.ld32 (c.regs .esp) := by
  obtain ⟨heip, hregs, hfl⟩ := exec_popfLine c
  obtain ⟨hgo, -⟩ := h.goes (l := popfLine) (k := 22) (by simp [popfLine]) he (by decide) (by decide) hK h.popf
    ⟨by simp, encodes_popf, by simp, by simp [Insn.writes], trivial⟩
  refine ⟨_, hgo, ?_, hregs, hfl⟩
  rw [heip, he]
  bv_omega

/-- The way to the function: it is called at `c₁`, its return address and its argument on the stack. -/
theorem enter (hK : Code.Holds c.mem K) (he : c.eip = p + 8) (h₄ : Disjoint (Span (c.regs .esp - 4) 4) K.dom)
    (h₈ : Disjoint (Span (c.regs .esp - 8) 4) K.dom) : ∃ c₁, GoesTo L f p c c₁ ∧ Code.Holds c₁.mem K ∧
      c₁.eip = L.exitStub ∧ (∀ r, c₁.regs r = if r = .esp then c.regs .esp - 8 else c.regs r) ∧
      c₁.mem = (c.mem.st32 (c.regs .esp - 4) L.env).st32 (c.regs .esp - 8) (p + 18) := by
  have hcall := h.call
  obtain ⟨rel, hrel⟩ : ∃ rel, rel = L.exitStub - (p + 14) - 4 := ⟨_, rfl⟩
  rw [← hrel] at hcall
  obtain ⟨heip, hregs, hmem⟩ := exec_callLine L.env rel c
  have hw : ∀ n a, (Insn.call rel).writes (exec n c (.pushI L.env)) = some a → Disjoint (Span a 4) K.dom := by
    intro n a ha
    obtain rfl := Option.some.inj ha
    have hesp : (exec n c (.pushI L.env)).regs .esp - 4 = c.regs .esp - 8 := by
      rw [exec, Cpu.goto_regs, Cpu.push_regs, if_pos rfl]
      ring
    rw [hesp]
    exact h₈
  have hlen : (callLine L.env rel).bytes.length = 10 := rfl
  obtain ⟨hgo, hK'⟩ := h.goes (l := callLine L.env rel) (k := 8) (by simp [callLine]) he (by rw [hlen]; decide)
    (by rw [hlen]; decide) hK hcall
    ⟨by simp, encodes_pushI _, fun _ => rfl, by simpa [Insn.writes] using h₄, by simp, encodes_call _, by simp, hw _,
      trivial⟩
  refine ⟨_, hgo, hK', ?_, hregs, ?_⟩
  · rw [heip, he, hrel]
    bv_omega
  · rw [hmem, he]
    congr 1
    bv_omega

/-- Behind the call. -/
theorem leave (hK : Code.Holds c.mem K) (he : c.eip = p + 18) : ∃ c', GoesTo L f p c c' ∧ c'.eip = p + 23 ∧
    (∀ r, c'.regs r = if r = .esp then c.regs .esp + 8 else c.regs r) ∧
    c'.eflags = c.mem.ld32 (c.regs .esp + 4) := by
  obtain ⟨heip, hregs, hfl⟩ := exec_backLine c
  obtain ⟨hgo, -⟩ := h.goes (l := dropLine ++ popfLine) (k := 18) (by simp [dropLine]) he (by decide) (by decide) hK h.back
    ⟨by simp, encodes_leaEsp4, fun _ => rfl, by simp [Insn.writes], by simp, encodes_popf, by simp,
      by simp [Insn.writes], trivial⟩
  refine ⟨_, hgo, ?_, hregs, hfl⟩
  rw [heip, he]
  bv_omega

/-- The call as a whole: what the function leaves in the registers stays there. -/
theorem through (hf : Cdecl (Span p 23) f) (hK : Code.Holds c.mem K) (he : c.eip = p + 8)
    (h₄ : Disjoint (Span (c.regs .esp - 4) 4) K.dom) (h₈ : Disjoint (Span (c.regs .esp - 8) 4) K.dom) :
    ∃ c₁ c', GoesTo L f p c c' ∧ c'.eip = p + 23 ∧ (∀ r, r ≠ .esp → c₁.regs r = c.regs r) ∧
      (∀ r, c'.regs r = if r = .esp then c.regs .esp + 4 else (f c₁).regs r) ∧
      c'.eflags = c.mem.ld32 (c.regs .esp) := by
  obtain ⟨c₁, hgo₁, hK₁, heip₁, hregs₁, hmem₁⟩ := h.enter (f := f) hK he h₄ h₈
  have hesp₁ : c₁.regs .esp = c.regs .esp - 8 := by rw [hregs₁, if_pos rfl]
  have hret : (f c₁).eip = p + 18 := by rw [hf.eip, hesp₁, hmem₁, Mem.ld32_st32]
  have hesp : (f c₁).regs .esp = c.regs .esp - 4 := by
    rw [hf.esp, hesp₁]
    ring
  have hsaved : (f c₁).mem.ld32 (c.regs .esp) = c.mem.ld32 (c.regs .esp) := by
    have hadd : c₁.regs .esp + 8 = c.regs .esp := by
      rw [hesp₁]
      ring
    have hd₈ : Disjoint (Span (c.regs .esp - 8) 4) (Span (c.regs .esp) 4) := disjoint_top (j := 8) (by decide) (by decide)
    have hd₄ : Disjoint (Span (c.regs .esp - 4) 4) (Span (c.regs .esp) 4) := disjoint_top (j := 4) (by decide) (by decide)
    rw [Mem.ld32_congr fun x hx => hf.frame c₁ x (hadd ▸ hx), hmem₁, Mem.ld32_st32_of_disjoint hd₈,
      Mem.ld32_st32_of_disjoint hd₄]
  obtain ⟨c', hgo', heip', hregs', hfl'⟩ := h.leave (f := f)
    (hK₁.congr fun x hx => hf.code c₁ x (h.dom ▸ hx)) hret
  have hcall : GoesTo L f p c₁ (f c₁) := .single (if_pos heip₁)
  refine ⟨c₁, c', hgo₁.trans ?_ (hcall.trans ?_ hgo'), heip', fun r hr => ?_, fun r => ?_, ?_⟩
  · rw [heip₁]
    exact fun hx => h.stub (hx ▸ mem_span_add (i := 23) (by decide) (by decide))
  · rw [hret]
    exact fun hx => notMem_stop h.stub 18 (by decide) (.inl hx)
  · rw [hregs₁, if_neg hr]
  · rw [hregs', hesp, show c.regs .esp - 4 + 8 = c.regs .esp + 4 by ring]
  · rw [hfl', hesp, BitVec.sub_add_cancel, hsaved]

end ExitTest

/-- The code runs to its end. The flags are restored on either path; the registers
are the guest's but on the path through the function, where they are as it leaves them. -/
theorem exitTest_arrives {s s' : State} (hf : Cdecl (Span s.codePtr 23) f) (hc : AtExitTest L s s' c)
    (hat : s'.mem.At s.codePtr (exitTestBytes L s.codePtr)) :
    ∃ c', Arrives (stepWith L.exitStub f) (fun c => c.eip = s.codePtr + 23) c c' ∧ c'.eflags = c.eflags ∧
      c'.regs .esp = c.regs .esp ∧ (c.regs .eax ≠ nrExitGroup → c'.regs = c.regs) ∧
      (c.regs .eax = nrExitGroup → ∃ c₁, (∀ r, r ≠ .esp → c₁.regs r = c.regs r) ∧
        ∀ r, r ≠ .esp → c'.regs r = (f c₁).regs r) := by
  have h := exitTest_of_at (hat.congr (by simp) hc.code) hc.stub
  have hK := Code.holds_ofMem c.mem (Span s.codePtr 23)
  generalize Code.ofMem c.mem (Span s.codePtr 23) = K at h hK
  have hw : ∀ {k : Nat}, 4 ≤ k → k ≤ 12 → Disjoint (Span (c.regs .esp - BitVec.ofNat 32 k) 4) K.dom := fun h₁ h₂ =>
    h.dom ▸ disjoint_below (n := 12) hc.stack h₁ h₂ (by decide)
  have hw₁ : ∀ a, Insn.pushf.writes c = some a → Disjoint (Span a 4) K.dom := by
    intro a ha
    obtain rfl := Option.some.inj ha
    exact hw (k := 4) (by decide) (by decide)
  obtain ⟨heip₁, hregs₁, hmem₁⟩ := exec_testLine c
  obtain ⟨hgo₁, hK₁⟩ := h.goes (f := f) (l := testLine) (k := 0) (by simp [testLine]) (by simpa using hc.eip) (by decide)
    (by decide) hK (by simpa using h.test)
    ⟨by simp, encodes_pushf, fun _ => rfl, hw₁, by simp, encodes_cmpEax _, fun _ => rfl, by simp [Insn.writes], by simp,
      encodes_jne8 _, by simp, by simp [Insn.writes], trivial⟩
  generalize testLine.exec c = c₁ at *
  rw [hc.eip] at heip₁
  have hesp₁ : c₁.regs .esp = c.regs .esp - 4 := by rw [hregs₁, if_pos rfl]
  have hfl₁ : c₁.mem.ld32 (c₁.regs .esp) = c.eflags := by rw [hesp₁, hmem₁, Mem.ld32_st32]
  by_cases heax : c.regs .eax = nrExitGroup
  · rw [if_pos heax] at heip₁
    have h₄ : c₁.regs .esp - 4 = c.regs .esp - 8 := by
      rw [hesp₁]
      ring
    have h₈ : c₁.regs .esp - 8 = c.regs .esp - 12 := by
      rw [hesp₁]
      ring
    obtain ⟨c₂, c', hgo, heip, hregs₂, hregs, hfl⟩ := h.through hf hK₁ heip₁ (h₄ ▸ hw (k := 8) (by decide) (by decide))
      (h₈ ▸ hw (k := 12) (by decide) (by decide))
    refine ⟨c', ⟨hgo₁.trans ?_ hgo, heip⟩, hfl.trans hfl₁, ?_, fun hn => absurd heax hn, fun _ => ⟨c₂, fun r hr => ?_,
      fun r hr => ?_⟩⟩
    · rw [heip₁]
      exact fun hx => notMem_stop h.stub 8 (by decide) (.inl hx)
    · rw [hregs, if_pos rfl, hesp₁, BitVec.sub_add_cancel]
    · rw [hregs₂ r hr, hregs₁, if_neg hr]
    · rw [hregs, if_neg hr]
  · rw [if_neg heax] at heip₁
    obtain ⟨c', hgo, heip, hregs, hfl⟩ := h.past (f := f) hK₁ heip₁
    have hsame : ∀ r, c'.regs r = c.regs r := by
      intro r
      rw [hregs, hesp₁, hregs₁]
      by_cases hr : r = .esp
      · rw [if_pos hr, hr, BitVec.sub_add_cancel]
      · rw [if_neg hr, if_neg hr]
    refine ⟨c', ⟨hgo₁.trans ?_ hgo, heip⟩, hfl.trans hfl₁, hsame _, fun _ => funext hsame, fun h => absurd h heax⟩
    rw [heip₁]
    exact fun hx => notMem_stop h.stub 22 (by decide) (.inl hx)

/-! ## The system call -/

/-- A function that leaves zero in `eax` obeys the convention. -/
def clearEax (c : Cpu) : Cpu := ((c.set .eax 0).set .esp (c.regs .esp + 4)).goto (c.mem.ld32 (c.regs .esp))

theorem cdecl_clearEax (code : Set Word) : Cdecl code clearEax where
  eip c := by simp [clearEax]
  esp c := by simp [clearEax]
  saved c r hr := by
    cases r <;> simp at hr <;> simp [clearEax]
  frame c x _ := by simp [clearEax]
  code c x _ := by simp [clearEax]

/-- What `emit_int` emits for `int $0x80`. -/
theorem emitInt_at {img : Mem} {s s' : State} {ds : Decode} {cont : Bool} (h80 : img (ds.instr + 1) = 0x80)
    (hlen : 23 + s.insnLen.toNat ≤ 2 ^ 32) (h : s.emitInt L img ds = .ok (cont, s')) :
    s'.mem.At s.codePtr (exitTestBytes L s.codePtr ++ insnBytes img s) := by
  rw [emitInt_eq, if_pos h80] at h
  obtain ⟨-, rfl⟩ := Prod.mk.inj (Except.ok.inj h)
  have hl : (insnBytes img s).length = s.insnLen.toNat := by simp [insnBytes, Mem.read]
  rw [State.emit_emit (by rw [length_exitTestBytes, hl]; exact hlen)]
  exact Mem.At.put_self (by rw [List.length_append, length_exitTestBytes, hl]; exact hlen)

/-- The number of the system call is lost to a function that leaves another value in `eax`. -/
theorem exitGroup_lost {s s' : State} (hc : AtExitTest L s s' c)
    (hat : s'.mem.At s.codePtr (exitTestBytes L s.codePtr)) (heax : c.regs .eax = nrExitGroup) :
    ¬ ∃ c', Arrives (stepWith L.exitStub clearEax) (fun c => c.eip = s.codePtr + 23) c c' ∧ Preserved c c' := by
  rintro ⟨c', hc', hp⟩
  obtain ⟨c₁, hc₁, -, -, -, hthrough⟩ := exitTest_arrives (cdecl_clearEax _) hc hat
  obtain rfl := hc'.unique hc₁
  obtain ⟨c₂, -, hregs⟩ := hthrough heax
  have hzero : c'.regs .eax = 0 := by
    rw [hregs .eax (by decide)]
    simp [clearEax]
  rw [hp.regs, heax] at hzero
  exact absurd hzero (by decide)

/-- `int $0x80` -/
def intImage : Mem := fun a => if a = 0x08048000 then 0xcd else if a = 0x08048001 then 0x80 else 0x90

def atInt : State where
  mem := fun _ => 0
  codeGenPtr := Layout.sample.codeGenBuffer
  codePtr := Layout.sample.codeGenBuffer
  sieveCodePtr := Layout.sample.sieveBuffer
  pcPtr := 0x08048002
  insnLen := 2

def intDecode : Decode := { Decode.zero with instr := 0x08048000 }

/-- A processor at the code emitted in `m`, with `eax = a`. -/
def atIntCode (m : Mem) (a : Word) : Cpu where
  regs r := if r = .eax then a else if r = .esp then 0x60000000 else 0
  eflags := 2
  eip := Layout.sample.codeGenBuffer
  segBase _ := 0
  undefAF := false
  mem := m

theorem atExitTest_int (s' : State) (a : Word) : AtExitTest .sample atInt s' (atIntCode s'.mem a) where
  eip := rfl
  code _ _ := rfl
  stack := by
    show Disjoint (Span (0x60000000 - 12) 12) (Span (0x30000000 : Word) 23)
    exact (disjoint_span_of_le (a := 0) (by decide) (by decide)).symm
  stub := by
    rw [mem_span]
    decide

/-- The convention is obeyed, and the kernel sees another system call. -/
theorem not_int_preserves : ¬ ∀ (L : Layout) (img : Mem) (s s' : State) (ds : Decode) (cont : Bool) (c : Cpu)
    (f : Cpu → Cpu), img (ds.instr + 1) = 0x80 → 23 + s.insnLen.toNat ≤ 2 ^ 32 →
    s.emitInt L img ds = .ok (cont, s') → AtExitTest L s s' c → Cdecl (Span s.codePtr 23) f →
    ∃ c', Arrives (stepWith L.exitStub f) (fun c => c.eip = s.codePtr + 23) c c' ∧ Preserved c c' := by
  intro h
  have hemit := emitInt_eq .sample intImage atInt intDecode
  have h80 : intImage (intDecode.instr + 1) = 0x80 := by decide
  have hlen : 23 + atInt.insnLen.toNat ≤ 2 ^ 32 := by decide
  have hc := atExitTest_int ((atInt.emit (if intImage (intDecode.instr + 1) = 0x80 then
    exitTestBytes .sample atInt.codePtr else [])).emit (insnBytes intImage atInt)) nrExitGroup
  exact exitGroup_lost hc (emitInt_at h80 hlen hemit).left rfl
    (h _ _ _ _ _ _ _ _ h80 hlen hemit hc (cdecl_clearEax _))

/-- Every function that obeys the calling convention leaves the system call what it
was, if and only if the system call is not `exit_group`, on whose path the function is called. -/
theorem int_preserves_iff {img : Mem} {s s' : State} {ds : Decode} {cont : Bool} (h80 : img (ds.instr + 1) = 0x80)
    (hlen : 23 + s.insnLen.toNat ≤ 2 ^ 32) (h : s.emitInt L img ds = .ok (cont, s')) (hc : AtExitTest L s s' c) :
    (∀ f, Cdecl (Span s.codePtr 23) f →
      ∃ c', Arrives (stepWith L.exitStub f) (fun c => c.eip = s.codePtr + 23) c c' ∧ Preserved c c') ↔
      c.regs .eax ≠ nrExitGroup := by
  have hat := (emitInt_at h80 hlen h).left
  refine ⟨fun hall heax => exitGroup_lost hc hat heax (hall clearEax (cdecl_clearEax _)), fun heax f hf => ?_⟩
  obtain ⟨c', hc', hfl, -, hregs, -⟩ := exitTest_arrives hf hc hat
  exact ⟨c', hc', hregs heax, hfl⟩

theorem int_preserves_getpid : ∃ s', atInt.emitInt .sample intImage intDecode = .ok (true, s') ∧
    ∀ f, Cdecl (Span atInt.codePtr 23) f →
      ∃ c', Arrives (stepWith Layout.sample.exitStub f) (fun c => c.eip = atInt.codePtr + 23) (atIntCode s'.mem 20) c' ∧
        Preserved (atIntCode s'.mem 20) c' :=
  ⟨_, emitInt_eq .sample intImage atInt intDecode,
    (int_preserves_iff (by decide) (by decide) (emitInt_eq .sample intImage atInt intDecode)
      (atExitTest_int _ 20)).mpr (by decide)⟩

end Unitrans
