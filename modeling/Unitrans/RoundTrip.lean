/-
The round trip from the code cache to the dispatcher and back. The way out
saves the guest's registers in `env` and its flags in the word below its
stack, `cpu_exec` leaves both alone, and the way in takes them from there
(`Parked`); an exit differs from another only in what it leaves for `cpu_exec`.
-/
import Unitrans.DispatchFrame
import Unitrans.SieveRuns

namespace Unitrans

open X86 FirstArrival Except

variable {L : Layout}

/-! ## The registers in `env` -/

/-- The place of a register in `env->regs`. -/
def regIndex : Reg → Nat
  | .eax => 0 | .ecx => 1 | .edx => 2 | .ebx => 3 | .esp => 4 | .ebp => 5 | .esi => 6 | .edi => 7

theorem regIndex_lt (r : Reg) : regIndex r < 8 := by cases r <;> decide

theorem ofBits_eq_iff {i : Nat} (hi : i < 8) (r : Reg) : Reg.ofBits (BitVec.ofNat 3 i) = r ↔ i = regIndex r := by
  revert i
  cases r <;> decide

theorem disjoint_reg {i j : Nat} (hi : i < 8) (hj : j < 8) (h : i ≠ j) :
    Disjoint (Span (L.reg i) 4) (Span (L.reg j) 4) :=
  L.disjoint_field (by omega) (by simp only [sizeofEnv]; omega) (by simp only [sizeofEnv]; omega)

/-- The registers stored are in `env`. -/
theorem ld32_storeGpr {r : Reg} : ∀ (is : List Nat) (c : Cpu), (∀ i ∈ is, i < 8) →
    ((storeGpr L is).exec c).mem.ld32 (L.reg (regIndex r)) =
      if regIndex r ∈ is then c.regs r else c.mem.ld32 (L.reg (regIndex r))
  | [], _, _ => by simp [storeGpr, Line.exec]
  | i :: is, c, hi => by
    let c' := exec (c.eip + BitVec.ofNat 32 6) c (.mov (absMem (L.reg i)) (.reg (Reg.ofBits (BitVec.ofNat 3 i))))
    have hmem : c'.mem = c.mem.st32 (L.reg i) (c.regs (Reg.ofBits (BitVec.ofNat 3 i))) := by
      simp [c', exec, absMem, Cpu.ea, Cpu.read]
    have hregs : c'.regs r = c.regs r := by simp [c', exec, absMem]
    have ih := ld32_storeGpr (r := r) is c' fun j hj => hi j (by simp [hj])
    refine ih.trans ?_
    rw [hregs, hmem]
    by_cases hr : regIndex r ∈ is
    · simp [hr]
    rw [if_neg hr]
    by_cases he : i = regIndex r
    · rw [← he, Mem.ld32_st32, if_pos (by simp), (ofBits_eq_iff (hi i (by simp)) r).mpr he]
    · rw [Mem.ld32_st32_of_disjoint (disjoint_reg (hi i (by simp)) (regIndex_lt r) he), if_neg (by simp [hr, Ne.symm he])]

/-- The registers loaded are those in `env`. -/
theorem regs_loadGpr {r : Reg} : ∀ (is : List Nat) (c : Cpu), (∀ i ∈ is, i < 8) →
    ((loadGpr L is).exec c).regs r = if regIndex r ∈ is then c.mem.ld32 (L.reg (regIndex r)) else c.regs r
  | [], _, _ => by simp [loadGpr, Line.exec]
  | i :: is, c, hi => by
    let c' := exec (c.eip + BitVec.ofNat 32 6) c (.mov (.reg (Reg.ofBits (BitVec.ofNat 3 i))) (absMem (L.reg i)))
    have hmem : c'.mem = c.mem := by simp [c', exec]
    have hregs : c'.regs r = if r = Reg.ofBits (BitVec.ofNat 3 i) then c.mem.ld32 (L.reg i) else c.regs r := by
      simp [c', exec, absMem, Cpu.ea, Cpu.read]
    have ih := regs_loadGpr (r := r) is c' fun j hj => hi j (by simp [hj])
    refine ih.trans ?_
    rw [hmem, hregs]
    by_cases hr : regIndex r ∈ is
    · simp [hr]
    rw [if_neg hr]
    have hof := ofBits_eq_iff (hi i (by simp)) r
    by_cases he : i = regIndex r
    · rw [if_pos (hof.mpr he).symm, if_pos (by simp [he]), he]
    · rw [if_neg fun h => he (hof.mp h.symm), if_neg (by simp [hr, Ne.symm he])]

/-! ## Parked -/

/-- The guest's context while the dispatcher runs: the flags in the word below the guest's stack,
the stack pointer saved with that word on it. -/
structure Parked (L : Layout) (regs : Reg → Word) (fl : Word) (m : Mem) : Prop where
  words : ∀ r, m.ld32 (L.reg (regIndex r)) = if r = .esp then regs .esp - 4 else regs r
  flags : m.ld32 (regs .esp - 4) = fl

theorem reg_subset_env (r : Reg) : Span (L.reg (regIndex r)) 4 ⊆ Span L.env 32 := reg_subset (regIndex_lt r)

theorem Parked.congr {regs : Reg → Word} {fl : Word} {m m' : Mem} (h : Parked L regs fl m)
    (he : ∀ x ∈ Span L.env 32, m' x = m x) (hf : ∀ x ∈ Span (regs .esp - 4) 4, m' x = m x) : Parked L regs fl m' :=
  ⟨fun r => (Mem.ld32_congr fun x hx => he x (reg_subset_env r hx)).trans (h.words r), (Mem.ld32_congr hf).trans h.flags⟩

/-- The way out parks the context. -/
theorem leaveLine_parks {c : Cpu} (hc : Disjoint (Span (c.regs .esp - 4) 4) L.emu) :
    Parked L c.regs c.eflags ((leaveLine L).exec c).mem ∧
      (∀ x, x ∉ Span L.env 32 → x ∉ Span (c.regs .esp - 4) 4 → ((leaveLine L).exec c).mem x = c.mem x) ∧
      ((leaveLine L).exec c).regs .eax = c.mem.ld32 L.retTb := by
  let c₁ := exec (c.eip + 1) c .pushf
  let c₂ := (storeGpr L (List.range 8)).exec c₁
  have hexec : (leaveLine L).exec c = (restoreLine L).exec c₂ := by
    rw [leaveLine, Line.exec_append, Line.exec_append]
    rfl
  have hmem : ((leaveLine L).exec c).mem = c₂.mem := by
    rw [hexec]
    simp [restoreLine, Line.exec, exec]
  have hK : Disjoint (Span L.env 32) (Code.ofMem c.mem ∅).dom := by
    rw [Code.dom_ofMem]
    exact Set.disjoint_empty _
  have hframe : ∀ x, x ∉ Span L.env 32 → x ∉ Span (c.regs .esp - 4) 4 → c₂.mem x = c.mem x := fun x h₁ h₂ =>
    leave_frame hK h₁ h₂
  have hregs : Span L.env 32 ⊆ L.emu := fun _ hx => Or.inl (Or.inl (Or.inl (span_mono (by decide) hx)))
  rw [hmem, hexec]
  refine ⟨⟨fun r => ?_, ?_⟩, hframe, ?_⟩
  · refine (ld32_storeGpr (List.range 8) c₁ (by simp)).trans ?_
    rw [if_pos (List.mem_range.mpr (regIndex_lt r))]
    simp [c₁, exec]
  · have hstore := (exec_storeGpr hK (List.range 8) c₁ (by simp)).2
    have hflags : c₂.mem.ld32 (c.regs .esp - 4) = c₁.mem.ld32 (c.regs .esp - 4) :=
      Mem.ld32_congr fun x hx => hstore x fun h => Set.disjoint_left.mp hc hx (hregs h)
    rw [hflags]
    simp [c₁, exec, Mem.ld32_st32]
  · refine (exec_restoreLine c₂).2.2.2.2.2.trans ?_
    refine Mem.ld32_congr fun x hx => hframe x (fun h => ?_) fun h => ?_
    · have hd := L.disjoint_field (i := 0) (k := 32) (j := 56) (l := 4) (by omega) (by decide) (by decide)
      rw [Layout.field, BitVec.add_zero] at hd
      exact Set.disjoint_left.mp hd h hx
    · exact Set.disjoint_left.mp hc h (env_subset_emu (k := 56) (by decide) hx)

theorem envArea_subset : envArea L ⊆ Span L.env sizeofEnv := by
  refine Set.union_subset (Set.union_subset (Set.union_subset ?_ ?_) L.retTb_subset) L.indType_subset
  · exact L.field_subset (i := 267344) (by decide)
  · exact L.field_subset (i := 44) (by decide)

theorem buffers_subset : buffers L ⊆ L.emu := by
  rintro x (hx | hx)
  · exact Or.inl (Or.inr hx)
  · exact Or.inr hx

/-- `cpu_exec` leaves it parked. -/
theorem Parked.same {regs : Reg → Word} {fl : Word} {m m' : Mem} (h : Parked L regs fl m) (hs : SameOutside L m m')
    (hf : Disjoint (Span (regs .esp - 4) 4) L.emu) : Parked L regs fl m' := by
  refine h.congr (fun x hx => hs x (env_notMem_buffers (span_mono (by decide) hx)) ?_) fun x hx => ?_
  · have hd : ∀ {j l : Nat}, 32 ≤ j → j + l ≤ sizeofEnv → x ∉ Span (L.field j) l := fun {j l} h₁ h₂ => by
      have hd := L.disjoint_field (i := 0) (k := 32) (j := j) (l := l) (by omega) (by decide) h₂
      rw [Layout.field, BitVec.add_zero] at hd
      exact Set.disjoint_left.mp hd hx
    rintro (((h | h) | h) | h)
    · exact hd (j := 267344) (by decide) (by decide) h
    · exact hd (j := 44) (by decide) (by decide) h
    · exact hd (j := 56) (by decide) (by decide) h
    · exact hd (j := 1840212) (by decide) (by decide) h
  · exact hs x (fun h => Set.disjoint_left.mp hf hx (buffers_subset h))
      fun h => Set.disjoint_left.mp hf hx (Or.inl (Or.inl (Or.inl (envArea_subset h))))

/-- The way in writes on the host's stack and in `env->esp_tmp`. -/
theorem savedMem_of_notMem {c : Cpu} {x : Word} (hs : x ∉ Span (c.regs .esp - 16) 16) (he : x ∉ Span L.espTmp 4) :
    savedMem L c x = c.mem x := by
  have hout : ∀ {k : Nat}, 4 ≤ k → k ≤ 16 → x ∉ Span (c.regs .esp - BitVec.ofNat 32 k) 4 := fun {k} h₁ h₂ hx => by
    refine hs ?_
    have heq : c.regs .esp - BitVec.ofNat 32 k = c.regs .esp - 16 + BitVec.ofNat 32 (16 - k) := by bv_omega
    rw [heq] at hx
    exact span_subset_add (by omega) (by decide) hx
  rw [savedMem, Mem.st32_of_notMem he, Mem.st32_of_notMem, Mem.st32_of_notMem, Mem.st32_of_notMem, Mem.st32_of_notMem]
  · exact hout (k := 4) (by decide) (by decide)
  · exact hout (k := 8) (by decide) (by decide)
  · exact hout (k := 12) (by decide) (by decide)
  · exact hout (k := 16) (by decide) (by decide)

/-- The way in gives it back. -/
theorem Parked.enter {regs : Reg → Word} {fl : Word} {c : Cpu} (h : Parked L regs fl c.mem)
    (hc : Disjoint (Span (c.regs .esp - 16) 16) L.emu)
    (hf : Disjoint (Span (regs .esp - 4) 4) (Span (c.regs .esp - 16) 16))
    (hfe : Disjoint (Span (regs .esp - 4) 4) L.emu) :
    ((enterLine L).exec c).regs = regs ∧ ((enterLine L).exec c).eflags = fl ∧
      ((enterLine L).exec c).eip = c.mem.ld32 L.targetTc := by
  let c₁ := (saveLine L).exec c
  let c₂ := (loadGpr L (List.range 8)).exec c₁
  have hmem : c₂.mem = savedMem L c :=
    (exec_loadGpr (fun _ => none) (List.range 8) c₁ (by simp)).2.trans (exec_saveLine c)
  have hparked : Parked L regs fl (savedMem L c) := by
    refine h.congr (fun x hx => ?_) fun x hx => ?_
    · refine savedMem_frame hc (Or.inl (Or.inl (Or.inl (span_mono (by decide) hx)))) fun he => ?_
      have hd := L.disjoint_field (i := 0) (k := 32) (j := 48) (l := 4) (by omega) (by decide) (by decide)
      rw [Layout.field, BitVec.add_zero] at hd
      exact Set.disjoint_left.mp hd hx he
    · refine savedMem_of_notMem (Set.disjoint_left.mp hf hx) fun he => ?_
      exact Set.disjoint_left.mp hfe hx (env_subset_emu (k := 48) (by decide) he)
  have hregs : ∀ r, c₂.regs r = if r = .esp then regs .esp - 4 else regs r := fun r => by
    refine (regs_loadGpr (List.range 8) c₁ (by simp)).trans ?_
    rw [if_pos (List.mem_range.mpr (regIndex_lt r)), exec_saveLine, hparked.words]
  have hexec : (enterLine L).exec c = (jumpLine L).exec c₂ := by
    rw [enterLine, Line.exec_append, Line.exec_append]
  have htarget : c₂.mem.ld32 L.targetTc = c.mem.ld32 L.targetTc := by
    rw [hmem]
    refine Mem.ld32_congr fun x hx => savedMem_frame hc (env_subset_emu (k := 44) (by decide) hx) ?_
    exact Set.disjoint_left.mp (L.disjoint_field (i := 44) (j := 48) (by decide) (by decide) (by decide)) hx
  rw [hexec]
  refine ⟨?_, ?_, ?_⟩
  · funext r
    simp only [jumpLine, Line.exec, exec, Cpu.goto_regs, Cpu.setEflags_regs, Cpu.set_regs, hregs]
    by_cases hr : r = .esp
    · simp [hr]
    · simp [hr]
  · have hesp : c₂.regs .esp = regs .esp - 4 := by rw [hregs, if_pos rfl]
    simp only [jumpLine, Line.exec, exec, Cpu.goto_eflags, Cpu.setEflags_eflags, hesp, hmem]
    exact hparked.flags
  · simpa [jumpLine, Line.exec, exec, Cpu.read, absMem, Cpu.ea] using htarget

/-! ## Exits -/

/-- An exit from the code cache: the stub of a direct branch in slot `n` of the block `tb`, the end of
the inline chain of `tb`, and the end of a chain of the sieve. -/
inductive Exit
  | stub (p : Word) (tb : Nat) (n dest : Word)
  | chain (p : Word) (tb : Nat) (indType : Word)
  | sieve

namespace Exit

def start (L : Layout) : Exit → Word
  | stub p _ _ _ => p
  | chain p _ _ => p
  | sieve => sieveExit L

def bytes (L : Layout) : Exit → List Byte
  | stub p tb n dest => exitStubBytes L (tbRet L) p (L.tbPtr tb) n dest
  | chain p tb indType => exitTbBytes L (tbRet L) p (L.tbPtr tb) indType
  | sieve => sieveExitBytes L

/-- The buffer it is in. -/
def area (L : Layout) : Exit → Set Word
  | stub .. => Span L.sieveBuffer DEFAULT_SIEVE_BUFFER_SIZE
  | chain .. => Span L.codeGenBuffer DEFAULT_CODE_GEN_BUFFER_SIZE
  | sieve => Span L.codeGenPrologue sizeofPrologue

/-- The guest's registers at an exit: behind an indirect branch `ecx` and the target are on its stack. -/
def regs (c : Cpu) : Exit → Reg → Word
  | stub .. => c.regs
  | chain .. | sieve => poppedRegs c

/-- Where the guest goes. -/
def target (c : Cpu) : Exit → Word
  | stub _ _ _ dest => dest
  | chain .. | sieve => c.mem.ld32 (c.regs .esp + 4)

/-- What is left in `env->ret_tb`. -/
def retTb (L : Layout) : Exit → Word
  | stub _ tb _ _ => L.tbPtr tb
  | chain _ tb _ => L.tbPtr tb
  | sieve => 0

/-- The block of an exit is one of the table, its kind one of the two there are. -/
def Valid : Exit → Prop
  | stub _ tb _ _ => tb < codeGenMaxBlocks
  | chain _ tb indType => tb < codeGenMaxBlocks ∧ (indType = IND_TYPE_CALL ∨ indType = IND_TYPE_JMP)
  | sieve => True

end Exit

/-- The processor at an exit, `env` as `cpu_exec` left it. -/
structure AtExit (L : Layout) (e : Exit) (c : Cpu) : Prop where
  valid : e.Valid
  eip : c.eip = e.start L
  code : c.mem.At (e.start L) (e.bytes L)
  area : Span (e.start L) (e.bytes L).length ⊆ e.area L
  cache : CacheCode L c.mem
  retTb : c.mem.ld32 L.retTb = 0
  indType : c.mem.ld32 L.indType = NOT_IND

def exitStubLine (L : Layout) (p tb n dest : Word) : Line :=
  [(movAbs L.retTb tb, .movI (absMem L.retTb) tb), (movAbs L.patchNum n, .movI (absMem L.patchNum) n),
    (movAbs L.eip dest, .movI (absMem L.eip) dest),
    (jmpTo (p + 30) (tbRet L), .jmp (tbRet L - (p + 30 + 1) - 4))]

theorem bytes_exitStubLine (p tb n dest : Word) :
    (exitStubLine L p tb n dest).bytes = exitStubBytes L (tbRet L) p tb n dest := by
  simp [exitStubLine, exitStubBytes, Line.bytes]

/-- `movl $w, (a)` unless there is nothing to leave. -/
def leaveWord (a w : Word) : Line := if w ≠ -1 then [(movAbs a w, .movI (absMem a) w)] else []

theorem bytes_leaveWord (a w : Word) : (leaveWord a w).bytes = if w ≠ -1 then movAbs a w else [] := by
  unfold leaveWord
  split <;> simp [Line.bytes]

theorem exec_leaveWord {K : Code} {a : Word} (w : Word) (c : Cpu) (ha : Disjoint (Span a 4) K.dom) :
    (leaveWord a w).Runs K c ∧ (leaveWord a w).straight ∧
      (let c' := (leaveWord a w).exec c
       c'.regs = c.regs ∧ c'.eflags = c.eflags ∧ c'.mem = if w ≠ -1 then c.mem.st32 a w else c.mem) := by
  unfold leaveWord
  split
  · refine ⟨⟨by simp [movAbs], encodes_movAbs _ _, fun _ => rfl, ?_, trivial⟩, rfl, ?_⟩
    · simpa [Insn.writes, absMem, Cpu.ea] using ha
    · simp [Line.exec, exec, absMem, Cpu.ea]
  · exact ⟨trivial, rfl, rfl, rfl, rfl⟩

def popLine (L : Layout) : Line :=
  [([0x59], .pop (.reg .ecx)), ([0x8f, 0x05] ++ le32 L.eip, .pop (absMem L.eip))]

/-- The pops of `cemit_exit_tb` and what it leaves for `cpu_exec`. -/
def exitTbPre (L : Layout) (retTb indType : Word) : Line :=
  popLine L ++ (leaveWord L.retTb retTb ++ leaveWord L.indType indType)

def exitTbLine (L : Layout) (p retTb indType : Word) : Line :=
  let q := p + BitVec.ofNat 32 (exitTbPre L retTb indType).bytes.length
  exitTbPre L retTb indType ++ [(jmpTo q (tbRet L), .jmp (tbRet L - (q + 1) - 4))]

theorem bytes_exitTbLine (p retTb indType : Word) :
    (exitTbLine L p retTb indType).bytes = exitTbBytes L (tbRet L) p retTb indType := by
  have happ : ∀ l₁ l₂ : Line, (l₁ ++ l₂).bytes = l₁.bytes ++ l₂.bytes := fun l₁ l₂ => List.flatMap_append
  have hpop : (popLine L).bytes = [0x59] ++ ([0x8f, 0x05] ++ le32 L.eip) := rfl
  simp only [exitTbLine, exitTbPre, exitTbBytes, happ, bytes_leaveWord, hpop]
  simp [Line.bytes]

/-- The memory an exit leaves. -/
def Exit.mem (L : Layout) (c : Cpu) : Exit → Mem
  | .stub _ tb n dest => ((c.mem.st32 L.retTb (L.tbPtr tb)).st32 L.patchNum n).st32 L.eip dest
  | .chain _ tb indType =>
    ((c.mem.st32 L.eip (c.mem.ld32 (c.regs .esp + 4))).st32 L.retTb (L.tbPtr tb)).st32 L.indType indType
  | .sieve => (c.mem.st32 L.eip (c.mem.ld32 (c.regs .esp + 4))).st32 L.indType IND_TYPE_CALL

/-- The processor at `tb_ret_addr`. -/
structure Exited (L : Layout) (e : Exit) (c c' : Cpu) : Prop where
  eip : c'.eip = tbRet L
  regs : c'.regs = e.regs c
  eflags : c'.eflags = c.eflags
  mem : c'.mem = e.mem L c

theorem exit_field_subset {a : Word} (ha : a ∈ [L.eip, L.retTb, L.patchNum, L.indType]) :
    Span a 4 ⊆ Span L.env sizeofEnv := by
  simp only [List.mem_cons, List.not_mem_nil, or_false] at ha
  rcases ha with rfl | rfl | rfl | rfl
  · exact L.eip_subset
  · exact L.retTb_subset
  · exact L.patchNum_subset
  · exact L.indType_subset

theorem exec_exitStub {K : Code} {p t n d : Word} {c : Cpu} (hK : Disjoint (Span L.env sizeofEnv) K.dom)
    (he : c.eip = p) : (exitStubLine L p t n d).Runs K c ∧
      (let c' := (exitStubLine L p t n d).exec c
       c'.eip = tbRet L ∧ c'.regs = c.regs ∧ c'.eflags = c.eflags ∧
        c'.mem = ((c.mem.st32 L.retTb t).st32 L.patchNum n).st32 L.eip d) := by
  have hf : ∀ {a : Word}, a ∈ [L.eip, L.retTb, L.patchNum, L.indType] → Disjoint (Span a 4) K.dom := fun ha =>
    hK.mono_left (exit_field_subset ha)
  refine ⟨⟨by simp [movAbs], encodes_movAbs _ _, fun _ => rfl, ?_, by simp [movAbs], encodes_movAbs _ _, fun _ => rfl, ?_,
    by simp [movAbs], encodes_movAbs _ _, fun _ => rfl, ?_, by simp [jmpTo], encodes_jmp _, by simp,
    by simp [Insn.writes], trivial⟩, ?_, ?_, ?_, ?_⟩
  · simpa [Insn.writes, absMem, Cpu.ea] using hf (a := L.retTb) (by simp)
  · simpa [Insn.writes, absMem, Cpu.ea] using hf (a := L.patchNum) (by simp)
  · simpa [Insn.writes, absMem, Cpu.ea] using hf (a := L.eip) (by simp)
  · simp [exitStubLine, Line.exec, exec, absMem, Cpu.ea, he]
    bv_omega
  all_goals simp [exitStubLine, Line.exec, exec, absMem, Cpu.ea]

theorem exec_popLine {K : Code} (c : Cpu) (hK : Disjoint (Span L.eip 4) K.dom) :
    (popLine L).Runs K c ∧
      (let c' := (popLine L).exec c
       c'.regs = poppedRegs c ∧ c'.eflags = c.eflags ∧ c'.mem = c.mem.st32 L.eip (c.mem.ld32 (c.regs .esp + 4))) := by
  refine ⟨⟨by simp, encodes_pop 1, fun _ => rfl, by simp [Insn.writes], by simp, encodes_popAbs _, fun _ => rfl, ?_,
    trivial⟩, ?_, ?_, ?_⟩
  · simpa [Insn.writes, absMem, Cpu.ea] using hK
  · funext r
    cases r <;> simp [popLine, Line.exec, exec, absMem, poppedRegs, BitVec.add_assoc]
  all_goals simp [popLine, Line.exec, exec, absMem, Cpu.ea]

theorem exec_exitTbPre {K : Code} {r i : Word} {c : Cpu} (hK : Disjoint (Span L.env sizeofEnv) K.dom) :
    (exitTbPre L r i).Runs K c ∧ (exitTbPre L r i).straight ∧
      (let c' := (exitTbPre L r i).exec c
       c'.regs = poppedRegs c ∧ c'.eflags = c.eflags ∧
        c'.mem =
          let m := c.mem.st32 L.eip (c.mem.ld32 (c.regs .esp + 4))
          let m := if r ≠ -1 then m.st32 L.retTb r else m
          if i ≠ -1 then m.st32 L.indType i else m) := by
  obtain ⟨hrun₁, hregs₁, hfl₁, hmem₁⟩ := exec_popLine c (hK.mono_left L.eip_subset)
  obtain ⟨hrun₂, hst₂, hregs₂, hfl₂, hmem₂⟩ :=
    exec_leaveWord r ((popLine L).exec c) (hK.mono_left L.retTb_subset)
  obtain ⟨hrun₃, hst₃, hregs₃, hfl₃, hmem₃⟩ :=
    exec_leaveWord i ((leaveWord L.retTb r).exec ((popLine L).exec c)) (hK.mono_left L.indType_subset)
  have hstraight : ∀ {l₁ l₂ : Line}, l₁.straight → l₂.straight → (l₁ ++ l₂).straight := fun h₁ h₂ => by
    simp only [Line.straight, List.all_append, Bool.and_eq_true] at h₁ h₂ ⊢
    exact ⟨h₁, h₂⟩
  refine ⟨hrun₁.append rfl (hrun₂.append hst₂ hrun₃), hstraight rfl (hstraight hst₂ hst₃), ?_⟩
  simp only [exitTbPre, Line.exec_append]
  refine ⟨hregs₃.trans (hregs₂.trans hregs₁), hfl₃.trans (hfl₂.trans hfl₁), ?_⟩
  rw [hmem₃, hmem₂, hmem₁]

theorem tbPtr_toNat {tb : Nat} (h : tb < codeGenMaxBlocks) :
    (L.tbPtr tb).toNat = L.tbs.toNat + sizeofTranslationBlock * tb := by
  have hend := L.tbs_end
  have hsize : sizeofTranslationBlock = 256 := rfl
  have hmax : codeGenMaxBlocks = 2097152 := rfl
  rw [Layout.tbPtr]
  simp only [hsize, hmax] at *
  bv_omega

theorem tbPtr_ne {tb : Nat} (h : tb < codeGenMaxBlocks) : L.tbPtr tb ≠ -1 := by
  have hend := L.tbs_end
  have htb := tbPtr_toNat (L := L) h
  have hsize : sizeofTranslationBlock = 256 := rfl
  have hmax : codeGenMaxBlocks = 2097152 := rfl
  intro he
  rw [he] at htb
  have hneg : (-1 : Word).toNat = 4294967295 := rfl
  simp only [hsize, hmax] at *
  omega

theorem blockAt_tbPtr {tb : Nat} (h : tb < codeGenMaxBlocks) : blockAt L (L.tbPtr tb) = tb := by
  have htb := tbPtr_toNat (L := L) h
  have hend := L.tbs_end
  have hsize : sizeofTranslationBlock = 256 := rfl
  have hmax : codeGenMaxBlocks = 2097152 := rfl
  have hsub : (L.tbPtr tb - L.tbs).toNat = 256 * tb := by
    simp only [hsize, hmax] at *
    bv_omega
  rw [blockAt, hsub, hsize]
  omega

/-- An exit lies apart from `env` and from the way out. -/
theorem Exit.area_apart (e : Exit) : Disjoint (Span L.env sizeofEnv) (e.area L) := by
  cases e with
  | stub => exact L.env_sieve
  | chain => exact L.env_code
  | sieve => exact L.env_prologue

theorem AtExit.apart {e : Exit} {c : Cpu} (h : AtExit L e c) {i : Nat} (hi : 65 ≤ i) (hi' : i < 131) :
    L.codeGenPrologue + BitVec.ofNat 32 i ∉ Span (e.start L) (e.bytes L).length := by
  have hP : L.codeGenPrologue + BitVec.ofNat 32 i ∈ Span L.codeGenPrologue sizeofPrologue :=
    mem_span_add (by simp only [sizeofPrologue]; omega) (by decide)
  cases e with
  | stub => exact fun hx => Set.disjoint_left.mp L.prologue_sieve hP (h.area hx)
  | chain => exact fun hx => Set.disjoint_left.mp L.prologue_code hP (h.area hx)
  | sieve =>
    intro hx
    simp only [Exit.start, Exit.bytes, length_sieveExitBytes, sieveExit, mem_span] at hx
    bv_omega

/-- Every exit comes to `tb_ret_addr`. -/
theorem AtExit.exits {e : Exit} {c : Cpu} (h : AtExit L e c) :
    ∃ c', GoesBy (· = leaveRet L) c c' ∧ Exited L e c c' := by
  let K := Code.ofMem c.mem (Span (e.start L) (e.bytes L).length)
  have hdom : K.dom = Span (e.start L) (e.bytes L).length := Code.dom_ofMem _
  have hK : Disjoint (Span L.env sizeofEnv) K.dom := by
    rw [hdom]
    exact e.area_apart.mono_right h.area
  have hlen : (e.bytes L).length ≤ 35 := by
    cases e with
    | stub => simp [Exit.bytes]
    | chain p tb indType => exact (length_exitTbBytes_le ..).trans (by decide)
    | sieve => simp [Exit.bytes]
  have hret : tbRet L + BitVec.ofNat 32 65 = L.codeGenPrologue + BitVec.ofNat 32 130 := by
    rw [tbRet, BitVec.add_assoc, ← BitVec.ofNat_add]
  have hS : ∀ k, k < (e.bytes L).length → ¬ (c.eip + BitVec.ofNat 32 k = leaveRet L) := fun k hk he => by
    refine h.apart (i := 130) (by decide) (by decide) ?_
    rw [← hret, ← leaveRet, ← he, h.eip]
    exact mem_span_add hk (by omega)
  -- the line of an exit is its bytes, and does what it is to do
  have hline : ∀ l : Line, l ≠ [] → l.bytes = e.bytes L → l.Runs K c → Exited L e c (l.exec c) →
      ∃ c', GoesBy (· = leaveRet L) c c' ∧ Exited L e c c' := fun l hne hb hrun hx => by
    refine ⟨_, (goes_line hne (Code.holds_ofMem _ _) ?_ hrun fun k _ hk => ?_).1, hx⟩
    · rw [hb, h.eip]
      exact Code.placed_ofMem h.code (by omega) le_rfl
    · exact hS k (hb ▸ hk)
  have hpop : ∀ p w indType, e.bytes L = exitTbBytes L (tbRet L) p w indType → c.eip = p → e.regs c = poppedRegs c →
      e.mem L c = (
        let m := c.mem.st32 L.eip (c.mem.ld32 (c.regs .esp + 4))
        let m := if w ≠ -1 then m.st32 L.retTb w else m
        if indType ≠ -1 then m.st32 L.indType indType else m) →
      ∃ c', GoesBy (· = leaveRet L) c c' ∧ Exited L e c c' := fun p w indType hb hp hr hm => by
    obtain ⟨hrun, hst, hregs, hfl, hmem⟩ := exec_exitTbPre (r := w) (i := indType) (c := c) hK
    have hexec : ∀ rel, Line.exec [(jmpTo (p + BitVec.ofNat 32 (exitTbPre L w indType).bytes.length) (tbRet L), .jmp rel)]
        ((exitTbPre L w indType).exec c) = ((exitTbPre L w indType).exec c).goto
          (((exitTbPre L w indType).exec c).eip + 5 + rel) := fun _ => rfl
    refine hline (exitTbLine L p w indType) (by simp [exitTbLine]) ((bytes_exitTbLine p w indType).trans hb.symm) ?_ ?_
    · exact hrun.append hst ⟨by simp [jmpTo], encodes_jmp _, by simp, by simp [Insn.writes], trivial⟩
    · rw [exitTbLine, Line.exec_append, hexec]
      refine ⟨?_, ?_, ?_, ?_⟩
      · rw [Cpu.goto_eip, Line.exec_eip hst, hp]
        exact jmp_target ..
      · rw [Cpu.goto_regs, hregs, hr]
      · rw [Cpu.goto_eflags, hfl]
      · rw [Cpu.goto_mem, hmem, hm]
  cases e with
  | stub p tb n dest =>
    obtain ⟨hrun, heip, hregs, hfl, hmem⟩ := exec_exitStub (p := p) (t := L.tbPtr tb) (n := n) (d := dest) hK h.eip
    exact hline _ (by simp [exitStubLine]) (bytes_exitStubLine ..) hrun ⟨heip, hregs, hfl, hmem⟩
  | chain p tb indType =>
    have hne : L.tbPtr tb ≠ -1 := tbPtr_ne h.valid.1
    have hne' : indType ≠ -1 := by
      rcases h.valid.2 with rfl | rfl <;> decide
    refine hpop p (L.tbPtr tb) indType rfl h.eip rfl ?_
    simp only [if_pos hne, if_pos hne', Exit.mem]
  | sieve =>
    have hnone : ¬ ((-1 : Word) ≠ -1) := by simp
    have hkind : IND_TYPE_CALL ≠ -1 := by decide
    refine hpop (sieveExit L) (-1) IND_TYPE_CALL rfl h.eip rfl ?_
    simp only [if_neg hnone, if_pos hkind, Exit.mem]

/-! ## The visit to the dispatcher -/

/-- An exit writes in `env` only, and leaves there where the guest goes and which block it left. -/
theorem Exit.mem_frame (e : Exit) (c : Cpu) {x : Word} (hx : x ∉ Span L.env sizeofEnv) : e.mem L c x = c.mem x := by
  have hout : ∀ {a : Word}, a ∈ [L.eip, L.retTb, L.patchNum, L.indType] → x ∉ Span a 4 := fun ha h =>
    hx (exit_field_subset ha h)
  cases e with
  | stub p tb n dest =>
    rw [Exit.mem, Mem.st32_of_notMem (hout (by simp)), Mem.st32_of_notMem (hout (by simp)), Mem.st32_of_notMem (hout (by simp))]
  | chain p tb indType =>
    rw [Exit.mem, Mem.st32_of_notMem (hout (by simp)), Mem.st32_of_notMem (hout (by simp)), Mem.st32_of_notMem (hout (by simp))]
  | sieve => rw [Exit.mem, Mem.st32_of_notMem (hout (by simp)), Mem.st32_of_notMem (hout (by simp))]

theorem Exit.mem_fields {e : Exit} {c : Cpu} (h : AtExit L e c) :
    (e.mem L c).ld32 L.eip = e.target c ∧ (e.mem L c).ld32 L.retTb = e.retTb L ∧
      match e with
      | .stub _ _ n _ => (e.mem L c).ld32 L.patchNum = n ∧ (e.mem L c).ld32 L.indType = NOT_IND
      | .chain _ _ indType => (e.mem L c).ld32 L.indType = indType
      | .sieve => True := by
  have hr : Disjoint (Span L.eip 4) (Span L.retTb 4) := L.disjoint_field (i := 32) (j := 56) (by decide) (by decide) (by decide)
  have hp : Disjoint (Span L.eip 4) (Span L.patchNum 4) :=
    L.disjoint_field (i := 32) (j := 64) (by decide) (by decide) (by decide)
  have hi : Disjoint (Span L.eip 4) (Span L.indType 4) :=
    L.disjoint_field (i := 32) (j := 1840212) (by decide) (by decide) (by decide)
  have hpr : Disjoint (Span L.patchNum 4) (Span L.retTb 4) :=
    L.disjoint_field (i := 64) (j := 56) (by decide) (by decide) (by decide)
  have hpi : Disjoint (Span L.patchNum 4) (Span L.indType 4) :=
    L.disjoint_field (i := 64) (j := 1840212) (by decide) (by decide) (by decide)
  have hri : Disjoint (Span L.retTb 4) (Span L.indType 4) :=
    L.disjoint_field (i := 56) (j := 1840212) (by decide) (by decide) (by decide)
  cases e with
  | stub p tb n dest =>
    refine ⟨Mem.ld32_st32 .., ?_, ?_, ?_⟩
    · rw [Exit.mem, Mem.ld32_st32_of_disjoint hr, Mem.ld32_st32_of_disjoint hpr, Mem.ld32_st32]
      rfl
    · rw [Exit.mem, Mem.ld32_st32_of_disjoint hp, Mem.ld32_st32]
    · rw [Exit.mem, Mem.ld32_st32_of_disjoint hi, Mem.ld32_st32_of_disjoint hpi, Mem.ld32_st32_of_disjoint hri, h.indType]
  | chain p tb indType =>
    refine ⟨?_, ?_, Mem.ld32_st32 ..⟩
    · rw [Exit.mem, Mem.ld32_st32_of_disjoint hi.symm, Mem.ld32_st32_of_disjoint hr.symm, Mem.ld32_st32]
      rfl
    · rw [Exit.mem, Mem.ld32_st32_of_disjoint hri.symm, Mem.ld32_st32]
      rfl
  | sieve =>
    refine ⟨?_, ?_, trivial⟩
    · rw [Exit.mem, Mem.ld32_st32_of_disjoint hi.symm, Mem.ld32_st32]
      rfl
    · rw [Exit.mem, Mem.ld32_st32_of_disjoint hri.symm, Mem.ld32_st32_of_disjoint hr, h.retTb]
      rfl

/-- The C code calls `code_gen_prologue` with `host` as its own memory. -/
structure Calls (L : Layout) (host : Set Word) (m : Mem) (c : Cpu) : Prop where
  eip : c.eip = L.codeGenPrologue
  stack : Span (c.regs .esp - 16) 16 ⊆ host
  mem : ∀ x, x ∉ host → c.mem x = m x

/-- Memory of the host: neither the emulator's data nor the word of the guest's flags is in it. -/
structure HostOnly (L : Layout) (esp : Word) (host : Set Word) : Prop where
  emu : Disjoint host L.emu
  flags : Disjoint (Span (esp - 4) 4) host

/-- The guest goes on in the code cache with what was parked. -/
theorem Parked.entered {regs : Reg → Word} {fl : Word} {m m' : Mem} (h : Parked L regs fl m)
    (hcode : m.At L.codeGenPrologue (State.enterBytes L)) (hs : SameOutside L m m')
    (hf : Disjoint (Span (regs .esp - 4) 4) L.emu) {host : Set Word} (hh : HostOnly L (regs .esp) host) {c : Cpu}
    (hc : Calls L host m' c) :
    ∃ c', GoesBy (· ∉ Span L.codeGenPrologue 65) c c' ∧ c'.eip = m'.ld32 L.targetTc ∧ c'.regs = regs ∧
      c'.eflags = fl ∧ ∀ x, x ∉ L.emu → x ∉ host → c'.mem x = m x := by
  have hout : ∀ x ∈ L.emu, c.mem x = m' x := fun x hx => hc.mem x (Set.disjoint_right.mp hh.emu hx)
  have hparked : Parked L regs fl c.mem := by
    refine (h.same hs hf).congr (fun x hx => hout x ?_) fun x hx => hc.mem x (Set.disjoint_left.mp hh.flags hx)
    exact Or.inl (Or.inl (Or.inl (span_mono (by decide) hx)))
  have hstack : Disjoint (Span (c.regs .esp - 16) 16) L.emu := hh.emu.mono_left hc.stack
  have hcode' : c.mem.At L.codeGenPrologue (State.enterBytes L) := by
    refine hcode.congr (by simp) fun x hx => ?_
    rw [length_enterBytes] at hx
    have hP : x ∈ Span L.codeGenPrologue sizeofPrologue := span_mono (by decide) hx
    rw [hout x (Or.inl (Or.inl (Or.inr hP)))]
    refine hs x ?_ fun he => ?_
    · rintro (hx | hx)
      · exact Set.disjoint_left.mp L.prologue_code hP hx
      · exact Set.disjoint_left.mp L.prologue_sieve hP hx
    · exact Set.disjoint_left.mp L.env_prologue (envArea_subset he) hP
  obtain ⟨hregs, hfl, heip⟩ := hparked.enter hstack (hh.flags.mono_right hc.stack) hf
  refine ⟨_, goes_enterLine hcode' hc.eip hstack fun x hx => not_not.mpr hx, ?_, hregs, hfl, fun x hx hxh => ?_⟩
  · rw [heip]
    exact Mem.ld32_congr fun x hx => hout x (env_subset_emu (k := 44) (by decide) hx)
  · rw [exec_enterLine, savedMem_of_notMem fun h => hxh (hc.stack h), hc.mem x hxh]
    · exact hs x (fun hb => hx (buffers_subset hb)) fun he => hx (Or.inl (Or.inl (Or.inl (envArea_subset he))))
    · exact fun he => hx (env_subset_emu (k := 48) (by decide) he)

/-- What the guest is told of a visit that began with the registers `regs`, the flags `fl` and the
memory `m`, once `cpu_exec` has left the memory `m'`. -/
def Unseen (L : Layout) (regs : Reg → Word) (fl : Word) (m m' : Mem) : Prop :=
  ∀ host, HostOnly L (regs .esp) host → ∀ c, Calls L host m' c →
    ∃ c', GoesBy (· ∉ Span L.codeGenPrologue 65) c c' ∧ c'.eip = m'.ld32 L.targetTc ∧ c'.regs = regs ∧ c'.eflags = fl ∧
      ∀ x, x ∉ L.emu → x ∉ host → x ∉ Span (regs .esp - 4) 4 → c'.mem x = m x

/-- From the exit to the `ret` of the way out. -/
theorem AtExit.leaves {e : Exit} {c : Cpu} (h : AtExit L e c) (hf : Disjoint (Span (e.regs c .esp - 4) 4) L.emu) :
    ∃ c', Leaves L c c' ∧ c'.regs .eax = e.retTb L ∧ Parked L (e.regs c) c.eflags c'.mem ∧
      (∀ x, x ∉ Span L.env sizeofEnv → x ∉ Span (e.regs c .esp - 4) 4 → c'.mem x = c.mem x) ∧
      ∀ x, x ∉ Span L.env 32 → x ∈ Span L.env sizeofEnv → c'.mem x = e.mem L c x := by
  obtain ⟨c₁, hgoes, heip, hregs, hfl, hmem⟩ := h.exits
  have hcode : c₁.mem.At (tbRet L) (State.leaveBytes L) := by
    refine h.cache.leave.congr (by simp) fun x hx => ?_
    rw [length_leaveBytes] at hx
    rw [hmem]
    exact e.mem_frame c (Set.disjoint_right.mp (disjoint_env_prologue (by decide)) hx)
  have hf₁ : Disjoint (Span (c₁.regs .esp - 4) 4) L.emu := by rwa [hregs]
  have hleaves := leaves_exec hcode heip hf₁
  obtain ⟨hpark, hframe, heax⟩ := leaveLine_parks hf₁
  rw [hregs, hfl] at hpark
  rw [hregs, hmem] at hframe
  have hregion : Span L.env 32 ⊆ Span L.env sizeofEnv := span_mono (by decide)
  refine ⟨_, ⟨hgoes.trans ?_ hleaves.1, hleaves.2⟩, ?_, hpark, fun x he hs => ?_, fun x h₁ h₂ => ?_⟩
  · rw [heip, tbRet, leaveRet, tbRet]
    bv_omega
  · rw [heax, hmem, (Exit.mem_fields h).2.1]
  · rw [hframe x (fun hx => he (hregion hx)) hs, e.mem_frame c he]
  · exact hframe x h₁ fun hx => Set.disjoint_left.mp hf hx (Or.inl (Or.inl (Or.inl h₂)))

/-- The way out, an iteration of `cpu_exec` that writes what it may, and the way in. -/
theorem AtExit.unseen {e : Exit} {c c' : Cpu} (h : AtExit L e c) (hf : Disjoint (Span (e.regs c .esp - 4) 4) L.emu)
    (hc : Leaves L c c') {m' : Mem} (hs : SameOutside L c'.mem m') : Unseen L (e.regs c) c.eflags c.mem m' := by
  obtain ⟨c₁, hleaves, -, hpark, hframe, -⟩ := h.leaves hf
  obtain rfl := hc.unique hleaves
  have hcode : c'.mem.At L.codeGenPrologue (State.enterBytes L) := by
    refine h.cache.enter.congr (by simp) fun x hx => ?_
    rw [length_enterBytes] at hx
    have hP : x ∈ Span L.codeGenPrologue sizeofPrologue := span_mono (by decide) hx
    exact hframe x (Set.disjoint_right.mp L.env_prologue hP) fun hx' =>
      Set.disjoint_left.mp hf hx' (Or.inl (Or.inl (Or.inr hP)))
  intro host hh c₃ hc₃
  obtain ⟨c₄, hgoes, heip, hregs, hfl, hmem⟩ := hpark.entered hcode hs hf hh hc₃
  refine ⟨c₄, hgoes, heip, hregs, hfl, fun x hx hxh hxf => ?_⟩
  rw [hmem x hx hxh, hframe x (fun he => hx (Or.inl (Or.inl (Or.inl he)))) hxf]

/-! ## The first entry -/

/-- `codecache_prologue_init` writes in the tables, the prologue and the sieve's buffer, and moves the guest's stack. -/
theorem prologueMem_of_notMem (m : Mem) {x : Word} (ht : x ∉ Span L.retHashTable (4 * RET_CACHE_SIZE))
    (hs : x ∉ Span L.sieveHashtable (8 * SIEVE_SIZE)) (hp : x ∉ Span L.codeGenPrologue sizeofPrologue)
    (hb : x ∉ Span L.sieveBuffer DEFAULT_SIEVE_BUFFER_SIZE) :
    prologueMem L m x = m.st32 (L.reg 4) (m.ld32 (L.reg 4) - 4) x := by
  have hP : ∀ {i n : Nat}, i + n ≤ sizeofPrologue → x ∉ Span (L.codeGenPrologue + BitVec.ofNat 32 i) n := fun h hx =>
    hp (prologue_subset h hx)
  have h0 : x ∉ Span L.codeGenPrologue 65 := fun hx => hp (span_mono (by decide) hx)
  have h16 : x ∉ Span L.sieveBuffer 16 := fun hx => hb (span_mono (by decide) hx)
  rw [prologueMem, Mem.putTable_of_notMem (by simp) (by decide) ht, Mem.put_of_notMem,
    Mem.putTable_of_notMem (by simp) (by decide) hs, cacheCode, Mem.put_of_notMem, Mem.put_of_notMem,
    Mem.put_of_notMem, Mem.put_of_notMem]
  · exact h0
  · exact hP (by simp [sizeofPrologue])
  · exact h16
  · exact hP (by simp [sizeofPrologue])
  · exact hP (by simp [sizeofPrologue])

/-- The guest's registers before it runs. -/
def envRegs (L : Layout) (m : Mem) (r : Reg) : Word := m.ld32 (L.reg (regIndex r))

/-- The word reserved at initialisation: the first entry finds the context parked as any other does. -/
theorem parked_prologueMem (m : Mem) (hf : Disjoint (Span (envRegs L m .esp - 4) 4) L.emu) :
    Parked L (envRegs L m) (m.ld32 (envRegs L m .esp - 4)) (prologueMem L m) := by
  have henv : ∀ x ∈ Span L.env 72, prologueMem L m x = m.st32 (L.reg 4) (m.ld32 (L.reg 4) - 4) x := fun x hx => by
    have hd : ∀ {j l : Nat}, 72 ≤ j → j + l ≤ sizeofEnv → x ∉ Span (L.field j) l := fun {j l} h₁ h₂ => by
      have hd := L.disjoint_field (i := 0) (k := 72) (j := j) (l := l) (by omega) (by decide) h₂
      rw [Layout.field, BitVec.add_zero] at hd
      exact Set.disjoint_left.mp hd hx
    have hin : x ∈ Span L.env sizeofEnv := span_mono (by decide) hx
    exact prologueMem_of_notMem m (hd (j := 72) (by decide) (by decide)) (hd (j := 267344) (by decide) (by decide))
      (Set.disjoint_left.mp L.env_prologue hin) (Set.disjoint_left.mp L.env_sieve hin)
  refine ⟨fun r => ?_, Mem.ld32_congr fun x hx => ?_⟩
  · rw [Mem.ld32_congr fun x hx => henv x (span_mono (by decide) (reg_subset_env r hx))]
    by_cases hr : r = .esp
    · subst hr
      exact Mem.ld32_st32 ..
    · have hne : (4 : Nat) ≠ regIndex r := by
        revert hr
        cases r <;> decide
      rw [if_neg hr, Mem.ld32_st32_of_disjoint (disjoint_reg (by decide) (regIndex_lt r) hne)]
      rfl
  · have hx : x ∉ L.emu := Set.disjoint_left.mp hf hx
    have henv : ∀ {j l : Nat}, j + l ≤ sizeofEnv → x ∉ Span (L.field j) l := fun h hx' => hx (env_subset_emu h hx')
    rw [prologueMem_of_notMem m (henv (j := 72) (by decide)) (henv (j := 267344) (by decide))
      (fun h => hx (Or.inl (Or.inl (Or.inr h)))) fun h => hx (Or.inr h)]
    exact Mem.st32_of_notMem (henv (j := 16) (by decide))

/-- The first iteration of `cpu_exec` and the way in. -/
theorem unseen_first {m m' : Mem} (hf : Disjoint (Span (envRegs L m .esp - 4) 4) L.emu)
    (hs : SameOutside L (prologueMem L m) m') :
    Unseen L (envRegs L m) (m.ld32 (envRegs L m .esp - 4)) m m' := by
  intro host hh c hc
  obtain ⟨c', hgoes, heip, hregs, hfl, hmem⟩ :=
    (parked_prologueMem m hf).entered (cacheCode_prologueMem m).enter hs hf hh hc
  refine ⟨c', hgoes, heip, hregs, hfl, fun x hx hxh _ => ?_⟩
  have henv : ∀ {j l : Nat}, j + l ≤ sizeofEnv → x ∉ Span (L.field j) l := fun h hx' => hx (env_subset_emu h hx')
  rw [hmem x hx hxh, prologueMem_of_notMem m (henv (j := 72) (by decide)) (henv (j := 267344) (by decide))
    (fun h => hx (Or.inl (Or.inl (Or.inr h)))) fun h => hx (Or.inr h)]
  exact Mem.st32_of_notMem (henv (j := 16) (by decide))

end Unitrans
