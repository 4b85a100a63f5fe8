/-
The way into the code cache and out of it (`code_gen_prologue` and
`tb_ret_addr`), and what becomes of the registers of the C code around them.
-/
import Unitrans.PrologueFacts
import Unitrans.X86.Exec

namespace Unitrans

open X86

variable (L : Layout)

/-- The memory operand at an absolute address. -/
def absMem (a : Word) : Operand := .mem none none none a

/-- `mov (r), %r` for the registers `is`. -/
def loadGpr (is : List Nat) : Line := is.map fun i =>
  ([0x8b#8, 0x05#8 ||| (BitVec.ofNat 8 i <<< 3)] ++ le32 (L.reg i),
    .mov (.reg (Reg.ofBits (BitVec.ofNat 3 i))) (absMem (L.reg i)))

/-- `mov %r, (r)` for the registers `is`. -/
def storeGpr (is : List Nat) : Line := is.map fun i =>
  ([0x89#8, 0x05#8 ||| (BitVec.ofNat 8 i <<< 3)] ++ le32 (L.reg i),
    .mov (absMem (L.reg i)) (.reg (Reg.ofBits (BitVec.ofNat 3 i))))

/-- The host's registers on its stack, and its stack pointer in `env`. -/
def saveLine : Line :=
  [([0x53], .push (.reg .ebx)), ([0x55], .push (.reg .ebp)), ([0x56], .push (.reg .esi)),
    ([0x57], .push (.reg .edi)), ([0x89, 0x25] ++ le32 L.espTmp, .mov (absMem L.espTmp) (.reg .esp))]

/-- `popf; jmp *(target_tc)` -/
def jumpLine : Line := [([0x9d], .popf), ([0xff, 0x25] ++ le32 L.targetTc, .jmpInd (absMem L.targetTc))]

def enterLine : Line := saveLine L ++ (loadGpr L (List.range 8) ++ jumpLine L)

/-- The host's registers back from its stack; the block left in `eax`. -/
def restoreLine : Line :=
  [([0x8b, 0x25] ++ le32 L.espTmp, .mov (.reg .esp) (absMem L.espTmp)),
    ([0x5b], .pop (.reg .ebx)), ([0x5d], .pop (.reg .ebp)), ([0x5e], .pop (.reg .esi)),
    ([0x5f], .pop (.reg .edi)), ([0x8b, 0x05] ++ le32 L.retTb, .mov (.reg .eax) (absMem L.retTb))]

/-- The way out up to its `ret`. -/
def leaveLine : Line := [([0x9c], .pushf)] ++ (storeGpr L (List.range 8) ++ restoreLine L)

theorem bytes_enterLine : (enterLine L).bytes = State.enterBytes L := rfl

theorem bytes_leaveLine : (leaveLine L).bytes ++ [0xc3] = State.leaveBytes L := rfl

variable {L}

theorem setWidth_ofNat {i : Nat} (hi : i < 8) : (BitVec.ofNat 3 i).setWidth 8 = BitVec.ofNat 8 i := by
  apply BitVec.eq_of_toNat_eq
  simp
  omega

theorem exec_loadGpr (K : Code) : ∀ (is : List Nat) (c : Cpu), (∀ i ∈ is, i < 8) →
    (loadGpr L is).Runs K c ∧ ((loadGpr L is).exec c).mem = c.mem
  | [], _, _ => ⟨trivial, rfl⟩
  | i :: is, c, hi => by
    have henc := encodes_load (L.reg i) (BitVec.ofNat 3 i)
    rw [setWidth_ofNat (hi i (by simp))] at henc
    have ih := exec_loadGpr K is (exec (c.eip + BitVec.ofNat 32 6) c
      (.mov (.reg (Reg.ofBits (BitVec.ofNat 3 i))) (absMem (L.reg i)))) fun j hj => hi j (by simp [hj])
    refine ⟨⟨by simp, henc, fun _ => rfl, by simp [Insn.writes], ih.1⟩, ?_⟩
    exact ih.2.trans (by simp [exec])

theorem reg_subset {i : Nat} (hi : i < 8) : Span (L.reg i) 4 ⊆ Span L.env 32 :=
  span_subset_add (by omega) (by decide)

theorem exec_storeGpr {K : Code} (hK : Disjoint (Span L.env 32) K.dom) :
    ∀ (is : List Nat) (c : Cpu), (∀ i ∈ is, i < 8) →
      (storeGpr L is).Runs K c ∧ (∀ x, x ∉ Span L.env 32 → ((storeGpr L is).exec c).mem x = c.mem x)
  | [], _, _ => ⟨trivial, fun _ _ => rfl⟩
  | i :: is, c, hi => by
    have henc := encodes_store (L.reg i) (BitVec.ofNat 3 i)
    rw [setWidth_ofNat (hi i (by simp))] at henc
    let i₀ : Insn := .mov (absMem (L.reg i)) (.reg (Reg.ofBits (BitVec.ofNat 3 i)))
    let c' := exec (c.eip + BitVec.ofNat 32 6) c i₀
    have hw : ∀ x, x ∉ Span L.env 32 → c'.mem x = c.mem x := fun x hx => by
      simp only [c', i₀, exec, Cpu.write_mem, absMem, Cpu.goto_mem, Cpu.setMem_mem]
      exact Mem.st32_of_notMem fun h => hx (reg_subset (hi i (by simp)) (by simpa [Cpu.ea] using h))
    have ih := exec_storeGpr hK is c' fun j hj => hi j (by simp [hj])
    refine ⟨⟨by simp, henc, fun _ => rfl, ?_, ih.1⟩, fun x hx => (ih.2 x hx).trans (hw x hx)⟩
    simpa [Insn.writes, absMem, Cpu.ea] using hK.mono_left (reg_subset (hi i (by simp)))

/-! ## The way in -/

/-- The host's registers saved. -/
def savedMem (L : Layout) (c : Cpu) : Mem :=
  ((((c.mem.st32 (c.regs .esp - 4) (c.regs .ebx)).st32 (c.regs .esp - 8) (c.regs .ebp)).st32
    (c.regs .esp - 12) (c.regs .esi)).st32 (c.regs .esp - 16) (c.regs .edi)).st32 L.espTmp (c.regs .esp - 16)

theorem exec_saveLine (c : Cpu) : ((saveLine L).exec c).mem = savedMem L c := by
  simp [saveLine, Line.exec, exec, absMem, Cpu.read, Cpu.ea, savedMem, sub_sub]

theorem exec_enterLine (c : Cpu) : ((enterLine L).exec c).mem = savedMem L c := by
  have hload := (exec_loadGpr (L := L) (fun _ => none) (List.range 8) ((saveLine L).exec c) (by simp)).2
  rw [enterLine, Line.exec_append, Line.exec_append, ← exec_saveLine, ← hload]
  simp [jumpLine, Line.exec, exec]

/-- The C code calls `code_gen_prologue`, with room for four words on its stack. -/
structure Called (L : Layout) (c : Cpu) : Prop where
  code : c.mem.At L.codeGenPrologue (State.enterBytes L)
  eip : c.eip = L.codeGenPrologue
  stack : Disjoint (Span (c.regs .esp - 16) 16) L.emu
  target : c.mem.ld32 L.targetTc ∈ Span L.codeGenBuffer DEFAULT_CODE_GEN_BUFFER_SIZE

/-- The first arrival in the code buffer. -/
def Enters (L : Layout) : Cpu → Cpu → Prop :=
  FirstArrival.Arrives step fun c => c.eip ∈ Span L.codeGenBuffer DEFAULT_CODE_GEN_BUFFER_SIZE

theorem env_subset_emu {k n : Nat} (h : k + n ≤ sizeofEnv) : Span (L.field k) n ⊆ L.emu := fun _ hx =>
  Or.inl (Or.inl (Or.inl (L.field_subset h hx)))

theorem runs_enterLine {K : Code} {c : Cpu} (hK : K.dom ⊆ Span L.codeGenPrologue sizeofPrologue)
    (hc : Disjoint (Span (c.regs .esp - 16) 16) L.emu) : (enterLine L).Runs K c := by
  have hKe : K.dom ⊆ L.emu := fun _ hx => Or.inl (Or.inl (Or.inr (hK hx)))
  have hs : ∀ {k : Nat}, 4 ≤ k → k ≤ 16 → Disjoint (Span (c.regs .esp - BitVec.ofNat 32 k) 4) K.dom :=
    fun h₁ h₂ => (disjoint_below (n := 16) hc h₁ h₂ (by decide)).mono_right hKe
  have he : Disjoint (Span L.espTmp 4) K.dom :=
    L.env_prologue.mono (L.field_subset (i := 48) (by decide)) hK
  refine Line.Runs.append ⟨by simp, encodes_push 3, fun _ => rfl, ?_, by simp, encodes_push 5, fun _ => rfl, ?_,
    by simp, encodes_push 6, fun _ => rfl, ?_, by simp, encodes_push 7, fun _ => rfl, ?_, by simp,
    encodes_store _ 4, fun _ => rfl, ?_, trivial⟩ rfl (Line.Runs.append (exec_loadGpr K _ _ (by simp)).1 rfl ?_)
  · simpa [Insn.writes] using hs (k := 4) (by decide) (by decide)
  · simpa [Insn.writes, exec, sub_sub] using hs (k := 8) (by decide) (by decide)
  · simpa [Insn.writes, exec, sub_sub] using hs (k := 12) (by decide) (by decide)
  · simpa [Insn.writes, exec, sub_sub] using hs (k := 16) (by decide) (by decide)
  · simpa [Insn.writes, absMem, Cpu.ea] using he
  · exact ⟨by simp, encodes_popf, fun _ => rfl, by simp [Insn.writes], by simp, encodes_jmpAbs _, by simp,
      by simp [Insn.writes], trivial⟩

theorem savedMem_frame {c : Cpu} (hc : Disjoint (Span (c.regs .esp - 16) 16) L.emu) {x : Word} (hx : x ∈ L.emu)
    (he : x ∉ Span L.espTmp 4) : savedMem L c x = c.mem x := by
  have hs : ∀ {k : Nat}, 4 ≤ k → k ≤ 16 → x ∉ Span (c.regs .esp - BitVec.ofNat 32 k) 4 := fun h₁ h₂ h =>
    Set.disjoint_left.mp (disjoint_below (n := 16) hc h₁ h₂ (by decide)) h hx
  rw [savedMem, Mem.st32_of_notMem he, Mem.st32_of_notMem, Mem.st32_of_notMem, Mem.st32_of_notMem,
    Mem.st32_of_notMem]
  · exact hs (k := 4) (by decide) (by decide)
  · exact hs (k := 8) (by decide) (by decide)
  · exact hs (k := 12) (by decide) (by decide)
  · exact hs (k := 16) (by decide) (by decide)

/-- The way in runs to its jump. -/
theorem goes_enterLine {S : Word → Prop} {c : Cpu} (hcode : c.mem.At L.codeGenPrologue (State.enterBytes L))
    (he : c.eip = L.codeGenPrologue) (hc : Disjoint (Span (c.regs .esp - 16) 16) L.emu)
    (hS : ∀ x ∈ Span L.codeGenPrologue 65, ¬ S x) : GoesBy S c ((enterLine L).exec c) := by
  let K := Code.ofMem c.mem (Span L.codeGenPrologue 65)
  have hK : K.dom ⊆ Span L.codeGenPrologue sizeofPrologue := by
    rw [Code.dom_ofMem]
    exact span_mono (by decide)
  have hp : Code.Placed K c.eip ((enterLine L).bytes.map some) := by
    rw [bytes_enterLine, he]
    exact Code.placed_ofMem hcode (by simp) (by simp)
  refine (goes_line (by simp [enterLine, saveLine]) (Code.holds_ofMem _ _) hp (runs_enterLine hK hc) ?_).1
  intro k _ hk
  rw [bytes_enterLine, length_enterBytes] at hk
  rw [he]
  exact hS _ (mem_span_add hk (by decide))

/-- The code cache is entered at the block's code, the host's registers saved. -/
theorem enters {c : Cpu} (hc : Called L c) : ∃ c', Enters L c c' ∧ c'.mem = savedMem L c := by
  have hrun := goes_enterLine (S := (· ∈ Span L.codeGenBuffer DEFAULT_CODE_GEN_BUFFER_SIZE)) hc.code hc.eip hc.stack
    fun x hx => Set.disjoint_left.mp L.prologue_code (span_mono (by decide) hx)
  refine ⟨_, ⟨hrun, ?_⟩, exec_enterLine c⟩
  have heip : ((enterLine L).exec c).eip = ((enterLine L).exec c).mem.ld32 L.targetTc := by
    simp only [enterLine, Line.exec_append]
    simp [jumpLine, Line.exec, exec, Cpu.read, absMem, Cpu.ea]
  have htgt : (savedMem L c).ld32 L.targetTc = c.mem.ld32 L.targetTc := by
    refine Mem.ld32_congr fun x hx => savedMem_frame hc.stack (env_subset_emu (k := 44) (by decide) hx) ?_
    exact Set.disjoint_left.mp (L.disjoint_field (i := 44) (j := 48) (by decide) (by decide) (by decide)) hx
  show ((enterLine L).exec c).eip ∈ _
  rw [heip, exec_enterLine, htgt]
  exact hc.target

/-! ## The way out -/

/-- What ran in the code cache left the saved context alone and comes to
`tb_ret_addr`, its stack apart from the host's. -/
structure Returns (L : Layout) (c₁ c₂ : Cpu) : Prop where
  code : c₂.mem.At (tbRet L) (State.leaveBytes L)
  eip : c₂.eip = tbRet L
  espTmp : c₂.mem.ld32 L.espTmp = c₁.mem.ld32 L.espTmp
  saved : ∀ x ∈ Span (c₁.mem.ld32 L.espTmp) 16, c₂.mem x = c₁.mem x
  emu : Disjoint (Span (c₂.regs .esp - 4) 4) L.emu
  stack : Disjoint (Span (c₂.regs .esp - 4) 4) (Span (c₁.mem.ld32 L.espTmp) 16)

/-- The address of the `ret` at the end. -/
def leaveRet (L : Layout) : Word := tbRet L + BitVec.ofNat 32 65

/-- The first arrival at the `ret`. -/
def Leaves (L : Layout) : Cpu → Cpu → Prop := FirstArrival.Arrives step fun c => c.eip = leaveRet L

theorem savedMem_words {c : Cpu} (hc : Disjoint (Span (c.regs .esp - 16) 16) L.emu) :
    (savedMem L c).ld32 L.espTmp = c.regs .esp - 16 ∧
    (savedMem L c).ld32 (c.regs .esp - 16) = c.regs .edi ∧
    (savedMem L c).ld32 (c.regs .esp - 12) = c.regs .esi ∧
    (savedMem L c).ld32 (c.regs .esp - 8) = c.regs .ebp ∧
    (savedMem L c).ld32 (c.regs .esp - 4) = c.regs .ebx := by
  have he : ∀ {k : Nat}, 4 ≤ k → k ≤ 16 → Disjoint (Span L.espTmp 4) (Span (c.regs .esp - BitVec.ofNat 32 k) 4) :=
    fun h₁ h₂ => ((disjoint_below (n := 16) hc h₁ h₂ (by decide)).mono_right
      (env_subset_emu (k := 48) (by decide))).symm
  have hlt : ∀ {j k : Nat}, k + 4 ≤ j → 4 ≤ k → j < 2 ^ 32 →
      Disjoint (Span (c.regs .esp - BitVec.ofNat 32 j) 4) (Span (c.regs .esp - BitVec.ofNat 32 k) 4) := disjoint_sub
  refine ⟨Mem.ld32_st32 .., ?_, ?_, ?_, ?_⟩
  · rw [savedMem, Mem.ld32_st32_of_disjoint, Mem.ld32_st32]
    exact he (k := 16) (by decide) (by decide)
  · rw [savedMem, Mem.ld32_st32_of_disjoint, Mem.ld32_st32_of_disjoint, Mem.ld32_st32]
    · exact hlt (j := 16) (k := 12) (by decide) (by decide) (by decide)
    · exact he (k := 12) (by decide) (by decide)
  · rw [savedMem, Mem.ld32_st32_of_disjoint, Mem.ld32_st32_of_disjoint, Mem.ld32_st32_of_disjoint, Mem.ld32_st32]
    · exact hlt (j := 12) (k := 8) (by decide) (by decide) (by decide)
    · exact hlt (j := 16) (k := 8) (by decide) (by decide) (by decide)
    · exact he (k := 8) (by decide) (by decide)
  · rw [savedMem, Mem.ld32_st32_of_disjoint, Mem.ld32_st32_of_disjoint, Mem.ld32_st32_of_disjoint,
      Mem.ld32_st32_of_disjoint, Mem.ld32_st32]
    · exact hlt (j := 8) (k := 4) (by decide) (by decide) (by decide)
    · exact hlt (j := 12) (k := 4) (by decide) (by decide) (by decide)
    · exact hlt (j := 16) (k := 4) (by decide) (by decide) (by decide)
    · exact he (k := 4) (by decide) (by decide)

/-- The registers after the way out, from the memory it restores them from. -/
theorem exec_restoreLine (c : Cpu) :
    let c' := (restoreLine L).exec c
    let t := c.mem.ld32 L.espTmp
    c'.regs .esp = t + 16 ∧ c'.regs .ebx = c.mem.ld32 t ∧ c'.regs .ebp = c.mem.ld32 (t + 4) ∧
      c'.regs .esi = c.mem.ld32 (t + 8) ∧ c'.regs .edi = c.mem.ld32 (t + 12) ∧
      c'.regs .eax = c.mem.ld32 L.retTb := by
  simp [restoreLine, Line.exec, exec, Cpu.read, absMem, Cpu.ea, BitVec.add_assoc]

/-- The memory the registers are restored from: the guest's registers are stored
in `env`, its flags on its stack. -/
theorem leave_frame {c : Cpu} {K : Code} (hK : Disjoint (Span L.env 32) K.dom) {x : Word}
    (he : x ∉ Span L.env 32) (hs : x ∉ Span (c.regs .esp - 4) 4) :
    ((storeGpr L (List.range 8)).exec (exec (c.eip + 1) c .pushf)).mem x = c.mem x := by
  rw [(exec_storeGpr hK _ _ (by simp)).2 x he]
  simp only [exec, Cpu.goto_mem, Cpu.push_mem]
  exact Mem.st32_of_notMem hs

theorem runs_leaveLine {K : Code} {c : Cpu} (hK : Disjoint (Span L.env 32) K.dom)
    (hc : Disjoint (Span (c.regs .esp - 4) 4) K.dom) : (leaveLine L).Runs K c := by
  have hpush : Line.Runs K [([0x9c], .pushf)] c :=
    ⟨by simp, encodes_pushf, by simp, by simpa [Insn.writes] using hc, trivial⟩
  have hrestore : ∀ c, (restoreLine L).Runs K c := fun c =>
    ⟨by simp, encodes_load _ 4, fun _ => rfl, by simp [Insn.writes],
      by simp, encodes_pop 3, fun _ => rfl, by simp [Insn.writes],
      by simp, encodes_pop 5, fun _ => rfl, by simp [Insn.writes],
      by simp, encodes_pop 6, fun _ => rfl, by simp [Insn.writes],
      by simp, encodes_pop 7, fun _ => rfl, by simp [Insn.writes],
      by simp, encodes_load _ 0, by simp, by simp [Insn.writes], trivial⟩
  exact hpush.append rfl ((exec_storeGpr hK _ _ (by simp)).1.append rfl (hrestore _))

/-- The way out runs to its `ret`. -/
theorem leaves_exec {c : Cpu} (hcode : c.mem.At (tbRet L) (State.leaveBytes L)) (he : c.eip = tbRet L)
    (hc : Disjoint (Span (c.regs .esp - 4) 4) L.emu) : Leaves L c ((leaveLine L).exec c) := by
  let K := Code.ofMem c.mem (Span (tbRet L) 66)
  have hdom : K.dom = Span (tbRet L) 66 := Code.dom_ofMem _
  have hKe : Disjoint (Span L.env 32) K.dom := by
    rw [hdom]
    exact (disjoint_env_prologue (by decide)).mono_left (span_mono (by decide))
  have hKs : Disjoint (Span (c.regs .esp - 4) 4) K.dom := by
    rw [hdom]
    exact hc.mono_right fun x hx => Or.inl (Or.inl (Or.inr (prologue_subset (by decide) hx)))
  have hplaced : Code.Placed K c.eip ((State.leaveBytes L).map some) := by
    rw [he]
    exact Code.placed_ofMem hcode (by simp) (by simp)
  have hp : Code.Placed K c.eip ((leaveLine L).bytes.map some) := by
    rw [← bytes_leaveLine, List.map_append, Code.placed_append] at hplaced
    exact hplaced.1
  have hlen : (leaveLine L).bytes.length = 65 := rfl
  refine ⟨(goes_line (S := (· = leaveRet L)) (by simp [leaveLine]) (Code.holds_ofMem _ _) hp
    (runs_leaveLine hKe hKs) ?_).1, ?_⟩
  · intro k hk hk'
    rw [hlen] at hk'
    rw [he, leaveRet]
    bv_omega
  · show ((leaveLine L).exec c).eip = leaveRet L
    rw [Line.exec_eip rfl, he, hlen]
    rfl

/-- The way out reaches its `ret`, with the four registers popped in the order
they were pushed in. -/
theorem leaves {c₀ c₁ c₂ : Cpu} (h₀ : Called L c₀) (h₁ : c₁.mem = savedMem L c₀) (h₂ : Returns L c₁ c₂) :
    ∃ c₃, Leaves L c₂ c₃ ∧ c₃.regs .esp = c₀.regs .esp ∧ c₃.regs .ebx = c₀.regs .edi ∧
      c₃.regs .ebp = c₀.regs .esi ∧ c₃.regs .esi = c₀.regs .ebp ∧ c₃.regs .edi = c₀.regs .ebx ∧
      c₃.regs .eax = c₂.mem.ld32 L.retTb := by
  have hregs : Span L.env 32 ⊆ Span L.env sizeofEnv := span_mono (by decide)
  have hKe : Disjoint (Span L.env 32) (Code.ofMem c₂.mem (Span (tbRet L) 66)).dom := by
    rw [Code.dom_ofMem]
    exact (disjoint_env_prologue (by decide)).mono_left hregs
  refine ⟨_, leaves_exec h₂.code h₂.eip h₂.emu, ?_⟩
  -- the words it restores from are as the way in left them
  let c := (storeGpr L (List.range 8)).exec (exec (c₂.eip + 1) c₂ .pushf)
  have hexec : (leaveLine L).exec c₂ = (restoreLine L).exec c := by
    rw [leaveLine, Line.exec_append, Line.exec_append]
    rfl
  have hframe : ∀ x, x ∉ Span L.env 32 → x ∉ Span (c₂.regs .esp - 4) 4 → c.mem x = c₂.mem x :=
    fun x he hs => leave_frame hKe he hs
  have hfield : ∀ {k : Nat}, 32 ≤ k → k + 4 ≤ sizeofEnv → c.mem.ld32 (L.field k) = c₂.mem.ld32 (L.field k) :=
    fun {k} h h' => Mem.ld32_congr fun x hx => by
      have hd := L.disjoint_field (i := 0) (k := 32) (j := k) (l := 4) (by omega) (by decide) h'
      rw [Layout.field, BitVec.add_zero] at hd
      exact hframe x (Set.disjoint_right.mp hd hx) (Set.disjoint_right.mp h₂.emu (env_subset_emu h' hx))
  obtain ⟨hesp, hedi, hesi, hebp, hebx⟩ := savedMem_words h₀.stack
  have htmp : c₁.mem.ld32 L.espTmp = c₀.regs .esp - 16 := by rw [h₁, hesp]
  have htmp' : c.mem.ld32 L.espTmp = c₀.regs .esp - 16 := by
    rw [← htmp, ← h₂.espTmp]
    exact hfield (k := 48) (by decide) (by decide)
  have hword : ∀ {k : Nat}, k + 4 ≤ 16 → c.mem.ld32 (c₀.regs .esp - 16 + BitVec.ofNat 32 k) =
      (savedMem L c₀).ld32 (c₀.regs .esp - 16 + BitVec.ofNat 32 k) := by
    intro k hk
    refine Mem.ld32_congr fun x hx => ?_
    have hx : x ∈ Span (c₀.regs .esp - 16) 16 := span_subset_add hk (by decide) hx
    have hxs := htmp ▸ hx
    rw [hframe x, h₂.saved x hxs, h₁]
    · exact fun h => Set.disjoint_left.mp h₀.stack hx (Or.inl (Or.inl (Or.inl (hregs h))))
    · exact fun h => Set.disjoint_left.mp h₂.stack h hxs
  have hsub : ∀ k : Nat, c₀.regs .esp - 16 + BitVec.ofNat 32 k = c₀.regs .esp - (16 - BitVec.ofNat 32 k) := by
    intro k
    ring
  have hr := exec_restoreLine (L := L) c
  simp only [htmp'] at hr
  obtain ⟨r₁, r₂, r₃, r₄, r₅, r₆⟩ := hr
  rw [hexec, r₁, r₂, r₃, r₄, r₅, r₆]
  refine ⟨by ring, ?_, ?_, ?_, ?_, hfield (k := 56) (by decide) (by decide)⟩
  · have h := hword (k := 0) (by decide)
    rw [BitVec.add_zero] at h
    exact h.trans hedi
  · exact (hword (k := 4) (by decide)).trans (by rw [hsub]; exact hesi)
  · exact (hword (k := 8) (by decide)).trans (by rw [hsub]; exact hebp)
  · exact (hword (k := 12) (by decide)).trans (by rw [hsub]; exact hebx)

/-! ## The host's context -/

/-- What the calling convention asks of a visit to the code cache that began in
`c₀`, came to `tb_ret_addr` in `c₂` and is about to return in `c₃`. -/
def Preserves (L : Layout) (c₀ c₂ c₃ : Cpu) : Prop :=
  (∀ r ∈ [Reg.esp, .ebx, .ebp, .esi, .edi], c₃.regs r = c₀.regs r) ∧ c₃.regs .eax = c₂.mem.ld32 L.retTb

/-- A caller with registers `regs` but for its stack pointer. -/
def sampleCaller (regs : Reg → Word) : Cpu :=
  { regs := Function.update regs .esp 0x60000000, eflags := 2, eip := Layout.sample.codeGenPrologue
    segBase := fun _ => 0, undefAF := false
    mem := (prologueMem .sample fun _ => 0).st32 Layout.sample.targetTc 0x30000000 }

theorem disjoint_emu_sample {a : Word} {n : Nat} (ha : 0x52000000 ≤ a.toNat) (hn : a.toNat + n ≤ 2 ^ 32) :
    Disjoint (Span a n) Layout.sample.emu := by
  have h : ∀ {b : Word} {k : Nat}, b.toNat + k ≤ 0x52000000 → Disjoint (Span a n) (Span b k) := fun {b k} hb => by
    refine (disjoint_span_of_le (a := 0) ?_ ?_).symm <;> simp only [BitVec.ofNat_eq_ofNat, BitVec.sub_zero] <;> omega
  simp only [Layout.emu, Set.disjoint_union_right]
  exact ⟨⟨⟨h (by decide), h (by decide)⟩, h (by decide)⟩, h (by decide)⟩

theorem cacheCode_sampleCaller (regs : Reg → Word) : CacheCode .sample (sampleCaller regs).mem :=
  (cacheCode_prologueMem _).st32_field (k := 44) (by decide) _

theorem called_sampleCaller (regs : Reg → Word) : Called .sample (sampleCaller regs) := by
  refine ⟨(cacheCode_sampleCaller regs).enter, rfl, ?_, ?_⟩
  · exact disjoint_emu_sample (a := 0x60000000 - 16) (by decide) (by decide)
  · rw [sampleCaller, Mem.ld32_st32, mem_span]
    decide

theorem returns_sampleCaller {regs : Reg → Word} {c₁ : Cpu} (h₁ : c₁.mem = savedMem .sample (sampleCaller regs)) :
    Returns .sample c₁ ((c₁.set .esp 0x70000000).goto (tbRet .sample)) := by
  have hc := called_sampleCaller regs
  have htmp : c₁.mem.ld32 Layout.sample.espTmp = 0x5ffffff0 := by
    rw [h₁, (savedMem_words hc.stack).1]
    simp [sampleCaller]
  refine ⟨?_, by simp, by simp, by simp, ?_, ?_⟩
  · rw [Cpu.goto_mem, Cpu.set_mem, h₁]
    refine (cacheCode_sampleCaller regs).leave.congr (by simp) fun x hx => ?_
    have hP : x ∈ Span Layout.sample.codeGenPrologue sizeofPrologue := prologue_subset (by simp [sizeofPrologue]) hx
    refine savedMem_frame hc.stack (Or.inl (Or.inl (Or.inr hP))) fun he => ?_
    exact Set.disjoint_left.mp Layout.sample.env_prologue (Layout.sample.field_subset (i := 48) (by decide) he) hP
  · simpa using disjoint_emu_sample (a := 0x70000000 - 4) (by decide) (by decide)
  · rw [htmp]
    simpa using (disjoint_span_of_le (a := 0) (b := 0x5ffffff0) (k := 16) (c := 0x70000000 - 4) (l := 4)
      (by decide) (by decide)).symm

/-- With `ebx` other than `edi` the host's context is lost. -/
theorem not_preserves : ¬ ∀ (L : Layout) (c₀ c₁ c₂ c₃ : Cpu), Called L c₀ → Enters L c₀ c₁ → Returns L c₁ c₂ →
    Leaves L c₂ c₃ → Preserves L c₀ c₂ c₃ := by
  intro h
  have h₀ := called_sampleCaller fun r => if r = .ebx then 1 else 0
  obtain ⟨c₁, h₁, hm⟩ := enters h₀
  have h₂ := returns_sampleCaller hm
  obtain ⟨c₃, h₃, -, hebx, -⟩ := leaves h₀ hm h₂
  have := (h _ _ _ _ _ h₀ h₁ h₂ h₃).1 .ebx (by simp)
  rw [hebx] at this
  simp [sampleCaller] at this

/-- A visit can always return, and it preserves the host's context if and only if
the registers the epilogue exchanges hold the same. -/
theorem preserves_iff (L : Layout) {c₀ : Cpu} (h₀ : Called L c₀) :
    (∃ c₁, Enters L c₀ c₁) ∧ ∀ c₁, Enters L c₀ c₁ → ∀ c₂, Returns L c₁ c₂ →
      (∃ c₃, Leaves L c₂ c₃) ∧ ∀ c₃, Leaves L c₂ c₃ →
        (Preserves L c₀ c₂ c₃ ↔ c₀.regs .ebx = c₀.regs .edi ∧ c₀.regs .ebp = c₀.regs .esi) := by
  obtain ⟨c, hc, hm⟩ := enters h₀
  refine ⟨⟨c, hc⟩, fun c₁ h₁ c₂ h₂ => ?_⟩
  obtain rfl := hc.unique h₁
  obtain ⟨c₃, h₃, hesp, hebx, hebp, hesi, hedi, heax⟩ := leaves h₀ hm h₂
  refine ⟨⟨c₃, h₃⟩, fun c₃' h₃' => ?_⟩
  obtain rfl := h₃.unique h₃'
  simp only [Preserves, List.forall_mem_cons, hesp, hebx, hebp, hesi, hedi, heax]
  simp
  grind

/-- A caller whose registers are in use, those the epilogue exchanges with the same in them. -/
def pairedRegs : Reg → Word
  | .eax => 0x11111111
  | .ecx => 0x22222222
  | .edx => 0x33333333
  | .ebx | .edi => 0x08049000
  | .ebp | .esi => 0x5ffff100
  | .esp => 0

theorem preserves_iff_sample : ∃ c₁ c₂ c₃, Enters .sample (sampleCaller pairedRegs) c₁ ∧ Returns .sample c₁ c₂ ∧
    Leaves .sample c₂ c₃ ∧ Preserves .sample (sampleCaller pairedRegs) c₂ c₃ := by
  have h₀ := called_sampleCaller pairedRegs
  have h := preserves_iff .sample h₀
  obtain ⟨c₁, h₁, hm⟩ := enters h₀
  have h₂ := returns_sampleCaller hm
  obtain ⟨c₃, h₃⟩ := (h.2 c₁ h₁ _ h₂).1
  exact ⟨c₁, _, c₃, h₁, h₂, h₃, ((h.2 c₁ h₁ _ h₂).2 c₃ h₃).2 (by simp [sampleCaller, pairedRegs])⟩

end Unitrans
