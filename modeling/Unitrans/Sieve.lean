/-
The sieve: machine code that dispatches on a guest address. A bucket of the
table jumps to the first node of a chain, a node compares the address with its
own and jumps to its block or to the next node, and the last one to an exit
stub. Running it is a lookup in the list of the nodes (`goes_sieve`), and
`add_sieve_entry` puts its block in front of that list.
-/
import Unitrans.PrologueFacts

namespace Unitrans

open X86 FirstArrival Except

variable {L : Layout} {K : Code} {S : Word → Prop}

/-! ## Where a run may stop -/

/-- Runs are watched in the code buffer and at `tb_ret_addr` only. -/
def Quiet (L : Layout) (S : Word → Prop) : Prop :=
  ∀ x, S x → x ∈ Span L.codeGenBuffer DEFAULT_CODE_GEN_BUFFER_SIZE ∨ x = tbRet L

theorem Quiet.env (h : Quiet L S) {x : Word} (hx : x ∈ Span L.env sizeofEnv) : ¬ S x := by
  intro hs
  rcases h x hs with hc | rfl
  · exact Set.disjoint_left.mp L.env_code hx hc
  · have : tbRet L ∈ Span L.codeGenPrologue sizeofPrologue := mem_span_add (by decide) (by decide)
    exact Set.disjoint_left.mp L.env_prologue hx this

theorem Quiet.sieve (h : Quiet L S) {x : Word} (hx : x ∈ Span L.sieveBuffer DEFAULT_SIEVE_BUFFER_SIZE) : ¬ S x := by
  intro hs
  rcases h x hs with hc | rfl
  · exact Set.disjoint_left.mp L.code_sieve hc hx
  · have : tbRet L ∈ Span L.codeGenPrologue sizeofPrologue := mem_span_add (by decide) (by decide)
    exact Set.disjoint_left.mp L.prologue_sieve this hx

theorem Quiet.prologue (h : Quiet L S) {i : Nat} (hi : i < sizeofPrologue) (hn : i ≠ 65) :
    ¬ S (L.codeGenPrologue + BitVec.ofNat 32 i) := by
  have hs : sizeofPrologue = 2048 := rfl
  intro hx
  rcases h _ hx with hc | he
  · exact Set.disjoint_left.mp L.prologue_code (mem_span_add hi (by decide)) hc
  · rw [tbRet] at he
    bv_omega

/-! ## Leaving the sieve -/

/-- Both words popped, on to `a`. -/
def popBoth (c : Cpu) (a : Word) : Cpu :=
  ((c.set .ecx (c.mem.ld32 (c.regs .esp))).set .esp (c.regs .esp + 8)).goto a

/-- Out to the dispatcher with the address looked for. -/
def sieveMiss (L : Layout) (c : Cpu) : Cpu :=
  (popBoth c (tbRet L)).setMem
    ((c.mem.st32 L.eip (c.mem.ld32 (c.regs .esp + 4))).st32 L.indType IND_TYPE_CALL)

def exitLine (L : Layout) : Line :=
  [([0x59], .pop (.reg .ecx)), ([0x8f, 0x05] ++ le32 L.eip, .pop (.mem none none none L.eip)),
    (movAbs L.indType IND_TYPE_CALL, .movI (.mem none none none L.indType) IND_TYPE_CALL),
    (jmpTo (sieveExit L + 17) (tbRet L), .jmp (tbRet L - (sieveExit L + 17 + 1) - 4))]

theorem bytes_exitLine : (exitLine L).bytes = sieveExitBytes L := by
  simp [exitLine, sieveExitBytes, exitTbBytes, Line.bytes, IND_TYPE_CALL]

theorem goes_exit (hS : Quiet L S) (hK : K.Placed (sieveExit L) ((sieveExitBytes L).map some))
    (hd : Disjoint (Span L.env sizeofEnv) K.dom) {c : Cpu} (hc : Code.Holds c.mem K) (he : c.eip = sieveExit L) :
    GoesBy S c (sieveMiss L c) := by
  have hrun : (exitLine L).Runs K c := by
    refine ⟨by simp, encodes_pop 1, fun _ => rfl, by simp [Insn.writes], by simp, encodes_popAbs _, fun _ => rfl, ?_,
      by simp [movAbs], encodes_movAbs _ _, fun _ => rfl, ?_, by simp [jmpTo], encodes_jmp _, by simp,
      by simp [Insn.writes], trivial⟩
    · simpa [Insn.writes, Cpu.ea] using hd.mono_left L.eip_subset
    · simpa [Insn.writes, Cpu.ea] using hd.mono_left L.indType_subset
  have hexec : (exitLine L).exec c = sieveMiss L c := by
    apply Cpu.ext
    · funext r
      cases r <;> simp [exitLine, Line.exec, exec, Cpu.ea, sieveMiss, popBoth, BitVec.add_assoc]
    all_goals simp [exitLine, Line.exec, exec, Cpu.ea, sieveMiss, popBoth, BitVec.add_assoc]
    rw [he]
    bv_omega
  rw [← hexec]
  refine (goes_line (by simp [exitLine]) hc (by rwa [bytes_exitLine, he]) hrun fun k _ hk => ?_).1
  rw [bytes_exitLine, length_sieveExitBytes] at hk
  rw [he, sieveExit, BitVec.add_assoc, ← BitVec.ofNat_add]
  exact hS.prologue (by simp only [sizeofPrologue]; omega) (by omega)

/-! ## Nodes -/

def nodeHead (pc : Word) : Line :=
  [([0x8b, 0x4c, 0x24, 4], .mov (.reg .ecx) (.mem none (some .esp) none 4)),
    ([0x8d, 0x89] ++ le32 (-pc), .lea .ecx (.mem none (some .ecx) none (-pc))),
    ([0xe3, 0x05], .jecxz 5)]

def nodeHit (a tcPtr : Word) : Line :=
  [([0x59], .pop (.reg .ecx)), ([0x8d, 0x64, 0x24, 4], .lea .esp (.mem none (some .esp) none 4)),
    (jmpTo (a + 22) tcPtr, .jmp (tcPtr - (a + 22 + 1) - 4))]

theorem sieveNodeBytes_eq (a pc nextNode tcPtr : Word) : sieveNodeBytes a pc nextNode tcPtr =
    (nodeHead pc).bytes ++ jmpTo (a + 12) nextNode ++ (nodeHit a tcPtr).bytes := by
  simp [sieveNodeBytes, nodeHead, nodeHit, Line.bytes]

theorem placed_node {a pc nextNode tcPtr : Word}
    (h : K.Placed a ((sieveNodeBytes a pc nextNode tcPtr).map some)) :
    K.Placed a ((nodeHead pc).bytes.map some) ∧ K.Placed (a + 12) ((jmpTo (a + 12) nextNode).map some) ∧
      K.Placed (a + 17) ((nodeHit a tcPtr).bytes.map some) := by
  rw [sieveNodeBytes_eq, List.map_append, List.map_append, Code.placed_append, Code.placed_append] at h
  exact ⟨h.1.1, h.1.2, h.2⟩

/-- The comparison: on a hit control is at the hit stub, else at the jump to the next node. -/
theorem goes_nodeHead (hS : Quiet L S) {a pc nextNode tcPtr : Word}
    (h : K.Placed a ((sieveNodeBytes a pc nextNode tcPtr).map some))
    (ha : Span a 27 ⊆ Span L.sieveBuffer DEFAULT_SIEVE_BUFFER_SIZE)
    {c : Cpu} (hc : Code.Holds c.mem K) (he : c.eip = a) :
    GoesBy S c ((c.set .ecx (c.mem.ld32 (c.regs .esp + 4) - pc)).goto
      (if c.mem.ld32 (c.regs .esp + 4) = pc then a + 17 else a + 12)) := by
  have hrun : (nodeHead pc).Runs K c :=
    ⟨by simp, encodes_movEcx, fun _ => rfl, by simp [Insn.writes], by simp, encodes_leaEcx _, fun _ => rfl,
      by simp [Insn.writes], by simp, encodes_jecxz 5, by simp, by simp [Insn.writes], trivial⟩
  have hexec : (nodeHead pc).exec c = (c.set .ecx (c.mem.ld32 (c.regs .esp + 4) - pc)).goto
      (if c.mem.ld32 (c.regs .esp + 4) = pc then a + 17 else a + 12) := by
    have hz : c.mem.ld32 (c.regs .esp + 4) + -pc = 0 ↔ c.mem.ld32 (c.regs .esp + 4) = pc := by
      rw [← sub_eq_add_neg, sub_eq_zero]
    apply Cpu.ext
    · funext r
      cases r <;> simp [nodeHead, Line.exec, exec, Cpu.ea, Cpu.read, sub_eq_add_neg]
    all_goals simp [nodeHead, Line.exec, exec, Cpu.ea, Cpu.read, he, BitVec.add_assoc]
    simp only [BitVec.ofNat_eq_ofNat] at hz
    simp only [hz]
  rw [← hexec]
  refine (goes_line (by simp [nodeHead]) hc (by rw [he]; exact (placed_node h).1) hrun fun k _ hk => ?_).1
  rw [he]
  have : k < 12 := hk
  exact hS.sieve (ha (mem_span_add (by omega) (by decide)))

theorem goes_nodeHit (hS : Quiet L S) {a pc nextNode tcPtr : Word}
    (h : K.Placed a ((sieveNodeBytes a pc nextNode tcPtr).map some))
    (ha : Span a 27 ⊆ Span L.sieveBuffer DEFAULT_SIEVE_BUFFER_SIZE)
    {c : Cpu} (hc : Code.Holds c.mem K) (he : c.eip = a + 17) : GoesBy S c (popBoth c tcPtr) := by
  have hrun : (nodeHit a tcPtr).Runs K c :=
    ⟨by simp, encodes_pop 1, fun _ => rfl, by simp [Insn.writes], by simp, encodes_leaEsp4, fun _ => rfl,
      by simp [Insn.writes], by simp [jmpTo], encodes_jmp _, by simp, by simp [Insn.writes], trivial⟩
  have hexec : (nodeHit a tcPtr).exec c = popBoth c tcPtr := by
    apply Cpu.ext
    · funext r
      cases r <;> simp [nodeHit, Line.exec, exec, Cpu.ea, popBoth, BitVec.add_assoc]
    all_goals simp [nodeHit, Line.exec, exec, Cpu.ea, popBoth, he]
    bv_omega
  rw [← hexec]
  refine (goes_line (by simp [nodeHit]) hc (by rw [he]; exact (placed_node h).2.2) hrun fun k _ hk => ?_).1
  rw [he, BitVec.add_assoc]
  have : k < 10 := hk
  have hk' : 17#32 + BitVec.ofNat 32 k = BitVec.ofNat 32 (17 + k) := (BitVec.ofNat_add ..).symm
  rw [BitVec.ofNat_eq_ofNat, hk']
  exact hS.sieve (ha (mem_span_add (by omega) (by decide)))

/-! ## Chains -/

/-- From `a` the code is a chain through `nodes`, each a guest address and where its block's code is. -/
inductive Chain (L : Layout) (K : Code) : Word → List (Word × Word) → Prop
  | exit : Chain L K (sieveExit L) []
  | node {a pc nextNode tcPtr nodes} : K.Placed a ((sieveNodeBytes a pc nextNode tcPtr).map some) →
      Span a 27 ⊆ Span L.sieveBuffer DEFAULT_SIEVE_BUFFER_SIZE → Chain L K nextNode nodes →
      Chain L K a ((pc, tcPtr) :: nodes)

/-- Where a lookup that found `r` leaves the processor. -/
def sieveOut (L : Layout) (c : Cpu) : Option Word → Cpu
  | some tcPtr => popBoth c tcPtr
  | none => sieveMiss L c

theorem sieveOut_set (c : Cpu) (v a : Word) (r : Option Word) :
    sieveOut L ((c.set .ecx v).goto a) r = sieveOut L c r := by
  have hset : ∀ b, popBoth ((c.set .ecx v).goto a) b = popBoth c b := fun b => by
    apply Cpu.ext
    · funext r
      cases r <;> simp [popBoth]
    all_goals simp [popBoth]
  cases r with
  | some t => exact hset t
  | none => simp [sieveOut, sieveMiss, hset]

/-- The code of the sieve that stays. -/
structure SieveCode (L : Layout) (K : Code) : Prop where
  stub : K.Placed L.sieveBuffer ((sieveStubBytes L).map some)
  exit : K.Placed (sieveExit L) ((sieveExitBytes L).map some)
  env : Disjoint (Span L.env sizeofEnv) K.dom

theorem SieveCode.mono {K' : Code} (h : SieveCode L K) (hK : K.Le K') (hd : Disjoint (Span L.env sizeofEnv) K'.dom) :
    SieveCode L K' := ⟨h.stub.mono hK, h.exit.mono hK, hd⟩

theorem Chain.mono {K' : Code} {a : Word} {nodes : List (Word × Word)} (h : Chain L K a nodes) (hK : K.Le K') :
    Chain L K' a nodes := by
  induction h with
  | exit => exact .exit
  | node hp ha _ ih => exact .node (hp.mono hK) ha ih

theorem Chain.quiet (hS : Quiet L S) {a : Word} {nodes : List (Word × Word)} (h : Chain L K a nodes) : ¬ S a := by
  cases h with
  | exit => exact hS.prologue (i := 256) (by decide) (by decide)
  | node _ ha _ => exact hS.sieve (ha (mem_span.mpr (by simp)))

theorem goes_chain (hS : Quiet L S) (hK : SieveCode L K) {a : Word} {nodes : List (Word × Word)}
    (h : Chain L K a nodes) {c : Cpu} (hc : Code.Holds c.mem K) (he : c.eip = a) :
    GoesBy S c (sieveOut L c (nodes.lookup (c.mem.ld32 (c.regs .esp + 4)))) := by
  induction h generalizing c with
  | exit => exact goes_exit hS hK.exit hK.env hc he
  | @node a pc nextNode tcPtr nodes hp ha hn ih =>
    have hin : ∀ k : Nat, k < 27 → ¬ S (a + BitVec.ofNat 32 k) := fun k hk =>
      hS.sieve (ha (mem_span_add hk (by decide)))
    have hhead := goes_nodeHead hS hp ha hc he
    by_cases ht : c.mem.ld32 (c.regs .esp + 4) = pc
    · rw [if_pos ht] at hhead
      rw [List.lookup_cons, ht, beq_self_eq_true]
      have hhit := goes_nodeHit hS hp ha
        (c := (c.set .ecx (c.mem.ld32 (c.regs .esp + 4) - pc)).goto (a + 17)) (by simpa using hc) (by simp)
      rw [← sieveOut_set]
      exact hhead.trans (by simpa using hin 17 (by decide)) hhit
    · rw [if_neg ht] at hhead
      rw [List.lookup_cons, beq_false_of_ne ht]
      have hjmp : GoesBy S ((c.set .ecx (c.mem.ld32 (c.regs .esp + 4) - pc)).goto (a + 12))
          (((c.set .ecx (c.mem.ld32 (c.regs .esp + 4) - pc)).goto (a + 12)).goto nextNode) := by
        refine .single (step_jmpTo ?_)
        simpa using (show Code.Holds c.mem K from hc).at (placed_node hp).2.1
      have hrest := ih (c := (c.set .ecx (c.mem.ld32 (c.regs .esp + 4) - pc)).goto nextNode) (by simpa using hc)
        (by simp)
      rw [sieveOut_set] at hrest
      exact hhead.trans (by simpa using hin 12 (by decide))
        (hjmp.trans (by simpa using hn.quiet hS) (by simpa using hrest))

/-! ## The stub -/

def stubLine (L : Layout) : Line :=
  [([0x8b, 0x4c, 0x24, 4], .mov (.reg .ecx) (.mem none (some .esp) none 4)),
    ([0x0f, 0xb7, 0xc9], .movzw .ecx (.reg .ecx)),
    ([0x8d, 0x0c, 0xcd] ++ le32 L.sieveHashtable, .lea .ecx (.mem none none (some (.ecx, 3)) L.sieveHashtable)),
    ([0xff, 0xe1], .jmpInd (.reg .ecx))]

theorem bytes_stubLine : (stubLine L).bytes = sieveStubBytes L := by simp [stubLine, Line.bytes, sieveStubBytes]

/-- The bucket of an address. -/
def bucketOf (L : Layout) (pc : Word) : Word := bucket L (pc &&& 0xffff).toNat

theorem ofNat_mul_8 (x : Word) : BitVec.ofNat 32 (8 * x.toNat) = x <<< 3 := by
  apply BitVec.eq_of_toNat_eq
  rw [BitVec.toNat_ofNat, BitVec.toNat_shiftLeft, Nat.shiftLeft_eq]
  omega

/-- The entry for an address is made in its bucket. -/
theorem bucketOf_eq (pc : Word) : SIEVE_HASH L.sieveHashtable (pc <<< 3) = bucketOf L pc := by
  have hmask : (0xffff : Word) <<< 3 = SIEVE_MASK := by decide
  rw [bucketOf, bucket, ofNat_mul_8, BitVec.shiftLeft_and_distrib, hmask, SIEVE_HASH]

theorem bucketOf_mem (pc : Word) : Span (bucketOf L pc) 5 ⊆ Span L.env sizeofEnv := by
  have hlt : (pc &&& 0xffff).toNat ≤ 0xffff := by
    rw [BitVec.toNat_and]
    exact Nat.and_le_right
  rw [bucketOf, bucket_eq]
  exact L.field_subset (by simp only [sizeofEnv]; omega)

/-- Every bucket jumps to a chain, the chain of its addresses among `nodes`. -/
def SieveTable (L : Layout) (K : Code) (m : Mem) (nodes : List (Word × Word)) : Prop :=
  ∀ pc, ∃ a, m.At (bucketOf L pc) (jmpTo (bucketOf L pc) a) ∧
    Chain L K a (nodes.filter fun n => bucketOf L n.1 = bucketOf L pc)

theorem lookup_filter (nodes : List (Word × Word)) (pc : Word) :
    (nodes.filter fun n => bucketOf L n.1 = bucketOf L pc).lookup pc = nodes.lookup pc := by
  induction nodes with
  | nil => rfl
  | cons n nodes ih =>
    obtain ⟨p, t⟩ := n
    by_cases hp : pc = p
    · subst hp
      simp
    · rw [List.lookup_cons, beq_false_of_ne hp, List.filter_cons]
      split
      · rw [List.lookup_cons, beq_false_of_ne hp]
        exact ih
      · exact ih

/-- The stub computes the bucket of the address on the stack. -/
theorem goes_stub (hS : Quiet L S) (hK : SieveCode L K) {c : Cpu} (hc : Code.Holds c.mem K)
    (he : c.eip = L.sieveBuffer) :
    GoesBy S c ((c.set .ecx (bucketOf L (c.mem.ld32 (c.regs .esp + 4)))).goto
      (bucketOf L (c.mem.ld32 (c.regs .esp + 4)))) := by
  have hrun : (stubLine L).Runs K c :=
    ⟨by simp, encodes_movEcx, fun _ => rfl, by simp [Insn.writes], by simp, encodes_movzwEcx, fun _ => rfl,
      by simp [Insn.writes], by simp, encodes_leaTable _, fun _ => rfl, by simp [Insn.writes], by simp,
      encodes_jmpEcx, by simp, by simp [Insn.writes], trivial⟩
  let t := c.mem.ld32 (c.regs .esp + 4)
  have hexec : (stubLine L).exec c = (c.set .ecx (bucketOf L t)).goto (bucketOf L t) := by
    have hb : (t &&& 0xffff) <<< 3 + L.sieveHashtable = bucketOf L t := by
      rw [bucketOf, bucket, ofNat_mul_8, BitVec.add_comm]
    simp only [t, BitVec.ofNat_eq_ofNat] at hb
    apply Cpu.ext
    · funext r
      cases r <;> simp [stubLine, Line.exec, exec, Cpu.ea, Cpu.read, t, hb]
    all_goals simp [stubLine, Line.exec, exec, Cpu.ea, Cpu.read, t, hb]
  rw [← hexec]
  refine (goes_line (by simp [stubLine]) hc (by rw [bytes_stubLine, he]; exact hK.stub) hrun fun k _ hk => ?_).1
  rw [bytes_stubLine, length_sieveStubBytes] at hk
  rw [he]
  exact hS.sieve (mem_span_add (by simp only [DEFAULT_SIEVE_BUFFER_SIZE]; omega) (by decide))

/-- The sieve, entered at its stub with `ecx` and the address on the stack, is a lookup among the nodes. -/
theorem goes_sieve (hS : Quiet L S) (hK : SieveCode L K) {nodes : List (Word × Word)} {c : Cpu}
    (hc : Code.Holds c.mem K) (ht : SieveTable L K c.mem nodes) (he : c.eip = L.sieveBuffer) :
    GoesBy S c (sieveOut L c (nodes.lookup (c.mem.ld32 (c.regs .esp + 4)))) := by
  have hstub := goes_stub hS hK hc he
  let t := c.mem.ld32 (c.regs .esp + 4)
  obtain ⟨a, hat, hchain⟩ := ht t
  have hjmp : GoesBy S ((c.set .ecx (bucketOf L t)).goto (bucketOf L t)) ((c.set .ecx (bucketOf L t)).goto a) := by
    refine .single ?_
    rw [step_jmpTo (t := a) (by simpa using hat), Cpu.goto_goto]
  have hrest := goes_chain hS hK hchain (c := (c.set .ecx (bucketOf L t)).goto a) (by simpa using hc) (by simp)
  rw [sieveOut_set] at hrest
  have hin : ¬ S (bucketOf L t) := hS.env (bucketOf_mem t (mem_span.mpr (by simp)))
  rw [← lookup_filter nodes]
  exact hstub.trans (by simpa [t] using hin) (hjmp.trans (by simpa using hchain.quiet hS) (by simpa [t] using hrest))

/-! ## A new entry -/

/-- The sieve buffer is free from `sieve_code_ptr` on. -/
structure SieveRoom (L : Layout) (K : Code) (p : Word) : Prop where
  le : (p - L.sieveBuffer).toNat ≤ DEFAULT_SIEVE_BUFFER_SIZE
  free : ∀ x ∈ K.dom, x ∈ Span L.sieveBuffer DEFAULT_SIEVE_BUFFER_SIZE →
    (x - L.sieveBuffer).toNat < (p - L.sieveBuffer).toNat

theorem SieveRoom.span {p : Word} (h : SieveRoom L K p) {n : Nat} (hn : n ≤ 2 ^ 30)
    (hle : (p + BitVec.ofNat 32 n - L.sieveBuffer).toNat ≤ DEFAULT_SIEVE_BUFFER_SIZE) :
    Span p n ⊆ Span L.sieveBuffer DEFAULT_SIEVE_BUFFER_SIZE := by
  refine span_subset ?_
  have hs : DEFAULT_SIEVE_BUFFER_SIZE = 67108864 := rfl
  have := h.le
  have he : p + BitVec.ofNat 32 n - L.sieveBuffer = (p - L.sieveBuffer) + BitVec.ofNat 32 n := by ring
  rw [he] at hle
  generalize p - L.sieveBuffer = u at *
  bv_omega

theorem SieveRoom.fresh {p : Word} (h : SieveRoom L K p) {n : Nat} (hn : n ≤ 2 ^ 30)
    (hs : Span p n ⊆ Span L.sieveBuffer DEFAULT_SIEVE_BUFFER_SIZE) : Disjoint (Span p n) K.dom := by
  rw [Set.disjoint_left]
  intro x hx hd
  have hin := hs hx
  have hlt := h.free x hd hin
  have hle := h.le
  have hsz : DEFAULT_SIEVE_BUFFER_SIZE = 67108864 := rfl
  simp only [mem_span] at hx hin
  have he : x - p = (x - L.sieveBuffer) - (p - L.sieveBuffer) := by ring
  rw [he] at hx
  generalize x - L.sieveBuffer = u at *
  generalize p - L.sieveBuffer = v at *
  bv_omega

/-- The state after `add_sieve_entry` of block `b`, the chain of its bucket having started at `a`. -/
def State.sieveAdded (L : Layout) (s : State) (b : TranslationBlock) (a : Word) : State :=
  ((s.incSieveStat ((b.pc &&& SIEVE_MASK) >>> 3)).withMem
    (s.mem.st32 (bucketOf L b.pc + 1) (s.sieveCodePtr - (bucketOf L b.pc + 1) - 4))).emitSieve
    (sieveNodeBytes s.sieveCodePtr b.pc a b.tcPtr)

theorem addSieveEntry_eq {s : State} {i : Nat} {b : TranslationBlock} {a : Word} (ty : Word)
    (hb : s.tbs[i]? = some b) (ht : b.tcPtr ≠ NOT_TRANS_YET)
    (ha : s.mem.At (bucketOf L b.pc) (jmpTo (bucketOf L b.pc) a)) :
    s.addSieveEntry L i ty = do
      abortIf (BitVec.slt (BitVec.ofNat 32 DEFAULT_SIEVE_BUFFER_SIZE) (s.sieveCodePtr + 27 - L.sieveBuffer))
        "out of sieve buffer\n"
      return s.sieveAdded L b a := by
  have htb : s.tb i = .ok b := by rw [State.tb, hb]
  have hnext : bucketOf L b.pc + 5 + s.mem.ld32 (bucketOf L b.pc + 1) = a := by
    rw [show s.mem.ld32 (bucketOf L b.pc + 1) = a - (bucketOf L b.pc + 1) - 4 from
      Mem.ld32_of_at (Mem.At.cons.mp ha).2]
    bv_omega
  have hdisp : s.sieveCodePtr - (bucketOf L b.pc + 5) = s.sieveCodePtr - (bucketOf L b.pc + 1) - 4 := by bv_omega
  have hmem : (s.incSieveStat ((b.pc &&& SIEVE_MASK) >>> 3)).mem = s.mem := by cases s; rfl
  have hcode : (s.incSieveStat ((b.pc &&& SIEVE_MASK) >>> 3)).sieveCodePtr = s.sieveCodePtr := by cases s; rfl
  have hadd : ((s.incSieveStat ((b.pc &&& SIEVE_MASK) >>> 3)).st32 (bucketOf L b.pc + 1)
      (s.sieveCodePtr - (bucketOf L b.pc + 5))).cemitSieveNode b a = s.sieveAdded L b a := by
    rw [cemitSieveNode_eq, hdisp]
    cases s
    rfl
  have hptr : (s.sieveAdded L b a).sieveCodePtr = s.sieveCodePtr + 27 := by
    cases s
    rfl
  rw [State.addSieveEntry, htb, ok_bind, if_neg ht]
  simp only [bucketOf_eq, hmem, hcode, hnext, hadd, hptr]

theorem mem_sieveAdded (s : State) (b : TranslationBlock) (a : Word) : (s.sieveAdded L b a).mem =
    (s.mem.st32 (bucketOf L b.pc + 1) (s.sieveCodePtr - (bucketOf L b.pc + 1) - 4)).put s.sieveCodePtr
      (sieveNodeBytes s.sieveCodePtr b.pc a b.tcPtr) := by cases s; rfl

@[simp] theorem sieveCodePtr_sieveAdded (s : State) (b : TranslationBlock) (a : Word) :
    (s.sieveAdded L b a).sieveCodePtr = s.sieveCodePtr + 27 := by cases s; rfl

theorem bucketOf_span (pc : Word) : ∃ i ≤ 0xffff, bucketOf L pc = L.field (267344 + 8 * i) := by
  refine ⟨(pc &&& 0xffff).toNat, ?_, bucket_eq _⟩
  rw [BitVec.toNat_and]
  exact Nat.and_le_right

/-- Different buckets do not overlap. -/
theorem disjoint_bucketOf {p q : Word} (h : bucketOf L p ≠ bucketOf L q) :
    Disjoint (Span (bucketOf L p + 1) 4) (Span (bucketOf L q) 5) := by
  obtain ⟨i, hi, hp⟩ := bucketOf_span (L := L) p
  obtain ⟨j, hj, hq⟩ := bucketOf_span (L := L) q
  rw [hp, hq] at h ⊢
  have hne : i ≠ j := fun he => h (by rw [he])
  have h1 : L.field (267344 + 8 * i) + 1 = L.field (267344 + 8 * i + 1) := field_add _ 1
  rw [h1]
  exact L.disjoint_field (by omega) (by simp only [sizeofEnv]; omega) (by simp only [sizeofEnv]; omega)

theorem span_bucketOf_disp (pc : Word) : Span (bucketOf L pc + 1) 4 ⊆ Span L.env sizeofEnv :=
  (span_subset_add (i := 1) (k := 4) (by decide) (by decide)).trans (bucketOf_mem pc)

/-- The table after a node is put in front of its bucket's chain. -/
theorem SieveTable.cons {K' : Code} {m m' : Mem} {nodes : List (Word × Word)} {pc tcPtr a p : Word}
    (h : SieveTable L K m nodes) (hK : K.Le K') (ha : m.At (bucketOf L pc) (jmpTo (bucketOf L pc) a))
    (hnode : K'.Placed p ((sieveNodeBytes p pc a tcPtr).map some))
    (hp : Span p 27 ⊆ Span L.sieveBuffer DEFAULT_SIEVE_BUFFER_SIZE)
    (hb : m'.At (bucketOf L pc) (jmpTo (bucketOf L pc) p))
    (hm : ∀ q, bucketOf L q ≠ bucketOf L pc → ∀ x ∈ Span (bucketOf L q) 5, m' x = m x) :
    SieveTable L K' m' ((pc, tcPtr) :: nodes) := by
  intro q
  obtain ⟨a', ha', hc⟩ := h q
  by_cases hq : bucketOf L q = bucketOf L pc
  · rw [hq] at ha' hc ⊢
    obtain rfl : a = a' := by
      have h₁ := Mem.ld32_of_at (Mem.At.cons.mp ha).2
      have h₂ := Mem.ld32_of_at (Mem.At.cons.mp ha').2
      rw [h₁] at h₂
      bv_omega
    refine ⟨p, hb, ?_⟩
    rw [List.filter_cons_of_pos (by simp)]
    exact .node hnode hp (hc.mono hK)
  · refine ⟨a', ha'.congr (by simp) (hm q hq), ?_⟩
    rw [List.filter_cons_of_neg (by simpa using fun he => hq he.symm)]
    exact hc.mono hK

/-- The sieve within the whole state. -/
structure SieveInv (L : Layout) (K : Code) (s : State) (nodes : List (Word × Word)) : Prop where
  code : SieveCode L K
  holds : Code.Holds s.mem K
  table : SieveTable L K s.mem nodes
  room : SieveRoom L K s.sieveCodePtr

/-- `add_sieve_entry` puts the block in front of the list, in 27 free bytes of the buffer. -/
theorem addSieveEntry_spec {s s' : State} {i : Nat} {b : TranslationBlock} {ty : Word} {nodes : List (Word × Word)}
    (h : SieveInv L K s nodes) (hb : s.tbs[i]? = some b) (ht : b.tcPtr ≠ NOT_TRANS_YET)
    (hs : s.addSieveEntry L i ty = .ok s') :
    ∃ K' a, s' = s.sieveAdded L b a ∧ K.Le K' ∧ K'.dom ⊆ K.dom ∪ Span L.sieveBuffer DEFAULT_SIEVE_BUFFER_SIZE ∧
      SieveInv L K' s' ((b.pc, b.tcPtr) :: nodes) := by
  obtain ⟨a, ha, -⟩ := h.table b.pc
  rw [addSieveEntry_eq ty hb ht ha, abortIf] at hs
  split at hs
  · cases hs
  rename_i hfit
  obtain rfl : s.sieveAdded L b a = s' := Except.ok.inj hs
  have hle : (s.sieveCodePtr + 27 - L.sieveBuffer).toNat ≤ DEFAULT_SIEVE_BUFFER_SIZE := by
    have hroom := h.room.le
    have hsz : DEFAULT_SIEVE_BUFFER_SIZE = 67108864 := rfl
    have he : s.sieveCodePtr + 27 - L.sieveBuffer = (s.sieveCodePtr - L.sieveBuffer) + 27 := by ring
    rw [he] at hfit ⊢
    generalize s.sieveCodePtr - L.sieveBuffer = u at *
    simp only [Bool.not_eq_true, BitVec.slt, decide_eq_false_iff_not, BitVec.toInt, hsz] at hfit
    bv_omega
  have hspan : Span s.sieveCodePtr 27 ⊆ Span L.sieveBuffer DEFAULT_SIEVE_BUFFER_SIZE :=
    h.room.span (n := 27) (by decide) hle
  have hfresh := h.room.fresh (by decide) hspan
  have henv : Disjoint (Span (bucketOf L b.pc + 1) 4) K.dom := h.code.env.mono_left (span_bucketOf_disp _)
  let node := sieveNodeBytes s.sieveCodePtr b.pc a b.tcPtr
  have hKle : K.Le (K.add s.sieveCodePtr (node.map some)) := Code.le_add (by simpa [node] using hfresh)
  have hplaced : (K.add s.sieveCodePtr (node.map some)).Placed s.sieveCodePtr (node.map some) :=
    Code.placed_add (by simp [node])
  have hdom : (K.add s.sieveCodePtr (node.map some)).dom ⊆ K.dom ∪ Span s.sieveCodePtr 27 := by
    simpa [node] using Code.dom_add_subset (K := K) (a := s.sieveCodePtr) (p := node.map some)
  refine ⟨_, a, rfl, hKle, hdom.trans (Set.union_subset_union_right _ hspan), ?_, ?_, ?_, ?_⟩
  · refine h.code.mono hKle (Disjoint.mono_right hdom ?_)
    exact Set.disjoint_union_right.mpr ⟨h.code.env, L.env_sieve.mono_right hspan⟩
  · rw [mem_sieveAdded]
    exact (h.holds.st32 henv).add (by simp [node]) (by simp [node]) (by simpa [node] using hfresh)
      fun i b hb => by simpa [node] using hb
  · have hout : ∀ q, Disjoint (Span s.sieveCodePtr 27) (Span (bucketOf L q) 5) := fun q =>
      (L.env_sieve.mono (bucketOf_mem q) hspan).symm
    refine h.table.cons hKle ha hplaced hspan ?_ fun q hq x hx => ?_
    · rw [mem_sieveAdded]
      refine Mem.At.put ?_ (by simp) (hout b.pc)
      have hhead : s.mem.At (bucketOf L b.pc) [0xe9] := ha.left
      refine Mem.At.append.mpr ⟨hhead.st32 (by simp) ?_, Mem.At.put_self (by simp)⟩
      simpa using (disjoint_span_add (a := bucketOf L b.pc) (i := 0) (j := 1) (k := 1) (l := 4) (by decide)
        (by decide)).symm
    · rw [mem_sieveAdded, Mem.put_of_notMem fun hp => Set.disjoint_left.mp (hout q) hp hx, Mem.st32_of_notMem]
      exact fun hp => Set.disjoint_left.mp (disjoint_bucketOf (Ne.symm hq)) hp hx
  · rw [sieveCodePtr_sieveAdded]
    refine ⟨hle, fun x hx hb => ?_⟩
    have hroom := h.room.le
    have hsz : DEFAULT_SIEVE_BUFFER_SIZE = 67108864 := rfl
    have he : s.sieveCodePtr + 27 - L.sieveBuffer = (s.sieveCodePtr - L.sieveBuffer) + 27 := by ring
    rw [he] at hle ⊢
    rcases hdom hx with hx | hx
    · have := h.room.free x hx hb
      generalize s.sieveCodePtr - L.sieveBuffer = u at *
      bv_omega
    · have hxs : x - s.sieveCodePtr = (x - L.sieveBuffer) - (s.sieveCodePtr - L.sieveBuffer) := by ring
      rw [mem_span] at hb hx
      rw [hxs] at hx
      generalize s.sieveCodePtr - L.sieveBuffer = u at *
      generalize x - L.sieveBuffer = v at *
      bv_omega

end Unitrans
