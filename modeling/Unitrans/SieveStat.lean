/-
What the counters of the sieve count. A node goes into the bucket of the low 16 bits of
its address, and the counter is that of bits 3 to 18.
-/
import Unitrans.SieveRuns

namespace Unitrans

open X86 Except

variable {L : Layout}

/-! ## The nodes of a bucket -/

/-- The nodes linked into the chain of bucket `i`, the first one first. -/
def Linked (L : Layout) (m : Mem) (i : Nat) (nodes : List (Word × Word)) : Prop :=
  ∃ K a, Code.Holds m K ∧ m.At (bucket L i) (jmpTo (bucket L i) a) ∧ Chain L K a nodes

theorem jmpTo_target {m : Mem} {p a b : Word} (ha : m.At p (jmpTo p a)) (hb : m.At p (jmpTo p b)) : a = b := by
  have hda := Mem.ld32_of_at (Mem.At.cons.mp ha).2
  have hdb := Mem.ld32_of_at (Mem.At.cons.mp hb).2
  rw [hda] at hdb
  bv_omega

theorem exit_notMem_sieve : sieveExit L ∉ Span L.sieveBuffer DEFAULT_SIEVE_BUFFER_SIZE := by
  have hin : sieveExit L ∈ Span L.codeGenPrologue sizeofPrologue := mem_span_add (by decide) (by decide)
  exact Set.disjoint_left.mp L.prologue_sieve hin

theorem mem_of_subset {a : Word} (h : Span a 27 ⊆ Span L.sieveBuffer DEFAULT_SIEVE_BUFFER_SIZE) :
    a ∈ Span L.sieveBuffer DEFAULT_SIEVE_BUFFER_SIZE :=
  h (mem_span.mpr (by simp))

/-- Memory holds one chain at an address. -/
theorem Chain.length_unique {K K' : Code} {m : Mem} (hK : Code.Holds m K) (hK' : Code.Holds m K') {a : Word}
    {nodes nodes' : List (Word × Word)} (h : Chain L K a nodes) (h' : Chain L K' a nodes') : nodes.length = nodes'.length := by
  induction h generalizing nodes' with
  | exit =>
    cases h' with
    | exit => rfl
    | node _ ha _ => exact absurd (mem_of_subset ha) exit_notMem_sieve
  | node hp ha _ ih =>
    cases h' with
    | exit => exact absurd (mem_of_subset ha) exit_notMem_sieve
    | node hp' _ hn' =>
      have hnext := jmpTo_target (hK.at (placed_node hp).2.1) (hK'.at (placed_node hp').2.1)
      subst hnext
      rw [List.length_cons, List.length_cons, ih hn']

theorem Linked.length_unique {m : Mem} {i : Nat} {nodes nodes' : List (Word × Word)} (h : Linked L m i nodes)
    (h' : Linked L m i nodes') : nodes.length = nodes'.length := by
  obtain ⟨K, a, hK, ha, hc⟩ := h
  obtain ⟨K', a', hK', ha', hc'⟩ := h'
  have heq := jmpTo_target ha ha'
  subst heq
  exact hc.length_unique hK hK' hc'

/-! ## Runs -/

/-- A run from the prologue on, with the blocks added to the sieve, while nothing else touches the counters. -/
inductive CountedRun (L : Layout) : State → List TranslationBlock → Prop
  | init (s : State) : (∀ i, s.sieveStat i = 0) → CountedRun L (s.cachePrologue L) []
  | add {s s' added i b ty} : CountedRun L s added → s.tbs[i]? = some b → Translated L b →
      s.addSieveEntry L i ty = .ok s' → CountedRun L s' (b :: added)
  | other {s s' added} : CountedRun L s added → KeepsSieve L s s' → s'.sieveStat = s.sieveStat → CountedRun L s' added

/-- The bucket of a block's node. -/
def bucketIndex (b : TranslationBlock) : Word := b.pc &&& 0xffff

/-- The counter `add_sieve_entry` increments for a block. -/
def statIndex (b : TranslationBlock) : Word := (b.pc &&& SIEVE_MASK) >>> 3

/-- What a run keeps of the counters. -/
structure CountedReach (L : Layout) (K : Code) (s : State) (added : List TranslationBlock) : Prop where
  reach : SieveReach L K s added
  stat : ∀ i, s.sieveStat i = BitVec.ofNat 32 (added.countP fun b => statIndex b = i)
  room : 27 * added.length ≤ (s.sieveCodePtr - L.sieveBuffer).toNat

theorem CountedReach.add {K : Code} {s s' : State} {added : List TranslationBlock} {i : Nat} {b : TranslationBlock}
    {ty : Word} (h : CountedReach L K s added) (hb : s.tbs[i]? = some b) (ht : Translated L b)
    (hs : s.addSieveEntry L i ty = .ok s') : ∃ K', CountedReach L K' s' (b :: added) := by
  obtain ⟨K', hreach⟩ := h.reach.add hb ht hs
  obtain ⟨-, a, hs', -⟩ := addSieveEntry_spec h.reach.inv hb ht.ne hs
  refine ⟨K', hreach, fun j => ?_, ?_⟩
  · have hstat : s'.sieveStat = Function.update s.sieveStat (statIndex b) (s.sieveStat (statIndex b) + 1) := by
      rw [hs']
      cases s
      rfl
    rw [hstat, List.countP_cons]
    by_cases hj : j = statIndex b
    · rw [hj, Function.update_self, h.stat, if_pos (by simp), BitVec.ofNat_add]
      rfl
    · rw [Function.update_of_ne hj, h.stat, if_neg (by simpa using Ne.symm hj), Nat.add_zero]
  · have hptr : s'.sieveCodePtr = s.sieveCodePtr + 27 := by rw [hs', sieveCodePtr_sieveAdded]
    have hroom := h.reach.inv.room.le
    have hlen := h.room
    have hsize : DEFAULT_SIEVE_BUFFER_SIZE = 67108864 := rfl
    rw [hptr, List.length_cons, show s.sieveCodePtr + 27 - L.sieveBuffer = (s.sieveCodePtr - L.sieveBuffer) + 27 by ring]
    generalize s.sieveCodePtr - L.sieveBuffer = u at *
    bv_omega

theorem CountedRun.reach {s : State} {added : List TranslationBlock} (h : CountedRun L s added) :
    ∃ K, CountedReach L K s added := by
  induction h with
  | init s h0 =>
    obtain ⟨K, hK⟩ := SieveReach.init (L := L) s
    refine ⟨K, hK, fun i => ?_, Nat.zero_le _⟩
    rw [cachePrologue_eq]
    exact h0 i
  | add _ hb ht hs ih =>
    obtain ⟨K, hK⟩ := ih
    exact hK.add hb ht hs
  | other _ hk hstat ih =>
    obtain ⟨K, hK⟩ := ih
    exact ⟨K, hK.reach.other hk, fun i => by rw [hstat, hK.stat], hK.room.trans hk.grows⟩

/-! ## The counters -/

theorem bucketOf_ofNat {i : Nat} (hi : i < SIEVE_SIZE) : bucketOf L (BitVec.ofNat 32 i) = bucket L i := by
  have hmask : (BitVec.ofNat 32 i &&& 0xffff).toNat = i := by
    rw [BitVec.toNat_and, BitVec.toNat_ofNat, Nat.mod_eq_of_lt (show i < 2 ^ 32 by unfold SIEVE_SIZE at hi; omega)]
    show i &&& (2 ^ 16 - 1) = i
    rw [Nat.and_two_pow_sub_one_eq_mod]
    exact Nat.mod_eq_of_lt hi
  rw [bucketOf, hmask]

/-- A block's node is in bucket `i` when the low bits of its address are `i`. -/
theorem bucketOf_eq_bucket {b : TranslationBlock} {i : Nat} (hi : i < SIEVE_SIZE) :
    bucketOf L b.pc = bucket L i ↔ bucketIndex b = BitVec.ofNat 32 i := by
  have hlt : (b.pc &&& 0xffff).toNat < SIEVE_SIZE := by
    rw [BitVec.toNat_and]
    exact Nat.lt_succ_of_le Nat.and_le_right
  unfold SIEVE_SIZE at hi hlt
  unfold bucketOf bucketIndex bucket
  generalize b.pc &&& 0xffff = low at *
  constructor
  · intro h
    have hoff := add_left_cancel h
    have := congrArg BitVec.toNat hoff
    rw [BitVec.toNat_ofNat, BitVec.toNat_ofNat] at this
    apply BitVec.eq_of_toNat_eq
    rw [BitVec.toNat_ofNat]
    omega
  · intro h
    rw [h, BitVec.toNat_ofNat, Nat.mod_eq_of_lt (by omega)]

theorem CountedReach.linked {K : Code} {s : State} {added : List TranslationBlock} (h : CountedReach L K s added) {i : Nat}
    (hi : i < SIEVE_SIZE) :
    ∃ nodes, Linked L s.mem i nodes ∧ nodes.length = added.countP fun b => bucketIndex b = BitVec.ofNat 32 i := by
  obtain ⟨a, ha, hc⟩ := h.reach.inv.table (BitVec.ofNat 32 i)
  rw [bucketOf_ofNat hi] at ha hc
  refine ⟨_, ⟨K, a, h.reach.inv.holds, ha, hc⟩, ?_⟩
  rw [← List.countP_eq_length_filter, List.countP_map]
  apply List.countP_congr
  intro b _
  rw [Function.comp_apply, decide_eq_true_iff, decide_eq_true_iff]
  exact bucketOf_eq_bucket hi

/-- Each counter is the number of nodes in its bucket. -/
def StatDescribes (L : Layout) (s : State) : Prop :=
  ∀ i < SIEVE_SIZE, ∃ nodes, Linked L s.mem i nodes ∧ (s.sieveStat (BitVec.ofNat 32 i)).toNat = nodes.length

theorem CountedReach.counts_iff {K : Code} {s : State} {added : List TranslationBlock} (hK : CountedReach L K s added) :
    StatDescribes L s ↔ ∀ i < SIEVE_SIZE,
      (added.countP fun b => statIndex b = BitVec.ofNat 32 i) = added.countP fun b => bucketIndex b = BitVec.ofNat 32 i := by
  have hstat (i : Nat) : (s.sieveStat (BitVec.ofNat 32 i)).toNat = added.countP fun b => statIndex b = BitVec.ofNat 32 i := by
    have hle : (added.countP fun b => statIndex b = BitVec.ofNat 32 i) ≤ added.length := List.countP_le_length
    have hroom := hK.room
    have hfits := hK.reach.inv.room.le
    have hsize : DEFAULT_SIEVE_BUFFER_SIZE = 67108864 := rfl
    rw [hK.stat, BitVec.toNat_ofNat, Nat.mod_eq_of_lt (by omega)]
  constructor
  · intro hdesc i hi
    obtain ⟨nodes, hlinked, hlen⟩ := hdesc i hi
    obtain ⟨nodes', hlinked', hlen'⟩ := hK.linked hi
    rw [← hstat, hlen, ← hlen']
    exact hlinked.length_unique hlinked'
  · intro hcounts i hi
    obtain ⟨nodes, hlinked, hlen⟩ := hK.linked hi
    exact ⟨nodes, hlinked, by rw [hstat, hcounts i hi, hlen]⟩

/-- The counters describe the sieve just when every bucket was given as many blocks as are counted in it. -/
theorem statDescribes_iff {s : State} {added : List TranslationBlock} (hr : CountedRun L s added) :
    StatDescribes L s ↔ ∀ i < SIEVE_SIZE,
      (added.countP fun b => statIndex b = BitVec.ofNat 32 i) = added.countP fun b => bucketIndex b = BitVec.ofNat 32 i := by
  obtain ⟨K, hK⟩ := hr.reach
  exact hK.counts_iff

/-- A block whose node and counter have different numbers. -/
def countedBlock : TranslationBlock := { pc := 0x08048000, tcPtr := 0x30000000 }

theorem countedRun_one : ∃ s, CountedRun .sample s [countedBlock] := by
  obtain ⟨s₀, h₀, hp⟩ : ∃ s₀ : State, CountedRun .sample s₀ [] ∧ s₀.sieveCodePtr = 0x40000010 :=
    ⟨_, .init (.boot .sample fun _ => 0) fun _ => rfl, by rw [cachePrologue_eq]; rfl⟩
  have htr : Translated .sample countedBlock := by
    rw [Translated, mem_span]
    decide
  have h₁ : CountedRun .sample { s₀ with tbs := [countedBlock] } [] := by
    refine .other h₀ ⟨rfl, rfl, fun _ _ => rfl, le_rfl, ?_⟩ rfl
    simp only [hp]
    decide
  obtain ⟨K, hK⟩ := h₁.reach
  obtain ⟨s₁, hadd, -⟩ := hK.reach.exists_add (i := 0) rfl htr 1 (by simp only [hp]; decide)
  exact ⟨s₁, h₁.add rfl htr hadd⟩

theorem statDescribes_iff_one : ∃ s, StatDescribes .sample s ↔ ∀ i < SIEVE_SIZE,
    ([countedBlock].countP fun b => statIndex b = BitVec.ofNat 32 i) =
      [countedBlock].countP fun b => bucketIndex b = BitVec.ofNat 32 i := by
  obtain ⟨s, hs⟩ := countedRun_one
  exact ⟨s, statDescribes_iff hs⟩

theorem not_statDescribes :
    ¬∀ (s : State) (added : List TranslationBlock), CountedRun .sample s added → StatDescribes .sample s := by
  intro hall
  obtain ⟨s, hs⟩ := countedRun_one
  obtain ⟨K, hK⟩ := hs.reach
  have hcounts := hK.counts_iff.mp (hall s _ hs) 0x8000 (by decide)
  exact absurd hcounts (by decide)

end Unitrans
