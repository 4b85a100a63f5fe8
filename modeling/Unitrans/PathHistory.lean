/-
The path that the statistics take from the ring. The place to read goes back by 0, 1, 2
and 3, each from the last one, so the path is the blocks 1, 2, 4 and 7 back and not the
last four.
-/
import Unitrans.PathNodes

namespace Unitrans

open X86

namespace PathStack

/-- The block that was pushed last but `i`. -/
def recent (s : PathStack) (i : Nat) : Word := s.base ((s.index + PATH_STACK_SIZE - 1 - i) % PATH_STACK_SIZE)

/-- The last `PATH_DEPTH` blocks, the last one first. -/
def lastBlocks (s : PathStack) : List Word := (List.range PATH_DEPTH).map s.recent

/-- The blocks that the path is made of. -/
def readBlocks (s : PathStack) : List Word := [s.recent 0, s.recent 1, s.recent 3, s.recent 6]

/-- A step of the loop, from the place of the block `k` back. -/
theorem pathFrom_succ (s : PathStack) (n i k : Nat) (h : k + i < PATH_STACK_SIZE) {j : Int}
    (hj : j = s.index - 1 - k ∨ j = s.index - 1 - k + PATH_STACK_SIZE ∧ s.index < k + 1) :
    ∃ j' : Int, (j' = s.index - 1 - (k + i : Nat) ∨ j' = s.index - 1 - (k + i : Nat) + PATH_STACK_SIZE ∧ s.index < k + i + 1) ∧
      s.pathFrom (n + 1) i j = s.pathFrom n (i + 1) j' >>= fun path => .ok (s.recent (k + i) :: path) := by
  have hi := s.index_lt
  unfold PATH_STACK_SIZE at h hj hi
  have hload : ∀ j' : Int, (j' = s.index - 1 - (k + i : Nat) ∨ j' = s.index - 1 - (k + i : Nat) + PATH_STACK_SIZE ∧ s.index < k + i + 1) →
      0 ≤ j' → s.load j' = .ok (s.recent (k + i)) := by
    intro j' hj' hpos
    unfold PATH_STACK_SIZE at hj'
    have hplace : (s.index + PATH_STACK_SIZE - 1 - (k + i)) % PATH_STACK_SIZE = j'.toNat := by
      unfold PATH_STACK_SIZE
      omega
    unfold load recent
    rw [if_pos hpos, hplace]
    refine Elems.load_eq _ ?_
    unfold PATH_STACK_SIZE
    omega
  rw [pathFrom]
  by_cases hneg : j - (i : Int) < 0
  · rw [if_pos hneg]
    have hj' : j - (i : Int) + PATH_STACK_SIZE = s.index - 1 - (k + i : Nat) + PATH_STACK_SIZE ∧ s.index < k + i + 1 := by
      unfold PATH_STACK_SIZE
      omega
    refine ⟨_, .inr hj', ?_⟩
    rw [hload _ (.inr hj') (by unfold PATH_STACK_SIZE; omega)]
    rfl
  · rw [if_neg hneg]
    have hj' : j - (i : Int) = s.index - 1 - (k + i : Nat) ∨ j - (i : Int) = s.index - 1 - (k + i : Nat) + PATH_STACK_SIZE ∧ s.index < k + i + 1 := by
      unfold PATH_STACK_SIZE
      omega
    refine ⟨_, hj', ?_⟩
    rw [hload _ hj' (by omega)]
    rfl

/-- The path is read inside the ring. -/
theorem path_eq (s : PathStack) : s.path = .ok s.readBlocks := by
  unfold path PATH_DEPTH
  obtain ⟨j₁, hj₁, h₁⟩ := s.pathFrom_succ 3 0 0 (by decide) (j := s.index - 1) (.inl (by omega))
  obtain ⟨j₂, hj₂, h₂⟩ := s.pathFrom_succ 2 1 0 (by decide) hj₁
  obtain ⟨j₃, hj₃, h₃⟩ := s.pathFrom_succ 1 2 1 (by decide) hj₂
  obtain ⟨j₄, -, h₄⟩ := s.pathFrom_succ 0 3 3 (by decide) hj₃
  rw [h₁, h₂, h₃, h₄]
  rfl

/-- The blocks that are read are the last ones where the ring repeats itself. -/
def Repeats (s : PathStack) : Prop := s.recent 3 = s.recent 2 ∧ s.recent 6 = s.recent 3

theorem readBlocks_eq_iff (s : PathStack) : s.readBlocks = s.lastBlocks ↔ s.Repeats := by
  show [s.recent 0, s.recent 1, s.recent 3, s.recent 6] = [s.recent 0, s.recent 1, s.recent 2, s.recent 3] ↔ _
  unfold Repeats
  simp

end PathStack

/-- Executions have the same node exactly when they agree on the source and the last blocks. -/
def SameNodes (calls : List PathCall) (ns : List Nat) : Prop :=
  ns.length = calls.length ∧ ∀ p ∈ calls.zip ns, ∀ q ∈ calls.zip ns,
    p.2 = q.2 ↔ p.1.srcAddr = q.1.srcAddr ∧ p.1.stack.lastBlocks = q.1.stack.lastBlocks

/-- Every path is the last blocks, read inside the ring; and the run, unless it aborts for want of places,
gives the nodes by source and last blocks. -/
def RecordsPaths (calls : List PathCall) : Prop :=
  (∀ call ∈ calls, call.stack.path = .ok call.stack.lastBlocks) ∧
    ((∃ f, statPathRun {} calls = .error f ∧ Overflow f) ∨ ∃ ns c, statPathRun {} calls = .ok (ns, c) ∧ SameNodes calls ns)

/-- The paths are the last blocks, and the nodes those of the last blocks, if and only if each ring repeats itself
where the place to read goes back too far. -/
theorem statPathRun_recordsPaths_iff (calls : List PathCall) : RecordsPaths calls ↔ ∀ call ∈ calls, call.stack.Repeats := by
  constructor
  · rintro ⟨hpaths, -⟩ call hcall
    have h := hpaths call hcall
    rw [call.stack.path_eq, Except.ok.injEq] at h
    exact call.stack.readBlocks_eq_iff.mp h
  · intro hrepeats
    have hread : ∀ call ∈ calls, call.stack.readBlocks = call.stack.lastBlocks := fun call hcall =>
      call.stack.readBlocks_eq_iff.mpr (hrepeats call hcall)
    refine ⟨fun call hcall => by rw [call.stack.path_eq, hread call hcall], ?_⟩
    rcases statPathRun_spec PathStack.readBlocks PathStack.path_eq calls Threaded.empty with
      herr | ⟨ns, c, chain, hrun, hthreaded, hall, -⟩
    · exact .inl herr
    obtain ⟨hlen, hzip⟩ := List.forall₂_iff_zip.mp hall
    have hat : ∀ p ∈ calls.zip ns, c.At chain p.2 (p.1.srcAddr, p.1.stack.lastBlocks) := fun p hp => by
      rw [← hread p.1 (List.of_mem_zip hp).1]
      exact hzip hp
    refine .inr ⟨ns, c, hrun, hlen.symm, fun p hp q hq => ?_⟩
    rw [← Prod.mk.injEq]
    constructor
    · intro heq
      obtain ⟨-, hp'⟩ := hat p hp
      obtain ⟨-, hq'⟩ := hat q hq
      rw [← hp', ← hq', heq]
    · intro heq
      exact hthreaded.unique (heq ▸ hat p hp) (hat q hq)

/-- A ring whose blocks are all different. -/
def countingStack : PathStack := ⟨fun i => BitVec.ofNat 32 i, 8, by decide⟩

theorem not_statPathRun_recordsPaths : ¬ ∀ calls, RecordsPaths calls := by
  intro h
  have hpath := (h [⟨countingStack, 0x8048000, 0x8049000⟩]).1 _ List.mem_cons_self
  rw [PathStack.path_eq, Except.ok.injEq, PathStack.readBlocks_eq_iff] at hpath
  exact absurd hpath.1 (by decide)

end Unitrans
