/-
Walks in a graph that is given by the edges out of each vertex: those of at most so
many edges (`upTo`), and those that end there or at a vertex without edges (`maximal`).
-/
import Mathlib.Algebra.BigOperators.Group.List.Basic
import Mathlib.Algebra.GroupWithZero.Nat
import Mathlib.Data.List.Induction

namespace Walks

variable {ν ℓ : Type*} (edges : ν → List (ν × ℓ))

/-- The walks of at most `r` edges from a vertex, by their edges. -/
def upTo : Nat → ν → List (List (ν × ℓ))
  | 0, _ => [[]]
  | r + 1, v => [] :: (edges v).flatMap fun e => (upTo r e.1).map (e :: ·)

/-- Those of `r` edges, and shorter ones that cannot go on. -/
def maximal : Nat → ν → List (List (ν × ℓ))
  | 0, _ => [[]]
  | r + 1, v => if (edges v).isEmpty then [[]] else (edges v).flatMap fun e => (maximal r e.1).map (e :: ·)

/-- The vertex a walk leads to. -/
def stop (v : ν) (w : List (ν × ℓ)) : ν := (w.getLast?.map (·.1)).getD v

/-- Each edge of the walk is an edge of the vertex the walk is at. -/
def Is : ν → List (ν × ℓ) → Prop
  | _, [] => True
  | v, e :: w => e ∈ edges v ∧ Is e.1 w

variable {edges}

@[simp] theorem stop_nil (v : ν) : stop v ([] : List (ν × ℓ)) = v := rfl

@[simp] theorem stop_concat (v : ν) (w : List (ν × ℓ)) (e : ν × ℓ) : stop v (w ++ [e]) = e.1 := by
  unfold stop
  rw [List.getLast?_concat]
  rfl

theorem maximal_stuck {r : Nat} {v : ν} (h : r = 0 ∨ edges v = []) : maximal edges r v = [[]] := by
  rcases r with _ | r
  · rfl
  · obtain h | h := h
    · cases h
    · unfold maximal
      rw [h, List.isEmpty_nil, if_pos rfl]

theorem upTo_stuck {r : Nat} {v : ν} (h : r = 0 ∨ edges v = []) : upTo edges r v = [[]] := by
  rcases r with _ | r
  · rfl
  · obtain h | h := h
    · cases h
    · unfold upTo
      rw [h]
      rfl

theorem maximal_go {r : Nat} {v : ν} (h : edges v ≠ []) :
    maximal edges (r + 1) v = (edges v).flatMap fun e => (maximal edges r e.1).map (e :: ·) := by
  have hne : ¬ (edges v).isEmpty = true := fun he => h (List.isEmpty_iff.mp he)
  rw [maximal, if_neg hne]

theorem length_upTo (r : Nat) (v : ν) :
    (upTo edges (r + 1) v).length = 1 + ((edges v).map fun e => (upTo edges r e.1).length).sum := by
  rw [upTo, List.length_cons, List.length_flatMap, Nat.add_comm]
  simp only [List.length_map]

theorem length_upTo_pos (r : Nat) (v : ν) : 0 < (upTo edges r v).length := by
  cases r with
  | zero => exact Nat.one_pos
  | succ r =>
    rw [length_upTo]
    omega

theorem length_maximal_pos (r : Nat) (v : ν) : 0 < (maximal edges r v).length := by
  induction r generalizing v with
  | zero => exact Nat.one_pos
  | succ r ih =>
    cases he : edges v with
    | nil =>
      rw [maximal_stuck (.inr he)]
      exact Nat.one_pos
    | cons e l =>
      rw [maximal_go (by rw [he]; exact List.cons_ne_nil _ _), he, List.flatMap_cons, List.length_append, List.length_map]
      exact Nat.lt_of_lt_of_le (ih e.1) (Nat.le_add_right _ _)

theorem maximal_spec {r : Nat} {v : ν} {w : List (ν × ℓ)} (h : w ∈ maximal edges r v) : Is edges v w ∧ w.length ≤ r := by
  induction r generalizing v w with
  | zero =>
    rw [maximal, List.mem_singleton] at h
    rw [h]
    exact ⟨True.intro, Nat.le_refl 0⟩
  | succ r ih =>
    by_cases he : edges v = []
    · rw [maximal_stuck (.inr he), List.mem_singleton] at h
      rw [h]
      exact ⟨True.intro, Nat.zero_le _⟩
    · rw [maximal_go he, List.mem_flatMap] at h
      obtain ⟨e, hmem, h⟩ := h
      obtain ⟨w', hw', rfl⟩ := List.mem_map.mp h
      obtain ⟨his, hlen⟩ := ih hw'
      exact ⟨⟨hmem, his⟩, Nat.succ_le_succ hlen⟩

/-- Where every vertex has `d` edges, the walks that cannot go on have the full length. -/
theorem maximal_regular {P : ν → Prop} {d : Nat} (hd : 0 < d) (hP : ∀ v, P v → (edges v).length = d ∧ ∀ e ∈ edges v, P e.1)
    {r : Nat} {v : ν} (hv : P v) : (maximal edges r v).length = d ^ r ∧ ∀ w ∈ maximal edges r v, w.length = r := by
  induction r generalizing v with
  | zero => exact ⟨rfl, fun w hw => by rw [List.mem_singleton.mp hw]; rfl⟩
  | succ r ih =>
    obtain ⟨hlen, hedges⟩ := hP v hv
    have hne : edges v ≠ [] := by
      rw [← List.length_pos_iff, hlen]
      exact hd
    rw [maximal_go hne]
    constructor
    · have hsum : ((edges v).map fun e => ((maximal edges r e.1).map (e :: ·)).length) = (edges v).map fun _ => d ^ r :=
        List.map_congr_left fun e he => by rw [List.length_map, (ih (hedges e he)).1]
      rw [List.length_flatMap, hsum, List.map_const', List.sum_replicate_nat, hlen, Nat.pow_succ, Nat.mul_comm]
    · intro w hw
      obtain ⟨e, he, hw⟩ := List.mem_flatMap.mp hw
      obtain ⟨w', hw', rfl⟩ := List.mem_map.mp hw
      rw [List.length_cons, (ih (hedges e he)).2 w' hw']

end Walks
