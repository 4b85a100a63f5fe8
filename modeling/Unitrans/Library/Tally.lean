/-
Tables that tally a list: the first `n` places hold the distinct values of the
list, each once. The counts of the values in the list then add up to its
length (`Lists.sum_count`), and there are as many places as distinct values
(`Lists.length_eq`).
-/
import Mathlib.Algebra.BigOperators.Fin
import Mathlib.Data.List.Dedup
import Mathlib.Algebra.BigOperators.Group.List.Basic

namespace Tally

variable {α : Type _}

/-- The places below `n` hold the values of `ts`, each once. -/
structure Lists (key : Nat → α) (n : Nat) (ts : List α) : Prop where
  inj : ∀ i < n, ∀ j < n, key i = key j → i = j
  mem : ∀ t, t ∈ ts ↔ ∃ i < n, key i = t

variable {key : Nat → α} {n : Nat} {ts : List α}

theorem Lists.nil (key : Nat → α) : Lists key 0 [] := ⟨by simp, by simp⟩

theorem Lists.nodup (h : Lists key n ts) : ((List.range n).map key).Nodup :=
  List.Nodup.map_on (fun i hi j hj hij => h.inj i (List.mem_range.mp hi) j (List.mem_range.mp hj) hij) List.nodup_range

/-- A value that is there already. -/
theorem Lists.again (h : Lists key n ts) {i : Nat} (hi : i < n) : Lists key n (ts ++ [key i]) := by
  refine ⟨h.inj, fun t => ?_⟩
  rw [List.mem_append, h.mem, List.mem_singleton]
  constructor
  · rintro (h | rfl)
    · exact h
    · exact ⟨i, hi, rfl⟩
  · exact .inl

/-- A value that is not there yet, put in the next place. -/
theorem Lists.add (h : Lists key n ts) {t : α} (ht : ∀ i < n, key i ≠ t) :
    Lists (Function.update key n t) (n + 1) (ts ++ [t]) := by
  have hlt : ∀ i < n, Function.update key n t i = key i := fun i hi => Function.update_of_ne (by omega) ..
  have hself : Function.update key n t n = t := Function.update_self ..
  constructor
  · intro i hi j hj hij
    rcases Nat.lt_succ_iff_lt_or_eq.mp hi with hi | rfl <;> rcases Nat.lt_succ_iff_lt_or_eq.mp hj with hj | rfl
    · exact h.inj i hi j hj (by rwa [hlt i hi, hlt j hj] at hij)
    · exact absurd (by rwa [hlt i hi, hself] at hij) (ht i hi)
    · exact absurd (by rw [hlt j hj, hself] at hij; exact hij.symm) (ht j hj)
    · rfl
  · intro x
    rw [List.mem_append, h.mem, List.mem_singleton]
    constructor
    · rintro (⟨i, hi, rfl⟩ | rfl)
      · exact ⟨i, by omega, hlt i hi⟩
      · exact ⟨n, by omega, hself⟩
    · rintro ⟨i, hi, rfl⟩
      rcases Nat.lt_succ_iff_lt_or_eq.mp hi with hi | rfl
      · exact .inl ⟨i, hi, (hlt i hi).symm⟩
      · exact .inr hself

variable [DecidableEq α]

theorem Lists.perm_dedup (h : Lists key n ts) : ((List.range n).map key).Perm ts.dedup := by
  rw [List.perm_ext_iff_of_nodup h.nodup ts.nodup_dedup]
  intro t
  rw [List.mem_dedup, h.mem]
  simp

theorem Lists.length_eq (h : Lists key n ts) : n = ts.dedup.length := by
  have := h.perm_dedup.length_eq
  rwa [List.length_map, List.length_range] at this

theorem Lists.sum_count (h : Lists key n ts) : ((List.range n).map fun i => ts.count (key i)).sum = ts.length := by
  rw [← List.sum_map_count_dedup_eq_length ts, ← (h.perm_dedup.map fun t => ts.count t).sum_eq, List.map_map]
  rfl

end Tally
