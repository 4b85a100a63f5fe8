/-
Singly linked nodes: `next` leads from each node of a list to the one after it, and the
last one is the end.
-/
import Mathlib.Data.List.Nodup
import Mathlib.Logic.Function.Basic

namespace LinkedNodes

variable {α : Type*} {next : α → Option α}

/-- From `n` on, `next` leads through the nodes of the list to the end. -/
inductive Thread (next : α → Option α) : α → List α → Prop
  | last {n} : next n = none → Thread next n [n]
  | cons {n m l} : next n = some m → Thread next m l → Thread next n (n :: l)

theorem Thread.congr {next' : α → Option α} {n : α} {l : List α} (h : Thread next n l) (heq : ∀ m ∈ l, next' m = next m) :
    Thread next' n l := by
  induction h with
  | last hnone => exact .last (by rw [heq _ List.mem_cons_self, hnone])
  | cons hsome _ ih =>
    exact .cons (by rw [heq _ List.mem_cons_self, hsome]) (ih fun m hm => heq m (List.mem_cons_of_mem _ hm))

variable [DecidableEq α]

/-- A node linked behind the end. -/
theorem Thread.append {n : α} {l : List α} (h : Thread next n l) {last k : α} (hlast : last ∈ l) (hend : next last = none)
    (hnew : k ∉ l) (hk : next k = none) : Thread (Function.update next last (some k)) n (l ++ [k]) := by
  induction h with
  | @last n hnone =>
    rw [List.mem_singleton.mp hlast] at hend ⊢
    have hne : k ≠ n := fun h => hnew (List.mem_singleton.mpr h)
    refine .cons (Function.update_self ..) (.last ?_)
    rw [Function.update_of_ne hne, hk]
  | @cons n m l hsome _ ih =>
    have hne : n ≠ last := by
      intro h
      rw [h, hend] at hsome
      cases hsome
    refine .cons ?_ (ih ?_ fun h => hnew (List.mem_cons_of_mem _ h))
    · rw [Function.update_of_ne hne, hsome]
    · exact (List.mem_cons.mp hlast).resolve_left hne.symm

end LinkedNodes
