/-
Sequences with a list written over a part of them. Two lists that are written next to
each other are one (`splice_append`).
-/
import Mathlib.Data.List.Basic

namespace Splice

variable {α : Type _}

/-- `f` with `bs` from place `o` on. -/
def splice (f : Nat → α) (o : Nat) (bs : List α) : Nat → α :=
  fun i => if o ≤ i then bs[i - o]?.getD (f i) else f i

theorem splice_nil (f : Nat → α) (o : Nat) : splice f o [] = f := by
  funext i
  simp [splice]

theorem splice_inside (f : Nat → α) (o : Nat) {bs : List α} {i : Nat} (h : i < bs.length) :
    splice f o bs (o + i) = bs[i] := by
  rw [splice, if_pos (Nat.le_add_right o i), Nat.add_sub_cancel_left, List.getElem?_eq_getElem h, Option.getD_some]

theorem splice_outside (f : Nat → α) {o : Nat} {bs : List α} {i : Nat} (h : i < o ∨ o + bs.length ≤ i) :
    splice f o bs i = f i := by
  rw [splice]
  rcases h with h | h
  · rw [if_neg (by omega)]
  · rw [List.getElem?_eq_none (by omega), Option.getD_none, ite_self]

theorem splice_append (f : Nat → α) (o : Nat) (as bs : List α) :
    splice (splice f (o + as.length) bs) o as = splice f o (as ++ bs) := by
  funext i
  rcases Nat.lt_or_ge i o with h | h
  · rw [splice_outside _ (.inl h), splice_outside _ (.inl (by omega)), splice_outside _ (.inl h)]
  obtain ⟨j, rfl⟩ := Nat.exists_eq_add_of_le h
  rcases Nat.lt_or_ge j as.length with hj | hj
  · rw [splice_inside _ _ hj, splice_inside _ _ (by rw [List.length_append]; omega), List.getElem_append_left hj]
  rw [splice_outside _ (.inr (by omega))]
  obtain ⟨k, rfl⟩ := Nat.exists_eq_add_of_le hj
  rcases Nat.lt_or_ge k bs.length with hk | hk
  · rw [← Nat.add_assoc, splice_inside _ _ hk, Nat.add_assoc,
      splice_inside _ _ (by rw [List.length_append]; omega), List.getElem_append_right (by omega)]
    simp only [Nat.add_sub_cancel_left]
  · rw [splice_outside _ (.inr (by omega)), splice_outside _ (.inr (by rw [List.length_append]; omega))]

end Splice
