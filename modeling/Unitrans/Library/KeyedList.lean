/-
A list of records with a key each, as a map from keys to records: the first record with a key
counts, and in a list whose keys are distinct it is the only one.
-/
import Mathlib.Data.List.Nodup
import Mathlib.Logic.Function.Basic

namespace KeyedList

variable {α κ : Type*} [DecidableEq κ] (key : α → κ)

def lookup (l : List α) (k : κ) : Option α := l.find? fun a => key a = k

def remove (l : List α) (k : κ) : List α := l.eraseP fun a => key a = k

theorem lookup_cons (a : α) (l : List α) : lookup key (a :: l) = Function.update (lookup key l) (key a) (some a) := by
  funext k
  unfold lookup
  by_cases hk : k = key a
  · subst hk
    rw [List.find?_cons_of_pos (by simp), Function.update_self]
  · rw [List.find?_cons_of_neg (by simpa using Ne.symm hk), Function.update_of_ne hk]

theorem lookup_eq_none {l : List α} {k : κ} : lookup key l k = none ↔ k ∉ l.map key := by
  unfold lookup
  rw [List.find?_eq_none]
  simp

theorem lookup_eq_some {l : List α} (hnodup : (l.map key).Nodup) {a : α} (ha : a ∈ l) : lookup key l (key a) = some a := by
  induction l with
  | nil => cases ha
  | cons b l ih =>
    obtain ⟨hb, hl⟩ := List.nodup_cons.mp hnodup
    rw [lookup_cons]
    rcases List.mem_cons.mp ha with rfl | ha
    · rw [Function.update_self]
    · have hne : key a ≠ key b := fun h => hb (h ▸ List.mem_map_of_mem ha)
      rw [Function.update_of_ne hne, ih hl ha]

theorem remove_keys_nodup {l : List α} (hnodup : (l.map key).Nodup) (k : κ) : ((remove key l k).map key).Nodup :=
  hnodup.sublist (List.eraseP_sublist.map key)

theorem remove_cons_self (a : α) (l : List α) : remove key (a :: l) (key a) = l := by
  unfold remove
  rw [List.eraseP_cons_of_pos (by simp)]

theorem remove_cons_of_ne {a : α} {k : κ} (h : key a ≠ k) (l : List α) : remove key (a :: l) k = a :: remove key l k := by
  unfold remove
  rw [List.eraseP_cons_of_neg (by simpa using h)]

theorem lookup_remove {l : List α} (hnodup : (l.map key).Nodup) (k : κ) :
    lookup key (remove key l k) = Function.update (lookup key l) k none := by
  induction l with
  | nil =>
    funext k'
    by_cases hk : k' = k
    · rw [hk, Function.update_self]
      rfl
    · rw [Function.update_of_ne hk]
      rfl
  | cons a l ih =>
    obtain ⟨ha, hl⟩ := List.nodup_cons.mp hnodup
    by_cases hk : key a = k
    · subst hk
      have hnone : lookup key l (key a) = none := (lookup_eq_none key).mpr ha
      rw [remove_cons_self, lookup_cons, Function.update_idem, ← hnone, Function.update_eq_self]
    · rw [remove_cons_of_ne key hk, lookup_cons, lookup_cons, ih hl, Function.update_comm (Ne.symm hk)]

theorem not_mem_remove_keys {l : List α} (hnodup : (l.map key).Nodup) (k : κ) : k ∉ (remove key l k).map key := by
  rw [← lookup_eq_none, lookup_remove key hnodup, Function.update_self]

/-- What is erased by a weaker test, where the first element that passes it has the key. -/
theorem eraseP_eq_remove {l : List α} {p : α → Bool} {k : κ} (hweaker : ∀ a ∈ l, key a = k → p a)
    (hfirst : ∀ a ∈ l.find? p, key a = k) : l.eraseP p = remove key l k := by
  induction l with
  | nil => rfl
  | cons a l ih =>
    by_cases hp : p a
    · have hk : key a = k := hfirst a (by rw [List.find?_cons_of_pos hp]; rfl)
      rw [List.eraseP_cons_of_pos hp, ← hk, remove_cons_self]
    · have hk : key a ≠ k := fun hk => hp (hweaker a List.mem_cons_self hk)
      rw [List.eraseP_cons_of_neg hp, remove_cons_of_ne key hk]
      rw [List.find?_cons_of_neg hp] at hfirst
      rw [ih (fun b hb => hweaker b (List.mem_cons_of_mem _ hb)) hfirst]

/-- The first element that passes the test has a key of its own, which is gone afterwards. -/
theorem lookup_eraseP_first {l : List α} (hnodup : (l.map key).Nodup) {p : α → Bool} {a : α} (ha : a ∈ l.find? p) :
    lookup key (l.eraseP p) (key a) = none := by
  induction l with
  | nil => cases ha
  | cons b l ih =>
    obtain ⟨hb, hl⟩ := List.nodup_cons.mp hnodup
    by_cases hp : p b
    · rw [List.find?_cons_of_pos hp] at ha
      cases ha
      rw [List.eraseP_cons_of_pos hp]
      exact (lookup_eq_none key).mpr hb
    · rw [List.find?_cons_of_neg hp] at ha
      have hne : key a ≠ key b := by
        intro h
        exact hb (h ▸ List.mem_map_of_mem (List.mem_of_find?_eq_some ha))
      rw [List.eraseP_cons_of_neg hp, lookup_cons, Function.update_of_ne hne]
      exact ih hl ha

end KeyedList
