/-
Radix trees whose arrays are made when something is first written below them. A
path gives the index into the array at each level. A missing array reads as
one of default values (`get`), so making arrays changes nothing (`get_alloc`),
and writing at one path changes what is read at the paths with the same
indices and at no other (`get_update`).
-/
import Mathlib.Logic.Function.Basic
import Mathlib.Order.Nat

namespace RadixTree

/-- An array with one element replaced. -/
def put {β : Type _} (f : Nat → β) (i : Nat) (b : β) : Nat → β := Function.update f i b

@[simp] theorem put_self {β : Type _} (f : Nat → β) (i : Nat) (b : β) : put f i b i = b := Function.update_self ..

theorem put_of_ne {β : Type _} {i j : Nat} (h : j ≠ i) (f : Nat → β) (b : β) : put f i b j = f j :=
  Function.update_of_ne h ..

/-- An array of values, or `n` levels above them an array of trees. -/
def Tree (α : Type _) : Nat → Type _
  | 0 => Option (Nat → α)
  | n + 1 => Option (Nat → Tree α n)

variable {α : Type _}

def Tree.empty : (n : Nat) → Tree α n
  | 0 => none
  | _ + 1 => none

/-- The value at a path, where the arrays on the way are there. -/
def Tree.lookup : (n : Nat) → Tree α n → (Nat → Nat) → Option α
  | 0, none, _ => none
  | 0, some leaf, p => some (leaf (p 0))
  | _ + 1, none, _ => none
  | n + 1, some sub, p => Tree.lookup n (sub (p (n + 1))) p

/-- Make the arrays on the way. -/
def Tree.alloc [Inhabited α] : (n : Nat) → Tree α n → (Nat → Nat) → Tree α n
  | 0, none, _ => some fun _ => default
  | 0, some leaf, _ => some leaf
  | n + 1, none, p => some (put (fun _ => Tree.empty n) (p (n + 1)) (Tree.alloc n (Tree.empty n) p))
  | n + 1, some sub, p => some (put sub (p (n + 1)) (Tree.alloc n (sub (p (n + 1))) p))

/-- Change the value at a path. -/
def Tree.update : (n : Nat) → Tree α n → (Nat → Nat) → (α → α) → Tree α n
  | 0, none, _, _ => none
  | 0, some leaf, p, f => some (put leaf (p 0) (f (leaf (p 0))))
  | _ + 1, none, _, _ => none
  | n + 1, some sub, p, f => some (put sub (p (n + 1)) (Tree.update n (sub (p (n + 1))) p f))

@[simp] theorem lookup_empty (n : Nat) (p : Nat → Nat) : (Tree.empty n : Tree α n).lookup n p = none := by
  cases n <;> rfl

variable [Inhabited α] {n : Nat} {p q : Nat → Nat}

/-- The value at a path. -/
def Tree.get (t : Tree α n) (p : Nat → Nat) : α := (t.lookup n p).getD default

@[simp] theorem get_empty (n : Nat) (p : Nat → Nat) : (Tree.empty n : Tree α n).get p = default := by
  rw [Tree.get, lookup_empty, Option.getD_none]

theorem get_some_succ (sub : Nat → Tree α n) (p : Nat → Nat) :
    Tree.get (n := n + 1) (some sub) p = (sub (p (n + 1))).get p := rfl

/-- The indices of the two agree as far as the level `n`. -/
def SamePath (n : Nat) (p q : Nat → Nat) : Prop := ∀ i ≤ n, p i = q i

instance (n : Nat) (p q : Nat → Nat) : Decidable (SamePath n p q) := inferInstanceAs (Decidable (∀ i ≤ n, p i = q i))

theorem samePath_succ : SamePath (n + 1) p q ↔ p (n + 1) = q (n + 1) ∧ SamePath n p q := by
  constructor
  · intro h
    exact ⟨h _ (Nat.le_refl _), fun i hi => h i (by omega)⟩
  · rintro ⟨h, h'⟩ i hi
    rcases Nat.lt_or_ge i (n + 1) with hi' | hi'
    · exact h' i (by omega)
    · obtain rfl : i = n + 1 := by omega
      exact h

theorem lookup_alloc_self : ∀ {n : Nat} (t : Tree α n) (p : Nat → Nat), (t.alloc n p).lookup n p = some (t.get p)
  | 0, none, _ => rfl
  | 0, some _, _ => rfl
  | n + 1, none, p => by
    show Tree.lookup n (put _ (p (n + 1)) (Tree.alloc n (Tree.empty n) p) (p (n + 1))) p = _
    rw [put_self, lookup_alloc_self, get_empty]
    rfl
  | n + 1, some sub, p => by
    show Tree.lookup n (put _ (p (n + 1)) (Tree.alloc n (sub (p (n + 1))) p) (p (n + 1))) p = _
    rw [put_self, lookup_alloc_self, get_some_succ]

/-- Making arrays changes no value. -/
theorem get_alloc : ∀ {n : Nat} (t : Tree α n) (p q : Nat → Nat), (t.alloc n p).get q = t.get q
  | 0, none, _, _ => rfl
  | 0, some _, _, _ => rfl
  | n + 1, none, p, q => by
    show (put (fun _ => Tree.empty n) (p (n + 1)) (Tree.alloc n (Tree.empty n) p) (q (n + 1))).get q = default
    by_cases h : q (n + 1) = p (n + 1)
    · rw [h, put_self, get_alloc, get_empty]
    · rw [put_of_ne h, get_empty]
  | n + 1, some sub, p, q => by
    show (put sub (p (n + 1)) (Tree.alloc n (sub (p (n + 1))) p) (q (n + 1))).get q = (sub (q (n + 1))).get q
    by_cases h : q (n + 1) = p (n + 1)
    · rw [h, put_self, get_alloc]
    · rw [put_of_ne h]

/-- A value that is there is changed for its own path alone. -/
theorem get_update : ∀ {n : Nat} {t : Tree α n} {p : Nat → Nat} {a : α} (_ : t.lookup n p = some a) (f : α → α)
    (q : Nat → Nat), (t.update n p f).get q = if SamePath n p q then f a else t.get q
  | 0, none, _, _, h, _, _ => by cases h
  | 0, some leaf, p, a, h, f, q => by
    obtain rfl := Option.some.inj h
    have hpath : SamePath 0 p q ↔ q 0 = p 0 := by simp [SamePath, eq_comm]
    show put leaf (p 0) (f (leaf (p 0))) (q 0) = if SamePath 0 p q then f (leaf (p 0)) else leaf (q 0)
    by_cases hq : q 0 = p 0
    · rw [if_pos (hpath.mpr hq), hq, put_self]
    · rw [if_neg (fun hs => hq (hpath.mp hs)), put_of_ne hq]
  | n + 1, none, _, _, h, _, _ => by cases h
  | n + 1, some sub, p, a, h, f, q => by
    have ih := get_update (t := sub (p (n + 1))) h f q
    show (put sub (p (n + 1)) (Tree.update n (sub (p (n + 1))) p f) (q (n + 1))).get q =
      if SamePath (n + 1) p q then f a else (sub (q (n + 1))).get q
    by_cases hq : q (n + 1) = p (n + 1)
    · rw [hq, put_self, ih]
      exact if_congr (by rw [samePath_succ, hq]; simp) rfl rfl
    · rw [put_of_ne hq, if_neg fun hs => hq (hs _ (Nat.le_refl _)).symm]

end RadixTree
