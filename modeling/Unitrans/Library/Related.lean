/-
Two computations side by side: `x.Related R y` says that both return, with
results `R` relates, or both fail alike. The rules follow the two programs in
step.
-/
import Unitrans.Library.Ensures

namespace Except

variable {ε α β γ δ : Type _} {R : α → β → Prop} {S : γ → δ → Prop}

/-- Both return related results, or both fail with the same fault. -/
def Related (R : α → β → Prop) : Except ε α → Except ε β → Prop
  | .ok a, .ok b => R a b
  | .error e, .error e' => e = e'
  | .ok _, .error _ => False
  | .error _, .ok _ => False

@[simp] theorem related_ok {a : α} {b : β} : Related R (.ok a : Except ε α) (.ok b) ↔ R a b := Iff.rfl

@[simp] theorem related_pure {a : α} {b : β} : Related R (pure a : Except ε α) (pure b) ↔ R a b := Iff.rfl

@[simp] theorem related_error {e e' : ε} : Related R (.error e : Except ε α) (.error e' : Except ε β) ↔ e = e' := Iff.rfl

theorem Related.bind {x : Except ε α} {y : Except ε β} {f : α → Except ε γ} {g : β → Except ε δ} (h : Related R x y)
    (hfg : ∀ a b, R a b → Related S (f a) (g b)) : Related S (x >>= f) (y >>= g) := by
  cases x with
  | error e =>
    cases y with
    | error e' => exact h
    | ok b => exact h.elim
  | ok a =>
    cases y with
    | error e' => exact h.elim
    | ok b => exact hfg a b h

theorem Related.ite {c : Prop} [Decidable c] {x x' : Except ε α} {y y' : Except ε β} (h : c → Related R x y)
    (h' : ¬c → Related R x' y') : Related R (if c then x else x') (if c then y else y') := by
  by_cases hc : c
  · rw [if_pos hc, if_pos hc]
    exact h hc
  · rw [if_neg hc, if_neg hc]
    exact h' hc

/-- A computation beside itself. -/
theorem Related.refl {R : α → α → Prop} (hR : ∀ a, R a a) (x : Except ε α) : Related R x x := by
  cases x with
  | error e => exact rfl
  | ok a => exact hR a

/-- The same loop from related states. -/
theorem Related.foldlM {f : α → γ → Except ε α} {g : β → γ → Except ε β} (hfg : ∀ a b c, R a b → Related R (f a c) (g b c)) :
    ∀ (l : List γ) {a : α} {b : β}, R a b → Related R (l.foldlM f a) (l.foldlM g b)
  | [], _, _, h => h
  | c :: l, a, b, h => by
    rw [List.foldlM_cons, List.foldlM_cons]
    exact (hfg a b c h).bind fun a' b' h' => Related.foldlM hfg l h'

/-- What one returns the other returns, up to `R`. -/
theorem Related.exists_ok {x : Except ε α} {y : Except ε β} {a : α} (h : Related R x y) (ha : x = .ok a) :
    ∃ b, y = .ok b ∧ R a b := by
  subst ha
  cases y with
  | error e => exact h.elim
  | ok b => exact ⟨b, rfl, h⟩

end Except
