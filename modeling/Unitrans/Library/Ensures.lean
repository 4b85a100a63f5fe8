/-
Computations that may fail: `x.Ensures Q` says that whatever `x` returns
satisfies `Q`, `x.Fails E` that whatever it fails with satisfies `E`. The rules
follow the program: one for sequencing, one for branching, one for a loop over
a list.
-/

namespace Except

variable {ε α β σ : Type _}

@[simp] theorem ok_bind (a : α) (f : α → Except ε β) : (Except.ok a >>= f) = f a := rfl

@[simp] theorem error_bind (e : ε) (f : α → Except ε β) : (Except.error e >>= f) = Except.error e := rfl

theorem bind_eq_ok {x : Except ε α} {f : α → Except ε β} {b : β} :
    (x >>= f) = .ok b ↔ ∃ a, x = .ok a ∧ f a = .ok b := by
  cases x with
  | error e => exact ⟨fun h => (nomatch h), fun ⟨_, h, _⟩ => (nomatch h)⟩
  | ok a => exact ⟨fun h => ⟨a, rfl, h⟩, fun ⟨_, ha, h⟩ => Except.ok.inj ha ▸ h⟩

/-- Whatever `x` returns satisfies `Q`. -/
def Ensures (x : Except ε α) (Q : α → Prop) : Prop := ∀ a, x = .ok a → Q a

@[simp] theorem ensures_ok {a : α} {Q : α → Prop} : (Except.ok a : Except ε α).Ensures Q ↔ Q a :=
  ⟨fun h => h a rfl, fun h _ ha => Except.ok.inj ha ▸ h⟩

@[simp] theorem ensures_pure {a : α} {Q : α → Prop} : (pure a : Except ε α).Ensures Q ↔ Q a := ensures_ok

@[simp] theorem ensures_error {e : ε} {Q : α → Prop} : (Except.error e : Except ε α).Ensures Q :=
  fun _ h => nomatch h

@[simp] theorem ensures_bind {x : Except ε α} {f : α → Except ε β} {Q : β → Prop} :
    (x >>= f).Ensures Q ↔ x.Ensures fun a => (f a).Ensures Q := by
  cases x with
  | error e => exact ⟨fun _ _ h => (nomatch h), fun _ _ h => (nomatch h)⟩
  | ok a => exact ⟨fun h _ ha => Except.ok.inj ha ▸ h, fun h => h a rfl⟩

@[simp] theorem ensures_ite {c : Prop} [Decidable c] {x y : Except ε α} {Q : α → Prop} :
    (if c then x else y).Ensures Q ↔ (c → x.Ensures Q) ∧ (¬c → y.Ensures Q) := by
  split <;> simp_all

theorem Ensures.mono {x : Except ε α} {Q R : α → Prop} (h : x.Ensures Q) (hQR : ∀ a, Q a → R a) :
    x.Ensures R := fun a ha => hQR a (h a ha)

theorem Ensures.and {x : Except ε α} {Q R : α → Prop} (h : x.Ensures Q) (h' : x.Ensures R) :
    x.Ensures fun a => Q a ∧ R a := fun a ha => ⟨h a ha, h' a ha⟩

theorem Ensures.trivial {x : Except ε α} : x.Ensures fun _ => True := fun _ _ => True.intro

/-- The invariant rule for a loop over a list. -/
theorem Ensures.foldlM {f : σ → β → Except ε σ} {I : σ → Prop} :
    ∀ {l : List β} {s : σ}, I s → (∀ s b, b ∈ l → I s → (f s b).Ensures I) → (l.foldlM f s).Ensures I
  | [], _, hs, _ => by simpa using hs
  | b :: l, s, hs, hf => by
    rw [List.foldlM_cons, ensures_bind]
    exact (hf s b (by simp) hs).mono fun s' hs' =>
      Ensures.foldlM hs' fun s b hb => hf s b (List.mem_cons_of_mem _ hb)

/-- The same where the invariant speaks of the elements still to come. -/
theorem Ensures.foldlM_rest {f : σ → β → Except ε σ} {I : List β → σ → Prop}
    (hf : ∀ b l s, I (b :: l) s → (f s b).Ensures (I l)) :
    ∀ (l : List β) {rest : List β} {s : σ}, I (l ++ rest) s → (l.foldlM f s).Ensures (I rest)
  | [], _, _, hs => by simpa using hs
  | b :: l, _, s, hs => by
    rw [List.foldlM_cons, ensures_bind]
    exact (hf b _ s hs).mono fun s' hs' => Ensures.foldlM_rest hf l hs'

/-- Whatever `x` fails with satisfies `E`. -/
def Fails (x : Except ε α) (E : ε → Prop) : Prop := ∀ e, x = .error e → E e

@[simp] theorem fails_ok {a : α} {E : ε → Prop} : (Except.ok a : Except ε α).Fails E := fun _ h => nomatch h

@[simp] theorem fails_pure {a : α} {E : ε → Prop} : (pure a : Except ε α).Fails E := fails_ok

@[simp] theorem fails_error {e : ε} {E : ε → Prop} : (Except.error e : Except ε α).Fails E ↔ E e :=
  ⟨fun h => h e rfl, fun h _ he => Except.error.inj he ▸ h⟩

@[simp] theorem fails_bind {x : Except ε α} {f : α → Except ε β} {E : ε → Prop} :
    (x >>= f).Fails E ↔ x.Fails E ∧ x.Ensures fun a => (f a).Fails E := by
  cases x <;> simp

@[simp] theorem fails_ite {c : Prop} [Decidable c] {x y : Except ε α} {E : ε → Prop} :
    (if c then x else y).Fails E ↔ (c → x.Fails E) ∧ (¬c → y.Fails E) := by
  split <;> simp_all

theorem Fails.mono {x : Except ε α} {E F : ε → Prop} (h : x.Fails E) (hEF : ∀ e, E e → F e) : x.Fails F :=
  fun e he => hEF e (h e he)

/-- A loop over a list, each iteration of which keeps `I`. -/
theorem Fails.foldlM {f : σ → β → Except ε σ} {I : σ → Prop} {E : ε → Prop} :
    ∀ {l : List β} {s : σ}, I s → (∀ s b, b ∈ l → I s → (f s b).Ensures I) →
      (∀ s b, b ∈ l → I s → (f s b).Fails E) → (l.foldlM f s).Fails E
  | [], _, _, _, _ => by simp
  | b :: l, s, hs, hI, hf => by
    rw [List.foldlM_cons, fails_bind]
    refine ⟨hf s b (by simp) hs, (hI s b (by simp) hs).mono fun s' hs' => ?_⟩
    exact Fails.foldlM hs' (fun s b hb => hI s b (List.mem_cons_of_mem _ hb))
      fun s b hb => hf s b (List.mem_cons_of_mem _ hb)

end Except
