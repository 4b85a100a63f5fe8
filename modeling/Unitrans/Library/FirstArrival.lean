/-
Runs of a deterministic step function up to the first state that satisfies
`stop`. `Goes` is a run of one step or more whose states strictly in between
do not stop; `Arrives` is one whose last state does. A state arrives in one
place at most, so what one run is known to reach, every run reaches.
-/
namespace FirstArrival

variable {σ : Type _} (step : σ → Option σ) (stop : σ → Prop)

/-- One step or more, none of the states in between stopping. -/
inductive Goes : σ → σ → Prop
  | single {c c'} : step c = some c' → Goes c c'
  | cons {c c₁ c'} : step c = some c₁ → ¬ stop c₁ → Goes c₁ c' → Goes c c'

/-- A run to the first state that stops. -/
def Arrives (c c' : σ) : Prop := Goes step stop c c' ∧ stop c'

variable {step stop}

theorem Goes.trans {c c₁ c' : σ} (h₁ : Goes step stop c c₁) (hs : ¬ stop c₁) (h₂ : Goes step stop c₁ c') :
    Goes step stop c c' := by
  induction h₁ with
  | single h => exact .cons h hs h₂
  | cons h hs' _ ih => exact .cons h hs' (ih hs h₂)

theorem Arrives.unique {c c₁ c₂ : σ} (h₁ : Arrives step stop c c₁) (h₂ : Arrives step stop c c₂) : c₁ = c₂ := by
  obtain ⟨hg, hs⟩ := h₁
  induction hg with
  | single h =>
    cases h₂.1 with
    | single h' => exact Option.some.inj (h.symm.trans h')
    | cons h' hn _ =>
      obtain rfl := Option.some.inj (h.symm.trans h')
      exact absurd hs hn
  | cons h hn _ ih =>
    refine ih ?_ hs
    cases h₂.1 with
    | single h' =>
      obtain rfl := Option.some.inj (h.symm.trans h')
      exact absurd h₂.2 hn
    | cons h' _ hr =>
      obtain rfl := Option.some.inj (h.symm.trans h')
      exact ⟨hr, h₂.2⟩

/-- A run that keeps away from where two step functions differ is a run of both. -/
theorem Goes.congr {step' : σ → Option σ} {P : σ → Prop} {c c' : σ} (h : Goes step (fun c => stop c ∨ P c) c c')
    (hc : ¬ P c) (hstep : ∀ c, ¬ P c → step' c = step c) : Goes step' stop c c' := by
  induction h with
  | single h => exact .single ((hstep _ hc).trans h)
  | cons h hs _ ih => exact .cons ((hstep _ hc).trans h) (fun hs' => hs (.inl hs')) (ih fun hP => hs (.inr hP))

end FirstArrival
