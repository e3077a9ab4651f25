set_option autoImplicit false

/-! Runs of a labelled transition system, and how invariants pass along them. -/

namespace DnsRelay.Lib

variable {σ ε : Type}

inductive Run (step : σ → ε → σ → Prop) : σ → List ε → σ → Prop where
  | nil (s : σ) : Run step s [] s
  | cons {s s' s'' : σ} {e : ε} {es : List ε} :
      step s e s' → Run step s' es s'' → Run step s (e :: es) s''

/-- The steps that meet a condition on the state before them. -/
def Guarded (guard : σ → ε → Prop) (step : σ → ε → σ → Prop) (s : σ) (e : ε) (s' : σ) : Prop :=
  guard s e ∧ step s e s'

namespace Run

variable {step step' : σ → ε → σ → Prop}

/-- What one step preserves, a run preserves. -/
theorem invariant {s s' : σ} {es : List ε} (h : Run step s es s') (inv : σ → Prop)
    (hstep : ∀ s e s', inv s → step s e s' → inv s') (hs : inv s) : inv s' := by
  induction h with
  | nil s => exact hs
  | cons hd _ ih => exact ih (hstep _ _ _ hs hd)

theorem mono (hsub : ∀ s e s', step s e s' → step' s e s') {s s' : σ} {es : List ε}
    (h : Run step s es s') : Run step' s es s' := by
  induction h with
  | nil s => exact .nil s
  | cons hd _ ih => exact .cons (hsub _ _ _ hd) ih

theorem unguarded {guard : σ → ε → Prop} {s s' : σ} {es : List ε}
    (h : Run (Guarded guard step) s es s') : Run step s es s' :=
  h.mono fun _ _ _ hd => hd.2

theorem singleton_iff {s s' : σ} {e : ε} : Run step s [e] s' ↔ step s e s' := by
  constructor
  · intro h
    cases h with
    | cons hd hrest =>
      cases hrest
      exact hd
  · intro hd
    exact .cons hd (.nil s')

theorem append {s s' s'' : σ} {es es' : List ε} (h : Run step s es s')
    (h' : Run step s' es' s'') : Run step s (es ++ es') s'' := by
  induction h with
  | nil s => exact h'
  | cons hd _ ih => exact .cons hd (ih h')

theorem concat {s s' s'' : σ} {es : List ε} {e : ε} (h : Run step s es s')
    (hd : step s' e s'') : Run step s (es ++ [e]) s'' :=
  h.append (singleton_iff.mpr hd)

/-- What matches one step at a time matches a run. -/
theorem simulates {τ : Type} {step' : τ → ε → τ → Prop} (R : σ → τ → Prop)
    (hstep : ∀ s e s' t, R s t → step s e s' → ∃ t', step' t e t' ∧ R s' t') {s s' : σ} {t : τ}
    {es : List ε} (h : Run step s es s') (ht : R s t) : ∃ t', Run step' t es t' ∧ R s' t' := by
  induction h generalizing t with
  | nil s => exact ⟨t,.nil t,ht⟩
  | cons hd _ ih =>
    obtain ⟨t₁,hd',ht₁⟩ := hstep _ _ _ t ht hd
    obtain ⟨t',hrun,ht'⟩ := ih ht₁
    exact ⟨t',.cons hd' hrun,ht'⟩

end Run
end DnsRelay.Lib
