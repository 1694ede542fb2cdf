import Mathlib.Order.Basic

namespace ChronosUpdates.Runs

variable {σ α : Type*} (step : σ → α → Option σ)

/-- The state that a run ends in. -/
def run (s : σ) : List α → Option σ
  | [] => some s
  | a :: as => (step s a).bind fun t => run t as

/-- Every step of the run meets the condition `ok` in the state it is taken in. -/
def StepsMeet (ok : σ → α → Prop) (s : σ) : List α → Prop
  | [] => True
  | a :: as => ok s a ∧
    match step s a with
    | some t => StepsMeet ok t as
    | none => True

instance decidableStepsMeet {ok : σ → α → Prop} [∀ s a, Decidable (ok s a)] :
    ∀ (s : σ) (as : List α), Decidable (StepsMeet step ok s as)
  | _, [] => isTrue trivial
  | s, a :: as =>
    have : Decidable (match step s a with
        | some t => StepsMeet step ok t as
        | none => True) :=
      match step s a with
      | some t => decidableStepsMeet t as
      | none => isTrue trivial
    inferInstanceAs (Decidable (ok s a ∧ _))

theorem run_cons {s t : σ} {a : α} {as : List α} :
    run step s (a :: as) = some t ↔ ∃ u, step s a = some u ∧ run step u as = some t := by
  simp [run, Option.bind_eq_some_iff]

theorem run_append {s t u : σ} {as bs : List α} (h : run step s as = some t)
    (h' : run step t bs = some u) : run step s (as ++ bs) = some u := by
  induction as generalizing s with
  | nil =>
    cases h
    exact h'
  | cons a as ih =>
    obtain ⟨v, hv, h⟩ := (run_cons step).mp h
    exact (run_cons step).mpr ⟨v, hv, ih h⟩

/-- A property that each step of the allowed kind keeps holds at the end of every
run made of such steps. -/
theorem run_invariant {ok : σ → α → Prop} {Inv : σ → Prop}
    (hstep : ∀ s a t, Inv s → ok s a → step s a = some t → Inv t)
    {s t : σ} {as : List α} (hs : Inv s) (hok : StepsMeet step ok s as)
    (hrun : run step s as = some t) : Inv t := by
  induction as generalizing s with
  | nil =>
    cases hrun
    exact hs
  | cons a as ih =>
    obtain ⟨u, hu, hrun⟩ := (run_cons step).mp hrun
    obtain ⟨ha, has⟩ := hok
    rw [hu] at has
    exact ih (hstep s a u hs ha hu) has hrun

theorem run_preserves {Inv : σ → Prop} (hstep : ∀ s a t, Inv s → step s a = some t → Inv t)
    {s t : σ} {as : List α} (hs : Inv s) (hrun : run step s as = some t) : Inv t := by
  induction as generalizing s with
  | nil =>
    cases hrun
    exact hs
  | cons a as ih =>
    obtain ⟨u, hu, hrun⟩ := (run_cons step).mp hrun
    exact ih (hstep s a u hs hu) hrun

end ChronosUpdates.Runs
