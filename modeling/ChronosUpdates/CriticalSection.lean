import Mathlib.Logic.Function.Basic

namespace ChronosUpdates.CriticalSection

variable {ρ σ π : Type*}

/-- One step of a process, which may be its last: a process inside keeps what it relies on, and one
outside changes nothing, and does not come in, while the lock is taken. -/
structure Disciplined (move : σ → π → σ × Option π) (Locked : σ → Prop) (Inside : π → Prop)
    (Sound : σ → Prop) (Ok Safe : σ → π → Prop) : Prop where
  locked : ∀ s p, Ok s p → Locked s
  inside : ∀ s p, Sound s → Inside p → Ok s p → Safe s p →
    Sound (move s p).1 ∧ ∀ p' ∈ (move s p).2, Inside p' ∧ Ok (move s p).1 p'
  outside : ∀ s p, Sound s → ¬ Inside p → Safe s p →
    Sound (move s p).1 ∧ (Locked s → (move s p).1 = s) ∧
      ∀ p' ∈ (move s p).2, Inside p' → ¬ Locked s ∧ Ok (move s p).1 p'

/-- At most one process is inside, and has what it relies on. -/
structure Excluded (Inside : π → Prop) (Sound : σ → Prop) (Ok : σ → π → Prop) (s : σ)
    (procs : ρ → Option π) : Prop where
  sound : Sound s
  ok : ∀ r p, procs r = some p → Inside p → Ok s p
  exclusive : ∀ r r' p p', procs r = some p → procs r' = some p' → Inside p → Inside p' → r = r'

variable {move : σ → π → σ × Option π} {Locked : σ → Prop} {Inside : π → Prop}
  {Sound : σ → Prop} {Ok Safe : σ → π → Prop} {s : σ} {procs : ρ → Option π}

theorem excluded_idle (hs : Sound s) :
    Excluded Inside Sound Ok s fun _ : ρ => (none : Option π) where
  sound := hs
  ok := by rintro r p ⟨⟩
  exclusive := by rintro r r' p p' ⟨⟩

theorem Excluded.of_state (h : Excluded Inside Sound Ok s procs) {t : σ} (ht : Sound t)
    (hok : ∀ r p, procs r = some p → Inside p → Ok t p) : Excluded Inside Sound Ok t procs :=
  ⟨ht, hok, h.exclusive⟩

variable [DecidableEq ρ]

theorem update_cases {r r' : ρ} {o : Option π} {q : π}
    (h : Function.update procs r o r' = some q) :
    (r' = r ∧ q ∈ o) ∨ (r' ≠ r ∧ procs r' = some q) := by
  by_cases hr : r' = r
  · subst hr
    rw [Function.update_self] at h
    exact .inl ⟨rfl, h⟩
  · rw [Function.update_of_ne hr] at h
    exact .inr ⟨hr, h⟩

theorem Excluded.update (h : Excluded Inside Sound Ok s procs) {r : ρ} {o : Option π}
    (ho : ∀ p ∈ o, ¬ Inside p) : Excluded Inside Sound Ok s (Function.update procs r o) := by
  have hat : ∀ r' q, Function.update procs r o r' = some q → Inside q → procs r' = some q := by
    intro r' q hq hin
    rcases update_cases hq with ⟨-, hq⟩ | ⟨-, hq⟩
    · exact absurd hin (ho q hq)
    · exact hq
  refine ⟨h.sound, fun r' q hq hin => h.ok r' q (hat r' q hq hin) hin, ?_⟩
  intro r₁ r₂ q₁ q₂ h₁ h₂ hin₁ hin₂
  exact h.exclusive r₁ r₂ q₁ q₂ (hat r₁ q₁ h₁ hin₁) (hat r₂ q₂ h₂ hin₂) hin₁ hin₂

/-- A process takes a step. -/
theorem Excluded.advance (h : Excluded Inside Sound Ok s procs)
    (hd : Disciplined move Locked Inside Sound Ok Safe) {r : ρ} {p : π} (hp : procs r = some p)
    (hsafe : Safe s p) :
    Excluded Inside Sound Ok (move s p).1 (Function.update procs r (move s p).2) := by
  have hstep : Sound (move s p).1 ∧
      (∀ p' ∈ (move s p).2, Inside p' → Ok (move s p).1 p') ∧
        ∀ r' q, r' ≠ r → procs r' = some q → Inside q →
          (move s p).1 = s ∧ ∀ p' ∈ (move s p).2, ¬ Inside p' := by
    by_cases hin : Inside p
    · obtain ⟨hsound, hcont⟩ := hd.inside s p h.sound hin (h.ok r p hp hin) hsafe
      refine ⟨hsound, fun p' hp' _ => (hcont p' hp').2, fun r' q hr hq hqin => ?_⟩
      exact absurd (h.exclusive r' r q p hq hp hqin hin) hr
    · -- if some `q` is inside, the lock is taken
      obtain ⟨hsound, hsame, hcont⟩ := hd.outside s p h.sound hin hsafe
      refine ⟨hsound, fun p' hp' hin' => (hcont p' hp' hin').2, fun r' q _ hq hqin => ?_⟩
      have hlocked := hd.locked s q (h.ok r' q hq hqin)
      exact ⟨hsame hlocked, fun p' hp' hin' => (hcont p' hp' hin').1 hlocked⟩
  obtain ⟨hsound, hown, hothers⟩ := hstep
  refine ⟨hsound, fun r' q hq hqin => ?_, fun r₁ r₂ q₁ q₂ h₁ h₂ hin₁ hin₂ => ?_⟩
  · rcases update_cases hq with ⟨-, hq⟩ | ⟨hr, hq⟩
    · exact hown q hq hqin
    · rw [(hothers r' q hr hq hqin).1]
      exact h.ok r' q hq hqin
  · rcases update_cases h₁ with ⟨hr₁, h₁⟩ | ⟨hr₁, h₁⟩
    · rcases update_cases h₂ with ⟨hr₂, -⟩ | ⟨hr₂, h₂⟩
      · exact hr₁.trans hr₂.symm
      · exact absurd hin₁ ((hothers r₂ q₂ hr₂ h₂ hin₂).2 q₁ h₁)
    · rcases update_cases h₂ with ⟨-, h₂⟩ | ⟨-, h₂⟩
      · exact absurd hin₂ ((hothers r₁ q₁ hr₁ h₁ hin₁).2 q₂ h₂)
      · exact h.exclusive r₁ r₂ q₁ q₂ h₁ h₂ hin₁ hin₂

end ChronosUpdates.CriticalSection
