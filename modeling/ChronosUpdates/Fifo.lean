import ChronosUpdates.Runs
import Mathlib.Algebra.BigOperators.Group.Finset.Piecewise
import Mathlib.Algebra.Order.BigOperators.Group.Finset
import Mathlib.Data.Fintype.Basic
import Mathlib.Order.Nat

namespace ChronosUpdates.Fifo
open Runs

structure End (φ : Type*) where
  fifo : φ
  write : Bool
deriving DecidableEq

def End.other {φ : Type*} (e : End φ) : End φ := ⟨e.fifo, !e.write⟩

variable {φ π : Type*} (plan : π → List (End φ))

/-- With `s p` ends open, the next `open` of the process `p` can return. -/
def Opens (s : π → ℕ) (p : π) : Prop :=
  match (plan p)[s p]? with
  | some e => ∃ q, e.other ∈ (plan q).take (s q + 1)
  | none => False

instance decidableOpens [DecidableEq φ] [Fintype π] (s : π → ℕ) (p : π) :
    Decidable (Opens plan s p) :=
  match h : (plan p)[s p]? with
  | some e => decidable_of_iff (∃ q, e.other ∈ (plan q).take (s q + 1)) (by simp [Opens, h])
  | none => isFalse (by simp [Opens, h])

def next [DecidableEq φ] [DecidableEq π] [Fintype π] (s : π → ℕ) (p : π) : Option (π → ℕ) :=
  if Opens plan s p then some (Function.update s p (s p + 1)) else none

def Opened (s : π → ℕ) : Prop := ∀ p, s p = (plan p).length

/-- All processes open their FIFOs in the order of `rank`, and each end has another one. -/
structure Ordered (rank : φ → ℕ) : Prop where
  increasing : ∀ p, (plan p).Pairwise fun e f => rank e.fifo < rank f.fifo
  paired : ∀ p, ∀ e ∈ plan p, ∃ q, e.other ∈ plan q

variable {plan}

theorem lt_of_opens {s : π → ℕ} {p : π} (h : Opens plan s p) : s p < (plan p).length := by
  by_contra hle
  have hnone : (plan p)[s p]? = none := List.getElem?_eq_none (by omega)
  simp [Opens, hnone] at h

/-- Of all processes that wait, one that waits for the least FIFO need not wait. -/
theorem Ordered.exists_opens {rank : φ → ℕ} (h : Ordered plan rank) {s : π → ℕ}
    (hs : ∃ p, s p < (plan p).length) : ∃ p, Opens plan s p := by
  classical
  -- `p` waits for the FIFO of the least rank that anyone waits for
  have hwait : ∃ r p e, (plan p)[s p]? = some e ∧ rank e.fifo = r := by
    obtain ⟨p, hp⟩ := hs
    exact ⟨_, p, _, List.getElem?_eq_getElem hp, rfl⟩
  obtain ⟨p, e, he, hrank⟩ := Nat.find_spec hwait
  have hleast : ∀ q f, (plan q)[s q]? = some f → rank e.fifo ≤ rank f.fifo := by
    intro q f hf
    rw [hrank]
    exact Nat.find_min' hwait ⟨q, f, hf, rfl⟩
  obtain ⟨q, hq⟩ := h.paired p e (List.mem_of_getElem? he)
  obtain ⟨i, hi, hother⟩ := List.getElem_of_mem hq
  refine ⟨p, ?_⟩
  simp only [Opens, he]
  refine ⟨q, ?_⟩
  by_cases hle : i ≤ s q
  · rw [← hother]
    exact List.mem_take_iff_getElem.mpr ⟨i, by omega, rfl⟩
  · -- else `q` would wait for a smaller FIFO
    have hlt : s q < i := by omega
    have hsmaller := List.pairwise_iff_getElem.mp (h.increasing q) (s q) i (by omega) hi hlt
    have hle := hleast q _ (List.getElem?_eq_getElem (by omega))
    rw [hother] at hsmaller
    exact absurd hsmaller (Nat.not_lt.mpr hle)

section
variable [DecidableEq φ] [DecidableEq π] [Fintype π] {events : List π} {s : π → ℕ}

theorem next_eq_some {s t : π → ℕ} {p : π} : next plan s p = some t ↔
    Opens plan s p ∧ t = Function.update s p (s p + 1) := by
  rw [next, Option.ite_none_right_eq_some, Option.some.injEq, eq_comm]

theorem le_of_run (h : run (next plan) (fun _ => 0) events = some s) (p : π) :
    s p ≤ (plan p).length := by
  have hstep : ∀ (s : π → ℕ) q t, (∀ p, s p ≤ (plan p).length) → next plan s q = some t →
      ∀ p, t p ≤ (plan p).length := by
    intro s q t hs hnext p
    obtain ⟨hopens, rfl⟩ := next_eq_some.mp hnext
    by_cases hp : p = q
    · subst hp
      rw [Function.update_self]
      exact lt_of_opens hopens
    · rw [Function.update_of_ne hp]
      exact hs p
  exact run_preserves (next plan) hstep (fun _ => Nat.zero_le _) h p

theorem sum_of_run {s₀ : π → ℕ} (h : run (next plan) s₀ events = some s) :
    ∑ p, s p = ∑ p, s₀ p + events.length := by
  induction events generalizing s₀ with
  | nil =>
    cases h
    rfl
  | cons q events ih =>
    obtain ⟨t, hstep, hrun⟩ := (run_cons _).mp h
    obtain ⟨-, rfl⟩ := next_eq_some.mp hstep
    rw [ih hrun, Finset.sum_update_of_mem (Finset.mem_univ q), List.length_cons,
      ← Finset.sum_erase_add _ _ (Finset.mem_univ q), Finset.sdiff_singleton_eq_erase]
    omega

/-- A run of processes that keep to the order comes to its end with everything open: until then
some `open` can return, and there are no more of them than ends. -/
theorem Ordered.opened_of_run {rank : φ → ℕ} (hordered : Ordered plan rank)
    (h : run (next plan) (fun _ => 0) events = some s) :
    events.length ≤ ∑ p, (plan p).length ∧ (Opened plan s ∨ ∃ p, (next plan s p).isSome) := by
  have hle := le_of_run h
  constructor
  · have hsum := sum_of_run h
    simp only [Finset.sum_const_zero, Nat.zero_add] at hsum
    rw [← hsum]
    exact Finset.sum_le_sum fun p _ => hle p
  · by_cases hall : ∀ p, s p = (plan p).length
    · exact .inl hall
    · obtain ⟨p, hp⟩ := not_forall.mp hall
      obtain ⟨q, hq⟩ := hordered.exists_opens ⟨p, lt_of_le_of_ne (hle p) hp⟩
      exact .inr ⟨q, by rw [next, if_pos hq]; rfl⟩

end

end ChronosUpdates.Fifo
