import ChronosUpdates.Fifo
import Mathlib.Data.Fintype.Prod
import Mathlib.Data.Fintype.BigOperators

namespace ChronosUpdates.UpdateBackend
open Runs Fifo

inductive Pipe
  | toUpdateUi
  | toUpdateBackend
deriving DecidableEq, Repr

inductive Job
  | updateBackend
  | updateToDebian
deriving DecidableEq, Repr

instance fintypeJob : Fintype Job where
  elems := {.updateBackend, .updateToDebian}
  complete job := by cases job <;> decide

/-- The shell opens the redirections of a command from left to right. -/
def redirections : Job → List (End Pipe)
  | .updateBackend => [⟨.toUpdateBackend, false⟩, ⟨.toUpdateUi, true⟩]
  | .updateToDebian => [⟨.toUpdateBackend, true⟩, ⟨.toUpdateUi, false⟩]

/-- The jobs of `n` runs of the script, all with the same FIFOs: nothing ends the jobs of an
earlier run. -/
def jobs (n : ℕ) : Fin n × Job → List (End Pipe) := fun p => redirections p.2

def rank : Pipe → ℕ
  | .toUpdateBackend => 0
  | .toUpdateUi => 1

theorem ordered_jobs (n : ℕ) : Ordered (jobs n) rank where
  increasing := by
    have hpairs : ∀ job, (redirections job).Pairwise fun e f => rank e.fifo < rank f.fifo := by
      decide
    exact fun p => hpairs p.2
  paired := by
    have hother : ∀ job, ∀ e ∈ redirections job, ∃ job', e.other ∈ redirections job' := by decide
    intro p e he
    obtain ⟨job, hjob⟩ := hother p.2 e he
    exact ⟨(p.1, job), hjob⟩

/-- However often the script is started, and in whichever order the jobs get on: no more than four
`open`s a run are ever done, and as long as one job is not connected another `open` can return. -/
theorem connected_of_run {n : ℕ} {events : List (Fin n × Job)} {s : Fin n × Job → ℕ}
    (h : run (next (jobs n)) (fun _ => 0) events = some s) :
    events.length ≤ 4 * n ∧ (Opened (jobs n) s ∨ ∃ p, (next (jobs n) s p).isSome) := by
  obtain ⟨hlength, hopened⟩ := (ordered_jobs n).opened_of_run h
  refine ⟨hlength.trans (le_of_eq ?_), hopened⟩
  have htwo : ∀ job, (redirections job).length = 2 := by decide
  calc ∑ p, (jobs n p).length = Fintype.card (Fin n × Job) * 2 :=
        Finset.sum_const_nat fun p _ => htwo p.2
    _ = n * 2 * 2 := by
        rw [Fintype.card_prod, Fintype.card_fin]
        rfl
    _ = 4 * n := by omega

def twoRuns : List (Fin 2 × Job) :=
  [(0, .updateBackend), (1, .updateToDebian), (1, .updateBackend), (1, .updateBackend),
    (0, .updateToDebian), (1, .updateToDebian)]

theorem connected_twoRuns : ∃ s, run (next (jobs 2)) (fun _ => 0) twoRuns = some s ∧
    (Opened (jobs 2) s ∨ ∃ p, (next (jobs 2) s p).isSome) := by
  have hrun : (run (next (jobs 2)) (fun _ => 0) twoRuns).isSome := by decide
  obtain ⟨s, hs⟩ := Option.isSome_iff_exists.mp hrun
  exact ⟨s, hs, (connected_of_run hs).2⟩

end ChronosUpdates.UpdateBackend
