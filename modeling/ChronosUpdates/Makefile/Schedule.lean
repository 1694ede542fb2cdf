import ChronosUpdates.Makefile.Image
import Mathlib.Logic.Function.Basic

namespace ChronosUpdates.Makefile
open Shell FileTree Runs

variable {γ : Type*}

/-- A complete package, and the invocation that made it with the tree that it started from. -/
structure Package (γ : Type*) where
  version : Text
  goal : Target
  before : Files γ
  content : γ

structure Session (γ : Type*) where
  tree : Files γ
  version : Text
  goal : Target
  before : Files γ
  /-- The number of lines of its recipe that a target has behind it. -/
  done : Target → ℕ
  failed : Target → Bool
  packages : List (Package γ)

inductive Event (γ : Type*)
  | make (version : Text) (goal : Target)
  | line (target : Target)
  | fail (target : Target) (junk : List (Path × Option γ))

def packageFile : Target → Option Path
  | .zip name => some name.1
  | .debian => some debianZip
  | _ => none

def Needed (goal target : Target) : Prop := target = goal ∨ target ∈ prerequisites goal

theorem eq_goal_of_package {goal target : Target} {out : Path} (h : Needed goal target)
    (hout : packageFile target = some out) : goal = target := by
  rcases h with h | h
  · exact h.symm
  · have hnone : ∀ p ∈ prerequisites goal, packageFile p = none := by
      cases goal <;> simp [prerequisites, packageFile]
    rw [hnone target h] at hout
    cases hout

def Finished (s : Session γ) (target : Target) : Prop :=
  s.done target = (recipe s.version target).length

def Ready (s : Session γ) (target : Target) : Prop :=
  Needed s.goal target ∧ s.failed target = false ∧
    (∀ p ∈ prerequisites target, Finished s p) ∧
      (s.done target = 0 → ∀ f ∈ sources target, (s.tree.lookup f).isSome)

instance (s : Session γ) (target : Target) : Decidable (Ready s target) :=
  inferInstanceAs (Decidable ((target = s.goal ∨ target ∈ prerequisites s.goal) ∧
    s.failed target = false ∧
      (∀ p ∈ prerequisites target, s.done p = (recipe s.version p).length) ∧
        (s.done target = 0 → ∀ f ∈ sources target, (s.tree.lookup f).isSome)))

/-- The package, when the last line of its recipe has been run. -/
def completed (s : Session γ) (target : Target) (t : Files γ) : List (Package γ) :=
  if s.done target + 1 = (recipe s.version target).length then
    ((packageFile target).bind t.lookup).toList.map fun z => ⟨s.version, s.goal, s.before, z⟩
  else []

/-- The line of the target has been run and has left the tree `t`. -/
def advance (s : Session γ) (target : Target) (t : Files γ) : Session γ :=
  { s with
    tree := t
    done := Function.update s.done target (s.done target + 1)
    packages := completed s target t ++ s.packages }

/-- The line of the target has failed, and no other one of the target will be run. -/
def abandon (s : Session γ) (target : Target) (t : Files γ) : Session γ :=
  { s with tree := t, failed := Function.update s.failed target true }

def next (k : Tools γ) (s : Session γ) : Event γ → Option (Session γ)
  | .make version goal =>
    some ⟨s.tree, version, goal, s.tree, fun _ => 0, fun _ => false, s.packages⟩
  | .line target =>
    if Ready s target then
      (recipe s.version target)[s.done target]?.bind fun l =>
        (exec k s.version s.tree l).map (advance s target)
    else none
  | .fail target junk =>
    if Ready s target then
      (recipe s.version target)[s.done target]?.map fun l => abandon s target (damage junk s.tree l)
    else none

def idle (t : Files γ) : Session γ := ⟨t, [], .clean, t, fun _ => 0, fun _ => true, []⟩

theorem next_line {k : Tools γ} {s s' : Session γ} {target : Target}
    (h : next k s (.line target) = some s') : Ready s target ∧
      ∃ l t, (recipe s.version target)[s.done target]? = some l ∧
        exec k s.version s.tree l = some t ∧ s' = advance s target t := by
  simp only [next] at h
  split at h
  · rename_i hready
    obtain ⟨l, hl, ht⟩ := Option.bind_eq_some_iff.mp h
    obtain ⟨t, he, rfl⟩ := Option.map_eq_some_iff.mp ht
    exact ⟨hready, l, t, hl, he, rfl⟩
  · cases h

theorem next_fail {k : Tools γ} {s s' : Session γ} {target : Target}
    {junk : List (Path × Option γ)} (h : next k s (.fail target junk) = some s') :
    Ready s target ∧ ∃ l, (recipe s.version target)[s.done target]? = some l ∧
      s' = abandon s target (damage junk s.tree l) := by
  simp only [next] at h
  split at h
  · rename_i hready
    obtain ⟨l, hl, rfl⟩ := Option.map_eq_some_iff.mp h
    exact ⟨hready, l, hl, rfl⟩
  · cases h

theorem next_make {k : Tools γ} {s s' : Session γ} {version : Text} {goal : Target}
    (h : next k s (.make version goal) = some s') :
    s' = ⟨s.tree, version, goal, s.tree, fun _ => 0, fun _ => false, s.packages⟩ := by
  cases h
  rfl

theorem mem_completed {s : Session γ} {target : Target} {t : Files γ} {x : Package γ}
    (h : x ∈ completed s target t) : s.done target + 1 = (recipe s.version target).length ∧
      (∃ out, packageFile target = some out ∧ t.lookup out = some x.content) ∧
        x = ⟨s.version, s.goal, s.before, x.content⟩ := by
  unfold completed at h
  split at h
  · rename_i hlast
    obtain ⟨z, hz, rfl⟩ := List.mem_map.mp h
    exact ⟨hlast, Option.bind_eq_some_iff.mp (Option.mem_toList.mp hz), rfl⟩
  · cases h

@[simp] theorem done_advance_self (s : Session γ) (target : Target) (t : Files γ) :
    (advance s target t).done target = s.done target + 1 := Function.update_self ..

theorem done_advance_of_ne {target u : Target} (h : u ≠ target) (s : Session γ) (t : Files γ) :
    (advance s target t).done u = s.done u := Function.update_of_ne h ..

theorem failed_abandon_of_ne {target u : Target} (h : u ≠ target) (s : Session γ) (t : Files γ) :
    (abandon s target t).failed u = s.failed u := Function.update_of_ne h ..

@[simp] theorem failed_abandon_self (s : Session γ) (target : Target) (t : Files γ) :
    (abandon s target t).failed target = true := Function.update_self ..

structure Ordered (s : Session γ) : Prop where
  behind : ∀ target, s.done target ≠ 0 → ∀ p ∈ prerequisites target, Finished s p
  succeeded : ∀ target, Finished s target → s.failed target = false

theorem not_finished {s : Session γ} {target : Target} {l : Line}
    (h : (recipe s.version target)[s.done target]? = some l) : ¬ Finished s target := by
  intro hf
  obtain ⟨hlt, -⟩ := List.getElem?_eq_some_iff.mp h
  exact absurd hf (by unfold Finished; omega)

theorem ordered_begin {s : Session γ} (h : s.done = fun _ => 0) : Ordered s := by
  constructor
  · intro target hne
    rw [h] at hne
    exact absurd rfl hne
  · intro target hf
    rw [Finished, h] at hf
    cases target <;> cases hf

theorem finished_advance {s : Session γ} {target p : Target} {l : Line}
    (hl : (recipe s.version target)[s.done target]? = some l) (hp : Finished s p) (t : Files γ) :
    Finished (advance s target t) p := by
  have hne : p ≠ target := fun e => not_finished hl (e ▸ hp)
  unfold Finished at hp ⊢
  rw [done_advance_of_ne hne, hp]
  rfl

theorem ordered_next {k : Tools γ} {s s' : Session γ} {e : Event γ} (hs : Ordered s)
    (h : next k s e = some s') : Ordered s' := by
  cases e with
  | make version goal =>
    rw [next_make h]
    exact ordered_begin rfl
  | line target =>
    obtain ⟨hready, l, t, hl, -, rfl⟩ := next_line h
    constructor
    · -- a target that begins now has its prerequisites behind it, as it was ready
      intro u hu p hp
      apply finished_advance hl
      by_cases hut : u = target
      · exact hready.2.2.1 p (hut ▸ hp)
      · rw [done_advance_of_ne hut] at hu
        exact hs.behind u hu p hp
    · intro u hu
      by_cases hut : u = target
      · exact hut ▸ hready.2.1
      · rw [Finished, done_advance_of_ne hut] at hu
        exact hs.succeeded u hu
  | fail target junk =>
    obtain ⟨-, l, hl, rfl⟩ := next_fail h
    constructor
    · exact hs.behind
    · intro u hu
      have hut : u ≠ target := fun e => not_finished hl (e ▸ hu)
      rw [failed_abandon_of_ne hut]
      exact hs.succeeded u hu

/-- While a target can go on, nothing that needs it has begun. -/
theorem Ordered.done_eq_zero {s : Session γ} (hs : Ordered s) {target u : Target} {l : Line}
    (h : (recipe s.version target)[s.done target]? = some l) (hu : target ∈ prerequisites u) :
    s.done u = 0 := by
  by_contra hne
  exact not_finished h (hs.behind u hne target hu)

theorem ready_advance {s : Session γ} {target : Target} {l : Line} (hready : Ready s target)
    (hl : (recipe s.version target)[s.done target]? = some l) (t : Files γ) :
    Ready (advance s target t) target := by
  obtain ⟨hneeded, hfailed, hprerequisites, -⟩ := hready
  refine ⟨hneeded, hfailed, fun p hp => finished_advance hl (hprerequisites p hp) t, fun h0 => ?_⟩
  rw [done_advance_self] at h0
  omega

structure Ran (s s' : Session γ) (target : Target) (r : Files γ × Bool) : Prop where
  tree : s'.tree = r.1
  version : s'.version = s.version
  goal : s'.goal = s.goal
  finished : r.2 = true → Finished s' target
  others : ∀ u, u ≠ target → s'.done u = s.done u ∧ s'.failed u = s.failed u

theorem Ran.of_advance {s s' : Session γ} {target : Target} {t : Files γ} {r : Files γ × Bool}
    (h : Ran (advance s target t) s' target r) : Ran s s' target r where
  tree := h.tree
  version := h.version
  goal := h.goal
  finished := h.finished
  others := fun u hu => ⟨(h.others u hu).1.trans (done_advance_of_ne hu s t), (h.others u hu).2⟩

theorem ran_abandon (s : Session γ) (target : Target) (t : Files γ) :
    Ran s (abandon s target t) target (t, false) where
  tree := rfl
  version := rfl
  goal := rfl
  finished := fun h => (nomatch h)
  others := fun _ hu => ⟨rfl, failed_abandon_of_ne hu s t⟩

theorem exists_run_lines (k : Tools γ) (junk : List (Path × Option γ)) {target : Target}
    {ls : List Line} (fail : Option ℕ) {s : Session γ} (hready : Ready s target)
    (hdone : s.done target ≤ (recipe s.version target).length)
    (hls : (recipe s.version target).drop (s.done target) = ls) :
    ∃ events s', run (next k) s events = some s' ∧
      Ran s s' target (runRecipe k s.version junk fail ls s.tree) := by
  -- the session moves along with the lines, and stays ready for the target
  induction ls generalizing fail s with
  | nil =>
    refine ⟨[], s, rfl, rfl, rfl, rfl, fun _ => ?_, fun _ _ => ⟨rfl, rfl⟩⟩
    exact le_antisymm hdone (List.drop_eq_nil_iff.mp hls)
  | cons l ls ih =>
    have hl : (recipe s.version target)[s.done target]? = some l := by
      rw [← List.head?_drop, hls, List.head?_cons]
    have hstop : ∃ events s', run (next k) s events = some s' ∧
        Ran s s' target (damage junk s.tree l, false) := by
      refine ⟨[.fail target junk], _, ?_, ran_abandon s target (damage junk s.tree l)⟩
      simp [run, next, hready, hl]
    rw [runRecipe]
    split
    · exact hstop
    · cases he : exec k s.version s.tree l with
      | none => exact hstop
      | some t =>
        have hdrop : (recipe s.version target).drop (s.done target + 1) = ls := by
          rw [← List.drop_drop, hls, List.drop_one, List.tail_cons]
        have hlt : s.done target < (recipe s.version target).length :=
          (List.getElem?_eq_some_iff.mp hl).1
        obtain ⟨events, s', hrun, hran⟩ := ih (fail.map (· - 1)) (ready_advance hready hl t)
          (by rw [done_advance_self]; exact hlt) (by rw [done_advance_self]; exact hdrop)
        refine ⟨.line target :: events, s', (run_cons (next k)).mpr ⟨_, ?_, hrun⟩, hran.of_advance⟩
        simp [next, hready, hl, he]

/-- The session of an invocation whose recipes are run as a whole. -/
structure Matches (r : Repo γ) (s : Session γ) : Prop where
  tree : s.tree = r.tree
  version : s.version = r.version
  made : ∀ target ∈ r.made, Finished s target
  fresh : r.failed = false → ∀ target, target ∉ r.made → s.done target = 0 ∧ s.failed target = false

theorem matches_make {k : Tools γ} {r r' : Repo γ} {s : Session γ} (h : Matches r s)
    {version : Text} (hstep : step k r (.make version) = some r') (goal : Target) :
    ∃ s', next k s (.make version goal) = some s' ∧ Matches r' s' := by
  cases hstep
  exact ⟨_, rfl, h.tree, rfl, fun _ hmem => (nomatch hmem), fun _ _ _ => ⟨rfl, rfl⟩⟩

/-- A recipe that the goal needs, run as a whole or up to a failure, is a run of its lines. -/
theorem matches_recipe {k : Tools γ} {r r' : Repo γ} {s : Session γ} (h : Matches r s)
    {target : Target} {fail : Option ℕ} {junk : List (Path × Option γ)}
    (hneeded : Needed s.goal target) (hstep : step k r (.recipe target fail junk) = some r') :
    ∃ events s', run (next k) s events = some s' ∧ s'.goal = s.goal ∧ Matches r' s' := by
  simp only [step] at hstep
  split at hstep
  · rename_i hcan
    obtain ⟨hok, hnot, hprerequisites, hsources⟩ := hcan
    cases hstep
    obtain ⟨hdone, hfailed⟩ := h.fresh hok target hnot
    have hready : Ready s target :=
      ⟨hneeded, hfailed, fun p hp => h.made p (hprerequisites p hp), fun _ => h.tree ▸ hsources⟩
    obtain ⟨events, s', hrun, hran⟩ := exists_run_lines k junk fail hready (by omega)
      (by rw [hdone, List.drop_zero])
    rw [h.version, h.tree] at hran
    refine ⟨events, s', hrun, hran.goal, hran.tree, hran.version.trans h.version, fun u hu => ?_,
      fun hr u hu => ?_⟩
    · by_cases hut : u = target
      · subst hut
        split at hu
        · rename_i hwhole
          exact hran.finished hwhole
        · exact absurd hu hnot
      · have hmem : u ∈ r.made := by
          split at hu
          · exact (List.mem_cons.mp hu).resolve_left hut
          · exact hu
        have hfinished := h.made u hmem
        unfold Finished at hfinished ⊢
        rw [(hran.others u hut).1, hran.version, hfinished]
    · rw [if_pos (by simpa using hr)] at hu
      obtain ⟨hut, hmem⟩ := not_or.mp (List.mem_cons.not.mp hu)
      rw [(hran.others u hut).1, (hran.others u hut).2]
      exact h.fresh hok u hmem
  · cases hstep

/-- Each invocation runs only recipes that one goal needs; the current one has the goal `goal`. -/
def Serves : Target → List (Act γ) → Prop
  | _, [] => True
  | _, .make _ :: acts => ∃ goal, Serves goal acts
  | goal, .recipe target _ _ :: acts => Needed goal target ∧ Serves goal acts

/-- Invocations that run their recipes one after the other are runs of the parallel machine. -/
theorem matches_run {k : Tools γ} {r r' : Repo γ} {s : Session γ} (h : Matches r s)
    {acts : List (Act γ)} (hserves : Serves s.goal acts) (hrun : run (step k) r acts = some r') :
    ∃ events s', run (next k) s events = some s' ∧ Matches r' s' := by
  induction acts generalizing r s with
  | nil =>
    cases hrun
    exact ⟨[], s, rfl, h⟩
  | cons a acts ih =>
    obtain ⟨r₁, hstep, hrest⟩ := (run_cons (step k)).mp hrun
    cases a with
    | make version =>
      obtain ⟨goal, hgoal⟩ := hserves
      obtain ⟨s₁, hnext, hmatches⟩ := matches_make h hstep goal
      have hstart : s₁.goal = goal := by rw [next_make hnext]
      obtain ⟨events, s', hevents, hend⟩ := ih hmatches (hstart ▸ hgoal) hrest
      exact ⟨.make version goal :: events, s', (run_cons (next k)).mpr ⟨s₁, hnext, hevents⟩, hend⟩
    | recipe target fail junk =>
      obtain ⟨hneeded, hgoal⟩ := hserves
      obtain ⟨lines, s₁, hlines, hsame, hmatches⟩ := matches_recipe h hneeded hstep
      obtain ⟨events, s', hevents, hend⟩ := ih hmatches (hsame ▸ hgoal) hrest
      exact ⟨lines ++ events, s', run_append (next k) hlines hevents, hend⟩

theorem matches_start (t : Files γ) : Matches (start t) (idle t) where
  tree := rfl
  version := rfl
  made := fun _ hmem => (nomatch hmem)
  fresh := fun h => (nomatch h)

def debianLines : List (Event Content) :=
  .make "v1".toList .debian :: List.replicate 3 (.line .clean) ++ List.replicate 6 (.line .debian)

def checkout : Files Content :=
  [⟨path ["busy.raw"], .data 10⟩, ⟨path ["checksum.raw"], .data 11⟩, ⟨path ["update.sh"], .data 5⟩,
    ⟨path ["update_real.sh"], .data 12⟩, ⟨hexFile, .data 6⟩, ⟨path ["changelog.txt"], .data 13⟩,
    ⟨path ["README.txt"], .data 14⟩].toAList

def zipLines (name : { p : Path // isZip p = true }) : List (Event Content) :=
  .make "v1".toList (.zip name) :: List.replicate 2 (.line .camUpdate) ++
    List.replicate 4 (.line .updateTgz) ++ List.replicate 2 (.line .updateMd5sum) ++
      List.replicate 3 (.line (.zip name))

end ChronosUpdates.Makefile
