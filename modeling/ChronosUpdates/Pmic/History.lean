import ChronosUpdates.Pmic.Decision

namespace ChronosUpdates.Pmic
open Shell

variable {δ φ : Type*} [DecidableEq δ] (md5 : UpdateReal.Bytes → δ)

inductive Script (δ : Type*)
  | updateReal (env : UpdateReal.Env δ)
  | updateBackend (env : UpdateBackend.Env) (polls : List UpdateBackend.Poll)

def realAct : UpdateReal.Act → Option Act
  | .pmic a => some a
  | _ => none

def backendAct : UpdateBackend.Act → Option Act
  | .pmic a => some a
  | _ => none

def Script.acts (v : Text) : Script δ → List Act
  | .updateReal env => (UpdateReal.updateReal md5 { env with pcUtil := v }).filterMap realAct
  | .updateBackend env polls =>
    (UpdateBackend.trace { env with pcUtil := v } polls).filterMap backendAct

/-- A run that is cut off after some of these acts, and what `pcUtil -u` would leave. -/
structure Update (δ φ : Type*) where
  script : Script δ
  stop : ℕ
  flashed : φ

/-- `pcUtil -v` prints a version with harmless other lines, or no digit if there is none. -/
structure Reads (report : φ → Text) (version : φ → Option ℕ) : Prop where
  printed : ∀ x n, version x = some n → ∃ r : Report (report x), digits r.version = n ∧ r.Harmless
  broken : ∀ x, version x = none → Digitless (report x)

section
variable (report : φ → Text)

def Update.Flashes (x : φ) (u : Update δ φ) : Prop :=
  .pcUtil 'u' ∈ (u.script.acts md5 (report x)).take u.stop

/-- A run to the end that gets to the question for the version. -/
def Update.Complete (u : Update δ φ) : Prop :=
  ∀ x, .pcUtil 'v' ∈ u.script.acts md5 (report x) ∧
    (u.script.acts md5 (report x)).length ≤ u.stop

instance decidableFlashes (x : φ) (u : Update δ φ) : Decidable (u.Flashes md5 report x) :=
  inferInstanceAs (Decidable (_ ∈ _))

def Update.after (x : φ) (u : Update δ φ) : φ :=
  if u.Flashes md5 report x then u.flashed else x

/-- The flashes of some updates: the controller before and after each of them. -/
def flashes (x : φ) : List (Update δ φ) → List (φ × φ)
  | [] => []
  | u :: us =>
    if u.Flashes md5 report x then (x, u.flashed) :: flashes u.flashed us else flashes x us

end

def UpToDate (version : φ → Option ℕ) (x : φ) : Prop :=
  ∃ n, version x = some n ∧ digits hexVersion ≤ n

structure Sparing (version : φ → Option ℕ) (fs : List (φ × φ)) : Prop where
  below : ∀ f ∈ fs, ∃ n, version f.1 = some n ∧ n < digits hexVersion
  last : fs.Pairwise fun f _ => ¬ UpToDate version f.2

variable {md5} {report : φ → Text} {version : φ → Option ℕ}

theorem realAct_eq_some {a : UpdateReal.Act} {b : Act} : realAct a = some b ↔ a = .pmic b := by
  cases a <;> simp [realAct]

theorem backendAct_eq_some {a : UpdateBackend.Act} {b : Act} :
    backendAct a = some b ↔ a = .pmic b := by
  cases a <;> simp [backendAct]

theorem Script.mem_acts_updateReal {v : Text} {env : UpdateReal.Env δ} {a : Act} :
    a ∈ (Script.updateReal env).acts md5 v ↔
      .pmic a ∈ UpdateReal.updateReal md5 { env with pcUtil := v } := by
  simp [Script.acts, List.mem_filterMap, realAct_eq_some]

theorem Script.mem_acts_updateBackend {v : Text} {env : UpdateBackend.Env}
    {polls : List UpdateBackend.Poll} {a : Act} :
    a ∈ (Script.updateBackend env polls).acts md5 v ↔
      .pmic a ∈ UpdateBackend.trace { env with pcUtil := v } polls := by
  simp [Script.acts, List.mem_filterMap, backendAct_eq_some]

theorem Script.outdated_of_flash {v : Text} {script : Script δ}
    (h : .pcUtil 'u' ∈ script.acts md5 v) : outdated v = true := by
  cases script with
  | updateReal env =>
    have hflash := (pmic_mem_updateReal md5 _ _).mp (Script.mem_acts_updateReal.mp h)
    exact ((flashes_iff _ _ _ _).mp hflash.2).2
  | updateBackend env polls =>
    have hflash := (pmic_mem_trace _ polls _).mp (Script.mem_acts_updateBackend.mp h)
    exact ((flashes_iff _ _ _ _).mp hflash.2).2

theorem flashes_of_complete {u : Update δ φ} (hu : u.Complete md5 report) (x : φ) :
    u.Flashes md5 report x ↔ outdated (report x) = true := by
  obtain ⟨hasks, hstop⟩ := hu x
  rw [Update.Flashes, List.take_of_length_le hstop]
  obtain ⟨script, stop, flashed⟩ := u
  cases script with
  | updateReal env =>
    rw [Script.mem_acts_updateReal] at hasks ⊢
    exact updateReal_flashes md5 hasks
  | updateBackend env polls =>
    rw [Script.mem_acts_updateBackend] at hasks ⊢
    exact trace_flashes hasks

theorem below_of_flash (h : Reads report version) {x : φ} {u : Update δ φ}
    (hu : u.Flashes md5 report x) : ∃ n, version x = some n ∧ n < digits hexVersion := by
  have hout := Script.outdated_of_flash (List.mem_of_mem_take hu)
  cases hx : version x with
  -- without a version `test` fails, and the script goes on without a flash
  | none =>
    rw [not_outdated_of_digitless (h.broken x hx)] at hout
    cases hout
  | some n =>
    obtain ⟨r, rfl, hr⟩ := h.printed x n hx
    exact ⟨_, rfl, ((outdated_iff_below r).mpr hr).mp hout⟩

theorem not_flashes_of_upToDate (h : Reads report version) {x : φ} (hx : UpToDate version x)
    (u : Update δ φ) : ¬ u.Flashes md5 report x := by
  intro hu
  obtain ⟨n, hn, hlt⟩ := below_of_flash h hu
  obtain ⟨m, hm, hle⟩ := hx
  rw [hn, Option.some.injEq] at hm
  omega

theorem flashes_of_upToDate (h : Reads report version) {x : φ} (hx : UpToDate version x)
    (us : List (Update δ φ)) : flashes md5 report x us = [] := by
  induction us with
  | nil => rfl
  | cons u us ih =>
    rw [flashes, if_neg (not_flashes_of_upToDate h hx u)]
    exact ih

theorem below_of_not_upToDate {x : φ} (hx : version x ≠ none) (h : ¬ UpToDate version x) :
    ∃ n, version x = some n ∧ n < digits hexVersion := by
  obtain ⟨n, hn⟩ := Option.ne_none_iff_exists'.mp hx
  exact ⟨n, hn, Nat.lt_of_not_le fun hle => h ⟨n, hn, hle⟩⟩

/-- A complete run whose flash would succeed leaves the version of the hex file at least. -/
theorem upToDate_after (h : Reads report version) {x : φ} (hx : version x ≠ none)
    {u : Update δ φ} (hu : u.Complete md5 report) (hdone : UpToDate version u.flashed) :
    UpToDate version (u.after md5 report x) := by
  by_cases hflash : u.Flashes md5 report x
  · rw [Update.after, if_pos hflash]
    exact hdone
  · rw [Update.after, if_neg hflash]
    by_contra hold
    obtain ⟨n, hn, hlt⟩ := below_of_not_upToDate hx hold
    obtain ⟨r, rfl, hr⟩ := h.printed x n hn
    exact hflash ((flashes_of_complete hu x).mpr (((outdated_iff_below r).mpr hr).mpr hlt))

theorem version_after {x : φ} {u : Update δ φ} (hx : version x ≠ none)
    (hu : version u.flashed ≠ none) : version (u.after md5 report x) ≠ none := by
  rw [Update.after]
  split
  · exact hu
  · exact hx

theorem version_updates {x : φ} {us : List (Update δ φ)} (hx : version x ≠ none)
    (hus : ∀ u ∈ us, version u.flashed ≠ none) :
    version (us.foldl (Update.after md5 report) x) ≠ none := by
  induction us generalizing x with
  | nil => exact hx
  | cons u us ih =>
    obtain ⟨hu, hus⟩ := List.forall_mem_cons.mp hus
    exact ih (version_after hx hu) hus

theorem updates_of_upToDate (h : Reads report version) {x : φ} (hx : UpToDate version x)
    (us : List (Update δ φ)) : us.foldl (Update.after md5 report) x = x := by
  induction us with
  | nil => rfl
  | cons u us ih =>
    rw [List.foldl_cons, Update.after, if_neg (not_flashes_of_upToDate h hx u)]
    exact ih

theorem sparing_flashes (h : Reads report version) (x : φ) (us : List (Update δ φ)) :
    Sparing version (flashes md5 report x us) := by
  induction us generalizing x with
  | nil => exact ⟨by simp [flashes], List.Pairwise.nil⟩
  | cons u us ih =>
    rw [flashes]
    split
    · rename_i hu
      obtain ⟨hbelow, hlast⟩ := ih u.flashed
      refine ⟨List.forall_mem_cons.mpr ⟨below_of_flash h hu, hbelow⟩, ?_⟩
      refine List.pairwise_cons.mpr ⟨fun f hf hdone => ?_, hlast⟩
      rw [flashes_of_upToDate h hdone] at hf
      cases hf
    · exact ih x

/-- Over any number of updates the controller is flashed only when its version is below the one of
the hex file, and never again after a flash that has succeeded. One complete update with such a
flash is enough to have it up to date from then on, unless a failed flash has left no version. -/
theorem upToDate_of_updates (h : Reads report version) (x : φ) (us : List (Update δ φ)) :
    Sparing version (flashes md5 report x us) ∧
      (version x ≠ none → (∀ u ∈ us, version u.flashed ≠ none) →
        (∃ u ∈ us, u.Complete md5 report ∧ UpToDate version u.flashed) →
          UpToDate version (us.foldl (Update.after md5 report) x)) := by
  refine ⟨sparing_flashes h x us, fun hx hus hdone => ?_⟩
  obtain ⟨u, hu, hcomplete, hdone⟩ := hdone
  -- up to the complete update there may have been failures, behind it nothing changes
  obtain ⟨pre, post, rfl⟩ := List.append_of_mem hu
  have hpre := @version_updates _ _ _ md5 report _ _ pre hx fun v hv => hus v (by simp [hv])
  have hafter := upToDate_after h hpre hcomplete hdone
  rw [List.foldl_append, List.foldl_cons, updates_of_upToDate h hafter]
  exact hafter

theorem harmless_of_single {v l : Text} (h : lines v = [l]) (r : Report v) : r.Harmless := by
  have hline := r.lines_eq
  rw [h, List.singleton_eq_append_iff] at hline
  obtain ⟨hbefore, hrest⟩ | ⟨-, hrest⟩ := hline
  · have hafter : r.after = [] := (List.cons.inj hrest).2
    refine .inl ⟨?_, .inl ?_⟩ <;> simp [hafter, hbefore, remains]
  · cases hrest

def digitOf (done : Bool) : Char := if done then '7' else '5'

def reportOf (done : Bool) : Text := "Firmware version: ".toList ++ [digitOf done, '\n']

def versionOf (done : Bool) : Option ℕ := some (digits [digitOf done])

theorem lines_reportOf (done : Bool) :
    lines (reportOf done) = ["Firmware version: ".toList ++ [digitOf done]] := by
  cases done <;> decide

theorem exists_versionReport (done : Bool) :
    ∃ r : Report (reportOf done), digits r.version = digits [digitOf done] := by
  have hdigit : [digitOf done].all isDigit = true := by cases done <;> rfl
  have hfits : digits [digitOf done] < 2 ^ 63 := by cases done <;> decide
  exact ⟨{
    before := []
    label := "Firmware version".toList
    gap := [' ']
    version := [digitOf done]
    tail := []
    after := []
    lines_eq := lines_reportOf done
    gap_space := rfl
    tail_space := rfl
    version_ne_nil := List.cons_ne_nil _ _
    version_digits := hdigit
    version_fits := hfits
    before_digitless := by simp
    after_digitless := by simp }, rfl⟩

theorem reads_reportOf : Reads reportOf versionOf where
  printed done n hn := by
    obtain ⟨r, hr⟩ := exists_versionReport done
    exact ⟨r, hr.trans (Option.some.inj hn), harmless_of_single (lines_reportOf done) r⟩
  broken _ hdone := nomatch hdone

/-- The first flash is cut off, the second one succeeds, and the third update needs none. -/
def threeUpdates : List (Update UpdateReal.Bytes Bool) :=
  [⟨.updateReal (hexPackage []), 7, false⟩,
    ⟨.updateBackend (hexStick []) UpdateBackend.session, 9, true⟩,
    ⟨.updateReal (hexPackage []), 9, true⟩]

theorem upToDate_threeUpdates :
    Sparing versionOf (flashes id reportOf false threeUpdates) ∧
      UpToDate versionOf (threeUpdates.foldl (Update.after id reportOf) false) := by
  obtain ⟨hsparing, hend⟩ := upToDate_of_updates reads_reportOf false threeUpdates
  have hcomplete : (Update.mk (.updateBackend (hexStick []) UpdateBackend.session) 9
      true).Complete id reportOf := by
    intro done
    refine ⟨Script.mem_acts_updateBackend.mpr (asks_hexStick (reportOf done)), ?_⟩
    cases done <;> decide
  refine ⟨hsparing, hend nofun (fun u _ => nofun) ⟨_, by simp [threeUpdates], hcomplete, 7, ?_⟩⟩
  decide

end ChronosUpdates.Pmic
