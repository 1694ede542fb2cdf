import ChronosUpdates.UpdateReal.Script

namespace ChronosUpdates.UpdateReal
open Shell Md5sum

variable {δ : Type*}

def Act.Inert (a : Act) : Prop := a ≠ .rmBoot ∧ a ≠ .tar ∧ a ≠ .rmTiLogo ∧ a ≠ .cpBoot

/-- The acts that change nothing of the camera but what runs on it. -/
def Act.Harmless : Act → Prop
  | .killall _ _ | .md5sum | .show _ | .ps | .reboot => True
  | _ => False

theorem Act.Harmless.inert {a : Act} (h : a.Harmless) : a.Inert := by
  cases a <;> simp_all [Act.Harmless, Act.Inert]

theorem effects_append (ms : List (Path × Bytes)) (fault : Fault) (t : Tree) (as bs : List Act) :
    effects ms fault t (as ++ bs) = effects ms fault (effects ms fault t as) bs :=
  List.foldl_append

theorem effects_of_inert (ms : List (Path × Bytes)) (fault : Fault) (t : Tree) {acts : List Act}
    (h : ∀ a ∈ acts, a.Inert) : effects ms fault t acts = t := by
  induction acts with
  | nil => rfl
  | cons a acts ih =>
    have hacts := ih fun b hb => h b (List.mem_cons_of_mem _ hb)
    obtain ⟨h₁, h₂, h₃, h₄⟩ := h a List.mem_cons_self
    cases a <;> first | exact hacts | contradiction

/-- The loop is skipped, or one of its listings shows no `camApp`. -/
def CamAppEnds (disk : Text → FileState Bytes) (ps : List Text) : Prop :=
  isFile (disk busyRaw) = false ∨ ∃ t ∈ ps, ∀ l ∈ lines t, contains "camApp".toList l = false

theorem waitLoop_ends (timeout : ℕ) (ps : List Text) :
    (waitLoop timeout ps).2 = true ↔
      ∃ t ∈ ps, ∀ l ∈ lines t, contains "camApp".toList l = false := by
  -- `grep camApp` matches no empty line, so its output is empty only without a match
  have hchar : ∀ l, contains "camApp".toList l = true → ∃ c ∈ l, c ≠ '\n' := by
    intro l hl
    have hl : "camApp".toList <:+: l := by simpa only [contains, decide_eq_true_eq] using hl
    exact ⟨'c', hl.subset (by decide), by decide⟩
  induction ps generalizing timeout with
  | nil => simp [waitLoop]
  | cons t ts ih =>
    simp only [waitLoop, List.exists_mem_cons_iff, ← substitute_grep_eq_nil _ hchar t]
    split
    · rename_i h
      exact iff_of_true rfl (.inl h)
    split
    · rename_i h _
      simp only [h, false_or, ih]
    · rename_i h _
      simp only [h, false_or, ih]

theorem waitForCamApp_ends (env : Env δ) :
    (waitForCamApp env).2 = true ↔ CamAppEnds env.disk env.ps := by
  unfold waitForCamApp CamAppEnds
  split
  · rename_i h
    simp only [h, waitLoop_ends, Bool.true_eq_false, false_or]
  · rename_i h
    simp [h]

theorem waitLoop_harmless (timeout : ℕ) (ps : List Text) :
    ∀ a ∈ (waitLoop timeout ps).1, a.Harmless := by
  induction ps generalizing timeout with
  | nil => simp [waitLoop]
  | cons t ts ih =>
    simp only [waitLoop]
    split
    · simp [Act.Harmless]
    split
    · simpa [Act.Harmless] using ih (timeout - 1)
    · simpa [Act.Harmless] using ih 0

theorem waitForCamApp_harmless (env : Env δ) : ∀ a ∈ (waitForCamApp env).1, a.Harmless := by
  unfold waitForCamApp
  split
  · intro a ha
    rcases List.mem_append.mp ha with ha | ha
    · exact waitLoop_harmless _ _ a ha
    · split at ha
      · rw [List.mem_singleton.mp ha]
        trivial
      · cases ha
  · simp

variable [DecidableEq δ] (md5 : Bytes → δ)

theorem rmBoot_mem_iff (env : Env δ) :
    .rmBoot ∈ updateReal md5 env ↔ validates md5 env = true ∧ (waitForCamApp env).2 = true := by
  have hwait : .rmBoot ∉ (waitForCamApp env).1 := fun h => (waitForCamApp_harmless env _ h).elim
  have hmd5 : .rmBoot ∉ (if env.manifest.isSome then [.md5sum] else [] : List Act) := by
    split <;> simp
  have hinstall : .rmBoot ∈ install env := by simp [install]
  by_cases hv : validates md5 env = true
  · by_cases hw : (waitForCamApp env).2 = true
    · simp [updateReal, hv, hw, hinstall]
    · simp [updateReal, hv, hw, hwait, hmd5]
  · simp [updateReal, hv, hmd5]

/-- A run that rejects the package does nothing but show it and restart the camera. -/
theorem harmless_of_rejected {env : Env δ} (h : validates md5 env = false) :
    ∀ a ∈ updateReal md5 env, a.Harmless := by
  intro a ha
  simp only [updateReal, h, Bool.false_eq_true, if_false, List.mem_cons, List.mem_append,
    List.not_mem_nil, or_false] at ha
  rcases ha with (rfl | ha) | rfl | rfl
  · trivial
  · split at ha
    · rw [List.mem_singleton.mp ha]
      trivial
    · cases ha
  · trivial
  · trivial

/-- The validation is a gate: the run gets to the deletion of `/boot` exactly when every
file of the manifest is intact, and a run that rejects the package changes no file. -/
structure Gate (es : List (Entry δ)) (env : Env δ) : Prop where
  opens : .rmBoot ∈ updateReal md5 env ↔ ∀ e ∈ es, Intact md5 env.disk e
  unchanged : validates md5 env = false →
    ∀ ms fault t, effects ms fault t (updateReal md5 env) = t

theorem validates_iff {es : List (Entry δ)} {env : Env δ} (h : env.manifest = some es) :
    validates md5 env = true ↔ ∀ e ∈ es, ¬ Altered md5 env.disk e := by
  rw [validates, h, beq_iff_eq, badsums]
  exact badsums_eq_nil md5 env.disk es

/-- The gate holds for a package with an altered file. Without one it takes the package for
good, so the gate holds only if no file is missing or unreadable; a wait for `camApp`
that never ends turns this around. -/
theorem gate_iff (files : List (Text × Bytes)) (disk : Text → FileState Bytes) (ps : List Text)
    (updatePartition pcUtil : Text) :
    Gate md5 (md5sum md5 files)
        ⟨updatePartition, some (md5sum md5 files), disk, ps, pcUtil⟩ ↔
      (∃ e ∈ md5sum md5 files, Altered md5 disk e) ∨
        (CamAppEnds disk ps ↔ ∀ e ∈ md5sum md5 files, ¬ Lost disk e) := by
  set env : Env δ := ⟨updatePartition, some (md5sum md5 files), disk, ps, pcUtil⟩
  have hvalid : validates md5 env = true ↔ ∀ e ∈ md5sum md5 files, ¬ Altered md5 disk e :=
    validates_iff md5 rfl
  have hgate : Gate md5 (md5sum md5 files) env ↔
      (.rmBoot ∈ updateReal md5 env ↔ ∀ e ∈ md5sum md5 files, Intact md5 disk e) :=
    ⟨fun h => h.opens, fun h => ⟨h, fun hr ms fault t =>
      effects_of_inert ms fault t fun a ha => (harmless_of_rejected md5 hr a ha).inert⟩⟩
  have hintact : (∀ e ∈ md5sum md5 files, Intact md5 disk e) ↔
      (∀ e ∈ md5sum md5 files, ¬ Altered md5 disk e) ∧ ∀ e ∈ md5sum md5 files, ¬ Lost disk e := by
    simp only [intact_iff, forall_and]
  have haltered : (¬ ∀ e ∈ md5sum md5 files, ¬ Altered md5 disk e) ↔
      ∃ e ∈ md5sum md5 files, Altered md5 disk e := by
    simp only [not_forall, not_not, exists_prop]
  rw [hgate, rmBoot_mem_iff, hvalid, waitForCamApp_ends, hintact, and_congr_right_iff,
    imp_iff_not_or, haltered]

def kernelTgz : Bytes :=
  [31, 139, 8, 0, 0, 0, 0, 0, 2, 255, 75, 202, 207, 47, 209, 47, 245, 204, 77, 76, 79, 101, 160,
   21, 48, 0, 2, 51, 19, 19, 48, 13, 4, 232, 52, 16, 24, 35, 177, 129, 226, 134, 64, 17, 99, 6,
   5, 3, 6, 58, 128, 210, 226, 146, 196, 34, 160, 245, 12, 35, 19, 48, 50, 49, 51, 140, 130, 81,
   48, 10, 70, 193, 40, 24, 121, 0, 0, 216, 150, 178, 85, 0, 8, 0, 0]

def kernelSum (c : Bytes) : Text :=
  if c = kernelTgz then "18a5a2164d90e87cf080691547e5d630".toList else []

/-- A package that has lost its `update.tgz`. -/
theorem not_gate_of_lost : ¬ Gate kernelSum (md5sum kernelSum [(updateTgz, kernelTgz)])
    ⟨"/media/sda1".toList, some (md5sum kernelSum [(updateTgz, kernelTgz)]), fun _ => .missing, [],
      []⟩ := by
  intro h
  have hintact := h.opens.mp (by decide) _ List.mem_cons_self
  obtain ⟨c, hc, -⟩ := hintact
  cases hc

end ChronosUpdates.UpdateReal
