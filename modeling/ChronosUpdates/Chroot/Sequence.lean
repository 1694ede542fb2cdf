import ChronosUpdates.Chroot.Cleanup
import Mathlib.Data.List.TakeWhile

namespace ChronosUpdates.Chroot

/-- A run of a script that is stopped behind `stop` commands of its body, or not at all if there
are no more; if the trap is installed by then, all of `atexit` follows. -/
structure Session (γ : Type*) where
  script : Script
  stop : ℕ
  outcomes : ℕ → Outcome γ

variable {γ : Type*}

def Session.body (s : Session γ) : List Cmd := (setup s.script).take s.stop

def Session.Trapped (s : Session γ) : Prop := .trap ∈ s.body

def Session.commands (s : Session γ) : List Cmd :=
  s.body ++ if .trap ∈ s.body then atexit s.script else []

def Session.after (policy qemu : γ) (h : Host γ) (s : Session γ) : Host γ :=
  runFrom policy qemu s.outcomes 0 s.commands h

/-- What a run leaves at the path of `qemu-arm-static`: `chronos-chroot.sh` never removes it. -/
def qemuAfter (qemu : γ) (file : Option γ) (s : Session γ) : Option γ :=
  match s.script with
  | .completion true _ => none
  | .completion false _ => file
  | .chronosChroot => some qemu

/-- The genuine `ischroot` is in its place, and the rest of what the scripts need is gone. -/
structure Tidy (c : γ) (mounts : List Target) (h : Host γ) : Prop where
  ischroot : h.files ischrootPath = some c
  debianutils : h.files debianutilsPath = none
  policy : h.files policyPath = none
  mounts : h.mounts = mounts

def preparation (sc : Script) : List Cmd := (setup sc).takeWhile (· != .trap)

def work (sc : Script) : List Cmd := ((setup sc).dropWhile (· != .trap)).tail

theorem setup_eq (sc : Script) : setup sc = preparation sc ++ .trap :: work sc := by
  cases sc with
  | completion q b => cases q <;> cases b <;> rfl
  | chronosChroot => rfl

/-- What is so for all scripts is so for these five. -/
instance decidableForallScript {P : Script → Prop} [DecidablePred P] : Decidable (∀ sc, P sc) :=
  decidable_of_iff ((∀ q b, P (.completion q b)) ∧ P .chronosChroot) <| by
    refine ⟨fun h sc => ?_, fun h => ⟨fun q b => h _, h _⟩⟩
    cases sc with
    | completion q b => exact h.1 q b
    | chronosChroot => exact h.2

theorem mem_work {sc : Script} {c : Cmd} (hc : c ∈ work sc) : ∀ p ∈ ownPaths, p ∉ touched c := by
  have hall : ∀ sc, ∀ c ∈ work sc, ∀ p ∈ ownPaths, p ∉ touched c := by decide
  exact hall sc c hc

theorem Session.body_subset (s : Session γ) : s.body ⊆ setup s.script := List.take_subset _ _

section
variable {s : Session γ} (hs : s.Trapped)
include hs

theorem Session.commands_of_trapped : s.commands = s.body ++ atexit s.script :=
  congrArg (s.body ++ ·) (if_pos hs)

theorem Session.exists_body : ∃ cs, cs ⊆ work s.script ∧
    s.body = preparation s.script ++ .trap :: cs := by
  have hpre : .trap ∉ preparation s.script := by
    intro hmem
    simpa using List.mem_takeWhile_imp hmem
  have hlt : (preparation s.script).length < s.stop := by
    by_contra hle
    rw [Session.Trapped, Session.body, setup_eq, List.take_append_of_le_length (by omega)] at hs
    exact hpre (List.mem_of_mem_take hs)
  obtain ⟨k, hk⟩ : ∃ k, s.stop = (preparation s.script).length + (k + 1) :=
    ⟨s.stop - (preparation s.script).length - 1, by omega⟩
  refine ⟨(work s.script).take k, List.take_subset _ _, ?_⟩
  rw [Session.body, setup_eq, hk, List.take_length_add_append, List.take_succ_cons]

end

section
variable (policy qemu : γ) {s : Session γ} {h : Host γ}

/-- A file that is put aside and put back, if no one touches it where it is. -/
theorem ischroot_of_pieces (os : ℕ → Outcome γ) (n : ℕ) {pre mid post : List Cmd} {c : γ}
    (hpre : ∀ d ∈ pre, ischrootPath ∉ touched d) (hmid : ∀ d ∈ mid, debianutilsPath ∉ touched d)
    (hpost : ∀ d ∈ post, ischrootPath ∉ touched d ∧ debianutilsPath ∉ touched d)
    (hc : h.files ischrootPath = some c) :
    (runFrom policy qemu os n (pre ++ .moveAside :: (mid ++ .moveBack :: post)) h).files
        ischrootPath = some c ∧
      (runFrom policy qemu os n (pre ++ .moveAside :: (mid ++ .moveBack :: post)) h).files
        debianutilsPath = none := by
  rw [runFrom_append, runFrom, runFrom_append, runFrom,
    files_runFrom_of_untouched policy qemu os (by decide) fun d hd => (hpost d hd).1,
    files_runFrom_of_untouched policy qemu os (by decide) fun d hd => (hpost d hd).2]
  refine files_moveBack policy qemu (os _) ?_
  rw [files_runFrom_of_untouched policy qemu os (by decide) hmid]
  refine files_moveAside policy qemu (os _) ?_
  rwa [files_runFrom_of_untouched policy qemu os (by decide) hpre]

/-- Both scripts put `ischroot` aside once in their preparation, and back in their `atexit`. -/
theorem pieces (sc : Script) : ∃ pre mid mid' post,
    preparation sc = pre ++ .moveAside :: mid ∧ atexit sc = mid' ++ .moveBack :: post ∧
      (∀ d ∈ pre, ischrootPath ∉ touched d) ∧
        (∀ d ∈ mid ++ .trap :: mid', debianutilsPath ∉ touched d) ∧
          ∀ d ∈ post, ischrootPath ∉ touched d ∧ debianutilsPath ∉ touched d := by
  cases sc with
  | completion q b =>
    refine ⟨(preparation (.completion q b)).take 5, (preparation (.completion q b)).drop 6,
      (atexit (.completion q b)).dropLast, [], ?_⟩
    cases q <;> cases b <;> decide
  | chronosChroot =>
    exact ⟨[], [.substitute, .copyQemu, .bind .dev], [.rmIschroot], [.umount .dev], by decide⟩

theorem ischroot_after (hs : s.Trapped) {c : γ} (hc : h.files ischrootPath = some c) :
    (s.after policy qemu h).files ischrootPath = some c ∧
      (s.after policy qemu h).files debianutilsPath = none := by
  obtain ⟨cs, hcs, hbody⟩ := Session.exists_body hs
  obtain ⟨pre, mid, mid', post, hprep, hexit, hpre, hmid, hpost⟩ := pieces s.script
  have hcommands : s.commands =
      pre ++ .moveAside :: ((mid ++ .trap :: cs ++ mid') ++ .moveBack :: post) := by
    rw [Session.commands_of_trapped hs, hbody, hprep, hexit]
    simp only [List.append_assoc, List.cons_append]
  rw [Session.after, hcommands]
  refine ischroot_of_pieces policy qemu s.outcomes 0 hpre (fun d hd => ?_) hpost hc
  -- the body behind the trap may be cut off anywhere, so all of it is left alone
  by_cases hwork : d ∈ cs
  · exact mem_work (hcs hwork) _ (by decide)
  · refine hmid d ?_
    simp only [List.mem_append, List.mem_cons] at hd ⊢
    tauto

theorem mounts_after (hs : s.Trapped) (hm : ∀ p, .sysroot p ∉ h.mounts) :
    (s.after policy qemu h).mounts = h.mounts := by
  have hsetup : ∀ sc, ∀ c ∈ setup sc, unmountedBy c = none := by decide
  have hexit : ∀ sc, ∀ c ∈ atexit sc, boundBy c = none := by decide
  -- each point is mounted at most once, and each one that may be mounted is unmounted
  have hpoints : ∀ sc, ((setup sc).filterMap boundBy).reverse.Nodup ∧
      ∀ p ∈ (setup sc).filterMap boundBy, p ∈ (atexit sc).filterMap unmountedBy := by decide
  have hsub : (s.body.filterMap boundBy).Sublist ((setup s.script).filterMap boundBy) :=
    (List.take_sublist _ _).filterMap _
  obtain ⟨hnodup, hin⟩ := hpoints s.script
  obtain ⟨ps, hps, hmounts⟩ := mounts_of_binds policy qemu s.outcomes
    (fun c hc => hsetup _ c (s.body_subset hc)) 0 h
  have hinj : Function.Injective Target.sysroot := fun _ _ he => Target.sysroot.inj he
  rw [Session.after, Session.commands_of_trapped hs, runFrom_append,
    mounts_of_umounts policy qemu s.outcomes (hexit s.script), hmounts]
  refine foldl_erase_append (List.Nodup.map hinj (hnodup.sublist (hps.trans hsub.reverse)))
    (fun t ht => ?_) fun t ht => ?_
  · obtain ⟨p, hp, rfl⟩ := List.mem_map.mp ht
    exact List.mem_map_of_mem (hin p (hsub.subset (List.mem_reverse.mp (hps.subset hp))))
  · obtain ⟨p, -, rfl⟩ := List.mem_map.mp ht
    exact hm p

/-- The last command that touches a file decides what it is. -/
theorem files_of_last (os : ℕ → Outcome γ) {p : String} (hown : p ∈ ownPaths)
    {pre post : List Cmd} {c : Cmd} {v : Option γ}
    (hc : ∀ (o : Outcome γ) files, execFiles policy qemu o files c p = v)
    (hpost : ∀ d ∈ post, p ∉ touched d) (n : ℕ) :
    (runFrom policy qemu os n (pre ++ c :: post) h).files p = v := by
  rw [runFrom_append, runFrom, files_runFrom_of_untouched policy qemu os hown hpost]
  exact hc _ _

theorem policy_after (hs : s.Trapped) (hpolicy : h.files policyPath = none) :
    (s.after policy qemu h).files policyPath = none := by
  have hbody := s.body_subset
  rw [Session.after, Session.commands_of_trapped hs]
  cases hscript : s.script with
  | completion q b =>
    have hexit : ∃ pre, atexit (.completion q b) = pre ++ .rmPolicy :: [.rmIschroot, .moveBack] :=
      ⟨_, rfl⟩
    have hrm : ∀ (o : Outcome γ) files,
        execFiles policy qemu o files .rmPolicy policyPath = none := by
      simp [execFiles]
    obtain ⟨pre, hexit⟩ := hexit
    rw [hexit, ← List.append_assoc]
    exact files_of_last policy qemu s.outcomes (by decide) hrm (by decide) 0
  | chronosChroot =>
    have huntouched : ∀ d ∈ setup .chronosChroot ++ atexit .chronosChroot,
        policyPath ∉ touched d := by decide
    rw [files_runFrom_of_untouched policy qemu s.outcomes (by decide) fun d hd => ?_, hpolicy]
    rw [hscript] at hbody
    exact huntouched d (List.mem_append.mpr ((List.mem_append.mp hd).imp_left fun h => hbody h))

theorem qemu_after (hs : s.Trapped) :
    (s.after policy qemu h).files qemuPath = qemuAfter qemu (h.files qemuPath) s := by
  have hbody := s.body_subset
  obtain ⟨cs, hcs, hsplit⟩ := Session.exists_body hs
  rw [Session.after, Session.commands_of_trapped hs, qemuAfter]
  cases hscript : s.script with
  | completion q b =>
    cases q with
    | true =>
      have hexit : ∃ pre, atexit (.completion true b) =
          pre ++ .rmQemu :: [.rmPolicy, .rmIschroot, .moveBack] := by
        rw [atexit, if_pos rfl, List.append_assoc]
        exact ⟨_, rfl⟩
      have hrm : ∀ (o : Outcome γ) files,
          execFiles policy qemu o files .rmQemu qemuPath = none := by
        simp [execFiles]
      obtain ⟨pre, hexit⟩ := hexit
      rw [hexit, ← List.append_assoc]
      exact files_of_last policy qemu s.outcomes (by decide) hrm (by decide) 0
    | false =>
      have huntouched : ∀ d ∈ setup (.completion false b) ++ atexit (.completion false b),
          qemuPath ∉ touched d := by
        cases b <;> decide
      rw [hscript] at hbody
      refine files_runFrom_of_untouched policy qemu s.outcomes (by decide) (fun d hd => ?_) 0 h
      exact huntouched d (List.mem_append.mpr ((List.mem_append.mp hd).imp_left fun h => hbody h))
  | chronosChroot =>
    have hcopy : ∀ (o : Outcome γ) files,
        execFiles policy qemu o files .copyQemu qemuPath = some qemu := by
      simp [execFiles]
    have hrest : ∀ d ∈ [.bind .dev, .trap] ++ atexit .chronosChroot, qemuPath ∉ touched d := by
      decide
    have hpieces : preparation .chronosChroot ++ .trap :: cs ++ atexit .chronosChroot =
        [.moveAside, .substitute] ++
          .copyQemu :: (.bind .dev :: .trap :: cs ++ atexit .chronosChroot) := rfl
    rw [hsplit, hscript, hpieces]
    refine files_of_last policy qemu s.outcomes (by decide) hcopy (fun d hd => ?_) 0
    by_cases hwork : d ∈ cs
    · exact mem_work (hcs hwork) _ (by decide)
    · refine hrest d ?_
      simp only [List.mem_append, List.mem_cons] at hd ⊢
      tauto

/-- Whatever fails in the runs and wherever they are stopped, the two scripts leave the sysroot and
the mounts as they found them; `qemu-arm-static` is there if `chronos-chroot.sh` has run since the
last clean-up of the other script. -/
theorem tidy_of_sessions {c : γ} {mounts : List Target} (htidy : Tidy c mounts h)
    (hmounts : ∀ p, .sysroot p ∉ mounts) {ss : List (Session γ)} (hss : ∀ s ∈ ss, s.Trapped) :
    Tidy c mounts (ss.foldl (Session.after policy qemu) h) ∧
      (ss.foldl (Session.after policy qemu) h).files qemuPath =
        ss.foldl (qemuAfter qemu) (h.files qemuPath) := by
  induction ss generalizing h with
  | nil => exact ⟨htidy, rfl⟩
  | cons s ss ih =>
    obtain ⟨hs, hss⟩ := List.forall_mem_cons.mp hss
    obtain ⟨hischroot, hdebianutils⟩ := ischroot_after policy qemu hs htidy.ischroot
    have hnone : ∀ p, .sysroot p ∉ h.mounts := by
      rw [htidy.mounts]
      exact hmounts
    have hafter : Tidy c mounts (s.after policy qemu h) :=
      ⟨hischroot, hdebianutils, policy_after policy qemu hs htidy.policy,
        (mounts_after policy qemu hs hnone).trans htidy.mounts⟩
    rw [List.foldl_cons, List.foldl_cons, ← qemu_after policy qemu hs]
    exact ih hafter hss

end

/-- The hook is stopped in its first `chroot`, after a session in the sysroot. -/
def stoppedHook : List (Session Bool) :=
  [⟨.chronosChroot, 6, fun _ => ⟨true, fun _ => none⟩⟩,
    ⟨.completion true false, 13, fun n => ⟨n % 2 = 0, fun _ => some false⟩⟩]

theorem tidy_stoppedHook :
    Tidy true [.elsewhere "/"] (stoppedHook.foldl (Session.after true true) freshHost) ∧
      (stoppedHook.foldl (Session.after true true) freshHost).files qemuPath =
        stoppedHook.foldl (qemuAfter true) (freshHost.files qemuPath) := by
  have htidy : Tidy true [.elsewhere "/"] freshHost := ⟨by decide, by decide, by decide, rfl⟩
  have hmounts : ∀ p, .sysroot p ∉ [Target.elsewhere "/"] := by simp
  have htrapped : ∀ s ∈ stoppedHook, s.Trapped := by
    intro s hs
    rcases List.mem_pair.mp hs with rfl | rfl
    · exact (by decide : Cmd.trap ∈ (setup .chronosChroot).take 6)
    · exact (by decide : Cmd.trap ∈ (setup (.completion true false)).take 13)
  exact tidy_of_sessions true true htidy hmounts htrapped

end ChronosUpdates.Chroot
