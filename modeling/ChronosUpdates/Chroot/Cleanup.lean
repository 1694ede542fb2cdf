import ChronosUpdates.Chroot.Scripts
import Mathlib.Data.List.Nodup

namespace ChronosUpdates.Chroot

/-- A place to mount on: in the sysroot, or elsewhere on the build machine. -/
inductive Target
  | sysroot (p : Point)
  | elsewhere (path : String)
deriving DecidableEq, Repr

/-- The files of the sysroot, by their paths, and the mounts, the latest first. -/
structure Host (γ : Type*) where
  files : String → Option γ
  mounts : List Target

def ischrootPath : String := "usr/bin/ischroot"

def debianutilsPath : String := "usr/bin/ischroot.debianutils"

def truePath : String := "bin/true"

def policyPath : String := "usr/sbin/policy-rc.d"

def qemuPath : String := "usr/bin/qemu-arm-static"

/-- The files that the script puts aside or in place. -/
def ownPaths : List String := [ischrootPath, debianutilsPath, policyPath, qemuPath]

/-- How a command comes out: whether a mount succeeds, and the files behind a command that
changes files of the sysroot at will. -/
structure Outcome (γ : Type*) where
  ok : Bool
  files : String → Option γ

variable {γ : Type*}

/-- `cp` and `mv`, when there is something to copy. -/
def copy (src dst : String) (files : String → Option γ) : String → Option γ :=
  match files src with
  | some c => Function.update files dst (some c)
  | none => files

def move (src dst : String) (files : String → Option γ) : String → Option γ :=
  match files src with
  | some c => Function.update (Function.update files src none) dst (some c)
  | none => files

section
variable (policy qemu : γ)

def execFiles (o : Outcome γ) (files : String → Option γ) : Cmd → String → Option γ
  | .writePolicy => Function.update files policyPath (some policy)
  | .moveAside => move ischrootPath debianutilsPath files
  | .substitute => copy truePath ischrootPath files
  | .copyQemu => Function.update files qemuPath (some qemu)
  | .chroot _ => fun p => if p ∈ ownPaths then files p else o.files p
  | .edit path => Function.update files path (o.files path)
  | .rmQemu => Function.update files qemuPath none
  | .rmPolicy => Function.update files policyPath none
  | .rmIschroot => Function.update files ischrootPath none
  | .moveBack => move debianutilsPath ischrootPath files
  | .mkdir _ | .chmodPolicy | .bind _ | .umount _ | .trap => files

/-- The effect on the mount table; `umount` takes the latest mount away. -/
def execMounts (o : Outcome γ) (mounts : List Target) : Cmd → List Target
  | .bind p => if o.ok then .sysroot p :: mounts else mounts
  | .umount p => mounts.erase (.sysroot p)
  | _ => mounts

def execHost (o : Outcome γ) (h : Host γ) (c : Cmd) : Host γ :=
  ⟨execFiles policy qemu o h.files c, execMounts o h.mounts c⟩

def runFrom (os : ℕ → Outcome γ) : ℕ → List Cmd → Host γ → Host γ
  | _, [], h => h
  | n, c :: cs, h => runFrom os (n + 1) cs (execHost policy qemu (os n) h c)

end

def commands (sc : Script) : List Cmd := setup sc ++ if .trap ∈ setup sc then atexit sc else []

structure Fresh (c : γ) (h : Host γ) : Prop where
  ischroot : h.files ischrootPath = some c
  debianutils : h.files debianutilsPath = none
  policy : h.files policyPath = none
  qemu : h.files qemuPath = none
  mounts : ∀ p, .sysroot p ∉ h.mounts

/-- The script has cleaned up: the sysroot is as fresh as before, with the same mounts. -/
structure Restored (c : γ) (before after : Host γ) : Prop where
  ischroot : after.files ischrootPath = some c
  debianutils : after.files debianutilsPath = none
  policy : after.files policyPath = none
  qemu : after.files qemuPath = none
  mounts : after.mounts = before.mounts

theorem number_cons (c : Cmd) (cs : List Cmd) (n : ℕ) :
    n + 1 + cs.length = n + (c :: cs).length := by
  rw [List.length_cons]
  omega

section
variable (policy qemu : γ) (os : ℕ → Outcome γ)

theorem runFrom_append (n : ℕ) (cs ds : List Cmd) (h : Host γ) :
    runFrom policy qemu os n (cs ++ ds) h =
      runFrom policy qemu os (n + cs.length) ds (runFrom policy qemu os n cs h) := by
  induction cs generalizing n h with
  | nil => rfl
  | cons c cs ih =>
    rw [List.cons_append, runFrom, ih, runFrom, number_cons c]

/-- The files that a command may change by itself; what runs in the chroot changes others. -/
def touched : Cmd → List String
  | .writePolicy | .rmPolicy => [policyPath]
  | .moveAside | .moveBack => [ischrootPath, debianutilsPath]
  | .substitute | .rmIschroot => [ischrootPath]
  | .copyQemu | .rmQemu => [qemuPath]
  | .edit path => [path]
  | .mkdir _ | .chmodPolicy | .bind _ | .umount _ | .trap | .chroot _ => []

theorem copy_of_ne {src dst p : String} (hp : p ≠ dst) (files : String → Option γ) :
    copy src dst files p = files p := by
  unfold copy
  cases files src with
  | some c => exact Function.update_of_ne hp _ _
  | none => rfl

theorem move_of_ne {src dst p : String} (hsrc : p ≠ src) (hdst : p ≠ dst)
    (files : String → Option γ) : move src dst files p = files p := by
  unfold move
  cases files src with
  | some c =>
    show Function.update (Function.update files src none) dst (some c) p = files p
    rw [Function.update_of_ne hdst, Function.update_of_ne hsrc]
  | none => rfl

theorem execFiles_of_untouched (o : Outcome γ) (files : String → Option γ) {c : Cmd} {p : String}
    (hown : p ∈ ownPaths) (hp : p ∉ touched c) : execFiles policy qemu o files c p = files p := by
  cases c with
  | chroot command => exact if_pos hown
  | substitute => exact copy_of_ne (by simpa [touched] using hp) files
  | moveAside =>
    simp only [touched, List.mem_cons, List.not_mem_nil, or_false, not_or] at hp
    exact move_of_ne hp.1 hp.2 files
  | moveBack =>
    simp only [touched, List.mem_cons, List.not_mem_nil, or_false, not_or] at hp
    exact move_of_ne hp.2 hp.1 files
  | mkdir | chmodPolicy | bind | umount | trap => rfl
  | writePolicy | copyQemu | edit | rmQemu | rmPolicy | rmIschroot =>
    exact Function.update_of_ne (by simpa [touched] using hp) _ _

/-- Commands that leave one of the script's own files alone keep it. -/
theorem files_runFrom_of_untouched {p : String} (hown : p ∈ ownPaths) {cs : List Cmd}
    (hcs : ∀ c ∈ cs, p ∉ touched c) (n : ℕ) (h : Host γ) :
    (runFrom policy qemu os n cs h).files p = h.files p := by
  induction cs generalizing n h with
  | nil => rfl
  | cons c cs ih =>
    rw [runFrom, ih fun d hd => hcs d (List.mem_cons_of_mem _ hd)]
    exact execFiles_of_untouched policy qemu _ _ hown (hcs c List.mem_cons_self)

theorem files_of_removed {p : String} (hown : p ∈ ownPaths) {pre post : List Cmd} {c : Cmd}
    (hc : ∀ o : Outcome γ, ∀ files, execFiles policy qemu o files c p = none)
    (hpost : ∀ d ∈ post, p ∉ touched d) (n : ℕ) (h : Host γ) :
    (runFrom policy qemu os n (pre ++ c :: post) h).files p = none := by
  rw [runFrom_append, runFrom, files_runFrom_of_untouched policy qemu os hown hpost]
  exact hc _ _

/-- The body up to the `mv` of `ischroot`, and from there to the `mv` back. -/
def before (q b : Bool) : List Cmd := (setup (.completion q b)).take 5

def between (q b : Bool) : List Cmd :=
  (setup (.completion q b)).drop 6 ++ (atexit (.completion q b)).dropLast

theorem commands_eq (q b : Bool) : commands (.completion q b) =
    setup (.completion q b) ++ atexit (.completion q b) := by
  have htrap : .trap ∈ setup (.completion q b) := by simp [setup]
  rw [commands, if_pos htrap]

theorem commands_completion (q b : Bool) : commands (.completion q b) =
    before q b ++ .moveAside :: (between q b ++ [.moveBack]) := by
  rw [commands_eq]
  cases q <;> cases b <;> rfl

theorem files_moveAside {c : γ} (o : Outcome γ) {h : Host γ}
    (hc : h.files ischrootPath = some c) :
    (execHost policy qemu o h .moveAside).files debianutilsPath = some c := by
  simp [execHost, execFiles, move, hc]

theorem files_moveBack {c : γ} (o : Outcome γ) {h : Host γ}
    (hc : h.files debianutilsPath = some c) :
    (execHost policy qemu o h .moveBack).files ischrootPath = some c ∧
      (execHost policy qemu o h .moveBack).files debianutilsPath = none := by
  have hne : debianutilsPath ≠ ischrootPath := by decide
  simp [execHost, execFiles, move, hc, hne]

/-- The genuine program is aside from its first `mv` to its second. -/
theorem ischroot_restored (q b : Bool) {c : γ} {h : Host γ} (hc : h.files ischrootPath = some c) :
    (runFrom policy qemu os 0 (commands (.completion q b)) h).files ischrootPath = some c ∧
      (runFrom policy qemu os 0 (commands (.completion q b)) h).files debianutilsPath = none := by
  have hbefore : ∀ d ∈ before q b, ischrootPath ∉ touched d := by
    cases q <;> cases b <;> decide
  have hbetween : ∀ d ∈ between q b, debianutilsPath ∉ touched d := by
    cases q <;> cases b <;> decide
  rw [commands_completion, runFrom_append, runFrom, runFrom_append, runFrom, runFrom]
  refine files_moveBack policy qemu (os _) ?_
  rw [files_runFrom_of_untouched policy qemu os (by decide) hbetween]
  refine files_moveAside policy qemu (os _) ?_
  rwa [files_runFrom_of_untouched policy qemu os (by decide) hbefore]

theorem policy_removed (q b : Bool) (h : Host γ) :
    (runFrom policy qemu os 0 (commands (.completion q b)) h).files policyPath = none := by
  have hsplit : ∃ pre,
      commands (.completion q b) = pre ++ .rmPolicy :: [.rmIschroot, .moveBack] := by
    rw [commands_eq, atexit, ← List.append_assoc]
    exact ⟨_, rfl⟩
  have hrm : ∀ (o : Outcome γ) files,
      execFiles policy qemu o files .rmPolicy policyPath = none := by
    simp [execFiles]
  obtain ⟨pre, hsplit⟩ := hsplit
  rw [hsplit]
  exact files_of_removed policy qemu os (by decide) hrm (by decide) 0 h

theorem qemu_removed (q b : Bool) {h : Host γ} (hq : h.files qemuPath = none) :
    (runFrom policy qemu os 0 (commands (.completion q b)) h).files qemuPath = none := by
  cases q with
  | true =>
    have hsplit : ∃ pre, commands (.completion true b) =
        pre ++ .rmQemu :: [.rmPolicy, .rmIschroot, .moveBack] := by
      rw [commands_eq, atexit, if_pos rfl, List.append_assoc, ← List.append_assoc]
      exact ⟨_, rfl⟩
    have hrm : ∀ (o : Outcome γ) files, execFiles policy qemu o files .rmQemu qemuPath = none := by
      simp [execFiles]
    obtain ⟨pre, hsplit⟩ := hsplit
    rw [hsplit]
    exact files_of_removed policy qemu os (by decide) hrm (by decide) 0 h
  | false =>
    have huntouched : ∀ d ∈ commands (.completion false b), qemuPath ∉ touched d := by
      rw [commands_eq]
      cases b <;> decide
    rw [files_runFrom_of_untouched policy qemu os (by decide) huntouched, hq]

def boundBy : Cmd → Option Point
  | .bind p => some p
  | _ => none

def unmountedBy : Cmd → Option Point
  | .umount p => some p
  | _ => none

theorem mounts_of_binds {cs : List Cmd} (hcs : ∀ c ∈ cs, unmountedBy c = none) (n : ℕ)
    (h : Host γ) :
    ∃ ps : List Point, ps.Sublist (cs.filterMap boundBy).reverse ∧
      (runFrom policy qemu os n cs h).mounts = ps.map .sysroot ++ h.mounts := by
  induction cs generalizing n h with
  | nil => exact ⟨[], List.Sublist.refl _, rfl⟩
  | cons c cs ih =>
    obtain ⟨ps, hps, hmounts⟩ := ih (fun d hd => hcs d (List.mem_cons_of_mem _ hd)) (n + 1)
      (execHost policy qemu (os n) h c)
    have hc : unmountedBy c = none := hcs c List.mem_cons_self
    cases c with
    | bind p =>
      have hrev : (List.filterMap boundBy (.bind p :: cs)).reverse =
          (cs.filterMap boundBy).reverse ++ [p] := List.reverse_cons
      rw [hrev]
      cases hok : (os n).ok with
      | true =>
        refine ⟨ps ++ [p], hps.append (List.Sublist.refl _), ?_⟩
        rw [runFrom, hmounts]
        simp [execHost, execMounts, hok]
      | false =>
        refine ⟨ps, hps.trans (List.sublist_append_left _ _), ?_⟩
        rw [runFrom, hmounts]
        simp [execHost, execMounts, hok]
    | umount p => cases hc
    | _ => exact ⟨ps, hps, hmounts⟩

theorem mounts_of_umounts {cs : List Cmd} (hcs : ∀ c ∈ cs, boundBy c = none) (n : ℕ) (h : Host γ) :
    (runFrom policy qemu os n cs h).mounts =
      ((cs.filterMap unmountedBy).map Target.sysroot).foldl List.erase h.mounts := by
  induction cs generalizing n h with
  | nil => rfl
  | cons c cs ih =>
    rw [runFrom, ih fun d hd => hcs d (List.mem_cons_of_mem _ hd)]
    cases c with
    | bind p => cases hcs _ List.mem_cons_self
    | _ => rfl

/-- To unmount what was mounted, and more that was not, leaves the mounts of before. -/
theorem foldl_erase_append {α : Type*} [DecidableEq α] {us xs ys : List α} (hxs : xs.Nodup)
    (hsub : ∀ x ∈ xs, x ∈ us) (hys : ∀ u ∈ us, u ∉ ys) :
    us.foldl List.erase (xs ++ ys) = ys := by
  induction us generalizing xs with
  | nil =>
    have hnil : xs = [] := List.eq_nil_iff_forall_not_mem.mpr fun x hx => nomatch hsub x hx
    rw [hnil]
    rfl
  | cons u us ih =>
    have herase : (xs ++ ys).erase u = xs.erase u ++ ys := by
      by_cases hu : u ∈ xs
      · exact List.erase_append_left _ hu
      · rw [List.erase_append_right _ hu, List.erase_of_not_mem (hys u List.mem_cons_self),
          List.erase_of_not_mem hu]
    rw [List.foldl_cons, herase]
    refine ih (hxs.erase u) (fun x hx => ?_) fun v hv => hys v (List.mem_cons_of_mem _ hv)
    obtain ⟨hne, hx⟩ := hxs.mem_erase_iff.mp hx
    exact (List.mem_cons.mp (hsub x hx)).resolve_left hne

theorem mounts_restored (q b : Bool) {h : Host γ} (hm : ∀ p, .sysroot p ∉ h.mounts) :
    (runFrom policy qemu os 0 (commands (.completion q b)) h).mounts = h.mounts := by
  have hsetup : ∀ c ∈ setup (.completion q b), unmountedBy c = none := by
    cases q <;> cases b <;> decide
  have hexit : ∀ c ∈ atexit (.completion q b), boundBy c = none := by
    cases q <;> cases b <;> decide
  have hnodup : ((setup (.completion q b)).filterMap boundBy).reverse.Nodup := by
    cases q <;> cases b <;> decide
  have hsub : ∀ p ∈ ((setup (.completion q b)).filterMap boundBy).reverse,
      p ∈ (atexit (.completion q b)).filterMap unmountedBy := by
    cases q <;> cases b <;> decide
  obtain ⟨ps, hps, hmounts⟩ := mounts_of_binds policy qemu os hsetup 0 h
  have hinj : Function.Injective Target.sysroot := fun _ _ he => Target.sysroot.inj he
  rw [commands_eq, runFrom_append, mounts_of_umounts policy qemu os hexit, hmounts]
  refine foldl_erase_append (List.Nodup.map hinj (hnodup.sublist hps)) (fun t ht => ?_)
    fun t ht => ?_
  · obtain ⟨p, hp, rfl⟩ := List.mem_map.mp ht
    exact List.mem_map_of_mem (hsub p (hps.subset hp))
  · obtain ⟨p, -, rfl⟩ := List.mem_map.mp ht
    exact hm p

end

def Target.point? : Target → Option Point
  | .sysroot p => some p
  | .elsewhere _ => none

/-- The part of the host that runs on one sysroot share. -/
def Host.sysroot (h : Host γ) : Sysroot γ where
  ischroot := h.files ischrootPath
  debianutils := h.files debianutilsPath
  trueProgram := h.files truePath
  policyRcD := (h.files policyPath).isSome
  qemuStatic := (h.files qemuPath).isSome
  mounts := h.mounts.filterMap Target.point?

theorem filterMap_erase (p : Point) (ts : List Target) :
    (ts.erase (.sysroot p)).filterMap Target.point? = (ts.filterMap Target.point?).erase p := by
  induction ts with
  | nil => rfl
  | cons t ts ih =>
    by_cases ht : t = .sysroot p
    · simp [ht, Target.point?]
    · rw [List.erase_cons_tail (by simpa using ht)]
      cases t with
      | elsewhere path => exact ih
      | sysroot q =>
        have hq : q ≠ p := fun e => ht (e ▸ rfl)
        simp only [Target.point?, List.filterMap_cons, ih]
        rw [List.erase_cons_tail (by simpa using hq)]

/-- A file that is edited is none of those that the sysroot is described by. -/
def EditsOther : Cmd → Prop
  | .edit path => path ∉ truePath :: ownPaths
  | _ => True

theorem sysroot_execHost (policy qemu : γ) {o : Outcome γ} {h : Host γ} {c : Cmd}
    (hc : EditsOther c) (ho : o.files truePath = h.files truePath) :
    (execHost policy qemu o h c).sysroot = exec o.ok h.sysroot c := by
  unfold Host.sysroot execHost
  cases c with
  | mkdir | chmodPolicy | trap => rfl
  | bind p => cases hok : o.ok <;> simp [execMounts, execFiles, exec, hok, Target.point?]
  | umount p => simp [execMounts, execFiles, exec, filterMap_erase]
  | chroot command => simpa [execFiles, execMounts, exec, ownPaths, ischrootPath, debianutilsPath,
      policyPath, qemuPath, truePath] using ho
  | edit path =>
    simp only [EditsOther, ownPaths, List.mem_cons, List.not_mem_nil, or_false, not_or] at hc
    obtain ⟨htrue, hischroot, hdebianutils, hpolicy, hqemu⟩ := hc
    simp [execFiles, execMounts, exec, Function.update_of_ne, Ne.symm htrue, Ne.symm hischroot,
      Ne.symm hdebianutils, Ne.symm hpolicy, Ne.symm hqemu]
  | moveAside =>
    cases hs : h.files ischrootPath with
    | none => simp [execFiles, execMounts, exec, move, hs]
    | some d =>
      unfold ischrootPath at hs
      simp [execFiles, execMounts, exec, move, hs, Function.update, ischrootPath, debianutilsPath,
        policyPath, qemuPath, truePath]
  | moveBack =>
    cases hs : h.files debianutilsPath with
    | none => simp [execFiles, execMounts, exec, move, hs]
    | some d =>
      unfold debianutilsPath at hs
      simp [execFiles, execMounts, exec, move, hs, Function.update, ischrootPath, debianutilsPath,
        policyPath, qemuPath, truePath]
  | substitute =>
    cases hs : h.files truePath with
    | none => simp [execFiles, execMounts, exec, copy, hs]
    | some d =>
      unfold truePath at hs
      simp [execFiles, execMounts, exec, copy, hs, Function.update, ischrootPath, debianutilsPath,
        policyPath, qemuPath, truePath]
  | writePolicy | copyQemu | rmQemu | rmPolicy | rmIschroot =>
    simp [execFiles, execMounts, exec, Function.update, ischrootPath, debianutilsPath, policyPath,
      qemuPath, truePath]

def execFrom (oks : ℕ → Bool) : ℕ → List Cmd → Sysroot γ → Sysroot γ
  | _, [], r => r
  | n, c :: cs, r => execFrom oks (n + 1) cs (exec (oks n) r c)

theorem execFrom_append (oks : ℕ → Bool) (n : ℕ) (cs ds : List Cmd) (r : Sysroot γ) :
    execFrom oks n (cs ++ ds) r = execFrom oks (n + cs.length) ds (execFrom oks n cs r) := by
  induction cs generalizing n r with
  | nil => rfl
  | cons c cs ih =>
    rw [List.cons_append, execFrom, ih, execFrom, number_cons c]

theorem trueProgram_exec (ok : Bool) (r : Sysroot γ) (c : Cmd) :
    (exec ok r c).trueProgram = r.trueProgram := by
  cases c <;> simp only [exec] <;> split <;> rfl

theorem sysroot_runFrom (policy qemu : γ) (os : ℕ → Outcome γ) {cs : List Cmd}
    (hcs : ∀ c ∈ cs, EditsOther c) (n : ℕ) {h : Host γ}
    (htrue : ∀ i, (os i).files truePath = h.files truePath) :
    (runFrom policy qemu os n cs h).sysroot = execFrom (fun i => (os i).ok) n cs h.sysroot := by
  induction cs generalizing n h with
  | nil => rfl
  | cons c cs ih =>
    have hc := sysroot_execHost policy qemu (hcs c List.mem_cons_self) (htrue n)
    have hkept : (execHost policy qemu (os n) h c).files truePath = h.files truePath :=
      (congrArg Sysroot.trueProgram hc).trans (trueProgram_exec _ _ _)
    rw [runFrom, ih (fun d hd => hcs d (List.mem_cons_of_mem _ hd)) (n + 1)
      fun i => (htrue i).trans hkept.symm, hc]
    rfl

def execActs (i : ℕ) (oks : ℕ → Bool) : ℕ → List Cmd → List Act
  | _, [] => []
  | n, _ :: cs => .exec i (oks n) :: execActs i oks (n + 1) cs

theorem run_execActs (i : ℕ) (oks : ℕ → Bool) {cs : List Cmd} (hcs : cs ≠ []) (n : ℕ)
    {s : System γ} {p : Proc} (hp : s.procs i = some p) (htodo : p.todo = cs) :
    Runs.run step s (execActs i oks n cs) = some ⟨execFrom oks n cs s.root,
      Function.update s.procs i
        { p with trapped := p.trapped || decide (Cmd.trap ∈ cs) }.leave⟩ := by
  induction cs generalizing n s p with
  | nil => exact absurd rfl hcs
  | cons c cs ih =>
    have hstep : step s (.exec i (oks n)) =
        some ⟨exec (oks n) s.root c, Function.update s.procs i (p.advance c cs)⟩ := by
      simp only [step, hp, htodo]
    rw [execActs, Runs.run, hstep, Option.bind_some]
    by_cases hlast : cs = []
    · subst hlast
      have hadvance : p.advance c [] =
          { p with trapped := p.trapped || decide (Cmd.trap ∈ [c]) }.leave := by
        by_cases hc : c = .trap
        · simp [Proc.advance, Proc.leave, hc]
        · simp [Proc.advance, Proc.leave, hc, Ne.symm hc]
      rw [hadvance]
      rfl
    · have hadvance : p.advance c cs =
          some { p with todo := cs, trapped := p.trapped || c == .trap } :=
        if_neg hlast
      have hleave :
          ({ p with todo := cs, trapped := p.trapped || c == .trap || decide (Cmd.trap ∈ cs) } :
          Proc).leave = { p with trapped := p.trapped || decide (Cmd.trap ∈ c :: cs) }.leave := by
        by_cases hc : c = .trap
        · simp [Proc.leave, hc]
        · simp [Proc.leave, hc, Ne.symm hc]
      rw [hadvance, ih hlast (n + 1) (Function.update_self ..) rfl, Function.update_idem, hleave]
      rfl

theorem execActs_append (i : ℕ) (oks : ℕ → Bool) (n : ℕ) (cs ds : List Cmd) :
    execActs i oks n (cs ++ ds) = execActs i oks n cs ++ execActs i oks (n + cs.length) ds := by
  induction cs generalizing n with
  | nil => rfl
  | cons c cs ih =>
    rw [List.cons_append, execActs, ih, execActs, number_cons c, List.cons_append]

theorem trap_setup (sc : Script) : Cmd.trap ∈ setup sc ∧ Cmd.trap ∉ atexit sc := by
  cases sc with
  | completion q b => cases q <;> cases b <;> decide
  | chronosChroot => decide

theorem run_uninterrupted (i : ℕ) (oks : ℕ → Bool) (sc : Script) {s : System γ}
    (hs : s.procs i = none) :
    Runs.run step s (.start i sc :: execActs i oks 0 (commands sc)) =
      some ⟨execFrom oks 0 (commands sc) s.root, s.procs⟩ := by
  obtain ⟨htrap, hexit⟩ := trap_setup sc
  have hsetup : setup sc ≠ [] := List.ne_nil_of_mem htrap
  have hatexit : atexit sc ≠ [] := by cases sc <;> simp [atexit]
  let begun : System γ := ⟨s.root, Function.update s.procs i (some (.begin sc))⟩
  let exiting : System γ := ⟨execFrom oks 0 (setup sc) s.root,
    Function.update begun.procs i (some ⟨sc, true, false, atexit sc⟩)⟩
  have hstart : step s (.start i sc) = some begun := by
    simp only [step, hs]
    rfl
  have hbegun : begun.procs i = some (.begin sc) := Function.update_self ..
  have hexiting : exiting.procs i = some ⟨sc, true, false, atexit sc⟩ := Function.update_self ..
  -- the body ends with the trap installed, so `atexit` follows
  have hbody : Runs.run step begun (execActs i oks 0 (setup sc)) = some exiting := by
    rw [run_execActs i oks hsetup 0 hbegun rfl]
    simp [Proc.leave, Proc.begin, htrap, begun, exiting]
  have hend : Runs.run step exiting (execActs i oks (0 + (setup sc).length) (atexit sc)) =
      some ⟨execFrom oks (0 + (setup sc).length) (atexit sc) exiting.root, s.procs⟩ := by
    rw [run_execActs i oks hatexit _ hexiting rfl]
    have hprocs : Function.update exiting.procs i none = s.procs := by
      simp only [exiting, begun, Function.update_idem]
      rw [← hs, Function.update_eq_self]
    simp [Proc.leave, hexit, hprocs]
  rw [commands, if_pos htrap, execActs_append, execFrom_append]
  exact (Runs.run_cons step).mpr ⟨begun, hstart, Runs.run_append step hbody hend⟩

theorem editsOther_of_mem (sc : Script) {c : Cmd} (hc : c ∈ commands sc) : EditsOther c := by
  cases c with
  | edit path =>
    have hpaths : ∀ path ∈ ["etc/locale.gen", "etc/default/locale", "etc/init.d/hwsetup.sh"],
        path ∉ truePath :: ownPaths := by decide
    refine hpaths path ?_
    rw [commands, if_pos (trap_setup sc).1] at hc
    cases sc with
    | completion q b => cases q <;> cases b <;> simpa [setup, atexit] using hc
    | chronosChroot => simp [setup, atexit] at hc
  | _ => trivial

/-- What a run leaves of the files and mounts is, as the other runs see it, what the machine of
all runs reaches. -/
theorem run_sysroot (policy qemu : γ) (os : ℕ → Outcome γ) (sc : Script) {h : Host γ}
    (htrue : ∀ i, (os i).files truePath = h.files truePath) (i : ℕ) :
    Runs.run step (idle h.sysroot)
        (.start i sc :: execActs i (fun n => (os n).ok) 0 (commands sc)) =
      some (idle (runFrom policy qemu os 0 (commands sc) h).sysroot) := by
  rw [run_uninterrupted i _ sc rfl, sysroot_runFrom policy qemu os
    (fun c hc => editsOther_of_mem sc hc) 0 htrue]
  rfl

/-- Whatever fails on the way, a run that is not interrupted leaves the sysroot and the mounts
as it found them. -/
theorem restored_of_fresh (policy qemu c : γ) (os : ℕ → Outcome γ) (q b : Bool) (h : Host γ)
    (hfresh : Fresh c h) :
    Restored c h (runFrom policy qemu os 0 (commands (.completion q b)) h) := by
  have hprogram := ischroot_restored policy qemu os q b hfresh.ischroot
  exact ⟨hprogram.1, hprogram.2, policy_removed policy qemu os q b h,
    qemu_removed policy qemu os q b hfresh.qemu, mounts_restored policy qemu os q b hfresh.mounts⟩

def freshHost : Host Bool where
  files p := if p = ischrootPath then some true else if p = truePath then some false else none
  mounts := [.elsewhere "/"]

/-- A run with both optional parts in which every second mount fails. -/
theorem restored_freshHost : Restored true freshHost (runFrom true true
    (fun n => ⟨n % 2 = 0, fun _ => some false⟩) 0 (commands (.completion true true)) freshHost) :=
  restored_of_fresh true true true _ true true freshHost
    ⟨by decide, by decide, by decide, by decide, fun p hp => by cases p <;> simp [freshHost] at hp⟩

end ChronosUpdates.Chroot
