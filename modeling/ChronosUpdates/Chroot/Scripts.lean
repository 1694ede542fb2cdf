import ChronosUpdates.Runs
import Mathlib.Logic.Function.Basic
import Mathlib.Data.List.Infix

namespace ChronosUpdates.Chroot

inductive Point
  | dev
  | sys
  | proc
  | bootUboot
deriving DecidableEq, Repr

/-- The commands of the two scripts, with the paths in the sysroot left out. -/
inductive Cmd
  | mkdir (path : String)
  | writePolicy
  | chmodPolicy
  | moveAside
  | substitute
  | copyQemu
  | bind (p : Point)
  | trap
  | chroot (command : String)
  | edit (path : String)
  | umount (p : Point)
  | rmQemu
  | rmPolicy
  | rmIschroot
  | moveBack
deriving DecidableEq, Repr

/-- A script, with what its environment sets: `QEMU` and `BOOTPART` decide two steps of
the hook. -/
inductive Script
  | completion (qemu bootPart : Bool)
  | chronosChroot
deriving DecidableEq, Repr

def setup : Script → List Cmd
  | .completion qemu bootPart =>
    [.mkdir "boot/uboot", .mkdir "sys", .mkdir "proc", .writePolicy, .chmodPolicy, .moveAside,
      .substitute] ++
    (if qemu then [.copyQemu] else []) ++
    (if bootPart then [.bind .bootUboot] else []) ++
    [.bind .dev, .bind .sys, .bind .proc, .trap,
      .chroot "/var/lib/dpkg/info/dash.preinst install", .chroot "dpkg --configure -a",
      .edit "etc/locale.gen", .edit "etc/default/locale", .chroot "locale-gen",
      .chroot "systemctl enable GUIPACKAGE", .chroot "chpasswd", .edit "etc/init.d/hwsetup.sh",
      .chroot "update-rc.d hwsetup.sh start 10 S stop 90 0 6"]
  | .chronosChroot =>
    [.moveAside, .substitute, .copyQemu, .bind .dev, .trap, .chroot ""]

def atexit : Script → List Cmd
  | .completion qemu bootPart =>
    [.umount .dev, .umount .sys, .umount .proc] ++
    (if bootPart then [.umount .bootUboot] else []) ++
    (if qemu then [.rmQemu] else []) ++
    [.rmPolicy, .rmIschroot, .moveBack]
  | .chronosChroot => [.rmIschroot, .moveBack, .umount .dev]

/-- What the scripts change in a sysroot, with contents in `γ`: the two names of
`ischroot`, the other files they put there, and the mounts on its directories. -/
structure Sysroot (γ : Type*) where
  ischroot : Option γ
  debianutils : Option γ
  trueProgram : Option γ
  policyRcD : Bool
  qemuStatic : Bool
  mounts : List Point

variable {γ : Type*}

/-- The effect of a command; `ok` is whether a `mount` succeeds. `mv` and `cp` of a
missing file fail and change nothing. -/
def exec (ok : Bool) (r : Sysroot γ) : Cmd → Sysroot γ
  | .writePolicy => { r with policyRcD := true }
  | .moveAside =>
    match r.ischroot with
    | some c => { r with ischroot := none, debianutils := some c }
    | none => r
  | .substitute =>
    match r.trueProgram with
    | some c => { r with ischroot := some c }
    | none => r
  | .copyQemu => { r with qemuStatic := true }
  | .bind p => if ok then { r with mounts := p :: r.mounts } else r
  | .umount p => { r with mounts := r.mounts.erase p }
  | .rmQemu => { r with qemuStatic := false }
  | .rmPolicy => { r with policyRcD := false }
  | .rmIschroot => { r with ischroot := none }
  | .moveBack =>
    match r.debianutils with
    | some c => { r with ischroot := some c, debianutils := none }
    | none => r
  | .mkdir _ | .chmodPolicy | .trap | .chroot _ | .edit _ => r

/-- A running script: whether its `atexit` runs, whether the trap is installed, and the
commands to come. -/
structure Proc where
  script : Script
  exiting : Bool
  trapped : Bool
  todo : List Cmd
deriving DecidableEq, Repr

def Proc.begin (sc : Script) : Proc := ⟨sc, false, false, setup sc⟩

/-- The end of the body, or a signal: the trap runs if it was installed. -/
def Proc.leave (p : Proc) : Option Proc :=
  if p.trapped then some { p with exiting := true, trapped := false, todo := atexit p.script }
  else none

def Proc.advance (p : Proc) (c : Cmd) (rest : List Cmd) : Option Proc :=
  let q := { p with todo := rest, trapped := p.trapped || c == .trap }
  if rest = [] then q.leave else some q

structure System (γ : Type*) where
  root : Sysroot γ
  procs : ℕ → Option Proc

/-- A run begins, executes its next command, or is stopped. -/
inductive Act
  | start (i : ℕ) (sc : Script)
  | exec (i : ℕ) (ok : Bool)
  | stop (i : ℕ)
deriving DecidableEq, Repr

def step (s : System γ) : Act → Option (System γ)
  | .start i sc =>
    match s.procs i with
    | none => some { s with procs := Function.update s.procs i (some (.begin sc)) }
    | some _ => none
  | .exec i ok =>
    match s.procs i with
    | some p =>
      match p.todo with
      | c :: rest =>
        some ⟨exec ok s.root c, Function.update s.procs i (p.advance c rest)⟩
      | [] => none
    | none => none
  | .stop i =>
    match s.procs i with
    | some p => some { s with procs := Function.update s.procs i p.leave }
    | none => none

def idle (r : Sysroot γ) : System γ := ⟨r, fun _ => none⟩

/-- What a step does: the run it belongs to, before and after, and the sysroot. -/
theorem step_cases {s t : System γ} {a : Act} (h : step s a = some t) :
    (∃ i sc, a = .start i sc ∧ s.procs i = none ∧
      t = ⟨s.root, Function.update s.procs i (some (.begin sc))⟩) ∨
    (∃ i ok p c rest, a = .exec i ok ∧ s.procs i = some p ∧ p.todo = c :: rest ∧
      t = ⟨exec ok s.root c, Function.update s.procs i (p.advance c rest)⟩) ∨
    (∃ i p, a = .stop i ∧ s.procs i = some p ∧
      t = ⟨s.root, Function.update s.procs i p.leave⟩) := by
  cases a with
  | start i sc =>
    simp only [step] at h
    split at h
    · rename_i hp
      cases h
      exact .inl ⟨i, sc, rfl, hp, rfl⟩
    · cases h
  | exec i ok =>
    simp only [step] at h
    split at h
    · rename_i p hp
      split at h
      · rename_i c rest htodo
        cases h
        exact .inr (.inl ⟨i, ok, p, c, rest, rfl, hp, htodo, rfl⟩)
      · cases h
    · cases h
  | stop i =>
    simp only [step] at h
    split at h
    · rename_i p hp
      cases h
      exact .inr (.inr ⟨i, p, rfl, hp, rfl⟩)
    · cases h

end ChronosUpdates.Chroot
