import ChronosUpdates.Udev.Rules
import Mathlib.Logic.Function.Basic

namespace ChronosUpdates.Udev
open Shell

/-- A name of the kernel for an interface, which is a pattern that matches only itself. -/
def IsName (t : Text) : Prop :=
  (t.all fun c => c.isAlphanum || c == '-' || c == '_') = true ∧ ∀ c ∈ t.head?, isDigit c = false

/-- The variables that udev sets; each of them is one line. -/
structure Request where
  interface : Text
  matchAddr : Text
  matchDrv : Text
  matchDevid : Text
  matchId : Text
  matchIftype : Text
  interfaceName : Text
  comment : Text
  isName : IsName interface
  quote : '"' ∉ interfaceName
  oneLine : ∀ t ∈ [matchAddr, matchDrv, matchDevid, matchId, matchIftype, interfaceName, comment],
    '\n' ∉ t

/-- `, KEY=="value"`, if there is a value. -/
def item (key value : Text) : Text :=
  if value = [] then [] else ", ".toList ++ key ++ "==\"".toList ++ value ++ ['"']

/-- `match` before the name of the kernel is added. -/
def Request.devices (q : Request) : Text :=
  (if q.matchAddr = [] then []
    else ", DRIVERS==\"?*\"".toList ++ item "ATTR\x7baddress\x7d".toList q.matchAddr) ++
    item "DRIVERS".toList q.matchDrv ++ item "ATTR\x7bdev_id\x7d".toList q.matchDevid ++
    item "KERNELS".toList q.matchId ++ item "ATTR\x7btype\x7d".toList q.matchIftype

def Request.base (q : Request) : Text := basename q.interface

def Request.match (q : Request) : Text :=
  q.devices ++ ", KERNEL==\"".toList ++ q.base ++ "*\"".toList

def Request.note (q : Request) : Text :=
  if q.interfaceName = [] then q.comment
  else q.comment ++ " (custom name provided by external tool)".toList

def header : Rules :=
  ["# This file was automatically generated by the /lib/udev/write_net_rules".toList,
    "# program, run by the persistent-net-generator.rules rules file.".toList, "#".toList,
    "# You can modify it, as long as you keep each rule on a single".toList,
    "# line, and change only the value of the NAME= key.".toList]

def ruleFront : Text := "SUBSYSTEM==\"net\", ACTION==\"add\"".toList

def Request.rule (q : Request) (name : Text) : Text :=
  ruleFront ++ q.match ++ [',', ' '] ++ nameKey ++ ['"'] ++ name ++ ['"']

def Request.lines (q : Request) (printHeader : Bool) (name : Text) : Rules :=
  (if printHeader then header else []) ++ [[]] ++
    (if q.note = [] then [] else ["# ".toList ++ q.note]) ++ [q.rule name]

/-- The file that `RULES_FILE` names in the end. -/
inductive File
  | rules
  | tmp
deriving DecidableEq

inductive Pc
  | lock (retry : ℕ)
  | header
  | probe
  | unprobe
  | name
  | taken
  | number
  | write (rest : Rules)
  | unlock
deriving DecidableEq

structure Proc where
  request : Request
  named : request.interface ≠ []
  pc : Pc
  locked : Bool
  printHeader : Bool
  file : File
  renamed : Option Text

/-- The directories of the two files, with the lock and with `.is-writeable`. -/
structure Disk where
  udev : Bool
  locked : Bool
  probe : Bool
  writeable : Bool
  rules : Option Rules
  tmp : Option Rules

def Proc.begin (q : Request) (h : q.interface ≠ []) : Proc :=
  ⟨q, h, .lock 30, false, false, .rules, none⟩

def Proc.goto (p : Proc) (pc : Pc) : Option Proc := some { p with pc := pc }

/-- `write_rule`, with `INTERFACE_NEW` printed before where there is one. -/
def Proc.startRule (p : Proc) (renamed : Option Text) : Option Proc :=
  some { p with
    renamed := renamed
    pc := .write (p.request.lines p.printHeader (renamed.getD p.request.interface)) }

/-- `RO_RULES_FILE` is read too, which is `/dev/null` if the rules file can be written. -/
def Disk.read (d : Disk) : File → Rules
  | .rules => d.rules.getD []
  | .tmp => d.rules.getD [] ++ d.tmp.getD []

/-- `>>` adds a line, and makes the file if need be. -/
def Disk.append (d : Disk) (l : Text) : File → Option Disk
  | .rules =>
    if d.writeable then some { d with rules := some (d.rules.getD [] ++ [l]) } else none
  | .tmp => if d.udev then some { d with tmp := some (d.tmp.getD [] ++ [l]) } else none

/-- The next command of a script; it is gone when it ends. -/
def Proc.advance (d : Disk) (p : Proc) : Disk × Option Proc :=
  match p.pc with
  | .lock retry =>
    -- without `/dev/.udev` the script goes on, and has no lock
    if !d.udev then (d, p.goto .header)
    else if !d.locked then
      ({ d with locked := true }, some { p with pc := .header, locked := true })
    else match retry with
      | 0 => (d, none)
      | n + 1 => (d, p.goto (.lock n))
  | .header =>
    (d, some { p with pc := .probe, printHeader := d.rules.isNone && d.tmp.isNone })
  | .probe =>
    -- a link that a killed script has left counts as a directory that cannot be written
    if d.writeable && !d.probe then ({ d with probe := true }, p.goto .unprobe)
    else (d, some { p with pc := .name, file := .tmp })
  | .unprobe =>
    -- if `rm -f` fails now, nobody looks
    ({ d with probe := d.probe && !d.writeable }, some { p with pc := .name, file := .rules })
  | .name =>
    -- a custom name is not compared with the others
    if p.request.devices = [] then (d, p.goto .unlock)
    else if p.request.interfaceName = [] then (d, p.goto .taken)
    else if p.request.interfaceName = p.request.interface then (d, p.startRule none)
    else (d, p.startRule (some p.request.interfaceName))
  | .taken =>
    if findAllRules nameKey (· == p.request.interface) (d.read p.file) = [] then
      (d, p.startRule none)
    else (d, p.goto .number)
  | .number =>
    match rawFindNextAvailable
        (findAllRules nameKey (numbered p.request.base) (d.read p.file)) with
    | some num => (d, p.startRule (some (p.request.base ++ num)))
    | none => (d, none)
  | .write [] => (d, p.goto .unlock)
  | .write (l :: rest) =>
    match d.append l p.file with
    | some d' => (d', p.goto (.write rest))
    | none => (d, none)
  | .unlock => ({ d with locked := d.locked && !p.locked }, none)

structure System (ρ : Type*) where
  disk : Disk
  procs : ρ → Option Proc

/-- A script is started, does its next command or is killed; `/etc` is mounted in another way; or
the camera is started again, without what was in `/dev`. -/
inductive Event (ρ : Type*)
  | start (r : ρ) (q : Request)
  | next (r : ρ)
  | kill (r : ρ)
  | remount (writeable : Bool)
  | reboot (writeable : Bool)

variable {ρ : Type*}

def next [DecidableEq ρ] (s : System ρ) : Event ρ → Option (System ρ)
  | .start r q =>
    if h : (s.procs r).isNone ∧ q.interface ≠ [] then
      some { s with procs := Function.update s.procs r (some (Proc.begin q h.2)) }
    else none
  | .next r =>
    match s.procs r with
    | some p =>
      let after := p.advance s.disk
      some ⟨after.1, Function.update s.procs r after.2⟩
    | none => none
  | .kill r => some { s with procs := Function.update s.procs r none }
  | .remount writeable => some { s with disk := { s.disk with writeable := writeable } }
  | .reboot writeable =>
    some ⟨{ s.disk with locked := false, tmp := none, writeable := writeable }, fun _ => none⟩

end ChronosUpdates.Udev
