import ChronosUpdates.MountStack
import ChronosUpdates.Shell.Test

namespace ChronosUpdates.Mksd
open Shell MountStack

structure Device where
  disk : Text
  part : Option ℕ
deriving DecidableEq, Repr

def Device.Holds (g d : Device) : Prop := d = g ∨ (g.part = none ∧ d.disk = g.disk)

/-- What a path leads to; a missing file can be created where its directory exists. -/
inductive Node
  | block (d : Device)
  | file
  | directory
  | missing (creatable : Bool)
deriving DecidableEq, Repr

inductive Place
  | device (d : Device)
  | host (path : Text)
deriving DecidableEq, Repr

inductive Effect
  | unmounted (p : Place)
  | wrote (p : Place)
deriving DecidableEq, Repr

/-- The file that a tool opens, among the words of its operands; `none` when it refuses
them. -/
structure Tools where
  dd : List Word → Option Word
  sfdisk : List Word → Option Word
  mkfsVfat : List Word → Option Word
  mkfsExt3 : List Word → Option Word
  mount : List Word → Option Word
  sole : ∀ w, IsPlain w → w.head? ≠ some '-' → dd ["of=".toList ++ w] = some w ∧
    sfdisk [w] = some w ∧ mkfsVfat [w] = some w ∧ mkfsExt3 [w] = some w ∧ mount [w] = some w

/-- A directory of `mktemp -d`, whether a `mount` on it succeeds, and whether `rsync` finds
the tree that it copies there. -/
structure Target where
  dir : Text
  accepts : Bool
  source : Bool

/-- The system around a script: the nodes that it sees until `dd`, at `sfdisk` and behind
`partprobe`; the names that the shell puts for a pattern; the mounted file systems, and the
mount point that `umount` finds for an operand; the answers of `[` about files and of
`lsblk -n -o MOUNTPOINT`; what `echo -e` makes of backslashes. -/
structure System where
  start : Text → Node
  partitioned : Text → Node
  installed : Text → Node
  glob : Glob
  mounts : Table Device Text
  resolve : Word → Option Text
  file : FileTests
  lsblk : List Word → Text
  escapes : Text → Text
  boot : Target
  rootfs : Target

/-- What a command opens for writing; only `dd` creates a missing file. -/
def opened (creates : Bool) (node : Text → Node) : Option Word → Option Place
  | none => none
  | some w =>
    match node w with
    | .block d => some (.device d)
    | .file => some (.host w)
    | .directory => none
    | .missing creatable => if creates && creatable then some (.host w) else none

def wrote (p : Option Place) : List Effect := p.toList.map .wrote

/-- `umount` of some operands, one after the other. -/
def unmount (s : System) (ws : List Word) : List Effect :=
  (takenAll (ws.filterMap s.resolve) s.mounts).map fun m => .unmounted (.device m.device)

/-- `mkfs`, `mount`, `rsync` and `umount`; where nothing is mounted, `rsync` fills the
directory. -/
def install (k : Tools) (s : System) (mkfs : List Word → Option Word) (part : Text)
    (target : Target) : List Effect :=
  let mounted :=
    if target.accepts then opened false s.installed (k.mount (s.glob.expand part)) else none
  wrote (opened false s.installed (mkfs (s.glob.expand part))) ++
    (if target.source then [.wrote (mounted.getD (.host target.dir))] else []) ++
    mounted.toList.map .unmounted

def isEchoOption : Word → Bool
  | '-' :: c :: cs => (c :: cs).all fun c => c ∈ "neE".toList
  | _ => false

def echo (escapes : Text → Text) (ws : List Word) : Text :=
  let options := (ws.takeWhile isEchoOption).flatMap List.tail
  let text := (List.intersperse [' '] (ws.dropWhile isEchoOption)).flatten
  (if (options.filter (· != 'n')).getLast? = some 'e' then escapes text else text) ++
    if 'n' ∈ options then [] else ['\n']

/-- `[ -z $(echo ${BLOCKDEV} | grep '[0-9]$') ]`. -/
def lacksDigit (s : System) (arg : Text) : Bool :=
  holds s.file ("-z".toList ::
    s.glob.expand (substitute (grep (fun l => l.getLast?.any isDigit)
      (echo s.escapes (s.glob.expand arg)))))

def bootPart (s : System) (arg : Text) : Text :=
  arg ++ if lacksDigit s arg then "1".toList else "p1".toList

def rootfsPart (s : System) (arg : Text) : Text :=
  arg ++ if lacksDigit s arg then "2".toList else "p2".toList

/-- The mount points that the loop of `mksd-format.sh` goes through, and unmounts as
`umount $part`. -/
def listed (s : System) (arg : Text) : List Word :=
  (s.glob.expand (substitute (s.lsblk (s.glob.expand arg)))).flatMap s.glob.expand

/-- `mksd-format.sh`. Its check of the argument prints a message and goes on. -/
def format (k : Tools) (s : System) (arg : Text) : List Effect :=
  unmount s (listed s arg) ++
    wrote (opened true s.start (k.dd (s.glob.expand ("of=".toList ++ arg)))) ++
    wrote (opened false s.partitioned (k.sfdisk (s.glob.expand arg))) ++
    install k s k.mkfsVfat (bootPart s arg) s.boot ++
    install k s k.mkfsExt3 (rootfsPart s arg) s.rootfs

/-- `mksd-rootfs.sh`. -/
def rootfs (k : Tools) (s : System) (arg : Text) : List Effect :=
  match s.start arg with
  | .block _ => unmount s (s.glob.expand arg) ++ install k s k.mkfsExt3 arg s.rootfs
  | _ => []

/-- The argument that `mksd-image.sh` passes on, from the output of `losetup -n -j`. -/
def imageArg (s : System) (losetup : Text) : Text :=
  (s.glob.expand (substitute losetup)).head?.getD []

def given (s : System) (arg : Text) : Option Device :=
  match s.start arg with
  | .block g => some g
  | _ => none

end ChronosUpdates.Mksd
