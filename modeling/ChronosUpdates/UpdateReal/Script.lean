import ChronosUpdates.Md5sum
import ChronosUpdates.Pmic

namespace ChronosUpdates.UpdateReal
open Shell Md5sum

abbrev Bytes := List UInt8

abbrev Path := List Text

/-- The directories of `rootfs/`, which are the members of `update.tgz`. -/
def rootfsDirs : List Text := ["boot", "etc", "lib", "opt", "usr"].map String.toList

structure Archive where
  members : List (Path × Bytes)
  below_rootfs : ∀ m ∈ members, ∃ d ∈ rootfsDirs, m.1.head? = some d

inductive Act
  | killall (signal : Option ℕ) (name : String)
  | md5sum
  | show (file : Text)
  | ps
  | rmBoot
  | tar
  | rmTiLogo
  | cpBoot
  | updateRcD (args : List String)
  | pmic (a : Pmic.Act)
  | reboot
deriving DecidableEq, Repr

/-- What the script finds: where the update partition is mounted; the manifest, if there is
one; the files of the update partition; the listings of `ps`, one for each turn of the loop
that waits; and what `pcUtil -v` prints. -/
structure Env (δ : Type*) where
  updatePartition : Text
  manifest : Option (List (Entry δ))
  disk : Text → FileState Bytes
  ps : List Text
  pcUtil : Text

def busyRaw : Text := "camUpdate/busy.raw".toList

def checksumRaw : Text := "camUpdate/checksum.raw".toList

def updateTgz : Text := "camUpdate/update.tgz".toList

/-- `[ -f file ]`. -/
def isFile {γ : Type*} : FileState γ → Bool
  | .missing => false
  | .readable _ | .unreadable => true

variable {δ : Type*}

section
variable [DecidableEq δ] (md5 : Bytes → δ)

def badsums (env : Env δ) (es : List (Entry δ)) : Text :=
  substitute (grep (endsWith "FAILED".toList) (report md5 env.disk es))

def validates (env : Env δ) : Bool :=
  match env.manifest with
  | some es => badsums md5 env es == []
  | none => true

end

/-- The loop that waits for the end of `camApp`, and kills it when `TIMEOUT` is over: whether
it ends. -/
def waitLoop (timeout : ℕ) : List Text → List Act × Bool
  | [] => ([], false)
  | t :: ts =>
    if substitute (grep (contains "camApp".toList) t) = [] then ([.ps], true)
    else if 0 < timeout then (.ps :: (waitLoop (timeout - 1) ts).1, (waitLoop (timeout - 1) ts).2)
    else (.ps :: .killall (some 9) "camApp" :: (waitLoop 0 ts).1, (waitLoop 0 ts).2)

def waitForCamApp (env : Env δ) : List Act × Bool :=
  if isFile (env.disk busyRaw) then
    ((waitLoop 100 env.ps).1 ++ if (waitLoop 100 env.ps).2 then [.show busyRaw] else [],
      (waitLoop 100 env.ps).2)
  else ([], true)

def fixLinks : List Act :=
  [["-f", "telnetd", "remove"], ["-f", "thttpd", "remove"], ["-f", "banner", "remove"],
    ["-f", "psplash", "remove"], ["-f", "shutdown_splash.sh", "remove"],
    ["-f", "matrix-gui-e", "remove"], ["-f", "gplv3-notice", "remove"],
    ["-f", "udev", "remove"], ["udev", "start", "3", "S", "."],
    ["-f", "load-hd-firmware.sh", "remove"], ["load-hd-firmware.sh", "start", "40", "S", "."],
    ["-f", "vidorder", "remove"], ["vidorder", "start", "41", "S", "."],
    ["-f", "camera", "remove"], ["camera", "start", "42", "S", ".", "stop", "0", "0", "6", "."],
    ["-f", "networking", "remove"], ["networking", "start", "60", "S", "."],
    ["-f", "mountnfs.sh", "remove"], ["mountnfs.sh", "start", "65", "S", "."],
    ["-f", "bootmisc.sh", "remove"], ["bootmisc.sh", "start", "70", "S", "."],
    ["-f", "alsa-state", "remove"], ["alsa-state", "start", "80", "S", "."],
    ["udhcpcd", "defaults"]].map .updateRcD

/-- `PMICHEXFILE`. -/
def pmicHexFile (env : Env δ) : Text := env.updatePartition ++ '/' :: Pmic.hexName

/-- From the deletion of `/boot` to the end. -/
def install (env : Env δ) : List Act :=
  [.rmBoot] ++ (if isFile (env.disk busyRaw) then [.show busyRaw] else []) ++
    [.tar, .rmTiLogo, .cpBoot] ++ fixLinks ++
    (Pmic.updateFirmware (pmicHexFile env) (isFile (env.disk Pmic.hexName)) env.pcUtil []).map
      .pmic ++
    [.reboot]

def updateReal [DecidableEq δ] (md5 : Bytes → δ) (env : Env δ) : List Act :=
  .killall none "camApp" :: (if env.manifest.isSome then [.md5sum] else []) ++
    if validates md5 env then
      (waitForCamApp env).1 ++ if (waitForCamApp env).2 then install env else []
    else [.show checksumRaw, .reboot]

inductive Node
  | absent
  | dir
  | file (c : Bytes)
deriving DecidableEq, Repr

abbrev Tree := Path → Node

def boot : Text := "boot".toList

/-- The boot partition `/media/mmcblk0p1`. -/
def partition : Path := ["media".toList, "mmcblk0p1".toList]

def tiLogo : Text := "ti_logo.bmp".toList

def visible (n : Text) : Bool := n.head? != some '.'

def members (untar : Bytes → Archive) : FileState Bytes → List (Path × Bytes)
  | .readable c => (untar c).members
  | .missing | .unreadable => []

/-- How the root file system fares: it is read-only, or `tar` stops behind its first `k`
members and leaves nothing of the next one, or its first bytes. -/
inductive Fault
  | readOnly
  | stops (k : ℕ) (left : Option ℕ)
deriving DecidableEq, Repr

def put (t : Tree) (p : Path) (n : Node) : Tree := Function.update t p n

def putMember (t : Tree) (m : Path × Bytes) : Tree := put t m.1 (.file m.2)

def remnant (c : Bytes) : Option ℕ → Node
  | some n => .file (c.take n)
  | none => .absent

/-- `tar zxvf`. -/
def extract (ms : List (Path × Bytes)) (t : Tree) : Fault → Tree
  | .readOnly => t
  | .stops k left =>
    let t' := (ms.take k).foldl putMember t
    match ms[k]? with
    | some m => put t' m.1 (remnant m.2 left)
    | none => t'

/-- `rm -rf /boot/*`. -/
def removeBoot (t : Tree) : Fault → Tree
  | .readOnly => t
  | .stops _ _ => fun p =>
    match p with
    | d :: n :: _ => if d = boot ∧ visible n then .absent else t p
    | _ => t p

/-- `rm` without `-r` does not remove a directory. -/
def rmFile (t : Tree) (p : Path) : Tree := if t p = .dir then t else put t p .absent

/-- `cp` of one entry: a directory is not copied, and a file does not replace one. -/
def cpEntry (src dst : Node) : Node :=
  match dst, src with
  | .dir, _ => .dir
  | _, .file c => .file c
  | _, _ => dst

/-- `cp /boot/* /media/mmcblk0p1/`. -/
def copyBoot (t : Tree) : Tree := fun p =>
  match p with
  | [a, b, n] =>
    if [a, b] = partition ∧ visible n then cpEntry (t [boot, n]) (t p) else t p
  | _ => t p

/-- The effect of a command on the files; the links of the init scripts are apart. -/
def effect (ms : List (Path × Bytes)) (fault : Fault) (t : Tree) : Act → Tree
  | .rmBoot => removeBoot t fault
  | .tar => extract ms t fault
  | .rmTiLogo => rmFile t (partition ++ [tiLogo])
  | .cpBoot => copyBoot t
  | _ => t

def effects (ms : List (Path × Bytes)) (fault : Fault) (t : Tree) (acts : List Act) : Tree :=
  acts.foldl (effect ms fault) t

end ChronosUpdates.UpdateReal
