import ChronosUpdates.Pmic
import ChronosUpdates.MountStack

namespace ChronosUpdates.UpdateBackend
open Shell

inductive Msg
  | programRunFromTopSD
  | topSDMissing
  | topSDTooSmall
  | topSDGood
  | topSDVettedBrand
  | topSDUnknownBrand
  | usbCheckStart
  | usbCheckDone
  | writeDone
deriving DecidableEq, Repr

/-- What the script does, in the order in which it does it: its messages, what it logs on
standard error, and the commands it runs. -/
inductive Act
  | echo (m : Msg)
  | log (l : Text)
  | md5sum
  | report (l : Text)
  | umount (names : List Text)
  | pmic (a : Pmic.Act)
  | dd
  | killallDd
  | shutdown
deriving DecidableEq, Repr

/-- What `read -r -t 1 LINE` meets. A timeout leaves `LINE` alone or empties it. -/
inductive Event
  | line (t : Text)
  | timeout (empties : Bool)
  | eof
deriving DecidableEq, Repr

/-- One `read`, and what the commands after it would find: the listing of `/dev`, the
output of `sfdisk -s`, the brand of the card, the names in the working directory, and the
report of `md5sum -c`. -/
structure Poll where
  event : Event
  lsDev : Text
  sfdisk : Text
  oemid : Text
  names : Glob
  md5 : List Text

/-- What the script finds besides: its working directory, the directory `/media`, the hex
file and the output of `pcUtil -v`, and what each `killall -USR1 dd` prints. -/
structure Env where
  pwd : Text
  media : List Word
  media_nodup : media.Nodup
  hexFile : Bool
  pcUtil : Text
  killall : List Text

/-- `LINE` after a `read`. -/
def readLine (line : Text) : Event → Text
  | .line t => stripBlanks t
  | .timeout true => []
  | .timeout false => line
  | .eof => []

/-- `[ words ]` where no test of a file occurs. -/
def check (ws : List Word) : Bool := holds noFiles ws

/-- `$(pwd | grep mmcblk1) != ''`. -/
def runsFromTopSD (pwd : Text) : Bool :=
  check (splitWords (substitute (grep (contains "mmcblk1".toList) (pwd ++ ['\n']))) ++
    ["!=".toList, []])

/-- The answer to `Syscheck` about the card. -/
def sysCheck (p : Poll) : List Msg :=
  if substitute (grep (contains "mmcblk1".toList) p.lsDev) = [] then [.topSDMissing]
  else
    [if check (p.names.expand (substitute p.sfdisk) ++ ["-lt".toList, "3730000".toList])
      then .topSDTooSmall else .topSDGood,
    if check (p.names.expand (substitute p.oemid) ++ ["==".toList, "0x5344".toList])
      then .topSDVettedBrand else .topSDUnknownBrand]

def usbCheck (report : List Text) : List Act :=
  [.echo .usbCheckStart, .md5sum] ++ report.map .report ++ [.echo .usbCheckDone]

def syscheckLine : Text := "Syscheck".toList

def startLine : Text := "Start".toList

def powerDownLine : Text := "PowerDown".toList

/-- One turn of the command loop behind the `read`. -/
def answer (line : Text) (usbChecked : Bool) (p : Poll) : List Act :=
  .log line ::
    if line = syscheckLine then
      (sysCheck p).map .echo ++ if usbChecked then [] else usbCheck p.md5
    else []

/-- The command loop: what it does, and the rest of the input behind `Start`. -/
def commandLoop (line : Text) (usbChecked : Bool) : List Poll → List Act × Option (List Poll)
  | [] => ([], none)
  | p :: ps =>
    let line' := readLine line p.event
    let acts := answer line' usbChecked p
    if line' = startLine then (acts, some ps)
    else
      let r := commandLoop line' (usbChecked || line' = syscheckLine) ps
      (acts ++ r.1, r.2)

/-- The mount points that `umount /media/mmcblk1*` names. -/
def cardNames (media : List Word) : List Text :=
  let found := media.filter ("mmcblk1".toList.isPrefixOf ·)
  if found = [] then ["/media/mmcblk1*".toList] else found.map ("/media/".toList ++ ·)

/-- From the `umount` to the start of the write in the background. -/
def startWrite (env : Env) : List Act :=
  [.umount (cardNames env.media)] ++
    (Pmic.updateFirmware Pmic.hexName env.hexFile env.pcUtil [.pcUtil 'q']).map .pmic ++ [.dd]

/-- The loop that waits for `dd`: whether it ends. -/
def monitor : List Text → List Act × Bool
  | [] => ([], false)
  | r :: rs =>
    if substitute r = [] then (.killallDd :: (monitor rs).1, (monitor rs).2)
    else ([.killallDd], true)

/-- The last loop: whether it ends. -/
def powerDownLoop (line : Text) : List Poll → List Act × Bool
  | [] => ([], line = powerDownLine)
  | p :: ps =>
    if line = powerDownLine then ([], true)
    else
      let line' := readLine line p.event
      (.log line' :: (powerDownLoop line' ps).1, (powerDownLoop line' ps).2)

/-- The script behind the command loop, which it leaves with `Start` in `LINE`. -/
def write (env : Env) (rest : List Poll) : List Act :=
  startWrite env ++ (monitor env.killall).1 ++
    if (monitor env.killall).2 then
      [.echo .writeDone] ++ (powerDownLoop startLine rest).1 ++
        if (powerDownLoop startLine rest).2 then
          [.log "update_backend.sh completed!".toList, .shutdown]
        else []
    else []

def announce (env : Env) : List Act :=
  if runsFromTopSD env.pwd then [.echo .programRunFromTopSD] else []

def afterLoop (env : Env) : Option (List Poll) → List Act
  | some rest => write env rest
  | none => []

/-- What the script does on an input, as far as the input goes. -/
def trace (env : Env) (polls : List Poll) : List Act :=
  announce env ++ (commandLoop [] false polls).1 ++ afterLoop env (commandLoop [] false polls).2

end ChronosUpdates.UpdateBackend
