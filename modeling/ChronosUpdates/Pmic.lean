import ChronosUpdates.Shell.Test
import Mathlib.Data.List.TakeWhile

namespace ChronosUpdates.Pmic
open Shell

/-- `sed -e 's/.*://'` on a line. -/
def cutLabel (l : Text) : Text := l.rtakeWhile (· != ':')

/-- The characters of the class `[:space:]`. -/
def isSpace (c : Char) : Bool := isBlank c || c == '\r' || c == '\x0b' || c == '\x0c'

/-- `PMICFWVERSION`, from the output of `pcUtil -v`. -/
def fwVersion (v : Text) : Text :=
  substitute ((unlines ((lines v).map cutLabel)).filter fun c => !isSpace c)

def hexVersion : Text := "7".toList

def hexName : Text := "camUpdate/Chronos1_4PowerController.X.production.hex".toList

inductive Act
  | echo (t : Text)
  | killall (name : String)
  | pcUtil (option : Char)
deriving DecidableEq, Repr

/-- `[ "$PMICFWVERSION" -lt "$PMICHEXVERSION" ]`. -/
def outdated (v : Text) : Bool :=
  holds noFiles [fwVersion v, "-lt".toList, hexVersion]

/-- The block of both scripts; `after` is what `update_backend.sh` does in addition. -/
def updateFirmware (hexFile : Text) (present : Bool) (v : Text) (after : List Act) : List Act :=
  if present then
    [.echo (hexFile ++ " exists, checking for firmware update".toList),
      .echo "Stopping power management daemon".toList, .killall "camshutdown", .killall "pcUtil",
      .pcUtil 'v'] ++
    if outdated v then [.echo "Updating PMIC Firmware".toList, .pcUtil 'u'] ++ after
    else [.echo ("Found PMIC version ".toList ++ fwVersion v ++
      " Skipping PMIC firmware update".toList)]
  else []

end ChronosUpdates.Pmic
