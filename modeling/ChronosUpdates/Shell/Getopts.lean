import ChronosUpdates.Shell.Text

namespace ChronosUpdates.Shell

/-- The letters of an option string, and whether each takes a value. -/
abbrev OptSpec := Char → Option Bool

/-- What one turn of the loop reports; `bad` is `?`, an unknown letter. -/
inductive Opt
  | flag (c : Char)
  | value (c : Char) (v : Word)
  | bad (c : Char)
deriving DecidableEq, Repr

/-- How the words end: all read, cut off at a word that is no option (or after `--`),
or at an option whose value is missing. -/
inductive Ending
  | done
  | operands (ws : List Word)
  | wants (c : Char)
deriving DecidableEq, Repr

/-- The letters of one cluster, and the letter that takes its value from the next word. -/
def cluster (spec : OptSpec) : List Char → List Opt × Option Char
  | [] => ([], none)
  | c :: cs =>
    match spec c with
    | none => (.bad c :: (cluster spec cs).1, (cluster spec cs).2)
    | some false => (.flag c :: (cluster spec cs).1, (cluster spec cs).2)
    | some true => if cs = [] then ([], some c) else ([.value c cs], none)

def scan (spec : OptSpec) : List Word → List Opt × Ending
  | [] => ([], .done)
  | w :: ws =>
    match w with
    | '-' :: c :: cs =>
      if c = '-' ∧ cs = [] then ([], .operands ws)
      else match cluster spec (c :: cs), ws with
        | (os, none), ws => (os ++ (scan spec ws).1, (scan spec ws).2)
        | (os, some a), [] => (os, .wants a)
        | (os, some a), v :: ws' => (os ++ .value a v :: (scan spec ws').1, (scan spec ws').2)
    | _ => ([], .operands (w :: ws))

/-- Everything the loop reports; a missing value is reported as `?` too. -/
def getopts (spec : OptSpec) (ws : List Word) : List Opt :=
  match scan spec ws with
  | (os, .wants a) => os ++ [.bad a]
  | (os, _) => os

section
variable {spec : OptSpec} {c a : Char} {cs : List Char} {os : List Opt}

end

end ChronosUpdates.Shell
