import ChronosUpdates.Shell.Getopts

namespace ChronosUpdates.Debootstrap
open Shell

/-- The option string `h?s:d:b:g`. -/
def optSpec : OptSpec := fun c =>
  if c = 's' ∨ c = 'd' ∨ c = 'b' then some true
  else if c = 'h' ∨ c = '?' ∨ c = 'g' then some false
  else none

structure Settings where
  sysroot : Word
  suite : Word
  guiPackage : Word
  bootPart : Word
deriving DecidableEq, Repr

def defaults (pwd : Word) : Settings where
  sysroot := pwd ++ "/debian".toList
  suite := "voyager".toList
  guiPackage := "chronos-gui".toList
  bootPart := []

/-- The branch `h|\?` of the loop, which prints the help and exits with 0. -/
def asksHelp : Opt → Bool
  | .flag c => c == 'h' || c == '?'
  | .bad _ => true
  | .value _ _ => false

def applyOpt (s : Settings) : Opt → Settings
  | .flag 'g' => { s with guiPackage := "chronos-gui2".toList }
  | .value 'd' v => { s with sysroot := v }
  | .value 'b' v => { s with bootPart := v }
  | .value 's' v => { s with suite := v }
  | _ => s

/-- The settings after the option loop, or `none` where it exits with the help text. -/
def readOptions (pwd : Word) (args : List Word) : Option Settings :=
  if (getopts optSpec args).any asksHelp then none
  else some ((getopts optSpec args).foldl applyOpt (defaults pwd))

/-- The machine that the script runs on: its directory `dir`, the names there, the words that
`cd` goes on with (it has been in `dir` before, to print its path), the exit status of
`multistrap` and of any other command that `sudo` is given. -/
structure Host where
  pwd : Word
  dir : Word
  scripts : Glob
  isRoot : Bool
  hasMultistrap : Bool
  hasQemu : Bool
  isArm : Bool
  enters : List Word → Bool
  multistrapStatus : ℕ
  sudoStatus : List Word → ℕ
  enters_dir : enters [dir] = true

/-- One run of `multistrap`: the variables set for it and its arguments. -/
structure Call where
  env : List Word
  args : List Word
deriving DecidableEq, Repr

def valueAfter (opt : Word) : List Word → Option Word
  | a :: v :: ws => if a = opt then some v else valueAfter opt (v :: ws)
  | _ => none

def Call.target (c : Call) : Option Word := valueAfter "-d".toList c.args

/-- The value of an environment variable of the run, the last assignment counting. -/
def Call.variable (c : Call) (name : Word) : Option Word :=
  (c.env.reverse.find? fun w => (name ++ ['=']).isPrefixOf w).map
    fun w => w.drop (name.length + 1)

def commandLine (h : Host) (s : Settings) : List Word :=
  (if h.isRoot then [] else ["sudo".toList]) ++
    h.scripts.expand ("SUITE=".toList ++ s.suite) ++
    h.scripts.expand ("GUIPACKAGE=".toList ++ s.guiPackage) ++
    h.scripts.expand ("BOOTPART=".toList ++ s.bootPart) ++
    ["multistrap".toList, "-a".toList, "armel".toList, "-d".toList] ++
    h.scripts.expand s.sysroot ++ ["-f".toList] ++
    h.scripts.expand (h.dir ++ "/chronos-".toList ++ s.suite ++ ".conf".toList)

def isAssignment (w : Word) : Bool := w.contains '='

/-- The run of `multistrap` that a command line makes. `sudo` takes the assignments in
front of the command for itself; the shell on its own looks for a command named
`SUITE=...` and finds none. -/
def execute : List Word → Option Call
  | [] => none
  | w :: ws =>
    if w = "sudo".toList then
      match ws.dropWhile isAssignment with
      | [] => none
      | command :: args =>
        if command = "multistrap".toList then some ⟨ws.takeWhile isAssignment, args⟩ else none
    else none

def outcome (h : Host) (line : List Word) : ℕ × Option Call :=
  match execute line with
  | some call => (h.multistrapStatus, some call)
  | none => (if line.head? = some "sudo".toList then h.sudoStatus line.tail else 127, none)

/-- The exit status of the script, and the run of `multistrap` it made. -/
def debootstrap (h : Host) (args : List Word) : ℕ × Option Call :=
  match readOptions h.pwd args with
  | none => (0, none)
  | some s =>
    if !h.hasMultistrap then (1, none)
    else if !h.hasQemu && !h.isArm then (1, none)
    else if !h.enters (h.scripts.expand h.dir) then (1, none)
    else outcome h (commandLine h s)

/-- Settings whose values an unquoted expansion leaves whole. -/
def Settings.BlankFree (s : Settings) : Prop :=
  ∀ c ∈ s.suite ++ s.guiPackage ++ s.bootPart, isBlank c = false

def assignments (h : Host) (s : Settings) : List Word :=
  h.scripts.names ("SUITE=".toList ++ s.suite) ++
    h.scripts.names ("GUIPACKAGE=".toList ++ s.guiPackage) ++
    h.scripts.names ("BOOTPART=".toList ++ s.bootPart)

def multistrapArgs (h : Host) (s : Settings) : List Word :=
  ["-a".toList, "armel".toList, "-d".toList] ++ h.scripts.expand s.sysroot ++ ["-f".toList] ++
    h.scripts.expand (h.dir ++ "/chronos-".toList ++ s.suite ++ ".conf".toList)

theorem commandLine_blankFree (h : Host) (s : Settings) (hs : s.BlankFree) :
    commandLine h s = (if h.isRoot then [] else ["sudo".toList]) ++
      (assignments h s ++ "multistrap".toList :: multistrapArgs h s) := by
  have hsetting : ∀ p v : Word, IsPlain p → (∀ c ∈ v, isBlank c = false) →
      h.scripts.expand (p ++ v) = h.scripts.names (p ++ v) :=
    fun p v hp hv => h.scripts.expand_plain (hp.append hv)
  rw [commandLine, hsetting "SUITE=".toList s.suite (by decide) fun c hc => hs c (by simp [hc]),
    hsetting "GUIPACKAGE=".toList s.guiPackage (by decide) fun c hc => hs c (by simp [hc]),
    hsetting "BOOTPART=".toList s.bootPart (by decide) fun c hc => hs c (by simp [hc])]
  simp only [assignments, multistrapArgs, List.append_assoc, List.cons_append, List.nil_append]

theorem isAssignment_of_prefix {p w : Word} (hp : isAssignment p = true) (h : p <+: w) :
    isAssignment w = true := by
  simp only [isAssignment, List.contains_eq_mem, decide_eq_true_eq] at hp ⊢
  exact h.subset hp

theorem isAssignment_assignments (h : Host) (s : Settings) :
    ∀ w ∈ assignments h s, isAssignment w = true := by
  have hnames : ∀ p v w : Word, IsLiteral p → isAssignment p = true →
      w ∈ h.scripts.names (p ++ v) → isAssignment w = true :=
    fun p v w hl hp hw => isAssignment_of_prefix hp (h.scripts.starts p v hl w hw)
  intro w hw
  simp only [assignments, List.mem_append] at hw
  rcases hw with (hw | hw) | hw
  · exact hnames _ _ w (isLiteral_of_all rfl) (by decide) hw
  · exact hnames _ _ w (isLiteral_of_all rfl) (by decide) hw
  · exact hnames _ _ w (isLiteral_of_all rfl) (by decide) hw

/-- Run by root, the assignments are taken for a command that does not exist. -/
theorem outcome_root (h : Host) (s : Settings) (hs : s.BlankFree) (hr : h.isRoot = true) :
    outcome h (commandLine h s) = (127, none) := by
  have hne : assignments h s ≠ [] := by simp [assignments, h.scripts.ne_nil]
  obtain ⟨w, ws, hw⟩ := List.exists_cons_of_ne_nil hne
  have hassign := isAssignment_assignments h s w (hw ▸ List.mem_cons_self)
  have hsudo : w ≠ "sudo".toList := by
    rintro rfl
    exact absurd hassign (by decide)
  have hexec : execute (w :: (ws ++ "multistrap".toList :: multistrapArgs h s)) = none :=
    if_neg hsudo
  rw [commandLine_blankFree h s hs, hr, hw]
  simp only [if_true, List.nil_append, List.cons_append, outcome, hexec, List.head?_cons,
    Option.some.injEq, if_neg hsudo]

theorem outcome_sudo (h : Host) (s : Settings) (hs : s.BlankFree) (hr : h.isRoot = false) :
    outcome h (commandLine h s) =
      (h.multistrapStatus, some ⟨assignments h s, multistrapArgs h s⟩) := by
  rw [commandLine_blankFree h s hs, hr]
  have hm : ¬ isAssignment "multistrap".toList = true := by decide
  have hassign := isAssignment_assignments h s
  have hexec : execute ("sudo".toList :: (assignments h s ++
      "multistrap".toList :: multistrapArgs h s)) =
        some ⟨assignments h s, multistrapArgs h s⟩ := by
    simp only [execute, if_true]
    rw [List.dropWhile_append_of_pos hassign, List.takeWhile_append_of_pos hassign,
      List.dropWhile_cons_of_neg hm, List.takeWhile_cons_of_neg hm, List.append_nil]
    exact if_pos rfl
  simp only [Bool.false_eq_true, if_false, List.singleton_append, outcome, hexec]

def Starts (h : Host) : Prop :=
  h.hasMultistrap = true ∧ (h.hasQemu = true ∨ h.isArm = true) ∧
    h.enters (h.scripts.expand h.dir) = true

instance decidableStarts (h : Host) : Decidable (Starts h) :=
  inferInstanceAs (Decidable (_ ∧ _ ∧ _))

theorem debootstrap_blankFree (h : Host) (args : List Word) (s : Settings)
    (ho : readOptions h.pwd args = some s) (hs : s.BlankFree) :
    debootstrap h args =
      if Starts h then
        if h.isRoot then (127, none)
        else (h.multistrapStatus, some ⟨assignments h s, multistrapArgs h s⟩)
      else (1, none) := by
  have hline : outcome h (commandLine h s) = if h.isRoot then (127, none)
      else (h.multistrapStatus, some ⟨assignments h s, multistrapArgs h s⟩) := by
    cases hr : h.isRoot
    · exact outcome_sudo h s hs hr
    · exact outcome_root h s hs hr
  unfold debootstrap
  rw [ho]
  dsimp only
  rw [hline]
  by_cases hstarts : Starts h
  · obtain ⟨hm, hq, he⟩ := id hstarts
    rw [if_pos hstarts]
    rcases hq with hq | hq <;> simp [hm, hq, he]
  · rw [if_neg hstarts]
    by_cases hm : h.hasMultistrap = true
    · by_cases hq : h.hasQemu = true ∨ h.isArm = true
      · have he : h.enters (h.scripts.expand h.dir) = false := by
          simpa [Starts, hm, hq] using hstarts
        simp [he]
      · simp only [not_or, Bool.not_eq_true] at hq
        simp [hq]
    · simp [hm]

theorem blankFree_applyOpt {s : Settings} (hs : s.BlankFree) {o : Opt}
    (ho : ∀ c v, o = .value c v → ∀ d ∈ v, isBlank d = false) : (applyOpt s o).BlankFree := by
  unfold Settings.BlankFree at *
  simp only [List.mem_append] at *
  unfold applyOpt
  split
  · have hgui : ∀ d ∈ "chronos-gui2".toList, isBlank d = false := noBlank_of_all rfl
    rintro d ((hd | hd) | hd)
    · exact hs d (.inl (.inl hd))
    · exact hgui d hd
    · exact hs d (.inr hd)
  · exact hs
  · rintro d (hd | hd)
    · exact hs d (.inl hd)
    · exact ho _ _ rfl d hd
  · rintro d ((hd | hd) | hd)
    · exact ho _ _ rfl d hd
    · exact hs d (.inl (.inr hd))
    · exact hs d (.inr hd)
  · exact hs

theorem blankFree_foldl {s : Settings} (hs : s.BlankFree) {os : List Opt}
    (hos : ∀ c v, .value c v ∈ os → ∀ d ∈ v, isBlank d = false) :
    (os.foldl applyOpt s).BlankFree := by
  induction os generalizing s with
  | nil => exact hs
  | cons o os ih =>
    have hso : (applyOpt s o).BlankFree :=
      blankFree_applyOpt hs fun c v h => hos c v (h ▸ List.mem_cons_self)
    exact ih hso fun c v h => hos c v (List.mem_cons_of_mem _ h)

theorem blankFree_defaults (pwd : Word) : (defaults pwd).BlankFree := noBlank_of_all rfl

end ChronosUpdates.Debootstrap
