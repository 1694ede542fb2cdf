import ChronosUpdates.Shell.Text

namespace ChronosUpdates.Md5sum
open Shell

structure Entry (δ : Type*) where
  name : Text
  digest : δ
deriving DecidableEq, Repr

inductive FileState (γ : Type*)
  | readable (c : γ)
  | missing
  | unreadable
deriving DecidableEq, Repr

variable {γ δ : Type*} (md5 : γ → δ)

def md5sum (files : List (Text × γ)) : List (Entry δ) := files.map fun f => ⟨f.1, md5 f.2⟩

def escape (c : Char) : Text :=
  if c = '\\' then "\\\\".toList
  else if c = '\n' then "\\n".toList
  else if c = '\r' then "\\r".toList
  else [c]

/-- `md5sum -c` escapes the names that have a newline. -/
def printName (n : Text) : Text := if '\n' ∈ n then '\\' :: n.flatMap escape else n

inductive Verdict
  | ok
  | failed
  | failedOpen
deriving DecidableEq, Repr

def Verdict.text : Verdict → Text
  | .ok => "OK".toList
  | .failed => "FAILED".toList
  | .failedOpen => "FAILED open or read".toList

section
variable [DecidableEq δ]

def verdict (e : Entry δ) : FileState γ → Verdict
  | .readable c => if md5 c = e.digest then .ok else .failed
  | .missing | .unreadable => .failedOpen

def reportLine (e : Entry δ) (s : FileState γ) : Text :=
  printName e.name ++ ": ".toList ++ (verdict md5 e s).text

/-- The standard output of `md5sum -c`. -/
def report (disk : Text → FileState γ) (es : List (Entry δ)) : Text :=
  unlines (es.map fun e => reportLine md5 e (disk e.name))

end

def Intact (disk : Text → FileState γ) (e : Entry δ) : Prop :=
  ∃ c, disk e.name = .readable c ∧ md5 c = e.digest

def Altered (disk : Text → FileState γ) (e : Entry δ) : Prop :=
  ∃ c, disk e.name = .readable c ∧ md5 c ≠ e.digest

def Lost (disk : Text → FileState γ) (e : Entry δ) : Prop := ∀ c, disk e.name ≠ .readable c

theorem intact_iff (disk : Text → FileState γ) (e : Entry δ) :
    Intact md5 disk e ↔ ¬ Altered md5 disk e ∧ ¬ Lost disk e := by
  unfold Intact Altered Lost
  cases disk e.name with
  | readable c => simp
  | missing => simp
  | unreadable => simp

theorem newline_notMem_printName (n : Text) : '\n' ∉ printName n := by
  have hescape : ∀ c : Char, '\n' ∉ escape c := by
    intro c
    unfold escape
    split
    · decide
    split
    · decide
    split
    · decide
    · rename_i h _
      simpa using Ne.symm h
  unfold printName
  split
  · simp only [List.mem_cons, List.mem_flatMap, not_or, not_exists, not_and]
    exact ⟨by decide, fun c _ => hescape c⟩
  · assumption

variable [DecidableEq δ]

theorem newline_notMem_reportLine (e : Entry δ) (s : FileState γ) :
    '\n' ∉ reportLine md5 e s := by
  have hv : ∀ v : Verdict, '\n' ∉ v.text := by
    intro v
    cases v <;> decide
  have hcolon : '\n' ∉ ": ".toList := by decide
  simp only [reportLine, List.mem_append, not_or]
  exact ⟨⟨newline_notMem_printName e.name, hcolon⟩, hv _⟩

/-- Of the three verdicts only one ends in a `D`. -/
theorem suffix_text_iff (l : Text) (v : Verdict) :
    "FAILED".toList <:+ l ++ v.text ↔ v = .failed := by
  constructor
  · rintro ⟨t, ht⟩
    have hD : "FAILED".toList.getLast? = some 'D' := by decide
    have hlast := congrArg List.getLast? ht
    rw [List.getLast?_append, hD, List.getLast?_append, Option.some_or] at hlast
    cases v with
    | failed => rfl
    | ok =>
      have hK : Verdict.ok.text.getLast? = some 'K' := by decide
      rw [hK, Option.some_or] at hlast
      exact absurd hlast (by decide)
    | failedOpen =>
      have hd : Verdict.failedOpen.text.getLast? = some 'd' := by decide
      rw [hd, Option.some_or] at hlast
      exact absurd hlast (by decide)
  · rintro rfl
    exact ⟨l, rfl⟩

/-- `grep 'FAILED$'` finds the files with another digest, and not those that cannot be
read. -/
theorem endsWith_reportLine (disk : Text → FileState γ) (e : Entry δ) :
    endsWith "FAILED".toList (reportLine md5 e (disk e.name)) = true ↔ Altered md5 disk e := by
  rw [endsWith, List.isSuffixOf_iff_suffix, reportLine, suffix_text_iff, Altered]
  cases hd : disk e.name <;> simp [verdict]

theorem badsums_eq_nil (disk : Text → FileState γ) (es : List (Entry δ)) :
    substitute (grep (endsWith "FAILED".toList) (report md5 disk es)) = [] ↔
      ∀ e ∈ es, ¬ Altered md5 disk e := by
  have hchar : ∀ l, endsWith "FAILED".toList l = true → ∃ c ∈ l, c ≠ '\n' := by
    intro l hl
    have hs : "FAILED".toList <:+ l := List.isSuffixOf_iff_suffix.mp hl
    exact ⟨'F', hs.subset (by decide), by decide⟩
  have hlines : lines (report md5 disk es) = es.map fun e => reportLine md5 e (disk e.name) := by
    refine lines_unlines _ fun l hl => ?_
    obtain ⟨e, -, rfl⟩ := List.mem_map.mp hl
    exact newline_notMem_reportLine md5 e _
  rw [substitute_grep_eq_nil _ hchar, hlines]
  simp only [List.forall_mem_map, ← Bool.not_eq_true, endsWith_reportLine]

end ChronosUpdates.Md5sum
