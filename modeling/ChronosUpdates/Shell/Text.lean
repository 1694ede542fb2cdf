import Mathlib.Data.List.Infix
import Mathlib.Data.List.DropRight

namespace ChronosUpdates.Shell

abbrev Text := List Char
abbrev Word := List Char

/-- The characters of the default `IFS`. -/
def isBlank (c : Char) : Bool := c == ' ' || c == '\t' || c == '\n'

/-- The lines of a text; a last line without a newline counts. -/
def lines : Text → List Text
  | [] => []
  | c :: t =>
    if c = '\n' then [] :: lines t
    else match lines t with
      | [] => [[c]]
      | l :: ls => (c :: l) :: ls

def unlines (ls : List Text) : Text := ls.flatMap (· ++ ['\n'])

/-- `grep`, given the test that its pattern makes on a line. -/
def grep (p : Text → Bool) (t : Text) : Text := unlines ((lines t).filter p)

def endsWith (s : Text) (l : Text) : Bool := s.isSuffixOf l

/-- The pattern `S` of a fixed text `S`, matched anywhere in the line. -/
def contains (s : Text) (l : Text) : Bool := decide (s <:+: l)

/-- `$(...)` drops the newlines at the end of the output. -/
def substitute (t : Text) : Text := t.rdropWhile (· == '\n')

def splitFrom (w : Word) : Text → List Word
  | [] => if w = [] then [] else [w]
  | c :: t =>
    if isBlank c then (if w = [] then splitFrom [] t else w :: splitFrom [] t)
    else splitFrom (w ++ [c]) t

/-- The fields of an unquoted expansion. -/
def splitWords (t : Text) : List Word := splitFrom [] t

/-- A word without blanks, which an unquoted expansion leaves whole. -/
def IsPlain (w : Word) : Prop := w ≠ [] ∧ ∀ c ∈ w, isBlank c = false

theorem noBlank_of_all {t : Text} (h : t.all (!isBlank ·) = true) : ∀ c ∈ t, isBlank c = false := by
  simpa using h

instance (w : Word) : Decidable (IsPlain w) :=
  decidable_of_iff (w ≠ [] ∧ w.all (!isBlank ·) = true) (by simp [IsPlain])

def IsLiteral (w : Word) : Prop := ∀ c ∈ w, c ∉ ['*', '?', '[', '\\']

/-- Pathname expansion in some directory: a pattern is replaced by the names that match it,
or left alone where there are none. -/
structure Glob where
  names : Word → List Word
  literal : ∀ w, IsLiteral w → names w = [w]
  ne_nil : ∀ w, names w ≠ []
  starts : ∀ p w, IsLiteral p → ∀ v ∈ names (p ++ w), p <+: v

def Glob.expand (g : Glob) (t : Text) : List Word := (splitWords t).flatMap g.names

def noMatches : Glob where
  names w := [w]
  literal _ _ := rfl
  ne_nil _ := List.cons_ne_nil _ _
  starts p w _ _ hv := List.mem_singleton.mp hv ▸ List.prefix_append p w

/-- `read -r LINE` strips the blanks around the line. -/
def stripBlanks (t : Text) : Text := (t.dropWhile isBlank).rdropWhile isBlank

theorem lines_append (l t : Text) (h : '\n' ∉ l) : lines (l ++ '\n' :: t) = l :: lines t := by
  induction l with
  | nil => simp [lines]
  | cons c l ih =>
    have hc : c ≠ '\n' := fun e => h (e ▸ List.mem_cons_self)
    have hl : '\n' ∉ l := fun m => h (List.mem_cons_of_mem _ m)
    simp [lines, hc, ih hl]

theorem unlines_cons (l : Text) (ls : List Text) : unlines (l :: ls) = l ++ '\n' :: unlines ls := by
  simp [unlines]

theorem lines_unlines (ls : List Text) (h : ∀ l ∈ ls, '\n' ∉ l) : lines (unlines ls) = ls := by
  induction ls with
  | nil => rfl
  | cons l ls ih =>
    have hl : '\n' ∉ l := h l List.mem_cons_self
    have hls : ∀ l ∈ ls, '\n' ∉ l := fun l' m => h l' (List.mem_cons_of_mem _ m)
    rw [unlines_cons, lines_append l _ hl, ih hls]

theorem subset_of_mem_lines {t l : Text} (h : l ∈ lines t) : l ⊆ t := by
  induction t generalizing l with
  | nil => cases h
  | cons c t ih =>
    rw [lines] at h
    split at h
    · rcases List.mem_cons.mp h with rfl | h
      · exact List.nil_subset _
      · exact List.subset_cons_of_subset c (ih h)
    · cases hlines : lines t with
      | nil =>
        rw [hlines, List.mem_singleton] at h
        exact h ▸ List.cons_subset_cons c (List.nil_subset t)
      | cons m ms =>
        rw [hlines] at h
        rcases List.mem_cons.mp h with rfl | h
        · exact List.cons_subset_cons c (ih (hlines ▸ List.mem_cons_self))
        · exact List.subset_cons_of_subset c (ih (hlines ▸ List.mem_cons_of_mem m h))

/-- A pattern that matches no empty line leaves a captured `grep` empty exactly
when it matches no line. -/
theorem substitute_grep_eq_nil (p : Text → Bool) (hp : ∀ l, p l = true → ∃ c ∈ l, c ≠ '\n')
    (t : Text) : substitute (grep p t) = [] ↔ ∀ l ∈ lines t, p l = false := by
  rw [substitute, List.rdropWhile_eq_nil_iff]
  constructor
  · intro h l hl
    by_contra hpl
    have hpl : p l = true := by simpa using hpl
    obtain ⟨c, hc, hcn⟩ := hp l hpl
    have hm : c ∈ grep p t := by
      simp only [grep, unlines, List.mem_flatMap, List.mem_filter]
      exact ⟨l, ⟨hl, hpl⟩, by simp [hc]⟩
    exact hcn (by simpa using h c hm)
  · intro h c hc
    simp only [grep, unlines, List.mem_flatMap, List.mem_filter] at hc
    obtain ⟨l, ⟨hl, hpl⟩, -⟩ := hc
    rw [h l hl] at hpl
    cases hpl

theorem substitute_of_no_newline {t : Text} (ht : '\n' ∉ t) : substitute t = t := by
  rw [substitute, List.rdropWhile_eq_self_iff]
  intro hne hlast
  exact ht (eq_of_beq hlast ▸ List.getLast_mem hne)

theorem substitute_line {t : Text} (ht : '\n' ∉ t) : substitute (t ++ ['\n']) = t := by
  rw [substitute, List.rdropWhile_concat_pos _ _ _ rfl]
  exact substitute_of_no_newline ht

theorem splitFrom_of_no_blank (w t : Text) (h : ∀ c ∈ t, isBlank c = false) :
    splitFrom w t = if w ++ t = [] then [] else [w ++ t] := by
  induction t generalizing w with
  | nil => simp [splitFrom]
  | cons c t ih =>
    have hc : isBlank c = false := h c List.mem_cons_self
    simp [splitFrom, hc, ih (w ++ [c]) (fun d hd => h d (List.mem_cons_of_mem _ hd))]

theorem splitFrom_plain (w t : Text) (hw : ∀ c ∈ w, isBlank c = false) :
    ∀ v ∈ splitFrom w t, IsPlain v := by
  induction t generalizing w with
  | nil =>
    by_cases h : w = []
    · simp [splitFrom, h]
    · simpa [splitFrom, h, IsPlain] using hw
  | cons c t ih =>
    by_cases hc : isBlank c = true
    · by_cases h : w = []
      · simpa [splitFrom, hc, h] using ih [] (by simp)
      · intro v hv
        simp only [splitFrom, hc, if_true, h, if_false, List.mem_cons] at hv
        rcases hv with rfl | hv
        · exact ⟨h, hw⟩
        · exact ih [] (by simp) v hv
    · have hc : isBlank c = false := by simpa using hc
      have hwc : ∀ d ∈ w ++ [c], isBlank d = false := by
        intro d hd
        rcases List.mem_append.mp hd with hd | hd
        · exact hw d hd
        · exact List.mem_singleton.mp hd ▸ hc
      simpa [splitFrom, hc] using ih (w ++ [c]) hwc

theorem plain_of_mem_splitWords {t : Text} {w : Word} (h : w ∈ splitWords t) : IsPlain w :=
  splitFrom_plain [] t (by simp) w h

theorem splitWords_of_plain {w : Word} (h : IsPlain w) : splitWords w = [w] := by
  simp [splitWords, splitFrom_of_no_blank [] w h.2, h.1]

theorem IsPlain.append {v w : Word} (hv : IsPlain v) (hw : ∀ c ∈ w, isBlank c = false) :
    IsPlain (v ++ w) := by
  refine ⟨by simp [hv.1], fun c hc => ?_⟩
  rcases List.mem_append.mp hc with hc | hc
  · exact hv.2 c hc
  · exact hw c hc

theorem isLiteral_of_all {w : Word} (h : w.all (· ∉ ['*', '?', '[', '\\']) = true) :
    IsLiteral w := by
  simpa [IsLiteral] using h

theorem IsLiteral.append {v w : Word} (hv : IsLiteral v) (hw : IsLiteral w) : IsLiteral (v ++ w) :=
  fun c hc => (List.mem_append.mp hc).elim (hv c) (hw c)

theorem Glob.expand_plain (g : Glob) {w : Word} (hw : IsPlain w) : g.expand w = g.names w := by
  simp [Glob.expand, splitWords_of_plain hw]

theorem Glob.expand_literal (g : Glob) {w : Word} (hw : IsPlain w) (hlit : IsLiteral w) :
    g.expand w = [w] := by
  rw [g.expand_plain hw, g.literal w hlit]

end ChronosUpdates.Shell
