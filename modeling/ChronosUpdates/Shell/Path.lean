import ChronosUpdates.Shell.Text

namespace ChronosUpdates.Shell

/-- The directories of a path, and its last component. -/
def splitPath : Text → List Text × Text
  | [] => ([], [])
  | c :: t =>
    if c = '/' then ([] :: (splitPath t).1, (splitPath t).2)
    else match (splitPath t).1 with
      | [] => ([], c :: (splitPath t).2)
      | d :: ds => ((c :: d) :: ds, (splitPath t).2)

def joinPath (ds : List Text) (n : Text) : Text := ds.foldr (fun d t => d ++ '/' :: t) n

structure Directory where
  absolute : Bool
  names : List Text
deriving DecidableEq

structure Place where
  directory : Directory
  name : Text
deriving DecidableEq

/-- The component leads to another directory; `..` and symbolic links are left as they are. -/
def leads (d : Text) : Bool := d ≠ [] && d ≠ ['.']

def directoryOf (ds : List Text) : Directory := ⟨ds.head? = some [], ds.filter leads⟩

def placeOf (p : Text) : Place := ⟨directoryOf (splitPath p).1, (splitPath p).2⟩

theorem joinPath_cons (d : Text) (ds : List Text) (n : Text) :
    joinPath (d :: ds) n = d ++ '/' :: joinPath ds n := rfl

theorem joinPath_append (ds : List Text) (n s : Text) :
    joinPath ds n ++ s = joinPath ds (n ++ s) := by
  induction ds with
  | nil => rfl
  | cons d ds ih => rw [joinPath_cons, joinPath_cons, List.append_assoc, List.cons_append, ih]

theorem splitPath_of_no_slash {t : Text} (h : '/' ∉ t) : splitPath t = ([], t) := by
  induction t with
  | nil => rfl
  | cons c t ih =>
    simp only [List.mem_cons, not_or] at h
    rw [splitPath, if_neg (Ne.symm h.1), ih h.2]

theorem splitPath_append_slash {d : Text} (h : '/' ∉ d) (t : Text) :
    splitPath (d ++ '/' :: t) = (d :: (splitPath t).1, (splitPath t).2) := by
  induction d with
  | nil => simp [splitPath]
  | cons c d ih =>
    simp only [List.mem_cons, not_or] at h
    rw [List.cons_append, splitPath, if_neg (Ne.symm h.1), ih h.2]

theorem splitPath_joinPath {ds : List Text} {n : Text} (hds : ∀ d ∈ ds, '/' ∉ d) (hn : '/' ∉ n) :
    splitPath (joinPath ds n) = (ds, n) := by
  induction ds with
  | nil => exact splitPath_of_no_slash hn
  | cons d ds ih =>
    rw [joinPath_cons, splitPath_append_slash (hds d List.mem_cons_self),
      ih fun e he => hds e (List.mem_cons_of_mem _ he)]

theorem exists_joinPath (p : Text) :
    ∃ ds n, p = joinPath ds n ∧ (∀ d ∈ ds, '/' ∉ d) ∧ '/' ∉ n := by
  induction p with
  | nil => exact ⟨[], [], rfl, by simp, by simp⟩
  | cons c p ih =>
    obtain ⟨ds, n, rfl, hds, hn⟩ := ih
    by_cases hc : c = '/'
    · subst hc
      exact ⟨[] :: ds, n, rfl, by simpa using hds, hn⟩
    · cases ds with
      | nil => exact ⟨[], c :: n, rfl, by simp, by simp [Ne.symm hc, hn]⟩
      | cons d ds =>
        refine ⟨(c :: d) :: ds, n, rfl, fun e he => ?_, hn⟩
        rcases List.mem_cons.mp he with rfl | he
        · simp [Ne.symm hc, hds d List.mem_cons_self]
        · exact hds e (List.mem_cons_of_mem _ he)

theorem placeOf_append (w : Word) {t : Text} (ht : '/' ∉ t) :
    placeOf (w ++ t) = ⟨(placeOf w).directory, (placeOf w).name ++ t⟩ := by
  obtain ⟨ds, n, rfl, hds, hn⟩ := exists_joinPath w
  have hname : '/' ∉ n ++ t := by
    simp [hn, ht]
  rw [joinPath_append, placeOf, placeOf, splitPath_joinPath hds hname, splitPath_joinPath hds hn]

theorem suffix_append_slash {s : Text} (hs : '/' ∉ s) (d t : Text) :
    s <:+ d ++ '/' :: t ↔ s <:+ t := by
  constructor
  · intro h
    rcases List.suffix_or_suffix_of_suffix h (List.suffix_append d ('/' :: t)) with h | h
    · rcases List.suffix_cons_iff.mp h with rfl | h
      · exact absurd List.mem_cons_self hs
      · exact h
    · exact absurd (h.subset List.mem_cons_self) hs
  · intro h
    exact h.trans ((List.suffix_cons '/' t).trans (List.suffix_append d _))

theorem endsWith_name {s : Text} (hs : '/' ∉ s) (p : Text) :
    endsWith s p = endsWith s (placeOf p).name := by
  obtain ⟨ds, n, rfl, hds, hn⟩ := exists_joinPath p
  have hname : (placeOf (joinPath ds n)).name = n := by
    rw [placeOf, splitPath_joinPath hds hn]
  rw [hname, endsWith, endsWith, Bool.eq_iff_iff, List.isSuffixOf_iff_suffix,
    List.isSuffixOf_iff_suffix]
  clear hds hname
  induction ds with
  | nil => rfl
  | cons d ds ih => rw [joinPath_cons, suffix_append_slash hs, ih]

end ChronosUpdates.Shell
