import ChronosUpdates.Shell.Text

namespace ChronosUpdates.Rsync
open Shell

abbrev Path := List Text

abbrev FileMap (γ : Type*) := Path → Option γ

/-- A component against a pattern with `*` and `?`; there are no patterns with `**`, brackets or a
slash at the end. -/
def wildmatch : Text → Text → Bool
  | [], w => w.isEmpty
  | c :: ps, w =>
    if c = '*' then w.tails.any (wildmatch ps)
    else match w with
      | [] => false
      | d :: w => (c == '?' || c == d) && wildmatch ps w

structure Pattern where
  anchored : Bool
  parts : List Text
deriving DecidableEq

def Pattern.parse : Text → Pattern
  | '/' :: t => ⟨true, t.splitOn '/'⟩
  | t => ⟨false, t.splitOn '/'⟩

def matchParts : List Text → Path → Bool
  | [], p => p.isEmpty
  | w :: ws, p =>
    match p with
    | [] => false
    | n :: p => wildmatch w n && matchParts ws p

def Pattern.matches (e : Pattern) (p : Path) : Bool :=
  if e.anchored then matchParts e.parts p else p.tails.any (matchParts e.parts)

/-- Neither the file nor a directory above it is excluded. -/
def transferred (excludes : List Pattern) (p : Path) : Bool :=
  p.inits.all fun q => q == [] || excludes.all fun e => !e.matches q

variable {γ : Type*}

def directory (d : Path) (t : FileMap γ) : FileMap γ := fun p => if p = [] then none else t (d ++ p)

/-- `rsync -a --exclude … DIR/` into an empty file system. -/
def rsync (excludes : List Pattern) (t : FileMap γ) : FileMap γ := fun p =>
  if transferred excludes p then t p else none

theorem wildmatch_star (w : Text) : wildmatch ['*'] w = true := by
  simp [wildmatch]

theorem wildmatch_literal {ps : Text} (h : ps.all (fun c => c != '*' && c != '?') = true)
    (w : Text) :
    wildmatch ps w = true ↔ w = ps := by
  induction ps generalizing w with
  | nil => simp [wildmatch]
  | cons c ps ih =>
    obtain ⟨hc, hcs⟩ := Bool.and_eq_true_iff.mp (List.all_cons ▸ h)
    obtain ⟨hstar, hquestion⟩ : c ≠ '*' ∧ c ≠ '?' := by simpa using hc
    have hps := ih hcs
    cases w with
    | nil => simp [wildmatch, hstar]
    | cons d w =>
      simp only [wildmatch, if_neg hstar, Bool.and_eq_true, Bool.or_eq_true, beq_iff_eq,
        hquestion, false_or, hps, List.cons.injEq]
      rw [eq_comm]

theorem matches_iff {ws : List Text} {p : Path} :
    (⟨false, ws⟩ : Pattern).matches p = true ↔ ∃ a b, p = a ++ b ∧ matchParts ws b = true := by
  simp only [Pattern.matches, Bool.false_eq_true, if_false, List.any_eq_true, List.mem_tails]
  constructor
  · rintro ⟨b, ⟨a, rfl⟩, hb⟩
    exact ⟨a, b, rfl, hb⟩
  · rintro ⟨a, b, rfl, hb⟩
    exact ⟨b, ⟨a, rfl⟩, hb⟩

theorem transferred_nil (p : Path) : transferred [] p = true := by
  simp [transferred]

theorem rsync_nil (t : FileMap γ) : rsync [] t = t := by
  funext p
  rw [rsync, if_pos (transferred_nil p)]

/-- With one pattern, the files that stay behind have a matching part in their paths. -/
theorem transferred_eq_false_iff {ws : List Text} (hws : ws ≠ []) {p : Path} :
    transferred [⟨false, ws⟩] p = false ↔ ∃ a b c, p = a ++ b ++ c ∧ matchParts ws b = true := by
  have hne : ∀ b, matchParts ws b = true → b ≠ [] := by
    rintro _ hb rfl
    obtain ⟨w, ws, rfl⟩ := List.exists_cons_of_ne_nil hws
    cases hb
  rw [← Bool.not_eq_true, transferred, List.all_eq_true]
  simp only [List.mem_inits, List.all_cons, List.all_nil, Bool.and_true, Bool.or_eq_true,
    beq_iff_eq, Bool.not_eq_true', not_forall, not_or, Bool.not_eq_false, matches_iff]
  constructor
  · rintro ⟨q, ⟨c, rfl⟩, -, a, b, rfl, hb⟩
    exact ⟨a, b, c, rfl, hb⟩
  · rintro ⟨a, b, c, rfl, hb⟩
    exact ⟨a ++ b, ⟨c, rfl⟩, by simp [hne b hb], a, b, rfl, hb⟩

end ChronosUpdates.Rsync
