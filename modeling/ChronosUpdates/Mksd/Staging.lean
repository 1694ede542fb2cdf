import ChronosUpdates.Rsync

namespace ChronosUpdates.Mksd
open Shell Rsync

structure Card (γ : Type*) where
  boot : FileMap γ
  root : FileMap γ

def bootDir : Path := ["boot".toList, "uboot".toList]

def exclude : Text := "boot/uboot/*".toList

variable {γ : Type*}

/-- The two runs of `rsync`, every tool succeeding. -/
def installTree (sysroot : FileMap γ) : Card γ where
  boot := rsync [] (directory bootDir sysroot)
  root := rsync [Pattern.parse exclude] sysroot

/-- The same tree with each file marked by the path that it has there. -/
def marked (t : FileMap γ) : FileMap (Path × γ) := fun p => (t p).map (p, ·)

def InBootDir (p : Path) : Prop := ∃ q, q ≠ [] ∧ p = bootDir ++ q

/-- The disk has the file at this path and at no other. -/
def OnlyAt {α : Type*} (disk : FileMap α) (f : α) (p : Path) : Prop := ∀ q, disk q = some f ↔ q = p

def Absent {α : Type*} (disk : FileMap α) (f : α) : Prop := ∀ q, disk q ≠ some f

/-- No file of the staging tree is lost, and none is on the card twice. -/
structure Divided (t : FileMap γ) (card : Card (Path × γ)) : Prop where
  boot : ∀ p c, p ≠ [] → t (bootDir ++ p) = some c →
    OnlyAt card.boot (bootDir ++ p, c) p ∧ Absent card.root (bootDir ++ p, c)
  root : ∀ p c, ¬ InBootDir p → t p = some c →
    OnlyAt card.root (p, c) p ∧ Absent card.boot (p, c)

/-- Outside `boot/uboot/` no path goes through directories `boot` and `uboot` in a row. -/
def NoDeepBootDir (t : FileMap γ) : Prop :=
  ∀ a b, b ≠ [] → ¬ InBootDir (a ++ bootDir ++ b) → t (a ++ bootDir ++ b) = none

theorem parse_exclude : Pattern.parse exclude = ⟨false, bootDir ++ ["*".toList]⟩ := rfl

theorem matchParts_exclude (p : Path) :
    matchParts (bootDir ++ ["*".toList]) p = true ↔ ∃ x, p = bootDir ++ [x] := by
  have hboot : ∀ w, wildmatch "boot".toList w = true ↔ w = "boot".toList :=
    wildmatch_literal rfl
  have huboot : ∀ w, wildmatch "uboot".toList w = true ↔ w = "uboot".toList :=
    wildmatch_literal rfl
  cases p with
  | nil => simp [bootDir, matchParts]
  | cons u p =>
    cases p with
    | nil => simp [bootDir, matchParts]
    | cons v p =>
      cases p with
      | nil => simp [bootDir, matchParts]
      | cons w p =>
        simp only [bootDir, matchParts, List.cons_append, List.nil_append, Bool.and_eq_true,
          hboot, huboot, List.cons.injEq]
        simp [wildmatch_star]

theorem transferred_exclude (p : Path) : transferred [Pattern.parse exclude] p = false ↔
    ∃ a b, b ≠ [] ∧ p = a ++ bootDir ++ b := by
  rw [parse_exclude, transferred_eq_false_iff (by decide)]
  simp only [matchParts_exclude]
  constructor
  · rintro ⟨a, _, c, rfl, x, rfl⟩
    exact ⟨a, [x] ++ c, by simp, by simp⟩
  · rintro ⟨a, b, hb, rfl⟩
    obtain ⟨x, c, rfl⟩ := List.exists_cons_of_ne_nil hb
    exact ⟨a, bootDir ++ [x], c, by simp, x, rfl⟩

theorem marked_eq_some {t : FileMap γ} {p q : Path} {c : γ} :
    marked t q = some (p, c) ↔ q = p ∧ t p = some c := by
  simp only [marked, Option.map_eq_some_iff, Prod.mk.injEq]
  constructor
  · rintro ⟨_, h, rfl, rfl⟩
    exact ⟨rfl, h⟩
  · rintro ⟨rfl, h⟩
    exact ⟨c, h, rfl, rfl⟩

theorem boot_eq_some {t : FileMap γ} {p q : Path} {c : γ} :
    (installTree (marked t)).boot q = some (p, c) ↔
      q ≠ [] ∧ p = bootDir ++ q ∧ t p = some c := by
  have hboot : (installTree (marked t)).boot = directory bootDir (marked t) := rsync_nil _
  rw [hboot, directory]
  by_cases hq : q = []
  · simp [hq]
  · rw [if_neg hq, marked_eq_some]
    constructor
    · rintro ⟨h, hc⟩
      exact ⟨hq, h.symm, hc⟩
    · rintro ⟨-, h, hc⟩
      exact ⟨h.symm, hc⟩

theorem root_eq_some {t : FileMap γ} {p q : Path} {c : γ} :
    (installTree (marked t)).root q = some (p, c) ↔
      (¬ ∃ a b, b ≠ [] ∧ p = a ++ bootDir ++ b) ∧ q = p ∧ t p = some c := by
  rw [← transferred_exclude, Bool.not_eq_false]
  simp only [installTree, rsync, Option.ite_none_right_eq_some, marked_eq_some]
  constructor
  · rintro ⟨h, rfl, hc⟩
    exact ⟨h, rfl, hc⟩
  · rintro ⟨h, rfl, hc⟩
    exact ⟨h, rfl, hc⟩

theorem noDeepBootDir_of_divided {t : FileMap γ} (h : Divided t (installTree (marked t))) :
    NoDeepBootDir t := by
  intro a b hb hout
  by_contra hsome
  obtain ⟨c, hc⟩ := Option.ne_none_iff_exists'.mp hsome
  have hroot := ((h.root _ c hout hc).1 _).mpr rfl
  exact (root_eq_some.mp hroot).1 ⟨a, b, hb, rfl⟩

theorem divided_of_noDeepBootDir {t : FileMap γ} (h : NoDeepBootDir t) :
    Divided t (installTree (marked t)) := by
  constructor
  · intro p c hp hc
    refine ⟨fun q => ?_, fun q hq => ?_⟩
    · rw [boot_eq_some]
      constructor
      · rintro ⟨-, hq, -⟩
        exact (List.append_cancel_left hq).symm
      · rintro rfl
        exact ⟨hp, rfl, hc⟩
    · exact (root_eq_some.mp hq).1 ⟨[], p, hp, rfl⟩
  · intro p c hout hc
    refine ⟨fun q => ?_, fun q hq => ?_⟩
    · rw [root_eq_some]
      constructor
      · exact fun hq => hq.2.1
      · rintro rfl
        refine ⟨?_, rfl, hc⟩
        rintro ⟨a, b, hb, rfl⟩
        rw [h a b hb hout] at hc
        cases hc
    · obtain ⟨hne, rfl, -⟩ := boot_eq_some.mp hq
      exact hout ⟨q, hne, rfl⟩

/-- The tree is divided without loss or double, if and only if no file outside of
`boot/uboot/` is in directories of these names deeper in the tree. -/
theorem divided_iff (t : FileMap γ) : Divided t (installTree (marked t)) ↔ NoDeepBootDir t :=
  ⟨noDeepBootDir_of_divided, divided_of_noDeepBootDir⟩

/-- A tree of the one file `usr/share/boot/uboot/README`. -/
def deepReadme : FileMap Unit := fun q =>
  if q = ["usr".toList, "share".toList] ++ bootDir ++ ["README".toList] then some () else none

theorem not_divided : ¬ Divided deepReadme (installTree (marked deepReadme)) := by
  intro h
  have hout : ¬ InBootDir (["usr".toList, "share".toList] ++ bootDir ++ ["README".toList]) := by
    rintro ⟨q, -, hq⟩
    have hhead : some "usr".toList = some "boot".toList := congrArg List.head? hq
    revert hhead
    decide
  have hp := noDeepBootDir_of_divided h ["usr".toList, "share".toList] ["README".toList]
    (by decide) hout
  simp [deepReadme] at hp

end ChronosUpdates.Mksd
