import Mathlib.Data.Char
import Mathlib.Data.List.AList
import Mathlib.Data.List.Lex
import Mathlib.Data.List.Sort

namespace ChronosUpdates.FileTree

abbrev Path := List (List Char)

/-- The files by their paths; directories are implicit. -/
abbrev Files (γ : Type*) := AList fun _ : Path => γ

variable {γ : Type*}

/-- The path `d` itself or a path below it. -/
def below (d p : Path) : Bool := d.isPrefixOf p

/-- An entry of the directory `d` that is not hidden. -/
def child (d p : Path) : Bool :=
  match p.getLast? with
  | some n => p.dropLast == d && n.head? != some '.'
  | none => false

def inChild (d p : Path) : Bool :=
  below d p && decide (d.length + 1 < p.length) &&
    ((p.drop d.length).head?.bind List.head?) != some '.'

def list (q : Path → Bool) (t : Files γ) : List (Path × γ) :=
  (t.entries.filter fun e => q e.1).map fun e => (e.1, e.2)

def byName (fs : List (Path × γ)) : List (Path × γ) := fs.insertionSort fun f g => f.1 ≤ g.1

/-- The files at the paths `q`, in the order of their names. -/
def listing (q : Path → Bool) (t : Files γ) : List (Path × γ) := byName (list q t)

/-- The words that `d/*` gives to a command that takes files only: nothing to work with
where it names no file, or a directory. -/
def expandAll (d : Path) (t : Files γ) : Option (List (Path × γ)) :=
  if list (child d) t = [] ∨ list (inChild d) t ≠ [] then none else some (listing (child d) t)

def remove (q : Path → Bool) (t : Files γ) : Files γ :=
  ⟨t.entries.filter fun e => !q e.1, t.nodupKeys.sublist List.filter_sublist⟩

def writeAll : List (Path × γ) → Files γ → Files γ
  | [], t => t
  | f :: fs, t => writeAll fs (t.insert f.1 f.2)

def put (p : Path) (t : Files γ) : Option γ → Files γ
  | some c => t.insert p c
  | none => t.erase p

/-- A command that fails may leave anything at the paths `q`. -/
def spoil (q : Path → Bool) : List (Path × Option γ) → Files γ → Files γ
  | [], t => t
  | j :: js, t => spoil q js (if q j.1 then put j.1 t j.2 else t)

theorem child_iff {d p : Path} : child d p = true ↔ ∃ n, p = d ++ [n] ∧ n.head? ≠ some '.' := by
  cases h : p.getLast? with
  | none =>
    have hp : p = [] := List.getLast?_eq_none_iff.mp h
    simp [child, hp]
  | some n =>
    obtain ⟨init, rfl⟩ := List.getLast?_eq_some_iff.mp h
    simp [child]

theorem below_append (d q : Path) : below d (d ++ q) = true :=
  List.isPrefixOf_iff_prefix.mpr (List.prefix_append d q)

theorem below_of_child {d p : Path} (h : child d p = true) : below d p = true := by
  obtain ⟨n, rfl, -⟩ := child_iff.mp h
  exact below_append d [n]

theorem lookup_remove (q : Path → Bool) (t : Files γ) (p : Path) :
    (remove q t).lookup p = if q p then none else t.lookup p := by
  ext c
  by_cases hq : q p = true
  · rw [if_pos hq, ← Option.mem_def, AList.mem_lookup_iff]
    simp [remove, hq]
  · rw [if_neg hq, ← Option.mem_def, ← Option.mem_def, AList.mem_lookup_iff, AList.mem_lookup_iff]
    simp [remove, hq]

theorem lookup_writeAll_of_ne {fs : List (Path × γ)} {p : Path} (h : ∀ f ∈ fs, f.1 ≠ p)
    (t : Files γ) : (writeAll fs t).lookup p = t.lookup p := by
  induction fs generalizing t with
  | nil => rfl
  | cons f fs ih =>
    have hf : p ≠ f.1 := (h f List.mem_cons_self).symm
    rw [writeAll, ih fun g hg => h g (List.mem_cons_of_mem _ hg), AList.lookup_insert_ne hf]

theorem lookup_put_of_ne {p p' : Path} (h : p ≠ p') (t : Files γ) (c : Option γ) :
    (put p' t c).lookup p = t.lookup p := by
  cases c with
  | some c => exact AList.lookup_insert_ne h
  | none => exact AList.lookup_erase_ne h

theorem lookup_spoil {q : Path → Bool} {p : Path} (h : q p = false) (js : List (Path × Option γ))
    (t : Files γ) : (spoil q js t).lookup p = t.lookup p := by
  induction js generalizing t with
  | nil => rfl
  | cons j js ih =>
    rw [spoil, ih]
    split
    · rename_i hq
      refine lookup_put_of_ne (fun e => ?_) t j.2
      rw [← e, h] at hq
      cases hq
    · rfl

theorem mem_list {q : Path → Bool} {t : Files γ} {f : Path × γ} :
    f ∈ list q t ↔ q f.1 = true ∧ t.lookup f.1 = some f.2 := by
  rw [← Option.mem_def, AList.mem_lookup_iff]
  simp only [list, List.mem_map, List.mem_filter]
  constructor
  · rintro ⟨e, ⟨he, hq⟩, rfl⟩
    exact ⟨hq, he⟩
  · rintro ⟨hq, he⟩
    exact ⟨⟨f.1, f.2⟩, ⟨he, hq⟩, rfl⟩

theorem nodup_names_list (q : Path → Bool) (t : Files γ) : ((list q t).map Prod.fst).Nodup := by
  have hkeys : (t.entries.map Sigma.fst).Nodup := t.nodupKeys
  have hfilter : ((t.entries.filter fun e => q e.1).map Sigma.fst).Nodup :=
    hkeys.sublist (List.filter_sublist.map Sigma.fst)
  rw [list, List.map_map]
  exact hfilter

theorem list_eq_nil_iff {q : Path → Bool} {t : Files γ} :
    list q t = [] ↔ ∀ p, q p = true → t.lookup p = none := by
  rw [List.eq_nil_iff_forall_not_mem]
  constructor
  · intro h p hq
    by_contra hp
    obtain ⟨c, hc⟩ := Option.ne_none_iff_exists'.mp hp
    exact h (p, c) (mem_list.mpr ⟨hq, hc⟩)
  · intro h f hf
    obtain ⟨hq, hc⟩ := mem_list.mp hf
    simp [h f.1 hq] at hc

theorem list_perm {q : Path → Bool} {t : Files γ} {fs : List (Path × γ)}
    (hfs : (fs.map Prod.fst).Nodup)
    (h : ∀ f : Path × γ, f ∈ fs ↔ q f.1 = true ∧ t.lookup f.1 = some f.2) : (list q t).Perm fs := by
  rw [List.perm_ext_iff_of_nodup (nodup_names_list q t).of_map hfs.of_map]
  intro f
  rw [mem_list, h f]

theorem perm_byName (fs : List (Path × γ)) : (byName fs).Perm fs := List.perm_insertionSort _ fs

theorem pairwise_byName (fs : List (Path × γ)) :
    (byName fs).Pairwise fun f g => f.1 ≤ g.1 := by
  have : Std.Total fun f g : Path × γ => f.1 ≤ g.1 := ⟨fun f g => le_total f.1 g.1⟩
  have : IsTrans (Path × γ) fun f g => f.1 ≤ g.1 := ⟨fun _ _ _ => le_trans⟩
  exact List.pairwise_insertionSort _ fs

theorem byName_eq_of_perm {fs gs : List (Path × γ)} (h : fs.Perm gs)
    (hfs : (fs.map Prod.fst).Nodup) : byName fs = byName gs := by
  have hperm : (byName fs).Perm (byName gs) :=
    (perm_byName fs).trans (h.trans (perm_byName gs).symm)
  refine hperm.eq_of_pairwise (fun f g hf hg hle hge => ?_) (pairwise_byName fs)
    (pairwise_byName gs)
  have hf : f ∈ fs := (perm_byName fs).mem_iff.mp hf
  have hg : g ∈ fs := h.mem_iff.mpr ((perm_byName gs).mem_iff.mp hg)
  exact List.inj_on_of_nodup_map hfs hf hg (le_antisymm hle hge)

theorem listing_congr {q q' : Path → Bool} {t t' : Files γ}
    (h : ∀ p c, q p = true ∧ t.lookup p = some c ↔ q' p = true ∧ t'.lookup p = some c) :
    listing q t = listing q' t' := by
  refine byName_eq_of_perm (list_perm (nodup_names_list q' t') fun f => ?_) (nodup_names_list q t)
  rw [mem_list, h]

theorem lookup_writeAll_congr {t t' : Files γ} {p : Path} (h : t.lookup p = t'.lookup p)
    (fs : List (Path × γ)) : (writeAll fs t).lookup p = (writeAll fs t').lookup p := by
  induction fs generalizing t t' with
  | nil => exact h
  | cons f fs ih =>
    rw [writeAll, writeAll]
    apply ih
    by_cases hf : p = f.1
    · rw [hf, AList.lookup_insert, AList.lookup_insert]
    · rw [AList.lookup_insert_ne hf, AList.lookup_insert_ne hf, h]

theorem lookup_writeAll_of_mem {fs : List (Path × γ)} {p : Path} (h : ∃ f ∈ fs, f.1 = p)
    (t t' : Files γ) : (writeAll fs t).lookup p = (writeAll fs t').lookup p := by
  induction fs generalizing t t' with
  | nil => simp at h
  | cons f fs ih =>
    rw [writeAll, writeAll]
    by_cases hp : f.1 = p
    · subst hp
      exact lookup_writeAll_congr ((AList.lookup_insert t).trans (AList.lookup_insert t').symm) fs
    · obtain ⟨g, hg, hgp⟩ := h
      rcases List.mem_cons.mp hg with rfl | hg
      · exact absurd hgp hp
      · exact ih ⟨g, hg, hgp⟩ _ _

theorem lookup_writeAll_ne_none {fs : List (Path × γ)} {t : Files γ} {p : Path} :
    (writeAll fs t).lookup p ≠ none ↔ t.lookup p ≠ none ∨ ∃ f ∈ fs, f.1 = p := by
  induction fs generalizing t with
  | nil => simp [writeAll]
  | cons f fs ih =>
    have hcons : (∃ g ∈ f :: fs, g.1 = p) ↔ f.1 = p ∨ ∃ g ∈ fs, g.1 = p := by simp
    rw [writeAll, ih, hcons, ← or_assoc]
    refine or_congr_left ?_
    by_cases hp : p = f.1
    · simp [hp]
    · rw [AList.lookup_insert_ne hp, or_iff_left (Ne.symm hp)]

/-- Below the directory `d` the tree `t` holds the files of `w`. -/
def Agree (d : Path) (w t : Files γ) : Prop := ∀ p, below d p = true → t.lookup p = w.lookup p

theorem Agree.writeAll {d : Path} {w t : Files γ} (h : Agree d w t) (fs : List (Path × γ)) :
    Agree d (writeAll fs w) (writeAll fs t) := fun p hp => lookup_writeAll_congr (h p hp) fs

theorem Agree.insert {d : Path} {w t : Files γ} (h : Agree d w t) (p : Path) (c : γ) :
    Agree d (w.insert p c) (t.insert p c) := h.writeAll [(p, c)]

theorem Agree.frame {d : Path} {w t t' : Files γ} (h : Agree d w t)
    (ht : ∀ p, below d p = true → t'.lookup p = t.lookup p) : Agree d w t' :=
  fun p hp => (ht p hp).trans (h p hp)

theorem Agree.listing {d : Path} {w t : Files γ} (h : Agree d w t) {q : Path → Bool}
    (hq : ∀ p, q p = true → below d p = true) : listing q t = listing q w := by
  apply listing_congr
  intro p c
  refine and_congr_right fun hp => ?_
  rw [h p (hq p hp)]

end ChronosUpdates.FileTree
