import ChronosUpdates.Makefile.Recipes
import ChronosUpdates.Runs

namespace ChronosUpdates.Makefile
open Shell FileTree Runs

variable {γ : Type*}

theorem child_into {src dir f : Path} (h : child src f = true) : child dir (into dir f) = true := by
  obtain ⟨n, rfl, hn⟩ := child_iff.mp h
  exact child_iff.mpr ⟨n, by simp [into], hn⟩

theorem mem_expandAll {d : Path} {t : Files γ} {found : List (Path × γ)}
    (h : expandAll d t = some found) {f : Path × γ} (hf : f ∈ found) :
    child d f.1 = true ∧ t.lookup f.1 = some f.2 := by
  unfold expandAll at h
  split at h
  · cases h
  · cases h
    exact mem_list.mp ((perm_byName _).mem_iff.mp hf)

theorem readAll_spec {files : List Path} {t : Files γ} {found : List (Path × γ)}
    (h : readAll files t = some found) :
    found.map Prod.fst = files ∧ ∀ f ∈ found, t.lookup f.1 = some f.2 := by
  induction files generalizing found with
  | nil =>
    cases h
    simp
  | cons file files ih =>
    simp only [readAll, List.mapM_cons, bind, pure, Option.bind_eq_some_iff,
      Option.map_eq_some_iff] at h
    obtain ⟨_, ⟨c, hc, rfl⟩, rest, hrest, hfound⟩ := h
    cases hfound
    obtain ⟨hnames, hlookup⟩ := ih hrest
    refine ⟨by rw [List.map_cons, hnames], fun f hf => ?_⟩
    rcases List.mem_cons.mp hf with rfl | hf
    · exact hc
    · exact hlookup f hf

theorem mem_readAll {files : List Path} {t : Files γ} {found : List (Path × γ)}
    (h : readAll files t = some found) : ∀ f ∈ found, f.1 ∈ files :=
  fun _ hf => (readAll_spec h).1 ▸ List.mem_map_of_mem hf

theorem ne_of_beq_false {file p : Path} (h : (file == p) = false) : p ≠ file :=
  (beq_eq_false_iff_ne.mp h).symm

theorem exec_frame {k : Tools γ} {version : Text} {t t' : Files γ} {l : Line} {p : Path}
    (he : exec k version t l = some t') (h : touches l p = false) : t'.lookup p = t.lookup p := by
  cases l with
  | mkdir dir =>
    cases he
    rfl
  | rmRecursive q =>
    cases he
    rw [lookup_remove, if_neg (by simpa [touches] using h)]
  | rm file =>
    simp only [exec] at he
    split at he
    · cases he
      exact AList.lookup_erase_ne (ne_of_beq_false h)
    · cases he
  | cp files dir =>
    obtain ⟨found, hfound, rfl⟩ := Option.map_eq_some_iff.mp he
    refine lookup_writeAll_of_ne (fun f hf => ?_) t
    obtain ⟨g, hg, rfl⟩ := List.mem_map.mp hf
    simp only [touches, List.any_eq_false] at h
    simpa using h g.1 (mem_readAll hfound g hg)
  | cpAll src dir =>
    obtain ⟨found, hfound, rfl⟩ := Option.map_eq_some_iff.mp he
    refine lookup_writeAll_of_ne (fun f hf hp => ?_) t
    obtain ⟨g, hg, rfl⟩ := List.mem_map.mp hf
    have hchild : child dir p = true := hp ▸ child_into (mem_expandAll hfound hg).1
    exact absurd hchild (by simpa [touches] using h)
  | mv file dir =>
    obtain ⟨c, -, rfl⟩ := Option.map_eq_some_iff.mp he
    simp only [touches, Bool.or_eq_false_iff, beq_eq_false_iff_ne] at h
    rw [AList.lookup_insert_ne h.2.symm, AList.lookup_erase_ne h.1.symm]
  | echoVersion file =>
    cases he
    exact AList.lookup_insert_ne (ne_of_beq_false h)
  | link target file =>
    cases he
    split
    · rfl
    · exact AList.lookup_insert_ne (ne_of_beq_false h)
  | tar out dir =>
    cases he
    exact AList.lookup_insert_ne (ne_of_beq_false h)
  | md5sum dir out =>
    obtain ⟨found, -, rfl⟩ := Option.map_eq_some_iff.mp he
    exact AList.lookup_insert_ne (ne_of_beq_false h)
  | zip out dir =>
    simp only [exec] at he
    split at he
    · cases he
    · cases he
      exact AList.lookup_insert_ne (ne_of_beq_false h)
  | zipJunkPaths out files =>
    obtain ⟨found, -, rfl⟩ := Option.map_eq_some_iff.mp he
    exact AList.lookup_insert_ne (ne_of_beq_false h)

theorem damage_frame {l : Line} {p : Path} (h : touches l p = false) (junk : List (Path × Option γ))
    (t : Files γ) : (damage junk t l).lookup p = t.lookup p := by
  cases l with
  | mv file dir => rfl
  | rm file | rmRecursive q => exact lookup_spoil h _ t
  | _ => exact lookup_spoil h junk t

theorem runRecipe_frame (k : Tools γ) (version : Text) (junk : List (Path × Option γ)) {p : Path}
    (fail : Option ℕ) {ls : List Line} (h : ∀ l ∈ ls, touches l p = false) (t : Files γ) :
    (runRecipe k version junk fail ls t).1.lookup p = t.lookup p := by
  induction ls generalizing fail t with
  | nil => simp [runRecipe]
  | cons l ls ih =>
    have hl := h l List.mem_cons_self
    have hls : ∀ l ∈ ls, touches l p = false := fun l' hl' => h l' (List.mem_cons_of_mem _ hl')
    rw [runRecipe]
    split
    · exact damage_frame hl junk t
    · split
      · rename_i t' he
        rw [ih _ hls, exec_frame he hl]
      · exact damage_frame hl junk t

/-- The outputs of the `Makefile`, as `.gitignore` lists them. -/
def isOutput (p : Path) : Bool :=
  below camUpdateDir p || p == filesystemRevision || p == rulesD ||
    match p with
    | n :: _ => "camUpdate".toList.isPrefixOf n && ".zip".toList.isSuffixOf n
    | [] => false

theorem isOutput_of_below {p : Path} (h : below camUpdateDir p = true) : isOutput p = true := by
  simp [isOutput, h]

theorem isOutput_zipFile {version : Text} {p : Path} (h : below (zipFile version) p = true) :
    isOutput p = true := by
  obtain ⟨q, rfl⟩ := List.isPrefixOf_iff_prefix.mp h
  have hpre :
      "camUpdate".toList.isPrefixOf ("camUpdate-".toList ++ version ++ ".zip".toList) = true := by
    rw [List.isPrefixOf_iff_prefix, List.append_assoc]
    exact (by decide : "camUpdate".toList <+: "camUpdate-".toList).trans (List.prefix_append _ _)
  have hsuf : ".zip".toList.isSuffixOf ("camUpdate-".toList ++ version ++ ".zip".toList) = true :=
    List.isSuffixOf_iff_suffix.mpr (List.suffix_append _ _)
  simp only [isOutput, zipFile, List.cons_append, hpre, hsuf]
  simp

theorem debianZip_eq : debianZip = zipFile "debian".toList := by decide

/-- The paths that a target writes or deletes, the image apart that `debian` moves. -/
def Writes (version : Text) : Target → Path → Prop
  | .clean, p =>
    below (zipFile version) p = true ∨ below debianZip p = true ∨ below camUpdateDir p = true
  | .updateTgz, p => p ∈ [filesystemRevision, rulesD, updateTgz]
  | .camUpdate, p => p ∈ distFiles.map (into camUpdateDir)
  | .updateMd5sum, p => p ∈ [updateMd5sum]
  | .debian, p => child camUpdateDir p = true ∨ p ∈ [debianZip]
  | .zip name, p => p ∈ [name.1]

theorem mem_into_of_any {files : List Path} {p : Path}
    (h : files.any (fun f => into camUpdateDir f == p) = true) :
    p ∈ files.map (into camUpdateDir) := by
  obtain ⟨f, hf, hp⟩ := List.any_eq_true.mp h
  exact List.mem_map.mpr ⟨f, hf, eq_of_beq hp⟩

/-- What the lines of a recipe touch, target by target. -/
theorem writes_of_touches {version : Text} {target : Target} {l : Line} {p : Path}
    (hl : l ∈ recipe version target) (h : touches l p = true) : Writes version target p ∨
      (target = .debian ∧ l = .mv debianImage camUpdateDir ∧ p = debianImage) := by
  have hone : ∀ {q : Path}, (q == p) = true → p ∈ [q] :=
    fun hq => List.mem_singleton.mpr (eq_of_beq hq).symm
  cases target with
  | clean =>
    simp only [recipe, List.mem_cons, List.not_mem_nil, or_false] at hl
    rcases hl with rfl | rfl | rfl
    · exact .inl (.inl h)
    · exact .inl (.inr (.inl h))
    · exact .inl (.inr (.inr h))
  | updateTgz =>
    simp only [recipe, List.mem_cons, List.not_mem_nil, or_false] at hl
    rcases hl with rfl | rfl | rfl | rfl
    · cases h
    all_goals simp [Writes, ← eq_of_beq h]
  | camUpdate =>
    simp only [recipe, List.mem_cons, List.not_mem_nil, or_false] at hl
    rcases hl with rfl | rfl
    · cases h
    · exact .inl (mem_into_of_any h)
  | updateMd5sum =>
    simp only [recipe, List.mem_cons, List.not_mem_nil, or_false] at hl
    rcases hl with rfl | rfl <;> exact .inl (hone h)
  | debian =>
    have hcopies : ∀ q ∈ [path ["update.sh"], hexFile].map (into camUpdateDir),
        child camUpdateDir q = true := by decide
    simp only [recipe, List.mem_cons, List.not_mem_nil, or_false] at hl
    rcases hl with rfl | rfl | rfl | rfl | rfl | rfl
    · cases h
    · exact .inl (.inl h)
    · exact .inl (.inl (hcopies p (mem_into_of_any h)))
    · rcases Bool.or_eq_true_iff.mp h with h | h
      · exact .inr ⟨rfl, rfl, (eq_of_beq h).symm⟩
      · exact .inl (.inl (eq_of_beq h ▸ by decide))
    · exact .inl (.inl (eq_of_beq h ▸ by decide))
    · exact .inl (.inr (hone h))
  | zip name =>
    simp only [recipe, List.mem_cons, List.not_mem_nil, or_false] at hl
    rcases hl with rfl | rfl | rfl <;> exact .inl (hone h)

theorem touches_recipe {version : Text} {target : Target} {l : Line} {p : Path}
    (hl : l ∈ recipe version target) (h : touches l p = true) :
    isOutput p = true ∨ (p = debianImage ∧ target = .debian ∧ l = .mv debianImage camUpdateDir) ∨
      ∃ name, target = .zip name ∧ p = name.1 := by
  rcases writes_of_touches hl h with hw | ⟨ht, hmv, hp⟩
  · cases target with
    | clean =>
      rcases hw with hw | hw | hw
      · exact .inl (isOutput_zipFile hw)
      · exact .inl (isOutput_zipFile (debianZip_eq ▸ hw))
      · exact .inl (isOutput_of_below hw)
    | updateTgz =>
      have houtputs : ∀ q ∈ [filesystemRevision, rulesD, updateTgz], isOutput q = true := by decide
      exact .inl (houtputs p hw)
    | camUpdate =>
      have houtputs : ∀ q ∈ distFiles.map (into camUpdateDir), isOutput q = true := by decide
      exact .inl (houtputs p hw)
    | updateMd5sum => exact .inl (List.mem_singleton.mp hw ▸ by decide)
    | debian =>
      rcases hw with hw | hw
      · exact .inl (isOutput_of_below (below_of_child hw))
      · exact .inl (List.mem_singleton.mp hw ▸ by decide)
    | zip name => exact .inr (.inr ⟨name, rfl, List.mem_singleton.mp hw⟩)
  · exact .inr (.inl ⟨hp, ht, hmv⟩)

theorem step_recipe {k : Tools γ} {s s' : Repo γ} {target : Target} {fail : Option ℕ}
    {junk : List (Path × Option γ)} (h : step k s (.recipe target fail junk) = some s') :
    s'.version = s.version ∧
      s'.tree = (runRecipe k s.version junk fail (recipe s.version target) s.tree).1 := by
  simp only [step] at h
  split at h
  · cases h
    exact ⟨rfl, rfl⟩
  · cases h

/-- A file that is no output stays as it is, unless it is named as the package to be made. -/
theorem lookup_step {k : Tools γ} {s s' : Repo γ} {a : Act γ} {p : Path} (h : step k s a = some s')
    (hout : isOutput p = false) (himage : p ≠ debianImage)
    (hzip : ∀ name fail junk, a = .recipe (.zip name) fail junk → p ≠ name.1) :
    s'.tree.lookup p = s.tree.lookup p := by
  cases a with
  | make version =>
    cases h
    rfl
  | recipe target fail junk =>
    obtain ⟨-, htree⟩ := step_recipe h
    rw [htree]
    refine runRecipe_frame k s.version junk fail (fun l hl => ?_) s.tree
    by_contra ht
    rcases touches_recipe hl (by simpa using ht) with ho | ⟨hi, -⟩ | ⟨name, rfl, hn⟩
    · exact absurd ho (by simp [hout])
    · exact himage hi
    · exact hzip name fail junk rfl hn

def stagedImage : Path := into camUpdateDir debianImage

/-- The image `c` is at one of its two places, or `p` is a package with it. -/
def HoldsImage (k : Tools γ) (c : γ) (t : Files γ) (p : Path) : Prop :=
  ((p = debianImage ∨ p = stagedImage) ∧ t.lookup p = some c) ∨
    (isZip p = true ∧ below camUpdateDir p = false ∧
      ∃ z, t.lookup p = some z ∧ ∃ f ∈ k.unzip z, f.2 = c)

def replaced (version : Text) : Target → Path → Bool
  | .clean, p => below (zipFile version) p || below debianZip p || below camUpdateDir p
  | .debian, p => below debianZip p || below camUpdateDir p
  | .zip name, p => name.1 == p
  | _, _ => false

/-- The image is somewhere where the recipe of the target does not delete or replace it. -/
def Spared (k : Tools γ) (c : γ) (s : Repo γ) (target : Target) : Prop :=
  ∃ p, HoldsImage k c s.tree p ∧ replaced s.version target p = false

/-- The goals that delete or replace files are made only when the image is elsewhere too, and
a package is not given the name of one of the files `t` that were there before. -/
def Safe (k : Tools γ) (c : γ) (t : Files γ) (s : Repo γ) : Act γ → Prop
  | .recipe target _ _ =>
    match target with
    | .clean | .debian => Spared k c s target
    | .zip name => Spared k c s (.zip name) ∧ (isOutput name.1 = true ∨ t.lookup name.1 = none)
    | _ => True
  | .make _ => True

theorem HoldsImage.congr {k : Tools γ} {c : γ} {t t' : Files γ} {p : Path} (h : HoldsImage k c t p)
    (hl : t'.lookup p = t.lookup p) : HoldsImage k c t' p := by
  unfold HoldsImage
  rw [hl]
  exact h

def Place (p : Path) : Prop :=
  p = debianImage ∨ p = stagedImage ∨ (isZip p = true ∧ below camUpdateDir p = false)

theorem HoldsImage.place {k : Tools γ} {c : γ} {t : Files γ} {p : Path} (h : HoldsImage k c t p) :
    Place p := by
  rcases h with ⟨rfl | rfl, -⟩ | ⟨hz, hb, -⟩
  · exact .inl rfl
  · exact .inr (.inl rfl)
  · exact .inr (.inr ⟨hz, hb⟩)

theorem Place.not_mem {p : Path} (hp : Place p) {qs : List Path}
    (hq : ∀ q ∈ qs, q ≠ debianImage ∧ q ≠ stagedImage ∧ isZip q = false) : p ∉ qs := by
  intro hmem
  obtain ⟨himage, hstaged, hzip⟩ := hq p hmem
  rcases hp with h | h | ⟨h, -⟩
  · exact himage h
  · exact hstaged h
  · exact absurd h (by simp [hzip])

/-- The recipes touch no place of the image but those that they replace; `debian` moves it. -/
theorem touches_place {version : Text} {target : Target} {l : Line} {p : Path} (hp : Place p)
    (hr : replaced version target p = false) (hd : target = .debian → p ≠ debianImage)
    (hl : l ∈ recipe version target) : touches l p = false := by
  by_contra h
  rcases writes_of_touches hl (by simpa using h) with hw | ⟨ht, -, himage⟩
  · cases target with
    | clean =>
      simp only [replaced, Bool.or_eq_false_iff] at hr
      rcases hw with hw | hw | hw
      · exact absurd hw (by simp [hr.1.1])
      · exact absurd hw (by simp [hr.1.2])
      · exact absurd hw (by simp [hr.2])
    | updateTgz => exact hp.not_mem (by decide) hw
    | camUpdate => exact hp.not_mem (by decide) hw
    | updateMd5sum => exact hp.not_mem (by decide) hw
    | debian =>
      simp only [replaced, Bool.or_eq_false_iff] at hr
      rcases hw with hw | hw
      · exact absurd (below_of_child hw) (by simp [hr.2])
      · rw [List.mem_singleton.mp hw] at hr
        exact absurd hr.1 (by decide)
    | zip name =>
      rw [replaced, beq_eq_false_iff_ne] at hr
      exact hr (List.mem_singleton.mp hw).symm
  · exact hd ht himage

def Kept (k : Tools γ) (c : γ) (t : Files γ) : Prop := ∃ p, HoldsImage k c t p

theorem kept_of_not_replaced {k : Tools γ} {c : γ} {t : Files γ} {p : Path} {version : Text}
    {target : Target} (h : HoldsImage k c t p) (hr : replaced version target p = false)
    (hd : target = .debian → p ≠ debianImage) (fail : Option ℕ) (junk : List (Path × Option γ)) :
    Kept k c (runRecipe k version junk fail (recipe version target) t).1 :=
  ⟨p, h.congr (runRecipe_frame k version junk fail (fun _ hl => touches_place h.place hr hd hl) t)⟩

theorem runRecipe_append (k : Tools γ) (version : Text) (junk : List (Path × Option γ))
    (fail : Option ℕ) (as bs : List Line) (t : Files γ) :
    runRecipe k version junk fail (as ++ bs) t = runRecipe k version junk fail as t ∨
      ∃ fail', runRecipe k version junk fail (as ++ bs) t =
        runRecipe k version junk fail' bs (runRecipe k version junk fail as t).1 := by
  induction as generalizing fail t with
  | nil => exact .inr ⟨fail, by simp [runRecipe]⟩
  | cons l as ih =>
    rw [List.cons_append, runRecipe, runRecipe]
    split
    · exact .inl rfl
    · cases exec k version t l with
      | some t' => exact ih _ t'
      | none => exact .inl rfl

theorem kept_debian {k : Tools γ} {c : γ} {t : Files γ} (h : t.lookup debianImage = some c)
    (version : Text) (fail : Option ℕ) (junk : List (Path × Option γ)) :
    Kept k c (runRecipe k version junk fail (recipe version .debian) t).1 := by
  let front : List Line := [.mkdir camUpdateDir, .cpAll (path ["update-to-debian"]) camUpdateDir,
    .cp [path ["update.sh"], hexFile] camUpdateDir]
  let back : List Line := [.md5sum camUpdateDir updateMd5sum, .zip debianZip camUpdateDir]
  have hfront : ∀ l ∈ front, touches l debianImage = false := by decide
  have hback : ∀ l ∈ back, touches l stagedImage = false := by decide
  have hrecipe : recipe version .debian = front ++ .mv debianImage camUpdateDir :: back := rfl
  have hroot : (runRecipe k version junk fail front t).1.lookup debianImage = some c :=
    (runRecipe_frame k version junk fail hfront t).trans h
  rw [hrecipe]
  rcases runRecipe_append k version junk fail front (.mv debianImage camUpdateDir :: back) t with
    h' | ⟨fail', h'⟩
  · -- the recipe fails before the `mv`
    rw [h']
    exact ⟨debianImage, .inl ⟨.inl rfl, hroot⟩⟩
  · rw [h', runRecipe]
    split
    · exact ⟨debianImage, .inl ⟨.inl rfl, hroot⟩⟩
    · simp only [exec, hroot, Option.map_some]
      refine ⟨stagedImage, .inl ⟨.inr rfl, ?_⟩⟩
      rw [runRecipe_frame k version junk _ hback]
      exact AList.lookup_insert _

theorem kept_step {k : Tools γ} {c : γ} {t : Files γ} {s s' : Repo γ} {a : Act γ}
    (hs : Kept k c s.tree) (ha : Safe k c t s a) (h : step k s a = some s') : Kept k c s'.tree := by
  cases a with
  | make version =>
    cases h
    exact hs
  | recipe target fail junk =>
    obtain ⟨-, htree⟩ := step_recipe h
    have hplace : Spared k c s target := by
      obtain ⟨p, hp⟩ := hs
      cases target with
      | clean | debian => exact ha
      | zip name => exact ha.1
      | updateTgz | camUpdate | updateMd5sum => exact ⟨p, hp, rfl⟩
    obtain ⟨p, hp, hr⟩ := hplace
    rw [htree]
    by_cases hd : target = .debian ∧ p = debianImage
    · -- the one recipe that takes the image from its place
      obtain ⟨rfl, rfl⟩ := hd
      have hroot : s.tree.lookup debianImage = some c := by
        rcases hp with ⟨-, hl⟩ | ⟨hz, -⟩
        · exact hl
        · exact absurd hz (by decide)
      exact kept_debian hroot s.version fail junk
    · exact kept_of_not_replaced hp hr (fun ht hi => hd ⟨ht, hi⟩) fail junk

/-- The files of `t` that are no outputs, the image apart, are as they were. -/
def OthersKept (t t' : Files γ) : Prop :=
  ∀ p d, isOutput p = false → p ≠ debianImage → t.lookup p = some d → t'.lookup p = some d

theorem others_step {k : Tools γ} {c : γ} {t : Files γ} {s s' : Repo γ} {a : Act γ}
    (hs : OthersKept t s.tree) (ha : Safe k c t s a) (h : step k s a = some s') :
    OthersKept t s'.tree := by
  intro p d hout himage hp
  rw [lookup_step h hout himage fun name fail junk hname => ?_]
  · exact hs p d hout himage hp
  · -- a package is either an output or new
    rintro rfl
    subst hname
    rcases ha.2 with ho | hn
    · exact absurd ho (by simp [hout])
    · exact nomatch hn.symm.trans hp

/-- Nothing that `make` did not generate is destroyed: the files that are no outputs are as
they were, and the image is in the root, in `camUpdate/` or in a package. -/
structure Preserves (k : Tools γ) (c : γ) (t t' : Files γ) : Prop where
  others : OthersKept t t'
  image : t'.lookup debianImage = some c ∨
    (∃ p, below camUpdateDir p = true ∧ t'.lookup p = some c) ∨
    ∃ p z, isZip p = true ∧ t'.lookup p = some z ∧ ∃ f ∈ k.unzip z, f.2 = c

theorem Kept.image {k : Tools γ} {c : γ} {t : Files γ} (h : Kept k c t) :
    t.lookup debianImage = some c ∨ (∃ p, below camUpdateDir p = true ∧ t.lookup p = some c) ∨
      ∃ p z, isZip p = true ∧ t.lookup p = some z ∧ ∃ f ∈ k.unzip z, f.2 = c := by
  obtain ⟨p, ⟨rfl | rfl, hl⟩ | ⟨hz, -, z, hl, hf⟩⟩ := h
  · exact .inl hl
  · exact .inr (.inl ⟨stagedImage, by decide, hl⟩)
  · exact .inr (.inr ⟨p, z, hz, hl, hf⟩)

/-- Invocations of `make` preserve the image as long as `clean`, `debian` and the packages are
made only while it is where they delete nothing, and the other files as long as no package is
made in the place of one. -/
theorem preserves_of_safe_run (k : Tools γ) (c : γ) (t : Files γ)
    (h₀ : t.lookup debianImage = some c)
    {acts : List (Act γ)} {s : Repo γ} (hok : StepsMeet (step k) (Safe k c t) (start t) acts)
    (h : run (step k) (start t) acts = some s) : Preserves k c t s.tree := by
  have hstart : OthersKept t (start t).tree ∧ Kept k c (start t).tree :=
    ⟨fun p d _ _ hp => hp, debianImage, .inl ⟨.inl rfl, h₀⟩⟩
  have hstep : ∀ s a s', OthersKept t s.tree ∧ Kept k c s.tree → Safe k c t s a →
      step k s a = some s' → OthersKept t s'.tree ∧ Kept k c s'.tree :=
    fun s a s' hs ha h => ⟨others_step hs.1 ha h, kept_step hs.2 ha h⟩
  obtain ⟨hothers, hkept⟩ := run_invariant (step k) hstep hstart hok h
  exact ⟨hothers, hkept.image⟩

/-- File contents: a file of the repository, or an archive. -/
inductive Content
  | data (n : ℕ)
  | archive (files : List (Path × Content))

def Content.files : Content → List (Path × Content)
  | .data _ => []
  | .archive files => files

def tools : Tools Content where
  text _ := .data 1
  symlink _ := .data 2
  tar files := .archive files
  md5sum _ := .data 3
  zip old files := .archive ((old.map Content.files).getD [] ++ files)
  unzip := Content.files

def repository : Files Content :=
  [⟨debianImage, .data 7⟩, ⟨path ["update-to-debian", "update_backend.sh"], .data 4⟩,
    ⟨path ["update.sh"], .data 5⟩, ⟨hexFile, .data 6⟩].toAList

def makeDebian : List (Act Content) :=
  [.make "v1".toList, .recipe .clean none [], .recipe .debian none []]

theorem preserves_makeDebian : ∃ s, run (step tools) (start repository) makeDebian = some s ∧
    Preserves tools (.data 7) repository s.tree := by
  have hok :
      StepsMeet (step tools) (Safe tools (.data 7) repository) (start repository) makeDebian :=
    ⟨trivial, ⟨debianImage, .inl ⟨.inl rfl, rfl⟩, by decide⟩,
      ⟨debianImage, .inl ⟨.inl rfl, rfl⟩, by decide⟩, trivial⟩
  exact ⟨_, rfl, preserves_of_safe_run tools (.data 7) repository rfl hok rfl⟩

def withoutImage : Files Content :=
  [⟨path ["update-to-debian", "update_backend.sh"], .data 4⟩, ⟨path ["update.sh"], .data 5⟩,
    ⟨hexFile, .data 6⟩].toAList

/-- `make debian` and `make clean` together destroy the image. -/
theorem not_preserves_makeClean : ∃ s, run (step tools) (start repository)
    (makeDebian ++ [.make "v1".toList, .recipe .clean none []]) = some s ∧
      ¬ Preserves tools (.data 7) repository s.tree := by
  refine ⟨⟨withoutImage, "v1".toList, [.clean], false⟩, rfl, fun h => ?_⟩
  have hother : ∀ p z, withoutImage.lookup p = some z → z ≠ .data 7 ∧ tools.unzip z = [] := by
    intro p z hz
    have hmem : ⟨p, z⟩ ∈ withoutImage.entries := AList.mem_lookup_iff.mp hz
    have hentries : withoutImage.entries =
        [⟨path ["update-to-debian", "update_backend.sh"], .data 4⟩,
      ⟨path ["update.sh"], .data 5⟩, ⟨hexFile, .data 6⟩] := rfl
    rw [hentries] at hmem
    simp only [List.mem_cons, List.not_mem_nil, or_false, Sigma.mk.injEq, heq_eq_eq] at hmem
    rcases hmem with ⟨-, rfl⟩ | ⟨-, rfl⟩ | ⟨-, rfl⟩ <;> exact ⟨by simp, rfl⟩
  rcases h.image with h | ⟨p, -, h⟩ | ⟨p, z, -, h, f, hf, -⟩
  · exact (hother _ _ h).1 rfl
  · exact (hother _ _ h).1 rfl
  · simp [(hother _ _ h).2] at hf

end ChronosUpdates.Makefile
