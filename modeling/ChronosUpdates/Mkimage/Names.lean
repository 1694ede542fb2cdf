import ChronosUpdates.Mkimage.Image
import ChronosUpdates.Shell.Path
import Mathlib.Data.List.Nodup

namespace ChronosUpdates.Mkimage
open Shell PartitionTable

/-- `${IMAGENAME%%.*}`. -/
def IMAGEBASE (imageName : Word) : Word := imageName.takeWhile (· != '.')

def PTABLE_FILE (imageName : Word) : Word := IMAGEBASE imageName ++ ".ptable.img".toList

def BOOTPART_FILE (imageName : Word) : Word := IMAGEBASE imageName ++ ".boot.vfat.img".toList

def ROOTFS_FILE (imageName : Word) : Word := IMAGEBASE imageName ++ ".rootfs.ext3.img".toList

def intermediates (imageName : Word) : List Word :=
  [PTABLE_FILE imageName, BOOTPART_FILE imageName, ROOTFS_FILE imageName]

def suffixes : List String := [".ptable.img", ".boot.vfat.img", ".rootfs.ext3.img"]

abbrev Disk := Place → Option Bytes

def rewrite (p : Place) (f : Bytes → Bytes) (d : Disk) : Disk :=
  Function.update d p (some (f ((d p).getD [])))

def remove (p : Place) (d : Disk) : Disk := Function.update d p none

section
variable (t : Tools) (l : Layout) (imageName : Word) (ptable boot rootfs image : Place)

/-- From `dd` to the end of the bootstrap. -/
def prepare (d : Disk) : Disk :=
  let d := rewrite ptable (fun _ => blankTable) d
  let d := rewrite ptable (truncate (cardSize l)) d
  let d := rewrite ptable (t.sfdisk (sfdiskInput l)) d
  let d := rewrite ptable (truncate (arith (63 * 512))) d
  let d := rewrite boot (truncate (arith (l.size .boot * 512))) d
  let d := rewrite rootfs (truncate (arith (l.size .rootfs * 512))) d
  let d := rewrite boot (t.format .boot) d
  rewrite rootfs (t.format .rootfs) d

/-- The `case` of the script: one `>` and two `>>`. -/
def assemble (d : Disk) : Disk :=
  let d := rewrite image (fun _ => filter t imageName ((d ptable).getD [])) d
  let d := rewrite image (· ++ filter t imageName ((d boot).getD [])) d
  rewrite image (· ++ filter t imageName ((d rootfs).getD [])) d

/-- The `rm` commands of `atexit`. -/
def cleanUp (d : Disk) : Disk := remove rootfs (remove boot (remove ptable d))

end

/-- The file that a tool gets for an unquoted name: it wants just one word. -/
def operand (g : Glob) (name : Word) : Option Place :=
  match g.expand name with
  | [w] => some (placeOf w)
  | _ => none

/-- The files before and after `atexit`, in a run in which all tools succeed. -/
def build (g : Glob) (t : Tools) (l : Layout) (imageName : Word) (d : Disk) :
    Option (Disk × Disk) := do
  let ptable ← operand g (PTABLE_FILE imageName)
  let boot ← operand g (BOOTPART_FILE imageName)
  let rootfs ← operand g (ROOTFS_FILE imageName)
  let image ← operand g imageName
  let assembled := assemble t imageName ptable boot rootfs image (prepare t l ptable boot rootfs d)
  return (assembled, cleanUp ptable boot rootfs assembled)

def completeImage (t : Tools) (l : Layout) (imageName : Word) (d : Disk) : Bytes :=
  assembleImage t imageName (ptableFile t l)
    (fsFile t l .boot ((d (placeOf (BOOTPART_FILE imageName))).getD []))
    (fsFile t l .rootfs ((d (placeOf (ROOTFS_FILE imageName))).getD []))

/-- A run ends with the complete image, and its clean-up removes just the intermediate files. -/
def Completes (imageName : Word) (g : Glob) (t : Tools) (l : Layout) (d : Disk) : Prop :=
  ∃ before after, build g t l imageName d = some (before, after) ∧
    after (placeOf imageName) = some (completeImage t l imageName d) ∧
    (∀ f ∈ intermediates imageName, after (placeOf f) = none) ∧
    ∀ p, (∀ f ∈ intermediates imageName, p ≠ placeOf f) → after p = before p

structure NamesApart (imageName : Word) : Prop where
  pairwise : ((intermediates imageName).map placeOf).Nodup
  apart : ∀ f ∈ intermediates imageName, placeOf f ≠ placeOf imageName
  together : ∀ f ∈ intermediates imageName, (placeOf f).directory = (placeOf imageName).directory

/-- The names are apart, and every run completes whose names reach the tools as they are. -/
structure SafeName (imageName : Word) : Prop where
  names : NamesApart imageName
  completes : IsPlain imageName → IsLiteral imageName → ∀ g t l d, Completes imageName g t l d

def dotFree (d : Text) : Bool := d.all (· != '.')

def stem (imageName : Word) : Text :=
  if (splitPath imageName).1.all dotFree then (splitPath imageName).2.takeWhile (· != '.') else []

/-- From the first directory with a dot on, every directory of the path is a single dot (or
empty); and the image is not called like one of the intermediate files. -/
structure DotsHarmless (imageName : Word) : Prop where
  directories : ∀ d ∈ (splitPath imageName).1.dropWhile dotFree, leads d = false
  name : ∀ s ∈ suffixes, (splitPath imageName).2 ≠ stem imageName ++ s.toList

theorem takeWhile_append_of_dot {d : Text} (hd : ¬ dotFree d = true) (t : Text) :
    (d ++ t).takeWhile (· != '.') = d.takeWhile (· != '.') := by
  rw [List.takeWhile_append, if_neg]
  intro hlen
  have hall : d.takeWhile (· != '.') = d := (List.takeWhile_prefix _).eq_of_length hlen
  exact hd (List.all_eq_true.mpr (List.takeWhile_eq_self_iff.mp hall))

theorem imageBase_joinPath (ds : List Text) (n : Text) : IMAGEBASE (joinPath ds n) =
    joinPath (ds.takeWhile dotFree) (((ds.dropWhile dotFree).headD n).takeWhile (· != '.')) := by
  induction ds with
  | nil => rfl
  | cons d ds ih =>
    by_cases hd : dotFree d = true
    · -- the cut is behind this component and its slash
      rw [List.takeWhile_cons_of_pos hd, List.dropWhile_cons_of_pos hd, joinPath_cons,
        joinPath_cons, IMAGEBASE, List.takeWhile_append_of_pos (List.all_eq_true.mp hd),
        List.takeWhile_cons_of_pos (by decide), ← ih, IMAGEBASE]
    · rw [List.takeWhile_cons_of_neg hd, List.dropWhile_cons_of_neg hd, joinPath_cons, IMAGEBASE,
        takeWhile_append_of_dot hd]
      rfl

theorem placeOf_intermediate (imageName : Word) {s : Text} (hs : '/' ∉ s) :
    placeOf (IMAGEBASE imageName ++ s) =
      ⟨directoryOf ((splitPath imageName).1.takeWhile dotFree),
        (((splitPath imageName).1.dropWhile dotFree).headD (splitPath imageName).2).takeWhile
          (· != '.') ++ s⟩ := by
  obtain ⟨ds, n, rfl, hds, hn⟩ := exists_joinPath imageName
  have hhead : '/' ∉ (ds.dropWhile dotFree).headD n := by
    cases hrest : ds.dropWhile dotFree with
    | nil => exact hn
    | cons d es => exact hds d ((List.dropWhile_suffix _).subset (hrest ▸ List.mem_cons_self))
  have hname : '/' ∉ ((ds.dropWhile dotFree).headD n).takeWhile (· != '.') ++ s := by
    rw [List.mem_append, not_or]
    exact ⟨fun h => hhead ((List.takeWhile_prefix _).subset h), hs⟩
  have hkept : ∀ d ∈ ds.takeWhile dotFree, '/' ∉ d :=
    fun d hd => hds d ((List.takeWhile_prefix _).subset hd)
  rw [imageBase_joinPath, joinPath_append, placeOf, splitPath_joinPath hkept hname,
    splitPath_joinPath hds hn]

/-- The components that are left out do not matter exactly when they lead nowhere. -/
theorem directoryOf_takeWhile (ds : List Text) :
    directoryOf (ds.takeWhile dotFree) = directoryOf ds ↔
      ∀ d ∈ ds.dropWhile dotFree, leads d = false := by
  have habsolute : (ds.takeWhile dotFree).head? = some [] ↔ ds.head? = some [] := by
    cases ds with
    | nil => rfl
    | cons d ds =>
      by_cases hd : dotFree d = true
      · rw [List.takeWhile_cons_of_pos hd]
        rfl
      · rw [List.takeWhile_cons_of_neg hd]
        simp only [List.head?_nil, List.head?_cons, Option.some.injEq, reduceCtorEq, false_iff]
        rintro rfl
        exact hd rfl
  have hnames : ds.filter leads =
      (ds.takeWhile dotFree).filter leads ++ (ds.dropWhile dotFree).filter leads := by
    rw [← List.filter_append, List.takeWhile_append_dropWhile]
  simp only [directoryOf, Directory.mk.injEq, habsolute, true_and]
  rw [hnames, List.self_eq_append_right, List.filter_eq_nil_iff]
  simp

theorem headD_eq_stem {imageName : Word}
    (h : ∀ d ∈ (splitPath imageName).1.dropWhile dotFree, leads d = false) :
    (((splitPath imageName).1.dropWhile dotFree).headD (splitPath imageName).2).takeWhile
      (· != '.') = stem imageName := by
  unfold stem
  cases hrest : (splitPath imageName).1.dropWhile dotFree with
  | nil =>
    have hall : (splitPath imageName).1.all dotFree = true :=
      List.all_eq_true.mpr (List.dropWhile_eq_nil_iff.mp hrest)
    rw [if_pos hall]
    rfl
  | cons d es =>
    have hdot : ¬ dotFree d = true := by
      have hhead := List.head?_dropWhile_not dotFree (splitPath imageName).1
      rw [hrest] at hhead
      simpa using hhead
    have hmem : d ∈ (splitPath imageName).1 :=
      (List.dropWhile_suffix _).subset (hrest ▸ List.mem_cons_self)
    have hall : ¬ (splitPath imageName).1.all dotFree = true :=
      fun hall => hdot (List.all_eq_true.mp hall d hmem)
    -- a component that has a dot and leads nowhere is the dot, and the names begin empty
    have hd : d = [] ∨ d = ['.'] := by
      have hleads := h d (hrest ▸ List.mem_cons_self)
      simpa [leads, or_iff_not_imp_left] using hleads
    rw [if_neg hall]
    rcases hd with rfl | rfl
    · exact absurd rfl hdot
    · rfl

theorem slash_notMem_suffixes : ∀ s ∈ suffixes, '/' ∉ s.toList := by decide

theorem mem_intermediates {imageName f : Word} :
    f ∈ intermediates imageName ↔ ∃ s ∈ suffixes, IMAGEBASE imageName ++ s.toList = f := by
  have hmap : intermediates imageName = suffixes.map fun s => IMAGEBASE imageName ++ s.toList := rfl
  rw [hmap, List.mem_map]

/-- Where the directories with dots lead nowhere, the intermediate files are beside the image. -/
theorem placeOf_beside {imageName : Word}
    (h : ∀ d ∈ (splitPath imageName).1.dropWhile dotFree, leads d = false) {s : String}
    (hs : s ∈ suffixes) : placeOf (IMAGEBASE imageName ++ s.toList) =
      ⟨(placeOf imageName).directory, stem imageName ++ s.toList⟩ := by
  rw [placeOf_intermediate imageName (slash_notMem_suffixes s hs), headD_eq_stem h,
    (directoryOf_takeWhile _).mpr h]
  rfl

theorem dotsHarmless_of_namesApart {imageName : Word} (h : NamesApart imageName) :
    DotsHarmless imageName := by
  have hdirs : ∀ d ∈ (splitPath imageName).1.dropWhile dotFree, leads d = false := by
    have hs : ".ptable.img" ∈ suffixes := by decide
    have hdir := h.together _ (mem_intermediates.mpr ⟨_, hs, rfl⟩)
    rw [placeOf_intermediate imageName (slash_notMem_suffixes _ hs)] at hdir
    exact (directoryOf_takeWhile _).mp hdir
  refine ⟨hdirs, fun s hs hname => ?_⟩
  apply h.apart _ (mem_intermediates.mpr ⟨s, hs, rfl⟩)
  rw [placeOf_beside hdirs hs, ← hname]
  rfl

theorem namesApart_of_dotsHarmless {imageName : Word} (h : DotsHarmless imageName) :
    NamesApart imageName := by
  have hmap : (intermediates imageName).map placeOf =
      suffixes.map fun s => ⟨(placeOf imageName).directory, stem imageName ++ s.toList⟩ := by
    have hnames :
        intermediates imageName = suffixes.map fun s => IMAGEBASE imageName ++ s.toList := rfl
    rw [hnames, List.map_map]
    exact List.map_congr_left fun s hs => placeOf_beside h.directories hs
  constructor
  · rw [hmap]
    refine List.Nodup.map (fun s s' he => ?_) (by decide)
    exact String.toList_inj.mp (List.append_cancel_left (Place.mk.inj he).2)
  · intro f hf he
    obtain ⟨s, hs, rfl⟩ := mem_intermediates.mp hf
    rw [placeOf_beside h.directories hs] at he
    exact h.name s hs (congrArg Place.name he).symm
  · intro f hf
    obtain ⟨s, hs, rfl⟩ := mem_intermediates.mp hf
    rw [placeOf_beside h.directories hs]

theorem operand_of_word (g : Glob) {name : Word} (hp : IsPlain name) (hl : IsLiteral name) :
    operand g name = some (placeOf name) := by
  rw [operand, g.expand_literal hp hl]

theorem word_of_mem_intermediates {imageName f : Word} (hp : IsPlain imageName)
    (hl : IsLiteral imageName) (hf : f ∈ intermediates imageName) : IsPlain f ∧ IsLiteral f := by
  obtain ⟨s, hs, rfl⟩ := mem_intermediates.mp hf
  have hstart : IMAGEBASE imageName <+: imageName := List.takeWhile_prefix _
  have hsuffix : ∀ s ∈ suffixes, s.toList ≠ [] ∧ s.toList.all (!isBlank ·) = true ∧
      s.toList.all (· ∉ ['*', '?', '[', '\\']) = true := by decide
  obtain ⟨hne, hblank, hliteral⟩ := hsuffix s hs
  refine ⟨⟨by simp [hne], fun c hc => ?_⟩, IsLiteral.append (fun c hc => hl c (hstart.subset hc))
    (isLiteral_of_all hliteral)⟩
  rcases List.mem_append.mp hc with hc | hc
  · exact hp.2 c (hstart.subset hc)
  · exact noBlank_of_all hblank c hc

section
variable (t : Tools) (l : Layout) (imageName : Word) {ptable boot rootfs image : Place}

theorem rewrite_self (p : Place) (f : Bytes → Bytes) (d : Disk) :
    rewrite p f d p = some (f ((d p).getD [])) := Function.update_self _ _ _

theorem rewrite_of_ne {p q : Place} (h : q ≠ p) (f : Bytes → Bytes) (d : Disk) :
    rewrite p f d q = d q := Function.update_of_ne h _ _

theorem rewrite_rewrite (p : Shell.Place) (f g : Bytes → Bytes) (d : Disk) :
    rewrite p f (rewrite p g d) = rewrite p (fun c => f (g c)) d := by
  rw [rewrite, rewrite_self, rewrite, Function.update_idem]
  rfl

theorem prepare_ptable (hb : ptable ≠ boot) (hr : ptable ≠ rootfs) (d : Disk) :
    prepare t l ptable boot rootfs d ptable = some (ptableFile t l) := by
  unfold prepare
  rw [rewrite_of_ne hr, rewrite_of_ne hb, rewrite_of_ne hr, rewrite_of_ne hb, rewrite_self,
    rewrite_self, rewrite_self, rewrite_self, Option.getD_some, Option.getD_some, Option.getD_some,
    ptableFile, partitionedFile]

theorem prepare_boot (hp : boot ≠ ptable) (hr : boot ≠ rootfs) (d : Disk) :
    prepare t l ptable boot rootfs d boot = some (fsFile t l .boot ((d boot).getD [])) := by
  unfold prepare
  rw [rewrite_of_ne hr, rewrite_self, rewrite_of_ne hr, rewrite_self, rewrite_of_ne hp,
    rewrite_of_ne hp, rewrite_of_ne hp, rewrite_of_ne hp, Option.getD_some, fsFile]

theorem prepare_rootfs (hp : rootfs ≠ ptable) (hb : rootfs ≠ boot) (d : Disk) :
    prepare t l ptable boot rootfs d rootfs = some (fsFile t l .rootfs ((d rootfs).getD [])) := by
  unfold prepare
  rw [rewrite_self, rewrite_of_ne hb, rewrite_self, rewrite_of_ne hb, rewrite_of_ne hp,
    rewrite_of_ne hp, rewrite_of_ne hp, rewrite_of_ne hp, Option.getD_some, fsFile]

theorem assemble_image (hb : boot ≠ image) (hr : rootfs ≠ image) (d : Disk) :
    assemble t imageName ptable boot rootfs image d image =
      some (assembleImage t imageName ((d ptable).getD []) ((d boot).getD [])
        ((d rootfs).getD [])) := by
  simp only [assemble, rewrite_of_ne hb, rewrite_of_ne hr, rewrite_self, Option.getD_some]
  rfl

theorem cleanUp_of_mem (d : Disk) {p : Place} (h : p ∈ [ptable, boot, rootfs]) :
    cleanUp ptable boot rootfs d p = none := by
  simp only [cleanUp, remove, Function.update_apply]
  simp only [List.mem_cons, List.not_mem_nil, or_false] at h
  rcases h with rfl | rfl | rfl <;> simp

theorem cleanUp_of_not_mem (d : Disk) {p : Place} (h : p ∉ [ptable, boot, rootfs]) :
    cleanUp ptable boot rootfs d p = d p := by
  simp only [List.mem_cons, List.not_mem_nil, or_false, not_or] at h
  simp [cleanUp, remove, Function.update_of_ne, h]

end

theorem build_eq (g : Glob) (t : Tools) (l : Layout) {imageName : Word} (d : Disk)
    (hfiles : ∀ f ∈ intermediates imageName, operand g f = some (placeOf f))
    (himage : operand g imageName = some (placeOf imageName)) :
    ∃ before, before = assemble t imageName (placeOf (PTABLE_FILE imageName))
        (placeOf (BOOTPART_FILE imageName)) (placeOf (ROOTFS_FILE imageName)) (placeOf imageName)
        (prepare t l (placeOf (PTABLE_FILE imageName)) (placeOf (BOOTPART_FILE imageName))
          (placeOf (ROOTFS_FILE imageName)) d) ∧
      build g t l imageName d = some (before, cleanUp (placeOf (PTABLE_FILE imageName))
        (placeOf (BOOTPART_FILE imageName)) (placeOf (ROOTFS_FILE imageName)) before) := by
  refine ⟨_, rfl, ?_⟩
  rw [build, hfiles (PTABLE_FILE imageName) (by simp [intermediates]),
    hfiles (BOOTPART_FILE imageName) (by simp [intermediates]),
    hfiles (ROOTFS_FILE imageName) (by simp [intermediates]), himage]
  rfl

/-- With the names apart, every run ends as it should. -/
theorem completes_of_namesApart {imageName : Word} (h : NamesApart imageName)
    (hp : IsPlain imageName) (hl : IsLiteral imageName) (g : Glob) (t : Tools) (l : Layout)
    (d : Disk) : Completes imageName g t l d := by
  have hoperand : ∀ f ∈ intermediates imageName, operand g f = some (placeOf f) := fun f hf =>
    operand_of_word g (word_of_mem_intermediates hp hl hf).1 (word_of_mem_intermediates hp hl hf).2
  have hboot : BOOTPART_FILE imageName ∈ intermediates imageName := by simp [intermediates]
  have hrootfs : ROOTFS_FILE imageName ∈ intermediates imageName := by simp [intermediates]
  have hplaces : ∀ p, p ∈ [placeOf (PTABLE_FILE imageName), placeOf (BOOTPART_FILE imageName),
      placeOf (ROOTFS_FILE imageName)] ↔ ∃ f ∈ intermediates imageName, placeOf f = p :=
    fun p => (List.mem_map : p ∈ (intermediates imageName).map placeOf ↔ _)
  have hne := h.pairwise
  simp only [intermediates, List.map_cons, List.map_nil, List.nodup_cons, List.mem_cons,
    List.not_mem_nil, or_false, not_or, not_false_eq_true, List.nodup_nil, and_true] at hne
  obtain ⟨⟨hpb, hpr⟩, hbr⟩ := hne
  obtain ⟨before, hbefore, hbuild⟩ := build_eq g t l d hoperand (operand_of_word g hp hl)
  refine ⟨before, _, hbuild, ?_, ?_, ?_⟩
  · rw [cleanUp_of_not_mem, hbefore,
      assemble_image t imageName (h.apart _ hboot) (h.apart _ hrootfs),
      prepare_ptable t l hpb hpr, prepare_boot t l (Ne.symm hpb) hbr,
      prepare_rootfs t l (Ne.symm hpr) (Ne.symm hbr)]
    · rfl
    · rw [hplaces]
      rintro ⟨f, hf, he⟩
      exact h.apart f hf he
  · intro f hf
    exact cleanUp_of_mem _ ((hplaces _).mpr ⟨f, hf, rfl⟩)
  · intro p hp
    rw [cleanUp_of_not_mem]
    rw [hplaces]
    rintro ⟨f, hf, rfl⟩
    exact hp f hf rfl

/-- The names are safe exactly when the dots of the path are harmless. -/
theorem safeName_iff (imageName : Word) : SafeName imageName ↔ DotsHarmless imageName := by
  constructor
  · intro h
    exact dotsHarmless_of_namesApart h.names
  · intro h
    have hnames := namesApart_of_dotsHarmless h
    exact ⟨hnames, completes_of_namesApart hnames⟩

/-- The image `chronos.ptable.img` is one of its own intermediate files, and those of
`v1.2/chronos.img` are in another directory. -/
theorem not_safeName : ¬ SafeName "chronos.ptable.img".toList ∧
    ¬ SafeName "v1.2/chronos.img".toList := by
  constructor
  · intro h
    exact h.names.apart (PTABLE_FILE "chronos.ptable.img".toList) (by decide) (by decide)
  · intro h
    have hdir := h.names.together (PTABLE_FILE "v1.2/chronos.img".toList) (by decide)
    revert hdir
    decide

end ChronosUpdates.Mkimage
