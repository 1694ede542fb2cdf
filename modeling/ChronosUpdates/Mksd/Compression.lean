import ChronosUpdates.Mksd.Scripts
import ChronosUpdates.Mkimage.Names

namespace ChronosUpdates.Mksd
open Shell
open PartitionTable (Bytes)
open Mkimage (Disk rewrite remove truncate zeros length_truncate rewrite_self
  rewrite_of_ne rewrite_rewrite)

inductive Suffix
  | gz
  | bz2
deriving DecidableEq, Repr

def Suffix.text : Suffix → Text
  | .gz => ".gz".toList
  | .bz2 => ".bz2".toList

/-- The machine of the script. `opens` holds of the words that its tools open as a regular file,
and `knows` of the names that a compressor takes for the ones of compressed files. -/
structure Host where
  glob : Glob
  file : FileTests
  escapes : Text → Text
  opens : Word → Bool
  compress : Suffix → Word → Bytes → Bytes
  decompress : Suffix → Bytes → Option Bytes
  knows : Suffix → Word → Bool
  decompress_compress : ∀ s w c, decompress s (compress s w c) = some c
  decompress_zeros : ∀ s n, decompress s (zeros n) = none

/-- `[ ! -z $(echo ${FILENAME} | grep '\.gz$') ]`, and the same for `.bz2`. -/
def hasSuffix (h : Host) (filename : Text) (s : Suffix) : Bool :=
  holds h.file ("!".toList :: "-z".toList ::
    h.glob.expand (substitute (grep (endsWith s.text) (echo h.escapes (h.glob.expand filename)))))

def SUFFIX (h : Host) (filename : Text) : Option Suffix :=
  if hasSuffix h filename .gz then some .gz
  else if hasSuffix h filename .bz2 then some .bz2
  else none

/-- `${FILENAME%.*}`. -/
def cutExtension (filename : Text) : Text :=
  if '.' ∈ filename then (filename.rdropWhile (· != '.')).dropLast else filename

def IMAGENAME (h : Host) (filename : Text) : Text :=
  if (SUFFIX h filename).isSome then cutExtension filename else filename

/-- The operand of the tools: they want just one word. -/
def imageWord (h : Host) (filename : Text) : Option Word :=
  match h.glob.expand (IMAGENAME h filename) with
  | [w] => if h.opens w then some w else none
  | _ => none

def refuses (h : Host) (s : Suffix) (w : Word) (d : Disk) : Bool :=
  h.knows s w || (d (placeOf (w ++ s.text))).isSome

/-- `gzip -v` removes its input, and `bzip2 -vk` keeps it. -/
def squeeze (h : Host) (s : Suffix) (w : Word) (d : Disk) : Disk :=
  if refuses h s w d then d
  else
    let d' := rewrite (placeOf (w ++ s.text)) (fun _ => h.compress s w ((d (placeOf w)).getD [])) d
    match s with
    | .gz => remove (placeOf w) d'
    | .bz2 => d'

/-- `truncate -s 3500m`. -/
def imageSize : ℕ := 3500 * 1024 * 1024

/-- A run in which nothing but a compressor refuses its work: the image as it was formatted, and
the files at the end. -/
def mksdImage (h : Host) (format : Bytes → Bytes) (filename : Text) (d : Disk) :
    Option (Bytes × Disk) := do
  let w ← imageWord h filename
  let d := rewrite (placeOf w) id d  -- `touch`
  let d := rewrite (placeOf w) (truncate imageSize) d
  let d := rewrite (placeOf w) format d
  return ((d (placeOf w)).getD [],
    match SUFFIX h filename with
    | some s => squeeze h s w d
    | none => d)

def endingOf (filename : Text) : Option Suffix :=
  if endsWith Suffix.gz.text filename then some .gz
  else if endsWith Suffix.bz2.text filename then some .bz2
  else none

def unpacked (h : Host) (filename : Text) (d : Disk) : Option Bytes :=
  (d (placeOf filename)).bind fun c =>
    match endingOf filename with
    | some s => h.decompress s c
    | none => some c

/-- Whatever the image is, every run leaves it in `FILENAME`. -/
def Packs (h : Host) (filename : Text) (d : Disk) : Prop :=
  ∀ format, (∀ c, (format c).length = c.length) → ∀ image after,
    mksdImage h format filename d = some (image, after) → unpacked h filename after = some image

def Compresses (h : Host) (filename : Text) (d : Disk) (w : Word) (s : Suffix) : Prop :=
  SUFFIX h filename = some s ∧ refuses h s w d = false

/-- `FILENAME` is the file that a compressor makes; or it is the image itself, which `gzip` does
not remove, and is called like an image. -/
def Lands (h : Host) (filename : Text) (d : Disk) (w : Word) : Prop :=
  (∃ s, Compresses h filename d w s ∧ placeOf filename = placeOf (w ++ s.text)) ∨
    (¬ Compresses h filename d w .gz ∧ placeOf filename = placeOf w ∧ endingOf filename = none)

theorem slash_notMem_text (s : Suffix) : '/' ∉ s.text := by
  cases s <;> decide

theorem text_ne_nil (s : Suffix) : s.text ≠ [] := by
  cases s <;> decide

theorem placeOf_text_ne (w : Word) (s : Suffix) : placeOf (w ++ s.text) ≠ placeOf w := by
  intro h
  rw [placeOf_append w (slash_notMem_text s)] at h
  have hname := congrArg Shell.Place.name h
  exact text_ne_nil s (List.append_right_eq_self.mp hname)

theorem endingOf_congr {p q : Text} (h : placeOf p = placeOf q) : endingOf p = endingOf q := by
  simp only [endingOf, endsWith_name (slash_notMem_text _) p,
    endsWith_name (slash_notMem_text _) q, h]

theorem endingOf_append (w : Word) (s : Suffix) : endingOf (w ++ s.text) = some s := by
  have hself : endsWith s.text (w ++ s.text) = true :=
    List.isSuffixOf_iff_suffix.mpr (List.suffix_append w s.text)
  cases s with
  | gz => rw [endingOf, if_pos hself]
  | bz2 =>
    have hgz : ¬ endsWith Suffix.gz.text (w ++ Suffix.bz2.text) = true := by
      intro h
      have hlast := (List.isSuffixOf_iff_suffix.mp h).getLast (by decide)
      simp [Suffix.text] at hlast
    rw [endingOf, if_neg hgz, if_pos hself]

theorem endsWith_of_endingOf {filename : Text} {s : Suffix} (h : endingOf filename = some s) :
    endsWith s.text filename = true := by
  unfold endingOf at h
  split at h
  · cases h
    assumption
  · split at h
    · cases h
      assumption
    · cases h

theorem cutExtension_append (w : Word) (s : Suffix) : cutExtension (w ++ s.text) = w := by
  cases s <;> simp [cutExtension, Suffix.text, List.rdropWhile]

theorem cutExtension_append_text {filename : Text} {s : Suffix}
    (h : endingOf filename = some s) : cutExtension filename ++ s.text = filename := by
  obtain ⟨w, rfl⟩ := List.isSuffixOf_iff_suffix.mp (endsWith_of_endingOf h)
  rw [cutExtension_append]

def formatted (format : Bytes → Bytes) (w : Word) (d : Disk) : Bytes :=
  format (truncate imageSize ((d (placeOf w)).getD []))

theorem length_formatted {format : Bytes → Bytes} (hf : ∀ c, (format c).length = c.length)
    (w : Word) (d : Disk) : (formatted format w d).length = imageSize := by
  rw [formatted, hf, length_truncate]

def filesAfter (h : Host) (filename : Text) (w : Word) (image : Bytes) (d : Disk) : Disk :=
  match SUFFIX h filename with
  | some s => squeeze h s w (rewrite (placeOf w) (fun _ => image) d)
  | none => rewrite (placeOf w) (fun _ => image) d

theorem mksdImage_of_word {h : Host} {filename : Text} {w : Word}
    (hw : imageWord h filename = some w) (format : Bytes → Bytes) (d : Disk) :
    mksdImage h format filename d =
      some (formatted format w d, filesAfter h filename w (formatted format w d) d) := by
  have hdisk : rewrite (placeOf w) format (rewrite (placeOf w) (truncate imageSize)
      (rewrite (placeOf w) id d)) = rewrite (placeOf w) (fun _ => formatted format w d) d := by
    rw [rewrite_rewrite, rewrite_rewrite]
    simp only [rewrite, formatted, id]
  simp only [mksdImage, hw, Option.bind_eq_bind, Option.bind_some, Option.pure_def, hdisk]
  rw [rewrite_self, Option.getD_some, filesAfter]

theorem refuses_rewrite (h : Host) (s : Suffix) (w : Word) (f : Bytes → Bytes) (d : Disk) :
    refuses h s w (rewrite (placeOf w) f d) = refuses h s w d := by
  rw [refuses, rewrite_of_ne (placeOf_text_ne w s), refuses]

theorem squeeze_of_refuses {h : Host} {s : Suffix} {w : Word} {d : Disk}
    (hr : refuses h s w d = true) : squeeze h s w d = d := by
  rw [squeeze, if_pos hr]

theorem squeeze_output {h : Host} {s : Suffix} {w : Word} {d : Disk}
    (hr : refuses h s w d = false) : squeeze h s w d (placeOf (w ++ s.text)) =
      some (h.compress s w ((d (placeOf w)).getD [])) := by
  have hne := placeOf_text_ne w s
  rw [squeeze, hr]
  cases s with
  | gz => simp [remove, Function.update_of_ne hne, rewrite_self]
  | bz2 => simp [rewrite_self]

theorem squeeze_input {h : Host} {s : Suffix} {w : Word} {d : Disk}
    (hr : refuses h s w d = false) :
    squeeze h s w d (placeOf w) = if s = .gz then none else d (placeOf w) := by
  have hne := placeOf_text_ne w s
  rw [squeeze, hr]
  cases s with
  | gz => simp [remove]
  | bz2 => simp [rewrite_of_ne hne.symm]

theorem squeeze_other {h : Host} {s : Suffix} {w : Word} {d : Disk} {p : Shell.Place}
    (hin : p ≠ placeOf w) (hout : p ≠ placeOf (w ++ s.text)) : squeeze h s w d p = d p := by
  unfold squeeze
  split
  · rfl
  · cases s with
    | gz => simp [remove, Function.update_of_ne hin, rewrite_of_ne hout]
    | bz2 => simp [rewrite_of_ne hout]

section
variable {h : Host} {filename : Text} {w : Word} (image : Bytes) {d : Disk}

theorem filesAfter_output {s : Suffix} (hs : Compresses h filename d w s) :
    filesAfter h filename w image d (placeOf (w ++ s.text)) = some (h.compress s w image) := by
  have hr : refuses h s w (rewrite (placeOf w) (fun _ => image) d) = false := by
    rw [refuses_rewrite, hs.2]
  simp only [filesAfter, hs.1]
  rw [squeeze_output hr, rewrite_self, Option.getD_some]

theorem filesAfter_removed (hs : Compresses h filename d w .gz) :
    filesAfter h filename w image d (placeOf w) = none := by
  have hr : refuses h .gz w (rewrite (placeOf w) (fun _ => image) d) = false := by
    rw [refuses_rewrite, hs.2]
  simp only [filesAfter, hs.1]
  rw [squeeze_input hr, if_pos rfl]

theorem filesAfter_image (hs : ¬ Compresses h filename d w .gz) :
    filesAfter h filename w image d (placeOf w) = some image := by
  cases hsuffix : SUFFIX h filename with
  | none => simp only [filesAfter, hsuffix, rewrite_self]
  | some s =>
    simp only [filesAfter, hsuffix]
    cases hr : refuses h s w (rewrite (placeOf w) (fun _ => image) d) with
    | true => rw [squeeze_of_refuses hr, rewrite_self]
    | false =>
      have hgz : s ≠ .gz := by
        rintro rfl
        rw [refuses_rewrite] at hr
        exact hs ⟨hsuffix, hr⟩
      rw [squeeze_input hr, if_neg hgz, rewrite_self]

theorem filesAfter_other {p : Shell.Place} (hin : p ≠ placeOf w)
    (hout : ∀ s, Compresses h filename d w s → p ≠ placeOf (w ++ s.text)) :
    filesAfter h filename w image d p = d p := by
  cases hsuffix : SUFFIX h filename with
  | none => simp only [filesAfter, hsuffix, rewrite_of_ne hin]
  | some s =>
    simp only [filesAfter, hsuffix]
    cases hr : refuses h s w (rewrite (placeOf w) (fun _ => image) d) with
    | true => rw [squeeze_of_refuses hr, rewrite_of_ne hin]
    | false =>
      rw [refuses_rewrite] at hr
      rw [squeeze_other hin (hout s ⟨hsuffix, hr⟩), rewrite_of_ne hin]

end

/-- A run can format every image of its size. -/
theorem packs_iff_filesAfter {h : Host} {filename : Text} {w : Word} (d : Disk)
    (hw : imageWord h filename = some w) : Packs h filename d ↔
      ∀ image : Bytes, image.length = imageSize →
        unpacked h filename (filesAfter h filename w image d) = some image := by
  constructor
  · intro hpacks image hlen
    let format : Bytes → Bytes := fun c => if c.length = imageSize then image else c
    have hformat : ∀ c, (format c).length = c.length := by
      intro c
      by_cases hc : c.length = imageSize
      · simp only [format, if_pos hc, hlen, hc]
      · simp only [format, if_neg hc]
    have himage : formatted format w d = image := by
      rw [formatted]
      exact if_pos (length_truncate _ _)
    have hrun := mksdImage_of_word hw format d
    rw [himage] at hrun
    exact hpacks format hformat _ _ hrun
  · intro hleft format hf image after hrun
    rw [mksdImage_of_word hw, Option.some.injEq, Prod.mk.injEq] at hrun
    obtain ⟨rfl, rfl⟩ := hrun
    exact hleft _ (length_formatted hf w d)

theorem unpacked_of_lands {h : Host} {filename : Text} {w : Word} {d : Disk}
    (hl : Lands h filename d w) (image : Bytes) :
    unpacked h filename (filesAfter h filename w image d) = some image := by
  rcases hl with ⟨s, hs, hplace⟩ | ⟨hgz, hplace, hending⟩
  · have hending : endingOf filename = some s := by
      rw [endingOf_congr hplace, endingOf_append]
    rw [unpacked, hplace, filesAfter_output image hs, hending]
    exact h.decompress_compress s w image
  · rw [unpacked, hplace, filesAfter_image image hgz, hending]
    rfl

theorem lands_of_unpacked {h : Host} {filename : Text} {w : Word} {d : Disk}
    (hu : ∀ image : Bytes, image.length = imageSize →
      unpacked h filename (filesAfter h filename w image d) = some image) :
    Lands h filename d w := by
  have hzeros := hu (zeros imageSize) List.length_replicate
  by_cases hout : ∃ s, Compresses h filename d w s ∧ placeOf filename = placeOf (w ++ s.text)
  · exact .inl hout
  · by_cases hin : placeOf filename = placeOf w
    · right
      have hgz : ¬ Compresses h filename d w .gz := by
        intro hgz
        rw [unpacked, hin, filesAfter_removed _ hgz] at hzeros
        cases hzeros
      refine ⟨hgz, hin, ?_⟩
      -- no compressor takes zeros for its own output
      rw [unpacked, hin, filesAfter_image _ hgz, Option.bind_some] at hzeros
      cases he : endingOf filename with
      | none => rfl
      | some s =>
        rw [he] at hzeros
        cases (h.decompress_zeros s imageSize).symm.trans hzeros
    · -- the file is as it was before the run, whatever the image is
      have hkept : ∀ image, filesAfter h filename w image d (placeOf filename) =
          d (placeOf filename) :=
        fun image => filesAfter_other image hin fun s hs hplace => hout ⟨s, hs, hplace⟩
      have hones := hu (List.replicate imageSize 1) List.length_replicate
      rw [unpacked, hkept] at hzeros hones
      have heq := Option.some.inj (hzeros.symm.trans hones)
      have hsize : imageSize ≠ 0 := by decide
      have hbyte : (0 : UInt8) = 1 := (List.replicate_inj.mp heq).2.resolve_left hsize
      exact absurd hbyte (by decide)

theorem packs_iff_lands {h : Host} {filename : Text} {w : Word} (d : Disk)
    (hw : imageWord h filename = some w) : Packs h filename d ↔ Lands h filename d w := by
  rw [packs_iff_filesAfter d hw]
  exact ⟨lands_of_unpacked, fun hl image _ => unpacked_of_lands hl image⟩

/-- `FILENAME` gets the image of every run exactly when the run lands there. -/
theorem packs_iff (h : Host) (filename : Text) (d : Disk) :
    Packs h filename d ↔ ∀ w, imageWord h filename = some w → Lands h filename d w := by
  constructor
  · intro hpacks w hw
    exact (packs_iff_lands d hw).mp hpacks
  · intro hlands
    cases hw : imageWord h filename with
    | some w => exact (packs_iff_lands d hw).mpr (hlands w hw)
    | none =>
      intro format _ image after hrun
      rw [mksdImage, hw] at hrun
      cases hrun

structure Ordinary (h : Host) (filename : Text) : Prop where
  plain : IsPlain filename
  literal : IsLiteral filename
  no_option : filename.head? ≠ some '-'
  image_ne_nil : IMAGENAME h filename ≠ []
  opens : h.opens (IMAGENAME h filename) = true

theorem echo_word (escapes : Text → Text) {w : Word} (hw : w.head? ≠ some '-') :
    echo escapes [w] = w ++ ['\n'] := by
  have hoption : isEchoOption w = false := by
    unfold isEchoOption
    split
    · exact absurd rfl hw
    · rfl
  simp [echo, hoption]

theorem holds_not_empty (file : FileTests) (w : Word) :
    holds file ["!".toList, "-z".toList, w] = (w != []) := by
  cases w <;> rfl

section
variable {h : Host} {filename : Text} (ho : Ordinary h filename)
include ho

theorem hasSuffix_of_ordinary (s : Suffix) : hasSuffix h filename s = endsWith s.text filename := by
  have hnewline : '\n' ∉ filename := fun hm => absurd (ho.plain.2 _ hm) (by decide)
  have hlines : lines (filename ++ ['\n']) = [filename] := by
    rw [lines_append filename [] hnewline]
    rfl
  have hexpand : h.glob.expand filename = [filename] :=
    h.glob.expand_literal ho.plain ho.literal
  rw [hasSuffix, hexpand, echo_word _ ho.no_option, grep, hlines]
  cases hends : endsWith s.text filename with
  | true =>
    have hline : unlines [filename] = filename ++ ['\n'] := by
      rw [unlines_cons]
      rfl
    rw [List.filter_cons_of_pos hends, List.filter_nil, hline, substitute_line hnewline, hexpand,
      holds_not_empty]
    exact bne_iff_ne.mpr ho.plain.1
  | false =>
    rw [List.filter_cons_of_neg (by simp [hends]), List.filter_nil]
    rfl

theorem SUFFIX_of_ordinary : SUFFIX h filename = endingOf filename := by
  rw [SUFFIX, hasSuffix_of_ordinary ho, hasSuffix_of_ordinary ho, endingOf]

theorem imageWord_of_ordinary : imageWord h filename = some (IMAGENAME h filename) := by
  have hstart : IMAGENAME h filename <+: filename := by
    unfold IMAGENAME cutExtension
    split
    · split
      · exact (List.dropLast_prefix _).trans (List.rdropWhile_prefix _ _)
      · exact List.prefix_rfl
    · exact List.prefix_rfl
  have hexpand : h.glob.expand (IMAGENAME h filename) = [IMAGENAME h filename] :=
    h.glob.expand_literal ⟨ho.image_ne_nil, fun c hc => ho.plain.2 c (hstart.subset hc)⟩
      fun c hc => ho.literal c (hstart.subset hc)
  rw [imageWord, hexpand]
  exact if_pos ho.opens

theorem lands_of_no_ending (d : Disk) (hending : endingOf filename = none) :
    Lands h filename d filename := by
  refine .inr ⟨?_, rfl, hending⟩
  rintro ⟨hgz, -⟩
  rw [SUFFIX_of_ordinary ho, hending] at hgz
  cases hgz

theorem lands_iff_of_ending (d : Disk) {s : Suffix} (hending : endingOf filename = some s) :
    Lands h filename d (cutExtension filename) ↔
      d (placeOf filename) = none ∧ h.knows s (cutExtension filename) = false := by
  have hback := cutExtension_append_text hending
  have hsuffix : SUFFIX h filename = some s := by
    rw [SUFFIX_of_ordinary ho, hending]
  have hrefuses : refuses h s (cutExtension filename) d = false ↔
      d (placeOf filename) = none ∧ h.knows s (cutExtension filename) = false := by
    rw [refuses, hback, Bool.or_eq_false_iff, and_comm, Option.isSome_eq_false_iff,
      Option.isNone_iff_eq_none]
  rw [← hrefuses]
  constructor
  · rintro (⟨s', ⟨hs, hr⟩, -⟩ | ⟨-, -, hnone⟩)
    · rw [hsuffix, Option.some.injEq] at hs
      rw [hs]
      exact hr
    · rw [hending] at hnone
      cases hnone
  · intro hr
    exact .inl ⟨s, ⟨hsuffix, hr⟩, by rw [hback]⟩

/-- The script does its work for an ordinary name without a suffix, and for one with a suffix if
the file is not there yet and the rest of the name has no suffix that the compressor knows. -/
theorem packs_iff_of_ordinary (d : Disk) : Packs h filename d ↔ ∀ s, endingOf filename = some s →
    d (placeOf filename) = none ∧ h.knows s (cutExtension filename) = false := by
  rw [packs_iff_lands d (imageWord_of_ordinary ho), IMAGENAME, SUFFIX_of_ordinary ho]
  cases hending : endingOf filename with
  | none => exact iff_of_true (lands_of_no_ending ho d hending) fun s hs => by cases hs
  | some s =>
    have hlands := lands_iff_of_ending ho d hending
    constructor
    · intro hl s' hs
      cases hs
      exact hlands.mp hl
    · intro hfree
      exact hlands.mpr (hfree s rfl)

end

def storing : Host where
  glob := noMatches
  file := noFiles
  escapes := id
  opens _ := true
  compress _ _ c := 1 :: c
  decompress _ c := if c.head? = some 1 then some c.tail else none
  knows _ _ := false
  decompress_compress _ _ _ := rfl
  decompress_zeros _ n := by cases n <;> rfl

def earlier (filename : Text) : Disk := fun p =>
  if p = placeOf filename then some (1 :: List.replicate imageSize 7) else none

/-- The compressors leave the image of the earlier run. -/
theorem not_packs_earlier :
    ¬ Packs storing "sdcard.img.gz".toList (earlier "sdcard.img.gz".toList) ∧
      ¬ Packs storing "sdcard.img.bz2".toList (earlier "sdcard.img.bz2".toList) := by
  have hgz : Ordinary storing "sdcard.img.gz".toList :=
    ⟨by decide, isLiteral_of_all (by decide), by decide, by decide, rfl⟩
  have hbz2 : Ordinary storing "sdcard.img.bz2".toList :=
    ⟨by decide, isLiteral_of_all (by decide), by decide, by decide, rfl⟩
  constructor
  · intro h
    have hnone := ((packs_iff_of_ordinary hgz _).mp h .gz (by decide)).1
    rw [earlier, if_pos rfl] at hnone
    cases hnone
  · intro h
    have hnone := ((packs_iff_of_ordinary hbz2 _).mp h .bz2 (by decide)).1
    rw [earlier, if_pos rfl] at hnone
    cases hnone

end ChronosUpdates.Mksd
