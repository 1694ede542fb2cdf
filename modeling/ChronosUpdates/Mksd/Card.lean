import ChronosUpdates.Mksd.Staging
import ChronosUpdates.Mksd.Compression
import ChronosUpdates.Runs

namespace ChronosUpdates.Mksd
open Shell Rsync PartitionTable Runs
open Mkimage (truncate zeros length_truncate)

inductive FsType
  | vfat
  | ext3
deriving DecidableEq, Repr

structure FileSystem (γ : Type*) where
  type : FsType
  files : FileMap γ

/-- A line in the input of `sfdisk`; without `size=` the partition takes the rest of the disk. -/
structure SfdiskLine where
  start : ℕ
  size : Option ℕ
  type : UInt8
  bootable : Bool
deriving DecidableEq

/-- `sfdisk`; `mkfs`, `mount`, `rsync -a` and `umount` of a partition, by its bytes; and the files
that a file system shows when it is mounted. `fits` holds of the files for which a file system of
so many bytes has the room and the names. -/
structure CardTools (γ : Type*) where
  sfdisk : List SfdiskLine → Bytes → Bytes
  install : FileSystem γ → Bytes → Bytes
  shown : Bytes → Option (FileSystem γ)
  fits : FileSystem γ → ℕ → Prop
  length_sfdisk : ∀ ls d, (sfdisk ls d).length = d.length
  partitions_sfdisk : ∀ p q d, p.Fits d → q.Fits d → p.start + p.size ≤ q.start →
    d.length = (q.start + q.size) * sectorSize → q.start + q.size ≤ 2 ^ 32 →
      partitions (sfdisk [⟨p.start, p.size, p.type, p.bootable⟩,
        ⟨q.start, none, q.type, q.bootable⟩] d) = [p, q]
  length_install : ∀ f e, (install f e).length = e.length
  shown_install : ∀ f e, fits f e.length → shown (install f e) = some f

variable {γ : Type*} (k : CardTools γ)

/-- `dd if=/dev/zero bs=1k count=1024` over a block device. -/
def blankFront (d : Bytes) : Bytes := zeros (min (1024 * 1024) d.length) ++ d.drop (1024 * 1024)

def sfdiskLines : List SfdiskLine :=
  [⟨63, some 80262, 0x0c, true⟩, ⟨80325, none, 0x83, false⟩]

/-- How the commands on one partition end: all of them well, or with anything left there. -/
inductive Outcome
  | complete
  | failed (rest : Bytes)

def fill (f : FileSystem γ) : Outcome → Bytes → Bytes
  | .complete, e => k.install f e
  | .failed rest, e => truncate e.length rest

/-- The commands on partition `i`, which has a device if the table lists it. -/
def fillPart (i : ℕ) (f : FileSystem γ) (o : Outcome) (d : Bytes) : Bytes :=
  match (partitions d)[i]? with
  | some p => putExtent p (fill k f o (extent p d)) d
  | none => d

/-- `mksd-format.sh` on a card, whose partitions are known to the kernel after `partprobe`. -/
def formatCard (sysroot : FileMap γ) (boot rootfs : Outcome) (d : Bytes) : Bytes :=
  let d := k.sfdisk sfdiskLines (blankFront d)
  let d := fillPart k 0 ⟨.vfat, (installTree sysroot).boot⟩ boot d
  fillPart k 1 ⟨.ext3, (installTree sysroot).root⟩ rootfs d

/-- `mksd-loopdev.sh`: `dd` makes the image file anew, nothing is copied, and the script stops
where a `mkfs` fails. -/
def loopdevCard (boot rootfs : Outcome) : Bytes :=
  let d := k.sfdisk sfdiskLines (truncate imageSize (zeros (1024 * 1024)))
  let d := fillPart k 0 ⟨.vfat, fun _ => none⟩ boot d
  match boot with
  | .complete => fillPart k 1 ⟨.ext3, fun _ => none⟩ rootfs d
  | .failed _ => d

/-- The device that `mksd-rootfs.sh` is given: the card, or one of its partitions. -/
def rootfsCard (part : Option ℕ) (sysroot : FileMap γ) (o : Outcome) (d : Bytes) : Bytes :=
  match part with
  | none => fill k ⟨.ext3, sysroot⟩ o d
  | some i => fillPart k i ⟨.ext3, sysroot⟩ o d

/-- A run of a script, with the staging tree that it finds. -/
inductive CardRun (γ : Type*)
  | format (sysroot : FileMap γ) (boot rootfs : Outcome)
  | loopdev (boot rootfs : Outcome)
  | rootfs (part : Option ℕ) (sysroot : FileMap γ) (o : Outcome)

def runScript (d : Bytes) : CardRun γ → Bytes
  | .format sysroot boot rootfs => formatCard k sysroot boot rootfs d
  | .loopdev boot rootfs => loopdevCard k boot rootfs
  | .rootfs part sysroot o => rootfsCard k part sysroot o d

structure Contents (γ : Type*) where
  boot : Option (FileSystem γ)
  root : Option (FileSystem γ)

def outcome (f : FileSystem γ) : Outcome → Option (FileSystem γ)
  | .complete => some f
  | .failed _ => none

/-- What a run leaves, on a card partitioned by the scripts or on an unknown one. -/
def contentsAfter (c : Option (Contents γ)) : CardRun γ → Option (Contents γ)
  | .format sysroot boot rootfs => some
    ⟨outcome ⟨.vfat, (installTree sysroot).boot⟩ boot,
      outcome ⟨.ext3, (installTree sysroot).root⟩ rootfs⟩
  | .loopdev .complete rootfs => some
    ⟨some ⟨.vfat, fun _ => none⟩, outcome ⟨.ext3, fun _ => none⟩ rootfs⟩
  | .loopdev (.failed _) _ => some ⟨none, none⟩
  | .rootfs none _ _ => none
  | .rootfs (some 0) sysroot o => c.map fun c => { c with boot := outcome ⟨.ext3, sysroot⟩ o }
  | .rootfs (some 1) sysroot o => c.map fun c => { c with root := outcome ⟨.ext3, sysroot⟩ o }
  | .rootfs (some _) _ _ => c

def bootPartition : Partition := ⟨63, 80262, 0x0c, true⟩

def rootfsPartition (n : ℕ) : Partition := ⟨80325, n - 80325, 0x83, false⟩

/-- The partition shows the file system, if it is known. -/
def Shows (p : Partition) (d : Bytes) (f : Option (FileSystem γ)) : Prop :=
  ∀ x, f = some x → k.shown (extent p d) = some x

/-- The card has `n` sectors, the table of the scripts and the known file systems. -/
structure Known (n : ℕ) (d : Bytes) (c : Contents γ) : Prop where
  table : partitions d = [bootPartition, rootfsPartition n]
  boot : Shows k bootPartition d c.boot
  root : Shows k (rootfsPartition n) d c.root

structure Tracks (n : ℕ) (d : Bytes) (c : Option (Contents γ)) : Prop where
  length : d.length = n * sectorSize
  known : ∀ x, c = some x → Known k n d x

def imageSectors : ℕ := 3500 * 1024 * 2

/-- A copy ends well only if the partition can hold it. -/
def FitsIn (p : Partition) (f : FileSystem γ) (o : Outcome) : Prop :=
  o = .complete → k.fits f (p.size * sectorSize)

/-- On a card of `n` sectors; the image files have just one size. -/
def Possible (n : ℕ) : CardRun γ → Prop
  | .format sysroot boot rootfs =>
    FitsIn k bootPartition ⟨.vfat, (installTree sysroot).boot⟩ boot ∧
      FitsIn k (rootfsPartition n) ⟨.ext3, (installTree sysroot).root⟩ rootfs
  | .loopdev boot rootfs => n = imageSectors ∧
    FitsIn k bootPartition ⟨.vfat, fun _ => none⟩ boot ∧
      FitsIn k (rootfsPartition n) ⟨.ext3, fun _ => none⟩ rootfs
  | .rootfs (some 0) sysroot o => FitsIn k bootPartition ⟨.ext3, sysroot⟩ o
  | .rootfs (some 1) sysroot o => FitsIn k (rootfsPartition n) ⟨.ext3, sysroot⟩ o
  | .rootfs _ _ _ => True

theorem length_blankFront (d : Bytes) : (blankFront d).length = d.length := by
  rw [blankFront, zeros, List.length_append, List.length_replicate, List.length_drop]
  omega

variable {k}

theorem length_fill (f : FileSystem γ) (o : Outcome) (e : Bytes) :
    (fill k f o e).length = e.length := by
  cases o with
  | complete => exact k.length_install f e
  | failed rest => exact length_truncate _ _

theorem shown_fill {f : FileSystem γ} {o : Outcome} {e : Bytes}
    (hfits : o = .complete → k.fits f e.length) {x : FileSystem γ} (hx : outcome f o = some x) :
    k.shown (fill k f o e) = some x := by
  cases o with
  | complete =>
    cases hx
    exact k.shown_install f e (hfits rfl)
  | failed rest => cases hx

theorem length_fillPart (i : ℕ) (f : FileSystem γ) (o : Outcome) (d : Bytes) :
    (fillPart k i f o d).length = d.length := by
  unfold fillPart
  split
  · exact length_putExtent (length_fill f o _)
  · rfl

section
variable {n : ℕ} {d : Bytes} {c : Contents γ} (hn : 80325 < n) (hlen : d.length = n * sectorSize)
include hn hlen

theorem bootPartition_inside : (bootPartition.start + bootPartition.size) * sectorSize ≤
    d.length := by
  rw [hlen]
  exact Nat.mul_le_mul_right _ hn.le

theorem rootfsPartition_inside :
    ((rootfsPartition n).start + (rootfsPartition n).size) * sectorSize ≤ d.length := by
  rw [hlen]
  apply Nat.mul_le_mul_right
  show 80325 + (n - 80325) ≤ n
  omega

/-- The first partition of a card is filled, and the second one stays. -/
theorem Known.fillBoot (h : Known k n d c) {f : FileSystem γ} {o : Outcome}
    (hfits : FitsIn k bootPartition f o) :
    Known k n (fillPart k 0 f o d) { c with boot := outcome f o } := by
  have hin := bootPartition_inside hn hlen
  have hextent := length_extent hin
  set e := fill k f o (extent bootPartition d) with he
  have helen : e.length = bootPartition.size * sectorSize := by rw [he, length_fill, hextent]
  have hput : fillPart k 0 f o d = putExtent bootPartition e d := by
    simp only [fillPart, h.table, List.getElem?_cons_zero, he]
  rw [hput]
  refine ⟨(partitions_putExtent hin (by decide)).trans h.table, fun x hx => ?_, fun x hx => ?_⟩
  · -- a copy that has failed leaves nothing to know
    rw [extent_putExtent hin helen, he]
    exact shown_fill (fun ho => hextent ▸ hfits ho) hx
  · rw [extent_putExtent_of_after hin helen le_rfl]
    exact h.root x hx

theorem Known.fillRoot (h : Known k n d c) {f : FileSystem γ} {o : Outcome}
    (hfits : FitsIn k (rootfsPartition n) f o) :
    Known k n (fillPart k 1 f o d) { c with root := outcome f o } := by
  have hin := rootfsPartition_inside hn hlen
  have hextent := length_extent hin
  set e := fill k f o (extent (rootfsPartition n) d) with he
  have helen : e.length = (rootfsPartition n).size * sectorSize := by rw [he, length_fill, hextent]
  have hput : fillPart k 1 f o d = putExtent (rootfsPartition n) e d := by
    simp only [fillPart, h.table, List.getElem?_cons_succ, List.getElem?_cons_zero, he]
  have hstart : 0 < (rootfsPartition n).start := (by decide : 0 < 80325)
  rw [hput]
  refine ⟨(partitions_putExtent hin hstart).trans h.table, fun x hx => ?_, fun x hx => ?_⟩
  · rw [extent_putExtent_of_before hin le_rfl]
    exact h.boot x hx
  · rw [extent_putExtent hin helen, he]
    exact shown_fill (fun ho => hextent ▸ hfits ho) hx

theorem partitions_sfdiskLines (hmax : n ≤ 2 ^ 32) :
    partitions (k.sfdisk sfdiskLines d) = [bootPartition, rootfsPartition n] := by
  have hend : 80325 + (n - 80325) = n := by omega
  apply k.partitions_sfdisk bootPartition (rootfsPartition n) d
  · exact ⟨by decide, by decide, by decide, by decide, bootPartition_inside hn hlen⟩
  · refine ⟨(by decide : (0x83 : UInt8) ≠ 0), ?_, (by decide : (80325 : ℕ) < 2 ^ 32), ?_,
      rootfsPartition_inside hn hlen⟩
    · show 0 < n - 80325
      omega
    · show n - 80325 < 2 ^ 32
      omega
  · exact le_rfl
  · show d.length = (80325 + (n - 80325)) * sectorSize
    rw [hend, hlen]
  · show 80325 + (n - 80325) ≤ 2 ^ 32
    rwa [hend]

theorem tracks_sfdisk (hmax : n ≤ 2 ^ 32) :
    Tracks k n (k.sfdisk sfdiskLines d) (some ⟨none, none⟩) := by
  refine ⟨(k.length_sfdisk _ _).trans hlen, ?_⟩
  rintro _ ⟨⟩
  exact ⟨partitions_sfdiskLines hn hlen hmax, fun _ hx => (nomatch hx), fun _ hx => (nomatch hx)⟩

end

section
variable {n : ℕ} {d : Bytes} {c : Option (Contents γ)}

theorem Tracks.fillOther (h : Tracks k n d c) {i : ℕ} (hi : 2 ≤ i) (f : FileSystem γ)
    (o : Outcome) : Tracks k n (fillPart k i f o d) c := by
  refine ⟨(length_fillPart _ _ _ _).trans h.length, fun x hx => ?_⟩
  have hknown := h.known x hx
  have hnone : (partitions d)[i]? = none := by
    rw [hknown.table]
    exact List.getElem?_eq_none hi
  have hsame : fillPart k i f o d = d := by simp only [fillPart, hnone]
  rwa [hsame]

variable (hn : 80325 < n)
include hn

theorem Tracks.fillBoot (h : Tracks k n d c) {f : FileSystem γ} {o : Outcome}
    (hfits : FitsIn k bootPartition f o) :
    Tracks k n (fillPart k 0 f o d) (c.map fun c => { c with boot := outcome f o }) := by
  refine ⟨(length_fillPart _ _ _ _).trans h.length, fun x hx => ?_⟩
  obtain ⟨c, hc, rfl⟩ := Option.map_eq_some_iff.mp hx
  exact (h.known c hc).fillBoot hn h.length hfits

theorem Tracks.fillRoot (h : Tracks k n d c) {f : FileSystem γ} {o : Outcome}
    (hfits : FitsIn k (rootfsPartition n) f o) :
    Tracks k n (fillPart k 1 f o d) (c.map fun c => { c with root := outcome f o }) := by
  refine ⟨(length_fillPart _ _ _ _).trans h.length, fun x hx => ?_⟩
  obtain ⟨c, hc, rfl⟩ := Option.map_eq_some_iff.mp hx
  exact (h.known c hc).fillRoot hn h.length hfits

theorem tracks_formatCard (hmax : n ≤ 2 ^ 32) {sysroot : FileMap γ} {boot rootfs : Outcome}
    (hpossible : Possible k n (.format sysroot boot rootfs)) (hlen : d.length = n * sectorSize) :
    Tracks k n (formatCard k sysroot boot rootfs d)
      (contentsAfter none (.format sysroot boot rootfs)) := by
  have hblank : (blankFront d).length = n * sectorSize := by rw [length_blankFront, hlen]
  exact ((tracks_sfdisk hn hblank hmax).fillBoot hn hpossible.1).fillRoot hn hpossible.2

theorem tracks_loopdevCard {boot rootfs : Outcome}
    (hpossible : Possible k n (.loopdev boot rootfs)) :
    Tracks k n (loopdevCard k boot rootfs) (contentsAfter none (.loopdev boot rootfs)) := by
  obtain ⟨rfl, hboot, hrootfs⟩ := hpossible
  have hlen : (truncate imageSize (zeros (1024 * 1024))).length = imageSectors * sectorSize :=
    length_truncate _ _
  have hfilled := (tracks_sfdisk hn hlen (by decide)).fillBoot hn hboot
  cases boot with
  | complete => exact hfilled.fillRoot hn hrootfs
  | failed rest => exact hfilled

/-- What is known of a card stays right when a script runs. -/
theorem tracks_runScript (hmax : n ≤ 2 ^ 32) (h : Tracks k n d c) {r : CardRun γ}
    (hr : Possible k n r) : Tracks k n (runScript k d r) (contentsAfter c r) := by
  cases r with
  | format sysroot boot rootfs => exact tracks_formatCard hn hmax hr h.length
  | loopdev boot rootfs =>
    have hloopdev := tracks_loopdevCard hn hr
    cases boot <;> exact hloopdev
  | rootfs part sysroot o =>
    match part with
    -- the whole card is formatted, and its table is gone
    | none => exact ⟨(length_fill _ _ _).trans h.length, fun x hx => (nomatch hx)⟩
    | some 0 => exact h.fillBoot hn hr
    | some 1 => exact h.fillRoot hn hr
    | some (i + 2) => exact h.fillOther (by omega) _ o

end

/-- Any number of runs of the scripts on one card, on whichever of its partitions and whichever of
their copies fail: the bytes of the card have the table and the file systems that the last runs on
each partition have made. -/
theorem tracks_of_runs {n : ℕ} {d : Bytes} {c : Option (Contents γ)} (hn : 80325 < n)
    (hmax : n ≤ 2 ^ 32) (h : Tracks k n d c) {rs : List (CardRun γ)}
    (hrs : ∀ r ∈ rs, Possible k n r) :
    Tracks k n (rs.foldl (runScript k) d) (rs.foldl contentsAfter c) := by
  induction rs generalizing d c with
  | nil => exact h
  | cons r rs ih =>
    obtain ⟨hr, hrs⟩ := List.forall_mem_cons.mp hrs
    exact ih (tracks_runScript hn hmax h hr) hrs

def formatImage (k : CardTools γ) (sysroot : FileMap γ) (d : Bytes) : Bytes :=
  formatCard k sysroot .complete .complete d

/-- One run for the same `FILENAME`, with the staging tree of its time. -/
def makeImage (h : Host) (k : CardTools γ) (filename : Text) (d : Mkimage.Disk)
    (sysroot : FileMap γ) : Option Mkimage.Disk :=
  (mksdImage h (formatImage k sysroot) filename d).map Prod.snd

def TreeFits (k : CardTools γ) (sysroot : FileMap γ) : Prop :=
  Possible k imageSectors (.format sysroot .complete .complete)

/-- The image has the files of `boot/uboot/` on its boot partition, and all others on its root
partition. -/
def HoldsTree (k : CardTools γ) (sysroot : FileMap γ) (image : Bytes) : Prop :=
  ∃ boot root, Tracks k imageSectors image (some ⟨some ⟨.vfat, boot⟩, some ⟨.ext3, root⟩⟩) ∧
    (∀ p, p ≠ [] → boot p = sysroot (bootDir ++ p)) ∧ (∀ p, InBootDir p → root p = none) ∧
      ∀ p, ¬ InBootDir p → root p = sysroot p

theorem installTree_root_of_inBootDir (sysroot : FileMap γ) {p : Path} (hp : InBootDir p) :
    (installTree sysroot).root p = none := by
  obtain ⟨q, hq, rfl⟩ := hp
  have hout : transferred [Pattern.parse exclude] (bootDir ++ q) = false :=
    (transferred_exclude _).mpr ⟨[], q, hq, rfl⟩
  simp [installTree, rsync, hout]

theorem installTree_root_of_not_inBootDir {sysroot : FileMap γ} (hdeep : NoDeepBootDir sysroot)
    {p : Path} (hp : ¬ InBootDir p) : (installTree sysroot).root p = sysroot p := by
  simp only [installTree, rsync]
  split
  · rfl
  · rename_i hout
    obtain ⟨a, b, hb, rfl⟩ := (transferred_exclude p).mp (Bool.not_eq_true _ ▸ hout)
    exact (hdeep a b hb hp).symm

theorem holdsTree_formatImage {sysroot : FileMap γ} (hfits : TreeFits k sysroot)
    (hdeep : NoDeepBootDir sysroot) {d : Bytes} (hlen : d.length = imageSize) :
    HoldsTree k sysroot (formatImage k sysroot d) := by
  have hsectors : d.length = imageSectors * sectorSize := hlen
  refine ⟨_, _, tracks_formatCard (by decide) (by decide) hfits hsectors, fun p hp => ?_,
    fun p hp => installTree_root_of_inBootDir sysroot hp,
    fun p hp => installTree_root_of_not_inBootDir hdeep hp⟩
  have hboot : (installTree sysroot).boot = directory bootDir sysroot := rsync_nil _
  rw [hboot, directory, if_neg hp]

section
variable {h : Host} {filename : Text} (ho : Ordinary h filename)
include ho

theorem makeImage_eq (d : Mkimage.Disk) (sysroot : FileMap γ) :
    makeImage h k filename d sysroot = some (filesAfter h filename (IMAGENAME h filename)
      (formatted (formatImage k sysroot) (IMAGENAME h filename) d) d) := by
  rw [makeImage, mksdImage_of_word (imageWord_of_ordinary ho), Option.map_some]

/-- Once there is a file that a compressor would have to replace, it stays. -/
theorem makeImage_keeps {s : Suffix} (hending : endingOf filename = some s) {d d' : Mkimage.Disk}
    {sysroot : FileMap γ} {c : Bytes} (hc : d (placeOf filename) = some c)
    (hrun : makeImage h k filename d sysroot = some d') : d' (placeOf filename) = some c := by
  have hsuffix : SUFFIX h filename = some s := by rw [SUFFIX_of_ordinary ho, hending]
  have hname : IMAGENAME h filename ++ s.text = filename := by
    rw [IMAGENAME, hsuffix]
    exact cutExtension_append_text hending
  rw [makeImage_eq ho, Option.some.injEq] at hrun
  rw [← hrun, ← hc]
  apply filesAfter_other
  · have hne := placeOf_text_ne (IMAGENAME h filename) s
    rwa [hname] at hne
  · intro s' hs' hplace
    have hrefuses := hs'.2
    rw [refuses, ← hplace, hc, Option.isSome_some, Bool.or_true] at hrefuses
    cases hrefuses

theorem unpacked_makeImage {d : Mkimage.Disk} (hfree : ∀ s, endingOf filename = some s →
      d (placeOf filename) = none ∧ h.knows s (cutExtension filename) = false)
    (sysroot : FileMap γ) : ∃ after image, makeImage h k filename d sysroot = some after ∧
      unpacked h filename after = some (formatImage k sysroot image) ∧
        image.length = imageSize := by
  have hlands : Lands h filename d (IMAGENAME h filename) := by
    rw [IMAGENAME, SUFFIX_of_ordinary ho]
    cases hending : endingOf filename with
    | none => exact lands_of_no_ending ho d hending
    | some s => exact (lands_iff_of_ending ho d hending).mpr (hfree s hending)
  refine ⟨_, truncate imageSize ((d (placeOf (IMAGENAME h filename))).getD []),
    makeImage_eq ho d sysroot, ?_, length_truncate _ _⟩
  rw [unpacked_of_lands hlands, formatted]

theorem last_of_runs (hending : endingOf filename = none) (d : Mkimage.Disk)
    {ts : List (FileMap γ)} (hts : ts ≠ []) :
    ∃ after image, run (makeImage h k filename) d ts = some after ∧
      unpacked h filename after = some (formatImage k (ts.getLast hts) image) ∧
        image.length = imageSize := by
  induction ts generalizing d with
  | nil => exact absurd rfl hts
  | cons t ts ih =>
    obtain ⟨d', image, hd', himage, hlen⟩ := @unpacked_makeImage _ k h filename ho d
      (fun s hs => (nomatch hending.symm.trans hs)) t
    by_cases hnil : ts = []
    · subst hnil
      exact ⟨d', image, (run_cons _).mpr ⟨d', hd', rfl⟩, himage, hlen⟩
    · obtain ⟨after, image', hrun, himage', hlen'⟩ := ih d' hnil
      rw [List.getLast_cons hnil]
      exact ⟨after, image', (run_cons _).mpr ⟨d', hd', hrun⟩, himage', hlen'⟩

theorem kept_of_runs {s : Suffix} (hending : endingOf filename = some s) {d : Mkimage.Disk}
    {c : Bytes} (hc : d (placeOf filename) = some c) (ts : List (FileMap γ)) :
    ∃ after, run (makeImage h k filename) d ts = some after ∧
      after (placeOf filename) = some c := by
  induction ts generalizing d with
  | nil => exact ⟨d, rfl, hc⟩
  | cons t ts ih =>
    have hd' := makeImage_eq (k := k) ho d t
    obtain ⟨after, hrun, hafter⟩ := ih (makeImage_keeps ho hending hc hd')
    exact ⟨after, (run_cons _).mpr ⟨_, hd', hrun⟩, hafter⟩

/-- After any number of runs, each with the staging tree of its time, the file unpacks to an image
with the whole tree of a run: the first one if the name asks for a compressor, the last one if
not. -/
theorem holdsTree_of_runs {d : Mkimage.Disk} (hfree : ∀ s, endingOf filename = some s →
      d (placeOf filename) = none ∧ h.knows s (cutExtension filename) = false)
    {ts : List (FileMap γ)} (hts : ts ≠ []) (htree : ∀ t ∈ ts, TreeFits k t ∧ NoDeepBootDir t) :
    ∃ after image, run (makeImage h k filename) d ts = some after ∧
      unpacked h filename after = some image ∧
        HoldsTree k (if (endingOf filename).isSome then ts.head hts else ts.getLast hts) image := by
  cases hending : endingOf filename with
  | none =>
    obtain ⟨after, image, hrun, himage, hlen⟩ := last_of_runs (k := k) ho hending d hts
    obtain ⟨hfits, hdeep⟩ := htree _ (List.getLast_mem hts)
    exact ⟨after, _, hrun, himage, holdsTree_formatImage hfits hdeep hlen⟩
  | some s =>
    obtain ⟨t, rest, rfl⟩ := List.exists_cons_of_ne_nil hts
    obtain ⟨d', image, hd', himage, hlen⟩ := unpacked_makeImage (k := k) ho hfree t
    obtain ⟨c, hc, hunpack⟩ := Option.bind_eq_some_iff.mp himage
    obtain ⟨after, hrun, hafter⟩ := kept_of_runs ho hending hc rest
    obtain ⟨hfits, hdeep⟩ := htree t List.mem_cons_self
    refine ⟨after, _, (run_cons _).mpr ⟨d', hd', hrun⟩, ?_, holdsTree_formatImage hfits hdeep hlen⟩
    rw [unpacked, hafter, Option.bind_some]
    exact hunpack

end

def uImage : Path := ["uImage".toList]

def init : Path := ["init".toList]

def twoFiles (a b : Bool) : FileMap Unit := fun p =>
  if p = uImage then (if a then some () else none)
  else if p = init then (if b then some () else none)
  else none

def FsType.byte : FsType → UInt8
  | .vfat => 1
  | .ext3 => 2

def bit (f : Option Unit) : UInt8 := if f.isSome then 1 else 0

def twoFileTools : CardTools Unit where
  sfdisk
    | [⟨start, some size, type, bootable⟩, ⟨start', none, type', bootable'⟩], d =>
      let p : Partition := ⟨start, size, type, bootable⟩
      let q : Partition := ⟨start', d.length / sectorSize - start', type', bootable'⟩
      if p.Fits d ∧ q.Fits d then writeTable p q d else d
    | _, d => d
  install
    | f, _ :: _ :: _ :: e => f.type.byte :: bit (f.files uImage) :: bit (f.files init) :: e
    | _, e => e
  shown
    | t :: a :: b :: _ => some ⟨if t = 1 then .vfat else .ext3, twoFiles (a == 1) (b == 1)⟩
    | _ => none
  fits f n := 3 ≤ n ∧ ∃ a b, f.files = twoFiles a b
  length_sfdisk ls d := by
    dsimp only
    split
    · split
      · rename_i h
        exact length_writeTable _ _ h.1.sector_le
      · rfl
    · rfl
  partitions_sfdisk p q d hp hq _ hlen _ := by
    have hsize : d.length / sectorSize - q.start = q.size := by
      rw [hlen, Nat.mul_div_cancel _ (by decide), Nat.add_sub_cancel_left]
    dsimp only
    rw [hsize, if_pos ⟨hp, hq⟩, partitions_writeTable hp hq]
  length_install f e := by
    split <;> rfl
  shown_install f e := by
    rintro ⟨hn, a, b, hf⟩
    obtain ⟨type, files⟩ := f
    cases hf
    match e, hn with
    | _ :: _ :: _ :: e, _ => cases type <;> cases a <;> cases b <;> rfl

def smallTree : FileMap Unit := fun p =>
  if p = bootDir ++ uImage ∨ p = init then some () else none

theorem smallTree_of_ne_init {p : Path} (hp : p ≠ init) :
    smallTree p = if p = bootDir ++ uImage then some () else none := by
  simp only [smallTree, hp, or_false]

theorem bootDir_append_ne_init (p : Path) : bootDir ++ p ≠ init := by
  intro h
  have hlen := congrArg List.length h
  simp [bootDir, init] at hlen

theorem boot_smallTree : (installTree smallTree).boot = twoFiles true false := by
  have hboot : (installTree smallTree).boot = directory bootDir smallTree := rsync_nil _
  rw [hboot]
  funext p
  rw [directory, smallTree_of_ne_init (bootDir_append_ne_init p)]
  simp only [List.append_cancel_left_eq]
  by_cases hp : p = []
  · subst hp
    rfl
  · simp [hp, twoFiles]

theorem noDeepBootDir_smallTree : NoDeepBootDir smallTree := by
  intro a b hb hout
  have hinit : a ++ bootDir ++ b ≠ init := by
    intro h
    have hlen := congrArg List.length h
    simp [bootDir, init] at hlen
    omega
  rw [smallTree_of_ne_init hinit, if_neg]
  intro h
  have hin : InBootDir (a ++ bootDir ++ b) := h ▸ ⟨uImage, by decide, rfl⟩
  exact hout hin

theorem root_smallTree : (installTree smallTree).root = twoFiles false true := by
  funext p
  by_cases hin : InBootDir p
  · rw [installTree_root_of_inBootDir smallTree hin]
    obtain ⟨q, -, rfl⟩ := hin
    simp [twoFiles, bootDir_append_ne_init]
  · rw [installTree_root_of_not_inBootDir noDeepBootDir_smallTree hin, smallTree, twoFiles]
    have hne : p ≠ bootDir ++ uImage := fun h => hin ⟨uImage, by decide, h⟩
    simp only [hne, false_or]
    by_cases hp : p = uImage
    · subst hp
      rfl
    · simp [hp]

theorem treeFits_smallTree : TreeFits twoFileTools smallTree :=
  ⟨fun _ => ⟨by decide, true, false, boot_smallTree⟩,
    fun _ => ⟨by decide, false, true, root_smallTree⟩⟩

/-- The copy to the root partition fails at first, and is then made again. -/
def rootAgain : List (CardRun Unit) :=
  [.format smallTree .complete (.failed []), .rootfs (some 1) (twoFiles false true) .complete]

theorem tracks_rootAgain : Tracks twoFileTools imageSectors
    (rootAgain.foldl (runScript twoFileTools) (zeros (imageSectors * sectorSize)))
      (some ⟨some ⟨.vfat, (installTree smallTree).boot⟩, some ⟨.ext3, twoFiles false true⟩⟩) := by
  have hblank : Tracks twoFileTools imageSectors (zeros (imageSectors * sectorSize)) none :=
    ⟨List.length_replicate, fun x hx => (nomatch hx)⟩
  have hpossible : ∀ r ∈ rootAgain, Possible twoFileTools imageSectors r := by
    intro r hr
    obtain rfl | rfl : r = .format smallTree .complete (.failed []) ∨
        r = .rootfs (some 1) (twoFiles false true) .complete := by
      simpa only [rootAgain, List.mem_cons, List.not_mem_nil, or_false] using hr
    · exact ⟨treeFits_smallTree.1, fun h => (nomatch h)⟩
    · exact fun _ => ⟨by decide, false, true, rfl⟩
  exact tracks_of_runs (by decide) (by decide) hblank hpossible

theorem treeFits_none : TreeFits twoFileTools fun _ => none := by
  refine ⟨fun _ => ⟨by decide, false, false, ?_⟩, fun _ => ⟨by decide, false, false, ?_⟩⟩ <;>
  · funext p
    simp [installTree, rsync, directory, twoFiles]

/-- Two runs on a build host, the second one without any file in its staging tree. -/
theorem holdsTree_twoRuns : ∃ after image,
    run (makeImage storing twoFileTools "sdcard.img.gz".toList) (fun _ => none)
        [smallTree, fun _ => none] = some after ∧
      unpacked storing "sdcard.img.gz".toList after = some image ∧
        HoldsTree twoFileTools smallTree image := by
  have ho : Ordinary storing "sdcard.img.gz".toList :=
    ⟨by decide, isLiteral_of_all (by decide), by decide, by decide, rfl⟩
  have htree : ∀ t ∈ [smallTree, fun _ => none], TreeFits twoFileTools t ∧ NoDeepBootDir t := by
    intro t ht
    obtain rfl | rfl : t = smallTree ∨ t = fun _ => none := by
      simpa only [List.mem_cons, List.not_mem_nil, or_false] using ht
    · exact ⟨treeFits_smallTree, noDeepBootDir_smallTree⟩
    · exact ⟨treeFits_none, fun _ _ _ _ => rfl⟩
  exact holdsTree_of_runs ho (fun _ _ => ⟨rfl, rfl⟩) (List.cons_ne_nil _ _) htree

end ChronosUpdates.Mksd
