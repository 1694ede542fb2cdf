import ChronosUpdates.PartitionTable
import ChronosUpdates.Mkimage.Assembly
import ChronosUpdates.Shell.Text
import Mathlib.Algebra.Group.Int.Defs
import Mathlib.Data.Int.Basic

namespace ChronosUpdates.Mkimage
open Shell PartitionTable

/-- A partition in the input of `sfdisk`, with the numbers that the shell computed. -/
structure ScriptLine where
  start : ℤ
  size : ℤ
  type : UInt8
  bootable : Bool
deriving DecidableEq

def lineOf (p : Partition) : ScriptLine := ⟨p.start, p.size, p.type, p.bootable⟩

inductive Compressor
  | gzip
  | bzip2
  | xz
deriving DecidableEq, Repr

/-- The tools that the script runs. `format` is all that happens to the file of a file
system from `mkfs` to the end of the bootstrap, with the file in use as a block device. -/
structure Tools where
  sfdisk : List ScriptLine → Bytes → Bytes
  format : Fs → Bytes → Bytes
  compress : Compressor → Bytes → Bytes
  decompress : Compressor → Bytes → Bytes
  length_sfdisk : ∀ ls d, (sfdisk ls d).length = d.length
  partitions_sfdisk : ∀ p q d, p.Fits d → q.Fits d → p.start + p.size ≤ q.start →
    q.start + q.size ≤ 2 ^ 32 → partitions (sfdisk [lineOf p, lineOf q] d) = [p, q]
  length_format : ∀ fs d, (format fs d).length = d.length
  decompress_compress : ∀ c (ds : List Bytes), decompress c (ds.flatMap (compress c)) = ds.flatten

/-- The shell computes with 64 bits. -/
def arith (n : ℤ) : ℤ := n.bmod (2 ^ 64)

def zeros (n : ℕ) : Bytes := List.replicate n 0

/-- `truncate -s n`: a size with a minus sign is taken off the file. -/
def truncate (n : ℤ) (d : Bytes) : Bytes :=
  let size := if n < 0 then d.length - n.natAbs else n.toNat
  d.take size ++ zeros (size - d.length)

variable (t : Tools) (l : Layout)

/-- `dd if=/dev/zero bs=1k count=1024`. -/
def blankTable : Bytes := zeros (1024 * 1024)

def cardSize : ℤ := arith ((l.bootpartSize + l.rootfsSize + 63) * 512)

def sfdiskInput : List ScriptLine :=
  [⟨63, arith l.bootpartSize, 0x0c, true⟩,
    ⟨arith (l.bootpartSize + 63), arith l.rootfsSize, 0x83, false⟩]

def partitionedFile : Bytes := t.sfdisk (sfdiskInput l) (truncate (cardSize l) blankTable)

/-- `PTABLE_FILE` when it is cut to its 63 sectors. -/
def ptableFile : Bytes := truncate (arith (63 * 512)) (partitionedFile t l)

/-- `BOOTPART_FILE` and `ROOTFS_FILE` at the assembly, made over a file with content `old`. -/
def fsFile (fs : Fs) (old : Bytes) : Bytes := t.format fs (truncate (arith (l.size fs * 512)) old)

/-- `${IMAGENAME##*.}` -/
def suffix (imageName : Word) : Word := imageName.rtakeWhile (· != '.')

/-- The `case` of the script; in its last branch the files are copied by `cat`. -/
def compressorOf (imageName : Word) : Option Compressor :=
  if suffix imageName = "gz".toList then some .gzip
  else if suffix imageName = "bz2".toList then some .bzip2
  else if suffix imageName = "xz".toList then some .xz
  else none

def filter (imageName : Word) : Bytes → Bytes :=
  match compressorOf imageName with
  | some c => t.compress c
  | none => id

/-- One `>` and two `>>`. -/
def assembleImage (imageName : Word) (ptable boot rootfs : Bytes) : Bytes :=
  filter t imageName ptable ++ filter t imageName boot ++ filter t imageName rootfs

def decompressed (imageName : Word) (image : Bytes) : Bytes :=
  match compressorOf imageName with
  | some c => t.decompress c image
  | none => image

/-- What `IMAGENAME` holds when it is decompressed; the two file-system files had the
contents `old` before. -/
def imageContent (imageName : Word) (old : Fs → Bytes) : Bytes :=
  decompressed t imageName (assembleImage t imageName (ptableFile t l)
    (fsFile t l .boot (old .boot)) (fsFile t l .rootfs (old .rootfs)))

/-- The image has the right length, the table of the file that `sfdisk` wrote, and two
partitions side by side whose sectors hold the files. -/
structure LaidOut (full image boot rootfs : Bytes) : Prop where
  length : image.length = (PTABLE_SIZE + l.bootpartSize + l.rootfsSize) * sectorSize
  table : partitions image = partitions full
  extents : ∃ p q, partitions image = [p, q] ∧ p.start + p.size = q.start ∧
    (q.start + q.size) * sectorSize ≤ image.length ∧ extent p image = boot ∧
    extent q image = rootfs

def MakesImage : Prop :=
  ∀ imageName old, LaidOut l (partitionedFile t l) (imageContent t l imageName old)
    (fsFile t l .boot (old .boot)) (fsFile t l .rootfs (old .rootfs))

theorem arith_eq {n : ℤ} (h0 : 0 ≤ n) (h : n < 2 ^ 63) : arith n = n := by
  apply Int.bmod_eq_of_le <;> omega

theorem length_truncate (n : ℕ) (d : Bytes) : (truncate n d).length = n := by
  have hn : ¬ (n : ℤ) < 0 := by omega
  simp only [truncate, if_neg hn, Int.toNat_natCast, zeros, List.length_append, List.length_take,
    List.length_replicate]
  omega

/-- A `dos` label, which `sfdisk` keeps within 2 ^ 32 sectors, can record the two partitions. -/
def Layout.Recordable : Prop := PTABLE_SIZE + l.bootpartSize + l.rootfsSize ≤ 2 ^ 32

def Layout.Positive : Prop := 0 < l.bootpartSize ∧ 0 < l.rootfsSize

instance : Decidable (l.Recordable) := inferInstanceAs (Decidable (_ ≤ _))

instance : Decidable (l.Positive) := inferInstanceAs (Decidable (_ ∧ _))

variable {l}

theorem size_lt (h : l.Recordable) (fs : Fs) : l.size fs < 2 ^ 32 := by
  unfold Layout.Recordable PTABLE_SIZE at h
  cases fs with
  | boot =>
    show l.bootpartSize < 2 ^ 32
    omega
  | rootfs =>
    show l.rootfsSize < 2 ^ 32
    omega

theorem length_fsFile (h : l.Recordable) (fs : Fs) (old : Bytes) :
    (fsFile t l fs old).length = l.size fs * sectorSize := by
  have hlt := size_lt h fs
  have hsize : arith (l.size fs * 512) = (l.size fs * sectorSize : ℕ) := by
    rw [arith_eq (by omega) (by omega)]
    rfl
  rw [fsFile, t.length_format, hsize, length_truncate]

theorem length_partitionedFile (h : l.Recordable) :
    (partitionedFile t l).length = (PTABLE_SIZE + l.bootpartSize + l.rootfsSize) * sectorSize := by
  unfold Layout.Recordable PTABLE_SIZE at *
  have hsize : cardSize l = ((63 + l.bootpartSize + l.rootfsSize) * sectorSize : ℕ) := by
    rw [cardSize, arith_eq (by omega) (by omega)]
    unfold sectorSize
    omega
  rw [partitionedFile, t.length_sfdisk, hsize, length_truncate]

theorem ptableFile_eq (h : l.Recordable) :
    ptableFile t l = (partitionedFile t l).take (PTABLE_SIZE * sectorSize) := by
  have hlen := length_partitionedFile t h
  have hn : arith (63 * 512) = (63 * 512 : ℕ) := by decide
  have hle : 63 * 512 ≤ (partitionedFile t l).length := by
    rw [hlen]
    unfold PTABLE_SIZE sectorSize
    omega
  have hz : 63 * 512 - (partitionedFile t l).length = 0 := by omega
  have hneg : ¬ ((63 * 512 : ℕ) : ℤ) < 0 := by decide
  simp only [ptableFile, hn, truncate, if_neg hneg, Int.toNat_natCast, hz, zeros]
  exact List.append_nil _

theorem length_ptableFile (h : l.Recordable) :
    (ptableFile t l).length = PTABLE_SIZE * sectorSize := by
  rw [ptableFile_eq t h, List.length_take, length_partitionedFile t h]
  unfold PTABLE_SIZE sectorSize
  omega

theorem partitions_ptableFile (h : l.Recordable) :
    partitions (ptableFile t l) = partitions (partitionedFile t l) := by
  rw [ptableFile_eq t h]
  exact partitions_take _ _ (by decide)

variable (l) in
def bootPartition : Partition := ⟨PTABLE_SIZE, l.bootpartSize, 0x0c, true⟩

variable (l) in
def rootfsPartition : Partition := ⟨l.bootpartSize + PTABLE_SIZE, l.rootfsSize, 0x83, false⟩

theorem sfdiskInput_eq (h : l.Recordable) :
    sfdiskInput l = [lineOf (bootPartition l), lineOf (rootfsPartition l)] := by
  unfold Layout.Recordable PTABLE_SIZE at h
  rw [sfdiskInput, arith_eq (by omega) (by omega), arith_eq (by omega) (by omega),
    arith_eq (by omega) (by omega)]
  rfl

theorem partitions_partitionedFile (hpos : l.Positive) (h : l.Recordable) :
    partitions (partitionedFile t l) = [bootPartition l, rootfsPartition l] := by
  have hlen : (truncate (cardSize l) blankTable).length =
      (PTABLE_SIZE + l.bootpartSize + l.rootfsSize) * sectorSize := by
    rw [← length_partitionedFile t h, partitionedFile, t.length_sfdisk]
  rw [partitionedFile, sfdiskInput_eq h]
  obtain ⟨hb, hr⟩ := hpos
  unfold Layout.Recordable PTABLE_SIZE at h
  unfold PTABLE_SIZE sectorSize at *
  apply t.partitions_sfdisk
  · refine ⟨(by decide : (0x0c : UInt8) ≠ 0), hb, (by decide : (63 : ℕ) < 2 ^ 32),
      (by omega : l.bootpartSize < 2 ^ 32), ?_⟩
    rw [hlen]
    exact Nat.mul_le_mul_right _ (by simp only [bootPartition, PTABLE_SIZE]; omega)
  · refine ⟨(by decide : (0x83 : UInt8) ≠ 0), hr,
      (by omega : l.bootpartSize + 63 < 2 ^ 32), (by omega : l.rootfsSize < 2 ^ 32), ?_⟩
    rw [hlen]
    exact Nat.mul_le_mul_right _ (by simp only [rootfsPartition, PTABLE_SIZE]; omega)
  · simp only [bootPartition, rootfsPartition, PTABLE_SIZE]
    omega
  · simp only [rootfsPartition, PTABLE_SIZE]
    omega

variable (l) in
theorem imageContent_eq (imageName : Word) (old : Fs → Bytes) :
    imageContent t l imageName old = ptableFile t l ++ fsFile t l .boot (old .boot) ++
      fsFile t l .rootfs (old .rootfs) := by
  unfold imageContent decompressed assembleImage filter
  cases compressorOf imageName with
  | none => rfl
  | some c =>
    simpa using t.decompress_compress c [ptableFile t l, fsFile t l .boot (old .boot),
      fsFile t l .rootfs (old .rootfs)]

theorem length_imageContent (h : l.Recordable) (imageName : Word) (old : Fs → Bytes) :
    (imageContent t l imageName old).length =
      (PTABLE_SIZE + l.bootpartSize + l.rootfsSize) * sectorSize := by
  rw [imageContent_eq, List.length_append, List.length_append, length_ptableFile t h,
    length_fsFile t h, length_fsFile t h, ← Nat.add_mul, ← Nat.add_mul]
  rfl

theorem partitions_imageContent (h : l.Recordable) (imageName : Word) (old : Fs → Bytes) :
    partitions (imageContent t l imageName old) = partitions (partitionedFile t l) := by
  have hlen : sectorSize ≤ (ptableFile t l).length := by
    rw [length_ptableFile t h]
    decide
  rw [imageContent_eq, List.append_assoc, partitions_append _ _ hlen, partitions_ptableFile t h]

theorem extent_bootPartition (h : l.Recordable) (imageName : Word) (old : Fs → Bytes) :
    extent (bootPartition l) (imageContent t l imageName old) = fsFile t l .boot (old .boot) := by
  rw [imageContent_eq, List.append_assoc]
  exact piece_of_eq rfl (length_ptableFile t h) (length_fsFile t h .boot _)

theorem extent_rootfsPartition (h : l.Recordable) (imageName : Word) (old : Fs → Bytes) :
    extent (rootfsPartition l) (imageContent t l imageName old) =
      fsFile t l .rootfs (old .rootfs) := by
  have hfront : (ptableFile t l ++ fsFile t l .boot (old .boot)).length =
      (rootfsPartition l).start * sectorSize := by
    rw [List.length_append, length_ptableFile t h, length_fsFile t h, ← Nat.add_mul, Nat.add_comm]
    rfl
  have hpieces : imageContent t l imageName old =
      ptableFile t l ++ fsFile t l .boot (old .boot) ++
        (fsFile t l .rootfs (old .rootfs) ++ []) := by
    rw [imageContent_eq, List.append_nil]
  exact piece_of_eq hpieces hfront (length_fsFile t h .rootfs _)

/-- Every image whose two sizes a table can record is laid out as its table says. -/
theorem makesImage_of_recordable (t : Tools) (l : Layout) (hpos : l.Positive)
    (h : l.Recordable) : MakesImage t l := by
  intro imageName old
  have hlen := length_imageContent t h imageName old
  have htable := partitions_imageContent t h imageName old
  refine ⟨hlen, htable, bootPartition l, rootfsPartition l,
    htable.trans (partitions_partitionedFile t hpos h), Nat.add_comm _ _, ?_,
    extent_bootPartition t h imageName old, extent_rootfsPartition t h imageName old⟩
  rw [hlen, Nat.add_comm PTABLE_SIZE]
  exact le_rfl

def ScriptLine.partition (a : ScriptLine) : Partition :=
  ⟨a.start.toNat, a.size.toNat, a.type, a.bootable⟩

def writePartitions : List ScriptLine → Bytes → Bytes
  | [a, b], d =>
    if a.partition.Fits d ∧ b.partition.Fits d then writeTable a.partition b.partition d else d
  | _, d => d

/-- A stream that stores its bytes one by one behind a mark, and ends with another mark. -/
def storeStream (d : Bytes) : Bytes := d.flatMap (fun b => [1, b]) ++ [0]

def readStreams : Bytes → Bytes
  | 1 :: b :: d => b :: readStreams d
  | 0 :: d => readStreams d
  | _ => []

theorem readStreams_storeStream (d e : Bytes) :
    readStreams (storeStream d ++ e) = d ++ readStreams e := by
  induction d with
  | nil => rfl
  | cons b d ih => exact congrArg (b :: ·) ih

theorem readStreams_flatMap (ds : List Bytes) :
    readStreams (ds.flatMap storeStream) = ds.flatten := by
  induction ds with
  | nil => rfl
  | cons d ds ih => rw [List.flatMap_cons, readStreams_storeStream, ih, List.flatten_cons]

theorem length_writePartitions (ls : List ScriptLine) (d : Bytes) :
    (writePartitions ls d).length = d.length := by
  unfold writePartitions
  split
  · split
    · rename_i h
      exact length_writeTable _ _ h.1.sector_le
    · rfl
  · rfl

theorem partition_lineOf (p : Partition) : (lineOf p).partition = p := by
  simp [lineOf, ScriptLine.partition]

def storingTools : Tools where
  sfdisk := writePartitions
  format _ d := d
  compress _ := storeStream
  decompress _ := readStreams
  length_sfdisk := length_writePartitions
  partitions_sfdisk p q d hp hq _ _ := by
    rw [writePartitions, partition_lineOf, partition_lineOf, if_pos ⟨hp, hq⟩,
      partitions_writeTable hp hq]
  length_format _ _ := rfl
  decompress_compress _ := readStreams_flatMap

/-- The sizes of the script itself. -/
theorem makesImage_layout : layout.Positive ∧ layout.Recordable ∧ MakesImage storingTools layout :=
  ⟨by decide, by decide, makesImage_of_recordable storingTools layout (by decide) (by decide)⟩

def wideLayout : Layout := ⟨2 ^ 32, 1⟩

theorem not_makesImage_wideLayout : wideLayout.Positive ∧ ∀ t, ¬ MakesImage t wideLayout := by
  refine ⟨by decide, fun t h => ?_⟩
  obtain ⟨p, q, hpq, -, -, hboot, -⟩ := (h [] fun _ => []).extents
  have hsize : p.size < 2 ^ 32 := size_lt_of_mem (hpq ▸ List.mem_cons_self)
  have hle := length_extent_le p (imageContent t wideLayout [] fun _ => [])
  have hn : arith (wideLayout.size .boot * 512) = (2 ^ 32 * 512 : ℕ) := by decide
  have hlen : (fsFile t wideLayout .boot []).length = 2 ^ 32 * 512 := by
    rw [fsFile, t.length_format, hn, length_truncate]
  rw [hboot, hlen, sectorSize] at hle
  omega

end ChronosUpdates.Mkimage
