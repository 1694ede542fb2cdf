import Mathlib.Data.List.Basic
import Mathlib.Data.List.Range
import Mathlib.Algebra.Group.Nat.Defs

namespace ChronosUpdates.PartitionTable

abbrev Bytes := List UInt8

def sectorSize : ℕ := 512

def ofBytes : Bytes → ℕ
  | [] => 0
  | b :: bs => b.toNat + 256 * ofBytes bs

/-- The lowest `w` bytes of a number. -/
def toBytes : ℕ → ℕ → Bytes
  | 0, _ => []
  | w + 1, n => UInt8.ofNat n :: toBytes w (n / 256)

structure Partition where
  start : ℕ
  size : ℕ
  type : UInt8
  bootable : Bool
deriving DecidableEq

def entryAt (d : Bytes) (i : ℕ) : Bytes := (d.drop (446 + 16 * i)).take 16

/-- A used entry has a type other than 0; its cylinders, heads and sectors are not read. -/
def partitionOf (e : Bytes) : Option Partition :=
  let type := e.getD 4 0
  if type = 0 then none
  else some ⟨ofBytes ((e.drop 8).take 4), ofBytes ((e.drop 12).take 4), type, e.getD 0 0 == 0x80⟩

def signature : Bytes := [0x55, 0xaa]

def partitions (d : Bytes) : List Partition :=
  if (d.drop 510).take 2 = signature then
    (List.range 4).filterMap fun i => partitionOf (entryAt d i)
  else []

def extent (p : Partition) (d : Bytes) : Bytes :=
  (d.drop (p.start * sectorSize)).take (p.size * sectorSize)

structure Partition.Fits (p : Partition) (d : Bytes) : Prop where
  used : p.type ≠ 0
  pos : 0 < p.size
  start : p.start < 2 ^ 32
  size : p.size < 2 ^ 32
  inside : (p.start + p.size) * sectorSize ≤ d.length

instance (p : Partition) (d : Bytes) : Decidable (p.Fits d) :=
  decidable_of_iff (p.type ≠ 0 ∧ 0 < p.size ∧ p.start < 2 ^ 32 ∧ p.size < 2 ^ 32 ∧
      (p.start + p.size) * sectorSize ≤ d.length)
    ⟨fun ⟨h₁, h₂, h₃, h₄, h₅⟩ => ⟨h₁, h₂, h₃, h₄, h₅⟩,
      fun h => ⟨h.used, h.pos, h.start, h.size, h.inside⟩⟩

theorem length_toBytes (w n : ℕ) : (toBytes w n).length = w := by
  induction w generalizing n with
  | zero => rfl
  | succ w ih => rw [toBytes, List.length_cons, ih]

theorem ofBytes_toBytes (w n : ℕ) (h : n < 256 ^ w) : ofBytes (toBytes w n) = n := by
  induction w generalizing n with
  | zero =>
    have hn : n = 0 := by simpa using h
    rw [hn]
    rfl
  | succ w ih =>
    have hn : n / 256 < 256 ^ w := by
      rw [pow_succ] at h
      omega
    rw [toBytes, ofBytes, ih _ hn, UInt8.toNat_ofNat']
    omega

theorem ofBytes_lt (bs : Bytes) : ofBytes bs < 256 ^ bs.length := by
  induction bs with
  | nil => exact Nat.one_pos
  | cons b bs ih =>
    have hb : b.toNat < 256 := b.toNat_lt
    rw [ofBytes, List.length_cons, pow_succ]
    omega

theorem ofBytes_take_lt (bs : Bytes) : ofBytes (bs.take 4) < 2 ^ 32 := by
  have hlen : (bs.take 4).length ≤ 4 := List.length_take_le _ _
  calc ofBytes (bs.take 4) < 256 ^ (bs.take 4).length := ofBytes_lt _
    _ ≤ 256 ^ 4 := Nat.pow_le_pow_right (by omega) hlen
    _ = 2 ^ 32 := by decide

theorem size_lt_of_mem {p : Partition} {d : Bytes} (h : p ∈ partitions d) : p.size < 2 ^ 32 := by
  unfold partitions at h
  split at h
  · obtain ⟨i, -, hp⟩ := List.mem_filterMap.mp h
    obtain ⟨-, hp⟩ := Option.ite_none_left_eq_some.mp hp
    cases hp
    exact ofBytes_take_lt _
  · cases h

theorem length_extent_le (p : Partition) (d : Bytes) :
    (extent p d).length ≤ p.size * sectorSize := List.length_take_le _ _

theorem partitions_take (d : Bytes) (n : ℕ) (hn : sectorSize ≤ n) :
    partitions (d.take n) = partitions d := by
  unfold sectorSize at hn
  have hslice : ∀ i k, i + k ≤ 512 → ((d.take n).drop i).take k = (d.drop i).take k := by
    intro i k hik
    rw [List.drop_take, List.take_take, min_eq_left (by omega)]
  have hentry : ∀ i ∈ List.range 4, partitionOf (entryAt (d.take n) i) =
      partitionOf (entryAt d i) := by
    intro i hi
    have hi : i < 4 := List.mem_range.mp hi
    rw [entryAt, hslice _ _ (by omega), entryAt]
  rw [partitions, partitions, hslice 510 2 (by omega), List.filterMap_congr hentry]

theorem partitions_append (d e : Bytes) (hd : sectorSize ≤ d.length) :
    partitions (d ++ e) = partitions d := by
  rw [← partitions_take (d ++ e) d.length hd, List.take_left]

/-- A sector number in cylinders, heads and sectors, for 255 heads and 63 sectors; past the
last cylinder that 10 bits can count, the largest value. -/
def chs (n : ℕ) : Bytes :=
  let c := n / (255 * 63)
  if c < 1024 then
    [UInt8.ofNat (n / 63 % 255), UInt8.ofNat (n % 63 + 1 + c / 256 * 64), UInt8.ofNat c]
  else [0xfe, 0xff, 0xff]

def entry (p : Partition) : Bytes :=
  [if p.bootable then 0x80 else 0] ++ chs p.start ++ [p.type] ++ chs (p.start + p.size - 1) ++
    toBytes 4 p.start ++ toBytes 4 p.size

/-- The table with these entries, in a disk that had none. -/
def writeTable (p q : Partition) (d : Bytes) : Bytes :=
  d.take 446 ++ entry p ++ entry q ++ List.replicate 32 0 ++ signature ++ d.drop 512

theorem length_chs (n : ℕ) : (chs n).length = 3 := by
  unfold chs
  dsimp only
  split <;> rfl

theorem length_entry (p : Partition) : (entry p).length = 16 := by
  simp [entry, length_chs, length_toBytes]

theorem partitionOf_entry {p : Partition} (ht : p.type ≠ 0) (hstart : p.start < 2 ^ 32)
    (hsize : p.size < 2 ^ 32) : partitionOf (entry p) = some p := by
  obtain ⟨a, b, c, hc⟩ := List.length_eq_three.mp (length_chs p.start)
  obtain ⟨a', b', c', hc'⟩ := List.length_eq_three.mp (length_chs (p.start + p.size - 1))
  have hs : ofBytes (toBytes 4 p.start) = p.start := ofBytes_toBytes 4 _ hstart
  have hz : ofBytes (toBytes 4 p.size) = p.size := ofBytes_toBytes 4 _ hsize
  have hl : (toBytes 4 p.start).length = 4 := length_toBytes 4 _
  have hl' : (toBytes 4 p.size).length = 4 := length_toBytes 4 _
  have hb : ((if p.bootable = true then 0x80 else 0 : UInt8) == 0x80) = p.bootable := by
    cases p.bootable <;> rfl
  simp [partitionOf, entry, hc, hc', ht, List.take_left' hl, List.drop_left' hl,
    List.take_of_length_le hl'.le, hs, hz, hb]

theorem partitionOf_zeros : partitionOf (List.replicate 16 0) = none := by decide

theorem piece_of_eq {d a b c : Bytes} {i k : ℕ} (hd : d = a ++ (b ++ c)) (ha : a.length = i)
    (hb : b.length = k) : (d.drop i).take k = b := by
  rw [hd, List.drop_left' ha, List.take_left' hb]

theorem Partition.Fits.sector_le {p : Partition} {d : Bytes} (hp : p.Fits d) :
    sectorSize ≤ d.length := by
  have hpos := hp.pos
  calc sectorSize = 1 * sectorSize := (Nat.one_mul _).symm
    _ ≤ (p.start + p.size) * sectorSize := Nat.mul_le_mul_right _ (by omega)
    _ ≤ d.length := hp.inside

theorem partitions_writeTable {p q : Partition} {d : Bytes} (hp : p.Fits d) (hq : q.Fits d) :
    partitions (writeTable p q d) = [p, q] := by
  have h446 : (d.take 446).length = 446 := by
    have hd := hp.sector_le
    unfold sectorSize at hd
    rw [List.length_take, min_eq_left (by omega)]
  let unused : Bytes := List.replicate 16 0
  have hpieces : writeTable p q d = d.take 446 ++ (entry p ++ (entry q ++ (unused ++ (unused ++
      (signature ++ d.drop 512))))) := by
    simp only [writeTable, List.append_assoc]
    rfl
  have h0 : entryAt (writeTable p q d) 0 = entry p :=
    piece_of_eq hpieces h446 (length_entry p)
  have h1 : entryAt (writeTable p q d) 1 = entry q := by
    rw [← List.append_assoc] at hpieces
    exact piece_of_eq hpieces (by simp [h446, length_entry]) (length_entry q)
  have h2 : entryAt (writeTable p q d) 2 = unused := by
    rw [← List.append_assoc, ← List.append_assoc] at hpieces
    exact piece_of_eq hpieces (by simp [h446, length_entry]) rfl
  have h3 : entryAt (writeTable p q d) 3 = unused := by
    rw [← List.append_assoc, ← List.append_assoc, ← List.append_assoc] at hpieces
    exact piece_of_eq hpieces (by simp [h446, length_entry, unused]) rfl
  have h510 : ((writeTable p q d).drop 510).take 2 = signature := by
    rw [← List.append_assoc, ← List.append_assoc, ← List.append_assoc,
      ← List.append_assoc] at hpieces
    exact piece_of_eq hpieces (by simp [h446, length_entry, unused]) rfl
  have hrange : List.range 4 = [0, 1, 2, 3] := rfl
  rw [partitions, if_pos h510, hrange]
  simp only [List.filterMap_cons, List.filterMap_nil, h0, h1, h2, h3, unused, partitionOf_zeros,
    partitionOf_entry hp.used hp.start hp.size, partitionOf_entry hq.used hq.start hq.size]

theorem length_writeTable (p q : Partition) {d : Bytes} (hd : sectorSize ≤ d.length) :
    (writeTable p q d).length = d.length := by
  unfold sectorSize at hd
  simp only [writeTable, List.length_append, List.length_take, length_entry,
    List.length_replicate, List.length_drop, signature, List.length_cons, List.length_nil]
  omega

def putExtent (p : Partition) (e d : Bytes) : Bytes :=
  d.take (p.start * sectorSize) ++ e ++ d.drop ((p.start + p.size) * sectorSize)

theorem length_extent {p : Partition} {d : Bytes}
    (hp : (p.start + p.size) * sectorSize ≤ d.length) :
    (extent p d).length = p.size * sectorSize := by
  rw [Nat.add_mul] at hp
  rw [extent, List.length_take, List.length_drop]
  omega

theorem length_putExtent {p : Partition} {e d : Bytes} (he : e.length = (extent p d).length) :
    (putExtent p e d).length = d.length := by
  rw [extent, List.length_take, List.length_drop] at he
  rw [putExtent, List.length_append, List.length_append, he, List.length_take, List.length_drop,
    Nat.add_mul]
  omega

section
variable {p : Partition} {e d : Bytes} (hp : (p.start + p.size) * sectorSize ≤ d.length)
  (he : e.length = p.size * sectorSize)
include hp

theorem length_front : (d.take (p.start * sectorSize)).length = p.start * sectorSize := by
  rw [Nat.add_mul] at hp
  rw [List.length_take]
  omega

theorem putExtent_front {n : ℕ} (hn : n ≤ p.start * sectorSize) :
    (putExtent p e d).take n = d.take n := by
  have hfront := length_front hp
  rw [putExtent, List.append_assoc, List.take_append_of_le_length (by omega), List.take_take,
    min_eq_left hn]

theorem partitions_putExtent (hstart : 0 < p.start) :
    partitions (putExtent p e d) = partitions d := by
  have hn : sectorSize ≤ p.start * sectorSize := Nat.le_mul_of_pos_left _ hstart
  rw [← partitions_take _ _ hn, putExtent_front hp le_rfl, partitions_take _ _ hn]

theorem extent_putExtent_of_before {q : Partition} (hq : q.start + q.size ≤ p.start) :
    extent q (putExtent p e d) = extent q d := by
  have hn : (q.start + q.size) * sectorSize ≤ p.start * sectorSize := Nat.mul_le_mul_right _ hq
  have hextent : ∀ c : Bytes, extent q c =
      (c.take ((q.start + q.size) * sectorSize)).drop (q.start * sectorSize) := by
    intro c
    rw [extent, List.drop_take, ← Nat.sub_mul, Nat.add_sub_cancel_left]
  rw [hextent, putExtent_front hp hn, ← hextent]

include he

theorem extent_putExtent : extent p (putExtent p e d) = e := by
  have hpieces : putExtent p e d = d.take (p.start * sectorSize) ++
      (e ++ d.drop ((p.start + p.size) * sectorSize)) := List.append_assoc _ _ _
  exact piece_of_eq hpieces (length_front hp) he

theorem extent_putExtent_of_after {q : Partition} (hq : p.start + p.size ≤ q.start) :
    extent q (putExtent p e d) = extent q d := by
  have hn : (p.start + p.size) * sectorSize ≤ q.start * sectorSize := Nat.mul_le_mul_right _ hq
  have hfront : (d.take (p.start * sectorSize) ++ e).length =
      (p.start + p.size) * sectorSize := by
    rw [List.length_append, length_front hp, he, Nat.add_mul]
  rw [extent, extent, putExtent, List.drop_append, hfront,
    List.drop_eq_nil_of_le (by omega), List.nil_append, List.drop_drop, Nat.add_sub_cancel' hn]

end

end ChronosUpdates.PartitionTable
