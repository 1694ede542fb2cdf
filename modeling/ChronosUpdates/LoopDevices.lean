import Mathlib.Data.List.Basic
import Mathlib.Order.BooleanAlgebra.Set

namespace ChronosUpdates.LoopDevices

/-- The files behind the devices. The devices beyond the list are free. -/
abbrev Table (ι : Type*) := List (Option ι)

variable {ι : Type*}

def behind (t : Table ι) (n : ℕ) : Option ι := t[n]?.join

/-- The device that `losetup -f` takes. -/
def firstFree (t : Table ι) : ℕ := t.findIdx Option.isNone

/-- `losetup -f FILE`. -/
def attach (i : ι) (t : Table ι) : Table ι := (t ++ [none]).set (firstFree t) (some i)

/-- `losetup -d DEVICE`. -/
def detach (n : ℕ) (t : Table ι) : Table ι := t.set n none

/-- `losetup -n -j FILE -O NAME`. -/
def find [DecidableEq ι] (i : ι) (t : Table ι) : List ℕ :=
  (List.range t.length).filter fun n => behind t n = some i

theorem behind_firstFree (t : Table ι) : behind t (firstFree t) = none := by
  unfold behind firstFree
  by_cases h : t.findIdx Option.isNone < t.length
  · have hnone := List.findIdx_getElem (w := h)
    rw [List.getElem?_eq_getElem h, Option.join_some, ← Option.isNone_iff_eq_none]
    exact hnone
  · rw [List.getElem?_eq_none (Nat.le_of_not_lt h), Option.join_none]

theorem behind_append_none (t : Table ι) (n : ℕ) : behind (t ++ [none]) n = behind t n := by
  unfold behind
  by_cases h : n < t.length
  · rw [List.getElem?_append_left h]
  · rw [List.getElem?_append_right (Nat.le_of_not_lt h),
      List.getElem?_eq_none (Nat.le_of_not_lt h)]
    cases n - t.length <;> simp

theorem behind_attach (i : ι) (t : Table ι) (n : ℕ) :
    behind (attach i t) n = if n = firstFree t then some i else behind t n := by
  have hlt : firstFree t < (t ++ [none]).length := by
    rw [List.length_append, List.length_singleton, firstFree, Nat.lt_succ_iff]
    exact List.findIdx_le_length
  by_cases h : n = firstFree t
  · rw [if_pos h, h, behind, attach, List.getElem?_set_self hlt, Option.join_some]
  · rw [if_neg h, ← behind_append_none t n, behind, attach, List.getElem?_set_ne (Ne.symm h),
      behind]

theorem behind_detach (n m : ℕ) (t : Table ι) :
    behind (detach n t) m = if m = n then none else behind t m := by
  by_cases h : m = n
  · rw [if_pos h, h, behind, detach, List.getElem?_set]
    split
    · split <;> simp
    · simp_all
  · rw [if_neg h, behind, detach, List.getElem?_set_ne (Ne.symm h), behind]

def held (t : Table ι) (i : ι) : Set ℕ := {n | behind t n = some i}

theorem mem_held {t : Table ι} {i : ι} {n : ℕ} : n ∈ held t i ↔ behind t n = some i := Iff.rfl

theorem firstFree_notMem_held (t : Table ι) (i : ι) : firstFree t ∉ held t i := by
  rw [mem_held, behind_firstFree]
  exact Option.some_ne_none i ∘ Eq.symm

theorem held_unique {t : Table ι} {i j : ι} {n : ℕ} (hi : n ∈ held t i) (hj : n ∈ held t j) :
    i = j := Option.some.inj (hi.symm.trans hj)

theorem held_attach_self (i : ι) (t : Table ι) :
    held (attach i t) i = insert (firstFree t) (held t i) := by
  ext n
  rw [Set.mem_insert_iff, mem_held, mem_held, behind_attach]
  split
  · rename_i h
    exact iff_of_true rfl (.inl h)
  · rename_i h
    exact (or_iff_right h).symm

theorem held_attach_of_ne {i j : ι} (h : j ≠ i) (t : Table ι) :
    held (attach i t) j = held t j := by
  ext n
  rw [mem_held, mem_held, behind_attach]
  split
  · rename_i hn
    rw [hn, behind_firstFree]
    exact iff_of_false (fun e => h (Option.some.inj e).symm) (Option.some_ne_none j ∘ Eq.symm)
  · rfl

theorem held_detach (n : ℕ) (t : Table ι) (i : ι) : held (detach n t) i = held t i \ {n} := by
  ext m
  rw [Set.mem_sdiff, Set.mem_singleton_iff, mem_held, mem_held, behind_detach]
  split
  · rename_i h
    exact iff_of_false (Option.some_ne_none i ∘ Eq.symm) fun hm => hm.2 h
  · rename_i h
    exact (and_iff_left h).symm

theorem held_detach_of_ne {i j : ι} {n : ℕ} {t : Table ι} (hn : n ∈ held t i) (h : j ≠ i) :
    held (detach n t) j = held t j := by
  rw [held_detach]
  exact Set.sdiff_singleton_eq_self fun hm => h (held_unique hm hn)

theorem mem_find [DecidableEq ι] {i : ι} {t : Table ι} {n : ℕ} : n ∈ find i t ↔ n ∈ held t i := by
  rw [find, List.mem_filter, List.mem_range, decide_eq_true_eq]
  refine and_iff_right_of_imp fun h => ?_
  by_contra hn
  rw [behind, List.getElem?_eq_none (Nat.le_of_not_lt hn)] at h
  cases h

theorem nodup_find [DecidableEq ι] (i : ι) (t : Table ι) : (find i t).Nodup :=
  List.nodup_range.filter _

end ChronosUpdates.LoopDevices
