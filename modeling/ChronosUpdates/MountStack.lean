import Mathlib.Data.List.Count
import Mathlib.Data.List.Nodup

namespace ChronosUpdates.MountStack

structure Mount (δ π : Type*) where
  device : δ
  target : π
  busy : Bool
deriving DecidableEq, Repr

abbrev Table (δ π : Type*) := List (Mount δ π)

variable {δ π : Type*}

/-- What `n` times `umount` leave of a stack: a busy file system stops them. -/
def peel : ℕ → List (Mount δ π) → List (Mount δ π)
  | 0, s => s
  | _ + 1, [] => []
  | n + 1, m :: s => if m.busy then m :: s else peel n s

def peeled : ℕ → List (Mount δ π) → List (Mount δ π)
  | 0, _ => []
  | _ + 1, [] => []
  | n + 1, m :: s => if m.busy then [] else m :: peeled n s

theorem peel_peel_one (n : ℕ) (s : List (Mount δ π)) : peel n (peel 1 s) = peel (n + 1) s := by
  cases s with
  | nil => cases n <;> rfl
  | cons m s =>
    by_cases hb : m.busy = true
    · cases n <;> simp [peel, hb]
    · simp [peel, hb]

theorem peel_suffix (n : ℕ) (s : List (Mount δ π)) : peel n s <:+ s := by
  induction n generalizing s with
  | zero => exact List.suffix_refl s
  | succ n ih =>
    cases s with
    | nil => exact List.suffix_refl _
    | cons m s =>
      by_cases hb : m.busy = true
      · simp [peel, hb]
      · simpa [peel, hb] using (ih s).trans (List.suffix_cons m s)

variable [DecidableEq π]

def stack (t : Table δ π) (p : π) : List (Mount δ π) := t.filter fun m => m.target = p

/-- `umount p`. -/
def umount (p : π) : Table δ π → Table δ π
  | [] => []
  | m :: t => if m.target = p then (if m.busy then m :: t else t) else m :: umount p t

def taken (p : π) (t : Table δ π) : Option (Mount δ π) :=
  match stack t p with
  | [] => none
  | m :: _ => if m.busy then none else some m

/-- One `umount` for each mount point of a list, in order. -/
def umountAll : List π → Table δ π → Table δ π
  | [], t => t
  | p :: ps, t => umountAll ps (umount p t)

def takenAll : List π → Table δ π → List (Mount δ π)
  | [], _ => []
  | p :: ps, t => (taken p t).toList ++ takenAll ps (umount p t)

theorem mem_stack {t : Table δ π} {p : π} {m : Mount δ π} :
    m ∈ stack t p ↔ m ∈ t ∧ m.target = p := by
  simp [stack]

theorem stack_cons_self (m : Mount δ π) (t : Table δ π) :
    stack (m :: t) m.target = m :: stack t m.target := by
  simp [stack]

theorem stack_cons_of_ne {m : Mount δ π} {p : π} (h : m.target ≠ p) (t : Table δ π) :
    stack (m :: t) p = stack t p := by
  simp [stack, h]

theorem stack_umount_self (p : π) (t : Table δ π) :
    stack (umount p t) p = peel 1 (stack t p) := by
  induction t with
  | nil => rfl
  | cons m t ih =>
    by_cases h : m.target = p
    · subst h
      by_cases hb : m.busy = true
      · simp [umount, stack_cons_self, peel, hb]
      · simp [umount, stack_cons_self, peel, hb]
    · simp only [umount, if_neg h, stack_cons_of_ne h, ih]

theorem stack_umount_of_ne {p q : π} (h : q ≠ p) (t : Table δ π) :
    stack (umount p t) q = stack t q := by
  induction t with
  | nil => rfl
  | cons m t ih =>
    by_cases hm : m.target = p
    · have hq : m.target ≠ q := fun e => h (e.symm.trans hm)
      by_cases hb : m.busy = true
      · simp [umount, hm, hb]
      · simp [umount, hm, hb, stack_cons_of_ne hq]
    · by_cases hq : m.target = q
      · subst hq
        simp only [umount, if_neg hm, stack_cons_self, ih]
      · simp only [umount, if_neg hm, stack_cons_of_ne hq, ih]

/-- The stack of one mount point after a list of `umount`s depends only on how often
the list names it. -/
theorem stack_umountAll (ps : List π) (t : Table δ π) (q : π) :
    stack (umountAll ps t) q = peel (ps.count q) (stack t q) := by
  induction ps generalizing t with
  | nil => rfl
  | cons p ps ih =>
    rw [umountAll, ih]
    by_cases h : p = q
    · subst h
      rw [stack_umount_self, peel_peel_one, List.count_cons_self]
    · rw [stack_umount_of_ne (Ne.symm h), List.count_cons_of_ne h]

theorem taken_target {p : π} {t : Table δ π} {m : Mount δ π} (h : taken p t = some m) :
    m.target = p := by
  unfold taken at h
  split at h
  · cases h
  · rename_i a s hs
    have ha : a ∈ stack t p := hs ▸ List.mem_cons_self
    split at h
    · cases h
    · cases h
      exact (mem_stack.mp ha).2

theorem mem_peeled_succ (n : ℕ) (t : Table δ π) (m : Mount δ π) :
    m ∈ peeled (n + 1) (stack t m.target) ↔
      taken m.target t = some m ∨ m ∈ peeled n (peel 1 (stack t m.target)) := by
  unfold taken
  cases stack t m.target with
  | nil => cases n <;> simp [peeled, peel]
  | cons a s =>
    by_cases hb : a.busy = true
    · cases n <;> simp [peeled, peel, hb]
    · simp [peeled, peel, hb, eq_comm]

/-- The file system lies near enough to the top of its stack for the number of times
that the list names its mount point. -/
def Reached (ps : List π) (t : Table δ π) (m : Mount δ π) : Prop :=
  m ∈ peeled (ps.count m.target) (stack t m.target)

theorem mem_takenAll (ps : List π) (t : Table δ π) (m : Mount δ π) :
    m ∈ takenAll ps t ↔ Reached ps t m := by
  unfold Reached
  induction ps generalizing t with
  | nil => simp [takenAll, peeled]
  | cons p ps ih =>
    rw [takenAll, List.mem_append, Option.mem_toList, ih]
    by_cases h : p = m.target
    · subst h
      rw [List.count_cons_self, mem_peeled_succ, stack_umount_self]
    · rw [List.count_cons_of_ne h, stack_umount_of_ne (Ne.symm h)]
      exact or_iff_right fun hm => h (taken_target hm).symm

theorem mem_umountAll {ps : List π} {t : Table δ π} {m : Mount δ π} :
    m ∈ umountAll ps t ↔ m ∈ peel (ps.count m.target) (stack t m.target) := by
  rw [← stack_umountAll, mem_stack]
  simp

/-- One `umount` of each of some mount points takes away the file systems of a kind
exactly when each of them is the visible and only one of its kind at one of these
mount points, and not busy. -/
theorem umountAll_releases {ps : List π} (hps : ps.Nodup) (t : Table δ π) (P : Mount δ π → Prop) :
    (∀ m ∈ umountAll ps t, ¬ P m) ↔
      ∀ m ∈ t, P m → m.target ∈ ps ∧ m.busy = false ∧
        ∃ covered, stack t m.target = m :: covered ∧ ∀ k ∈ covered, ¬ P k := by
  constructor
  · intro h m hm hP
    have hs : ∀ k ∈ peel (ps.count m.target) (stack t m.target), ¬ P k := by
      intro k hk
      have hkt : k.target = m.target := (mem_stack.mp ((peel_suffix _ _).subset hk)).2
      exact h k (mem_umountAll.mpr (hkt ▸ hk))
    have hms : m ∈ stack t m.target := mem_stack.mpr ⟨hm, rfl⟩
    by_cases hp : m.target ∈ ps
    · rw [List.count_eq_one_of_mem hps hp] at hs
      cases hst : stack t m.target with
      | nil => simp [hst] at hms
      | cons a covered =>
        rw [hst] at hs hms
        -- the only `umount` of this mount point takes the visible file system, unless it is busy
        by_cases hb : a.busy = true
        · simp only [peel, hb, if_true] at hs
          exact absurd hP (hs m hms)
        · simp only [peel, hb] at hs
          rcases List.mem_cons.mp hms with rfl | hmc
          · exact ⟨hp, by simpa using hb, covered, rfl, hs⟩
          · exact absurd hP (hs m hmc)
    · rw [List.count_eq_zero_of_not_mem hp] at hs
      exact absurd hP (hs m hms)
  · intro h m hm hP
    have hms := mem_umountAll.mp hm
    have hmt : m ∈ t := (mem_stack.mp ((peel_suffix _ _).subset hms)).1
    obtain ⟨hp, hb, covered, hst, hcov⟩ := h m hmt hP
    rw [List.count_eq_one_of_mem hps hp, hst] at hms
    simp only [peel, hb] at hms
    exact hcov m hms hP

end ChronosUpdates.MountStack
