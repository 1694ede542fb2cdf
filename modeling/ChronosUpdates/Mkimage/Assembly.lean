import ChronosUpdates.Runs
import ChronosUpdates.PageCache
import Mathlib.Data.List.Basic
import Mathlib.Data.List.OfFn

namespace ChronosUpdates.Mkimage
open Runs PageCache

def PTABLE_SIZE : ℕ := 63

structure Layout where
  bootpartSize : ℕ
  rootfsSize : ℕ

/-- `BOOTPART_SIZE` and `ROOTFS_SIZE`. -/
def layout : Layout := ⟨80262, 7168000⟩

/-- The file systems in `BOOTPART_FILE` and `ROOTFS_FILE`. -/
inductive Fs
  | boot
  | rootfs
deriving DecidableEq, Repr

inductive Cleanup
  | pumount (fs : Fs)
  | losetupDetach (fs : Fs)
  | rmPtable
  | rmFile (fs : Fs)
deriving DecidableEq, Repr

def atexit : List Cleanup :=
  [.pumount .boot, .pumount .rootfs, .losetupDetach .boot, .losetupDetach .rootfs,
    .rmPtable, .rmFile .boot, .rmFile .rootfs]

/-- Where the script is: the copies count the sectors done, the trap runs what is left
of `atexit` with the exit status decided before. -/
inductive Pc
  | bootstrap
  | copyPtable
  | copy (fs : Fs) (k : ℕ)
  | trap (status : ℕ) (rest : List Cleanup)
deriving DecidableEq, Repr

structure Build (β : Type*) where
  pc : Pc
  cache : Fs → Cache ℕ β
  image : List β

/-- What can happen next: a write of the bootstrap to a mounted file system, a write-back,
the end of the bootstrap, one sector copied (or the next command begun), the failure of
a copy (of the partition table after `done` sectors), one command of the trap. -/
inductive Act (β : Type*)
  | write (fs : Fs) (i : ℕ) (b : β)
  | writeBack (fs : Fs) (i : ℕ)
  | bootstrapExit (status : ℕ)
  | copy
  | copyFails (done : ℕ)
  | cleanup

variable {β : Type*} (l : Layout) (ptable : Fin PTABLE_SIZE → β)

def Layout.size (l : Layout) : Fs → ℕ
  | .boot => l.bootpartSize
  | .rootfs => l.rootfsSize

/-- The command behind a copy that ended with `status`; only the status of the last one
is the exit status of the script. -/
def afterCopy (status : ℕ) : Fs → Pc
  | .boot => .copy .rootfs 0
  | .rootfs => .trap status atexit

def setCache (s : Build β) (fs : Fs) (c : Cache ℕ β) : Build β :=
  { s with cache := Function.update s.cache fs c }

def step (s : Build β) : Act β → Option (Build β)
  | .write fs i b =>
    if s.pc = .bootstrap then some (setCache s fs ((s.cache fs).write i b)) else none
  | .writeBack fs i => some (setCache s fs ((s.cache fs).writeBack i))
  | .bootstrapExit status =>
    if s.pc = .bootstrap then
      some { s with pc := if status = 0 then .copyPtable else .trap status atexit }
    else none
  | .copy =>
    match s.pc with
    | .copyPtable => some { s with pc := .copy .boot 0, image := List.ofFn ptable }
    | .copy fs k =>
      if k < l.size fs then
        some { s with pc := .copy fs (k + 1), image := s.image ++ [(s.cache fs).disk k] }
      else some { s with pc := afterCopy 0 fs }
    | _ => none
  | .copyFails done =>
    match s.pc with
    | .copyPtable => some { s with pc := .copy .boot 0, image := (List.ofFn ptable).take done }
    | .copy fs _ => some { s with pc := afterCopy 1 fs }
    | _ => none
  | .cleanup =>
    match s.pc with
    | .trap status (.pumount fs :: rest) =>
      some { setCache s fs (s.cache fs).flush with pc := .trap status rest }
    | .trap status (_ :: rest) => some { s with pc := .trap status rest }
    | _ => none

/-- What a step does, one case for each branch of the script. -/
inductive Stepped (s : Build β) : Act β → Build β → Prop
  | write (fs : Fs) (i : ℕ) (b : β) (hpc : s.pc = .bootstrap) :
    Stepped s (.write fs i b) (setCache s fs ((s.cache fs).write i b))
  | writeBack (fs : Fs) (i : ℕ) :
    Stepped s (.writeBack fs i) (setCache s fs ((s.cache fs).writeBack i))
  | bootstrapOk (hpc : s.pc = .bootstrap) :
    Stepped s (.bootstrapExit 0) { s with pc := .copyPtable }
  | bootstrapFails (status : ℕ) (hpc : s.pc = .bootstrap) (hstatus : status ≠ 0) :
    Stepped s (.bootstrapExit status) { s with pc := .trap status atexit }
  | ptable (hpc : s.pc = .copyPtable) :
    Stepped s .copy { s with pc := .copy .boot 0, image := List.ofFn ptable }
  | sector (fs : Fs) (k : ℕ) (hpc : s.pc = .copy fs k) (hk : k < l.size fs) :
    Stepped s .copy { s with pc := .copy fs (k + 1), image := s.image ++ [(s.cache fs).disk k] }
  | fileEnd (fs : Fs) (k : ℕ) (hpc : s.pc = .copy fs k) (hk : l.size fs ≤ k) :
    Stepped s .copy { s with pc := afterCopy 0 fs }
  | ptableFails (done : ℕ) (hpc : s.pc = .copyPtable) :
    Stepped s (.copyFails done)
      { s with pc := .copy .boot 0, image := (List.ofFn ptable).take done }
  | fileFails (done : ℕ) (fs : Fs) (k : ℕ) (hpc : s.pc = .copy fs k) :
    Stepped s (.copyFails done) { s with pc := afterCopy 1 fs }
  | pumount (status : ℕ) (fs : Fs) (rest : List Cleanup)
      (hpc : s.pc = .trap status (.pumount fs :: rest)) :
    Stepped s .cleanup { setCache s fs (s.cache fs).flush with pc := .trap status rest }
  | cleanup (status : ℕ) (c : Cleanup) (rest : List Cleanup)
      (hpc : s.pc = .trap status (c :: rest)) :
    Stepped s .cleanup { s with pc := .trap status rest }

theorem stepped_of_step {s t : Build β} {a : Act β} (h : step l ptable s a = some t) :
    Stepped l ptable s a t := by
  cases a with
  | write fs i b =>
    obtain ⟨hpc, ht⟩ := Option.ite_none_right_eq_some.mp h
    cases ht
    exact .write fs i b hpc
  | writeBack fs i =>
    cases h
    exact .writeBack fs i
  | bootstrapExit status =>
    obtain ⟨hpc, ht⟩ := Option.ite_none_right_eq_some.mp h
    cases ht
    by_cases hs : status = 0
    · subst hs
      exact .bootstrapOk hpc
    · simpa only [if_neg hs] using .bootstrapFails status hpc hs
  | copy =>
    simp only [step] at h
    split at h
    · rename_i hpc
      cases h
      exact .ptable hpc
    · rename_i fs k hpc
      split at h <;> cases h
      · exact .sector fs k hpc (by assumption)
      · exact .fileEnd fs k hpc (by omega)
    · cases h
  | copyFails done =>
    simp only [step] at h
    split at h
    · rename_i hpc
      cases h
      exact .ptableFails done hpc
    · rename_i fs k hpc
      cases h
      exact .fileFails done fs k hpc
    · cases h
  | cleanup =>
    simp only [step] at h
    split at h
    · rename_i status fs rest hpc
      cases h
      exact .pumount status fs rest hpc
    · rename_i status c rest _ hpc
      cases h
      exact .cleanup status c rest hpc
    · cases h

def start (fs : Fs → ℕ → β) : Build β := ⟨.bootstrap, fun f => Cache.clean (fs f), []⟩

def written (fs : Fs) (img : ℕ → β) : List (Act β) → ℕ → β
  | [] => img
  | .write f i b :: as => written fs (if f = fs then Function.update img i b else img) as
  | _ :: as => written fs img as

def Succeeded (s : Build β) : Prop := s.pc = .trap 0 []

def Holds (s : Build β) (content : Fs → ℕ → β) : Prop :=
  (s.image.drop PTABLE_SIZE).take l.bootpartSize = (List.range l.bootpartSize).map (content .boot) ∧
    s.image.drop (PTABLE_SIZE + l.bootpartSize) = (List.range l.rootfsSize).map (content .rootfs)

/-- A sector is copied only when it has been written back, and the copies of the
partition table and of the boot file do not fail. -/
def Safe (s : Build β) : Act β → Prop
  | .copy =>
    match s.pc with
    | .copy fs k => k < l.size fs → (s.cache fs).dirty k = none
    | _ => True
  | .copyFails _ =>
    match s.pc with
    | .copy .rootfs _ => True
    | _ => False
  | _ => True

instance [DecidableEq β] (s : Build β) : ∀ a, Decidable (Safe l s a)
  | .copy =>
    match h : s.pc with
    | .copy fs k =>
      decidable_of_iff (k < l.size fs → (s.cache fs).dirty k = none) (by simp [Safe, h])
    | .bootstrap | .copyPtable | .trap _ _ => isTrue (by simp [Safe, h])
  | .copyFails _ =>
    match h : s.pc with
    | .copy .rootfs _ => isTrue (by simp [Safe, h])
    | .copy .boot _ | .bootstrap | .copyPtable | .trap _ _ => isFalse (by simp [Safe, h])
  | .write _ _ _ | .writeBack _ _ | .bootstrapExit _ | .cleanup => isTrue trivial

def views (s : Build β) (fs : Fs) : ℕ → β := (s.cache fs).view

theorem views_setCache (s : Build β) (fs f : Fs) (c : Cache ℕ β) :
    views (setCache s fs c) f = if f = fs then c.view else views s f := by
  by_cases h : f = fs
  · subst h
    simp [views, setCache]
  · simp [views, setCache, h]

theorem views_setCache_same {s : Build β} {fs : Fs} {c : Cache ℕ β}
    (h : c.view = (s.cache fs).view) : views (setCache s fs c) = views s := by
  funext f
  rw [views_setCache]
  by_cases hf : f = fs
  · subst hf
    rw [if_pos rfl, h]
    rfl
  · rw [if_neg hf]

/-- Only writes change what a file system holds, and they come before the assembly. -/
theorem views_step {s t : Build β} {a : Act β} (h : step l ptable s a = some t) (fs : Fs) :
    views t fs = written fs (views s fs) [a] := by
  cases stepped_of_step l ptable h with
  | write f i b hpc =>
    rw [views_setCache, Cache.view_write]
    by_cases hf : fs = f
    · subst hf
      simp [written, views]
    · simp [written, hf, Ne.symm hf]
  | writeBack f i => exact congrFun (views_setCache_same (Cache.view_writeBack _ i)) fs
  | pumount status f rest hpc => exact congrFun (views_setCache_same (Cache.view_flush _)) fs
  | _ => rfl

theorem written_append (fs : Fs) (img : ℕ → β) (as bs : List (Act β)) :
    written fs img (as ++ bs) = written fs (written fs img as) bs := by
  induction as generalizing img with
  | nil => rfl
  | cons a as ih => cases a <;> exact ih _

theorem views_run {s t : Build β} {as : List (Act β)} (h : run (step l ptable) s as = some t)
    (fs : Fs) : views t fs = written fs (views s fs) as := by
  induction as generalizing s with
  | nil =>
    cases h
    rfl
  | cons a as ih =>
    obtain ⟨u, hu, h⟩ := (run_cons _).mp h
    rw [ih h, views_step l ptable hu]
    exact (written_append fs _ [a] as).symm

def assembled (content : Fs → ℕ → β) : Fs → ℕ → List β
  | .boot, k => List.ofFn ptable ++ (List.range k).map (content .boot)
  | .rootfs, k => List.ofFn ptable ++ (List.range l.bootpartSize).map (content .boot) ++
      (List.range k).map (content .rootfs)

theorem assembled_succ (content : Fs → ℕ → β) (fs : Fs) (k : ℕ) :
    assembled l ptable content fs (k + 1) = assembled l ptable content fs k ++ [content fs k] := by
  cases fs <;> simp [assembled, List.range_succ]

theorem assembled_rootfs_zero (content : Fs → ℕ → β) :
    assembled l ptable content .rootfs 0 = assembled l ptable content .boot l.bootpartSize := by
  simp [assembled]

/-- While the files are copied, and when the trap runs after that, the image is made of
what the file systems hold. -/
structure Faithful (s : Build β) : Prop where
  copying : ∀ fs k, s.pc = .copy fs k →
    k ≤ l.size fs ∧ s.image = assembled l ptable (views s) fs k
  copied : ∀ rest, s.pc = .trap 0 rest →
    s.image = assembled l ptable (views s) .rootfs l.rootfsSize

theorem Faithful.of_same {s t : Build β} (hs : Faithful l ptable s) (himage : t.image = s.image)
    (hviews : views t = views s) (hcopy : ∀ fs k, t.pc = .copy fs k → s.pc = .copy fs k)
    (htrap : ∀ rest, t.pc = .trap 0 rest → ∃ rest', s.pc = .trap 0 rest') :
    Faithful l ptable t := by
  constructor
  · intro fs k hpc
    rw [himage, hviews]
    exact hs.copying fs k (hcopy fs k hpc)
  · intro rest hpc
    obtain ⟨rest', hpc⟩ := htrap rest hpc
    rw [himage, hviews]
    exact hs.copied rest' hpc

theorem Faithful.of_pc {s : Build β} (hcopy : ∀ fs k, s.pc ≠ .copy fs k)
    (htrap : ∀ rest, s.pc ≠ .trap 0 rest) : Faithful l ptable s :=
  ⟨fun fs k hpc => absurd hpc (hcopy fs k), fun rest hpc => absurd hpc (htrap rest)⟩

theorem Faithful.of_copy {s : Build β} {fs : Fs} {k : ℕ} (hpc : s.pc = .copy fs k)
    (hk : k ≤ l.size fs)
    (himage : s.image = assembled l ptable (views s) fs k) : Faithful l ptable s := by
  constructor
  · rintro fs' k' hpc'
    cases hpc.symm.trans hpc'
    exact ⟨hk, himage⟩
  · exact fun rest hpc' => nomatch hpc.symm.trans hpc'

theorem faithful_step (s : Build β) (a : Act β) (t : Build β) (hs : Faithful l ptable s)
    (hok : Safe l s a) (h : step l ptable s a = some t) : Faithful l ptable t := by
  cases stepped_of_step l ptable h with
  | write f i b hpc =>
    have hpc' : (setCache s f ((s.cache f).write i b)).pc = .bootstrap := hpc
    refine .of_pc l ptable ?_ ?_ <;> simp [hpc']
  | writeBack f i =>
    exact hs.of_same l ptable rfl (views_setCache_same (Cache.view_writeBack _ i))
      (fun _ _ hpc => hpc) (fun rest hpc => ⟨rest, hpc⟩)
  | bootstrapOk hpc => exact .of_pc l ptable (by simp) (by simp)
  | bootstrapFails status hpc hstatus => exact .of_pc l ptable (by simp) (by simp [hstatus])
  | ptable hpc => exact .of_copy l ptable rfl (Nat.zero_le _) (by simp [assembled])
  | sector fs k hpc hk =>
    obtain ⟨-, himage⟩ := hs.copying fs k hpc
    -- what is on the disk is what the file system sees
    simp only [Safe, hpc] at hok
    refine .of_copy l ptable rfl hk ?_
    show s.image ++ [(s.cache fs).disk k] = _
    rw [Cache.disk_eq_view (hok hk), himage]
    exact (assembled_succ l ptable (views s) fs k).symm
  | fileEnd fs k hpc hk =>
    obtain ⟨hk', himage⟩ := hs.copying fs k hpc
    cases hk'.antisymm hk
    cases fs with
    | boot =>
      exact .of_copy l ptable rfl (Nat.zero_le _)
        (himage.trans (assembled_rootfs_zero l ptable (views s)).symm)
    | rootfs => exact ⟨fun fs' k' hpc' => (nomatch hpc'), fun rest _ => himage⟩
  | ptableFails done hpc =>
    simp only [Safe, hpc] at hok
  | fileFails done fs k hpc =>
    -- only the last copy has its status looked at
    cases fs with
    | boot => simp only [Safe, hpc] at hok
    | rootfs => exact .of_pc l ptable (by simp [afterCopy]) (by simp [afterCopy])
  | pumount status fs rest hpc =>
    refine hs.of_same l ptable rfl (views_setCache_same (Cache.view_flush _))
      (fun _ _ hpc' => nomatch hpc') fun rest' hpc' => ?_
    cases hpc'
    exact ⟨_, hpc⟩
  | cleanup status c rest hpc =>
    refine hs.of_same l ptable rfl rfl (fun _ _ hpc' => nomatch hpc') fun rest' hpc' => ?_
    cases hpc'
    exact ⟨_, hpc⟩

theorem holds_of_assembled {s : Build β} {content : Fs → ℕ → β}
    (h : s.image = assembled l ptable content .rootfs l.rootfsSize) : Holds l s content := by
  have hp : (List.ofFn ptable).length = PTABLE_SIZE := List.length_ofFn
  have hb : ((List.range l.bootpartSize).map (content .boot)).length = l.bootpartSize := by simp
  rw [Holds, h, assembled]
  constructor
  · rw [List.append_assoc, List.drop_left' hp, List.take_left' hb]
  · exact List.drop_left' (by rw [List.length_append, hp, hb])

/-- When every sector has been written back before it is copied, and no copy fails unseen,
a run that exits with status 0 leaves an image whose two parts are the file systems with
every write of the bootstrap. -/
theorem holds_of_safe_run (fs : Fs → ℕ → β) {as : List (Act β)} {s : Build β}
    (hok : StepsMeet (step l ptable) (Safe l) (start fs) as)
    (h : run (step l ptable) (start fs) as = some s) (hs : Succeeded s) :
    Holds l s fun f => written f (fs f) as := by
  have hstart : Faithful l ptable (start fs) :=
    ⟨fun fs k hpc => (nomatch hpc), fun rest hpc => (nomatch hpc)⟩
  have himage := (run_invariant _ (faithful_step l ptable) hstart hok h).copied [] hs
  have hviews : views s = fun f => written f (fs f) as := funext fun f => views_run l ptable h f
  rw [hviews] at himage
  exact holds_of_assembled l ptable himage

/-- A build of two one-sector file systems whose only write is written back in time. -/
def timelyRun : List (Act Bool) :=
  [.write .rootfs 0 true, .writeBack .rootfs 0, .bootstrapExit 0] ++ List.replicate 5 .copy ++
    List.replicate atexit.length .cleanup

theorem holds_timelyRun : ∃ s : Build Bool,
    run (step ⟨1, 1⟩ fun _ => false) (start fun _ _ => false) timelyRun = some s ∧
      Succeeded s ∧ Holds ⟨1, 1⟩ s fun f => written f (fun _ => false) timelyRun :=
  ⟨_, rfl, rfl, holds_of_safe_run ⟨1, 1⟩ (fun _ => false) (fun _ _ => false) (by decide) rfl rfl⟩

theorem run_copySectors (fs : Fs) (n k : ℕ) (s : Build β) (hpc : s.pc = .copy fs k)
    (hn : k + n = l.size fs) :
    run (step l ptable) s (List.replicate (n + 1) .copy) = some { s with
      pc := afterCopy 0 fs
      image := s.image ++ (List.range' k n).map (s.cache fs).disk } := by
  induction n generalizing k s with
  | zero =>
    have hk : ¬ k < l.size fs := by omega
    simp [run, step, hpc, hk]
  | succ n ih =>
    have hk : k < l.size fs := by omega
    have hstep : step l ptable s .copy = some { s with
        pc := .copy fs (k + 1), image := s.image ++ [(s.cache fs).disk k] } := by
      simp only [step, hpc, if_pos hk]
    rw [List.replicate_succ]
    refine (run_cons _).mpr ⟨_, hstep, ?_⟩
    rw [ih (k + 1) _ rfl (by omega)]
    simp [List.range'_succ]

theorem run_copyFile (fs : Fs) (s : Build β) (hpc : s.pc = .copy fs 0) :
    run (step l ptable) s (List.replicate (l.size fs + 1) .copy) = some { s with
      pc := afterCopy 0 fs
      image := s.image ++ (List.range (l.size fs)).map (s.cache fs).disk } := by
  rw [run_copySectors l ptable fs (l.size fs) 0 s hpc (Nat.zero_add _), List.range_eq_range']

def lateRun (b : β) : List (Act β) :=
  [.write .rootfs 0 b, .bootstrapExit 0, .copy] ++
    (List.replicate (l.bootpartSize + 1) .copy ++ (List.replicate (l.rootfsSize + 1) .copy ++
      List.replicate atexit.length .cleanup))

theorem run_lateRun (fs : Fs → ℕ → β) (b : β) : ∃ s, run (step l ptable) (start fs) (lateRun l b) =
    some s ∧ Succeeded s ∧ s.image = assembled l ptable fs .rootfs l.rootfsSize := by
  let s₁ := setCache (start fs) .rootfs (((start fs).cache .rootfs).write 0 b)
  let s₂ : Build β := { s₁ with pc := .copy .boot 0, image := List.ofFn ptable }
  have h₂ : run (step l ptable) (start fs) [.write .rootfs 0 b, .bootstrapExit 0, .copy] =
      some s₂ := rfl
  refine ⟨_, run_append _ h₂ (run_append _ (run_copyFile l ptable .boot s₂ rfl)
    (run_append _ (run_copyFile l ptable .rootfs _ rfl) rfl)), rfl, rfl⟩

theorem written_of_no_write (fs : Fs) (img : ℕ → β) (as : List (Act β))
    (h : ∀ a ∈ as, a = .copy ∨ a = .cleanup) : written fs img as = img := by
  induction as with
  | nil => rfl
  | cons a as ih =>
    have has := ih fun b hb => h b (List.mem_cons_of_mem _ hb)
    rcases h a List.mem_cons_self with rfl | rfl
    · exact has
    · exact has

theorem written_lateRun (img : ℕ → β) (b : β) :
    written .rootfs img (lateRun l b) = Function.update img 0 b := by
  simp only [lateRun, List.cons_append, List.nil_append, written, if_true]
  refine written_of_no_write .rootfs _ _ fun a ha => ?_
  simp only [List.mem_append, List.mem_replicate] at ha
  tauto

/-- With the script's own sizes, an image can be left without the last write although
the script exits with status 0. -/
theorem not_holds_lateRun : ∃ s : Build Bool,
    run (step layout fun _ => false) (start fun _ _ => false) (lateRun layout true) = some s ∧
      Succeeded s ∧ ¬ Holds layout s fun f => written f (fun _ => false) (lateRun layout true) := by
  obtain ⟨s, hrun, hs, himage⟩ := run_lateRun layout (fun _ => false) (fun _ _ => false) true
  refine ⟨s, hrun, hs, fun h => ?_⟩
  have hr := h.2.symm.trans (holds_of_assembled layout _ himage).2
  simp only [written_lateRun, List.map_inj_left] at hr
  have h0 := hr 0 (List.mem_range.mpr (by decide))
  simp at h0

end ChronosUpdates.Mkimage
