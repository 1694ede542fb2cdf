import ChronosUpdates.UpdateReal.Validation

namespace ChronosUpdates.UpdateReal
open Shell Md5sum

/-- Each file of the boot partition, the logo apart, is as it was before, or complete as
`update.tgz` holds it. -/
def BootFilesWhole (ms : List (Path × Bytes)) (before after : Tree) : Prop :=
  ∀ p c, p ≠ [tiLogo] → after (partition ++ p) = .file c →
    before (partition ++ p) = .file c ∨ (boot :: p, c) ∈ ms

/-- What the fault leaves in `/boot` that did not come there as a whole: old files that could
not be deleted, or the beginning of the member that `tar` was at. -/
def LeftInBoot (ms : List (Path × Bytes)) (before : Tree) (n : Text) (c : Bytes) : Fault → Prop
  | .readOnly => before [boot, n] = .file c
  | .stops k left => ∃ m, ms[k]? = some m ∧ m.1 = [boot, n] ∧ remnant m.2 left = .file c

section
variable {ms : List (Path × Bytes)} {t before : Tree} {p : Path} {n : Text} {c : Bytes}

theorem putMembers_cases (ms : List (Path × Bytes)) (t : Tree) (p : Path) :
    ms.foldl putMember t p = t p ∨ ∃ c, (p, c) ∈ ms ∧ ms.foldl putMember t p = .file c := by
  induction ms generalizing t with
  | nil => exact .inl rfl
  | cons m ms ih =>
    rw [List.foldl_cons]
    rcases ih (putMember t m) with h | ⟨c, hm, h⟩
    · by_cases hp : p = m.1
      · subst hp
        exact .inr ⟨m.2, List.mem_cons_self, h.trans (Function.update_self ..)⟩
      · exact .inl (h.trans (Function.update_of_ne hp ..))
    · exact .inr ⟨c, List.mem_cons_of_mem _ hm, h⟩

theorem extract_of_not_member (h : ∀ m ∈ ms, m.1 ≠ p) (fault : Fault) :
    extract ms t fault p = t p := by
  have hfold : ∀ k, (ms.take k).foldl putMember t p = t p := by
    intro k
    rcases putMembers_cases (ms.take k) t p with h' | ⟨c, hm, -⟩
    · exact h'
    · exact absurd rfl (h _ (List.mem_of_mem_take hm))
  cases fault with
  | readOnly => rfl
  | stops k left =>
    simp only [extract]
    cases hk : ms[k]? with
    | some m =>
      exact (Function.update_of_ne (h m (List.mem_of_getElem? hk)).symm ..).trans (hfold k)
    | none => exact hfold k

theorem removeBoot_of_ne {d : Text} (hd : d ≠ boot) (p : Path) (fault : Fault) :
    removeBoot t fault (d :: p) = t (d :: p) := by
  cases fault with
  | readOnly => rfl
  | stops k left =>
    cases p with
    | nil => rfl
    | cons n p => simp [removeBoot, hd]

/-- A file in `/boot` behind `tar`: complete, or left by the fault. -/
theorem file_in_boot {fault : Fault} (hn : visible n = true)
    (h : extract ms (removeBoot before fault) fault [boot, n] = .file c) :
    LeftInBoot ms before n c fault ∨ ([boot, n], c) ∈ ms := by
  cases fault with
  | readOnly => exact .inl h
  | stops k left =>
    have hgone : removeBoot before (.stops k left) [boot, n] = .absent := by
      simp [removeBoot, hn]
    have hfold :
        (ms.take k).foldl putMember (removeBoot before (.stops k left)) [boot, n] = .file c →
        ([boot, n], c) ∈ ms := by
      intro hf
      rcases putMembers_cases (ms.take k) (removeBoot before (.stops k left)) [boot, n] with
        h' | ⟨c', hm, h'⟩
      · cases hgone.symm.trans (h'.symm.trans hf)
      · cases h'.symm.trans hf
        exact List.mem_of_mem_take hm
    cases hk : ms[k]? with
    | some m =>
      simp only [extract, hk] at h
      by_cases hp : m.1 = [boot, n]
      · rw [put, hp, Function.update_self] at h
        exact .inl ⟨m, hk, hp, h⟩
      · rw [put, Function.update_of_ne (Ne.symm hp)] at h
        exact .inr (hfold h)
    | none =>
      simp only [extract, hk] at h
      exact .inr (hfold h)

theorem extract_left {fault : Fault} (h : LeftInBoot ms before n c fault) :
    extract ms (removeBoot before fault) fault [boot, n] = .file c := by
  cases fault with
  | readOnly => exact h
  | stops k left =>
    obtain ⟨m, hk, hp, hc⟩ := h
    simp only [extract, hk, put, hp, Function.update_self, hc]

theorem rmFile_of_ne {q : Path} (h : q ≠ p) : rmFile t p q = t q := by
  unfold rmFile
  split
  · rfl
  · exact Function.update_of_ne h ..

theorem rmFile_self : rmFile t p p = if t p = .dir then .dir else .absent := by
  unfold rmFile
  split
  · assumption
  · exact Function.update_self ..

end

variable {δ : Type*}

/-- The files at the end. -/
theorem effects_install (ms : List (Path × Bytes)) (fault : Fault) (t : Tree) (env : Env δ) :
    effects ms fault t (install env) =
      copyBoot (rmFile (extract ms (removeBoot t fault) fault) (partition ++ [tiLogo])) := by
  have hshow : ∀ a ∈ (if isFile (env.disk busyRaw) then [.show busyRaw] else [] : List Act),
      a.Inert := by
    split <;> simp [Act.Inert]
  have hlinks : ∀ a ∈ fixLinks, a.Inert := by
    intro a ha
    obtain ⟨args, -, rfl⟩ := List.mem_map.mp ha
    simp [Act.Inert]
  have hpmic : ∀ l : List Pmic.Act, ∀ a ∈ l.map Act.pmic, a.Inert := by
    intro l a ha
    obtain ⟨b, -, rfl⟩ := List.mem_map.mp ha
    simp [Act.Inert]
  simp only [install, effects_append, effects_of_inert ms fault _ hshow,
    effects_of_inert ms fault _ hlinks, effects_of_inert ms fault _ (hpmic _)]
  rfl

theorem effects_updateReal [DecidableEq δ] (md5 : Bytes → δ) {env : Env δ}
    (h : .rmBoot ∈ updateReal md5 env) (ms : List (Path × Bytes)) (fault : Fault) (t : Tree) :
    effects ms fault t (updateReal md5 env) = effects ms fault t (install env) := by
  obtain ⟨hv, hw⟩ := (rmBoot_mem_iff md5 env).mp h
  have hmd5 : ∀ a ∈ Act.killall none "camApp" :: if env.manifest.isSome then [.md5sum] else [],
      a.Inert := by
    split <;> simp [Act.Inert]
  have hwait : ∀ a ∈ (waitForCamApp env).1, a.Inert :=
    fun a ha => (waitForCamApp_harmless env a ha).inert
  rw [updateReal, hv, hw]
  simp only [if_true, effects_append, effects_of_inert ms fault _ hmd5,
    effects_of_inert ms fault _ hwait]

theorem copyBoot_partition (t : Tree) (n : Text) : copyBoot t (partition ++ [n]) =
    if visible n then cpEntry (t [boot, n]) (t (partition ++ [n])) else t (partition ++ [n]) := by
  simp only [copyBoot, partition, List.cons_append, List.nil_append, true_and]

theorem copyBoot_other (t : Tree) {p : Path} (h : ∀ n, p ≠ [n]) :
    copyBoot t (partition ++ p) = t (partition ++ p) := by
  rcases p with _ | ⟨n, _ | ⟨m, p⟩⟩
  · rfl
  · exact absurd rfl (h n)
  · rfl

theorem cpEntry_eq_file {src dst : Node} {c : Bytes} (h : cpEntry src dst = .file c) :
    dst = .file c ∨ (dst ≠ .dir ∧ src = .file c) := by
  cases dst <;> cases src <;> simp_all [cpEntry]

theorem cpEntry_file {dst : Node} (h : dst ≠ .dir) (c : Bytes) :
    cpEntry (.file c) dst = .file c := by
  cases dst <;> simp_all [cpEntry]

theorem before_copy (untar : Bytes → Archive) (s : FileState Bytes) (fault : Fault) (t : Tree)
    (p : Path) : extract (members untar s) (removeBoot t fault) fault (partition ++ p) =
      t (partition ++ p) := by
  have hmedia : "media".toList ≠ boot := by decide
  rw [extract_of_not_member, partition, List.cons_append, removeBoot_of_ne hmedia]
  intro m hm hp
  cases s with
  | readable c =>
    obtain ⟨d, hd, hhead⟩ := (untar c).below_rootfs m hm
    rw [hp] at hhead
    cases hhead
    exact absurd hd (by decide)
  | missing => cases hm
  | unreadable => cases hm

variable [DecidableEq δ] (md5 : Bytes → δ)

/-- A run that gets to its end leaves whole files on the boot partition exactly when each
visible file that the fault left in `/boot`, and that the last copy can put on the partition,
happens to be as it was there before, or complete. -/
theorem bootFilesWhole_iff (untar : Bytes → Archive) (env : Env δ) (fault : Fault) (before : Tree) :
    (.rmBoot ∈ updateReal md5 env → BootFilesWhole (members untar (env.disk updateTgz)) before
      (effects (members untar (env.disk updateTgz)) fault before (updateReal md5 env))) ↔
      (validates md5 env = true → CamAppEnds env.disk env.ps →
        ∀ n c, visible n = true → n ≠ tiLogo → before (partition ++ [n]) ≠ .dir →
          LeftInBoot (members untar (env.disk updateTgz)) before n c fault →
          before (partition ++ [n]) = .file c ∨
            ([boot, n], c) ∈ members untar (env.disk updateTgz)) := by
  rw [← and_imp, ← waitForCamApp_ends, ← rmBoot_mem_iff]
  refine imp_congr_right fun hrun => ?_
  set ms := members untar (env.disk updateTgz)
  set behindTar := extract ms (removeBoot before fault) fault
  have hpart : ∀ p, behindTar (partition ++ p) = before (partition ++ p) :=
    before_copy untar _ fault before
  have hlogo : ∀ p, p ≠ [tiLogo] →
      rmFile behindTar (partition ++ [tiLogo]) (partition ++ p) = before (partition ++ p) := by
    intro p hp
    rw [rmFile_of_ne fun h => hp (List.append_cancel_left h), hpart]
  have hboot : ∀ n, rmFile behindTar (partition ++ [tiLogo]) [boot, n] = behindTar [boot, n] :=
    fun n => rmFile_of_ne (by simp [partition])
  rw [effects_updateReal md5 hrun, effects_install]
  constructor
  · -- what the fault left is copied
    intro hwhole n c hn hne hdir hleft
    have hfile : behindTar [boot, n] = .file c := extract_left hleft
    refine hwhole [n] c (by simpa using hne) ?_
    rw [copyBoot_partition, if_pos hn, hboot, hlogo [n] (by simpa using hne), hfile,
      cpEntry_file hdir]
  · -- a file of the partition was copied from `/boot`, or was there before
    intro hleft p c hp hfile
    by_cases hsingle : ∃ n, p = [n]
    · obtain ⟨n, rfl⟩ := hsingle
      have hne : n ≠ tiLogo := by simpa using hp
      rw [copyBoot_partition, hboot, hlogo [n] hp] at hfile
      split at hfile
      · rename_i hn
        rcases cpEntry_eq_file hfile with h | ⟨hdir, h⟩
        · exact .inl h
        · rcases file_in_boot hn h with h | h
          · exact hleft n c hn hne hdir h
          · exact .inr h
      · exact .inl hfile
    · rw [copyBoot_other _ fun n hn => hsingle ⟨n, hn⟩, hlogo p hp] at hfile
      exact .inl hfile

def untarKernel (c : Bytes) : Archive where
  members := if c = kernelTgz then [([boot, "uImage".toList], [1, 2, 3])] else []
  below_rootfs := by
    split <;> decide

def kernelUpdate : Env Text where
  updatePartition := "/media/sda1".toList
  manifest := some (md5sum kernelSum [(updateTgz, kernelTgz)])
  disk n := if n = updateTgz then .readable kernelTgz else .missing
  ps := []
  pcUtil := []

/-- `tar` stops in the kernel: its first byte is all that the boot partition gets. -/
theorem not_bootFilesWhole_kernelUpdate :
    validates kernelSum kernelUpdate = true ∧ .reboot ∈ updateReal kernelSum kernelUpdate ∧
      ¬ BootFilesWhole (members untarKernel (kernelUpdate.disk updateTgz)) (fun _ => .absent)
        (effects (members untarKernel (kernelUpdate.disk updateTgz)) (.stops 0 (some 1))
          (fun _ => .absent) (updateReal kernelSum kernelUpdate)) := by
  refine ⟨by decide, by decide, fun h => ?_⟩
  have h := h ["uImage".toList] [1] (by decide) (by decide)
  revert h
  decide

end ChronosUpdates.UpdateReal
