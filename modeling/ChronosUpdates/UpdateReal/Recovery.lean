import ChronosUpdates.UpdateReal.BootFiles
import ChronosUpdates.UpdateReal.Links
import Mathlib.Logic.Relation

namespace ChronosUpdates.UpdateReal
open Shell Md5sum

structure Camera where
  tree : Tree
  links : Links

def Touches (ms : List (Path × Bytes)) (t : Tree) : Act → Path → Prop
  | .rmBoot, p => ∃ n q, p = boot :: n :: q ∧ visible n = true
  | .tar, p => p ∈ ms.map Prod.fst
  | .rmTiLogo, p => p = partition ++ [tiLogo] ∧ t p ≠ .dir
  | .cpBoot, p =>
    ∃ n c, p = partition ++ [n] ∧ visible n = true ∧ t [boot, n] = .file c ∧ t p ≠ .dir
  | _, _ => False

/-- A command that is cut off leaves anything but a directory at a path that it works on. -/
def CutOff (ms : List (Path × Bytes)) (t t' : Tree) (a : Act) : Prop :=
  ∀ p, t' p = t p ∨ Touches ms t a p ∧ t' p ≠ .dir

/-- The links of a service when a command for it is cut off: it deletes, or makes, one link after
the other. -/
def Command.Left (s s' : Finset Place) : Command → Prop
  | .remove _ => s' ⊆ s
  | .add _ places => s' = s ∨ s = ∅ ∧ s' ⊆ places.toFinset

def LinksLeft (ls ls' : Links) (a : Act) : Prop :=
  ∀ n, ls' n = ls n ∨ ∃ cmd ∈ commandFor n a, cmd.Left (ls n) (ls' n)

def noFault (ms : List (Path × Bytes)) : Fault := .stops ms.length none

section
variable {δ : Type*} [DecidableEq δ] (md5 : Bytes → δ) (untar : Bytes → Archive)

/-- A run of the package that is cut off inside the command `a`; up to there `tar` may have met a
full file system. -/
inductive CutRun (tgz : FileState Bytes) : Camera → Camera → Prop
  | mk {env : Env δ} {pre post : List Act} {a : Act} {k : ℕ} {left : Option ℕ} {c c' : Camera}
      (package : env.disk updateTgz = tgz) (acts : updateReal md5 env = pre ++ a :: post)
      (tree : CutOff (members untar tgz) (effects (members untar tgz) (.stops k left) c.tree pre)
        c'.tree a)
      (links : LinksLeft (linkEffects pre c.links) c'.links a) : CutRun tgz c c'

/-- The camera at the end of a run in which nothing goes wrong. -/
def updated (env : Env δ) (c : Camera) : Camera :=
  let ms := members untar (env.disk updateTgz)
  ⟨effects ms (noFault ms) c.tree (updateReal md5 env), linkEffects (updateReal md5 env) c.links⟩

end

/-- The paths that a run sets, whatever was there before; on the boot partition all but the
directories. -/
def Remade (ms : List (Path × Bytes)) (t : Tree) (p : Path) : Prop :=
  (∃ n q, p = boot :: n :: q ∧ visible n = true) ∨ p ∈ ms.map Prod.fst ∨
    (p = partition ++ [tiLogo] ∧ t p ≠ .dir) ∨
      ∃ n, p = partition ++ [n] ∧ visible n = true ∧ [boot, n] ∈ ms.map Prod.fst ∧ t p ≠ .dir

/-- The trees differ only where a run makes things anew. -/
def Alike (ms : List (Path × Bytes)) (t t' : Tree) : Prop :=
  ∀ p, t' p = t p ∨ Remade ms t p ∧ t' p ≠ .dir

def BootRemade (ms : List (Path × Bytes)) (t : Tree) : Prop :=
  ∀ n c, visible n = true → t [boot, n] = .file c → [boot, n] ∈ ms.map Prod.fst

section
variable {ms : List (Path × Bytes)} {t t' t'' : Tree}

theorem Alike.trans (h : Alike ms t t') (h' : Alike ms t' t'') : Alike ms t t'' := by
  intro p
  rcases h' p with he | ⟨hmade, hdir⟩
  · rw [he]
    exact h p
  · -- a directory of the boot partition is one in all three trees
    have hmade : t p = t' p ∨ Remade ms t p → Remade ms t p := by
      rintro (he | hmade')
      · simpa only [Remade, he] using hmade
      · exact hmade'
    exact .inr ⟨hmade ((h p).imp Eq.symm And.left), hdir⟩

theorem alike_of_cutOff {a : Act} (hboot : a = .cpBoot → BootRemade ms t)
    (h : CutOff ms t t' a) : Alike ms t t' := by
  intro p
  rcases h p with he | ⟨htouch, hdir⟩
  · exact .inl he
  refine .inr ⟨?_, hdir⟩
  cases a with
  | rmBoot => exact .inl htouch
  | tar => exact .inr (.inl htouch)
  | rmTiLogo => exact .inr (.inr (.inl htouch))
  | cpBoot =>
    obtain ⟨n, c, hp, hn, hfile, hold⟩ := htouch
    exact .inr (.inr (.inr ⟨n, hp, hn, hboot rfl n c hn hfile, hold⟩))
  | _ => cases htouch

theorem putMembers_congr {p : Path} (h : p ∈ ms.map Prod.fst ∨ t' p = t p) :
    ms.foldl putMember t' p = ms.foldl putMember t p := by
  induction ms generalizing t t' with
  | nil => exact h.resolve_left (by simp)
  | cons m ms ih =>
    rw [List.foldl_cons, List.foldl_cons]
    apply ih
    by_cases hm : p = m.1
    · right
      rw [putMember, putMember, put, put, hm, Function.update_self, Function.update_self]
    · refine h.imp (fun hp => ?_) fun he => ?_
      · exact (List.mem_cons.mp hp).resolve_left hm
      · rw [putMember, putMember, put, put, Function.update_of_ne hm, Function.update_of_ne hm, he]

theorem putMembers_of_mem {p : Path} (h : p ∈ ms.map Prod.fst) :
    ∃ c, ms.foldl putMember t p = .file c := by
  induction ms generalizing t with
  | nil => cases h
  | cons m ms ih =>
    rw [List.foldl_cons]
    rcases List.mem_cons.mp h with rfl | hp
    · rcases putMembers_cases ms (putMember t m) m.1 with he | ⟨c, -, he⟩
      · exact ⟨m.2, he.trans (Function.update_self ..)⟩
      · exact ⟨c, he⟩
    · exact ih hp

theorem extract_noFault (ms : List (Path × Bytes)) (t : Tree) :
    extract ms t (noFault ms) = ms.foldl putMember t := by
  simp [extract, noFault]

theorem extract_ne_dir {k : ℕ} {left : Option ℕ} {p : Path} :
    extract ms t (.stops k left) p = t p ∨ extract ms t (.stops k left) p ≠ .dir := by
  have hfold : (ms.take k).foldl putMember t p = t p ∨ (ms.take k).foldl putMember t p ≠ .dir := by
    refine (putMembers_cases (ms.take k) t p).imp_right ?_
    rintro ⟨c, -, he⟩
    simp [he]
  cases hk : ms[k]? with
  | none => simpa only [extract, hk] using hfold
  | some m =>
    simp only [extract, hk]
    by_cases hm : p = m.1
    · right
      rw [hm, put, Function.update_self]
      cases left <;> simp [remnant]
    · rw [put, Function.update_of_ne hm]
      exact hfold

theorem removeBoot_of_not_visible {p : Path}
    (h : ∀ n q, p = boot :: n :: q → visible n ≠ true) (fault : Fault) :
    removeBoot t fault p = t p := by
  cases fault with
  | readOnly => rfl
  | stops k left =>
    match p with
    | d :: n :: q =>
      simp only [removeBoot]
      rw [if_neg]
      rintro ⟨rfl, hn⟩
      exact h n q rfl hn
    | [] | [d] => rfl

theorem copyBoot_of_not_visible {p : Path}
    (h : ∀ n, p = partition ++ [n] → visible n ≠ true) : copyBoot t p = t p := by
  match p with
  | [a, b, n] =>
    rw [copyBoot, if_neg]
    rintro ⟨hab, hn⟩
    exact h n (by rw [← hab]; rfl) hn
  | [] | [a] | [a, b] | a :: b :: n :: m :: q => rfl

theorem cutOff_effect (ms : List (Path × Bytes)) (t : Tree) (k : ℕ) (left : Option ℕ) (a : Act) :
    CutOff ms t (effect ms (.stops k left) t a) a := by
  intro p
  cases a with
  | rmBoot =>
    by_cases hp : ∃ n q, p = boot :: n :: q ∧ visible n = true
    · obtain ⟨n, q, rfl, hn⟩ := hp
      exact .inr ⟨⟨n, q, rfl, hn⟩, by simp [effect, removeBoot, hn]⟩
    · left
      rw [effect]
      exact removeBoot_of_not_visible (fun n q he hn => hp ⟨n, q, he, hn⟩) _
  | tar =>
    by_cases hp : p ∈ ms.map Prod.fst
    · exact extract_ne_dir.imp_right fun h => ⟨hp, h⟩
    · left
      rw [effect, extract_of_not_member]
      rintro m hm rfl
      exact hp (List.mem_map_of_mem hm)
  | rmTiLogo =>
    by_cases hp : p = partition ++ [tiLogo]
    · subst hp
      by_cases hdir : t (partition ++ [tiLogo]) = .dir
      · exact .inl (by rw [effect, rmFile_self, if_pos hdir, hdir])
      · exact .inr ⟨⟨rfl, hdir⟩, by simp [effect, rmFile_self, hdir]⟩
    · exact .inl (rmFile_of_ne hp)
  | cpBoot =>
    by_cases hp : ∃ n, p = partition ++ [n] ∧ visible n = true
    · obtain ⟨n, rfl, hn⟩ := hp
      have hcopy : effect ms (.stops k left) t .cpBoot (partition ++ [n]) =
          cpEntry (t [boot, n]) (t (partition ++ [n])) := by
        rw [effect, copyBoot_partition, if_pos hn]
      rw [hcopy]
      cases hold : t (partition ++ [n]) with
      -- `cp` does not write over a directory
      | dir => exact .inl rfl
      | absent | file c =>
        cases hnew : t [boot, n] with
        | file c => exact .inr ⟨⟨n, c, rfl, hn, hnew, by simp [hold]⟩, by simp [cpEntry]⟩
        | absent | dir => exact .inl rfl
    · exact .inl (copyBoot_of_not_visible fun n he hn => hp ⟨n, he, hn⟩)
  | _ => exact .inl rfl

theorem bootRemade_rmBoot (ms : List (Path × Bytes)) (t : Tree) (k : ℕ) (left : Option ℕ) :
    BootRemade ms (effect ms (.stops k left) t .rmBoot) := by
  intro n c hn hfile
  simp [effect, removeBoot, hn] at hfile

theorem bootRemade_effect (h : BootRemade ms t) (k : ℕ) (left : Option ℕ) (a : Act) :
    BootRemade ms (effect ms (.stops k left) t a) := by
  intro n c hn hfile
  have hpart : ∀ m, [boot, n] ≠ partition ++ [m] := by simp [partition]
  rcases cutOff_effect ms t k left a [boot, n] with he | ⟨htouch, -⟩
  · exact h n c hn (he ▸ hfile)
  · cases a with
    | rmBoot => exact bootRemade_rmBoot ms t k left n c hn hfile
    | tar => exact htouch
    | rmTiLogo => exact absurd htouch.1 (hpart tiLogo)
    | cpBoot =>
      obtain ⟨m, c', hp, -⟩ := htouch
      exact absurd hp (hpart m)
    | _ => cases htouch

end

theorem mem_of_append_eq {α : Type*} {a b : α} {xs ys pre post : List α} (ha : a ∉ xs)
    (hab : a ≠ b) (h : xs ++ b :: ys = pre ++ a :: post) : b ∈ pre := by
  rcases List.append_eq_append_iff.mp h with ⟨mid, rfl, hmid⟩ | ⟨mid, rfl, hmid⟩
  · cases mid with
    | nil => exact absurd (List.cons.inj hmid).1.symm hab
    | cons c mid =>
      obtain ⟨rfl, -⟩ := List.cons.inj hmid
      simp
  · cases mid with
    | nil => exact absurd (List.cons.inj hmid).1 hab
    | cons c mid =>
      obtain ⟨rfl, -⟩ := List.cons.inj hmid
      exact absurd (by simp) ha

section
variable {δ : Type*} [DecidableEq δ] (md5 : Bytes → δ)

theorem updateReal_cases (env : Env δ) : (∀ a ∈ updateReal md5 env, a.Harmless) ∨
    ∃ early, updateReal md5 env = early ++ install env ∧ ∀ a ∈ early, a.Harmless := by
  set start := Act.killall none "camApp" :: if env.manifest.isSome then [.md5sum] else []
  have hstart : ∀ a ∈ start, a.Harmless := by
    simp only [start]
    split <;> simp [Act.Harmless]
  have hwait := waitForCamApp_harmless env
  cases hv : validates md5 env with
  | false => exact .inl (harmless_of_rejected md5 hv)
  | true =>
    cases hw : (waitForCamApp env).2 with
    | false =>
      left
      simp only [updateReal, hv, hw, if_true, Bool.false_eq_true, if_false, List.append_nil]
      intro a ha
      exact (List.mem_append.mp ha).elim (hstart a) (hwait a)
    | true =>
      refine .inr ⟨start ++ (waitForCamApp env).1, ?_,
        fun a ha => (List.mem_append.mp ha).elim (hstart a) (hwait a)⟩
      simp only [updateReal, hv, hw, if_true, List.append_assoc, start]

theorem rmBoot_before_cpBoot {env : Env δ} {pre post : List Act}
    (h : updateReal md5 env = pre ++ .cpBoot :: post) : .rmBoot ∈ pre := by
  rcases updateReal_cases md5 env with hall | ⟨early, hsplit, hearly⟩
  · exact (hall .cpBoot (by simp [h])).elim
  · -- the deletion is the first command of the installation
    obtain ⟨rest, hinstall⟩ : ∃ rest, install env = .rmBoot :: rest := ⟨_, rfl⟩
    rw [hsplit, hinstall] at h
    exact mem_of_append_eq (fun hc => (hearly .cpBoot hc).elim) (by decide) h

theorem alike_prefix (ms : List (Path × Bytes)) {env : Env δ} (t : Tree) (k : ℕ)
    (left : Option ℕ) {acts : List Act} (h : acts <+: updateReal md5 env) :
    Alike ms t (effects ms (.stops k left) t acts) ∧
      (.rmBoot ∈ acts → BootRemade ms (effects ms (.stops k left) t acts)) := by
  induction acts using List.reverseRecOn with
  | nil => exact ⟨fun _ => .inl rfl, by simp⟩
  | append_singleton acts a ih =>
    obtain ⟨halike, hboot⟩ := ih ((List.prefix_append acts [a]).trans h)
    set s := effects ms (.stops k left) t acts
    have hs : effects ms (.stops k left) t (acts ++ [a]) = effect ms (.stops k left) s a := by
      rw [effects_append]
      rfl
    -- the copy starts from a `/boot` that the run itself has filled
    have hready : a = .cpBoot → BootRemade ms s := by
      rintro rfl
      obtain ⟨post, hpost⟩ := h
      rw [List.append_assoc, List.singleton_append] at hpost
      exact hboot (rmBoot_before_cpBoot md5 hpost.symm)
    rw [hs]
    refine ⟨halike.trans (alike_of_cutOff hready (cutOff_effect ms s k left a)), fun hmem => ?_⟩
    rcases List.mem_append.mp hmem with hmem | hmem
    · exact bootRemade_effect (hboot hmem) k left a
    · rw [← List.mem_singleton.mp hmem]
      exact bootRemade_rmBoot ms s k left

theorem alike_of_cutRun {untar : Bytes → Archive} {tgz : FileState Bytes} {c c' : Camera}
    (h : CutRun md5 untar tgz c c') : Alike (members untar tgz) c.tree c'.tree := by
  cases h with
  | @mk env pre post a k left _ _ _ hacts htree _ =>
    have hpre : pre <+: updateReal md5 env := hacts ▸ List.prefix_append pre (a :: post)
    obtain ⟨halike, hboot⟩ := alike_prefix md5 (members untar tgz) c.tree k left hpre
    refine halike.trans (alike_of_cutOff ?_ htree)
    rintro rfl
    exact hboot (rmBoot_before_cpBoot md5 hacts)

end

section
variable {ms earlier : List (Path × Bytes)} {t t' : Tree}

def readyToCopy (ms : List (Path × Bytes)) (t : Tree) : Tree :=
  rmFile (extract ms (removeBoot t (noFault ms)) (noFault ms)) (partition ++ [tiLogo])

theorem readyToCopy_apply (t : Tree) (p : Path) : readyToCopy ms t p =
    if p = partition ++ [tiLogo] ∧ ms.foldl putMember (removeBoot t (noFault ms)) p ≠ .dir then
      .absent
    else ms.foldl putMember (removeBoot t (noFault ms)) p := by
  rw [readyToCopy, extract_noFault]
  by_cases hp : p = partition ++ [tiLogo]
  · subst hp
    rw [rmFile_self]
    split <;> simp [*]
  · rw [rmFile_of_ne hp, if_neg fun h => hp h.1]

theorem readyToCopy_of_ne {p : Path} (h : p ≠ partition ++ [tiLogo]) (t : Tree) :
    readyToCopy ms t p = ms.foldl putMember (removeBoot t (noFault ms)) p := by
  rw [readyToCopy_apply, if_neg fun hp => h hp.1]

theorem readyToCopy_congr {p : Path} (h : ms.foldl putMember (removeBoot t' (noFault ms)) p =
    ms.foldl putMember (removeBoot t (noFault ms)) p) :
    readyToCopy ms t' p = readyToCopy ms t p := by
  rw [readyToCopy_apply, readyToCopy_apply, h]

theorem putMembers_of_not_mem {p : Path} (h : p ∉ ms.map Prod.fst) (t : Tree) :
    ms.foldl putMember t p = t p := by
  rcases putMembers_cases ms t p with he | ⟨c, hm, -⟩
  · exact he
  · exact absurd (List.mem_map_of_mem hm) h

/-- A file of the archive `earlier` that the other one does not have, or its copy on the boot
partition. -/
def Leftover (earlier ms : List (Path × Bytes)) (p : Path) : Prop :=
  (p ∈ earlier.map Prod.fst ∧ p ∉ ms.map Prod.fst) ∨ ∃ n, p = partition ++ [n] ∧
    visible n = true ∧ [boot, n] ∈ earlier.map Prod.fst ∧ [boot, n] ∉ ms.map Prod.fst

theorem not_leftover_self (ms : List (Path × Bytes)) (p : Path) : ¬ Leftover ms ms p := by
  rintro (⟨hp, hnot⟩ | ⟨n, -, -, hp, hnot⟩)
  · exact hnot hp
  · exact hnot hp

/-- The visible files of `/boot` are the ones of the archive when they are copied. -/
theorem readyToCopy_boot {n : Text} {q : Path} (hn : visible n = true) :
    readyToCopy ms t' (boot :: n :: q) = readyToCopy ms t (boot :: n :: q) := by
  have hlogo : boot :: n :: q ≠ partition ++ [tiLogo] := by simp [partition, boot]
  rw [readyToCopy_of_ne hlogo, readyToCopy_of_ne hlogo]
  apply putMembers_congr
  right
  simp [removeBoot, noFault, hn]

/-- Up to the last copy the trees become the same, but for files of the earlier archive that only
it has, and for the files that the copy replaces. -/
theorem readyToCopy_of_alike (h : Alike earlier t t') (p : Path) :
    readyToCopy ms t' p = readyToCopy ms t p ∨ (p ∈ earlier.map Prod.fst ∧ p ∉ ms.map Prod.fst) ∨
      ∃ n, p = partition ++ [n] ∧ visible n = true ∧ [boot, n] ∈ earlier.map Prod.fst ∧
        readyToCopy ms t p ≠ .dir ∧ readyToCopy ms t' p ≠ .dir := by
  by_cases hmember : p ∈ ms.map Prod.fst
  · exact .inl (readyToCopy_congr (putMembers_congr (.inl hmember)))
  by_cases hboot : ∃ n q, p = boot :: n :: q ∧ visible n = true
  · obtain ⟨n, q, rfl, hn⟩ := hboot
    exact .inl (readyToCopy_boot hn)
  have hkept : ∀ t, ms.foldl putMember (removeBoot t (noFault ms)) p = t p := by
    intro t
    rw [putMembers_of_not_mem hmember]
    exact removeBoot_of_not_visible (fun n q he hn => hboot ⟨n, q, he, hn⟩) _
  have hready : ∀ t : Tree, t p ≠ .dir → readyToCopy ms t p ≠ .dir := by
    intro t ht
    rw [readyToCopy_apply, hkept]
    split
    · simp
    · exact ht
  rcases h p with he | ⟨hmade | hmade | ⟨hp, hold⟩ | ⟨n, hp, hn, hm, hold⟩, hdir⟩
  · exact .inl (readyToCopy_congr (by rw [hkept, hkept, he]))
  · exact absurd hmade hboot
  · exact .inr (.inl ⟨hmade, hmember⟩)
  · left
    rw [readyToCopy_apply, readyToCopy_apply, hkept, hkept, if_pos ⟨hp, hdir⟩, if_pos ⟨hp, hold⟩]
  · exact .inr (.inr ⟨n, hp, hn, hm, hready t hold, hready t' hdir⟩)

theorem copyBoot_of_alike (h : Alike earlier t t') (p : Path) :
    copyBoot (readyToCopy ms t') p = copyBoot (readyToCopy ms t) p ∨ Leftover earlier ms p := by
  by_cases hp : ∃ n, p = partition ++ [n] ∧ visible n = true
  · obtain ⟨n, rfl, hn⟩ := hp
    rw [copyBoot_partition, copyBoot_partition, if_pos hn, if_pos hn,
      @readyToCopy_boot ms t t' n [] hn]
    rcases readyToCopy_of_alike h (partition ++ [n]) with he | hmember | ⟨m, hm, -, hm', hd, hd'⟩
    · rw [he]
      exact .inl rfl
    · exact .inr (.inl hmember)
    · obtain rfl : n = m := by simpa using hm
      by_cases hown : [boot, n] ∈ ms.map Prod.fst
      · have hlogo : [boot, n] ≠ partition ++ [tiLogo] := by simp [partition]
        obtain ⟨c, hc⟩ := @putMembers_of_mem ms (removeBoot t (noFault ms)) _ hown
        left
        rw [readyToCopy_of_ne hlogo, hc, cpEntry_file hd, cpEntry_file hd']
      · exact .inr (.inr ⟨n, rfl, hn, hm', hown⟩)
  · have hother : ∀ t, copyBoot t p = t p :=
      fun t => copyBoot_of_not_visible fun n he hn => hp ⟨n, he, hn⟩
    rw [hother, hother]
    refine (readyToCopy_of_alike h p).imp_right fun hdiffer => .inl ?_
    rcases hdiffer with hmember | ⟨n, he, hn, -⟩
    · exact hmember
    · exact absurd ⟨n, he, hn⟩ hp

theorem install_of_alike {δ : Type*} (env : Env δ) (h : Alike earlier t t') (p : Path) :
    effects ms (noFault ms) t' (install env) p = effects ms (noFault ms) t (install env) p ∨
      Leftover earlier ms p := by
  have hstart : ∀ t, effects ms (noFault ms) t (install env) = copyBoot (readyToCopy ms t) :=
    fun t => effects_install ms (noFault ms) t env
  rw [hstart, hstart]
  exact copyBoot_of_alike h p

end

theorem commandFor_cases (n : String) : fixLinks.filterMap (commandFor n) = [] ∨
    (∃ cs, fixLinks.filterMap (commandFor n) = .remove n :: cs) ∨ n = "udhcpcd" := by
  by_cases hn : n ∈ wanted.map Prod.fst
  · obtain ⟨e, he, rfl⟩ := List.mem_map.mp hn
    by_cases hdhcp : e.1 = "udhcpcd"
    · exact .inr (.inr hdhcp)
    · rcases commandFor_wanted e he hdhcp with ⟨hc, -⟩ | hc
      · exact .inr (.inl ⟨_, hc⟩)
      · exact .inr (.inl ⟨_, hc⟩)
  · exact .inl (commandFor_eq_none hn)

/-- The links differ only for services whose links are removed first, and for `udhcpcd`, which may
have got some of its own where it had none. -/
def LinksAlike (ls ls' : Links) : Prop :=
  ∀ n, (∃ cs, fixLinks.filterMap (commandFor n) = .remove n :: cs) ∨ ls' n = ls n ∨
    n = "udhcpcd" ∧ ls n = ∅ ∧ ls' n ⊆ defaultPlaces.toFinset

/-- The service is `udhcpcd`; it had no links, and keeps the part of them that a call of
`update-rc.d` has made before it was cut off. -/
def HalfMade (n : String) (before after : Finset Place) : Prop :=
  n = "udhcpcd" ∧ before = ∅ ∧ after ≠ ∅ ∧ after ⊂ defaultPlaces.toFinset

section
variable {ls ls' ls'' : Links}

theorem LinksAlike.refl (ls : Links) : LinksAlike ls ls := fun _ => .inr (.inl rfl)

theorem LinksAlike.trans (h : LinksAlike ls ls') (h' : LinksAlike ls' ls'') :
    LinksAlike ls ls'' := by
  intro n
  rcases h n with hremoved | he | ⟨hn, hnone, hsub⟩
  · exact .inl hremoved
  · simpa only [he] using h' n
  · rcases h' n with hremoved | he' | ⟨-, -, hsub'⟩
    · exact .inl hremoved
    · exact .inr (.inr ⟨hn, hnone, he' ▸ hsub⟩)
    · exact .inr (.inr ⟨hn, hnone, hsub'⟩)

/-- The commands make the same of links that are alike, unless `udhcpcd` has some of its own and
not all. -/
theorem LinksAlike.settle (h : LinksAlike ls ls') (n : String) :
    (fixLinks.filterMap (commandFor n)).foldl Command.own (ls' n) =
        (fixLinks.filterMap (commandFor n)).foldl Command.own (ls n) ∨
      HalfMade n (ls n) ((fixLinks.filterMap (commandFor n)).foldl Command.own (ls' n)) := by
  rcases h n with ⟨cs, hn⟩ | he | ⟨rfl, hnone, hsub⟩
  · left
    rw [hn]
    rfl
  · rw [he]
    exact .inl rfl
  · rw [commandFor_udhcpcd]
    simp only [List.foldl_cons, List.foldl_nil, Command.own, hnone, if_true]
    by_cases hsome : ls' "udhcpcd" = ∅
    · rw [if_pos hsome]
      exact .inl rfl
    · rw [if_neg hsome]
      by_cases hall : ls' "udhcpcd" = defaultPlaces.toFinset
      · exact .inl hall
      · exact .inr ⟨rfl, rfl, hsome, hsub.ssubset_of_ne hall⟩

theorem linksLeft_linkEffect (ls : Links) (a : Act) : LinksLeft ls (linkEffect ls a) a := by
  intro n
  rw [linkEffect_apply]
  cases commandFor n a with
  | none => exact .inl rfl
  | some cmd =>
    refine .inr ⟨cmd, rfl, ?_⟩
    cases cmd with
    | remove m => exact Finset.empty_subset _
    | add m places =>
      simp only [Option.toList_some, List.foldl_cons, List.foldl_nil, Command.own, Command.Left]
      by_cases hnone : ls n = ∅
      · rw [if_pos hnone]
        exact .inr ⟨hnone, Finset.Subset.refl _⟩
      · exact .inl (if_neg hnone)

end

section
variable {δ : Type*}

theorem commandFor_harmless {acts : List Act} (h : ∀ a ∈ acts, a.Harmless) (n : String) :
    acts.filterMap (commandFor n) = [] := by
  rw [List.filterMap_eq_nil_iff]
  intro a ha
  have hharmless := h a ha
  cases a with
  | updateRcD args => exact hharmless.elim
  | _ => rfl

theorem commandFor_install (env : Env δ) (n : String) :
    (install env).filterMap (commandFor n) = fixLinks.filterMap (commandFor n) := by
  have hpmic : ∀ as : List Pmic.Act, (as.map Act.pmic).filterMap (commandFor n) = [] := by
    intro as
    rw [List.filterMap_eq_nil_iff]
    rintro a ha
    obtain ⟨b, -, rfl⟩ := List.mem_map.mp ha
    rfl
  simp only [install, List.filterMap_append, hpmic]
  split <;> simp [List.filterMap_cons, commandFor]

variable [DecidableEq δ] (md5 : Bytes → δ)

theorem commandFor_updateReal (env : Env δ) (n : String) :
    (updateReal md5 env).filterMap (commandFor n) <+: fixLinks.filterMap (commandFor n) := by
  rcases updateReal_cases md5 env with hall | ⟨early, hsplit, hearly⟩
  · rw [commandFor_harmless hall]
    exact List.nil_prefix
  · rw [hsplit, List.filterMap_append, commandFor_harmless hearly, commandFor_install,
      List.nil_append]

theorem linkEffects_updateReal {env : Env δ} (h : .rmBoot ∈ updateReal md5 env) (ls : Links)
    (n : String) : linkEffects (updateReal md5 env) ls n =
      (fixLinks.filterMap (commandFor n)).foldl Command.own (ls n) := by
  rcases updateReal_cases md5 env with hall | ⟨early, hsplit, hearly⟩
  · exact (hall _ h).elim
  · rw [linkEffects_apply, hsplit, List.filterMap_append, commandFor_harmless hearly,
      commandFor_install, List.nil_append]

theorem linksAlike_of_linksLeft {env : Env δ} {a : Act} (ha : a ∈ updateReal md5 env)
    {ls ls' : Links} (h : LinksLeft ls ls' a) : LinksAlike ls ls' := by
  intro n
  rcases h n with he | ⟨cmd, hcmd, hleft⟩
  · exact .inr (.inl he)
  have hmem : cmd ∈ fixLinks.filterMap (commandFor n) :=
    (commandFor_updateReal md5 env n).subset (List.mem_filterMap.mpr ⟨a, ha, hcmd⟩)
  rcases commandFor_cases n with hn | hn | rfl
  · rw [hn] at hmem
    cases hmem
  · exact .inl hn
  · rw [commandFor_udhcpcd, List.mem_singleton] at hmem
    subst hmem
    exact .inr (hleft.imp_right fun hsome => ⟨rfl, hsome⟩)

/-- Up to any command a run leaves links that another run will put in order. -/
theorem linksAlike_of_part {env : Env δ} {acts : List Act} (h : acts <+: updateReal md5 env)
    (ls : Links) : LinksAlike ls (linkEffects acts ls) := by
  induction acts using List.reverseRecOn with
  | nil => exact LinksAlike.refl ls
  | append_singleton acts a ih =>
    have hlast : linkEffects (acts ++ [a]) ls = linkEffect (linkEffects acts ls) a := by
      simp only [linkEffects, List.foldl_append, List.foldl_cons, List.foldl_nil]
    rw [hlast]
    have ha : a ∈ updateReal md5 env := h.subset (by simp)
    exact (ih ((List.prefix_append acts [a]).trans h)).trans
      (linksAlike_of_linksLeft md5 ha (linksLeft_linkEffect _ a))

theorem linksAlike_of_cutRun {untar : Bytes → Archive} {tgz : FileState Bytes} {c c' : Camera}
    (h : CutRun md5 untar tgz c c') : LinksAlike c.links c'.links := by
  cases h with
  | @mk env pre post a k left _ _ _ hacts _ hlinks =>
    have hpre : pre <+: updateReal md5 env := hacts ▸ List.prefix_append pre (a :: post)
    have ha : a ∈ updateReal md5 env := by simp [hacts]
    exact (linksAlike_of_part md5 hpre c.links).trans (linksAlike_of_linksLeft md5 ha hlinks)

theorem alike_of_cutRuns {untar : Bytes → Archive} {tgz : FileState Bytes} {c c' : Camera}
    (h : Relation.ReflTransGen (CutRun md5 untar tgz) c c') :
    Alike (members untar tgz) c.tree c'.tree ∧ LinksAlike c.links c'.links := by
  induction h with
  | refl => exact ⟨fun _ => .inl rfl, LinksAlike.refl _⟩
  | tail _ hcut ih =>
    exact ⟨ih.1.trans (alike_of_cutRun md5 hcut), ih.2.trans (linksAlike_of_cutRun md5 hcut)⟩

/-- Whatever runs of the package have been cut off, one that gets to its end makes the same of
the camera as if there had been no others; only `udhcpcd` may be left with a part of its links. -/
theorem updated_of_cutRuns (untar : Bytes → Archive) {env : Env δ} {c c' : Camera}
    (hrun : .rmBoot ∈ updateReal md5 env)
    (h : Relation.ReflTransGen (CutRun md5 untar (env.disk updateTgz)) c c') :
    (updated md5 untar env c').tree = (updated md5 untar env c).tree ∧
      ∀ n, (updated md5 untar env c').links n = (updated md5 untar env c).links n ∨
        HalfMade n (c.links n) ((updated md5 untar env c').links n) := by
  obtain ⟨htree, hlinks⟩ := alike_of_cutRuns md5 h
  set ms := members untar (env.disk updateTgz) with hms
  constructor
  · simp only [updated, ← hms]
    rw [effects_updateReal md5 hrun, effects_updateReal md5 hrun]
    funext p
    exact (install_of_alike env htree p).resolve_right (not_leftover_self ms p)
  · intro n
    simp only [updated, linkEffects_updateReal md5 hrun]
    exact hlinks.settle n

end

def oldKernel : Camera where
  tree p := if p = [boot, "uImage".toList] ∨ p = partition ++ ["uImage".toList] then .file [9]
    else .absent
  links _ := ∅

/-- The power is lost when `tar` has written one byte of the new kernel. -/
def halfKernel : Camera where
  tree := put (effects (members untarKernel (.readable kernelTgz)) (.stops 0 none) oldKernel.tree
    [.killall none "camApp", .md5sum, .rmBoot]) [boot, "uImage".toList] (.file [1])
  links _ := ∅

/-- The power is lost again when `update-rc.d` has made the first link of `udhcpcd`. -/
def oneLink : Camera :=
  let acts := (updateReal kernelSum kernelUpdate).takeWhile (· ≠ .updateRcD ["udhcpcd", "defaults"])
  ⟨effects (members untarKernel (.readable kernelTgz)) (.stops 1 none) halfKernel.tree acts,
    Function.update (linkEffects acts halfKernel.links) "udhcpcd" {⟨"2", true, 20⟩}⟩

theorem cutRun_halfKernel :
    CutRun kernelSum untarKernel (.readable kernelTgz) oldKernel halfKernel := by
  refine @CutRun.mk _ _ _ _ _ kernelUpdate [.killall none "camApp", .md5sum, .rmBoot] _ .tar 0
    none _ _ rfl rfl (fun p => ?_) fun _ => .inl rfl
  by_cases hp : p = [boot, "uImage".toList]
  · have hmember : [boot, "uImage".toList] ∈
        (members untarKernel (.readable kernelTgz)).map Prod.fst := by decide
    exact .inr ⟨hp ▸ hmember, by simp [halfKernel, put, hp]⟩
  · exact .inl (Function.update_of_ne hp ..)

theorem cutRun_oneLink : CutRun kernelSum untarKernel (.readable kernelTgz) halfKernel oneLink := by
  refine @CutRun.mk _ _ _ _ _ kernelUpdate _ [.reboot] (.updateRcD ["udhcpcd", "defaults"]) 1
    none _ _ rfl (by decide) (fun _ => .inl rfl) fun n => ?_
  by_cases hn : n = "udhcpcd"
  · subst hn
    have hnone : linkEffects ((updateReal kernelSum kernelUpdate).takeWhile
        (· ≠ .updateRcD ["udhcpcd", "defaults"])) halfKernel.links "udhcpcd" = ∅ := by
      rw [linkEffects_apply]
      decide
    refine .inr ⟨.add "udhcpcd" defaultPlaces, rfl, .inr ⟨hnone, ?_⟩⟩
    simp only [oneLink, Function.update_self]
    decide
  · exact .inl (Function.update_of_ne hn ..)

theorem updated_oneLink : .rmBoot ∈ updateReal kernelSum kernelUpdate ∧
    (updated kernelSum untarKernel kernelUpdate oneLink).tree =
        (updated kernelSum untarKernel kernelUpdate oldKernel).tree ∧
      ∀ n, (updated kernelSum untarKernel kernelUpdate oneLink).links n =
          (updated kernelSum untarKernel kernelUpdate oldKernel).links n ∨
        HalfMade n ∅ ((updated kernelSum untarKernel kernelUpdate oneLink).links n) :=
  ⟨by decide, updated_of_cutRuns kernelSum untarKernel (by decide)
    (.tail (.single cutRun_halfKernel) cutRun_oneLink)⟩

end ChronosUpdates.UpdateReal
