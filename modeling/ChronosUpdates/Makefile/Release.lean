import ChronosUpdates.Makefile.Stage

namespace ChronosUpdates.Makefile
open Shell FileTree Runs

variable {γ : Type*}

theorem isZip_zipFile (version : Text) : isZip (zipFile version) = true :=
  List.isSuffixOf_iff_suffix.mpr (List.suffix_append _ _)

def defaultGoal (version : Text) : Target := .zip ⟨zipFile version, isZip_zipFile version⟩

def stageNames : List Path := distFiles.map (into camUpdateDir) ++ [updateTgz, updateMd5sum]

def prepared (k : Tools γ) (version : Text) (src : Files γ) : Files γ :=
  let t := src.insert filesystemRevision (k.text version)
  if (t.lookup rulesD).isSome then t
  else t.insert rulesD (k.symlink (path ["etc", "udev", "rules.d"]))

/-- What the default goal stages in an empty directory. -/
def defaultStage (k : Tools γ) (version : Text) (src : Files γ) : Option (Files γ) :=
  (readAll distFiles src).map fun files =>
    (writeAll (copies files) ∅).insert updateTgz
      (k.tar (listing (below rootfsDir) (prepared k version src)))

def stageOf (k : Tools γ) (version : Text) : Target → Files γ → Option (Files γ)
  | .debian, src => debianStage src
  | _, src => defaultStage k version src

/-- The folder of the package is what the sources and the version make it, with its manifest. -/
def FromSources (k : Tools γ) (x : Package γ) : Prop :=
  ∃ w, stageOf k x.version x.goal (sourceTree x.before) = some w ∧
    (folder k x.content).Perm (list (fun _ => true) (w.insert updateMd5sum (manifestOf k w)))

/-- All that is in `camUpdate/` has the name of a file that the default goal makes. -/
def OnlyStaged (t : Files γ) : Prop :=
  ∀ p, below camUpdateDir p = true → t.lookup p ≠ none → p ∈ stageNames

theorem touches_stage {version : Text} {goal target : Target} {l : Line} {p : Path}
    (hgoal : goal = defaultGoal version) (hneeded : Needed goal target)
    (hl : l ∈ recipe version target) (h : touches l p = true) :
    (target = .camUpdate ∧ p ∈ distFiles.map (into camUpdateDir)) ∨
      (target = .updateTgz ∧ (p = filesystemRevision ∨ p = rulesD ∨ p = updateTgz)) ∨
        (target = .updateMd5sum ∧ p = updateMd5sum) ∨
          target = defaultGoal version ∧ p = zipFile version := by
  rcases writes_of_touches hl h with hw | ⟨ht, -⟩
  · rcases needed_zip hneeded hgoal with rfl | rfl | rfl | rfl
    · exact .inr (.inr (.inr ⟨rfl, List.mem_singleton.mp hw⟩))
    · exact .inr (.inr (.inl ⟨rfl, List.mem_singleton.mp hw⟩))
    · exact .inl ⟨rfl, hw⟩
    · exact .inr (.inl ⟨rfl, by simpa [Writes] using hw⟩)
  · rcases needed_zip hneeded hgoal with rfl | rfl | rfl | rfl <;> cases ht

/-- Apart from the start of an invocation, an event changes what a line may change. -/
theorem next_frame {k : Tools γ} {s s' : Session γ} {e : Event γ} (h : next k s e = some s') :
    (∃ version goal, s' = ⟨s.tree, version, goal, s.tree, fun _ => 0, fun _ => false, s.packages⟩) ∨
      ∃ target l, Ready s target ∧ (recipe s.version target)[s.done target]? = some l ∧
        (s'.version = s.version ∧ s'.goal = s.goal ∧ s'.before = s.before) ∧
          ∀ p, touches l p = false → s'.tree.lookup p = s.tree.lookup p := by
  cases e with
  | make version goal => exact .inl ⟨version, goal, next_make h⟩
  | line target =>
    obtain ⟨hready, l, t, hl, he, rfl⟩ := next_line h
    exact .inr ⟨target, l, hready, hl, ⟨rfl, rfl, rfl⟩, fun p hp => exec_frame he hp⟩
  | fail target junk =>
    obtain ⟨hready, l, hl, rfl⟩ := next_fail h
    exact .inr ⟨target, l, hready, hl, ⟨rfl, rfl, rfl⟩, fun p hp => damage_frame hp junk s.tree⟩

def OthersStay (s : Session γ) : Prop :=
  s.goal = defaultGoal s.version → ∀ p, below camUpdateDir p = true → p ∉ stageNames →
    s.tree.lookup p = s.before.lookup p

theorem below_zipFile (version : Text) : below camUpdateDir (zipFile version) = false := by
  simp [below, camUpdateDir, zipFile, path, List.isPrefixOf]

theorem othersStay_next {k : Tools γ} {s s' : Session γ} {e : Event γ} (hs : OthersStay s)
    (h : next k s e = some s') : OthersStay s' := by
  intro hgoal p hp hname
  rcases next_frame h with ⟨version, goal, rfl⟩ | ⟨target, l, hready, hl, ⟨hv, hg, hb⟩, hframe⟩
  · rfl
  · rw [hv, hg] at hgoal
    rw [hb, ← hs hgoal p hp hname]
    apply hframe
    by_contra ht
    rcases touches_stage hgoal hready.1 (List.mem_of_getElem? hl) (by simpa using ht) with
      ⟨-, hmem⟩ | ⟨-, rfl | rfl | rfl⟩ | ⟨-, rfl⟩ | ⟨-, rfl⟩
    · exact hname (List.mem_append_left _ hmem)
    · exact absurd hp (by decide)
    · exact absurd hp (by decide)
    · exact hname (by decide)
    · exact hname (by decide)
    · rw [below_zipFile] at hp
      cases hp

def Copied (src t : Files γ) : Prop :=
  ∃ files, readAll distFiles src = some files ∧
    ∀ p ∈ distFiles.map (into camUpdateDir), t.lookup p = (writeAll (copies files) ∅).lookup p

def CopyProgress (s : Session γ) : Prop :=
  s.goal = defaultGoal s.version → Finished s .camUpdate → Copied (sourceTree s.before) s.tree

theorem outside_source {s : Session γ} (hs : Outside s) (hgoal : s.goal = defaultGoal s.version)
    {p : Path} (hp : isOutput p = false) (himage : p ≠ debianImage) :
    s.tree.lookup p = (sourceTree s.before).lookup p := by
  rw [lookup_sourceTree (below_of_isOutput_false hp)]
  refine hs p hp (fun name hname => ?_) fun e => absurd e himage
  rw [hgoal] at hname
  obtain rfl := Target.zip.inj hname
  rintro rfl
  have hself : below (zipFile s.version) (zipFile s.version) = true := by
    simpa using below_append (zipFile s.version) []
  rw [isOutput_zipFile hself] at hp
  cases hp

theorem names_copies {t : Files γ} {files : List (Path × γ)}
    (h : readAll distFiles t = some files) :
    (copies files).map Prod.fst = distFiles.map (into camUpdateDir) := by
  rw [copies, List.map_map, ← (readAll_spec h).1, List.map_map]
  rfl

theorem copied_of_cp {k : Tools γ} {version : Text} {src t t' : Files γ}
    (hsrc : ∀ f ∈ distFiles, t.lookup f = src.lookup f)
    (he : exec k version t (.cp distFiles camUpdateDir) = some t') : Copied src t' := by
  obtain ⟨files, hfiles, rfl⟩ := Option.map_eq_some_iff.mp he
  refine ⟨files, (readAll_congr fun f hf => (hsrc f hf).symm).trans hfiles, fun p hp => ?_⟩
  rw [← names_copies hfiles] at hp
  obtain ⟨f, hf, hfp⟩ := List.mem_map.mp hp
  exact lookup_writeAll_of_mem ⟨f, hf, hfp⟩ t ∅

theorem Copied.frame {src t t' : Files γ} (h : Copied src t)
    (ht : ∀ p ∈ distFiles.map (into camUpdateDir), t'.lookup p = t.lookup p) : Copied src t' := by
  obtain ⟨files, hfiles, hcopies⟩ := h
  exact ⟨files, hfiles, fun p hp => (ht p hp).trans (hcopies p hp)⟩

/-- The other targets leave the copies alone. -/
theorem touches_copies {version : Text} {goal target : Target} {l : Line} {p : Path}
    (hgoal : goal = defaultGoal version) (hneeded : Needed goal target)
    (hl : l ∈ recipe version target) (ht : target ≠ .camUpdate)
    (hp : p ∈ distFiles.map (into camUpdateDir)) : touches l p = false := by
  by_contra h
  have hnames : ∀ p ∈ distFiles.map (into camUpdateDir), below camUpdateDir p = true ∧
      p ≠ filesystemRevision ∧ p ≠ rulesD ∧ p ≠ updateTgz ∧ p ≠ updateMd5sum := by decide
  obtain ⟨hbelow, hrevision, hrules, htgz, hmd5sum⟩ := hnames p hp
  rcases touches_stage hgoal hneeded hl (by simpa using h) with
    ⟨he, -⟩ | ⟨-, rfl | rfl | rfl⟩ | ⟨-, rfl⟩ | ⟨-, rfl⟩
  · exact ht he
  · exact hrevision rfl
  · exact hrules rfl
  · exact htgz rfl
  · exact hmd5sum rfl
  · rw [below_zipFile] at hbelow
    cases hbelow

theorem copyProgress_next {k : Tools γ} {s s' : Session γ} {e : Event γ} (hout : Outside s)
    (hs : CopyProgress s) (h : next k s e = some s') : CopyProgress s' := by
  intro hgoal hfinished
  cases e with
  | make version goal =>
    rw [next_make h] at hfinished
    cases hfinished
  | line target =>
    obtain ⟨hready, l, t, hl, he, rfl⟩ := next_line h
    by_cases ht : target = .camUpdate
    · -- the last line of `camUpdate` is the `cp`
      subst ht
      rw [Finished, done_advance_self] at hfinished
      have hdone : s.done .camUpdate = 1 := Nat.succ.inj hfinished
      rw [hdone] at hl
      cases hl
      have hplain : ∀ f ∈ distFiles, isOutput f = false ∧ f ≠ debianImage := by decide
      exact copied_of_cp (fun f hf => outside_source hout hgoal (hplain f hf).1 (hplain f hf).2) he
    · rw [Finished, done_advance_of_ne (Ne.symm ht)] at hfinished
      exact (hs hgoal hfinished).frame fun p hp =>
        exec_frame he (touches_copies hgoal hready.1 (List.mem_of_getElem? hl) ht hp)
  | fail target junk =>
    obtain ⟨hready, l, hl, rfl⟩ := next_fail h
    have ht : target ≠ .camUpdate := fun e => not_finished hl (e ▸ hfinished)
    exact (hs hgoal hfinished).frame fun p hp =>
      damage_frame (touches_copies hgoal hready.1 (List.mem_of_getElem? hl) ht hp) junk s.tree

def tgzAssertion (k : Tools γ) (version : Text) (src : Files γ) : ℕ → Files γ → Prop
  | 0, t | 1, t => Agree rootfsDir src t
  | 2, t => Agree rootfsDir (src.insert filesystemRevision (k.text version)) t
  | 3, t => Agree rootfsDir (prepared k version src) t
  | _, t => t.lookup updateTgz = some (k.tar (listing (below rootfsDir) (prepared k version src)))

def TgzProgress (k : Tools γ) (s : Session γ) : Prop :=
  s.goal = defaultGoal s.version → s.failed .updateTgz = false →
    tgzAssertion k s.version (sourceTree s.before) (s.done .updateTgz) s.tree

theorem tgzAssertion_line {k : Tools γ} {version : Text} {src t t' : Files γ} {n : ℕ} {l : Line}
    (hl : (recipe version .updateTgz)[n]? = some l) (he : exec k version t l = some t')
    (h : tgzAssertion k version src n t) : tgzAssertion k version src (n + 1) t' := by
  match n, hl with
  | 0, rfl =>
    cases he
    exact h
  | 1, rfl =>
    cases he
    exact h.insert filesystemRevision (k.text version)
  | 2, rfl =>
    -- `[ -L … ] || ln -s …`: the assertion and the line ask the same question
    have hlink := h rulesD (by decide)
    simp only [exec] at he
    cases he
    unfold tgzAssertion prepared
    simp only [hlink]
    split
    · exact h
    · exact h.insert rulesD _
  | 3, rfl =>
    cases he
    rw [tgzAssertion, AList.lookup_insert, h.listing fun _ hp => hp]
    all_goals simp

theorem tgzAssertion_frame {k : Tools γ} {version : Text} {src t t' : Files γ} {n : ℕ}
    (h : tgzAssertion k version src n t)
    (ht : ∀ p, below rootfsDir p = true ∨ p = updateTgz → t'.lookup p = t.lookup p) :
    tgzAssertion k version src n t' := by
  match n with
  | 0 | 1 | 2 | 3 => exact h.frame fun p hp => ht p (.inl hp)
  | n + 4 => exact (ht updateTgz (.inr rfl)).trans h

theorem touches_rootfs {version : Text} {goal target : Target} {l : Line} {p : Path}
    (hgoal : goal = defaultGoal version) (hneeded : Needed goal target)
    (hl : l ∈ recipe version target) (ht : target ≠ .updateTgz)
    (hp : below rootfsDir p = true ∨ p = updateTgz) : touches l p = false := by
  by_contra h
  have hcopies : ∀ p ∈ distFiles.map (into camUpdateDir),
      ¬ (below rootfsDir p = true ∨ p = updateTgz) := by decide
  have hzip : below rootfsDir (zipFile version) = false ∧ zipFile version ≠ updateTgz := by
    simp [below, rootfsDir, updateTgz, zipFile, path, List.isPrefixOf]
  rcases touches_stage hgoal hneeded hl (by simpa using h) with
    ⟨-, hmem⟩ | ⟨he, -⟩ | ⟨-, rfl⟩ | ⟨-, rfl⟩
  · exact hcopies p hmem hp
  · exact ht he
  · exact absurd hp (by decide)
  · rcases hp with hp | hp
    · rw [hzip.1] at hp
      cases hp
    · exact hzip.2 hp

theorem tgzProgress_next {k : Tools γ} {s s' : Session γ} {e : Event γ} (hs : TgzProgress k s)
    (h : next k s e = some s') : TgzProgress k s' := by
  intro hgoal hfailed
  cases e with
  | make version goal =>
    rw [next_make h]
    intro p hp
    have hbelow : below camUpdateDir p = false := by
      obtain ⟨q, rfl⟩ := List.isPrefixOf_iff_prefix.mp hp
      simp [below, camUpdateDir, rootfsDir, path, List.isPrefixOf]
    exact (lookup_sourceTree hbelow).symm
  | line target =>
    obtain ⟨hready, l, t, hl, he, rfl⟩ := next_line h
    have hprev := hs hgoal hfailed
    by_cases ht : target = .updateTgz
    · subst ht
      rw [done_advance_self]
      exact tgzAssertion_line hl he hprev
    · rw [done_advance_of_ne (Ne.symm ht)]
      exact tgzAssertion_frame hprev fun p hp =>
        exec_frame he (touches_rootfs hgoal hready.1 (List.mem_of_getElem? hl) ht hp)
  | fail target junk =>
    obtain ⟨hready, l, hl, rfl⟩ := next_fail h
    by_cases ht : target = .updateTgz
    · subst ht
      rw [failed_abandon_self] at hfailed
      cases hfailed
    · rw [failed_abandon_of_ne (Ne.symm ht)] at hfailed
      exact tgzAssertion_frame (hs hgoal hfailed) fun p hp =>
        damage_frame (touches_rootfs hgoal hready.1 (List.mem_of_getElem? hl) ht hp) junk s.tree

theorem defaultStage_names {k : Tools γ} {version : Text} {src w : Files γ}
    (h : defaultStage k version src = some w) {p : Path} :
    w.lookup p ≠ none ↔ p ∈ stageNames ∧ p ≠ updateMd5sum := by
  obtain ⟨files, hfiles, rfl⟩ := Option.map_eq_some_iff.mp h
  by_cases hu : p = updateTgz
  · subst hu
    rw [AList.lookup_insert]
    exact iff_of_true (Option.some_ne_none _) (by decide)
  · have hcopies : (∃ f ∈ copies files, f.1 = p) ↔ p ∈ distFiles.map (into camUpdateDir) := by
      rw [← names_copies hfiles, List.mem_map]
    have hmanifest : updateMd5sum ∉ distFiles.map (into camUpdateDir) := by decide
    rw [AList.lookup_insert_ne hu, lookup_writeAll_ne_none, hcopies, stageNames, List.mem_append]
    constructor
    · rintro (hp | hp)
      · exact absurd rfl hp
      · exact ⟨.inl hp, fun e => hmanifest (e ▸ hp)⟩
    · rintro ⟨hp | hp, hne⟩
      · exact .inr hp
      · simp [hu, hne] at hp

theorem mem_stageNames_of_fromSources {k : Tools γ} {x : Package γ} (h : FromSources k x)
    (hgoal : x.goal = defaultGoal x.version) {f : Path × γ} (hf : f ∈ folder k x.content) :
    f.1 ∈ stageNames := by
  obtain ⟨w, hw, hfolder⟩ := h
  rw [hgoal] at hw
  have hlookup := (mem_list.mp (hfolder.mem_iff.mp hf)).2
  by_cases hu : f.1 = updateMd5sum
  · exact hu ▸ by decide
  · rw [AList.lookup_insert_ne hu] at hlookup
    exact ((defaultStage_names hw).mp (by simp [hlookup])).1

theorem agree_default {k : Tools γ} {version : Text} {src t w : Files γ} {m : γ}
    (hw : defaultStage k version src = some w) (hcopied : Copied src t)
    (htgz : t.lookup updateTgz = some (k.tar (listing (below rootfsDir) (prepared k version src))))
    (hm : t.lookup updateMd5sum = some m)
    (hothers : ∀ p, below camUpdateDir p = true → p ∉ stageNames → t.lookup p = none) :
    Agree camUpdateDir (w.insert updateMd5sum m) t := by
  obtain ⟨files, hfiles, hcopies⟩ := hcopied
  simp only [defaultStage, hfiles, Option.map_some, Option.some.injEq] at hw
  subst hw
  intro p hp
  -- from the file written last to those written first
  by_cases hmd5sum : p = updateMd5sum
  · rw [hmd5sum, hm, AList.lookup_insert]
  rw [AList.lookup_insert_ne hmd5sum]
  by_cases hupdate : p = updateTgz
  · rw [hupdate, htgz, AList.lookup_insert]
  rw [AList.lookup_insert_ne hupdate]
  by_cases hcopy : p ∈ distFiles.map (into camUpdateDir)
  · exact hcopies p hcopy
  · have hname : p ∉ stageNames := by
      simp only [stageNames, List.mem_append, List.mem_cons, List.not_mem_nil, or_false]
      tauto
    rw [hothers p hp hname, lookup_writeAll_of_ne]
    · rfl
    · rintro f hf rfl
      exact hcopy (names_copies hfiles ▸ List.mem_map_of_mem hf)

theorem fromSources_of_agree {k : Tools γ} {x : Package γ} {w t : Files γ} {out : Path} {m : γ}
    (hw : stageOf k x.version x.goal (sourceTree x.before) = some w)
    (hfolder : (folder k x.content).Perm (list (packed out) t))
    (hout : below camUpdateDir out = false)
    (hagree : Agree camUpdateDir (w.insert updateMd5sum m) t)
    (hm : m = manifestOf k w) (hbelow : ∀ p, w.lookup p ≠ none → below camUpdateDir p = true) :
    FromSources k x := by
  subst hm
  refine ⟨w, hw, folder_perm_of_agree hfolder hout hagree fun p hp => ?_⟩
  by_cases hu : p = updateMd5sum
  · exact hu ▸ by decide
  · rw [AList.lookup_insert_ne hu] at hp
    exact hbelow p hp

/-- The default package is as the sources make it when nothing else is in the directory, and
otherwise it is not. -/
theorem fromSources_default {k : Tools γ} {x : Package γ} {t : Files γ}
    (hgoal : x.goal = defaultGoal x.version)
    (hfolder : (folder k x.content).Perm (list (packed (zipFile x.version)) t))
    (hm : Manifest k (listed (zipFile x.version)) t) (hcopied : Copied (sourceTree x.before) t)
    (htgz : t.lookup updateTgz =
      some (k.tar (listing (below rootfsDir) (prepared k x.version (sourceTree x.before)))))
    (hothers : ∀ p, below camUpdateDir p = true → p ∉ stageNames →
      t.lookup p = x.before.lookup p) : FromSources k x ↔ OnlyStaged x.before := by
  have hchild : child camUpdateDir (zipFile x.version) = false :=
    Bool.eq_false_iff.mpr fun h => absurd (below_of_child h) (by simp [below_zipFile])
  constructor
  · -- another file of the directory is still there, and is packed
    intro h p hp hne
    by_contra hname
    rw [← hothers p hp hname] at hne
    obtain ⟨c, hc⟩ := Option.ne_none_iff_exists'.mp hne
    have hpacked : packed (zipFile x.version) p = true := by
      rw [packed, Bool.and_eq_true, bne_iff_ne]
      refine ⟨hp, fun e => ?_⟩
      rw [e, below_zipFile] at hp
      cases hp
    have hf : (p, c) ∈ folder k x.content := hfolder.mem_iff.mpr (mem_list.mpr ⟨hpacked, hc⟩)
    exact hname (mem_stageNames_of_fromSources h hgoal hf)
  · intro h
    obtain ⟨w, hw⟩ : ∃ w, defaultStage k x.version (sourceTree x.before) = some w := by
      obtain ⟨files, hfiles, -⟩ := hcopied
      exact ⟨_, congrArg (Option.map _) hfiles⟩
    have hnone : ∀ p, below camUpdateDir p = true → p ∉ stageNames → t.lookup p = none := by
      intro p hp hname
      rw [hothers p hp hname]
      by_contra hne
      exact hname (h p hp hne)
    have hagree := agree_default hw hcopied htgz hm hnone
    have hstage : stageOf k x.version x.goal (sourceTree x.before) = some w := by
      rw [hgoal]
      exact hw
    have hmanifest : k.md5sum (listing (listed (zipFile x.version)) t) = manifestOf k w := by
      have hno : w.lookup updateMd5sum = none := by
        by_contra hne
        exact ((defaultStage_names hw).mp hne).2 rfl
      rw [listing_listed hagree hchild, manifestOf_eq hno]
    refine fromSources_of_agree hstage hfolder (below_zipFile x.version) hagree hmanifest
      fun p hp => ?_
    have hinside : ∀ p ∈ stageNames, below camUpdateDir p = true := by decide
    exact hinside p ((defaultStage_names hw).mp hp).1

structure Traced (k : Tools γ) (s : Session γ) : Prop where
  ordered : Ordered s
  outside : Outside s
  others : OthersStay s
  copies : CopyProgress s
  tgz : TgzProgress k s
  zip : ∀ name, below camUpdateDir name.1 = false → ZipProgress k name s
  debian : DebianProgress k s

theorem traced_next {k : Tools γ} (hk : ZipKeeps k) {s s' : Session γ} {e : Event γ}
    (hs : Traced k s) (h : next k s e = some s') : Traced k s' where
  ordered := ordered_next hs.ordered h
  outside := outside_next hs.outside h
  others := othersStay_next hs.others h
  copies := copyProgress_next hs.outside hs.copies h
  tgz := tgzProgress_next hs.tgz h
  zip := fun name hname => zipProgress_next hk hs.ordered (hs.zip name hname)
    (fun _ _ hchild => absurd (below_of_child hchild) (by simp [hname])) h
  debian := debianProgress_next hs.ordered hs.outside hs.debian h

def Judged (k : Tools γ) (x : Package γ) : Prop :=
  x.goal = .debian ∨ x.goal = defaultGoal x.version →
    (FromSources k x ↔ x.goal = .debian ∨ OnlyStaged x.before)

theorem judged_zip {k : Tools γ} (hk : ZipKeeps k) {s : Session γ} (hs : Traced k s) {t : Files γ}
    {name : { p : Path // isZip p = true }} {l : Line} (hready : Ready s (.zip name))
    (hl : (recipe s.version (.zip name))[s.done (.zip name)]? = some l)
    (he : exec k s.version s.tree l = some t) (hafter : Traced k (advance s (.zip name) t))
    {x : Package γ} (hx : x ∈ completed s (.zip name) t) : Judged k x := by
  obtain ⟨hlast, -, hxs⟩ := mem_completed hx
  obtain ⟨z, rfl⟩ : ∃ z, x = ⟨s.version, s.goal, s.before, z⟩ := ⟨x.content, hxs⟩
  have hgoal : s.goal = .zip name := eq_goal_of_package hready.1 rfl
  have hnot : s.goal ≠ .debian := by
    rw [hgoal]
    exact fun h => (nomatch h)
  rintro (h | hdefault)
  · exact absurd h hnot
  · show FromSources k ⟨s.version, s.goal, s.before, z⟩ ↔ s.goal = .debian ∨ OnlyStaged s.before
    rw [or_iff_right hnot]
    have hname : name.1 = zipFile s.version :=
      congrArg Subtype.val (Target.zip.inj (hgoal.symm.trans hdefault))
    have hbelow : below camUpdateDir name.1 = false := hname ▸ below_zipFile s.version
    have hmd5sum : s.done .updateMd5sum = 2 := hready.2.2.1 .updateMd5sum (by simp [prerequisites])
    have htgz : s.done .updateTgz = 4 := hready.2.2.1 .updateTgz (by simp [prerequisites])
    have hcamUpdate : Finished s .camUpdate := hready.2.2.1 .camUpdate (by simp [prerequisites])
    have hdone : s.done (.zip name) + 1 = 3 := hlast
    -- the assertions before the last line and after it
    have hbefore := hs.zip name hbelow hgoal (hs.ordered.succeeded _ hmd5sum) hready.2.1
    rw [hmd5sum] at hbefore
    have hmanifest : Manifest k (listed name.1) t := by
      have h := hafter.zip name hbelow hgoal (hs.ordered.succeeded _ hmd5sum) hready.2.1
      rw [done_advance_self, done_advance_of_ne (by simp), hmd5sum, hdone] at h
      exact h
    have harchive := hafter.tgz hdefault (hs.ordered.succeeded _ htgz)
    rw [done_advance_of_ne (by simp), htgz] at harchive
    have hcopied := hafter.copies hdefault (finished_advance hl hcamUpdate t)
    have hfolder := folder_completed_zip hk hl he hbefore hx
    rw [hname] at hfolder hmanifest
    exact fromSources_default hdefault hfolder hmanifest hcopied harchive (hafter.others hdefault)

theorem judged_debian {k : Tools γ} (hk : ZipKeeps k) {s : Session γ} (hs : Traced k s)
    {t : Files γ} {l : Line} (hready : Ready s .debian)
    (hl : (recipe s.version .debian)[s.done .debian]? = some l)
    (he : exec k s.version s.tree l = some t) {x : Package γ} (hx : x ∈ completed s .debian t) :
    Judged k x := by
  obtain ⟨hlast, -, hxs⟩ := mem_completed hx
  obtain ⟨z, rfl⟩ : ∃ z, x = ⟨s.version, s.goal, s.before, z⟩ := ⟨x.content, hxs⟩
  have hgoal : s.goal = .debian := eq_goal_of_package hready.1 rfl
  have hclean : s.done .clean = 3 := hready.2.2.1 .clean (by simp [prerequisites])
  have hbefore := hs.debian hgoal (hs.ordered.succeeded _ hclean) hready.2.1
  rw [hclean] at hbefore
  have hdone : s.done .debian + 1 = 6 := hlast
  have hstaged := stagedAfter_line hl he (sourcesKept hs.outside hgoal) hbefore.2
  rw [hdone] at hstaged
  obtain ⟨w, hw, hagree⟩ := hstaged
  have hstage : stageOf k s.version s.goal (sourceTree s.before) = some w := by
    rw [hgoal]
    exact hw
  have hfolder := folder_completed_debian hk hl he hbefore hx
  have hfrom : FromSources k ⟨s.version, s.goal, s.before, z⟩ :=
    fromSources_of_agree hstage hfolder (by decide) hagree rfl fun p hp =>
      below_of_child (debianStage_plain hw hp).1
  exact fun _ => iff_of_true hfrom (.inl hgoal)

theorem judged_next {k : Tools γ} (hk : ZipKeeps k) {s s' : Session γ} {e : Event γ}
    (hs : Traced k s) (hj : ∀ x ∈ s.packages, Judged k x) (h : next k s e = some s') :
    ∀ x ∈ s'.packages, Judged k x := by
  have hafter : Traced k s' := traced_next hk hs h
  cases e with
  | make version goal =>
    rw [next_make h]
    exact hj
  | line target =>
    obtain ⟨hready, l, t, hl, he, rfl⟩ := next_line h
    intro x hx
    rcases List.mem_append.mp hx with hx | hx
    · obtain ⟨-, ⟨out, hout, -⟩, -⟩ := mem_completed hx
      cases target with
      | zip name => exact judged_zip hk hs hready hl he hafter hx
      | debian => exact judged_debian hk hs hready hl he hx
      | _ => cases hout
    · exact hj x hx
  | fail target junk =>
    obtain ⟨-, l, -, rfl⟩ := next_fail h
    exact hj

theorem traced_idle (k : Tools γ) (t : Files γ) : Traced k (idle t) where
  ordered := ordered_begin rfl
  outside := fun _ _ _ _ => rfl
  others := fun hgoal => (nomatch hgoal)
  copies := fun hgoal => (nomatch hgoal)
  tgz := fun hgoal => (nomatch hgoal)
  zip := fun _ _ hgoal => (nomatch hgoal)
  debian := fun hgoal => (nomatch hgoal)

/-- In every run, a package of the two kinds comes from the sources alone if and only if it is the
package of `debian` or the default goal found no other files in `camUpdate/`. -/
theorem fromSources_iff {k : Tools γ} (hk : ZipKeeps k) {t : Files γ} {events : List (Event γ)}
    {s : Session γ} (h : run (next k) (idle t) events = some s) {x : Package γ}
    (hx : x ∈ s.packages) (hgoal : x.goal = .debian ∨ x.goal = defaultGoal x.version) :
    FromSources k x ↔ x.goal = .debian ∨ OnlyStaged x.before := by
  have hstart : Traced k (idle t) ∧ ∀ x ∈ (idle t).packages, Judged k x :=
    ⟨traced_idle k t, fun _ hx => (nomatch hx)⟩
  have hstep : ∀ s e s', (Traced k s ∧ ∀ x ∈ s.packages, Judged k x) → next k s e = some s' →
      Traced k s' ∧ ∀ x ∈ s'.packages, Judged k x :=
    fun _ _ _ hs h => ⟨traced_next hk hs.1 h, judged_next hk hs.1 hs.2 h⟩
  obtain ⟨-, hjudged⟩ := run_preserves (next k) hstep hstart h
  exact hjudged x hx hgoal

def defaultLines : List (Event Content) := zipLines ⟨zipFile "v1".toList, isZip_zipFile _⟩

theorem fromSources_defaultLines : ∃ s x,
    run (next listTools) (idle checkout) defaultLines = some s ∧
    x ∈ s.packages ∧ FromSources listTools x := by
  have hnone : list (below camUpdateDir) checkout = [] := rfl
  have honly : OnlyStaged checkout :=
    fun p hp hne => absurd (list_eq_nil_iff.mp hnone p hp) hne
  have hrun : (run (next listTools) (idle checkout) defaultLines).map
      (fun s => s.packages.map fun x => (x.version, x.goal, x.before)) =
        some [("v1".toList, defaultGoal "v1".toList, checkout)] := rfl
  obtain ⟨s, hs, hmap⟩ := Option.map_eq_some_iff.mp hrun
  obtain ⟨x, hpackages, hx⟩ := List.map_eq_singleton_iff.mp hmap
  obtain ⟨hversion, hgoal, hbefore⟩ : x.version = "v1".toList ∧ x.goal = defaultGoal "v1".toList ∧
      x.before = checkout := by simpa only [Prod.mk.injEq] using hx
  have hmem : x ∈ s.packages := hpackages ▸ List.mem_cons_self
  refine ⟨s, x, hs, hmem, ?_⟩
  exact (fromSources_iff zipKeeps_listTools hs hmem (.inr (hversion ▸ hgoal))).mpr
    (.inr (hbefore ▸ honly))

def checkoutWithImage : Files Content :=
  writeAll [(debianImage, .data 7), (path ["update-to-debian", "update_backend.sh"], .data 4)]
    checkout

def leaks (x : Package Content) : Bool :=
  decide (x.goal = defaultGoal x.version) &&
    (folder listTools x.content).any fun f => !stageNames.contains f.1

/-- After `make debian` the default goal packs the image and the program that writes it too. -/
theorem not_fromSources_afterDebian : ∃ s x,
    run (next listTools) (idle checkoutWithImage) (debianLines ++ defaultLines) = some s ∧
      x ∈ s.packages ∧ x.goal = defaultGoal x.version ∧ ¬ FromSources listTools x := by
  have hrun : (run (next listTools) (idle checkoutWithImage) (debianLines ++ defaultLines)).map
      (fun s => s.packages.any leaks) = some true := rfl
  obtain ⟨s, hs, hany⟩ := Option.map_eq_some_iff.mp hrun
  obtain ⟨x, hx, hleaks⟩ := List.any_eq_true.mp hany
  simp only [leaks, Bool.and_eq_true, decide_eq_true_eq, List.any_eq_true,
    Bool.not_eq_true'] at hleaks
  obtain ⟨hgoal, f, hf, hname⟩ := hleaks
  refine ⟨s, x, hs, hx, hgoal, fun h => ?_⟩
  have hmem := mem_stageNames_of_fromSources h hgoal hf
  rw [List.contains_iff_mem.mpr hmem] at hname
  cases hname

end ChronosUpdates.Makefile
