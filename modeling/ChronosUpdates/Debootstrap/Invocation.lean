import ChronosUpdates.Debootstrap

namespace ChronosUpdates.Debootstrap
open Shell

variable {α : Type*}

/-- The words are options `-s`, `-d`, `-b` and `-g` with blank-free values, and read as `os`. -/
structure OptionVector (args : List Word) (os : List Opt) : Prop where
  scanned : scan optSpec args = (os, .done)
  noHelp : os.any asksHelp = false
  blankFree : ∀ c v, .value c v ∈ os → ∀ d ∈ v, isBlank d = false

def valueOf (c : Char) : Opt → Option Word
  | .value c' v => if c' = c then some v else none
  | _ => none

def lastValue (c : Char) (default : Word) (os : List Opt) : Word :=
  (os.filterMap (valueOf c)).getLast?.getD default

def suiteOf (os : List Opt) : Word := lastValue 's' "voyager".toList os

def sysrootOf (pwd : Word) (os : List Opt) : Word := lastValue 'd' (pwd ++ "/debian".toList) os

def bootPartOf (os : List Opt) : Word := lastValue 'b' [] os

def guiPackageOf (os : List Opt) : Word :=
  if .flag 'g' ∈ os then "chronos-gui2".toList else "chronos-gui".toList

def confFile (dir suite : Word) : Word := dir ++ "/chronos-".toList ++ suite ++ ".conf".toList

/-- The path that a process with this working directory opens. -/
def absolute (cwd path : Word) : Word :=
  if path.head? = some '/' then path else cwd ++ '/' :: path

/-- The run of `multistrap`, behind a `cd ${DIR}` that goes to that directory. -/
def invoked (h : Host) (args : List Word) : Option Call :=
  if h.scripts.expand h.dir = [h.dir] then (debootstrap h args).2 else none

/-- The script runs `multistrap` as the options ask for it; `locate` tells the directory that an
absolute path leads to. -/
def Bootstraps (h : Host) (locate : Word → α) (args : List Word) (os : List Opt) : Prop :=
  ∃ call, invoked h args = some call ∧
    call.env = ["SUITE=".toList ++ suiteOf os, "GUIPACKAGE=".toList ++ guiPackageOf os,
      "BOOTPART=".toList ++ bootPartOf os] ∧
    call.args = ["-a".toList, "armel".toList, "-d".toList, sysrootOf h.pwd os, "-f".toList,
      confFile h.dir (suiteOf os)] ∧
    locate (absolute h.dir (sysrootOf h.pwd os)) = locate (absolute h.pwd (sysrootOf h.pwd os)) ∧
    (bootPartOf os ≠ [] →
      locate (absolute h.dir (bootPartOf os)) = locate (absolute h.pwd (bootPartOf os)))

structure WordsKept (h : Host) (os : List Opt) : Prop where
  dir : h.scripts.expand h.dir = [h.dir]
  suite : h.scripts.expand ("SUITE=".toList ++ suiteOf os) = ["SUITE=".toList ++ suiteOf os]
  bootPart : h.scripts.expand ("BOOTPART=".toList ++ bootPartOf os) =
    ["BOOTPART=".toList ++ bootPartOf os]
  sysroot : h.scripts.expand (sysrootOf h.pwd os) = [sysrootOf h.pwd os]
  conf : h.scripts.expand (confFile h.dir (suiteOf os)) = [confFile h.dir (suiteOf os)]

/-- The path means the same in the directory of the scripts as where the caller is. -/
def MeansSame (h : Host) (locate : Word → α) (path : Word) : Prop :=
  path.head? = some '/' ∨ locate (h.dir ++ '/' :: path) = locate (h.pwd ++ '/' :: path)

theorem lastValue_cons (c : Char) (default : Word) (o : Opt) (os : List Opt) :
    lastValue c default (o :: os) = lastValue c ((valueOf c o).getD default) os := by
  unfold lastValue
  cases hv : valueOf c o with
  | none => rw [List.filterMap_cons_none hv, Option.getD_none]
  | some v =>
    rw [List.filterMap_cons_some hv, List.getLast?_cons]
    rfl

theorem applyOpt_eq (s : Settings) (o : Opt) : applyOpt s o =
    ⟨(valueOf 'd' o).getD s.sysroot, (valueOf 's' o).getD s.suite,
      if o = .flag 'g' then "chronos-gui2".toList else s.guiPackage,
      (valueOf 'b' o).getD s.bootPart⟩ := by
  unfold applyOpt
  split
  · rfl
  · rfl
  · rfl
  · rfl
  · rename_i hg hd hb hs
    have hg : o ≠ .flag 'g' := fun h => hg h
    have hvalue : ∀ c, (∀ v, o ≠ .value c v) → valueOf c o = none := by
      intro c hc
      cases o with
      | value c' v =>
        have hne : c' ≠ c := by
          rintro rfl
          exact hc v rfl
        exact if_neg hne
      | _ => rfl
    rw [hvalue 'd' hd, hvalue 's' hs, hvalue 'b' hb, if_neg hg]
    rfl

theorem foldl_applyOpt (os : List Opt) (s : Settings) : os.foldl applyOpt s =
    ⟨lastValue 'd' s.sysroot os, lastValue 's' s.suite os,
      if .flag 'g' ∈ os then "chronos-gui2".toList else s.guiPackage,
      lastValue 'b' s.bootPart os⟩ := by
  induction os generalizing s with
  | nil => rfl
  | cons o os ih =>
    have hgui : (if Opt.flag 'g' ∈ os then "chronos-gui2".toList
        else if o = .flag 'g' then "chronos-gui2".toList else s.guiPackage) =
        if Opt.flag 'g' ∈ o :: os then "chronos-gui2".toList else s.guiPackage := by
      by_cases hos : Opt.flag 'g' ∈ os
      · rw [if_pos hos, if_pos (List.mem_cons_of_mem _ hos)]
      · by_cases ho : o = .flag 'g'
        · rw [if_neg hos, if_pos ho, if_pos (ho ▸ List.mem_cons_self)]
        · have hnot : Opt.flag 'g' ∉ o :: os := by
            simp [hos, Ne.symm ho]
          rw [if_neg hos, if_neg ho, if_neg hnot]
    rw [List.foldl_cons, ih, applyOpt_eq, lastValue_cons, lastValue_cons, lastValue_cons]
    exact congrArg (fun g => Settings.mk _ _ g _) hgui

def settingsOf (pwd : Word) (os : List Opt) : Settings :=
  ⟨sysrootOf pwd os, suiteOf os, guiPackageOf os, bootPartOf os⟩

theorem readOptions_vector {args : List Word} {os : List Opt} (hv : OptionVector args os)
    (pwd : Word) : readOptions pwd args = some (settingsOf pwd os) := by
  have hopts : getopts optSpec args = os := by
    rw [getopts, hv.scanned]
  rw [readOptions, hopts, hv.noHelp, foldl_applyOpt]
  rfl

theorem blankFree_settingsOf {args : List Word} {os : List Opt} (hv : OptionVector args os)
    (pwd : Word) : (settingsOf pwd os).BlankFree := by
  have hb := blankFree_foldl (blankFree_defaults pwd) hv.blankFree
  rwa [foldl_applyOpt] at hb

theorem invoked_root (h : Host) {args : List Word} {os : List Opt} (hv : OptionVector args os)
    (hr : h.isRoot = true) : invoked h args = none := by
  have hcall : (debootstrap h args).2 = none := by
    rw [debootstrap_blankFree h args _ (readOptions_vector hv h.pwd)
      (blankFree_settingsOf hv h.pwd), hr]
    split <;> rfl
  rw [invoked, hcall, ite_self]

theorem invoked_sudo (h : Host) {args : List Word} {os : List Opt} (hv : OptionVector args os)
    (hm : h.hasMultistrap = true) (hq : h.hasQemu = true) (hr : h.isRoot = false)
    (hdir : h.scripts.expand h.dir = [h.dir]) : invoked h args =
      some ⟨assignments h (settingsOf h.pwd os), multistrapArgs h (settingsOf h.pwd os)⟩ := by
  have henters : h.enters (h.scripts.expand h.dir) = true := hdir ▸ h.enters_dir
  rw [invoked, if_pos hdir, debootstrap_blankFree h args _ (readOptions_vector hv h.pwd)
    (blankFree_settingsOf hv h.pwd), if_pos ⟨hm, .inl hq, henters⟩, hr]
  rfl

/-- A word with lists on both sides that are not empty makes three words only if each list is
one. -/
theorem append_cons_eq_triple {as bs : List Word} {g a g' b : Word} (ha : as ≠ []) (hb : bs ≠ [])
    (h : as ++ g :: bs = [a, g', b]) : as = [a] ∧ bs = [b] := by
  obtain ⟨x, xs, rfl⟩ := List.exists_cons_of_ne_nil ha
  obtain ⟨y, ys, rfl⟩ := List.exists_cons_of_ne_nil hb
  have hlen := congrArg List.length h
  simp only [List.length_append, List.length_cons, List.length_nil] at hlen
  have hxs : xs = [] := List.eq_nil_of_length_eq_zero (by omega)
  have hys : ys = [] := List.eq_nil_of_length_eq_zero (by omega)
  subst hxs hys
  simp only [List.cons_append, List.nil_append, List.cons.injEq, and_true] at h
  exact ⟨by rw [h.1], by rw [h.2.2]⟩

theorem assignments_iff (h : Host) {os : List Opt} (hs : (settingsOf h.pwd os).BlankFree) :
    assignments h (settingsOf h.pwd os) = ["SUITE=".toList ++ suiteOf os,
        "GUIPACKAGE=".toList ++ guiPackageOf os, "BOOTPART=".toList ++ bootPartOf os] ↔
      h.scripts.expand ("SUITE=".toList ++ suiteOf os) = ["SUITE=".toList ++ suiteOf os] ∧
      h.scripts.expand ("BOOTPART=".toList ++ bootPartOf os) =
        ["BOOTPART=".toList ++ bootPartOf os] := by
  have hsuite : IsPlain ("SUITE=".toList ++ suiteOf os) :=
    (by decide : IsPlain "SUITE=".toList).append fun c hc => hs c (by simp [settingsOf, hc])
  have hboot : IsPlain ("BOOTPART=".toList ++ bootPartOf os) :=
    (by decide : IsPlain "BOOTPART=".toList).append fun c hc => hs c (by simp [settingsOf, hc])
  have hgui : h.scripts.names ("GUIPACKAGE=".toList ++ guiPackageOf os) =
      ["GUIPACKAGE=".toList ++ guiPackageOf os] := by
    apply h.scripts.literal
    unfold guiPackageOf
    split <;> exact isLiteral_of_all rfl
  rw [h.scripts.expand_plain hsuite, h.scripts.expand_plain hboot, assignments]
  simp only [settingsOf]
  rw [hgui, List.append_assoc, List.singleton_append]
  constructor
  · exact append_cons_eq_triple (h.scripts.ne_nil _) (h.scripts.ne_nil _)
  · rintro ⟨hs, hb⟩
    rw [hs, hb]
    rfl

theorem multistrapArgs_iff (h : Host) (os : List Opt) :
    multistrapArgs h (settingsOf h.pwd os) = ["-a".toList, "armel".toList, "-d".toList,
        sysrootOf h.pwd os, "-f".toList, confFile h.dir (suiteOf os)] ↔
      h.scripts.expand (sysrootOf h.pwd os) = [sysrootOf h.pwd os] ∧
      h.scripts.expand (confFile h.dir (suiteOf os)) = [confFile h.dir (suiteOf os)] := by
  have hargs : multistrapArgs h (settingsOf h.pwd os) = "-a".toList :: "armel".toList ::
      "-d".toList :: (h.scripts.expand (sysrootOf h.pwd os) ++
        "-f".toList :: h.scripts.expand (confFile h.dir (suiteOf os))) := by
    simp only [multistrapArgs, settingsOf, confFile, List.append_assoc, List.cons_append,
      List.nil_append]
  rw [hargs]
  simp only [List.cons.injEq, true_and]
  constructor
  · intro he
    refine append_cons_eq_triple (fun hnil => ?_) (fun hnil => ?_) he
    · -- the target would be the word `-f`, which is kept
      rw [hnil] at he
      have hf : h.scripts.expand "-f".toList = ["-f".toList] :=
        h.scripts.expand_literal (by decide) (isLiteral_of_all rfl)
      rw [← (List.cons.inj he).1, hf] at hnil
      cases hnil
    · -- and the configuration file has a longer name than `-f`
      rw [hnil] at he
      have hlast := congrArg List.getLast? he
      rw [List.getLast?_concat] at hlast
      have hconf : "-f".toList = confFile h.dir (suiteOf os) := Option.some.inj hlast
      have hlen := congrArg List.length hconf
      simp [confFile] at hlen
      omega
  · rintro ⟨hs, hc⟩
    rw [hs, hc]
    rfl

theorem meansSame_iff (h : Host) (locate : Word → α) (path : Word) :
    locate (absolute h.dir path) = locate (absolute h.pwd path) ↔ MeansSame h locate path := by
  unfold absolute MeansSame
  by_cases hp : path.head? = some '/'
  · simp [hp]
  · simp [hp]

/-- `multistrap` runs as the options ask for it, if and only if the caller is an ordinary user,
the shell keeps the words, and the paths mean the same in the directory of the scripts. -/
theorem bootstraps_iff (h : Host) (locate : Word → α) {args : List Word} {os : List Opt}
    (hv : OptionVector args os) (hm : h.hasMultistrap = true) (hq : h.hasQemu = true) :
    Bootstraps h locate args os ↔ h.isRoot = false ∧ WordsKept h os ∧
      MeansSame h locate (sysrootOf h.pwd os) ∧
      (bootPartOf os = [] ∨ MeansSame h locate (bootPartOf os)) := by
  have hblank := blankFree_settingsOf hv h.pwd
  constructor
  · rintro ⟨call, hcall, henv, hargs, hsysroot, hboot⟩
    have hr : h.isRoot = false := by
      by_contra hr
      rw [invoked_root h hv (by simpa using hr)] at hcall
      cases hcall
    have hdir : h.scripts.expand h.dir = [h.dir] := by
      by_contra hdir
      rw [invoked, if_neg hdir] at hcall
      cases hcall
    rw [invoked_sudo h hv hm hq hr hdir] at hcall
    cases hcall
    obtain ⟨hsuite, hbootWord⟩ := (assignments_iff h hblank).mp henv
    obtain ⟨hsysrootWord, hconf⟩ := (multistrapArgs_iff h os).mp hargs
    refine ⟨hr, ⟨hdir, hsuite, hbootWord, hsysrootWord, hconf⟩,
      (meansSame_iff h locate _).mp hsysroot, ?_⟩
    by_cases hb : bootPartOf os = []
    · exact .inl hb
    · exact .inr ((meansSame_iff h locate _).mp (hboot hb))
  · rintro ⟨hr, hw, hsysroot, hboot⟩
    refine ⟨_, invoked_sudo h hv hm hq hr hw.dir,
      (assignments_iff h hblank).mpr ⟨hw.suite, hw.bootPart⟩,
      (multistrapArgs_iff h os).mpr ⟨hw.sysroot, hw.conf⟩, (meansSame_iff h locate _).mpr hsysroot,
      fun hb => (meansSame_iff h locate _).mpr (hboot.resolve_left hb)⟩

def builder (isRoot : Bool) : Host where
  pwd := "/srv".toList
  dir := "/home/user/scripts".toList
  scripts := noMatches
  isRoot := isRoot
  hasMultistrap := true
  hasQemu := true
  isArm := false
  enters := (· == ["/home/user/scripts".toList])
  multistrapStatus := 0
  sudoStatus _ := 1
  enters_dir := by decide

def builderArgs : List Word :=
  ["-g", "-d", "/srv/a", "-s", "wheezy", "-d", "/srv/b"].map String.toList

theorem optionVector_builderArgs : OptionVector builderArgs [.flag 'g', .value 'd' "/srv/a".toList,
    .value 's' "wheezy".toList, .value 'd' "/srv/b".toList] := by
  refine ⟨by decide, by decide, fun c v hv => ?_⟩
  simp only [List.mem_cons, List.not_mem_nil, or_false, reduceCtorEq, false_or,
    Opt.value.injEq] at hv
  rcases hv with ⟨-, rfl⟩ | ⟨-, rfl⟩ | ⟨-, rfl⟩ <;> exact noBlank_of_all rfl

theorem bootstraps_builder : Bootstraps (builder false) id builderArgs
    [.flag 'g', .value 'd' "/srv/a".toList, .value 's' "wheezy".toList,
      .value 'd' "/srv/b".toList] :=
  (bootstraps_iff (builder false) id optionVector_builderArgs rfl rfl).mpr
    ⟨rfl, ⟨by decide, by decide, by decide, by decide, by decide⟩, .inl (by decide),
      .inl (by decide)⟩

/-- Run by root, the script takes `SUITE=voyager` for a command. -/
theorem not_bootstraps_root : OptionVector [] [] ∧ ¬ Bootstraps (builder true) id [] [] := by
  have hv : OptionVector [] [] := ⟨rfl, rfl, fun _ _ h => nomatch h⟩
  refine ⟨hv, ?_⟩
  rintro ⟨call, hcall, -⟩
  rw [invoked_root (builder true) hv rfl] at hcall
  cases hcall

end ChronosUpdates.Debootstrap
