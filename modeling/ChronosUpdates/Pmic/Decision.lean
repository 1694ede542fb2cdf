import ChronosUpdates.UpdateBackend.Protocol
import ChronosUpdates.UpdateReal.Validation

namespace ChronosUpdates.Pmic
open Shell

def Digitless (t : Text) : Prop := ∀ c ∈ t, isDigit c = false

/-- An output with one line that ends in a colon, white space and a version. -/
structure Report (v : Text) where
  before : List Text
  label : Text
  gap : Text
  version : Word
  tail : Text
  after : List Text
  lines_eq : lines v = before ++ (label ++ ':' :: (gap ++ version ++ tail)) :: after
  gap_space : gap.all isSpace = true
  tail_space : tail.all isSpace = true
  version_ne_nil : version ≠ []
  version_digits : version.all isDigit = true
  version_fits : digits version < 2 ^ 63
  before_digitless : ∀ l ∈ before, Digitless l
  after_digitless : ∀ l ∈ after, Digitless l

def remains (ls : List Text) : Text := (ls.flatMap cutLabel).filter fun c => !isSpace c

def Report.Below {v : Text} (r : Report v) : Prop := digits r.version < digits hexVersion

/-- Nothing is left of the other lines, or a plus sign in front of the version. Else they happen
to do no harm: a minus sign to a version that is below, anything else to one that is not. -/
def Report.Harmless {v : Text} (r : Report v) : Prop :=
  (remains r.after = [] ∧ (remains r.before = [] ∨ remains r.before = ['+'])) ∨
    (r.Below ↔ remains r.after = [] ∧ remains r.before = ['-'])

/-- Both scripts flash exactly a version that is below, and neither does without any digit. -/
structure FlashesRight (v : Text) (real backend : Prop) : Prop where
  versions : ∀ r : Report v, (real ↔ r.Below) ∧ (backend ↔ r.Below)
  digitless : Digitless v → ¬ real ∧ ¬ backend

theorem remains_append (ls ms : List Text) : remains (ls ++ ms) = remains ls ++ remains ms := by
  rw [remains, List.flatMap_append, List.filter_append]
  rfl

theorem filter_unlines (ls : List Text) :
    (unlines ls).filter (fun c => !isSpace c) = ls.flatten.filter fun c => !isSpace c := by
  induction ls with
  | nil => rfl
  | cons l ls ih =>
    rw [unlines_cons, List.filter_append, List.flatten_cons, List.filter_append, ← ih]
    rfl

theorem not_blank_of_mem_remains {ls : List Text} {c : Char} (h : c ∈ remains ls) :
    isBlank c = false := by
  have hspace := (List.mem_filter.mp h).2
  simp only [isSpace, Bool.not_eq_true', Bool.or_eq_false_iff] at hspace
  exact hspace.1.1.1

/-- The ends of the lines are deleted, so `$(...)` has none left to drop. -/
theorem fwVersion_eq (v : Text) : fwVersion v = remains (lines v) := by
  have hfilter : (unlines ((lines v).map cutLabel)).filter (fun c => !isSpace c) =
      remains (lines v) := by
    rw [filter_unlines, remains, List.flatMap_def]
  rw [fwVersion, hfilter]
  apply substitute_of_no_newline
  intro hnewline
  cases not_blank_of_mem_remains hnewline

theorem cutLabel_of_colon {s : Text} (h : ':' ∉ s) (label : Text) :
    cutLabel (label ++ ':' :: s) = s := by
  have hall : ∀ c ∈ s.reverse, (c != ':') = true :=
    fun c hc => bne_iff_ne.mpr fun e => h (e ▸ List.mem_reverse.mp hc)
  rw [cutLabel, List.rtakeWhile, List.reverse_append, List.reverse_cons, List.append_assoc,
    List.takeWhile_append_of_pos hall, List.singleton_append,
    List.takeWhile_cons_of_neg (by decide), List.append_nil, List.reverse_reverse]

theorem filter_of_space {t : Text} (h : t.all isSpace = true) :
    t.filter (fun c => !isSpace c) = [] := by
  rw [List.filter_eq_nil_iff]
  intro c hc
  simp [List.all_eq_true.mp h c hc]

theorem not_space_of_digit {c : Char} (h : isDigit c = true) : isSpace c = false := by
  by_contra hs
  simp only [isSpace, isBlank, Bool.not_eq_false, Bool.or_eq_true, beq_iff_eq] at hs
  rcases hs with ((((rfl | rfl) | rfl) | rfl) | rfl) | rfl <;> revert h <;> decide

/-- Of the line of the version `sed` and `tr` leave the version alone. -/
theorem remains_version {v : Text} (r : Report v) :
    remains [r.label ++ ':' :: (r.gap ++ r.version ++ r.tail)] = r.version := by
  have hgap : ':' ∉ r.gap :=
    fun h => absurd (List.all_eq_true.mp r.gap_space ':' h) (by decide)
  have hversion : ':' ∉ r.version :=
    fun h => absurd (List.all_eq_true.mp r.version_digits ':' h) (by decide)
  have htail : ':' ∉ r.tail :=
    fun h => absurd (List.all_eq_true.mp r.tail_space ':' h) (by decide)
  have hkept : r.version.filter (fun c => !isSpace c) = r.version := by
    rw [List.filter_eq_self]
    intro c hc
    simp [not_space_of_digit (List.all_eq_true.mp r.version_digits c hc)]
  rw [remains, List.flatMap_singleton, cutLabel_of_colon (by simp [hgap, hversion, htail]),
    List.filter_append, List.filter_append, filter_of_space r.gap_space,
    filter_of_space r.tail_space, hkept, List.nil_append, List.append_nil]

theorem fwVersion_report {v : Text} (r : Report v) :
    fwVersion v = remains r.before ++ r.version ++ remains r.after := by
  rw [fwVersion_eq, r.lines_eq, remains_append, ← List.singleton_append, remains_append,
    remains_version, List.append_assoc]

theorem digitless_remains {ls : List Text} (h : ∀ l ∈ ls, Digitless l) :
    Digitless (remains ls) := by
  intro c hc
  obtain ⟨l, hl, hcl⟩ := List.mem_flatMap.mp (List.mem_filter.mp hc).1
  exact h l hl c ((List.rtakeWhile_suffix _ _).subset hcl)

theorem outdated_eq (v : Text) :
    outdated v = (compareInts (fun m n => m < n) (fwVersion v) hexVersion == some true) := rfl

theorem parseInt_hexVersion : parseInt hexVersion = some (digits hexVersion : ℤ) := by decide

theorem not_outdated_of_digitless {v : Text} (h : Digitless v) : outdated v = false := by
  have hlines : ∀ l ∈ lines v, Digitless l :=
    fun _ hl c hc => h c (subset_of_mem_lines hl hc)
  have hnone : parseInt (fwVersion v) = none := by
    rw [fwVersion_eq]
    exact parseInt_of_no_digit (fun _ hc => not_blank_of_mem_remains hc)
      (digitless_remains hlines)
  rw [outdated_eq, compareInts, hnone]
  rfl

theorem outdated_report {v : Text} (r : Report v) : outdated v = true ↔
    (remains r.after = [] ∧ (remains r.before = [] ∨ remains r.before = ['+']) ∧ r.Below) ∨
      (remains r.after = [] ∧ remains r.before = ['-']) := by
  have hblank : ∀ c ∈ remains r.before ++ r.version ++ remains r.after, isBlank c = false := by
    rw [← fwVersion_report, fwVersion_eq]
    exact fun c hc => not_blank_of_mem_remains hc
  have hparse := parseInt_surrounded hblank (digitless_remains r.before_digitless)
    (digitless_remains r.after_digitless) r.version_ne_nil r.version_digits r.version_fits
  rw [outdated_eq, compareInts, fwVersion_report, hparse, parseInt_hexVersion]
  by_cases hafter : remains r.after = []
  · by_cases hplus : remains r.before = [] ∨ remains r.before = ['+']
    · have hminus : remains r.before ≠ ['-'] := by
        rcases hplus with h | h <;> rw [h] <;> decide
      simp [hafter, hplus, hminus, Report.Below]
    · by_cases hminus : remains r.before = ['-']
      · -- below any version of a hex file
        have hneg : -(digits r.version : ℤ) < digits hexVersion := by
          have hpos : (0 : ℤ) < digits hexVersion := by decide
          omega
        simp [hafter, hminus, hneg]
      · simp [hafter, hplus, hminus]
  · simp [hafter]

theorem outdated_iff_below {v : Text} (r : Report v) :
    (outdated v = true ↔ r.Below) ↔ r.Harmless := by
  rw [outdated_report r]
  unfold Report.Harmless
  by_cases hafter : remains r.after = []
  · by_cases hminus : remains r.before = ['-']
    · simp [hafter, hminus]
    · by_cases hplus : remains r.before = [] ∨ remains r.before = ['+']
      · simp [hafter, hminus, hplus]
      · simp [hafter, hminus, hplus]
  · simp [hafter]

theorem asks_iff (hexFile : Text) (present : Bool) (v : Text) (after : List Act) :
    .pcUtil 'v' ∈ updateFirmware hexFile present v after ↔ present = true := by
  cases present with
  | false => simp [updateFirmware]
  | true =>
    refine iff_of_true ?_ rfl
    rw [updateFirmware, if_pos rfl]
    exact List.mem_append_left _ (by simp)

theorem flashes_iff (hexFile : Text) (present : Bool) (v : Text) (after : List Act) :
    .pcUtil 'u' ∈ updateFirmware hexFile present v after ↔
      present = true ∧ outdated v = true := by
  cases present with
  | false => simp [updateFirmware]
  | true => cases ho : outdated v <;> simp [updateFirmware, ho]

section
variable {δ : Type*} [DecidableEq δ] (md5 : UpdateReal.Bytes → δ)

theorem pmic_mem_updateReal (env : UpdateReal.Env δ) (a : Act) :
    .pmic a ∈ UpdateReal.updateReal md5 env ↔
      (UpdateReal.validates md5 env = true ∧ (UpdateReal.waitForCamApp env).2 = true) ∧
        a ∈ updateFirmware (UpdateReal.pmicHexFile env) (UpdateReal.isFile (env.disk hexName))
          env.pcUtil [] := by
  have hwait : .pmic a ∉ (UpdateReal.waitForCamApp env).1 :=
    fun h => (UpdateReal.waitForCamApp_harmless env _ h).elim
  have hmd5 : .pmic a ∉ (if env.manifest.isSome then [.md5sum] else [] : List UpdateReal.Act) := by
    split <;> simp
  have hlinks : .pmic a ∉ UpdateReal.fixLinks := by simp [UpdateReal.fixLinks]
  have hshow : .pmic a ∉ (if UpdateReal.isFile (env.disk UpdateReal.busyRaw) then
      [.show UpdateReal.busyRaw] else [] : List UpdateReal.Act) := by
    split <;> simp
  have hinstall : .pmic a ∈ UpdateReal.install env ↔
      a ∈ updateFirmware (UpdateReal.pmicHexFile env) (UpdateReal.isFile (env.disk hexName))
        env.pcUtil [] := by
    simp [UpdateReal.install, hlinks, hshow]
  by_cases hv : UpdateReal.validates md5 env = true
  · by_cases hw : (UpdateReal.waitForCamApp env).2 = true
    · simp [UpdateReal.updateReal, hv, hw, hwait, hmd5, hinstall]
    · simp [UpdateReal.updateReal, hv, hw, hwait, hmd5]
  · simp [UpdateReal.updateReal, hv, hmd5]

theorem pmic_mem_trace (env : UpdateBackend.Env) (polls : List UpdateBackend.Poll) (a : Act) :
    .pmic a ∈ UpdateBackend.trace env polls ↔
      (∃ p ∈ polls, UpdateBackend.IsLine UpdateBackend.startLine p) ∧
        a ∈ updateFirmware hexName env.hexFile env.pcUtil [.pcUtil 'q'] := by
  have hearly : ∀ ps, .pmic a ∉ UpdateBackend.announce env ++
      (UpdateBackend.commandLoop [] false ps).1 :=
    fun ps h => UpdateBackend.early_commands env ps _ h
  rcases UpdateBackend.exists_first_start polls with hno | ⟨pre, p, post, rfl, hpre, hp⟩
  · rw [UpdateBackend.trace_of_no_start env hno]
    refine iff_of_false (hearly polls) ?_
    rintro ⟨⟨p, hp, hstart⟩, -⟩
    exact hno p hp hstart
  · have hstart : ∃ q ∈ pre ++ p :: post, UpdateBackend.IsLine UpdateBackend.startLine q :=
      ⟨p, by simp, hp⟩
    have hafter : .pmic a ∉ UpdateBackend.afterDd env post := by
      intro h
      rcases UpdateBackend.mem_afterDd h with h | h | ⟨l, h⟩ | h <;> cases h
    have hearly := hearly pre
    rw [UpdateBackend.trace_of_start env post hpre hp, and_iff_right hstart,
      UpdateBackend.write_eq]
    simp only [List.mem_append, not_or] at hearly
    simp [hearly, hafter]

/-- A script that asks for the version flashes if the test finds it outdated. -/
theorem updateReal_flashes {env : UpdateReal.Env δ}
    (h : .pmic (.pcUtil 'v') ∈ UpdateReal.updateReal md5 env) :
    .pmic (.pcUtil 'u') ∈ UpdateReal.updateReal md5 env ↔ outdated env.pcUtil = true := by
  rw [pmic_mem_updateReal, asks_iff] at h
  rw [pmic_mem_updateReal, flashes_iff, and_iff_right h.1, and_iff_right h.2]

end

theorem trace_flashes {env : UpdateBackend.Env} {polls : List UpdateBackend.Poll}
    (h : .pmic (.pcUtil 'v') ∈ UpdateBackend.trace env polls) :
    .pmic (.pcUtil 'u') ∈ UpdateBackend.trace env polls ↔ outdated env.pcUtil = true := by
  rw [pmic_mem_trace, asks_iff] at h
  rw [pmic_mem_trace, flashes_iff, and_iff_right h.1, and_iff_right h.2]

theorem FlashesRight.harmless {v : Text} {real backend : Prop} (h : FlashesRight v real backend)
    (hreal : real ↔ outdated v = true) (r : Report v) : r.Harmless :=
  (outdated_iff_below r).mp (hreal.symm.trans (h.versions r).1)

theorem flashesRight_of_harmless {v : Text} {real backend : Prop}
    (hreal : real ↔ outdated v = true) (hbackend : backend ↔ outdated v = true)
    (h : ∀ r : Report v, r.Harmless) : FlashesRight v real backend where
  versions r :=
    ⟨hreal.trans ((outdated_iff_below r).mpr (h r)),
      hbackend.trans ((outdated_iff_below r).mpr (h r))⟩
  digitless hv := by
    rw [hreal, hbackend, not_outdated_of_digitless hv]
    exact ⟨Bool.false_ne_true, Bool.false_ne_true⟩

/-- Both scripts decide by the version alone if the other lines are harmless, and only then. -/
theorem flashesRight_iff {δ : Type*} [DecidableEq δ] (md5 : UpdateReal.Bytes → δ) {v : Text}
    {real : UpdateReal.Env δ} {backend : UpdateBackend.Env} {polls : List UpdateBackend.Poll}
    (hv : real.pcUtil = v) (hw : backend.pcUtil = v)
    (hreal : .pmic (.pcUtil 'v') ∈ UpdateReal.updateReal md5 real)
    (hbackend : .pmic (.pcUtil 'v') ∈ UpdateBackend.trace backend polls) :
    FlashesRight v (.pmic (.pcUtil 'u') ∈ UpdateReal.updateReal md5 real)
        (.pmic (.pcUtil 'u') ∈ UpdateBackend.trace backend polls) ↔
      ∀ r : Report v, r.Harmless := by
  have hreal := updateReal_flashes md5 hreal
  have hbackend := trace_flashes hbackend
  rw [hv] at hreal
  rw [hw] at hbackend
  exact ⟨fun h => h.harmless hreal, flashesRight_of_harmless hreal hbackend⟩

def hexPackage (v : Text) : UpdateReal.Env UpdateReal.Bytes where
  updatePartition := "/media/sda1".toList
  manifest := none
  disk n := if n = hexName then .readable [] else .missing
  ps := []
  pcUtil := v

def hexStick (v : Text) : UpdateBackend.Env :=
  { UpdateBackend.usbStick with hexFile := true, pcUtil := v }

theorem asks_hexPackage (v : Text) :
    .pmic (.pcUtil 'v') ∈ UpdateReal.updateReal id (hexPackage v) := by
  rw [pmic_mem_updateReal, asks_iff]
  exact ⟨⟨rfl, rfl⟩, rfl⟩

theorem asks_hexStick (v : Text) :
    .pmic (.pcUtil 'v') ∈ UpdateBackend.trace (hexStick v) UpdateBackend.session := by
  rw [pmic_mem_trace, asks_iff]
  exact ⟨⟨_, List.mem_cons_of_mem _ List.mem_cons_self, _, rfl, by decide⟩, rfl⟩

def bareOutput : Text := "Firmware version: 5\n".toList

theorem harmless_bareOutput (r : Report bareOutput) : r.Harmless := by
  have hline := r.lines_eq
  have hone : lines bareOutput = ["Firmware version: 5".toList] := by decide
  rw [hone, List.singleton_eq_append_iff] at hline
  obtain ⟨hbefore, hrest⟩ | ⟨-, hrest⟩ := hline
  · have hafter : r.after = [] := (List.cons.inj hrest).2
    refine .inl ⟨?_, .inl ?_⟩ <;> simp [hafter, hbefore, remains]
  · cases hrest

theorem flashesRight_bareOutput :
    FlashesRight bareOutput
      (.pmic (.pcUtil 'u') ∈ UpdateReal.updateReal id (hexPackage bareOutput))
      (.pmic (.pcUtil 'u') ∈ UpdateBackend.trace (hexStick bareOutput) UpdateBackend.session) :=
  (flashesRight_iff id rfl rfl (asks_hexPackage _) (asks_hexStick _)).mpr harmless_bareOutput

/-- The version behind a line with the name of the controller. -/
def namedOutput : Text := "Chronos power controller\nFirmware version: 5\n".toList

def namedReport : Report namedOutput where
  before := ["Chronos power controller".toList]
  label := "Firmware version".toList
  gap := [' ']
  version := ['5']
  tail := []
  after := []
  lines_eq := by decide
  gap_space := rfl
  tail_space := rfl
  version_ne_nil := by decide
  version_digits := rfl
  version_fits := by decide
  before_digitless := by
    intro l hl
    have hall : ("Chronos power controller".toList.all fun c => !isDigit c) = true := rfl
    rw [List.mem_singleton.mp hl]
    exact fun c hc => by simpa using List.all_eq_true.mp hall c hc
  after_digitless := by simp

/-- The test gets `Chronospowercontroller5`, which is no number. -/
theorem not_flashesRight_namedOutput :
    .pmic (.pcUtil 'v') ∈ UpdateReal.updateReal id (hexPackage namedOutput) ∧
      .pmic (.pcUtil 'v') ∈
        UpdateBackend.trace (hexStick namedOutput) UpdateBackend.session ∧
      ¬ FlashesRight namedOutput
        (.pmic (.pcUtil 'u') ∈ UpdateReal.updateReal id (hexPackage namedOutput))
        (.pmic (.pcUtil 'u') ∈
          UpdateBackend.trace (hexStick namedOutput) UpdateBackend.session) := by
  refine ⟨asks_hexPackage _, asks_hexStick _, fun h => ?_⟩
  have hflash := ((h.versions namedReport).1).mpr (by decide : digits ['5'] < digits hexVersion)
  rw [updateReal_flashes id (asks_hexPackage _)] at hflash
  revert hflash
  decide

end ChronosUpdates.Pmic
