import ChronosUpdates.CriticalSection
import ChronosUpdates.Runs
import ChronosUpdates.Udev.Generator
import Mathlib.Data.List.Nodup

namespace ChronosUpdates.Udev
open Shell Runs CriticalSection

variable {ρ : Type*}

def Disk.names (d : Disk) : List Text := namesOf (d.read .tmp)

def Disk.tmpNames (d : Disk) : List Text := namesOf (d.tmp.getD [])

/-- The script is behind `lock_rules_file`. -/
def Proc.Inside (p : Proc) : Prop := ∀ n, p.pc ≠ .lock n

def Proc.Chosen (p : Proc) : Prop :=
  p.Inside ∧ p.pc ≠ .header ∧ p.pc ≠ .probe ∧ p.pc ≠ .unprobe

def Proc.name (p : Proc) : Text := p.renamed.getD p.request.interface

/-- No name is in two rules, at most one script is at work, and whoever is done has its rule. -/
structure Distinct (s : System ρ) : Prop where
  names : s.disk.names.Nodup
  exclusive : ∀ r r' p p', s.procs r = some p → s.procs r' = some p' → p.Inside → p'.Inside → r = r'
  written : ∀ r p, s.procs r = some p → p.pc = .unlock → p.request.devices ≠ [] →
    p.name ∈ s.disk.names

/-- A name from an external tool is free, and the numbers of the names are ordinary ones. -/
structure Proc.Safe (d : Disk) (p : Proc) : Prop where
  custom : p.pc = .name → p.request.interfaceName ≠ [] → p.request.interfaceName ∉ d.names
  regular : p.pc = .number → ∀ v ∈ findAllRules nameKey (numbered p.request.base) (d.read p.file),
    Regular (v.drop p.request.base.length)

/-- `/etc` becomes writable only while there are no temporary rules. -/
def Safe (s : System ρ) : Event ρ → Prop
  | .next r => ∀ p, s.procs r = some p → p.Safe s.disk
  | .remount true => s.disk.tmpNames = [] ∧ ∀ r p, s.procs r = some p → ¬ p.Inside
  | _ => True

structure Disk.Sound (d : Disk) : Prop where
  udev : d.udev = true
  names : d.names.Nodup
  tmp : d.writeable = true → d.probe = false → d.tmpNames = []

structure Proc.Ok (d : Disk) (p : Proc) : Prop where
  own : p.locked = true
  locked : d.locked = true
  unprobe : p.pc = .unprobe → d.tmpNames = []
  rules : p.Chosen → p.file = .rules → d.tmpNames = []
  tmp : p.Chosen → p.file = .tmp → d.writeable = true → d.probe = true
  pending : ∀ rest, p.pc = .write rest → (d.names ++ namesOf rest).Nodup ∧
    p.name ∈ d.names ++ namesOf rest
  written : p.pc = .unlock → p.request.devices ≠ [] → p.name ∈ d.names

def Continues (d : Disk) (o : Option Proc) : Prop := ∀ p ∈ o, p.Inside ∧ p.Ok d

theorem namesOf_append (rs rs' : Rules) : namesOf (rs ++ rs') = namesOf rs ++ namesOf rs' :=
  List.filterMap_append

theorem names_eq (d : Disk) : d.names = namesOf (d.rules.getD []) ++ d.tmpNames :=
  namesOf_append _ _

theorem ruleValue_rule (q : Request) {name : Text} (h : '"' ∉ name) :
    ruleValue nameKey (fun _ => true) (q.rule name) = some name := by
  have hfront : ruleFront.head? = some 'S' := by decide
  have hhead : (q.rule name).head? = some 'S' := by
    simp only [Request.rule, List.append_assoc, List.head?_append, hfront, Option.some_or]
  have hrule : q.rule name = (ruleFront ++ q.match ++ [',']) ++
      ' ' :: (nameKey ++ ['"'] ++ (name ++ ['"'])) := by
    simp only [Request.rule, List.append_assoc, List.cons_append, List.nil_append]
  have hkey : nameKey.all (!separates ·) = true := by decide
  rw [ruleValue, hhead, if_neg (by decide), hrule]
  exact captured_append (by decide) (by simpa using hkey) h _

theorem namesOf_lines (q : Request) (printHeader : Bool) {name : Text} (h : '"' ∉ name) :
    namesOf (q.lines printHeader name) = [name] := by
  have hrule : namesOf [q.rule name] = [name] := by
    rw [namesOf, List.filterMap_cons, ruleValue_rule q h]
    rfl
  have hheader : namesOf (if printHeader then header else []) = [] := by
    cases printHeader <;> rfl
  have hnote : namesOf (if q.note = [] then [] else ["# ".toList ++ q.note]) = [] := by
    split <;> rfl
  have hempty : namesOf [[]] = [] := rfl
  rw [Request.lines, namesOf_append, namesOf_append, namesOf_append, hrule, hheader, hnote, hempty]
  rfl

theorem quote_notMem_interface (q : Request) : '"' ∉ q.interface := by
  intro h
  exact absurd (List.all_eq_true.mp q.isName.1 _ h) (by decide)

theorem quote_notMem_base (q : Request) : '"' ∉ q.base :=
  fun h => quote_notMem_interface q (List.takeWhile_subset _ h)

section
variable {d : Disk} {p : Proc}

theorem names_read (hok : p.Ok d) (hp : p.Chosen) : namesOf (d.read p.file) = d.names := by
  cases hfile : p.file with
  | tmp => rfl
  | rules =>
    rw [names_eq, hok.rules hp hfile, List.append_nil]
    rfl

theorem isPlain_interface {q : Request} (h : q.interface ≠ []) : IsPlain q.interface := by
  refine ⟨h, fun c hc => ?_⟩
  have hname := List.all_eq_true.mp q.isName.1 c hc
  by_contra hblank
  rw [Bool.not_eq_false] at hblank
  simp only [isBlank, Bool.or_eq_true, beq_iff_eq] at hblank
  rcases hblank with (rfl | rfl) | rfl <;> revert hname <;> decide

theorem notMem_of_not_taken (hok : p.Ok d) (hp : p.Chosen)
    (h : findAllRules nameKey (· == p.request.interface) (d.read p.file) = []) :
    p.request.interface ∉ d.names := by
  rw [← names_read hok hp]
  intro hmem
  have hplain : ∀ v, (v == p.request.interface) = true → IsPlain v := by
    intro v hv
    rw [eq_of_beq hv]
    exact isPlain_interface p.named
  have hfound := mem_findAllRules hplain hmem (beq_self_eq_true _)
  rw [h] at hfound
  cases hfound

theorem isPlain_of_numbered {q : Request} (h : q.interface ≠ []) {v : Text}
    (hv : numbered q.base v = true) : IsPlain v := by
  obtain ⟨ds, hds, rfl⟩ := numbered_iff.mp hv
  have hbase : q.base ≠ [] := by
    obtain ⟨c, cs, hc⟩ := List.exists_cons_of_ne_nil h
    have hletter := q.isName.2 c (by simp [hc])
    simp [Request.base, basename, hc, hletter]
  have hplain : IsPlain q.base :=
    ⟨hbase, fun c hc => (isPlain_interface h).2 c (List.takeWhile_subset _ hc)⟩
  exact hplain.append fun c hc => not_blank_of_digit (List.all_eq_true.mp hds c hc)

theorem fresh_number (hok : p.Ok d) (hp : p.Chosen)
    (hregular : ∀ v ∈ findAllRules nameKey (numbered p.request.base) (d.read p.file),
      Regular (v.drop p.request.base.length)) :
    ∃ num, rawFindNextAvailable
        (findAllRules nameKey (numbered p.request.base) (d.read p.file)) = some num ∧
      num.all isDigit = true ∧ p.request.base ++ num ∉ d.names := by
  have hplain : ∀ v, numbered p.request.base v = true → IsPlain v :=
    fun v hv => isPlain_of_numbered p.named hv
  obtain ⟨nums, hnums⟩ := exists_numbers hplain (d.read p.file)
  have hall : ∀ ds ∈ nums, Regular ds := by
    intro ds hds
    have hreg := hregular (p.request.base ++ ds) (hnums ▸ List.mem_map_of_mem hds)
    rwa [List.drop_left] at hreg
  have hletters : ∀ c ∈ p.request.base, isDigit c = false := by
    intro c hc
    simpa using List.mem_takeWhile_imp hc
  obtain ⟨num, hnum, hdigits, hnew⟩ := rawFindNextAvailable_fresh hletters hall
  rw [hnums]
  refine ⟨num, hnum, hdigits, fun hmem => hnew ?_⟩
  -- a name with the new number would have been found
  rw [← names_read hok hp] at hmem
  have hfound := mem_findAllRules hplain hmem (numbered_iff.mpr ⟨num, hdigits, rfl⟩)
  rw [hnums] at hfound
  simpa using hfound

theorem Proc.Ok.startRule (hok : p.Ok d) (hp : p.Chosen) (hd : d.Sound) {renamed : Option Text}
    (hquote : '"' ∉ renamed.getD p.request.interface)
    (hfresh : renamed.getD p.request.interface ∉ d.names) : Continues d (p.startRule renamed) := by
  rintro p' ⟨⟩
  refine ⟨nofun, hok.own, hok.locked, nofun, fun _ => hok.rules hp, fun _ => hok.tmp hp, ?_, nofun⟩
  rintro rest ⟨⟩
  rw [namesOf_lines _ _ hquote]
  exact ⟨List.Nodup.append hd.names (List.nodup_singleton _) (by simpa using hfresh),
    by simp [Proc.name]⟩

theorem Proc.Ok.goto (hok : p.Ok d) (hp : p.Chosen) {pc : Pc} (hinside : ∀ n, pc ≠ .lock n)
    (hprobe : pc ≠ .unprobe) (hwrite : ∀ rest, pc ≠ .write rest)
    (hunlock : pc = .unlock → p.request.devices ≠ [] → p.name ∈ d.names) :
    Continues d (p.goto pc) := by
  rintro p' ⟨⟩
  exact ⟨hinside, hok.own, hok.locked, fun h => absurd h hprobe, fun _ => hok.rules hp,
    fun _ => hok.tmp hp, fun rest h => absurd h (hwrite rest), hunlock⟩

end

section
variable {d d' : Disk} {l : Text} {file : File}

theorem append_names (h : d.append l file = some d') :
    d'.names.Perm (d.names ++ namesOf [l]) := by
  cases file with
  | rules =>
    obtain ⟨-, ⟨⟩⟩ := Option.ite_none_right_eq_some.mp h
    simp only [names_eq, Disk.tmpNames, Option.getD_some, namesOf_append]
    rw [List.append_assoc, List.append_assoc]
    exact List.perm_append_comm.append_left _
  | tmp =>
    obtain ⟨-, ⟨⟩⟩ := Option.ite_none_right_eq_some.mp h
    simp only [names_eq, Disk.tmpNames, Option.getD_some, namesOf_append, List.append_assoc]
    exact List.Perm.refl _

theorem append_same (h : d.append l file = some d') :
    d'.udev = d.udev ∧ d'.locked = d.locked ∧ d'.probe = d.probe ∧ d'.writeable = d.writeable ∧
      (file = .rules → d'.tmpNames = d.tmpNames) := by
  cases file with
  | rules =>
    obtain ⟨-, ⟨⟩⟩ := Option.ite_none_right_eq_some.mp h
    exact ⟨rfl, rfl, rfl, rfl, fun _ => rfl⟩
  | tmp =>
    obtain ⟨-, ⟨⟩⟩ := Option.ite_none_right_eq_some.mp h
    exact ⟨rfl, rfl, rfl, rfl, nofun⟩

theorem rules_append (h : d.append l file = some d') :
    d.rules.getD [] <+: d'.rules.getD [] := by
  cases file with
  | rules =>
    obtain ⟨-, ⟨⟩⟩ := Option.ite_none_right_eq_some.mp h
    exact List.prefix_append _ _
  | tmp =>
    obtain ⟨-, ⟨⟩⟩ := Option.ite_none_right_eq_some.mp h
    exact List.prefix_rfl

theorem sound_append {p : Proc} {rest : Rules} (hd : d.Sound) (hok : p.Ok d)
    (hpc : p.pc = .write (l :: rest)) (h : d.append l p.file = some d') :
    d'.Sound ∧ Continues d' (p.goto (.write rest)) := by
  have hchosen : p.Chosen := by simp [Proc.Chosen, Proc.Inside, hpc]
  obtain ⟨hudev, hlocked, hprobe, hwriteable, hrules⟩ := append_same h
  obtain ⟨hnodup, hmem⟩ := hok.pending _ hpc
  have hperm : (d'.names ++ namesOf rest).Perm (d.names ++ namesOf (l :: rest)) := by
    rw [← List.singleton_append, namesOf_append, ← List.append_assoc]
    exact (append_names h).append_right _
  have hnew : (d'.names ++ namesOf rest).Nodup := hperm.nodup_iff.mpr hnodup
  refine ⟨⟨hudev.trans hd.udev, hnew.of_append_left, fun hw hp => ?_⟩, ?_⟩
  · -- a script that writes to the temporary file has seen that the other one cannot be written
    rw [hwriteable] at hw
    rw [hprobe] at hp
    cases hfile : p.file with
    | rules => exact (hrules hfile).trans (hd.tmp hw hp)
    | tmp =>
      rw [hok.tmp hchosen hfile hw] at hp
      cases hp
  · rintro p' ⟨⟩
    refine ⟨nofun, hok.own, hlocked.trans hok.locked, nofun, fun _ hfile => ?_,
      fun _ hfile hw => ?_, ?_, nofun⟩
    · exact (hrules hfile).trans (hok.rules hchosen hfile)
    · rw [hprobe]
      exact hok.tmp hchosen hfile (hwriteable ▸ hw)
    · rintro rest' ⟨⟩
      exact ⟨hnew, hperm.mem_iff.mpr hmem⟩

theorem advance_choose {p : Proc} (hd : d.Sound) (hok : p.Ok d)
    (hpc : p.pc = .header ∨ p.pc = .probe ∨ p.pc = .unprobe) :
    (p.advance d).1.Sound ∧ Continues (p.advance d).1 (p.advance d).2 := by
  rcases hpc with hpc | hpc | hpc
  · simp only [Proc.advance, hpc]
    refine ⟨hd, ?_⟩
    rintro p' ⟨⟩
    exact ⟨nofun, hok.own, hok.locked, nofun, fun h => absurd rfl h.2.2.1,
      fun h => absurd rfl h.2.2.1, nofun, nofun⟩
  · simp only [Proc.advance, hpc]
    split
    · rename_i hwriteable
      obtain ⟨hw, hprobe⟩ := (Bool.and_eq_true _ _).mp hwriteable
      refine ⟨⟨hd.udev, hd.names, nofun⟩, ?_⟩
      rintro p' ⟨⟩
      exact ⟨nofun, hok.own, hok.locked, fun _ => hd.tmp hw (by simpa using hprobe),
        fun h => absurd rfl h.2.2.2, fun h => absurd rfl h.2.2.2, nofun, nofun⟩
    · rename_i hwriteable
      refine ⟨hd, ?_⟩
      rintro p' ⟨⟩
      refine ⟨nofun, hok.own, hok.locked, nofun, nofun, fun _ _ hw => ?_, nofun, nofun⟩
      simpa [show d.writeable = true from hw] using hwriteable
  · simp only [Proc.advance, hpc]
    have htmp := hok.unprobe hpc
    refine ⟨⟨hd.udev, hd.names, fun _ _ => htmp⟩, ?_⟩
    rintro p' ⟨⟩
    exact ⟨nofun, hok.own, hok.locked, nofun, fun _ _ => htmp, nofun, nofun, nofun⟩

theorem advance_name {p : Proc} (hd : d.Sound) (hok : p.Ok d) (hp : p.Chosen) (hsafe : p.Safe d)
    (hpc : p.pc = .name ∨ p.pc = .taken ∨ p.pc = .number) :
    (p.advance d).1.Sound ∧ Continues (p.advance d).1 (p.advance d).2 := by
  have hgoto : ∀ pc, pc = .taken ∨ pc = .number → Continues d (p.goto pc) := by
    rintro pc (rfl | rfl) <;> exact hok.goto hp nofun nofun nofun nofun
  rcases hpc with hpc | hpc | hpc
  · simp only [Proc.advance, hpc]
    split
    · rename_i hdevices
      exact ⟨hd, hok.goto hp nofun nofun nofun fun _ h => absurd hdevices h⟩
    · split
      · exact ⟨hd, hgoto _ (.inl rfl)⟩
      · rename_i hcustom
        have hfree := hsafe.custom hpc hcustom
        split
        · rename_i hsame
          exact ⟨hd, hok.startRule hp hd (quote_notMem_interface _) (hsame ▸ hfree)⟩
        · exact ⟨hd, hok.startRule hp hd p.request.quote hfree⟩
  · simp only [Proc.advance, hpc]
    split
    · rename_i hnone
      exact ⟨hd, hok.startRule hp hd (quote_notMem_interface _) (notMem_of_not_taken hok hp hnone)⟩
    · exact ⟨hd, hgoto _ (.inr rfl)⟩
  · obtain ⟨num, hnum, hdigits, hfresh⟩ := fresh_number hok hp (hsafe.regular hpc)
    have hquote : '"' ∉ p.request.base ++ num := by
      rw [List.mem_append, not_or]
      refine ⟨quote_notMem_base _, fun h => ?_⟩
      exact absurd (List.all_eq_true.mp hdigits _ h) (by decide)
    simp only [Proc.advance, hpc, hnum]
    exact ⟨hd, hok.startRule hp hd hquote hfresh⟩

/-- What a script inside does next. -/
theorem advance_inside {p : Proc} (hd : d.Sound) (hp : p.Inside) (hok : p.Ok d)
    (hsafe : p.Safe d) :
    (p.advance d).1.Sound ∧ Continues (p.advance d).1 (p.advance d).2 := by
  cases hpc : p.pc with
  | lock n => exact absurd hpc (hp n)
  | header | probe | unprobe => exact advance_choose hd hok (by simp [hpc])
  | name | taken | number =>
    have hchosen : p.Chosen := ⟨hp, by simp [hpc], by simp [hpc], by simp [hpc]⟩
    exact advance_name hd hok hchosen hsafe (by simp [hpc])
  | write rest =>
    cases rest with
    | nil =>
      simp only [Proc.advance, hpc]
      have hchosen : p.Chosen := ⟨hp, by simp [hpc], by simp [hpc], by simp [hpc]⟩
      refine ⟨hd, hok.goto hchosen nofun nofun nofun fun _ _ => ?_⟩
      have hmem := (hok.pending [] hpc).2
      rwa [show namesOf [] = [] from rfl, List.append_nil] at hmem
    | cons l rest =>
      simp only [Proc.advance, hpc]
      cases happend : d.append l p.file with
      | some d' => exact sound_append hd hok hpc happend
      | none => exact ⟨hd, nofun⟩
  | unlock =>
    simp only [Proc.advance, hpc]
    exact ⟨⟨hd.udev, hd.names, hd.tmp⟩, nofun⟩

theorem advance_lock {p : Proc} {n : ℕ} (hd : d.Sound) (hpc : p.pc = .lock n) :
    (p.advance d).1.Sound ∧ (d.locked = true → (p.advance d).1 = d) ∧
      ∀ p' ∈ (p.advance d).2, p'.Inside → ¬ d.locked = true ∧ p'.Ok (p.advance d).1 := by
  have hudev : ¬ (!d.udev) = true := by simp [hd.udev]
  simp only [Proc.advance, hpc]
  rw [if_neg hudev]
  cases hlocked : d.locked with
  | false =>
    refine ⟨⟨hd.udev, hd.names, hd.tmp⟩, nofun, ?_⟩
    rintro p' ⟨⟩ -
    exact ⟨nofun, rfl, rfl, nofun, fun h => absurd rfl h.2.1, fun h => absurd rfl h.2.1, nofun,
      nofun⟩
  | true =>
    cases n with
    | zero => exact ⟨hd, fun _ => rfl, nofun⟩
    | succ n =>
      refine ⟨hd, fun _ => rfl, ?_⟩
      rintro p' ⟨⟩ hinside
      exact absurd rfl (hinside n)

end

section
variable {s t : System ρ}

/-- The scripts keep to the lock. -/
theorem disciplined : Disciplined (fun d p => Proc.advance d p) (·.locked = true) Proc.Inside
    Disk.Sound (fun d p => p.Ok d) fun d p => p.Safe d where
  locked _ _ hok := hok.locked
  inside _ _ hd hin hok hsafe := advance_inside hd hin hok hsafe
  outside d p hd hout _ := by
    obtain ⟨n, hpc⟩ : ∃ n, p.pc = .lock n := by simpa [Proc.Inside] using hout
    exact advance_lock hd hpc

abbrev Inv (s : System ρ) : Prop :=
  Excluded Proc.Inside Disk.Sound (fun d p => p.Ok d) s.disk s.procs

variable [DecidableEq ρ]

theorem inv_step (s : System ρ) (e : Event ρ) (t : System ρ) (h : Inv s) (hsafe : Safe s e)
    (hstep : next s e = some t) : Inv t := by
  cases e with
  | start r q =>
    obtain ⟨-, ⟨⟩⟩ := Option.dite_none_right_eq_some.mp hstep
    refine h.update ?_
    rintro p ⟨⟩ hin
    exact absurd rfl (hin 30)
  | next r =>
    cases hp : s.procs r with
    | none => simp [next, hp] at hstep
    | some p =>
      simp only [next, hp] at hstep
      cases hstep
      exact h.advance disciplined hp (hsafe p hp)
  | kill r =>
    -- the lock stays, so nobody comes in any more
    cases hstep
    exact h.update nofun
  | remount writeable =>
    cases hstep
    cases writeable with
    | true =>
      refine h.of_state ⟨h.sound.udev, h.sound.names, fun _ _ => hsafe.1⟩ fun r p hp hin => ?_
      exact absurd hin (hsafe.2 r p hp)
    | false =>
      refine h.of_state ⟨h.sound.udev, h.sound.names, nofun⟩ fun r p hp hin => ?_
      have hok := h.ok r p hp hin
      exact ⟨hok.own, hok.locked, hok.unprobe, hok.rules, nofun, hok.pending, hok.written⟩
  | reboot writeable =>
    -- with the temporary rules gone, the names are some of those from before
    cases hstep
    have hnames := h.sound.names
    rw [names_eq] at hnames
    refine excluded_idle ⟨h.sound.udev, ?_, fun _ _ => rfl⟩
    rw [names_eq]
    show (namesOf (s.disk.rules.getD []) ++ []).Nodup
    rw [List.append_nil]
    exact hnames.of_append_left

/-- A script only adds lines to the rules file. -/
theorem rules_advance (d : Disk) (p : Proc) :
    d.rules.getD [] <+: (p.advance d).1.rules.getD [] := by
  cases hpc : p.pc with
  | header | unprobe | unlock =>
    simp only [Proc.advance, hpc]
    exact List.prefix_rfl
  | probe | taken | number =>
    simp only [Proc.advance, hpc]
    split <;> exact List.prefix_rfl
  | lock n =>
    simp only [Proc.advance, hpc]
    split
    · exact List.prefix_rfl
    · split
      · exact List.prefix_rfl
      · cases n <;> exact List.prefix_rfl
  | name =>
    simp only [Proc.advance, hpc]
    split
    · exact List.prefix_rfl
    · split
      · exact List.prefix_rfl
      · split <;> exact List.prefix_rfl
  | write rest =>
    cases rest with
    | nil =>
      simp only [Proc.advance, hpc]
      exact List.prefix_rfl
    | cons l rest =>
      simp only [Proc.advance, hpc]
      cases hl : d.append l p.file with
      | some d' => exact rules_append hl
      | none => exact List.prefix_rfl

theorem rules_step {base : Rules} (s : System ρ) (e : Event ρ) (t : System ρ)
    (h : base <+: s.disk.rules.getD []) (hstep : next s e = some t) :
    base <+: t.disk.rules.getD [] := by
  cases e with
  | start r q =>
    obtain ⟨-, ⟨⟩⟩ := Option.dite_none_right_eq_some.mp hstep
    exact h
  | next r =>
    cases hp : s.procs r with
    | none => simp [next, hp] at hstep
    | some p =>
      simp only [next, hp] at hstep
      cases hstep
      exact h.trans (rules_advance s.disk p)
  | kill r =>
    cases hstep
    exact h
  | remount writeable =>
    cases hstep
    exact h
  | reboot writeable =>
    cases hstep
    exact h

/-- Whatever scripts are started and killed, in any order of their commands, through any number of
starts of the camera: no two rules give the same name, only one script at a time is behind the lock,
a script that gives the lock back has its name in a rule, and no rule in `/etc` is lost. -/
theorem distinct_of_run {d : Disk} (hd : d.Sound) {events : List (Event ρ)}
    (hsafe : StepsMeet next Safe ⟨d, fun _ => none⟩ events)
    (hrun : run next ⟨d, fun _ => none⟩ events = some t) :
    Distinct t ∧ d.rules.getD [] <+: t.disk.rules.getD [] := by
  have hinv := run_invariant next inv_step (excluded_idle hd) hsafe hrun
  refine ⟨⟨hinv.sound.names, hinv.exclusive, fun r p hp hpc => ?_⟩, ?_⟩
  · have hin : p.Inside := by simp [Proc.Inside, hpc]
    exact (hinv.ok r p hp hin).written hpc
  · have hstart : d.rules.getD [] <+: (⟨d, fun _ => none⟩ : System ρ).disk.rules.getD [] :=
      List.prefix_rfl
    exact run_preserves next rules_step hstart hrun

end

instance decidableInside (p : Proc) : Decidable p.Inside :=
  match hpc : p.pc with
  | .lock n => isFalse fun h => h n hpc
  | .header | .probe | .unprobe | .name | .taken | .number | .write _ | .unlock =>
    isTrue fun n h => by simp [hpc] at h

instance decidableProcSafe (d : Disk) (p : Proc) : Decidable (p.Safe d) :=
  decidable_of_iff ((p.pc = .name → p.request.interfaceName ≠ [] →
      p.request.interfaceName ∉ d.names) ∧ (p.pc = .number →
        ∀ v ∈ findAllRules nameKey (numbered p.request.base) (d.read p.file),
          Regular (v.drop p.request.base.length)))
    ⟨fun h => ⟨h.1, h.2⟩, fun h => ⟨h.custom, h.regular⟩⟩

instance decidableSafe (s : System Bool) : ∀ e, Decidable (Safe s e)
  | .next r =>
    match hp : s.procs r with
    | some p => decidable_of_iff (p.Safe s.disk) (by simp [Safe, hp])
    | none => isTrue (by simp [Safe, hp])
  | .remount true =>
    decidable_of_iff (s.disk.tmpNames = [] ∧ ∀ r, ∀ p ∈ s.procs r, ¬ p.Inside) Iff.rfl
  | .start _ _ | .kill _ | .remount false | .reboot _ => isTrue trivial

theorem isName_eth0 : IsName "eth0".toList := by
  have hhead : "eth0".toList.head? = some 'e' := by decide
  refine ⟨by decide, fun c hc => ?_⟩
  rw [hhead] at hc
  cases hc
  rfl

def ethernet (address : Text) (h : '\n' ∉ address) : Request where
  interface := "eth0".toList
  matchAddr := address
  matchDrv := []
  matchDevid := []
  matchId := []
  matchIftype := []
  interfaceName := []
  comment := []
  isName := isName_eth0
  quote := by simp
  oneLine := by simpa using h

def first : Request := ethernet "00:11".toList (by decide)

def second : Request := ethernet "00:22".toList (by decide)

/-- After an update: the rules file of the package has no rules. -/
def shipped (writeable : Bool) : Disk :=
  ⟨true, false, false, writeable, some (header ++ [[]]), none⟩

/-- The second script waits, while the first one takes the name that both devices have. -/
def twoDevices : List (Event Bool) :=
  [.start false first, .start true second, .next false, .next true] ++
    List.replicate 9 (.next false) ++ List.replicate 11 (.next true)

theorem distinct_twoDevices : ∃ t, run next ⟨shipped true, fun _ => none⟩ twoDevices = some t ∧
    t.disk.names = ["eth0".toList, "eth1".toList] ∧ Distinct t := by
  have hsound : (shipped true).Sound := ⟨rfl, by decide, fun _ _ => rfl⟩
  have hsafe : StepsMeet next Safe ⟨shipped true, fun _ => none⟩ twoDevices := by decide +kernel
  have hnames : (run next ⟨shipped true, fun _ => none⟩ twoDevices).map (·.disk.names) =
      some ["eth0".toList, "eth1".toList] := by decide +kernel
  obtain ⟨t, hrun, hnames⟩ := Option.map_eq_some_iff.mp hnames
  exact ⟨t, hrun, hnames, (distinct_of_run hsound hsafe hrun).1⟩

/-- `/etc` becomes writable between the two devices. -/
def remounted : List (Event Bool) :=
  [.start false first] ++ List.replicate 9 (.next false) ++ [.remount true, .start true second] ++
    List.replicate 10 (.next true)

/-- The second script does not look at the temporary rules. -/
theorem not_distinct_remounted :
    ∃ t, run next ⟨shipped false, fun _ => none⟩ remounted = some t ∧ ¬ Distinct t := by
  have hnames : (run next ⟨shipped false, fun _ => none⟩ remounted).map (·.disk.names) =
      some ["eth0".toList, "eth0".toList] := by decide +kernel
  obtain ⟨t, hrun, hnames⟩ := Option.map_eq_some_iff.mp hnames
  refine ⟨t, hrun, fun h => absurd h.names ?_⟩
  rw [hnames]
  decide

end ChronosUpdates.Udev
