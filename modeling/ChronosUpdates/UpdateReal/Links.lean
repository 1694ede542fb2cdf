import ChronosUpdates.UpdateReal.Script
import Mathlib.Data.Finset.Insert
import Mathlib.Data.Finset.Dedup

namespace ChronosUpdates.UpdateReal
open Shell

/-- What a link in `/etc/rc?.d` asks for: in which runlevel a service is started (`S`) or
stopped (`K`), and with which priority. -/
structure Place where
  level : String
  start : Bool
  priority : ℕ
deriving DecidableEq

abbrev Links := String → Finset Place

inductive Command
  | remove (name : String)
  | add (name : String) (places : List Place)
deriving DecidableEq

def Command.name : Command → String
  | .remove n | .add n _ => n

/-- `start 3 S .` and `stop 0 0 6 .`, with the list that is being read. -/
def requested : Option (Bool × ℕ) → List String → List Place
  | some (start, priority), w :: ws =>
    if w = "." then requested none ws
    else ⟨w, start, priority⟩ :: requested (some (start, priority)) ws
  | none, "start" :: w :: ws => requested (some (true, digits w.toList)) ws
  | none, "stop" :: w :: ws => requested (some (false, digits w.toList)) ws
  | _, _ => []

/-- `NAME defaults`. -/
def defaultPlaces : List Place :=
  ["2", "3", "4", "5"].map (⟨·, true, 20⟩) ++ ["0", "1", "6"].map (⟨·, false, 20⟩)

def command : List String → Option Command
  | ["-f", name, "remove"] => some (.remove name)
  | [name, "defaults"] => some (.add name defaultPlaces)
  | name :: args => some (.add name (requested none args))
  | [] => none

/-- What a command makes of the links of the service that it names. -/
def Command.own (s : Finset Place) : Command → Finset Place
  | .remove _ => ∅
  | .add _ places => if s = ∅ then places.toFinset else s

def linkEffect (ls : Links) : Act → Links
  | .updateRcD args =>
    match command args with
    | some c => Function.update ls c.name (c.own (ls c.name))
    | none => ls
  | _ => ls

def linkEffects (acts : List Act) (ls : Links) : Links := acts.foldl linkEffect ls

/-- The services that the script names, with the links that they are to have. -/
def wanted : List (String × List Place) :=
  [("telnetd", []), ("thttpd", []), ("banner", []), ("psplash", []), ("shutdown_splash.sh", []),
    ("matrix-gui-e", []), ("gplv3-notice", []),
    ("udev", [⟨"S", true, 3⟩]), ("load-hd-firmware.sh", [⟨"S", true, 40⟩]),
    ("vidorder", [⟨"S", true, 41⟩]),
    ("camera", [⟨"S", true, 42⟩, ⟨"0", false, 0⟩, ⟨"6", false, 0⟩]),
    ("networking", [⟨"S", true, 60⟩]), ("mountnfs.sh", [⟨"S", true, 65⟩]),
    ("bootmisc.sh", [⟨"S", true, 70⟩]), ("alsa-state", [⟨"S", true, 80⟩]),
    ("udhcpcd", defaultPlaces)]

/-- Every named service has its links and no others, and all other services keep theirs. -/
structure LinksSettled (before after : Links) : Prop where
  settled : ∀ e ∈ wanted, after e.1 = e.2.toFinset
  kept : ∀ n, n ∉ wanted.map Prod.fst → after n = before n

def serviceOf : Act → Option String
  | .updateRcD args => (command args).map Command.name
  | _ => none

def commandFor (n : String) : Act → Option Command
  | .updateRcD args => (command args).filter (·.name == n)
  | _ => none

theorem linkEffect_apply (ls : Links) (a : Act) (n : String) :
    linkEffect ls a n = ((commandFor n a).toList.foldl Command.own (ls n)) := by
  cases a with
  | updateRcD args =>
    simp only [linkEffect, commandFor]
    cases command args with
    | none => rfl
    | some c =>
      by_cases hn : c.name = n
      · subst hn
        simp [Option.filter_some]
      · simp [Option.filter_some, hn, Function.update_of_ne (Ne.symm hn)]
  | _ => rfl

/-- The links of a service are what its own commands make of its own links. -/
theorem linkEffects_apply (acts : List Act) (ls : Links) (n : String) :
    linkEffects acts ls n = (acts.filterMap (commandFor n)).foldl Command.own (ls n) := by
  induction acts generalizing ls with
  | nil => rfl
  | cons a acts ih =>
    have hcons : linkEffects (a :: acts) ls = linkEffects acts (linkEffect ls a) := rfl
    rw [hcons, ih, linkEffect_apply, List.filterMap_cons]
    cases commandFor n a <;> rfl

variable {δ : Type*}

theorem linkEffects_install (env : Env δ) (ls : Links) :
    linkEffects (install env) ls = linkEffects fixLinks ls := by
  have hpmic : ∀ (as : List Pmic.Act) (m : Links), linkEffects (as.map Act.pmic) m = m := by
    intro as m
    induction as with
    | nil => rfl
    | cons a as ih => exact ih
  unfold linkEffects at *
  unfold install
  simp only [List.foldl_append, hpmic]
  split <;> rfl

/-- What the block makes of the links of a service. -/
theorem links_install (env : Env δ) (ls : Links) (n : String) :
    linkEffects (install env) ls n =
      (fixLinks.filterMap (commandFor n)).foldl Command.own (ls n) := by
  rw [linkEffects_install, linkEffects_apply]

theorem links_of_removed {n : String} (h : fixLinks.filterMap (commandFor n) = [.remove n])
    (env : Env δ) (ls : Links) : linkEffects (install env) ls n = ∅ := by
  rw [links_install, h]
  rfl

/-- Links that are added after a removal do not depend on the ones before. -/
theorem links_of_readded {n : String} {ps : List Place}
    (h : fixLinks.filterMap (commandFor n) = [.remove n, .add n ps]) (env : Env δ) (ls : Links) :
    linkEffects (install env) ls n = ps.toFinset := by
  rw [links_install, h]
  rfl

theorem links_of_added {n : String} {ps : List Place}
    (h : fixLinks.filterMap (commandFor n) = [.add n ps]) (env : Env δ) (ls : Links) :
    linkEffects (install env) ls n = if ls n = ∅ then ps.toFinset else ls n := by
  rw [links_install, h]
  rfl

theorem serviceOf_of_commandFor {n : String} {a : Act} {c : Command}
    (h : commandFor n a = some c) : serviceOf a = some n := by
  cases a with
  | updateRcD args =>
    obtain ⟨hc, hn⟩ := Option.filter_eq_some_iff.mp h
    simpa [serviceOf, hc] using hn
  | _ => cases h

theorem commandFor_eq_none {n : String} (h : n ∉ wanted.map Prod.fst) :
    fixLinks.filterMap (commandFor n) = [] := by
  have hnames : ∀ a ∈ fixLinks, ∀ m ∈ serviceOf a, m ∈ wanted.map Prod.fst := by decide
  rw [List.filterMap_eq_nil_iff]
  intro a ha
  by_contra hc
  obtain ⟨c, hc⟩ := Option.ne_none_iff_exists'.mp hc
  exact h (hnames a ha n (serviceOf_of_commandFor hc))

/-- All services but one are removed before their links are made. -/
theorem commandFor_wanted : ∀ e ∈ wanted, e.1 ≠ "udhcpcd" →
    (fixLinks.filterMap (commandFor e.1) = [.remove e.1] ∧ e.2 = []) ∨
      fixLinks.filterMap (commandFor e.1) = [.remove e.1, .add e.1 e.2] := by decide

theorem commandFor_udhcpcd :
    fixLinks.filterMap (commandFor "udhcpcd") = [.add "udhcpcd" defaultPlaces] := by decide

/-- The block settles the links of every service it names, if and only if `udhcpcd` has no
links before or the ones it is to have. -/
theorem linksSettled_iff (env : Env δ) (ls : Links) :
    LinksSettled ls (linkEffects (install env) ls) ↔
      ls "udhcpcd" = ∅ ∨ ls "udhcpcd" = defaultPlaces.toFinset := by
  have hdhcp := links_of_added commandFor_udhcpcd env ls
  constructor
  · intro h
    have hs := h.settled ("udhcpcd", defaultPlaces) (by decide)
    rw [hdhcp] at hs
    by_cases he : ls "udhcpcd" = ∅
    · exact .inl he
    · rw [if_neg he] at hs
      exact .inr hs
  · intro h
    constructor
    · intro e he
      by_cases hn : e.1 = "udhcpcd"
      · have hps : e.2 = defaultPlaces :=
          (by decide : ∀ e ∈ wanted, e.1 = "udhcpcd" → e.2 = defaultPlaces) e he hn
        rw [hn, hdhcp, hps]
        split
        · rfl
        · exact h.resolve_left (by assumption)
      · rcases commandFor_wanted e he hn with ⟨hc, hps⟩ | hc
        · rw [links_of_removed hc, hps]
          rfl
        · exact links_of_readded hc env ls
    · intro n hn
      rw [links_install, commandFor_eq_none hn]
      rfl

/-- A camera that starts `udhcpcd` last in runlevel 2 still does after the update. -/
theorem not_linksSettled : ∃ ls : Links, ∀ env : Env ℕ,
    ¬ LinksSettled ls (linkEffects (install env) ls) := by
  refine ⟨fun n => if n = "udhcpcd" then {⟨"2", true, 99⟩} else ∅, fun env h => ?_⟩
  have hs := h.settled ("udhcpcd", defaultPlaces) (by decide)
  rw [links_of_added commandFor_udhcpcd] at hs
  revert hs
  decide

end ChronosUpdates.UpdateReal
