import ChronosUpdates.UpdateReal.Script
import Mathlib.Data.Nat.Find

namespace ChronosUpdates.UpdateReal
open Shell

def camApp : Text := "camApp".toList

structure Process where
  pid : ℕ
  name : Text
  line : Text

def psHeader : Text := "  PID USER       VSZ STAT COMMAND".toList

/-- What `ps` finds: all live processes, and maybe the `grep` that reads its output. -/
structure Snapshot where
  processes : List Process
  grep : Option Text
  camApp_shown : ∀ p ∈ processes, p.name = camApp → contains camApp p.line = true
  grep_shown : ∀ l ∈ grep, contains camApp l = true
  single : ∀ l ∈ processes.map Process.line ++ grep.toList, '\n' ∉ l

def Snapshot.text (s : Snapshot) : Text :=
  unlines (psHeader :: (s.processes.map Process.line ++ s.grep.toList))

def Snapshot.camApps (s : Snapshot) : List ℕ :=
  (s.processes.filter fun p => p.name = camApp).map Process.pid

def Snapshot.Quiet (s : Snapshot) : Prop :=
  s.grep = none ∧ ∀ p ∈ s.processes, contains camApp p.line = false

def TIMEOUT : ℕ := 100

section
variable (ss : ℕ → Snapshot)

def turns (n : ℕ) : List Act × Bool := waitLoop TIMEOUT ((List.range n).map fun i => (ss i).text)

/-- The loop is over after `n` turns, or sooner. -/
def Ended (n : ℕ) : Prop := (turns ss n).2 = true

/-- In its first `n` turns the loop has sent signal 9. -/
def Killed (n : ℕ) : Prop := .killall (some 9) "camApp" ∈ (turns ss n).1

/-- No `camApp` is started, and one that is killed is gone in the next snapshot. -/
structure Evolves : Prop where
  noneStarted : ∀ i, (ss (i + 1)).camApps ⊆ (ss i).camApps
  killedGone : ∀ i, Killed ss (i + 1) → ∀ p ∈ (ss i).camApps, p ∉ (ss (i + 1)).camApps

/-- A turn ends the loop exactly when no `camApp` is alive in its snapshot, and the loop does
end, at the latest one turn after its first signal 9. -/
structure WaitsRight : Prop where
  leaves : ∀ i, ¬ Ended ss i → (Ended ss (i + 1) ↔ (ss i).camApps = [])
  ends : ∃ n, Ended ss n
  afterKill : ∀ n, Killed ss n → Ended ss (n + 1)

def QuietWhenGone : Prop :=
  ∀ i, (∀ j, j < i → (ss j).camApps ≠ []) → (ss i).camApps = [] → (ss i).Quiet

end

/-- `[[ "$grep_out" == "" ]]`. -/
def findsNothing (t : Text) : Prop := substitute (grep (contains camApp) t) = []

theorem findsNothing_iff (s : Snapshot) : findsNothing s.text ↔ s.Quiet := by
  have hlines : lines s.text = psHeader :: (s.processes.map Process.line ++ s.grep.toList) := by
    refine lines_unlines _ fun l hl => ?_
    rcases List.mem_cons.mp hl with rfl | hl
    · decide
    · exact s.single l hl
  have hpattern : ∀ l, contains camApp l = true → ∃ c ∈ l, c ≠ '\n' := by
    intro l hl
    exact ⟨'c', (of_decide_eq_true hl).subset (by decide), by decide⟩
  have hheader : contains camApp psHeader = false := by decide
  rw [findsNothing, substitute_grep_eq_nil _ hpattern, hlines]
  simp only [List.mem_cons, List.mem_append, List.mem_map, Option.mem_toList]
  constructor
  · intro h
    refine ⟨?_, fun p hp => h _ (.inr (.inl ⟨p, hp, rfl⟩))⟩
    by_contra hne
    obtain ⟨l, hl⟩ := Option.ne_none_iff_exists'.mp hne
    have hshown := s.grep_shown l hl
    rw [h l (.inr (.inr hl))] at hshown
    cases hshown
  · rintro ⟨hgrep, hquiet⟩ l (rfl | ⟨p, hp, rfl⟩ | hl)
    · exact hheader
    · exact hquiet p hp
    · rw [hgrep] at hl
      cases hl

theorem Snapshot.Quiet.camApps {s : Snapshot} (h : s.Quiet) : s.camApps = [] := by
  rw [Snapshot.camApps, List.map_eq_nil_iff, List.filter_eq_nil_iff]
  intro p hp hname
  have hshown := s.camApp_shown p hp (of_decide_eq_true hname)
  rw [h.2 p hp] at hshown
  cases hshown

theorem waitLoop_found {t : Text} {timeout : ℕ} {ts : List Text} (h : ¬ findsNothing t) :
    waitLoop timeout (t :: ts) =
      (.ps :: ((if 0 < timeout then [] else [.killall (some 9) "camApp"]) ++
        (waitLoop (timeout - 1) ts).1), (waitLoop (timeout - 1) ts).2) := by
  unfold findsNothing camApp at h
  rw [waitLoop, if_neg h]
  split
  · rfl
  · have h0 : timeout - 1 = 0 := by omega
    rw [h0]
    rfl

theorem waitLoop_ended {t : Text} (timeout : ℕ) (ts : List Text) (h : findsNothing t) :
    waitLoop timeout (t :: ts) = ([.ps], true) := if_pos h

theorem waitLoop_ends_iff {timeout : ℕ} {ts : List Text} :
    (waitLoop timeout ts).2 = true ↔ ∃ t ∈ ts, findsNothing t := by
  induction ts generalizing timeout with
  | nil => simp [waitLoop]
  | cons t ts ih =>
    by_cases ht : findsNothing t
    · simp [waitLoop_ended timeout ts ht, ht]
    · simp [waitLoop_found ht, ih, ht]

theorem kill_mem_iff {timeout : ℕ} {ts : List Text} :
    .killall (some 9) "camApp" ∈ (waitLoop timeout ts).1 ↔
      timeout < ts.length ∧ ∀ t ∈ ts.take (timeout + 1), ¬ findsNothing t := by
  induction ts generalizing timeout with
  | nil => simp [waitLoop]
  | cons t ts ih =>
    by_cases ht : findsNothing t
    · simp [waitLoop_ended timeout ts ht, ht]
    · rw [waitLoop_found ht]
      cases timeout with
      | zero => simp [ht]
      | succ n => simp [ih, ht]

section
variable {ss : ℕ → Snapshot}

theorem ended_iff {n : ℕ} : Ended ss n ↔ ∃ i < n, (ss i).Quiet := by
  simp [Ended, turns, waitLoop_ends_iff, findsNothing_iff]

theorem ended_succ_iff {n : ℕ} (h : ¬ Ended ss n) : Ended ss (n + 1) ↔ (ss n).Quiet := by
  rw [ended_iff] at *
  constructor
  · rintro ⟨i, hi, hq⟩
    have hin : i = n := by
      by_contra hne
      exact h ⟨i, by omega, hq⟩
    exact hin ▸ hq
  · exact fun hq => ⟨n, n.lt_succ_self, hq⟩

theorem killed_iff {n : ℕ} : Killed ss n ↔ TIMEOUT < n ∧ ∀ i ≤ TIMEOUT, ¬ (ss i).Quiet := by
  rw [Killed, turns, kill_mem_iff, List.length_map, List.length_range]
  refine and_congr_right fun hn => ?_
  have hmin : min (TIMEOUT + 1) n = TIMEOUT + 1 := by omega
  rw [← List.map_take, List.take_range, hmin]
  simp only [List.forall_mem_map, List.mem_range, Nat.lt_succ_iff, findsNothing_iff]

theorem camApps_after_kill (hev : Evolves ss) {n : ℕ} (h : Killed ss n) :
    (ss (TIMEOUT + 1)).camApps = [] := by
  have hk : Killed ss (TIMEOUT + 1) := killed_iff.mpr ⟨Nat.lt_succ_self _, (killed_iff.mp h).2⟩
  rw [List.eq_nil_iff_forall_not_mem]
  intro p hp
  exact hev.killedGone TIMEOUT hk p (hev.noneStarted TIMEOUT hp) hp

theorem exists_first_gone {i : ℕ} (h : (ss i).camApps = []) :
    ∃ j ≤ i, (∀ k, k < j → (ss k).camApps ≠ []) ∧ (ss j).camApps = [] := by
  classical
  have hex : ∃ j, (ss j).camApps = [] := ⟨i, h⟩
  exact ⟨Nat.find hex, Nat.find_min' hex h, fun k hk => Nat.find_min hex hk, Nat.find_spec hex⟩

theorem ended_of_gone (hq : QuietWhenGone ss) {i : ℕ} (h : (ss i).camApps = []) :
    Ended ss (i + 1) := by
  obtain ⟨j, hj, hfirst, hgone⟩ := exists_first_gone h
  exact ended_iff.mpr ⟨j, by omega, hq j hfirst hgone⟩

theorem Ended.mono {m n : ℕ} (h : Ended ss m) (hmn : m ≤ n) : Ended ss n := by
  obtain ⟨i, hi, hquiet⟩ := ended_iff.mp h
  exact ended_iff.mpr ⟨i, by omega, hquiet⟩

theorem ended_after_kill (hev : Evolves ss) (hq : QuietWhenGone ss) {n : ℕ} (h : Killed ss n) :
    Ended ss (n + 1) := by
  have hn : TIMEOUT < n := (killed_iff.mp h).1
  exact (ended_of_gone hq (camApps_after_kill hev h)).mono (by omega)

theorem quietWhenGone_of_waitsRight (h : WaitsRight ss) : QuietWhenGone ss := by
  intro i hfirst hgone
  have hnot : ¬ Ended ss i := by
    intro he
    obtain ⟨j, hj, hquiet⟩ := ended_iff.mp he
    exact hfirst j hj hquiet.camApps
  exact (ended_succ_iff hnot).mp ((h.leaves i hnot).mpr hgone)

theorem waitsRight_of_quietWhenGone (hev : Evolves ss) (hq : QuietWhenGone ss) :
    WaitsRight ss := by
  refine ⟨fun i hnot => ⟨fun he => ?_, ended_of_gone hq⟩, ?_, fun n => ended_after_kill hev hq⟩
  · exact ((ended_succ_iff hnot).mp he).camApps
  · by_cases hk : Killed ss (TIMEOUT + 1)
    · exact ⟨_, ended_after_kill hev hq hk⟩
    · have hex : ∃ i ≤ TIMEOUT, (ss i).Quiet := by
        by_contra hnone
        exact hk (killed_iff.mpr ⟨Nat.lt_succ_self _, fun i hi hquiet => hnone ⟨i, hi, hquiet⟩⟩)
      obtain ⟨i, hi, hquiet⟩ := hex
      exact ⟨i + 1, ended_iff.mpr ⟨i, i.lt_succ_self, hquiet⟩⟩

end

/-- The loop waits for the end of `camApp` and no longer, if and only if the first listing
without a `camApp` process does not speak of `camApp` at all. -/
theorem waitsRight_iff (ss : ℕ → Snapshot) (hev : Evolves ss) :
    WaitsRight ss ↔ QuietWhenGone ss :=
  ⟨quietWhenGone_of_waitsRight, waitsRight_of_quietWhenGone hev⟩

def idle : Snapshot where
  processes := []
  grep := none
  camApp_shown _ hp := nomatch hp
  grep_shown _ hl := nomatch hl
  single _ hl := nomatch hl

/-- A camera with a `camApp` that does not react to `SIGTERM`. -/
def hanging : Snapshot where
  processes := [⟨612, camApp, "  612 root      188m S    /opt/camera/camApp -qws".toList⟩]
  grep := some "  999 root      1088 S    grep camApp".toList
  camApp_shown := by decide
  grep_shown := by decide
  single := by decide

/-- `camApp` outlives the `TIMEOUT`, and is gone in the listing behind the first signal 9. -/
def stubborn (i : ℕ) : Snapshot := if i ≤ TIMEOUT then hanging else idle

theorem evolves_stubborn : Evolves stubborn where
  noneStarted i := by
    by_cases hi : i + 1 ≤ TIMEOUT
    · have hi' : i ≤ TIMEOUT := by omega
      simp [stubborn, hi, hi']
    · rw [stubborn, if_neg hi]
      exact List.nil_subset _
  killedGone i hk p _ hp := by
    have hi : ¬ i + 1 ≤ TIMEOUT := Nat.not_le.mpr (killed_iff.mp hk).1
    rw [stubborn, if_neg hi] at hp
    cases hp

/-- The loop sends signal 9 in its last turn with a `camApp`, and leaves in the next one. -/
theorem waitsRight_stubborn : Killed stubborn (TIMEOUT + 1) ∧ ¬ Ended stubborn (TIMEOUT + 1) ∧
    Ended stubborn (TIMEOUT + 2) ∧ WaitsRight stubborn := by
  have hshown : ∀ i ≤ TIMEOUT, ¬ (stubborn i).Quiet := by
    intro i hi hq
    rw [stubborn, if_pos hi] at hq
    cases hq.1
  have hquiet : QuietWhenGone stubborn := by
    intro i _ hgone
    by_cases hi : i ≤ TIMEOUT
    · rw [stubborn, if_pos hi] at hgone
      cases hgone
    · rw [stubborn, if_neg hi]
      exact ⟨rfl, fun _ hp => nomatch hp⟩
  have hwaits := (waitsRight_iff stubborn evolves_stubborn).mpr hquiet
  have hkilled : Killed stubborn (TIMEOUT + 1) := killed_iff.mpr ⟨Nat.lt_succ_self _, hshown⟩
  refine ⟨hkilled, ?_, hwaits.afterKill _ hkilled, hwaits⟩
  rw [ended_iff]
  rintro ⟨i, hi, hq⟩
  exact hshown i (Nat.lt_succ_iff.mp hi) hq

def idleWithGrep : Snapshot where
  processes := []
  grep := some "  999 root      1088 S    grep camApp".toList
  camApp_shown _ hp := nomatch hp
  grep_shown := by decide
  single := by decide

/-- The loop does not leave an idle camera whose listings show the `grep`. -/
theorem not_waitsRight_idleWithGrep : ∃ ss, Evolves ss ∧ ¬ WaitsRight ss := by
  refine ⟨fun _ => idleWithGrep, ⟨fun _ _ hp => hp, fun _ _ _ hp => nomatch hp⟩, fun h => ?_⟩
  have hquiet := quietWhenGone_of_waitsRight h 0 (fun j hj => absurd hj (Nat.not_lt_zero j)) rfl
  cases hquiet.1

end ChronosUpdates.UpdateReal
