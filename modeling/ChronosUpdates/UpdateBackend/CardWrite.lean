import ChronosUpdates.UpdateBackend.Script
import ChronosUpdates.Runs

namespace ChronosUpdates.UpdateBackend
open Shell Runs

/-- The `dd` of the pipeline: not yet executed, executed, with its handler of `SIGUSR1`
installed, finished, or terminated by the signal. -/
inductive Dd
  | unstarted
  | starting
  | copying
  | exited
  | killed
deriving DecidableEq, Repr

def Dd.alive (d : Dd) : Bool := d == .starting || d == .copying

def Dd.gone (d : Dd) : Bool := d == .exited || d == .killed

/-- The bytes of the image on their way: those that `zcat` has still to write, those in the
pipe, in the buffer of `dd` and on the card; besides, the number of other processes named
`dd`, and whether `WriteDone` is sent. -/
structure Pipeline (β : Type*) where
  dd : Dd
  input : List β
  zcatDone : Bool
  pipe : List β
  buffer : List β
  card : List β
  others : ℕ
  writeDone : Bool
deriving DecidableEq

/-- `SIGUSR1` to the processes named `dd`, or a signal that no process of the pipeline handles. -/
inductive Signal
  | usr1
  | fatal
deriving DecidableEq, Repr

/-- A step of `zcat`, of `dd`, of another process (which may be a second `update_backend.sh` with
its own `killall -USR1 dd`), or one turn of the loop. -/
inductive Turn
  | zcatWrite (n : ℕ)
  | zcatExit
  | ddExec
  | ddReady
  | ddRead (n : ℕ)
  | ddWrite (n : ℕ)
  | ddExit
  | otherStart
  | otherExit
  | otherSignal (signal : Signal)
  | zcatKilled
  | poll
deriving DecidableEq, Repr

variable {β : Type*}

def launched (image : List β) : Pipeline β := ⟨.unstarted, image, false, [], [], [], 0, false⟩

/-- What `killall -USR1 dd` prints. -/
def killallResult (s : Pipeline β) : Text :=
  if s.dd.alive ∨ s.others ≠ 0 then [] else "killall: dd: no process killed\n".toList

/-- `SIGUSR1` terminates a process without a handler; before `dd` is executed, its process has
another name. -/
def Dd.signalled : Signal → Dd → Dd
  | .usr1, .starting => .killed
  | .fatal, .unstarted | .fatal, .starting | .fatal, .copying => .killed
  | _, d => d

def Enabled (s : Pipeline β) : Turn → Prop
  | .zcatWrite _ => s.zcatDone = false ∧ s.dd.gone = false
  -- at the end of the image, or by `SIGPIPE`
  | .zcatExit => s.zcatDone = false ∧ (s.input = [] ∨ s.dd.gone = true)
  | .ddExec => s.dd = .unstarted
  | .ddReady => s.dd = .starting
  | .ddRead _ => s.dd = .copying ∧ s.buffer = []
  | .ddWrite _ => s.dd = .copying
  | .ddExit => s.dd = .copying ∧ s.buffer = [] ∧ s.pipe = [] ∧ s.zcatDone = true
  | .otherStart => True
  | .otherExit => s.others ≠ 0
  | .otherSignal _ => True
  | .zcatKilled => s.zcatDone = false
  | .poll => s.writeDone = false

instance (s : Pipeline β) (a : Turn) [DecidableEq β] : Decidable (Enabled s a) := by
  cases a <;> unfold Enabled <;> infer_instance

def effect (s : Pipeline β) : Turn → Pipeline β
  | .zcatWrite n => { s with input := s.input.drop n, pipe := s.pipe ++ s.input.take n }
  | .zcatExit => { s with zcatDone := true }
  | .ddExec => { s with dd := .starting }
  | .ddReady => { s with dd := .copying }
  | .ddRead n => { s with pipe := s.pipe.drop n, buffer := s.pipe.take n }
  | .ddWrite n => { s with buffer := s.buffer.drop n, card := s.card ++ s.buffer.take n }
  | .ddExit => { s with dd := .exited }
  | .otherStart => { s with others := s.others + 1 }
  | .otherExit => { s with others := s.others - 1 }
  -- the signal is for every process named `dd`
  | .otherSignal signal => { s with dd := s.dd.signalled signal }
  | .zcatKilled => { s with zcatDone := true }
  | .poll =>
    if substitute (killallResult s) = [] then { s with dd := s.dd.signalled .usr1 }
    else { s with writeDone := true }

def turn [DecidableEq β] (s : Pipeline β) (a : Turn) : Option (Pipeline β) :=
  if Enabled s a then some (effect s a) else none

theorem turn_eq_some [DecidableEq β] {s t : Pipeline β} {a : Turn} :
    turn s a = some t ↔ Enabled s a ∧ effect s a = t := by
  simp [turn]

def Written (s : Pipeline β) : Prop := s.buffer = [] ∧ s.pipe = [] ∧ s.input = []

instance (s : Pipeline β) : Decidable (Written s) :=
  inferInstanceAs (Decidable (_ ∧ _ ∧ _))

/-- As long as bytes are missing on the card, no signal ends `dd` or `zcat`, and the loop does not
poll before `dd` is executed, unless another process named `dd` hides that. -/
def SafeTurn (s : Pipeline β) : Turn → Prop
  | .poll =>
    s.dd.signalled .usr1 = s.dd ∧ (s.dd = .unstarted → s.others ≠ 0) ∨ Written s
  | .otherSignal signal => s.dd.signalled signal = s.dd ∨ Written s
  | .zcatKilled => s.input = []
  | _ => True

instance (s : Pipeline β) (a : Turn) : Decidable (SafeTurn s a) := by
  cases a <;> unfold SafeTurn <;> infer_instance

/-- No byte is lost, and neither the end of `dd` nor `WriteDone` comes before the last one. -/
structure Flows (image : List β) (s : Pipeline β) : Prop where
  bytes : s.card ++ s.buffer ++ s.pipe ++ s.input = image
  zcat_done : s.zcatDone = true → s.input = []
  gone : s.dd.gone = true → Written s
  done : s.writeDone = true → Written s

theorem flows_launched (image : List β) : Flows image (launched image) :=
  ⟨rfl, fun h => (nomatch h), fun h => (nomatch h), fun h => (nomatch h)⟩

theorem Flows.card {image : List β} {s : Pipeline β} (hs : Flows image s) (h : Written s) :
    s.card = image := by
  obtain ⟨hbuffer, hpipe, hinput⟩ := h
  have hbytes := hs.bytes
  simpa only [hbuffer, hpipe, hinput, List.append_nil] using hbytes

theorem killallResult_eq_nil (s : Pipeline β) :
    substitute (killallResult s) = [] ↔ s.dd.alive = true ∨ s.others ≠ 0 := by
  unfold killallResult
  split
  · rename_i h
    exact iff_of_true rfl h
  · rename_i h
    exact iff_of_false (by decide) h

theorem Written.effect {s : Pipeline β} (h : Written s) (a : Turn) : Written (effect s a) := by
  obtain ⟨hbuffer, hpipe, hinput⟩ := h
  cases a with
  | zcatWrite n | ddRead n | ddWrite n => simp [Written, UpdateBackend.effect, *]
  | poll =>
    simp only [UpdateBackend.effect]
    split <;> exact ⟨hbuffer, hpipe, hinput⟩
  | _ => exact ⟨hbuffer, hpipe, hinput⟩

theorem bytes_effect {s : Pipeline β} {a : Turn} (h : Enabled s a) :
    (effect s a).card ++ (effect s a).buffer ++ (effect s a).pipe ++ (effect s a).input =
      s.card ++ s.buffer ++ s.pipe ++ s.input := by
  cases a with
  | zcatWrite n | ddWrite n => simp only [effect, List.append_assoc, List.take_append_drop]
  | ddRead n => simp only [effect, h.2, List.append_assoc, List.take_append_drop, List.nil_append]
  | poll =>
    simp only [effect]
    split <;> rfl
  | _ => rfl

/-- A safe step ends `dd` only behind the last byte. -/
theorem Flows.gone_effect {image : List β} {s : Pipeline β} {a : Turn} (hs : Flows image s)
    (ha : SafeTurn s a) (h : Enabled s a) (hg : (effect s a).dd.gone = true) : Written s := by
  -- a signal that changes nothing finds `dd` gone already
  have hsignal : ∀ signal, s.dd.signalled signal = s.dd ∨ Written s →
      (s.dd.signalled signal).gone = true → Written s := by
    rintro signal (he | hw) hg
    · exact hs.gone (he ▸ hg)
    · exact hw
  cases a with
  | ddExec | ddReady => cases hg
  | ddExit => exact ⟨h.2.1, h.2.2.1, hs.zcat_done h.2.2.2⟩
  | otherSignal signal => exact hsignal signal ha hg
  | poll =>
    simp only [effect] at hg
    split at hg
    · exact hsignal .usr1 (ha.imp_left And.left) hg
    · exact hs.gone hg
  | _ => exact hs.gone hg

/-- A safe poll that finds no `dd` comes behind the last byte. -/
theorem Flows.done_effect {image : List β} {s : Pipeline β} {a : Turn} (hs : Flows image s)
    (ha : SafeTurn s a) (hdone : (effect s a).writeDone = true) : Written s := by
  cases a with
  | poll =>
    simp only [effect] at hdone
    split at hdone
    · exact hs.done hdone
    rename_i hres
    rw [killallResult_eq_nil, not_or, not_not] at hres
    obtain ⟨halive, hothers⟩ := hres
    rcases ha with ⟨-, hother⟩ | hw
    · have hgone : s.dd.gone = true := by
        cases hd : s.dd with
        | unstarted => exact absurd hothers (hother hd)
        | starting | copying => simp [hd, Dd.alive] at halive
        | exited | killed => rfl
      exact hs.gone hgone
    · exact hw
  | _ => exact hs.done hdone

theorem flows_effect {image : List β} {s : Pipeline β} {a : Turn} (hs : Flows image s)
    (ha : SafeTurn s a) (h : Enabled s a) : Flows image (effect s a) where
  bytes := (bytes_effect h).trans hs.bytes
  zcat_done hz := by
    cases a with
    | zcatWrite n => cases h.1.symm.trans hz
    | zcatExit =>
      rcases h.2 with hi | hg
      · exact hi
      · -- `SIGPIPE` comes from a `dd` that has read everything
        exact (hs.gone hg).2.2
    | zcatKilled => exact ha
    | poll =>
      simp only [effect] at hz ⊢
      split at hz <;> split <;> exact hs.zcat_done hz
    | _ => exact hs.zcat_done hz
  gone hg := (hs.gone_effect ha h hg).effect a
  done hd := (hs.done_effect ha hd).effect a

variable [DecidableEq β]

theorem flows_turn {image : List β} {s t : Pipeline β} {a : Turn} (hs : Flows image s)
    (ha : SafeTurn s a) (h : turn s a = some t) : Flows image t := by
  obtain ⟨he, rfl⟩ := turn_eq_some.mp h
  exact flows_effect hs ha he

/-- The image is on the card when `WriteDone` is sent, in every run in which no signal meets a `dd`
that it ends, and no poll comes before `dd`. -/
theorem card_of_safe_run (image : List β) {turns : List Turn} {s : Pipeline β}
    (hok : StepsMeet turn SafeTurn (launched image) turns)
    (h : run turn (launched image) turns = some s) (hdone : s.writeDone = true) :
    s.card = image := by
  have hs := run_invariant turn (fun _ _ _ => flows_turn) (flows_launched image) hok h
  exact hs.card (hs.done hdone)

/-- A write that is ready at the first poll, beside a second script that polls too. -/
def promptTurns : List Turn :=
  [.zcatWrite 1, .otherSignal .usr1, .ddExec, .ddReady, .poll, .ddRead 1, .otherSignal .usr1,
    .zcatWrite 1, .zcatExit, .ddWrite 1, .ddRead 1, .otherStart, .ddWrite 1, .ddExit,
    .otherSignal .fatal, .poll, .otherExit, .poll]

theorem card_promptTurns : ∃ s, run turn (launched [true, false]) promptTurns = some s ∧
    s.writeDone = true ∧ s.card = [true, false] := by
  have hok : StepsMeet turn SafeTurn (launched [true, false]) promptTurns := by decide
  exact ⟨_, rfl, rfl, card_of_safe_run [true, false] hok rfl rfl⟩

/-- Polled before it is executed, or met by the signal of either script before it handles it, `dd`
is taken for finished or is terminated, and `WriteDone` is sent for an empty card. -/
theorem not_card_earlyPoll :
    (∃ s, run turn (launched [true]) [.poll] = some s ∧ s.writeDone = true ∧ s.card ≠ [true]) ∧
      (∃ s, run turn (launched [true]) [.zcatWrite 1, .ddExec, .poll, .poll] = some s ∧
        s.writeDone = true ∧ s.card ≠ [true]) ∧
      ∃ s, run turn (launched [true]) [.zcatWrite 1, .ddExec, .otherSignal .usr1, .poll] = some s ∧
        s.writeDone = true ∧ s.card ≠ [true] :=
  ⟨⟨_, rfl, rfl, by decide⟩, ⟨_, rfl, rfl, by decide⟩, ⟨_, rfl, rfl, by decide⟩⟩

end ChronosUpdates.UpdateBackend
