import ChronosUpdates.UpdateBackend.Script
import Mathlib.Data.List.Basic

namespace ChronosUpdates.UpdateBackend
open Shell

/-- The `read` takes the line `w` from the input, up to the blanks around it. -/
def IsLine (w : Text) (p : Poll) : Prop := ∃ t, p.event = .line t ∧ stripBlanks t = w

def lineAfter (line : Text) (ps : List Poll) : Text := ps.foldl (fun l p => readLine l p.event) line

def cardMsgs (t : List Act) : List Msg :=
  t.filterMap fun
    | .echo m =>
      if m ∈ [.topSDMissing, .topSDTooSmall, .topSDGood, .topSDVettedBrand, .topSDUnknownBrand]
      then some m else none
    | _ => none

def Act.OfMd5 : Act → Prop
  | .echo m => m = .usbCheckStart ∨ m = .usbCheckDone
  | .md5sum | .report _ => True
  | _ => False

def OnceAfter (a b : Act) (t : List Act) : Prop :=
  ∃ pre post, t = pre ++ a :: post ∧ a ∉ pre ∧ a ∉ post ∧ b ∈ pre

/-- Nothing of the check of the package occurs, or one whole check. -/
def CheckedOnce (t : List Act) : Prop :=
  (∀ a ∈ t, ¬ a.OfMd5) ∨
    ∃ pre report post, t = pre ++ usbCheck report ++ post ∧ (∀ a ∈ pre, ¬ a.OfMd5) ∧
      ∀ a ∈ post, ¬ a.OfMd5

theorem readLine_eq_iff {w line : Text} (hw : w ≠ []) (hline : line ≠ w) (p : Poll) :
    readLine line p.event = w ↔ IsLine w p := by
  rcases hp : p.event with t | ⟨_ | _⟩ | _ <;> simp [readLine, IsLine, hp, hline, Ne.symm hw]

theorem commandLoop_append {line : Text} (usb : Bool) {pre : List Poll} (hline : line ≠ startLine)
    (hpre : ∀ p ∈ pre, ¬ IsLine startLine p) :
    lineAfter line pre ≠ startLine ∧ (commandLoop line usb pre).2 = none ∧
      ∃ usb', ∀ ps, commandLoop line usb (pre ++ ps) =
        ((commandLoop line usb pre).1 ++ (commandLoop (lineAfter line pre) usb' ps).1,
          (commandLoop (lineAfter line pre) usb' ps).2) := by
  induction pre generalizing line usb with
  | nil => exact ⟨hline, rfl, usb, fun ps => rfl⟩
  | cons p pre ih =>
    have hp : readLine line p.event ≠ startLine := fun h =>
      hpre p List.mem_cons_self ((readLine_eq_iff (by decide) hline p).mp h)
    obtain ⟨hl, hnone, usb', h⟩ := ih (usb || readLine line p.event = syscheckLine) hp
      fun q hq => hpre q (List.mem_cons_of_mem _ hq)
    refine ⟨hl, ?_, usb', fun ps => ?_⟩
    · simp only [commandLoop, if_neg hp, hnone]
    · simp only [List.cons_append, commandLoop, if_neg hp, h ps, List.append_assoc]
      rfl

theorem commandLoop_start {line : Text} (usb : Bool) {p : Poll}
    (hp : readLine line p.event = startLine) (post : List Poll) :
    commandLoop line usb (p :: post) = ([.log startLine], some post) := by
  have hs : startLine ≠ syscheckLine := by decide
  simp [commandLoop, hp, answer, hs]

theorem mem_answer {line : Text} {usb : Bool} {p : Poll} {a : Act} (h : a ∈ answer line usb p) :
    a = .log line ∨ (∃ m ∈ sysCheck p, a = .echo m) ∨ (usb = false ∧ a ∈ usbCheck p.md5) := by
  simp only [answer, List.mem_cons] at h
  rcases h with h | h
  · exact .inl h
  · split at h
    · rcases List.mem_append.mp h with h | h
      · obtain ⟨m, hm, rfl⟩ := List.mem_map.mp h
        exact .inr (.inl ⟨m, hm, rfl⟩)
      · cases usb
        · exact .inr (.inr ⟨rfl, h⟩)
        · cases h
    · cases h

def Act.Early : Act → Prop
  | .echo m => m ≠ .writeDone
  | .log _ | .md5sum | .report _ => True
  | _ => False

theorem sysCheck_cases (p : Poll) :
    sysCheck p = [.topSDMissing] ∨ ∃ size brand, sysCheck p = [size, brand] ∧
      (size = .topSDTooSmall ∨ size = .topSDGood) ∧
      (brand = .topSDVettedBrand ∨ brand = .topSDUnknownBrand) := by
  unfold sysCheck
  split
  · exact .inl rfl
  · refine .inr ⟨_, _, rfl, ?_, ?_⟩
    · split <;> simp
    · split <;> simp

theorem mem_sysCheck {p : Poll} {m : Msg} (h : m ∈ sysCheck p) :
    m ≠ .writeDone ∧ m ≠ .usbCheckStart ∧ m ≠ .usbCheckDone := by
  obtain hs | ⟨size, brand, hs, rfl | rfl, rfl | rfl⟩ := sysCheck_cases p <;>
    · rw [hs] at h
      simp only [List.mem_cons, List.not_mem_nil, or_false] at h
      grind

theorem early_answer {line : Text} {usb : Bool} {p : Poll} {a : Act} (h : a ∈ answer line usb p) :
    a.Early := by
  rcases mem_answer h with rfl | ⟨m, hm, rfl⟩ | ⟨-, h⟩
  · trivial
  · exact (mem_sysCheck hm).1
  · simp only [usbCheck, List.cons_append, List.nil_append, List.mem_cons, List.mem_append,
      List.mem_map, List.not_mem_nil, or_false] at h
    rcases h with rfl | rfl | ⟨l, -, rfl⟩ | rfl <;> simp [Act.Early]

theorem early_commandLoop (line : Text) (usb : Bool) (ps : List Poll) :
    ∀ a ∈ (commandLoop line usb ps).1, a.Early := by
  induction ps generalizing line usb with
  | nil => simp [commandLoop]
  | cons p ps ih =>
    intro a ha
    simp only [commandLoop] at ha
    split at ha
    · exact early_answer ha
    · rcases List.mem_append.mp ha with ha | ha
      · exact early_answer ha
      · exact ih _ _ a ha

theorem CheckedOnce.append {t u : List Act} (h : CheckedOnce t) (hu : ∀ a ∈ u, ¬ a.OfMd5) :
    CheckedOnce (t ++ u) := by
  rcases h with h | ⟨pre, report, post, rfl, hpre, hpost⟩
  · refine .inl fun a ha => ?_
    exact (List.mem_append.mp ha).elim (h a) (hu a)
  · refine .inr ⟨pre, report, post ++ u, by simp only [List.append_assoc], hpre, fun a ha => ?_⟩
    exact (List.mem_append.mp ha).elim (hpost a) (hu a)

theorem CheckedOnce.prepend {t u : List Act} (h : CheckedOnce t) (hu : ∀ a ∈ u, ¬ a.OfMd5) :
    CheckedOnce (u ++ t) := by
  rcases h with h | ⟨pre, report, post, rfl, hpre, hpost⟩
  · refine .inl fun a ha => ?_
    exact (List.mem_append.mp ha).elim (hu a) (h a)
  · refine .inr ⟨u ++ pre, report, post, by simp only [List.append_assoc], fun a ha => ?_, hpost⟩
    exact (List.mem_append.mp ha).elim (hu a) (hpre a)

/-- A turn of the loop checks the package only where it was not checked before. -/
theorem answer_md5 (line : Text) (usb : Bool) (p : Poll) :
    (∀ a ∈ answer line usb p, ¬ a.OfMd5) ∨
      (usb = false ∧ line = syscheckLine ∧ CheckedOnce (answer line usb p)) := by
  have hcard : ∀ a ∈ (sysCheck p).map Act.echo, ¬ a.OfMd5 := by
    intro a ha
    obtain ⟨m, hm, rfl⟩ := List.mem_map.mp ha
    obtain ⟨-, h₁, h₂⟩ := mem_sysCheck hm
    simp [Act.OfMd5, h₁, h₂]
  by_cases hl : line = syscheckLine
  · cases usb
    · refine .inr ⟨rfl, hl, .inr ⟨.log line :: (sysCheck p).map .echo, p.md5, [], ?_, ?_, ?_⟩⟩
      · simp [answer, hl]
      · simpa [Act.OfMd5] using hcard
      · simp
    · left
      simpa [answer, hl, Act.OfMd5] using hcard
  · left
    simp [answer, hl, Act.OfMd5]

theorem commandLoop_md5 (line : Text) (usb : Bool) (ps : List Poll) :
    (usb = true → ∀ a ∈ (commandLoop line usb ps).1, ¬ a.OfMd5) ∧
      CheckedOnce (commandLoop line usb ps).1 := by
  induction ps generalizing line usb with
  | nil => simp [commandLoop, CheckedOnce]
  | cons p ps ih =>
    simp only [commandLoop]
    set line' := readLine line p.event
    rcases answer_md5 line' usb p with ha | ⟨rfl, hl, ha⟩
    · obtain ⟨hquiet, honce⟩ := ih line' (usb || line' = syscheckLine)
      split
      · exact ⟨fun _ => ha, .inl ha⟩
      · refine ⟨fun hu a hm => ?_, honce.prepend ha⟩
        exact (List.mem_append.mp hm).elim (ha a) (hquiet (by simp [hu]) a)
    · -- this turn checks the package, so `USBCHECKED` is set in the later ones
      obtain ⟨hquiet, -⟩ := ih line' (false || line' = syscheckLine)
      refine ⟨fun h => (nomatch h), ?_⟩
      split
      · exact ha
      · exact ha.append (hquiet (by simp [hl]))

theorem monitor_acts (rs : List Text) : ∀ a ∈ (monitor rs).1, a = .killallDd := by
  induction rs with
  | nil => simp [monitor]
  | cons r rs ih =>
    simp only [monitor]
    split
    · simpa using ih
    · simp

theorem monitor_ends (rs : List Text) : (monitor rs).2 = true ↔ ∃ r ∈ rs, substitute r ≠ [] := by
  induction rs with
  | nil => simp [monitor]
  | cons r rs ih =>
    simp only [monitor, List.exists_mem_cons_iff]
    split
    · rename_i h
      simp [h, ih]
    · rename_i h
      simp [h]

theorem powerDownLoop_acts (line : Text) (ps : List Poll) :
    ∀ a ∈ (powerDownLoop line ps).1, ∃ l, a = .log l := by
  induction ps generalizing line with
  | nil => simp [powerDownLoop]
  | cons p ps ih =>
    simp only [powerDownLoop]
    split
    · simp
    · intro a ha
      rcases List.mem_cons.mp ha with rfl | ha
      · exact ⟨_, rfl⟩
      · exact ih _ a ha

theorem powerDownLoop_ends {line : Text} (ps : List Poll) (hline : line ≠ powerDownLine) :
    (powerDownLoop line ps).2 = true ↔ ∃ p ∈ ps, IsLine powerDownLine p := by
  induction ps generalizing line with
  | nil => simp [powerDownLoop, hline]
  | cons p ps ih =>
    simp only [powerDownLoop, if_neg hline, List.exists_mem_cons_iff]
    by_cases hp : IsLine powerDownLine p
    · have hl := (readLine_eq_iff (by decide) hline p).mpr hp
      cases ps <;> simp [powerDownLoop, hl, hp]
    · have hl : readLine line p.event ≠ powerDownLine := fun h =>
        hp ((readLine_eq_iff (by decide) hline p).mp h)
      simp [ih hl, hp]

def afterDd (env : Env) (rest : List Poll) : List Act :=
  (monitor env.killall).1 ++
    if (monitor env.killall).2 then
      .echo .writeDone :: ((powerDownLoop startLine rest).1 ++
        if (powerDownLoop startLine rest).2 then
          [.log "update_backend.sh completed!".toList, .shutdown]
        else [])
    else []

theorem write_eq (env : Env) (rest : List Poll) : write env rest =
    .umount (cardNames env.media) ::
      ((Pmic.updateFirmware Pmic.hexName env.hexFile env.pcUtil [.pcUtil 'q']).map .pmic ++
        .dd :: afterDd env rest) := by
  simp only [write, startWrite, afterDd, List.append_assoc, List.cons_append, List.nil_append]

theorem mem_afterDd {env : Env} {rest : List Poll} {a : Act} (h : a ∈ afterDd env rest) :
    a = .killallDd ∨ a = .echo .writeDone ∨ (∃ l, a = .log l) ∨ a = .shutdown := by
  rcases List.mem_append.mp h with h | h
  · exact .inl (monitor_acts _ a h)
  · split at h
    · rcases List.mem_cons.mp h with rfl | h
      · exact .inr (.inl rfl)
      · rcases List.mem_append.mp h with h | h
        · exact .inr (.inr (.inl (powerDownLoop_acts _ _ a h)))
        · split at h
          · simp only [List.mem_cons, List.not_mem_nil, or_false] at h
            rcases h with rfl | rfl <;> simp
          · cases h
    · cases h

theorem exists_first_start (polls : List Poll) :
    (∀ p ∈ polls, ¬ IsLine startLine p) ∨ ∃ pre p post, polls = pre ++ p :: post ∧
      (∀ q ∈ pre, ¬ IsLine startLine q) ∧ IsLine startLine p := by
  induction polls with
  | nil => simp
  | cons p ps ih =>
    by_cases hp : IsLine startLine p
    · exact .inr ⟨[], p, ps, rfl, by simp, hp⟩
    · rcases ih with h | ⟨pre, q, post, rfl, hpre, hq⟩
      · exact .inl (List.forall_mem_cons.mpr ⟨hp, h⟩)
      · exact .inr ⟨p :: pre, q, post, rfl, List.forall_mem_cons.mpr ⟨hp, hpre⟩, hq⟩

theorem nil_ne_startLine : ([] : Text) ≠ startLine := by decide

theorem trace_of_no_start (env : Env) {polls : List Poll} (h : ∀ p ∈ polls, ¬ IsLine startLine p) :
    trace env polls = announce env ++ (commandLoop [] false polls).1 := by
  obtain ⟨-, hnone, -⟩ := commandLoop_append false nil_ne_startLine h
  simp [trace, afterLoop, hnone]

theorem trace_of_start (env : Env) {pre : List Poll} {p : Poll} (post : List Poll)
    (hpre : ∀ q ∈ pre, ¬ IsLine startLine q) (hp : IsLine startLine p) :
    trace env (pre ++ p :: post) =
      announce env ++ (commandLoop [] false pre).1 ++ [.log startLine] ++ write env post := by
  obtain ⟨hl, -, usb', h⟩ := commandLoop_append false nil_ne_startLine hpre
  have hr := (readLine_eq_iff (by decide) hl p).mpr hp
  simp [trace, afterLoop, h, commandLoop_start usb' hr post]

theorem mem_announce {env : Env} {a : Act} (h : a ∈ announce env) :
    a = .echo .programRunFromTopSD := by
  unfold announce at h
  split at h
  · exact List.mem_singleton.mp h
  · cases h

theorem early_commands (env : Env) (polls : List Poll) :
    ∀ a ∈ announce env ++ (commandLoop [] false polls).1, a.Early := by
  intro a ha
  rcases List.mem_append.mp ha with ha | ha
  · rw [mem_announce ha]
    simp [Act.Early]
  · exact early_commandLoop _ _ _ a ha

theorem trace_write (env : Env) {pre : List Poll} {p : Poll} (post : List Poll)
    (hpre : ∀ q ∈ pre, ¬ IsLine startLine q) (hp : IsLine startLine p) :
    ∃ (cmds : List Act) (fw : List Pmic.Act), trace env (pre ++ p :: post) =
        (cmds ++ .umount (cardNames env.media) :: fw.map .pmic) ++ .dd :: afterDd env post ∧
      .log startLine ∈ cmds ∧ ∀ a ∈ cmds, a.Early := by
  refine ⟨announce env ++ (commandLoop [] false pre).1 ++ [.log startLine],
    Pmic.updateFirmware Pmic.hexName env.hexFile env.pcUtil [.pcUtil 'q'], ?_, by simp, ?_⟩
  · rw [trace_of_start env post hpre hp, write_eq]
    simp only [List.append_assoc, List.cons_append]
  · intro a ha
    rcases List.mem_append.mp ha with ha | ha
    · exact early_commands env pre a ha
    · rw [List.mem_singleton.mp ha]
      trivial

/-- Before the write the script does nothing that belongs behind it. -/
def Act.Before (a : Act) : Prop := a ≠ .dd ∧ a ≠ .echo .writeDone ∧ a ≠ .shutdown

theorem Act.Early.before {a : Act} (h : a.Early) : a.Before := by
  cases a <;> simp_all [Act.Early, Act.Before]

theorem before_dd {cmds : List Act} (h : ∀ a ∈ cmds, a.Early) (names : List Text)
    (fw : List Pmic.Act) : ∀ a ∈ cmds ++ .umount names :: fw.map .pmic, a.Before := by
  intro a ha
  rcases List.mem_append.mp ha with ha | ha
  · exact (h a ha).before
  · rcases List.mem_cons.mp ha with rfl | ha
    · simp [Act.Before]
    · obtain ⟨b, -, rfl⟩ := List.mem_map.mp ha
      simp [Act.Before]

theorem trace_no_write (env : Env) {polls : List Poll} (h : ∀ p ∈ polls, ¬ IsLine startLine p) :
    ∀ a ∈ trace env polls, a.Before := by
  rw [trace_of_no_start env h]
  exact fun a ha => (early_commands env polls a ha).before

theorem checkedOnce_trace (env : Env) (polls : List Poll) : CheckedOnce (trace env polls) := by
  have hann : ∀ a ∈ announce env, ¬ a.OfMd5 := by
    intro a ha
    simp [mem_announce ha, Act.OfMd5]
  rcases exists_first_start polls with h | ⟨pre, p, post, rfl, hpre, hp⟩
  · rw [trace_of_no_start env h]
    exact (commandLoop_md5 [] false polls).2.prepend hann
  · rw [trace_of_start env post hpre hp, write_eq]
    refine (((commandLoop_md5 [] false pre).2.prepend hann).append ?_).append fun a ha => ?_
    · simp [Act.OfMd5]
    · simp only [List.mem_cons, List.mem_append, List.mem_map] at ha
      rcases ha with rfl | ⟨b, -, rfl⟩ | rfl | ha
      · simp [Act.OfMd5]
      · simp [Act.OfMd5]
      · simp [Act.OfMd5]
      · rcases mem_afterDd ha with rfl | rfl | ⟨l, rfl⟩ | rfl <;> simp [Act.OfMd5]

theorem dd_notMem_afterDd (env : Env) (rest : List Poll) : .dd ∉ afterDd env rest := by
  intro h
  rcases mem_afterDd h with h | h | ⟨l, h⟩ | h <;> cases h

theorem writeDone_afterDd (env : Env) (rest : List Poll) :
    .echo .writeDone ∉ afterDd env rest ∨ ∃ polling after,
      afterDd env rest = polling ++ .echo .writeDone :: after ∧ .echo .writeDone ∉ polling ∧
        .echo .writeDone ∉ after := by
  have hm : .echo .writeDone ∉ (monitor env.killall).1 := fun h => nomatch monitor_acts _ _ h
  unfold afterDd
  split
  · refine .inr ⟨_, _, rfl, hm, fun h => ?_⟩
    rcases List.mem_append.mp h with h | h
    · obtain ⟨l, hl⟩ := powerDownLoop_acts _ _ _ h
      cases hl
    · split at h
      · simp at h
      · cases h
  · left
    simpa using hm

theorem shutdown_afterDd {env : Env} (hends : ∃ r ∈ env.killall, substitute r ≠ [])
    (rest : List Poll) : .shutdown ∈ afterDd env rest ↔ ∃ p ∈ rest, IsLine powerDownLine p := by
  have hm : .shutdown ∉ (monitor env.killall).1 := fun h => nomatch monitor_acts _ _ h
  have hl : .shutdown ∉ (powerDownLoop startLine rest).1 := fun h => by
    obtain ⟨l, hl⟩ := powerDownLoop_acts _ _ _ h
    cases hl
  rw [← powerDownLoop_ends rest (by decide : startLine ≠ powerDownLine), afterDd,
    if_pos ((monitor_ends _).mpr hends)]
  split
  · rename_i h
    simp [h]
  · rename_i h
    simp [h, hm, hl]

/-- An iteration of the command loop whose `LINE` is `Syscheck` gives one answer. -/
theorem syscheck_answer (env : Env) {pre : List Poll} {p : Poll} (post : List Poll)
    (hpre : ∀ q ∈ pre, ¬ IsLine startLine q) (hline : lineAfter [] (pre ++ [p]) = syscheckLine) :
    ∃ usb after, trace env (pre ++ [p]) = trace env pre ++ answer syscheckLine usb p ∧
      trace env (pre ++ p :: post) = trace env pre ++ answer syscheckLine usb p ++ after := by
  obtain ⟨hl, hnone, usb, h⟩ := commandLoop_append false nil_ne_startLine hpre
  have hr : readLine (lineAfter [] pre) p.event = syscheckLine := by
    simpa [lineAfter] using hline
  have hne : syscheckLine ≠ startLine := by decide
  refine ⟨usb, (commandLoop syscheckLine true post).1 ++
    afterLoop env (commandLoop syscheckLine true post).2, ?_, ?_⟩
  · simp [trace, afterLoop, h, hnone, commandLoop, hr, hne]
  · simp [trace, afterLoop, h, hnone, commandLoop, hr, hne]

theorem cardMsgs_append (t u : List Act) : cardMsgs (t ++ u) = cardMsgs t ++ cardMsgs u :=
  List.filterMap_append

theorem cardMsgs_usbCheck (report : List Text) : cardMsgs (usbCheck report) = [] := by
  have h : cardMsgs (report.map .report) = [] := by simp [cardMsgs]
  simp only [usbCheck, cardMsgs_append, h]
  rfl

theorem cardMsgs_answer (usb : Bool) (p : Poll) :
    cardMsgs (answer syscheckLine usb p) = sysCheck p := by
  have hsys : cardMsgs ((sysCheck p).map .echo) = sysCheck p := by
    obtain hs | ⟨size, brand, hs, rfl | rfl, rfl | rfl⟩ := sysCheck_cases p <;> rw [hs] <;> rfl
  have hlog : ∀ t, cardMsgs (.log syscheckLine :: t) = cardMsgs t := fun t => rfl
  rw [answer, if_pos rfl, hlog, cardMsgs_append, hsys]
  cases usb
  · simp [cardMsgs_usbCheck]
  · simp [cardMsgs]

structure Protocol (env : Env) (polls : List Poll) : Prop where
  write_once : (∃ p ∈ polls, IsLine startLine p) → OnceAfter .dd (.log startLine) (trace env polls)
  no_write : (¬ ∃ p ∈ polls, IsLine startLine p) → .dd ∉ trace env polls
  checked_once : CheckedOnce (trace env polls)
  one_answer : ∀ pre p post, polls = pre ++ p :: post → (∀ q ∈ pre, ¬ IsLine startLine q) →
    lineAfter [] (pre ++ [p]) = syscheckLine →
    ∃ acts after, trace env (pre ++ [p]) = trace env pre ++ acts ∧
      trace env polls = trace env pre ++ acts ++ after ∧
      (cardMsgs acts = [.topSDMissing] ∨ ∃ size brand, cardMsgs acts = [size, brand] ∧
        (size = .topSDTooSmall ∨ size = .topSDGood) ∧
        (brand = .topSDVettedBrand ∨ brand = .topSDUnknownBrand))
  done_once : .echo .writeDone ∉ trace env polls ∨
    OnceAfter (.echo .writeDone) .dd (trace env polls)
  shutdown_iff : .shutdown ∈ trace env polls ↔ ∃ pre p mid q post,
    polls = pre ++ p :: (mid ++ q :: post) ∧ (∀ r ∈ pre, ¬ IsLine startLine r) ∧
      IsLine startLine p ∧ IsLine powerDownLine q

theorem first_start_unique {pre pre' : List Poll} {p p' : Poll} {post post' : List Poll}
    (h : pre ++ p :: post = pre' ++ p' :: post') (hpre : ∀ q ∈ pre, ¬ IsLine startLine q)
    (hpre' : ∀ q ∈ pre', ¬ IsLine startLine q) (hp : IsLine startLine p)
    (hp' : IsLine startLine p') : post = post' := by
  induction pre generalizing pre' with
  | nil =>
    cases pre' with
    | nil => simpa using (List.cons.inj h).2
    | cons q pre' =>
      obtain ⟨rfl, -⟩ := List.cons.inj h
      exact absurd hp (hpre' _ List.mem_cons_self)
  | cons q pre ih =>
    cases pre' with
    | nil =>
      obtain ⟨rfl, -⟩ := List.cons.inj h
      exact absurd hp' (hpre _ List.mem_cons_self)
    | cons q' pre' =>
      exact ih (List.cons.inj h).2 (fun r hr => hpre r (List.mem_cons_of_mem _ hr))
        fun r hr => hpre' r (List.mem_cons_of_mem _ hr)

/-- The script keeps to the protocol, whatever it reads, as soon as the write ends. -/
theorem protocol_of_write_ends (env : Env) (polls : List Poll)
    (hends : ∃ r ∈ env.killall, substitute r ≠ []) : Protocol env polls := by
  have hanswer : ∀ pre p post, polls = pre ++ p :: post → (∀ q ∈ pre, ¬ IsLine startLine q) →
      lineAfter [] (pre ++ [p]) = syscheckLine →
      ∃ acts after, trace env (pre ++ [p]) = trace env pre ++ acts ∧
        trace env polls = trace env pre ++ acts ++ after ∧
        (cardMsgs acts = [.topSDMissing] ∨ ∃ size brand, cardMsgs acts = [size, brand] ∧
          (size = .topSDTooSmall ∨ size = .topSDGood) ∧
          (brand = .topSDVettedBrand ∨ brand = .topSDUnknownBrand)) := by
    rintro pre p post rfl hpre hline
    obtain ⟨usb, after, h₁, h₂⟩ := syscheck_answer env post hpre hline
    exact ⟨_, after, h₁, h₂, by simpa only [cardMsgs_answer] using sysCheck_cases p⟩
  rcases exists_first_start polls with hno | ⟨pre, p, post, hpolls, hpre, hp⟩
  · -- the script never leaves its command loop
    have hbefore := trace_no_write env hno
    refine ⟨fun ⟨p, hm, hp⟩ => absurd hp (hno p hm), fun _ h => (hbefore _ h).1 rfl,
      checkedOnce_trace env polls, hanswer, .inl fun h => (hbefore _ h).2.1 rfl, ?_⟩
    refine iff_of_false (fun h => (hbefore _ h).2.2 rfl) ?_
    rintro ⟨pre, p, mid, q, post, rfl, -, hp, -⟩
    exact hno p (by simp) hp
  · -- the trace is cut at its only `dd`
    obtain ⟨cmds, fw, htrace, hlog, hearly⟩ := trace_write env post hpre hp
    have hbefore := before_dd hearly (cardNames env.media) fw
    rw [← hpolls] at htrace
    set before := cmds ++ .umount (cardNames env.media) :: fw.map .pmic
    have honce : OnceAfter .dd (.log startLine) (trace env polls) :=
      ⟨before, _, htrace, fun h => (hbefore _ h).1 rfl, dd_notMem_afterDd env post,
        List.mem_append_left _ hlog⟩
    refine ⟨fun _ => honce, fun h => absurd ⟨p, by simp [hpolls], hp⟩ h,
      checkedOnce_trace env polls, hanswer, ?_, ?_⟩
    · have hb : .echo .writeDone ∉ before := fun h => (hbefore _ h).2.1 rfl
      rw [htrace]
      rcases writeDone_afterDd env post with h | ⟨polling, after, heq, h₁, h₂⟩
      · left
        simp [hb, h]
      · refine .inr ⟨before ++ .dd :: polling, after, by simp [heq], ?_, h₂, by simp⟩
        simp [hb, h₁]
    · have hb : .shutdown ∉ before := fun h => (hbefore _ h).2.2 rfl
      have hmem : .shutdown ∈ trace env polls ↔ ∃ q ∈ post, IsLine powerDownLine q := by
        rw [htrace, ← shutdown_afterDd hends post]
        simp [hb]
      rw [hmem]
      constructor
      · rintro ⟨q, hq, hdown⟩
        obtain ⟨mid, rest, rfl⟩ := List.append_of_mem hq
        exact ⟨pre, p, mid, q, rest, hpolls, hpre, hp, hdown⟩
      · rintro ⟨pre', p', mid, q, rest, h, hpre', hp', hdown⟩
        have hpost := first_start_unique (hpolls.symm.trans h) hpre hpre' hp hp'
        exact ⟨q, by simp [hpost], hdown⟩

def usbStick : Env where
  pwd := "/media/sda1".toList
  media := ["sda1".toList, "mmcblk1p1".toList]
  media_nodup := by decide
  hexFile := false
  pcUtil := []
  killall := [[], "killall: dd: no process killed\n".toList]

/-- A user who turns the camera off while the image is being written. -/
def session : List Poll :=
  ["Syscheck", "Start", "PowerDown"].map fun l =>
    ⟨.line (l.toList ++ ['\n']), "mmcblk0\nmmcblk1\n".toList, "3872256\n".toList,
      "0x5344\n".toList, noMatches, ["camUpdate/debian.img.gz: OK".toList]⟩

theorem protocol_session : Protocol usbStick session :=
  protocol_of_write_ends usbStick session ⟨_, List.mem_cons_of_mem _ List.mem_cons_self, by decide⟩

example : trace usbStick session =
    [.log "Syscheck".toList, .echo .topSDGood, .echo .topSDVettedBrand, .echo .usbCheckStart,
      .md5sum, .report "camUpdate/debian.img.gz: OK".toList, .echo .usbCheckDone,
      .log "Start".toList, .umount ["/media/mmcblk1p1".toList], .dd, .killallDd, .killallDd,
      .echo .writeDone, .log "PowerDown".toList, .log "update_backend.sh completed!".toList,
      .shutdown] := by
  decide

end ChronosUpdates.UpdateBackend
