import ChronosUpdates.Chroot.Scripts

namespace ChronosUpdates.Chroot
open Runs

variable {γ : Type*}

/-- The run has executed its `mv usr/bin/ischroot usr/bin/ischroot.debianutils`. -/
def Proc.Entered (p : Proc) : Prop := .moveAside ∉ p.todo

/-- The run has done so, and its own `mv` back is still to come. -/
def Proc.Holding (p : Proc) : Prop := p.Entered ∧ (p.exiting = true → .moveBack ∈ p.todo)

/-- A run moves `ischroot` aside only while no other run is between its own `mv` and its
end, and never moves anything but the genuine program: a stopped run has left no
substitute behind. -/
def Safe (g : γ) (s : System γ) : Act → Prop
  | .exec i _ => ∀ p, s.procs i = some p → p.todo.head? = some .moveAside →
      (∀ j q, j ≠ i → s.procs j = some q → ¬ q.Entered) ∧
      (∀ c, s.root.ischroot = some c → c = g)
  | _ => True

/-- The commands that touch `ischroot` in the body of a script: `substitute` and `trap`
come behind `moveAside`, and the trap is still to be installed when `ischroot` changes. -/
def setupOrder : List Cmd → Bool
  | [] => true
  | c :: rest => c != .rmIschroot && c != .moveBack &&
      (c != .moveAside && c != .substitute || !rest.contains .moveAside && rest.contains .trap) &&
      ((c :: rest).contains .trap || !(c :: rest).contains .moveAside) &&
      (c != .trap || !rest.contains .trap)

def atexitOrder : List Cmd → Bool
  | [] => true
  | c :: rest => c != .moveAside && c != .substitute && c != .trap && !rest.contains .moveAside &&
      (c != .rmIschroot || rest.contains .moveBack) &&
      (c != .moveBack || !rest.contains .moveBack)

theorem setup_ordered (sc : Script) {t : List Cmd} (h : t <:+ setup sc) : setupOrder t = true := by
  have hall : ∀ t ∈ (setup sc).tails, setupOrder t = true := by
    rcases sc with ⟨_ | _, _ | _⟩ | _ <;> decide
  exact hall t ((List.mem_tails t _).mpr h)

theorem atexit_ordered (sc : Script) {t : List Cmd} (h : t <:+ atexit sc) :
    atexitOrder t = true := by
  have hall : ∀ t ∈ (atexit sc).tails, atexitOrder t = true := by
    rcases sc with ⟨_ | _, _ | _⟩ | _ <;> decide
  exact hall t ((List.mem_tails t _).mpr h)

theorem mem_atexit (sc : Script) : .moveBack ∈ atexit sc ∧ .moveAside ∉ atexit sc := by
  rcases sc with ⟨_ | _, _ | _⟩ | _ <;> decide

structure Proc.Ok (p : Proc) : Prop where
  todo_ne : p.todo ≠ []
  body : p.exiting = false → p.todo <:+ setup p.script ∧ (p.trapped = true ↔ .trap ∉ p.todo)
  clean : p.exiting = true → p.todo <:+ atexit p.script ∧ p.trapped = false

theorem Proc.ok_begin (sc : Script) : (Proc.begin sc).Ok := by
  refine ⟨?_, fun _ => ⟨List.suffix_refl _, ?_⟩, fun h => nomatch h⟩
  · rcases sc with ⟨_ | _, _ | _⟩ | _ <;> decide
  · rcases sc with ⟨_ | _, _ | _⟩ | _ <;> decide

theorem Proc.not_entered_begin (sc : Script) : ¬ (Proc.begin sc).Entered := by
  unfold Proc.Entered Proc.begin
  rcases sc with ⟨_ | _, _ | _⟩ | _ <;> decide

section
variable {p : Proc} {c : Cmd} {rest : List Cmd}

theorem Proc.Ok.body_order (hp : p.Ok) (he : p.exiting = false) (ht : p.todo = c :: rest) :
    c ≠ .rmIschroot ∧ c ≠ .moveBack ∧
      (c = .moveAside ∨ c = .substitute → .moveAside ∉ rest ∧ .trap ∈ rest) ∧
      (.trap ∈ p.todo ∨ .moveAside ∉ p.todo) ∧ (c = .trap → .trap ∉ rest) := by
  have h := setup_ordered p.script (ht ▸ (hp.body he).1)
  rw [ht]
  simp only [setupOrder, Bool.and_eq_true, Bool.or_eq_true, bne_iff_ne, Bool.not_eq_true',
    List.contains_eq_mem, decide_eq_true_eq, decide_eq_false_iff_not] at h
  tauto

theorem Proc.Ok.exit_order (hp : p.Ok) (he : p.exiting = true) (ht : p.todo = c :: rest) :
    c ≠ .moveAside ∧ c ≠ .substitute ∧ c ≠ .trap ∧ .moveAside ∉ rest ∧
      (c = .rmIschroot → .moveBack ∈ rest) ∧ (c = .moveBack → .moveBack ∉ rest) := by
  have h := atexit_ordered p.script (ht ▸ (hp.clean he).1)
  simp only [atexitOrder, Bool.and_eq_true, Bool.or_eq_true, bne_iff_ne, Bool.not_eq_true',
    List.contains_eq_mem, decide_eq_true_eq, decide_eq_false_iff_not] at h
  tauto

theorem Proc.Ok.exists_todo (hp : p.Ok) : ∃ c rest, p.todo = c :: rest :=
  List.exists_cons_of_ne_nil hp.todo_ne

theorem Proc.Ok.entered_of_exiting (hp : p.Ok) (he : p.exiting = true) : p.Entered := by
  obtain ⟨c, rest, ht⟩ := hp.exists_todo
  obtain ⟨hc, -, -, hrest, -⟩ := hp.exit_order he ht
  rw [Proc.Entered, ht]
  simp [Ne.symm hc, hrest]

/-- The trap is installed only after `ischroot` was moved. -/
theorem Proc.Ok.holding_of_trapped (hp : p.Ok) (ht : p.trapped = true) : p.Holding := by
  have he : p.exiting = false := by
    by_contra he
    rw [(hp.clean (by simpa using he)).2] at ht
    cases ht
  obtain ⟨c, rest, htodo⟩ := hp.exists_todo
  have htrap := ((hp.body he).2).mp ht
  obtain ⟨-, -, -, h, -⟩ := hp.body_order he htodo
  exact ⟨h.resolve_left htrap, fun h => nomatch he.symm.trans h⟩

/-- A stopped run goes on in its `atexit` or is gone. -/
theorem Proc.leave_spec {q : Proc} (h : p.leave = some q) :
    p.trapped = true ∧ q.Ok ∧ q.Holding := by
  unfold Proc.leave at h
  split at h
  · rename_i ht
    cases h
    obtain ⟨hback, haside⟩ := mem_atexit p.script
    exact ⟨ht, ⟨List.ne_nil_of_mem hback, fun h => (nomatch h), fun _ => ⟨List.suffix_refl _, rfl⟩⟩,
      haside, fun _ => hback⟩
  · cases h

/-- A run executes the rest of its commands, or the last one of its body and goes on in
`atexit`, or the last one of `atexit` and is finished. -/
theorem Proc.Ok.advance_cases (hp : p.Ok) (ht : p.todo = c :: rest) :
    (∃ q, p.advance c rest = some q ∧ q.Ok ∧ q.exiting = p.exiting ∧ q.todo = rest) ∨
      (∃ q, p.advance c rest = some q ∧ q.Ok ∧ q.Holding ∧ p.exiting = false ∧ rest = []) ∨
      (p.advance c rest = none ∧ p.exiting = true ∧ rest = []) := by
  have hsuffix : rest <:+ p.todo := ht ▸ List.suffix_cons c rest
  by_cases hr : rest = []
  · right
    simp only [Proc.advance, hr, if_true]
    cases he : p.exiting
    · left
      -- the trap is one of the commands of the body, so it is installed at its end
      have htr : (p.trapped || c == .trap) = true := by
        by_cases hc : c = .trap
        · simp [hc]
        · have hn : .trap ∉ p.todo := by simp [ht, hr, Ne.symm hc]
          simp [((hp.body he).2).mpr hn]
      have hl :
          ∃ q, Proc.leave { p with todo := [], trapped := p.trapped || c == .trap } = some q := by
        simp [Proc.leave, htr]
      obtain ⟨q, hq⟩ := hl
      obtain ⟨-, hok, hh⟩ := Proc.leave_spec hq
      exact ⟨q, hq, hok, hh, rfl, trivial⟩
    · right
      obtain ⟨-, -, hc, -⟩ := hp.exit_order he ht
      simp [Proc.leave, (hp.clean he).2, hc]
  · left
    refine ⟨{ p with todo := rest, trapped := p.trapped || c == .trap }, if_neg hr,
      ⟨hr, fun he => ?_, fun he => ?_⟩, rfl, rfl⟩
    · obtain ⟨hb, htrap⟩ := hp.body he
      refine ⟨hsuffix.trans hb, ?_⟩
      obtain ⟨-, -, -, -, hc⟩ := hp.body_order he ht
      by_cases hct : c = .trap
      · simp [hct, hc hct]
      · simp [hct, htrap, ht, Ne.symm hct]
    · obtain ⟨hb, htrap⟩ := hp.clean he
      obtain ⟨-, -, hc, -⟩ := hp.exit_order he ht
      exact ⟨hsuffix.trans hb, by simp [htrap, hc]⟩

end

structure Inv (g : γ) (s : System γ) : Prop where
  procs_ok : ∀ i p, s.procs i = some p → p.Ok
  alone : ∀ i j p q, s.procs i = some p → s.procs j = some q → p.Entered → q.Entered → i = j
  kept : s.root.ischroot = some g ∨ s.root.debianutils = some g
  held : ∀ i p, s.procs i = some p → p.Holding → s.root.debianutils = some g
  back : ∀ i p, s.procs i = some p → p.Entered → ¬ p.Holding → s.root.ischroot = some g

theorem inv_idle (g : γ) (r : Sysroot γ) (h : r.ischroot = some g) : Inv g (idle r) :=
  ⟨fun _ _ h => (nomatch h), fun _ _ _ _ h => (nomatch h), .inl h, fun _ _ h => (nomatch h),
    fun _ _ h => (nomatch h)⟩

theorem Inv.update {g : γ} {s : System γ} (hs : Inv g s) (i : ℕ) (o : Option Proc) (r : Sysroot γ)
    (hok : ∀ q, o = some q → q.Ok) (hkept : r.ischroot = some g ∨ r.debianutils = some g)
    (hheld : ∀ q, o = some q → q.Holding → r.debianutils = some g)
    (hback : ∀ q, o = some q → q.Entered → ¬ q.Holding → r.ischroot = some g)
    (hothers : (∀ j q, j ≠ i → s.procs j = some q → ¬ q.Entered) ∨
      (r.ischroot = s.root.ischroot ∧ r.debianutils = s.root.debianutils ∧
        ∀ q, o = some q → ¬ q.Entered)) :
    Inv g ⟨r, Function.update s.procs i o⟩ := by
  have hself : Function.update s.procs i o i = o := Function.update_self ..
  have hne : ∀ j, j ≠ i → Function.update s.procs i o j = s.procs j :=
    fun j hj => Function.update_of_ne hj ..
  constructor
  · intro j p hp
    by_cases hj : j = i
    · subst hj
      exact hok p (hself ▸ hp)
    · exact hs.procs_ok j p (hne j hj ▸ hp)
  · intro j k p q hp hq hpe hqe
    by_cases hj : j = i
    · by_cases hk : k = i
      · exact hj.trans hk.symm
      · subst hj
        rcases hothers with h | ⟨-, -, h⟩
        · exact absurd hqe (h k q hk (hne k hk ▸ hq))
        · exact absurd hpe (h p (hself ▸ hp))
    · by_cases hk : k = i
      · subst hk
        rcases hothers with h | ⟨-, -, h⟩
        · exact absurd hpe (h j p hj (hne j hj ▸ hp))
        · exact absurd hqe (h q (hself ▸ hq))
      · exact hs.alone j k p q (hne j hj ▸ hp) (hne k hk ▸ hq) hpe hqe
  · exact hkept
  · intro j p hp hh
    by_cases hj : j = i
    · subst hj
      exact hheld p (hself ▸ hp) hh
    · rcases hothers with h | ⟨-, h, -⟩
      · exact absurd hh.1 (h j p hj (hne j hj ▸ hp))
      · exact h.trans (hs.held j p (hne j hj ▸ hp) hh)
  · intro j p hp he hh
    by_cases hj : j = i
    · subst hj
      exact hback p (hself ▸ hp) he hh
    · rcases hothers with h | ⟨h, -, -⟩
      · exact absurd he (h j p hj (hne j hj ▸ hp))
      · exact h.trans (hs.back j p (hne j hj ▸ hp) he hh)

theorem exec_other (ok : Bool) (r : Sysroot γ) {c : Cmd} (h₁ : c ≠ .moveAside)
    (h₂ : c ≠ .substitute)
    (h₃ : c ≠ .rmIschroot) (h₄ : c ≠ .moveBack) :
    (exec ok r c).ischroot = r.ischroot ∧ (exec ok r c).debianutils = r.debianutils := by
  cases c with
  | bind p => cases ok <;> exact ⟨rfl, rfl⟩
  | moveAside | substitute | rmIschroot | moveBack => contradiction
  | _ => exact ⟨rfl, rfl⟩

theorem Inv.not_entered {g : γ} {s : System γ} (hs : Inv g s) {i : ℕ} {p : Proc}
    (hp : s.procs i = some p) (he : p.Entered) (j : ℕ) (q : Proc) (hj : j ≠ i)
    (hq : s.procs j = some q) : ¬ q.Entered :=
  fun hqe => hj (hs.alone j i q p hq hp hqe he)

theorem Inv.hold {g : γ} {s : System γ} (hs : Inv g s) (i : ℕ) (o : Option Proc) (r : Sysroot γ)
    (hok : ∀ q, o = some q → q.Ok ∧ q.Holding) (hr : r.debianutils = some g)
    (hothers : ∀ j q, j ≠ i → s.procs j = some q → ¬ q.Entered) :
    Inv g ⟨r, Function.update s.procs i o⟩ :=
  hs.update i o r (fun q hq => (hok q hq).1) (.inr hr) (fun _ _ _ => hr)
    (fun q hq _ hh => absurd (hok q hq).2 hh) (.inl hothers)

section
variable {g : γ} {s : System γ} (hs : Inv g s) {i : ℕ} {p : Proc} {c : Cmd} {rest : List Cmd}
  (hp : s.procs i = some p) (ht : p.todo = c :: rest) (ok : Bool)

include hs hp ht

theorem Inv.exec_body (hc : c = .moveAside ∨ c = .substitute)
    (hothers : ∀ j q, j ≠ i → s.procs j = some q → ¬ q.Entered)
    (hr : (exec ok s.root c).debianutils = some g) :
    Inv g ⟨exec ok s.root c, Function.update s.procs i (p.advance c rest)⟩ := by
  have hpok := hs.procs_ok i p hp
  have he : p.exiting = false := by
    by_contra he
    obtain ⟨h₁, h₂, -⟩ := hpok.exit_order (by simpa using he) ht
    exact hc.elim h₁ h₂
  obtain ⟨-, -, hmv, -⟩ := hpok.body_order he ht
  obtain ⟨haside, htrap⟩ := hmv hc
  refine hs.hold i _ _ (fun q hq => ?_) hr hothers
  obtain ⟨q', hq', hok, he', ht'⟩ | ⟨-, -, -, -, -, h⟩ | ⟨-, -, h⟩ := hpok.advance_cases ht
  · cases hq'.symm.trans hq
    exact ⟨hok, by rwa [Proc.Entered, ht'], fun h => nomatch (he'.trans he).symm.trans h⟩
  · simp [h] at htrap
  · simp [h] at htrap

theorem Inv.exec_atexit (hc : c = .rmIschroot ∨ c = .moveBack) :
    Inv g ⟨exec ok s.root c, Function.update s.procs i (p.advance c rest)⟩ := by
  have hpok := hs.procs_ok i p hp
  have he : p.exiting = true := by
    by_contra he
    obtain ⟨h₁, h₂, -⟩ := hpok.body_order (by simpa using he) ht
    exact hc.elim h₁ h₂
  have hent := hpok.entered_of_exiting he
  have hothers := hs.not_entered hp hent
  obtain ⟨-, -, -, haside, hrm, hmv⟩ := hpok.exit_order he ht
  have hhold : p.Holding := by
    refine ⟨hent, fun _ => ?_⟩
    rcases hc with rfl | rfl
    · exact ht ▸ List.mem_cons_of_mem _ (hrm rfl)
    · exact ht ▸ List.mem_cons_self
  have hd := hs.held i p hp hhold
  have hadv : ∀ q, p.advance c rest = some q → q.Ok ∧ q.exiting = true ∧ q.todo = rest := by
    intro q hq
    obtain ⟨q', hq', hok, he', ht'⟩ | ⟨-, -, -, -, h, -⟩ | ⟨h, -, -⟩ := hpok.advance_cases ht
    · cases hq'.symm.trans hq
      exact ⟨hok, he'.trans he, ht'⟩
    · cases he.symm.trans h
    · cases h.symm.trans hq
  rcases hc with rfl | rfl
  · -- between `rm` and `mv` the program is under its other name only
    refine hs.hold i _ _ (fun q hq => ?_) hd hothers
    obtain ⟨hok, -, ht'⟩ := hadv q hq
    exact ⟨hok, by rwa [Proc.Entered, ht'], fun _ => ht' ▸ hrm rfl⟩
  · have hr : (exec ok s.root .moveBack).ischroot = some g := by simp [exec, hd]
    refine hs.update i _ _ (fun q hq => (hadv q hq).1) (.inl hr) (fun q hq hh => ?_)
      (fun _ _ _ _ => hr) (.inl hothers)
    obtain ⟨-, he', ht'⟩ := hadv q hq
    exact absurd (ht' ▸ hh.2 he') (hmv rfl)

theorem Inv.exec_other (h₁ : c ≠ .moveAside) (h₂ : c ≠ .substitute) (h₃ : c ≠ .rmIschroot)
    (h₄ : c ≠ .moveBack) :
    Inv g ⟨exec ok s.root c, Function.update s.procs i (p.advance c rest)⟩ := by
  have hpok := hs.procs_ok i p hp
  obtain ⟨hi, hd⟩ := Chroot.exec_other ok s.root h₁ h₂ h₃ h₄
  -- the run is where it was: it holds the program afterwards only if it did before
  have hadv : ∀ q, p.advance c rest = some q →
      q.Ok ∧ (q.Entered → p.Entered) ∧ (p.Entered → (q.Holding ↔ p.Holding)) := by
    intro q hq
    obtain ⟨q', hq', hok, he', ht'⟩ | ⟨q', hq', hok, hh, he, hr⟩ | ⟨h, -, -⟩ :=
      hpok.advance_cases ht
    · cases hq'.symm.trans hq
      refine ⟨hok, fun h => ?_, fun h => ?_⟩
      · simpa [Proc.Entered, ht, ht', Ne.symm h₁] using h
      · simp only [Proc.Entered, ht, List.mem_cons, not_or] at h
        simp [Proc.Holding, Proc.Entered, ht, ht', he', Ne.symm h₁, Ne.symm h₄, h.2]
    · cases hq'.symm.trans hq
      have hpe : p.Entered := by simp [Proc.Entered, ht, hr, Ne.symm h₁]
      exact ⟨hok, fun _ => hpe, fun _ => iff_of_true hh ⟨hpe, fun h => nomatch he.symm.trans h⟩⟩
    · cases h.symm.trans hq
  refine hs.update i _ _ (fun q hq => (hadv q hq).1) (by rw [hi, hd]; exact hs.kept)
    (fun q hq hh => ?_) (fun q hq he hh => ?_) ?_
  · have hpe := (hadv q hq).2.1 hh.1
    exact hd.trans (hs.held i p hp (((hadv q hq).2.2 hpe).mp hh))
  · have hpe := (hadv q hq).2.1 he
    exact hi.trans (hs.back i p hp hpe fun h => hh (((hadv q hq).2.2 hpe).mpr h))
  · by_cases hpe : p.Entered
    · exact .inl (hs.not_entered hp hpe)
    · exact .inr ⟨hi, hd, fun q hq he => hpe ((hadv q hq).2.1 he)⟩

theorem Inv.exec_last (h : p.advance c rest = none) : (exec ok s.root c).ischroot = some g := by
  have hpok := hs.procs_ok i p hp
  obtain ⟨q, hq, -⟩ | ⟨q, hq, -⟩ | ⟨-, he, hr⟩ := hpok.advance_cases ht
  · cases h.symm.trans hq
  · cases h.symm.trans hq
  · have hent := hpok.entered_of_exiting he
    obtain ⟨h₁, h₂, -, -, hrm, -⟩ := hpok.exit_order he ht
    have h₃ : c ≠ .rmIschroot := fun h => by simpa [hr] using hrm h
    by_cases h₄ : c = .moveBack
    · subst h₄
      have hd := hs.held i p hp ⟨hent, fun _ => ht ▸ List.mem_cons_self⟩
      simp [exec, hd]
    · rw [(Chroot.exec_other ok s.root h₁ h₂ h₃ h₄).1]
      refine hs.back i p hp hent fun hh => ?_
      simpa [ht, hr, Ne.symm h₄] using hh.2 he

end

theorem inv_step {g : γ} {s t : System γ} {a : Act} (hs : Inv g s) (ha : Safe g s a)
    (h : step s a = some t) : Inv g t := by
  obtain ⟨i, sc, rfl, -, rfl⟩ | ⟨i, ok, p, c, rest, rfl, hp, ht, rfl⟩ | ⟨i, p, rfl, hp, rfl⟩ :=
    step_cases h
  · have hnew : ∀ q, some (Proc.begin sc) = some q → q.Ok ∧ ¬ q.Entered := by
      rintro _ ⟨⟩
      exact ⟨Proc.ok_begin sc, Proc.not_entered_begin sc⟩
    exact hs.update i _ _ (fun q hq => (hnew q hq).1) hs.kept
      (fun q hq hh => absurd hh.1 (hnew q hq).2) (fun q hq he => absurd he (hnew q hq).2)
      (.inr ⟨rfl, rfl, fun q hq => (hnew q hq).2⟩)
  · by_cases h₁ : c = .moveAside
    · subst h₁
      obtain ⟨hothers, hgen⟩ := ha p hp (by rw [ht]; rfl)
      refine hs.exec_body hp ht ok (.inl rfl) hothers ?_
      cases hi : s.root.ischroot with
      | none => simpa [exec, hi] using hs.kept
      | some c => simp [exec, hi, hgen c hi]
    by_cases h₂ : c = .substitute
    · subst h₂
      have hpok := hs.procs_ok i p hp
      have he : p.exiting = false := by
        by_contra he
        exact (hpok.exit_order (by simpa using he) ht).2.1 rfl
      obtain ⟨-, -, hmv, -⟩ := hpok.body_order he ht
      have hent : p.Entered := by simp [Proc.Entered, ht, (hmv (.inr rfl)).1]
      have hd := hs.held i p hp ⟨hent, fun h => nomatch he.symm.trans h⟩
      refine hs.exec_body hp ht ok (.inr rfl) (hs.not_entered hp hent) ?_
      cases htr : s.root.trueProgram <;> simp [exec, htr, hd]
    by_cases h₃ : c = .rmIschroot
    · exact hs.exec_atexit hp ht ok (.inl h₃)
    by_cases h₄ : c = .moveBack
    · exact hs.exec_atexit hp ht ok (.inr h₄)
    exact hs.exec_other hp ht ok h₁ h₂ h₃ h₄
  · -- a stopped run either holds the program and will put it back, or is gone
    have hleave : ∀ q, p.leave = some q → p.trapped = true ∧ q.Ok ∧ q.Holding :=
      fun q hq => Proc.leave_spec hq
    refine hs.update i _ _ (fun q hq => (hleave q hq).2.1) hs.kept (fun q hq _ => ?_)
      (fun q hq _ hh => absurd (hleave q hq).2.2 hh) ?_
    · exact hs.held i p hp ((hs.procs_ok i p hp).holding_of_trapped (hleave q hq).1)
    · cases hl : p.leave with
      | none => exact .inr ⟨rfl, rfl, fun q hq => nomatch hq⟩
      | some q =>
        exact .inl (hs.not_entered hp ((hs.procs_ok i p hp).holding_of_trapped (hleave q hl).1).1)

/-- `g` is under one of its two names, and back at `usr/bin/ischroot` when a step
finishes a run while no other is active. -/
structure Keeps (g : γ) (s : System γ) : Prop where
  kept : s.root.ischroot = some g ∨ s.root.debianutils = some g
  restored : ∀ i ok t, step s (.exec i ok) = some t → t.procs i = none →
    (∀ j, j ≠ i → s.procs j = none) → t.root.ischroot = some g

theorem Inv.keeps {g : γ} {s : System γ} (hs : Inv g s) : Keeps g s := by
  refine ⟨hs.kept, fun i ok t h hend _ => ?_⟩
  obtain ⟨_, _, ⟨⟩, -, -⟩ | ⟨_, _, p, c, rest, ⟨⟩, hp, ht, rfl⟩ | ⟨_, _, ⟨⟩, -, -⟩ := step_cases h
  exact hs.exec_last hp ht ok (by simpa using hend)

/-- Runs of the two scripts, in any interleaving and stopped anywhere, never lose the
genuine `ischroot` as long as each of them moves it aside alone, and never moves a
substitute that a stopped run left behind. -/
theorem keeps_of_safe_run (g : γ) (r : Sysroot γ) (hr : r.ischroot = some g) {acts : List Act}
    {s : System γ} (hok : StepsMeet step (Safe g) (idle r) acts)
    (h : run step (idle r) acts = some s) : Keeps g s :=
  (run_invariant step (fun _ _ _ => inv_step) (inv_idle g r hr) hok h).keeps

def sysroot : Sysroot String :=
  ⟨some "ischroot", none, some "true", false, false, []⟩

def stoppedRun : List Act :=
  .start 0 .chronosChroot :: List.replicate 5 (.exec 0 true) ++ [.stop 0] ++
    List.replicate 3 (.exec 0 true)

theorem keeps_stoppedRun : ∃ s, run step (idle sysroot) stoppedRun = some s ∧
    s.root.ischroot = some "ischroot" ∧ Keeps "ischroot" s := by
  have hsafe : StepsMeet step (Safe "ischroot") (idle sysroot) stoppedRun := by
    refine ⟨trivial, fun p _ _ => ⟨fun j q hj hq => ?_, fun c hc => ?_⟩, ?_⟩
    · simp [idle, Function.update, hj] at hq
    · exact (Option.some.inj hc).symm
    -- no later command is a `moveAside`
    · repeat' apply And.intro
      all_goals first | trivial | (rintro p ⟨⟩ ⟨⟩)
  exact ⟨_, rfl, rfl, keeps_of_safe_run "ischroot" sysroot rfl hsafe rfl⟩

/-- The hook is stopped before it installs its trap, and `chronos-chroot.sh` moves the
substitute that it left over the genuine program. -/
def cutRun : List Act :=
  .start 0 (.completion false false) :: List.replicate 7 (.exec 0 true) ++
    [.stop 0, .start 1 .chronosChroot, .exec 1 true]

theorem not_keeps_cutRun : ∃ s, run step (idle sysroot) cutRun = some s ∧ ¬ Keeps "ischroot" s := by
  refine ⟨_, rfl, fun h => ?_⟩
  rcases h.kept with h | h
  · cases h
  · revert h
    decide

end ChronosUpdates.Chroot
