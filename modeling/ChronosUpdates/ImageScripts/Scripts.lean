import ChronosUpdates.LoopDevices
import ChronosUpdates.Runs
import Mathlib.Logic.Function.Basic

namespace ChronosUpdates.ImageScripts
open LoopDevices Runs

variable {ρ ι : Type*}

/-- The mount points `/media/chronos-mkimage-bootpart` and `/media/chronos-mkimage-rootfs`, which
all runs of `chronos-mkimage.sh` share. -/
inductive Label
  | bootpart
  | rootfs
deriving DecidableEq, Repr

/-- A command about the loop devices of a file, which the script has in a variable, or about the
mount points that they are to be at. -/
inductive Cmd (ι : Type*)
  | attach (i : ι)
  | attachShow (i : ι)
  | find (i : ι)
  | format (i : ι)
  | mkfs (i : ι) (cleanup : Bool)
  | print (i : ι)
  | pmount (l : Label) (i : ι)
  | bootstrap (i : ι)
  | pumount (l : Label) (i : ι)
  | detach (i : ι)
deriving DecidableEq

def Cmd.image : Cmd ι → ι
  | .attach i | .attachShow i | .find i | .format i | .mkfs i _ | .print i | .pmount _ i
  | .bootstrap i | .pumount _ i | .detach i => i

inductive Script (ι : Type*)
  | mksdImage (image : ι)
  | mksdLoopdev (root : Bool) (image : ι)
  | mkimage (bootpart rootfs : ι) (apart : bootpart ≠ rootfs)

def Script.images : Script ι → List ι
  | .mksdImage i | .mksdLoopdev _ i => [i]
  | .mkimage b r _ => [b, r]

/-- What the scripts do with their devices. For an ordinary user the `losetup -d` behind the second
`mkfs` of `mksd-loopdev.sh` is called `sudolosetup`. -/
def Script.commands : Script ι → List (Cmd ι)
  | .mksdImage i => [.attach i, .find i, .format i, .detach i]
  | .mksdLoopdev root i => [.attachShow i, .mkfs i true, .mkfs i root, .print i]
  | .mkimage b r _ =>
    [.attachShow b, .attachShow r, .pmount .bootpart b, .pmount .rootfs r, .bootstrap r,
      .pumount .bootpart b, .pumount .rootfs r, .detach b, .detach r]

/-- `chronos-mkimage.sh` is the script that uses the mount points. -/
def Script.Pmounts : Script ι → Prop
  | .mkimage _ _ _ => True
  | _ => False

/-- A script on its way: the commands that are left, the devices in the variable of each file, what
it has printed, whether a `losetup -d` was not found behind a `mkfs` that failed, and the loop
devices from before. -/
structure Run (ι : Type*) where
  script : Script ι
  rest : List (Cmd ι)
  devices : ι → List ℕ
  printed : Option (List ℕ)
  unclean : Bool
  before : Table ι

abbrev Mounts := Label → Option ℕ

structure Host (ρ ι : Type*) where
  loops : Table ι
  mounts : Mounts
  runs : ρ → Option (Run ι)

/-- A script is started, does its next command or fails to, or ends, at its end or before. -/
inductive Event (ρ ι : Type*)
  | start (r : ρ) (script : Script ι)
  | next (r : ρ) (ok : Bool)
  | leave (r : ρ)

def begun (script : Script ι) (t : Table ι) : Run ι :=
  ⟨script, script.commands, fun _ => [], none, false, t⟩

/-- What a command does to the mount points: `pmount` refuses one that is in use, and `pumount`
takes away whatever is there. -/
def remount (m : Mounts) (x : Run ι) (ok : Bool) : Cmd ι → Mounts
  | .pmount l i =>
    match m l, x.devices i with
    | none, n :: _ => if ok then Function.update m l (some n) else m
    | _, _ => m
  | .pumount l _ => if ok then Function.update m l none else m
  | _ => m

section
variable [DecidableEq ι]

def execute (t : Table ι) (x : Run ι) (ok : Bool) (cs : List (Cmd ι)) : Cmd ι → Table ι × Run ι
  | .attach i => (if ok then attach i t else t, { x with rest := cs })
  | .attachShow i =>
    (if ok then attach i t else t,
      { x with
        rest := cs
        devices := Function.update x.devices i (if ok then [firstFree t] else []) })
  | .find i =>
    (t, { x with
      rest := cs
      devices := Function.update x.devices i (if ok then find i t else []) })
  | .mkfs i cleanup =>
    (t, if ok then { x with rest := cs }
      else { x with rest := if cleanup then [.detach i] else [], unclean := !cleanup })
  | .print i => (t, { x with rest := cs, printed := some (x.devices i) })
  | .format _ | .pmount _ _ | .bootstrap _ | .pumount _ _ => (t, { x with rest := cs })
  | .detach i =>
    match x.devices i with
    | [] => (t, { x with rest := cs })
    | n :: ns =>
      (if ok then detach n t else t, { x with devices := Function.update x.devices i ns })

variable [DecidableEq ρ]

def next (s : Host ρ ι) : Event ρ ι → Option (Host ρ ι)
  | .start r script =>
    if (s.runs r).isNone then
      some { s with runs := Function.update s.runs r (some (begun script s.loops)) }
    else none
  | .next r ok =>
    match s.runs r with
    | some x =>
      match x.rest with
      | c :: cs =>
        let y := execute s.loops x ok cs c
        some ⟨y.1, remount s.mounts x ok c, Function.update s.runs r (some y.2)⟩
      | [] => none
    | none => none
  | .leave r => some { s with runs := Function.update s.runs r none }

end

def idle (t : Table ι) (m : Mounts) : Host ρ ι := ⟨t, m, fun _ => none⟩

def Exclusive (s : Host ρ ι) : Event ρ ι → Prop
  | .start _ script => ∀ r x, s.runs r = some x → ∀ i ∈ script.images, i ∉ x.script.images
  | _ => True

def Script.Has (script : Script ι) (c : Cmd ι) : Prop :=
  c ∈ script.commands ∨ ∃ i ∈ script.images, c = .detach i

theorem Script.Has.image {script : Script ι} {c : Cmd ι} (h : script.Has c) :
    c.image ∈ script.images := by
  rcases h with h | ⟨i, hi, rfl⟩
  · cases script <;> revert c <;> simp [Script.commands, Script.images, Cmd.image]
  · exact hi

/-- Only `chronos-mkimage.sh` changes the mount points. -/
theorem Script.Has.remount {script : Script ι} {c : Cmd ι} (h : script.Has c)
    (hm : ¬ script.Pmounts) (m : Mounts) (x : Run ι) (ok : Bool) : remount m x ok c = m := by
  rcases h with h | ⟨i, -, rfl⟩
  · cases script with
    | mkimage b r hbr => exact absurd trivial hm
    | mksdImage i | mksdLoopdev root i =>
      simp only [Script.commands, List.mem_cons, List.not_mem_nil, or_false] at h
      rcases h with rfl | rfl | rfl | rfl <;> rfl
  · rfl

structure Sound (t : Table ι) (x : Run ι) : Prop where
  held : ∀ i, ∀ n ∈ x.devices i, n ∈ held t i
  nodup : ∀ i, (x.devices i).Nodup
  own : ∀ i, x.devices i ≠ [] → i ∈ x.script.images
  rest : ∀ c ∈ x.rest, x.script.Has c

theorem sound_begun (script : Script ι) (t : Table ι) : Sound t (begun script t) where
  held := fun _ _ hn => (nomatch hn)
  nodup := fun _ => List.nodup_nil
  own := fun _ h => absurd rfl h
  rest := fun _ hc => .inl hc

theorem Sound.frame {t t' : Table ι} {x : Run ι} (h : Sound t x)
    (ht : ∀ i ∈ x.script.images, LoopDevices.held t' i = LoopDevices.held t i) : Sound t' x where
  held := by
    intro i n hn
    rw [ht i (h.own i (List.ne_nil_of_mem hn))]
    exact h.held i n hn
  nodup := h.nodup
  own := h.own
  rest := h.rest

section
variable [DecidableEq ι] {t : Table ι} {x : Run ι} {ok : Bool} {c : Cmd ι} {cs : List (Cmd ι)}

theorem execute_script : (execute t x ok cs c).2.script = x.script ∧
    (execute t x ok cs c).2.before = x.before := by
  cases c with
  | detach i =>
    rw [execute]
    cases x.devices i <;> exact ⟨rfl, rfl⟩
  | mkfs i cleanup => cases ok <;> exact ⟨rfl, rfl⟩
  | _ => exact ⟨rfl, rfl⟩

theorem devices_execute_of_ne {j : ι} (hj : j ≠ c.image) :
    (execute t x ok cs c).2.devices j = x.devices j := by
  cases c with
  | mkfs i cleanup => cases ok <;> rfl
  | attachShow i | find i => exact Function.update_of_ne hj ..
  | detach i =>
    simp only [execute]
    cases x.devices i with
    | nil => rfl
    | cons n ns => exact Function.update_of_ne hj ..
  | _ => rfl

/-- A command leaves the devices of the other files alone. -/
theorem held_execute_of_ne (h : Sound t x) {j : ι} (hj : j ≠ c.image) :
    LoopDevices.held (execute t x ok cs c).1 j = LoopDevices.held t j := by
  cases c with
  | attach i | attachShow i =>
    cases ok with
    | true => exact held_attach_of_ne hj t
    | false => rfl
  | detach i =>
    simp only [execute]
    cases hi : x.devices i with
    | nil => rfl
    | cons n ns =>
      cases ok with
      | true => exact held_detach_of_ne (h.held i n (hi ▸ List.mem_cons_self)) hj
      | false => rfl
  | _ => rfl

theorem Sound.assign (h : Sound t x) {t' : Table ι} {i : ι} {ns : List ℕ}
    (ht : ∀ j ≠ i, LoopDevices.held t' j = LoopDevices.held t j) (hi : i ∈ x.script.images)
    (hns : ns.Nodup) (hheld : ∀ n ∈ ns, n ∈ LoopDevices.held t' i) {cs : List (Cmd ι)}
    (hcs : ∀ c ∈ cs, x.script.Has c) :
    Sound t' { x with rest := cs, devices := Function.update x.devices i ns } where
  held := by
    intro j n (hn : n ∈ Function.update x.devices i ns j)
    by_cases hj : j = i
    · subst hj
      rw [Function.update_self] at hn
      exact hheld n hn
    · rw [Function.update_of_ne hj] at hn
      rw [ht j hj]
      exact h.held j n hn
  nodup := by
    intro j
    show (Function.update x.devices i ns j).Nodup
    by_cases hj : j = i
    · subst hj
      rw [Function.update_self]
      exact hns
    · rw [Function.update_of_ne hj]
      exact h.nodup j
  own := by
    intro j (hne : Function.update x.devices i ns j ≠ [])
    by_cases hj : j = i
    · exact hj ▸ hi
    · rw [Function.update_of_ne hj] at hne
      exact h.own j hne
  rest := hcs

theorem sound_execute (h : Sound t x) (hrest : x.rest = c :: cs) :
    Sound (execute t x ok cs c).1 (execute t x ok cs c).2 := by
  have hc : c.image ∈ x.script.images := (h.rest c (hrest ▸ List.mem_cons_self)).image
  have hcs : ∀ d ∈ cs, x.script.Has d :=
    fun d hd => h.rest d (hrest ▸ List.mem_cons_of_mem c hd)
  have hothers : ∀ j ≠ c.image,
      LoopDevices.held (execute t x ok cs c).1 j = LoopDevices.held t j :=
    fun j hj => held_execute_of_ne h hj
  cases c with
  | attach i =>
    refine ⟨fun j n hn => ?_, h.nodup, h.own, hcs⟩
    have hheld := h.held j n hn
    cases ok with
    | false => exact hheld
    | true =>
      -- the script does not know the new device, but what it knew is still attached
      show n ∈ LoopDevices.held (attach i t) j
      by_cases hj : j = i
      · rw [hj, held_attach_self]
        exact .inr (hj ▸ hheld)
      · rw [held_attach_of_ne hj]
        exact hheld
  | attachShow i =>
    refine h.assign hothers hc ?_ ?_ hcs
    · cases ok <;> simp
    · cases ok with
      | false => simp
      | true =>
        intro n hn
        rw [List.mem_singleton.mp hn]
        exact (held_attach_self i t).symm ▸ Set.mem_insert _ _
  | find i =>
    refine h.assign hothers hc ?_ ?_ hcs
    · cases ok with
      | false => exact List.nodup_nil
      | true => exact nodup_find i t
    · cases ok with
      | false => exact fun _ hn => (nomatch hn)
      | true => exact fun n hn => mem_find.mp hn
  | print i | format i | pmount l i | bootstrap i | pumount l i =>
    exact ⟨h.held, h.nodup, h.own, hcs⟩
  | mkfs i cleanup =>
    simp only [execute]
    split
    · exact ⟨h.held, h.nodup, h.own, hcs⟩
    refine ⟨h.held, h.nodup, h.own, fun d (hd : d ∈ if cleanup then _ else _) => ?_⟩
    split at hd
    · exact .inr ⟨i, hc, List.mem_singleton.mp hd⟩
    · cases hd
  | detach i =>
    simp only [execute] at hothers ⊢
    cases hi : x.devices i with
    | nil => exact ⟨h.held, h.nodup, h.own, hcs⟩
    | cons n ns =>
      -- the device leaves the variable together with the table
      rw [hi] at hothers
      have hnodup : (n :: ns).Nodup := hi ▸ h.nodup i
      obtain ⟨hn, hns⟩ := List.nodup_cons.mp hnodup
      have hheld : ∀ m ∈ ns, m ∈ LoopDevices.held t i :=
        fun m hm => h.held i m (hi ▸ List.mem_cons_of_mem n hm)
      refine h.assign hothers hc hns (fun m hm => ?_) h.rest
      cases ok with
      | false => exact hheld m hm
      | true =>
        show m ∈ LoopDevices.held (detach n t) i
        rw [held_detach]
        exact ⟨hheld m hm, fun e => hn (e ▸ hm)⟩

end

theorem update_eq_some {α : Type*} [DecidableEq ρ] {f : ρ → Option α} {q r : ρ} {y : Option α}
    {x : α} : Function.update f r y q = some x ↔ q = r ∧ y = some x ∨ q ≠ r ∧ f q = some x := by
  by_cases h : q = r
  · simp [h]
  · simp [h]

def Apart (s : Host ρ ι) : Prop :=
  ∀ r r' x x', s.runs r = some x → s.runs r' = some x' → r ≠ r' →
    ∀ i ∈ x.script.images, i ∉ x'.script.images

structure Safe (s : Host ρ ι) : Prop where
  apart : Apart s
  sound : ∀ r x, s.runs r = some x → Sound s.loops x

theorem safe_idle (t : Table ι) (m : Mounts) : Safe (idle t m : Host ρ ι) where
  apart := fun _ _ _ _ hx => (nomatch hx)
  sound := fun _ _ hx => (nomatch hx)

section
variable [DecidableEq ι] [DecidableEq ρ] {s s' : Host ρ ι} {e : Event ρ ι}

theorem next_cases (h : next s e = some s') :
    (∃ r script, e = .start r script ∧
        s' = { s with runs := Function.update s.runs r (some (begun script s.loops)) }) ∨
      (∃ r ok x c cs, e = .next r ok ∧ s.runs r = some x ∧ x.rest = c :: cs ∧
        s' = ⟨(execute s.loops x ok cs c).1, remount s.mounts x ok c,
          Function.update s.runs r (some (execute s.loops x ok cs c).2)⟩) ∨
        ∃ r, e = .leave r ∧ s' = { s with runs := Function.update s.runs r none } := by
  cases e with
  | start r script =>
    obtain ⟨-, hs⟩ := Option.ite_none_right_eq_some.mp h
    exact .inl ⟨r, script, rfl, (Option.some.inj hs).symm⟩
  | next r ok =>
    simp only [next] at h
    split at h
    · rename_i x hx
      split at h
      · rename_i c cs hrest
        exact .inr (.inl ⟨r, ok, x, c, cs, rfl, hx, hrest, (Option.some.inj h).symm⟩)
      · cases h
    · cases h
  | leave r => exact .inr (.inr ⟨r, rfl, (Option.some.inj h).symm⟩)

theorem script_of_update {r q : ρ} {x y : Run ι} {ok : Bool} {c : Cmd ι} {cs : List (Cmd ι)}
    (hy : s.runs r = some y)
    (hx : Function.update s.runs r (some (execute s.loops y ok cs c).2) q = some x) :
    ∃ z, s.runs q = some z ∧ z.script = x.script := by
  rcases update_eq_some.mp hx with ⟨rfl, ⟨⟩⟩ | ⟨-, hx⟩
  · exact ⟨y, hy, execute_script.1.symm⟩
  · exact ⟨x, hx, rfl⟩

theorem apart_next (hs : Apart s) (he : Exclusive s e) (h : next s e = some s') : Apart s' := by
  intro q q' x x' hx hx' hne i hi hi'
  rcases next_cases h with ⟨r, script, rfl, rfl⟩ | ⟨r, ok, y, c, cs, rfl, hy, -, rfl⟩ |
    ⟨r, rfl, rfl⟩
  · rcases update_eq_some.mp hx with ⟨rfl, ⟨⟩⟩ | ⟨-, hq⟩
    · exact he q' x' ((update_eq_some.mp hx').resolve_left fun h => hne h.1.symm).2 i hi hi'
    · rcases update_eq_some.mp hx' with ⟨rfl, ⟨⟩⟩ | ⟨-, hq'⟩
      · exact he q x hq i hi' hi
      · exact hs q q' x x' hq hq' hne i hi hi'
  · obtain ⟨z, hz, hzx⟩ := script_of_update hy hx
    obtain ⟨z', hz', hzx'⟩ := script_of_update hy hx'
    exact hs q q' z z' hz hz' hne i (hzx ▸ hi) (hzx' ▸ hi')
  · rcases update_eq_some.mp hx with ⟨-, ⟨⟩⟩ | ⟨-, hx⟩
    rcases update_eq_some.mp hx' with ⟨-, ⟨⟩⟩ | ⟨-, hx'⟩
    exact hs q q' x x' hx hx' hne i hi hi'

/-- What a run keeps by itself, and the others leave alone, all runs keep. -/
theorem runs_next {P : Table ι → Run ι → Prop} {q : Cmd ι → Bool → Prop}
    (hbegun : ∀ script t, P t (begun script t))
    (hframe : ∀ t t' x, P t x →
      (∀ i ∈ x.script.images, LoopDevices.held t' i = LoopDevices.held t i) → P t' x)
    (hexecute : ∀ t x ok c cs, Sound t x → P t x → x.rest = c :: cs → q c ok →
      P (execute t x ok cs c).1 (execute t x ok cs c).2)
    (hapart : Apart s) (hsound : ∀ r x, s.runs r = some x → Sound s.loops x)
    (hs : ∀ r x, s.runs r = some x → P s.loops x)
    (hq : ∀ r ok x c cs, e = .next r ok → s.runs r = some x → x.rest = c :: cs → q c ok)
    (h : next s e = some s') : ∀ r x, s'.runs r = some x → P s'.loops x := by
  intro p x hx
  rcases next_cases h with ⟨r, script, rfl, rfl⟩ | ⟨r, ok, y, c, cs, rfl, hy, hrest, rfl⟩ |
    ⟨r, rfl, rfl⟩
  · rcases update_eq_some.mp hx with ⟨rfl, ⟨⟩⟩ | ⟨-, hx⟩
    · exact hbegun script s.loops
    · exact hs p x hx
  · rcases update_eq_some.mp hx with ⟨rfl, ⟨⟩⟩ | ⟨hp, hx⟩
    · exact hexecute s.loops y ok c cs (hsound p y hy) (hs p y hy) hrest
        (hq p ok y c cs rfl hy hrest)
    · -- the command is about a file of another run
      refine hframe s.loops _ x (hs p x hx) fun i hi => held_execute_of_ne (hsound r y hy) ?_
      rintro rfl
      exact hapart p r x y hx hy hp _ hi
        ((hsound r y hy).rest c (hrest ▸ List.mem_cons_self)).image
  · rcases update_eq_some.mp hx with ⟨-, ⟨⟩⟩ | ⟨-, hx⟩
    exact hs p x hx

theorem safe_next (hs : Safe s) (he : Exclusive s e) (h : next s e = some s') : Safe s' where
  apart := apart_next hs.apart he h
  sound := by
    have hexecute : ∀ (t : Table ι) x ok c cs, Sound t x → Sound t x → x.rest = c :: cs → True →
        Sound (execute t x ok cs c).1 (execute t x ok cs c).2 :=
      fun _ _ _ _ _ hx _ hrest _ => sound_execute hx hrest
    exact @runs_next _ _ _ _ s s' e Sound (fun _ _ => True) sound_begun
      (fun _ _ _ hx => hx.frame) hexecute hs.apart hs.sound hs.sound
      (fun _ _ _ _ _ _ _ _ => trivial) h

end

end ChronosUpdates.ImageScripts
