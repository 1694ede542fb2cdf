import ChronosUpdates.ImageScripts.Scripts

namespace ChronosUpdates.ImageScripts
open LoopDevices Runs

variable {ρ ι : Type*}

/-- What a command works on: the devices in its variable, or whatever is at the two mount points.
`none` stands for the files and mount points of the host: without a device `mksd-format.sh` unmounts
them all, and the bootstrap fills the directories. -/
def targets (m : Mounts) (x : Run ι) : Cmd ι → List (Option ℕ)
  | .format i | .mkfs i _ | .pmount _ i =>
    if x.devices i = [] then [none] else (x.devices i).map some
  | .detach i => (x.devices i).map some
  | .bootstrap _ => [m .bootpart, m .rootfs]
  | .pumount l _ => [m l]
  | _ => []

/-- What a script has in a variable, and what its next command works on, are devices of its own
files, and no other script has them. -/
structure OwnDevices (s : Host ρ ι) : Prop where
  own : ∀ r x, s.runs r = some x → ∀ i, ∀ n ∈ x.devices i,
    i ∈ x.script.images ∧ behind s.loops n = some i
  works : ∀ r x c cs, s.runs r = some x → x.rest = c :: cs → ∀ d ∈ targets s.mounts x c,
    ∃ n, d = some n ∧ ∃ i ∈ x.script.images, behind s.loops n = some i
  alone : ∀ r r' x x', s.runs r = some x → s.runs r' = some x' → r ≠ r' →
    ∀ i j, ∀ n ∈ x.devices i, n ∉ x'.devices j

/-- `losetup`, up to the use of its device, and `pmount` do not fail. -/
def Succeeds : Cmd ι → Bool → Prop
  | .attach _, ok | .attachShow _, ok | .find _, ok | .pmount _ _, ok => ok = true
  | _, _ => True

/-- Runs of `chronos-mkimage.sh` come one after the other, each with free mount points, and no
script loses its devices to a failure. -/
def Orderly (s : Host ρ ι) : Event ρ ι → Prop
  | .start _ script => script.Pmounts →
    (∀ l, s.mounts l = none) ∧ ∀ r x, s.runs r = some x → ¬ x.script.Pmounts
  | .next r ok => ∀ x c cs, s.runs r = some x → x.rest = c :: cs → Succeeds c ok
  | .leave _ => True

/-- By the commands that are left of `mksd-image.sh`. -/
inductive ImageReady (t : Table ι) (x : Run ι) (i : ι) : Prop
  | attaches (rest : x.rest = [.attach i, .find i, .format i, .detach i])
  | finds (rest : x.rest = [.find i, .format i, .detach i]) (some : (held t i).Nonempty)
  | formats (rest : x.rest = [.format i, .detach i]) (named : x.devices i ≠ [])
  | ends (rest : ∀ c ∈ x.rest, c = .detach i)

inductive LoopdevReady (x : Run ι) (root : Bool) (i : ι) : Prop
  | attaches (rest : x.rest = [.attachShow i, .mkfs i true, .mkfs i root, .print i])
  | boot (rest : x.rest = [.mkfs i true, .mkfs i root, .print i]) (named : x.devices i ≠ [])
  | rootfs (rest : x.rest = [.mkfs i root, .print i]) (named : x.devices i ≠ [])
  | ends (rest : ∀ c ∈ x.rest, c = .print i ∨ c = .detach i)

def At (m : Mounts) (x : Run ι) (l : Label) (i : ι) : Prop := ∃ n ∈ x.devices i, m l = some n

inductive MkimageReady (m : Mounts) (x : Run ι) (b r : ι) : Prop
  | attachesBoot
      (rest : x.rest = [.attachShow b, .attachShow r, .pmount .bootpart b, .pmount .rootfs r,
        .bootstrap r, .pumount .bootpart b, .pumount .rootfs r, .detach b, .detach r])
      (free : ∀ l, m l = none)
  | attachesRootfs
      (rest : x.rest = [.attachShow r, .pmount .bootpart b, .pmount .rootfs r, .bootstrap r,
        .pumount .bootpart b, .pumount .rootfs r, .detach b, .detach r])
      (named : x.devices b ≠ []) (free : ∀ l, m l = none)
  | mountsBoot
      (rest : x.rest = [.pmount .bootpart b, .pmount .rootfs r, .bootstrap r, .pumount .bootpart b,
        .pumount .rootfs r, .detach b, .detach r])
      (named : x.devices b ≠ []) (named' : x.devices r ≠ []) (free : ∀ l, m l = none)
  | mountsRootfs
      (rest : x.rest = [.pmount .rootfs r, .bootstrap r, .pumount .bootpart b, .pumount .rootfs r,
        .detach b, .detach r])
      (boot : At m x .bootpart b) (named : x.devices r ≠ []) (free : m .rootfs = none)
  | bootstraps
      (rest : x.rest = [.bootstrap r, .pumount .bootpart b, .pumount .rootfs r, .detach b,
        .detach r])
      (boot : At m x .bootpart b) (rootfs : At m x .rootfs r)
  | unmountsBoot (rest : x.rest = [.pumount .bootpart b, .pumount .rootfs r, .detach b, .detach r])
      (boot : At m x .bootpart b) (rootfs : At m x .rootfs r)
  | unmountsRootfs (rest : x.rest = [.pumount .rootfs r, .detach b, .detach r])
      (rootfs : At m x .rootfs r)
  | ends (rest : ∀ c ∈ x.rest, c = .detach b ∨ c = .detach r)

def Ready (t : Table ι) (m : Mounts) (x : Run ι) : Prop :=
  match x.script with
  | .mksdImage i => ImageReady t x i
  | .mksdLoopdev root i => LoopdevReady x root i
  | .mkimage b r _ => MkimageReady m x b r

theorem ready_begun (script : Script ι) (t : Table ι) {m : Mounts}
    (hfree : script.Pmounts → ∀ l, m l = none) : Ready t m (begun script t) := by
  cases script with
  | mksdImage i => exact .attaches rfl
  | mksdLoopdev root i => exact .attaches rfl
  | mkimage b r _ => exact .attachesBoot rfl (hfree trivial)

theorem Ready.frame {t t' : Table ι} {m m' : Mounts} {x : Run ι} (h : Ready t m x)
    (ht : ∀ i ∈ x.script.images, held t' i = held t i) (hm : x.script.Pmounts → m' = m) :
    Ready t' m' x := by
  unfold Ready at h ⊢
  cases hscript : x.script with
  | mksdImage i =>
    simp only [hscript, Script.images, List.mem_singleton, forall_eq] at h ht ⊢
    cases h with
    | attaches h => exact .attaches h
    | finds h hsome => exact .finds h (ht.symm ▸ hsome)
    | formats h hnamed => exact .formats h hnamed
    | ends h => exact .ends h
  | mksdLoopdev root i =>
    simp only [hscript] at h ⊢
    exact h
  | mkimage b r _ =>
    simp only [hscript] at h ⊢
    rw [hm (hscript ▸ trivial)]
    exact h

theorem mem_map_some {ns : List ℕ} {d : Option ℕ} (hd : d ∈ ns.map some) :
    ∃ n ∈ ns, d = some n := by
  obtain ⟨n, hn, rfl⟩ := List.mem_map.mp hd
  exact ⟨n, hn, rfl⟩

/-- What is in a variable, or at a mount point for it, is what the next command works on. -/
theorem Ready.targets {t : Table ι} {m : Mounts} {x : Run ι} {c : Cmd ι} {cs : List (Cmd ι)}
    (h : Ready t m x) (hrest : x.rest = c :: cs) {d : Option ℕ} (hd : d ∈ targets m x c) :
    ∃ i, ∃ n ∈ x.devices i, d = some n := by
  have hdetach : ∀ i, d ∈ ImageScripts.targets m x (.detach i) →
      ∃ i, ∃ n ∈ x.devices i, d = some n := fun i hd => ⟨i, mem_map_some hd⟩
  have hnamed : ∀ i, x.devices i ≠ [] →
      d ∈ (if x.devices i = [] then [none] else (x.devices i).map some) →
        ∃ i, ∃ n ∈ x.devices i, d = some n := by
    intro i hne hd
    rw [if_neg hne] at hd
    exact ⟨i, mem_map_some hd⟩
  have hat : ∀ l i, At m x l i → d = m l → ∃ i, ∃ n ∈ x.devices i, d = some n := by
    rintro l i ⟨n, hn, hl⟩ rfl
    exact ⟨i, n, hn, hl⟩
  unfold Ready at h
  cases hscript : x.script with
  | mksdImage i =>
    simp only [hscript] at h
    cases h with
    | attaches h | finds h _ =>
      rw [h] at hrest
      cases hrest
      cases hd
    | formats h hne =>
      rw [h] at hrest
      cases hrest
      exact hnamed i hne hd
    | ends h =>
      rw [h c (hrest ▸ List.mem_cons_self)] at hd
      exact hdetach i hd
  | mksdLoopdev root i =>
    simp only [hscript] at h
    cases h with
    | attaches h =>
      rw [h] at hrest
      cases hrest
      cases hd
    | boot h hne | rootfs h hne =>
      rw [h] at hrest
      cases hrest
      exact hnamed i hne hd
    | ends h =>
      rcases h c (hrest ▸ List.mem_cons_self) with rfl | rfl
      · cases hd
      · exact hdetach i hd
  | mkimage b r _ =>
    simp only [hscript] at h
    cases h with
    | attachesBoot h _ | attachesRootfs h _ _ =>
      rw [h] at hrest
      cases hrest
      cases hd
    | mountsBoot h hne _ _ =>
      rw [h] at hrest
      cases hrest
      exact hnamed b hne hd
    | mountsRootfs h _ hne _ =>
      rw [h] at hrest
      cases hrest
      exact hnamed r hne hd
    | bootstraps h hboot hrootfs =>
      rw [h] at hrest
      cases hrest
      rcases List.mem_pair.mp hd with hd | hd
      · exact hat .bootpart b hboot hd
      · exact hat .rootfs r hrootfs hd
    | unmountsBoot h hboot _ =>
      rw [h] at hrest
      cases hrest
      exact hat .bootpart b hboot (List.mem_singleton.mp hd)
    | unmountsRootfs h hrootfs =>
      rw [h] at hrest
      cases hrest
      exact hat .rootfs r hrootfs (List.mem_singleton.mp hd)
    | ends h =>
      rcases h c (hrest ▸ List.mem_cons_self) with rfl | rfl
      · exact hdetach b hd
      · exact hdetach r hd

/-- `pmount` puts the device of the variable at a free mount point. -/
theorem remount_pmount {m : Mounts} {x : Run ι} {l : Label} {i : ι} (hfree : m l = none)
    (hnamed : x.devices i ≠ []) :
    ∃ n ∈ x.devices i, remount m x true (.pmount l i) = Function.update m l (some n) := by
  obtain ⟨n, ns, hns⟩ := List.exists_cons_of_ne_nil hnamed
  refine ⟨n, hns ▸ List.mem_cons_self, ?_⟩
  simp [remount, hfree, hns]

section
variable [DecidableEq ι] {t : Table ι} {m : Mounts} {x : Run ι} {ok : Bool} {c : Cmd ι}
  {cs : List (Cmd ι)}

theorem rest_execute_detach {i : ι} (hrest : x.rest = .detach i :: cs) :
    (execute t x ok cs (.detach i)).2.rest ⊆ x.rest := by
  simp only [execute]
  cases x.devices i with
  | nil =>
    rw [hrest]
    exact List.subset_cons_self _ cs
  | cons n ns => exact List.Subset.refl _

theorem imageReady_execute {i : ι} (h : ImageReady t x i) (hrest : x.rest = c :: cs)
    (hok : Succeeds c ok) : ImageReady (execute t x ok cs c).1 (execute t x ok cs c).2 i := by
  cases h with
  | attaches h =>
    rw [h] at hrest
    cases hrest
    obtain rfl : ok = true := hok
    refine .finds rfl ⟨firstFree t, ?_⟩
    show firstFree t ∈ held (attach i t) i
    rw [held_attach_self]
    exact Set.mem_insert _ _
  | finds h hsome =>
    rw [h] at hrest
    cases hrest
    obtain rfl : ok = true := hok
    obtain ⟨n, hn⟩ := hsome
    refine .formats rfl ?_
    show Function.update x.devices i (find i t) i ≠ []
    rw [Function.update_self]
    exact List.ne_nil_of_mem (mem_find.mpr hn)
  | formats h _ =>
    rw [h] at hrest
    cases hrest
    exact .ends fun d hd => List.mem_singleton.mp hd
  | ends h =>
    obtain rfl := h c (hrest ▸ List.mem_cons_self)
    exact .ends fun d hd => h d (rest_execute_detach hrest hd)

theorem loopdevReady_execute {root : Bool} {i : ι} (h : LoopdevReady x root i)
    (hrest : x.rest = c :: cs) (hok : Succeeds c ok) :
    LoopdevReady (execute t x ok cs c).2 root i := by
  cases h with
  | attaches h =>
    rw [h] at hrest
    cases hrest
    obtain rfl : ok = true := hok
    exact .boot rfl (by simp [execute])
  | boot h hnamed =>
    rw [h] at hrest
    cases hrest
    cases ok with
    | true => exact .rootfs rfl hnamed
    | false => exact .ends fun d hd => .inr (List.mem_singleton.mp hd)
  | rootfs h hnamed =>
    rw [h] at hrest
    cases hrest
    cases ok with
    | true => exact .ends fun d hd => .inl (List.mem_singleton.mp hd)
    | false =>
      cases root with
      | true => exact .ends fun d hd => .inr (List.mem_singleton.mp hd)
      | false => exact .ends fun d hd => absurd hd List.not_mem_nil
  | ends h =>
    rcases h c (hrest ▸ List.mem_cons_self) with rfl | rfl
    · exact .ends fun d hd => h d (hrest ▸ List.mem_cons_of_mem _ hd)
    · exact .ends fun d hd => h d (rest_execute_detach hrest hd)

theorem mkimageReady_execute {b r : ι} (hbr : b ≠ r) (h : MkimageReady m x b r)
    (hrest : x.rest = c :: cs) (hok : Succeeds c ok) :
    MkimageReady (remount m x ok c) (execute t x ok cs c).2 b r := by
  have hlabels : Label.rootfs ≠ .bootpart := by decide
  cases h with
  | attachesBoot h hfree =>
    rw [h] at hrest
    cases hrest
    obtain rfl : ok = true := hok
    exact .attachesRootfs rfl (by simp [execute]) hfree
  | attachesRootfs h hnamed hfree =>
    rw [h] at hrest
    cases hrest
    obtain rfl : ok = true := hok
    refine .mountsBoot rfl ?_ (by simp [execute]) hfree
    rw [devices_execute_of_ne hbr]
    exact hnamed
  | mountsBoot h hnamed hnamed' hfree =>
    rw [h] at hrest
    cases hrest
    obtain rfl : ok = true := hok
    obtain ⟨n, hn, hm⟩ := remount_pmount (hfree .bootpart) hnamed
    rw [hm]
    refine .mountsRootfs rfl ⟨n, hn, Function.update_self ..⟩ hnamed' ?_
    rw [Function.update_of_ne hlabels]
    exact hfree .rootfs
  | mountsRootfs h hboot hnamed hfree =>
    rw [h] at hrest
    cases hrest
    obtain rfl : ok = true := hok
    obtain ⟨n, hn, hm⟩ := remount_pmount hfree hnamed
    obtain ⟨k, hk, hkm⟩ := hboot
    rw [hm]
    refine .bootstraps rfl ⟨k, hk, ?_⟩ ⟨n, hn, Function.update_self ..⟩
    rw [Function.update_of_ne hlabels.symm]
    exact hkm
  | bootstraps h hboot hrootfs =>
    rw [h] at hrest
    cases hrest
    exact .unmountsBoot rfl hboot hrootfs
  | unmountsBoot h _ hrootfs =>
    rw [h] at hrest
    cases hrest
    obtain ⟨n, hn, hm⟩ := hrootfs
    refine .unmountsRootfs rfl ⟨n, hn, ?_⟩
    cases ok with
    | true => exact (Function.update_of_ne hlabels none m).trans hm
    | false => exact hm
  | unmountsRootfs h _ =>
    rw [h] at hrest
    cases hrest
    exact .ends fun d hd => List.mem_pair.mp hd
  | ends h =>
    rcases h c (hrest ▸ List.mem_cons_self) with rfl | rfl
    · exact .ends fun d hd => h d (rest_execute_detach hrest hd)
    · exact .ends fun d hd => h d (rest_execute_detach hrest hd)

theorem ready_execute (h : Ready t m x) (hrest : x.rest = c :: cs) (hok : Succeeds c ok) :
    Ready (execute t x ok cs c).1 (remount m x ok c) (execute t x ok cs c).2 := by
  unfold Ready at h ⊢
  rw [execute_script.1]
  cases hscript : x.script with
  | mksdImage i =>
    simp only [hscript] at h ⊢
    exact imageReady_execute h hrest hok
  | mksdLoopdev root i =>
    simp only [hscript] at h ⊢
    exact loopdevReady_execute h hrest hok
  | mkimage b r hbr =>
    simp only [hscript] at h ⊢
    exact mkimageReady_execute hbr h hrest hok

end

structure Guarded (s : Host ρ ι) : Prop where
  safe : Safe s
  single : ∀ r r' x x', s.runs r = some x → s.runs r' = some x' → r ≠ r' →
    x.script.Pmounts → ¬ x'.script.Pmounts
  ready : ∀ r x, s.runs r = some x → Ready s.loops s.mounts x

theorem guarded_idle (t : Table ι) (m : Mounts) : Guarded (idle t m : Host ρ ι) where
  safe := safe_idle t m
  single := fun _ _ _ _ hx => (nomatch hx)
  ready := fun _ _ hx => (nomatch hx)

theorem Guarded.ownDevices {s : Host ρ ι} (hs : Guarded s) : OwnDevices s where
  own := by
    intro r x hx i n hn
    have hsound := hs.safe.sound r x hx
    exact ⟨hsound.own i (List.ne_nil_of_mem hn), hsound.held i n hn⟩
  works := by
    intro r x c cs hx hrest d hd
    have hsound := hs.safe.sound r x hx
    obtain ⟨i, n, hn, rfl⟩ := (hs.ready r x hx).targets hrest hd
    exact ⟨n, rfl, i, hsound.own i (List.ne_nil_of_mem hn), hsound.held i n hn⟩
  alone := by
    intro r r' x x' hx hx' hne i j n hn hn'
    have hsound := hs.safe.sound r x hx
    have hsound' := hs.safe.sound r' x' hx'
    obtain rfl : i = j := held_unique (hsound.held i n hn) (hsound'.held j n hn')
    exact hs.safe.apart r r' x x' hx hx' hne i (hsound.own i (List.ne_nil_of_mem hn))
      (hsound'.own i (List.ne_nil_of_mem hn'))

section
variable [DecidableEq ι] [DecidableEq ρ] {s s' : Host ρ ι} {e : Event ρ ι}

theorem single_next (hs : Guarded s) (he : Orderly s e) (h : next s e = some s') :
    ∀ q q' x x', s'.runs q = some x → s'.runs q' = some x' → q ≠ q' →
      x.script.Pmounts → ¬ x'.script.Pmounts := by
  intro q q' x x' hx hx' hne hp hp'
  rcases next_cases h with ⟨r, script, rfl, rfl⟩ | ⟨r, ok, y, c, cs, rfl, hy, -, rfl⟩ |
    ⟨r, rfl, rfl⟩
  · rcases update_eq_some.mp hx with ⟨rfl, ⟨⟩⟩ | ⟨-, hq⟩
    · have hq' := ((update_eq_some.mp hx').resolve_left fun h => hne h.1.symm).2
      exact (he hp).2 q' x' hq' hp'
    · rcases update_eq_some.mp hx' with ⟨rfl, ⟨⟩⟩ | ⟨-, hq'⟩
      · exact (he hp').2 q x hq hp
      · exact hs.single q q' x x' hq hq' hne hp hp'
  · obtain ⟨z, hz, hzx⟩ := script_of_update hy hx
    obtain ⟨z', hz', hzx'⟩ := script_of_update hy hx'
    exact hs.single q q' z z' hz hz' hne (hzx ▸ hp) (hzx' ▸ hp')
  · rcases update_eq_some.mp hx with ⟨-, ⟨⟩⟩ | ⟨-, hx⟩
    rcases update_eq_some.mp hx' with ⟨-, ⟨⟩⟩ | ⟨-, hx'⟩
    exact hs.single q q' x x' hx hx' hne hp hp'

theorem ready_next (hs : Guarded s) (he : Orderly s e) (h : next s e = some s') :
    ∀ q x, s'.runs q = some x → Ready s'.loops s'.mounts x := by
  intro q x hx
  rcases next_cases h with ⟨r, script, rfl, rfl⟩ | ⟨r, ok, y, c, cs, rfl, hy, hrest, rfl⟩ |
    ⟨r, rfl, rfl⟩
  · rcases update_eq_some.mp hx with ⟨rfl, ⟨⟩⟩ | ⟨-, hx⟩
    · exact ready_begun script s.loops fun hp => (he hp).1
    · exact hs.ready q x hx
  · rcases update_eq_some.mp hx with ⟨rfl, ⟨⟩⟩ | ⟨hq, hx⟩
    · exact ready_execute (hs.ready q y hy) hrest (he y c cs hy hrest)
    · have hsound := hs.safe.sound r y hy
      have hc : y.script.Has c := hsound.rest c (hrest ▸ List.mem_cons_self)
      refine (hs.ready q x hx).frame (fun i hi => held_execute_of_ne hsound ?_) fun hp => ?_
      · rintro rfl
        exact hs.safe.apart q r x y hx hy hq _ hi hc.image
      · -- the other script does not use the mount points
        exact hc.remount (hs.single q r x y hx hy hq hp) s.mounts y ok
  · rcases update_eq_some.mp hx with ⟨-, ⟨⟩⟩ | ⟨-, hx⟩
    exact hs.ready q x hx

theorem guarded_next (hs : Guarded s) (he : Exclusive s e ∧ Orderly s e)
    (h : next s e = some s') : Guarded s' where
  safe := safe_next hs.safe he.1 h
  single := single_next hs he.2 h
  ready := ready_next hs he.2 h

/-- Whatever devices and mount points are in use at first, in every orderly interleaving of scripts
with different files, each one works on its own devices only. -/
theorem ownDevices_of_run {t : Table ι} {m : Mounts} {events : List (Event ρ ι)}
    (hok : StepsMeet next (fun s e => Exclusive s e ∧ Orderly s e) (idle t m) events)
    (h : run next (idle t m) events = some s) : OwnDevices s :=
  (run_invariant next (fun _ _ _ => guarded_next) (guarded_idle t m) hok h).ownDevices

end

/-- `mksd-image.sh` on the file 7, whose device 0 a run has left that was cut off, beside
`chronos-mkimage.sh` up to its bootstrap. -/
def bothEvents : List (Event Bool ℕ) :=
  [.start false (.mksdImage 7), .start true (.mkimage 1 2 (by decide)), .next true true,
    .next false true, .next true true, .next false true, .next true true, .next true true]

theorem ownDevices_bothEvents : ∃ s x, run next (idle [some 7] fun _ => none) bothEvents = some s ∧
    s.runs true = some x ∧ s.mounts .bootpart = some 1 ∧ behind s.loops 1 = some 1 ∧
      targets s.mounts x (.bootstrap 2) = [some 1, some 3] ∧
        ∀ d ∈ targets s.mounts x (.bootstrap 2),
          ∃ n, d = some n ∧ ∃ i ∈ x.script.images, behind s.loops n = some i := by
  have hok : StepsMeet next (fun s e => Exclusive s e ∧ Orderly s e) (idle [some 7] fun _ => none)
      bothEvents := by
    have hnext : ∀ r, ∀ s : Host Bool ℕ, Exclusive s (.next r true) ∧ Orderly s (.next r true) :=
      fun r s => ⟨trivial, fun x c cs _ _ => by cases c <;> trivial⟩
    refine ⟨⟨fun r x hx => (nomatch hx), fun hp => hp.elim⟩,
      ⟨fun r x hx => ?_, fun _ => ⟨fun _ => rfl, fun r x hx => ?_⟩⟩, hnext _ _, hnext _ _,
      hnext _ _, hnext _ _, hnext _ _, hnext _ _, trivial⟩
    · rcases update_eq_some.mp hx with ⟨-, ⟨⟩⟩ | ⟨-, hx⟩
      · decide
      · cases hx
    · rcases update_eq_some.mp hx with ⟨-, ⟨⟩⟩ | ⟨-, hx⟩
      · exact id
      · cases hx
  have hown := ownDevices_of_run hok rfl
  exact ⟨_, _, rfl, rfl, rfl, (hown.own true _ rfl 1 1 (by decide)).2, rfl,
    hown.works true _ _ _ rfl rfl⟩

/-- Two runs of `chronos-mkimage.sh` on different files: at the mount points of the second bootstrap
are the devices of the first. -/
def sharedEvents : List (Event Bool ℕ) :=
  [.start false (.mkimage 1 2 (by decide)), .start true (.mkimage 3 4 (by decide))] ++
    List.replicate 4 (.next false true) ++ List.replicate 4 (.next true true)

theorem not_ownDevices_sharedEvents :
    ∃ s, run next (idle [] fun _ => none) sharedEvents = some s ∧ ¬ OwnDevices s := by
  refine ⟨_, rfl, fun h => ?_⟩
  obtain ⟨n, hn, i, hi, hbehind⟩ := h.works true _ _ _ rfl rfl (some 0) (by decide)
  cases hn
  revert hi
  cases hbehind
  decide

/-- Two scripts on one file: the first one detaches the device that the second one is about to
format, and `chronos-mkimage.sh` gets it. -/
def clashEvents : List (Event (Fin 3) ℕ) :=
  [.start 0 (.mksdImage 7), .start 1 (.mksdImage 7), .next 0 true, .next 0 true, .next 1 true,
    .next 1 true, .next 0 true, .next 0 true, .start 2 (.mkimage 1 2 (by decide)), .next 2 true]

theorem not_ownDevices_clashEvents :
    ∃ s, run next (idle [] fun _ => none) clashEvents = some s ∧ ¬ OwnDevices s := by
  refine ⟨_, rfl, fun h => ?_⟩
  have hown := (h.own 1 _ rfl 7 0 (by decide)).2
  exact absurd hown (by decide)

end ChronosUpdates.ImageScripts
