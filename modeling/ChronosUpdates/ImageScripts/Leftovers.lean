import ChronosUpdates.ImageScripts.Scripts

namespace ChronosUpdates.ImageScripts
open LoopDevices Runs

variable {ρ ι : Type*}

structure Counted (t : Table ι) (x : Run ι) (i : ι) : Prop where
  held : ∀ n, n ∈ LoopDevices.held t i ↔ n ∈ LoopDevices.held x.before i ∨ n ∈ x.devices i
  new : ∀ n ∈ x.devices i, n ∉ LoopDevices.held x.before i

/-- By the commands that are left of `mksd-image.sh`. -/
inductive ImageBooks (t : Table ι) (x : Run ι) (i : ι) : Prop
  | attaches (rest : x.rest = [.attach i, .find i, .format i, .detach i])
  | finds (rest : x.rest = [.find i, .format i, .detach i])
  | formats (rest : x.rest = [.format i, .detach i])
      (all : ∀ n ∈ LoopDevices.held t i, n ∈ x.devices i)
  | detaches (rest : x.rest = [.detach i]) (all : ∀ n ∈ LoopDevices.held t i, n ∈ x.devices i)
  | complete (rest : x.rest = []) (none : LoopDevices.held t i = ∅)

inductive LoopdevBooks (x : Run ι) (root : Bool) (i : ι) : Prop
  | attaches (rest : x.rest = [.attachShow i, .mkfs i true, .mkfs i root, .print i])
      (silent : x.printed = none) (clean : x.unclean = false) (fresh : x.devices i = [])
  | boot (rest : x.rest = [.mkfs i true, .mkfs i root, .print i]) (silent : x.printed = none)
      (clean : x.unclean = false)
  | rootfs (rest : x.rest = [.mkfs i root, .print i]) (silent : x.printed = none)
      (clean : x.unclean = false)
  | prints (rest : x.rest = [.print i]) (silent : x.printed = none) (clean : x.unclean = false)
  | detaches (rest : x.rest = [.detach i]) (silent : x.printed = none) (clean : x.unclean = false)
  | failed (rest : x.rest = []) (silent : x.printed = none) (clean : x.unclean = false)
      (gone : x.devices i = [])
  | stuck (rest : x.rest = []) (silent : x.printed = none) (ordinary : root = false)
      (unclean : x.unclean = true)
  | complete (rest : x.rest = []) (printed : x.printed = some (x.devices i))
      (clean : x.unclean = false)

def Cmd.Idle : Cmd ι → Prop
  | .format _ | .pmount _ _ | .bootstrap _ | .pumount _ _ => True
  | _ => False

inductive MkimageBooks (x : Run ι) (b r : ι) : Prop
  | attachesBoot
      (rest : x.rest = [.attachShow b, .attachShow r, .pmount .bootpart b, .pmount .rootfs r,
        .bootstrap r, .pumount .bootpart b, .pumount .rootfs r, .detach b, .detach r])
      (freshBoot : x.devices b = []) (freshRootfs : x.devices r = [])
  | attachesRootfs
      (rest : x.rest = [.attachShow r, .pmount .bootpart b, .pmount .rootfs r, .bootstrap r,
        .pumount .bootpart b, .pumount .rootfs r, .detach b, .detach r])
      (freshRootfs : x.devices r = [])
  | mounts (before : List (Cmd ι)) (rest : x.rest = before ++ [.detach b, .detach r])
      (idle : ∀ c ∈ before, c.Idle)
  | detachesRootfs (rest : x.rest = [.detach r]) (gone : x.devices b = [])
  | complete (rest : x.rest = []) (goneBoot : x.devices b = []) (goneRootfs : x.devices r = [])

def Books (t : Table ι) (x : Run ι) : Prop :=
  match x.script with
  | .mksdImage i => ImageBooks t x i
  | .mksdLoopdev root i => LoopdevBooks x root i ∧ Counted t x i
  | .mkimage b r _ => MkimageBooks x b r ∧ Counted t x b ∧ Counted t x r

theorem Counted.frame {t t' : Table ι} {x : Run ι} {i : ι} (h : Counted t x i)
    (ht : LoopDevices.held t' i = LoopDevices.held t i) : Counted t' x i where
  held := by
    rw [ht]
    exact h.held
  new := h.new

theorem counted_begun (script : Script ι) (t : Table ι) (i : ι) :
    Counted t (begun script t) i where
  held := fun _ => (or_iff_left List.not_mem_nil).symm
  new := fun _ hn => (nomatch hn)

theorem books_begun (script : Script ι) (t : Table ι) : Books t (begun script t) := by
  cases script with
  | mksdImage i => exact .attaches rfl
  | mksdLoopdev root i => exact ⟨.attaches rfl rfl rfl rfl, counted_begun _ t i⟩
  | mkimage b r _ => exact ⟨.attachesBoot rfl rfl rfl, counted_begun _ t b, counted_begun _ t r⟩

theorem ImageBooks.frame {t t' : Table ι} {x : Run ι} {i : ι} (h : ImageBooks t x i)
    (ht : LoopDevices.held t' i = LoopDevices.held t i) : ImageBooks t' x i := by
  cases h with
  | attaches h => exact .attaches h
  | finds h => exact .finds h
  | formats h hall => exact .formats h (ht ▸ hall)
  | detaches h hall => exact .detaches h (ht ▸ hall)
  | complete h hnone => exact .complete h (ht.trans hnone)

theorem Books.frame {t t' : Table ι} {x : Run ι} (h : Books t x)
    (ht : ∀ i ∈ x.script.images, LoopDevices.held t' i = LoopDevices.held t i) : Books t' x := by
  unfold Books at h ⊢
  cases hscript : x.script with
  | mksdImage i =>
    simp only [hscript, Script.images, List.mem_singleton, forall_eq] at h ht ⊢
    exact h.frame ht
  | mksdLoopdev root i =>
    simp only [hscript, Script.images, List.mem_singleton, forall_eq] at h ht ⊢
    exact ⟨h.1, h.2.frame ht⟩
  | mkimage b r _ =>
    simp only [hscript, Script.images, List.mem_cons, List.not_mem_nil, or_false,
      forall_eq_or_imp, forall_eq] at h ht ⊢
    exact ⟨h.1, h.2.1.frame ht.1, h.2.2.frame ht.2⟩

/-- A command that keeps count: what is attached to the variable comes first there. -/
def Counts (x : Run ι) (c : Cmd ι) (i : ι) : Prop :=
  (c ≠ .attach i ∧ c ≠ .find i) ∧ (c = .attachShow i → x.devices i = [])

theorem LoopdevBooks.counts {x : Run ι} {c : Cmd ι} {cs : List (Cmd ι)} {root : Bool} {i : ι}
    (h : LoopdevBooks x root i)
    (hrest : x.rest = c :: cs) : Counts x c i := by
  cases h with
  | attaches h _ _ hfresh =>
    rw [h] at hrest
    cases hrest
    exact ⟨⟨nofun, nofun⟩, fun _ => hfresh⟩
  | boot h _ _ | rootfs h _ _ | prints h _ _ | detaches h _ _ =>
    rw [h] at hrest
    cases hrest
    exact ⟨⟨nofun, nofun⟩, nofun⟩
  | failed h _ _ _ | stuck h _ _ _ | complete h _ _ => cases h.symm.trans hrest

theorem Cmd.Idle.counts {x : Run ι} {c : Cmd ι} (h : c.Idle) (i : ι) : Counts x c i := by
  cases c with
  | format | pmount | bootstrap | pumount => exact ⟨⟨nofun, nofun⟩, nofun⟩
  | _ => cases h

theorem MkimageBooks.counts {x : Run ι} {c : Cmd ι} {cs : List (Cmd ι)} {b r : ι} (hbr : b ≠ r)
    (h : MkimageBooks x b r) (hrest : x.rest = c :: cs) : Counts x c b ∧ Counts x c r := by
  cases h with
  | attachesBoot h hb _ =>
    rw [h] at hrest
    cases hrest
    exact ⟨⟨⟨nofun, nofun⟩, fun _ => hb⟩, ⟨nofun, nofun⟩,
      fun e => absurd (Cmd.attachShow.inj e) hbr⟩
  | attachesRootfs h hr =>
    rw [h] at hrest
    cases hrest
    exact ⟨⟨⟨nofun, nofun⟩, fun e => absurd (Cmd.attachShow.inj e).symm hbr⟩, ⟨nofun, nofun⟩,
      fun _ => hr⟩
  | mounts before h hidle =>
    rw [h] at hrest
    cases before with
    | nil =>
      cases hrest
      exact ⟨⟨⟨nofun, nofun⟩, nofun⟩, ⟨nofun, nofun⟩, nofun⟩
    | cons d before =>
      cases hrest
      have hc := hidle c List.mem_cons_self
      exact ⟨hc.counts b, hc.counts r⟩
  | detachesRootfs h _ =>
    rw [h] at hrest
    cases hrest
    exact ⟨⟨⟨nofun, nofun⟩, nofun⟩, ⟨nofun, nofun⟩, nofun⟩
  | complete h _ _ => cases h.symm.trans hrest

def Works : Cmd ι → Bool → Prop
  | .find _, ok | .detach _, ok => ok = true
  | _, _ => True

section
variable [DecidableEq ι] {t : Table ι} {x : Run ι} {ok : Bool} {c : Cmd ι} {cs : List (Cmd ι)}

theorem Cmd.Idle.execute (h : c.Idle) : execute t x ok cs c = (t, { x with rest := cs }) := by
  cases c with
  | format | pmount | bootstrap | pumount => rfl
  | _ => cases h

theorem Counted.assign {i : ι} {ns : List ℕ} {t' : Table ι} {cs : List (Cmd ι)}
    (hheld : ∀ n, n ∈ LoopDevices.held t' i ↔ n ∈ LoopDevices.held x.before i ∨ n ∈ ns)
    (hnew : ∀ n ∈ ns, n ∉ LoopDevices.held x.before i) :
    Counted t' { x with rest := cs, devices := Function.update x.devices i ns } i := by
  constructor <;> simp only [Function.update_self]
  · exact hheld
  · exact hnew

theorem Counted.execute {i : ι} (h : Counted t x i) (hs : Sound t x)
    (hc : c ≠ .attach i ∧ c ≠ .find i) (hshow : c = .attachShow i → x.devices i = [])
    (hok : Works c ok) : Counted (execute t x ok cs c).1 (execute t x ok cs c).2 i := by
  by_cases hi : i = c.image
  · cases c with
    | attach j => exact absurd (congrArg Cmd.attach hi.symm) hc.1
    | find j => exact absurd (congrArg Cmd.find hi.symm) hc.2
    | mkfs j cleanup => cases ok <;> exact ⟨h.held, h.new⟩
    | format j | print j | pmount l j | bootstrap j | pumount l j => exact ⟨h.held, h.new⟩
    | attachShow j =>
      obtain rfl : i = j := hi
      have hbefore : ∀ n, n ∈ LoopDevices.held t i ↔ n ∈ LoopDevices.held x.before i := by
        intro n
        rw [h.held n, hshow rfl, or_iff_left List.not_mem_nil]
      cases ok with
      | false => exact Counted.assign (fun n => (hbefore n).trans (by simp)) (by simp)
      | true =>
        refine Counted.assign (fun n => ?_) fun n hn hold => ?_
        · show n ∈ LoopDevices.held (attach i t) i ↔ _
          rw [held_attach_self, Set.mem_insert_iff, hbefore, or_comm]
          exact or_congr_right List.mem_singleton.symm
        · rw [List.mem_singleton.mp hn, ← hbefore] at hold
          exact firstFree_notMem_held t i hold
    | detach j =>
      obtain rfl : i = j := hi
      obtain rfl : ok = true := hok
      simp only [ImageScripts.execute]
      cases hd : x.devices i with
      | nil => exact ⟨h.held, h.new⟩
      | cons n ns =>
        obtain ⟨hn, -⟩ := List.nodup_cons.mp (hd ▸ hs.nodup i)
        have hnew := h.new
        rw [hd] at hnew
        refine Counted.assign (fun m => ?_) fun m hm => hnew m (List.mem_cons_of_mem n hm)
        show m ∈ LoopDevices.held (detach n t) i ↔ _
        rw [held_detach, Set.mem_sdiff, h.held, hd, List.mem_cons, Set.mem_singleton_iff]
        have hold : m ∈ LoopDevices.held x.before i → m ≠ n := by
          rintro hm rfl
          exact hnew m List.mem_cons_self hm
        have hrest : m ∈ ns → m ≠ n := by
          rintro hm rfl
          exact hn hm
        tauto
  · constructor
    · rw [held_execute_of_ne hs hi, devices_execute_of_ne hi, execute_script.2]
      exact h.held
    · rw [devices_execute_of_ne hi, execute_script.2]
      exact h.new

theorem imageBooks_execute {i : ι} (h : ImageBooks t x i) (hrest : x.rest = c :: cs)
    (hok : Works c ok) : ImageBooks (execute t x ok cs c).1 (execute t x ok cs c).2 i := by
  cases h with
  | attaches h =>
    rw [h] at hrest
    cases hrest
    exact .finds rfl
  | finds h =>
    rw [h] at hrest
    cases hrest
    obtain rfl : ok = true := hok
    refine .formats rfl fun n hn => ?_
    show n ∈ Function.update x.devices i (find i t) i
    rw [Function.update_self]
    exact mem_find.mpr hn
  | formats h hall =>
    rw [h] at hrest
    cases hrest
    exact .detaches rfl hall
  | detaches h hall =>
    rw [h] at hrest
    cases hrest
    obtain rfl : ok = true := hok
    simp only [execute]
    cases hd : x.devices i with
    | nil =>
      rw [hd] at hall
      exact .complete rfl (Set.eq_empty_of_forall_notMem fun n hn =>
        absurd (hall n hn) List.not_mem_nil)
    | cons n ns =>
      refine .detaches h fun m hm => ?_
      show m ∈ Function.update x.devices i ns i
      replace hm : m ∈ LoopDevices.held (detach n t) i := hm
      rw [held_detach] at hm
      rw [Function.update_self]
      exact (List.mem_cons.mp (hd ▸ hall m hm.1)).resolve_left hm.2
  | complete h hnone =>
    rw [h] at hrest
    cases hrest

theorem loopdevBooks_execute {root : Bool} {i : ι} (h : LoopdevBooks x root i)
    (hrest : x.rest = c :: cs) : LoopdevBooks (execute t x ok cs c).2 root i := by
  cases h with
  | attaches h hp hclean _ =>
    rw [h] at hrest
    cases hrest
    exact .boot rfl hp hclean
  | boot h hp hclean =>
    rw [h] at hrest
    cases hrest
    cases ok with
    | true => exact .rootfs rfl hp hclean
    | false => exact .detaches rfl hp rfl
  | rootfs h hp hclean =>
    rw [h] at hrest
    cases hrest
    cases ok with
    | true => exact .prints rfl hp hclean
    | false =>
      -- an ordinary user keeps the device
      cases root with
      | true => exact .detaches rfl hp rfl
      | false => exact .stuck rfl hp rfl rfl
  | prints h hp hclean =>
    rw [h] at hrest
    cases hrest
    exact .complete rfl rfl hclean
  | detaches h hp hclean =>
    rw [h] at hrest
    cases hrest
    simp only [execute]
    cases hd : x.devices i with
    | nil => exact .failed rfl hp hclean hd
    | cons n ns => exact .detaches h hp hclean
  | failed h _ _ _ | stuck h _ _ _ | complete h _ _ => cases h.symm.trans hrest

theorem mkimageBooks_execute {b r : ι} (hbr : b ≠ r) (h : MkimageBooks x b r)
    (hrest : x.rest = c :: cs) : MkimageBooks (execute t x ok cs c).2 b r := by
  cases h with
  | attachesBoot h _ hr =>
    rw [h] at hrest
    cases hrest
    refine .attachesRootfs rfl ?_
    rw [devices_execute_of_ne hbr.symm]
    exact hr
  | attachesRootfs h _ =>
    rw [h] at hrest
    cases hrest
    refine .mounts [.pmount .bootpart b, .pmount .rootfs r, .bootstrap r, .pumount .bootpart b,
      .pumount .rootfs r] rfl ?_
    simp [Cmd.Idle]
  | mounts before h hidle =>
    rw [h] at hrest
    cases before with
    | nil =>
      cases hrest
      simp only [execute]
      cases hd : x.devices b with
      | nil => exact .detachesRootfs rfl hd
      | cons n ns => exact .mounts [] h fun _ hc => absurd hc List.not_mem_nil
    | cons d before =>
      cases hrest
      rw [(hidle c List.mem_cons_self).execute]
      exact .mounts before rfl fun d hd => hidle d (List.mem_cons_of_mem c hd)
  | detachesRootfs h hb =>
    rw [h] at hrest
    cases hrest
    simp only [execute]
    cases hd : x.devices r with
    | nil => exact .complete rfl hb hd
    | cons n ns => exact .detachesRootfs h ((Function.update_of_ne hbr ..).trans hb)
  | complete h _ _ => cases h.symm.trans hrest

theorem books_execute (hs : Sound t x) (h : Books t x) (hrest : x.rest = c :: cs)
    (hok : Works c ok) : Books (execute t x ok cs c).1 (execute t x ok cs c).2 := by
  unfold Books at h ⊢
  rw [execute_script.1]
  have hcounted : ∀ i, Counted t x i → Counts x c i →
      Counted (execute t x ok cs c).1 (execute t x ok cs c).2 i :=
    fun i hi hc => hi.execute hs hc.1 hc.2 hok
  cases hscript : x.script with
  | mksdImage i =>
    simp only [hscript] at h ⊢
    exact imageBooks_execute h hrest hok
  | mksdLoopdev root i =>
    simp only [hscript] at h ⊢
    exact ⟨loopdevBooks_execute h.1 hrest, hcounted i h.2 (h.1.counts hrest)⟩
  | mkimage b r hbr =>
    simp only [hscript] at h ⊢
    obtain ⟨hbooks, hb, hr⟩ := h
    obtain ⟨hcb, hcr⟩ := hbooks.counts hbr hrest
    exact ⟨mkimageBooks_execute hbr hbooks hrest, hcounted b hb hcb, hcounted r hr hcr⟩

end

/-- What a script has done with the loop devices when it gets to its end: `mksd-image.sh` has
detached all devices of its image, also those from before; the others have detached their own. Only
`mksd-loopdev.sh` leaves a device: the one that it has printed, or, where an ordinary user meets a
`mkfs` that fails and a `losetup -d` that is not found, the one in its variable, unprinted. -/
def Settled (t : Table ι) (x : Run ι) : Prop :=
  match x.script with
  | .mksdImage i => LoopDevices.held t i = ∅
  | .mksdLoopdev root i =>
    (x.unclean = true → root = false ∧ x.printed = none ∧
      ∀ n, n ∈ LoopDevices.held t i ↔ n ∈ LoopDevices.held x.before i ∨ n ∈ x.devices i) ∧
    (x.unclean = false → ∀ n, n ∈ LoopDevices.held t i ↔
      n ∈ LoopDevices.held x.before i ∨ ∃ ns, x.printed = some ns ∧ n ∈ ns)
  | .mkimage b r _ => LoopDevices.held t b = LoopDevices.held x.before b ∧
    LoopDevices.held t r = LoopDevices.held x.before r

theorem Counted.eq_before {t : Table ι} {x : Run ι} {i : ι} (h : Counted t x i)
    (hi : x.devices i = []) : LoopDevices.held t i = LoopDevices.held x.before i := by
  ext n
  rw [h.held n, hi, or_iff_left List.not_mem_nil]

theorem Books.settled {t : Table ι} {x : Run ι} (h : Books t x) (hrest : x.rest = []) :
    Settled t x := by
  unfold Books at h
  unfold Settled
  cases hscript : x.script with
  | mksdImage i =>
    simp only [hscript] at h ⊢
    cases h with
    | complete _ hnone => exact hnone
    | attaches h | finds h | formats h _ | detaches h _ => cases h.symm.trans hrest
  | mksdLoopdev root i =>
    simp only [hscript] at h ⊢
    obtain ⟨hbooks, hcounted⟩ := h
    cases hbooks with
    | failed _ hp hclean hgone =>
      refine ⟨fun hu => (nomatch hclean.symm.trans hu), fun _ n => ?_⟩
      rw [hcounted.eq_before hgone, hp]
      simp
    | stuck _ hp hroot hunclean =>
      exact ⟨fun _ => ⟨hroot, hp, hcounted.held⟩, fun hc => (nomatch hunclean.symm.trans hc)⟩
    | complete _ hp hclean =>
      refine ⟨fun hu => (nomatch hclean.symm.trans hu), fun _ n => ?_⟩
      rw [hcounted.held, hp]
      simp
    | attaches h _ _ _ | boot h _ _ | rootfs h _ _ | prints h _ _ | detaches h _ _ =>
      cases h.symm.trans hrest
  | mkimage b r _ =>
    simp only [hscript] at h ⊢
    obtain ⟨hbooks, hb, hr⟩ := h
    cases hbooks with
    | complete _ hgoneBoot hgoneRootfs => exact ⟨hb.eq_before hgoneBoot, hr.eq_before hgoneRootfs⟩
    | attachesBoot h _ _ | attachesRootfs h _ | detachesRootfs h _ => cases h.symm.trans hrest
    | mounts before h _ => simp [hrest] at h

section
variable [DecidableEq ι] [DecidableEq ρ]

def Reliable (s : Host ρ ι) (e : Event ρ ι) : Prop :=
  ∀ r ok x c cs, e = .next r ok → s.runs r = some x → x.rest = c :: cs → Works c ok

/-- Every script that gets to its end settles its devices, whatever the others do. -/
theorem settled_of_run {t : Table ι} {m : Mounts} {events : List (Event ρ ι)} {s : Host ρ ι}
    (hok : StepsMeet next (fun s e => Exclusive s e ∧ Reliable s e) (idle t m) events)
    (h : run next (idle t m) events = some s) {r : ρ} {x : Run ι} (hx : s.runs r = some x)
    (hrest : x.rest = []) : Settled s.loops x := by
  have hstep : ∀ (s : Host ρ ι) e s',
      (Safe s ∧ ∀ r x, s.runs r = some x → Books s.loops x) → Exclusive s e ∧ Reliable s e →
        next s e = some s' → Safe s' ∧ ∀ r x, s'.runs r = some x → Books s'.loops x := by
    intro s e s' hs he h
    refine ⟨safe_next hs.1 he.1 h, ?_⟩
    exact runs_next books_begun (fun _ _ _ hx => hx.frame)
      (fun _ _ _ _ _ hx hb hrest hq => books_execute hx hb hrest hq) hs.1.apart hs.1.sound hs.2
      he.2 h
  have hstart : Safe (idle t m : Host ρ ι) ∧
      ∀ r x, (idle t m : Host ρ ι).runs r = some x → Books t x :=
    ⟨safe_idle t m, fun _ _ hx => (nomatch hx)⟩
  exact ((run_invariant next hstep hstart hok h).2 r x hx).settled hrest

end

theorem reliable_start {s : Host Bool ℕ} (r : Bool) (script : Script ℕ) :
    Reliable s (.start r script) := fun _ _ _ _ _ he => (nomatch he)

theorem reliable_ok {s : Host Bool ℕ} (r : Bool) : Reliable s (.next r true) := by
  intro q ok x c cs he _ _
  obtain ⟨rfl, rfl⟩ := Event.next.inj he
  cases c <;> trivial

theorem reliable_mkfs {s : Host Bool ℕ} {r ok : Bool} {x : Run ℕ} (hx : s.runs r = some x)
    {i : ℕ} {cleanup : Bool} {cs : List (Cmd ℕ)} (hrest : x.rest = .mkfs i cleanup :: cs) :
    Reliable s (.next r ok) := by
  intro q ok' y c ds he hy hd
  obtain ⟨rfl, rfl⟩ := Event.next.inj he
  cases hx.symm.trans hy
  cases hrest.symm.trans hd
  trivial

/-- `mksd-image.sh` on the file 7, whose device 0 a run has left that was cut off, beside an
ordinary user's `mksd-loopdev.sh` on the file 8, where the second `mkfs` fails. -/
def settledEvents : List (Event Bool ℕ) :=
  [.start false (.mksdImage 7), .start true (.mksdLoopdev false 8), .next true true,
    .next false true, .next true true, .next false true, .next true false] ++
      List.replicate 4 (.next false true)

theorem settled_settledEvents : ∃ s x, run next (idle [some 7] fun _ => none) settledEvents =
    some s ∧ LoopDevices.held s.loops 7 = ∅ ∧ s.runs true = some x ∧ x.printed = none ∧
      1 ∈ LoopDevices.held s.loops 8 := by
  have hok : StepsMeet next (fun s e => Exclusive s e ∧ Reliable s e) (idle [some 7] fun _ => none)
      settledEvents := by
    have hnext : ∀ r, ∀ s : Host Bool ℕ, Exclusive s (.next r true) ∧ Reliable s (.next r true) :=
      fun r s => ⟨trivial, reliable_ok r⟩
    refine ⟨⟨fun r x hx => (nomatch hx), reliable_start _ _⟩,
      ⟨fun r x hx => ?_, reliable_start _ _⟩, hnext _ _, hnext _ _, hnext _ _, hnext _ _,
      ⟨trivial, reliable_mkfs rfl rfl⟩, hnext _ _, hnext _ _, hnext _ _, hnext _ _, trivial⟩
    rcases update_eq_some.mp hx with ⟨-, ⟨⟩⟩ | ⟨-, hx⟩
    · decide
    · cases hx
  have hloopdev := @settled_of_run _ _ _ _ _ _ _ _ hok rfl true _ rfl rfl
  obtain ⟨-, hsilent, hheld⟩ := hloopdev.1 rfl
  exact ⟨_, _, rfl, @settled_of_run _ _ _ _ _ _ _ _ hok rfl false _ rfl rfl, rfl, hsilent,
    (hheld 1).mpr (.inr (by decide))⟩

end ChronosUpdates.ImageScripts
