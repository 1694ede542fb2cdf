import ChronosUpdates.Mksd.Scripts

namespace ChronosUpdates.Mksd
open Shell MountStack

def OnDevice (g : Option Device) : Place → Prop
  | .device d => ∃ d₀, g = some d₀ ∧ d₀.Holds d
  | .host _ => False

def Effect.place : Effect → Place
  | .unmounted p => p
  | .wrote p => p

/-- Everything that a script unmounts or writes is on the given block device. -/
def Confined (g : Option Device) (es : List Effect) : Prop := ∀ e ∈ es, OnDevice g e.place

/-- Where no block device is given, a script may do nothing. -/
theorem confined_none (es : List Effect) : Confined none es ↔ es = [] := by
  constructor
  · intro h
    cases es with
    | nil => rfl
    | cons e es =>
      have he := h e List.mem_cons_self
      cases hp : e.place with
      | device d =>
        rw [hp] at he
        obtain ⟨d₀, hd, -⟩ := he
        cases hd
      | host path =>
        rw [hp] at he
        exact he.elim
  · rintro rfl e he
    cases he

theorem confined_append (g : Option Device) (es fs : List Effect) :
    Confined g (es ++ fs) ↔ Confined g es ∧ Confined g fs := by
  simp only [Confined, List.mem_append, or_imp, forall_and]

/-- The file systems that the operands reach, as many from each stack as name its mount
point, are on the device. -/
def UnmountsOn (g : Option Device) (s : System) (ws : List Word) : Prop :=
  ∀ m, Reached (ws.filterMap s.resolve) s.mounts m → OnDevice g (.device m.device)

/-- The file that a command is given is the device, or nothing that it can open. -/
def LeadsOn (g : Option Device) (creates : Bool) (node : Text → Node) (file : Option Word) : Prop :=
  ∀ w, file = some w → match node w with
    | .block d => ∃ d₀, g = some d₀ ∧ d₀.Holds d
    | .file => False
    | .directory => True
    | .missing creatable => creates = false ∨ creatable = false

/-- `mkfs` and `mount` are given the device or nothing that they can open, and where there is
something to copy the `mount` finds a block device and succeeds. -/
structure InstallsOn (g : Option Device) (k : Tools) (s : System) (mkfs : List Word → Option Word)
    (part : Text) (target : Target) : Prop where
  mkfs_on : LeadsOn g false s.installed (mkfs (s.glob.expand part))
  mount_on : target.accepts = true → LeadsOn g false s.installed (k.mount (s.glob.expand part))
  mounted : target.source = true → target.accepts = true ∧
    ∃ w d, k.mount (s.glob.expand part) = some w ∧ s.installed w = .block d

theorem confined_unmount (g : Option Device) (s : System) (ws : List Word) :
    Confined g (unmount s ws) ↔ UnmountsOn g s ws := by
  simp only [Confined, unmount, List.forall_mem_map, mem_takenAll, Effect.place, UnmountsOn]

theorem opensOn_iff (g : Option Device) (creates : Bool) (node : Text → Node) (file : Option Word) :
    (∀ q, opened creates node file = some q → OnDevice g q) ↔ LeadsOn g creates node file := by
  cases file with
  | none => simp [opened, LeadsOn]
  | some w =>
    simp only [opened, LeadsOn, Option.some.injEq, forall_eq']
    cases node w with
    | block d => simp [OnDevice]
    | file => simp [OnDevice]
    | directory => simp
    | missing creatable => cases creates <;> cases creatable <;> simp [OnDevice]

theorem confined_wrote (g : Option Device) (creates : Bool) (node : Text → Node)
    (file : Option Word) : Confined g (wrote (opened creates node file)) ↔
      LeadsOn g creates node file := by
  simp only [Confined, wrote, List.forall_mem_map, Option.mem_toList, Effect.place, opensOn_iff]

theorem confined_unmounted (g : Option Device) (node : Text → Node) (file : Option Word) :
    Confined g ((opened false node file).toList.map .unmounted) ↔ LeadsOn g false node file := by
  simp only [Confined, List.forall_mem_map, Option.mem_toList, Effect.place, opensOn_iff]

theorem LeadsOn.opened_eq {g : Option Device} {node : Text → Node} {file : Option Word}
    (h : LeadsOn g false node file) : opened false node file = none ∨
      ∃ w d, file = some w ∧ node w = .block d ∧ opened false node file = some (.device d) := by
  cases file with
  | none => exact .inl rfl
  | some w =>
    have hw := h w rfl
    cases hn : node w with
    | block d => exact .inr ⟨w, d, rfl, hn, by simp only [opened, hn]⟩
    | file => simp [hn] at hw
    | directory => exact .inl (by simp only [opened, hn])
    | missing creatable => exact .inl (by simp [opened, hn])

theorem confined_install (g : Option Device) (k : Tools) (s : System)
    (mkfs : List Word → Option Word)
    (part : Text) (target : Target) :
    Confined g (install k s mkfs part target) ↔ InstallsOn g k s mkfs part target := by
  set file := k.mount (s.glob.expand part) with hfile
  set mounted := if target.accepts then opened false s.installed file else none with hmounted
  have hcopy :
      Confined g (if target.source then [.wrote (mounted.getD (.host target.dir))] else []) ↔
      (target.source = true → OnDevice g (mounted.getD (.host target.dir))) := by
    cases target.source <;> simp [Confined, Effect.place]
  rw [install, ← hfile, ← hmounted, confined_append, confined_append, confined_wrote, hcopy]
  cases ha : target.accepts with
  | false =>
    -- the copy goes into the directory of the host
    have hm : mounted = none := by simp [hmounted, ha]
    rw [hm]
    constructor
    · rintro ⟨⟨hmkfs, hcopy⟩, -⟩
      exact ⟨hmkfs, fun h => (nomatch ha.symm.trans h), fun h => (hcopy h).elim⟩
    · intro h
      refine ⟨⟨h.mkfs_on, fun hs => ?_⟩, fun q hq => (nomatch hq)⟩
      exact nomatch ha.symm.trans (h.mounted hs).1
  | true =>
    have hm : mounted = opened false s.installed file := by simp [hmounted, ha]
    rw [hm, confined_unmounted]
    constructor
    · rintro ⟨⟨hmkfs, hcopy⟩, hmount⟩
      refine ⟨hmkfs, fun _ => hmount, fun hs => ⟨ha, ?_⟩⟩
      rcases hmount.opened_eq with hnone | ⟨w, d, hw, hd, -⟩
      · rw [hnone] at hcopy
        exact (hcopy hs).elim
      · exact ⟨w, d, hw, hd⟩
    · intro h
      have hmount : LeadsOn g false s.installed file := h.mount_on ha
      refine ⟨⟨h.mkfs_on, fun hs => ?_⟩, hmount⟩
      obtain ⟨-, w, d, hw, hd⟩ := h.mounted hs
      have hon := hmount w (hfile.trans hw)
      rw [hfile, hw]
      simpa [opened, hd, OnDevice] using hon

structure FormatConfinable (k : Tools) (s : System) (arg : Text) : Prop where
  listed : UnmountsOn (given s arg) s (listed s arg)
  dd : LeadsOn (given s arg) true s.start (k.dd (s.glob.expand ("of=".toList ++ arg)))
  sfdisk : LeadsOn (given s arg) false s.partitioned (k.sfdisk (s.glob.expand arg))
  boot : InstallsOn (given s arg) k s k.mkfsVfat (bootPart s arg) s.boot
  rootfs : InstallsOn (given s arg) k s k.mkfsExt3 (rootfsPart s arg) s.rootfs

def RootfsConfinable (k : Tools) (s : System) (arg : Text) : Prop :=
  ∀ g, s.start arg = .block g →
    UnmountsOn (some g) s (s.glob.expand arg) ∧ InstallsOn (some g) k s k.mkfsExt3 arg s.rootfs

/-- The scripts keep to the given block device exactly when all the operands of their commands
lead there, or nowhere, and no copy is made without its `mount`. -/
theorem confined_iff (k : Tools) (s : System) (arg : Text) :
    (Confined (given s arg) (format k s arg) ↔ FormatConfinable k s arg) ∧
      (Confined (given s arg) (rootfs k s arg) ↔ RootfsConfinable k s arg) := by
  constructor
  · simp only [format, confined_append, confined_unmount, confined_wrote, confined_install]
    constructor
    · rintro ⟨⟨⟨⟨hlisted, hdd⟩, hsfdisk⟩, hboot⟩, hrootfs⟩
      exact ⟨hlisted, hdd, hsfdisk, hboot, hrootfs⟩
    · intro h
      exact ⟨⟨⟨⟨h.listed, h.dd⟩, h.sfdisk⟩, h.boot⟩, h.rootfs⟩
  · unfold RootfsConfinable
    cases hg : s.start arg with
    | block g =>
      simp only [rootfs, given, hg, confined_append, confined_unmount, confined_install]
      constructor
      · rintro h _ ⟨⟩
        exact h
      · intro h
        exact h g rfl
    | file => simp [rootfs, hg, Confined]
    | directory => simp [rootfs, hg, Confined]
    | missing creatable => simp [rootfs, hg, Confined]

def IsOrdinary (w : Word) : Prop := IsPlain w ∧ IsLiteral w ∧ w.head? ≠ some '-'

theorem IsOrdinary.append {w t : Word} (hw : IsOrdinary w) (ht : ∀ c ∈ t, isBlank c = false)
    (hlit : IsLiteral t) : IsOrdinary (w ++ t) := by
  refine ⟨hw.1.append ht, hw.2.1.append hlit, ?_⟩
  rw [List.head?_append_of_ne_nil _ hw.1.1]
  exact hw.2.2

section
variable {k : Tools} {s : System} {arg : Text} {g : Device}

theorem leadsOn_of_block {creates : Bool} {node : Text → Node} {w : Word} {d : Device}
    (hn : node w = .block d) (hd : g.Holds d) : LeadsOn (some g) creates node (some w) := by
  rintro _ ⟨⟩
  rw [hn]
  exact ⟨g, rfl, hd⟩

theorem installsOn_iff_of_ordinary {mkfs : List Word → Option Word} {part : Text} {target : Target}
    {d : Device} (hpart : IsOrdinary part) (hmkfs : mkfs [part] = some part)
    (hn : s.installed part = .block d) (hd : g.Holds d) :
    InstallsOn (some g) k s mkfs part target ↔ (target.source = true → target.accepts = true) := by
  obtain ⟨-, -, -, -, hmount⟩ := k.sole part hpart.1 hpart.2.2
  have hwords : s.glob.expand part = [part] := s.glob.expand_literal hpart.1 hpart.2.1
  constructor
  · exact fun h hs => (h.mounted hs).1
  · intro h
    constructor
    · rw [hwords, hmkfs]
      exact leadsOn_of_block hn hd
    · rw [hwords, hmount]
      exact fun _ => leadsOn_of_block hn hd
    · rw [hwords, hmount]
      exact fun hs => ⟨h hs, part, d, rfl, hn⟩

/-- Given a block device with an ordinary name, whose partitions appear under the names that
the script computes, `mksd-format.sh` needs no more than that the mount points on the list
belong to the device and that no copy is made without its `mount`. -/
theorem formatConfinable_iff_of_ordinary (harg : IsOrdinary arg) (hstart : s.start arg = .block g)
    (hpart : s.partitioned arg = .block g) {b r : Device}
    (hb : s.installed (bootPart s arg) = .block b) (hgb : g.Holds b)
    (hr : s.installed (rootfsPart s arg) = .block r) (hgr : g.Holds r) :
    FormatConfinable k s arg ↔
      (∀ m, Reached ((listed s arg).filterMap s.resolve) s.mounts m → g.Holds m.device) ∧
        (s.boot.source = true → s.boot.accepts = true) ∧
          (s.rootfs.source = true → s.rootfs.accepts = true) := by
  have hgiven : given s arg = some g := by simp [given, hstart]
  have hself : g.Holds g := .inl rfl
  obtain ⟨hdd, hsfdisk, -⟩ := k.sole arg harg.1 harg.2.2
  have hof : s.glob.expand ("of=".toList ++ arg) = ["of=".toList ++ arg] :=
    s.glob.expand_literal (IsPlain.append (by decide) harg.1.2)
      ((isLiteral_of_all rfl).append harg.2.1)
  have hwords : s.glob.expand arg = [arg] := s.glob.expand_literal harg.1 harg.2.1
  -- the names of the partitions are as ordinary as the name of the device
  have hbp : IsOrdinary (bootPart s arg) := by
    unfold bootPart
    split <;> exact harg.append (noBlank_of_all rfl) (isLiteral_of_all rfl)
  have hrp : IsOrdinary (rootfsPart s arg) := by
    unfold rootfsPart
    split <;> exact harg.append (noBlank_of_all rfl) (isLiteral_of_all rfl)
  obtain ⟨-, -, hvfat, -, -⟩ := k.sole _ hbp.1 hbp.2.2
  obtain ⟨-, -, -, hext3, -⟩ := k.sole _ hrp.1 hrp.2.2
  have hboot : InstallsOn (some g) k s k.mkfsVfat (bootPart s arg) s.boot ↔
      (s.boot.source = true → s.boot.accepts = true) := installsOn_iff_of_ordinary hbp hvfat hb hgb
  have hrootfs : InstallsOn (some g) k s k.mkfsExt3 (rootfsPart s arg) s.rootfs ↔
      (s.rootfs.source = true → s.rootfs.accepts = true) :=
    installsOn_iff_of_ordinary hrp hext3 hr hgr
  rw [← hboot, ← hrootfs]
  constructor
  · intro h
    refine ⟨fun m hm => ?_, hgiven ▸ h.boot, hgiven ▸ h.rootfs⟩
    obtain ⟨d₀, hd₀, hm⟩ := h.listed m hm
    cases hgiven.symm.trans hd₀
    exact hm
  · rintro ⟨hlisted, hboot, hrootfs⟩
    refine ⟨?_, ?_, ?_, hgiven ▸ hboot, hgiven ▸ hrootfs⟩ <;> rw [hgiven]
    · exact fun m hm => ⟨g, rfl, hlisted m hm⟩
    · rw [hof, hdd]
      exact leadsOn_of_block hstart hself
    · rw [hwords, hsfdisk]
      exact leadsOn_of_block hpart hself

end

def soleTools : Tools where
  dd := fun
    | ['o' :: 'f' :: '=' :: w] => if w = [] then none else some w
    | _ => none
  sfdisk := fun ws => if ws.length = 1 then ws.head? else none
  mkfsVfat := fun ws => if ws.length = 1 then ws.head? else none
  mkfsExt3 := fun ws => if ws.length = 1 then ws.head? else none
  mount := fun ws => if ws.length = 1 then ws.head? else none
  sole := by
    intro w hw _
    simp [hw.1]

/-- A build host with its `/home` mounted. -/
def buildHost : System where
  start _ := .missing false
  partitioned _ := .missing false
  installed _ := .missing false
  glob := noMatches
  mounts := [⟨⟨"sda".toList, some 2⟩, "/home".toList, false⟩]
  resolve w := some w
  file := noFiles
  lsblk ws := if ws = [] then "/home\n".toList else []
  escapes t := t
  boot := ⟨"/tmp/boot".toList, false, false⟩
  rootfs := ⟨"/tmp/rootfs".toList, false, false⟩

/-- Where `losetup` finds no loop device, `mksd-image.sh` passes an empty argument, and
`mksd-format.sh` unmounts the file systems of the host. -/
theorem not_confined_buildHost : imageArg buildHost [] = [] ∧
    .unmounted (.device ⟨"sda".toList, some 2⟩) ∈
        format soleTools buildHost (imageArg buildHost []) ∧
      ¬ Confined (given buildHost (imageArg buildHost []))
        (format soleTools buildHost (imageArg buildHost [])) := by
  have himage : imageArg buildHost [] = [] := by decide
  have hmem : .unmounted (.device ⟨"sda".toList, some 2⟩) ∈
      format soleTools buildHost (imageArg buildHost []) := by decide
  refine ⟨himage, hmem, fun h => ?_⟩
  rw [show given buildHost (imageArg buildHost []) = none from rfl, confined_none] at h
  rw [h] at hmem
  cases hmem

end ChronosUpdates.Mksd
