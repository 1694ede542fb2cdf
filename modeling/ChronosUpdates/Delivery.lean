import ChronosUpdates.Makefile.Release
import ChronosUpdates.UpdateReal.Script
import Mathlib.Logic.Equiv.List

namespace ChronosUpdates.Delivery
open Shell Runs Md5sum
open FileTree (Path Files list mem_list)
open UpdateReal (Bytes Archive rootfsDirs boot)

variable {δ : Type*}

structure Tools (δ : Type*) where
  build : Makefile.Tools Bytes
  md5 : Bytes → δ
  untar : Bytes → Archive
  checkList : Bytes → List (Entry δ)

def shown (p : Path) : Text := List.intercalate ['/'] p

def rootfs : Text := "rootfs".toList

/-- All files of `rootfs/` are in the directories that an `update.tgz` can have. -/
def InRootfsDirs (fs : List (Path × Bytes)) : Prop :=
  ∀ f ∈ fs, ∃ d ∈ rootfsDirs, ∃ q, f.1 = rootfs :: d :: q

/-- The tools of the camera read what the ones of the repository write. -/
structure Tools.Fit (k : Tools δ) : Prop where
  zip : Makefile.ZipKeeps k.build
  tar : ∀ fs, InRootfsDirs fs →
    (k.untar (k.build.tar fs)).members.Perm (fs.map fun f => (f.1.tail, f.2))
  md5sum : ∀ fs, k.checkList (k.build.md5sum fs) = md5sum k.md5 (fs.map fun f => (shown f.1, f.2))

def stick (k : Tools δ) (z : Bytes) (n : Text) : FileState Bytes :=
  match (Makefile.folder k.build z).find? fun f => shown f.1 == n with
  | some f => .readable f.2
  | none => .missing

def checked (k : Tools δ) : FileState Bytes → Option (List (Entry δ))
  | .readable c => some (k.checkList c)
  | .missing | .unreadable => none

/-- What `update_real.sh` finds on the stick, mounted at `mnt`, and on the camera. -/
def onStick (k : Tools δ) (z : Bytes) (mnt : Text) (ps : List Text) (pcUtil : Text) :
    UpdateReal.Env δ where
  updatePartition := mnt
  manifest := checked k (stick k z (shown Makefile.updateMd5sum))
  disk := stick k z
  ps := ps
  pcUtil := pcUtil

structure PlainFolder (fs : List (Path × Bytes)) : Prop where
  names : (fs.map Prod.fst).Nodup
  plain : ∀ f ∈ fs, FileTree.child Makefile.camUpdateDir f.1 = true

theorem shown_injective {p q : Path} (hp : FileTree.child Makefile.camUpdateDir p = true)
    (hq : FileTree.child Makefile.camUpdateDir q = true) (h : shown p = shown q) : p = q := by
  obtain ⟨n, rfl, -⟩ := FileTree.child_iff.mp hp
  obtain ⟨m, rfl, -⟩ := FileTree.child_iff.mp hq
  have hshown : ∀ n, shown (Makefile.camUpdateDir ++ [n]) = "camUpdate/".toList ++ n := by
    intro n
    simp [shown, Makefile.camUpdateDir, Makefile.path, List.intercalate]
  rw [hshown, hshown] at h
  rw [List.append_cancel_left h]

theorem stick_of_mem {k : Tools δ} {z : Bytes} (hz : PlainFolder (Makefile.folder k.build z))
    {f : Path × Bytes} (hf : f ∈ Makefile.folder k.build z) :
    stick k z (shown f.1) = .readable f.2 := by
  have hsome : ((Makefile.folder k.build z).find? fun g => shown g.1 == shown f.1).isSome := by
    rw [List.find?_isSome]
    exact ⟨f, hf, beq_self_eq_true _⟩
  obtain ⟨g, hg⟩ := Option.isSome_iff_exists.mp hsome
  have hmem : g ∈ Makefile.folder k.build z := List.mem_of_find?_eq_some hg
  have hname : shown g.1 = shown f.1 := by simpa using List.find?_some hg
  have hfirst : g.1 = f.1 := shown_injective (hz.plain g hmem) (hz.plain f hf) hname
  obtain rfl : g = f := List.inj_on_of_nodup_map hz.names hmem hf hfirst
  rw [stick, hg]

structure Holds (k : Tools δ) (w : Files Bytes) (z : Bytes) : Prop where
  folder : (Makefile.folder k.build z).Perm
    (list (fun _ => true) (w.insert Makefile.updateMd5sum (Makefile.manifestOf k.build w)))
  plain : ∀ p, w.lookup p ≠ none → FileTree.child Makefile.camUpdateDir p = true
  unlisted : w.lookup Makefile.updateMd5sum = none

section
variable {k : Tools δ} {w : Files Bytes} {z : Bytes}

theorem Holds.plainFolder (h : Holds k w z) : PlainFolder (Makefile.folder k.build z) where
  names := (h.folder.map Prod.fst).nodup_iff.mpr (FileTree.nodup_names_list _ _)
  plain := by
    intro f hf
    have hlookup := (mem_list.mp (h.folder.mem_iff.mp hf)).2
    by_cases hu : f.1 = Makefile.updateMd5sum
    · exact hu ▸ by decide
    · rw [AList.lookup_insert_ne hu] at hlookup
      exact h.plain f.1 (by simp [hlookup])

theorem Holds.stick (h : Holds k w z) {p : Path} {c : Bytes} (hp : w.lookup p = some c) :
    stick k z (shown p) = .readable c := by
  have hne : p ≠ Makefile.updateMd5sum := by
    rintro rfl
    rw [h.unlisted] at hp
    cases hp
  have hmem : (p, c) ∈ Makefile.folder k.build z := by
    rw [h.folder.mem_iff, mem_list, AList.lookup_insert_ne hne]
    exact ⟨rfl, hp⟩
  exact stick_of_mem h.plainFolder hmem

theorem Holds.manifest (h : Holds k w z) (hk : k.Fit) (mnt : Text) (ps : List Text)
    (pcUtil : Text) :
    (onStick k z mnt ps pcUtil).manifest = some (md5sum k.md5
      ((FileTree.listing Makefile.visible w).map fun f => (shown f.1, f.2))) := by
  have hmem : (Makefile.updateMd5sum, Makefile.manifestOf k.build w) ∈
      Makefile.folder k.build z := by
    rw [h.folder.mem_iff, mem_list, AList.lookup_insert]
    exact ⟨rfl, rfl⟩
  rw [onStick, stick_of_mem h.plainFolder hmem, checked, Makefile.manifestOf_eq h.unlisted,
    hk.md5sum]

/-- The manifest on the stick lists every other file of the folder, and `md5sum -c` finds all of
them intact. -/
structure Passes (k : Tools δ) (z : Bytes) (es : List (Entry δ)) : Prop where
  intact : ∀ e ∈ es, Intact k.md5 (Delivery.stick k z) e
  complete : ∀ f ∈ Makefile.folder k.build z, f.1 ≠ Makefile.updateMd5sum →
    shown f.1 ∈ es.map Entry.name

theorem Holds.passes (h : Holds k w z) (hk : k.Fit) (mnt : Text) (ps : List Text) (pcUtil : Text) :
    ∃ es, (onStick k z mnt ps pcUtil).manifest = some es ∧ Passes k z es := by
  refine ⟨_, h.manifest hk mnt ps pcUtil, fun e he => ?_, fun f hf hne => ?_⟩
  · simp only [md5sum, List.map_map, List.mem_map] at he
    obtain ⟨f, hf, rfl⟩ := he
    have hlookup := (mem_list.mp ((FileTree.perm_byName _).mem_iff.mp hf)).2
    exact ⟨f.2, h.stick hlookup, rfl⟩
  · have hlookup := (mem_list.mp (h.folder.mem_iff.mp hf)).2
    rw [AList.lookup_insert_ne hne] at hlookup
    have hvisible : Makefile.visible f.1 = true := by
      rw [Makefile.visible, Bool.and_eq_true, bne_iff_ne]
      exact ⟨h.plain f.1 (by simp [hlookup]), hne⟩
    have hlisted : f ∈ FileTree.listing Makefile.visible w :=
      (FileTree.perm_byName _).mem_iff.mpr (mem_list.mpr ⟨hvisible, hlookup⟩)
    simp only [md5sum, List.map_map, List.mem_map]
    exact ⟨f, hlisted, rfl⟩

end

section
variable {k : Tools δ} {t : Files Bytes} {events : List (Makefile.Event Bytes)}
  {s : Makefile.Session Bytes} {x : Makefile.Package Bytes}

theorem judged_of_run (hk : k.Fit)
    (h : run (Makefile.next k.build) (Makefile.idle t) events = some s) (hx : x ∈ s.packages) :
    Makefile.Judged k.build x := by
  have hstart : Makefile.Traced k.build (Makefile.idle t) ∧
      ∀ x ∈ (Makefile.idle t).packages, Makefile.Judged k.build x :=
    ⟨Makefile.traced_idle k.build t, fun _ hx => (nomatch hx)⟩
  have hstep := fun s e s' (hs : Makefile.Traced k.build s ∧
      ∀ x ∈ s.packages, Makefile.Judged k.build x) (h : Makefile.next k.build s e = some s') =>
    And.intro (Makefile.traced_next hk.zip hs.1 h) (Makefile.judged_next hk.zip hs.1 hs.2 h)
  exact (run_preserves (Makefile.next k.build) hstep hstart h).2 x hx

end

instance encodableChar : Encodable Char := .ofLeftInverse Char.toNat Char.ofNat Char.ofNat_toNat

instance encodableUInt8 : Encodable UInt8 :=
  .ofLeftInverse UInt8.toNat UInt8.ofNat fun _ => UInt8.ofNat_toNat

def pack (fs : List (Path × Bytes)) : Bytes := List.replicate (Encodable.encode fs) 0

def unpack (c : Bytes) : List (Path × Bytes) := (Encodable.decode c.length).getD []

@[simp] theorem unpack_pack (fs : List (Path × Bytes)) : unpack (pack fs) = fs := by
  simp [unpack, pack]

def packTools : Tools Bytes where
  build :=
    { text := fun t => t.map fun c => .ofNat c.toNat
      symlink := fun p => pack [(p, [])]
      tar := pack
      md5sum := pack
      zip := fun z fs => pack ((z.map unpack).getD [] ++ fs)
      unzip := unpack }
  md5 := id
  untar := fun c =>
    { members := ((unpack c).map fun f => (f.1.tail, f.2)).filter fun m =>
        ∃ d ∈ rootfsDirs, m.1.head? = some d
      below_rootfs := fun m hm => by simpa using (List.mem_filter.mp hm).2 }
  checkList := fun c => md5sum id ((unpack c).map fun f => (shown f.1, f.2))

theorem fit_packTools : packTools.Fit where
  zip := by
    constructor
    · intro fs _
      simp [packTools]
    · intro z fs _ _
      simp [packTools]
  tar := by
    intro fs hfs
    have hdirs : ∀ m ∈ fs.map fun f => (f.1.tail, f.2), ∃ d ∈ rootfsDirs, m.1.head? = some d := by
      intro m hm
      obtain ⟨f, hf, rfl⟩ := List.mem_map.mp hm
      obtain ⟨d, hd, q, hpath⟩ := hfs f hf
      exact ⟨d, hd, by rw [hpath]; rfl⟩
    simp only [packTools, unpack_pack]
    rw [List.filter_eq_self.mpr fun m hm => by simpa using hdirs m hm]
  md5sum := by
    intro fs
    simp [packTools]

def sources : Files Bytes :=
  FileTree.writeAll (([rootfs, boot, "uImage".toList], [1, 2, 3]) ::
    (Makefile.distFiles ++ Makefile.docFiles).map fun p => (p, [0])) ∅

end ChronosUpdates.Delivery
