import ChronosUpdates.UpdateBackend.Protocol

namespace ChronosUpdates.UpdateBackend
open Shell MountStack

/-- A block device of the camera: `/dev/mmcblk1` or one of its partitions, or another. -/
inductive Device
  | card (partition : Option ℕ)
  | other (name : Text)
deriving DecidableEq, Repr

def Device.OnCard : Device → Prop
  | .card _ => True
  | .other _ => False

/-- The mounted file systems, and the device that holds the running package. -/
structure Camera where
  mounts : Table Device Text
  package : Device

def mountsAfter (t : Table Device Text) : List Act → Table Device Text
  | [] => t
  | .umount names :: as => mountsAfter (umountAll names t) as
  | _ :: as => mountsAfter t as

/-- The script starts `dd` only on a card of which nothing is mounted and that does not
hold the package. -/
def WritesFreeCard (env : Env) (c : Camera) (polls : List Poll) : Prop :=
  ∀ pre post, trace env polls = pre ++ .dd :: post →
    (∀ m ∈ mountsAfter c.mounts pre, ¬ m.device.OnCard) ∧ ¬ c.package.OnCard

/-- Each file system of the card is the visible and only one of the card at a mount point
that `/media/mmcblk1*` names, and is not busy. -/
def Releasable (names : List Text) (t : Table Device Text) : Prop :=
  ∀ m ∈ t, m.device.OnCard → m.target ∈ names ∧ m.busy = false ∧
    ∃ covered, stack t m.target = m :: covered ∧ ∀ k ∈ covered, ¬ k.device.OnCard

theorem cardNames_nodup {media : List Word} (h : media.Nodup) : (cardNames media).Nodup := by
  simp only [cardNames]
  split
  · exact List.nodup_singleton _
  · exact (h.filter _).map (List.append_right_injective _)

theorem mountsAfter_append (t : Table Device Text) (as bs : List Act) :
    mountsAfter t (as ++ bs) = mountsAfter (mountsAfter t as) bs := by
  induction as generalizing t with
  | nil => rfl
  | cons a as ih => cases a <;> exact ih _

theorem mountsAfter_of_no_umount (t : Table Device Text) {as : List Act}
    (h : ∀ names, .umount names ∉ as) : mountsAfter t as = t := by
  induction as with
  | nil => rfl
  | cons a as ih =>
    have has := ih fun names hm => h names (List.mem_cons_of_mem _ hm)
    cases a with
    | umount names => exact absurd List.mem_cons_self (h names)
    | _ => exact has

theorem mountsAfter_before (t : Table Device Text) {cmds : List Act} (h : ∀ a ∈ cmds, a.Early)
    (names : List Text) (fw : List Pmic.Act) :
    mountsAfter t (cmds ++ .umount names :: fw.map .pmic) = umountAll names t := by
  rw [mountsAfter_append, mountsAfter_of_no_umount t fun names hm => (h _ hm).elim]
  show mountsAfter (umountAll names t) (fw.map .pmic) = umountAll names t
  refine mountsAfter_of_no_umount _ fun names hm => ?_
  obtain ⟨b, -, hb⟩ := List.mem_map.mp hm
  cases hb

/-- The only safeguard of the write is the `umount` of the mount points that are named
after the card: it suffices for the cards of which nothing else is mounted. -/
theorem writesFreeCard_iff (env : Env) (c : Camera) (polls : List Poll) :
    WritesFreeCard env c polls ↔ (∀ p ∈ polls, ¬ IsLine startLine p) ∨
      (Releasable (cardNames env.media) c.mounts ∧ ¬ c.package.OnCard) := by
  rcases exists_first_start polls with hno | ⟨pre, p, post, rfl, hpre, hp⟩
  · refine iff_of_true (fun pre post h => ?_) (.inl hno)
    exact absurd rfl (trace_no_write env hno .dd (by simp [h])).1
  · obtain ⟨cmds, fw, htrace, -, hearly⟩ := trace_write env post hpre hp
    have hbefore := before_dd hearly (cardNames env.media) fw
    have hmounts := mountsAfter_before c.mounts hearly (cardNames env.media) fw
    set before := cmds ++ .umount (cardNames env.media) :: fw.map .pmic
    have hreleases := umountAll_releases (cardNames_nodup env.media_nodup) c.mounts
      fun m => m.device.OnCard
    constructor
    · intro h
      obtain ⟨hfree, hpackage⟩ := h before _ htrace
      rw [hmounts] at hfree
      exact .inr ⟨hreleases.mp hfree, hpackage⟩
    · rintro (h | ⟨hr, hpackage⟩)
      · exact absurd hp (h p (by simp))
      · intro pre' post' h
        -- `dd` is started once, so this is the place
        have heq := (List.append_cons_inj_of_notMem (fun hm => (hbefore _ hm).1 rfl)
          (dd_notMem_afterDd env post)).mp (htrace.symm.trans h)
        rw [← heq.1, hmounts]
        exact ⟨hreleases.mpr hr, hpackage⟩

/-- The package runs from the card itself, whose partition its directory keeps busy. -/
def runningFromCard : Camera where
  mounts := [⟨.card (some 1), "/media/mmcblk1p1".toList, true⟩]
  package := .card (some 1)

theorem not_writesFreeCard_runningFromCard :
    ¬ WritesFreeCard { usbStick with pwd := "/media/mmcblk1p1".toList } runningFromCard
      session := by
  intro h
  have hsplit : ∃ pre post, trace { usbStick with pwd := "/media/mmcblk1p1".toList } session =
      pre ++ .dd :: post := List.append_of_mem (by decide)
  obtain ⟨pre, post, hsplit⟩ := hsplit
  exact (h pre post hsplit).2 trivial

end ChronosUpdates.UpdateBackend
