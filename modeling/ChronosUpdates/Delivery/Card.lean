import ChronosUpdates.Delivery
import ChronosUpdates.Mkimage.Image
import ChronosUpdates.UpdateBackend.CardWrite

namespace ChronosUpdates.Delivery
open Shell Runs Md5sum
open FileTree (Path Files list mem_list)
open UpdateReal (Bytes)

variable {δ : Type*}

section
variable {k : Tools δ} {t : Files Bytes} {events : List (Makefile.Event Bytes)}
  {s : Makefile.Session Bytes} {x : Makefile.Package Bytes}

theorem holds_debian (hk : k.Fit)
    (h : run (Makefile.next k.build) (Makefile.idle t) events = some s) (hx : x ∈ s.packages)
    (hgoal : x.goal = .debian) (hown : x.before.lookup Makefile.ownManifest = none) :
    ∃ w image, Holds k w x.content ∧ x.before.lookup Makefile.debianImage = some image ∧
      w.lookup Makefile.stagedImage = some image := by
  obtain ⟨w, hw, hfolder⟩ := (judged_of_run hk h hx (.inl hgoal)).mpr (.inl hgoal)
  rw [hgoal] at hw
  have hunlisted : w.lookup Makefile.updateMd5sum = none := by
    by_contra hne
    refine (Makefile.debianStage_plain hw hne).2 rfl ?_
    rw [Makefile.lookup_sourceTree (by decide)]
    exact hown
  have hholds : Holds k w x.content :=
    ⟨hfolder, fun p hp => (Makefile.debianStage_plain hw hp).1, hunlisted⟩
  simp only [Makefile.stageOf, Makefile.debianStage, bind, Option.bind_eq_some_iff] at hw
  obtain ⟨found, -, more, -, image, himage, hw⟩ := hw
  rw [Makefile.lookup_sourceTree (by decide)] at himage
  refine ⟨w, image, hholds, himage, ?_⟩
  rw [← Option.some.inj hw]
  exact AList.lookup_insert _

/-- The package of `make debian` has the developer's image for the card, and the camera's check of
the package finds all of it intact. -/
theorem deliveredImage (hk : k.Fit)
    (h : run (Makefile.next k.build) (Makefile.idle t) events = some s) (hx : x ∈ s.packages)
    (hgoal : x.goal = .debian) (hown : x.before.lookup Makefile.ownManifest = none) :
    (∃ image, x.before.lookup Makefile.debianImage = some image ∧
        stick k x.content "camUpdate/debian.img.gz".toList = .readable image) ∧
      ∃ es, checked k (stick k x.content "camUpdate/update.md5sum".toList) = some es ∧
        Passes k x.content es := by
  obtain ⟨w, image, hholds, himage, hstaged⟩ := holds_debian hk h hx hgoal hown
  exact ⟨⟨image, himage, hholds.stick hstaged⟩, hholds.passes hk [] [] []⟩

end

def imageSources (image : Bytes) : Files Bytes :=
  FileTree.writeAll [(Makefile.debianImage, image),
    (Makefile.path ["update-to-debian", "update_backend.sh"], [4])] sources

def debianRun : List (Makefile.Event Bytes) :=
  .make "v1".toList .debian :: List.replicate 3 (.line .clean) ++ List.replicate 6 (.line .debian)

theorem exists_package {image : Bytes} (hrun : (run (Makefile.next packTools.build)
      (Makefile.idle (imageSources image)) debianRun).map
        (fun s => s.packages.map fun x => (x.goal, x.before)) =
          some [(.debian, imageSources image)]) : ∃ s x,
    run (Makefile.next packTools.build) (Makefile.idle (imageSources image)) debianRun = some s ∧
      x ∈ s.packages ∧ x.goal = .debian ∧ x.before = imageSources image := by
  obtain ⟨s, hs, hmap⟩ := Option.map_eq_some_iff.mp hrun
  obtain ⟨x, hpackages, hx⟩ := List.map_eq_singleton_iff.mp hmap
  obtain ⟨hgoal, hbefore⟩ : x.goal = .debian ∧ x.before = imageSources image := by
    simpa only [Prod.mk.injEq] using hx
  exact ⟨s, x, hs, hpackages ▸ List.mem_cons_self, hgoal, hbefore⟩

theorem deliveredImage_debianRun : ∃ s x,
    run (Makefile.next packTools.build) (Makefile.idle (imageSources [7])) debianRun = some s ∧
      x ∈ s.packages ∧
        stick packTools x.content "camUpdate/debian.img.gz".toList = .readable [7] := by
  obtain ⟨s, x, hs, hx, hgoal, hbefore⟩ := @exists_package [7] rfl
  have hown : x.before.lookup Makefile.ownManifest = none := by
    rw [hbefore]
    rfl
  obtain ⟨⟨image, himage, hstick⟩, -⟩ := deliveredImage fit_packTools hs hx hgoal hown
  rw [hbefore] at himage
  obtain rfl : [7] = image := Option.some.inj himage
  exact ⟨s, x, hs, hx, hstick⟩

end ChronosUpdates.Delivery
