import ChronosUpdates.UpdateBackend.Protocol
import ChronosUpdates.Mkimage.Image

namespace ChronosUpdates.UpdateBackend
open Shell

/-- The number of KiB that `sfdisk` reports: its output is one decimal number. -/
def reported (out : Text) : Option ℕ :=
  match splitWords (substitute out) with
  | [w] => if w.all isDigit then some (digits w) else none
  | _ => none

def Present (p : Poll) : Prop := ∃ l ∈ lines p.lsDev, contains "mmcblk1".toList l = true

/-- `[ $(sfdisk -s /dev/mmcblk1) -lt 3730000 ]` -/
def saysTooSmall (p : Poll) : Bool :=
  check (p.names.expand (substitute p.sfdisk) ++ ["-lt".toList, "3730000".toList])

/-- A card of this many KiB has room for every image that `chronos-mkimage.sh` makes. -/
def HasRoom (size : ℕ) : Prop :=
  ∀ t imageName old, (Mkimage.imageContent t Mkimage.layout imageName old).length ≤ size * 1024

/-- The script calls a card good only if it has room for the image, and calls every card
below the threshold too small. -/
structure JudgesCard (usbChecked : Bool) (p : Poll) : Prop where
  good : .echo .topSDGood ∈ answer syscheckLine usbChecked p →
    ∃ size, reported p.sfdisk = some size ∧ HasRoom size
  tooSmall : Present p → ∀ size, reported p.sfdisk = some size → size < 3730000 →
    .echo .topSDTooSmall ∈ answer syscheckLine usbChecked p

theorem hasRoom_of_threshold {size : ℕ} (h : 3730000 ≤ size) : HasRoom size := by
  intro t imageName old
  calc (Mkimage.imageContent t Mkimage.layout imageName old).length
    _ = (Mkimage.PTABLE_SIZE + Mkimage.layout.bootpartSize + Mkimage.layout.rootfsSize) *
        PartitionTable.sectorSize := Mkimage.length_imageContent t (by decide) imageName old
    _ ≤ 3730000 * 1024 := by decide
    _ ≤ size * 1024 := Nat.mul_le_mul_right _ h

theorem exists_word_of_reported {out : Text} {size : ℕ} (h : reported out = some size) :
    ∃ w, splitWords (substitute out) = [w] ∧ w.all isDigit = true ∧ digits w = size := by
  unfold reported at h
  split at h
  · rename_i w hw
    obtain ⟨hd, hsize⟩ := Option.ite_none_right_eq_some.mp h
    exact ⟨w, hw, hd, Option.some.inj hsize⟩
  · cases h

/-- A reported number is compared with the threshold, unless it is too long for the shell. -/
theorem saysTooSmall_of_reported {p : Poll} {size : ℕ} (h : reported p.sfdisk = some size) :
    saysTooSmall p = decide (size < 3730000) := by
  obtain ⟨w, hw, hd, rfl⟩ := exists_word_of_reported h
  have hplain : IsPlain w := plain_of_mem_splitWords (hw ▸ List.mem_cons_self)
  have hwords : p.names.expand (substitute p.sfdisk) = [w] := by
    rw [Glob.expand, hw, List.flatMap_singleton, p.names.literal w (isLiteral_of_digits hd)]
  have hcheck : ∀ v, check ([w] ++ ["-lt".toList, v]) =
      (compareInts (fun m n => m < n) w v == some true) := fun _ => rfl
  have hthreshold : parseInt "3730000".toList = some 3730000 := by decide
  rw [saysTooSmall, hwords, hcheck, compareInts, parseInt_of_digits hplain.1 hd, hthreshold]
  by_cases hlong : digits w < 2 ^ 63
  · have hcast : ((digits w : ℤ) < 3730000) ↔ digits w < 3730000 := by omega
    rw [if_pos hlong]
    simp [hcast]
  · -- the test ends with an error, which counts as false
    have hlarge : ¬ digits w < 3730000 := by omega
    rw [if_neg hlong]
    simp [hlarge]

theorem present_iff (p : Poll) :
    Present p ↔ substitute (grep (contains "mmcblk1".toList) p.lsDev) ≠ [] := by
  have hpattern : ∀ l, contains "mmcblk1".toList l = true → ∃ c ∈ l, c ≠ '\n' := by
    intro l hl
    exact ⟨'m', (of_decide_eq_true hl).subset (by decide), by decide⟩
  rw [ne_eq, substitute_grep_eq_nil _ hpattern]
  simp [Present]

theorem echo_mem_answer {usb : Bool} {p : Poll} {m : Msg} (hstart : m ≠ .usbCheckStart)
    (hdone : m ≠ .usbCheckDone) : .echo m ∈ answer syscheckLine usb p ↔ m ∈ sysCheck p := by
  constructor
  · intro h
    rcases mem_answer h with h | ⟨m', hm, h⟩ | ⟨-, h⟩
    · cases h
    · cases h
      exact hm
    · simp [usbCheck, hstart, hdone] at h
  · intro h
    rw [answer, if_pos rfl]
    exact List.mem_cons_of_mem _ (List.mem_append_left _ (List.mem_map_of_mem h))

theorem sysCheck_of_present {p : Poll} (h : Present p) : ∃ brand,
    sysCheck p = [if saysTooSmall p then .topSDTooSmall else .topSDGood, brand] ∧
      (brand = .topSDVettedBrand ∨ brand = .topSDUnknownBrand) := by
  rw [present_iff] at h
  rw [sysCheck, if_neg h]
  refine ⟨_, rfl, ?_⟩
  split <;> simp

theorem sysCheck_of_not_present {p : Poll} (h : ¬ Present p) : sysCheck p = [.topSDMissing] := by
  rw [present_iff, not_not] at h
  exact if_pos h

theorem verdict_mem_sysCheck {p : Poll} {m : Msg} (hm : m = .topSDGood ∨ m = .topSDTooSmall) :
    m ∈ sysCheck p ↔ Present p ∧ m = if saysTooSmall p then .topSDTooSmall else .topSDGood := by
  by_cases hp : Present p
  · obtain ⟨brand, hs, hbrand⟩ := sysCheck_of_present hp
    have hne : m ≠ brand := by
      rcases hm with rfl | rfl <;> rcases hbrand with rfl | rfl <;> decide
    simp [hs, hp, hne]
  · have hne : m ≠ .topSDMissing := by
      rcases hm with rfl | rfl <;> decide
    simp [sysCheck_of_not_present hp, hp, hne]

theorem good_iff {usb : Bool} {p : Poll} : .echo .topSDGood ∈ answer syscheckLine usb p ↔
    Present p ∧ saysTooSmall p = false := by
  rw [echo_mem_answer (by decide) (by decide), verdict_mem_sysCheck (.inl rfl)]
  cases saysTooSmall p <;> simp

theorem tooSmall_iff {usb : Bool} {p : Poll} : .echo .topSDTooSmall ∈ answer syscheckLine usb p ↔
    Present p ∧ saysTooSmall p = true := by
  rw [echo_mem_answer (by decide) (by decide), verdict_mem_sysCheck (.inr rfl)]
  cases saysTooSmall p <;> simp

/-- The card is judged by its size, if and only if it is missing, or `sfdisk` reports a number
for it, or the test comes out true on what it prints instead. -/
theorem judgesCard_iff (usbChecked : Bool) (p : Poll) : JudgesCard usbChecked p ↔
    ¬ Present p ∨ (reported p.sfdisk).isSome = true ∨ saysTooSmall p = true := by
  constructor
  · intro h
    by_contra hnot
    simp only [not_or, not_not, Bool.not_eq_true] at hnot
    obtain ⟨hp, hnone, hs⟩ := hnot
    obtain ⟨size, hsize, -⟩ := h.good (good_iff.mpr ⟨hp, hs⟩)
    rw [hsize] at hnone
    cases hnone
  · -- no verdict at all, one by the reported number, or the careful one
    rintro (hp | hr | ht)
    · exact ⟨fun h => absurd (good_iff.mp h).1 hp, fun h => absurd h hp⟩
    · obtain ⟨size, hsize⟩ := Option.isSome_iff_exists.mp hr
      have htest := saysTooSmall_of_reported hsize
      constructor
      · intro h
        have hs := (good_iff.mp h).2
        rw [htest, decide_eq_false_iff_not, Nat.not_lt] at hs
        exact ⟨size, hsize, hasRoom_of_threshold hs⟩
      · intro hp size' hsize' hlt
        cases hsize.symm.trans hsize'
        exact tooSmall_iff.mpr ⟨hp, htest.trans (decide_eq_true hlt)⟩
    · constructor
      · intro h
        rw [(good_iff.mp h).2] at ht
        cases ht
      · exact fun hp _ _ _ => tooSmall_iff.mpr ⟨hp, ht⟩

/-- A card that `sfdisk` cannot read is called good. -/
def unreadableCard : Poll :=
  ⟨.line "Syscheck\n".toList, "mmcblk1\n".toList, [], "0x5344\n".toList, noMatches, []⟩

theorem not_judgesCard_unreadableCard : ¬ JudgesCard false unreadableCard := by
  intro h
  obtain ⟨size, hsize, -⟩ := h.good (by decide)
  cases hsize

end ChronosUpdates.UpdateBackend
