import ChronosUpdates.UpdateReal.Recovery

namespace ChronosUpdates.UpdateReal
open Shell Md5sum

section
variable {δ : Type*} [DecidableEq δ] (md5 : Bytes → δ) (untar : Bytes → Archive)

end

theorem Alike.mono {ms earlier : List (Path × Bytes)} {t t' : Tree} (h : Alike ms t t')
    (hsub : ms.map Prod.fst ⊆ earlier.map Prod.fst) : Alike earlier t t' := by
  intro p
  refine (h p).imp_right (And.imp_left ?_)
  rintro (hboot | hmember | hlogo | ⟨n, hp, hn, hmember, hdir⟩)
  · exact .inl hboot
  · exact .inr (.inl (hsub hmember))
  · exact .inr (.inr (.inl hlogo))
  · exact .inr (.inr (.inr ⟨n, hp, hn, hsub hmember, hdir⟩))

section
variable {δ : Type*} [DecidableEq δ] (md5 : Bytes → δ) {untar : Bytes → Archive}
  {earlier : List (Path × Bytes)} {c c' : Camera}

end

end ChronosUpdates.UpdateReal
