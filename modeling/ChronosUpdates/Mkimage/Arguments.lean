import ChronosUpdates.Debootstrap

namespace ChronosUpdates.Mkimage
open Shell Debootstrap

def rootfsMount : Word := "/media/chronos-mkimage-rootfs".toList

def bootpartMount : Word := "/media/chronos-mkimage-bootpart".toList

/-- The machine that builds images, with `pmount` or without. None of the names in its
working directory has blanks. -/
structure BuildHost extends Host where
  hasPmount : Bool
  cwd : Glob
  cwd_plain : ∀ w, IsPlain w → ∀ v ∈ cwd.names w, IsPlain v

/-- The words that the forwarded arguments expand to. -/
def forwarded (h : BuildHost) (args : List Word) : List Word :=
  args.dropLast.flatMap h.cwd.expand

def ownOptions : List Word := ["-d".toList, rootfsMount, "-b".toList, bootpartMount]

/-- The call of `chronos-debootstrap.sh`: its exit status and run of `multistrap`. -/
def bootstrap (h : BuildHost) (args : List Word) : ℕ × Option Call :=
  debootstrap h.toHost (forwarded h args ++ ownOptions)

end ChronosUpdates.Mkimage
