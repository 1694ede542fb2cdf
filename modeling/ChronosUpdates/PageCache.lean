import Mathlib.Logic.Function.Basic

namespace ChronosUpdates.PageCache

structure Cache (ι β : Type*) where
  disk : ι → β
  dirty : ι → Option β

namespace Cache

variable {ι β : Type*}

def clean (disk : ι → β) : Cache ι β := ⟨disk, fun _ => none⟩

/-- The content as the file system sees it. -/
def view (c : Cache ι β) (i : ι) : β := (c.dirty i).getD (c.disk i)

def flush (c : Cache ι β) : Cache ι β := clean c.view

@[simp] theorem view_flush (c : Cache ι β) : c.flush.view = c.view := rfl

theorem disk_eq_view {c : Cache ι β} {i : ι} (h : c.dirty i = none) : c.disk i = c.view i := by
  simp [view, h]

variable [DecidableEq ι]

def write (c : Cache ι β) (i : ι) (b : β) : Cache ι β :=
  { c with dirty := Function.update c.dirty i (some b) }

def writeBack (c : Cache ι β) (i : ι) : Cache ι β :=
  ⟨Function.update c.disk i (c.view i), Function.update c.dirty i none⟩

theorem view_write (c : Cache ι β) (i : ι) (b : β) :
    (c.write i b).view = Function.update c.view i b := by
  funext j
  by_cases h : j = i
  · subst h
    simp [view, write]
  · simp [view, write, h]

/-- Writing back changes what is on the disk, never what the file system sees. -/
@[simp] theorem view_writeBack (c : Cache ι β) (i : ι) : (c.writeBack i).view = c.view := by
  funext j
  by_cases h : j = i
  · subst h
    simp [view, writeBack]
  · simp [view, writeBack, h]

end Cache

end ChronosUpdates.PageCache
