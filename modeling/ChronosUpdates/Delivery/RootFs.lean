import ChronosUpdates.Delivery
import ChronosUpdates.UpdateReal.Recovery

namespace ChronosUpdates.Delivery
open Shell Runs Md5sum
open FileTree (Path Files list mem_list)
open UpdateReal (Bytes Camera rootfsDirs boot partition tiLogo)

variable {δ : Type*}

structure Unpacks (root : Files Bytes) (ms : List (UpdateReal.Path × Bytes)) : Prop where
  names : (ms.map Prod.fst).Nodup
  mem : ∀ p c, (p, c) ∈ ms ↔ root.lookup (rootfs :: p) = some c
  dirs : ∀ p ∈ ms.map Prod.fst, ∃ d ∈ rootfsDirs, ∃ q, p = d :: q

section
variable {root : Files Bytes} {ms : List (UpdateReal.Path × Bytes)} {t : UpdateReal.Tree}

theorem Unpacks.notMem (h : Unpacks root ms) {p : UpdateReal.Path}
    (hp : root.lookup (rootfs :: p) = none) : p ∉ ms.map Prod.fst := by
  intro hmem
  obtain ⟨m, hm, rfl⟩ := List.mem_map.mp hmem
  rw [(h.mem m.1 m.2).mp hm] at hp
  cases hp

theorem Unpacks.notMem_partition (h : Unpacks root ms) (q : UpdateReal.Path) :
    partition ++ q ∉ ms.map Prod.fst := by
  intro hmem
  obtain ⟨d, hd, r, hp⟩ := h.dirs _ hmem
  have hmedia : "media".toList = d := (List.cons.inj hp).1
  exact absurd (hmedia ▸ hd) (by decide)

theorem Unpacks.putMembers (h : Unpacks root ms) {p : UpdateReal.Path} {c : Bytes}
    (hp : (p, c) ∈ ms) : ms.foldl UpdateReal.putMember t p = .file c := by
  have hname : p ∈ ms.map Prod.fst := List.mem_map_of_mem (f := Prod.fst) hp
  rw [UpdateReal.putMembers_congr (t := fun _ => .absent) (.inl hname)]
  obtain ⟨c', hfile⟩ := UpdateReal.putMembers_of_mem (t := fun _ => .absent) hname
  rcases UpdateReal.putMembers_cases ms (fun _ => .absent) p with habsent | ⟨c'', hm, hput⟩
  · cases hfile.symm.trans habsent
  · obtain ⟨-, rfl⟩ := Prod.mk.inj (List.inj_on_of_nodup_map h.names hp hm rfl)
    exact hput

theorem Unpacks.readyToCopy (h : Unpacks root ms) {p : UpdateReal.Path} {c : Bytes}
    (hp : root.lookup (rootfs :: p) = some c) : UpdateReal.readyToCopy ms t p = .file c := by
  have hm : (p, c) ∈ ms := (h.mem p c).mpr hp
  rw [UpdateReal.readyToCopy_of_ne, h.putMembers hm]
  rintro rfl
  exact h.notMem_partition [tiLogo] (List.mem_map_of_mem (f := Prod.fst) hm)

theorem Unpacks.readyToCopy_boot (h : Unpacks root ms) {n : Text} {q : UpdateReal.Path}
    (hn : UpdateReal.visible n = true) (hp : root.lookup (rootfs :: boot :: n :: q) = none) :
    UpdateReal.readyToCopy ms t (boot :: n :: q) = .absent := by
  rw [UpdateReal.readyToCopy_of_ne (by simp [partition, boot]),
    UpdateReal.putMembers_of_not_mem (h.notMem hp)]
  simp [UpdateReal.removeBoot, UpdateReal.noFault, hn]

end

section
variable {k : Tools δ} {t : Files Bytes} {events : List (Makefile.Event Bytes)}
  {s : Makefile.Session Bytes} {x : Makefile.Package Bytes}

end

end ChronosUpdates.Delivery
