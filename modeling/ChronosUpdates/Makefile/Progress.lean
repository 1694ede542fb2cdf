import ChronosUpdates.Makefile.Schedule

namespace ChronosUpdates.Makefile
open Shell FileTree Runs

variable {γ : Type*}

/-- `zip` keeps the files that it is given, and those of an archive that it adds others to. -/
structure ZipKeeps (k : Tools γ) : Prop where
  create : ∀ fs, (fs.map Prod.fst).Nodup → k.unzip (k.zip none fs) = fs
  add : ∀ z fs, (fs.map Prod.fst).Nodup → (∀ e ∈ k.unzip z, ∀ f ∈ fs, e.1 ≠ f.1) →
    k.unzip (k.zip (some z) fs) = k.unzip z ++ fs

def listTools : Tools Content := { tools with md5sum := .archive }

theorem zipKeeps_listTools : ZipKeeps listTools where
  create := fun _ _ => rfl
  add := fun _ _ _ _ => rfl

def folder (k : Tools γ) (z : γ) : List (Path × γ) :=
  (k.unzip z).filter fun f => below camUpdateDir f.1

/-- The paths that `zip -r` puts into the package `out`. -/
def packed (out p : Path) : Bool := below camUpdateDir p && p != out

def visible (p : Path) : Bool := child camUpdateDir p && p != updateMd5sum

/-- The paths that the manifest of the package `out` lists. -/
def listed (out p : Path) : Bool := visible p && p != out

def Manifest (k : Tools γ) (q : Path → Bool) (t : Files γ) : Prop :=
  t.lookup updateMd5sum = some (k.md5sum (listing q t))

def Archived (k : Tools γ) (out : Path) (t : Files γ) : Prop :=
  ∃ z, t.lookup out = some z ∧ (k.unzip z).Perm (list (packed out) t)

theorem redirected_of_notMem (k : Tools γ) {out : Path} {fs : List (Path × γ)}
    (h : ∀ f ∈ fs, f.1 ≠ out) : redirected k out fs = fs := by
  have hid : ∀ f ∈ fs, (if f.1 = out then (out, k.md5sum (fs.takeWhile (·.1 ≠ out))) else f) = f :=
    fun f hf => if_neg (h f hf)
  rw [redirected, List.map_congr_left hid, List.map_id']

/-- What `md5sum camUpdate/*` writes over its own file. -/
def manifestOf (k : Tools γ) (t : Files γ) : γ :=
  k.md5sum (redirected k updateMd5sum (listing (child camUpdateDir) t))

theorem exec_md5sum {k : Tools γ} {version : Text} {t t' : Files γ}
    (h : exec k version t (.md5sum camUpdateDir updateMd5sum) = some t') :
    t' = t.insert updateMd5sum (manifestOf k t) := by
  obtain ⟨found, hfound, rfl⟩ := Option.map_eq_some_iff.mp h
  unfold expandAll at hfound
  split at hfound
  · cases hfound
  · cases hfound
    rfl

/-- Without an old manifest the new one lists the visible files. -/
theorem manifestOf_eq {k : Tools γ} {t : Files γ} (h : t.lookup updateMd5sum = none) :
    manifestOf k t = k.md5sum (listing visible t) := by
  have hlisting : listing (child camUpdateDir) t = listing visible t := by
    apply listing_congr
    intro p c
    by_cases hp : p = updateMd5sum
    · rw [hp, h]
      simp
    · simp [visible, hp]
  rw [manifestOf, hlisting, redirected_of_notMem]
  intro f hf hp
  have hvisible : visible f.1 = true := (mem_list.mp ((perm_byName _).mem_iff.mp hf)).1
  rw [hp] at hvisible
  exact absurd hvisible (by decide)

theorem Manifest.congr {k : Tools γ} {q q' : Path → Bool} {t t' : Files γ} (h : Manifest k q t)
    (hm : t'.lookup updateMd5sum = t.lookup updateMd5sum)
    (hq : ∀ p c, q' p = true ∧ t'.lookup p = some c ↔ q p = true ∧ t.lookup p = some c) :
    Manifest k q' t' := by
  unfold Manifest at h ⊢
  rw [hm, h, listing_congr hq]

theorem manifest_visible {k : Tools γ} {t : Files γ} (h : t.lookup updateMd5sum = none) :
    Manifest k visible (t.insert updateMd5sum (manifestOf k t)) := by
  unfold Manifest
  rw [AList.lookup_insert, manifestOf_eq h]
  congr 2
  apply listing_congr
  intro p c
  by_cases hp : p = updateMd5sum
  · have hno : visible updateMd5sum = false := by decide
    simp [hp, hno]
  · rw [AList.lookup_insert_ne hp]

theorem packed_insert (out : Path) (t : Files γ) (z : γ) :
    (list (packed out) (t.insert out z)).Perm (list (packed out) t) := by
  refine list_perm (nodup_names_list (packed out) t) fun f => ?_
  rw [mem_list]
  by_cases hf : f.1 = out
  · simp [packed, hf]
  · rw [AList.lookup_insert_ne hf]

theorem below_of_perm_packed {fs : List (Path × γ)} {out : Path} {t : Files γ}
    (h : fs.Perm (list (packed out) t)) : ∀ f ∈ fs, below camUpdateDir f.1 = true := by
  intro f hf
  have hpacked := (mem_list.mp (h.mem_iff.mp hf)).1
  exact (Bool.and_eq_true_iff.mp hpacked).1

theorem exec_zip {k : Tools γ} (hk : ZipKeeps k) {version : Text} {t t' : Files γ} {out : Path}
    (hout : t.lookup out = none) (h : exec k version t (.zip out camUpdateDir) = some t') :
    Archived k out t' ∧ ∃ z, t' = t.insert out z := by
  simp only [exec] at h
  split at h
  · cases h
  · cases h
    have hcontent : k.unzip (k.zip (t.lookup out) (list (packed out) t)) = list (packed out) t := by
      rw [hout, hk.create _ (nodup_names_list (packed out) t)]
    refine ⟨⟨_, AList.lookup_insert t, ?_⟩, _, rfl⟩
    exact (List.Perm.of_eq hcontent).trans (packed_insert out t _).symm

theorem exec_zipJunkPaths {k : Tools γ} (hk : ZipKeeps k) {version : Text} {t t' : Files γ}
    {out : Path} (hout : Archived k out t)
    (h : exec k version t (.zipJunkPaths out docFiles) = some t') :
    ∃ z, t' = t.insert out z ∧ (folder k z).Perm (list (packed out) t') := by
  obtain ⟨found, hfound, rfl⟩ := Option.map_eq_some_iff.mp h
  obtain ⟨z, hz, hunzip⟩ := hout
  have hnames : (found.map fun f => (into [] f.1, f.2)).map Prod.fst = docFiles.map (into []) := by
    rw [List.map_map, ← (readAll_spec hfound).1, List.map_map]
    rfl
  have hdocs : ∀ f ∈ found.map (fun f => (into [] f.1, f.2)), below camUpdateDir f.1 = false := by
    intro f hf
    have hmem : f.1 ∈ docFiles.map (into []) := hnames ▸ List.mem_map_of_mem hf
    exact (by decide : ∀ p ∈ docFiles.map (into []), below camUpdateDir p = false) f.1 hmem
  have hbelow : ∀ e ∈ k.unzip z, below camUpdateDir e.1 = true := below_of_perm_packed hunzip
  have hclash : ∀ e ∈ k.unzip z, ∀ f ∈ found.map (fun f => (into [] f.1, f.2)), e.1 ≠ f.1 := by
    intro e he f hf heq
    have hb := hbelow e he
    rw [heq, hdocs f hf] at hb
    cases hb
  have hadd := hk.add z _ (hnames ▸ by decide) hclash
  refine ⟨_, rfl, ?_⟩
  rw [hz, folder, hadd, List.filter_append, List.filter_eq_self.mpr hbelow,
    List.filter_eq_nil_iff.mpr fun f hf => by simp [hdocs f hf], List.append_nil]
  exact hunzip.trans (packed_insert out t _).symm

/-- By the lines done of the manifest and of the package. -/
def zipAssertion (k : Tools γ) (name : Path) : ℕ → ℕ → Files γ → Prop
  | 1, 0, t => t.lookup updateMd5sum = none
  | 2, 0, t => Manifest k visible t
  | 2, 1, t => Manifest k (listed name) t ∧ t.lookup name = none
  | 2, 2, t => Manifest k (listed name) t ∧ Archived k name t
  | 2, 3, t => Manifest k (listed name) t
  | _, _, _ => True

def ZipProgress (k : Tools γ) (name : { p : Path // isZip p = true }) (s : Session γ) : Prop :=
  s.goal = .zip name → s.failed .updateMd5sum = false → s.failed (.zip name) = false →
    zipAssertion k name.1 (s.done .updateMd5sum) (s.done (.zip name)) s.tree

theorem ne_updateMd5sum (name : { p : Path // isZip p = true }) : updateMd5sum ≠ name.1 := by
  intro h
  have hzip := name.2
  rw [← h] at hzip
  exact absurd hzip (by decide)

theorem manifest_erase {k : Tools γ} {t : Files γ} {out : Path} (hm : Manifest k visible t)
    (hout : updateMd5sum ≠ out) (h : child camUpdateDir out = true → t.lookup out = none) :
    Manifest k (listed out) (t.erase out) := by
  refine hm.congr (AList.lookup_erase_ne hout) fun p c => ?_
  by_cases hp : p = out
  · subst hp
    have hnot : ¬ (visible p = true ∧ t.lookup p = some c) := by
      rintro ⟨hv, hc⟩
      rw [h (Bool.and_eq_true_iff.mp hv).1] at hc
      cases hc
    simpa [listed] using hnot
  · rw [AList.lookup_erase_ne hp]
    simp [listed, hp]

theorem Manifest.insert {k : Tools γ} {t : Files γ} {out : Path} (hm : Manifest k (listed out) t)
    (hout : updateMd5sum ≠ out) (z : γ) : Manifest k (listed out) (t.insert out z) := by
  refine hm.congr (AList.lookup_insert_ne hout) fun p c => ?_
  by_cases hp : p = out
  · simp [hp, listed]
  · rw [AList.lookup_insert_ne hp]

theorem zipAssertion_line {k : Tools γ} (hk : ZipKeeps k) {version : Text} {t t' : Files γ}
    {name : { p : Path // isZip p = true }} {n : ℕ} {l : Line}
    (hl : (recipe version (.zip name))[n]? = some l) (he : exec k version t l = some t')
    (ha : n = 0 → child camUpdateDir name.1 = true → t.lookup name.1 = none)
    (h : zipAssertion k name.1 2 n t) : zipAssertion k name.1 2 (n + 1) t' := by
  have hne := ne_updateMd5sum name
  match n, hl with
  | 0, rfl =>
    -- `rm -f $@` behind `md5sum`: the one line that can make the manifest wrong
    simp only [exec] at he
    split at he
    · cases he
      exact ⟨manifest_erase h hne (ha rfl), AList.lookup_erase name.1 t⟩
    · cases he
  | 1, rfl =>
    obtain ⟨hm, hnone⟩ := h
    obtain ⟨harchived, z, rfl⟩ := exec_zip hk hnone he
    exact ⟨hm.insert hne z, harchived⟩
  | 2, rfl =>
    obtain ⟨hm, harchived⟩ := h
    obtain ⟨z, rfl, -⟩ := exec_zipJunkPaths hk harchived he
    exact hm.insert hne z

theorem folder_completed_zip {k : Tools γ} (hk : ZipKeeps k) {s : Session γ} {t : Files γ}
    {name : { p : Path // isZip p = true }} {l : Line} {x : Package γ}
    (hl : (recipe s.version (.zip name))[s.done (.zip name)]? = some l)
    (he : exec k s.version s.tree l = some t)
    (h : zipAssertion k name.1 2 (s.done (.zip name)) s.tree) (hx : x ∈ completed s (.zip name) t) :
    (folder k x.content).Perm (list (packed name.1) t) := by
  obtain ⟨hlast, ⟨out, hout, hz⟩, -⟩ := mem_completed hx
  have hdone : s.done (.zip name) = 2 := Nat.succ.inj hlast
  rw [hdone] at h hl
  cases hl
  cases hout
  obtain ⟨z, rfl, hfolder⟩ := exec_zipJunkPaths hk h.2 he
  rw [AList.lookup_insert] at hz
  cases hz
  exact hfolder

theorem zipAssertion_manifest {k : Tools γ} {version : Text} {t t' : Files γ} {name : Path} {n : ℕ}
    {l : Line} (hl : (recipe version .updateMd5sum)[n]? = some l)
    (he : exec k version t l = some t') (h : zipAssertion k name n 0 t) :
    zipAssertion k name (n + 1) 0 t' := by
  match n, hl with
  | 0, rfl =>
    simp only [exec] at he
    split at he
    · cases he
      exact AList.lookup_erase updateMd5sum t
    · cases he
  | 1, rfl =>
    rw [exec_md5sum he]
    exact manifest_visible h

theorem needed_zip {goal target : Target} {name : { p : Path // isZip p = true }}
    (h : Needed goal target) (hgoal : goal = .zip name) :
    target = .zip name ∨ target = .updateMd5sum ∨ target = .camUpdate ∨ target = .updateTgz := by
  subst hgoal
  rcases h with rfl | h
  · exact .inl rfl
  · simp only [prerequisites, List.mem_cons, List.not_mem_nil, or_false] at h
    tauto

/-- While the copies or the archive of the root file system are made, nothing else has begun. -/
theorem zipAssertion_early {s : Session γ} (ho : Ordered s) {target : Target} {l : Line}
    (hl : (recipe s.version target)[s.done target]? = some l)
    (ht : target = .camUpdate ∨ target = .updateTgz) (k : Tools γ)
    (name : { p : Path // isZip p = true }) (t : Files γ) :
    zipAssertion k name.1 (s.done .updateMd5sum) (s.done (.zip name)) t := by
  have hmanifest : s.done .updateMd5sum = 0 := by
    rcases ht with rfl | rfl <;> exact ho.done_eq_zero hl (by simp [prerequisites])
  have hzip : s.done (.zip name) = 0 := by
    rcases ht with rfl | rfl <;> exact ho.done_eq_zero hl (by simp [prerequisites])
  rw [hmanifest, hzip]
  trivial

/-- A package that is begun is not to replace a file that the manifest lists. -/
theorem zipProgress_next {k : Tools γ} (hk : ZipKeeps k) {s s' : Session γ} {e : Event γ}
    (ho : Ordered s) {name : { p : Path // isZip p = true }} (hs : ZipProgress k name s)
    (ha : e = .line (.zip name) → s.done (.zip name) = 0 → child camUpdateDir name.1 = true →
      s.tree.lookup name.1 = none) (h : next k s e = some s') : ZipProgress k name s' := by
  intro hgoal hm hz
  cases e with
  | make version goal =>
    rw [next_make h]
    trivial
  | line target =>
    obtain ⟨hready, l, t, hl, he, rfl⟩ := next_line h
    have hprev := hs hgoal hm hz
    rcases needed_zip hready.1 hgoal with rfl | rfl | ht
    · -- the package waits for the whole manifest
      have hdone : s.done .updateMd5sum = 2 := hready.2.2.1 .updateMd5sum (by simp [prerequisites])
      rw [done_advance_self, done_advance_of_ne (by simp), hdone]
      rw [hdone] at hprev
      exact zipAssertion_line hk hl he (ha rfl) hprev
    · -- while the manifest is made the package has not begun
      have hdone : s.done (.zip name) = 0 := ho.done_eq_zero hl (by simp [prerequisites])
      rw [done_advance_self, done_advance_of_ne (by simp), hdone]
      rw [hdone] at hprev
      exact zipAssertion_manifest hl he hprev
    · have hne : Target.updateMd5sum ≠ target ∧ Target.zip name ≠ target := by
        rcases ht with rfl | rfl <;> simp
      rw [done_advance_of_ne hne.1, done_advance_of_ne hne.2]
      exact zipAssertion_early ho hl ht k name t
  | fail target junk =>
    obtain ⟨hready, l, hl, rfl⟩ := next_fail h
    rcases needed_zip hready.1 hgoal with rfl | rfl | ht
    · rw [failed_abandon_self] at hz
      cases hz
    · rw [failed_abandon_self] at hm
      cases hm
    · exact zipAssertion_early ho hl ht k name _

end ChronosUpdates.Makefile
