import ChronosUpdates.Makefile.Stage

namespace ChronosUpdates.Makefile
open Shell FileTree Runs

variable {γ : Type*}

/-- The manifest lists every other file of the folder once, as it was zipped, and nothing else. -/
def Covered (k : Tools γ) (z : γ) : Prop :=
  ((folder k z).map Prod.fst).Nodup ∧ ∃ l, (folder k z).Perm ((updateMd5sum, k.md5sum l) :: l)

/-- Every file to be packed is one that `camUpdate/*` names. -/
def Plain (out : Path) (t : Files γ) : Prop :=
  ∀ p, packed out p = true → t.lookup p ≠ none → child camUpdateDir p = true

/-- A package is begun when all other files of `camUpdate/` are plain ones and no visible file is
in its place, and `debian` is run when the sources bring no manifest. -/
def Tidy (s : Session γ) : Event γ → Prop
  | .line (.zip name) =>
    s.done (.zip name) = 0 → Plain name.1 s.tree ∧
      (child camUpdateDir name.1 = true → s.tree.lookup name.1 = none)
  | .line .debian => s.tree.lookup ownManifest = none
  | _ => True

theorem covered_of_plain {k : Tools γ} {out : Path} {t : Files γ} {z : γ}
    (hfolder : (folder k z).Perm (list (packed out) t)) (hm : Manifest k (listed out) t)
    (hplain : Plain out t) (hout : updateMd5sum ≠ out) : Covered k z := by
  have hpacked : packed out updateMd5sum = true := by
    rw [packed, Bool.and_eq_true, bne_iff_ne]
    exact ⟨by decide, hout⟩
  have hnames : (((updateMd5sum, k.md5sum (listing (listed out) t)) ::
      listing (listed out) t).map Prod.fst).Nodup := by
    have hperm := (perm_byName (list (listed out) t)).map Prod.fst
    refine List.nodup_cons.mpr ⟨fun hmem => ?_, hperm.nodup_iff.mpr (nodup_names_list _ t)⟩
    obtain ⟨f, hf, hname⟩ := List.mem_map.mp (hperm.mem_iff.mp hmem)
    have hlisted := (mem_list.mp hf).1
    rw [hname, listed, visible, bne_self_eq_false, Bool.and_false, Bool.false_and] at hlisted
    cases hlisted
  refine ⟨(hfolder.map Prod.fst).nodup_iff.mpr (nodup_names_list _ t), listing (listed out) t,
    hfolder.trans (list_perm hnames fun f => ?_)⟩
  rw [List.mem_cons, listing, (perm_byName _).mem_iff, mem_list]
  obtain ⟨p, c⟩ := f
  -- a packed file is the manifest or one that it lists; plainness gives the second
  constructor
  · rintro (heq | ⟨hl, hc⟩)
    · cases heq
      exact ⟨hpacked, hm⟩
    · simp only [listed, visible, Bool.and_eq_true] at hl
      exact ⟨Bool.and_eq_true_iff.mpr ⟨below_of_child hl.1.1, hl.2⟩, hc⟩
  · rintro ⟨hp, hc⟩
    by_cases hupdate : p = updateMd5sum
    · subst hupdate
      have hcontent : c = k.md5sum (listing (listed out) t) := Option.some.inj (hc.symm.trans hm)
      exact .inl (by rw [hcontent]; rfl)
    · have hchild := hplain p hp (by simp [hc])
      refine .inr ⟨?_, hc⟩
      simp [listed, visible, hchild, hupdate, (Bool.and_eq_true_iff.mp hp).2]

def PlainProgress (s : Session γ) : Prop :=
  ∀ name, s.goal = .zip name → s.done (.zip name) ≠ 0 → Plain name.1 s.tree

theorem Plain.frame {out : Path} {t t' : Files γ} (h : Plain out t)
    (ht : ∀ p, packed out p = true → t'.lookup p = t.lookup p) : Plain out t' :=
  fun p hp hne => h p hp (ht p hp ▸ hne)

theorem touches_zip {version : Text} {name : { p : Path // isZip p = true }} {l : Line} {p : Path}
    (hl : l ∈ recipe version (.zip name)) (hp : packed name.1 p = true) : touches l p = false := by
  by_contra h
  rcases writes_of_touches hl (by simpa using h) with hw | ⟨ht, -⟩
  · rw [List.mem_singleton.mp hw] at hp
    simp [packed] at hp
  · cases ht

theorem eq_zip_of_begun {s : Session γ} (ho : Ordered s) {target : Target} {l : Line}
    {name : { p : Path // isZip p = true }} (hready : Ready s target)
    (hl : (recipe s.version target)[s.done target]? = some l) (hgoal : s.goal = .zip name)
    (hdone : s.done (.zip name) ≠ 0) : target = .zip name := by
  rcases hready.1 with h | h
  · exact h.trans hgoal
  · rw [hgoal] at h
    exact absurd (ho.done_eq_zero hl h) hdone

theorem plainProgress_next {k : Tools γ} {s s' : Session γ} {e : Event γ} (ho : Ordered s)
    (hs : PlainProgress s) (ha : Tidy s e) (h : next k s e = some s') : PlainProgress s' := by
  intro name hgoal hdone
  cases e with
  | make version goal =>
    rw [next_make h] at hdone
    exact absurd rfl hdone
  | line target =>
    obtain ⟨hready, l, t, hl, he, rfl⟩ := next_line h
    have hplain : Plain name.1 s.tree ∧ target = .zip name := by
      by_cases h0 : s.done (.zip name) = 0
      · -- the package has just begun, so this was its first line
        have ht : target = .zip name := by
          by_contra hne
          rw [done_advance_of_ne (Ne.symm hne)] at hdone
          exact hdone h0
        subst ht
        exact ⟨(ha h0).1, rfl⟩
      · exact ⟨hs name hgoal h0, eq_zip_of_begun ho hready hl hgoal h0⟩
    obtain ⟨hplain, rfl⟩ := hplain
    exact hplain.frame fun p hp => exec_frame he (touches_zip (List.mem_of_getElem? hl) hp)
  | fail target junk =>
    obtain ⟨hready, l, hl, rfl⟩ := next_fail h
    obtain rfl := eq_zip_of_begun ho hready hl hgoal hdone
    have htouch : ∀ p, packed name.1 p = true → touches l p = false :=
      fun p hp => touches_zip (List.mem_of_getElem? hl) hp
    exact (hs name hgoal hdone).frame fun p hp => damage_frame (htouch p hp) junk s.tree

theorem covered_zip {k : Tools γ} (hk : ZipKeeps k) {s : Session γ} (ho : Ordered s)
    {name : { p : Path // isZip p = true }} (hz : ZipProgress k name s) (hp : PlainProgress s)
    {t : Files γ} {l : Line}
    (hready : Ready s (.zip name))
    (hl : (recipe s.version (.zip name))[s.done (.zip name)]? = some l)
    (he : exec k s.version s.tree l = some t) {x : Package γ} (hx : x ∈ completed s (.zip name) t) :
    Covered k x.content := by
  have hgoal : s.goal = .zip name := eq_goal_of_package hready.1 rfl
  have hlast : s.done (.zip name) = 2 := Nat.succ.inj (mem_completed hx).1
  have hmade : s.done .updateMd5sum = 2 := hready.2.2.1 .updateMd5sum (by simp [prerequisites])
  have h := hz hgoal (ho.succeeded .updateMd5sum hmade) hready.2.1
  rw [hmade] at h
  have hafter := zipAssertion_line hk hl he (by omega) h
  rw [hlast] at hafter
  have hplain : Plain name.1 t := (hp name hgoal (by omega)).frame fun p hp =>
    exec_frame he (touches_zip (List.mem_of_getElem? hl) hp)
  exact covered_of_plain (folder_completed_zip hk hl he h hx) hafter hplain (ne_updateMd5sum name)

theorem covered_debian {k : Tools γ} (hk : ZipKeeps k) {s : Session γ} (ho : Ordered s)
    (hout : Outside s) (hd : DebianProgress k s) {t : Files γ} {l : Line} (hready : Ready s .debian)
    (hl : (recipe s.version .debian)[s.done .debian]? = some l)
    (he : exec k s.version s.tree l = some t) (hown : s.tree.lookup ownManifest = none)
    {x : Package γ} (hx : x ∈ completed s .debian t) : Covered k x.content := by
  have hgoal : s.goal = .debian := eq_goal_of_package hready.1 rfl
  have hlast : s.done .debian = 5 := Nat.succ.inj (mem_completed hx).1
  have hmade : s.done .clean = 3 := hready.2.2.1 .clean (by simp [prerequisites])
  have h := hd hgoal (ho.succeeded .clean hmade) hready.2.1
  rw [hmade] at h
  have hsrc : SourcesKept (sourceTree s.before) (s.done .debian) s.tree := sourcesKept hout hgoal
  have hafter := stagedAfter_line hl he hsrc h.2
  rw [hlast] at hafter
  obtain ⟨w, hw, hstaged⟩ := hafter
  have hchild : ∀ p, w.lookup p ≠ none → child camUpdateDir p = true :=
    fun p hp => (debianStage_plain hw hp).1
  -- this recipe has no `rm -f`: an old manifest could come from `update-to-debian/` only
  have hnone : w.lookup updateMd5sum = none := by
    by_contra hne
    refine (debianStage_plain hw hne).2 rfl ?_
    rw [← hsrc ownManifest (by decide) fun e => absurd e (by decide)]
    exact hown
  have hplain : Plain debianZip t := by
    intro p hp hne
    rw [hstaged p (Bool.and_eq_true_iff.mp hp).1] at hne
    by_cases hu : p = updateMd5sum
    · exact hu ▸ by decide
    · rw [AList.lookup_insert_ne hu] at hne
      exact hchild p hne
  have hmanifest : Manifest k (listed debianZip) t := by
    have hlookup := hstaged updateMd5sum (by decide)
    rw [AList.lookup_insert, manifestOf_eq hnone] at hlookup
    rw [Manifest, hlookup]
    rw [listing_listed hstaged (by decide)]
  exact covered_of_plain (folder_completed_debian hk hl he h hx) hmanifest hplain (by decide)

structure Sound (k : Tools γ) (s : Session γ) : Prop where
  ordered : Ordered s
  outside : Outside s
  zip : ∀ name, ZipProgress k name s
  plain : PlainProgress s
  debian : DebianProgress k s
  covered : ∀ x ∈ s.packages, Covered k x.content

theorem covered_next {k : Tools γ} (hk : ZipKeeps k) {s s' : Session γ} {e : Event γ}
    (hs : Sound k s) (ha : Tidy s e) (h : next k s e = some s') :
    ∀ x ∈ s'.packages, Covered k x.content := by
  cases e with
  | make version goal =>
    rw [next_make h]
    exact hs.covered
  | line target =>
    obtain ⟨hready, l, t, hl, he, rfl⟩ := next_line h
    intro x hx
    rcases List.mem_append.mp hx with hx | hx
    · obtain ⟨-, ⟨out, hout, -⟩, -⟩ := mem_completed hx
      cases target with
      | zip name => exact covered_zip hk hs.ordered (hs.zip name) hs.plain hready hl he hx
      | debian => exact covered_debian hk hs.ordered hs.outside hs.debian hready hl he ha hx
      | _ => cases hout
    · exact hs.covered x hx
  | fail target junk =>
    obtain ⟨-, l, -, rfl⟩ := next_fail h
    exact hs.covered

theorem sound_next {k : Tools γ} (hk : ZipKeeps k) (s : Session γ) (e : Event γ) (s' : Session γ)
    (hs : Sound k s) (ha : Tidy s e) (h : next k s e = some s') : Sound k s' where
  ordered := ordered_next hs.ordered h
  outside := outside_next hs.outside h
  zip := by
    intro name
    refine zipProgress_next hk hs.ordered (hs.zip name) (fun he h0 hchild => ?_) h
    subst he
    exact (ha h0).2 hchild
  plain := plainProgress_next hs.ordered hs.plain ha h
  debian := debianProgress_next hs.ordered hs.outside hs.debian h
  covered := covered_next hk hs ha h

theorem sound_idle (k : Tools γ) (t : Files γ) : Sound k (idle t) where
  ordered := ordered_begin rfl
  outside := fun _ _ _ _ => rfl
  zip := fun _ hgoal => (nomatch hgoal)
  plain := fun _ hgoal => (nomatch hgoal)
  debian := fun hgoal => (nomatch hgoal)
  covered := by simp [idle]

/-- Any number of invocations, each with any order of its recipes and stopped anywhere, make only
packages with a complete manifest, when they are begun as described. -/
theorem covered_of_tidy_run {k : Tools γ} (hk : ZipKeeps k) (t : Files γ) {events : List (Event γ)}
    {s : Session γ} (hok : StepsMeet (next k) Tidy (idle t) events)
    (h : run (next k) (idle t) events = some s) : ∀ x ∈ s.packages, Covered k x.content :=
  (run_invariant (next k) (sound_next hk) (sound_idle k t) hok h).covered

theorem covered_debianLines : ∃ s, run (next listTools) (idle repository) debianLines = some s ∧
    s.packages ≠ [] ∧ ∀ x ∈ s.packages, Covered listTools x.content := by
  have hok : StepsMeet (next listTools) Tidy (idle repository) debianLines :=
    ⟨trivial, trivial, trivial, trivial, rfl, rfl, rfl, rfl, rfl, rfl, trivial⟩
  exact ⟨_, rfl, List.cons_ne_nil _ _, covered_of_tidy_run zipKeeps_listTools repository hok rfl⟩

def stagedZip : { p : Path // isZip p = true } := ⟨path ["camUpdate", "x.zip"], by decide⟩

def omits (p : Path) (x : Package Content) : Bool :=
  (folder listTools x.content).any
      (fun f => f.1 == updateMd5sum && (f.2.files.map Prod.fst).contains p) &&
    !((folder listTools x.content).map Prod.fst).contains p

theorem not_covered_of_omits {p : Path} {x : Package Content} (h : omits p x = true) :
    ¬ Covered listTools x.content := by
  rintro ⟨hnodup, l, hperm⟩
  simp only [omits, Bool.and_eq_true, List.any_eq_true, beq_iff_eq, List.contains_iff_mem,
    Bool.not_eq_true', ← Bool.not_eq_true] at h
  obtain ⟨⟨f, hf, hname, hlists⟩, hmissing⟩ := h
  have hmanifest : (updateMd5sum, Content.archive l) ∈ folder listTools x.content :=
    hperm.mem_iff.mpr List.mem_cons_self
  obtain rfl := List.inj_on_of_nodup_map hnodup hf hmanifest hname
  exact hmissing ((hperm.map Prod.fst).mem_iff.mpr (List.mem_cons_of_mem _ hlists))

/-- The second `make camUpdate/x.zip` hashes the package of the first one and then removes it. -/
theorem not_covered_stagedZip : list (below camUpdateDir) checkout = [] ∧
    ∃ s, run (next listTools) (idle checkout) (zipLines stagedZip ++ zipLines stagedZip) = some s ∧
      ∃ x ∈ s.packages, ¬ Covered listTools x.content := by
  have hrun : (run (next listTools) (idle checkout) (zipLines stagedZip ++ zipLines stagedZip)).map
      (fun s => s.packages.any (omits stagedZip.1)) = some true := rfl
  obtain ⟨s, hs, hany⟩ := Option.map_eq_some_iff.mp hrun
  obtain ⟨x, hx, homits⟩ := List.any_eq_true.mp hany
  exact ⟨rfl, s, hs, x, hx, not_covered_of_omits homits⟩

end ChronosUpdates.Makefile
