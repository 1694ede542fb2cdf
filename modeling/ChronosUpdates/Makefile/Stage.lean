import ChronosUpdates.Makefile.Progress

namespace ChronosUpdates.Makefile
open Shell FileTree Runs

variable {γ : Type*}

def sourceTree (t : Files γ) : Files γ := remove (below camUpdateDir) t

def copies (found : List (Path × γ)) : List (Path × γ) :=
  found.map fun f => (into camUpdateDir f.1, f.2)

def updateToDebian : Path := path ["update-to-debian"]

/-- What the `debian` goal stages in an empty directory. -/
def debianStage (src : Files γ) : Option (Files γ) := do
  let found ← expandAll updateToDebian src
  let more ← readAll [path ["update.sh"], hexFile] src
  let image ← src.lookup debianImage
  some ((writeAll (copies more) (writeAll (copies found) ∅)).insert stagedImage image)

def ownManifest : Path := into updateToDebian updateMd5sum

theorem debianStage_plain {src w : Files γ} (h : debianStage src = some w) {p : Path}
    (hp : w.lookup p ≠ none) :
    child camUpdateDir p = true ∧ (p = updateMd5sum → src.lookup ownManifest ≠ none) := by
  simp only [debianStage, bind, Option.bind_eq_some_iff] at h
  obtain ⟨found, hfound, more, hmore, image, -, hw⟩ := h
  cases hw
  have hlast : p = stagedImage ∨
      (writeAll (copies more) (writeAll (copies found) ∅)).lookup p ≠ none := by
    by_cases hs : p = stagedImage
    · exact .inl hs
    · rw [AList.lookup_insert_ne hs] at hp
      exact .inr hp
  rcases hlast with rfl | hp
  · exact ⟨by decide, fun e => absurd e (by decide)⟩
  · rcases lookup_writeAll_ne_none.mp hp with hp | ⟨f, hf, rfl⟩
    · rcases lookup_writeAll_ne_none.mp hp with hp | ⟨f, hf, rfl⟩
      · exact absurd rfl hp
      · obtain ⟨g, hg, rfl⟩ := List.mem_map.mp hf
        obtain ⟨hchild, hlookup⟩ := mem_expandAll hfound hg
        refine ⟨child_into hchild, fun e => ?_⟩
        have hown : ownManifest = g.1 := by
          obtain ⟨n, hn, -⟩ := child_iff.mp hchild
          rw [ownManifest, ← e, hn]
          simp [into]
        rw [hown, hlookup]
        exact Option.some_ne_none g.2
    · obtain ⟨g, hg, rfl⟩ := List.mem_map.mp hf
      have hnames : ∀ f ∈ [path ["update.sh"], hexFile],
          child camUpdateDir (into camUpdateDir f) = true ∧
            into camUpdateDir f ≠ updateMd5sum := by decide
      obtain ⟨hchild, hne⟩ := hnames g.1 (mem_readAll hmore g hg)
      exact ⟨hchild, fun e => absurd e hne⟩

theorem manifestOf_congr {w t : Files γ} (h : Agree camUpdateDir w t) (k : Tools γ) :
    manifestOf k t = manifestOf k w := by
  rw [manifestOf, h.listing fun _ => below_of_child]
  rfl

theorem listing_listed {w t : Files γ} {m : γ} (h : Agree camUpdateDir (w.insert updateMd5sum m) t)
    {out : Path} (hout : child camUpdateDir out = false) :
    listing (listed out) t = listing visible w := by
  apply listing_congr
  intro p c
  have hlisted : listed out p = visible p := by
    by_cases hp : p = out
    · simp [listed, visible, hp, hout]
    · simp [listed, hp]
  rw [hlisted]
  refine and_congr_right fun hv => ?_
  simp only [visible, Bool.and_eq_true, bne_iff_ne] at hv
  rw [h p (below_of_child hv.1), AList.lookup_insert_ne hv.2]

theorem folder_perm_of_agree {k : Tools γ} {z : γ} {out : Path} {w t : Files γ}
    (hfolder : (folder k z).Perm (list (packed out) t)) (hout : below camUpdateDir out = false)
    (h : Agree camUpdateDir w t) (hw : ∀ p, w.lookup p ≠ none → below camUpdateDir p = true) :
    (folder k z).Perm (list (fun _ => true) w) := by
  refine hfolder.trans (list_perm (nodup_names_list _ w) fun f => ?_)
  have hpacked : packed out f.1 = true ↔ below camUpdateDir f.1 = true := by
    rw [packed, Bool.and_eq_true, bne_iff_ne]
    refine and_iff_left_of_imp fun hb e => ?_
    rw [e, hout] at hb
    cases hb
  rw [mem_list, hpacked]
  constructor
  · rintro ⟨-, hc⟩
    have hb := hw f.1 (by simp [hc])
    exact ⟨hb, (h f.1 hb).trans hc⟩
  · rintro ⟨hb, hc⟩
    exact ⟨rfl, (h f.1 hb).symm.trans hc⟩

/-- What is no output stays as it was, the image until it is moved. -/
def Outside (s : Session γ) : Prop :=
  ∀ p, isOutput p = false → (∀ name, s.goal = .zip name → p ≠ name.1) →
    (p = debianImage → s.done .debian ≤ 3) → s.tree.lookup p = s.before.lookup p

theorem index_mv {version : Text} {n : ℕ}
    (h : (recipe version .debian)[n]? = some (.mv debianImage camUpdateDir)) : n = 3 := by
  match n, h with
  | 0, h | 1, h | 2, h | 4, h | 5, h => simp [recipe] at h
  | 3, _ => rfl

theorem untouched {s : Session γ} {target : Target} {l : Line} {p : Path}
    (hready : Ready s target) (hl : (recipe s.version target)[s.done target]? = some l)
    (hout : isOutput p = false) (hname : ∀ name, s.goal = .zip name → p ≠ name.1)
    (himage : p = debianImage → target = .debian → s.done .debian ≠ 3) : touches l p = false := by
  by_contra ht
  have hmem : l ∈ recipe s.version target := List.mem_of_getElem? hl
  rcases touches_recipe hmem (by simpa using ht) with ho | ⟨hp, rfl, rfl⟩ | ⟨name, rfl, hp⟩
  · simp [hout] at ho
  · exact himage hp rfl (index_mv hl)
  · exact hname name (eq_goal_of_package hready.1 rfl) hp

theorem outside_next {k : Tools γ} {s s' : Session γ} {e : Event γ} (hs : Outside s)
    (h : next k s e = some s') : Outside s' := by
  intro p hout hname himage
  cases e with
  | make version goal => rw [next_make h]
  | line target =>
    obtain ⟨hready, l, t, hl, he, rfl⟩ := next_line h
    have hdone : p = debianImage →
        s.done .debian ≤ 3 ∧ (target = .debian → s.done .debian ≠ 3) := by
      intro hp
      have hafter := himage hp
      by_cases ht : Target.debian = target
      · rw [← ht, done_advance_self] at hafter
        omega
      · rw [done_advance_of_ne ht] at hafter
        exact ⟨hafter, fun e => absurd e.symm ht⟩
    have hsame := exec_frame he (untouched hready hl hout hname fun hp => (hdone hp).2)
    exact hsame.trans (hs p hout hname fun hp => (hdone hp).1)
  | fail target junk =>
    obtain ⟨hready, l, hl, rfl⟩ := next_fail h
    have hsame : (damage junk s.tree l).lookup p = s.tree.lookup p := by
      by_cases hmv : target = .debian ∧ s.done .debian = 3
      · -- the image is moved as a whole or not at all
        obtain ⟨rfl, h3⟩ := hmv
        rw [h3] at hl
        cases hl
        rfl
      · exact damage_frame (untouched hready hl hout hname fun _ ht h3 => hmv ⟨ht, h3⟩) junk s.tree
    exact hsame.trans (hs p hout hname himage)

theorem lookup_sourceTree {t : Files γ} {p : Path} (h : below camUpdateDir p = false) :
    (sourceTree t).lookup p = t.lookup p := by
  rw [sourceTree, lookup_remove, if_neg (by simp [h])]

theorem below_of_isOutput_false {p : Path} (h : isOutput p = false) :
    below camUpdateDir p = false :=
  Bool.eq_false_iff.mpr fun hb => by simp [isOutput_of_below hb] at h

theorem expandAll_congr {d : Path} {t t' : Files γ}
    (h : ∀ p, below d p = true → t.lookup p = t'.lookup p) : expandAll d t = expandAll d t' := by
  have hchild : list (child d) t = [] ↔ list (child d) t' = [] := by
    rw [list_eq_nil_iff, list_eq_nil_iff]
    exact forall₂_congr fun p hp => by rw [h p (below_of_child hp)]
  have hinChild : list (inChild d) t = [] ↔ list (inChild d) t' = [] := by
    rw [list_eq_nil_iff, list_eq_nil_iff]
    refine forall₂_congr fun p hp => ?_
    have hbelow : below d p = true := by
      simp only [inChild, Bool.and_eq_true] at hp
      exact hp.1.1
    rw [h p hbelow]
  have hlisting : listing (child d) t = listing (child d) t' :=
    Agree.listing h fun _ => below_of_child
  simp only [expandAll, ne_eq, hchild, hinChild, hlisting]

theorem readAll_congr {files : List Path} {t t' : Files γ}
    (h : ∀ f ∈ files, t.lookup f = t'.lookup f) : readAll files t = readAll files t' := by
  induction files with
  | nil => rfl
  | cons f files ih =>
    have hrest := ih fun g hg => h g (List.mem_cons_of_mem f hg)
    unfold readAll at hrest ⊢
    rw [List.mapM_cons, List.mapM_cons, h f List.mem_cons_self, hrest]

/-- By the lines done of `debian`, with the sources in `src`. -/
def stagedAfter (k : Tools γ) (src : Files γ) : ℕ → Files γ → Prop
  | 0, t | 1, t => Agree camUpdateDir ∅ t
  | 2, t => ∃ found, expandAll updateToDebian src = some found ∧
    Agree camUpdateDir (writeAll (copies found) ∅) t
  | 3, t => ∃ found more, expandAll updateToDebian src = some found ∧
      readAll [path ["update.sh"], hexFile] src = some more ∧
        Agree camUpdateDir (writeAll (copies more) (writeAll (copies found) ∅)) t
  | 4, t => ∃ w, debianStage src = some w ∧ Agree camUpdateDir w t
  | _, t => ∃ w, debianStage src = some w ∧
    Agree camUpdateDir (w.insert updateMd5sum (manifestOf k w)) t

def debianAssertion (k : Tools γ) (src : Files γ) : ℕ → ℕ → Files γ → Prop
  | 2, 0, t => t.lookup debianZip = none
  | 3, n, t => (n ≤ 5 → t.lookup debianZip = none) ∧ stagedAfter k src n t
  | _, _, _ => True

def DebianProgress (k : Tools γ) (s : Session γ) : Prop :=
  s.goal = .debian → s.failed .clean = false → s.failed .debian = false →
    debianAssertion k (sourceTree s.before) (s.done .clean) (s.done .debian) s.tree

theorem isOutput_updateToDebian {p : Path} (h : below updateToDebian p = true) :
    isOutput p = false ∧ p ≠ debianImage := by
  obtain ⟨q, rfl⟩ := List.isPrefixOf_iff_prefix.mp h
  refine ⟨?_, fun e => absurd (congrArg List.head? e) (by simp [updateToDebian, debianImage, path])⟩
  simp [isOutput, updateToDebian, path, below, camUpdateDir, filesystemRevision, rulesD,
    List.isPrefixOf]

def SourcesKept (src : Files γ) (n : ℕ) (t : Files γ) : Prop :=
  ∀ p, isOutput p = false → (p = debianImage → n ≤ 3) → t.lookup p = src.lookup p

theorem stagedAfter_line {k : Tools γ} {version : Text} {src t t' : Files γ} {n : ℕ} {l : Line}
    (hl : (recipe version .debian)[n]? = some l) (he : exec k version t l = some t')
    (hsrc : SourcesKept src n t) (h : stagedAfter k src n t) : stagedAfter k src (n + 1) t' := by
  match n, hl with
  | 0, rfl =>
    cases he
    exact h
  | 1, rfl =>
    -- `cp update-to-debian/* camUpdate/`: the glob sees the directory as it was checked out
    obtain ⟨found, hfound, rfl⟩ := Option.map_eq_some_iff.mp he
    have hsame : expandAll updateToDebian src = expandAll updateToDebian t := by
      refine expandAll_congr fun p hp => ?_
      obtain ⟨hout, himage⟩ := isOutput_updateToDebian hp
      exact (hsrc p hout fun e => absurd e himage).symm
    exact ⟨found, hsame.trans hfound, h.writeAll (copies found)⟩
  | 2, rfl =>
    -- the two files that both kinds of packages share
    obtain ⟨more, hmore, rfl⟩ := Option.map_eq_some_iff.mp he
    obtain ⟨found, hfound, hstaged⟩ := h
    have hplain : ∀ f ∈ [path ["update.sh"], hexFile], isOutput f = false ∧ f ≠ debianImage := by
      decide
    have hsame :
        readAll [path ["update.sh"], hexFile] src = readAll [path ["update.sh"], hexFile] t :=
      readAll_congr fun f hf => (hsrc f (hplain f hf).1 fun e => absurd e (hplain f hf).2).symm
    exact ⟨found, more, hfound, hsame.trans hmore, hstaged.writeAll (copies more)⟩
  | 3, rfl =>
    -- `mv debian.img.gz camUpdate/`: nothing has moved the image before
    obtain ⟨c, hc, rfl⟩ := Option.map_eq_some_iff.mp he
    obtain ⟨found, more, hfound, hmore, hstaged⟩ := h
    have himage : src.lookup debianImage = some c :=
      (hsrc debianImage (by decide) fun _ => by omega).symm.trans hc
    refine ⟨_, by simp only [debianStage, hfound, hmore, himage]; rfl, ?_⟩
    refine Agree.insert (hstaged.frame fun p hp => AList.lookup_erase_ne ?_) stagedImage c
    rintro rfl
    exact absurd hp (by decide)
  | 4, rfl =>
    obtain ⟨w, hw, hstaged⟩ := h
    refine ⟨w, hw, ?_⟩
    rw [exec_md5sum he, manifestOf_congr hstaged k]
    exact hstaged.insert updateMd5sum _
  | 5, rfl =>
    -- the package lies beside the directory
    obtain ⟨w, hw, hstaged⟩ := h
    refine ⟨w, hw, hstaged.frame fun p hp => exec_frame he ?_⟩
    rw [touches, beq_eq_false_iff_ne]
    rintro rfl
    exact absurd hp (by decide)

theorem debianAssertion_line {k : Tools γ} {version : Text} {src t t' : Files γ} {n : ℕ} {l : Line}
    (hl : (recipe version .debian)[n]? = some l) (he : exec k version t l = some t')
    (hsrc : SourcesKept src n t) (h : debianAssertion k src 3 n t) :
    debianAssertion k src 3 (n + 1) t' := by
  refine ⟨fun hn => ?_, stagedAfter_line hl he hsrc h.2⟩
  -- only the last line writes the package
  have htouch : touches l debianZip = false := by
    match n, hl with
    | 0, rfl | 1, rfl | 2, rfl | 3, rfl | 4, rfl => decide
    | 5, rfl => omega
  rw [exec_frame he htouch]
  exact h.1 (by omega)

theorem debianAssertion_clean {k : Tools γ} {version : Text} {src t t' : Files γ} {n : ℕ} {l : Line}
    (hl : (recipe version .clean)[n]? = some l) (he : exec k version t l = some t')
    (h : debianAssertion k src n 0 t) : debianAssertion k src (n + 1) 0 t' := by
  match n, hl with
  | 0, rfl => trivial
  | 1, rfl =>
    cases he
    show (remove (below debianZip) t).lookup debianZip = none
    rw [lookup_remove, if_pos (by decide)]
  | 2, rfl =>
    cases he
    refine ⟨fun _ => ?_, fun p hp => ?_⟩
    · rw [lookup_remove, if_neg (by decide)]
      exact h
    · rw [lookup_remove, if_pos hp]
      rfl

theorem folder_completed_debian {k : Tools γ} (hk : ZipKeeps k) {s : Session γ} {src t : Files γ}
    {l : Line} {x : Package γ} (hl : (recipe s.version .debian)[s.done .debian]? = some l)
    (he : exec k s.version s.tree l = some t)
    (h : debianAssertion k src 3 (s.done .debian) s.tree) (hx : x ∈ completed s .debian t) :
    (folder k x.content).Perm (list (packed debianZip) t) := by
  obtain ⟨hlast, ⟨out, hout, hz⟩, -⟩ := mem_completed hx
  have hdone : s.done .debian = 5 := Nat.succ.inj hlast
  rw [hdone] at h hl
  cases hl
  cases hout
  obtain ⟨⟨z, hlookup, hunzip⟩, -⟩ := exec_zip hk (h.1 (by omega)) he
  rw [hlookup] at hz
  cases hz
  rw [folder, List.filter_eq_self.mpr (below_of_perm_packed hunzip)]
  exact hunzip

theorem sourcesKept {s : Session γ} (hs : Outside s) (hgoal : s.goal = .debian) :
    SourcesKept (sourceTree s.before) (s.done .debian) s.tree := by
  intro p hout himage
  rw [lookup_sourceTree (below_of_isOutput_false hout)]
  refine hs p hout (fun name hname => ?_) himage
  rw [hgoal] at hname
  cases hname

theorem needed_debian {goal target : Target} (h : Needed goal target) (hgoal : goal = .debian) :
    target = .debian ∨ target = .clean := by
  subst hgoal
  simpa [Needed, prerequisites] using h

theorem debianProgress_next {k : Tools γ} {s s' : Session γ} {e : Event γ} (ho : Ordered s)
    (hout : Outside s) (hs : DebianProgress k s) (h : next k s e = some s') :
    DebianProgress k s' := by
  intro hgoal hc hd
  cases e with
  | make version goal =>
    rw [next_make h]
    trivial
  | line target =>
    obtain ⟨hready, l, t, hl, he, rfl⟩ := next_line h
    have hprev := hs hgoal hc hd
    rcases needed_debian hready.1 hgoal with rfl | rfl
    · have hdone : s.done .clean = 3 := hready.2.2.1 .clean (by simp [prerequisites])
      rw [done_advance_self, done_advance_of_ne (by simp), hdone]
      rw [hdone] at hprev
      exact debianAssertion_line hl he (sourcesKept hout hgoal) hprev
    · have hdone : s.done .debian = 0 := ho.done_eq_zero hl (by simp [prerequisites])
      rw [done_advance_self, done_advance_of_ne (by simp), hdone]
      rw [hdone] at hprev
      exact debianAssertion_clean hl he hprev
  | fail target junk =>
    obtain ⟨hready, l, hl, rfl⟩ := next_fail h
    rcases needed_debian hready.1 hgoal with rfl | rfl
    · rw [failed_abandon_self] at hd
      cases hd
    · rw [failed_abandon_self] at hc
      cases hc

end ChronosUpdates.Makefile
