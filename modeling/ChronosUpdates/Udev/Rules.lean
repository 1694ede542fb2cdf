import ChronosUpdates.Pmic
import Mathlib.Algebra.Group.Int.Defs
import Mathlib.Algebra.Group.Nat.Defs
import Mathlib.Data.Int.Order.Basic

namespace ChronosUpdates.Udev
open Shell

abbrev Rules := List Text

/-- `[[:space:],]`. -/
def separates (c : Char) : Bool := Pmic.isSpace c || c == ','

def valueAt (key l : Text) : Option Text :=
  if (key ++ ['"']).isPrefixOf l then
    let rest := l.drop (key.length + 1)
    if '"' ∈ rest then some (rest.takeWhile (· != '"')) else none
  else none

/-- What the `sed` of `find_all_rules` takes from a line: `.*` goes as far as it can, so it is the
last value that `linkre` matches. No `linkre` of the scripts matches a quotation mark. -/
def captured (key : Text) (linkre : Text → Bool) : Text → Option Text
  | [] => none
  | c :: l =>
    (captured key linkre l).or
      (if separates c then (valueAt key l).filter linkre else none)

/-- Comments are made empty before. -/
def ruleValue (key : Text) (linkre : Text → Bool) (l : Text) : Option Text :=
  if l.head? = some '#' then none else captured key linkre l

/-- `find_all_rules`, with the words that its `echo` prints. -/
def findAllRules (key : Text) (linkre : Text → Bool) (rules : Rules) : List Word :=
  splitWords (unlines (rules.filterMap (ruleValue key linkre)))

/-- `${INTERFACE%%[0-9]*}`. -/
def basename (interface : Text) : Text := interface.takeWhile (!isDigit ·)

/-- The pattern `base[0-9]*`. -/
def numbered (base v : Text) : Bool := base.isPrefixOf v && (v.drop base.length).all isDigit

/-- `[ num -gt max ] && max=$num`, over all numbers. -/
def greatest : Word → List Word → Word
  | max, [] => max
  | max, num :: nums =>
    let num := if num = [] then ['0'] else num
    greatest (if holds noFiles [num, "-gt".toList, max] then num else max) nums

/-- A number in `$((...))`: with a zero in front it is an octal one, or an error. -/
def constant : Word → Option ℤ
  | '-' :: ds => (constant ds).map (- ·)
  | '0' :: ds =>
    if ds.all fun c => isDigit c && c < '8' then
      some (ds.foldl (fun n c => 8 * n + (c.toNat - 48)) 0 : ℕ)
    else none
  | ds => if ds ≠ [] ∧ ds.all isDigit then some (digits ds) else none

def printInt (n : ℤ) : Text :=
  if n < 0 then '-' :: Nat.toDigits 10 n.natAbs else Nat.toDigits 10 n.natAbs

/-- `raw_find_next_available`; `none` is the end of the script by an error. -/
def rawFindNextAvailable (links : List Word) : Option Text :=
  -- the first blank of the links stands behind the first of them
  let base := basename (links.headD [])
  let nums := links.map fun name => if base.isPrefixOf name then name.drop base.length else name
  (constant (greatest "-1".toList nums)).map fun n =>
    let max := (n + 1).bmod (2 ^ 64)
    if max = 0 then [] else printInt max

def nameKey : Text := "NAME=".toList

def namesOf (rules : Rules) : List Text := rules.filterMap (ruleValue nameKey fun _ => true)

theorem quotes_of_valueAt {key l v : Text} (h : valueAt key l = some v) : 2 ≤ l.count '"' := by
  unfold valueAt at h
  split at h
  · rename_i hpre
    obtain ⟨rest, rfl⟩ := List.isPrefixOf_iff_prefix.mp hpre
    have hdrop : (key ++ ['"'] ++ rest).drop (key.length + 1) = rest := by
      rw [← List.length_singleton (a := '"'), ← List.length_append, List.drop_left]
    simp only [hdrop] at h
    split at h
    · rename_i hmem
      have hpos := List.count_pos_iff.mpr hmem
      rw [List.count_append, List.count_append, List.count_singleton_self]
      omega
    · cases h
  · cases h

theorem captured_eq_none {key : Text} {linkre : Text → Bool} {l : Text} (h : l.count '"' < 2) :
    captured key linkre l = none := by
  induction l with
  | nil => rfl
  | cons c l ih =>
    have hl : l.count '"' < 2 := Nat.lt_of_le_of_lt List.count_le_count_cons h
    have hvalue : valueAt key l = none := by
      by_contra hsome
      obtain ⟨v, hv⟩ := Option.ne_none_iff_exists'.mp hsome
      have := quotes_of_valueAt hv
      omega
    simp [captured, ih hl, hvalue]

theorem captured_none_of_all {key : Text} {linkre : Text → Bool} {l : Text}
    (h : captured key (fun _ => true) l = none) : captured key linkre l = none := by
  induction l with
  | nil => rfl
  | cons c l ih =>
    obtain ⟨hl, hc⟩ := Option.or_eq_none_iff.mp h
    rw [captured, ih hl, Option.none_or]
    split
    · rename_i hsep
      rw [if_pos hsep, Option.filter_eq_none_iff] at hc
      exact Option.filter_eq_none_iff.mpr fun v hv => absurd rfl (hc v hv)
    · rfl

/-- If the last of all values is a match, it is the last match. -/
theorem captured_of_linkre {key : Text} {linkre : Text → Bool} {l v : Text}
    (h : captured key (fun _ => true) l = some v) (hv : linkre v = true) :
    captured key linkre l = some v := by
  induction l with
  | nil => cases h
  | cons c l ih =>
    rw [captured] at h ⊢
    cases hl : captured key (fun _ => true) l with
    | some w =>
      -- the last value is further on
      rw [hl, Option.some_or] at h
      rw [ih (hl.trans h), Option.some_or]
    | none =>
      rw [hl, Option.none_or] at h
      rw [captured_none_of_all hl, Option.none_or]
      split at h
      · rename_i hsep
        rw [if_pos hsep]
        exact Option.filter_eq_some_iff.mpr ⟨(Option.filter_eq_some_iff.mp h).1, hv⟩
      · cases h

theorem linkre_of_captured {key : Text} {linkre : Text → Bool} {l v : Text}
    (h : captured key linkre l = some v) : linkre v = true := by
  induction l with
  | nil => cases h
  | cons c l ih =>
    rcases Option.or_eq_some_iff.mp h with hl | ⟨-, hc⟩
    · exact ih hl
    · split at hc
      · exact (Option.filter_eq_some_iff.mp hc).2
      · cases hc

theorem captured_skip {key s : Text} {linkre : Text → Bool}
    (hs : ∀ c ∈ s, separates c = false) (l : Text) :
    captured key linkre (s ++ l) = captured key linkre l := by
  induction s with
  | nil => rfl
  | cons c s ih =>
    obtain ⟨hc, hs⟩ := List.forall_mem_cons.mp hs
    rw [List.cons_append, captured, ih hs, hc, if_neg Bool.false_ne_true, Option.or_none]

theorem valueAt_self {key v : Text} (hv : '"' ∉ v) :
    valueAt key (key ++ ['"'] ++ (v ++ ['"'])) = some v := by
  have hdrop : (key ++ ['"'] ++ (v ++ ['"'])).drop (key.length + 1) = v ++ ['"'] := by
    rw [← @List.length_singleton _ '"', ← List.length_append, List.drop_left]
  have hall : ∀ c ∈ v, (c != '"') = true := fun c hc => bne_iff_ne.mpr fun e => hv (e ▸ hc)
  rw [valueAt, if_pos (List.isPrefixOf_iff_prefix.mpr (List.prefix_append _ _))]
  simp only [hdrop]
  rw [if_pos (by simp), List.takeWhile_append_of_pos hall]
  simp

theorem captured_append {key v : Text} {c : Char} (hc : separates c = true)
    (hkey : ∀ d ∈ key, separates d = false) (hv : '"' ∉ v) (l : Text) :
    captured key (fun _ => true) (l ++ c :: (key ++ ['"'] ++ (v ++ ['"']))) = some v := by
  induction l with
  | nil =>
    have hskip : ∀ d ∈ key ++ ['"'], separates d = false := by
      intro d hd
      rcases List.mem_append.mp hd with hd | hd
      · exact hkey d hd
      · exact List.mem_singleton.mp hd ▸ (by decide)
    have hone : (v ++ ['"']).count '"' < 2 := by
      rw [List.count_append, List.count_eq_zero.mpr hv]
      decide
    rw [List.nil_append, captured, captured_skip hskip, captured_eq_none hone, Option.none_or,
      if_pos hc, valueAt_self hv]
    rfl
  | cons d l ih => rw [List.cons_append, captured, ih, Option.some_or]

theorem splitFrom_line (w : Text) {v : Text} (hv : ∀ c ∈ v, isBlank c = false) (hne : w ++ v ≠ [])
    (t : Text) : splitFrom w (v ++ '\n' :: t) = (w ++ v) :: splitFrom [] t := by
  induction v generalizing w with
  | nil =>
    rw [List.append_nil] at hne ⊢
    rw [List.nil_append, splitFrom, if_pos (by decide), if_neg hne]
  | cons c v ih =>
    obtain ⟨hc, hv⟩ := List.forall_mem_cons.mp hv
    rw [List.cons_append, splitFrom, hc, if_neg Bool.false_ne_true, ih _ hv (by simp),
      List.append_assoc, List.singleton_append]

theorem splitWords_unlines {ws : List Word} (h : ∀ w ∈ ws, IsPlain w) :
    splitWords (unlines ws) = ws := by
  induction ws with
  | nil => rfl
  | cons w ws ih =>
    obtain ⟨hw, hws⟩ := List.forall_mem_cons.mp h
    have hrest : splitFrom [] (unlines ws) = ws := ih hws
    rw [splitWords, unlines_cons, splitFrom_line [] hw.2 hw.1, hrest, List.nil_append]

theorem linkre_of_mem {key : Text} {linkre : Text → Bool} {rules : Rules} {v : Text}
    (h : v ∈ rules.filterMap (ruleValue key linkre)) : linkre v = true := by
  obtain ⟨l, -, hl⟩ := List.mem_filterMap.mp h
  rw [ruleValue] at hl
  split at hl
  · cases hl
  · exact linkre_of_captured hl

/-- If all that `linkre` matches are plain words, they are found as they are. -/
theorem findAllRules_eq {key : Text} {linkre : Text → Bool}
    (h : ∀ v, linkre v = true → IsPlain v) (rules : Rules) :
    findAllRules key linkre rules = rules.filterMap (ruleValue key linkre) :=
  splitWords_unlines fun _ hv => h _ (linkre_of_mem hv)

theorem mem_findAllRules {linkre : Text → Bool} (h : ∀ v, linkre v = true → IsPlain v)
    {rules : Rules} {v : Text} (hmem : v ∈ namesOf rules) (hv : linkre v = true) :
    v ∈ findAllRules nameKey linkre rules := by
  rw [findAllRules_eq h]
  obtain ⟨l, hl, hvalue⟩ := List.mem_filterMap.mp hmem
  refine List.mem_filterMap.mpr ⟨l, hl, ?_⟩
  rw [ruleValue] at hvalue ⊢
  split at hvalue
  · cases hvalue
  · rename_i hcomment
    rw [if_neg hcomment]
    exact captured_of_linkre hvalue hv

theorem numbered_iff {base v : Text} :
    numbered base v = true ↔ ∃ ds, ds.all isDigit = true ∧ v = base ++ ds := by
  rw [numbered, Bool.and_eq_true, List.isPrefixOf_iff_prefix]
  constructor
  · rintro ⟨⟨ds, rfl⟩, hds⟩
    rw [List.drop_left] at hds
    exact ⟨ds, hds, rfl⟩
  · rintro ⟨ds, hds, rfl⟩
    rw [List.drop_left]
    exact ⟨List.prefix_append base ds, hds⟩

/-- All names that the pattern finds are the base with digits. -/
theorem exists_numbers {base : Text} (h : ∀ v, numbered base v = true → IsPlain v) (rules : Rules) :
    ∃ nums : List Word, findAllRules nameKey (numbered base) rules = nums.map (base ++ ·) := by
  refine ⟨(findAllRules nameKey (numbered base) rules).map (·.drop base.length), ?_⟩
  rw [List.map_map]
  refine (List.map_id _).symm.trans (List.map_congr_left fun v hv => ?_)
  rw [findAllRules_eq h] at hv
  obtain ⟨ds, -, rfl⟩ := numbered_iff.mp (linkre_of_mem hv)
  simp

/-- The digits behind a name, without a zero in front; 64 bits are enough for the next number. -/
structure Regular (ds : Word) : Prop where
  all_digits : ds.all isDigit = true
  canonical : ds.head? = some '0' → ds = ['0']
  fits : digits ds + 1 < 2 ^ 63

instance decidableRegular (ds : Word) : Decidable (Regular ds) :=
  decidable_of_iff (ds.all isDigit = true ∧ (ds.head? = some '0' → ds = ['0']) ∧
      digits ds + 1 < 2 ^ 63)
    ⟨fun h => ⟨h.1, h.2.1, h.2.2⟩, fun h => ⟨h.all_digits, h.canonical, h.fits⟩⟩

structure Means (w : Word) (n : ℤ) : Prop where
  test : parseInt w = some n
  arith : constant w = some n

theorem means_regular {ds : Word} (h : Regular ds) :
    Means (if ds = [] then ['0'] else ds) (digits ds) := by
  cases ds with
  | nil => exact ⟨by decide, by decide⟩
  | cons d ds =>
    rw [if_neg (List.cons_ne_nil d ds)]
    by_cases hzero : d = '0'
    · subst hzero
      obtain rfl : ds = [] := (List.cons.inj (h.canonical rfl)).2
      exact ⟨by decide, by decide⟩
    · have hd : isDigit d = true := List.all_eq_true.mp h.all_digits d List.mem_cons_self
      have hminus : d ≠ '-' := by
        rintro rfl
        exact absurd hd (by decide)
      have hfits : digits (d :: ds) < 2 ^ 63 := by
        have := h.fits
        omega
      refine ⟨?_, ?_⟩
      · rw [parseInt_of_digits (List.cons_ne_nil d ds) h.all_digits, if_pos hfits]
      · unfold constant
        split
        · rename_i heq
          exact absurd (List.cons.inj heq).1 hminus
        · rename_i heq
          exact absurd (List.cons.inj heq).1 hzero
        · exact if_pos ⟨List.cons_ne_nil d ds, h.all_digits⟩

theorem holds_gt {a b : Word} {m n : ℤ} (ha : Means a m) (hb : Means b n) :
    holds noFiles [a, "-gt".toList, b] = decide (n < m) := by
  have htest : holds noFiles [a, "-gt".toList, b] =
      (compareInts (fun m n => m > n) a b == some true) := rfl
  rw [htest, compareInts, ha.test, hb.test]
  by_cases h : n < m <;> simp [h]

/-- The greatest number is as great as all of them. -/
theorem greatest_spec {max : Word} {n : ℤ} (hmax : Means max n) (hn : n + 1 < 2 ^ 63)
    {nums : List Word} (hnums : ∀ ds ∈ nums, Regular ds) :
    ∃ m, Means (greatest max nums) m ∧ n ≤ m ∧ m + 1 < 2 ^ 63 ∧
      ∀ ds ∈ nums, (digits ds : ℤ) ≤ m := by
  induction nums generalizing max n with
  | nil => exact ⟨n, hmax, le_rfl, hn, by simp⟩
  | cons ds nums ih =>
    obtain ⟨hds, hnums⟩ := List.forall_mem_cons.mp hnums
    have hnum := means_regular hds
    rw [greatest]
    simp only [holds_gt hnum hmax, decide_eq_true_eq]
    by_cases hlt : n < digits ds
    · have hfits : (digits ds : ℤ) + 1 < 2 ^ 63 := by exact_mod_cast hds.fits
      obtain ⟨m, hm, hle, hbound, hall⟩ := ih hnum hfits hnums
      rw [if_pos hlt]
      exact ⟨m, hm, hlt.le.trans hle, hbound, List.forall_mem_cons.mpr ⟨hle, hall⟩⟩
    · obtain ⟨m, hm, hle, hbound, hall⟩ := ih hmax hn hnums
      rw [if_neg hlt]
      exact ⟨m, hm, hle, hbound, List.forall_mem_cons.mpr ⟨(not_lt.mp hlt).trans hle, hall⟩⟩

theorem digits_toDigits (n : ℕ) : digits (Nat.toDigits 10 n) = n :=
  Nat.ofDigitChars_ten_toDigits

theorem all_isDigit_toDigits (n : ℕ) : (Nat.toDigits 10 n).all isDigit = true := by
  rw [List.all_eq_true]
  intro c hc
  have hdigit := Nat.isDigit_of_mem_toDigits (by decide) (by decide) hc
  simpa [isDigit, Char.isDigit, Char.le_def] using hdigit

theorem basename_append {base ds : Text} (hbase : ∀ c ∈ base, isDigit c = false)
    (hds : ds.all isDigit = true) : basename (base ++ ds) = base := by
  have hpos : ∀ c ∈ base, (!isDigit c) = true := fun c hc => by rw [hbase c hc]; rfl
  rw [basename, List.takeWhile_append_of_pos hpos]
  cases ds with
  | nil => exact List.append_nil base
  | cons d ds =>
    have hd : isDigit d = true := List.all_eq_true.mp hds d List.mem_cons_self
    rw [List.takeWhile_cons_of_neg (by simp [hd]), List.append_nil]

/-- A new number makes a new name. -/
theorem rawFindNextAvailable_fresh {base : Text} (hbase : ∀ c ∈ base, isDigit c = false)
    {nums : List Word} (hnums : ∀ ds ∈ nums, Regular ds) :
    ∃ s, rawFindNextAvailable (nums.map (base ++ ·)) = some s ∧ s.all isDigit = true ∧
      s ∉ nums := by
  have hnames : (nums.map (base ++ ·)).map (fun name =>
      if (basename ((nums.map (base ++ ·)).headD [])).isPrefixOf name then
        name.drop (basename ((nums.map (base ++ ·)).headD [])).length else name) = nums := by
    cases nums with
    | nil => rfl
    | cons ds nums =>
      have hhead : basename ((List.map (base ++ ·) (ds :: nums)).headD []) = base :=
        basename_append hbase (hnums ds List.mem_cons_self).all_digits
      rw [hhead, List.map_map]
      simp [Function.comp_def]
  have hstart : Means "-1".toList (-1) := ⟨by decide, by decide⟩
  obtain ⟨m, hm, hlow, hbound, hall⟩ := greatest_spec hstart (by decide) hnums
  have hmod : (m + 1).bmod (2 ^ 64) = m + 1 := by apply Int.bmod_eq_of_le <;> omega
  rw [rawFindNextAvailable]
  simp only [hnames, hm.arith, Option.map_some, hmod]
  by_cases hzero : m + 1 = 0
  · -- no name at all: the new one has no number
    rw [if_pos hzero]
    refine ⟨[], rfl, rfl, fun hmem => ?_⟩
    have hle := hall [] hmem
    have hnil : digits [] = 0 := rfl
    omega
  · have hpos : ¬ m + 1 < 0 := by omega
    rw [if_neg hzero, printInt, if_neg hpos]
    refine ⟨_, rfl, all_isDigit_toDigits _, fun hmem => ?_⟩
    have hle := hall _ hmem
    rw [digits_toDigits] at hle
    omega

end ChronosUpdates.Udev
