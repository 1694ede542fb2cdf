import ChronosUpdates.Shell.Text
import Mathlib.Algebra.Group.Nat.Defs
import Mathlib.Algebra.Ring.Int.Defs

namespace ChronosUpdates.Shell

def isDigit (c : Char) : Bool := '0' ≤ c && c ≤ '9'

def digits (ds : List Char) : ℕ := ds.foldl (fun n c => 10 * n + (c.toNat - 48)) 0

/-- A decimal number with its sign; the shell's integers have 64 bits. -/
def parseInt (w : Word) : Option ℤ :=
  let signed : ℤ × List Char := match stripBlanks w with
    | '-' :: ds => (-1, ds)
    | '+' :: ds => (1, ds)
    | ds => (1, ds)
  let n := signed.1 * digits signed.2
  if signed.2 ≠ [] ∧ signed.2.all isDigit ∧ -2 ^ 63 ≤ n ∧ n < 2 ^ 63 then some n else none

/-- A comparison of two integers fails unless both operands are numbers. -/
def compareInts (r : ℤ → ℤ → Bool) (a b : Word) : Option Bool := do
  let m ← parseInt a
  let n ← parseInt b
  return r m n

/-- What `[` finds out about files: `is c w` answers the unary test with the letter `c`, and
`compares op a b` one of `-nt`, `-ot` and `-ef`. -/
structure FileTests where
  is : Char → Word → Bool
  compares : Word → Word → Word → Bool

def noFiles : FileTests := ⟨fun _ _ => false, fun _ _ _ => false⟩

section
variable (file : FileTests)

def binaryOp (op : Word) : Option (Word → Word → Option Bool) :=
  if op = "=".toList ∨ op = "==".toList then some fun a b => some (a == b)
  else if op = "!=".toList then some fun a b => some (a != b)
  else if op = "<".toList then some fun a b => some (a < b)
  else if op = ">".toList then some fun a b => some (b < a)
  else if op = "-eq".toList then some (compareInts fun m n => m == n)
  else if op = "-ne".toList then some (compareInts fun m n => m != n)
  else if op = "-lt".toList then some (compareInts fun m n => m < n)
  else if op = "-le".toList then some (compareInts fun m n => m ≤ n)
  else if op = "-gt".toList then some (compareInts fun m n => m > n)
  else if op = "-ge".toList then some (compareInts fun m n => m ≥ n)
  else if op = "-nt".toList ∨ op = "-ot".toList ∨ op = "-ef".toList then
    some fun a b => some (file.compares op a b)
  else none

def unaryOp (op : Word) : Option (Word → Bool) :=
  match op with
  | ['-', c] =>
    if c = 'z' then some fun w => w == []
    else if c = 'n' then some fun w => w != []
    else if c ∈ "bcdefghLkprsStuwxOG".toList then some (file.is c)
    else none
  | _ => none

mutual

def testOr : ℕ → List Word → Option (Bool × List Word)
  | 0, _ => none
  | n + 1, ws => do
    let (a, rest) ← testAnd n ws
    match rest with
    | [] => return (a, [])
    | o :: rest' =>
      if o = "-o".toList then
        let (b, rest'') ← testOr n rest'
        return (a || b, rest'')
      else return (a, rest)

def testAnd : ℕ → List Word → Option (Bool × List Word)
  | 0, _ => none
  | n + 1, ws => do
    let (a, rest) ← testPrimary n ws
    match rest with
    | [] => return (a, [])
    | o :: rest' =>
      if o = "-a".toList then
        let (b, rest'') ← testAnd n rest'
        return (a && b, rest'')
      else return (a, rest)

def testPrimary : ℕ → List Word → Option (Bool × List Word)
  | 0, _ => none
  | _ + 1, [] => none
  | n + 1, a :: ws =>
    if a = "!".toList then do
      let (b, rest) ← testPrimary n ws
      return (!b, rest)
    else if a = "(".toList then do
      let (b, rest) ← testOr n ws
      if rest.head? = some ")".toList then return (b, rest.tail) else none
    else match ws with
      | op :: b :: rest =>
        match binaryOp file op with
        | some f => (f a b).map (·, rest)
        | none => match unaryOp file a with
          | some f => some (f op, b :: rest)
          | none => some (a != [], ws)
      | [b] => match unaryOp file a with
        | some f => some (f b, [])
        | none => some (a != [], ws)
      | [] => some (a != [], [])

end

def testTwo (a b : Word) : Option Bool :=
  if a = "!".toList then some (b == []) else (unaryOp file a).map (· b)

def testThree (a b c : Word) : Option Bool :=
  match binaryOp file b with
  | some f => f a c
  | none =>
    if b = "-a".toList then some (a != [] && c != [])
    else if b = "-o".toList then some (a != [] || c != [])
    else if a = "!".toList then (testTwo file b c).map (!·)
    else if a = "(".toList ∧ c = ")".toList then some (b != [])
    else none

/-- The result of `[ ws ]`; `none` is the exit status 2 of an error. -/
def test (ws : List Word) : Option Bool :=
  match ws with
  | [] => some false
  | [a] => some (a != [])
  | [a, b] => testTwo file a b
  | [a, b, c] => testThree file a b c
  | a :: rest =>
    if a = "!".toList ∧ rest.length = 3 then
      (testThree file (rest.getD 0 []) (rest.getD 1 []) (rest.getD 2 [])).map (!·)
    else match testOr file (4 * ws.length + 4) ws with
      | some (b, []) => some b
      | _ => none

/-- `if [ ws ]`: an error counts as false. -/
def holds (ws : List Word) : Bool := test file ws == some true

end

theorem not_blank_of_digit {c : Char} (h : isDigit c = true) : isBlank c = false := by
  by_contra hb
  simp only [isBlank, Bool.not_eq_false, Bool.or_eq_true, beq_iff_eq] at hb
  rcases hb with (rfl | rfl) | rfl <;> revert h <;> decide

theorem isLiteral_of_digits {w : Word} (h : w.all isDigit = true) : IsLiteral w := by
  intro c hc hbad
  have hd : isDigit c = true := List.all_eq_true.mp h c hc
  simp only [List.mem_cons, List.not_mem_nil, or_false] at hbad
  rcases hbad with rfl | rfl | rfl | rfl <;> revert hd <;> decide

theorem stripBlanks_of_noBlank {t : Text} (h : ∀ c ∈ t, isBlank c = false) :
    stripBlanks t = t := by
  have hfront : t.dropWhile isBlank = t := by
    rw [List.dropWhile_eq_self_iff]
    intro hlen hb
    rw [h _ (List.getElem_mem hlen)] at hb
    cases hb
  rw [stripBlanks, hfront, List.rdropWhile_eq_self_iff]
  intro hne hb
  rw [h _ (List.getLast_mem hne)] at hb
  cases hb

/-- A word of digits is a number, if 64 bits are enough for it. -/
theorem parseInt_of_digits {w : Word} (hne : w ≠ []) (h : w.all isDigit = true) :
    parseInt w = if digits w < 2 ^ 63 then some (digits w : ℤ) else none := by
  have hd : ∀ c ∈ w, isDigit c = true := List.all_eq_true.mp h
  have hstrip : stripBlanks w = w := stripBlanks_of_noBlank fun c hc => not_blank_of_digit (hd c hc)
  unfold parseInt
  rw [hstrip]
  split
  · exact absurd (hd '-' List.mem_cons_self) (by decide)
  · exact absurd (hd '+' List.mem_cons_self) (by decide)
  · have hfits : -2 ^ 63 ≤ (digits w : ℤ) ∧ (digits w : ℤ) < 2 ^ 63 ↔ digits w < 2 ^ 63 := by
      omega
    simp only [ne_eq, hne, not_false_eq_true, h, true_and, Int.one_mul, hfits]

def signed (k : ℤ) (ds : List Char) : Option ℤ :=
  if ds ≠ [] ∧ ds.all isDigit ∧ -2 ^ 63 ≤ k * digits ds ∧ k * digits ds < 2 ^ 63 then
    some (k * digits ds)
  else none

theorem parseInt_cons {c : Char} {ds : List Char} (h : ∀ d ∈ c :: ds, isBlank d = false) :
    parseInt (c :: ds) =
      if c = '-' then signed (-1) ds else if c = '+' then signed 1 ds else signed 1 (c :: ds) := by
  unfold parseInt
  rw [stripBlanks_of_noBlank h]
  split
  · rename_i heq
    cases heq
    rfl
  · rename_i heq
    cases heq
    rfl
  · rename_i hminus hplus
    have hc : c ≠ '-' ∧ c ≠ '+' := ⟨fun e => hminus ds (e ▸ rfl), fun e => hplus ds (e ▸ rfl)⟩
    rw [if_neg hc.1, if_neg hc.2]
    rfl

theorem all_isDigit_iff_nil {t : Word} (h : ∀ c ∈ t, isDigit c = false) :
    t.all isDigit = true ↔ t = [] := by
  cases t with
  | nil => simp
  | cons c t => simp [h c List.mem_cons_self]

theorem signed_of_no_digit {t : Word} (h : ∀ c ∈ t, isDigit c = false) (k : ℤ) :
    signed k t = none :=
  if_neg fun hn => hn.1 ((all_isDigit_iff_nil h).mp hn.2.1)

theorem parseInt_of_no_digit {w : Word} (hblank : ∀ c ∈ w, isBlank c = false)
    (h : ∀ c ∈ w, isDigit c = false) : parseInt w = none := by
  cases w with
  | nil => rfl
  | cons c ds =>
    have hds : ∀ d ∈ ds, isDigit d = false := fun d hd => h d (List.mem_cons_of_mem _ hd)
    rw [parseInt_cons hblank, signed_of_no_digit h, signed_of_no_digit hds, signed_of_no_digit hds]
    simp

theorem signed_surrounded {a w b : Word} (ha : ∀ c ∈ a, isDigit c = false)
    (hb : ∀ c ∈ b, isDigit c = false) (hne : w ≠ []) (hw : w.all isDigit = true) {k : ℤ}
    (hfits : -2 ^ 63 ≤ k * digits w ∧ k * digits w < 2 ^ 63) :
    signed k (a ++ w ++ b) = if a = [] ∧ b = [] then some (k * digits w) else none := by
  have hall : (a ++ w ++ b).all isDigit = true ↔ a = [] ∧ b = [] := by
    rw [List.all_append, List.all_append, hw, Bool.and_true, Bool.and_eq_true,
      all_isDigit_iff_nil ha, all_isDigit_iff_nil hb]
  by_cases hnil : a = [] ∧ b = []
  · rw [if_pos hnil, hnil.1, hnil.2, List.nil_append, List.append_nil]
    exact if_pos ⟨hne, hw, hfits⟩
  · rw [if_neg hnil]
    exact if_neg fun hn => hnil (hall.mp hn.2.1)

/-- A number is still one behind a sign, and is none with anything else around it. -/
theorem parseInt_surrounded {a w b : Word} (hblank : ∀ c ∈ a ++ w ++ b, isBlank c = false)
    (ha : ∀ c ∈ a, isDigit c = false) (hb : ∀ c ∈ b, isDigit c = false) (hne : w ≠ [])
    (hw : w.all isDigit = true) (hfits : digits w < 2 ^ 63) :
    parseInt (a ++ w ++ b) =
      if b = [] ∧ (a = [] ∨ a = ['+']) then some (digits w : ℤ)
      else if b = [] ∧ a = ['-'] then some (-(digits w : ℤ)) else none := by
  have hplus : -2 ^ 63 ≤ 1 * (digits w : ℤ) ∧ 1 * (digits w : ℤ) < 2 ^ 63 := by omega
  have hminus : -2 ^ 63 ≤ -1 * (digits w : ℤ) ∧ -1 * (digits w : ℤ) < 2 ^ 63 := by omega
  have hwhole := signed_surrounded ha hb hne hw hplus
  cases a with
  | nil =>
    obtain ⟨d, ds, rfl⟩ := List.exists_cons_of_ne_nil hne
    have hd : isDigit d = true := List.all_eq_true.mp hw d List.mem_cons_self
    have hsign : d ≠ '-' ∧ d ≠ '+' := by
      constructor <;> rintro rfl <;> exact absurd hd (by decide)
    rw [List.nil_append, List.cons_append] at hblank hwhole ⊢
    rw [parseInt_cons hblank, if_neg hsign.1, if_neg hsign.2, hwhole]
    simp
  | cons c a =>
    have ha' : ∀ d ∈ a, isDigit d = false := fun d hd => ha d (List.mem_cons_of_mem _ hd)
    have hrestMinus := signed_surrounded ha' hb hne hw hminus
    have hrestPlus := signed_surrounded ha' hb hne hw hplus
    rw [if_neg fun h => List.cons_ne_nil c a h.1] at hwhole
    rw [List.cons_append, List.cons_append] at hblank hwhole ⊢
    rw [parseInt_cons hblank, hwhole, hrestMinus, hrestPlus]
    by_cases hm : c = '-'
    · subst hm
      simp [and_comm]
    · by_cases hp : c = '+'
      · subst hp
        simp [and_comm]
      · simp [hm, hp]

end ChronosUpdates.Shell
