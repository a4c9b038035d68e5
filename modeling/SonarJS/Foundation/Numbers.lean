import Mathlib.Data.List.TakeWhile
import Mathlib.Data.Rat.Defs
import Mathlib.Algebra.Ring.Nat

/-!
# Numbers of JavaScript

A number is rational, one of the infinities or not a number; both zeros are the number 0. An
integer becomes a number by rounding it to 53 bits. The bitwise operators work on 32 bits of
a number, and `parseInt` reads the digits of its radix that a text begins with.
-/

namespace Numbers

inductive Number
  | finite (value : ℚ)
  | infinity (negative : Bool)
  | nan
deriving DecidableEq

instance : Zero Number := ⟨.finite 0⟩

/-! ## Integers as numbers -/

/-- The nearest natural number with 53 significant bits, the even one of two. -/
def roundToEven (n : ℕ) : ℕ :=
  let unit := 2 ^ (n.log2 - 52)
  if unit < 2 * (n % unit) ∨ unit = 2 * (n % unit) ∧ n / unit % 2 = 1 then
    (n / unit + 1) * unit
  else n / unit * unit

def Number.ofInt (i : ℤ) : Number :=
  if 2 ^ 1024 ≤ roundToEven i.natAbs then .infinity (i < 0)
  else .finite (i.sign * roundToEven i.natAbs)

/-! ## Bitwise or -/

/-- Neither a zero nor `NaN`. -/
def Number.isTruthy : Number → Bool
  | .finite value => value ≠ 0
  | .infinity _ => true
  | .nan => false

/-- The last 32 bits of the integral part. -/
def Number.toInt32 : Number → BitVec 32
  | .finite value => BitVec.ofInt 32 (value.num.tdiv value.den)
  | _ => 0

def Number.HasBit (number : Number) (i : ℕ) : Prop := number.toInt32.getLsbD i

def Number.ofInt32 (bits : BitVec 32) : Number := .finite bits.toInt

def Number.or (a b : Number) : Number := .ofInt32 (a.toInt32 ||| b.toInt32)

/-- The bits that are set in one of the numbers. -/
def bitsOf (numbers : List Number) : BitVec 32 :=
  numbers.foldr (fun number bits => number.toInt32 ||| bits) 0

/-- The bitwise or of numbers. A single number stays as it is. -/
def orAll : List Number → Number
  | [number] => number
  | numbers => .ofInt32 (bitsOf numbers)

section Or

variable {a b : Number} {xs ys : List Number}

theorem or_iff_or_iff {p q r : Prop} : (p ∨ q ↔ p ∨ r) ↔ p ∨ (q ↔ r) := by
  tauto

@[simp]
theorem toInt32_ofInt32 (bits : BitVec 32) : (Number.ofInt32 bits).toInt32 = bits := by
  simp [Number.ofInt32, Number.toInt32]

theorem ofInt32_inj {bits bits' : BitVec 32} :
    Number.ofInt32 bits = Number.ofInt32 bits' ↔ bits = bits' := by
  simp [Number.ofInt32, BitVec.toInt_inj]

theorem bitsOf_append : bitsOf (xs ++ ys) = bitsOf xs ||| bitsOf ys := by
  induction xs with
  | nil => simp [bitsOf]
  | cons x xs ih =>
      change x.toInt32 ||| bitsOf (xs ++ ys) = (x.toInt32 ||| bitsOf xs) ||| bitsOf ys
      rw [ih, BitVec.or_assoc]

/-- A bit is set if it is set in one of the numbers. -/
theorem getLsbD_bitsOf {i : ℕ} : (bitsOf xs).getLsbD i ↔ ∃ x ∈ xs, x.HasBit i := by
  induction xs with
  | nil => simp [bitsOf]
  | cons x xs ih =>
      change (x.toInt32 ||| bitsOf xs).getLsbD i ↔ _
      rw [BitVec.getLsbD_or, Bool.or_eq_true, ih]
      simp [Number.HasBit]

theorem bitsOf_eq_iff :
    bitsOf xs = bitsOf ys ↔ ∀ i, (∃ x ∈ xs, x.HasBit i) ↔ ∃ y ∈ ys, y.HasBit i := by
  constructor
  · intro same i
    rw [← getLsbD_bitsOf, ← getLsbD_bitsOf, same]
  · intro same
    apply BitVec.eq_of_getLsbD_eq
    intro i _
    apply Bool.eq_iff_iff.mpr
    rw [getLsbD_bitsOf, getLsbD_bitsOf]
    exact same i

theorem toInt32_orAll : (orAll xs).toInt32 = bitsOf xs := by
  unfold orAll
  split
  · simp [bitsOf]
  · exact toInt32_ofInt32 _

theorem orAll_of_one_lt (long : 1 < xs.length) : orAll xs = .ofInt32 (bitsOf xs) := by
  unfold orAll
  split
  · cases Nat.lt_irrefl _ long
  · rfl

theorem orAll_append (left : xs ≠ []) (right : ys ≠ []) :
    orAll (xs ++ ys) = (orAll xs).or (orAll ys) := by
  have long : 1 < (xs ++ ys).length := by
    have := List.length_pos_iff.mpr left
    have := List.length_pos_iff.mpr right
    rw [List.length_append]
    omega
  rw [orAll_of_one_lt long, bitsOf_append, Number.or, toInt32_orAll, toInt32_orAll]

/-- Two readings of the same things give the same bits: for each bit, a thing that is read alike
has it, or the others have it in both readings or in none. -/
theorem exists_hasBit_iff {α : Type} {f g : α → Number} {things : List α} (i : ℕ) :
    ((∃ x ∈ things, (f x).HasBit i) ↔ ∃ x ∈ things, (g x).HasBit i) ↔
      (∃ x ∈ things, f x = g x ∧ (g x).HasBit i) ∨
        ((∃ x ∈ things, f x ≠ g x ∧ (f x).HasBit i) ↔
          ∃ x ∈ things, f x ≠ g x ∧ (g x).HasBit i) := by
  have parts : ∀ h : α → Number, (∃ x ∈ things, (h x).HasBit i) ↔
      (∃ x ∈ things, f x = g x ∧ (h x).HasBit i) ∨
        ∃ x ∈ things, f x ≠ g x ∧ (h x).HasBit i := by
    intro h
    constructor
    · rintro ⟨x, member, bit⟩
      by_cases same : f x = g x
      · exact .inl ⟨x, member, same, bit⟩
      · exact .inr ⟨x, member, same, bit⟩
    · rintro (⟨x, member, -, bit⟩ | ⟨x, member, -, bit⟩)
      · exact ⟨x, member, bit⟩
      · exact ⟨x, member, bit⟩
  have alike : (∃ x ∈ things, f x = g x ∧ (f x).HasBit i) ↔
      ∃ x ∈ things, f x = g x ∧ (g x).HasBit i := by
    refine exists_congr fun x => and_congr_right fun _ => and_congr_right fun same => ?_
    rw [same]
  rw [parts f, parts g, alike]
  exact or_iff_or_iff

/-- Two readings of the same things give the same number: they agree on all of them, or there
are several and they have the same bits. -/
theorem orAll_map_eq_iff {α : Type} {f g : α → Number} {things : List α} (some : things ≠ []) :
    orAll (things.map f) = orAll (things.map g) ↔
      (∀ x ∈ things, f x = g x) ∨ 1 < things.length ∧ ∀ i,
        (∃ x ∈ things, f x = g x ∧ (g x).HasBit i) ∨
          ((∃ x ∈ things, f x ≠ g x ∧ (f x).HasBit i) ↔
            ∃ x ∈ things, f x ≠ g x ∧ (g x).HasBit i) := by
  by_cases long : 1 < things.length
  · have bits : orAll (things.map f) = orAll (things.map g) ↔ ∀ i,
        (∃ x ∈ things, (f x).HasBit i) ↔ ∃ x ∈ things, (g x).HasBit i := by
      rw [orAll_of_one_lt (by simpa using long), orAll_of_one_lt (by simpa using long),
        ofInt32_inj, bitsOf_eq_iff]
      simp
    constructor
    · intro same
      exact .inr ⟨long, fun i => (exists_hasBit_iff i).mp (bits.mp same i)⟩
    · rintro (same | ⟨-, same⟩)
      · exact congrArg orAll (List.map_congr_left same)
      · exact bits.mpr fun i => (exists_hasBit_iff i).mpr (same i)
  · obtain ⟨x, rfl⟩ : ∃ x, things = [x] := by
      apply List.length_eq_one_iff.mp
      have := List.length_pos_iff.mpr some
      omega
    simp [orAll]

end Or

/-! ## Reading octal digits -/

def blanks : List Char :=
  ['\t', '\n', '\u000B', '\u000C', '\r', ' ', '\u00A0', '\u1680', '\u2028', '\u2029',
    '\u202F', '\u205F', '\u3000', '\uFEFF']

def isWhiteSpace (c : Char) : Bool := c ∈ blanks ∨ '\u2000' ≤ c ∧ c ≤ '\u200A'

def isOctalDigit (c : Char) : Bool := '0' ≤ c ∧ c ≤ '7'

def octalValue (digits : List Char) : ℕ :=
  digits.foldl (fun value c => 8 * value + (c.toNat - '0'.toNat)) 0

/-- The sign that a text begins with, and what is behind it. -/
def takeSign : List Char → ℤ × List Char
  | '-' :: rest => (-1, rest)
  | '+' :: rest => (1, rest)
  | text => (1, text)

/-- `parseInt` with the radix 8. -/
def parseOctal (text : List Char) : Number :=
  let (sign, rest) := takeSign (text.dropWhile isWhiteSpace)
  let digits := rest.takeWhile isOctalDigit
  if digits = [] then .nan else .ofInt (sign * octalValue digits)

section Octal

theorem not_isWhiteSpace_of_isOctalDigit {c : Char} (digit : isOctalDigit c) :
    isWhiteSpace c = false := by
  have last : c ≤ '7' := by
    simp only [isOctalDigit, decide_eq_true_eq] at digit
    exact digit.2
  have apart : ¬ '\u2000' ≤ c := fun first => absurd (Char.le_trans first last) (by decide)
  have none : blanks.all (fun d => !isOctalDigit d) := by decide
  apply Bool.eq_false_iff.mpr
  intro blank
  rw [isWhiteSpace, decide_eq_true_eq] at blank
  obtain listed | ⟨first, -⟩ := blank
  · have noDigit := List.all_eq_true.mp none c listed
    rw [digit] at noDigit
    cases noDigit
  · exact apart first

/-- A text that begins with an octal digit has neither white space nor a sign in front. -/
theorem parseOctal_cons {c : Char} (rest : List Char) (digit : isOctalDigit c) :
    parseOctal (c :: rest) = .ofInt (octalValue ((c :: rest).takeWhile isOctalDigit)) := by
  have unsigned : takeSign (c :: rest) = (1, c :: rest) := by
    unfold takeSign
    split
    · rename_i same
      obtain rfl := (List.cons.inj same).1
      cases digit
    · rename_i same
      obtain rfl := (List.cons.inj same).1
      cases digit
    · rfl
  simp [parseOctal, not_isWhiteSpace_of_isOctalDigit digit, unsigned, digit]

end Octal

end Numbers
