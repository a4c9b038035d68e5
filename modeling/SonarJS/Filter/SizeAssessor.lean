import Mathlib.Algebra.Group.Nat.Defs
import Mathlib.Algebra.Ring.Int.Defs
import Mathlib.Data.List.Basic
import Mathlib.Data.List.Infix
import Mathlib.Data.Nat.Notation
import Mathlib.Tactic.Common

/-!
# Files that are too large

`SizeAssessor` reads a file in pieces and counts down from the limit, which is configured in
kilobytes and multiplied by 1000 in 64 bits. For limits whose product does not fit the result is
wrong, unless the file has a size for which both products give the same answer.
-/

namespace SonarJS.SizeAssessor

/-! ## The configuration -/

def defaultMaxFileSizeKb : Int64 := 1000

section Configuration

-- `Character.digit` with the radix ten, which knows the digits of all scripts
variable (digit : Char → Option ℕ)

def parseDigits (digits : List Char) : Option ℕ :=
  if digits = [] then none
  else (digits.mapM digit).map fun values => values.foldl (fun value d => 10 * value + d) 0

/-- `Long.parseLong`, which has no result for texts that are no 64-bit number. -/
def parseLong (str : String) : Option Int64 :=
  let value : Option ℤ :=
    match str.toList with
    | '-' :: digits => (parseDigits digit digits).map fun value => -(value : ℤ)
    | '+' :: digits => (parseDigits digit digits).map fun value => (value : ℤ)
    | digits => (parseDigits digit digits).map fun value => (value : ℤ)
  value.bind fun value => if -2 ^ 63 ≤ value ∧ value < 2 ^ 63 then some (.ofInt value) else none

def maxFileSizeKb (configured : Option String) : Int64 :=
  match configured with
  | none => defaultMaxFileSizeKb
  | some str =>
    match parseLong digit str with
    | none => defaultMaxFileSizeKb
    | some maxFileSizeKb => if maxFileSizeKb ≤ 0 then defaultMaxFileSizeKb else maxFileSizeKb

end Configuration

/-! ## Reading a file -/

def bufferSize : ℕ := 2048

def maxNoProgress : ℕ := 10000

/-- The pieces in which the content of a file is read, up to its end. -/
structure InputStream (content : List UInt8) where
  reads : List (List UInt8)
  whole : reads.flatten = content
  buffered : ∀ piece ∈ reads, piece.length ≤ bufferSize

/-- There are too many reads without progress, or the file cannot be read at all. -/
inductive ReadFailure
  | noProgress
  | unreadable

def canSkipAtLeast (reads : List (List UInt8)) (toSkip : Int64) (noProgressSince : ℕ) :
    Except ReadFailure Bool :=
  if 0 < toSkip then
    match reads with
    | [] => .ok false
    | piece :: reads =>
      let skipped := piece.length
      if skipped = 0 then
        if maxNoProgress < noProgressSince + 1 then .error .noProgress
        else canSkipAtLeast reads (toSkip - .ofNat skipped) (noProgressSince + 1)
      else canSkipAtLeast reads (toSkip - .ofNat skipped) 0
  else .ok true

def hasExcessiveSize (inputStream : Except ReadFailure (List (List UInt8)))
    (maxFileSizeBytes : Int64) : Bool :=
  match inputStream.bind (canSkipAtLeast · maxFileSizeBytes 0) with
  | .ok result => result
  | .error _ => true

def test (digit : Char → Option ℕ) (configured : Option String) {content : List UInt8}
    (inputStream : InputStream content) : Bool :=
  hasExcessiveSize (.ok inputStream.reads) (maxFileSizeKb digit configured * 1000)

/-! ## Counting down -/

/-- Less than 10000 reads one after another bring no progress. -/
def FewEmptyReads (reads : List (List UInt8)) : Prop :=
  ∀ empties, empties <:+: reads → (∀ piece ∈ empties, piece = []) → empties.length < 10000

theorem FewEmptyReads.tail {piece : List UInt8} {reads : List (List UInt8)}
    (few : FewEmptyReads (piece :: reads)) : FewEmptyReads reads :=
  fun empties inside => few empties (inside.trans (List.suffix_cons piece reads).isInfix)

/-- Counting down does not go below the least number. -/
theorem toInt_sub_ofNat {toSkip : Int64} (positive : 0 < toSkip) {skipped : ℕ}
    (small : skipped ≤ bufferSize) :
    (toSkip - .ofNat skipped).toInt = toSkip.toInt - skipped := by
  have positive : 0 < toSkip.toInt := Int64.lt_iff_toInt_lt.mp positive
  have limited := toSkip.toInt_lt
  have small : skipped ≤ 2048 := small
  rw [Int64.toInt_sub, Int64.toInt_ofNat_of_lt (by omega)]
  exact Int.bmod_eq_of_le (by omega) (by omega)

theorem canSkipAtLeast_eq {reads : List (List UInt8)} {toSkip : Int64} {noProgressSince : ℕ}
    (buffered : ∀ piece ∈ reads, piece.length ≤ bufferSize) (few : FewEmptyReads reads)
    (fewNow : ∀ empties, empties <+: reads → (∀ piece ∈ empties, piece = []) →
      noProgressSince + empties.length ≤ maxNoProgress) :
    canSkipAtLeast reads toSkip noProgressSince =
      .ok (decide (toSkip.toInt ≤ reads.flatten.length)) := by
  induction reads generalizing toSkip noProgressSince with
  | nil =>
      unfold canSkipAtLeast
      by_cases positive : 0 < toSkip
      · rw [if_pos positive]
        have positive : 0 < toSkip.toInt := Int64.lt_iff_toInt_lt.mp positive
        simp [positive]
      · rw [if_neg positive]
        have negative : ¬0 < toSkip.toInt := fun h => positive (Int64.lt_iff_toInt_lt.mpr h)
        simpa using negative
  | cons piece reads ih =>
      unfold canSkipAtLeast
      have small := buffered piece List.mem_cons_self
      have buffered' : ∀ piece ∈ reads, piece.length ≤ bufferSize :=
        fun piece member => buffered piece (List.mem_cons_of_mem _ member)
      by_cases positive : 0 < toSkip
      · rw [if_pos positive]
        have counted := toInt_sub_ofNat positive small
        by_cases empty : piece = []
        · subst empty
          have patient : noProgressSince + 1 ≤ maxNoProgress :=
            fewNow [[]] (List.prefix_append [[]] reads) (by simp)
          have fewNext : ∀ empties, empties <+: reads → (∀ piece ∈ empties, piece = []) →
              noProgressSince + 1 + empties.length ≤ maxNoProgress := by
            intro empties isPrefix allEmpty
            have := fewNow ([] :: empties) (List.cons_prefix_cons.mpr ⟨rfl, isPrefix⟩)
              (List.forall_mem_cons.mpr ⟨rfl, allEmpty⟩)
            rw [List.length_cons] at this
            omega
          dsimp only
          rw [if_pos List.length_nil, if_neg (Nat.not_lt.mpr patient),
            ih buffered' few.tail fewNext, counted]
          simp
        · have fewNext : ∀ empties, empties <+: reads → (∀ piece ∈ empties, piece = []) →
              0 + empties.length ≤ maxNoProgress := by
            intro empties isPrefix allEmpty
            have := few.tail empties isPrefix.isInfix allEmpty
            rw [maxNoProgress]
            omega
          dsimp only
          rw [if_neg (mt List.length_eq_zero_iff.mp empty), ih buffered' few.tail fewNext, counted]
          simp only [List.flatten_cons, List.length_append, Except.ok.injEq, decide_eq_decide]
          omega
      · rw [if_neg positive]
        have negative : ¬0 < toSkip.toInt := fun h => positive (Int64.lt_iff_toInt_lt.mpr h)
        simp only [Except.ok.injEq, Bool.true_eq, decide_eq_true_eq]
        omega

/-! ## The limit -/

section Limit

variable {digit : Char → Option ℕ} {str : String} {m : Int64} {content : List UInt8}
  {inputStream : InputStream content}

theorem maxFileSizeKb_eq (isValue : parseLong digit str = some m) (positive : 0 < m) :
    maxFileSizeKb digit (some str) = m := by
  have notSmall : ¬m ≤ 0 := by
    rw [Int64.le_iff_toInt_le, Int.not_le]
    exact Int64.lt_iff_toInt_lt.mp positive
  simp only [maxFileSizeKb, isValue]
  rw [if_neg notSmall]

/-- The size is compared with the product as it is computed. -/
theorem test_iff_of_product (isValue : parseLong digit str = some m) (positive : 0 < m)
    (few : FewEmptyReads inputStream.reads) :
    test digit (some str) inputStream = true ↔ (m * 1000).toInt ≤ content.length := by
  have skips : canSkipAtLeast inputStream.reads (m * 1000) 0 =
      .ok (decide ((m * 1000).toInt ≤ content.length)) := by
    rw [canSkipAtLeast_eq inputStream.buffered few, inputStream.whole]
    intro empties isPrefix allEmpty
    have := few empties isPrefix.isInfix allEmpty
    rw [maxNoProgress]
    omega
  rw [test, maxFileSizeKb_eq isValue positive, hasExcessiveSize]
  simp [Except.bind, skips]

/-- The test is exact if the product fits, and else for files for which the exact and the wrapped
product give the same answer. -/
theorem test_exact_iff (isValue : parseLong digit str = some m) (positive : 0 < m)
    (few : FewEmptyReads inputStream.reads) :
    (test digit (some str) inputStream = true ↔ m.toInt * 1000 ≤ content.length) ↔
      m.toInt ≤ 9223372036854775 ∨ m.toInt * 1000 ≤ content.length ∨
        content.length < (m.toInt * 1000).bmod (2 ^ 64) := by
  have wrapped : (m * 1000).toInt = (m.toInt * 1000).bmod (2 ^ 64) := Int64.toInt_mul m 1000
  have positive' : 0 < m.toInt := Int64.lt_iff_toInt_lt.mp positive
  rw [test_iff_of_product isValue positive few, wrapped]
  by_cases fits : m.toInt ≤ 9223372036854775
  · rw [Int.bmod_eq_of_le (by omega) (by omega)]
    simp [fits]
  · have below : (m.toInt * 1000).bmod (2 ^ 64) < m.toInt * 1000 := by
      have := @Int.bmod_lt (m.toInt * 1000) (2 ^ 64) (by decide)
      omega
    constructor
    · intro exact
      by_contra wrong
      omega
    · rintro (fits | reached | small)
      · omega
      · exact iff_of_true (by omega) reached
      · exact iff_of_false (by omega) (by omega)

end Limit

/-! ### Limits at the end of the range -/

/-- The digits of ASCII. -/
def asciiDigit (character : Char) : Option ℕ :=
  if character.isDigit then some (character.toNat - '0'.toNat) else none

/-- A file of three bytes, read in two pieces. -/
def threeBytes : InputStream [1, 2, 3] where
  reads := [[1, 2], [], [3]]
  whole := rfl
  buffered := by decide

theorem fewEmptyReads_threeBytes : FewEmptyReads threeBytes.reads := by
  intro empties inside _
  exact Nat.lt_of_le_of_lt inside.length_le (by decide)

/-- The greatest limit for which the test is exact is not reached. -/
theorem not_test_greatestLimit :
    test asciiDigit (some "9223372036854775") threeBytes = false := by
  have exact := (@test_exact_iff asciiDigit "9223372036854775" 9223372036854775 [1, 2, 3] threeBytes
    (by decide) (by decide) fewEmptyReads_threeBytes).mpr (.inl (by decide))
  rw [Bool.eq_false_iff]
  intro excluded
  exact absurd (exact.mp excluded) (by decide)

/-- With the next one, every file is too large. -/
theorem test_nextLimit :
    ¬∀ digit str m content, ∀ inputStream : InputStream content, parseLong digit str = some m →
      0 < m → FewEmptyReads inputStream.reads →
        (test digit (some str) inputStream = true ↔ m.toInt * 1000 ≤ content.length) := by
  intro all
  have exact := all asciiDigit "9223372036854776" 9223372036854776 [1, 2, 3] threeBytes
    (by decide) (by decide) fewEmptyReads_threeBytes
  revert exact
  decide

end SonarJS.SizeAssessor
