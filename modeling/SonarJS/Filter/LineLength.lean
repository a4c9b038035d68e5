import Mathlib.Algebra.GroupWithZero.Nat
import Mathlib.Data.List.DropRight
import Mathlib.Data.List.Infix
import Mathlib.Data.Nat.Notation
import Mathlib.Tactic.Common

/-!
# The average length of lines

Files with long lines are taken for minified ones. The comment at the beginning of a file is left
out of the average. Where it ends is guessed from what a line contains and how it ends, line by
line, with three flags. The guess is wrong where comment delimiters overlap or are repeated.
-/

namespace SonarJS.LineLength

abbrev Line := List Char

/-- `String.trim`: spaces and control characters go at both ends. -/
def trim (line : Line) : Line :=
  (line.dropWhile fun c => c ≤ ' ').rdropWhile fun c => c ≤ ' '

def opening : Line := ['/', '*']

def closing : Line := ['*', '/']

def lineComment : Line := ['/', '/']

/-! ## The calculator -/

structure Flags where
  isAtFirstLine : Bool
  isInHeaderComment : Bool
  isClike : Bool
deriving DecidableEq

def initialFlags : Flags := ⟨true, false, false⟩

def isFirstLineInHeaderComment (flags : Flags) (line : Line) : Flags × Bool :=
  if opening <+: line ∧ (¬closing <:+: line ∨ closing <:+ line) then
    ({ flags with isClike := true, isInHeaderComment := !decide (closing <:+ line) }, true)
  else if lineComment <+: line then
    ({ flags with isClike := false, isInHeaderComment := true }, true)
  else (flags, false)

def isSubsequentLineInHeaderComment (flags : Flags) (line : Line) : Flags × Bool :=
  if flags.isClike then
    if closing <:+ line then ({ flags with isInHeaderComment := false }, true)
    -- closed and followed by something, possibly a long minified line
    else if closing <:+: line then ({ flags with isInHeaderComment := false }, false)
    else (flags, true)
  else if lineComment <+: line then (flags, true)
  else ({ flags with isInHeaderComment := false }, false)

def isLineInHeaderComment (flags : Flags) (line : Line) : Flags × Bool :=
  let trimmedLine := trim line
  if flags.isAtFirstLine then
    isFirstLineInHeaderComment { flags with isAtFirstLine := false } trimmedLine
  else if flags.isInHeaderComment then isSubsequentLineInHeaderComment flags trimmedLine
  else (flags, false)

/-- Which lines are left out, one after another. -/
@[grind =] def leftOut (flags : Flags) : List Line → List Bool
  | [] => []
  | line :: lines =>
    let result := isLineInHeaderComment flags line
    result.2 :: leftOut result.1 lines

/-- The length of a string in UTF-16. -/
def length (line : Line) : ℕ := (line.map fun c => if c.toNat < 0x10000 then 1 else 2).sum

def getAverageLineLength (lines : List Line) : ℕ :=
  let counted := ((lines.zip (leftOut initialFlags lines)).filter fun line => !line.2).map Prod.fst
  if 0 < counted.length then (counted.map length).sum / counted.length else 0

/-! ## The header comment -/

/-- What is behind the first end of a comment. -/
@[grind =] def behindClosing : Line → Option Line
  | '*' :: '/' :: rest => some rest
  | _ :: rest => behindClosing rest
  | [] => none

/-- The lines that belong to a block comment as a whole, if it has begun before them: up to the
first end of a comment, and the line with the end if there is nothing behind it. -/
def blockLines : List Line → List Bool
  | [] => []
  | line :: lines =>
    match behindClosing (trim line) with
    | none => true :: blockLines lines
    | some behind => behind.isEmpty :: lines.map fun _ => false

/-- The unbroken run of line comments. -/
def runLines : List Line → List Bool
  | [] => []
  | line :: lines =>
    if lineComment <+: trim line then true :: runLines lines
    else false :: lines.map fun _ => false

/-- The lines whose text belongs to the header comment as a whole. -/
def headerLines : List Line → List Bool
  | [] => []
  | line :: lines =>
    if opening <+: trim line then
      match behindClosing ((trim line).drop 2) with
      | none => true :: blockLines lines
      | some behind => behind.isEmpty :: lines.map fun _ => false
    else runLines (line :: lines)

/-! ## Where the guess is right -/

/-- The comment is not closed again at the end of the line on which it ends. -/
def ClosedOnce (behind : Line) : Prop := behind = [] ∨ ¬closing <:+ behind

/-- The comment that has begun before these lines is closed once on the line on which it ends. -/
def EndsOnce : List Line → Prop
  | [] => True
  | line :: lines =>
    match behindClosing (trim line) with
    | none => EndsOnce lines
    | some behind => ClosedOnce behind

/-- If the first line opens a block comment, either it ends on this line and is closed once there,
or it does not begin with `/*/` and is closed once on the line on which it ends. The line `/*/` may
also stand alone, or before a line on which the comment ends and something follows. -/
def IsPlain : List Line → Prop
  | [] => True
  | line :: lines =>
    opening <+: trim line →
      match behindClosing ((trim line).drop 2) with
      | some behind => ClosedOnce behind
      | none =>
        if ['/', '*', '/'] <+: trim line then
          trim line = ['/', '*', '/'] ∧ ∀ next ∈ lines.head?,
            ∃ behind, behindClosing (trim next) = some behind ∧ behind ≠ []
        else EndsOnce lines

/-! ## Ends of comments -/

section Closing

variable {line behind : Line}

theorem behindClosing_cons {c : Char} (other : ¬closing <+: c :: line) :
    behindClosing (c :: line) = behindClosing line := by
  conv_lhs => unfold behindClosing
  split
  · next rest same =>
    cases same
    exact absurd ⟨rest, rfl⟩ other
  · next rest _ same =>
    cases same
    rfl
  · next same => cases same

theorem exists_of_behindClosing (found : behindClosing line = some behind) :
    ∃ before, line = before ++ closing ++ behind := by
  induction line with
  | nil => simp [behindClosing] at found
  | cons c rest ih =>
      by_cases starts : closing <+: c :: rest
      · obtain ⟨tail, same⟩ := starts
        refine ⟨[], ?_⟩
        rw [← same] at found ⊢
        simpa [closing, behindClosing] using found
      · rw [behindClosing_cons starts] at found
        obtain ⟨before, same⟩ := ih found
        exact ⟨c :: before, by simp [same]⟩

theorem contains_iff : closing <:+: line ↔ (behindClosing line).isSome = true := by
  induction line with
  | nil => simp [closing, behindClosing]
  | cons c rest ih =>
      by_cases starts : closing <+: c :: rest
      · obtain ⟨tail, same⟩ := starts
        rw [← same]
        simpa [closing, behindClosing] using (List.prefix_append closing tail).isInfix
      · rw [behindClosing_cons starts, ← ih, List.infix_cons_iff]
        simp [starts]

theorem contains_of_behindClosing (found : behindClosing line = some behind) :
    closing <:+: line := by
  simp [contains_iff, found]

theorem not_contains_of_behindClosing (found : behindClosing line = none) :
    ¬closing <:+: line := by
  simp [contains_iff, found]

/-- Two ends of comments cannot share a character. -/
theorem endsWith_iff (found : behindClosing line = some behind) :
    closing <:+ line ↔ behind = [] ∨ closing <:+ behind := by
  obtain ⟨before, rfl⟩ := exists_of_behindClosing found
  constructor
  · intro ends
    match behind with
    | [] => exact Or.inl rfl
    | [c] =>
      obtain ⟨init, same⟩ := ends
      have same : (init ++ ['*']) ++ ['/'] = (before ++ ['*', '/']) ++ [c] := by
        simpa [closing] using same
      have last := (List.append_inj' same rfl).1
      have : init ++ ['*'] = (before ++ ['*']) ++ ['/'] := by simpa using last
      have := (List.append_inj' this rfl).2
      simp at this
    | c :: d :: rest =>
      refine Or.inr (List.suffix_of_suffix_length_le ends (List.suffix_append _ _) ?_)
      simp [closing]
  · rintro (rfl | ends)
    · simp
    · exact ends.trans (List.suffix_append _ _)

end Closing

/-! ## Lines after the first -/

section Lines

variable (flags : Flags) (line : Line) (lines : List Line)

@[simp]
theorem leftOut_past (clike : Bool) :
    leftOut ⟨false, false, clike⟩ lines = lines.map fun _ => false := by
  induction lines with
  | nil => rfl
  | cons line lines ih => simp [leftOut, isLineInHeaderComment, ih]

theorem leftOut_lineComments : leftOut ⟨false, true, false⟩ lines = runLines lines := by
  induction lines with
  | nil => rfl
  | cons line lines ih =>
      by_cases comment : lineComment <+: trim line
      · simp [leftOut, isLineInHeaderComment, isSubsequentLineInHeaderComment, runLines, comment,
          ih]
      · simp [leftOut, isLineInHeaderComment, isSubsequentLineInHeaderComment, runLines, comment]

theorem leftOut_blockComment :
    leftOut ⟨false, true, true⟩ lines = blockLines lines ↔ EndsOnce lines := by
  induction lines with
  | nil => simp [leftOut, blockLines, EndsOnce]
  | cons line lines ih =>
      cases found : behindClosing (trim line) with
      | none =>
          have inside := not_contains_of_behindClosing found
          have notLast : ¬closing <:+ trim line := fun ends => inside ends.isInfix
          simp [leftOut, isLineInHeaderComment, isSubsequentLineInHeaderComment, blockLines,
            EndsOnce, found, inside, notLast, ih]
      | some behind =>
          have inside := contains_of_behindClosing found
          by_cases ends : closing <:+ trim line
          · have := (endsWith_iff found).mp ends
            simp [leftOut, isLineInHeaderComment, isSubsequentLineInHeaderComment, blockLines,
              EndsOnce, ClosedOnce, found, ends]
            grind
          · have := mt (endsWith_iff found).mpr ends
            simp [leftOut, isLineInHeaderComment, isSubsequentLineInHeaderComment, blockLines,
              EndsOnce, ClosedOnce, found, ends, inside]
            grind

end Lines

/-! ## The header -/

/-- Behind `/*`, a `*/` that is not one behind the first two characters overlaps with it. -/
theorem contains_opened {rest : Line} (absent : behindClosing rest = none) :
    closing <:+: opening ++ rest ↔ ['/', '*', '/'] <+: opening ++ rest := by
  have outside := not_contains_of_behindClosing absent
  have : closing <+: ['*'] ++ rest ↔ ['/'] <+: rest := by simp [closing]
  simp only [opening, List.cons_append, List.nil_append] at this ⊢
  simp [List.infix_cons_iff, outside, this]
  simp [closing]

theorem endsWith_opened {rest : Line} (absent : behindClosing rest = none) :
    closing <:+ opening ++ rest ↔ opening ++ rest = ['/', '*', '/'] := by
  constructor
  · intro ends
    match rest with
    | [] => exact absurd ends (by decide)
    | [c] =>
      have := List.suffix_of_suffix_length_le ends (List.suffix_cons '/' ['*', c]) (Nat.le_refl 2)
      have := List.IsSuffix.eq_of_length this rfl
      simp only [closing, List.cons.injEq] at this
      simp [opening, ← this.2.1]
    | c :: d :: tail =>
      refine absurd (List.IsSuffix.isInfix ?_) (not_contains_of_behindClosing absent)
      exact List.suffix_of_suffix_length_le ends (List.suffix_append _ _) (by simp [closing])
  · intro same
    rw [same]
    exact ⟨['/'], rfl⟩

theorem blockLines_none_iff (lines : List Line) :
    (lines.map fun _ => false) = blockLines lines ↔
      ∀ next ∈ lines.head?, ∃ behind, behindClosing (trim next) = some behind ∧ behind ≠ [] := by
  cases lines with
  | nil => simp [blockLines]
  | cons next lines => cases found : behindClosing (trim next) <;> simp [blockLines, found]

section First

variable {line : Line} (lines : List Line) (opens : opening <+: trim line)

include opens

theorem leftOut_opened :
    leftOut initialFlags (line :: lines) =
      if closing <:+: trim line then
        decide (closing <:+ trim line) :: lines.map fun _ => false
      else true :: leftOut ⟨false, true, true⟩ lines := by
  obtain ⟨rest, same⟩ := opens
  have opens : opening <+: trim line := ⟨rest, same⟩
  have other : ¬lineComment <+: trim line := by simp [← same, lineComment, opening]
  by_cases inside : closing <:+: trim line
  · by_cases ends : closing <:+ trim line
    · simp [leftOut, initialFlags, isLineInHeaderComment, isFirstLineInHeaderComment, opens,
        inside, ends]
    · simp [leftOut, initialFlags, isLineInHeaderComment, isFirstLineInHeaderComment, opens,
        inside, ends, other]
  · have ends : ¬closing <:+ trim line := fun ends => inside ends.isInfix
    simp [leftOut, initialFlags, isLineInHeaderComment, isFirstLineInHeaderComment, opens,
      inside, ends]

/-- The comment ends on the first line. -/
theorem leftOut_iff_of_ends {behind : Line}
    (found : behindClosing ((trim line).drop 2) = some behind) :
    leftOut initialFlags (line :: lines) = headerLines (line :: lines) ↔
      IsPlain (line :: lines) := by
  obtain ⟨rest, same⟩ := id opens
  have dropped : (trim line).drop 2 = rest := by rw [← same]; rfl
  rw [dropped] at found
  have inside : closing <:+: trim line := by
    rw [← same]
    exact (contains_of_behindClosing found).trans (List.suffix_append _ _).isInfix
  have ends : closing <:+ trim line ↔ behind = [] ∨ closing <:+ behind := by
    rw [← endsWith_iff found, ← same]
    obtain ⟨before, rfl⟩ := exists_of_behindClosing found
    refine ⟨fun ends => ?_, fun ends => ends.trans (List.suffix_append _ _)⟩
    exact List.suffix_of_suffix_length_le ends (List.suffix_append _ _) (by simp; omega)
  rw [leftOut_opened lines opens]
  simp only [inside, if_true, headerLines, opens, IsPlain, dropped, found, ClosedOnce,
    List.cons.injEq, and_true, forall_const]
  cases behind with
  | nil => simp [ends]
  | cons c tail => simp [ends]

/-- The comment does not end on the first line. -/
theorem leftOut_iff_of_continues (found : behindClosing ((trim line).drop 2) = none) :
    leftOut initialFlags (line :: lines) = headerLines (line :: lines) ↔
      IsPlain (line :: lines) := by
  obtain ⟨rest, same⟩ := id opens
  have dropped : (trim line).drop 2 = rest := by rw [← same]; rfl
  have inside := contains_opened (dropped ▸ found)
  have ends := endsWith_opened (dropped ▸ found)
  rw [same] at inside ends
  rw [leftOut_opened lines opens]
  by_cases slash : ['/', '*', '/'] <+: trim line
  · by_cases alone : trim line = ['/', '*', '/']
    · have isEnd := ends.mpr alone
      simp only [inside.mpr slash, isEnd, headerLines, opens, IsPlain, found, slash, if_true,
        decide_true, List.cons.injEq, true_and, forall_const]
      rw [blockLines_none_iff, and_iff_right alone]
    · simp [inside.mpr slash, mt ends.mp alone, headerLines, opens, IsPlain, found, slash, alone]
  · simp [mt inside.mp slash, headerLines, opens, IsPlain, found, slash, leftOut_blockComment]

end First

/-- The lines that are left out are those of the header comment exactly for plain files. -/
theorem leftOut_iff (lines : List Line) :
    leftOut initialFlags lines = headerLines lines ↔ IsPlain lines := by
  cases lines with
  | nil => simp [leftOut, headerLines, IsPlain]
  | cons line lines =>
      by_cases opens : opening <+: trim line
      · cases found : behindClosing ((trim line).drop 2) with
        | none => exact leftOut_iff_of_continues lines opens found
        | some behind => exact leftOut_iff_of_ends lines opens found
      · by_cases comment : lineComment <+: trim line
        · simp [leftOut, initialFlags, isLineInHeaderComment, isFirstLineInHeaderComment,
            headerLines, runLines, IsPlain, opens, comment, leftOut_lineComments]
        · simp [leftOut, initialFlags, isLineInHeaderComment, isFirstLineInHeaderComment,
            headerLines, runLines, IsPlain, opens, comment]

/-- The comment that begins with `/*/` goes on, but its second line is counted. -/
theorem leftOut_ne_overlapping :
    leftOut initialFlags ["/*/".toList, "x".toList, "*/".toList] ≠
      headerLines ["/*/".toList, "x".toList, "*/".toList] := by
  decide

end SonarJS.LineLength
