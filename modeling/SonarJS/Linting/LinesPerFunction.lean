import Mathlib.Data.List.Induction
import Mathlib.Order.Interval.Finset.Nat
import SonarJS.Foundation.Numbers
import SonarJS.Foundation.OrderedCollections
import SonarJS.Linting.SyntaxTree

/-!
# Counting the lines of a function

`max-lines-per-function` and `max-lines` count the lines of a location that are neither blank nor
taken by a comment. Which comment is on a line is looked up in a map that has one comment for each
line, so that of several comments on a line only the last one counts.

Columns are indices of the units of a line. Which units are white space is a parameter.
-/

namespace SonarJS.LinesPerFunction

open SyntaxTree

structure Comment where
  loc : Option SourceLocation
deriving DecidableEq

/-! ## The count -/

def setLines (comment : Comment) (loc : SourceLocation) (map : OrderedMap ℕ Comment) :
    OrderedMap ℕ Comment :=
  (List.range' loc.start.line (loc.stop.line + 1 - loc.start.line)).foldl
    (fun map i => map.set i comment) map

def getCommentLineNumbers (comments : List Comment) : OrderedMap ℕ Comment :=
  comments.foldl (fun map comment => comment.loc.elim map (setLines comment · map)) .empty

section Text

variable {α : Type} (isSpace : α → Bool)

/-- Nothing is left of the text when it is trimmed. -/
def isBlank (text : List α) : Bool := text.all isSpace

def isFullLineComment (text : List α) (lineNumber : ℕ) (comment : Comment) : Bool :=
  match comment.loc with
  | none => false
  | some ⟨start, stop⟩ =>
    let isFirstTokenOnLine := start.line = lineNumber ∧ isBlank isSpace (text.take start.column)
    let isLastTokenOnLine := stop.line = lineNumber ∧ isBlank isSpace (text.drop stop.column)
    (start.line < lineNumber ∨ isFirstTokenOnLine) ∧ (lineNumber < stop.line ∨ isLastTokenOnLine)

def countLine (lines : List (List α)) (commentLineNumbers : OrderedMap ℕ Comment)
    (lineCount i : ℕ) : Option ℕ := do
  let text ← lines[i]?
  if (commentLineNumbers.get (i + 1)).any (isFullLineComment isSpace text (i + 1)) then
    return lineCount
  if isBlank isSpace text then return lineCount
  return lineCount + 1

/-- There is no result if the text does not have all lines of the location. -/
def getLocsNumber (loc : SourceLocation) (lines : List (List α))
    (commentLineNumbers : OrderedMap ℕ Comment) : Option ℕ :=
  (List.range' (loc.start.line - 1) (loc.stop.line - (loc.start.line - 1))).foldlM
    (countLine isSpace lines commentLineNumbers) 0

/-! ## Lines with code -/

/-- The position is in the comment. -/
def Comment.Covers (comment : Comment) (p : Position) : Prop :=
  ∃ loc ∈ comment.loc, ¬p.Before loc.start ∧ p.Before loc.stop

instance (comment : Comment) : DecidablePred comment.Covers := fun p =>
  inferInstanceAs (Decidable (∃ loc ∈ comment.loc, ¬p.Before loc.start ∧ p.Before loc.stop))

/-- A part of the line belongs to the comment, if only its end. -/
def Comment.Touches (comment : Comment) (lineNumber : ℕ) : Prop :=
  ∃ loc ∈ comment.loc, loc.start.line ≤ lineNumber ∧ lineNumber ≤ loc.stop.line

instance (comment : Comment) : DecidablePred comment.Touches := fun lineNumber =>
  inferInstanceAs
    (Decidable (∃ loc ∈ comment.loc, loc.start.line ≤ lineNumber ∧ lineNumber ≤ loc.stop.line))

/-- The line has something outside of all comments. -/
def HasCode (comments : List Comment) (lineNumber : ℕ) (text : List α) : Prop :=
  ∃ column, ∃ inside : column < text.length, isSpace text[column] = false ∧
    ∀ comment ∈ comments, ¬comment.Covers ⟨lineNumber, column⟩

instance (comments : List Comment) (lineNumber : ℕ) :
    DecidablePred (HasCode isSpace comments lineNumber) := fun text =>
  inferInstanceAs (Decidable (∃ column, ∃ inside : column < text.length,
    isSpace text[column] = false ∧ ∀ comment ∈ comments, ¬comment.Covers ⟨lineNumber, column⟩))

/-- The line with this number, which is empty outside of the text. -/
def lineAt (lines : List (List α)) (lineNumber : ℕ) : List α := lines.getD (lineNumber - 1) []

/-- The lines of a location that have code. -/
def codeLines (loc : SourceLocation) (lines : List (List α)) (comments : List Comment) :
    Finset ℕ :=
  (Finset.Icc loc.start.line loc.stop.line).filter fun lineNumber =>
    HasCode isSpace comments lineNumber (lineAt lines lineNumber)

/-- The last comment on a line has all of its text. -/
def CoveredByLast (comments : List Comment) (lineNumber : ℕ) (text : List α) : Prop :=
  ∃ comment ∈ (comments.filter (·.Touches lineNumber)).getLast?,
    ∀ column, (inside : column < text.length) → isSpace text[column] = false →
      comment.Covers ⟨lineNumber, column⟩

end Text

/-! ## The map of comments -/

theorem get_foldl_set (comment : Comment) (lines : List ℕ) (map : OrderedMap ℕ Comment) (n : ℕ) :
    (lines.foldl (fun map i => map.set i comment) map).get n =
      if n ∈ lines then some comment else map.get n := by
  induction lines generalizing map with
  | nil => simp
  | cons i lines ih =>
      rw [List.foldl_cons, ih]
      by_cases same : n = i
      · simp [same]
      · simp [same]

theorem get_addComment (comment : Comment) (map : OrderedMap ℕ Comment) (n : ℕ) :
    (comment.loc.elim map (setLines comment · map)).get n =
      if comment.Touches n then some comment else map.get n := by
  cases located : comment.loc with
  | none => simp [Comment.Touches, located]
  | some loc =>
      have : n ∈ List.range' loc.start.line (loc.stop.line + 1 - loc.start.line) ↔
          comment.Touches n := by
        simp only [List.mem_range'_1, Comment.Touches, located, Option.mem_def,
          Option.some.injEq, exists_eq_left']
        omega
      simp only [Option.elim_some, setLines, get_foldl_set, this]

/-- The comment that is kept for a line is the last one on it. -/
theorem get_getCommentLineNumbers (comments : List Comment) (n : ℕ) :
    (getCommentLineNumbers comments).get n = (comments.filter (·.Touches n)).getLast? := by
  induction comments using List.reverseRecOn with
  | nil => rfl
  | append_singleton comments comment ih =>
      rw [getCommentLineNumbers, List.foldl_append, ← getCommentLineNumbers]
      simp only [List.foldl_cons, List.foldl_nil, get_addComment, ih, List.filter_append]
      by_cases touches : comment.Touches n
      · simp [touches]
      · simp [touches]

/-! ## Lines that are taken by a comment -/

section Text

variable {α : Type} {isSpace : α → Bool}

theorem isBlank_take_iff {text : List α} {bound : ℕ} :
    isBlank isSpace (text.take bound) = true ↔
      ∀ column, (inside : column < text.length) → isSpace text[column] = false →
        bound ≤ column := by
  simp only [isBlank, List.all_eq_true, List.mem_iff_getElem, List.length_take]
  constructor
  · intro blank column inside visible
    by_contra before
    have := blank text[column] ⟨column, by omega, by simp⟩
    simp [this] at visible
  · rintro behind _ ⟨column, inside, rfl⟩
    by_contra visible
    have := behind column (by omega) (by simpa using visible)
    omega

theorem isBlank_drop_iff {text : List α} {bound : ℕ} :
    isBlank isSpace (text.drop bound) = true ↔
      ∀ column, (inside : column < text.length) → isSpace text[column] = false →
        column < bound := by
  simp only [isBlank, List.all_eq_true, List.mem_iff_getElem, List.length_drop]
  constructor
  · intro blank column inside visible
    by_contra behind
    have same : bound + (column - bound) = column := by omega
    have := blank text[column] ⟨column - bound, by omega, by simp [same]⟩
    simp [this] at visible
  · rintro before _ ⟨column, inside, rfl⟩
    by_contra visible
    have := before (bound + column) (by omega) (by simpa using visible)
    omega

/-- A comment that touches a line takes the line if it has all of its text. -/
theorem isFullLineComment_iff {text : List α} {lineNumber : ℕ} {comment : Comment}
    (touches : comment.Touches lineNumber) :
    isFullLineComment isSpace text lineNumber comment = true ↔
      ∀ column, (inside : column < text.length) → isSpace text[column] = false →
        comment.Covers ⟨lineNumber, column⟩ := by
  obtain ⟨⟨start, stop⟩, located, first, last⟩ := touches
  rw [Option.mem_def] at located
  simp only [isFullLineComment, located, Comment.Covers, Position.Before, decide_eq_true_eq,
    isBlank_take_iff, isBlank_drop_iff, Option.mem_def, Option.some.injEq, exists_eq_left']
  simp only at first last
  constructor
  · rintro ⟨begins, ends⟩ column inside visible
    constructor
    · obtain before | ⟨same, behind⟩ := begins
      · omega
      · have := behind column inside visible
        omega
    · obtain after | ⟨same, before⟩ := ends
      · exact Or.inl after
      · exact Or.inr ⟨same.symm, before column inside visible⟩
  · intro covered
    constructor
    · by_cases same : start.line = lineNumber
      · refine Or.inr ⟨same, fun column inside visible => ?_⟩
        have := (covered column inside visible).1
        omega
      · exact Or.inl (by omega)
    · by_cases same : stop.line = lineNumber
      · refine Or.inr ⟨same, fun column inside visible => ?_⟩
        have := (covered column inside visible).2
        omega
      · exact Or.inl (by omega)

/-- Lines are left out by what the last comment on them covers. -/
theorem any_isFullLineComment_iff {comments : List Comment} {text : List α} {lineNumber : ℕ} :
    ((getCommentLineNumbers comments).get lineNumber).any
        (isFullLineComment isSpace text lineNumber) = true ↔
      CoveredByLast isSpace comments lineNumber text := by
  rw [get_getCommentLineNumbers, Option.any_eq_true, CoveredByLast]
  refine exists_congr fun comment => and_congr_right fun isLast => ?_
  have touches := (List.mem_filter.mp (List.mem_of_getLast? isLast)).2
  exact isFullLineComment_iff (of_decide_eq_true touches)

end Text

/-! ## The lines that are counted -/

section Counted

variable {α : Type} (isSpace : α → Bool) (loc : SourceLocation) (lines : List (List α))
  (comments : List Comment)

/-- Neither a comment nor blank, as the code has it. -/
def IsCounted (commentLineNumbers : OrderedMap ℕ Comment) (n : ℕ) : Prop :=
  ¬(commentLineNumbers.get n).any (isFullLineComment isSpace (lineAt lines n) n) = true ∧
    ¬isBlank isSpace (lineAt lines n) = true

instance (map : OrderedMap ℕ Comment) : DecidablePred (IsCounted isSpace lines map) := fun _ =>
  inferInstanceAs (Decidable (_ ∧ _))

/-- The lines that the loop counts. -/
def countedLines (commentLineNumbers : OrderedMap ℕ Comment) : Finset ℕ :=
  (Finset.Icc loc.start.line loc.stop.line).filter (IsCounted isSpace lines commentLineNumbers)

variable {lines} in
theorem countLine_eq {map : OrderedMap ℕ Comment} {lineCount i : ℕ} (inside : i < lines.length) :
    countLine isSpace lines map lineCount i =
      some (lineCount + if IsCounted isSpace lines map (i + 1) then 1 else 0) := by
  have text : lineAt lines (i + 1) = lines[i] := by
    simp [lineAt, List.getD_eq_getElem?_getD, inside]
  simp only [countLine, IsCounted, text, List.getElem?_eq_getElem inside, Option.bind_eq_bind,
    Option.bind_some]
  by_cases full : (map.get (i + 1)).any (isFullLineComment isSpace lines[i] (i + 1)) = true
  · simp [full]
  · by_cases blank : isBlank isSpace lines[i] = true
    · simp [blank]
    · simp [full, blank]

/-- The loop from any line on and with any count so far. -/
theorem foldlM_countLine (map : OrderedMap ℕ Comment) (first length lineCount : ℕ)
    (inside : ∀ i, first ≤ i → i < first + length → i < lines.length) :
    (List.range' first length).foldlM (countLine isSpace lines map) lineCount =
      some (lineCount + (List.range' (first + 1) length).countP
        fun n => IsCounted isSpace lines map n) := by
  induction length generalizing first lineCount with
  | zero => rfl
  | succ length ih =>
      have rest : ∀ i, first + 1 ≤ i → i < first + 1 + length → i < lines.length :=
        fun i begins ends => inside i (by omega) (by omega)
      rw [List.range'_succ, List.foldlM_cons, countLine_eq isSpace (inside _ le_rfl (by omega)),
        Option.bind_eq_bind, Option.bind_some, ih _ _ rest, List.range'_succ, List.countP_cons]
      simp only [decide_eq_true_eq]
      congr 1
      omega

theorem getLocsNumber_eq (first : 1 ≤ loc.start.line) (last : loc.stop.line ≤ lines.length)
    (map : OrderedMap ℕ Comment) :
    getLocsNumber isSpace loc lines map = some (countedLines isSpace loc lines map).card := by
  have bounds : loc.start.line - 1 + 1 = loc.start.line ∧
      loc.stop.line - (loc.start.line - 1) = loc.stop.line + 1 - loc.start.line := by omega
  have count : (countedLines isSpace loc lines map).card =
      (List.range' loc.start.line (loc.stop.line + 1 - loc.start.line)).countP
        fun n => IsCounted isSpace lines map n :=
    List.countP_eq_length_filter.symm
  rw [getLocsNumber, foldlM_countLine isSpace lines map _ _ _ (by omega), bounds.1, bounds.2,
    count, Nat.zero_add]

/-- Code is not lost. -/
theorem codeLines_subset :
    codeLines isSpace loc lines comments ⊆
      countedLines isSpace loc lines (getCommentLineNumbers comments) := by
  intro n code
  obtain ⟨within, column, inside, visible, outside⟩ := Finset.mem_filter.mp code
  refine Finset.mem_filter.mpr ⟨within, ?_, ?_⟩
  · rw [any_isFullLineComment_iff]
    rintro ⟨comment, isLast, covered⟩
    have member := (List.mem_filter.mp (List.mem_of_getLast? isLast)).1
    exact outside comment member (covered column inside visible)
  · intro blank
    have := List.all_eq_true.mp blank _ (List.getElem_mem inside)
    simp [this] at visible

/-- The lines with code are counted exactly if each other line is blank or has a last comment that
covers it. -/
theorem getLocsNumber_exact_iff (first : 1 ≤ loc.start.line)
    (last : loc.stop.line ≤ lines.length) :
    getLocsNumber isSpace loc lines (getCommentLineNumbers comments) =
        some (codeLines isSpace loc lines comments).card ↔
      ∀ n, loc.start.line ≤ n → n ≤ loc.stop.line →
        HasCode isSpace comments n (lineAt lines n) ∨
          isBlank isSpace (lineAt lines n) = true ∨
          CoveredByLast isSpace comments n (lineAt lines n) := by
  rw [getLocsNumber_eq isSpace loc lines first last, Option.some.injEq]
  have subset := codeLines_subset isSpace loc lines comments
  constructor
  · intro same n begins ends
    by_contra! other
    have counted : n ∈ countedLines isSpace loc lines (getCommentLineNumbers comments) := by
      refine Finset.mem_filter.mpr ⟨Finset.mem_Icc.mpr ⟨begins, ends⟩, ?_, other.2.1⟩
      rw [any_isFullLineComment_iff]
      exact other.2.2
    rw [← Finset.eq_of_subset_of_card_le subset same.le] at counted
    exact other.1 (Finset.mem_filter.mp counted).2
  · intro plain
    refine congrArg Finset.card (Finset.Subset.antisymm (fun n counted => ?_) subset)
    obtain ⟨within, notFull, notBlank⟩ := Finset.mem_filter.mp counted
    rw [any_isFullLineComment_iff] at notFull
    obtain ⟨begins, ends⟩ := Finset.mem_Icc.mp within
    obtain code | blank | covered := plain n begins ends
    · exact Finset.mem_filter.mpr ⟨within, code⟩
    · exact absurd blank notBlank
    · exact absurd covered notFull

end Counted

/-- A function with a comment behind its code. -/
theorem getLocsNumber_exact_of_trailing :
    getLocsNumber Numbers.isWhiteSpace ⟨⟨1, 0⟩, ⟨2, 1⟩⟩ ["f() \x7b // c".toList, "\x7d".toList]
        (getCommentLineNumbers [⟨some ⟨⟨1, 6⟩, ⟨1, 10⟩⟩⟩]) =
      some (codeLines Numbers.isWhiteSpace ⟨⟨1, 0⟩, ⟨2, 1⟩⟩ ["f() \x7b // c".toList, "\x7d".toList]
        [⟨some ⟨⟨1, 6⟩, ⟨1, 10⟩⟩⟩]).card := by
  refine (getLocsNumber_exact_iff _ _ _ _ (by decide) (by decide)).mpr fun n first last => ?_
  simp only at first last
  obtain rfl | rfl : n = 1 ∨ n = 2 := by omega
  · exact Or.inl (by decide)
  · exact Or.inl (by decide)

/-- The line has two comments and nothing else, but it is counted. -/
theorem getLocsNumber_ne_codeLines :
    getLocsNumber Numbers.isWhiteSpace ⟨⟨1, 0⟩, ⟨3, 1⟩⟩
        ["f() \x7b".toList, "/* a */ /* b */".toList, "\x7d".toList]
        (getCommentLineNumbers [⟨some ⟨⟨2, 0⟩, ⟨2, 7⟩⟩⟩, ⟨some ⟨⟨2, 8⟩, ⟨2, 15⟩⟩⟩]) ≠
      some (codeLines Numbers.isWhiteSpace ⟨⟨1, 0⟩, ⟨3, 1⟩⟩
        ["f() \x7b".toList, "/* a */ /* b */".toList, "\x7d".toList]
        [⟨some ⟨⟨2, 0⟩, ⟨2, 7⟩⟩⟩, ⟨some ⟨⟨2, 8⟩, ⟨2, 15⟩⟩⟩]).card := by
  decide

end SonarJS.LinesPerFunction
