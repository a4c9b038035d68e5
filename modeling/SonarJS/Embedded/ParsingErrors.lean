import Mathlib.Data.List.TakeWhile
import SonarJS.Foundation.Replacement
import SonarJS.Embedded.SourceCode

/-!
# Relocating the parsing errors of a snippet

A parsing error in a snippet has a line, and its message tells line and column once more,
as in `Unexpected token ','. (7:22)`. `patchParsingError` changes both from places in the
snippet to places in the file. In the message a regular expression finds the location, and
the first text that reads like it is replaced.

Lines are counted from 1 and columns, in an error, from 0. The numbers in a message are
numerals without a leading zero.
-/

namespace SonarJS.Embedded

open Replacement

/-! ## Patching -/

/-- `found.groups`, the texts that the named groups have matched. -/
structure Groups where
  line : String
  column : String

/-- A match of `/((?<line>\d+):(?<column>\d+))/` at the head of a text. -/
def regex (text : List Char) : Option Groups :=
  match text.dropWhile Char.isDigit with
  | ':' :: rest =>
    let line := text.takeWhile Char.isDigit
    let column := rest.takeWhile Char.isDigit
    if line = [] ∨ column = [] then none else some ⟨String.ofList line, String.ofList column⟩
  | _ => none

/-- `Number`, for decimal digits. -/
def number (digits : String) : ℕ := Nat.ofDigitChars 10 digits.toList 0

def replace (message pattern replacement : String) : String :=
  String.ofList (replaceFirst pattern.toList replacement.toList message.toList)

def location (line column : String) : String := "(" ++ line ++ ":" ++ column ++ ")"

def patchedColumn (embeddedJS : EmbeddedJS) (column : ℕ) : ℕ :=
  if embeddedJS.format = .plain then column + embeddedJS.column - 1 else column

def patchedLine (embeddedJS : EmbeddedJS) (line : ℕ) : ℕ :=
  if embeddedJS.format = .plain then embeddedJS.line else embeddedJS.line + line

def patchParsingErrorMessage (message : String) (patchedLine : ℕ) (embeddedJS : EmbeddedJS) :
    String :=
  match firstMatch regex message.toList with
  | some found =>
    let column := number found.column
    replace message (location found.line (toString column))
      (location (toString patchedLine) (toString (patchedColumn embeddedJS column)))
  | none => message

def patchParsingError (parsingError : APIError) (embeddedJS : EmbeddedJS) : APIError :=
  match parsingError.line with
  | some line =>
    { message :=
        patchParsingErrorMessage parsingError.message (patchedLine embeddedJS line) embeddedJS
      line := some (patchedLine embeddedJS line) }
  | none => parsingError

/-! ## Parsing errors and their places -/

/-- The position of an index of the code, as the parser counts. -/
def EmbeddedJS.position (snippet : EmbeddedJS) (index : ℕ) : Lines.Location :=
  Lines.locate (Lines.starts eslintBreaks.pattern snippet.code) index

/-- The same position in the file, with the lines that the snippet has from its host. -/
def EmbeddedJS.place (snippet : EmbeddedJS) (start index : ℕ) : Lines.Location :=
  Lines.locate snippet.lineStarts (start + index)

/-- The location in a message that stands for a position. -/
def locationOf (position : Lines.Location) : String :=
  location (toString position.line) (toString position.column)

/-- A parsing error at a position, which its message tells between two other texts. -/
def errorAt (before : String) (position : Lines.Location) (after : String) : APIError where
  message := before ++ locationOf position ++ after
  line := some position.line

/-- Where the code of a snippet stands in the host text: at its offset, or in a block on the
line after the marker. -/
structure Stands (text : Text) (snippet : EmbeddedJS) (start : ℕ) : Prop where
  code : slice text start (start + snippet.code.length) = snippet.code
  plain : snippet.format = .plain → start = snippet.offset
  block : snippet.format ≠ .plain →
    snippet.valueStart < start ∧ text[start - 1]? = some LF ∧
      ∀ i, snippet.valueStart ≤ i → i + 1 < start → text[i]? ≠ some LF

/-- What comes before the location in a message does not hide it: the first location in
there, if any, reads the same, and the whole text of the location is not in there. -/
structure Exposed (before : String) (position : Lines.Location) : Prop where
  same : ∀ found, firstMatch regex before.toList = some found →
    found.line = toString position.line ∧ number found.column = position.column
  fresh : ¬ (locationOf position).toList <:+: before.toList

/-! ## The message -/

theorem isDigit_toString (n : ℕ) : ∀ c ∈ (toString n).toList, c.isDigit := by
  intro c member
  rw [Nat.toString_eq_repr, Nat.toList_repr] at member
  exact Nat.isDigit_of_mem_toDigits (by omega) (by omega) member

theorem number_toString (n : ℕ) : number (toString n) = n := by
  rw [number, Nat.toString_eq_repr, Nat.toList_repr]
  exact Nat.ofDigitChars_ten_toDigits

theorem toString_inj {m n : ℕ} : toString m = toString n ↔ m = n := by
  refine ⟨fun same => ?_, fun same => same ▸ rfl⟩
  rw [← number_toString m, ← number_toString n, same]

theorem toList_location (line column : String) :
    (location line column).toList =
      '(' :: (line.toList ++ ':' :: column.toList) ++ [')'] := by
  simp [location]

section Digits

variable {line column : String} (line_digits : ∀ c ∈ line.toList, c.isDigit)
  (column_digits : ∀ c ∈ column.toList, c.isDigit)

include line_digits column_digits

theorem bracketed_location : Bracketed '(' ')' (location line column).toList := by
  have others (c : Char) (notColon : c ≠ ':') (notDigit : ¬ c.isDigit) :
      c ∉ line.toList ++ ':' :: column.toList := by
    intro member
    obtain inLine | inColumn := List.mem_append.mp member
    · exact notDigit (line_digits c inLine)
    · obtain rfl | inColumn := List.mem_cons.mp inColumn
      · exact notColon rfl
      · exact notDigit (column_digits c inColumn)
  exact ⟨_, toList_location line column, others _ (by decide) (by decide),
    others _ (by decide) (by decide)⟩

end Digits

theorem location_inj {line column line' column' : String}
    (line_digits : ∀ c ∈ line.toList, c.isDigit) (line_digits' : ∀ c ∈ line'.toList, c.isDigit) :
    (location line column).toList = (location line' column').toList ↔
      line = line' ∧ column = column' := by
  constructor
  · intro same
    have noColon : ':' ∉ line.toList := fun member => absurd (line_digits _ member) (by decide)
    have noColon' : ':' ∉ line'.toList := fun member => absurd (line_digits' _ member) (by decide)
    rw [toList_location, toList_location, List.cons_append, List.cons_append,
      List.cons_eq_cons] at same
    obtain ⟨inner, -⟩ := List.append_inj' same.2 rfl
    obtain ⟨sameLine, sameColumn⟩ := append_cons_inj noColon noColon' inner
    exact ⟨String.toList_inj.mp sameLine, String.toList_inj.mp sameColumn⟩
  · rintro ⟨rfl, rfl⟩
    rfl

theorem bracketed_locationOf (position : Lines.Location) :
    Bracketed '(' ')' (locationOf position).toList :=
  bracketed_location (isDigit_toString position.line) (isDigit_toString position.column)

theorem locationOf_inj {position place : Lines.Location} :
    (locationOf position).toList = (locationOf place).toList ↔ position = place := by
  unfold locationOf
  rw [location_inj (isDigit_toString _) (isDigit_toString _), toString_inj, toString_inj,
    Lines.Location.mk.injEq]

theorem regex_digits {text : List Char} {found : Groups} (h : regex text = some found) :
    ∀ c ∈ found.line.toList, c.isDigit := by
  unfold regex at h
  split at h
  · simp only at h
    split at h
    · cases h
    · cases h
      intro c member
      rw [String.toList_ofList] at member
      exact List.mem_takeWhile_imp member
  · cases h

/-- No match goes over an opening parenthesis. -/
theorem regex_stops (before after : List Char) : regex (before ++ '(' :: after) = regex before := by
  have other : Char.isDigit '(' = false := by decide
  have line : (before ++ '(' :: after).takeWhile Char.isDigit = before.takeWhile Char.isDigit :=
    takeWhile_append_stop other before after
  have rest : (before ++ '(' :: after).dropWhile Char.isDigit =
      before.dropWhile Char.isDigit ++ '(' :: after := dropWhile_append_stop other before after
  unfold regex
  rw [line, rest]
  cases before.dropWhile Char.isDigit with
  | nil => rfl
  | cons c rest =>
      by_cases colon : c = ':'
      · subst colon
        simp only [List.cons_append, takeWhile_append_stop other]
      · simp [colon]

theorem regex_location (line column : ℕ) (after : List Char) :
    regex ((toString line).toList ++ ':' :: ((toString column).toList ++ ')' :: after)) =
      some ⟨toString line, toString column⟩ := by
  have colon : Char.isDigit ':' = false := by decide
  have parenthesis : Char.isDigit ')' = false := by decide
  have all (n : ℕ) : (toString n).toList.takeWhile Char.isDigit = (toString n).toList :=
    List.takeWhile_eq_self_iff.mpr (isDigit_toString n)
  have nonempty (n : ℕ) : (toString n).toList ≠ [] := by
    rw [Nat.toString_eq_repr, Nat.toList_repr]
    exact Nat.toDigits_ne_nil
  unfold regex
  rw [List.dropWhile_append_of_pos (isDigit_toString line), takeWhile_append_stop colon, all,
    List.dropWhile_cons_of_neg (by simp [colon])]
  simp only [takeWhile_append_stop parenthesis, all, nonempty, or_self, if_false,
    String.ofList_toList]

theorem toList_message (before : String) (position : Lines.Location) (after : String) :
    (errorAt before position after).message.toList =
      before.toList ++ (locationOf position).toList ++ after.toList := by
  simp only [errorAt, String.toList_append]

/-- The regular expression finds a location before the one of the error, or that one. -/
theorem firstMatch_message (before : String) (position : Lines.Location) (after : String) :
    firstMatch regex (errorAt before position after).message.toList =
      some ((firstMatch regex before.toList).getD
        ⟨toString position.line, toString position.column⟩) := by
  have split : (errorAt before position after).message.toList = before.toList ++ '(' ::
      ((toString position.line).toList ++
        ':' :: ((toString position.column).toList ++ ')' :: after.toList)) := by
    rw [toList_message, locationOf, toList_location]
    simp only [List.append_assoc, List.cons_append, List.nil_append]
  rw [split, firstMatch_append regex_stops, firstMatch_of_head (regex_location _ _ _)]
  cases firstMatch regex before.toList with
  | none => rfl
  | some found => rfl

/-- The message is right exactly if its location is exposed and line and column are right. -/
theorem patchParsingErrorMessage_eq_iff {position place : Lines.Location}
    (moved : position ≠ place) (before after : String) (line : ℕ) (snippet : EmbeddedJS) :
    patchParsingErrorMessage (errorAt before position after).message line snippet =
        (errorAt before place after).message ↔
      (line = place.line ∧ patchedColumn snippet position.column = place.column) ∧
        Exposed before position := by
  obtain ⟨found, isFound⟩ : ∃ found, found = (firstMatch regex before.toList).getD
      ⟨toString position.line, toString position.column⟩ := ⟨_, rfl⟩
  have first := firstMatch_message before position after
  rw [← isFound] at first
  have same_iff : (∀ first, firstMatch regex before.toList = some first →
      first.line = toString position.line ∧ number first.column = position.column) ↔
      found.line = toString position.line ∧ number found.column = position.column := by
    rw [isFound]
    cases firstMatch regex before.toList with
    | none => simp only [Option.getD_none, number_toString, reduceCtorEq, false_implies,
        implies_true, and_self]
    | some first => simp only [Option.getD_some, Option.some.injEq, forall_eq']
  have foundDigits : ∀ c ∈ found.line.toList, c.isDigit := by
    obtain ⟨rest, here⟩ := exists_of_firstMatch first
    exact regex_digits here
  have patched : (patchParsingErrorMessage (errorAt before position after).message line
      snippet).toList =
      replaceFirst (location found.line (toString (number found.column))).toList
        (locationOf ⟨line, patchedColumn snippet (number found.column)⟩).toList
        (before.toList ++ (locationOf position).toList ++ after.toList) := by
    unfold patchParsingErrorMessage
    rw [first]
    simp only [replace, String.toList_ofList, toList_message]
    rfl
  have old_ne_new : (locationOf position).toList ≠ (locationOf place).toList :=
    fun same => moved (locationOf_inj.1 same)
  rw [← String.toList_inj, patched, toList_message,
    replaceFirst_eq_iff (by decide) (bracketed_location foundDigits (isDigit_toString _))
      (bracketed_locationOf _) (bracketed_locationOf _) (bracketed_locationOf _) old_ne_new]
  rw [locationOf_inj]
  unfold locationOf
  rw [location_inj foundDigits (isDigit_toString _), toString_inj]
  constructor
  · rintro ⟨same, new, fresh⟩
    cases new
    rw [same.2]
    exact ⟨⟨rfl, rfl⟩, same_iff.mpr same, fresh⟩
  · rintro ⟨⟨sameLine, sameColumn⟩, same, fresh⟩
    have same := same_iff.mp same
    rw [same.2, sameLine, sameColumn]
    exact ⟨⟨same.1, rfl⟩, rfl, fresh⟩

/-! ## The position -/

section Position

variable {text : Text} {breaks : Lines.Breaks CodeUnit} {snippet : EmbeddedJS} {start index : ℕ}

/-- The starts of the file up to the snippet, and in the snippet those that the parser sees. -/
def parserStarts (snippet : EmbeddedJS) (start : ℕ) : List ℕ :=
  Lines.graft snippet.lineStarts start (Lines.starts eslintBreaks.pattern snippet.code)

theorem Stands.getElem?_code (stands : Stands text snippet start) {i : ℕ}
    (inside : i < snippet.code.length) : text[start + i]? = snippet.code[i]? := by
  have known : snippet.code[i]? = (slice text start (start + snippet.code.length))[i]? := by
    rw [stands.code]
  rw [known, slice, List.getElem?_drop, List.getElem?_take_of_lt (by omega)]

theorem Stands.endsAt (host : HostBreaks breaks) (stands : Stands text snippet start) {i : ℕ}
    (inside : i < snippet.code.length) (ends : breaks.EndsAt text (start + i)) :
    eslintBreaks.EndsAt snippet.code i := by
  obtain ⟨c, here, breaking, single⟩ := endsAt_eslintBreaks host ends
  refine ⟨c, by rwa [← stands.getElem?_code inside], breaking, ?_⟩
  rintro ⟨cr, next⟩
  have within : i + 1 < snippet.code.length := (List.getElem?_eq_some_iff.mp next).1
  exact single ⟨cr, by rwa [Nat.add_assoc, stands.getElem?_code within]⟩

theorem Extracted.yaml_of_block (extracted : Extracted text breaks snippet)
    (block : snippet.format ≠ .plain) : breaks = yamlBreaks := by
  cases extracted with
  | html member => exact absurd (format_of_mem_parseHTML member) block
  | yaml parsed member => rfl

theorem Extracted.valid (extracted : Extracted text breaks snippet) :
    Lines.Valid snippet.lineStarts := by
  rw [extracted.wellPlaced.lineStarts_eq]
  exact breaks.valid_starts text

/-- Line starts of the file in the snippet are line starts for the parser. -/
theorem mem_parserStarts_of_mem (extracted : Extracted text breaks snippet)
    (stands : Stands text snippet start) (inside : index ≤ snippet.code.length) :
    ∀ s ∈ snippet.lineStarts, s ≤ start + index → s ∈ parserStarts snippet start := by
  intro s member le
  obtain after | before := Nat.lt_or_ge start s
  · rw [extracted.wellPlaced.lineStarts_eq, Lines.Breaks.mem_starts] at member
    obtain rfl | ⟨i, rfl, ends⟩ := member
    · omega
    · obtain ⟨j, rfl⟩ := Nat.exists_eq_add_of_le (show start ≤ i by omega)
      apply Lines.mem_graft.mpr
      refine .inr ⟨j + 1, ?_, by omega, by omega⟩
      exact eslintBreaks.mem_starts.mpr
        (.inr ⟨j, rfl, stands.endsAt extracted.host (by omega) ends⟩)
  · exact Lines.mem_graft.mpr (.inl ⟨member, before⟩)

/-- The parser counts as the file does if the file has all line starts of the parser. -/
theorem place_eq_iff (extracted : Extracted text breaks snippet)
    (stands : Stands text snippet start) (inside : index ≤ snippet.code.length) :
    snippet.place start index = Lines.locate (parserStarts snippet start) (start + index) ↔
      ∀ t ∈ Lines.starts eslintBreaks.pattern snippet.code, 0 < t → t ≤ index →
        start + t ∈ snippet.lineStarts := by
  have validParser : Lines.Valid (parserStarts snippet start) :=
    extracted.valid.graft (eslintBreaks.valid_starts snippet.code)
  have subset := mem_parserStarts_of_mem extracted stands inside
  rw [EmbeddedJS.place, extracted.valid.locate_eq_iff validParser subset]
  constructor
  · intro all t member pos le
    exact all (start + t) (Lines.mem_graft.mpr (.inr ⟨t, member, pos, rfl⟩)) (by omega)
  · intro all s member le
    obtain ⟨known, -⟩ | ⟨t, inCode, pos, rfl⟩ := Lines.mem_graft.mp member
    · exact known
    · exact all t inCode pos (by omega)

/-- A block starts on the line after its marker. -/
theorem line_start_of_block (extracted : Extracted text breaks snippet)
    (stands : Stands text snippet start) (block : snippet.format ≠ .plain) :
    Lines.line snippet.lineStarts start = snippet.line + 1 ∧
      Lines.lineStart snippet.lineStarts start = start := by
  obtain ⟨after, feed, noFeed⟩ := stands.block block
  have placed := extracted.wellPlaced
  have valid := extracted.valid
  obtain rfl := extracted.yaml_of_block block
  have mem_iff (s : ℕ) : s ∈ snippet.lineStarts ↔
      s = 0 ∨ ∃ i, s = i + 1 ∧ yamlBreaks.EndsAt text i := by
    rw [placed.lineStarts_eq]
    exact yamlBreaks.mem_starts
  have member : start ∈ snippet.lineStarts :=
    (mem_iff start).mpr (.inr ⟨start - 1, by omega, endsAt_yamlBreaks.mpr feed⟩)
  have gap : ∀ s ∈ snippet.lineStarts, s ≤ start → s ≤ snippet.valueStart ∨ s = start := by
    intro s known le
    obtain rfl | ⟨i, rfl, ends⟩ := (mem_iff s).mp known
    · exact .inl (Nat.zero_le _)
    · by_contra neither
      exact noFeed i (by omega) (by omega) (endsAt_yamlBreaks.mp ends)
  rw [valid.line_succ after member gap, placed.line_eq, placed.lineStarts_eq]
  exact ⟨rfl, placed.lineStarts_eq ▸ valid.lineStart_of_mem member⟩

/-- What `patchParsingError` makes of a position. -/
def patchedLocation (snippet : EmbeddedJS) (position : Lines.Location) : Lines.Location where
  line := patchedLine snippet position.line
  column := patchedColumn snippet position.column

/-- On the first line, and only there, the column is the index. -/
theorem position_column (snippet : EmbeddedJS) (index : ℕ) :
    (snippet.position index).column ≤ index ∧
      ((snippet.position index).column = index ↔ (snippet.position index).line = 1) := by
  have valid := eslintBreaks.valid_starts snippet.code
  refine ⟨Nat.sub_le _ _, fun same => ?_, fun first => ?_⟩
  · have le : Lines.lineStart (Lines.starts eslintBreaks.pattern snippet.code) index ≤ index :=
      valid.lineStart_le
    have column : index - Lines.lineStart (Lines.starts eslintBreaks.pattern snippet.code) index =
        index := same
    by_contra later
    have pos := valid.lineStart_pos later
    omega
  · rw [EmbeddedJS.position, Lines.locate, valid.lineStart_eq_zero first, Nat.sub_zero]

/-- In a block, positions are moved as if all line starts of the parser counted. -/
theorem patchedLocation_of_block (extracted : Extracted text breaks snippet)
    (stands : Stands text snippet start) (block : snippet.format ≠ .plain) :
    patchedLocation snippet (snippet.position index) =
      Lines.locate (parserStarts snippet start) (start + index) := by
  obtain ⟨line, lineStart⟩ := line_start_of_block extracted stands block
  have validCode := eslintBreaks.valid_starts snippet.code
  rw [parserStarts, Lines.locate_graft extracted.valid validCode, line, lineStart]
  simp only [patchedLocation, patchedLine, patchedColumn, EmbeddedJS.position, Lines.locate,
    if_neg block, Lines.Location.mk.injEq]
  refine ⟨by omega, ?_⟩
  split
  · rename_i first
    rw [validCode.lineStart_eq_zero first]
    omega
  · rfl

theorem patchedLocation_eq_iff_of_block (extracted : Extracted text breaks snippet)
    (stands : Stands text snippet start) (block : snippet.format ≠ .plain)
    (inside : index ≤ snippet.code.length) :
    patchedLocation snippet (snippet.position index) = snippet.place start index ↔
      ∀ i < index, ¬ UnknownBreak breaks snippet.code i := by
  rw [patchedLocation_of_block extracted stands block, eq_comm,
    place_eq_iff extracted stands inside]
  have known (i : ℕ) (within : i < index) :
      start + (i + 1) ∈ snippet.lineStarts ↔ breaks.EndsAt snippet.code i := by
    rw [extracted.wellPlaced.lineStarts_eq, Lines.Breaks.mem_starts]
    obtain rfl := extracted.yaml_of_block block
    rw [endsAt_yamlBreaks, ← stands.getElem?_code (by omega), ← endsAt_yamlBreaks]
    constructor
    · rintro (zero | ⟨j, same, ends⟩)
      · omega
      · obtain rfl : start + i = j := by omega
        exact ends
    · intro ends
      exact .inr ⟨start + i, by omega, ends⟩
  constructor
  · intro all i before unknown
    obtain ⟨ends, notHost⟩ := (unknownBreak_iff extracted.host).mp unknown
    have member := all (i + 1) (eslintBreaks.mem_starts.mpr (.inr ⟨i, rfl, ends⟩))
      (Nat.succ_pos i) before
    exact notHost ((known i before).mp member)
  · intro none t member pos le
    obtain rfl | ⟨i, rfl, ends⟩ := eslintBreaks.mem_starts.mp member
    · omega
    · apply (known i le).mpr
      by_contra notHost
      exact none i le ((unknownBreak_iff extracted.host).mpr ⟨ends, notHost⟩)

theorem valueStart_of_plain (stands : Stands text snippet start)
    (plain : snippet.format = .plain) : snippet.valueStart = start := by
  rw [stands.plain plain, EmbeddedJS.valueStart, plain]

theorem patchedLocation_eq_iff_of_plain (extracted : Extracted text breaks snippet)
    (stands : Stands text snippet start) (plain : snippet.format = .plain)
    (inside : index ≤ snippet.code.length) :
    patchedLocation snippet (snippet.position index) = snippet.place start index ↔
      (snippet.position index).line = 1 := by
  have valid := extracted.valid
  have validCode := eslintBreaks.valid_starts snippet.code
  have line_eq := extracted.wellPlaced.line_eq
  have column_eq := extracted.wellPlaced.column_eq
  rw [valueStart_of_plain stands plain, ← extracted.wellPlaced.lineStarts_eq] at line_eq column_eq
  have patched : patchedLocation snippet (snippet.position index) =
      ⟨Lines.line snippet.lineStarts start,
        start - Lines.lineStart snippet.lineStarts start + (snippet.position index).column⟩ := by
    simp only [patchedLocation, patchedLine, patchedColumn, if_pos plain, line_eq, column_eq,
      Lines.Location.mk.injEq, true_and]
    omega
  rw [patched]
  constructor
  · intro same
    have sameLine : Lines.line snippet.lineStarts start =
        Lines.line snippet.lineStarts (start + index) := congrArg Lines.Location.line same
    have sameStart := Lines.lineStart_congr sameLine
    have sameColumn : start - Lines.lineStart snippet.lineStarts start +
        (snippet.position index).column =
          start + index - Lines.lineStart snippet.lineStarts (start + index) :=
      congrArg Lines.Location.column same
    have le : Lines.lineStart snippet.lineStarts start ≤ start := valid.lineStart_le
    obtain ⟨-, column_iff⟩ := position_column snippet index
    exact column_iff.mp (by omega)
  · intro first
    have noStart := validCode.line_eq_one_iff.mp first
    have counted := (place_eq_iff extracted stands inside).mpr fun t member pos le =>
      absurd (noStart t member le) (Nat.ne_of_gt pos)
    have one : Lines.line (Lines.starts eslintBreaks.pattern snippet.code) index = 1 := first
    rw [counted, parserStarts, Lines.locate_graft valid validCode, Lines.Location.mk.injEq,
      if_pos one, (position_column snippet index).2.mpr first]
    exact ⟨by omega, rfl⟩

/-- A position that gets its line in the file has moved. -/
theorem position_ne_place (extracted : Extracted text breaks snippet)
    (stands : Stands text snippet start)
    (line : patchedLine snippet (snippet.position index).line = (snippet.place start index).line) :
    snippet.position index ≠ snippet.place start index := by
  intro same
  have valid := extracted.valid
  have line_eq := extracted.wellPlaced.line_eq
  rw [← extracted.wellPlaced.lineStarts_eq] at line_eq
  rw [← same, patchedLine] at line
  split at line
  · rename_i plain
    have start_pos := extracted.wellPlaced.valueStart_pos
    rw [valueStart_of_plain stands plain] at line_eq start_pos
    have sameLine : Lines.line snippet.lineStarts start =
        Lines.line snippet.lineStarts (start + index) := by
      rw [← line_eq, line, same]
      rfl
    have sameStart := Lines.lineStart_congr sameLine
    have sameColumn : (snippet.position index).column =
        start + index - Lines.lineStart snippet.lineStarts (start + index) :=
      congrArg Lines.Location.column same
    have le : Lines.lineStart snippet.lineStarts start ≤ start := valid.lineStart_le
    obtain ⟨column_le, column_iff⟩ := position_column snippet index
    -- Line 1 of the file starts at 0, and the snippet comes later.
    have first : (snippet.position index).line = 1 := column_iff.mp (by omega)
    have zero := valid.lineStart_eq_zero (line_eq.symm.trans (line.trans first))
    omega
  · have pos : 0 < Lines.line snippet.lineStarts snippet.valueStart := valid.line_pos
    omega

theorem patchedLocation_eq_iff (extracted : Extracted text breaks snippet)
    (stands : Stands text snippet start) (inside : index ≤ snippet.code.length) :
    patchedLocation snippet (snippet.position index) = snippet.place start index ↔
      (snippet.format = .plain → (snippet.position index).line = 1) ∧
        (snippet.format ≠ .plain → ∀ i < index, ¬ UnknownBreak breaks snippet.code i) := by
  by_cases plain : snippet.format = .plain
  · rw [patchedLocation_eq_iff_of_plain extracted stands plain inside]
    simp [plain]
  · rw [patchedLocation_eq_iff_of_block extracted stands plain inside]
    simp [plain]

/-- A patched error is the error at the place of its position in the file exactly if the
position is on the first line of a plain snippet, or in a block after no line break that
YAML does not know, and if its location is exposed in the message. -/
theorem patchParsingError_relocates_iff (extracted : Extracted text breaks snippet)
    (stands : Stands text snippet start) (inside : index ≤ snippet.code.length)
    (before after : String) :
    patchParsingError (errorAt before (snippet.position index) after) snippet =
        errorAt before (snippet.place start index) after ↔
      (snippet.format = .plain → (snippet.position index).line = 1) ∧
        (snippet.format ≠ .plain → ∀ i < index, ¬ UnknownBreak breaks snippet.code i) ∧
          Exposed before (snippet.position index) := by
  have patched : patchParsingError (errorAt before (snippet.position index) after) snippet =
      ⟨patchParsingErrorMessage (errorAt before (snippet.position index) after).message
          (patchedLine snippet (snippet.position index).line) snippet,
        some (patchedLine snippet (snippet.position index).line)⟩ := rfl
  have parts (error : APIError) (place : Lines.Location) : error = errorAt before place after ↔
      error.message = (errorAt before place after).message ∧ error.line = some place.line := by
    cases error
    rw [errorAt, APIError.mk.injEq]
  rw [patched, parts, ← and_assoc, ← patchedLocation_eq_iff extracted stands inside]
  simp only [Option.some.injEq]
  by_cases line :
      patchedLine snippet (snippet.position index).line = (snippet.place start index).line
  · have moved := position_ne_place extracted stands line
    rw [patchParsingErrorMessage_eq_iff moved, and_iff_left line]
    exact and_congr_left fun _ => Lines.Location.mk.injEq .. ▸ Iff.rfl
  · refine iff_of_false (fun both => line both.2) (fun both => line ?_)
    exact congrArg Lines.Location.line both.1

end Position

/-! ## Errors in a block and in a script -/

def codeUnits (text : String) : Text := text.toList.map fun c => c.toNat.toUInt16

/-- The value of a pair in a YAML file, on the line after its marker. -/
def blockSnippet : EmbeddedJS where
  code := codeUnits " x,"
  line := 1
  column := 4
  offset := 5
  lineStarts := [0, 5]
  text := codeUnits "k: |\n x,"
  format := .blockLiteral
  extras := ⟨none⟩

def blockDocument : YamlDocument Unit where
  firstError := none
  pairs := [{
    place := ()
    type := some .blockLiteral
    source := some (codeUnits " x,")
    rangeStart := 3
    afterKey := by decide }]

theorem patchParsingError_relocates_block :
    patchParsingError (errorAt "Unexpected token " ⟨1, 3⟩ "") blockSnippet =
      errorAt "Unexpected token " ⟨2, 3⟩ "" := by
  have extracted : Extracted blockSnippet.text yamlBreaks blockSnippet :=
    @Extracted.yaml _ _ [⟨fun _ => true, fun _ => ⟨none⟩⟩] [blockDocument] _ _ rfl
      (List.mem_singleton.mpr rfl)
  have stands : Stands blockSnippet.text blockSnippet 5 :=
    ⟨by decide, by decide, fun _ => ⟨by decide, by decide, fun i le lt => by
      obtain rfl : i = 3 := by
        have : 3 ≤ i := le
        omega
      decide⟩⟩
  have exposed : Exposed "Unexpected token " (blockSnippet.position 3) :=
    ⟨by decide, by decide⟩
  exact (patchParsingError_relocates_iff extracted stands (by decide) _ _).mpr
    ⟨by decide, fun _ => by decide, exposed⟩

/-- `<script>`, a line break and `x,</script>`: the error is on line 2 of the file. -/
def lineScript : EmbeddedJS where
  code := codeUnits "\nx,"
  line := 1
  column := 9
  offset := 8
  lineStarts := [0, 9]
  text := codeUnits "<script>\nx,</script>"
  format := .plain
  extras := ⟨none⟩

theorem patchParsingError_misplaces_script :
    Extracted lineScript.text htmlBreaks lineScript ∧ Stands lineScript.text lineScript 8 ∧
      lineScript.position 3 = ⟨2, 2⟩ ∧ lineScript.place 8 3 = ⟨2, 2⟩ ∧
      patchParsingError (errorAt "Unexpected token " ⟨2, 2⟩ "") lineScript ≠
        errorAt "Unexpected token " ⟨2, 2⟩ "" := by
  refine ⟨@Extracted.html _ [.openTag "script" none 7, .closeTag "script" 11] _
    (List.mem_singleton.mpr rfl), ⟨by decide, fun _ => rfl, fun block => absurd rfl block⟩,
    by decide, by decide, fun same => ?_⟩
  have line : some 1 = some 2 := congrArg APIError.line same
  cases line

end SonarJS.Embedded
