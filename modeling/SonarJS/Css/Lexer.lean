import SonarJS.Foundation.Patterns

/-!
# Tokens of style sheets

`CssLexer` tries its patterns one after another. That of an escape is composed of two fragments, in
the second of which the backslash escapes a bracket, so that only hexadecimal escapes are matched.
A string is one token exactly if it has no other escapes.
-/

namespace SonarJS.CssLexer

open Backtracking Patterns

/-! ## The lexer -/

inductive CssTokenType
  | comment
  | string
  | atIdentifier
  | hashIdentifier
  | dollarIdentifier
  | identifier
  | number
  | punctuator
deriving DecidableEq

section Characters

def singleQuote : Char := Char.ofNat 0x27

def doubleQuote : Char := Char.ofNat 0x22

def backslash : Char := Char.ofNat 0x5C

def formFeed : Char := Char.ofNat 0x0C

def isNewline (c : Char) : Bool := c = '\n' || c = '\r' || c = formFeed

def isBlank (c : Char) : Bool := c = '\t' || isNewline c || c = ' '

def isHexDigit (c : Char) : Bool :=
  '0' ≤ c && c ≤ '9' || 'a' ≤ c && c ≤ 'f' || 'A' ≤ c && c ≤ 'F'

def isAscii (c : Char) : Bool := c.toNat ≤ 0x7F

end Characters

section Patterns

/-- Some characters, each of which stands for itself. -/
def word (first : Char) (characters : List Char) : Pattern Char :=
  (Pattern.char first).sequence (characters.map .char)

def newLine : Pattern Char :=
  (word '\r' ['\n']).choice [.char '\r', .char '\n', .char formFeed]

def whitespace : Pattern Char := .set isBlank

def nonAscii : Pattern Char := .set fun c => !isAscii c

def hexEscape : Pattern Char :=
  (Pattern.char backslash).sequence
    [.rep .greedy 1 (some 6) (.set isHexDigit), .rep .greedy 0 (some 1) whitespace]

/-- In the second fragment a bracket is escaped, and behind it the beginning of the input is
required. -/
def bracketAtBeginning : Pattern Char :=
  (Pattern.char '[').sequence [.beginning, word '\r'
    ['\n', formFeed, '0', '-', '9', 'a', '-', 'f', 'A', '-', 'F', ']']]

def escape : Pattern Char := .alt hexEscape bracketAtBeginning

def punctuator : Pattern Char :=
  .set fun c =>
    c ∈ ['!', ':', ',', ';', '%', '&', '+', '#', '=', '>', '(', ')', '[', ']', '{', '}'] ||
      '*' ≤ c && c ≤ '/'

def multiLineComment : Pattern Char :=
  (word '/' ['*']).sequence [.rep .reluctant 0 none (.set fun _ => true), word '*' ['/']]

def inlineComment : Pattern Char :=
  (word '/' ['/']).seq (.rep .possessive 0 none (.set fun c => !isNewline c))

def digits : Pattern Char := .rep .possessive 1 none (.set Char.isDigit)

def number : Pattern Char :=
  (Pattern.rep .possessive 0 (some 1) (.set fun c => c ∈ ['+', '|', '-'])).sequence
    [(digits.seq (.rep .possessive 0 (some 1) ((Pattern.char '.').seq digits))).alt
      ((Pattern.char '.').seq digits),
    .rep .possessive 0 (some 1)
      ((Pattern.rep .possessive 1 none (.set fun c => 'a' ≤ c && c ≤ 'z')).alt (.char '%'))]

def isNameStart (c : Char) : Bool := 'a' ≤ c && c ≤ 'z' || 'A' ≤ c && c ≤ 'Z' || c = '_'

def nameChar : Pattern Char :=
  (Pattern.set fun c => isNameStart c || '0' ≤ c && c ≤ '9' || c = '-').choice [nonAscii, escape]

def nameStart : Pattern Char := (Pattern.set isNameStart).choice [nonAscii, escape]

def identifier : Pattern Char :=
  (Pattern.rep .possessive 0 (some 1) (.char '-')).sequence
    [nameStart, .rep .possessive 0 none nameChar]

def atIdentifier : Pattern Char := (Pattern.rep .possessive 1 none (.char '@')).seq identifier

def hashIdentifier : Pattern Char := (Pattern.char '#').seq (.rep .possessive 1 none nameChar)

def dollarIdentifier : Pattern Char := (Pattern.char '$').seq (.rep .possessive 1 none nameChar)

/-- A character that stands for itself in a string. -/
def isPlain (quote c : Char) : Bool := c ≠ quote && c ≠ backslash && !isNewline c

/-- A character of a string, an escape or a line break behind a backslash. -/
def stringPart (quote : Char) : Pattern Char :=
  (Pattern.set (isPlain quote)).choice [escape, (Pattern.char backslash).seq newLine]

def quotedString (quote : Char) : Pattern Char :=
  (Pattern.rep .possessive 0 (some 1) (.char '~')).sequence
    [.char quote, .rep .possessive 0 none (stringPart quote), .char quote]

end Patterns

/-- The channels in their order. -/
def channels : List (CssTokenType × Pattern Char) :=
  [(.comment, multiLineComment), (.comment, inlineComment), (.string, quotedString doubleQuote),
    (.string, quotedString singleQuote), (.atIdentifier, atIdentifier),
    (.hashIdentifier, hashIdentifier), (.dollarIdentifier, dollarIdentifier),
    (.identifier, identifier), (.number, number), (.punctuator, punctuator)]

/-- The first channel that matches something takes it. -/
def firstToken (channels : List (CssTokenType × Pattern Char)) (input : List Char) :
    Option (CssTokenType × ℕ) :=
  channels.findSome? fun channel =>
    (channel.2.matches (0, input)).head?.bind fun matched =>
      if 0 < matched.1 then some (channel.1, matched.1) else none

/-- The tokens of a text, with their positions. A character that no channel takes is skipped. -/
@[grind =] def lexFrom : ℕ → ℕ → List Char → Option (List (CssTokenType × ℕ × ℕ))
  | _, _, [] => some []
  | 0, _, _ :: _ => none
  | fuel + 1, index, input@(_ :: rest) =>
    match firstToken channels input with
    | some (type, length) =>
      (lexFrom fuel (index + length) (input.drop length)).map ((type, index, length) :: ·)
    | none => lexFrom fuel (index + 1) rest

def lex (input : List Char) : Option (List (CssTokenType × ℕ × ℕ)) :=
  lexFrom input.length 0 input

/-! ## Strings -/

inductive Quote
  | double
  | single
deriving DecidableEq

def Quote.char : Quote → Char
  | double => doubleQuote
  | single => singleQuote

/-- The line breaks that can be escaped. -/
def lineBreaks : List (List Char) := [['\r', '\n'], ['\r'], ['\n'], [formFeed]]

/-- What can end a hexadecimal escape. -/
def escapeEnds : List (List Char) := [[], ['\t'], [' ']] ++ lineBreaks

/-- A part of a string in the syntax of style sheets. -/
inductive StringUnit (quote : Char)
  | plain (c : Char) (isPlain : isPlain quote c = true)
  | hex (digits : List Char) (isHex : digits.all isHexDigit = true) (some' : 0 < digits.length)
    (atMostSix : digits.length ≤ 6) (blank : List Char) (isEnd : blank ∈ escapeEnds)
  | escaped (c : Char) (noHex : isHexDigit c = false) (noNewline : isNewline c = false)
  | lineBreak (newline : List Char) (isLineBreak : newline ∈ lineBreaks)

def StringUnit.text {quote : Char} : StringUnit quote → List Char
  | .plain c _ => [c]
  | .hex digits _ _ _ blank _ => backslash :: (digits ++ blank)
  | .escaped c _ _ => [backslash, c]
  | .lineBreak newline _ => backslash :: newline

/-- The parts that the lexer does not know: other characters behind a backslash, and CRLF behind a
hexadecimal escape. -/
def StringUnit.isUnknown {quote : Char} : StringUnit quote → Bool
  | .plain _ _ | .lineBreak _ _ => false
  | .hex _ _ _ _ blank _ => blank = ['\r', '\n']
  | .escaped _ _ _ => true

def literal (quote : Quote) (units : List (StringUnit quote.char)) : List Char :=
  quote.char :: (units.flatMap StringUnit.text ++ [quote.char])

/-! ## What is left of a string -/

section Tail

variable {quote : Quote} {behind : List Char}

theorem backslash_ne_quote : backslash ≠ quote.char := by
  cases quote with
  | double | single => decide

theorem isHexDigit_quote : isHexDigit quote.char = false := by
  cases quote with
  | double | single => decide

theorem isBlank_quote : isBlank quote.char = false := by
  cases quote with
  | double | single => decide

/-- The rest of a string from the start of one of its parts on. -/
def Tail (quote : Quote) (behind : List Char) (hasUnknown : Bool) (rest : List Char) : Prop :=
  ∃ units : List (StringUnit quote.char),
    rest = units.flatMap StringUnit.text ++ quote.char :: behind ∧
      units.any StringUnit.isUnknown = hasUnknown

variable {hasUnknown : Bool} {rest : List Char}

/-- If it begins neither with a backslash nor with the quote, its first part is a character. -/
theorem Tail.drop {c : Char} (tail : Tail quote behind hasUnknown (c :: rest))
    (noBackslash : c ≠ backslash) (noQuote : c ≠ quote.char) :
    Tail quote behind hasUnknown rest := by
  obtain ⟨units, same, unknown⟩ := tail
  cases units with
  | nil => exact absurd (List.cons.inj same).1 noQuote
  | cons unit units =>
      cases unit with
      | plain c' isPlain =>
          obtain ⟨-, same⟩ := List.cons.inj same
          exact ⟨units, same, unknown⟩
      | hex | escaped | lineBreak => exact absurd (List.cons.inj same).1 noBackslash

theorem Tail.eat {accepts : Char → Bool} (noBackslash : accepts backslash = false)
    (noQuote : accepts quote.char = false) {bound n : ℕ}
    (tail : Tail quote behind hasUnknown rest) :
    Tail quote behind hasUnknown (eat (Pattern.set accepts).matches bound (n, rest)).2 := by
  induction bound generalizing n rest with
  | zero => exact tail
  | succ bound ih =>
      cases rest with
      | nil =>
          rw [eat_of_none rfl]
          exact tail
      | cons c rest =>
          cases accepted : accepts c with
          | false =>
              rw [eat_set_of_neg accepted]
              exact tail
          | true =>
              have first := @matches_set_of_pos _ _ n _ rest accepted
              rw [eat_of_some (by rw [first]; rfl) (Nat.lt_succ_self _)]
              refine ih (tail.drop ?_ ?_)
              · rintro rfl
                rw [noBackslash] at accepted
                cases accepted
              · rintro rfl
                rw [noQuote] at accepted
                cases accepted

end Tail

/-! ## The parts as they are matched -/

section Parts

variable {quote : Quote} {behind rest : List Char} {n : ℕ}

theorem head?_optionalBlank (x : State Char) :
    ((Pattern.rep .greedy 0 (some 1) whitespace).matches x).head? =
      some (eat whitespace.matches 1 x) :=
  head?_greedy

theorem matches_backslash :
    (Pattern.char backslash).matches (n, backslash :: rest) = [(n + 1, rest)] :=
  matches_set_of_pos (by simp)

theorem head?_hexEscape {d : Char} (isHex : isHexDigit d = true) :
    (hexEscape.matches (n, backslash :: d :: rest)).head? = some
      (eat whitespace.matches 1 (eat (Pattern.set isHexDigit).matches 5 (n + 2, rest))) := by
  have first : (Pattern.set isHexDigit).matches (n + 1, d :: rest) = [(n + 2, rest)] :=
    matches_set_of_pos isHex
  have digits : ((Pattern.rep .greedy 1 (some 6) (.set isHexDigit)).matches
      (n + 1, d :: rest)).head? = some (eat (Pattern.set isHexDigit).matches 5 (n + 2, rest)) := by
    refine head?_greedy.trans ?_
    rw [times, first]
    rfl
  have total (x : State Char) :
      (Pattern.rep .greedy 0 (some 1) whitespace).matches x ≠ [] := by
    rw [← List.isSome_head?, head?_optionalBlank]
    rfl
  rw [hexEscape, Pattern.sequence, matches_seq_of_singleton matches_backslash, Pattern.sequence,
    Pattern.sequence, Pattern.matches, head?_flatMap_of_ne_nil total, digits]
  exact head?_optionalBlank _

theorem matches_hexEscape_of_other {d : Char} (noHex : isHexDigit d = false) :
    hexEscape.matches (n, backslash :: d :: rest) = [] := by
  have digits : (Pattern.rep .greedy 1 (some 6) (.set isHexDigit)).matches (n + 1, d :: rest) =
      [] := repetitions_eq_nil (matches_set_of_neg noHex)
  rw [hexEscape, Pattern.sequence, matches_seq_of_singleton matches_backslash]
  exact matches_seq_of_nil digits

theorem matches_bracketAtBeginning {c : Char} (other : c ≠ '[') :
    bracketAtBeginning.matches (n, c :: rest) = [] :=
  matches_seq_of_nil (matches_set_of_neg (by simpa using other))

theorem escape_matches (x : State Char) :
    escape.matches x = hexEscape.matches x ++ bracketAtBeginning.matches x := rfl

theorem matches_escape_of_other {c : Char} (noBackslash : c ≠ backslash) (noBracket : c ≠ '[') :
    escape.matches (n, c :: rest) = [] := by
  have hex : hexEscape.matches (n, c :: rest) = [] :=
    matches_seq_of_nil (matches_set_of_neg (by simpa using noBackslash))
  rw [escape_matches, hex, matches_bracketAtBeginning noBracket]
  rfl

theorem stringPart_matches (x : State Char) : (stringPart quote.char).matches x =
    (Pattern.set (isPlain quote.char)).matches x ++ (escape.matches x ++
      ((Pattern.char backslash).seq newLine).matches x) := rfl

theorem isPlain_backslash : isPlain quote.char backslash = false := by
  simp [isPlain]

/-- At a quote, or at a line break that is not escaped, there is no part of a string. -/
theorem stringPart_of_end {c : Char} (noPlain : isPlain quote.char c = false)
    (noBackslash : c ≠ backslash) (noBracket : c ≠ '[') :
    (stringPart quote.char).matches (n, c :: rest) = [] := by
  have lineBreak : ((Pattern.char backslash).seq newLine).matches (n, c :: rest) = [] :=
    matches_seq_of_nil (matches_set_of_neg (by simpa using noBackslash))
  rw [stringPart_matches, matches_set_of_neg noPlain,
    matches_escape_of_other noBackslash noBracket, lineBreak]
  rfl

/-- A hexadecimal escape is taken with up to six digits and one blank. -/
theorem head?_stringPart_hex {d : Char} (isHex : isHexDigit d = true) :
    ((stringPart quote.char).matches (n, backslash :: d :: rest)).head? = some
      (eat whitespace.matches 1 (eat (Pattern.set isHexDigit).matches 5 (n + 2, rest))) := by
  rw [stringPart_matches, matches_set_of_neg isPlain_backslash, List.nil_append, escape_matches,
    List.head?_append, List.head?_append, head?_hexEscape isHex]
  rfl

theorem stringPart_backslash_of_other {d : Char} (noHex : isHexDigit d = false) :
    (stringPart quote.char).matches (n, backslash :: d :: rest) =
      newLine.matches (n + 1, d :: rest) := by
  have noBracket : backslash ≠ '[' := by decide
  rw [stringPart_matches, matches_set_of_neg isPlain_backslash, List.nil_append, escape_matches,
    matches_hexEscape_of_other noHex, matches_bracketAtBeginning noBracket,
    List.nil_append, List.nil_append, matches_seq_of_singleton matches_backslash]

theorem newLine_matches (x : State Char) : newLine.matches x =
    (word '\r' ['\n']).matches x ++ ((Pattern.char '\r').matches x ++
      ((Pattern.char '\n').matches x ++ (Pattern.char formFeed).matches x)) := rfl

theorem matches_char_of_ne {c d : Char} (other : d ≠ c) :
    (Pattern.char c).matches (n, d :: rest) = [] :=
  matches_set_of_neg (by simpa using other)

theorem matches_char {c : Char} :
    (Pattern.char c).matches (n, c :: rest) = [(n + 1, rest)] :=
  matches_set_of_pos (by simp)

theorem newLine_of_other {c : Char} (noNewline : isNewline c = false) :
    newLine.matches (n, c :: rest) = [] := by
  simp only [isNewline, Bool.or_eq_false_iff, decide_eq_false_iff_not] at noNewline
  obtain ⟨⟨noLineFeed, noReturn⟩, noFormFeed⟩ := noNewline
  have word : (word '\r' ['\n']).matches (n, c :: rest) = [] :=
    matches_seq_of_nil (matches_char_of_ne noReturn)
  rw [newLine_matches, word, matches_char_of_ne noReturn, matches_char_of_ne noLineFeed,
    matches_char_of_ne noFormFeed]
  rfl

/-- An escaped line break is taken as a whole. -/
theorem head?_newLine {newline : List Char} (isLineBreak : newline ∈ lineBreaks)
    (whole : rest.head? ≠ some '\n') :
    (newLine.matches (n, newline ++ rest)).head? = some (n + newline.length, rest) := by
  have noReturn {c : Char} (other : c ≠ '\r') : (word '\r' ['\n']).matches (n, c :: rest) = [] :=
    matches_seq_of_nil (matches_char_of_ne other)
  simp only [lineBreaks, List.mem_cons, List.not_mem_nil, or_false] at isLineBreak
  obtain rfl | rfl | rfl | rfl := isLineBreak
  · have both : (word '\r' ['\n']).matches (n, '\r' :: '\n' :: rest) = [(n + 2, rest)] :=
      (matches_seq_of_singleton matches_char).trans matches_char
    rw [List.cons_append, List.cons_append, List.nil_append, newLine_matches, both]
    rfl
  · have alone : (word '\r' ['\n']).matches (n, '\r' :: rest) = [] := by
      refine (matches_seq_of_singleton matches_char).trans ?_
      cases rest with
      | nil => rfl
      | cons c rest => exact matches_char_of_ne fun same => whole (congrArg some same)
    rw [List.singleton_append, newLine_matches, alone, matches_char]
    rfl
  · rw [List.singleton_append, newLine_matches, noReturn (by decide),
      matches_char_of_ne (by decide), matches_char]
    rfl
  · rw [List.singleton_append, newLine_matches, noReturn (by decide),
      matches_char_of_ne (by decide), matches_char_of_ne (by decide), matches_char]
    rfl

end Parts

/-! ## From one part of a string to the next -/

section Units

variable {quote : Quote} {behind rest : List Char} {hasUnknown : Bool} {n : ℕ}

theorem Tail.head?_ne_newline (tail : Tail quote behind hasUnknown rest) :
    rest.head? ≠ some '\n' := by
  obtain ⟨units, rfl, -⟩ := tail
  cases units with
  | nil =>
      cases quote with
      | double | single => simp [Quote.char, doubleQuote, singleQuote]
  | cons unit units =>
      cases unit with
      | plain c isPlain =>
          intro same
          obtain rfl : c = '\n' := by simpa [StringUnit.text] using same
          simp [SonarJS.CssLexer.isPlain, isNewline] at isPlain
      | hex | escaped | lineBreak => simp [StringUnit.text, backslash]

theorem isHexDigit_of_isBlank {c : Char} (blank : isBlank c = true) : isHexDigit c = false := by
  simp only [isBlank, isNewline, Bool.or_eq_true, decide_eq_true_eq] at blank
  obtain (rfl | (rfl | rfl) | rfl) | rfl := blank <;> decide

theorem cases_of_escapeEnds {blank : List Char} (isEnd : blank ∈ escapeEnds) :
    blank = [] ∨ (∃ c, blank = [c] ∧ isBlank c = true) ∨ blank = ['\r', '\n'] := by
  simp only [escapeEnds, lineBreaks, List.cons_append, List.nil_append, List.mem_cons,
    List.not_mem_nil, or_false] at isEnd
  obtain rfl | rfl | rfl | rfl | rfl | rfl | rfl := isEnd
  · exact .inl rfl
  · exact .inr (.inl ⟨_, rfl, by decide⟩)
  · exact .inr (.inl ⟨_, rfl, by decide⟩)
  · exact .inr (.inr rfl)
  · exact .inr (.inl ⟨_, rfl, by decide⟩)
  · exact .inr (.inl ⟨_, rfl, by decide⟩)
  · exact .inr (.inl ⟨_, rfl, by decide⟩)

theorem eat_blank {c : Char} (blank : isBlank c = true) :
    eat whitespace.matches 1 (n, c :: rest) = (n + 1, rest) := by
  have first : whitespace.matches (n, c :: rest) = [(n + 1, rest)] := matches_set_of_pos blank
  rw [eat_of_some (by rw [first]; rfl) (Nat.lt_succ_self _)]
  rfl

theorem hex_text {digits blank : List Char} {isHex : digits.all isHexDigit = true}
    {some' : 0 < digits.length} {atMostSix : digits.length ≤ 6} {isEnd : blank ∈ escapeEnds} :
    (StringUnit.hex digits isHex some' atMostSix blank isEnd : StringUnit quote.char).text ++ rest =
      backslash :: digits ++ (blank ++ rest) := by
  simp [StringUnit.text]

/-- A hexadecimal escape, up to its blank. -/
theorem head?_of_hex {d : Char} {digits : List Char} (isHex : (d :: digits).all isHexDigit = true)
    (atMostSix : (d :: digits).length ≤ 6) :
    ((stringPart quote.char).matches (n, backslash :: (d :: digits) ++ rest)).head? = some
      (eat whitespace.matches 1 (eat (Pattern.set isHexDigit).matches (5 - digits.length)
        (n + 2 + digits.length, rest))) := by
  rw [List.all_cons, Bool.and_eq_true] at isHex
  rw [List.cons_append, List.cons_append, head?_stringPart_hex isHex.1,
    eat_set_append isHex.2 (Nat.le_of_succ_le_succ atMostSix)]

/-- A part that the lexer knows is taken, with some of the characters behind it at most. -/
theorem head?_of_known (unit : StringUnit quote.char) (known : unit.isUnknown = false)
    (tail : Tail quote behind hasUnknown rest) :
    ∃ y, ((stringPart quote.char).matches (n, unit.text ++ rest)).head? = some y ∧
      Tail quote behind hasUnknown y.2 ∧ y.2.length < (unit.text ++ rest).length := by
  cases unit with
  | plain c isPlain =>
      refine ⟨(n + 1, rest), ?_, tail, Nat.lt_succ_self _⟩
      rw [StringUnit.text, List.singleton_append, stringPart_matches, matches_set_of_pos isPlain]
      rfl
  | hex digits isHex some' atMostSix blank isEnd =>
      obtain ⟨d, digits, rfl⟩ := List.exists_cons_of_length_pos some'
      rw [hex_text]
      refine ⟨_, head?_of_hex isHex atMostSix, ?_⟩
      obtain rfl | ⟨c, rfl, isBlank⟩ | rfl := cases_of_escapeEnds isEnd
      · refine ⟨Tail.eat (by decide) isBlank_quote (Tail.eat (by decide) isHexDigit_quote tail), ?_⟩
        have shorter := (@length_eat_le _ whitespace.matches 1 _).trans
          (@length_eat_le _ (Pattern.set isHexDigit).matches (5 - digits.length)
            (n + 2 + digits.length, rest))
        simp only [List.nil_append, List.length_append, List.length_cons]
        dsimp only at shorter
        omega
      · rw [List.singleton_append, eat_set_of_neg (isHexDigit_of_isBlank isBlank),
          eat_blank isBlank]
        refine ⟨tail, ?_⟩
        simp only [List.length_append, List.length_cons]
        omega
      · simp [StringUnit.isUnknown] at known
  | escaped c noHex noNewline => cases known
  | lineBreak newline isLineBreak =>
      have taken := @head?_newLine rest (n + 1) newline isLineBreak tail.head?_ne_newline
      obtain ⟨c, newline, rfl, noHex⟩ : ∃ c newline', newline = c :: newline' ∧
          isHexDigit c = false := by
        simp only [lineBreaks, List.mem_cons, List.not_mem_nil, or_false] at isLineBreak
        obtain rfl | rfl | rfl | rfl := isLineBreak <;> exact ⟨_, _, rfl, by decide⟩
      refine ⟨(n + 1 + (c :: newline).length, rest), ?_, tail, ?_⟩
      · rw [StringUnit.text, List.cons_append, List.cons_append,
          stringPart_backslash_of_other noHex]
        exact taken
      · simp only [StringUnit.text, List.length_append, List.length_cons]
        omega

/-- At a part that it does not know the lexer stops, or in its middle at a line break. -/
theorem head?_of_unknown (unit : StringUnit quote.char) (unknown : unit.isUnknown = true) :
    ((stringPart quote.char).matches (n, unit.text ++ rest)).head? = none ∨
      ∃ m rest', ((stringPart quote.char).matches (n, unit.text ++ rest)).head? =
        some (m, '\n' :: rest') ∧ ('\n' :: rest').length < (unit.text ++ rest).length := by
  cases unit with
  | plain | lineBreak => cases unknown
  | hex digits isHex some' atMostSix blank isEnd =>
      obtain ⟨d, digits, rfl⟩ := List.exists_cons_of_length_pos some'
      obtain rfl : blank = ['\r', '\n'] := by simpa [StringUnit.isUnknown] using unknown
      rw [hex_text]
      refine .inr ⟨n + 2 + digits.length + 1, rest, ?_, ?_⟩
      · rw [head?_of_hex isHex atMostSix, List.cons_append, eat_set_of_neg (by decide),
          eat_blank (by decide)]
        rfl
      · simp only [List.length_append, List.length_cons]
        omega
  | escaped c noHex noNewline =>
      refine .inl ?_
      rw [StringUnit.text, List.cons_append, List.singleton_append,
        stringPart_backslash_of_other noHex, newLine_of_other noNewline]
      rfl

theorem text_of_unknown {unit : StringUnit quote.char} (unknown : unit.isUnknown = true) :
    ∃ text, unit.text = backslash :: text := by
  cases unit with
  | plain => cases unknown
  | hex | escaped | lineBreak => exact ⟨_, rfl⟩

theorem quote_ne_bracket : quote.char ≠ '[' := by
  cases quote with
  | double | single => decide

/-- The parts of a string are taken up to the first one that the lexer does not know. -/
theorem eat_tail {bound : ℕ} (tail : Tail quote behind hasUnknown rest)
    (enough : rest.length ≤ bound) :
    (hasUnknown = false → (eat (stringPart quote.char).matches bound (n, rest)).2 =
        quote.char :: behind) ∧
      (hasUnknown = true → ∃ c rest', (eat (stringPart quote.char).matches bound (n, rest)).2 =
        c :: rest' ∧ c ≠ quote.char) := by
  induction bound generalizing n rest with
  | zero =>
      obtain ⟨units, rfl, -⟩ := tail
      simp at enough
  | succ bound ih =>
      obtain ⟨units, rfl, counted⟩ := tail
      cases units with
      | nil =>
          have ends := @stringPart_of_end quote behind n quote.char (by simp [isPlain])
            backslash_ne_quote.symm quote_ne_bracket
          rw [List.flatMap_nil, List.nil_append, eat_of_none (by rw [ends]; rfl)]
          refine ⟨fun _ => rfl, fun unknown => ?_⟩
          rw [unknown] at counted
          cases counted
      | cons unit units =>
          rw [List.flatMap_cons, List.append_assoc] at *
          rw [List.any_cons] at counted
          cases unknown : unit.isUnknown with
          | false =>
              rw [unknown, Bool.false_or] at counted
              have tail : Tail quote behind hasUnknown
                  (units.flatMap StringUnit.text ++ quote.char :: behind) := ⟨units, rfl, counted⟩
              obtain ⟨y, first, rest, shorter⟩ := @head?_of_known quote _ _ _ n unit unknown tail
              rw [eat_of_some first shorter]
              exact ih rest (by omega)
          | true =>
              rw [unknown, Bool.true_or] at counted
              refine ⟨fun known => absurd (counted.trans known) Bool.true_eq_false.mp, fun _ => ?_⟩
              obtain stops | ⟨m, rest', first, shorter⟩ := @head?_of_unknown quote _ n unit unknown
              · rw [eat_of_none stops]
                obtain ⟨text, isText⟩ := text_of_unknown unknown
                rw [isText]
                exact ⟨backslash, _, rfl, backslash_ne_quote⟩
              · have ends := @stringPart_of_end quote rest' m '\n' (by simp [isPlain, isNewline])
                  (by decide) (by decide)
                rw [eat_of_some first shorter, eat_of_none (by rw [ends]; rfl)]
                refine ⟨'\n', rest', rfl, ?_⟩
                cases quote with
                | double | single => decide

end Units

/-! ## Strings as tokens -/

section Tokens

variable {quote : Quote} {behind : List Char}

theorem quote_ne_tilde : quote.char ≠ '~' := by
  cases quote with
  | double | single => decide

/-- A pattern for strings with this quote, behind the quote. -/
theorem matches_quotedString (input : List Char) :
    (quotedString quote.char).matches (0, quote.char :: input) =
      (Pattern.char quote.char).matches
        (eat (stringPart quote.char).matches input.length (1, input)) := by
  have noTilde : (Pattern.rep .possessive 0 (some 1) (.char '~')).matches
      (0, quote.char :: input) = [(0, quote.char :: input)] := by
    refine possessive_eq.trans ?_
    rw [eat_of_none (by rw [matches_char_of_ne quote_ne_tilde]; rfl)]
  have body : (Pattern.rep .possessive 0 none (stringPart quote.char)).matches (1, input) =
      [eat (stringPart quote.char).matches input.length (1, input)] := possessive_eq
  rw [quotedString, Pattern.sequence, matches_seq_of_singleton noTilde, Pattern.sequence,
    matches_seq_of_singleton matches_char, Pattern.sequence, matches_seq_of_singleton body,
    Pattern.sequence]

/-- The whole string is matched, or nothing. -/
theorem quotedString_literal (units : List (StringUnit quote.char)) :
    (quotedString quote.char).matches (0, literal quote units ++ behind) =
      if units.any StringUnit.isUnknown then []
      else [((literal quote units).length, behind)] := by
  have text : literal quote units ++ behind =
      quote.char :: (units.flatMap StringUnit.text ++ quote.char :: behind) := by simp [literal]
  have tail : Tail quote behind (units.any StringUnit.isUnknown)
      (units.flatMap StringUnit.text ++ quote.char :: behind) := ⟨units, rfl, rfl⟩
  obtain ⟨whole, stops⟩ := @eat_tail _ _ _ _ 1 _ tail (Nat.le_refl _)
  have reached := @matches_quotedString quote
    (units.flatMap StringUnit.text ++ quote.char :: behind)
  generalize eat (stringPart quote.char).matches _ _ = y at whole stops reached
  obtain ⟨n, rest⟩ := y
  rw [← text] at reached
  cases unknown : units.any StringUnit.isUnknown with
  | false =>
      obtain rfl : rest = quote.char :: behind := whole unknown
      rw [matches_char] at reached
      have conserved := conserves_matches _ _ (n + 1, behind)
        (reached ▸ List.mem_singleton_self _)
      have whole : (literal quote units).length = n + 1 := by
        simp only [List.length_append] at conserved
        omega
      rw [reached, whole]
      rfl
  | true =>
      obtain ⟨c, rest', same, other⟩ := stops unknown
      obtain rfl : rest = c :: rest' := same
      rw [reached, matches_char_of_ne other]
      rfl

/-- The pattern for the other kind of strings does not match. -/
theorem quotedString_other {c : Char} (noTilde : c ≠ '~') (noQuote : c ≠ quote.char)
    (input : List Char) : (quotedString quote.char).matches (0, c :: input) = [] := by
  have optional : (Pattern.rep .possessive 0 (some 1) (.char '~')).matches (0, c :: input) =
      [(0, c :: input)] := by
    refine possessive_eq.trans ?_
    rw [eat_of_none (by rw [matches_char_of_ne noTilde]; rfl)]
  rw [quotedString, Pattern.sequence, matches_seq_of_singleton optional]
  exact matches_seq_of_nil (matches_char_of_ne noQuote)

theorem firstToken_of_nil {type : CssTokenType} {pattern : Pattern Char}
    {others : List (CssTokenType × Pattern Char)} {input : List Char}
    (fails : pattern.matches (0, input) = []) :
    firstToken ((type, pattern) :: others) input = firstToken others input := by
  simp [firstToken, fails]

theorem firstToken_of_singleton {type : CssTokenType} {pattern : Pattern Char}
    {others : List (CssTokenType × Pattern Char)} {input rest : List Char} {n : ℕ}
    (matched : pattern.matches (0, input) = [(n + 1, rest)]) :
    firstToken ((type, pattern) :: others) input = some (type, n + 1) := by
  simp [firstToken, matched]

theorem type_of_firstToken {others : List (CssTokenType × Pattern Char)} {input : List Char}
    {type : CssTokenType} {n : ℕ} (first : firstToken others input = some (type, n)) :
    type ∈ others.map Prod.fst := by
  obtain ⟨channel, member, found⟩ := List.exists_of_findSome?_eq_some first
  obtain ⟨matched, -, taken⟩ := Option.bind_eq_some_iff.mp found
  split at taken
  · obtain ⟨rfl, -⟩ := Prod.mk.inj (Option.some.inj taken)
    exact List.mem_map_of_mem member
  · cases taken

/-- The other channels do not make strings. -/
theorem firstToken_others {input : List Char} {n : ℕ} :
    firstToken (channels.drop 4) input ≠ some (.string, n) := by
  intro first
  have := type_of_firstToken first
  revert this
  decide

theorem matches_comment_of_quote (input : List Char) :
    multiLineComment.matches (0, quote.char :: input) = [] ∧
      inlineComment.matches (0, quote.char :: input) = [] := by
  have noSlash : quote.char ≠ '/' := by
    cases quote with
    | double | single => decide
  exact ⟨matches_seq_of_nil (matches_seq_of_nil (matches_char_of_ne noSlash)),
    matches_seq_of_nil (matches_seq_of_nil (matches_char_of_ne noSlash))⟩

/-- A string is the first token, as a whole, if the lexer knows all of its parts. -/
theorem firstToken_literal (units : List (StringUnit quote.char)) :
    firstToken channels (literal quote units ++ behind) =
        some (.string, (literal quote units).length) ↔
      units.any StringUnit.isUnknown = false := by
  have matched := @quotedString_literal quote behind units
  obtain ⟨input, isInput⟩ : ∃ input, literal quote units ++ behind = quote.char :: input :=
    ⟨_, rfl⟩
  obtain ⟨n, isLength⟩ : ∃ n, (literal quote units).length = n + 1 := ⟨_, rfl⟩
  rw [isInput, isLength] at matched ⊢
  obtain ⟨noBlock, noLine⟩ := @matches_comment_of_quote quote input
  rw [channels, firstToken_of_nil noBlock, firstToken_of_nil noLine]
  cases unknown : units.any StringUnit.isUnknown with
  | false =>
      rw [unknown, if_neg Bool.false_ne_true] at matched
      refine iff_of_true ?_ rfl
      cases quote with
      | double => exact firstToken_of_singleton matched
      | single =>
          refine (firstToken_of_nil ?_).trans (firstToken_of_singleton matched)
          exact @quotedString_other .double _ (by decide) (by decide) input
  | true =>
      rw [unknown, if_pos rfl] at matched
      refine iff_of_false (fun first => ?_) (by simp)
      cases quote with
      | double =>
          have other := @quotedString_other .single doubleQuote (by decide) (by decide) input
          exact firstToken_others
            (((firstToken_of_nil matched).trans (firstToken_of_nil other)).symm.trans first)
      | single =>
          have other := @quotedString_other .double singleQuote (by decide) (by decide) input
          exact firstToken_others
            (((firstToken_of_nil other).trans (firstToken_of_nil matched)).symm.trans first)

/-! ## The tokens of a text -/

theorem length_pos_of_firstToken {others : List (CssTokenType × Pattern Char)}
    {input : List Char} {type : CssTokenType} {n : ℕ}
    (first : firstToken others input = some (type, n)) : 0 < n := by
  obtain ⟨channel, -, found⟩ := List.exists_of_findSome?_eq_some first
  obtain ⟨matched, -, taken⟩ := Option.bind_eq_some_iff.mp found
  split at taken
  · rename_i positive
    obtain ⟨-, rfl⟩ := Prod.mk.inj (Option.some.inj taken)
    exact positive
  · cases taken

/-- The lexer gets to the end of a text. -/
theorem lexFrom_isSome {fuel index : ℕ} {input : List Char} (enough : input.length ≤ fuel) :
    (lexFrom fuel index input).isSome = true := by
  induction fuel generalizing index input with
  | zero =>
      obtain rfl := List.eq_nil_of_length_eq_zero (Nat.le_zero.mp enough)
      rfl
  | succ fuel ih =>
      cases input with
      | nil => rfl
      | cons c rest =>
          rw [lexFrom]
          cases first : firstToken channels (c :: rest) with
          | none => exact ih (Nat.le_of_succ_le_succ enough)
          | some token =>
              obtain ⟨type, n⟩ := token
              have positive := length_pos_of_firstToken first
              rw [List.length_cons] at enough
              dsimp only
              rw [Option.isSome_map]
              refine ih ?_
              rw [List.length_drop, List.length_cons]
              omega

/-- Later tokens come later. -/
theorem index_le_of_lexFrom {fuel index : ℕ} {input : List Char}
    {token : CssTokenType × ℕ × ℕ} {tokens : List (CssTokenType × ℕ × ℕ)}
    (lexed : lexFrom fuel index input = some (token :: tokens)) : index ≤ token.2.1 := by
  induction fuel generalizing index input with
  | zero =>
      cases input with
      | nil => cases lexed
      | cons c rest => cases lexed
  | succ fuel ih =>
      cases input with
      | nil => cases lexed
      | cons c rest =>
          rw [lexFrom] at lexed
          cases first : firstToken channels (c :: rest) with
          | none =>
              rw [first] at lexed
              exact (Nat.le_succ index).trans (ih lexed)
          | some found =>
              rw [first] at lexed
              obtain ⟨others, -, same⟩ := Option.map_eq_some_iff.mp lexed
              rw [← (List.cons.inj same).1]

theorem lexFrom_cons_iff {fuel n : ℕ} {input : List Char} (enough : input.length ≤ fuel)
    (nonempty : input ≠ []) {type : CssTokenType} :
    (∃ tokens, lexFrom fuel 0 input = some ((type, 0, n) :: tokens)) ↔
      firstToken channels input = some (type, n) := by
  obtain ⟨c, rest, rfl⟩ := List.exists_cons_of_ne_nil nonempty
  obtain ⟨fuel, rfl⟩ : ∃ k, fuel = k + 1 :=
    Nat.exists_eq_succ_of_ne_zero (Nat.ne_of_gt (Nat.lt_of_lt_of_le (Nat.succ_pos _) enough))
  rw [lexFrom]
  cases first : firstToken channels (c :: rest) with
  | none =>
      refine iff_of_false ?_ (by simp)
      rintro ⟨tokens, lexed⟩
      exact absurd (index_le_of_lexFrom lexed) (by simp)
  | some found =>
      obtain ⟨type', n'⟩ := found
      constructor
      · rintro ⟨tokens, lexed⟩
        obtain ⟨others, -, same⟩ := Option.map_eq_some_iff.mp lexed
        obtain ⟨rfl, -, rfl⟩ : type' = type ∧ 0 = 0 ∧ n' = n := by
          simpa using (List.cons.inj same).1
        rfl
      · intro same
        obtain ⟨rfl, rfl⟩ := Prod.mk.inj (Option.some.inj same)
        have positive := length_pos_of_firstToken first
        have ends : (lexFrom fuel (0 + n') ((c :: rest).drop n')).isSome = true := by
          refine lexFrom_isSome ?_
          rw [List.length_drop]
          omega
        obtain ⟨tokens, lexed⟩ := Option.isSome_iff_exists.mp ends
        refine ⟨tokens, ?_⟩
        dsimp only
        rw [lexed]
        rfl

theorem lex_literal (units : List (StringUnit quote.char)) :
    (∃ tokens, lex (literal quote units ++ behind) =
        some ((.string, 0, (literal quote units).length) :: tokens)) ↔
      units.any StringUnit.isUnknown = false := by
  rw [lex, lexFrom_cons_iff (Nat.le_refl _) (by simp [literal]), firstToken_literal]

variable (quote behind) in
/-- The lexer begins with one token for the string, whatever comes behind it, exactly if the string
has no escapes apart from hexadecimal ones and line breaks, and no CRLF at the end of a hexadecimal
one. -/
theorem lex_literal_iff (units : List (StringUnit quote.char)) :
    (∃ tokens, lex (literal quote units ++ behind) =
        some ((.string, 0, (literal quote units).length) :: tokens)) ↔
      ∀ unit ∈ units, unit.isUnknown = false := by
  rw [lex_literal]
  simp

end Tokens

/-- The string `"\""`, an escaped quote. -/
theorem not_lex_escapedQuote :
    ¬∀ (quote : Quote) (units : List (StringUnit quote.char)) (behind : List Char),
      ∃ tokens, lex (literal quote units ++ behind) =
        some ((.string, 0, (literal quote units).length) :: tokens) := by
  intro all
  have token := all .double [.escaped doubleQuote (by decide) (by decide)] []
  rw [lex_literal] at token
  cases token

end SonarJS.CssLexer
