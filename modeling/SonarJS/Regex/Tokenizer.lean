import Mathlib.Data.List.TakeWhile
import SonarJS.Foundation.StringLiteral

/-!
# The tokens of a string literal

`tokenizeString` reads the body of a string literal at a position that each kind of escape
moves by itself. A token has the value and the range of a character or of an escape; a slash
that is not escaped gets two tokens, as it is escaped in the source of the regular
expression.

Positions are read in the whole text, and an index that was not found is `-1`, as in the
source: from a text that is no body of a literal, the position can go back to the start, and
the loop never ends. The loop is given as much fuel as the text is long.
-/

namespace SonarJS.Regex

open StringLiteral

/-! ## The tokenizer -/

/-- Why `tokenizeString` does not return. -/
inductive Stop
  | outOfFuel
  | rangeError
deriving DecidableEq

structure StringLiteralToken where
  value : Text
  range : ℕ × ℕ
deriving DecidableEq

def UNICODE_ESCAPE_LENGTH : ℕ := 4
def HEX_ESCAPE_LENGTH : ℕ := 2

/-- `codePointAt`, which is undefined at the end. -/
def cp (s : Text) (i : ℕ) : Option ℕ := codePoint (s.drop i)

def inc (pos : ℕ) (c : Option ℕ) : ℕ := pos + if c.any (0x10000 ≤ ·) then 2 else 1

def isOctalDigit (c : Option ℕ) : Bool := c.any fun c => 0x30 ≤ c && c ≤ 0x37

def substring (s : Text) (start last : ℤ) : Text :=
  (s.take (max start last).toNat).drop (min start last).toNat

def indexOf (s : Text) (u : CodeUnit) (pos : ℕ) : ℤ :=
  match (s.drop pos).findIdx? (· = u) with
  | some i => pos + i
  | none => -1

/-- White space and line terminators. -/
def isSpace (u : CodeUnit) : Bool :=
  0x09 ≤ u.toNat && u.toNat ≤ 0x0D || 0x2000 ≤ u.toNat && u.toNat ≤ 0x200A ||
    [0x20, 0xA0, 0x1680, 0x2028, 0x2029, 0x202F, 0x205F, 0x3000, 0xFEFF].contains u.toNat

/-- `Number.parseInt`; nothing is `NaN`. -/
def parseInt (u : Text) (radix : ℕ) : Option ℤ :=
  let u := u.dropWhile isSpace
  let negative := u.head? = some 0x2D
  let u := if u.head? = some 0x2D ∨ u.head? = some 0x2B then u.tail else u
  let u := if radix = 16 ∧ ([0x30, 0x78].isPrefixOf u ∨ [0x30, 0x58].isPrefixOf u)
    then u.drop 2 else u
  match u.takeWhile fun u => isDigit radix u.toNat with
  | [] => none
  | digits => some (if negative then -(mathValue radix digits : ℤ) else mathValue radix digits)

/-- `String.fromCodePoint`. -/
def fromCodePoint : Option ℤ → Except Stop Text
  | some c => if 0 ≤ c ∧ c ≤ 0x10FFFF then .ok (encode c.toNat) else .error .rangeError
  | none => .error .rangeError

def readUnicode (s : Text) (pos : ℕ) : Option ℤ × ℕ :=
  if s[pos]? = some 0x7B then
    let pos := pos + 1
    let close := indexOf s 0x7D pos
    (parseInt (substring s pos close) 16, (close + 1).toNat)
  else
    (parseInt (substring s pos (pos + UNICODE_ESCAPE_LENGTH)) 16, pos + UNICODE_ESCAPE_LENGTH)

def readHex (s : Text) (pos : ℕ) : Option ℤ × ℕ :=
  (parseInt (substring s pos (pos + HEX_ESCAPE_LENGTH)) 16, pos + HEX_ESCAPE_LENGTH)

/-- The octal digits from a position on, up to as many as are left. -/
def readDigits (s : Text) : ℕ → ℕ → Text
  | 0, _ => []
  | left + 1, i => if isOctalDigit (cp s i) then s[i]?.toList ++ readDigits s left (i + 1) else []

def readOctal (s : Text) (pos firstDigit : ℕ) : Except Stop (Text × ℕ) := do
  let digits := readDigits s 2 pos
  let octal := encode firstDigit ++ digits
  return (← fromCodePoint (parseInt octal 8), pos + digits.length)

def readEscape (s : Text) (pos : ℕ) : Except Stop (Text × ℕ) :=
  let c := cp s pos
  let pos := inc pos c
  match c with
  | some 0x6E => .ok ([0x0A], pos)
  | some 0x72 => .ok ([0x0D], pos)
  | some 0x74 => .ok ([0x09], pos)
  | some 0x62 => .ok ([0x08], pos)
  | some 0x76 => .ok ([0x0B], pos)
  | some 0x66 => .ok ([0x0C], pos)
  | some 0x5C => .ok ([0x5C], pos)
  | some 0x0D => .ok ([], if cp s pos = some 0x0A then pos + 1 else pos)
  | some 0x0A => .ok ([], pos)
  | some 0x75 => do
    let (u, pos) := readUnicode s pos
    return (← fromCodePoint u, pos)
  | some 0x78 => do
    let (x, pos) := readHex s pos
    return (← fromCodePoint x, pos)
  | some c =>
    if isOctalDigit (some c) then readOctal s pos c
    else do return (← fromCodePoint (some c), pos)
  | none => .error .rangeError

/-- The tokens that are read at a position, and the position behind them. -/
def readToken (s : Text) (start : ℕ) : Except Stop (List StringLiteralToken × ℕ) := do
  let c := cp s start
  let pos := inc start c
  match c with
  | some 0x5C =>
    let (value, pos) ← readEscape s pos
    return (if value ≠ [] then [⟨value, (start, pos)⟩] else [], pos)
  | some 0x2F =>
    let forwardSlash := ⟨encode 0x2F, (start, pos)⟩
    return ([forwardSlash, forwardSlash], pos)
  | c => return ([⟨← fromCodePoint (c.map Int.ofNat), (start, pos)⟩], pos)

def tokenizeFrom (s : Text) : ℕ → ℕ → Except Stop (List StringLiteralToken)
  | 0, pos => if pos < s.length then .error .outOfFuel else .ok []
  | fuel + 1, pos =>
    if pos < s.length then do
      let (tokens, pos) ← readToken s pos
      return tokens ++ (← tokenizeFrom s fuel pos)
    else .ok []

def tokenizeString (s : Text) : Except Stop (List StringLiteralToken) :=
  tokenizeFrom s s.length 0

/-! ## What the tokenizer reads -/

section Reading

variable {s rest digits : Text} {pos radix : ℕ}

theorem inc_some (pos c : ℕ) : inc pos (some c) = pos + (encode c).length := by
  rw [length_encode]
  simp [inc]

theorem isOctalDigit_some (c : ℕ) : isOctalDigit (some c) = isDigit 8 c := by
  rw [Bool.eq_iff_iff, isDigit_eight_iff]
  simp [isOctalDigit]

theorem isOctalDigit_cp (s : Text) (pos : ℕ) :
    isOctalDigit (cp s pos) = startsWithDigit 8 (s.drop pos) := by
  rw [← any_isDigit_codePoint, cp]
  cases codePoint (s.drop pos) with
  | none => rfl
  | some c => exact isOctalDigit_some c

theorem drop_of_drop {text : Text} (h : s.drop pos = text ++ rest) :
    s.drop (pos + text.length) = rest := by
  rw [← List.drop_drop, h, List.drop_left]

theorem drop_succ_of_drop {u : CodeUnit} (h : s.drop pos = u :: rest) :
    s.drop (pos + 1) = rest := by
  rw [← List.drop_drop, h]
  rfl

theorem substring_of_drop (h : s.drop pos = digits ++ rest) :
    substring s pos (pos + digits.length) = digits := by
  have first : (min (pos : ℤ) (pos + digits.length)).toNat = pos := by omega
  have last : (max (pos : ℤ) (pos + digits.length)).toNat = pos + digits.length := by omega
  rw [substring, first, last, List.drop_take, h, Nat.add_sub_cancel_left, List.take_left]

theorem indexOf_of_drop {u : CodeUnit} (h : s.drop pos = digits ++ u :: rest)
    (new : u ∉ digits) : indexOf s u pos = pos + digits.length := by
  have missing : digits.findIdx? (· = u) = none := by
    rw [List.findIdx?_eq_none_iff]
    intro v member
    exact decide_eq_false fun same => new (same ▸ member)
  rw [indexOf, h, List.findIdx?_append, missing, List.findIdx?_cons, if_pos (decide_eq_true rfl)]
  simp

theorem not_isSpace_of_isDigit {u : CodeUnit} (h : isDigit 16 u.toNat) : isSpace u = false := by
  rw [isDigit_sixteen_iff] at h
  simp [isSpace]
  omega

theorem parseInt_of_digits (digit : radix ≤ 16) (all : AreDigits radix digits)
    (nonempty : digits ≠ []) : parseInt digits radix = some (mathValue radix digits : ℤ) := by
  obtain ⟨first, more, rfl⟩ := List.exists_cons_of_ne_nil nonempty
  have firstDigit := isDigit_mono digit (all first List.mem_cons_self)
  have noSpace : (first :: more).dropWhile isSpace = first :: more :=
    List.dropWhile_cons_of_neg (by rw [not_isSpace_of_isDigit firstDigit]; exact Bool.false_ne_true)
  have noSign : first ≠ 0x2D ∧ first ≠ 0x2B := by
    constructor
    · rintro rfl
      exact absurd firstDigit (by decide)
    · rintro rfl
      exact absurd firstDigit (by decide)
  have noPrefix : ∀ x : CodeUnit, ¬ isDigit 16 x.toNat →
      ¬ [0x30, x].isPrefixOf (first :: more) := by
    intro x noDigit isPrefix
    obtain ⟨rest, same⟩ := List.isPrefixOf_iff_prefix.mp isPrefix
    refine noDigit (isDigit_mono digit (all x ?_))
    rw [← same]
    simp
  have whole : (first :: more).takeWhile (fun u => isDigit radix u.toNat) = first :: more :=
    List.takeWhile_eq_self_iff.mpr all
  unfold parseInt
  simp only [noSpace, List.head?_cons, Option.some.injEq, noSign, or_self, if_false,
    noPrefix 0x78 (by decide), noPrefix 0x58 (by decide), Bool.false_eq_true, and_false, whole]

theorem fromCodePoint_of_le {c : ℕ} (h : c ≤ 0x10FFFF) :
    fromCodePoint (some (c : ℤ)) = .ok (encode c) := by
  have inRange : 0 ≤ (c : ℤ) ∧ (c : ℤ) ≤ 0x10FFFF := by omega
  rw [fromCodePoint, if_pos inRange, Int.toNat_natCast]

theorem readDigits_of_drop {left : ℕ} (h : s.drop pos = digits ++ rest)
    (all : AreDigits 8 digits) (fits : digits.length ≤ left)
    (ends : digits.length < left → ¬ startsWithDigit 8 rest) :
    readDigits s left pos = digits := by
  induction left generalizing pos digits with
  | zero => exact (List.length_eq_zero_iff.mp (Nat.le_zero.mp fits)).symm
  | succ left ih =>
      cases digits with
      | nil =>
          have stops : ¬ isOctalDigit (cp s pos) := by
            rw [isOctalDigit_cp, h]
            exact ends (Nat.succ_pos left)
          rw [readDigits, if_neg stops]
      | cons u digits =>
          have digit := all u List.mem_cons_self
          have here : s[pos]? = some u := by
            rw [← List.head?_drop, h]
            rfl
          have goesOn : isOctalDigit (cp s pos) := by
            rw [isOctalDigit_cp, h]
            exact digit
          have next : s.drop (pos + 1) = digits ++ rest := drop_succ_of_drop h
          have behind := ih next (fun v member => all v (.tail u member))
            (Nat.le_of_succ_le_succ fits) fun more => ends (Nat.succ_lt_succ more)
          rw [readDigits, if_pos goesOn, here, behind]
          rfl

theorem cp_of_drop {u : CodeUnit} (h : s.drop pos = u :: rest) (low : u.toNat < 0xD800) :
    cp s pos = some u.toNat := by
  rw [cp, h]
  apply codePoint_of_not_high
  rw [isHighSurrogate, decide_eq_false (Nat.not_le.mpr low), Bool.false_and]

theorem cp_of_encode {c : ℕ} (h : s.drop pos = encode c ++ rest) (low : c < 0xD800) :
    cp s pos = some c := by
  have small : (c.toUInt16).toNat = c := toNat_toUInt16 (by omega)
  rw [encode_of_lt (by omega)] at h
  rw [cp_of_drop h (by rw [small]; exact low), small]

/-- A single escape is one of the table, or one of the quotes. -/
theorem readEscape_single {c : ℕ} (h : s.drop pos = encode c ++ rest)
    (known : (singleEscape c).isSome) :
    readEscape s pos = .ok ((singleEscape c).elim [] encode, pos + (encode c).length) := by
  unfold singleEscape at known ⊢
  split at known
  case h_10 => cases known
  all_goals
    rw [readEscape, cp_of_encode h (by decide)]
    rfl

/-- The characters that `readEscape` has a case for. -/
def hasCase (c : ℕ) : Prop :=
  c ∈ [0x6E, 0x72, 0x74, 0x62, 0x76, 0x66, 0x5C, 0x0D, 0x0A, 0x75, 0x78]

theorem readEscape_default {c : ℕ} (h : cp s pos = some c) (noCase : ¬ hasCase c) :
    readEscape s pos = if isDigit 8 c then readOctal s (inc pos (some c)) c
      else .ok (encode c, inc pos (some c)) := by
  have inRange := fromCodePoint_of_le (codePoint_le h)
  unfold readEscape
  rw [h]
  dsimp only
  split
  case h_12 c' _ _ _ _ _ _ _ _ _ _ _ same =>
    obtain rfl := Option.some.inj same
    rw [isOctalDigit_some, inRange]
    rfl
  case h_13 same => cases same
  all_goals
    rename_i same
    obtain rfl := Option.some.inj same
    exact absurd (by simp [hasCase]) noCase

theorem readOctal_of_drop {first : CodeUnit} (h : s.drop pos = digits ++ rest)
    (all : AreDigits 8 (first :: digits)) (fits : digits.length ≤ 2)
    (ends : digits.length < 2 → ¬ startsWithDigit 8 rest) :
    readOctal s pos first.toNat =
      .ok (encode (mathValue 8 (first :: digits)), pos + digits.length) := by
  have small : mathValue 8 (first :: digits) ≤ 0x10FFFF := by
    have bound := mathValue_lt all
    have power : 8 ^ (first :: digits).length ≤ 8 ^ 3 :=
      Nat.pow_le_pow_right (by decide) (Nat.succ_le_succ fits)
    omega
  have tail : AreDigits 8 digits := fun u member => all u (List.mem_cons_of_mem first member)
  rw [readOctal, readDigits_of_drop h tail fits ends, encode_of_lt first.toNat_lt]
  simp only [Nat.toUInt16_eq, UInt16.ofNat_toNat, List.singleton_append]
  rw [parseInt_of_digits (by decide) all (List.cons_ne_nil _ _), fromCodePoint_of_le small]
  rfl

theorem readEscape_octal {first : CodeUnit} (h : s.drop pos = first :: digits ++ rest)
    (all : AreDigits 8 (first :: digits)) (fits : digits.length ≤ 2)
    (ends : digits.length < 2 → ¬ startsWithDigit 8 rest) :
    readEscape s pos =
      .ok (encode (mathValue 8 (first :: digits)), pos + (digits.length + 1)) := by
  have digit := all first List.mem_cons_self
  have range := isDigit_eight_iff.mp digit
  have noCase : ¬ hasCase first.toNat := by
    simp only [hasCase, List.mem_cons, List.not_mem_nil, or_false]
    omega
  have behind : s.drop (pos + 1) = digits ++ rest := drop_succ_of_drop h
  have next : inc pos (some first.toNat) = pos + 1 := by
    rw [inc_some, encode_of_lt first.toNat_lt]
    rfl
  rw [readEscape_default (cp_of_drop h (by omega)) noCase, if_pos digit, next,
    readOctal_of_drop behind all fits ends, Nat.add_assoc, Nat.add_comm 1]

/-- The digits of `x` and of `u` without braces. -/
theorem parse_hex {length : ℕ} (h : s.drop pos = digits ++ rest) (all : AreDigits 16 digits)
    (exact : digits.length = length) (positive : 0 < length) (short : length ≤ 4) :
    fromCodePoint (parseInt (substring s pos (pos + length)) 16) =
      .ok (encode (mathValue 16 digits)) := by
  subst exact
  have small : mathValue 16 digits ≤ 0x10FFFF := by
    have bound := mathValue_lt all
    have power : 16 ^ digits.length ≤ 16 ^ 4 := Nat.pow_le_pow_right (by decide) short
    omega
  rw [substring_of_drop h, parseInt_of_digits le_rfl all (List.ne_nil_of_length_pos positive),
    fromCodePoint_of_le small]

theorem readEscape_hex (h : s.drop pos = 0x78 :: digits ++ rest) (all : AreDigits 16 digits)
    (two : digits.length = 2) :
    readEscape s pos = .ok (encode (mathValue 16 digits), pos + (digits.length + 1)) := by
  have next : s.drop (pos + 1) = digits ++ rest := drop_succ_of_drop h
  have parsed := parse_hex next all two (by decide) (by decide)
  rw [readEscape, cp_of_drop h (by decide), two]
  show (do return (← fromCodePoint
    (parseInt (substring s (pos + 1 : ℕ) ((pos + 1 : ℕ) + (2 : ℕ))) 16), pos + 1 + 2)) = _
  rw [parsed]
  rfl

theorem readEscape_unicode (h : s.drop pos = 0x75 :: digits ++ rest) (all : AreDigits 16 digits)
    (four : digits.length = 4) :
    readEscape s pos = .ok (encode (mathValue 16 digits), pos + (digits.length + 1)) := by
  have next : s.drop (pos + 1) = digits ++ rest := drop_succ_of_drop h
  have parsed := parse_hex next all four (by decide) (by decide)
  have noBrace : ¬ s[pos + 1]? = some 0x7B := by
    obtain ⟨first, more, rfl⟩ := List.exists_cons_of_length_eq_add_one four
    rw [← List.head?_drop, next]
    intro brace
    obtain rfl := Option.some.inj brace
    exact absurd (all _ List.mem_cons_self) (by decide)
  rw [readEscape, cp_of_drop h (by decide), four]
  show (do
    let (u, pos) := readUnicode s (pos + 1)
    return (← fromCodePoint u, pos)) = _
  rw [readUnicode, if_neg noBrace]
  show (do return (← fromCodePoint
    (parseInt (substring s (pos + 1 : ℕ) ((pos + 1 : ℕ) + (4 : ℕ))) 16), pos + 1 + 4)) = _
  rw [parsed]
  rfl

theorem readEscape_codePoint (h : s.drop pos = 0x75 :: 0x7B :: (digits ++ [0x7D]) ++ rest)
    (all : AreDigits 16 digits) (nonempty : digits ≠ []) (small : mathValue 16 digits ≤ 0x10FFFF) :
    readEscape s pos = .ok (encode (mathValue 16 digits), pos + (digits.length + 3)) := by
  have brace : s[pos + 1]? = some 0x7B := by
    rw [← List.head?_drop, drop_succ_of_drop h]
    rfl
  have next : s.drop (pos + 2) = digits ++ 0x7D :: rest := by
    exact (drop_succ_of_drop (drop_succ_of_drop h)).trans (List.append_assoc digits [0x7D] rest)
  have close : indexOf s 0x7D (pos + 2) = (pos + 2 : ℕ) + digits.length := by
    apply indexOf_of_drop next
    intro member
    exact absurd (all _ member) (by decide)
  have parsed : fromCodePoint
      (parseInt (substring s (pos + 2 : ℕ) ((pos + 2 : ℕ) + digits.length)) 16) =
        .ok (encode (mathValue 16 digits)) := by
    rw [substring_of_drop next, parseInt_of_digits le_rfl all nonempty, fromCodePoint_of_le small]
  have behind : ((pos + 2 : ℕ) + (digits.length : ℤ) + 1).toNat = pos + (digits.length + 3) := by
    omega
  rw [readEscape, cp_of_drop h (by decide)]
  show (do
    let (u, pos) := readUnicode s (pos + 1)
    return (← fromCodePoint u, pos)) = _
  rw [readUnicode, if_pos brace]
  show (do return (← fromCodePoint
    (parseInt (substring s (pos + 2 : ℕ) (indexOf s 0x7D (pos + 2))) 16),
    (indexOf s 0x7D (pos + 2) + 1).toNat)) = _
  rw [close, parsed, behind]
  rfl

/-- A piece as the tokenizer reads it in front of a text. -/
def Reads (rest : Text) : Piece → Prop
  | .character c => codePoint (encode c ++ rest) = some c ∧ c ≠ 0x5C
  | .lineContinuation terminator => terminator = .lf ∨ terminator = .crlf ∨
      terminator = .cr ∧ rest.head? ≠ some LF
  | .single c => (singleEscape c).isSome
  | .nonEscape c => codePoint (encode c ++ rest) = some c ∧ ¬ hasCase c ∧ ¬ isDigit 8 c
  | .octal digits => AreDigits 8 digits ∧ digits ≠ [] ∧ digits.length ≤ 3 ∧
      (digits.length < 3 → ¬ startsWithDigit 8 rest)
  | .hex digits => AreDigits 16 digits ∧ digits.length = 2
  | .unicode digits => AreDigits 16 digits ∧ digits.length = 4
  | .codePoint digits => AreDigits 16 digits ∧ digits ≠ [] ∧ mathValue 16 digits ≤ 0x10FFFF

def AllRead : List Piece → Prop
  | [] => True
  | piece :: pieces => Reads (raw pieces) piece ∧ AllRead pieces

/-- The token of a piece. -/
def token (pos : ℕ) (piece : Piece) : StringLiteralToken :=
  ⟨piece.value, (pos, pos + piece.raw.length)⟩

/-- Nothing for a line continuation, and two tokens for a slash. -/
def tokensOf (pos : ℕ) (piece : Piece) : List StringLiteralToken :=
  if piece.value = [] then []
  else if piece = .character 0x2F then [token pos piece, token pos piece]
  else [token pos piece]

theorem readEscape_lineContinuation {terminator : LineTerminator}
    (h : s.drop pos = terminator.raw ++ rest) (reads : Reads rest (.lineContinuation terminator)) :
    readEscape s pos = .ok ([], pos + terminator.raw.length) := by
  obtain rfl | rfl | ⟨rfl, single⟩ := reads
  · rw [readEscape, cp_of_drop h (by decide)]
    rfl
  · have next : cp s (pos + 1) = some 0x0A := cp_of_drop (drop_succ_of_drop h) (by decide)
    rw [readEscape, cp_of_drop h (by decide)]
    show Except.ok (_, if cp s (pos + 1) = some 0x0A then pos + 1 + 1 else pos + 1) = _
    rw [if_pos next]
    rfl
  · have next : ¬ cp s (pos + 1) = some 0x0A := by
      rw [cp, drop_succ_of_drop h]
      intro isLF
      exact single (head?_of_codePoint isLF (by decide))
    rw [readEscape, cp_of_drop h (by decide)]
    show Except.ok (_, if cp s (pos + 1) = some 0x0A then pos + 1 + 1 else pos + 1) = _
    rw [if_neg next]
    rfl

theorem readEscape_of_reads {piece : Piece} {text : Text} (isEscape : piece.raw = backslash :: text)
    (reads : Reads rest piece) (noCharacter : ∀ c, piece ≠ .character c)
    (h : s.drop pos = text ++ rest) :
    readEscape s pos = .ok (piece.value, pos + text.length) := by
  cases piece with
  | character c => exact absurd rfl (noCharacter c)
  | lineContinuation terminator =>
      obtain rfl := List.tail_eq_of_cons_eq isEscape
      exact readEscape_lineContinuation h reads
  | single c =>
      obtain rfl := List.tail_eq_of_cons_eq isEscape
      exact readEscape_single h reads
  | nonEscape c =>
      obtain rfl := List.tail_eq_of_cons_eq isEscape
      obtain ⟨decoded, noCase, noDigit⟩ := reads
      have here : cp s pos = some c := by
        rw [cp, h]
        exact decoded
      rw [readEscape_default here noCase, if_neg noDigit, inc_some]
      rfl
  | octal digits =>
      obtain rfl := List.tail_eq_of_cons_eq isEscape
      obtain ⟨all, nonempty, short, ends⟩ := reads
      obtain ⟨first, more, rfl⟩ := List.exists_cons_of_ne_nil nonempty
      exact readEscape_octal h all (Nat.le_of_succ_le_succ short) fun fewer =>
        ends (Nat.succ_lt_succ fewer)
  | hex digits =>
      obtain rfl := List.tail_eq_of_cons_eq isEscape
      exact readEscape_hex h reads.1 reads.2
  | unicode digits =>
      obtain rfl := List.tail_eq_of_cons_eq isEscape
      exact readEscape_unicode h reads.1 reads.2
  | codePoint digits =>
      obtain rfl := List.tail_eq_of_cons_eq isEscape
      rw [readEscape_codePoint h reads.1 reads.2.1 reads.2.2]
      simp [Piece.value]

theorem readToken_of_reads {piece : Piece} (reads : Reads rest piece)
    (h : s.drop pos = piece.raw ++ rest) :
    readToken s pos = .ok (tokensOf pos piece, pos + piece.raw.length) := by
  by_cases isCharacter : ∃ c, piece = .character c
  case pos =>
    obtain ⟨c, rfl⟩ := isCharacter
    obtain ⟨decoded, noEscape⟩ := reads
    have here : cp s pos = some c := by
      rw [cp, h]
      exact decoded
    have inRange := fromCodePoint_of_le (codePoint_le decoded)
    have nonempty : Piece.value (.character c) ≠ [] := encode_ne_nil c
    rw [readToken, here, tokensOf, if_neg nonempty]
    dsimp only
    split
    case h_1 same => exact absurd (Option.some.inj same) noEscape
    case h_2 same =>
      obtain rfl := Option.some.inj same
      rfl
    case h_3 noSlash =>
      have other : Piece.character c ≠ .character 0x2F := by
        rintro same
        exact noSlash (congrArg some (Piece.character.inj same))
      rw [if_neg other, Option.map_some, Int.ofNat_eq_natCast, inRange, inc_some]
      rfl
  case neg =>
    have noCharacter : ∀ c, piece ≠ .character c := fun c same => isCharacter ⟨c, same⟩
    obtain ⟨text, isEscape⟩ : ∃ text, piece.raw = backslash :: text := by
      cases piece with
      | character c => exact absurd rfl (noCharacter c)
      | _ => exact ⟨_, rfl⟩
    rw [isEscape] at h
    have escape := readEscape_of_reads isEscape reads noCharacter (drop_succ_of_drop h)
    have behind : pos + 1 + text.length = pos + piece.raw.length := by
      rw [isEscape, List.length_cons, Nat.add_assoc, Nat.add_comm 1]
    have read : readToken s pos = .ok
        (if piece.value ≠ [] then [⟨piece.value, (pos, pos + 1 + text.length)⟩] else [],
          pos + 1 + text.length) := by
      rw [readToken, cp_of_drop h (by decide)]
      show (readEscape s (pos + 1)).bind _ = _
      rw [escape]
      rfl
    rw [read, tokensOf, if_neg (noCharacter 0x2F), behind, ite_not]
    rfl

/-- The tokens of pieces from a position on. -/
def place : ℕ → List Piece → List StringLiteralToken
  | _, [] => []
  | pos, piece :: pieces => tokensOf pos piece ++ place (pos + piece.raw.length) pieces

theorem tokenizeFrom_of_allRead {pieces : List Piece} (reads : AllRead pieces) {fuel : ℕ}
    (h : s.drop pos = raw pieces) (enough : (raw pieces).length ≤ fuel) :
    tokenizeFrom s fuel pos = .ok (place pos pieces) := by
  induction pieces generalizing pos fuel with
  | nil =>
      have ends : ¬ pos < s.length := Nat.not_lt.mpr (List.drop_eq_nil_iff.mp h)
      cases fuel with
      | zero => exact if_neg ends
      | succ fuel => exact if_neg ends
  | cons piece pieces ih =>
      have positive := List.length_pos_of_ne_nil piece.raw_ne_nil
      rw [raw_cons, List.length_append] at enough
      have goesOn : pos < s.length := by
        have length := congrArg List.length h
        rw [raw_cons, List.length_append, List.length_drop] at length
        omega
      have someFuel : 0 < fuel := by omega
      obtain ⟨fuel, rfl⟩ := Nat.exists_eq_add_one.mpr someFuel
      have left : (raw pieces).length ≤ fuel := by omega
      have rest := ih reads.2 (drop_of_drop h) left
      rw [tokenizeFrom, if_pos goesOn, readToken_of_reads reads.1 h]
      show (tokenizeFrom s fuel (pos + piece.raw.length)).bind _ = _
      rw [rest]
      rfl

theorem tokenizeString_of_allRead {pieces : List Piece} (reads : AllRead pieces) :
    tokenizeString (raw pieces) = .ok (place 0 pieces) :=
  tokenizeFrom_of_allRead reads rfl le_rfl

end Reading

end SonarJS.Regex
