import Mathlib.Algebra.Ring.Nat
import Mathlib.Data.List.Infix
import Mathlib.Data.Nat.Notation
import Mathlib.Tactic.Common

/-!
# String literals of ECMAScript

Texts are sequences of UTF-16 code units. The body of a string literal, what stands between
its quotes, is a sequence of pieces: characters of the source, escape sequences and line
continuations. A piece has a raw text and a value, and it depends on the text after it: a
surrogate pair is one character, and an octal escape takes the digits that it can.
-/

namespace SonarJS.StringLiteral

abbrev CodeUnit := UInt16

abbrev Text := List CodeUnit

/-! ## Code points -/

def isHighSurrogate (u : CodeUnit) : Bool := 0xD800 ≤ u.toNat && u.toNat < 0xDC00

def isLowSurrogate (u : CodeUnit) : Bool := 0xDC00 ≤ u.toNat && u.toNat < 0xE000

/-- The code point that a text starts with. A surrogate without its other half stands for
itself. -/
def codePoint : Text → Option ℕ
  | [] => none
  | [u] => some u.toNat
  | u :: v :: _ =>
    if isHighSurrogate u && isLowSurrogate v then
      some (0x10000 + (u.toNat - 0xD800) * 0x400 + (v.toNat - 0xDC00))
    else some u.toNat

/-- `UTF16EncodeCodePoint`. -/
def encode (c : ℕ) : Text :=
  if c < 0x10000 then [c.toUInt16]
  else [(0xD800 + (c - 0x10000) / 0x400).toUInt16, (0xDC00 + (c - 0x10000) % 0x400).toUInt16]

def utf16 (s : String) : Text := s.toList.flatMap fun c => encode c.toNat

theorem utf16_append (s s' : String) : utf16 (s ++ s') = utf16 s ++ utf16 s' := by
  rw [utf16, String.toList_append, List.flatMap_append]
  rfl

theorem toNat_toUInt16 {c : ℕ} (h : c < 0x10000) : (c.toUInt16).toNat = c := by
  rw [Nat.toUInt16_eq, UInt16.toNat_ofNat', Nat.mod_eq_of_lt h]

theorem encode_of_lt {c : ℕ} (h : c < 0x10000) : encode c = [c.toUInt16] := if_pos h

theorem length_encode (c : ℕ) : (encode c).length = if 0x10000 ≤ c then 2 else 1 := by
  rw [encode]
  split
  case isTrue small => rw [if_neg (Nat.not_le.mpr small), List.length_singleton]
  case isFalse large =>
    rw [if_pos (Nat.not_lt.mp large)]
    rfl

theorem encode_ne_nil (c : ℕ) : encode c ≠ [] := by
  rw [encode]
  split
  · exact List.cons_ne_nil _ _
  · exact List.cons_ne_nil _ _

theorem codePoint_of_not_high {u : CodeUnit} (h : isHighSurrogate u = false) (rest : Text) :
    codePoint (u :: rest) = some u.toNat := by
  cases rest with
  | nil => rfl
  | cons v rest => simp [codePoint, h]

/-- A code point below the surrogates is the first code unit. -/
theorem head?_of_codePoint {text : Text} {c : ℕ} (h : codePoint text = some c)
    (low : c < 0xD800) : text.head? = some c.toUInt16 := by
  cases text with
  | nil => cases h
  | cons u rest =>
      by_cases high : isHighSurrogate u
      case neg =>
        rw [codePoint_of_not_high (Bool.not_eq_true _ ▸ high)] at h
        obtain rfl := Option.some.inj h
        simp
      case pos =>
        simp only [isHighSurrogate, Bool.and_eq_true, decide_eq_true_eq] at high
        unfold codePoint at h
        split at h
        case h_1 => cases h
        case h_2 v same =>
          cases same
          have := Option.some.inj h
          omega
        case h_3 v w _ same =>
          cases same
          split at h
          · have := Option.some.inj h
            omega
          · have := Option.some.inj h
            omega

theorem codePoint_le {text : Text} {c : ℕ} (h : codePoint text = some c) : c ≤ 0x10FFFF := by
  unfold codePoint at h
  split at h
  case h_1 => cases h
  case h_2 u =>
    obtain rfl := Option.some.inj h
    have := u.toNat_lt
    omega
  case h_3 u v _ =>
    split at h
    case isFalse =>
      obtain rfl := Option.some.inj h
      have := u.toNat_lt
      omega
    case isTrue pair =>
      obtain rfl := Option.some.inj h
      simp only [isHighSurrogate, isLowSurrogate, Bool.and_eq_true, decide_eq_true_eq] at pair
      omega

/-! ## Digits -/

/-- The value of a digit, up to the radix 36. -/
def digitValue (c : ℕ) : Option ℕ :=
  if 0x30 ≤ c ∧ c ≤ 0x39 then some (c - 0x30)
  else if 0x41 ≤ c ∧ c ≤ 0x5A then some (c - 0x37)
  else if 0x61 ≤ c ∧ c ≤ 0x7A then some (c - 0x57)
  else none

def isDigit (radix c : ℕ) : Bool := (digitValue c).any (· < radix)

/-- A text that starts with a digit. -/
def startsWithDigit (radix : ℕ) (text : Text) : Bool :=
  text.head?.any fun u => isDigit radix u.toNat

def AreDigits (radix : ℕ) (digits : Text) : Prop := ∀ u ∈ digits, isDigit radix u.toNat

/-- The mathematical value of a sequence of digits. -/
def mathValue (radix : ℕ) (digits : Text) : ℕ :=
  digits.foldl (fun value u => value * radix + (digitValue u.toNat).getD 0) 0

theorem digitValue_lt_of_isDigit {radix c : ℕ} (h : isDigit radix c) :
    (digitValue c).getD 0 < radix := by
  obtain ⟨value, known, small⟩ := (Option.any_eq_true ..).mp h
  rw [known]
  exact of_decide_eq_true small

theorem isDigit_mono {radix radix' c : ℕ} (le : radix ≤ radix') (h : isDigit radix c) :
    isDigit radix' c := by
  rw [isDigit, Option.any_eq_true] at h ⊢
  obtain ⟨value, known, small⟩ := h
  exact ⟨value, known, decide_eq_true (lt_of_lt_of_le (of_decide_eq_true small) le)⟩

theorem le_of_isDigit {radix c : ℕ} (h : isDigit radix c) : c ≤ 0x7A := by
  obtain ⟨value, known, _⟩ := (Option.any_eq_true ..).mp h
  unfold digitValue at known
  split_ifs at known <;> omega

/-- A digit is no half of a surrogate pair. -/
theorem any_isDigit_codePoint (radix : ℕ) (text : Text) :
    (codePoint text).any (isDigit radix) = startsWithDigit radix text := by
  cases text with
  | nil => rfl
  | cons u rest =>
      by_cases high : isHighSurrogate u
      case neg =>
        rw [codePoint_of_not_high (Bool.not_eq_true _ ▸ high)]
        rfl
      case pos =>
        have noDigit : ∀ c, 0x7A < c → isDigit radix c = false := fun c large =>
          Bool.not_eq_true _ ▸ fun digit => absurd (le_of_isDigit digit) (Nat.not_le.mpr large)
        simp only [isHighSurrogate, Bool.and_eq_true, decide_eq_true_eq] at high
        have right : startsWithDigit radix (u :: rest) = false := noDigit u.toNat (by omega)
        rw [right]
        cases rest with
        | nil => exact noDigit u.toNat (by omega)
        | cons v rest =>
            rw [codePoint]
            split
            · rw [Option.any_some]
              apply noDigit
              omega
            · rw [Option.any_some]
              apply noDigit
              omega

theorem isDigit_eight_iff {c : ℕ} : isDigit 8 c ↔ 0x30 ≤ c ∧ c ≤ 0x37 := by
  simp only [isDigit, digitValue]
  split_ifs <;> simp <;> omega

theorem isDigit_sixteen_iff {c : ℕ} :
    isDigit 16 c ↔ 0x30 ≤ c ∧ c ≤ 0x39 ∨ 0x41 ≤ c ∧ c ≤ 0x46 ∨ 0x61 ≤ c ∧ c ≤ 0x66 := by
  simp only [isDigit, digitValue]
  split_ifs <;> simp <;> omega

theorem mathValue_concat (radix : ℕ) (digits : Text) (u : CodeUnit) :
    mathValue radix (digits ++ [u]) =
      mathValue radix digits * radix + (digitValue u.toNat).getD 0 := by
  rw [mathValue, List.foldl_append]
  rfl

theorem mathValue_lt {radix : ℕ} {digits : Text} (h : AreDigits radix digits) :
    mathValue radix digits < radix ^ digits.length := by
  induction digits using List.reverseRecOn with
  | nil => exact Nat.one_pos
  | append_singleton digits u ih =>
      have before := ih fun v member => h v (List.mem_append_left _ member)
      have digit := h u (List.mem_append_right _ (List.mem_singleton_self u))
      have last := digitValue_lt_of_isDigit digit
      rw [mathValue_concat, List.length_append, List.length_singleton, Nat.pow_succ]
      calc mathValue radix digits * radix + (digitValue u.toNat).getD 0
          < mathValue radix digits * radix + radix := Nat.add_lt_add_left last _
        _ = (mathValue radix digits + 1) * radix := (Nat.succ_mul _ _).symm
        _ ≤ radix ^ digits.length * radix := Nat.mul_le_mul_right radix before

/-! ## Pieces -/

def backslash : CodeUnit := 0x5C
def LF : CodeUnit := 0x0A
def CR : CodeUnit := 0x0D
def LS : CodeUnit := 0x2028
def PS : CodeUnit := 0x2029

inductive LineTerminator
  | lf
  | cr
  | crlf
  | ls
  | ps
deriving DecidableEq

def LineTerminator.raw : LineTerminator → Text
  | .lf => [LF]
  | .cr => [CR]
  | .crlf => [CR, LF]
  | .ls => [LS]
  | .ps => [PS]

/-- The value of a `SingleEscapeCharacter`. -/
def singleEscape : ℕ → Option ℕ
  | 0x62 => some 0x08
  | 0x74 => some 0x09
  | 0x6E => some 0x0A
  | 0x76 => some 0x0B
  | 0x66 => some 0x0C
  | 0x72 => some 0x0D
  | 0x22 => some 0x22
  | 0x27 => some 0x27
  | 0x5C => some 0x5C
  | _ => none

/-- What a string literal is made of. An octal escape has its one to three digits, where `\0`
is one of them; a character that is escaped to no effect can be an `8` or a `9`. -/
inductive Piece
  | character (c : ℕ)
  | lineContinuation (terminator : LineTerminator)
  | single (c : ℕ)
  | nonEscape (c : ℕ)
  | octal (digits : Text)
  | hex (digits : Text)
  | unicode (digits : Text)
  | codePoint (digits : Text)
deriving DecidableEq

namespace Piece

def raw : Piece → Text
  | .character c => encode c
  | .lineContinuation terminator => backslash :: terminator.raw
  | .single c => backslash :: encode c
  | .nonEscape c => backslash :: encode c
  | .octal digits => backslash :: digits
  | .hex digits => backslash :: 0x78 :: digits
  | .unicode digits => backslash :: 0x75 :: digits
  | .codePoint digits => backslash :: 0x75 :: 0x7B :: (digits ++ [0x7D])

/-- `SV`. -/
def value : Piece → Text
  | .character c => encode c
  | .lineContinuation _ => []
  | .single c => (singleEscape c).elim [] encode
  | .nonEscape c => encode c
  | .octal digits => encode (mathValue 8 digits)
  | .hex digits => encode (mathValue 16 digits)
  | .unicode digits => encode (mathValue 16 digits)
  | .codePoint digits => encode (mathValue 16 digits)

/-- The productions of `LegacyOctalEscapeSequence`, and `0` without a digit behind it. -/
def FitsOctal (rest : Text) : Text → Prop
  | [_] => ¬ startsWithDigit 8 rest
  | [first, _] => isDigit 4 first.toNat → ¬ startsWithDigit 8 rest
  | [first, _, _] => isDigit 4 first.toNat
  | _ => False

/-- A character that an escape sequence of its own starts with: a `SingleEscapeCharacter`, an
octal digit, `x` or `u`, or a line continuation. -/
def StartsEscape (c : ℕ) : Prop :=
  (singleEscape c).isSome ∨ isDigit 8 c ∨ c = 0x78 ∨ c = 0x75 ∨
    c ∈ [LF.toNat, CR.toNat, LS.toNat, PS.toNat]

/-- A piece is one of a string literal with this quote in front of this text. -/
def Fits (quote : CodeUnit) (rest : Text) : Piece → Prop
  | .character c => StringLiteral.codePoint (encode c ++ rest) = some c ∧
      c ∉ [quote.toNat, backslash.toNat, LF.toNat, CR.toNat]
  | .lineContinuation terminator => terminator = .cr → rest.head? ≠ some LF
  | .single c => (singleEscape c).isSome
  | .nonEscape c => StringLiteral.codePoint (encode c ++ rest) = some c ∧ ¬ StartsEscape c
  | .octal digits => AreDigits 8 digits ∧ FitsOctal rest digits
  | .hex digits => AreDigits 16 digits ∧ digits.length = 2
  | .unicode digits => AreDigits 16 digits ∧ digits.length = 4
  | .codePoint digits => AreDigits 16 digits ∧ digits ≠ [] ∧ mathValue 16 digits ≤ 0x10FFFF

instance (radix : ℕ) (digits : Text) : Decidable (AreDigits radix digits) :=
  List.decidableBAll (fun u : CodeUnit => isDigit radix u.toNat = true) digits

instance (rest : Text) : (digits : Text) → Decidable (FitsOctal rest digits)
  | [] => .isFalse id
  | [_] => inferInstanceAs (Decidable (¬ _))
  | [_, _] => inferInstanceAs (Decidable (_ → ¬ _))
  | [first, _, _] => inferInstanceAs (Decidable (isDigit 4 first.toNat = true))
  | _ :: _ :: _ :: _ :: _ => .isFalse id

instance (c : ℕ) : Decidable (StartsEscape c) := inferInstanceAs (Decidable (_ ∨ _))

instance (quote : CodeUnit) (rest : Text) : (piece : Piece) → Decidable (piece.Fits quote rest)
  | .character _ => inferInstanceAs (Decidable (_ ∧ _))
  | .lineContinuation _ => inferInstanceAs (Decidable (_ → _ ≠ _))
  | .single c => inferInstanceAs (Decidable ((singleEscape c).isSome = true))
  | .nonEscape _ => inferInstanceAs (Decidable (_ ∧ ¬ _))
  | .octal _ => inferInstanceAs (Decidable (_ ∧ _))
  | .hex _ => inferInstanceAs (Decidable (_ ∧ _))
  | .unicode _ => inferInstanceAs (Decidable (_ ∧ _))
  | .codePoint _ => inferInstanceAs (Decidable (_ ∧ _))

end Piece

def raw (pieces : List Piece) : Text := pieces.flatMap Piece.raw

def value (pieces : List Piece) : Text := pieces.flatMap Piece.value

/-- The pieces of the body of a string literal. -/
def IsBody (quote : CodeUnit) : List Piece → Prop
  | [] => True
  | piece :: pieces => piece.Fits quote (raw pieces) ∧ IsBody quote pieces

instance (quote : CodeUnit) : (pieces : List Piece) → Decidable (IsBody quote pieces)
  | [] => .isTrue trivial
  | _ :: pieces =>
    have := instDecidableIsBody quote pieces
    inferInstanceAs (Decidable (_ ∧ _))

@[simp] theorem raw_nil : raw [] = [] := rfl

@[simp] theorem raw_cons (piece : Piece) (pieces : List Piece) :
    raw (piece :: pieces) = piece.raw ++ raw pieces := List.flatMap_cons

theorem raw_append (pieces pieces' : List Piece) :
    raw (pieces ++ pieces') = raw pieces ++ raw pieces' := List.flatMap_append

theorem length_raw_singleton (piece : Piece) : (raw [piece]).length = piece.raw.length := by simp

@[simp] theorem value_nil : value [] = [] := rfl

@[simp] theorem value_cons (piece : Piece) (pieces : List Piece) :
    value (piece :: pieces) = piece.value ++ value pieces := List.flatMap_cons

theorem Piece.raw_ne_nil (piece : Piece) : piece.raw ≠ [] := by
  cases piece with
  | character c => exact encode_ne_nil c
  | _ => exact List.cons_ne_nil _ _

theorem value_append (pieces pieces' : List Piece) :
    value (pieces ++ pieces') = value pieces ++ value pieces' := List.flatMap_append

theorem lt_of_singleEscape {c v : ℕ} (h : singleEscape c = some v) : v < 0x80 := by
  unfold singleEscape at h
  split at h
  case h_10 => cases h
  all_goals
    obtain rfl := Option.some.inj h
    decide

/-- The value of a piece other than a line continuation is one code point. -/
theorem Piece.length_le_of_fitsOctal {rest digits : Text} (fits : FitsOctal rest digits) :
    digits.length ≤ 3 := by
  match digits with
  | [_] => exact Nat.le_add_left 1 2
  | [_, _] => exact Nat.le_succ 2
  | [_, _, _] => exact le_rfl

theorem Piece.value_eq_encode {quote : CodeUnit} {rest : Text} {piece : Piece}
    (fits : piece.Fits quote rest)
    (noContinuation : ∀ terminator, piece ≠ .lineContinuation terminator) :
    ∃ c ≤ 0x10FFFF, piece.value = encode c := by
  cases piece with
  | lineContinuation terminator => exact absurd rfl (noContinuation terminator)
  | character c => exact ⟨c, codePoint_le fits.1, rfl⟩
  | nonEscape c => exact ⟨c, codePoint_le fits.1, rfl⟩
  | single c =>
      obtain ⟨v, known⟩ := Option.isSome_iff_exists.mp fits
      have small := lt_of_singleEscape known
      exact ⟨v, by omega, by rw [Piece.value, known]; rfl⟩
  | octal digits =>
      refine ⟨mathValue 8 digits, ?_, rfl⟩
      have bound := mathValue_lt fits.1
      have short := length_le_of_fitsOctal fits.2
      have power : 8 ^ digits.length ≤ 8 ^ 3 := Nat.pow_le_pow_right (by decide) short
      omega
  | hex digits =>
      have bound := mathValue_lt fits.1
      rw [fits.2] at bound
      exact ⟨mathValue 16 digits, by omega, rfl⟩
  | unicode digits =>
      have bound := mathValue_lt fits.1
      rw [fits.2] at bound
      exact ⟨mathValue 16 digits, by omega, rfl⟩
  | codePoint digits => exact ⟨mathValue 16 digits, fits.2.2, rfl⟩

theorem Piece.value_ne_nil {quote : CodeUnit} {rest : Text} {piece : Piece}
    (fits : piece.Fits quote rest)
    (noContinuation : ∀ terminator, piece ≠ .lineContinuation terminator) : piece.value ≠ [] := by
  obtain ⟨c, -, same⟩ := Piece.value_eq_encode fits noContinuation
  rw [same]
  exact encode_ne_nil c

/-! ## Values by their indices -/

/-- An index between the halves of a surrogate pair. -/
def CutsPair (text : Text) (i : ℕ) : Prop :=
  ∃ hi lo rest, 0 < i ∧ text.drop (i - 1) = hi :: lo :: rest ∧
    isHighSurrogate hi ∧ isLowSurrogate lo

theorem surrogates_of_encode {c : ℕ} {hi lo : CodeUnit} (h : encode c = [hi, lo])
    (le : c ≤ 0x10FFFF) : isHighSurrogate hi ∧ isLowSurrogate lo := by
  rw [encode] at h
  split at h
  case isTrue => simp at h
  case isFalse large =>
    obtain ⟨isHi, rest⟩ := List.cons.inj h
    obtain ⟨isLo, -⟩ := List.cons.inj rest
    have hiNat := toNat_toUInt16 (show 0xD800 + (c - 0x10000) / 0x400 < 0x10000 by omega)
    have loNat := toNat_toUInt16 (show 0xDC00 + (c - 0x10000) % 0x400 < 0x10000 by omega)
    rw [isHi] at hiNat
    rw [isLo] at loNat
    simp only [isHighSurrogate, isLowSurrogate, Bool.and_eq_true, decide_eq_true_eq]
    omega

/-- Pieces can be split at each index that does not cut a surrogate pair. -/
theorem exists_split {quote : CodeUnit} {pieces : List Piece} (body : IsBody quote pieces) {n : ℕ}
    (le : n ≤ (value pieces).length) (noCut : ¬ CutsPair (value pieces) n) :
    ∃ before after, pieces = before ++ after ∧ (value before).length = n := by
  induction pieces generalizing n with
  | nil => exact ⟨[], [], rfl, (Nat.le_zero.mp le).symm⟩
  | cons piece pieces ih =>
      rw [value_cons, List.length_append] at le
      by_cases inside : piece.value.length ≤ n
      case pos =>
        obtain ⟨left, rfl⟩ := Nat.exists_eq_add_of_le inside
        have noCut' : ¬ CutsPair (value pieces) left := by
          rintro ⟨hi, lo, rest, positive, here, high, low⟩
          refine noCut ⟨hi, lo, rest, by omega, ?_, high, low⟩
          rw [value_cons, Nat.add_sub_assoc positive, ← List.drop_drop, List.drop_left, here]
        obtain ⟨before, after, rfl, length⟩ := ih body.2 (by omega) noCut'
        refine ⟨piece :: before, after, rfl, ?_⟩
        rw [value_cons, List.length_append, length]
      case neg =>
        -- the index would be inside the value of the piece
        by_cases zero : n = 0
        · exact ⟨[], piece :: pieces, rfl, zero.symm⟩
        · have noContinuation : ∀ terminator, piece ≠ .lineContinuation terminator := by
            rintro terminator rfl
            exact inside (Nat.zero_le n)
          obtain ⟨c, small, same⟩ := Piece.value_eq_encode body.1 noContinuation
          have two : (encode c).length = 2 := by
            have length := length_encode c
            rw [same] at inside
            split at length <;> omega
          obtain ⟨hi, lo, pair⟩ := List.length_eq_two.mp two
          obtain ⟨high, low⟩ := surrogates_of_encode pair small
          obtain rfl : n = 1 := by
            rw [same, two] at inside
            omega
          refine absurd ⟨hi, lo, value pieces, Nat.one_pos, ?_, high, low⟩ noCut
          rw [value_cons, same, pair]
          rfl

/-! ## Templates -/

/-- A piece of a template without substitutions, with its line breaks normalised to LF. -/
def Piece.FitsTemplate (rest : Text) : Piece → Prop
  | .character c => StringLiteral.codePoint (encode c ++ rest) = some c ∧
      c ∉ [0x60, backslash.toNat, CR.toNat] ∧ (c = 0x24 → rest.head? ≠ some 0x7B)
  | .lineContinuation terminator => terminator ≠ .cr ∧ terminator ≠ .crlf
  | .single c => (singleEscape c).isSome
  | .nonEscape c => StringLiteral.codePoint (encode c ++ rest) = some c ∧ ¬ StartsEscape c ∧
      ¬ isDigit 10 c
  | .octal digits => digits = [0x30] ∧ ¬ startsWithDigit 10 rest
  | .hex digits => AreDigits 16 digits ∧ digits.length = 2
  | .unicode digits => AreDigits 16 digits ∧ digits.length = 4
  | .codePoint digits => AreDigits 16 digits ∧ digits ≠ [] ∧ mathValue 16 digits ≤ 0x10FFFF

/-- The pieces of a template without substitutions. -/
def IsTemplate : List Piece → Prop
  | [] => True
  | piece :: pieces => piece.FitsTemplate (raw pieces) ∧ IsTemplate pieces

theorem length_encode_le (c : ℕ) : (encode c).length ≤ 2 := by
  rw [length_encode]
  split
  · exact le_rfl
  · exact Nat.le_succ 1

theorem backslash_not_mem_encode {c : ℕ} (other : c ≠ backslash.toNat) (le : c ≤ 0x10FFFF) :
    backslash ∉ encode c := by
  intro member
  by_cases small : c < 0x10000
  case pos =>
    rw [encode_of_lt small, List.mem_singleton] at member
    rw [member, toNat_toUInt16 small] at other
    exact other rfl
  case neg =>
    have two : (encode c).length = 2 := by
      rw [length_encode, if_pos (Nat.not_lt.mp small)]
    obtain ⟨hi, lo, pair⟩ := List.length_eq_two.mp two
    obtain ⟨high, low⟩ := surrogates_of_encode pair le
    rw [pair, List.mem_cons, List.mem_singleton] at member
    obtain rfl | rfl := member
    · exact absurd high (by decide)
    · exact absurd low (by decide)

/-- A character of a template stands for itself, and everything else is shorter than its raw
text. -/
theorem Piece.shrinks {rest : Text} {piece : Piece} (fits : piece.FitsTemplate rest) :
    piece.value = piece.raw ∧ backslash ∉ piece.raw ∨
      piece.value.length < piece.raw.length ∧ backslash ∈ piece.raw := by
  have short := length_encode_le
  cases piece with
  | character c =>
      refine .inl ⟨rfl, backslash_not_mem_encode ?_ (codePoint_le fits.1)⟩
      rintro rfl
      exact fits.2.1 (by simp)
  | lineContinuation terminator => exact .inr ⟨Nat.succ_pos _, List.mem_cons_self⟩
  | nonEscape c => exact .inr ⟨Nat.lt_succ_self _, List.mem_cons_self⟩
  | single c =>
      obtain ⟨v, known⟩ := Option.isSome_iff_exists.mp fits
      have small := lt_of_singleEscape known
      have positive := List.length_pos_of_ne_nil (encode_ne_nil c)
      refine .inr ⟨?_, List.mem_cons_self⟩
      rw [Piece.value, known, Option.elim_some, encode_of_lt (by omega)]
      exact Nat.succ_lt_succ positive
  | octal digits =>
      obtain ⟨rfl, -⟩ := fits
      exact .inr ⟨by decide, List.mem_cons_self⟩
  | hex digits =>
      refine .inr ⟨?_, List.mem_cons_self⟩
      have := short (mathValue 16 digits)
      simp only [Piece.value, Piece.raw, List.length_cons, fits.2]
      omega
  | unicode digits =>
      refine .inr ⟨?_, List.mem_cons_self⟩
      have := short (mathValue 16 digits)
      simp only [Piece.value, Piece.raw, List.length_cons, fits.2]
      omega
  | codePoint digits =>
      refine .inr ⟨?_, List.mem_cons_self⟩
      have := short (mathValue 16 digits)
      simp only [Piece.value, Piece.raw, List.length_cons]
      omega

/-- The value of a template is its raw text if and only if there is no backslash in it, and
otherwise it is shorter. -/
theorem template_shrinks {pieces : List Piece} (template : IsTemplate pieces) :
    value pieces = raw pieces ∧ backslash ∉ raw pieces ∨
      (value pieces).length < (raw pieces).length ∧ backslash ∈ raw pieces := by
  induction pieces with
  | nil => exact .inl ⟨rfl, List.not_mem_nil⟩
  | cons piece pieces ih =>
      rw [value_cons, raw_cons, List.length_append, List.length_append, List.mem_append]
      obtain ⟨same, plain⟩ | ⟨shorter, escape⟩ := Piece.shrinks template.1
      · obtain ⟨same', plain'⟩ | ⟨shorter', escape'⟩ := ih template.2
        · exact .inl ⟨by rw [same, same'], not_or.mpr ⟨plain, plain'⟩⟩
        · exact .inr ⟨by rw [same]; omega, .inr escape'⟩
      · refine .inr ⟨?_, .inl escape⟩
        obtain ⟨same', -⟩ | ⟨shorter', -⟩ := ih template.2
        · rw [same']
          omega
        · omega

end SonarJS.StringLiteral
