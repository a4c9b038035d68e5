import Mathlib.Data.Int.Notation
import Mathlib.Data.List.Nodup
import Mathlib.Data.List.TakeWhile
import SonarJS.Foundation.StringLiteral

/-!
# JSON texts

Values are written as `JSON.stringify` writes them and read as `JSON.parse` reads them, on
UTF-16 texts. Numbers are integers: a text with a fraction or an exponent is not read.
Reading a text that was written gives the value back.
-/

namespace SonarJS

open StringLiteral (CodeUnit Text isHighSurrogate isLowSurrogate utf16 digitValue isDigit mathValue)

inductive Json
  | null
  | bool (b : Bool)
  | number (n : ℤ)
  | string (text : Text)
  | array (elements : List Json)
  | object (members : List (Text × Json))

namespace Json

/-- The last member of a name is the one that counts. -/
def field (name : Text) : Json → Option Json
  | .object members => (members.reverse.find? fun member => member.1 = name).map Prod.snd
  | _ => none

/-! ## Writing -/

def unit (c : Char) : CodeUnit := c.toNat.toUInt16

/-- Sixteen characters: the lower case ones after nine. -/
def hexDigit (n : ℕ) : CodeUnit := if n < 10 then (0x30 + n).toUInt16 else (0x57 + n).toUInt16

/-- `UnicodeEscape`. -/
def unicodeEscape (u : CodeUnit) : Text :=
  [unit '\\', unit 'u', hexDigit (u.toNat / 0x1000), hexDigit (u.toNat / 0x100 % 0x10),
    hexDigit (u.toNat / 0x10 % 0x10), hexDigit (u.toNat % 0x10)]

/-- The escape sequences of one letter. -/
def shortEscapes : List (CodeUnit × CodeUnit) :=
  [(0x08, unit 'b'), (0x09, unit 't'), (0x0A, unit 'n'), (0x0C, unit 'f'), (0x0D, unit 'r'),
    (unit '"', unit '"'), (unit '\\', unit '\\')]

def quoteUnit (u : CodeUnit) : Text :=
  match shortEscapes.find? (·.1 = u) with
  | some (_, letter) => [unit '\\', letter]
  | none =>
    if u.toNat < 0x20 || isHighSurrogate u || isLowSurrogate u then unicodeEscape u else [u]

/-- `QuoteJSONString`, between the quotes. A pair of surrogates stands for itself. -/
def quoteBody : Text → Text
  | [] => []
  | [u] => quoteUnit u
  | u :: v :: rest =>
    if isHighSurrogate u && isLowSurrogate v then u :: v :: quoteBody rest
    else quoteUnit u ++ quoteBody (v :: rest)

def quote (text : Text) : Text := unit '"' :: (quoteBody text ++ [unit '"'])

def digits (n : ℕ) : Text := (Nat.toDigits 10 n).map unit

def writeNumber : ℤ → Text
  | .ofNat n => digits n
  | .negSucc n => unit '-' :: digits (n + 1)

mutual

/-- `JSON.stringify`. -/
def stringify : Json → Text
  | null => utf16 "null"
  | bool true => utf16 "true"
  | bool false => utf16 "false"
  | number n => writeNumber n
  | string text => quote text
  | array elements => unit '[' :: (writeElements elements ++ [unit ']'])
  | object members => unit '\x7b' :: (writeMembers members ++ [unit '\x7d'])

def writeElements : List Json → Text
  | [] => []
  | [element] => element.stringify
  | element :: elements => element.stringify ++ unit ',' :: writeElements elements

def writeMembers : List (Text × Json) → Text
  | [] => []
  | [(name, value)] => quote name ++ unit ':' :: value.stringify
  | (name, value) :: members =>
    quote name ++ unit ':' :: (value.stringify ++ unit ',' :: writeMembers members)

end

/-! ## Reading -/

def isSpace (u : CodeUnit) : Bool := u = 0x20 || u = 0x09 || u = 0x0A || u = 0x0D

def skip (text : Text) : Text := text.dropWhile isSpace

/-- A character that is required next, after white space. -/
def expect (c : Char) (text : Text) : Option Text :=
  match skip text with
  | u :: rest => if u = unit c then some rest else none
  | [] => none

def readEscape (letter : CodeUnit) : Option CodeUnit :=
  if letter = unit '/' then some letter
  else (shortEscapes.find? (·.2 = letter)).map Prod.fst

def readHex (text : Text) : Option CodeUnit :=
  if text.length = 4 && text.all fun u => isDigit 16 u.toNat then
    some (mathValue 16 text).toUInt16
  else none

/-- The rest of a string, after its first quote. -/
@[grind =] def readString : Text → Option (Text × Text)
  | [] => none
  | u :: rest =>
    if u = unit '"' then some ([], rest)
    else if u = unit '\\' then
      match rest with
      | letter :: rest =>
        if letter = unit 'u' then
          match rest with
          | a :: b :: c :: d :: rest => do
            let u ← readHex [a, b, c, d]
            let (text, rest) ← readString rest
            return (u :: text, rest)
          | _ => none
        else do
          let u ← readEscape letter
          let (text, rest) ← readString rest
          return (u :: text, rest)
      | [] => none
    else if u.toNat < 0x20 then none
    else (readString rest).map fun (text, rest) => (u :: text, rest)

def isDecimal (u : CodeUnit) : Bool := isDigit 10 u.toNat

/-- What goes on with a number. -/
def continuesNumber (u : CodeUnit) : Bool :=
  isDecimal u || u = unit '.' || u = unit 'e' || u = unit 'E'

def readDigits (text : Text) : Option (ℕ × Text) :=
  let number := text.takeWhile isDecimal
  let rest := text.dropWhile isDecimal
  if number = [] || (number.head? = some (unit '0') && number.length ≠ 1) ||
      rest.head?.any continuesNumber then none
  else some (mathValue 10 number, rest)

def readNumber : Text → Option (ℤ × Text)
  | [] => none
  | u :: rest =>
    if u = unit '-' then (readDigits rest).map fun (n, rest) => (-(n : ℤ), rest)
    else (readDigits (u :: rest)).map fun (n, rest) => ((n : ℤ), rest)

def readWord (word : String) (value : Json) (text : Text) : Option (Json × Text) :=
  if utf16 word <+: text then some (value, text.drop (utf16 word).length) else none

mutual

def readValue : ℕ → Text → Option (Json × Text)
  | 0, _ => none
  | fuel + 1, text =>
    match skip text with
    | [] => none
    | u :: rest =>
      if u = unit '"' then (readString rest).map fun (text, rest) => (.string text, rest)
      else if u = unit '[' then
        match expect ']' rest with
        | some rest => some (.array [], rest)
        | none => (readElements fuel rest).map fun (elements, rest) => (.array elements, rest)
      else if u = unit '\x7b' then
        match expect '\x7d' rest with
        | some rest => some (.object [], rest)
        | none => (readMembers fuel rest).map fun (members, rest) => (.object members, rest)
      else if u = unit 'n' then readWord "null" .null (u :: rest)
      else if u = unit 't' then readWord "true" (.bool true) (u :: rest)
      else if u = unit 'f' then readWord "false" (.bool false) (u :: rest)
      else (readNumber (u :: rest)).map fun (n, rest) => (.number n, rest)

/-- One element at least, and what closes them. -/
def readElements : ℕ → Text → Option (List Json × Text)
  | 0, _ => none
  | fuel + 1, text => do
    let (element, rest) ← readValue fuel text
    match expect ',' rest with
    | some rest => do
      let (elements, rest) ← readElements fuel rest
      return (element :: elements, rest)
    | none => do
      let rest ← expect ']' rest
      return ([element], rest)

def readMembers : ℕ → Text → Option (List (Text × Json) × Text)
  | 0, _ => none
  | fuel + 1, text => do
    let (name, rest) ← readString (← expect '"' text)
    let (value, rest) ← readValue fuel (← expect ':' rest)
    match expect ',' rest with
    | some rest => do
      let (members, rest) ← readMembers fuel rest
      return ((name, value) :: members, rest)
    | none => do
      let rest ← expect '\x7d' rest
      return ([(name, value)], rest)

end

/-- `JSON.parse`, or nothing where it throws. -/
def parse (text : Text) : Option Json := do
  let (value, rest) ← readValue text.length text
  if skip rest = [] then some value else none

/-! ## Strings are read back -/

theorem digitValue_hexDigit : ∀ n < 16, digitValue (hexDigit n).toNat = some n := by decide

theorem readHex_unicodeEscape (u : CodeUnit) :
    readHex ((unicodeEscape u).drop 2) = some u := by
  have small := u.toNat_lt
  have first := digitValue_hexDigit (u.toNat / 0x1000) (by omega)
  have second := digitValue_hexDigit (u.toNat / 0x100 % 0x10) (by omega)
  have third := digitValue_hexDigit (u.toNat / 0x10 % 0x10) (by omega)
  have fourth := digitValue_hexDigit (u.toNat % 0x10) (by omega)
  have value : ((u.toNat / 0x1000 * 16 + u.toNat / 0x100 % 0x10) * 16 +
      u.toNat / 0x10 % 0x10) * 16 + u.toNat % 0x10 = u.toNat := by omega
  have bounds : u.toNat / 0x1000 < 16 ∧ u.toNat / 0x100 % 0x10 < 16 ∧
      u.toNat / 0x10 % 0x10 < 16 ∧ u.toNat % 0x10 < 16 := by omega
  simp [readHex, unicodeEscape, isDigit, mathValue, first, second, third, fourth, value, bounds]

/-- What is read of the rest of a string, behind a character. -/
def prepend (text : Text) (read : Text × Text) : Text × Text := (text ++ read.1, read.2)

@[simp] theorem readString_end (rest : Text) : readString (unit '"' :: rest) = some ([], rest) := by
  rw [readString.eq_def]
  exact if_pos rfl

theorem readString_letter {letter : CodeUnit} (rest : Text) (other : letter ≠ unit 'u') :
    readString (unit '\\' :: letter :: rest) =
      (readEscape letter).bind fun u => (readString rest).map (prepend [u]) := by
  rw [readString.eq_def]
  simp only [show unit '\\' ≠ unit '"' by decide, other, if_false, if_true]
  cases readEscape letter with
  | none => rfl
  | some u =>
      cases readString rest <;> rfl

theorem readString_shortEscape {u letter : CodeUnit} (rest : Text)
    (found : (u, letter) ∈ shortEscapes) :
    readString (unit '\\' :: letter :: rest) = (readString rest).map (prepend [u]) := by
  have escapes : (shortEscapes.all fun entry =>
      entry.2 ≠ unit 'u' ∧ readEscape entry.2 = some entry.1) = true := by decide
  obtain ⟨other, read⟩ := of_decide_eq_true (List.all_eq_true.mp escapes _ found)
  rw [readString_letter rest other, read]
  rfl

theorem readString_unicodeEscape (u : CodeUnit) (rest : Text) :
    readString (unicodeEscape u ++ rest) = (readString rest).map (prepend [u]) := by
  have hex := readHex_unicodeEscape u
  simp only [unicodeEscape, List.drop_succ_cons, List.drop_zero] at hex
  simp only [unicodeEscape, List.cons_append, List.nil_append]
  rw [readString.eq_def]
  simp only [show unit '\\' ≠ unit '"' by decide, if_false, if_true, hex]
  cases readString rest <;> rfl

theorem readString_unit {u : CodeUnit} (rest : Text) (notQuote : u ≠ unit '"')
    (notBackslash : u ≠ unit '\\') (printable : 0x20 ≤ u.toNat) :
    readString (u :: rest) = (readString rest).map (prepend [u]) := by
  rw [readString.eq_def]
  simp only [notQuote, notBackslash, Nat.not_lt.mpr printable, if_false]
  rfl

theorem readString_quoteUnit (u : CodeUnit) (rest : Text) :
    readString (quoteUnit u ++ rest) = (readString rest).map (prepend [u]) := by
  unfold quoteUnit
  split
  case h_1 pair letter found =>
    have same := List.find?_some found
    have member := List.mem_of_find?_eq_some found
    obtain rfl : pair = u := of_decide_eq_true same
    exact readString_shortEscape rest member
  case h_2 missing =>
    split
    case isTrue => exact readString_unicodeEscape u rest
    case isFalse plain =>
      have other := List.find?_eq_none.mp missing
      simp only [decide_eq_true_eq] at other
      simp only [Bool.or_eq_true, decide_eq_true_eq, not_or, not_lt] at plain
      refine readString_unit rest ?_ ?_ plain.1.1
      · exact fun same => other (unit '"', unit '"') (by decide) same.symm
      · exact fun same => other (unit '\\', unit '\\') (by decide) same.symm

theorem readString_quoteBody (text rest : Text) :
    readString (quoteBody text ++ unit '"' :: rest) = some (text, rest) := by
  fun_induction quoteBody text with
  | case1 => exact readString_end rest
  | case2 u =>
      rw [readString_quoteUnit, readString_end]
      rfl
  | case3 u v text pair ih =>
      simp only [isHighSurrogate, isLowSurrogate, Bool.and_eq_true, decide_eq_true_eq] at pair
      have other (w : CodeUnit) (high : 0xD800 ≤ w.toNat) :
          w ≠ unit '"' ∧ w ≠ unit '\\' ∧ 0x20 ≤ w.toNat := by
        refine ⟨?_, ?_, by omega⟩
        · rintro rfl
          exact absurd high (by decide)
        · rintro rfl
          exact absurd high (by decide)
      obtain ⟨first, first', first''⟩ := other u (by omega)
      obtain ⟨second, second', second''⟩ := other v (by omega)
      rw [List.cons_append, readString_unit _ first first' first'', List.cons_append,
        readString_unit _ second second' second'', ih]
      rfl
  | case4 u v text pair ih =>
      rw [List.append_assoc, readString_quoteUnit, ih]
      rfl

/-! ## Numbers are read back -/

/-- A text that does not go on with a number. -/
def Ends (rest : Text) : Prop := ∀ u ∈ rest.head?, continuesNumber u = false

theorem ends_nil : Ends [] := nofun

theorem ends_cons {u : CodeUnit} {rest : Text} (other : continuesNumber u = false) :
    Ends (u :: rest) := by
  intro v first
  rwa [← Option.some.inj first]

theorem digit_unit : ∀ n < 10, digitValue (unit n.digitChar).toNat = some n := by decide

theorem digits_of_lt {n : ℕ} (small : n < 10) : digits n = [unit n.digitChar] := by
  rw [digits, Nat.toDigits_of_lt_base small]
  rfl

theorem digits_of_le {n : ℕ} (large : 10 ≤ n) :
    digits n = digits (n / 10) ++ [unit (n % 10).digitChar] := by
  rw [digits, Nat.toDigits_of_base_le (by omega) large, List.map_append]
  rfl

/-- Induction on the last digit. -/
theorem digits_induction {motive : ℕ → Prop} (small : ∀ n < 10, motive n)
    (large : ∀ n, 10 ≤ n → motive (n / 10) → motive n) (n : ℕ) : motive n := by
  induction n using Nat.strongRecOn with
  | ind n ih =>
      by_cases lt : n < 10
      · exact small n lt
      · exact large n (by omega) (ih (n / 10) (by omega))

theorem isDecimal_unit {n : ℕ} (small : n < 10) : isDecimal (unit n.digitChar) = true := by
  simp [isDecimal, isDigit, digit_unit n small, small]

theorem isDecimal_of_mem_digits (n : ℕ) : ∀ u ∈ digits n, isDecimal u = true := by
  induction n using digits_induction with
  | small n lt =>
      rw [digits_of_lt lt]
      intro u member
      rw [List.mem_singleton.mp member]
      exact isDecimal_unit lt
  | large n le ih =>
      rw [digits_of_le le]
      intro u member
      obtain old | new := List.mem_append.mp member
      · exact ih u old
      · rw [List.mem_singleton.mp new]
        exact isDecimal_unit (by omega)

theorem mathValue_digits (n : ℕ) : mathValue 10 (digits n) = n := by
  induction n using digits_induction with
  | small n lt => simp [digits_of_lt lt, mathValue, digit_unit n lt]
  | large n le ih =>
      rw [digits_of_le le, StringLiteral.mathValue_concat, ih, digit_unit _ (by omega)]
      simp only [Option.getD_some]
      omega

theorem digits_ne_nil (n : ℕ) : digits n ≠ [] := by
  rw [digits, Ne, List.map_eq_nil_iff]
  exact Nat.toDigits_ne_nil

/-- There is no leading zero, except for the zero itself. -/
theorem head_digits {n : ℕ} (positive : 0 < n) : (digits n).head? ≠ some (unit '0') := by
  induction n using digits_induction with
  | small n lt =>
      have others : ∀ n < 10, 0 < n → unit n.digitChar ≠ unit '0' := by decide
      rw [digits_of_lt lt, List.head?_singleton]
      exact fun same => others n lt positive (Option.some.inj same)
  | large n le ih =>
      rw [digits_of_le le, List.head?_append_of_ne_nil _ (digits_ne_nil _)]
      exact ih (by omega)

theorem readDigits_digits (n : ℕ) {rest : Text} (ends : Ends rest) :
    readDigits (digits n ++ rest) = some (n, rest) := by
  have decimal := isDecimal_of_mem_digits n
  have stops : ∀ u ∈ rest.head?, ¬ isDecimal u = true := by
    intro u first decimal
    have := ends u first
    simp [continuesNumber, decimal] at this
  have take : (digits n ++ rest).takeWhile isDecimal = digits n := by
    rw [List.takeWhile_append_of_pos decimal]
    cases rest with
    | nil => exact List.append_nil _
    | cons u rest => rw [List.takeWhile_cons_of_neg (stops u rfl), List.append_nil]
  have drop : (digits n ++ rest).dropWhile isDecimal = rest := by
    rw [List.dropWhile_append_of_pos decimal]
    cases rest with
    | nil => rfl
    | cons u rest => exact List.dropWhile_cons_of_neg (stops u rfl)
  have lead : ¬((digits n).head? = some (unit '0') ∧ (digits n).length ≠ 1) := by
    rintro ⟨zero, long⟩
    obtain rfl | positive := Nat.eq_zero_or_pos n
    · exact long rfl
    · exact head_digits positive zero
  have last : rest.head?.any continuesNumber = false := by
    cases rest with
    | nil => rfl
    | cons u rest => exact ends u rfl
  simp only [readDigits, take, drop, mathValue_digits, last]
  simp [digits_ne_nil, lead]

/-- The first character of a number. -/
theorem writeNumber_head (n : ℤ) :
    ∃ u text, writeNumber n = u :: text ∧ (u = unit '-' ∨ isDecimal u = true) := by
  cases n with
  | ofNat n =>
      obtain ⟨u, text, same⟩ := List.exists_cons_of_ne_nil (digits_ne_nil n)
      refine ⟨u, text, same, .inr (isDecimal_of_mem_digits n u ?_)⟩
      rw [same]
      exact List.mem_cons_self
  | negSucc n => exact ⟨_, _, rfl, .inl rfl⟩

theorem isDecimal_ne {u : CodeUnit} (decimal : isDecimal u = true) {c : Char}
    (other : isDecimal (unit c) = false) : u ≠ unit c := by
  rintro rfl
  rw [other] at decimal
  cases decimal

theorem readNumber_writeNumber (n : ℤ) {rest : Text} (ends : Ends rest) :
    readNumber (writeNumber n ++ rest) = some (n, rest) := by
  cases n with
  | ofNat n =>
      have read := readDigits_digits n ends
      have decimal := isDecimal_of_mem_digits n
      rw [writeNumber]
      cases written : digits n with
      | nil => exact absurd written (digits_ne_nil n)
      | cons u text =>
          rw [written] at read decimal
          have noSign := isDecimal_ne (decimal u List.mem_cons_self) (c := '-') (by decide)
          rw [List.cons_append] at read ⊢
          rw [readNumber, if_neg noSign, read]
          rfl
  | negSucc n =>
      rw [writeNumber, List.cons_append, readNumber, if_pos rfl, readDigits_digits _ ends]
      rfl

/-! ## Values are read back -/

theorem skip_cons {u : CodeUnit} (text : Text) (other : isSpace u = false) :
    skip (u :: text) = u :: text :=
  List.dropWhile_cons_of_neg (by simp [other])

theorem expect_cons {c : Char} (text : Text) (other : isSpace (unit c) = false) :
    expect c (unit c :: text) = some text := by
  rw [expect, skip_cons text other]
  exact if_pos rfl

theorem expect_other {c : Char} {u : CodeUnit} (text : Text) (space : isSpace u = false)
    (other : u ≠ unit c) : expect c (u :: text) = none := by
  rw [expect, skip_cons text space]
  exact if_neg other

theorem stringify_head (v : Json) : ∃ u text, v.stringify = u :: text ∧
    isSpace u = false ∧ u ≠ unit ']' := by
  cases v with
  | null => exact ⟨unit 'n', _, rfl, by decide, by decide⟩
  | bool b =>
      cases b with
      | true => exact ⟨unit 't', _, rfl, by decide, by decide⟩
      | false => exact ⟨unit 'f', _, rfl, by decide, by decide⟩
  | number n =>
      obtain ⟨u, text, same, first⟩ := writeNumber_head n
      refine ⟨u, text, same, ?_⟩
      obtain rfl | decimal := first
      · decide
      · refine ⟨?_, isDecimal_ne decimal (by decide)⟩
        simp only [isSpace, Bool.or_eq_false_iff, decide_eq_false_iff_not]
        exact ⟨⟨⟨isDecimal_ne decimal (c := ' ') (by decide),
          isDecimal_ne decimal (c := '\t') (by decide)⟩,
          isDecimal_ne decimal (c := '\n') (by decide)⟩,
          isDecimal_ne decimal (c := '\r') (by decide)⟩
  | string text => exact ⟨unit '"', _, rfl, by decide, by decide⟩
  | array elements => exact ⟨unit '[', _, rfl, by decide, by decide⟩
  | object members => exact ⟨unit '\x7b', _, rfl, by decide, by decide⟩

theorem writeElements_head (element : Json) (elements : List Json) :
    ∃ u text, writeElements (element :: elements) = u :: text ∧ isSpace u = false ∧
      u ≠ unit ']' := by
  obtain ⟨u, text, same, space, other⟩ := stringify_head element
  cases elements with
  | nil => exact ⟨u, text, by rw [writeElements, same], space, other⟩
  | cons => exact ⟨u, _, by rw [writeElements, same, List.cons_append]; simp, space, other⟩

theorem writeMembers_head (member : Text × Json) (members : List (Text × Json)) :
    ∃ text, writeMembers (member :: members) = unit '"' :: text := by
  obtain ⟨name, value⟩ := member
  cases members with
  | nil => exact ⟨_, by rw [writeMembers, quote, List.cons_append]⟩
  | cons => exact ⟨_, by rw [writeMembers, quote, List.cons_append]; simp⟩

theorem readWord_append (word : String) (value : Json) (rest : Text) :
    readWord word value (utf16 word ++ rest) = some (value, rest) := by
  simp [readWord]

mutual

theorem readValue_stringify (v : Json) (fuel : ℕ) (rest : Text)
    (enough : v.stringify.length ≤ fuel) (ends : Ends rest) :
    readValue fuel (v.stringify ++ rest) = some (v, rest) := by
  obtain ⟨u, text, written, noSpace, -⟩ := stringify_head v
  obtain ⟨fuel, rfl⟩ : ∃ n, fuel = n + 1 := by
    refine ⟨fuel - 1, ?_⟩
    rw [written, List.length_cons] at enough
    omega
  cases v with
  | null => exact readWord_append "null" .null rest
  | bool b =>
      cases b with
      | true => exact readWord_append "true" (.bool true) rest
      | false => exact readWord_append "false" (.bool false) rest
  | number n =>
      have read := readNumber_writeNumber n ends
      obtain ⟨w, text', same, first⟩ := writeNumber_head n
      have others (c : Char) (noSign : unit c ≠ unit '-')
          (noDigit : isDecimal (unit c) = false) : w ≠ unit c := by
        obtain rfl | decimal := first
        · exact noSign.symm
        · exact isDecimal_ne decimal noDigit
      rw [stringify] at written ⊢
      obtain ⟨rfl, rfl⟩ := List.cons.inj (same.symm.trans written)
      rw [written, List.cons_append] at read ⊢
      rw [readValue, skip_cons _ noSpace]
      simp only [others '"' (by decide) (by decide), others '[' (by decide) (by decide),
        others '\x7b' (by decide) (by decide), others 'n' (by decide) (by decide),
        others 't' (by decide) (by decide), others 'f' (by decide) (by decide), if_false, read]
      rfl
  | string text' =>
      have read := readString_quoteBody text' rest
      rw [stringify, quote, List.cons_append, List.append_assoc, List.singleton_append, readValue,
        skip_cons _ (by decide)]
      simp only [if_true, read]
      rfl
  | array elements =>
      rw [stringify, List.cons_append, List.append_assoc, List.singleton_append, readValue,
        skip_cons _ (by decide)]
      simp only [show unit '[' ≠ unit '"' by decide, if_false, if_true]
      cases elements with
      | nil => rw [writeElements, List.nil_append, expect_cons rest (by decide)]
      | cons element elements =>
          have some : expect ']' (writeElements (element :: elements) ++ unit ']' :: rest) =
              none := by
            obtain ⟨first, text', same, space, other⟩ := writeElements_head element elements
            rw [same]
            exact expect_other _ space other
          have below : (writeElements (element :: elements)).length < fuel := by
            simp only [stringify, List.length_cons, List.length_append, List.length_nil] at enough
            omega
          rw [some]
          simp only [readElements_writeElements (element :: elements) fuel rest below (by simp)]
          rfl
  | object members =>
      rw [stringify, List.cons_append, List.append_assoc, List.singleton_append, readValue,
        skip_cons _ (by decide)]
      simp only [show unit '\x7b' ≠ unit '"' by decide, show unit '\x7b' ≠ unit '[' by decide,
        if_false, if_true]
      cases members with
      | nil => rw [writeMembers, List.nil_append, expect_cons rest (by decide)]
      | cons member members =>
          have some : expect '\x7d' (writeMembers (member :: members) ++ unit '\x7d' :: rest) =
              none := by
            obtain ⟨text', same⟩ := writeMembers_head member members
            rw [same]
            exact expect_other _ (by decide) (by decide)
          have below : (writeMembers (member :: members)).length < fuel := by
            simp only [stringify, List.length_cons, List.length_append, List.length_nil] at enough
            omega
          rw [some]
          simp only [readMembers_writeMembers (member :: members) fuel rest below (by simp)]
          rfl

theorem readElements_writeElements (elements : List Json) (fuel : ℕ) (rest : Text)
    (enough : (writeElements elements).length < fuel) (some : elements ≠ []) :
    readElements fuel (writeElements elements ++ unit ']' :: rest) =
      .some (elements, rest) := by
  obtain ⟨fuel, rfl⟩ : ∃ n, fuel = n + 1 := ⟨fuel - 1, by omega⟩
  match elements with
  | [element] =>
      have read := readValue_stringify element fuel (unit ']' :: rest)
        (by simp only [writeElements] at enough; omega) (ends_cons (by decide))
      rw [writeElements, readElements, read]
      simp only [Option.bind_eq_bind, Option.bind_some,
        expect_other rest (c := ',') (u := unit ']') (by decide) (by decide),
        expect_cons (c := ']') rest (by decide)]
      rfl
  | element :: element' :: elements =>
      simp only [writeElements, List.length_append, List.length_cons] at enough
      have read := readValue_stringify element fuel
        (unit ',' :: (writeElements (element' :: elements) ++ unit ']' :: rest))
        (by omega) (ends_cons (by decide))
      have others := readElements_writeElements (element' :: elements) fuel rest
        (by omega) (by simp)
      rw [writeElements, readElements, List.append_assoc, List.cons_append, read]
      · simp only [Option.bind_eq_bind, Option.bind_some, expect_cons (c := ',') _ (by decide),
          others]
        rfl
      · simp

theorem readMembers_writeMembers (members : List (Text × Json)) (fuel : ℕ) (rest : Text)
    (enough : (writeMembers members).length < fuel) (some : members ≠ []) :
    readMembers fuel (writeMembers members ++ unit '\x7d' :: rest) = .some (members, rest) := by
  obtain ⟨fuel, rfl⟩ : ∃ n, fuel = n + 1 := ⟨fuel - 1, by omega⟩
  match members with
  | [(name, value)] =>
      simp only [writeMembers, List.length_append, List.length_cons] at enough
      have read := readValue_stringify value fuel (unit '\x7d' :: rest)
        (by omega) (ends_cons (by decide))
      rw [writeMembers, readMembers]
      simp only [quote, List.cons_append, List.append_assoc, List.nil_append, Option.bind_eq_bind,
        Option.bind_some, expect_cons (c := '"') _ (by decide), readString_quoteBody,
        expect_cons (c := ':') _ (by decide), read,
        expect_other rest (c := ',') (u := unit '\x7d') (by decide) (by decide),
        expect_cons (c := '\x7d') rest (by decide)]
      rfl
  | (name, value) :: member :: members =>
      simp only [writeMembers, List.length_append, List.length_cons] at enough
      have read := readValue_stringify value fuel
        (unit ',' :: (writeMembers (member :: members) ++ unit '\x7d' :: rest))
        (by omega) (ends_cons (by decide))
      have others := readMembers_writeMembers (member :: members) fuel rest
        (by omega) (by simp)
      rw [writeMembers, readMembers]
      · simp only [quote, List.cons_append, List.append_assoc, List.nil_append,
          Option.bind_eq_bind, Option.bind_some, expect_cons (c := '"') _ (by decide),
          readString_quoteBody, expect_cons (c := ':') _ (by decide), read,
          expect_cons (c := ',') _ (by decide), others]
        rfl
      · simp

end

/-- A text that was written is read back. -/
theorem parse_stringify (v : Json) : parse v.stringify = some v := by
  have read := readValue_stringify v _ [] le_rfl ends_nil
  rw [List.append_nil] at read
  rw [parse, read]
  rfl

theorem stringify_injective : Function.Injective stringify := by
  intro v w same
  have read := parse_stringify v
  rw [same, parse_stringify] at read
  exact (Option.some.inj read).symm

/-! ## Records -/

/-- An object without the members that are undefined. -/
def members (entries : List (String × Option Json)) : Json :=
  .object (entries.filterMap fun (name, value) => value.map fun value => (utf16 name, value))

def required {α : Type} (name : String) (read : Json → Option α) (json : Json) : Option α :=
  (json.field (utf16 name)).bind read

/-- A member that can be missing. -/
def optional {α : Type} (name : String) (read : Json → Option α) (json : Json) :
    Option (Option α) :=
  match json.field (utf16 name) with
  | none => some none
  | some value => (read value).map some

def readInteger : Json → Option ℤ
  | .number n => some n
  | _ => none

def readNatural : Json → Option ℕ
  | .number (.ofNat n) => some n
  | _ => none

def readText : Json → Option Text
  | .string text => some text
  | _ => none

def readArray {α : Type} (read : Json → Option α) : Json → Option (List α)
  | .array elements => elements.mapM read
  | _ => none

/-- The members that are there. -/
theorem mem_members {entries : List (String × Option Json)} {member : Text × Json} :
    member ∈ entries.filterMap (fun (name, value) => value.map fun value => (utf16 name, value)) ↔
      ∃ name, (name, some member.2) ∈ entries ∧ member.1 = utf16 name := by
  obtain ⟨name', value'⟩ := member
  simp only [List.mem_filterMap, Prod.exists, Option.map_eq_some_iff, Prod.mk.injEq]
  constructor
  · rintro ⟨name, value, member, value'', rfl, rfl, rfl⟩
    exact ⟨name, member, rfl⟩
  · rintro ⟨name, member, rfl⟩
    exact ⟨name, some value', member, value', rfl, rfl, rfl⟩

/-- Each name is that of one member. -/
theorem field_members {entries : List (String × Option Json)} {name : String}
    {value : Option Json} (member : (name, value) ∈ entries)
    (nodup : (entries.map fun entry => utf16 entry.1).Nodup) :
    (members entries).field (utf16 name) = value := by
  have unique (name' : String) (value' : Option Json) (member' : (name', value') ∈ entries)
      (same : utf16 name' = utf16 name) : value' = value :=
    congrArg Prod.snd (List.inj_on_of_nodup_map nodup member' member same)
  rw [members, field]
  cases found : (List.reverse _).find? _ with
  | none =>
      rw [List.find?_eq_none] at found
      cases value with
      | none => rfl
      | some value =>
          refine absurd ?_ (found (utf16 name, value) (List.mem_reverse.mpr ?_))
          · exact decide_eq_true rfl
          · exact mem_members.2 ⟨name, member, rfl⟩
  | some first =>
      have same := List.find?_some found
      obtain ⟨name', member', named⟩ :=
        mem_members.1 (List.mem_reverse.mp (List.mem_of_find?_eq_some found))
      have value' := unique name' _ member' (named.symm.trans (of_decide_eq_true same))
      rw [Option.map_some, value']

theorem field_members_of_notMem {entries : List (String × Option Json)} {name : Text}
    (missing : name ∉ entries.map fun entry => utf16 entry.1) :
    (members entries).field name = none := by
  rw [members, field, Option.map_eq_none_iff, List.find?_eq_none]
  intro member inside same
  obtain ⟨name', member', named⟩ := mem_members.1 (List.mem_reverse.mp inside)
  refine missing (List.mem_map.mpr ⟨_, member', ?_⟩)
  exact named.symm.trans (of_decide_eq_true same)

section Read

variable {α : Type} {read : Json → Option α} (write : α → Json)
  (reads : ∀ a, read (write a) = some a)

include reads

theorem readArray_map (list : List α) : readArray read (.array (list.map write)) = some list := by
  rw [readArray, List.mapM_map, show read ∘ write = pure from funext reads, List.mapM_pure,
    List.map_id']
  rfl

theorem required_members {entries : List (String × Option Json)} {name : String} {a : α}
    (member : (name, some (write a)) ∈ entries)
    (nodup : (entries.map fun entry => utf16 entry.1).Nodup) :
    required name read (members entries) = some a := by
  rw [required, field_members member nodup]
  exact reads a

theorem optional_members {entries : List (String × Option Json)} {name : String} {a : Option α}
    (member : (name, a.map write) ∈ entries)
    (nodup : (entries.map fun entry => utf16 entry.1).Nodup) :
    optional name read (members entries) = some a := by
  rw [optional, field_members member nodup]
  cases a with
  | none => rfl
  | some a =>
      simp only [Option.map_some]
      rw [reads a]
      rfl

end Read

end Json

end SonarJS
