import Mathlib.Data.Finset.Insert
import Mathlib.Order.WithBot
import SonarJS.Foundation.Scanning
import SonarJS.Foundation.StringLiteral

/-!
# References to groups in replacement texts

The rule looks for `$` with digits or with a name in angle brackets, wherever it stands, and
reports those that name no group. ECMAScript reads a replacement from left to right: `$$` is
a dollar, a second digit belongs to the number only if there are so many groups, and a name is
read only if some group has one. The two agree on a text if no `$` is of the kinds that the
rule misreads.
-/

namespace SonarJS.ExistingGroups

open StringLiteral Scanning

/-! ## Characters -/

def dollar : CodeUnit := 0x24

def lessThan : CodeUnit := 0x3C

def greaterThan : CodeUnit := 0x3E

def isDigit (u : CodeUnit) : Bool := 0x30 ≤ u && u ≤ 0x39

def isLetter (u : CodeUnit) : Bool := 0x41 ≤ u && u ≤ 0x5A || 0x61 ≤ u && u ≤ 0x7A

/-- A character of a name, among them `_`. -/
def isWord (u : CodeUnit) : Bool := isLetter u || isDigit u || u = 0x5F

/-- The number that the digits make. -/
def valueOf (digits : Text) : ℕ := digits.foldl (fun value u => 10 * value + (u.toNat - 0x30)) 0

/-! ## The rule -/

structure CapturingGroups where
  names : Finset Text
  groups : ℕ

namespace CapturingGroups

def add (groups : CapturingGroups) (name : Option Text) : CapturingGroups where
  names := match name with
    | some name => insert name groups.names
    | none => groups.names
  groups := groups.groups + 1

def has (groups : CapturingGroups) (name : Text) : Bool := name ∈ groups.names

def count (groups : CapturingGroups) : ℕ := groups.groups

end CapturingGroups

/-- The groups of a pattern by their names, in the order in which they are visited. -/
abbrev Groups := List (Option Text)

def extractGroups (regex : Groups) : CapturingGroups := regex.foldl .add ⟨∅, 0⟩

structure GroupReference where
  raw : Text
  value : Text
deriving DecidableEq

/-- The name behind `$<`, up to the bracket. -/
def nameAt (text : Text) : Option Text :=
  let name := text.takeWhile isWord
  if name.head?.any isLetter ∧ (text.drop name.length).head? = some greaterThan then some name
  else none

/-- The match of the regular expression at the beginning of a text. A name has no bracket in it,
so that only the longest can be followed by one. -/
def matchAt (text : Text) : Option GroupReference :=
  if text.head? ≠ some dollar then none
  else
    let rest := text.tail
    let index := rest.takeWhile isDigit
    if index ≠ [] then some ⟨dollar :: index, index⟩
    else if rest.head? = some lessThan then
      (nameAt rest.tail).map fun name => ⟨dollar :: lessThan :: name ++ [greaterThan], name⟩
    else none

/-- The search goes on behind a match, else with the next character. -/
def widthOf : Option GroupReference → ℕ
  | some reference => reference.raw.length
  | none => 1

/-- The references, each with the index of its match. -/
def extractReferences (str : Text) : List (ℕ × GroupReference) :=
  (scan matchAt widthOf 0 str).filterMap fun found => found.2.map (found.1, ·)

/-- `Number(value)` of digits or a name, which is `NaN` for all other names. Rounding does not
matter: the number is compared with that of the groups of a pattern, far below 2⁵³. -/
def number (value : Text) : Option (WithTop ℕ) :=
  if value.all isDigit then some (WithTop.some (valueOf value))
  else if value = utf16 "Infinity" then some ⊤
  else none

def isReferencingExistingGroup (reference : GroupReference) (groups : CapturingGroups) : Bool :=
  match number reference.value with
  | some index => WithTop.some 1 ≤ index ∧ index ≤ WithTop.some groups.count
  | none => groups.has reference.value

/-- The references that are reported. -/
def invalidReferences (regex : Groups) (substr : Text) : List (ℕ × GroupReference) :=
  (extractReferences substr).filter
    fun ref => !isReferencingExistingGroup ref.2 (extractGroups regex)

/-- The `$` at this position is reported. -/
def Reports (regex : Groups) (substr : Text) (i : ℕ) : Prop :=
  ∃ ref, (i, ref) ∈ invalidReferences regex substr

/-- The message of the issue on the replacement, if there is one. -/
def report (regex : Groups) (substr : Text) : Option Text :=
  let invalid := (invalidReferences regex substr).map fun ref => ref.2.raw
  if invalid.length > 0 then
    some (utf16 "Referencing non-existing group" ++
      (if invalid.length > 1 then utf16 "s" else []) ++ utf16 ": " ++
      (utf16 ", ").intercalate invalid ++ utf16 ".")
  else none

/-! ## `GetSubstitution` -/

/-- What ECMAScript reads at one step: a character, or a `$` that stands for itself with what
comes behind it, a symbol such as `$$`, the number of a group with as many digits, or a name in
angle brackets. -/
inductive Part
  | literal (length : ℕ)
  | symbol
  | group (index digits : ℕ)
  | named (name : Text)
deriving DecidableEq

def Part.length : Part → ℕ
  | literal length => length
  | symbol => 2
  | group _ digits => digits + 1
  | named name => name.length + 3

/-- `$$`, `` $` ``, `$&` and `$'`. -/
def symbols : List CodeUnit := [dollar, 0x60, 0x26, 0x27]

section Substitution

variable (regex : Groups)

/-- Some group has a name. -/
def HasNames : Prop := ∃ name, some name ∈ regex

instance : Decidable (HasNames regex) :=
  decidable_of_iff (∃ group ∈ regex, group.isSome) (by
    simp only [HasNames, Option.isSome_iff_exists]
    grind)

/-- `$` with these digits behind it. -/
def groupPart (digits : Text) : Part :=
  if valueOf (digits.take 2) > regex.length then .group (valueOf (digits.take 1)) 1
  else .group (valueOf (digits.take 2)) (digits.take 2).length

/-- `$<` with this text behind it. -/
def namePart (text : Text) : Part :=
  if HasNames regex ∧ greaterThan ∈ text then .named (text.takeWhile (· ≠ greaterThan))
  else .literal 2

def partAt (text : Text) : Part :=
  if text.head? ≠ some dollar then .literal 1
  else
    let rest := text.tail
    if rest.head?.any (· ∈ symbols) then .symbol
    else if rest.takeWhile isDigit ≠ [] then groupPart regex (rest.takeWhile isDigit)
    else if rest.head? = some lessThan then namePart regex rest.tail
    else .literal 1

/-- A group with this number or name does not exist. There is no group with the number 0. -/
def Part.IsMissing : Part → Prop
  | literal _ | symbol => False
  | group index _ => ¬(1 ≤ index ∧ index ≤ regex.length)
  | named name => some name ∉ regex

/-- A substitution starts at this position, or a character that stands for itself. -/
abbrev Reads (text : Text) : ℕ → Prop := Starts (partAt regex) Part.length text

/-- The `$` at this position is read as a reference to a group that does not exist. -/
def Missing (text : Text) (i : ℕ) : Prop :=
  ∃ part, (i, part) ∈ scan (partAt regex) Part.length 0 text ∧ part.IsMissing regex

/-! ## When the two agree -/

/-- The digits behind a `$`, all of them, the first two and the first one, name groups that
exist if one of them does. -/
def DigitsAgree (digits : Text) : Prop :=
  if valueOf digits ≤ regex.length then
    valueOf digits = 0 ∨ valueOf (digits.take 2) ≠ 0
  else
    valueOf (digits.take 1) > regex.length ∨
      valueOf (digits.take 1) = 0 ∧
        (valueOf (digits.take 2) = 0 ∨ valueOf (digits.take 2) > regex.length)

/-- What may stand behind a `$`, depending on whether ECMAScript reads it or passes it over. -/
structure Agree (reads : Prop) (rest : Text) : Prop where
  digits : rest.takeWhile isDigit ≠ [] → reads → DigitsAgree regex (rest.takeWhile isDigit)
  skippedDigits : rest.takeWhile isDigit ≠ [] → ¬reads →
    1 ≤ valueOf (rest.takeWhile isDigit) ∧ valueOf (rest.takeWhile isDigit) ≤ regex.length
  name : ∀ name, rest.head? = some lessThan → nameAt rest.tail = some name →
    reads → HasNames regex → ¬(name = utf16 "Infinity" ∧ some name ∈ regex)
  skippedName : ∀ name, rest.head? = some lessThan → nameAt rest.tail = some name →
    ¬(reads ∧ HasNames regex) → name ≠ utf16 "Infinity" ∧ some name ∈ regex
  otherName : rest.head? = some lessThan → nameAt rest.tail = none → reads →
    HasNames regex → greaterThan ∈ rest.tail →
    some (rest.tail.takeWhile (· ≠ greaterThan)) ∈ regex

end Substitution

/-! ## The groups -/

section Groups

variable {regex : Groups} {name : Text}

theorem count_extractGroups : (extractGroups regex).count = regex.length := by
  have counted : ∀ (groups : CapturingGroups),
      (regex.foldl .add groups).groups = groups.groups + regex.length := by
    induction regex with
    | nil =>
        intro groups
        rfl
    | cons group regex ih =>
        intro groups
        rw [List.foldl_cons, ih, List.length_cons]
        change groups.groups + 1 + regex.length = _
        omega
  rw [extractGroups, CapturingGroups.count, counted, Nat.zero_add]

theorem has_extractGroups : (extractGroups regex).has name ↔ some name ∈ regex := by
  have named : ∀ (groups : CapturingGroups),
      name ∈ (regex.foldl .add groups).names ↔ name ∈ groups.names ∨ some name ∈ regex := by
    induction regex with
    | nil => simp
    | cons group regex ih =>
        intro groups
        rw [List.foldl_cons, ih]
        cases group with
        | none => simp [CapturingGroups.add]
        | some first =>
            simp only [CapturingGroups.add, Finset.mem_insert, List.mem_cons,
              Option.some.injEq]
            tauto
  simp only [extractGroups, CapturingGroups.has, named, decide_eq_true_eq, Finset.notMem_empty,
    false_or]

end Groups

/-! ## Digits and names -/

section Characters

theorem not_isDigit_dollar : isDigit dollar = false := by decide

/-- A name with the bracket behind it. -/
theorem nameAt_eq_some {text name : Text} : nameAt text = some name ↔
    (∀ u ∈ name, isWord u) ∧ name.head?.any isLetter ∧
      ∃ behind, text = name ++ greaterThan :: behind := by
  have drop : text.drop (text.takeWhile isWord).length = text.dropWhile isWord := by
    nth_rewrite 2 [← List.takeWhile_append_dropWhile (p := isWord) (l := text)]
    exact List.drop_left
  simp only [nameAt, Option.ite_none_right_eq_some, Option.some.injEq, drop]
  constructor
  · rintro ⟨⟨letter, closed⟩, rfl⟩
    refine ⟨fun u => List.mem_takeWhile_imp, letter, (text.dropWhile isWord).tail, ?_⟩
    rw [List.cons_head?_tail closed, List.takeWhile_append_dropWhile]
  · rintro ⟨words, letter, behind, rfl⟩
    rw [List.takeWhile_append_of_pos words, List.dropWhile_append_of_pos words,
      List.takeWhile_cons_of_neg (by decide), List.dropWhile_cons_of_neg (by decide),
      List.append_nil]
    exact ⟨⟨letter, rfl⟩, rfl⟩

theorem isLetter_not_isDigit {u : CodeUnit} (letter : isLetter u) : isDigit u = false := by
  simp only [isLetter, Bool.or_eq_true, Bool.and_eq_true, decide_eq_true_eq] at letter
  simp only [isDigit, Bool.and_eq_false_iff, decide_eq_false_iff_not]
  grind

theorem valueOf_concat (digits : Text) (u : CodeUnit) :
    valueOf (digits ++ [u]) = 10 * valueOf digits + (u.toNat - 0x30) := by
  rw [valueOf, List.foldl_concat, valueOf]

theorem valueOf_append (digits more : Text) : valueOf digits ≤ valueOf (digits ++ more) := by
  induction more using List.reverseRecOn with
  | nil => rw [List.append_nil]
  | append_singleton more u ih =>
      rw [← List.append_assoc, valueOf_concat]
      omega

theorem valueOf_take_le (digits : Text) (length : ℕ) :
    valueOf (digits.take length) ≤ valueOf digits := by
  have := valueOf_append (digits.take length) (digits.drop length)
  rwa [List.take_append_drop] at this

end Characters

/-! ## What the rule finds at a dollar -/

section Match

variable {regex : Groups} {text rest : Text} {reference : GroupReference}

theorem matchAt_of_digits (digits : rest.takeWhile isDigit ≠ []) :
    matchAt (dollar :: rest) =
      some ⟨dollar :: rest.takeWhile isDigit, rest.takeWhile isDigit⟩ := by
  simp [matchAt, digits]

theorem matchAt_of_lessThan (noDigits : rest.takeWhile isDigit = [])
    (bracket : rest.head? = some lessThan) :
    matchAt (dollar :: rest) =
      (nameAt rest.tail).map fun name =>
        ⟨dollar :: lessThan :: name ++ [greaterThan], name⟩ := by
  simp [matchAt, noDigits, bracket]

theorem matchAt_of_other (noDigits : rest.takeWhile isDigit = [])
    (noBracket : rest.head? ≠ some lessThan) : matchAt (dollar :: rest) = none := by
  simp [matchAt, noDigits, noBracket]

theorem matchAt_of_head_ne (noDollar : text.head? ≠ some dollar) : matchAt text = none :=
  if_pos noDollar

theorem partAt_of_head_ne (noDollar : text.head? ≠ some dollar) :
    partAt regex text = .literal 1 := if_pos noDollar

/-- A match is a dollar with other characters behind it. -/
theorem raw_of_match (found : matchAt text = some reference) :
    ∃ tail, reference.raw = dollar :: tail ∧ dollar ∉ tail ∧ reference.raw <+: text := by
  by_cases noDollar : text.head? ≠ some dollar
  · rw [matchAt_of_head_ne noDollar] at found
    cases found
  obtain ⟨rest, rfl⟩ : ∃ rest, text = dollar :: rest :=
    ⟨text.tail, (List.cons_head?_tail (not_not.mp noDollar)).symm⟩
  by_cases digits : rest.takeWhile isDigit = []
  · by_cases bracket : rest.head? = some lessThan
    · rw [matchAt_of_lessThan digits bracket, Option.map_eq_some_iff] at found
      obtain ⟨name, named, rfl⟩ := found
      obtain ⟨words, -, behind, closed⟩ := nameAt_eq_some.1 named
      refine ⟨lessThan :: name ++ [greaterThan], rfl, ?_, behind, ?_⟩
      · intro member
        rw [List.mem_append, List.mem_cons, List.mem_singleton] at member
        obtain (isLess | inName) | isGreater := member
        · exact absurd isLess (by decide)
        · exact absurd (words _ inName) (by decide)
        · exact absurd isGreater (by decide)
      · have whole : rest = lessThan :: (name ++ greaterThan :: behind) := by
          rw [← closed, List.cons_head?_tail bracket]
        simp [whole]
    · rw [matchAt_of_other digits bracket] at found
      cases found
  · rw [matchAt_of_digits digits] at found
    obtain rfl := Option.some.inj found
    refine ⟨_, rfl, ?_, ?_⟩
    · intro member
      have := List.mem_takeWhile_imp member
      rw [not_isDigit_dollar] at this
      cases this
    · exact List.cons_prefix_cons.mpr ⟨rfl, List.takeWhile_prefix _⟩

/-- No match is skipped: a match before it has no other dollar in it. -/
theorem starts_of_match {i : ℕ} (found : matchAt (text.drop i) = some reference) :
    Starts matchAt widthOf text i := by
  have inside : i ≤ text.length := by
    by_contra outside
    rw [List.drop_eq_nil_of_le (by omega)] at found
    cases found
  refine Starts.zero.reach (Nat.zero_le i) inside ?_
  intro j before
  cases earlier : matchAt (text.drop j) with
  | none =>
      change j + 1 + (1 - 1) ≤ i
      omega
  | some other =>
      obtain ⟨tail, raw, noDollar, isPrefix⟩ := raw_of_match earlier
      obtain ⟨_, first, -, _, here⟩ := raw_of_match found
      obtain ⟨more, whole⟩ := isPrefix
      change j + 1 + (other.raw.length - 1) ≤ i
      by_contra across
      rw [raw, List.length_cons] at across
      have split : text.drop i = tail.drop (i - j - 1) ++ more := by
        have index : i = j + (i - j - 1 + 1) := by omega
        rw [raw, List.cons_append] at whole
        nth_rewrite 1 [index]
        rw [← List.drop_drop, ← whole, List.drop_succ_cons,
          List.drop_append_of_le_length (by omega)]
      rw [← here, first] at split
      cases inTail : tail.drop (i - j - 1) with
      | nil =>
          rw [List.drop_eq_nil_iff] at inTail
          omega
      | cons u later =>
          rw [inTail, List.cons_append, List.cons_append, List.cons.injEq] at split
          have member : u ∈ tail := List.mem_of_mem_drop (inTail ▸ List.mem_cons_self)
          exact noDollar (split.1 ▸ member)

theorem reports_iff_match {i : ℕ} : Reports regex text i ↔
    ∃ ref, matchAt (text.drop i) = some ref ∧
      isReferencingExistingGroup ref (extractGroups regex) = false := by
  simp only [Reports, invalidReferences, extractReferences, List.mem_filter, List.mem_filterMap,
    Option.map_eq_some_iff, Prod.mk.injEq, Bool.not_eq_true']
  constructor
  · rintro ⟨reference, ⟨⟨index, _⟩, member, _, rfl, rfl, rfl⟩, missing⟩
    exact ⟨_, (mem_scan.mp member).2.2.symm, missing⟩
  · rintro ⟨reference, found, missing⟩
    have inside : i < text.length := by
      by_contra outside
      rw [List.drop_eq_nil_of_le (by omega)] at found
      cases found
    have member := mem_scan.mpr ⟨starts_of_match found, inside, found.symm⟩
    exact ⟨reference, ⟨(i, some reference), member, reference, rfl, rfl, rfl⟩, missing⟩

/-- There is an issue on a replacement if something in it is reported. -/
theorem isSome_report : (report regex text).isSome ↔ ∃ i, Reports regex text i := by
  unfold report Reports
  cases invalid : invalidReferences regex text with
  | nil => simp
  | cons ref refs =>
      simp only [List.map_cons, List.length_cons, Nat.zero_lt_succ, if_true, Option.isSome_some,
        true_iff]
      exact ⟨ref.1, ref.2, List.mem_cons_self⟩

theorem missing_iff_part {i : ℕ} : Missing regex text i ↔
    Reads regex text i ∧ (partAt regex (text.drop i)).IsMissing regex := by
  constructor
  · rintro ⟨part, member, missing⟩
    obtain ⟨reads, -, rfl⟩ := mem_scan.mp member
    exact ⟨reads, missing⟩
  · rintro ⟨reads, missing⟩
    have inside : i < text.length := by
      by_contra outside
      rw [List.drop_eq_nil_of_le (by omega)] at missing
      exact missing
    exact ⟨_, mem_scan.mpr ⟨reads, inside, rfl⟩, missing⟩

end Match

/-! ## Digits -/

section Digits

variable {regex : Groups} {rest : Text}

theorem head?_of_digits (digits : rest.takeWhile isDigit ≠ []) :
    ∃ u, rest.head? = some u ∧ isDigit u := by
  cases rest with
  | nil => exact absurd rfl digits
  | cons u rest =>
      by_cases digit : isDigit u
      · exact ⟨u, rfl, digit⟩
      · exact absurd (List.takeWhile_cons_of_neg digit) digits

theorem partAt_of_digits (digits : rest.takeWhile isDigit ≠ []) :
    partAt regex (dollar :: rest) = groupPart regex (rest.takeWhile isDigit) := by
  obtain ⟨u, first, digit⟩ := head?_of_digits digits
  have noSymbol : u ∉ symbols := by
    simp only [symbols, List.mem_cons, List.not_mem_nil, or_false]
    rintro (rfl | rfl | rfl | rfl) <;> exact absurd digit (by decide)
  simp [partAt, first, noSymbol, digits]

/-- The rule takes all digits, ECMAScript two of them or one. -/
theorem digitsAgree_iff {digits : Text} : DigitsAgree regex digits ↔
    (¬(1 ≤ valueOf digits ∧ valueOf digits ≤ regex.length) ↔
      (groupPart regex digits).IsMissing regex) := by
  have two := valueOf_take_le digits 2
  have one := valueOf_take_le (digits.take 2) 1
  rw [List.take_take] at one
  change valueOf (digits.take 1) ≤ _ at one
  unfold DigitsAgree groupPart
  split
  · rw [if_neg (by omega)]
    simp only [Part.IsMissing]
    omega
  · split <;> simp only [Part.IsMissing] <;> omega

theorem existing_digits (digits : Text) (isDigits : ∀ u ∈ digits, isDigit u) (raw : Text) :
    isReferencingExistingGroup ⟨raw, digits⟩ (extractGroups regex) = false ↔
      ¬(1 ≤ valueOf digits ∧ valueOf digits ≤ regex.length) := by
  simp only [isReferencingExistingGroup, number, List.all_eq_true.mpr isDigits, if_true,
    count_extractGroups, WithTop.coe_le_coe, decide_eq_false_iff_not]

end Digits

/-! ## Names -/

section Names

variable {regex : Groups} {rest name : Text}

theorem existing_name (named : nameAt rest = some name) (raw : Text) :
    isReferencingExistingGroup ⟨raw, name⟩ (extractGroups regex) ↔
      name ≠ utf16 "Infinity" ∧ some name ∈ regex := by
  obtain ⟨-, letter, -⟩ := nameAt_eq_some.1 named
  have noDigits : name.all isDigit = false := by
    cases name with
    | nil => cases letter
    | cons u name => rw [List.all_cons, isLetter_not_isDigit letter, Bool.false_and]
  by_cases infinity : name = utf16 "Infinity"
  · have number_eq : number name = some ⊤ := by
      rw [number, noDigits, if_neg Bool.false_ne_true, if_pos infinity]
    simp only [isReferencingExistingGroup, number_eq]
    simp [infinity]
  · simp [isReferencingExistingGroup, number, noDigits, infinity, has_extractGroups]

theorem partAt_of_lessThan (bracket : rest.head? = some lessThan) :
    partAt regex (dollar :: rest) = namePart regex rest.tail := by
  obtain ⟨behind, rfl⟩ : ∃ behind, rest = lessThan :: behind :=
    ⟨rest.tail, (List.cons_head?_tail bracket).symm⟩
  have noSymbol : lessThan ∉ symbols := by decide
  have noDigit : isDigit lessThan = false := by decide
  simp [partAt, noSymbol, noDigit]

theorem isMissing_namePart : (namePart regex rest).IsMissing regex ↔
    HasNames regex ∧ greaterThan ∈ rest ∧
      some (rest.takeWhile (· ≠ greaterThan)) ∉ regex := by
  unfold namePart
  split
  · rename_i h
    simp [Part.IsMissing, h]
  · rename_i h
    simp only [Part.IsMissing, false_iff]
    tauto

/-- A simple name ends where ECMAScript ends it. -/
theorem takeWhile_of_nameAt (named : nameAt rest = some name) :
    greaterThan ∈ rest ∧ rest.takeWhile (· ≠ greaterThan) = name := by
  obtain ⟨words, -, behind, rfl⟩ := nameAt_eq_some.1 named
  have noBracket : ∀ u ∈ name, decide (u ≠ greaterThan) = true := by
    intro u member
    rw [decide_eq_true_eq]
    rintro rfl
    exact absurd (words _ member) (by decide)
  refine ⟨by simp, ?_⟩
  rw [List.takeWhile_append_of_pos noBracket, List.takeWhile_cons_of_neg (by simp),
    List.append_nil]

end Names

section Agree

variable {regex : Groups} {rest : Text} {reads : Prop}

theorem isMissing_partAt_of_other (noDigits : rest.takeWhile isDigit = [])
    (noBracket : rest.head? ≠ some lessThan) :
    ¬(partAt regex (dollar :: rest)).IsMissing regex := by
  by_cases symbol : rest.head?.any (· ∈ symbols)
  · simp [partAt, symbol, Part.IsMissing]
  · simp [partAt, symbol, noDigits, noBracket, Part.IsMissing]

theorem agree_iff_of_digits (digits : rest.takeWhile isDigit ≠ []) :
    Agree regex reads rest ↔ (reads → DigitsAgree regex (rest.takeWhile isDigit)) ∧
      (¬reads → 1 ≤ valueOf (rest.takeWhile isDigit) ∧
        valueOf (rest.takeWhile isDigit) ≤ regex.length) := by
  obtain ⟨u, first, digit⟩ := head?_of_digits digits
  have noBracket : rest.head? ≠ some lessThan := by
    rw [first]
    rintro same
    rw [Option.some.inj same] at digit
    exact absurd digit (by decide)
  constructor
  · intro agree
    exact ⟨agree.digits digits, agree.skippedDigits digits⟩
  · rintro ⟨read, skipped⟩
    exact ⟨fun _ => read, fun _ => skipped, fun _ bracket => absurd bracket noBracket,
      fun _ bracket => absurd bracket noBracket, fun bracket => absurd bracket noBracket⟩

theorem agree_iff_of_name {name : Text} (noDigits : rest.takeWhile isDigit = [])
    (bracket : rest.head? = some lessThan) (named : nameAt rest.tail = some name) :
    Agree regex reads rest ↔
      (reads → HasNames regex → ¬(name = utf16 "Infinity" ∧ some name ∈ regex)) ∧
      (¬(reads ∧ HasNames regex) → name ≠ utf16 "Infinity" ∧ some name ∈ regex) := by
  constructor
  · intro agree
    exact ⟨agree.name name bracket named, agree.skippedName name bracket named⟩
  · rintro ⟨read, skipped⟩
    refine ⟨absurd noDigits, absurd noDigits, ?_, ?_, ?_⟩
    · intro other _ same
      rw [named] at same
      exact Option.some.inj same ▸ read
    · intro other _ same
      rw [named] at same
      exact Option.some.inj same ▸ skipped
    · intro _ none
      rw [named] at none
      cases none

theorem agree_iff_of_otherName (noDigits : rest.takeWhile isDigit = [])
    (bracket : rest.head? = some lessThan) (noName : nameAt rest.tail = none) :
    Agree regex reads rest ↔ (reads → HasNames regex → greaterThan ∈ rest.tail →
      some (rest.tail.takeWhile (· ≠ greaterThan)) ∈ regex) := by
  constructor
  · intro agree
    exact agree.otherName bracket noName
  · intro read
    refine ⟨absurd noDigits, absurd noDigits, ?_, ?_, fun _ _ => read⟩
    · intro name _ named
      rw [noName] at named
      cases named
    · intro name _ named
      rw [noName] at named
      cases named

theorem agree_of_other (noDigits : rest.takeWhile isDigit = [])
    (noBracket : rest.head? ≠ some lessThan) : Agree regex reads rest :=
  ⟨absurd noDigits, absurd noDigits, fun _ bracket => absurd bracket noBracket,
    fun _ bracket => absurd bracket noBracket, fun bracket => absurd bracket noBracket⟩

/-- What the rule finds behind a dollar is what ECMAScript reads there. -/
theorem agree_iff : Agree regex reads rest ↔
    ((∃ ref, matchAt (dollar :: rest) = some ref ∧
        isReferencingExistingGroup ref (extractGroups regex) = false) ↔
      reads ∧ (partAt regex (dollar :: rest)).IsMissing regex) := by
  by_cases noDigits : rest.takeWhile isDigit = []
  · by_cases bracket : rest.head? = some lessThan
    · rw [matchAt_of_lessThan noDigits bracket, partAt_of_lessThan bracket,
        isMissing_namePart]
      cases named : nameAt rest.tail with
      | none =>
          rw [agree_iff_of_otherName noDigits bracket named]
          simp only [Option.map_none, reduceCtorEq, false_and, exists_false, false_iff]
          tauto
      | some name =>
          obtain ⟨closed, upToBracket⟩ := takeWhile_of_nameAt named
          have existing := @existing_name regex _ _ named
          have hasNames : some name ∈ regex → HasNames regex := fun member => ⟨name, member⟩
          rw [agree_iff_of_name noDigits bracket named, upToBracket]
          simp only [Option.map_some, Option.some.injEq, exists_eq_left', ← Bool.not_eq_true,
            existing, closed]
          tauto
    · rw [matchAt_of_other noDigits bracket]
      have notMissing := @isMissing_partAt_of_other regex _ noDigits bracket
      simp [agree_of_other noDigits bracket, notMissing]
  · rw [matchAt_of_digits noDigits, partAt_of_digits noDigits, agree_iff_of_digits noDigits]
    simp only [Option.some.injEq, exists_eq_left',
      existing_digits _ (fun u => List.mem_takeWhile_imp), digitsAgree_iff]
    tauto

end Agree

/-- The reports on a replacement are the references to groups that do not exist if and only if
each of its dollars is one on which the two agree. -/
theorem reports_iff_missing (regex : Groups) (substr : Text) :
    (∀ i, Reports regex substr i ↔ Missing regex substr i) ↔
      ∀ i rest, substr.drop i = dollar :: rest → Agree regex (Reads regex substr i) rest := by
  constructor
  · intro same i rest here
    rw [agree_iff, ← here, ← reports_iff_match, ← missing_iff_part]
    exact same i
  · intro agree i
    rw [reports_iff_match, missing_iff_part]
    by_cases noDollar : (substr.drop i).head? = some dollar
    · have here := (List.cons_head?_tail noDollar).symm
      rw [here]
      exact agree_iff.1 (agree i _ here)
    · rw [matchAt_of_head_ne noDollar, partAt_of_head_ne noDollar]
      simp [Part.IsMissing]

/-- The second digit is no part of the reference: the pattern has one group, and the `$10` in
the replacement is `$1` with `0` behind it. -/
theorem not_reports_iff_missing_of_digit :
    ¬∀ (regex : Groups) (substr : Text) (i : ℕ),
      Reports regex substr i ↔ Missing regex substr i := by
  intro same
  have reported : Reports [none] (utf16 "$10") 0 :=
    reports_iff_match.2 ⟨⟨utf16 "$10", utf16 "10"⟩, by decide⟩
  have missing := (missing_iff_part.1 ((same [none] (utf16 "$10") 0).mp reported)).2
  have part : partAt [none] (utf16 "$10") = .group 1 1 := by decide
  rw [List.drop_zero, part] at missing
  exact missing ⟨le_refl 1, le_refl 1⟩

end SonarJS.ExistingGroups
