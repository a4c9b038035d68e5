import Mathlib.Data.List.Perm.Subperm
import SonarJS.Regex.ConciseRegex

/-!
# The characters that concise classes accept

The sets that are suggested accept the same characters as the classes, also where case is
ignored. The exception are line ends, which `.` accepts under the flag `s` only.
-/

namespace SonarJS.Regex.ConciseRegex

open Matching

variable {unicode : Unicode} {flags : Matching.Flags} {c : ℕ}

theorem found_congr {set set' : ℕ → Prop} (same : ∀ d, set d ↔ set' d) :
    unicode.Found flags set c ↔ unicode.Found flags set' c :=
  exists_congr fun d => and_congr_left' (same d)

theorem accepts_set (set : CharacterSet) :
    unicode.Accepts flags (.characterSet set) c ↔
      unicode.Found flags (unicode.InSet flags set) c := Iff.rfl

/-! ## Digits -/

theorem value_of_raw {node : Character} {char : Char} {rest rest' : List Char}
    (same : node.raw ++ rest = char :: rest') (other : char ≠ '\\') :
    node.value = char.toNat ∧ rest = rest' := by
  cases node with
  | plain c =>
      obtain ⟨rfl, rfl⟩ := List.cons.inj same
      exact ⟨rfl, rfl⟩
  | escaped letters value single => exact absurd (List.cons.inj same).1.symm other
  | codePoint digits value hexadecimal => exact absurd (List.cons.inj same).1.symm other

theorem raw_append_nil {raw written : List Char} (same : raw = written) : raw ++ [] = written :=
  (List.append_nil raw).trans same

/-- A range that is written with its ends. -/
theorem inElement_of_range {element : ClassElement} {first last : Char}
    (written : element.raw = [first, '-', last]) (first_ne : first ≠ '\\') (last_ne : last ≠ '\\') :
    unicode.InElement flags element c ↔ first.toNat ≤ c ∧ c ≤ last.toNat := by
  cases element with
  | character node =>
      have value := value_of_raw (raw_append_nil written) first_ne
      cases value.2
  | characterClassRange min max =>
      obtain ⟨min, rest⟩ := value_of_raw written first_ne
      have behind : max.raw ++ [] = [last] := (List.append_nil _).trans (List.cons.inj rest).2
      obtain ⟨max, -⟩ := value_of_raw behind last_ne
      rw [Unicode.InElement, min, max]
  | characterSet set =>
      obtain ⟨kind, negate⟩ := set
      cases kind with
      | any => cases written
      | digit | space | word | property => exact absurd (List.cons.inj written).1.symm first_ne

theorem found_digit : unicode.Found flags (fun d => 0x30 ≤ d ∧ d ≤ 0x39) c ↔
    0x30 ≤ c ∧ c ≤ 0x39 := by
  constructor
  · rintro ⟨d, ⟨least, most⟩, same⟩
    obtain rfl := unicode.eq_of_digit flags c d least most same.symm
    exact ⟨least, most⟩
  · intro digit
    exact ⟨c, digit, rfl⟩

theorem found_notDigit : unicode.Found flags (fun d => ¬(0x30 ≤ d ∧ d ≤ 0x39)) c ↔
    ¬(0x30 ≤ c ∧ c ≤ 0x39) := by
  constructor
  · rintro ⟨d, other, same⟩ ⟨least, most⟩
    obtain rfl := unicode.eq_of_digit flags d c least most same
    exact other ⟨least, most⟩
  · intro other
    exact ⟨c, other, rfl⟩

theorem inSet_digit {negate : Bool} : unicode.InSet flags ⟨.digit, negate⟩ c ↔
    if negate then ¬(0x30 ≤ c ∧ c ≤ 0x39) else 0x30 ≤ c ∧ c ≤ 0x39 := by
  cases negate <;> simp [Unicode.InSet, Unicode.isDigit]

theorem accepts_digits {element : ClassElement} (written : element.isRange "0-9" = true)
    (negate : Bool) : unicode.Accepts flags (.characterSet ⟨.digit, negate⟩) c ↔
      unicode.Accepts flags (.characterClass ⟨negate, [element]⟩) c := by
  have raw : element.raw = ['0', '-', '9'] := by
    unfold ClassElement.isRange at written
    split at written
    · exact of_decide_eq_true written
    · cases written
  have inside : ∀ d, (∃ other ∈ [element], unicode.InElement flags other d) ↔
      0x30 ≤ d ∧ d ≤ 0x39 := by
    intro d
    simp only [List.mem_singleton, exists_eq_left]
    exact inElement_of_range raw (by decide) (by decide)
  rw [accepts_set, found_congr fun d => inSet_digit, Unicode.Accepts, found_congr inside]
  cases negate with
  | false => rfl
  | true => exact found_notDigit.trans (not_congr found_digit.symm)

/-! ## Characters of words -/

theorem inElement_of_character {element : ClassElement} (written : element.raw = ['_']) :
    unicode.InElement flags element c ↔ c = 0x5F := by
  cases element with
  | character node =>
      obtain ⟨value, -⟩ := value_of_raw (raw_append_nil written) (by decide)
      rw [Unicode.InElement, value]
      rfl
  | characterClassRange min max =>
      obtain ⟨-, rest⟩ := value_of_raw written (by decide)
      cases rest
  | characterSet set =>
      obtain ⟨kind, negate⟩ := set
      cases kind with
      | any => cases written
      | digit | space | word | property => exact absurd (List.cons.inj written).1 (by decide)

theorem isBasicWordCharacter_iff : isBasicWordCharacter c = true ↔
    (0x30 ≤ c ∧ c ≤ 0x39) ∨ (0x61 ≤ c ∧ c ≤ 0x7A) ∨ (0x41 ≤ c ∧ c ≤ 0x5A) ∨ c = 0x5F := by
  simp only [isBasicWordCharacter, Bool.or_eq_true, Bool.and_eq_true, decide_eq_true_eq]
  tauto

/-- The texts of four elements are these if each of them occurs. -/
theorem raw_mem_iff {elements : List ClassElement} (four : elements.length = 4)
    (raws : List (List Char)) (nodup : raws.Nodup) (length : raws.length = 4)
    (occur : ∀ raw ∈ raws, ∃ element ∈ elements, element.raw = raw) :
    ∀ element ∈ elements, element.raw ∈ raws := by
  intro element member
  have subset : raws ⊆ elements.map ClassElement.raw := by
    intro raw inRaws
    obtain ⟨element, member, rfl⟩ := occur raw inRaws
    exact List.mem_map_of_mem member
  have perm : raws.Perm (elements.map ClassElement.raw) := by
    refine (List.subperm_of_subset nodup subset).perm_of_length_le ?_
    rw [List.length_map, four, length]
  exact perm.mem_iff.mpr (List.mem_map_of_mem member)

theorem inElements_of_words {elements : List ClassElement} (four : elements.length = 4)
    (digits : ∃ element ∈ elements, element.raw = ['0', '-', '9'])
    (lower : ∃ element ∈ elements, element.raw = ['a', '-', 'z'])
    (upper : ∃ element ∈ elements, element.raw = ['A', '-', 'Z'])
    (underscore : ∃ element ∈ elements, element.raw = ['_']) (c : ℕ) :
    (∃ element ∈ elements, unicode.InElement flags element c) ↔
      isBasicWordCharacter c = true := by
  rw [isBasicWordCharacter_iff]
  constructor
  · rintro ⟨element, member, inside⟩
    have raw := raw_mem_iff four [['0', '-', '9'], ['a', '-', 'z'], ['A', '-', 'Z'], ['_']]
      (by decide) rfl (by simpa using ⟨digits, lower, upper, underscore⟩) element member
    simp only [List.mem_cons, List.not_mem_nil, or_false] at raw
    obtain raw | raw | raw | raw := raw
    · exact .inl ((inElement_of_range raw (by decide) (by decide)).mp inside)
    · exact .inr (.inl ((inElement_of_range raw (by decide) (by decide)).mp inside))
    · exact .inr (.inr (.inl ((inElement_of_range raw (by decide) (by decide)).mp inside)))
    · exact .inr (.inr (.inr ((inElement_of_character raw).mp inside)))
  · rintro (inside | inside | inside | inside)
    · obtain ⟨element, member, raw⟩ := digits
      exact ⟨element, member, (inElement_of_range raw (by decide) (by decide)).mpr inside⟩
    · obtain ⟨element, member, raw⟩ := lower
      exact ⟨element, member, (inElement_of_range raw (by decide) (by decide)).mpr inside⟩
    · obtain ⟨element, member, raw⟩ := upper
      exact ⟨element, member, (inElement_of_range raw (by decide) (by decide)).mpr inside⟩
    · obtain ⟨element, member, raw⟩ := underscore
      exact ⟨element, member, (inElement_of_character raw).mpr inside⟩

/-- Up to case, the ASCII characters are all characters of words. -/
theorem found_basic : unicode.Found flags (fun d => isBasicWordCharacter d = true) c ↔
    unicode.isWord flags c = true := by
  rw [Unicode.isWord, Bool.or_eq_true]
  constructor
  · rintro ⟨d, basic, same⟩
    refine .inr ?_
    rw [← same]
    exact unicode.isBasic_canonicalize flags d basic
  · rintro (basic | basic)
    · exact ⟨c, basic, rfl⟩
    · exact ⟨_, basic, unicode.canonicalize_canonicalize flags c⟩

theorem isWord_congr {d : ℕ} (same : unicode.canonicalize flags d = unicode.canonicalize flags c)
    (word : unicode.isWord flags d = true) : unicode.isWord flags c = true := by
  obtain ⟨basic, isBasic, canonical⟩ := found_basic.2 word
  exact found_basic.1 ⟨basic, isBasic, canonical.trans same⟩

theorem found_word {negate : Bool} :
    unicode.Found flags (unicode.InSet flags ⟨.word, negate⟩) c ↔
      unicode.isWord flags c = !negate := by
  constructor
  · rintro ⟨d, word, same⟩
    have word : unicode.isWord flags d = !negate := word
    cases negate with
    | false => exact isWord_congr same word
    | true =>
        refine Bool.eq_false_iff.mpr fun other => ?_
        rw [isWord_congr same.symm other] at word
        cases word
  · intro word
    exact ⟨c, word, rfl⟩

theorem raw_of_isRange {element : ClassElement} {raw : String}
    (written : element.isRange raw = true) : element.raw = raw.toList := by
  unfold ClassElement.isRange at written
  split at written
  · exact of_decide_eq_true written
  · cases written

theorem raw_of_isCharacter {element : ClassElement} {raw : String}
    (written : element.isCharacter raw = true) : element.raw = raw.toList := by
  unfold ClassElement.isCharacter at written
  split at written
  · exact of_decide_eq_true written
  · cases written

theorem exists_raw_eq {test : ClassElement → Bool} {elements : List ClassElement} {raw : List Char}
    (reads : ∀ {element : ClassElement}, test element = true → element.raw = raw)
    (occurs : elements.any test = true) : ∃ element ∈ elements, element.raw = raw := by
  obtain ⟨element, member, written⟩ := List.any_eq_true.mp occurs
  exact ⟨element, member, reads written⟩

theorem accepts_words {node : CharacterClass} (four : node.elements.length = 4)
    (digits : node.elements.any (ClassElement.isRange "0-9") = true)
    (lower : node.elements.any (ClassElement.isRange "a-z") = true)
    (upper : node.elements.any (ClassElement.isRange "A-Z") = true)
    (underscore : node.elements.any (ClassElement.isCharacter "_") = true) :
    unicode.Accepts flags (.characterSet ⟨.word, node.negate⟩) c ↔
      unicode.Accepts flags (.characterClass node) c := by
  rw [accepts_set, found_word, Unicode.Accepts, found_congr (inElements_of_words four
    (exists_raw_eq raw_of_isRange digits) (exists_raw_eq raw_of_isRange lower)
    (exists_raw_eq raw_of_isRange upper) (exists_raw_eq raw_of_isCharacter underscore)),
    found_basic]
  cases node.negate with
  | false => rfl
  | true => simp

/-! ## Any character -/

theorem exists_isSet {elements : List ClassElement} {kind : Kind} {negate : Bool}
    {test : Kind → Bool} (only : ∀ other, test other = true → other = kind)
    (occurs : elements.any (ClassElement.isSet negate test) = true) :
    .characterSet ⟨kind, negate⟩ ∈ elements := by
  obtain ⟨element, member, isSet⟩ := List.any_eq_true.mp occurs
  unfold ClassElement.isSet at isSet
  split at isSet
  · rename_i set
    obtain ⟨ofKind, negated⟩ := Bool.and_eq_true_iff.mp isSet
    obtain rfl := only _ ofKind
    obtain rfl := eq_of_beq negated
    exact member
  · cases isSet

theorem exists_inElement_of_both {elements : List ClassElement} (kind : Kind) {test : Kind → Bool}
    (only : ∀ other, test other = true → other = kind) (both : hasBoth test elements = true)
    (complement : unicode.InSet flags ⟨kind, true⟩ c ↔ ¬unicode.InSet flags ⟨kind, false⟩ c) :
    ∃ element ∈ elements, unicode.InElement flags element c := by
  obtain ⟨plain, negated⟩ := Bool.and_eq_true_iff.mp both
  by_cases inside : unicode.InSet flags ⟨kind, false⟩ c
  · exact ⟨_, exists_isSet only plain, inside⟩
  · exact ⟨_, exists_isSet only negated, complement.mpr inside⟩

theorem exists_inElement_of_any {elements : List ClassElement}
    (both : hasBoth Kind.isWord elements = true ∨ hasBoth Kind.isDigit elements = true ∨
      hasBoth Kind.isSpace elements = true) :
    ∃ element ∈ elements, unicode.InElement flags element c := by
  obtain word | digit | space := both
  · refine exists_inElement_of_both .word ?_ word (by simp [Unicode.InSet])
    rintro (_ | _ | _ | _ | _) isKind <;> first | rfl | cases isKind
  · refine exists_inElement_of_both .digit ?_ digit (by simp [Unicode.InSet])
    rintro (_ | _ | _ | _ | _) isKind <;> first | rfl | cases isKind
  · refine exists_inElement_of_both .space ?_ space (by simp [Unicode.InSet])
    rintro (_ | _ | _ | _ | _) isKind <;> first | rfl | cases isKind

/-- Classes with all characters are said to be the same as `.`. -/
def isMistakenForAny (node : CharacterClass) : Bool :=
  !node.negate && node.elements.length == 2 &&
    (hasBoth Kind.isWord node.elements || hasBoth Kind.isDigit node.elements)

theorem accepts_of_any {node : CharacterClass} {report : Report}
    (isReport : checkBulkyAnyCharacterClass flags node = some report)
    (clear : isMistakenForAny node = true → flags.dotAll = true ∨ isLineTerminator c = false) :
    ∃ set, report.suggestion = .characterSet set ∧
      (unicode.Accepts flags (.characterSet set) c ↔
        unicode.Accepts flags (.characterClass node) c) := by
  unfold checkBulkyAnyCharacterClass at isReport
  split at isReport
  · cases isReport
  · rename_i shape
    obtain ⟨positive, two⟩ := Bool.or_eq_false_iff.mp (Bool.eq_false_iff.mpr shape)
    have two : node.elements.length = 2 := by simpa using two
    split at isReport
    · rename_i both
      obtain rfl := Option.some.inj isReport
      refine ⟨⟨.any, false⟩, rfl, iff_of_true ⟨c, ?_, rfl⟩ ?_⟩
      · simp only [Bool.or_eq_true, Bool.and_eq_true] at both
        obtain word | ⟨-, dotAll⟩ := both
        · exact clear (by simp [isMistakenForAny, positive, two, word])
        · exact .inl dotAll
      · rw [Unicode.Accepts, positive]
        refine ⟨c, exists_inElement_of_any ?_, rfl⟩
        simp only [Bool.or_eq_true, Bool.and_eq_true] at both
        tauto
    · cases isReport

variable (unicode) in
/-- What is suggested for a class accepts the same characters. -/
theorem accepts_of_report {node : CharacterClass} {report : Report}
    (isReport : report ∈ onCharacterClassEnter flags node)
    (clear : isMistakenForAny node = true → flags.dotAll = true ∨ isLineTerminator c = false) :
    ∃ set, report.suggestion = .characterSet set ∧
      (unicode.Accepts flags (.characterSet set) c ↔
        unicode.Accepts flags (.characterClass node) c) := by
  simp only [onCharacterClassEnter, List.mem_append, Option.mem_toList] at isReport
  obtain (any | digits) | words := isReport
  · exact accepts_of_any any clear
  · obtain ⟨negate, elements⟩ := node
    unfold checkBulkyNumericCharacterClass at digits
    split at digits
    next element only =>
      obtain rfl : elements = [element] := only
      split at digits
      next written =>
        obtain rfl := Option.some.inj digits
        exact ⟨_, rfl, accepts_digits written negate⟩
      next => cases digits
    next => cases digits
  · unfold checkBulkyAlphaNumericCharacterClass at words
    split at words
    next four =>
      split at words
      next written =>
        obtain rfl := Option.some.inj words
        simp only [Bool.and_eq_true] at written
        obtain ⟨⟨⟨digits, lower⟩, upper⟩, underscore⟩ := written
        exact ⟨_, rfl, accepts_words four digits lower upper underscore⟩
      next => cases words
    next => cases words

/-- A character at which no class is mistaken for `.`. -/
def IsClear (flags : Matching.Flags) (c : ℕ) : Characters → Prop
  | .characterClass node =>
    isMistakenForAny node = true → flags.dotAll = true ∨ isLineTerminator c = false
  | _ => True

theorem accepts_conciseCharacters {node : Characters} (clear : IsClear flags c node) :
    unicode.Accepts flags (conciseCharacters flags node) c ↔ unicode.Accepts flags node c := by
  cases node with
  | character node => rfl
  | characterSet set => rfl
  | characterClass node =>
      cases reported : onCharacterClassEnter flags node with
      | nil => rw [conciseCharacters, reported]; rfl
      | cons report others =>
          have member : report ∈ onCharacterClassEnter flags node := by simp [reported]
          obtain ⟨set, suggested, same⟩ := accepts_of_report unicode member clear
          rw [conciseCharacters, reported, List.map_cons, suggested]
          exact same

end SonarJS.Regex.ConciseRegex
