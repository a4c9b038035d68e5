import Mathlib.Data.List.TakeWhile
import SonarJS.Regex.ConciseRegex

/-!
# The braces at the end of a quantifier

The rule looks for bounds at the end of the text of a quantifier. They are those of the
quantifier, except that `\u{0}?` and `\u{1}?` look as if the code point of the character were
bounds.
-/

namespace SonarJS.Regex.ConciseRegex

theorem bracesAtEnd_braces (before text : List Char) (greedy : Bool) (inner : '{' ∉ text) :
    bracesAtEnd (before ++ ('{' :: (text ++ ['}'])) ++ if greedy then [] else ['?']) =
      some text := by
  have reversed : (text.reverse ++ '{' :: before.reverse).takeWhile (· ≠ '{') = text.reverse := by
    rw [List.takeWhile_append_of_pos]
    · simp
    · intro c member
      have differs : c ≠ '{' := by
        rintro rfl
        exact inner (List.mem_reverse.mp member)
      exact decide_eq_true differs
  cases greedy with
  | true => simpa [bracesAtEnd] using congrArg List.reverse reversed
  | false => simpa [bracesAtEnd] using congrArg List.reverse reversed

theorem bracesAtEnd_concat (before : List Char) (c : Char) (other : c ≠ '}') :
    bracesAtEnd (before ++ [c, '?']) = none := by
  simp [bracesAtEnd, other]

theorem bracesAtEnd_of_last (before : List Char) (c : Char) (other : c ≠ '}') (noMark : c ≠ '?') :
    bracesAtEnd (before ++ [c]) = none := by
  simp [bracesAtEnd, other, noMark]

theorem comma_notMem (digits : Digits) : ',' ∉ digits.chars := by
  intro member
  exact absurd (digits.decimal _ member) (by decide)

theorem brace_notMem (digits : Digits) : '{' ∉ digits.chars := by
  intro member
  exact absurd (digits.decimal _ member) (by decide)

theorem brace_notMem_inBraces {bounds : Bounds} {text : List Char}
    (written : bounds.inBraces = some text) : '{' ∉ text := by
  cases bounds with
  | optional | star | plus => cases written
  | exactly digits =>
      obtain rfl := Option.some.inj written
      exact brace_notMem digits
  | atLeast digits =>
      obtain rfl := Option.some.inj written
      simp [brace_notMem digits]
  | between first second =>
      obtain rfl := Option.some.inj written
      simp [brace_notMem first, brace_notMem second]

/-- The bounds that are written between braces. -/
def boundsOf (text : List Char) : ℕ × Option ℕ :=
  let first := Nat.ofDigitChars 10 (text.takeWhile (· ≠ ',')) 0
  match text.dropWhile (· ≠ ',') with
  | [] => (first, some first)
  | [_] => (first, none)
  | _ :: second => (first, some (Nat.ofDigitChars 10 second 0))

theorem span_of_comma_notMem {before : List Char} (noComma : ',' ∉ before) (behind : List Char) :
    (before ++ ',' :: behind).takeWhile (· ≠ ',') = before ∧
      (before ++ ',' :: behind).dropWhile (· ≠ ',') = ',' :: behind := by
  have passes : ∀ c ∈ before, decide (c ≠ ',') = true := by
    intro c member
    refine decide_eq_true ?_
    rintro rfl
    exact noComma member
  constructor
  · rw [List.takeWhile_append_of_pos passes]
    simp
  · rw [List.dropWhile_append_of_pos passes]
    simp

theorem boundsOf_inBraces {bounds : Bounds} {text : List Char}
    (written : bounds.inBraces = some text) : boundsOf text = (bounds.min, bounds.max) := by
  cases bounds with
  | optional | star | plus => cases written
  | exactly digits =>
      obtain rfl := Option.some.inj written
      have passes : ∀ c ∈ digits.chars, decide (c ≠ ',') = true := by
        intro c member
        refine decide_eq_true ?_
        rintro rfl
        exact comma_notMem digits member
      rw [boundsOf, List.dropWhile_eq_nil_iff.mpr passes, List.takeWhile_eq_self_iff.mpr passes]
      rfl
  | atLeast digits =>
      obtain rfl := Option.some.inj written
      obtain ⟨first, rest⟩ := span_of_comma_notMem (comma_notMem digits) []
      rw [boundsOf, rest, first]
      rfl
  | between first second =>
      obtain rfl := Option.some.inj written
      obtain ⟨before, rest⟩ := span_of_comma_notMem (comma_notMem first) second.chars
      obtain ⟨c, behind, same⟩ := List.exists_cons_of_ne_nil second.nonempty
      rw [boundsOf, rest, before]
      simp only [same]
      rw [← same]
      rfl

/-- A character that is written with a code point of one digit looks like a quantifier if a `?`
follows. -/
def isMisread : Quantifier → Atom → Bool
  | ⟨.optional, true⟩, .characters (.character (.codePoint digits _ _)) =>
    digits = ['0'] || digits = ['1']
  | _, _ => false

/-- The texts between braces that the rule reports. -/
def isReported (text : List Char) : Bool :=
  text ∈ [['0', ',', '1'], ['0', ',', '0'], ['0'], ['1', ',', '1'], ['1'], ['0', ','],
    ['1', ',']] || sameBounds text

theorem checkBulkyQuantifier_eq_none {quantifier : Quantifier} {element : Atom}
    (other : ∀ text, bracesAtEnd (Term.quantified quantifier element).raw = some text →
      isReported text = false) : checkBulkyQuantifier quantifier element = none := by
  unfold checkBulkyQuantifier
  cases found : bracesAtEnd (Term.quantified quantifier element).raw with
  | none => rfl
  | some text =>
      have unreported := other text found
      simp only [isReported, List.mem_cons, List.not_mem_nil, or_false, Bool.or_eq_false_iff,
        decide_eq_false_iff_not, not_or] at unreported
      obtain ⟨⟨h₁, h₂, h₃, h₄, h₅, h₆, h₇⟩, h₈⟩ := unreported
      simp [h₁, h₂, h₃, h₄, h₅, h₆, h₇, h₈]

/-- An element that does not end with a brace. -/
theorem bracesAtEnd_of_raw {raw before : List Char} {c : Char} (same : raw = before ++ [c])
    (other : c ≠ '}') : bracesAtEnd (raw ++ ['?']) = none := by
  rw [same, List.append_assoc]
  exact bracesAtEnd_concat before c other

theorem bracesAtEnd_of_brace_notMem {before : List Char} (noBrace : '{' ∉ before) :
    bracesAtEnd (before ++ ['?']) = none := by
  simp only [bracesAtEnd, List.reverse_append]
  split
  next behind same =>
    have inside : '{' ∉ behind := by
      intro member
      have behindBrace : '{' ∈ before.reverse := by simp_all
      exact noBrace (List.mem_reverse.mp behindBrace)
    rw [if_neg inside]
  next => rfl

theorem bracesAtEnd_character {node : Character} {text : List Char}
    (found : bracesAtEnd (node.raw ++ ['?']) = some text) :
    ∃ value hexadecimal, node = .codePoint text value hexadecimal := by
  cases node with
  | plain c =>
      by_cases isBrace : c = '{'
      · subst isBrace
        cases found
      · have nothing : bracesAtEnd ([c] ++ ['?']) = none :=
          bracesAtEnd_of_brace_notMem (by simpa using Ne.symm isBrace)
        exact absurd (nothing.symm.trans found) (by simp)
  | escaped letters value single =>
      by_cases isBrace : '{' ∈ letters
      · obtain rfl := single isBrace
        cases found
      · have nothing : bracesAtEnd ('\\' :: letters ++ ['?']) = none :=
          bracesAtEnd_of_brace_notMem (by simpa using isBrace)
        exact absurd (nothing.symm.trans found) (by simp)
  | codePoint digits value hexadecimal =>
      have noBrace : '{' ∉ digits := fun member => absurd (hexadecimal _ member) (by decide)
      have braces := bracesAtEnd_braces ['\\', 'u'] digits false noBrace
      obtain rfl := Option.some.inj (braces.symm.trans found)
      exact ⟨value, hexadecimal, rfl⟩

theorem bracesAtEnd_characterSet {set : CharacterSet} {text : List Char}
    (found : bracesAtEnd (set.raw ++ ['?']) = some text) :
    ∃ first others, text = first :: others ∧ first.isAlpha = true := by
  obtain ⟨kind, negate⟩ := set
  cases kind with
  | any => cases found
  | digit | space | word => cases negate <;> cases found
  | property first others letter noBrace =>
      have outside : '{' ∉ first :: others := by
        refine List.not_mem_cons_of_ne_of_not_mem ?_ noBrace
        rintro rfl
        exact absurd letter (by decide)
      have braces := bracesAtEnd_braces ['\\', if negate then 'P' else 'p'] (first :: others) false
        outside
      obtain rfl := Option.some.inj (braces.symm.trans found)
      exact ⟨first, others, rfl, letter⟩

/-- What stands between braces at the end of an element is the code point of a character or the
name of a property. -/
theorem bracesAtEnd_atom {element : Atom} {text : List Char}
    (found : bracesAtEnd (element.raw ++ ['?']) = some text) :
    (∃ value hexadecimal, element = .characters (.character (.codePoint text value hexadecimal))) ∨
      ∃ first others, text = first :: others ∧ first.isAlpha = true := by
  have closed : ∀ before c, element.raw = before ++ [c] → c = '}' := by
    intro before c same
    by_contra other
    exact absurd ((bracesAtEnd_of_raw same other).symm.trans found) (by simp)
  cases element with
  | characters node =>
      cases node with
      | character node =>
          obtain ⟨value, hexadecimal, rfl⟩ := bracesAtEnd_character found
          exact .inl ⟨value, hexadecimal, rfl⟩
      | characterSet set => exact .inr (bracesAtEnd_characterSet found)
      | characterClass node => exact absurd (closed _ _ rfl) (by decide)
  | group alternatives => exact absurd (closed _ _ rfl) (by decide)
  | capturingGroup name number alternatives =>
      cases name with
      | none => exact absurd (closed _ _ rfl) (by decide)
      | some name =>
          exact absurd (closed ('(' :: '?' :: '<' :: name ++ '>' ::
            rawOfAlternatives alternatives) ')' (by simp [Atom.raw])) (by decide)
  | lookaround kind negate alternatives => exact absurd (closed _ _ rfl) (by decide)
  | edge kind => cases kind <;> cases found
  | wordBoundary negate => cases negate <;> cases found
  | backreference name resolved =>
      cases name with
      | some name => exact absurd (closed _ _ rfl) (by decide)
      | none =>
          have nothing : bracesAtEnd ('\\' :: Nat.toDigits 10 resolved ++ ['?']) = none := by
            refine bracesAtEnd_of_brace_notMem (List.not_mem_cons_of_ne_of_not_mem (by decide) ?_)
            intro member
            exact absurd (Nat.isDigit_of_mem_toDigits (by decide) (by decide) member) (by decide)
          exact absurd (nothing.symm.trans found) (by simp)

theorem isReported_eq_false {first : Char} {others : List Char} (letter : first.isAlpha = true) :
    isReported (first :: others) = false := by
  have noDigit : first.isDigit = false := by
    refine Bool.eq_false_iff.mpr fun digit => ?_
    change (decide ('A'.val ≤ first.val ∧ first.val ≤ 'Z'.val) ||
      (decide ('a'.val ≤ first.val) && decide (first.val ≤ 'z'.val))) = true at letter
    change (decide ('0'.val ≤ first.val) && decide (first.val ≤ '9'.val)) = true at digit
    grind
  have notZero : first ≠ '0' := by
    rintro rfl
    exact absurd letter (by decide)
  have notOne : first ≠ '1' := by
    rintro rfl
    exact absurd letter (by decide)
  simp [isReported, sameBounds, noDigit, notZero, notOne]

theorem raw_of_inBraces {bounds : Bounds} {text : List Char}
    (written : bounds.inBraces = some text) : bounds.raw = '{' :: (text ++ ['}']) := by
  unfold Bounds.raw
  rw [written]

theorem isReported_iff_of_comma_notMem {text : List Char} (noComma : ',' ∉ text) :
    isReported text = true ↔ text = ['0'] ∨ text = ['1'] := by
  have notBoth : sameBounds text = false := by
    unfold sameBounds
    refine Bool.and_eq_false_imp.mpr fun _ => decide_eq_false fun same => noComma ?_
    rw [same]
    simp
  rw [isReported, notBoth, Bool.or_false]
  constructor
  · intro member
    have listed := of_decide_eq_true member
    simp only [List.mem_cons, List.not_mem_nil, or_false] at listed
    obtain rfl | rfl | rfl | rfl | rfl | rfl | rfl := listed
    · exact absurd noComma (by decide)
    · exact absurd noComma (by decide)
    · exact .inl rfl
    · exact absurd noComma (by decide)
    · exact .inr rfl
    · exact absurd noComma (by decide)
    · exact absurd noComma (by decide)
  · rintro (rfl | rfl)
    · rfl
    · rfl

/-- The quantifiers that the rule looks at are those with braces. -/
theorem bracesAtEnd_quantified {quantifier : Quantifier} {element : Atom}
    (clear : isMisread quantifier element = false) {text : List Char}
    (found : bracesAtEnd (Term.quantified quantifier element).raw = some text)
    (reported : isReported text = true) : quantifier.bounds.inBraces = some text := by
  obtain ⟨bounds, greedy⟩ := quantifier
  have braces : ∀ {inside}, bounds.inBraces = some inside → bounds.inBraces = some text := by
    intro inside written
    have here := bracesAtEnd_braces element.raw inside greedy (brace_notMem_inBraces written)
    rw [Term.raw, Quantifier.raw, raw_of_inBraces written, ← List.append_assoc] at found
    rw [written, ← here, ← found]
  cases bounds with
  | exactly digits => exact braces rfl
  | atLeast digits => exact braces rfl
  | between first second => exact braces rfl
  | star | plus =>
      cases greedy with
      | true =>
          have nothing := (bracesAtEnd_of_last _ _ (by decide) (by decide)).symm.trans found
          cases nothing
      | false =>
          have nothing := (bracesAtEnd_concat _ _ (by decide)).symm.trans found
          cases nothing
  | optional =>
      cases greedy with
      | false =>
          have nothing := (bracesAtEnd_concat _ _ (by decide)).symm.trans found
          cases nothing
      | true =>
          obtain ⟨value, hexadecimal, rfl⟩ | ⟨first, others, rfl, letter⟩ := bracesAtEnd_atom found
          · have noComma : ',' ∉ text := fun member => absurd (hexadecimal _ member) (by decide)
            have other : text ≠ ['0'] ∧ text ≠ ['1'] := by simpa [isMisread] using clear
            obtain zero | one := (isReported_iff_of_comma_notMem noComma).mp reported
            · exact absurd zero other.1
            · exact absurd one other.2
          · rw [isReported_eq_false letter] at reported
            cases reported

/-- What a suggestion does with the bounds of a quantifier. -/
inductive Suggests (bounds : Bounds) : Suggestion → Prop
  | bounds (concise : Bounds) (min : concise.min = bounds.min) (max : concise.max = bounds.max) :
    Suggests bounds (.bounds concise)
  | removeElement (min : bounds.min = 0) (max : bounds.max = some 0) :
    Suggests bounds .removeElement
  | removeQuantifier (min : bounds.min = 1) (max : bounds.max = some 1) :
    Suggests bounds .removeQuantifier

theorem boundsOf_sameBounds {text : List Char} (same : sameBounds text = true) :
    ∃ n, boundsOf text = (n, some n) := by
  obtain ⟨some, both⟩ := Bool.and_eq_true_iff.mp same
  have both := of_decide_eq_true both
  generalize isDigits : text.takeWhile Char.isDigit = digits at some both
  have nonempty : digits ≠ [] := of_decide_eq_true some
  have noComma : ',' ∉ digits := by
    intro member
    rw [← isDigits] at member
    exact absurd (List.mem_takeWhile_imp member) (by decide)
  obtain ⟨first, rest⟩ := span_of_comma_notMem noComma digits
  refine ⟨Nat.ofDigitChars 10 digits 0, ?_⟩
  obtain ⟨c, behind, isCons⟩ := List.exists_cons_of_ne_nil nonempty
  rw [both, boundsOf, rest, first]
  simp only [isCons]

theorem isReported_of_check {quantifier : Quantifier} {element : Atom} {report : Report}
    (isReport : checkBulkyQuantifier quantifier element = some report) :
    ∃ text, bracesAtEnd (Term.quantified quantifier element).raw = some text ∧
      isReported text = true := by
  by_contra nothing
  push Not at nothing
  have unreported := checkBulkyQuantifier_eq_none fun text found =>
    Bool.eq_false_iff.mpr (nothing text found)
  rw [unreported] at isReport
  cases isReport

theorem suggests_of_check {quantifier : Quantifier} {element : Atom}
    (clear : isMisread quantifier element = false) {report : Report}
    (isReport : checkBulkyQuantifier quantifier element = some report) :
    Suggests quantifier.bounds report.suggestion := by
  obtain ⟨text, found, reported⟩ := isReported_of_check isReport
  have written := bracesAtEnd_quantified clear found reported
  have min : (boundsOf text).1 = quantifier.bounds.min := by rw [boundsOf_inBraces written]
  have max : (boundsOf text).2 = quantifier.bounds.max := by rw [boundsOf_inBraces written]
  unfold checkBulkyQuantifier at isReport
  rw [found] at isReport
  simp only at isReport
  split_ifs at isReport with h₁ h₂ h₃ h₄ h₅ h₆ h₇ h₈
  all_goals obtain rfl := Option.some.inj isReport
  · subst h₁
    exact .bounds .optional min max
  · subst h₂
    exact .removeElement min.symm max.symm
  · subst h₃
    exact .removeElement min.symm max.symm
  · subst h₄
    exact .removeQuantifier min.symm max.symm
  · subst h₅
    exact .removeQuantifier min.symm max.symm
  · subst h₆
    exact .bounds .star min max
  · subst h₇
    exact .bounds .plus min max
  · obtain ⟨n, both⟩ := boundsOf_sameBounds h₈
    rw [both] at min max
    have value : (Digits.ofNat quantifier.bounds.min).value = quantifier.bounds.min :=
      Nat.ofDigitChars_ten_toDigits
    refine .bounds _ value ?_
    rw [← max, show n = quantifier.bounds.min from min]
    exact congrArg some value

end SonarJS.Regex.ConciseRegex
