import SonarJS.Regex.Matching

/-!
# Concise regular expressions

A rule that looks at how classes and quantifiers are written, and suggests shorter forms. The
pattern in which all of its suggestions are followed finds the same matches, up to two things
that the rule does not look at: whether `.` accepts line ends, and whether the braces at the end
of a node belong to a quantifier.
-/

namespace SonarJS.Regex.ConciseRegex

open Matching

/-! ## Patterns as they are written -/

/-- What is written with digits only. -/
structure Digits where
  chars : List Char
  decimal : ∀ c ∈ chars, c.isDigit
  nonempty : chars ≠ []

def Digits.value (digits : Digits) : ℕ := Nat.ofDigitChars 10 digits.chars 0

def isHexDigit (c : Char) : Bool :=
  c.isDigit || 'a' ≤ c && c ≤ 'f' || 'A' ≤ c && c ≤ 'F'

/-- A character is written as itself, with an escape sequence, or as `\u{…}`. -/
inductive Character
  | plain (char : Char)
  | escaped (letters : List Char) (value : ℕ) (single : '{' ∈ letters → letters = ['{'])
  | codePoint (digits : List Char) (value : ℕ) (hexadecimal : ∀ c ∈ digits, isHexDigit c)

def Character.raw : Character → List Char
  | .plain char => [char]
  | .escaped letters _ _ => '\\' :: letters
  | .codePoint digits _ _ => '\\' :: 'u' :: '{' :: (digits ++ ['}'])

def Character.value : Character → ℕ
  | .plain char => char.toNat
  | .escaped _ value _ | .codePoint _ value _ => value

/-- The name of a property begins with a letter. -/
inductive Kind
  | any
  | digit
  | space
  | word
  | property (first : Char) (others : List Char) (letter : first.isAlpha) (noBrace : '{' ∉ others)

structure CharacterSet where
  kind : Kind
  negate : Bool

def CharacterSet.raw (set : CharacterSet) : List Char :=
  match set.kind with
  | .any => ['.']
  | .digit => ['\\', if set.negate then 'D' else 'd']
  | .space => ['\\', if set.negate then 'S' else 's']
  | .word => ['\\', if set.negate then 'W' else 'w']
  | .property first others _ _ =>
    '\\' :: (if set.negate then 'P' else 'p') :: '{' :: first :: (others ++ ['}'])

inductive ClassElement
  | character (node : Character)
  | characterClassRange (min max : Character)
  | characterSet (set : CharacterSet)

def ClassElement.raw : ClassElement → List Char
  | .character node => node.raw
  | .characterClassRange min max => min.raw ++ '-' :: max.raw
  | .characterSet set => set.raw

structure CharacterClass where
  negate : Bool
  elements : List ClassElement

def CharacterClass.raw (node : CharacterClass) : List Char :=
  '[' :: (if node.negate then ['^'] else []) ++ node.elements.flatMap ClassElement.raw ++ [']']

/-- The nodes that accept one character. -/
inductive Characters
  | character (node : Character)
  | characterSet (set : CharacterSet)
  | characterClass (node : CharacterClass)

def Characters.raw : Characters → List Char
  | .character node => node.raw
  | .characterSet set => set.raw
  | .characterClass node => node.raw

/-- How the bounds of a quantifier are written. -/
inductive Bounds
  | optional
  | star
  | plus
  | exactly (digits : Digits)
  | atLeast (digits : Digits)
  | between (first second : Digits)

namespace Bounds

def min : Bounds → ℕ
  | optional | star => 0
  | plus => 1
  | exactly digits | atLeast digits | between digits _ => digits.value

def max : Bounds → Option ℕ
  | optional => some 1
  | star | plus | atLeast _ => none
  | exactly digits | between _ digits => some digits.value

/-- What is written between the braces. -/
def inBraces : Bounds → Option (List Char)
  | optional | star | plus => none
  | exactly digits => some digits.chars
  | atLeast digits => some (digits.chars ++ [','])
  | between first second => some (first.chars ++ ',' :: second.chars)

def raw (bounds : Bounds) : List Char :=
  match bounds.inBraces with
  | some text => '{' :: (text ++ ['}'])
  | none =>
    match bounds with
    | optional => ['?']
    | star => ['*']
    | _ => ['+']

end Bounds

structure Quantifier where
  bounds : Bounds
  greedy : Bool

def Quantifier.raw (quantifier : Quantifier) : List Char :=
  quantifier.bounds.raw ++ if quantifier.greedy then [] else ['?']

mutual

/-- What a quantifier can follow. -/
inductive Atom
  | characters (node : Characters)
  | group (alternatives : List (List Term))
  | capturingGroup (name : Option (List Char)) (number : ℕ) (alternatives : List (List Term))
  | lookaround (kind : LookaroundKind) (negate : Bool) (alternatives : List (List Term))
  | edge (kind : EdgeKind)
  | wordBoundary (negate : Bool)
  | backreference (name : Option (List Char)) (resolved : ℕ)

inductive Term
  | atom (atom : Atom)
  | quantified (quantifier : Quantifier) (element : Atom)

end

def rawOfLookaround : LookaroundKind → Bool → List Char
  | .lookahead, negate => ['(', '?', if negate then '!' else '=']
  | .lookbehind, negate => ['(', '?', '<', if negate then '!' else '=']

mutual

def Atom.raw : Atom → List Char
  | .characters node => node.raw
  | .group alternatives => '(' :: '?' :: ':' :: rawOfAlternatives alternatives ++ [')']
  | .capturingGroup (some name) _ alternatives =>
    '(' :: '?' :: '<' :: name ++ '>' :: rawOfAlternatives alternatives ++ [')']
  | .capturingGroup none _ alternatives => '(' :: rawOfAlternatives alternatives ++ [')']
  | .lookaround kind negate alternatives =>
    rawOfLookaround kind negate ++ rawOfAlternatives alternatives ++ [')']
  | .edge .atStart => ['^']
  | .edge .atEnd => ['$']
  | .wordBoundary negate => ['\\', if negate then 'B' else 'b']
  | .backreference (some name) _ => '\\' :: 'k' :: '<' :: name ++ ['>']
  | .backreference none resolved => '\\' :: Nat.toDigits 10 resolved

def Term.raw : Term → List Char
  | .atom atom => atom.raw
  | .quantified quantifier element => element.raw ++ quantifier.raw

def rawOfElements : List Term → List Char
  | [] => []
  | term :: terms => term.raw ++ rawOfElements terms

def rawOfAlternatives : List (List Term) → List Char
  | [] => []
  | [terms] => rawOfElements terms
  | terms :: alternatives => rawOfElements terms ++ '|' :: rawOfAlternatives alternatives

end

/-! ## The rule -/

/-- What the reports of the rule suggest. -/
inductive Suggestion
  | characterSet (set : CharacterSet)
  | bounds (concise : Bounds)
  | removeElement
  | removeQuantifier

structure Report where
  message : String
  suggestion : Suggestion

def useClass (set : CharacterSet) (node : CharacterClass) : Report where
  message := "Use concise character class syntax '" ++ String.ofList set.raw ++ "' instead of '" ++
    String.ofList node.raw ++ "'."
  suggestion := .characterSet set

def ClassElement.isSet (negate : Bool) (test : Kind → Bool) : ClassElement → Bool
  | .characterSet set => test set.kind && set.negate == negate
  | _ => false

def ClassElement.isRange (raw : String) (element : ClassElement) : Bool :=
  match element with
  | .characterClassRange _ _ => element.raw = raw.toList
  | _ => false

def ClassElement.isCharacter (raw : String) (element : ClassElement) : Bool :=
  match element with
  | .character _ => element.raw = raw.toList
  | _ => false

def Kind.isWord : Kind → Bool
  | .word => true
  | _ => false

def Kind.isDigit : Kind → Bool
  | .digit => true
  | _ => false

def Kind.isSpace : Kind → Bool
  | .space => true
  | _ => false

/-- A class has both the characters of a kind and all others. -/
def hasBoth (test : Kind → Bool) (elements : List ClassElement) : Bool :=
  elements.any (ClassElement.isSet false test) && elements.any (ClassElement.isSet true test)

def checkBulkyAnyCharacterClass (flags : Matching.Flags) (node : CharacterClass) : Option Report :=
  if node.negate || node.elements.length != 2 then none
  else if hasBoth Kind.isWord node.elements || hasBoth Kind.isDigit node.elements ||
      hasBoth Kind.isSpace node.elements && flags.dotAll then
    some (useClass ⟨.any, false⟩ node)
  else none

def checkBulkyNumericCharacterClass (node : CharacterClass) : Option Report :=
  match node.elements with
  | [element] =>
    if element.isRange "0-9" then some (useClass ⟨.digit, node.negate⟩ node) else none
  | _ => none

def checkBulkyAlphaNumericCharacterClass (node : CharacterClass) : Option Report :=
  if node.elements.length = 4 then
    if node.elements.any (ClassElement.isRange "0-9") &&
        node.elements.any (ClassElement.isRange "a-z") &&
        node.elements.any (ClassElement.isRange "A-Z") &&
        node.elements.any (ClassElement.isCharacter "_") then
      some (useClass ⟨.word, node.negate⟩ node)
    else none
  else none

def onCharacterClassEnter (flags : Matching.Flags) (node : CharacterClass) : List Report :=
  (checkBulkyAnyCharacterClass flags node).toList ++
    (checkBulkyNumericCharacterClass node).toList ++
      (checkBulkyAlphaNumericCharacterClass node).toList

/-- What stands between the braces at the end of a text, which a `?` can follow. -/
def bracesAtEnd (raw : List Char) : Option (List Char) :=
  let reversed := raw.reverse
  let reversed := if reversed.head? = some '?' then reversed.tail else reversed
  match reversed with
  | '}' :: before =>
    if '{' ∈ before then some (before.takeWhile (· ≠ '{')).reverse else none
  | _ => none

/-- The digits that stand on both sides of a comma. -/
def sameBounds (text : List Char) : Bool :=
  let digits := text.takeWhile Char.isDigit
  digits ≠ [] && text = digits ++ ',' :: digits

def useQuantifier (bounds : Bounds) (verbose : String) : Report where
  message := "Use concise quantifier syntax '" ++ String.ofList bounds.raw ++ "' instead of '" ++
    verbose ++ "'."
  suggestion := .bounds bounds

def removeElement (element : Atom) (bounds : String) : Report where
  message := "Remove redundant " ++ String.ofList element.raw ++ bounds ++ "."
  suggestion := .removeElement

def removeQuantifier (bounds : String) : Report where
  message := "Remove redundant quantifier " ++ bounds ++ "."
  suggestion := .removeQuantifier

/-- Written with digits as numbers are turned into texts. -/
def Digits.ofNat (n : ℕ) : Digits where
  chars := Nat.toDigits 10 n
  decimal := fun _ => Nat.isDigit_of_mem_toDigits (by decide) (by decide)
  nonempty := Nat.toDigits_ne_nil

def checkBulkyQuantifier (quantifier : Quantifier) (element : Atom) : Option Report :=
  match bracesAtEnd (Term.quantified quantifier element).raw with
  | none => none
  | some text =>
    if text = ['0', ',', '1'] then some (useQuantifier .optional "\x7b0,1\x7d")
    else if text = ['0', ',', '0'] then some (removeElement element "\x7b0,0\x7d")
    else if text = ['0'] then some (removeElement element "\x7b0\x7d")
    else if text = ['1', ',', '1'] then some (removeQuantifier "\x7b1,1\x7d")
    else if text = ['1'] then some (removeQuantifier "\x7b1\x7d")
    else if text = ['0', ','] then some (useQuantifier .star "\x7b0,\x7d")
    else if text = ['1', ','] then some (useQuantifier .plus "\x7b1,\x7d")
    else if sameBounds text then
      let min := Digits.ofNat quantifier.bounds.min
      some (useQuantifier (.exactly min) (String.ofList (Bounds.between min min).raw))
    else none

/-- The nodes that the rule listens to. -/
inductive Listened
  | characterClass (node : CharacterClass)
  | quantifier (node : Quantifier) (element : Atom)

def onEnter (flags : Matching.Flags) : Listened → List Report
  | .characterClass node => onCharacterClassEnter flags node
  | .quantifier node element => (checkBulkyQuantifier node element).toList

mutual

/-- The nodes in an element, in the order in which they are entered. -/
def nodesOfAtom : Atom → List Listened
  | .characters (.characterClass node) => [.characterClass node]
  | .group alternatives | .capturingGroup _ _ alternatives | .lookaround _ _ alternatives =>
    nodesOfAlternatives alternatives
  | .characters _ | .edge _ | .wordBoundary _ | .backreference _ _ => []

def nodesOfTerm : Term → List Listened
  | .atom atom => nodesOfAtom atom
  | .quantified quantifier element => .quantifier quantifier element :: nodesOfAtom element

def nodesOfElements : List Term → List Listened
  | [] => []
  | term :: terms => nodesOfTerm term ++ nodesOfElements terms

def nodesOfAlternatives : List (List Term) → List Listened
  | [] => []
  | terms :: alternatives => nodesOfElements terms ++ nodesOfAlternatives alternatives

end

def reports (flags : Matching.Flags) (pattern : List (List Term)) : List Report :=
  (nodesOfAlternatives pattern).flatMap (onEnter flags)

/-! ## Following the suggestions -/

/-- What is suggested for a class, if anything is. -/
def conciseCharacters (flags : Matching.Flags) : Characters → Characters
  | .characterClass node =>
    match (onCharacterClassEnter flags node).map Report.suggestion with
    | .characterSet set :: _ => .characterSet set
    | _ => .characterClass node
  | node => node

/-- A quantified element, which is concise, with what is suggested. -/
def follow (quantifier : Quantifier) (element : Atom) : Option Suggestion → List Term
  | some (.bounds bounds) => [.quantified ⟨bounds, quantifier.greedy⟩ element]
  | some .removeElement => []
  | some .removeQuantifier => [.atom element]
  | _ => [.quantified quantifier element]

mutual

def conciseAtom (flags : Matching.Flags) : Atom → Atom
  | .characters node => .characters (conciseCharacters flags node)
  | .group alternatives => .group (conciseAlternatives flags alternatives)
  | .capturingGroup name number alternatives =>
    .capturingGroup name number (conciseAlternatives flags alternatives)
  | .lookaround kind negate alternatives =>
    .lookaround kind negate (conciseAlternatives flags alternatives)
  | .edge kind => .edge kind
  | .wordBoundary negate => .wordBoundary negate
  | .backreference name resolved => .backreference name resolved

def conciseTerm (flags : Matching.Flags) : Term → List Term
  | .atom atom => [.atom (conciseAtom flags atom)]
  | .quantified quantifier element =>
    follow quantifier (conciseAtom flags element)
      ((checkBulkyQuantifier quantifier element).map Report.suggestion)

def conciseElements (flags : Matching.Flags) : List Term → List Term
  | [] => []
  | term :: terms => conciseTerm flags term ++ conciseElements flags terms

def conciseAlternatives (flags : Matching.Flags) : List (List Term) → List (List Term)
  | [] => []
  | terms :: alternatives =>
    conciseElements flags terms :: conciseAlternatives flags alternatives

end

/-! ## What patterns match -/

/-- What the flag `i` makes the same: ASCII digits have no other form, and the canonical forms of
ASCII letters are among them. -/
structure Unicode where
  canonicalize : Matching.Flags → ℕ → ℕ
  isSpace : ℕ → Bool
  hasProperty : List Char → ℕ → Bool
  canonicalize_canonicalize : ∀ flags c, canonicalize flags (canonicalize flags c) =
    canonicalize flags c
  isBasic_canonicalize : ∀ flags c, isBasicWordCharacter c →
    isBasicWordCharacter (canonicalize flags c)
  eq_of_digit : ∀ flags c d, 0x30 ≤ d → d ≤ 0x39 → canonicalize flags c = canonicalize flags d →
    c = d

namespace Unicode

variable (unicode : Unicode) (flags : Matching.Flags)

def isDigit (c : ℕ) : Bool := 0x30 ≤ c && c ≤ 0x39

/-- Under the flag `i`, these are more than the ASCII ones. -/
def isWord (c : ℕ) : Bool :=
  isBasicWordCharacter c || isBasicWordCharacter (unicode.canonicalize flags c)

/-- The set that a kind stands for, or the complement of it. -/
def InSet (set : CharacterSet) (c : ℕ) : Prop :=
  match set.kind with
  | .any => flags.dotAll ∨ isLineTerminator c = false
  | .digit => isDigit c = !set.negate
  | .space => unicode.isSpace c = !set.negate
  | .word => unicode.isWord flags c = !set.negate
  | .property first others _ _ => unicode.hasProperty (first :: others) c = !set.negate

def InElement : ClassElement → ℕ → Prop
  | .character node, c => c = node.value
  | .characterClassRange min max, c => min.value ≤ c ∧ c ≤ max.value
  | .characterSet set, c => unicode.InSet flags set c

/-- A character is in the set up to case. -/
def Found (set : ℕ → Prop) (c : ℕ) : Prop :=
  ∃ d, set d ∧ unicode.canonicalize flags d = unicode.canonicalize flags c

def Accepts : Characters → ℕ → Prop
  | .character node, c => unicode.Found flags (· = node.value) c
  | .characterSet set, c => unicode.Found flags (unicode.InSet flags set) c
  | .characterClass node, c =>
    let found := unicode.Found flags (fun d => ∃ element ∈ node.elements,
      unicode.InElement flags element d) c
    if node.negate then ¬found else found

open Classical in
noncomputable def sets : CharacterSets Characters where
  accepts flags node c := decide (unicode.Accepts flags node c)
  canonicalize := unicode.canonicalize

end Unicode

/-! ## Patterns without their texts -/

mutual

def Atom.element : Atom → Element Characters
  | .characters node => .character node
  | .group alternatives => .group (alternativesOf alternatives)
  | .capturingGroup _ number alternatives => .capturingGroup number (alternativesOf alternatives)
  | .lookaround kind negate alternatives => .lookaround kind negate (alternativesOf alternatives)
  | .edge kind => .edge kind
  | .wordBoundary negate => .wordBoundary negate
  | .backreference _ resolved => .backreference resolved

def Term.element : Term → Element Characters
  | .atom atom => atom.element
  | .quantified quantifier element =>
    .quantifier quantifier.bounds.min quantifier.bounds.max quantifier.greedy element.element

def elementsOf : List Term → List (Element Characters)
  | [] => []
  | term :: terms => term.element :: elementsOf terms

def alternativesOf : List (List Term) → List (List (Element Characters))
  | [] => []
  | terms :: alternatives => elementsOf terms :: alternativesOf alternatives

end

end SonarJS.Regex.ConciseRegex
