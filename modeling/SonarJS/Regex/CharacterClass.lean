import Mathlib.Order.Nat
import SonarJS.Foundation.SortedMap

/-!
# Simplified character classes

`SimplifiedRegexCharacterClass` keeps the contents of a character class as a persistent
tree of code points. An entry with an element says that the code points from its key up to
the next entry belong to the element, and an entry without one that they do not belong to
the class: it starts a gap.

Elements are added as ranges. Under the flag `i` a range is replaced by the two ranges
between the upper-case and the lower-case forms of its ends.
-/

namespace SonarJS

namespace Regex

def MAX_CODE_POINT : ℕ := 0x10ffff

/-- The flags that are looked at. -/
structure Flags where
  ignoreCase : Bool
  unicode : Bool
deriving DecidableEq

/-- A class whose elements are the nodes of a type. -/
structure SimplifiedRegexCharacterClass {N : Type} (trees : PersistentTrees ℕ (Option N)) where
  flags : Flags
  contents : trees.Tree

/-- The value of the last entry at or before a code point. -/
def owner {N : Type} (contents : SortedMap ℕ (Option N)) (codePoint : ℕ) : Option N :=
  (contents.le codePoint).bind Prod.snd

namespace SimplifiedRegexCharacterClass

variable {N : Type} {trees : PersistentTrees ℕ (Option N)}

def new (trees : PersistentTrees ℕ (Option N)) (flags : Flags) :
    SimplifiedRegexCharacterClass trees :=
  ⟨flags, trees.createTree⟩

def put (key : ℕ) (value : Option N) (tree : trees.Tree) : trees.Tree :=
  if (trees.find tree key).isSome then trees.update tree key value
  else trees.insert tree key value

/-- The loop of `addRange`. The iterator stays with the tree it was made from, so that
every update starts from this tree. -/
def fillGaps (start stop : ℕ) (element : N) (tree : trees.Tree) : trees.Tree :=
  (trees.entries tree).foldl (fun contents entry =>
    if start < entry.1 ∧ entry.1 ≤ stop ∧ entry.2.isNone then
      trees.update tree entry.1 (some element)
    else contents) tree

def addRange (characters : SimplifiedRegexCharacterClass trees) (start stop : ℕ) (element : N) :
    SimplifiedRegexCharacterClass trees :=
  let oldEntry := trees.le characters.contents stop
  let oldEnd := oldEntry.bind fun entry => (trees.gt characters.contents entry.1).map Prod.fst
  let oldValue := oldEntry.bind Prod.snd
  let filled := fillGaps start stop element (put start (some element) characters.contents)
  let next := stop + 1
  { characters with contents :=
      if next ≤ MAX_CODE_POINT then
        if oldValue.isSome ∧ oldEnd.all (next < ·) then put next oldValue filled
        else if (trees.find filled next).isNone then put next none filled
        else filled
      else filled }

def isRangeEmpty (characters : SimplifiedRegexCharacterClass trees) (start stop : ℕ) : Bool :=
  (trees.between characters.contents start stop).isEmpty

def hasEntryBetween (characters : SimplifiedRegexCharacterClass trees) (start stop : ℕ) : Bool :=
  ((trees.le characters.contents start).bind Prod.snd).isSome ||
    !characters.isRangeEmpty (start + 1) (stop + 1)

/-- The loop of `findIntersections`, from one entry on. -/
def intersectionsFrom (characters : SimplifiedRegexCharacterClass trees) :
    List (ℕ × Option N) → List N
  | [] => []
  | [(key, value)] =>
    match value with
    | some element => if characters.hasEntryBetween key MAX_CODE_POINT then [element] else []
    | none => []
  | (key, value) :: (nextKey, nextValue) :: rest =>
    let stop := if nextValue.isSome then nextKey else nextKey - 1
    let others := characters.intersectionsFrom ((nextKey, nextValue) :: rest)
    match value with
    | some element => if characters.hasEntryBetween key stop then element :: others else others
    | none => others

def findIntersections (characters that : SimplifiedRegexCharacterClass trees) : List N :=
  characters.intersectionsFrom (trees.entries that.contents)

end SimplifiedRegexCharacterClass

/-! ## Elements -/

/-- `toUpperCase` and `toLowerCase` of the string of one code point, as code points. -/
structure CaseMapping where
  toUpperCase : ℕ → List ℕ
  toLowerCase : ℕ → List ℕ
  toUpperCase_ne_nil : ∀ c, toUpperCase c ≠ []
  toLowerCase_ne_nil : ∀ c, toLowerCase c ≠ []
  toUpperCase_le : ∀ c, c ≤ MAX_CODE_POINT → ∀ d ∈ toUpperCase c, d ≤ MAX_CODE_POINT
  toLowerCase_le : ∀ c, c ≤ MAX_CODE_POINT → ∀ d ∈ toLowerCase c, d ≤ MAX_CODE_POINT

namespace CaseMapping

variable (mapping : CaseMapping)

/-- The code point with which the upper-case string begins. -/
def upperCase (c : ℕ) : ℕ := (mapping.toUpperCase c).head (mapping.toUpperCase_ne_nil c)

def lowerCase (c : ℕ) : ℕ := (mapping.toLowerCase c).head (mapping.toLowerCase_ne_nil c)

theorem upperCase_le {c : ℕ} (h : c ≤ MAX_CODE_POINT) : mapping.upperCase c ≤ MAX_CODE_POINT :=
  mapping.toUpperCase_le c h _ (List.head_mem _)

theorem lowerCase_le {c : ℕ} (h : c ≤ MAX_CODE_POINT) : mapping.lowerCase c ≤ MAX_CODE_POINT :=
  mapping.toLowerCase_le c h _ (List.head_mem _)

end CaseMapping

inductive CharacterSetKind
  | digit
  | space
  | word
  | property
deriving DecidableEq

inductive CharacterClassElement
  | character (value : ℕ)
  | characterClassRange (min max : ℕ)
  | characterSet (kind : CharacterSetKind) (negate : Bool)
deriving DecidableEq

/-- The ranges of a character set, in the order in which they are added. -/
def characterSetRanges (unicode : Bool) : CharacterSetKind → Bool → List (ℕ × ℕ)
  | .digit, true => (0x00, 0x2f) :: if unicode then [(0x3a, 0xff)] else [(0x3a, MAX_CODE_POINT)]
  | .digit, false => [(0x30, 0x39)]
  | .space, true => (0x00, 0x08) :: (0x0e, 0x1f) ::
      if unicode then
        [(0x21, 0x84), (0x86, 0x9f), (0xa1, 0x167f), (0x1681, 0x1fff), (0x200b, 0x2027),
          (0x202a, 0x202e), (0x2030, 0x205e), (0x2060, 0x2fff), (0x3001, MAX_CODE_POINT)]
      else [(0x21, MAX_CODE_POINT)]
  | .space, false => (0x09, 0x0d) :: (0x20, 0x20) ::
      if unicode then
        [(0x85, 0x85), (0xa0, 0xa0), (0x1680, 0x1680), (0x2000, 0x200a), (0x2028, 0x2029),
          (0x202f, 0x202f), (0x205f, 0x205f), (0x3000, 0x3000)]
      else []
  | .word, true => (0x00, 0x2f) :: (0x3a, 0x40) :: (0x5b, 0x5e) :: (0x60, 0x60) ::
      if unicode then [(0x7b, 0xb4)] else [(0x7b, MAX_CODE_POINT)]
  | .word, false => [(0x30, 0x39), (0x41, 0x5a), (0x5f, 0x5f), (0x61, 0x7a)]
  | .property, _ => []

def isAscii (c : ℕ) : Bool := c < 128

/-- Whether the builder adds the mapped ranges in place of the range itself. -/
def isMapped (mapping : CaseMapping) (flags : Flags) (start stop : ℕ) : Bool :=
  flags.ignoreCase &&
    mapping.lowerCase (mapping.upperCase start) != mapping.upperCase start &&
    mapping.lowerCase (mapping.upperCase stop) != mapping.upperCase stop &&
    (isAscii start && isAscii stop || flags.unicode)

namespace Builder

variable {trees : PersistentTrees ℕ (Option CharacterClassElement)}
variable (mapping : CaseMapping)

def addRange (characters : SimplifiedRegexCharacterClass trees) (start stop : ℕ)
    (element : CharacterClassElement) : SimplifiedRegexCharacterClass trees :=
  let upperCaseFrom := mapping.upperCase start
  let upperCaseTo := mapping.upperCase stop
  let lowerCaseFrom := mapping.lowerCase upperCaseFrom
  let lowerCaseTo := mapping.lowerCase upperCaseTo
  if isMapped mapping characters.flags start stop then
    (characters.addRange upperCaseFrom upperCaseTo element).addRange lowerCaseFrom lowerCaseTo
      element
  else characters.addRange start stop element

def visit (characters : SimplifiedRegexCharacterClass trees) (element : CharacterClassElement) :
    SimplifiedRegexCharacterClass trees :=
  match element with
  | .character value => addRange mapping characters value value element
  | .characterClassRange min max => addRange mapping characters min max element
  | .characterSet kind negate =>
    (characterSetRanges characters.flags.unicode kind negate).foldl
      (fun characters range => characters.addRange range.1 range.2 element) characters

end Builder

def SimplifiedRegexCharacterClass.add
    {trees : PersistentTrees ℕ (Option CharacterClassElement)} (mapping : CaseMapping)
    (characters : SimplifiedRegexCharacterClass trees) (element : CharacterClassElement) :
    SimplifiedRegexCharacterClass trees :=
  Builder.visit mapping characters element

end Regex

end SonarJS
