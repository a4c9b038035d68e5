import Mathlib.Data.List.TakeWhile
import SonarJS.Foundation.Separated

/-!
# Removing duplicate properties

The rule for duplicate keys is one of ESLint. Its reports are intercepted, and get a
suggestion that removes the property with one of the commas around it: the next comma behind
the property, or, if there is none, the last one before it. The search for the next comma
does not stop at the end of the object literal.
-/

namespace SonarJS.DuplicateKeys

abbrev Token := String

/-! ## The decorator -/

/-- The next token with this value behind an index of the tokens. -/
def getTokenAfter (tokens : List Token) (stop : ℕ) (value : Token) : Option ℕ :=
  ((tokens.drop stop).findIdx? (· = value)).map (stop + ·)

/-- The last token with this value before an index of the tokens. -/
def getTokenBefore (tokens : List Token) (start : ℕ) (value : Token) : Option ℕ :=
  ((tokens.take start).reverse.findIdx? (· = value)).map (start - 1 - ·)

/-- The first property around a location. -/
def getPropertyNode (properties : List (ℕ × ℕ)) (loc : ℕ × ℕ) : Option (ℕ × ℕ) :=
  properties.find? fun property => property.1 ≤ loc.1 && loc.2 ≤ property.2

/-- The tokens that are left. There is no result where the code fails. -/
def fix (tokens : List Token) (propertyToRemove : ℕ × ℕ) : Option (List Token) :=
  match getTokenBefore tokens propertyToRemove.1 "," with
  | none => none
  | some commaBefore =>
    match getTokenAfter tokens propertyToRemove.2 "," with
    | some commaAfter => some (tokens.take (commaBefore + 1) ++ tokens.drop (commaAfter + 1))
    | none => some (tokens.take commaBefore ++ tokens.drop propertyToRemove.2)

/-! ## Files with an object literal -/

/-- The tokens of a file around and in an object literal. -/
structure File where
  before : List Token
  properties : List (List Token)
  trailingComma : Bool
  after : List Token

/-- What comes behind the properties. -/
def File.rest (file : File) : List Token :=
  (if file.trailingComma then [","] else []) ++ "\x7d" :: file.after

def File.tokens (file : File) : List Token :=
  file.before ++ "\x7b" :: (Separated.join "," file.properties ++ file.rest)

/-- The indices of the tokens of properties, from a start on. -/
def rangesFrom (start : ℕ) : List (List Token) → List (ℕ × ℕ)
  | [] => []
  | property :: others =>
    (start, start + property.length) :: rangesFrom (start + property.length + 1) others

def File.ranges (file : File) : List (ℕ × ℕ) :=
  rangesFrom (file.before.length + 1) file.properties

/-- The suggestion for a report at a key. -/
def File.suggestion (file : File) (loc : ℕ × ℕ) : Option (List Token) :=
  (getPropertyNode file.ranges loc).bind (fix file.tokens)

/-! ## The property of a report -/

section Property

variable {before behind : List (List Token)} {property : List Token} {start : ℕ}

/-- The start of a property behind others. -/
def startOf (start : ℕ) (before : List (List Token)) : ℕ :=
  start + (Separated.leading "," before).length

theorem rangesFrom_append :
    rangesFrom start (before ++ property :: behind) =
      rangesFrom start before ++ (startOf start before, startOf start before + property.length) ::
        rangesFrom (startOf start before + property.length + 1) behind := by
  induction before generalizing start with
  | nil => rfl
  | cons first before ih =>
      have next : startOf (start + first.length + 1) before = startOf start (first :: before) := by
        simp [startOf]
        omega
      rw [List.cons_append, rangesFrom, ih, next]
      rfl

theorem lt_startOf_of_mem {range : ℕ × ℕ} (member : range ∈ rangesFrom start before) :
    range.2 < startOf start before := by
  induction before generalizing start with
  | nil => cases member
  | cons first before ih =>
      have next : startOf (start + first.length + 1) before = startOf start (first :: before) := by
        simp [startOf]
        omega
      obtain rfl | later := List.mem_cons.mp member
      · rw [← next, startOf]
        dsimp only
        omega
      · exact next ▸ ih later

/-- The property that is found is the one with the reported key. -/
theorem getPropertyNode_eq {loc : ℕ × ℕ} (first : startOf start before ≤ loc.1)
    (nonempty : loc.1 < loc.2) (last : loc.2 ≤ startOf start before + property.length) :
    getPropertyNode (rangesFrom start (before ++ property :: behind)) loc =
      some (startOf start before, startOf start before + property.length) := by
  have notEarlier : (rangesFrom start before).find? (fun property =>
      decide (property.1 ≤ loc.1) && decide (loc.2 ≤ property.2)) = none := by
    refine List.find?_eq_none.mpr fun range member around => ?_
    have := lt_startOf_of_mem member
    have := of_decide_eq_true (Bool.and_eq_true_iff.mp around).2
    omega
  rw [getPropertyNode, rangesFrom_append, List.find?_append, notEarlier, Option.none_or,
    List.find?_cons_of_pos]
  simp [first, last]

end Property

/-! ## The tokens that are left -/

theorem fix_eq (before property behind : List Token) :
    fix (before ++ "," :: (property ++ behind))
        (before.length + 1, before.length + 1 + property.length) =
      match behind.findIdx? (· = ",") with
      | some comma => some (before ++ "," :: behind.drop (comma + 1))
      | none => some (before ++ behind) := by
  have commaBefore : getTokenBefore (before ++ "," :: (property ++ behind)) (before.length + 1)
      "," = some before.length := by
    have upTo : (before ++ "," :: (property ++ behind)).take (before.length + 1) =
        before ++ [","] := by
      rw [List.take_append, List.take_of_length_le (Nat.le_succ _), Nat.add_sub_cancel_left]
      rfl
    rw [getTokenBefore, upTo, List.reverse_append, List.reverse_singleton, List.singleton_append,
      List.findIdx?_cons]
    simp
  have cut (n : ℕ) : (before ++ "," :: (property ++ behind)).drop
      (before.length + 1 + property.length + n) = behind.drop n := by
    rw [Nat.add_assoc, Nat.add_assoc, List.drop_append, List.drop_eq_nil_of_le (by omega)]
    simp [Nat.add_comm 1]
  have tail : (before ++ "," :: (property ++ behind)).drop
      (before.length + 1 + property.length) = behind := cut 0
  rw [fix, commaBefore, getTokenAfter, tail]
  cases behind.findIdx? (· = ",") with
  | none => simp
  | some comma =>
      simp only [Option.map_some]
      rw [Nat.add_assoc, cut, List.take_append, List.take_of_length_le (Nat.le_succ _),
        Nat.add_sub_cancel_left]
      simp

/-- The tokens of `f({ a: 1, a: 2 }, b)`. -/
def lastArgument : File where
  before := ["f", "("]
  properties := [["a", ":", "1"], ["a", ":", "2"]]
  trailingComma := false
  after := [",", "b", ")"]

end SonarJS.DuplicateKeys
