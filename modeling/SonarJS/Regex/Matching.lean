import SonarJS.Foundation.Backtracking
import SonarJS.Regex.Syntax

/-!
# Matching regular expressions

The elements of a pattern with what matching depends on, and the backtracking of ECMAScript: the
states in which an element can leave the input, in the order in which they are tried. Which
characters a set accepts and which ones are the same without case is left to the flags.
-/

namespace SonarJS.Regex.Matching

open Backtracking

/-! ## Patterns -/

structure Flags where
  dotAll : Bool
  isGlobal : Bool
  ignoreCase : Bool
  multiline : Bool
  sticky : Bool
  unicode : Bool

inductive EdgeKind
  | atStart
  | atEnd
deriving DecidableEq

/-- An alternative is the list of its elements. Characters, character sets and character classes
are not told apart. -/
inductive Element (κ : Type*)
  | character (character : κ)
  | group (alternatives : List (List (Element κ)))
  | capturingGroup (number : ℕ) (alternatives : List (List (Element κ)))
  | lookaround (kind : LookaroundKind) (negate : Bool) (alternatives : List (List (Element κ)))
  | edge (kind : EdgeKind)
  | wordBoundary (negate : Bool)
  | quantifier (min : ℕ) (max : Option ℕ) (greedy : Bool) (element : Element κ)
  | backreference (resolved : ℕ)

/-- What characters, sets and classes accept, and the canonical form of a character. -/
structure CharacterSets (κ : Type*) where
  accepts : Flags → κ → ℕ → Bool
  canonicalize : Flags → ℕ → ℕ

variable {κ : Type*}

mutual

/-- The capturing groups in an element. -/
def groupNumbers : Element κ → List ℕ
  | .group alternatives | .lookaround _ _ alternatives => numbersOfAlternatives alternatives
  | .capturingGroup number alternatives => number :: numbersOfAlternatives alternatives
  | .quantifier _ _ _ element => groupNumbers element
  | .character _ | .edge _ | .wordBoundary _ | .backreference _ => []

def numbersOfElements : List (Element κ) → List ℕ
  | [] => []
  | element :: elements => groupNumbers element ++ numbersOfElements elements

def numbersOfAlternatives : List (List (Element κ)) → List ℕ
  | [] => []
  | elements :: alternatives => numbersOfElements elements ++ numbersOfAlternatives alternatives

end

/-! ## States -/

/-- The input up to which a match has come, and what the groups have captured. -/
@[ext]
structure State (input : List ℕ) where
  endIndex : ℕ
  inside : endIndex ≤ input.length
  captures : ℕ → Option (ℕ × ℕ)

inductive Direction
  | forward
  | backward

section State

variable {input : List ℕ}

def State.reset (x : State input) (numbers : List ℕ) : State input where
  endIndex := x.endIndex
  inside := x.inside
  captures := fun number => if number ∈ numbers then none else x.captures number

def State.capture (x : State input) (number first last : ℕ) : State input where
  endIndex := x.endIndex
  inside := x.inside
  captures := Function.update x.captures number (some (first, last))

/-- The characters between two positions. -/
def slice (input : List ℕ) (first last : ℕ) : List ℕ := (input.take last).drop first

/-- Passing some characters, if there are as many and they pass a test. -/
def State.pass (direction : Direction) (count : ℕ) (test : List ℕ → Bool) (x : State input) :
    List (State input) :=
  match direction with
  | .forward =>
    if inside : x.endIndex + count ≤ input.length then
      if test (slice input x.endIndex (x.endIndex + count)) then
        [⟨x.endIndex + count, inside, x.captures⟩]
      else []
    else []
  | .backward =>
    if count ≤ x.endIndex then
      if test (slice input (x.endIndex - count) x.endIndex) then
        [⟨x.endIndex - count, (Nat.sub_le ..).trans x.inside, x.captures⟩]
      else []
    else []

/-- As in the specification of the language: a group captures the text between the two states. -/
def captureBetween (direction : Direction) (number : ℕ) (x y : State input) : State input :=
  match direction with
  | .forward => y.capture number x.endIndex y.endIndex
  | .backward => y.capture number y.endIndex x.endIndex

end State

/-! ## Matchers -/

section Matchers

variable (sets : CharacterSets κ) (flags : Flags) {input : List ℕ}

def isLineTerminator (character : ℕ) : Bool :=
  character = 0x0A || character = 0x0D || character = 0x2028 || character = 0x2029

def isBasicWordCharacter (character : ℕ) : Bool :=
  0x30 ≤ character && character ≤ 0x39 || 0x41 ≤ character && character ≤ 0x5A ||
    0x61 ≤ character && character ≤ 0x7A || character = 0x5F

def isWordCharacter (character : ℕ) : Bool :=
  isBasicWordCharacter character || isBasicWordCharacter (sets.canonicalize flags character)

def holdsAtEdge (kind : EdgeKind) (x : State input) : Bool :=
  match kind with
  | .atStart => x.endIndex = 0 ||
    flags.multiline && input[x.endIndex - 1]?.any isLineTerminator
  | .atEnd => x.endIndex = input.length ||
    flags.multiline && input[x.endIndex]?.any isLineTerminator

def isWordBoundary (x : State input) : Bool :=
  let before := 0 < x.endIndex && input[x.endIndex - 1]?.any (isWordCharacter sets flags)
  let behind := input[x.endIndex]?.any (isWordCharacter sets flags)
  before != behind

/-- An iteration that is not required fails if it matches the empty string. -/
def advancing (m : State input → List (State input)) (x : State input) : List (State input) :=
  (m x).filter fun y => y.endIndex ≠ x.endIndex

/-- At most this number of iterations that are not required can be made. -/
def optionalIterations (input : List ℕ) (min : ℕ) : Option ℕ → ℕ
  | some max => (max - min) ⊓ input.length
  | none => input.length

/-- The states behind the iterations, each with their number. -/
def repeatMatcher (min : ℕ) (max : Option ℕ) (greedy : Bool)
    (m : State input → List (State input)) (x : State input) : List (ℕ × State input) :=
  (times m min x).flatMap (star (advancing m) greedy (optionalIterations input min max) min)

def directionOf : LookaroundKind → Direction
  | .lookahead => .forward
  | .lookbehind => .backward

/-- A lookaround takes the first way to match and does not come back to it. -/
def lookaroundMatcher (negate : Bool) (found : List (State input)) (x : State input) :
    List (State input) :=
  match found with
  | [] => if negate then [x] else []
  | y :: _ => if negate then [] else [⟨x.endIndex, x.inside, y.captures⟩]

def backreferenceMatcher (direction : Direction) (number : ℕ) (x : State input) :
    List (State input) :=
  match x.captures number with
  | none => [x]
  | some (first, last) =>
    x.pass direction (last - first) fun passed =>
      passed.map (sets.canonicalize flags) =
        (slice input first last).map (sets.canonicalize flags)

mutual

@[grind =] def elementMatcher (direction : Direction) (element : Element κ) (x : State input) :
    List (State input) :=
  match element with
  | .character character =>
    x.pass direction 1 fun passed => passed.all (sets.accepts flags character)
  | .group alternatives => disjunctionMatcher direction alternatives x
  | .capturingGroup number alternatives =>
    (disjunctionMatcher direction alternatives x).map (captureBetween direction number x)
  | .lookaround kind negate alternatives =>
    lookaroundMatcher negate (disjunctionMatcher (directionOf kind) alternatives x) x
  | .edge kind => if holdsAtEdge flags kind x then [x] else []
  | .wordBoundary negate => if isWordBoundary sets flags x != negate then [x] else []
  | .quantifier min max greedy element =>
    (repeatMatcher min max greedy
      (fun y => elementMatcher direction element (y.reset (groupNumbers element))) x).map Prod.snd
  | .backreference resolved => backreferenceMatcher sets flags direction resolved x

@[grind =] def alternativeMatcher (direction : Direction) (elements : List (Element κ)) (x : State input) :
    List (State input) :=
  match elements with
  | [] => [x]
  | element :: elements =>
    match direction with
    | .forward =>
      (elementMatcher .forward element x).flatMap (alternativeMatcher .forward elements)
    | .backward =>
      (alternativeMatcher .backward elements x).flatMap (elementMatcher .backward element)

@[grind =] def disjunctionMatcher (direction : Direction) (alternatives : List (List (Element κ)))
    (x : State input) : List (State input) :=
  match alternatives with
  | [] => []
  | elements :: alternatives =>
    alternativeMatcher direction elements x ++ disjunctionMatcher direction alternatives x

end

end Matchers

/-! ## The direction of matching -/

section Moves

variable {sets : CharacterSets κ} {flags : Flags} {input : List ℕ} {direction : Direction}

/-- Matching does not turn back. -/
def Moves (direction : Direction) (x y : State input) : Prop :=
  match direction with
  | .forward => x.endIndex ≤ y.endIndex
  | .backward => y.endIndex ≤ x.endIndex

theorem moves_of_eq {x y : State input} (same : y.endIndex = x.endIndex) : Moves direction x y := by
  cases direction with
  | forward => exact same.ge
  | backward => exact same.le

theorem Moves.trans {x y z : State input} (first : Moves direction x y)
    (second : Moves direction y z) : Moves direction x z := by
  cases direction with
  | forward => exact Nat.le_trans first second
  | backward => exact Nat.le_trans second first

theorem moves_pass {count : ℕ} {test : List ℕ → Bool} {x y : State input}
    (member : y ∈ x.pass direction count test) : Moves direction x y := by
  cases direction with
  | forward =>
      rw [State.pass] at member
      split at member
      · split at member
        · obtain rfl := List.mem_singleton.mp member
          exact Nat.le_add_right _ _
        · cases member
      · cases member
  | backward =>
      rw [State.pass] at member
      split at member
      · split at member
        · obtain rfl := List.mem_singleton.mp member
          exact Nat.sub_le _ _
        · cases member
      · cases member

theorem moves_times {m : State input → List (State input)}
    (moves : ∀ x, ∀ y ∈ m x, Moves direction x y) {k : ℕ} {x y : State input}
    (member : y ∈ times m k x) : Moves direction x y := by
  induction k generalizing x with
  | zero => exact moves_of_eq (by rw [List.mem_singleton.mp member])
  | succ k ih =>
      obtain ⟨z, next, member⟩ := List.mem_flatMap.mp member
      exact (moves x z next).trans (ih member)

theorem moves_repeatMatcher {m : State input → List (State input)}
    (moves : ∀ x, ∀ y ∈ m x, Moves direction x y) {min : ℕ} {max : Option ℕ} {greedy : Bool}
    {x : State input} {result : ℕ × State input}
    (member : result ∈ repeatMatcher min max greedy m x) : Moves direction x result.2 := by
  obtain ⟨y, required, member⟩ := List.mem_flatMap.mp member
  obtain ⟨k, -, -, more⟩ := mem_star.mp member
  refine (moves_times moves required).trans (moves_times ?_ more)
  intro x y member
  exact moves x y (List.mem_of_mem_filter member)

theorem moves_lookaround {negate : Bool} {found : List (State input)} {x y : State input}
    (member : y ∈ lookaroundMatcher negate found x) : y.endIndex = x.endIndex := by
  cases found with
  | nil =>
      cases negate with
      | true => rw [List.mem_singleton.mp member]
      | false => cases member
  | cons z found =>
      cases negate with
      | true => cases member
      | false => rw [List.mem_singleton.mp member]

theorem moves_backreference {number : ℕ} {x y : State input}
    (member : y ∈ backreferenceMatcher sets flags direction number x) : Moves direction x y := by
  unfold backreferenceMatcher at member
  split at member
  · exact moves_of_eq (by rw [List.mem_singleton.mp member])
  · exact moves_pass member

theorem captureBetween_endIndex {number : ℕ} {x y : State input} :
    (captureBetween direction number x y).endIndex = y.endIndex := by
  cases direction with
  | forward => rfl
  | backward => rfl

theorem eq_of_mem_ite {test : Bool} {x y : State input} (member : y ∈ if test then [x] else []) :
    y = x := by
  cases test with
  | true => exact List.mem_singleton.mp member
  | false => cases member

mutual

theorem moves_element (direction : Direction) (element : Element κ) (x y : State input)
    (member : y ∈ elementMatcher sets flags direction element x) : Moves direction x y := by
  cases element with
  | character character => exact moves_pass member
  | group alternatives => exact moves_disjunction direction alternatives x y member
  | capturingGroup number alternatives =>
      obtain ⟨z, found, rfl⟩ := List.mem_map.mp member
      exact (moves_disjunction direction alternatives x z found).trans
        (moves_of_eq captureBetween_endIndex)
  | lookaround kind negate alternatives => exact moves_of_eq (moves_lookaround member)
  | edge kind => exact moves_of_eq (by rw [eq_of_mem_ite member])
  | wordBoundary negate => exact moves_of_eq (by rw [eq_of_mem_ite member])
  | quantifier min max greedy element =>
      obtain ⟨result, found, rfl⟩ := List.mem_map.mp member
      refine moves_repeatMatcher (fun y z next => ?_) found
      exact moves_element direction element (y.reset (groupNumbers element)) z next
  | backreference resolved => exact moves_backreference member

theorem moves_alternative (direction : Direction) (elements : List (Element κ))
    (x y : State input) (member : y ∈ alternativeMatcher sets flags direction elements x) :
    Moves direction x y := by
  cases elements with
  | nil => exact moves_of_eq (by rw [List.mem_singleton.mp member])
  | cons element elements =>
      cases direction with
      | forward =>
          obtain ⟨z, first, second⟩ := List.mem_flatMap.mp member
          exact (moves_element .forward element x z first).trans
            (moves_alternative .forward elements z y second)
      | backward =>
          obtain ⟨z, first, second⟩ := List.mem_flatMap.mp member
          exact (moves_alternative .backward elements x z first).trans
            (moves_element .backward element z y second)

theorem moves_disjunction (direction : Direction) (alternatives : List (List (Element κ)))
    (x y : State input) (member : y ∈ disjunctionMatcher sets flags direction alternatives x) :
    Moves direction x y := by
  cases alternatives with
  | nil => cases member
  | cons elements alternatives =>
      obtain here | further := List.mem_append.mp member
      · exact moves_alternative direction elements x y here
      · exact moves_disjunction direction alternatives x y further

end

/-- How far matching has come. -/
def rank (direction : Direction) (x : State input) : ℕ :=
  match direction with
  | .forward => x.endIndex
  | .backward => input.length - x.endIndex

theorem rank_le (x : State input) : rank direction x ≤ input.length := by
  cases direction with
  | forward => exact x.inside
  | backward => exact Nat.sub_le _ _

theorem rank_lt_of_advancing {m : State input → List (State input)}
    (moves : ∀ x, ∀ y ∈ m x, Moves direction x y) (x y : State input) (member : y ∈ advancing m x) :
    rank direction x < rank direction y := by
  obtain ⟨member, differ⟩ := List.mem_filter.mp member
  have differ := of_decide_eq_true differ
  have moved := moves x y member
  have inside := x.inside
  cases direction with
  | forward => exact Nat.lt_of_le_of_ne moved (Ne.symm differ)
  | backward =>
      have further := Nat.lt_of_le_of_ne moved differ
      change input.length - x.endIndex < input.length - y.endIndex
      omega

variable (sets flags) in
/-- An iteration of a quantifier first forgets what the groups in its element have captured. -/
def iteration (direction : Direction) (element : Element κ) (x : State input) :
    List (State input) :=
  elementMatcher sets flags direction element (x.reset (groupNumbers element))

theorem moves_iteration {element : Element κ} (x y : State input)
    (member : y ∈ iteration sets flags direction element x) : Moves direction x y :=
  moves_element direction element (x.reset (groupNumbers element)) y member

/-- Iterations are limited by their greatest number only. -/
theorem star_optionalIterations_some {element : Element κ} {min max n : ℕ} {greedy : Bool}
    {x : State input} :
    star (advancing (iteration sets flags direction element)) greedy
      (optionalIterations input min (some max)) n x =
      star (advancing (iteration sets flags direction element)) greedy (max - min) n x := by
  obtain few | many := Nat.le_total (max - min) input.length
  · rw [optionalIterations, Nat.min_eq_left few]
  · rw [optionalIterations, Nat.min_eq_right many,
      star_of_limit (rank_lt_of_advancing moves_iteration) rank_le many]

/-- Without a greatest number, there can always be a further iteration. -/
theorem star_optionalIterations_none {element : Element κ} {min n : ℕ} {greedy : Bool}
    {x : State input} :
    star (advancing (iteration sets flags direction element)) greedy
      (optionalIterations input min none) n x =
      star (advancing (iteration sets flags direction element)) greedy
        (optionalIterations input min none + 1) n x :=
  (star_succ_of_limit (rank_lt_of_advancing moves_iteration) rank_le
    (Nat.le_add_left _ _)).symm

end Moves

/-! ## What an element captures -/

section Frame

variable {sets : CharacterSets κ} {flags : Flags} {input : List ℕ} {direction : Direction}
variable {n : ℕ}

theorem captures_pass {count : ℕ} {test : List ℕ → Bool} {x y : State input}
    (member : y ∈ x.pass direction count test) : y.captures = x.captures := by
  unfold State.pass at member
  cases direction with
  | forward =>
      simp only at member
      split at member
      · split at member
        · rw [List.mem_singleton.mp member]
        · cases member
      · cases member
  | backward =>
      simp only at member
      split at member
      · split at member
        · rw [List.mem_singleton.mp member]
        · cases member
      · cases member

theorem captures_backreference {number : ℕ} {x y : State input}
    (member : y ∈ backreferenceMatcher sets flags direction number x) :
    y.captures = x.captures := by
  unfold backreferenceMatcher at member
  split at member
  · rw [List.mem_singleton.mp member]
  · exact captures_pass member

theorem captures_lookaround {negate : Bool} {found : List (State input)} {x y : State input}
    (kept : ∀ z ∈ found, z.captures n = x.captures n)
    (member : y ∈ lookaroundMatcher negate found x) : y.captures n = x.captures n := by
  cases found with
  | nil =>
      cases negate with
      | true => rw [List.mem_singleton.mp member]
      | false => cases member
  | cons z found =>
      cases negate with
      | true => cases member
      | false =>
          rw [List.mem_singleton.mp member]
          exact kept z List.mem_cons_self

theorem captures_captureBetween {number : ℕ} {x y : State input} (different : n ≠ number) :
    (captureBetween direction number x y).captures n = y.captures n := by
  cases direction with
  | forward => exact Function.update_of_ne different ..
  | backward => exact Function.update_of_ne different ..

theorem captures_reset {numbers : List ℕ} {x : State input} (other : n ∉ numbers) :
    (x.reset numbers).captures n = x.captures n :=
  if_neg other

theorem captures_repeatMatcher {min : ℕ} {max : Option ℕ} {greedy : Bool}
    {m : State input → List (State input)}
    (kept : ∀ x, ∀ y ∈ m x, y.captures n = x.captures n) {x : State input}
    {result : ℕ × State input} (member : result ∈ repeatMatcher min max greedy m x) :
    result.2.captures n = x.captures n := by
  obtain ⟨y, required, member⟩ := List.mem_flatMap.mp member
  obtain ⟨k, -, -, more⟩ := mem_star.mp member
  refine invariant_of_mem_times (P := fun z => z.captures n = x.captures n) ?_ ?_ more
  · intro z same w next
    exact (kept z w (List.mem_of_mem_filter next)).trans same
  · refine invariant_of_mem_times (P := fun z => z.captures n = x.captures n) ?_ rfl required
    intro z same w next
    exact (kept z w next).trans same

mutual

/-- Matching an element leaves what the groups outside of it have captured. -/
theorem captures_element (direction : Direction) (element : Element κ) (x y : State input)
    (other : n ∉ groupNumbers element)
    (member : y ∈ elementMatcher sets flags direction element x) :
    y.captures n = x.captures n := by
  cases element with
  | character character => exact congrFun (captures_pass member) n
  | group alternatives => exact captures_disjunction direction alternatives x y other member
  | capturingGroup number alternatives =>
      obtain ⟨z, found, rfl⟩ := List.mem_map.mp member
      obtain ⟨different, other⟩ := not_or.mp (mt List.mem_cons.mpr other)
      exact (captures_captureBetween different).trans
        (captures_disjunction direction alternatives x z other found)
  | lookaround kind negate alternatives =>
      refine captures_lookaround (fun z found => ?_) member
      exact captures_disjunction (directionOf kind) alternatives x z other found
  | edge kind => rw [eq_of_mem_ite member]
  | wordBoundary negate => rw [eq_of_mem_ite member]
  | quantifier min max greedy element =>
      obtain ⟨result, found, rfl⟩ := List.mem_map.mp member
      refine captures_repeatMatcher (fun y z next => ?_) found
      exact (captures_element direction element (y.reset (groupNumbers element)) z other next).trans
        (captures_reset other)
  | backreference resolved => exact congrFun (captures_backreference member) n

theorem captures_alternative (direction : Direction) (elements : List (Element κ))
    (x y : State input) (other : n ∉ numbersOfElements elements)
    (member : y ∈ alternativeMatcher sets flags direction elements x) :
    y.captures n = x.captures n := by
  cases elements with
  | nil => rw [List.mem_singleton.mp member]
  | cons element elements =>
      obtain ⟨here, further⟩ := not_or.mp (mt List.mem_append.mpr other)
      cases direction with
      | forward =>
          obtain ⟨z, first, second⟩ := List.mem_flatMap.mp member
          exact (captures_alternative .forward elements z y further second).trans
            (captures_element .forward element x z here first)
      | backward =>
          obtain ⟨z, first, second⟩ := List.mem_flatMap.mp member
          exact (captures_element .backward element z y here second).trans
            (captures_alternative .backward elements x z further first)

theorem captures_disjunction (direction : Direction) (alternatives : List (List (Element κ)))
    (x y : State input) (other : n ∉ numbersOfAlternatives alternatives)
    (member : y ∈ disjunctionMatcher sets flags direction alternatives x) :
    y.captures n = x.captures n := by
  cases alternatives with
  | nil => cases member
  | cons elements alternatives =>
      obtain ⟨inHere, inFurther⟩ := not_or.mp (mt List.mem_append.mpr other)
      obtain here | further := List.mem_append.mp member
      · exact captures_alternative direction elements x y inHere here
      · exact captures_disjunction direction alternatives x y inFurther further

end

end Frame

/-! ## Matches of a pattern -/

section Matches

variable (sets : CharacterSets κ) (flags : Flags) {input : List ℕ}

/-- The states that an element leads to, each with the number of iterations if the element is a
quantifier. -/
def counted (element : Element κ) (x : State input) : List (ℕ × State input) :=
  match element with
  | .quantifier min max greedy element =>
    repeatMatcher min max greedy (iteration sets flags .forward element) x
  | element => (elementMatcher sets flags .forward element x).map (1, ·)

/-- The states that an alternative leads to, with the iterations of its elements. -/
def traced : List (Element κ) → State input → List (List ℕ × State input)
  | [], x => [([], x)]
  | element :: elements, x =>
    (counted sets flags element x).flatMap fun first =>
      (traced elements first.2).map fun rest => (first.1 :: rest.1, rest.2)

/-- A match goes through one of the alternatives of the pattern. -/
structure Match (input : List ℕ) where
  index : ℕ
  alternative : ℕ
  iterations : List ℕ
  state : State input

/-- The first way to match some alternatives, which are numbered from `k`. -/
def firstMatch (k : ℕ) : List (List (Element κ)) → State input → Option (Match input)
  | [], _ => none
  | elements :: alternatives, x =>
    ((traced sets flags elements x).head?.map fun found => ⟨x.endIndex, k, found.1, found.2⟩).or
      (firstMatch (k + 1) alternatives x)

def State.initial (index : Fin (input.length + 1)) : State input where
  endIndex := index
  inside := Nat.le_of_lt_succ index.isLt
  captures := fun _ => none

variable (input) in
/-- Where a match can begin. -/
def startIndices (lastIndex : ℕ) : List (Fin (input.length + 1)) :=
  let lastIndex := if flags.isGlobal || flags.sticky then lastIndex else 0
  (List.finRange (input.length + 1)).filter fun index =>
    if flags.sticky then index.val = lastIndex else lastIndex ≤ index.val

variable (input) in
/-- The match that is found, from the property `lastIndex` of the regular expression on. -/
def exec (pattern : List (List (Element κ))) (lastIndex : ℕ) : Option (Match input) :=
  (startIndices flags input lastIndex).findSome? fun index =>
    firstMatch sets flags 0 pattern (.initial index)

variable {sets flags}

theorem map_snd_counted (element : Element κ) (x : State input) :
    (counted sets flags element x).map Prod.snd = elementMatcher sets flags .forward element x := by
  cases element with
  | quantifier min max greedy element => rfl
  | _ => simp [counted, Function.comp_def]

theorem map_snd_traced (elements : List (Element κ)) (x : State input) :
    (traced sets flags elements x).map Prod.snd =
      alternativeMatcher sets flags .forward elements x := by
  induction elements generalizing x with
  | nil => rfl
  | cons element elements ih =>
      rw [traced, alternativeMatcher, ← map_snd_counted, List.map_flatMap, List.flatMap_map]
      refine List.flatMap_congr fun first _ => ?_
      rw [List.map_map, ← ih]
      rfl

/-- Counting iterations does not change what is found. -/
theorem map_firstMatch (k : ℕ) (alternatives : List (List (Element κ))) (x : State input) :
    (firstMatch sets flags k alternatives x).map Match.state =
      (disjunctionMatcher sets flags .forward alternatives x).head? := by
  induction alternatives generalizing k with
  | nil => rfl
  | cons elements alternatives ih =>
      rw [firstMatch, disjunctionMatcher, List.head?_append, ← ih (k + 1), ← map_snd_traced,
        List.head?_map]
      cases (traced sets flags elements x).head? with
      | none => rfl
      | some found => rfl

/-- Where a match begins, where it ends and what its groups have captured. -/
theorem map_exec (pattern : List (List (Element κ))) (lastIndex : ℕ) :
    (exec sets flags input pattern lastIndex).map (fun found => (found.index, found.state)) =
      (startIndices flags input lastIndex).findSome? fun index =>
        (disjunctionMatcher sets flags .forward pattern (.initial index)).head?.map
          ((index : ℕ), ·) := by
  have here : ∀ (k : ℕ) (alternatives : List (List (Element κ))) (x : State input),
      ∀ found ∈ firstMatch sets flags k alternatives x, found.index = x.endIndex := by
    intro k alternatives x found first
    induction alternatives generalizing k with
    | nil => cases first
    | cons elements alternatives ih =>
        obtain isHere | ⟨-, further⟩ := Option.or_eq_some_iff.mp first
        · obtain ⟨result, -, rfl⟩ := Option.map_eq_some_iff.mp isHere
          rfl
        · exact ih (k + 1) further
  rw [exec, List.map_findSome?]
  congr 1
  funext index
  rw [← map_firstMatch 0, Function.comp_apply, Option.map_map]
  refine Option.map_congr fun found first => ?_
  exact congrArg (·, found.state) (here 0 pattern _ found first)

/-- A match that is found leads to a state behind the pattern. -/
theorem mem_of_exec {pattern : List (List (Element κ))} {lastIndex : ℕ} {found : Match input}
    (matched : exec sets flags input pattern lastIndex = some found) :
    ∃ index ∈ startIndices flags input lastIndex,
      found.state ∈ disjunctionMatcher sets flags .forward pattern (.initial index) := by
  obtain ⟨index, starts, first⟩ := List.exists_of_findSome?_eq_some matched
  refine ⟨index, starts, List.mem_of_mem_head? ?_⟩
  rw [← map_firstMatch 0, first]
  rfl

/-- A match is found if there is a state behind the pattern. -/
theorem isSome_exec {pattern : List (List (Element κ))} {lastIndex : ℕ}
    {index : Fin (input.length + 1)} (starts : index ∈ startIndices flags input lastIndex)
    {y : State input}
    (member : y ∈ disjunctionMatcher sets flags .forward pattern (.initial index)) :
    (exec sets flags input pattern lastIndex).isSome := by
  refine List.findSome?_isSome_iff.mpr ⟨index, starts, ?_⟩
  rw [← Option.isSome_map, map_firstMatch, List.isSome_head?]
  exact List.ne_nil_of_mem member

end Matches

/-! ## Runs of characters -/

section Characters

variable {sets : CharacterSets κ} {flags : Flags} {input : List ℕ} {x y : State input}
variable {character : κ}

theorem slice_add (first count : ℕ) :
    slice input first (first + count) = (input.drop first).take count :=
  List.take_drop.symm

theorem slice_append {first middle last : ℕ} (before : first ≤ middle) (behind : middle ≤ last) :
    slice input first middle ++ slice input middle last = slice input first last := by
  obtain ⟨k, rfl⟩ := Nat.exists_eq_add_of_le before
  obtain ⟨l, rfl⟩ := Nat.exists_eq_add_of_le behind
  rw [slice_add, slice_add, Nat.add_assoc, slice_add, List.take_add, List.drop_drop]

theorem slice_self (first : ℕ) : slice input first first = [] :=
  List.drop_eq_nil_of_le (List.length_take_le _ _)

/-- The states behind some characters that the set accepts, with the same captures. -/
def Passes (sets : CharacterSets κ) (flags : Flags) (character : κ) (x y : State input) : Prop :=
  x.endIndex ≤ y.endIndex ∧ y.captures = x.captures ∧
    ∀ unit ∈ slice input x.endIndex y.endIndex, sets.accepts flags character unit = true

theorem Passes.trans {z : State input} (first : Passes sets flags character x y)
    (second : Passes sets flags character y z) : Passes sets flags character x z := by
  obtain ⟨le, captures, accepted⟩ := first
  obtain ⟨le', captures', accepted'⟩ := second
  refine ⟨le.trans le', captures'.trans captures, ?_⟩
  rw [← slice_append le le']
  exact List.forall_mem_append.mpr ⟨accepted, accepted'⟩

theorem mem_character : y ∈ elementMatcher sets flags .forward (.character character) x ↔
    y.endIndex = x.endIndex + 1 ∧ Passes sets flags character x y := by
  rw [elementMatcher, State.pass]
  constructor
  · intro member
    split at member
    · split at member
      next accepted =>
        obtain rfl := List.mem_singleton.mp member
        exact ⟨rfl, Nat.le_succ _, rfl, List.all_eq_true.mp accepted⟩
      · cases member
    · cases member
  · rintro ⟨next, -, captures, accepted⟩
    have inside : x.endIndex + 1 ≤ input.length := next ▸ y.inside
    rw [next] at accepted
    rw [dif_pos inside, if_pos (List.all_eq_true.mpr accepted), List.mem_singleton]
    exact State.ext next captures

/-- A step of a quantified character. -/
theorem mem_advancing_character :
    y ∈ advancing (iteration sets flags .forward (.character character)) x ↔
      y.endIndex = x.endIndex + 1 ∧ Passes sets flags character x y := by
  have reset : x.reset (groupNumbers (.character character)) = x := by
    simp [State.reset, groupNumbers]
  rw [advancing, iteration, reset, List.mem_filter, mem_character]
  constructor
  · exact And.left
  · rintro ⟨next, passes⟩
    exact ⟨⟨next, passes⟩, by simp [next]⟩

theorem mem_times_character {k : ℕ} :
    y ∈ times (advancing (iteration sets flags .forward (.character character))) k x ↔
      y.endIndex = x.endIndex + k ∧ Passes sets flags character x y := by
  induction k generalizing x with
  | zero =>
      rw [times, List.mem_singleton]
      constructor
      · rintro rfl
        exact ⟨rfl, le_rfl, rfl, by simp [slice_self]⟩
      · rintro ⟨same, -, captures, -⟩
        exact State.ext same captures
  | succ k ih =>
      rw [times, List.mem_flatMap]
      constructor
      · rintro ⟨z, next, member⟩
        obtain ⟨ends, passes⟩ := mem_advancing_character.1 next
        obtain ⟨ends', passes'⟩ := ih.mp member
        exact ⟨by omega, passes.trans passes'⟩
      · rintro ⟨ends, le, captures, accepted⟩
        have inside := y.inside
        let z : State input := ⟨x.endIndex + 1, by omega, x.captures⟩
        have split : slice input x.endIndex z.endIndex ++ slice input z.endIndex y.endIndex =
            slice input x.endIndex y.endIndex :=
          slice_append (Nat.le_succ _) (by change x.endIndex + 1 ≤ _; omega)
        rw [← split] at accepted
        obtain ⟨here, further⟩ := List.forall_mem_append.mp accepted
        refine ⟨z, mem_advancing_character.2 ⟨rfl, Nat.le_succ _, rfl, here⟩, ?_⟩
        refine ih.mpr ⟨?_, ?_, captures, further⟩
        · change y.endIndex = x.endIndex + 1 + k
          omega
        · change x.endIndex + 1 ≤ y.endIndex
          omega

/-- A quantified character goes on over any number of characters that it accepts. -/
theorem mem_characters {greedy : Bool} :
    y ∈ elementMatcher sets flags .forward (.quantifier 0 none greedy (.character character)) x ↔
      Passes sets flags character x y := by
  rw [elementMatcher, repeatMatcher, times, List.flatMap_singleton, List.mem_map]
  constructor
  · rintro ⟨⟨n, y⟩, inStar, rfl⟩
    obtain ⟨k, -, -, more⟩ := mem_star.mp inStar
    exact (mem_times_character.1 more).2
  · intro passes
    obtain ⟨k, ends⟩ := Nat.exists_eq_add_of_le passes.1
    have inside := y.inside
    refine ⟨(0 + k, y), mem_star.mpr ⟨k, (?_ : k ≤ input.length), rfl, ?_⟩, rfl⟩
    · omega
    · exact mem_times_character.2 ⟨ends, passes⟩

theorem captures_capture (number first last : ℕ) :
    (x.capture number first last).captures number = some (first, last) :=
  Function.update_self ..

theorem captures_capture_of_ne {number other : ℕ} (different : other ≠ number) (first last : ℕ) :
    (x.capture number first last).captures other = x.captures other :=
  Function.update_of_ne different ..

theorem mem_capturingGroup {number : ℕ} {element : Element κ} :
    y ∈ elementMatcher sets flags .forward (.capturingGroup number [[element]]) x ↔
      ∃ z ∈ elementMatcher sets flags .forward element x,
        y = z.capture number x.endIndex z.endIndex := by
  simp [elementMatcher, disjunctionMatcher, alternativeMatcher, captureBetween, eq_comm]

end Characters

end SonarJS.Regex.Matching
