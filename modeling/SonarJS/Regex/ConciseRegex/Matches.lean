import SonarJS.Regex.ConciseRegex.Braces
import SonarJS.Regex.ConciseRegex.Characters

/-!
# The matches of a concise pattern

The suggestions are followed from the inside out. Leaving a quantifier away leaves away that its
groups are reset, which is the same where they have captured nothing yet: this is so whenever an
element is tried, since no two groups have the same number and an iteration resets all groups in
it.
-/

namespace SonarJS.Regex.ConciseRegex

open Backtracking Matching

variable {unicode : Unicode} {flags : Matching.Flags} {input : List ℕ} {direction : Direction}

/-- A node at which the suggestions of the rule are right. -/
def Clear (flags : Matching.Flags) (input : List ℕ) : Listened → Prop
  | .characterClass node => isMistakenForAny node = true →
    flags.dotAll = true ∨ ∀ c ∈ input, isLineTerminator c = false
  | .quantifier node element => isMisread node element = false

/-- Some groups have captured nothing. -/
def Fresh (numbers : List ℕ) (x : State input) : Prop := ∀ n ∈ numbers, x.captures n = none

/-! ## Patterns without reports -/

mutual

theorem conciseAtom_of_unreported (atom : Atom)
    (unreported : (nodesOfAtom atom).flatMap (onEnter flags) = []) :
    conciseAtom flags atom = atom := by
  cases atom with
  | characters node =>
      cases node with
      | characterClass node =>
          have nothing : onCharacterClassEnter flags node = [] := by
            simpa [nodesOfAtom, onEnter] using unreported
          rw [conciseAtom, conciseCharacters, nothing]
          rfl
      | character node => rfl
      | characterSet set => rfl
  | group alternatives =>
      rw [conciseAtom, conciseAlternatives_of_unreported alternatives unreported]
  | capturingGroup name number alternatives =>
      rw [conciseAtom, conciseAlternatives_of_unreported alternatives unreported]
  | lookaround kind negate alternatives =>
      rw [conciseAtom, conciseAlternatives_of_unreported alternatives unreported]
  | edge kind => rfl
  | wordBoundary negate => rfl
  | backreference name resolved => rfl

theorem conciseTerm_of_unreported (term : Term)
    (unreported : (nodesOfTerm term).flatMap (onEnter flags) = []) :
    conciseTerm flags term = [term] := by
  cases term with
  | atom atom => rw [conciseTerm, conciseAtom_of_unreported atom unreported]
  | quantified quantifier element =>
      obtain ⟨here, inside⟩ := List.append_eq_nil_iff.mp unreported
      have nothing : checkBulkyQuantifier quantifier element = none :=
        Option.toList_eq_nil_iff.mp here
      rw [conciseTerm, nothing, conciseAtom_of_unreported element inside]
      rfl

theorem conciseElements_of_unreported (terms : List Term)
    (unreported : (nodesOfElements terms).flatMap (onEnter flags) = []) :
    conciseElements flags terms = terms := by
  cases terms with
  | nil => rfl
  | cons term terms =>
      rw [nodesOfElements, List.flatMap_append] at unreported
      obtain ⟨here, further⟩ := List.append_eq_nil_iff.mp unreported
      rw [conciseElements, conciseTerm_of_unreported term here,
        conciseElements_of_unreported terms further]
      rfl

/-- Nothing changes where nothing is reported. -/
theorem conciseAlternatives_of_unreported (alternatives : List (List Term))
    (unreported : reports flags alternatives = []) :
    conciseAlternatives flags alternatives = alternatives := by
  cases alternatives with
  | nil => rfl
  | cons terms alternatives =>
      rw [reports, nodesOfAlternatives, List.flatMap_append] at unreported
      obtain ⟨here, further⟩ := List.append_eq_nil_iff.mp unreported
      rw [conciseAlternatives, conciseElements_of_unreported terms here,
        conciseAlternatives_of_unreported alternatives further]

end

/-! ## Sequences -/

theorem elementsOf_append (terms terms' : List Term) :
    elementsOf (terms ++ terms') = elementsOf terms ++ elementsOf terms' := by
  induction terms with
  | nil => rfl
  | cons term terms ih => exact congrArg (term.element :: ·) ih

theorem alternativeMatcher_append_forward {κ : Type*} {sets : CharacterSets κ}
    (before behind : List (Element κ)) (x : State input) :
    alternativeMatcher sets flags .forward (before ++ behind) x =
      (alternativeMatcher sets flags .forward before x).flatMap
        (alternativeMatcher sets flags .forward behind) := by
  induction before generalizing x with
  | nil => simp [alternativeMatcher]
  | cons element before ih =>
      rw [List.cons_append, alternativeMatcher, alternativeMatcher, List.flatMap_assoc]
      exact List.flatMap_congr fun y _ => ih y

theorem alternativeMatcher_append_backward {κ : Type*} {sets : CharacterSets κ}
    (before behind : List (Element κ)) (x : State input) :
    alternativeMatcher sets flags .backward (before ++ behind) x =
      (alternativeMatcher sets flags .backward behind x).flatMap
        (alternativeMatcher sets flags .backward before) := by
  induction before generalizing x with
  | nil => simp [alternativeMatcher]
  | cons element before ih =>
      rw [List.cons_append, alternativeMatcher, ih, List.flatMap_assoc]
      exact List.flatMap_congr fun y _ => (by rw [alternativeMatcher])

theorem alternativeMatcher_singleton {κ : Type*} {sets : CharacterSets κ} (element : Element κ)
    (x : State input) :
    alternativeMatcher sets flags direction [element] x =
      elementMatcher sets flags direction element x := by
  cases direction with
  | forward => simp [alternativeMatcher]
  | backward => simp [alternativeMatcher]

theorem numbersOfElements_append {κ : Type*} (before behind : List (Element κ)) :
    numbersOfElements (before ++ behind) =
      numbersOfElements before ++ numbersOfElements behind := by
  induction before with
  | nil => rfl
  | cons element before ih =>
      rw [List.cons_append, numbersOfElements, numbersOfElements, ih, List.append_assoc]

/-! ## The groups that are left -/

theorem numbersOf_follow {quantifier : Quantifier} {element : Atom}
    (suggestion : Option Suggestion) :
    numbersOfElements (elementsOf (follow quantifier element suggestion)) ⊆
      groupNumbers element.element := by
  unfold follow
  split
  · simp [elementsOf, numbersOfElements, Term.element, groupNumbers]
  · exact List.nil_subset _
  · simp [elementsOf, numbersOfElements, Term.element]
  · simp [elementsOf, numbersOfElements, Term.element, groupNumbers]

mutual

theorem groupNumbers_conciseAtom (atom : Atom) :
    groupNumbers (conciseAtom flags atom).element ⊆ groupNumbers atom.element := by
  cases atom with
  | group alternatives | lookaround kind negate alternatives =>
      exact numbersOf_conciseAlternatives alternatives
  | capturingGroup name number alternatives =>
      exact List.cons_subset_cons _ (numbersOf_conciseAlternatives alternatives)
  | characters node => exact List.nil_subset _
  | edge kind => exact List.nil_subset _
  | wordBoundary negate => exact List.nil_subset _
  | backreference name resolved => exact List.nil_subset _

theorem numbersOf_conciseTerm (term : Term) :
    numbersOfElements (elementsOf (conciseTerm flags term)) ⊆ groupNumbers term.element := by
  cases term with
  | atom atom =>
      refine List.append_subset.mpr ⟨groupNumbers_conciseAtom atom, List.nil_subset _⟩
  | quantified quantifier element =>
      exact List.Subset.trans (numbersOf_follow _) (groupNumbers_conciseAtom element)

theorem numbersOf_conciseElements (terms : List Term) :
    numbersOfElements (elementsOf (conciseElements flags terms)) ⊆
      numbersOfElements (elementsOf terms) := by
  cases terms with
  | nil => exact List.nil_subset _
  | cons term terms =>
      rw [conciseElements, elementsOf_append, numbersOfElements_append]
      refine List.append_subset.mpr ⟨?_, ?_⟩
      · exact List.subset_append_of_subset_left _ (numbersOf_conciseTerm term)
      · exact List.subset_append_of_subset_right _ (numbersOf_conciseElements terms)

theorem numbersOf_conciseAlternatives (alternatives : List (List Term)) :
    numbersOfAlternatives (alternativesOf (conciseAlternatives flags alternatives)) ⊆
      numbersOfAlternatives (alternativesOf alternatives) := by
  cases alternatives with
  | nil => exact List.nil_subset _
  | cons terms alternatives =>
      refine List.append_subset.mpr ⟨?_, ?_⟩
      · exact List.subset_append_of_subset_left _ (numbersOf_conciseElements terms)
      · exact List.subset_append_of_subset_right _ (numbersOf_conciseAlternatives alternatives)

end

/-! ## Quantifiers -/

section Quantifiers

variable {κ : Type*} {sets : CharacterSets κ} {min : ℕ} {max : Option ℕ} {greedy : Bool}

theorem repeatMatcher_zero {m : State input → List (State input)} (x : State input) :
    repeatMatcher 0 (some 0) greedy m x = [(0, x)] := by
  simp [repeatMatcher, times, optionalIterations, Backtracking.star]

theorem repeatMatcher_one {m : State input → List (State input)} (x : State input) :
    repeatMatcher 1 (some 1) greedy m x = (m x).map (1, ·) := by
  simp [repeatMatcher, times, optionalIterations, Backtracking.star, ← List.map_eq_flatMap]

theorem reset_of_fresh {numbers : List ℕ} {x : State input} (fresh : Fresh numbers x) :
    x.reset numbers = x := by
  refine State.ext rfl (funext fun n => ?_)
  by_cases inside : n ∈ numbers
  · exact (if_pos inside).trans (fresh n inside).symm
  · exact if_neg inside

theorem fresh_reset {numbers : List ℕ} (x : State input) : Fresh numbers (x.reset numbers) :=
  fun _ inside => if_pos inside

/-- Two elements that match the same once their groups are reset match the same if they are
repeated. The groups that only the first one has never capture anything. -/
theorem repeatMatcher_congr {element element' : Element κ}
    (subset : groupNumbers element' ⊆ groupNumbers element)
    (same : ∀ x : State input, Fresh (groupNumbers element) x →
      elementMatcher sets flags direction element' x =
        elementMatcher sets flags direction element x)
    {x : State input} (fresh : Fresh (groupNumbers element) x) :
    repeatMatcher min max greedy (iteration sets flags direction element') x =
      repeatMatcher min max greedy (iteration sets flags direction element) x := by
  let P : State input → Prop := fun y =>
    ∀ n ∈ groupNumbers element, n ∉ groupNumbers element' → y.captures n = none
  have agree : ∀ y, P y → iteration sets flags direction element' y =
      iteration sets flags direction element y := by
    intro y left
    have reset : y.reset (groupNumbers element') = y.reset (groupNumbers element) := by
      refine State.ext rfl (funext fun n => ?_)
      by_cases kept : n ∈ groupNumbers element'
      · exact (if_pos kept).trans (if_pos (subset kept)).symm
      · by_cases inside : n ∈ groupNumbers element
        · exact (if_neg kept).trans ((left n inside kept).trans (if_pos inside).symm)
        · exact (if_neg kept).trans (if_neg inside).symm
    rw [iteration, iteration, reset]
    exact same _ (fresh_reset y)
  have kept : ∀ y, P y → ∀ z ∈ iteration sets flags direction element' y, P z := by
    intro y left z next n inside notKept
    rw [captures_element direction element' _ z notKept next, captures_reset notKept]
    exact left n inside notKept
  have advanced : ∀ y, P y → advancing (iteration sets flags direction element') y =
      advancing (iteration sets flags direction element) y := by
    intro y left
    rw [advancing, advancing, agree y left]
  have advancedKept : ∀ y, P y →
      ∀ z ∈ advancing (iteration sets flags direction element') y, P z :=
    fun y left z next => kept y left z (List.mem_of_mem_filter next)
  have start : P x := fun n inside _ => fresh n inside
  rw [repeatMatcher, repeatMatcher, ← times_congr agree kept start]
  refine List.flatMap_congr fun y required => star_congr advanced advancedKept ?_
  exact invariant_of_mem_times kept start required

end Quantifiers

/-! ## The same states are found -/

theorem pass_congr {f g : ℕ → Bool} (same : ∀ c ∈ input, f c = g c) (x : State input) :
    x.pass direction 1 (·.all f) = x.pass direction 1 (·.all g) := by
  have slices : ∀ first last, (slice input first last).all f = (slice input first last).all g := by
    intro first last
    rw [Bool.eq_iff_iff, List.all_eq_true, List.all_eq_true]
    refine forall₂_congr fun c member => ?_
    rw [same c (List.mem_of_mem_take (List.mem_of_mem_drop member))]
  cases direction with
  | forward => simp only [State.pass, slices]
  | backward => simp only [State.pass, slices]

theorem isClear_of_clear {node : Characters}
    (clear : ∀ listened ∈ nodesOfAtom (.characters node), Clear flags input listened) :
    ∀ c ∈ input, IsClear flags c node := by
  intro c member
  cases node with
  | character node => trivial
  | characterSet set => trivial
  | characterClass node =>
      intro mistaken
      exact (clear _ (List.mem_singleton_self _) mistaken).imp_right fun none => none c member

/-- Following what is suggested for a quantified element. -/
theorem alternativeMatcher_follow {quantifier : Quantifier} {element element' : Atom}
    (subset : groupNumbers element'.element ⊆ groupNumbers element.element)
    (same : ∀ x : State input, Fresh (groupNumbers element.element) x →
      elementMatcher unicode.sets flags direction element'.element x =
        elementMatcher unicode.sets flags direction element.element x)
    {suggestion : Option Suggestion}
    (right : ∀ suggested ∈ suggestion, Suggests quantifier.bounds suggested)
    {x : State input} (fresh : Fresh (groupNumbers element.element) x) :
    alternativeMatcher unicode.sets flags direction
        (elementsOf (follow quantifier element' suggestion)) x =
      elementMatcher unicode.sets flags direction
        (Term.quantified quantifier element).element x := by
  have repeated : ∀ bounds : Bounds, bounds.min = quantifier.bounds.min →
      bounds.max = quantifier.bounds.max →
        alternativeMatcher unicode.sets flags direction
            (elementsOf [.quantified ⟨bounds, quantifier.greedy⟩ element']) x =
          elementMatcher unicode.sets flags direction
            (Term.quantified quantifier element).element x := by
    intro bounds min max
    rw [elementsOf, elementsOf, alternativeMatcher_singleton, Term.element, Term.element, min, max]
    exact congrArg (List.map Prod.snd) (repeatMatcher_congr subset same fresh)
  cases suggestion with
  | none => exact repeated _ rfl rfl
  | some suggested =>
      cases right suggested rfl with
      | bounds concise min max => exact repeated concise min max
      | removeElement min max =>
          rw [Term.element, elementMatcher, min, max, repeatMatcher_zero]
          cases direction <;> rfl
      | removeQuantifier min max =>
          rw [Term.element, elementMatcher, min, max, repeatMatcher_one, List.map_map,
            reset_of_fresh fresh, follow, elementsOf, elementsOf, alternativeMatcher_singleton,
            Term.element, same x fresh]
          exact (List.map_id _).symm

mutual

theorem elementMatcher_concise (direction : Direction) (atom : Atom)
    (clear : ∀ listened ∈ nodesOfAtom atom, Clear flags input listened)
    (nodup : (groupNumbers atom.element).Nodup) (x : State input)
    (fresh : Fresh (groupNumbers atom.element) x) :
    elementMatcher unicode.sets flags direction (conciseAtom flags atom).element x =
      elementMatcher unicode.sets flags direction atom.element x := by
  cases atom with
  | characters node =>
      refine pass_congr (fun c member => ?_) x
      exact decide_eq_decide.mpr (accepts_conciseCharacters (isClear_of_clear clear c member))
  | group alternatives =>
      exact disjunctionMatcher_concise direction alternatives clear nodup x fresh
  | capturingGroup name number alternatives =>
      refine congrArg (List.map _) (disjunctionMatcher_concise direction alternatives clear
        (List.nodup_cons.mp nodup).2 x ?_)
      exact fun n inside => fresh n (List.mem_cons_of_mem _ inside)
  | lookaround kind negate alternatives =>
      exact congrArg (lookaroundMatcher negate · x)
        (disjunctionMatcher_concise (directionOf kind) alternatives clear nodup x fresh)
  | edge kind => rfl
  | wordBoundary negate => rfl
  | backreference name resolved => rfl

theorem termMatcher_concise (direction : Direction) (term : Term)
    (clear : ∀ listened ∈ nodesOfTerm term, Clear flags input listened)
    (nodup : (groupNumbers term.element).Nodup) (x : State input)
    (fresh : Fresh (groupNumbers term.element) x) :
    alternativeMatcher unicode.sets flags direction (elementsOf (conciseTerm flags term)) x =
      elementMatcher unicode.sets flags direction term.element x := by
  cases term with
  | atom atom =>
      rw [conciseTerm, elementsOf, elementsOf, alternativeMatcher_singleton]
      exact elementMatcher_concise direction atom clear nodup x fresh
  | quantified quantifier element =>
      obtain ⟨here, inside⟩ := List.forall_mem_cons.mp clear
      refine alternativeMatcher_follow (groupNumbers_conciseAtom element) ?_ ?_ fresh
      · intro y fresh
        exact elementMatcher_concise direction element inside nodup y fresh
      · intro suggested isSuggested
        obtain ⟨report, isReport, rfl⟩ := Option.map_eq_some_iff.mp isSuggested
        exact suggests_of_check here isReport

theorem elementsMatcher_concise (direction : Direction) (terms : List Term)
    (clear : ∀ listened ∈ nodesOfElements terms, Clear flags input listened)
    (nodup : (numbersOfElements (elementsOf terms)).Nodup) (x : State input)
    (fresh : Fresh (numbersOfElements (elementsOf terms)) x) :
    alternativeMatcher unicode.sets flags direction
        (elementsOf (conciseElements flags terms)) x =
      alternativeMatcher unicode.sets flags direction (elementsOf terms) x := by
  cases terms with
  | nil => rfl
  | cons term terms =>
      obtain ⟨here, further⟩ := List.forall_mem_append.mp clear
      obtain ⟨nodupHere, nodupFurther, apart⟩ := List.nodup_append.mp nodup
      obtain ⟨freshHere, freshFurther⟩ := List.forall_mem_append.mp fresh
      rw [conciseElements, elementsOf_append, elementsOf]
      cases direction with
      | forward =>
          rw [alternativeMatcher_append_forward, alternativeMatcher,
            termMatcher_concise .forward term here nodupHere x freshHere]
          refine List.flatMap_congr fun y next => ?_
          refine elementsMatcher_concise .forward terms further nodupFurther y fun n inside => ?_
          rw [captures_element .forward _ x y (fun isHere => apart n isHere n inside rfl) next]
          exact freshFurther n inside
      | backward =>
          rw [alternativeMatcher_append_backward, alternativeMatcher,
            elementsMatcher_concise .backward terms further nodupFurther x freshFurther]
          refine List.flatMap_congr fun y next => ?_
          refine termMatcher_concise .backward term here nodupHere y fun n inside => ?_
          rw [captures_alternative .backward _ x y (fun isFurther => apart n inside n isFurther rfl)
            next]
          exact freshHere n inside

theorem disjunctionMatcher_concise (direction : Direction) (alternatives : List (List Term))
    (clear : ∀ listened ∈ nodesOfAlternatives alternatives, Clear flags input listened)
    (nodup : (numbersOfAlternatives (alternativesOf alternatives)).Nodup) (x : State input)
    (fresh : Fresh (numbersOfAlternatives (alternativesOf alternatives)) x) :
    disjunctionMatcher unicode.sets flags direction
        (alternativesOf (conciseAlternatives flags alternatives)) x =
      disjunctionMatcher unicode.sets flags direction (alternativesOf alternatives) x := by
  cases alternatives with
  | nil => rfl
  | cons terms alternatives =>
      obtain ⟨here, further⟩ := List.forall_mem_append.mp clear
      obtain ⟨nodupHere, nodupFurther, -⟩ := List.nodup_append.mp nodup
      obtain ⟨freshHere, freshFurther⟩ := List.forall_mem_append.mp fresh
      rw [conciseAlternatives, alternativesOf, alternativesOf, disjunctionMatcher,
        disjunctionMatcher, elementsMatcher_concise direction terms here nodupHere x freshHere,
        disjunctionMatcher_concise direction alternatives further nodupFurther x freshFurther]

end

/-- ASCII letters have two forms, other characters one. -/
def Unicode.ascii : Unicode where
  canonicalize flags c := if flags.ignoreCase ∧ 0x61 ≤ c ∧ c ≤ 0x7A then c - 0x20 else c
  isSpace c := c = 0x20
  hasProperty _ _ := false
  canonicalize_canonicalize flags c := by
    split_ifs <;> omega
  isBasic_canonicalize flags c basic := by
    rw [isBasicWordCharacter_iff] at basic ⊢
    split_ifs <;> omega
  eq_of_digit flags c d least most same := by
    split_ifs at same <;> omega

/-- The pattern `[0-9]{1}([\d\D]){0,1}`. -/
def verbosePattern : List (List Term) :=
  [[.quantified ⟨.exactly ⟨['1'], by simp, by simp⟩, true⟩
      (.characters (.characterClass ⟨false, [.characterClassRange (.plain '0') (.plain '9')]⟩)),
    .quantified ⟨.between ⟨['0'], by simp, by simp⟩ ⟨['1'], by simp, by simp⟩, true⟩
      (.capturingGroup none 1 [[.atom (.characters (.characterClass ⟨false,
        [.characterSet ⟨.digit, false⟩, .characterSet ⟨.digit, true⟩]⟩))]])]]

end SonarJS.Regex.ConciseRegex
