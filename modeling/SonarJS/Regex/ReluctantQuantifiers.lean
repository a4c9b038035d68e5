import SonarJS.Regex.Matching

/-!
# Reluctant quantifiers at the end of an alternative

Behind a reluctant quantifier at the end, or before something optional at the end, nothing can
fail, so that it only ever matches its minimum. Before `$` a greedy quantifier is said to do as
well. Under the flag `m` there can be line ends on the way, at which only the reluctant one stops.
-/

namespace SonarJS.Regex.ReluctantQuantifiers

open Backtracking Matching

variable {κ : Type*}

/-! ## The rule -/

inductive Problem
  | onlyMatches (min : ℕ)
  | unnecessarilyReluctant
deriving DecidableEq

def Problem.message : Problem → String
  | onlyMatches min =>
    let ending := if min = 1 then "" else "s"
    "Fix this reluctant quantifier that will only ever match " ++ toString min ++ " repetition" ++
      ending ++ "."
  | unnecessarilyReluctant => "Remove the '?' from this unnecessarily reluctant quantifier."

/-- A problem with the quantifier that is one of the elements of an alternative. -/
structure Report where
  problem : Problem
  alternative : ℕ
  element : ℕ
deriving DecidableEq

def checkElements (elements : List (Element κ)) : Option (Problem × ℕ) :=
  match elements.reverse with
  | [] => none
  | .quantifier min _ false _ :: _ => some (.onlyMatches min, elements.length - 1)
  | [_] => none
  | lastElement :: .quantifier min _ false _ :: _ =>
    match lastElement with
    | .edge .atEnd => some (.unnecessarilyReluctant, elements.length - 2)
    | .quantifier 0 _ _ _ => some (.onlyMatches min, elements.length - 2)
    | _ => none
  | _ => none

def onRegExpLiteralEnter (alternatives : List (List (Element κ))) : List Report :=
  alternatives.zipIdx.filterMap fun alternative =>
    (checkElements alternative.1).map fun problem => ⟨problem.1, alternative.2, problem.2⟩

/-! ## What the reports say -/

/-- The quantifier without its `?`. -/
def withoutReluctance : Element κ → Element κ
  | .quantifier min max _ element => .quantifier min max true element
  | element => element

def Report.fix (report : Report) (pattern : List (List (Element κ))) : List (List (Element κ)) :=
  pattern.modify report.alternative fun elements => elements.modify report.element withoutReluctance

section Meaning

variable (sets : CharacterSets κ) (flags : Matching.Flags) (pattern : List (List (Element κ)))
  (input : List ℕ) (lastIndex : ℕ)

variable {input} in
/-- Where a match begins and ends, and what its groups have captured. -/
def found (matched : Match input) : ℕ × State input := (matched.index, matched.state)

/-- What the report says is true of the match in an input. -/
def Report.IsRight (report : Report) : Prop :=
  match report.problem with
  | .onlyMatches min => ∀ matched ∈ exec sets flags input pattern lastIndex,
      matched.alternative = report.alternative → matched.iterations[report.element]? = some min
  | .unnecessarilyReluctant =>
      (exec sets flags input (report.fix pattern) lastIndex).map found =
        (exec sets flags input pattern lastIndex).map found

variable {input}

/-- Further iterations of a quantifier from a state lead to a line end. -/
def Continues (max : Option ℕ) (element : Element κ) (n : ℕ) (x : State input) : Prop :=
  ∃ k, 0 < k ∧ (∀ most ∈ max, n + k ≤ most) ∧
    ∃ y ∈ times (advancing (iteration sets flags .forward element)) k x, holdsAtEdge flags .atEnd y

/-- More iterations of the reported quantifier lead from where the match ends to a line end. -/
def Report.GoesOn (report : Report) (matched : Match input) : Prop :=
  ∃ elements min max greedy element n, pattern[report.alternative]? = some elements ∧
    elements[report.element]? = some (.quantifier min max greedy element) ∧
      matched.iterations[report.element]? = some n ∧
        Continues sets flags max element n matched.state

end Meaning

/-! ## The alternatives that are reported -/

/-- The last elements of an alternative, and what is reported of them. -/
inductive Reported : List (Element κ) → Problem × ℕ → Prop
  | last (before : List (Element κ)) (min : ℕ) (max : Option ℕ) (element : Element κ) :
    Reported (before ++ [.quantifier min max false element]) (.onlyMatches min, before.length)
  | beforeOptional (before : List (Element κ)) (min : ℕ) (max max' : Option ℕ) (greedy : Bool)
    (element element' : Element κ) :
    Reported (before ++ [.quantifier min max false element, .quantifier 0 max' greedy element'])
      (.onlyMatches min, before.length)
  | beforeEnd (before : List (Element κ)) (min : ℕ) (max : Option ℕ) (element : Element κ) :
    Reported (before ++ [.quantifier min max false element, .edge .atEnd])
      (.unnecessarilyReluctant, before.length)

theorem reported_of_checkElements {elements : List (Element κ)} {problem : Problem × ℕ}
    (isReported : checkElements elements = some problem) : Reported elements problem := by
  obtain ⟨reversed, rfl⟩ : ∃ reversed, elements = reversed.reverse :=
    ⟨elements.reverse, elements.reverse_reverse.symm⟩
  unfold checkElements at isReported
  rw [List.reverse_reverse] at isReported
  split at isReported
  · cases isReported
  · rename_i min max element before
    obtain rfl := Option.some.inj isReported
    simpa using Reported.last before.reverse min max element
  · cases isReported
  · rename_i lastElement min max element before _
    split at isReported
    · obtain rfl := Option.some.inj isReported
      simpa using Reported.beforeEnd before.reverse min max element
    · rename_i max' greedy element' _
      obtain rfl := Option.some.inj isReported
      simpa using Reported.beforeOptional before.reverse min max max' greedy element element'
    · cases isReported
  · cases isReported

theorem mem_onRegExpLiteralEnter {pattern : List (List (Element κ))} {report : Report} :
    report ∈ onRegExpLiteralEnter pattern ↔
      ∃ elements, pattern[report.alternative]? = some elements ∧
        checkElements elements = some (report.problem, report.element) := by
  rw [onRegExpLiteralEnter, List.mem_filterMap]
  constructor
  · rintro ⟨⟨elements, k⟩, member, isReported⟩
    obtain ⟨problem, isProblem, rfl⟩ := Option.map_eq_some_iff.mp isReported
    exact ⟨elements, List.mem_zipIdx_iff_getElem?.mp member, isProblem⟩
  · rintro ⟨elements, here, isReported⟩
    refine ⟨(elements, report.alternative), List.mem_zipIdx_iff_getElem?.mpr here, ?_⟩
    rw [isReported]
    rfl

/-! ## Quantifiers that only match their minimum -/

section Minimum

variable {sets : CharacterSets κ} {flags : Matching.Flags} {input : List ℕ}

theorem traced_append (before behind : List (Element κ)) (x : State input) :
    traced sets flags (before ++ behind) x = (traced sets flags before x).flatMap fun first =>
      (traced sets flags behind first.2).map fun rest => (first.1 ++ rest.1, rest.2) := by
  induction before generalizing x with
  | nil => simp [traced]
  | cons element before ih =>
      rw [List.cons_append, traced, traced, List.flatMap_assoc]
      refine List.flatMap_congr fun first _ => ?_
      rw [ih, List.map_flatMap, List.flatMap_map]
      refine List.flatMap_congr fun second _ => ?_
      rw [List.map_map]
      rfl

theorem length_of_mem_traced {elements : List (Element κ)} {x : State input}
    {result : List ℕ × State input} (member : result ∈ traced sets flags elements x) :
    result.1.length = elements.length := by
  induction elements generalizing x result with
  | nil =>
      rw [List.mem_singleton.mp member]
      rfl
  | cons element elements ih =>
      obtain ⟨first, -, member⟩ := List.mem_flatMap.mp member
      obtain ⟨rest, behind, rfl⟩ := List.mem_map.mp member
      exact congrArg (· + 1) (ih behind)

/-- If nothing behind a reluctant quantifier can fail, it makes no iteration that is not
required. -/
theorem minimum_of_first {min : ℕ} {max : Option ℕ} {element : Element κ}
    {behind : List (Element κ)}
    (succeeds : ∀ y : State input, traced sets flags behind y ≠ []) {x : State input}
    {result : List ℕ × State input}
    (first : result ∈
      (traced sets flags (.quantifier min max false element :: behind) x).head?) :
    result.1[0]? = some min := by
  rw [traced, head?_flatMap_of_ne_nil fun first => by simpa using succeeds first.2] at first
  obtain ⟨count, member, first⟩ := Option.mem_bind_iff.mp first
  rw [List.head?_map] at first
  obtain ⟨rest, -, rfl⟩ := Option.map_eq_some_iff.mp first
  obtain ⟨y, -, member⟩ := mem_head?_flatMap member
  rw [head?_star_reluctant] at member
  rw [← Option.some.inj member]
  rfl

theorem traced_optional_ne_nil {max : Option ℕ} {greedy : Bool} {element : Element κ}
    {y : State input} : traced sets flags [.quantifier 0 max greedy element] y ≠ [] := by
  have someResult := List.exists_mem_of_ne_nil _ (@star_ne_nil _
    (advancing (iteration sets flags .forward element)) greedy (optionalIterations input 0 max) 0 y)
  obtain ⟨⟨n, z⟩, member⟩ := someResult
  simpa [traced, counted, repeatMatcher, times] using ⟨n, z, member⟩

theorem minimum_of_reported {elements : List (Element κ)} {min p : ℕ}
    (isReported : Reported elements (.onlyMatches min, p)) {x : State input}
    {result : List ℕ × State input} (first : result ∈ (traced sets flags elements x).head?) :
    result.1[p]? = some min := by
  obtain ⟨before, behind, max, element, rfl, rfl, succeeds⟩ :
      ∃ before behind max element,
        elements = before ++ .quantifier min max false element :: behind ∧ p = before.length ∧
          ∀ y : State input, traced sets flags behind y ≠ [] := by
    cases isReported with
    | last before min max element =>
        exact ⟨before, [], max, element, rfl, rfl, fun y => List.cons_ne_nil _ _⟩
    | beforeOptional before min max max' greedy element element' =>
        exact ⟨before, [_], max, element, rfl, rfl, fun y => traced_optional_ne_nil⟩
  rw [traced_append] at first
  obtain ⟨start, member, first⟩ := mem_head?_flatMap first
  rw [List.head?_map] at first
  obtain ⟨rest, behind, rfl⟩ := Option.map_eq_some_iff.mp first
  rw [← length_of_mem_traced member, List.getElem?_append_right le_rfl, Nat.sub_self]
  exact minimum_of_first succeeds behind

theorem exists_of_firstMatch {k : ℕ} {alternatives : List (List (Element κ))} {x : State input}
    {matched : Match input} (first : matched ∈ firstMatch sets flags k alternatives x) :
    ∃ i elements, alternatives[i]? = some elements ∧ matched.alternative = k + i ∧
      (matched.iterations, matched.state) ∈ (traced sets flags elements x).head? := by
  induction alternatives generalizing k with
  | nil => cases first
  | cons elements alternatives ih =>
      obtain here | ⟨-, further⟩ := Option.or_eq_some_iff.mp first
      · obtain ⟨result, isFirst, rfl⟩ := Option.map_eq_some_iff.mp here
        exact ⟨0, elements, rfl, rfl, isFirst⟩
      · obtain ⟨i, elements, here, number, first⟩ := ih further
        exact ⟨i + 1, elements, here, by omega, first⟩

end Minimum

/-! ## Quantifiers before the end -/

section End

variable {sets : CharacterSets κ} {flags : Matching.Flags} {input : List ℕ}

/-- The bound that has been computed for the iterations is the one of the quantifier. -/
theorem le_optionalIterations_iff {min : ℕ} {max : Option ℕ} {element : Element κ} {n k : ℕ}
    {x y z : State input} (positive : 0 < k)
    (reached : (n, y) ∈ star (advancing (iteration sets flags .forward element)) false
      (optionalIterations input min max) min x)
    (further : z ∈ times (advancing (iteration sets flags .forward element)) k y) :
    n + k ≤ min + optionalIterations input min max ↔ ∀ most ∈ max, n + k ≤ most := by
  obtain ⟨i, -, rfl, before⟩ := mem_star.mp reached
  have first := rank_times (rank_lt_of_advancing moves_iteration) before
  have second := rank_times (rank_lt_of_advancing moves_iteration) further
  have limited := @rank_le _ .forward z
  cases max with
  | none =>
      refine iff_of_true ?_ (by simp)
      rw [optionalIterations]
      omega
  | some max =>
      simp only [optionalIterations, Option.mem_some_iff, forall_eq']
      omega

/-- The first ways in which a quantifier gets to a line end, reluctant and greedy. -/
theorem rel_find?_repeatMatcher (min : ℕ) (max : Option ℕ) (element : Element κ)
    (x : State input) :
    Option.Rel (fun fewer more : ℕ × State input =>
        more.2 = fewer.2 ↔ ¬Continues sets flags max element fewer.1 fewer.2)
      ((repeatMatcher min max false (iteration sets flags .forward element) x).find?
        (holdsAtEdge flags .atEnd ·.2))
      ((repeatMatcher min max true (iteration sets flags .forward element) x).find?
        (holdsAtEdge flags .atEnd ·.2)) := by
  rw [repeatMatcher, repeatMatcher, List.find?_flatMap, List.find?_flatMap]
  refine rel_findSome? fun y _ => ?_
  refine rel_mono_of_mem (rel_find?_star (rank_lt_of_advancing moves_iteration) _) ?_
  intro fewer isFewer more _ same
  refine same.trans (not_congr ⟨?_, ?_⟩)
  · rintro ⟨k, positive, small, z, further, accepted⟩
    have reached := List.mem_of_find?_eq_some isFewer
    exact ⟨k, positive, (le_optionalIterations_iff positive reached further).mp small,
      z, further, accepted⟩
  · rintro ⟨k, positive, small, z, further, accepted⟩
    have reached := List.mem_of_find?_eq_some isFewer
    exact ⟨k, positive, (le_optionalIterations_iff positive reached further).mpr small,
      z, further, accepted⟩

theorem head?_traced_atEnd {min : ℕ} {max : Option ℕ} {greedy : Bool} {element : Element κ}
    {x : State input} :
    (traced sets flags [.quantifier min max greedy element, .edge .atEnd] x).head? =
      ((repeatMatcher min max greedy (iteration sets flags .forward element) x).find?
        (holdsAtEdge flags .atEnd ·.2)).map fun count => ([count.1, 1], count.2) := by
  rw [traced, List.head?_flatMap, counted]
  induction repeatMatcher min max greedy (iteration sets flags .forward element) x with
  | nil => rfl
  | cons count counts ih =>
      rw [List.findSome?_cons, List.find?_cons, ih]
      by_cases holds : holdsAtEdge flags .atEnd count.2
      · simp [traced, counted, elementMatcher, holds]
      · simp [traced, counted, elementMatcher, holds]

/-- The first ways in which an alternative matches, with the two quantifiers. -/
theorem rel_head?_traced (before : List (Element κ)) (min : ℕ) (max : Option ℕ)
    (element : Element κ) (x : State input) :
    Option.Rel (fun fewer more : List ℕ × State input =>
        more.2 = fewer.2 ↔
          ¬∃ n, fewer.1[before.length]? = some n ∧ Continues sets flags max element n fewer.2)
      (traced sets flags (before ++ [.quantifier min max false element, .edge .atEnd]) x).head?
      (traced sets flags (before ++ [.quantifier min max true element, .edge .atEnd]) x).head? := by
  rw [traced_append, traced_append, List.head?_flatMap, List.head?_flatMap]
  refine rel_findSome? fun first member => ?_
  rw [List.head?_map, List.head?_map, head?_traced_atEnd, head?_traced_atEnd]
  refine rel_map (rel_map (rel_mono_of_mem (rel_find?_repeatMatcher min max element first.2) ?_))
  intro fewer _ more _ same
  rw [← length_of_mem_traced member, List.getElem?_append_right le_rfl, Nat.sub_self]
  simpa using same

/-- The matches that are compared: they begin at the same place, and they are the same unless
this condition is met. -/
def SameUnless (differ : Match input → Prop) (fewer more : Match input) : Prop :=
  more.index = fewer.index ∧ (more.state = fewer.state ↔ ¬differ fewer)

theorem modify_withoutReluctance {before behind : List (Element κ)} {min : ℕ} {max : Option ℕ}
    {element : Element κ} :
    (before ++ .quantifier min max false element :: behind).modify before.length
      withoutReluctance = before ++ .quantifier min max true element :: behind := by
  induction before with
  | nil => rfl
  | cons first before ih => exact congrArg (first :: ·) ih

theorem rel_firstMatch {alternatives : List (List (Element κ))} {before : List (Element κ)}
    {min : ℕ} {max : Option ℕ} {element : Element κ} {i k : ℕ}
    (here : alternatives[i]? =
      some (before ++ [.quantifier min max false element, .edge .atEnd])) (x : State input) :
    Option.Rel
      (SameUnless fun matched => matched.alternative = k + i ∧
        ∃ n, matched.iterations[before.length]? = some n ∧
          Continues sets flags max element n matched.state)
      (firstMatch sets flags k alternatives x)
      (firstMatch sets flags k (alternatives.modify i fun elements =>
        elements.modify before.length withoutReluctance) x) := by
  induction alternatives generalizing i k with
  | nil => cases here
  | cons elements alternatives ih =>
      cases i with
      | zero =>
          obtain rfl := Option.some.inj here
          rw [List.modify_zero_cons, modify_withoutReluctance, firstMatch, firstMatch]
          refine rel_or (rel_map (rel_mono_of_mem (rel_head?_traced before min max element x) ?_))
            (rel_self fun matched isFirst => ?_)
          · intro fewer _ more _ same
            exact ⟨rfl, same.trans (not_congr (and_iff_right rfl).symm)⟩
          · obtain ⟨j, -, -, number, -⟩ := exists_of_firstMatch isFirst
            refine ⟨rfl, iff_of_true rfl fun differ => ?_⟩
            have := differ.1
            omega
      | succ i =>
          have shifted : k + (i + 1) = k + 1 + i := by omega
          rw [List.modify_succ_cons, firstMatch, firstMatch, shifted]
          refine rel_or (rel_map (rel_self fun result _ => ?_)) (ih here)
          refine ⟨rfl, iff_of_true rfl fun differ => ?_⟩
          have : k = k + 1 + i := differ.1
          omega

/-- The match that is found with the greedy quantifier is the same unless the other one goes
through this alternative and can be continued. -/
theorem rel_exec {pattern : List (List (Element κ))} {before : List (Element κ)} {min : ℕ}
    {max : Option ℕ} {element : Element κ} {i lastIndex : ℕ}
    (here : pattern[i]? = some (before ++ [.quantifier min max false element, .edge .atEnd])) :
    Option.Rel
      (SameUnless fun matched => matched.alternative = i ∧
        ∃ n, matched.iterations[before.length]? = some n ∧
          Continues sets flags max element n matched.state)
      (exec sets flags input pattern lastIndex)
      (exec sets flags input (pattern.modify i fun elements =>
        elements.modify before.length withoutReluctance) lastIndex) := by
  refine rel_findSome? fun index _ => ?_
  simpa using rel_firstMatch (k := 0) here (.initial index)

theorem map_found_eq_iff {differ : Match input → Prop} {first second : Option (Match input)}
    (related : Option.Rel (SameUnless differ) first second) :
    second.map found = first.map found ↔ ∀ matched ∈ first, ¬differ matched := by
  cases related with
  | none => simp
  | some same => simp [found, same.1, same.2]

/-- At the end of an alternative with `$`, there is a line end. -/
theorem holdsAtEdge_of_first {before : List (Element κ)} {min : ℕ} {max : Option ℕ} {greedy : Bool}
    {element : Element κ} {x : State input} {result : List ℕ × State input}
    (first : result ∈ (traced sets flags
      (before ++ [.quantifier min max greedy element, .edge .atEnd]) x).head?) :
    holdsAtEdge flags .atEnd result.2 = true := by
  rw [traced_append] at first
  obtain ⟨start, -, first⟩ := mem_head?_flatMap first
  rw [List.head?_map, head?_traced_atEnd] at first
  obtain ⟨rest, isRest, rfl⟩ := Option.map_eq_some_iff.mp first
  obtain ⟨count, isCount, rfl⟩ := Option.map_eq_some_iff.mp isRest
  simpa using List.find?_some isCount

/-- There is only one line end if lines are not told apart. -/
theorem not_continues_of_single_line (singleLine : flags.multiline = false) {max : Option ℕ}
    {element : Element κ} {n : ℕ} {x : State input} (holds : holdsAtEdge flags .atEnd x = true) :
    ¬Continues sets flags max element n x := by
  rintro ⟨k, positive, -, y, further, -⟩
  have atEnd : x.endIndex = input.length := by simpa [holdsAtEdge, singleLine] using holds
  have advanced := rank_times (rank_lt_of_advancing moves_iteration) further
  have limited := y.inside
  change x.endIndex + k ≤ y.endIndex at advanced
  omega

end End

/-! ## Reports that are right -/

section Right

variable (sets : CharacterSets κ) (flags : Matching.Flags) {pattern : List (List (Element κ))}
  (input : List ℕ) (lastIndex : ℕ) {report : Report}

theorem isRight_onlyMatches (isReported : report ∈ onRegExpLiteralEnter pattern) {min : ℕ}
    (problem : report.problem = .onlyMatches min) :
    report.IsRight sets flags pattern input lastIndex := by
  obtain ⟨elements, here, isProblem⟩ := mem_onRegExpLiteralEnter.1 isReported
  rw [problem] at isProblem
  rw [Report.IsRight, problem]
  intro matched isMatch alternative
  obtain ⟨index, -, first⟩ := List.exists_of_findSome?_eq_some isMatch
  obtain ⟨i, elements', there, number, first⟩ := exists_of_firstMatch first
  obtain rfl : i = report.alternative := by omega
  obtain rfl := Option.some.inj (here.symm.trans there)
  exact minimum_of_reported (reported_of_checkElements isProblem) first

variable {sets flags input lastIndex}

/-- The alternative of a report that a quantifier is unnecessarily reluctant. -/
theorem exists_beforeEnd (isReported : report ∈ onRegExpLiteralEnter pattern)
    (problem : report.problem = .unnecessarilyReluctant) :
    ∃ before min max element, report.element = before.length ∧ pattern[report.alternative]? =
      some (before ++ [.quantifier min max false element, .edge .atEnd]) := by
  obtain ⟨elements, here, isProblem⟩ := mem_onRegExpLiteralEnter.1 isReported
  rw [problem] at isProblem
  obtain ⟨before, min, max, element, same, rfl⟩ : ∃ before min max element,
      report.element = before.length ∧
        elements = before ++ [.quantifier min max false element, .edge .atEnd] := by
    generalize report.element = p at isProblem
    cases reported_of_checkElements isProblem with
    | beforeEnd before min max element => exact ⟨before, min, max, element, rfl, rfl⟩
  exact ⟨before, min, max, element, same, here⟩

theorem goesOn_iff {before : List (Element κ)} {min : ℕ} {max : Option ℕ} {element : Element κ}
    (place : report.element = before.length) (here : pattern[report.alternative]? =
      some (before ++ [.quantifier min max false element, .edge .atEnd])) {matched : Match input} :
    report.GoesOn sets flags pattern matched ↔
      ∃ n, matched.iterations[before.length]? = some n ∧
        Continues sets flags max element n matched.state := by
  have there : (before ++ [.quantifier min max false element, .edge .atEnd])[before.length]? =
      some (.quantifier min max false element) := by simp
  constructor
  · rintro ⟨elements, min', max', greedy, element', n, here', there', count, continues⟩
    obtain rfl := Option.some.inj (here.symm.trans here')
    rw [place] at there' count
    obtain ⟨rfl, rfl, rfl, rfl⟩ :=
      Element.quantifier.inj (Option.some.inj (there.symm.trans there'))
    exact ⟨n, count, continues⟩
  · rintro ⟨n, count, continues⟩
    rw [← place] at there count
    exact ⟨_, min, max, false, element, n, here, there, count, continues⟩

theorem isRight_unnecessarilyReluctant_iff (isReported : report ∈ onRegExpLiteralEnter pattern)
    (problem : report.problem = .unnecessarilyReluctant) :
    report.IsRight sets flags pattern input lastIndex ↔
      ∀ matched ∈ exec sets flags input pattern lastIndex,
        matched.alternative = report.alternative → ¬report.GoesOn sets flags pattern matched := by
  obtain ⟨before, min, max, element, place, here⟩ := exists_beforeEnd isReported problem
  rw [Report.IsRight, problem, Report.fix, place]
  refine (map_found_eq_iff (rel_exec here)).trans (forall₂_congr fun matched _ => ?_)
  rw [not_and, goesOn_iff place here]

/-- Without the flag `m`, the end of the match is the only line end. -/
theorem not_goesOn_of_single_line (singleLine : flags.multiline = false)
    (isReported : report ∈ onRegExpLiteralEnter pattern)
    (problem : report.problem = .unnecessarilyReluctant) {matched : Match input}
    (isMatch : matched ∈ exec sets flags input pattern lastIndex)
    (alternative : matched.alternative = report.alternative) :
    ¬report.GoesOn sets flags pattern matched := by
  obtain ⟨before, min, max, element, place, here⟩ := exists_beforeEnd isReported problem
  obtain ⟨index, -, first⟩ := List.exists_of_findSome?_eq_some isMatch
  obtain ⟨i, elements, there, number, first⟩ := exists_of_firstMatch first
  obtain rfl : i = report.alternative := by omega
  obtain rfl := Option.some.inj (here.symm.trans there)
  rw [goesOn_iff place here]
  rintro ⟨n, -, continues⟩
  exact not_continues_of_single_line singleLine (holdsAtEdge_of_first first) continues

variable (sets flags pattern input lastIndex) in
/-- The reports are right, unless under the flag `m` a quantifier that is said to be unnecessarily
reluctant can go on behind the match. -/
theorem reports_right_iff :
    (∀ report ∈ onRegExpLiteralEnter pattern, report.IsRight sets flags pattern input lastIndex) ↔
      (flags.multiline = true → ∀ report ∈ onRegExpLiteralEnter pattern,
        report.problem = .unnecessarilyReluctant →
          ∀ matched ∈ exec sets flags input pattern lastIndex,
            matched.alternative = report.alternative →
              ¬report.GoesOn sets flags pattern matched) := by
  constructor
  · intro right _ report isReported problem
    exact (isRight_unnecessarilyReluctant_iff isReported problem).mp (right report isReported)
  · intro stops report isReported
    cases problem : report.problem with
    | onlyMatches min => exact isRight_onlyMatches sets flags input lastIndex isReported problem
    | unnecessarilyReluctant =>
        refine (isRight_unnecessarilyReluctant_iff isReported problem).mpr ?_
        intro matched isMatch alternative
        cases lines : flags.multiline with
        | true => exact stops lines report isReported problem matched isMatch alternative
        | false => exact not_goesOn_of_single_line lines isReported problem isMatch alternative

end Right

/-! ## Several lines -/

/-- Characters are themselves, and there is one class of all of them. -/
def anyOrItself : CharacterSets (Option ℕ) where
  accepts := fun _ character c => character.all (· == c)
  canonicalize := fun _ c => c

/-- The flag `m` and no other one. -/
def multilineOnly : Matching.Flags := ⟨false, false, false, true, false, false⟩

/-- The pattern `[^]*?$`. -/
def anythingToEnd : List (List (Element (Option ℕ))) :=
  [[.quantifier 0 none false (.character none), .edge .atEnd]]

/-- In the lines `a` and `b`, the pattern matches the first one, and without `?` both of them. -/
theorem not_reports_right_multiline :
    ¬∀ report ∈ onRegExpLiteralEnter anythingToEnd,
      report.IsRight anyOrItself multilineOnly anythingToEnd [0x61, 0x0A, 0x62] 0 := by
  intro right
  have same := right ⟨.unnecessarilyReluctant, 0, 0⟩ (by decide)
  have lengths := congrArg (Option.map fun found => found.2.endIndex) same
  revert lengths
  decide

end SonarJS.Regex.ReluctantQuantifiers
