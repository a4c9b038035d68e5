import SonarJS.Foundation.StackSearch
import SonarJS.Linting.CodePath

/-!
# Falling through a switch case

`sonar-no-fallthrough` reports a switch case whose end is reached from its beginning
without a call of `process.exit` on the way. It goes backwards from the segments at the end
of the case and does not pass segments with such a call.
-/

namespace SonarJS.NoFallthrough

open Relation StackSearch

variable {ι : Type*}

/-- There is a path from a segment to another, none of whose segments is marked. -/
def ClearPath (G : CodePathGraph ι) (segmentsWithExit : Finset ι) (initial segment : ι) : Prop :=
  ∃ path, G.IsPath path ∧ path.head? = some initial ∧ path.getLast? = some segment ∧
    ∀ s ∈ path, s ∉ segmentsWithExit

section Rule

variable [DecidableEq ι] (G : CodePathGraph ι) (segmentsWithExit : Finset ι)

/-- `isAfterProcessExitCall`, if it returns within some steps. -/
def isAfterProcessExitCall (segment initialSegment : ι) (fuel : ℕ) : Option Bool :=
  (search G.prevSegments (· ∈ segmentsWithExit) (· = initialSegment) fuel [segment] ∅).map not

/-- What `SwitchCase:exit` asks of the case besides its segments. -/
structure SwitchCase where
  consequent : ℕ
  isLastCase : Bool
  commentsAfter : ℕ

/-- Whether some reachable segment is not after a call of `process.exit`. `some` stops at the
first of them. -/
def isReachable (reachable : ι → Bool) (initialSegment : ι) (fuel : ℕ) : List ι → Option Bool
  | [] => some false
  | s :: currentSegments =>
    if reachable s then do
      let afterExit ← isAfterProcessExitCall G segmentsWithExit s initialSegment fuel
      if afterExit then isReachable reachable initialSegment fuel currentSegments
      else return true
    else isReachable reachable initialSegment fuel currentSegments

/-- `SwitchCase:exit`: whether the case is reported. -/
def switchCaseExit (reachable : ι → Bool) (currentSegments : List ι) (initialSegment : ι)
    (switchCase : SwitchCase) (fuel : ℕ) : Option Bool := do
  let isReachable ←
    isReachable G segmentsWithExit reachable initialSegment fuel currentSegments
  return isReachable && decide (switchCase.consequent > 0) && !switchCase.isLastCase &&
    switchCase.commentsAfter == 0

end Rule

variable {G : CodePathGraph ι} {segmentsWithExit : Finset ι} {initial segment s t : ι}

/-! ## Paths without a marked segment -/

namespace ClearPath

theorem single (clear : s ∉ segmentsWithExit) : ClearPath G segmentsWithExit s s :=
  ⟨[s], .singleton s, rfl, rfl, fun _ member => List.mem_singleton.mp member ▸ clear⟩

theorem cons (clear : s ∉ segmentsWithExit) (edge : t ∈ G.nextSegments s)
    (h : ClearPath G segmentsWithExit t segment) : ClearPath G segmentsWithExit s segment := by
  obtain ⟨path, isPath, head, last, clearPath⟩ := h
  obtain ⟨path, rfl⟩ := List.head?_eq_some_iff.mp head
  refine ⟨s :: t :: path, List.isChain_cons_cons.mpr ⟨edge, isPath⟩, rfl, ?_, ?_⟩
  · simpa using last
  · exact List.forall_mem_cons.mpr ⟨clear, clearPath⟩

/-- The search goes along a path backwards. -/
theorem of_reflTransGen
    (h : ReflTransGen (Leads G.prevSegments (· ∈ segmentsWithExit)) segment s)
    (clear : s ∉ segmentsWithExit) : ClearPath G segmentsWithExit s segment := by
  induction h with
  | refl => exact single clear
  | tail _ step ih => exact cons clear ((G.converse _ _).mpr step.2) (ih step.1)

theorem reflTransGen {path : List ι} (isPath : G.IsPath path) (head : path.head? = some s)
    (last : path.getLast? = some segment) (clear : ∀ t ∈ path, t ∉ segmentsWithExit) :
    ReflTransGen (Leads G.prevSegments (· ∈ segmentsWithExit)) segment s := by
  induction path generalizing s with
  | nil => cases head
  | cons t path ih =>
      obtain rfl : t = s := Option.some.inj head
      cases path with
      | nil =>
          obtain rfl : t = segment := Option.some.inj last
          exact .refl
      | cons u path =>
          obtain ⟨edge, rest⟩ := List.isChain_cons_cons.mp isPath
          obtain ⟨_, clearRest⟩ := List.forall_mem_cons.mp clear
          have before := ih rest rfl (by simpa using last) clearRest
          exact before.tail ⟨clearRest u List.mem_cons_self, (G.converse _ _).mp edge⟩

end ClearPath

theorem finds_iff :
    Finds G.prevSegments (· ∈ segmentsWithExit) (· = initial) segment ↔
      ClearPath G segmentsWithExit initial segment := by
  constructor
  · rintro ⟨_, reached, clear, rfl⟩
    exact .of_reflTransGen reached clear
  · rintro ⟨path, isPath, head, last, clear⟩
    have first : initial ∈ path := List.mem_of_mem_head? head
    exact ⟨initial, ClearPath.reflTransGen isPath head last clear, clear initial first, rfl⟩

/-! ## The rule -/

variable [DecidableEq ι] {reachable : ι → Bool} {currentSegments : List ι} {fuel : ℕ}

theorem eq_false_iff_clearPath {result : Bool}
    (h : isAfterProcessExitCall G segmentsWithExit segment initial fuel = some result) :
    result = false ↔ ClearPath G segmentsWithExit initial segment := by
  obtain ⟨found, searched, rfl⟩ := Option.map_eq_some_iff.mp h
  rw [← finds_iff, ← search_spec Progress.initial searched, Bool.not_eq_eq_eq_not, Bool.not_false]

/-- The search ends on every finite graph, and says exactly whether a path without a call
of `process.exit` leads from the initial segment to the segment. -/
theorem isAfterProcessExitCall_exact [Fintype ι] (G : CodePathGraph ι) (segmentsWithExit : Finset ι)
    (segment initial : ι) :
    (∃ fuel result,
      isAfterProcessExitCall G segmentsWithExit segment initial fuel = some result) ∧
    ∀ fuel result, isAfterProcessExitCall G segmentsWithExit segment initial fuel = some result →
      (result = false ↔ ∃ path, G.IsPath path ∧ path.head? = some initial ∧
        path.getLast? = some segment ∧ ∀ s ∈ path, s ∉ segmentsWithExit) := by
  refine ⟨?_, fun fuel result h => eq_false_iff_clearPath h⟩
  have started : Progress G.prevSegments (· ∈ segmentsWithExit) (· = initial) segment [segment] ∅ :=
    .initial
  obtain ⟨fuel, found, searched⟩ := search_ends started
  exact ⟨fuel, !found, congrArg (Option.map not) searched⟩

theorem isReachable_cons_of_reachable (h : reachable s = true) :
    isReachable G segmentsWithExit reachable initial fuel (s :: currentSegments) =
      (isAfterProcessExitCall G segmentsWithExit s initial fuel).bind fun afterExit =>
        if afterExit then isReachable G segmentsWithExit reachable initial fuel currentSegments
        else some true :=
  if_pos h

theorem isReachable_cons_of_not_reachable (h : ¬ reachable s = true) :
    isReachable G segmentsWithExit reachable initial fuel (s :: currentSegments) =
      isReachable G segmentsWithExit reachable initial fuel currentSegments :=
  if_neg h

theorem isReachable_iff {result : Bool}
    (h : isReachable G segmentsWithExit reachable initial fuel currentSegments = some result) :
    result = true ↔
      ∃ s ∈ currentSegments, reachable s = true ∧ ClearPath G segmentsWithExit initial s := by
  induction currentSegments with
  | nil =>
      obtain rfl : false = result := Option.some.inj h
      simp
  | cons s currentSegments ih =>
      simp only [List.exists_mem_cons_iff]
      by_cases live : reachable s = true
      · rw [isReachable_cons_of_reachable live] at h
        obtain ⟨afterExit, searched, h⟩ := Option.bind_eq_some_iff.mp h
        have exact := eq_false_iff_clearPath searched
        cases afterExit with
        | false =>
            obtain rfl : true = result := Option.some.inj h
            exact iff_of_true rfl (.inl ⟨live, exact.mp rfl⟩)
        | true =>
            have blocked : ¬ ClearPath G segmentsWithExit initial s := by simpa using exact
            rw [ih h, or_iff_right fun here => blocked here.2]
      · rw [isReachable_cons_of_not_reachable live] at h
        rw [ih h, or_iff_right fun here => live here.1]

/-- A case is reported if it is neither empty nor the last one, no comment follows it, and
its end is reached from its beginning without a call of `process.exit`. -/
theorem switchCaseExit_reports {switchCase : SwitchCase} {reported : Bool}
    (h : switchCaseExit G segmentsWithExit reachable currentSegments initial switchCase fuel =
      some reported) :
    reported = true ↔
      (∃ s ∈ currentSegments, reachable s = true ∧ ClearPath G segmentsWithExit initial s) ∧
        switchCase.consequent > 0 ∧ switchCase.isLastCase = false ∧
        switchCase.commentsAfter = 0 := by
  obtain ⟨result, ended, h⟩ := Option.bind_eq_some_iff.mp h
  obtain rfl := Option.some.inj h
  simp [← isReachable_iff ended, and_assoc]

end SonarJS.NoFallthrough
