import Mathlib.Data.List.Basic
import Mathlib.Data.List.Induction
import Mathlib.Data.List.Sort
import Mathlib.Tactic.Common

/-!
# Edits of a list

Ranges of a list are taken out or replaced, and their ends are found by searching forwards or
backwards from a position. Positions are those between elements: the element with index `i`
stands between the positions `i` and `i + 1`. Several fixes are applied at once, in the order of
their ranges, if these do not overlap.
-/

namespace Edits

variable {α : Type*}

def replaceRange (range : ℕ × ℕ) (new list : List α) : List α :=
  list.take range.1 ++ new ++ list.drop range.2

def removeRange (range : ℕ × ℕ) (list : List α) : List α := replaceRange range [] list

/-- The first element from a position on. -/
def indexAfter (p : α → Bool) (list : List α) (position : ℕ) : Option ℕ :=
  ((list.drop position).findIdx? p).map (position + ·)

/-- The last element up to a position. -/
@[grind =] def indexBefore (p : α → Bool) (list : List α) : ℕ → Option ℕ
  | 0 => none
  | i + 1 => if list[i]?.any p then some i else indexBefore p list i

variable {p : α → Bool} {list before removed new skipped behind : List α} {a : α} {i j : ℕ}

/-! ## Ranges -/

theorem replaceRange_append (start : i = before.length) (stop : j = i + removed.length) :
    replaceRange (i, j) new (before ++ removed ++ behind) = before ++ new ++ behind := by
  subst start stop
  have tail : (before ++ removed ++ behind).drop (before.length + removed.length) = behind := by
    rw [← List.length_append, List.drop_left]
  rw [replaceRange, tail, List.append_assoc before removed, List.take_left]

theorem removeRange_append (start : i = before.length) (stop : j = i + removed.length) :
    removeRange (i, j) (before ++ removed ++ behind) = before ++ behind := by
  rw [removeRange, replaceRange_append start stop, List.append_nil]

/-! ## Searching -/

theorem indexAfter_append (start : i = before.length) (others : ∀ x ∈ skipped, p x = false)
    (found : p a) : indexAfter p (before ++ skipped ++ a :: behind) i =
      some (i + skipped.length) := by
  have index : (skipped ++ a :: behind).findIdx? p = some skipped.length := by
    rw [List.findIdx?_eq_some_iff_getElem]
    refine ⟨by simp, by simpa using found, ?_⟩
    intro j inside
    rw [List.getElem_append_left inside, others _ (List.getElem_mem inside)]
    exact Bool.false_ne_true
  rw [indexAfter, start, List.append_assoc, List.drop_left, index, Option.map_some]

theorem indexAfter_eq_none (start : i = before.length) (others : ∀ x ∈ behind, p x = false) :
    indexAfter p (before ++ behind) i = none := by
  rw [indexAfter, start, List.drop_left, List.findIdx?_eq_none_iff.mpr others, Option.map_none]

/-- Up to a position, only the elements before it matter. -/
theorem indexBefore_append_left (inside : i ≤ before.length) :
    indexBefore p (before ++ behind) i = indexBefore p before i := by
  induction i with
  | zero => rfl
  | succ i ih => rw [indexBefore, indexBefore, List.getElem?_append_left inside, ih (by omega)]

theorem indexBefore_concat : indexBefore p (before ++ [a]) (before.length + 1) =
    if p a then some before.length else indexBefore p before before.length := by
  rw [indexBefore, List.getElem?_concat_length, Option.any_some,
    indexBefore_append_left (Nat.le_refl _)]

theorem indexBefore_append (others : ∀ x ∈ skipped, p x = false) (found : p a)
    (stop : i = before.length + 1 + skipped.length) :
    indexBefore p (before ++ a :: skipped ++ behind) i = some before.length := by
  have inside : i ≤ (before ++ a :: skipped).length := by
    rw [List.length_append, List.length_cons]
    omega
  rw [indexBefore_append_left inside]
  subst stop
  clear inside
  induction skipped using List.reverseRecOn with
  | nil => rw [List.length_nil, Nat.add_zero, indexBefore_concat, if_pos found]
  | append_singleton skipped x ih =>
      rw [List.forall_mem_append] at others
      have last : before ++ a :: (skipped ++ [x]) = (before ++ a :: skipped) ++ [x] := by simp
      have length : before.length + 1 + (skipped ++ [x]).length =
          (before ++ a :: skipped).length + 1 := by
        simp
        omega
      have length' : (before ++ a :: skipped).length = before.length + 1 + skipped.length := by
        simp
        omega
      rw [last, length, indexBefore_concat, if_neg (by simp [others.2 x]), length', ih others.1]

theorem indexAfter_bounds (found : indexAfter p list i = some j) : i ≤ j ∧ j < list.length := by
  rw [indexAfter, Option.map_eq_some_iff] at found
  obtain ⟨index, isIndex, rfl⟩ := found
  have inside := (List.findIdx?_eq_some_iff_getElem.mp isIndex).1
  rw [List.length_drop] at inside
  omega

/-! ## Several fixes -/

/-- A range, and what replaces it. -/
structure Fix (α : Type*) where
  range : ℕ × ℕ
  text : List α

namespace Fix

def remove (range : ℕ × ℕ) : Fix α := ⟨range, []⟩

/-- The order of ranges. -/
def le (a b : Fix α) : Prop :=
  a.range.1 < b.range.1 ∨ a.range.1 = b.range.1 ∧ a.range.2 ≤ b.range.2

instance : DecidableRel (le : Fix α → Fix α → Prop) :=
  fun _ _ => inferInstanceAs (Decidable (_ ∨ _))

end Fix

/-- What becomes of the list from a position on, for fixes in their order. -/
@[grind =] def mergeFixes (list : List α) (position : ℕ) : List (Fix α) → List α
  | [] => list.drop position
  | fix :: fixes =>
    (list.take fix.range.1).drop position ++ fix.text ++ mergeFixes list fix.range.2 fixes

/-- Fixes that overlap are refused. -/
def applyFixes (fixes : List (Fix α)) (list : List α) : Option (List α) :=
  let sorted := fixes.insertionSort Fix.le
  if sorted.IsChain (fun a b => a.range.2 ≤ b.range.1) then some (mergeFixes list 0 sorted)
  else none

theorem applyFixes_singleton (fix : Fix α) :
    applyFixes [fix] list = some (replaceRange fix.range fix.text list) := by
  have sorted : [fix].insertionSort Fix.le = [fix] :=
    (List.pairwise_singleton Fix.le fix).insertionSort_eq
  rw [applyFixes, sorted, if_pos (.singleton fix), replaceRange]
  rfl

/-- A part is replaced, and what is directly around it removed. -/
theorem applyFixes_around {b : α} (start : i = before.length + 1)
    (stop : j = i + removed.length) :
    applyFixes [⟨(i, j), new⟩, .remove (before.length, before.length + 1), .remove (j, j + 1)]
      (before ++ [a] ++ removed ++ b :: behind) = some (before ++ new ++ behind) := by
  have first : ¬Fix.le ⟨(i, j), new⟩ (.remove (before.length, before.length + 1)) := by
    simp only [Fix.le, Fix.remove]
    omega
  have second : Fix.le ⟨(i, j), new⟩ (.remove (j, j + 1)) := by
    simp only [Fix.le, Fix.remove]
    omega
  have third : @Fix.le α (.remove (before.length, before.length + 1)) (.remove (j, j + 1)) := by
    simp only [Fix.le, Fix.remove]
    omega
  have sorted : [(⟨(i, j), new⟩ : Fix α), .remove (before.length, before.length + 1),
      .remove (j, j + 1)].insertionSort Fix.le =
        [.remove (before.length, before.length + 1), ⟨(i, j), new⟩, .remove (j, j + 1)] := by
    rw [List.insertionSort_cons, List.insertionSort_cons, List.insertionSort_cons,
      List.insertionSort_nil, List.orderedInsert_nil, List.orderedInsert_cons, if_pos third,
      List.orderedInsert_cons, if_neg first, List.orderedInsert_cons, if_pos second]
  have head : (before ++ [a] ++ removed ++ b :: behind).take before.length = before := by simp
  have tail : (before ++ [a] ++ removed ++ b :: behind).drop (j + 1) = behind := by
    have whole : before ++ [a] ++ removed ++ b :: behind =
        (before ++ [a] ++ removed ++ [b]) ++ behind := by simp
    have length : j + 1 = (before ++ [a] ++ removed ++ [b]).length := by
      simp
      omega
    rw [whole, length, List.drop_left]
  rw [applyFixes, sorted, if_pos (by simp [Fix.remove, start, stop])]
  simp only [mergeFixes, Fix.remove, start, head, tail]
  simp

section Spans

variable {marked : List (Bool × List α)}

/-- The ranges of the marked parts of a list, the first of which begins at the position. -/
@[grind =] def spans (position : ℕ) : List (Bool × List α) → List (ℕ × ℕ)
  | [] => []
  | (true, part) :: marked =>
    (position, position + part.length) :: spans (position + part.length) marked
  | (false, part) :: marked => spans (position + part.length) marked

/-- The parts that are not marked. -/
def unmarked (marked : List (Bool × List α)) : List α :=
  (marked.filter fun part => !part.1).flatMap Prod.snd

theorem of_mem_spans {range : ℕ × ℕ} (member : range ∈ spans i marked) :
    i ≤ range.1 ∧ range.1 ≤ range.2 ∧ range.2 ≤ i + (marked.flatMap Prod.snd).length := by
  induction marked generalizing i with
  | nil => cases member
  | cons first marked ih =>
      obtain ⟨mark, part⟩ := first
      rw [List.flatMap_cons, List.length_append]
      cases mark with
      | false =>
          have := ih member
          dsimp only
          omega
      | true =>
          rw [spans, List.mem_cons] at member
          obtain rfl | member := member
          · dsimp only
            omega
          · have := ih member
            dsimp only
            omega

theorem pairwise_spans : (spans i marked).Pairwise fun a b => a.2 ≤ b.1 := by
  induction marked generalizing i with
  | nil => exact .nil
  | cons first marked ih =>
      obtain ⟨mark, part⟩ := first
      cases mark with
      | false => exact ih
      | true => exact .cons (fun range member => (of_mem_spans member).1) ih

/-- What is left if the marked parts are removed. -/
theorem mergeFixes_spans (le : j ≤ before.length) :
    mergeFixes (before ++ marked.flatMap Prod.snd ++ behind) j
        ((spans before.length marked).map Fix.remove) =
      before.drop j ++ unmarked marked ++ behind := by
  induction marked generalizing before j with
  | nil =>
      rw [spans, List.map_nil, mergeFixes, List.flatMap_nil, List.append_nil,
        List.drop_append_of_le_length le, unmarked, List.filter_nil, List.flatMap_nil,
        List.append_nil]
  | cons first marked ih =>
      obtain ⟨mark, part⟩ := first
      have whole : before ++ ((mark, part) :: marked).flatMap Prod.snd ++ behind =
          (before ++ part) ++ marked.flatMap Prod.snd ++ behind := by simp
      have length : before.length + part.length = (before ++ part).length := by simp
      rw [whole]
      cases mark with
      | false =>
          rw [spans, length, ih (by simp; omega), List.drop_append_of_le_length le]
          simp [unmarked]
      | true =>
          rw [spans, List.map_cons, mergeFixes, Fix.remove, length, ih (Nat.le_refl _),
            List.drop_length]
          simp [unmarked]

theorem applyFixes_spans :
    applyFixes ((spans before.length marked).map Fix.remove)
        (before ++ marked.flatMap Prod.snd ++ behind) =
      some (before ++ unmarked marked ++ behind) := by
  have disjoint : ((spans before.length marked).map (@Fix.remove α)).Pairwise
      fun a b => a.range.2 ≤ b.range.1 := List.pairwise_map.mpr pairwise_spans
  have sorted : ((spans before.length marked).map (@Fix.remove α)).Pairwise Fix.le := by
    refine disjoint.imp_of_mem ?_
    intro a b inFirst inSecond le
    obtain ⟨range, member, rfl⟩ := List.mem_map.mp inFirst
    obtain ⟨range', member', rfl⟩ := List.mem_map.mp inSecond
    have first := of_mem_spans member
    have second := of_mem_spans member'
    simp only [Fix.remove] at le
    simp only [Fix.le, Fix.remove]
    omega
  rw [applyFixes, sorted.insertionSort_eq, if_pos disjoint.isChain,
    mergeFixes_spans (Nat.zero_le _), List.drop_zero]

end Spans

end Edits
