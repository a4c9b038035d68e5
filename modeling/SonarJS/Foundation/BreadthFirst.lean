import Mathlib.Algebra.GroupWithZero.Nat
import Mathlib.Data.List.Basic
import Mathlib.Data.List.Nodup
import Mathlib.Data.List.Pairwise
import Mathlib.Data.List.Range
import Mathlib.Data.Nat.Notation
import Mathlib.Logic.Relation
import Mathlib.Tactic.Common

/-!
# Breadth-first search

A queue of things that are still to be looked at. What is found in a thing is put behind what has
been found before, and what is below it behind the queue. So one level is searched after another,
and the search ends if a level is empty.
-/

namespace BreadthFirst

variable {α β : Type*} (children : α → List α) (results : α → List β)

/-- What is found, if so many steps are enough. -/
@[grind =] def search : ℕ → List α → List β → Option (List β)
  | _, [], found => some found
  | 0, _ :: _, _ => none
  | fuel + 1, a :: queue, found => search fuel (queue ++ children a) (found ++ results a)

@[grind =] def level : ℕ → List α → List α
  | 0, front => front
  | n + 1, front => (level n front).flatMap children

/-- What is found in the first levels. -/
def upTo (n : ℕ) (front : List α) : List β :=
  (List.range n).flatMap fun k => (level children k front).flatMap results

/-- The number of steps for the first levels. -/
def steps (n : ℕ) (front : List α) : ℕ :=
  ((List.range n).map fun k => (level children k front).length).sum

variable {children results} {front : List α} {found : List β} {fuel n : ℕ}

theorem search_mono {more : ℕ} {result : List β} (enough : fuel ≤ more)
    (isFound : search children results fuel front found = some result) :
    search children results more front found = some result := by
  induction fuel generalizing more front found with
  | zero =>
      cases front with
      | nil => cases more <;> exact isFound
      | cons a queue => cases isFound
  | succ fuel ih =>
      cases front with
      | nil => cases more <;> exact isFound
      | cons a queue =>
          obtain ⟨more, rfl⟩ : ∃ rest, more = rest + 1 := ⟨more - 1, by omega⟩
          rw [search] at isFound ⊢
          exact ih (Nat.le_of_succ_le_succ enough) isFound

variable (children results) in
/-- Searching the front of the queue. -/
theorem search_append (front queue : List α) (found : List β) (fuel : ℕ) :
    search children results (front.length + fuel) (front ++ queue) found =
      search children results fuel (queue ++ front.flatMap children)
        (found ++ front.flatMap results) := by
  induction front generalizing queue found with
  | nil => simp
  | cons a front ih =>
      rw [List.length_cons, Nat.add_right_comm, List.cons_append, search, List.append_assoc, ih]
      simp

variable (children results) in
/-- Searching one level after another. -/
theorem search_levels (n : ℕ) (front : List α) (fuel : ℕ) :
    search children results (steps children n front + fuel) front [] =
      search children results fuel (level children n front) (upTo children results n front) := by
  induction n generalizing fuel with
  | zero => simp [steps, level, upTo]
  | succ n ih =>
      have further := search_append children results (level children n front) []
        (upTo children results n front) fuel
      have all : steps children (n + 1) front =
          steps children n front + (level children n front).length := by
        simp [steps, List.range_succ]
      have both : upTo children results (n + 1) front =
          upTo children results n front ++ (level children n front).flatMap results := by
        simp [upTo, List.range_succ]
      rw [all, Nat.add_assoc, ih, both, level]
      simpa using further

theorem le_steps (nonempty : ∀ k, level children k front ≠ []) (n : ℕ) :
    n ≤ steps children n front := by
  induction n with
  | zero => exact Nat.zero_le _
  | succ n ih =>
      have all : steps children (n + 1) front =
          steps children n front + (level children n front).length := by
        simp [steps, List.range_succ]
      have some := List.length_pos_iff.mpr (nonempty n)
      omega

theorem search_of_empty_level (empty : level children n front = []) (fuel : ℕ) :
    search children results (steps children n front + fuel) front [] =
      some (upTo children results n front) := by
  rw [search_levels, empty]
  cases fuel <;> rfl

/-- The search ends if and only if a level is empty. -/
theorem exists_search_iff :
    (∃ fuel result, search children results fuel front [] = some result) ↔
      ∃ n, level children n front = [] := by
  constructor
  · rintro ⟨fuel, result, isFound⟩
    by_contra nonempty
    push Not at nonempty
    have further := search_mono (le_steps nonempty fuel) isFound
    have levels := search_levels children results fuel front 0
    rw [Nat.add_zero, further] at levels
    cases isLevel : level children fuel front with
    | nil => exact nonempty fuel isLevel
    | cons a queue => rw [isLevel, search] at levels; cases levels
  · rintro ⟨n, empty⟩
    exact ⟨_, _, search_of_empty_level empty 0⟩

/-- What a search finds comes from the levels up to an empty one. -/
theorem exists_eq_upTo {result : List β}
    (isFound : search children results fuel front [] = some result) :
    ∃ n, level children n front = [] ∧ result = upTo children results n front := by
  obtain ⟨n, empty⟩ := exists_search_iff.1 ⟨fuel, result, isFound⟩
  refine ⟨n, empty, ?_⟩
  have further := search_mono (Nat.le_add_left fuel (steps children n front)) isFound
  exact Option.some.inj (further.symm.trans (search_of_empty_level empty fuel))

theorem level_eq_nil_of_le {m : ℕ} (empty : level children n front = []) (le : n ≤ m) :
    level children m front = [] := by
  induction m, le using Nat.le_induction with
  | base => exact empty
  | succ m _ ih => rw [level, ih, List.flatMap_nil]

theorem mem_upTo {b : β} : b ∈ upTo children results n front ↔
    ∃ k < n, ∃ a ∈ level children k front, b ∈ results a := by
  simp [upTo]

/-- What is found lies in some level. -/
theorem mem_upTo_of_empty (empty : level children n front = []) {b : β} :
    b ∈ upTo children results n front ↔ ∃ k, ∃ a ∈ level children k front, b ∈ results a := by
  rw [mem_upTo]
  constructor
  · rintro ⟨k, -, found⟩
    exact ⟨k, found⟩
  · rintro ⟨k, a, member, found⟩
    refine ⟨k, ?_, a, member, found⟩
    by_contra large
    rw [level_eq_nil_of_le empty (not_lt.mp large)] at member
    cases member

/-- A level consists of what is reached in as many steps. -/
theorem exists_mem_level {a : α} : (∃ k, a ∈ level children k front) ↔
    ∃ start ∈ front,
      Relation.ReflTransGen (fun parent child => child ∈ children parent) start a := by
  constructor
  · rintro ⟨k, member⟩
    induction k generalizing a with
    | zero => exact ⟨a, member, .refl⟩
    | succ k ih =>
        obtain ⟨parent, inLevel, below⟩ := List.mem_flatMap.mp member
        obtain ⟨start, inFront, reached⟩ := ih inLevel
        exact ⟨start, inFront, reached.tail below⟩
  · rintro ⟨start, inFront, reached⟩
    induction reached with
    | refl => exact ⟨0, inFront⟩
    | tail _ below ih =>
        obtain ⟨k, member⟩ := ih
        exact ⟨k + 1, List.mem_flatMap.mpr ⟨_, member, below⟩⟩

/-- Nothing occurs twice in a level if everything is below one thing only. -/
theorem nodup_level (distinct : ∀ a, (children a).Nodup)
    (oneParent : ∀ a b c, c ∈ children a → c ∈ children b → a = b) (nodup : front.Nodup) (n : ℕ) :
    (level children n front).Nodup := by
  induction n with
  | zero => exact nodup
  | succ n ih =>
      refine List.nodup_flatMap.mpr ⟨fun a _ => distinct a, ?_⟩
      refine ih.imp fun differ c inFirst inSecond => ?_
      exact differ (oneParent _ _ c inFirst inSecond)

end BreadthFirst
