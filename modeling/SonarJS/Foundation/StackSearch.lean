import Mathlib.Data.Finset.Card
import Mathlib.Data.Fintype.Basic
import Mathlib.Data.Fintype.EquivFin
import Mathlib.Logic.Relation

/-!
# Searching a graph with a stack

A stack holds nodes, a set holds those that have been visited. The last node is taken from
the stack and visited, whether it was visited before or not. The search does not go on from
a blocked node, it ends at a goal, and from all other nodes it pushes the successors that
have not been visited.

A node can be on the stack several times. All copies but the first to be taken are harmless:
when they are taken, the successors of the node are no longer on top of them and have been
visited, so that nothing is pushed. Hence the search ends in a finite graph, and it finds a
goal if one is reached without a blocked node on the way.
-/

namespace StackSearch

open Relation

variable {ν : Type*}

section Definitions

variable (next : ν → List ν) (blocked goal : ν → Prop)

/-- The search goes on from a node to another. -/
def Leads (n m : ν) : Prop := ¬ blocked n ∧ m ∈ next n

/-- A goal is reached that is not blocked. -/
def Finds (start : ν) : Prop :=
  ∃ n, ReflTransGen (Leads next blocked) start n ∧ ¬ blocked n ∧ goal n

/-- What holds on the way. A visited node has its successors visited or above it. -/
structure Progress (start : ν) (stack : List ν) (visited : Finset ν) : Prop where
  reached : ∀ n ∈ stack, ReflTransGen (Leads next blocked) start n
  begun : start ∈ visited ∨ start ∈ stack
  noGoal : ∀ n ∈ visited, ¬ blocked n → ¬ goal n
  pending : ∀ n ∈ visited, ¬ blocked n → ∀ m ∈ next n, m ∈ visited ∨ m ∈ stack
  settled : ∀ above n below, stack = above ++ n :: below → n ∈ visited → ¬ blocked n →
    ∀ m ∈ next n, m ∈ visited ∨ m ∈ above

variable [DecidableEq ν]

/-- The successors that are pushed, the last one on top. -/
def pushedFrom (current : ν) (visited : Finset ν) : List ν :=
  ((next current).filter (· ∉ visited)).reverse

variable [DecidablePred blocked] [DecidablePred goal]

/-- Whether a goal is found, if the search ends within some steps. The top of the stack is
the head of the list. -/
def search : ℕ → List ν → Finset ν → Option Bool
  | 0, _, _ => none
  | _ + 1, [], _ => some false
  | fuel + 1, current :: stack, visited =>
    let visited := insert current visited
    if blocked current then search fuel stack visited
    else if goal current then some true
    else search fuel (pushedFrom next current visited ++ stack) visited

end Definitions

variable {next : ν → List ν} {blocked goal : ν → Prop}
variable {start n : ν} {stack : List ν} {visited : Finset ν} {fuel : ℕ}

namespace Progress

theorem initial : Progress next blocked goal start [start] ∅ where
  reached _ member := List.mem_singleton.mp member ▸ .refl
  begun := .inr (List.mem_singleton_self start)
  noGoal n member := absurd member (Finset.notMem_empty n)
  pending n member := absurd member (Finset.notMem_empty n)
  settled _ n _ _ member := absurd member (Finset.notMem_empty n)

/-- Once the stack is empty, all that is reached has been visited. -/
theorem not_finds (h : Progress next blocked goal start [] visited) :
    ¬ Finds next blocked goal start := by
  rintro ⟨n, path, free, isGoal⟩
  have member : n ∈ visited := by
    clear free isGoal
    induction path with
    | refl => exact h.begun.resolve_right List.not_mem_nil
    | tail _ step visitedBefore =>
        exact (h.pending _ visitedBefore step.1 _ step.2).resolve_right List.not_mem_nil
  exact h.noGoal n member free isGoal

end Progress

/-- A node of the stack that is not among the pushed ones was on it before. -/
theorem split_below {pushed above below : List ν} {m : ν} (old : m ∉ pushed)
    (split : pushed ++ stack = above ++ m :: below) :
    ∃ above', above = pushed ++ above' ∧ stack = above' ++ m :: below := by
  obtain ⟨above', rfl, rest⟩ | ⟨below', rfl, rest⟩ := List.append_eq_append_iff.mp split
  · exact ⟨above', rfl, rest⟩
  · cases below' with
    | nil => exact ⟨[], by simp, rest.symm⟩
    | cons k below' =>
        obtain rfl : m = k := List.head_eq_of_cons_eq rest
        exact absurd (List.mem_append_right above List.mem_cons_self) old

variable [DecidableEq ν]

theorem mem_pushedFrom {m : ν} :
    m ∈ pushedFrom next n visited ↔ m ∈ next n ∧ m ∉ visited := by
  simp [pushedFrom]

/-! ## One step -/

namespace Progress

/-- What was visited or on the stack still is. -/
theorem visited_or_of_cons {m : ν} {pushed : List ν}
    (h : m ∈ visited ∨ m ∈ n :: stack) : m ∈ insert n visited ∨ m ∈ pushed ++ stack := by
  obtain old | member := h
  · exact .inl (Finset.mem_insert_of_mem old)
  · obtain rfl | member := List.mem_cons.mp member
    · exact .inl (Finset.mem_insert_self m visited)
    · exact .inr (List.mem_append_right pushed member)

/-- The top of the stack is visited, and its successors are pushed if the search goes on
from it. -/
theorem visit {pushed : List ν} (h : Progress next blocked goal start (n :: stack) visited)
    (noGoal : ¬ blocked n → ¬ goal n) (new : ∀ m ∈ pushed, m ∈ next n ∧ m ∉ insert n visited)
    (found : ∀ m ∈ pushed, ¬ blocked n)
    (all : ¬ blocked n → ∀ m ∈ next n, m ∈ insert n visited ∨ m ∈ pushed) :
    Progress next blocked goal start (pushed ++ stack) (insert n visited) where
  reached m member := by
    obtain member | member := List.mem_append.mp member
    · exact (h.reached n List.mem_cons_self).tail ⟨found m member, (new m member).1⟩
    · exact h.reached m (List.mem_cons_of_mem n member)
  begun := visited_or_of_cons h.begun
  noGoal m member free := by
    obtain rfl | member := Finset.mem_insert.mp member
    · exact noGoal free
    · exact h.noGoal m member free
  pending m member free k edge := by
    obtain rfl | member := Finset.mem_insert.mp member
    · exact (all free k edge).imp_right (List.mem_append_left stack)
    · exact visited_or_of_cons (h.pending m member free k edge)
  settled above m below split member free k edge := by
    -- a node that is pushed has not been visited
    have old : m ∉ pushed := fun pushed => (new m pushed).2 member
    obtain ⟨above', rfl, rfl⟩ := split_below old split
    obtain rfl | member := Finset.mem_insert.mp member
    · exact (all free k edge).imp_right (List.mem_append_left above')
    · obtain seen | here := h.settled (n :: above') m below rfl member free k edge
      · exact .inl (Finset.mem_insert_of_mem seen)
      · obtain rfl | here := List.mem_cons.mp here
        · exact .inl (Finset.mem_insert_self k visited)
        · exact .inr (List.mem_append_right pushed here)

/-- The step of a node from which the search does not go on. -/
theorem skip (h : Progress next blocked goal start (n :: stack) visited) (isBlocked : blocked n) :
    Progress next blocked goal start stack (insert n visited) := by
  have step := h.visit (fun free => absurd isBlocked free) (List.forall_mem_nil _)
    (List.forall_mem_nil _) (fun free => absurd isBlocked free)
  exact step

/-- The step of a node from which the search goes on. -/
theorem expand (h : Progress next blocked goal start (n :: stack) visited)
    (free : ¬ blocked n) (noGoal : ¬ goal n) :
    Progress next blocked goal start (pushedFrom next n (insert n visited) ++ stack)
      (insert n visited) := by
  refine h.visit (fun _ => noGoal) (fun m => mem_pushedFrom.1) (fun _ _ => free) ?_
  intro _ m edge
  by_cases old : m ∈ insert n visited
  · exact .inl old
  · exact .inr (mem_pushedFrom.2 ⟨edge, old⟩)

/-- From a node that is taken again, nothing is pushed. -/
theorem pushedFrom_eq_nil (h : Progress next blocked goal start (n :: stack) visited)
    (old : n ∈ visited) (free : ¬ blocked n) : pushedFrom next n (insert n visited) = [] := by
  refine List.eq_nil_iff_forall_not_mem.mpr fun m member => ?_
  obtain ⟨edge, new⟩ := mem_pushedFrom.1 member
  have seen := (h.settled [] n stack rfl old free m edge).resolve_right List.not_mem_nil
  exact new (Finset.mem_insert_of_mem seen)

end Progress

variable [DecidablePred blocked] [DecidablePred goal]

/-! ## What is found -/

theorem search_spec {found : Bool} (h : Progress next blocked goal start stack visited)
    (result : search next blocked goal fuel stack visited = some found) :
    found = true ↔ Finds next blocked goal start := by
  induction fuel generalizing stack visited with
  | zero => cases result
  | succ fuel ih =>
      cases stack with
      | nil =>
          obtain rfl : false = found := Option.some.inj result
          exact iff_of_false Bool.false_ne_true h.not_finds
      | cons n stack =>
          unfold search at result
          split at result
          next isBlocked => exact ih (h.skip isBlocked) result
          next free =>
            split at result
            next isGoal =>
              obtain rfl : true = found := Option.some.inj result
              exact iff_of_true rfl ⟨n, h.reached n List.mem_cons_self, free, isGoal⟩
            next noGoal => exact ih (h.expand free noGoal) result

/-! ## The search ends -/

theorem card_compl_insert_lt [Fintype ν] (new : n ∉ visited) :
    (insert n visited)ᶜ.card < visitedᶜ.card := by
  refine Finset.card_lt_card (Finset.compl_ssubset_compl.mpr ?_)
  exact Finset.ssubset_insert new

/-- The search ends if it does so after every step that does not end it. -/
theorem search_ends_cons (h : Progress next blocked goal start (n :: stack) visited)
    (rest : ∀ pushed, (n ∈ visited → pushed = []) →
      Progress next blocked goal start (pushed ++ stack) (insert n visited) →
      ∃ fuel found,
        search next blocked goal fuel (pushed ++ stack) (insert n visited) = some found) :
    ∃ fuel found, search next blocked goal fuel (n :: stack) visited = some found := by
  by_cases isBlocked : blocked n
  · obtain ⟨fuel, found, result⟩ := rest [] (fun _ => rfl) (h.skip isBlocked)
    exact ⟨fuel + 1, found, by simpa [search, isBlocked] using result⟩
  · by_cases isGoal : goal n
    · exact ⟨1, true, by simp [search, isBlocked, isGoal]⟩
    · obtain ⟨fuel, found, result⟩ := rest (pushedFrom next n (insert n visited))
        (fun old => h.pushedFrom_eq_nil old isBlocked) (h.expand isBlocked isGoal)
      exact ⟨fuel + 1, found, by simpa [search, isBlocked, isGoal] using result⟩

/-- A step visits a new node or makes the stack shorter. -/
theorem search_ends [Finite ν] (h : Progress next blocked goal start stack visited) :
    ∃ fuel found, search next blocked goal fuel stack visited = some found := by
  have := Fintype.ofFinite ν
  induction size : visitedᶜ.card using Nat.strong_induction_on generalizing stack visited with
  | h size fewer =>
      induction stack generalizing visited with
      | nil => exact ⟨1, false, rfl⟩
      | cons n stack shorter =>
          refine search_ends_cons h fun pushed none after => ?_
          by_cases old : n ∈ visited
          · obtain rfl := none old
            exact shorter after (by rw [Finset.insert_eq_self.mpr old, size])
          · exact fewer _ (size ▸ card_compl_insert_lt old) after rfl

end StackSearch
