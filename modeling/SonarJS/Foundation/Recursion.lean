import Mathlib.Data.Finset.Card
import Mathlib.Data.Set.Finite.Basic
import Mathlib.Logic.Relation

/-!
# Recursion through a graph

A function is called on a node and calls itself on the nodes that `calls` lists, whatever
those calls return. Most of the calls go to smaller nodes; the others start from finitely
many nodes, the jumps. Such a recursion ends exactly if no node that it gets to calls
itself again, directly or through others.

With fuel, a call succeeds if the node is acceptable and its calls succeed with one unit
less. So some fuel is enough exactly if the recursion ends and meets acceptable nodes only.
-/

namespace Recursion

open Relation

variable {α : Type}

/-- `Calls calls n m`: the call on `n` makes a call on `m`. -/
def Calls (calls : α → List α) (n m : α) : Prop := m ∈ calls n

/-- The recursion from a node comes to an end. -/
def Ends (calls : α → List α) (n : α) : Prop := Acc (fun m n => Calls calls n m) n

/-- No node that is reached from a node is reached from itself. -/
def Acyclic (calls : α → List α) (n : α) : Prop :=
  ∀ m, ReflTransGen (Calls calls) n m → ¬ TransGen (Calls calls) m m

section Ends

variable {calls : α → List α} {n m : α}

theorem Ends.of_reached (ends : Ends calls n) (reached : ReflTransGen (Calls calls) n m) :
    Ends calls m := by
  induction reached with
  | refl => exact ends
  | tail _ called ih => exact ih.inv called

theorem Ends.not_cycle (ends : Ends calls n) : ¬ TransGen (Calls calls) n n := by
  induction ends with
  | intro n _ ih =>
      intro cycle
      obtain ⟨m, called, back⟩ := TransGen.head'_iff.mp cycle
      exact ih m called (TransGen.tail' back called)

theorem Ends.acyclic (ends : Ends calls n) : Acyclic calls n :=
  fun _ reached => (ends.of_reached reached).not_cycle

/-- `visited` are jumps on the way to a node. A jump that is made again would close a
cycle, so every jump takes one away from those that are left. -/
theorem ends_of_visited {size : α → ℕ} {jumps : Finset α} (acyclic : Acyclic calls n)
    (smaller : ∀ n, n ∉ jumps → ∀ m ∈ calls n, size m < size n) (visited : Finset α)
    (onTheWay : ∀ v ∈ visited, TransGen (Calls calls) v m)
    (reached : ReflTransGen (Calls calls) n m) : Ends calls m := by
  classical
  induction remaining : (jumps \ visited).card using Nat.strong_induction_on
    generalizing m visited with
  | _ left outer =>
  induction measure : size m using Nat.strong_induction_on generalizing m with
  | _ bound inner =>
  apply Acc.intro m
  intro child called
  have childReached := reached.tail called
  by_cases jump : m ∈ jumps
  · have new : m ∉ visited := fun old => acyclic m reached (onTheWay m old)
    have fewer : (jumps \ insert m visited).card < left := by
      rw [← remaining]
      apply Finset.card_lt_card
      refine ⟨Finset.sdiff_subset_sdiff (Finset.Subset.refl _) (Finset.subset_insert _ _), ?_⟩
      intro same
      have := same (Finset.mem_sdiff.mpr ⟨jump, new⟩)
      simp at this
    refine outer _ fewer (insert m visited) ?_ childReached rfl
    intro v member
    obtain rfl | member := Finset.mem_insert.mp member
    · exact .single called
    · exact (onTheWay v member).tail called
  · exact inner _ (measure ▸ smaller m jump child called)
      (fun v member => (onTheWay v member).tail called) childReached rfl

theorem ends_iff_acyclic (size : α → ℕ) {jumps : Set α} (finite : jumps.Finite)
    (smaller : ∀ n, n ∉ jumps → ∀ m ∈ calls n, size m < size n) (n : α) :
    Ends calls n ↔ Acyclic calls n := by
  constructor
  · exact Ends.acyclic
  · intro acyclic
    have smaller' : ∀ n, n ∉ finite.toFinset → ∀ m ∈ calls n, size m < size n := by
      simpa using smaller
    exact ends_of_visited acyclic smaller' ∅ (by simp) .refl

end Ends

/-! ## Fuel -/

section Fuel

variable {calls : α → List α} {good : α → Prop} {succeeds : ℕ → α → Prop}

theorem succeeds_mono (zero : ∀ n, ¬ succeeds 0 n)
    (succ : ∀ fuel n, succeeds (fuel + 1) n ↔ good n ∧ ∀ m ∈ calls n, succeeds fuel m)
    {fuel fuel' : ℕ} (le : fuel ≤ fuel') {n : α} (h : succeeds fuel n) : succeeds fuel' n := by
  induction fuel generalizing fuel' n with
  | zero => exact absurd h (zero n)
  | succ fuel ih =>
      obtain ⟨fuel', rfl⟩ : ∃ k, fuel' = k + 1 := ⟨fuel' - 1, by omega⟩
      obtain ⟨ok, callsOk⟩ := (succ fuel n).mp h
      refine (succ fuel' n).mpr ⟨ok, fun m called => ?_⟩
      exact ih (by omega) (callsOk m called)

/-- Finitely many calls have fuel in common. -/
theorem exists_common_fuel (mono : ∀ {fuel fuel' : ℕ}, fuel ≤ fuel' → ∀ {n : α},
      succeeds fuel n → succeeds fuel' n) (ns : List α)
    (each : ∀ m ∈ ns, ∃ fuel, succeeds fuel m) : ∃ fuel, ∀ m ∈ ns, succeeds fuel m := by
  induction ns with
  | nil => exact ⟨0, by simp⟩
  | cons n ns ih =>
      obtain ⟨fuel, rest⟩ := ih fun m member => each m (List.mem_cons_of_mem _ member)
      obtain ⟨fuel', first⟩ := each n (by simp)
      refine ⟨max fuel fuel', fun m member => ?_⟩
      obtain rfl | member := List.mem_cons.mp member
      · exact mono (le_max_right _ _) first
      · exact mono (le_max_left _ _) (rest m member)

theorem exists_succeeds_iff (zero : ∀ n, ¬ succeeds 0 n)
    (succ : ∀ fuel n, succeeds (fuel + 1) n ↔ good n ∧ ∀ m ∈ calls n, succeeds fuel m) (n : α) :
    (∃ fuel, succeeds fuel n) ↔
      Ends calls n ∧ ∀ m, ReflTransGen (Calls calls) n m → good m := by
  constructor
  · rintro ⟨fuel, h⟩
    induction fuel generalizing n with
    | zero => exact absurd h (zero n)
    | succ fuel ih =>
        obtain ⟨ok, callsOk⟩ := (succ fuel n).mp h
        refine ⟨Acc.intro n fun m called => (ih m (callsOk m called)).1, fun m reached => ?_⟩
        obtain rfl | ⟨child, called, reached⟩ := ReflTransGen.cases_head reached
        · exact ok
        · exact (ih child (callsOk child called)).2 m reached
  · rintro ⟨ends, ok⟩
    induction ends with
    | intro n _ ih =>
        have each : ∀ m ∈ calls n, ∃ fuel, succeeds fuel m := fun m called =>
          ih m called fun k reached => ok k (reached.head called)
        obtain ⟨fuel, callsOk⟩ := exists_common_fuel (succeeds_mono zero succ) (calls n) each
        exact ⟨fuel + 1, (succ fuel n).mpr ⟨ok n .refl, callsOk⟩⟩

end Fuel

end Recursion
