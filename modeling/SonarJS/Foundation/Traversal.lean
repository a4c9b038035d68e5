import Mathlib.Data.Finset.Card
import Mathlib.Data.List.Nodup
import Mathlib.Data.Set.Finite.Basic
import SonarJS.Foundation.Action

/-!
# Traversing a graph with a queue

A queue holds nodes, a set holds the keys that have been seen. The first node is taken
from the queue. If its key is new, it is visited, and what the visit returns goes to the
end of the queue.

Which keys are visited, and in which order, does not depend on what a visit does besides
returning the successors of its key. So a traversal is a plain loop over the order of
the visits, also where a visit fails and ends it. The order has every reachable key
exactly once, and it is found if only finitely many keys are reachable.
-/

namespace Traversal

variable {ν κ ε σ : Type}

/-- The keys that are reached from some nodes. -/
inductive Reachable (key : ν → κ) (next : κ → List ν) (start : List ν) : κ → Prop
  | start {n : ν} : n ∈ start → Reachable key next start (key n)
  | next {k : κ} {n : ν} :
      Reachable key next start k → n ∈ next k → Reachable key next start (key n)

section Loop

variable [DecidableEq κ]

/-- The keys in the order in which they are seen, if that ends within some steps. -/
@[grind =] def order (key : ν → κ) (next : κ → List ν) : ℕ → List ν → List κ → Option (List κ)
  | 0, _, _ => none
  | _ + 1, [], seen => some seen
  | fuel + 1, n :: queue, seen =>
    if key n ∈ seen then order key next fuel queue seen
    else order key next fuel (queue ++ next (key n)) (seen ++ [key n])

/-- A loop that visits new keys. -/
structure Loop (ν κ ε σ : Type) where
  key : ν → κ
  visit : κ → EStateM ε σ (List ν)

/-- The loop, for at most so many iterations. -/
def Loop.run (L : Loop ν κ ε σ) : ℕ → List ν → List κ → EStateM ε σ (Option (List κ))
  | 0, _, _ => pure none
  | _ + 1, [], seen => pure (some seen)
  | fuel + 1, n :: queue, seen =>
    if L.key n ∈ seen then L.run fuel queue seen
    else do
      let found ← L.visit (L.key n)
      L.run fuel (queue ++ found) (seen ++ [L.key n])

/-- A visit that succeeds returns the successors of its key. -/
def Loop.Follows (L : Loop ν κ ε σ) (next : κ → List ν) : Prop :=
  ∀ k s found s', L.visit k s = .ok found s' → found = next k

/-- The visits, one after another. -/
def Loop.visitAll (L : Loop ν κ ε σ) : List κ → EStateM ε σ Unit
  | [] => pure ()
  | k :: ks => do
    let _ ← L.visit k
    L.visitAll ks

end Loop

/-! ## The order of the visits -/

section Order

variable {key : ν → κ} {next : κ → List ν} {start queue : List ν} {seen ks : List κ} {fuel : ℕ}

/-- What holds on the way: nothing is seen twice, everything is reachable, and what has
to be seen is seen or in the queue. -/
structure Progress (key : ν → κ) (next : κ → List ν) (start queue : List ν) (seen : List κ) :
    Prop where
  nodup : seen.Nodup
  seen_reachable : ∀ k ∈ seen, Reachable key next start k
  queue_reachable : ∀ n ∈ queue, Reachable key next start (key n)
  start_pending : ∀ n ∈ start, key n ∈ seen ∨ n ∈ queue
  next_pending : ∀ k ∈ seen, ∀ n ∈ next k, key n ∈ seen ∨ n ∈ queue

namespace Progress

theorem initial : Progress key next start start [] where
  nodup := List.nodup_nil
  seen_reachable := by simp
  queue_reachable _ member := .start member
  start_pending _ member := .inr member
  next_pending := by simp

theorem skip {n : ν} (h : Progress key next start (n :: queue) seen) (old : key n ∈ seen) :
    Progress key next start queue seen where
  nodup := h.nodup
  seen_reachable := h.seen_reachable
  queue_reachable m member := h.queue_reachable m (List.mem_cons_of_mem _ member)
  start_pending m member := by
    obtain known | queued := h.start_pending m member
    · exact .inl known
    · obtain rfl | queued := List.mem_cons.mp queued
      · exact .inl old
      · exact .inr queued
  next_pending k known m member := by
    obtain known | queued := h.next_pending k known m member
    · exact .inl known
    · obtain rfl | queued := List.mem_cons.mp queued
      · exact .inl old
      · exact .inr queued

theorem visit {n : ν} (h : Progress key next start (n :: queue) seen) (new : key n ∉ seen) :
    Progress key next start (queue ++ next (key n)) (seen ++ [key n]) where
  nodup := by
    rw [List.nodup_append]
    exact ⟨h.nodup, List.nodup_singleton _, fun k known k' same =>
      ne_of_mem_of_not_mem known (List.mem_singleton.mp same ▸ new)⟩
  seen_reachable k known := by
    obtain known | last := List.mem_append.mp known
    · exact h.seen_reachable k known
    · rw [List.mem_singleton.mp last]
      exact h.queue_reachable n List.mem_cons_self
  queue_reachable m queued := by
    obtain queued | found := List.mem_append.mp queued
    · exact h.queue_reachable m (List.mem_cons_of_mem _ queued)
    · exact .next (h.queue_reachable n List.mem_cons_self) found
  start_pending m member := by
    obtain known | queued := h.start_pending m member
    · exact .inl (List.mem_append_left _ known)
    · obtain rfl | queued := List.mem_cons.mp queued
      · exact .inl (by simp)
      · exact .inr (List.mem_append_left _ queued)
  next_pending k known m member := by
    obtain known | last := List.mem_append.mp known
    · obtain known | queued := h.next_pending k known m member
      · exact .inl (List.mem_append_left _ known)
      · obtain rfl | queued := List.mem_cons.mp queued
        · exact .inl (by simp)
        · exact .inr (List.mem_append_left _ queued)
    · rw [List.mem_singleton.mp last] at member
      exact .inr (List.mem_append_right _ member)

end Progress

/-- When the queue is empty, what has been seen is what is reachable. -/
theorem mem_of_reachable {k : κ} (h : Progress key next start [] seen)
    (reachable : Reachable key next start k) : k ∈ seen := by
  induction reachable with
  | start member => exact (h.start_pending _ member).resolve_right List.not_mem_nil
  | next _ member ih => exact (h.next_pending _ ih _ member).resolve_right List.not_mem_nil

variable [DecidableEq κ]

theorem order_spec (h : Progress key next start queue seen)
    (found : order key next fuel queue seen = some ks) :
    ks.Nodup ∧ ∀ k, k ∈ ks ↔ Reachable key next start k := by
  induction fuel generalizing queue seen with
  | zero => cases found
  | succ fuel ih =>
      cases queue with
      | nil =>
          cases found
          exact ⟨h.nodup, fun k => ⟨h.seen_reachable k, mem_of_reachable h⟩⟩
      | cons n queue =>
          rw [order] at found
          split at found
          · rename_i old
            exact ih (h.skip old) found
          · rename_i new
            exact ih (h.visit new) found

/-- The order has every reachable key once. -/
theorem order_reachable (found : order key next fuel start [] = some ks) :
    ks.Nodup ∧ ∀ k, k ∈ ks ↔ Reachable key next start k :=
  order_spec .initial found

/-- The seen keys stay at the beginning. -/
theorem prefix_of_order (found : order key next fuel queue seen = some ks) : seen <+: ks := by
  induction fuel generalizing queue seen with
  | zero => cases found
  | succ fuel ih =>
      cases queue with
      | nil =>
          cases found
          exact List.prefix_rfl
      | cons n queue =>
          rw [order] at found
          split at found
          · exact ih found
          · exact (List.prefix_append seen _).trans (ih found)

theorem exists_order_of_progress (bound : Finset κ)
    (inBound : ∀ k, Reachable key next start k → k ∈ bound)
    (h : Progress key next start queue seen) :
    ∃ fuel ks, order key next fuel queue seen = some ks := by
  -- a visit leaves fewer keys to be seen, and a skipped node a shorter queue
  induction left : (bound \ seen.toFinset).card using Nat.strong_induction_on
    generalizing queue seen with
  | _ left ihLeft =>
      subst left
      induction queue with
      | nil => exact ⟨1, seen, rfl⟩
      | cons n queue ihQueue =>
          by_cases old : key n ∈ seen
          · obtain ⟨fuel, ks, found⟩ := ihQueue (h.skip old)
            exact ⟨fuel + 1, ks, by rw [order, if_pos old, found]⟩
          · have fewer : (bound \ (seen ++ [key n]).toFinset).card <
                (bound \ seen.toFinset).card := by
              apply Finset.card_lt_card
              refine ⟨?_, fun sub => ?_⟩
              · apply Finset.sdiff_subset_sdiff (Finset.Subset.refl bound)
                intro k known
                rw [List.mem_toFinset] at known ⊢
                exact List.mem_append_left _ known
              · have member : key n ∈ bound \ seen.toFinset := by
                  rw [Finset.mem_sdiff, List.mem_toFinset]
                  exact ⟨inBound _ (h.queue_reachable n List.mem_cons_self), old⟩
                have := sub member
                simp at this
            obtain ⟨fuel, ks, found⟩ := ihLeft _ fewer (h.visit old) rfl
            exact ⟨fuel + 1, ks, by rw [order, if_neg old, found]⟩

/-- The order is found if only finitely many keys are reachable. -/
theorem exists_order (finite : {k | Reachable key next start k}.Finite) :
    ∃ fuel ks, order key next fuel start [] = some ks :=
  exists_order_of_progress finite.toFinset (fun _ reachable => finite.mem_toFinset.mpr reachable)
    .initial

/-- More steps do not change the order. -/
theorem order_mono {fuel' : ℕ} (le : fuel ≤ fuel')
    (found : order key next fuel queue seen = some ks) :
    order key next fuel' queue seen = some ks := by
  induction fuel generalizing queue seen fuel' with
  | zero => cases found
  | succ fuel ih =>
      obtain ⟨fuel', rfl⟩ : ∃ n, fuel' = n + 1 := ⟨fuel' - 1, by omega⟩
      have le' : fuel ≤ fuel' := by omega
      cases queue with
      | nil => exact found
      | cons n queue =>
          rw [order] at found ⊢
          split at found
          · rename_i old
            rw [if_pos old]
            exact ih le' found
          · rename_i new
            rw [if_neg new]
            exact ih le' found

/-- What agrees on all nodes that are met gives the same order. -/
theorem order_congr_of_reachable {key' : ν → κ} {next' : κ → List ν}
    (onQueue : ∀ n ∈ queue, Reachable key next start (key n) ∧ key n = key' n)
    (onNext : ∀ k, Reachable key next start k → next k = next' k ∧ ∀ n ∈ next k, key n = key' n) :
    order key next fuel queue seen = order key' next' fuel queue seen := by
  induction fuel generalizing queue seen with
  | zero => rfl
  | succ fuel ih =>
      cases queue with
      | nil => rfl
      | cons n queue =>
          rw [List.forall_mem_cons] at onQueue
          obtain ⟨⟨reachable, same⟩, onQueue⟩ := onQueue
          obtain ⟨sameNext, onFound⟩ := onNext (key n) reachable
          have onBoth : ∀ m ∈ queue ++ next (key n),
              Reachable key next start (key m) ∧ key m = key' m := by
            intro m member
            obtain queued | found := List.mem_append.mp member
            · exact onQueue m queued
            · exact ⟨.next reachable found, onFound m found⟩
          rw [order, order, ← same, ← sameNext, ih onQueue, ih onBoth]

theorem order_congr {key' : ν → κ} {next' : κ → List ν} (onStart : ∀ n ∈ start, key n = key' n)
    (onNext : ∀ k, Reachable key next start k → next k = next' k ∧ ∀ n ∈ next k, key n = key' n) :
    order key next fuel start [] = order key' next' fuel start [] :=
  order_congr_of_reachable (fun n member => ⟨.start member, onStart n member⟩) onNext

end Order

/-! ## The loop -/

namespace Loop

variable {L : Loop ν κ ε σ} {k : κ} {ks : List κ} {s s' : σ}

theorem visitAll_cons_ok {found : List ν} (h : L.visit k s = .ok found s') :
    L.visitAll (k :: ks) s = L.visitAll ks s' :=
  Action.bind_ok h

theorem visitAll_cons_error {e : ε} (h : L.visit k s = .error e s') :
    L.visitAll (k :: ks) s = .error e s' :=
  Action.bind_error h

/-- The loop makes the visits in their order, until one of them fails. -/
theorem run_eq [DecidableEq κ] (L : Loop ν κ ε σ) {next : κ → List ν} (follows : L.Follows next)
    {fuel : ℕ} {queue : List ν} {seen rest : List κ}
    (found : order L.key next fuel queue seen = some (seen ++ rest)) (s : σ) :
    L.run fuel queue seen s = (do
      L.visitAll rest
      return some (seen ++ rest) : EStateM ε σ (Option (List κ))) s := by
  induction fuel generalizing queue seen rest s with
  | zero => cases found
  | succ fuel ih =>
      cases queue with
      | nil =>
          have nothing : rest = [] := by simpa using (Option.some.inj found).symm
          subst nothing
          rw [List.append_nil]
          rfl
      | cons n queue =>
          rw [order] at found
          rw [run]
          split at found
          · rename_i old
            rw [if_pos old]
            exact ih found s
          · rename_i new
            rw [if_neg new]
            obtain ⟨rest', same⟩ := prefix_of_order found
            rw [List.append_assoc] at same
            obtain rfl : [L.key n] ++ rest' = rest := List.append_cancel_left same
            rw [← List.append_assoc] at found ⊢
            cases visited : L.visit (L.key n) s with
            | ok succ s' =>
                obtain rfl : succ = next (L.key n) := follows _ _ _ _ visited
                rw [Action.bind_ok visited, ih found s']
                exact (Action.bind_congr _ (visitAll_cons_ok visited)).symm
            | error e s' =>
                rw [Action.bind_error visited]
                exact (Action.bind_error (visitAll_cons_error visited)).symm

end Loop

end Traversal
