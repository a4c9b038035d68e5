import Mathlib.Data.Set.Card
import Mathlib.Data.Set.Finite.Basic
import Mathlib.Logic.Function.Iterate
import Mathlib.Order.Bounds.Basic

/-!
# Worklist loops

A worklist loop pops a node, visits it, and pushes the node's dependents when the
visit reports a change. The last entry of the list is popped first; the list is
kept here with that entry at its head, so pushing `a, b, c` in this order leaves
`c` on top.

Nothing below refers to a particular analysis. The first part gives the loop and
three rules for its runs: an invariant rule, a termination rule, and a rule for
what is settled once the list is empty. Every rule carries a condition on the
visits of the run, so that it also applies to loops that behave well only as long
as their visits meet that condition.

The second part is chaotic iteration of a monotone system of equations. A loop
iterates such a system when each visit recomputes the visited node's value from
its equation. Its runs then go up, stay below every solution, and halt in the
least one.
-/

namespace Worklist

variable {ν σ D : Type*}

/-- What a worklist loop does with one node: `visit` returns the new state and
whether the node's dependents have to be looked at again. -/
structure Loop (ν σ : Type*) where
  visit : ν → σ → σ × Bool
  dependents : ν → List ν

/-- The worklist, next node first, together with the state of the analysis. -/
@[ext] structure Config (ν σ : Type*) where
  worklist : List ν
  state : σ

namespace Loop

/-- One iteration of the loop. An empty worklist is left alone, so that runs are
plain iterates of this function. -/
def step (L : Loop ν σ) (c : Config ν σ) : Config ν σ :=
  match c.worklist with
  | [] => c
  | n :: rest =>
    let visited := L.visit n c.state
    if visited.2 then ⟨(L.dependents n).reverse ++ rest, visited.1⟩ else ⟨rest, visited.1⟩

/-- The loop leaves its `while` after finitely many iterations. -/
def Terminates (L : Loop ν σ) (c : Config ν σ) : Prop :=
  ∃ k, (L.step^[k] c).worklist = []

/-- The loop leaves its `while` in the state `final`. -/
def Halts (L : Loop ν σ) (c : Config ν σ) (final : σ) : Prop :=
  ∃ k, L.step^[k] c = ⟨[], final⟩

/-- Every visit of the run from `c` meets the condition `Good`, which may look at
the visited node and at the state just before the visit. -/
def Meets (L : Loop ν σ) (Good : ν → σ → Prop) (c : Config ν σ) : Prop :=
  ∀ k n rest s, L.step^[k] c = ⟨n :: rest, s⟩ → Good n s

variable {L : Loop ν σ} {c : Config ν σ} {Good : ν → σ → Prop}

@[simp] theorem step_nil (s : σ) : L.step ⟨[], s⟩ = ⟨[], s⟩ := rfl

theorem step_changed {n : ν} {rest : List ν} {s : σ} (h : (L.visit n s).2 = true) :
    L.step ⟨n :: rest, s⟩ = ⟨(L.dependents n).reverse ++ rest, (L.visit n s).1⟩ := by
  simp [step, h]

theorem step_unchanged {n : ν} {rest : List ν} {s : σ} (h : (L.visit n s).2 = false) :
    L.step ⟨n :: rest, s⟩ = ⟨rest, (L.visit n s).1⟩ := by
  simp [step, h]

theorem step_state (n : ν) (rest : List ν) (s : σ) :
    (L.step ⟨n :: rest, s⟩).state = (L.visit n s).1 := by
  cases h : (L.visit n s).2 with
  | true => rw [step_changed h]
  | false => rw [step_unchanged h]

theorem iterate_nil (s : σ) (k : ℕ) : L.step^[k] ⟨[], s⟩ = ⟨[], s⟩ :=
  Function.iterate_fixed (step_nil s) k

theorem Halts.terminates {final : σ} (h : L.Halts c final) : L.Terminates c := by
  obtain ⟨k, hk⟩ := h
  exact ⟨k, by rw [hk]⟩

theorem Terminates.halts (h : L.Terminates c) : ∃ final, L.Halts c final := by
  obtain ⟨k, hk⟩ := h
  exact ⟨(L.step^[k] c).state, k, Config.ext hk rfl⟩

/-- A run that ends, ends in one state only. -/
theorem Halts.unique {s t : σ} (hs : L.Halts c s) (ht : L.Halts c t) : s = t := by
  obtain ⟨j, hj⟩ := hs
  obtain ⟨k, hk⟩ := ht
  have hjk : L.step^[j + k] c = ⟨[], t⟩ := by
    rw [Function.iterate_add_apply, hk, iterate_nil]
  have hkj : L.step^[j + k] c = ⟨[], s⟩ := by
    rw [Nat.add_comm, Function.iterate_add_apply, hj, iterate_nil]
  exact congrArg Config.state (hkj.symm.trans hjk)

theorem terminates_iterate (k : ℕ) : L.Terminates (L.step^[k] c) ↔ L.Terminates c := by
  constructor
  · rintro ⟨j, hj⟩
    exact ⟨j + k, by rwa [Function.iterate_add_apply]⟩
  · rintro ⟨j, hj⟩
    refine ⟨j, ?_⟩
    rw [← Function.iterate_add_apply, Nat.add_comm, Function.iterate_add_apply]
    have : L.step^[j] c = ⟨[], (L.step^[j] c).state⟩ := Config.ext hj rfl
    rw [this, iterate_nil]

theorem Meets.of_forall (h : ∀ n s, Good n s) : L.Meets Good c :=
  fun _ n _ s _ => h n s

theorem Meets.tail (h : L.Meets Good c) : L.Meets Good (L.step c) := by
  intro k n rest s hk
  exact h (k + 1) n rest s (by rwa [Function.iterate_succ_apply])

theorem Meets.head {n : ν} {rest : List ν} {s : σ} (h : L.Meets Good ⟨n :: rest, s⟩) :
    Good n s :=
  h 0 n rest s rfl

/-- The invariant rule: what one visit preserves, a whole run preserves. -/
theorem Meets.invariant (h : L.Meets Good c) (Inv : σ → Prop)
    (visit : ∀ n s, Good n s → Inv s → Inv (L.visit n s).1) (start : Inv c.state) (k : ℕ) :
    Inv (L.step^[k] c).state := by
  induction k generalizing c with
  | zero => exact start
  | succ k ih =>
      rw [Function.iterate_succ_apply]
      apply ih h.tail
      obtain ⟨worklist, s⟩ := c
      cases worklist with
      | nil => exact start
      | cons n rest =>
          rw [step_state]
          exact visit n s h.head start

/-- A condition that follows from an invariant is met by every visit. -/
theorem Meets.of_invariant (Inv : σ → Prop) (visit : ∀ n s, Inv s → Inv (L.visit n s).1)
    (good : ∀ n s, Inv s → Good n s) (start : Inv c.state) : L.Meets Good c := by
  have always : L.Meets (fun _ _ => True) c := Meets.of_forall fun _ _ => trivial
  intro k n rest s hk
  have inv := always.invariant Inv (fun n s _ => visit n s) start k
  rw [hk] at inv
  exact good n s inv

/-- The termination rule. A visit that reports a change lowers the rank, any other
visit does not raise it; the length of the worklist takes care of the rest. -/
theorem Meets.terminates (h : L.Meets Good c) (Inv : σ → Prop) (rank : σ → ℕ)
    (visit : ∀ n s, Good n s → Inv s → Inv (L.visit n s).1)
    (changed : ∀ n s, Good n s → Inv s → (L.visit n s).2 = true →
      rank (L.visit n s).1 < rank s)
    (unchanged : ∀ n s, Good n s → Inv s → (L.visit n s).2 = false →
      rank (L.visit n s).1 ≤ rank s)
    (start : Inv c.state) : L.Terminates c := by
  obtain ⟨worklist, s⟩ := c
  -- Outer induction on the rank, inner induction on the worklist.
  induction hr : rank s using Nat.strong_induction_on generalizing worklist s with
  | _ r ihRank =>
      subst hr
      induction worklist generalizing s with
      | nil => exact ⟨0, rfl⟩
      | cons n rest ihRest =>
          have good := h.head
          have inv := visit n s good start
          have tail := h.tail
          rw [← terminates_iterate 1, Function.iterate_one]
          cases hc : (L.visit n s).2 with
          | true =>
              rw [step_changed hc] at tail ⊢
              exact ihRank _ (changed n s good start hc) _ _ tail inv rfl
          | false =>
              rw [step_unchanged hc] at tail ⊢
              obtain hlt | heq := (unchanged n s good start hc).lt_or_eq
              · exact ihRank _ hlt _ _ tail inv rfl
              · exact ihRest (L.visit n s).1 tail inv (by rw [heq]; exact ihRank)

private theorem pending_of_settle {Settled : ν → σ → Prop} {n m : ν} {s : σ} (rest : List ν)
    (h : Settled m (L.visit n s).1 ∨ (L.visit n s).2 = true ∧ m ∈ L.dependents n) :
    m ∈ (L.step ⟨n :: rest, s⟩).worklist ∨ Settled m (L.step ⟨n :: rest, s⟩).state := by
  rw [step_state]
  obtain done | ⟨changed, member⟩ := h
  · exact .inr done
  · rw [step_changed changed]
    exact .inl (List.mem_append_left _ (List.mem_reverse.mpr member))

private theorem mem_step_of_mem_rest {n m : ν} {rest : List ν} (s : σ) (h : m ∈ rest) :
    m ∈ (L.step ⟨n :: rest, s⟩).worklist := by
  cases hc : (L.visit n s).2 with
  | true =>
      rw [step_changed hc]
      exact List.mem_append_right _ h
  | false =>
      rw [step_unchanged hc]
      exact h

/-- The rule for the end of a run. `Settled` may be lost by a node only when a
visit reports a change and the node is one of the dependents that are pushed. -/
theorem Meets.settled {final : σ} (h : L.Meets Good c) (Inv : σ → Prop)
    (Settled : ν → σ → Prop)
    (visit : ∀ n s, Good n s → Inv s → Inv (L.visit n s).1)
    (settle : ∀ n s, Good n s → Inv s → ∀ m, m = n ∨ Settled m s →
      Settled m (L.visit n s).1 ∨ (L.visit n s).2 = true ∧ m ∈ L.dependents n)
    (start : Inv c.state) (pending : ∀ m, m ∈ c.worklist ∨ Settled m c.state)
    (halts : L.Halts c final) (m : ν) : Settled m final := by
  obtain ⟨k, hk⟩ := halts
  induction k generalizing c with
  | zero =>
      change c = ⟨[], final⟩ at hk
      subst hk
      exact (pending m).resolve_left List.not_mem_nil
  | succ k ih =>
      rw [Function.iterate_succ_apply] at hk
      obtain ⟨worklist, s⟩ := c
      cases worklist with
      | nil => exact ih h start pending hk
      | cons n rest =>
          have good := h.head
          refine ih h.tail ?_ ?_ hk
          · rw [step_state]
            exact visit n s good start
          · intro m
            obtain queued | done := pending m
            · obtain rfl | inRest := List.mem_cons.mp queued
              · exact pending_of_settle rest (settle m s good start m (.inl rfl))
              · exact .inl (mem_step_of_mem_rest s inRest)
            · exact pending_of_settle rest (settle n s good start m (.inr done))
/-! ## Runs that do not end -/

/-- A step only looks at the top of the worklist. -/
theorem step_append {w : List ν} (hw : w ≠ []) (rest : List ν) (s : σ) :
    L.step ⟨w ++ rest, s⟩ = ⟨(L.step ⟨w, s⟩).worklist ++ rest, (L.step ⟨w, s⟩).state⟩ := by
  cases w with
  | nil => exact absurd rfl hw
  | cons n tail =>
      cases hc : (L.visit n s).2 with
      | true => simp only [List.cons_append, step_changed hc, List.append_assoc]
      | false => simp only [List.cons_append, step_unchanged hc]

theorem iterate_append {w : List ν} {s : σ} {k : ℕ}
    (busy : ∀ i < k, (L.step^[i] ⟨w, s⟩).worklist ≠ []) (rest : List ν) :
    L.step^[k] ⟨w ++ rest, s⟩ =
      ⟨(L.step^[k] ⟨w, s⟩).worklist ++ rest, (L.step^[k] ⟨w, s⟩).state⟩ := by
  induction k with
  | zero => rfl
  | succ k ih =>
      rw [Function.iterate_succ_apply', ih fun i hi => busy i (Nat.lt_succ_of_lt hi),
        step_append (busy k (Nat.lt_succ_self k)), Function.iterate_succ_apply']

/-- A run that comes back to its state, with nothing but additional entries below
the worklist it started from, goes on for ever. -/
theorem not_terminates_of_return {w below : List ν} {s : σ} {k : ℕ} (hk : 0 < k)
    (busy : ∀ i < k, (L.step^[i] ⟨w, s⟩).worklist ≠ [])
    (return_ : L.step^[k] ⟨w, s⟩ = ⟨w ++ below, s⟩) (rest : List ν) :
    ¬ L.Terminates ⟨w ++ rest, s⟩ := by
  rintro ⟨n, hn⟩
  induction n using Nat.strong_induction_on generalizing rest with
  | _ n ih =>
      by_cases early : n < k
      · rw [iterate_append fun i hi => busy i (hi.trans early)] at hn
        exact busy n early (List.append_eq_nil_iff.mp hn).1
      · obtain ⟨m, rfl⟩ := Nat.exists_eq_add_of_le' (Nat.not_lt.mp early)
        rw [Function.iterate_add_apply, iterate_append busy, return_] at hn
        exact ih m (by omega) (below ++ rest) (by simpa [List.append_assoc] using hn)

end Loop

/-! ## Chaotic iteration -/

/-- The loop iterates the equations `x n = F n x`. The state of the loop may hold
more than the values; `value` reads them off. A visit only has to follow the
equation while the values are still on their way up, and only where it is `Good`. -/
structure Iterates [DecidableEq ν] [PartialOrder D] (L : Loop ν σ) (F : ν → (ν → D) → D)
    (value : σ → ν → D) (Good : ν → σ → Prop) : Prop where
  mono : ∀ n, Monotone (F n)
  local_of_not_dependent : ∀ n m x d, m ∉ L.dependents n →
    F m (Function.update x n d) = F m x
  visit_value : ∀ n s, Good n s → (∀ m, value s m ≤ F m (value s)) →
    value (L.visit n s).1 = Function.update (value s) n (F n (value s))
  visit_changed : ∀ n s, Good n s → (∀ m, value s m ≤ F m (value s)) →
    ((L.visit n s).2 = true ↔ value s n ≠ F n (value s))

namespace Iterates

variable [DecidableEq ν] [PartialOrder D] {L : Loop ν σ} {F : ν → (ν → D) → D}
  {value : σ → ν → D} {Good : ν → σ → Prop} {c : Config ν σ} {final : σ}

/-- Replacing one value by the right-hand side of its equation goes up. -/
theorem le_update {x : ν → D} {n : ν} (up : x n ≤ F n x) :
    x ≤ Function.update x n (F n x) := by
  intro m
  by_cases h : m = n
  · subst h
    simpa using up
  · rw [Function.update_of_ne h]

/-- Values on their way up stay on their way up. -/
theorem visit_up (h : Iterates L F value Good) (n : ν) (s : σ) (good : Good n s)
    (up : ∀ m, value s m ≤ F m (value s)) (m : ν) :
    value (L.visit n s).1 m ≤ F m (value (L.visit n s).1) := by
  rw [h.visit_value n s good up]
  have raised : F m (value s) ≤ F m (Function.update (value s) n (F n (value s))) :=
    h.mono m (le_update (up n))
  by_cases hm : m = n
  · subst hm
    simpa using raised
  · rw [Function.update_of_ne hm]
    exact (up m).trans raised

theorem up (h : Iterates L F value Good) (meets : L.Meets Good c)
    (start : ∀ m, value c.state m ≤ F m (value c.state)) (k : ℕ) (m : ν) :
    value (L.step^[k] c).state m ≤ F m (value (L.step^[k] c).state) :=
  meets.invariant (fun s => ∀ m, value s m ≤ F m (value s)) h.visit_up start k m

/-- The run stays below everything that the equations do not lift. -/
theorem below (h : Iterates L F value Good) (meets : L.Meets Good c)
    (start : ∀ m, value c.state m ≤ F m (value c.state)) {x : ν → D}
    (hx : ∀ n, F n x ≤ x n) (startBelow : value c.state ≤ x) (k : ℕ) :
    value (L.step^[k] c).state ≤ x := by
  refine (meets.invariant (fun s => (∀ m, value s m ≤ F m (value s)) ∧ value s ≤ x)
    ?_ ⟨start, startBelow⟩ k).2
  rintro n s good ⟨up, le⟩
  refine ⟨h.visit_up n s good up, ?_⟩
  rw [h.visit_value n s good up]
  intro m
  by_cases hm : m = n
  · subst hm
    simpa using (h.mono m le).trans (hx m)
  · rw [Function.update_of_ne hm]
    exact le m

/-- A run that only ever meets finitely many families of values terminates: each
reported change moves strictly up inside that finite set. -/
theorem terminates (h : Iterates L F value Good) (meets : L.Meets Good c)
    (start : ∀ m, value c.state m ≤ F m (value c.state)) {S : Set (ν → D)} (finite : S.Finite)
    (startIn : value c.state ∈ S)
    (closed : ∀ x ∈ S, ∀ n, Function.update x n (F n x) ∈ S) : L.Terminates c := by
  have above (s : σ) : {y ∈ S | value s ≤ y}.Finite := finite.subset (Set.sep_subset _ _)
  have shrink : ∀ n s, Good n s → (∀ m, value s m ≤ F m (value s)) →
      {y ∈ S | value (L.visit n s).1 ≤ y} ⊆ {y ∈ S | value s ≤ y} := by
    rintro n s good up y ⟨inS, le⟩
    rw [h.visit_value n s good up] at le
    exact ⟨inS, (le_update (up n)).trans le⟩
  refine meets.terminates (fun s => (∀ m, value s m ≤ F m (value s)) ∧ value s ∈ S)
    (fun s => {y ∈ S | value s ≤ y}.ncard) ?_ ?_ ?_ ⟨start, startIn⟩
  · rintro n s good ⟨up, inS⟩
    refine ⟨h.visit_up n s good up, ?_⟩
    rw [h.visit_value n s good up]
    exact closed _ inS n
  · rintro n s good ⟨up, inS⟩ changed
    refine Set.ncard_lt_ncard ⟨shrink n s good up, ?_⟩ (above s)
    intro sub
    have le : value (L.visit n s).1 ≤ value s := (sub ⟨inS, le_rfl⟩).2
    rw [h.visit_value n s good up] at le
    have len : F n (value s) ≤ value s n := by simpa using le n
    exact (h.visit_changed n s good up).mp changed (le_antisymm (up n) len)
  · rintro n s good ⟨up, -⟩ -
    exact Set.ncard_le_ncard (shrink n s good up) (above s)

/-- When the loop halts, every equation holds. -/
theorem solution (h : Iterates L F value Good) (meets : L.Meets Good c)
    (start : ∀ m, value c.state m ≤ F m (value c.state)) (full : ∀ m, m ∈ c.worklist)
    (halts : L.Halts c final) (m : ν) : value final m = F m (value final) := by
  refine meets.settled (fun s => ∀ m, value s m ≤ F m (value s))
    (fun m s => value s m = F m (value s)) h.visit_up ?_ start
    (fun m => .inl (full m)) halts m
  intro n s good up m settled
  rw [h.visit_value n s good up]
  cases changed : (L.visit n s).2 with
  | true =>
      by_cases dependent : m ∈ L.dependents n
      · exact .inr ⟨rfl, dependent⟩
      · left
        rw [h.local_of_not_dependent n m _ _ dependent]
        by_cases hm : m = n
        · subst hm
          simp
        · rw [Function.update_of_ne hm]
          exact settled.resolve_left hm
  | false =>
      left
      have same : value s n = F n (value s) := by
        by_contra differs
        rw [(h.visit_changed n s good up).mpr differs] at changed
        exact Bool.noConfusion changed
      rw [← same, Function.update_eq_self]
      obtain rfl | done := settled
      · exact same
      · exact done

/-- Started at the bottom, the loop halts in the least solution. -/
theorem isLeast [OrderBot D] (h : Iterates L F value Good) (meets : L.Meets Good c)
    (bottom : ∀ m, value c.state m = ⊥) (full : ∀ m, m ∈ c.worklist)
    (halts : L.Halts c final) : IsLeast {x | ∀ n, F n x ≤ x n} (value final) := by
  have start : ∀ m, value c.state m ≤ F m (value c.state) := by
    intro m
    rw [bottom m]
    exact bot_le
  refine ⟨fun m => (h.solution meets start full halts m).ge, fun x hx => ?_⟩
  obtain ⟨k, hk⟩ := halts
  have le := h.below meets start hx (fun m => by rw [bottom m]; exact bot_le) k
  rwa [hk] at le

end Iterates

end Worklist
