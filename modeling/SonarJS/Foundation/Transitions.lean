import Mathlib.Data.List.Induction
import Mathlib.Tactic.Common

/-!
# Transition systems and their histories

A system starts in one state and is driven by events; an event that cannot happen in a
state has no step there. What holds in a state usually depends on how it was reached, so
the rules below keep the events of a run next to the state it leads to: an invariant is a
relation between the two, and so is the abstraction of one system by another.
-/

namespace SonarJS

structure TransitionSystem (σ ε : Type) where
  initial : σ
  step : σ → ε → Option σ

namespace TransitionSystem

variable {σ τ ε : Type} (system : TransitionSystem σ ε)

/-- The state after some events, if each of them can happen in its turn. -/
def run : σ → List ε → Option σ
  | s, [] => some s
  | s, e :: es => (system.step s e).bind fun t => run t es

/-- The events lead from the initial state to `s`. -/
def Reaches (events : List ε) (s : σ) : Prop := system.run system.initial events = some s

@[simp] theorem run_nil (s : σ) : system.run s [] = some s := rfl

theorem run_append (s : σ) (es fs : List ε) :
    system.run s (es ++ fs) = (system.run s es).bind fun t => system.run t fs := by
  induction es generalizing s with
  | nil => rfl
  | cons e es ih =>
      cases stepped : system.step s e with
      | none => simp [run, stepped]
      | some t => simp [run, stepped, ih]

theorem run_append_eq_some {s u : σ} {es fs : List ε} :
    system.run s (es ++ fs) = some u ↔
      ∃ t, system.run s es = some t ∧ system.run t fs = some u := by
  rw [run_append, Option.bind_eq_some_iff]

theorem run_concat_eq_some {s u : σ} {es : List ε} {e : ε} :
    system.run s (es ++ [e]) = some u ↔
      ∃ t, system.run s es = some t ∧ system.step t e = some u := by
  rw [run_append_eq_some]
  simp [run]

variable {system}

theorem reaches_nil : system.Reaches [] system.initial := rfl

theorem reaches_concat {es : List ε} {e : ε} {u : σ} :
    system.Reaches (es ++ [e]) u ↔ ∃ t, system.Reaches es t ∧ system.step t e = some u :=
  system.run_concat_eq_some

theorem reaches_append {es fs : List ε} {u : σ} :
    system.Reaches (es ++ fs) u ↔ ∃ t, system.Reaches es t ∧ system.run t fs = some u :=
  system.run_append_eq_some

theorem Reaches.unique {es : List ε} {s t : σ} (first : system.Reaches es s)
    (second : system.Reaches es t) : s = t :=
  Option.some.inj (first.symm.trans second)

/-- The rule of invariants. The relation between history and state holds initially, and
every step from a reached state keeps it. -/
theorem Reaches.invariant {P : List ε → σ → Prop} (initial : P [] system.initial)
    (step : ∀ es s e t, system.Reaches es s → P es s → system.step s e = some t →
      P (es ++ [e]) t) {events : List ε} {s : σ} (reached : system.Reaches events s) :
    P events s := by
  induction events using List.reverseRecOn generalizing s with
  | nil =>
      cases reached.unique reaches_nil
      exact initial
  | append_singleton es e ih =>
      obtain ⟨t, before, stepped⟩ := reaches_concat.1 reached
      exact step es t e s before (ih before) stepped

/-- What every step of some events keeps, their run keeps from any state. -/
theorem run_keeps {P : σ → Prop} {es : List ε}
    (step : ∀ e ∈ es, ∀ s t, P s → system.step s e = some t → P t)
    {s u : σ} (ran : system.run s es = some u) (holds : P s) : P u := by
  induction es generalizing s with
  | nil =>
      cases ran
      exact holds
  | cons e es ih =>
      obtain ⟨t, stepped, rest⟩ := Option.bind_eq_some_iff.mp ran
      rw [List.forall_mem_cons] at step
      exact ih step.2 rest (step.1 s t holds stepped)

/-- The rule of refinement: a relation that holds initially and that every pair of steps
keeps relates the states that the same events lead to. -/
theorem Reaches.simulates {abstract : TransitionSystem τ ε} {R : σ → τ → Prop}
    (initial : R system.initial abstract.initial)
    (step : ∀ s a e t, R s a → system.step s e = some t →
      ∃ b, abstract.step a e = some b ∧ R t b) {events : List ε} {s : σ}
    (reached : system.Reaches events s) : ∃ a, abstract.Reaches events a ∧ R s a := by
  induction events using List.reverseRecOn generalizing s with
  | nil =>
      cases reached.unique reaches_nil
      exact ⟨abstract.initial, reaches_nil, initial⟩
  | append_singleton es e ih =>
      obtain ⟨t, before, stepped⟩ := reaches_concat.1 reached
      obtain ⟨a, reachedAbstract, related⟩ := ih before
      obtain ⟨b, steppedAbstract, related'⟩ := step t a e s related stepped
      exact ⟨b, reaches_concat.2 ⟨a, reachedAbstract, steppedAbstract⟩, related'⟩

end TransitionSystem

end SonarJS
