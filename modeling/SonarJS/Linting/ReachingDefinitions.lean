import SonarJS.Foundation.Worklist
import SonarJS.Linting.CodePath
import Mathlib.Data.Finset.Lattice.Basic
import Mathlib.Order.WithBot

/-!
# Reaching definitions

The worklist of `helpers/reaching-definitions.ts`. For every variable a program
state holds the literals that may have been assigned to it, or `unknownValue`. A
variable without an entry counts as unwritten at joins, but copying it gives
`unknownValue`.

`level` orders the possible entries: no entry, then the sets of literals by
inclusion, then `unknownValue`. Joins are suprema in this order. The transfer of a
segment is not monotone in it, because of the copies of variables without an entry.
-/

namespace SonarJS

abbrev LiteralValue := String

/-- `AssignedValues | UnknownValue`. -/
inductive Values
  | assignedValues (vals : Finset LiteralValue)
  | unknownValue
deriving DecidableEq

/-- `Map<Variable, Values>`. -/
abbrev ProgramState := OrderedMap Variable Values

/-- `getVariableFromIdentifier`: the scope itself and the one around it are searched. -/
def getVariableFromIdentifier (name : String) (scope : Scope) : Option Variable :=
  match scope.declared.find? (·.name = name) with
  | some v => some v
  | none => scope.upper.bind fun upper => upper.declared.find? (·.name = name)

/-- `resolveAssignedValues`. -/
def resolveAssignedValues (lhsVariable : Variable) (writeExpr : Option WriteExpr)
    (assignedValuesMap : ProgramState) (scope : Scope) : Values :=
  match writeExpr with
  | none => .unknownValue
  | some (.literal raw _) => if raw = "" then .unknownValue else .assignedValues {raw}
  | some (.identifier name) =>
    match getVariableFromIdentifier name scope with
    | none => .unknownValue
    | some v =>
      if v = lhsVariable then .unknownValue else (assignedValuesMap.get v).getD .unknownValue
  | some _ => .unknownValue

/-- `valuesEquals`, with `setEquals` for two sets. -/
def valuesEquals : Values → Values → Bool
  | .assignedValues a, .assignedValues b => a.card = b.card && decide (∀ e ∈ a, e ∈ b)
  | .unknownValue, .unknownValue => true
  | _, _ => false

/-- `equals` on program states. -/
def equals (ps1 ps2 : ProgramState) : Bool :=
  if ps1.size ≠ ps2.size then false
  else ps1.entries.all fun e =>
    match ps2.get e.1 with
    | none => false
    | some values2 => valuesEquals values2 e.2

/-- What `join` stores for a key: the set is united with the one stored before, and
everything else becomes unknown. -/
def joinValues (inValues : Option Values) (values : Values) : Values :=
  match inValues.getD (.assignedValues ∅), values with
  | .assignedValues a, .assignedValues b => .assignedValues (a ∪ b)
  | _, _ => .unknownValue

/-- `ReachingDefinitions` without its `segment`, which is the key it is stored under. -/
structure ReachingDefinitions where
  inMap : ProgramState := .empty
  out : ProgramState := .empty
  references : OrderedSet Reference := .empty
deriving DecidableEq

namespace ReachingDefinitions

/-- `ReachingDefinitions.add`. -/
def add (defs : ReachingDefinitions) (ref : Reference) : ReachingDefinitions :=
  if ref.resolved.isSome then { defs with references := defs.references.add ref } else defs

/-- What a segment has collected after `add` was called on the references in turn. -/
def collect (refs : List Reference) : ReachingDefinitions := refs.foldl add {}

/-- `updateProgramState`. -/
def updateProgramState (programState : ProgramState) (ref : Reference) : ProgramState :=
  match ref.resolved with
  | none => programState
  | some v =>
    if ref.isWrite then
      match ref.writeExpr with
      | none => programState.set v .unknownValue
      | some writeExpr =>
        programState.set v (resolveAssignedValues v (some writeExpr) programState ref.scope)
    else programState

/-- `join`: the entries of the predecessor's `out` map go into the `in` map. -/
def join (inMap previousOut : ProgramState) : ProgramState :=
  OrderedMap.mergeWith joinValues inMap previousOut

variable {ι : Type*} (G : CodePathGraph ι)

/-- The `in` map that `propagate` builds from the predecessors' `out` maps. -/
def joinPrev (map : ι → ReachingDefinitions) (s : ι) : ProgramState :=
  (G.prevSegments s).foldl (fun inMap prev => join inMap (map prev).out) .empty

/-- The program state after all references of the segment. -/
def transfer (refs : List Reference) (inMap : ProgramState) : ProgramState :=
  refs.foldl updateProgramState inMap

/-- `propagate` for the segment `s`. -/
def propagate (map : ι → ReachingDefinitions) (s : ι) : ReachingDefinitions × Bool :=
  let defs := map s
  let inMap := joinPrev G map s
  let newOut := transfer defs.references.elems inMap
  if !equals defs.out newOut then ({ defs with inMap := inMap, out := newOut }, true)
  else ({ defs with inMap := inMap }, false)

end ReachingDefinitions

open ReachingDefinitions

/-- The loop of `reachingDefinitions`: the map is updated at the popped segment. -/
def reachingDefinitions {ι : Type*} [DecidableEq ι] (G : CodePathGraph ι) :
    Worklist.Loop ι (ι → ReachingDefinitions) where
  visit s map :=
    let propagated := propagate G map s
    (Function.update map s propagated.1, propagated.2)
  dependents := G.nextSegments

/-- The worklist starts with all segments in map order; the last one is popped first. -/
def reachingDefinitionsStart {ι : Type*} (order : SegmentOrder ι) (refs : ι → List Reference) :
    Worklist.Config ι (ι → ReachingDefinitions) :=
  ⟨order.segments.reverse, fun s => collect (refs s)⟩

/-! ## Levels -/

/-- No entry, a set of literals, or unknown, from the bottom to the top. -/
abbrev Level := WithBot (WithTop (Finset LiteralValue))

def Values.level : Values → Level
  | .assignedValues vals => ((vals : WithTop (Finset LiteralValue)) : Level)
  | .unknownValue => ((⊤ : WithTop (Finset LiteralValue)) : Level)

/-- The level of a variable in a program state. -/
@[grind =] def level : Option Values → Level
  | none => ⊥
  | some values => values.level

theorem Values.level_injective : Function.Injective Values.level := by
  intro a b h
  cases a <;> cases b <;> simp_all [Values.level]

theorem level_injective : Function.Injective level := by
  intro a b h
  cases a with
  | none =>
      cases b with
      | none => rfl
      | some b => cases b <;> simp [level, Values.level] at h
  | some a =>
      cases b with
      | none => cases a <;> simp [level, Values.level] at h
      | some b => rw [Values.level_injective h]

@[simp] theorem level_eq_bot_iff {o : Option Values} : level o = ⊥ ↔ o = none :=
  ⟨fun h => level_injective h, fun h => by rw [h]; rfl⟩

/-- A program state as a family of levels. -/
def ProgramState.levels (programState : ProgramState) (v : Variable) : Level :=
  level (programState.get v)

@[simp] theorem ProgramState.levels_empty : ProgramState.levels .empty = ⊥ := rfl

theorem ProgramState.levels_set (programState : ProgramState) (v : Variable) (values : Values) :
    ProgramState.levels (programState.set v values) =
      Function.update (ProgramState.levels programState) v values.level := by
  funext w
  by_cases h : w = v
  · subst h
    simp [ProgramState.levels, level]
  · simp [ProgramState.levels, h]

theorem level_joinValues (old : Option Values) (new : Values) :
    (joinValues old new).level = level old ⊔ new.level := by
  cases old with
  | none => cases new <;> simp [joinValues, Values.level, level]
  | some old =>
      cases old <;> cases new <;>
        simp [joinValues, Values.level, level, ← WithBot.coe_sup, ← WithTop.coe_sup]

/-- Joining program states is taking suprema of levels. -/
theorem ProgramState.levels_join (a b : ProgramState) :
    ProgramState.levels (join a b) = ProgramState.levels a ⊔ ProgramState.levels b := by
  funext v
  rw [Pi.sup_apply, ProgramState.levels, join, OrderedMap.get_mergeWith]
  cases hb : b.get v with
  | none => simp [ProgramState.levels, hb, level]
  | some values =>
      simp only [ProgramState.levels, hb, level]
      exact level_joinValues _ _

theorem valuesEquals_iff {a b : Values} : valuesEquals a b = true ↔ a = b := by
  cases a with
  | unknownValue => cases b <;> simp [valuesEquals]
  | assignedValues s =>
      cases b with
      | unknownValue => simp [valuesEquals]
      | assignedValues t =>
          simp only [valuesEquals, Bool.and_eq_true, decide_eq_true_eq, Values.assignedValues.injEq]
          constructor
          · rintro ⟨card, sub⟩
            exact Finset.eq_of_subset_of_card_le sub card.ge
          · rintro rfl
            exact ⟨rfl, fun _ h => h⟩

/-- `equals` compares two program states as maps. -/
theorem equals_iff {a b : ProgramState} :
    equals a b = true ↔ ProgramState.levels a = ProgramState.levels b := by
  have pointwise : ProgramState.levels a = ProgramState.levels b ↔ ∀ v, a.get v = b.get v :=
    funext_iff.trans (forall_congr' fun v => level_injective.eq_iff)
  rw [pointwise, equals]
  constructor
  · intro h
    split at h
    · exact absurd h Bool.false_ne_true
    · rename_i size
      apply OrderedMap.get_eq_of_size_eq (not_not.mp size)
      intro e he
      have found := List.all_eq_true.mp h e he
      cases hb : b.get e.1 with
      | none => simp [hb] at found
      | some values =>
          rw [hb] at found
          rw [valuesEquals_iff.1 found]
  · intro h
    rw [if_neg (not_not.mpr (OrderedMap.size_eq_of_get_eq h)), List.all_eq_true]
    intro e he
    rw [← h, OrderedMap.get_eq_some_iff.mpr he]
    exact valuesEquals_iff.2 rfl

/-! ## Effects of references -/

/-- What a reference does to a program state. -/
inductive Effect
  | skip
  | store (v : Variable) (values : Values)
  | copy (v x : Variable)

/-- A copy is a write of an identifier that resolves to another variable. -/
def Reference.effect (ref : Reference) : Effect :=
  match ref.resolved with
  | none => .skip
  | some v =>
    if ref.isWrite then
      match ref.writeExpr with
      | some (.literal raw _) =>
        .store v (if raw = "" then .unknownValue else .assignedValues {raw})
      | some (.identifier name) =>
        match getVariableFromIdentifier name ref.scope with
        | some x => if x = v then .store v .unknownValue else .copy v x
        | none => .store v .unknownValue
      | _ => .store v .unknownValue
    else .skip

/-- `updateProgramState`, by effects. -/
theorem updateProgramState_eq (programState : ProgramState) (ref : Reference) :
    updateProgramState programState ref =
      match ref.effect with
      | .skip => programState
      | .store v values => programState.set v values
      | .copy v x => programState.set v ((programState.get x).getD .unknownValue) := by
  unfold updateProgramState Reference.effect
  cases ref.resolved with
  | none => rfl
  | some v =>
      cases ref.isWrite with
      | false => rfl
      | true =>
          obtain _ | (_ | name | _ | _ | _ | _) := ref.writeExpr
          case some.identifier =>
            simp only [resolveAssignedValues, if_true]
            cases getVariableFromIdentifier name ref.scope with
            | none => rfl
            | some x =>
                by_cases hx : x = v
                · simp [hx]
                · simp [hx]
          all_goals rfl

/-- Everything a reference can do: nothing, unless it writes; otherwise it stores
fixed values or copies another variable. -/
theorem Reference.effect_cases (ref : Reference) :
    ((∀ v, ¬ ref.Writes v) ∧ ref.effect = .skip) ∨
      ∃ v, ref.Writes v ∧
        ((∃ values, ref.effect = .store v values) ∨ ∃ x, x ≠ v ∧ ref.effect = .copy v x) := by
  cases hr : ref.resolved with
  | none => exact .inl ⟨fun v h => by simp [Reference.Writes, hr] at h, by simp [effect, hr]⟩
  | some v =>
      cases hw : ref.isWrite with
      | false =>
          exact .inl ⟨fun v h => by simp [Reference.Writes, hw] at h, by simp [effect, hr, hw]⟩
      | true =>
          refine .inr ⟨v, ⟨hr, hw⟩, ?_⟩
          simp only [effect, hr, hw, if_true]
          split
          · exact .inl ⟨_, rfl⟩
          · split
            · split
              · exact .inl ⟨_, rfl⟩
              · rename_i hx
                exact .inr ⟨_, hx, rfl⟩
            · exact .inl ⟨_, rfl⟩
          · exact .inl ⟨_, rfl⟩

end SonarJS
