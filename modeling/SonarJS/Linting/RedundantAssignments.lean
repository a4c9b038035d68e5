import SonarJS.Linting.ReachingDefinitions.Runs

/-!
# Redundant assignments

The reporting half of `no-redundant-assignments.ts`. Once the reaching definitions
are known, `checkSegment` replays the references of a segment on its `in` map and
reports a write when the map holds one literal for the variable and the write
assigns the same one.

An execution follows a path of segments from the initial one and performs their
references in turn. The map describes a variable faithfully as long as each write
is recorded as what it is. Three kinds of writes are not: a compound assignment is
recorded as if it were a plain one, the replay leaves out the writes that the rule
does not report on, and a copy of a variable that the execution has not written yet
is given the values of the other paths. `tracked` follows an execution and keeps
the variables that are still described; reports about those are sound.
-/

namespace SonarJS

namespace RedundantAssignments

open ReachingDefinitions

/-- What the rule has gathered about the file when `Program:exit` is reached: the
ids of the code paths in which a variable is used. -/
structure Context where
  variableUsages : Variable → OrderedSet String

/-- `isCompoundAssignment`, of the right-hand side of the reference. -/
def isCompoundAssignment (ref : Reference) : Bool :=
  ref.writeExpr.isSome && ref.writeExprParent = .assignmentExpression .compound

/-- `isSelfAssignement`. -/
def isSelfAssignement (ref : Reference) : Bool :=
  match ref.writeExpr with
  | some (.identifier name) =>
    match ref.resolved, getVariableFromIdentifier name ref.scope with
    | some lhs, some rhs => lhs = rhs
    | _, _ => false
  | _ => false

def isDefaultParameter (ref : Reference) : Bool :=
  !ref.isJSX && ref.identifierParent = .assignmentPattern

/-- `isWrittenOnlyOnce`, to avoid raising on `while (cond) { let x = 42; }`. -/
def isWrittenOnlyOnce (v : Variable) : Bool := v.writeReferences = 1

def shouldReportReference (ref : Reference) : Bool :=
  match ref.resolved with
  | none => false
  | some v =>
    !isDefaultParameter ref && !v.name.startsWith "_" && !isCompoundAssignment ref &&
      !isSelfAssignement ref &&
      !v.defs.any fun definition => definition = .parameter || definition = .variableDef false

namespace Context

variable (ctx : Context)

def variableUsedOutsideOfCodePath (v : Variable) : Bool :=
  1 < (ctx.variableUsages v).elems.length

def shouldReport (ref : Reference) : Bool :=
  match ref.resolved with
  | none => false
  | some v => shouldReportReference ref && !ctx.variableUsedOutsideOfCodePath v

end Context

/-- The text of `reviewAssignment`. -/
def reviewAssignment (symbol : String) : String :=
  "Review this redundant assignment: \"" ++ symbol ++
    "\" already holds the assigned value along all execution paths."

/-- A report is made on the right-hand side of a reference. -/
structure Report where
  reference : Reference
  message : String
deriving DecidableEq

/-- `checkRedundantAssignement`, with the test on `lhsValues` made before the call.
Sets of size one hold the same literal if they are equal. -/
def checkRedundantAssignement (ref : Reference) (v : Variable) (lhsValues : Option Values)
    (rhsValues : Values) : List Report :=
  match lhsValues, rhsValues with
  | some (.assignedValues lhs), .assignedValues rhs =>
    if lhs.card = 1 && rhs.card = 1 && !isWrittenOnlyOnce v && lhs = rhs then
      [⟨ref, reviewAssignment v.name⟩]
    else []
  | _, _ => []

/-- One turn of the `forEach` of `checkSegment`, with the reports made so far. -/
def checkReference (shouldReport : Reference → Bool) (state : ProgramState × List Report)
    (ref : Reference) : ProgramState × List Report :=
  match ref.resolved with
  | none => state
  | some v =>
    if ref.isWrite && shouldReport ref then
      let rhsValues := resolveAssignedValues v ref.writeExpr state.1 ref.scope
      (state.1.set v rhsValues,
        state.2 ++ checkRedundantAssignement ref v (state.1.get v) rhsValues)
    else state

/-- `checkSegment`: the reports it makes. -/
def checkSegment (shouldReport : Reference → Bool) (defs : ReachingDefinitions) : List Report :=
  (defs.references.elems.foldl (checkReference shouldReport) (defs.inMap, [])).2

/-! ## Executions -/

section Executions

variable {D : Type*} (lit : LiteralValue → D)

/-- The values that a write may assign in the store `ρ`. A plain assignment of a
literal or of a known variable assigns its value; nothing is known about the rest. -/
def MayAssign (ref : Reference) (ρ : Variable → D) (d : D) : Prop :=
  if isCompoundAssignment ref then True
  else
    match ref.writeExpr with
    | some (.literal raw _) => raw ≠ "" → d = lit raw
    | some (.identifier name) =>
      ∀ x, getVariableFromIdentifier name ref.scope = some x → d = ρ x
    | _ => True

/-- Performing one reference. -/
def Performs (ref : Reference) (ρ ρ' : Variable → D) : Prop :=
  match ref.resolved with
  | none => ρ' = ρ
  | some v =>
    if ref.isWrite then ∃ d, MayAssign lit ref ρ d ∧ ρ' = Function.update ρ v d else ρ' = ρ

/-- Performing references in turn. -/
inductive Executes : List Reference → (Variable → D) → (Variable → D) → Prop
  | nil (ρ : Variable → D) : Executes [] ρ ρ
  | cons {ref : Reference} {refs : List Reference} {ρ ρ₁ ρ₂ : Variable → D} :
      Performs lit ref ρ ρ₁ → Executes refs ρ₁ ρ₂ → Executes (ref :: refs) ρ ρ₂

end Executions

/-- The variables that a map still describes after a write, if it described those in
`T` before and the write is left out when `skips` says so. -/
def trackedStep (skips : Reference → Bool) (T : Finset Variable) (ref : Reference) :
    Finset Variable :=
  match ref.effect with
  | .skip => T
  | .store v values =>
    if skips ref then
      if isSelfAssignement ref && !isCompoundAssignment ref then T else T.erase v
    else if isCompoundAssignment ref && values ≠ .unknownValue then T.erase v
    else insert v T
  | .copy v x =>
    if skips ref || isCompoundAssignment ref || x ∉ T then T.erase v else insert v T

/-- The variables described after some references. -/
def tracked (skips : Reference → Bool) (T : Finset Variable) (refs : List Reference) :
    Finset Variable :=
  refs.foldl (trackedStep skips) T

/-! ## What a map says about a store -/

section Soundness

variable {D : Type*} {lit : LiteralValue → D}

/-- The value `d` is one of those that a level allows. -/
def Describes (lit : LiteralValue → D) (l : Level) (d : D) : Prop :=
  l = Values.unknownValue.level ∨ ∃ raw, d = lit raw ∧ (Values.assignedValues {raw}).level ≤ l

theorem level_le_unknownValue (l : Level) : l ≤ Values.unknownValue.level := by
  show l ≤ ⊤
  exact le_top

theorem Describes.mono {l m : Level} {d : D} (h : Describes lit l d) (le : l ≤ m) :
    Describes lit m d := by
  obtain rfl | ⟨raw, hd, below⟩ := h
  · exact .inl (le_antisymm (level_le_unknownValue m) le)
  · exact .inr ⟨raw, hd, below.trans le⟩

/-- A level with a single literal leaves one value. -/
theorem Describes.eq_lit {raw : LiteralValue} {d : D}
    (h : Describes lit (Values.assignedValues {raw}).level d) : d = lit raw := by
  obtain top | ⟨other, hd, le⟩ := h
  · exact absurd (Values.level_injective top) (by simp)
  · rw [Values.level, Values.level, WithBot.coe_le_coe, WithTop.coe_le_coe,
      Finset.singleton_subset_singleton] at le
    rw [hd, le]

/-- The map describes the values of the variables in `T`. -/
def Tracks (lit : LiteralValue → D) (programState : ProgramState) (ρ : Variable → D)
    (T : Finset Variable) : Prop :=
  ∀ v ∈ T, Describes lit (ProgramState.levels programState v) (ρ v)

variable {programState programState' : ProgramState} {ρ ρ' : Variable → D} {T : Finset Variable}
  {v : Variable} {d : D}

theorem Tracks.erase (h : Tracks lit programState ρ T)
    (others : ∀ w, w ≠ v →
      ProgramState.levels programState' w = ProgramState.levels programState w) :
    Tracks lit programState' (Function.update ρ v d) (T.erase v) := by
  intro w hw
  obtain ⟨ne, member⟩ := Finset.mem_erase.mp hw
  rw [others w ne, Function.update_of_ne ne]
  exact h w member

theorem Tracks.insert (h : Tracks lit programState ρ T)
    (others : ∀ w, w ≠ v →
      ProgramState.levels programState' w = ProgramState.levels programState w)
    (described : Describes lit (ProgramState.levels programState' v) d) :
    Tracks lit programState' (Function.update ρ v d) (insert v T) := by
  intro w hw
  by_cases ne : w = v
  · subst ne
    rwa [Function.update_self]
  · rw [others w ne, Function.update_of_ne ne]
    exact h w (Finset.mem_of_mem_insert_of_ne hw ne)

/-! ## One reference -/

variable {ref : Reference}

/-- Known values are only stored for a literal. -/
theorem literal_of_effect {vals : Finset LiteralValue}
    (effect : ref.effect = .store v (.assignedValues vals)) :
    ∃ raw value, ref.writeExpr = some (.literal raw value) ∧ raw ≠ "" ∧ vals = {raw} := by
  simp only [Reference.effect] at effect
  split at effect
  · cases effect
  · split at effect
    · split at effect
      · rename_i raw value written
        by_cases empty : raw = ""
        · simp [empty] at effect
        · simp only [empty, if_false, Effect.store.injEq, Values.assignedValues.injEq] at effect
          exact ⟨raw, value, written, empty, effect.2.symm⟩
      · split at effect
        · split at effect <;> cases effect
        · cases effect
      · cases effect
    · cases effect

theorem identifier_of_effect {x : Variable} (effect : ref.effect = .copy v x) :
    ∃ name, ref.writeExpr = some (.identifier name) ∧
      getVariableFromIdentifier name ref.scope = some x := by
  simp only [Reference.effect] at effect
  split at effect
  · cases effect
  · split at effect
    · split at effect
      · cases effect
      · rename_i name written
        split at effect
        · rename_i found
          split at effect
          · cases effect
          · cases effect
            exact ⟨name, written, found⟩
        · cases effect
      · cases effect
    · cases effect

theorem MayAssign.eq_lit (h : MayAssign lit ref ρ d) (plain : isCompoundAssignment ref = false)
    {vals : Finset LiteralValue} (effect : ref.effect = .store v (.assignedValues vals)) :
    ∃ raw, vals = {raw} ∧ d = lit raw := by
  obtain ⟨raw, value, written, nonempty, rfl⟩ := literal_of_effect effect
  simp only [MayAssign, plain, written] at h
  exact ⟨raw, rfl, h nonempty⟩

theorem MayAssign.eq_copied (h : MayAssign lit ref ρ d)
    (plain : isCompoundAssignment ref = false) {x : Variable} (effect : ref.effect = .copy v x) :
    d = ρ x := by
  obtain ⟨name, written, found⟩ := identifier_of_effect effect
  simp only [MayAssign, plain, written] at h
  exact h x found

theorem MayAssign.eq_self (h : MayAssign lit ref ρ d) (plain : isCompoundAssignment ref = false)
    (self : isSelfAssignement ref = true) (writes : ref.Writes v) : d = ρ v := by
  simp only [isSelfAssignement, writes.1] at self
  split at self
  · rename_i name written
    split at self
    · rename_i lhs rhs hl hr
      cases hl
      simp only [MayAssign, plain, written] at h
      rw [of_decide_eq_true self]
      exact h rhs hr
    · cases self
  · cases self

/-- Everything that performing a reference can do. -/
theorem Performs.cases (h : Performs lit ref ρ ρ') :
    (ref.effect = .skip ∧ ρ' = ρ) ∨ ∃ v d, ref.Writes v ∧ MayAssign lit ref ρ d ∧
      ρ' = Function.update ρ v d ∧
        ((∃ values, ref.effect = .store v values) ∨ ∃ x, ref.effect = .copy v x) := by
  obtain ⟨quiet, effect⟩ | ⟨v, writes, kind⟩ := ref.effect_cases
  · refine .inl ⟨effect, ?_⟩
    simp only [Performs] at h
    split at h
    · exact h
    · rename_i v resolved
      split at h
      · rename_i written
        exact absurd ⟨resolved, written⟩ (quiet v)
      · exact h
  · simp only [Performs, writes.1, writes.2, if_true] at h
    obtain ⟨d, assigned, rfl⟩ := h
    exact .inr ⟨v, d, writes, assigned, rfl, kind.imp_right fun ⟨x, _, effect⟩ => ⟨x, effect⟩⟩

/-- The map of a replay that leaves out the references that `skips` names. -/
def replay (skips : Reference → Bool) (programState : ProgramState) (ref : Reference) :
    ProgramState :=
  if skips ref then programState else updateProgramState programState ref

/-- One reference: the map goes on to describe what `trackedStep` keeps. -/
theorem Tracks.step (skips : Reference → Bool) (h : Tracks lit programState ρ T)
    (performs : Performs lit ref ρ ρ') :
    Tracks lit (replay skips programState ref) ρ' (trackedStep skips T ref) := by
  obtain ⟨effect, rfl⟩ | ⟨v, d, writes, assigned, rfl, ⟨values, effect⟩ | ⟨x, effect⟩⟩ :=
    performs.cases
  · simp only [replay, updateProgramState_eq, trackedStep, effect, ite_self]
    exact h
  · simp only [replay, updateProgramState_eq, trackedStep, effect]
    have others : ∀ w, w ≠ v → ProgramState.levels (programState.set v values) w =
        ProgramState.levels programState w := fun w ne => by
      rw [ProgramState.levels_set, Function.update_of_ne ne]
    by_cases skipped : skips ref = true
    · rw [if_pos skipped, if_pos skipped]
      by_cases self : (isSelfAssignement ref && !isCompoundAssignment ref) = true
      · -- the value stays what it was, and so does the map
        rw [if_pos self]
        rw [Bool.and_eq_true, Bool.not_eq_true'] at self
        rw [assigned.eq_self self.2 self.1 writes, Function.update_eq_self]
        exact h
      · rw [if_neg self]
        exact h.erase fun _ _ => rfl
    · rw [if_neg skipped, if_neg skipped]
      by_cases unrecorded : (isCompoundAssignment ref && decide (values ≠ .unknownValue)) = true
      · rw [if_pos unrecorded]
        exact h.erase others
      · rw [if_neg unrecorded]
        apply h.insert others
        rw [ProgramState.levels_set, Function.update_self]
        cases values with
        | unknownValue => exact .inl rfl
        | assignedValues vals =>
            obtain ⟨raw, rfl, rfl⟩ := assigned.eq_lit (by simpa using unrecorded) effect
            exact .inr ⟨raw, rfl, le_rfl⟩
  · simp only [replay, updateProgramState_eq, trackedStep, effect]
    have others : ∀ w, w ≠ v → ProgramState.levels
        (if skips ref = true then programState
          else programState.set v ((programState.get x).getD .unknownValue)) w =
            ProgramState.levels programState w := fun w ne => by
      split
      · rfl
      · rw [ProgramState.levels_set, Function.update_of_ne ne]
    by_cases lost : (skips ref || isCompoundAssignment ref || decide (x ∉ T)) = true
    · rw [if_pos lost]
      exact h.erase others
    · rw [if_neg lost]
      simp only [Bool.or_eq_true, decide_eq_true_eq, not_or, not_not, Bool.not_eq_true] at lost
      obtain ⟨⟨kept, plain⟩, member⟩ := lost
      apply h.insert others
      rw [if_neg (by rw [kept]; exact Bool.false_ne_true), ProgramState.levels_set,
        Function.update_self, assigned.eq_copied plain effect]
      have described := h x member
      rw [ProgramState.levels] at described
      cases hx : programState.get x with
      | none => exact .inl rfl
      | some values =>
          rw [hx] at described
          exact described

/-! ## Segments and paths -/

variable {refs : List Reference}

theorem Tracks.run (skips : Reference → Bool) (h : Tracks lit programState ρ T)
    (executes : Executes lit refs ρ ρ') :
    Tracks lit (refs.foldl (replay skips) programState) ρ' (tracked skips T refs) := by
  induction executes generalizing programState T with
  | nil ρ => exact h
  | cons performs _ ih => exact ih (h.step skips performs)

theorem executes_append {refs later : List Reference} :
    Executes lit (refs ++ later) ρ ρ' ↔
      ∃ middle, Executes lit refs ρ middle ∧ Executes lit later middle ρ' := by
  induction refs generalizing ρ with
  | nil =>
      refine ⟨fun h => ⟨ρ, .nil ρ, h⟩, ?_⟩
      rintro ⟨middle, h, executes⟩
      cases h
      exact executes
  | cons ref refs ih =>
      constructor
      · intro h
        rw [List.cons_append] at h
        obtain _ | ⟨performs, rest⟩ := h
        obtain ⟨middle, first, second⟩ := ih.mp rest
        exact ⟨middle, .cons performs first, second⟩
      · rintro ⟨middle, h, second⟩
        obtain _ | ⟨performs, first⟩ := h
        exact .cons performs (ih.mpr ⟨middle, first, second⟩)

/-- Along every path the `in` map of the last segment describes the store. The
induction is on the path, from its end. -/
theorem tracks_path {ι : Type*} {G : CodePathGraph ι} {blocks : ι → List Reference}
    {final : ι → ReachingDefinitions}
    (solved : ∀ s, ProgramState.levels (final s).inMap = supPrev G s (outLevels final) ∧
      outLevels final s = ProgramState.levels (transfer (blocks s) (final s).inMap))
    {path : List ι} {s : ι} (isPath : G.IsPath (path ++ [s]))
    (executes : Executes lit (path.flatMap blocks) ρ ρ') :
    Tracks lit (final s).inMap ρ' (tracked (fun _ => false) ∅ (path.flatMap blocks)) := by
  induction path using List.reverseRecOn generalizing s ρ' with
  | nil => exact fun v hv => absurd hv (Finset.notMem_empty v)
  | append_singleton path t ih =>
      rw [CodePathGraph.IsPath, List.isChain_append] at isPath
      obtain ⟨before, -, edge⟩ := isPath
      have next : s ∈ G.nextSegments t := edge t (by simp) s (by simp)
      rw [List.flatMap_append, List.flatMap_singleton] at executes ⊢
      obtain ⟨middle, first, second⟩ := executes_append.1 executes
      have after := (ih before first).run (fun _ => false) second
      rw [tracked, List.foldl_append]
      intro v hv
      apply (after v hv).mono
      have out : outLevels final t ≤ ProgramState.levels (final s).inMap := by
        rw [(solved s).1]
        exact supPrev_le_iff.mp le_rfl t ((G.converse t s).mp next)
      rw [(solved t).2] at out
      exact out v

/-! ## Reports -/

theorem checkReference_map (shouldReport : Reference → Bool) (state : ProgramState × List Report)
    (ref : Reference) :
    (checkReference shouldReport state ref).1 =
      replay (fun ref => !shouldReport ref) state.1 ref := by
  simp only [checkReference, replay, updateProgramState]
  cases ref.resolved with
  | none => simp
  | some v =>
      by_cases written : ref.isWrite = true
      · by_cases reports : shouldReport ref = true
        · cases ref.writeExpr <;> simp [written, reports, resolveAssignedValues]
        · simp [reports]
      · simp [written]

theorem checkReference_append (shouldReport : Reference → Bool) (state : ProgramState × List Report)
    (ref : Reference) :
    (checkReference shouldReport state ref).2 =
      state.2 ++ (checkReference shouldReport (state.1, []) ref).2 := by
  simp only [checkReference]
  cases ref.resolved with
  | none => simp
  | some v => by_cases h : (ref.isWrite && shouldReport ref) = true <;> simp [h]

/-- A report comes from one of the references, and from the map before it. -/
theorem mem_foldl_checkReference {shouldReport : Reference → Bool} {report : Report}
    {state : ProgramState × List Report}
    (h : report ∈ (refs.foldl (checkReference shouldReport) state).2) :
    report ∈ state.2 ∨ ∃ before ref after, refs = before ++ ref :: after ∧
      report ∈ (checkReference shouldReport
        (before.foldl (replay fun ref => !shouldReport ref) state.1, []) ref).2 := by
  induction refs generalizing state with
  | nil => exact .inl h
  | cons ref refs ih =>
      obtain made | ⟨before, later, after, rfl, made⟩ := ih h
      · rw [checkReference_append] at made
        exact (List.mem_append.mp made).imp_right fun new => ⟨[], ref, refs, rfl, new⟩
      · rw [checkReference_map] at made
        exact .inr ⟨ref :: before, later, after, rfl, made⟩

/-- A reported write assigns the one literal that the map holds for its variable. -/
theorem checkReference_reports {shouldReport : Reference → Bool} {report : Report}
    (h : report ∈ (checkReference shouldReport (programState, []) ref).2) :
    report.reference = ref ∧ shouldReport ref = true ∧ ∃ v raw, ref.Writes v ∧
      report.message = reviewAssignment v.name ∧
      programState.get v = some (.assignedValues {raw}) ∧
      (updateProgramState programState ref).get v = some (.assignedValues {raw}) := by
  have map := checkReference_map shouldReport (programState, []) ref
  simp only [checkReference] at h map
  split at h
  · cases h
  · rename_i v resolved
    simp only [resolved] at map
    split at h
    · rename_i active
      rw [Bool.and_eq_true] at active
      simp only [active.1, active.2, replay, Bool.and_self, if_true, Bool.not_true,
        Bool.false_eq_true, if_false] at map
      rw [← map]
      simp only [List.nil_append, checkRedundantAssignement] at h
      split at h
      · rename_i lhs rhs hl hr
        split at h
        · rename_i same
          simp only [Bool.and_eq_true, decide_eq_true_eq] at same
          obtain ⟨⟨⟨-, single⟩, -⟩, rfl⟩ := same
          obtain ⟨raw, rfl⟩ := Finset.card_eq_one.mp single
          obtain rfl := List.mem_singleton.mp h
          exact ⟨rfl, active.2, v, raw, ⟨resolved, active.1⟩, rfl, hl,
            by rw [OrderedMap.get_set, if_pos rfl, hr]⟩
        · cases h
      · cases h
    · cases h

theorem not_compound_of_shouldReport {ctx : Context} (h : ctx.shouldReport ref = true) :
    isCompoundAssignment ref = false := by
  simp only [Context.shouldReport, shouldReportReference] at h
  split at h
  · cases h
  · simp only [Bool.and_eq_true, Bool.not_eq_true'] at h
    exact h.1.1.1.2

/-- A write that the rule reports on is tracked if what it copies is. -/
theorem mem_trackedStep {ctx : Context} (reports : ctx.shouldReport ref = true)
    (writes : ref.Writes v) (copied : ∀ x, ref.effect = .copy v x → x ∈ T) :
    v ∈ trackedStep (fun ref => !ctx.shouldReport ref) T ref := by
  have plain := not_compound_of_shouldReport reports
  obtain ⟨quiet, -⟩ | ⟨w, written, ⟨values, effect⟩ | ⟨x, -, effect⟩⟩ := ref.effect_cases
  · exact absurd writes (quiet v)
  · obtain rfl := writes.unique written
    simp [trackedStep, effect, reports, plain]
  · obtain rfl := writes.unique written
    simp [trackedStep, effect, reports, plain, copied x effect]

end Soundness

/-! ## Soundness of the reports -/

section Reports

variable {ι : Type*} [DecidableEq ι]

/-- The variables that are still described at a reference, after the segments before
the last one have been recorded by `propagate` and the references before it in the
last one by `checkSegment`. -/
def trackedAt (ctx : Context) (earlier before : List Reference) : Finset Variable :=
  tracked (fun ref => !ctx.shouldReport ref) (tracked (fun _ => false) ∅ earlier) before

/-- A reported write, in every execution that reaches it with its variable tracked
and, for a copy, the copied one too: the variable holds the assigned literal, and
performing the write changes nothing. -/
theorem checkSegment_reports_held_values (G : CodePathGraph ι) (order : SegmentOrder ι)
    (refs : ι → List Reference) (ctx : Context) {D : Type*} (lit : LiteralValue → D)
    (final : ι → ReachingDefinitions)
    (halts : (reachingDefinitions G).Halts (reachingDefinitionsStart order refs) final) (s : ι)
    (report : Report) (reported : report ∈ checkSegment ctx.shouldReport (final s)) :
    ∃ before after v raw, collected refs s = before ++ report.reference :: after ∧
      report.reference.Writes v ∧ report.message = reviewAssignment v.name ∧
      ∀ path ρ₀ ρ, G.IsPath (path ++ [s]) →
        Executes lit (path.flatMap (collected refs) ++ before) ρ₀ ρ →
        v ∈ trackedAt ctx (path.flatMap (collected refs)) before →
        (∀ x, report.reference.effect = .copy v x →
          x ∈ trackedAt ctx (path.flatMap (collected refs)) before) →
        ρ v = lit raw ∧ ∀ ρ', Performs lit report.reference ρ ρ' → ρ' = ρ := by
  have references := references_of_halts halts
  have solved : ∀ s, ProgramState.levels (final s).inMap = supPrev G s (outLevels final) ∧
      outLevels final s =
        ProgramState.levels (transfer (collected refs s) (final s).inMap) := fun s => by
    rw [← references]
    exact settled mem_reachingDefinitionsStart halts s
  obtain ⟨before, ref, after, split, made⟩ :=
    (mem_foldl_checkReference reported).resolve_left List.not_mem_nil
  obtain ⟨rfl, reports, v, raw, writes, message, held, assigned⟩ := checkReference_reports made
  rw [references] at split
  refine ⟨before, after, v, raw, split, writes, message, ?_⟩
  intro path ρ₀ ρ isPath executes tracksV tracksCopied
  obtain ⟨middle, first, second⟩ := executes_append.1 executes
  have tracks := (tracks_path solved isPath first).run (fun ref => !ctx.shouldReport ref) second
  have holds : ρ v = lit raw := by
    have described := tracks v tracksV
    rw [ProgramState.levels, held] at described
    exact described.eq_lit
  refine ⟨holds, fun ρ' performs => ?_⟩
  have described := tracks.step (fun ref => !ctx.shouldReport ref) performs v
    (mem_trackedStep reports writes tracksCopied)
  rw [replay, reports, if_neg (by decide), ProgramState.levels, assigned] at described
  have same : ρ' v = ρ v := described.eq_lit.trans holds.symm
  obtain ⟨-, unchanged⟩ | ⟨w, d, written, -, rfl, -⟩ := performs.cases
  · exact unchanged
  · obtain rfl := writes.unique written
    rw [Function.update_self] at same
    rw [same, Function.update_eq_self]

/-- `let x = 5; x = 5;` and, with the compound assignment, `let x = 5; x += 1; x = 5;` in a
single segment. -/
private def single : CodePathGraph (Fin 1) := ⟨fun _ => [], fun _ => [], by decide⟩

private def singleOrder : SegmentOrder (Fin 1) := ⟨[0], by decide, by decide⟩

private def usedOnce : Context := ⟨fun _ => OrderedSet.empty.add "s1"⟩

private def assigned : Variable :=
  { id := 0, name := "x", defs := [.variableDef true], writeReferences := 3 }

private def declares : Reference :=
  { id := 0, resolved := some assigned, isRead := false, isWrite := true, init := true,
    writeExpr := some (.literal "5" (.number 5)) }

private def increments : Reference :=
  { id := 1, resolved := some assigned, isRead := true, isWrite := true,
    writeExpr := some (.literal "1" (.number 1)),
    writeExprParent := .assignmentExpression .compound,
    identifierParent := .assignmentExpression false }

private def assignsAgain : Reference :=
  { id := 2, resolved := some assigned, isRead := false, isWrite := true,
    writeExpr := some (.literal "5" (.number 5)),
    writeExprParent := .assignmentExpression .assign,
    identifierParent := .assignmentExpression false }

private def endOfSingle (refs : List Reference) : Fin 1 → ReachingDefinitions :=
  ((reachingDefinitions single).step^[1] (reachingDefinitionsStart singleOrder fun _ => refs)).state

theorem checkSegment_reports_held_values_on_repetition :
    assigned ∈ trackedAt usedOnce [] [declares] ∧
      ∃ before after v raw, collected (fun _ : Fin 1 => [declares, assignsAgain]) 0 =
          before ++ assignsAgain :: after ∧
        assignsAgain.Writes v ∧ reviewAssignment "x" = reviewAssignment v.name ∧
        ∀ path ρ₀ ρ, single.IsPath (path ++ [0]) →
          Executes id (path.flatMap (collected fun _ => [declares, assignsAgain]) ++ before) ρ₀ ρ →
          v ∈ trackedAt usedOnce (path.flatMap (collected fun _ => [declares, assignsAgain]))
            before →
          (∀ x, assignsAgain.effect = .copy v x → x ∈ trackedAt usedOnce
            (path.flatMap (collected fun _ => [declares, assignsAgain])) before) →
          ρ v = id raw ∧ ∀ ρ', Performs id assignsAgain ρ ρ' → ρ' = ρ :=
  ⟨by decide +kernel, checkSegment_reports_held_values single singleOrder
    (fun _ => [declares, assignsAgain]) usedOnce id (endOfSingle [declares, assignsAgain])
    ⟨1, Worklist.Config.ext (by decide +kernel) rfl⟩ 0 ⟨assignsAgain, reviewAssignment "x"⟩
    (by decide +kernel)⟩

/-- After the compound assignment the variable holds something else, and the write
is reported all the same. -/
theorem checkSegment_reports_changed_value :
    ¬ ∀ final, (reachingDefinitions single).Halts
        (reachingDefinitionsStart singleOrder fun _ => [declares, increments, assignsAgain]) final →
      ∀ report ∈ checkSegment usedOnce.shouldReport (final 0), ∀ before after v raw value,
        collected (fun _ : Fin 1 => [declares, increments, assignsAgain]) 0 =
          before ++ report.reference :: after →
        report.reference.Writes v → report.reference.writeExpr = some (.literal raw value) →
        ∀ path (ρ₀ ρ : Variable → String), single.IsPath (path ++ [0]) →
          Executes id (path.flatMap (collected fun _ => [declares, increments, assignsAgain]) ++
            before) ρ₀ ρ →
          (∃ ref ∈ path.flatMap (collected fun _ => [declares, increments, assignsAgain]) ++ before,
            ref.Writes v) →
          ρ v = id raw := by
  intro sound
  have holds := sound (endOfSingle [declares, increments, assignsAgain])
    ⟨1, Worklist.Config.ext (by decide +kernel) rfl⟩ ⟨assignsAgain, reviewAssignment "x"⟩
    (by decide +kernel) [declares, increments] [] assigned "5" (.number 5) (by decide +kernel)
    ⟨rfl, rfl⟩ rfl [] (fun _ => "0") (Function.update (Function.update (fun _ => "0") assigned "5")
      assigned "6") (List.isChain_singleton _)
    (.cons ⟨"5", fun _ => rfl, rfl⟩ (.cons ⟨"6", trivial, rfl⟩ (.nil _)))
    ⟨declares, by simp, rfl, rfl⟩
  rw [Function.update_self] at holds
  exact absurd holds (by decide)

end Reports

end RedundantAssignments

end SonarJS
