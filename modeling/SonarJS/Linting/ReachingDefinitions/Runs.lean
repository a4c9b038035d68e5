import SonarJS.Linting.ReachingDefinitions
import Mathlib.Data.Fin.VecNotation
import Mathlib.Data.Set.Finite.Lattice

/-!
# Runs of the reaching-definitions worklist

A copy of a variable without an entry yields `unknownValue`, which may be replaced
by a smaller value once the variable has got its entry. Such a transient unknown
can travel around a loop of copies for ever, or feed itself and stay.

`CopiesDefined` says of one visit that this branch is not taken for a variable that
some write reaches. Along a run whose visits all satisfy it the transfer agrees
with a monotone one, so that the run goes up, ends, and ends in a state that does
not depend on the order of the segments. Whether a run ends at all is decided by
the steps that lower an entry: it ends exactly if there are finitely many of them.
-/

namespace SonarJS

namespace ReachingDefinitions

variable {ι : Type*} (G : CodePathGraph ι)

/-- Some path leads from a write of `x` to the start of the segment. -/
inductive WriteReaches (blocks : ι → List Reference) (x : Variable) : ι → Prop
  | edge {s t : ι} : t ∈ G.nextSegments s → (∃ ref ∈ blocks s, ref.Writes x) →
      WriteReaches blocks x t
  | step {s t : ι} : t ∈ G.nextSegments s → WriteReaches blocks x s → WriteReaches blocks x t

/-- In this state, no reference of the segment `s` copies a variable that has no
entry although a write of it reaches the segment. -/
def CopiesDefined (s : ι) (map : ι → ReachingDefinitions) : Prop :=
  ∀ pre ref post v x, (map s).references.elems = pre ++ ref :: post → ref.effect = .copy v x →
    (transfer pre (joinPrev G map s)).get x = none →
    ¬ WriteReaches G (fun t => (map t).references.elems) x s

/-- Visiting `s` in this state would replace its `out` map by one that is not above
it: some entry disappears, loses a literal or is no longer unknown. -/
def Lowers (s : ι) (map : ι → ReachingDefinitions) : Prop :=
  ¬ ProgramState.levels (map s).out ≤
    ProgramState.levels (transfer (map s).references.elems (joinPrev G map s))

/-! ## One reference, one segment -/

/-- `updateProgramState` in terms of levels. A copied variable without an entry
counts as unknown. -/
theorem levels_updateProgramState (programState : ProgramState) (ref : Reference) :
    ProgramState.levels (updateProgramState programState ref) =
      match ref.effect with
      | .skip => ProgramState.levels programState
      | .store v values => Function.update (ProgramState.levels programState) v values.level
      | .copy v x => Function.update (ProgramState.levels programState) v
          (if programState.get x = none then Values.unknownValue.level
            else ProgramState.levels programState x) := by
  rw [updateProgramState_eq]
  cases ref.effect with
  | skip => rfl
  | store v values => exact ProgramState.levels_set _ _ _
  | copy v x =>
      refine (ProgramState.levels_set _ _ _).trans ?_
      cases hx : programState.get x with
      | none => simp [hx]
      | some values => simp [ProgramState.levels, hx, level]

/-- Keys are only ever added: by a write of the variable. -/
theorem get_updateProgramState_eq_none {programState : ProgramState} {ref : Reference}
    {x : Variable} : (updateProgramState programState ref).get x = none ↔
      programState.get x = none ∧ ¬ ref.Writes x := by
  rw [updateProgramState_eq]
  obtain ⟨quiet, effect⟩ | ⟨v, writes, ⟨values, effect⟩ | ⟨y, -, effect⟩⟩ := ref.effect_cases
  · simp only [effect]
    exact ⟨fun h => ⟨h, quiet x⟩, fun h => h.1⟩
  all_goals
    simp only [effect, OrderedMap.get_set]
    by_cases hx : x = v
    · subst hx
      simp [writes]
    · have unwritten : ¬ ref.Writes x := fun hw => hx (hw.unique writes)
      simp [hx, unwritten]

theorem get_transfer_eq_none {refs : List Reference} {inMap : ProgramState} {x : Variable} :
    (transfer refs inMap).get x = none ↔
      inMap.get x = none ∧ ∀ ref ∈ refs, ¬ ref.Writes x := by
  induction refs generalizing inMap with
  | nil => simp [transfer]
  | cons ref refs ih =>
      show (transfer refs (updateProgramState inMap ref)).get x = none ↔ _
      rw [ih, get_updateProgramState_eq_none, List.forall_mem_cons, and_assoc]

/-! ## Joins over the predecessors -/

/-- The supremum of a family of levels over the predecessors of a segment. -/
def supPrev (s : ι) (x : ι → Variable → Level) : Variable → Level :=
  (G.prevSegments s).foldl (fun acc prev => acc ⊔ x prev) ⊥

variable {G}

private theorem foldl_sup_le_iff {l : List ι} {x : ι → Variable → Level}
    {b c : Variable → Level} :
    l.foldl (fun acc prev => acc ⊔ x prev) b ≤ c ↔ b ≤ c ∧ ∀ prev ∈ l, x prev ≤ c := by
  induction l generalizing b with
  | nil => simp
  | cons first l ih => rw [List.foldl_cons, ih, sup_le_iff, List.forall_mem_cons, and_assoc]

theorem supPrev_le_iff {s : ι} {x : ι → Variable → Level} {c : Variable → Level} :
    supPrev G s x ≤ c ↔ ∀ prev ∈ G.prevSegments s, x prev ≤ c := by
  rw [supPrev, foldl_sup_le_iff]
  exact and_iff_right bot_le

theorem supPrev_mono (s : ι) : Monotone (supPrev G s) := fun _ _ le =>
  supPrev_le_iff.2 fun prev hp => (le prev).trans (supPrev_le_iff.1 le_rfl prev hp)

theorem supPrev_congr {s : ι} {x y : ι → Variable → Level}
    (h : ∀ prev ∈ G.prevSegments s, x prev = y prev) : supPrev G s x = supPrev G s y :=
  le_antisymm
    (supPrev_le_iff.2 fun prev hp => (h prev hp).le.trans (supPrev_le_iff.1 le_rfl prev hp))
    (supPrev_le_iff.2 fun prev hp => (h prev hp).ge.trans (supPrev_le_iff.1 le_rfl prev hp))

theorem levels_joinPrev (map : ι → ReachingDefinitions) (s : ι) :
    ProgramState.levels (joinPrev G map s) =
      supPrev G s fun prev => ProgramState.levels (map prev).out := by
  have folded (l : List ι) (inMap : ProgramState) :
      ProgramState.levels (l.foldl (fun inMap prev => join inMap (map prev).out) inMap) =
        l.foldl (fun acc prev => acc ⊔ ProgramState.levels (map prev).out)
          (ProgramState.levels inMap) := by
    induction l generalizing inMap with
    | nil => rfl
    | cons first l ih => rw [List.foldl_cons, ih, ProgramState.levels_join, List.foldl_cons]
  exact folded _ _

theorem get_joinPrev_eq_none {map : ι → ReachingDefinitions} {s : ι} {x : Variable} :
    (joinPrev G map s).get x = none ↔ ∀ prev ∈ G.prevSegments s, (map prev).out.get x = none := by
  have folded (l : List ι) (inMap : ProgramState) :
      (l.foldl (fun inMap prev => join inMap (map prev).out) inMap).get x = none ↔
        inMap.get x = none ∧ ∀ prev ∈ l, (map prev).out.get x = none := by
    induction l generalizing inMap with
    | nil => simp
    | cons first l ih =>
        rw [List.foldl_cons, ih, join, OrderedMap.get_mergeWith, List.forall_mem_cons, ← and_assoc]
        cases (map first).out.get x <;> simp
  rw [joinPrev, folded]
  simp

/-! ## The monotone transfer -/

open Classical in
/-- One reference, for a copy of a variable in `reached`: its level is taken as it
is, even if it is still at the bottom. -/
noncomputable def flowReference (reached : Set Variable) (ref : Reference)
    (env : Variable → Level) : Variable → Level :=
  match ref.effect with
  | .skip => env
  | .store v values => Function.update env v values.level
  | .copy v x => Function.update env v
      (if x ∈ reached then env x else Values.unknownValue.level)

/-- All references of a segment; a variable that is written is reached from then on. -/
noncomputable def flowReferences : Set Variable → List Reference → (Variable → Level) →
    Variable → Level
  | _, [], env => env
  | reached, ref :: refs, env =>
    flowReferences {x | x ∈ reached ∨ ref.Writes x} refs (flowReference reached ref env)

/-- The monotone system of equations behind the well-behaved runs. -/
noncomputable def flow (G : CodePathGraph ι) (blocks : ι → List Reference) (s : ι)
    (x : ι → Variable → Level) : Variable → Level :=
  flowReferences {v | WriteReaches G blocks v s} (blocks s) (supPrev G s x)

theorem flowReference_mono (reached : Set Variable) (ref : Reference) :
    Monotone (flowReference reached ref) := by
  intro a b le
  unfold flowReference
  cases ref.effect with
  | skip => exact le
  | store v values => exact update_le_update_iff.mpr ⟨le_rfl, fun w _ => le w⟩
  | copy v x =>
      refine update_le_update_iff.mpr ⟨?_, fun w _ => le w⟩
      split
      · exact le x
      · exact le_rfl

theorem flowReferences_mono (reached : Set Variable) (refs : List Reference) :
    Monotone (flowReferences reached refs) := by
  induction refs generalizing reached with
  | nil => exact monotone_id
  | cons ref refs ih => exact fun a b le => ih _ (flowReference_mono reached ref le)

theorem flow_mono (blocks : ι → List Reference) (s : ι) : Monotone (flow G blocks s) :=
  fun _ _ le => flowReferences_mono _ _ (supPrev_mono s le)

/-- Where copies are defined, the transfer of the code is the monotone one. -/
theorem levels_transfer {reached : Set Variable} {refs : List Reference} {inMap : ProgramState}
    (entries : ∀ x, inMap.get x ≠ none → x ∈ reached)
    (copies : ∀ pre ref post v x, refs = pre ++ ref :: post → ref.effect = .copy v x →
      (transfer pre inMap).get x = none → x ∉ reached) :
    ProgramState.levels (transfer refs inMap) =
      flowReferences reached refs (ProgramState.levels inMap) := by
  induction refs generalizing reached inMap with
  | nil => rfl
  | cons ref refs ih =>
      have first : ProgramState.levels (updateProgramState inMap ref) =
          flowReference reached ref (ProgramState.levels inMap) := by
        rw [levels_updateProgramState, flowReference]
        cases effect : ref.effect with
        | skip => rfl
        | store v values => rfl
        | copy v x =>
            have absent := copies [] ref refs v x rfl effect
            change inMap.get x = none → x ∉ reached at absent
            by_cases hx : inMap.get x = none
            · simp [hx, absent hx]
            · simp [hx, entries x hx]
      show ProgramState.levels (transfer refs (updateProgramState inMap ref)) =
        flowReferences {x | x ∈ reached ∨ ref.Writes x} refs
          (flowReference reached ref (ProgramState.levels inMap))
      rw [← first]
      refine ih (fun x hx => ?_) (fun pre later post v x split effect absent => ?_)
      · rw [Ne, get_updateProgramState_eq_none, not_and_or, not_not] at hx
        exact hx.imp (entries x) id
      · -- a variable that `ref` writes has an entry from then on
        have kept := (get_transfer_eq_none.1 absent).1
        rw [get_updateProgramState_eq_none] at kept
        have early := copies (ref :: pre) later post v x (by rw [split]; rfl) effect absent
        exact not_or.mpr ⟨early, kept.2⟩

/-! ## Invariants of every run -/

/-- What holds along every run: the references stay, and a segment has entries only
for variables that it writes itself or that a write reaches. -/
structure Invariant (G : CodePathGraph ι) (blocks : ι → List Reference)
    (map : ι → ReachingDefinitions) : Prop where
  references : ∀ s, (map s).references.elems = blocks s
  entries : ∀ s x, (map s).out.get x ≠ none →
    (∃ ref ∈ blocks s, ref.Writes x) ∨ WriteReaches G blocks x s

theorem Invariant.reaches {blocks : ι → List Reference} {map : ι → ReachingDefinitions}
    (h : Invariant G blocks map) (s : ι) (x : Variable)
    (hx : (joinPrev G map s).get x ≠ none) : WriteReaches G blocks x s := by
  rw [Ne, get_joinPrev_eq_none] at hx
  push Not at hx
  obtain ⟨prev, hp, entry⟩ := hx
  have edge : s ∈ G.nextSegments prev := (G.converse prev s).mpr hp
  obtain written | reaches := h.entries prev x entry
  · exact .edge edge written
  · exact .step edge reaches

/-- The `out` map after a visit has the levels of the transfer in any case: it is
only kept when the two agree. -/
theorem levels_propagate_out (map : ι → ReachingDefinitions) (s : ι) :
    ProgramState.levels (propagate G map s).1.out =
      ProgramState.levels (transfer (map s).references.elems (joinPrev G map s)) := by
  simp only [propagate]
  split
  · rfl
  · rename_i h
    exact equals_iff.mp (by simpa using h)

theorem propagate_changed_iff (map : ι → ReachingDefinitions) (s : ι) :
    (propagate G map s).2 = true ↔ ProgramState.levels (map s).out ≠
      ProgramState.levels (transfer (map s).references.elems (joinPrev G map s)) := by
  rw [Ne, ← equals_iff]
  simp only [propagate]
  split
  · rename_i h
    simpa using h
  · rename_i h
    simpa using h

theorem propagate_inMap (map : ι → ReachingDefinitions) (s : ι) :
    (propagate G map s).1.inMap = joinPrev G map s := by
  simp only [propagate]
  split <;> rfl

theorem propagate_references (map : ι → ReachingDefinitions) (s : ι) :
    (propagate G map s).1.references = (map s).references := by
  simp only [propagate]
  split <;> rfl

variable [DecidableEq ι] {blocks : ι → List Reference}

theorem visit_apply (map : ι → ReachingDefinitions) (s t : ι) :
    ((reachingDefinitions G).visit s map).1 t =
      if t = s then (propagate G map s).1 else map t := by
  by_cases h : t = s
  · subst h
    simp [reachingDefinitions]
  · simp [reachingDefinitions, h]

theorem Invariant.visit (s : ι) (map : ι → ReachingDefinitions) (h : Invariant G blocks map) :
    Invariant G blocks ((reachingDefinitions G).visit s map).1 := by
  constructor
  · intro t
    rw [visit_apply]
    split
    · rename_i ht
      rw [ht, propagate_references, h.references]
    · exact h.references t
  · intro t x entry
    rw [visit_apply] at entry
    split at entry
    · rename_i ht
      subst ht
      rw [Ne, ← level_eq_bot_iff] at entry
      change ¬ ProgramState.levels _ x = ⊥ at entry
      rw [levels_propagate_out, h.references, ProgramState.levels, level_eq_bot_iff,
        get_transfer_eq_none, not_and_or] at entry
      obtain joined | written := entry
      · exact .inr (h.reaches t x joined)
      · push Not at written
        exact .inl written
    · exact h.entries t x entry

/-- The values of the iteration: the levels of the `out` maps. -/
def outLevels (map : ι → ReachingDefinitions) (s : ι) : Variable → Level :=
  ProgramState.levels (map s).out

theorem outLevels_visit (map : ι → ReachingDefinitions) (s : ι) :
    outLevels ((reachingDefinitions G).visit s map).1 =
      Function.update (outLevels map) s (ProgramState.levels
        (transfer (map s).references.elems (joinPrev G map s))) := by
  funext t
  by_cases ht : t = s
  · subst ht
    rw [Function.update_self, outLevels, visit_apply, if_pos rfl, levels_propagate_out]
  · rw [Function.update_of_ne ht, outLevels, visit_apply, if_neg ht, outLevels]

/-- Where copies are defined, the loop iterates the monotone equations. -/
theorem iterates : Worklist.Iterates (reachingDefinitions G) (flow G blocks) outLevels
    (fun s map => Invariant G blocks map ∧ CopiesDefined G s map) := by
  have agrees (s : ι) (map : ι → ReachingDefinitions) (inv : Invariant G blocks map)
      (copies : CopiesDefined G s map) :
      ProgramState.levels (transfer (map s).references.elems
        (joinPrev G map s)) = flow G blocks s (outLevels map) := by
    have same : (fun t => (map t).references.elems) = blocks := funext inv.references
    rw [flow, show outLevels map = fun prev => ProgramState.levels (map prev).out from rfl,
      ← levels_joinPrev, inv.references s]
    refine levels_transfer (fun x hx => inv.reaches s x hx) ?_
    intro pre ref post v x split effect absent
    have := copies pre ref post v x ((inv.references s).trans split) effect absent
    rwa [same] at this
  constructor
  · exact flow_mono blocks
  · intro s t x d ht
    -- `s` is no predecessor of `t`, so the supremum at `t` does not look at it.
    have hs : s ∉ G.prevSegments t := fun prev => ht ((G.converse s t).mpr prev)
    refine congrArg (flowReferences _ _) (supPrev_congr fun prev hp => ?_)
    rw [Function.update_of_ne (ne_of_mem_of_not_mem hp hs)]
  · rintro s map ⟨inv, copies⟩ -
    rw [outLevels_visit, agrees s map inv copies]
  · rintro s map ⟨inv, copies⟩ -
    show (propagate G map s).2 = true ↔ _
    rw [propagate_changed_iff, agrees s map inv copies]
    rfl
/-! ## Finitely many program states -/

/-- The levels that use only literals from `T`. -/
def levelsOver (T : Set LiteralValue) : Set Level :=
  {l | l = ⊥ ∨ l = Values.unknownValue.level ∨
    ∃ vals : Finset LiteralValue, ↑vals ⊆ T ∧ l = (Values.assignedValues vals).level}

theorem levelsOver_finite {T : Set LiteralValue} (finite : T.Finite) : (levelsOver T).Finite := by
  have subsets : {vals : Finset LiteralValue | ↑vals ⊆ T}.Finite := by
    apply (finite.toFinset.powerset.finite_toSet).subset
    intro vals sub
    simpa [Finset.subset_iff, Set.subset_def] using sub
  refine (((subsets.image fun vals => (Values.assignedValues vals).level).insert
    Values.unknownValue.level).insert ⊥).subset ?_
  rintro l (rfl | rfl | ⟨vals, sub, rfl⟩)
  · exact Set.mem_insert _ _
  · exact Set.mem_insert_of_mem _ (Set.mem_insert _ _)
  · exact Set.mem_insert_of_mem _ (Set.mem_insert_of_mem _ ⟨vals, sub, rfl⟩)

theorem sup_mem_levelsOver {T : Set LiteralValue} {a b : Level} (ha : a ∈ levelsOver T)
    (hb : b ∈ levelsOver T) : a ⊔ b ∈ levelsOver T := by
  have top (l : Level) : l ≤ Values.unknownValue.level := by
    show l ≤ ⊤
    exact le_top
  obtain rfl | rfl | ⟨s, hs, rfl⟩ := ha
  · rwa [bot_sup_eq]
  · rw [sup_eq_left.mpr (top b)]
    exact .inr (.inl rfl)
  · obtain rfl | rfl | ⟨t, ht, rfl⟩ := hb
    · rw [sup_bot_eq]
      exact .inr (.inr ⟨s, hs, rfl⟩)
    · rw [sup_eq_right.mpr (top _)]
      exact .inr (.inl rfl)
    · refine .inr (.inr ⟨s ∪ t, by simpa using ⟨hs, ht⟩, ?_⟩)
      exact (level_joinValues (some (.assignedValues s)) (.assignedValues t)).symm

/-- The program state uses only literals from `T` and has entries only for `W`. -/
def Within (T : Set LiteralValue) (W : Set Variable) (programState : ProgramState) : Prop :=
  ∀ v, level (programState.get v) ∈ levelsOver T ∧ (v ∉ W → programState.get v = none)

/-- The literals that a reference may store. -/
def storedLiterals (ref : Reference) : Finset LiteralValue :=
  match ref.effect with
  | .store _ (.assignedValues vals) => vals
  | _ => ∅

section Within

variable {T : Set LiteralValue} {W : Set Variable}

theorem within_empty : Within T W .empty := fun _ => ⟨.inl rfl, fun _ => rfl⟩

theorem Within.join {a b : ProgramState} (ha : Within T W a) (hb : Within T W b) :
    Within T W (join a b) := by
  intro v
  refine ⟨?_, fun hv => ?_⟩
  · show ProgramState.levels _ v ∈ _
    rw [ProgramState.levels_join]
    exact sup_mem_levelsOver (ha v).1 (hb v).1
  · rw [ReachingDefinitions.join, OrderedMap.get_mergeWith, (hb v).2 hv]
    exact (ha v).2 hv

theorem Within.set {a : ProgramState} (ha : Within T W a) {v : Variable} {values : Values}
    (hv : v ∈ W) (level : values.level ∈ levelsOver T) : Within T W (a.set v values) := by
  intro w
  rw [OrderedMap.get_set]
  by_cases hw : w = v
  · subst hw
    simp only [if_true]
    exact ⟨level, fun h => absurd hv h⟩
  · simp only [if_neg hw]
    exact ha w

theorem Within.updateProgramState {a : ProgramState} (ha : Within T W a) {ref : Reference}
    (literals : ↑(storedLiterals ref) ⊆ T) (written : ∀ v, ref.Writes v → v ∈ W) :
    Within T W (updateProgramState a ref) := by
  rw [updateProgramState_eq]
  obtain ⟨-, effect⟩ | ⟨v, writes, ⟨values, effect⟩ | ⟨x, -, effect⟩⟩ := ref.effect_cases
  · simpa only [effect] using ha
  · simp only [effect]
    apply ha.set (written v writes)
    cases values with
    | unknownValue => exact .inr (.inl rfl)
    | assignedValues vals =>
        rw [storedLiterals, effect] at literals
        exact .inr (.inr ⟨vals, literals, rfl⟩)
  · simp only [effect]
    apply ha.set (written v writes)
    cases hx : a.get x with
    | none => exact .inr (.inl rfl)
    | some values =>
        have level := (ha x).1
        rwa [hx] at level

theorem Within.transfer {refs : List Reference} {a : ProgramState} (ha : Within T W a)
    (literals : ∀ ref ∈ refs, ↑(storedLiterals ref) ⊆ T)
    (written : ∀ ref ∈ refs, ∀ v, ref.Writes v → v ∈ W) : Within T W (transfer refs a) := by
  induction refs generalizing a with
  | nil => exact ha
  | cons ref refs ih =>
      rw [List.forall_mem_cons] at literals written
      exact ih (ha.updateProgramState literals.1 written.1) literals.2 written.2

omit [DecidableEq ι] in
theorem Within.joinPrev {map : ι → ReachingDefinitions} (h : ∀ s, Within T W (map s).out)
    (s : ι) : Within T W (joinPrev G map s) := by
  have folded (l : List ι) (a : ProgramState) (ha : Within T W a) :
      Within T W (l.foldl (fun inMap prev => ReachingDefinitions.join inMap (map prev).out) a) := by
    induction l generalizing a with
    | nil => exact ha
    | cons first l ih => exact ih _ (ha.join (h first))
  exact folded _ _ within_empty

omit [DecidableEq ι] in
/-- On finitely many segments there are only finitely many such families. -/
theorem finite_families [Finite ι] (hT : T.Finite) (hW : W.Finite) :
    {x : ι → Variable → Level | ∀ s v, x s v ∈ levelsOver T ∧ (v ∉ W → x s v = ⊥)}.Finite := by
  have := hW.to_subtype
  let restrict (x : ι → Variable → Level) : ι → W → Level := fun s v => x s v
  have image : {y : ι → W → Level | ∀ s v, y s v ∈ levelsOver T}.Finite :=
    Set.Finite.pi' fun _ => Set.Finite.pi' fun _ => levelsOver_finite hT
  refine Set.Finite.of_finite_image (f := restrict) (image.subset ?_) ?_
  · rintro _ ⟨x, hx, rfl⟩ s v
    exact (hx s v).1
  · intro x hx y hy same
    funext s v
    by_cases hv : v ∈ W
    · exact congrFun (congrFun same s) ⟨v, hv⟩
    · rw [(hx s v).2 hv, (hy s v).2 hv]

end Within

/-! ## Termination -/

/-- Finite bounds for the literals and the variables of a family of references. -/
structure Bounds (blocks : ι → List Reference) (T : Set LiteralValue) (W : Set Variable) :
    Prop where
  finiteLiterals : T.Finite
  finiteVariables : W.Finite
  literals : ∀ s, ∀ ref ∈ blocks s, ↑(storedLiterals ref) ⊆ T
  written : ∀ s, ∀ ref ∈ blocks s, ∀ v, ref.Writes v → v ∈ W

omit [DecidableEq ι] in
theorem exists_bounds [Finite ι] (blocks : ι → List Reference) : ∃ T W, Bounds blocks T W := by
  refine ⟨⋃ s, ⋃ ref ∈ {ref | ref ∈ blocks s}, ↑(storedLiterals ref),
    ⋃ s, ⋃ ref ∈ {ref | ref ∈ blocks s}, {v | ref.Writes v}, ?_, ?_, ?_, ?_⟩
  · exact Set.finite_iUnion fun s => (List.finite_toSet (blocks s)).biUnion
      fun ref _ => (storedLiterals ref).finite_toSet
  · refine Set.finite_iUnion fun s => (List.finite_toSet (blocks s)).biUnion ?_
    intro ref _
    exact Set.Subsingleton.finite fun v hv w hw => Reference.Writes.unique hv hw
  · intro s ref member l hl
    exact Set.mem_iUnion.mpr ⟨s, Set.mem_biUnion member hl⟩
  · intro s ref member v writes
    exact Set.mem_iUnion.mpr ⟨s, Set.mem_biUnion (t := fun ref : Reference => {v | ref.Writes v})
      member writes⟩

/-- The references are the given ones and all `out` maps keep to the bounds. -/
def WithinBounds (blocks : ι → List Reference) (T : Set LiteralValue) (W : Set Variable)
    (map : ι → ReachingDefinitions) : Prop :=
  ∀ s, (map s).references.elems = blocks s ∧ Within T W (map s).out

theorem WithinBounds.visit {T : Set LiteralValue} {W : Set Variable} (bounds : Bounds blocks T W)
    (s : ι) (map : ι → ReachingDefinitions) (h : WithinBounds blocks T W map) :
    WithinBounds blocks T W ((reachingDefinitions G).visit s map).1 := by
  have transferred : Within T W (transfer (map s).references.elems (joinPrev G map s)) := by
    rw [(h s).1]
    exact (Within.joinPrev (fun t => (h t).2) s).transfer (bounds.literals s) (bounds.written s)
  intro t
  rw [visit_apply]
  split
  · rename_i ht
    rw [ht, propagate_references, (h s).1]
    refine ⟨rfl, ?_⟩
    simp only [propagate]
    split
    · exact transferred
    · exact (h s).2
  · exact h t

/-- A run along which no visit lowers an `out` map ends. -/
theorem terminates_of_not_lowers [Finite ι] {c : Worklist.Config ι (ι → ReachingDefinitions)}
    {T : Set LiteralValue} {W : Set Variable} (bounds : Bounds blocks T W)
    (within : WithinBounds blocks T W c.state)
    (meets : (reachingDefinitions G).Meets (fun s map => ¬ Lowers G s map) c) :
    (reachingDefinitions G).Terminates c := by
  let S : Set (ι → Variable → Level) :=
    {x | ∀ s v, x s v ∈ levelsOver T ∧ (v ∉ W → x s v = ⊥)}
  have above (map : ι → ReachingDefinitions) : {y ∈ S | outLevels map ≤ y}.Finite :=
    (finite_families bounds.finiteLiterals bounds.finiteVariables).subset (Set.sep_subset _ _)
  have up (s : ι) (map : ι → ReachingDefinitions) (keeps : ¬ Lowers G s map) :
      outLevels map ≤ outLevels ((reachingDefinitions G).visit s map).1 := by
    rw [outLevels_visit, le_update_iff]
    exact ⟨not_not.mp keeps, fun _ _ => le_rfl⟩
  have shrink (s : ι) (map : ι → ReachingDefinitions) (keeps : ¬ Lowers G s map) :
      {y ∈ S | outLevels ((reachingDefinitions G).visit s map).1 ≤ y} ⊆
        {y ∈ S | outLevels map ≤ y} :=
    fun y hy => ⟨hy.1, (up s map keeps).trans hy.2⟩
  refine meets.terminates (WithinBounds blocks T W)
    (fun map => {y ∈ S | outLevels map ≤ y}.ncard) (fun s map _ => WithinBounds.visit bounds s map)
    ?_ ?_ within
  · intro s map keeps inside changed
    refine Set.ncard_lt_ncard ⟨shrink s map keeps, fun sub => ?_⟩ (above map)
    have inS : outLevels map ∈ S := fun t v =>
      ⟨((inside t).2 v).1, fun hv => level_eq_bot_iff.mpr (((inside t).2 v).2 hv)⟩
    have le := (sub ⟨inS, le_rfl⟩).2 s
    rw [outLevels_visit, Function.update_self] at le
    exact (propagate_changed_iff map s).mp changed (le_antisymm (not_not.mp keeps) le)
  · intro s map keeps _ _
    exact Set.ncard_le_ncard (shrink s map keeps) (above map)

/-! ## The end of a run -/

theorem outLevels_visit_of_unchanged {map : ι → ReachingDefinitions} {s : ι}
    (unchanged : (propagate G map s).2 = false) :
    outLevels ((reachingDefinitions G).visit s map).1 = outLevels map := by
  have same : ProgramState.levels (map s).out =
      ProgramState.levels (transfer (map s).references.elems (joinPrev G map s)) := by
    by_contra differs
    rw [(propagate_changed_iff map s).mpr differs] at unchanged
    exact Bool.noConfusion unchanged
  rw [outLevels_visit, ← same]
  exact Function.update_eq_self s (outLevels map)

/-- When the worklist is empty, every `in` map is the join of the final `out` maps
of the predecessors, and every `out` map is the transfer of the `in` map. -/
theorem settled {c : Worklist.Config ι (ι → ReachingDefinitions)}
    {final : ι → ReachingDefinitions} (full : ∀ s, s ∈ c.worklist)
    (halts : (reachingDefinitions G).Halts c final) (s : ι) :
    ProgramState.levels (final s).inMap = supPrev G s (outLevels final) ∧
      outLevels final s =
        ProgramState.levels (transfer (final s).references.elems (final s).inMap) := by
  refine (Worklist.Loop.Meets.of_forall fun _ _ => trivial).settled (fun _ => True)
    (fun s map => ProgramState.levels (map s).inMap = supPrev G s (outLevels map) ∧
      outLevels map s = ProgramState.levels (transfer (map s).references.elems (map s).inMap))
    (fun _ _ _ _ => trivial) ?_ trivial (fun s => .inl (full s)) halts s
  intro s map _ _ t settled
  have local_ (same : supPrev G t (outLevels ((reachingDefinitions G).visit s map).1) =
      supPrev G t (outLevels map)) :
      ProgramState.levels (((reachingDefinitions G).visit s map).1 t).inMap =
          supPrev G t (outLevels ((reachingDefinitions G).visit s map).1) ∧
        outLevels ((reachingDefinitions G).visit s map).1 t = ProgramState.levels
          (transfer (((reachingDefinitions G).visit s map).1 t).references.elems
            (((reachingDefinitions G).visit s map).1 t).inMap) := by
    rw [same, outLevels, visit_apply]
    by_cases ht : t = s
    · subst ht
      rw [if_pos rfl, propagate_inMap, propagate_references, levels_propagate_out]
      exact ⟨levels_joinPrev map t, rfl⟩
    · rw [if_neg ht]
      exact settled.resolve_left ht
  cases changed : ((reachingDefinitions G).visit s map).2 with
  | false =>
      left
      exact local_ (by rw [outLevels_visit_of_unchanged changed])
  | true =>
      by_cases dependent : t ∈ G.nextSegments s
      · exact .inr ⟨rfl, dependent⟩
      · left
        have hs : s ∉ G.prevSegments t := fun prev => dependent ((G.converse s t).mpr prev)
        refine local_ (supPrev_congr fun prev hp => ?_)
        rw [outLevels_visit, Function.update_of_ne (ne_of_mem_of_not_mem hp hs)]

/-! ## Runs of the rule -/

section Start

variable {order : SegmentOrder ι} {refs : ι → List Reference}

omit [DecidableEq ι] in
theorem mem_reachingDefinitionsStart (s : ι) :
    s ∈ (reachingDefinitionsStart order refs).worklist :=
  List.mem_reverse.mpr (order.complete s)

theorem collect_out (refs : List Reference) : (collect refs).out = .empty := by
  have keep (refs : List Reference) (defs : ReachingDefinitions) :
      (refs.foldl add defs).out = defs.out := by
    induction refs generalizing defs with
    | nil => rfl
    | cons ref refs ih =>
        rw [List.foldl_cons, ih, add]
        split <;> rfl
  exact keep refs {}

/-- The references that the segments have collected. -/
def collected (refs : ι → List Reference) (s : ι) : List Reference :=
  (collect (refs s)).references.elems

omit [DecidableEq ι] in
theorem invariant_start :
    Invariant G (collected refs) (reachingDefinitionsStart order refs).state := by
  refine ⟨fun s => rfl, fun s x hx => ?_⟩
  simp only [reachingDefinitionsStart, collect_out] at hx
  exact absurd rfl hx

/-- The invariant holds along every run of the rule. -/
theorem invariant_iterate (k : ℕ) : Invariant G (collected refs)
    ((reachingDefinitions G).step^[k] (reachingDefinitionsStart order refs)).state :=
  (Worklist.Loop.Meets.of_forall fun _ _ => trivial).invariant (Invariant G (collected refs))
    (fun s map (_ : True) => Invariant.visit s map) invariant_start k

/-- The references of a segment are the collected ones, also at the end. -/
theorem references_of_halts {final : ι → ReachingDefinitions}
    (halts : (reachingDefinitions G).Halts (reachingDefinitionsStart order refs) final) (s : ι) :
    (final s).references.elems = collected refs s := by
  obtain ⟨k, hk⟩ := halts
  have inv : Invariant G (collected refs)
      ((reachingDefinitions G).step^[k] (reachingDefinitionsStart order refs)).state :=
    invariant_iterate k
  rw [hk] at inv
  exact inv.references s

theorem meets_of_copiesDefined
    (meets : (reachingDefinitions G).Meets (CopiesDefined G)
      (reachingDefinitionsStart order refs)) :
    (reachingDefinitions G).Meets
      (fun s map => Invariant G (collected refs) map ∧ CopiesDefined G s map)
      (reachingDefinitionsStart order refs) := by
  intro k s rest map hk
  have inv : Invariant G (collected refs)
      ((reachingDefinitions G).step^[k] (reachingDefinitionsStart order refs)).state :=
    invariant_iterate k
  rw [hk] at inv
  exact ⟨inv, meets k s rest map hk⟩

omit [DecidableEq ι] in
theorem outLevels_start (s : ι) : outLevels (reachingDefinitionsStart order refs).state s = ⊥ := by
  simp [outLevels, reachingDefinitionsStart, collect_out]

/-- From any point of a run on, absence of lowering visits is enough to end it. -/
theorem terminates_of_eventually_not_lowers (K : ℕ)
    (meets : (reachingDefinitions G).Meets (fun s map => ¬ Lowers G s map)
      ((reachingDefinitions G).step^[K] (reachingDefinitionsStart order refs))) :
    (reachingDefinitions G).Terminates (reachingDefinitionsStart order refs) := by
  have := order.finite
  obtain ⟨T, W, bounds⟩ := exists_bounds (collected refs)
  have start : WithinBounds (collected refs) T W (reachingDefinitionsStart order refs).state := by
    intro s
    refine ⟨rfl, ?_⟩
    simp only [reachingDefinitionsStart, collect_out]
    exact within_empty
  have always : (reachingDefinitions G).Meets (fun _ _ => True)
      (reachingDefinitionsStart order refs) := Worklist.Loop.Meets.of_forall fun _ _ => trivial
  have within := always.invariant (WithinBounds (collected refs) T W)
    (fun s map _ => WithinBounds.visit bounds s map) start K
  rw [← Worklist.Loop.terminates_iterate K]
  exact terminates_of_not_lowers bounds within meets

/-- Where copies are defined, no visit lowers an `out` map. -/
theorem not_lowers_of_copiesDefined
    (meets : (reachingDefinitions G).Meets (CopiesDefined G)
      (reachingDefinitionsStart order refs)) :
    (reachingDefinitions G).Meets (fun s map => ¬ Lowers G s map)
      (reachingDefinitionsStart order refs) := by
  have good := meets_of_copiesDefined meets
  intro k s rest map hk
  have up := iterates.up good (fun s => by rw [outLevels_start]; exact bot_le) k
  rw [hk] at up
  have value := iterates.visit_value s map (good k s rest map hk) up
  have raised := congrFun value s
  rw [outLevels_visit, Function.update_self, Function.update_self] at raised
  exact not_not.mpr ((up s).trans raised.ge)

/-- A run ends exactly if only finitely many of its visits lower an `out` map, and
none does as long as every copied variable has its entry or no write of it reaches
the copy. -/
theorem reachingDefinitions_terminates (G : CodePathGraph ι) (order : SegmentOrder ι)
    (refs : ι → List Reference) :
    ((reachingDefinitions G).Meets (CopiesDefined G) (reachingDefinitionsStart order refs) →
      (reachingDefinitions G).Terminates (reachingDefinitionsStart order refs)) ∧
    ((reachingDefinitions G).Terminates (reachingDefinitionsStart order refs) ↔
      ∃ K, ∀ k ≥ K, ∀ s rest map,
        (reachingDefinitions G).step^[k] (reachingDefinitionsStart order refs) = ⟨s :: rest, map⟩ →
          ¬ Lowers G s map) := by
  refine ⟨fun meets => terminates_of_eventually_not_lowers 0 (not_lowers_of_copiesDefined meets),
    fun ⟨K, ended⟩ => ⟨K, fun k hk s rest map visits => ?_⟩, fun ⟨K, quiet⟩ =>
      terminates_of_eventually_not_lowers K fun k s rest map visits => ?_⟩
  · -- after the end there are no more visits
    obtain ⟨j, rfl⟩ := Nat.exists_eq_add_of_le' hk
    have stays : (reachingDefinitions G).step^[K] (reachingDefinitionsStart order refs) =
        ⟨[], ((reachingDefinitions G).step^[K] (reachingDefinitionsStart order refs)).state⟩ :=
      Worklist.Config.ext ended rfl
    rw [Function.iterate_add_apply, stays, Worklist.Loop.iterate_nil] at visits
    exact absurd (congrArg Worklist.Config.worklist visits).symm (List.cons_ne_nil s rest)
  · rw [← Function.iterate_add_apply] at visits
    exact quiet (k + K) (Nat.le_add_left K k) s rest map visits

end Start

/-! ## A run without end

`while (t = x, x = y, y = t, a) { if (b) { y = 1; } }`, in the order in which ESLint
starts the segments: entry, test, body, consequent, end of the body, exit. The
unknown value of the first copies goes around with the swap. -/

section Swap

private def variableOf (id : ℕ) (name : String) : Variable := { id, name }

/-- A plain write `name = writeExpr` where `x`, `y` and `t` are declared. -/
def writeOf (id : ℕ) (v : Variable) (writeExpr : WriteExpr) : Reference :=
  { id, resolved := some v, isRead := false, isWrite := true, writeExpr := some writeExpr,
    writeExprParent := .assignmentExpression .assign,
    scope := .global [variableOf 0 "x", variableOf 1 "y", variableOf 2 "t"],
    identifierParent := .assignmentExpression false }

def swapLoop : CodePathGraph (Fin 6) where
  prevSegments := ![[], [0, 4], [1], [2], [3, 2], [1]]
  nextSegments := ![[1], [2, 5], [3, 4], [4], [1], []]
  converse := by decide

def swapReferences : Fin 6 → List Reference :=
  ![[], [writeOf 0 (variableOf 2 "t") (.identifier "x"),
      writeOf 1 (variableOf 0 "x") (.identifier "y"),
      writeOf 2 (variableOf 1 "y") (.identifier "t")],
    [], [writeOf 3 (variableOf 1 "y") (.literal "1" (.number 1))], [], []]

def swapOrder : SegmentOrder (Fin 6) := ⟨[0, 1, 2, 3, 4, 5], by decide, by decide⟩

/-- The state after sixteen visits. -/
private def swapState : Fin 6 → ReachingDefinitions :=
  ((reachingDefinitions swapLoop).step^[16]
    (reachingDefinitionsStart swapOrder swapReferences)).state

set_option maxRecDepth 100000 in
theorem swapLoop_not_terminates : ¬ ∀ order : SegmentOrder (Fin 6),
    (reachingDefinitions swapLoop).Terminates (reachingDefinitionsStart order swapReferences) := by
  intro ends
  have reached : (reachingDefinitions swapLoop).step^[16]
      (reachingDefinitionsStart swapOrder swapReferences) =
        ⟨[1] ++ [3, 3, 3, 2, 1, 0], swapState⟩ :=
    Worklist.Config.ext (by decide) rfl
  -- eight visits later the state is the same, and there is more to do
  have back : (reachingDefinitions swapLoop).step^[8] ⟨[1], swapState⟩ =
      ⟨[1] ++ [3, 3], swapState⟩ :=
    Worklist.Config.ext (by decide) (by decide +kernel)
  have run := (Worklist.Loop.terminates_iterate 16).mpr (ends swapOrder)
  rw [reached] at run
  exact Worklist.Loop.not_terminates_of_return (by decide) (by decide) back _ run

end Swap

/-! ## Independence of the order -/

section Order

variable {refs : ι → List Reference}

/-- A run with defined copies ends in the least solution of the monotone equations,
which do not mention the order. -/
theorem outLevels_isLeast {order : SegmentOrder ι} {final : ι → ReachingDefinitions}
    (meets : (reachingDefinitions G).Meets (CopiesDefined G) (reachingDefinitionsStart order refs))
    (halts : (reachingDefinitions G).Halts (reachingDefinitionsStart order refs) final) :
    IsLeast {x | ∀ s, flow G (collected refs) s x ≤ x s} (outLevels final) :=
  iterates.isLeast (meets_of_copiesDefined meets) outLevels_start mem_reachingDefinitionsStart halts

/-- Two runs from different orders of the segments, both with defined copies, end
with the same `in` and `out` maps. -/
theorem reachingDefinitions_order_independent (G : CodePathGraph ι) (refs : ι → List Reference)
    (order₁ order₂ : SegmentOrder ι) (final₁ final₂ : ι → ReachingDefinitions)
    (copies₁ : (reachingDefinitions G).Meets (CopiesDefined G)
      (reachingDefinitionsStart order₁ refs))
    (copies₂ : (reachingDefinitions G).Meets (CopiesDefined G)
      (reachingDefinitionsStart order₂ refs))
    (halts₁ : (reachingDefinitions G).Halts (reachingDefinitionsStart order₁ refs) final₁)
    (halts₂ : (reachingDefinitions G).Halts (reachingDefinitionsStart order₂ refs) final₂)
    (s : ι) (v : Variable) :
    (final₁ s).inMap.get v = (final₂ s).inMap.get v ∧
      (final₁ s).out.get v = (final₂ s).out.get v := by
  have outs : outLevels final₁ = outLevels final₂ :=
    (outLevels_isLeast copies₁ halts₁).unique (outLevels_isLeast copies₂ halts₂)
  have ins : ProgramState.levels (final₁ s).inMap = ProgramState.levels (final₂ s).inMap := by
    rw [(settled mem_reachingDefinitionsStart halts₁ s).1,
      (settled mem_reachingDefinitionsStart halts₂ s).1, outs]
  exact ⟨level_injective (congrFun ins v), level_injective (congrFun (congrFun outs s) v)⟩

/-- A condition on the references alone: each copied variable is written earlier in
the segment, or no write of it reaches the segment. -/
theorem meets_copiesDefined_of_written (order : SegmentOrder ι)
    (written : ∀ s pre ref post v x, collected refs s = pre ++ ref :: post →
      ref.effect = .copy v x →
        (∃ earlier ∈ pre, earlier.Writes x) ∨ ¬ WriteReaches G (collected refs) x s) :
    (reachingDefinitions G).Meets (CopiesDefined G) (reachingDefinitionsStart order refs) := by
  refine Worklist.Loop.Meets.of_invariant (Invariant G (collected refs)) Invariant.visit ?_
    invariant_start
  intro s map inv pre ref post v x split effect absent
  rw [show (fun t => (map t).references.elems) = collected refs from funext inv.references]
  rw [inv.references] at split
  apply (written s pre ref post v x split effect).resolve_left
  rintro ⟨earlier, member, writes⟩
  exact (get_transfer_eq_none.1 absent).2 earlier member writes

/-- Segment `0` leads to the loop `1`. -/
private def selfLoop : CodePathGraph (Fin 2) where
  prevSegments := ![[], [0, 1]]
  nextSegments := ![[1], [1]]
  converse := by decide

private def forward : SegmentOrder (Fin 2) := ⟨[0, 1], by decide, by decide⟩

private def backward : SegmentOrder (Fin 2) := ⟨[1, 0], by decide, by decide⟩

/-- `x = 1; while (a) { x = 1; y = x; }` -/
private def stableReferences : Fin 2 → List Reference :=
  ![[writeOf 0 (variableOf 0 "x") (.literal "1" (.number 1))],
    [writeOf 1 (variableOf 0 "x") (.literal "1" (.number 1)),
      writeOf 2 (variableOf 1 "y") (.identifier "x")]]

/-- The end of a run on the self-loop; twelve visits are enough below. -/
private def endOf (order : SegmentOrder (Fin 2)) (refs : Fin 2 → List Reference) :
    Fin 2 → ReachingDefinitions :=
  ((reachingDefinitions selfLoop).step^[12] (reachingDefinitionsStart order refs)).state

private theorem stableReferences_meets (order : SegmentOrder (Fin 2)) :
    (reachingDefinitions selfLoop).Meets (CopiesDefined selfLoop)
      (reachingDefinitionsStart order stableReferences) := by
  refine meets_copiesDefined_of_written order fun s pre ref post v x split effect => .inl ?_
  have blocks : ∀ s, collected stableReferences s = stableReferences s := by decide
  rw [blocks s] at split
  match s, pre with
  | 0, [] =>
      obtain ⟨rfl, -⟩ := List.cons.inj split
      exact absurd effect (by simp [Reference.effect, writeOf])
  | 0, [_] => exact absurd split (by simp [stableReferences])
  | 0, _ :: _ :: _ => exact absurd split (by simp [stableReferences])
  | 1, [] =>
      obtain ⟨rfl, -⟩ := List.cons.inj split
      exact absurd effect (by simp [Reference.effect, writeOf])
  | 1, [earlier] =>
      obtain ⟨rfl, tail⟩ := List.cons.inj split
      obtain ⟨rfl, -⟩ := List.cons.inj tail
      refine ⟨_, List.mem_singleton_self _, ?_⟩
      have copied : v = variableOf 1 "y" ∧ x = variableOf 0 "x" := by
        simpa [Reference.effect, writeOf, getVariableFromIdentifier, Scope.declared, variableOf,
          eq_comm] using effect
      rw [copied.2]
      exact ⟨rfl, rfl⟩
  | 1, _ :: _ :: _ => exact absurd split (by simp [stableReferences])

set_option maxRecDepth 100000 in
theorem reachingDefinitions_order_independent_on_selfLoop :
    (endOf forward stableReferences 1).inMap.get (variableOf 0 "x") =
        (endOf backward stableReferences 1).inMap.get (variableOf 0 "x") ∧
      (endOf forward stableReferences 1).out.get (variableOf 0 "x") =
        (endOf backward stableReferences 1).out.get (variableOf 0 "x") :=
  reachingDefinitions_order_independent selfLoop stableReferences forward backward _ _
    (stableReferences_meets forward) (stableReferences_meets backward)
    ⟨12, Worklist.Config.ext (by decide) rfl⟩
    ⟨12, Worklist.Config.ext (by decide) rfl⟩ 1 (variableOf 0 "x")

/-- `x = 1; while (a) { y = x; x = y; }` -/
private def feedbackReferences : Fin 2 → List Reference :=
  ![[writeOf 0 (variableOf 0 "x") (.literal "1" (.number 1))],
    [writeOf 1 (variableOf 1 "y") (.identifier "x"),
      writeOf 2 (variableOf 0 "x") (.identifier "y")]]

set_option maxRecDepth 100000 in
theorem reachingDefinitions_order_dependent :
    ¬ ∀ (order₁ order₂ : SegmentOrder (Fin 2)) (final₁ final₂ : Fin 2 → ReachingDefinitions),
      (reachingDefinitions selfLoop).Halts
          (reachingDefinitionsStart order₁ feedbackReferences) final₁ →
        (reachingDefinitions selfLoop).Halts
          (reachingDefinitionsStart order₂ feedbackReferences) final₂ →
        ∀ s v, (final₁ s).inMap.get v = (final₂ s).inMap.get v ∧
          (final₁ s).out.get v = (final₂ s).out.get v := by
  intro independent
  have same := independent forward backward (endOf forward feedbackReferences)
    (endOf backward feedbackReferences) ⟨12, Worklist.Config.ext (by decide) rfl⟩
    ⟨12, Worklist.Config.ext (by decide) rfl⟩ 1 (variableOf 0 "x")
  -- unknown in the first run, the literal in the second
  exact absurd same.2 (by decide)

end Order

end ReachingDefinitions

end SonarJS
