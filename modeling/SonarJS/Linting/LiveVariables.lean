import SonarJS.Foundation.Worklist
import SonarJS.Linting.CodePath
import Mathlib.Data.Set.Finite.Lattice
import Mathlib.Order.CompletePartialOrder

/-!
# Live-variable analysis

The worklist of `helpers/lva.ts`. A segment is recomputed from the `in` sets of its
successors; when its own `in` set has to grow, its predecessors are pushed. The
test for that is inclusion of the new elements in the old set, not equality.

The equations behind the loop are `in s = gen s ∪ (⋃ in t \ kill s)`, the union
over the successors `t`. The loop iterates them in the sense of
`Worklist.Iterates`: along a run the old `in` set is always contained in the new
one, so that inclusion decides equality, and every segment whose `out` could have
gone stale is on the worklist.
-/

namespace SonarJS

/-- `LiveVariables` without its `segment`, which is the key it is stored under. -/
structure LiveVariables where
  gen : OrderedSet Variable := .empty
  kill : OrderedSet Variable := .empty
  inSet : OrderedSet Variable := .empty
  out : List Variable := []
  references : OrderedSet Reference := .empty

/-- `difference` of `lva.ts`. -/
def difference (a : List Variable) (b : OrderedSet Variable) : List Variable :=
  if b.elems.length = 0 then a else a.filter (· ∉ b)

/-- `shouldUpdate` of `lva.ts`: some element of `gen` or `diff` is missing. -/
def shouldUpdate (inSet gen : OrderedSet Variable) (diff : List Variable) : Bool :=
  gen.elems.any (· ∉ inSet) || diff.any (· ∉ inSet)

namespace LiveVariables

/-- `LiveVariables.add`. -/
def add (lv : LiveVariables) (ref : Reference) : LiveVariables :=
  match ref.resolved with
  | none => lv
  | some v =>
    { lv with
      gen := if ref.isRead then lv.gen.add v else lv.gen
      kill := if ref.isWrite then lv.kill.add v else lv.kill
      references := lv.references.add ref }

/-- What a segment has collected after `add` was called on the references in turn. -/
def collect (refs : List Reference) : LiveVariables := refs.foldl add {}

end LiveVariables

section Lva

variable {ι : Type*} [DecidableEq ι] (G : CodePathGraph ι)

/-- `LiveVariables.propagate` for the segment `s`. -/
def LiveVariables.propagate (map : ι → LiveVariables) (s : ι) : LiveVariables × Bool :=
  let lv := map s
  let out := (G.nextSegments s).flatMap fun next => (map next).inSet.elems
  let diff := difference out lv.kill
  if shouldUpdate lv.inSet lv.gen diff then
    ({ lv with out := out, inSet := OrderedSet.ofList (lv.gen.elems ++ diff) }, true)
  else
    ({ lv with out := out }, false)

/-- The loop of `lva`: the map is updated at the popped segment. -/
def lva : Worklist.Loop ι (ι → LiveVariables) where
  visit s map :=
    let propagated := LiveVariables.propagate G map s
    (Function.update map s propagated.1, propagated.2)
  dependents := G.prevSegments

/-- The worklist starts with all segments in map order; the last one is popped first. -/
def lvaStart (order : SegmentOrder ι) (map : ι → LiveVariables) :
    Worklist.Config ι (ι → LiveVariables) :=
  ⟨order.segments.reverse, map⟩

end Lva

@[simp] theorem mem_difference {a : List Variable} {b : OrderedSet Variable} {v : Variable} :
    v ∈ difference a b ↔ v ∈ a ∧ v ∉ b := by
  unfold difference
  split
  · rename_i h
    rw [List.length_eq_zero_iff] at h
    simp [OrderedSet.mem_def, h]
  · simp

theorem shouldUpdate_eq_false_iff {inSet gen : OrderedSet Variable} {diff : List Variable} :
    shouldUpdate inSet gen diff = false ↔ ∀ v, v ∈ gen ∨ v ∈ diff → v ∈ inSet := by
  simp only [shouldUpdate, Bool.or_eq_false_iff, List.any_eq_false, decide_eq_true_eq, not_not,
    ← OrderedSet.mem_def]
  constructor
  · rintro ⟨inGen, inDiff⟩ v (h | h)
    · exact inGen v h
    · exact inDiff v h
  · intro h
    exact ⟨fun v hv => h v (.inl hv), fun v hv => h v (.inr hv)⟩

namespace Lva

variable {ι : Type*} (G : CodePathGraph ι) (gen kill : ι → OrderedSet Variable)

/-- The right-hand side of the live-variable equations. -/
def flow (s : ι) (x : ι → Set Variable) : Set Variable :=
  {v | v ∈ gen s ∨ (∃ t ∈ G.nextSegments s, v ∈ x t) ∧ v ∉ kill s}

/-- The `in` sets of a map, as sets. -/
def inSets (map : ι → LiveVariables) (s : ι) : Set Variable := {v | v ∈ (map s).inSet}

/-- The parts of a map that propagation never changes. -/
def HasBlocks (map : ι → LiveVariables) : Prop :=
  ∀ s, (map s).gen = gen s ∧ (map s).kill = kill s

theorem flow_mono (s : ι) : Monotone (flow G gen kill s) := by
  rintro x y le v (hv | ⟨⟨t, ht, hv⟩, hk⟩)
  · exact .inl hv
  · exact .inr ⟨⟨t, ht, le t hv⟩, hk⟩

variable {G gen kill}

theorem propagate_gen (map : ι → LiveVariables) (s : ι) :
    (LiveVariables.propagate G map s).1.gen = (map s).gen := by
  simp only [LiveVariables.propagate]
  split <;> rfl

theorem propagate_kill (map : ι → LiveVariables) (s : ι) :
    (LiveVariables.propagate G map s).1.kill = (map s).kill := by
  simp only [LiveVariables.propagate]
  split <;> rfl

theorem propagate_references (map : ι → LiveVariables) (s : ι) :
    (LiveVariables.propagate G map s).1.references = (map s).references := by
  simp only [LiveVariables.propagate]
  split <;> rfl

theorem propagate_out (map : ι → LiveVariables) (s : ι) :
    (LiveVariables.propagate G map s).1.out =
      (G.nextSegments s).flatMap fun next => (map next).inSet.elems := by
  simp only [LiveVariables.propagate]
  split <;> rfl

/-- What `shouldUpdate` compares with the old `in` set is the right-hand side of
the segment's equation. -/
theorem mem_flow_iff {map : ι → LiveVariables} (h : HasBlocks gen kill map) (s : ι)
    (v : Variable) :
    v ∈ flow G gen kill s (inSets map) ↔ v ∈ (map s).gen ∨
      v ∈ difference ((G.nextSegments s).flatMap fun next => (map next).inSet.elems)
        (map s).kill := by
  rw [(h s).1, (h s).2, mem_difference, List.mem_flatMap]
  rfl

/-- One visit, once and for all: it reports whether the equation asks for more than
the old `in` set, and in that case the new `in` set is what the equation says. -/
theorem propagate_spec {map : ι → LiveVariables} (h : HasBlocks gen kill map) (s : ι) :
    ((LiveVariables.propagate G map s).2 = false ∧
        flow G gen kill s (inSets map) ⊆ inSets map s ∧
        (LiveVariables.propagate G map s).1.inSet = (map s).inSet) ∨
      ((LiveVariables.propagate G map s).2 = true ∧
        ¬ flow G gen kill s (inSets map) ⊆ inSets map s ∧
        ∀ v, v ∈ (LiveVariables.propagate G map s).1.inSet ↔
          v ∈ flow G gen kill s (inSets map)) := by
  have subset : shouldUpdate (map s).inSet (map s).gen
      (difference ((G.nextSegments s).flatMap fun next => (map next).inSet.elems)
        (map s).kill) = false ↔ flow G gen kill s (inSets map) ⊆ inSets map s := by
    rw [shouldUpdate_eq_false_iff]
    exact forall_congr' fun v => by rw [mem_flow_iff h]; rfl
  cases hu : shouldUpdate (map s).inSet (map s).gen
      (difference ((G.nextSegments s).flatMap fun next => (map next).inSet.elems)
        (map s).kill) with
  | false =>
      left
      rw [LiveVariables.propagate]
      simp only [hu]
      exact ⟨rfl, subset.mp hu, rfl⟩
  | true =>
      right
      rw [LiveVariables.propagate]
      simp only [hu, if_true]
      refine ⟨trivial, fun sub => ?_, fun v => ?_⟩
      · rw [subset.mpr sub] at hu
        exact Bool.noConfusion hu
      · rw [mem_flow_iff h, OrderedSet.mem_ofList, List.mem_append]
        rfl

variable [DecidableEq ι]

theorem hasBlocks_visit (s : ι) (map : ι → LiveVariables) (h : HasBlocks gen kill map) :
    HasBlocks gen kill ((lva G).visit s map).1 := by
  intro t
  by_cases ht : t = s
  · subst ht
    simp only [lva, Function.update_self, propagate_gen, propagate_kill]
    exact h t
  · simp only [lva, Function.update_of_ne ht]
    exact h t

/-- The code's loop iterates the live-variable equations. -/
theorem iterates : Worklist.Iterates (lva G) (flow G gen kill) inSets
    (fun _ map => HasBlocks gen kill map) where
  mono := flow_mono G gen kill
  local_of_not_dependent := by
    intro s t x d ht
    -- `s` is no successor of `t`, so the union at `t` does not look at it.
    have hs : s ∉ G.nextSegments t := fun next => ht ((G.converse t s).mp next)
    ext v
    simp only [flow, Set.mem_ofPred_eq]
    have same : (∃ u ∈ G.nextSegments t, v ∈ Function.update x s d u) ↔
        ∃ u ∈ G.nextSegments t, v ∈ x u := by
      refine exists_congr fun u => and_congr_right ?_
      intro hu
      rw [Function.update_of_ne (ne_of_mem_of_not_mem hu hs)]
    rw [same]
  visit_value := by
    intro s map blocks up
    funext t
    by_cases ht : t = s
    · subst ht
      rw [Function.update_self]
      ext v
      simp only [inSets, lva, Function.update_self, Set.mem_ofPred_eq]
      obtain ⟨-, sub, same⟩ | ⟨-, -, mem⟩ := propagate_spec (G := G) blocks t
      · rw [same]
        exact ⟨fun hv => up t hv, fun hv => sub hv⟩
      · exact mem v
    · rw [Function.update_of_ne ht]
      simp only [inSets, lva, Function.update_of_ne ht]
  visit_changed := by
    intro s map blocks up
    simp only [lva]
    obtain ⟨unchanged, sub, -⟩ | ⟨changed, more, -⟩ := propagate_spec (G := G) blocks s
    · rw [unchanged]
      exact ⟨fun h => Bool.noConfusion h, fun h => absurd (Set.Subset.antisymm (up s) sub) h⟩
    · rw [changed]
      exact ⟨fun _ same => more same.ge, fun _ => rfl⟩

variable {order : SegmentOrder ι} {map final : ι → LiveVariables}

theorem meets_hasBlocks (blocks : HasBlocks gen kill map) :
    (lva G).Meets (fun _ map => HasBlocks gen kill map) (lvaStart order map) :=
  Worklist.Loop.Meets.of_invariant (HasBlocks gen kill) hasBlocks_visit (fun _ _ h => h) blocks

omit [DecidableEq ι] in
theorem mem_lvaStart (s : ι) : s ∈ (lvaStart order map).worklist :=
  List.mem_reverse.mpr (order.complete s)

/-- The loop ends: the `in` sets never leave the union of the `gen` sets. -/
theorem terminates (blocks : HasBlocks gen kill map) (empty : ∀ s, (map s).inSet = .empty) :
    (lva G).Terminates (lvaStart order map) := by
  have := order.finite
  let bound : Set Variable := ⋃ s, {v | v ∈ gen s}
  have finiteBound : bound.Finite :=
    Set.finite_iUnion fun s => List.finite_toSet (gen s).elems
  refine iterates.terminates (meets_hasBlocks blocks) (fun s v hv => ?_)
    (Set.Finite.pi' fun _ : ι => finiteBound.finite_subsets) ?_ ?_
  · simp [lvaStart, inSets, empty] at hv
  · intro s v hv
    simp [lvaStart, inSets, empty] at hv
  · intro x hx s t
    by_cases ht : t = s
    · subst ht
      rw [Function.update_self]
      rintro v (hv | ⟨⟨u, -, hv⟩, -⟩)
      · exact Set.mem_iUnion.mpr ⟨t, hv⟩
      · exact hx u hv
    · rw [Function.update_of_ne ht]
      exact hx t

/-- A run leaves the collected references alone. -/
theorem references_eq (halts : (lva G).Halts (lvaStart order map) final) (s : ι) :
    (final s).references = (map s).references := by
  obtain ⟨k, hk⟩ := halts
  have always : (lva G).Meets (fun _ _ => True) (lvaStart order map) :=
    Worklist.Loop.Meets.of_forall fun _ _ => trivial
  have same := always.invariant (fun m => ∀ s, (m s).references = (map s).references)
    (fun s m _ h t => ?_) (fun _ => rfl) k s
  · rwa [hk] at same
  · by_cases ht : t = s
    · subst ht
      simp only [lva, Function.update_self, propagate_references]
      exact h t
    · simp only [lva, Function.update_of_ne ht]
      exact h t

/-- At the end of a run no `out` list is stale. -/
theorem out_eq (halts : (lva G).Halts (lvaStart order map) final) (s : ι) :
    (final s).out = (G.nextSegments s).flatMap fun next => (final next).inSet.elems := by
  refine (Worklist.Loop.Meets.of_forall fun _ _ => trivial).settled
    (fun _ => True) (fun s (m : ι → LiveVariables) =>
      (m s).out = (G.nextSegments s).flatMap fun next => (m next).inSet.elems)
    (fun _ _ _ _ => trivial) ?_ trivial (fun s => .inl (mem_lvaStart s)) halts s
  intro s m _ _ t settled
  simp only [lva]
  cases changed : (LiveVariables.propagate G m s).2 with
  | false =>
      -- no `in` set has changed, and the visited segment has a fresh `out`
      have same : (LiveVariables.propagate G m s).1.inSet = (m s).inSet := by
        rcases propagate_spec (G := G) (fun s => ⟨rfl, rfl⟩ : HasBlocks _ _ m) s with
          ⟨-, -, same⟩ | ⟨reported, -⟩
        · exact same
        · rw [changed] at reported
          exact Bool.noConfusion reported
      have inSame (u : ι) : (Function.update m s (LiveVariables.propagate G m s).1 u).inSet =
          (m u).inSet := by
        by_cases hu : u = s
        · subst hu
          rw [Function.update_self, same]
        · rw [Function.update_of_ne hu]
      left
      simp only [inSame]
      by_cases ht : t = s
      · subst ht
        rw [Function.update_self, propagate_out]
      · rw [Function.update_of_ne ht]
        exact settled.resolve_left ht
  | true =>
      by_cases dependent : t ∈ G.prevSegments s
      · exact .inr ⟨rfl, dependent⟩
      · left
        have hs : s ∉ G.nextSegments t := fun next => dependent ((G.converse t s).mp next)
        have inSame : ((G.nextSegments t).flatMap fun next =>
            (Function.update m s (LiveVariables.propagate G m s).1 next).inSet.elems) =
            (G.nextSegments t).flatMap fun next => (m next).inSet.elems := by
          apply List.flatMap_congr
          intro u hu
          rw [Function.update_of_ne (ne_of_mem_of_not_mem hu hs)]
        rw [inSame]
        by_cases ht : t = s
        · subst ht
          rw [Function.update_self, propagate_out]
        · rw [Function.update_of_ne ht]
          exact settled.resolve_left ht

end Lva

/-- The map on which `lva` starts, for given `gen` and `kill` sets. -/
def LiveVariables.fresh (gen kill : OrderedSet Variable) : LiveVariables :=
  { gen := gen, kill := kill }

/-- Live-variable analysis terminates in the least solution of its equations, its
`out` lists belong to that solution, and the order of the segments does not matter. -/
theorem lva_computes_least_fixpoint {ι : Type*} [DecidableEq ι] (G : CodePathGraph ι)
    (gen kill : ι → OrderedSet Variable) (order : SegmentOrder ι) :
    ∃ final, (lva G).Halts (lvaStart order fun s => .fresh (gen s) (kill s)) final ∧
      (∀ s v, v ∈ (final s).inSet ↔
        v ∈ gen s ∨ (∃ t ∈ G.nextSegments s, v ∈ (final t).inSet) ∧ v ∉ kill s) ∧
      (∀ s v, v ∈ (final s).out ↔ ∃ t ∈ G.nextSegments s, v ∈ (final t).inSet) ∧
      (∀ solution : ι → Set Variable,
        (∀ s v, v ∈ solution s ↔
          v ∈ gen s ∨ (∃ t ∈ G.nextSegments s, v ∈ solution t) ∧ v ∉ kill s) →
        ∀ s v, v ∈ (final s).inSet → v ∈ solution s) ∧
      (∀ (order' : SegmentOrder ι) final',
        (lva G).Halts (lvaStart order' fun s => .fresh (gen s) (kill s)) final' →
        ∀ s v, v ∈ (final' s).inSet ↔ v ∈ (final s).inSet) := by
  have blocks : Lva.HasBlocks gen kill fun s => .fresh (gen s) (kill s) :=
    fun s => ⟨rfl, rfl⟩
  have least {order : SegmentOrder ι} {final} (halts : (lva G).Halts
      (lvaStart order fun s => .fresh (gen s) (kill s)) final) :
      IsLeast {x | ∀ s, Lva.flow G gen kill s x ≤ x s} (Lva.inSets final) :=
    Lva.iterates.isLeast (Lva.meets_hasBlocks blocks) (fun s => Set.eq_empty_of_forall_notMem
      fun v => OrderedSet.not_mem_empty v) Lva.mem_lvaStart halts
  have ends : (lva G).Terminates (lvaStart order fun s => .fresh (gen s) (kill s)) :=
    Lva.terminates blocks fun _ => rfl
  obtain ⟨final, halts⟩ := ends.halts
  refine ⟨final, halts, fun s v => ?_, fun s v => ?_, fun solution solves s v hv => ?_,
    fun order' final' halts' s v => ?_⟩
  · have solved := Lva.iterates.solution (Lva.meets_hasBlocks blocks)
      (fun s v hv => absurd hv (OrderedSet.not_mem_empty v)) Lva.mem_lvaStart halts s
    exact Set.ext_iff.mp solved v
  · rw [Lva.out_eq halts, List.mem_flatMap]
    rfl
  · exact (least halts).2 (fun s v hv => (solves s v).mpr hv) s hv
  · have same := (least halts').unique (least halts)
    exact Set.ext_iff.mp (congrFun same s) v

end SonarJS
