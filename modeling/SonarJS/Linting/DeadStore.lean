import SonarJS.Linting.LiveVariables

/-!
# Dead stores

The reporting half of `no-dead-store.ts`. Once `lva` has run, `checkSegment` goes
through the references of a segment backwards, starting from the variables that
the successors need, and looks for writes of variables that will not be read.

The soundness argument has two parts that meet at the segment boundary. The block
summaries forget the order of reads and writes, so a variable that some path reads
before overwriting it is in the `in` set of the first segment of that path. Inside
the segment the backward scan is exact.
-/

namespace SonarJS

namespace DeadStore

/-- What the rule has gathered about the file when `Program:exit` is reached. -/
structure Context where
  readVariables : OrderedSet Variable
  /-- the ids of the code paths in which a variable is used -/
  variableUsages : Variable → OrderedSet String
  referencesUsedInDestructuring : OrderedSet Reference

/-- `isBasicValue`. -/
def isBasicValue : WriteExpr → Bool
  | .literal _ (.string value) => value = ""
  | .literal _ (.number value) => value = 0 || value = 1
  | .literal _ .null => true
  | .literal _ (.boolean _) => true
  | .literal _ .other => false
  | .identifier name => name = "undefined"
  | .unary argument => isBasicValue argument
  | .object properties => properties = 0
  | .array elements => elements = 0
  | .other => false

def isReferenceWithBasicValue (ref : Reference) : Bool :=
  ref.init && ref.writeExpr.any isBasicValue

def isDefaultParameter (ref : Reference) : Bool :=
  !ref.isJSX && ref.identifierParent = .assignmentPattern

def isIncrementOrDecrement (ref : Reference) : Bool :=
  ref.identifierParent = .updateExpression

def isNullAssignment (ref : Reference) : Bool :=
  ref.identifierParent = .assignmentExpression true

def isLocalVar (v : Variable) : Bool :=
  v.scopeBlock ≠ .program && v.scopeBlock ≠ .tsModuleDeclaration

namespace Context

variable (ctx : Context)

def shouldReportReference (ref : Reference) : Bool :=
  match ref.resolved with
  | none => false
  | some v =>
    isLocalVar v && !isReferenceWithBasicValue ref && !isDefaultParameter ref &&
      !(ref ∈ ctx.referencesUsedInDestructuring : Bool) && !v.name.startsWith "_" &&
      !isIncrementOrDecrement ref && !isNullAssignment ref

def variableUsedOutsideOfCodePath (v : Variable) : Bool :=
  1 < (ctx.variableUsages v).elems.length

def shouldReport (ref : Reference) : Bool :=
  match ref.resolved with
  | none => false
  | some v =>
    ctx.shouldReportReference ref && !ctx.variableUsedOutsideOfCodePath v &&
      (v ∈ ctx.readVariables : Bool)

/-- `reportNeverReadVariables`. -/
def reportNeverReadVariables (lv : LiveVariables) : List Reference :=
  lv.references.elems.filter fun ref =>
    ctx.shouldReportReference ref && ref.resolved.all (· ∉ ctx.readVariables)

end Context

/-- The variables that will be read just before a reference, given those just after
it. A reference that reads and writes is first deleted and then added. -/
def scan (willBeRead : OrderedSet Variable) (ref : Reference) : OrderedSet Variable :=
  match ref.resolved with
  | none => willBeRead
  | some v =>
    let rest := if ref.isWrite then willBeRead.delete v else willBeRead
    if ref.isRead then rest.add v else rest

/-- One turn of the `forEach` of `checkSegment`, with the reports made so far. -/
def checkReference (shouldReport : Reference → Bool)
    (state : OrderedSet Variable × List Reference) (ref : Reference) :
    OrderedSet Variable × List Reference :=
  let unread := ref.resolved.any fun v => ref.isWrite && v ∉ state.1
  (scan state.1 ref, if unread && shouldReport ref then state.2 ++ [ref] else state.2)

/-- `checkSegment`: the references of the segment that it reports. -/
def checkSegment (shouldReport : Reference → Bool) (lv : LiveVariables) : List Reference :=
  (lv.references.elems.reverse.foldl (checkReference shouldReport)
    (OrderedSet.ofList lv.out, [])).2

/-- Along these references, `v` is read before it is overwritten: the first of them
that touches `v` is not a write-only one. -/
def ReadBeforeWritten (v : Variable) (refs : List Reference) : Prop :=
  ∃ before read after, refs = before ++ read :: after ∧ read.Reads v ∧
    ∀ ref ∈ before, ref.Writes v → ref.isWriteOnly = false

@[simp] theorem readBeforeWritten_nil (v : Variable) : ¬ ReadBeforeWritten v [] := by
  rintro ⟨before, read, after, split, -⟩
  simp at split

theorem readBeforeWritten_cons {v : Variable} {ref : Reference} {refs : List Reference} :
    ReadBeforeWritten v (ref :: refs) ↔
      ref.Reads v ∨ (ref.Writes v → ref.isWriteOnly = false) ∧ ReadBeforeWritten v refs := by
  constructor
  · rintro ⟨before, read, after, split, reads, quiet⟩
    cases before with
    | nil =>
        obtain ⟨rfl, -⟩ := List.cons.inj split
        exact .inl reads
    | cons first before =>
        obtain ⟨rfl, rfl⟩ := List.cons.inj split
        exact .inr ⟨quiet ref List.mem_cons_self, before, read, after, rfl, reads,
          fun r hr => quiet r (List.mem_cons_of_mem ref hr)⟩
  · rintro (reads | ⟨quiet, before, read, after, rfl, reads, quietBefore⟩)
    · exact ⟨[], ref, refs, rfl, reads, by simp⟩
    · refine ⟨ref :: before, read, after, rfl, reads, fun r hr => ?_⟩
      obtain rfl | member := List.mem_cons.mp hr
      · exact quiet
      · exact quietBefore r member

/-- A write that is not write-only also reads. -/
theorem reads_of_writes {v : Variable} {ref : Reference} (writes : ref.Writes v)
    (quiet : ref.Writes v → ref.isWriteOnly = false) : ref.Reads v := by
  have mixed := quiet writes
  rw [Reference.isWriteOnly, writes.2] at mixed
  exact ⟨writes.1, by simpa using mixed⟩

/-- If `v` is read before it is overwritten along a segment and what follows it,
then the segment itself reads it or leaves it to what follows. -/
theorem readBeforeWritten_append {v : Variable} {refs rest : List Reference}
    (h : ReadBeforeWritten v (refs ++ rest)) :
    (∃ ref ∈ refs, ref.Reads v) ∨ (∀ ref ∈ refs, ¬ ref.Writes v) ∧ ReadBeforeWritten v rest := by
  induction refs with
  | nil => exact .inr ⟨by simp, h⟩
  | cons ref refs ih =>
      obtain reads | ⟨quiet, later⟩ := readBeforeWritten_cons.1 h
      · exact .inl ⟨ref, List.mem_cons_self, reads⟩
      · by_cases writes : ref.Writes v
        · exact .inl ⟨ref, List.mem_cons_self, reads_of_writes writes quiet⟩
        · obtain ⟨r, member, reads⟩ | ⟨none, rest⟩ := ih later
          · exact .inl ⟨r, List.mem_cons_of_mem ref member, reads⟩
          · refine .inr ⟨fun r hr => ?_, rest⟩
            obtain rfl | member := List.mem_cons.mp hr
            · exact writes
            · exact none r member

@[simp] theorem mem_scan {v : Variable} {willBeRead : OrderedSet Variable} {ref : Reference} :
    v ∈ scan willBeRead ref ↔ ref.Reads v ∨ v ∈ willBeRead ∧ ¬ ref.Writes v := by
  unfold scan Reference.Reads Reference.Writes
  cases hr : ref.resolved with
  | none => simp
  | some w =>
      by_cases hv : w = v
      · subst hv
        cases ref.isRead <;> cases ref.isWrite <;> simp
      · have hv' : v ≠ w := fun e => hv e.symm
        cases ref.isRead <;> cases ref.isWrite <;> simp [hv, hv']

/-- The set that `checkSegment` holds just after (in source order) the references
`after` are still to come. -/
def willBeReadAfter (out : List Variable) (after : List Reference) : OrderedSet Variable :=
  after.foldr (fun ref willBeRead => scan willBeRead ref) (OrderedSet.ofList out)

/-- The backward scan misses no variable that is read later, provided the `out`
list it starts from misses none. -/
theorem mem_willBeReadAfter {v : Variable} {out : List Variable} {after rest : List Reference}
    (h : ReadBeforeWritten v (after ++ rest)) (start : ReadBeforeWritten v rest → v ∈ out) :
    v ∈ willBeReadAfter out after := by
  induction after with
  | nil =>
      rw [willBeReadAfter, List.foldr_nil, OrderedSet.mem_ofList]
      exact start h
  | cons ref after ih =>
      show v ∈ scan (willBeReadAfter out after) ref
      rw [mem_scan]
      obtain reads | ⟨quiet, later⟩ := readBeforeWritten_cons.1 h
      · exact .inl reads
      · by_cases writes : ref.Writes v
        · exact .inl (reads_of_writes writes quiet)
        · exact .inr ⟨ih later, writes⟩

private theorem mem_foldl_checkReference {shouldReport : Reference → Bool} {out : List Variable}
    {refs : List Reference} {ref : Reference}
    (h : ref ∈ (refs.reverse.foldl (checkReference shouldReport) (OrderedSet.ofList out, [])).2) :
    ∃ before after v, refs = before ++ ref :: after ∧ ref.Writes v ∧
      v ∉ willBeReadAfter out after := by
  have scanned (refs : List Reference) :
      (refs.reverse.foldl (checkReference shouldReport) (OrderedSet.ofList out, [])).1 =
        willBeReadAfter out refs := by
    induction refs with
    | nil => rfl
    | cons r refs ih =>
        rw [List.reverse_cons, List.foldl_append, List.foldl_cons, List.foldl_nil]
        simp only [checkReference, ih]
        rfl
  induction refs with
  | nil => simp at h
  | cons first refs ih =>
      rw [List.reverse_cons, List.foldl_append, List.foldl_cons, List.foldl_nil] at h
      simp only [checkReference, scanned] at h
      have earlier (h : ref ∈ (refs.reverse.foldl (checkReference shouldReport)
          (OrderedSet.ofList out, [])).2) : ∃ before after v, first :: refs =
            before ++ ref :: after ∧ ref.Writes v ∧ v ∉ willBeReadAfter out after := by
        obtain ⟨before, after, v, rfl, found⟩ := ih h
        exact ⟨first :: before, after, v, rfl, found⟩
      split at h
      · rename_i reported
        obtain old | new := List.mem_append.mp h
        · exact earlier old
        · rw [List.mem_singleton] at new
          subst new
          have unread := (Bool.and_eq_true_iff.mp reported).1
          rw [Option.any_eq_true_iff_get] at unread
          obtain ⟨isSome, unread⟩ := unread
          rw [Bool.and_eq_true_iff, decide_eq_true_eq] at unread
          exact ⟨[], refs, _, rfl, ⟨(Option.some_get isSome).symm, unread.1⟩, unread.2⟩
      · exact earlier h

/-- A report of `checkSegment` is a write of a variable that the scan did not have
in `willBeRead` at that point. -/
theorem mem_checkSegment {shouldReport : Reference → Bool} {lv : LiveVariables}
    {ref : Reference} (h : ref ∈ checkSegment shouldReport lv) :
    ∃ before after v, lv.references.elems = before ++ ref :: after ∧ ref.Writes v ∧
      v ∉ willBeReadAfter lv.out after :=
  mem_foldl_checkReference h

/-! ## Collected references -/

/-- `gen` and `kill` hold exactly the variables that the collected references read
and write. -/
structure Summarises (lv : LiveVariables) : Prop where
  mem_gen : ∀ v, v ∈ lv.gen ↔ ∃ ref ∈ lv.references.elems, ref.Reads v
  mem_kill : ∀ v, v ∈ lv.kill ↔ ∃ ref ∈ lv.references.elems, ref.Writes v

theorem Summarises.add {lv : LiveVariables} (h : Summarises lv) (ref : Reference) :
    Summarises (lv.add ref) := by
  cases hr : ref.resolved with
  | none =>
      have same : lv.add ref = lv := by simp [LiveVariables.add, hr]
      rwa [same]
  | some w =>
      have members (r : Reference) : r ∈ (lv.add ref).references.elems ↔
          r ∈ lv.references.elems ∨ r = ref := by
        simp only [LiveVariables.add, hr]
        exact OrderedSet.mem_add
      constructor
      · intro v
        have gens : v ∈ (lv.add ref).gen ↔ v ∈ lv.gen ∨ ref.Reads v := by
          simp only [LiveVariables.add, hr, Reference.Reads]
          cases ref.isRead <;> simp [eq_comm]
        rw [gens, h.mem_gen]
        simp only [members, or_and_right, exists_or, exists_eq_left]
      · intro v
        have kills : v ∈ (lv.add ref).kill ↔ v ∈ lv.kill ∨ ref.Writes v := by
          simp only [LiveVariables.add, hr, Reference.Writes]
          cases ref.isWrite <;> simp [eq_comm]
        rw [kills, h.mem_kill]
        simp only [members, or_and_right, exists_or, exists_eq_left]

theorem summarises_foldl (refs : List Reference) {lv : LiveVariables} (h : Summarises lv) :
    Summarises (refs.foldl LiveVariables.add lv) := by
  induction refs generalizing lv with
  | nil => exact h
  | cons ref refs ih => exact ih (h.add ref)

theorem summarises_collect (refs : List Reference) : Summarises (LiveVariables.collect refs) :=
  summarises_foldl refs
    ⟨by simp [OrderedSet.mem_def, OrderedSet.empty], by simp [OrderedSet.mem_def, OrderedSet.empty]⟩

theorem collect_inSet (refs : List Reference) : (LiveVariables.collect refs).inSet = .empty := by
  have keep (lv : LiveVariables) (ref : Reference) : (lv.add ref).inSet = lv.inSet := by
    unfold LiveVariables.add
    split <;> rfl
  have keepAll (refs : List Reference) (lv : LiveVariables) :
      (refs.foldl LiveVariables.add lv).inSet = lv.inSet := by
    induction refs generalizing lv with
    | nil => rfl
    | cons ref refs ih => rw [List.foldl_cons, ih, keep]
  exact keepAll refs {}

/-- The `in` set of the first segment of a path contains every variable that the
path reads before overwriting it. -/
theorem mem_inSet_of_path {ι : Type*} {G : CodePathGraph ι} {blocks final : ι → LiveVariables}
    (summarises : ∀ s, Summarises (blocks s))
    (solved : ∀ s, Lva.inSets final s =
      Lva.flow G (fun s => (blocks s).gen) (fun s => (blocks s).kill) s (Lva.inSets final))
    {v : Variable} {s : ι} {path : List ι} (isPath : G.IsPath (s :: path))
    (h : ReadBeforeWritten v
      ((s :: path).flatMap fun t => (blocks t).references.elems)) :
    v ∈ (final s).inSet := by
  show v ∈ Lva.inSets final s
  induction path generalizing s with
  | nil =>
      rw [List.flatMap_singleton] at h
      rw [solved]
      obtain ⟨before, read, after, split, reads, -⟩ := h
      exact .inl (((summarises s).mem_gen v).mpr ⟨read, by simp [split], reads⟩)
  | cons t path ih =>
      rw [List.flatMap_cons] at h
      rw [solved]
      obtain reads | ⟨unwritten, later⟩ := readBeforeWritten_append h
      · exact .inl (((summarises s).mem_gen v).mpr reads)
      · rw [CodePathGraph.IsPath, List.isChain_cons_cons] at isPath
        refine .inr ⟨⟨t, isPath.1, ih isPath.2 later⟩, fun killed => ?_⟩
        obtain ⟨ref, member, writes⟩ := ((summarises s).mem_kill v).mp killed
        exact unwritten ref member writes

/-- Whatever `checkSegment` reports (whichever filter it applies) is a write whose
value no path reads: each path that continues after the write ends, or reaches a
write-only reference of the variable, without meeting a read of it. -/
theorem checkSegment_reports_dead_stores {ι : Type*} [DecidableEq ι] (G : CodePathGraph ι)
    (refs : ι → List Reference) (order : SegmentOrder ι) (shouldReport : Reference → Bool) :
    ∃ final, (lva G).Halts (lvaStart order fun s => LiveVariables.collect (refs s)) final ∧
      ∀ s, ∀ ref ∈ checkSegment shouldReport (final s), ∃ before after v,
        (LiveVariables.collect (refs s)).references.elems = before ++ ref :: after ∧
        ref.Writes v ∧
        ∀ path, G.IsPath (s :: path) → ¬ ReadBeforeWritten v (after ++
          path.flatMap fun t => (LiveVariables.collect (refs t)).references.elems) := by
  let blocks : ι → LiveVariables := fun s => .collect (refs s)
  have hasBlocks : Lva.HasBlocks (fun s => (blocks s).gen) (fun s => (blocks s).kill) blocks :=
    fun s => ⟨rfl, rfl⟩
  have ends : (lva G).Terminates (lvaStart order blocks) :=
    Lva.terminates hasBlocks fun s => collect_inSet (refs s)
  obtain ⟨final, halts⟩ := ends.halts
  have solved := Lva.iterates.solution (Lva.meets_hasBlocks hasBlocks)
    (fun s v hv => absurd (collect_inSet (refs s) ▸ hv : v ∈ OrderedSet.empty)
      (OrderedSet.not_mem_empty v)) Lva.mem_lvaStart halts
  refine ⟨final, halts, fun s ref reported => ?_⟩
  obtain ⟨before, after, v, split, writes, unread⟩ := mem_checkSegment reported
  rw [Lva.references_eq halts] at split
  refine ⟨before, after, v, split, writes, fun path isPath read => unread ?_⟩
  apply mem_willBeReadAfter read
  intro later
  rw [Lva.out_eq halts, List.mem_flatMap]
  cases path with
  | nil => exact absurd later (readBeforeWritten_nil v)
  | cons t path =>
      rw [CodePathGraph.IsPath, List.isChain_cons_cons] at isPath
      exact ⟨t, isPath.1, mem_inSet_of_path (fun s => summarises_collect (refs s)) solved
        isPath.2 later⟩

end DeadStore

end SonarJS
