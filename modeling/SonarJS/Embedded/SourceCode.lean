import SonarJS.Foundation.Forest
import SonarJS.Embedded.Snippets

/-!
# Relocating the syntax tree of a snippet

ESLint parses a snippet on its own, so that what it returns speaks of places in the
snippet. `patchSourceCode` moves all nodes, comments and tokens to their places in the
host text. The objects are changed in place: the nodes while the tree is traversed with a
stack, then the comments and the tokens. For the new locations the line starts are used
that the snippet has from its host; afterwards the source code is built anew from the
whole text, with the line starts that ESLint finds there.
-/

namespace SonarJS.Embedded

/-! ## Source code -/

abbrev NodeId := ℕ

/-- The value of a visitor key: a node or an array of nodes, any of which can be missing. -/
inductive Child
  | node (id : Option NodeId)
  | array (ids : List (Option NodeId))

structure SourceLocation where
  start : Lines.Location
  stop : Lines.Location
deriving DecidableEq

/-- A node, a comment or a token. -/
structure NodeData where
  type : String
  fields : List (String × Child)
  range : Option (ℕ × ℕ)
  loc : Option SourceLocation

/-- The objects, by their identity. -/
abbrev Heap := NodeId → NodeData

structure SourceCode where
  text : Text
  lineStartIndices : List ℕ
  heap : Heap
  ast : NodeId
  comments : List NodeId
  tokens : List NodeId
  visitorKeys : String → Option (List String)

def SourceCode.getLocFromIndex (sourceCode : SourceCode) (index : ℕ) : Lines.Location :=
  Lines.locate sourceCode.lineStartIndices index

/-- `new SourceCode(...)`, which finds the lines of its text. -/
def newSourceCode (text : Text) (heap : Heap) (sourceCode : SourceCode) : SourceCode :=
  { sourceCode with
    text := text
    heap := heap
    lineStartIndices := Lines.starts eslintBreaks.pattern text }

def Child.nodes : Child → List NodeId
  | .node id => id.toList
  | .array ids => ids.filterMap id

def childrenOf (visitorKeys : String → Option (List String)) (heap : Heap) (node : NodeId) :
    List NodeId :=
  match visitorKeys (heap node).type with
  | none => []
  | some keys => keys.flatMap fun key => (((heap node).fields.lookup key).map Child.nodes).getD []

/-- `visit`, for at most so many nodes. -/
def visit (fuel : ℕ) (sourceCode : SourceCode) (callback : NodeId → Heap → Heap) : Option Heap :=
  Forest.visit (childrenOf sourceCode.visitorKeys) callback fuel [sourceCode.ast] sourceCode.heap

/-! ## Patching -/

section Patch

variable (sourceCode : SourceCode) (offset : ℕ)

def fixLocation (node : NodeData) : NodeData :=
  let located :=
    match node.loc, node.range with
    | some _, some (sRange, eRange) =>
      { node with
        loc := some
          { start := sourceCode.getLocFromIndex (sRange + offset)
            stop := sourceCode.getLocFromIndex (eRange + offset) } }
    | _, _ => node
  match located.range with
  | some (sRange, eRange) => { located with range := some (sRange + offset, eRange + offset) }
  | none => located

def fixNodeLocation (node : NodeId) (heap : Heap) : Heap :=
  Function.update heap node (fixLocation sourceCode offset (heap node))

def fixNodeLocations (nodes : List NodeId) (heap : Heap) : Heap :=
  nodes.foldl (fun heap node => fixNodeLocation sourceCode offset node heap) heap

def patchASTLocations (fuel : ℕ) : Option Heap := do
  let heap ← visit fuel sourceCode (fixNodeLocation sourceCode offset)
  let heap := fixNodeLocations sourceCode offset sourceCode.comments heap
  return fixNodeLocations sourceCode offset sourceCode.tokens heap

end Patch

/-- The source code with the text and the line starts of the host. -/
def patchedSourceCode (originalSourceCode : SourceCode) (embeddedJS : EmbeddedJS) : SourceCode :=
  { originalSourceCode with
    lineStartIndices := embeddedJS.lineStarts
    text := embeddedJS.text }

def patchSourceCode (fuel : ℕ) (originalSourceCode : SourceCode) (embeddedJS : EmbeddedJS) :
    Option SourceCode := do
  let patched := patchedSourceCode originalSourceCode embeddedJS
  let heap ← patchASTLocations patched embeddedJS.offset fuel
  return newSourceCode patched.text heap patched

/-! ## What the parser returns -/

/-- The source code that ESLint's parser makes of a text: the nodes are a tree over the
visitor keys, each object is there once, and the ranges are in the text. -/
structure ParsedCode (code : Text) where
  sourceCode : SourceCode
  tree : Forest NodeId
  root : tree.roots = [sourceCode.ast]
  isTree : tree.Represents (childrenOf sourceCode.visitorKeys sourceCode.heap)
  distinct : (tree.nodes ++ sourceCode.comments ++ sourceCode.tokens).Nodup
  ranges : ∀ node ∈ tree.nodes ++ sourceCode.comments ++ sourceCode.tokens, ∀ range,
    (sourceCode.heap node).range = some range → range.1 ≤ range.2 ∧ range.2 ≤ code.length

def ParsedCode.objects {code : Text} (parsed : ParsedCode code) : List NodeId :=
  parsed.tree.nodes ++ parsed.sourceCode.comments ++ parsed.sourceCode.tokens

/-- An object has been moved with the snippet: its range by the offset, with the same text,
and its location to that of the new range. -/
structure Relocated (snippet : EmbeddedJS) (before after : NodeData) (rebuilt : SourceCode) :
    Prop where
  range : after.range =
    before.range.map fun range => (range.1 + snippet.offset, range.2 + snippet.offset)
  text : ∀ old new, before.range = some old → after.range = some new →
    slice rebuilt.text new.1 new.2 = slice snippet.code old.1 old.2
  loc : ∀ new loc, after.range = some new → after.loc = some loc →
    loc = ⟨rebuilt.getLocFromIndex new.1, rebuilt.getLocFromIndex new.2⟩

/-! ## Each object is changed once -/

section Fix

variable (sourceCode : SourceCode) (offset : ℕ) (node : NodeData)

theorem fixLocation_type : (fixLocation sourceCode offset node).type = node.type := by
  obtain ⟨type, fields, range, loc⟩ := node
  cases range <;> cases loc <;> rfl

theorem fixLocation_fields : (fixLocation sourceCode offset node).fields = node.fields := by
  obtain ⟨type, fields, range, loc⟩ := node
  cases range <;> cases loc <;> rfl

theorem fixLocation_range :
    (fixLocation sourceCode offset node).range =
      node.range.map fun range => (range.1 + offset, range.2 + offset) := by
  obtain ⟨type, fields, range, loc⟩ := node
  cases range <;> cases loc <;> rfl

theorem fixLocation_loc {range : ℕ × ℕ} (h : node.range = some range) :
    (fixLocation sourceCode offset node).loc = node.loc.map fun _ =>
      ⟨sourceCode.getLocFromIndex (range.1 + offset),
        sourceCode.getLocFromIndex (range.2 + offset)⟩ := by
  obtain ⟨type, fields, range', loc⟩ := node
  cases h
  cases loc <;> rfl

end Fix

/-- A fixed object keeps its children. -/
theorem childrenOf_fixNodeLocation (sourceCode : SourceCode) (offset : ℕ) (node : NodeId)
    (heap : Heap) :
    childrenOf sourceCode.visitorKeys (fixNodeLocation sourceCode offset node heap) =
      childrenOf sourceCode.visitorKeys heap := by
  funext child
  unfold childrenOf fixNodeLocation
  by_cases same : child = node
  · subst same
    rw [Function.update_self, fixLocation_type, fixLocation_fields]
  · rw [Function.update_of_ne same]

/-- The objects are fixed one after another: the nodes, the comments and the tokens. -/
theorem patchASTLocations_eq (sourceCode : SourceCode) (offset : ℕ) (tree : Forest NodeId)
    (root : tree.roots = [sourceCode.ast])
    (isTree : tree.Represents (childrenOf sourceCode.visitorKeys sourceCode.heap)) :
    patchASTLocations sourceCode offset tree.nodes.length =
      some (fixNodeLocations sourceCode offset
        (tree.nodes ++ sourceCode.comments ++ sourceCode.tokens) sourceCode.heap) := by
  have visited := Forest.visit_eq
    (fun node heap => childrenOf_fixNodeLocation sourceCode offset node heap) tree
    sourceCode.heap isTree
  rw [root] at visited
  simp only [patchASTLocations, visit, visited, fixNodeLocations, List.foldl_append]
  rfl

theorem fixNodeLocations_apply (sourceCode : SourceCode) (offset : ℕ) {nodes : List NodeId}
    (nodup : nodes.Nodup) (heap : Heap) {node : NodeId} (member : node ∈ nodes) :
    fixNodeLocations sourceCode offset nodes heap node =
      fixLocation sourceCode offset (heap node) := by
  have changed := Forest.foldl_update (fixLocation sourceCode offset) nodes nodup heap node
  rwa [if_pos member] at changed

/-- A slice of the snippet is a slice of the host text. -/
theorem slice_add {text code : Text} {offset last : ℕ} (first : ℕ) (le : last ≤ code.length)
    (substring : slice text offset (offset + code.length) = code) :
    slice text (first + offset) (last + offset) = slice code first last := by
  have within : min (offset + last) (offset + code.length) = offset + last := by omega
  conv_rhs => rw [← substring]
  simp only [slice, List.take_drop, List.drop_drop, List.take_take, within]
  rw [Nat.add_comm last offset, Nat.add_comm first offset]

/-! ## Relocation -/

section Relocation

variable {text : Text} {breaks : Lines.Breaks CodeUnit} {snippet : EmbeddedJS}

theorem Extracted.host (extracted : Extracted text breaks snippet) : HostBreaks breaks := by
  cases extracted with
  | html member => exact .inl rfl
  | yaml parsed member => exact .inr rfl

/-- A moved object has the location of its new range if there is no unknown break before its
end. -/
theorem relocated_iff (extracted : Extracted text breaks snippet)
    (substring : slice text snippet.offset (snippet.offset + snippet.code.length) = snippet.code)
    (sourceCode : SourceCode) (heap : Heap) (before : NodeData)
    (inside : ∀ range, before.range = some range →
      range.1 ≤ range.2 ∧ range.2 ≤ snippet.code.length) :
    Relocated snippet before
        (fixLocation (patchedSourceCode sourceCode snippet) snippet.offset before)
        (newSourceCode snippet.text heap (patchedSourceCode sourceCode snippet)) ↔
      ∀ range, before.range = some range → before.loc ≠ none →
        ∀ i < range.2 + snippet.offset, ¬ UnknownBreak breaks text i := by
  have placed := extracted.wellPlaced
  have hostLoc (index : ℕ) : (patchedSourceCode sourceCode snippet).getLocFromIndex index =
      Lines.locate (Lines.starts breaks.pattern text) index := by
    rw [← placed.lineStarts_eq]
    rfl
  have eslintLoc (index : ℕ) : (newSourceCode snippet.text heap
      (patchedSourceCode sourceCode snippet)).getLocFromIndex index =
      Lines.locate (Lines.starts eslintBreaks.pattern text) index := by
    rw [← placed.text_eq]
    rfl
  have located (index : ℕ) := locate_eq_iff extracted.host text index
  cases ranged : before.range with
  | none =>
      refine iff_of_true ⟨?_, ?_, ?_⟩ (by simp)
      · rw [fixLocation_range]
      · simp [ranged]
      · simp [fixLocation_range, ranged]
  | some range =>
      have fixedRange := fixLocation_range (patchedSourceCode sourceCode snippet) snippet.offset
        before
      have fixedLoc := fixLocation_loc (patchedSourceCode sourceCode snippet) snippet.offset before
        ranged
      rw [ranged, Option.map_some] at fixedRange
      simp only [Option.some.injEq, forall_eq']
      constructor
      · intro relocated hasLoc
        obtain ⟨loc, known⟩ := Option.ne_none_iff_exists'.mp hasLoc
        rw [known, Option.map_some] at fixedLoc
        have same := relocated.loc _ _ fixedRange fixedLoc
        rw [← located, ← hostLoc, ← eslintLoc]
        exact congrArg SourceLocation.stop same
      · intro noUnknown
        refine ⟨?_, ?_, ?_⟩
        · rw [fixLocation_range]
        · intro old new isOld isNew
          rw [ranged] at isOld
          rw [fixedRange] at isNew
          cases isOld
          cases isNew
          have shifted := slice_add range.1 (inside range ranged).2 substring
          rw [← placed.text_eq] at shifted
          exact shifted
        · intro new loc isNew isLoc
          rw [fixedRange] at isNew
          cases isNew
          cases known : before.loc with
          | none => simp [fixedLoc, known] at isLoc
          | some old =>
              rw [fixedLoc, known, Option.map_some, Option.some.injEq] at isLoc
              have free := noUnknown (by simp [known])
              have le := (inside range ranged).1
              rw [← isLoc, hostLoc, hostLoc, eslintLoc, eslintLoc,
                (located (range.2 + snippet.offset)).mpr free,
                (located (range.1 + snippet.offset)).mpr fun i before => free i (by omega)]

/-- After `patchSourceCode` every node, comment and token is where the snippet is in the host
text, and has the location that ESLint computes there, exactly if no line break that the
host language does not know comes before the end of one of them. -/
theorem patchSourceCode_relocates_iff (extracted : Extracted text breaks snippet)
    (substring : slice text snippet.offset (snippet.offset + snippet.code.length) = snippet.code)
    (parsed : ParsedCode snippet.code) :
    ∃ fuel rebuilt, patchSourceCode fuel parsed.sourceCode snippet = some rebuilt ∧
      ((∀ node ∈ parsed.objects,
          Relocated snippet (parsed.sourceCode.heap node) (rebuilt.heap node) rebuilt) ↔
        ∀ node ∈ parsed.objects, ∀ range, (parsed.sourceCode.heap node).range = some range →
          (parsed.sourceCode.heap node).loc ≠ none →
            ∀ i < range.2 + snippet.offset, ¬ UnknownBreak breaks text i) := by
  have patched := patchASTLocations_eq (patchedSourceCode parsed.sourceCode snippet) snippet.offset
    parsed.tree parsed.root parsed.isTree
  have returned : patchSourceCode parsed.tree.nodes.length parsed.sourceCode snippet = _ :=
    congrArg (Option.bind · _) patched
  refine ⟨_, _, returned, forall₂_congr fun node member => ?_⟩
  have fixed := fixNodeLocations_apply (patchedSourceCode parsed.sourceCode snippet) snippet.offset
    parsed.distinct parsed.sourceCode.heap member
  have moved := relocated_iff extracted substring parsed.sourceCode
    (fixNodeLocations (patchedSourceCode parsed.sourceCode snippet) snippet.offset
      parsed.objects parsed.sourceCode.heap) (parsed.sourceCode.heap node)
    (parsed.ranges node member)
  rw [← fixed] at moved
  exact moved

end Relocation

/-! ## A script in an HTML file -/

/-- `<script>x</script>`, with a text before it. -/
def scriptAfter (before : Text) : Text :=
  before ++ "<script>x</script>".toList.map fun c => c.toNat.toUInt16

def scriptEvents (start : ℕ) : List HtmlEvent :=
  [.openTag "script" none (start + 7), .closeTag "script" (start + 9)]

/-- The snippet `x` in it. -/
def scriptSnippet (before : Text) (line column : ℕ) (lineStarts : List ℕ) : EmbeddedJS where
  code := [0x78]
  line := line
  column := column
  offset := before.length + 8
  lineStarts := lineStarts
  text := scriptAfter before
  format := .plain
  extras := ⟨none⟩

/-- A program with one statement and one token. -/
def oneIdentifier : ParsedCode [0x78] where
  sourceCode := {
    text := [0x78]
    lineStartIndices := [0]
    heap := fun node => {
      type := ["Program", "ExpressionStatement", "Identifier"].getD node "Token"
      fields := [[("body", .array [some 1])], [("expression", .node (some 2))]].getD node []
      range := some (0, 1)
      loc := some ⟨⟨1, 0⟩, ⟨1, 1⟩⟩ }
    ast := 0
    comments := []
    tokens := [3]
    visitorKeys := fun type =>
      [("Program", ["body"]), ("ExpressionStatement", ["expression"])].lookup type }
  tree := .cons 0 (.cons 1 (.cons 2 .nil .nil) .nil) .nil
  root := rfl
  isTree := ⟨rfl, ⟨rfl, ⟨rfl, trivial, trivial⟩, trivial⟩, trivial⟩
  distinct := by decide
  ranges := by
    intro node _ range h
    cases h
    decide

theorem patchSourceCode_relocates_script :
    ∃ fuel rebuilt,
      patchSourceCode fuel oneIdentifier.sourceCode (scriptSnippet [LF] 2 9 [0, 1]) = some rebuilt ∧
      ((∀ node ∈ oneIdentifier.objects, Relocated (scriptSnippet [LF] 2 9 [0, 1])
          (oneIdentifier.sourceCode.heap node) (rebuilt.heap node) rebuilt) ↔
        ∀ node ∈ oneIdentifier.objects, ∀ range,
          (oneIdentifier.sourceCode.heap node).range = some range →
            (oneIdentifier.sourceCode.heap node).loc ≠ none →
              ∀ i < range.2 + 9, ¬ UnknownBreak htmlBreaks (scriptAfter [LF]) i) := by
  have extracted : Extracted (scriptAfter [LF]) htmlBreaks (scriptSnippet [LF] 2 9 [0, 1]) :=
    @Extracted.html _ (scriptEvents 1) _ (List.mem_singleton.mpr rfl)
  exact patchSourceCode_relocates_iff extracted (by decide) oneIdentifier

/-- A U+2028 before the script is a line break for ESLint only. -/
theorem patchSourceCode_misplaces_script :
    Extracted (scriptAfter [LS]) htmlBreaks (scriptSnippet [LS] 1 10 [0]) ∧
      slice (scriptAfter [LS]) 9 10 = [0x78] ∧
      ∃ rebuilt,
        patchSourceCode 3 oneIdentifier.sourceCode (scriptSnippet [LS] 1 10 [0]) = some rebuilt ∧
        ¬ ∀ node ∈ oneIdentifier.objects, Relocated (scriptSnippet [LS] 1 10 [0])
          (oneIdentifier.sourceCode.heap node) (rebuilt.heap node) rebuilt := by
  refine ⟨@Extracted.html _ (scriptEvents 1) _ (List.mem_singleton.mpr rfl), by decide, _,
    rfl, fun relocated => ?_⟩
  have loc := (relocated 2 (by decide)).loc _ _ rfl rfl
  revert loc
  decide

end SonarJS.Embedded
