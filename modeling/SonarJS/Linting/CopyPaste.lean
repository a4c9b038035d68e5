import SonarJS.Linting.Metrics

/-!
# Tokens for the detection of duplicated code

Duplicates are found by comparing the images of tokens. Tokens of imports and of calls of
`require` are left out, and all strings have the same image, but for the values of attributes
in JSX. Which tokens these are is found by a visit of the syntax tree; the plugin expects the
tokens in the order of the text.
-/

namespace SonarJS.CopyPaste

open Embedded (NodeId NodeData SourceLocation Text CodeUnit Child)
open FileMetrics (Characters IsTree unit trim visit visit_eq)

structure Token where
  value : Text
  range : ℕ × ℕ
  loc : SourceLocation
deriving DecidableEq

/-- A file, with its tokens and the names of its identifiers. -/
structure SourceCode where
  file : FileMetrics.SourceCode
  tokens : List Token
  name : NodeId → Text

structure Location where
  startLine : ℕ
  startCol : ℕ
  endLine : ℕ
  endCol : ℕ
deriving DecidableEq

structure CpdToken where
  location : Location
  image : Text
deriving DecidableEq

/-- The tokens that are found by the visit. -/
structure ExtractedTokens where
  jsxTokens : List Token
  importTokens : List Token
  requireTokens : List Token

def LITERAL : Text := "LITERAL".toList.map unit

def REQUIRE : Text := "require".toList.map unit

section Definitions

variable (characters : Characters) (fuel : ℕ) (sourceCode : SourceCode)

def SourceCode.node (id : NodeId) : NodeData := sourceCode.file.ast.heap id

/-- The node that is the value of a field. -/
def nodeOf (node : NodeData) (field : String) : Option NodeId :=
  match node.fields.lookup field with
  | some (.node id) => id
  | _ => none

/-- The token is in the range of the node. -/
def isWithin (node : NodeData) (token : Token) : Bool :=
  match node.range with
  | some range => range.1 ≤ token.range.1 && token.range.2 ≤ range.2
  | none => false

def getTokens (node : NodeData) : List Token := sourceCode.tokens.filter (isWithin node)

/-- The literal that is the value of an attribute in JSX. -/
def jsxLiteral (node : NodeData) : Option NodeData :=
  if node.type = "JSXAttribute" then
    (nodeOf node "value").bind fun value =>
      if (sourceCode.node value).type = "Literal" then some (sourceCode.node value) else none
  else none

def isImport (node : NodeData) : Bool := node.type = "ImportDeclaration"

def isRequire (node : NodeData) : Bool :=
  node.type = "CallExpression" && (nodeOf node "callee").any fun callee =>
    decide ((sourceCode.node callee).type = "Identifier" ∧ sourceCode.name callee = REQUIRE)

/-- The callback of the visit. -/
def extractFrom (node : NodeData) (extracted : ExtractedTokens) : ExtractedTokens :=
  if node.type = "JSXAttribute" then
    match jsxLiteral sourceCode node with
    | some literal =>
      { extracted with jsxTokens := extracted.jsxTokens ++ getTokens sourceCode literal }
    | none => extracted
  else if isImport node then
    { extracted with importTokens := extracted.importTokens ++ getTokens sourceCode node }
  else if isRequire sourceCode node then
    { extracted with requireTokens := extracted.requireTokens ++ getTokens sourceCode node }
  else extracted

def extractTokens : Option ExtractedTokens :=
  visit fuel sourceCode.file (extractFrom sourceCode) ⟨[], [], []⟩

def isStringLiteralToken (token : Token) : Bool :=
  token.value.head? = some (unit '"') ∨ token.value.head? = some (unit '\'') ∨
    token.value.head? = some (unit '\x60')

def toCpdToken (token : Token) (image : Text) : CpdToken where
  location := {
    startLine := token.loc.start.line
    startCol := token.loc.start.column
    endLine := token.loc.stop.line
    endCol := token.loc.stop.column }
  image := image

/-- One turn of the loop over the tokens. -/
def addToken (extracted : ExtractedTokens) (cpdTokens : List CpdToken) (token : Token) :
    List CpdToken :=
  if (trim characters token.value).length = 0 then cpdTokens
  else if token ∈ extracted.importTokens then cpdTokens
  else if token ∈ extracted.requireTokens then cpdTokens
  else if isStringLiteralToken token ∧ token ∉ extracted.jsxTokens then
    cpdTokens ++ [toCpdToken token LITERAL]
  else cpdTokens ++ [toCpdToken token token.value]

def getCpdTokens : Option (List CpdToken) := do
  let extracted ← extractTokens fuel sourceCode
  return sourceCode.tokens.foldl (addToken characters extracted) []

end Definitions

/-! ## What the tokens are -/

section Specification

variable (characters : Characters) (sourceCode : SourceCode) (nodes : List NodeId)

/-- The token is in the code that loads another module. -/
def loads (token : Token) : Bool :=
  nodes.any fun id =>
    (isImport (sourceCode.node id) || isRequire sourceCode (sourceCode.node id)) &&
      isWithin (sourceCode.node id) token

/-- The token is in the value of an attribute in JSX. -/
def inAttribute (token : Token) : Bool :=
  nodes.any fun id => (jsxLiteral sourceCode (sourceCode.node id)).any (isWithin · token)

/-- What is compared of a token, if anything. -/
def compared (token : Token) : Option CpdToken :=
  if trim characters token.value = [] ∨ loads sourceCode nodes token = true then none
  else if isStringLiteralToken token = true ∧ inAttribute sourceCode nodes token = false then
    some (toCpdToken token LITERAL)
  else some (toCpdToken token token.value)

end Specification

/-! ## The visit -/

section Visit

variable {characters : Characters} {sourceCode : SourceCode} {token : Token}

theorem mem_getTokens (known : token ∈ sourceCode.tokens) {node : NodeData} :
    token ∈ getTokens sourceCode node ↔ isWithin node token = true := by
  rw [getTokens, List.mem_filter, and_iff_right known]

theorem mem_extractFrom (known : token ∈ sourceCode.tokens) {node : NodeData}
    {extracted : ExtractedTokens} :
    (token ∈ (extractFrom sourceCode node extracted).jsxTokens ↔ token ∈ extracted.jsxTokens ∨
      (jsxLiteral sourceCode node).any (isWithin · token) = true) ∧
    (token ∈ (extractFrom sourceCode node extracted).importTokens ↔
      token ∈ extracted.importTokens ∨ isImport node = true ∧ isWithin node token = true) ∧
    (token ∈ (extractFrom sourceCode node extracted).requireTokens ↔
      token ∈ extracted.requireTokens ∨
        isRequire sourceCode node = true ∧ isWithin node token = true) := by
  unfold extractFrom
  split_ifs with attribute_ isImported isRequired
  · have noImport : isImport node = false := by simp [isImport, attribute_]
    have noRequire : isRequire sourceCode node = false := by simp [isRequire, attribute_]
    cases jsxLiteral sourceCode node with
    | none => simp [noImport, noRequire]
    | some literal => simp [noImport, noRequire, mem_getTokens known]
  · have noLiteral : jsxLiteral sourceCode node = none := if_neg attribute_
    have noRequire : isRequire sourceCode node = false := by
      simp [isRequire, of_decide_eq_true isImported]
    simp [noLiteral, noRequire, isImported, mem_getTokens known]
  · have noLiteral : jsxLiteral sourceCode node = none := if_neg attribute_
    simp [noLiteral, isImported, isRequired, mem_getTokens known]
  · have noLiteral : jsxLiteral sourceCode node = none := if_neg attribute_
    simp [noLiteral, isImported, isRequired]

/-- What the visit of some nodes finds. -/
def extractAll (sourceCode : SourceCode) (nodes : List NodeId) (extracted : ExtractedTokens) :
    ExtractedTokens :=
  nodes.foldl (fun extracted id => extractFrom sourceCode (sourceCode.node id) extracted) extracted

theorem mem_extractAll (known : token ∈ sourceCode.tokens) (nodes : List NodeId)
    (extracted : ExtractedTokens) :
    (token ∈ (extractAll sourceCode nodes extracted).jsxTokens ↔ token ∈ extracted.jsxTokens ∨
      inAttribute sourceCode nodes token = true) ∧
    ((token ∈ (extractAll sourceCode nodes extracted).importTokens ∨
        token ∈ (extractAll sourceCode nodes extracted).requireTokens) ↔
      (token ∈ extracted.importTokens ∨ token ∈ extracted.requireTokens) ∨
        loads sourceCode nodes token = true) := by
  induction nodes generalizing extracted with
  | nil => simp [extractAll, inAttribute, loads]
  | cons id nodes ih =>
      obtain ⟨jsx, imports, requires⟩ := @mem_extractFrom _ _ known (sourceCode.node id) extracted
      obtain ⟨ofJsx, ofModules⟩ := ih (extractFrom sourceCode (sourceCode.node id) extracted)
      have turn : extractAll sourceCode (id :: nodes) extracted =
        extractAll sourceCode nodes (extractFrom sourceCode (sourceCode.node id) extracted) := rfl
      rw [turn]
      constructor
      · rw [ofJsx, jsx, inAttribute, inAttribute, List.any_cons, Bool.or_eq_true, or_assoc]
      · rw [ofModules, imports, requires, loads, loads, List.any_cons, Bool.or_eq_true,
          Bool.and_eq_true, Bool.or_eq_true, or_and_right, or_or_or_comm, or_assoc]

theorem addToken_eq {extracted : ExtractedTokens} {nodes : List NodeId}
    (jsx : token ∈ extracted.jsxTokens ↔ inAttribute sourceCode nodes token = true)
    (modules : token ∈ extracted.importTokens ∨ token ∈ extracted.requireTokens ↔
      loads sourceCode nodes token = true) (cpdTokens : List CpdToken) :
    addToken characters extracted cpdTokens token =
      cpdTokens ++ (compared characters sourceCode nodes token).toList := by
  unfold addToken compared
  by_cases blank : trim characters token.value = []
  · simp [blank]
  by_cases loaded : loads sourceCode nodes token = true
  · obtain imported | required := modules.mpr loaded
    · simp [blank, loaded, imported]
    · simp [blank, loaded, required]
  obtain ⟨notImported, notRequired⟩ := not_or.mp (mt modules.mp loaded)
  by_cases attributeValue : inAttribute sourceCode nodes token = true
  · simp [blank, loaded, notImported, notRequired, attributeValue, jsx.mpr attributeValue]
  · by_cases isString : isStringLiteralToken token = true
    · simp [blank, loaded, notImported, notRequired, attributeValue, mt jsx.mp attributeValue,
        isString]
    · simp [blank, loaded, notImported, notRequired, isString]

theorem foldl_addToken {extracted : ExtractedTokens} {nodes : List NodeId} {tokens : List Token}
    (jsx : ∀ token ∈ tokens,
      (token ∈ extracted.jsxTokens ↔ inAttribute sourceCode nodes token = true))
    (modules : ∀ token ∈ tokens,
      (token ∈ extracted.importTokens ∨ token ∈ extracted.requireTokens ↔
        loads sourceCode nodes token = true)) (cpdTokens : List CpdToken) :
    tokens.foldl (addToken characters extracted) cpdTokens =
      cpdTokens ++ tokens.filterMap (compared characters sourceCode nodes) := by
  induction tokens generalizing cpdTokens with
  | nil => simp
  | cons token tokens ih =>
      obtain ⟨ofJsx, jsx⟩ := List.forall_mem_cons.mp jsx
      obtain ⟨ofModules, modules⟩ := List.forall_mem_cons.mp modules
      rw [List.foldl_cons, addToken_eq ofJsx ofModules, ih jsx modules, List.append_assoc,
        List.filterMap_cons]
      cases compared characters sourceCode nodes token <;> simp

theorem getCpdTokens_eq {tree : Forest NodeId} {fuel : ℕ}
    (isTree : IsTree sourceCode.file.ast tree) (enough : tree.nodes.length ≤ fuel) :
    getCpdTokens characters fuel sourceCode =
      some (sourceCode.tokens.filterMap (compared characters sourceCode tree.nodes)) := by
  have visited := visit_eq isTree enough (extractFrom sourceCode) ⟨[], [], []⟩
  have found (token : Token) (known : token ∈ sourceCode.tokens) :=
    mem_extractAll known tree.nodes ⟨[], [], []⟩
  simp only [List.not_mem_nil, false_or, or_false] at found
  rw [getCpdTokens, extractTokens, visited]
  exact congrArg some ((foldl_addToken (fun token known => (found token known).1)
    (fun token known => (found token known).2) []).trans (List.nil_append _))

end Visit

/-! ## Order and images -/

def Location.start (location : Location) : ℕ × ℕ := (location.startLine, location.startCol)

def Location.stop (location : Location) : ℕ × ℕ := (location.endLine, location.endCol)

/-- A place in the text is not behind another one. -/
def NotBehind (first second : ℕ × ℕ) : Prop :=
  first.1 < second.1 ∨ first.1 = second.1 ∧ first.2 ≤ second.2

/-- The tokens come one after another. -/
def InOrder (tokens : List Token) : Prop :=
  tokens.Pairwise fun first second =>
    NotBehind (first.loc.stop.line, first.loc.stop.column)
      (second.loc.start.line, second.loc.start.column)

section Results

variable {characters : Characters} {sourceCode : SourceCode} {nodes : List NodeId}

theorem location_of_compared {token : Token} {cpdToken : CpdToken}
    (isCompared : compared characters sourceCode nodes token = some cpdToken) :
    cpdToken.location = (toCpdToken token cpdToken.image).location := by
  unfold compared at isCompared
  split_ifs at isCompared
  · obtain rfl := Option.some.inj isCompared
    rfl
  · obtain rfl := Option.some.inj isCompared
    rfl

theorem pairwise_compared {tokens : List Token} (inOrder : InOrder tokens) :
    (tokens.filterMap (compared characters sourceCode nodes)).Pairwise fun first second =>
      NotBehind first.location.stop second.location.start := by
  refine List.Pairwise.filterMap _
    (fun first second before cpdFirst isFirst cpdSecond isSecond => ?_) inOrder
  rw [location_of_compared isFirst, location_of_compared isSecond]
  exact before

/-- Two tokens of two files that are compared alike: they have the same value, or they are
strings. -/
structure Alike (characters : Characters) (sourceCode other : SourceCode)
    (nodes others : List NodeId) (first second : Token) : Prop where
  blank : trim characters first.value = [] ↔ trim characters second.value = []
  loads : loads sourceCode nodes first = loads other others second
  value : first.value = second.value ∧
      inAttribute sourceCode nodes first = inAttribute other others second ∨
    (isStringLiteralToken first = true ∧ inAttribute sourceCode nodes first = false) ∧
      isStringLiteralToken second = true ∧ inAttribute other others second = false

theorem image_of_alike {other : SourceCode} {others : List NodeId} {first second : Token}
    (alike : Alike characters sourceCode other nodes others first second) :
    (compared characters sourceCode nodes first).map CpdToken.image =
      (compared characters other others second).map CpdToken.image := by
  obtain ⟨blank, loads, value⟩ := alike
  unfold compared
  simp only [blank, loads]
  obtain ⟨value, attribute_⟩ | ⟨strings, strings'⟩ := value
  · have strings : isStringLiteralToken first = isStringLiteralToken second := by
      rw [isStringLiteralToken, value, isStringLiteralToken]
    rw [strings, attribute_]
    split_ifs
    · rfl
    · rfl
    · exact congrArg some value
  · rw [if_pos strings, if_pos strings']
    split_ifs <;> rfl

/-- What the strings say does not matter for duplicates. -/
theorem images_of_alike {other : SourceCode} {others : List NodeId} {tokens tokens' : List Token}
    (alike : List.Forall₂ (Alike characters sourceCode other nodes others) tokens tokens') :
    (tokens.filterMap (compared characters sourceCode nodes)).map CpdToken.image =
      (tokens'.filterMap (compared characters other others)).map CpdToken.image := by
  rw [List.map_filterMap, List.map_filterMap]
  induction alike with
  | nil => rfl
  | @cons first second _ _ same _ ih =>
      rw [List.filterMap_cons, List.filterMap_cons, image_of_alike same, ih]

/-- For each file whose nodes are a tree, what is compared are all tokens but those that load
modules, in the order of the text. Another file with the same tokens, but for what the strings
say, is a duplicate of it. -/
theorem getCpdTokens_of_tree (characters : Characters) (sourceCode : SourceCode)
    (tree : Forest NodeId) (isTree : IsTree sourceCode.file.ast tree) (fuel : ℕ)
    (enough : tree.nodes.length ≤ fuel) (inOrder : InOrder sourceCode.tokens) :
    ∃ cpdTokens, getCpdTokens characters fuel sourceCode = some cpdTokens ∧
      cpdTokens = sourceCode.tokens.filterMap (compared characters sourceCode tree.nodes) ∧
      cpdTokens.Pairwise
        (fun first second => NotBehind first.location.stop second.location.start) ∧
      ∀ (other : SourceCode) (otherTree : Forest NodeId), IsTree other.file.ast otherTree →
        otherTree.nodes.length ≤ fuel →
        List.Forall₂ (Alike characters sourceCode other tree.nodes otherTree.nodes)
          sourceCode.tokens other.tokens →
        ∃ duplicate, getCpdTokens characters fuel other = some duplicate ∧
          duplicate.map CpdToken.image = cpdTokens.map CpdToken.image := by
  refine ⟨_, getCpdTokens_eq isTree enough, rfl, pairwise_compared inOrder, ?_⟩
  intro other otherTree isOther enoughToo alike
  exact ⟨_, getCpdTokens_eq isOther enoughToo, (images_of_alike alike).symm⟩

/-- The text `import "a";f("b")`. -/
def importAndCall : SourceCode where
  file :=
    { ast :=
        { text := "import \"a\";f(\"b\")".toList.map unit
          lineStartIndices := [0]
          heap := fun node =>
            match node with
            | 0 => ⟨"Program", [("body", .array [some 1, some 3])], some (0, 17), none⟩
            | 1 => ⟨"ImportDeclaration", [("source", .node (some 2))], some (0, 11), none⟩
            | 2 => ⟨"Literal", [], some (7, 10), none⟩
            | 3 => ⟨"ExpressionStatement", [("expression", .node (some 4))], some (11, 17), none⟩
            | 4 => ⟨"CallExpression", [("callee", .node (some 5)), ("arguments", .array [some 6])],
                some (11, 17), none⟩
            | 5 => ⟨"Identifier", [], some (11, 12), none⟩
            | _ => ⟨"Literal", [], some (13, 16), none⟩
          ast := 0
          comments := []
          tokens := []
          visitorKeys := fun type =>
            if type = "Program" then some ["body"]
            else if type = "ImportDeclaration" then some ["source"]
            else if type = "ExpressionStatement" then some ["expression"]
            else if type = "CallExpression" then some ["callee", "arguments"]
            else none }
      tokens := []
      comments := []
      lines := ⟨[], [], [], none⟩ }
  tokens :=
    [("import", 0), ("\"a\"", 7), (";", 10), ("f", 11), ("(", 12), ("\"b\"", 13), (")", 16)].map
      fun (value, start) =>
        ⟨value.toList.map unit, (start, start + value.length),
          ⟨⟨1, start⟩, ⟨1, start + value.length⟩⟩⟩
  name := fun _ => [unit 'f']

def treeOfImportAndCall : Forest NodeId :=
  .cons 0 (.cons 1 (.cons 2 .nil .nil) (.cons 3 (.cons 4 (.cons 5 .nil (.cons 6 .nil .nil)) .nil)
    .nil)) .nil

theorem getCpdTokens_of_tree_importAndCall :
    ∃ cpdTokens, getCpdTokens FileMetrics.asciiCharacters 7 importAndCall = some cpdTokens ∧
      cpdTokens.map CpdToken.image = [[unit 'f'], [unit '('], LITERAL, [unit ')']] := by
  have isTree : IsTree importAndCall.file.ast treeOfImportAndCall := by
    refine ⟨rfl, ?_, by decide⟩
    repeat' constructor
  have inOrder : InOrder importAndCall.tokens := by
    unfold InOrder NotBehind
    decide
  obtain ⟨cpdTokens, computed, rfl, -⟩ := getCpdTokens_of_tree FileMetrics.asciiCharacters
    importAndCall treeOfImportAndCall isTree 7 (by decide) inOrder
  exact ⟨_, computed, by decide⟩

end Results

end SonarJS.CopyPaste
