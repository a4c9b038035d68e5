import SonarJS.Foundation.Edits
import SonarJS.Foundation.Pieces
import SonarJS.Foundation.Separated

/-!
# Removing an unused import

The suggestion takes one specifier out of an import declaration. It looks at the neighbouring
specifiers and tokens to find the range to remove. Positions are those between the pieces of
the declaration, which has white space and comments wherever the grammar allows them.
-/

namespace SonarJS.UnusedImports

open Edits Pieces

/-! ## Import declarations -/

/-- A named specifier: its local name, and what comes before this, such as `a as` or `type`. -/
structure NamedSpecifier where
  imported : List Piece
  name : Text

def NamedSpecifier.pieces (specifier : NamedSpecifier) : List Piece :=
  specifier.imported ++ [.word specifier.name]

/-- `* as name`. -/
structure NamespaceSpecifier where
  gapAs : Gap
  gapName : Gap
  name : Text

def NamespaceSpecifier.pieces (specifier : NamespaceSpecifier) : List Piece :=
  .punctuator ['*'] :: specifier.gapAs.pieces ++ .word ['a', 's'] :: specifier.gapName.pieces ++
    [.word specifier.name]

/-- A named specifier in its place between commas or braces. -/
structure Item where
  before : Gap
  specifier : NamedSpecifier
  behind : Gap

def Item.pieces (item : Item) : List Piece :=
  item.before.pieces ++ item.specifier.pieces ++ item.behind.pieces

def comma : Piece := .punctuator [',']

def openingBrace : Piece := .punctuator ['{']

def closingBrace : Piece := .punctuator ['}']

/-- The specifiers in braces. There may be a comma behind the last one. -/
structure NamedImports where
  items : List Item
  trailingComma : Option Gap

namespace NamedImports

def trailing (named : NamedImports) : List Piece :=
  match named.trailingComma with
  | some gap => comma :: gap.pieces
  | none => []

def pieces (named : NamedImports) : List Piece :=
  openingBrace :: Separated.join comma (named.items.map Item.pieces) ++ named.trailing ++
    [closingBrace]

end NamedImports

/-- What comes behind a default specifier, or stands alone. -/
inductive Bindings
  | namespaceImport (specifier : NamespaceSpecifier)
  | namedImports (named : NamedImports)

def Bindings.pieces : Bindings → List Piece
  | namespaceImport specifier => specifier.pieces
  | namedImports named => named.pieces

inductive Clause
  | defaultOnly (name : Text)
  | others (bindings : Bindings)
  | both (name : Text) (gapComma gap : Gap) (bindings : Bindings)

def Clause.pieces : Clause → List Piece
  | defaultOnly name => [.word name]
  | others bindings => bindings.pieces
  | both name gapComma gap bindings =>
    .word name :: gapComma.pieces ++ comma :: gap.pieces ++ bindings.pieces

/-- The specifiers, in the order of the syntax tree. -/
inductive Specifier
  | default (name : Text)
  | namespaceSpecifier (specifier : NamespaceSpecifier)
  | named (specifier : NamedSpecifier)

def Bindings.specifiers : Bindings → List Specifier
  | namespaceImport specifier => [.namespaceSpecifier specifier]
  | namedImports named => named.items.map fun item => .named item.specifier

def Clause.specifiers : Clause → List Specifier
  | defaultOnly name => [.default name]
  | others bindings => bindings.specifiers
  | both name _ _ bindings => .default name :: bindings.specifiers

/-- What comes before the specifiers: `import`, and `type` if only types are imported. -/
structure Keyword where
  gap : Gap
  type : Option Gap

def Keyword.pieces (keyword : Keyword) : List Piece :=
  .word "import".toList :: keyword.gap.pieces ++
    match keyword.type with
    | some gap => .word "type".toList :: gap.pieces
    | none => []

/-- What comes behind the specifiers, with the module in quotes. -/
structure Source where
  gap : Gap
  gapModule : Gap
  module : Text
  behind : List Piece

def Source.pieces (source : Source) : List Piece :=
  source.gap.pieces ++ .word "from".toList :: source.gapModule.pieces ++
    .literal source.module :: source.behind

/-- An import declaration whose words do not touch. -/
structure Declaration where
  keyword : Keyword
  clause : Clause
  source : Source
  apart : Apart (keyword.pieces ++ clause.pieces ++ source.pieces)

namespace Declaration

def pieces (declaration : Declaration) : List Piece :=
  declaration.keyword.pieces ++ declaration.clause.pieces ++ declaration.source.pieces

def specifiers (declaration : Declaration) : List Specifier := declaration.clause.specifiers

end Declaration

/-! ## The suggestion -/

inductive SpecifierType
  | importDefaultSpecifier
  | importNamespaceSpecifier
  | importSpecifier
deriving DecidableEq

/-- A specifier of the syntax tree, as far as the suggestion looks at it. -/
structure SpecifierNode where
  type : SpecifierType
  range : ℕ × ℕ
deriving DecidableEq

/-- The nodes of named specifiers from a position on. -/
def itemNodes : ℕ → List Item → List SpecifierNode
  | _, [] => []
  | position, item :: items =>
    let start := position + item.before.pieces.length
    let last := start + item.specifier.pieces.length
    ⟨.importSpecifier, (start, last)⟩ :: itemNodes (last + item.behind.pieces.length + 1) items

def Bindings.nodes (position : ℕ) : Bindings → List SpecifierNode
  | namespaceImport specifier =>
    [⟨.importNamespaceSpecifier, (position, position + specifier.pieces.length)⟩]
  | namedImports named => itemNodes (position + 1) named.items

def Clause.nodes (position : ℕ) : Clause → List SpecifierNode
  | defaultOnly _ => [⟨.importDefaultSpecifier, (position, position + 1)⟩]
  | others bindings => bindings.nodes position
  | both _ gapComma gap bindings =>
    ⟨.importDefaultSpecifier, (position, position + 1)⟩ ::
      bindings.nodes (position + 1 + gapComma.pieces.length + 1 + gap.pieces.length)

def Declaration.nodes (declaration : Declaration) : List SpecifierNode :=
  declaration.clause.nodes declaration.keyword.pieces.length

/-- The range that the suggestion removes, for the specifier with this index. -/
def getRange (pieces : List Piece) (specifiers : List SpecifierNode) (unused : ℕ) :
    Option (ℕ × ℕ) :=
  specifiers[unused]?.bind fun unusedSpecifier =>
    match unusedSpecifier.type with
    | .importDefaultSpecifier =>
      -- a default import is always first
      (indexAfter Piece.isToken pieces unusedSpecifier.range.2).bind fun tokenAfter =>
        (indexAfter Piece.isToken pieces (tokenAfter + 1)).map fun next =>
          (unusedSpecifier.range.1, next)
    | .importNamespaceSpecifier =>
      -- a namespace import is always second
      (indexBefore Piece.isToken pieces unusedSpecifier.range.1).map fun tokenBefore =>
        (tokenBefore, unusedSpecifier.range.2)
    | .importSpecifier =>
      let simpleSpecifiers := specifiers.filter (·.type = .importSpecifier)
      let index := simpleSpecifiers.idxOf unusedSpecifier
      if simpleSpecifiers.length = 1 then
        (specifiers.head?).bind fun first =>
          (indexAfter Piece.isToken pieces unusedSpecifier.range.2).map fun tokenAfter =>
            (first.range.2, tokenAfter + 1)
      else if index = 0 then
        simpleSpecifiers[0]?.bind fun first => simpleSpecifiers[1]?.map fun second =>
          (first.range.1, second.range.1)
      else
        simpleSpecifiers[index - 1]?.map fun previous =>
          (previous.range.2, unusedSpecifier.range.2)

def getSuggestion (pieces : List Piece) (specifiers : List SpecifierNode) (unused : ℕ) :
    Option (List Piece) :=
  (getRange pieces specifiers unused).map fun range => removeRange range pieces

/-- The text is an import declaration from the same module with these specifiers. -/
def IsDeclaration (declaration : Declaration) (specifiers : List Specifier)
    (pieces : List Piece) : Prop :=
  ∃ result : Declaration, result.pieces = pieces ∧
    result.source.module = declaration.source.module ∧ result.specifiers = specifiers

/-- The specifier is not the only one in braces behind a default specifier, or it has no comma
behind it, and there is white space or a comment before `from`. -/
def Removable (declaration : Declaration) (unused : ℕ) : Prop :=
  ∀ name gapComma gap item trailingComma,
    declaration.clause = .both name gapComma gap (.namedImports ⟨[item], trailingComma⟩) →
    unused = 1 → trailingComma = none ∧ declaration.source.gap ≠ []

/-! ## A default or a namespace specifier -/

section Default

variable {before behind : List Piece} {gap gapComma : Gap} {token : Piece}

theorem indexAfter_gap {position : ℕ} (start : position = before.length) (isToken : token.isToken) :
    indexAfter Piece.isToken (before ++ gap.pieces ++ token :: behind) position =
      some (position + gap.pieces.length) :=
  indexAfter_append start (fun _ => not_isToken_of_mem_gap) isToken

theorem indexBefore_gap {position : ℕ} (stop : position = before.length + 1 + gap.pieces.length)
    (isToken : token.isToken) :
    indexBefore Piece.isToken (before ++ token :: gap.pieces ++ behind) position =
      some before.length :=
  indexBefore_append (fun _ => not_isToken_of_mem_gap) isToken stop

/-- Bindings begin with a punctuator. -/
theorem Bindings.exists_pieces (bindings : Bindings) :
    ∃ text rest, bindings.pieces = .punctuator text :: rest := by
  cases bindings with
  | namespaceImport specifier => exact ⟨_, _, rfl⟩
  | namedImports named => exact ⟨_, _, rfl⟩

/-- The default specifier is removed up to the other bindings. -/
theorem suggestion_default (name : Text) (bindings : Bindings) {nodes : List SpecifierNode} :
    getSuggestion
        (before ++ (.word name :: gapComma.pieces ++ comma :: gap.pieces ++ bindings.pieces) ++
          behind)
        (⟨.importDefaultSpecifier, (before.length, before.length + 1)⟩ :: nodes) 0 =
      some (before ++ (bindings.pieces ++ behind)) := by
  obtain ⟨text, rest, first⟩ := bindings.exists_pieces
  have toComma : before ++ (.word name :: gapComma.pieces ++ comma :: gap.pieces ++
        bindings.pieces) ++ behind =
      (before ++ [.word name]) ++ gapComma.pieces ++
        comma :: (gap.pieces ++ bindings.pieces ++ behind) := by simp
  have toBindings : before ++ (.word name :: gapComma.pieces ++ comma :: gap.pieces ++
        bindings.pieces) ++ behind =
      (before ++ .word name :: gapComma.pieces ++ [comma]) ++ gap.pieces ++
        .punctuator text :: (rest ++ behind) := by simp [first]
  have afterName := @indexAfter_gap (before ++ [.word name])
    (gap.pieces ++ bindings.pieces ++ behind) gapComma comma (before.length + 1) (by simp) rfl
  have afterComma := @indexAfter_gap (before ++ .word name :: gapComma.pieces ++ [comma])
    (rest ++ behind) gap (.punctuator text) (before.length + 1 + gapComma.pieces.length + 1)
    (by simp; omega) rfl
  rw [← toComma] at afterName
  rw [← toBindings] at afterComma
  have removed : before ++ (.word name :: gapComma.pieces ++ comma :: gap.pieces ++
        bindings.pieces) ++ behind =
      before ++ (.word name :: gapComma.pieces ++ comma :: gap.pieces) ++
        (bindings.pieces ++ behind) := by simp
  simp only [getSuggestion, getRange, List.getElem?_cons_zero, Option.bind_some, afterName,
    afterComma, Option.map_some]
  rw [removed, removeRange_append rfl (by simp; omega)]

/-- The namespace specifier is removed with the comma before it. -/
theorem suggestion_namespace (specifier : NamespaceSpecifier) {node : SpecifierNode}
    {position : ℕ} (start : position = before.length + 1 + gap.pieces.length) :
    getSuggestion (before ++ comma :: gap.pieces ++ specifier.pieces ++ behind)
        [node, ⟨.importNamespaceSpecifier, (position, position + specifier.pieces.length)⟩] 1 =
      some (before ++ behind) := by
  have beforeStar := @indexBefore_gap before (specifier.pieces ++ behind) gap comma position
    start rfl
  rw [← List.append_assoc] at beforeStar
  have removed : before ++ comma :: gap.pieces ++ specifier.pieces ++ behind =
      before ++ (comma :: gap.pieces ++ specifier.pieces) ++ behind := by simp
  simp only [getSuggestion, getRange, List.getElem?_cons_succ, List.getElem?_cons_zero,
    Option.bind_some, beforeStar, Option.map_some]
  rw [removed, removeRange_append rfl (by simp; omega)]

end Default

/-! ## A named specifier -/

section Named

variable {before behind : List Piece} {position : ℕ} {items earlier later : List Item}
variable {item next : Item} {pre : List SpecifierNode}

theorem length_itemNodes : (itemNodes position items).length = items.length := by
  induction items generalizing position with
  | nil => rfl
  | cons item items ih => rw [itemNodes, List.length_cons, ih, List.length_cons]

/-- The nodes are named specifiers, and each begins behind the last. -/
theorem of_mem_itemNodes {node : SpecifierNode} (member : node ∈ itemNodes position items) :
    node.type = .importSpecifier ∧ position ≤ node.range.1 := by
  induction items generalizing position with
  | nil => cases member
  | cons item items ih =>
      rw [itemNodes, List.mem_cons] at member
      obtain rfl | member := member
      · exact ⟨rfl, Nat.le_add_right _ _⟩
      · obtain ⟨type, le⟩ := ih member
        exact ⟨type, by omega⟩

theorem nodup_itemNodes : (itemNodes position items).Nodup := by
  induction items generalizing position with
  | nil => exact List.nodup_nil
  | cons item items ih =>
      refine List.nodup_cons.mpr ⟨fun member => ?_, ih⟩
      have behind := (of_mem_itemNodes member).2
      dsimp only at behind
      omega

/-- The node of a specifier, by its position. -/
theorem itemNodes_getElem? : (itemNodes position (earlier ++ item :: later))[earlier.length]? =
    some ⟨.importSpecifier,
      position + (Separated.leading comma (earlier.map Item.pieces)).length +
        item.before.pieces.length,
      position + (Separated.leading comma (earlier.map Item.pieces)).length +
        item.before.pieces.length + item.specifier.pieces.length⟩ := by
  induction earlier generalizing position with
  | nil => rfl
  | cons first earlier ih =>
      rw [List.cons_append, itemNodes, List.length_cons, List.getElem?_cons_succ, ih]
      simp only [List.map_cons, Separated.leading_cons, Item.pieces, List.length_append,
        List.length_cons]
      grind

theorem filter_nodes (others : ∀ node ∈ pre, node.type ≠ .importSpecifier) :
    (pre ++ itemNodes position items).filter (·.type = .importSpecifier) =
      itemNodes position items := by
  have none : pre.filter (·.type = .importSpecifier) = [] :=
    List.filter_eq_nil_iff.mpr fun node member => by simpa using others node member
  have all : (itemNodes position items).filter (·.type = .importSpecifier) =
      itemNodes position items :=
    List.filter_eq_self.mpr fun node member => by simpa using (of_mem_itemNodes member).1
  rw [List.filter_append, none, all, List.nil_append]

theorem idxOf_itemNodes {node : SpecifierNode} {index : ℕ}
    (found : (itemNodes position items)[index]? = some node) :
    (itemNodes position items).idxOf node = index := by
  obtain ⟨inside, rfl⟩ := List.getElem?_eq_some_iff.mp found
  exact nodup_itemNodes.idxOf_getElem index inside

/-- The branch for named specifiers. -/
theorem getRange_named (pieces : List Piece)
    (others : ∀ node ∈ pre, node.type ≠ .importSpecifier) {node : SpecifierNode} {index : ℕ}
    (found : (itemNodes position items)[index]? = some node) :
    getRange pieces (pre ++ itemNodes position items) (pre.length + index) =
      if items.length = 1 then
        (pre ++ itemNodes position items).head?.bind fun first =>
          (indexAfter Piece.isToken pieces node.range.2).map fun tokenAfter =>
            (first.range.2, tokenAfter + 1)
      else if index = 0 then
        (itemNodes position items)[0]?.bind fun first =>
          (itemNodes position items)[1]?.map fun second => (first.range.1, second.range.1)
      else
        (itemNodes position items)[index - 1]?.map fun previous =>
          (previous.range.2, node.range.2) := by
  have unused : (pre ++ itemNodes position items)[pre.length + index]? = some node := by
    rw [List.getElem?_append_right (Nat.le_add_right _ _), Nat.add_sub_cancel_left, found]
  have type := (of_mem_itemNodes (List.mem_of_getElem? found)).1
  rw [getRange, unused, Option.bind_some, type]
  simp only [filter_nodes others, idxOf_itemNodes found, length_itemNodes]

/-- The first of several is removed up to the next. -/
theorem suggestion_first (others : ∀ node ∈ pre, node.type ≠ .importSpecifier)
    (start : position = before.length) :
    getSuggestion
        (before ++ Separated.join comma ((item :: next :: later).map Item.pieces) ++ behind)
        (pre ++ itemNodes position (item :: next :: later)) pre.length =
      some (before ++ Separated.join comma
        (({ next with before := item.before } :: later).map Item.pieces) ++ behind) := by
  have found : (itemNodes position (item :: next :: later))[0]? = some ⟨.importSpecifier,
      position + item.before.pieces.length,
      position + item.before.pieces.length + item.specifier.pieces.length⟩ := rfl
  have second : (itemNodes position (item :: next :: later))[1]? = some ⟨.importSpecifier,
      position + item.before.pieces.length + item.specifier.pieces.length +
        item.behind.pieces.length + 1 + next.before.pieces.length,
      position + item.before.pieces.length + item.specifier.pieces.length +
        item.behind.pieces.length + 1 + next.before.pieces.length +
        next.specifier.pieces.length⟩ := rfl
  have removed : before ++ Separated.join comma ((item :: next :: later).map Item.pieces) ++
        behind =
      (before ++ item.before.pieces) ++
        (item.specifier.pieces ++ item.behind.pieces ++ comma :: next.before.pieces) ++
        (next.specifier.pieces ++ next.behind.pieces ++
          Separated.following comma (later.map Item.pieces) ++ behind) := by
    simp [Item.pieces]
  have range := getRange_named (before ++
    Separated.join comma ((item :: next :: later).map Item.pieces) ++ behind) others found
  rw [Nat.add_zero, if_neg (by simp), if_pos rfl, found, second, Option.bind_some,
    Option.map_some] at range
  rw [getSuggestion, range, Option.map_some, removed, removeRange_append (by simp [start])
    (by simp; omega)]
  simp [Item.pieces]

/-- Any other one is removed from the end of the one before it. -/
theorem suggestion_later (others : ∀ node ∈ pre, node.type ≠ .importSpecifier)
    (start : position = before.length) :
    getSuggestion
        (before ++
          Separated.join comma ((earlier ++ item :: next :: later).map Item.pieces) ++ behind)
        (pre ++ itemNodes position (earlier ++ item :: next :: later))
        (pre.length + (earlier.length + 1)) =
      some (before ++ Separated.join comma
        ((earlier ++ { item with behind := next.behind } :: later).map Item.pieces) ++
          behind) := by
  have previous := @itemNodes_getElem? position earlier (next :: later) item
  have split : earlier ++ item :: next :: later = (earlier ++ [item]) ++ next :: later := by simp
  have found := @itemNodes_getElem? position (earlier ++ [item]) later next
  rw [← split, List.length_append, List.length_singleton] at found
  have range := getRange_named (before ++
    Separated.join comma ((earlier ++ item :: next :: later).map Item.pieces) ++ behind)
    others found
  rw [if_neg (by simp; omega), if_neg (Nat.succ_ne_zero _), Nat.add_sub_cancel, previous,
    Option.map_some] at range
  have removed : before ++
        Separated.join comma ((earlier ++ item :: next :: later).map Item.pieces) ++ behind =
      (before ++ Separated.leading comma (earlier.map Item.pieces) ++ item.before.pieces ++
        item.specifier.pieces) ++
        (item.behind.pieces ++ comma :: next.before.pieces ++ next.specifier.pieces) ++
        (next.behind.pieces ++ Separated.following comma (later.map Item.pieces) ++
          behind) := by
    simp [Item.pieces, Separated.join_append_cons]
  rw [getSuggestion, range, Option.map_some, removed, removeRange_append
    (by simp [start]; omega) (by simp [Item.pieces]; omega)]
  simp [Item.pieces, Separated.join_append_cons]

/-- The only one in braces is removed from the end of the default specifier up to the next
token, which is the closing brace if there is no comma. -/
theorem suggestion_only (name : Text) (gapComma gap : Gap) (token : Piece)
    (isToken : token.isToken)
    (start : position = before.length + 1 + gapComma.pieces.length + 1 + gap.pieces.length + 1) :
    getSuggestion
        (before ++ .word name :: gapComma.pieces ++ comma :: gap.pieces ++ openingBrace ::
          item.pieces ++ token :: behind)
        (⟨.importDefaultSpecifier, (before.length, before.length + 1)⟩ ::
          itemNodes position [item]) 1 =
      some (before ++ .word name :: behind) := by
  have found : (itemNodes position [item])[0]? = some ⟨.importSpecifier,
      position + item.before.pieces.length,
      position + item.before.pieces.length + item.specifier.pieces.length⟩ := rfl
  have others : ∀ node ∈ [SpecifierNode.mk .importDefaultSpecifier
      (before.length, before.length + 1)], node.type ≠ .importSpecifier := by simp
  have after := @indexAfter_gap
    (before ++ .word name :: gapComma.pieces ++ comma :: gap.pieces ++ openingBrace ::
      (item.before.pieces ++ item.specifier.pieces))
    behind item.behind token
    (position + item.before.pieces.length + item.specifier.pieces.length)
    (by simp [start]; omega) isToken
  have whole : before ++ .word name :: gapComma.pieces ++ comma :: gap.pieces ++
        openingBrace :: (item.before.pieces ++ item.specifier.pieces) ++ item.behind.pieces ++
          token :: behind =
      before ++ .word name :: gapComma.pieces ++ comma :: gap.pieces ++ openingBrace ::
        item.pieces ++ token :: behind := by simp [Item.pieces]
  have removed : before ++ .word name :: gapComma.pieces ++ comma :: gap.pieces ++
        openingBrace :: item.pieces ++ token :: behind =
      (before ++ [.word name]) ++
        (gapComma.pieces ++ comma :: gap.pieces ++ openingBrace :: item.pieces ++ [token]) ++
        behind := by simp
  rw [whole] at after
  have range := getRange_named (before ++ .word name :: gapComma.pieces ++ comma :: gap.pieces ++
    openingBrace :: item.pieces ++ token :: behind) others found
  rw [if_pos (List.length_singleton : [item].length = 1), List.singleton_append,
    List.head?_cons, Option.bind_some, after, Option.map_some] at range
  change getRange _ _ 1 = _ at range
  rw [getSuggestion, range, Option.map_some, removed, removeRange_append (by simp)
    (by simp [start, Item.pieces]; omega)]
  simp

end Named

/-! ## Declarations -/

section Results

variable (declaration : Declaration)

/-- The declaration with another clause and other white space behind it, if no words touch in
it. -/
theorem isDeclaration_of_clause {clause : Clause} {gap : Gap} {pieces : List Piece}
    (same : pieces = declaration.keyword.pieces ++ clause.pieces ++
      { declaration.source with gap := gap }.pieces)
    (apart : Apart pieces) : IsDeclaration declaration clause.specifiers pieces := by
  subst same
  exact ⟨⟨declaration.keyword, clause, { declaration.source with gap := gap }, apart⟩, rfl, rfl,
    rfl⟩

/-- Neither a word nor between tokens. -/
def isMark (piece : Piece) : Bool := piece.isToken && !piece.isWord

theorem find_isMark_gap {gap : Gap} : gap.pieces.find? isMark = none := by
  rw [List.find?_eq_none]
  intro piece member
  simp [isMark, not_isToken_of_mem_gap member]

theorem isMark_word {text : Text} : isMark (.word text) = false := rfl

theorem find_isMark_keyword {keyword : Keyword} {behind : List Piece} :
    (keyword.pieces ++ behind).find? isMark = behind.find? isMark := by
  obtain ⟨gap, type⟩ := keyword
  cases type with
  | none => simp [Keyword.pieces, isMark_word, find_isMark_gap]
  | some gap' => simp [Keyword.pieces, isMark_word, find_isMark_gap]

/-- A declaration does not come to a closing brace before anything else but words. -/
theorem find_isMark_pieces : declaration.pieces.find? isMark ≠ some closingBrace := by
  obtain ⟨keyword, clause, source, apart⟩ := declaration
  rw [Declaration.pieces, List.append_assoc, find_isMark_keyword]
  cases clause with
  | defaultOnly name =>
      simp [Clause.pieces, Source.pieces, find_isMark_gap, isMark, Piece.isToken, Piece.isWord,
        closingBrace]
  | others bindings =>
      cases bindings with
      | namespaceImport specifier =>
          simp [Clause.pieces, Bindings.pieces, NamespaceSpecifier.pieces, isMark,
            Piece.isToken, Piece.isWord, closingBrace]
      | namedImports named =>
          simp [Clause.pieces, Bindings.pieces, NamedImports.pieces, isMark, openingBrace,
            Piece.isToken, Piece.isWord, closingBrace]
  | both name gapComma gap bindings =>
      simp [Clause.pieces, find_isMark_gap, isMark, comma, Piece.isToken, Piece.isWord,
        closingBrace]

end Results

/-- A default specifier with the comma behind it. -/
structure Front where
  name : Text
  gapComma : Gap
  gap : Gap

namespace Front

def clause : Option Front → Bindings → Clause
  | none, bindings => .others bindings
  | some front, bindings => .both front.name front.gapComma front.gap bindings

def pieces : Option Front → List Piece
  | none => []
  | some front => .word front.name :: front.gapComma.pieces ++ comma :: front.gap.pieces

def specifiers : Option Front → List Specifier
  | none => []
  | some front => [.default front.name]

def nodes (position : ℕ) : Option Front → List SpecifierNode
  | none => []
  | some _ => [⟨.importDefaultSpecifier, (position, position + 1)⟩]

variable {front : Option Front} {bindings : Bindings} {position : ℕ}

theorem clause_pieces : (clause front bindings).pieces = pieces front ++ bindings.pieces := by
  cases front with
  | none => rfl
  | some front => simp [clause, Clause.pieces, pieces]

theorem clause_specifiers :
    (clause front bindings).specifiers = specifiers front ++ bindings.specifiers := by
  cases front with
  | none => rfl
  | some front => rfl

theorem clause_nodes : (clause front bindings).nodes position =
    nodes position front ++ bindings.nodes (position + (pieces front).length) := by
  cases front with
  | none => rfl
  | some front =>
      have length : position + 1 + front.gapComma.pieces.length + 1 + front.gap.pieces.length =
          position + (pieces (some front)).length := by
        simp [pieces]
        omega
      simp only [clause, Clause.nodes, nodes, length, List.singleton_append]

theorem length_nodes : (nodes position front).length = (specifiers front).length := by
  cases front with
  | none => rfl
  | some front => rfl

theorem type_nodes : ∀ node ∈ nodes position front, node.type ≠ .importSpecifier := by
  cases front with
  | none => simp [nodes]
  | some front => simp [nodes]

end Front

section Main

variable {declaration : Declaration} {unused : ℕ}

/-- The suggestion gives a declaration without the specifier. -/
def Keeps (declaration : Declaration) (unused : ℕ) : Prop :=
  ∃ pieces, getSuggestion declaration.pieces declaration.nodes unused = some pieces ∧
    IsDeclaration declaration (declaration.specifiers.eraseIdx unused) pieces

theorem keeps_default {name : Text} {gapComma gap : Gap} {bindings : Bindings}
    (clause : declaration.clause = .both name gapComma gap bindings) : Keeps declaration 0 := by
  obtain ⟨keyword, _, source, apart⟩ := declaration
  obtain rfl := clause
  obtain ⟨text, rest, first⟩ := bindings.exists_pieces
  have whole : keyword.pieces ++ (Clause.both name gapComma gap bindings).pieces ++
        source.pieces =
      keyword.pieces ++ (.word name :: gapComma.pieces ++ comma :: gap.pieces) ++
        .punctuator text :: (rest ++ source.pieces) := by simp [Clause.pieces, first]
  have left : keyword.pieces ++ (bindings.pieces ++ source.pieces) =
      keyword.pieces ++ .punctuator text :: (rest ++ source.pieces) := by simp [first]
  refine ⟨_, suggestion_default name bindings, ?_⟩
  refine @isDeclaration_of_clause _ (.others bindings) source.gap _ (by simp [Clause.pieces]) ?_
  rw [whole] at apart
  rw [left]
  exact apart.remove_left rfl

theorem keeps_namespace {name : Text} {gapComma gap : Gap} {specifier : NamespaceSpecifier}
    (clause : declaration.clause = .both name gapComma gap (.namespaceImport specifier)) :
    Keeps declaration 1 := by
  obtain ⟨keyword, _, source, apart⟩ := declaration
  obtain rfl := clause
  have whole : keyword.pieces ++
        (Clause.both name gapComma gap (.namespaceImport specifier)).pieces ++ source.pieces =
      (keyword.pieces ++ .word name :: gapComma.pieces) ++ comma :: gap.pieces ++
        specifier.pieces ++ source.pieces := by simp [Clause.pieces, Bindings.pieces]
  have start : keyword.pieces.length + 1 + gapComma.pieces.length + 1 + gap.pieces.length =
      (keyword.pieces ++ .word name :: gapComma.pieces).length + 1 + gap.pieces.length := by
    simp
    omega
  have suggestion := @suggestion_namespace (keyword.pieces ++ .word name :: gapComma.pieces)
    source.pieces gap specifier
    ⟨.importDefaultSpecifier, (keyword.pieces.length, keyword.pieces.length + 1)⟩ _ start
  rw [← whole] at suggestion
  refine ⟨_, suggestion, ?_⟩
  refine @isDeclaration_of_clause _ (.defaultOnly name) (gapComma ++ source.gap) _
    (by simp [Clause.pieces, Source.pieces, Gap.pieces]) ?_
  have upToName : keyword.pieces ++
        (Clause.both name gapComma gap (.namespaceImport specifier)).pieces ++ source.pieces =
      (keyword.pieces ++ .word name :: gapComma.pieces) ++
        (comma :: gap.pieces ++ .punctuator ['*'] :: specifier.gapAs.pieces ++
          .word ['a', 's'] :: specifier.gapName.pieces ++ [.word specifier.name]) ++
        source.pieces := by
    simp [Clause.pieces, Bindings.pieces, NamespaceSpecifier.pieces]
  rw [upToName] at apart
  exact apart.remove_word rfl

section Braces

variable {front : Option Front} {later earlier : List Item} {item next : Item}
variable {trailingComma : Option Gap}

/-- The pieces around the items in braces. -/
theorem pieces_named {keyword : Keyword} {source : Source} {items : List Item} :
    keyword.pieces ++ (Front.clause front (.namedImports ⟨items, trailingComma⟩)).pieces ++
        source.pieces =
      (keyword.pieces ++ Front.pieces front ++ [openingBrace]) ++
        Separated.join comma (items.map Item.pieces) ++
        (NamedImports.trailing ⟨items, trailingComma⟩ ++ closingBrace :: source.pieces) := by
  simp [Front.clause_pieces, Bindings.pieces, NamedImports.pieces]

theorem nodes_named {keyword : Keyword} {items : List Item} :
    (Front.clause front (.namedImports ⟨items, trailingComma⟩)).nodes keyword.pieces.length =
      Front.nodes keyword.pieces.length front ++
        itemNodes (keyword.pieces ++ Front.pieces front ++ [openingBrace]).length items := by
  rw [Front.clause_nodes, Bindings.nodes]
  simp [Nat.add_assoc]

theorem keeps_first (clause : declaration.clause =
      Front.clause front (.namedImports ⟨item :: next :: later, trailingComma⟩)) :
    Keeps declaration (Front.specifiers front).length := by
  obtain ⟨keyword, _, source, apart⟩ := declaration
  obtain rfl := clause
  have suggestion := @suggestion_first
    (keyword.pieces ++ Front.pieces front ++ [openingBrace])
    (NamedImports.trailing ⟨item :: next :: later, trailingComma⟩ ++ closingBrace ::
      source.pieces) _ later item next (Front.nodes keyword.pieces.length front)
    Front.type_nodes rfl
  rw [← pieces_named, ← nodes_named, Front.length_nodes] at suggestion
  have specifiers : (Front.clause front (.namedImports
        ⟨{ next with before := item.before } :: later, trailingComma⟩)).specifiers =
      (Front.clause front (.namedImports
        ⟨item :: next :: later, trailingComma⟩)).specifiers.eraseIdx
          (Front.specifiers front).length := by
    simp [Front.clause_specifiers, Bindings.specifiers, List.eraseIdx_append_of_length_le]
  refine ⟨_, suggestion, ?_⟩
  rw [Declaration.specifiers, ← specifiers]
  refine @isDeclaration_of_clause _ _ source.gap _ pieces_named.symm ?_
  have removed : keyword.pieces ++ (Front.clause front (.namedImports
        ⟨item :: next :: later, trailingComma⟩)).pieces ++ source.pieces =
      (keyword.pieces ++ Front.pieces front ++ openingBrace :: item.before.pieces) ++
        (item.specifier.pieces ++ item.behind.pieces ++ comma :: next.before.pieces) ++
        (next.specifier.pieces ++ next.behind.pieces ++
          Separated.following comma (later.map Item.pieces) ++
          (NamedImports.trailing ⟨item :: next :: later, trailingComma⟩ ++ closingBrace ::
            source.pieces)) := by
    rw [pieces_named]
    simp [Item.pieces]
  rw [removed] at apart
  have left := apart.remove (not_isWord_of_mem_getLast? rfl)
  simpa [Item.pieces] using left

theorem keeps_later (clause : declaration.clause =
      Front.clause front (.namedImports ⟨earlier ++ item :: next :: later, trailingComma⟩)) :
    Keeps declaration ((Front.specifiers front).length + (earlier.length + 1)) := by
  obtain ⟨keyword, _, source, apart⟩ := declaration
  obtain rfl := clause
  have suggestion := @suggestion_later
    (keyword.pieces ++ Front.pieces front ++ [openingBrace])
    (NamedImports.trailing ⟨earlier ++ item :: next :: later, trailingComma⟩ ++ closingBrace ::
      source.pieces) _ earlier later item next (Front.nodes keyword.pieces.length front)
    Front.type_nodes rfl
  rw [← pieces_named, ← nodes_named, Front.length_nodes] at suggestion
  have specifiers : (Front.clause front (.namedImports
        ⟨earlier ++ { item with behind := next.behind } :: later, trailingComma⟩)).specifiers =
      (Front.clause front (.namedImports
        ⟨earlier ++ item :: next :: later, trailingComma⟩)).specifiers.eraseIdx
          ((Front.specifiers front).length + (earlier.length + 1)) := by
    simp [Front.clause_specifiers, Bindings.specifiers, List.eraseIdx_append_of_length_le]
  refine ⟨_, suggestion, ?_⟩
  rw [Declaration.specifiers, ← specifiers]
  refine @isDeclaration_of_clause _ _ source.gap _ pieces_named.symm ?_
  have removed : keyword.pieces ++ (Front.clause front (.namedImports
        ⟨earlier ++ item :: next :: later, trailingComma⟩)).pieces ++ source.pieces =
      (keyword.pieces ++ Front.pieces front ++ openingBrace ::
        (Separated.leading comma (earlier.map Item.pieces) ++ item.before.pieces ++
          item.specifier.pieces)) ++
        ((item.behind.pieces ++ comma :: next.before.pieces ++ next.specifier.imported) ++
          [.word next.specifier.name]) ++
        (next.behind.pieces ++ Separated.following comma (later.map Item.pieces) ++
          (NamedImports.trailing ⟨earlier ++ item :: next :: later, trailingComma⟩ ++
            closingBrace :: source.pieces)) := by
    rw [pieces_named]
    simp [Item.pieces, NamedSpecifier.pieces, Separated.join_append_cons]
  rw [removed] at apart
  have left := apart.remove_word rfl
  simpa [Item.pieces, Separated.join_append_cons] using left

/-- With several specifiers in the braces, each of them can be removed. -/
theorem keeps_named {items : List Item} {index : ℕ} (several : 2 ≤ items.length)
    (inside : index < items.length) (clause : declaration.clause =
      Front.clause front (.namedImports ⟨items, trailingComma⟩)) :
    Keeps declaration ((Front.specifiers front).length + index) := by
  cases index with
  | zero =>
      obtain ⟨item, next, later, rfl⟩ : ∃ item next later, items = item :: next :: later := by
        obtain _ | ⟨item, _ | ⟨next, later⟩⟩ := items
        · exact absurd several (by simp)
        · exact absurd several (by simp)
        · exact ⟨item, next, later, rfl⟩
      exact keeps_first clause
  | succ index =>
      have split : items = items.take index ++ items[index] :: items[index + 1] ::
          items.drop (index + 2) := by
        rw [← List.drop_eq_getElem_cons, ← List.drop_eq_getElem_cons, List.take_append_drop]
      have length : (items.take index).length = index := by
        rw [List.length_take]
        omega
      rw [split] at clause
      have keeps := keeps_later clause
      rwa [length] at keeps

/-- The text after the suggestion for the only specifier in braces. -/
theorem suggestion_only_pieces {name : Text} {gapComma gap : Gap} (clause : declaration.clause =
      .both name gapComma gap (.namedImports ⟨[item], trailingComma⟩)) :
    getSuggestion declaration.pieces declaration.nodes 1 =
      some (declaration.keyword.pieces ++ .word name ::
        match trailingComma with
        | some gap => gap.pieces ++ closingBrace :: declaration.source.pieces
        | none => declaration.source.pieces) := by
  obtain ⟨keyword, _, source, apart⟩ := declaration
  obtain rfl := clause
  have suggestion := fun token isToken behind => @suggestion_only keyword.pieces behind _ item
    name gapComma gap token isToken rfl
  cases trailingComma with
  | none =>
      have whole : Declaration.pieces ⟨keyword, .both name gapComma gap
            (.namedImports ⟨[item], none⟩), source, apart⟩ =
          keyword.pieces ++ .word name :: gapComma.pieces ++ comma :: gap.pieces ++
            openingBrace :: item.pieces ++ closingBrace :: source.pieces := by
        simp [Declaration.pieces, Clause.pieces, Bindings.pieces, NamedImports.pieces,
          NamedImports.trailing]
      rw [whole]
      exact suggestion closingBrace rfl source.pieces
  | some gapBrace =>
      have whole : Declaration.pieces ⟨keyword, .both name gapComma gap
            (.namedImports ⟨[item], some gapBrace⟩), source, apart⟩ =
          keyword.pieces ++ .word name :: gapComma.pieces ++ comma :: gap.pieces ++
            openingBrace :: item.pieces ++ comma ::
              (gapBrace.pieces ++ closingBrace :: source.pieces) := by
        simp [Declaration.pieces, Clause.pieces, Bindings.pieces, NamedImports.pieces,
          NamedImports.trailing]
      rw [whole]
      exact suggestion comma rfl (gapBrace.pieces ++ closingBrace :: source.pieces)

theorem keeps_only_iff {name : Text} {gapComma gap : Gap} (clause : declaration.clause =
      .both name gapComma gap (.namedImports ⟨[item], trailingComma⟩)) :
    Keeps declaration 1 ↔ trailingComma = none ∧ declaration.source.gap ≠ [] := by
  have suggestion := suggestion_only_pieces clause
  cases trailingComma with
  | some gapBrace =>
      -- the opening brace is gone, the closing one is not
      refine iff_of_false ?_ (by simp)
      rintro ⟨pieces, same, result, isResult, -, -⟩
      rw [suggestion, Option.some.injEq] at same
      apply find_isMark_pieces result
      rw [isResult, ← same, find_isMark_keyword]
      simp [find_isMark_gap, isMark, closingBrace, Piece.isToken, Piece.isWord]
  | none =>
      constructor
      · rintro ⟨pieces, same, result, isResult, -, -⟩
        refine ⟨rfl, fun noGap => ?_⟩
        rw [suggestion, Option.some.injEq] at same
        have apart := result.apart
        change Apart result.pieces at apart
        rw [isResult, ← same, Source.pieces, noGap] at apart
        exact (List.isChain_cons_cons.mp apart.right).1 ⟨rfl, rfl⟩
      · rintro ⟨-, someGap⟩
        obtain ⟨first, gap', isGap⟩ := List.exists_cons_of_ne_nil someGap
        refine ⟨_, suggestion, ?_⟩
        rw [Declaration.specifiers, clause]
        refine @isDeclaration_of_clause declaration (.defaultOnly name) declaration.source.gap _
          (by simp [Clause.pieces]) ?_
        have apart := declaration.apart
        have behind : declaration.source.pieces = .trivia first :: (gap'.map .trivia ++
            .word "from".toList :: declaration.source.gapModule.pieces ++
              .literal declaration.source.module :: declaration.source.behind) := by
          simp [Source.pieces, isGap, Gap.pieces]
        have removed : declaration.keyword.pieces ++ declaration.clause.pieces ++
              declaration.source.pieces =
            (declaration.keyword.pieces ++ [.word name]) ++
              (gapComma.pieces ++ comma :: gap.pieces ++ openingBrace :: item.pieces ++
                [closingBrace]) ++ declaration.source.pieces := by
          simp [clause, Clause.pieces, Bindings.pieces, NamedImports.pieces,
            NamedImports.trailing]
        rw [removed, behind] at apart
        have left := apart.remove_left rfl
        simpa [behind] using left

end Braces

/-- The suggestion gives a declaration from the same module with the other specifiers in their
order if and only if the specifier is not the only one in braces behind a default specifier with
a comma behind it or without white space before `from`. -/
theorem getSuggestion_keeps_iff (declaration : Declaration) (unused : ℕ)
    (several : 2 ≤ declaration.specifiers.length)
    (inside : unused < declaration.specifiers.length) :
    (∃ pieces, getSuggestion declaration.pieces declaration.nodes unused = some pieces ∧
      IsDeclaration declaration (declaration.specifiers.eraseIdx unused) pieces) ↔
    Removable declaration unused := by
  change Keeps declaration unused ↔ _
  cases clause : declaration.clause with
  | defaultOnly name =>
      rw [Declaration.specifiers, clause] at several
      exact absurd several (by simp [Clause.specifiers])
  | others bindings =>
      refine iff_of_true ?_ (by simp [Removable, clause])
      cases bindings with
      | namespaceImport specifier =>
          rw [Declaration.specifiers, clause] at several
          exact absurd several (by simp [Clause.specifiers, Bindings.specifiers])
      | namedImports named =>
          rw [Declaration.specifiers, clause, Clause.specifiers, Bindings.specifiers,
            List.length_map] at several inside
          have keeps := @keeps_named declaration none named.trailingComma named.items unused
            several inside clause
          rwa [Front.specifiers, List.length_nil, Nat.zero_add] at keeps
  | both name gapComma gap bindings =>
      rw [Declaration.specifiers, clause, Clause.specifiers, List.length_cons] at inside
      cases unused with
      | zero => exact iff_of_true (keeps_default clause) (by simp [Removable])
      | succ index =>
          cases bindings with
          | namespaceImport specifier =>
              rw [Bindings.specifiers, List.length_singleton] at inside
              obtain rfl : index = 0 := by omega
              exact iff_of_true (keeps_namespace clause) (by simp [Removable, clause])
          | namedImports named =>
              obtain ⟨items, trailingComma⟩ := named
              rw [Bindings.specifiers, List.length_map] at inside
              change index + 1 < items.length + 1 at inside
              by_cases single : items.length = 1
              · obtain ⟨item, rfl⟩ := List.length_eq_one_iff.mp single
                obtain rfl : index = 0 := by
                  rw [single] at inside
                  omega
                rw [keeps_only_iff clause]
                constructor
                · intro keeps _ _ _ _ _ same _
                  rw [clause] at same
                  cases same
                  exact keeps
                · intro removable
                  exact removable name gapComma gap item trailingComma clause rfl
              · refine iff_of_true ?_ ?_
                · have keeps := @keeps_named declaration (some ⟨name, gapComma, gap⟩)
                    trailingComma items index (by omega) (by omega) clause
                  rwa [Front.specifiers, List.length_singleton, Nat.add_comm] at keeps
                · intro _ _ _ item _ same
                  rw [clause] at same
                  cases same
                  exact absurd rfl single

end Main

/-! ## Examples -/

/-- The declaration `import D, { s } from 'm'`, with or without a comma behind `s`. -/
def defaultAndNamed (trailingComma : Bool) : Declaration where
  keyword := ⟨[[' ']], none⟩
  clause := .both ['D'] [] [[' ']]
    (.namedImports ⟨[⟨[[' ']], ⟨[], ['s']⟩, [[' ']]⟩],
      if trailingComma then some [[' ']] else none⟩)
  source := ⟨[[' ']], [[' ']], "'m'".toList, []⟩
  apart := by cases trailingComma <;> decide

theorem keeps_defaultAndNamed :
    ∃ pieces, getSuggestion (defaultAndNamed false).pieces (defaultAndNamed false).nodes 1 =
        some pieces ∧
      IsDeclaration (defaultAndNamed false) ((defaultAndNamed false).specifiers.eraseIdx 1)
        pieces := by
  refine (getSuggestion_keeps_iff (defaultAndNamed false) 1 (by decide) (by decide)).mpr ?_
  intro _ _ _ _ _ clause _
  cases clause
  exact ⟨rfl, List.cons_ne_nil _ _⟩

/-- With a comma behind `s`, the closing brace stays: `import D } from 'm'`. -/
theorem not_keeps_trailingComma :
    ¬∀ (declaration : Declaration) (unused : ℕ), 2 ≤ declaration.specifiers.length →
      unused < declaration.specifiers.length →
      ∃ pieces, getSuggestion declaration.pieces declaration.nodes unused = some pieces ∧
        IsDeclaration declaration (declaration.specifiers.eraseIdx unused) pieces := by
  intro keeps
  have kept := keeps (defaultAndNamed true) 1 (by decide) (by decide)
  have removable := (keeps_only_iff rfl).mp kept
  exact Option.some_ne_none _ removable.1

end SonarJS.UnusedImports
