import Mathlib.Data.List.DropRight
import SonarJS.Linting.ImportClauses

/-!
# Merging duplicate imports

The suggestion writes the specifiers of a duplicate import into the first import from the same
module, and removes the duplicate. Ranges are in characters of the source text: one character
is kept behind `import` or `type`, and one before `from`.
-/

namespace SonarJS.DuplicateImports

open Pieces UnusedImports ImportClauses

/-! ## Import declarations -/

/-- A part of the text between `import` and `from`. -/
inductive Part
  | piece (piece : Piece)
  | specifier (specifier : Specifier)

def Part.pieces : Part → List Piece
  | piece p => [p]
  | specifier s => s.pieces

def Part.specifier? : Part → Option Specifier
  | piece _ => none
  | specifier s => some s

/-- An import declaration. There is no clause if only the side effects are wanted. -/
structure Declaration where
  type : Option Gap
  clause : Option (List Part)
  gapModule : Gap
  module : Text
  value : Text
  semicolon : Option Gap

namespace Declaration

variable (declaration : Declaration)

def importKind : Kind := if declaration.type.isSome then .type else .value

def specifiers : List Specifier := (declaration.clause.getD []).filterMap Part.specifier?

def keyword : List Piece :=
  .word "import".toList ::
    match declaration.type with
    | some gap => gap.pieces ++ [.word "type".toList]
    | none => []

/-- From the module on. -/
def source : List Piece :=
  declaration.gapModule.pieces ++ .literal declaration.module ::
    match declaration.semicolon with
    | some gap => gap.pieces ++ [ImportClauses.semicolon]
    | none => []

/-- Everything behind the keywords. -/
def rest : List Piece :=
  match declaration.clause with
  | some parts => parts.flatMap Part.pieces ++ .word "from".toList :: declaration.source
  | none => declaration.source

def pieces : List Piece := declaration.keyword ++ declaration.rest

end Declaration

def binding : Specifier → Binding
  | .default name => .default name
  | .namespaceSpecifier specifier => .namespaceImport specifier.name
  | .named specifier => .named (tokens specifier.imported) specifier.name

/-- The tokens that tell the export of a named specifier are words and literals. -/
def IsSpecifier : Specifier → Prop
  | .named specifier => ∀ piece ∈ specifier.imported, ∀ text, piece ≠ .punctuator text
  | _ => True

/-- The declarations of the grammar. -/
structure WellFormed (declaration : Declaration) : Prop where
  spaced : WellSpaced declaration.pieces
  quotes : 2 ≤ declaration.module.length
  isSpecifier : ∀ specifier ∈ declaration.specifiers, IsSpecifier specifier
  clause : ∀ parts ∈ declaration.clause, readClause (tokens (parts.flatMap Part.pieces)) =
    some (declaration.specifiers.map binding)
  type : declaration.clause = none → declaration.type = none

/-- A declaration, and where it begins in the source text. -/
structure Node where
  declaration : Declaration
  start : ℕ

inductive Statement
  | importDeclaration (node : Node)
  | other

/-! ## The suggestion -/

def isMultiline (declaration : Declaration) : Bool :=
  declaration.pieces.any fun piece => piece.text.any isLineBreak

/-- The texts of the specifiers. Of several default or namespace specifiers, the last one is
left. -/
structure Texts where
  defaultSpecifierText : List Piece
  namespaceSpecifierText : List Piece
  importSpecifiersTexts : List (List Piece)

def Texts.add (texts : Texts) : Specifier → Texts
  | .default name => { texts with defaultSpecifierText := (Specifier.default name).pieces }
  | .namespaceSpecifier specifier => { texts with namespaceSpecifierText := specifier.pieces }
  | .named specifier =>
    { texts with importSpecifiersTexts := texts.importSpecifiersTexts ++ [specifier.pieces] }

/-- The text of the named specifiers in braces. -/
def importSpecifiersText (multiline : Bool) (importSpecifiersTexts : List (List Piece)) :
    List Piece :=
  if importSpecifiersTexts = [] then []
  else
    let gap := .trivia (if multiline then ['\n'] else [' '])
    [openingBrace, gap] ++ [comma, gap].intercalate (importSpecifiersTexts.map
      fun text => if multiline then .trivia [' ', ' '] :: text else text) ++ [gap, closingBrace]

def mergeSpecifiers (toDecl fromDecl : Declaration) : List Piece :=
  let specifiers := toDecl.specifiers ++ fromDecl.specifiers
  if specifiers = [] then []
  else
    let texts := specifiers.foldl Texts.add ⟨[], [], []⟩
    let multiline := isMultiline toDecl || isMultiline fromDecl
    [comma, .trivia [' ']].intercalate
      ([texts.defaultSpecifierText, texts.namespaceSpecifierText,
        importSpecifiersText multiline texts.importSpecifiersTexts].filter (· ≠ []))

/-- Where the first token with this text ends. -/
def firstTokenEnd (value : Text) (pieces : List Piece) : ℕ :=
  textLength (pieces.takeWhile (· ≠ .word value)) + value.length

/-- Where the last token with this text begins. -/
def lastTokenStart (value : Text) (pieces : List Piece) : Option ℕ :=
  match pieces.reverse.dropWhile (· ≠ .word value) with
  | _ :: before => some (textLength before)
  | [] => none

def importOrType : Kind → Text
  | .type => "type".toList
  | .value => "import".toList

theorem importOrType_type : importOrType .type = "type".toList := rfl

theorem importOrType_value : importOrType .value = "import".toList := rfl

def getSpecifiersRange (decl : Node) : ℕ × ℕ :=
  let importOrTypeEnd := decl.start +
    firstTokenEnd (importOrType decl.declaration.importKind) decl.declaration.pieces
  let fromStart := (lastTokenStart "from".toList decl.declaration.pieces).map (decl.start + ·)
  (importOrTypeEnd + 1, (fromStart.map (· - 1)).getD (importOrTypeEnd + 1))

def isWhiteSpace : Piece → Bool
  | .trivia text => isBlank text
  | _ => false

/-- Removed from the end of the last comment or token before it. -/
def removeNodeWithLeadingWhitespaces (pieces : List Piece) (node : Node) : List Piece :=
  let start := textLength ((takeText node.start pieces).rdropWhile isWhiteSpace)
  replaceText (start, node.start + textLength node.declaration.pieces) [] pieces

def getModule (declaration : Declaration) : Text :=
  (declaration.value.dropWhile Numbers.isWhiteSpace).rdropWhile Numbers.isWhiteSpace

def getFirstMatchingImportDeclaration (module : Text) : List Statement → Option Node
  | [] => none
  | .importDeclaration node :: body =>
    if module = getModule node.declaration then some node
    else getFirstMatchingImportDeclaration module body
  | .other :: body => getFirstMatchingImportDeclaration module body

/-- The source text after the suggestion, if there is one. -/
def getSuggestion (pieces : List Piece) (body : List Statement) (duplicateDecl : Node) :
    Option (List Piece) :=
  (getFirstMatchingImportDeclaration (getModule duplicateDecl.declaration) body).map
    fun importDecl =>
      let newSpecifiersText := mergeSpecifiers importDecl.declaration duplicateDecl.declaration
      let oldSpecifiersRange := getSpecifiersRange importDecl
      -- the duplicate is behind the first declaration
      replaceText oldSpecifiersRange newSpecifiersText
        (removeNodeWithLeadingWhitespaces pieces duplicateDecl)

/-! ## The merged specifiers -/

section Merge

def default? : Specifier → Option Text
  | .default name => some name
  | _ => none

def namespace? : Specifier → Option NamespaceSpecifier
  | .namespaceSpecifier specifier => some specifier
  | _ => none

def named? : Specifier → Option NamedSpecifier
  | .named specifier => some specifier
  | _ => none

def lastDefault (specifiers : List Specifier) : Option Text :=
  (specifiers.filterMap default?).getLast?

def lastNamespace (specifiers : List Specifier) : Option NamespaceSpecifier :=
  (specifiers.filterMap namespace?).getLast?

/-- The tokens of named specifiers. -/
def namedOf (specifiers : List Specifier) : List (List Piece × Text) :=
  (specifiers.filterMap named?).map fun specifier => (tokens specifier.imported, specifier.name)

section Members

variable {specifiers : List Specifier}

theorem mem_defaults {name : Text} :
    name ∈ specifiers.filterMap default? ↔ .default name ∈ specifiers := by
  rw [List.mem_filterMap]
  constructor
  · rintro ⟨specifier, mem, isDefault⟩
    cases specifier <;> cases isDefault
    exact mem
  · exact fun mem => ⟨_, mem, rfl⟩

theorem mem_namespaces {specifier : NamespaceSpecifier} :
    specifier ∈ specifiers.filterMap namespace? ↔ .namespaceSpecifier specifier ∈ specifiers := by
  rw [List.mem_filterMap]
  constructor
  · rintro ⟨specifier, mem, isNamespace⟩
    cases specifier <;> cases isNamespace
    exact mem
  · exact fun mem => ⟨_, mem, rfl⟩

theorem mem_named {specifier : NamedSpecifier} :
    specifier ∈ specifiers.filterMap named? ↔ .named specifier ∈ specifiers := by
  rw [List.mem_filterMap]
  constructor
  · rintro ⟨specifier, mem, isNamed⟩
    cases specifier <;> cases isNamed
    exact mem
  · exact fun mem => ⟨_, mem, rfl⟩

theorem mem_of_lastDefault {name : Text} (last : lastDefault specifiers = some name) :
    .default name ∈ specifiers := mem_defaults.1 (List.mem_of_getLast? last)

theorem mem_of_lastNamespace {specifier : NamespaceSpecifier}
    (last : lastNamespace specifiers = some specifier) :
    .namespaceSpecifier specifier ∈ specifiers := mem_namespaces.1 (List.mem_of_getLast? last)

end Members

/-- The last default and the last namespace specifier are left, and all named ones. -/
theorem foldl_add (specifiers : List Specifier) :
    specifiers.foldl Texts.add ⟨[], [], []⟩ =
      ⟨((lastDefault specifiers).map fun name => (Specifier.default name).pieces).getD [],
        ((lastNamespace specifiers).map NamespaceSpecifier.pieces).getD [],
        (specifiers.filterMap named?).map NamedSpecifier.pieces⟩ := by
  induction specifiers using List.reverseRecOn with
  | nil => rfl
  | append_singleton specifiers specifier ih =>
      rw [List.foldl_append, ih]
      cases specifier with
      | default name => simp [Texts.add, lastDefault, lastNamespace, default?, namespace?, named?]
      | namespaceSpecifier specifier =>
          simp [Texts.add, lastDefault, lastNamespace, default?, namespace?, named?]
      | named specifier =>
          simp [Texts.add, lastDefault, lastNamespace, default?, namespace?, named?]

theorem tokens_namespace (specifier : NamespaceSpecifier) :
    tokens specifier.pieces = [ImportClauses.star, .word ['a', 's'], .word specifier.name] := by
  simp [NamespaceSpecifier.pieces, ImportClauses.star]

theorem tokens_named (specifier : NamedSpecifier) :
    tokens specifier.pieces = nameTokens (tokens specifier.imported, specifier.name) := by
  simp [NamedSpecifier.pieces, nameTokens]

/-- The parts of the merged text that are not empty. -/
def mergedParts (multiline : Bool) (specifiers : List Specifier) : List (List Piece) :=
  ((lastDefault specifiers).map fun name => (Specifier.default name).pieces).toList ++
    ((lastNamespace specifiers).map NamespaceSpecifier.pieces).toList ++
      if specifiers.filterMap named? = [] then []
      else [importSpecifiersText multiline
        ((specifiers.filterMap named?).map NamedSpecifier.pieces)]

theorem mergeSpecifiers_eq (toDecl fromDecl : Declaration) :
    mergeSpecifiers toDecl fromDecl = [comma, .trivia [' ']].intercalate
      (mergedParts (isMultiline toDecl || isMultiline fromDecl)
        (toDecl.specifiers ++ fromDecl.specifiers)) := by
  unfold mergeSpecifiers
  dsimp only
  split
  · rename_i none
    rw [none]
    rfl
  · rw [foldl_add, mergedParts]
    generalize toDecl.specifiers ++ fromDecl.specifiers = specifiers
    congr 1
    by_cases none : specifiers.filterMap named? = []
    · rw [if_pos none, none]
      cases lastDefault specifiers <;> cases lastNamespace specifiers <;>
        simp [importSpecifiersText, Specifier.pieces, NamespaceSpecifier.pieces]
    · have some : importSpecifiersText (isMultiline toDecl || isMultiline fromDecl)
          ((specifiers.filterMap named?).map NamedSpecifier.pieces) ≠ [] := by
        rw [importSpecifiersText, if_neg (by simpa using none)]
        simp
      rw [if_neg none]
      cases lastDefault specifiers <;> cases lastNamespace specifiers <;>
        simp [some, Specifier.pieces, NamespaceSpecifier.pieces]

theorem tokens_importSpecifiersText (multiline : Bool) {specifiers : List NamedSpecifier}
    (some : specifiers ≠ []) :
    tokens (importSpecifiersText multiline (specifiers.map NamedSpecifier.pieces)) =
      braces (specifiers.map fun specifier => (tokens specifier.imported, specifier.name)) := by
  have items : (specifiers.map NamedSpecifier.pieces).map (tokens ∘ fun text =>
      if multiline then .trivia [' ', ' '] :: text else text) =
        (specifiers.map fun specifier => (tokens specifier.imported, specifier.name)).map
          nameTokens := by
    rw [List.map_map, List.map_map]
    refine List.map_congr_left fun specifier _ => ?_
    cases multiline <;> exact tokens_named specifier
  rw [importSpecifiersText, if_neg (by simpa using some)]
  dsimp only
  rw [tokens_append, tokens_append, tokens_intercalate, List.map_map, items, braces]
  rfl

/-- The tokens of the merged text are those of a clause with up to three parts. -/
theorem tokens_mergeSpecifiers (toDecl fromDecl : Declaration) :
    tokens (mergeSpecifiers toDecl fromDecl) =
      clauseOf (lastDefault (toDecl.specifiers ++ fromDecl.specifiers))
        ((lastNamespace (toDecl.specifiers ++ fromDecl.specifiers)).map (·.name))
        (namedOf (toDecl.specifiers ++ fromDecl.specifiers)) := by
  rw [mergeSpecifiers_eq, tokens_intercalate, clauseOf, slots, mergedParts, namedOf]
  generalize toDecl.specifiers ++ fromDecl.specifiers = specifiers
  congr 1
  by_cases none : specifiers.filterMap named? = []
  · rw [none]
    cases lastDefault specifiers <;> cases lastNamespace specifiers <;>
      simp [Specifier.pieces, tokens_namespace]
  · rw [if_neg none, if_neg (by simpa using none)]
    have braces := tokens_importSpecifiersText (isMultiline toDecl || isMultiline fromDecl) none
    cases lastDefault specifiers <;> cases lastNamespace specifiers <;>
      simp [Specifier.pieces, tokens_namespace, braces]

/-- The specifiers are parts of the declaration. -/
theorem exists_pieces_eq {declaration : Declaration} {specifier : Specifier}
    (mem : specifier ∈ declaration.specifiers) :
    ∃ before behind, declaration.pieces = before ++ specifier.pieces ++ behind := by
  cases clause : declaration.clause with
  | none =>
      rw [Declaration.specifiers, clause] at mem
      cases mem
  | some parts =>
      rw [Declaration.specifiers, clause] at mem
      obtain ⟨part, inParts, isSpecifier⟩ := List.mem_filterMap.mp mem
      cases part with
      | piece p => cases isSpecifier
      | specifier s =>
          obtain rfl := Option.some.inj isSpecifier
          obtain ⟨before, behind, split⟩ := List.append_of_mem inParts
          have split' : parts = before ++ .specifier s :: behind := split
          refine ⟨declaration.keyword ++ before.flatMap Part.pieces,
            behind.flatMap Part.pieces ++ .word "from".toList :: declaration.source, ?_⟩
          rw [Declaration.pieces, Declaration.rest, clause]
          simp [split', Part.pieces]

theorem getLast?_specifier (specifier : Specifier) :
    ∃ name, specifier.pieces.getLast? = some (.word name) := by
  cases specifier with
  | default name => exact ⟨name, rfl⟩
  | namespaceSpecifier specifier => exact ⟨specifier.name, List.getLast?_concat⟩
  | named specifier => exact ⟨specifier.name, List.getLast?_concat⟩

theorem selfContained_specifier {declaration : Declaration} {specifier : Specifier}
    (wellFormed : WellFormed declaration) (mem : specifier ∈ declaration.specifiers) :
    SelfContained specifier.pieces := by
  obtain ⟨before, behind, split⟩ := exists_pieces_eq mem
  obtain ⟨name, last⟩ := getLast?_specifier specifier
  have spaced := wellFormed.spaced
  rw [split] at spaced
  refine ⟨spaced.within, ?_⟩
  intro piece isLast
  obtain rfl := Option.some.inj (last.symm.trans isLast)
  rfl

theorem selfContained_importSpecifiersText (multiline : Bool) {texts : List (List Piece)}
    (all : ∀ text ∈ texts, SelfContained text) :
    SelfContained (importSpecifiersText multiline texts) := by
  rw [importSpecifiersText]
  split
  · exact .nil
  · have isBlank : isBlank (if multiline then ['\n'] else [' ']) := by cases multiline <;> rfl
    have opening : SelfContained
        [openingBrace, .trivia (if multiline then ['\n'] else [' '])] :=
      SelfContained.append (.token rfl (by simp [openingBrace, Piece.text])) (.blank isBlank)
        (.inl (by simp [openingBrace, Piece.isWord]))
    have closing : SelfContained
        [.trivia (if multiline then ['\n'] else [' ']), closingBrace] :=
      SelfContained.append (.blank isBlank) (.token rfl (by simp [closingBrace, Piece.text]))
        (.inl (by simp [Piece.isWord]))
    refine .append (.append opening (.intercalate isBlank ?_) (.inl ?_)) closing (.inr ?_)
    · intro text mem
      obtain ⟨text', mem', rfl⟩ := List.mem_map.mp mem
      cases multiline with
      | false => exact all text' mem'
      | true =>
          exact SelfContained.append (.blank rfl) (all text' mem')
            (.inl (by simp [Piece.isWord]))
    · simp [Piece.isWord]
    · simp [Piece.isWord]

theorem selfContained_mergeSpecifiers {toDecl fromDecl : Declaration} (toWell : WellFormed toDecl)
    (fromWell : WellFormed fromDecl) : SelfContained (mergeSpecifiers toDecl fromDecl) := by
  have all : ∀ specifier ∈ toDecl.specifiers ++ fromDecl.specifiers,
      SelfContained specifier.pieces := by
    rw [List.forall_mem_append]
    exact ⟨fun _ => selfContained_specifier toWell, fun _ => selfContained_specifier fromWell⟩
  rw [mergeSpecifiers_eq]
  generalize toDecl.specifiers ++ fromDecl.specifiers = specifiers at all
  refine .intercalate rfl ?_
  rw [mergedParts, List.forall_mem_append, List.forall_mem_append]
  refine ⟨⟨?_, ?_⟩, ?_⟩
  · intro part mem
    obtain ⟨name, last, rfl⟩ := Option.map_eq_some_iff.mp (Option.mem_toList.mp mem)
    exact all _ (mem_of_lastDefault last)
  · intro part mem
    obtain ⟨specifier, last, rfl⟩ := Option.map_eq_some_iff.mp (Option.mem_toList.mp mem)
    exact all _ (mem_of_lastNamespace last)
  · split
    · exact fun _ mem => by cases mem
    · rw [List.forall_mem_singleton]
      refine selfContained_importSpecifiersText _ ?_
      intro text mem
      obtain ⟨specifier, isNamed, rfl⟩ := List.mem_map.mp mem
      exact all _ (mem_named.1 isNamed)

end Merge

/-! ## What is bound -/

section Bindings

/-- All default specifiers have the same name. -/
def OneDefault (specifiers : List Specifier) : Prop :=
  ∀ a b, .default a ∈ specifiers → .default b ∈ specifiers → a = b

def OneNamespace (specifiers : List Specifier) : Prop :=
  ∀ a b, .namespaceSpecifier a ∈ specifiers → .namespaceSpecifier b ∈ specifiers →
    a.name = b.name

/-- The bindings that are left of the specifiers. -/
def mergedBindings (specifiers : List Specifier) : List Binding :=
  bindingsOf (lastDefault specifiers) ((lastNamespace specifiers).map (·.name))
    (namedOf specifiers)

variable {specifiers : List Specifier} {binding' : Binding}

theorem mem_specifiers_of_mem (mem : binding' ∈ mergedBindings specifiers) :
    binding' ∈ specifiers.map binding := by
  rw [mergedBindings, bindingsOf, List.mem_append, List.mem_append] at mem
  obtain (mem | mem) | mem := mem
  · obtain ⟨name, last, rfl⟩ := List.mem_map.mp mem
    exact List.mem_map_of_mem (mem_of_lastDefault (Option.mem_toList.mp last))
  · obtain ⟨name, isName, rfl⟩ := List.mem_map.mp mem
    obtain ⟨specifier, last, rfl⟩ := Option.map_eq_some_iff.mp (Option.mem_toList.mp isName)
    exact List.mem_map_of_mem (mem_of_lastNamespace last)
  · obtain ⟨names, isNames, rfl⟩ := List.mem_map.mp mem
    obtain ⟨specifier, isNamed, rfl⟩ := List.mem_map.mp isNames
    exact List.mem_map_of_mem (mem_named.1 isNamed)

theorem mem_mergedBindings (oneDefault : OneDefault specifiers)
    (oneNamespace : OneNamespace specifiers) (mem : binding' ∈ specifiers.map binding) :
    binding' ∈ mergedBindings specifiers := by
  obtain ⟨specifier, inSpecifiers, rfl⟩ := List.mem_map.mp mem
  rw [mergedBindings, bindingsOf, List.mem_append, List.mem_append]
  cases specifier with
  | default name =>
      have some : lastDefault specifiers ≠ none := by
        rw [lastDefault, Ne, List.getLast?_eq_none_iff]
        exact List.ne_nil_of_mem (mem_defaults.2 inSpecifiers)
      obtain ⟨last, isLast⟩ := Option.ne_none_iff_exists'.mp some
      obtain rfl := oneDefault _ _ inSpecifiers (mem_of_lastDefault isLast)
      exact .inl (.inl (List.mem_map_of_mem (Option.mem_toList.mpr isLast)))
  | namespaceSpecifier specifier =>
      have some : lastNamespace specifiers ≠ none := by
        rw [lastNamespace, Ne, List.getLast?_eq_none_iff]
        exact List.ne_nil_of_mem (mem_namespaces.2 inSpecifiers)
      obtain ⟨last, isLast⟩ := Option.ne_none_iff_exists'.mp some
      have same := oneNamespace _ _ inSpecifiers (mem_of_lastNamespace isLast)
      refine .inl (.inr (List.mem_map.mpr ⟨last.name, ?_, ?_⟩))
      · rw [isLast]
        simp
      · rw [← same]
        rfl
  | named specifier =>
      exact .inr (List.mem_map_of_mem (List.mem_map_of_mem (mem_named.2 inSpecifiers)))

theorem lastDefault_of_mem {name : Text} (mem : .default name ∈ mergedBindings specifiers) :
    lastDefault specifiers = some name := by
  simpa [mergedBindings, bindingsOf] using mem

theorem lastNamespace_of_mem {name : Text}
    (mem : .namespaceImport name ∈ mergedBindings specifiers) :
    (lastNamespace specifiers).map (·.name) = some name := by
  simpa [mergedBindings, bindingsOf] using mem

/-- The merged bindings are those of both declarations if and only if no specifier has been
replaced by another one, and no binding has changed its kind. -/
theorem mergedBindings_iff {first second : List Specifier} {kind kind' : Kind} :
    (∀ kind'' binding', kind'' = kind ∧ binding' ∈ mergedBindings (first ++ second) ↔
      kind'' = kind ∧ binding' ∈ first.map binding ∨
        kind'' = kind' ∧ binding' ∈ second.map binding) ↔
      (second = [] ∨ kind = kind') ∧ OneDefault (first ++ second) ∧
        OneNamespace (first ++ second) := by
  constructor
  · intro same
    have kept : ∀ specifier ∈ first ++ second, binding specifier ∈
        mergedBindings (first ++ second) := by
      rw [List.forall_mem_append]
      constructor
      · intro specifier mem
        exact ((same kind _).mpr (.inl ⟨rfl, List.mem_map_of_mem mem⟩)).2
      · intro specifier mem
        exact ((same kind' _).mpr (.inr ⟨rfl, List.mem_map_of_mem mem⟩)).2
    refine ⟨?_, ?_, ?_⟩
    · cases second with
      | nil => exact .inl rfl
      | cons specifier second =>
          have bound := (same kind' (binding specifier)).mpr (.inr ⟨rfl, by simp⟩)
          exact .inr bound.1.symm
    · intro a b inA inB
      have lastA := lastDefault_of_mem (kept _ inA)
      have lastB := lastDefault_of_mem (kept _ inB)
      exact Option.some.inj (lastA.symm.trans lastB)
    · intro a b inA inB
      have lastA := lastNamespace_of_mem (kept _ inA)
      have lastB := lastNamespace_of_mem (kept _ inB)
      exact Option.some.inj (lastA.symm.trans lastB)
  · rintro ⟨kinds, oneDefault, oneNamespace⟩ kind'' binding'
    constructor
    · rintro ⟨rfl, mem⟩
      have inBoth := mem_specifiers_of_mem mem
      rw [List.map_append, List.mem_append] at inBoth
      obtain inFirst | inSecond := inBoth
      · exact .inl ⟨rfl, inFirst⟩
      · refine .inr ⟨?_, inSecond⟩
        obtain rfl | same := kinds
        · cases inSecond
        · exact same
    · rintro (⟨rfl, inFirst⟩ | ⟨rfl, inSecond⟩)
      · refine ⟨rfl, mem_mergedBindings oneDefault oneNamespace ?_⟩
        rw [List.map_append]
        exact List.mem_append_left _ inFirst
      · refine ⟨?_, mem_mergedBindings oneDefault oneNamespace ?_⟩
        · obtain rfl | same := kinds
          · cases inSecond
          · exact same.symm
        · rw [List.map_append]
          exact List.mem_append_right _ inSecond

end Bindings

end SonarJS.DuplicateImports
