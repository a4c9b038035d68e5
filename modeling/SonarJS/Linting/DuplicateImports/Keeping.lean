import SonarJS.Linting.DuplicateImports.Ranges

/-!
# Merged imports that keep every binding

The first declaration is read again with the merged specifiers in it. It binds what both
declarations have bound if the specifiers fit into one clause and the clause stands apart from
the keywords.
-/

namespace SonarJS.DuplicateImports

open Pieces UnusedImports ImportClauses

/-! ## Reading the result -/

section Reading

variable {flow : Bool} {declaration first second : Declaration} {parts : List Part}

def ending (declaration : Declaration) : List Piece :=
  if declaration.semicolon.isSome then [ImportClauses.semicolon] else []

theorem isEnd_ending (declaration : Declaration) : IsEnd (ending declaration) := by
  unfold ending
  split
  · exact .inr rfl
  · exact .inl rfl

theorem tokens_source (declaration : Declaration) :
    tokens declaration.source = .literal declaration.module :: ending declaration := by
  rw [Declaration.source, ending, tokens_append, tokens_gap, List.nil_append, tokens_literal]
  cases declaration.semicolon with
  | none => rfl
  | some gap =>
      rw [tokens_append, tokens_gap]
      rfl

theorem tokens_keyword (declaration : Declaration) :
    tokens declaration.keyword =
      .word "import".toList :: typePrefix declaration.importKind := by
  unfold Declaration.keyword Declaration.importKind
  cases declaration.type with
  | none => rfl
  | some gap =>
      rw [tokens_word, tokens_append, tokens_gap]
      rfl

/-- Without a gap in front of the module, its quotes are torn apart. -/
theorem tokens_insertion_of_nil (quotes : 2 ≤ declaration.module.length)
    (gap : declaration.gapModule = []) :
    tokens (takeText 1 declaration.source) = [.literal (declaration.module.take 1)] ∧
      tokens (dropText 1 declaration.source) =
        .literal (declaration.module.drop 1) :: ending declaration := by
  obtain ⟨rest, isSource, restTokens⟩ : ∃ rest, declaration.source =
      .literal declaration.module :: rest ∧ tokens rest = ending declaration := by
    have source := tokens_source declaration
    rw [Declaration.source, gap] at source ⊢
    exact ⟨_, rfl, (List.cons.inj source).2⟩
  have taken : takeText 1 declaration.source = [.literal (declaration.module.take 1)] := by
    rw [isSource, takeText, if_neg (by simp [Piece.text]; omega), if_neg (by simp)]
    rfl
  have dropped : dropText 1 declaration.source =
      .literal (declaration.module.drop 1) :: rest := by
    rw [isSource, dropText, if_neg (by simp [Piece.text]; omega)]
    rfl
  rw [taken, dropped, tokens_literal, tokens_literal, restTokens]
  exact ⟨rfl, rfl⟩

/-- With a gap, the module stays as it is. -/
theorem tokens_insertion_of_cons {text : Text} {gap : List Text}
    (isGap : declaration.gapModule = text :: gap)
    (nonempty : ∀ piece ∈ declaration.source, piece.text ≠ []) :
    tokens (takeText 1 declaration.source) = [] ∧
      tokens (dropText 1 declaration.source) =
        .literal declaration.module :: ending declaration := by
  obtain ⟨rest, isSource, restTokens⟩ : ∃ rest, declaration.source = .trivia text :: rest ∧
      tokens rest = .literal declaration.module :: ending declaration := by
    have source := tokens_source declaration
    rw [Declaration.source, isGap] at source ⊢
    exact ⟨_, rfl, source⟩
  rw [isSource] at nonempty
  have restNonempty : ∀ piece ∈ rest.head?, piece.text ≠ [] := by
    intro piece head
    exact nonempty piece (List.mem_cons_of_mem _ (List.mem_of_head? head))
  have length := List.length_pos_iff.mpr (nonempty _ List.mem_cons_self)
  constructor
  · rw [isSource, takeText_one (nonempty _ List.mem_cons_self) restNonempty]
    rfl
  · rw [isSource, dropText, ← restTokens]
    split
    · have one : 1 - (Piece.trivia text).text.length = 0 := by omega
      rw [one, dropText_zero restNonempty]
    · rfl

/-- Text before the module spoils the declaration. -/
theorem module_ne_of_insertion {new : List Piece} {name' namespace' : Option Text}
    {named : List (List Piece × Text)} (quotes : 2 ≤ declaration.module.length)
    (type : declaration.type = none) (isClause : tokens new = clauseOf name' namespace' named)
    (some : clauseOf name' namespace' named ≠ [])
    (nonempty : ∀ piece ∈ declaration.source, piece.text ≠ []) {meaning : Import}
    (read : readImport flow (tokens (withInsertion declaration new)) = Option.some meaning) :
    meaning.module ≠ declaration.module := by
  have keyword : tokens declaration.keyword = [.word "import".toList] := by
    rw [tokens_keyword, Declaration.importKind, type]
    rfl
  have isEnd := isEnd_ending declaration
  rw [withInsertion, tokens_append, tokens_append, tokens_append, keyword, isClause] at read
  cases gap : declaration.gapModule with
  | nil =>
      obtain ⟨taken, dropped⟩ := tokens_insertion_of_nil quotes gap
      rw [taken, dropped, List.append_assoc, List.append_assoc, List.singleton_append,
        ← List.append_assoc, readImport_append isEnd, if_neg (by simp)] at read
      split at read
      · obtain ⟨-, -, rfl⟩ := Option.map_eq_some_iff.mp read
        intro same
        have length := congrArg List.length same
        simp at length
        omega
      · cases read
  | cons text gap' =>
      obtain ⟨taken, dropped⟩ := tokens_insertion_of_cons gap nonempty
      rw [taken, dropped, List.append_nil, List.append_assoc, List.singleton_append,
        readImport_insert isEnd some] at read
      cases read

theorem pieces_of_clause (clause : declaration.clause = some parts) :
    declaration.pieces = declaration.keyword ++
      (parts.flatMap Part.pieces ++ .word "from".toList :: declaration.source) := by
  rw [Declaration.pieces, Declaration.rest, clause]

/-- A word would touch `import` or `type`. -/
theorem not_isWord_first (wellFormed : WellFormed declaration)
    (clause : declaration.clause = some parts) {piece : Piece}
    (isFirst : (parts.flatMap Part.pieces).head? = some piece) : piece.isWord = false := by
  have chain := wellFormed.spaced.chain
  rw [pieces_of_clause clause] at chain
  obtain ⟨last, isLast, isWord⟩ : ∃ last, declaration.keyword.getLast? = some last ∧
      last.isWord = true := by
    unfold Declaration.keyword
    cases declaration.type with
    | none => exact ⟨_, rfl, rfl⟩
    | some gap =>
        refine ⟨.word "type".toList, ?_, rfl⟩
        dsimp only
        rw [← List.cons_append, List.getLast?_concat]
  refine ((List.isChain_append.mp chain).2.2 last isLast piece ?_).1 isWord
  rw [List.head?_append, isFirst]
  rfl

/-- A word would touch `from`. -/
theorem not_isWord_last (wellFormed : WellFormed declaration)
    (clause : declaration.clause = some parts) {piece : Piece}
    (isLast : (parts.flatMap Part.pieces).getLast? = some piece) : piece.isWord = false := by
  have chain := wellFormed.spaced.chain
  rw [pieces_of_clause clause] at chain
  have follows := ((List.isChain_append.mp chain.right_of_append).2.2 piece isLast _ rfl).1
  by_contra isWord
  rw [Bool.not_eq_false] at isWord
  cases follows isWord

theorem first_of_readClause {piece : Piece} {rest : List Piece} {bindings : List Binding}
    (read : readClause (piece :: rest) = some bindings) (noWord : piece.isWord = false) :
    piece = ImportClauses.star ∧ (∃ name, bindings = [.namespaceImport name]) ∨
      piece = openingBrace := by
  rw [readClause_of_head (by simpa using noWord)] at read
  unfold readBindings at read
  split at read
  · rename_i name same
    obtain ⟨rfl, -⟩ := List.cons.inj same
    exact .inl ⟨rfl, name, (Option.some.inj read).symm⟩
  · rename_i same
    exact .inr (List.cons.inj same).1
  · cases read

theorem last_of_readBindings {pieces : List Piece} {bindings : List Binding}
    (read : readBindings pieces = some bindings) :
    ∃ piece, pieces.getLast? = some piece ∧ (piece.isWord ∨ piece = closingBrace) := by
  unfold readBindings at read
  split at read
  · exact ⟨_, rfl, .inl rfl⟩
  · obtain ⟨inner, rfl, -⟩ := of_readNamed read
    refine ⟨closingBrace, ?_, .inr rfl⟩
    rw [← List.cons_append, List.getLast?_concat]
  · cases read

theorem last_of_readClause {pieces : List Piece} {bindings : List Binding}
    (read : readClause pieces = some bindings) :
    ∃ piece, pieces.getLast? = some piece ∧ (piece.isWord ∨ piece = closingBrace) := by
  unfold readClause at read
  split at read
  · exact ⟨_, rfl, .inl rfl⟩
  · obtain ⟨others, readOthers, -⟩ := Option.map_eq_some_iff.mp read
    obtain ⟨piece, isLast, kind⟩ := last_of_readBindings readOthers
    refine ⟨piece, ?_, kind⟩
    rw [List.getLast?_cons_of_ne_nil (List.cons_ne_nil _ _), List.getLast?_cons_of_ne_nil, isLast]
    rintro rfl
    cases isLast
  · exact last_of_readBindings read

/-- A clause begins and ends with different pieces. -/
theorem exists_borders (wellFormed : WellFormed declaration)
    (clause : declaration.clause = some parts) :
    ∃ first inner last, parts.flatMap Part.pieces = first :: (inner ++ [last]) := by
  have read := wellFormed.clause parts clause
  cases pieces : parts.flatMap Part.pieces with
  | nil =>
      rw [pieces] at read
      cases read
  | cons first rest =>
      obtain rfl | ⟨inner, last, rfl⟩ := List.eq_nil_or_concat' rest
      · have noWord := not_isWord_first wellFormed clause (by rw [pieces]; rfl)
        rw [pieces] at read
        cases first with
        | word text => cases noWord
        | literal text => cases read
        | trivia text => cases read
        | punctuator text =>
            rw [tokens_punctuator, tokens_nil] at read
            obtain ⟨piece, isLast, kind⟩ := last_of_readClause read
            obtain rfl : .punctuator text = piece := Option.some.inj isLast
            obtain isWord | isBrace := kind
            · cases isWord
            · rw [isBrace] at read
              cases read
      · exact ⟨first, inner, last, rfl⟩

def startsBlank (piece : Piece) : Bool := piece.text.head?.any Numbers.isWhiteSpace

def endsBlank (piece : Piece) : Bool := piece.text.getLast?.any Numbers.isWhiteSpace

theorem isTrivia_single (c : Char) : isBlank [c] ∨ isComment [c] ↔ Numbers.isWhiteSpace c := by
  have noComment : isComment [c] = false := by
    unfold isComment
    split
    · rename_i same
      cases same
    · rename_i same
      cases same
    · rfl
  simp [isBlank, noComment]

theorem firstCharacter_trivia {text : Text} (some : text ≠ []) :
    ∃ c, firstCharacter (.trivia text) = .trivia [c] ∧
      startsBlank (.trivia text) = Numbers.isWhiteSpace c := by
  obtain ⟨c, rest, rfl⟩ := List.exists_cons_of_ne_nil some
  exact ⟨c, by simp [firstCharacter, Piece.cut], rfl⟩

theorem lastCharacter_trivia {text : Text} (some : text ≠ []) :
    ∃ c, lastCharacter (.trivia text) = .trivia [c] ∧
      endsBlank (.trivia text) = Numbers.isWhiteSpace c := by
  obtain rfl | ⟨rest, c, rfl⟩ := List.eq_nil_or_concat' text
  · exact absurd rfl some
  · exact ⟨c, by simp [lastCharacter, Piece.cut, Piece.text], by simp [endsBlank, Piece.text]⟩

/-- What is kept of a piece at the border of a clause: the token that it is, or a character. -/
def Kept (kept : Piece) (token : Prop) (blank : Bool) : Prop :=
  (∃ text, kept = .punctuator text ∧ text ≠ [] ∧ token) ∨
    ∃ c, kept = .trivia [c] ∧ ¬token ∧ blank = Numbers.isWhiteSpace c

theorem Kept.selfContained_iff {kept : Piece} {token : Prop} {blank : Bool}
    (isKept : Kept kept token blank) : SelfContained [kept] ↔ (token ∨ blank) := by
  obtain ⟨text, rfl, some, token⟩ | ⟨c, rfl, noToken, rfl⟩ := isKept
  · simp only [token, true_or, iff_true]
    exact .token rfl some
  · simp only [noToken, false_or]
    constructor
    · intro selfContained
      exact (isTrivia_single c).mp (selfContained.isTrivia [c] (by simp))
    · intro isWhiteSpace
      exact .blank (by simpa [isBlank] using isWhiteSpace)

theorem Kept.selfContained {kept : Piece} {token : Prop} {blank : Bool}
    (isKept : Kept kept token blank) (spaced : WellSpaced [kept]) : SelfContained [kept] := by
  refine ⟨spaced, ?_⟩
  intro piece isLast
  obtain rfl := Option.some.inj isLast
  obtain ⟨text, rfl, -, -⟩ | ⟨c, rfl, -, -⟩ := isKept
  · rfl
  · unfold isLineComment
    split
    · rename_i same
      cases same
    · rfl

theorem Kept.isWord_eq {kept : Piece} {token : Prop} {blank : Bool}
    (isKept : Kept kept token blank) : kept.isWord = false := by
  obtain ⟨text, rfl, -, -⟩ | ⟨c, rfl, -, -⟩ := isKept <;> rfl

theorem selfContained_keyword (wellFormed : WellFormed declaration) :
    SelfContained declaration.keyword := by
  have spaced := wellFormed.spaced
  rw [Declaration.pieces, ← List.nil_append declaration.keyword] at spaced
  refine ⟨spaced.within, ?_⟩
  obtain ⟨text, isLast⟩ : ∃ text, declaration.keyword.getLast? = some (.word text) := by
    unfold Declaration.keyword
    cases declaration.type with
    | none => exact ⟨_, rfl⟩
    | some gap =>
        refine ⟨"type".toList, ?_⟩
        dsimp only
        rw [← List.cons_append, List.getLast?_concat]
  intro piece isLast'
  obtain rfl := Option.some.inj (isLast.symm.trans isLast')
  rfl

/-- With both borders kept as tokens or white space, the declaration is in pieces again. -/
theorem wellSpaced_withClause (wellFormed : WellFormed declaration)
    (clause : declaration.clause = some parts) {first last : Piece} {token token' : Prop}
    {new : List Piece} (keptFirst : Kept (firstCharacter first) token (startsBlank first))
    (keptLast : Kept (lastCharacter last) token' (endsBlank last)) (isNew : SelfContained new) :
    WellSpaced (withClause declaration first last new) ↔
      (token ∨ startsBlank first) ∧ (token' ∨ endsBlank last) := by
  rw [← keptFirst.selfContained_iff, ← keptLast.selfContained_iff]
  constructor
  · intro spaced
    have front : withClause declaration first last new = declaration.keyword ++
        [firstCharacter first] ++ (new ++ lastCharacter last ::
          .word "from".toList :: declaration.source) := by simp [withClause]
    have behind : withClause declaration first last new = (declaration.keyword ++
        firstCharacter first :: new) ++ [lastCharacter last] ++
          .word "from".toList :: declaration.source := by simp [withClause]
    constructor
    · rw [front] at spaced
      exact keptFirst.selfContained spaced.within
    · rw [behind] at spaced
      exact keptLast.selfContained spaced.within
  · rintro ⟨isFirst, isLast⟩
    have source : WellSpaced (.word "from".toList :: declaration.source) := by
      have spaced := wellFormed.spaced
      rw [pieces_of_clause clause, ← List.append_assoc,
        ← List.append_nil (.word "from".toList :: declaration.source), ← List.append_assoc]
        at spaced
      exact spaced.within
    have split : withClause declaration first last new = declaration.keyword ++
        [firstCharacter first] ++ new ++ [lastCharacter last] ++
          .word "from".toList :: declaration.source := by simp [withClause]
    have noWordFirst := keptFirst.isWord_eq
    have noWordLast := keptLast.isWord_eq
    rw [split]
    refine .append (.append (.append (.append (selfContained_keyword wellFormed) isFirst
      (.inr ?_)) isNew (.inl ?_)) isLast (.inr ?_)) source (.inl ?_)
    · simpa using noWordFirst
    · simpa using noWordFirst
    · simpa using noWordLast
    · intro piece isPiece
      rw [List.getLast?_concat] at isPiece
      obtain rfl := Option.some.inj isPiece
      exact noWordLast

/-- The first piece of a clause is trivia, a star or a brace. -/
theorem kept_first (wellFormed : WellFormed declaration) (clause : declaration.clause = some parts)
    {first : Piece} {rest : List Piece} (split : parts.flatMap Part.pieces = first :: rest) :
    Kept (firstCharacter first) first.isToken (startsBlank first) ∧
      (tokens [firstCharacter first] = [] ∧ first.isToken = false ∨
        tokens [firstCharacter first] = [ImportClauses.star] ∧ first = ImportClauses.star ∧
          (lastNamespace declaration.specifiers).isSome ∨
        tokens [firstCharacter first] = [openingBrace] ∧ first = openingBrace) := by
  have read := wellFormed.clause parts clause
  have noWord := not_isWord_first wellFormed clause (by rw [split]; rfl)
  have some : first.text ≠ [] := by
    refine wellFormed.spaced.nonempty first ?_
    rw [pieces_of_clause clause, split]
    simp
  rw [split] at read
  cases first with
  | word text => cases noWord
  | literal text => cases read
  | trivia text =>
      have nonempty : text ≠ [] := some
      obtain ⟨c, isFirst, blank⟩ := firstCharacter_trivia nonempty
      rw [isFirst]
      exact ⟨.inr ⟨c, rfl, by simp [Piece.isToken], blank⟩, .inl ⟨rfl, rfl⟩⟩
  | punctuator text =>
      rw [tokens_punctuator] at read
      obtain ⟨isStar, name, bindings⟩ | isBrace := first_of_readClause read rfl
      · rw [isStar, firstCharacter_of_length rfl]
        refine ⟨.inl ⟨['*'], rfl, by simp, rfl⟩, .inr (.inl ⟨rfl, rfl, ?_⟩)⟩
        obtain ⟨specifier, specifiers, isNamespace⟩ := List.map_eq_singleton_iff.mp bindings
        rw [specifiers]
        cases specifier with
        | namespaceSpecifier specifier => rfl
        | default name => cases isNamespace
        | named specifier => cases isNamespace
      · rw [isBrace, firstCharacter_of_length rfl]
        exact ⟨.inl ⟨['{'], rfl, by simp, rfl⟩, .inr (.inr ⟨rfl, rfl⟩)⟩

/-- The last piece of a clause is trivia or a brace. -/
theorem kept_last (wellFormed : WellFormed declaration) (clause : declaration.clause = some parts)
    {last : Piece} {rest : List Piece} (split : parts.flatMap Part.pieces = rest ++ [last]) :
    Kept (lastCharacter last) last.isToken (endsBlank last) ∧
      (tokens [lastCharacter last] = [] ∧ last.isToken = false ∨
        tokens [lastCharacter last] = [closingBrace] ∧ last = closingBrace) := by
  have read := wellFormed.clause parts clause
  have noWord := not_isWord_last wellFormed clause (by rw [split, List.getLast?_concat])
  have some : last.text ≠ [] := by
    refine wellFormed.spaced.nonempty last ?_
    rw [pieces_of_clause clause, split]
    simp
  rw [split, tokens_append] at read
  obtain ⟨piece, isLast, kind⟩ := last_of_readClause read
  by_cases isToken : last.isToken
  · have single : tokens [last] = [last] := List.filter_cons_of_pos isToken
    rw [single, List.getLast?_concat] at isLast
    obtain rfl := Option.some.inj isLast
    rw [noWord] at kind
    obtain rfl : last = closingBrace := by simpa using kind
    rw [lastCharacter_of_length rfl]
    exact ⟨.inl ⟨['}'], rfl, by simp, rfl⟩, .inr ⟨rfl, rfl⟩⟩
  · cases last with
    | trivia text =>
        have nonempty : text ≠ [] := some
        obtain ⟨c, isLast, blank⟩ := lastCharacter_trivia nonempty
        rw [isLast]
        exact ⟨.inr ⟨c, rfl, by simp [Piece.isToken], blank⟩, .inl ⟨rfl, rfl⟩⟩
    | _ => exact absurd rfl isToken

/-- The tokens of the declaration with another clause. -/
theorem tokens_withClause (declaration : Declaration) (first last : Piece) (new : List Piece) :
    tokens (withClause declaration first last new) = .word "import".toList ::
      ((typePrefix declaration.importKind ++
        (tokens [firstCharacter first] ++ tokens new ++ tokens [lastCharacter last])) ++
          .word "from".toList :: .literal declaration.module :: ending declaration) := by
  have split : withClause declaration first last new = declaration.keyword ++
      ([firstCharacter first] ++ new ++ [lastCharacter last] ++
        .word "from".toList :: declaration.source) := by simp [withClause]
  rw [split, tokens_append, tokens_keyword, tokens_append, tokens_append, tokens_append,
    tokens_word, tokens_source]
  simp only [List.cons_append, List.append_assoc]

end Reading

/-! ## When every binding is kept -/

/-- The declaration binds what both declarations have bound, each name to the same export. -/
def Keeps (flow : Bool) (first second : Declaration) (declaration : List Piece) : Prop :=
  ∃ meaning : Import, Reads flow declaration meaning ∧ meaning.module = first.module ∧
    ∀ kind binding', kind = meaning.kind ∧ binding' ∈ meaning.bindings ↔
      kind = first.importKind ∧ binding' ∈ first.specifiers.map binding ∨
        kind = second.importKind ∧ binding' ∈ second.specifiers.map binding

/-- There is room for the specifiers in one clause. -/
structure OneClause (flow : Bool) (kind : Kind) (specifiers : List Specifier) : Prop where
  oneDefault : OneDefault specifiers
  oneNamespace : OneNamespace specifiers
  alone : ∀ a b, .namespaceSpecifier a ∈ specifiers → .named b ∉ specifiers
  type : kind = .type → flow ∨ ∀ name, .default name ∈ specifiers →
    ∀ specifier ∈ specifiers, ∃ name, specifier = .default name

/-- The specifiers fit into one clause, which has white space around it; or there are none, and
braces touch the keywords. -/
def Mergeable (flow : Bool) (first second : Declaration) : Prop :=
  (second.specifiers = [] ∨ first.importKind = second.importKind) ∧
    match first.clause with
    | none => second.specifiers = []
    | some parts =>
      if first.specifiers ++ second.specifiers = [] then
        (∀ piece ∈ (parts.flatMap Part.pieces).head?, piece.isToken) ∧
          ∀ piece ∈ (parts.flatMap Part.pieces).getLast?, piece.isToken
      else
        OneClause flow first.importKind (first.specifiers ++ second.specifiers) ∧
          (∀ piece ∈ (parts.flatMap Part.pieces).head?, startsBlank piece) ∧
            ∀ piece ∈ (parts.flatMap Part.pieces).getLast?, endsBlank piece

/-- A statement can end where a line break, a brace, a semicolon or nothing follows. -/
def endsStatement : List Piece → Bool
  | [] => true
  | .trivia text :: rest => text.any isLineBreak || endsStatement rest
  | piece :: _ => piece = closingBrace || piece = semicolon

/-- The declaration is ended by a semicolon or by what follows. -/
def Terminated (declaration : Declaration) (behind : List Piece) : Prop :=
  declaration.semicolon.isSome ∨ endsStatement behind

section Keeps

variable {flow : Bool} {first second : Declaration} {specifiers : List Specifier}

theorem lastDefault_eq_none :
    lastDefault specifiers = none ↔ ∀ name, .default name ∉ specifiers := by
  rw [lastDefault, List.getLast?_eq_none_iff, List.eq_nil_iff_forall_not_mem]
  simp only [mem_defaults]

theorem lastNamespace_eq_none :
    lastNamespace specifiers = none ↔ ∀ a, .namespaceSpecifier a ∉ specifiers := by
  rw [lastNamespace, List.getLast?_eq_none_iff, List.eq_nil_iff_forall_not_mem]
  simp only [mem_namespaces]

theorem namedOf_eq_nil : namedOf specifiers = [] ↔ ∀ a, .named a ∉ specifiers := by
  rw [namedOf, List.map_eq_nil_iff, List.eq_nil_iff_forall_not_mem]
  simp only [mem_named]

/-- There are no specifiers if there are none of any kind. -/
theorem specifiers_eq_nil (noDefault : lastDefault specifiers = none)
    (noNamespace : lastNamespace specifiers = none) (noNamed : namedOf specifiers = []) :
    specifiers = [] := by
  rw [List.eq_nil_iff_forall_not_mem]
  intro specifier mem
  cases specifier with
  | default name => exact lastDefault_eq_none.1 noDefault name mem
  | namespaceSpecifier a => exact lastNamespace_eq_none.1 noNamespace a mem
  | named a => exact namedOf_eq_nil.1 noNamed a mem

theorem isName_of_mem_namedOf (all : ∀ specifier ∈ specifiers, IsSpecifier specifier) :
    ∀ names ∈ namedOf specifiers, ∀ piece ∈ names.1, IsName piece := by
  intro names mem piece inNames
  obtain ⟨specifier, isNamed, rfl⟩ := List.mem_map.mp mem
  obtain ⟨inImported, isToken⟩ := List.mem_filter.mp inNames
  exact ⟨isToken, all _ (mem_named.mp isNamed) piece inImported⟩

/-- The specifiers fit if they fill the parts of a clause. -/
theorem fits_iff : Fits (lastDefault specifiers) ((lastNamespace specifiers).map (·.name))
      (namedOf specifiers) ↔
    specifiers ≠ [] ∧ ∀ a b, .namespaceSpecifier a ∈ specifiers → .named b ∉ specifiers := by
  refine and_congr ⟨?_, ?_⟩ ⟨?_, ?_⟩
  · rintro some rfl
    simp [lastDefault, lastNamespace, namedOf] at some
  · intro some
    by_contra none
    simp only [not_or, Bool.not_eq_true, Option.isSome_eq_false_iff, Option.isNone_iff_eq_none,
      Option.map_eq_none_iff, Ne, not_not] at none
    exact some (specifiers_eq_nil none.1 none.2.1 none.2.2)
  · rintro alone a b isNamespace isNamed
    rw [Option.map_eq_none_iff, lastNamespace_eq_none, namedOf_eq_nil] at alone
    obtain noNamespace | noNamed := alone
    · exact noNamespace a isNamespace
    · exact noNamed b isNamed
  · intro alone
    rw [Option.map_eq_none_iff, lastNamespace_eq_none, namedOf_eq_nil]
    by_contra both
    obtain ⟨someNamespace, someNamed⟩ := not_or.mp both
    obtain ⟨a, isNamespace⟩ := not_forall_not.mp someNamespace
    obtain ⟨b, isNamed⟩ := not_forall_not.mp someNamed
    exact alone a b isNamespace isNamed

/-- A default specifier is mixed with others if not all are default specifiers. -/
theorem isMixed_iff : isMixed (clauseOf (lastDefault specifiers)
      ((lastNamespace specifiers).map (·.name)) (namedOf specifiers)) = false ↔
    ∀ name, .default name ∈ specifiers →
      ∀ specifier ∈ specifiers, ∃ name, specifier = .default name := by
  rw [isMixed_clauseOf]
  constructor
  · intro notMixed name isDefault specifier mem
    have some : (lastDefault specifiers).isSome := by
      rw [Option.isSome_iff_ne_none, Ne, lastDefault_eq_none]
      exact fun none => none name isDefault
    rw [some, Bool.true_and, Bool.or_eq_false_iff, Option.isSome_map,
      Option.isSome_eq_false_iff, Option.isNone_iff_eq_none, lastNamespace_eq_none,
      Bool.not_eq_false', List.isEmpty_iff, namedOf_eq_nil] at notMixed
    cases specifier with
    | default name => exact ⟨name, rfl⟩
    | namespaceSpecifier a => exact absurd mem (notMixed.1 a)
    | named a => exact absurd mem (notMixed.2 a)
  · intro all
    by_contra isMixed
    rw [Bool.not_eq_false, Bool.and_eq_true, Bool.or_eq_true, Option.isSome_map,
      Bool.not_eq_true', List.isEmpty_eq_false_iff] at isMixed
    obtain ⟨some, others⟩ := isMixed
    obtain ⟨name, isDefault⟩ := Option.isSome_iff_exists.mp some
    have allDefault := all name (mem_of_lastDefault isDefault)
    obtain someNamespace | someNamed := others
    · obtain ⟨a, isNamespace⟩ := Option.isSome_iff_exists.mp someNamespace
      obtain ⟨name, same⟩ := allDefault _ (mem_of_lastNamespace isNamespace)
      cases same
    · rw [Ne, namedOf_eq_nil] at someNamed
      obtain ⟨a, isNamed⟩ := not_forall_not.mp someNamed
      obtain ⟨name, same⟩ := allDefault _ isNamed
      cases same

theorem lastNamespace_append (isSome : (lastNamespace first.specifiers).isSome) :
    (lastNamespace (first.specifiers ++ second.specifiers)).isSome := by
  obtain ⟨a, isNamespace⟩ := Option.isSome_iff_exists.mp isSome
  rw [Option.isSome_iff_ne_none, Ne, lastNamespace_eq_none]
  exact fun none => none a (List.mem_append_left _ (mem_of_lastNamespace isNamespace))

/-- There is a clause if there are specifiers. -/
theorem clauseOf_eq_nil : clauseOf (lastDefault specifiers)
    ((lastNamespace specifiers).map (·.name)) (namedOf specifiers) = [] ↔ specifiers = [] := by
  constructor
  · intro nothing
    refine specifiers_eq_nil ?_ ?_ ?_
    · by_contra some
      obtain ⟨name, isDefault⟩ := Option.ne_none_iff_exists'.mp some
      rw [isDefault] at nothing
      cases nothing
    · by_contra some
      have mem := @star_mem (lastDefault specifiers) _ (namedOf specifiers)
        ((Option.isSome_map (f := (·.name))).trans (Option.isSome_iff_ne_none.mpr some))
      rw [nothing] at mem
      cases mem
    · by_contra some
      have mem := @openingBrace_mem (lastDefault specifiers)
        ((lastNamespace specifiers).map (·.name)) _ some
      rw [nothing] at mem
      cases mem
  · rintro rfl
    rfl

/-- The clause that is left, with the characters around it. -/
def clauseAround (first second : Declaration) (opening closing : List Piece) : List Piece :=
  opening ++ clauseOf (lastDefault (first.specifiers ++ second.specifiers))
    ((lastNamespace (first.specifiers ++ second.specifiers)).map (·.name))
      (namedOf (first.specifiers ++ second.specifiers)) ++ closing

theorem readImport_withClause (piece piece' : Piece) :
    readImport flow (tokens (withClause first piece piece' (mergeSpecifiers first second))) =
      (readKind flow (typePrefix first.importKind ++ clauseAround first second
          (tokens [firstCharacter piece]) (tokens [lastCharacter piece']))).map
        fun read => ⟨read.1, read.2, first.module⟩ := by
  rw [tokens_withClause, readImport_from (isEnd_ending first), tokens_mergeSpecifiers,
    clauseAround]

/-- If nothing is left behind `type`, this becomes a name. -/
theorem not_keeps_type {piece piece' : Piece} (kind : first.importKind = .type)
    (nothing : clauseAround first second (tokens [firstCharacter piece])
      (tokens [lastCharacter piece']) = []) :
    ¬Keeps flow first second
      (withClause first piece piece' (mergeSpecifiers first second)) := by
  rintro ⟨meaning, ⟨-, read⟩, -, same⟩
  have noClause : clauseOf (lastDefault (first.specifiers ++ second.specifiers))
      ((lastNamespace (first.specifiers ++ second.specifiers)).map (·.name))
        (namedOf (first.specifiers ++ second.specifiers)) = [] := by
    rw [clauseAround, List.append_eq_nil_iff, List.append_eq_nil_iff] at nothing
    exact nothing.1.2
  rw [readImport_withClause, nothing, kind] at read
  obtain rfl : (⟨.value, [.default "type".toList], first.module⟩ : Import) = meaning :=
    Option.some.inj read
  have none := clauseOf_eq_nil.1 noClause
  obtain ⟨noFirst, noSecond⟩ := List.append_eq_nil_iff.mp none
  have bound := (same .value (.default "type".toList)).mp ⟨rfl, by simp⟩
  simp [noFirst, noSecond] at bound

theorem opening_cases {parts : List Part} (wellFormed : WellFormed first)
    (clause : first.clause = some parts) {piece : Piece} {rest : List Piece}
    (split : parts.flatMap Part.pieces = piece :: rest) :
    tokens [firstCharacter piece] = [] ∨
      tokens [firstCharacter piece] = [ImportClauses.star] ∧
        ((lastNamespace (first.specifiers ++ second.specifiers)).map (·.name)).isSome ∨
      tokens [firstCharacter piece] = [openingBrace] := by
  obtain ⟨nothing, -⟩ | ⟨star, -, isSome⟩ | ⟨brace, -⟩ := (kept_first wellFormed clause split).2
  · exact .inl nothing
  · exact .inr (.inl ⟨star, Option.isSome_map.trans (lastNamespace_append isSome)⟩)
  · exact .inr (.inr brace)

section Clause

variable {parts : List Part} {piece piece' : Piece} {inner : List Piece}

theorem isName_of_wellFormed (wellFormed : WellFormed first) (wellFormed' : WellFormed second) :
    ∀ names ∈ namedOf (first.specifiers ++ second.specifiers), ∀ piece ∈ names.1,
      IsName piece := by
  refine isName_of_mem_namedOf ?_
  rw [List.forall_mem_append]
  exact ⟨wellFormed.isSpecifier, wellFormed'.isSpecifier⟩

/-- What the declaration has been read as. -/
theorem of_keeps_withClause (wellFormed : WellFormed first)
    (clause : first.clause = some parts)
    (split : parts.flatMap Part.pieces = piece :: (inner ++ [piece']))
    (keeps : Keeps flow first second
      (withClause first piece piece' (mergeSpecifiers first second))) :
    ∃ bindings, readClause (clauseAround first second (tokens [firstCharacter piece])
        (tokens [lastCharacter piece'])) = some bindings ∧
      (first.importKind = .type → flow ∨ isMixed (clauseAround first second
        (tokens [firstCharacter piece]) (tokens [lastCharacter piece'])) = false) ∧
      ∀ kind binding', kind = first.importKind ∧ binding' ∈ bindings ↔
        kind = first.importKind ∧ binding' ∈ first.specifiers.map binding ∨
          kind = second.importKind ∧ binding' ∈ second.specifiers.map binding := by
  have isOpening := @opening_cases first second parts wellFormed clause piece _ split
  have isClosing := (kept_last wellFormed clause (split.trans (List.cons_append ..).symm)).2
  have nonempty (kind : first.importKind = .type) : clauseAround first second
      (tokens [firstCharacter piece]) (tokens [lastCharacter piece']) ≠ [] :=
    fun nothing => not_keeps_type kind nothing keeps
  obtain ⟨meaning, ⟨-, read⟩, -, same⟩ := keeps
  rw [readImport_withClause] at read
  obtain ⟨⟨kind, bindings⟩, isRead, rfl⟩ := Option.map_eq_some_iff.mp read
  rw [clauseAround, readKind_around (isOpening.imp_right (Or.imp_left And.left))
    (isClosing.imp And.left And.left) nonempty, ← clauseAround] at isRead
  split at isRead
  · cases isRead
  · rename_i notMixed
    obtain ⟨bindings', isClause, pair⟩ := Option.map_eq_some_iff.mp isRead
    obtain ⟨rfl, rfl⟩ := Prod.mk.inj pair
    refine ⟨bindings', isClause, ?_, same⟩
    intro isType
    by_contra mixed
    obtain ⟨noFlow, isMixed⟩ := not_or.mp mixed
    exact notMixed ⟨isType, by simpa using isMixed, by simpa using noFlow⟩

/-- In braces a default import would be another import. -/
theorem noDefault_of_braces {bindings : List Binding}
    (isClause : readClause ([openingBrace] ++
      clauseOf (lastDefault (first.specifiers ++ second.specifiers)) none [] ++
        [closingBrace]) = some bindings)
    (same : ∀ kind binding', kind = first.importKind ∧ binding' ∈ bindings ↔
      kind = first.importKind ∧ binding' ∈ first.specifiers.map binding ∨
        kind = second.importKind ∧ binding' ∈ second.specifiers.map binding) :
    lastDefault (first.specifiers ++ second.specifiers) = none := by
  by_contra some
  obtain ⟨name, isDefault⟩ := Option.ne_none_iff_exists'.mp some
  rw [isDefault] at isClause
  obtain rfl : [.named [] name] = bindings := Option.some.inj isClause
  have bound : ∃ kind, kind = first.importKind ∧ .default name ∈ [Binding.named [] name] := by
    obtain inFirst | inSecond := List.mem_append.mp (mem_of_lastDefault isDefault)
    · exact ⟨_, (same _ _).mpr (.inl ⟨rfl, List.mem_map_of_mem inFirst⟩)⟩
    · exact ⟨_, (same _ _).mpr (.inr ⟨rfl, List.mem_map_of_mem inSecond⟩)⟩
  obtain ⟨-, -, mem⟩ := bound
  cases List.mem_singleton.mp mem

theorem clauseAround_nil : clauseAround first second [] [] =
    clauseOf (lastDefault (first.specifiers ++ second.specifiers))
      ((lastNamespace (first.specifiers ++ second.specifiers)).map (·.name))
        (namedOf (first.specifiers ++ second.specifiers)) := by
  rw [clauseAround, List.nil_append, List.append_nil]

theorem mergeable_of_keeps (wellFormed : WellFormed first) (wellFormed' : WellFormed second)
    (clause : first.clause = some parts)
    (split : parts.flatMap Part.pieces = piece :: (inner ++ [piece']))
    (keeps : Keeps flow first second
      (withClause first piece piece' (mergeSpecifiers first second))) :
    (second.specifiers = [] ∨ first.importKind = second.importKind) ∧
      if first.specifiers ++ second.specifiers = [] then piece.isToken ∧ piece'.isToken
      else OneClause flow first.importKind (first.specifiers ++ second.specifiers) ∧
        startsBlank piece ∧ endsBlank piece' := by
  have keptFirst := kept_first wellFormed clause split
  have keptLast := kept_last wellFormed clause (split.trans (List.cons_append ..).symm)
  have names := isName_of_wellFormed wellFormed wellFormed'
  have borders := keeps
  obtain ⟨-, ⟨spaced, -⟩, -, -⟩ := borders
  rw [wellSpaced_withClause wellFormed clause keptFirst.1 keptLast.1
    (selfContained_mergeSpecifiers wellFormed wellFormed')] at spaced
  obtain ⟨bindings, isClause, mixed, same⟩ := of_keeps_withClause wellFormed clause split keeps
  have around := of_readClause_around isClause (opening_cases wellFormed clause split)
    (keptLast.2.imp And.left fun brace => ⟨closingBrace, brace.1, rfl⟩)
  obtain ⟨noOpening, noClosing, fits⟩ | ⟨opening, closing, noNamespace, noNamed⟩ := around
  · -- a clause of its own
    obtain ⟨some, alone⟩ := fits_iff.1 fits
    have isAround : clauseAround first second (tokens [firstCharacter piece])
        (tokens [lastCharacter piece']) =
          clauseOf (lastDefault (first.specifiers ++ second.specifiers))
            ((lastNamespace (first.specifiers ++ second.specifiers)).map (·.name))
              (namedOf (first.specifiers ++ second.specifiers)) := by
      rw [noOpening, noClosing, clauseAround_nil]
    rw [isAround, readClause_clauseOf fits names] at isClause
    obtain rfl := Option.some.inj isClause
    obtain ⟨kinds, oneDefault, oneNamespace⟩ := mergedBindings_iff.mp same
    have firstTrivia : piece.isToken = false := by
      rw [noOpening] at keptFirst
      obtain ⟨-, notToken⟩ | ⟨isStar, -⟩ | ⟨isBrace, -⟩ := keptFirst.2
      · exact notToken
      · cases isStar
      · cases isBrace
    have lastTrivia : piece'.isToken = false := by
      rw [noClosing] at keptLast
      obtain ⟨-, notToken⟩ | ⟨isBrace, -⟩ := keptLast.2
      · exact notToken
      · cases isBrace
    refine ⟨kinds, ?_⟩
    rw [if_neg some]
    refine ⟨⟨oneDefault, oneNamespace, alone, ?_⟩, ?_, ?_⟩
    · rw [isAround] at mixed
      exact fun isType => (mixed isType).imp_right isMixed_iff.1
    · simpa [firstTrivia] using spaced.1
    · simpa [lastTrivia] using spaced.2
  · -- braces around what is left
    have isAround : clauseAround first second (tokens [firstCharacter piece])
        (tokens [lastCharacter piece']) = [openingBrace] ++
          clauseOf (lastDefault (first.specifiers ++ second.specifiers)) none [] ++
            [closingBrace] := by
      rw [clauseAround, opening, closing, noNamespace, noNamed]
    rw [isAround] at isClause
    have noDefault := noDefault_of_braces isClause same
    have none := specifiers_eq_nil noDefault (by simpa using noNamespace) noNamed
    obtain ⟨noFirst, noSecond⟩ := List.append_eq_nil_iff.mp none
    refine ⟨.inl noSecond, ?_⟩
    rw [if_pos none]
    rw [opening] at keptFirst
    rw [closing] at keptLast
    constructor
    · obtain ⟨nothing, -⟩ | ⟨isStar, -⟩ | ⟨-, rfl⟩ := keptFirst.2
      · cases nothing
      · cases isStar
      · rfl
    · obtain ⟨nothing, -⟩ | ⟨-, rfl⟩ := keptLast.2
      · cases nothing
      · rfl

/-- Braces with nothing in between are kept if nothing is imported. -/
theorem keeps_of_braces (wellFormed : WellFormed first) (wellFormed' : WellFormed second)
    (clause : first.clause = some parts)
    (split : parts.flatMap Part.pieces = piece :: (inner ++ [piece']))
    (none : first.specifiers ++ second.specifiers = []) (isFirst : piece.isToken = true)
    (isLast : piece'.isToken = true) :
    Keeps flow first second
      (withClause first piece piece' (mergeSpecifiers first second)) := by
  have keptFirst := kept_first wellFormed clause split
  have keptLast := kept_last wellFormed clause (split.trans (List.cons_append ..).symm)
  have spaced := wellSpaced_withClause wellFormed clause keptFirst.1 keptLast.1
    (selfContained_mergeSpecifiers wellFormed wellFormed')
  have read := @readImport_withClause flow first second piece piece'
  obtain ⟨noFirst, noSecond⟩ := List.append_eq_nil_iff.mp none
  obtain opening : tokens [firstCharacter piece] = [openingBrace] := by
    obtain ⟨-, notToken⟩ | ⟨-, -, isSome⟩ | ⟨isBrace, -⟩ := keptFirst.2
    · rw [isFirst] at notToken
      cases notToken
    · rw [noFirst] at isSome
      cases isSome
    · exact isBrace
  obtain closing : tokens [lastCharacter piece'] = [closingBrace] := by
    obtain ⟨-, notToken⟩ | ⟨isBrace, -⟩ := keptLast.2
    · rw [isLast] at notToken
      cases notToken
    · exact isBrace
  have isAround : clauseAround first second [openingBrace] [closingBrace] =
      [openingBrace, closingBrace] := by
    rw [clauseAround, none]
    rfl
  rw [opening, closing, isAround] at read
  refine ⟨⟨first.importKind, [], first.module⟩,
    ⟨spaced.mpr ⟨.inl isFirst, .inl isLast⟩, ?_⟩, rfl, ?_⟩
  · rw [read]
    cases first.importKind with
    | value => rfl
    | type => cases flow <;> rfl
  · simp [noFirst, noSecond]

/-- One clause for all specifiers is kept between blanks. -/
theorem keeps_of_oneClause (wellFormed : WellFormed first) (wellFormed' : WellFormed second)
    (clause : first.clause = some parts)
    (split : parts.flatMap Part.pieces = piece :: (inner ++ [piece']))
    (kinds : second.specifiers = [] ∨ first.importKind = second.importKind)
    (some : first.specifiers ++ second.specifiers ≠ [])
    (oneClause : OneClause flow first.importKind (first.specifiers ++ second.specifiers))
    (isFirst : startsBlank piece) (isLast : endsBlank piece') :
    Keeps flow first second
      (withClause first piece piece' (mergeSpecifiers first second)) := by
  have keptFirst := kept_first wellFormed clause split
  have keptLast := kept_last wellFormed clause (split.trans (List.cons_append ..).symm)
  have names := isName_of_wellFormed wellFormed wellFormed'
  have spaced := wellSpaced_withClause wellFormed clause keptFirst.1 keptLast.1
    (selfContained_mergeSpecifiers wellFormed wellFormed')
  have read := @readImport_withClause flow first second piece piece'
  have opening : tokens [firstCharacter piece] = [] := by
    obtain ⟨nothing, -⟩ | ⟨-, rfl, -⟩ | ⟨-, rfl⟩ := keptFirst.2
    · exact nothing
    · cases isFirst
    · cases isFirst
  have closing : tokens [lastCharacter piece'] = [] := by
    obtain ⟨nothing, -⟩ | ⟨-, rfl⟩ := keptLast.2
    · exact nothing
    · cases isLast
  have fits := fits_iff.2 ⟨some, oneClause.alone⟩
  have isRead := @readKind_around flow (lastDefault (first.specifiers ++ second.specifiers))
    ((lastNamespace (first.specifiers ++ second.specifiers)).map (·.name))
    (namedOf (first.specifiers ++ second.specifiers)) [] [] first.importKind (.inl rfl) (.inl rfl)
    (fun _ => by simpa using mt clauseOf_eq_nil.1 some)
  have notMixed : ¬(first.importKind = .type ∧
      isMixed (clauseOf (lastDefault (first.specifiers ++ second.specifiers))
        ((lastNamespace (first.specifiers ++ second.specifiers)).map (·.name))
          (namedOf (first.specifiers ++ second.specifiers))) ∧ !flow) := by
    rintro ⟨isType, isMixed, noFlow⟩
    obtain isFlow | allDefault := oneClause.type isType
    · rw [isFlow] at noFlow
      cases noFlow
    · rw [isMixed_iff.2 allDefault] at isMixed
      cases isMixed
  rw [List.nil_append, List.append_nil, if_neg notMixed, readClause_clauseOf fits names]
    at isRead
  rw [opening, closing, clauseAround_nil, isRead] at read
  exact ⟨_, ⟨spaced.mpr ⟨.inr isFirst, .inr isLast⟩, read⟩, rfl,
    mergedBindings_iff.mpr ⟨kinds, oneClause.oneDefault, oneClause.oneNamespace⟩⟩

theorem keeps_of_mergeable (wellFormed : WellFormed first) (wellFormed' : WellFormed second)
    (clause : first.clause = some parts)
    (split : parts.flatMap Part.pieces = piece :: (inner ++ [piece']))
    (kinds : second.specifiers = [] ∨ first.importKind = second.importKind)
    (room : if first.specifiers ++ second.specifiers = [] then piece.isToken ∧ piece'.isToken
      else OneClause flow first.importKind (first.specifiers ++ second.specifiers) ∧
        startsBlank piece ∧ endsBlank piece') :
    Keeps flow first second
      (withClause first piece piece' (mergeSpecifiers first second)) := by
  by_cases none : first.specifiers ++ second.specifiers = []
  · rw [if_pos none] at room
    exact keeps_of_braces wellFormed wellFormed' clause split none room.1 room.2
  · rw [if_neg none] at room
    obtain ⟨oneClause, isFirst, isLast⟩ := room
    exact keeps_of_oneClause wellFormed wellFormed' clause split kinds none oneClause isFirst isLast

end Clause

section Program

variable {before between behind : List Piece} {body : List Statement}

/-- The suggestion changes the clause of the first declaration, and removes the second one. -/
theorem getSuggestion_clause {parts : List Part} (clause : first.clause = some parts)
    {piece piece' : Piece} {inner : List Piece}
    (split : parts.flatMap Part.pieces = piece :: (inner ++ [piece']))
    (nonempty : ∀ piece ∈ before ++ first.pieces ++ between ++ second.pieces ++ behind,
      piece.text ≠ [])
    (found : getFirstMatchingImportDeclaration (getModule second) body =
      some ⟨first, textLength before⟩) :
    getSuggestion (before ++ first.pieces ++ between ++ second.pieces ++ behind) body
        ⟨second, textLength (before ++ first.pieces ++ between)⟩ =
      some (before ++ withClause first piece piece' (mergeSpecifiers first second) ++
        (between.rdropWhile isWhiteSpace ++ behind)) := by
  rw [getSuggestion, found, Option.map_some, removeNode_eq nonempty,
    replaceText_clause clause split]
  intro piece mem
  exact nonempty piece (by simp [mem])

/-- Without specifiers, the first declaration is left as it is; others are put before its
module. -/
theorem getSuggestion_sideEffect (clause : first.clause = none) (type : first.type = none)
    (nonempty : ∀ piece ∈ before ++ first.pieces ++ between ++ second.pieces ++ behind,
      piece.text ≠ [])
    (found : getFirstMatchingImportDeclaration (getModule second) body =
      some ⟨first, textLength before⟩) :
    getSuggestion (before ++ first.pieces ++ between ++ second.pieces ++ behind) body
        ⟨second, textLength (before ++ first.pieces ++ between)⟩ =
      some (before ++ (if mergeSpecifiers first second = [] then first.pieces
        else withInsertion first (mergeSpecifiers first second)) ++
          (between.rdropWhile isWhiteSpace ++ behind)) := by
  rw [getSuggestion, found, Option.map_some, removeNode_eq nonempty]
  dsimp only
  split
  · rename_i none
    rw [none, getSpecifiersRange_sideEffect clause type, replaceText, if_pos ⟨rfl, rfl⟩]
  · rename_i some
    rw [replaceText_sideEffect clause type some]
    intro piece mem
    have pieces : first.pieces = first.keyword ++ first.source := by
      rw [Declaration.pieces, Declaration.rest, clause]
    obtain inSource | inBetween | inBehind : piece ∈ first.source ∨
        piece ∈ between.rdropWhile isWhiteSpace ∨ piece ∈ behind := by simpa using mem
    · exact nonempty piece (by simp [pieces, inSource])
    · exact nonempty piece (by
        simp [(List.rdropWhile_prefix isWhiteSpace (l := between)).subset inBetween])
    · exact nonempty piece (by simp [inBehind])

theorem mergeSpecifiers_eq_nil : mergeSpecifiers first second = [] ↔
    first.specifiers ++ second.specifiers = [] := by
  constructor
  · intro nothing
    have clause := tokens_mergeSpecifiers first second
    rw [nothing] at clause
    exact clauseOf_eq_nil.1 clause.symm
  · intro none
    rw [mergeSpecifiers, if_pos none]

/-- A declaration without a clause stays what it is. -/
theorem keeps_sideEffect (wellFormed : WellFormed first) (clause : first.clause = none)
    (none : second.specifiers = []) : Keeps flow first second first.pieces := by
  have noSpecifiers : first.specifiers = [] := by
    rw [Declaration.specifiers, clause]
    rfl
  have type := wellFormed.type clause
  have kind : first.importKind = .value := by
    rw [Declaration.importKind, type]
    rfl
  refine ⟨⟨.value, [], first.module⟩, ⟨wellFormed.spaced, ?_⟩, rfl, ?_⟩
  · rw [Declaration.pieces, Declaration.rest, clause, tokens_append, tokens_keyword, kind]
    dsimp only
    rw [tokens_source]
    exact (readImport_append (isEnd_ending first)).trans (if_pos rfl)
  · simp [noSpecifiers, none]

/-- With names before the module, it is none anymore. -/
theorem not_keeps_insertion (wellFormed : WellFormed first) (clause : first.clause = none)
    (some : first.specifiers ++ second.specifiers ≠ []) :
    ¬Keeps flow first second (withInsertion first (mergeSpecifiers first second)) := by
  rintro ⟨meaning, ⟨-, read⟩, module, -⟩
  refine module_ne_of_insertion wellFormed.quotes (wellFormed.type clause)
    (tokens_mergeSpecifiers first second) (mt clauseOf_eq_nil.1 some) ?_ read module
  intro piece mem
  refine wellFormed.spaced.nonempty piece ?_
  rw [Declaration.pieces, Declaration.rest, clause]
  exact List.mem_append_right _ mem

/-- The suggestion is right if and only if the specifiers fit into the clause, and the first
declaration still ends where it did. -/
theorem getSuggestion_merges_iff (wellFormed : WellFormed first) (wellFormed' : WellFormed second)
    (nonempty : ∀ piece ∈ before ++ first.pieces ++ between ++ second.pieces ++ behind,
      piece.text ≠ [])
    (found : getFirstMatchingImportDeclaration (getModule second) body =
      some ⟨first, textLength before⟩) :
    (∃ declaration,
      getSuggestion (before ++ first.pieces ++ between ++ second.pieces ++ behind) body
          ⟨second, textLength (before ++ first.pieces ++ between)⟩ =
        some (before ++ declaration ++ (between.rdropWhile isWhiteSpace ++ behind)) ∧
      Keeps flow first second declaration ∧
      Terminated first (between.rdropWhile isWhiteSpace ++ behind)) ↔
    Mergeable flow first second ∧
      Terminated first (between.rdropWhile isWhiteSpace ++ behind) := by
  have result {declaration : List Piece} {program : Option (List Piece)}
      (isResult : program =
        some (before ++ declaration ++ (between.rdropWhile isWhiteSpace ++ behind))) :
      (∃ declaration, program =
          some (before ++ declaration ++ (between.rdropWhile isWhiteSpace ++ behind)) ∧
        Keeps flow first second declaration ∧
        Terminated first (between.rdropWhile isWhiteSpace ++ behind)) ↔
      Keeps flow first second declaration ∧
        Terminated first (between.rdropWhile isWhiteSpace ++ behind) := by
    constructor
    · rintro ⟨declaration', isResult', keeps⟩
      have same := Option.some.inj (isResult.symm.trans isResult')
      rw [List.append_cancel_right_eq, List.append_cancel_left_eq] at same
      rwa [same]
    · exact fun keeps => ⟨declaration, isResult, keeps⟩
  cases clause : first.clause with
  | none =>
      have noSpecifiers : first.specifiers = [] := by
        rw [Declaration.specifiers, clause]
        rfl
      rw [result (getSuggestion_sideEffect clause (wellFormed.type clause) nonempty found),
        Mergeable, clause]
      refine and_congr_left' ?_
      by_cases none : second.specifiers = []
      · rw [if_pos (mergeSpecifiers_eq_nil.2 (by simp [noSpecifiers, none]))]
        exact iff_of_true (keeps_sideEffect wellFormed clause none) ⟨.inl none, none⟩
      · rw [if_neg (mt mergeSpecifiers_eq_nil.1 (by simp [none]))]
        exact iff_of_false (not_keeps_insertion wellFormed clause (by simp [none]))
          fun mergeable => none mergeable.2
  | some parts =>
      obtain ⟨piece, inner, piece', split⟩ := exists_borders wellFormed clause
      rw [result (getSuggestion_clause clause split nonempty found), Mergeable, clause]
      refine and_congr_left' ?_
      have isFirst : (parts.flatMap Part.pieces).head? = some piece := by rw [split]; rfl
      have isLast : (parts.flatMap Part.pieces).getLast? = some piece' := by
        rw [split, ← List.cons_append, List.getLast?_concat]
      simp only [isFirst, isLast, Option.mem_some_iff, forall_eq']
      exact ⟨mergeable_of_keeps wellFormed wellFormed' clause split, fun mergeable =>
        keeps_of_mergeable wellFormed wellFormed' clause split mergeable.1 mergeable.2⟩

/-- `import name from 'm';` with one character as the name. -/
def importDefault (name : Char) : Declaration :=
  ⟨none, some [.piece (.trivia [' ']), .specifier (.default [name]), .piece (.trivia [' '])],
    [[' ']], "'m'".toList, ['m'], some []⟩

theorem wellFormed_importDefault (name : Char) : WellFormed (importDefault name) where
  spaced := by
    refine ⟨?_, ?_, ?_⟩
    · simp [Declaration.pieces, Declaration.keyword, Declaration.rest, Declaration.source,
        importDefault, Part.pieces, Specifier.pieces, MayFollow, Piece.isWord, isLineComment,
        Gap.pieces, ImportClauses.semicolon]
    · simp [Declaration.pieces, Declaration.keyword, Declaration.rest, Declaration.source,
        importDefault, Part.pieces, Specifier.pieces, Gap.pieces, Piece.text,
        ImportClauses.semicolon]
    · intro text mem
      obtain rfl : text = [' '] := by
        simpa [Declaration.pieces, Declaration.keyword, Declaration.rest, Declaration.source,
          importDefault, Part.pieces, Specifier.pieces, Gap.pieces, ImportClauses.semicolon]
          using mem
      exact .inl rfl
  quotes := by simp [importDefault]
  isSpecifier := by simp [importDefault, Declaration.specifiers, Part.specifier?, IsSpecifier]
  clause := by
    intro parts isClause
    obtain rfl := Option.some.inj isClause
    rfl
  type := by simp [importDefault]

/-- `import 'm';` -/
def importNothing : Declaration := ⟨none, none, [[' ']], "'m'".toList, ['m'], some []⟩

theorem wellFormed_importNothing : WellFormed importNothing where
  spaced := by
    refine ⟨?_, ?_, ?_⟩
    · simp [Declaration.pieces, Declaration.keyword, Declaration.rest, Declaration.source,
        importNothing, MayFollow, Piece.isWord, isLineComment, Gap.pieces,
        ImportClauses.semicolon]
    · simp [Declaration.pieces, Declaration.keyword, Declaration.rest, Declaration.source,
        importNothing, Gap.pieces, Piece.text, ImportClauses.semicolon]
    · intro text mem
      obtain rfl : text = [' '] := by
        simpa [Declaration.pieces, Declaration.keyword, Declaration.rest, Declaration.source,
          importNothing, Gap.pieces, ImportClauses.semicolon] using mem
      exact .inl rfl
  quotes := by simp [importNothing]
  isSpecifier := by simp [importNothing, Declaration.specifiers]
  clause := by simp [importNothing]
  type := by simp [importNothing]

/-- `import a from 'm'; import 'm';` -/
theorem keeps_importNothing :
    ∃ declaration,
      getSuggestion ([] ++ (importDefault 'a').pieces ++ [.trivia [' ']] ++ importNothing.pieces ++
          []) [.importDeclaration ⟨importDefault 'a', 0⟩]
          ⟨importNothing, textLength ([] ++ (importDefault 'a').pieces ++ [.trivia [' ']])⟩ =
        some ([] ++ declaration ++ ([Piece.trivia [' ']].rdropWhile isWhiteSpace ++ [])) ∧
      Keeps false (importDefault 'a') importNothing declaration ∧
      Terminated (importDefault 'a') ([Piece.trivia [' ']].rdropWhile isWhiteSpace ++ []) := by
  refine (getSuggestion_merges_iff (wellFormed_importDefault 'a') wellFormed_importNothing ?_
    rfl).mpr ⟨⟨.inl rfl, ?_⟩, .inl rfl⟩
  · decide
  · refine ⟨⟨?_, ?_, ?_, ?_⟩, ?_, ?_⟩
    · simp [OneDefault, Declaration.specifiers, importDefault, importNothing, Part.specifier?]
    · simp [OneNamespace, Declaration.specifiers, importDefault, importNothing, Part.specifier?]
    · simp [Declaration.specifiers, importDefault, importNothing, Part.specifier?]
    · intro isType
      cases isType
    · decide
    · decide

/-- Of `import a from 'm'; import b from 'm';`, the suggestion leaves `import b from 'm';`. -/
theorem not_keeps_twoDefaults :
    ¬∃ declaration,
      getSuggestion ([] ++ (importDefault 'a').pieces ++ [.trivia [' ']] ++
          (importDefault 'b').pieces ++ []) [.importDeclaration ⟨importDefault 'a', 0⟩]
          ⟨importDefault 'b', textLength ([] ++ (importDefault 'a').pieces ++ [.trivia [' ']])⟩ =
        some ([] ++ declaration ++ ([Piece.trivia [' ']].rdropWhile isWhiteSpace ++ [])) ∧
      Keeps false (importDefault 'a') (importDefault 'b') declaration ∧
      Terminated (importDefault 'a') ([Piece.trivia [' ']].rdropWhile isWhiteSpace ++ []) := by
  rintro ⟨declaration, result, keeps, -⟩
  have clause : (importDefault 'a').clause =
      some [.piece (.trivia [' ']), .specifier (.default ['a']), .piece (.trivia [' '])] := rfl
  have split : [Part.piece (.trivia [' ']), .specifier (.default ['a']),
      .piece (.trivia [' '])].flatMap Part.pieces =
        .trivia [' '] :: ([.word ['a']] ++ [.trivia [' ']]) := rfl
  rw [getSuggestion_clause clause split (by decide) rfl, Option.some.injEq,
    List.append_cancel_right_eq, List.append_cancel_left_eq] at result
  rw [← result] at keeps
  have mergeable := (mergeable_of_keeps (wellFormed_importDefault 'a')
    (wellFormed_importDefault 'b') clause split keeps).2
  rw [if_neg (by simp [Declaration.specifiers, importDefault, Part.specifier?])] at mergeable
  have same := mergeable.1.oneDefault ['a'] ['b'] (by
    simp [Declaration.specifiers, importDefault, Part.specifier?]) (by
    simp [Declaration.specifiers, importDefault, Part.specifier?])
  simp at same

end Program

end Keeps

end SonarJS.DuplicateImports
