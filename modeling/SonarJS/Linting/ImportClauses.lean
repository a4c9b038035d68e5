import SonarJS.Foundation.Numbers
import SonarJS.Linting.UnusedImports

/-!
# Reading import declarations

The tokens of an import declaration, and what it binds. In TypeScript, a declaration that
imports types has no default specifier together with others; Flow allows it.
-/

namespace SonarJS.UnusedImports

open Pieces

def Specifier.pieces : Specifier → List Piece
  | default name => [.word name]
  | namespaceSpecifier specifier => specifier.pieces
  | named specifier => specifier.pieces

end SonarJS.UnusedImports

namespace SonarJS.ImportClauses

open Pieces UnusedImports

inductive Kind
  | value
  | type
deriving DecidableEq

/-- A local name, and the export that it is bound to. For a named specifier, the tokens before
the local name tell the export. -/
inductive Binding
  | default (name : Text)
  | namespaceImport (name : Text)
  | named (imported : List Piece) (name : Text)
deriving DecidableEq

def tokens (pieces : List Piece) : List Piece := pieces.filter (·.isToken)

/-- What an import declaration says. -/
structure Import where
  kind : Kind
  bindings : List Binding
  module : Text

def star : Piece := .punctuator ['*']

def semicolon : Piece := .punctuator [';']

/-! ## The grammar -/

/-- A specifier between commas or braces. -/
def readSpecifier (words : List Piece) : Option Binding :=
  match words.getLast? with
  | some (.word name) => some (.named words.dropLast name)
  | _ => none

/-- Named specifiers up to the closing brace, which is the last token. The words of the first
one have been read up to now. -/
def readNamed (words : List Piece) : List Piece → Option (List Binding)
  | [] => none
  | .word text :: rest => readNamed (words ++ [.word text]) rest
  | .literal text :: rest => readNamed (words ++ [.literal text]) rest
  | .trivia _ :: _ => none
  | .punctuator text :: rest =>
    if text = [','] then
      (readSpecifier words).bind fun binding => (readNamed [] rest).map (binding :: ·)
    else if text = ['}'] ∧ rest = [] then
      if words = [] then some [] else (readSpecifier words).map fun binding => [binding]
    else none

def readBindings (clause : List Piece) : Option (List Binding) :=
  match clause with
  | [.punctuator ['*'], .word ['a', 's'], .word name] => some [.namespaceImport name]
  | .punctuator ['{'] :: rest => readNamed [] rest
  | _ => none

/-- The part between `import` and `from`. -/
def readClause (clause : List Piece) : Option (List Binding) :=
  match clause with
  | [.word name] => some [.default name]
  | .word name :: .punctuator [','] :: rest => (readBindings rest).map (.default name :: ·)
  | _ => readBindings clause

/-- A default specifier stands together with others. -/
def isMixed (clause : List Piece) : Bool :=
  match clause with
  | .word _ :: .punctuator [','] :: _ => true
  | _ => false

variable (flow : Bool)

/-- The part between `import` and `from`, that may begin with `type`. -/
def readKind (clause : List Piece) : Option (Kind × List Binding) :=
  let value := (readClause clause).map (Kind.value, ·)
  match clause with
  | .word ['t', 'y', 'p', 'e'] :: rest =>
    if isMixed rest ∧ !flow then value
    else ((readClause rest).map (Kind.type, ·)).or value
  | _ => value

/-- What comes between `import` and the module, which only a semicolon may follow. -/
def readSource (rest : List Piece) : Option (List Piece × Text) :=
  match rest.reverse with
  | .literal module :: clause => some (clause.reverse, module)
  | .punctuator [';'] :: .literal module :: clause => some (clause.reverse, module)
  | _ => none

def readImport (declaration : List Piece) : Option Import :=
  match declaration with
  | .word ['i', 'm', 'p', 'o', 'r', 't'] :: rest =>
    (readSource rest).bind fun source =>
      if source.1 = [] then some ⟨.value, [], source.2⟩
      else if source.1.getLast? = some (.word "from".toList) then
        (readKind flow source.1.dropLast).map fun read => ⟨read.1, read.2, source.2⟩
      else none
  | _ => none

/-! ## What is between the tokens -/

/-- The part of a comment behind its beginning is closed by its last two characters. -/
def isClosed : Text → Bool
  | [] => false
  | '*' :: '/' :: rest => rest.isEmpty
  | _ :: rest => isClosed rest

def isLineBreak (c : Char) : Bool := c ∈ ['\n', '\r', '\u2028', '\u2029']

def isComment (text : Text) : Bool :=
  match text with
  | '/' :: '*' :: rest => isClosed rest
  | '/' :: '/' :: rest => !rest.any isLineBreak
  | _ => false

def isBlank (text : Text) : Bool := !text.isEmpty && text.all Numbers.isWhiteSpace

def isLineComment : Piece → Bool
  | .trivia ('/' :: '/' :: _) => true
  | _ => false

/-- What may come next: no word behind a word, and a line break behind a comment of one line. -/
def MayFollow (a b : Piece) : Prop :=
  (a.isWord → b.isWord = false) ∧ (isLineComment a → b.text.head?.any isLineBreak)

/-- The pieces can be told apart, and those between the tokens are white space and comments. -/
structure WellSpaced (pieces : List Piece) : Prop where
  chain : pieces.IsChain MayFollow
  nonempty : ∀ piece ∈ pieces, piece.text ≠ []
  isTrivia : ∀ text, .trivia text ∈ pieces → isBlank text ∨ isComment text

/-- The pieces are an import declaration. -/
def Reads (declaration : List Piece) (meaning : Import) : Prop :=
  WellSpaced declaration ∧ readImport flow (tokens declaration) = some meaning

section Spacing

variable {piece : Piece} {before inner behind : List Piece}

variable {rest : List Piece}

@[simp]
theorem tokens_append : tokens (before ++ behind) = tokens before ++ tokens behind :=
  List.filter_append ..

@[simp]
theorem tokens_nil : tokens [] = [] := rfl

@[simp]
theorem tokens_gap (gap : Gap) : tokens gap.pieces = [] := by
  refine List.filter_eq_nil_iff.mpr ?_
  intro piece mem
  rw [not_isToken_of_mem_gap mem]
  exact Bool.false_ne_true

@[simp]
theorem tokens_word (text : Text) : tokens (.word text :: rest) = .word text :: tokens rest := rfl

@[simp]
theorem tokens_punctuator (text : Text) :
    tokens (.punctuator text :: rest) = .punctuator text :: tokens rest := rfl

@[simp]
theorem tokens_literal (text : Text) :
    tokens (.literal text :: rest) = .literal text :: tokens rest := rfl

@[simp]
theorem tokens_trivia (text : Text) : tokens (.trivia text :: rest) = tokens rest := rfl

theorem not_isLineComment_of_isToken (isToken : piece.isToken) : isLineComment piece = false := by
  cases piece with
  | trivia => cases isToken
  | _ => rfl

theorem not_isLineComment_of_isBlank {text : Text} (blank : isBlank text) :
    isLineComment (.trivia text) = false := by
  unfold isLineComment
  split
  · rename_i same
    obtain rfl := Piece.trivia.inj same
    cases blank
  · rfl

theorem WellSpaced.within (spaced : WellSpaced (before ++ inner ++ behind)) : WellSpaced inner where
  chain := spaced.chain.left_of_append.right_of_append
  nonempty piece mem := spaced.nonempty piece (by simp [mem])
  isTrivia text mem := spaced.isTrivia text (by simp [mem])

/-- Pieces that anything but a word may follow. -/
structure SelfContained (pieces : List Piece) : Prop extends WellSpaced pieces where
  ends : ∀ piece ∈ pieces.getLast?, isLineComment piece = false

theorem SelfContained.nil : SelfContained [] :=
  ⟨⟨.nil, by simp, by simp⟩, by simp⟩

theorem SelfContained.token (isToken : piece.isToken) (nonempty : piece.text ≠ []) :
    SelfContained [piece] := by
  refine ⟨⟨.singleton piece, by simpa using nonempty, ?_⟩, ?_⟩
  · intro text mem
    obtain rfl := List.mem_singleton.mp mem
    cases isToken
  · intro last isLast
    obtain rfl := Option.some.inj isLast
    exact not_isLineComment_of_isToken isToken

theorem SelfContained.blank {text : Text} (isBlank : isBlank text) :
    SelfContained [.trivia text] := by
  refine ⟨⟨.singleton _, ?_, ?_⟩, ?_⟩
  · rw [List.forall_mem_singleton]
    rintro rfl
    cases isBlank
  · intro text' mem
    obtain rfl := Piece.trivia.inj (List.mem_singleton.mp mem)
    exact .inl isBlank
  · intro last isLast
    obtain rfl := Option.some.inj isLast
    exact not_isLineComment_of_isBlank isBlank

/-- Pieces can come behind others if no words meet. -/
theorem WellSpaced.append (left : SelfContained before) (right : WellSpaced behind)
    (apart : (∀ piece ∈ before.getLast?, piece.isWord = false) ∨
      ∀ piece ∈ behind.head?, piece.isWord = false) : WellSpaced (before ++ behind) where
  chain := by
    refine left.chain.append right.chain ?_
    intro a isLast b isFirst
    refine ⟨?_, ?_⟩
    · intro isWord
      obtain noWord | noWord := apart
      · rw [noWord a isLast] at isWord
        cases isWord
      · exact noWord b isFirst
    · intro isComment
      rw [left.ends a isLast] at isComment
      cases isComment
  nonempty := by
    rw [List.forall_mem_append]
    exact ⟨left.nonempty, right.nonempty⟩
  isTrivia text mem := by
    obtain mem | mem := List.mem_append.mp mem
    · exact left.isTrivia text mem
    · exact right.isTrivia text mem

theorem SelfContained.append (left : SelfContained before) (right : SelfContained behind)
    (apart : (∀ piece ∈ before.getLast?, piece.isWord = false) ∨
      ∀ piece ∈ behind.head?, piece.isWord = false) : SelfContained (before ++ behind) := by
  refine ⟨WellSpaced.append left right.toWellSpaced apart, ?_⟩
  intro last isLast
  rw [List.getLast?_append] at isLast
  obtain inRight | ⟨-, inLeft⟩ := Option.or_eq_some_iff.mp isLast
  · exact right.ends last inRight
  · exact left.ends last inLeft

/-- With a comma and white space between the parts. -/
theorem SelfContained.intercalate {gap : Text} (isBlank : isBlank gap)
    {parts : List (List Piece)} (all : ∀ part ∈ parts, SelfContained part) :
    SelfContained ([comma, .trivia gap].intercalate parts) := by
  have separator : SelfContained [comma, .trivia gap] :=
    SelfContained.append (.token rfl (by simp [comma, Piece.text])) (.blank isBlank)
      (.inl (by simp [comma, Piece.isWord]))
  induction parts with
  | nil => exact .nil
  | cons part parts ih =>
      rw [List.forall_mem_cons] at all
      cases parts with
      | nil => simpa using all.1
      | cons next parts =>
          rw [List.intercalate_cons_cons]
          refine .append (.append all.1 separator (.inr ?_)) (ih all.2) (.inl ?_)
          · simp [comma, Piece.isWord]
          · intro last isLast
            rw [List.getLast?_append_of_ne_nil _ (List.cons_ne_nil _ _)] at isLast
            obtain rfl := Option.some.inj isLast
            rfl

/-- Only the tokens are read. -/
theorem tokens_intercalate {gap : Text} (parts : List (List Piece)) :
    tokens ([comma, .trivia gap].intercalate parts) =
      Separated.join comma (parts.map tokens) := by
  induction parts with
  | nil => rfl
  | cons part parts ih =>
      cases parts with
      | nil => simp
      | cons next parts =>
          have separator : tokens [comma, .trivia gap] = [comma] := rfl
          rw [List.intercalate_cons_cons, tokens_append, tokens_append, ih, separator]
          simp

end Spacing

/-! ## Named specifiers -/

section Named

variable {piece : Piece} {words before behind rest : List Piece} {bindings : List Binding}

/-- Between commas and braces, there are words and literals. -/
def IsName (piece : Piece) : Prop := piece.isToken ∧ ∀ text, piece ≠ .punctuator text

theorem readNamed_append (names : ∀ piece ∈ before, IsName piece) :
    readNamed words (before ++ rest) = readNamed (words ++ before) rest := by
  induction before generalizing words with
  | nil => rw [List.nil_append, List.append_nil]
  | cons piece before ih =>
      rw [List.forall_mem_cons] at names
      have split : words ++ piece :: before = words ++ [piece] ++ before := by simp
      rw [split, ← ih names.2, List.cons_append]
      cases piece with
      | word text => rfl
      | literal text => rfl
      | punctuator text => exact absurd rfl (names.1.2 text)
      | trivia text => cases names.1.1

theorem readSpecifier_concat (name : Text) :
    readSpecifier (words ++ [.word name]) = some (.named words name) := by
  rw [readSpecifier, List.getLast?_concat, List.dropLast_concat]

/-- The tokens of a named specifier. -/
def nameTokens (specifier : List Piece × Text) : List Piece :=
  specifier.1 ++ [.word specifier.2]

theorem isName_of_mem_nameTokens {specifier : List Piece × Text}
    (names : ∀ piece ∈ specifier.1, IsName piece) :
    ∀ piece ∈ nameTokens specifier, IsName piece := by
  rw [nameTokens, List.forall_mem_append, List.forall_mem_singleton]
  exact ⟨names, rfl, by simp⟩

/-- Named specifiers are read one after another. -/
theorem readNamed_join {specifier : List Piece × Text} {specifiers : List (List Piece × Text)}
    (names : ∀ specifier' ∈ specifier :: specifiers, ∀ piece ∈ specifier'.1, IsName piece) :
    readNamed [] (Separated.join comma ((specifier :: specifiers).map nameTokens) ++
        [closingBrace]) =
      some ((specifier :: specifiers).map fun specifier => .named specifier.1 specifier.2) := by
  induction specifiers generalizing specifier with
  | nil =>
      rw [List.forall_mem_singleton] at names
      rw [List.map_cons, List.map_nil, Separated.join_cons, Separated.following_nil,
        List.append_nil, readNamed_append (isName_of_mem_nameTokens names), List.nil_append,
        closingBrace, readNamed, if_neg (by simp), if_pos ⟨rfl, rfl⟩, if_neg (by simp [nameTokens]),
        nameTokens, readSpecifier_concat]
      rfl
  | cons next specifiers ih =>
      rw [List.forall_mem_cons] at names
      have later : Separated.following comma ((next :: specifiers).map nameTokens) =
          comma :: Separated.join comma ((next :: specifiers).map nameTokens) :=
        Separated.following_eq_join (by simp)
      rw [List.map_cons, Separated.join_cons, later, List.append_assoc, List.cons_append,
        readNamed_append (isName_of_mem_nameTokens names.1), List.nil_append]
      conv_lhs => rw [comma, readNamed, if_pos rfl]
      rw [← comma, ih names.2, nameTokens, readSpecifier_concat]
      rfl

/-- The closing brace is the last token, and there are only names and commas before it. -/
theorem of_readNamed (read : readNamed words rest = some bindings) :
    ∃ inner, rest = inner ++ [closingBrace] ∧
      ∀ piece ∈ inner, piece = comma ∨ ∀ text, piece ≠ .punctuator text := by
  induction rest generalizing words bindings with
  | nil => cases read
  | cons piece rest ih =>
      cases piece with
      | word text =>
          obtain ⟨inner, rfl, names⟩ := ih read
          exact ⟨.word text :: inner, rfl, List.forall_mem_cons.mpr ⟨.inr (by simp), names⟩⟩
      | literal text =>
          obtain ⟨inner, rfl, names⟩ := ih read
          exact ⟨.literal text :: inner, rfl, List.forall_mem_cons.mpr ⟨.inr (by simp), names⟩⟩
      | trivia text => cases read
      | punctuator text =>
          rw [readNamed] at read
          split at read
          · rename_i isComma
            subst isComma
            obtain ⟨binding, -, mapped⟩ := Option.bind_eq_some_iff.mp read
            obtain ⟨later, readLater, -⟩ := Option.map_eq_some_iff.mp mapped
            obtain ⟨inner, rfl, names⟩ := ih readLater
            exact ⟨comma :: inner, rfl, List.forall_mem_cons.mpr ⟨.inl rfl, names⟩⟩
          · split at read
            · rename_i isLast
              obtain ⟨rfl, rfl⟩ := isLast
              exact ⟨[], rfl, by simp⟩
            · cases read

end Named

/-! ## Clauses of up to three parts -/

section Slots

variable {name' namespace' : Option Text} {named : List (List Piece × Text)} {piece : Piece}
  {bindings : List Binding}

def braces (named : List (List Piece × Text)) : List Piece :=
  openingBrace :: Separated.join comma (named.map nameTokens) ++ [closingBrace]

/-- A default specifier, a namespace specifier and named specifiers, of each as many as there
are. -/
def slots (name' namespace' : Option Text) (named : List (List Piece × Text)) :
    List (List Piece) :=
  (name'.map fun name => [.word name]).toList ++
    (namespace'.map fun name => [star, .word ['a', 's'], .word name]).toList ++
      if named = [] then [] else [braces named]

def clauseOf (name' namespace' : Option Text) (named : List (List Piece × Text)) : List Piece :=
  Separated.join comma (slots name' namespace' named)

def bindingsOf (name' namespace' : Option Text) (named : List (List Piece × Text)) :
    List Binding :=
  name'.toList.map .default ++ namespace'.toList.map .namespaceImport ++
    named.map fun specifier => .named specifier.1 specifier.2

/-- There is something in the clause, but not a namespace specifier together with named ones. -/
def Fits (name' namespace' : Option Text) (named : List (List Piece × Text)) : Prop :=
  (name'.isSome ∨ namespace'.isSome ∨ named ≠ []) ∧ (namespace' = none ∨ named = [])

theorem readBindings_braces (nonempty : named ≠ [])
    (names : ∀ specifier ∈ named, ∀ piece ∈ specifier.1, IsName piece) :
    readBindings (braces named) = some (named.map fun specifier =>
      .named specifier.1 specifier.2) := by
  obtain ⟨specifier, named, rfl⟩ := List.exists_cons_of_ne_nil nonempty
  exact readNamed_join names

theorem readClause_clauseOf (fits : Fits name' namespace' named)
    (names : ∀ specifier ∈ named, ∀ piece ∈ specifier.1, IsName piece) :
    readClause (clauseOf name' namespace' named) = some (bindingsOf name' namespace' named) := by
  obtain ⟨nonempty, alone⟩ := fits
  cases namespace' with
  | some name =>
      obtain rfl : named = [] := by simpa using alone
      cases name' <;> rfl
  | none =>
      by_cases none : named = []
      · subst none
        obtain ⟨name, rfl⟩ : ∃ name, name' = some name := by
          simpa [Option.isSome_iff_exists] using nonempty
        rfl
      · have read := readBindings_braces none names
        cases name' with
        | none =>
            rw [clauseOf, slots, if_neg none]
            exact (congrArg readClause (List.append_nil _)).trans read
        | some name =>
            rw [clauseOf, slots, if_neg none]
            have text : Separated.join comma ((Option.map (fun name => [Piece.word name])
                (some name)).toList ++ (Option.map (fun name => [star, .word ['a', 's'],
                  .word name]) (Option.none : Option Text)).toList ++ [braces named]) =
                .word name :: comma :: braces named := by simp
            rw [text]
            exact congrArg (Option.map (Binding.default name :: ·)) read

theorem star_mem (some : namespace'.isSome) : star ∈ clauseOf name' namespace' named := by
  obtain ⟨name, rfl⟩ := Option.isSome_iff_exists.mp some
  refine Separated.mem_join (?_ : [star, .word ['a', 's'], .word name] ∈ _) (by simp)
  simp [slots]

theorem openingBrace_mem (some : named ≠ []) :
    openingBrace ∈ clauseOf name' namespace' named := by
  refine Separated.mem_join (?_ : braces named ∈ _) (by simp [braces])
  simp [slots, some]

theorem eq_of_readBindings_star {rest : List Piece}
    (read : readBindings (star :: rest) = some bindings) :
    ∃ name, rest = [.word ['a', 's'], .word name] := by
  unfold readBindings at read
  split at read
  · rename_i name same
    exact ⟨name, (List.cons.inj same).2⟩
  · rename_i same
    cases (List.cons.inj same).1
  · cases read

theorem not_punctuator_of_inner {inner : List Piece} {text : Text}
    (names : ∀ piece ∈ inner, piece = comma ∨ ∀ text, piece ≠ .punctuator text)
    (mem : .punctuator text ∈ inner ++ [closingBrace]) : text = [','] ∨ text = ['}'] := by
  rw [List.mem_append, List.mem_singleton] at mem
  obtain inInner | isLast := mem
  · obtain isComma | noPunctuator := names _ inInner
    · exact .inl (Piece.punctuator.inj isComma)
    · exact absurd rfl (noPunctuator text)
  · exact .inr (Piece.punctuator.inj isLast)

/-- No token comes behind the bindings. -/
theorem readBindings_concat (noWord : piece.isWord = false) :
    readBindings (clauseOf none namespace' named ++ [piece]) = none := by
  rw [Option.eq_none_iff_forall_not_mem]
  intro bindings read
  cases namespace' with
  | some name =>
      obtain ⟨name', same⟩ := eq_of_readBindings_star read
      have length := congrArg List.length same
      simp at length
  | none =>
      by_cases none : named = []
      · subst none
        cases piece with
        | word => cases noWord
        | punctuator text =>
            unfold readBindings at read
            split at read
            · rename_i same
              simp [clauseOf, slots] at same
            · rename_i same
              have nil := (List.cons.inj same).2
              subst nil
              cases read
            · cases read
        | literal => cases read
        | trivia => cases read
      · rw [clauseOf, slots, if_neg none] at read
        have read' : readNamed [] (Separated.join comma (named.map nameTokens) ++
            [closingBrace] ++ [piece]) = some bindings := by
          have text : Separated.join comma ([] ++ [] ++ [braces named]) ++ [piece] =
              openingBrace :: (Separated.join comma (named.map nameTokens) ++
                [closingBrace] ++ [piece]) := by simp [braces]
          rw [← Option.mem_def.mp read]
          exact (congrArg readBindings text).symm
        obtain ⟨inner, split, names⟩ := of_readNamed read'
        obtain ⟨front, -⟩ := List.append_inj' split rfl
        have mem : closingBrace ∈ inner := by simp [← front]
        obtain isComma | noPunctuator := names _ mem
        · cases isComma
        · exact noPunctuator _ rfl

theorem readClause_of_head {clause : List Piece}
    (noWord : ∀ piece ∈ clause.head?, piece.isWord = false) :
    readClause clause = readBindings clause := by
  unfold readClause
  split
  · cases noWord _ rfl
  · cases noWord _ rfl
  · rfl

/-- Without a default specifier, a clause begins with no word. -/
theorem head_clauseOf : ∀ piece ∈ (clauseOf none namespace' named).head?,
    piece.isWord = false := by
  intro piece first
  cases namespace' with
  | some name =>
      obtain rfl := Option.some.inj first
      rfl
  | none =>
      rw [clauseOf, slots] at first
      split at first
      · cases first
      · obtain rfl := Option.some.inj first
        rfl

/-- Behind a default specifier, there is a comma before the other ones. -/
theorem clauseOf_some (name : Text) (others : namespace'.isSome ∨ named ≠ []) :
    clauseOf (some name) namespace' named =
      .word name :: comma :: clauseOf none namespace' named := by
  have nonempty : slots none namespace' named ≠ [] := by
    cases namespace' with
    | some name => simp [slots]
    | none =>
        obtain some : named ≠ [] := by simpa using others
        simp [slots, some]
  have split : slots (some name) namespace' named =
      [.word name] :: slots none namespace' named := by simp [slots]
  rw [clauseOf, split, Separated.join_cons, Separated.following_eq_join nonempty]
  rfl

/-- Nothing comes behind a clause. -/
theorem readClause_concat (noWord : piece.isWord = false) :
    readClause (clauseOf name' namespace' named ++ [piece]) = none := by
  have bindings := @readBindings_concat namespace' named piece noWord
  cases name' with
  | none =>
      rw [readClause_of_head, bindings]
      intro first isFirst
      rw [List.head?_append] at isFirst
      obtain inClause | ⟨-, isPiece⟩ := Option.or_eq_some_iff.mp isFirst
      · exact head_clauseOf first inClause
      · obtain rfl := Option.some.inj isPiece
        exact noWord
  | some name =>
      by_cases others : namespace'.isSome ∨ named ≠ []
      · rw [clauseOf_some name others]
        exact congrArg (Option.map (Binding.default name :: ·)) bindings
      · obtain ⟨rfl, rfl⟩ : namespace' = none ∧ named = [] := by simpa using others
        cases piece with
        | word => cases noWord
        | punctuator text =>
            have clause : clauseOf (some name) none [] ++ [.punctuator text] =
                [.word name, .punctuator text] := rfl
            rw [clause]
            unfold readClause
            split
            · rename_i same
              cases same
            · rename_i same
              obtain ⟨-, rfl⟩ := (List.cons.inj (List.cons.inj same).2)
              rfl
            · rfl
        | literal => rfl
        | trivia => rfl

/-- A clause has something in it, and not both a namespace and named specifiers. -/
theorem fits_of_readClause (read : readClause (clauseOf name' namespace' named) = some bindings) :
    Fits name' namespace' named := by
  constructor
  · by_contra nothing
    obtain ⟨rfl, rfl, rfl⟩ : name' = none ∧ namespace' = none ∧ named = [] := by
      simpa [not_or] using nothing
    cases read
  · by_contra both
    obtain ⟨some, named'⟩ := not_or.mp both
    obtain ⟨name, rfl⟩ := Option.ne_none_iff_exists'.mp some
    have others : ∃ bindings', readBindings (clauseOf none (Option.some name) named) =
        Option.some bindings' := by
      cases name' with
      | none =>
          rw [readClause_of_head head_clauseOf] at read
          exact ⟨bindings, read⟩
      | some first =>
          rw [clauseOf_some first (.inl rfl)] at read
          obtain ⟨bindings', readOthers, -⟩ := Option.map_eq_some_iff.mp read
          exact ⟨bindings', readOthers⟩
    obtain ⟨bindings', readOthers⟩ := others
    obtain ⟨name', same⟩ := eq_of_readBindings_star readOthers
    have length := congrArg List.length same
    simp [named'] at length

/-- Around a clause there is nothing but the braces around a single name or nothing. -/
theorem of_readClause_around {opening closing : List Piece}
    (read : readClause (opening ++ clauseOf name' namespace' named ++ closing) = some bindings)
    (isOpening : opening = [] ∨ opening = [star] ∧ namespace'.isSome ∨ opening = [openingBrace])
    (isClosing : closing = [] ∨ ∃ piece, closing = [piece] ∧ piece.isWord = false) :
    opening = [] ∧ closing = [] ∧ Fits name' namespace' named ∨
      opening = [openingBrace] ∧ closing = [closingBrace] ∧ namespace' = none ∧ named = [] := by
  obtain rfl | ⟨rfl, some⟩ | rfl := isOpening
  · left
    obtain rfl | ⟨piece, rfl, noWord⟩ := isClosing
    · rw [List.nil_append, List.append_nil] at read
      exact ⟨rfl, rfl, fits_of_readClause read⟩
    · rw [List.nil_append, readClause_concat noWord] at read
      cases read
  · obtain ⟨name, same⟩ := eq_of_readBindings_star read
    have text : clauseOf name' namespace' named ++ closing = [.word ['a', 's'], .word name] :=
      same
    have mem := List.mem_append_left closing (@star_mem name' namespace' named some)
    rw [text] at mem
    simp [star] at mem
  · right
    obtain ⟨inner, split, names⟩ := of_readNamed read
    have inBraces (text : Text) (mem : .punctuator text ∈ clauseOf name' namespace' named) :
        text = [','] ∨ text = ['}'] := by
      refine not_punctuator_of_inner names ?_
      rw [← split]
      exact List.mem_append_left _ mem
    have noNamespace : namespace' = none := by
      by_contra some
      have := inBraces ['*'] (star_mem (Option.isSome_iff_ne_none.mpr some))
      simp at this
    have noNamed : named = [] := by
      by_contra some
      have := inBraces ['{'] (openingBrace_mem some)
      simp at this
    subst noNamespace noNamed
    refine ⟨rfl, ?_, rfl, rfl⟩
    obtain rfl | ⟨piece, rfl, noWord⟩ := isClosing
    · have last := congrArg List.getLast? split
      cases name' <;> simp [clauseOf, slots, closingBrace] at last
    · rw [(List.cons.inj (List.append_inj' split rfl).2).1]

end Slots

/-! ## Whole declarations -/

section Declarations

variable {flow : Bool} {name' namespace' : Option Text} {named : List (List Piece × Text)}
  {clause : List Piece} {module : Text}

/-- The tokens behind the module. -/
def IsEnd (ending : List Piece) : Prop := ending = [] ∨ ending = [semicolon]

theorem readSource_append {ending : List Piece} (isEnd : IsEnd ending) :
    readSource (clause ++ .literal module :: ending) = some (clause, module) := by
  obtain rfl | rfl := isEnd <;> simp [readSource, semicolon]

theorem readImport_append {ending : List Piece} (isEnd : IsEnd ending) :
    readImport flow (.word "import".toList :: (clause ++ .literal module :: ending)) =
      if clause = [] then some ⟨.value, [], module⟩
      else if clause.getLast? = some (.word "from".toList) then
        (readKind flow clause.dropLast).map fun read => ⟨read.1, read.2, module⟩
      else none := by
  have source := @readSource_append clause module ending isEnd
  exact (congrArg (Option.bind · _) source).trans rfl

/-- With `from`, the clause is read. -/
theorem readImport_from {ending : List Piece} (isEnd : IsEnd ending) :
    readImport flow (.word "import".toList :: (clause ++ .word "from".toList ::
        .literal module :: ending)) =
      (readKind flow clause).map fun read => ⟨read.1, read.2, module⟩ := by
  have split : clause ++ .word "from".toList :: .literal module :: ending =
      (clause ++ [.word "from".toList]) ++ .literal module :: ending := by simp
  rw [split, readImport_append isEnd, if_neg (by simp), List.getLast?_concat, if_pos rfl,
    List.dropLast_concat]

/-- A word begins a clause only alone or before a comma. -/
theorem readClause_word {text : Text} (some : clause ≠ [])
    (noComma : ∀ piece ∈ clause.head?, piece ≠ comma) :
    readClause (.word text :: clause) = none := by
  unfold readClause
  split
  · rename_i same
    exact absurd (List.cons.inj same).2 some
  · rename_i same
    obtain ⟨-, rfl⟩ := List.cons.inj same
    exact absurd rfl (noComma _ rfl)
  · rfl

theorem readKind_word_type : readKind flow (.word "type".toList :: clause) =
    if isMixed clause ∧ !flow then
      (readClause (.word "type".toList :: clause)).map (Kind.value, ·)
    else ((readClause clause).map (Kind.type, ·)).or
      ((readClause (.word "type".toList :: clause)).map (Kind.value, ·)) := rfl

/-- Behind `type`, a clause is that of types. -/
theorem readKind_type (some : clause ≠ []) (noComma : ∀ piece ∈ clause.head?, piece ≠ comma) :
    readKind flow (.word "type".toList :: clause) =
      if isMixed clause ∧ !flow then none else (readClause clause).map (Kind.type, ·) := by
  rw [readKind_word_type, readClause_word some noComma, Option.map_none, Option.or_none]

theorem readKind_value
    (noType : ∀ rest, clause = .word "type".toList :: rest → readClause rest = none) :
    readKind flow clause = (readClause clause).map (Kind.value, ·) := by
  unfold readKind
  split
  · rename_i rest
    rw [noType rest rfl]
    split <;> rfl
  · rfl

/-- Without `from` there is no clause before the module, whatever names it has. -/
theorem readImport_insert {ending : List Piece} (isEnd : IsEnd ending)
    (nonempty : clauseOf name' namespace' named ≠ []) :
    readImport flow (.word "import".toList :: (clauseOf name' namespace' named ++
      .literal module :: ending)) = none := by
  rw [readImport_append isEnd, if_neg nonempty]
  by_cases unnamed : named = []
  · subst unnamed
    split
    · cases namespace' with
      | none =>
          cases name' with
          | none => exact absurd rfl nonempty
          | some name => rfl
      | some name =>
          cases name' with
          | none => rfl
          | some first =>
              have front : (clauseOf (some first) (some name) []).dropLast =
                  [.word first, comma, star, .word ['a', 's']] := rfl
              rw [front, readKind_value]
              · rfl
              · intro rest same
                obtain ⟨-, rfl⟩ := List.cons.inj same
                rfl
    · rfl
  · have last : (clauseOf name' namespace' named).getLast? = some closingBrace := by
      rw [clauseOf, slots, if_neg unnamed, Separated.join_append_cons,
        Separated.following_nil, List.append_nil, braces, ← List.append_assoc,
        List.getLast?_concat]
    rw [last, if_neg (by simp [closingBrace])]

/-- What a clause with a token before it or behind it begins with. -/
theorem head_around {opening closing : List Piece}
    (isOpening : opening = [] ∨ opening = [star] ∨ opening = [openingBrace])
    (isClosing : closing = [] ∨ closing = [closingBrace]) :
    ∀ piece ∈ (opening ++ clauseOf name' namespace' named ++ closing).head?, piece ≠ comma := by
  intro piece isHead
  obtain rfl | rfl | rfl := isOpening
  · rw [List.nil_append] at isHead
    by_cases nothing : name' = none
    · subst nothing
      rw [List.head?_append] at isHead
      obtain inClause | ⟨-, inClosing⟩ := Option.or_eq_some_iff.mp isHead
      · cases namespace' with
        | some name =>
            obtain rfl := Option.some.inj inClause
            simp [star, comma]
        | none =>
            rw [clauseOf, slots] at inClause
            split at inClause
            · cases inClause
            · obtain rfl := Option.some.inj inClause
              simp [openingBrace, comma]
      · obtain rfl | rfl := isClosing
        · cases inClosing
        · obtain rfl := Option.some.inj inClosing
          simp [closingBrace, comma]
    · obtain ⟨name, rfl⟩ := Option.ne_none_iff_exists'.mp nothing
      obtain rfl := Option.some.inj isHead
      simp [comma]
  · obtain rfl := Option.some.inj isHead
    simp [star, comma]
  · obtain rfl := Option.some.inj isHead
    simp [openingBrace, comma]

/-- A clause that begins with a name has nothing or a comma behind it. -/
theorem readClause_behind_word {opening closing : List Piece}
    (isOpening : opening = [] ∨ opening = [star] ∨ opening = [openingBrace])
    (isClosing : closing = [] ∨ closing = [closingBrace]) {text : Text} {rest : List Piece}
    (split : opening ++ clauseOf name' namespace' named ++ closing = .word text :: rest) :
    readClause rest = none := by
  obtain rfl | rfl | rfl := isOpening
  · rw [List.nil_append] at split
    cases name' with
    | none =>
        have noWord : ∀ piece ∈ (clauseOf none namespace' named ++ closing).head?,
            piece.isWord = false := by
          intro piece isHead
          rw [List.head?_append] at isHead
          obtain inClause | ⟨-, inClosing⟩ := Option.or_eq_some_iff.mp isHead
          · exact head_clauseOf piece inClause
          · obtain rfl | rfl := isClosing
            · cases inClosing
            · obtain rfl := Option.some.inj inClosing
              rfl
        cases noWord (.word text) (by rw [split]; rfl)
    | some name =>
        by_cases others : namespace'.isSome ∨ named ≠ []
        · rw [clauseOf_some name others] at split
          obtain ⟨-, rfl⟩ := List.cons.inj split
          rfl
        · obtain ⟨rfl, rfl⟩ : namespace' = none ∧ named = [] := by simpa using others
          obtain ⟨-, rfl⟩ := List.cons.inj split
          obtain rfl | rfl := isClosing <;> rfl
  · cases (List.cons.inj split).1
  · cases (List.cons.inj split).1

theorem isMixed_clauseOf : isMixed (clauseOf name' namespace' named) =
    (name'.isSome && (namespace'.isSome || !named.isEmpty)) := by
  cases name' with
  | none =>
      unfold isMixed
      split
      · rename_i same
        have noWord := @head_clauseOf namespace' named
        rw [same] at noWord
        cases noWord _ rfl
      · rfl
  | some name =>
      by_cases others : namespace'.isSome ∨ named ≠ []
      · rw [clauseOf_some name others]
        simpa [isMixed, comma] using others
      · obtain ⟨rfl, rfl⟩ : namespace' = none ∧ named = [] := by simpa using others
        rfl

/-- The tokens between `import` and the specifiers. -/
def typePrefix : Kind → List Piece
  | .type => [.word "type".toList]
  | .value => []

/-- Around a clause with tokens at its borders, only the clause is read, unless there is just
`type`. -/
theorem readKind_around {opening closing : List Piece} {kind : Kind}
    (isOpening : opening = [] ∨ opening = [star] ∨ opening = [openingBrace])
    (isClosing : closing = [] ∨ closing = [closingBrace])
    (nonempty : kind = .type → opening ++ clauseOf name' namespace' named ++ closing ≠ []) :
    readKind flow (typePrefix kind ++ (opening ++ clauseOf name' namespace' named ++ closing)) =
      if kind = .type ∧ isMixed (opening ++ clauseOf name' namespace' named ++ closing) ∧ !flow
        then none
      else (readClause (opening ++ clauseOf name' namespace' named ++ closing)).map (kind, ·) := by
  cases kind with
  | type =>
      rw [typePrefix, List.singleton_append, readKind_type (nonempty rfl)
        (head_around isOpening isClosing)]
      simp only [true_and]
  | value =>
      rw [typePrefix, List.nil_append, if_neg (by simp)]
      exact readKind_value fun rest same => readClause_behind_word isOpening isClosing same

end Declarations

end SonarJS.ImportClauses
