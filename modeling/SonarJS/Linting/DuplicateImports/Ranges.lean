import SonarJS.Linting.DuplicateImports

/-!
# The ranges of merged imports

What the suggestion leaves of the first declaration and of the text behind it, piece by piece.
-/

namespace SonarJS.DuplicateImports

open Pieces UnusedImports ImportClauses

/-! ## The edits -/

section Edits

variable {declaration : Declaration} {before between behind : List Piece} {parts : List Part}

theorem textLength_reverse (pieces : List Piece) :
    textLength pieces.reverse = textLength pieces := by
  rw [textLength, List.map_reverse, List.sum_reverse, textLength]

/-- The keyword ends behind `import` or `type`. -/
theorem firstTokenEnd_keyword (declaration : Declaration) :
    firstTokenEnd (importOrType declaration.importKind) declaration.pieces =
      textLength declaration.keyword := by
  cases type : declaration.type with
  | none =>
      have kind : declaration.importKind = .value := by rw [Declaration.importKind, type]; rfl
      have keyword : declaration.keyword = [.word "import".toList] := by
        rw [Declaration.keyword, type]
      rw [kind, Declaration.pieces, keyword, firstTokenEnd, importOrType_value,
        List.singleton_append, List.takeWhile_cons_of_neg (by simp)]
      rfl
  | some gap =>
      have kind : declaration.importKind = .type := by rw [Declaration.importKind, type]; rfl
      have keyword : declaration.keyword =
          (.word "import".toList :: gap.pieces) ++ [.word "type".toList] := by
        rw [Declaration.keyword, type]
        rfl
      have others : ∀ piece ∈ .word "import".toList :: gap.pieces,
          decide (piece ≠ .word "type".toList) = true := by
        rw [List.forall_mem_cons]
        refine ⟨by decide, ?_⟩
        rintro piece mem
        obtain ⟨text, -, rfl⟩ := List.mem_map.mp mem
        simp
      rw [kind, Declaration.pieces, keyword, firstTokenEnd, importOrType_type, List.append_assoc,
        List.takeWhile_append_of_pos others, List.singleton_append,
        List.takeWhile_cons_of_neg (by simp), List.append_nil, textLength_append]
      rfl

theorem not_isWord_of_mem_source {piece : Piece} (mem : piece ∈ declaration.source) :
    piece.isWord = false := by
  rw [Declaration.source, List.mem_append, List.mem_cons] at mem
  obtain inGap | rfl | inEnd := mem
  · exact not_isWord_of_mem_gap inGap
  · rfl
  · split at inEnd
    · obtain inGap | inEnd := List.mem_append.mp inEnd
      · exact not_isWord_of_mem_gap inGap
      · obtain rfl := List.mem_singleton.mp inEnd
        rfl
    · cases inEnd

theorem lastTokenStart_from (clause : declaration.clause = some parts) :
    lastTokenStart "from".toList declaration.pieces =
      some (textLength (declaration.keyword ++ parts.flatMap Part.pieces)) := by
  have noFrom : ∀ piece ∈ declaration.source.reverse,
      decide (piece ≠ .word "from".toList) = true := by
    intro piece mem
    have noWord := not_isWord_of_mem_source (List.mem_reverse.mp mem)
    refine decide_eq_true ?_
    rintro rfl
    cases noWord
  have reversed : declaration.pieces.reverse = declaration.source.reverse ++
      .word "from".toList :: (declaration.keyword ++ parts.flatMap Part.pieces).reverse := by
    rw [Declaration.pieces, Declaration.rest, clause]
    simp
  rw [lastTokenStart, reversed, List.dropWhile_append_of_pos noFrom,
    List.dropWhile_cons_of_neg (by simp)]
  dsimp only
  rw [textLength_reverse]

theorem lastTokenStart_none (clause : declaration.clause = none)
    (type : declaration.type = none) :
    lastTokenStart "from".toList declaration.pieces = none := by
  have others : ∀ piece ∈ declaration.pieces.reverse,
      decide (piece ≠ .word "from".toList) = true := by
    intro piece mem
    rw [List.mem_reverse, Declaration.pieces, Declaration.keyword, type, Declaration.rest, clause,
      List.singleton_append, List.mem_cons] at mem
    obtain rfl | inSource := mem
    · decide
    · have noWord := not_isWord_of_mem_source inSource
      refine decide_eq_true ?_
      rintro rfl
      cases noWord
  rw [lastTokenStart, List.dropWhile_eq_nil_iff.mpr others]

theorem getLast?_source (declaration : Declaration) :
    ∃ last, declaration.source.getLast? = some last ∧ isWhiteSpace last = false := by
  unfold Declaration.source
  cases declaration.semicolon with
  | none => exact ⟨.literal declaration.module, by simp, rfl⟩
  | some gap =>
      refine ⟨ImportClauses.semicolon, ?_, rfl⟩
      rw [List.getLast?_append_of_ne_nil _ (List.cons_ne_nil _ _), ← List.cons_append,
        List.getLast?_concat]

theorem getLast?_pieces (declaration : Declaration) :
    ∃ last, declaration.pieces.getLast? = some last ∧ isWhiteSpace last = false := by
  obtain ⟨last, isLast, noBlank⟩ := getLast?_source declaration
  refine ⟨last, ?_, noBlank⟩
  have some : declaration.source ≠ [] := by
    intro none
    rw [none] at isLast
    cases isLast
  unfold Declaration.pieces Declaration.rest
  cases declaration.clause with
  | none => rw [List.getLast?_append_of_ne_nil _ some, isLast]
  | some parts =>
      rw [List.getLast?_append_of_ne_nil _ (by simp),
        List.getLast?_append_of_ne_nil _ (List.cons_ne_nil _ _),
        List.getLast?_cons_of_ne_nil some, isLast]

/-- White space is dropped only behind the last comment or token. -/
theorem rdropWhile_append {front : List Piece} {last : Piece} (isLast : front.getLast? = some last)
    (noBlank : isWhiteSpace last = false) :
    (front ++ between).rdropWhile isWhiteSpace = front ++ between.rdropWhile isWhiteSpace := by
  induction between using List.reverseRecOn with
  | nil =>
      rw [List.append_nil, List.rdropWhile_nil, List.append_nil, List.rdropWhile_eq_self_iff]
      intro some
      rw [List.getLast?_eq_some_getLast some] at isLast
      rw [Option.some.inj isLast, noBlank]
      exact Bool.false_ne_true
  | append_singleton between piece ih =>
      rw [← List.append_assoc, List.rdropWhile_concat, List.rdropWhile_concat, ih]
      split <;> simp

/-- The duplicate is removed with the white space before it. -/
theorem removeNode_eq {first second : Declaration}
    (nonempty : ∀ piece ∈ before ++ first.pieces ++ between ++ second.pieces ++ behind,
      piece.text ≠ []) :
    removeNodeWithLeadingWhitespaces
        (before ++ first.pieces ++ between ++ second.pieces ++ behind)
        ⟨second, textLength (before ++ first.pieces ++ between)⟩ =
      before ++ first.pieces ++ (between.rdropWhile isWhiteSpace ++ behind) := by
  obtain ⟨last, isLast, noBlank⟩ := getLast?_pieces first
  obtain ⟨text, rest, isFirst⟩ : ∃ text rest, second.pieces = .word text :: rest := ⟨_, _, rfl⟩
  have frontLast : (before ++ first.pieces).getLast? = some last := by
    rw [List.getLast?_append, isLast]
    rfl
  have taken : takeText (textLength (before ++ first.pieces ++ between))
      (before ++ first.pieces ++ between ++ (second.pieces ++ behind)) =
        before ++ first.pieces ++ between := by
    refine takeText_left ?_
    intro piece head
    refine nonempty piece ?_
    rw [List.append_assoc _ second.pieces]
    exact List.mem_append_right _ (List.mem_of_head? head)
  obtain ⟨blanks, split⟩ := List.rdropWhile_prefix isWhiteSpace (l := between)
  have whole : before ++ first.pieces ++ between ++ second.pieces ++ behind =
      (before ++ first.pieces ++ between.rdropWhile isWhiteSpace) ++ (blanks ++ second.pieces) ++
        behind := by
    conv_lhs => rw [← split]
    simp only [List.append_assoc]
  rw [removeNodeWithLeadingWhitespaces]
  dsimp only
  rw [List.append_assoc _ second.pieces, taken, rdropWhile_append frontLast noBlank,
    ← List.append_assoc, whole, replaceText_pieces rfl]
  · simp only [List.append_nil, List.append_assoc]
  · have length := congrArg textLength split
    simp only [textLength_append] at length ⊢
    omega
  · rw [isFirst]
    simp
  · rw [whole] at nonempty
    intro piece mem
    refine nonempty piece ?_
    rw [List.append_assoc (before ++ first.pieces ++ between.rdropWhile isWhiteSpace)]
    exact List.mem_append_right _ mem

/-- One character. -/
def firstCharacter (piece : Piece) : Piece := piece.cut (List.take 1)

def lastCharacter (piece : Piece) : Piece := piece.cut (List.drop (piece.text.length - 1))

theorem firstCharacter_of_length {piece : Piece} (one : piece.text.length = 1) :
    firstCharacter piece = piece := by
  cases piece <;>
    simp only [firstCharacter, Piece.cut, Piece.text] at one ⊢ <;>
    rw [← one, List.take_length]

theorem lastCharacter_of_length {piece : Piece} (one : piece.text.length = 1) :
    lastCharacter piece = piece := by
  rw [lastCharacter, one]
  exact cut_all

/-- A declaration with another text between its keywords, up to the first and the last
character. -/
def withClause (declaration : Declaration) (first last : Piece) (new : List Piece) : List Piece :=
  declaration.keyword ++ (firstCharacter first :: new ++
    lastCharacter last :: .word "from".toList :: declaration.source)

/-- The specifiers are replaced from the second character of the clause up to its last one. -/
theorem getSpecifiersRange_clause (clause : declaration.clause = some parts) {first last : Piece}
    {inner : List Piece} (split : parts.flatMap Part.pieces = first :: (inner ++ [last]))
    (lastNonempty : last.text ≠ []) :
    getSpecifiersRange ⟨declaration, textLength before⟩ =
      (textLength (before ++ declaration.keyword) + 1,
        textLength (before ++ declaration.keyword ++ first :: inner) +
          (last.text.length - 1)) := by
  have lastLength := List.length_pos_iff.mpr lastNonempty
  rw [getSpecifiersRange, firstTokenEnd_keyword, lastTokenStart_from clause, split]
  simp
  omega

theorem takeText_firstCharacter {front behind : List Piece} {first : Piece}
    (nonempty : first.text ≠ []) (next : ∀ piece ∈ behind.head?, piece.text ≠ []) :
    takeText (textLength front + 1) (front ++ first :: behind) =
      front ++ [firstCharacter first] := by
  rw [takeText_append, takeText_one nonempty next, firstCharacter]

theorem dropText_lastCharacter {front behind : List Piece} {last : Piece}
    (nonempty : last.text ≠ []) :
    dropText (textLength front + (last.text.length - 1)) (front ++ last :: behind) =
      lastCharacter last :: behind := by
  rw [dropText_append, dropText_last nonempty, lastCharacter]

theorem eq_nil_of_textLength {inner : List Piece} (nonempty : ∀ piece ∈ inner, piece.text ≠ [])
    (length : textLength inner = 0) : inner = [] := by
  cases inner with
  | nil => rfl
  | cons next inner =>
      have some := List.length_pos_iff.mpr (nonempty next List.mem_cons_self)
      rw [textLength_cons] at length
      omega

theorem replaceText_clause (clause : declaration.clause = some parts) {first last : Piece}
    {inner new rest : List Piece} (split : parts.flatMap Part.pieces = first :: (inner ++ [last]))
    (nonempty : ∀ piece ∈ declaration.pieces, piece.text ≠ []) :
    replaceText (getSpecifiersRange ⟨declaration, textLength before⟩) new
        (before ++ declaration.pieces ++ rest) =
      before ++ withClause declaration first last new ++ rest := by
  have whole : before ++ declaration.pieces ++ rest =
      (before ++ declaration.keyword) ++ first :: (inner ++
        last :: .word "from".toList :: (declaration.source ++ rest)) := by
    rw [Declaration.pieces, Declaration.rest, clause]
    simp [split]
  have pieces : declaration.pieces = declaration.keyword ++ (first :: inner ++
      last :: .word "from".toList :: declaration.source) := by
    rw [Declaration.pieces, Declaration.rest, clause]
    simp [split]
  rw [pieces] at nonempty
  have firstNonempty : first.text ≠ [] := nonempty first (by simp)
  have lastNonempty : last.text ≠ [] := nonempty last (by simp)
  have innerNonempty : ∀ piece ∈ inner, piece.text ≠ [] :=
    fun piece mem => nonempty piece (by simp [mem])
  rw [getSpecifiersRange_clause clause split lastNonempty, whole]
  unfold replaceText
  split
  · -- the declaration has only two characters there
    rename_i same
    obtain ⟨length, rfl⟩ := same
    have firstLength := List.length_pos_iff.mpr firstNonempty
    have lastLength := List.length_pos_iff.mpr lastNonempty
    simp only [textLength_append, textLength_cons] at length
    have noInner := eq_nil_of_textLength innerNonempty (by omega)
    have firstOne : first.text.length = 1 := by omega
    have lastOne : last.text.length = 1 := by omega
    rw [noInner, withClause, firstCharacter_of_length firstOne, lastCharacter_of_length lastOne]
    simp
  · have next : ∀ piece ∈ (inner ++ last :: .word "from".toList ::
        (declaration.source ++ rest)).head?, piece.text ≠ [] := by
      intro piece head
      cases inner with
      | nil =>
          obtain rfl := Option.some.inj head
          exact lastNonempty
      | cons next inner =>
          obtain rfl := Option.some.inj head
          exact innerNonempty _ List.mem_cons_self
    have around : (before ++ declaration.keyword) ++ first :: (inner ++
        last :: .word "from".toList :: (declaration.source ++ rest)) =
        (before ++ declaration.keyword ++ first :: inner) ++
          last :: .word "from".toList :: (declaration.source ++ rest) := by simp
    rw [takeText_firstCharacter firstNonempty next, around, dropText_lastCharacter lastNonempty]
    simp [withClause]

/-- Without a clause, the text is put one character behind `import`. -/
def withInsertion (declaration : Declaration) (new : List Piece) : List Piece :=
  declaration.keyword ++ takeText 1 declaration.source ++ new ++ dropText 1 declaration.source

theorem getSpecifiersRange_sideEffect (clause : declaration.clause = none)
    (type : declaration.type = none) : getSpecifiersRange ⟨declaration, textLength before⟩ =
      (textLength (before ++ declaration.keyword) + 1,
        textLength (before ++ declaration.keyword) + 1) := by
  rw [getSpecifiersRange, firstTokenEnd_keyword, lastTokenStart_none clause type]
  simp

theorem replaceText_sideEffect (clause : declaration.clause = none)
    (type : declaration.type = none) {new rest : List Piece} (some : new ≠ [])
    (nonempty : ∀ piece ∈ declaration.source ++ rest, piece.text ≠ []) :
    replaceText (getSpecifiersRange ⟨declaration, textLength before⟩) new
        (before ++ declaration.pieces ++ rest) =
      before ++ withInsertion declaration new ++ rest := by
  have whole : before ++ declaration.pieces ++ rest =
      (before ++ declaration.keyword) ++ (declaration.source ++ rest) := by
    rw [Declaration.pieces, Declaration.rest, clause]
    simp
  obtain ⟨piece, pieces, isSource⟩ : ∃ piece pieces, declaration.source = piece :: pieces := by
    obtain ⟨last, isLast, -⟩ := getLast?_source declaration
    exact List.exists_cons_of_ne_nil fun none => by simp [none] at isLast
  rw [isSource] at nonempty
  have left : takeText 1 (declaration.source ++ rest) = takeText 1 declaration.source := by
    have some := nonempty piece (by simp)
    rw [isSource, List.cons_append, takeText_one some, takeText_one some]
    · intro next isNext
      exact nonempty next (by simp [List.mem_of_head? isNext])
    · intro next isNext
      exact nonempty next (List.mem_cons_of_mem _ (List.mem_of_head? isNext))
  have right : dropText 1 (declaration.source ++ rest) = dropText 1 declaration.source ++ rest := by
    rw [isSource, dropText_one_append nonempty]
  rw [replaceText, getSpecifiersRange_sideEffect clause type, if_neg fun same => some same.2,
    whole, takeText_append, dropText_append, left, right, withInsertion]
  simp only [List.append_assoc]

end Edits

end SonarJS.DuplicateImports
