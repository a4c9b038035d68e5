import SonarJS.Regex.Tokenizer.Literals

/-!
# Locations of regular expression nodes in string literals

`getRegexpRange` takes the indices of a node in the pattern for indices of tokens. They are,
as long as each token before them stands for one code unit of the value. A character outside
of the basic plane is one token and two code units, so is an octal escape that was given a
third digit, and a line continuation that is read as an escape is one token and none. The
node is located if these cancel out in front of it and up to its end, or if it ends the
literal, where indices behind the last token stand for the last.
-/

namespace SonarJS.Regex

open StringLiteral

/-! ## The helper -/

/-- The nodes that a regular expression can come from. Ranges are those of the file. -/
inductive PatternNode
  | regexLiteral
  | stringLiteral (value raw : Text) (range : ℕ × ℕ)
  | templateLiteral (range : ℕ × ℕ)
  | other (type : Text)

inductive Failure
  | tokenizer (stop : Stop)
  | error (message : Text)
  | typeError
deriving DecidableEq

def nodeRange (range : ℕ × ℕ) : ℕ × ℕ := (0, range.2 - range.1)

def unquote (s : Text) : Except Failure Text :=
  if s.head? ≠ some 0x27 ∧ s.head? ≠ some 0x22 then
    .error (.error (utf16 "invalid string to unquote: " ++ s))
  else .ok (substring s 1 (s.length - 1))

/-- An element of an array, which is undefined outside of its bounds. -/
def elementAt {A : Type} (array : List A) (i : ℤ) : Option A :=
  if 0 ≤ i then array[i.toNat]? else none

/-- The element, or the exception of an access to a property of nothing. -/
def orTypeError {A : Type} : Option A → Except Failure A
  | some a => .ok a
  | none => .error .typeError

def getRegexpRange (node : PatternNode) (start last : ℕ) : Except Failure (ℕ × ℕ) :=
  match node with
  | .regexLiteral => .ok (start, last)
  | .stringLiteral value raw range =>
    if value = [] then .ok (0, 2)
    else do
      let tokens ← (tokenizeString (← unquote raw)).mapError .tokenizer
      if start = last then
        if (start - 1 : ℤ) < tokens.length then do
          let token ← orTypeError (elementAt tokens (start - 1))
          return (token.range.1 + 1, token.range.1 + 1)
        else do
          let token ← orTypeError tokens.getLast?
          return (token.range.2 + 1, token.range.2 + 1)
      else
        let endToken := min (last - 2 : ℤ) (tokens.length - 1)
        match elementAt tokens (start - 1), elementAt tokens endToken with
        | some startToken, some endToken => .ok (startToken.range.1 + 1, endToken.range.2 + 1)
        | _, _ => .ok (nodeRange range)
  | .templateLiteral range => .ok (nodeRange range)
  | .other type => .error (.error (utf16 "Expected regexp or string literal, got " ++ type))

/-! ## Tokens and code units -/

/-- The character, or the escape, is a surrogate pair of the value. -/
def isWide (piece : Piece) : Bool := piece.value.length = 2

/-- How many code units more than tokens there are. -/
def drift (pieces : List Piece) : ℤ :=
  pieces.countP isWide + swallowed pieces - pieces.countP isSeparator

/-- An octal escape at the end of the first pieces takes the first of the others. -/
def Straddles (pieces pieces' : List Piece) : Prop :=
  ∃ init first second c rest, pieces = init ++ [.octal [first, second]] ∧
    pieces' = .character c :: rest ∧ isDigit 8 c

section Drift

variable {quote : CodeUnit} {pieces pieces' : List Piece} {pos : ℕ}

theorem placeOnce_append (pos : ℕ) (pieces pieces' : List Piece) :
    placeOnce pos (pieces ++ pieces') =
      placeOnce pos pieces ++ placeOnce (pos + (raw pieces).length) pieces' := by
  induction pieces generalizing pos with
  | nil => rfl
  | cons piece pieces ih =>
      rw [List.cons_append, placeOnce, placeOnce, raw_cons, List.length_append, ih, Nat.add_assoc]
      split_ifs <;> rfl

theorem Straddles.cons (h : Straddles pieces pieces') (piece : Piece) :
    Straddles (piece :: pieces) pieces' := by
  obtain ⟨init, first, second, c, rest, rfl, rfl, digit⟩ := h
  exact ⟨piece :: init, first, second, c, rest, rfl, rfl, digit⟩

/-- Pieces are reread apart from each other, unless an octal escape reaches over. -/
theorem reread_append (apart : ¬ Straddles pieces pieces') :
    reread (pieces ++ pieces') = reread pieces ++ reread pieces' := by
  fun_induction reread pieces with
  | case1 first second c pieces digit ih =>
      rw [List.cons_append, List.cons_append, reread, if_pos digit,
        ih fun straddles => apart ((straddles.cons _).cons _)]
      rfl
  | case2 first second c pieces noDigit ih =>
      rw [List.cons_append, List.cons_append, reread, if_neg noDigit, ← List.cons_append,
        ih fun straddles => apart (straddles.cons _)]
      rfl
  | case3 pieces ih =>
      rw [List.cons_append, reread, ih fun straddles => apart (straddles.cons _)]
      rfl
  | case4 pieces ih =>
      rw [List.cons_append, reread, ih fun straddles => apart (straddles.cons _)]
      rfl
  | case5 piece pieces noOctal noLS noPS ih =>
      have rest := ih fun straddles => apart (straddles.cons _)
      rw [List.cons_append, List.cons_append]
      by_cases octal : ∃ first second c more,
          piece = .octal [first, second] ∧ pieces ++ pieces' = .character c :: more
      case pos =>
        obtain ⟨first, second, c, more, rfl, next⟩ := octal
        have noDigit : ¬ isDigit 8 c := by
          cases pieces with
          | nil => exact fun digit => apart ⟨[], first, second, c, more, rfl, next, digit⟩
          | cons piece pieces =>
              cases next
              exact (noOctal first second c pieces rfl rfl).elim
        rw [next, reread, if_neg noDigit, ← next, rest]
      case neg =>
        rw [reread, rest]
        · intro first second c more isOctal next
          exact octal ⟨first, second, c, more, isOctal, next⟩
        · exact noLS
        · exact noPS
  | case6 => rfl

theorem length_value_le (piece : Piece) : piece.value.length ≤ 2 := by
  cases piece with
  | lineContinuation terminator => exact Nat.zero_le 2
  | single c =>
      rw [Piece.value]
      cases singleEscape c with
      | none => exact Nat.zero_le 2
      | some v => exact length_encode_le v
  | _ => exact length_encode_le _

theorem length_placeOnce_cons (pos : ℕ) (piece : Piece) (pieces : List Piece) :
    (placeOnce pos (piece :: pieces)).length =
      (if piece.value = [] then 0 else 1) +
        (placeOnce (pos + piece.raw.length) pieces).length := by
  rw [placeOnce]
  split
  · exact (Nat.zero_add _).symm
  · rw [List.length_cons, Nat.add_comm]

theorem drift_cons {piece : Piece} (same : swallowed (piece :: pieces) = swallowed pieces) :
    drift (piece :: pieces) =
      (if isWide piece then 1 else 0) - (if isSeparator piece then 1 else 0) + drift pieces := by
  rw [drift, drift, same, List.countP_cons, List.countP_cons]
  split <;> split <;> push_cast <;> omega

theorem drift_separator {terminator : LineTerminator}
    (separates : isSeparator (.lineContinuation terminator)) :
    drift (.lineContinuation terminator :: pieces) = drift pieces - 1 := by
  have same : swallowed (.lineContinuation terminator :: pieces) = swallowed pieces := by
    rw [swallowed]
    intro _ _ _ _ isOctal
    cases isOctal
  have narrow : ¬ isWide (.lineContinuation terminator) := by simp [isWide, Piece.value]
  rw [drift_cons same, if_neg narrow, if_pos separates]
  omega

/-- A piece that is read as it is. -/
theorem ite_value_eq_nil {piece : Piece} (noSeparator : ¬ isSeparator piece) :
    ((if piece.value = [] then 0 else 1 : ℕ) : ℤ) =
      piece.value.length - (if isWide piece then 1 else 0) +
        (if isSeparator piece then 1 else 0) := by
  have short := length_value_le piece
  rw [if_neg noSeparator, isWide]
  match length : piece.value with
  | [] => rfl
  | [_] => rfl
  | [_, _] => rfl
  | _ :: _ :: _ :: _ =>
      rw [length] at short
      simp at short

/-- There are as many tokens as code units, but for the drift. -/
theorem length_placeOnce_reread (octals : ∀ digits, .octal digits ∈ pieces → AreDigits 8 digits)
    (pos : ℕ) :
    ((placeOnce pos (reread pieces)).length : ℤ) = (value pieces).length - drift pieces := by
  fun_induction reread pieces generalizing pos with
  | case1 first second c pieces digit ih =>
      have hasValue : (Piece.octal [first, second, c.toUInt16]).value ≠ [] := encode_ne_nil _
      have pair : mathValue 8 [first, second] < 8 ^ 2 :=
        mathValue_lt (octals _ List.mem_cons_self)
      have rest := ih fun digits member => octals digits (.tail _ (.tail _ member))
      have range := isDigit_eight_iff.mp digit
      have escape : (Piece.value (.octal [first, second])).length = 1 := by
        rw [Piece.value, length_encode, if_neg (by omega)]
      have character : (Piece.value (.character c)).length = 1 := by
        rw [Piece.value, length_encode, if_neg (by omega)]
      have drifts :
          drift (.octal [first, second] :: .character c :: pieces) = drift pieces + 1 := by
        have wide : (Piece.octal [first, second] :: .character c :: pieces).countP isWide =
            pieces.countP isWide := by
          rw [List.countP_cons_of_neg (by simp [isWide, escape]),
            List.countP_cons_of_neg (by simp [isWide, character])]
        have separators : (Piece.octal [first, second] :: .character c :: pieces).countP
            isSeparator = pieces.countP isSeparator := rfl
        rw [drift, drift, wide, separators, swallowed, if_pos digit]
        omega
      rw [length_placeOnce_cons, if_neg hasValue, Int.natCast_add, rest, value_cons, value_cons,
        List.length_append, List.length_append, escape, character, drifts]
      omega
  | case2 first second c pieces noDigit ih =>
      have same : swallowed (.octal [first, second] :: .character c :: pieces) =
          swallowed (.character c :: pieces) := by
        rw [swallowed, if_neg noDigit]
      have rest := ih fun digits member => octals digits (.tail _ member)
      rw [length_placeOnce_cons, Int.natCast_add, ite_value_eq_nil (by simp [isSeparator]), rest,
        value_cons _ (.character c :: pieces), List.length_append, drift_cons same]
      omega
  | case3 pieces ih =>
      have hasValue : (Piece.nonEscape LS.toNat).value ≠ [] := encode_ne_nil _
      have noValue : value (.lineContinuation .ls :: pieces) = value pieces := rfl
      have rest := ih fun digits member => octals digits (.tail _ member)
      rw [length_placeOnce_cons, if_neg hasValue, Int.natCast_add, rest, noValue,
        drift_separator rfl]
      omega
  | case4 pieces ih =>
      have hasValue : (Piece.nonEscape PS.toNat).value ≠ [] := encode_ne_nil _
      have noValue : value (.lineContinuation .ps :: pieces) = value pieces := rfl
      have rest := ih fun digits member => octals digits (.tail _ member)
      rw [length_placeOnce_cons, if_neg hasValue, Int.natCast_add, rest, noValue,
        drift_separator rfl]
      omega
  | case5 piece pieces noOctal noLS noPS ih =>
      have same : swallowed (piece :: pieces) = swallowed pieces := by
        rw [swallowed]
        exact noOctal
      have rest := ih fun digits member => octals digits (.tail _ member)
      rw [length_placeOnce_cons, Int.natCast_add, ite_value_eq_nil (not_isSeparator noLS noPS),
        rest, value_cons, List.length_append, drift_cons same]
      omega
  | case6 => rfl

theorem areDigits_of_mem_isBody (body : IsBody quote pieces) {digits : Text}
    (member : .octal digits ∈ pieces) : AreDigits 8 digits := by
  induction pieces with
  | nil => cases member
  | cons piece pieces ih =>
      obtain rfl | later := List.mem_cons.mp member
      · exact body.1.1
      · exact ih body.2 later

end Drift

/-! ## Borders -/

section Borders

variable {pieces pieces' : List Piece} {piece : Piece}

/-- Without a slash, no token is doubled. -/
theorem place_eq_placeOnce (noSlash : .character 0x2F ∉ pieces) (pos : ℕ) :
    place pos pieces = placeOnce pos pieces := by
  induction pieces generalizing pos with
  | nil => rfl
  | cons piece pieces ih =>
      have other : piece ≠ .character 0x2F := fun same => noSlash (same ▸ List.mem_cons_self)
      rw [place, placeOnce, tokensOf, if_neg other,
        ih fun member => noSlash (List.mem_cons_of_mem piece member)]
      split_ifs <;> rfl

theorem mem_reread_character {c : ℕ} (member : .character c ∈ reread pieces) :
    .character c ∈ pieces := by
  fun_induction reread pieces with
  | case1 first second c' pieces digit ih =>
      obtain here | later := List.mem_cons.mp member
      · cases here
      · exact List.mem_cons_of_mem _ (List.mem_cons_of_mem _ (ih later))
  | case2 first second c' pieces noDigit ih =>
      obtain here | later := List.mem_cons.mp member
      · cases here
      · exact List.mem_cons_of_mem _ (ih later)
  | case3 pieces ih =>
      obtain here | later := List.mem_cons.mp member
      · cases here
      · exact List.mem_cons_of_mem _ (ih later)
  | case4 pieces ih =>
      obtain here | later := List.mem_cons.mp member
      · cases here
      · exact List.mem_cons_of_mem _ (ih later)
  | case5 piece pieces noOctal noLS noPS ih =>
      obtain here | later := List.mem_cons.mp member
      · exact here ▸ List.mem_cons_self
      · exact List.mem_cons_of_mem _ (ih later)
  | case6 => exact member

/-- A token starts where a piece with a value does. -/
theorem exists_head_reread (hasValue : piece.value ≠ []) (pieces : List Piece) :
    ∃ piece' pieces', reread (piece :: pieces) = piece' :: pieces' ∧ piece'.value ≠ [] := by
  generalize whole : piece :: pieces = all
  fun_cases reread all with
  | case1 first second c rest digit => exact ⟨_, _, rfl, encode_ne_nil _⟩
  | case2 first second c rest noDigit => exact ⟨_, _, rfl, encode_ne_nil _⟩
  | case3 rest => exact ⟨_, _, rfl, encode_ne_nil _⟩
  | case4 rest => exact ⟨_, _, rfl, encode_ne_nil _⟩
  | case5 head rest noOctal noLS noPS =>
      cases whole
      exact ⟨_, _, rfl, hasValue⟩
  | case6 => cases whole

theorem length_reread_le (pieces : List Piece) : (reread pieces).length ≤ pieces.length := by
  fun_induction reread pieces with
  | case1 first second c pieces digit ih => simp only [List.length_cons]; omega
  | case2 first second c pieces noDigit ih => exact Nat.succ_le_succ ih
  | case3 pieces ih => exact Nat.succ_le_succ ih
  | case4 pieces ih => exact Nat.succ_le_succ ih
  | case5 piece pieces noOctal noLS noPS ih => exact Nat.succ_le_succ ih
  | case6 => exact le_rfl

theorem reread_straddling (init : List Piece) (first second : CodeUnit) {c : ℕ}
    (digit : isDigit 8 c) (rest : List Piece) :
    reread (init ++ .octal [first, second] :: .character c :: rest) =
      reread init ++ .octal [first, second, c.toUInt16] :: reread rest := by
  rw [reread_append, reread, if_pos digit]
  rintro ⟨_, _, _, _, _, _, same, _⟩
  cases same

/-- A token ends where a piece with a value does. -/
theorem exists_last_reread (hasValue : piece.value ≠ []) (pieces : List Piece) :
    ∃ init piece', reread (pieces ++ [piece]) = init ++ [piece'] ∧ piece'.value ≠ [] := by
  by_cases straddles : Straddles pieces [piece]
  case pos =>
    obtain ⟨init, first, second, c, rest, rfl, same, digit⟩ := straddles
    cases same
    refine ⟨reread init, .octal [first, second, c.toUInt16], ?_, encode_ne_nil _⟩
    rw [List.append_assoc]
    exact reread_straddling init first second digit []
  case neg =>
    obtain ⟨piece', rest, same, hasValue'⟩ := exists_head_reread hasValue []
    have noRest : rest = [] := by
      have short := length_reread_le [piece]
      rw [same] at short
      exact List.length_eq_zero_iff.mp (Nat.le_zero.mp (Nat.le_of_succ_le_succ short))
    rw [reread_append straddles, same, noRest]
    exact ⟨_, _, rfl, hasValue'⟩

/-- No token starts or ends where an octal escape reaches over. -/
theorem Straddles.not_border (straddles : Straddles pieces pieces') {t : StringLiteralToken}
    (member : t ∈ placeOnce 0 (reread (pieces ++ pieces'))) :
    t.range.1 ≠ (raw pieces).length ∧ t.range.2 ≠ (raw pieces).length := by
  obtain ⟨init, first, second, c, rest, rfl, rfl, digit⟩ := straddles
  have border : (raw (init ++ [.octal [first, second]])).length = (raw init).length + 3 := by
    rw [raw_append, List.length_append, length_raw_singleton]
    rfl
  rw [List.append_assoc, List.singleton_append, reread_straddling _ _ _ digit, placeOnce_append,
    raw_reread] at member
  obtain before | here := List.mem_append.mp member
  · obtain ⟨_, _, last⟩ := le_of_mem_place (mem_placeOnce.mp before)
    rw [raw_reread] at last
    omega
  · have hasValue : (Piece.octal [first, second, c.toUInt16]).value ≠ [] := encode_ne_nil _
    rw [placeOnce, if_neg hasValue] at here
    obtain rfl | after := List.mem_cons.mp here
    · simp only [token, Piece.raw, List.length_cons, List.length_nil]
      omega
    · obtain ⟨first', _, _⟩ := le_of_mem_place (mem_placeOnce.mp after)
      simp only [Piece.raw, List.length_cons, List.length_nil] at first'
      omega

/-- The token that starts at a border. -/
theorem exists_token_at_start (hasValue : piece.value ≠ [])
    (apart : ¬ Straddles pieces (piece :: pieces')) :
    ∃ t, (placeOnce 0 (reread (pieces ++ piece :: pieces')))[
        (placeOnce 0 (reread pieces)).length]? = some t ∧ t.range.1 = (raw pieces).length := by
  obtain ⟨piece', rest, same, hasValue'⟩ := exists_head_reread hasValue pieces'
  refine ⟨token (raw pieces).length piece', ?_, rfl⟩
  rw [reread_append apart, placeOnce_append, same, placeOnce, if_neg hasValue',
    List.getElem?_append_right le_rfl, Nat.sub_self, raw_reread, Nat.zero_add]
  rfl

/-- The token that ends at a border. -/
theorem exists_token_at_end (hasValue : piece.value ≠ [])
    (apart : ¬ Straddles (pieces ++ [piece]) pieces') :
    ∃ i t, (placeOnce 0 (reread (pieces ++ [piece]))).length = i + 1 ∧
      (placeOnce 0 (reread (pieces ++ [piece] ++ pieces')))[i]? = some t ∧
        t.range.2 = (raw (pieces ++ [piece])).length := by
  obtain ⟨init, piece', same, hasValue'⟩ := exists_last_reread hasValue pieces
  have split : placeOnce 0 (init ++ [piece']) =
      placeOnce 0 init ++ [token (raw init).length piece'] := by
    rw [placeOnce_append, placeOnce, if_neg hasValue', Nat.zero_add]
    rfl
  have border := raw_reread (pieces ++ [piece])
  rw [same] at border
  refine ⟨(placeOnce 0 init).length, token (raw init).length piece', ?_, ?_, ?_⟩
  · rw [same, split, List.length_append]
    rfl
  · rw [reread_append apart, placeOnce_append, same, split, List.append_assoc,
      List.getElem?_append_right le_rfl, Nat.sub_self]
    rfl
  · rw [← border, raw_append, List.length_append, length_raw_singleton]
    rfl

end Borders

/-! ## Nodes -/

/-- The pieces of a node of the pattern, whose indices count from 1. -/
structure Splits (pieces : List Piece) (start last : ℕ) (before node after : List Piece) :
    Prop where
  split : pieces = before ++ node ++ after
  start : start = (value before).length + 1
  last : last = (value (before ++ node)).length + 1
  head : ∃ piece rest, node = piece :: rest ∧ piece.value ≠ []
  final : ∃ init piece, node = init ++ [piece] ∧ piece.value ≠ []

/-- The range of the pieces of a node in a literal with its quotes. -/
def Located (pieces : List Piece) (start last : ℕ) (range : ℕ × ℕ) : Prop :=
  ∃ before node after, Splits pieces start last before node after ∧
    range = ((raw before).length + 1, (raw (before ++ node)).length + 1)

/-- No piece that gives a token. -/
def Silent (pieces : List Piece) : Prop :=
  ∀ piece ∈ pieces, piece.value = [] ∧ ¬ isSeparator piece

/-- Surrogate pairs, octal escapes with a third digit and the line continuations that are
read as escapes cancel out in front of a node and up to its end, where surrogate pairs and
octal escapes may prevail if nothing follows the node. No octal escape reaches over its
borders. -/
def Balanced (before node after : List Piece) : Prop :=
  (¬ Straddles before (node ++ after) ∧ drift before = 0) ∧
    ¬ Straddles (before ++ node) after ∧
      (drift (before ++ node) = 0 ∨ 0 ≤ drift (before ++ node) ∧ Silent after)

section Nodes

variable {quote : CodeUnit} {pieces before node after : List Piece} {start last : ℕ}

theorem silent_cons {piece : Piece} :
    Silent (piece :: pieces) ↔ (piece.value = [] ∧ ¬ isSeparator piece) ∧ Silent pieces :=
  List.forall_mem_cons

theorem placeOnce_eq_nil_iff (pos : ℕ) (piece : Piece) (pieces : List Piece) :
    placeOnce pos (piece :: pieces) = [] ↔
      piece.value = [] ∧ placeOnce (pos + piece.raw.length) pieces = [] := by
  rw [placeOnce]
  split_ifs with noValue <;> simp [noValue]

theorem silent_iff (pos : ℕ) (pieces : List Piece) :
    placeOnce pos (reread pieces) = [] ↔ Silent pieces := by
  fun_induction reread pieces generalizing pos with
  | case1 first second c pieces digit ih =>
      rw [placeOnce_eq_nil_iff, silent_cons]
      constructor
      · exact fun h => absurd h.1 (encode_ne_nil _)
      · exact fun h => absurd h.1.1 (encode_ne_nil _)
  | case2 first second c pieces noDigit ih =>
      rw [placeOnce_eq_nil_iff, silent_cons]
      constructor
      · exact fun h => absurd h.1 (encode_ne_nil _)
      · exact fun h => absurd h.1.1 (encode_ne_nil _)
  | case3 pieces ih =>
      rw [placeOnce_eq_nil_iff, silent_cons]
      constructor
      · exact fun h => absurd h.1 (encode_ne_nil _)
      · exact fun h => absurd rfl h.1.2
  | case4 pieces ih =>
      rw [placeOnce_eq_nil_iff, silent_cons]
      constructor
      · exact fun h => absurd h.1 (encode_ne_nil _)
      · exact fun h => absurd rfl h.1.2
  | case5 piece pieces noOctal noLS noPS ih =>
      rw [placeOnce_eq_nil_iff, silent_cons, ih, and_iff_left (not_isSeparator noLS noPS)]
  | case6 => exact iff_of_true rfl fun piece member => absurd member List.not_mem_nil

theorem lt_of_index_lt {i j : ℕ} {t t' : StringLiteralToken}
    (here : (placeOnce 0 pieces)[i]? = some t) (there : (placeOnce 0 pieces)[j]? = some t')
    (lt : i < j) : t.range.1 < t'.range.1 ∧ t.range.2 < t'.range.2 := by
  obtain ⟨inside, rfl⟩ := List.getElem?_eq_some_iff.mp here
  obtain ⟨inside', rfl⟩ := List.getElem?_eq_some_iff.mp there
  have apart := List.pairwise_iff_getElem.mp (pairwise_placeOnce 0 pieces) i j inside inside' lt
  have nonempty := (le_of_mem_place (mem_placeOnce.mp (List.getElem_mem inside))).2.1
  have nonempty' := (le_of_mem_place (mem_placeOnce.mp (List.getElem_mem inside'))).2.1
  omega

/-- The ranges of tokens increase at both ends. -/
theorem index_unique {i j : ℕ} {t t' : StringLiteralToken}
    (here : (placeOnce 0 pieces)[i]? = some t) (there : (placeOnce 0 pieces)[j]? = some t')
    (same : t.range.1 = t'.range.1 ∨ t.range.2 = t'.range.2) : i = j := by
  obtain lt | eq | gt := lt_trichotomy i j
  · have := lt_of_index_lt here there lt
    omega
  · exact eq
  · have := lt_of_index_lt there here gt
    omega

theorem start_iff (octals : ∀ digits, .octal digits ∈ before → AreDigits 8 digits)
    (head : ∃ piece rest, node = piece :: rest ∧ piece.value ≠ []) :
    (∃ t, (placeOnce 0 (reread (before ++ node)))[(value before).length]? = some t ∧
        t.range.1 = (raw before).length) ↔
      ¬ Straddles before node ∧ drift before = 0 := by
  obtain ⟨piece, rest, rfl, hasValue⟩ := head
  have count := length_placeOnce_reread octals 0
  constructor
  · rintro ⟨t, here, starts⟩
    have apart : ¬ Straddles before (piece :: rest) := fun straddles =>
      (straddles.not_border (List.mem_of_getElem? here)).1 starts
    obtain ⟨t', there, starts'⟩ := exists_token_at_start hasValue apart
    have same := index_unique here there (.inl (starts.trans starts'.symm))
    exact ⟨apart, by omega⟩
  · rintro ⟨apart, noDrift⟩
    obtain ⟨t, here, starts⟩ := exists_token_at_start hasValue apart
    have same : (placeOnce 0 (reread before)).length = (value before).length := by omega
    exact ⟨t, same ▸ here, starts⟩

theorem end_iff (octals : ∀ digits, .octal digits ∈ node → AreDigits 8 digits)
    (final : ∃ init piece, node = init ++ [piece] ∧ piece.value ≠ []) :
    (∃ t, (placeOnce 0 (reread (node ++ after)))[min ((value node).length - 1)
          ((placeOnce 0 (reread (node ++ after))).length - 1)]? = some t ∧
        t.range.2 = (raw node).length) ↔
      ¬ Straddles node after ∧ (drift node = 0 ∨ 0 ≤ drift node ∧ Silent after) := by
  obtain ⟨init, piece, rfl, hasValue⟩ := final
  have count := length_placeOnce_reread octals 0
  have someValue : 0 < (value (init ++ [piece])).length := by
    have positive := List.length_pos_of_ne_nil hasValue
    rw [value_append, List.length_append, value_cons, List.length_append]
    omega
  -- how many tokens there are behind the node
  have behind : ¬ Straddles (init ++ [piece]) after →
      (placeOnce 0 (reread (init ++ [piece] ++ after))).length =
        (placeOnce 0 (reread (init ++ [piece]))).length +
          (placeOnce (0 + (raw (init ++ [piece])).length) (reread after)).length := by
    intro apart
    rw [reread_append apart, placeOnce_append, List.length_append, raw_reread]
  have silent := silent_iff (0 + (raw (init ++ [piece])).length) after
  rw [← List.length_eq_zero_iff] at silent
  constructor
  · rintro ⟨t, here, ends⟩
    have apart : ¬ Straddles (init ++ [piece]) after := fun straddles =>
      (straddles.not_border (List.mem_of_getElem? here)).2 ends
    obtain ⟨i, t', last, there, ends'⟩ := exists_token_at_end hasValue apart
    have same := index_unique here there (.inr (ends.trans ends'.symm))
    have total := behind apart
    refine ⟨apart, ?_⟩
    rw [← silent]
    omega
  · rintro ⟨apart, balanced⟩
    obtain ⟨i, t, last, here, ends⟩ := exists_token_at_end hasValue apart
    have total := behind apart
    rw [← silent] at balanced
    refine ⟨t, ?_, ends⟩
    have same : min ((value (init ++ [piece])).length - 1)
        ((placeOnce 0 (reread (init ++ [piece] ++ after))).length - 1) = i := by
      omega
    rw [same]
    exact here

/-- What has a value has a first and a last piece with a value. -/
theorem exists_first_piece (hasValue : value pieces ≠ []) :
    ∃ before piece rest, pieces = before ++ piece :: rest ∧ value before = [] ∧
      piece.value ≠ [] := by
  induction pieces with
  | nil => exact absurd rfl hasValue
  | cons piece pieces ih =>
      by_cases here : piece.value = []
      case neg => exact ⟨[], piece, pieces, rfl, rfl, here⟩
      case pos =>
        rw [value_cons, here] at hasValue
        obtain ⟨before, first, rest, rfl, noValue, hasValue⟩ := ih hasValue
        refine ⟨piece :: before, first, rest, rfl, ?_, hasValue⟩
        rw [value_cons, here, noValue]
        rfl

theorem exists_last_piece (hasValue : value pieces ≠ []) :
    ∃ init piece after, pieces = init ++ piece :: after ∧ value after = [] ∧
      piece.value ≠ [] := by
  induction pieces using List.reverseRecOn with
  | nil => exact absurd rfl hasValue
  | append_singleton pieces piece ih =>
      by_cases here : piece.value = []
      case neg => exact ⟨pieces, piece, [], rfl, rfl, here⟩
      case pos =>
        have same : value (pieces ++ [piece]) = value pieces := by
          simp [value_append, here]
        rw [same] at hasValue
        obtain ⟨init, last, after, rfl, noValue, hasValue⟩ := ih hasValue
        refine ⟨init, last, after ++ [piece], by simp, ?_, hasValue⟩
        simp [value_append, noValue, here]

theorem exists_splits (body : IsBody quote pieces) (first : 1 ≤ start) (nonempty : start < last)
    (inside : last ≤ (value pieces).length + 1) (noCut : ¬ CutsPair (value pieces) (start - 1))
    (noCut' : ¬ CutsPair (value pieces) (last - 1)) :
    ∃ before node after, Splits pieces start last before node after := by
  obtain ⟨before, rest, split, length⟩ := exists_split body (by omega) noCut
  obtain ⟨upto, after, split', length'⟩ := exists_split body (by omega) noCut'
  obtain ⟨middle, rfl, rfl⟩ : ∃ middle, upto = before ++ middle ∧ rest = middle ++ after := by
    obtain ⟨middle, rfl, rfl⟩ | ⟨middle, rfl, rfl⟩ :=
      List.append_eq_append_iff.mp (split.symm.trans split')
    · exact ⟨middle, rfl, rfl⟩
    · rw [value_append, List.length_append] at length
      omega
  have hasValue : value middle ≠ [] := by
    intro noValue
    rw [value_append, noValue, List.append_nil] at length'
    omega
  -- the line continuations at its ends do not belong to the node
  obtain ⟨front, head, rest, rfl, noFront, hasHead⟩ := exists_first_piece hasValue
  have hasValue' : value (head :: rest) ≠ [] := by
    rw [value_cons]
    exact fun none => hasHead (List.append_eq_nil_iff.mp none).1
  obtain ⟨init, final, back, same, noBack, hasFinal⟩ := exists_last_piece hasValue'
  refine ⟨before ++ front, init ++ [final], back ++ after, ?_, ?_, ?_, ?_, init, final, rfl,
    hasFinal⟩
  · rw [split, same]
    simp
  · rw [value_append, noFront, List.append_nil]
    omega
  · have whole : value (before ++ front ++ (init ++ [final])) =
        value (before ++ (front ++ head :: rest)) := by
      simp [same, value_append, noBack]
    rw [whole]
    omega
  · cases init with
    | nil => exact ⟨final, [], rfl, hasFinal⟩
    | cons piece init =>
        obtain ⟨rfl, -⟩ := List.cons.inj same
        exact ⟨head, _, rfl, hasHead⟩

/-- A border is given by its index, if no line continuation can be on either side of it. -/
theorem border_unique {l l' r r' : List Piece} (same : l ++ r = l' ++ r')
    (length : (value l).length = (value l').length)
    (tight : ∀ between, l' = l ++ between ∧ r = between ++ r' ∨
      l = l' ++ between ∧ r' = between ++ r → value between = [] → between = []) :
    l = l' ∧ r = r' := by
  obtain ⟨between, left, right⟩ | ⟨between, left, right⟩ := List.append_eq_append_iff.mp same
  · have noValue : value between = [] := by
      rw [left, value_append, List.length_append] at length
      exact List.length_eq_zero_iff.mp (by omega)
    obtain rfl := tight between (.inl ⟨left, right⟩) noValue
    exact ⟨(left.trans (List.append_nil l)).symm, right⟩
  · have noValue : value between = [] := by
      rw [left, value_append, List.length_append] at length
      exact List.length_eq_zero_iff.mp (by omega)
    obtain rfl := tight between (.inr ⟨left, right⟩) noValue
    exact ⟨left.trans (List.append_nil l'), right.symm⟩

theorem eq_nil_of_head {l r : List Piece} (noValue : value l = [])
    (head : ∃ piece more, l ++ r = piece :: more ∧ piece.value ≠ []) : l = [] := by
  obtain ⟨piece, more, same, hasValue⟩ := head
  cases l with
  | nil => rfl
  | cons piece' l =>
      obtain ⟨rfl, -⟩ := List.cons.inj same
      rw [value_cons, List.append_eq_nil_iff] at noValue
      exact absurd noValue.1 hasValue

theorem eq_nil_of_final {l r : List Piece} (noValue : value r = [])
    (final : ∃ init piece, l ++ r = init ++ [piece] ∧ piece.value ≠ []) : r = [] := by
  obtain ⟨init, piece, same, hasValue⟩ := final
  induction r using List.reverseRecOn with
  | nil => rfl
  | append_singleton r piece' _ =>
      rw [← List.append_assoc] at same
      obtain ⟨-, rfl⟩ := List.append_inj' same rfl |> fun ⟨inits, ends⟩ =>
        And.intro inits (List.singleton_inj.mp ends)
      rw [value_append, List.append_eq_nil_iff, value_cons, List.append_eq_nil_iff] at noValue
      exact absurd noValue.2.1 hasValue

theorem Splits.head_append (splits : Splits pieces start last before node after) :
    ∃ piece more, node ++ after = piece :: more ∧ piece.value ≠ [] := by
  obtain ⟨piece, rest, rfl, hasValue⟩ := splits.head
  exact ⟨piece, rest ++ after, rfl, hasValue⟩

/-- A node has its pieces, and no others. -/
theorem Splits.unique {before' node' after' : List Piece}
    (splits : Splits pieces start last before node after)
    (splits' : Splits pieces start last before' node' after') :
    before = before' ∧ node = node' ∧ after = after' := by
  have same := splits.split.symm.trans splits'.split
  rw [List.append_assoc, List.append_assoc] at same
  have length := splits.start.symm.trans splits'.start
  obtain ⟨rfl, rest⟩ : before = before' ∧ node ++ after = node' ++ after' := by
    apply border_unique same (Nat.succ.inj length)
    rintro between (⟨-, right⟩ | ⟨-, right⟩) noValue
    · exact eq_nil_of_head noValue (right ▸ splits.head_append)
    · exact eq_nil_of_head noValue (right ▸ splits'.head_append)
  have length' := Nat.succ.inj (splits.last.symm.trans splits'.last)
  rw [value_append, value_append, List.length_append, List.length_append] at length'
  obtain ⟨rfl, rfl⟩ : node = node' ∧ after = after' := by
    apply border_unique rest (Nat.add_left_cancel length')
    rintro between (⟨left, -⟩ | ⟨left, -⟩) noValue
    · exact eq_nil_of_final noValue (left ▸ splits'.final)
    · exact eq_nil_of_final noValue (left ▸ splits.final)
  exact ⟨rfl, rfl, rfl⟩

/-- The raw text of a literal. -/
def literalRaw (quote : CodeUnit) (pieces : List Piece) : Text :=
  quote :: (raw pieces ++ [quote])

theorem unquote_literalRaw (isQuote : quote = 0x27 ∨ quote = 0x22) (pieces : List Piece) :
    unquote (literalRaw quote pieces) = .ok (raw pieces) := by
  have noError : ¬ ((literalRaw quote pieces).head? ≠ some 0x27 ∧
      (literalRaw quote pieces).head? ≠ some 0x22) := by
    obtain rfl | rfl := isQuote
    · exact fun h => h.1 rfl
    · exact fun h => h.2 rfl
  have inner : substring (literalRaw quote pieces) 1 ((literalRaw quote pieces).length - 1) =
      raw pieces := by
    have behind : (literalRaw quote pieces).drop 1 = raw pieces ++ [quote] := rfl
    have length : ((literalRaw quote pieces).length : ℤ) - 1 = (1 : ℕ) + (raw pieces).length := by
      simp only [literalRaw, List.length_cons, List.length_append, List.length_nil]
      omega
    rw [length]
    exact substring_of_drop behind
  rw [unquote, if_neg noError, inner]

theorem elementAt_natCast {A : Type} (array : List A) (i : ℕ) :
    elementAt array (i : ℤ) = array[i]? := by
  rw [elementAt, if_pos (Int.natCast_nonneg i), Int.toNat_natCast]

theorem slash_not_mem_reread (noSlash : 0x2F ∉ value pieces) :
    .character 0x2F ∉ reread pieces := fun member =>
  noSlash (List.mem_flatMap.mpr ⟨_, mem_reread_character member, List.mem_cons_self⟩)

theorem getRegexpRange_eq (body : IsBody quote pieces) (isQuote : quote = 0x27 ∨ quote = 0x22)
    (noSlash : 0x2F ∉ value pieces) (range : ℕ × ℕ) (first : 1 ≤ start) (nonempty : start < last)
    (hasValue : value pieces ≠ []) :
    getRegexpRange (.stringLiteral (value pieces) (literalRaw quote pieces) range) start last =
      match (placeOnce 0 (reread pieces))[start - 1]?,
          (placeOnce 0 (reread pieces))[min (last - 2)
            ((placeOnce 0 (reread pieces)).length - 1)]? with
      | some startToken, some endToken => .ok (startToken.range.1 + 1, endToken.range.2 + 1)
      | _, _ => .ok (nodeRange range) := by
  have tokenized : tokenizeString (raw pieces) = .ok (placeOnce 0 (reread pieces)) := by
    rw [← place_eq_placeOnce (slash_not_mem_reread noSlash), ← raw_reread]
    exact tokenizeString_of_allRead (allRead_reread body)
  have startIndex : (start - 1 : ℤ) = (start - 1 : ℕ) := by omega
  generalize placeOnce 0 (reread pieces) = tokens at tokenized ⊢
  rw [getRegexpRange]
  dsimp only
  rw [if_neg hasValue, unquote_literalRaw isQuote]
  simp only [bind, Except.bind, tokenized, Except.mapError]
  rw [if_neg (Nat.ne_of_lt nonempty), startIndex, elementAt_natCast]
  cases tokens with
  | nil => rfl
  | cons token tokens =>
      have endIndex : min (last - 2 : ℤ) ((token :: tokens).length - 1) =
          (min (last - 2) ((token :: tokens).length - 1) : ℕ) := by
        simp only [List.length_cons]
        omega
      rw [endIndex, elementAt_natCast]

theorem getRegexpRange_eq_iff (body : IsBody quote pieces)
    (isQuote : quote = 0x27 ∨ quote = 0x22) (noSlash : 0x2F ∉ value pieces) (range : ℕ × ℕ)
    (nonempty : start < last) (splits : Splits pieces start last before node after) :
    getRegexpRange (.stringLiteral (value pieces) (literalRaw quote pieces) range) start last =
        .ok ((raw before).length + 1, (raw (before ++ node)).length + 1) ↔
      Balanced before node after := by
  have octals : ∀ digits, .octal digits ∈ before ++ node → AreDigits 8 digits :=
    fun digits member =>
      areDigits_of_mem_isBody body (splits.split ▸ List.mem_append_left after member)
  have hasNode := splits.head_append
  obtain ⟨split, isStart, isLast, -, init, final, rfl, hasFinal⟩ := splits
  have starts := start_iff (fun digits member => octals digits (List.mem_append_left _ member))
    hasNode
  have ends := @end_iff _ after octals
    ⟨before ++ init, final, (List.append_assoc ..).symm, hasFinal⟩
  have hasValue : value pieces ≠ [] := by
    intro none
    rw [split] at none
    simp [value_append, hasFinal] at none
  have startIndex : start - 1 = (value before).length := by omega
  have endIndex : last - 2 = (value (before ++ (init ++ [final]))).length - 1 := by omega
  rw [← List.append_assoc before, ← split] at starts
  rw [← split] at ends
  rw [getRegexpRange_eq body isQuote noSlash range (by omega) nonempty hasValue, Balanced, ← starts,
    ← ends, startIndex, endIndex]
  generalize (placeOnce 0 (reread pieces))[(value before).length]? = startToken
  generalize (placeOnce 0 (reread pieces))[min ((value (before ++ (init ++ [final]))).length - 1)
    ((placeOnce 0 (reread pieces)).length - 1)]? = endToken
  cases startToken with
  | none => simp [nodeRange]
  | some startToken =>
      cases endToken with
      | none => simp [nodeRange]
      | some endToken => simp

/-- A node of a pattern without slashes is located if and only if it is balanced. -/
theorem located_iff (body : IsBody quote pieces) (isQuote : quote = 0x27 ∨ quote = 0x22)
    (noSlash : 0x2F ∉ value pieces) (range : ℕ × ℕ) (first : 1 ≤ start) (nonempty : start < last)
    (inside : last ≤ (value pieces).length + 1) (noCut : ¬ CutsPair (value pieces) (start - 1))
    (noCut' : ¬ CutsPair (value pieces) (last - 1)) :
    (∃ located, getRegexpRange
        (.stringLiteral (value pieces) (literalRaw quote pieces) range) start last = .ok located ∧
          Located pieces start last located) ↔
      ∀ before node after, Splits pieces start last before node after →
        Balanced before node after := by
  constructor
  · rintro ⟨_, returned, before, node, after, splits, rfl⟩ before' node' after' splits'
    obtain ⟨rfl, rfl, rfl⟩ := splits.unique splits'
    exact (getRegexpRange_eq_iff body isQuote noSlash range nonempty splits).mp returned
  · intro balanced
    obtain ⟨before, node, after, splits⟩ :=
      exists_splits body first nonempty inside noCut noCut'
    refine ⟨_, (getRegexpRange_eq_iff body isQuote noSlash range nonempty splits).mpr
      (balanced before node after splits), before, node, after, splits, rfl⟩

/-- The node `\b` of the literal `"a\\b"`, which has three pieces. -/
theorem located_escape :
    ∃ located, getRegexpRange (.stringLiteral [0x61, 0x5C, 0x62]
        (literalRaw DOUBLE_QUOTE [.character 0x61, .single 0x5C, .character 0x62]) (0, 6)) 2 4 =
          .ok located ∧
      Located [.character 0x61, .single 0x5C, .character 0x62] 2 4 located := by
  have body : IsBody DOUBLE_QUOTE [.character 0x61, .single 0x5C, .character 0x62] := by decide
  have noCut : ¬ CutsPair (value [.character 0x61, .single 0x5C, .character 0x62]) (2 - 1) := by
    rintro ⟨hi, lo, rest, -, same, high, -⟩
    obtain rfl := (List.cons.inj same).1
    exact absurd high (by decide)
  have noCut' : ¬ CutsPair (value [.character 0x61, .single 0x5C, .character 0x62]) (4 - 1) := by
    rintro ⟨hi, lo, rest, -, same, -, -⟩
    cases (List.cons.inj same).2
  apply (located_iff body (.inr rfl) (by decide) (0, 6) (by decide) (by decide) (by decide) noCut
    noCut').mpr
  intro before node after splits
  have explicit : Splits [.character 0x61, .single 0x5C, .character 0x62] 2 4
      [.character 0x61] [.single 0x5C, .character 0x62] [] :=
    ⟨rfl, rfl, rfl, ⟨_, _, rfl, by decide⟩, ⟨[.single 0x5C], _, rfl, by decide⟩⟩
  obtain ⟨rfl, rfl, rfl⟩ := splits.unique explicit
  refine ⟨⟨?_, rfl⟩, ?_, .inl rfl⟩
  · rintro ⟨init, first, second, c, rest, -, next, -⟩
    cases next
  · rintro ⟨init, first, second, c, rest, -, next, -⟩
    cases next

/-- U+1F600, an `a` and a `b`. -/
def smileLiteral : List Piece := [.character 0x1F600, .character 0x61, .character 0x62]

/-- The node `a` of the literal gets the range of the `b`. -/
theorem not_located_pair :
    IsBody DOUBLE_QUOTE smileLiteral ∧ 0x2F ∉ value smileLiteral ∧
      ¬ CutsPair (value smileLiteral) (3 - 1) ∧ ¬ CutsPair (value smileLiteral) (4 - 1) ∧
        ¬ ∃ located, getRegexpRange (.stringLiteral (value smileLiteral)
            (literalRaw DOUBLE_QUOTE smileLiteral) (0, 6)) 3 4 = .ok located ∧
          Located smileLiteral 3 4 located := by
  refine ⟨by decide, by decide, ?_, ?_, ?_⟩
  · rintro ⟨hi, lo, rest, -, same, high, -⟩
    obtain rfl := (List.cons.inj same).1
    exact absurd high (by decide)
  · rintro ⟨hi, lo, rest, -, same, high, -⟩
    obtain rfl := (List.cons.inj same).1
    exact absurd high (by decide)
  · rintro ⟨located, returned, before, node, after, splits, rfl⟩
    have explicit : Splits smileLiteral 3 4 [.character 0x1F600] [.character 0x61]
        [.character 0x62] :=
      ⟨rfl, rfl, rfl, ⟨_, _, rfl, by decide⟩, ⟨[], _, rfl, by decide⟩⟩
    obtain ⟨rfl, rfl, rfl⟩ := splits.unique explicit
    have evaluated : getRegexpRange (.stringLiteral (value smileLiteral)
        (literalRaw DOUBLE_QUOTE smileLiteral) (0, 6)) 3 4 = .ok (4, 5) := by
      decide
    exact absurd (Except.ok.inj (evaluated.symm.trans returned)) (by decide)

end Nodes

end SonarJS.Regex
