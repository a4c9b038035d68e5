import SonarJS.Regex.Tokenizer

/-!
# Tokens and the value of a string literal

The tokenizer reads the body of a string literal as ECMAScript does, but for two kinds of
pieces: an octal escape with a first digit from 4 on takes a third digit, and a line
continuation with U+2028 or U+2029 is read as an escaped character. What it reads is again a
sequence of pieces with the same raw text, and the tokens are those of this sequence.

The value is another one as soon as there is one such piece: each octal escape with a third
digit and each of these line continuations adds a code unit from 0x100 on, and nothing takes
one away.
-/

namespace SonarJS.Regex

open StringLiteral

/-! ## What the tokenizer takes for the pieces -/

@[grind =] def reread : List Piece → List Piece
  | .octal [first, second] :: .character c :: pieces =>
    if isDigit 8 c then .octal [first, second, c.toUInt16] :: reread pieces
    else .octal [first, second] :: reread (.character c :: pieces)
  | .lineContinuation .ls :: pieces => .nonEscape LS.toNat :: reread pieces
  | .lineContinuation .ps :: pieces => .nonEscape PS.toNat :: reread pieces
  | piece :: pieces => piece :: reread pieces
  | [] => []

/-- How many octal escapes are given a third digit. -/
@[grind =] def swallowed : List Piece → ℕ
  | .octal [_, _] :: .character c :: pieces =>
    if isDigit 8 c then swallowed pieces + 1 else swallowed (.character c :: pieces)
  | _ :: pieces => swallowed pieces
  | [] => 0

/-- A line continuation that is read as an escaped character. -/
def isSeparator (piece : Piece) : Bool :=
  piece = .lineContinuation .ls || piece = .lineContinuation .ps

section Reread

variable {quote : CodeUnit} {pieces : List Piece}

@[simp] theorem raw_reread (pieces : List Piece) : raw (reread pieces) = raw pieces := by
  fun_induction reread pieces with
  | case1 first second c pieces digit ih =>
      have range := isDigit_eight_iff.mp digit
      simp [ih, Piece.raw, encode_of_lt (show c < 0x10000 by omega)]
  | case2 first second c pieces noDigit ih => simpa using ih
  | case3 pieces ih =>
      rw [raw_cons, raw_cons, ih]
      rfl
  | case4 pieces ih =>
      rw [raw_cons, raw_cons, ih]
      rfl
  | case5 piece pieces _ _ _ ih => rw [raw_cons, raw_cons, ih]
  | case6 => rfl

theorem startsWithDigit_raw (body : IsBody quote pieces) (starts : startsWithDigit 8 (raw pieces)) :
    ∃ c rest, pieces = .character c :: rest ∧ isDigit 8 c := by
  cases pieces with
  | nil => cases starts
  | cons piece pieces =>
      cases piece with
      | character c =>
          refine ⟨c, pieces, rfl, ?_⟩
          rw [raw_cons, ← any_isDigit_codePoint] at starts
          change (codePoint (encode c ++ raw pieces)).any (isDigit 8) at starts
          rw [body.1.1] at starts
          exact starts
      | _ => cases starts

theorem not_hasCase_of_not_startsEscape {c : ℕ} (h : ¬ Piece.StartsEscape c) :
    ¬ hasCase c ∧ ¬ isDigit 8 c := by
  obtain ⟨noSingle, noDigit, noX, noU, noTerminator⟩ := by
    simpa only [Piece.StartsEscape, not_or] using h
  refine ⟨?_, noDigit⟩
  intro isCase
  simp only [hasCase, List.mem_cons, List.not_mem_nil, or_false] at isCase
  rcases isCase with rfl | rfl | rfl | rfl | rfl | rfl | rfl | rfl | rfl | rfl | rfl
  case inr.inr.inr.inr.inr.inr.inr.inl => exact noTerminator (by decide)
  case inr.inr.inr.inr.inr.inr.inr.inr.inl => exact noTerminator (by decide)
  case inr.inr.inr.inr.inr.inr.inr.inr.inr.inl => exact noU rfl
  case inr.inr.inr.inr.inr.inr.inr.inr.inr.inr => exact noX rfl
  all_goals exact noSingle rfl

/-- The other pieces are read as they are, an octal escape only if no digit is behind it. -/
theorem reads_of_fits {piece : Piece} {rest : Text} (fits : piece.Fits quote rest)
    (noSeparator : ¬ isSeparator piece)
    (octal : ∀ first second, piece = .octal [first, second] → ¬ startsWithDigit 8 rest) :
    Reads rest piece := by
  cases piece with
  | character c =>
      refine ⟨fits.1, ?_⟩
      rintro rfl
      exact fits.2 (by simp [backslash])
  | lineContinuation terminator =>
      cases terminator with
      | lf => exact .inl rfl
      | crlf => exact .inr (.inl rfl)
      | cr => exact .inr (.inr ⟨rfl, fits rfl⟩)
      | ls => exact absurd rfl noSeparator
      | ps => exact absurd rfl noSeparator
  | single c => exact fits
  | nonEscape c => exact ⟨fits.1, not_hasCase_of_not_startsEscape fits.2⟩
  | octal digits =>
      obtain ⟨all, form⟩ := fits
      refine ⟨all, ?_⟩
      match digits, form with
      | [_], form => exact ⟨List.cons_ne_nil _ _, by simp, fun _ => form⟩
      | [_, _], _ => exact ⟨List.cons_ne_nil _ _, by simp, fun _ => octal _ _ rfl⟩
      | [_, _, _], _ => exact ⟨List.cons_ne_nil _ _, le_rfl, fun more => absurd more (lt_irrefl 3)⟩
  | hex digits => exact fits
  | unicode digits => exact fits
  | codePoint digits => exact fits

theorem reads_separator (rest : Text) {c : ℕ} (h : c = LS.toNat ∨ c = PS.toNat) :
    Reads rest (.nonEscape c) := by
  obtain rfl | rfl := h
  · exact ⟨codePoint_of_not_high rfl rest, by simp [hasCase, LS], by decide⟩
  · exact ⟨codePoint_of_not_high rfl rest, by simp [hasCase, PS], by decide⟩

theorem not_isSeparator {piece : Piece} (noLS : piece ≠ .lineContinuation .ls)
    (noPS : piece ≠ .lineContinuation .ps) : ¬ isSeparator piece := by
  rw [isSeparator, Bool.or_eq_true, decide_eq_true_eq, decide_eq_true_eq]
  exact not_or.mpr ⟨noLS, noPS⟩

theorem toNat_of_isDigit {c : ℕ} (digit : isDigit 8 c) : (c.toUInt16).toNat = c := by
  have range := isDigit_eight_iff.mp digit
  exact toNat_toUInt16 (by omega)

theorem areDigits_swallowed {first second : CodeUnit} {c : ℕ}
    (all : AreDigits 8 [first, second]) (digit : isDigit 8 c) :
    AreDigits 8 [first, second, c.toUInt16] := by
  intro u member
  have member : u ∈ [first, second] ++ [c.toUInt16] := member
  rw [List.mem_append, List.mem_singleton] at member
  obtain two | rfl := member
  · exact all u two
  · rw [toNat_of_isDigit digit]
    exact digit

theorem allRead_reread (body : IsBody quote pieces) : AllRead (reread pieces) := by
  fun_induction reread pieces with
  | case1 first second c pieces digit ih =>
      have digits := areDigits_swallowed body.1.1 digit
      have noMore : ¬ 3 < 3 := lt_irrefl 3
      exact ⟨⟨digits, List.cons_ne_nil _ _, le_rfl, fun more => absurd more noMore⟩, ih body.2.2⟩
  | case2 first second c pieces noDigit ih =>
      refine ⟨?_, ih body.2⟩
      rw [raw_reread]
      apply reads_of_fits body.1 (by simp [isSeparator])
      rintro _ _ - starts
      obtain ⟨c', rest, same, digit⟩ := startsWithDigit_raw body.2 starts
      cases same
      exact noDigit digit
  | case3 pieces ih => exact ⟨reads_separator _ (.inl rfl), ih body.2⟩
  | case4 pieces ih => exact ⟨reads_separator _ (.inr rfl), ih body.2⟩
  | case5 piece pieces noOctal noLS noPS ih =>
      refine ⟨?_, ih body.2⟩
      rw [raw_reread]
      apply reads_of_fits body.1 (not_isSeparator noLS noPS)
      intro first second isOctal starts
      obtain ⟨c, rest, same, _⟩ := startsWithDigit_raw body.2 starts
      exact noOctal first second c rest isOctal same
  | case6 => trivial

theorem countP_encode {c : ℕ} (h : c < 0x10000) :
    (encode c).countP (0x100 ≤ ·.toNat) = if 0x100 ≤ c then 1 else 0 := by
  have small : (c.toUInt16).toNat = c := Nat.mod_eq_of_lt h
  rw [encode_of_lt h, List.countP_singleton, small]
  simp

theorem mathValue_pair (first second : CodeUnit) :
    mathValue 8 [first, second] =
      (digitValue first.toNat).getD 0 * 8 + (digitValue second.toNat).getD 0 := by
  simp [mathValue]

/-- The third digit makes the value of an octal escape one from 0x100 on. -/
theorem le_mathValue_swallowed {first second : CodeUnit} {c : ℕ}
    (body : IsBody quote (.octal [first, second] :: .character c :: pieces))
    (digit : isDigit 8 c) : 0x100 ≤ mathValue 8 [first, second, c.toUInt16] := by
  have starts : startsWithDigit 8 (raw (.character c :: pieces)) := by
    rw [raw_cons, ← any_isDigit_codePoint]
    show (codePoint (encode c ++ raw pieces)).any (isDigit 8)
    rw [body.2.1.1]
    exact digit
  have four : ¬ isDigit 4 first.toNat := fun zeroToThree => body.1.2 zeroToThree starts
  have octal := body.1.1 first List.mem_cons_self
  have large : 4 ≤ (digitValue first.toNat).getD 0 := by
    obtain ⟨v, known, _⟩ := (Option.any_eq_true ..).mp octal
    rw [isDigit, known, Option.any_some, decide_eq_true_eq, Nat.not_lt] at four
    rw [known]
    exact four
  have split := mathValue_concat 8 [first, second] c.toUInt16
  rw [mathValue_pair] at split
  change mathValue 8 [first, second, c.toUInt16] = _ at split
  omega

theorem countP_separator {c : ℕ} (h : c = LS.toNat ∨ c = PS.toNat) :
    (Piece.value (.nonEscape c)).countP (0x100 ≤ ·.toNat) = 1 := by
  obtain rfl | rfl := h
  · rfl
  · rfl

theorem countP_value_separator {terminator : LineTerminator} {c : ℕ} {rest : List Piece}
    (separates : isSeparator (.lineContinuation terminator)) (h : c = LS.toNat ∨ c = PS.toNat)
    (ih : (value rest).countP (0x100 ≤ ·.toNat) = (value pieces).countP (0x100 ≤ ·.toNat) +
      (swallowed pieces + pieces.countP isSeparator)) :
    (value (.nonEscape c :: rest)).countP (0x100 ≤ ·.toNat) =
      (value (.lineContinuation terminator :: pieces)).countP (0x100 ≤ ·.toNat) +
        (swallowed (.lineContinuation terminator :: pieces) +
          (Piece.lineContinuation terminator :: pieces).countP isSeparator) := by
  have noValue : (Piece.lineContinuation terminator).value = [] := rfl
  rw [value_cons, value_cons, List.countP_append, ih, countP_separator h, noValue,
    List.nil_append, List.countP_cons_of_pos separates, swallowed]
  · omega
  · exact nofun

/-- Each piece that is read in another way adds a code unit from 0x100 on. -/
theorem countP_value_reread (body : IsBody quote pieces) :
    (value (reread pieces)).countP (0x100 ≤ ·.toNat) =
      (value pieces).countP (0x100 ≤ ·.toNat) + (swallowed pieces + pieces.countP isSeparator) := by
  fun_induction reread pieces with
  | case1 first second c pieces digit ih =>
      have large := le_mathValue_swallowed body digit
      have bound : mathValue 8 [first, second, c.toUInt16] < 8 ^ 3 :=
        mathValue_lt (areDigits_swallowed body.1.1 digit)
      have pair : mathValue 8 [first, second] < 8 ^ 2 := mathValue_lt body.1.1
      have range := isDigit_eight_iff.mp digit
      have merged : (Piece.value (.octal [first, second, c.toUInt16])).countP
          (0x100 ≤ ·.toNat) = 1 := by
        rw [Piece.value, countP_encode (by omega), if_pos large]
      have escape : (Piece.value (.octal [first, second])).countP (0x100 ≤ ·.toNat) = 0 := by
        rw [Piece.value, countP_encode (by omega), if_neg (by omega)]
      have character : (Piece.value (.character c)).countP (0x100 ≤ ·.toNat) = 0 := by
        rw [Piece.value, countP_encode (by omega), if_neg (by omega)]
      have plain : (Piece.octal [first, second] :: .character c :: pieces).countP isSeparator =
          pieces.countP isSeparator := rfl
      rw [value_cons, value_cons, value_cons, List.countP_append, List.countP_append,
        List.countP_append, ih body.2.2, merged, escape, character, swallowed, if_pos digit, plain]
      omega
  | case2 first second c pieces noDigit ih =>
      have plain : (Piece.octal [first, second] :: .character c :: pieces).countP isSeparator =
          (Piece.character c :: pieces).countP isSeparator := rfl
      rw [value_cons, value_cons _ (.character c :: pieces), List.countP_append,
        List.countP_append, ih body.2, swallowed, if_neg noDigit, plain, Nat.add_assoc]
  | case3 pieces ih => exact countP_value_separator rfl (.inl rfl) (ih body.2)
  | case4 pieces ih => exact countP_value_separator rfl (.inr rfl) (ih body.2)
  | case5 piece pieces noOctal noLS noPS ih =>
      rw [value_cons, value_cons, List.countP_append, List.countP_append, ih body.2, swallowed,
        List.countP_cons_of_neg (not_isSeparator noLS noPS), Nat.add_assoc]
      exact noOctal
  | case6 => rfl

theorem reread_eq_self (noSwallowed : swallowed pieces = 0)
    (noSeparator : pieces.countP isSeparator = 0) : reread pieces = pieces := by
  fun_induction reread pieces with
  | case1 first second c pieces digit ih =>
      rw [swallowed, if_pos digit] at noSwallowed
      cases noSwallowed
  | case2 first second c pieces noDigit ih =>
      rw [swallowed, if_neg noDigit] at noSwallowed
      rw [List.countP_cons_of_neg (by simp [isSeparator])] at noSeparator
      rw [ih noSwallowed noSeparator]
  | case3 pieces ih => simp [isSeparator] at noSeparator
  | case4 pieces ih => simp [isSeparator] at noSeparator
  | case5 piece pieces noOctal noLS noPS ih =>
      rw [List.countP_cons_of_neg (not_isSeparator noLS noPS)] at noSeparator
      rw [swallowed] at noSwallowed
      · rw [ih noSwallowed noSeparator]
      · exact noOctal
  | case6 => rfl

theorem swallowed_eq_zero_iff : swallowed pieces = 0 ↔
    ¬ ∃ first second c, [.octal [first, second], .character c] <:+: pieces ∧ isDigit 8 c := by
  fun_induction swallowed pieces with
  | case1 first second c pieces digit ih =>
      have found : [Piece.octal [first, second], .character c] <:+:
          .octal [first, second] :: .character c :: pieces := ⟨[], pieces, rfl⟩
      constructor
      · exact nofun
      · intro none
        exact absurd ⟨first, second, c, found, digit⟩ none
  | case2 first second c pieces noDigit ih =>
      rw [ih, not_iff_not]
      constructor
      · rintro ⟨first', second', c', found, digit⟩
        exact ⟨first', second', c', List.infix_cons found, digit⟩
      · rintro ⟨first', second', c', found, digit⟩
        obtain ⟨rest, here⟩ | later := List.infix_cons_iff.mp found
        · cases here
          exact absurd digit noDigit
        · exact ⟨first', second', c', later, digit⟩
  | case3 piece pieces noOctal ih =>
      rw [ih, not_iff_not]
      constructor
      · rintro ⟨first', second', c', found, digit⟩
        exact ⟨first', second', c', List.infix_cons found, digit⟩
      · rintro ⟨first', second', c', found, digit⟩
        obtain ⟨rest, here⟩ | later := List.infix_cons_iff.mp found
        · cases here
          exact (noOctal _ _ _ _ rfl rfl).elim
        · exact ⟨first', second', c', later, digit⟩
  | case4 => simp

end Reread

/-! ## Tokens -/

/-- The second token of a slash that is not escaped is left out. -/
def countOnce : List StringLiteralToken → List StringLiteralToken
  | token :: token' :: tokens =>
    if token' = token ∧ token.value = encode 0x2F ∧ token.range.2 = token.range.1 + 1 then
      token :: countOnce tokens
    else token :: countOnce (token' :: tokens)
  | [token] => [token]
  | [] => []

/-- Where the tokens of a string literal are. -/
structure WellPlaced (pieces : List Piece) (tokens : List StringLiteralToken) : Prop where
  nonempty : ∀ token ∈ tokens, token.range.1 < token.range.2
  inside : ∀ token ∈ tokens, token.range.2 ≤ (raw pieces).length
  ordered : (countOnce tokens).Pairwise fun token token' => token.range.2 ≤ token'.range.1
  covers : ∀ before piece after, pieces = before ++ piece :: after →
    (∀ terminator, piece ≠ .lineContinuation terminator) →
      ∀ i < piece.raw.length, ∃ token ∈ tokens,
        token.range.1 ≤ (raw before).length + i ∧ (raw before).length + i < token.range.2

/-- The tokenizer agrees with ECMAScript about a string literal. -/
def Agrees (pieces : List Piece) : Prop :=
  ∃ tokens, tokenizeString (raw pieces) = .ok tokens ∧
    (countOnce tokens).flatMap (·.value) = value pieces ∧ WellPlaced pieces tokens

section Tokens

variable {rest : Text} {pos : ℕ} {pieces : List Piece}

/-- The tokens of pieces from a position on, with one token for a slash. -/
@[grind =] def placeOnce : ℕ → List Piece → List StringLiteralToken
  | _, [] => []
  | pos, piece :: pieces =>
    if piece.value = [] then placeOnce (pos + piece.raw.length) pieces
    else token pos piece :: placeOnce (pos + piece.raw.length) pieces

theorem le_of_mem_place {t : StringLiteralToken} (member : t ∈ place pos pieces) :
    pos ≤ t.range.1 ∧ t.range.1 < t.range.2 ∧ t.range.2 ≤ pos + (raw pieces).length := by
  induction pieces generalizing pos with
  | nil => cases member
  | cons piece pieces ih =>
      have positive := List.length_pos_of_ne_nil piece.raw_ne_nil
      rw [raw_cons, List.length_append]
      obtain here | later := List.mem_append.mp member
      · have same : t = token pos piece := by
          unfold tokensOf at here
          split_ifs at here <;> simp at here
          · exact here
          · exact here
        subst same
        simp only [token]
        omega
      · obtain ⟨first, nonempty, last⟩ := ih later
        omega

theorem countOnce_cons {t : StringLiteralToken} {tokens : List StringLiteralToken}
    (new : ∀ t' ∈ tokens, t' ≠ t) : countOnce (t :: tokens) = t :: countOnce tokens := by
  cases tokens with
  | nil => rfl
  | cons t' tokens =>
      rw [countOnce, if_neg]
      rintro ⟨same, -⟩
      exact new t' List.mem_cons_self same

theorem countOnce_place (pos : ℕ) (pieces : List Piece) :
    countOnce (place pos pieces) = placeOnce pos pieces := by
  induction pieces generalizing pos with
  | nil => rfl
  | cons piece pieces ih =>
      have positive := List.length_pos_of_ne_nil piece.raw_ne_nil
      have new : ∀ t ∈ place (pos + piece.raw.length) pieces, t ≠ token pos piece := by
        rintro t member rfl
        have := (le_of_mem_place member).1
        simp only [token] at this
        omega
      rw [place, placeOnce, tokensOf]
      split_ifs with noValue slash
      · exact ih _
      · subst slash
        show ite _ (_ :: countOnce (place _ pieces)) _ = _
        rw [if_pos ⟨rfl, rfl, rfl⟩, ih]
      · rw [List.singleton_append, countOnce_cons new, ih]

theorem value_placeOnce (pos : ℕ) (pieces : List Piece) :
    (placeOnce pos pieces).flatMap (·.value) = value pieces := by
  induction pieces generalizing pos with
  | nil => rfl
  | cons piece pieces ih =>
      rw [placeOnce, value_cons]
      split_ifs with noValue
      · rw [ih, noValue, List.nil_append]
      · rw [List.flatMap_cons, ih]
        rfl

theorem mem_placeOnce {t : StringLiteralToken} :
    t ∈ placeOnce pos pieces ↔ t ∈ place pos pieces := by
  induction pieces generalizing pos with
  | nil => rfl
  | cons piece pieces ih =>
      rw [placeOnce, place, tokensOf]
      split_ifs <;> simp [ih]

theorem pairwise_placeOnce (pos : ℕ) (pieces : List Piece) :
    (placeOnce pos pieces).Pairwise fun t t' => t.range.2 ≤ t'.range.1 := by
  induction pieces generalizing pos with
  | nil => exact .nil
  | cons piece pieces ih =>
      rw [placeOnce]
      split_ifs with noValue
      · exact ih _
      · refine .cons ?_ (ih _)
        intro t member
        exact (le_of_mem_place (mem_placeOnce.1 member)).1

/-- Some token has an index in its range. -/
def Covered (tokens : List StringLiteralToken) (i : ℕ) : Prop :=
  ∃ token ∈ tokens, token.range.1 ≤ i ∧ i < token.range.2

theorem covered_head {piece : Piece} {i : ℕ} (hasValue : piece.value ≠ [])
    (inside : i < piece.raw.length) : Covered (place pos (piece :: pieces)) (pos + i) := by
  refine ⟨token pos piece, List.mem_append_left _ ?_, ?_⟩
  · rw [tokensOf, if_neg hasValue]
    split_ifs <;> exact List.mem_cons_self
  · simp only [token]
    omega

theorem Covered.tail {piece : Piece} {before : List Piece} {i : ℕ}
    (h : Covered (place (pos + piece.raw.length) pieces)
      (pos + piece.raw.length + ((raw before).length + i)))
    {skipped : List Piece} (same : (raw skipped).length = piece.raw.length) :
    Covered (place pos (piece :: pieces)) (pos + ((raw (skipped ++ before)).length + i)) := by
  obtain ⟨t, member, inside⟩ := h
  refine ⟨t, List.mem_append_right _ member, ?_⟩
  rw [raw_append, List.length_append, same]
  omega

/-- A piece that is read as it is, or as another one with a text as long, covers the same. -/
theorem covered_cons {head head' piece : Piece} {before after rest : List Piece} {i : ℕ}
    (same : head.raw.length = head'.raw.length) (hasValue : piece = head → head'.value ≠ [])
    (inside : i < piece.raw.length) (split : head :: pieces = before ++ piece :: after)
    (ih : ∀ before, pieces = before ++ piece :: after →
      Covered (place (pos + head'.raw.length) rest)
        (pos + head'.raw.length + ((raw before).length + i))) :
    Covered (place pos (head' :: rest)) (pos + ((raw before).length + i)) := by
  cases before with
  | nil =>
      cases split
      rw [raw_nil, List.length_nil, Nat.zero_add]
      exact covered_head (hasValue rfl) (same ▸ inside)
  | cons _ before =>
      obtain ⟨rfl, later⟩ := List.cons.inj split
      exact (ih before later).tail ((length_raw_singleton _).trans same)

/-- What is read in another way covers the same text. -/
theorem covered_reread {quote : CodeUnit} (body : IsBody quote pieces)
    {before after : List Piece} {piece : Piece} (split : pieces = before ++ piece :: after)
    (noContinuation : ∀ terminator, piece ≠ .lineContinuation terminator) {i : ℕ}
    (inside : i < piece.raw.length) :
    Covered (place pos (reread pieces)) (pos + ((raw before).length + i)) := by
  fun_induction reread pieces generalizing pos before with
  | case1 first second c pieces digit ih =>
      have hasValue : (Piece.octal [first, second, c.toUInt16]).value ≠ [] := encode_ne_nil _
      have one : (encode c).length = 1 := by
        have range := isDigit_eight_iff.mp digit
        rw [length_encode, if_neg (by omega)]
      match before with
      | [] =>
          cases split
          rw [raw_nil, List.length_nil, Nat.zero_add]
          exact covered_head hasValue (Nat.lt_succ_of_lt inside)
      | [_] =>
          cases split
          change i < (encode c).length at inside
          obtain rfl : i = 0 := by omega
          exact covered_head hasValue (by simp [Piece.raw])
      | _ :: _ :: before =>
          obtain ⟨rfl, next⟩ := List.cons.inj split
          obtain ⟨rfl, later⟩ := List.cons.inj next
          have same : (raw [.octal [first, second], .character c]).length =
              (Piece.octal [first, second, c.toUInt16]).raw.length := by
            simp [Piece.raw, one]
          exact (ih body.2.2 later).tail same
  | case2 first second c pieces noDigit ih =>
      have hasValue : piece = .octal [first, second] → (Piece.octal [first, second]).value ≠ [] :=
        fun _ => encode_ne_nil _
      exact covered_cons rfl hasValue inside split fun _ => ih body.2
  | case3 pieces ih =>
      have same : (Piece.lineContinuation .ls).raw.length =
          (Piece.nonEscape LS.toNat).raw.length := rfl
      exact covered_cons same (fun isHead => absurd isHead (noContinuation .ls)) inside split
        fun _ => ih body.2
  | case4 pieces ih =>
      have same : (Piece.lineContinuation .ps).raw.length =
          (Piece.nonEscape PS.toNat).raw.length := rfl
      exact covered_cons same (fun isHead => absurd isHead (noContinuation .ps)) inside split
        fun _ => ih body.2
  | case5 head pieces noOctal noLS noPS ih =>
      have hasValue : piece = head → head.value ≠ [] := by
        rintro rfl
        exact Piece.value_ne_nil body.1 noContinuation
      exact covered_cons rfl hasValue inside split fun _ => ih body.2
  | case6 => exact absurd split (by simp)

theorem wellPlaced_place {quote : CodeUnit} (body : IsBody quote pieces) :
    WellPlaced pieces (place 0 (reread pieces)) where
  nonempty t member := (le_of_mem_place member).2.1
  inside t member := by
    have last := (le_of_mem_place member).2.2
    rwa [raw_reread, Nat.zero_add] at last
  ordered := by
    rw [countOnce_place]
    exact pairwise_placeOnce 0 _
  covers before piece after split noContinuation i inside := by
    have covered : Covered (place 0 (reread pieces)) (0 + ((raw before).length + i)) :=
      covered_reread body split noContinuation inside
    rwa [Nat.zero_add] at covered

/-- The tokenizer always returns, and the tokens cover the body in order. They have the value
of the literal if and only if no octal escape of two digits has a third one behind it, and no
line continuation ends with U+2028 or U+2029. -/
theorem agrees_iff {quote : CodeUnit} (body : IsBody quote pieces) :
    Agrees pieces ↔
      (¬ ∃ first second c, [.octal [first, second], .character c] <:+: pieces ∧ isDigit 8 c) ∧
        .lineContinuation .ls ∉ pieces ∧ .lineContinuation .ps ∉ pieces := by
  have tokenized := tokenizeString_of_allRead (allRead_reread body)
  rw [raw_reread] at tokenized
  have separators : pieces.countP isSeparator = 0 ↔
      .lineContinuation .ls ∉ pieces ∧ .lineContinuation .ps ∉ pieces := by
    rw [List.countP_eq_zero]
    constructor
    · intro none
      exact ⟨fun member => none _ member rfl, fun member => none _ member rfl⟩
    · rintro ⟨noLS, noPS⟩ piece member
      exact not_isSeparator (ne_of_mem_of_not_mem member noLS) (ne_of_mem_of_not_mem member noPS)
  rw [← swallowed_eq_zero_iff, ← separators]
  constructor
  · rintro ⟨tokens, returned, same, -⟩
    obtain rfl := Except.ok.inj (tokenized.symm.trans returned)
    rw [countOnce_place, value_placeOnce] at same
    have count := countP_value_reread body
    rw [same] at count
    omega
  · rintro ⟨noSwallowed, noSeparator⟩
    refine ⟨_, tokenized, ?_, wellPlaced_place body⟩
    rw [countOnce_place, value_placeOnce, reread_eq_self noSwallowed noSeparator]

def DOUBLE_QUOTE : CodeUnit := 0x22

/-- An `a`, a line continuation, a slash, U+1F600 in an escape and `\45` in front of an `8`. -/
theorem agrees_escapes :
    Agrees [.character 0x61, .lineContinuation .crlf, .character 0x2F,
      .codePoint [0x31, 0x46, 0x36, 0x30, 0x30], .octal [0x34, 0x35], .character 0x38] := by
  have body : IsBody DOUBLE_QUOTE [.character 0x61, .lineContinuation .crlf, .character 0x2F,
      .codePoint [0x31, 0x46, 0x36, 0x30, 0x30], .octal [0x34, 0x35], .character 0x38] := by
    decide
  apply (agrees_iff body).mpr
  refine ⟨?_, by decide, by decide⟩
  rw [← swallowed_eq_zero_iff]
  rfl

/-- The body `\456`, with the value `%6`, has one token. -/
theorem not_agrees_octal :
    IsBody DOUBLE_QUOTE [.octal [0x34, 0x35], .character 0x36] ∧
      ¬ Agrees [.octal [0x34, 0x35], .character 0x36] := by
  refine ⟨by decide, ?_⟩
  rintro ⟨tokens, returned, same, -⟩
  have evaluated : tokenizeString (raw [.octal [0x34, 0x35], .character 0x36]) =
      .ok [⟨[0x12E], (0, 4)⟩] := rfl
  obtain rfl := Except.ok.inj (evaluated.symm.trans returned)
  exact absurd same (by decide)

end Tokens

end SonarJS.Regex
