import Mathlib.Algebra.GroupWithZero.Nat
import Mathlib.Data.List.Chain
import Mathlib.Tactic.Common

/-!
# Source texts in pieces

A source text is a sequence of tokens with white space and comments between them. If pieces are
taken out of it, what is left are its tokens, unless two words have come together.
-/

namespace Pieces

abbrev Text := List Char

inductive Piece
  | word (text : Text)
  | punctuator (text : Text)
  | literal (text : Text)
  | trivia (text : Text)
deriving DecidableEq

/-- White space and comments between two tokens. -/
abbrev Gap := List Text

namespace Piece

def isToken : Piece → Bool
  | trivia _ => false
  | _ => true

def isWord : Piece → Bool
  | word _ => true
  | _ => false

def text : Piece → Text
  | word text | punctuator text | literal text | trivia text => text

end Piece

def Gap.pieces (gap : Gap) : List Piece := gap.map .trivia

/-- No two words touch each other. -/
def Apart : List Piece → Prop := List.IsChain fun a b => ¬(a.isWord ∧ b.isWord)

instance : DecidablePred Apart := fun _ => inferInstanceAs (Decidable (List.IsChain _ _))

variable {before removed behind : List Piece} {gap : Gap} {last piece : Piece}

theorem not_isToken_of_mem_gap (h : piece ∈ gap.pieces) : piece.isToken = false := by
  obtain ⟨text, -, rfl⟩ := List.mem_map.mp h
  rfl

theorem not_isWord_of_mem_gap (h : piece ∈ gap.pieces) : piece.isWord = false := by
  obtain ⟨text, -, rfl⟩ := List.mem_map.mp h
  rfl

/-- Behind a token that is no word and white space, there is no word. -/
theorem not_isWord_of_mem_getLast? (noWord : piece.isWord = false) :
    ∀ last ∈ (before ++ piece :: gap.pieces).getLast?, last.isWord = false := by
  intro last member
  rw [List.getLast?_append_of_ne_nil _ (List.cons_ne_nil _ _)] at member
  obtain rfl | inGap := List.mem_cons.mp (List.mem_of_getLast? member)
  · exact noWord
  · exact not_isWord_of_mem_gap inGap

theorem Apart.left (apart : Apart (before ++ behind)) : Apart before :=
  List.IsChain.left_of_append apart

theorem Apart.right (apart : Apart (before ++ behind)) : Apart behind :=
  List.IsChain.right_of_append apart

/-- What begins with no word stays apart from anything. -/
theorem apart_append (noWord : ∀ piece ∈ behind.head?, piece.isWord = false) :
    Apart (before ++ behind) ↔ Apart before ∧ Apart behind := by
  constructor
  · intro apart
    exact ⟨apart.left, apart.right⟩
  · rintro ⟨left, right⟩
    refine left.append right ?_
    intro a _ b first words
    rw [noWord b first] at words
    exact Bool.false_ne_true words.2

theorem apart_flatMap {α : Type} {parts : List α} {pieces : α → List Piece}
    (noWord : ∀ part ∈ parts, ∀ piece ∈ (pieces part).head?, piece.isWord = false) :
    Apart (before ++ parts.flatMap pieces) ↔
      Apart before ∧ ∀ part ∈ parts, Apart (pieces part) := by
  induction parts generalizing before with
  | nil => simp
  | cons part parts ih =>
      rw [List.forall_mem_cons] at noWord
      rw [List.flatMap_cons, ← List.append_assoc, ih noWord.2, apart_append noWord.1,
        List.forall_mem_cons, and_assoc]

/-- Pieces can be taken out if no word comes before them. -/
theorem Apart.remove (apart : Apart (before ++ removed ++ behind))
    (noWord : ∀ piece ∈ before.getLast?, piece.isWord = false) : Apart (before ++ behind) := by
  refine apart.left.left.append apart.right ?_
  intro a last b _ words
  rw [noWord a last] at words
  exact Bool.false_ne_true words.1

/-- Pieces can be taken out if no word comes behind them. -/
theorem Apart.remove_left (apart : Apart (before ++ removed ++ piece :: behind))
    (noWord : piece.isWord = false) : Apart (before ++ piece :: behind) :=
  (apart_append (by simpa using noWord)).mpr ⟨apart.left.left, apart.right⟩

/-- Pieces can be taken out up to a word if another word comes before them. -/
theorem Apart.remove_word (apart : Apart (before ++ (removed ++ [last]) ++ behind))
    (word : last.isWord) : Apart (before ++ behind) := by
  refine apart.left.left.append apart.right ?_
  intro a _ b first words
  have ends : (before ++ (removed ++ [last])).getLast? = some last := by
    rw [← List.append_assoc, List.getLast?_concat]
  exact (List.isChain_append.mp apart).2.2 last ends b first ⟨word, words.2⟩

/-! ## Positions in the text -/

def textLength (pieces : List Piece) : ℕ := (pieces.map (·.text.length)).sum

/-- A piece with only a part of its text. -/
def Piece.cut (part : Text → Text) : Piece → Piece
  | word text => word (part text)
  | punctuator text => punctuator (part text)
  | literal text => literal (part text)
  | trivia text => trivia (part text)

/-- The pieces up to a position in the text. The last one may be cut. -/
@[grind =] def takeText : ℕ → List Piece → List Piece
  | _, [] => []
  | position, piece :: pieces =>
    if piece.text.length ≤ position then
      piece :: takeText (position - piece.text.length) pieces
    else if position = 0 then []
    else [piece.cut (List.take position)]

/-- The pieces from a position in the text on. The first one may be cut. -/
@[grind =] def dropText : ℕ → List Piece → List Piece
  | _, [] => []
  | position, piece :: pieces =>
    if piece.text.length ≤ position then dropText (position - piece.text.length) pieces
    else piece.cut (List.drop position) :: pieces

/-- Other pieces instead of a range of the text. Nothing is cut if nothing is replaced by
nothing. -/
def replaceText (range : ℕ × ℕ) (new pieces : List Piece) : List Piece :=
  if range.1 = range.2 ∧ new = [] then pieces
  else takeText range.1 pieces ++ new ++ dropText range.2 pieces

section Text

variable {i j : ℕ}

@[simp]
theorem textLength_nil : textLength [] = 0 := rfl

@[simp]
theorem textLength_cons : textLength (piece :: behind) =
    piece.text.length + textLength behind := by
  simp [textLength]

@[simp]
theorem textLength_append : textLength (before ++ behind) =
    textLength before + textLength behind := by
  simp [textLength]

theorem cut_all : piece.cut (List.drop 0) = piece := by cases piece <;> rfl

theorem takeText_append : takeText (textLength before + i) (before ++ behind) =
    before ++ takeText i behind := by
  induction before with
  | nil => simp
  | cons piece before ih =>
      have rest : piece.text.length + textLength before + i - piece.text.length =
          textLength before + i := by omega
      rw [textLength_cons, List.cons_append, takeText, if_pos (by omega), rest, ih,
        List.cons_append]

theorem dropText_append : dropText (textLength before + i) (before ++ behind) =
    dropText i behind := by
  induction before with
  | nil => simp
  | cons piece before ih =>
      have rest : piece.text.length + textLength before + i - piece.text.length =
          textLength before + i := by omega
      rw [textLength_cons, List.cons_append, dropText, if_pos (by omega), rest, ih]

theorem takeText_zero (nonempty : ∀ piece ∈ before.head?, piece.text ≠ []) :
    takeText 0 before = [] := by
  cases before with
  | nil => rfl
  | cons piece before =>
      have some := List.length_pos_iff.mpr (nonempty piece rfl)
      rw [takeText, if_neg (by omega), if_pos rfl]

theorem dropText_zero (nonempty : ∀ piece ∈ before.head?, piece.text ≠ []) :
    dropText 0 before = before := by
  cases before with
  | nil => rfl
  | cons piece before =>
      have some := List.length_pos_iff.mpr (nonempty piece rfl)
      rw [dropText, if_neg (by omega), cut_all]

theorem takeText_left (nonempty : ∀ piece ∈ behind.head?, piece.text ≠ []) :
    takeText (textLength before) (before ++ behind) = before := by
  have split := @takeText_append before behind 0
  rwa [Nat.add_zero, takeText_zero nonempty, List.append_nil] at split

theorem dropText_left (nonempty : ∀ piece ∈ behind.head?, piece.text ≠ []) :
    dropText (textLength before) (before ++ behind) = behind := by
  have split := @dropText_append before behind 0
  rwa [Nat.add_zero, dropText_zero nonempty] at split

/-- A range between pieces. -/
theorem replaceText_pieces {new : List Piece} (start : i = textLength before)
    (stop : j = i + textLength removed) (some : removed ≠ [])
    (nonempty : ∀ piece ∈ removed ++ behind, piece.text ≠ []) :
    replaceText (i, j) new (before ++ removed ++ behind) = before ++ new ++ behind := by
  obtain ⟨first, rest, rfl⟩ := List.exists_cons_of_ne_nil some
  have length := List.length_pos_iff.mpr (nonempty first (by simp))
  have longer : i ≠ j := by
    rw [stop, textLength_cons]
    omega
  have left : takeText i (before ++ (first :: rest ++ behind)) = before := by
    rw [start]
    refine takeText_left ?_
    intro piece isFirst
    exact nonempty piece (List.mem_of_head? isFirst)
  have right : dropText j (before ++ first :: rest ++ behind) = behind := by
    rw [stop, start, ← textLength_append]
    refine dropText_left ?_
    intro piece isFirst
    exact nonempty piece (List.mem_append_right _ (List.mem_of_head? isFirst))
  rw [replaceText, if_neg fun same => longer same.1, right, List.append_assoc before, left]

/-- One character of a piece is left in front. -/
theorem takeText_one (nonempty : piece.text ≠ [])
    (next : ∀ piece ∈ behind.head?, piece.text ≠ []) :
    takeText 1 (piece :: behind) = [piece.cut (List.take 1)] := by
  have some := List.length_pos_iff.mpr nonempty
  rw [takeText]
  by_cases one : piece.text.length = 1
  · rw [if_pos (Nat.le_of_eq one), one, takeText_zero next]
    obtain ⟨c, single⟩ := List.length_eq_one_iff.mp one
    cases piece <;> simp_all [Piece.cut, Piece.text]
  · rw [if_neg (by omega), if_neg (by omega)]

/-- All but one character of a piece. -/
theorem dropText_one_append (nonempty : ∀ piece' ∈ piece :: before ++ behind, piece'.text ≠ []) :
    dropText 1 (piece :: before ++ behind) = dropText 1 (piece :: before) ++ behind := by
  have some := List.length_pos_iff.mpr (nonempty piece (by simp))
  rw [List.cons_append, dropText, dropText]
  by_cases one : piece.text.length = 1
  · rw [if_pos (Nat.le_of_eq one), if_pos (Nat.le_of_eq one), one, Nat.sub_self, dropText_zero,
      dropText_zero]
    · intro next isNext
      exact nonempty next (by simp [List.mem_of_head? isNext])
    · intro next isNext
      exact nonempty next (List.mem_cons_of_mem _ (List.mem_of_head? isNext))
  · rw [if_neg (by omega), if_neg (by omega), List.cons_append]

/-- One character of a piece is left behind. -/
theorem dropText_last (nonempty : piece.text ≠ []) :
    dropText (piece.text.length - 1) (piece :: behind) =
      piece.cut (List.drop (piece.text.length - 1)) :: behind := by
  have some := List.length_pos_iff.mpr nonempty
  rw [dropText, if_neg (by omega)]

end Text

end Pieces
