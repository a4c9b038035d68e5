import SonarJS.Foundation.Edits
import SonarJS.Foundation.OrderedCollections
import SonarJS.Foundation.Pieces

/-!
# Removing duplicate types

The members of a union or an intersection stand in parentheses that are no nodes of the syntax
tree. The suggestion removes a member from the end of the one before it up to its own end, with
the closing parentheses behind either as long as these are in the composite type.
-/

namespace SonarJS.DuplicateTypes

open Edits Pieces

/-! ## Composite types -/

def openingParen : Piece := .punctuator ['(']

def closingParen : Piece := .punctuator [')']

inductive Operator
  | union
  | intersection
deriving DecidableEq

def Operator.piece : Operator → Piece
  | union => .punctuator ['|']
  | intersection => .punctuator ['&']

/-- A member: its node between parentheses. -/
structure Member where
  opening : List Gap
  node : List Piece
  closing : List Gap
  balanced : opening.length = closing.length

namespace Member

def openingPieces (member : Member) : List Piece :=
  member.opening.flatMap fun gap => openingParen :: gap.pieces

def closingPieces (closing : List Gap) : List Piece :=
  closing.flatMap fun gap => gap.pieces ++ [closingParen]

def pieces (member : Member) : List Piece :=
  member.openingPieces ++ member.node ++ closingPieces member.closing

/-- The source text of the node. -/
def text (member : Member) : Text := member.node.flatMap Piece.text

end Member

/-- A member behind the operator. -/
structure Follower where
  gap : Gap
  gapBehind : Gap
  member : Member

/-- A composite type, which may begin with the operator. -/
structure Composite where
  operator : Operator
  leading : Option Gap
  first : Member
  followers : List Follower

namespace Composite

variable (composite : Composite)

/-- What comes before the first member. -/
def start : List Piece :=
  match composite.leading with
  | some gap => composite.operator.piece :: gap.pieces
  | none => []

/-- What comes before another member. -/
def separator (follower : Follower) : List Piece :=
  follower.gap.pieces ++ composite.operator.piece :: follower.gapBehind.pieces

/-- The members, each with what comes before it. -/
def parts : List (List Piece × Member) :=
  (composite.start, composite.first) ::
    composite.followers.map fun follower => (composite.separator follower, follower.member)

def members : List Member := composite.first :: composite.followers.map Follower.member

def partPieces (part : List Piece × Member) : List Piece := part.1 ++ part.2.pieces

def pieces : List Piece := composite.parts.flatMap partPieces

end Composite

/-- The ranges of the nodes, from the position of the composite type on. -/
def nodes : ℕ → List (List Piece × Member) → List (ℕ × ℕ)
  | _, [] => []
  | position, part :: parts =>
    let start := position + part.1.length + part.2.openingPieces.length
    (start, start + part.2.node.length) ::
      nodes (position + (Composite.partPieces part).length) parts

/-! ## The rule -/

/-- Members by their texts. -/
def groupedTypes (texts : List Text) : OrderedMap Text (List ℕ) :=
  texts.zipIdx.foldl (fun grouped type =>
    match grouped.get type.1 with
    | none => grouped.set type.1 [type.2]
    | some nodes => grouped.set type.1 (nodes ++ [type.2])) .empty

/-- The end of a node with the closing parentheses behind it. -/
def getEnd (pieces : List Piece) (compositeEnd position : ℕ) : ℕ :=
  match h : indexAfter Piece.isToken pieces position with
  | some nextToken =>
    if pieces[nextToken]? = some closingParen ∧ nextToken + 1 ≤ compositeEnd then
      getEnd pieces compositeEnd (nextToken + 1)
    else position
  | none => position
termination_by pieces.length - position
decreasing_by have := indexAfter_bounds h; omega

/-- The ranges that are removed, for the indices of members with one text. -/
def getSuggestions (pieces : List Piece) (types : List (ℕ × ℕ)) (compositeEnd : ℕ)
    (duplicates : List ℕ) : List (ℕ × ℕ) :=
  duplicates.tail.map fun idx =>
    (getEnd pieces compositeEnd (types.getD (idx - 1) default).2,
      getEnd pieces compositeEnd (types.getD idx default).2)

/-! ## What it is for -/

/-- All but the repeated occurrences. -/
@[grind =] def keepFirst {α : Type} (p : α → Bool) : List α → List α
  | [] => []
  | a :: list => if p a then a :: list.filter (! p ·) else a :: keepFirst p list

/-- The composite type without the repeated members with this text. -/
def Composite.withoutRepeats (composite : Composite) (text : Text) : Composite :=
  { composite with
    followers :=
      if composite.first.text = text then
        composite.followers.filter fun follower => follower.member.text ≠ text
      else keepFirst (fun follower => follower.member.text = text) composite.followers }

/-! ## Ends of members -/

section Ends

variable {pieces before behind : List Piece} {compositeEnd position next : ℕ}

theorem getEnd_continue (found : indexAfter Piece.isToken pieces position = some next)
    (paren : pieces[next]? = some closingParen) (inside : next + 1 ≤ compositeEnd) :
    getEnd pieces compositeEnd position = getEnd pieces compositeEnd (next + 1) := by
  rw [getEnd]
  split
  · rename_i nextToken same
    rw [found, Option.some.injEq] at same
    subst same
    rw [if_pos ⟨paren, inside⟩]
  · rename_i none
    rw [found] at none
    cases none

/-- The loop stops if the next token is no parenthesis of the composite type. -/
theorem getEnd_stop
    (stop : ∀ next, indexAfter Piece.isToken pieces position = some next →
      pieces[next]? = some closingParen → compositeEnd < next + 1) :
    getEnd pieces compositeEnd position = position := by
  rw [getEnd]
  split
  · rename_i nextToken found
    refine if_neg fun h => ?_
    have outside := stop nextToken found h.1
    omega
  · rfl

/-- What may come behind a member: nothing more of the composite type, or another token. -/
def Stops (compositeEnd position : ℕ) (behind : List Piece) : Prop :=
  compositeEnd = position ∨
    ∃ (gap : Gap) (token : Piece) (rest : List Piece), behind = gap.pieces ++ token :: rest ∧
      token.isToken ∧ token ≠ closingParen

theorem getEnd_of_stops (stops : Stops compositeEnd before.length behind) :
    getEnd (before ++ behind) compositeEnd before.length = before.length := by
  refine getEnd_stop ?_
  intro next found paren
  obtain rfl | ⟨gap, token, rest, rfl, isToken, other⟩ := stops
  · have := (indexAfter_bounds found).1
    omega
  · rw [← List.append_assoc, indexAfter_append rfl (fun _ => not_isToken_of_mem_gap) isToken,
      Option.some.injEq] at found
    subst found
    rw [← List.append_assoc, ← List.length_append,
      List.getElem?_append_right (Nat.le_refl _), Nat.sub_self,
      List.getElem?_cons_zero, Option.some.injEq] at paren
    exact absurd paren other

/-- The end of a member behind its closing parentheses. -/
theorem getEnd_closing (closing : List Gap)
    (inside : before.length + (Member.closingPieces closing).length ≤ compositeEnd)
    (stops : Stops compositeEnd (before.length + (Member.closingPieces closing).length) behind) :
    getEnd (before ++ Member.closingPieces closing ++ behind) compositeEnd before.length =
      before.length + (Member.closingPieces closing).length := by
  induction closing generalizing before with
  | nil =>
      simp only [Member.closingPieces, List.flatMap_nil, List.append_nil, List.length_nil,
        Nat.add_zero] at stops ⊢
      exact getEnd_of_stops stops
  | cons gap closing ih =>
      have split : before ++ Member.closingPieces (gap :: closing) ++ behind =
          before ++ gap.pieces ++ closingParen :: (Member.closingPieces closing ++ behind) := by
        simp [Member.closingPieces]
      have step : before ++ gap.pieces ++
            closingParen :: (Member.closingPieces closing ++ behind) =
          (before ++ gap.pieces ++ [closingParen]) ++ Member.closingPieces closing ++ behind := by
        simp
      have length : before.length + (Member.closingPieces (gap :: closing)).length =
          (before ++ gap.pieces ++ [closingParen]).length +
            (Member.closingPieces closing).length := by
        simp [Member.closingPieces]
        omega
      have position : before.length + gap.pieces.length + 1 =
          (before ++ gap.pieces ++ [closingParen]).length := by
        simp
        omega
      rw [length] at inside stops ⊢
      have found := @indexAfter_append _ Piece.isToken before gap.pieces
        (Member.closingPieces closing ++ behind) closingParen before.length rfl
        (fun _ => not_isToken_of_mem_gap) rfl
      rw [split, getEnd_continue found (by simp) (by omega), step, position, ih inside stops]

end Ends

/-! ## Parts of a composite type -/

section Parts

open Composite

variable {earlier later parts : List (List Piece × Member)} {part : List Piece × Member}
variable {before behind : List Piece} {position : ℕ}

/-- The range of a node. -/
theorem nodes_getElem? : (nodes position (earlier ++ part :: later))[earlier.length]? =
    some (position + (earlier.flatMap partPieces).length + part.1.length +
        part.2.openingPieces.length,
      position + (earlier.flatMap partPieces).length + part.1.length +
        part.2.openingPieces.length + part.2.node.length) := by
  induction earlier generalizing position with
  | nil => rfl
  | cons first earlier ih =>
      rw [List.cons_append, nodes, List.length_cons, List.getElem?_cons_succ, ih,
        List.flatMap_cons, List.length_append, Nat.add_assoc position]

/-- Other parts begin with a token that is no parenthesis. -/
def Begins (parts : List (List Piece × Member)) : Prop :=
  ∀ part ∈ parts, ∃ (gap : Gap) (token : Piece) (rest : List Piece),
    part.1 = gap.pieces ++ token :: rest ∧ token.isToken ∧ token ≠ closingParen

theorem begins_followers (composite : Composite) : Begins (composite.followers.map
    fun follower => (composite.separator follower, follower.member)) := by
  intro part member
  obtain ⟨follower, -, rfl⟩ := List.mem_map.mp member
  refine ⟨follower.gap, composite.operator.piece, follower.gapBehind.pieces, rfl, ?_, ?_⟩
  · cases composite.operator <;> rfl
  · cases composite.operator <;> decide

/-- The end of a part is the end of its node. -/
theorem getEnd_part (begins : Begins later) :
    getEnd (before ++ (earlier ++ part :: later).flatMap partPieces ++ behind)
        (before.length + ((earlier ++ part :: later).flatMap partPieces).length)
        (before.length + (earlier.flatMap partPieces).length + part.1.length +
          part.2.openingPieces.length + part.2.node.length) =
      before.length + ((earlier ++ [part]).flatMap partPieces).length := by
  have split : before ++ (earlier ++ part :: later).flatMap partPieces ++ behind =
      (before ++ earlier.flatMap partPieces ++ part.1 ++ part.2.openingPieces ++ part.2.node) ++
        Member.closingPieces part.2.closing ++ (later.flatMap partPieces ++ behind) := by
    simp [partPieces, Member.pieces]
  have position : before.length + (earlier.flatMap partPieces).length + part.1.length +
        part.2.openingPieces.length + part.2.node.length =
      (before ++ earlier.flatMap partPieces ++ part.1 ++ part.2.openingPieces ++
        part.2.node).length := by
    simp
    omega
  have last : before.length + ((earlier ++ [part]).flatMap partPieces).length =
      (before ++ earlier.flatMap partPieces ++ part.1 ++ part.2.openingPieces ++
        part.2.node).length + (Member.closingPieces part.2.closing).length := by
    simp [partPieces, Member.pieces]
    omega
  have whole : before.length + ((earlier ++ part :: later).flatMap partPieces).length =
      (before ++ earlier.flatMap partPieces ++ part.1 ++ part.2.openingPieces ++
        part.2.node).length + (Member.closingPieces part.2.closing).length +
          (later.flatMap partPieces).length := by
    simp [partPieces, Member.pieces]
    omega
  rw [split, position, last]
  refine getEnd_closing _ (by omega) ?_
  cases later with
  | nil => exact .inl (by simpa using whole)
  | cons next later =>
      obtain ⟨gap, token, rest, first, isToken, other⟩ := begins next List.mem_cons_self
      refine .inr ⟨gap, token, rest ++ next.2.pieces ++ later.flatMap partPieces ++ behind, ?_,
        isToken, other⟩
      simp [partPieces, first]

end Parts

/-! ## Repeated occurrences -/

section Repeats

variable {α β : Type} {p : α → Bool} {list : List α} {offset position : ℕ}

/-- The elements, with a mark at those that repeat an earlier one. -/
@[grind =] def repeats (p : α → Bool) : List α → List (Bool × α)
  | [] => []
  | a :: list => (false, a) :: if p a then list.map fun b => (p b, b) else repeats p list

theorem map_snd_repeats : (repeats p list).map Prod.snd = list := by
  induction list with
  | nil => rfl
  | cons a list ih =>
      rw [repeats, List.map_cons]
      split
      · simp [Function.comp_def]
      · rw [ih]

theorem filter_repeats :
    ((repeats p list).filter fun a => !a.1).map Prod.snd = keepFirst p list := by
  induction list with
  | nil => rfl
  | cons a list ih =>
      rw [repeats, keepFirst, List.filter_cons_of_pos rfl, List.map_cons]
      split
      · simp [List.filter_map, Function.comp_def]
      · rw [ih]

theorem mem_of_mem_keepFirst {a : α} (member : a ∈ keepFirst p list) : a ∈ list := by
  induction list with
  | nil => cases member
  | cons first list ih =>
      rw [keepFirst] at member
      split at member
      · obtain rfl | member := List.mem_cons.mp member
        · exact List.mem_cons_self
        · exact List.mem_cons_of_mem _ (List.mem_filter.mp member).1
      · obtain rfl | member := List.mem_cons.mp member
        · exact List.mem_cons_self
        · exact List.mem_cons_of_mem _ (ih member)

theorem keepFirst_map {f : α → β} {q : β → Bool} :
    keepFirst q (list.map f) = (keepFirst (fun a => q (f a)) list).map f := by
  induction list with
  | nil => rfl
  | cons a list ih =>
      rw [List.map_cons, keepFirst, keepFirst]
      split
      · simp [List.filter_map, Function.comp_def]
      · rw [ih, List.map_cons]

/-- The indices of elements, from an offset on. -/
def indices (p : α → Bool) (offset : ℕ) (list : List α) : List ℕ :=
  ((list.zipIdx offset).filter fun a => p a.1).map Prod.snd

theorem indices_cons {a : α} : indices p offset (a :: list) =
    if p a then offset :: indices p (offset + 1) list else indices p (offset + 1) list := by
  rw [indices, List.zipIdx_cons, List.filter_cons]
  split <;> rfl

theorem indices_map {f : α → β} {q : β → Bool} :
    indices q offset (list.map f) = indices (fun a => q (f a)) offset list := by
  induction list generalizing offset with
  | nil => rfl
  | cons a list ih => rw [List.map_cons, indices_cons, indices_cons, ih]

/-- All but the first occurrence are marked. -/
theorem tail_indices : (indices p offset list).tail =
    indices Prod.fst offset (repeats p list) := by
  induction list generalizing offset with
  | nil => rfl
  | cons a list ih =>
      rw [repeats, indices_cons, indices_cons, if_neg Bool.false_ne_true]
      split
      · rw [List.tail_cons, indices_map]
      · exact ih

theorem of_mem_indices {index : ℕ} (member : index ∈ indices p offset list) :
    offset ≤ index ∧ index < offset + list.length := by
  induction list generalizing offset with
  | nil => cases member
  | cons a list ih =>
      have later : index ∈ indices p (offset + 1) list →
          offset ≤ index ∧ index < offset + (a :: list).length := by
        intro member
        have := ih member
        rw [List.length_cons]
        omega
      rw [indices_cons] at member
      split at member
      · obtain rfl | member := List.mem_cons.mp member
        · simp
        · exact later member
      · exact later member

/-- The marked parts between the ends of parts. -/
theorem spans_eq_map {marked : List (Bool × List β)} (ends : ℕ → ℕ)
    (isEnd : ∀ i ≤ marked.length,
      ends (offset + i) = position + ((marked.take i).flatMap Prod.snd).length) :
    spans position marked =
      (indices Prod.fst offset marked).map fun i => (ends i, ends (i + 1)) := by
  induction marked generalizing offset position with
  | nil => rfl
  | cons first marked ih =>
      obtain ⟨mark, part⟩ := first
      have here : ends offset = position := by simpa using isEnd 0 (Nat.zero_le _)
      have next : ends (offset + 1) = position + part.length := by
        simpa using isEnd 1 (by simp)
      have rest := @ih (offset + 1) (position + part.length) (by
        intro i le
        have := isEnd (i + 1) (by simpa using le)
        rw [List.take_succ_cons, List.flatMap_cons, List.length_append] at this
        rw [Nat.add_right_comm, Nat.add_assoc, this, Nat.add_assoc])
      rw [indices_cons]
      cases mark with
      | false => rw [spans, rest, if_neg Bool.false_ne_true]
      | true => rw [spans, rest, if_pos rfl, List.map_cons, here, next]

end Repeats

/-! ## Groups -/

section Groups

variable {texts : List Text} {text : Text}

/-- The group of a text are the indices of the members with this text. -/
theorem get_groupedTypes : ((groupedTypes texts).get text).getD [] =
    indices (· = text) 0 texts := by
  have grouped : ∀ (types : List (Text × ℕ)) (map : OrderedMap Text (List ℕ)),
      ((types.foldl (fun grouped type =>
        match grouped.get type.1 with
        | none => grouped.set type.1 [type.2]
        | some nodes => grouped.set type.1 (nodes ++ [type.2])) map).get text).getD [] =
      (map.get text).getD [] ++ (types.filter fun type => type.1 = text).map Prod.snd := by
    intro types
    induction types with
    | nil => simp
    | cons type types ih =>
        intro map
        rw [List.foldl_cons, ih]
        by_cases same : type.1 = text
        · cases found : map.get type.1 <;> simp [← same, found]
        · cases found : map.get type.1 <;> simp [Ne.symm same, eq_comm]
  rw [groupedTypes, grouped]
  rfl

end Groups

/-! ## The suggestion -/

section Suggestion

open Composite

variable {before behind : List Piece} {composite : Composite} {text : Text}

/-- The position behind the first parts of a composite type. -/
def endOf (before : List Piece) (composite : Composite) (count : ℕ) : ℕ :=
  before.length + ((composite.parts.take count).flatMap partPieces).length

theorem getEnd_node {index : ℕ} (inside : index < composite.parts.length) :
    getEnd (before ++ composite.pieces ++ behind) (before.length + composite.pieces.length)
        ((nodes before.length composite.parts).getD index default).2 =
      endOf before composite (index + 1) := by
  have split : composite.parts = composite.parts.take index ++ composite.parts[index] ::
      composite.parts.drop (index + 1) := by simp
  have length : (composite.parts.take index).length = index := by
    rw [List.length_take]
    omega
  have begins : Begins (composite.parts.drop (index + 1)) := by
    intro part member
    rw [parts, List.drop_succ_cons] at member
    exact begins_followers composite part (List.mem_of_mem_drop member)
  have node := @nodes_getElem? (composite.parts.take index) (composite.parts.drop (index + 1))
    composite.parts[index] before.length
  rw [← split, length] at node
  have whole := @getEnd_part (composite.parts.take index) (composite.parts.drop (index + 1))
    composite.parts[index] before behind begins
  rw [← split] at whole
  rw [List.getD_eq_getElem?_getD, node, Option.getD_some, Composite.pieces, whole, endOf,
    List.take_succ_eq_append_getElem inside]

/-- The parts, with marks at those whose members repeat the text. -/
def marked (composite : Composite) (text : Text) : List (Bool × List Piece) :=
  (repeats (fun part => part.2.text = text) composite.parts).map fun part =>
    (part.1, partPieces part.2)

/-- The first parts are the same with and without marks. -/
theorem flatMap_take_marked (count : ℕ) :
    ((marked composite text).take count).flatMap Prod.snd =
      (composite.parts.take count).flatMap partPieces := by
  have parts := @map_snd_repeats _ (fun part => decide (part.2.text = text)) composite.parts
  have taken : composite.parts.take count =
      ((repeats (fun part => decide (part.2.text = text)) composite.parts).take count).map
        Prod.snd := by rw [List.map_take, parts]
  rw [marked, ← List.map_take, List.flatMap_map, taken, List.flatMap_map]

theorem length_marked : (marked composite text).length = composite.parts.length := by
  have parts := @map_snd_repeats _ (fun part => decide (part.2.text = text)) composite.parts
  rw [marked, List.length_map]
  nth_rewrite 2 [← parts]
  rw [List.length_map]

theorem flatMap_marked : (marked composite text).flatMap Prod.snd = composite.pieces := by
  have all := @flatMap_take_marked composite text composite.parts.length
  rwa [List.take_length, ← length_marked, List.take_length] at all

theorem unmarked_marked : unmarked (marked composite text) =
    (keepFirst (fun part => part.2.text = text) composite.parts).flatMap partPieces := by
  rw [← filter_repeats, unmarked, marked, List.filter_map, List.flatMap_map, List.flatMap_map]
  rfl

/-- Without the repeated members, the parts are the first occurrence and all others. -/
theorem parts_withoutRepeats : (composite.withoutRepeats text).parts =
    keepFirst (fun part => part.2.text = text) composite.parts := by
  have filtered : ∀ followers : List Follower, (followers.map fun follower =>
        (composite.separator follower, follower.member)).filter
          (fun part => !decide (part.2.text = text)) =
      (followers.filter fun follower => follower.member.text ≠ text).map
        fun follower => (composite.separator follower, follower.member) := by
    intro followers
    simp [List.filter_map, Function.comp_def]
  rw [Composite.parts, Composite.parts, keepFirst]
  by_cases first : composite.first.text = text
  · simp only [first, decide_true, if_true, filtered, Composite.withoutRepeats]
    rfl
  · simp only [first, decide_false, Bool.false_eq_true, if_false, keepFirst_map,
      Composite.withoutRepeats]
    rfl

theorem members_eq_map : composite.members = composite.parts.map Prod.snd := by
  simp [Composite.members, Composite.parts, Function.comp_def]

theorem members_withoutRepeats : (composite.withoutRepeats text).members =
    keepFirst (fun member => member.text = text) composite.members := by
  rw [members_eq_map, members_eq_map, parts_withoutRepeats, keepFirst_map]

/-- The removed ranges are those of the repeated members with what comes before them. -/
theorem getSuggestions_eq_spans :
    getSuggestions (before ++ composite.pieces ++ behind) (nodes before.length composite.parts)
        (before.length + composite.pieces.length)
        (((groupedTypes (composite.members.map Member.text)).get text).getD []) =
      spans before.length (marked composite text) := by
  have group : (indices (· = text) 0 (composite.members.map Member.text)).tail =
      indices Prod.fst 0 (marked composite text) := by
    rw [members_eq_map, List.map_map, indices_map, tail_indices, marked, indices_map]
    rfl
  have isEnd : ∀ i ≤ (marked composite text).length, endOf before composite (0 + i) =
      before.length + (((marked composite text).take i).flatMap Prod.snd).length := by
    intro i _
    rw [flatMap_take_marked, endOf, Nat.zero_add]
  rw [get_groupedTypes, getSuggestions, group, spans_eq_map (endOf before composite) isEnd]
  refine List.map_congr_left fun index member => ?_
  have inside : 1 ≤ index ∧ index < composite.parts.length := by
    rw [← @length_marked composite text]
    rw [marked, Composite.parts, repeats, List.map_cons, indices_cons,
      if_neg Bool.false_ne_true] at member
    have bounds := of_mem_indices member
    rw [marked, Composite.parts, repeats, List.map_cons, List.length_cons]
    omega
  rw [getEnd_node (by omega), getEnd_node inside.2, Nat.sub_add_cancel inside.1]

/-- The parts behind the first begin with no word. -/
theorem apart_pieces_iff :
    Apart composite.pieces ↔ ∀ part ∈ composite.parts, Apart (partPieces part) := by
  rw [Composite.pieces, Composite.parts, List.flatMap_cons, List.forall_mem_cons]
  refine apart_flatMap ?_
  intro part member piece first
  obtain ⟨follower, -, rfl⟩ := List.mem_map.mp member
  rw [partPieces, Composite.separator] at first
  cases gap : follower.gap with
  | nil =>
      simp [gap, Gap.pieces] at first
      subst first
      cases composite.operator <;> rfl
  | cons text gap' =>
      simp [gap, Gap.pieces] at first
      subst first
      rfl

theorem apart_withoutRepeats (apart : Apart composite.pieces) :
    Apart (composite.withoutRepeats text).pieces := by
  rw [apart_pieces_iff] at apart ⊢
  intro part member
  rw [parts_withoutRepeats] at member
  exact apart part (mem_of_mem_keepFirst member)

end Suggestion

/-- For each text, the removed ranges are disjoint and lie in the composite type, and without
them it is the composite type in which only the first member with this text is left, with its
parentheses, and all others are left with theirs and in their order. No words come together. -/
theorem getSuggestions_keepsFirst (composite : Composite) (before behind : List Piece)
    (text : Text) :
    let ranges :=
      getSuggestions (before ++ composite.pieces ++ behind) (nodes before.length composite.parts)
        (before.length + composite.pieces.length)
        (((groupedTypes (composite.members.map Member.text)).get text).getD [])
    (ranges.Pairwise fun a b => a.2 ≤ b.1) ∧
      (∀ range ∈ ranges, before.length ≤ range.1 ∧ range.1 ≤ range.2 ∧
        range.2 ≤ before.length + composite.pieces.length) ∧
      applyFixes (ranges.map Fix.remove) (before ++ composite.pieces ++ behind) =
        some (before ++ (composite.withoutRepeats text).pieces ++ behind) ∧
      (composite.withoutRepeats text).members =
        keepFirst (fun member => member.text = text) composite.members ∧
      (Apart composite.pieces → Apart (composite.withoutRepeats text).pieces) := by
  intro ranges
  have isSpans : ranges = spans before.length (marked composite text) := getSuggestions_eq_spans
  refine ⟨?_, ?_, ?_, members_withoutRepeats, apart_withoutRepeats⟩
  · rw [isSpans]
    exact pairwise_spans
  · intro range member
    rw [isSpans] at member
    have bounds := of_mem_spans member
    rwa [flatMap_marked] at bounds
  · have applied := @applyFixes_spans _ before behind (marked composite text)
    rw [flatMap_marked, unmarked_marked, ← parts_withoutRepeats] at applied
    rw [isSpans]
    exact applied

end SonarJS.DuplicateTypes
