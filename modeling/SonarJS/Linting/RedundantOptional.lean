import SonarJS.Foundation.Edits
import SonarJS.Linting.UnionTypes

/-!
# Removing a redundant `undefined`

The suggestion takes the first `undefined` out of the unions of a type annotation. Of a union
of two members the text of the other one is left, without the parentheses around this and
without a pair around the union. Of larger unions, what is between two members is removed
together with the parentheses there.
-/

namespace SonarJS.RedundantOptional

open Edits UnionTypes

/-! ## Nodes -/

/-- A type node with its range. Of other types only the range is looked at. -/
inductive Node
  | undefinedKeyword (range : ℕ × ℕ)
  | unionType (range : ℕ × ℕ) (types : List Node)
  | other (range : ℕ × ℕ)

def Node.range : Node → ℕ × ℕ
  | undefinedKeyword range | unionType range _ | other range => range

theorem Node.range_undefinedKeyword (range : ℕ × ℕ) :
    (Node.undefinedKeyword range).range = range := rfl

mutual

/-- The node of a type that begins at a position. Its range leaves out the parentheses around
it. -/
def nodeOf : Written → ℕ → Node
  | .undefined, position => .undefinedKeyword (position, position + 1)
  | .operand _, position => .other (position, position + 1)
  | .loose _, position => .other (position, position + 1)
  | .paren inner, position => nodeOf inner (position + 1)
  | .union leading members, position =>
    .unionType (position, position + (Written.union leading members).tokens.length)
      (nodesOf members (position + if leading then 1 else 0))

@[grind =] def nodesOf : List Written → ℕ → List Node
  | [], _ => []
  | member :: members, position =>
    nodeOf member position :: nodesOf members (position + member.tokens.length + 1)

end

/-! ## The rule -/

mutual

/-- The first `undefined` in unions, with its parent. -/
def getUndefinedTypeNode : Node → Option Node → Option (Node × Option Node)
  | .undefinedKeyword range, parent => some (.undefinedKeyword range, parent)
  | .unionType range types, _ => getUndefinedTypeNodes types (some (.unionType range types))
  | .other _, _ => none

def getUndefinedTypeNodes : List Node → Option Node → Option (Node × Option Node)
  | [], _ => none
  | type :: types, parent =>
    (getUndefinedTypeNode type parent).or (getUndefinedTypeNodes types parent)

end

section Suggestion

variable (tokens : List Token)

/-- The text of a node. -/
def getText (range : ℕ × ℕ) : List Token := (tokens.drop range.1).take (range.2 - range.1)

/-- The token before a range and the one behind it, if they are parentheses. -/
def parensAround (range : ℕ × ℕ) : Option (ℕ × ℕ) :=
  match indexBefore (fun _ => true) tokens range.1, indexAfter (fun _ => true) tokens range.2 with
  | some tokenBefore, some tokenAfter =>
    if tokens[tokenBefore]? = some .openingParen ∧ tokens[tokenAfter]? = some .closingParen then
      some (tokenBefore, tokenAfter)
    else none
  | _, _ => none

/-- The fixes for a union of two members. -/
def replaceUnion (union other : ℕ × ℕ) : List (Edits.Fix Token) :=
  ⟨union, getText tokens other⟩ ::
    match parensAround tokens union with
    | some parens =>
      [.remove (parens.1, parens.1 + 1), .remove (parens.2, parens.2 + 1)]
    | none => []

/-- The tokens after the suggestion. There are none if it throws. -/
def getUndefinedRemovalSuggestion (undefinedType : Node) (union : ℕ × ℕ) (types : List Node) :
    Option (List Token) :=
  match types with
  | [first, second] =>
    let otherType := if first.range = undefinedType.range then second else first
    applyFixes (replaceUnion tokens union otherType.range) tokens
  | _ =>
    let index := types.findIdx fun type => type.range = undefinedType.range
    if index = 0 then
      types[1]?.bind fun next =>
        applyFixes [.remove (undefinedType.range.1, next.range.1)] tokens
    else
      types[index - 1]?.bind fun previous =>
        applyFixes [.remove (previous.range.2, undefinedType.range.2)] tokens

/-- The second suggestion for a type annotation, if there is one. -/
def removeUndefined ( typeAnnotation : Node) : Option (List Token) :=
  (getUndefinedTypeNode typeAnnotation none).bind fun found =>
    match found.2 with
    | some (.unionType range types) =>
      getUndefinedRemovalSuggestion tokens found.1 range types
    | _ => none

end Suggestion

/-! ## What it is for -/

/-- Whether a type is `undefined`, maybe in parentheses. -/
def isUndefined : Written → Bool
  | .undefined => true
  | .paren inner => isUndefined inner
  | _ => false

/-- A type without the parentheses around it. -/
@[grind =] def stripped : Written → Written
  | .paren inner => stripped inner
  | written => written

/-- The number of parentheses around a type. -/
@[grind =] def depth : Written → ℕ
  | .paren inner => depth inner + 1
  | _ => 0

/-- A member of a union, with its surroundings. -/
structure Place where
  frames : List Frame
  leading : Bool
  left : List Written
  member : Written
  right : List Written

mutual

/-- The first `undefined` that is a member of a union, with the frames around the type. -/
def find : Written → List Frame → Option Place
  | .paren inner, frames => find inner (.paren :: frames)
  | .union leading members, frames => findIn members frames leading []
  | .undefined, _ => none
  | .operand _, _ => none
  | .loose _, _ => none

def findIn : List Written → List Frame → Bool → List Written → Option Place
  | [], _, _, _ => none
  | member :: right, frames, leading, left =>
    if isUndefined member then some ⟨frames, leading, left, member, right⟩
    else (find member (.union leading left right :: frames)).or
      (findIn right frames leading (left ++ [member]))

end

namespace Place

variable (place : Place)

def members : List Written := place.left ++ place.member :: place.right

def union : Written := .union place.leading place.members

/-- What is left of the union: a single member takes its place. -/
def remaining : Option Tree :=
  match (place.left ++ place.right).map Written.tree with
  | [] => none
  | [tree] => some tree
  | trees => some (.union trees)

/-- The syntax tree without the member. -/
def treeWithout : Option Tree := place.remaining.map (plugTree place.frames)

/-- The member next to it that the suggestion removes up to. -/
def neighbour : Option Written := place.left.getLast?.or place.right.head?

/-- The union is in one pair of parentheses, which are those of a member of another union. -/
def IsMember : Prop := ∃ leading left right frames,
  place.frames = .paren :: .union leading left right :: frames

/-- The parentheses that go with the member are its own or those around the union. -/
def Removable : Prop :=
  match place.left ++ place.right with
  | [] => False
  | [other] => (stripped other).isOperand ∨ ¬place.IsMember
  | _ => ∀ neighbour ∈ place.neighbour, depth neighbour = depth place.member

end Place

/-! ## What is found -/

section Search

/-- The range of a member that is `undefined`. -/
def Place.range (place : Place) (base : ℕ) : ℕ × ℕ :=
  let start := base + (front (.union place.leading place.left place.right :: place.frames)).length +
    depth place.member
  (start, start + 1)

/-- The nodes at a place, in a type that begins at a position. -/
def Place.nodes (base : ℕ) (place : Place) : Node × Option Node :=
  (.undefinedKeyword (place.range base),
    some (nodeOf place.union (base + (front place.frames).length)))

mutual

/-- The search finds the node at the first place. A type that is just `undefined` is found with
the parent that it was given. -/
theorem getUndefinedTypeNode_nodeOf (base : ℕ) : ∀ (written : Written) (frames : List Frame)
    (parent : Option Node),
    getUndefinedTypeNode (nodeOf written (base + (front frames).length)) parent =
      if isUndefined written then
        some (.undefinedKeyword (base + (front frames).length + depth written,
          base + (front frames).length + depth written + 1), parent)
      else (find written frames).map (Place.nodes base)
  | .undefined, _, _ => rfl
  | .operand _, _, _ => rfl
  | .loose _, _, _ => rfl
  | .paren inner, frames, parent => by
      have found := getUndefinedTypeNode_nodeOf base inner (.paren :: frames) parent
      have length : base + (front (.paren :: frames)).length =
          base + (front frames).length + 1 := by
        simp [front]
        omega
      rw [length] at found
      rw [nodeOf, found, isUndefined, find, depth]
      have position : base + (front frames).length + 1 + depth inner =
          base + (front frames).length + (depth inner + 1) := by omega
      rw [position]
  | .union leading members, frames, parent => by
      have found := getUndefinedTypeNodes_nodesOf base members frames leading []
      have length : base + (front (.union leading [] members :: frames)).length =
          base + (front frames).length + if leading then 1 else 0 := by
        cases leading <;> simp [front, Nat.add_assoc]
      rw [length, List.nil_append, nodeOf] at found
      have notUndefined : isUndefined (.union leading members) = false := rfl
      rw [nodeOf, getUndefinedTypeNode, notUndefined, if_neg Bool.false_ne_true, find, found]

theorem getUndefinedTypeNodes_nodesOf (base : ℕ) : ∀ (right : List Written)
    (frames : List Frame) (leading : Bool) (left : List Written),
    getUndefinedTypeNodes
        (nodesOf right (base + (front (.union leading left right :: frames)).length))
        (some (nodeOf (.union leading (left ++ right)) (base + (front frames).length))) =
      (findIn right frames leading left).map (Place.nodes base)
  | [], _, _, _ => rfl
  | member :: right, frames, leading, left => by
      have here := getUndefinedTypeNode_nodeOf base member (.union leading left right :: frames)
        (some (nodeOf (.union leading (left ++ member :: right)) (base + (front frames).length)))
      have later := getUndefinedTypeNodes_nodesOf base right frames leading (left ++ [member])
      have position : base + (front (.union leading (left ++ [member]) right :: frames)).length =
          base + (front (.union leading left right :: frames)).length +
            member.tokens.length + 1 := by
        simp [front]
        omega
      have members : left ++ [member] ++ right = left ++ member :: right := by simp
      rw [position, members] at later
      have sameFront : front (.union leading left (member :: right) :: frames) =
          front (.union leading left right :: frames) := rfl
      rw [nodesOf, getUndefinedTypeNodes, sameFront, here, later, findIn]
      cases isUndefined member with
      | true => rfl
      | false => rw [if_neg Bool.false_ne_true, if_neg Bool.false_ne_true, Option.map_or]

end

mutual

/-- The place that is found is one of the type, and `undefined` is there. -/
theorem plug_find : ∀ (written : Written) (frames : List Frame) {place : Place},
    find written frames = some place →
      plug frames written = plug place.frames place.union ∧ isUndefined place.member
  | .paren inner, frames, _, found => plug_find inner (.paren :: frames) found
  | .union leading members, frames, _, found => plug_findIn members frames leading [] found

theorem plug_findIn : ∀ (right : List Written) (frames : List Frame) (leading : Bool)
    (left : List Written) {place : Place}, findIn right frames leading left = some place →
      plug frames (.union leading (left ++ right)) = plug place.frames place.union ∧
        isUndefined place.member
  | member :: right, frames, leading, left, place, found => by
      rw [findIn] at found
      split at found
      · rename_i isUndefined
        obtain rfl := Option.some.inj found
        exact ⟨rfl, isUndefined⟩
      · obtain here | ⟨-, later⟩ := Option.or_eq_some_iff.mp found
        · exact plug_find member (.union leading left right :: frames) here
        · have members : left ++ member :: right = left ++ [member] ++ right := by simp
          rw [members]
          exact plug_findIn right frames leading (left ++ [member]) later

end

end Search

/-! ## Types without their parentheses -/

section Stripped

open Written

variable {written : Written} {position : ℕ}

theorem tokens_stripped (written : Written) : written.tokens =
    List.replicate (depth written) .openingParen ++ (stripped written).tokens ++
      List.replicate (depth written) .closingParen := by
  induction written using stripped.induct with
  | case1 inner ih =>
      rw [depth, stripped, List.replicate_succ, List.replicate_succ', tokens, ih]
      simp only [List.cons_append, List.append_assoc]
  | case2 written notParen =>
      cases written with
      | paren inner => exact absurd rfl (notParen inner)
      | _ => simp [depth, stripped]

theorem tree_stripped (written : Written) : (stripped written).tree = written.tree := by
  induction written using stripped.induct with
  | case1 inner ih => rw [stripped, ih, tree]
  | case2 written notParen =>
      cases written with
      | paren inner => exact absurd rfl (notParen inner)
      | _ => rfl

theorem wellFormed_stripped (wellFormed : WellFormed written) :
    WellFormed (stripped written) := by
  induction wellFormed with
  | undefined => exact .undefined
  | operand text => exact .operand text
  | loose text => exact .loose text
  | paren _ ih => exact ih
  | union some several isOperand all _ => exact .union some several isOperand all

theorem range_nodeOf (written : Written) (position : ℕ) : (nodeOf written position).range =
    (position + depth written, position + depth written + (stripped written).tokens.length) := by
  induction written using stripped.induct generalizing position with
  | case1 inner ih =>
      rw [nodeOf, ih, depth, stripped, Nat.add_assoc, Nat.add_comm 1]
  | case2 written notParen =>
      cases written with
      | paren inner => exact absurd rfl (notParen inner)
      | _ => rfl

theorem stripped_of_isUndefined (isUndefined : isUndefined written) :
    stripped written = .undefined := by
  induction written using stripped.induct with
  | case1 inner ih => exact ih isUndefined
  | case2 written notParen =>
      cases written with
      | undefined => rfl
      | paren inner => exact absurd rfl (notParen inner)
      | _ => cases isUndefined

theorem find_of_isUndefined {frames : List Frame} (isUndefined : isUndefined written) :
    find written frames = none := by
  induction written using stripped.induct generalizing frames with
  | case1 inner ih => exact ih isUndefined
  | case2 written notParen =>
      cases written with
      | undefined => rfl
      | paren inner => exact absurd rfl (notParen inner)
      | _ => cases isUndefined

theorem nodesOf_append (left right : List Written) (position : ℕ) :
    nodesOf (left ++ right) position = nodesOf left position ++
      nodesOf right (position + (Separated.leading .pipe (left.map tokens)).length) := by
  induction left generalizing position with
  | nil => rfl
  | cons member left ih =>
      have length : position + member.tokens.length + 1 +
          (Separated.leading .pipe (left.map tokens)).length = position +
            (Separated.leading .pipe ((member :: left).map tokens)).length := by
        simp
        omega
      rw [List.cons_append, nodesOf, ih, length, nodesOf, List.cons_append]

theorem length_nodesOf (members : List Written) (position : ℕ) :
    (nodesOf members position).length = members.length := by
  induction members generalizing position with
  | nil => rfl
  | cons member members ih => rw [nodesOf, List.length_cons, ih, List.length_cons]

/-- Members end before the next one begins. -/
theorem of_mem_nodesOf {members : List Written} {node : Node}
    (mem : node ∈ nodesOf members position) :
    node.range.2 < position + (Separated.leading .pipe (members.map tokens)).length := by
  induction members generalizing position with
  | nil => cases mem
  | cons member members ih =>
      have length : member.tokens.length =
          depth member + (stripped member).tokens.length + depth member := by
        conv_lhs => rw [tokens_stripped]
        simp only [List.length_append, List.length_replicate]
      rw [List.map_cons, Separated.leading_cons, List.length_append, List.length_cons]
      rw [nodesOf, List.mem_cons] at mem
      obtain rfl | mem := mem
      · rw [range_nodeOf]
        dsimp only
        omega
      · have := ih mem
        omega

end Stripped

/-! ## What the suggestion leaves -/

/-- The frames without the parentheses directly around the union. -/
def Place.outer (place : Place) : List Frame :=
  match place.frames with
  | .paren :: frames => frames
  | frames => frames

section Result

open Written

variable {before behind : List Token} {place : Place} {other : Written} {x : Written}

theorem getText_append {part : List Token} {i j : ℕ} (start : i = before.length)
    (stop : j = i + part.length) : getText (before ++ part ++ behind) (i, j) = part := by
  subst start stop
  rw [getText, List.append_assoc, List.drop_left, Nat.add_sub_cancel_left, List.take_left]

/-- The text of a member is that without its parentheses. -/
theorem getText_member {leading : Bool} {left right : List Written} {member : Written}
    {position : ℕ} (start : position = before.length + (if leading then 1 else 0) +
      (Separated.leading .pipe (left.map tokens)).length) :
    getText (before ++ (Written.union leading (left ++ member :: right)).tokens ++ behind)
      (nodeOf member position).range = (stripped member).tokens := by
  have split : before ++ (Written.union leading (left ++ member :: right)).tokens ++ behind =
      (before ++ (if leading then [.pipe] else []) ++
        Separated.leading .pipe (left.map tokens) ++
          List.replicate (depth member) .openingParen) ++ (stripped member).tokens ++
      (List.replicate (depth member) .closingParen ++
        Separated.following .pipe (right.map tokens) ++ behind) := by
    have member := tokens_stripped member
    simp only [tokens_union, List.map_append, List.map_cons, Separated.join_append_cons, member,
      List.append_assoc]
  rw [range_nodeOf, split, getText_append _ rfl]
  rw [start]
  cases leading <;> simp <;> omega

/-- The union of a place, with its own text. -/
theorem removeUndefined_nodeOf (found : find x [] = some place) (tokens : List Token)
    (base : ℕ) : removeUndefined tokens (nodeOf x base) =
      getUndefinedRemovalSuggestion tokens (.undefinedKeyword (place.range base))
        (nodeOf place.union (base + (front place.frames).length)).range
        (nodesOf place.members (base + (front place.frames).length +
          if place.leading then 1 else 0)) := by
  have search := getUndefinedTypeNode_nodeOf base x [] none
  have notUndefined : ¬isUndefined x := by
    intro isUndefined
    rw [find_of_isUndefined isUndefined] at found
    cases found
  rw [if_neg notUndefined, found] at search
  rw [removeUndefined, ← Nat.add_zero base]
  exact (congrArg (Option.bind · _) search).trans rfl

theorem parensAround_append {part : List Token} {i j : ℕ} {a : Token}
    (start : i = before.length + 1) (stop : j = i + part.length) :
    parensAround (before ++ [a] ++ part ++ behind) (i, j) =
      if a = .openingParen ∧ behind.head? = some .closingParen then
        some (before.length, j)
      else none := by
  have opening : indexBefore (fun _ => true) (before ++ [a] ++ part ++ behind) i =
      some before.length := by
    rw [List.append_assoc _ part]
    exact indexBefore_append (by simp) rfl (by simpa using start)
  have atOpening : (before ++ [a] ++ part ++ behind)[before.length]? = some a := by simp
  rw [parensAround, opening]
  cases behind with
  | nil =>
      rw [indexAfter, List.drop_eq_nil_of_le (by simp; omega)]
      simp
  | cons b behind =>
      have length : j = (before ++ [a] ++ part).length := by
        simp
        omega
      have closing : indexAfter (fun _ => true) (before ++ [a] ++ part ++ b :: behind) j =
          some j := by
        have found := @indexAfter_append _ (fun _ => true) (before ++ [a] ++ part) [] behind b j
          length (by simp) rfl
        simpa using found
      have atClosing : (before ++ [a] ++ part ++ b :: behind)[j]? = some b := by
        rw [length, List.getElem?_append_right (Nat.le_refl _), Nat.sub_self]
        rfl
      rw [closing]
      dsimp only
      simp only [atOpening, atClosing, List.head?_cons, Option.some.injEq]

/-- A union is the whole type or in parentheses. -/
theorem Place.frames_cases (wellFormed : WellFormed (plug place.frames place.union)) :
    place.frames = [] ∨ place.frames = .paren :: place.outer := by
  unfold Place.outer
  cases frames : place.frames with
  | nil => exact .inl rfl
  | cons frame outer =>
      cases frame with
      | paren => exact .inr rfl
      | union leading left right =>
          rw [frames, plug_cons] at wellFormed
          cases wellFormed.inner with
          | union _ _ isOperand _ => cases isOperand place.union (by simp)

/-- Where a member is replaced, up to the parentheses around the union. -/
theorem applyFixes_replaceUnion (wellFormed : WellFormed (plug place.frames place.union))
    {range : ℕ × ℕ} {whole : List Token}
    (isWhole : whole = before ++ [.other [':']] ++ (plug place.frames place.union).tokens ++ behind)
    (text : getText whole range = (stripped other).tokens) :
    applyFixes (replaceUnion whole
        (nodeOf place.union (before.length + 1 + (front place.frames).length)).range range) whole =
      some (before ++ [.other [':']] ++ (plug place.outer (stripped other)).tokens ++ behind) := by
  have unionRange (position : ℕ) : (nodeOf place.union position).range =
      (position, position + place.union.tokens.length) := rfl
  rw [replaceUnion, text, unionRange]
  rw [tokens_plug] at isWhole ⊢
  obtain frames | frames := place.frames_cases wellFormed
  · have outer : place.outer = [] := by rw [Place.outer, frames]
    rw [frames] at isWhole
    simp only [front, back, List.nil_append, List.append_nil] at isWhole
    have parens := @parensAround_append before behind place.union.tokens (before.length + 1) _
      (.other [':']) rfl rfl
    rw [if_neg (by simp), ← isWhole] at parens
    rw [frames, outer, front, List.length_nil, Nat.add_zero, parens]
    dsimp only
    rw [applyFixes_singleton, isWhole, replaceRange_append (by simp) rfl]
    simp [back]
  · rw [frames] at isWhole ⊢
    simp only [front, back] at isWhole ⊢
    have split : whole = (before ++ [.other [':']] ++ front place.outer) ++ [.openingParen] ++
        place.union.tokens ++ .closingParen :: (back place.outer ++ behind) := by
      rw [isWhole]
      simp
    have start : before.length + 1 + (front place.outer ++ [Token.openingParen]).length =
        (before ++ [Token.other [':']] ++ front place.outer).length + 1 := by
      simp
      omega
    have parens := @parensAround_append _ (.closingParen :: (back place.outer ++ behind))
      place.union.tokens _ _ .openingParen start rfl
    rw [if_pos ⟨rfl, rfl⟩, ← split] at parens
    rw [parens]
    dsimp only
    rw [split, applyFixes_around start rfl]
    simp

theorem Place.length_front (place : Place) :
    (front (.union place.leading place.left place.right :: place.frames)).length =
      (front place.frames).length + (if place.leading then 1 else 0) +
        (Separated.leading .pipe (place.left.map tokens)).length := by
  cases h : place.leading with
  | false => simp [front]
  | true =>
      simp [front]
      omega

/-- The member is found by its range. -/
theorem Place.range_eq (isUndefined : isUndefined place.member) (base : ℕ) :
    place.range base = (nodeOf place.member (base + (front place.frames).length +
      (if place.leading then 1 else 0) +
        (Separated.leading .pipe (place.left.map tokens)).length)).range := by
  rw [range_nodeOf, stripped_of_isUndefined isUndefined, Place.range, place.length_front]
  simp only [tokens, List.length_singleton, Nat.add_assoc]

/-- The members before it have other ranges. -/
theorem Place.range_ne {node : Node} {base : ℕ}
    (mem : node ∈ nodesOf place.left (base + (front place.frames).length +
      if place.leading then 1 else 0)) : node.range ≠ place.range base := by
  intro same
  have stop := of_mem_nodesOf mem
  rw [same, Place.range, place.length_front] at stop
  dsimp only at stop
  omega

/-- The whole text around a union. -/
theorem Place.whole_eq (whole : plug [] x = plug place.frames place.union) :
    before ++ [.other [':']] ++ x.tokens ++ behind =
      (before ++ [.other [':']] ++ front place.frames) ++ place.union.tokens ++
        (back place.frames ++ behind) := by
  have tokens : x.tokens = (plug place.frames place.union).tokens := by rw [← whole]; rfl
  rw [tokens, tokens_plug]
  simp only [List.append_assoc]

/-- Of two members, the other one is left without its parentheses. -/
theorem removeUndefined_pair (found : find x [] = some place) (wellFormed : WellFormed x)
    (pair : place.left ++ place.right = [other]) :
    removeUndefined (before ++ [.other [':']] ++ x.tokens ++ behind)
        (nodeOf x (before.length + 1)) =
      some (before ++ [.other [':']] ++ (plug place.outer (stripped other)).tokens ++ behind) := by
  obtain ⟨plugged, isUndefined⟩ := plug_find x [] found
  have isRoot : plug [] x = x := rfl
  have whole := @Place.whole_eq before behind place x plugged
  have isWhole : before ++ [.other [':']] ++ x.tokens ++ behind =
      before ++ [.other [':']] ++ (plug place.frames place.union).tokens ++ behind := by
    rw [← plugged, isRoot]
  rw [isRoot] at plugged
  rw [plugged] at wellFormed
  rw [removeUndefined_nodeOf found]
  have length : (before ++ [Token.other [':']] ++ front place.frames).length =
      before.length + 1 + (front place.frames).length := by
    simp
    omega
  obtain ⟨none, one⟩ | ⟨one, none⟩ := List.append_eq_singleton_iff.mp pair
  · have members : place.members = [place.member, other] := by
      rw [Place.members, none, one]
      rfl
    have same := Place.range_eq isUndefined (before.length + 1)
    simp only [none, List.map_nil, Separated.leading_nil, List.length_nil, Nat.add_zero] at same
    rw [members, nodesOf, nodesOf, nodesOf, getUndefinedRemovalSuggestion]
    rw [Node.range_undefinedKeyword, if_pos same.symm]
    refine applyFixes_replaceUnion wellFormed isWhole ?_
    rw [whole, Place.union, members]
    refine @getText_member _ _ place.leading [place.member] [] other _ ?_
    rw [length]
    simp [Nat.add_assoc]
  · have members : place.members = [other, place.member] := by
      rw [Place.members, none, one]
      rfl
    have differ := @Place.range_ne place (nodeOf other (before.length + 1 +
      (front place.frames).length + if place.leading then 1 else 0)) (before.length + 1)
        (by simp [one, nodesOf])
    rw [members, nodesOf, nodesOf, nodesOf, getUndefinedRemovalSuggestion]
    rw [Node.range_undefinedKeyword, if_neg differ]
    refine applyFixes_replaceUnion wellFormed isWhole ?_
    rw [whole, Place.union, members]
    refine @getText_member _ _ place.leading [] [place.member] other _ ?_
    rw [length]
    simp

/-- Unless a union has two members, only a part of it is removed. -/
theorem getUndefinedRemovalSuggestion_of_length {tokens : List Token} {types : List Node}
    {undefinedType : Node} {union : ℕ × ℕ} (length : types.length ≠ 2) :
    getUndefinedRemovalSuggestion tokens undefinedType union types =
      let index := types.findIdx fun type => type.range = undefinedType.range
      if index = 0 then
        types[1]?.bind fun next =>
          applyFixes [.remove (undefinedType.range.1, next.range.1)] tokens
      else
        types[index - 1]?.bind fun previous =>
          applyFixes [.remove (previous.range.2, undefinedType.range.2)] tokens := by
  unfold getUndefinedRemovalSuggestion
  split
  · exact absurd rfl length
  · rfl

/-- The nodes of the members, with that of the place among them. -/
theorem Place.nodesOf_members (place : Place) (base : ℕ) :
    nodesOf place.members (base + (front place.frames).length +
        if place.leading then 1 else 0) =
      nodesOf place.left (base + (front place.frames).length + if place.leading then 1 else 0) ++
        nodeOf place.member (base + (front place.frames).length +
          (if place.leading then 1 else 0) +
            (Separated.leading .pipe (place.left.map tokens)).length) ::
          nodesOf place.right (base + (front place.frames).length +
            (if place.leading then 1 else 0) +
              (Separated.leading .pipe (place.left.map tokens)).length +
                place.member.tokens.length + 1) := by
  rw [Place.members, nodesOf_append, nodesOf]

theorem Place.findIdx_eq (isUndefined : isUndefined place.member) (base : ℕ) :
    (nodesOf place.members (base + (front place.frames).length +
        if place.leading then 1 else 0)).findIdx
      (fun type => type.range = (Node.undefinedKeyword (place.range base)).range) =
        place.left.length := by
  have others : (nodesOf place.left (base + (front place.frames).length +
      if place.leading then 1 else 0)).findIdx
        (fun type => type.range = (Node.undefinedKeyword (place.range base)).range) =
          place.left.length := by
    rw [← length_nodesOf place.left (base + (front place.frames).length +
      if place.leading then 1 else 0), List.findIdx_eq_length]
    intro node mem
    exact decide_eq_false (Place.range_ne mem)
  rw [place.nodesOf_members, List.findIdx_append, others, if_neg (by simp [length_nodesOf]),
    List.findIdx_cons, Node.range_undefinedKeyword, place.range_eq isUndefined]
  simp [length_nodesOf]

/-- The only member cannot be removed. -/
theorem removeUndefined_single (found : find x [] = some place)
    (single : place.left ++ place.right = []) (tokens : List Token) (base : ℕ) :
    removeUndefined tokens (nodeOf x base) = none := by
  obtain ⟨-, isUndefined⟩ := plug_find x [] found
  obtain ⟨left, right⟩ := List.append_eq_nil_iff.mp single
  have members : place.members = [place.member] := by
    rw [Place.members, left, right]
    rfl
  have index := place.findIdx_eq isUndefined base
  rw [removeUndefined_nodeOf found, getUndefinedRemovalSuggestion_of_length (by simp [members,
    length_nodesOf])]
  dsimp only
  rw [index, left, List.length_nil, if_pos rfl, members]
  rfl

/-- What is left around the member before it. -/
def Place.behindPrevious (place : Place) (left : List Written) (previous : Written) :
    List Token :=
  front place.frames ++ (if place.leading then [.pipe] else []) ++
    Separated.leading .pipe (left.map tokens) ++
    List.replicate (depth previous) .openingParen ++ (stripped previous).tokens ++
    List.replicate (depth place.member) .closingParen ++
    Separated.following .pipe (place.right.map tokens) ++ back place.frames

/-- What is left around the next member, if this is the first one. -/
def Place.beforeNext (place : Place) (next : Written) (right : List Written) : List Token :=
  front place.frames ++ (if place.leading then [.pipe] else []) ++
    List.replicate (depth place.member) .openingParen ++ (stripped next).tokens ++
    List.replicate (depth next) .closingParen ++
    Separated.following .pipe (right.map tokens) ++ back place.frames

theorem Place.tokens_member (isUndefined : isUndefined place.member) : place.member.tokens =
    List.replicate (depth place.member) .openingParen ++ [.undefined] ++
      List.replicate (depth place.member) .closingParen := by
  conv_lhs => rw [tokens_stripped, stripped_of_isUndefined isUndefined]
  rfl

theorem removeUndefined_behind {left : List Written} {previous : Written}
    (found : find x [] = some place) (isLeft : place.left = left ++ [previous])
    (length : place.members.length ≠ 2) :
    removeUndefined (before ++ [.other [':']] ++ x.tokens ++ behind)
        (nodeOf x (before.length + 1)) =
      some (before ++ [.other [':']] ++ place.behindPrevious left previous ++ behind) := by
  obtain ⟨plugged, isUndefined⟩ := plug_find x [] found
  have index := place.findIdx_eq isUndefined (before.length + 1)
  have split : before ++ [Token.other [':']] ++ x.tokens ++ behind =
      (before ++ [Token.other [':']] ++ front place.frames ++
        (if place.leading then [Token.pipe] else []) ++
        Separated.leading Token.pipe (left.map tokens) ++
        List.replicate (depth previous) Token.openingParen ++ (stripped previous).tokens) ++
      (List.replicate (depth previous) Token.closingParen ++ [Token.pipe] ++
        List.replicate (depth place.member) Token.openingParen ++ [Token.undefined]) ++
      (List.replicate (depth place.member) Token.closingParen ++
        Separated.following Token.pipe (place.right.map tokens) ++ back place.frames ++
        behind) := by
    rw [place.whole_eq plugged, Place.union, Place.members, isLeft]
    simp only [tokens_union, List.map_append, List.map_cons, Separated.join_append_cons,
      Separated.following_cons, place.tokens_member isUndefined, tokens_stripped previous,
      List.append_assoc, List.cons_append, List.nil_append]
  have found' : (nodesOf place.members (before.length + 1 + (front place.frames).length +
      if place.leading then 1 else 0))[left.length]? =
        some (nodeOf previous (before.length + 1 + (front place.frames).length +
          (if place.leading then 1 else 0) +
            (Separated.leading .pipe (left.map tokens)).length)) := by
    rw [place.nodesOf_members, isLeft, nodesOf_append, List.append_assoc,
      List.getElem?_append_right (by rw [length_nodesOf]), length_nodesOf, Nat.sub_self]
    rfl
  rw [removeUndefined_nodeOf found, getUndefinedRemovalSuggestion_of_length (by
    rwa [length_nodesOf])]
  dsimp only
  rw [index, isLeft, List.length_append, List.length_singleton, if_neg (Nat.succ_ne_zero _),
    Nat.add_sub_cancel, found', Option.bind_some, applyFixes_singleton, split, Fix.remove,
    replaceRange_append]
  · simp only [Place.behindPrevious, List.append_assoc, List.nil_append]
  · rw [range_nodeOf]
    cases place.leading <;> simp <;> omega
  · rw [Node.range_undefinedKeyword, range_nodeOf, Place.range, place.length_front, isLeft]
    have whole := congrArg List.length (tokens_stripped previous)
    cases place.leading <;> simp at whole ⊢ <;> omega

theorem removeUndefined_front {next : Written} {right : List Written}
    (found : find x [] = some place) (isLeft : place.left = [])
    (isRight : place.right = next :: right) (length : place.members.length ≠ 2) :
    removeUndefined (before ++ [.other [':']] ++ x.tokens ++ behind)
        (nodeOf x (before.length + 1)) =
      some (before ++ [.other [':']] ++ place.beforeNext next right ++ behind) := by
  obtain ⟨plugged, isUndefined⟩ := plug_find x [] found
  have index := place.findIdx_eq isUndefined (before.length + 1)
  have split : before ++ [Token.other [':']] ++ x.tokens ++ behind =
      (before ++ [Token.other [':']] ++ front place.frames ++
        (if place.leading then [Token.pipe] else []) ++
        List.replicate (depth place.member) Token.openingParen) ++
      ([Token.undefined] ++ List.replicate (depth place.member) Token.closingParen ++
        [Token.pipe] ++ List.replicate (depth next) Token.openingParen) ++
      ((stripped next).tokens ++ List.replicate (depth next) Token.closingParen ++
        Separated.following Token.pipe (right.map tokens) ++ back place.frames ++ behind) := by
    rw [place.whole_eq plugged, Place.union, Place.members, isLeft, isRight]
    simp only [tokens_union, List.map_cons, Separated.join_cons, Separated.following_cons,
      place.tokens_member isUndefined, tokens_stripped next, List.append_assoc,
      List.cons_append, List.nil_append]
  have found' : (nodesOf place.members (before.length + 1 + (front place.frames).length +
      if place.leading then 1 else 0))[1]? =
        some (nodeOf next (before.length + 1 + (front place.frames).length +
          (if place.leading then 1 else 0) + place.member.tokens.length + 1)) := by
    rw [Place.members, isLeft, isRight]
    rfl
  rw [removeUndefined_nodeOf found, getUndefinedRemovalSuggestion_of_length (by
    rwa [length_nodesOf])]
  dsimp only
  rw [index, isLeft, List.length_nil, if_pos rfl, found', Option.bind_some,
    applyFixes_singleton, split, Fix.remove, replaceRange_append]
  · simp only [Place.beforeNext, List.append_assoc, List.nil_append]
  · rw [Node.range_undefinedKeyword, Place.range, place.length_front, isLeft]
    cases place.leading <;> simp <;> omega
  · rw [Node.range_undefinedKeyword, range_nodeOf, Place.range, place.length_front, isLeft]
    have whole := congrArg List.length (place.tokens_member isUndefined)
    cases place.leading <;> simp at whole ⊢ <;> omega

end Result

/-! ## Whether it is the type that was meant -/

section Meaning

open Written

variable {before behind : List Token} {place : Place} {x : Written}

/-- The union without the member. -/
def Place.rest (place : Place) : Written := .union place.leading (place.left ++ place.right)

theorem wellFormed_rest (wellFormed : WellFormed (plug place.frames place.union))
    (several : 2 ≤ (place.left ++ place.right).length) :
    WellFormed (plug place.frames place.rest) := by
  refine wellFormed.replace ?_ (fun isOperand => by cases isOperand)
  cases wellFormed.inner with
  | union _ _ isOperand all =>
      rw [Place.members, List.forall_mem_append, List.forall_mem_cons] at isOperand all
      refine .union ?_ (.inr several) ?_ ?_
      · intro none
        rw [none] at several
        cases several
      · rw [List.forall_mem_append]
        exact ⟨isOperand.1, isOperand.2.2⟩
      · rw [List.forall_mem_append]
        exact ⟨all.1, all.2.2⟩

theorem treeWithout_of_several (several : 2 ≤ (place.left ++ place.right).length) :
    place.treeWithout = some (plug place.frames place.rest).tree := by
  rw [tree_plug, Place.rest, tree_union, Place.treeWithout, Place.remaining]
  match others : place.left ++ place.right, several with
  | _ :: _ :: _, _ => rfl

/-- With other parentheses, the type would no longer be balanced. -/
theorem parses_parens {before behind : List Token} {paren : Token} {a b : ℕ} {written : Written}
    (wellFormed : WellFormed written)
    (split : written.tokens = before ++ List.replicate a paren ++ behind)
    (isParen : paren = .openingParen ∨ paren = .closingParen) :
    Parses (before ++ List.replicate b paren ++ behind) written.tree ↔ a = b := by
  constructor
  · intro parses
    obtain ⟨parsed, wellFormed', tokens, -⟩ := parses
    have balanced := count_parens wellFormed
    have balanced' := count_parens wellFormed'
    rw [split] at balanced
    rw [tokens] at balanced'
    obtain rfl | rfl := isParen
    · simp [List.count_replicate] at balanced balanced'
      omega
    · simp [List.count_replicate] at balanced balanced'
      omega
  · rintro rfl
    exact ⟨written, wellFormed, split, rfl⟩

theorem tokens_rest_behind {left : List Written} {previous : Written}
    (isLeft : place.left = left ++ [previous]) : (plug place.frames place.rest).tokens =
      (front place.frames ++ (if place.leading then [.pipe] else []) ++
        Separated.leading .pipe (left.map tokens) ++
        List.replicate (depth previous) .openingParen ++ (stripped previous).tokens) ++
      List.replicate (depth previous) .closingParen ++
      (Separated.following .pipe (place.right.map tokens) ++ back place.frames) := by
  have members : left ++ [previous] ++ place.right = left ++ previous :: place.right := by simp
  rw [tokens_plug, Place.rest, isLeft, members]
  simp only [tokens_union, List.map_append, List.map_cons, Separated.join_append_cons,
    tokens_stripped previous, List.append_assoc]

theorem tokens_rest_front {next : Written} {right : List Written} (isLeft : place.left = [])
    (isRight : place.right = next :: right) : (plug place.frames place.rest).tokens =
      (front place.frames ++ (if place.leading then [.pipe] else [])) ++
      List.replicate (depth next) .openingParen ++
      ((stripped next).tokens ++ List.replicate (depth next) .closingParen ++
        Separated.following .pipe (right.map tokens) ++ back place.frames) := by
  rw [tokens_plug, Place.rest, isLeft, isRight, List.nil_append]
  simp only [tokens_union, List.map_cons, Separated.join_cons, tokens_stripped next,
    List.append_assoc]

/-- Of a larger union, what is left is right if the parentheses around the member are as many
as those around its neighbour. -/
theorem parses_behindPrevious (wellFormed : WellFormed (plug place.frames place.union))
    (several : 2 ≤ (place.left ++ place.right).length) {left : List Written}
    {previous : Written} (isLeft : place.left = left ++ [previous]) :
    Parses (place.behindPrevious left previous) (plug place.frames place.rest).tree ↔
      depth previous = depth place.member := by
  rw [← parses_parens (wellFormed_rest wellFormed several) (tokens_rest_behind isLeft)
    (.inr rfl), Place.behindPrevious]
  simp only [List.append_assoc]

theorem parses_beforeNext (wellFormed : WellFormed (plug place.frames place.union))
    (several : 2 ≤ (place.left ++ place.right).length) {next : Written} {right : List Written}
    (isLeft : place.left = []) (isRight : place.right = next :: right) :
    Parses (place.beforeNext next right) (plug place.frames place.rest).tree ↔
      depth next = depth place.member := by
  rw [← parses_parens (wellFormed_rest wellFormed several) (tokens_rest_front isLeft isRight)
    (.inl rfl), Place.beforeNext]
  simp only [List.append_assoc]

/-- A `|` before a loose type, or behind it, or by another one. -/
theorem not_parses_of_touch {before behind : List Token} {a b : Token} {tree : Tree}
    (touch : ¬MayTouch a b) : ¬Parses (before ++ a :: b :: behind) tree := by
  rintro ⟨parsed, wellFormed, tokens, -⟩
  have chain := isChain_tokens wellFormed
  rw [tokens] at chain
  exact touch (List.isChain_append_cons_cons.mp chain).2.1

/-- A list of trees is not that of a union of themselves. -/
theorem ne_singleton_union (trees : List Tree) : trees ≠ [.union trees] := by
  intro same
  have size := congrArg sizeOf same
  simp at size
  omega

section Member

variable {leading : Bool} {left right : List Written} {frames : List Frame}
  {member : Written} {members : List Written}

/-- The text before a member ends with a `|` if there is anything in the union before it. -/
theorem front_union_eq (nonempty : leading ∨ left ≠ []) :
    ∃ before, front (.union leading left right :: frames) = before ++ [.pipe] := by
  rw [front]
  obtain rfl | ⟨left, last, rfl⟩ := List.eq_nil_or_concat' left
  · have isLeading : leading := by simpa using nonempty
    rw [if_pos isLeading]
    exact ⟨front frames, by simp⟩
  · rw [List.map_append, Separated.leading_append]
    refine ⟨front frames ++ (if leading then [.pipe] else []) ++
      Separated.leading .pipe (left.map tokens) ++ last.tokens, ?_⟩
    simp

/-- A loose type cannot be a member without parentheses. -/
theorem not_parses_loose {text : Text} {tree : Tree}
    (nonempty : leading ∨ left ≠ [] ∨ right ≠ []) :
    ¬Parses (plug (.union leading left right :: frames) (.loose text)).tokens tree := by
  have single : (Written.loose text).tokens = [.loose text] := rfl
  rw [tokens_plug, single]
  rw [← or_assoc] at nonempty
  obtain before | behind := nonempty
  · obtain ⟨before, isFront⟩ := @front_union_eq leading left right frames before
    have split : before ++ [Token.pipe] ++ [.loose text] ++
        back (.union leading left right :: frames) =
          before ++ .pipe :: .loose text :: back (.union leading left right :: frames) := by simp
    rw [isFront, split]
    exact not_parses_of_touch fun touch => (touch.1 rfl).2 text rfl
  · obtain ⟨next, right, rfl⟩ := List.exists_cons_of_ne_nil behind
    rw [List.append_assoc, List.singleton_append, back, List.map_cons, Separated.following_cons,
      List.cons_append, List.cons_append]
    exact not_parses_of_touch fun touch => touch.2 text rfl rfl

/-- The members of a union that stands in another one without parentheses are members of this
one. -/
theorem tokens_flat {inner : Bool} (some : members ≠ []) (flat : ¬(inner ∧ (leading ∨ left ≠ []))) :
    (plug (.union leading left right :: frames) (.union inner members)).tokens =
      (plug frames (.union (leading || inner) (left ++ members ++ right))).tokens := by
  obtain ⟨first, members, rfl⟩ := List.exists_cons_of_ne_nil some
  have text : left ++ first :: members ++ right = left ++ first :: (members ++ right) := by simp
  rw [text, tokens_plug, tokens_plug, front, back, tokens_union, tokens_union]
  simp only [List.map_append, List.map_cons, Separated.join_append_cons, Separated.join_cons,
    Separated.following_append]
  cases inner with
  | false => simp
  | true =>
      obtain ⟨notLeading, isNil⟩ : ¬leading ∧ left = [] := by simpa using flat
      simp [notLeading, isNil]

/-- Without its parentheses, a union is not a member anymore. -/
theorem not_parses_union {inner : Bool}
    (wellFormed : WellFormed (plug frames (.union leading (left ++ member :: right))))
    (wellFormed' : WellFormed (.union inner members)) :
    ¬Parses (plug (.union leading left right :: frames) (.union inner members)).tokens
      (plug (.union leading left right :: frames) (.union inner members)).tree := by
  cases wellFormed' with
  | union some several isOperand all =>
      by_cases touch : inner ∧ (leading ∨ left ≠ [])
      · obtain ⟨isInner, nonempty⟩ := touch
        obtain ⟨before, isFront⟩ := @front_union_eq leading left right frames nonempty
        rw [tokens_plug, isFront, tokens_union, if_pos isInner, List.append_assoc,
          List.append_assoc]
        exact not_parses_of_touch fun touch => (touch.1 rfl).1 rfl
      · intro parses
        rw [tokens_flat some touch, plug_cons, tree_plug] at parses
        have flat : WellFormed (plug frames
            (.union (leading || inner) (left ++ members ++ right))) := by
          refine wellFormed.replace ?_ fun isOperand => by cases isOperand
          cases wellFormed.inner with
          | union _ several' isOperand' all' =>
              rw [List.forall_mem_append, List.forall_mem_cons] at isOperand' all'
              obtain ⟨first, members, rfl⟩ := List.exists_cons_of_ne_nil some
              refine .union (by simp) ?_ ?_ ?_
              · simp only [List.length_append, List.length_cons, Bool.or_eq_true]
                  at several several' ⊢
                grind
              · rw [List.forall_mem_append, List.forall_mem_append]
                exact ⟨⟨isOperand'.1, isOperand⟩, isOperand'.2.2⟩
              · rw [List.forall_mem_append, List.forall_mem_append]
                exact ⟨⟨all'.1, all⟩, all'.2.2⟩
        have same := plugTree_injective (parses.unique ⟨_, flat, rfl, tree_plug⟩)
        rw [Frame.plug, tree_union, tree_union] at same
        have lists := Tree.union.inj same
        rw [List.map_append, List.map_append, List.map_append, List.append_assoc,
          List.append_cancel_left_eq, List.map_cons, tree_union, ← List.singleton_append,
          List.append_cancel_right_eq] at lists
        exact ne_singleton_union _ lists.symm

end Member

variable {other : Written}

theorem treeWithout_of_pair (pair : place.left ++ place.right = [other]) :
    place.treeWithout = some (plug place.outer (stripped other)).tree := by
  rw [Place.treeWithout, Place.remaining, pair, tree_plug, tree_stripped, Place.outer]
  match place.frames with
  | [] => rfl
  | .paren :: _ => rfl
  | .union _ _ _ :: _ => rfl

theorem wellFormed_outer (wellFormed : WellFormed (plug place.frames place.union))
    (wellFormed' : WellFormed other) (operand : other.isOperand ∨ ¬place.IsMember) :
    WellFormed (plug place.outer other) := by
  obtain frames | frames := place.frames_cases wellFormed
  · have outer : place.outer = [] := by rw [Place.outer, frames]
    rw [outer]
    exact wellFormed'
  · rw [frames, plug_cons] at wellFormed
    obtain isOperand | notMember := operand
    · exact wellFormed.replace wellFormed' fun _ => isOperand
    · match isOuter : place.outer with
      | [] => exact wellFormed'
      | .paren :: outer =>
          rw [isOuter, plug_cons] at wellFormed
          exact wellFormed.replace (.paren wellFormed') id
      | .union leading left right :: outer =>
          rw [isOuter] at frames
          exact absurd ⟨leading, left, right, outer, frames⟩ notMember

/-- Of two members, the other one has to be an operand if it becomes a member of an outer
union. -/
theorem parses_pair (wellFormed : WellFormed (plug place.frames place.union))
    (wellFormed' : WellFormed other) :
    Parses (plug place.outer (stripped other)).tokens (plug place.outer (stripped other)).tree ↔
      (stripped other).isOperand ∨ ¬place.IsMember := by
  constructor
  · intro parses
    by_contra neither
    obtain ⟨notOperand, isMember⟩ := not_or.mp neither
    obtain ⟨leading, left, right, frames, isFrames⟩ := not_not.mp isMember
    have outer : place.outer = .union leading left right :: frames := by
      rw [Place.outer, isFrames]
    rw [isFrames, plug_cons, plug_cons] at wellFormed
    rw [outer] at parses
    have strippedWellFormed := wellFormed_stripped wellFormed'
    match isStripped : stripped other, notOperand with
    | .undefined, notOperand => exact notOperand rfl
    | .operand _, notOperand => exact notOperand rfl
    | .paren inner, notOperand => exact notOperand rfl
    | .loose text, _ =>
        rw [isStripped] at parses
        refine not_parses_loose ?_ parses
        cases wellFormed.inner with
        | union _ several _ _ =>
            refine several.imp_right fun several => ?_
            by_contra none
            obtain ⟨rfl, rfl⟩ : left = [] ∧ right = [] := by simpa [not_or] using none
            simp at several
    | .union inner members, _ =>
        rw [isStripped] at parses strippedWellFormed
        exact not_parses_union wellFormed strippedWellFormed parses
  · intro operand
    exact ⟨_, wellFormed_outer wellFormed (wellFormed_stripped wellFormed') operand, rfl, rfl⟩

/-- The suggestion leaves a type without the member, and with everything else as it was. -/
def Removes (before behind : List Token) (x : Written) (place : Place) : Prop :=
  ∃ type tree, removeUndefined (before ++ [.other [':']] ++ x.tokens ++ behind)
      (nodeOf x (before.length + 1)) = some (before ++ [.other [':']] ++ type ++ behind) ∧
    place.treeWithout = some tree ∧ Parses type tree

theorem removes_iff {type : List Token} {tree : Tree}
    (result : removeUndefined (before ++ [.other [':']] ++ x.tokens ++ behind)
      (nodeOf x (before.length + 1)) = some (before ++ [.other [':']] ++ type ++ behind))
    (treeWithout : place.treeWithout = some tree) :
    Removes before behind x place ↔ Parses type tree := by
  constructor
  · rintro ⟨type', tree', result', treeWithout', parses⟩
    obtain rfl := Option.some.inj (treeWithout.symm.trans treeWithout')
    have same := Option.some.inj (result.symm.trans result')
    rw [List.append_cancel_right_eq, List.append_cancel_left_eq] at same
    rwa [same]
  · intro parses
    exact ⟨type, tree, result, treeWithout, parses⟩

theorem removes_of_several (wellFormed : WellFormed x) (found : find x [] = some place)
    (several : 2 ≤ (place.left ++ place.right).length) : Removes before behind x place ↔
      ∀ neighbour ∈ place.neighbour, depth neighbour = depth place.member := by
  have plugged : x = plug place.frames place.union := (plug_find x [] found).1
  rw [plugged] at wellFormed
  have length : place.members.length ≠ 2 := by
    rw [Place.members, List.length_append, List.length_cons]
    rw [List.length_append] at several
    omega
  obtain isLeft | ⟨left, previous, isLeft⟩ := List.eq_nil_or_concat' place.left
  · rw [isLeft] at several
    obtain ⟨next, right, isRight⟩ : ∃ next right, place.right = next :: right :=
      List.exists_cons_of_ne_nil fun none => by simp [none] at several
    rw [← isLeft] at several
    rw [removes_iff (removeUndefined_front found isLeft isRight length)
      (treeWithout_of_several several), parses_beforeNext wellFormed several isLeft isRight]
    simp [Place.neighbour, isLeft, isRight]
  · rw [removes_iff (removeUndefined_behind found isLeft length)
      (treeWithout_of_several several), parses_behindPrevious wellFormed several isLeft]
    simp [Place.neighbour, isLeft]

/-- Removing an `undefined` leaves the type that was meant if and only if the parentheses
around it go with it. -/
theorem removeUndefined_removes_iff (wellFormed : WellFormed x)
    (found : find x [] = some place) :
    Removes before behind x place ↔ place.Removable := by
  rw [Place.Removable]
  match others : place.left ++ place.right with
  | [] =>
      refine iff_false_intro ?_
      rintro ⟨type, tree, result, -⟩
      rw [removeUndefined_single found others] at result
      cases result
  | [other] =>
      have plugged : x = plug place.frames place.union := (plug_find x [] found).1
      rw [removes_iff (removeUndefined_pair found wellFormed others)
        (treeWithout_of_pair others)]
      rw [plugged] at wellFormed
      refine parses_pair wellFormed ?_
      cases wellFormed.inner with
      | union _ _ _ all =>
          refine all other ?_
          have mem : other ∈ place.left ++ place.right := by simp [others]
          rw [Place.members]
          simp at mem ⊢
          tauto
  | first :: second :: rest =>
      exact removes_of_several wellFormed found (by simp [others])

/-- `A | undefined | B` -/
theorem removes_between :
    Removes [] [] (.union false [.operand ['A'], .undefined, .operand ['B']])
      ⟨[], false, [.operand ['A']], .undefined, [.operand ['B']]⟩ := by
  have wellFormed : WellFormed (.union false [.operand ['A'], .undefined, .operand ['B']]) := by
    refine .union (by simp) (.inr (by simp)) (by simp [isOperand]) ?_
    simp only [List.forall_mem_cons]
    exact ⟨.operand _, .undefined, .operand _, by simp⟩
  refine (removeUndefined_removes_iff wellFormed rfl).mpr ?_
  intro neighbour isNeighbour
  obtain rfl := Option.some.inj isNeighbour
  rfl

/-- Of `(undefined) | A | B`, the suggestion leaves `(A | B`. -/
theorem not_removes_undefinedInParens :
    ¬Removes [] [] (.union false [.paren .undefined, .operand ['A'], .operand ['B']])
      ⟨[], false, [], .paren .undefined, [.operand ['A'], .operand ['B']]⟩ := by
  rintro ⟨type, tree, result, -, parsed, wellFormed, rfl, -⟩
  have left : some [.other [':'], .openingParen, .operand ['A'], .pipe, .operand ['B']] =
      some (.other [':'] :: (parsed.tokens ++ [])) := result
  have tokens : [.openingParen, .operand ['A'], .pipe, .operand ['B']] = parsed.tokens := by
    simpa using left
  have balanced := count_parens wellFormed
  rw [← tokens] at balanced
  revert balanced
  decide

end Meaning

end SonarJS.RedundantOptional
