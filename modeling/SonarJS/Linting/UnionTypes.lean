import Mathlib.Data.List.Chain
import SonarJS.Foundation.Separated

/-!
# Types with unions and parentheses

Types of TypeScript as far as unions go. A member of a union is `undefined`, another type that
binds tighter than `|`, or any type in parentheses. Function, constructor and conditional types
bind looser. All these other types are taken as one token. Parentheses are no nodes of the
syntax tree.
-/

namespace SonarJS.UnionTypes

abbrev Text := List Char

inductive Token
  | openingParen
  | closingParen
  | pipe
  | undefined
  | operand (text : Text)
  | loose (text : Text)
  | other (text : Text)
deriving DecidableEq

/-- A type as it is written. A union may begin with `|`. -/
inductive Written
  | undefined
  | operand (text : Text)
  | loose (text : Text)
  | paren (inner : Written)
  | union (leading : Bool) (members : List Written)

/-- A type of the syntax tree. -/
inductive Tree
  | undefined
  | operand (text : Text)
  | loose (text : Text)
  | union (members : List Tree)

namespace Written

mutual

@[grind =] def tokens : Written → List Token
  | undefined => [.undefined]
  | operand text => [.operand text]
  | loose text => [.loose text]
  | paren inner => .openingParen :: inner.tokens ++ [.closingParen]
  | union leading members =>
    (if leading then [.pipe] else []) ++ Separated.join .pipe (tokensOfAll members)

def tokensOfAll : List Written → List (List Token)
  | [] => []
  | member :: members => member.tokens :: tokensOfAll members

end

mutual

/-- The syntax tree. -/
def tree : Written → Tree
  | undefined => .undefined
  | operand text => .operand text
  | loose text => .loose text
  | paren inner => inner.tree
  | union _ members => .union (treeOfAll members)

def treeOfAll : List Written → List Tree
  | [] => []
  | member :: members => member.tree :: treeOfAll members

end

theorem tokensOfAll_eq (members : List Written) : tokensOfAll members = members.map tokens := by
  induction members with
  | nil => rfl
  | cons member members ih => rw [tokensOfAll, ih, List.map_cons]

theorem treeOfAll_eq (members : List Written) : treeOfAll members = members.map tree := by
  induction members with
  | nil => rfl
  | cons member members ih => rw [treeOfAll, ih, List.map_cons]

theorem tokens_union (leading : Bool) (members : List Written) :
    (union leading members).tokens =
      (if leading then [.pipe] else []) ++ Separated.join .pipe (members.map tokens) := by
  rw [tokens, tokensOfAll_eq]

theorem tree_union (leading : Bool) (members : List Written) :
    (union leading members).tree = .union (members.map tree) := by
  rw [tree, treeOfAll_eq]

/-- A type that can be a member of a union without parentheses. -/
def isOperand : Written → Bool
  | undefined | operand _ | paren _ => true
  | loose _ | union _ _ => false

end Written

open Written

/-- The types of the grammar. -/
inductive WellFormed : Written → Prop
  | undefined : WellFormed .undefined
  | operand (text : Text) : WellFormed (.operand text)
  | loose (text : Text) : WellFormed (.loose text)
  | paren {inner : Written} : WellFormed inner → WellFormed (.paren inner)
  | union {leading : Bool} {members : List Written} : members ≠ [] →
    (leading ∨ 2 ≤ members.length) → (∀ member ∈ members, member.isOperand) →
    (∀ member ∈ members, WellFormed member) → WellFormed (.union leading members)

/-- The tokens are those of a type with this syntax tree. -/
def Parses (tokens : List Token) (tree : Tree) : Prop :=
  ∃ written : Written, WellFormed written ∧ written.tokens = tokens ∧ written.tree = tree

/-! ## The grammar is unambiguous -/

section Unambiguous

/-- What has been read of a type, up to now: its members, and whether there was a `|`. -/
structure Level where
  members : List Tree
  pipes : Bool

namespace Level

def empty : Level := ⟨[], false⟩

def add (level : Level) (tree : Tree) : Level := { level with members := level.members ++ [tree] }

def close (level : Level) : Tree :=
  if level.pipes then .union level.members else level.members.headD .undefined

/-- The level behind a type. -/
def read (level : Level) : Written → Level
  | .union _ members => ⟨level.members ++ members.map tree, true⟩
  | written => level.add written.tree

end Level

/-- Reading a token, with the levels of the open parentheses. -/
def step : Level × List Level → Token → Level × List Level
  | (level, outer), .openingParen => (.empty, level :: outer)
  | (level, parent :: outer), .closingParen => (parent.add level.close, outer)
  | (level, []), .closingParen => (level, [])
  | (level, outer), .pipe => ({ level with pipes := true }, outer)
  | (level, outer), .undefined => (level.add .undefined, outer)
  | (level, outer), .operand text => (level.add (.operand text), outer)
  | (level, outer), .loose text => (level.add (.loose text), outer)
  | (level, outer), .other _ => (level, outer)

variable {written : Written} {level : Level} {outer : List Level}

theorem close_read (wellFormed : WellFormed written) :
    (Level.empty.read written).close = written.tree := by
  cases wellFormed with
  | union _ _ _ _ => rw [tree_union]; rfl
  | _ => rfl

theorem read_of_isOperand (isOperand : written.isOperand) :
    level.read written = level.add written.tree := by
  cases written with
  | union => cases isOperand
  | _ => rfl

/-- The members of a union are read one after another. -/
theorem foldl_following {members : List Written}
    (isOperand : ∀ member ∈ members, member.isOperand)
    (reads : ∀ member ∈ members, ∀ level,
      member.tokens.foldl step (level, outer) = (level.read member, outer)) :
    (Separated.following .pipe (members.map tokens)).foldl step (level, outer) =
      (⟨level.members ++ members.map tree, level.pipes || !members.isEmpty⟩, outer) := by
  induction members generalizing level with
  | nil => simp
  | cons member members ih =>
      rw [List.forall_mem_cons] at isOperand reads
      rw [List.map_cons, Separated.following_cons, List.foldl_append, List.foldl_cons, step,
        reads.1, read_of_isOperand isOperand.1, ih isOperand.2 reads.2]
      simp [Level.add]

theorem foldl_join {members : List Written} (some : members ≠ [])
    (isOperand : ∀ member ∈ members, member.isOperand)
    (reads : ∀ member ∈ members, ∀ level,
      member.tokens.foldl step (level, outer) = (level.read member, outer)) :
    (Separated.join .pipe (members.map tokens)).foldl step (level, outer) =
      (⟨level.members ++ members.map tree, level.pipes || 2 ≤ members.length⟩, outer) := by
  cases members with
  | nil => exact absurd rfl some
  | cons member members =>
      rw [List.forall_mem_cons] at isOperand reads
      rw [List.map_cons, Separated.join_cons, List.foldl_append, reads.1,
        read_of_isOperand isOperand.1, foldl_following isOperand.2 reads.2]
      cases members <;> simp [Level.add]

/-- Reading all tokens of a type. -/
theorem foldl_tokens (wellFormed : WellFormed written) (level : Level) (outer : List Level) :
    written.tokens.foldl step (level, outer) = (level.read written, outer) := by
  induction wellFormed generalizing level outer with
  | undefined => rfl
  | operand text => rfl
  | loose text => rfl
  | paren inner ih =>
      rw [tokens, List.cons_append, List.foldl_cons, step, List.foldl_append, ih]
      simp only [List.foldl_cons, List.foldl_nil, step, close_read inner]
      rfl
  | @union leading members some several isOperand _ ih =>
      rw [tokens_union, List.foldl_append]
      cases leading with
      | true =>
          rw [if_pos rfl, List.foldl_cons, List.foldl_nil, step,
            foldl_join some isOperand fun member h level => ih member h level outer]
          rfl
      | false =>
          have two : 2 ≤ members.length := by simpa using several
          rw [if_neg Bool.false_ne_true, List.foldl_nil,
            foldl_join some isOperand fun member h level => ih member h level outer]
          simp [two, Level.read]

/-- The syntax tree that tokens have been read as. -/
def readTree (tokens : List Token) : Tree := (tokens.foldl step (.empty, [])).1.close

theorem readTree_tokens (wellFormed : WellFormed written) :
    readTree written.tokens = written.tree := by
  rw [readTree, foldl_tokens wellFormed, close_read wellFormed]

/-- A sequence of tokens is that of at most one type. -/
theorem Parses.unique {tokens : List Token} {a b : Tree} (first : Parses tokens a)
    (second : Parses tokens b) : a = b := by
  obtain ⟨written, wellFormed, rfl, rfl⟩ := first
  obtain ⟨written', wellFormed', same, rfl⟩ := second
  rw [← readTree_tokens wellFormed, ← readTree_tokens wellFormed', same]

end Unambiguous

/-! ## Tokens of a type -/

section Tokens

variable {written : Written}

/-- The tokens of a union, with a `|` before each member, are those with a `|` in front. -/
theorem tokens_union_cons {leading : Bool} {members : List Written} (some : members ≠ []) :
    Separated.following .pipe (members.map tokens) =
      (if leading then [] else [.pipe]) ++ (Written.union leading members).tokens := by
  rw [tokens_union, Separated.following_eq_join (by simpa using some)]
  cases leading <;> rfl

theorem count_following {members : List Written}
    (balanced : ∀ member ∈ members,
      member.tokens.count .openingParen = member.tokens.count .closingParen) :
    (Separated.following .pipe (members.map tokens)).count .openingParen =
      (Separated.following .pipe (members.map tokens)).count .closingParen := by
  induction members with
  | nil => rfl
  | cons member members ih =>
      rw [List.forall_mem_cons] at balanced
      simp [List.count_append, balanced.1, ih balanced.2]

/-- Parentheses are balanced. -/
theorem count_parens (wellFormed : WellFormed written) :
    written.tokens.count .openingParen = written.tokens.count .closingParen := by
  induction wellFormed with
  | undefined => rfl
  | operand text => rfl
  | loose text => rfl
  | paren inner ih =>
      simp [tokens, List.count_append, ih]
  | @union leading members some several _ _ ih =>
      have following := count_following ih
      rw [@tokens_union_cons leading members some, List.count_append, List.count_append]
        at following
      cases leading <;> simpa using following

/-- What may stand next to each other: a `|` neither by a `|` nor by a loose type. -/
def MayTouch (a b : Token) : Prop :=
  (a = .pipe → b ≠ .pipe ∧ ∀ text, b ≠ .loose text) ∧ (∀ text, a = .loose text → b ≠ .pipe)

/-- A token at the border of an operand. -/
def Borders (token : Token) : Prop := token ≠ .pipe ∧ ∀ text, token ≠ .loose text

theorem MayTouch.of_borders {a b : Token} (borders : Borders a) : MayTouch a b :=
  ⟨fun pipe => absurd pipe borders.1, fun text loose => absurd loose (borders.2 text)⟩

theorem borders_of_isOperand (isOperand : written.isOperand) :
    (∀ token ∈ written.tokens.head?, Borders token) ∧
      ∀ token ∈ written.tokens.getLast?, Borders token := by
  cases written with
  | loose => cases isOperand
  | union => cases isOperand
  | undefined => simp [tokens, Borders]
  | operand text => simp [tokens, Borders]
  | paren inner =>
      rw [tokens, List.getLast?_concat]
      simp [Borders]

theorem tokens_ne_nil (isOperand : written.isOperand) : written.tokens ≠ [] := by
  cases written with
  | loose => cases isOperand
  | union => cases isOperand
  | _ => simp [tokens]

theorem isChain_following {members : List Written}
    (isOperand : ∀ member ∈ members, member.isOperand)
    (chains : ∀ member ∈ members, member.tokens.IsChain MayTouch) :
    (Separated.following .pipe (members.map tokens)).IsChain MayTouch := by
  induction members with
  | nil => exact .nil
  | cons member members ih =>
      rw [List.forall_mem_cons] at isOperand chains
      obtain ⟨head, last⟩ := borders_of_isOperand isOperand.1
      rw [List.map_cons, Separated.following_cons]
      refine List.IsChain.append (chains.1.cons ?_) (ih isOperand.2 chains.2) ?_
      · intro token first
        exact ⟨fun _ => head token first, by simp⟩
      · intro token isLast _ _
        rw [List.getLast?_cons_of_ne_nil (tokens_ne_nil isOperand.1)] at isLast
        exact .of_borders (last token isLast)

/-- In a type, a `|` touches no `|` and no loose type. -/
theorem isChain_tokens (wellFormed : WellFormed written) :
    written.tokens.IsChain MayTouch := by
  induction wellFormed with
  | undefined => exact .singleton _
  | operand text => exact .singleton _
  | loose text => exact .singleton _
  | paren inner ih =>
      rw [tokens, List.cons_append]
      refine List.IsChain.cons (ih.append (.singleton _) ?_) ?_
      · intro a _ b closing
        rw [List.head?_cons, Option.mem_some_iff] at closing
        subst closing
        exact ⟨by simp, by simp⟩
      · intro token _
        exact .of_borders (by simp [Borders])
  | @union leading members some several isOperand _ ih =>
      have following := isChain_following isOperand ih
      rw [@tokens_union_cons leading members some] at following
      exact following.right_of_append

end Tokens

/-! ## Contexts -/

/-- What is directly around a type. -/
inductive Frame
  | paren
  | union (leading : Bool) (left right : List Written)

def Frame.plug : Frame → Written → Written
  | paren, written => .paren written
  | union leading left right, written => .union leading (left ++ written :: right)

/-- The type with its surroundings, the innermost of which come first. -/
def plug (frames : List Frame) (written : Written) : Written :=
  frames.foldl (fun written frame => frame.plug written) written

/-- The tokens before the place of a type. -/
def front : List Frame → List Token
  | [] => []
  | .paren :: frames => front frames ++ [.openingParen]
  | .union leading left _ :: frames =>
    front frames ++ (if leading then [.pipe] else []) ++
      Separated.leading .pipe (left.map tokens)

/-- The tokens behind the place of a type. -/
def back : List Frame → List Token
  | [] => []
  | .paren :: frames => .closingParen :: back frames
  | .union _ _ right :: frames => Separated.following .pipe (right.map tokens) ++ back frames

/-- The syntax tree around a place. Parentheses are no nodes. -/
def plugTree : List Frame → Tree → Tree
  | [], tree => tree
  | .paren :: frames, tree => plugTree frames tree
  | .union _ left right :: frames, tree =>
    plugTree frames (.union (left.map Written.tree ++ tree :: right.map Written.tree))

section Contexts

variable {frames : List Frame} {written other : Written}

theorem plug_cons (frame : Frame) : plug (frame :: frames) written =
    plug frames (frame.plug written) := rfl

theorem tokens_plug : (plug frames written).tokens =
    front frames ++ written.tokens ++ back frames := by
  induction frames generalizing written with
  | nil => simp [plug, front, back]
  | cons frame frames ih =>
      rw [plug_cons, ih]
      cases frame with
      | paren => simp [Frame.plug, tokens, front, back]
      | union leading left right =>
          simp [Frame.plug, tokens_union, Separated.join_append_cons, front, back]

theorem tree_plug : (plug frames written).tree = plugTree frames written.tree := by
  induction frames generalizing written with
  | nil => rfl
  | cons frame frames ih =>
      rw [plug_cons, ih]
      cases frame with
      | paren => rfl
      | union leading left right =>
          rw [Frame.plug, tree_union, plugTree, List.map_append, List.map_cons]

theorem plugTree_injective {a b : Tree} (same : plugTree frames a = plugTree frames b) :
    a = b := by
  induction frames generalizing a b with
  | nil => exact same
  | cons frame frames ih =>
      cases frame with
      | paren => exact ih same
      | union leading left right =>
          have inner := Tree.union.inj (ih same)
          rw [List.append_cancel_left_eq] at inner
          exact (List.cons.inj inner).1

theorem WellFormed.inner (wellFormed : WellFormed (plug frames written)) :
    WellFormed written := by
  induction frames generalizing written with
  | nil => exact wellFormed
  | cons frame frames ih =>
      have around := ih wellFormed
      cases frame with
      | paren => cases around with | paren inner => exact inner
      | union leading left right =>
          cases around with
          | union _ _ _ all => exact all written (by simp)

/-- A type can be put where another one was, unless it is looser. -/
theorem WellFormed.replace (wellFormed : WellFormed (plug frames written))
    (inner : WellFormed other) (isOperand : written.isOperand → other.isOperand) :
    WellFormed (plug frames other) := by
  induction frames generalizing written other with
  | nil => exact inner
  | cons frame frames ih =>
      refine @ih (frame.plug written) (frame.plug other) wellFormed ?_ ?_
      · have around := @WellFormed.inner frames (frame.plug written) wellFormed
        cases frame with
        | paren => exact .paren inner
        | union leading left right =>
            cases around with
            | union _ several operands all =>
                rw [List.forall_mem_append, List.forall_mem_cons] at operands all
                refine .union (by simp) (by simpa using several) ?_ ?_
                · rw [List.forall_mem_append, List.forall_mem_cons]
                  exact ⟨operands.1, isOperand operands.2.1, operands.2.2⟩
                · rw [List.forall_mem_append, List.forall_mem_cons]
                  exact ⟨all.1, inner, all.2.2⟩
      · cases frame <;> exact id

end Contexts

end SonarJS.UnionTypes
