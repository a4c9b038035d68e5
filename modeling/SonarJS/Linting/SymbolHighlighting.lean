import Mathlib.Data.List.Forall2
import Mathlib.Tactic.Common
import SonarJS.Foundation.OrderedCollections
import SonarJS.Linting.SyntaxTree

/-!
# Highlighting of symbols

The symbol highlighting of a file has an entry for each variable, whose first occurrence is taken
for its declaration, and one for each pair of braces and each pair of tags, which are found with
two stacks. Occurrences are ordered by their lines only. A tag is taken from the stack by an end
tag or the end of a self-closing tag, so that the tags of void elements stay there.
-/

namespace SonarJS.SymbolHighlighting

open SyntaxTree (Position SourceLocation)

inductive TokenType
  | Punctuator
  | HTMLTagOpen
  | HTMLSelfClosingTagClose
  | HTMLEndTagOpen
  | other
deriving DecidableEq

structure Token where
  type : TokenType
  value : String
  loc : SourceLocation
deriving DecidableEq

/-- A node that is the name of a variable, with the place where its type annotation begins. -/
structure Identifier where
  id : ℕ
  loc : Option SourceLocation
  annotationStart : Option Position
deriving DecidableEq

/-- The names in the definitions of a variable and the references to it. -/
structure Variable where
  defs : List Identifier
  references : List Identifier

structure Location where
  startLine : ℕ
  startCol : ℕ
  endLine : ℕ
  endCol : ℕ
deriving DecidableEq

structure SymbolHighlight where
  declaration : Location
  references : List Location
deriving DecidableEq

def convertLocation (loc : SourceLocation) : Location where
  startLine := loc.start.line
  startCol := loc.start.column
  endLine := loc.stop.line
  endCol := loc.stop.column

theorem convertLocation_injective {a b : SourceLocation}
    (same : convertLocation a = convertLocation b) : a = b := by
  obtain ⟨⟨_, _⟩, ⟨_, _⟩⟩ := a
  obtain ⟨⟨_, _⟩, ⟨_, _⟩⟩ := b
  simp only [convertLocation, Location.mk.injEq] at same
  obtain ⟨rfl, rfl, rfl, rfl⟩ := same
  rfl

/-! ## Variables -/

/-- An identifier with its location. -/
abbrev Occurrence := Identifier × SourceLocation

def identifierLocation (occurrence : Occurrence) : Location :=
  convertLocation
    ⟨occurrence.2.start, occurrence.1.annotationStart.getD occurrence.2.stop⟩

/-- The definitions and references, each identifier once. -/
def occurrences (v : Variable) : List Occurrence :=
  (OrderedSet.ofList (v.defs ++ v.references)).elems.filterMap
    fun identifier => identifier.loc.map fun loc => (identifier, loc)

def allRef (v : Variable) : List Occurrence :=
  (occurrences v).mergeSort fun a b => a.2.start.line ≤ b.2.start.line

def highlightVariable (v : Variable) : Option SymbolHighlight :=
  match allRef v with
  | [] => none
  | first :: rest => some ⟨identifierLocation first, rest.map identifierLocation⟩

/-! ## Braces and tags -/

/-- The stacks, with the last token in front, and the entries so far. -/
structure State where
  openCurlyBracesStack : List Token
  openHtmlTagsStack : List Token
  result : List SymbolHighlight
deriving DecidableEq

def pairHighlight (pair : Token × Token) : SymbolHighlight :=
  ⟨convertLocation pair.1.loc, [convertLocation pair.2.loc]⟩

/-- There is no result where a closing brace finds no opening one. -/
def visitToken (state : State) (token : Token) : Option State :=
  match token.type with
  | .Punctuator =>
    if token.value = "\x7b" then
      some { state with openCurlyBracesStack := token :: state.openCurlyBracesStack }
    else if token.value = "\x7d" then
      match state.openCurlyBracesStack with
      | [] => none
      | opening :: outer =>
        some { state with
          openCurlyBracesStack := outer
          result := state.result ++ [pairHighlight (opening, token)] }
    else some state
  | .HTMLTagOpen => some { state with openHtmlTagsStack := token :: state.openHtmlTagsStack }
  | .HTMLSelfClosingTagClose =>
    some { state with openHtmlTagsStack := state.openHtmlTagsStack.tail }
  | .HTMLEndTagOpen =>
    match state.openHtmlTagsStack with
    | [] => some state
    | openHtmlTag :: outer =>
      some { state with
        openHtmlTagsStack := outer
        result := state.result ++ [pairHighlight (openHtmlTag, token)] }
  | .other => some state

/-- `Program:exit`. -/
def programExit (allVariables : List Variable) (tokens : List Token) :
    Option (List SymbolHighlight) :=
  (tokens.foldlM visitToken ⟨[], [], allVariables.filterMap highlightVariable⟩).map State.result

/-! ## Files -/

abbrev OpeningBrace := { token : Token // token.type = .Punctuator ∧ token.value = "\x7b" }

abbrev ClosingBrace := { token : Token // token.type = .Punctuator ∧ token.value = "\x7d" }

abbrev OpenTag := { token : Token // token.type = .HTMLTagOpen }

abbrev SelfClosingTagClose := { token : Token // token.type = .HTMLSelfClosingTagClose }

abbrev EndTag := { token : Token // token.type = .HTMLEndTagOpen }

abbrev PlainToken := { token : Token //
  token.type = .other ∨ token.type = .Punctuator ∧ token.value ≠ "\x7b" ∧ token.value ≠ "\x7d" }

/-- Tokens without tags, as the blocks of a script or an expression nest. -/
inductive Code
  | nil
  | plain (token : PlainToken) (next : Code)
  | block (opening : OpeningBrace) (content : Code) (closing : ClosingBrace) (next : Code)

namespace Code

def tokens : Code → List Token
  | .nil => []
  | .plain token next => token.val :: next.tokens
  | .block opening content closing next =>
    opening.val :: content.tokens ++ closing.val :: next.tokens

/-- Each closing brace with the brace that opens its block. -/
def pairs : Code → List (Token × Token)
  | .nil => []
  | .plain _ next => next.pairs
  | .block opening content closing next =>
    content.pairs ++ (opening.val, closing.val) :: next.pairs

end Code

/-- A template: elements with end tags, self-closing tags and void elements. The end of a start tag
is a plain token. -/
inductive Template
  | nil
  | code (inner : Code) (next : Template)
  | element (opening : OpenTag) (attributes : Code) (content : Template) (endTag : EndTag)
    (next : Template)
  | selfClosing (opening : OpenTag) (attributes : Code) (slash : SelfClosingTagClose)
    (next : Template)
  | void (opening : OpenTag) (attributes : Code) (next : Template)

namespace Template

def tokens : Template → List Token
  | .nil => []
  | .code inner next => inner.tokens ++ next.tokens
  | .element opening attributes content endTag next =>
    opening.val :: attributes.tokens ++ content.tokens ++ endTag.val :: next.tokens
  | .selfClosing opening attributes slash next =>
    opening.val :: attributes.tokens ++ slash.val :: next.tokens
  | .void opening attributes next => opening.val :: attributes.tokens ++ next.tokens

/-- Each closing brace with the brace of its block, and each end tag with the tag of its element. -/
@[grind =] def pairs : Template → List (Token × Token)
  | .nil => []
  | .code inner next => inner.pairs ++ next.pairs
  | .element opening attributes content endTag next =>
    attributes.pairs ++ content.pairs ++ (opening.val, endTag.val) :: next.pairs
  | .selfClosing _ attributes _ next => attributes.pairs ++ next.pairs
  | .void _ attributes next => attributes.pairs ++ next.pairs

/-- There are no void elements. -/
def NoVoid : Template → Prop
  | .nil => True
  | .code _ next => next.NoVoid
  | .element _ _ content _ next => content.NoVoid ∧ next.NoVoid
  | .selfClosing _ _ _ next => next.NoVoid
  | .void _ _ _ => False

/-- There are no void elements inside of other elements. -/
def VoidOutside : Template → Prop
  | .nil => True
  | .code _ next => next.VoidOutside
  | .element _ _ content _ next => content.NoVoid ∧ next.VoidOutside
  | .selfClosing _ _ _ next => next.VoidOutside
  | .void _ _ next => next.VoidOutside

end Template

/-- A file with its variables, the tokens of its script and those of its template. -/
structure SourceFile where
  allVariables : List Variable
  script : Code
  template : Option Template
  distinct : ∀ t ∈ template, (t.tokens.map Token.loc).Nodup

namespace SourceFile

variable (file : SourceFile)

/-- `extractTokensAndComments`. -/
def tokens : List Token := file.script.tokens ++ file.template.elim [] Template.tokens

def pairs : List (Token × Token) := file.script.pairs ++ file.template.elim [] Template.pairs

end SourceFile

/-! ## Pairs of a template -/

namespace Code

/-- Braces are paired as they nest, whatever is on the stacks. -/
theorem foldlM_visitToken (code : Code) (braces tags : List Token)
    (result : List SymbolHighlight) :
    code.tokens.foldlM visitToken ⟨braces, tags, result⟩ =
      some ⟨braces, tags, result ++ code.pairs.map pairHighlight⟩ := by
  induction code generalizing braces result with
  | nil => simp [tokens, pairs]
  | plain token next ih =>
      obtain ⟨token, plain⟩ := token
      have step : visitToken ⟨braces, tags, result⟩ token = some ⟨braces, tags, result⟩ := by
        obtain type | ⟨type, notOpening, notClosing⟩ := plain
        · simp [visitToken, type]
        · simp [visitToken, type, notOpening, notClosing]
      simp only [tokens, pairs, List.foldlM_cons, step, Option.bind_eq_bind, Option.bind_some]
      exact ih _ _
  | block opening content closing next contentIh nextIh =>
      obtain ⟨opening, openingType, openingValue⟩ := opening
      obtain ⟨closing, closingType, closingValue⟩ := closing
      have push : visitToken ⟨braces, tags, result⟩ opening =
          some ⟨opening :: braces, tags, result⟩ := by
        simp [visitToken, openingType, openingValue]
      have pop (result : List SymbolHighlight) :
          visitToken ⟨opening :: braces, tags, result⟩ closing =
            some ⟨braces, tags, result ++ [pairHighlight (opening, closing)]⟩ := by
        simp [visitToken, closingType, closingValue]
      simp only [tokens, pairs, List.cons_append, List.foldlM_cons, List.foldlM_append, push,
        contentIh, pop, nextIh, Option.bind_eq_bind, Option.bind_some]
      simp

end Code

namespace Template

/-- The tags that are left on the stack. -/
def leftover : Template → List Token
  | .nil => []
  | .code _ next => next.leftover
  | .element opening _ content _ next => next.leftover ++ (content.leftover ++ [opening.val]).tail
  | .selfClosing _ _ _ next => next.leftover
  | .void opening _ next => next.leftover ++ [opening.val]

/-- The pairs that are made: an end tag takes what is on top. -/
@[grind =] def madePairs : Template → List (Token × Token)
  | .nil => []
  | .code inner next => inner.pairs ++ next.madePairs
  | .element opening attributes content endTag next =>
    attributes.pairs ++ content.madePairs ++
      (content.leftover.headD opening, endTag.val) :: next.madePairs
  | .selfClosing _ attributes _ next => attributes.pairs ++ next.madePairs
  | .void _ attributes next => attributes.pairs ++ next.madePairs

theorem foldlM_visitToken (template : Template) (braces tags : List Token)
    (result : List SymbolHighlight) :
    template.tokens.foldlM visitToken ⟨braces, tags, result⟩ =
      some ⟨braces, template.leftover ++ tags,
        result ++ template.madePairs.map pairHighlight⟩ := by
  induction template generalizing tags result with
  | nil => simp [tokens, leftover, madePairs]
  | code inner next ih =>
      simp only [tokens, List.foldlM_append, Code.foldlM_visitToken, ih, Option.bind_eq_bind,
        Option.bind_some, leftover, madePairs]
      simp
  | element opening attributes content endTag next contentIh nextIh =>
      obtain ⟨opening, openingType⟩ := opening
      obtain ⟨endTag, endType⟩ := endTag
      have push : visitToken ⟨braces, tags, result⟩ opening =
          some ⟨braces, opening :: tags, result⟩ := by
        simp [visitToken, openingType]
      have pop (result : List SymbolHighlight) :
          visitToken ⟨braces, content.leftover ++ opening :: tags, result⟩ endTag =
            some ⟨braces, (content.leftover ++ [opening]).tail ++ tags,
              result ++ [pairHighlight (content.leftover.headD opening, endTag)]⟩ := by
        cases content.leftover with
        | nil => simp [visitToken, endType]
        | cons top rest => simp [visitToken, endType]
      simp only [tokens, List.cons_append, List.foldlM_cons, List.foldlM_append, push,
        Code.foldlM_visitToken, contentIh, pop, nextIh, Option.bind_eq_bind, Option.bind_some,
        leftover, madePairs]
      simp
  | selfClosing opening attributes slash next ih =>
      obtain ⟨opening, openingType⟩ := opening
      obtain ⟨slash, slashType⟩ := slash
      have push : visitToken ⟨braces, tags, result⟩ opening =
          some ⟨braces, opening :: tags, result⟩ := by
        simp [visitToken, openingType]
      have pop (result : List SymbolHighlight) :
          visitToken ⟨braces, opening :: tags, result⟩ slash = some ⟨braces, tags, result⟩ := by
        simp [visitToken, slashType]
      simp only [tokens, List.cons_append, List.foldlM_cons, List.foldlM_append, push,
        Code.foldlM_visitToken, pop, ih, Option.bind_eq_bind, Option.bind_some, leftover,
        madePairs]
      simp
  | void opening attributes next ih =>
      obtain ⟨opening, openingType⟩ := opening
      have push : visitToken ⟨braces, tags, result⟩ opening =
          some ⟨braces, opening :: tags, result⟩ := by
        simp [visitToken, openingType]
      simp only [tokens, List.cons_append, List.foldlM_cons, List.foldlM_append, push,
        Code.foldlM_visitToken, ih, Option.bind_eq_bind, Option.bind_some, leftover, madePairs]
      simp

theorem leftover_eq_nil_iff {template : Template} : template.leftover = [] ↔ template.NoVoid := by
  induction template with
  | nil => simp [leftover, NoVoid]
  | code inner next ih => simpa [leftover, NoVoid] using ih
  | element opening attributes content endTag next contentIh nextIh =>
      have : (content.leftover ++ [opening.val]).tail = [] ↔ content.leftover = [] := by
        cases content.leftover <;> simp
      simp only [leftover, NoVoid, List.append_eq_nil_iff, this, contentIh, nextIh, and_comm]
  | selfClosing opening attributes slash next ih => simpa [leftover, NoVoid] using ih
  | void opening attributes next ih => simp [leftover, NoVoid]

theorem mem_leftover {template : Template} {token : Token} (left : token ∈ template.leftover) :
    token ∈ template.tokens := by
  induction template with
  | nil => cases left
  | code inner next ih => exact List.mem_append_right _ (ih left)
  | element opening attributes content endTag next contentIh nextIh =>
      simp only [tokens, List.cons_append, List.mem_cons, List.mem_append]
      obtain left | left := List.mem_append.mp left
      · exact Or.inr (Or.inr (Or.inr (nextIh left)))
      · obtain left | left := List.mem_append.mp (List.mem_of_mem_tail left)
        · exact Or.inr (Or.inl (Or.inr (contentIh left)))
        · exact Or.inl (List.mem_singleton.mp left)
  | selfClosing opening attributes slash next ih =>
      simp only [tokens, List.cons_append, List.mem_cons, List.mem_append]
      exact Or.inr (Or.inr (Or.inr (ih left)))
  | void opening attributes next ih =>
      simp only [tokens, List.cons_append, List.mem_cons, List.mem_append]
      obtain left | left := List.mem_append.mp left
      · exact Or.inr (Or.inr (ih left))
      · exact Or.inl (List.mem_singleton.mp left)

theorem length_madePairs (template : Template) :
    template.madePairs.length = template.pairs.length := by
  induction template with
  | nil => rfl
  | code inner next ih => simp [madePairs, pairs, ih]
  | element opening attributes content endTag next contentIh nextIh =>
      simp [madePairs, pairs, contentIh, nextIh]
  | selfClosing opening attributes slash next ih => simp [madePairs, pairs, ih]
  | void opening attributes next ih => simp [madePairs, pairs, ih]

theorem NoVoid.voidOutside {template : Template} (noVoid : template.NoVoid) :
    template.VoidOutside := by
  induction template with
  | nil => trivial
  | code inner next ih => exact ih noVoid
  | element opening attributes content endTag next contentIh nextIh =>
      exact ⟨noVoid.1, nextIh noVoid.2⟩
  | selfClosing opening attributes slash next ih => exact ih noVoid
  | void opening attributes next ih => exact noVoid.elim

/-- The end tag of an element takes its own tag if no void element has been left before it. -/
theorem pairHighlight_headD_iff {opening endTag : Token} {content : Template}
    (apart : ∀ token ∈ content.tokens, token.loc ≠ opening.loc) :
    pairHighlight (content.leftover.headD opening, endTag) = pairHighlight (opening, endTag) ↔
      content.NoVoid := by
  rw [← leftover_eq_nil_iff]
  cases left : content.leftover with
  | nil => simp
  | cons top rest =>
      have other := apart top (mem_leftover (left ▸ List.mem_cons_self))
      simp only [List.headD_cons, reduceCtorEq, iff_false]
      intro same
      exact other (convertLocation_injective (congrArg SymbolHighlight.declaration same))

/-- The pairs are right exactly if no element has a void element in it. -/
theorem madePairs_eq_iff {template : Template} (distinct : (template.tokens.map Token.loc).Nodup) :
    template.madePairs.map pairHighlight = template.pairs.map pairHighlight ↔
      template.VoidOutside := by
  induction template with
  | nil => simp [madePairs, pairs, VoidOutside]
  | code inner next ih =>
      rw [tokens, List.map_append, List.nodup_append] at distinct
      simp only [madePairs, pairs, List.map_append, List.append_cancel_left_eq]
      exact ih distinct.2.1
  | element opening attributes content endTag next contentIh nextIh =>
      simp only [tokens, List.cons_append, List.append_assoc, List.map_cons, List.map_append,
        List.nodup_cons, List.nodup_append, List.mem_append, not_or] at distinct
      obtain ⟨⟨-, apart, -⟩, -, ⟨inContent, ⟨-, inNext⟩, -⟩, -⟩ := distinct
      have apart : ∀ token ∈ content.tokens, token.loc ≠ opening.val.loc :=
        fun token member same => apart (same ▸ List.mem_map_of_mem member)
      simp only [madePairs, pairs, List.map_append, List.map_cons, List.append_assoc,
        List.append_cancel_left_eq, VoidOutside]
      rw [← nextIh inNext, ← pairHighlight_headD_iff apart]
      constructor
      · intro same
        have lengths : (content.madePairs.map pairHighlight).length =
            (content.pairs.map pairHighlight).length := by
          simp [length_madePairs]
        obtain ⟨-, same⟩ := List.append_inj same lengths
        exact List.cons.inj same
      · rintro ⟨here, rest⟩
        have noVoid := (pairHighlight_headD_iff apart).mp here
        rw [(contentIh inContent).mpr noVoid.voidOutside, here, rest]
  | selfClosing opening attributes slash next ih =>
      simp only [tokens, List.cons_append, List.map_cons, List.map_append, List.nodup_cons,
        List.nodup_append] at distinct
      simp only [madePairs, pairs, List.map_append, List.append_cancel_left_eq]
      exact ih distinct.2.2.1.2
  | void opening attributes next ih =>
      simp only [tokens, List.cons_append, List.map_cons, List.map_append, List.nodup_cons,
        List.nodup_append] at distinct
      simp only [madePairs, pairs, List.map_append, List.append_cancel_left_eq]
      exact ih distinct.2.2.1

end Template

/-! ## Declarations -/

/-- The first one of those on the earliest line, in the order of the list. -/
def FirstListed (l : List Occurrence) (first : Occurrence) : Prop :=
  ∃ before after, l = before ++ first :: after ∧
    (∀ other ∈ before, first.2.start.line < other.2.start.line) ∧
    ∀ other ∈ after, first.2.start.line ≤ other.2.start.line

section Declaration

variable {l : List Occurrence} {first : Occurrence}

/-- The order of the sort, which is stable. -/
def byLine (a b : Occurrence) : Bool := a.2.start.line ≤ b.2.start.line

theorem byLine_trans (a b c : Occurrence) : byLine a b → byLine b c → byLine a c := by
  simp only [byLine, decide_eq_true_eq]
  omega

theorem byLine_total (a b : Occurrence) : byLine a b || byLine b a := by
  simp only [byLine, Bool.or_eq_true, decide_eq_true_eq]
  omega

theorem firstListed_of_head? (head : (l.mergeSort byLine).head? = some first) :
    FirstListed l first := by
  induction l generalizing first with
  | nil => simp at head
  | cons a l ih =>
      obtain ⟨smaller, others, sorted, rest, less⟩ :=
        List.mergeSort_cons byLine_trans byLine_total a l
      cases smaller with
      | nil =>
          rw [sorted] at head
          cases head
          refine ⟨[], l, rfl, by simp, fun other member => ?_⟩
          have ordered := List.pairwise_mergeSort byLine_trans byLine_total (a :: l)
          rw [sorted] at ordered
          have member : other ∈ others := by
            have : other ∈ l.mergeSort byLine := List.mem_mergeSort.mpr member
            rwa [rest] at this
          have := List.rel_of_pairwise_cons ordered member
          simpa [byLine] using this
      | cons b smaller =>
          rw [sorted] at head
          cases head
          obtain ⟨before, after, rfl, earlier, later⟩ := ih (by rw [rest]; rfl)
          refine ⟨a :: before, after, rfl, fun other member => ?_, later⟩
          obtain rfl | member := List.mem_cons.mp member
          · have := less first List.mem_cons_self
            simpa [byLine] using this
          · exact earlier other member

theorem FirstListed.unique {first' : Occurrence} (listed : FirstListed l first)
    (listed' : FirstListed l first') : first = first' := by
  obtain ⟨before, after, rfl, earlier, later⟩ := listed
  obtain ⟨before', after', same, earlier', later'⟩ := listed'
  obtain ⟨between, rfl, rest⟩ | ⟨between, rfl, rest⟩ := List.append_eq_append_iff.mp same
  · cases between with
    | nil => exact (List.cons.inj rest).1
    | cons a between =>
        obtain ⟨rfl, rfl⟩ := List.cons.inj rest
        have := earlier' first (by simp)
        have := later first' (by simp)
        omega
  · cases between with
    | nil => exact (List.cons.inj rest).1.symm
    | cons a between =>
        obtain ⟨rfl, rfl⟩ := List.cons.inj rest
        have := earlier first' (by simp)
        have := later' first (by simp)
        omega

/-- The occurrence begins before all others. -/
def IsEarliest (l : List Occurrence) (first : Occurrence) : Prop :=
  first ∈ l ∧ ∀ other ∈ l, ¬other.2.start.Before first.2.start

theorem FirstListed.isEarliest_iff (listed : FirstListed l first) :
    IsEarliest l first ↔
      ∀ other ∈ l, other.2.start.line = first.2.start.line →
        first.2.start.column ≤ other.2.start.column := by
  obtain ⟨before, after, rfl, earlier, later⟩ := listed
  have notEarlier : ∀ other ∈ before ++ first :: after,
      first.2.start.line ≤ other.2.start.line := by
    intro other member
    obtain member | member := List.mem_append.mp member
    · exact (earlier other member).le
    · obtain rfl | member := List.mem_cons.mp member
      · exact le_rfl
      · exact later other member
  simp only [IsEarliest, SyntaxTree.Position.Before]
  constructor
  · rintro ⟨-, notBefore⟩ other member same
    have := notBefore other member
    omega
  · intro columns
    refine ⟨by simp, fun other member => ?_⟩
    have := notEarlier other member
    have := columns other member
    omega

end Declaration

/-- The declaration of a variable is the earliest of its occurrences. -/
def DeclaresEarliest (v : Variable) (highlight : SymbolHighlight) : Prop :=
  ∃ first, IsEarliest (occurrences v) first ∧ highlight.declaration = identifierLocation first

/-- The occurrence that is listed first on the earliest line is the first one on that line. -/
def ListsEarliest (v : Variable) : Prop :=
  ∀ first, FirstListed (occurrences v) first → ∀ other ∈ occurrences v,
    other.2.start.line = first.2.start.line → first.2.start.column ≤ other.2.start.column

theorem declaresEarliest_iff {v : Variable} {highlight : SymbolHighlight}
    (found : highlightVariable v = some highlight) :
    DeclaresEarliest v highlight ↔ ListsEarliest v := by
  unfold highlightVariable at found
  split at found
  · cases found
  · next first rest sorted =>
    cases found
    have listed : FirstListed (occurrences v) first :=
      firstListed_of_head? ((congrArg List.head? sorted).trans rfl)
    constructor
    · rintro ⟨earliest, ⟨member, notBefore⟩, same⟩ first' listed'
      obtain rfl := listed.unique listed'
      refine listed.isEarliest_iff.1 ⟨?_, fun other member => ?_⟩
      · obtain ⟨before, after, split, -⟩ := listed
        rw [split]
        simp
      · have start := convertLocation_injective same
        rw [SourceLocation.mk.injEq] at start
        rw [start.1]
        exact notBefore other member
    · intro lists
      exact ⟨first, listed.isEarliest_iff.2 (lists first listed), rfl⟩

/-! ## The result -/

/-- A variable with an identifier that has a location. -/
def hasOccurrence (v : Variable) : Bool := (occurrences v).length ≠ 0

theorem isSome_highlightVariable (v : Variable) :
    (highlightVariable v).isSome = hasOccurrence v := by
  have length : (allRef v).length = (occurrences v).length := List.length_mergeSort _
  unfold highlightVariable hasOccurrence
  rw [← length]
  cases allRef v with
  | nil => simp
  | cons first rest => simp

/-- The entries for the variables, with the earliest occurrence as declaration, and behind them the
pairs of braces and tags as they nest. -/
def IsRight (file : SourceFile) : Prop :=
  ∃ symbols, programExit file.allVariables file.tokens =
      some (symbols ++ file.pairs.map pairHighlight) ∧
    List.Forall₂ DeclaresEarliest (file.allVariables.filter hasOccurrence) symbols

theorem forall₂_highlightVariable (allVariables : List Variable) :
    List.Forall₂ DeclaresEarliest (allVariables.filter hasOccurrence)
        (allVariables.filterMap highlightVariable) ↔
      ∀ v ∈ allVariables, ListsEarliest v := by
  induction allVariables with
  | nil => simp
  | cons v rest ih =>
      have occurs := isSome_highlightVariable v
      rw [List.forall_mem_cons]
      cases found : highlightVariable v with
      | none =>
          have none : occurrences v = [] := by simpa [found, hasOccurrence] using occurs.symm
          have lists : ListsEarliest v := fun first _ other member => by simp [none] at member
          rw [List.filter_cons_of_neg (by simp [← occurs, found]), List.filterMap_cons_none found,
            ih]
          simp [lists]
      | some highlight =>
          rw [List.filter_cons_of_pos (by simp [← occurs, found]), List.filterMap_cons_some found,
            List.forall₂_cons, ih, declaresEarliest_iff found]

theorem programExit_eq (file : SourceFile) :
    programExit file.allVariables file.tokens =
      some (file.allVariables.filterMap highlightVariable ++
        (file.script.pairs ++ file.template.elim [] Template.madePairs).map pairHighlight) := by
  have script := file.script.foldlM_visitToken [] []
    (file.allVariables.filterMap highlightVariable)
  rw [programExit, SourceFile.tokens, List.foldlM_append, script]
  cases file.template with
  | none => simp
  | some template => simp [Template.foldlM_visitToken]

/-- The highlighting is right exactly if no element of the template has a void element in it and
no declaration comes behind another occurrence on its line. -/
theorem programExit_right_iff (file : SourceFile) :
    IsRight file ↔
      (∀ v ∈ file.allVariables, ListsEarliest v) ∧ ∀ t ∈ file.template, t.VoidOutside := by
  have paired : (∀ t ∈ file.template, t.VoidOutside) ↔
      (file.script.pairs ++ file.template.elim [] Template.madePairs).map pairHighlight =
        file.pairs.map pairHighlight := by
    rw [SourceFile.pairs, List.map_append, List.map_append, List.append_cancel_left_eq]
    cases body : file.template with
    | none => simp
    | some t => simpa using (Template.madePairs_eq_iff (file.distinct t body)).symm
  rw [IsRight, programExit_eq, ← forall₂_highlightVariable, paired]
  constructor
  · rintro ⟨symbols, result, declared⟩
    have pairs : (file.script.pairs ++ file.template.elim [] Template.madePairs).length =
        file.pairs.length := by
      rw [SourceFile.pairs, List.length_append, List.length_append]
      cases file.template with
      | none => rfl
      | some t => exact congrArg _ t.length_madePairs
    obtain ⟨rfl, same⟩ := List.append_inj' (Option.some.inj result) (by simpa using pairs)
    exact ⟨declared, same⟩
  · rintro ⟨declared, same⟩
    exact ⟨_, by rw [same], declared⟩

/-! ## A line break in a paragraph -/

def locatedAt (column : ℕ) : SourceLocation := ⟨⟨1, column⟩, ⟨1, column + 1⟩⟩

/-- The template `<p><br></p>`. -/
def paragraph : SourceFile where
  allVariables := []
  script := .nil
  template := some (.element ⟨⟨.HTMLTagOpen, "p", locatedAt 0⟩, rfl⟩
    (.plain ⟨⟨.other, "", locatedAt 2⟩, Or.inl rfl⟩ .nil)
    (.void ⟨⟨.HTMLTagOpen, "br", locatedAt 3⟩, rfl⟩
      (.plain ⟨⟨.other, "", locatedAt 6⟩, Or.inl rfl⟩ .nil) .nil)
    ⟨⟨.HTMLEndTagOpen, "p", locatedAt 7⟩, rfl⟩
    (.code (.plain ⟨⟨.other, "", locatedAt 10⟩, Or.inl rfl⟩ .nil) .nil))
  distinct := by decide

/-- The end tag is paired with the tag of the line break. -/
theorem not_right_paragraph : ¬IsRight paragraph := by
  rintro ⟨symbols, result, declared⟩
  cases declared
  revert result
  decide

end SonarJS.SymbolHighlighting
