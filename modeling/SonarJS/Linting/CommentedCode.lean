import Mathlib.Data.List.SplitBy
import Mathlib.Order.Nat

/-!
# Groups of comments

`no-commented-code` looks at each block comment for itself and at line comments on successive
lines together. What it suggests to remove is the range from the first comment of a group to
the last one. The group is kept open while block comments go by, so that one of them can end
up in this range.
-/

namespace SonarJS.CommentedCode

inductive ElementType
  | token
  | block
  | line
deriving DecidableEq, Repr

/-- A token or a comment of the source text, with its first and its last line. -/
structure Element where
  type : ElementType
  value : String
  range : ℕ × ℕ
  startLine : ℕ
  endLine : ℕ
deriving DecidableEq, Repr

/-- An element ends before another one. A line comment is the last one of its line. -/
structure Element.Before (a b : Element) : Prop where
  range : a.range.2 ≤ b.range.1
  lines : a.endLine ≤ b.startLine
  endsLine : a.type = .line → a.endLine < b.startLine

instance : DecidableRel Element.Before := fun a b =>
  decidable_of_iff (a.range.2 ≤ b.range.1 ∧ a.endLine ≤ b.startLine ∧
    (a.type = .line → a.endLine < b.startLine))
    ⟨fun h => ⟨h.1, h.2.1, h.2.2⟩, fun h => ⟨h.range, h.lines, h.endsLine⟩⟩

/-- The tokens and comments of a text, in their order. -/
structure SourceText where
  elements : List Element
  inOrder : elements.Pairwise Element.Before
  nonempty : ∀ e ∈ elements, e.range.1 < e.range.2
  lines : ∀ e ∈ elements, e.startLine ≤ e.endLine
  oneLine : ∀ e ∈ elements, e.type = .line → e.startLine = e.endLine

structure GroupComment where
  value : String
  nodes : List Element
deriving DecidableEq, Repr

namespace SourceText

variable (text : SourceText)

def getAllComments : List Element := text.elements.filter (·.type ≠ .token)

/-- The next token, comments left out. -/
def getTokenAfter (previous : Element) : Option Element :=
  text.elements.find? fun e => e.type = .token ∧ previous.range.2 ≤ e.range.1

def areAdjacentLineComments (previous next : Element) : Bool :=
  let nextCommentLine := next.startLine
  if previous.startLine + 1 = nextCommentLine then
    match text.getTokenAfter previous with
    | none => true
    | some nextCodeToken => nextCodeToken.startLine > nextCommentLine
  else false

def lineGroup (currentGroup : List Element) : GroupComment :=
  ⟨"\n".intercalate (currentGroup.map Element.value), currentGroup⟩

/-- The loop of `getGroupedComments`, with what it does after the last comment. -/
@[grind =] def groupComments (currentGroup : List Element) : List Element → List GroupComment
  | [] => if currentGroup.length > 0 then [lineGroup currentGroup] else []
  | comment :: comments =>
    if comment.type = .block then
      ⟨comment.value, [comment]⟩ :: groupComments currentGroup comments
    else if currentGroup.getLast?.all (text.areAdjacentLineComments · comment) then
      groupComments (currentGroup ++ [comment]) comments
    else lineGroup currentGroup :: groupComments [comment] comments

def getGroupedComments : List GroupComment := text.groupComments [] text.getAllComments

end SourceText

/-- The range that the suggestion removes. -/
def GroupComment.removedRange (group : GroupComment) : Option (ℕ × ℕ) := do
  let start ← group.nodes.head?
  let last ← group.nodes.getLast?
  return (start.range.1, last.range.2)

theorem mem_removedRange {group : GroupComment} {range : ℕ × ℕ} :
    range ∈ group.removedRange ↔ ∃ first ∈ group.nodes.head?, ∃ last ∈ group.nodes.getLast?,
      (first.range.1, last.range.2) = range := by
  simp [GroupComment.removedRange, Option.bind_eq_some_iff]

/-! ## The groups -/

section Groups

variable {text : SourceText} {current comments : List Element} {group : GroupComment}

namespace SourceText

theorem groupComments_block {comment : Element} (isBlock : comment.type = .block) :
    text.groupComments current (comment :: comments) =
      ⟨comment.value, [comment]⟩ :: text.groupComments current comments :=
  if_pos isBlock

theorem groupComments_adjacent {comment : Element} (isLine : comment.type ≠ .block)
    (adjacent : current.getLast?.all (text.areAdjacentLineComments · comment) = true) :
    text.groupComments current (comment :: comments) =
      text.groupComments (current ++ [comment]) comments := by
  rw [groupComments, if_neg isLine, if_pos adjacent]

theorem groupComments_apart {comment : Element} (isLine : comment.type ≠ .block)
    (apart : ¬ current.getLast?.all (text.areAdjacentLineComments · comment) = true) :
    text.groupComments current (comment :: comments) =
      lineGroup current :: text.groupComments [comment] comments := by
  rw [groupComments, if_neg isLine, if_neg apart]

/-- Each comment ends up in one group. -/
theorem groupComments_perm :
    ((text.groupComments current comments).flatMap GroupComment.nodes).Perm
      (current ++ comments) := by
  induction comments generalizing current with
  | nil =>
      cases current with
      | nil => exact .refl _
      | cons c current => simp [groupComments, lineGroup]
  | cons comment comments ih =>
      by_cases isBlock : comment.type = .block
      · rw [groupComments_block isBlock, List.flatMap_cons]
        exact (ih.cons comment).trans List.perm_middle.symm
      · by_cases adjacent :
            current.getLast?.all (text.areAdjacentLineComments · comment) = true
        · rw [groupComments_adjacent isBlock adjacent]
          exact List.append_cons current comment comments ▸ ih
        · rw [groupComments_apart isBlock adjacent, List.flatMap_cons]
          exact ih.append_left current

/-- The comments of a group are in their order. -/
theorem sublist_of_mem_groupComments (member : group ∈ text.groupComments current comments) :
    group.nodes.Sublist (current ++ comments) := by
  induction comments generalizing current with
  | nil =>
      rw [groupComments] at member
      split at member
      · obtain rfl := List.mem_singleton.mp member
        exact List.sublist_append_left current []
      · cases member
  | cons comment comments ih =>
      by_cases isBlock : comment.type = .block
      · rw [groupComments_block isBlock] at member
        obtain rfl | member := List.mem_cons.mp member
        · exact (List.singleton_sublist.mpr List.mem_cons_self).trans
            (List.sublist_append_right current _)
        · exact (ih member).trans ((List.sublist_cons_self comment comments).append_left current)
      · by_cases adjacent :
            current.getLast?.all (text.areAdjacentLineComments · comment) = true
        · rw [groupComments_adjacent isBlock adjacent] at member
          rw [List.append_cons]
          exact ih member
        · rw [groupComments_apart isBlock adjacent] at member
          obtain rfl | member := List.mem_cons.mp member
          · exact List.sublist_append_left current _
          · exact (ih member).trans (List.sublist_append_right current _)

/-- Line comments are split where they are not adjacent. -/
theorem mem_groupComments_iff
    (chain : current.IsChain fun c c' => text.areAdjacentLineComments c c' = true) :
    group ∈ text.groupComments current comments ↔
      (∃ b ∈ comments, b.type = .block ∧ group = ⟨b.value, [b]⟩) ∨
      ∃ run ∈ (current ++ comments.filter (·.type ≠ .block)).splitBy text.areAdjacentLineComments,
        group = lineGroup run := by
  induction comments generalizing current with
  | nil =>
      cases current with
      | nil => simp [groupComments]
      | cons c current =>
          rw [List.filter_nil, List.append_nil, List.splitBy_of_isChain (by simp) chain]
          simp [groupComments]
  | cons comment comments ih =>
      by_cases isBlock : comment.type = .block
      · rw [groupComments_block isBlock, List.mem_cons, ih chain,
          List.filter_cons_of_neg (by simpa), List.exists_mem_cons_iff, or_assoc,
          and_iff_right isBlock]
      · have blocks : (∃ b ∈ comment :: comments, b.type = .block ∧ group = ⟨b.value, [b]⟩) ↔
            ∃ b ∈ comments, b.type = .block ∧ group = ⟨b.value, [b]⟩ := by
          rw [List.exists_mem_cons_iff, or_iff_right fun wrong => isBlock wrong.1]
        rw [List.filter_cons_of_pos (by simpa), blocks]
        by_cases adjacent :
            current.getLast?.all (text.areAdjacentLineComments · comment) = true
        · have longer : (current ++ [comment]).IsChain
              fun c c' => text.areAdjacentLineComments c c' = true := by
            refine List.isChain_append.mpr ⟨chain, .singleton comment, ?_⟩
            intro last isLast c isHead
            obtain rfl := Option.some.inj isHead
            rw [Option.mem_def.mp isLast] at adjacent
            exact adjacent
          rw [groupComments_adjacent isBlock adjacent, ih longer, ← List.append_cons]
        · have someLast : current ≠ [] := by
            rintro rfl
            exact adjacent rfl
          have apart : ∀ last ∈ current.getLast?,
              text.areAdjacentLineComments last comment = false := by
            intro last isLast
            rw [Option.mem_def.mp isLast] at adjacent
            exact eq_false_of_ne_true adjacent
          rw [groupComments_apart isBlock adjacent, List.mem_cons, ih (.singleton comment),
            List.splitBy_append_cons _ apart, List.splitBy_of_isChain someLast chain,
            List.singleton_append, List.singleton_append, List.exists_mem_cons_iff]
          exact or_left_comm

end SourceText

end Groups

/-! ## Where the elements are -/

namespace SourceText

variable {text : SourceText} {a b c c' e : Element}

theorem eq_or_before (first : a ∈ text.elements) (second : b ∈ text.elements) :
    a = b ∨ a.Before b ∨ b.Before a := by
  by_cases same : a = b
  · exact .inl same
  · refine .inr ?_
    have either : text.elements.Pairwise fun a b => a.Before b ∨ b.Before a :=
      text.inOrder.imp .inl
    have : Std.Symm fun a b : Element => a.Before b ∨ b.Before a := ⟨fun _ _ => Or.symm⟩
    exact either.forall first second same

theorem before_of_range (first : a ∈ text.elements) (second : b ∈ text.elements)
    (range : a.range.2 ≤ b.range.1) : a.Before b := by
  have nonempty := text.nonempty a first
  have nonempty' := text.nonempty b second
  obtain rfl | before | after := eq_or_before first second
  · omega
  · exact before
  · have := after.range
    omega

/-- Nothing but a line comment itself is on its line from there on. -/
theorem startLine_lt_of_before (first : c ∈ text.elements) (isLine : c.type = .line)
    (before : c.Before e) : c.startLine < e.startLine :=
  (text.oneLine c first isLine).trans_lt (before.endsLine isLine)

theorem startLine_le_of_before (first : a ∈ text.elements) (before : a.Before b) :
    a.startLine ≤ b.startLine :=
  (text.lines a first).trans before.lines

/-- The next token is the first one behind an element. -/
theorem getTokenAfter_eq_some {t : Element} (previous : c ∈ text.elements)
    (next : text.getTokenAfter c = some t) :
    t ∈ text.elements ∧ t.type = .token ∧ c.Before t ∧
      ∀ t' ∈ text.elements, t'.type = .token → c.Before t' → t.startLine ≤ t'.startLine := by
  obtain ⟨isNext, before, after, split, earlier⟩ := List.find?_eq_some_iff_append.mp next
  obtain ⟨isToken, range⟩ := of_decide_eq_true isNext
  have member : t ∈ text.elements := List.mem_of_find?_eq_some next
  refine ⟨member, isToken, before_of_range previous member range, ?_⟩
  intro t' member' isToken' later
  rw [split] at member'
  obtain skipped | rfl | behind := (List.mem_append.trans (or_congr_right List.mem_cons)).mp member'
  · have noNext := earlier t' skipped
    simp [isToken', later.range] at noNext
  · exact le_rfl
  · have inOrder := split ▸ text.inOrder
    exact startLine_le_of_before member
      ((List.pairwise_cons.mp (List.pairwise_append.mp inOrder).2.1).1 t' behind)

theorem areAdjacentLineComments_iff (first : c ∈ text.elements) (second : c' ∈ text.elements)
    (isLine' : c'.type = .line) :
    text.areAdjacentLineComments c c' = true ↔
      c.startLine + 1 = c'.startLine ∧
        ∀ t ∈ text.elements, t.type = .token → c.Before t → ¬ t.Before c' := by
  by_cases nextLine : c.startLine + 1 = c'.startLine
  · rw [and_iff_right nextLine]
    simp only [areAdjacentLineComments, nextLine, if_true]
    cases next : text.getTokenAfter c with
    | none =>
        refine iff_of_true rfl fun t member isToken later => ?_
        have noNext := List.find?_eq_none.mp next t member
        simp [isToken, later.range] at noNext
    | some t =>
        obtain ⟨member, isToken, later, isFirst⟩ := getTokenAfter_eq_some first next
        refine decide_eq_true_iff.trans ⟨?_, ?_⟩
        · intro below t' member' isToken' later' before
          have line := isFirst t' member' isToken' later'
          have line' := startLine_le_of_before member' before
          omega
        · intro noToken
          obtain rfl | before | after := eq_or_before member second
          · cases isToken.symm.trans isLine'
          · exact absurd before (noToken t member isToken later)
          · exact startLine_lt_of_before second isLine' after
  · refine iff_of_false ?_ fun wrong => nextLine wrong.1
    simp only [areAdjacentLineComments, nextLine, if_false]
    exact Bool.false_ne_true

/-- Nothing but block comments stands between two line comments on successive lines without a
token in between. -/
theorem isBlock_of_between (first : c ∈ text.elements) (second : c' ∈ text.elements)
    (isLine : c.type = .line) (adjacent : text.areAdjacentLineComments c c' = true)
    (isLine' : c'.type = .line) (member : e ∈ text.elements) (after : c.Before e)
    (before : e.Before c') : e.type = .block := by
  obtain ⟨nextLine, noToken⟩ := (areAdjacentLineComments_iff first second isLine').mp adjacent
  cases isType : e.type with
  | token => exact absurd before (noToken e member isType after)
  | block => rfl
  | line =>
      have line := startLine_lt_of_before first isLine after
      have line' := startLine_lt_of_before member isType before
      omega

end SourceText

/-- No other element is in the range that is removed. -/
def Safe (text : SourceText) (group : GroupComment) : Prop :=
  ∀ range ∈ group.removedRange, ∀ e ∈ text.elements, e ∉ group.nodes →
    e.range.2 ≤ range.1 ∨ range.2 ≤ e.range.1

/-- Where two line comments are on successive lines, a block comment is between them only if
a token is there as well. -/
def Undisturbed (text : SourceText) : Prop :=
  ∀ c ∈ text.elements, ∀ c' ∈ text.elements, c.type = .line → c'.type = .line →
    c.startLine + 1 = c'.startLine → ∀ b ∈ text.elements, b.type = .block →
      c.Before b → b.Before c' → ∃ t ∈ text.elements, t.type = .token ∧ c.Before t ∧ t.Before c'

/-- An element is outside of a list in order, or between two of its elements that follow on
each other. -/
theorem outside_or_between {first e : Element} {rest : List Element}
    (order : ∀ c ∈ first :: rest, c.Before e ∨ e.Before c) :
    e.Before first ∨ (∀ last ∈ (first :: rest).getLast?, last.Before e) ∨
      ∃ before c c' after,
        first :: rest = before ++ c :: c' :: after ∧ c.Before e ∧ e.Before c' := by
  induction rest generalizing first with
  | nil =>
      obtain after | before := order first List.mem_cons_self
      · exact .inr (.inl fun last isLast => Option.some.inj isLast ▸ after)
      · exact .inl before
  | cons second rest ih =>
      obtain ⟨here, others⟩ := List.forall_mem_cons.mp order
      obtain after | before := here
      · obtain before | behind | ⟨between, c, c', rest', split, inside⟩ := ih others
        · exact .inr (.inr ⟨[], first, second, rest, rfl, after, before⟩)
        · exact .inr (.inl (by simpa using behind))
        · exact .inr (.inr ⟨first :: between, c, c', rest', congrArg _ split, inside⟩)
      · exact .inl before

/-- Related elements that follow on each other are not split. -/
theorem exists_mem_of_flatten {α : Type} {r : α → α → Bool} {runs : List (List α)}
    (boundaries : runs.IsChain fun l l' => ∃ h h', r (l.getLast h) (l'.head h') = false)
    (noNil : [] ∉ runs) {before after : List α} {a b : α}
    (split : runs.flatten = before ++ a :: b :: after) (related : r a b = true) :
    ∃ run ∈ runs, a ∈ run ∧ b ∈ run := by
  induction runs generalizing before with
  | nil => simp at split
  | cons run runs ih =>
      have others : [] ∉ runs := fun member => noNil (List.mem_cons_of_mem run member)
      have later {before' : List α} (split : runs.flatten = before' ++ a :: b :: after) :
          ∃ run' ∈ run :: runs, a ∈ run' ∧ b ∈ run' := by
        obtain ⟨run', member, found⟩ := ih boundaries.tail others split
        exact ⟨run', List.mem_cons_of_mem run member, found⟩
      rw [List.flatten_cons] at split
      obtain ⟨before', -, rest⟩ | ⟨own, rfl, rest⟩ := List.append_eq_append_iff.mp split
      · exact later rest
      · cases own with
        | nil =>
            have all : runs.flatten = [] ++ a :: b :: after := rest.symm
            exact later all
        | cons last own =>
            obtain ⟨rfl, rest'⟩ := List.cons.inj rest
            cases own with
            | cons second own =>
                obtain ⟨rfl, -⟩ := List.cons.inj rest'
                exact ⟨_, List.mem_cons_self, by simp, by simp⟩
            | nil =>
                -- the border between two runs
                cases runs with
                | nil => cases rest'
                | cons next runs =>
                    obtain ⟨_, nonempty, apart⟩ := (List.isChain_cons_cons.mp boundaries).1
                    obtain ⟨head, next, rfl⟩ := List.exists_cons_of_ne_nil nonempty
                    obtain rfl : b = head := (List.cons.inj rest').1
                    simp [related] at apart

/-! ## The groups are safe -/

section Safe

variable {text : SourceText} {group : GroupComment}

/-- A group is one block comment or a run of line comments. -/
theorem mem_getGroupedComments_iff :
    group ∈ text.getGroupedComments ↔
      (∃ b ∈ text.elements, b.type = .block ∧ group = ⟨b.value, [b]⟩) ∨
      ∃ run ∈ (text.elements.filter (·.type = .line)).splitBy text.areAdjacentLineComments,
        group = SourceText.lineGroup run := by
  have lines : text.getAllComments.filter (·.type ≠ .block) =
      text.elements.filter (·.type = .line) := by
    rw [SourceText.getAllComments, List.filter_filter]
    refine List.filter_congr fun e _ => ?_
    cases e.type <;> rfl
  rw [SourceText.getGroupedComments, SourceText.mem_groupComments_iff .nil, List.nil_append, lines]
  refine or_congr_left (exists_congr fun b => ?_)
  rw [SourceText.getAllComments, List.mem_filter, and_assoc]
  refine and_congr_right fun _ => and_iff_right_of_imp ?_
  rintro ⟨isBlock, -⟩
  rw [isBlock]
  rfl

/-- The elements of a run are line comments of the text. -/
theorem mem_of_mem_run {run : List Element} {c : Element}
    (member : run ∈ (text.elements.filter (·.type = .line)).splitBy text.areAdjacentLineComments)
    (inside : c ∈ run) : c ∈ text.elements ∧ c.type = .line := by
  have line : c ∈ text.elements.filter (·.type = .line) := by
    rw [← List.flatten_splitBy text.areAdjacentLineComments (text.elements.filter (·.type = .line))]
    exact List.mem_flatten.mpr ⟨run, member, inside⟩
  obtain ⟨isElement, isLine⟩ := List.mem_filter.mp line
  exact ⟨isElement, of_decide_eq_true isLine⟩

theorem safe_of_block {b : Element} (isElement : b ∈ text.elements) :
    Safe text ⟨b.value, [b]⟩ := by
  intro range removed e member other
  obtain rfl : (b.range.1, b.range.2) = range := Option.some.inj removed
  obtain rfl | before | after := SourceText.eq_or_before member isElement
  · exact absurd (List.mem_singleton_self e) other
  · exact .inl before.range
  · exact .inr after.range

theorem safe_of_run (undisturbed : Undisturbed text) {run : List Element}
    (member : run ∈ (text.elements.filter (·.type = .line)).splitBy text.areAdjacentLineComments) :
    Safe text (SourceText.lineGroup run) := by
  intro range removed e isElement other
  have order : ∀ c ∈ run, c.Before e ∨ e.Before c := by
    intro c inside
    have different : c ≠ e := fun same => other (same ▸ inside)
    have either := SourceText.eq_or_before (mem_of_mem_run member inside).1 isElement
    exact either.resolve_left different
  cases run with
  | nil => exact absurd member (List.nil_notMem_splitBy _ _)
  | cons first rest =>
      obtain ⟨_, isFirst, last, isLast, rfl⟩ := mem_removedRange.1 removed
      obtain rfl := Option.some.inj isFirst
      obtain before | behind | ⟨before, c, c', after, split, later, earlier⟩ :=
        outside_or_between order
      · exact .inl before.range
      · exact .inr (behind last isLast).range
      · -- a block comment, but no token, stands between two comments of the run
        have adjacent : text.areAdjacentLineComments c c' = true := by
          have chain := List.isChain_of_mem_splitBy member
          rw [split] at chain
          exact (List.isChain_append_cons_cons.mp chain).2.1
        have inside : c ∈ first :: rest := by simp [split]
        have inside' : c' ∈ first :: rest := by simp [split]
        obtain ⟨isComment, isLine⟩ := mem_of_mem_run member inside
        obtain ⟨isComment', isLine'⟩ := mem_of_mem_run member inside'
        have isBlock := SourceText.isBlock_of_between isComment isComment' isLine adjacent isLine'
          isElement later earlier
        obtain ⟨nextLine, noToken⟩ :=
          (SourceText.areAdjacentLineComments_iff isComment isComment' isLine').mp adjacent
        obtain ⟨t, isElement', isToken, later', earlier'⟩ := undisturbed c isComment c' isComment'
          isLine isLine' nextLine e isElement isBlock later earlier
        exact absurd earlier' (noToken t isElement' isToken later')

theorem safe_of_undisturbed (undisturbed : Undisturbed text)
    (member : group ∈ text.getGroupedComments) : Safe text group := by
  obtain ⟨b, isElement, -, rfl⟩ | ⟨run, isRun, rfl⟩ := mem_getGroupedComments_iff.1 member
  · exact safe_of_block isElement
  · exact safe_of_run undisturbed isRun

/-- Line comments on successive lines are next to each other among the line comments. -/
theorem successive {c c' : Element} (first : c ∈ text.elements) (second : c' ∈ text.elements)
    (isLine : c.type = .line) (isLine' : c'.type = .line)
    (nextLine : c.startLine + 1 = c'.startLine) :
    ∃ before after, text.elements.filter (·.type = .line) = before ++ c :: c' :: after := by
  have mem {e : Element} (member : e ∈ text.elements) (isLine : e.type = .line) :
      e ∈ text.elements.filter (·.type = .line) :=
    List.mem_filter.mpr ⟨member, decide_eq_true isLine⟩
  obtain ⟨before, rest, split⟩ := List.append_of_mem (mem first isLine)
  have inOrder : (text.elements.filter (·.type = .line)).Pairwise Element.Before :=
    text.inOrder.sublist List.filter_sublist
  rw [split, List.pairwise_append, List.pairwise_cons] at inOrder
  obtain ⟨-, ⟨behind, inOrder⟩, across⟩ := inOrder
  have member := mem second isLine'
  rw [split] at member
  obtain before' | rfl | member := (List.mem_append.trans (or_congr_right List.mem_cons)).mp member
  · have line := SourceText.startLine_le_of_before second (across c' before' c List.mem_cons_self)
    omega
  · omega
  · obtain ⟨between, after, rfl⟩ := List.append_of_mem member
    cases between with
    | nil => exact ⟨before, after, split⟩
    | cons d between =>
        -- a line comment in between would be on a line of its own
        have isD : d ∈ text.elements.filter (·.type = .line) := by simp [split]
        obtain ⟨isElement, isLineD⟩ := List.mem_filter.mp isD
        have later := SourceText.startLine_lt_of_before first isLine
          (behind d List.mem_cons_self)
        have earlier := SourceText.startLine_lt_of_before isElement (of_decide_eq_true isLineD)
          ((List.pairwise_cons.mp inOrder).1 c' (by simp))
        omega

/-- The comments of a group are in the range that is removed. -/
theorem exists_removedRange (isGroup : group ∈ text.getGroupedComments) {c c' : Element}
    (inside : c ∈ group.nodes) (inside' : c' ∈ group.nodes) :
    ∃ range ∈ group.removedRange, range.1 ≤ c.range.1 ∧ c'.range.2 ≤ range.2 := by
  have sublist : group.nodes.Sublist text.elements :=
    (SourceText.sublist_of_mem_groupComments isGroup).trans List.filter_sublist
  have inOrder := text.inOrder.sublist sublist
  obtain ⟨first, rest, split⟩ := List.exists_cons_of_ne_nil (List.ne_nil_of_mem inside)
  obtain ⟨init, last, split'⟩ := List.eq_nil_or_concat group.nodes |>.resolve_left
    (List.ne_nil_of_mem inside)
  refine ⟨(first.range.1, last.range.2), mem_removedRange.2 ⟨first, ?_, last, ?_, rfl⟩, ?_, ?_⟩
  · rw [split]
    rfl
  · rw [split']
    simp
  · have order := split ▸ inOrder
    have nonempty := text.nonempty first (sublist.subset (split ▸ List.mem_cons_self))
    obtain rfl | member := List.mem_cons.mp (split ▸ inside)
    · exact le_rfl
    · have range := ((List.pairwise_cons.mp order).1 c member).range
      exact nonempty.le.trans range
  · have order := inOrder
    rw [split', List.concat_eq_append] at order
    have isLast : last ∈ group.nodes := by simp [split']
    have nonempty := text.nonempty last (sublist.subset isLast)
    rw [split', List.concat_eq_append, List.mem_append] at inside'
    obtain member | member := inside'
    · have range := ((List.pairwise_append.mp order).2.2 c' member last
        (List.mem_singleton_self last)).range
      exact range.trans nonempty.le
    · rw [List.mem_singleton.mp member]

theorem undisturbed_of_safe (safe : ∀ group ∈ text.getGroupedComments, Safe text group) :
    Undisturbed text := by
  intro c first c' second isLine isLine' nextLine b isElement isBlock later earlier
  by_contra noToken
  have adjacent : text.areAdjacentLineComments c c' = true := by
    refine (SourceText.areAdjacentLineComments_iff first second isLine').mpr ⟨nextLine, ?_⟩
    exact fun t member isToken later earlier => noToken ⟨t, member, isToken, later, earlier⟩
  obtain ⟨before, after, split⟩ := successive first second isLine isLine' nextLine
  rw [← List.flatten_splitBy text.areAdjacentLineComments
    (text.elements.filter (·.type = .line))] at split
  obtain ⟨run, member, inside, inside'⟩ := exists_mem_of_flatten
    (List.isChain_getLast_head_splitBy _ _) (List.nil_notMem_splitBy _ _) split adjacent
  have isGroup : SourceText.lineGroup run ∈ text.getGroupedComments :=
    mem_getGroupedComments_iff.2 (.inr ⟨run, member, rfl⟩)
  have other : b ∉ run := by
    intro wrong
    cases isBlock.symm.trans (mem_of_mem_run member wrong).2
  obtain ⟨range, removed, starts, ends⟩ := exists_removedRange isGroup inside inside'
  have nonempty := text.nonempty b isElement
  have nonempty' := text.nonempty c first
  have nonempty'' := text.nonempty c' second
  have later := later.range
  have earlier := earlier.range
  obtain outside | outside := safe _ isGroup range removed b isElement other
  · omega
  · omega

/-- The comments are always divided among the groups. What is removed with a group belongs to
it exactly if no block comment stands alone between line comments on successive lines. -/
theorem getGroupedComments_safe_iff (text : SourceText) :
    (((text.getGroupedComments.flatMap GroupComment.nodes).Perm text.getAllComments ∧
        ∀ group ∈ text.getGroupedComments, group.nodes.Sublist text.getAllComments) ∧
      ∀ group ∈ text.getGroupedComments, Safe text group) ↔ Undisturbed text := by
  have partition : (text.getGroupedComments.flatMap GroupComment.nodes).Perm text.getAllComments ∧
      ∀ group ∈ text.getGroupedComments, group.nodes.Sublist text.getAllComments :=
    ⟨SourceText.groupComments_perm, fun _ => SourceText.sublist_of_mem_groupComments⟩
  rw [and_iff_right partition]
  exact ⟨undisturbed_of_safe, fun undisturbed _ => safe_of_undisturbed undisturbed⟩

end Safe

/-! ## A block comment in front of a line comment -/

/-- `// a`, and in the next line a block comment, followed by `// c`. -/
def blockInFront : SourceText where
  elements := [⟨.line, " a", (0, 4), 1, 1⟩, ⟨.block, " b ", (5, 12), 2, 2⟩,
    ⟨.line, " c", (13, 17), 2, 2⟩]
  inOrder := by decide
  nonempty := by decide
  lines := by decide
  oneLine := by decide

/-- The block comment is removed with the group of the line comments. -/
theorem not_safe_blockInFront :
    ¬ ∀ group ∈ blockInFront.getGroupedComments, Safe blockInFront group := by
  intro safe
  obtain ⟨t, member, isToken, -⟩ := undisturbed_of_safe safe
    ⟨.line, " a", (0, 4), 1, 1⟩ (by decide) ⟨.line, " c", (13, 17), 2, 2⟩ (by decide) rfl rfl rfl
    ⟨.block, " b ", (5, 12), 2, 2⟩ (by decide) rfl (by decide) (by decide)
  have noToken : ∀ e ∈ blockInFront.elements, e.type ≠ .token := by decide
  exact noToken t member isToken

end SonarJS.CommentedCode
