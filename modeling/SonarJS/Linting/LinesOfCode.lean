import SonarJS.Foundation.Lines
import SonarJS.Foundation.Numbers
import SonarJS.Foundation.OrderedCollections

/-!
# Lines of code

The lines of code are those of the tokens. In Vue files, tokens of the template come in addition,
which are there for the whole file: raw text is the text of scripts, whose tokens are known
already, or of styles, whose comments are to be left out. Styles and their comments are found with
two flags, and a comment only by the tokens that are its delimiters and nothing else.

What a character is, which of them are white space and where lines break are parameters.
-/

namespace SonarJS.LinesOfCode

/-- The kinds of tokens that matter. -/
inductive TokenType
  | HTMLTagOpen
  | HTMLEndTagOpen
  | HTMLWhitespace
  | HTMLRawText
  | other
deriving DecidableEq

structure Token where
  type : TokenType
  value : String
  range : ℕ × ℕ
deriving DecidableEq

/-! ## Tokens of the template -/

structure Flags where
  withinStyle : Bool
  withinComment : Bool
deriving DecidableEq

def enterStyle (token : Token) (withinStyle : Bool) : Bool :=
  if token.type = .HTMLTagOpen ∧ token.value = "style" then true
  else if token.type = .HTMLEndTagOpen ∧ token.value = "style" then false
  else withinStyle

/-- The flags behind a token, and whether it is taken. -/
def visitToken (flags : Flags) (token : Token) : Flags × Bool :=
  let withinStyle := enterStyle token flags.withinStyle
  let withinComment := flags.withinComment
  if token.type = .HTMLWhitespace then (⟨withinStyle, withinComment⟩, false)
  else if token.type = .HTMLRawText ∧ ¬withinStyle then (⟨withinStyle, withinComment⟩, false)
  else if withinStyle ∧ ¬withinComment ∧ token.value = "/*" then (⟨withinStyle, true⟩, false)
  else if withinStyle ∧ withinComment then (⟨withinStyle, token.value ≠ "*/"⟩, false)
  else (⟨withinStyle, withinComment⟩, true)

def takeTokens (flags : Flags) : List Token → List Token
  | [] => []
  | token :: tokens =>
    let visited := visitToken flags token
    if visited.2 then token :: takeTokens visited.1 tokens else takeTokens visited.1 tokens

def extractVuejsTokens (tokens : List Token) : List Token := takeTokens ⟨false, false⟩ tokens

/-! ## Lines -/

def addLines (startLine endLine : ℕ) (lines : OrderedSet ℕ) : OrderedSet ℕ :=
  (List.range' startLine (endLine + 1 - startLine)).foldl OrderedSet.add lines

/-- A file: its text, the comments in it, its tokens and those of the template. -/
structure SourceCode (α : Type) where
  text : List α
  comments : List (ℕ × ℕ)
  tokens : List Token
  templateBody : Option (List Token)

section Text

variable {α : Type} [DecidableEq α] (breaks : Lines.Breaks α) (isSpace : α → Bool)
  (source : SourceCode α)

/-- The line of a position. -/
def lineAt (index : ℕ) : ℕ := Lines.line (Lines.starts breaks.pattern source.text) index

/-- The tokens whose lines are added. -/
def allTokens : List Token :=
  source.tokens ++ source.templateBody.elim [] extractVuejsTokens

def findNcloc : List ℕ :=
  let lines := (allTokens source).foldl
    (fun lines token =>
      addLines (lineAt breaks source token.range.1) (lineAt breaks source token.range.2) lines)
    OrderedSet.empty
  lines.elems.mergeSort

/-- The character at this position is neither white space nor part of a comment. -/
def IsCode (index : ℕ) : Prop :=
  (∃ c ∈ source.text[index]?, isSpace c = false) ∧
    ∀ comment ∈ source.comments, ¬(comment.1 ≤ index ∧ index < comment.2)

instance : DecidablePred (IsCode isSpace source) := fun index =>
  inferInstanceAs (Decidable ((∃ c ∈ source.text[index]?, isSpace c = false) ∧
    ∀ comment ∈ source.comments, ¬(comment.1 ≤ index ∧ index < comment.2)))

/-- The line has code. -/
def HasCode (line : ℕ) : Prop :=
  ∃ index, IsCode isSpace source index ∧ lineAt breaks source index = line

end Text

/-! ## Which tokens are taken -/

/-- It has been so since some earlier step, and nothing has ended it. -/
def Since (begins ends : ℕ → Prop) (n : ℕ) : Prop :=
  ∃ j < n, begins j ∧ ∀ k, j < k → k < n → ¬ends k

theorem not_since_zero {begins ends : ℕ → Prop} : ¬Since begins ends 0 := by
  rintro ⟨j, earlier, _⟩
  omega

theorem since_succ_iff {begins ends : ℕ → Prop} {n : ℕ} :
    Since begins ends (n + 1) ↔ begins n ∨ Since begins ends n ∧ ¬ends n := by
  constructor
  · rintro ⟨j, earlier, begun, lasting⟩
    by_cases now : j = n
    · exact Or.inl (now ▸ begun)
    · refine Or.inr ⟨⟨j, by omega, begun, fun k after before => ?_⟩, ?_⟩
      · exact lasting k after (by omega)
      · exact lasting n (by omega) (by omega)
  · rintro (now | ⟨⟨j, earlier, begun, lasting⟩, notNow⟩)
    · exact ⟨n, by omega, now, fun k after before => by omega⟩
    · refine ⟨j, by omega, begun, fun k after before => ?_⟩
      by_cases now : k = n
      · exact now ▸ notNow
      · exact lasting k after (by omega)

section Template

variable (tokens : List Token)

/-- There is a token of this kind at the index. -/
def IsAt (kind : Token → Prop) (i : ℕ) : Prop := ∃ token ∈ tokens[i]?, kind token

def OpensStyle (token : Token) : Prop := token.type = .HTMLTagOpen ∧ token.value = "style"

def ClosesStyle (token : Token) : Prop := token.type = .HTMLEndTagOpen ∧ token.value = "style"

/-- The token comes behind the opening of a style tag, or is this opening, and no style section
has ended since. -/
def InStyle (i : ℕ) : Prop :=
  Since (IsAt tokens OpensStyle) (IsAt tokens ClosesStyle) (i + 1)

/-- The token belongs to a style section and is a delimiter of comments and nothing else. -/
def Delimits (delimiter : String) (i : ℕ) : Prop :=
  IsAt tokens (fun token => token.type ≠ .HTMLWhitespace ∧ token.value = delimiter) i ∧
    InStyle tokens i

/-- The last delimiter in the style sections before the token is the opening of a comment. -/
def BehindOpening (i : ℕ) : Prop := Since (Delimits tokens "/*") (Delimits tokens "*/") i

/-- Tokens that count: neither white space, nor in a style section from one `/*` up to the next
`*/`, nor raw text elsewhere. -/
def Taken (token : Token) (i : ℕ) : Prop :=
  token.type ≠ .HTMLWhitespace ∧
    (InStyle tokens i → token.value ≠ "/*" ∧ ¬BehindOpening tokens i) ∧
    (¬InStyle tokens i → token.type ≠ .HTMLRawText)

/-- The flags before a token. -/
structure FlagsAt (flags : Flags) (i : ℕ) : Prop where
  style : flags.withinStyle = true ↔
    Since (IsAt tokens OpensStyle) (IsAt tokens ClosesStyle) i
  comment : flags.withinComment = true ↔ BehindOpening tokens i

variable {tokens}

theorem enterStyle_iff {token : Token} {i : ℕ} {withinStyle : Bool} (here : tokens[i]? = some token)
    (before : withinStyle = true ↔ Since (IsAt tokens OpensStyle) (IsAt tokens ClosesStyle) i) :
    enterStyle token withinStyle = true ↔ InStyle tokens i := by
  rw [InStyle, since_succ_iff, ← before]
  simp only [IsAt, here, Option.mem_def, Option.some.injEq, exists_eq_left']
  unfold enterStyle OpensStyle ClosesStyle
  grind

@[simp]
theorem visitToken_withinStyle (flags : Flags) (token : Token) :
    (visitToken flags token).1.withinStyle = enterStyle token flags.withinStyle := by
  simp only [visitToken]
  split_ifs <;> rfl

theorem flagsAt_visitToken {token : Token} {i : ℕ} {flags : Flags}
    (here : tokens[i]? = some token) (before : FlagsAt tokens flags i) :
    FlagsAt tokens (visitToken flags token).1 (i + 1) ∧
      ((visitToken flags token).2 = true ↔ Taken tokens token i) := by
  have style := enterStyle_iff here before.style
  have opens : Delimits tokens "/*" i ↔
      token.type ≠ .HTMLWhitespace ∧ token.value = "/*" ∧ InStyle tokens i := by
    simp [Delimits, IsAt, here, and_assoc]
  have closes : Delimits tokens "*/" i ↔
      token.type ≠ .HTMLWhitespace ∧ token.value = "*/" ∧ InStyle tokens i := by
    simp [Delimits, IsAt, here, and_assoc]
  have comment := before.comment
  have next : BehindOpening tokens (i + 1) ↔
      Delimits tokens "/*" i ∨ BehindOpening tokens i ∧ ¬Delimits tokens "*/" i := since_succ_iff
  rw [opens, closes] at next
  refine ⟨⟨(visitToken_withinStyle flags token).symm ▸ style, ?_⟩, ?_⟩
  · rw [next, visitToken]
    generalize enterStyle token flags.withinStyle = withinStyle at style
    grind
  · rw [Taken, visitToken]
    generalize enterStyle token flags.withinStyle = withinStyle at style
    grind

/-- From any token on, the tokens that count are taken. -/
theorem mem_takeTokens {flags : Flags} {i : ℕ} (before : FlagsAt tokens flags i) {token : Token} :
    token ∈ takeTokens flags (tokens.drop i) ↔
      ∃ j ≥ i, tokens[j]? = some token ∧ Taken tokens token j := by
  induction rest : tokens.drop i generalizing flags i with
  | nil =>
      have := List.drop_eq_nil_iff.mp rest
      simp only [takeTokens, List.not_mem_nil, false_iff]
      rintro ⟨j, later, here, -⟩
      have := (List.getElem?_eq_some_iff.mp here).1
      omega
  | cons first rest' ih =>
      have here : tokens[i]? = some first := by
        have := @List.getElem?_drop _ tokens i 0
        simpa [rest] using this.symm
      have later : tokens.drop (i + 1) = rest' := by
        rw [← List.drop_drop, rest]
        rfl
      obtain ⟨after, taken⟩ := flagsAt_visitToken here before
      have inRest := ih after later
      have split : (∃ j ≥ i, tokens[j]? = some token ∧ Taken tokens token j) ↔
          (first = token ∧ Taken tokens first i) ∨
            ∃ j ≥ i + 1, tokens[j]? = some token ∧ Taken tokens token j := by
        constructor
        · rintro ⟨j, notBefore, found, counts⟩
          by_cases now : j = i
          · subst now
            have same : first = token := Option.some.inj (here.symm.trans found)
            exact Or.inl ⟨same, same ▸ counts⟩
          · exact Or.inr ⟨j, by omega, found, counts⟩
        · rintro (⟨rfl, counts⟩ | ⟨j, notBefore, found, counts⟩)
          · exact ⟨i, le_rfl, here, counts⟩
          · exact ⟨j, by omega, found, counts⟩
      rw [split, ← inRest]
      by_cases counts : (visitToken flags first).2 = true
      · simp [takeTokens, counts, taken.mp counts, eq_comm]
      · simp [takeTokens, counts, mt taken.mpr counts]

theorem mem_extractVuejsTokens {token : Token} :
    token ∈ extractVuejsTokens tokens ↔
      ∃ i, tokens[i]? = some token ∧ Taken tokens token i := by
  have start : FlagsAt tokens ⟨false, false⟩ 0 :=
    ⟨by simp [not_since_zero], by simp [BehindOpening, not_since_zero]⟩
  rw [extractVuejsTokens]
  simpa using mem_takeTokens start

end Template

/-! ## The lines of the result -/

theorem mem_addLines {startLine endLine n : ℕ} {lines : OrderedSet ℕ} :
    n ∈ addLines startLine endLine lines ↔ n ∈ lines ∨ startLine ≤ n ∧ n ≤ endLine := by
  rw [addLines, OrderedSet.mem_foldl_add, List.mem_range'_1]
  refine or_congr_right ?_
  omega

section Text

variable {α : Type} [DecidableEq α] (breaks : Lines.Breaks α) (isSpace : α → Bool)
  (source : SourceCode α)

theorem lineAt_mono {i j : ℕ} (le : i ≤ j) : lineAt breaks source i ≤ lineAt breaks source j := by
  unfold lineAt Lines.line
  refine List.findIdx_le_findIdx fun s _ beyond => ?_
  rw [decide_eq_true_eq] at beyond ⊢
  omega

/-- The lines from the first to the last one of the token. -/
def Spans (token : Token) (n : ℕ) : Prop :=
  lineAt breaks source token.range.1 ≤ n ∧ n ≤ lineAt breaks source token.range.2

theorem mem_foldl_addLines {tokens : List Token} {lines : OrderedSet ℕ} {n : ℕ} :
    n ∈ tokens.foldl
        (fun lines token =>
          addLines (lineAt breaks source token.range.1) (lineAt breaks source token.range.2) lines)
        lines ↔
      n ∈ lines ∨ ∃ token ∈ tokens, Spans breaks source token n := by
  induction tokens generalizing lines with
  | nil => simp
  | cons token tokens ih =>
      rw [List.foldl_cons, ih, mem_addLines, List.exists_mem_cons_iff, or_assoc]
      rfl

theorem mem_findNcloc {n : ℕ} :
    n ∈ findNcloc breaks source ↔ ∃ token ∈ allTokens source, Spans breaks source token n := by
  rw [findNcloc, List.mem_mergeSort, ← OrderedSet.mem_def, mem_foldl_addLines]
  simp

theorem findNcloc_pairwise : (findNcloc breaks source).Pairwise (· < ·) := by
  unfold findNcloc
  generalize List.foldl _ _ _ = lines
  have sorted := @List.pairwise_mergeSort _ (fun a b : ℕ => decide (a ≤ b))
    (fun a b c => by simp only [decide_eq_true_eq]; omega)
    (fun a b => by simp only [Bool.or_eq_true, decide_eq_true_eq]; omega) lines.elems
  have nodup := (List.mergeSort_perm lines.elems (fun a b : ℕ => decide (a ≤ b))).nodup_iff.mpr
    lines.nodup
  refine (sorted.and nodup).imp fun both => ?_
  have := of_decide_eq_true both.1
  have := both.2
  omega

/-- A token of the script, or one of the template that counts. -/
def IsTaken (token : Token) : Prop :=
  token ∈ source.tokens ∨
    ∃ template ∈ source.templateBody, ∃ i, template[i]? = some token ∧ Taken template token i

omit [DecidableEq α] in
theorem mem_allTokens {token : Token} : token ∈ allTokens source ↔ IsTaken source token := by
  unfold allTokens IsTaken
  rw [List.mem_append]
  cases source.templateBody with
  | none => simp
  | some template => simp [mem_extractVuejsTokens]

/-- Each line of a token that is taken has code, and code in a token that is not taken is on a line
of one that is. -/
structure IsPlain : Prop where
  taken : ∀ token, IsTaken source token → ∀ n, Spans breaks source token n →
    HasCode breaks isSpace source n
  leftOut : ∀ template ∈ source.templateBody, ∀ i token, template[i]? = some token →
    ¬Taken template token i → ∀ index, token.range.1 ≤ index → index < token.range.2 →
      IsCode isSpace source index →
        ∃ other, IsTaken source other ∧ Spans breaks source other (lineAt breaks source index)

theorem findNcloc_exact_iff
    (covered : ∀ index, IsCode isSpace source index →
      ∃ token ∈ source.tokens ++ source.templateBody.getD [],
        token.range.1 ≤ index ∧ index < token.range.2) :
    ((findNcloc breaks source).Pairwise (· < ·) ∧
        ∀ n, n ∈ findNcloc breaks source ↔ HasCode breaks isSpace source n) ↔
      IsPlain breaks isSpace source := by
  simp only [findNcloc_pairwise, true_and, mem_findNcloc, mem_allTokens]
  constructor
  · intro exactly
    refine ⟨fun token taken n spans => (exactly n).mp ⟨token, taken, spans⟩, ?_⟩
    intro template _ i token _ _ index _ _ code
    exact (exactly _).mpr ⟨index, code, rfl⟩
  · rintro ⟨taken, leftOut⟩ n
    refine ⟨fun ⟨token, counts, spans⟩ => taken token counts n spans, ?_⟩
    rintro ⟨index, code, rfl⟩
    obtain ⟨token, member, first, last⟩ := covered index code
    have spans : Spans breaks source token (lineAt breaks source index) :=
      ⟨lineAt_mono breaks source first, lineAt_mono breaks source last.le⟩
    obtain script | template := List.mem_append.mp member
    · exact ⟨token, Or.inl script, spans⟩
    · cases body : source.templateBody with
      | none => simp [body] at template
      | some tokens =>
          rw [body, Option.getD_some] at template
          obtain ⟨i, here⟩ := List.mem_iff_getElem?.mp template
          by_cases counts : Taken tokens token i
          · exact ⟨token, Or.inr ⟨tokens, body, i, here, counts⟩, spans⟩
          · exact leftOut tokens body i token here counts index first last code

end Text

/-! ## A template literal -/

def feed : Lines.Breaks Char where
  cr := '\r'
  lf := '\n'
  isBreak := fun c => c = '\n' || c = '\r'
  cr_ne_lf := by decide
  isBreak_lf := by decide

/-- One token with line breaks in it. -/
def templateLiteral (text : String) : SourceCode Char where
  text := text.toList
  comments := []
  tokens := [⟨.other, text, (0, text.toList.length)⟩]
  templateBody := none

theorem templateLiteral_covered {text : String} {index : ℕ}
    (code : IsCode Numbers.isWhiteSpace (templateLiteral text) index) :
    ∃ token ∈ (templateLiteral text).tokens ++ (templateLiteral text).templateBody.getD [],
      token.range.1 ≤ index ∧ index < token.range.2 := by
  obtain ⟨⟨c, here, -⟩, -⟩ := code
  exact ⟨_, List.mem_singleton_self _, Nat.zero_le _, (List.getElem?_eq_some_iff.mp here).1⟩

theorem findNcloc_exact_of_oneLine :
    ((findNcloc feed (templateLiteral "`a b`")).Pairwise (· < ·) ∧
        ∀ n, n ∈ findNcloc feed (templateLiteral "`a b`") ↔
          HasCode feed Numbers.isWhiteSpace (templateLiteral "`a b`") n) ↔
      IsPlain feed Numbers.isWhiteSpace (templateLiteral "`a b`") :=
  findNcloc_exact_iff _ _ _ fun _ code => templateLiteral_covered code

/-- The blank line in a template literal is among the lines of code. -/
theorem findNcloc_blankLine :
    ¬((findNcloc feed (templateLiteral "`a\n\nb`")).Pairwise (· < ·) ∧
        ∀ n, n ∈ findNcloc feed (templateLiteral "`a\n\nb`") ↔
          HasCode feed Numbers.isWhiteSpace (templateLiteral "`a\n\nb`") n) := by
  rintro ⟨-, exactly⟩
  have counted : 2 ∈ findNcloc feed (templateLiteral "`a\n\nb`") :=
    (mem_findNcloc _ _).mpr ⟨_, List.mem_singleton_self _, by decide, by decide⟩
  obtain ⟨index, code, second⟩ := (exactly 2).mp counted
  obtain ⟨⟨c, here, -⟩, -⟩ := id code
  have bound : index < 6 := (List.getElem?_eq_some_iff.mp here).1
  have none : ∀ i < 6, IsCode Numbers.isWhiteSpace (templateLiteral "`a\n\nb`") i →
      lineAt feed (templateLiteral "`a\n\nb`") i ≠ 2 := by
    decide
  exact none index bound code second

end SonarJS.LinesOfCode
