import SonarJS.Foundation.Action
import SonarJS.Foundation.Lines

/-!
# Extracting JavaScript from HTML and YAML

A snippet of JavaScript is kept together with the host text it was found in, with its
place in there and with the line starts of the host text. The two parsers that find the
snippets are not part of the model: what they report is data, the tags of `htmlparser2`
with their indices, and the pairs that a visit of `yaml`'s documents comes to.

Each host language has its own idea of a line. `parseHTML` splits the text at CRLF, LF and
CR, and the line counter of `yaml` starts a line after each LF. ESLint, into which the
snippets go, knows U+2028 and U+2029 as well. Texts are sequences of UTF-16 code units,
without a byte order mark: it is stripped when a file is read.
-/

namespace SonarJS.Embedded

abbrev CodeUnit := UInt16

abbrev Text := List CodeUnit

def LF : CodeUnit := 0x0A
def CR : CodeUnit := 0x0D
def LS : CodeUnit := 0x2028
def PS : CodeUnit := 0x2029

/-- The slice of a text between two indices. -/
def slice (text : Text) (first last : ℕ) : Text := (text.take last).drop first

/-! ## Line breaks -/

/-- `lineEndingsRe` of `parseHTML`, a CRLF, a CR or an LF. -/
def htmlBreaks : Lines.Breaks CodeUnit where
  cr := CR
  lf := LF
  isBreak c := c = CR ∨ c = LF
  cr_ne_lf := by decide
  isBreak_lf := by decide

/-- The line breaks of `yaml.LineCounter`. -/
def yamlBreaks : Lines.Breaks CodeUnit where
  cr := CR
  lf := LF
  isBreak c := c = LF
  cr_ne_lf := by decide
  isBreak_lf := by decide

/-- `lineBreakPattern` of ESLint. -/
def eslintBreaks : Lines.Breaks CodeUnit where
  cr := CR
  lf := LF
  isBreak c := c = CR ∨ c = LF ∨ c = LS ∨ c = PS
  cr_ne_lf := by decide
  isBreak_lf := by decide

/-- The line breaks of a host language. -/
def HostBreaks (breaks : Lines.Breaks CodeUnit) : Prop :=
  breaks = htmlBreaks ∨ breaks = yamlBreaks

/-- The line breaks that ESLint knows and the host does not: U+2028 and U+2029, and in YAML
a CR that is not followed by an LF. -/
def UnknownBreak (breaks : Lines.Breaks CodeUnit) (text : Text) (i : ℕ) : Prop :=
  text[i]? = some LS ∨ text[i]? = some PS ∨
    breaks.isBreak CR = false ∧ text[i]? = some CR ∧ text[i + 1]? ≠ some LF

instance (breaks : Lines.Breaks CodeUnit) (text : Text) (i : ℕ) :
    Decidable (UnknownBreak breaks text i) :=
  inferInstanceAs (Decidable (_ ∨ _ ∨ _ ∧ _ ∧ _))

section HostBreaks

variable {breaks : Lines.Breaks CodeUnit} {text : Text} {i : ℕ}

theorem endsAt_eslintBreaks (host : HostBreaks breaks) (ends : breaks.EndsAt text i) :
    eslintBreaks.EndsAt text i := by
  obtain ⟨c, here, breaking, single⟩ := ends
  obtain rfl | rfl := host
  · refine ⟨c, here, ?_, single⟩
    simp only [htmlBreaks, eslintBreaks, decide_eq_true_eq] at breaking ⊢
    tauto
  · refine ⟨c, here, ?_, single⟩
    simp only [yamlBreaks, eslintBreaks, decide_eq_true_eq] at breaking ⊢
    tauto

theorem endsAt_yamlBreaks : yamlBreaks.EndsAt text i ↔ text[i]? = some LF := by
  constructor
  · rintro ⟨c, here, breaking, -⟩
    obtain rfl : c = LF := of_decide_eq_true breaking
    exact here
  · intro here
    exact ⟨LF, here, by decide, fun pair => absurd pair.1 (by decide)⟩

theorem unknownBreak_iff (host : HostBreaks breaks) :
    UnknownBreak breaks text i ↔ eslintBreaks.EndsAt text i ∧ ¬ breaks.EndsAt text i := by
  have distinct : LS ≠ CR ∧ PS ≠ CR ∧ LS ≠ LF ∧ PS ≠ LF ∧ CR ≠ LF := by decide
  cases here : text[i]? with
  | none => simp [UnknownBreak, Lines.Breaks.EndsAt, here]
  | some c =>
      obtain rfl | rfl := host
      · simp only [UnknownBreak, Lines.Breaks.EndsAt, htmlBreaks, eslintBreaks, here]
        grind
      · simp only [UnknownBreak, Lines.Breaks.EndsAt, yamlBreaks, eslintBreaks, here]
        grind

/-- Host and ESLint locate a position alike if there is no unknown break before it. -/
theorem locate_eq_iff (host : HostBreaks breaks) (text : Text) (index : ℕ) :
    Lines.locate (Lines.starts breaks.pattern text) index =
        Lines.locate (Lines.starts eslintBreaks.pattern text) index ↔
      ∀ i < index, ¬ UnknownBreak breaks text i := by
  have subset : ∀ s ∈ Lines.starts breaks.pattern text, s ≤ index →
      s ∈ Lines.starts eslintBreaks.pattern text := by
    intro s member _
    rw [Lines.Breaks.mem_starts] at member ⊢
    obtain rfl | ⟨i, rfl, ends⟩ := member
    · exact .inl rfl
    · exact .inr ⟨i, rfl, endsAt_eslintBreaks host ends⟩
  rw [(breaks.valid_starts text).locate_eq_iff (eslintBreaks.valid_starts text) subset]
  constructor
  · intro all i before unknown
    obtain ⟨ends, notHost⟩ := (unknownBreak_iff host).mp unknown
    have known := all (i + 1) (eslintBreaks.mem_starts.mpr (.inr ⟨i, rfl, ends⟩)) before
    obtain impossible | ⟨j, same, endsHost⟩ := breaks.mem_starts.mp known
    · omega
    · obtain rfl : i = j := by omega
      exact notHost endsHost
  · intro none s member le
    obtain rfl | ⟨i, rfl, ends⟩ := eslintBreaks.mem_starts.mp member
    · exact breaks.mem_starts.mpr (.inl rfl)
    · refine breaks.mem_starts.mpr (.inr ⟨i, rfl, ?_⟩)
      by_contra notHost
      exact none i (by omega) ((unknownBreak_iff host).mpr ⟨ends, notHost⟩)

end HostBreaks

/-! ## Snippets -/

/-- The formats of strings that are supported: `PLAIN`, `BLOCK_FOLDED` and `BLOCK_LITERAL`. -/
inductive Format
  | plain
  | blockFolded
  | blockLiteral
deriving DecidableEq

structure Extras where
  resourceName : Option String

structure EmbeddedJS where
  code : Text
  line : ℕ
  column : ℕ
  offset : ℕ
  lineStarts : List ℕ
  text : Text
  format : Format
  extras : Extras

/-- `APIError`, with the line of its data. -/
structure APIError where
  message : String
  line : Option ℕ

/-! ## HTML -/

/-- The callbacks of `htmlparser2`, with the index that is read from the parser. -/
inductive HtmlEvent
  | openTag (name : String) (src : Option String) (endIndex : ℕ)
  | closeTag (name : String) (startIndex : ℕ)

structure HtmlState where
  jsSnippetStartIndex : ℕ
  jsSnippetEndIndex : ℕ
  inScript : Bool
  embeddedJSs : List EmbeddedJS

def computeLineStarts (str : Text) : List ℕ := Lines.starts htmlBreaks.pattern str

def computeLine (offset : ℕ) (fileLineStarts : List ℕ) : ℕ := Lines.line fileLineStarts offset

def computeCol (offset : ℕ) (fileLineStarts : List ℕ) : ℕ :=
  offset - Lines.lineStart fileLineStarts offset + 1

/-- A `src` that is missing or empty is no reference to another file. -/
def pointsToFile (src : Option String) : Bool := src.getD "" ≠ ""

def onHtmlEvent (code : Text) (lineStarts : List ℕ) (state : HtmlState) : HtmlEvent → HtmlState
  | .openTag name src endIndex =>
    if name ≠ "script" ∨ pointsToFile src then state
    else { state with inScript := true, jsSnippetStartIndex := endIndex + 1 }
  | .closeTag name startIndex =>
    if name ≠ "script" ∨ state.inScript = false then state
    else
      { inScript := false
        jsSnippetStartIndex := startIndex
        jsSnippetEndIndex := startIndex
        embeddedJSs := state.embeddedJSs ++ [{
          code := slice code state.jsSnippetStartIndex startIndex
          line := computeLine state.jsSnippetStartIndex lineStarts
          column := computeCol state.jsSnippetStartIndex lineStarts
          offset := state.jsSnippetStartIndex
          lineStarts := lineStarts
          format := .plain
          text := code
          extras := ⟨none⟩ }] }

def parseHTML (events : List HtmlEvent) (code : Text) : List EmbeddedJS :=
  if code = [] then []
  else (events.foldl (onHtmlEvent code (computeLineStarts code)) ⟨0, 0, false, []⟩).embeddedJSs

/-! ## YAML -/

/-- A pair that a visit of a document comes to: what the parsing contexts look at, the type
of its value if it is supported, the source of the value and where the value begins. The
value comes after its key. -/
structure YamlPair (κ : Type) where
  place : κ
  type : Option Format
  source : Option Text
  rangeStart : ℕ
  afterKey : 0 < rangeStart

structure YamlDocument (κ : Type) where
  firstError : Option (String × ℕ)
  pairs : List (YamlPair κ)

structure ParsingContext (κ : Type) where
  predicate : κ → Bool
  picker : κ → Extras

inductive YamlFailure
  | parsingError (error : APIError)
  | assertion (message : String)

section Yaml

variable {κ : Type}

/-- The marker of a block and the line break after it come before the snippet. -/
def fixOffset (offset : ℕ) : Format → ℕ
  | .plain => offset
  | .blockFolded => offset + 2
  | .blockLiteral => offset + 2

def extract (lineStarts : List ℕ) (text : Text) (pair : YamlPair κ)
    (currentContext : ParsingContext κ) : Except YamlFailure (List EmbeddedJS) :=
  match pair.type with
  | none => .ok []
  | some format =>
    if currentContext.predicate pair.place = false then .ok []
    else
      match pair.source with
      | none =>
        .error (.assertion "An extracted embedded JavaScript snippet should be defined.")
      | some code =>
        .ok [{
          code := code
          line := Lines.line lineStarts pair.rangeStart
          column := pair.rangeStart - Lines.lineStart lineStarts pair.rangeStart + 1
          offset := fixOffset pair.rangeStart format
          lineStarts := lineStarts
          text := text
          format := format
          extras := currentContext.picker pair.place }]

def parseDocument (parsingContexts : List (ParsingContext κ)) (lineStarts : List ℕ) (text : Text)
    (doc : YamlDocument κ) : Except YamlFailure (List EmbeddedJS) :=
  match doc.firstError with
  | some (message, pos) =>
    .error (.parsingError ⟨message, some (Lines.line lineStarts pos)⟩)
  | none => do
    let snippets ← doc.pairs.mapM fun pair => do
      let extracted ← parsingContexts.mapM (extract lineStarts text pair)
      return extracted.flatten
    return snippets.flatten

def parseYaml (parsingContexts : List (ParsingContext κ)) (docs : List (YamlDocument κ))
    (text : Text) : Except YamlFailure (List EmbeddedJS) := do
  let snippets ← docs.mapM
    (parseDocument parsingContexts (Lines.starts yamlBreaks.pattern text) text)
  return snippets.flatten

end Yaml

/-! ## What is known of a snippet -/

/-- A snippet that one of the parsers has extracted, with the line breaks of its host. -/
inductive Extracted (text : Text) : Lines.Breaks CodeUnit → EmbeddedJS → Prop
  | html {events : List HtmlEvent} {snippet : EmbeddedJS}
      (member : snippet ∈ parseHTML events text) : Extracted text htmlBreaks snippet
  | yaml {κ : Type} {parsingContexts : List (ParsingContext κ)} {docs : List (YamlDocument κ)}
      {snippets : List EmbeddedJS} {snippet : EmbeddedJS}
      (parsed : parseYaml parsingContexts docs text = .ok snippets) (member : snippet ∈ snippets) :
      Extracted text yamlBreaks snippet

/-- Where the value begins that holds the snippet: for a block, its marker. -/
def EmbeddedJS.valueStart (snippet : EmbeddedJS) : ℕ :=
  match snippet.format with
  | .plain => snippet.offset
  | .blockFolded => snippet.offset - 2
  | .blockLiteral => snippet.offset - 2

/-- Line and column of a snippet are those of its value, both counted from 1. -/
structure WellPlaced (lineStarts : List ℕ) (text : Text) (snippet : EmbeddedJS) : Prop where
  text_eq : snippet.text = text
  lineStarts_eq : snippet.lineStarts = lineStarts
  line_eq : snippet.line = Lines.line lineStarts snippet.valueStart
  column_eq : snippet.column =
    snippet.valueStart - Lines.lineStart lineStarts snippet.valueStart + 1
  valueStart_pos : 0 < snippet.valueStart

/-- What holds while the tags of an HTML file come in. -/
structure HtmlState.Invariant (code : Text) (lineStarts : List ℕ) (state : HtmlState) : Prop where
  start_pos : state.inScript = true → 0 < state.jsSnippetStartIndex
  wellPlaced : ∀ snippet ∈ state.embeddedJSs, WellPlaced lineStarts code snippet

theorem onHtmlEvent_invariant {code : Text} {lineStarts : List ℕ} {state : HtmlState}
    (invariant : state.Invariant code lineStarts) (event : HtmlEvent) :
    (onHtmlEvent code lineStarts state event).Invariant code lineStarts := by
  cases event with
  | openTag name src endIndex =>
      by_cases ignored : name ≠ "script" ∨ pointsToFile src
      · rwa [onHtmlEvent, if_pos ignored]
      · rw [onHtmlEvent, if_neg ignored]
        exact ⟨fun _ => Nat.succ_pos endIndex, invariant.wellPlaced⟩
  | closeTag name startIndex =>
      by_cases ignored : name ≠ "script" ∨ state.inScript = false
      · rwa [onHtmlEvent, if_pos ignored]
      · rw [onHtmlEvent, if_neg ignored]
        have inScript : state.inScript = true := by simpa using (not_or.mp ignored).2
        refine ⟨fun open_ => Bool.noConfusion open_, fun snippet member => ?_⟩
        obtain before | new := List.mem_append.mp member
        · exact invariant.wellPlaced snippet before
        · obtain rfl := List.mem_singleton.mp new
          exact ⟨rfl, rfl, rfl, rfl, invariant.start_pos inScript⟩

theorem foldl_onHtmlEvent_invariant {code : Text} {lineStarts : List ℕ} (events : List HtmlEvent)
    {state : HtmlState} (invariant : state.Invariant code lineStarts) :
    (events.foldl (onHtmlEvent code lineStarts) state).Invariant code lineStarts := by
  induction events generalizing state with
  | nil => exact invariant
  | cons event events ih => exact ih (onHtmlEvent_invariant invariant event)

theorem wellPlaced_of_mem_parseHTML {events : List HtmlEvent} {text : Text} {snippet : EmbeddedJS}
    (member : snippet ∈ parseHTML events text) :
    WellPlaced (Lines.starts htmlBreaks.pattern text) text snippet := by
  unfold parseHTML at member
  split at member
  · cases member
  · have start : HtmlState.Invariant text (computeLineStarts text) ⟨0, 0, false, []⟩ :=
      ⟨by simp, by simp⟩
    exact (foldl_onHtmlEvent_invariant events start).wellPlaced snippet member

theorem format_of_mem_onHtmlEvent {code : Text} {lineStarts : List ℕ} {state : HtmlState}
    (before : ∀ snippet ∈ state.embeddedJSs, snippet.format = .plain) (event : HtmlEvent) :
    ∀ snippet ∈ (onHtmlEvent code lineStarts state event).embeddedJSs,
      snippet.format = .plain := by
  cases event with
  | openTag name src endIndex =>
      by_cases ignored : name ≠ "script" ∨ pointsToFile src
      · rwa [onHtmlEvent, if_pos ignored]
      · rwa [onHtmlEvent, if_neg ignored]
  | closeTag name startIndex =>
      by_cases ignored : name ≠ "script" ∨ state.inScript = false
      · rwa [onHtmlEvent, if_pos ignored]
      · rw [onHtmlEvent, if_neg ignored]
        intro snippet member
        obtain known | new := List.mem_append.mp member
        · exact before snippet known
        · obtain rfl := List.mem_singleton.mp new
          rfl

theorem format_of_mem_parseHTML {events : List HtmlEvent} {text : Text} {snippet : EmbeddedJS}
    (member : snippet ∈ parseHTML events text) : snippet.format = .plain := by
  unfold parseHTML at member
  split at member
  · cases member
  · have all (state : HtmlState) (start : ∀ snippet ∈ state.embeddedJSs, snippet.format = .plain) :
        ∀ snippet ∈ (events.foldl (onHtmlEvent text (computeLineStarts text)) state).embeddedJSs,
          snippet.format = .plain := by
      clear member
      induction events generalizing state with
      | nil => exact start
      | cons event events ih => exact ih _ (format_of_mem_onHtmlEvent start event)
    exact all _ (by simp) snippet member

/-- What a computation over a list has collected comes from one of the elements. -/
theorem mem_of_flatten_mapM {A B : Type} {f : A → Except YamlFailure (List B)} {xs : List A}
    {zs : List B} (h : (do let ys ← xs.mapM f; return ys.flatten) = Except.ok zs) {z : B}
    (member : z ∈ zs) : ∃ x ∈ xs, ∃ ys, f x = .ok ys ∧ z ∈ ys := by
  obtain ⟨parts, ran, returned⟩ := Action.except_bind_eq_ok.mp h
  cases returned
  obtain ⟨ys, part, inPart⟩ := List.mem_flatten.mp member
  obtain ⟨x, known, found⟩ := Action.exists_of_mem_mapM ran part
  exact ⟨x, known, ys, found, inPart⟩

section YamlFacts

variable {κ : Type} {lineStarts : List ℕ} {text : Text} {snippet : EmbeddedJS}

theorem wellPlaced_of_extract {pair : YamlPair κ} {currentContext : ParsingContext κ}
    {snippets : List EmbeddedJS} (h : extract lineStarts text pair currentContext = .ok snippets)
    (member : snippet ∈ snippets) : WellPlaced lineStarts text snippet := by
  unfold extract at h
  split at h
  · cases h
    cases member
  · rename_i format _
    split at h
    · cases h
      cases member
    · split at h
      · cases h
      · cases h
        obtain rfl := List.mem_singleton.mp member
        cases format with
        | plain => exact ⟨rfl, rfl, rfl, rfl, pair.afterKey⟩
        | blockFolded => exact ⟨rfl, rfl, rfl, rfl, pair.afterKey⟩
        | blockLiteral => exact ⟨rfl, rfl, rfl, rfl, pair.afterKey⟩

theorem wellPlaced_of_parseDocument {parsingContexts : List (ParsingContext κ)}
    {doc : YamlDocument κ} {snippets : List EmbeddedJS}
    (h : parseDocument parsingContexts lineStarts text doc = .ok snippets)
    (member : snippet ∈ snippets) : WellPlaced lineStarts text snippet := by
  unfold parseDocument at h
  split at h
  · cases h
  · obtain ⟨pair, -, _, ofPair, inPair⟩ := mem_of_flatten_mapM h member
    obtain ⟨currentContext, -, _, extracted, inContext⟩ := mem_of_flatten_mapM ofPair inPair
    exact wellPlaced_of_extract extracted inContext

theorem wellPlaced_of_parseYaml {parsingContexts : List (ParsingContext κ)}
    {docs : List (YamlDocument κ)} {snippets : List EmbeddedJS}
    (parsed : parseYaml parsingContexts docs text = .ok snippets) (member : snippet ∈ snippets) :
    WellPlaced (Lines.starts yamlBreaks.pattern text) text snippet := by
  obtain ⟨doc, -, _, ofDoc, inDoc⟩ := mem_of_flatten_mapM parsed member
  exact wellPlaced_of_parseDocument ofDoc inDoc

end YamlFacts

theorem Extracted.wellPlaced {text : Text} {breaks : Lines.Breaks CodeUnit} {snippet : EmbeddedJS}
    (extracted : Extracted text breaks snippet) :
    WellPlaced (Lines.starts breaks.pattern text) text snippet := by
  cases extracted with
  | html member => exact wellPlaced_of_mem_parseHTML member
  | yaml parsed member => exact wellPlaced_of_parseYaml parsed member

end SonarJS.Embedded
