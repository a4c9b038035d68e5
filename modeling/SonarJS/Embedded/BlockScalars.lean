import SonarJS.Embedded.Snippets

/-!
# Where a block scalar starts

The offset of a snippet in a block scalar is that of the block's marker, with two characters
for the marker and the line break after it. The header of a block can have indicators, blanks
and a comment, and its line can end with CRLF. Then the offset is too small: what stands there
is the end of the header, and the code follows. That this is the code again is possible only
for a code that repeats the end of the header.
-/

namespace SonarJS.Embedded

def VERTICAL_BAR : CodeUnit := 0x7C
def GREATER_THAN : CodeUnit := 0x3E

/-- The text from a block's marker up to the end of its line, with the line break. -/
def blockHeader (text : Text) (start : ℕ) : Text :=
  (text.drop start).takeWhile (· ≠ LF) ++ ((text.drop start).dropWhile (· ≠ LF)).take 1

/-- What `yaml` reports of a block scalar: the range begins at the marker, and the source is
the text of the block after the line of its header. -/
structure ReportsBlock {κ : Type} (text : Text) (pair : YamlPair κ) : Prop where
  marker : text[pair.rangeStart]? = some VERTICAL_BAR ∨ text[pair.rangeStart]? = some GREATER_THAN
  source : ∀ code, pair.source = some code →
    code <+: text.drop (pair.rangeStart + (blockHeader text pair.rangeStart).length)

/-- The block scalars of the documents are reported in this way. -/
def ReportsBlocks {κ : Type} (text : Text) (docs : List (YamlDocument κ)) : Prop :=
  ∀ doc ∈ docs, ∀ pair ∈ doc.pairs,
    pair.type = some .blockFolded ∨ pair.type = some .blockLiteral → ReportsBlock text pair

/-- So many copies of a text, one after another. -/
def copies (n : ℕ) (period : Text) : Text := (List.replicate n period).flatten

/-! ## Texts with a period -/

section Periods

variable {period code : Text} {n : ℕ}

theorem copies_succ : copies (n + 1) period = period ++ copies n period := by
  rw [copies, List.replicate_succ, List.flatten_cons]
  rfl

theorem copies_succ' : copies (n + 1) period = copies n period ++ period := by
  rw [copies, List.replicate_succ', List.flatten_append, List.flatten_singleton]
  rfl

theorem prefix_copies_append (starts : code <+: period ++ code) (n : ℕ) :
    code <+: copies n period ++ code := by
  induction n with
  | zero => exact List.prefix_rfl
  | succ n ih =>
      rw [copies_succ, List.append_assoc]
      exact starts.trans ((List.prefix_append_right_inj period).mpr ih)

/-- A text comes again behind a period exactly if it consists of copies of it. -/
theorem prefix_append_self_iff :
    code <+: period ++ code ↔ period = [] ∨ ∃ n, code <+: copies n period := by
  constructor
  · intro starts
    cases period with
    | nil => exact .inl rfl
    | cons c rest =>
        refine .inr ⟨code.length, ?_⟩
        refine List.prefix_of_prefix_length_le (prefix_copies_append starts code.length)
          (List.prefix_append _ code) ?_
        simp [copies, Nat.le_mul_of_pos_right]
  · rintro (rfl | ⟨n, starts⟩)
    · exact List.prefix_rfl
    · -- both are prefixes of one copy more
      have more : period ++ code <+: copies (n + 1) period := by
        rw [copies_succ]
        exact (List.prefix_append_right_inj period).mpr starts
      have starts' : code <+: copies (n + 1) period := by
        rw [copies_succ']
        exact starts.trans (List.prefix_append _ period)
      exact List.prefix_of_prefix_length_le starts' more (by simp)

end Periods

/-! ## The offset of a block -/

section Blocks

variable {κ : Type} {text code : Text} {start : ℕ}

theorem blockHeader_append :
    blockHeader text start ++ text.drop (start + (blockHeader text start).length) =
      text.drop start := by
  have split : text.drop start = blockHeader text start ++
      ((text.drop start).dropWhile (· ≠ LF)).drop 1 := by
    rw [blockHeader, List.append_assoc, List.take_append_drop, List.takeWhile_append_dropWhile]
  rw [← List.drop_drop, split, List.drop_left]

/-- A header of one character is at the end of the text. -/
theorem eq_nil_of_length_blockHeader
    (marker : text[start]? = some VERTICAL_BAR ∨ text[start]? = some GREATER_THAN)
    (short : (blockHeader text start).length < 2) :
    text.drop (start + (blockHeader text start).length) = [] := by
  have noBreak : ∀ c, text[start]? = some c → c ≠ LF := by
    rintro c here rfl
    obtain marker | marker := marker
    · cases here.symm.trans marker
    · cases here.symm.trans marker
  rw [blockHeader] at short ⊢
  rw [← List.drop_drop]
  cases behind : text.drop start with
  | nil => rfl
  | cons c rest =>
      have here : text[start]? = some c := by
        rw [← Nat.add_zero start, ← List.getElem?_drop, behind]
        rfl
      have isMarker := noBreak c here
      have split := @List.takeWhile_append_dropWhile _ (fun c => decide (c ≠ LF)) rest
      simp only [behind, List.takeWhile_cons, List.dropWhile_cons, isMarker, ne_eq,
        not_false_eq_true, decide_true, if_true, List.length_append, List.length_cons,
        List.length_take] at short split ⊢
      have line : rest.takeWhile (fun c => decide (¬ c = LF)) = [] := by
        apply List.eq_nil_of_length_eq_zero
        omega
      have after : rest.dropWhile (fun c => decide (¬ c = LF)) = [] := by
        apply List.eq_nil_of_length_eq_zero
        omega
      rw [line, after, List.append_nil] at split
      rw [← split]
      simp

/-- What stands at the offset is the code if the code is what follows the marker and one
character more. -/
theorem slice_eq_iff :
    slice text start (start + code.length) = code ↔ code <+: text.drop start := by
  rw [slice, List.drop_take, Nat.add_sub_cancel_left, List.prefix_iff_eq_take]
  exact eq_comm

/-- The two characters are the whole header, or the code repeats what is left of it. -/
theorem slice_block_iff
    (marker : text[start]? = some VERTICAL_BAR ∨ text[start]? = some GREATER_THAN)
    (source : code <+: text.drop (start + (blockHeader text start).length)) :
    slice text (start + 2) (start + 2 + code.length) = code ↔
      (blockHeader text start).length = 2 ∨
        ∃ n, code <+: copies n ((blockHeader text start).drop 2) := by
  rw [slice_eq_iff]
  by_cases short : (blockHeader text start).length < 2
  · rw [eq_nil_of_length_blockHeader marker short, List.prefix_nil] at source
    obtain rfl := source
    exact iff_of_true List.nil_prefix (.inr ⟨0, List.nil_prefix⟩)
  · have long := Nat.le_of_not_lt short
    have behind : text.drop (start + 2) = (blockHeader text start).drop 2 ++
        text.drop (start + (blockHeader text start).length) := by
      have split := @blockHeader_append text start
      rw [← List.drop_drop, ← split, List.drop_append_of_le_length long]
    have whole : (blockHeader text start).length = 2 ↔ (blockHeader text start).drop 2 = [] := by
      rw [List.drop_eq_nil_iff]
      omega
    rw [behind, whole, ← prefix_append_self_iff]
    constructor
    · intro starts
      exact List.prefix_of_prefix_length_le starts
        ((List.prefix_append_right_inj _).mpr source) (by simp)
    · intro starts
      exact starts.trans ((List.prefix_append_right_inj _).mpr source)

theorem exists_pair_of_mem {parsingContexts : List (ParsingContext κ)}
    {docs : List (YamlDocument κ)} {snippets : List EmbeddedJS} {snippet : EmbeddedJS}
    (parsed : parseYaml parsingContexts docs text = .ok snippets) (member : snippet ∈ snippets) :
    ∃ doc ∈ docs, ∃ pair ∈ doc.pairs, pair.type = some snippet.format ∧
      pair.source = some snippet.code ∧
        snippet.offset = fixOffset pair.rangeStart snippet.format := by
  obtain ⟨doc, isDoc, _, ofDoc, inDoc⟩ := mem_of_flatten_mapM parsed member
  unfold parseDocument at ofDoc
  split at ofDoc
  · cases ofDoc
  · obtain ⟨pair, isPair, _, ofPair, inPair⟩ := mem_of_flatten_mapM ofDoc inDoc
    obtain ⟨currentContext, -, _, extracted, inContext⟩ := mem_of_flatten_mapM ofPair inPair
    refine ⟨doc, isDoc, pair, isPair, ?_⟩
    unfold extract at extracted
    split at extracted
    · cases extracted
      cases inContext
    · split at extracted
      · cases extracted
        cases inContext
      · split at extracted
        · cases extracted
        · cases extracted
          obtain rfl := List.mem_singleton.mp inContext
          exact ⟨‹_›, ‹_›, rfl⟩

/-- A block snippet comes from a block scalar of the documents. It starts at its offset exactly
if the header of the block consists of the marker and a line break of one character, or the
code of the block repeats the rest of the header. -/
theorem block_starts_iff {parsingContexts : List (ParsingContext κ)}
    {docs : List (YamlDocument κ)} {snippets : List EmbeddedJS} {snippet : EmbeddedJS}
    (reports : ReportsBlocks text docs)
    (parsed : parseYaml parsingContexts docs text = .ok snippets) (member : snippet ∈ snippets)
    (block : snippet.format = .blockFolded ∨ snippet.format = .blockLiteral) :
    ∃ doc ∈ docs, ∃ pair ∈ doc.pairs, pair.type = some snippet.format ∧
      pair.source = some snippet.code ∧ snippet.valueStart = pair.rangeStart ∧
        (slice text snippet.offset (snippet.offset + snippet.code.length) = snippet.code ↔
          (blockHeader text pair.rangeStart).length = 2 ∨
            ∃ n, snippet.code <+: copies n ((blockHeader text pair.rangeStart).drop 2)) := by
  obtain ⟨doc, isDoc, pair, isPair, type, source, offset⟩ := exists_pair_of_mem parsed member
  have reported : ReportsBlock text pair := by
    apply reports doc isDoc pair isPair
    rwa [type, Option.some.injEq, Option.some.injEq]
  have place : snippet.offset = pair.rangeStart + 2 ∧ snippet.valueStart = pair.rangeStart := by
    rw [EmbeddedJS.valueStart, offset]
    obtain format | format := block
    · rw [format]
      exact ⟨rfl, rfl⟩
    · rw [format]
      exact ⟨rfl, rfl⟩
  refine ⟨doc, isDoc, pair, isPair, type, source, place.2, ?_⟩
  rw [place.1]
  exact slice_block_iff reported.marker (reported.source _ source)

/-! A mapping with the key `js` and a block scalar with one line. -/

def indentedLine : Text := [0x20, 0x20, 0x78]

def mappingWith (header : Text) : Text := [0x6A, 0x73, 0x3A, 0x20] ++ header ++ indentedLine

def mappingDoc : YamlDocument Unit where
  firstError := none
  pairs := [{
    place := ()
    type := some .blockLiteral
    source := some indentedLine
    rangeStart := 4
    afterKey := by decide }]

def everyPair : ParsingContext Unit where
  predicate _ := true
  picker _ := ⟨none⟩

def mappingSnippet (header : Text) : EmbeddedJS where
  code := indentedLine
  line := 1
  column := 5
  offset := 6
  lineStarts := Lines.starts yamlBreaks.pattern (mappingWith header)
  text := mappingWith header
  format := .blockLiteral
  extras := ⟨none⟩

theorem reportsBlocks_mapping {header : Text} (marker : header[0]? = some VERTICAL_BAR)
    (whole : blockHeader (mappingWith header) 4 = header) :
    ReportsBlocks (mappingWith header) [mappingDoc] := by
  intro doc isDoc pair isPair _
  obtain rfl := List.mem_singleton.mp isDoc
  obtain rfl := List.mem_singleton.mp isPair
  constructor
  · left
    cases header with
    | nil => cases marker
    | cons c rest => exact marker
  · intro code source
    obtain rfl : indentedLine = code := Option.some.inj source
    have length : 4 + header.length = ([0x6A, 0x73, 0x3A, 0x20] ++ header).length := by
      rw [List.length_append]
      rfl
    have behind : (mappingWith header).drop (4 + (blockHeader (mappingWith header) 4).length) =
        indentedLine := by
      rw [whole, mappingWith, length, List.drop_left]
    exact ⟨[], (List.append_nil _).trans behind.symm⟩

theorem block_starts_literal :
    ∃ doc ∈ [mappingDoc], ∃ pair ∈ doc.pairs, pair.type = some Format.blockLiteral ∧
      pair.source = some indentedLine ∧
        (mappingSnippet [VERTICAL_BAR, LF]).valueStart = pair.rangeStart ∧
          (slice (mappingWith [VERTICAL_BAR, LF]) 6 (6 + indentedLine.length) = indentedLine ↔
            (blockHeader (mappingWith [VERTICAL_BAR, LF]) pair.rangeStart).length = 2 ∨
              ∃ n, indentedLine <+: copies n
                ((blockHeader (mappingWith [VERTICAL_BAR, LF]) pair.rangeStart).drop 2)) :=
  @block_starts_iff Unit _ [everyPair] _ _ (mappingSnippet [VERTICAL_BAR, LF])
    (reportsBlocks_mapping rfl (by decide)) rfl (List.mem_singleton_self _) (.inr rfl)

/-- With an indicator that strips the last line break, the offset is that of the line break
after the header. -/
theorem not_starts_stripped :
    ReportsBlocks (mappingWith [VERTICAL_BAR, 0x2D, LF]) [mappingDoc] ∧
      parseYaml [everyPair] [mappingDoc] (mappingWith [VERTICAL_BAR, 0x2D, LF]) =
        .ok [mappingSnippet [VERTICAL_BAR, 0x2D, LF]] ∧
      slice (mappingWith [VERTICAL_BAR, 0x2D, LF]) 6 (6 + indentedLine.length) ≠ indentedLine :=
  ⟨reportsBlocks_mapping rfl (by decide), rfl, by decide⟩

end Blocks

end SonarJS.Embedded
