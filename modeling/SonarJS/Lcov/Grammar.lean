import Mathlib.Data.List.DropRight
import SonarJS.Lcov.Parser

/-!
# The grammar of the records

The comments of the parser document two forms of records:

* `DA:<line number>,<execution count>[,<checksum>]`
* `BRDA:<line number>,<block number>,<branch number>,<taken>`

A record in its form whose line exists has its full effect, and any other record is an
inconsistency without another effect. The parser departs from this in two ways. All that
follows the first comma of a `DA` record is taken for the count, so that a checksum makes
the record an inconsistency. And a `BRDA` record may have blanks around it and further
fields after its four.
-/

namespace SonarJS

namespace Lcov

/-! ## Fields -/

/-- The characters of an integer. -/
def IsNumeral (s : List Char) : Prop := ∀ c ∈ s, c = '-' ∨ c = '+' ∨ 0x30 ≤ c.toNat

theorem le_toNat_of_digit {c : Char} {d : ℕ} (h : digit c = some d) : 0x30 ≤ c.toNat := by
  obtain ⟨start, found, -⟩ := Option.map_eq_some_iff.mp h
  have known : ∀ start ∈ decimalZeros, 0x30 ≤ start := by decide
  have inRange := List.find?_some found
  simp only [decide_eq_true_eq] at inRange
  exact (known start (List.mem_of_find?_eq_some found)).trans inRange.1

theorem isNumeral_of_mapM_digit {s : List Char} {values : List ℕ}
    (h : s.mapM digit = some values) : ∀ c ∈ s, 0x30 ≤ c.toNat := by
  induction s generalizing values with
  | nil => exact fun _ => nofun
  | cons c s ih =>
      rw [List.mapM_cons] at h
      obtain ⟨d, first, h⟩ := Option.bind_eq_some_iff.mp h
      obtain ⟨rest, others, -⟩ := Option.bind_eq_some_iff.mp h
      intro x hx
      obtain rfl | hx := List.mem_cons.mp hx
      · exact le_toNat_of_digit first
      · exact ih others x hx

/-- An integer is a sign, if any, and digits. -/
theorem exists_digits_of_valueOf {s : List Char} {v : BitVec 32}
    (h : Integer.valueOf (String.ofList s) = some v) :
    ∃ digits, digits ≠ [] ∧ (s = '-' :: digits ∨ s = '+' :: digits ∨ s = digits) ∧
      ∃ values, digits.mapM digit = some values := by
  unfold Integer.valueOf at h
  rw [String.toList_ofList] at h
  split at h
  rename_i negative digits signed
  split at h
  · cases h
  · rename_i nonempty
    obtain ⟨values, known, -⟩ := Option.bind_eq_some_iff.mp h
    refine ⟨digits, fun e => nonempty (by rw [e]; rfl), ?_, values, known⟩
    split at signed
    all_goals
      cases signed
      simp

theorem isNumeral_of_valueOf {s : List Char} {v : BitVec 32}
    (h : Integer.valueOf (String.ofList s) = some v) : s ≠ [] ∧ IsNumeral s := by
  obtain ⟨digits, nonempty, signed, values, known⟩ := exists_digits_of_valueOf h
  have numeral := isNumeral_of_mapM_digit known
  obtain rfl | rfl | rfl := signed
  · refine ⟨List.cons_ne_nil _ _, fun c hc => ?_⟩
    obtain rfl | hc := List.mem_cons.mp hc
    · exact .inl rfl
    · exact .inr (.inr (numeral c hc))
  · refine ⟨List.cons_ne_nil _ _, fun c hc => ?_⟩
    obtain rfl | hc := List.mem_cons.mp hc
    · exact .inr (.inl rfl)
    · exact .inr (.inr (numeral c hc))
  · exact ⟨nonempty, fun c hc => .inr (.inr (numeral c hc))⟩

theorem IsNumeral.comma_not_mem {s : List Char} (h : IsNumeral s) : ',' ∉ s := by
  intro comma
  have range := h ',' comma
  revert range
  decide

theorem IsNumeral.blank_lt {s : List Char} (h : IsNumeral s) {c : Char} (member : c ∈ s) :
    0x20 < c.toNat := by
  obtain rfl | rfl | range := h c member
  · decide
  · decide
  · omega

/-- The text before the first comma. -/
theorem splitOn_eq_cons_cons_iff {s first second : List Char} {rest : List (List Char)} :
    s.splitOn ',' = first :: second :: rest ↔
      ∃ t, s = first ++ ',' :: t ∧ ',' ∉ first ∧ t.splitOn ',' = second :: rest := by
  by_cases comma : ',' ∈ s
  · obtain ⟨before, after, rfl, absent⟩ := List.eq_append_cons_of_mem comma
    rw [List.splitOn_append_cons_self_of_not_mem absent, List.cons.injEq]
    constructor
    · rintro ⟨rfl, fields⟩
      exact ⟨after, rfl, absent, fields⟩
    · rintro ⟨t, same, absent', fields⟩
      have parts := congrArg (List.splitOn ',') same
      rw [List.splitOn_append_cons_self_of_not_mem absent,
        List.splitOn_append_cons_self_of_not_mem absent', fields, List.cons.injEq] at parts
      exact parts
  · rw [List.splitOn_eq_singleton comma]
    constructor
    · nofun
    · rintro ⟨t, rfl, -⟩
      exact absurd (List.mem_append_right _ List.mem_cons_self) comma

/-- A field ends where nothing follows or where a comma follows. -/
def EndsField (tail : List Char) : Prop := ∀ c ∈ tail.head?, c = ','

theorem exists_splitOn_eq_cons_iff {s first : List Char} :
    (∃ rest, s.splitOn ',' = first :: rest) ↔
      ',' ∉ first ∧ ∃ tail, s = first ++ tail ∧ EndsField tail := by
  constructor
  · rintro ⟨rest, fields⟩
    by_cases comma : ',' ∈ s
    · obtain ⟨before, after, rfl, absent⟩ := List.eq_append_cons_of_mem comma
      rw [List.splitOn_append_cons_self_of_not_mem absent] at fields
      cases fields
      exact ⟨absent, ',' :: after, rfl, fun c hc => (Option.mem_some.mp hc).symm⟩
    · rw [List.splitOn_eq_singleton comma] at fields
      cases fields
      exact ⟨comma, [], (List.append_nil s).symm, nofun⟩
  · rintro ⟨absent, tail, rfl, ends⟩
    cases tail with
    | nil => exact ⟨[], by rw [List.append_nil, List.splitOn_eq_singleton absent]⟩
    | cons c tail =>
        obtain rfl := ends c rfl
        exact ⟨tail.splitOn ',', List.splitOn_append_cons_self_of_not_mem absent tail⟩

/-! ## The reading of a record -/

/-- `<line number>,<execution count>`. -/
def PlainLine (data : List Char) (record : LineRecord) : Prop :=
  ∃ lineNumber executionCount, data = lineNumber ++ ',' :: executionCount ∧
    Integer.valueOf (String.ofList lineNumber) = some record.line ∧
    Integer.valueOf (String.ofList executionCount) = some record.executionCount

/-- `<line number>,<execution count>,<checksum>`. -/
def ChecksumLine (data : List Char) (record : LineRecord) : Prop :=
  ∃ plain checksum, data = plain ++ ',' :: checksum ∧ PlainLine plain record ∧ ',' ∉ checksum

/-- `<line number>,<execution count>[,<checksum>]`. -/
def LineForm (data : List Char) (record : LineRecord) : Prop :=
  PlainLine data record ∨ ChecksumLine data record

/-- `<taken>` is a number or a dash. -/
def takenOf (taken : List Char) : Option (BitVec 32) :=
  if taken = ['-'] then some 0 else Integer.valueOf (String.ofList taken)

/-- `<line number>,<block number>,<branch number>,<taken>`. -/
def BranchForm (data : List Char) (record : BranchRecord) : Prop :=
  ∃ lineNumber taken, data = lineNumber ++ ',' ::
      (record.block.toList ++ ',' :: (record.branch.toList ++ ',' :: taken)) ∧
    ',' ∉ record.block.toList ∧ ',' ∉ record.branch.toList ∧
    Integer.valueOf (String.ofList lineNumber) = some record.line ∧
    takenOf taken = some record.taken

/-- A record of the form with blanks around it or with further fields. -/
def LooseBranch (data : List Char) (record : BranchRecord) : Prop :=
  ∃ exact tail, BranchForm exact record ∧ data ≠ exact ∧ trim data = exact ++ tail ∧
    EndsField tail

theorem isNumeral_of_takenOf {taken : List Char} {v : BitVec 32} (h : takenOf taken = some v) :
    taken ≠ [] ∧ IsNumeral taken := by
  unfold takenOf at h
  split at h
  · rename_i dash
    subst dash
    exact ⟨List.cons_ne_nil _ _, fun c hc => .inl (List.mem_singleton.mp hc)⟩
  · exact isNumeral_of_valueOf h

theorem readLine_append {lineNumber executionCount : List Char} (absent : ',' ∉ lineNumber) :
    readLine (lineNumber ++ ',' :: executionCount) =
      (Integer.valueOf (String.ofList lineNumber)).bind fun line =>
        (Integer.valueOf (String.ofList executionCount)).map fun count => ⟨line, count⟩ := by
  have comma : ',' ∈ lineNumber ++ ',' :: executionCount :=
    List.mem_append_right _ List.mem_cons_self
  have upTo : (lineNumber ++ ',' :: executionCount).takeWhile (· ≠ ',') = lineNumber := by
    rw [List.takeWhile_append_of_pos]
    · simp
    · intro c hc
      simpa using ne_of_mem_of_not_mem hc absent
  have rest : (lineNumber ++ ',' :: executionCount).drop (lineNumber.length + 1) =
      executionCount := by
    simp [List.drop_append]
  rw [readLine, if_pos comma, upTo]
  dsimp only
  rw [rest]
  cases Integer.valueOf (String.ofList lineNumber) <;>
    cases Integer.valueOf (String.ofList executionCount) <;> rfl

theorem readLine_eq_some_iff {data : List Char} {record : LineRecord} :
    readLine data = some record ↔ PlainLine data record := by
  constructor
  · intro h
    have comma : ',' ∈ data := by
      by_contra absent
      rw [readLine, if_neg absent] at h
      cases h
    obtain ⟨lineNumber, executionCount, rfl, absent⟩ := List.eq_append_cons_of_mem comma
    rw [readLine_append absent] at h
    obtain ⟨line, hline, h⟩ := Option.bind_eq_some_iff.mp h
    obtain ⟨count, hcount, rfl⟩ := Option.map_eq_some_iff.mp h
    exact ⟨lineNumber, executionCount, rfl, hline, hcount⟩
  · rintro ⟨lineNumber, executionCount, rfl, hline, hcount⟩
    rw [readLine_append (isNumeral_of_valueOf hline).2.comma_not_mem, hline, hcount]
    rfl

/-- A checksum is not part of an integer. -/
theorem readLine_eq_none_of_checksum {data : List Char} {record : LineRecord}
    (h : ChecksumLine data record) : readLine data = none := by
  obtain ⟨plain, checksum, rfl, ⟨lineNumber, executionCount, rfl, hline, -⟩, -⟩ := h
  have numeral := (isNumeral_of_valueOf hline).2.comma_not_mem
  rw [List.append_assoc, List.cons_append, readLine_append numeral, hline, Option.bind_some,
    Option.map_eq_none_iff, Option.eq_none_iff_forall_ne_some]
  intro v hv
  exact (isNumeral_of_valueOf hv).2.comma_not_mem (List.mem_append_right _ List.mem_cons_self)

/-! ### Branches -/

/-- Empty fields at the end do not hide a field that is not empty. -/
theorem rdropWhile_append_cons {front more : List (List Char)} {field : List Char}
    (nonempty : field ≠ []) : ∃ kept,
      (front ++ field :: more).rdropWhile List.isEmpty = front ++ field :: kept := by
  induction more using List.reverseRecOn with
  | nil =>
      refine ⟨[], List.rdropWhile_concat_neg _ _ _ ?_⟩
      simpa using nonempty
  | append_singleton more last ih =>
      rw [← List.cons_append, ← List.append_assoc]
      by_cases empty : last.isEmpty
      · rw [List.rdropWhile_concat_pos _ _ _ empty]
        exact ih
      · rw [List.rdropWhile_concat_neg _ _ _ empty]
        exact ⟨more ++ [last], by simp⟩

/-- Four fields and what comes after them. -/
theorem exists_splitOn_eq_four_iff {s lineNumber block branch taken : List Char} :
    (∃ rest, s.splitOn ',' = lineNumber :: block :: branch :: taken :: rest) ↔
      ',' ∉ lineNumber ∧ ',' ∉ block ∧ ',' ∉ branch ∧ ',' ∉ taken ∧ ∃ tail,
        s = lineNumber ++ ',' :: (block ++ ',' :: (branch ++ ',' :: taken)) ++ tail ∧
          EndsField tail := by
  constructor
  · rintro ⟨rest, fields⟩
    obtain ⟨s₁, rfl, noLine, fields⟩ := splitOn_eq_cons_cons_iff.1 fields
    obtain ⟨s₂, rfl, noBlock, fields⟩ := splitOn_eq_cons_cons_iff.1 fields
    obtain ⟨s₃, rfl, noBranch, fields⟩ := splitOn_eq_cons_cons_iff.1 fields
    obtain ⟨noTaken, tail, rfl, ends⟩ := exists_splitOn_eq_cons_iff.1 ⟨rest, fields⟩
    exact ⟨noLine, noBlock, noBranch, noTaken, tail, by simp, ends⟩
  · rintro ⟨noLine, noBlock, noBranch, noTaken, tail, rfl, ends⟩
    obtain ⟨rest, fields⟩ := exists_splitOn_eq_cons_iff.2 ⟨noTaken, tail, rfl, ends⟩
    rw [List.append_assoc, List.cons_append, List.append_assoc, List.cons_append,
      List.append_assoc, List.cons_append]
    refine ⟨rest, splitOn_eq_cons_cons_iff.2 ⟨_, rfl, noLine, ?_⟩⟩
    refine splitOn_eq_cons_cons_iff.2 ⟨_, rfl, noBlock, ?_⟩
    exact splitOn_eq_cons_cons_iff.2 ⟨_, rfl, noBranch, fields⟩

theorem exists_split_eq_four_iff {s lineNumber block branch taken : List Char}
    (nonempty : taken ≠ []) :
    (∃ rest, split s = lineNumber :: block :: branch :: taken :: rest) ↔
      ∃ rest, s.splitOn ',' = lineNumber :: block :: branch :: taken :: rest := by
  by_cases comma : ',' ∈ s
  · rw [split, if_pos comma]
    show (∃ rest, (s.splitOn ',').rdropWhile List.isEmpty = _) ↔ _
    constructor
    · rintro ⟨rest, fields⟩
      obtain ⟨dropped, whole⟩ := List.rdropWhile_prefix List.isEmpty (s.splitOn ',')
      rw [fields] at whole
      exact ⟨rest ++ dropped, whole.symm⟩
    · rintro ⟨rest, fields⟩
      rw [fields]
      exact @rdropWhile_append_cons [lineNumber, block, branch] _ _ nonempty
  · rw [split, if_neg comma, List.splitOn_eq_singleton comma]

theorem readBranch_of_split {data lineNumber block branch taken : List Char}
    {rest : List (List Char)}
    (h : split (trim data) = lineNumber :: block :: branch :: taken :: rest) :
    readBranch data = (Integer.valueOf (String.ofList lineNumber)).bind fun line =>
      (takenOf taken).map fun taken =>
        ⟨line, String.ofList block, String.ofList branch, taken⟩ := by
  rw [readBranch, h]
  dsimp only
  cases Integer.valueOf (String.ofList lineNumber) with
  | none => rfl
  | some line =>
      rw [takenOf]
      by_cases dash : taken = ['-']
      · rw [if_pos dash]
        simp [dash]
      · rw [if_neg dash]
        cases Integer.valueOf (String.ofList taken) <;> simp [dash]

theorem readBranch_eq_some_iff {data : List Char} {record : BranchRecord} :
    readBranch data = some record ↔ ∃ exact tail, BranchForm exact record ∧
      trim data = exact ++ tail ∧ EndsField tail := by
  constructor
  · intro h
    obtain ⟨lineNumber, block, branch, taken, rest, fields⟩ :
        ∃ lineNumber block branch taken rest,
          split (trim data) = lineNumber :: block :: branch :: taken :: rest := by
      unfold readBranch at h
      split at h
      · exact ⟨_, _, _, _, _, ‹_›⟩
      · cases h
    rw [readBranch_of_split fields] at h
    obtain ⟨line, hline, h⟩ := Option.bind_eq_some_iff.mp h
    obtain ⟨count, hcount, rfl⟩ := Option.map_eq_some_iff.mp h
    have nonempty := (isNumeral_of_takenOf hcount).1
    obtain ⟨-, noBlock, noBranch, -, tail, same, ends⟩ :=
      exists_splitOn_eq_four_iff.1 ((exists_split_eq_four_iff nonempty).mp ⟨rest, fields⟩)
    refine ⟨_, tail, ⟨lineNumber, taken, rfl, ?_, ?_, hline, hcount⟩, ?_, ends⟩
    · rwa [String.toList_ofList]
    · rwa [String.toList_ofList]
    · rwa [String.toList_ofList, String.toList_ofList]
  · rintro ⟨exact, tail, ⟨lineNumber, taken, rfl, noBlock, noBranch, hline, hcount⟩, same, ends⟩
    have noLine := (isNumeral_of_valueOf hline).2.comma_not_mem
    obtain ⟨nonempty, numeral⟩ := isNumeral_of_takenOf hcount
    obtain ⟨rest, fields⟩ := (exists_split_eq_four_iff nonempty).mpr <|
      exists_splitOn_eq_four_iff.2
        ⟨noLine, noBlock, noBranch, numeral.comma_not_mem, tail, same, ends⟩
    rw [readBranch_of_split fields, hline, hcount, String.ofList_toList, String.ofList_toList]
    rfl

theorem trim_between {first middle last : List Char} (firstNonempty : first ≠ [])
    (lastNonempty : last ≠ []) (firstNumeral : IsNumeral first) (lastNumeral : IsNumeral last) :
    trim (first ++ middle ++ last) = first ++ middle ++ last := by
  have start : (first ++ middle ++ last).dropWhile (fun c => c.toNat ≤ 0x20) =
      first ++ middle ++ last := by
    cases first with
    | nil => exact absurd rfl firstNonempty
    | cons c first =>
        have visible := firstNumeral.blank_lt (List.mem_cons_self (a := c) (l := first))
        rw [List.cons_append, List.cons_append, List.dropWhile_cons_of_neg]
        simpa using visible
  rw [trim, start]
  show (first ++ middle ++ last).rdropWhile _ = _
  rw [List.rdropWhile_eq_self_iff]
  intro nonempty
  have visible := lastNumeral.blank_lt (List.getLast_mem lastNonempty)
  rw [List.getLast_append_of_ne_nil _ lastNonempty]
  simpa using visible

/-- A record of the form begins and ends with a character of a number. -/
theorem trim_of_branchForm {data : List Char} {record : BranchRecord}
    (h : BranchForm data record) : trim data = data := by
  obtain ⟨lineNumber, taken, rfl, -, -, hline, hcount⟩ := h
  obtain ⟨lineNonempty, line⟩ := isNumeral_of_valueOf hline
  obtain ⟨takenNonempty, numeral⟩ := isNumeral_of_takenOf hcount
  have parts : lineNumber ++ ',' ::
        (record.block.toList ++ ',' :: (record.branch.toList ++ ',' :: taken)) =
      lineNumber ++ (',' :: record.block.toList ++ ',' :: record.branch.toList ++ [',']) ++
        taken := by
    simp
  rw [parts]
  exact trim_between lineNonempty takenNonempty line numeral

/-- What the form leaves no room for. -/
theorem not_branchForm_of_loose {data : List Char} {record record' : BranchRecord}
    (loose : LooseBranch data record) : ¬ BranchForm data record' := by
  intro form
  obtain ⟨exact, tail, exactForm, different, same, ends⟩ := loose
  rw [trim_of_branchForm form] at same
  cases tail with
  | nil => exact different (by rw [same, List.append_nil])
  | cons c tail =>
      obtain rfl := ends c rfl
      have three : ∀ {data : List Char} {record : BranchRecord}, BranchForm data record →
          data.count ',' = 3 := by
        rintro data record ⟨lineNumber, taken, rfl, noBlock, noBranch, hline, hcount⟩
        have noLine := (isNumeral_of_valueOf hline).2.comma_not_mem
        have noTaken := (isNumeral_of_takenOf hcount).2.comma_not_mem
        simp [List.count_append, List.count_eq_zero_of_not_mem, *]
      have more := congrArg (List.count ',') same
      rw [List.count_append, List.count_cons_self, three form, three exactForm] at more
      omega

/-! ## The effect of a record -/

section Records

variable {F : Type} [DecidableEq F] (project : Project F)

/-- The line is one of the file. -/
def LineExists (file : F) (line : BitVec 32) : Prop :=
  1 ≤ line.toInt ∧ line.toInt ≤ (project.lines file).toInt

/-- What a branch of a line has been taken. -/
def FileData.taken (fileData : FileData) (line : BitVec 32) (branch : String) :
    Option (BitVec 32) :=
  (fileData.branches.get line).bind fun branches => branches.get branch

theorem toList_of_afterStart {start line : String} {data : List Char}
    (h : afterStart start line = some data) : line.toList = start.toList ++ data := by
  unfold afterStart at h
  split at h
  · rename_i isStart
    cases h
    obtain ⟨rest, same⟩ := List.isPrefixOf_iff_prefix.mp isStart
    rw [← same, ← String.length_toList, List.drop_left]
  · cases h

namespace LCOVParser

/-- The data of a file that may have none yet. -/
def fileDataOf (parser : LCOVParser F) (file : F) : FileData := (parser.files.get file).getD .new

/-- The executions of one line of the file are added up, and this is all. -/
structure HitsGrow (parser next : LCOVParser F) (file : F) (record : LineRecord) : Prop where
  hits : ∀ line, (next.fileDataOf file).hits.get line =
    if line = record.line then
      some (((parser.fileDataOf file).hits.get line).getD 0 + record.executionCount)
    else (parser.fileDataOf file).hits.get line
  branches : (next.fileDataOf file).branches = (parser.fileDataOf file).branches
  otherFiles : ∀ other, other ≠ file → next.files.get other = parser.files.get other
  inconsistencies : next.inconsistenciesCounter = parser.inconsistenciesCounter

/-- One branch of the file has been taken more often, and this is all. -/
structure BranchGrows (parser next : LCOVParser F) (file : F) (record : BranchRecord) :
    Prop where
  branches : ∀ line branch, (next.fileDataOf file).taken line branch =
    if line = record.line ∧ branch = record.block ++ record.branch then
      some (((parser.fileDataOf file).taken line branch).getD 0 + record.taken)
    else (parser.fileDataOf file).taken line branch
  hits : (next.fileDataOf file).hits = (parser.fileDataOf file).hits
  otherFiles : ∀ other, other ≠ file → next.files.get other = parser.files.get other
  inconsistencies : next.inconsistenciesCounter = parser.inconsistenciesCounter

/-- The record is an inconsistency, and this is all. -/
structure Rejects (parser next : LCOVParser F) : Prop where
  files : next.files = parser.files
  inconsistencies : next.inconsistenciesCounter = parser.inconsistenciesCounter + 1

/-- A record in its form whose line exists has its effect, and any other record has none. -/
structure FollowsGrammar (parser : LCOVParser F) (file : F) (line : String) : Prop where
  lineAccepted : ∀ data record, afterStart "DA:" line = some data → LineForm data record →
    LineExists project file record.line →
      parser.HitsGrow (parser.parseLine project line) file record
  lineRejected : ∀ data, afterStart "DA:" line = some data →
    (∀ record, LineForm data record → ¬ LineExists project file record.line) →
      parser.Rejects (parser.parseLine project line)
  branchAccepted : ∀ data record, afterStart "BRDA:" line = some data →
    BranchForm data record → LineExists project file record.line →
      parser.BranchGrows (parser.parseLine project line) file record
  branchRejected : ∀ data, afterStart "BRDA:" line = some data →
    (∀ record, BranchForm data record → ¬ LineExists project file record.line) →
      parser.Rejects (parser.parseLine project line)

/-- No checksum follows an execution count of the file, and there is nothing around the
four fields of a branch. -/
def Bare (file : F) (line : String) : Prop :=
  (∀ data record, afterStart "DA:" line = some data → ChecksumLine data record →
    ¬ LineExists project file record.line) ∧
  ∀ data record, afterStart "BRDA:" line = some data → LooseBranch data record →
    ¬ LineExists project file record.line

variable {project} {parser : LCOVParser F} {file : F}

omit [DecidableEq F] in
theorem checkLine_iff {line : BitVec 32} :
    checkLine (project.lines file) line = true ↔ LineExists project file line := by
  rw [checkLine, Bool.and_eq_true, decide_eq_true_iff, decide_eq_true_iff, LineExists]

/-- The prefixes exclude one another. -/
theorem parseLine_of_line {line : String} {data : List Char}
    (current : parser.fileData = some file) (h : afterStart "DA:" line = some data) :
    parser.parseLine project line = parser.parseLineCoverage project file data := by
  have noFile : afterStart "SF:" line = none := by
    rw [afterStart, toList_of_afterStart h]
    rfl
  rw [parseLine, noFile, current]
  dsimp only
  rw [h]

theorem parseLine_of_branch {line : String} {data : List Char}
    (current : parser.fileData = some file) (h : afterStart "BRDA:" line = some data) :
    parser.parseLine project line = parser.parseBranchCoverage project file data := by
  have noFile : afterStart "SF:" line = none := by
    rw [afterStart, toList_of_afterStart h]
    rfl
  have noLine : afterStart "DA:" line = none := by
    rw [afterStart, toList_of_afterStart h]
    rfl
  rw [parseLine, noFile, current]
  dsimp only
  rw [noLine, h]

theorem hitsGrow_of_readLine {data : List Char} {record : LineRecord}
    (read : readLine data = some record) (exist : LineExists project file record.line) :
    parser.HitsGrow (parser.parseLineCoverage project file data) file record := by
  rw [parseLineCoverage, read, update, if_pos (checkLine_iff.2 exist)]
  constructor
  case hits =>
    intro line
    rw [fileDataOf, OrderedMap.get_set, if_pos rfl]
    exact OrderedMap.get_merge _ _ line _
  case branches =>
    rw [fileDataOf, OrderedMap.get_set, if_pos rfl]
    rfl
  case otherFiles =>
    intro other different
    rw [OrderedMap.get_set, if_neg different]
  case inconsistencies => rfl

theorem taken_addBranch (fileData : FileData) (record : BranchRecord) (line : BitVec 32)
    (branch : String) : (fileData.addBranch record).taken line branch =
      if line = record.line ∧ branch = record.block ++ record.branch then
        some ((fileData.taken line branch).getD 0 + record.taken)
      else fileData.taken line branch := by
  rw [FileData.taken, FileData.addBranch, OrderedMap.mergeAt, OrderedMap.get_set]
  by_cases sameLine : line = record.line
  · subst sameLine
    rw [if_pos rfl, Option.bind_some, OrderedMap.get_merge]
    have held : ((fileData.branches.get record.line).getD .empty).get branch =
        fileData.taken record.line branch := by
      rw [FileData.taken]
      cases fileData.branches.get record.line <;> rfl
    rw [held]
    simp only [true_and]
  · rw [if_neg sameLine, if_neg fun both => sameLine both.1]
    rfl

theorem branchGrows_of_readBranch {data : List Char} {record : BranchRecord}
    (read : readBranch data = some record) (exist : LineExists project file record.line) :
    parser.BranchGrows (parser.parseBranchCoverage project file data) file record := by
  rw [parseBranchCoverage, read, update, if_pos (checkLine_iff.2 exist)]
  constructor
  case branches =>
    intro line branch
    rw [fileDataOf, OrderedMap.get_set, if_pos rfl]
    exact taken_addBranch _ record line branch
  case hits =>
    rw [fileDataOf, OrderedMap.get_set, if_pos rfl]
    rfl
  case otherFiles =>
    intro other different
    rw [OrderedMap.get_set, if_neg different]
  case inconsistencies => rfl

/-- A record that cannot be read, or whose line does not exist. -/
theorem rejects_update {R : Type} {line : R → BitVec 32} {add : FileData → R → FileData}
    {record : Option R} (h : ∀ r, record = some r → ¬ LineExists project file (line r)) :
    parser.Rejects (parser.update project file line add record) := by
  cases record with
  | none => exact ⟨rfl, rfl⟩
  | some record =>
      rw [update, if_neg (checkLine_iff.not.mpr (h record rfl))]
      exact ⟨rfl, rfl⟩

/-- The counter tells a rejected record from an accepted one. -/
theorem succ_ne_self (n : BitVec 32) : n + 1 ≠ n := by
  intro same
  have one : (1 : BitVec 32) = 0 := by
    rwa [add_eq_left] at same
  revert one
  decide

/-- Which lines are read by the grammar, whatever has been read before: those without a
checksum, without blanks around a branch, and without further fields after one. -/
theorem followsGrammar_iff_bare (current : parser.fileData = some file) (line : String) :
    parser.FollowsGrammar project file line ↔ Bare project file line := by
  constructor
  · intro follows
    constructor
    · intro data record isLine checksum exist
      have grows := follows.lineAccepted data record isLine (.inr checksum) exist
      have rejects : parser.Rejects (parser.parseLine project line) := by
        rw [parseLine_of_line current isLine]
        exact rejects_update fun r read => by
          rw [readLine_eq_none_of_checksum checksum] at read
          cases read
      exact succ_ne_self _ (rejects.inconsistencies.symm.trans grows.inconsistencies)
    · intro data record isBranch loose exist
      have rejects := follows.branchRejected data isBranch fun record' form =>
        absurd form (not_branchForm_of_loose loose)
      have grows : parser.BranchGrows (parser.parseLine project line) file record := by
        rw [parseLine_of_branch current isBranch]
        obtain ⟨exact, tail, form, -, same, ends⟩ := loose
        exact branchGrows_of_readBranch (readBranch_eq_some_iff.2 ⟨exact, tail, form, same, ends⟩)
          exist
      exact succ_ne_self _ (rejects.inconsistencies.symm.trans grows.inconsistencies)
  · rintro ⟨noChecksum, notLoose⟩
    constructor
    case lineAccepted =>
      intro data record isLine form exist
      rw [parseLine_of_line current isLine]
      obtain plain | checksum := form
      · exact hitsGrow_of_readLine (readLine_eq_some_iff.2 plain) exist
      · exact absurd exist (noChecksum data record isLine checksum)
    case lineRejected =>
      intro data isLine noForm
      rw [parseLine_of_line current isLine]
      exact rejects_update fun r read => noForm r (.inl (readLine_eq_some_iff.1 read))
    case branchAccepted =>
      intro data record isBranch form exist
      rw [parseLine_of_branch current isBranch]
      apply branchGrows_of_readBranch _ exist
      refine readBranch_eq_some_iff.2 ⟨data, [], form, ?_, nofun⟩
      rw [trim_of_branchForm form, List.append_nil]
    case branchRejected =>
      intro data isBranch noForm
      rw [parseLine_of_branch current isBranch]
      refine rejects_update fun r read => ?_
      obtain ⟨exact, tail, form, same, ends⟩ := readBranch_eq_some_iff.1 read
      -- either the record is of the form itself, or there is something around it
      by_cases isExact : data = exact
      · exact noForm r (isExact ▸ form)
      · exact notLoose data r isBranch ⟨exact, tail, form, isExact, same, ends⟩

end LCOVParser

end Records

/-! ## A checksum -/

/-- A file of three lines, under whatever name. -/
def threeLines : Project Unit where
  lines _ := 3
  inputFile _ := some ()
  fileLocator _ := none

theorem followsGrammar_without_checksum :
    (LCOVParser.parse threeLines ["SF:a.js"]).FollowsGrammar threeLines () "DA:2,5" := by
  have current : (LCOVParser.parse threeLines ["SF:a.js"]).fileData = some () := rfl
  refine (LCOVParser.followsGrammar_iff_bare current "DA:2,5").mpr ⟨?_, ?_⟩
  · intro data record isLine checksum
    have same : data = "2,5".toList := by
      have known : afterStart "DA:" "DA:2,5" = some "2,5".toList := by decide
      exact (Option.some.inj (known.symm.trans isLine)).symm
    subst same
    have read : readLine "2,5".toList = some ⟨2, 5⟩ := by decide
    rw [readLine_eq_none_of_checksum checksum] at read
    cases read
  · intro data record isBranch
    have unknown : afterStart "BRDA:" "DA:2,5" = none := by decide
    rw [unknown] at isBranch
    cases isBranch

/-- The hits of the second line should grow by five. -/
theorem not_followsGrammar_checksum :
    ¬ (LCOVParser.parse threeLines ["SF:a.js"]).FollowsGrammar threeLines () "DA:2,5,abc" := by
  intro follows
  have plain : PlainLine "2,5".toList ⟨2, 5⟩ :=
    ⟨['2'], ['5'], by decide, by decide, by decide⟩
  have form : LineForm "2,5,abc".toList ⟨2, 5⟩ :=
    .inr ⟨"2,5".toList, "abc".toList, by decide, plain, by decide⟩
  have grows := follows.lineAccepted "2,5,abc".toList ⟨2, 5⟩ (by decide) form
    ⟨by decide, by decide⟩
  have counted := grows.inconsistencies
  revert counted
  decide

end Lcov

end SonarJS
