import SonarJS.Lcov.Parser

/-!
# What the reports say

Each line of a report contributes at most one thing: it covers a file, names a path
that is not resolved, counts executions or a taken branch, or is inconsistent. Which of
these it is depends on the lines before it only through the current file.

The parser is determined by the contributions. For each file it holds what the
contributions add up to, so their order does not matter. This is where the two results
come from: how exact the conditions of a line are, and that reports can be read in any
order.
-/

namespace SonarJS

namespace Lcov

/-- What a line contributes. -/
inductive Contribution (F : Type)
  | covers (file : F)
  | unresolved (path : String)
  | hit (file : F) (record : LineRecord)
  | branch (file : F) (record : BranchRecord)
  | inconsistent
deriving DecidableEq

section Contributions

variable {F : Type} (project : Project F)

/-- A record is accepted if it could be read and its line exists. -/
def accept {R : Type} (file : F) (line : R → BitVec 32) (contribute : R → Contribution F)
    (record : Option R) : Contribution F :=
  match record with
  | some record =>
    if checkLine (project.lines file) (line record) then contribute record else .inconsistent
  | none => .inconsistent

def contribution (current : Option F) (line : String) : Option (Contribution F) :=
  match afterStart "SF:" line with
  | some filePath =>
    match LCOVParser.inputFileForSourceFile project (String.ofList filePath) with
    | some inputFile => some (.covers inputFile)
    | none => some (.unresolved (String.ofList filePath))
  | none =>
    match current with
    | none => none
    | some file =>
      match afterStart "DA:" line with
      | some data => some (accept project file LineRecord.line (.hit file) (readLine data))
      | none =>
        match afterStart "BRDA:" line with
        | some data => some (accept project file BranchRecord.line (.branch file) (readBranch data))
        | none => none

/-- The current file after a line. -/
def nextFile (current : Option F) (line : String) : Option F :=
  match afterStart "SF:" line with
  | some filePath => LCOVParser.inputFileForSourceFile project (String.ofList filePath)
  | none => current

def contributions : Option F → List String → List (Contribution F)
  | _, [] => []
  | current, line :: lines =>
    (contribution project current line).toList ++
      contributions (nextFile project current line) lines

end Contributions

/-! ## What contributions add up to -/

section Data

variable {F : Type} [DecidableEq F]

/-- The accepted `BRDA` records of a file. -/
def branchesOf (file : F) (cs : List (Contribution F)) : List BranchRecord :=
  cs.filterMap fun
    | .branch file' record => if file' = file then some record else none
    | _ => none

/-- The accepted `DA` records of a file. -/
def hitsOf (file : F) (cs : List (Contribution F)) : List LineRecord :=
  cs.filterMap fun
    | .hit file' record => if file' = file then some record else none
    | _ => none

/-- The data of a file, from its accepted records. -/
def dataOf (file : F) (cs : List (Contribution F)) : FileData :=
  (branchesOf file cs).foldl FileData.addBranch ((hitsOf file cs).foldl FileData.addLine .new)

/-- The keys under which the branches of a line are counted. -/
def branchEntries (line : BitVec 32) (records : List BranchRecord) : List (String × BitVec 32) :=
  (records.filter fun record => record.line = line).map fun record =>
    (record.block ++ record.branch, record.taken)

def hitEntries (records : List LineRecord) : List (BitVec 32 × BitVec 32) :=
  records.map fun record => (record.line, record.executionCount)

theorem hits_foldl_addBranch (records : List BranchRecord) (fileData : FileData) :
    (records.foldl FileData.addBranch fileData).hits = fileData.hits := by
  induction records generalizing fileData with
  | nil => rfl
  | cons record records ih => exact ih _

theorem branches_foldl_addLine (records : List LineRecord) (fileData : FileData) :
    (records.foldl FileData.addLine fileData).branches = fileData.branches := by
  induction records generalizing fileData with
  | nil => rfl
  | cons record records ih => exact ih _

theorem hits_foldl_addLine (records : List LineRecord) (fileData : FileData) :
    (records.foldl FileData.addLine fileData).hits =
      (hitEntries records).foldl (fun m e => m.merge e.1 e.2) fileData.hits := by
  induction records generalizing fileData with
  | nil => rfl
  | cons record records ih => exact ih _

theorem branches_foldl_addBranch (records : List BranchRecord) (fileData : FileData) :
    (records.foldl FileData.addBranch fileData).branches =
      (records.map fun record => (record.line, record.block ++ record.branch, record.taken)).foldl
        (fun m e => m.mergeAt e.1 e.2.1 e.2.2) fileData.branches := by
  induction records generalizing fileData with
  | nil => rfl
  | cons record records ih => exact ih _

theorem get_hits_dataOf (file : F) (cs : List (Contribution F)) (line : BitVec 32) :
    (dataOf file cs).hits.get line = OrderedMap.total (hitEntries (hitsOf file cs)) line := by
  rw [dataOf, hits_foldl_addBranch, hits_foldl_addLine]
  exact OrderedMap.get_tally _ line

theorem get_branches_dataOf (file : F) (cs : List (Contribution F)) (line : BitVec 32) :
    (dataOf file cs).branches.get line =
      if line ∈ (branchesOf file cs).map BranchRecord.line then
        some (.tally (branchEntries line (branchesOf file cs)))
      else none := by
  rw [dataOf, branches_foldl_addBranch, branches_foldl_addLine]
  refine (OrderedMap.get_foldl_mergeAt _ line).trans ?_
  rw [List.map_map, List.filter_map, List.map_map]
  rfl

theorem dataOf_concat_hit (file : F) (cs : List (Contribution F)) (record : LineRecord) :
    dataOf file (cs ++ [.hit file record]) = (dataOf file cs).addLine record := by
  have hits : hitsOf file (cs ++ [.hit file record]) = hitsOf file cs ++ [record] := by
    simp [hitsOf]
  have branches : branchesOf file (cs ++ [.hit file record]) = branchesOf file cs := by
    simp [branchesOf]
  rw [dataOf, dataOf, hits, branches, List.foldl_append, FileData.addLine]
  -- a branch does not touch the hits, and a hit does not touch the branches
  apply FileData.ext
  · simp only [branches_foldl_addBranch]
    rfl
  · simp only [hits_foldl_addBranch]
    rfl

theorem dataOf_concat_branch (file : F) (cs : List (Contribution F)) (record : BranchRecord) :
    dataOf file (cs ++ [.branch file record]) = (dataOf file cs).addBranch record := by
  have hits : hitsOf file (cs ++ [.branch file record]) = hitsOf file cs := by
    simp [hitsOf]
  have branches : branchesOf file (cs ++ [.branch file record]) =
      branchesOf file cs ++ [record] := by
    simp [branchesOf]
  rw [dataOf, dataOf, hits, branches, List.foldl_append]
  rfl

/-! ## The parser reflects the contributions -/

structure LCOVParser.Reflects (parser : LCOVParser F) (current : Option F)
    (cs : List (Contribution F)) : Prop where
  fileData : parser.fileData = current
  entered : ∀ file, current = some file → .covers file ∈ cs
  untouched : ∀ file, .covers file ∉ cs → branchesOf file cs = [] ∧ hitsOf file cs = []
  files : ∀ file, parser.files.get file =
    if .covers file ∈ cs then some (dataOf file cs) else none
  unresolvedPaths : ∀ path, path ∈ parser.unresolvedPaths ↔ .unresolved path ∈ cs
  inconsistenciesCounter : parser.inconsistenciesCounter = BitVec.ofNat 32 (cs.count .inconsistent)

namespace LCOVParser.Reflects

variable {parser : LCOVParser F} {current : Option F} {cs : List (Contribution F)}

theorem new : (LCOVParser.new : LCOVParser F).Reflects none [] where
  fileData := rfl
  entered _ := nofun
  untouched _ _ := ⟨rfl, rfl⟩
  files _ := rfl
  unresolvedPaths path := by simp [LCOVParser.new]
  inconsistenciesCounter := rfl

theorem enter (h : parser.Reflects current cs) (inputFile : F) :
    (parser.enter inputFile).Reflects (some inputFile) (cs ++ [.covers inputFile]) where
  fileData := rfl
  entered file same := by
    cases same
    simp
  untouched file notCovered := by
    rw [List.mem_append, not_or] at notCovered
    obtain ⟨noBranches, noHits⟩ := h.untouched file notCovered.1
    exact ⟨by simpa [branchesOf] using noBranches, by simpa [hitsOf] using noHits⟩
  files file := by
    have data : dataOf file (cs ++ [.covers inputFile]) = dataOf file cs := by
      simp [dataOf, branchesOf, hitsOf]
    rw [data, LCOVParser.enter]
    by_cases same : file = inputFile
    · subst same
      simp only [List.mem_append, List.mem_singleton, or_true, if_true]
      by_cases known : .covers file ∈ cs
      · have present := h.files file
        rw [if_pos known] at present
        simp [present]
      · have absent := h.files file
        rw [if_neg known] at absent
        obtain ⟨noBranches, noHits⟩ := h.untouched file known
        simp [absent, dataOf, noBranches, noHits]
    · have other : (Contribution.covers file ∈ cs ++ [.covers inputFile]) ↔ .covers file ∈ cs := by
        simp [same]
      simp only [other, ← h.files file]
      split
      · rfl
      · simp [same]
  unresolvedPaths path := by simpa [LCOVParser.enter] using h.unresolvedPaths path
  inconsistenciesCounter := by simpa [LCOVParser.enter] using h.inconsistenciesCounter

theorem unresolved (h : parser.Reflects current cs) (path : String) :
    LCOVParser.Reflects
      { parser with fileData := none, unresolvedPaths := parser.unresolvedPaths.add path }
      none (cs ++ [.unresolved path]) where
  fileData := rfl
  entered _ := nofun
  untouched file notCovered := by
    rw [List.mem_append, not_or] at notCovered
    simpa [branchesOf, hitsOf] using h.untouched file notCovered.1
  files file := by
    simpa [dataOf, branchesOf, hitsOf] using h.files file
  unresolvedPaths path' := by simp [h.unresolvedPaths]
  inconsistenciesCounter := by simpa using h.inconsistenciesCounter

theorem inconsistent (h : parser.Reflects current cs) :
    LCOVParser.Reflects
      { parser with inconsistenciesCounter := parser.inconsistenciesCounter + 1 }
      current (cs ++ [.inconsistent]) where
  fileData := h.fileData
  entered file same := List.mem_append_left _ (h.entered file same)
  untouched file notCovered := by
    rw [List.mem_append, not_or] at notCovered
    simpa [branchesOf, hitsOf] using h.untouched file notCovered.1
  files file := by
    simpa [dataOf, branchesOf, hitsOf] using h.files file
  unresolvedPaths path := by simp [h.unresolvedPaths]
  inconsistenciesCounter := by
    simp [h.inconsistenciesCounter, BitVec.ofNat_add]

/-- A record of the current file. -/
theorem record {file : F} (h : parser.Reflects (some file) cs) {c : Contribution F}
    {fileData : FileData} (noFile : ∀ file', c ≠ .covers file')
    (noPath : ∀ path, c ≠ .unresolved path)
    (consistent : c ≠ .inconsistent)
    (data : dataOf file (cs ++ [c]) = fileData)
    (others : ∀ file', file' ≠ file → branchesOf file' (cs ++ [c]) = branchesOf file' cs ∧
      hitsOf file' (cs ++ [c]) = hitsOf file' cs) :
    LCOVParser.Reflects { parser with files := parser.files.set file fileData } (some file)
      (cs ++ [c]) where
  fileData := h.fileData
  entered file' same := List.mem_append_left _ (h.entered file' same)
  untouched file' notCovered := by
    rw [List.mem_append, not_or] at notCovered
    have other : file' ≠ file := by
      rintro rfl
      exact notCovered.1 (h.entered file' rfl)
    rw [(others file' other).1, (others file' other).2]
    exact h.untouched file' notCovered.1
  files file' := by
    have covers : .covers file' ∈ cs ++ [c] ↔ .covers file' ∈ cs := by
      simp [Ne.symm (noFile file')]
    simp only [OrderedMap.get_set, covers]
    by_cases same : file' = file
    · subst same
      rw [if_pos rfl, if_pos (h.entered file' rfl), data]
    · rw [if_neg same, h.files file', dataOf, dataOf, (others file' same).1, (others file' same).2]
  unresolvedPaths path := by simp [h.unresolvedPaths, Ne.symm (noPath path)]
  inconsistenciesCounter := by
    rw [h.inconsistenciesCounter, List.count_append, List.count_singleton]
    simp [consistent]

variable {project : Project F}

/-- A record of the current file, whether it is accepted or not. -/
theorem update {R : Type} {file : F} {line : R → BitVec 32} {add : FileData → R → FileData}
    {contribute : R → Contribution F} (h : parser.Reflects (some file) cs)
    (accepted : ∀ record, LCOVParser.Reflects
      { parser with
        files := parser.files.set file (add ((parser.files.get file).getD .new) record) }
      (some file) (cs ++ [contribute record]))
    (record : Option R) :
    (parser.update project file line add record).Reflects (some file)
      (cs ++ [accept project file line contribute record]) := by
  cases record with
  | none => exact h.inconsistent
  | some record =>
      rw [LCOVParser.update, accept]
      split
      · exact accepted record
      · exact h.inconsistent

theorem current_data {file : F} (h : parser.Reflects (some file) cs) :
    (parser.files.get file).getD .new = dataOf file cs := by
  rw [h.files file, if_pos (h.entered file rfl)]
  rfl

theorem parseLine (h : parser.Reflects current cs) (line : String) :
    (parser.parseLine project line).Reflects (nextFile project current line)
      (cs ++ (contribution project current line).toList) := by
  unfold LCOVParser.parseLine nextFile contribution
  rw [h.fileData]
  cases afterStart "SF:" line with
  | some filePath =>
      cases found : LCOVParser.inputFileForSourceFile project (String.ofList filePath) with
      | some inputFile => simpa [found] using h.enter inputFile
      | none => simpa [found] using h.unresolved (String.ofList filePath)
  | none =>
      cases current with
      | none => simpa using h
      | some file =>
          cases afterStart "DA:" line with
          | some data =>
              refine h.update (fun record => ?_) (readLine data)
              rw [h.current_data]
              refine h.record nofun nofun nofun (dataOf_concat_hit file cs record) ?_
              intro file' other
              simp [branchesOf, hitsOf, Ne.symm other]
          | none =>
              cases afterStart "BRDA:" line with
              | some data =>
                  refine h.update (fun record => ?_) (readBranch data)
                  rw [h.current_data]
                  refine h.record nofun nofun nofun (dataOf_concat_branch file cs record) ?_
                  intro file' other
                  simp [branchesOf, hitsOf, Ne.symm other]
              | none => simpa using h

theorem foldl_parseLine (h : parser.Reflects current cs) (lines : List String) :
    (lines.foldl (LCOVParser.parseLine project) parser).Reflects
      (lines.foldl (nextFile project) current) (cs ++ contributions project current lines) := by
  induction lines generalizing parser current cs with
  | nil => simpa [contributions] using h
  | cons line lines ih =>
      rw [List.foldl_cons, List.foldl_cons, contributions, ← List.append_assoc]
      exact ih (h.parseLine line)

theorem parse (project : Project F) (lines : List String) :
    (LCOVParser.parse project lines).Reflects (lines.foldl (nextFile project) none)
      (contributions project none lines) :=
  new.foldl_parseLine lines

end LCOVParser.Reflects

end Data

/-! ## The conditions of a line -/

/-- The blocks and branches of some records, each pair once. -/
def branchPairs (records : List BranchRecord) : Finset (String × String) :=
  (records.map fun record => (record.block, record.branch)).toFinset

/-- How often a branch was taken, all in all. -/
def takenSum (records : List BranchRecord) (pair : String × String) : ℤ :=
  ((records.filter fun record => (record.block, record.branch) = pair).map
    fun record => record.taken.toInt).sum

/-- The sum as it comes out of additions of 32-bit integers. -/
def takenSum32 (records : List BranchRecord) (pair : String × String) : ℤ :=
  (takenSum records pair).bmod (2 ^ 32)

/-- No two branches have the same text once their numbers are written together. -/
def TellsApart (records : List BranchRecord) : Prop :=
  ∀ pair ∈ branchPairs records, ∀ pair' ∈ branchPairs records,
    pair.1 ++ pair.2 = pair'.1 ++ pair'.2 → pair = pair'

/-- As many sums fall out of the positive numbers by an overflow as come into them. Both
are none if no sum overflows. -/
def OverflowsCancel (records : List BranchRecord) : Prop :=
  ((branchPairs records).filter fun pair =>
      0 < takenSum records pair ∧ ¬ 0 < takenSum32 records pair).card =
    ((branchPairs records).filter fun pair =>
      ¬ 0 < takenSum records pair ∧ 0 < takenSum32 records pair).card

theorem toInt_sum (l : List (BitVec 32)) :
    l.sum.toInt = (l.map BitVec.toInt).sum.bmod (2 ^ 32) := by
  induction l with
  | nil => rfl
  | cons x l ih => rw [List.sum_cons, BitVec.toInt_add, ih, List.map_cons, List.sum_cons,
      Int.add_bmod_bmod]

section Conditions

variable {records : List BranchRecord} {line : BitVec 32}

theorem branchEntries_eq (ofLine : ∀ record ∈ records, record.line = line) :
    branchEntries line records =
      records.map fun record => (record.block ++ record.branch, record.taken) := by
  have all : (records.filter fun record => record.line = line) = records :=
    List.filter_eq_self.mpr fun record member => decide_eq_true (ofLine record member)
  rw [branchEntries, all]

theorem keys_branchEntries (ofLine : ∀ record ∈ records, record.line = line) :
    ((branchEntries line records).map Prod.fst).toFinset =
      (branchPairs records).image fun pair => pair.1 ++ pair.2 := by
  ext key
  rw [branchEntries_eq ofLine]
  simp [branchPairs]

/-- The number of entries is right exactly if the branches can be told apart. -/
theorem size_tally_branchEntries (ofLine : ∀ record ∈ records, record.line = line) :
    (OrderedMap.tally (branchEntries line records)).size = (branchPairs records).card ↔
      TellsApart records := by
  rw [OrderedMap.size_tally, keys_branchEntries ofLine, Finset.card_image_iff]
  constructor
  · intro injective pair member pair' member' same
    exact injective member member' same
  · intro distinct pair member pair' member' same
    exact distinct pair member pair' member' same

/-- The sum under the key of a branch. -/
theorem sum_branchEntries (ofLine : ∀ record ∈ records, record.line = line)
    (distinct : TellsApart records) {pair : String × String} (member : pair ∈ branchPairs records) :
    (((branchEntries line records).filter fun e => e.1 = pair.1 ++ pair.2).map Prod.snd).sum.toInt =
      takenSum32 records pair := by
  have same : (records.filter fun record => record.block ++ record.branch = pair.1 ++ pair.2) =
      records.filter fun record => (record.block, record.branch) = pair := by
    apply List.filter_congr
    intro record inRecords
    have known : (record.block, record.branch) ∈ branchPairs records := by
      rw [branchPairs, List.mem_toFinset]
      exact List.mem_map_of_mem inRecords
    rw [decide_eq_decide]
    constructor
    · exact distinct _ known _ member
    · rintro rfl
      rfl
  rw [branchEntries_eq ofLine, List.filter_map, List.map_map, toInt_sum, List.map_map]
  simp only [Function.comp_def]
  rw [same]
  rfl

theorem covered_tally_branchEntries (ofLine : ∀ record ∈ records, record.line = line)
    (distinct : TellsApart records) :
    FileData.covered (.tally (branchEntries line records)) =
      ((branchPairs records).filter fun pair => 0 < takenSum32 records pair).card := by
  rw [FileData.covered, OrderedMap.countValues_tally, keys_branchEntries ofLine,
    Finset.filter_image, Finset.card_image_of_injOn]
  · congr 1
    apply Finset.filter_congr
    intro pair member
    rw [sum_branchEntries ofLine distinct member]
    exact decide_eq_true_iff
  · intro pair member pair' member' same
    exact distinct pair (Finset.mem_filter.mp member).1 pair' (Finset.mem_filter.mp member').1 same

theorem card_takenSum32_eq : ((branchPairs records).filter fun pair =>
      0 < takenSum32 records pair).card =
    ((branchPairs records).filter fun pair => 0 < takenSum records pair).card ↔
      OverflowsCancel records := by
  rw [OverflowsCancel]
  simp only [and_comm (a := ¬ _)]
  rw [Finset.filter_and_not, Finset.filter_and_not, Finset.card_sdiff_eq_card_sdiff_iff]
  exact eq_comm

variable {F : Type} [DecidableEq F]

/-- The accepted `BRDA` records of a line of a file. -/
def acceptedBranches (project : Project F) (lines : List String) (file : F) (line : BitVec 32) :
    List BranchRecord :=
  (branchesOf file (contributions project none lines)).filter fun record => record.line = line

/-- The conditions of a line are its branches, and the covered ones are those that were
taken. -/
def ConditionsExact (project : Project F) (lines : List String) (file : F) (line : BitVec 32) :
    Prop :=
  ∃ coverage, (LCOVParser.parse project lines).coverageByFile file = some coverage ∧
    coverage.conditions line =
      [((branchPairs (acceptedBranches project lines file line)).card,
        ((branchPairs (acceptedBranches project lines file line)).filter fun pair =>
          0 < takenSum (acceptedBranches project lines file line) pair).card)]

/-- What is reported for a line with a branch. -/
theorem exists_conditions_eq {project : Project F} {lines : List String} {file : F}
    (accepted : acceptedBranches project lines file line ≠ []) :
    ∃ coverage, (LCOVParser.parse project lines).coverageByFile file = some coverage ∧
      coverage.conditions line =
        [((OrderedMap.tally (branchEntries line (acceptedBranches project lines file line))).size,
          FileData.covered
            (.tally (branchEntries line (acceptedBranches project lines file line))))] := by
  obtain ⟨record, member⟩ := List.exists_mem_of_ne_nil _ accepted
  rw [acceptedBranches, List.mem_filter] at member
  have reflects := LCOVParser.Reflects.parse project lines
  have covers : .covers file ∈ contributions project none lines := by
    by_contra notCovered
    rw [(reflects.untouched file notCovered).1] at member
    exact List.not_mem_nil member.1
  have ofLine : line ∈ (branchesOf file (contributions project none lines)).map
      BranchRecord.line :=
    List.mem_map.mpr ⟨record, member.1, of_decide_eq_true member.2⟩
  have entries : branchEntries line (branchesOf file (contributions project none lines)) =
      branchEntries line (acceptedBranches project lines file line) := by
    rw [acceptedBranches, branchEntries, branchEntries, List.filter_filter]
    simp
  refine ⟨(dataOf file (contributions project none lines)).save, ?_, ?_⟩
  · rw [LCOVParser.coverageByFile, reflects.files file, if_pos covers]
    rfl
  · show ((dataOf file (contributions project none lines)).branches.get line).toList.map _ = _
    rw [get_branches_dataOf, if_pos ofLine, entries]
    rfl

/-- The conditions of a line are exact exactly if its branches are told apart by the
text of their numbers, and overflows of the sums cancel out. -/
theorem conditionsExact_iff (project : Project F) (lines : List String) (file : F)
    (line : BitVec 32) (accepted : acceptedBranches project lines file line ≠ []) :
    ConditionsExact project lines file line ↔
      TellsApart (acceptedBranches project lines file line) ∧
        OverflowsCancel (acceptedBranches project lines file line) := by
  obtain ⟨coverage, covered, conditions⟩ := exists_conditions_eq accepted
  have ofLine : ∀ record ∈ acceptedBranches project lines file line, record.line = line :=
    fun record member => of_decide_eq_true (List.mem_filter.mp member).2
  have exact_ : ConditionsExact project lines file line ↔
      [((OrderedMap.tally (branchEntries line (acceptedBranches project lines file line))).size,
          FileData.covered
            (.tally (branchEntries line (acceptedBranches project lines file line))))] =
        [((branchPairs (acceptedBranches project lines file line)).card,
          ((branchPairs (acceptedBranches project lines file line)).filter fun pair =>
            0 < takenSum (acceptedBranches project lines file line) pair).card)] := by
    rw [ConditionsExact, covered, ← conditions]
    simp
  rw [exact_, List.cons.injEq, Prod.mk.injEq, and_iff_left rfl, size_tally_branchEntries ofLine]
  apply and_congr_right
  intro distinct
  rw [covered_tally_branchEntries ofLine distinct]
  exact card_takenSum32_eq

end Conditions

/-- A project with a single file, which has ten lines. -/
def oneFile : Project String where
  lines _ := 10
  inputFile path := if path = "src/a.js" then some path else none
  fileLocator _ := none

/-- Branch 11 of block 1 and branch 1 of block 11 are counted as one. -/
theorem conditions_conflate_branches :
    acceptedBranches oneFile ["SF:src/a.js", "BRDA:1,1,11,1", "BRDA:1,11,1,0"] "src/a.js" 1 ≠ [] ∧
      ¬ ConditionsExact oneFile ["SF:src/a.js", "BRDA:1,1,11,1", "BRDA:1,11,1,0"] "src/a.js" 1 := by
  refine ⟨by decide, ?_⟩
  rintro ⟨coverage, covered, conditions⟩
  have reported : (((LCOVParser.parse oneFile
      ["SF:src/a.js", "BRDA:1,1,11,1", "BRDA:1,11,1,0"]).coverageByFile "src/a.js").map
        fun coverage => coverage.conditions 1) = some [(1, 1)] := by
    decide
  rw [covered, Option.map_some, conditions] at reported
  revert reported
  decide

theorem conditionsExact_of_two_blocks :
    ConditionsExact oneFile ["SF:src/a.js", "BRDA:1,0,0,2", "BRDA:1,0,1,-", "BRDA:1,1,0,1"]
      "src/a.js" 1 := by
  refine (conditionsExact_iff oneFile _ "src/a.js" 1 (by decide)).mpr ⟨?_, ?_⟩
  · unfold TellsApart
    decide
  · unfold OverflowsCancel
    decide

/-! ## The order of the reports -/

/-- No `DA` or `BRDA` record comes before the first `SF` record. -/
def RecordsFollowFile (report : List String) : Prop :=
  ∀ line ∈ report.takeWhile fun line => afterStart "SF:" line = none,
    afterStart "DA:" line = none ∧ afterStart "BRDA:" line = none

instance (report : List String) : Decidable (RecordsFollowFile report) :=
  inferInstanceAs (Decidable (∀ line ∈ _, _))

section Order

variable {F : Type} {project : Project F}

theorem contributions_append (current : Option F) (lines lines' : List String) :
    contributions project current (lines ++ lines') = contributions project current lines ++
      contributions project (lines.foldl (nextFile project) current) lines' := by
  induction lines generalizing current with
  | nil => rfl
  | cons line lines ih =>
      rw [List.cons_append, contributions, contributions, List.foldl_cons, ih, List.append_assoc]

/-- Where records follow a file of their own, it does not matter which file was current
before. -/
theorem contributions_eq {report : List String} (follow : RecordsFollowFile report)
    (current : Option F) :
    contributions project current report = contributions project none report := by
  induction report with
  | nil => rfl
  | cons line report ih =>
      rw [contributions, contributions]
      cases start : afterStart "SF:" line with
      | some filePath => simp only [contribution, nextFile, start]
      | none =>
          have takes : (line :: report).takeWhile (fun line => afterStart "SF:" line = none) =
              line :: report.takeWhile fun line => afterStart "SF:" line = none := by
            simp [start]
          rw [RecordsFollowFile, takes, List.forall_mem_cons] at follow
          obtain ⟨⟨noHits, noBranches⟩, follow⟩ := follow
          have nothing (current : Option F) : contribution project current line = none := by
            cases current <;> simp [contribution, start, noHits, noBranches]
          have same (current : Option F) : nextFile project current line = current := by
            simp [nextFile, start]
          rw [nothing, nothing, same, same, ih follow]

theorem contributions_flatten {reports : List (List String)}
    (follow : ∀ report ∈ reports, RecordsFollowFile report) (current : Option F) :
    contributions project current reports.flatten =
      reports.flatMap (contributions project none) := by
  induction reports generalizing current with
  | nil => rfl
  | cons report reports ih =>
      rw [List.forall_mem_cons] at follow
      rw [List.flatten_cons, contributions_append, contributions_eq follow.1, ih follow.2,
        List.flatMap_cons]

variable [DecidableEq F] {file : F} {cs cs' : List (Contribution F)}

/-- What is saved does not depend on the order of the contributions. -/
theorem save_dataOf_perm (perm : cs.Perm cs') :
    (dataOf file cs).save = (dataOf file cs').save := by
  have hits (line : BitVec 32) :
      (dataOf file cs).hits.get line = (dataOf file cs').hits.get line := by
    rw [get_hits_dataOf, get_hits_dataOf]
    exact OrderedMap.total_perm ((perm.filterMap _).map _) line
  have branches (line : BitVec 32) {β : Type} (f : OrderedMap String (BitVec 32) → β)
      (congr_ : ∀ m m' : OrderedMap String (BitVec 32),
        (∀ key, m.get key = m'.get key) → f m = f m') :
      ((dataOf file cs).branches.get line).toList.map f =
        ((dataOf file cs').branches.get line).toList.map f := by
    have permBranches : (branchesOf file cs).Perm (branchesOf file cs') := perm.filterMap _
    rw [get_branches_dataOf, get_branches_dataOf]
    simp only [(permBranches.map BranchRecord.line).mem_iff]
    split
    · refine congrArg (fun b => [b]) (congr_ _ _ fun key => ?_)
      rw [OrderedMap.get_tally, OrderedMap.get_tally]
      exact OrderedMap.total_perm ((permBranches.filter _).map _) key
    · rfl
  have covered_ (m m' : OrderedMap String (BitVec 32)) (same : ∀ key, m.get key = m'.get key) :
      FileData.covered m = FileData.covered m' := OrderedMap.countValues_eq_of_get_eq same _
  simp only [FileData.save, NewCoverage.mk.injEq]
  constructor
  · funext line
    rw [hits, branches line _ fun m m' same => by rw [covered_ m m' same]]
  · funext line
    exact branches line _ fun m m' same => by
      rw [covered_ m m' same, OrderedMap.size_eq_of_get_eq same]

/-- What a parser has counted for a line, if there was a `DA` record. -/
def LCOVParser.hits (parser : LCOVParser F) (file : F) (line : BitVec 32) : Option (BitVec 32) :=
  (parser.files.get file).bind fun fileData => fileData.hits.get line

/-- What a parser has counted for a branch of a line, if there was a `BRDA` record. -/
def LCOVParser.taken (parser : LCOVParser F) (file : F) (line : BitVec 32) (branch : String) :
    Option (BitVec 32) :=
  (parser.files.get file).bind fun fileData =>
    (fileData.branches.get line).bind fun branches => branches.get branch

/-- All counts are the sums of the counts of the parts. -/
structure LCOVParser.IsSumOf (whole : LCOVParser F) (parts : List (LCOVParser F)) : Prop where
  files : ∀ file, (whole.files.get file).isSome ↔ ∃ part ∈ parts, (part.files.get file).isSome
  hits : ∀ file line, whole.hits file line =
    OrderedMap.addUp (parts.map fun part => part.hits file line)
  taken : ∀ file line branch, whole.taken file line branch =
    OrderedMap.addUp (parts.map fun part => part.taken file line branch)
  unresolvedPaths : ∀ path, path ∈ whole.unresolvedPaths ↔
    ∃ part ∈ parts, path ∈ part.unresolvedPaths
  inconsistenciesCounter : whole.inconsistenciesCounter =
    (parts.map LCOVParser.inconsistenciesCounter).sum

namespace LCOVParser.Reflects

variable {parser : LCOVParser F} {current : Option F}

theorem isSome_files (h : parser.Reflects current cs) (file : F) :
    (parser.files.get file).isSome ↔ .covers file ∈ cs := by
  rw [h.files file]
  split <;> simp [*]

theorem hits_eq (h : parser.Reflects current cs) (file : F) (line : BitVec 32) :
    parser.hits file line = OrderedMap.total (hitEntries (hitsOf file cs)) line := by
  rw [LCOVParser.hits, h.files file]
  split
  · exact get_hits_dataOf file cs line
  · rename_i notCovered
    rw [(h.untouched file notCovered).2]
    rfl

theorem taken_eq (h : parser.Reflects current cs) (file : F) (line : BitVec 32) (branch : String) :
    parser.taken file line branch =
      OrderedMap.total (branchEntries line (branchesOf file cs)) branch := by
  rw [LCOVParser.taken, h.files file]
  split
  · rw [Option.bind_some, get_branches_dataOf]
    split
    · exact OrderedMap.get_tally _ branch
    · rename_i noBranch
      have nothing : ((branchesOf file cs).filter fun record => record.line = line) = [] := by
        rw [List.filter_eq_nil_iff]
        intro record member same
        exact noBranch (List.mem_map.mpr ⟨record, member, of_decide_eq_true same⟩)
      rw [branchEntries, nothing]
      rfl
  · rename_i notCovered
    rw [(h.untouched file notCovered).1]
    rfl

end LCOVParser.Reflects

theorem ofNat_count_flatMap (reports : List (List String)) :
    BitVec.ofNat 32 ((reports.flatMap (contributions project none)).count .inconsistent) =
      (reports.map fun report =>
        BitVec.ofNat 32 ((contributions project none report).count .inconsistent)).sum := by
  induction reports with
  | nil => rfl
  | cons report reports ih =>
      rw [List.flatMap_cons, List.count_append, BitVec.ofNat_add, ih, List.map_cons, List.sum_cons]

/-- The reports are added up. -/
theorem isSumOf_create {reports : List (List String)}
    (follow : ∀ report ∈ reports, RecordsFollowFile report) :
    (LCOVParser.create project reports).IsSumOf
      (reports.map fun report => LCOVParser.create project [report]) := by
  have whole := LCOVParser.Reflects.parse project reports.flatten
  rw [contributions_flatten follow] at whole
  have part (report : List String) : (LCOVParser.create project [report]).Reflects
      (report.foldl (nextFile project) none) (contributions project none report) := by
    rw [LCOVParser.create, List.flatten_singleton]
    exact LCOVParser.Reflects.parse project report
  refine ⟨fun file => ?_, fun file line => ?_, fun file line branch => ?_, fun path => ?_, ?_⟩
  · rw [LCOVParser.create, whole.isSome_files]
    simp [(part _).isSome_files]
  · rw [LCOVParser.create, whole.hits_eq]
    simp only [List.map_map, Function.comp_def, (part _).hits_eq]
    rw [← OrderedMap.total_flatMap, hitsOf, List.filterMap_flatMap, hitEntries, List.map_flatMap]
    rfl
  · rw [LCOVParser.create, whole.taken_eq]
    simp only [List.map_map, Function.comp_def, (part _).taken_eq]
    rw [← OrderedMap.total_flatMap, branchesOf, List.filterMap_flatMap, branchEntries,
      List.filter_flatMap, List.map_flatMap]
    rfl
  · rw [LCOVParser.create, whole.unresolvedPaths]
    simp [(part _).unresolvedPaths]
  · rw [LCOVParser.create, whole.inconsistenciesCounter, ofNat_count_flatMap]
    simp only [List.map_map, Function.comp_def, (part _).inconsistenciesCounter]

/-- Reports whose records follow a file of their own can be read in any order, with the
same coverage of every file, the same unresolved paths and the same number of
inconsistencies, and together they give the sum of what each of them gives. -/
theorem create_perm (project : Project F) (reports reports' : List (List String))
    (perm : reports.Perm reports') (follow : ∀ report ∈ reports, RecordsFollowFile report) :
    (∀ file, (LCOVParser.create project reports).coverageByFile file =
        (LCOVParser.create project reports').coverageByFile file) ∧
      (LCOVParser.create project reports).unresolvedPaths.toFinset =
        (LCOVParser.create project reports').unresolvedPaths.toFinset ∧
      (LCOVParser.create project reports).inconsistenciesCounter =
        (LCOVParser.create project reports').inconsistenciesCounter ∧
      (LCOVParser.create project reports).IsSumOf
        (reports.map fun report => LCOVParser.create project [report]) := by
  have follow' : ∀ report ∈ reports', RecordsFollowFile report :=
    fun report member => follow report (perm.mem_iff.mpr member)
  have first := LCOVParser.Reflects.parse project reports.flatten
  have second := LCOVParser.Reflects.parse project reports'.flatten
  rw [contributions_flatten follow] at first
  rw [contributions_flatten follow'] at second
  have permAll : (reports.flatMap (contributions project none)).Perm
      (reports'.flatMap (contributions project none)) := perm.flatMap_right _
  refine ⟨fun file => ?_, ?_, ?_, isSumOf_create follow⟩
  · rw [LCOVParser.create, LCOVParser.create, LCOVParser.coverageByFile, LCOVParser.coverageByFile,
      first.files, second.files]
    simp only [permAll.mem_iff]
    split
    · exact congrArg some (save_dataOf_perm permAll)
    · rfl
  · ext path
    rw [OrderedSet.mem_toFinset, OrderedSet.mem_toFinset, LCOVParser.create, LCOVParser.create,
      first.unresolvedPaths, second.unresolvedPaths, permAll.mem_iff]
  · rw [LCOVParser.create, LCOVParser.create, first.inconsistenciesCounter,
      second.inconsistenciesCounter, permAll.count_eq]

end Order

theorem create_swapped_reports :
    (LCOVParser.create oneFile [["SF:src/a.js", "DA:1,2"], ["SF:lib/b.js", "DA:x", "end_of_record"]]
        ).coverageByFile "src/a.js" =
      (LCOVParser.create oneFile
        [["SF:lib/b.js", "DA:x", "end_of_record"], ["SF:src/a.js", "DA:1,2"]]
        ).coverageByFile "src/a.js" :=
  (create_perm oneFile _ _ (List.Perm.swap _ _ []) (by decide)).1 "src/a.js"

end Lcov

end SonarJS
