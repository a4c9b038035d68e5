import Mathlib.Data.Set.Function
import Mathlib.Data.BitVec
import SonarJS.Foundation.Tally

/-!
# LCOV reports

`LCOVParser` goes over the lines of all reports, one after another. An `SF` record
says to which file the records after it belong, `DA` records count the executions of a
line, and `BRDA` records count how often a branch of a line was taken. What cannot be
read is counted as an inconsistency and has no other effect.

The maps of the parser are hash maps, so the order of their entries means nothing, and
nothing below depends on it. How a path is resolved is a parameter.
-/

namespace SonarJS

namespace Lcov

/-! ## Strings and integers of the platform -/

/-- The zeros of the decimal digits that `Character.digit` knows. -/
def decimalZeros : List ℕ :=
  [0x0030, 0x0660, 0x06F0, 0x07C0, 0x0966, 0x09E6, 0x0A66, 0x0AE6, 0x0B66, 0x0BE6, 0x0C66, 0x0CE6,
    0x0D66, 0x0DE6, 0x0E50, 0x0ED0, 0x0F20, 0x1040, 0x1090, 0x17E0, 0x1810, 0x1946, 0x19D0, 0x1A80,
    0x1A90, 0x1B50, 0x1BB0, 0x1C40, 0x1C50, 0xA620, 0xA8D0, 0xA900, 0xA9D0, 0xA9F0, 0xAA50, 0xABF0,
    0xFF10]

/-- `Character.digit(c, 10)`. -/
def digit (c : Char) : Option ℕ :=
  (decimalZeros.find? fun start => start ≤ c.toNat ∧ c.toNat < start + 10).map (c.toNat - ·)

/-- `Integer.valueOf`, without a value where it throws a `NumberFormatException`. -/
def Integer.valueOf (s : String) : Option (BitVec 32) :=
  let (negative, digits) := match s.toList with
    | '-' :: digits => (true, digits)
    | '+' :: digits => (false, digits)
    | digits => (false, digits)
  if digits.isEmpty then none
  else do
    let values ← digits.mapM digit
    let magnitude : ℤ := values.foldl (fun n d => n * 10 + d) 0
    let value := if negative then -magnitude else magnitude
    if -2 ^ 31 ≤ value ∧ value < 2 ^ 31 then some (BitVec.ofInt 32 value) else none

/-- `String.trim`. -/
def trim (s : List Char) : List Char :=
  ((s.dropWhile fun c => c.toNat ≤ 0x20).reverse.dropWhile fun c => c.toNat ≤ 0x20).reverse

/-- `split(",")`: the pieces without the empty ones at the end. Where nothing is split,
the whole string is the only piece. -/
def split (s : List Char) : List (List Char) :=
  if ',' ∈ s then ((s.splitOn ',').reverse.dropWhile List.isEmpty).reverse else [s]

/-- The rest of a string that starts with a prefix. -/
def afterStart (start : String) (line : String) : Option (List Char) :=
  if start.toList.isPrefixOf line.toList then some (line.toList.drop start.length) else none

/-! ## Records -/

/-- `BRDA:<line number>,<block number>,<branch number>,<taken>`; what stands for the
numbers of the block and of the branch is not looked at. -/
structure BranchRecord where
  line : BitVec 32
  block : String
  branch : String
  taken : BitVec 32
deriving DecidableEq

/-- The `try` block of `parseBranchCoverage` up to the call. -/
def readBranch (data : List Char) : Option BranchRecord :=
  match split (trim data) with
  | lineNumber :: block :: branch :: taken :: _ => do
    let line ← Integer.valueOf (String.ofList lineNumber)
    let taken ← if taken = ['-'] then some 0 else Integer.valueOf (String.ofList taken)
    return ⟨line, String.ofList block, String.ofList branch, taken⟩
  | _ => none

/-- `DA:<line number>,<execution count>[,<checksum>]`. -/
structure LineRecord where
  line : BitVec 32
  executionCount : BitVec 32
deriving DecidableEq

/-- The `try` block of `parseLineCoverage` up to the call. All that follows the first
comma is taken for the count. -/
def readLine (execution : List Char) : Option LineRecord :=
  if ',' ∈ execution then do
    let lineNumber := execution.takeWhile (· ≠ ',')
    let executionCount := execution.drop (lineNumber.length + 1)
    let line ← Integer.valueOf (String.ofList lineNumber)
    let executionCount ← Integer.valueOf (String.ofList executionCount)
    return ⟨line, executionCount⟩
  else none

/-! ## The data of a file -/

@[ext] structure FileData where
  branches : OrderedMap (BitVec 32) (OrderedMap String (BitVec 32))
  hits : OrderedMap (BitVec 32) (BitVec 32)
deriving DecidableEq

/-- What `NewCoverage` is told of each line, in the order in which it is told. -/
structure NewCoverage where
  lineHits : BitVec 32 → List (BitVec 32)
  conditions : BitVec 32 → List (ℕ × ℕ)

/-- `checkLine` does not throw. -/
def checkLine (linesInFile lineNumber : BitVec 32) : Bool :=
  1 ≤ lineNumber.toInt && lineNumber.toInt ≤ linesInFile.toInt

namespace FileData

def new : FileData := ⟨.empty, .empty⟩

/-- `addBranch`, once `checkLine` has passed. The key of a branch is the text of both of
its numbers. -/
def addBranch (fileData : FileData) (record : BranchRecord) : FileData :=
  { fileData with branches :=
      fileData.branches.mergeAt record.line (record.block ++ record.branch) record.taken }

/-- `addLine`, once `checkLine` has passed. -/
def addLine (fileData : FileData) (record : LineRecord) : FileData :=
  { fileData with hits := fileData.hits.merge record.line record.executionCount }

/-- The number of branches that have been taken. -/
def covered (branches : OrderedMap String (BitVec 32)) : ℕ :=
  branches.countValues fun taken => 0 < taken.toInt

def save (fileData : FileData) : NewCoverage where
  lineHits line := (fileData.hits.get line).toList ++ (fileData.branches.get line).toList.map
    fun branches => (fileData.hits.get line).getD 0 + BitVec.ofNat 32 (covered branches)
  conditions line := (fileData.branches.get line).toList.map
    fun branches => (branches.size, covered branches)

end FileData

/-! ## The parser -/

/-- The input files, with how a path is resolved by the file system and by the
`FileLocator`. -/
structure Project (F : Type) where
  lines : F → BitVec 32
  inputFile : String → Option F
  fileLocator : String → Option F

structure LCOVParser (F : Type) where
  files : OrderedMap F FileData
  fileData : Option F
  unresolvedPaths : OrderedSet String
  inconsistenciesCounter : BitVec 32

section Parser

variable {F : Type} [DecidableEq F] (project : Project F)

namespace LCOVParser

def new : LCOVParser F := ⟨.empty, none, .empty, 0⟩

/-- `inputFileForSourceFile`, without the record of an unresolved path. -/
def inputFileForSourceFile (filePath : String) : Option F :=
  match project.inputFile filePath with
  | some inputFile => some inputFile
  | none => project.fileLocator filePath

/-- `files.computeIfAbsent`. -/
def enter (parser : LCOVParser F) (inputFile : F) : LCOVParser F :=
  { parser with
    files := match parser.files.get inputFile with
      | some _ => parser.files
      | none => parser.files.set inputFile .new
    fileData := some inputFile }

/-- The data of the current file after a record that could be read, or one more
inconsistency. -/
def update {R : Type} (parser : LCOVParser F) (file : F) (line : R → BitVec 32)
    (add : FileData → R → FileData) (record : Option R) : LCOVParser F :=
  match record with
  | some record =>
    if checkLine (project.lines file) (line record) then
      { parser with
        files := parser.files.set file (add ((parser.files.get file).getD .new) record) }
    else { parser with inconsistenciesCounter := parser.inconsistenciesCounter + 1 }
  | none => { parser with inconsistenciesCounter := parser.inconsistenciesCounter + 1 }

def parseBranchCoverage (parser : LCOVParser F) (file : F) (data : List Char) : LCOVParser F :=
  parser.update project file BranchRecord.line FileData.addBranch (readBranch data)

def parseLineCoverage (parser : LCOVParser F) (file : F) (data : List Char) : LCOVParser F :=
  parser.update project file LineRecord.line FileData.addLine (readLine data)

/-- The body of the loop of `parse`. -/
def parseLine (parser : LCOVParser F) (line : String) : LCOVParser F :=
  match afterStart "SF:" line with
  | some filePath =>
    match inputFileForSourceFile project (String.ofList filePath) with
    | some inputFile => parser.enter inputFile
    | none =>
      { parser with
        fileData := none
        unresolvedPaths := parser.unresolvedPaths.add (String.ofList filePath) }
  | none =>
    match parser.fileData with
    | none => parser
    | some file =>
      match afterStart "DA:" line with
      | some data => parser.parseLineCoverage project file data
      | none =>
        match afterStart "BRDA:" line with
        | some data => parser.parseBranchCoverage project file data
        | none => parser

def parse (lines : List String) : LCOVParser F := lines.foldl (parseLine project) new

/-- `create`, from the lines of each report. -/
def create (reports : List (List String)) : LCOVParser F := parse project reports.flatten

def coverageByFile (parser : LCOVParser F) (file : F) : Option NewCoverage :=
  (parser.files.get file).map FileData.save

end LCOVParser

end Parser

end Lcov

end SonarJS
