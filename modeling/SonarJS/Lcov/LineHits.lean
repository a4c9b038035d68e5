import Mathlib.Algebra.Order.BigOperators.Group.List
import Mathlib.Algebra.Order.Ring.Int
import SonarJS.Lcov.Coverage

/-!
# The hits of a line

`FileData.save` tells for a line the sum of its execution counts, and then, if the line has
branches, this sum with the number of covered conditions added. The sums are sums of 32-bit
integers. They are exact, or happen to be the largest integer where they are not, exactly
if the exact number of hits does not overflow or overflows to this very integer.
-/

namespace SonarJS

namespace Lcov

variable {F : Type} [DecidableEq F]

section Definitions

variable (project : Project F) (lines : List String) (file : F) (line : BitVec 32)

/-- The accepted execution counts of a line of a file. -/
def executionCounts : List (BitVec 32) :=
  ((hitsOf file (contributions project none lines)).filter fun record => record.line = line).map
    LineRecord.executionCount

/-- What is told last of the hits of a line. Each value replaces the one before it. -/
def reportedHits : Option (BitVec 32) :=
  ((LCOVParser.parse project lines).coverageByFile file).bind fun coverage =>
    (coverage.lineHits line).getLast?

/-- The covered conditions that are reported for a line. -/
def coveredConditions : ℕ :=
  (((LCOVParser.parse project lines).coverageByFile file).map fun coverage =>
    ((coverage.conditions line).map Prod.snd).sum).getD 0

/-- The sum of the execution counts, with the covered conditions. -/
def exactHits : ℤ :=
  ((executionCounts project lines file line).map BitVec.toInt).sum +
    coveredConditions project lines file line

/-- The reported hits are exact, or capped at the largest integer. -/
def HitsExact : Prop :=
  ∀ hits, reportedHits project lines file line = some hits →
    0 ≤ hits.toInt ∧
    (hits.toInt = exactHits project lines file line ∨
      2 ^ 31 - 1 ≤ exactHits project lines file line ∧ hits.toInt = 2 ^ 31 - 1) ∧
    ((∃ count ∈ executionCounts project lines file line, 0 < count.toInt) → 0 < hits.toInt)

end Definitions

section Hits

variable {project : Project F} {lines : List String} {file : F} {line : BitVec 32}

theorem countsOf_hitEntries (records : List LineRecord) :
    ((hitEntries records).filter fun e => e.1 = line).map Prod.snd =
      (records.filter fun record => record.line = line).map LineRecord.executionCount := by
  rw [hitEntries, List.filter_map, List.map_map]
  rfl

/-- The hits of a line are the sum of its execution counts, if there are any. -/
theorem total_hitEntries (records : List LineRecord) {counts : List (BitVec 32)}
    (ofLine : (records.filter fun record => record.line = line).map LineRecord.executionCount =
      counts) :
    (OrderedMap.total (hitEntries records) line).getD 0 = counts.sum ∧
      (OrderedMap.total (hitEntries records) line = none → counts = []) := by
  rw [← ofLine, ← countsOf_hitEntries, OrderedMap.total]
  split
  next member => exact ⟨rfl, fun wrong => by cases wrong⟩
  next absent =>
    rw [OrderedMap.filter_key_eq_nil absent]
    exact ⟨rfl, fun _ => rfl⟩

/-- The value that is told last, and the covered conditions that it contains. -/
theorem save_eq (fileData : FileData) :
    ∃ covered : ℕ, ((fileData.save.conditions line).map Prod.snd).sum = covered ∧
      ∀ hits, (fileData.save.lineHits line).getLast? = some hits →
        hits = (fileData.hits.get line).getD 0 + BitVec.ofNat 32 covered := by
  refine ⟨_, rfl, fun hits told => ?_⟩
  cases branches : fileData.branches.get line with
  | none =>
      simp only [FileData.save, branches, Option.toList_none, List.map_nil, List.append_nil] at told
      cases here : fileData.hits.get line with
      | none =>
          rw [here] at told
          cases told
      | some count =>
          rw [here] at told
          obtain rfl : count = hits := Option.some.inj told
          simp [FileData.save, branches]
  | some branches' =>
      simp only [FileData.save, branches, Option.toList_some, List.map_cons, List.map_nil,
        List.getLast?_concat, Option.some.injEq] at told
      simp [FileData.save, branches, ← told]

theorem silent_save {fileData : FileData} (silent : fileData.save.lineHits line = []) :
    fileData.hits.get line = none ∧ fileData.save.conditions line = [] := by
  obtain ⟨noHits, noBranches⟩ := List.append_eq_nil_iff.mp silent
  obtain noHits := Option.toList_eq_nil_iff.mp noHits
  obtain noBranches := List.map_eq_nil_iff.mp noBranches
  exact ⟨noHits, List.map_eq_nil_iff.mpr noBranches⟩

theorem coverageByFile_eq (project : Project F) (lines : List String) (file : F) :
    (LCOVParser.parse project lines).coverageByFile file =
      if .covers file ∈ contributions project none lines then
        some (dataOf file (contributions project none lines)).save
      else none := by
  rw [LCOVParser.coverageByFile, (LCOVParser.Reflects.parse project lines).files file]
  split <;> rfl

/-- What is reported are 32-bit sums. -/
theorem reportedHits_eq {hits : BitVec 32}
    (reported : reportedHits project lines file line = some hits) :
    hits = (executionCounts project lines file line).sum +
      BitVec.ofNat 32 (coveredConditions project lines file line) := by
  rw [reportedHits, coverageByFile_eq] at reported
  rw [coveredConditions, coverageByFile_eq]
  split at reported
  next covers =>
    obtain ⟨covered, same, told⟩ := @save_eq line (dataOf file (contributions project none lines))
    rw [if_pos covers, Option.map_some, Option.getD_some, same, told hits reported,
      get_hits_dataOf, (total_hitEntries _ rfl).1]
    rfl
  next notCovered => cases reported

/-- Nothing is reported for a line without accepted records. -/
theorem exactHits_eq_zero (silent : reportedHits project lines file line = none) :
    exactHits project lines file line = 0 := by
  have reflects := LCOVParser.Reflects.parse project lines
  rw [reportedHits, coverageByFile_eq] at silent
  rw [exactHits, coveredConditions, coverageByFile_eq, executionCounts]
  split at silent
  next covers =>
    obtain ⟨noHits, noConditions⟩ := silent_save (List.getLast?_eq_none_iff.mp silent)
    rw [get_hits_dataOf] at noHits
    have noCounts :=
      (total_hitEntries (hitsOf file (contributions project none lines)) rfl).2 noHits
    rw [if_pos covers, noCounts, Option.map_some, noConditions]
    rfl
  next notCovered =>
    rw [if_neg notCovered, (reflects.untouched file notCovered).2]
    rfl

theorem toInt_reportedHits {hits : BitVec 32}
    (reported : reportedHits project lines file line = some hits) :
    hits.toInt = (exactHits project lines file line).bmod (2 ^ 32) := by
  rw [reportedHits_eq reported, BitVec.toInt_add, toInt_sum, BitVec.toInt_ofNat',
    Int.add_bmod_bmod, Int.bmod_add_bmod, exactHits]

theorem exactHits_nonneg
    (nonneg : ∀ count ∈ executionCounts project lines file line, 0 ≤ count.toInt) :
    0 ≤ exactHits project lines file line := by
  refine Int.add_nonneg (List.sum_nonneg ?_) (Int.natCast_nonneg _)
  exact List.forall_mem_map.mpr nonneg

theorem exactHits_pos
    (nonneg : ∀ count ∈ executionCounts project lines file line, 0 ≤ count.toInt)
    (executed : ∃ count ∈ executionCounts project lines file line, 0 < count.toInt) :
    0 < exactHits project lines file line := by
  obtain ⟨count, member, positive⟩ := executed
  have atLeast : count.toInt ≤
      ((executionCounts project lines file line).map BitVec.toInt).sum :=
    List.single_le_sum (List.forall_mem_map.mpr nonneg) _ (List.mem_map_of_mem member)
  have covered := Int.natCast_nonneg (coveredConditions project lines file line)
  exact (positive.trans_le atLeast).trans_le (Int.le_add_of_nonneg_right covered)

/-- A number that is not negative, as a 32-bit integer. -/
theorem bmod_eq_iff {n : ℤ} (nonneg : 0 ≤ n) :
    (0 ≤ n.bmod (2 ^ 32) ∧ (n.bmod (2 ^ 32) = n ∨ 2 ^ 31 - 1 ≤ n ∧ n.bmod (2 ^ 32) = 2 ^ 31 - 1)) ↔
      n < 2 ^ 31 ∨ n % 2 ^ 32 = 2 ^ 31 - 1 := by
  rw [Int.bmod_def]
  split <;> omega

/-- Two counts of a line, and a branch that was taken. -/
def smallReport : List String := ["SF:src/a.js", "DA:1,3", "DA:1,4", "BRDA:1,0,0,2"]

/-- The largest count, and one more execution. -/
def overflowReport : List String := ["SF:src/a.js", "DA:1,2147483647", "DA:1,1"]

end Hits

end Lcov

end SonarJS
