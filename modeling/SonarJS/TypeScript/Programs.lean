import SonarJS.Foundation.OrderedCollections
import SonarJS.Foundation.Traversal

/-!
# Analysis with TypeScript programs

`AnalysisWithProgram.analyzeFiles` creates a program for each `tsconfig.json`, analyses
the files of the program that have not been analysed before, goes on with the projects
that the program refers to, and deletes the program.

The bridge is a parameter: which programs it creates, and which of its calls throw. What
is followed is the sequence of the calls. Logging, the profiler, and the progress report
are left out.
-/

namespace SonarJS

namespace TypeScript

structure TsProgram where
  programId : String
  files : List String
  projectReferences : List String
  missingTsConfig : Bool := false
  error : Option String := none

/-- The bridge, the file system, and `Path.of(path).toString()`. A path stands for an
input file only if the file is a TypeScript file. -/
structure Bridge (ε F : Type) where
  pathOf : String → String
  createProgram : String → Except ε TsProgram
  analyze : F → TsProgram → Except ε Unit
  deleteProgram : TsProgram → Except ε Unit
  inputFile : String → Option F

/-- The calls to the bridge, with the `tsconfig.json` of the program they are about. -/
inductive Call (F : Type)
  | createProgram (tsConfig : String)
  | analyze (file : F) (tsConfig : String)
  | deleteProgram (tsConfig : String)
deriving DecidableEq

structure State (F : Type) where
  analyzedFiles : OrderedSet F
  analysisWarnings : OrderedSet String
  calls : List (Call F)

def State.new {F : Type} : State F := ⟨.empty, .empty, []⟩

abbrev ProgramM (ε F α : Type) := EStateM ε (State F) α

def missingTsConfigMessage : String :=
  "At least one tsconfig.json was not found in the project. Please run 'npm install' for a more " ++
    "complete analysis. Check analysis logs for more details."

section Analysis

variable {ε F : Type} [DecidableEq F] (bridge : Bridge ε F)

def State.record (s : State F) (c : Call F) : State F := { s with calls := s.calls ++ [c] }

/-- A call is recorded when it is made, whether it throws or not. -/
def call {α : Type} (c : Call F) (result : Except ε α) : ProgramM ε F α := do
  modify (State.record · c)
  Action.ofExcept result

/-- The body of the loop of `analyzeProgram`. -/
def analyzeFile (tsConfig : String) (program : TsProgram) (path : String) : ProgramM ε F Unit :=
  match bridge.inputFile path with
  | none => return ()
  | some file => do
    let s ← get
    if file ∈ s.analyzedFiles then return ()
    else
      set { s with analyzedFiles := s.analyzedFiles.add file }
      call (.analyze file tsConfig) (bridge.analyze file program)

def analyzeProgram (tsConfig : String) (program : TsProgram) : List String → ProgramM ε F Unit
  | [] => return ()
  | path :: paths => do
    analyzeFile bridge tsConfig program path
    analyzeProgram tsConfig program paths

def warnIfMissing (program : TsProgram) : ProgramM ε F Unit :=
  if program.missingTsConfig then
    modify fun s => { s with analysisWarnings := s.analysisWarnings.add missingTsConfigMessage }
  else return ()

/-- The rest of an iteration, once the bridge has answered. It returns what is added to
the worklist. -/
def analyzeCreated (tsConfig : String) (program : TsProgram) : ProgramM ε F (List String) :=
  if program.error.isSome then return []
  else do
    warnIfMissing program
    analyzeProgram bridge tsConfig program program.files
    call (.deleteProgram tsConfig) (bridge.deleteProgram program)
    return program.projectReferences

/-- What the loop does with a `tsconfig.json` that has not been analysed. -/
def analyzeTsConfig (tsConfig : String) : ProgramM ε F (List String) := do
  let program ← call (.createProgram tsConfig) (bridge.createProgram tsConfig)
  analyzeCreated bridge tsConfig program

def analysisLoop : Traversal.Loop String String ε (State F) where
  key := bridge.pathOf
  visit := analyzeTsConfig bridge

/-- `analyzeFiles`, for at most so many iterations. It returns the projects that have
been analysed. -/
def analyzeFiles (fuel : ℕ) (tsConfigs : List String) :
    EStateM.Result ε (State F) (Option (List String)) :=
  (analysisLoop bridge).run fuel tsConfigs [] .new

end Analysis

/-! ## What the bridge says -/

namespace Bridge

variable {ε F : Type} (bridge : Bridge ε F)

/-- A program is created, without an error. -/
def Creates (tsConfig : String) (program : TsProgram) : Prop :=
  bridge.createProgram tsConfig = .ok program ∧ program.error = none

/-- The references of the program, if it is created without an error. -/
def references (tsConfig : String) : List String :=
  match bridge.createProgram tsConfig with
  | .ok program => if program.error.isSome then [] else program.projectReferences
  | .error _ => []

/-- The program is created without an error and lists the input file. -/
def Lists (tsConfig : String) (file : F) : Prop :=
  ∃ program, bridge.Creates tsConfig program ∧
    ∃ path ∈ program.files, bridge.inputFile path = some file

/-- No call throws, of those that are made for some paths. -/
structure NeverThrows (tsConfigs : List String) : Prop where
  createProgram : ∀ tsConfig ∈ tsConfigs, ∃ program, bridge.createProgram tsConfig = .ok program
  analyze : ∀ file program, bridge.analyze file program = .ok ()
  deleteProgram : ∀ program, bridge.deleteProgram program = .ok ()

/-- The paths that are reached from the first ones through programs that are created
without an error. -/
abbrev Reachable (tsConfigs : List String) : String → Prop :=
  Traversal.Reachable bridge.pathOf bridge.references tsConfigs

end Bridge

/-! ## What a visit does -/

section Visit

variable {ε F : Type} {bridge : Bridge ε F} {tsConfig : String} {program : TsProgram}

/-- Some calls have been made, and some files have been analysed. -/
structure Adds (s s' : State F) (calls : List (Call F)) (files : List F) : Prop where
  calls : s'.calls = s.calls ++ calls
  files : s'.analyzedFiles.elems = s.analyzedFiles.elems ++ files

theorem Adds.refl (s : State F) : Adds s s [] [] := ⟨by simp, by simp⟩

theorem Adds.trans {s₁ s₂ s₃ : State F} {calls calls' : List (Call F)} {files files' : List F}
    (h : Adds s₁ s₂ calls files) (h' : Adds s₂ s₃ calls' files') :
    Adds s₁ s₃ (calls ++ calls') (files ++ files') := by
  refine ⟨?_, ?_⟩
  · rw [h'.calls, h.calls, List.append_assoc]
  · rw [h'.files, h.files, List.append_assoc]

theorem Adds.mem {s s' : State F} {calls : List (Call F)} {files : List F} {file : F}
    (h : Adds s s' calls files) (member : file ∈ s.analyzedFiles) : file ∈ s'.analyzedFiles := by
  rw [OrderedSet.mem_def, h.files]
  exact List.mem_append_left _ member

theorem call_ok {α : Type} (c : Call F) {result : Except ε α} {a : α} (h : result = .ok a)
    (s : State F) : call c result s = .ok a (s.record c) := by
  rw [h]
  rfl

theorem call_error {α : Type} (c : Call F) {result : Except ε α} {e : ε} (h : result = .error e)
    (s : State F) : call c result s = .error e (s.record c) := by
  rw [h]
  rfl

theorem adds_record (s : State F) (c : Call F) : Adds s (s.record c) [c] [] :=
  ⟨rfl, by simp [State.record]⟩

theorem finalState_call {α : Type} (c : Call F) (result : Except ε α) (s : State F) :
    Action.finalState (call c result s) = s.record c := by
  cases result <;> rfl

variable [DecidableEq F]

theorem analyzeFile_eq (path : String) (s : State F) :
    analyzeFile bridge tsConfig program path s = match bridge.inputFile path with
      | none => .ok () s
      | some file =>
        if file ∈ s.analyzedFiles then .ok () s
        else call (.analyze file tsConfig) (bridge.analyze file program)
          { s with analyzedFiles := s.analyzedFiles.add file } := by
  rw [analyzeFile]
  cases bridge.inputFile path with
  | none => rfl
  | some file =>
      show (if file ∈ s.analyzedFiles then _ else _ : ProgramM ε F Unit) s = ite _ _ _
      by_cases old : file ∈ s.analyzedFiles
      · rw [if_pos old, if_pos old]
        rfl
      · rw [if_neg old, if_neg old]
        rfl

variable (bridge tsConfig program)

/-- An input file is analysed if it is new. Either way it counts as analysed then. -/
theorem analyzeFile_spec (path : String) (s : State F) :
    ∃ files, Adds s (Action.finalState (analyzeFile bridge tsConfig program path s))
        (files.map fun file => .analyze file tsConfig) files ∧
      (∀ file ∈ files, bridge.inputFile path = some file) ∧
      ∀ file, bridge.inputFile path = some file →
        file ∈ (Action.finalState (analyzeFile bridge tsConfig program path s)).analyzedFiles := by
  rw [analyzeFile_eq]
  cases bridge.inputFile path with
  | none => exact ⟨[], Adds.refl s, by simp, by simp⟩
  | some file =>
      by_cases old : file ∈ s.analyzedFiles
      · simp only [if_pos old]
        refine ⟨[], Adds.refl s, by simp, fun file' same => ?_⟩
        cases same
        exact old
      · simp only [if_neg old]
        have entered : Adds s { s with analyzedFiles := s.analyzedFiles.add file } [] [file] := by
          refine ⟨by simp, ?_⟩
          rw [OrderedSet.add, dif_neg (OrderedSet.mem_def.not.mp old)]
        have both := entered.trans (adds_record { s with analyzedFiles := s.analyzedFiles.add file }
          (.analyze file tsConfig))
        rw [finalState_call]
        refine ⟨[file], both, by simp, fun file' same => ?_⟩
        cases same
        rw [OrderedSet.mem_def, both.files]
        simp

theorem analyzeProgram_spec (paths : List String) (s : State F) :
    ∃ files, Adds s (Action.finalState (analyzeProgram bridge tsConfig program paths s))
        (files.map fun file => .analyze file tsConfig) files ∧
      (∀ file ∈ files, ∃ path ∈ paths, bridge.inputFile path = some file) ∧
      ∀ s', analyzeProgram bridge tsConfig program paths s = .ok () s' →
        ∀ path ∈ paths, ∀ file, bridge.inputFile path = some file → file ∈ s'.analyzedFiles := by
  induction paths generalizing s with
  | nil => exact ⟨[], Adds.refl s, by simp, by simp⟩
  | cons path paths ih =>
      obtain ⟨files, adds, listed, analyzed⟩ := analyzeFile_spec bridge tsConfig program path s
      rw [analyzeProgram]
      cases ran : analyzeFile bridge tsConfig program path s with
      | error e t =>
          rw [ran] at adds
          rw [Action.bind_error ran]
          refine ⟨files, adds, fun file member => ?_, by simp⟩
          exact ⟨path, List.mem_cons_self, listed file member⟩
      | ok _ t =>
          rw [ran] at adds analyzed
          rw [Action.bind_ok ran]
          obtain ⟨files', adds', listed', analyzed'⟩ := ih t
          refine ⟨files ++ files', ?_, ?_, ?_⟩
          · rw [List.map_append]
            exact adds.trans adds'
          · intro file member
            obtain first | later := List.mem_append.mp member
            · exact ⟨path, List.mem_cons_self, listed file first⟩
            · obtain ⟨path', inPaths, found⟩ := listed' file later
              exact ⟨path', List.mem_cons_of_mem _ inPaths, found⟩
          · intro s' finishes path' inPaths file found
            rw [finishes] at adds'
            obtain rfl | inPaths := List.mem_cons.mp inPaths
            · exact adds'.mem (analyzed file found)
            · exact analyzed' s' finishes path' inPaths file found

/-- The calls for one `tsconfig.json`. -/
structure Visited (F : Type) where
  tsConfig : String
  files : List F
  deleted : Bool

def Visited.calls (visited : Visited F) : List (Call F) :=
  .createProgram visited.tsConfig ::
    visited.files.map (fun file => .analyze file visited.tsConfig) ++
      if visited.deleted then [.deleteProgram visited.tsConfig] else []

/-- Only listed files are analysed. -/
def Visited.Sound (visited : Visited F) : Prop :=
  ∀ file ∈ visited.files, bridge.Lists visited.tsConfig file

/-- A program that has been created is deleted. -/
def Visited.Complete (visited : Visited F) : Prop :=
  ∀ program, bridge.Creates visited.tsConfig program → visited.deleted = true

omit [DecidableEq F] in
theorem adds_warnIfMissing (s : State F) :
    ∃ s', (warnIfMissing program : ProgramM ε F Unit) s = .ok () s' ∧ Adds s s' [] [] := by
  rw [warnIfMissing]
  split
  · exact ⟨_, rfl, by simp, by simp⟩
  · exact ⟨s, rfl, Adds.refl s⟩

/-- Once the bridge has answered, listed files are analysed and the program is deleted,
unless the answer is an error. -/
theorem analyzeCreated_spec (s : State F) :
    ∃ (files : List F) (deleted : Bool),
      Adds s (Action.finalState (analyzeCreated bridge tsConfig program s))
        (files.map (fun file => .analyze file tsConfig) ++
          if deleted then [.deleteProgram tsConfig] else []) files ∧
      (∀ file ∈ files, program.error = none ∧
        ∃ path ∈ program.files, bridge.inputFile path = some file) ∧
      ∀ found s', analyzeCreated bridge tsConfig program s = .ok found s' →
        found = (if program.error.isSome then [] else program.projectReferences) ∧
          (program.error = none → deleted = true ∧
            ∀ path ∈ program.files, ∀ file, bridge.inputFile path = some file →
              file ∈ s'.analyzedFiles) := by
  cases failed : program.error with
  | some error =>
      have ran : analyzeCreated bridge tsConfig program s = .ok [] s := by
        rw [analyzeCreated, failed]
        rfl
      rw [ran]
      refine ⟨[], false, Adds.refl s, by simp, fun found s' returned => ?_⟩
      cases returned
      exact ⟨rfl, nofun⟩
  | none =>
      obtain ⟨s₁, warned, adds₁⟩ := adds_warnIfMissing (ε := ε) program s
      obtain ⟨files, adds₂, listed, analyzed⟩ :=
        analyzeProgram_spec bridge tsConfig program program.files s₁
      rw [analyzeCreated, failed]
      simp only [Option.isSome_none, Bool.false_eq_true, if_false]
      rw [Action.bind_ok warned]
      cases ran : analyzeProgram bridge tsConfig program program.files s₁ with
      | error e s₂ =>
          rw [ran] at adds₂
          rw [Action.bind_error ran]
          refine ⟨files, false, ?_, fun file member => ⟨trivial, listed file member⟩, by simp⟩
          show Adds s s₂ _ _
          simpa [Action.finalState] using adds₁.trans adds₂
      | ok _ s₂ =>
          rw [ran] at adds₂
          rw [Action.bind_ok ran]
          have adds₃ := (adds₁.trans adds₂).trans (adds_record s₂ (.deleteProgram tsConfig))
          refine ⟨files, true, ?_, fun file member => ⟨trivial, listed file member⟩, ?_⟩
          · cases bridge.deleteProgram program with
            | error e =>
                rw [Action.bind_error (call_error _ rfl s₂)]
                show Adds s (s₂.record _) _ _
                simpa using adds₃
            | ok _ =>
                rw [Action.bind_ok (call_ok _ rfl s₂)]
                show Adds s (s₂.record _) _ _
                simpa using adds₃
          · intro found s' returned
            obtain ⟨_, s₃, deletes, returned⟩ := Action.bind_eq_ok returned
            cases returned
            refine ⟨rfl, fun _ => ⟨rfl, fun path inFiles file isFile => ?_⟩⟩
            have recorded : Action.finalState
                (call (.deleteProgram tsConfig) (bridge.deleteProgram program) s₂) = s' := by
              rw [deletes]
              rfl
            rw [finalState_call] at recorded
            rw [← recorded]
            exact analyzed s₂ ran path inFiles file isFile

omit program in
/-- A visit makes the calls of its `tsconfig.json`. If it does not throw, all listed
files have been analysed, and a program that has been created has been deleted. -/
theorem analyzeTsConfig_spec (s : State F) :
    ∃ visited : Visited F, visited.tsConfig = tsConfig ∧ visited.Sound bridge ∧
      Adds s (Action.finalState (analyzeTsConfig bridge tsConfig s)) visited.calls visited.files ∧
      ∀ found s', analyzeTsConfig bridge tsConfig s = .ok found s' →
        found = bridge.references tsConfig ∧ visited.Complete bridge ∧
          ∀ file, bridge.Lists tsConfig file → file ∈ s'.analyzedFiles := by
  have created := adds_record s (.createProgram tsConfig)
  rw [analyzeTsConfig]
  cases result : bridge.createProgram tsConfig with
  | error e =>
      rw [Action.bind_error (call_error _ rfl s)]
      exact ⟨⟨tsConfig, [], false⟩, rfl, by simp [Visited.Sound], created, by simp⟩
  | ok program =>
      obtain ⟨files, deleted, adds, listed, finishes⟩ :=
        analyzeCreated_spec bridge tsConfig program (s.record (.createProgram tsConfig))
      rw [Action.bind_ok (call_ok _ rfl s)]
      refine ⟨⟨tsConfig, files, deleted⟩, rfl, ?_, created.trans adds, ?_⟩
      · intro file member
        obtain ⟨noError, path, inFiles, isFile⟩ := listed file member
        exact ⟨program, ⟨result, noError⟩, path, inFiles, isFile⟩
      · intro found s' returned
        obtain ⟨references, complete⟩ := finishes found s' returned
        refine ⟨?_, ?_, ?_⟩
        · rw [references, Bridge.references, result]
        · rintro program' ⟨result', noError⟩
          cases result.symm.trans result'
          exact (complete noError).1
        · rintro file ⟨program', ⟨result', noError⟩, path, inFiles, isFile⟩
          cases result.symm.trans result'
          exact (complete noError).2 path inFiles file isFile

end Visit

/-! ## What a run does -/

section Run

variable {ε F : Type} [DecidableEq F] (bridge : Bridge ε F)

theorem analysisLoop_follows : (analysisLoop bridge).Follows bridge.references := by
  intro tsConfig s found s' returned
  obtain ⟨visited, -, -, -, finishes⟩ := analyzeTsConfig_spec bridge tsConfig s
  exact (finishes found s' returned).1

/-- The visits of a run, one after another. Only the last one may be cut short. -/
theorem visitAll_spec (tsConfigs : List String) (s : State F) :
    ∃ visits : List (Visited F), visits.map Visited.tsConfig <+: tsConfigs ∧
      (∀ visited ∈ visits, visited.Sound bridge) ∧
      Adds s (Action.finalState ((analysisLoop bridge).visitAll tsConfigs s))
        (visits.flatMap Visited.calls) (visits.flatMap Visited.files) ∧
      ∀ s', (analysisLoop bridge).visitAll tsConfigs s = .ok () s' →
        visits.map Visited.tsConfig = tsConfigs ∧
          (∀ visited ∈ visits, visited.Complete bridge) ∧
          ∀ tsConfig ∈ tsConfigs, ∀ file, bridge.Lists tsConfig file →
            file ∈ s'.analyzedFiles := by
  induction tsConfigs generalizing s with
  | nil =>
      refine ⟨[], List.prefix_rfl, by simp, Adds.refl s, fun s' returned => ?_⟩
      exact ⟨rfl, by simp, by simp⟩
  | cons tsConfig tsConfigs ih =>
      obtain ⟨visited, same, sound, adds, finishes⟩ := analyzeTsConfig_spec bridge tsConfig s
      cases ran : analyzeTsConfig bridge tsConfig s with
      | error e t =>
          rw [ran] at adds
          rw [Traversal.Loop.visitAll_cons_error ran]
          refine ⟨[visited], ?_, by simpa using sound, ?_, by simp⟩
          · rw [List.map_singleton, same]
            exact List.prefix_append [tsConfig] tsConfigs
          · show Adds s t _ _
            simpa [Action.finalState] using adds
      | ok found t =>
          rw [ran] at adds
          rw [Traversal.Loop.visitAll_cons_ok ran]
          obtain ⟨visits, within, sounds, adds', finishes'⟩ := ih t
          obtain ⟨-, complete, analyzed⟩ := finishes found t ran
          refine ⟨visited :: visits, ?_, ?_, ?_, ?_⟩
          · rw [List.map_cons, same]
            exact List.cons_prefix_cons.mpr ⟨rfl, within⟩
          · exact List.forall_mem_cons.mpr ⟨sound, sounds⟩
          · rw [List.flatMap_cons, List.flatMap_cons]
            exact adds.trans adds'
          · intro s' returned
            obtain ⟨all, completes, analyzed'⟩ := finishes' s' returned
            rw [returned] at adds'
            refine ⟨by rw [List.map_cons, same, all], ?_, ?_⟩
            · exact List.forall_mem_cons.mpr ⟨complete, completes⟩
            · refine List.forall_mem_cons.mpr ⟨fun file lists => ?_, analyzed'⟩
              exact adds'.mem (analyzed file lists)

/-! ## The calls of a run -/

/-- The paths for which a program has been created. -/
def created (calls : List (Call F)) : List String :=
  calls.filterMap fun
    | .createProgram tsConfig => some tsConfig
    | _ => none

/-- The files that have been analysed. -/
def analyzed (calls : List (Call F)) : List F :=
  calls.filterMap fun
    | .analyze file _ => some file
    | _ => none

def Call.isCreateProgram : Call F → Bool
  | .createProgram _ => true
  | _ => false

/-- Every program that is created without an error is deleted before the next one is
created. -/
def DeletesInTime : List (Call F) → Prop
  | [] => True
  | .createProgram tsConfig :: calls =>
    (∀ program, bridge.Creates tsConfig program →
      .deleteProgram tsConfig ∈ calls.takeWhile fun c => !c.isCreateProgram) ∧ DeletesInTime calls
  | _ :: calls => DeletesInTime calls

variable {bridge}

omit [DecidableEq F] in
theorem created_flatMap (visits : List (Visited F)) :
    created (visits.flatMap Visited.calls) = visits.map Visited.tsConfig := by
  induction visits with
  | nil => rfl
  | cons visited visits ih =>
      have one : created visited.calls = [visited.tsConfig] := by
        rw [created, Visited.calls]
        cases visited.deleted <;> simp
      rw [List.flatMap_cons, created, List.filterMap_append]
      show created visited.calls ++ created (visits.flatMap Visited.calls) = _
      rw [one, ih]
      rfl

omit [DecidableEq F] in
theorem analyzed_flatMap (visits : List (Visited F)) :
    analyzed (visits.flatMap Visited.calls) = visits.flatMap Visited.files := by
  induction visits with
  | nil => rfl
  | cons visited visits ih =>
      have one : analyzed visited.calls = visited.files := by
        rw [analyzed, Visited.calls]
        cases visited.deleted <;> simp
      rw [List.flatMap_cons, analyzed, List.filterMap_append]
      show analyzed visited.calls ++ analyzed (visits.flatMap Visited.calls) = _
      rw [one, ih]
      rfl

omit [DecidableEq F] in
theorem deletesInTime_append {calls rest : List (Call F)}
    (noPrograms : ∀ c ∈ calls, c.isCreateProgram = false) (h : DeletesInTime bridge rest) :
    DeletesInTime bridge (calls ++ rest) := by
  induction calls with
  | nil => exact h
  | cons c calls ih =>
      rw [List.forall_mem_cons] at noPrograms
      cases c with
      | createProgram tsConfig => cases noPrograms.1
      | analyze file tsConfig => exact ih noPrograms.2
      | deleteProgram tsConfig => exact ih noPrograms.2

omit [DecidableEq F] in
theorem deletesInTime_flatMap {visits : List (Visited F)}
    (complete : ∀ visited ∈ visits, visited.Complete bridge) :
    DeletesInTime bridge (visits.flatMap Visited.calls) := by
  induction visits with
  | nil => trivial
  | cons visited visits ih =>
      rw [List.forall_mem_cons] at complete
      have noPrograms : ∀ c ∈ visited.files.map (fun file => .analyze file visited.tsConfig) ++
          (if visited.deleted then [.deleteProgram visited.tsConfig] else []),
          Call.isCreateProgram c = false := by
        intro c member
        obtain analyzes | deletes := List.mem_append.mp member
        · obtain ⟨file, -, rfl⟩ := List.mem_map.mp analyzes
          rfl
        · split at deletes
          · rw [List.mem_singleton.mp deletes]
            rfl
          · cases deletes
      rw [List.flatMap_cons, Visited.calls]
      simp only [List.cons_append]
      refine ⟨fun program creates => ?_, deletesInTime_append noPrograms (ih complete.2)⟩
      rw [List.takeWhile_append_of_pos fun c member => by rw [noPrograms c member]; rfl,
        complete.1 program creates]
      simp

/-! ## Runs without exceptions -/

section NeverThrows

variable {tsConfigs : List String}

theorem analyzeProgram_ok (never : bridge.NeverThrows tsConfigs) (tsConfig : String)
    (program : TsProgram) (paths : List String) (s : State F) :
    ∃ s', analyzeProgram bridge tsConfig program paths s = .ok () s' := by
  induction paths generalizing s with
  | nil => exact ⟨s, rfl⟩
  | cons path paths ih =>
      have one : ∃ t, analyzeFile bridge tsConfig program path s = .ok () t := by
        rw [analyzeFile_eq]
        cases bridge.inputFile path with
        | none => exact ⟨s, rfl⟩
        | some file =>
            by_cases old : file ∈ s.analyzedFiles
            · exact ⟨s, if_pos old⟩
            · exact ⟨_, (if_neg old).trans (call_ok _ (never.analyze file program) _)⟩
      obtain ⟨t, ran⟩ := one
      rw [analyzeProgram, Action.bind_ok ran]
      exact ih t

theorem analyzeTsConfig_ok (never : bridge.NeverThrows tsConfigs) {tsConfig : String}
    (member : tsConfig ∈ tsConfigs) (s : State F) :
    ∃ found s', analyzeTsConfig bridge tsConfig s = .ok found s' := by
  obtain ⟨program, creates⟩ := never.createProgram tsConfig member
  rw [analyzeTsConfig, Action.bind_ok (call_ok _ creates s), analyzeCreated]
  split
  · exact ⟨_, _, rfl⟩
  · obtain ⟨s₁, warned, -⟩ :=
      adds_warnIfMissing (ε := ε) program (s.record (.createProgram tsConfig))
    obtain ⟨s₂, analyzes⟩ := analyzeProgram_ok never tsConfig program program.files s₁
    rw [Action.bind_ok warned, Action.bind_ok analyzes,
      Action.bind_ok (call_ok _ (never.deleteProgram program) s₂)]
    exact ⟨_, _, rfl⟩

theorem visitAll_ok (never : bridge.NeverThrows tsConfigs) (s : State F) :
    ∃ s', (analysisLoop bridge).visitAll tsConfigs s = .ok () s' := by
  induction tsConfigs generalizing s with
  | nil => exact ⟨s, rfl⟩
  | cons tsConfig tsConfigs ih =>
      obtain ⟨found, t, ran⟩ := analyzeTsConfig_ok never List.mem_cons_self s
      rw [Traversal.Loop.visitAll_cons_ok ran]
      refine ih ⟨fun tsConfig member => ?_, never.analyze, never.deleteProgram⟩ t
      exact never.createProgram tsConfig (List.mem_cons_of_mem _ member)

end NeverThrows

/-- If finitely many paths are reachable, the loop is the loop over the order in which
they are seen. -/
theorem exists_analyzeFiles_eq (bridge : Bridge ε F) (tsConfigs : List String)
    (finite : {tsConfig | bridge.Reachable tsConfigs tsConfig}.Finite) :
    ∃ bound order, (∀ fuel ≥ bound,
        Traversal.order bridge.pathOf bridge.references fuel tsConfigs [] = some order) ∧
      order.Nodup ∧ (∀ tsConfig, tsConfig ∈ order ↔ bridge.Reachable tsConfigs tsConfig) ∧
      ∀ fuel ≥ bound, analyzeFiles bridge fuel tsConfigs = (do
        (analysisLoop bridge).visitAll order
        return some order : EStateM ε (State F) (Option (List String))) .new := by
  obtain ⟨bound, order, found⟩ := Traversal.exists_order finite
  obtain ⟨nodup, reachable⟩ := Traversal.order_reachable found
  refine ⟨bound, order, fun fuel le => Traversal.order_mono le found, nodup, reachable,
    fun fuel le => ?_⟩
  exact (analysisLoop bridge).run_eq (analysisLoop_follows bridge)
    (Traversal.order_mono le found) .new

/-- The analysis ends, however often references lead back, and whether calls throw or
not. It creates programs for reachable paths only, and for none of them twice; it
analyses listed files only, and none of them twice. If no call throws, nothing is left
out, and every program is deleted before the next one is created. -/
theorem analyzeFiles_visits_reachable (bridge : Bridge ε F) (tsConfigs : List String)
    (finite : {tsConfig | bridge.Reachable tsConfigs tsConfig}.Finite) :
    ∃ bound result, (∀ fuel ≥ bound, analyzeFiles bridge fuel tsConfigs = result) ∧
      (∀ s, result ≠ .ok none s) ∧
      (created (Action.finalState result).calls).Nodup ∧
      (∀ tsConfig ∈ created (Action.finalState result).calls,
        bridge.Reachable tsConfigs tsConfig) ∧
      (analyzed (Action.finalState result).calls).Nodup ∧
      (∀ file ∈ analyzed (Action.finalState result).calls,
        ∃ tsConfig, bridge.Reachable tsConfigs tsConfig ∧ bridge.Lists tsConfig file) ∧
      ((∀ e s, result ≠ .error e s) →
        (∀ tsConfig, bridge.Reachable tsConfigs tsConfig →
          tsConfig ∈ created (Action.finalState result).calls) ∧
        (∀ tsConfig file, bridge.Reachable tsConfigs tsConfig → bridge.Lists tsConfig file →
          file ∈ analyzed (Action.finalState result).calls) ∧
        DeletesInTime bridge (Action.finalState result).calls) := by
  obtain ⟨bound, order, -, nodup, reachable, runs⟩ :=
    exists_analyzeFiles_eq bridge tsConfigs finite
  obtain ⟨visits, within, sound, adds, finishes⟩ := visitAll_spec bridge order .new
  have calls : (Action.finalState ((analysisLoop bridge).visitAll order .new)).calls =
      visits.flatMap Visited.calls := adds.calls
  have files : (Action.finalState ((analysisLoop bridge).visitAll order .new)).analyzedFiles.elems =
      visits.flatMap Visited.files := adds.files
  have createdNodup : (visits.map Visited.tsConfig).Nodup := nodup.sublist within.sublist
  have createdReachable : ∀ tsConfig ∈ visits.map Visited.tsConfig,
      bridge.Reachable tsConfigs tsConfig :=
    fun tsConfig member => (reachable tsConfig).mp (within.subset member)
  have analyzedNodup : (visits.flatMap Visited.files).Nodup := by
    rw [← files]
    exact OrderedSet.nodup _
  have analyzedListed : ∀ file ∈ visits.flatMap Visited.files,
      ∃ tsConfig, bridge.Reachable tsConfigs tsConfig ∧ bridge.Lists tsConfig file := by
    intro file member
    obtain ⟨visited, inVisits, inFiles⟩ := List.mem_flatMap.mp member
    exact ⟨visited.tsConfig, createdReachable _ (List.mem_map_of_mem inVisits),
      sound visited inVisits file inFiles⟩
  refine ⟨bound, _, runs, ?_⟩
  cases ran : (analysisLoop bridge).visitAll order .new with
  | error e s =>
      rw [ran] at calls
      rw [Action.bind_error ran]
      change s.calls = _ at calls
      simp only [Action.finalState, calls, created_flatMap, analyzed_flatMap]
      exact ⟨nofun, createdNodup, createdReachable, analyzedNodup, analyzedListed,
        fun noError => absurd rfl (noError e s)⟩
  | ok _ s =>
      obtain ⟨all, complete, analyzed_⟩ := finishes s ran
      rw [ran] at calls files
      rw [Action.bind_ok ran]
      change s.calls = _ at calls
      change s.analyzedFiles.elems = _ at files
      show (∀ s', EStateM.Result.ok (some order) s ≠ .ok none s') ∧ _
      simp only [Action.finalState, pure, EStateM.pure, calls, created_flatMap, analyzed_flatMap]
      refine ⟨nofun, createdNodup, createdReachable, analyzedNodup, analyzedListed, fun _ => ?_⟩
      refine ⟨fun tsConfig isReachable => ?_, fun tsConfig file isReachable lists => ?_,
        deletesInTime_flatMap complete⟩
      · rw [all]
        exact (reachable tsConfig).mpr isReachable
      · rw [← files]
        exact analyzed_ tsConfig ((reachable tsConfig).mpr isReachable) file lists

end Run

/-! ## Two projects that refer to each other -/

section Cycle

/-- `a` refers to `b` and to itself, `b` refers to `a` and to a project that does not
exist. Both list a file of `a`. -/
def cyclicBridge : Bridge Unit String where
  pathOf path := path
  createProgram tsConfig :=
    if tsConfig = "a/tsconfig.json" then
      .ok ⟨"1", ["a/x.ts"], ["b/tsconfig.json", "a/tsconfig.json"], false, none⟩
    else if tsConfig = "b/tsconfig.json" then
      .ok ⟨"2", ["a/x.ts", "b/y.ts"], ["a/tsconfig.json", "c/tsconfig.json"], false, none⟩
    else .ok ⟨"", [], [], false, some "Cannot read file"⟩
  analyze _ _ := .ok ()
  deleteProgram _ := .ok ()
  inputFile path := some path

theorem cyclicBridge_finite :
    {tsConfig | cyclicBridge.Reachable ["a/tsconfig.json"] tsConfig}.Finite := by
  apply (List.finite_toSet ["a/tsconfig.json", "b/tsconfig.json", "c/tsconfig.json"]).subset
  intro tsConfig reachable
  induction reachable with
  | start member =>
      rw [List.mem_singleton.mp member]
      simp [cyclicBridge]
  | @next k n _ member ih =>
      have cases_ : k = "a/tsconfig.json" ∨ k = "b/tsconfig.json" ∨ k = "c/tsconfig.json" := by
        simpa using ih
      obtain rfl | rfl | rfl := cases_
      · have found : n = "b/tsconfig.json" ∨ n = "a/tsconfig.json" := by
          simpa [Bridge.references, cyclicBridge] using member
        rcases found with rfl | rfl <;> simp [cyclicBridge]
      · have found : n = "a/tsconfig.json" ∨ n = "c/tsconfig.json" := by
          simpa [Bridge.references, cyclicBridge] using member
        rcases found with rfl | rfl <;> simp [cyclicBridge]
      · simp [Bridge.references, cyclicBridge] at member

theorem analyzeFiles_visits_cycle :
    ∃ bound result, (∀ fuel ≥ bound,
        analyzeFiles cyclicBridge fuel ["a/tsconfig.json"] = result) ∧
      (created (Action.finalState result).calls).Nodup ∧
      (analyzed (Action.finalState result).calls).Nodup := by
  obtain ⟨bound, result, runs, -, createdOnce, -, analyzedOnce, -⟩ :=
    analyzeFiles_visits_reachable cyclicBridge ["a/tsconfig.json"] cyclicBridge_finite
  exact ⟨bound, result, runs, createdOnce, analyzedOnce⟩

example : (Action.finalState (analyzeFiles cyclicBridge 10 ["a/tsconfig.json"])).calls =
    [.createProgram "a/tsconfig.json", .analyze "a/x.ts" "a/tsconfig.json",
      .deleteProgram "a/tsconfig.json", .createProgram "b/tsconfig.json",
      .analyze "b/y.ts" "b/tsconfig.json", .deleteProgram "b/tsconfig.json",
      .createProgram "c/tsconfig.json"] := by
  decide

/-- The same projects, where the first analysis of a file ends in an exception. -/
def interruptedBridge : Bridge Unit String :=
  { cyclicBridge with analyze := fun _ _ => .error () }

/-- After an exception, no program is created for a path that is still in the queue. -/
theorem analyzeFiles_stops_at_exception :
    {tsConfig | interruptedBridge.Reachable ["a/tsconfig.json"] tsConfig}.Finite ∧
    interruptedBridge.Reachable ["a/tsconfig.json"] "b/tsconfig.json" ∧
    ∃ s, (∀ fuel, analyzeFiles interruptedBridge (fuel + 1) ["a/tsconfig.json"] = .error () s) ∧
      "b/tsconfig.json" ∉ created s.calls := by
  have first : interruptedBridge.Reachable ["a/tsconfig.json"] "a/tsconfig.json" :=
    .start (List.mem_singleton.mpr rfl)
  refine ⟨cyclicBridge_finite, .next first ?_, _, fun fuel => rfl, ?_⟩
  · decide
  · decide

end Cycle

end TypeScript

end SonarJS
