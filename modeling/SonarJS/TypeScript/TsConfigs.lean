import SonarJS.TypeScript.Programs

/-!
# Analysis with TypeScript configurations

The other way to analyse TypeScript files, which is taken if there are Vue files.
`loadTsConfigs` loads all configurations first, following references, and then
`inputFilesByTsConfig` looks for the first configuration that lists a file.

Both ways follow the references in the same order. With programs, a file is analysed
when the first program that lists it is created; with configurations, it is assigned to
the first one in that order. So both come to the same.
-/

namespace SonarJS

namespace TypeScript

/-! ## The model -/

structure TsConfigFile where
  filename : String
  files : List String
  projectReferences : List String

/-- What the bridge answers; lists may be missing. -/
structure TsConfigResponse where
  files : Option (List String)
  projectReferences : Option (List String)
  error : Option String

section Sensor

variable {F : Type} (tsConfigFiles : String → TsConfigResponse) (absolutePath : F → String)

/-- An error is logged, and what has been answered is taken as it is. -/
def loadTsConfig (filename : String) : TsConfigFile :=
  ⟨filename, (tsConfigFiles filename).files.getD [],
    (tsConfigFiles filename).projectReferences.getD []⟩

def loadLoop : Traversal.Loop String String Empty (List TsConfigFile) where
  key path := path
  visit path := do
    let tsConfigFile := loadTsConfig tsConfigFiles path
    modify (· ++ [tsConfigFile])
    return tsConfigFile.projectReferences

/-- `loadTsConfigs`, for at most so many iterations. -/
def loadTsConfigs (fuel : ℕ) (tsConfigPaths : List String) :
    EStateM.Result Empty (List TsConfigFile) (Option (List String)) :=
  (loadLoop tsConfigFiles).run fuel tsConfigPaths [] []

def TsConfigFile.test (tsConfigFile : TsConfigFile) (inputFile : F) : Bool :=
  tsConfigFile.files.contains (absolutePath inputFile)

/-- The first configuration that lists a file. The configurations are objects, told apart
by their place in the list; `none` is `UNMATCHED_CONFIG`. -/
def configOf (configs : List TsConfigFile) (inputFile : F) : Option ℕ :=
  configs.findIdx? fun config => config.test absolutePath inputFile

def inputFilesByTsConfig (configs : List TsConfigFile) (inputFiles : List F) :
    OrderedMap (Option ℕ) (List F) :=
  inputFiles.foldl (fun result inputFile =>
    let tsconfig := configOf absolutePath configs inputFile
    result.set tsconfig ((result.get tsconfig).getD [] ++ [inputFile])) .empty

/-- The files that are analysed, each with the name of its configuration. Those without
a configuration are skipped. -/
def analyzedWithTsConfig (configs : List TsConfigFile)
    (filesByTsConfig : OrderedMap (Option ℕ) (List F)) : List (F × String) :=
  filesByTsConfig.entries.flatMap fun
    | (none, _) => []
    | (some i, files) => (configs[i]?).toList.flatMap fun config =>
        files.map fun file => (file, config.filename)

end Sensor

/-! ## The first configuration that lists a file -/

/-- The first key with a property. -/
@[grind =] def FirstIn {κ : Type} (P : κ → Prop) : List κ → κ → Prop
  | [], _ => False
  | k :: ks, x => P k ∧ x = k ∨ ¬ P k ∧ FirstIn P ks x

theorem FirstIn.congr {κ : Type} {P Q : κ → Prop} {ks : List κ} (h : ∀ k ∈ ks, P k ↔ Q k) (x : κ) :
    FirstIn P ks x ↔ FirstIn Q ks x := by
  induction ks with
  | nil => rfl
  | cons k ks ih =>
      rw [List.forall_mem_cons] at h
      rw [FirstIn, FirstIn, h.1, ih h.2]

theorem firstIn_and {κ : Type} (c : Prop) (P : κ → Prop) (ks : List κ) (x : κ) :
    FirstIn (fun k => c ∧ P k) ks x ↔ c ∧ FirstIn P ks x := by
  induction ks with
  | nil => simp [FirstIn]
  | cons k ks ih =>
      rw [FirstIn, FirstIn, ih]
      tauto

theorem firstIn_iff_findIdx? {κ : Type} (p : κ → Bool) (ks : List κ) (x : κ) :
    FirstIn (fun k => p k = true) ks x ↔ ∃ i, ks.findIdx? p = some i ∧ ks[i]? = some x := by
  induction ks with
  | nil => simp [FirstIn]
  | cons k ks ih =>
      rw [FirstIn, ih, List.findIdx?_cons]
      cases holds : p k with
      | true => simp [eq_comm]
      | false => simp

section Assignment

variable {ε F : Type} {bridge : Bridge ε F}

/-- With programs, a file is analysed with the first program that lists it. -/
theorem analyze_mem_calls_iff [DecidableEq F] {order : List String} {s s' : State F}
    (ran : (analysisLoop bridge).visitAll order s = .ok () s') (file : F) (tsConfig : String) :
    .analyze file tsConfig ∈ s'.calls ↔ .analyze file tsConfig ∈ s.calls ∨
      file ∉ s.analyzedFiles ∧ FirstIn (fun k => bridge.Lists k file) order tsConfig := by
  induction order generalizing s with
  | nil =>
      cases ran
      simp [FirstIn]
  | cons k order ih =>
      obtain ⟨visited, same, sound, adds, finishes⟩ := analyzeTsConfig_spec bridge k s
      cases visits : analyzeTsConfig bridge k s with
      | error e t =>
          rw [Traversal.Loop.visitAll_cons_error visits] at ran
          cases ran
      | ok found t =>
          rw [Traversal.Loop.visitAll_cons_ok visits] at ran
          rw [visits] at adds
          obtain ⟨-, -, analyzed⟩ := finishes found t visits
          have calls : t.calls = s.calls ++ visited.calls := adds.calls
          have files : t.analyzedFiles.elems = s.analyzedFiles.elems ++ visited.files := adds.files
          have nodup := t.analyzedFiles.nodup
          rw [files, List.nodup_append] at nodup
          -- the visit analyses what is listed and has not been analysed
          have new : file ∈ visited.files ↔ bridge.Lists k file ∧ file ∉ s.analyzedFiles := by
            constructor
            · intro member
              have lists := sound file member
              rw [same] at lists
              exact ⟨lists, fun old => nodup.2.2 file old file member rfl⟩
            · rintro ⟨lists, notOld⟩
              have member := analyzed file lists
              rw [OrderedSet.mem_def, files] at member
              exact (List.mem_append.mp member).resolve_left notOld
          have known : file ∈ t.analyzedFiles ↔ file ∈ s.analyzedFiles ∨ bridge.Lists k file := by
            rw [OrderedSet.mem_def, files, List.mem_append, new, OrderedSet.mem_def]
            by_cases old : file ∈ s.analyzedFiles.elems
            · simp [old]
            · simp [old]
          have call : .analyze file tsConfig ∈ visited.calls ↔
              file ∈ visited.files ∧ tsConfig = k := by
            rw [Visited.calls, same]
            cases visited.deleted <;> simp [eq_comm]
          rw [ih ran, calls, List.mem_append, call, new, known, FirstIn, or_assoc, not_or,
            and_or_left]
          refine or_congr_right (or_congr ?_ and_assoc)
          rw [and_comm (a := bridge.Lists k file), and_assoc]

/-- All configurations, in the order in which they are seen. -/
theorem visitAll_loadLoop (tsConfigFiles : String → TsConfigResponse) (order : List String)
    (configs : List TsConfigFile) : (loadLoop tsConfigFiles).visitAll order configs =
      .ok () (configs ++ order.map (loadTsConfig tsConfigFiles)) := by
  induction order generalizing configs with
  | nil => simp [Traversal.Loop.visitAll, pure, EStateM.pure]
  | cons path order ih =>
      have loaded : (loadLoop tsConfigFiles).visit path configs =
          .ok (loadTsConfig tsConfigFiles path).projectReferences
            (configs ++ [loadTsConfig tsConfigFiles path]) := rfl
      rw [Traversal.Loop.visitAll_cons_ok loaded, ih]
      simp

variable {absolutePath : F → String} {configs : List TsConfigFile} {inputFiles : List F}

theorem inputFilesByTsConfig_concat (file : F) :
    inputFilesByTsConfig absolutePath configs (inputFiles ++ [file]) =
      (inputFilesByTsConfig absolutePath configs inputFiles).set
        (configOf absolutePath configs file)
        (((inputFilesByTsConfig absolutePath configs inputFiles).get
          (configOf absolutePath configs file)).getD [] ++ [file]) := by
  rw [inputFilesByTsConfig, List.foldl_append]
  rfl

theorem get_inputFilesByTsConfig (key : Option ℕ) :
    ((inputFilesByTsConfig absolutePath configs inputFiles).get key).getD [] =
      inputFiles.filter fun file => configOf absolutePath configs file = key := by
  induction inputFiles using List.reverseRecOn with
  | nil => rfl
  | append_singleton inputFiles file ih =>
      rw [inputFilesByTsConfig_concat, OrderedMap.get_set, List.filter_append]
      by_cases same : key = configOf absolutePath configs file
      · rw [if_pos same, ← same, Option.getD_some, ih]
        simp [same]
      · rw [if_neg same, ih]
        simp [Ne.symm same]

theorem entry_inputFilesByTsConfig {key : Option ℕ} {files : List F}
    (member : (key, files) ∈ (inputFilesByTsConfig absolutePath configs inputFiles).entries) :
    files = inputFiles.filter fun file => configOf absolutePath configs file = key := by
  rw [← get_inputFilesByTsConfig, OrderedMap.get_eq_some_iff.mpr member]
  rfl

/-- With configurations, a file is analysed with the first one that lists it. -/
theorem mem_analyzedWithTsConfig (file : F) (tsConfig : String) :
    (file, tsConfig) ∈ analyzedWithTsConfig configs
        (inputFilesByTsConfig absolutePath configs inputFiles) ↔
      file ∈ inputFiles ∧ ∃ i config, configOf absolutePath configs file = some i ∧
        configs[i]? = some config ∧ config.filename = tsConfig := by
  rw [analyzedWithTsConfig, List.mem_flatMap]
  constructor
  · rintro ⟨⟨key, files⟩, member, inFiles⟩
    cases key with
    | none => cases inFiles
    | some i =>
        obtain ⟨config, found, pair⟩ := List.mem_flatMap.mp inFiles
        obtain ⟨file', inFiles', same⟩ := List.mem_map.mp pair
        cases same
        rw [entry_inputFilesByTsConfig member, List.mem_filter] at inFiles'
        exact ⟨inFiles'.1, i, config, of_decide_eq_true inFiles'.2, Option.mem_toList.mp found, rfl⟩
  · rintro ⟨inInput, i, config, key, found, rfl⟩
    have listed : file ∈
        ((inputFilesByTsConfig absolutePath configs inputFiles).get (some i)).getD [] := by
      rw [get_inputFilesByTsConfig, List.mem_filter]
      exact ⟨inInput, decide_eq_true key⟩
    cases entry : (inputFilesByTsConfig absolutePath configs inputFiles).get (some i) with
    | none =>
        rw [entry] at listed
        cases listed
    | some files =>
        rw [entry] at listed
        refine ⟨(some i, files), OrderedMap.get_eq_some_iff.mp entry, ?_⟩
        exact List.mem_flatMap.mpr ⟨config, Option.mem_toList.mpr found,
          List.mem_map.mpr ⟨file, listed, rfl⟩⟩

theorem mem_analyzedWithTsConfig_load {tsConfigFiles : String → TsConfigResponse}
    {order : List String} (file : F) (tsConfig : String) :
    (file, tsConfig) ∈ analyzedWithTsConfig (order.map (loadTsConfig tsConfigFiles))
        (inputFilesByTsConfig absolutePath (order.map (loadTsConfig tsConfigFiles)) inputFiles) ↔
      file ∈ inputFiles ∧ FirstIn (fun k =>
        (loadTsConfig tsConfigFiles k).test absolutePath file = true) order tsConfig := by
  rw [mem_analyzedWithTsConfig, firstIn_iff_findIdx?, configOf, List.findIdx?_map]
  refine and_congr_right fun _ => ⟨?_, ?_⟩
  · rintro ⟨i, config, found, at_, rfl⟩
    rw [List.getElem?_map, Option.map_eq_some_iff] at at_
    obtain ⟨k, inOrder, rfl⟩ := at_
    exact ⟨i, found, inOrder⟩
  · rintro ⟨i, found, inOrder⟩
    exact ⟨i, loadTsConfig tsConfigFiles tsConfig, found, by rw [List.getElem?_map, inOrder]; rfl,
      rfl⟩

/-- No file is analysed twice. -/
theorem nodup_analyzedWithTsConfig (nodup : inputFiles.Nodup) :
    ((analyzedWithTsConfig configs
      (inputFilesByTsConfig absolutePath configs inputFiles)).map Prod.fst).Nodup := by
  -- the files of an entry are some of those that are assigned to its key
  have sublist (entry : Option ℕ × List F)
      (member : entry ∈ (inputFilesByTsConfig absolutePath configs inputFiles).entries) :
      ((analyzedWithTsConfig configs ⟨[entry], List.nodup_singleton _⟩).map Prod.fst).Sublist
        (inputFiles.filter fun file => configOf absolutePath configs file = entry.1) := by
    obtain ⟨key, files⟩ := entry
    rw [← entry_inputFilesByTsConfig member]
    cases key with
    | none => exact List.nil_sublist _
    | some i => cases found : configs[i]? <;> simp [analyzedWithTsConfig, found, Function.comp_def]
  rw [analyzedWithTsConfig, List.map_flatMap, List.nodup_flatMap]
  refine ⟨fun entry member => ?_, ?_⟩
  · have one := (nodup.filter _).sublist (sublist entry member)
    simpa [analyzedWithTsConfig] using one
  · have keys := (inputFilesByTsConfig absolutePath configs inputFiles).nodup
    rw [List.nodup_iff_pairwise_ne, List.pairwise_map] at keys
    refine keys.imp_of_mem fun {entry entry'} member member' differ => ?_
    intro file inFirst inSecond
    have first := (sublist entry member).subset (by simpa [analyzedWithTsConfig] using inFirst)
    have second := (sublist entry' member').subset (by simpa [analyzedWithTsConfig] using inSecond)
    rw [List.mem_filter] at first second
    exact differ ((of_decide_eq_true first.2).symm.trans (of_decide_eq_true second.2))

end Assignment

/-! ## Both ways agree -/

/-- A project as both ways see it. Every configuration that is reached can be loaded, and
its program has the same files and references. All paths are normalised, so that the file
system finds a TypeScript file by its absolute path. No call throws. -/
structure Project (ε F : Type) where
  tsConfigs : List String
  bridge : Bridge ε F
  tsConfigFiles : String → TsConfigResponse
  inputFiles : List F
  absolutePath : F → String
  isTypeScript : F → Bool
  nodup : inputFiles.Nodup
  creates : ∀ tsConfig, bridge.Reachable tsConfigs tsConfig →
    ∃ program, bridge.Creates tsConfig program ∧
      program.files = (loadTsConfig tsConfigFiles tsConfig).files ∧
      program.projectReferences = (loadTsConfig tsConfigFiles tsConfig).projectReferences
  analyze : ∀ file program, bridge.analyze file program = .ok ()
  deleteProgram : ∀ program, bridge.deleteProgram program = .ok ()
  pathOf_start : ∀ path ∈ tsConfigs, bridge.pathOf path = path
  pathOf_reference : ∀ tsConfig, bridge.Reachable tsConfigs tsConfig →
    ∀ path ∈ (loadTsConfig tsConfigFiles tsConfig).projectReferences, bridge.pathOf path = path
  inputFile : ∀ tsConfig, bridge.Reachable tsConfigs tsConfig →
    ∀ path ∈ (loadTsConfig tsConfigFiles tsConfig).files, ∀ file,
      bridge.inputFile path = some file ↔
        file ∈ inputFiles ∧ isTypeScript file = true ∧ absolutePath file = path

namespace Project

variable {ε F : Type} (project : Project ε F)

theorem references_eq {tsConfig : String}
    (reachable : project.bridge.Reachable project.tsConfigs tsConfig) :
    project.bridge.references tsConfig =
      (loadTsConfig project.tsConfigFiles tsConfig).projectReferences := by
  obtain ⟨program, ⟨created, noError⟩, -, references⟩ := project.creates tsConfig reachable
  rw [Bridge.references, created, ← references]
  simp [noError]

/-- A program lists a TypeScript file exactly if the configuration does. -/
theorem lists_iff {tsConfig : String}
    (reachable : project.bridge.Reachable project.tsConfigs tsConfig) (file : F) :
    project.bridge.Lists tsConfig file ↔ file ∈ project.inputFiles ∧
      project.isTypeScript file = true ∧
      (loadTsConfig project.tsConfigFiles tsConfig).test project.absolutePath file = true := by
  obtain ⟨program, creates, files, -⟩ := project.creates tsConfig reachable
  constructor
  · rintro ⟨program', creates', path, inFiles, found⟩
    cases creates.1.symm.trans creates'.1
    rw [files] at inFiles
    obtain ⟨inInput, isTypeScript, rfl⟩ :=
      (project.inputFile tsConfig reachable path inFiles file).mp found
    exact ⟨inInput, isTypeScript, by simpa [TsConfigFile.test] using inFiles⟩
  · rintro ⟨inInput, isTypeScript, test⟩
    have inFiles : project.absolutePath file ∈
        (loadTsConfig project.tsConfigFiles tsConfig).files := by
      simpa [TsConfigFile.test] using test
    refine ⟨program, creates, project.absolutePath file, by rwa [files], ?_⟩
    exact (project.inputFile tsConfig reachable _ inFiles file).mpr ⟨inInput, isTypeScript, rfl⟩

/-- Both ways see the configurations in the same order. -/
theorem order_eq (fuel : ℕ) :
    Traversal.order project.bridge.pathOf project.bridge.references fuel project.tsConfigs [] =
      Traversal.order (fun path => path)
        (fun tsConfig => (loadTsConfig project.tsConfigFiles tsConfig).projectReferences) fuel
        project.tsConfigs [] := by
  apply Traversal.order_congr project.pathOf_start
  intro tsConfig reachable
  refine ⟨project.references_eq reachable, fun path member => ?_⟩
  rw [project.references_eq reachable] at member
  exact project.pathOf_reference tsConfig reachable path member

/-- What `loadTsConfigs` loads. -/
theorem loadTsConfigs_eq {fuel : ℕ} {order : List String}
    (found : Traversal.order project.bridge.pathOf project.bridge.references fuel project.tsConfigs
      [] = some order) :
    loadTsConfigs project.tsConfigFiles fuel project.tsConfigs =
      .ok (some order) (order.map (loadTsConfig project.tsConfigFiles)) := by
  rw [project.order_eq] at found
  have follows : (loadLoop project.tsConfigFiles).Follows fun tsConfig =>
      (loadTsConfig project.tsConfigFiles tsConfig).projectReferences := by
    intro tsConfig configs references configs' loaded
    cases loaded
    rfl
  apply ((loadLoop project.tsConfigFiles).run_eq follows found []).trans
  exact Action.bind_ok (visitAll_loadLoop project.tsConfigFiles order [])

variable [DecidableEq F]

/-- With programs and with configurations, the TypeScript files are analysed with the
same configurations, and each of them once. -/
theorem analyses_agree (project : Project ε F)
    (finite : {tsConfig | project.bridge.Reachable project.tsConfigs tsConfig}.Finite) :
    ∃ bound order s configs,
      (∀ fuel ≥ bound, analyzeFiles project.bridge fuel project.tsConfigs = .ok (some order) s) ∧
      (∀ fuel ≥ bound, loadTsConfigs project.tsConfigFiles fuel project.tsConfigs =
        .ok (some order) configs) ∧
      (∀ file tsConfig, .analyze file tsConfig ∈ s.calls ↔
        project.isTypeScript file = true ∧ (file, tsConfig) ∈ analyzedWithTsConfig configs
          (inputFilesByTsConfig project.absolutePath configs project.inputFiles)) ∧
      (analyzed s.calls).Nodup ∧
      ((analyzedWithTsConfig configs
        (inputFilesByTsConfig project.absolutePath configs project.inputFiles)).map
          Prod.fst).Nodup := by
  obtain ⟨bound, order, found, -, reachable, runs⟩ :=
    exists_analyzeFiles_eq project.bridge project.tsConfigs finite
  have never : project.bridge.NeverThrows order := by
    refine ⟨fun tsConfig member => ?_, project.analyze, project.deleteProgram⟩
    obtain ⟨program, creates, -⟩ := project.creates tsConfig ((reachable tsConfig).mp member)
    exact ⟨program, creates.1⟩
  obtain ⟨s, ran⟩ := visitAll_ok never .new
  obtain ⟨visits, -, -, adds, -⟩ := visitAll_spec project.bridge order .new
  rw [ran] at adds
  refine ⟨bound, order, s, order.map (loadTsConfig project.tsConfigFiles), ?_, ?_, ?_, ?_, ?_⟩
  · intro fuel le
    rw [runs fuel le, Action.bind_ok ran]
    rfl
  · exact fun fuel le => project.loadTsConfigs_eq (found fuel le)
  · intro file tsConfig
    have lists := FirstIn.congr (fun k member =>
      project.lists_iff ((reachable k).mp member) file) tsConfig
    have nothing : Call.analyze file tsConfig ∉ (State.new : State F).calls := List.not_mem_nil
    have none_ : file ∉ (State.new : State F).analyzedFiles := OrderedSet.not_mem_empty file
    rw [analyze_mem_calls_iff ran, lists, firstIn_and, firstIn_and, mem_analyzedWithTsConfig_load,
      and_iff_right none_, or_iff_right nothing, and_left_comm]
  · have calls : s.calls = visits.flatMap Visited.calls := adds.calls
    have files : s.analyzedFiles.elems = visits.flatMap Visited.files := adds.files
    rw [calls, analyzed_flatMap, ← files]
    exact s.analyzedFiles.nodup
  · exact nodup_analyzedWithTsConfig project.nodup

end Project

/-! ## Two configurations that list the same file -/

section Mutual

def mutualTsConfigs (filename : String) : TsConfigResponse :=
  if filename = "a/tsconfig.json" then ⟨some ["a/x.ts"], some ["b/tsconfig.json"], none⟩
  else if filename = "b/tsconfig.json" then
    ⟨some ["a/x.ts", "b/y.ts"], some ["a/tsconfig.json"], none⟩
  else ⟨none, none, none⟩

def mutualProject : Project Unit String where
  tsConfigs := ["a/tsconfig.json"]
  bridge :=
    { pathOf := fun path => path
      createProgram := fun tsConfig =>
        .ok ⟨tsConfig, (loadTsConfig mutualTsConfigs tsConfig).files,
          (loadTsConfig mutualTsConfigs tsConfig).projectReferences, false, none⟩
      analyze := fun _ _ => .ok ()
      deleteProgram := fun _ => .ok ()
      inputFile := fun path => if path ∈ ["a/x.ts", "b/y.ts"] then some path else none }
  tsConfigFiles := mutualTsConfigs
  inputFiles := ["a/x.ts", "b/y.ts"]
  absolutePath file := file
  isTypeScript _ := true
  nodup := by decide
  creates _ _ := ⟨_, ⟨rfl, rfl⟩, rfl, rfl⟩
  analyze _ _ := rfl
  deleteProgram _ := rfl
  pathOf_start _ _ := rfl
  pathOf_reference _ _ _ _ := rfl
  inputFile _ _ path _ file := by
    rw [Option.ite_none_right_eq_some, Option.some.injEq]
    constructor
    · rintro ⟨member, rfl⟩
      exact ⟨member, rfl, rfl⟩
    · rintro ⟨member, -, rfl⟩
      exact ⟨member, rfl⟩

theorem mutualProject_finite :
    {tsConfig | mutualProject.bridge.Reachable mutualProject.tsConfigs tsConfig}.Finite := by
  apply (List.finite_toSet ["a/tsconfig.json", "b/tsconfig.json"]).subset
  intro tsConfig reachable
  induction reachable with
  | start member =>
      rw [List.mem_singleton.mp member]
      exact List.mem_cons_self
  | @next k n _ member ih =>
      have cases_ : k = "a/tsconfig.json" ∨ k = "b/tsconfig.json" := by simpa using ih
      obtain rfl | rfl := cases_
      · rw [List.mem_singleton.mp member]
        exact List.mem_cons_of_mem _ List.mem_cons_self
      · rw [List.mem_singleton.mp member]
        exact List.mem_cons_self

theorem analyses_agree_on_shared_file :
    ∃ bound order s configs,
      (∀ fuel ≥ bound, analyzeFiles mutualProject.bridge fuel ["a/tsconfig.json"] =
        .ok (some order) s) ∧
      (∀ fuel ≥ bound, loadTsConfigs mutualTsConfigs fuel ["a/tsconfig.json"] =
        .ok (some order) configs) ∧
      (Call.analyze "a/x.ts" "a/tsconfig.json" ∈ s.calls ↔
        true = true ∧ ("a/x.ts", "a/tsconfig.json") ∈ analyzedWithTsConfig configs
          (inputFilesByTsConfig (fun file => file) configs ["a/x.ts", "b/y.ts"])) := by
  obtain ⟨bound, order, s, configs, runs, loads, agree, -⟩ :=
    Project.analyses_agree mutualProject mutualProject_finite
  exact ⟨bound, order, s, configs, runs, loads, agree "a/x.ts" "a/tsconfig.json"⟩

end Mutual

end TypeScript

end SonarJS
