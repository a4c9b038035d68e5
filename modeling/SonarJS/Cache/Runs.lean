import SonarJS.Cache.Strategy

/-!
# Analysis after analysis

A run of the analysis goes over the input files: a file is either taken from the
previous cache, or the bridge analyses it and the response is written to the next
cache. The next cache of a run is the previous cache of the run after it.

What is followed here is one file that does not change. A miss writes all five entries
of the file. A hit copies four of them, and the metadata is the one that is left out:
the run after a hit finds no metadata, takes the file for changed and analyses it. So
hits and misses alternate.
-/

namespace SonarJS

namespace Cache

abbrev Outcome := CacheStrategy × Option MissReason

/-- What the bridge answers, and the file system with the files it has generated. -/
structure Response where
  fileSystem : FileSystem Name
  analysis : CacheAnalysis

section Analysis

variable (platform : Platform) (plugin : PluginInfo) (context : SensorContext)
  (bridge : InputFile → FileSystem Name → Response)

/-- `analyze`, as the sensors have it. -/
inductive Analyzes (inputFile : InputFile) (world : World) : Outcome → World → Prop
  | cached {strategy : CacheStrategy} {reason : Option MissReason} {world' : World} :
      CacheStrategies.getStrategyFor platform plugin context inputFile world =
        .ok (strategy, reason) world' →
      strategy.isAnalysisRequired = false → Analyzes inputFile world (strategy, reason) world'
  | analyzed {strategy : CacheStrategy} {reason : Option MissReason} {world₁ world' : World} :
      CacheStrategies.getStrategyFor platform plugin context inputFile world =
        .ok (strategy, reason) world₁ →
      strategy.isAnalysisRequired = true →
      strategy.WritesAnalysisToCache platform plugin context
        (bridge inputFile world₁.fileSystem).analysis inputFile
        { world₁ with fileSystem := (bridge inputFile world₁.fileSystem).fileSystem } world' →
      Analyzes inputFile world (strategy, reason) world'

/-- The loop over the input files. -/
inductive AnalyzesAll : List InputFile → World → World → Prop
  | nil (world : World) : AnalyzesAll [] world world
  | cons {inputFile : InputFile} {inputFiles : List InputFile} {world world₁ world' : World}
      {outcome : Outcome} : Analyzes platform plugin context bridge inputFile world outcome world₁ →
        AnalyzesAll inputFiles world₁ world' → AnalyzesAll (inputFile :: inputFiles) world world'

end Analysis

/-- The listed files exist below the working directory, and none is listed twice. -/
def Response.Generated (workDir : Path) (response : Response) : Prop :=
  ∃ files : List Path, response.analysis.ucfgPaths.getD [] = files.map (workDir ++ ·) ∧
    (∀ file ∈ files, file ≠ []) ∧ files.Nodup ∧
    ∀ file ∈ files, ∃ bytes, response.fileSystem.entry (workDir ++ file) = some (.file bytes)

/-- A run that goes over an input file, starting from a previous cache. The file is
reached once, among others. Nothing but the cache decides what happens to it: the
runtime is compatible, unchanged files may be skipped, the bridge generates the files
that it lists, Gson reads the manifest back, and in the working directory nothing is in
the way of the files of the cached manifest. -/
structure Run (platform : Platform) (plugin : PluginInfo) (inputFile : InputFile)
    (previous : Entries) where
  context : SensorContext
  previousCache : context.previousCache = previous
  compatible : CacheStrategies.isRuntimeApiCompatible context = true
  canSkip : context.canSkipUnchangedFiles = true
  bridge : InputFile → FileSystem Name → Response
  generated : ∀ fileSystem, (bridge inputFile fileSystem).Generated context.workDir
  readsBack : ∀ fileSystem chunking stored manifest,
    WritesToCache (bridge inputFile fileSystem).fileSystem chunking context.workDir
        (bridge inputFile fileSystem).analysis.ucfgPaths stored manifest →
      platform.gsonFilesManifest.ReadsBack manifest
  fileSystem : FileSystem Name
  before : List InputFile
  after : List InputFile
  others : ∀ other ∈ before ++ after, other.key ≠ inputFile.key
  reached : World
  reaches : AnalyzesAll platform plugin context bridge before ⟨fileSystem, fun _ => none⟩ reached
  unobstructed : ∀ manifest, JsonSerialization.readFromCache platform context
      platform.gsonFilesManifest (Entry.json.cacheKey plugin inputFile) = .ok (some manifest) →
    ∀ fileSize ∈ manifest, ∀ path, convertFromEntryName context.workDir fileSize.name = .ok path →
      Unobstructed reached.fileSystem path
  outcome : Outcome
  left : World
  analyzes : Analyzes platform plugin context bridge inputFile reached outcome left
  finished : World
  finishes : AnalyzesAll platform plugin context bridge after left finished

/-- Run after run, each from the next cache of the one before, and what each of them
does with the file. -/
inductive Runs (platform : Platform) (plugin : PluginInfo) (inputFile : InputFile) :
    Entries → List Outcome → Prop
  | nil (previous : Entries) : Runs platform plugin inputFile previous []
  | cons {previous : Entries} (run : Run platform plugin inputFile previous)
      {outcomes : List Outcome} :
      Runs platform plugin inputFile run.finished.nextCache outcomes →
        Runs platform plugin inputFile previous (run.outcome :: outcomes)

/-! ## What an analysis does -/

section Inversion

variable {platform : Platform} {plugin : PluginInfo} {context : SensorContext}
  {bridge : InputFile → FileSystem Name → Response} {inputFile : InputFile}
  {world world₁ world' : World} {strategy : CacheStrategy} {reason : Option MissReason}
  {outcome : Outcome}

theorem Analyzes.of_not_required
    (h : Analyzes platform plugin context bridge inputFile world outcome world')
    (returns : CacheStrategies.getStrategyFor platform plugin context inputFile world =
      .ok (strategy, reason) world₁)
    (notRequired : strategy.isAnalysisRequired = false) :
    outcome = (strategy, reason) ∧ world' = world₁ := by
  cases h with
  | cached returns' _ =>
      cases returns.symm.trans returns'
      exact ⟨rfl, rfl⟩
  | analyzed returns' required _ =>
      cases returns.symm.trans returns'
      rw [notRequired] at required
      cases required

theorem Analyzes.of_required
    (h : Analyzes platform plugin context bridge inputFile world outcome world')
    (returns : CacheStrategies.getStrategyFor platform plugin context inputFile world =
      .ok (strategy, reason) world₁)
    (required : strategy.isAnalysisRequired = true) :
    outcome = (strategy, reason) ∧ strategy.WritesAnalysisToCache platform plugin context
      (bridge inputFile world₁.fileSystem).analysis inputFile
      { world₁ with fileSystem := (bridge inputFile world₁.fileSystem).fileSystem } world' := by
  cases h with
  | cached returns' notRequired =>
      cases returns.symm.trans returns'
      rw [required] at notRequired
      cases notRequired
  | analyzed returns' _ writes =>
      cases returns.symm.trans returns'
      exact ⟨rfl, writes⟩

end Inversion

/-! ## The analysis of other files -/

section Frame

variable {platform : Platform} {plugin : PluginInfo} {context : SensorContext}
  {bridge : InputFile → FileSystem Name → Response}

/-- What is in the next cache for a file stays the same. -/
def SameEntries (plugin : PluginInfo) (inputFile : InputFile) (world world' : World) : Prop :=
  ∀ entry : Entry, world'.nextCache (entry.key plugin inputFile) =
    world.nextCache (entry.key plugin inputFile)

variable {inputFile other : InputFile}

instance : Std.Refl (SameEntries plugin inputFile) := ⟨fun _ _ => rfl⟩

instance : IsTrans World (SameEntries plugin inputFile) :=
  ⟨fun _ _ _ first second entry => (second entry).trans (first entry)⟩

section

variable (ne : other.key ≠ inputFile.key)

include ne

theorem keeps_writeToCache (entry : Entry) (bytes : Bytes) : Action.Keeps
    (SameEntries plugin inputFile)
    (CacheSerialization.writeToCache (entry.cacheKey plugin other) bytes) := by
  intro world entry'
  rw [CacheSerialization.writeToCache]
  split
  · rfl
  · change (world.put (entry.key plugin other) bytes).nextCache _ = _
    rw [World.nextCache_put, if_neg fun same => ne (Entry.eq_of_key_eq same).2.symm]

theorem keeps_copyFromPrevious (entry : Entry) : Action.Keeps (SameEntries plugin inputFile)
    (CacheSerialization.copyFromPrevious context (entry.cacheKey plugin other)) :=
  (Action.keeps_ofExcept _).bind fun bytes => keeps_writeToCache ne entry bytes

theorem keeps_copyAll : Action.Keeps (SameEntries plugin inputFile)
    (CacheAnalysisSerialization.copyFromPrevious plugin context
      (CacheKey.forFile other plugin.version)) := by
  have ucfg : Action.Keeps (SameEntries plugin inputFile)
      (UCFGFilesSerialization.copyFromPrevious context
        ((CacheKey.forFile other plugin.version).forUcfg plugin)) :=
    (keeps_copyFromPrevious ne .json).bind fun _ => keeps_copyFromPrevious ne .seq
  have cpd : Action.Keeps (SameEntries plugin inputFile)
      (CpdSerialization.copyFromPrevious context (CacheKey.forFile other plugin.version).forCpd) :=
    (keeps_copyFromPrevious ne .data).bind fun _ => keeps_copyFromPrevious ne .stringTable
  exact ucfg.bind fun _ => cpd

theorem keeps_readAndCopy : Action.Keeps (SameEntries plugin inputFile)
    (CacheStrategies.readAndCopy platform plugin context
      (CacheKey.forFile other plugin.version)) := by
  have files : Action.Keeps (SameEntries plugin inputFile)
      (UCFGFilesSerialization.readFromCache platform context
        ((CacheKey.forFile other plugin.version).forUcfg plugin)) := by
    refine (Action.keeps_ofExcept _).bind ?_
    intro manifest
    cases manifest with
    | none => exact Action.keeps_throw _
    | some manifest =>
        refine (Action.keeps_ofExcept _).bind ?_
        intro input
        exact Action.keeps_onPart (fun _ _ _ => rfl) _
  have read : Action.Keeps (SameEntries plugin inputFile)
      (CacheAnalysisSerialization.readFromCache platform plugin context
        (CacheKey.forFile other plugin.version)) :=
    files.bind fun _ => (Action.keeps_ofExcept _).bind fun _ => Action.keeps_pure _
  exact read.bind fun _ => (keeps_copyAll ne).bind fun _ => Action.keeps_pure _

theorem keeps_getStrategyFor : Action.Keeps (SameEntries plugin inputFile)
    (CacheStrategies.getStrategyFor platform plugin context other) := by
  have read : Action.Keeps (SameEntries plugin inputFile)
      (CacheStrategies.readFromCache platform plugin context
        (CacheKey.forFile other plugin.version)) := by
    intro world
    have kept : SameEntries plugin inputFile world (Action.finalState
        (CacheStrategies.readAndCopy platform plugin context
          (CacheKey.forFile other plugin.version) world)) := keeps_readAndCopy ne world
    rw [CacheStrategies.readFromCache]
    split
    · rename_i ran
      rwa [ran] at kept
    · rename_i ran
      rw [ran] at kept
      split <;> exact kept
  simp only [CacheStrategies.getStrategyFor]
  split
  · exact Action.keeps_pure _
  · split
    · exact Action.keeps_pure _
    · refine (Action.keeps_ofExcept _).bind ?_
      intro unchanged
      split
      · exact Action.keeps_pure _
      · split
        · exact Action.keeps_pure _
        · apply read.bind
          intro cacheAnalysis
          cases cacheAnalysis <;> exact Action.keeps_pure _

omit ne in
/-- Only an incompatible runtime does without the cache. Any other strategy writes
under the keys of its file. -/
theorem getStrategyFor_serialization {strategy : CacheStrategy} {reason : Option MissReason}
    {world world' : World} (h : CacheStrategies.getStrategyFor platform plugin context other world =
      .ok (strategy, reason) world') :
    strategy = .noCache ∧ world' = world ∨
      CacheStrategies.isRuntimeApiCompatible context = true ∧
        (strategy = .writeOnly (CacheKey.forFile other plugin.version) ∨
          ∃ cacheAnalysis,
            strategy = .readAndWrite cacheAnalysis (CacheKey.forFile other plugin.version)) := by
  cases compatible : CacheStrategies.isRuntimeApiCompatible context with
  | false =>
      simp only [CacheStrategies.getStrategyFor, compatible, Bool.not_false, if_true] at h
      cases h
      exact .inl ⟨rfl, rfl⟩
  | true =>
      refine .inr ⟨rfl, ?_⟩
      simp only [CacheStrategies.getStrategyFor, compatible, Bool.not_true, Bool.false_eq_true,
        if_false] at h
      split at h
      · cases h
        exact .inl rfl
      · obtain ⟨unchanged, world₁, -, h⟩ := Action.bind_eq_ok h
        split at h
        · cases h
          exact .inl rfl
        · split at h
          · cases h
            exact .inl rfl
          · obtain ⟨cacheAnalysis, world₂, -, h⟩ := Action.bind_eq_ok h
            cases cacheAnalysis with
            | none =>
                cases h
                exact .inl rfl
            | some cacheAnalysis =>
                cases h
                exact .inr ⟨cacheAnalysis, rfl⟩

theorem SameEntries.of_writesToCache {analysis : CacheAnalysis} {world world' : World}
    (h : CacheAnalysisSerialization.WritesToCache platform plugin context
      (CacheKey.forFile other plugin.version) analysis other world world') :
    SameEntries plugin inputFile world world' := by
  obtain ⟨chunking, stored, manifest, cpdData, -, -, wrote⟩ := h
  have ucfg : Action.Keeps (SameEntries plugin inputFile)
      (UCFGFilesSerialization.writeToCache platform
        ((CacheKey.forFile other plugin.version).forUcfg plugin) stored manifest) :=
    (keeps_writeToCache ne .seq stored).bind fun _ => keeps_writeToCache ne .json _
  have cpd : Action.Keeps (SameEntries plugin inputFile)
      (CpdSerialization.writeToCache (CacheKey.forFile other plugin.version).forCpd cpdData) :=
    (keeps_writeToCache ne .data _).bind fun _ => keeps_writeToCache ne .stringTable _
  refine (ucfg.bind fun _ => cpd.bind fun _ => ?_).of_ok wrote
  exact (Action.keeps_ofExcept _).bind fun _ => keeps_writeToCache ne .fileMetadata _

/-- The analysis of another file does not touch the entries of the file. -/
theorem Analyzes.sameEntries {world world' : World} {outcome : Outcome}
    (h : Analyzes platform plugin context bridge other world outcome world') :
    SameEntries plugin inputFile world world' := by
  cases h with
  | cached returns _ => exact (keeps_getStrategyFor ne).of_ok returns
  | @analyzed strategy reason world₁ _ returns _ writes =>
      have first : SameEntries plugin inputFile world world₁ :=
        (keeps_getStrategyFor ne).of_ok returns
      -- the bridge does not touch the cache
      have second : SameEntries plugin inputFile world₁ world' := by
        rcases getStrategyFor_serialization returns with
          ⟨rfl, -⟩ | ⟨-, rfl | ⟨cacheAnalysis, rfl⟩⟩
        · rw [show world' = _ from writes]
          exact fun _ => rfl
        · exact fun entry => SameEntries.of_writesToCache ne writes entry
        · exact fun entry => SameEntries.of_writesToCache ne writes entry
      exact trans_of (SameEntries plugin inputFile) first second

omit ne in
theorem AnalyzesAll.sameEntries {others : List InputFile} {world world' : World}
    (ne : ∀ other ∈ others, other.key ≠ inputFile.key)
    (h : AnalyzesAll platform plugin context bridge others world world') :
    SameEntries plugin inputFile world world' := by
  induction h with
  | nil world => exact fun _ => rfl
  | cons first _ ih =>
      rw [List.forall_mem_cons] at ne
      exact trans_of (SameEntries plugin inputFile) (first.sameEntries ne.1) (ih ne.2)

end

end Frame

/-! ## One run -/

/-- The cache holds the file: all five entries are there, as they are written. -/
structure HoldsFile (platform : Platform) (plugin : PluginInfo) (inputFile : InputFile)
    (metadata : FileMetadata) (cache : Entries) : Prop where
  fileMetadata : cache (Entry.fileMetadata.key plugin inputFile) =
    some (Utf8.encode (platform.gsonFileMetadata.toJson metadata))
  generatedFiles : ∃ (response : Response) (directory : Path) (chunking : Path → ℕ → ℕ)
      (stored : Bytes) (manifest : FilesManifest), response.Generated directory ∧
    WritesToCache response.fileSystem chunking directory response.analysis.ucfgPaths stored
      manifest ∧
    platform.gsonFilesManifest.ReadsBack manifest ∧
    cache (Entry.json.key plugin inputFile) =
      some (Utf8.encode (platform.gsonFilesManifest.toJson manifest)) ∧
    cache (Entry.seq.key plugin inputFile) = some stored
  cpd : ∃ cpdData : CpdData platform.jvm,
    cache (Entry.data.key plugin inputFile) = some (toBinary cpdData).data ∧
    cache (Entry.stringTable.key plugin inputFile) = some (toBinary cpdData).stringTable

theorem HoldsFile.congr {platform : Platform} {plugin : PluginInfo} {inputFile : InputFile}
    {metadata : FileMetadata} {cache cache' : Entries}
    (h : HoldsFile platform plugin inputFile metadata cache)
    (same : ∀ entry : Entry, cache' (entry.key plugin inputFile) =
      cache (entry.key plugin inputFile)) :
    HoldsFile platform plugin inputFile metadata cache' := by
  obtain ⟨fileMetadata, generatedFiles, cpd⟩ := h
  refine ⟨?_, ?_, ?_⟩
  · rwa [same]
  · simpa only [same] using generatedFiles
  · simpa only [same] using cpd

/-- The cache does not offer the file: its metadata is missing or differs, or another
entry is missing. -/
def Misses (platform : Platform) (plugin : PluginInfo) (inputFile : InputFile)
    (previous : Entries) : Prop :=
  ∀ context : SensorContext, context.previousCache = previous →
    CacheStrategies.isUnchanged platform context (CacheKey.forFile inputFile plugin.version)
        inputFile = .ok false ∨
      CacheStrategies.isUnchanged platform context (CacheKey.forFile inputFile plugin.version)
          inputFile = .ok true ∧
        CacheAnalysisSerialization.isInCache plugin context
          (CacheKey.forFile inputFile plugin.version) = false

section Step

variable {platform : Platform} {plugin : PluginInfo} {context : SensorContext}
  {inputFile : InputFile} {metadata : FileMetadata} {world world' : World}

theorem misses_of_no_metadata {previous : Entries}
    (none_ : previous (Entry.fileMetadata.key plugin inputFile) = none) :
    Misses platform plugin inputFile previous := by
  rintro context rfl
  have absent : CacheSerialization.isInCache context
      (CacheKey.forFile inputFile plugin.version).forFileMetadata = false := by
    rw [CacheSerialization.isInCache]
    exact congrArg Option.isSome none_
  left
  rw [CacheStrategies.isUnchanged, CacheAnalysisSerialization.fileMetadata, absent]
  rfl

variable (world) in
/-- A file that the cache does not offer is analysed. -/
theorem Misses.getStrategyFor_eq (h : Misses platform plugin inputFile context.previousCache)
    (compatible : CacheStrategies.isRuntimeApiCompatible context = true)
    (canSkip : context.canSkipUnchangedFiles = true) :
    ∃ reason, CacheStrategies.getStrategyFor platform plugin context inputFile world =
      .ok (.writeOnly (CacheKey.forFile inputFile plugin.version), some reason) world := by
  obtain changed | ⟨unchanged, notInCache⟩ := h context rfl
  · rw [CacheStrategies.getStrategyFor_of_canSkip world compatible canSkip changed]
    exact ⟨.fileChanged, rfl⟩
  · rw [CacheStrategies.getStrategyFor_of_canSkip world compatible canSkip unchanged, notInCache]
    exact ⟨.fileNotInCache, rfl⟩

/-- What a miss leaves behind: all five entries. -/
def World.written (plugin : PluginInfo) (inputFile : InputFile) (world : World)
    (seq json data stringTable fileMetadata : Bytes) : World :=
  ((((world.put (Entry.seq.key plugin inputFile) seq).put
    (Entry.json.key plugin inputFile) json).put
    (Entry.data.key plugin inputFile) data).put
    (Entry.stringTable.key plugin inputFile) stringTable).put
    (Entry.fileMetadata.key plugin inputFile) fileMetadata

theorem writeToCache_eq_written (world : World)
    (metadata_ : FileMetadata.ofFile platform inputFile = .ok metadata)
    (new : ∀ entry : Entry, world.nextCache (entry.key plugin inputFile) = none) (stored : Bytes)
    (manifest : FilesManifest) (cpdData : CpdData platform.jvm) :
    (do
      UCFGFilesSerialization.writeToCache platform
        ((CacheKey.forFile inputFile plugin.version).forUcfg plugin) stored manifest
      CpdSerialization.writeToCache (CacheKey.forFile inputFile plugin.version).forCpd cpdData
      let metadata ← Action.ofExcept (FileMetadata.ofFile platform inputFile)
      JsonSerialization.writeToCache platform.gsonFileMetadata
        (CacheKey.forFile inputFile plugin.version).forFileMetadata metadata : CacheM Unit) world =
      .ok () (world.written plugin inputFile stored
        (Utf8.encode (platform.gsonFilesManifest.toJson manifest)) (toBinary cpdData).data
        (toBinary cpdData).stringTable
        (Utf8.encode (platform.gsonFileMetadata.toJson metadata))) := by
  -- the next cache after each of the first four writes
  let world₁ := world.put (Entry.seq.key plugin inputFile) stored
  let world₂ := world₁.put (Entry.json.key plugin inputFile)
    (Utf8.encode (platform.gsonFilesManifest.toJson manifest))
  let world₃ := world₂.put (Entry.data.key plugin inputFile) (toBinary cpdData).data
  let world₄ := world₃.put (Entry.stringTable.key plugin inputFile) (toBinary cpdData).stringTable
  have jsonNew : world₁.nextCache (Entry.json.key plugin inputFile) = none := by
    simpa [world₁, Entry.key_inj] using new .json
  have dataNew : world₂.nextCache (Entry.data.key plugin inputFile) = none := by
    simpa [world₂, world₁, Entry.key_inj] using new .data
  have stringTableNew : world₃.nextCache (Entry.stringTable.key plugin inputFile) = none := by
    simpa [world₃, world₂, world₁, Entry.key_inj] using new .stringTable
  have metadataNew : world₄.nextCache (Entry.fileMetadata.key plugin inputFile) = none := by
    simpa [world₄, world₃, world₂, world₁, Entry.key_inj] using new .fileMetadata
  have ucfg : UCFGFilesSerialization.writeToCache platform
      ((CacheKey.forFile inputFile plugin.version).forUcfg plugin) stored manifest world =
        .ok () world₂ :=
    (Action.bind_ok (CacheSerialization.writeToCache_of_none world (new .seq) stored)).trans
      (CacheSerialization.writeToCache_of_none world₁ jsonNew _)
  have cpd : CpdSerialization.writeToCache (CacheKey.forFile inputFile plugin.version).forCpd
      cpdData world₂ = .ok () world₄ :=
    (Action.bind_ok (CacheSerialization.writeToCache_of_none world₂ dataNew _)).trans
      (CacheSerialization.writeToCache_of_none world₃ stringTableNew _)
  rw [Action.bind_ok ucfg, Action.bind_ok cpd,
    Action.bind_ok (Action.ofExcept_ok metadata_ world₄)]
  exact CacheSerialization.writeToCache_of_none world₄ metadataNew _

/-- A miss writes all entries. -/
theorem HoldsFile.of_writesToCache {response : Response} {nextCache : Entries}
    (metadata_ : FileMetadata.ofFile platform inputFile = .ok metadata)
    (generated : response.Generated context.workDir)
    (readsBack : ∀ chunking stored manifest, WritesToCache response.fileSystem chunking
      context.workDir response.analysis.ucfgPaths stored manifest →
        platform.gsonFilesManifest.ReadsBack manifest)
    (new : ∀ entry : Entry, nextCache (entry.key plugin inputFile) = none)
    (h : CacheAnalysisSerialization.WritesToCache platform plugin context
      (CacheKey.forFile inputFile plugin.version) response.analysis inputFile
      ⟨response.fileSystem, nextCache⟩ world') :
    HoldsFile platform plugin inputFile metadata world'.nextCache := by
  obtain ⟨chunking, stored, manifest, cpdData, writes, -, wrote⟩ := h
  cases (writeToCache_eq_written _ metadata_ new stored manifest cpdData).symm.trans wrote
  refine ⟨by simp [World.written], ?_, cpdData, ?_, ?_⟩
  · refine ⟨response, context.workDir, chunking, stored, manifest, generated, writes,
      readsBack chunking stored manifest writes, ?_, ?_⟩ <;> simp [World.written, Entry.key_inj]
  · simp [World.written, Entry.key_inj]
  · simp [World.written, Entry.key_inj]

theorem FileMetadata.compareTo_ofFile
    (h : FileMetadata.ofFile platform inputFile = .ok metadata) :
    metadata.compareTo platform inputFile = .ok true := by
  unfold FileMetadata.ofFile at h
  unfold FileMetadata.compareTo
  cases contents : inputFile.contents with
  | error e =>
      rw [contents] at h
      cases h
  | ok bytes =>
      rw [contents] at h
      cases h
      simp [bind, Except.bind, pure, Except.pure]

/-- The files of a cached manifest are restored where nothing is in their way. -/
theorem exists_restores {response : Response} {directory workDir : Path}
    {chunking : Path → ℕ → ℕ} {stored : Bytes} {manifest : FilesManifest}
    {fileSystem : FileSystem Name} (generated : response.Generated directory)
    (writes : WritesToCache response.fileSystem chunking directory response.analysis.ucfgPaths
      stored manifest)
    (unobstructed : ∀ fileSize ∈ manifest, ∀ path,
      convertFromEntryName workDir fileSize.name = .ok path → Unobstructed fileSystem path)
    (chunks : ℕ → ℕ) :
    ∃ fileSystem', Cache.readFromCache workDir (some manifest) { remaining := stored, chunks }
      fileSystem = .ok () fileSystem' := by
  obtain ⟨files, paths, nonempty, nodup, isFile⟩ := generated
  have writes_ : WritesToCache response.fileSystem chunking directory
      (some (files.map (directory ++ ·))) stored manifest := by
    rw [WritesToCache, paths] at writes
    exact writes
  have distinct : ((some (files.map (directory ++ ·))).getD []).Nodup :=
    nodup.map fun _ _ same => List.append_cancel_left same
  have free : ∀ file ∈ files, Unobstructed fileSystem (workDir ++ file) := by
    intro file member
    refine unobstructed ⟨convertToEntryName directory (directory ++ file),
      (content response.fileSystem (directory ++ file)).length⟩ ?_ _
      (convertFromEntryName_convertToEntryName directory workDir (nonempty file member))
    rw [(writes_.eq distinct).2]
    exact List.mem_map_of_mem (List.mem_map_of_mem member)
  obtain ⟨fileSystem', restored, -⟩ :=
    readFromCache_of_writesToCache nonempty nodup isFile writes_ free chunks
  exact ⟨fileSystem', restored⟩

/-- A file that the cache holds is read, and all its entries but the metadata are
copied. -/
theorem HoldsFile.getStrategyFor_eq
    (holds : HoldsFile platform plugin inputFile metadata context.previousCache)
    (metadata_ : FileMetadata.ofFile platform inputFile = .ok metadata)
    (back : platform.gsonFileMetadata.ReadsBack metadata)
    (compatible : CacheStrategies.isRuntimeApiCompatible context = true)
    (canSkip : context.canSkipUnchangedFiles = true)
    (new : ∀ entry : Entry, world.nextCache (entry.key plugin inputFile) = none)
    (unobstructed : ∀ manifest, JsonSerialization.readFromCache platform context
        platform.gsonFilesManifest (Entry.json.cacheKey plugin inputFile) = .ok (some manifest) →
      ∀ fileSize ∈ manifest, ∀ path, convertFromEntryName context.workDir fileSize.name = .ok path →
        Unobstructed world.fileSystem path) :
    ∃ cacheAnalysis json seq data stringTable fileSystem,
      CacheStrategies.getStrategyFor platform plugin context inputFile world =
        .ok (.readAndWrite cacheAnalysis (CacheKey.forFile inputFile plugin.version), none)
          (World.copied plugin inputFile { world with fileSystem } json seq data stringTable) := by
  obtain ⟨response, directory, chunking, seq, manifest, generated, writes, manifestBack, json_,
    seq_⟩ := holds.generatedFiles
  obtain ⟨cpdData, data_, stringTable_⟩ := holds.cpd
  have readManifest := JsonSerialization.readFromCache_of_readsBack platform manifestBack json_
  obtain ⟨fileSystem, restores⟩ := exists_restores generated writes
    (unobstructed manifest readManifest) (context.chunks (Entry.seq.key plugin inputFile))
  have intact : IntactBesidesCpd platform plugin context inputFile world := {
    compatible := compatible
    canSkip := canSkip
    metadata := ⟨metadata, JsonSerialization.readFromCache_of_readsBack platform back
      holds.fileMetadata, FileMetadata.compareTo_ofFile metadata_⟩
    generatedFiles := ⟨manifest, seq, fileSystem, readManifest, seq_, restores⟩
    new := new }
  obtain ⟨json, seq', fileSystem', returns⟩ := intact.getStrategyFor_eq data_ stringTable_
  rw [fromBinary, convert_toBinary] at returns
  exact ⟨_, json, seq', _, _, fileSystem', returns⟩

theorem HoldsFile.not_misses {previous : Entries}
    (holds : HoldsFile platform plugin inputFile metadata previous)
    (metadata_ : FileMetadata.ofFile platform inputFile = .ok metadata)
    (back : platform.gsonFileMetadata.ReadsBack metadata) :
    ¬ Misses platform plugin inputFile previous := by
  intro misses
  let context : SensorContext := ⟨.create 9 4, .sonarQube, true, previous, [], fun _ _ => 0⟩
  obtain ⟨response, directory, chunking, seq, manifest, -, -, -, json_, seq_⟩ :=
    holds.generatedFiles
  obtain ⟨cpdData, data_, stringTable_⟩ := holds.cpd
  have inCache : CacheAnalysisSerialization.isInCache plugin context
      (CacheKey.forFile inputFile plugin.version) = true :=
    CacheAnalysisSerialization.isInCache_of_some json_ seq_ data_ stringTable_
  have read : JsonSerialization.readFromCache platform context platform.gsonFileMetadata
      (Entry.fileMetadata.cacheKey plugin inputFile) = .ok (some metadata) :=
    JsonSerialization.readFromCache_of_readsBack platform back holds.fileMetadata
  have unchanged := (CacheStrategies.isUnchanged_of_metadata read).trans
    (FileMetadata.compareTo_ofFile metadata_)
  obtain changed | ⟨-, notInCache⟩ := misses context rfl
  · rw [unchanged] at changed
    cases changed
  · rw [inCache] at notInCache
    cases notInCache

end Step

namespace Run

variable {platform : Platform} {plugin : PluginInfo} {inputFile : InputFile}
  {metadata : FileMetadata} {previous : Entries} (run : Run platform plugin inputFile previous)

/-- When the file is reached, nothing has been written for it. -/
theorem reached_new (entry : Entry) : run.reached.nextCache (entry.key plugin inputFile) = none :=
  run.reaches.sameEntries (fun other member => run.others other (List.mem_append_left _ member))
    entry

/-- What is left for the file is what the next run starts from. -/
theorem finished_eq_left (entry : Entry) :
    run.finished.nextCache (entry.key plugin inputFile) =
      run.left.nextCache (entry.key plugin inputFile) :=
  run.finishes.sameEntries (fun other member => run.others other (List.mem_append_right _ member))
    entry

/-- A file that the cache does not offer is analysed, and then the cache holds it. -/
theorem miss (metadata_ : FileMetadata.ofFile platform inputFile = .ok metadata)
    (misses : Misses platform plugin inputFile previous) :
    run.outcome.1.getName = "WRITE_ONLY" ∧
      HoldsFile platform plugin inputFile metadata run.finished.nextCache := by
  rw [← run.previousCache] at misses
  obtain ⟨reason, returns⟩ := misses.getStrategyFor_eq run.reached run.compatible run.canSkip
  obtain ⟨outcome, writes⟩ := run.analyzes.of_required returns rfl
  refine ⟨by rw [outcome]; rfl, ?_⟩
  have holds := HoldsFile.of_writesToCache metadata_ (run.generated run.reached.fileSystem)
    (run.readsBack run.reached.fileSystem) run.reached_new writes
  exact holds.congr run.finished_eq_left

/-- A file that the cache holds is taken from it, and then its metadata is missing. -/
theorem hit (metadata_ : FileMetadata.ofFile platform inputFile = .ok metadata)
    (back : platform.gsonFileMetadata.ReadsBack metadata)
    (holds : HoldsFile platform plugin inputFile metadata previous) :
    run.outcome.1.getName = "READ_AND_WRITE" ∧
      run.finished.nextCache (Entry.fileMetadata.key plugin inputFile) = none := by
  rw [← run.previousCache] at holds
  obtain ⟨cacheAnalysis, json, seq, data, stringTable, fileSystem, returns⟩ :=
    holds.getStrategyFor_eq metadata_ back run.compatible run.canSkip run.reached_new
      run.unobstructed
  obtain ⟨outcome, left⟩ := run.analyzes.of_not_required returns rfl
  refine ⟨by rw [outcome]; rfl, ?_⟩
  rw [run.finished_eq_left, left]
  simpa [World.copied, Entry.key_inj] using run.reached_new .fileMetadata

end Run

/-! ## All runs -/

/-- The names of the strategies, if hits and misses alternate. -/
def alternating : (hit : Bool) → ℕ → List String
  | _, 0 => []
  | hit, n + 1 => (if hit then "READ_AND_WRITE" else "WRITE_ONLY") :: alternating (!hit) n

/-- Once a hit, always a hit. -/
def HitsSurvive (names : List String) : Prop :=
  names.Pairwise fun earlier later => earlier = "READ_AND_WRITE" → later = "READ_AND_WRITE"

/-- Where hits and misses alternate, a hit is only survived by the end. -/
theorem hitsSurvive_alternating (hit : Bool) (n : ℕ) :
    HitsSurvive (alternating hit n) ↔ n ≤ 1 ∨ n = 2 ∧ hit = false := by
  match n with
  | 0 => simp [HitsSurvive, alternating]
  | 1 => simp [HitsSurvive, alternating]
  | 2 => cases hit <;> simp [HitsSurvive, alternating]
  | n + 3 => cases hit <;> simp [HitsSurvive, alternating]

section All

variable {platform : Platform} {plugin : PluginInfo} {inputFile : InputFile}
  {metadata : FileMetadata} {previous : Entries} {outcomes : List Outcome}

/-- Hits and misses alternate, starting with what the first cache allows. -/
theorem Runs.alternate (runs : Runs platform plugin inputFile previous outcomes)
    (metadata_ : FileMetadata.ofFile platform inputFile = .ok metadata)
    (back : platform.gsonFileMetadata.ReadsBack metadata) (hit : Bool)
    (holds : hit = true → HoldsFile platform plugin inputFile metadata previous)
    (misses : hit = false → Misses platform plugin inputFile previous) :
    outcomes.map (fun outcome => outcome.1.getName) = alternating hit outcomes.length := by
  induction runs generalizing hit with
  | nil previous => rfl
  | cons run _ ih =>
      cases hit with
      | true =>
          obtain ⟨name, missing⟩ := run.hit metadata_ back (holds rfl)
          rw [List.map_cons, name, ih false nofun fun _ => misses_of_no_metadata missing]
          rfl
      | false =>
          obtain ⟨name, held⟩ := run.miss metadata_ (misses rfl)
          rw [List.map_cons, name, ih true (fun _ => held) nofun]
          rfl

/-- Hits survive only as long as no run comes after a hit: in a single run, or in two
runs of which the first one does not find the file. -/
theorem cacheHits_survive_iff (platform : Platform) (plugin : PluginInfo) (inputFile : InputFile)
    (metadata : FileMetadata) (previous : Entries) (outcomes : List Outcome)
    (metadata_ : FileMetadata.ofFile platform inputFile = .ok metadata)
    (back : platform.gsonFileMetadata.ReadsBack metadata)
    (intact : Misses platform plugin inputFile previous ∨
      HoldsFile platform plugin inputFile metadata previous)
    (runs : Runs platform plugin inputFile previous outcomes) :
    HitsSurvive (outcomes.map fun outcome => outcome.1.getName) ↔
      outcomes.length ≤ 1 ∨
        outcomes.length = 2 ∧ Misses platform plugin inputFile previous := by
  obtain misses | holds := intact
  · rw [runs.alternate metadata_ back false nofun fun _ => misses, hitsSurvive_alternating]
    simp [misses]
  · rw [runs.alternate metadata_ back true (fun _ => holds) nofun, hitsSurvive_alternating]
    simp [holds.not_misses metadata_ back]

end All

/-! ## Runs over a file in the cache -/

section Cached

theorem helloMetadata_eq : FileMetadata.ofFile helloPlatform helloFile = .ok helloMetadata := by
  decide

/-- A bridge that finds no tokens and generates no files. -/
def quietBridge : InputFile → FileSystem Name → Response := fun _ fileSystem =>
  ⟨fileSystem, ⟨none, []⟩⟩

theorem eq_of_readFromCache_gsonOf {P : Type} {platform : Platform} {context : SensorContext}
    {cacheKey : CacheKey} {json : String} {payload payload' : P}
    (h : JsonSerialization.readFromCache platform context (gsonOf json payload) cacheKey =
      .ok (some payload')) : payload' = payload := by
  obtain ⟨bytes, found⟩ := JsonSerialization.exists_of_readFromCache h
  rw [JsonSerialization.readFromCache, CacheSerialization.getInputStream_of_some found] at h
  simp only [bind, Except.bind, gsonOf] at h
  split at h
  · cases h
  · split at h
    · cases h
      rfl
    · cases h

/-- Nothing is in the way, since there are no files in the manifest. -/
theorem unobstructed_hello (previous : Entries) (fileSystem : FileSystem Name)
    (manifest : FilesManifest) (h : JsonSerialization.readFromCache helloPlatform
      (helloContext previous) helloPlatform.gsonFilesManifest
      (Entry.json.cacheKey helloPlugin helloFile) = .ok (some manifest)) :
    ∀ fileSize ∈ manifest, ∀ path, convertFromEntryName scannerWork fileSize.name = .ok path →
      Unobstructed fileSystem path := by
  rw [eq_of_readFromCache_gsonOf h]
  exact fun _ member => absurd member List.not_mem_nil

/-- A run that goes over this file only. -/
def helloRun {previous : Entries} {outcome : Outcome} {left : World}
    (analyzes : Analyzes helloPlatform helloPlugin (helloContext previous) quietBridge helloFile
      freshWorld outcome left) :
    Run helloPlatform helloPlugin helloFile previous where
  context := helloContext previous
  previousCache := rfl
  compatible := rfl
  canSkip := rfl
  bridge := quietBridge
  generated _ := ⟨[], rfl, by simp, by simp, by simp⟩
  readsBack fileSystem chunking stored manifest writes := by
    obtain ⟨-, rfl⟩ := writes.eq (by simp [quietBridge])
    exact readsBack_gsonOf _ _
  fileSystem := emptyWorkDir
  before := []
  after := []
  others := by simp
  reached := freshWorld
  reaches := .nil _
  unobstructed := unobstructed_hello previous emptyWorkDir
  outcome := outcome
  left := left
  analyzes := analyzes
  finished := left
  finishes := .nil _

theorem exists_helloRun {previous : Entries}
    (h : Misses helloPlatform helloPlugin helloFile previous ∨
      HoldsFile helloPlatform helloPlugin helloFile helloMetadata previous) :
    Nonempty (Run helloPlatform helloPlugin helloFile previous) := by
  have new (entry : Entry) : freshWorld.nextCache (entry.key helloPlugin helloFile) = none := rfl
  obtain misses | holds := h
  · have notCached : Misses helloPlatform helloPlugin helloFile
        (helloContext previous).previousCache := misses
    obtain ⟨reason, returns⟩ := notCached.getStrategyFor_eq freshWorld rfl rfl
    have written : ∃ stored manifest,
        WritesToCache emptyWorkDir (fun _ _ => 1) scannerWork none stored manifest :=
      exists_writesToCache _ _ (by simp)
    obtain ⟨stored, manifest, writes⟩ := written
    have wrote := writeToCache_eq_written freshWorld helloMetadata_eq new stored manifest
      ⟨[], by simp, by simp⟩
    exact ⟨helloRun (.analyzed returns rfl
      ⟨fun _ _ => 1, stored, manifest, ⟨[], by simp, by simp⟩, writes, rfl, wrote⟩)⟩
  · have cached : HoldsFile helloPlatform helloPlugin helloFile helloMetadata
        (helloContext previous).previousCache := holds
    obtain ⟨cacheAnalysis, json, seq, data, stringTable, fileSystem, returns⟩ :=
      cached.getStrategyFor_eq helloMetadata_eq (readsBack_gsonOf _ _) rfl rfl new
        (unobstructed_hello previous emptyWorkDir)
    exact ⟨helloRun (.cached returns rfl)⟩

theorem exists_helloRuns (n : ℕ) (previous : Entries)
    (h : Misses helloPlatform helloPlugin helloFile previous ∨
      HoldsFile helloPlatform helloPlugin helloFile helloMetadata previous) :
    ∃ outcomes, Runs helloPlatform helloPlugin helloFile previous outcomes ∧
      outcomes.length = n := by
  induction n generalizing previous with
  | zero => exact ⟨[], .nil previous, rfl⟩
  | succ n ih =>
      obtain ⟨run⟩ := exists_helloRun h
      have next : Misses helloPlatform helloPlugin helloFile run.finished.nextCache ∨
          HoldsFile helloPlatform helloPlugin helloFile helloMetadata run.finished.nextCache := by
        obtain misses | holds := h
        · exact .inr (run.miss helloMetadata_eq misses).2
        · exact .inl (misses_of_no_metadata
            (run.hit helloMetadata_eq (readsBack_gsonOf _ _) holds).2)
      obtain ⟨outcomes, runs, length⟩ := ih run.finished.nextCache next
      exact ⟨run.outcome :: outcomes, .cons run runs, by rw [List.length_cons, length]⟩

/-- Three runs from an empty cache: the file is analysed, taken from the cache, and
analysed again. -/
theorem cacheHit_lost_in_third_run :
    ∃ outcomes, Runs helloPlatform helloPlugin helloFile (fun _ => none) outcomes ∧
      outcomes.map (fun outcome => outcome.1.getName) =
        ["WRITE_ONLY", "READ_AND_WRITE", "WRITE_ONLY"] ∧
      ¬ HitsSurvive (outcomes.map fun outcome => outcome.1.getName) := by
  have empty : Misses helloPlatform helloPlugin helloFile fun _ => none := misses_of_no_metadata rfl
  obtain ⟨outcomes, runs, length⟩ := exists_helloRuns 3 (fun _ => none) (.inl empty)
  have names := runs.alternate helloMetadata_eq (readsBack_gsonOf _ _) false nofun fun _ => empty
  rw [length] at names
  refine ⟨outcomes, runs, names, ?_⟩
  rw [names, hitsSurvive_alternating]
  simp

theorem cacheHits_survive_two_runs :
    ∃ outcomes, Runs helloPlatform helloPlugin helloFile (fun _ => none) outcomes ∧
      outcomes.length = 2 ∧ HitsSurvive (outcomes.map fun outcome => outcome.1.getName) := by
  have empty : Misses helloPlatform helloPlugin helloFile fun _ => none := misses_of_no_metadata rfl
  obtain ⟨outcomes, runs, length⟩ := exists_helloRuns 2 (fun _ => none) (.inl empty)
  have survive := (cacheHits_survive_iff helloPlatform helloPlugin helloFile helloMetadata _
    outcomes helloMetadata_eq (readsBack_gsonOf _ _) (.inl empty) runs).mpr (.inr ⟨length, empty⟩)
  exact ⟨outcomes, runs, length, survive⟩

end Cached

end Cache

end SonarJS
