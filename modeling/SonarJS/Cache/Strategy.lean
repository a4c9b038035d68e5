import SonarJS.Cache.Cpd
import SonarJS.Cache.Sequence

/-!
# Cache strategies

`CacheStrategies.getStrategyFor` and the serializers below it. What is cached for an
input file is spread over five entries: the manifest and the stream of its generated
files, the two arrays of its CPD tokens, and its metadata. A file is read from the
previous cache if its metadata is there and has not changed, and if the other entries
are there and can be read.

The caches, the file system and Gson are not part of the plugin. A cache is what it
holds, with the documented behaviour of reading a missing entry and of writing one
twice. Gson is a parameter.
-/

namespace SonarJS

namespace Cache

/-! ## Keys -/

/-- An `InputFile`: its key, and its contents in its charset. -/
structure InputFile where
  key : String
  contents : Except Throwable Bytes

/-- `PluginInfo`: the versions that are part of the keys. -/
structure PluginInfo where
  version : Option String
  ucfgPluginVersion : Option String

structure CacheKey where
  prefixes : List String
  pluginVersion : Option String
  file : String
deriving DecidableEq

namespace CacheKey

/-- The constructor leaves out prefixes that are null. -/
def new (prefixes : List (Option String)) (pluginVersion : Option String) (file : String) :
    CacheKey :=
  ⟨prefixes.filterMap id, pluginVersion, file⟩

def forFile (inputFile : InputFile) (pluginVersion : Option String) : CacheKey :=
  new [] pluginVersion inputFile.key

def withPrefix (cacheKey : CacheKey) (prefixes : List (Option String)) : CacheKey :=
  new (cacheKey.prefixes.map some ++ prefixes) cacheKey.pluginVersion cacheKey.file

def forCpd (cacheKey : CacheKey) : CacheKey := cacheKey.withPrefix ["js", "cpd"]

def forUcfg (cacheKey : CacheKey) (plugin : PluginInfo) : CacheKey :=
  cacheKey.withPrefix ["jssecurity", "ucfgs", plugin.ucfgPluginVersion]

def forFileMetadata (cacheKey : CacheKey) : CacheKey := cacheKey.withPrefix ["js", "filemetadata"]

def toString (cacheKey : CacheKey) : String :=
  ":".intercalate (cacheKey.prefixes ++ cacheKey.pluginVersion.toList ++ [cacheKey.file])

end CacheKey

/-! ## The environment -/

/-- What a cache holds. -/
abbrev Entries := String → Option Bytes

structure Version where
  major : ℕ
  minor : ℕ
  patch : ℕ
  buildNumber : ℕ

def Version.create (major minor : ℕ) : Version := ⟨major, minor, 0, 0⟩

def Version.compareTo (v w : Version) : Ordering :=
  (compare v.major w.major).then ((compare v.minor w.minor).then
    ((compare v.patch w.patch).then (compare v.buildNumber w.buildNumber)))

def Version.isGreaterThanOrEqual (v w : Version) : Bool := (v.compareTo w).isGE

inductive SonarProduct
  | sonarQube
  | sonarLint
deriving DecidableEq

/-- `SensorContext`, as far as it does not change, and how much of an entry each `read`
of its stream delivers. -/
structure SensorContext where
  apiVersion : Version
  product : SonarProduct
  canSkipUnchangedFiles : Bool
  previousCache : Entries
  workDir : Path
  chunks : String → ℕ → ℕ

/-- What changes during an analysis. -/
structure World where
  fileSystem : FileSystem Name
  nextCache : Entries

/-- With one more entry in the next cache. -/
def World.put (world : World) (key : String) (bytes : Bytes) : World :=
  { world with nextCache := Function.update world.nextCache key (some bytes) }

@[simp] theorem World.nextCache_put (world : World) (key : String) (bytes : Bytes) (key' : String) :
    (world.put key bytes).nextCache key' =
      if key' = key then some bytes else world.nextCache key' :=
  Function.update_apply _ _ _ _

abbrev CacheM (α : Type) := EStateM Throwable World α

def onFileSystem {α : Type} : FileSystemM α → CacheM α :=
  Action.onPart World.fileSystem fun world fileSystem => { world with fileSystem }

/-- Gson, for the objects of one class. An empty document stands for null. -/
structure Gson (P : Type) where
  toJson : P → String
  fromJson : String → Except Throwable (Option P)

/-- The object is read back from its document. -/
def Gson.ReadsBack {P : Type} (gson : Gson P) (payload : P) : Prop :=
  gson.fromJson (gson.toJson payload) = .ok (some payload)

/-- `FileMetadata`; an array that is missing in the document is null. -/
structure FileMetadata where
  size : ℤ
  hash : Option Bytes
deriving DecidableEq

/-- What the serializers rely on. -/
structure Platform where
  jvm : Jvm
  sha256 : Bytes → Bytes
  gsonFilesManifest : Gson FilesManifest
  gsonFileMetadata : Gson FileMetadata

/-! ## Serializers -/

section Serialization

variable (platform : Platform) (plugin : PluginInfo) (context : SensorContext)

namespace CacheSerialization

def isInCache (cacheKey : CacheKey) : Bool := (context.previousCache cacheKey.toString).isSome

/-- `previousCache().read`. -/
def getInputStream (cacheKey : CacheKey) : Except Throwable InputStream :=
  match context.previousCache cacheKey.toString with
  | some bytes => .ok { remaining := bytes, chunks := context.chunks cacheKey.toString }
  | none => .error .illegalArgumentException

def readBytesFromCache (cacheKey : CacheKey) : Except Throwable Bytes := do
  let input ← getInputStream context cacheKey
  return input.remaining

/-- `nextCache().write`, which refuses a key that has been written. -/
def writeToCache (cacheKey : CacheKey) (bytes : Bytes) : CacheM Unit := fun world =>
  if (world.nextCache cacheKey.toString).isSome then .error .illegalArgumentException world
  else .ok () (world.put cacheKey.toString bytes)

/-- `nextCache().copyFromPrevious`. -/
def copyFromPrevious (cacheKey : CacheKey) : CacheM Unit := do
  let bytes ← Action.ofExcept (readBytesFromCache context cacheKey)
  writeToCache cacheKey bytes

end CacheSerialization

namespace JsonSerialization

variable {P : Type} (gson : Gson P)

def readFromCache (cacheKey : CacheKey) : Except Throwable (Option P) := do
  let input ← CacheSerialization.getInputStream context cacheKey
  match gson.fromJson (Utf8.decode platform.jvm.malformedLength input.remaining) with
  | .error .jsonParseException => .error (.ioException "Failure when parsing cache entry JSON")
  | result => result

def writeToCache (cacheKey : CacheKey) (payload : P) : CacheM Unit :=
  CacheSerialization.writeToCache cacheKey (Utf8.encode (gson.toJson payload))

end JsonSerialization

namespace CpdSerialization

def dataKey (cacheKey : CacheKey) : CacheKey := cacheKey.withPrefix ["DATA"]

def stringTableKey (cacheKey : CacheKey) : CacheKey := cacheKey.withPrefix ["STRING_TABLE"]

def isInCache (cacheKey : CacheKey) : Bool :=
  CacheSerialization.isInCache context (dataKey cacheKey) &&
    CacheSerialization.isInCache context (stringTableKey cacheKey)

def copyFromPrevious (cacheKey : CacheKey) : CacheM Unit := do
  CacheSerialization.copyFromPrevious context (dataKey cacheKey)
  CacheSerialization.copyFromPrevious context (stringTableKey cacheKey)

def readFromCache (cacheKey : CacheKey) : Except Throwable (List CpdToken) := do
  let data ← CacheSerialization.readBytesFromCache context (dataKey cacheKey)
  let stringTable ← CacheSerialization.readBytesFromCache context (stringTableKey cacheKey)
  fromBinary platform.jvm data stringTable

def writeToCache {jvm : Jvm} (cacheKey : CacheKey) (cpdData : CpdData jvm) : CacheM Unit := do
  CacheSerialization.writeToCache (dataKey cacheKey) (toBinary cpdData).data
  CacheSerialization.writeToCache (stringTableKey cacheKey) (toBinary cpdData).stringTable

end CpdSerialization

namespace UCFGFilesSerialization

def jsonKey (cacheKey : CacheKey) : CacheKey := cacheKey.withPrefix ["JSON"]

def seqKey (cacheKey : CacheKey) : CacheKey := cacheKey.withPrefix ["SEQ"]

def isInCache (cacheKey : CacheKey) : Bool :=
  if !CacheSerialization.isInCache context (jsonKey cacheKey) then false
  else CacheSerialization.isInCache context (seqKey cacheKey)

def copyFromPrevious (cacheKey : CacheKey) : CacheM Unit := do
  CacheSerialization.copyFromPrevious context (jsonKey cacheKey)
  CacheSerialization.copyFromPrevious context (seqKey cacheKey)

def readFromCache (cacheKey : CacheKey) : CacheM Unit := do
  let manifest ← Action.ofExcept
    (JsonSerialization.readFromCache platform context platform.gsonFilesManifest (jsonKey cacheKey))
  match manifest with
  | none => throw (.ioException ("The manifest is null for key " ++ cacheKey.toString))
  | some manifest =>
    let input ← Action.ofExcept (CacheSerialization.getInputStream context (seqKey cacheKey))
    onFileSystem (Cache.readFromCache context.workDir (some manifest) input)

/-- What is written once the stream has been read and its manifest is known. -/
def writeToCache (cacheKey : CacheKey) (stored : Bytes) (manifest : FilesManifest) :
    CacheM Unit := do
  CacheSerialization.writeToCache (seqKey cacheKey) stored
  JsonSerialization.writeToCache platform.gsonFilesManifest (jsonKey cacheKey) manifest

end UCFGFilesSerialization

namespace FileMetadata

/-- `FileMetadata.from`. -/
def ofFile (file : InputFile) : Except Throwable FileMetadata := do
  let bytes ← file.contents
  return ⟨bytes.length, some (platform.sha256 bytes)⟩

def compareTo (metadata : FileMetadata) (file : InputFile) : Except Throwable Bool := do
  let bytes ← file.contents
  return metadata.size == bytes.length && metadata.hash == some (platform.sha256 bytes)

end FileMetadata

/-- `CacheAnalysis`. -/
structure CacheAnalysis where
  ucfgPaths : Option (List Path)
  cpdTokens : List CpdToken

def CacheAnalysis.fromCache (cpdTokens : List CpdToken) : CacheAnalysis := ⟨none, cpdTokens⟩

namespace CacheAnalysisSerialization

def isInCache (cacheKey : CacheKey) : Bool :=
  UCFGFilesSerialization.isInCache context (cacheKey.forUcfg plugin) &&
    CpdSerialization.isInCache context cacheKey.forCpd

/-- `Optional.of` does not take null. -/
def fileMetadata (cacheKey : CacheKey) : Except Throwable (Option FileMetadata) :=
  if CacheSerialization.isInCache context cacheKey.forFileMetadata then do
    let metadata ← JsonSerialization.readFromCache platform context platform.gsonFileMetadata
      cacheKey.forFileMetadata
    match metadata with
    | none => .error .nullPointerException
    | some metadata => .ok (some metadata)
  else .ok none

def readFromCache (cacheKey : CacheKey) : CacheM CacheAnalysis := do
  UCFGFilesSerialization.readFromCache platform context (cacheKey.forUcfg plugin)
  let cpdTokens ← Action.ofExcept (CpdSerialization.readFromCache platform context cacheKey.forCpd)
  return .fromCache cpdTokens

def copyFromPrevious (cacheKey : CacheKey) : CacheM Unit := do
  UCFGFilesSerialization.copyFromPrevious context (cacheKey.forUcfg plugin)
  CpdSerialization.copyFromPrevious context cacheKey.forCpd

/-- `writeToCache` runs to its end. The generated files are read in any chunks. -/
def WritesToCache (cacheKey : CacheKey) (analysis : CacheAnalysis) (file : InputFile)
    (world world' : World) : Prop :=
  ∃ chunking stored manifest, ∃ cpdData : CpdData platform.jvm,
    Cache.WritesToCache world.fileSystem chunking context.workDir analysis.ucfgPaths stored
        manifest ∧
      cpdData.tokens = analysis.cpdTokens ∧
      (do
        UCFGFilesSerialization.writeToCache platform (cacheKey.forUcfg plugin) stored manifest
        CpdSerialization.writeToCache cacheKey.forCpd cpdData
        let metadata ← Action.ofExcept (FileMetadata.ofFile platform file)
        JsonSerialization.writeToCache platform.gsonFileMetadata cacheKey.forFileMetadata
          metadata : CacheM Unit) world = .ok () world'

end CacheAnalysisSerialization

/-! ## Strategies -/

inductive MissReason
  | runtimeApiIncompatible
  | cacheDisabled
  | analysisModeIneligible
  | fileChanged
  | fileNotInCache
  | cacheCorrupted
deriving DecidableEq

/-- `CacheStrategy`; the serializers are determined by their key. -/
inductive CacheStrategy
  | noCache
  | writeOnly (serialization : CacheKey)
  | readAndWrite (cacheAnalysis : CacheAnalysis) (serialization : CacheKey)

namespace CacheStrategy

def getName : CacheStrategy → String
  | noCache => "NO_CACHE"
  | writeOnly _ => "WRITE_ONLY"
  | readAndWrite _ _ => "READ_AND_WRITE"

def isAnalysisRequired : CacheStrategy → Bool
  | readAndWrite _ _ => false
  | _ => true

/-- `writeAnalysisToCache` runs to its end. -/
def WritesAnalysisToCache (strategy : CacheStrategy) (analysis : CacheAnalysis) (file : InputFile)
    (world world' : World) : Prop :=
  match strategy with
  | noCache => world' = world
  | writeOnly serialization | readAndWrite _ serialization =>
    CacheAnalysisSerialization.WritesToCache platform plugin context serialization analysis file
      world world'

end CacheStrategy

def AnalysisMode.isRuntimeApiCompatible : Bool :=
  context.apiVersion.isGreaterThanOrEqual (.create 9 4)

namespace CacheStrategies

def isRuntimeApiCompatible : Bool :=
  context.apiVersion.isGreaterThanOrEqual (.create 9 4) && context.product != .sonarLint

/-- The `try` block of `readFromCache`. -/
def readAndCopy (cacheKey : CacheKey) : CacheM CacheAnalysis := do
  let cacheAnalysis ← CacheAnalysisSerialization.readFromCache platform plugin context cacheKey
  CacheAnalysisSerialization.copyFromPrevious plugin context cacheKey
  return cacheAnalysis

/-- `readFromCache`: an `IOException` is caught, anything else escapes. -/
def readFromCache (cacheKey : CacheKey) : CacheM (Option CacheAnalysis) := fun world =>
  match readAndCopy platform plugin context cacheKey world with
  | .ok cacheAnalysis world' => .ok (some cacheAnalysis) world'
  | .error e world' => if e.isIOException then .ok none world' else .error e world'

/-- Whether the metadata is there and fits the file. -/
def isUnchanged (cacheKey : CacheKey) (inputFile : InputFile) : Except Throwable Bool := do
  let fileMetadata ← CacheAnalysisSerialization.fileMetadata platform context cacheKey
  match fileMetadata with
  | none => return false
  | some fileMetadata => fileMetadata.compareTo platform inputFile

/-- `getStrategyFor`, with the reason that is reported for a miss. -/
def getStrategyFor (inputFile : InputFile) : CacheM (CacheStrategy × Option MissReason) :=
  let cacheKey := CacheKey.forFile inputFile plugin.version
  if !isRuntimeApiCompatible context then
    return (.noCache, some .runtimeApiIncompatible)
  else if !AnalysisMode.isRuntimeApiCompatible context || !context.canSkipUnchangedFiles then
    return (.writeOnly cacheKey, some .analysisModeIneligible)
  else do
    let unchanged ← Action.ofExcept (isUnchanged platform context cacheKey inputFile)
    if !unchanged then
      return (.writeOnly cacheKey, some .fileChanged)
    else if !CacheAnalysisSerialization.isInCache plugin context cacheKey then
      return (.writeOnly cacheKey, some .fileNotInCache)
    else
      let cacheAnalysis ← readFromCache platform plugin context cacheKey
      match cacheAnalysis with
      | none => return (.writeOnly cacheKey, some .cacheCorrupted)
      | some cacheAnalysis => return (.readAndWrite cacheAnalysis cacheKey, none)

end CacheStrategies

end Serialization

/-! ## The entries of a file -/

/-- The five entries of a file. -/
inductive Entry
  | json
  | seq
  | data
  | stringTable
  | fileMetadata
deriving DecidableEq

namespace Entry

def cacheKey (plugin : PluginInfo) (inputFile : InputFile) : Entry → CacheKey
  | json =>
    UCFGFilesSerialization.jsonKey ((CacheKey.forFile inputFile plugin.version).forUcfg plugin)
  | seq =>
    UCFGFilesSerialization.seqKey ((CacheKey.forFile inputFile plugin.version).forUcfg plugin)
  | data => CpdSerialization.dataKey (CacheKey.forFile inputFile plugin.version).forCpd
  | stringTable =>
    CpdSerialization.stringTableKey (CacheKey.forFile inputFile plugin.version).forCpd
  | fileMetadata => (CacheKey.forFile inputFile plugin.version).forFileMetadata

/-- The key as it is passed to the caches. -/
def key (plugin : PluginInfo) (inputFile : InputFile) (entry : Entry) : String :=
  (entry.cacheKey plugin inputFile).toString

end Entry

/-- Each part before the file is followed by a colon. -/
theorem CacheKey.toList_toString (cacheKey : CacheKey) : cacheKey.toString.toList =
    ((cacheKey.prefixes ++ cacheKey.pluginVersion.toList).flatMap fun part =>
      part.toList ++ [':']) ++ cacheKey.file.toList := by
  rw [toString, String.toList_intercalate]
  induction cacheKey.prefixes ++ cacheKey.pluginVersion.toList with
  | nil => simp
  | cons part parts ih =>
      have tail : List.map String.toList (parts ++ [cacheKey.file]) ≠ [] := by simp
      rw [List.cons_append, List.map_cons, List.intercalate_cons_of_ne_nil tail, ih]
      simp

/-- Each part, with a colon after it. -/
def colons (parts : List String) : List Char := parts.flatMap fun part => part.toList ++ [':']

namespace Entry

def prefixes (plugin : PluginInfo) : Entry → List String
  | json => ["jssecurity", "ucfgs"] ++ plugin.ucfgPluginVersion.toList ++ ["JSON"]
  | seq => ["jssecurity", "ucfgs"] ++ plugin.ucfgPluginVersion.toList ++ ["SEQ"]
  | data => ["js", "cpd", "DATA"]
  | stringTable => ["js", "cpd", "STRING_TABLE"]
  | fileMetadata => ["js", "filemetadata"]

theorem prefixes_cacheKey (plugin : PluginInfo) (inputFile : InputFile) (entry : Entry) :
    (entry.cacheKey plugin inputFile).prefixes = entry.prefixes plugin := by
  obtain ⟨version, ucfgPluginVersion⟩ := plugin
  cases ucfgPluginVersion <;> cases entry <;> rfl

theorem toList_key (plugin : PluginInfo) (inputFile : InputFile) (entry : Entry) :
    (entry.key plugin inputFile).toList = colons (entry.prefixes plugin) ++
      (colons plugin.version.toList ++ inputFile.key.toList) := by
  have parts := CacheKey.toList_toString (entry.cacheKey plugin inputFile)
  rw [List.flatMap_append, List.append_assoc, prefixes_cacheKey] at parts
  cases entry <;> exact parts

/-- The prefixes of a key tell the entries apart, whatever comes after them. -/
theorem eq_of_colons_append {plugin : PluginInfo} {entry entry' : Entry} {rest rest' : List Char}
    (h : colons (entry.prefixes plugin) ++ rest = colons (entry'.prefixes plugin) ++ rest') :
    entry = entry' ∧ rest = rest' := by
  cases entry <;> cases entry' <;> simp [prefixes, colons] at h ⊢ <;> exact h

end Entry

/-- Entries of different files, and different entries of a file, have different keys. -/
theorem Entry.eq_of_key_eq {plugin : PluginInfo} {inputFile inputFile' : InputFile}
    {entry entry' : Entry} (h : entry.key plugin inputFile = entry'.key plugin inputFile') :
    entry = entry' ∧ inputFile.key = inputFile'.key := by
  have chars := congrArg String.toList h
  rw [toList_key, toList_key] at chars
  obtain ⟨same, rest⟩ := eq_of_colons_append chars
  exact ⟨same, String.toList_inj.mp (List.append_cancel_left rest)⟩

theorem Entry.key_inj {plugin : PluginInfo} {inputFile : InputFile} {entry entry' : Entry} :
    entry.key plugin inputFile = entry'.key plugin inputFile ↔ entry = entry' :=
  ⟨fun h => (eq_of_key_eq h).1, fun h => by rw [h]⟩

/-! ## Reading an entry -/

section Reading

variable {platform : Platform} {plugin : PluginInfo} {context : SensorContext}
  {inputFile : InputFile} {world : World}

namespace CacheSerialization

theorem isInCache_of_some {cacheKey : CacheKey} {bytes : Bytes}
    (h : context.previousCache cacheKey.toString = some bytes) :
    isInCache context cacheKey = true := by
  rw [isInCache, h]
  rfl

theorem getInputStream_of_some {cacheKey : CacheKey} {bytes : Bytes}
    (h : context.previousCache cacheKey.toString = some bytes) :
    getInputStream context cacheKey =
      .ok { remaining := bytes, chunks := context.chunks cacheKey.toString } := by
  rw [getInputStream, h]

theorem readBytesFromCache_of_some {cacheKey : CacheKey} {bytes : Bytes}
    (h : context.previousCache cacheKey.toString = some bytes) :
    readBytesFromCache context cacheKey = .ok bytes := by
  rw [readBytesFromCache, getInputStream_of_some h]
  rfl

theorem writeToCache_of_none (world : World) {entry : Entry}
    (new : world.nextCache (entry.key plugin inputFile) = none) (bytes : Bytes) :
    writeToCache (entry.cacheKey plugin inputFile) bytes world =
      .ok () (world.put (entry.key plugin inputFile) bytes) := by
  rw [Entry.key] at new
  rw [writeToCache, new]
  rfl

theorem copyFromPrevious_of_some (world : World) {entry : Entry} {bytes : Bytes}
    (h : context.previousCache (entry.key plugin inputFile) = some bytes)
    (new : world.nextCache (entry.key plugin inputFile) = none) :
    copyFromPrevious context (entry.cacheKey plugin inputFile) world =
      .ok () (world.put (entry.key plugin inputFile) bytes) := by
  rw [copyFromPrevious, Action.bind_ok (Action.ofExcept_ok (readBytesFromCache_of_some h) world),
    writeToCache_of_none world new]

end CacheSerialization

theorem CacheAnalysisSerialization.isInCache_of_some {json seq data stringTable : Bytes}
    (json_ : context.previousCache (Entry.json.key plugin inputFile) = some json)
    (seq_ : context.previousCache (Entry.seq.key plugin inputFile) = some seq)
    (data_ : context.previousCache (Entry.data.key plugin inputFile) = some data)
    (stringTable_ :
      context.previousCache (Entry.stringTable.key plugin inputFile) = some stringTable) :
    isInCache plugin context (CacheKey.forFile inputFile plugin.version) = true := by
  have jsonIn := CacheSerialization.isInCache_of_some json_
  have seqIn := CacheSerialization.isInCache_of_some seq_
  have dataIn := CacheSerialization.isInCache_of_some data_
  have stringTableIn := CacheSerialization.isInCache_of_some stringTable_
  simp only [Entry.cacheKey] at jsonIn seqIn dataIn stringTableIn
  simp [isInCache, UCFGFilesSerialization.isInCache, CpdSerialization.isInCache, jsonIn, seqIn,
    dataIn, stringTableIn]

/-- What a hit leaves behind: the four entries that are copied. -/
def World.copied (plugin : PluginInfo) (inputFile : InputFile) (world : World)
    (json seq data stringTable : Bytes) : World :=
  (((world.put (Entry.json.key plugin inputFile) json).put
    (Entry.seq.key plugin inputFile) seq).put (Entry.data.key plugin inputFile) data).put
      (Entry.stringTable.key plugin inputFile) stringTable

theorem CacheAnalysisSerialization.copyFromPrevious_of_some (world : World)
    {json seq data stringTable : Bytes}
    (json_ : context.previousCache (Entry.json.key plugin inputFile) = some json)
    (seq_ : context.previousCache (Entry.seq.key plugin inputFile) = some seq)
    (data_ : context.previousCache (Entry.data.key plugin inputFile) = some data)
    (stringTable_ :
      context.previousCache (Entry.stringTable.key plugin inputFile) = some stringTable)
    (new : ∀ entry : Entry, world.nextCache (entry.key plugin inputFile) = none) :
    copyFromPrevious plugin context (CacheKey.forFile inputFile plugin.version) world =
      .ok () (world.copied plugin inputFile json seq data stringTable) := by
  have afterJson := CacheSerialization.copyFromPrevious_of_some world json_ (new .json)
  have afterSeq := CacheSerialization.copyFromPrevious_of_some
    (world.put (Entry.json.key plugin inputFile) json) seq_
    (by simpa [Entry.key_inj] using new .seq)
  have afterData := CacheSerialization.copyFromPrevious_of_some
    ((world.put (Entry.json.key plugin inputFile) json).put (Entry.seq.key plugin inputFile) seq)
    data_ (by simpa [Entry.key_inj] using new .data)
  have afterStringTable := CacheSerialization.copyFromPrevious_of_some
    (((world.put (Entry.json.key plugin inputFile) json).put
      (Entry.seq.key plugin inputFile) seq).put (Entry.data.key plugin inputFile) data)
    stringTable_ (by simpa [Entry.key_inj] using new .stringTable)
  have ucfg : UCFGFilesSerialization.copyFromPrevious context
      ((CacheKey.forFile inputFile plugin.version).forUcfg plugin) world = _ :=
    (Action.bind_ok afterJson).trans afterSeq
  exact (Action.bind_ok ucfg).trans ((Action.bind_ok afterData).trans afterStringTable)

/-- The analysis may use the cache, the file has not changed, and the manifest and the
stream of its generated files can be restored. Nothing has been written for the file
yet. -/
structure IntactBesidesCpd (platform : Platform) (plugin : PluginInfo) (context : SensorContext)
    (inputFile : InputFile) (world : World) : Prop where
  compatible : CacheStrategies.isRuntimeApiCompatible context = true
  canSkip : context.canSkipUnchangedFiles = true
  metadata : ∃ metadata, JsonSerialization.readFromCache platform context
      platform.gsonFileMetadata (Entry.fileMetadata.cacheKey plugin inputFile) =
        .ok (some metadata) ∧
    metadata.compareTo platform inputFile = .ok true
  generatedFiles : ∃ manifest seq fileSystem, JsonSerialization.readFromCache platform context
      platform.gsonFilesManifest (Entry.json.cacheKey plugin inputFile) = .ok (some manifest) ∧
    context.previousCache (Entry.seq.key plugin inputFile) = some seq ∧
    Cache.readFromCache context.workDir (some manifest)
      { remaining := seq, chunks := context.chunks (Entry.seq.key plugin inputFile) }
      world.fileSystem = .ok () fileSystem
  new : ∀ entry : Entry, world.nextCache (entry.key plugin inputFile) = none

variable (platform) in
theorem JsonSerialization.readFromCache_of_readsBack {P : Type} {gson : Gson P} {payload : P}
    (readsBack : gson.ReadsBack payload) {cacheKey : CacheKey}
    (h : context.previousCache cacheKey.toString = some (Utf8.encode (gson.toJson payload))) :
    readFromCache platform context gson cacheKey = .ok (some payload) := by
  have decoded : gson.fromJson (Utf8.decode platform.jvm.malformedLength
      (Utf8.encode (gson.toJson payload))) = .ok (some payload) := by
    rw [Utf8.decode_encode]
    exact readsBack
  rw [readFromCache, CacheSerialization.getInputStream_of_some h]
  simp only [bind, Except.bind, decoded]

theorem JsonSerialization.exists_of_readFromCache {P : Type} {gson : Gson P} {cacheKey : CacheKey}
    {payload : Option P} (h : readFromCache platform context gson cacheKey = .ok payload) :
    ∃ bytes, context.previousCache cacheKey.toString = some bytes := by
  cases found : context.previousCache cacheKey.toString with
  | some bytes => exact ⟨bytes, rfl⟩
  | none =>
      rw [readFromCache, CacheSerialization.getInputStream, found] at h
      cases h

theorem CacheStrategies.isUnchanged_of_metadata {metadata : FileMetadata}
    (h : JsonSerialization.readFromCache platform context platform.gsonFileMetadata
      (Entry.fileMetadata.cacheKey plugin inputFile) = .ok (some metadata)) :
    isUnchanged platform context (CacheKey.forFile inputFile plugin.version) inputFile =
      metadata.compareTo platform inputFile := by
  obtain ⟨bytes, found⟩ := JsonSerialization.exists_of_readFromCache h
  have inCache : CacheSerialization.isInCache context
      (CacheKey.forFile inputFile plugin.version).forFileMetadata = true :=
    CacheSerialization.isInCache_of_some found
  have read : CacheAnalysisSerialization.fileMetadata platform context
      (CacheKey.forFile inputFile plugin.version) = .ok (some metadata) := by
    rw [CacheAnalysisSerialization.fileMetadata, if_pos inCache]
    change (JsonSerialization.readFromCache platform context platform.gsonFileMetadata
      (Entry.fileMetadata.cacheKey plugin inputFile) >>= _) = _
    rw [h]
    rfl
  rw [isUnchanged, read]
  rfl

variable (world) in
/-- Where the analysis may use the cache, everything depends on what is cached. -/
theorem CacheStrategies.getStrategyFor_of_canSkip
    (compatible : isRuntimeApiCompatible context = true)
    (canSkip : context.canSkipUnchangedFiles = true) {unchanged : Bool}
    (h : isUnchanged platform context (CacheKey.forFile inputFile plugin.version) inputFile =
      .ok unchanged) :
    getStrategyFor platform plugin context inputFile world =
      (if !unchanged then
        return (.writeOnly (CacheKey.forFile inputFile plugin.version), some .fileChanged)
      else if !CacheAnalysisSerialization.isInCache plugin context
          (CacheKey.forFile inputFile plugin.version) then
        return (.writeOnly (CacheKey.forFile inputFile plugin.version), some .fileNotInCache)
      else do
        let cacheAnalysis ← readFromCache platform plugin context
          (CacheKey.forFile inputFile plugin.version)
        match cacheAnalysis with
        | none =>
          return (.writeOnly (CacheKey.forFile inputFile plugin.version), some .cacheCorrupted)
        | some cacheAnalysis =>
          return (.readAndWrite cacheAnalysis (CacheKey.forFile inputFile plugin.version), none) :
        CacheM (CacheStrategy × Option MissReason)) world := by
  have mode : AnalysisMode.isRuntimeApiCompatible context = true :=
    (Bool.and_eq_true_iff.mp compatible).1
  simp only [getStrategyFor, compatible, mode, canSkip, Bool.not_true, Bool.or_self,
    Bool.false_eq_true, if_false]
  rw [Action.bind_ok (Action.ofExcept_ok h world)]

/-- Without a change and with all entries there, everything depends on reading them. -/
theorem CacheStrategies.getStrategyFor_of_isInCache
    (compatible : isRuntimeApiCompatible context = true)
    (canSkip : context.canSkipUnchangedFiles = true)
    (unchanged : isUnchanged platform context (CacheKey.forFile inputFile plugin.version)
      inputFile = .ok true)
    (inCache : CacheAnalysisSerialization.isInCache plugin context
      (CacheKey.forFile inputFile plugin.version) = true) :
    getStrategyFor platform plugin context inputFile world =
      match readAndCopy platform plugin context (CacheKey.forFile inputFile plugin.version)
        world with
      | .ok cacheAnalysis world' =>
        .ok (.readAndWrite cacheAnalysis (CacheKey.forFile inputFile plugin.version), none) world'
      | .error e world' =>
        if e.isIOException then
          .ok (.writeOnly (CacheKey.forFile inputFile plugin.version), some .cacheCorrupted) world'
        else .error e world' := by
  rw [getStrategyFor_of_canSkip world compatible canSkip unchanged]
  simp only [inCache, Bool.not_true, Bool.false_eq_true, if_false]
  cases ran : readAndCopy platform plugin context (CacheKey.forFile inputFile plugin.version)
    world with
  | ok cacheAnalysis world' =>
      have read : readFromCache platform plugin context (CacheKey.forFile inputFile plugin.version)
          world = .ok (some cacheAnalysis) world' := by rw [readFromCache, ran]
      rw [Action.bind_ok read]
      rfl
  | error e world' =>
      by_cases caught : e.isIOException = true
      · have read : readFromCache platform plugin context
            (CacheKey.forFile inputFile plugin.version) world = .ok none world' := by
          simp only [readFromCache, ran, caught, if_true]
        rw [Action.bind_ok read]
        simp only [caught, if_true]
        rfl
      · have read : readFromCache platform plugin context
            (CacheKey.forFile inputFile plugin.version) world = .error e world' := by
          simp only [readFromCache, ran, caught]
          rfl
        rw [Action.bind_error read]
        simp only [caught]
        rfl

/-- The generated files are restored. -/
theorem UCFGFilesSerialization.readFromCache_of_restores {manifest : FilesManifest} {seq : Bytes}
    {fileSystem : FileSystem Name}
    (manifest_ : JsonSerialization.readFromCache platform context platform.gsonFilesManifest
      (Entry.json.cacheKey plugin inputFile) = .ok (some manifest))
    (seq_ : context.previousCache (Entry.seq.key plugin inputFile) = some seq)
    (restores : Cache.readFromCache context.workDir (some manifest)
      { remaining := seq, chunks := context.chunks (Entry.seq.key plugin inputFile) }
      world.fileSystem = .ok () fileSystem) :
    readFromCache platform context ((CacheKey.forFile inputFile plugin.version).forUcfg plugin)
      world = .ok () { world with fileSystem } := by
  have readManifest := Action.ofExcept_ok manifest_ world
  have openSeq := Action.ofExcept_ok (CacheSerialization.getInputStream_of_some seq_) world
  refine (Action.bind_ok readManifest).trans ((Action.bind_ok openSeq).trans ?_)
  change onFileSystem (Cache.readFromCache context.workDir (some manifest)
    { remaining := seq, chunks := context.chunks (Entry.seq.key plugin inputFile) }) world = _
  rw [onFileSystem, Action.onPart, restores]

variable (platform) in
theorem CpdSerialization.readFromCache_of_some {data stringTable : Bytes}
    (data_ : context.previousCache (Entry.data.key plugin inputFile) = some data)
    (stringTable_ :
      context.previousCache (Entry.stringTable.key plugin inputFile) = some stringTable) :
    readFromCache platform context (CacheKey.forFile inputFile plugin.version).forCpd =
      fromBinary platform.jvm data stringTable := by
  have readData : CacheSerialization.readBytesFromCache context
      (dataKey (CacheKey.forFile inputFile plugin.version).forCpd) = .ok data :=
    CacheSerialization.readBytesFromCache_of_some data_
  have readStringTable : CacheSerialization.readBytesFromCache context
      (stringTableKey (CacheKey.forFile inputFile plugin.version).forCpd) = .ok stringTable :=
    CacheSerialization.readBytesFromCache_of_some stringTable_
  rw [readFromCache, readData, readStringTable]
  rfl

/-- With everything else intact, the strategy is what the CPD entries allow. -/
theorem IntactBesidesCpd.getStrategyFor_eq {data stringTable : Bytes}
    (h : IntactBesidesCpd platform plugin context inputFile world)
    (data_ : context.previousCache (Entry.data.key plugin inputFile) = some data)
    (stringTable_ :
      context.previousCache (Entry.stringTable.key plugin inputFile) = some stringTable) :
    ∃ json seq fileSystem,
      CacheStrategies.getStrategyFor platform plugin context inputFile world =
        match fromBinary platform.jvm data stringTable with
        | .ok cpdTokens => .ok
            (.readAndWrite (.fromCache cpdTokens) (CacheKey.forFile inputFile plugin.version), none)
            (World.copied plugin inputFile { world with fileSystem } json seq data stringTable)
        | .error e =>
          if e.isIOException then
            .ok (.writeOnly (CacheKey.forFile inputFile plugin.version), some .cacheCorrupted)
              { world with fileSystem }
          else .error e { world with fileSystem } := by
  obtain ⟨metadata, metadata_, same⟩ := h.metadata
  obtain ⟨manifest, seq, fileSystem, manifest_, seq_, restores⟩ := h.generatedFiles
  obtain ⟨json, json_⟩ := JsonSerialization.exists_of_readFromCache manifest_
  refine ⟨json, seq, fileSystem, ?_⟩
  have unchanged := (CacheStrategies.isUnchanged_of_metadata metadata_).trans same
  have inCache := CacheAnalysisSerialization.isInCache_of_some json_ seq_ data_ stringTable_
  rw [CacheStrategies.getStrategyFor_of_isInCache h.compatible h.canSkip unchanged inCache]
  have ucfg := UCFGFilesSerialization.readFromCache_of_restores manifest_ seq_ restores
  have cpd := CpdSerialization.readFromCache_of_some platform data_ stringTable_
  cases decoded : fromBinary platform.jvm data stringTable with
  | ok cpdTokens =>
      rw [decoded] at cpd
      have read : CacheAnalysisSerialization.readFromCache platform plugin context
          (CacheKey.forFile inputFile plugin.version) world =
            .ok (.fromCache cpdTokens) { world with fileSystem } :=
        (Action.bind_ok ucfg).trans (Action.bind_ok (Action.ofExcept_ok cpd _))
      have copied := CacheAnalysisSerialization.copyFromPrevious_of_some { world with fileSystem }
        json_ seq_ data_ stringTable_ h.new
      have ran : CacheStrategies.readAndCopy platform plugin context
          (CacheKey.forFile inputFile plugin.version) world = .ok (.fromCache cpdTokens)
            (World.copied plugin inputFile { world with fileSystem } json seq data stringTable) :=
        (Action.bind_ok read).trans (Action.bind_ok copied)
      rw [ran]
  | error e =>
      rw [decoded] at cpd
      have read : CacheAnalysisSerialization.readFromCache platform plugin context
          (CacheKey.forFile inputFile plugin.version) world = .error e { world with fileSystem } :=
        (Action.bind_ok ucfg).trans (Action.bind_error (Action.ofExcept_error cpd _))
      have ran : CacheStrategies.readAndCopy platform plugin context
          (CacheKey.forFile inputFile plugin.version) world = .error e { world with fileSystem } :=
        Action.bind_error read
      rw [ran]

/-- `getStrategyFor` returns, with a hit if the CPD entries can be decoded and with a
corrupted entry if not, exactly if every size, length and index that is met while they
are decoded is in range. Otherwise something else than an `IOException` escapes. -/
theorem getStrategyFor_returns_iff (platform : Platform) (plugin : PluginInfo)
    (context : SensorContext) (inputFile : InputFile) (world : World) (data stringTable : Bytes)
    (intact : IntactBesidesCpd platform plugin context inputFile world)
    (data_ : context.previousCache (Entry.data.key plugin inputFile) = some data)
    (stringTable_ :
      context.previousCache (Entry.stringTable.key plugin inputFile) = some stringTable) :
    (∃ world', CacheStrategies.getStrategyFor platform plugin context inputFile world = .ok
        (match convert platform.jvm data stringTable with
        | .ok cpdTokens =>
          (.readAndWrite (.fromCache cpdTokens) (CacheKey.forFile inputFile plugin.version), none)
        | .error _ =>
          (.writeOnly (CacheKey.forFile inputFile plugin.version), some .cacheCorrupted)) world') ↔
      CpdInRange platform.jvm data stringTable := by
  obtain ⟨json, seq, fileSystem, strategy⟩ := intact.getStrategyFor_eq data_ stringTable_
  rw [strategy, ← onlyIOException_convert, fromBinary]
  cases convert platform.jvm data stringTable with
  | ok cpdTokens => exact iff_of_true ⟨_, rfl⟩ (onlyIOException_ok _)
  | error e =>
      rw [onlyIOException_error]
      cases caught : e.isIOException with
      | true =>
          refine iff_of_true ⟨{ world with fileSystem }, ?_⟩ rfl
          simp only [caught, if_true]
          rfl
      | false =>
          refine iff_of_false ?_ Bool.false_ne_true
          simp [caught]

end Reading

/-! ## A file in the cache -/

section Cached

/-- The digest of `Hello World!`. -/
def helloHash : Bytes :=
  [127, 131, 177, 101, 127, 241, 252, 83, 185, 45, 193, 129, 72, 161, 214, 93, 252, 45, 75, 31, 163,
    214, 119, 40, 74, 221, 210, 0, 18, 109, 144, 105]

def helloMetadata : FileMetadata := ⟨12, some helloHash⟩

def helloMetadataJson : String :=
  "\x7b\"size\":12,\"hash\":[127,-125,-79,101,127,-15,-4,83,-71,45,-63,-127,72,-95,-42,93,-4,45," ++
    "75,31,-93,-42,119,40,74,-35,-46,0,18,109,-112,105]\x7d"

def emptyManifestJson : String := "\x7b\"fileSizes\":[]\x7d"

/-- Gson on a single document. -/
def gsonOf {P : Type} (json : String) (payload : P) : Gson P where
  toJson _ := json
  fromJson json' := if json' = json then .ok (some payload) else .error .jsonParseException

theorem readsBack_gsonOf {P : Type} (json : String) (payload : P) :
    (gsonOf json payload).ReadsBack payload := if_pos rfl

/-- A platform as far as it is used for `Hello World!` without generated files. -/
def helloPlatform : Platform where
  jvm := ⟨2147483645, fun _ => 1, by decide, by decide⟩
  sha256 _ := helloHash
  gsonFilesManifest := gsonOf emptyManifestJson []
  gsonFileMetadata := gsonOf helloMetadataJson helloMetadata

def helloPlugin : PluginInfo := ⟨some "1.0.0", none⟩

def helloFile : InputFile := ⟨"src/test.js", .ok (Utf8.encode "Hello World!")⟩

def helloContext (previousCache : Entries) : SensorContext where
  apiVersion := .create 9 6
  product := .sonarQube
  canSkipUnchangedFiles := true
  previousCache
  workDir := scannerWork
  chunks _ _ := 8192

/-- An empty working directory and nothing in the next cache. -/
def freshWorld : World := ⟨emptyWorkDir, fun _ => none⟩

/-- A cache that holds the file with these CPD entries. -/
def helloCache (data stringTable : Bytes) : Entries := fun key =>
  if key = "js:filemetadata:1.0.0:src/test.js" then some (Utf8.encode helloMetadataJson)
  else if key = "jssecurity:ucfgs:JSON:1.0.0:src/test.js" then some (Utf8.encode emptyManifestJson)
  else if key = "jssecurity:ucfgs:SEQ:1.0.0:src/test.js" then some []
  else if key = "js:cpd:DATA:1.0.0:src/test.js" then some data
  else if key = "js:cpd:STRING_TABLE:1.0.0:src/test.js" then some stringTable
  else none

theorem helloCache_key (data stringTable : Bytes) (entry : Entry) :
    helloCache data stringTable (entry.key helloPlugin helloFile) = match entry with
      | .json => some (Utf8.encode emptyManifestJson)
      | .seq => some []
      | .data => some data
      | .stringTable => some stringTable
      | .fileMetadata => some (Utf8.encode helloMetadataJson) := by
  cases entry <;> rfl

theorem intact_hello (data stringTable : Bytes) :
    IntactBesidesCpd helloPlatform helloPlugin (helloContext (helloCache data stringTable))
      helloFile freshWorld where
  compatible := rfl
  canSkip := rfl
  metadata := ⟨helloMetadata,
    JsonSerialization.readFromCache_of_readsBack _ (readsBack_gsonOf _ _)
      (helloCache_key data stringTable .fileMetadata), by decide⟩
  generatedFiles := ⟨[], [], emptyWorkDir,
    JsonSerialization.readFromCache_of_readsBack _ (readsBack_gsonOf _ _)
      (helloCache_key data stringTable .json),
    helloCache_key data stringTable .seq, rfl⟩
  new _ := rfl

/-- A string table whose size is `-1`. -/
def negativeSize : Bytes := [255, 255, 255, 255, 15]

/-- The `IllegalArgumentException` of `new ArrayList<>(-1)` aborts the analysis. -/
theorem getStrategyFor_throws_on_negative_size :
    IntactBesidesCpd helloPlatform helloPlugin (helloContext (helloCache [] negativeSize)) helloFile
        freshWorld ∧
      ¬ ∃ strategy world', CacheStrategies.getStrategyFor helloPlatform helloPlugin
        (helloContext (helloCache [] negativeSize)) helloFile freshWorld = .ok strategy world' := by
  have intact := intact_hello [] negativeSize
  refine ⟨intact, fun ⟨strategy, world', returns⟩ => ?_⟩
  obtain ⟨json, seq, fileSystem, throws⟩ := intact.getStrategyFor_eq
    (helloCache_key [] negativeSize .data) (helloCache_key [] negativeSize .stringTable)
  have thrown : fromBinary helloPlatform.jvm [] negativeSize =
      .error .illegalArgumentException := by rfl
  rw [throws, thrown] at returns
  cases returns

/-- The entries of a file without tokens. -/
def noTokens : SerializationResult :=
  toBinary (⟨[], by decide, by decide⟩ : CpdData helloPlatform.jvm)

theorem getStrategyFor_returns_without_tokens :
    ∃ world', CacheStrategies.getStrategyFor helloPlatform helloPlugin
      (helloContext (helloCache noTokens.data noTokens.stringTable)) helloFile
      freshWorld =
        .ok (.readAndWrite (.fromCache []) (CacheKey.forFile helloFile helloPlugin.version), none)
          world' := by
  have decoded : convert helloPlatform.jvm noTokens.data noTokens.stringTable = .ok [] :=
    convert_toBinary _ _
  have inRange : CpdInRange helloPlatform.jvm noTokens.data noTokens.stringTable := by
    rw [← onlyIOException_convert, decoded]
    exact onlyIOException_ok []
  obtain ⟨world', returns⟩ := (getStrategyFor_returns_iff helloPlatform helloPlugin _ helloFile _
    noTokens.data noTokens.stringTable (intact_hello noTokens.data noTokens.stringTable)
    (helloCache_key noTokens.data noTokens.stringTable .data)
    (helloCache_key noTokens.data noTokens.stringTable .stringTable)).mpr inRange
  rw [decoded] at returns
  exact ⟨world', returns⟩

end Cached

end Cache

end SonarJS
