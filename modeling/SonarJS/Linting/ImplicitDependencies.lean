import Mathlib.Data.Finset.Lattice.Basic
import SonarJS.Foundation.OrderedCollections
import SonarJS.Foundation.PosixPath

/-!
# The dependencies of a file

`getDependencies` collects the dependencies that are declared in the directory of a file and
in the directories above it. It keeps two caches for all files of an analysis: the names that
each single directory declares, and the result for each directory. The set of a result is put
into its cache while it is still empty, and filled there.
-/

namespace SonarJS.ImplicitDependencies

open PosixPath

/-! ## Package files -/

abbrev Name := List Char

/-- A parsed text, as far as its keys are looked at. A string is its number of code units, and
no field of an object comes twice. -/
inductive Json
  | null
  | bool (value : Bool)
  | number
  | string (length : ℕ)
  | array (elements : List Json)
  | object (fields : List (Name × Json))

def indices (length : ℕ) : List Name := (List.range length).map fun i => (toString i).toList

namespace Json

/-- `Object.keys`, which throws for `null`. -/
def keys : Json → Option (List Name)
  | null => none
  | bool _ => some []
  | number => some []
  | string length => some (indices length)
  | array elements => some (indices elements.length)
  | object fields => some (fields.map Prod.fst)

/-- The value of a field, which is undefined if there is none. `null` has no fields. -/
def field (name : Name) : Json → Option (Option Json)
  | null => none
  | object fields => some (fields.lookup name)
  | _ => some none

end Json

/-- A `package.json`, which may be no JSON text. -/
inductive PackageJson
  | malformed
  | content (content : Json)

def DefinitelyTyped : Name := "@types/".toList

def withoutTypes (name : Name) : Name :=
  if DefinitelyTyped.isPrefixOf name then name.drop DefinitelyTyped.length else name

def addDependencies (result : Finset Name) (dependencies : Json) : Option (Finset Name) :=
  dependencies.keys.map fun names => result ∪ (names.map withoutTypes).toFinset

def dependencyFields : List Name :=
  ["dependencies".toList, "devDependencies".toList, "peerDependencies".toList]

/-- The statements of the `try` block, one for each field. What they throw ends the block, and
the names that have been added stay. -/
def readFields (content : Json) : List Name → Finset Name → Finset Name
  | [], result => result
  | field :: fields, result =>
    match content.field field with
    | none => result
    | some none => readFields content fields result
    | some (some dependencies) =>
      match addDependencies result dependencies with
      | none => result
      | some added => readFields content fields added

def getDependenciesFromPackageJson : PackageJson → Finset Name
  | .malformed => ∅
  | .content content => readFields content dependencyFields ∅

/-! ## The names in a package file -/

section Names

variable (content : Json)

/-- Among the keys of the field is this name, or the name of its types. -/
def Declares (field name : Name) : Prop :=
  ∃ dependencies keys key, content.field field = some (some dependencies) ∧
    dependencies.keys = some keys ∧ key ∈ keys ∧ withoutTypes key = name

/-- The fields are objects if they are there, as the format asks for. At least they have keys. -/
def WellFormed : Prop :=
  ∀ field ∈ dependencyFields, content.field field ≠ some (some .null)

/-- One of these fields declares the name, and none of the fields before it is `null`. -/
def DeclaresIn (fields : List Name) (name : Name) : Prop :=
  ∃ before field behind, fields = before ++ field :: behind ∧
    (∀ earlier ∈ before, content.field earlier ≠ some (some .null)) ∧
    Declares content field name

variable {content} {field name : Name} {fields : List Name}

theorem Json.keys_eq_none {dependencies : Json} :
    dependencies.keys = none ↔ dependencies = .null := by
  cases dependencies <;> simp [Json.keys]

theorem not_declaresIn_nil : ¬DeclaresIn content [] name := by
  rintro ⟨before, field, behind, split, -, -⟩
  exact List.append_ne_nil_of_right_ne_nil before (List.cons_ne_nil field behind) split.symm

theorem declaresIn_cons : DeclaresIn content (field :: fields) name ↔
    Declares content field name ∨
      content.field field ≠ some (some .null) ∧ DeclaresIn content fields name := by
  constructor
  · rintro ⟨before, declaring, behind, split, noNull, declares⟩
    cases before with
    | nil =>
        obtain ⟨rfl, -⟩ := List.cons.inj split
        exact .inl declares
    | cons first before =>
        obtain ⟨rfl, rest⟩ := List.cons.inj split
        rw [List.forall_mem_cons] at noNull
        exact .inr ⟨noNull.1, before, declaring, behind, rest, noNull.2, declares⟩
  · rintro (declares | ⟨noNull, before, declaring, behind, rfl, noNulls, declares⟩)
    · exact ⟨[], field, fields, rfl, by simp, declares⟩
    · exact ⟨field :: before, declaring, behind, rfl,
        List.forall_mem_cons.mpr ⟨noNull, noNulls⟩, declares⟩

/-- The loop that is unrolled in the `try` block adds what the readable fields declare. -/
theorem mem_readFields {result : Finset Name} :
    name ∈ readFields content fields result ↔
      name ∈ result ∨ DeclaresIn content fields name := by
  induction fields generalizing result with
  | nil => simp [readFields, not_declaresIn_nil]
  | cons field fields ih =>
      rw [readFields, declaresIn_cons]
      cases value : content.field field with
      | none =>
          -- `null` is thrown at, whichever field is read first
          have declaresNone : ∀ field, content.field field = none := by
            cases content <;> simp_all [Json.field]
          have declares : ¬DeclaresIn content fields name := by
            rintro ⟨-, declaring, -, -, -, dependencies, keys, key, found, -, -, -⟩
            rw [declaresNone] at found
            cases found
          simp [Declares, value, declares]
      | some found =>
          cases found with
          | none => simp [Declares, value, ih]
          | some dependencies =>
              cases keys : dependencies.keys with
              | none =>
                  rw [Json.keys_eq_none] at keys
                  subst keys
                  simp [Declares, value, addDependencies, Json.keys]
              | some names =>
                  have noNull : dependencies ≠ .null := by
                    rintro rfl
                    cases keys
                  have declares : Declares content field name ↔
                      name ∈ names.map withoutTypes := by
                    rw [List.mem_map]
                    constructor
                    · rintro ⟨_, _, key, found, some, member, rfl⟩
                      rw [value] at found
                      cases found
                      rw [keys] at some
                      cases some
                      exact ⟨key, member, rfl⟩
                    · rintro ⟨key, member, rfl⟩
                      exact ⟨dependencies, names, key, value, keys, member, rfl⟩
                  simp only [addDependencies, keys, Option.map_some, ih, Finset.mem_union,
                    List.mem_toFinset, declares, ne_eq, Option.some.injEq, noNull,
                    not_false_eq_true, true_and, or_assoc]

end Names

/-- The names that a package file declares. A text that is no JSON declares none. -/
def PackageJson.names : PackageJson → Set Name
  | .malformed => ∅
  | .content parsed => {name | DeclaresIn parsed dependencyFields name}

theorem mem_getDependenciesFromPackageJson {packageJson : PackageJson} {name : Name} :
    name ∈ getDependenciesFromPackageJson packageJson ↔ name ∈ packageJson.names := by
  cases packageJson with
  | malformed => simp [getDependenciesFromPackageJson, PackageJson.names]
  | content content =>
      simp [getDependenciesFromPackageJson, PackageJson.names, mem_readFields]

/-- In a well-formed file, these are the names in the three fields. -/
theorem names_of_wellFormed {content : Json} (wellFormed : WellFormed content) :
    (PackageJson.content content).names =
      {name | ∃ field ∈ dependencyFields, Declares content field name} := by
  ext name
  constructor
  · rintro ⟨before, field, behind, split, -, declares⟩
    exact ⟨field, split ▸ List.mem_append_right _ List.mem_cons_self, declares⟩
  · rintro ⟨field, member, declares⟩
    obtain ⟨before, behind, split⟩ := List.append_of_mem member
    refine ⟨before, field, behind, split, ?_, declares⟩
    intro earlier above
    exact wellFormed earlier (split ▸ List.mem_append_left _ above)

/-! ## The caches -/

structure Caches where
  dirCache : OrderedMap Path (Finset Name)
  cache : OrderedMap Path (Finset Name)

def Caches.empty : Caches := ⟨.empty, .empty⟩

/-- `result.add` for all these names, where `result` is the set in the cache. -/
def Caches.addAll (caches : Caches) (start : Path) (names : Finset Name) : Caches :=
  { caches with cache := caches.cache.set start ((caches.cache.get start).getD ∅ ∪ names) }

/-- The `package.json` of each directory. -/
abbrev Packages := List Segment → Option PackageJson

section Lookup

variable (packages : Packages) (workingDirectory : List Segment)

/-- The dependencies that the directory itself declares. -/
def declaredIn (dirname : Path) : Finset Name :=
  match packages (resolve workingDirectory dirname) with
  | some packageJson => getDependenciesFromPackageJson packageJson
  | none => ∅

/-- The body of the loop, for a directory. -/
def visitDirectory (start dirname : Path) (caches : Caches) : Caches :=
  match caches.dirCache.get dirname with
  | some dirCached => caches.addAll start dirCached
  | none =>
    let dep := declaredIn packages workingDirectory dirname
    let caches := caches.addAll start dep
    { caches with dirCache := caches.dirCache.set dirname dep }

/-- The loop over the directory and those above it. -/
def visitUpwards (start dirname : Path) (caches : Caches) : Caches :=
  let caches := visitDirectory packages workingDirectory start dirname caches
  let upperDir := PosixPath.dirname dirname
  if upperDir = dirname then caches else visitUpwards start upperDir caches
termination_by weight dirname
decreasing_by exact weight_dirname ‹_›

def getDependencies (fileName : Path) (caches : Caches) : Finset Name × Caches :=
  let dirname := PosixPath.dirname fileName
  match caches.cache.get dirname with
  | some cached => (cached, caches)
  | none =>
    let caches := { caches with cache := caches.cache.set dirname ∅ }
    let caches := visitUpwards packages workingDirectory dirname dirname caches
    ((caches.cache.get dirname).getD ∅, caches)

/-- The results of a sequence of calls. -/
def runAll : List Path → Caches → List (Finset Name)
  | [], _ => []
  | fileName :: fileNames, caches =>
    let (result, caches) := getDependencies packages workingDirectory fileName caches
    result :: runAll fileNames caches

/-! ## What the caches hold -/

/-- The names that the package file of a directory declares, if it has one. -/
def namesIn (directory : List Segment) : Set Name :=
  {name | ∃ packageJson, packages directory = some packageJson ∧ name ∈ packageJson.names}

/-- The names that a directory and those above it declare. -/
def namesUpwards (dirname : Path) : Set Name :=
  {name | ∃ directory ∈ upwards dirname,
    name ∈ namesIn packages (resolve workingDirectory directory)}

/-- What one query leaves behind for the next: the entries of both caches are complete. -/
structure Caches.Valid (caches : Caches) : Prop where
  dirCache : ∀ directory dep, caches.dirCache.get directory = some dep →
    dep = declaredIn packages workingDirectory directory
  cache : ∀ directory result, caches.cache.get directory = some result →
    ∀ name, name ∈ result ↔ name ∈ namesUpwards packages workingDirectory directory

variable {packages workingDirectory}

theorem mem_declaredIn {directory : Path} {name : Name} :
    name ∈ declaredIn packages workingDirectory directory ↔
      name ∈ namesIn packages (resolve workingDirectory directory) := by
  unfold declaredIn namesIn
  cases packages (resolve workingDirectory directory) with
  | none => simp
  | some packageJson => simp [mem_getDependenciesFromPackageJson]

/-- During a query the entry of its own directory is not complete yet. All others are. -/
structure Caches.ValidBut (packages : Packages) (workingDirectory : List Segment) (start : Path)
    (result : Finset Name) (caches : Caches) : Prop where
  dirCache : ∀ directory dep, caches.dirCache.get directory = some dep →
    dep = declaredIn packages workingDirectory directory
  others : ∀ directory result, directory ≠ start → caches.cache.get directory = some result →
    ∀ name, name ∈ result ↔ name ∈ namesUpwards packages workingDirectory directory
  own : caches.cache.get start = some result

theorem Caches.ValidBut.addAll {start : Path} {result : Finset Name} {caches : Caches}
    (valid : caches.ValidBut packages workingDirectory start result) (names : Finset Name) :
    (caches.addAll start names).ValidBut packages workingDirectory start (result ∪ names) where
  dirCache := valid.dirCache
  others := by
    intro directory result other found
    rw [Caches.addAll, OrderedMap.get_set, if_neg other] at found
    exact valid.others directory result other found
  own := by
    rw [Caches.addAll, OrderedMap.get_set, if_pos rfl, valid.own]
    rfl

/-- The body of the loop adds what the directory declares, from the cache or from its file. -/
theorem validBut_visitDirectory {start : Path} {result : Finset Name} {caches : Caches}
    (valid : caches.ValidBut packages workingDirectory start result) (directory : Path) :
    (visitDirectory packages workingDirectory start directory caches).ValidBut packages
      workingDirectory start (result ∪ declaredIn packages workingDirectory directory) := by
  unfold visitDirectory
  cases found : caches.dirCache.get directory with
  | some dirCached =>
      rw [← valid.dirCache directory dirCached found]
      exact valid.addAll dirCached
  | none =>
      have added := valid.addAll (declaredIn packages workingDirectory directory)
      refine ⟨?_, added.others, added.own⟩
      intro visited dep present
      rw [OrderedMap.get_set] at present
      by_cases same : visited = directory
      · rw [if_pos same] at present
        rw [same, ← Option.some.inj present]
      · rw [if_neg same] at present
        exact added.dirCache visited dep present

/-- The loop adds what the directory and those above it declare. -/
theorem validBut_visitUpwards {start : Path} {result : Finset Name} {caches : Caches}
    (valid : caches.ValidBut packages workingDirectory start result) (directory : Path) :
    ∃ all, (visitUpwards packages workingDirectory start directory caches).ValidBut packages
        workingDirectory start all ∧
      ∀ name, name ∈ all ↔
        name ∈ result ∨ name ∈ namesUpwards packages workingDirectory directory := by
  fun_induction visitUpwards packages workingDirectory start directory caches
      generalizing result with
  | case1 directory caches visited upperDir =>
      rename_i top
      refine ⟨_, validBut_visitDirectory valid directory, ?_⟩
      intro name
      rw [Finset.mem_union, mem_declaredIn, namesUpwards, upwards_eq, if_pos top]
      simp
  | case2 directory caches visited upperDir =>
      rename_i below ih
      obtain ⟨all, validAll, mem⟩ := ih (validBut_visitDirectory valid directory)
      refine ⟨all, validAll, ?_⟩
      intro name
      rw [mem, Finset.mem_union, mem_declaredIn, or_assoc, namesUpwards, namesUpwards,
        upwards_eq directory, if_neg below]
      simp [upperDir]

/-- A query returns the names upwards from the directory of the file, and keeps the caches. -/
theorem valid_getDependencies {caches : Caches} (valid : caches.Valid packages workingDirectory)
    (fileName : Path) :
    (getDependencies packages workingDirectory fileName caches).2.Valid packages
        workingDirectory ∧
      ∀ name, name ∈ (getDependencies packages workingDirectory fileName caches).1 ↔
        name ∈ namesUpwards packages workingDirectory (PosixPath.dirname fileName) := by
  cases found : caches.cache.get (PosixPath.dirname fileName) with
  | some cached =>
      simp only [getDependencies, found]
      exact ⟨valid, valid.cache _ _ found⟩
  | none =>
      simp only [getDependencies, found]
      have started : Caches.ValidBut packages workingDirectory (PosixPath.dirname fileName) ∅
          { caches with cache := caches.cache.set (PosixPath.dirname fileName) ∅ } := by
        refine ⟨valid.dirCache, ?_, ?_⟩
        · intro directory result other present
          rw [OrderedMap.get_set, if_neg other] at present
          exact valid.cache directory result present
        · rw [OrderedMap.get_set, if_pos rfl]
      obtain ⟨all, validAll, mem⟩ :=
        validBut_visitUpwards started (PosixPath.dirname fileName)
      have complete : ∀ name, name ∈ all ↔
          name ∈ namesUpwards packages workingDirectory (PosixPath.dirname fileName) := by
        simpa using mem
      refine ⟨⟨validAll.dirCache, ?_⟩, ?_⟩
      · intro directory result present
        by_cases own : directory = PosixPath.dirname fileName
        · subst own
          rw [validAll.own] at present
          rw [← Option.some.inj present]
          exact complete
        · exact validAll.others directory result own present
      · rw [validAll.own]
        exact complete

theorem valid_empty : Caches.empty.Valid packages workingDirectory where
  dirCache := by
    intro directory dep found
    cases found
  cache := by
    intro directory result found
    cases found

/-- Whatever the caches hold from earlier queries, a sequence of queries gives what each of them
gives on its own. -/
theorem runAll_of_valid {caches : Caches} (valid : caches.Valid packages workingDirectory)
    (fileNames : List Path) :
    runAll packages workingDirectory fileNames caches =
      fileNames.map fun fileName =>
        (getDependencies packages workingDirectory fileName .empty).1 := by
  induction fileNames generalizing caches with
  | nil => rfl
  | cons fileName fileNames ih =>
      obtain ⟨validNext, mem⟩ := valid_getDependencies valid fileName
      have empty : Caches.empty.Valid packages workingDirectory := valid_empty
      have alone := (valid_getDependencies empty fileName).2
      have same : (getDependencies packages workingDirectory fileName caches).1 =
          (getDependencies packages workingDirectory fileName .empty).1 := by
        ext name
        rw [mem, alone]
      rw [runAll, List.map_cons, ← ih validNext, ← same]

/-- The file with this name in a directory below the root. -/
structure AbsoluteFile where
  directory : List Segment
  name : Segment
  isSegment : ∀ segment ∈ directory ++ [name], IsSegment segment

def AbsoluteFile.path (file : AbsoluteFile) : Path := absolute (file.directory ++ [file.name])

/-- Upwards from the directory of an absolute name are the beginnings of its segments. -/
theorem mem_namesUpwards_path (file : AbsoluteFile) {name : Name} :
    name ∈ namesUpwards packages workingDirectory (PosixPath.dirname file.path) ↔
      ∃ directory, directory <+: file.directory ∧ name ∈ namesIn packages directory := by
  have isSegment : ∀ segment ∈ file.directory, IsSegment segment := fun segment member =>
    file.isSegment segment (List.mem_append_left _ member)
  have above : ∀ directory, directory <+: file.directory →
      resolve workingDirectory (absolute directory) = directory := fun directory isPrefix =>
    resolve_absolute (fun segment member => isSegment segment (isPrefix.subset member)) _
  rw [AbsoluteFile.path, dirname_absolute file.isSegment, namesUpwards,
    upwards_absolute isSegment]
  constructor
  · rintro ⟨_, member, declared⟩
    rw [List.mem_map] at member
    obtain ⟨directory, isPrefix, rfl⟩ := member
    rw [List.mem_reverse, List.mem_inits] at isPrefix
    rw [above directory isPrefix] at declared
    exact ⟨directory, isPrefix, declared⟩
  · rintro ⟨directory, isPrefix, declared⟩
    refine ⟨absolute directory, List.mem_map_of_mem ?_, ?_⟩
    · rwa [List.mem_reverse, List.mem_inits]
    · rwa [above directory isPrefix]

end Lookup

/-- No order of queries exposes a set that is not complete or belongs to another directory: each
call returns what it would return with empty caches, the names that are declared in the
directory of the file and in all those above it. -/
theorem getDependencies_cacheTransparent (packages : Packages) (workingDirectory : List Segment)
    (fileNames : List Path) :
    runAll packages workingDirectory fileNames .empty =
        (fileNames.map fun fileName =>
          (getDependencies packages workingDirectory fileName .empty).1) ∧
      (∀ fileName name, name ∈ (getDependencies packages workingDirectory fileName .empty).1 ↔
        ∃ directory ∈ upwards (PosixPath.dirname fileName),
          name ∈ namesIn packages (resolve workingDirectory directory)) ∧
      ∀ (file : AbsoluteFile) (name : Name),
        name ∈ (getDependencies packages workingDirectory file.path .empty).1 ↔
          ∃ directory, directory <+: file.directory ∧ name ∈ namesIn packages directory := by
  refine ⟨runAll_of_valid valid_empty fileNames, ?_, ?_⟩
  · intro fileName
    exact (valid_getDependencies valid_empty fileName).2
  · intro file name
    rw [(valid_getDependencies valid_empty file.path).2, mem_namesUpwards_path]

end SonarJS.ImplicitDependencies
