import SonarJS.Foundation.BreadthFirst
import SonarJS.TypeScript.PathWalker

/-!
# Looking for tsconfig.json files

`LookupTsConfigProvider` goes through the directories of a project, one level after another and
not into `node_modules`. Symbolic links are followed, so that the search goes on for ever where a
link leads to a directory above it.
-/

namespace SonarJS.TsConfigProvider

open PathWalker

section Lookup

variable (fileSystem : FileSystem) (baseDir : Path)

def isToBeSearched (file : Path) : Bool :=
  fileSystem.isDirectory file && file.getLast? != some "node_modules"

/-- One turn of the inner loop, with the directories to be searched and what has been found. -/
def visitFile (state : List Path × List Path) (file : Path) : List Path × List Path :=
  if isToBeSearched fileSystem file then (state.1 ++ [file], state.2)
  else if file.getLast? = some "tsconfig.json" then (state.1, state.2 ++ [file])
  else state

/-- The loop over the directories, for at most so many turns. -/
def lookup : ℕ → List Path → List Path → Option (List Path)
  | _, [], tsconfigs => some tsconfigs
  | 0, _ :: _, _ => none
  | fuel + 1, dir :: dirs, tsconfigs =>
    match fileSystem.listFiles dir with
    | none => lookup fuel dirs tsconfigs
    | some names =>
      let state := (names.map fun name => dir ++ [name]).foldl (visitFile fileSystem)
        (dirs, tsconfigs)
      lookup fuel state.1 state.2

def tsconfigs (fuel : ℕ) : Option (List Path) := lookup fileSystem fuel [baseDir] []

/-! ## What is to be found -/

/-- The directories of the project outside of `node_modules`. -/
inductive Searched : Path → Prop
  | baseDir : Searched baseDir
  | subdirectory {dir : Path} {names : List String} {name : String} : Searched dir →
    fileSystem.listFiles dir = some names → name ∈ names →
      fileSystem.isDirectory (dir ++ [name]) = true → name ≠ "node_modules" →
        Searched (dir ++ [name])

/-- The tsconfig.json files of the project. -/
def IsTsConfig (path : Path) : Prop :=
  ∃ dir names, Searched fileSystem baseDir dir ∧ fileSystem.listFiles dir = some names ∧
    "tsconfig.json" ∈ names ∧ path = dir ++ ["tsconfig.json"] ∧
      fileSystem.isDirectory path = false

/-! ## The search -/

def filesOf (dir : Path) : List Path :=
  ((fileSystem.listFiles dir).getD []).map fun name => dir ++ [name]

def subdirectories (dir : Path) : List Path :=
  (filesOf fileSystem dir).filter (isToBeSearched fileSystem)

def isConfig (file : Path) : Bool :=
  !isToBeSearched fileSystem file && file.getLast? == some "tsconfig.json"

def tsconfigsIn (dir : Path) : List Path := (filesOf fileSystem dir).filter (isConfig fileSystem)

variable {fileSystem baseDir}

theorem foldl_visitFile (files : List Path) (state : List Path × List Path) :
    files.foldl (visitFile fileSystem) state =
      (state.1 ++ files.filter (isToBeSearched fileSystem),
        state.2 ++ files.filter (isConfig fileSystem)) := by
  induction files generalizing state with
  | nil => simp
  | cons file files ih =>
      rw [List.foldl_cons, ih, visitFile, List.filter_cons, List.filter_cons, isConfig]
      cases searched : isToBeSearched fileSystem file with
      | true => simp
      | false =>
          by_cases named : file.getLast? = some "tsconfig.json"
          · simp [named]
          · simp [named]

/-- The provider searches breadth first. -/
theorem lookup_eq_search (fuel : ℕ) (dirs found : List Path) :
    lookup fileSystem fuel dirs found =
      BreadthFirst.search (subdirectories fileSystem) (tsconfigsIn fileSystem) fuel dirs found := by
  induction fuel generalizing dirs found with
  | zero => cases dirs <;> rfl
  | succ fuel ih =>
      cases dirs with
      | nil => rfl
      | cons dir dirs =>
          unfold lookup BreadthFirst.search
          cases isListed : fileSystem.listFiles dir with
          | none => simp [ih, subdirectories, tsconfigsIn, filesOf, isListed]
          | some names =>
              simp only [foldl_visitFile, ih]
              simp [subdirectories, tsconfigsIn, filesOf, isListed]

theorem mem_filesOf {dir file : Path} : file ∈ filesOf fileSystem dir ↔
    ∃ names name, fileSystem.listFiles dir = some names ∧ name ∈ names ∧ file = dir ++ [name] := by
  cases isListed : fileSystem.listFiles dir with
  | none => simp [filesOf, isListed]
  | some names => simp [filesOf, isListed, eq_comm]

theorem nodup_filesOf (dir : Path) : (filesOf fileSystem dir).Nodup := by
  cases isListed : fileSystem.listFiles dir with
  | none => simp [filesOf, isListed]
  | some names =>
      have injective : Function.Injective fun name : String => dir ++ [name] :=
        fun first second same => by simpa using same
      simpa [filesOf, isListed] using (fileSystem.distinct dir names isListed).map injective

theorem mem_subdirectories {dir file : Path} : file ∈ subdirectories fileSystem dir ↔
    ∃ names name, fileSystem.listFiles dir = some names ∧ name ∈ names ∧ file = dir ++ [name] ∧
      fileSystem.isDirectory file = true ∧ name ≠ "node_modules" := by
  rw [subdirectories, List.mem_filter, mem_filesOf]
  constructor
  · rintro ⟨⟨names, name, isListed, member, rfl⟩, isSearched⟩
    exact ⟨names, name, isListed, member, rfl, by simpa [isToBeSearched] using isSearched⟩
  · rintro ⟨names, name, isListed, member, rfl, isSearched⟩
    exact ⟨⟨names, name, isListed, member, rfl⟩, by simpa [isToBeSearched] using isSearched⟩

theorem mem_tsconfigsIn {dir file : Path} : file ∈ tsconfigsIn fileSystem dir ↔
    ∃ names, fileSystem.listFiles dir = some names ∧ "tsconfig.json" ∈ names ∧
      file = dir ++ ["tsconfig.json"] ∧ fileSystem.isDirectory file = false := by
  rw [tsconfigsIn, List.mem_filter, mem_filesOf]
  constructor
  · rintro ⟨⟨names, name, isListed, member, rfl⟩, isFound⟩
    obtain ⟨notSearched, isNamed⟩ := Bool.and_eq_true_iff.mp isFound
    obtain rfl : name = "tsconfig.json" := by simpa using isNamed
    exact ⟨names, isListed, member, rfl, by simpa [isToBeSearched] using notSearched⟩
  · rintro ⟨names, isListed, member, rfl, noDirectory⟩
    exact ⟨⟨names, _, isListed, member, rfl⟩, by simp [isConfig, isToBeSearched, noDirectory]⟩

theorem searched_iff {dir : Path} : Searched fileSystem baseDir dir ↔
    ∃ start ∈ [baseDir], Relation.ReflTransGen
      (fun parent child => child ∈ subdirectories fileSystem parent) start dir := by
  constructor
  · intro searched
    refine ⟨baseDir, List.mem_singleton_self _, ?_⟩
    induction searched with
    | baseDir => exact .refl
    | subdirectory _ isListed member isDirectory notModules ih =>
        exact ih.tail (mem_subdirectories.2
          ⟨_, _, isListed, member, rfl, isDirectory, notModules⟩)
  · rintro ⟨start, isStart, reached⟩
    obtain rfl := List.mem_singleton.mp isStart
    induction reached with
    | refl => exact .baseDir
    | tail _ below ih =>
        obtain ⟨names, name, isListed, member, rfl, isDirectory, notModules⟩ :=
          mem_subdirectories.1 below
        exact .subdirectory ih isListed member isDirectory notModules

/-- The directories of a level have the same depth. -/
theorem length_of_mem_level {n : ℕ} {dir : Path}
    (member : dir ∈ BreadthFirst.level (subdirectories fileSystem) n [baseDir]) :
    dir.length = baseDir.length + n := by
  induction n generalizing dir with
  | zero => rw [List.mem_singleton.mp member, Nat.add_zero]
  | succ n ih =>
      obtain ⟨parent, inLevel, below⟩ := List.mem_flatMap.mp member
      obtain ⟨names, name, -, -, rfl, -⟩ := mem_subdirectories.1 below
      rw [List.length_append, ih inLevel, List.length_singleton, Nat.add_assoc]

theorem nodup_level (n : ℕ) :
    (BreadthFirst.level (subdirectories fileSystem) n [baseDir]).Nodup := by
  refine BreadthFirst.nodup_level (fun dir => (nodup_filesOf dir).filter _) ?_
    (List.nodup_singleton _) n
  intro first second file inFirst inSecond
  obtain ⟨_, name, -, -, rfl, -⟩ := mem_subdirectories.1 inFirst
  obtain ⟨_, name', -, -, same, -⟩ := mem_subdirectories.1 inSecond
  exact (List.append_inj' same rfl).1

/-- Files of earlier levels are less deep. -/
theorem pairwise_upTo (n : ℕ) :
    (BreadthFirst.upTo (subdirectories fileSystem) (tsconfigsIn fileSystem) n
      [baseDir]).Pairwise fun earlier later =>
        earlier ≠ later ∧ depth earlier ≤ depth later := by
  have ofLevel : ∀ {k file},
      file ∈ (BreadthFirst.level (subdirectories fileSystem) k [baseDir]).flatMap
        (tsconfigsIn fileSystem) → depth file = baseDir.length + k + 1 := by
    intro k file member
    obtain ⟨dir, inLevel, isFound⟩ := List.mem_flatMap.mp member
    obtain ⟨names, -, -, rfl, -⟩ := mem_tsconfigsIn.1 isFound
    rw [depth, List.length_append, length_of_mem_level inLevel, List.length_singleton]
  refine List.pairwise_flatMap.mpr ⟨fun k _ => List.pairwise_flatMap.mpr ⟨?_, ?_⟩, ?_⟩
  · intro dir _
    refine ((nodup_filesOf dir).filter _).imp_of_mem ?_
    intro earlier later inEarlier inLater differ
    obtain ⟨_, -, -, rfl, -⟩ := mem_tsconfigsIn.1 inEarlier
    obtain ⟨_, -, -, rfl, -⟩ := mem_tsconfigsIn.1 inLater
    exact absurd rfl differ
  · refine (nodup_level k).imp_of_mem ?_
    intro first second inFirst inSecond differ earlier isEarlier later isLater
    have depthEarlier := ofLevel (List.mem_flatMap.mpr ⟨first, inFirst, isEarlier⟩)
    have depthLater := ofLevel (List.mem_flatMap.mpr ⟨second, inSecond, isLater⟩)
    obtain ⟨_, -, -, rfl, -⟩ := mem_tsconfigsIn.1 isEarlier
    obtain ⟨_, -, -, rfl, -⟩ := mem_tsconfigsIn.1 isLater
    refine ⟨fun same => differ (List.append_inj' same rfl).1, ?_⟩
    rw [depthEarlier, depthLater]
  · refine List.pairwise_lt_range.imp ?_
    intro k l less earlier isEarlier later isLater
    have depthEarlier := ofLevel isEarlier
    have depthLater := ofLevel isLater
    refine ⟨?_, by omega⟩
    rintro rfl
    omega

end Lookup

/-! ## The result -/

/-- No directory of the project is deeper than some bound. -/
def IsBounded (fileSystem : FileSystem) (baseDir : Path) : Prop :=
  ∃ bound, ∀ dir, Searched fileSystem baseDir dir → depth dir ≤ bound

theorem exists_empty_level_iff {fileSystem : FileSystem} {baseDir : Path} :
    (∃ n, BreadthFirst.level (subdirectories fileSystem) n [baseDir] = []) ↔
      IsBounded fileSystem baseDir := by
  constructor
  · rintro ⟨n, empty⟩
    refine ⟨baseDir.length + n, fun dir searched => ?_⟩
    obtain ⟨k, member⟩ := BreadthFirst.exists_mem_level.mpr (searched_iff.1 searched)
    by_contra deep
    rw [depth, length_of_mem_level member] at deep
    rw [BreadthFirst.level_eq_nil_of_le empty (by omega)] at member
    cases member
  · rintro ⟨bound, bounded⟩
    refine ⟨bound + 1, List.eq_nil_iff_forall_not_mem.mpr fun dir member => ?_⟩
    have small := bounded dir (searched_iff.2 (BreadthFirst.exists_mem_level.mp ⟨_, member⟩))
    rw [depth, length_of_mem_level member] at small
    omega

/-- The search ends if and only if the directories are of limited depth. It finds each
tsconfig.json file of the project once, those that are less deep first. -/
theorem tsconfigs_finds_all (fileSystem : FileSystem) (baseDir : Path) :
    ((∃ fuel found, tsconfigs fileSystem baseDir fuel = some found) ↔
      IsBounded fileSystem baseDir) ∧
    ∀ fuel found, tsconfigs fileSystem baseDir fuel = some found →
      found.Nodup ∧ found.Pairwise (fun earlier later => depth earlier ≤ depth later) ∧
        ∀ path, path ∈ found ↔ IsTsConfig fileSystem baseDir path := by
  simp only [tsconfigs, lookup_eq_search]
  refine ⟨BreadthFirst.exists_search_iff.trans exists_empty_level_iff, ?_⟩
  intro fuel found isFound
  obtain ⟨n, empty, rfl⟩ := BreadthFirst.exists_eq_upTo isFound
  refine ⟨(pairwise_upTo n).imp And.left, (pairwise_upTo n).imp And.right, fun path => ?_⟩
  rw [BreadthFirst.mem_upTo_of_empty empty]
  constructor
  · rintro ⟨k, dir, member, isConfig⟩
    obtain ⟨names, isListed, isNamed, rfl, noDirectory⟩ := mem_tsconfigsIn.1 isConfig
    have searched := searched_iff.2 (BreadthFirst.exists_mem_level.mp ⟨k, member⟩)
    exact ⟨dir, names, searched, isListed, isNamed, rfl, noDirectory⟩
  · rintro ⟨dir, names, searched, isListed, isNamed, rfl, noDirectory⟩
    obtain ⟨k, member⟩ := BreadthFirst.exists_mem_level.mpr (searched_iff.1 searched)
    exact ⟨k, dir, member, mem_tsconfigsIn.2 ⟨names, isListed, isNamed, rfl, noDirectory⟩⟩

/-- In `p` there are the directories `node_modules` and `src` and a file, in each of the
directories there is a file. -/
def project : FileSystem where
  isSymbolicLink := fun _ => false
  isDirectory := fun path => path.getLast? = some "p" ∨ path.getLast? = some "node_modules" ∨
    path.getLast? = some "src"
  listFiles := fun path =>
    if path.getLast? = some "p" then some ["node_modules", "src", "tsconfig.json"]
    else if path.getLast? = some "node_modules" ∨ path.getLast? = some "src" then
      some ["tsconfig.json"]
    else none
  distinct := by
    intro path names isListed
    split at isListed
    · obtain rfl := Option.some.inj isListed
      decide
    · split at isListed
      · obtain rfl := Option.some.inj isListed
        decide
      · cases isListed

theorem tsconfigs_finds_all_project :
    tsconfigs project ["p"] 2 = some [["p", "tsconfig.json"], ["p", "src", "tsconfig.json"]] ∧
      IsTsConfig project ["p"] ["p", "src", "tsconfig.json"] ∧
        ¬IsTsConfig project ["p"] ["p", "node_modules", "tsconfig.json"] := by
  have isFound : tsconfigs project ["p"] 2 =
      some [["p", "tsconfig.json"], ["p", "src", "tsconfig.json"]] := by decide
  obtain ⟨-, -, all⟩ := (tsconfigs_finds_all project ["p"]).2 2 _ isFound
  exact ⟨isFound, (all _).mp (by decide), fun isConfig => absurd ((all _).mpr isConfig) (by decide)⟩

end SonarJS.TsConfigProvider
