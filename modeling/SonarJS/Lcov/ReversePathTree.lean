import SonarJS.Cache.Sequence
import SonarJS.Foundation.Trie

/-!
# Looking up the files of a coverage report

`ReversePathTree` keeps the indexed files under their paths, the last segment first. A path
of a report is looked up from its end, and the search goes on to the first leaf: the file
found is one whose path ends with the given one. Where the given path is indexed itself, but
another indexed path ends with it, the file at the inner node is passed by.
-/

namespace SonarJS.Lcov

variable {InputFile : Type}

namespace ReversePathTree

def index (inputFile : InputFile) (path : List String) (root : Trie String InputFile) :
    Trie String InputFile :=
  root.insert inputFile path.reverse

def getFileWithSuffix (path : List String) (root : Trie String InputFile) : Option InputFile :=
  root.findFirst path.reverse

end ReversePathTree

open ReversePathTree

namespace FileLocator

variable (relativePath : InputFile → String)

/-- The constructor. -/
def new (inputFiles : List InputFile) : Trie String InputFile :=
  inputFiles.foldl
    (fun tree inputFile => index inputFile (Cache.split (relativePath inputFile)) tree) .empty

/-- `sanitize` of `PathUtils` returns nothing for a path that it cannot normalise. -/
def getInputFile (sanitize : String → Option String) (filePath : String)
    (tree : Trie String InputFile) : Option InputFile := do
  let sanitizedPath ← sanitize filePath
  getFileWithSuffix (Cache.split sanitizedPath) tree

end FileLocator

section Lookup

variable {relativePath : InputFile → String} {inputFiles : List InputFile} {query : List String}
  {f : InputFile}

theorem new_eq_ofList :
    FileLocator.new relativePath inputFiles =
      Trie.ofList (fun f => (Cache.split (relativePath f)).reverse) inputFiles :=
  rfl

/-- A file is found if an indexed path ends with the query. -/
theorem isSome_getFileWithSuffix :
    (getFileWithSuffix query (FileLocator.new relativePath inputFiles)).isSome ↔
      ∃ f ∈ inputFiles, query <:+ Cache.split (relativePath f) := by
  rw [getFileWithSuffix, new_eq_ofList, Trie.isSome_findFirst_ofList]
  simp only [List.reverse_prefix]

/-- The file that is found, and how its path ends. -/
theorem of_getFileWithSuffix
    (found : getFileWithSuffix query (FileLocator.new relativePath inputFiles) = some f) :
    f ∈ inputFiles ∧ query <:+ Cache.split (relativePath f) ∧
      ∀ g ∈ inputFiles, query <:+ Cache.split (relativePath g) →
        Cache.split (relativePath g) ≠ query → Cache.split (relativePath f) ≠ query := by
  obtain ⟨member, starts, longer⟩ := Trie.findFirst_ofList found
  simp only [List.reverse_prefix, ne_eq, List.reverse_inj] at starts longer
  exact ⟨member, starts, longer⟩

/-- An indexed path is found unless another indexed path ends with it. -/
theorem forall_eq_some_iff :
    (∀ f ∈ inputFiles, Cache.split (relativePath f) = query →
        getFileWithSuffix query (FileLocator.new relativePath inputFiles) = some f) ↔
      ∀ f ∈ inputFiles, Cache.split (relativePath f) = query →
        ∀ g ∈ inputFiles, query <:+ Cache.split (relativePath g) → g = f := by
  constructor
  · intro exact f member same g member' ends
    have found := exact f member same
    by_cases same' : Cache.split (relativePath g) = query
    · exact Option.some.inj ((exact g member' same').symm.trans found)
    · exact absurd same ((of_getFileWithSuffix found).2.2 g member' ends same')
  · intro only f member same
    have ends : query <:+ Cache.split (relativePath f) := by rw [same]
    have isFound := isSome_getFileWithSuffix.2 ⟨f, member, ends⟩
    obtain ⟨g, found⟩ := Option.isSome_iff_exists.mp isFound
    obtain ⟨member', ends, -⟩ := of_getFileWithSuffix found
    rw [found, only f member same g member' ends]

end Lookup

end SonarJS.Lcov
