import Mathlib.Data.List.Infix

/-!
# File systems

A file system is a tree of directories and files. A path is the list of names from
the root. The tree is closed: whatever exists lies in a directory, so a file never
has anything below it.

Only what a program does to write files is covered: creating a directory with all
its parents, and creating or replacing a file. Both fail by returning `none`.
-/

/-- What a path leads to. -/
inductive FileSystem.Node
  | directory
  | file (bytes : List UInt8)
deriving DecidableEq

/-- A closed tree. -/
structure FileSystem (ν : Type*) where
  entry : List ν → Option FileSystem.Node
  parent : ∀ path name, entry (path ++ [name]) ≠ none → entry path = some .directory

namespace FileSystem

variable {ν : Type*}

def Node.isFile : Node → Bool
  | .directory => false
  | .file _ => true

/-- Everything above an existing path is a directory. -/
theorem directory_of_below (fs : FileSystem ν) {path below : List ν} (nonempty : below ≠ [])
    (h : fs.entry (path ++ below) ≠ none) : fs.entry path = some .directory := by
  induction below using List.reverseRecOn with
  | nil => exact absurd rfl nonempty
  | append_singleton below name ih =>
      rw [← List.append_assoc] at h
      have last := fs.parent _ _ h
      cases below with
      | nil => rwa [List.append_nil] at last
      | cons first below =>
          have exists_ : fs.entry (path ++ first :: below) ≠ none := by
            rw [last]
            exact Option.some_ne_none _
          exact ih (List.cons_ne_nil _ _) exists_

variable [DecidableEq ν]

/-- Create the directory and its parents where they do not exist yet. -/
def createDirectories (fs : FileSystem ν) (path : List ν) : Option (FileSystem ν) :=
  if path.inits.any fun q => (fs.entry q).any Node.isFile then none
  else some {
    entry := fun q => if q <+: path then some .directory else fs.entry q
    parent := by
      intro q name h
      by_cases above : q ++ [name] <+: path
      · exact if_pos ((List.prefix_append q [name]).trans above)
      · rw [if_neg above] at h
        rw [fs.parent q name h, ite_self] }

/-- Create the file, or replace its contents. -/
def write (fs : FileSystem ν) (path : List ν) (bytes : List UInt8) : Option (FileSystem ν) :=
  if h : path ≠ [] ∧ fs.entry path.dropLast = some .directory ∧
      fs.entry path ≠ some .directory then some {
    entry := fun q => if q = path then some (.file bytes) else fs.entry q
    parent := by
      obtain ⟨nonempty, parent, notDirectory⟩ := h
      intro q name exists_
      by_cases here : q ++ [name] = path
      · subst here
        rw [List.dropLast_concat] at parent
        rw [if_neg (by simp), parent]
      · rw [if_neg here] at exists_
        have directory := fs.parent q name exists_
        have other : q ≠ path := fun same => notDirectory (same ▸ directory)
        rw [if_neg other, directory] }
  else none

theorem entry_of_createDirectories {fs fs' : FileSystem ν} {path : List ν}
    (h : fs.createDirectories path = some fs') (q : List ν) :
    fs'.entry q = if q <+: path then some .directory else fs.entry q := by
  unfold createDirectories at h
  split at h
  · cases h
  · cases h
    rfl

theorem entry_of_write {fs fs' : FileSystem ν} {path : List ν} {bytes : List UInt8}
    (h : fs.write path bytes = some fs') (q : List ν) :
    fs'.entry q = if q = path then some (.file bytes) else fs.entry q := by
  unfold write at h
  split at h
  · cases h
    rfl
  · cases h

/-- The entries once a file has been written and the directories above it created. -/
def entriesWith (entry : List ν → Option Node) (file : List ν × List UInt8) :
    List ν → Option Node := fun q =>
  if q = file.1 then some (.file file.2)
  else if q <+: file.1.dropLast then some .directory else entry q

/-- Writing files changes nothing but these files and what is above them. -/
theorem foldl_entriesWith_of_not_above {files : List (List ν × List UInt8)} {q : List ν}
    (notAbove : ∀ file ∈ files, ¬ q <+: file.1) (entry : List ν → Option Node) :
    files.foldl entriesWith entry q = entry q := by
  induction files generalizing entry with
  | nil => rfl
  | cons file files ih =>
      rw [List.forall_mem_cons] at notAbove
      have other : q ≠ file.1 := by
        rintro rfl
        exact notAbove.1 List.prefix_rfl
      have notParent : ¬ q <+: file.1.dropLast := fun above =>
        notAbove.1 (above.trans (List.dropLast_prefix _))
      rw [List.foldl_cons, ih notAbove.2, entriesWith, if_neg other, if_neg notParent]

theorem createDirectories_eq_some {fs : FileSystem ν} {path : List ν}
    (h : ∀ q, q <+: path → ∀ bytes, fs.entry q ≠ some (.file bytes)) :
    ∃ fs', fs.createDirectories path = some fs' ∧
      ∀ q, fs'.entry q = if q <+: path then some .directory else fs.entry q := by
  refine ⟨_, if_neg fun some_ => ?_, fun _ => rfl⟩
  obtain ⟨q, inits, isFile⟩ := List.any_eq_true.mp some_
  cases entry : fs.entry q with
  | none => simp [entry] at isFile
  | some node =>
      cases node with
      | directory => simp [entry, Node.isFile] at isFile
      | file bytes => exact h q ((List.mem_inits q path).mp inits) bytes entry

theorem write_eq_some {fs : FileSystem ν} {path : List ν} (bytes : List UInt8)
    (nonempty : path ≠ []) (parent : fs.entry path.dropLast = some .directory)
    (notDirectory : fs.entry path ≠ some .directory) :
    ∃ fs', fs.write path bytes = some fs' ∧
      ∀ q, fs'.entry q = if q = path then some (.file bytes) else fs.entry q :=
  ⟨_, dif_pos ⟨nonempty, parent, notDirectory⟩, fun _ => rfl⟩

end FileSystem
