import Mathlib.Algebra.Order.Group.Unbundled.Int
import Mathlib.Data.List.Basic
import Mathlib.Data.List.Infix
import Mathlib.Data.List.Nodup
import Mathlib.Data.List.Pairwise
import Mathlib.Data.Nat.Notation
import Mathlib.Logic.Relation
import Mathlib.Tactic.Common

/-!
# Walking through directories

`PathWalker` holds the paths that are still to be returned in a deque. When a directory is
returned, what it contains is put in front of the others, without symbolic links and what is too
deep. So the stream is the recursion over the directories, down to the greatest depth.
-/

namespace SonarJS.PathWalker

/-- The names of which a path consists. -/
abbrev Path := List String

/-- A file system. A path below a symbolic link has the files of the directory to which the link
leads, so that there can be endlessly many paths. -/
structure FileSystem where
  isSymbolicLink : Path → Bool
  isDirectory : Path → Bool
  listFiles : Path → Option (List String)
  distinct : ∀ path, ∀ names ∈ listFiles path, names.Nodup

def depth (path : Path) : ℕ := path.length

section Walker

variable (fileSystem : FileSystem) (root : Path) (maxDepth : ℤ)

def isTooDeep (path : Path) : Bool :=
  max 0 maxDepth < (depth path : ℤ) - (depth root : ℤ)

/-- The first path of the deque is the first one of the list. -/
def addPath (paths : List Path) (path : Path) : List Path :=
  if !fileSystem.isSymbolicLink path && !isTooDeep root maxDepth path then path :: paths else paths

def next (path : Path) (paths : List Path) : List Path :=
  if fileSystem.isDirectory path then
    (((fileSystem.listFiles path).getD []).map fun name => path ++ [name]).foldl
      (addPath fileSystem root maxDepth) paths
  else paths

/-- What is returned until the deque is empty, for at most so many paths. -/
def iterate : ℕ → List Path → Option (List Path)
  | _, [] => some []
  | 0, _ :: _ => none
  | fuel + 1, path :: paths =>
    (iterate fuel (next fileSystem root maxDepth path paths)).map (path :: ·)

def stream (fuel : ℕ) : Option (List Path) :=
  iterate fileSystem root maxDepth fuel (addPath fileSystem root maxDepth [] root)

end Walker

/-! ## What is to be found -/

section Reached

variable (fileSystem : FileSystem) (root : Path)

/-- The path is reached through directories that are no symbolic links. -/
inductive Reached : Path → Prop
  | root : Reached root
  | child {path : Path} {names : List String} {name : String} : Reached path →
    fileSystem.isDirectory path = true → fileSystem.isSymbolicLink path = false →
      fileSystem.listFiles path = some names → name ∈ names → Reached (path ++ [name])

end Reached

/-! ## The recursion -/

section Recursion

variable (fileSystem : FileSystem) (root : Path) (maxDepth : ℤ)

/-- The contents of a directory that are put into the deque, the last name first. -/
def contents (path : Path) : List Path :=
  if fileSystem.isDirectory path then
    ((((fileSystem.listFiles path).getD []).map fun name => path ++ [name]).filter fun child =>
      !fileSystem.isSymbolicLink child && !isTooDeep root maxDepth child).reverse
  else []

/-- A path and what is below it, down to some number of levels. -/
def walk : ℕ → Path → List Path
  | 0, path => [path]
  | levels + 1, path => path :: (contents fileSystem root maxDepth path).flatMap (walk levels)

variable {fileSystem root maxDepth}

theorem foldl_addPath (children paths : List Path) :
    children.foldl (addPath fileSystem root maxDepth) paths =
      (children.filter fun child =>
        !fileSystem.isSymbolicLink child && !isTooDeep root maxDepth child).reverse ++ paths := by
  induction children generalizing paths with
  | nil => rfl
  | cons child children ih =>
      rw [List.foldl_cons, ih, addPath, List.filter_cons]
      split
      · rw [List.reverse_cons, List.append_assoc, List.singleton_append]
      · rfl

theorem next_eq (path : Path) (paths : List Path) :
    next fileSystem root maxDepth path paths =
      contents fileSystem root maxDepth path ++ paths := by
  rw [next, contents]
  split
  · exact foldl_addPath _ _
  · rfl

theorem mem_contents {path child : Path} :
    child ∈ contents fileSystem root maxDepth path ↔ fileSystem.isDirectory path = true ∧
      (∃ names name, fileSystem.listFiles path = some names ∧ name ∈ names ∧
        child = path ++ [name]) ∧
      fileSystem.isSymbolicLink child = false ∧ isTooDeep root maxDepth child = false := by
  rw [contents]
  split
  · rename_i isDirectory
    rw [List.mem_reverse, List.mem_filter, List.mem_map, Bool.and_eq_true, Bool.not_eq_true',
      Bool.not_eq_true', and_iff_right isDirectory]
    refine and_congr_left fun _ => ?_
    cases fileSystem.listFiles path with
    | none => simp
    | some names => simp [eq_comm]
  · rename_i noDirectory
    simp [noDirectory]

/-- How many levels there still are below a path. -/
def levelsBelow (root : Path) (maxDepth : ℤ) (path : Path) (levels : ℕ) : Prop :=
  (depth path : ℤ) + levels = depth root + max 0 maxDepth

theorem levelsBelow_of_mem_contents {path child : Path} {levels : ℕ}
    (below : levelsBelow root maxDepth path (levels + 1))
    (member : child ∈ contents fileSystem root maxDepth path) :
    levelsBelow root maxDepth child levels := by
  obtain ⟨-, ⟨names, name, -, -, rfl⟩, -⟩ := mem_contents.1 member
  rw [levelsBelow, depth] at *
  rw [List.length_append, List.length_singleton]
  push_cast at *
  omega

theorem contents_eq_nil {path : Path} (below : levelsBelow root maxDepth path 0) :
    contents fileSystem root maxDepth path = [] := by
  refine List.eq_nil_iff_forall_not_mem.mpr fun child member => ?_
  obtain ⟨-, ⟨names, name, -, -, rfl⟩, -, small⟩ := mem_contents.1 member
  rw [isTooDeep, decide_eq_false_iff_not, depth, List.length_append, List.length_singleton] at small
  rw [levelsBelow, depth] at below
  push_cast at *
  omega

theorem iterate_flatMap {visit : Path → List Path} {front : List Path}
    (single : ∀ path ∈ front, ∀ fuel paths,
      iterate fileSystem root maxDepth ((visit path).length + fuel) (path :: paths) =
        (iterate fileSystem root maxDepth fuel paths).map (visit path ++ ·))
    (fuel : ℕ) (paths : List Path) :
    iterate fileSystem root maxDepth ((front.flatMap visit).length + fuel) (front ++ paths) =
      (iterate fileSystem root maxDepth fuel paths).map (front.flatMap visit ++ ·) := by
  induction front with
  | nil => simp
  | cons path front ih =>
      rw [List.flatMap_cons, List.length_append, Nat.add_assoc, List.cons_append,
        single path List.mem_cons_self,
        ih fun other member => single other (List.mem_cons_of_mem path member), Option.map_map]
      simp [Function.comp_def]

/-- The path in front of the deque is walked before the others. -/
theorem iterate_walk {levels : ℕ} {path : Path} (below : levelsBelow root maxDepth path levels)
    (fuel : ℕ) (paths : List Path) :
    iterate fileSystem root maxDepth
      ((walk fileSystem root maxDepth levels path).length + fuel) (path :: paths) =
      (iterate fileSystem root maxDepth fuel paths).map
        (walk fileSystem root maxDepth levels path ++ ·) := by
  induction levels generalizing path fuel paths with
  | zero =>
      rw [walk, List.length_singleton, Nat.add_comm, iterate, next_eq, contents_eq_nil below]
      rfl
  | succ levels ih =>
      rw [walk, List.length_cons, Nat.add_right_comm, iterate, next_eq, iterate_flatMap,
        Option.map_map]
      · rfl
      · intro child member fuel paths
        exact ih (levelsBelow_of_mem_contents below member) fuel paths

/-! ## What the recursion visits -/

/-- A path in the walk is one from which it is reached step by step. -/
theorem mem_walk {levels : ℕ} {path other : Path} (below : levelsBelow root maxDepth path levels) :
    other ∈ walk fileSystem root maxDepth levels path ↔
      Relation.ReflTransGen (fun parent child =>
        child ∈ contents fileSystem root maxDepth parent) path other := by
  induction levels generalizing path with
  | zero =>
      rw [walk, List.mem_singleton, Relation.ReflTransGen.cases_head_iff,
        contents_eq_nil below]
      simp [eq_comm]
  | succ levels ih =>
      rw [walk, List.mem_cons, List.mem_flatMap, Relation.ReflTransGen.cases_head_iff, eq_comm]
      refine or_congr_right (exists_congr fun child => and_congr_right fun member => ?_)
      exact ih (levelsBelow_of_mem_contents below member)

/-- What is walked is below the path. -/
theorem prefix_of_mem_walk {levels : ℕ} {path other : Path}
    (member : other ∈ walk fileSystem root maxDepth levels path) : path <+: other := by
  induction levels generalizing path with
  | zero => rw [List.mem_singleton.mp member]
  | succ levels ih =>
      obtain rfl | member := List.mem_cons.mp member
      · exact List.prefix_refl _
      · obtain ⟨child, inside, member⟩ := List.mem_flatMap.mp member
        obtain ⟨-, ⟨names, name, -, -, rfl⟩, -⟩ := mem_contents.1 inside
        exact (List.prefix_append path [name]).trans (ih member)

/-- The contents of a directory have different names. -/
theorem pairwise_contents (path : Path) :
    (contents fileSystem root maxDepth path).Pairwise fun first second => ∃ name name',
      name ≠ name' ∧ first = path ++ [name] ∧ second = path ++ [name'] := by
  rw [contents]
  split
  · rw [List.pairwise_reverse]
    refine List.Pairwise.filter _ (List.pairwise_map.mpr ?_)
    cases isListed : fileSystem.listFiles path with
    | none => exact .nil
    | some names =>
        refine (fileSystem.distinct path names isListed).imp ?_
        intro first second differ
        exact ⟨second, first, differ.symm, rfl, rfl⟩
  · exact .nil

/-- No path comes behind one that is below it, or behind itself. -/
theorem pairwise_walk (levels : ℕ) (path : Path) :
    (walk fileSystem root maxDepth levels path).Pairwise
      fun earlier later => ¬later <+: earlier := by
  induction levels generalizing path with
  | zero => exact List.pairwise_singleton _ _
  | succ levels ih =>
      refine List.pairwise_cons.mpr ⟨?_, List.pairwise_flatMap.mpr ⟨fun child _ => ih child, ?_⟩⟩
      · rintro later member above
        obtain ⟨child, inside, member⟩ := List.mem_flatMap.mp member
        obtain ⟨-, ⟨names, name, -, -, rfl⟩, -⟩ := mem_contents.1 inside
        have longer := ((prefix_of_mem_walk member).trans above).length_le
        rw [List.length_append, List.length_singleton] at longer
        omega
      · refine (pairwise_contents path).imp ?_
        rintro first second ⟨name, name', differ, rfl, rfl⟩ earlier inFirst later inSecond above
        have left := prefix_of_mem_walk inFirst
        have right := (prefix_of_mem_walk inSecond).trans above
        have same := List.prefix_of_prefix_length_le left right (by simp)
        have := same.eq_of_length (by simp)
        exact differ (by simpa using this)

theorem isTooDeep_eq_false {path : Path} :
    isTooDeep root maxDepth path = false ↔ (depth path : ℤ) - depth root ≤ max 0 maxDepth := by
  rw [isTooDeep, decide_eq_false_iff_not, not_lt]

theorem reflTransGen_contents_iff (noLink : fileSystem.isSymbolicLink root = false) {path : Path} :
    Relation.ReflTransGen (fun parent child =>
        child ∈ contents fileSystem root maxDepth parent) root path ↔
      Reached fileSystem root path ∧ fileSystem.isSymbolicLink path = false ∧
        (depth path : ℤ) - depth root ≤ max 0 maxDepth := by
  constructor
  · intro steps
    induction steps with
    | refl => exact ⟨.root, noLink, by simp⟩
    | tail _ step ih =>
        obtain ⟨isDirectory, ⟨names, name, isListed, member, rfl⟩, isFile, small⟩ :=
          mem_contents.1 step
        exact ⟨.child ih.1 isDirectory ih.2.1 isListed member, isFile, isTooDeep_eq_false.1 small⟩
  · rintro ⟨reached, isFile, small⟩
    induction reached with
    | root => exact .refl
    | @child path names name _ isDirectory notLink isListed member ih =>
        have above : (depth path : ℤ) - depth root ≤ max 0 maxDepth := by
          rw [depth, List.length_append, List.length_singleton] at small
          rw [depth]
          push_cast at small
          omega
        refine (ih notLink above).tail (mem_contents.2 ⟨isDirectory, ?_, isFile, ?_⟩)
        · exact ⟨names, name, isListed, member, rfl⟩
        · exact isTooDeep_eq_false.2 small

end Recursion

/-! ## The stream -/

/-- The stream ends, and it has each path once that is reached without symbolic links and is not
too deep, and no others. No path comes behind one that is below it. -/
theorem stream_walks (fileSystem : FileSystem) (root : Path) (maxDepth : ℤ)
    (noLink : fileSystem.isSymbolicLink root = false) :
    ∃ paths, (∀ fuel, paths.length ≤ fuel → stream fileSystem root maxDepth fuel = some paths) ∧
      paths.Nodup ∧
      (∀ path, path ∈ paths ↔ Reached fileSystem root path ∧
        fileSystem.isSymbolicLink path = false ∧ (depth path : ℤ) - depth root ≤ max 0 maxDepth) ∧
      paths.Pairwise fun earlier later => ¬later <+: earlier := by
  have below : levelsBelow root maxDepth root (max 0 maxDepth).toNat := by
    rw [levelsBelow, Int.toNat_of_nonneg (le_max_left 0 maxDepth)]
  refine ⟨walk fileSystem root maxDepth (max 0 maxDepth).toNat root, ?_, ?_, ?_,
    pairwise_walk _ _⟩
  · intro fuel enough
    obtain ⟨rest, rfl⟩ := Nat.exists_eq_add_of_le enough
    have small : isTooDeep root maxDepth root = false := isTooDeep_eq_false.2 (by simp)
    rw [stream, addPath, if_pos (by simp [noLink, small]), iterate_walk below]
    unfold iterate
    cases rest with
    | zero => simp
    | succ rest => simp
  · refine (pairwise_walk _ root).imp ?_
    rintro earlier _ notBelow rfl
    exact notBelow (List.prefix_refl _)
  · intro path
    rw [mem_walk below, reflTransGen_contents_iff noLink]

/-! ### A directory with a link to the directory above -/

/-- In `r` there are the directory `a` and the file `b`, in `a` there are the file `f` and the link
`up` to `r`. -/
def withCycle : FileSystem where
  isSymbolicLink := fun path => path.getLast? = some "up"
  isDirectory := fun path => path.getLast? ∈ [some "r", some "a", some "up"]
  listFiles := fun path =>
    if path.getLast? = some "a" then some ["f", "up"]
    else if path.getLast? ∈ [some "r", some "up"] then some ["a", "b"]
    else none
  distinct := by
    intro path names isListed
    split at isListed
    · obtain rfl := Option.some.inj isListed
      decide
    · split at isListed
      · obtain rfl := Option.some.inj isListed
        decide
      · cases isListed

theorem stream_withCycle :
    ∃ paths, (∀ fuel, paths.length ≤ fuel → stream withCycle ["r"] 5 fuel = some paths) ∧
      paths.Nodup ∧ ["r", "a", "f"] ∈ paths ∧ ["r", "a", "up", "b"] ∉ paths := by
  obtain ⟨paths, ends, nodup, complete, -⟩ := stream_walks withCycle ["r"] 5 (by decide)
  refine ⟨paths, ends, nodup, (complete _).mpr ⟨?_, by decide, by decide⟩, fun member => ?_⟩
  · have directory : Reached withCycle ["r"] ["r", "a"] :=
      @Reached.child _ _ ["r"] ["a", "b"] "a" .root (by decide) (by decide) rfl (by decide)
    exact @Reached.child _ _ ["r", "a"] ["f", "up"] "f" directory (by decide) (by decide) rfl
      (by decide)
  · obtain ⟨reached, -⟩ := (complete _).mp member
    generalize same : ["r", "a", "up", "b"] = path at reached
    cases reached with
    | root => simp at same
    | @child path names name _ _ notLink _ _ =>
        have split : ["r", "a", "up"] ++ ["b"] = path ++ [name] := same
        obtain rfl : ["r", "a", "up"] = path := List.append_inj_left' split rfl
        simp [withCycle] at notLink

end SonarJS.PathWalker
