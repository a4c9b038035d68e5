import Mathlib.Data.List.Infix
import Mathlib.Data.List.TakeWhile

/-!
# Paths as strings

`path.dirname` and `path.resolve` of Node.js on POSIX systems. `dirname` looks at the string
only: it cuts the last segment off, and what comes out after some steps is `/` or `.`, which
it does not change any more. A path that is absolute and normal is cut down to the root
directory in this way, through all the directories above it.
-/

namespace PosixPath

abbrev Path := List Char

abbrev Segment := List Char

/-! ## Cutting off the last segment -/

/-- The text before the last segment, backwards, with the slash behind it. Slashes at the end
do not count. -/
def cut (rest : Path) : List Char := (rest.reverse.dropWhile (· = '/')).dropWhile (· ≠ '/')

def dirname : Path → Path
  | [] => ['.']
  | first :: rest =>
    match cut rest with
    | [] => if first = '/' then ['/'] else ['.']
    | _ :: before => if first = '/' ∧ before = [] then ['/', '/'] else first :: before.reverse

/-- What every step makes smaller: the length, and `.` comes after all other characters. -/
def weight (path : Path) : ℕ :=
  if path = [] then 3 else 2 * path.length + if path = ['.'] then 0 else 1

/-- Something is cut off, if only one character. -/
theorem length_cut {rest : Path} {slash : Char} {before : List Char}
    (h : cut rest = slash :: before) : before.length + 2 ≤ rest.length := by
  have shorter := (List.dropWhile_sublist (fun c => decide (c = '/')) (l := rest.reverse)).length_le
  rw [List.length_reverse] at shorter
  unfold cut at h
  cases segment : rest.reverse.dropWhile (fun c => decide (c = '/')) with
  | nil =>
      rw [segment] at h
      cases h
  | cons c behind =>
      have noSlash : c ≠ '/' := by
        have nonempty : rest.reverse.dropWhile (fun c => decide (c = '/')) ≠ [] := by
          rw [segment]
          exact List.cons_ne_nil _ _
        have first := List.head_dropWhile_not _ nonempty
        simpa only [segment, List.head_cons, decide_eq_false_iff_not] using first
      have last := (List.dropWhile_sublist (fun c => decide (c ≠ '/')) (l := behind)).length_le
      rw [segment, List.dropWhile_cons_of_pos (by simpa using noSlash)] at h
      rw [h, List.length_cons] at last
      rw [segment, List.length_cons] at shorter
      omega

theorem weight_dirname {path : Path} (changes : dirname path ≠ path) :
    weight (dirname path) < weight path := by
  cases path with
  | nil => decide
  | cons first rest =>
      simp only [dirname] at changes ⊢
      split
      · rename_i none
        split
        · rename_i root
          have longer : rest ≠ [] := by
            rintro rfl
            simp [none, root] at changes
          have := List.length_pos_iff.mpr longer
          simp only [weight, List.length_cons]
          grind
        · rename_i noRoot
          have other : first :: rest ≠ ['.'] := by
            intro same
            simp [none, noRoot, same] at changes
          simp only [weight, other, List.length_cons]
          grind
      · rename_i slash before cut
        have shorter := length_cut cut
        split
        · simp only [weight, List.length_cons]
          grind
        · simp only [weight, List.length_cons, List.length_reverse]
          grind

/-- A directory and the directories above it, as `dirname` gives them. -/
def upwards (path : Path) : List Path :=
  path :: if dirname path = path then [] else upwards (dirname path)
termination_by weight path
decreasing_by exact weight_dirname ‹_›

theorem upwards_eq (path : Path) :
    upwards path = path :: if dirname path = path then [] else upwards (dirname path) := by
  rw [upwards]

/-! ## Resolving -/

/-- A segment of a path that leads one directory down. -/
def IsSegment (segment : Segment) : Prop :=
  segment ≠ [] ∧ segment ≠ ['.'] ∧ segment ≠ ['.', '.'] ∧ '/' ∉ segment

def step (directory : List Segment) (segment : Segment) : List Segment :=
  if segment = [] ∨ segment = ['.'] then directory
  else if segment = ['.', '.'] then directory.dropLast
  else directory ++ [segment]

/-- `path.resolve`, as the segments of the directory, from the working directory. -/
def resolve (workingDirectory : List Segment) (path : Path) : List Segment :=
  (path.splitOn '/').foldl step (if path.head? = some '/' then [] else workingDirectory)

/-! ## Absolute paths -/

/-- The absolute path with these segments. -/
def absolute (segments : List Segment) : Path :=
  if segments = [] then ['/'] else segments.flatMap ('/' :: ·)

section Absolute

variable {segments : List Segment} {last : Segment}

/-- The text before a segment. -/
theorem cut_append (before : List Char) (nonempty : last ≠ []) (noSlash : '/' ∉ last) :
    cut (before ++ '/' :: last) = '/' :: before.reverse := by
  have backwards : (before ++ '/' :: last).reverse = last.reverse ++ '/' :: before.reverse := by
    simp
  have stays : (last.reverse ++ '/' :: before.reverse).dropWhile (fun c => decide (c = '/')) =
      last.reverse ++ '/' :: before.reverse := by
    cases letters : last.reverse with
    | nil => exact absurd (List.reverse_eq_nil_iff.mp letters) nonempty
    | cons c rest =>
        have other : c ≠ '/' := by
          rintro rfl
          exact noSlash (List.mem_reverse.mp (letters ▸ List.mem_cons_self))
        exact List.dropWhile_cons_of_neg (by simpa using other)
  have letters : ∀ c ∈ last.reverse, decide (c ≠ '/') := by
    intro c member
    simp only [decide_eq_true_eq]
    rintro rfl
    exact noSlash (List.mem_reverse.mp member)
  rw [cut, backwards, stays, List.dropWhile_append_of_pos letters]
  exact List.dropWhile_cons_of_neg (by simp)

theorem cut_eq_nil (noSlash : '/' ∉ last) : cut last = [] := by
  have letters : ∀ c ∈ last.reverse.dropWhile (fun c => decide (c = '/')), decide (c ≠ '/') := by
    intro c member
    simp only [decide_eq_true_eq]
    rintro rfl
    exact noSlash (List.mem_reverse.mp ((List.dropWhile_sublist _).subset member))
  exact List.dropWhile_eq_nil_iff.mpr letters

/-- The last segment of an absolute path is cut off. -/
theorem dirname_absolute (isSegment : ∀ segment ∈ segments ++ [last], IsSegment segment) :
    dirname (absolute (segments ++ [last])) = absolute segments := by
  obtain ⟨nonempty, -, -, noSlash⟩ := isSegment last (by simp)
  cases segments with
  | nil =>
      have text : absolute ([] ++ [last]) = '/' :: last := by simp [absolute]
      rw [text, dirname, cut_eq_nil noSlash]
      rfl
  | cons segment segments =>
      have text : absolute (segment :: segments ++ [last]) =
          '/' :: ((segment ++ segments.flatMap ('/' :: ·)) ++ '/' :: last) := by
        simp [absolute]
      have before : (segment ++ segments.flatMap ('/' :: ·)).reverse ≠ [] := by
        intro empty
        exact (isSegment segment (by simp)).1 (List.append_eq_nil_iff.mp
          (List.reverse_eq_nil_iff.mp empty)).1
      rw [text, dirname, cut_append _ nonempty noSlash]
      simp only [before, and_false, if_false, List.reverse_reverse]
      rfl

theorem splitOn_segments {segment : Segment} (first : '/' ∉ segment)
    (rest : ∀ segment ∈ segments, '/' ∉ segment) :
    (segment ++ segments.flatMap ('/' :: ·)).splitOn '/' = segment :: segments := by
  induction segments generalizing segment with
  | nil =>
      rw [List.flatMap_nil, List.append_nil]
      exact List.splitOn_eq_singleton first
  | cons next segments ih =>
      rw [List.forall_mem_cons] at rest
      rw [List.flatMap_cons, List.cons_append,
        List.splitOn_append_cons_self_of_not_mem first, ih rest.1 rest.2]

theorem foldl_step (isSegment : ∀ segment ∈ segments, IsSegment segment)
    (directory : List Segment) : segments.foldl step directory = directory ++ segments := by
  induction segments generalizing directory with
  | nil => exact (List.append_nil _).symm
  | cons segment segments ih =>
      rw [List.forall_mem_cons] at isSegment
      obtain ⟨nonempty, noDot, noDots, -⟩ := isSegment.1
      have down : step directory segment = directory ++ [segment] := by
        simp [step, nonempty, noDot, noDots]
      rw [List.foldl_cons, down, ih isSegment.2, List.append_assoc, List.singleton_append]

theorem resolve_absolute (isSegment : ∀ segment ∈ segments, IsSegment segment)
    (workingDirectory : List Segment) :
    resolve workingDirectory (absolute segments) = segments := by
  have split := @splitOn_segments segments [] List.not_mem_nil
    fun segment member => (isSegment segment member).2.2.2
  cases segments with
  | nil => rfl
  | cons segment segments =>
      have root : (absolute (segment :: segments)).head? = some '/' := rfl
      have text : absolute (segment :: segments) =
          [] ++ (segment :: segments).flatMap ('/' :: ·) := rfl
      rw [resolve, root, if_pos rfl, text, split, List.foldl_cons]
      exact foldl_step isSegment []

/-- Above a normal absolute path are the paths of the beginnings of its segments. -/
theorem upwards_absolute (isSegment : ∀ segment ∈ segments, IsSegment segment) :
    upwards (absolute segments) = segments.inits.reverse.map absolute := by
  induction segments using List.reverseRecOn with
  | nil =>
      rw [upwards_eq, if_pos (by decide)]
      rfl
  | append_singleton segments last ih =>
      have above : ∀ segment ∈ segments, IsSegment segment := fun segment member =>
        isSegment segment (List.mem_append_left _ member)
      have changes : absolute segments ≠ absolute (segments ++ [last]) := by
        intro same
        have := congrArg (resolve []) same
        rw [resolve_absolute above, resolve_absolute isSegment] at this
        simp at this
      rw [upwards_eq, dirname_absolute isSegment, if_neg changes, ih above, List.inits_append]
      simp

end Absolute

/-! ## Taking a path apart -/

/-- What `path.parse` finds, without the root and the base. -/
structure ParsedPath where
  dir : Path
  name : Segment
  ext : Segment

/-- The extension begins at the last dot, unless the name does too. -/
def splitExtension (base : Segment) : Segment × Segment :=
  match base.reverse.dropWhile (· ≠ '.') with
  | [] => (base, [])
  | _ :: before =>
    if before = [] then (base, []) else (before.reverse, base.drop before.length)

def parse (path : Path) : ParsedPath :=
  let root := if path.head? = some '/' then ['/'] else []
  let trimmed := (path.drop root.length).reverse.dropWhile (· = '/')
  let base := (trimmed.takeWhile (· ≠ '/')).reverse
  let above := trimmed.dropWhile (· ≠ '/')
  -- `..` has no extension, except directly below the root
  let (name, ext) :=
    if base = ['.', '.'] ∧ (root = [] ∨ above ≠ []) then (base, []) else splitExtension base
  { dir := root ++ above.tail.reverse
    name := name
    ext := ext }

/-- `path.format`, for an object without a root and a base. -/
def format (path : ParsedPath) : Path :=
  if path.dir = [] then path.name ++ path.ext else path.dir ++ '/' :: (path.name ++ path.ext)

theorem format_inj {dir : Path} {name name' ext : Segment} :
    format ⟨dir, name, ext⟩ = format ⟨dir, name', ext⟩ ↔ name = name' := by
  by_cases here : dir = []
  · simp [format, here]
  · simp [format, here]

end PosixPath
