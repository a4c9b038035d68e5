import SonarJS.Foundation.Action
import SonarJS.Foundation.FileSystem
import SonarJS.Foundation.OrderedCollections
import SonarJS.Cache.VarLength

/-!
# The cache entry of generated files

`SequenceSerialization` and `FileIterator`. The generated files of an input file are
stored as one stream, their concatenation, together with a manifest that lists their
names and sizes. A size is known when the stream of the file has been closed, which
happens when the reader of the concatenation gets to its end.

A later run splits the stream again, along the sizes of the manifest. How many bytes
a single `read` delivers is left open on both sides.
-/

namespace SonarJS

namespace Cache

/-! ## Paths -/

/-- The name of a file or directory. -/
def IsName (s : String) : Prop :=
  s ≠ "" ∧ s ≠ "." ∧ s ≠ ".." ∧ '/' ∉ s.toList ∧ '\x00' ∉ s.toList

instance : DecidablePred IsName := fun _ => inferInstanceAs (Decidable (_ ∧ _ ∧ _ ∧ _ ∧ _))

abbrev Name := {s : String // IsName s}

/-- An absolute path. -/
abbrev Path := List Name

/-- `base.relativize(file)`, as the names of its elements. -/
def relativize : (base file : Path) → List String
  | [], file => file.map Subtype.val
  | base, [] => base.map fun _ => ".."
  | b :: base, f :: file =>
    if b = f then relativize base file
    else (b :: base).map (fun _ => "..") ++ (f :: file).map Subtype.val

/-- `base.resolve(Path.of(name))`. -/
def resolve (base : Path) (name : String) : Except Throwable Path :=
  if h : IsName name then .ok (base ++ [⟨name, h⟩])
  else if name = "" ∨ name = "." then .ok base
  else if name = ".." then .ok base.dropLast
  else .error .invalidPathException

/-- `entryName.split("/")`: empty strings at the end are dropped, unless there is
nothing to split. -/
def split (entryName : String) : List String :=
  if '/' ∈ entryName.toList then
    (((entryName.toList.splitOn '/').map String.ofList).reverse.dropWhile (· = "")).reverse
  else [entryName]

def convertToEntryName (baseAbsolutePath fileAbsolutePath : Path) : String :=
  "/".intercalate (relativize baseAbsolutePath fileAbsolutePath)

def convertFromEntryName (baseAbsolutePath : Path) (entryName : String) : Except Throwable Path :=
  (split entryName).foldlM resolve baseAbsolutePath

def pathString (path : Path) : String := "/" ++ "/".intercalate (path.map Subtype.val)

/-! ## Streams -/

/-- The bytes that are left, and how many of them each `read` is willing to deliver. -/
structure InputStream where
  remaining : Bytes
  chunks : ℕ → ℕ
  reads : ℕ := 0

/-- `read(buffer, 0, length)` for a positive length: at least one byte, or the end. -/
def InputStream.read (input : InputStream) (length : ℕ) : Option (Bytes × InputStream) :=
  if input.remaining = [] then none
  else
    let count := max 1 (min (input.chunks input.reads) (min length input.remaining.length))
    some (input.remaining.take count,
      { input with remaining := input.remaining.drop count, reads := input.reads + 1 })

/-- A `CountingInputStream` over a file of `FileIterator`. -/
structure CountingInputStream where
  file : Path
  input : InputStream
  bytesRead : ℕ

def CountingInputStream.read (counting : CountingInputStream) (length : ℕ) :
    Option (Bytes × CountingInputStream) :=
  (counting.input.read length).map fun (bytes, input) =>
    (bytes, { counting with input, bytesRead := counting.bytesRead + bytes.length })

/-- `SequenceInputStream` over a `FileIterator`: the files that are not opened yet, the
open one, and the sizes of those that have been closed. -/
structure SequenceInputStream where
  pending : List Path
  current : Option CountingInputStream
  fileSizes : OrderedMap Path ℕ

section Sequence

variable (fs : FileSystem Name) (chunking : Path → ℕ → ℕ)

/-- `FileIterator.openNextFile`. -/
def openNextFile (file : Path) : Except Throwable CountingInputStream :=
  match fs.entry file with
  | some (.file bytes) => .ok ⟨file, { remaining := bytes, chunks := chunking file }, 0⟩
  | _ => .error .uncheckedIOException

/-- The constructor opens the first file. -/
def newSequenceInputStream : List Path → Except Throwable SequenceInputStream
  | [] => .ok ⟨[], none, .empty⟩
  | file :: files => do
    let current ← openNextFile fs chunking file
    return ⟨files, some current, .empty⟩

/-- The loop of `SequenceInputStream.read`. At the end of a file its stream is closed,
whereby its size is put, and the next file is opened. -/
def readFrom (length : ℕ) : List Path → CountingInputStream → OrderedMap Path ℕ →
    Except Throwable (Option Bytes × SequenceInputStream)
  | pending, current, fileSizes =>
    match current.read length with
    | some (bytes, current) => .ok (some bytes, ⟨pending, some current, fileSizes⟩)
    | none =>
      let fileSizes := fileSizes.set current.file current.bytesRead
      match pending with
      | [] => .ok (none, ⟨[], none, fileSizes⟩)
      | file :: pending => do
        let next ← openNextFile fs chunking file
        readFrom length pending next fileSizes

def SequenceInputStream.read (sequence : SequenceInputStream) (length : ℕ) :
    Except Throwable (Option Bytes × SequenceInputStream) :=
  match sequence.current with
  | none => .ok (none, sequence)
  | some current => readFrom fs chunking length sequence.pending current sequence.fileSizes

/-- The stream is read to its end, in calls of any lengths, and delivers these bytes. -/
inductive ReadsToEnd : SequenceInputStream → Bytes → SequenceInputStream → Prop
  | done {sequence final : SequenceInputStream} {length : ℕ} :
      sequence.read fs chunking length = .ok (none, final) → ReadsToEnd sequence [] final
  | more {sequence next final : SequenceInputStream} {length : ℕ} {bytes rest : Bytes} :
      sequence.read fs chunking length = .ok (some bytes, next) →
        ReadsToEnd next rest final → ReadsToEnd sequence (bytes ++ rest) final

end Sequence

/-! ## Serialization -/

/-- `FilesManifest.FileSize`. -/
structure FileSize where
  name : String
  size : ℕ
deriving DecidableEq

abbrev FilesManifest := List FileSize

def createManifest (directory : Path) (fileSizes : OrderedMap Path ℕ) : FilesManifest :=
  fileSizes.keys.map fun file =>
    ⟨convertToEntryName directory file, (fileSizes.get file).getD 0⟩

/-- `SequenceSerialization.writeToCache`, where the cache reads the stream to its end:
the bytes that are stored and the manifest that is returned. -/
def WritesToCache (fs : FileSystem Name) (chunking : Path → ℕ → ℕ) (directory : Path)
    (generatedFiles : Option (List Path)) (stored : Bytes) (manifest : FilesManifest) : Prop :=
  ∃ start final, newSequenceInputStream fs chunking (generatedFiles.getD []) = .ok start ∧
    ReadsToEnd fs chunking start stored final ∧
    manifest = createManifest directory final.fileSizes

/-! ## Deserialization -/

/-- Changing the file system; what was done before a failure stays. -/
abbrev FileSystemM (α : Type) := EStateM Throwable (FileSystem Name) α

def createDirectories (path : Path) : FileSystemM Unit := fun fs =>
  match fs.createDirectories path with
  | some fs' => .ok () fs'
  | none => .error (.ioException (pathString path)) fs

/-- The file has these contents from now on. -/
def writeBytes (file : Path) (bytes : Bytes) : FileSystemM Unit := fun fs =>
  match fs.write file bytes with
  | some fs' => .ok () fs'
  | none => .error (.ioException (pathString file)) fs

/-- `file.getParent()`, which is null for the root. -/
def getParent (file : Path) : Except Throwable Path :=
  if file = [] then .error .nullPointerException else .ok file.dropLast

def defaultBufferSize : ℕ := 8192

theorem InputStream.length_read_pos {input next : InputStream} {length : ℕ} {bytes : Bytes}
    (h : input.read length = some (bytes, next)) : 0 < bytes.length := by
  simp only [read] at h
  split at h
  · cases h
  · rename_i nonempty
    cases h
    have := List.length_pos_iff.mpr nonempty
    rw [List.length_take]
    omega

/-- The `while` loop of `writeFile`: all that is read until the limit or the end. -/
def copy (limit totalRead : ℕ) (input : InputStream) : Bytes × InputStream :=
  if totalRead < limit then
    match _h : input.read (min defaultBufferSize (limit - totalRead)) with
    | none => ([], input)
    | some (bytes, next) =>
      let (rest, final) := copy limit (totalRead + bytes.length) next
      (bytes ++ rest, final)
  else ([], input)
termination_by limit - totalRead
decreasing_by
  have := InputStream.length_read_pos _h
  omega

/-- `writeFile`; the stream is returned as it is left. -/
def writeFile (input : InputStream) (file : Path) (limit : ℕ) (shouldFinish : Bool) :
    FileSystemM InputStream := do
  let parent ← Action.ofExcept (getParent file)
  createDirectories parent
  writeBytes file []
  let (bytes, input) := copy limit 0 input
  writeBytes file bytes
  if bytes.length < limit then
    throw (.ioException ("The cache stream is too small (<" ++ toString limit ++ ") for file " ++
      pathString file))
  else if shouldFinish && (input.read 1).isSome then
    throw (.ioException ("The cache stream is too big (>" ++ toString limit ++ ") for file " ++
      pathString file))
  else return input

/-- The loop of `SequenceSerialization.readFromCache`. -/
def readFiles (directory : Path) : FilesManifest → InputStream → FileSystemM Unit
  | [], _ => return ()
  | fileSize :: fileSizes, input => do
    let file ← Action.ofExcept (convertFromEntryName directory fileSize.name)
    let input ← writeFile input file fileSize.size fileSizes.isEmpty
    readFiles directory fileSizes input

/-- `SequenceSerialization.readFromCache`. -/
def readFromCache (directory : Path) (manifest : Option FilesManifest) (input : InputStream) :
    FileSystemM Unit :=
  match manifest with
  | none => throw .nullPointerException
  | some manifest => readFiles directory manifest input

/-! ## Reading a stream -/

theorem InputStream.read_eq_none_iff {input : InputStream} {length : ℕ} :
    input.read length = none ↔ input.remaining = [] := by
  simp only [read]
  split
  · rename_i empty
    simp [empty]
  · rename_i nonempty
    simp [nonempty]

theorem InputStream.isSome_read_iff {input : InputStream} {length : ℕ} :
    (input.read length).isSome ↔ input.remaining ≠ [] := by
  rw [← Option.ne_none_iff_isSome, ne_eq, read_eq_none_iff]

theorem InputStream.read_eq_some {input next : InputStream} {length : ℕ} {bytes : Bytes}
    (h : input.read length = some (bytes, next)) : input.remaining = bytes ++ next.remaining := by
  simp only [read] at h
  split at h
  · cases h
  · cases h
    exact (List.take_append_drop _ _).symm

theorem InputStream.length_read_le {input next : InputStream} {length : ℕ} {bytes : Bytes}
    (positive : 0 < length) (h : input.read length = some (bytes, next)) :
    bytes.length ≤ length := by
  simp only [read] at h
  split at h
  · cases h
  · cases h
    rw [List.length_take]
    omega

/-- Whatever the chunks are, the loop delivers the bytes up to the limit, or all there are. -/
theorem copy_eq_take (limit totalRead : ℕ) (input : InputStream) :
    ∃ final, copy limit totalRead input =
      (input.remaining.take (limit - totalRead), final) ∧
        final.remaining = input.remaining.drop (limit - totalRead) := by
  induction hn : limit - totalRead using Nat.strong_induction_on
    generalizing totalRead input with
  | _ n ih =>
      rw [copy]
      split
      · rename_i less
        split
        · rename_i ended
          rw [InputStream.read_eq_none_iff.1 ended, List.take_nil, List.drop_nil]
          exact ⟨input, rfl, InputStream.read_eq_none_iff.1 ended⟩
        · rename_i chunk next read
          have positive := InputStream.length_read_pos read
          have le := InputStream.length_read_le (by simp [defaultBufferSize]; omega) read
          have short : chunk.length ≤ n := by omega
          have rest : limit - (totalRead + chunk.length) = n - chunk.length := by omega
          obtain ⟨final, copied, left⟩ :=
            ih (n - chunk.length) (by omega) (totalRead + chunk.length) next rest
          refine ⟨final, ?_, ?_⟩
          · rw [copied, InputStream.read_eq_some read, List.take_append,
              List.take_of_length_le short]
          · rw [left, InputStream.read_eq_some read, List.drop_append,
              List.drop_eq_nil_of_le short, List.nil_append]
      · obtain rfl : n = 0 := by omega
        exact ⟨input, rfl, rfl⟩

theorem copy_eq {limit totalRead : ℕ} {input : InputStream} {bytes rest : Bytes}
    (remaining : input.remaining = bytes ++ rest) (length : totalRead + bytes.length = limit) :
    ∃ final, copy limit totalRead input = (bytes, final) ∧ final.remaining = rest := by
  have count : limit - totalRead = bytes.length := by omega
  obtain ⟨final, copied, left⟩ := copy_eq_take limit totalRead input
  rw [count, remaining, List.take_left] at copied
  rw [count, remaining, List.drop_left] at left
  exact ⟨final, copied, left⟩

/-! ## Entry names -/

theorem relativize_append (base relative : Path) :
    relativize base (base ++ relative) = relative.map Subtype.val := by
  induction base with
  | nil => cases relative <;> rfl
  | cons b base ih => rw [List.cons_append, relativize, if_pos rfl, ih]

/-- The names of a relative path survive joining and splitting. -/
theorem split_intercalate {relative : Path} (nonempty : relative ≠ []) :
    split ("/".intercalate (relative.map Subtype.val)) = relative.map Subtype.val := by
  have noSlash : ∀ chars ∈ relative.map fun name : Name => name.val.toList, '/' ∉ chars := by
    intro chars member
    obtain ⟨name, -, rfl⟩ := List.mem_map.mp member
    exact name.property.2.2.2.1
  have chars : ("/".intercalate (relative.map Subtype.val)).toList =
      ['/'].intercalate (relative.map fun name : Name => name.val.toList) := by
    rw [String.toList_intercalate, List.map_map]
    rfl
  have parts : (("/".intercalate (relative.map Subtype.val)).toList.splitOn '/').map String.ofList =
      relative.map Subtype.val := by
    rw [chars, List.splitOn_intercalate _ noSlash (List.map_eq_nil_iff.not.mpr nonempty),
      List.map_map]
    exact List.map_congr_left fun name _ => String.ofList_toList
  rw [split]
  split
  · -- the last name is not empty, so nothing is dropped
    rw [parts]
    obtain ⟨init, last, rfl⟩ := (List.eq_nil_or_concat' relative).resolve_left nonempty
    have named : last.val ≠ "" := last.property.1
    rw [List.map_append, List.map_singleton, List.reverse_concat,
      List.dropWhile_cons_of_neg (by simpa using named), ← List.reverse_concat,
      List.reverse_reverse]
  · rename_i single
    rw [List.splitOn_eq_singleton single, List.map_singleton, String.ofList_toList] at parts
    exact parts

theorem foldlM_resolve (base relative : Path) :
    (relative.map Subtype.val).foldlM resolve base = .ok (base ++ relative) := by
  induction relative generalizing base with
  | nil =>
      rw [List.append_nil]
      rfl
  | cons name relative ih =>
      have first : resolve base name.val = .ok (base ++ [name]) := by
        rw [resolve, dif_pos name.property]
      rw [List.map_cons, List.foldlM_cons, first]
      refine (ih (base ++ [name])).trans ?_
      rw [List.append_assoc, List.singleton_append]

/-- An entry name leads back to the same relative path, below any directory. -/
theorem convertFromEntryName_convertToEntryName (directory directory' : Path) {relative : Path}
    (nonempty : relative ≠ []) :
    convertFromEntryName directory' (convertToEntryName directory (directory ++ relative)) =
      .ok (directory' ++ relative) := by
  rw [convertFromEntryName, convertToEntryName, relativize_append, split_intercalate nonempty,
    foldlM_resolve]

/-! ## The concatenated stream -/

section Concatenation

variable {fs : FileSystem Name} {chunking : Path → ℕ → ℕ}

/-- The bytes of a file. -/
def content (fs : FileSystem Name) (file : Path) : Bytes :=
  match fs.entry file with
  | some (.file bytes) => bytes
  | _ => []

theorem openNextFile_eq_ok {file : Path} {counting : CountingInputStream}
    (h : openNextFile fs chunking file = .ok counting) :
    fs.entry file = some (.file (content fs file)) ∧ counting.file = file ∧
      counting.input.remaining = content fs file ∧ counting.bytesRead = 0 := by
  unfold openNextFile at h
  split at h
  · rename_i bytes entry
    cases h
    simp [content, entry]
  · cases h

namespace SequenceInputStream

/-- The bytes that are still to be delivered. -/
def remaining (fs : FileSystem Name) (sequence : SequenceInputStream) : Bytes :=
  match sequence.current with
  | none => []
  | some current => current.input.remaining ++ sequence.pending.flatMap (content fs)

/-- The sizes that will be known once everything has been delivered. -/
def finalSizes (fs : FileSystem Name) (sequence : SequenceInputStream) : OrderedMap Path ℕ :=
  match sequence.current with
  | none => sequence.fileSizes
  | some current =>
    sequence.pending.foldl (fun sizes file => sizes.set file (content fs file).length)
      (sequence.fileSizes.set current.file (current.bytesRead + current.input.remaining.length))

end SequenceInputStream

theorem CountingInputStream.read_eq_some {counting next : CountingInputStream} {length : ℕ}
    {bytes : Bytes} (h : counting.read length = some (bytes, next)) :
    next.file = counting.file ∧ counting.input.remaining = bytes ++ next.input.remaining ∧
      next.bytesRead = counting.bytesRead + bytes.length := by
  obtain ⟨⟨chunk, input⟩, read, same⟩ := Option.map_eq_some_iff.mp h
  cases same
  exact ⟨rfl, InputStream.read_eq_some read, rfl⟩

/-- One call of `read`: the sizes that will be known do not change, and what is
delivered is taken from what was still to be delivered. -/
theorem readFrom_eq_ok {length : ℕ} {pending : List Path} {current : CountingInputStream}
    {fileSizes : OrderedMap Path ℕ} {delivered : Option Bytes} {next : SequenceInputStream}
    (h : readFrom fs chunking length pending current fileSizes = .ok (delivered, next)) :
    SequenceInputStream.remaining fs ⟨pending, some current, fileSizes⟩ =
        delivered.getD [] ++ next.remaining fs ∧
      SequenceInputStream.finalSizes fs ⟨pending, some current, fileSizes⟩ = next.finalSizes fs ∧
      (delivered = none → next.current = none) := by
  -- a chunk of the open file: its size is what was read of it and what is left
  have chunk (pending : List Path) (current read : CountingInputStream)
      (fileSizes : OrderedMap Path ℕ) (bytes : Bytes)
      (h : current.read length = some (bytes, read)) :
      SequenceInputStream.remaining fs ⟨pending, some current, fileSizes⟩ =
          bytes ++ SequenceInputStream.remaining fs ⟨pending, some read, fileSizes⟩ ∧
        SequenceInputStream.finalSizes fs ⟨pending, some current, fileSizes⟩ =
          SequenceInputStream.finalSizes fs ⟨pending, some read, fileSizes⟩ := by
    obtain ⟨file, bytes_, count⟩ := CountingInputStream.read_eq_some h
    simp only [SequenceInputStream.remaining, SequenceInputStream.finalSizes, bytes_, file, count,
      List.append_assoc, List.length_append, Nat.add_assoc, and_self]
  induction pending generalizing current fileSizes with
  | nil =>
      rw [readFrom] at h
      split at h
      · rename_i bytes read reads
        cases h
        exact ⟨(chunk _ _ _ _ _ reads).1, (chunk _ _ _ _ _ reads).2, nofun⟩
      · rename_i ended
        cases h
        have empty := InputStream.read_eq_none_iff.1 (Option.map_eq_none_iff.mp ended)
        simp [SequenceInputStream.remaining, SequenceInputStream.finalSizes, empty]
  | cons file pending ih =>
      rw [readFrom] at h
      split at h
      · rename_i bytes read reads
        cases h
        exact ⟨(chunk _ _ _ _ _ reads).1, (chunk _ _ _ _ _ reads).2, nofun⟩
      · rename_i ended
        have empty := InputStream.read_eq_none_iff.1 (Option.map_eq_none_iff.mp ended)
        cases opened : openNextFile fs chunking file with
        | error e =>
            simp only [opened] at h
            cases h
        | ok counting =>
            simp only [opened] at h
            obtain ⟨-, name, bytes, zero⟩ := openNextFile_eq_ok opened
            obtain ⟨delivers, sizes, atEnd⟩ := ih h
            refine ⟨?_, ?_, atEnd⟩
            · rw [← delivers]
              simp [SequenceInputStream.remaining, empty, bytes]
            · rw [← sizes]
              simp [SequenceInputStream.finalSizes, empty, name, bytes, zero]

/-- Reading to the end delivers everything, and then all sizes are known. -/
theorem ReadsToEnd.eq {sequence final : SequenceInputStream} {stored : Bytes}
    (h : ReadsToEnd fs chunking sequence stored final) :
    stored = sequence.remaining fs ∧ final.fileSizes = sequence.finalSizes fs := by
  have call {length : ℕ} {sequence next : SequenceInputStream} {delivered : Option Bytes}
      (h : sequence.read fs chunking length = .ok (delivered, next)) :
      sequence.remaining fs = delivered.getD [] ++ next.remaining fs ∧
        sequence.finalSizes fs = next.finalSizes fs ∧ (delivered = none → next.current = none) := by
    obtain ⟨pending, current, fileSizes⟩ := sequence
    cases current with
    | none =>
        cases h
        exact ⟨rfl, rfl, fun _ => rfl⟩
    | some current => exact readFrom_eq_ok h
  induction h with
  | done h =>
      obtain ⟨delivers, sizes, ended⟩ := call h
      simp only [SequenceInputStream.remaining, SequenceInputStream.finalSizes, ended rfl]
        at delivers sizes
      exact ⟨delivers.symm, sizes.symm⟩
  | more h _ ih =>
      obtain ⟨delivers, sizes, -⟩ := call h
      exact ⟨by rw [delivers, ih.1]; rfl, by rw [sizes, ih.2]⟩

/-- The stream starts with everything to be delivered. -/
theorem newSequenceInputStream_eq_ok {files : List Path} {start : SequenceInputStream}
    (h : newSequenceInputStream fs chunking files = .ok start) :
    start.remaining fs = files.flatMap (content fs) ∧ start.finalSizes fs =
      files.foldl (fun sizes file => sizes.set file (content fs file).length) .empty := by
  cases files with
  | nil =>
      cases h
      exact ⟨rfl, rfl⟩
  | cons file files =>
      rw [newSequenceInputStream] at h
      cases opened : openNextFile fs chunking file with
      | error e =>
          rw [opened] at h
          cases h
      | ok counting =>
          rw [opened] at h
          cases h
          obtain ⟨-, name, bytes, zero⟩ := openNextFile_eq_ok opened
          simp [SequenceInputStream.remaining, SequenceInputStream.finalSizes, name, bytes, zero]

/-- What is stored, and the manifest, for distinct files. -/
theorem WritesToCache.eq {directory : Path} {files : Option (List Path)} {stored : Bytes}
    {manifest : FilesManifest} (nodup : (files.getD []).Nodup)
    (h : WritesToCache fs chunking directory files stored manifest) :
    stored = (files.getD []).flatMap (content fs) ∧ manifest = (files.getD []).map fun file =>
      ⟨convertToEntryName directory file, (content fs file).length⟩ := by
  obtain ⟨start, final, opened, reads, rfl⟩ := h
  obtain ⟨remaining, sizes⟩ := newSequenceInputStream_eq_ok opened
  obtain ⟨rfl, final_⟩ := reads.eq
  have entries : final.fileSizes.entries =
      (files.getD []).map fun file => (file, (content fs file).length) := by
    rw [final_, sizes, OrderedMap.entries_foldl_set _ nodup fun _ _ => List.not_mem_nil]
    rfl
  refine ⟨remaining, ?_⟩
  have keys : final.fileSizes.keys = files.getD [] := by
    rw [OrderedMap.keys, entries, List.map_map]
    exact List.map_id _
  rw [createManifest, keys]
  apply List.map_congr_left
  intro file member
  have size : final.fileSizes.get file = some (content fs file).length := by
    rw [OrderedMap.get_eq_some_iff, entries]
    exact List.mem_map_of_mem member
  rw [size]
  rfl

variable (chunking) in
theorem openNextFile_eq {file : Path} {bytes : Bytes}
    (h : fs.entry file = some (.file bytes)) : ∃ counting,
      openNextFile fs chunking file = .ok counting := by
  rw [openNextFile, h]
  exact ⟨_, rfl⟩

variable (chunking) in
/-- As long as the files exist, a call of `read` succeeds. -/
theorem exists_readFrom (length : ℕ) {pending : List Path} (current : CountingInputStream)
    (fileSizes : OrderedMap Path ℕ)
    (isFile : ∀ file ∈ pending, ∃ bytes, fs.entry file = some (.file bytes)) :
    ∃ delivered next,
      readFrom fs chunking length pending current fileSizes = .ok (delivered, next) ∧
      next.pending ⊆ pending ∧ delivered ≠ some [] := by
  -- a chunk is never empty
  have chunk (pending : List Path) (current : CountingInputStream)
      (read : CountingInputStream) (bytes : Bytes) (h : current.read length = some (bytes, read)) :
      some bytes ≠ some [] := by
    obtain ⟨⟨bytes', input⟩, reads, same⟩ := Option.map_eq_some_iff.mp h
    cases same
    have positive := InputStream.length_read_pos reads
    intro empty
    cases empty
    exact absurd positive (lt_irrefl 0)
  induction pending generalizing current fileSizes with
  | nil =>
      rw [readFrom]
      split
      · rename_i bytes read reads
        exact ⟨_, _, rfl, List.Subset.refl _, chunk [] current read bytes reads⟩
      · exact ⟨_, _, rfl, List.Subset.refl _, nofun⟩
  | cons file pending ih =>
      rw [readFrom]
      split
      · rename_i bytes read reads
        exact ⟨_, _, rfl, List.Subset.refl _, chunk (file :: pending) current read bytes reads⟩
      · rw [List.forall_mem_cons] at isFile
        obtain ⟨bytes, entry⟩ := isFile.1
        obtain ⟨counting, opened⟩ := openNextFile_eq chunking entry
        obtain ⟨delivered, next, read, sub, nonempty⟩ := ih counting
          (fileSizes.set current.file current.bytesRead) isFile.2
        refine ⟨delivered, next, ?_, List.subset_cons_of_subset _ sub, nonempty⟩
        simp only [opened]
        exact read

variable (chunking) in
/-- As long as the files exist, the stream can be read to its end. -/
theorem exists_readsToEnd (sequence : SequenceInputStream)
    (isFile : ∀ file ∈ sequence.pending, ∃ bytes, fs.entry file = some (.file bytes)) :
    ∃ stored final, ReadsToEnd fs chunking sequence stored final := by
  induction hn : (sequence.remaining fs).length using Nat.strong_induction_on
    generalizing sequence with
  | _ n ih =>
      obtain ⟨pending, current, fileSizes⟩ := sequence
      cases current with
      | none =>
          have ended : SequenceInputStream.read fs chunking ⟨pending, none, fileSizes⟩ 1 =
              .ok (none, ⟨pending, none, fileSizes⟩) := rfl
          exact ⟨[], _, .done ended⟩
      | some current =>
          obtain ⟨delivered, next, read, sub, nonempty⟩ :=
            exists_readFrom chunking 1 current fileSizes isFile
          cases delivered with
          | none => exact ⟨[], next, .done read⟩
          | some bytes =>
              have delivers := (readFrom_eq_ok read).1
              have positive : bytes.length ≠ 0 := fun zero =>
                nonempty (by rw [List.length_eq_zero_iff.mp zero])
              have less : (next.remaining fs).length < n := by
                rw [← hn, delivers, List.length_append, Option.getD_some]
                omega
              obtain ⟨stored, final, reads⟩ :=
                ih _ less next (fun file member => isFile file (sub member)) rfl
              exact ⟨bytes ++ stored, final, .more read reads⟩

variable (chunking) in
/-- The serialization of existing files does not fail. -/
theorem exists_writesToCache (directory : Path) {files : Option (List Path)}
    (isFile : ∀ file ∈ files.getD [], ∃ bytes, fs.entry file = some (.file bytes)) :
    ∃ stored manifest, WritesToCache fs chunking directory files stored manifest := by
  have opens : ∃ start, newSequenceInputStream fs chunking (files.getD []) = .ok start ∧
      start.pending ⊆ files.getD [] := by
    cases list : files.getD [] with
    | nil => exact ⟨_, rfl, List.Subset.refl _⟩
    | cons file rest =>
        rw [list, List.forall_mem_cons] at isFile
        obtain ⟨bytes, entry⟩ := isFile.1
        obtain ⟨counting, opened⟩ := openNextFile_eq chunking entry
        refine ⟨⟨rest, some counting, .empty⟩, ?_, List.subset_cons_self _ _⟩
        rw [newSequenceInputStream, opened]
        rfl
  obtain ⟨start, opened, sub⟩ := opens
  obtain ⟨stored, final, reads⟩ :=
    exists_readsToEnd chunking start fun file member => isFile file (sub member)
  exact ⟨stored, _, start, final, opened, reads, rfl⟩

end Concatenation

/-! ## Restoring the files -/

section Restore

variable {fs fs' : FileSystem Name} {directory directory' : Path}

/-- No file lies above the path, and no directory is there. -/
def Unobstructed (fs : FileSystem Name) (path : Path) : Prop :=
  (∀ above, above <+: path.dropLast → ∀ bytes, fs.entry above ≠ some (.file bytes)) ∧
    fs.entry path ≠ some .directory

/-- In a tree, no file lies above another one. -/
theorem not_prefix_of_file {file other : Path} {bytes : Bytes}
    (isFile : fs.entry (directory ++ file) = some (.file bytes))
    (exists_ : fs.entry (directory ++ other) ≠ none) (ne : file ≠ other) : ¬ file <+: other := by
  rintro ⟨below, rfl⟩
  have nonempty : below ≠ [] := fun empty => ne (by rw [empty, List.append_nil])
  rw [← List.append_assoc] at exists_
  rw [fs.directory_of_below nonempty exists_] at isFile
  cases isFile

/-- Where nothing is in the way, `writeFile` comes to the check of the length. -/
theorem writeFile_of_unobstructed {file : Path} (nonempty : file ≠ []) (free : Unobstructed fs file)
    (input : InputStream) (limit : ℕ) (last : Bool) :
    ∃ fs', (∀ path, fs'.entry path =
        if path = file then some (.file (copy limit 0 input).1)
        else if path <+: file.dropLast then some .directory else fs.entry path) ∧
      writeFile input file limit last fs =
        (if (copy limit 0 input).1.length < limit then
          throw (.ioException ("The cache stream is too small (<" ++ toString limit ++
            ") for file " ++ pathString file))
        else if last && ((copy limit 0 input).2.read 1).isSome then
          throw (.ioException ("The cache stream is too big (>" ++ toString limit ++
            ") for file " ++ pathString file))
        else return (copy limit 0 input).2 : FileSystemM InputStream) fs' := by
  have notAbove : ¬ file <+: file.dropLast := fun sub => by
    have := sub.length_le
    have := List.length_pos_iff.mpr nonempty
    rw [List.length_dropLast] at *
    omega
  have parent_ne : file.dropLast ≠ file := fun same => notAbove (by rw [same])
  obtain ⟨fs₁, created, entries₁⟩ := FileSystem.createDirectories_eq_some free.1
  obtain ⟨fs₂, truncated, entries₂⟩ := FileSystem.write_eq_some [] nonempty
    (by rw [entries₁, if_pos List.prefix_rfl]) (by rw [entries₁, if_neg notAbove]; exact free.2)
  obtain ⟨fs₃, written, entries₃⟩ := FileSystem.write_eq_some (copy limit 0 input).1 nonempty
    (by rw [entries₂, if_neg parent_ne, entries₁, if_pos List.prefix_rfl])
    (by rw [entries₂, if_pos rfl]; simp)
  refine ⟨fs₃, fun path => ?_, ?_⟩
  · rw [entries₃, entries₂, entries₁]
    split <;> rfl
  · have parent : Action.ofExcept (getParent file) fs = .ok file.dropLast fs := by
      rw [getParent, if_neg nonempty]
      rfl
    have create : createDirectories file.dropLast fs = .ok () fs₁ := by
      rw [createDirectories, created]
    have truncate : writeBytes file [] fs₁ = .ok () fs₂ := by rw [writeBytes, truncated]
    have write : writeBytes file (copy limit 0 input).1 fs₂ = .ok () fs₃ := by
      rw [writeBytes, written]
    rw [writeFile, Action.bind_ok parent, Action.bind_ok create, Action.bind_ok truncate]
    exact Action.bind_ok write

/-- What `writeFile` does where nothing is in the way and the stream is long enough. -/
theorem writeFile_eq_ok {file : Path} (nonempty : file ≠ []) (free : Unobstructed fs file)
    {input : InputStream} {bytes rest : Bytes}
    (remaining : input.remaining = bytes ++ rest) {last : Bool} (atEnd : last = true → rest = []) :
    ∃ fs' final, writeFile input file bytes.length last fs = .ok final fs' ∧
      final.remaining = rest ∧ ∀ path, fs'.entry path = if path = file then some (.file bytes)
        else if path <+: file.dropLast then some .directory else fs.entry path := by
  obtain ⟨fs', entries, wrote⟩ := writeFile_of_unobstructed nonempty free input bytes.length last
  obtain ⟨final, copied, left⟩ := copy_eq remaining (Nat.zero_add _)
  rw [copied] at entries wrote
  have finished : (last && (final.read 1).isSome) = false := by
    cases last with
    | false => rfl
    | true => rw [InputStream.read_eq_none_iff.2 (left.trans (atEnd rfl))]; rfl
  refine ⟨fs', final, ?_, left, entries⟩
  rw [wrote, if_neg (lt_irrefl _), finished]
  rfl

/-- The manifest of relative paths below a directory. -/
def manifestOf (fs : FileSystem Name) (directory : Path) (files : List Path) : FilesManifest :=
  files.map fun file => ⟨convertToEntryName directory (directory ++ file),
    (content fs (directory ++ file)).length⟩

theorem manifestOf_cons (fs : FileSystem Name) (directory file : Path) (files : List Path) :
    manifestOf fs directory (file :: files) = ⟨convertToEntryName directory (directory ++ file),
      (content fs (directory ++ file)).length⟩ :: manifestOf fs directory files := rfl

/-- Writing a file does not get in the way of another one, since in the original tree
none of them lies above the other. -/
theorem Unobstructed.of_writeFile {file other : Path} (file_ : fs.entry (directory ++ file) =
      some (.file (content fs (directory ++ file))))
    (other_ : fs.entry (directory ++ other) = some (.file (content fs (directory ++ other))))
    (ne : file ≠ other) (nonempty : file ≠ []) (nonempty' : other ≠ [])
    (free : Unobstructed fs' (directory' ++ other)) {fs'' : FileSystem Name} {bytes : Bytes}
    (entries : ∀ path, fs''.entry path = if path = directory' ++ file then some (.file bytes)
      else if path <+: (directory' ++ file).dropLast then some .directory else fs'.entry path) :
    Unobstructed fs'' (directory' ++ other) := by
  have notAbove : ¬ file <+: other :=
    not_prefix_of_file file_ (by rw [other_]; exact Option.some_ne_none _) ne
  have notBelow : ¬ other <+: file :=
    not_prefix_of_file other_ (by rw [file_]; exact Option.some_ne_none _) ne.symm
  constructor
  · intro above sub bytes'
    rw [entries]
    split
    · rename_i same
      rw [same, List.dropLast_append_of_ne_nil nonempty', List.prefix_append_right_inj] at sub
      exact absurd (sub.trans (List.dropLast_prefix other)) notAbove
    · split
      · exact nofun
      · exact free.1 above sub bytes'
  · rw [entries, if_neg fun same => ne (List.append_cancel_left same).symm]
    split
    · rename_i sub
      rw [List.dropLast_append_of_ne_nil nonempty, List.prefix_append_right_inj] at sub
      exact absurd (sub.trans (List.dropLast_prefix file)) notBelow
    · exact free.2

/-- The loop over the manifest restores one file after the other, and touches nothing
but these files and the directories above them. -/
theorem readFiles_of_unobstructed {files : List Path} (nonempty : ∀ file ∈ files, file ≠ [])
    (nodup : files.Nodup) (isFile : ∀ file ∈ files,
      fs.entry (directory ++ file) = some (.file (content fs (directory ++ file))))
    (free : ∀ file ∈ files, Unobstructed fs' (directory' ++ file)) (input : InputStream)
    (remaining : input.remaining = files.flatMap fun file => content fs (directory ++ file)) :
    ∃ fs'', readFiles directory' (manifestOf fs directory files) input fs' = .ok () fs'' ∧
      (∀ file ∈ files, fs''.entry (directory' ++ file) = fs.entry (directory ++ file)) ∧
      ∀ path, (∀ file ∈ files, ¬ path <+: directory' ++ file) →
        fs''.entry path = fs'.entry path := by
  induction files generalizing fs' input with
  | nil => exact ⟨fs', rfl, fun _ member => absurd member List.not_mem_nil, fun _ _ => rfl⟩
  | cons file files ih =>
      rw [List.forall_mem_cons] at nonempty isFile free
      rw [List.nodup_cons] at nodup
      rw [List.flatMap_cons] at remaining
      have atEnd : (manifestOf fs directory files).isEmpty = true →
          (files.flatMap fun file => content fs (directory ++ file)) = [] := by
        intro empty
        rw [manifestOf, List.isEmpty_iff, List.map_eq_nil_iff] at empty
        rw [empty, List.flatMap_nil]
      obtain ⟨fs₁, next, wrote, left, entries⟩ := writeFile_eq_ok
        (List.append_ne_nil_of_right_ne_nil directory' nonempty.1) free.1 remaining atEnd
      have apart {other : Path} (member : other ∈ files) : file ≠ other :=
        (ne_of_mem_of_not_mem member nodup.1).symm
      have free' : ∀ other ∈ files, Unobstructed fs₁ (directory' ++ other) := fun other member =>
        .of_writeFile isFile.1 (isFile.2 other member) (apart member) nonempty.1
          (nonempty.2 other member) (free.2 other member) entries
      obtain ⟨fs₂, read, restored, untouched⟩ := ih nonempty.2 nodup.2 isFile.2 free' next left
      refine ⟨fs₂, ?_, ?_, fun path notAbove => ?_⟩
      · have name : Action.ofExcept (convertFromEntryName directory'
            (convertToEntryName directory (directory ++ file))) fs' =
              .ok (directory' ++ file) fs' := by
          rw [convertFromEntryName_convertToEntryName directory directory' nonempty.1]
          rfl
        rw [manifestOf_cons, readFiles, Action.bind_ok name, Action.bind_ok wrote, read]
      · rw [List.forall_mem_cons]
        refine ⟨?_, restored⟩
        have later : ∀ other ∈ files, ¬ directory' ++ file <+: directory' ++ other := by
          intro other member
          rw [List.prefix_append_right_inj]
          exact not_prefix_of_file isFile.1
            (by rw [isFile.2 other member]; exact Option.some_ne_none _) (apart member)
        rw [untouched _ later, entries, if_pos rfl, isFile.1]
      · rw [List.forall_mem_cons] at notAbove
        have other : path ≠ directory' ++ file := fun same => notAbove.1 (by rw [same])
        have notParent : ¬ path <+: (directory' ++ file).dropLast := fun sub =>
          notAbove.1 (sub.trans (List.dropLast_prefix _))
        rw [untouched path notAbove.2, entries, if_neg other, if_neg notParent]

/-- What was stored is restored, where nothing is in the way. -/
theorem readFromCache_of_writesToCache {chunking : Path → ℕ → ℕ} {files : List Path}
    (nonempty : ∀ file ∈ files, file ≠ []) (nodup : files.Nodup)
    (isFile : ∀ file ∈ files, ∃ bytes, fs.entry (directory ++ file) = some (.file bytes))
    {stored : Bytes} {manifest : FilesManifest}
    (writes : WritesToCache fs chunking directory (files.map (directory ++ ·)) stored manifest)
    (free : ∀ file ∈ files, Unobstructed fs' (directory' ++ file)) (chunks : ℕ → ℕ) :
    ∃ fs'', readFromCache directory' manifest { remaining := stored, chunks } fs' = .ok () fs'' ∧
      ∀ file ∈ files, fs''.entry (directory' ++ file) = fs.entry (directory ++ file) := by
  have distinct : ((some (files.map (directory ++ ·))).getD []).Nodup :=
    nodup.map fun _ _ same => List.append_cancel_left same
  obtain ⟨rfl, rfl⟩ := writes.eq distinct
  have manifest : (files.map (directory ++ ·)).map (fun file => (⟨convertToEntryName directory file,
      (content fs file).length⟩ : FileSize)) = manifestOf fs directory files := by
    rw [List.map_map]
    rfl
  have contents : ∀ file ∈ files,
      fs.entry (directory ++ file) = some (.file (content fs (directory ++ file))) := by
    intro file member
    obtain ⟨bytes, entry⟩ := isFile file member
    rw [content, entry]
  rw [Option.getD_some, manifest, readFromCache]
  obtain ⟨fs'', read, restored, -⟩ := readFiles_of_unobstructed nonempty nodup contents free
    { remaining := _, chunks } (List.flatMap_map _ _ files)
  exact ⟨fs'', read, restored⟩

/-- An empty directory. -/
def IsEmptyDirectory (fs : FileSystem Name) (directory : Path) : Prop :=
  fs.entry directory = some .directory ∧ ∀ path, path ≠ [] → fs.entry (directory ++ path) = none

theorem IsEmptyDirectory.unobstructed (h : IsEmptyDirectory fs directory) {file : Path}
    (nonempty : file ≠ []) : Unobstructed fs (directory ++ file) := by
  constructor
  · intro above sub bytes isFile
    rw [List.dropLast_append_of_ne_nil nonempty] at sub
    obtain up | down := List.prefix_or_prefix_of_prefix sub (List.prefix_append directory _)
    · obtain ⟨below, rfl⟩ := up
      by_cases empty : below = []
      · rw [empty, List.append_nil] at h
        rw [h.1] at isFile
        cases isFile
      · rw [fs.directory_of_below empty (by rw [h.1]; exact Option.some_ne_none _)] at isFile
        cases isFile
    · obtain ⟨relative, rfl⟩ := down
      by_cases empty : relative = []
      · rw [empty, List.append_nil, h.1] at isFile
        cases isFile
      · rw [h.2 relative empty] at isFile
        cases isFile
  · rw [h.2 file nonempty]
    exact nofun

/-- The round trip: whatever the chunks are in which the files and the stored stream
are read, a later run with an empty working directory recreates every generated file
with its bytes. -/
theorem generatedFiles_round_trip (fs fs' : FileSystem Name) (directory directory' : Path)
    (files : List Path) (chunking : Path → ℕ → ℕ) (stored : Bytes) (manifest : FilesManifest)
    (chunks : ℕ → ℕ) (nonempty : ∀ file ∈ files, file ≠ []) (nodup : files.Nodup)
    (isFile : ∀ file ∈ files, ∃ bytes, fs.entry (directory ++ file) = some (.file bytes))
    (writes : WritesToCache fs chunking directory (files.map (directory ++ ·)) stored manifest)
    (empty : IsEmptyDirectory fs' directory') :
    ∃ fs'', readFromCache directory' manifest { remaining := stored, chunks } fs' = .ok () fs'' ∧
      ∀ file ∈ files, fs''.entry (directory' ++ file) = fs.entry (directory ++ file) := by
  have free : ∀ file ∈ files, Unobstructed fs' (directory' ++ file) := fun file member =>
    empty.unobstructed (nonempty file member)
  exact readFromCache_of_writesToCache nonempty nodup isFile writes free chunks

def scannerWork : Path := [⟨".scannerwork", by decide⟩]

private def generated : Path := [⟨"ucfg", by decide⟩, ⟨"a", by decide⟩]

/-- The root and an empty working directory. -/
def emptyWorkDir : FileSystem Name where
  entry path := if path <+: scannerWork then some .directory else none
  parent path name h := by
    by_cases below : path ++ [name] <+: scannerWork
    · exact if_pos ((List.prefix_append path [name]).trans below)
    · exact absurd (if_neg below) h

theorem isEmptyDirectory_emptyWorkDir : IsEmptyDirectory emptyWorkDir scannerWork := by
  refine ⟨by decide, fun path nonempty => if_neg fun below => ?_⟩
  have := below.length_le
  have := List.length_pos_iff.mpr nonempty
  rw [List.length_append] at *
  omega

/-- The same with the file `ucfg/a`. -/
private def withGenerated : FileSystem Name :=
  match emptyWorkDir.createDirectories (scannerWork ++ generated.dropLast) with
  | some fs => (fs.write (scannerWork ++ generated) [104, 105, 33]).getD fs
  | none => emptyWorkDir

theorem generatedFiles_round_trip_of_one_file :
    ∃ fs'', readFromCache scannerWork (some [⟨"ucfg/a", 3⟩])
        { remaining := [104, 105, 33], chunks := fun _ => 2 } emptyWorkDir = .ok () fs'' ∧
      ∀ file ∈ [generated],
        fs''.entry (scannerWork ++ file) = withGenerated.entry (scannerWork ++ file) := by
  refine generatedFiles_round_trip withGenerated emptyWorkDir scannerWork scannerWork [generated]
    (fun _ _ => 1) [104, 105, 33] [⟨"ucfg/a", 3⟩] (fun _ => 2) (by decide)
    (by decide) ?_ ?_ ?_
  · simp only [List.mem_singleton, forall_eq]
    exact ⟨[104, 105, 33], by decide⟩
  · have isFile : ∀ file ∈ (some ([generated].map (scannerWork ++ ·))).getD [],
        ∃ bytes, withGenerated.entry file = some (.file bytes) := by
      simp only [Option.getD_some, List.map_singleton, List.mem_singleton, forall_eq]
      exact ⟨[104, 105, 33], by decide⟩
    obtain ⟨stored, manifest, writes⟩ := exists_writesToCache (fun _ _ => 1) scannerWork isFile
    obtain ⟨rfl, rfl⟩ := writes.eq (by decide)
    exact writes
  · exact isEmptyDirectory_emptyWorkDir

end Restore

end Cache

end SonarJS
