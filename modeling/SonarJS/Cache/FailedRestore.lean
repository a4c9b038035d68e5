import SonarJS.Cache.Sequence

/-!
# What a failed restore leaves behind

The files of a cache entry are written one after the other while the stream is consumed. That
the stream is shorter than the manifest says is found at the file in which it ends, that it is
longer at the last file. By then all files up to there have been written, each with its slice
of the stream, and they stay.
-/

namespace SonarJS

namespace Cache

/-- The slices of a stream that the files of a manifest get, up to the file in which the
stream ends. -/
def slices : FilesManifest → Bytes → List (FileSize × Bytes)
  | [], _ => []
  | fileSize :: fileSizes, bytes =>
    (fileSize, bytes.take fileSize.size) ::
      if bytes.length < fileSize.size then [] else slices fileSizes (bytes.drop fileSize.size)

def totalSize (manifest : FilesManifest) : ℕ := (manifest.map (·.size)).sum

theorem totalSize_nil : totalSize [] = 0 := rfl

theorem totalSize_cons (fileSize : FileSize) (fileSizes : FilesManifest) :
    totalSize (fileSize :: fileSizes) = fileSize.size + totalSize fileSizes := by
  rw [totalSize, List.map_cons, List.sum_cons]
  rfl

/-- The exceptions of `writeFile` for a stream that is too short or too long. -/
inductive LengthError : Throwable → Prop
  | tooSmall (limit : ℕ) (file : Path) :
      LengthError (.ioException ("The cache stream is too small (<" ++ toString limit ++
        ") for file " ++ pathString file))
  | tooBig (limit : ℕ) (file : Path) :
      LengthError (.ioException ("The cache stream is too big (>" ++ toString limit ++
        ") for file " ++ pathString file))

/-- The file that a slice belongs to. -/
def sliceFile (directory : Path) (slice : FileSize × Bytes) : Except Throwable (Path × Bytes) := do
  let file ← convertFromEntryName directory slice.1.name
  return (file, slice.2)

/-- The slices have been written to their files in this order, and nothing else has changed but
the directories above these files. -/
def Written (directory : Path) (slices : List (FileSize × Bytes)) (fs fs' : FileSystem Name) :
    Prop :=
  ∃ files, slices.mapM (sliceFile directory) = .ok files ∧
    fs'.entry = files.foldl FileSystem.entriesWith fs.entry

section FailedRestore

variable {directory : Path} {fs fs' : FileSystem Name}

/-- Every message about the length begins with a letter, and every path with a slash. -/
theorem not_lengthError_pathString (path : Path) :
    ¬ LengthError (.ioException (pathString path)) := by
  intro error
  generalize message : pathString path = text at error
  have first : text.toList.head? = some '/' := by
    rw [← message, pathString, String.toList_append]
    rfl
  cases error with
  | tooSmall limit file =>
      simp only [String.toList_append] at first
      cases first
  | tooBig limit file =>
      simp only [String.toList_append] at first
      cases first

open Action

theorem error_of_foldlM_resolve {names : List String} {base : Path} {e : Throwable}
    (h : names.foldlM resolve base = .error e) : e = .invalidPathException := by
  induction names generalizing base with
  | nil => cases h
  | cons name names ih =>
      rw [List.foldlM_cons, except_bind_eq_error] at h
      obtain first | ⟨base', -, rest⟩ := h
      · unfold resolve at first
        split at first
        · cases first
        · split at first
          · cases first
          · split at first
            · cases first
            · cases first
              rfl
      · exact ih rest

theorem error_of_convertFromEntryName {entryName : String} {e : Throwable}
    (h : convertFromEntryName directory entryName = .error e) : e = .invalidPathException :=
  error_of_foldlM_resolve h

theorem wp_createDirectories (path : Path) :
    wp (createDirectories path)
      (fun _ fs' => ∀ q, fs'.entry q = if q <+: path then some .directory else fs.entry q)
      (fun e _ => ¬ LengthError e) fs := by
  unfold wp createDirectories
  cases created : fs.createDirectories path with
  | none => exact not_lengthError_pathString path
  | some fs' => exact FileSystem.entry_of_createDirectories created

theorem wp_writeBytes (file : Path) (bytes : Bytes) :
    wp (writeBytes file bytes)
      (fun _ fs' => ∀ q, fs'.entry q = if q = file then some (.file bytes) else fs.entry q)
      (fun e _ => ¬ LengthError e) fs := by
  unfold wp writeBytes
  cases written : fs.write file bytes with
  | none => exact not_lengthError_pathString file
  | some fs' => exact FileSystem.entry_of_write written

theorem getParent_eq_ok {file parent : Path} (h : getParent file = .ok parent) :
    file.dropLast = parent := by
  unfold getParent at h
  split at h
  · cases h
  · cases h
    rfl

theorem not_lengthError_of_getParent {file : Path} {e : Throwable}
    (h : getParent file = .error e) : ¬ LengthError e := by
  unfold getParent at h
  split at h
  · cases h
    intro error
    cases error
  · cases h

/-- The check of the length that `writeFile` ends with. -/
theorem wp_checkLength (input final : InputStream) (file : Path) (limit : ℕ) (shouldFinish : Bool)
    (left : final.remaining = input.remaining.drop limit) :
    wp (if (input.remaining.take limit).length < limit then
          throw (.ioException ("The cache stream is too small (<" ++ toString limit ++
            ") for file " ++ pathString file))
        else if shouldFinish && (final.read 1).isSome then
          throw (.ioException ("The cache stream is too big (>" ++ toString limit ++
            ") for file " ++ pathString file))
        else return final : FileSystemM InputStream)
      (fun next fs' => next = final ∧ limit ≤ input.remaining.length ∧ fs' = fs)
      (fun _ fs' => (input.remaining.length < limit ∨
        shouldFinish ∧ limit < input.remaining.length) ∧ fs' = fs) fs := by
  rw [wp_ite, List.length_take]
  refine ⟨fun short => ⟨.inl (by omega), rfl⟩, fun long => ?_⟩
  rw [wp_ite, Bool.and_eq_true, InputStream.isSome_read_iff, left]
  refine ⟨fun big => ⟨.inr ⟨big.1, ?_⟩, rfl⟩, fun _ => ⟨rfl, by omega, rfl⟩⟩
  have := List.length_pos_iff.mpr big.2
  rw [List.length_drop] at this
  omega

/-- A file is written with its slice of the stream, also if `writeFile` then finds that the
length of the stream is wrong. -/
theorem wp_writeFile (input : InputStream) (file : Path) (limit : ℕ) (shouldFinish : Bool) :
    wp (writeFile input file limit shouldFinish)
      (fun next fs' => next.remaining = input.remaining.drop limit ∧
        limit ≤ input.remaining.length ∧
        fs'.entry = FileSystem.entriesWith fs.entry (file, input.remaining.take limit))
      (fun e fs' => LengthError e →
        (input.remaining.length < limit ∨ shouldFinish ∧ limit < input.remaining.length) ∧
        fs'.entry = FileSystem.entriesWith fs.entry (file, input.remaining.take limit)) fs := by
  obtain ⟨final, copied, left⟩ := copy_eq_take limit 0 input
  rw [Nat.sub_zero] at copied left
  rw [writeFile, wp_bind, wp_ofExcept]
  refine ⟨fun parent found => ?_, fun e failed error =>
    absurd error (not_lengthError_of_getParent failed)⟩
  obtain rfl := getParent_eq_ok found
  rw [wp_bind]
  refine wp_mono (wp_createDirectories _) (fun _ fs₁ created => ?_)
    (fun e _ other error => absurd error other)
  rw [wp_bind]
  refine wp_mono (wp_writeBytes file []) (fun _ fs₂ truncated => ?_)
    (fun e _ other error => absurd error other)
  rw [copied]
  simp only
  rw [wp_bind]
  refine wp_mono (wp_writeBytes file _) (fun _ fs₃ written => ?_)
    (fun e _ other error => absurd error other)
  have entries : fs₃.entry =
      FileSystem.entriesWith fs.entry (file, input.remaining.take limit) := by
    funext q
    rw [written, truncated, created, FileSystem.entriesWith]
    split
    · rfl
    · rfl
  apply wp_mono (wp_checkLength input final file limit shouldFinish left)
  · rintro _ _ ⟨rfl, long, rfl⟩
    exact ⟨left, long, entries⟩
  · rintro e _ ⟨length, rfl⟩ -
    exact ⟨length, entries⟩

/-- The stream ends in the first file of the manifest, or there is no other file. -/
theorem slices_eq_singleton {fileSize : FileSize} {fileSizes : FilesManifest} {bytes : Bytes}
    (ends : bytes.length < fileSize.size ∨ fileSizes = []) :
    slices (fileSize :: fileSizes) bytes = [(fileSize, bytes.take fileSize.size)] := by
  rw [slices]
  split
  · rfl
  · obtain short | rfl := ends
    · contradiction
    · rfl

theorem sliceFile_eq_ok {fileSize : FileSize} {file : Path}
    (name : convertFromEntryName directory fileSize.name = .ok file) (bytes : Bytes) :
    sliceFile directory (fileSize, bytes) = .ok (file, bytes) := by
  rw [sliceFile, name]
  rfl

/-- A restore that fails for the length of the stream has written all slices. -/
theorem wp_readFiles (manifest : FilesManifest) (input : InputStream) :
    wp (readFiles directory manifest input) (fun _ _ => True)
      (fun e fs' => LengthError e → input.remaining.length ≠ totalSize manifest ∧
        Written directory (slices manifest input.remaining) fs fs') fs := by
  induction manifest generalizing fs input with
  | nil => trivial
  | cons fileSize fileSizes ih =>
      rw [readFiles, wp_bind, wp_ofExcept]
      refine ⟨fun file name => ?_, fun e invalid error => ?_⟩
      · rw [wp_bind]
        refine wp_mono (wp_writeFile input file fileSize.size _) ?_ ?_
        · rintro next fs₁ ⟨left, long, entries⟩
          refine wp_mono (ih next) (fun _ _ _ => trivial) (fun e fs₂ later error => ?_)
          obtain ⟨differ, files, sliced, after⟩ := later error
          rw [left, List.length_drop] at differ
          refine ⟨?_, (file, input.remaining.take fileSize.size) :: files, ?_, ?_⟩
          · rw [totalSize_cons]
            omega
          · rw [slices, if_neg (Nat.not_lt.mpr long), ← left]
            exact mapM_cons_eq_ok.mpr ⟨_, sliceFile_eq_ok name _, files, sliced, rfl⟩
          · rw [after, entries, List.foldl_cons]
        · intro e fs₁ failed error
          obtain ⟨length, entries⟩ := failed error
          have ends : input.remaining.length < fileSize.size ∨ fileSizes = [] :=
            length.imp_right fun last => List.isEmpty_iff.mp last.1
          refine ⟨?_, [(file, input.remaining.take fileSize.size)], ?_, entries⟩
          · obtain short | ⟨last, big⟩ := length
            · rw [totalSize_cons]
              omega
            · rw [List.isEmpty_iff.mp last, totalSize_cons, totalSize_nil]
              omega
          · rw [slices_eq_singleton ends]
            exact mapM_cons_eq_ok.mpr ⟨_, sliceFile_eq_ok name _, [], rfl, rfl⟩
      · rw [error_of_convertFromEntryName invalid] at error
        cases error

/-- What a restore leaves that fails because the stream is shorter or longer than the sizes of
the manifest: each file up to the one in which the stream ends, with its slice, and nothing
else apart from the directories above these files. -/
theorem readFromCache_leaves_slices {manifest : FilesManifest} {input : InputStream}
    {e : Throwable} (failed : readFromCache directory (some manifest) input fs = .error e fs')
    (error : LengthError e) :
    input.remaining.length ≠ totalSize manifest ∧
      Written directory (slices manifest input.remaining) fs fs' ∧
      ∀ path, (∀ slice ∈ slices manifest input.remaining, ∀ file,
          sliceFile directory slice = .ok file → ¬ path <+: file.1) →
        fs'.entry path = fs.entry path := by
  have outcome := @wp_readFiles directory fs manifest input
  unfold wp at outcome
  change readFiles directory manifest input fs = _ at failed
  rw [failed] at outcome
  obtain ⟨differ, files, sliced, entries⟩ := outcome error
  refine ⟨differ, ⟨files, sliced, entries⟩, fun path notAbove => ?_⟩
  rw [entries]
  apply FileSystem.foldl_entriesWith_of_not_above
  intro file member
  obtain ⟨slice, known, named⟩ := exists_of_mem_mapM sliced member
  exact notAbove slice known file named

/-- A stream that is too short for a single file. -/
theorem readFromCache_of_short {fileSize : FileSize} {file : Path}
    (name : convertFromEntryName directory fileSize.name = .ok file) (nonempty : file ≠ [])
    (free : Unobstructed fs file) {input : InputStream}
    (short : input.remaining.length < fileSize.size) :
    ∃ e fs', readFromCache directory (some [fileSize]) input fs = .error e fs' ∧ LengthError e ∧
      fs'.entry file = some (.file input.remaining) := by
  obtain ⟨fs', entries, wrote⟩ := writeFile_of_unobstructed nonempty free input fileSize.size true
  obtain ⟨final, copied, -⟩ := copy_eq_take fileSize.size 0 input
  rw [Nat.sub_zero, List.take_of_length_le short.le] at copied
  rw [copied, if_pos short] at wrote
  refine ⟨_, fs', ?_, .tooSmall fileSize.size file, ?_⟩
  · change readFiles directory [fileSize] input fs = _
    rw [readFiles, bind_ok (ofExcept_ok name fs)]
    exact bind_error wrote
  · rw [entries, if_pos rfl, copied]

/-- A manifest with a file of five bytes. -/
def fiveBytes : FilesManifest := [⟨"ucfgs", 5⟩]

def threeBytes : InputStream where
  remaining := [104, 105, 33]
  chunks _ := 2

def restoredFile : Path := scannerWork ++ [⟨"ucfgs", by decide⟩]

theorem readFromCache_fiveBytes :
    ∃ e fs', readFromCache scannerWork (some fiveBytes) threeBytes emptyWorkDir = .error e fs' ∧
      LengthError e ∧ fs'.entry restoredFile = some (.file [104, 105, 33]) :=
  readFromCache_of_short (by decide) (List.append_ne_nil_of_right_ne_nil _ (by decide))
    (isEmptyDirectory_emptyWorkDir.unobstructed (by decide)) (by decide)

theorem readFromCache_leaves_slices_of_short :
    ∃ e fs', readFromCache scannerWork (some fiveBytes) threeBytes emptyWorkDir = .error e fs' ∧
      Written scannerWork [(⟨"ucfgs", 5⟩, [104, 105, 33])] emptyWorkDir fs' := by
  obtain ⟨e, fs', failed, error, -⟩ := readFromCache_fiveBytes
  exact ⟨e, fs', failed, (readFromCache_leaves_slices failed error).2.1⟩

/-- The restore fails, and the file is there that was not there before. -/
theorem not_traceless_of_short :
    ∃ e fs', readFromCache scannerWork (some fiveBytes) threeBytes emptyWorkDir = .error e fs' ∧
      LengthError e ∧ emptyWorkDir.entry restoredFile = none ∧
        fs'.entry restoredFile = some (.file [104, 105, 33]) := by
  obtain ⟨e, fs', failed, error, created⟩ := readFromCache_fiveBytes
  exact ⟨e, fs', failed, error, by decide, created⟩

end FailedRestore

end Cache

end SonarJS
