import SonarJS.Foundation.OrderedCollections
import SonarJS.Cache.VarLength

/-!
# The CPD codec

`CpdSerializer`, `CpdDeserializer` and `StringTable`. The tokens of a file go to two
byte arrays: the locations with an index for each image, and the table of images.
The table is filled while the tokens are written, but it is read first.

Reading back what was written gives the same tokens. The indices survive because the
table only ever grows at its end: an index handed out early means the same string in
the final table.
-/

namespace SonarJS

namespace Cache

/-- `EslintBridgeServer.Location`. -/
structure Location where
  startLine : BitVec 32
  startCol : BitVec 32
  endLine : BitVec 32
  endCol : BitVec 32
deriving DecidableEq

/-- `EslintBridgeServer.CpdToken`. -/
structure CpdToken where
  location : Location
  image : String
deriving DecidableEq

structure StringTable where
  table : OrderedMap String ℕ
  byIndex : List String

namespace StringTable

def empty : StringTable := ⟨.empty, []⟩

/-- The constructor that takes a list; of equal strings the last index is kept. -/
def ofList (byIndex : List String) : StringTable :=
  ⟨byIndex.zipIdx.foldl (fun table entry => table.set entry.1 entry.2) .empty, byIndex⟩

/-- `getIndex`: a new string is added at the end. -/
@[grind =] def getIndex (strings : StringTable) (string : String) : ℕ × StringTable :=
  match strings.table.get string with
  | some index => (index, strings)
  | none => (strings.byIndex.length,
      ⟨strings.table.set string strings.byIndex.length, strings.byIndex ++ [string]⟩)

/-- `getString`. -/
def getString (strings : StringTable) (index : BitVec 32) : Except Throwable String :=
  if index.toInt < 0 then .error .indexOutOfBoundsException
  else
    match strings.byIndex[index.toNat]? with
    | some string => .ok string
    | none => .error .indexOutOfBoundsException

end StringTable

/-! ## Serialization -/

/-- The tokens in turn, with the table as it is by then. -/
@[grind =] def writeTokens : StringTable → List CpdToken → Bytes × StringTable
  | strings, [] => ([], strings)
  | strings, token :: tokens =>
    let (index, strings) := strings.getIndex token.image
    let (bytes, strings) := writeTokens strings tokens
    (writeInt token.location.startLine ++ writeInt token.location.startCol ++
      writeInt token.location.endLine ++ writeInt token.location.endCol ++
      writeInt (BitVec.ofNat 32 index) ++ bytes, strings)

def writeStringTable (strings : StringTable) : Bytes :=
  writeInt (BitVec.ofNat 32 strings.byIndex.length) ++ strings.byIndex.flatMap writeUTF ++
    writeUTF "END"

structure SerializationResult where
  data : Bytes
  stringTable : Bytes

/-- `CpdData`. The list and the bytes of its images fit into arrays. -/
structure CpdData (jvm : Jvm) where
  tokens : List CpdToken
  length_le : tokens.length ≤ jvm.maxArray
  image_le : ∀ token ∈ tokens, (Utf8.encode token.image).length ≤ jvm.maxArray

/-- `CpdSerializer.toBinary`. -/
def toBinary {jvm : Jvm} (cpdData : CpdData jvm) : SerializationResult :=
  let (bytes, strings) := writeTokens .empty cpdData.tokens
  { data := writeInt (BitVec.ofNat 32 cpdData.tokens.length) ++ bytes ++ writeUTF "END"
    stringTable := writeStringTable strings }

/-! ## Deserialization -/

/-- `for (int i = 0; i < count; i++)` around a reader. -/
@[grind =] def readMany {α : Type} (reader : Reader α) : ℕ → Reader (List α)
  | 0 => return []
  | count + 1 => do
    let a ← reader
    let as ← readMany reader count
    return a :: as

/-- The end marker. -/
def readEnd (jvm : Jvm) : Reader Unit := do
  let marker ← readUTF jvm
  if marker ≠ "END" then throw (.ioException "Can't read data from cache, format corrupted")

def readStringTable (jvm : Jvm) : Reader StringTable := do
  let size ← readInt
  let size ← jvm.newArrayList size
  let byIndex ← readMany (readUTF jvm) size
  readEnd jvm
  return .ofList byIndex

/-- The four integers at the start of `readCpdToken`. -/
def readLocation : Reader Location := do
  let startLine ← readInt
  let startCol ← readInt
  let endLine ← readInt
  let endCol ← readInt
  return ⟨startLine, startCol, endLine, endCol⟩

def readCpdToken (strings : StringTable) : Reader CpdToken := do
  let location ← readLocation
  let index ← readInt
  let image ← strings.getString index
  return ⟨location, image⟩

def readCpdTokens (jvm : Jvm) (strings : StringTable) : Reader (List CpdToken) := do
  let sizeOfCpdTokens ← readInt
  let sizeOfCpdTokens ← jvm.newArrayList sizeOfCpdTokens
  let cpdTokens ← readMany (readCpdToken strings) sizeOfCpdTokens
  readEnd jvm
  return cpdTokens

/-- The body of `CpdDeserializer.convert`: the string table comes first. -/
def convert (jvm : Jvm) (data stringTable : Bytes) : Except Throwable (List CpdToken) := do
  let (strings, _) ← readStringTable jvm stringTable
  let (tokens, _) ← readCpdTokens jvm strings data
  return tokens

/-- `CpdDeserializer.fromBinary`: an `IOException` is wrapped, anything else escapes. -/
def fromBinary (jvm : Jvm) (data stringTable : Bytes) : Except Throwable (List CpdToken) :=
  match convert jvm data stringTable with
  | .ok tokens => .ok tokens
  | .error e =>
    if e.isIOException then .error (.ioException "Can't deserialize data from the cache")
    else .error e

/-! ## The string table while it grows -/

namespace StringTable

/-- Every index in the map leads to its string. -/
def Consistent (strings : StringTable) : Prop :=
  ∀ string index, strings.table.get string = some index → strings.byIndex[index]? = some string

theorem consistent_empty : empty.Consistent := fun _ _ h => by
  simp [empty] at h

/-- What `getIndex` does: the index leads to the string, and older indices keep their
meaning. -/
theorem getIndex_spec {strings : StringTable} (h : strings.Consistent) (string : String) :
    (strings.getIndex string).2.Consistent ∧
      (strings.getIndex string).2.byIndex[(strings.getIndex string).1]? = some string ∧
      strings.byIndex <+: (strings.getIndex string).2.byIndex := by
  simp only [getIndex]
  split
  · rename_i index found
    exact ⟨h, h string index found, List.prefix_rfl⟩
  · refine ⟨fun other index found => ?_, by simp, List.prefix_append _ _⟩
    simp only [OrderedMap.get_set] at found
    split at found
    · rename_i same
      cases found
      simp [same]
    · have old := h other index found
      rw [List.getElem?_append_left (List.getElem?_eq_some_iff.mp old).1]
      exact old

theorem length_getIndex_le (strings : StringTable) (string : String) :
    (strings.getIndex string).2.byIndex.length ≤ strings.byIndex.length + 1 := by
  simp only [getIndex]
  split <;> simp

theorem mem_getIndex {strings : StringTable} {string other : String}
    (h : other ∈ (strings.getIndex string).2.byIndex) :
    other ∈ strings.byIndex ∨ other = string := by
  simp only [getIndex] at h
  split at h
  · exact .inl h
  · simpa using h

end StringTable

theorem length_writeTokens_le (strings : StringTable) (tokens : List CpdToken) :
    (writeTokens strings tokens).2.byIndex.length ≤ strings.byIndex.length + tokens.length := by
  induction tokens generalizing strings with
  | nil => simp [writeTokens]
  | cons token tokens ih =>
      have first := strings.length_getIndex_le token.image
      have rest := ih (strings.getIndex token.image).2
      simp only [writeTokens, List.length_cons]
      omega

/-- The final table holds images only. -/
theorem mem_writeTokens {strings : StringTable} {tokens : List CpdToken} {string : String}
    (h : string ∈ (writeTokens strings tokens).2.byIndex) :
    string ∈ strings.byIndex ∨ ∃ token ∈ tokens, token.image = string := by
  induction tokens generalizing strings with
  | nil => exact .inl h
  | cons token tokens ih =>
      obtain early | ⟨later, member, image⟩ := ih h
      · obtain old | rfl := StringTable.mem_getIndex early
        · exact .inl old
        · exact .inr ⟨token, List.mem_cons_self, rfl⟩
      · exact .inr ⟨later, List.mem_cons_of_mem _ member, image⟩

theorem prefix_writeTokens {strings : StringTable} (h : strings.Consistent)
    (tokens : List CpdToken) : strings.byIndex <+: (writeTokens strings tokens).2.byIndex := by
  induction tokens generalizing strings with
  | nil => exact List.prefix_rfl
  | cons token tokens ih =>
      obtain ⟨consistent, -, grown⟩ := StringTable.getIndex_spec h token.image
      exact grown.trans (ih consistent)

/-! ## Round trip -/

theorem StringTable.getString_eq {strings : StringTable} {index : ℕ} {string : String}
    (lt : strings.byIndex.length < 2 ^ 31) (h : strings.byIndex[index]? = some string) :
    strings.getString (BitVec.ofNat 32 index) = .ok string := by
  have small : index < 2 ^ 31 := (List.getElem?_eq_some_iff.mp h).1.trans lt
  rw [getString, if_neg (toInt_ofNat_nonneg small), toNat_ofNat_of_lt small, h]

theorem readLocation_eq (location : Location) (rest : Bytes) :
    readLocation (writeInt location.startLine ++ (writeInt location.startCol ++
      (writeInt location.endLine ++ (writeInt location.endCol ++ rest)))) =
        .ok (location, rest) := by
  rw [readLocation, Reader.bind_ok (readInt_writeInt _ _), Reader.bind_ok (readInt_writeInt _ _),
    Reader.bind_ok (readInt_writeInt _ _), Reader.bind_ok (readInt_writeInt _ _)]
  rfl

/-- One token is read back, given the meaning of its index. -/
theorem readCpdToken_eq {strings : StringTable} {index : ℕ} (token : CpdToken)
    (lt : strings.byIndex.length < 2 ^ 31) (h : strings.byIndex[index]? = some token.image)
    (rest : Bytes) :
    readCpdToken strings (writeInt token.location.startLine ++ (writeInt token.location.startCol ++
      (writeInt token.location.endLine ++ (writeInt token.location.endCol ++
        (writeInt (BitVec.ofNat 32 index) ++ rest))))) = .ok (token, rest) := by
  have image (bytes : Bytes) :
      (strings.getString (BitVec.ofNat 32 index) : Reader String) bytes =
        .ok (token.image, bytes) := by
    rw [StringTable.getString_eq lt h]
    rfl
  rw [readCpdToken, Reader.bind_ok (readLocation_eq _ _), Reader.bind_ok (readInt_writeInt _ _),
    Reader.bind_ok (image _)]
  rfl

/-- The tokens are read back with any table that extends the one they were written
with. -/
theorem readMany_writeTokens {strings final : StringTable} (consistent : strings.Consistent)
    (tokens : List CpdToken)
    (extends_ : (writeTokens strings tokens).2.byIndex <+: final.byIndex)
    (lt : final.byIndex.length < 2 ^ 31) (rest : Bytes) :
    readMany (readCpdToken final) tokens.length ((writeTokens strings tokens).1 ++ rest) =
      .ok (tokens, rest) := by
  induction tokens generalizing strings with
  | nil => rfl
  | cons token tokens ih =>
      obtain ⟨consistent', index, -⟩ := StringTable.getIndex_spec consistent token.image
      have known : final.byIndex[(strings.getIndex token.image).1]? = some token.image := by
        obtain ⟨more, grown⟩ := (prefix_writeTokens consistent' tokens).trans extends_
        rw [← grown, List.getElem?_append_left (List.getElem?_eq_some_iff.mp index).1]
        exact index
      have first := readCpdToken_eq token lt known
        ((writeTokens (strings.getIndex token.image).2 tokens).1 ++ rest)
      simp only [writeTokens, List.append_assoc, List.length_cons, readMany]
      rw [Reader.bind_ok first, Reader.bind_ok (ih consistent' extends_)]
      rfl

theorem readMany_flatMap {α : Type} {reader : Reader α} {write : α → Bytes} (as : List α)
    (h : ∀ a ∈ as, ∀ rest, reader (write a ++ rest) = .ok (a, rest)) (rest : Bytes) :
    readMany reader as.length (as.flatMap write ++ rest) = .ok (as, rest) := by
  induction as with
  | nil => rfl
  | cons a as ih =>
      rw [List.forall_mem_cons] at h
      simp only [List.flatMap_cons, List.append_assoc, List.length_cons, readMany]
      rw [Reader.bind_ok (h.1 _), Reader.bind_ok (ih h.2)]
      rfl

theorem readEnd_writeUTF (jvm : Jvm) (rest : Bytes) :
    readEnd jvm (writeUTF "END" ++ rest) = .ok ((), rest) := by
  have marker : (Utf8.encode "END").length = 3 := by decide
  rw [readEnd, Reader.bind_ok (readUTF_writeUTF jvm (marker.le.trans jvm.three_le_maxArray) rest)]
  rfl

/-- The capacity of a list that is as long as an array may be. -/
theorem Jvm.newArrayList_reader (jvm : Jvm) {n : ℕ} (le : n ≤ jvm.maxArray) (bytes : Bytes) :
    (jvm.newArrayList (BitVec.ofNat 32 n) : Reader ℕ) bytes = .ok (n, bytes) := by
  rw [jvm.newArrayList_ofNat le]
  rfl

theorem readStringTable_writeStringTable (jvm : Jvm) {strings : StringTable}
    (length_le : strings.byIndex.length ≤ jvm.maxArray)
    (string_le : ∀ string ∈ strings.byIndex, (Utf8.encode string).length ≤ jvm.maxArray) :
    readStringTable jvm (writeStringTable strings) = .ok (.ofList strings.byIndex, []) := by
  have strings_ := readMany_flatMap strings.byIndex
    (fun string member => readUTF_writeUTF jvm (string_le string member)) (writeUTF "END" ++ [])
  rw [readStringTable, writeStringTable, List.append_assoc, ← List.append_nil (writeUTF "END"),
    Reader.bind_ok (readInt_writeInt _ _), Reader.bind_ok (jvm.newArrayList_reader length_le _),
    Reader.bind_ok strings_, Reader.bind_ok (readEnd_writeUTF jvm [])]
  rfl

theorem readCpdTokens_writeTokens (jvm : Jvm) (cpdData : CpdData jvm) {final : StringTable}
    (extends_ : (writeTokens .empty cpdData.tokens).2.byIndex <+: final.byIndex)
    (lt : final.byIndex.length < 2 ^ 31) :
    readCpdTokens jvm final (toBinary cpdData).data = .ok (cpdData.tokens, []) := by
  have data : (toBinary cpdData).data = writeInt (BitVec.ofNat 32 cpdData.tokens.length) ++
      ((writeTokens .empty cpdData.tokens).1 ++ (writeUTF "END" ++ [])) := by
    simp [toBinary]
  rw [readCpdTokens, data, Reader.bind_ok (readInt_writeInt _ _),
    Reader.bind_ok (jvm.newArrayList_reader cpdData.length_le _),
    Reader.bind_ok (readMany_writeTokens StringTable.consistent_empty cpdData.tokens extends_ lt _),
    Reader.bind_ok (readEnd_writeUTF jvm [])]
  rfl

theorem convert_toBinary (jvm : Jvm) (cpdData : CpdData jvm) :
    convert jvm (toBinary cpdData).data (toBinary cpdData).stringTable = .ok cpdData.tokens := by
  have length_le : (writeTokens .empty cpdData.tokens).2.byIndex.length ≤ jvm.maxArray := by
    have length := length_writeTokens_le .empty cpdData.tokens
    rw [StringTable.empty, List.length_nil, Nat.zero_add] at length
    exact length.trans cpdData.length_le
  have string_le : ∀ string ∈ (writeTokens .empty cpdData.tokens).2.byIndex,
      (Utf8.encode string).length ≤ jvm.maxArray := by
    intro string member
    obtain old | ⟨token, inTokens, rfl⟩ := mem_writeTokens member
    · exact absurd old List.not_mem_nil
    · exact cpdData.image_le token inTokens
  have table : readStringTable jvm (toBinary cpdData).stringTable =
      .ok (.ofList (writeTokens .empty cpdData.tokens).2.byIndex, []) :=
    readStringTable_writeStringTable jvm length_le string_le
  have tokens : readCpdTokens jvm (.ofList (writeTokens .empty cpdData.tokens).2.byIndex)
      (toBinary cpdData).data = .ok (cpdData.tokens, []) :=
    readCpdTokens_writeTokens jvm cpdData List.prefix_rfl (length_le.trans_lt jvm.maxArray_lt)
  rw [convert, table]
  change (readCpdTokens jvm _ _ >>= _) = _
  rw [tokens]
  rfl

/-- Reading back what `toBinary` has written succeeds and gives the same tokens, in
the same order and with the same locations and images. -/
theorem fromBinary_toBinary (jvm : Jvm) (cpdData : CpdData jvm) :
    fromBinary jvm (toBinary cpdData).data (toBinary cpdData).stringTable = .ok cpdData.tokens := by
  rw [fromBinary, convert_toBinary]

/-! ## Malformed input

An `IOException` is what the callers of the codec are prepared for. The conditions
below say of arbitrary bytes that nothing else can be thrown: every size and every
length that is met can be allocated, and every index is one of the table. -/

section Malformed

variable {α β : Type}

/-- Whatever is thrown is an `IOException`. -/
def OnlyIOException (result : Except Throwable α) : Prop :=
  ∀ e, result = .error e → e.isIOException = true

theorem onlyIOException_ok (a : α) : OnlyIOException (.ok a : Except Throwable α) := by
  rintro e ⟨⟩

theorem onlyIOException_error {e : Throwable} :
    OnlyIOException (.error e : Except Throwable α) ↔ e.isIOException = true :=
  ⟨fun h => h e rfl, by rintro h _ ⟨⟩; exact h⟩

theorem onlyIOException_bind {result : Except Throwable α} {next : α → Except Throwable β} :
    OnlyIOException (result >>= next) ↔
      OnlyIOException result ∧ ∀ a, result = .ok a → OnlyIOException (next a) := by
  cases result with
  | error e =>
      change OnlyIOException (.error e) ↔ _
      simp [onlyIOException_error]
  | ok a =>
      change OnlyIOException (next a) ↔ _
      simp [onlyIOException_ok]

theorem Reader.onlyIOException_bind {reader : Reader α} {next : α → Reader β} {bytes : Bytes} :
    OnlyIOException ((reader >>= next) bytes) ↔ OnlyIOException (reader bytes) ∧
      ∀ a rest, reader bytes = .ok (a, rest) → OnlyIOException (next a rest) := by
  change OnlyIOException (reader bytes >>= fun p => next p.1 p.2) ↔ _
  rw [Cache.onlyIOException_bind, Prod.forall]

/-- A size that can be allocated. -/
def InRange (jvm : Jvm) (n : BitVec 32) : Prop := 0 ≤ n.toInt ∧ n.toNat ≤ jvm.maxArray

/-- The length of the string at the start of the bytes, if there is one, is in range. -/
def LengthInRange (jvm : Jvm) (bytes : Bytes) : Prop :=
  ∀ length rest, readInt bytes = .ok (length, rest) → InRange jvm length

/-- `P` holds of the bytes each time that the reader is called in a row of calls. -/
def Along (P : Bytes → Prop) (reader : Reader α) : ℕ → Bytes → Prop
  | 0, _ => True
  | count + 1, bytes =>
    P bytes ∧ ∀ a rest, reader bytes = .ok (a, rest) → Along P reader count rest

/-- The sizes and lengths met while the string table is read are in range. -/
def TableInRange (jvm : Jvm) (bytes : Bytes) : Prop :=
  ∀ size rest, readInt bytes = .ok (size, rest) → InRange jvm size ∧
    Along (LengthInRange jvm) (readUTF jvm) size.toNat rest ∧
    ∀ strings marker, readMany (readUTF jvm) size.toNat rest = .ok (strings, marker) →
      LengthInRange jvm marker

/-- The integer after the location of a token is an index of a table with `count`
strings. -/
def IndexInRange (count : ℕ) (bytes : Bytes) : Prop :=
  ∀ location rest index rest', readLocation bytes = .ok (location, rest) →
    readInt rest = .ok (index, rest') → 0 ≤ index.toInt ∧ index.toNat < count

/-- The sizes, lengths and indices met while the tokens are read are in range. -/
def DataInRange (jvm : Jvm) (strings : StringTable) (bytes : Bytes) : Prop :=
  ∀ size rest, readInt bytes = .ok (size, rest) → InRange jvm size ∧
    Along (IndexInRange strings.byIndex.length) (readCpdToken strings) size.toNat rest ∧
    ∀ tokens marker, readMany (readCpdToken strings) size.toNat rest = .ok (tokens, marker) →
      LengthInRange jvm marker

/-- Everything met while both arrays are read is in range. The tokens are only looked
at when the string table could be read. -/
def CpdInRange (jvm : Jvm) (data stringTable : Bytes) : Prop :=
  TableInRange jvm stringTable ∧ ∀ strings rest,
    readStringTable jvm stringTable = .ok (strings, rest) → DataInRange jvm strings data

theorem onlyIOException_readIntLoop (result : BitVec 32) (shift : ℕ) (bytes : Bytes) :
    OnlyIOException (readIntLoop result shift bytes) := by
  induction bytes generalizing result shift with
  | nil => exact onlyIOException_error.2 rfl
  | cons byte bytes ih =>
      simp only [readIntLoop]
      split
      · exact ih _ _
      · exact onlyIOException_ok _

theorem onlyIOException_readInt (bytes : Bytes) : OnlyIOException (readInt bytes) :=
  onlyIOException_readIntLoop _ _ _

theorem Reader.lift_apply (result : Except Throwable α) (bytes : Bytes) :
    (result : Reader α) bytes = result >>= fun a => .ok (a, bytes) := rfl

theorem Reader.lift_eq_ok {result : Except Throwable α} {bytes rest : Bytes} {a : α} :
    (result : Reader α) bytes = .ok (a, rest) ↔ result = .ok a ∧ rest = bytes := by
  cases result with
  | error e => exact ⟨fun h => (nomatch h), fun h => (nomatch h.1)⟩
  | ok b =>
      change Except.ok (b, bytes) = .ok (a, rest) ↔ _
      simp [eq_comm]

theorem onlyIOException_lift {result : Except Throwable α} {bytes : Bytes} :
    OnlyIOException ((result : Reader α) bytes) ↔ OnlyIOException result := by
  rw [Reader.lift_apply, onlyIOException_bind]
  exact and_iff_left fun a _ => onlyIOException_ok _

theorem onlyIOException_newArray {jvm : Jvm} {n : BitVec 32} :
    OnlyIOException (jvm.newArray n) ↔ InRange jvm n := by
  unfold Jvm.newArray InRange
  split
  · rename_i negative
    exact iff_of_false (fun h => Bool.false_ne_true (onlyIOException_error.1 h)) (by omega)
  · split
    · rename_i large
      exact iff_of_false (fun h => Bool.false_ne_true (onlyIOException_error.1 h)) (by omega)
    · exact iff_of_true (onlyIOException_ok _) (by omega)

theorem onlyIOException_newArrayList {jvm : Jvm} {n : BitVec 32} :
    OnlyIOException (jvm.newArrayList n) ↔ InRange jvm n := by
  unfold Jvm.newArrayList InRange
  split
  · rename_i negative
    exact iff_of_false (fun h => Bool.false_ne_true (onlyIOException_error.1 h)) (by omega)
  · split
    · rename_i large
      exact iff_of_false (fun h => Bool.false_ne_true (onlyIOException_error.1 h)) (by omega)
    · exact iff_of_true (onlyIOException_ok _) (by omega)

theorem newArrayList_of_inRange {jvm : Jvm} {n : BitVec 32} (h : InRange jvm n) :
    jvm.newArrayList n = .ok n.toNat := by
  obtain ⟨nonneg, le⟩ := h
  rw [Jvm.newArrayList, if_neg (by omega), if_neg (by omega)]

theorem onlyIOException_readFully (length : ℕ) (bytes : Bytes) :
    OnlyIOException (readFully length bytes) := by
  unfold readFully
  split
  · exact onlyIOException_error.2 rfl
  · exact onlyIOException_ok _

theorem onlyIOException_readUTF {jvm : Jvm} {bytes : Bytes} :
    OnlyIOException (readUTF jvm bytes) ↔ LengthInRange jvm bytes := by
  rw [readUTF, Reader.onlyIOException_bind, and_iff_right (onlyIOException_readInt bytes)]
  refine forall_congr' fun length => forall_congr' fun rest => imp_congr_right ?_
  intro _
  rw [Reader.onlyIOException_bind, onlyIOException_lift, onlyIOException_newArray]
  refine and_iff_left fun n later _ => Reader.onlyIOException_bind.2 ?_
  exact ⟨onlyIOException_readFully n later, fun _ _ _ => onlyIOException_ok _⟩

theorem onlyIOException_readMany {reader : Reader α} {count : ℕ} {bytes : Bytes} :
    OnlyIOException (readMany reader count bytes) ↔
      Along (fun bytes => OnlyIOException (reader bytes)) reader count bytes := by
  induction count generalizing bytes with
  | zero => exact iff_of_true (onlyIOException_ok _) trivial
  | succ count ih =>
      rw [readMany, Reader.onlyIOException_bind, Along]
      refine and_congr_right fun _ => forall_congr' fun a => forall_congr' fun rest =>
        imp_congr_right fun _ => ?_
      rw [Reader.onlyIOException_bind, ih]
      exact and_iff_left fun _ _ _ => onlyIOException_ok _

theorem onlyIOException_readEnd {jvm : Jvm} {bytes : Bytes} :
    OnlyIOException (readEnd jvm bytes) ↔ LengthInRange jvm bytes := by
  rw [readEnd, Reader.onlyIOException_bind, onlyIOException_readUTF]
  apply and_iff_left
  intro marker rest _
  by_cases same : marker = "END"
  · rw [if_neg (not_not.mpr same)]
    exact onlyIOException_ok _
  · rw [if_pos same]
    exact onlyIOException_error.2 rfl

theorem along_congr {P Q : Bytes → Prop} (h : ∀ bytes, P bytes ↔ Q bytes) (reader : Reader α)
    (count : ℕ) (bytes : Bytes) : Along P reader count bytes ↔ Along Q reader count bytes := by
  rw [show P = Q from funext fun bytes => propext (h bytes)]

/-- A size, so many items, and the end marker: the shape of both arrays. -/
theorem onlyIOException_sized {jvm : Jvm} {item : Reader α} (finish : List α → β)
    {P : Bytes → Prop} (items : ∀ bytes, OnlyIOException (item bytes) ↔ P bytes) {bytes : Bytes} :
    OnlyIOException ((do
      let size ← readInt
      let size ← jvm.newArrayList size
      let all ← readMany item size
      readEnd jvm
      return finish all : Reader β) bytes) ↔
    ∀ size rest, readInt bytes = .ok (size, rest) → InRange jvm size ∧
      Along P item size.toNat rest ∧
      ∀ all marker, readMany item size.toNat rest = .ok (all, marker) →
        LengthInRange jvm marker := by
  rw [Reader.onlyIOException_bind, and_iff_right (onlyIOException_readInt bytes)]
  refine forall_congr' fun size => forall_congr' fun rest => imp_congr_right ?_
  intro _
  rw [Reader.onlyIOException_bind, onlyIOException_lift, onlyIOException_newArrayList]
  apply and_congr_right
  intro inRange
  have many (rest : Bytes) : OnlyIOException ((do
      let all ← readMany item size.toNat
      readEnd jvm
      return finish all : Reader β) rest) ↔ Along P item size.toNat rest ∧
      ∀ all marker, readMany item size.toNat rest = .ok (all, marker) →
        LengthInRange jvm marker := by
    rw [Reader.onlyIOException_bind, onlyIOException_readMany, along_congr items]
    refine and_congr_right fun _ => forall_congr' fun all => forall_congr' fun marker =>
      imp_congr_right fun _ => ?_
    rw [Reader.onlyIOException_bind, onlyIOException_readEnd]
    exact and_iff_left fun _ _ _ => onlyIOException_ok _
  rw [← many]
  constructor
  · exact fun h => h _ rest (Reader.lift_eq_ok.2 ⟨newArrayList_of_inRange inRange, rfl⟩)
  · intro h n later allocated
    obtain ⟨same, rfl⟩ := Reader.lift_eq_ok.1 allocated
    rw [newArrayList_of_inRange inRange] at same
    cases same
    exact h

theorem onlyIOException_getString {strings : StringTable} {index : BitVec 32} :
    OnlyIOException (strings.getString index) ↔
      0 ≤ index.toInt ∧ index.toNat < strings.byIndex.length := by
  unfold StringTable.getString
  split
  · rename_i negative
    exact iff_of_false (fun h => Bool.false_ne_true (onlyIOException_error.1 h)) (by omega)
  · split
    · rename_i found
      exact iff_of_true (onlyIOException_ok _)
        ⟨by omega, (List.getElem?_eq_some_iff.mp found).1⟩
    · rename_i missing
      have := List.getElem?_eq_none_iff.mp missing
      exact iff_of_false (fun h => Bool.false_ne_true (onlyIOException_error.1 h)) (by omega)

theorem onlyIOException_readLocation (bytes : Bytes) : OnlyIOException (readLocation bytes) := by
  simp only [readLocation, Reader.onlyIOException_bind, onlyIOException_readInt, true_and]
  exact fun _ _ _ _ _ _ _ _ _ _ _ _ => onlyIOException_ok _

/-- A token fails with something else than an `IOException` only at its index. -/
theorem onlyIOException_readCpdToken {strings : StringTable} {bytes : Bytes} :
    OnlyIOException (readCpdToken strings bytes) ↔
      IndexInRange strings.byIndex.length bytes := by
  rw [readCpdToken, Reader.onlyIOException_bind, and_iff_right (onlyIOException_readLocation bytes)]
  have image (rest : Bytes) (location : Location) : OnlyIOException ((do
      let index ← readInt
      let image ← strings.getString index
      return ⟨location, image⟩ : Reader CpdToken) rest) ↔ ∀ index rest',
        readInt rest = .ok (index, rest') → 0 ≤ index.toInt ∧
          index.toNat < strings.byIndex.length := by
    rw [Reader.onlyIOException_bind, and_iff_right (onlyIOException_readInt rest)]
    refine forall_congr' fun index => forall_congr' fun rest' => imp_congr_right ?_
    intro _
    rw [Reader.onlyIOException_bind, onlyIOException_lift, onlyIOException_getString]
    exact and_iff_left fun _ _ _ => onlyIOException_ok _
  simp only [image]
  exact ⟨fun h location rest index rest' read => h location rest read index rest',
    fun h location rest read index rest' => h location rest index rest' read⟩

/-- The deserializer throws nothing but `IOException`s exactly if everything it meets
is in range. -/
theorem onlyIOException_convert {jvm : Jvm} {data stringTable : Bytes} :
    OnlyIOException (convert jvm data stringTable) ↔ CpdInRange jvm data stringTable := by
  rw [convert, onlyIOException_bind, Prod.forall]
  refine and_congr (onlyIOException_sized StringTable.ofList fun _ => onlyIOException_readUTF) ?_
  refine forall_congr' fun strings => forall_congr' fun rest => imp_congr_right ?_
  intro _
  rw [onlyIOException_bind]
  refine (and_iff_left fun _ _ => onlyIOException_ok _).trans ?_
  exact onlyIOException_sized id fun _ => onlyIOException_readCpdToken

end Malformed

end Cache

end SonarJS
