import SonarJS.Foundation.Utf8
import Mathlib.Data.Nat.Bitwise

/-!
# Variable-length streams

`VarLengthOutputStream` and `VarLengthInputStream`. Integers are written in groups
of seven bits, lowest group first, each but the last one marked by its high bit.
Strings are written as their UTF-8 length and their UTF-8 bytes.

Reading works on arbitrary bytes. What can be thrown while reading is made explicit,
since the callers only catch `IOException`: a negative length cannot be allocated,
and a length beyond what the virtual machine can allocate runs out of memory.
-/

namespace SonarJS

namespace Cache

abbrev Bytes := List UInt8

/-- What the code under the cache strategies can throw. -/
inductive Throwable
  | ioException (message : String)
  | eofException
  | negativeArraySizeException
  | illegalArgumentException
  | indexOutOfBoundsException
  | invalidPathException
  | jsonParseException
  | nullPointerException
  | uncheckedIOException
  | outOfMemoryError
deriving DecidableEq, Repr

/-- The throwables that `catch (IOException e)` catches. -/
def Throwable.isIOException : Throwable → Bool
  | .ioException _ => true
  | .eofException => true
  | _ => false

/-- What depends on the virtual machine: the length of the longest array that can be
allocated, and how much malformed input one replacement character stands for. -/
structure Jvm where
  maxArray : ℕ
  malformedLength : Bytes → ℕ
  maxArray_lt : maxArray < 2 ^ 31
  three_le_maxArray : 3 ≤ maxArray

namespace Jvm

variable (jvm : Jvm)

/-- `new byte[length]`. -/
def newArray (length : BitVec 32) : Except Throwable ℕ :=
  if length.toInt < 0 then .error .negativeArraySizeException
  else if jvm.maxArray < length.toNat then .error .outOfMemoryError
  else .ok length.toNat

/-- `new ArrayList<>(initialCapacity)`. -/
def newArrayList (initialCapacity : BitVec 32) : Except Throwable ℕ :=
  if initialCapacity.toInt < 0 then .error .illegalArgumentException
  else if jvm.maxArray < initialCapacity.toNat then .error .outOfMemoryError
  else .ok initialCapacity.toNat

end Jvm

/-! ## Writing -/

/-- The byte of a group: seven bits, and the mark that another byte follows. -/
def groupByte (bits : BitVec 32) (more : Bool) : UInt8 :=
  UInt8.ofBitVec ((bits + if more then 0x80#32 else 0#32).truncate 8)

/-- `VarLengthOutputStream.writeInt`. -/
def writeInt (value : BitVec 32) : Bytes :=
  let bits := value &&& 0x7F#32
  let rest := value >>> 7
  if rest ≠ 0 then groupByte bits true :: writeInt rest else [groupByte bits false]
termination_by value.toNat
decreasing_by
  rename_i nonzero
  have positive : (value >>> 7).toNat ≠ 0 := fun zero => nonzero (BitVec.eq_of_toNat_eq zero)
  rw [BitVec.toNat_ushiftRight, Nat.shiftRight_eq_div_pow] at positive ⊢
  omega

/-- `VarLengthOutputStream.writeUTF`. -/
def writeUTF (string : String) : Bytes :=
  writeInt (BitVec.ofNat 32 (Utf8.encode string).length) ++ Utf8.encode string

/-! ## Reading -/

/-- Reading from a stream: the value and the bytes that are left. -/
abbrev Reader (α : Type) := StateT Bytes (Except Throwable) α

/-- The loop of `VarLengthInputStream.readInt`. Java shifts by the distance modulo
32, and bytes are sign-extended. -/
def readIntLoop (result : BitVec 32) (shift : ℕ) : Bytes → Except Throwable (BitVec 32 × Bytes)
  | [] => .error .eofException
  | byte :: bytes =>
    let b := byte.toBitVec.signExtend 32
    let result := result ||| ((b &&& 0x7F#32) <<< (shift % 32))
    if b &&& 0x80#32 ≠ 0 then readIntLoop result (shift + 7) bytes else .ok (result, bytes)

/-- `VarLengthInputStream.readInt`. -/
def readInt : Reader (BitVec 32) := readIntLoop 0#32 0

/-- `DataInputStream.readFully`. -/
def readFully (length : ℕ) : Reader Bytes := fun bytes =>
  if bytes.length < length then .error .eofException
  else .ok (bytes.take length, bytes.drop length)

/-- `VarLengthInputStream.readUTF`. -/
def readUTF (jvm : Jvm) : Reader String := do
  let length ← readInt
  let length ← jvm.newArray length
  let bytes ← readFully length
  return Utf8.decode jvm.malformedLength bytes

/-! ## Round trips -/

theorem and_eq_setWidth (value : BitVec 32) :
    value &&& 0x7F#32 = (value.setWidth 7).setWidth 32 := by
  ext i hi
  have bit : (0x7F#32)[i] = decide (i < 7) := by
    revert i
    decide
  rw [BitVec.getElem_and, bit]
  by_cases low : i < 7 <;> simp [low, BitVec.getLsbD_eq_getElem hi]

/-- The seven bits and the mark of a group are read back from its byte. -/
theorem groupByte_signExtend (value : BitVec 32) (more : Bool) :
    (groupByte (value &&& 0x7F#32) more).toBitVec.signExtend 32 &&& 0x7F#32 = value &&& 0x7F#32 ∧
      ((groupByte (value &&& 0x7F#32) more).toBitVec.signExtend 32 &&& 0x80#32 ≠ 0 ↔
        more = true) := by
  rw [and_eq_setWidth value]
  generalize value.setWidth 7 = low
  revert low more
  decide

/-- One group and the groups above it make up the value. -/
theorem groups_or (value : BitVec 32) (shift : ℕ) :
    (value &&& 0x7F#32) <<< shift ||| (value >>> 7) <<< (shift + 7) = value <<< shift := by
  ext i hi
  rw [and_eq_setWidth]
  simp only [BitVec.getElem_or, BitVec.getElem_shiftLeft, BitVec.getElem_setWidth,
    BitVec.getLsbD_setWidth, BitVec.getElem_ushiftRight]
  by_cases below : i < shift
  · simp [below, show i < shift + 7 by omega]
  · by_cases low : i < shift + 7
    · simp only [below, low, show i - shift < 7 by omega, decide_true, decide_false, Bool.not_false,
        Bool.not_true, Bool.true_and, Bool.false_and, Bool.or_false]
      exact BitVec.getLsbD_eq_getElem _
    · simp only [below, low, show ¬ i - shift < 7 by omega, decide_false, Bool.not_false,
        Bool.true_and, Bool.false_and, Bool.false_or]
      rw [show 7 + (i - (shift + 7)) = i - shift by omega]
      exact BitVec.getLsbD_eq_getElem _

theorem ushiftRight_lt {value : BitVec 32} {shift : ℕ} (small : value.toNat < 2 ^ (32 - shift))
    (nonzero : value >>> 7 ≠ 0) :
    shift + 7 < 32 ∧ (value >>> 7).toNat < 2 ^ (32 - (shift + 7)) := by
  have large : 2 ^ 7 ≤ value.toNat := by
    by_contra lt
    refine nonzero (BitVec.eq_of_toNat_eq ?_)
    rw [BitVec.toNat_ushiftRight, Nat.shiftRight_eq_div_pow, Nat.div_eq_of_lt (Nat.not_le.mp lt)]
    rfl
  have shifts : shift + 7 < 32 := by
    have := (Nat.pow_lt_pow_iff_right (by decide : 1 < 2)).mp (large.trans_lt small)
    omega
  refine ⟨shifts, ?_⟩
  rw [BitVec.toNat_ushiftRight, Nat.shiftRight_eq_div_pow, Nat.div_lt_iff_lt_mul (by decide),
    ← Nat.pow_add]
  convert small using 2
  omega

/-- The invariant of the loop: what has been read so far, and the rest of the value
above it, which still fits. -/
theorem readIntLoop_writeInt (value result : BitVec 32) {shift : ℕ} (rest : Bytes)
    (lt : shift < 32) (small : value.toNat < 2 ^ (32 - shift)) :
    readIntLoop result shift (writeInt value ++ rest) = .ok (result ||| value <<< shift, rest) := by
  induction value using writeInt.induct generalizing result shift with
  | case1 value _ nonzero ih =>
      obtain ⟨bits, mark⟩ := groupByte_signExtend value true
      obtain ⟨lt', small'⟩ := ushiftRight_lt small nonzero
      rw [writeInt, if_pos nonzero, List.cons_append, readIntLoop, if_pos (mark.mpr rfl), bits,
        Nat.mod_eq_of_lt lt, ih _ lt' small', BitVec.or_assoc, groups_or]
  | case2 value _ zero =>
      obtain ⟨bits, mark⟩ := groupByte_signExtend value false
      have whole : (value &&& 0x7F#32) <<< shift = value <<< shift := by
        have none : value >>> 7 = 0#32 := not_not.mp zero
        have groups := groups_or value shift
        rwa [none, BitVec.zero_shiftLeft, BitVec.or_zero] at groups
      rw [writeInt, if_neg zero, List.singleton_append, readIntLoop,
        if_neg (fun marked => Bool.false_ne_true (mark.mp marked)), bits, Nat.mod_eq_of_lt lt,
        whole]

/-- An integer is read back, and the bytes after it are left. -/
theorem readInt_writeInt (value : BitVec 32) (rest : Bytes) :
    readInt (writeInt value ++ rest) = .ok (value, rest) := by
  rw [readInt, readIntLoop_writeInt value 0#32 rest (by decide) value.isLt, BitVec.shiftLeft_zero,
    BitVec.zero_or]

theorem toNat_ofNat_of_lt {n : ℕ} (lt : n < 2 ^ 31) : (BitVec.ofNat 32 n).toNat = n := by
  rw [BitVec.toNat_ofNat]
  omega

theorem toInt_ofNat_nonneg {n : ℕ} (lt : n < 2 ^ 31) : ¬ (BitVec.ofNat 32 n).toInt < 0 := by
  rw [BitVec.toInt_eq_toNat_of_lt (by rw [toNat_ofNat_of_lt lt]; omega)]
  omega

theorem Jvm.newArray_ofNat (jvm : Jvm) {n : ℕ} (le : n ≤ jvm.maxArray) :
    jvm.newArray (BitVec.ofNat 32 n) = .ok n := by
  have lt : n < 2 ^ 31 := le.trans_lt jvm.maxArray_lt
  rw [newArray, if_neg (toInt_ofNat_nonneg lt), toNat_ofNat_of_lt lt, if_neg (Nat.not_lt.mpr le)]

theorem Jvm.newArrayList_ofNat (jvm : Jvm) {n : ℕ} (le : n ≤ jvm.maxArray) :
    jvm.newArrayList (BitVec.ofNat 32 n) = .ok n := by
  have lt : n < 2 ^ 31 := le.trans_lt jvm.maxArray_lt
  rw [newArrayList, if_neg (toInt_ofNat_nonneg lt), toNat_ofNat_of_lt lt,
    if_neg (Nat.not_lt.mpr le)]

theorem readFully_append (bytes rest : Bytes) :
    readFully bytes.length (bytes ++ rest) = .ok (bytes, rest) := by
  rw [readFully, if_neg (by simp), List.take_left, List.drop_left]

/-- A reader that succeeds hands its value and the rest on. -/
theorem Reader.bind_ok {α β : Type} {reader : Reader α} {next : α → Reader β} {bytes rest : Bytes}
    {a : α} (h : reader bytes = .ok (a, rest)) : (reader >>= next) bytes = next a rest := by
  change (reader bytes >>= fun p => next p.1 p.2) = _
  rw [h]
  rfl

/-- A string whose bytes fit into an array is read back. -/
theorem readUTF_writeUTF (jvm : Jvm) {string : String}
    (le : (Utf8.encode string).length ≤ jvm.maxArray) (rest : Bytes) :
    readUTF jvm (writeUTF string ++ rest) = .ok (string, rest) := by
  have allocated (bytes : Bytes) :
      (jvm.newArray (BitVec.ofNat 32 (Utf8.encode string).length) : Reader ℕ) bytes =
        .ok ((Utf8.encode string).length, bytes) := by
    rw [jvm.newArray_ofNat le]
    rfl
  rw [writeUTF, List.append_assoc, readUTF, Reader.bind_ok (readInt_writeInt _ _),
    Reader.bind_ok (allocated _), Reader.bind_ok (readFully_append _ rest), Utf8.decode_encode]
  rfl

end Cache

end SonarJS
