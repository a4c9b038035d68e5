import Mathlib.Data.List.Basic

/-!
# UTF-8 with replacement

Encoding a string and decoding arbitrary bytes. Decoding never fails: bytes that do
not start a character are replaced by U+FFFD. How many bytes one replacement stands
for differs between decoders, so it is a parameter here; nothing below depends on it.
-/

namespace Utf8

/-- The bytes of a string. -/
def encode (s : String) : List UInt8 := s.toList.flatMap String.utf8EncodeChar

/-- The character at the start of the bytes, if they start with one. -/
def decodeChar? (bytes : List UInt8) : Option Char := bytes.toByteArray.utf8DecodeChar? 0

/-- Decoding with `skip` bytes still to be left out. -/
def decodeChars (malformedLength : List UInt8 → ℕ) : (skip : ℕ) → List UInt8 → List Char
  | _, [] => []
  | skip + 1, _ :: bytes => decodeChars malformedLength skip bytes
  | 0, b :: bytes =>
    match decodeChar? (b :: bytes) with
    | some c => c :: decodeChars malformedLength (c.utf8Size - 1) bytes
    | none => '\uFFFD' :: decodeChars malformedLength (malformedLength (b :: bytes) - 1) bytes

def decode (malformedLength : List UInt8 → ℕ) (bytes : List UInt8) : String :=
  String.ofList (decodeChars malformedLength 0 bytes)

variable {malformedLength : List UInt8 → ℕ}

theorem decodeChars_append {skip : ℕ} {bytes rest : List UInt8} (h : bytes.length = skip) :
    decodeChars malformedLength skip (bytes ++ rest) = decodeChars malformedLength 0 rest := by
  induction bytes generalizing skip with
  | nil =>
      subst h
      rfl
  | cons b bytes ih =>
      subst h
      exact ih rfl

theorem decodeChar?_encode (c : Char) (rest : List UInt8) :
    decodeChar? (String.utf8EncodeChar c ++ rest) = some c := by
  rw [decodeChar?, List.toByteArray_append]
  exact ByteArray.utf8DecodeChar?_utf8EncodeChar_append

theorem decodeChars_flatMap (chars : List Char) :
    decodeChars malformedLength 0 (chars.flatMap String.utf8EncodeChar) = chars := by
  induction chars with
  | nil => rfl
  | cons c chars ih =>
      rw [List.flatMap_cons]
      have first := decodeChar?_encode c (chars.flatMap String.utf8EncodeChar)
      have length := String.length_utf8EncodeChar c
      cases bytes : String.utf8EncodeChar c with
      | nil =>
          rw [bytes, List.length_nil] at length
          exact absurd c.utf8Size_pos (by omega)
      | cons b bytes' =>
          rw [bytes, List.cons_append] at first
          rw [bytes, List.length_cons] at length
          rw [List.cons_append, decodeChars, first]
          simp only [List.cons.injEq, true_and]
          rw [decodeChars_append (by omega), ih]

/-- Decoding gives back every string that was encoded. -/
theorem decode_encode (s : String) : decode malformedLength (encode s) = s := by
  rw [decode, encode, decodeChars_flatMap, String.ofList_toList]

end Utf8
