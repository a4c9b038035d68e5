import Mathlib.Data.List.Basic
import Mathlib.Data.List.Induction
import Mathlib.Tactic.Common

/-!
# Parts with separators between them

A list that is made of parts with one separator between two of them. Around one part, there are
parts that are followed by a separator, and parts that follow one.
-/

namespace Separated

variable {α : Type*} (separator : α)

/-- Parts that others come behind. -/
def leading (parts : List (List α)) : List α := parts.flatMap (· ++ [separator])

/-- Parts that come behind others. -/
def following (parts : List (List α)) : List α := parts.flatMap (separator :: ·)

def join : List (List α) → List α
  | [] => []
  | part :: parts => part ++ following separator parts

variable {separator} {part : List α} {parts before behind : List (List α)}

@[simp]
theorem leading_nil : leading separator [] = [] := rfl

@[simp]
theorem following_nil : following separator [] = [] := rfl

@[simp]
theorem join_nil : join separator [] = [] := rfl

@[simp]
theorem join_cons : join separator (part :: parts) = part ++ following separator parts := rfl

@[simp]
theorem leading_cons :
    leading separator (part :: parts) = part ++ separator :: leading separator parts := by
  simp [leading]

@[simp]
theorem following_cons :
    following separator (part :: parts) = separator :: part ++ following separator parts := by
  simp [following]

@[simp]
theorem leading_append :
    leading separator (before ++ behind) =
      leading separator before ++ leading separator behind := List.flatMap_append

@[simp]
theorem following_append :
    following separator (before ++ behind) =
      following separator before ++ following separator behind := List.flatMap_append

/-- Around a part. -/
theorem join_append_cons : join separator (before ++ part :: behind) =
    leading separator before ++ part ++ following separator behind := by
  cases before with
  | nil => simp
  | cons first before =>
      rw [List.cons_append, join_cons]
      induction before generalizing first with
      | nil => simp
      | cons next before ih => simpa using ih next

theorem mem_join {a : α} (inParts : part ∈ parts) (inPart : a ∈ part) :
    a ∈ join separator parts := by
  obtain ⟨before, behind, rfl⟩ := List.append_of_mem inParts
  rw [join_append_cons]
  exact List.mem_append_left _ (List.mem_append_right _ inPart)

/-- Behind the parts there is one more separator than between them. -/
theorem leading_eq_join (some : parts ≠ []) :
    leading separator parts = join separator parts ++ [separator] := by
  obtain rfl | ⟨before, last, rfl⟩ := List.eq_nil_or_concat' parts
  · exact absurd rfl some
  · simp [join_append_cons]

/-- In front of the parts there is one more separator than between them. -/
theorem following_eq_join (some : parts ≠ []) :
    following separator parts = separator :: join separator parts := by
  cases parts with
  | nil => exact absurd rfl some
  | cons first parts => simp

end Separated
