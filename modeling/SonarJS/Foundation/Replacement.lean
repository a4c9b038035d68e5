import Mathlib.Data.List.Basic
import Mathlib.Data.List.Infix
import Mathlib.Data.Nat.Find
import Mathlib.Tactic.Common

/-!
# Finding and replacing in a text

The first match of a pattern, and the replacement of the first occurrence of a text. What
is replaced is seldom all there is: to say which occurrence it is, the texts are assumed
to be bracketed. Two bracketed texts in one text are the same or apart.
-/

namespace Replacement

variable {α β : Type}

/-! ## The first match -/

def firstMatch (pattern : List α → Option β) : List α → Option β
  | [] => pattern []
  | c :: text => (pattern (c :: text)).or (firstMatch pattern text)

/-- No match goes over a character at which the pattern stops. -/
theorem firstMatch_append {pattern : List α → Option β} {stop : α}
    (stops : ∀ before after, pattern (before ++ stop :: after) = pattern before)
    (before after : List α) :
    firstMatch pattern (before ++ stop :: after) =
      (firstMatch pattern before).or (firstMatch pattern after) := by
  induction before with
  | nil =>
      have here := stops [] after
      rw [List.nil_append] at here
      simp only [List.nil_append, firstMatch, here]
  | cons c before ih =>
      have here := stops (c :: before) after
      rw [List.cons_append] at here
      simp only [List.cons_append, firstMatch, here, ih, Option.or_assoc]

theorem firstMatch_of_head {pattern : List α → Option β} {text : List α} {found : β}
    (h : pattern text = some found) : firstMatch pattern text = some found := by
  cases text with
  | nil => exact h
  | cons c text => rw [firstMatch, h, Option.some_or]

theorem exists_of_firstMatch {pattern : List α → Option β} {text : List α} {found : β}
    (h : firstMatch pattern text = some found) : ∃ rest, pattern rest = some found := by
  induction text with
  | nil => exact ⟨[], h⟩
  | cons c text ih =>
      obtain here | ⟨-, later⟩ := Option.or_eq_some_iff.mp h
      · exact ⟨c :: text, here⟩
      · exact ih later

section Stop

variable {p : α → Bool} {stop : α} (stops : p stop = false)

include stops

theorem takeWhile_append_stop (before after : List α) :
    (before ++ stop :: after).takeWhile p = before.takeWhile p := by
  induction before with
  | nil => simp [stops]
  | cons c before ih =>
      rw [List.cons_append, List.takeWhile_cons, List.takeWhile_cons, ih]

theorem dropWhile_append_stop (before after : List α) :
    (before ++ stop :: after).dropWhile p = before.dropWhile p ++ stop :: after := by
  induction before with
  | nil => simp [stops]
  | cons c before ih =>
      rw [List.cons_append, List.dropWhile_cons, List.dropWhile_cons, ih]
      split <;> rfl

end Stop

/-! ## The first occurrence -/

section Replace

variable [BEq α] [LawfulBEq α] {pattern replacement text : List α}

def replaceFirst (pattern replacement text : List α) : List α :=
  match text.dropInfix? pattern with
  | some (before, after) => before ++ replacement ++ after
  | none => text

/-- There is no occurrence, or the text before the one replaced is as short as possible. -/
theorem replaceFirst_spec (pattern replacement text : List α) :
    (¬ pattern <:+: text ∧ replaceFirst pattern replacement text = text) ∨
      ∃ before after, text = before ++ pattern ++ after ∧
        replaceFirst pattern replacement text = before ++ replacement ++ after ∧
        ∀ before' after', text = before' ++ pattern ++ after' →
          before.length ≤ before'.length := by
  by_cases occurs : pattern <:+: text
  · -- The occurrence with the shortest text before it is the one that is found.
    have lengths : ∃ n, ∃ before after, before ++ pattern ++ after = text ∧
        before.length = n := by
      obtain ⟨before, after, split⟩ := occurs
      exact ⟨before.length, before, after, split, rfl⟩
    classical
    obtain ⟨before, after, split, length⟩ := Nat.find_spec lengths
    have shortest (before' after' : List α) (split' : text = before' ++ pattern ++ after') :
        before.length ≤ before'.length := by
      rw [length]
      exact Nat.find_min' lengths ⟨before', after', split'.symm, rfl⟩
    have found : text.dropInfix? pattern = some (before, after) := by
      refine List.dropInfix?_eq_some_iff.mpr ⟨⟨pattern, split.symm, BEq.rfl⟩, ?_⟩
      intro before' pattern' after' split' same
      obtain rfl := eq_of_beq same
      exact shortest before' after' split'
    exact .inr ⟨before, after, split.symm, by rw [replaceFirst, found], shortest⟩
  · refine .inl ⟨occurs, ?_⟩
    have none : text.dropInfix? pattern = none := by
      apply Option.eq_none_iff_forall_ne_some.mpr
      intro parts found
      obtain ⟨⟨pattern', split, same⟩, -⟩ := List.dropInfix?_eq_some_iff.mp found
      obtain rfl := eq_of_beq same
      exact occurs ⟨parts.1, parts.2, split.symm⟩
    rw [replaceFirst, none]

end Replace

/-! ## Bracketed texts -/

/-- A character that two texts do not have separates them from what follows. -/
theorem append_cons_inj {separator : α} {a b after after' : List α} (notInA : separator ∉ a)
    (notInB : separator ∉ b) (same : a ++ separator :: after = b ++ separator :: after') :
    a = b ∧ after = after' := by
  obtain ⟨more, rfl, rest⟩ | ⟨more, rfl, rest⟩ := List.append_eq_append_iff.mp same
  · cases more with
    | nil => simpa using rest
    | cons c more =>
        obtain ⟨rfl, -⟩ := List.cons_eq_cons.mp rest
        exact absurd (by simp) notInB
  · cases more with
    | nil => simpa [eq_comm] using rest
    | cons c more =>
        obtain ⟨rfl, -⟩ := List.cons_eq_cons.mp rest
        exact absurd (by simp) notInA

/-- A text between two brackets, without any of them inside. -/
def Bracketed (left right : α) (text : List α) : Prop :=
  ∃ body, text = left :: body ++ [right] ∧ left ∉ body ∧ right ∉ body

namespace Bracketed

variable {left right : α} {a b : List α}

theorem head (bracketed : Bracketed left right a) : a[0]? = some left := by
  obtain ⟨body, rfl, -, -⟩ := bracketed
  rfl

theorem length_pos (bracketed : Bracketed left right a) : 0 < a.length := by
  obtain ⟨body, rfl, -, -⟩ := bracketed
  simp

theorem not_left (distinct : left ≠ right) (bracketed : Bracketed left right a) {j : ℕ}
    (pos : 0 < j) : a[j]? ≠ some left := by
  obtain ⟨body, rfl, noLeft, -⟩ := bracketed
  obtain ⟨j, rfl⟩ := Nat.exists_eq_succ_of_ne_zero (Nat.ne_of_gt pos)
  intro here
  rw [List.cons_append, List.getElem?_cons_succ] at here
  have member := List.mem_of_getElem? here
  obtain inside | last := List.mem_append.mp member
  · exact noLeft inside
  · exact distinct (List.mem_singleton.mp last)

/-- The first right bracket ends the text. -/
theorem append_inj (bracketed : Bracketed left right a) (bracketed' : Bracketed left right b)
    {after after' : List α} (same : a ++ after = b ++ after') : a = b ∧ after = after' := by
  obtain ⟨body, rfl, -, noRight⟩ := bracketed
  obtain ⟨body', rfl, -, noRight'⟩ := bracketed'
  have inner : body ++ right :: after = body' ++ right :: after' := by
    simpa using same
  obtain ⟨rfl, rfl⟩ := append_cons_inj noRight noRight' inner
  exact ⟨rfl, rfl⟩

/-- Two bracketed texts in one text are the same or apart. -/
theorem apart (distinct : left ≠ right) (bracketed : Bracketed left right a)
    (bracketed' : Bracketed left right b) {before after before' after' : List α}
    (same : before ++ a ++ after = before' ++ b ++ after')
    (le : before.length ≤ before'.length) :
    before = before' ∨ ∃ between, before' = before ++ a ++ between := by
  rw [List.append_assoc, List.append_assoc] at same
  obtain ⟨rest, rfl⟩ : before <+: before' :=
    List.prefix_of_prefix_length_le ⟨_, same⟩ ⟨_, rfl⟩ le
  rw [List.append_assoc, List.append_cancel_left_eq] at same
  obtain rfl | nonempty := eq_or_ne rest []
  · exact .inl (List.append_nil before).symm
  · -- The left bracket of the second text is not in the first one.
    have pos : 0 < rest.length := List.length_pos_iff.mpr nonempty
    have outside : a.length ≤ rest.length := by
      by_contra inside
      have opening : (rest ++ (b ++ after'))[rest.length]? = some left := by
        rw [List.getElem?_append_right (Nat.le_refl _), Nat.sub_self,
          List.getElem?_append_left bracketed'.length_pos, bracketed'.head]
      rw [← same, List.getElem?_append_left (by omega)] at opening
      exact bracketed.not_left distinct pos opening
    obtain ⟨between, rfl⟩ : a <+: rest :=
      List.prefix_of_prefix_length_le ⟨_, same⟩ ⟨_, rfl⟩ outside
    exact .inr ⟨between, (List.append_assoc before a between).symm⟩

/-- What comes first is the same where two texts differ only from a later bracket on. -/
theorem eq_of_lt (distinct : left ≠ right) {a' b' before before' after after' last last' : List α}
    (isA : Bracketed left right a) (isB : Bracketed left right b)
    (isA' : Bracketed left right a') (isB' : Bracketed left right b')
    (same : before ++ a ++ after = before' ++ b ++ after')
    (same' : before ++ a' ++ last = before' ++ b' ++ last')
    (lt : before.length < before'.length) : a = a' := by
  obtain rfl | ⟨between, split⟩ := isA.apart distinct isB same (Nat.le_of_lt lt)
  · exact absurd lt (Nat.lt_irrefl _)
  · obtain rfl | ⟨between', split'⟩ := isA'.apart distinct isB' same' (Nat.le_of_lt lt)
    · exact absurd lt (Nat.lt_irrefl _)
    · rw [split, List.append_assoc, List.append_assoc, List.append_cancel_left_eq] at split'
      exact (isA.append_inj isA' split').1

end Bracketed

/-- Replacing the first occurrence of a bracketed text changes one bracketed text into
another exactly if it replaces that one. -/
theorem replaceFirst_eq_iff [BEq α] [LawfulBEq α] {left right : α} (distinct : left ≠ right)
    {pattern replacement a b : List α} (isPattern : Bracketed left right pattern)
    (isReplacement : Bracketed left right replacement) (isOld : Bracketed left right a)
    (isNew : Bracketed left right b) (changed : a ≠ b) (before after : List α) :
    replaceFirst pattern replacement (before ++ a ++ after) = before ++ b ++ after ↔
      pattern = a ∧ replacement = b ∧ ¬ a <:+: before := by
  obtain ⟨absent, kept⟩ | ⟨front, back, split, replaced, shortest⟩ :=
    replaceFirst_spec pattern replacement (before ++ a ++ after)
  · refine iff_of_false ?_ ?_
    · rw [kept]
      simpa using changed
    · rintro ⟨rfl, -, -⟩
      exact absent ⟨before, after, rfl⟩
  · rw [replaced]
    constructor
    · intro result
      have different : pattern ≠ replacement := by
        rintro rfl
        rw [← split] at result
        exact changed (by simpa using result)
      obtain lt | eq | gt := Nat.lt_trichotomy front.length before.length
      · exact absurd (isPattern.eq_of_lt distinct isOld isReplacement isNew split.symm result lt)
          different
      · have splitAll : before ++ (a ++ after) = front ++ (pattern ++ back) := by simpa using split
        have resultAll : front ++ (replacement ++ back) = before ++ (b ++ after) := by
          simpa using result
        obtain ⟨rfl, found⟩ := List.append_inj splitAll eq.symm
        obtain ⟨rfl, rfl⟩ := isOld.append_inj isPattern found
        obtain ⟨rfl, -⟩ :=
          isReplacement.append_inj isNew (List.append_cancel_left resultAll)
        refine ⟨rfl, rfl, ?_⟩
        rintro ⟨front', between, earlier⟩
        have pos : 0 < a.length := isOld.length_pos
        have least := shortest front' (between ++ a ++ after) (by simp [← earlier])
        have length := congrArg List.length earlier
        simp only [List.length_append] at length
        omega
      · exact absurd (isOld.eq_of_lt distinct isPattern isNew isReplacement split result.symm gt)
          changed
    · rintro ⟨rfl, rfl, fresh⟩
      have least := shortest before after rfl
      obtain rfl | ⟨between, earlier⟩ := isPattern.apart distinct isOld split.symm least
      · rw [List.append_assoc, List.append_assoc, List.append_cancel_left_eq] at split
        obtain ⟨-, rfl⟩ := isOld.append_inj isPattern split
        rfl
      · exact absurd ⟨front, between, earlier.symm⟩ fresh

end Replacement
