import Mathlib.Tactic.SplitIfs
import SonarJS.Regex.CharacterClass.Ranges

/-!
# Characters without regard to case

Under the flag `i` the builder adds the ranges between the upper-case and the lower-case
forms of the ends of a range. The class then holds no other characters than those of the
elements and their forms as long as the mapped ends are in order and nothing else lies
between them.
-/

namespace SonarJS

namespace Regex

open SimplifiedRegexCharacterClass

/-- The ends of a single character or of a range. -/
def CharacterClassElement.ends : CharacterClassElement → Option (ℕ × ℕ)
  | .character value => some (value, value)
  | .characterClassRange min max => some (min, max)
  | .characterSet _ _ => none

/-- A single character or a range as a regular expression has it. -/
structure CharacterOrRange where
  element : CharacterClassElement
  start : ℕ
  stop : ℕ
  ends : element.ends = some (start, stop)
  ordered : start ≤ stop
  codePoints : stop ≤ MAX_CODE_POINT

variable {trees : PersistentTrees ℕ (Option CharacterClassElement)}
variable (mapping : CaseMapping) (flags : Flags)

/-- A code point is another one or, where case is ignored, a form of it. -/
def IsFormOf (d c : ℕ) : Prop :=
  d = c ∨ flags.ignoreCase ∧ (mapping.toUpperCase c = [d] ∨ mapping.toLowerCase c = [d])

/-- A code point belongs to the element up to case. -/
def CharacterOrRange.Covers (added : CharacterOrRange) (d : ℕ) : Prop :=
  ∃ c, added.start ≤ c ∧ c ≤ added.stop ∧ IsFormOf mapping flags d c

/-- Every code point of the class comes from one of the elements. -/
def NoPhantoms (contents : SortedMap ℕ (Option CharacterClassElement))
    (elements : List CharacterOrRange) : Prop :=
  ∀ d, d ≤ MAX_CODE_POINT → (owner contents d).isSome →
    ∃ added ∈ elements, added.Covers mapping flags d

/-- If the range is mapped, the mapped ends are in order, and between them lie only code
points of the range and their forms. -/
structure MapsToForms (added : CharacterOrRange) : Prop where
  upperOrdered : isMapped mapping flags added.start added.stop →
    mapping.upperCase added.start ≤ mapping.upperCase added.stop
  lowerOrdered : isMapped mapping flags added.start added.stop →
    mapping.lowerCase (mapping.upperCase added.start) ≤
      mapping.lowerCase (mapping.upperCase added.stop)
  upperForms : isMapped mapping flags added.start added.stop →
    ∀ d, mapping.upperCase added.start ≤ d → d ≤ mapping.upperCase added.stop →
      added.Covers mapping flags d
  lowerForms : isMapped mapping flags added.start added.stop →
    ∀ d, mapping.lowerCase (mapping.upperCase added.start) ≤ d →
      d ≤ mapping.lowerCase (mapping.upperCase added.stop) → added.Covers mapping flags d

/-- The calls of `add`, one after another. -/
def addAll (characters : SimplifiedRegexCharacterClass trees) (elements : List CharacterOrRange) :
    SimplifiedRegexCharacterClass trees :=
  elements.foldl (fun characters added => characters.add mapping added.element) characters

variable {mapping flags}

theorem add_eq (characters : SimplifiedRegexCharacterClass trees) (added : CharacterOrRange) :
    characters.add mapping added.element =
      Builder.addRange mapping characters added.start added.stop added.element := by
  obtain ⟨element, start, stop, ends, -, -⟩ := added
  cases element with
  | character value =>
      cases ends
      rfl
  | characterClassRange min max =>
      cases ends
      rfl
  | characterSet kind negate => cases ends

theorem flags_add (characters : SimplifiedRegexCharacterClass trees) (added : CharacterOrRange) :
    (characters.add mapping added.element).flags = characters.flags := by
  rw [add_eq, Builder.addRange]
  split
  · rfl
  · rfl

/-- What a step adds belongs to the new element. -/
theorem owner_add (characters : SimplifiedRegexCharacterClass trees) {added : CharacterOrRange}
    (forms : MapsToForms mapping characters.flags added) {d : ℕ} (codePoint : d ≤ MAX_CODE_POINT)
    (contained :
      (owner (trees.contents (characters.add mapping added.element).contents) d).isSome) :
    (owner (trees.contents characters.contents) d).isSome ∨
      added.Covers mapping characters.flags d := by
  rw [add_eq, Builder.addRange] at contained
  by_cases mapped : isMapped mapping characters.flags added.start added.stop = true
  case pos =>
    rw [if_pos mapped, contents_addRange _ (forms.lowerOrdered mapped),
      contents_addRange _ (forms.upperOrdered mapped)] at contained
    let upper : AddedRange CharacterClassElement :=
      ⟨mapping.upperCase added.start, mapping.upperCase added.stop, added.element,
        forms.upperOrdered mapped, mapping.upperCase_le added.codePoints⟩
    let lower : AddedRange CharacterClassElement :=
      ⟨mapping.lowerCase (mapping.upperCase added.start),
        mapping.lowerCase (mapping.upperCase added.stop), added.element,
        forms.lowerOrdered mapped,
        mapping.lowerCase_le (mapping.upperCase_le added.codePoints)⟩
    change (owner (lower.addTo (upper.addTo (trees.contents characters.contents))) d).isSome
      at contained
    obtain same | ⟨inside, -⟩ := owner_addTo lower d codePoint
    · rw [same] at contained
      obtain same | ⟨inside, -⟩ := owner_addTo upper d codePoint
      · rw [same] at contained
        exact .inl contained
      · exact .inr (forms.upperForms mapped d inside.1 inside.2)
    · exact .inr (forms.lowerForms mapped d inside.1 inside.2)
  case neg =>
    rw [if_neg mapped, contents_addRange _ added.ordered] at contained
    let range : AddedRange CharacterClassElement :=
      ⟨added.start, added.stop, added.element, added.ordered, added.codePoints⟩
    change (owner (range.addTo (trees.contents characters.contents)) d).isSome at contained
    obtain same | ⟨inside, -⟩ := owner_addTo range d codePoint
    · rw [same] at contained
      exact .inl contained
    · exact .inr ⟨d, inside.1, inside.2, .inl rfl⟩

theorem flags_addAll (characters : SimplifiedRegexCharacterClass trees)
    (elements : List CharacterOrRange) :
    (addAll mapping characters elements).flags = characters.flags := by
  induction elements generalizing characters with
  | nil => rfl
  | cons added elements ih => exact (ih _).trans (flags_add characters added)

/-- In a run whose elements map to forms of their code points, no class that is reached
holds anything else. -/
theorem noPhantoms_addAll (trees : PersistentTrees ℕ (Option CharacterClassElement))
    (mapping : CaseMapping) (flags : Flags) (elements : List CharacterOrRange)
    (forms : ∀ added ∈ elements, MapsToForms mapping flags added) :
    ∀ before, before <+: elements →
      NoPhantoms mapping flags
        (trees.contents (addAll mapping (new trees flags) before).contents) before := by
  intro before isPrefix
  induction before using List.reverseRecOn with
  | nil =>
      intro d _ contained
      change (owner (trees.contents trees.createTree) d).isSome at contained
      rw [contents_createTree] at contained
      cases contained
  | append_singleton before added ih =>
      intro d codePoint contained
      have known := @flags_addAll trees mapping (new trees flags) before
      have member := isPrefix.subset (List.mem_append_right _ (List.mem_singleton_self added))
      rw [addAll, List.foldl_append] at contained
      obtain old | covers := owner_add (addAll mapping (new trees flags) before)
        (known.symm ▸ forms added member) codePoint contained
      · obtain ⟨other, inBefore, covers⟩ :=
          ih ((List.prefix_append before [added]).trans isPrefix) d codePoint old
        exact ⟨other, List.mem_append_left _ inBefore, covers⟩
      · rw [known] at covers
        exact ⟨added, List.mem_append_right _ (List.mem_singleton_self added), covers⟩

/-! ## The letters of ASCII -/

def asciiUpper (c : ℕ) : ℕ := if 0x61 ≤ c ∧ c ≤ 0x7a then c - 0x20 else c

def asciiLower (c : ℕ) : ℕ := if 0x41 ≤ c ∧ c ≤ 0x5a then c + 0x20 else c

/-- The mapping of the characters that are mapped without the flag `u`. -/
structure CaseMapping.IsAscii (mapping : CaseMapping) : Prop where
  toUpperCase : ∀ c, isAscii c → mapping.toUpperCase c = [asciiUpper c]
  toLowerCase : ∀ c, isAscii c → mapping.toLowerCase c = [asciiLower c]

theorem CaseMapping.IsAscii.upperCase {c : ℕ} (h : mapping.IsAscii) (ascii : isAscii c) :
    mapping.upperCase c = asciiUpper c := by
  simp only [CaseMapping.upperCase, h.toUpperCase c ascii, List.head_cons]

theorem CaseMapping.IsAscii.lowerCase {c : ℕ} (h : mapping.IsAscii) (ascii : isAscii c) :
    mapping.lowerCase c = asciiLower c := by
  simp only [CaseMapping.lowerCase, h.toLowerCase c ascii, List.head_cons]

/-- What has another lower-case form than itself in upper case is a letter. -/
theorem letter_of_mapped {c : ℕ} (h : asciiLower (asciiUpper c) ≠ asciiUpper c) :
    0x41 ≤ asciiUpper c ∧ asciiUpper c ≤ 0x5a ∧
      asciiLower (asciiUpper c) = asciiUpper c + 0x20 ∧
      (c = asciiUpper c ∨ c = asciiUpper c + 0x20) := by
  have letter : 0x41 ≤ asciiUpper c ∧ asciiUpper c ≤ 0x5a := by
    by_contra other
    exact h (if_neg other)
  refine ⟨letter.1, letter.2, if_pos letter, ?_⟩
  rw [asciiUpper]
  split
  all_goals omega

theorem isAscii_iff {c : ℕ} : isAscii c ↔ c < 128 := decide_eq_true_iff

theorem isAscii_asciiUpper {c : ℕ} (ascii : isAscii c) : isAscii (asciiUpper c) := by
  rw [isAscii_iff] at ascii ⊢
  rw [asciiUpper]
  split
  all_goals omega

/-- A letter is a form of its other case. -/
theorem CaseMapping.IsAscii.isFormOf_lower (h : mapping.IsAscii) (ignoreCase : flags.ignoreCase)
    {d : ℕ} (first : 0x41 ≤ d) (last : d ≤ 0x5a) : IsFormOf mapping flags d (d + 0x20) := by
  have isForm := h.toUpperCase (d + 0x20) (isAscii_iff.2 (by omega))
  rw [asciiUpper, if_pos ⟨by omega, by omega⟩, Nat.add_sub_cancel] at isForm
  exact .inr ⟨ignoreCase, .inl isForm⟩

theorem CaseMapping.IsAscii.isFormOf_upper (h : mapping.IsAscii) (ignoreCase : flags.ignoreCase)
    {c : ℕ} (first : 0x41 ≤ c) (last : c ≤ 0x5a) : IsFormOf mapping flags (c + 0x20) c := by
  have isForm := h.toLowerCase c (isAscii_iff.2 (by omega))
  rw [asciiLower, if_pos ⟨first, last⟩] at isForm
  exact .inr ⟨ignoreCase, .inr isForm⟩

/-- Between letters, the only thing that can go wrong is the order. -/
theorem mapsToForms_iff_of_ascii (h : mapping.IsAscii) (added : CharacterOrRange)
    (ascii : isAscii added.stop) (mapped : isMapped mapping flags added.start added.stop) :
    MapsToForms mapping flags added ↔
      mapping.upperCase added.start ≤ mapping.upperCase added.stop := by
  refine ⟨fun forms => forms.upperOrdered mapped, fun inOrder => ?_⟩
  have ordered := added.ordered
  have asciiStart : isAscii added.start := by
    rw [isAscii_iff] at ascii ⊢
    omega
  have lowerCaseStart := h.lowerCase (isAscii_asciiUpper asciiStart)
  have lowerCaseStop := h.lowerCase (isAscii_asciiUpper ascii)
  rw [isMapped, Bool.and_eq_true, Bool.and_eq_true, Bool.and_eq_true, bne_iff_ne, bne_iff_ne,
    h.upperCase asciiStart, h.upperCase ascii, lowerCaseStart, lowerCaseStop] at mapped
  obtain ⟨⟨⟨ignoreCase, mappedStart⟩, mappedStop⟩, -⟩ := mapped
  rw [h.upperCase asciiStart, h.upperCase ascii] at inOrder
  obtain ⟨firstStart, lastStart, lowerStart, isStart⟩ := letter_of_mapped mappedStart
  obtain ⟨firstStop, lastStop, lowerStop, isStop⟩ := letter_of_mapped mappedStop
  constructor
  case upperOrdered =>
    intro _
    rwa [h.upperCase asciiStart, h.upperCase ascii]
  case lowerOrdered =>
    intro _
    rw [h.upperCase asciiStart, h.upperCase ascii, lowerCaseStart, lowerCaseStop, lowerStart,
      lowerStop]
    omega
  case upperForms =>
    intro _ d first last
    rw [h.upperCase asciiStart] at first
    rw [h.upperCase ascii] at last
    by_cases inside : added.start ≤ d ∧ d ≤ added.stop
    · exact ⟨d, inside.1, inside.2, .inl rfl⟩
    · have isForm := h.isFormOf_lower ignoreCase (firstStart.trans first) (last.trans lastStop)
      exact ⟨d + 0x20, by omega, by omega, isForm⟩
  case lowerForms =>
    intro _ d first last
    rw [h.upperCase asciiStart, lowerCaseStart, lowerStart] at first
    rw [h.upperCase ascii, lowerCaseStop, lowerStop] at last
    by_cases inside : added.start ≤ d ∧ d ≤ added.stop
    · exact ⟨d, inside.1, inside.2, .inl rfl⟩
    · obtain ⟨c, rfl⟩ : ∃ c, d = c + 0x20 := ⟨d - 0x20, by omega⟩
      have isForm := h.isFormOf_upper (c := c) ignoreCase (by omega) (by omega)
      exact ⟨c, by omega, by omega, isForm⟩

/-- A mapping of the letters of ASCII and of nothing else. -/
def asciiMapping : CaseMapping where
  toUpperCase c := [asciiUpper c]
  toLowerCase c := [asciiLower c]
  toUpperCase_ne_nil _ := List.cons_ne_nil _ _
  toLowerCase_ne_nil _ := List.cons_ne_nil _ _
  toUpperCase_le c h d hd := by
    obtain rfl := List.mem_singleton.mp hd
    rw [asciiUpper]
    split
    all_goals omega
  toLowerCase_le c h d hd := by
    obtain rfl := List.mem_singleton.mp hd
    rw [asciiLower, MAX_CODE_POINT]
    rw [MAX_CODE_POINT] at h
    split
    all_goals omega

theorem isAscii_asciiMapping : asciiMapping.IsAscii := ⟨fun _ _ => rfl, fun _ _ => rfl⟩

/-- A range of the code points of ASCII. -/
def asciiRange (min max : ℕ) (ordered : min ≤ max) (ascii : max < 128) : CharacterOrRange where
  element := .characterClassRange min max
  start := min
  stop := max
  ends := rfl
  ordered := ordered
  codePoints := by
    rw [MAX_CODE_POINT]
    omega

theorem noPhantoms_of_lower_case :
    NoPhantoms asciiMapping ⟨true, false⟩
      (addAll asciiMapping (new (.sortedMaps ℕ (Option CharacterClassElement)) ⟨true, false⟩)
        [asciiRange 0x61 0x63 (by decide) (by decide)]).contents
      [asciiRange 0x61 0x63 (by decide) (by decide)] := by
  apply noPhantoms_addAll (.sortedMaps ℕ (Option CharacterClassElement)) asciiMapping
    ⟨true, false⟩ [asciiRange 0x61 0x63 (by decide) (by decide)] ?_ _ (List.prefix_refl _)
  intro added member
  obtain rfl := List.mem_singleton.mp member
  exact (mapsToForms_iff_of_ascii isAscii_asciiMapping _ (by decide) (by decide)).mpr (by decide)

/-- From the last upper-case letter to the first lower-case letter: the mapped ranges begin
after their ends, and all that follows comes into the class. -/
theorem phantoms_between_cases :
    ¬ NoPhantoms asciiMapping ⟨true, false⟩
      (addAll asciiMapping (new (.sortedMaps ℕ (Option CharacterClassElement)) ⟨true, false⟩)
        [asciiRange 0x5a 0x61 (by decide) (by decide)]).contents
      [asciiRange 0x5a 0x61 (by decide) (by decide)] := by
  intro noPhantoms
  obtain ⟨added, member, c, first, last, isForm⟩ :=
    noPhantoms 0x7c (by decide) (by decide)
  obtain rfl := List.mem_singleton.mp member
  have first : 0x5a ≤ c := first
  have last : c ≤ 0x61 := last
  obtain same | ⟨-, upper | lower⟩ := isForm
  · omega
  · have upper : asciiUpper c = 0x7c := (List.cons.inj upper).1
    rw [asciiUpper] at upper
    split at upper
    all_goals omega
  · have lower : asciiLower c = 0x7c := (List.cons.inj lower).1
    rw [asciiLower] at lower
    split at lower
    all_goals omega

end Regex

end SonarJS
