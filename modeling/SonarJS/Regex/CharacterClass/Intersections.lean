import SonarJS.Regex.CharacterClass.Ranges

/-!
# The intersections of two character classes

The entries of a class divide its code points into intervals. `findIntersections` goes
through the intervals of one class and asks the other whether it has an entry there, where
the code points that are asked for include the end of the interval if another interval
follows at once. No element that has a code point in the other class is missed. An element
is found in vain where what the other class has is only the start of a gap, or only what
stands at the end of the interval.
-/

namespace SonarJS

namespace Regex

namespace SimplifiedRegexCharacterClass

variable {N : Type} {trees : PersistentTrees ℕ (Option N)}

/-- The code points of an element from one entry up to the next. -/
structure Interval (N : Type) where
  key : ℕ
  element : N
  limit : ℕ
  /-- Another interval follows at once. -/
  touches : Bool

def intervalsOf : List (ℕ × Option N) → List (Interval N)
  | [] => []
  | [(key, value)] => value.toList.map fun element => ⟨key, element, MAX_CODE_POINT + 1, false⟩
  | (key, value) :: (nextKey, nextValue) :: rest =>
    (value.toList.map fun element => ⟨key, element, nextKey, nextValue.isSome⟩) ++
      intervalsOf ((nextKey, nextValue) :: rest)

def intervals (contents : SortedMap ℕ (Option N)) : List (Interval N) :=
  intervalsOf contents.entries

namespace Interval

variable (interval : Interval N)

def Contains (c : ℕ) : Prop := interval.key ≤ c ∧ c < interval.limit

/-- The last code point that is asked for. -/
def scanned : ℕ := if interval.touches then interval.limit else interval.limit - 1

/-- A code point of the interval is in the class. -/
def Meets (contents : SortedMap ℕ (Option N)) : Prop :=
  (owner contents interval.key).isSome ∨
    ∃ entry ∈ contents.entries, interval.Contains entry.1 ∧ entry.2.isSome

/-- All that the class has in the interval are starts of gaps, and there is one of them,
or an entry where the next interval follows at once. -/
def Misleads (contents : SortedMap ℕ (Option N)) : Prop :=
  ¬ interval.Meets contents ∧ ∃ entry ∈ contents.entries, interval.key < entry.1 ∧
    (entry.1 < interval.limit ∨ interval.touches ∧ entry.1 = interval.limit)

end Interval

/-- An element of the second class has a code point in the first. -/
def Overlaps (contents that : SortedMap ℕ (Option N)) (element : N) : Prop :=
  ∃ c, c ≤ MAX_CODE_POINT ∧ owner that c = some element ∧ (owner contents c).isSome

/-! ## The intervals of a class -/

theorem intersectionsFrom_eq (characters : SimplifiedRegexCharacterClass trees)
    (entries : List (ℕ × Option N)) : characters.intersectionsFrom entries =
      ((intervalsOf entries).filter fun interval =>
        characters.hasEntryBetween interval.key interval.scanned).map Interval.element := by
  induction entries using intervalsOf.induct with
  | case1 => rfl
  | case2 key value =>
      cases value with
      | none => rfl
      | some element =>
          show _ = (List.filter _ [_]).map _
          rw [List.filter_cons, intersectionsFrom]
          show ite (characters.hasEntryBetween key MAX_CODE_POINT = true) _ _ =
            List.map _ (ite (characters.hasEntryBetween key MAX_CODE_POINT = true) _ _)
          split
          · rfl
          · rfl
  | case3 key value nextKey nextValue rest ih =>
      cases value with
      | none => exact ih
      | some element =>
          show _ = (List.filter _ (_ :: _)).map _
          rw [List.filter_cons, intersectionsFrom, ih]
          dsimp only [Interval.scanned]
          by_cases found : characters.hasEntryBetween key
              (if nextValue.isSome then nextKey else nextKey - 1) = true
          · simp only [found, if_true]
            rfl
          · simp only [found]
            rfl

theorem mem_intervalsOf_cons {key nextKey : ℕ} {value nextValue : Option N}
    {rest : List (ℕ × Option N)} {interval : Interval N} :
    interval ∈ intervalsOf ((key, value) :: (nextKey, nextValue) :: rest) ↔
      (∃ element, value = some element ∧
        interval = ⟨key, element, nextKey, nextValue.isSome⟩) ∨
      interval ∈ intervalsOf ((nextKey, nextValue) :: rest) := by
  rw [intervalsOf, List.mem_append, List.mem_map]
  simp only [Option.mem_toList, eq_comm]

/-- Where the first entry is too late, all are. -/
theorem filter_le_eq_nil {entry : ℕ × Option N} {rest : List (ℕ × Option N)} {c : ℕ}
    (sorted : (entry :: rest).Pairwise fun e e' => e.1 < e'.1) (later : ¬ entry.1 ≤ c) :
    (entry :: rest).filter (fun e => e.1 ≤ c) = [] := by
  rw [List.filter_eq_nil_iff]
  intro e he
  rw [decide_eq_true_eq]
  obtain rfl | he := List.mem_cons.mp he
  · exact later
  · have := (List.pairwise_cons.mp sorted).1 e he
    omega

/-- The code points of an element are those of its intervals. -/
theorem owner_eq_some_iff_exists_interval {entries : List (ℕ × Option N)}
    (sorted : entries.Pairwise fun e e' => e.1 < e'.1) {c : ℕ} (codePoint : c ≤ MAX_CODE_POINT)
    {element : N} : owner ⟨entries, sorted⟩ c = some element ↔
      ∃ interval ∈ intervalsOf entries, interval.element = element ∧ interval.Contains c := by
  rw [owner, SortedMap.le]
  dsimp only
  induction entries using intervalsOf.induct with
  | case1 => simp [intervalsOf]
  | case2 key value =>
      have within : c < MAX_CODE_POINT + 1 := by omega
      by_cases reached : key ≤ c
      · simp [intervalsOf, reached, Interval.Contains, within, eq_comm]
      · simp [intervalsOf, reached, Interval.Contains]
  | case3 key value nextKey nextValue rest ih =>
      obtain ⟨first, tail⟩ := List.pairwise_cons.mp sorted
      specialize ih tail
      by_cases later : nextKey ≤ c
      case pos =>
        -- a later entry holds
        have before : key ≤ c := (first _ List.mem_cons_self).le.trans later
        rw [List.filter_cons_of_pos (by simpa using before),
          List.filter_cons_of_pos (by simpa using later), List.getLast?_cons_cons,
          ← List.filter_cons_of_pos (by simpa using later), ih]
        constructor
        · rintro ⟨interval, member, isElement, contains⟩
          exact ⟨interval, mem_intervalsOf_cons.2 (.inr member), isElement, contains⟩
        · rintro ⟨interval, member, isElement, contains⟩
          obtain ⟨_, -, rfl⟩ | member := mem_intervalsOf_cons.1 member
          · exact absurd contains.2 (by simpa using later)
          · exact ⟨interval, member, isElement, contains⟩
      case neg =>
        have none_later := filter_le_eq_nil tail later
        rw [none_later] at ih
        rw [List.filter_cons, none_later]
        constructor
        · intro owned
          split at owned
          case isTrue before =>
            have before : key ≤ c := by simpa using before
            refine ⟨⟨key, element, nextKey, nextValue.isSome⟩,
              mem_intervalsOf_cons.2 (.inl ⟨element, owned, rfl⟩), rfl, before,
              not_le.mp later⟩
          case isFalse => cases owned
        · rintro ⟨interval, member, isElement, contains⟩
          obtain ⟨_, rfl, rfl⟩ | member := mem_intervalsOf_cons.1 member
          · cases isElement
            rw [if_pos (by simpa using contains.1)]
            rfl
          · have found := ih.mpr ⟨interval, member, isElement, contains⟩
            cases found

theorem bounds_of_mem_intervalsOf {entries : List (ℕ × Option N)}
    (sorted : entries.Pairwise fun e e' => e.1 < e'.1)
    (codePoints : ∀ e ∈ entries, e.1 ≤ MAX_CODE_POINT) {interval : Interval N}
    (h : interval ∈ intervalsOf entries) :
    interval.key < interval.limit ∧ interval.limit ≤ MAX_CODE_POINT + 1 := by
  induction entries using intervalsOf.induct with
  | case1 => cases h
  | case2 key value =>
      obtain ⟨element, -, rfl⟩ := List.mem_map.mp h
      have := codePoints _ (List.mem_singleton_self _)
      exact ⟨by dsimp only at this ⊢; omega, le_rfl⟩
  | case3 key value nextKey nextValue rest ih =>
      obtain ⟨first, tail⟩ := List.pairwise_cons.mp sorted
      obtain ⟨element, -, rfl⟩ | member := mem_intervalsOf_cons.1 h
      · have := codePoints _ (List.mem_cons_of_mem _ List.mem_cons_self)
        exact ⟨first _ List.mem_cons_self, by dsimp only at this ⊢; omega⟩
      · exact ih tail (fun e he => codePoints e (List.mem_cons_of_mem _ he)) member

/-! ## The scan -/

section Scan

variable {contents : SortedMap ℕ (Option N)} {interval : Interval N}

theorem Interval.meets_iff (bounds : interval.key < interval.limit) :
    interval.Meets contents ↔ ∃ c, interval.Contains c ∧ (owner contents c).isSome := by
  constructor
  · rintro (atKey | ⟨entry, member, inside, owned⟩)
    · exact ⟨interval.key, ⟨le_rfl, bounds⟩, atKey⟩
    · refine ⟨entry.1, inside, ?_⟩
      rw [owner, SortedMap.le_of_mem member]
      exact owned
  · rintro ⟨c, inside, owned⟩
    obtain ⟨element, owned⟩ := Option.isSome_iff_exists.mp owned
    obtain ⟨entry, found, value⟩ := Option.bind_eq_some_iff.mp owned
    have value : entry.2.isSome := by
      rw [value]
      rfl
    by_cases before : entry.1 ≤ interval.key
    · left
      rw [owner, SortedMap.le_of_le found before inside.1]
      exact value
    · obtain ⟨member, reached, -⟩ := SortedMap.le_eq_some_iff.mp found
      exact .inr ⟨entry, member, ⟨by omega, lt_of_le_of_lt reached inside.2⟩, value⟩

theorem hasEntryBetween_iff (characters : SimplifiedRegexCharacterClass trees) (start stop : ℕ) :
    characters.hasEntryBetween start stop = true ↔
      (owner (trees.contents characters.contents) start).isSome ∨
        ∃ entry ∈ (trees.contents characters.contents).entries,
          start < entry.1 ∧ entry.1 ≤ stop := by
  rw [hasEntryBetween, Bool.or_eq_true, isRangeEmpty, trees.le_eq, trees.between_eq]
  apply or_congr Iff.rfl
  rw [Bool.not_eq_true', List.isEmpty_eq_false_iff_exists_mem]
  apply exists_congr
  intro entry
  rw [SortedMap.mem_between]
  show entry ∈ (trees.contents characters.contents).entries ∧ _ ↔ _
  rw [Nat.succ_le_iff, Nat.lt_succ_iff]

/-- The scan finds every interval that meets the class, and those that mislead it. -/
theorem Interval.scan_iff (characters : SimplifiedRegexCharacterClass trees)
    (bounds : interval.key < interval.limit) :
    characters.hasEntryBetween interval.key interval.scanned = true ↔
      interval.Meets (trees.contents characters.contents) ∨
        interval.Misleads (trees.contents characters.contents) := by
  have reach : ∀ c, c ≤ interval.scanned ↔
      c < interval.limit ∨ interval.touches ∧ c = interval.limit := by
    intro c
    rw [scanned]
    split
    case isTrue touches => simp [touches, le_iff_lt_or_eq]
    case isFalse apart =>
      constructor
      · intro before
        left
        omega
      · rintro (before | ⟨touches, -⟩)
        · omega
        · exact absurd touches apart
  rw [hasEntryBetween_iff]
  simp only [reach]
  constructor
  · rintro (atKey | inside)
    · exact .inl (.inl atKey)
    · by_cases meets : interval.Meets (trees.contents characters.contents)
      · exact .inl meets
      · exact .inr ⟨meets, inside⟩
  · rintro ((atKey | ⟨entry, member, inside, owned⟩) | ⟨-, inside⟩)
    · exact .inl atKey
    · obtain same | after := inside.1.eq_or_lt
      · left
        rw [same, owner, SortedMap.le_of_mem member]
        exact owned
      · exact .inr ⟨entry, member, after, .inl inside.2⟩
    · exact .inr inside

theorem mem_findIntersections_iff (characters that : SimplifiedRegexCharacterClass trees)
    (element : N) : element ∈ characters.findIntersections that ↔
      ∃ interval ∈ intervals (trees.contents that.contents), interval.element = element ∧
        characters.hasEntryBetween interval.key interval.scanned = true := by
  rw [findIntersections, intersectionsFrom_eq, List.mem_map]
  simp only [List.mem_filter, and_assoc]
  apply exists_congr
  intro interval
  exact and_congr_right fun _ => and_comm

theorem overlaps_iff {that : SortedMap ℕ (Option N)} (element : N)
    (codePoints : ∀ e ∈ that.entries, e.1 ≤ MAX_CODE_POINT) :
    Overlaps contents that element ↔
      ∃ interval ∈ intervals that, interval.element = element ∧ interval.Meets contents := by
  constructor
  · rintro ⟨c, codePoint, owned, contained⟩
    obtain ⟨interval, member, isElement, inside⟩ :=
      (owner_eq_some_iff_exists_interval that.sorted codePoint).mp owned
    have bounds := bounds_of_mem_intervalsOf that.sorted codePoints member
    exact ⟨interval, member, isElement, (Interval.meets_iff bounds.1).mpr ⟨c, inside, contained⟩⟩
  · rintro ⟨interval, member, isElement, meets⟩
    have bounds := bounds_of_mem_intervalsOf that.sorted codePoints member
    obtain ⟨c, inside, contained⟩ := (Interval.meets_iff bounds.1).mp meets
    have codePoint : c ≤ MAX_CODE_POINT := by
      have := inside.2
      omega
    exact ⟨c, codePoint, (owner_eq_some_iff_exists_interval that.sorted codePoint).mpr
      ⟨interval, member, isElement, inside⟩, contained⟩

/-- The intersections are exact if and only if every interval that misleads the scan has an
element that meets the class with another interval. -/
theorem findIntersections_exact_iff (characters that : SimplifiedRegexCharacterClass trees)
    (codePoints : ∀ e ∈ (trees.contents that.contents).entries, e.1 ≤ MAX_CODE_POINT) :
    (∀ element, element ∈ characters.findIntersections that ↔
      Overlaps (trees.contents characters.contents) (trees.contents that.contents) element) ↔
    ∀ interval ∈ intervals (trees.contents that.contents),
      interval.Misleads (trees.contents characters.contents) →
        ∃ other ∈ intervals (trees.contents that.contents), other.element = interval.element ∧
          other.Meets (trees.contents characters.contents) := by
  have bounds : ∀ interval ∈ intervals (trees.contents that.contents),
      interval.key < interval.limit := fun interval member =>
    (bounds_of_mem_intervalsOf (trees.contents that.contents).sorted codePoints member).1
  constructor
  · intro exact interval member misleads
    have found := (mem_findIntersections_iff characters that interval.element).mpr
      ⟨interval, member, rfl,
        (interval.scan_iff characters (bounds interval member)).mpr (.inr misleads)⟩
    exact (overlaps_iff interval.element codePoints).mp ((exact interval.element).mp found)
  · intro elsewhere element
    rw [mem_findIntersections_iff, overlaps_iff element codePoints]
    constructor
    · rintro ⟨interval, member, rfl, found⟩
      obtain meets | misleads := (interval.scan_iff characters (bounds interval member)).mp found
      · exact ⟨interval, member, rfl, meets⟩
      · exact elsewhere interval member misleads
    · rintro ⟨interval, member, isElement, meets⟩
      exact ⟨interval, member, isElement,
        (interval.scan_iff characters (bounds interval member)).mpr (.inl meets)⟩

end Scan

/-- The class of some characters, each for the element of its place. -/
def ofCharacters (characters : List ℕ) : SimplifiedRegexCharacterClass
    (PersistentTrees.sortedMaps ℕ (Option ℕ)) :=
  characters.zipIdx.foldl (fun added character =>
    added.addRange character.1 character.1 character.2) (new _ ⟨false, false⟩)

theorem findIntersections_exact_apart :
    0 ∉ (ofCharacters [0x62]).findIntersections (ofCharacters [0x61]) ∧
      ∀ element, element ∈ (ofCharacters [0x62]).findIntersections (ofCharacters [0x61]) ↔
        Overlaps (ofCharacters [0x62]).contents (ofCharacters [0x61]).contents element := by
  refine ⟨by decide, ?_⟩
  refine (findIntersections_exact_iff (ofCharacters [0x62]) (ofCharacters [0x61]) ?_).mpr ?_
  · decide
  · intro interval member misleads
    have only : interval ∈ [(⟨0x61, 0, 0x62, false⟩ : Interval ℕ)] := member
    obtain rfl := List.mem_singleton.mp only
    obtain ⟨-, entry, inClass, after, inside⟩ := misleads
    have inClass : entry ∈ [(0x62, some 0), (0x63, none)] := inClass
    simp only [List.mem_cons, List.not_mem_nil, or_false] at inClass
    obtain rfl | rfl := inClass
    · exact absurd inside (by decide)
    · exact absurd inside (by decide)

/-- In a class of two neighbours, the second one of them finds the first one. -/
theorem findIntersections_inexact_neighbours :
    ¬ ∀ element, element ∈ (ofCharacters [0x62]).findIntersections (ofCharacters [0x61, 0x62]) ↔
      Overlaps (ofCharacters [0x62]).contents (ofCharacters [0x61, 0x62]).contents element := by
  intro exact
  have found : 0 ∈ (ofCharacters [0x62]).findIntersections (ofCharacters [0x61, 0x62]) := by
    decide
  obtain ⟨interval, member, isElement, meets⟩ :=
    (overlaps_iff 0 (by decide)).mp ((exact 0).mp found)
  have two : interval ∈ [(⟨0x61, 0, 0x62, true⟩ : Interval ℕ), ⟨0x62, 1, 0x63, false⟩] := member
  simp only [List.mem_cons, List.not_mem_nil, or_false] at two
  obtain rfl | rfl := two
  · obtain atKey | ⟨entry, inClass, inside, -⟩ := meets
    · exact absurd atKey (by decide)
    · have inClass : entry ∈ [(0x62, some 0), (0x63, none)] := inClass
      simp only [List.mem_cons, List.not_mem_nil, or_false] at inClass
      obtain rfl | rfl := inClass
      · exact absurd inside.2 (by decide)
      · exact absurd inside.2 (by decide)
  · exact absurd isElement (by decide)

end SimplifiedRegexCharacterClass

end Regex

end SonarJS
