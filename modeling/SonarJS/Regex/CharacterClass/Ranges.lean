import SonarJS.Regex.CharacterClass

/-!
# The ranges of a character class

Adding a range leaves the code points outside the range as they were. Inside the range
the old owners stay, and the element gets the rest as far as the gaps are filled. Because
every update starts from the same tree, of several gaps that start inside the range only
the last one is filled.
-/

namespace SonarJS

namespace Regex

namespace SimplifiedRegexCharacterClass

variable {N : Type} {trees : PersistentTrees ℕ (Option N)}

/-- The gaps that start inside a range, but not with it. -/
def gapsWithin (contents : SortedMap ℕ (Option N)) (start stop : ℕ) : List (ℕ × Option N) :=
  contents.entries.filter fun entry => start < entry.1 ∧ entry.1 ≤ stop ∧ entry.2.isNone

theorem mem_gapsWithin {contents : SortedMap ℕ (Option N)} {start stop : ℕ}
    {entry : ℕ × Option N} : entry ∈ gapsWithin contents start stop ↔
      entry ∈ contents.entries ∧ start < entry.1 ∧ entry.1 ≤ stop ∧ entry.2 = none := by
  rw [gapsWithin, List.mem_filter, decide_eq_true_iff, Option.isNone_iff_eq_none]

/-! ## What a tree stands for after a range -/

theorem contents_createTree : trees.contents trees.createTree = .empty :=
  SortedMap.ext trees.entries_createTree

theorem contents_put (key : ℕ) (value : Option N) (tree : trees.Tree) :
    trees.contents (put key value tree) = (trees.contents tree).set key value := by
  rw [put]
  split
  case isTrue found => exact SortedMap.ext (trees.entries_update tree key value found)
  case isFalse absent =>
    exact SortedMap.ext (trees.entries_insert tree key value
      (Option.not_isSome_iff_eq_none.mp absent))

/-- The last gap becomes part of the element. -/
def fillLast (contents : SortedMap ℕ (Option N)) (start stop : ℕ) (element : N) :
    SortedMap ℕ (Option N) :=
  match (gapsWithin contents start stop).getLast? with
  | some gap => contents.set gap.1 (some element)
  | none => contents

theorem contents_fillGaps (start stop : ℕ) (element : N) (tree : trees.Tree) :
    trees.contents (fillGaps start stop element tree) =
      fillLast (trees.contents tree) start stop element := by
  rw [fillGaps, foldl_last, fillLast]
  show trees.contents
    (((gapsWithin (trees.contents tree) start stop).getLast?.map _).getD tree) = _
  cases last : (gapsWithin (trees.contents tree) start stop).getLast? with
  | none => rfl
  | some gap =>
      have member := (mem_gapsWithin.1 (List.mem_of_getLast? last)).1
      have found : trees.find tree gap.1 = some gap :=
        (trees.find_eq tree gap.1).trans (SortedMap.find_eq_some_iff.mpr ⟨member, rfl⟩)
      exact SortedMap.ext (trees.entries_update tree gap.1 (some element) (by rw [found]; rfl))

/-- The old owner goes on after the range, unless an entry says who follows. -/
def closeRange (contents filled : SortedMap ℕ (Option N)) (stop : ℕ) : SortedMap ℕ (Option N) :=
  if stop + 1 ≤ MAX_CODE_POINT ∧ contents.find (stop + 1) = none then
    filled.set (stop + 1) (owner contents stop)
  else filled

theorem find_fillLast {contents : SortedMap ℕ (Option N)} {start stop key : ℕ} {element : N}
    (after : stop < key) :
    (fillLast contents start stop element).find key = none ↔ contents.find key = none := by
  rw [fillLast]
  split
  case h_1 gap last =>
    have before := (mem_gapsWithin.1 (List.mem_of_getLast? last)).2.2.1
    rw [SortedMap.find_set_eq_none_iff, and_iff_right (by omega)]
  case h_2 => rfl

/-- Where no entry follows the range at once, the old entry reaches beyond it. -/
theorem oldEnd_of_find {contents : SortedMap ℕ (Option N)} {stop : ℕ} {entry : ℕ × Option N}
    (old : contents.le stop = some entry) :
    (((contents.gt entry.1).map Prod.fst).all (stop + 1 < ·)) = true ↔
      contents.find (stop + 1) = none := by
  rw [SortedMap.find_eq_none_iff]
  cases next : contents.gt entry.1 with
  | none =>
      have none_after := SortedMap.gt_eq_none_iff.mp next
      obtain ⟨-, before, -⟩ := SortedMap.le_eq_some_iff.mp old
      simp only [Option.map_none, Option.all_none, true_iff]
      intro e he
      have := none_after e he
      omega
  | some e =>
      obtain ⟨after, least⟩ := SortedMap.gt_of_le old next
      simp only [Option.map_some, Option.all_some, decide_eq_true_eq]
      constructor
      · intro reaches e' he' same
        have := least e' he' (by omega)
        omega
      · intro absent
        have := absent e (SortedMap.gt_eq_some next).1
        omega

/-- Filling gaps leaves it open whether an entry follows the range at once. -/
theorem find_fillGaps_put {start stop : ℕ} (ordered : start ≤ stop) (element : N)
    (tree : trees.Tree) :
    trees.find (fillGaps start stop element (put start (some element) tree)) (stop + 1) = none ↔
      (trees.contents tree).find (stop + 1) = none := by
  rw [trees.find_eq]
  show (trees.contents _).find _ = none ↔ _
  rw [contents_fillGaps, find_fillLast (Nat.lt_succ_self stop), contents_put,
    SortedMap.find_set_eq_none_iff, and_iff_right (by omega)]

theorem contents_addRange (characters : SimplifiedRegexCharacterClass trees) {start stop : ℕ}
    (ordered : start ≤ stop) (element : N) :
    trees.contents (characters.addRange start stop element).contents =
      closeRange (trees.contents characters.contents)
        (fillLast ((trees.contents characters.contents).set start (some element)) start stop
          element) stop := by
  have filled := contents_fillGaps start stop element
    (put start (some element) characters.contents)
  rw [contents_put] at filled
  have absent := find_fillGaps_put ordered element characters.contents
  have known : ∀ stop, trees.le characters.contents stop =
      (trees.contents characters.contents).le stop := trees.le_eq _
  have later : ∀ key, trees.gt characters.contents key =
      (trees.contents characters.contents).gt key := trees.gt_eq _
  rw [addRange]
  simp only [known, later]
  by_cases inside : stop + 1 ≤ MAX_CODE_POINT
  case neg =>
    rw [if_neg inside, filled, closeRange, if_neg fun both => inside both.1]
  rw [if_pos inside]
  by_cases free : (trees.contents characters.contents).find (stop + 1) = none
  case pos =>
    have closed : closeRange (trees.contents characters.contents)
        (fillLast ((trees.contents characters.contents).set start (some element)) start stop
          element) stop = _ :=
      if_pos (And.intro inside free)
    rw [closed, owner]
    have free' : (trees.find (fillGaps start stop element
        (put start (some element) characters.contents)) (stop + 1)).isNone := by
      rw [absent.mpr free]
      rfl
    cases old : (trees.contents characters.contents).le stop with
    | none =>
        rw [if_neg (by simp), if_pos free', contents_put, filled]
        rfl
    | some entry =>
        have reaches := (oldEnd_of_find old).mpr free
        cases value : entry.2 with
        | some element' =>
            rw [if_pos ⟨by simp [value], by simpa using reaches⟩, contents_put, filled]
        | none =>
            rw [if_neg (by simp [value]), if_pos free', contents_put, filled]
            simp [value]
  case neg =>
    have taken : ¬ (trees.find (fillGaps start stop element
        (put start (some element) characters.contents)) (stop + 1)).isNone := by
      simpa using absent.not.mpr free
    have closed : closeRange (trees.contents characters.contents)
        (fillLast ((trees.contents characters.contents).set start (some element)) start stop
          element) stop = _ :=
      if_neg fun both => free both.2
    rw [closed]
    cases old : (trees.contents characters.contents).le stop with
    | none => rw [if_neg (by simp), if_neg taken, filled]
    | some entry =>
        have ends := (oldEnd_of_find old).not.mpr free
        rw [if_neg fun both => ends (by simpa using both.2), if_neg taken, filled]

/-! ## Owners after a range -/

section Owners

variable {contents : SortedMap ℕ (Option N)} {start stop c : ℕ} {element : N}

/-- The contents after a range has been added to some contents. -/
def addTo (contents : SortedMap ℕ (Option N)) (start stop : ℕ) (element : N) :
    SortedMap ℕ (Option N) :=
  closeRange contents (fillLast (contents.set start (some element)) start stop element) stop

theorem owner_set (key : ℕ) (value : Option N) : owner (contents.set key value) c =
    if key ≤ c ∧ ∀ e, contents.le c = some e → e.1 ≤ key then value else owner contents c := by
  rw [owner, SortedMap.le_set]
  split
  · rfl
  · rfl

/-- Beginning the range does not change which gaps start inside it. -/
theorem gapsWithin_set_start :
    gapsWithin (contents.set start (some element)) start stop = gapsWithin contents start stop := by
  have before : ((contents.entries.filter fun e => e.1 < start).filter fun entry =>
      start < entry.1 ∧ entry.1 ≤ stop ∧ entry.2.isNone) = [] := by
    rw [List.filter_eq_nil_iff]
    intro e he
    have := (List.mem_filter.mp he).2
    simp only [decide_eq_true_eq] at this ⊢
    omega
  rw [gapsWithin, SortedMap.set, List.filter_append, before, List.nil_append,
    List.filter_cons_of_neg (by simp), List.filter_filter, gapsWithin]
  apply List.filter_congr
  intro e _
  simp only [← Bool.decide_and]
  apply decide_eq_decide.mpr
  tauto

/-- The code point lies in the last of the gaps. -/
def InLastGap (contents : SortedMap ℕ (Option N)) (start stop c : ℕ) : Prop :=
  ∃ gap, (gapsWithin contents start stop).getLast? = some gap ∧ contents.le c = some gap

/-- Filling the last gap gives the element what the gap had, and nothing else. -/
theorem owner_fillLast (contents : SortedMap ℕ (Option N)) (start stop c : ℕ) (element : N) :
    (InLastGap contents start stop c →
      owner (fillLast contents start stop element) c = some element) ∧
    (¬ InLastGap contents start stop c →
      owner (fillLast contents start stop element) c = owner contents c) := by
  rw [fillLast, InLastGap]
  cases last : (gapsWithin contents start stop).getLast? with
  | none => simp
  | some gap =>
      have inMap := (mem_gapsWithin.1 (List.mem_of_getLast? last)).1
      have here : (gap.1 ≤ c ∧ ∀ e, contents.le c = some e → e.1 ≤ gap.1) ↔
          contents.le c = some gap := by
        constructor
        · rintro ⟨reached, latest⟩
          refine SortedMap.le_eq_some_iff.mpr ⟨inMap, reached, fun e he before => ?_⟩
          cases found : contents.le c with
          | none => exact absurd reached (SortedMap.le_eq_none_iff.mp found gap inMap).not_ge
          | some e' =>
              exact ((SortedMap.le_eq_some_iff.mp found).2.2 e he before).trans (latest e' found)
        · intro found
          refine ⟨(SortedMap.le_eq_some_iff.mp found).2.1, fun e he => ?_⟩
          rw [found] at he
          cases he
          exact le_rfl
      simp only [owner_set]
      constructor
      · rintro ⟨gap', same, found⟩
        cases same
        exact if_pos (here.mpr found)
      · intro elsewhere
        exact if_neg fun holds => elsewhere ⟨gap, rfl, here.mp holds⟩

/-- Which code points of its range the element gets: those before the first old entry
inside the range, and those of the last gap. -/
def Gets (contents : SortedMap ℕ (Option N)) (start stop c : ℕ) : Prop :=
  (∀ e, contents.le c = some e → e.1 ≤ start) ∨ InLastGap contents start stop c

/-- The other code points of the range stay as they were. -/
theorem owner_addTo_of_mem (contents : SortedMap ℕ (Option N)) (element : N)
    (first : start ≤ c) (last : c ≤ stop) :
    (Gets contents start stop c → owner (addTo contents start stop element) c = some element) ∧
      (¬ Gets contents start stop c →
        owner (addTo contents start stop element) c = owner contents c) := by
  have closed : owner (addTo contents start stop element) c =
      owner (fillLast (contents.set start (some element)) start stop element) c := by
    rw [addTo, closeRange]
    split
    · rw [owner_set, if_neg (by omega)]
    · rfl
  obtain ⟨filled, kept⟩ := owner_fillLast (contents.set start (some element)) start stop c element
  rw [InLastGap, gapsWithin_set_start, SortedMap.le_set] at filled kept
  rw [owner_set] at kept
  rw [closed]
  by_cases own : ∀ e, contents.le c = some e → e.1 ≤ start
  case pos =>
    rw [if_pos ⟨first, own⟩] at filled kept
    refine ⟨fun _ => ?_, fun none => absurd (.inl own) none⟩
    by_cases gap : ∃ gap, (gapsWithin contents start stop).getLast? = some gap ∧
        some (start, some element) = some gap
    · exact filled gap
    · exact (kept gap).trans (if_pos ⟨first, own⟩)
  case neg =>
    rw [if_neg fun both => own both.2] at filled kept
    refine ⟨fun gets => filled (gets.resolve_left own), fun none => ?_⟩
    exact (kept fun gap => none (.inr gap)).trans (if_neg fun both => own both.2)

/-- What has been filled is not seen where an entry after the range holds. -/
theorem le_fillLast_eq_some_iff (element : N) (ordered : start ≤ stop) {e : ℕ × Option N}
    (after : stop < e.1) :
    (fillLast (contents.set start (some element)) start stop element).le c = some e ↔
      contents.le c = some e := by
  rw [fillLast]
  split
  case h_1 gap last =>
    have inside := (mem_gapsWithin.1 (List.mem_of_getLast? last)).2.2.1
    rw [SortedMap.le_set_eq_some_iff (by omega), SortedMap.le_set_eq_some_iff (by omega)]
  case h_2 => exact SortedMap.le_set_eq_some_iff (by omega)

theorem owner_addTo_of_lt (ordered : start ≤ stop) (before : c < start) :
    owner (addTo contents start stop element) c = owner contents c := by
  have unfilled : ¬ InLastGap (contents.set start (some element)) start stop c := by
    rintro ⟨gap, last, found⟩
    have := (mem_gapsWithin.1 (List.mem_of_getLast? last)).2.1
    have := (SortedMap.le_eq_some_iff.mp found).2.1
    omega
  have kept := (owner_fillLast (contents.set start (some element)) start stop c element).2 unfilled
  rw [owner_set, if_neg (by omega)] at kept
  rw [addTo, closeRange]
  split
  · rw [owner_set, if_neg (by omega), kept]
  · exact kept

theorem owner_addTo_of_gt (ordered : start ≤ stop) (codePoint : c ≤ MAX_CODE_POINT)
    (after : stop < c) : owner (addTo contents start stop element) c = owner contents c := by
  have next : stop + 1 ≤ MAX_CODE_POINT := by omega
  rw [addTo, closeRange]
  by_cases later : ∃ e, contents.le c = some e ∧ stop < e.1
  case pos =>
    obtain ⟨e, found, beyond⟩ := later
    have found' := (le_fillLast_eq_some_iff element ordered beyond).mpr found
    have kept : owner (fillLast (contents.set start (some element)) start stop element) c =
        owner contents c := by
      rw [owner, found', owner, found]
    split
    case isFalse => exact kept
    case isTrue closes =>
      have other := SortedMap.find_eq_none_iff.mp closes.2 e (SortedMap.le_eq_some_iff.mp found).1
      rw [owner_set, if_neg, kept]
      rintro ⟨-, latest⟩
      have := latest e found'
      omega
  case neg =>
    -- what holds at the code point held at the end of the range
    have latest : ∀ e ∈ contents.entries, e.1 ≤ c → e.1 ≤ stop := by
      intro e he before
      by_contra beyond
      cases found : contents.le c with
      | none => exact absurd before (SortedMap.le_eq_none_iff.mp found e he).not_ge
      | some e' =>
          have := (SortedMap.le_eq_some_iff.mp found).2.2 e he before
          exact later ⟨e', found, by omega⟩
    have same : contents.le stop = contents.le c := SortedMap.le_eq_le after.le latest
    have free : contents.find (stop + 1) = none := by
      refine SortedMap.find_eq_none_iff.mpr fun e he here => ?_
      have := latest e he (by omega)
      omega
    rw [if_pos ⟨next, free⟩, owner_set, if_pos, owner, same, owner]
    refine ⟨after, fun e found => ?_⟩
    by_contra beyond
    have found' := (le_fillLast_eq_some_iff element ordered (by omega)).mp found
    exact later ⟨e, found', by omega⟩

end Owners

/-! ## Unions -/

/-- A range that is added for an element. -/
structure AddedRange (N : Type) where
  start : ℕ
  stop : ℕ
  element : N
  ordered : start ≤ stop
  codePoints : stop ≤ MAX_CODE_POINT

def AddedRange.Contains (range : AddedRange N) (c : ℕ) : Prop := range.start ≤ c ∧ c ≤ range.stop

/-- The calls of `addRange`, one after another. -/
def addRanges (characters : SimplifiedRegexCharacterClass trees) (ranges : List (AddedRange N)) :
    SimplifiedRegexCharacterClass trees :=
  ranges.foldl (fun characters range => characters.addRange range.start range.stop range.element)
    characters

/-- Every owner has a range around its code points. -/
def IsOwned (contents : SortedMap ℕ (Option N)) (ranges : List (AddedRange N)) : Prop :=
  ∀ c, c ≤ MAX_CODE_POINT → ∀ element, owner contents c = some element →
    ∃ range ∈ ranges, range.element = element ∧ range.Contains c

/-- The class is the union of the ranges. -/
structure IsUnion (contents : SortedMap ℕ (Option N)) (ranges : List (AddedRange N)) : Prop where
  contained : ∀ c, c ≤ MAX_CODE_POINT →
    ((owner contents c).isSome ↔ ∃ range ∈ ranges, range.Contains c)
  owned : IsOwned contents ranges

theorem isUnion_empty : IsUnion (.empty : SortedMap ℕ (Option N)) [] := by
  constructor
  case contained => simp [owner, SortedMap.le]
  case owned =>
    intro c _ element owned
    cases owned

section Step

variable {contents : SortedMap ℕ (Option N)} {ranges : List (AddedRange N)} (range : AddedRange N)

def AddedRange.addTo (contents : SortedMap ℕ (Option N)) : SortedMap ℕ (Option N) :=
  SimplifiedRegexCharacterClass.addTo contents range.start range.stop range.element

/-- A code point keeps its owner or comes to the new element. -/
theorem owner_addTo (c : ℕ) (codePoint : c ≤ MAX_CODE_POINT) :
    owner (range.addTo contents) c = owner contents c ∨
      range.Contains c ∧ owner (range.addTo contents) c = some range.element := by
  by_cases inside : range.Contains c
  case pos =>
    obtain ⟨gets, keeps⟩ := owner_addTo_of_mem contents range.element inside.1 inside.2
    by_cases gap : Gets contents range.start range.stop c
    · exact .inr ⟨inside, gets gap⟩
    · exact .inl (keeps gap)
  case neg =>
    left
    by_cases before : c < range.start
    · exact owner_addTo_of_lt range.ordered before
    · apply owner_addTo_of_gt range.ordered codePoint
      by_contra after
      exact inside ⟨by omega, by omega⟩

theorem IsOwned.addTo (h : IsOwned contents ranges) :
    IsOwned (range.addTo contents) (ranges ++ [range]) := by
  intro c codePoint element owned
  obtain same | ⟨inside, new⟩ := owner_addTo range c codePoint
  · obtain ⟨range', member, isElement, contains⟩ := h c codePoint element (same.symm.trans owned)
    exact ⟨range', List.mem_append_left _ member, isElement, contains⟩
  · exact ⟨range, List.mem_append_right _ (List.mem_singleton_self range),
      Option.some.inj (new.symm.trans owned), inside⟩

theorem codePoints_addTo (codePoints : ∀ e ∈ contents.entries, e.1 ≤ MAX_CODE_POINT) :
    ∀ e ∈ (range.addTo contents).entries, e.1 ≤ MAX_CODE_POINT := by
  have set : ∀ {m : SortedMap ℕ (Option N)} (k : ℕ) (v : Option N), k ≤ MAX_CODE_POINT →
      (∀ e ∈ m.entries, e.1 ≤ MAX_CODE_POINT) →
        ∀ e ∈ (m.set k v).entries, e.1 ≤ MAX_CODE_POINT := by
    intro m k v bound within e he
    obtain rfl | ⟨member, -⟩ := SortedMap.mem_set.mp he
    · exact bound
    · exact within e member
  have filled : ∀ e ∈ (fillLast (contents.set range.start (some range.element)) range.start
      range.stop range.element).entries, e.1 ≤ MAX_CODE_POINT := by
    have begun := set range.start (some range.element) (range.ordered.trans range.codePoints)
      codePoints
    rw [fillLast]
    split
    case h_1 gap last =>
      exact set _ _ (begun gap (mem_gapsWithin.1 (List.mem_of_getLast? last)).1) begun
    case h_2 => exact begun
  rw [AddedRange.addTo, addTo, closeRange]
  split
  case isTrue closes => exact set _ _ closes.1 filled
  case isFalse => exact filled

/-- With one gap at most, the whole range comes into the class. -/
theorem isSome_owner_addTo (gaps : (gapsWithin contents range.start range.stop).length ≤ 1)
    {c : ℕ} (inside : range.Contains c) : (owner (range.addTo contents) c).isSome := by
  obtain ⟨gets, keeps⟩ := owner_addTo_of_mem contents range.element inside.1 inside.2
  by_cases gap : Gets contents range.start range.stop c
  case pos =>
    rw [AddedRange.addTo, gets gap]
    rfl
  case neg =>
    rw [AddedRange.addTo, keeps gap, owner]
    rw [Gets, not_or, not_forall] at gap
    obtain ⟨⟨entry, later⟩, notLast⟩ := gap
    rw [Classical.not_imp, not_le] at later
    obtain ⟨found, after⟩ := later
    obtain ⟨member, before, -⟩ := SortedMap.le_eq_some_iff.mp found
    rw [found, Option.bind_some]
    by_contra missing
    -- the entry would be the only gap
    have isGap : entry ∈ gapsWithin contents range.start range.stop :=
      mem_gapsWithin.2 ⟨member, after, before.trans inside.2,
        Option.not_isSome_iff_eq_none.mp missing⟩
    obtain ⟨gap, only⟩ := List.length_eq_one_iff.mp
      (le_antisymm gaps (List.length_pos_of_mem isGap))
    rw [only, List.mem_singleton] at isGap
    subst isGap
    exact notLast ⟨entry, by rw [only]; rfl, found⟩

/-- Of several gaps, the first one stays. -/
theorem exists_owner_addTo_eq_none
    (gaps : 1 < (gapsWithin contents range.start range.stop).length) :
    ∃ c, range.Contains c ∧ owner (range.addTo contents) c = none := by
  obtain ⟨first, second, rest, several⟩ : ∃ first second rest,
      gapsWithin contents range.start range.stop = first :: second :: rest := by
    match gapsWithin contents range.start range.stop, gaps with
    | first :: second :: rest, _ => exact ⟨first, second, rest, rfl⟩
  have isGap : first ∈ gapsWithin contents range.start range.stop := by
    rw [several]
    exact List.mem_cons_self
  obtain ⟨member, after, before, free⟩ := mem_gapsWithin.1 isGap
  have found : contents.le first.1 = some first := SortedMap.le_of_mem member
  refine ⟨first.1, ⟨after.le, before⟩, ?_⟩
  rw [AddedRange.addTo, (owner_addTo_of_mem contents range.element after.le before).2, owner,
    found, Option.bind_some, free]
  rintro (none | ⟨gap, last, same⟩)
  · have := none first found
    omega
  · rw [found, Option.some.injEq] at same
    subst same
    rw [several, List.getLast?_cons_cons] at last
    -- the entries after the first gap have greater keys
    have sorted := contents.sorted.filter fun entry =>
      range.start < entry.1 ∧ entry.1 ≤ range.stop ∧ entry.2.isNone
    change (gapsWithin contents range.start range.stop).Pairwise _ at sorted
    rw [several, List.pairwise_cons] at sorted
    exact absurd (sorted.1 first (List.mem_of_getLast? last)) (lt_irrefl _)

theorem IsUnion.addTo_iff (h : IsUnion contents ranges) :
    IsUnion (range.addTo contents) (ranges ++ [range]) ↔
      (gapsWithin contents range.start range.stop).length ≤ 1 := by
  constructor
  · intro union
    by_contra several
    obtain ⟨c, inside, none⟩ := exists_owner_addTo_eq_none range (not_le.mp several)
    have contained := (union.contained c (inside.2.trans range.codePoints)).mpr
      ⟨range, List.mem_append_right _ (List.mem_singleton_self range), inside⟩
    rw [none] at contained
    cases contained
  · intro gaps
    refine ⟨fun c codePoint => ?_, h.owned.addTo range⟩
    constructor
    · intro owned
      obtain ⟨element, found⟩ := Option.isSome_iff_exists.mp owned
      obtain ⟨range', member, -, inside⟩ := h.owned.addTo range c codePoint element found
      exact ⟨range', member, inside⟩
    · rintro ⟨range', member, inside⟩
      obtain old | new := List.mem_append.mp member
      · obtain same | ⟨-, new⟩ := owner_addTo range c codePoint
        · rw [same]
          exact (h.contained c codePoint).mpr ⟨range', old, inside⟩
        · rw [new]
          rfl
      · obtain rfl := List.mem_singleton.mp new
        exact isSome_owner_addTo range' gaps inside

end Step

/-! ## Runs -/

theorem contents_addRanges_concat (characters : SimplifiedRegexCharacterClass trees)
    (ranges : List (AddedRange N)) (range : AddedRange N) :
    trees.contents (characters.addRanges (ranges ++ [range])).contents =
      range.addTo (trees.contents (characters.addRanges ranges).contents) := by
  rw [addRanges, List.foldl_append]
  exact contents_addRange _ range.ordered range.element

/-- Whatever is added, an owner has a range around its code points. -/
theorem isOwned_addRanges (flags : Flags) (ranges : List (AddedRange N)) :
    IsOwned (trees.contents ((new trees flags).addRanges ranges).contents) ranges := by
  induction ranges using List.reverseRecOn with
  | nil =>
      show IsOwned (trees.contents trees.createTree) []
      rw [contents_createTree]
      exact isUnion_empty.owned
  | append_singleton ranges range ih =>
      rw [contents_addRanges_concat]
      exact ih.addTo range

/-- The entries stay within the code points. -/
theorem codePoints_addRanges (flags : Flags) (ranges : List (AddedRange N)) :
    ∀ e ∈ (trees.contents ((new trees flags).addRanges ranges).contents).entries,
      e.1 ≤ MAX_CODE_POINT := by
  induction ranges using List.reverseRecOn with
  | nil =>
      show ∀ e ∈ trees.entries trees.createTree, _
      rw [trees.entries_createTree]
      exact fun _ => nofun
  | append_singleton ranges range ih =>
      rw [contents_addRanges_concat]
      exact codePoints_addTo range ih

/-- In a run, the class is the union of the ranges added so far at every point, exactly if
no range reaches over several gaps. -/
theorem isUnion_addRanges_iff (trees : PersistentTrees ℕ (Option N)) (flags : Flags)
    (ranges : List (AddedRange N)) :
    (∀ added, added <+: ranges →
      IsUnion (trees.contents ((new trees flags).addRanges added).contents) added) ↔
    ∀ added range, added ++ [range] <+: ranges →
      (gapsWithin (trees.contents ((new trees flags).addRanges added).contents)
        range.start range.stop).length ≤ 1 := by
  constructor
  · intro unions added range isPrefix
    have union := unions (added ++ [range]) isPrefix
    rw [contents_addRanges_concat] at union
    have before := unions added ((List.prefix_append added [range]).trans isPrefix)
    exact (before.addTo_iff range).mp union
  · intro gaps added isPrefix
    induction added using List.reverseRecOn with
    | nil =>
        show IsUnion (trees.contents trees.createTree) []
        rw [contents_createTree]
        exact isUnion_empty
    | append_singleton added range ih =>
        rw [contents_addRanges_concat]
        exact ((ih ((List.prefix_append added [range]).trans isPrefix)).addTo_iff range).mpr
          (gaps added range isPrefix)

/-- Two characters leave two gaps, and a range over both does not contain what follows the
first one. -/
theorem not_isUnion_two_gaps :
    ¬ IsUnion (((new (PersistentTrees.sortedMaps ℕ (Option ℕ)) ⟨false, false⟩).addRanges
        [⟨0x10, 0x10, 0, by decide, by decide⟩, ⟨0x20, 0x20, 1, by decide, by decide⟩,
          ⟨0x00, 0x30, 2, by decide, by decide⟩]).contents : SortedMap ℕ (Option ℕ))
      [⟨0x10, 0x10, 0, by decide, by decide⟩, ⟨0x20, 0x20, 1, by decide, by decide⟩,
        ⟨0x00, 0x30, 2, by decide, by decide⟩] := by
  intro union
  have contained := (union.contained 0x11 (by decide)).mpr
    ⟨⟨0x00, 0x30, 2, by decide, by decide⟩, by simp, by decide, by decide⟩
  revert contained
  decide

end SimplifiedRegexCharacterClass

end Regex

end SonarJS
