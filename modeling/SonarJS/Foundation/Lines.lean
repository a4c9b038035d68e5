import Mathlib.Data.List.Nodup
import Mathlib.Data.List.Perm.Subperm
import Mathlib.Data.List.Sort
import Mathlib.Tactic.Common

/-!
# Lines of a text

A text is split into lines at the matches of a pattern. A pattern gives the length of its
match at the head of a text; the line starts are 0 and the ends of the matches that a
search from left to right finds. A position in the text is located by a search in the
line starts.

The patterns of interest match line breaks: one of some characters, where a carriage
return with a line feed after it counts as one break. For these, what is a line start can
be read off the characters at its two sides.
-/

namespace Lines

variable {α : Type}

/-! ## Line starts -/

/-- The ends of the matches of a pattern in what is left of a text, of which the first
`skip` characters belong to the last match. -/
@[grind =] def matchEnds (pattern : List α → Option ℕ) : ℕ → ℕ → List α → List ℕ
  | _, _, [] => []
  | index, skip + 1, _ :: text => matchEnds pattern (index + 1) skip text
  | index, 0, c :: text =>
    match pattern (c :: text) with
    | some length => (index + length) :: matchEnds pattern (index + 1) (length - 1) text
    | none => matchEnds pattern (index + 1) 0 text

def starts (pattern : List α → Option ℕ) (text : List α) : List ℕ :=
  0 :: matchEnds pattern 0 0 text

section Sorted

variable {pattern : List α → Option ℕ}
  (positive : ∀ text length, pattern text = some length → 0 < length)

include positive

theorem lt_of_mem_matchEnds {index skip : ℕ} {text : List α} {s : ℕ}
    (h : s ∈ matchEnds pattern index skip text) : index + skip < s := by
  induction text generalizing index skip with
  | nil => cases h
  | cons c text ih =>
      cases skip with
      | succ skip =>
          have := ih h
          omega
      | zero =>
          unfold matchEnds at h
          split at h
          · rename_i length found
            have := positive _ _ found
            obtain rfl | later := List.mem_cons.mp h
            · omega
            · have := ih later
              omega
          · have := ih h
            omega

theorem matchEnds_pairwise (index skip : ℕ) (text : List α) :
    (matchEnds pattern index skip text).Pairwise (· < ·) := by
  induction text generalizing index skip with
  | nil => exact .nil
  | cons c text ih =>
      cases skip with
      | succ skip => exact ih _ _
      | zero =>
          unfold matchEnds
          split
          · rename_i length found
            have := positive _ _ found
            refine List.pairwise_cons.mpr ⟨fun s later => ?_, ih _ _⟩
            have := lt_of_mem_matchEnds positive later
            omega
          · exact ih _ _

theorem starts_pairwise (text : List α) : (starts pattern text).Pairwise (· < ·) := by
  refine List.pairwise_cons.mpr ⟨fun s later => ?_, matchEnds_pairwise positive _ _ _⟩
  have := lt_of_mem_matchEnds positive later
  omega

end Sorted

/-! ## Line breaks -/

/-- Which characters break a line. A carriage return and a line feed break it once. -/
structure Breaks (α : Type) where
  cr : α
  lf : α
  isBreak : α → Bool
  cr_ne_lf : cr ≠ lf
  isBreak_lf : isBreak lf = true

namespace Breaks

variable (breaks : Breaks α)

/-- A line ends after the character at `i`. -/
def EndsAt (text : List α) (i : ℕ) : Prop :=
  ∃ c, text[i]? = some c ∧ breaks.isBreak c = true ∧
    ¬ (c = breaks.cr ∧ text[i + 1]? = some breaks.lf)

theorem endsAt_zero {c : α} {text : List α} :
    breaks.EndsAt (c :: text) 0 ↔
      breaks.isBreak c = true ∧ ¬ (c = breaks.cr ∧ text.head? = some breaks.lf) := by
  simp [EndsAt, List.head?_eq_getElem?]

theorem endsAt_succ {c : α} {text : List α} {i : ℕ} :
    breaks.EndsAt (c :: text) (i + 1) ↔ breaks.EndsAt text i := by
  simp [EndsAt]

/-- The first end of a line, or a later one. -/
theorem exists_endsAt_cons {c : α} {text : List α} {index s : ℕ} :
    (∃ i, s = index + i + 1 ∧ breaks.EndsAt (c :: text) i) ↔
      (s = index + 1 ∧ breaks.EndsAt (c :: text) 0) ∨
        ∃ i, s = index + 1 + i + 1 ∧ breaks.EndsAt text i := by
  constructor
  · rintro ⟨i, rfl, ends⟩
    cases i with
    | zero => exact .inl ⟨rfl, ends⟩
    | succ i => exact .inr ⟨i, by omega, breaks.endsAt_succ.1 ends⟩
  · rintro (⟨rfl, ends⟩ | ⟨i, rfl, ends⟩)
    · exact ⟨0, rfl, ends⟩
    · exact ⟨i + 1, by omega, breaks.endsAt_succ.2 ends⟩

variable [DecidableEq α]

def pattern : List α → Option ℕ
  | [] => none
  | c :: text =>
    if breaks.isBreak c then
      if c = breaks.cr ∧ text.head? = some breaks.lf then some 2 else some 1
    else none

theorem pattern_pos (text : List α) (length : ℕ) (h : breaks.pattern text = some length) :
    0 < length := by
  unfold pattern at h
  split at h
  · cases h
  · split at h
    · split at h <;> cases h <;> omega
    · cases h

theorem matchEnds_pair {c : α} {rest : List α} {index : ℕ} (breaking : breaks.isBreak c = true)
    (cr : c = breaks.cr) :
    matchEnds breaks.pattern index 0 (c :: breaks.lf :: rest) =
      (index + 2) :: matchEnds breaks.pattern (index + 2) 0 rest := by
  have found : breaks.pattern (c :: breaks.lf :: rest) = some 2 := by
    rw [pattern, if_pos breaking, if_pos ⟨cr, rfl⟩]
  rw [matchEnds, found]
  rfl

theorem matchEnds_break {c : α} {text : List α} {index : ℕ} (breaking : breaks.isBreak c = true)
    (single : ¬ (c = breaks.cr ∧ text.head? = some breaks.lf)) :
    matchEnds breaks.pattern index 0 (c :: text) =
      (index + 1) :: matchEnds breaks.pattern (index + 1) 0 text := by
  have found : breaks.pattern (c :: text) = some 1 := by
    rw [pattern, if_pos breaking, if_neg single]
  rw [matchEnds, found]

theorem matchEnds_other {c : α} {text : List α} {index : ℕ} (other : ¬ breaks.isBreak c = true) :
    matchEnds breaks.pattern index 0 (c :: text) =
      matchEnds breaks.pattern (index + 1) 0 text := by
  have found : breaks.pattern (c :: text) = none := by
    rw [pattern, if_neg other]
  rw [matchEnds, found]

theorem mem_matchEnds (index : ℕ) (text : List α) (s : ℕ) :
    s ∈ matchEnds breaks.pattern index 0 text ↔
      ∃ i, s = index + i + 1 ∧ breaks.EndsAt text i := by
  induction length : text.length using Nat.strongRecOn generalizing index text with
  | ind n ih =>
  cases text with
  | nil => simp [matchEnds, EndsAt]
  | cons c text =>
      have later := ih text.length (by simp [← length]) (index + 1) text rfl
      rw [exists_endsAt_cons]
      by_cases breaking : breaks.isBreak c = true
      · by_cases pair : c = breaks.cr ∧ text.head? = some breaks.lf
        · -- The line feed is skipped, and its end is the end of both.
          obtain ⟨rest, rfl⟩ : ∃ rest, text = breaks.lf :: rest := by
            cases text with
            | nil => simp at pair
            | cons d rest => exact ⟨rest, by simpa using pair.2⟩
          have notHere : ¬ breaks.EndsAt (c :: breaks.lf :: rest) 0 := by
            simp [endsAt_zero, pair.1]
          have feed : breaks.EndsAt (breaks.lf :: rest) 0 :=
            breaks.endsAt_zero.2 ⟨breaks.isBreak_lf, fun h => breaks.cr_ne_lf h.1.symm⟩
          have shorter : rest.length < n := by
            rw [← length, List.length_cons, List.length_cons]
            omega
          rw [matchEnds_pair _ breaking pair.1, List.mem_cons, exists_endsAt_cons,
            ih rest.length shorter _ _ rfl]
          simp [notHere, feed]
        · have here : breaks.EndsAt (c :: text) 0 := breaks.endsAt_zero.2 ⟨breaking, pair⟩
          rw [matchEnds_break _ breaking pair, List.mem_cons, later]
          simp [here]
      · have notHere : ¬ breaks.EndsAt (c :: text) 0 :=
          fun h => breaking (breaks.endsAt_zero.1 h).1
        rw [matchEnds_other _ breaking, later]
        simp [notHere]

theorem mem_starts {text : List α} {s : ℕ} :
    s ∈ starts breaks.pattern text ↔ s = 0 ∨ ∃ i, s = i + 1 ∧ breaks.EndsAt text i := by
  simp [starts, mem_matchEnds]

end Breaks

/-! ## Locations -/

/-- A line, counted from 1, and a column, counted from 0. -/
structure Location where
  line : ℕ
  column : ℕ
deriving DecidableEq, Repr

/-- The number of the line of a position. -/
def line (starts : List ℕ) (index : ℕ) : ℕ := starts.findIdx (index < ·)

/-- The start of the line of a position. -/
def lineStart (starts : List ℕ) (index : ℕ) : ℕ := starts.getD (line starts index - 1) 0

def locate (starts : List ℕ) (index : ℕ) : Location where
  line := line starts index
  column := index - lineStart starts index

/-- The position of a location. -/
def position (starts : List ℕ) (location : Location) : ℕ :=
  starts.getD (location.line - 1) 0 + location.column

/-- Line starts come in ascending order, and the first line starts at 0. -/
structure Valid (starts : List ℕ) : Prop where
  sorted : starts.Pairwise (· < ·)
  zero_mem : 0 ∈ starts

/-- The starts up to a position. -/
def upTo (starts : List ℕ) (index : ℕ) : List ℕ := starts.filter (· ≤ index)

section Locate

variable {starts other : List ℕ} {index s : ℕ}

theorem mem_upTo : s ∈ upTo starts index ↔ s ∈ starts ∧ s ≤ index := by
  simp [upTo]

theorem upTo_eq_take (sorted : starts.Pairwise (· < ·)) :
    upTo starts index = starts.take (line starts index) := by
  induction starts with
  | nil => rfl
  | cons first starts ih =>
      obtain ⟨after, sorted⟩ := List.pairwise_cons.mp sorted
      unfold upTo line
      rw [List.findIdx_cons]
      by_cases beyond : index < first
      · have none : ∀ s ∈ first :: starts, ¬ s ≤ index := by
          intro s member
          obtain rfl | member := List.mem_cons.mp member
          · omega
          · have := after s member
            omega
        simpa [beyond] using none
      · have within : first ≤ index := by omega
        simp only [beyond, within, List.filter_cons, decide_true, decide_false, if_true, cond_false]
        rw [List.take_succ_cons]
        exact congrArg _ (ih sorted)

theorem length_upTo (sorted : starts.Pairwise (· < ·)) :
    (upTo starts index).length = line starts index := by
  rw [upTo_eq_take sorted, List.length_take]
  exact Nat.min_eq_left List.findIdx_le_length

theorem lineStart_congr {index' : ℕ} (same : line starts index = line starts index') :
    lineStart starts index = lineStart starts index' := by
  rw [lineStart, lineStart, same]

namespace Valid

theorem nodup_upTo (valid : Valid starts) : (upTo starts index).Nodup :=
  (valid.sorted.imp fun lt => Nat.ne_of_lt lt).filter _

theorem line_pos (valid : Valid starts) : 0 < line starts index := by
  rw [← length_upTo valid.sorted]
  exact List.length_pos_of_mem (mem_upTo.2 ⟨valid.zero_mem, Nat.zero_le index⟩)

/-- The line of a position starts at the last start up to the position. -/
theorem lineStart_eq_getElem (valid : Valid starts)
    (bound : line starts index - 1 < (upTo starts index).length) :
    lineStart starts index = (upTo starts index)[line starts index - 1] := by
  have known : line starts index - 1 < starts.length := by
    have : 0 < line starts index := valid.line_pos
    have : line starts index ≤ starts.length := List.findIdx_le_length
    omega
  simp only [lineStart, upTo_eq_take valid.sorted, List.getElem_take]
  rw [List.getD_eq_getElem?_getD, List.getElem?_eq_getElem known, Option.getD_some]

theorem lineStart_spec (valid : Valid starts) :
    lineStart starts index ∈ upTo starts index ∧
      ∀ s ∈ upTo starts index, s ≤ lineStart starts index := by
  have pos : 0 < line starts index := valid.line_pos
  have length : (upTo starts index).length = line starts index := length_upTo valid.sorted
  have bound : line starts index - 1 < (upTo starts index).length := by omega
  rw [valid.lineStart_eq_getElem bound]
  refine ⟨List.getElem_mem _, fun s member => ?_⟩
  obtain ⟨k, within, rfl⟩ := List.getElem_of_mem member
  by_cases last : k = line starts index - 1
  · subst last
    exact Nat.le_refl _
  · have ascending := List.pairwise_iff_getElem.mp (valid.sorted.filter (· ≤ index))
    exact Nat.le_of_lt (ascending k _ within bound (by omega))

theorem lineStart_eq_of_greatest (valid : Valid starts) (member : s ∈ starts) (le : s ≤ index)
    (greatest : ∀ t ∈ starts, t ≤ index → t ≤ s) : lineStart starts index = s := by
  obtain ⟨last, above⟩ := valid.lineStart_spec
  have := above s (mem_upTo.2 ⟨member, le⟩)
  have := greatest _ (mem_upTo.1 last).1 (mem_upTo.1 last).2
  omega

/-- Where the starts up to a position are the same, it has the same location. -/
theorem locate_congr (valid : Valid starts) (valid' : Valid other)
    (same : ∀ s, s ≤ index → (s ∈ starts ↔ s ∈ other)) :
    locate starts index = locate other index := by
  have perm : (upTo starts index).Perm (upTo other index) := by
    apply (List.perm_ext_iff_of_nodup valid.nodup_upTo valid'.nodup_upTo).mpr
    intro s
    rw [mem_upTo, mem_upTo]
    exact and_congr_left (same s)
  have line_eq : line starts index = line other index := by
    rw [← length_upTo valid.sorted, ← length_upTo valid'.sorted]
    exact perm.length_eq
  have start_eq : lineStart starts index = lineStart other index := by
    obtain ⟨last, above⟩ := valid.lineStart_spec
    obtain ⟨last', above'⟩ := valid'.lineStart_spec
    have := above _ (perm.mem_iff.mpr last')
    have := above' _ (perm.mem_iff.mp last)
    omega
  rw [locate, locate, line_eq, start_eq]

/-- Further starts up to a position move it to a later line. -/
theorem line_eq_iff (valid : Valid starts) (valid' : Valid other)
    (subset : ∀ s ∈ starts, s ≤ index → s ∈ other) :
    line starts index = line other index ↔ ∀ s ∈ other, s ≤ index → s ∈ starts := by
  have upTo_subset : upTo starts index ⊆ upTo other index := by
    intro s member
    obtain ⟨member, le⟩ := mem_upTo.1 member
    exact mem_upTo.2 ⟨subset s member le, le⟩
  have subperm := valid.nodup_upTo.subperm upTo_subset
  rw [← length_upTo valid.sorted, ← length_upTo valid'.sorted]
  constructor
  · intro length s member le
    have perm := subperm.perm_of_length_le length.ge
    exact (mem_upTo.1 (perm.mem_iff.mpr (mem_upTo.2 ⟨member, le⟩))).1
  · intro all
    have back : upTo other index ⊆ upTo starts index := by
      intro s member
      obtain ⟨member, le⟩ := mem_upTo.1 member
      exact mem_upTo.2 ⟨all s member le, le⟩
    exact Nat.le_antisymm subperm.length_le (valid'.nodup_upTo.subperm back).length_le

theorem locate_eq_iff (valid : Valid starts) (valid' : Valid other)
    (subset : ∀ s ∈ starts, s ≤ index → s ∈ other) :
    locate starts index = locate other index ↔ ∀ s ∈ other, s ≤ index → s ∈ starts := by
  constructor
  · intro same
    exact (valid.line_eq_iff valid' subset).mp (congrArg Location.line same)
  · intro all
    exact valid.locate_congr valid' fun s le => ⟨fun h => subset s h le, fun h => all s h le⟩

theorem line_eq_one_iff (valid : Valid starts) :
    line starts index = 1 ↔ ∀ s ∈ starts, s ≤ index → s = 0 := by
  have zero_subset : ∀ s ∈ [0], s ≤ index → s ∈ starts := by
    intro s member _
    obtain rfl := List.mem_singleton.mp member
    exact valid.zero_mem
  have zero : Valid [0] := ⟨List.pairwise_singleton _ 0, List.mem_singleton_self 0⟩
  have first : line [0] index = 1 := rfl
  rw [← first, eq_comm, zero.line_eq_iff valid zero_subset]
  simp only [List.mem_singleton]

theorem lineStart_le (valid : Valid starts) : lineStart starts index ≤ index :=
  (mem_upTo.1 valid.lineStart_spec.1).2

@[simp] theorem position_locate (valid : Valid starts) :
    position starts (locate starts index) = index :=
  Nat.add_sub_cancel' (lineStart_le valid)

theorem line_mono (valid : Valid starts) {later : ℕ} (le : index ≤ later) :
    line starts index ≤ line starts later := by
  rw [← length_upTo valid.sorted, ← length_upTo valid.sorted]
  refine (List.subperm_of_subset valid.nodup_upTo fun s member => ?_).length_le
  obtain ⟨known, before⟩ := mem_upTo.1 member
  exact mem_upTo.2 ⟨known, Nat.le_trans before le⟩

/-- Locations are in the order of their positions. -/
theorem locate_le_iff (valid : Valid starts) {later : ℕ} :
    line starts index < line starts later ∨ line starts index = line starts later ∧
        index - lineStart starts index ≤ later - lineStart starts later ↔
      index ≤ later := by
  constructor
  · rintro (before | ⟨same, le⟩)
    · by_contra after
      have := valid.line_mono (show later ≤ index by omega)
      omega
    · have start := lineStart_congr same
      have start_le : lineStart starts later ≤ later := valid.lineStart_le
      omega
  · intro le
    obtain before | same := (valid.line_mono le).lt_or_eq
    · exact .inl before
    · refine .inr ⟨same, ?_⟩
      rw [lineStart_congr same]
      exact Nat.sub_le_sub_right le _

theorem locate_inj (valid : Valid starts) {other : ℕ} :
    locate starts index = locate starts other ↔ index = other := by
  refine ⟨fun same => ?_, fun same => same ▸ rfl⟩
  have back := congrArg (position starts) same
  rwa [valid.position_locate, valid.position_locate] at back

theorem lineStart_pos (valid : Valid starts) (later : line starts index ≠ 1) :
    0 < lineStart starts index := by
  refine Nat.pos_of_ne_zero fun zero => later (valid.line_eq_one_iff.2 ?_)
  intro s known le
  have := valid.lineStart_spec.2 s (mem_upTo.2 ⟨known, le⟩)
  omega

theorem lineStart_eq_zero (valid : Valid starts) (first : line starts index = 1) :
    lineStart starts index = 0 := by
  obtain ⟨member, le⟩ := mem_upTo.1 valid.lineStart_spec.1
  exact valid.line_eq_one_iff.1 first _ member le

/-- The next start is one line further. -/
theorem line_succ (valid : Valid starts) {next : ℕ} (before : index < next)
    (member : next ∈ starts) (gap : ∀ s ∈ starts, s ≤ next → s ≤ index ∨ s = next) :
    line starts next = line starts index + 1 := by
  have perm : (upTo starts next).Perm (next :: upTo starts index) := by
    have new : next ∉ upTo starts index := fun known => by
      have := (mem_upTo.1 known).2
      omega
    refine (List.perm_ext_iff_of_nodup valid.nodup_upTo
      (valid.nodup_upTo.cons new)).mpr fun s => ?_
    rw [List.mem_cons, mem_upTo, mem_upTo]
    constructor
    · rintro ⟨known, le⟩
      obtain le | rfl := gap s known le
      · exact .inr ⟨known, le⟩
      · exact .inl rfl
    · rintro (rfl | ⟨known, le⟩)
      · exact ⟨member, Nat.le_refl s⟩
      · exact ⟨known, by omega⟩
  rw [← length_upTo valid.sorted, ← length_upTo valid.sorted, perm.length_eq, List.length_cons]

theorem lineStart_of_mem (valid : Valid starts) (member : index ∈ starts) :
    lineStart starts index = index :=
  valid.lineStart_eq_of_greatest member (Nat.le_refl index) fun _ _ le => le

end Valid

end Locate

/-! ## A text within a text -/

section Graft

/-- The starts of a text up to `start`, and from there on those of a text that stands in it. -/
def graft (outer : List ℕ) (start : ℕ) (inner : List ℕ) : List ℕ :=
  upTo outer start ++ (inner.filter (0 < ·)).map (start + ·)

variable {outer inner : List ℕ} {start index s : ℕ}

theorem mem_graft :
    s ∈ graft outer start inner ↔
      (s ∈ outer ∧ s ≤ start) ∨ ∃ t ∈ inner, 0 < t ∧ s = start + t := by
  simp [graft, mem_upTo, and_assoc, eq_comm]

theorem Valid.graft (validOuter : Valid outer) (validInner : Valid inner) :
    Valid (graft outer start inner) := by
  refine ⟨List.pairwise_append.mpr ⟨validOuter.sorted.filter _, ?_, ?_⟩, ?_⟩
  · refine List.pairwise_map.mpr ((validInner.sorted.filter _).imp fun {a b} lt => ?_)
    omega
  · intro a before b after
    have := (mem_upTo.1 before).2
    obtain ⟨t, member, rfl⟩ := List.mem_map.mp after
    have : 0 < t := of_decide_eq_true (List.mem_filter.mp member).2
    omega
  · exact mem_graft.2 (.inl ⟨validOuter.zero_mem, Nat.zero_le start⟩)

theorem Valid.length_positive (valid : Valid inner) :
    ((upTo inner index).filter (0 < ·)).length + 1 = line inner index := by
  have perm : (0 :: (upTo inner index).filter (0 < ·)).Perm (upTo inner index) := by
    refine (List.perm_ext_iff_of_nodup ?_ valid.nodup_upTo).mpr fun s => ?_
    · exact (valid.nodup_upTo.filter _).cons (by simp)
    · rw [List.mem_cons, List.mem_filter, decide_eq_true_eq]
      constructor
      · rintro (rfl | ⟨known, -⟩)
        · exact mem_upTo.2 ⟨valid.zero_mem, Nat.zero_le index⟩
        · exact known
      · intro known
        obtain rfl | positive := Nat.eq_zero_or_pos s
        · exact .inl rfl
        · exact .inr ⟨known, positive⟩
  rw [← length_upTo valid.sorted, ← perm.length_eq, List.length_cons]

/-- The first line of the inner text goes on in the line where that text starts. -/
theorem line_graft (validOuter : Valid outer) (validInner : Valid inner) :
    line (graft outer start inner) (start + index) + 1 =
      line outer start + line inner index := by
  have outerPart : upTo (upTo outer start) (start + index) = upTo outer start := by
    apply List.filter_eq_self.mpr
    intro s member
    have := (mem_upTo.1 member).2
    exact decide_eq_true (by omega)
  have innerPart : upTo ((inner.filter (0 < ·)).map (start + ·)) (start + index) =
      ((upTo inner index).filter (0 < ·)).map (start + ·) := by
    rw [upTo, upTo, List.filter_map, List.filter_comm]
    simp [Function.comp_def]
  have parts : upTo (graft outer start inner) (start + index) =
      upTo outer start ++ ((upTo inner index).filter (0 < ·)).map (start + ·) := by
    rw [← outerPart, ← innerPart]
    exact List.filter_append _ _
  rw [← length_upTo (validOuter.graft validInner).sorted, parts, List.length_append,
    List.length_map, length_upTo validOuter.sorted, ← validInner.length_positive]
  omega

theorem lineStart_graft (validOuter : Valid outer) (validInner : Valid inner) :
    lineStart (graft outer start inner) (start + index) =
      if line inner index = 1 then lineStart outer start else start + lineStart inner index := by
  have valid : Valid (graft outer start inner) := validOuter.graft validInner
  split
  · rename_i first
    have only := validInner.line_eq_one_iff.1 first
    obtain ⟨last, above⟩ := validOuter.lineStart_spec
    have le := (mem_upTo.1 last).2
    refine valid.lineStart_eq_of_greatest (mem_graft.2 (.inl (mem_upTo.1 last))) (by omega)
      fun s member within => ?_
    obtain outside | ⟨t, known, positive, rfl⟩ := mem_graft.1 member
    · exact above s (mem_upTo.2 outside)
    · have := only t known (by omega)
      omega
  · rename_i later
    obtain ⟨last, above⟩ := validInner.lineStart_spec
    obtain ⟨member, le⟩ := mem_upTo.1 last
    have positive : 0 < lineStart inner index := validInner.lineStart_pos later
    refine valid.lineStart_eq_of_greatest
      (mem_graft.2 (.inr ⟨_, member, positive, rfl⟩)) (by omega) fun s known within => ?_
    obtain ⟨-, before⟩ | ⟨t, inside, -, rfl⟩ := mem_graft.1 known
    · omega
    · have := above t (mem_upTo.2 ⟨inside, by omega⟩)
      omega

theorem locate_graft (validOuter : Valid outer) (validInner : Valid inner) :
    locate (graft outer start inner) (start + index) =
      { line := line outer start + line inner index - 1
        column :=
          if line inner index = 1 then start - lineStart outer start + index
          else index - lineStart inner index } := by
  have sum : line (graft outer start inner) (start + index) + 1 = _ :=
    line_graft validOuter validInner
  have le : lineStart outer start ≤ start := validOuter.lineStart_le
  rw [locate, lineStart_graft validOuter validInner]
  congr 1
  · omega
  · split
    · omega
    · omega

end Graft

theorem Breaks.valid_starts [DecidableEq α] (breaks : Breaks α) (text : List α) :
    Valid (starts breaks.pattern text) :=
  ⟨starts_pairwise breaks.pattern_pos text, by simp [starts]⟩

end Lines
