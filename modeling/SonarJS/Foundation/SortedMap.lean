import Mathlib.Data.List.Induction
import Mathlib.Data.List.Pairwise
import Mathlib.Order.Lattice
import Mathlib.Tactic.Tauto

/-!
# Sorted maps

A sorted map enumerates its entries in the order of their keys and can be asked for the
last entry at or before a key. Read this way it is a step function: each entry says what
holds from its key up to the next one.

A library of persistent trees implements sorted maps: what its operations return is
determined by the sorted map that a tree stands for.
-/

/-- A map that enumerates its entries in the order of their keys. -/
@[ext] structure SortedMap (κ α : Type*) [LinearOrder κ] where
  entries : List (κ × α)
  sorted : entries.Pairwise fun e e' => e.1 < e'.1

namespace SortedMap

variable {κ α : Type*} [LinearOrder κ]

def empty : SortedMap κ α := ⟨[], .nil⟩

/-- The entry with this key. -/
def find (m : SortedMap κ α) (k : κ) : Option (κ × α) := m.entries.find? fun e => e.1 = k

/-- The last entry at or before a key. -/
def le (m : SortedMap κ α) (k : κ) : Option (κ × α) :=
  (m.entries.filter fun e => e.1 ≤ k).getLast?

/-- The first entry after a key. -/
def gt (m : SortedMap κ α) (k : κ) : Option (κ × α) := m.entries.find? fun e => k < e.1

/-- The entries from one key up to, and without, another. -/
def between (m : SortedMap κ α) (lo hi : κ) : List (κ × α) :=
  m.entries.filter fun e => lo ≤ e.1 ∧ e.1 < hi

def set (m : SortedMap κ α) (k : κ) (v : α) : SortedMap κ α where
  entries := (m.entries.filter fun e => e.1 < k) ++ (k, v) :: m.entries.filter fun e => k < e.1
  sorted := by
    rw [List.pairwise_append, List.pairwise_cons]
    refine ⟨m.sorted.filter _, ⟨?_, m.sorted.filter _⟩, ?_⟩
    · intro e he
      simpa using (List.mem_filter.mp he).2
    · intro e he e' he'
      have before : e.1 < k := by simpa using (List.mem_filter.mp he).2
      obtain rfl | he' := List.mem_cons.mp he'
      · exact before
      · exact lt_trans before (by simpa using (List.mem_filter.mp he').2)

@[simp] theorem entries_empty : (empty : SortedMap κ α).entries = [] := rfl

theorem mem_set {m : SortedMap κ α} {k : κ} {v : α} {e : κ × α} :
    e ∈ (m.set k v).entries ↔ e = (k, v) ∨ e ∈ m.entries ∧ e.1 ≠ k := by
  rw [set, List.mem_append, List.mem_cons, List.mem_filter, List.mem_filter,
    decide_eq_true_iff, decide_eq_true_iff, ne_iff_lt_or_gt]
  tauto

/-- A key has one entry. -/
theorem eq_of_mem {m : SortedMap κ α} {e e' : κ × α} (h : e ∈ m.entries) (h' : e' ∈ m.entries)
    (key : e.1 = e'.1) : e = e' := by
  have apart : m.entries.Pairwise fun e e' => e.1 = e'.1 → e = e' :=
    m.sorted.imp fun lt same => absurd same lt.ne
  have symmetric : Std.Symm fun e e' : κ × α => e.1 = e'.1 → e = e' :=
    ⟨fun _ _ h same => (h same.symm).symm⟩
  exact apart.forall_of_forall (fun _ _ _ => rfl) h h' key

/-! ## Questions about a key -/

theorem find_eq_some_iff {m : SortedMap κ α} {k : κ} {e : κ × α} :
    m.find k = some e ↔ e ∈ m.entries ∧ e.1 = k := by
  constructor
  · intro h
    exact ⟨List.mem_of_find?_eq_some h, by simpa using List.find?_some h⟩
  · rintro ⟨member, rfl⟩
    cases found : m.find e.1 with
    | none =>
        exact absurd (decide_eq_true rfl) (List.find?_eq_none.mp found e member)
    | some e' =>
        have same : e'.1 = e.1 := by simpa using List.find?_some found
        rw [eq_of_mem (List.mem_of_find?_eq_some found) member same]

theorem find_eq_none_iff {m : SortedMap κ α} {k : κ} :
    m.find k = none ↔ ∀ e ∈ m.entries, e.1 ≠ k := by
  simp [find]

theorem find_set_eq_none_iff {m : SortedMap κ α} {k c : κ} {v : α} :
    (m.set k v).find c = none ↔ c ≠ k ∧ m.find c = none := by
  rw [find_eq_none_iff, find_eq_none_iff]
  constructor
  · intro absent
    have other : c ≠ k := fun same => absent (k, v) (mem_set.2 (.inl rfl)) same.symm
    refine ⟨other, fun e he same => ?_⟩
    exact absent e (mem_set.2 (.inr ⟨he, same.trans_ne other⟩)) same
  · rintro ⟨other, absent⟩ e he
    obtain rfl | ⟨member, -⟩ := mem_set.1 he
    · exact other.symm
    · exact absent e member

theorem le_eq_none_iff {m : SortedMap κ α} {k : κ} :
    m.le k = none ↔ ∀ e ∈ m.entries, k < e.1 := by
  simp [le]

/-- The last entry at or before the key has the greatest key of those. -/
theorem greatest_of_le {m : SortedMap κ α} {k : κ} {e : κ × α} (found : m.le k = some e) :
    e ∈ m.entries ∧ e.1 ≤ k ∧ ∀ e' ∈ m.entries, e'.1 ≤ k → e'.1 ≤ e.1 := by
  obtain ⟨front, split⟩ := List.getLast?_eq_some_iff.mp found
  have member : e ∈ m.entries.filter fun e => e.1 ≤ k := by
    rw [split]
    exact List.mem_append_right _ (List.mem_singleton_self e)
  obtain ⟨inMap, atOrBefore⟩ := List.mem_filter.mp member
  refine ⟨inMap, by simpa using atOrBefore, fun e' he' before => ?_⟩
  have member' : e' ∈ m.entries.filter fun e => e.1 ≤ k :=
    List.mem_filter.mpr ⟨he', by simpa using before⟩
  have sorted := m.sorted.filter fun e => e.1 ≤ k
  rw [split] at member' sorted
  obtain inFront | isLast := List.mem_append.mp member'
  · exact ((List.pairwise_append.mp sorted).2.2 e' inFront e (List.mem_singleton_self e)).le
  · rw [List.mem_singleton.mp isLast]

/-- Of the entries at or before the key, the one with the greatest key. -/
theorem le_eq_some_iff {m : SortedMap κ α} {k : κ} {e : κ × α} :
    m.le k = some e ↔ e ∈ m.entries ∧ e.1 ≤ k ∧ ∀ e' ∈ m.entries, e'.1 ≤ k → e'.1 ≤ e.1 := by
  constructor
  · exact greatest_of_le
  · rintro ⟨member, atOrBefore, greatest⟩
    cases found : m.le k with
    | none => exact absurd atOrBefore (le_eq_none_iff.1 found e member).not_ge
    | some e' =>
        obtain ⟨member', atOrBefore', greatest'⟩ := greatest_of_le found
        have same := le_antisymm (greatest e' member' atOrBefore')
          (greatest' e member atOrBefore)
        rw [eq_of_mem member' member same]

/-- An entry holds at its own key. -/
theorem le_of_mem {m : SortedMap κ α} {e : κ × α} (h : e ∈ m.entries) : m.le e.1 = some e :=
  le_eq_some_iff.2 ⟨h, le_rfl, fun _ _ before => before⟩

/-- What holds at a key has held since its own. -/
theorem le_of_le {m : SortedMap κ α} {k k' : κ} {e : κ × α} (h : m.le k = some e)
    (first : e.1 ≤ k') (last : k' ≤ k) : m.le k' = some e := by
  obtain ⟨member, -, greatest⟩ := le_eq_some_iff.1 h
  exact le_eq_some_iff.2 ⟨member, first, fun e' he' before =>
    greatest e' he' (before.trans last)⟩

/-- Where no entry comes in between, the same entry holds. -/
theorem le_eq_le {m : SortedMap κ α} {k k' : κ} (ordered : k ≤ k')
    (none : ∀ e ∈ m.entries, e.1 ≤ k' → e.1 ≤ k) : m.le k = m.le k' := by
  rw [le, le]
  congr 1
  apply List.filter_congr
  intro e member
  exact decide_eq_decide.mpr ⟨fun before => before.trans ordered, none e member⟩

theorem gt_eq_none_iff {m : SortedMap κ α} {k : κ} :
    m.gt k = none ↔ ∀ e ∈ m.entries, e.1 ≤ k := by
  simp [gt]

/-- Of the entries after the key, the one with the least key. -/
theorem gt_eq_some {m : SortedMap κ α} {k : κ} {e : κ × α} (h : m.gt k = some e) :
    e ∈ m.entries ∧ k < e.1 ∧ ∀ e' ∈ m.entries, k < e'.1 → e.1 ≤ e'.1 := by
  refine ⟨List.mem_of_find?_eq_some h, by simpa using List.find?_some h, fun e' he' after => ?_⟩
  obtain ⟨-, front, back, split, before⟩ := List.find?_eq_some_iff_append.mp h
  have sorted := m.sorted
  rw [split] at he' sorted
  obtain inFront | inBack := List.mem_append.mp he'
  · exact absurd after (by simpa using before e' inFront)
  · obtain rfl | inBack := List.mem_cons.mp inBack
    · exact le_rfl
    · exact ((List.pairwise_cons.mp (List.pairwise_append.mp sorted).2.1).1 e' inBack).le

/-- Between an entry and the next one there is none. -/
theorem gt_of_le {m : SortedMap κ α} {k : κ} {e e' : κ × α} (h : m.le k = some e)
    (next : m.gt e.1 = some e') : k < e'.1 ∧ ∀ e'' ∈ m.entries, k < e''.1 → e'.1 ≤ e''.1 := by
  obtain ⟨member, atOrBefore, greatest⟩ := le_eq_some_iff.1 h
  obtain ⟨member', after, least⟩ := gt_eq_some next
  refine ⟨?_, fun e'' he'' after'' => least e'' he'' (lt_of_le_of_lt atOrBefore after'')⟩
  by_contra notAfter
  exact absurd after (greatest e' member' (not_lt.mp notAfter)).not_gt

theorem mem_between {m : SortedMap κ α} {lo hi : κ} {e : κ × α} :
    e ∈ m.between lo hi ↔ e ∈ m.entries ∧ lo ≤ e.1 ∧ e.1 < hi := by
  rw [between, List.mem_filter, decide_eq_true_iff]

/-- A new entry holds from its key up to the next one. -/
theorem le_set (m : SortedMap κ α) (k c : κ) (v : α) : (m.set k v).le c =
    if k ≤ c ∧ ∀ e, m.le c = some e → e.1 ≤ k then some (k, v) else m.le c := by
  split
  case isTrue holds =>
    obtain ⟨reached, last⟩ := holds
    refine le_eq_some_iff.2 ⟨mem_set.2 (.inl rfl), reached, fun e he before => ?_⟩
    obtain rfl | ⟨member, -⟩ := mem_set.1 he
    · exact le_rfl
    · cases found : m.le c with
      | none => exact absurd before (le_eq_none_iff.1 found e member).not_ge
      | some e' => exact ((le_eq_some_iff.1 found).2.2 e member before).trans (last e' found)
  case isFalse fails =>
    cases found : m.le c with
    | none =>
        refine le_eq_none_iff.2 fun e he => ?_
        obtain rfl | ⟨member, -⟩ := mem_set.1 he
        · by_contra reached
          exact fails ⟨not_lt.mp reached, by rw [found]; nofun⟩
        · exact le_eq_none_iff.1 found e member
    | some e =>
        obtain ⟨member, before, greatest⟩ := le_eq_some_iff.1 found
        have other : k ≤ c → k < e.1 := by
          intro reached
          by_contra notAfter
          refine fails ⟨reached, fun e' he' => ?_⟩
          rw [found] at he'
          cases he'
          exact not_lt.mp notAfter
        apply le_eq_some_iff.2
        refine ⟨mem_set.2 (.inr ⟨member, ?_⟩), before, fun e' he' before' => ?_⟩
        · rintro rfl
          exact lt_irrefl _ (other before)
        · obtain rfl | ⟨member', -⟩ := mem_set.1 he'
          · exact (other before').le
          · exact greatest e' member' before'

/-- A new entry is not seen where a later one holds. -/
theorem le_set_eq_some_iff {m : SortedMap κ α} {k c : κ} {v : α} {e : κ × α} (h : k < e.1) :
    (m.set k v).le c = some e ↔ m.le c = some e := by
  rw [le_set]
  split
  case isTrue holds =>
    constructor
    · intro same
      cases same
      exact absurd h (lt_irrefl _)
    · intro found
      exact absurd (holds.2 e found) h.not_ge
  case isFalse => rfl

end SortedMap

/-- A library of persistent trees. An iterator that stands at an entry is given by the key
of the entry, and a position beside the entries by nothing. -/
structure PersistentTrees (κ α : Type) [LinearOrder κ] where
  Tree : Type
  createTree : Tree
  /-- What an iterator passes from the beginning of the tree. -/
  entries : Tree → List (κ × α)
  find : Tree → κ → Option (κ × α)
  le : Tree → κ → Option (κ × α)
  gt : Tree → κ → Option (κ × α)
  /-- What is visited from one key up to another. -/
  between : Tree → κ → κ → List (κ × α)
  insert : Tree → κ → α → Tree
  /-- The tree in which the iterator at a key has changed the value. -/
  update : Tree → κ → α → Tree
  sorted : ∀ tree, (entries tree).Pairwise fun e e' => e.1 < e'.1
  entries_createTree : entries createTree = []
  find_eq : ∀ tree k, find tree k = SortedMap.find ⟨entries tree, sorted tree⟩ k
  le_eq : ∀ tree k, le tree k = SortedMap.le ⟨entries tree, sorted tree⟩ k
  gt_eq : ∀ tree k, gt tree k = SortedMap.gt ⟨entries tree, sorted tree⟩ k
  between_eq : ∀ tree lo hi,
    between tree lo hi = SortedMap.between ⟨entries tree, sorted tree⟩ lo hi
  entries_insert : ∀ tree k v, find tree k = none →
    entries (insert tree k v) = (SortedMap.set ⟨entries tree, sorted tree⟩ k v).entries
  entries_update : ∀ tree k v, (find tree k).isSome →
    entries (update tree k v) = (SortedMap.set ⟨entries tree, sorted tree⟩ k v).entries

/-- Where every step starts over, only the last one counts. -/
theorem foldl_last {α β : Type*} (p : α → Prop) [DecidablePred p] (f : α → β) (l : List α)
    (start : β) : l.foldl (fun acc x => if p x then f x else acc) start =
      ((l.filter p).getLast?.map f).getD start := by
  induction l using List.reverseRecOn with
  | nil => rfl
  | append_singleton l x ih =>
      rw [List.foldl_append, List.foldl_cons, List.foldl_nil, ih, List.filter_append]
      by_cases holds : p x
      · simp [holds]
      · simp [holds]

namespace PersistentTrees

variable {κ α : Type} [LinearOrder κ]

/-- What a tree stands for. -/
def contents (trees : PersistentTrees κ α) (tree : trees.Tree) : SortedMap κ α :=
  ⟨trees.entries tree, trees.sorted tree⟩

/-- Sorted maps are such trees themselves. -/
def sortedMaps (κ α : Type) [LinearOrder κ] : PersistentTrees κ α where
  Tree := SortedMap κ α
  createTree := .empty
  entries := SortedMap.entries
  find := SortedMap.find
  le := SortedMap.le
  gt := SortedMap.gt
  between := SortedMap.between
  insert := SortedMap.set
  update := SortedMap.set
  sorted := SortedMap.sorted
  entries_createTree := rfl
  find_eq _ _ := rfl
  le_eq _ _ := rfl
  gt_eq _ _ := rfl
  between_eq _ _ _ := rfl
  entries_insert _ _ _ _ := rfl
  entries_update _ _ _ _ := rfl

end PersistentTrees
