import Mathlib.Algebra.BigOperators.Group.List.Basic
import Mathlib.Data.Finset.Card
import SonarJS.Foundation.OrderedCollections

/-!
# Tallies

A tally adds up values under keys: `map.merge(key, value, sum)` stores the first value
of a key and adds every further one. What a tally holds under a key is the sum of the
values that came with the key, and nothing if there were none. So the order in which the
values came is only visible in the order of the entries.
-/

namespace OrderedMap

variable {κ α : Type*} [DecidableEq κ]

/-- `map.merge(key, value, sum)`. -/
def merge [Add α] (m : OrderedMap κ α) (k : κ) (v : α) : OrderedMap κ α :=
  m.set k (match m.get k with
    | none => v
    | some old => old + v)

/-- The values are added up under their keys, one after another. -/
def tally [Add α] (l : List (κ × α)) : OrderedMap κ α := l.foldl (fun m e => m.merge e.1 e.2) empty

/-- The sum of the values that come with a key, if there are any. -/
def total [AddMonoid α] (l : List (κ × α)) (k : κ) : Option α :=
  if k ∈ l.map Prod.fst then some ((l.filter fun e => e.1 = k).map Prod.snd).sum else none

/-- The number of entries whose value has a property. -/
def countValues (m : OrderedMap κ α) (p : α → Bool) : ℕ := m.entries.countP fun e => p e.2

theorem size_eq_card (m : OrderedMap κ α) : m.size = m.keys.toFinset.card := by
  rw [keys, List.toFinset_card_of_nodup m.nodup, List.length_map, size]

theorem countValues_eq_card (m : OrderedMap κ α) (p : α → Bool) :
    m.countValues p = (m.keys.toFinset.filter fun k => (m.get k).any p).card := by
  have sublist : ((m.entries.filter fun e => p e.2).map Prod.fst).Nodup :=
    m.nodup.sublist (List.filter_sublist.map Prod.fst)
  rw [countValues, List.countP_eq_length_filter, ← List.length_map Prod.fst,
    ← List.toFinset_card_of_nodup sublist]
  congr 1
  ext k
  simp only [List.mem_toFinset, List.mem_map, List.mem_filter, Finset.mem_filter, mem_keys_iff,
    Option.isSome_iff_exists, Option.any_eq_true, get_eq_some_iff]
  constructor
  · rintro ⟨⟨k, v⟩, ⟨member, holds⟩, rfl⟩
    exact ⟨⟨v, member⟩, v, member, holds⟩
  · rintro ⟨-, v, member, holds⟩
    exact ⟨(k, v), ⟨member, holds⟩, rfl⟩

/-- Maps that hold the same have as many values with a property. -/
theorem countValues_eq_of_get_eq {a b : OrderedMap κ α} (h : ∀ k, a.get k = b.get k)
    (p : α → Bool) : a.countValues p = b.countValues p := by
  have keys : a.keys.toFinset = b.keys.toFinset := by
    ext k
    rw [List.mem_toFinset, List.mem_toFinset, mem_keys_iff, mem_keys_iff, h]
  rw [countValues_eq_card, countValues_eq_card, keys]
  simp only [h]

theorem filter_key_eq_nil {l : List (κ × α)} {k : κ} (h : k ∉ l.map Prod.fst) :
    (l.filter fun e => e.1 = k) = [] := by
  rw [List.filter_eq_nil_iff]
  intro e member same
  exact h (List.mem_map.mpr ⟨e, member, of_decide_eq_true same⟩)

omit [DecidableEq κ] in
theorem mem_keys_concat_of_ne {l : List (κ × α)} {e : κ × α} {k : κ} (h : k ≠ e.1) :
    k ∈ (l ++ [e]).map Prod.fst ↔ k ∈ l.map Prod.fst := by
  rw [List.map_append, List.mem_append, List.map_singleton, List.mem_singleton, or_iff_left h]

theorem get_merge [AddMonoid α] (m : OrderedMap κ α) (k x : κ) (v : α) :
    (m.merge k v).get x = if x = k then some ((m.get x).getD 0 + v) else m.get x := by
  rw [merge, get_set]
  by_cases same : x = k
  · subst same
    rw [if_pos rfl, if_pos rfl]
    cases m.get x with
    | none => rw [Option.getD_none, zero_add]
    | some old => rfl
  · rw [if_neg same, if_neg same]

section Total

variable [AddCommMonoid α]

theorem total_perm {l l' : List (κ × α)} (h : l.Perm l') (k : κ) : total l k = total l' k := by
  have sums := ((h.filter fun e => e.1 = k).map Prod.snd).sum_eq
  rw [total, total, sums]
  simp only [(h.map Prod.fst).mem_iff]

theorem total_concat (l : List (κ × α)) (e : κ × α) (k : κ) :
    total (l ++ [e]) k = if k = e.1 then some ((total l k).getD 0 + e.2) else total l k := by
  by_cases same : k = e.1
  · subst same
    by_cases member : e.1 ∈ l.map Prod.fst
    · simp [total, member, List.filter_append]
    · simp [total, member, List.filter_append, filter_key_eq_nil member]
  · rw [if_neg same, total, total]
    simp only [mem_keys_concat_of_ne same, List.filter_append]
    simp [Ne.symm same]

theorem get_tally (l : List (κ × α)) (k : κ) : (tally l).get k = total l k := by
  induction l using List.reverseRecOn with
  | nil => rfl
  | append_singleton l e ih =>
      rw [total_concat, ← ih, tally, List.foldl_append]
      exact get_merge (tally l) e.1 k e.2

theorem mem_keys_tally {l : List (κ × α)} {k : κ} : k ∈ (tally l).keys ↔ k ∈ l.map Prod.fst := by
  rw [mem_keys_iff, get_tally, total]
  split <;> simp [*]

/-- There is an entry for every key that came. -/
theorem size_tally (l : List (κ × α)) : (tally l).size = (l.map Prod.fst).toFinset.card := by
  rw [size_eq_card]
  congr 1
  ext k
  rw [List.mem_toFinset, List.mem_toFinset, mem_keys_tally]

theorem countValues_tally (l : List (κ × α)) (p : α → Bool) : (tally l).countValues p =
    ((l.map Prod.fst).toFinset.filter fun k =>
      p ((l.filter fun e => e.1 = k).map Prod.snd).sum).card := by
  rw [countValues_eq_card]
  congr 1
  ext k
  simp only [Finset.mem_filter, List.mem_toFinset, mem_keys_tally, get_tally, and_congr_right_iff]
  intro member
  rw [total, if_pos member]
  rfl

/-- Values that may be missing are added up. -/
def addUp (l : List (Option α)) : Option α := l.foldr (Option.merge (· + ·)) none

theorem total_append (l l' : List (κ × α)) (k : κ) :
    total (l ++ l') k = Option.merge (· + ·) (total l k) (total l' k) := by
  by_cases member : k ∈ l.map Prod.fst <;> by_cases member' : k ∈ l'.map Prod.fst
  all_goals
    simp [total, member, member', filter_key_eq_nil, List.filter_append, -List.mem_map]

theorem total_flatMap {β : Type*} (f : β → List (κ × α)) (l : List β) (k : κ) :
    total (l.flatMap f) k = addUp (l.map fun b => total (f b) k) := by
  induction l with
  | nil => rfl
  | cons b l ih =>
      rw [List.flatMap_cons, total_append, ih]
      rfl

end Total

/-! ## Grouped tallies -/

variable {ι : Type*} [DecidableEq ι]

/-- `map.computeIfAbsent(group, new).merge(key, value, sum)`. -/
def mergeAt [Add α] (m : OrderedMap ι (OrderedMap κ α)) (i : ι) (k : κ) (v : α) :
    OrderedMap ι (OrderedMap κ α) :=
  m.set i (((m.get i).getD empty).merge k v)

/-- Each group has the tally of what came for it. -/
theorem get_foldl_mergeAt [Add α] (l : List (ι × κ × α)) (i : ι) :
    (l.foldl (fun m e => m.mergeAt e.1 e.2.1 e.2.2) empty).get i =
      if i ∈ l.map Prod.fst then some (tally ((l.filter fun e => e.1 = i).map Prod.snd))
      else none := by
  induction l using List.reverseRecOn with
  | nil => rfl
  | append_singleton l e ih =>
      rw [List.foldl_append]
      change (mergeAt (l.foldl _ empty) e.1 e.2.1 e.2.2).get i = _
      rw [mergeAt, get_set]
      by_cases same : i = e.1
      · subst same
        rw [if_pos rfl, ih]
        by_cases member : e.1 ∈ l.map Prod.fst
        · simp [member, List.filter_append, tally]
        · simp [member, List.filter_append, filter_key_eq_nil member, tally]
      · rw [if_neg same, ih]
        simp only [mem_keys_concat_of_ne same, List.filter_append]
        simp [Ne.symm same]

end OrderedMap
