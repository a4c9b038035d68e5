import Mathlib.Data.Finset.Basic
import Mathlib.Data.List.Nodup
import Mathlib.Data.List.Perm.Subperm

/-!
# Insertion-ordered maps and sets

A JavaScript `Map` or `Set`, and a Java `LinkedHashMap`, enumerate their elements
in the order in which they were first inserted. Both are lists here, together with
the proof that no key occurs twice. Setting a key that is present keeps its place;
a new key goes to the end.

Clients reason through `get`, membership and the lemmas below; the list is only
visible where the source itself enumerates a collection.
-/

/-- A map that enumerates its entries in insertion order. -/
structure OrderedMap (κ α : Type*) where
  entries : List (κ × α)
  nodup : (entries.map Prod.fst).Nodup
deriving DecidableEq

namespace OrderedMap

variable {κ α β : Type*} [DecidableEq κ]

/-- The value of the first entry with this key. -/
@[grind =] def getEntry (k : κ) : List (κ × α) → Option α
  | [] => none
  | e :: rest => if e.1 = k then some e.2 else getEntry k rest

/-- Overwrite the entry of a key in place, or append it. -/
@[grind =] def setEntry (k : κ) (v : α) : List (κ × α) → List (κ × α)
  | [] => [(k, v)]
  | e :: rest => if e.1 = k then (k, v) :: rest else e :: setEntry k v rest

theorem mem_keys_setEntry {k x : κ} {v : α} {l : List (κ × α)} :
    x ∈ (setEntry k v l).map Prod.fst ↔ x = k ∨ x ∈ l.map Prod.fst := by
  induction l with
  | nil => simp [setEntry]
  | cons e rest ih =>
      by_cases h : e.1 = k
      · subst h
        simp [setEntry]
      · simp only [setEntry, if_neg h, List.map_cons, List.mem_cons, ih]
        tauto

theorem nodup_setEntry {k : κ} {v : α} {l : List (κ × α)} (h : (l.map Prod.fst).Nodup) :
    ((setEntry k v l).map Prod.fst).Nodup := by
  induction l with
  | nil => simp [setEntry]
  | cons e rest ih =>
      rw [List.map_cons, List.nodup_cons] at h
      by_cases hk : e.1 = k
      · subst hk
        simpa [setEntry] using h
      · rw [setEntry, if_neg hk, List.map_cons, List.nodup_cons, mem_keys_setEntry]
        exact ⟨not_or.mpr ⟨hk, h.1⟩, ih h.2⟩

theorem getEntry_setEntry (k x : κ) (v : α) (l : List (κ × α)) :
    getEntry x (setEntry k v l) = if x = k then some v else getEntry x l := by
  induction l with
  | nil => simp [setEntry, getEntry, eq_comm]
  | cons e rest ih =>
      by_cases hk : e.1 = k
      · subst hk
        by_cases hx : x = e.1
        · simp [setEntry, getEntry, hx]
        · simp [setEntry, getEntry, hx, Ne.symm hx]
      · by_cases hx : e.1 = x
        · subst hx
          simp [setEntry, getEntry, hk]
        · simp [setEntry, getEntry, hk, hx, ih]

theorem getEntry_eq_some_iff {k : κ} {v : α} {l : List (κ × α)}
    (h : (l.map Prod.fst).Nodup) : getEntry k l = some v ↔ (k, v) ∈ l := by
  induction l with
  | nil => simp [getEntry]
  | cons e rest ih =>
      rw [List.map_cons, List.nodup_cons] at h
      by_cases hk : e.1 = k
      · subst hk
        have absent : (e.1, v) ∉ rest := fun member =>
          h.1 (List.mem_map.mpr ⟨_, member, rfl⟩)
        simp only [getEntry, if_pos, Option.some.injEq, List.mem_cons, absent, or_false]
        exact ⟨fun hv => by rw [← hv], fun he => by rw [← he]⟩
      · rw [getEntry, if_neg hk, ih h.2, List.mem_cons]
        refine ⟨.inr, fun member => member.resolve_left ?_⟩
        intro he
        exact hk (by rw [← he])

def empty : OrderedMap κ α := ⟨[], List.nodup_nil⟩

def get (m : OrderedMap κ α) (k : κ) : Option α := getEntry k m.entries

def set (m : OrderedMap κ α) (k : κ) (v : α) : OrderedMap κ α :=
  ⟨setEntry k v m.entries, nodup_setEntry m.nodup⟩

def delete (m : OrderedMap κ α) (k : κ) : OrderedMap κ α :=
  ⟨m.entries.filter fun e => e.1 ≠ k, m.nodup.sublist (List.filter_sublist.map _)⟩

def keys (m : OrderedMap κ α) : List κ := m.entries.map Prod.fst

def size (m : OrderedMap κ α) : ℕ := m.entries.length

/-- Run through the entries of `b` in order and store each of them in `a`, combined
with what `a` holds under the same key. -/
def mergeWith (f : Option α → β → α) (a : OrderedMap κ α) (b : OrderedMap κ β) :
    OrderedMap κ α :=
  b.entries.foldl (fun acc e => acc.set e.1 (f (acc.get e.1) e.2)) a

@[simp] theorem get_empty (k : κ) : (empty : OrderedMap κ α).get k = none := rfl

@[simp] theorem get_set (m : OrderedMap κ α) (k x : κ) (v : α) :
    (m.set k v).get x = if x = k then some v else m.get x :=
  getEntry_setEntry k x v m.entries

theorem get_eq_some_iff {m : OrderedMap κ α} {k : κ} {v : α} :
    m.get k = some v ↔ (k, v) ∈ m.entries :=
  getEntry_eq_some_iff m.nodup

theorem mem_keys_iff {m : OrderedMap κ α} {k : κ} : k ∈ m.keys ↔ (m.get k).isSome := by
  simp only [keys, List.mem_map, Option.isSome_iff_exists, get_eq_some_iff]
  constructor
  · rintro ⟨⟨k', v⟩, member, rfl⟩
    exact ⟨v, member⟩
  · rintro ⟨v, member⟩
    exact ⟨(k, v), member, rfl⟩

@[simp] theorem get_delete (m : OrderedMap κ α) (k x : κ) :
    (m.delete k).get x = if x = k then none else m.get x := by
  rw [Option.ext_iff]
  intro v
  rw [get_eq_some_iff, delete, List.mem_filter]
  by_cases same : x = k
  · simp [same]
  · simp [same, get_eq_some_iff]

theorem setEntry_of_not_mem {k : κ} {v : α} {l : List (κ × α)} (h : k ∉ l.map Prod.fst) :
    setEntry k v l = l ++ [(k, v)] := by
  induction l with
  | nil => rfl
  | cons e rest ih =>
      rw [List.map_cons, List.mem_cons, not_or] at h
      rw [setEntry, if_neg (Ne.symm h.1), ih h.2, List.cons_append]

/-- Setting new and distinct keys appends their entries. -/
theorem entries_foldl_set (f : κ → α) {l : List κ} {m : OrderedMap κ α} (nodup : l.Nodup)
    (fresh : ∀ k ∈ l, k ∉ m.keys) :
    (l.foldl (fun m k => m.set k (f k)) m).entries = m.entries ++ l.map fun k => (k, f k) := by
  induction l generalizing m with
  | nil => simp
  | cons k l ih =>
      rw [List.nodup_cons] at nodup
      rw [List.forall_mem_cons] at fresh
      have added : (m.set k (f k)).entries = m.entries ++ [(k, f k)] := setEntry_of_not_mem fresh.1
      rw [List.foldl_cons, ih nodup.2, added, List.append_assoc, List.singleton_append,
        List.map_cons]
      intro x hx
      rw [keys, added, List.map_append, List.mem_append, not_or]
      exact ⟨fresh.2 x hx, by simpa using ne_of_mem_of_not_mem hx nodup.1⟩

private theorem get_foldl_set (f : Option α → β → α) (l : List (κ × β))
    (h : (l.map Prod.fst).Nodup) (a : OrderedMap κ α) (k : κ) :
    (l.foldl (fun acc e => acc.set e.1 (f (acc.get e.1) e.2)) a).get k =
      match getEntry k l with
      | none => a.get k
      | some v => some (f (a.get k) v) := by
  induction l generalizing a with
  | nil => rfl
  | cons e rest ih =>
      rw [List.map_cons, List.nodup_cons] at h
      rw [List.foldl_cons, ih h.2]
      by_cases hk : e.1 = k
      · subst hk
        have absent : getEntry e.1 rest = none := by
          rw [Option.eq_none_iff_forall_ne_some]
          intro v hv
          exact h.1 (List.mem_map.mpr ⟨_, (getEntry_eq_some_iff h.2).mp hv, rfl⟩)
        simp [getEntry, absent]
      · simp [getEntry, hk, Ne.symm hk]

/-- Merging acts key by key. -/
theorem get_mergeWith (f : Option α → β → α) (a : OrderedMap κ α) (b : OrderedMap κ β) (k : κ) :
    (mergeWith f a b).get k =
      match b.get k with
      | none => a.get k
      | some v => some (f (a.get k) v) :=
  get_foldl_set f b.entries b.nodup a k

/-- Two maps of the same size agree as soon as every entry of the first is found in
the second: the keys of the first already exhaust those of the second. -/
theorem get_eq_of_size_eq {a b : OrderedMap κ α} (size : a.size = b.size)
    (found : ∀ e ∈ a.entries, b.get e.1 = some e.2) (k : κ) : a.get k = b.get k := by
  have sub : a.keys ⊆ b.keys := by
    intro x hx
    obtain ⟨e, he, rfl⟩ := List.mem_map.mp hx
    rw [mem_keys_iff, found e he]
    rfl
  have perm : a.keys.Perm b.keys := by
    apply (List.subperm_of_subset a.nodup sub).perm_of_length_le
    simpa [keys, OrderedMap.size] using size.ge
  cases ha : a.get k with
  | some v => exact (found (k, v) (get_eq_some_iff.1 ha)).symm
  | none =>
      symm
      rw [← Option.not_isSome_iff_eq_none, ← mem_keys_iff, ← perm.mem_iff, mem_keys_iff, ha]
      simp

theorem size_eq_of_get_eq {a b : OrderedMap κ α} (h : ∀ k, a.get k = b.get k) :
    a.size = b.size := by
  have perm : a.keys.Perm b.keys := by
    apply (List.perm_ext_iff_of_nodup a.nodup b.nodup).mpr
    intro k
    change k ∈ a.keys ↔ k ∈ b.keys
    rw [mem_keys_iff, mem_keys_iff, h]
  simpa [keys, OrderedMap.size] using perm.length_eq

end OrderedMap

/-- A set that enumerates its elements in insertion order. -/
structure OrderedSet (α : Type*) where
  elems : List α
  nodup : elems.Nodup
deriving DecidableEq

namespace OrderedSet

variable {α : Type*}

instance : Membership α (OrderedSet α) := ⟨fun s x => x ∈ s.elems⟩

theorem mem_def {s : OrderedSet α} {x : α} : x ∈ s ↔ x ∈ s.elems := Iff.rfl

def empty : OrderedSet α := ⟨[], List.nodup_nil⟩

@[simp] theorem not_mem_empty (x : α) : x ∉ (empty : OrderedSet α) := List.not_mem_nil

variable [DecidableEq α]

instance (s : OrderedSet α) (x : α) : Decidable (x ∈ s) := inferInstanceAs (Decidable (x ∈ s.elems))

def add (s : OrderedSet α) (x : α) : OrderedSet α :=
  if h : x ∈ s.elems then s
  else ⟨s.elems ++ [x], List.nodup_append.mpr ⟨s.nodup, List.nodup_singleton x,
    fun y hy z hz => by rw [List.mem_singleton.mp hz]; exact fun e => h (e ▸ hy)⟩⟩

def delete (s : OrderedSet α) (x : α) : OrderedSet α := ⟨s.elems.erase x, s.nodup.erase x⟩

/-- The set made of a sequence, as a constructor call makes it. -/
def ofList (l : List α) : OrderedSet α := l.foldl add empty

@[simp] theorem mem_add {s : OrderedSet α} {x y : α} : y ∈ s.add x ↔ y ∈ s ∨ y = x := by
  unfold add
  split
  · rename_i h
    constructor
    · exact .inl
    · rintro (hy | rfl)
      · exact hy
      · exact h
  · simp [mem_def]

@[simp] theorem mem_delete {s : OrderedSet α} {x y : α} : y ∈ s.delete x ↔ y ∈ s ∧ y ≠ x := by
  rw [mem_def, delete, s.nodup.mem_erase_iff, and_comm]
  rfl

theorem mem_foldl_add {l : List α} {s : OrderedSet α} {x : α} :
    x ∈ l.foldl add s ↔ x ∈ s ∨ x ∈ l := by
  induction l generalizing s with
  | nil => simp
  | cons y rest ih => simp [ih, or_assoc]

@[simp] theorem mem_ofList {l : List α} {x : α} : x ∈ ofList l ↔ x ∈ l := by
  simp [ofList, mem_foldl_add]

/-- Adding elements that are new and distinct appends them. -/
theorem elems_foldl_add {l : List α} {s : OrderedSet α} (nodup : l.Nodup)
    (fresh : ∀ x ∈ l, x ∉ s) : (l.foldl add s).elems = s.elems ++ l := by
  induction l generalizing s with
  | nil => simp
  | cons x l ih =>
      rw [List.nodup_cons] at nodup
      rw [List.forall_mem_cons] at fresh
      have added : (s.add x).elems = s.elems ++ [x] := by
        rw [add, dif_neg (mem_def.not.mp fresh.1)]
      rw [List.foldl_cons, ih nodup.2, added, List.append_assoc, List.singleton_append]
      intro y hy
      rw [mem_add, not_or]
      exact ⟨fresh.2 y hy, ne_of_mem_of_not_mem hy nodup.1⟩

theorem elems_ofList {l : List α} (nodup : l.Nodup) : (ofList l).elems = l :=
  elems_foldl_add nodup fun x _ => not_mem_empty x

/-- The elements without their order. -/
def toFinset (s : OrderedSet α) : Finset α := s.elems.toFinset

@[simp] theorem mem_toFinset {s : OrderedSet α} {x : α} : x ∈ s.toFinset ↔ x ∈ s := by
  simp [toFinset, mem_def]

end OrderedSet
