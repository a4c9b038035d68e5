import SonarJS.Foundation.OrderedCollections

/-!
# Tries

A trie keeps values under paths of keys. Each node has its children in the order in which
they were added, and possibly a value. A search for a path goes on from the node that it
finds to the first leaf below it, so that it returns a value under a path that begins with
the given one, but the value of the node itself only if the node is a leaf.
-/

inductive Trie (κ α : Type)
  | node (children : List (κ × Trie κ α)) (value : Option α)

namespace Trie

open OrderedMap

variable {κ α : Type}

@[grind =] def children : Trie κ α → List (κ × Trie κ α)
  | node children _ => children

def value : Trie κ α → Option α
  | node _ value => value

def empty : Trie κ α := node [] none

/-- The value of the first leaf. -/
def firstLeaf : Trie κ α → Option α
  | node [] value => value
  | node ((_, child) :: _) _ => child.firstLeaf

variable [DecidableEq κ]

/-- Puts a value under a path, on nodes that are added where they are missing. -/
def insert (v : α) : List κ → Trie κ α → Trie κ α
  | [], t => node t.children (some v)
  | k :: path, t =>
    node (setEntry k (insert v path ((getEntry k t.children).getD empty)) t.children) t.value

@[grind =] def find : List κ → Trie κ α → Option (Trie κ α)
  | [], t => some t
  | k :: path, t => (getEntry k t.children).bind (find path)

/-- The value under a path. -/
def lookup (path : List κ) (t : Trie κ α) : Option α := (t.find path).bind value

/-- The first value under the paths that begin with a path. -/
def findFirst (path : List κ) (t : Trie κ α) : Option α := (t.find path).bind firstLeaf

/-- The trie of a list of values with their paths. -/
def ofList (path : α → List κ) (values : List α) : Trie κ α :=
  values.foldl (fun t v => t.insert v (path v)) empty

section Operations

variable {t : Trie κ α} {v : α} {k : κ} {path path' : List κ}

theorem find_append : t.find (path ++ path') = (t.find path).bind (find path') := by
  induction path generalizing t with
  | nil => rfl
  | cons k path ih =>
      rw [List.cons_append, find, find, Option.bind_assoc]
      exact congrArg _ (funext fun child => ih)

theorem lookup_append : t.lookup (path ++ path') = (t.find path).bind (lookup path') := by
  rw [lookup, find_append, Option.bind_assoc]
  rfl

@[simp] theorem lookup_empty : (empty : Trie κ α).lookup path = none := by
  cases path with
  | nil => rfl
  | cons k path => rfl

theorem lookup_cons : t.lookup (k :: path) = ((getEntry k t.children).getD empty).lookup path := by
  rw [lookup, find]
  cases getEntry k t.children with
  | none => exact lookup_empty.symm
  | some child => rfl

theorem lookup_insert :
    (t.insert v path).lookup path' = if path' = path then some v else t.lookup path' := by
  induction path generalizing t path' with
  | nil =>
      cases path' with
      | nil => rfl
      | cons k path' => rfl
  | cons k path ih =>
      cases path' with
      | nil => rfl
      | cons k' path' =>
          rw [lookup_cons, lookup_cons, insert, children, getEntry_setEntry]
          by_cases same : k' = k
          · simp [same, ih]
          · simp [same]

theorem isSome_find_empty : ((empty : Trie κ α).find path).isSome ↔ path = [] := by
  cases path with
  | nil => simp [find]
  | cons k path => simp [find, empty, children, getEntry]

/-- Insertion adds the nodes on the path. -/
theorem isSome_find_insert :
    ((t.insert v path).find path').isSome ↔ (t.find path').isSome ∨ path' <+: path := by
  induction path generalizing t path' with
  | nil =>
      cases path' with
      | nil => simp [find]
      | cons k path' => simp [insert, find, children]
  | cons k path ih =>
      cases path' with
      | nil => simp [find]
      | cons k' path' =>
          rw [insert, find, find, children, getEntry_setEntry, List.cons_prefix_cons]
          by_cases same : k' = k
          · obtain rfl := same
            rw [if_pos rfl, Option.bind_some, ih, and_iff_right rfl]
            cases getEntry k' t.children with
            | some child => rfl
            | none =>
                -- a new child has the node of the empty path only
                refine (or_iff_right_of_imp fun found => ?_).trans (or_iff_right (by simp)).symm
                rw [isSome_find_empty.1 found]
                exact List.nil_prefix
          · rw [if_neg same, or_iff_left fun wrong => same wrong.1]

/-- The first leaf is found under some path. -/
theorem exists_firstLeaf : ∀ t : Trie κ α, ∃ path leaf,
    t.find path = some leaf ∧ leaf.children = [] ∧ t.firstLeaf = leaf.value ∧
      (t.children ≠ [] → path ≠ [])
  | node [] value => ⟨[], node [] value, rfl, rfl, rfl, fun wrong => absurd rfl wrong⟩
  | node ((k, child) :: rest) value => by
      obtain ⟨path, leaf, found, isLeaf, first, -⟩ := exists_firstLeaf child
      refine ⟨k :: path, leaf, ?_, isLeaf, first, fun _ => List.cons_ne_nil k path⟩
      rw [find, children, getEntry, if_pos rfl]
      exact found

theorem eq_nil_of_isLeaf (isLeaf : t.children = []) (found : (t.lookup path).isSome) :
    path = [] := by
  cases path with
  | nil => rfl
  | cons k path => simp [lookup, find, isLeaf, getEntry] at found

end Operations

/-! ## The trie of a list -/

section OfList

variable {path : α → List κ} {values : List α} {v : α} {q : List κ}

theorem ofList_concat : ofList path (values ++ [v]) = (ofList path values).insert v (path v) := by
  rw [ofList, List.foldl_append]
  rfl

theorem mem_of_lookup_ofList (found : (ofList path values).lookup q = some v) :
    v ∈ values ∧ path v = q := by
  induction values using List.reverseRecOn with
  | nil => cases lookup_empty.symm.trans found
  | append_singleton values w ih =>
      rw [ofList_concat, lookup_insert] at found
      split at found
      next same =>
        obtain rfl := Option.some.inj found
        exact ⟨List.mem_append_right values (List.mem_singleton_self w), same.symm⟩
      next other =>
        obtain ⟨member, same⟩ := ih found
        exact ⟨List.mem_append_left [w] member, same⟩

theorem isSome_lookup_ofList (member : v ∈ values) :
    ((ofList path values).lookup (path v)).isSome := by
  induction values using List.reverseRecOn with
  | nil => cases member
  | append_singleton values w ih =>
      rw [ofList_concat, lookup_insert]
      split
      next same => rfl
      next other =>
        obtain member | member := List.mem_append.mp member
        · exact ih member
        · exact absurd (congrArg path (List.mem_singleton.mp member)) other

theorem isSome_find_ofList :
    ((ofList path values).find q).isSome ↔ q = [] ∨ ∃ w ∈ values, q <+: path w := by
  induction values using List.reverseRecOn with
  | nil => simp [ofList, isSome_find_empty]
  | append_singleton values w ih =>
      rw [ofList_concat, isSome_find_insert, ih, or_assoc]
      simp [or_and_right, exists_or]

/-- What is found is one of the values, with a path that begins with the given one, and with a
longer one if there is one. -/
theorem findFirst_ofList (found : (ofList path values).findFirst q = some v) :
    v ∈ values ∧ q <+: path v ∧ ∀ w ∈ values, q <+: path w → path w ≠ q → path v ≠ q := by
  obtain ⟨n, isNode, first⟩ := Option.bind_eq_some_iff.mp found
  obtain ⟨down, leaf, isLeaf, -, isFirst, longer⟩ := exists_firstLeaf n
  have value : (ofList path values).lookup (q ++ down) = some v := by
    rw [lookup_append, isNode, Option.bind_some, lookup, isLeaf, Option.bind_some, ← isFirst, first]
  obtain ⟨member, split⟩ := mem_of_lookup_ofList value
  refine ⟨member, ⟨down, split.symm⟩, fun w member' starts different same => ?_⟩
  obtain ⟨below, split'⟩ := starts
  have hasValue : ((ofList path values).lookup (path w)).isSome := isSome_lookup_ofList member'
  rw [← split', lookup_append, isNode, Option.bind_some] at hasValue
  refine longer (fun noChildren => different ?_) ?_
  · rw [← split', eq_nil_of_isLeaf noChildren hasValue, List.append_nil]
  · exact List.append_right_eq_self.mp (split.symm.trans same)

theorem isSome_findFirst_ofList :
    ((ofList path values).findFirst q).isSome ↔ ∃ v ∈ values, q <+: path v := by
  constructor
  · intro found
    obtain ⟨v, found⟩ := Option.isSome_iff_exists.mp found
    obtain ⟨member, starts, -⟩ := findFirst_ofList found
    exact ⟨v, member, starts⟩
  · rintro ⟨v, member, starts⟩
    obtain ⟨n, isNode⟩ := Option.isSome_iff_exists.mp
      (isSome_find_ofList.2 (.inr ⟨v, member, starts⟩))
    obtain ⟨down, leaf, isLeaf, noChildren, isFirst, -⟩ := exists_firstLeaf n
    -- the leaf is on the way to a value, and so at its end
    have found : (ofList path values).find (q ++ down) = some leaf := by
      rw [find_append, isNode, Option.bind_some, isLeaf]
    have way : ∃ w ∈ values, q ++ down <+: path w := by
      obtain empty | way := isSome_find_ofList.1 (Option.isSome_of_eq_some found)
      · exact ⟨v, member, empty ▸ List.nil_prefix⟩
      · exact way
    obtain ⟨w, member', below, split⟩ := way
    have hasValue : ((ofList path values).lookup (path w)).isSome := isSome_lookup_ofList member'
    rw [← split, lookup_append, found, Option.bind_some] at hasValue
    rw [eq_nil_of_isLeaf noChildren hasValue] at hasValue
    rw [findFirst, isNode, Option.bind_some, isFirst]
    exact hasValue

end OfList

end Trie
