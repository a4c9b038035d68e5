import Mathlib.Data.List.TakeWhile
import Mathlib.Data.Nat.Notation
import Mathlib.Order.Lattice
import Mathlib.Tactic.Common

/-!
# Reading a list from left to right

A scan reads something at the beginning of a list, goes on behind it and so on to the end. What
is read is at least one element long. The positions where something is read are the starts of
the scan.
-/

namespace Scanning

variable {α β : Type*} (read : List α → β) (width : β → ℕ)

/-- What is read, each with its position. The index is that of the first element. -/
def scan (index : ℕ) : List α → List (ℕ × β)
  | [] => []
  | a :: rest =>
    (index, read (a :: rest)) ::
      scan (index + 1 + (width (read (a :: rest)) - 1))
        (rest.drop (width (read (a :: rest)) - 1))
termination_by list => list.length
decreasing_by exact Nat.lt_succ_of_le (by rw [List.length_drop]; exact Nat.sub_le _ _)

/-- The positions where something is read. -/
inductive Starts (list : List α) : ℕ → Prop
  | zero : Starts list 0
  | next {i : ℕ} : Starts list i → i < list.length →
    Starts list (i + 1 + (width (read (list.drop i)) - 1))

variable {read width} {list : List α}

/-- The scan of what is left, one step further. -/
theorem scan_drop {i : ℕ} (inside : i < list.length) :
    scan read width i (list.drop i) = (i, read (list.drop i)) ::
      scan read width (i + 1 + (width (read (list.drop i)) - 1))
        (list.drop (i + 1 + (width (read (list.drop i)) - 1))) := by
  rw [← List.drop_drop, List.drop_eq_getElem_cons inside, scan]

theorem scan_drop_of_le {i : ℕ} (outside : list.length ≤ i) :
    scan read width i (list.drop i) = [] := by
  rw [List.drop_eq_nil_of_le outside, scan]

theorem starts_of_mem_scan {index : ℕ} {x : β} {i : ℕ} (starts : Starts read width list index)
    (member : (i, x) ∈ scan read width index (list.drop index)) :
    Starts read width list i ∧ i < list.length ∧ x = read (list.drop i) := by
  by_cases inside : index < list.length
  · rw [scan_drop inside, List.mem_cons, Prod.mk.injEq] at member
    obtain ⟨rfl, rfl⟩ | member := member
    · exact ⟨starts, inside, rfl⟩
    · exact starts_of_mem_scan (starts.next inside) member
  · rw [scan_drop_of_le (Nat.not_lt.mp inside)] at member
    cases member
termination_by list.length - index
decreasing_by omega

/-- A scan from one of the starts is the end of the whole scan. -/
theorem scan_subset {i : ℕ} (starts : Starts read width list i) :
    scan read width i (list.drop i) ⊆ scan read width 0 list := by
  induction starts with
  | zero => exact List.Subset.refl _
  | next starts inside ih =>
      rw [scan_drop inside] at ih
      exact List.Subset.trans (List.subset_cons_self _ _) ih

theorem mem_scan {i : ℕ} {x : β} : (i, x) ∈ scan read width 0 list ↔
    Starts read width list i ∧ i < list.length ∧ x = read (list.drop i) := by
  constructor
  · exact starts_of_mem_scan .zero
  · rintro ⟨starts, inside, rfl⟩
    apply scan_subset starts
    rw [scan_drop inside]
    exact List.mem_cons_self

/-- From a start before it the scan comes to a position that nothing is read across. -/
theorem Starts.reach {i p : ℕ} (starts : Starts read width list i) (le : i ≤ p)
    (inside : p ≤ list.length)
    (notAcross : ∀ j, j < p → j + 1 + (width (read (list.drop j)) - 1) ≤ p) :
    Starts read width list p := by
  by_cases same : i = p
  · rwa [← same]
  · have before : i < p := Nat.lt_of_le_of_ne le same
    exact (starts.next (Nat.lt_of_lt_of_le before inside)).reach (notAcross i before) inside
      notAcross
termination_by p - i
decreasing_by omega

end Scanning
