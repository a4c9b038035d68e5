import Mathlib.Data.List.Basic
import Mathlib.Data.Nat.Notation
import Mathlib.Data.Option.Basic
import Mathlib.Order.Lattice
import Mathlib.Tactic.Common

/-!
# Repeating a step with backtracking

A step has a list of results, in the order in which they are tried. If it is repeated, more
repetitions are tried either before or behind fewer of them. The first results that are accepted
are compared: trying more repetitions first changes the result exactly if the other one can be
continued.
-/

namespace Backtracking

/-! ## The first result -/

section First

variable {α β γ : Type*} {l : List α}

theorem mem_head?_flatMap {f : α → List β} {b : β} (first : b ∈ (l.flatMap f).head?) :
    ∃ a ∈ l, b ∈ (f a).head? := by
  rw [List.head?_flatMap] at first
  exact List.exists_of_findSome?_eq_some first

theorem head?_flatMap_of_ne_nil {f : α → List β} (nonempty : ∀ a, f a ≠ []) :
    (l.flatMap f).head? = l.head?.bind fun a => (f a).head? := by
  cases l with
  | nil => rfl
  | cons a l => rw [List.flatMap_cons, List.head?_append_of_ne_nil _ (nonempty a)]; rfl

/-- Two searches that find related things in each place find related things. -/
theorem rel_findSome? {r : β → γ → Prop} {f : α → Option β} {g : α → Option γ}
    (related : ∀ a ∈ l, Option.Rel r (f a) (g a)) :
    Option.Rel r (l.findSome? f) (l.findSome? g) := by
  induction l with
  | nil => exact .none
  | cons a l ih =>
      have rest := ih fun a member => related a (List.mem_cons_of_mem _ member)
      have here := related a List.mem_cons_self
      rw [List.findSome?_cons, List.findSome?_cons]
      cases found : f a with
      | some b =>
          rw [found] at here
          cases found' : g a with
          | some c => rwa [found'] at here
          | none => rw [found'] at here; cases here
      | none =>
          rw [found] at here
          cases found' : g a with
          | some c => rw [found'] at here; cases here
          | none => exact rest

theorem rel_mono_of_mem {r r' : β → γ → Prop} {first : Option β} {second : Option γ}
    (related : Option.Rel r first second)
    (mono : ∀ b ∈ first, ∀ c ∈ second, r b c → r' b c) : Option.Rel r' first second := by
  cases related with
  | some h => exact .some (mono _ rfl _ rfl h)
  | none => exact .none

theorem rel_map {β' γ' : Type*} {r : β' → γ' → Prop} {f : β → β'} {g : γ → γ'} {first : Option β}
    {second : Option γ} (related : Option.Rel (fun b c => r (f b) (g c)) first second) :
    Option.Rel r (first.map f) (second.map g) := by
  cases related with
  | some h => exact .some h
  | none => exact .none

theorem rel_self {r : β → β → Prop} {first : Option β} (related : ∀ b ∈ first, r b b) :
    Option.Rel r first first := by
  cases first with
  | none => exact .none
  | some b => exact .some (related b rfl)

theorem rel_or {r : β → γ → Prop} {first first' : Option β} {second second' : Option γ}
    (here : Option.Rel r first second) (further : Option.Rel r first' second') :
    Option.Rel r (first.or first') (second.or second') := by
  cases here with
  | some h => exact .some h
  | none => exact further

end First

/-! ## Repetitions -/

variable {σ : Type*} (step : σ → List σ)

/-- The results of some number of repetitions. -/
@[grind =] def times : ℕ → σ → List σ
  | 0, x => [x]
  | n + 1, x => (step x).flatMap (times n)

/-- The results of repetitions up to a bound, each with their number, which starts at `n`. -/
@[grind =] def star (greedy : Bool) : ℕ → ℕ → σ → List (ℕ × σ)
  | 0, n, x => [(n, x)]
  | bound + 1, n, x =>
    if greedy then (step x).flatMap (star greedy bound (n + 1)) ++ [(n, x)]
    else (n, x) :: (step x).flatMap (star greedy bound (n + 1))

variable {step} {greedy : Bool} {bound n : ℕ} {x y : σ}

theorem head?_star_reluctant : (star step false bound n x).head? = some (n, x) := by
  cases bound with
  | zero => rfl
  | succ bound => rfl

theorem star_ne_nil : star step greedy bound n x ≠ [] := by
  cases bound with
  | zero => simp [star]
  | succ bound => cases greedy <;> simp [star]

theorem mem_star_succ {result : ℕ × σ} :
    result ∈ star step greedy (bound + 1) n x ↔
      result = (n, x) ∨ ∃ y ∈ step x, result ∈ star step greedy bound (n + 1) y := by
  cases greedy with
  | false => simp [star]
  | true => simp [star, or_comm]

/-- Repetitions are tried up to the bound. -/
theorem mem_star {m : ℕ} :
    (m, y) ∈ star step greedy bound n x ↔ ∃ k ≤ bound, m = n + k ∧ y ∈ times step k x := by
  induction bound generalizing n x with
  | zero => simp [star, times]
  | succ bound ih =>
      rw [mem_star_succ]
      constructor
      · rintro (same | ⟨z, next, member⟩)
        · obtain ⟨rfl, rfl⟩ := Prod.mk.inj same
          exact ⟨0, Nat.zero_le _, rfl, List.mem_singleton_self _⟩
        · obtain ⟨k, small, rfl, rest⟩ := ih.mp member
          refine ⟨k + 1, Nat.succ_le_succ small, by omega, ?_⟩
          exact List.mem_flatMap.mpr ⟨z, next, rest⟩
      · rintro ⟨_ | k, small, rfl, member⟩
        · obtain rfl := List.mem_singleton.mp member
          exact .inl rfl
        · obtain ⟨z, next, rest⟩ := List.mem_flatMap.mp member
          exact .inr ⟨z, next, ih.mpr ⟨k, Nat.le_of_succ_le_succ small, by omega, rest⟩⟩

/-! ## Steps that agree where an invariant holds -/

section Agree

variable {step' : σ → List σ} {P : σ → Prop} (agree : ∀ x, P x → step x = step' x)
  (kept : ∀ x, P x → ∀ y ∈ step x, P y)

include kept

theorem invariant_of_mem_times {k : ℕ} (holds : P x) (member : y ∈ times step k x) : P y := by
  induction k generalizing x with
  | zero =>
      obtain rfl := List.mem_singleton.mp member
      exact holds
  | succ k ih =>
      obtain ⟨z, next, member⟩ := List.mem_flatMap.mp member
      exact ih (kept x holds z next) member

include agree

theorem times_congr {k : ℕ} (holds : P x) : times step k x = times step' k x := by
  induction k generalizing x with
  | zero => rfl
  | succ k ih =>
      rw [times, times, ← agree x holds]
      exact List.flatMap_congr fun y next => ih (kept x holds y next)

theorem star_congr (holds : P x) :
    star step greedy bound n x = star step' greedy bound n x := by
  induction bound generalizing n x with
  | zero => rfl
  | succ bound ih =>
      have further : (step x).flatMap (star step greedy bound (n + 1)) =
          (step' x).flatMap (star step' greedy bound (n + 1)) := by
        rw [← agree x holds]
        exact List.flatMap_congr fun y next => ih (kept x holds y next)
      rw [star, star, further]

end Agree

/-! ## Fewer and more repetitions -/

section Accepted

variable (accepts : σ → Bool)

theorem find?_star_zero :
    (star step greedy 0 n x).find? (accepts ·.2) = if accepts x then some (n, x) else none :=
  List.find?_singleton

theorem find?_star_reluctant :
    (star step false (bound + 1) n x).find? (accepts ·.2) = if accepts x then some (n, x) else
      (step x).findSome? fun y => (star step false bound (n + 1) y).find? (accepts ·.2) := by
  rw [star, if_neg Bool.false_ne_true, List.find?_cons, List.find?_flatMap]
  cases accepts x <;> rfl

theorem find?_star_greedy :
    (star step true (bound + 1) n x).find? (accepts ·.2) =
      ((step x).findSome? fun y => (star step true bound (n + 1) y).find? (accepts ·.2)).or
        (if accepts x then some (n, x) else none) := by
  rw [star, if_pos rfl, List.find?_append, List.find?_flatMap, List.find?_singleton]

variable {accepts}

/-- What is found behind `x` has more repetitions. -/
theorem more_iff {accepts : σ → Bool} :
    (∃ z ∈ step x, ∃ result ∈ star step greedy bound (n + 1) z, accepts result.2) ↔
      ∃ k, 0 < k ∧ n + k ≤ n + (bound + 1) ∧ ∃ y ∈ times step k x, accepts y := by
  constructor
  · rintro ⟨z, next, ⟨m, y⟩, member, accepted⟩
    obtain ⟨k, small, -, member⟩ := mem_star.1 member
    refine ⟨k + 1, Nat.succ_pos k, by omega, y, ?_, accepted⟩
    exact List.mem_flatMap.mpr ⟨z, next, member⟩
  · rintro ⟨_ | k, positive, small, y, member, accepted⟩
    · exact absurd positive (Nat.lt_irrefl 0)
    · obtain ⟨z, next, member⟩ := List.mem_flatMap.mp member
      exact ⟨z, next, (n + 1 + k, y), mem_star.2 ⟨k, by omega, rfl, member⟩, accepted⟩

/-- What is compared: the same state is found unless further repetitions lead to an accepted
one. -/
def SameUnlessMore (step : σ → List σ) (accepts : σ → Bool) (most : ℕ)
    (fewer more : ℕ × σ) : Prop :=
  more.2 = fewer.2 ↔ ¬∃ k, 0 < k ∧ fewer.1 + k ≤ most ∧ ∃ y ∈ times step k fewer.2, accepts y

end Accepted

/-! ## Steps that advance -/

section Advancing

variable {rank : σ → ℕ} (advances : ∀ x, ∀ y ∈ step x, rank x < rank y)

include advances

theorem rank_times {k : ℕ} (member : y ∈ times step k x) : rank x + k ≤ rank y := by
  induction k generalizing x with
  | zero =>
      obtain rfl := List.mem_singleton.mp member
      exact le_rfl
  | succ k ih =>
      obtain ⟨z, next, member⟩ := List.mem_flatMap.mp member
      have further := ih member
      have first := advances x z next
      omega

theorem star_succ_of_limit {limit : ℕ} (limited : ∀ x, rank x ≤ limit)
    (enough : limit ≤ rank x + bound) :
    star step greedy (bound + 1) n x = star step greedy bound n x := by
  induction bound generalizing n x with
  | zero =>
      have stuck : step x = [] := by
        refine List.eq_nil_iff_forall_not_mem.mpr fun y next => ?_
        have := advances x y next
        have := limited y
        omega
      simp [star, stuck]
  | succ bound ih =>
      have rest : (step x).flatMap (star step greedy (bound + 1) (n + 1)) =
          (step x).flatMap (star step greedy bound (n + 1)) := by
        refine List.flatMap_congr fun y next => ih ?_
        have := advances x y next
        omega
      rw [star, rest, star]

/-- If the rank has a limit, this is bound enough. -/
theorem star_of_limit {limit : ℕ} (limited : ∀ x, rank x ≤ limit) (enough : limit ≤ bound) :
    star step greedy bound n x = star step greedy limit n x := by
  induction bound, enough using Nat.le_induction with
  | base => rfl
  | succ bound enough ih =>
      rw [star_succ_of_limit advances limited (enough.trans (Nat.le_add_left _ _)), ih]

/-- The first results that are accepted, with fewer repetitions first and with more of them
first. -/
theorem rel_find?_star (accepts : σ → Bool) :
    Option.Rel (SameUnlessMore step accepts (n + bound))
      ((star step false bound n x).find? (accepts ·.2))
      ((star step true bound n x).find? (accepts ·.2)) := by
  induction bound generalizing n x with
  | zero =>
      rw [find?_star_zero, find?_star_zero]
      split
      · refine .some (iff_of_true rfl ?_)
        rintro ⟨k, positive, small, -⟩
        exact absurd positive (by omega)
      · exact .none
  | succ bound ih =>
      rw [find?_star_reluctant, find?_star_greedy]
      by_cases accepted : accepts x
      · rw [if_pos accepted, if_pos accepted]
        cases found : (step x).findSome?
          fun y => (star step true bound (n + 1) y).find? (accepts ·.2) with
        | none =>
            refine .some (iff_of_true rfl fun more => ?_)
            have some : ∃ z ∈ step x, ∃ result ∈ star step true bound (n + 1) z,
                accepts result.2 := more_iff.2 more
            obtain ⟨z, next, result, member, accepted⟩ := some
            have nothing := List.findSome?_eq_none_iff.mp found z next
            exact List.find?_eq_none.mp nothing result member accepted
        | some result =>
            obtain ⟨z, next, found⟩ := List.exists_of_findSome?_eq_some found
            have member := List.mem_of_find?_eq_some found
            have accepted' : accepts result.2 = true := by simpa using List.find?_some found
            refine .some (iff_of_false ?_ (not_not.mpr (more_iff.1
              ⟨z, next, result, member, accepted'⟩)))
            rintro rfl
            obtain ⟨k, -, -, reached⟩ := mem_star.1 member
            have := advances _ _ next
            have := rank_times advances reached
            omega
      · rw [if_neg accepted, if_neg accepted, Option.or_none,
          show n + (bound + 1) = n + 1 + bound by omega]
        exact rel_findSome? fun z _ => ih

end Advancing

end Backtracking
