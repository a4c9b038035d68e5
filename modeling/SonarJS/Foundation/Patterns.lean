import SonarJS.Foundation.Backtracking

/-!
# Patterns

Regular expressions over sets of characters, with greedy, reluctant and possessive repetitions.
The ways to match are listed in the order in which backtracking tries them. A possessive
repetition keeps the first one, so it goes on as long as the first way to match its pattern does.
-/

namespace Patterns

open Backtracking

inductive Repetition
  | greedy
  | reluctant
  | possessive

inductive Pattern (α : Type)
  | set (accepts : α → Bool)
  | beginning
  | seq (first second : Pattern α)
  | alt (first second : Pattern α)
  | rep (kind : Repetition) (min : ℕ) (max : Option ℕ) (pattern : Pattern α)

/-- How many characters have been matched, and those that are left. -/
abbrev State (α : Type) := ℕ × List α

variable {α : Type}

/-- What has been matched and what is left is as much as before. -/
def Conserves (m : State α → List (State α)) : Prop :=
  ∀ x, ∀ y ∈ m x, y.1 + y.2.length = x.1 + x.2.length

/-- Repetitions that are not required have to match something. -/
def consuming (m : State α → List (State α)) (x : State α) : List (State α) :=
  (m x).filter fun y => y.2.length < x.2.length

def repetitions (kind : Repetition) (min : ℕ) (max : Option ℕ) (m : State α → List (State α))
    (x : State α) : List (State α) :=
  let greedy : Bool := match kind with
    | .reluctant => false
    | _ => true
  let all := (times m min x).flatMap fun y =>
    (star (consuming m) greedy ((max.map (· - min)).getD y.2.length) min y).map Prod.snd
  match kind with
  | .possessive => all.head?.toList
  | _ => all

@[grind =] def Pattern.matches : Pattern α → State α → List (State α)
  | .set accepts, x =>
    match x.2 with
    | [] => []
    | c :: rest => if accepts c then [(x.1 + 1, rest)] else []
  | .beginning, x => if x.1 = 0 then [x] else []
  | .seq first second, x => (first.matches x).flatMap second.matches
  | .alt first second, x => first.matches x ++ second.matches x
  | .rep kind min max pattern, x => repetitions kind min max pattern.matches x

/-- Some patterns one after another. -/
def Pattern.sequence (first : Pattern α) : List (Pattern α) → Pattern α
  | [] => first
  | second :: patterns => .seq first (second.sequence patterns)

/-- One of some patterns, tried in their order. -/
def Pattern.choice (first : Pattern α) : List (Pattern α) → Pattern α
  | [] => first
  | second :: patterns => .alt first (second.choice patterns)

/-- A character. -/
def Pattern.char [DecidableEq α] (c : α) : Pattern α := .set (· = c)

/-! ## The number of characters -/

section Conserves

variable {m : State α → List (State α)}

theorem conserves_times (conserves : Conserves m) (k : ℕ) : Conserves (times m k) := by
  induction k with
  | zero =>
      intro x y member
      rw [List.mem_singleton.mp member]
  | succ k ih =>
      intro x y member
      obtain ⟨z, next, member⟩ := List.mem_flatMap.mp member
      exact (ih z y member).trans (conserves x z next)

theorem conserves_consuming (conserves : Conserves m) : Conserves (consuming m) :=
  fun x y member => conserves x y (List.mem_of_mem_filter member)

theorem conserves_repetitions (conserves : Conserves m) (kind : Repetition) (min : ℕ)
    (max : Option ℕ) : Conserves (repetitions kind min max m) := by
  have all (greedy : Bool) (x y : State α)
      (member : y ∈ (times m min x).flatMap fun y => (star (consuming m) greedy
        ((max.map (· - min)).getD y.2.length) min y).map Prod.snd) :
      y.1 + y.2.length = x.1 + x.2.length := by
    obtain ⟨z, required, member⟩ := List.mem_flatMap.mp member
    obtain ⟨⟨n, result⟩, inStar, rfl⟩ := List.mem_map.mp member
    obtain ⟨k, -, -, more⟩ := mem_star.mp inStar
    exact (conserves_times (conserves_consuming conserves) k z _ more).trans
      (conserves_times conserves min x z required)
  intro x y member
  cases kind with
  | greedy => exact all true x y member
  | reluctant => exact all false x y member
  | possessive => exact all true x y (List.mem_of_mem_head? (Option.mem_toList.mp member))

theorem conserves_matches (pattern : Pattern α) : Conserves pattern.matches := by
  induction pattern with
  | set accepts =>
      rintro ⟨n, _ | ⟨c, rest⟩⟩ y member
      · cases member
      · rw [Pattern.matches] at member
        dsimp only at member
        split at member
        · rw [List.mem_singleton.mp member, List.length_cons]
          exact Nat.add_right_comm n 1 rest.length
        · cases member
  | beginning =>
      intro x y member
      rw [Pattern.matches] at member
      split at member
      · rw [List.mem_singleton.mp member]
      · cases member
  | seq first second firstIh secondIh =>
      intro x y member
      obtain ⟨z, next, member⟩ := List.mem_flatMap.mp member
      exact (secondIh z y member).trans (firstIh x z next)
  | alt first second firstIh secondIh =>
      intro x y member
      obtain member | member := List.mem_append.mp member
      · exact firstIh x y member
      · exact secondIh x y member
  | rep kind min max pattern ih => exact conserves_repetitions ih kind min max

end Conserves

/-! ## The first way to match -/

section First

variable {m : State α → List (State α)}

/-- Going on as long as there is a way to match, up to a bound. -/
@[grind =] def eat (m : State α → List (State α)) : ℕ → State α → State α
  | 0, x => x
  | bound + 1, x =>
    match (consuming m x).head? with
    | none => x
    | some y => eat m bound y

theorem head?_star_greedy (bound n : ℕ) (x : State α) :
    (star (consuming m) true bound n x).head?.map Prod.snd = some (eat m bound x) := by
  induction bound generalizing n x with
  | zero => rfl
  | succ bound ih =>
      have unrolled : star (consuming m) true (bound + 1) n x =
          (consuming m x).flatMap (star (consuming m) true bound (n + 1)) ++ [(n, x)] := rfl
      rw [unrolled, List.head?_append, head?_flatMap_of_ne_nil fun _ => star_ne_nil, eat]
      cases (consuming m x).head? with
      | none => rfl
      | some y =>
          have further := ih (n + 1) y
          rw [Option.bind_some]
          cases found : (star (consuming m) true bound (n + 1) y).head? with
          | none =>
              rw [found] at further
              cases further
          | some result =>
              rw [found] at further
              exact further

/-- A greedy repetition first goes on as long as it can. -/
theorem head?_greedy {min : ℕ} {max : Option ℕ} {x : State α} :
    (repetitions .greedy min max m x).head? =
      (times m min x).head?.map fun y => eat m ((max.map (· - min)).getD y.2.length) y := by
  change ((times m min x).flatMap _).head? = _
  rw [head?_flatMap_of_ne_nil fun y => by simpa using star_ne_nil]
  cases (times m min x).head? with
  | none => rfl
  | some y => rw [Option.bind_some, List.head?_map, head?_star_greedy]; rfl

/-- There is one way to match a possessive repetition. -/
theorem possessive_eq {max : Option ℕ} {x : State α} :
    repetitions .possessive 0 max m x = [eat m (max.getD x.2.length) x] := by
  change (repetitions .greedy 0 max m x).head?.toList = _
  rw [head?_greedy]
  cases max with
  | none => rfl
  | some max => rfl

theorem eat_of_none {bound : ℕ} {x : State α} (stops : (m x).head? = none) : eat m bound x = x := by
  cases bound with
  | zero => rfl
  | succ bound =>
      have nothing : m x = [] := List.head?_eq_none_iff.mp stops
      simp [eat, consuming, nothing]

theorem eat_of_some {bound : ℕ} {x y : State α} (first : (m x).head? = some y)
    (shorter : y.2.length < x.2.length) : eat m (bound + 1) x = eat m bound y := by
  obtain ⟨others, isFirst⟩ := List.head?_eq_some_iff.mp first
  rw [eat, consuming, isFirst, List.filter_cons_of_pos (by simpa using shorter)]
  rfl

theorem length_eat_le {bound : ℕ} {x : State α} : (eat m bound x).2.length ≤ x.2.length := by
  induction bound generalizing x with
  | zero => exact Nat.le_refl _
  | succ bound ih =>
      rw [eat]
      split
      · exact Nat.le_refl _
      · rename_i y first
        have shorter := (List.mem_filter.mp (List.mem_of_mem_head? first)).2
        exact ih.trans (Nat.le_of_lt (of_decide_eq_true shorter))

theorem repetitions_eq_nil {kind : Repetition} {min : ℕ} {max : Option ℕ} {x : State α}
    (fails : m x = []) : repetitions kind (min + 1) max m x = [] := by
  cases kind with
  | greedy | reluctant | possessive => simp [repetitions, times, fails]

end First

section Simple

variable {accepts : α → Bool} {first second : Pattern α} {n : ℕ} {c : α} {rest : List α}

theorem matches_set_of_pos (holds : accepts c = true) :
    (Pattern.set accepts).matches (n, c :: rest) = [(n + 1, rest)] := by
  simp [Pattern.matches, holds]

theorem matches_set_of_neg (fails : accepts c = false) :
    (Pattern.set accepts).matches (n, c :: rest) = [] := by
  simp [Pattern.matches, fails]

/-- Behind a pattern with one way to match, the second pattern is matched. -/
theorem matches_seq_of_singleton {x y : State α} (single : first.matches x = [y]) :
    (first.seq second).matches x = second.matches y := by
  rw [Pattern.matches, single, List.flatMap_singleton]

theorem matches_seq_of_nil {x : State α} (fails : first.matches x = []) :
    (first.seq second).matches x = [] := by
  rw [Pattern.matches, fails, List.flatMap_nil]

/-- A greedy repetition of a set takes the characters of the set, up to its bound. -/
theorem eat_set_append {bound : ℕ} {taken : List α} (accepted : taken.all accepts = true)
    (few : taken.length ≤ bound) :
    eat (Pattern.set accepts).matches bound (n, taken ++ rest) =
      eat (Pattern.set accepts).matches (bound - taken.length) (n + taken.length, rest) := by
  induction taken generalizing n bound with
  | nil => rfl
  | cons c taken ih =>
      rw [List.all_cons, Bool.and_eq_true] at accepted
      obtain ⟨bound, rfl⟩ : ∃ k, bound = k + 1 := Nat.exists_eq_succ_of_ne_zero (by
        rintro rfl
        cases few)
      have first := @matches_set_of_pos _ _ n _ (taken ++ rest) accepted.1
      rw [List.cons_append, eat_of_some (by rw [first]; rfl) (Nat.lt_succ_self _),
        ih accepted.2 (Nat.le_of_succ_le_succ few), List.length_cons, Nat.add_sub_add_right]
      congr 2
      omega

theorem eat_set_of_neg {bound : ℕ} (fails : accepts c = false) :
    eat (Pattern.set accepts).matches bound (n, c :: rest) = (n, c :: rest) :=
  eat_of_none (by rw [matches_set_of_neg fails]; rfl)

end Simple

end Patterns
