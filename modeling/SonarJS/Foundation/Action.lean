import Mathlib.Order.Defs.Unbundled

/-!
# Actions with state and exceptions

An action that fails keeps what it has done to the state until then. So what an
action does to the state is said of both outcomes: it keeps a relation if the state
before it and the state after it are related, whether it succeeds or fails.
-/

namespace Action

variable {ε σ τ α β : Type}

/-- The state that is left, of either outcome. -/
def finalState : EStateM.Result ε σ α → σ
  | .ok _ s => s
  | .error _ s => s

/-- A computation that does not touch the state. -/
def ofExcept (result : Except ε α) : EStateM ε σ α := fun s =>
  match result with
  | .ok a => .ok a s
  | .error e => .error e s

/-- An action on a part of the state. -/
def onPart (part : σ → τ) (put : σ → τ → σ) (action : EStateM ε τ α) : EStateM ε σ α := fun s =>
  match action (part s) with
  | .ok a t => .ok a (put s t)
  | .error e t => .error e (put s t)

theorem ofExcept_ok {result : Except ε α} {a : α} (h : result = .ok a) (s : σ) :
    ofExcept result s = .ok a s := by
  rw [h]
  rfl

theorem ofExcept_error {result : Except ε α} {e : ε} (h : result = .error e) (s : σ) :
    ofExcept result s = .error e s := by
  rw [h]
  rfl

theorem ofExcept_eq_ok {result : Except ε α} {a : α} {s s' : σ}
    (h : ofExcept result s = .ok a s') : result = .ok a ∧ s' = s := by
  cases result with
  | ok a' =>
      cases h
      exact ⟨rfl, rfl⟩
  | error e => cases h

/-- An action that succeeds hands its value and the state on. -/
theorem bind_ok {action : EStateM ε σ α} {next : α → EStateM ε σ β} {s s' : σ} {a : α}
    (h : action s = .ok a s') : (action >>= next) s = next a s' := by
  change EStateM.bind action next s = _
  rw [EStateM.bind, h]

theorem bind_error {action : EStateM ε σ α} {next : α → EStateM ε σ β} {s s' : σ} {e : ε}
    (h : action s = .error e s') : (action >>= next) s = .error e s' := by
  change EStateM.bind action next s = _
  rw [EStateM.bind, h]

theorem bind_eq_ok {action : EStateM ε σ α} {next : α → EStateM ε σ β} {s s' : σ} {b : β}
    (h : (action >>= next) s = .ok b s') : ∃ a t, action s = .ok a t ∧ next a t = .ok b s' := by
  change EStateM.bind action next s = _ at h
  rw [EStateM.bind] at h
  split at h
  · exact ⟨_, _, ‹_›, h⟩
  · cases h

theorem bind_congr {action action' : EStateM ε σ α} (next : α → EStateM ε σ β) {s s' : σ}
    (h : action s = action' s') : (action >>= next) s = (action' >>= next) s' := by
  change EStateM.bind action next s = EStateM.bind action' next s'
  rw [EStateM.bind, EStateM.bind, h]

/-! ## What an action keeps -/

def Keeps (R : σ → σ → Prop) (action : EStateM ε σ α) : Prop :=
  ∀ s, R s (finalState (action s))

section Keeps

variable {R : σ → σ → Prop}

theorem Keeps.of_ok {action : EStateM ε σ α} (h : Keeps R action) {s s' : σ} {a : α}
    (ok : action s = .ok a s') : R s s' := by
  have kept := h s
  rwa [ok] at kept

theorem keeps_pure [Std.Refl R] (a : α) : Keeps R (pure a : EStateM ε σ α) := fun s => refl_of R s

theorem keeps_throw [Std.Refl R] (e : ε) : Keeps R (throw e : EStateM ε σ α) :=
  fun s => refl_of R s

theorem keeps_ofExcept [Std.Refl R] (result : Except ε α) :
    Keeps R (ofExcept result : EStateM ε σ α) := by
  intro s
  cases result with
  | ok a => exact refl_of R s
  | error e => exact refl_of R s

theorem keeps_onPart {part : σ → τ} {put : σ → τ → σ} (h : ∀ s t, R s (put s t))
    (action : EStateM ε τ α) : Keeps R (onPart part put action) := by
  intro s
  unfold onPart
  split <;> exact h _ _

theorem Keeps.bind [IsTrans σ R] {action : EStateM ε σ α} {next : α → EStateM ε σ β}
    (h : Keeps R action) (h' : ∀ a, Keeps R (next a)) : Keeps R (action >>= next) := by
  intro s
  have first := h s
  cases ran : action s with
  | ok a t =>
      rw [ran] at first
      rw [bind_ok ran]
      exact trans_of R first (h' a t)
  | error e t =>
      rw [ran] at first
      rwa [bind_error ran]

end Keeps

/-! ## What an action establishes

`wp action Q E s` says that `action`, run in `s`, ends in `Q` if it succeeds and in `E`
if it fails. The rules below run a program symbolically; `wp_mono` uses the specification
of a called function in their place.
-/

def wp (action : EStateM ε σ α) (Q : α → σ → Prop) (E : ε → σ → Prop) (s : σ) : Prop :=
  match action s with
  | .ok a s' => Q a s'
  | .error e s' => E e s'

section Wp

variable {Q Q' : α → σ → Prop} {E E' : ε → σ → Prop} {s : σ}

theorem wp_mono {action : EStateM ε σ α} (h : wp action Q E s) (ok : ∀ a s', Q a s' → Q' a s')
    (error : ∀ e s', E e s' → E' e s') : wp action Q' E' s := by
  unfold wp at h ⊢
  split
  · rename_i a s' ran
    rw [ran] at h
    exact ok a s' h
  · rename_i e s' ran
    rw [ran] at h
    exact error e s' h

@[simp] theorem wp_pure (a : α) : wp (pure a) Q E s ↔ Q a s := Iff.rfl

@[simp] theorem wp_throw (e : ε) : wp (throw e : EStateM ε σ α) Q E s ↔ E e s := Iff.rfl

@[simp] theorem wp_get {Q : σ → σ → Prop} : wp (get : EStateM ε σ σ) Q E s ↔ Q s s := Iff.rfl

@[simp] theorem wp_modify (f : σ → σ) {Q : Unit → σ → Prop} :
    wp (modify f : EStateM ε σ Unit) Q E s ↔ Q () (f s) := Iff.rfl

@[simp] theorem wp_bind (action : EStateM ε σ β) (next : β → EStateM ε σ α) :
    wp (action >>= next) Q E s ↔ wp action (fun b s' => wp (next b) Q E s') E s := by
  unfold wp
  cases ran : action s with
  | ok b s' => rw [bind_ok ran]
  | error e s' => rw [bind_error ran]

@[simp] theorem wp_map (f : β → α) (action : EStateM ε σ β) :
    wp (f <$> action) Q E s ↔ wp action (fun b s' => Q (f b) s') E s := by
  rw [map_eq_pure_bind, wp_bind]
  rfl

@[simp] theorem wp_ofExcept (result : Except ε α) :
    wp (ofExcept result) Q E s ↔
      (∀ a, result = .ok a → Q a s) ∧ ∀ e, result = .error e → E e s := by
  cases result with
  | ok a => simp [wp, ofExcept]
  | error e => simp [wp, ofExcept]

@[simp] theorem wp_ite (c : Prop) [Decidable c] (action action' : EStateM ε σ α) :
    wp (if c then action else action') Q E s ↔
      (c → wp action Q E s) ∧ (¬ c → wp action' Q E s) := by
  by_cases h : c
  · simp [h]
  · simp [h]

end Wp

/-! ## Computations without a state -/

section Except

variable {f : α → Except ε β}

theorem except_bind_eq_ok {x : Except ε α} {b : β} :
    (x >>= f) = .ok b ↔ ∃ a, x = .ok a ∧ f a = .ok b := by
  cases x with
  | ok a => simp [bind, Except.bind]
  | error e => simp [bind, Except.bind]

theorem except_bind_eq_error {x : Except ε α} {e : ε} :
    (x >>= f) = .error e ↔ x = .error e ∨ ∃ a, x = .ok a ∧ f a = .error e := by
  cases x with
  | ok a => simp [bind, Except.bind]
  | error e => simp [bind, Except.bind]

theorem mapM_cons_eq_ok {x : α} {xs : List α} {ys : List β} :
    (x :: xs).mapM f = .ok ys ↔
      ∃ y, f x = .ok y ∧ ∃ ys', xs.mapM f = .ok ys' ∧ ys = y :: ys' := by
  rw [List.mapM_cons, except_bind_eq_ok]
  refine exists_congr fun y => and_congr_right ?_
  intro _
  rw [except_bind_eq_ok]
  simp only [pure, Except.pure, Except.ok.injEq, eq_comm]

/-- A computation over a list succeeds if it succeeds on each element. -/
theorem exists_mapM_eq_ok_iff {xs : List α} :
    (∃ ys, xs.mapM f = .ok ys) ↔ ∀ x ∈ xs, ∃ y, f x = .ok y := by
  induction xs with
  | nil => simp [pure, Except.pure]
  | cons x xs ih =>
      rw [List.forall_mem_cons, ← ih]
      constructor
      · rintro ⟨_, ran⟩
        obtain ⟨y, first, ys, rest, -⟩ := mapM_cons_eq_ok.1 ran
        exact ⟨⟨y, first⟩, ys, rest⟩
      · rintro ⟨⟨y, first⟩, ys, rest⟩
        exact ⟨y :: ys, mapM_cons_eq_ok.2 ⟨y, first, ys, rest, rfl⟩⟩

/-- What a computation over a list returns comes from the elements. -/
theorem exists_of_mem_mapM {xs : List α} {ys : List β} (h : xs.mapM f = .ok ys) {y : β}
    (member : y ∈ ys) : ∃ x ∈ xs, f x = .ok y := by
  induction xs generalizing ys with
  | nil =>
      cases h
      cases member
  | cons x xs ih =>
      obtain ⟨z, first, zs, rest, rfl⟩ := mapM_cons_eq_ok.1 h
      obtain rfl | later := List.mem_cons.mp member
      · exact ⟨x, List.mem_cons_self, first⟩
      · obtain ⟨x', known, found⟩ := ih rest later
        exact ⟨x', List.mem_cons_of_mem x known, found⟩

end Except

end Action
