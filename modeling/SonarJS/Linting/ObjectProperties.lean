import SonarJS.Foundation.Action
import SonarJS.Foundation.Recursion

/-!
# Properties of object expressions

`getProperty` goes through the entries of an object expression from the last one to the
first. It stops at a property with the key and at the object of a spread in which the key is
found or may be hidden. Spreads that it cannot resolve are only remembered: they matter if
nothing is found in front of them.

At runtime a later entry replaces what an earlier one has set, and an unresolved spread may
set any key. Once all resolvable spreads are replaced by the entries of their objects, the
last entry that can set the key decides, and `getProperty` is right for all expressions on
the way to there if and only if this entry is a property that it recognises, or no entry
before is one.
-/

namespace SonarJS.ObjectProperties

open Action Recursion Relation

/-! ## Syntax and scopes -/

/-- A key of a property that is not computed. The name of a number is the one it has as a key. -/
inductive Key
  | identifier (name : String)
  | string (value : String)
  | number (name : String)
deriving DecidableEq

def Key.name : Key → String
  | .identifier name => name
  | .string value => value
  | .number name => name

/-- A property with its key and the node it is, or a spread. -/
inductive Entry (P E : Type)
  | property (key : Key) (node : P)
  | spreadElement (argument : E)

inductive Expression (P : Type)
  | identifier (name : String)
  | objectExpression (properties : List (Entry P (Expression P)))
  | other

abbrev Properties (P : Type) := List (Entry P (Expression P))

structure Reference (P : Type) where
  isWrite : Bool
  writeExpr : Option (Expression P)

structure Variable (P : Type) where
  name : String
  references : List (Reference P)

/-- The variables of a scope and those of the scopes above it, from the inside out. -/
abbrev Scope (P : Type) := List (List (Variable P))

section Lookup

variable {P : Type}

def getVariableFromScope : Scope P → String → Option (Variable P)
  | [], _ => none
  | scope :: upper, name =>
    match scope.find? (·.name = name) with
    | some found => some found
    | none => getVariableFromScope upper name

def getUniqueWriteUsage (scope : Scope P) (name : String) : Option (Expression P) :=
  match getVariableFromScope scope name with
  | none => none
  | some declared =>
    match declared.references.filter (·.isWrite) with
    | [reference] => reference.writeExpr
    | _ => none

/-- `getValueOfExpression` for an `ObjectExpression`, without recursion. -/
def getValueOfExpression (scope : Scope P) : Expression P → Option (Properties P)
  | .objectExpression properties => some properties
  | .identifier name =>
    match getUniqueWriteUsage scope name with
    | some (.objectExpression properties) => some properties
    | _ => none
  | .other => none

end Lookup

/-! ## The helper -/

/-- A property, `null` or `undefined`. -/
inductive Found (P : Type)
  | property (key : Key) (node : P)
  | null
  | undefined
deriving DecidableEq

/-- How far the loop has got: it has returned, or it goes on with its flag. -/
inductive Progress (P : Type)
  | returned (found : Found P)
  | looking (unresolvedSpreadElement : Bool)

inductive Stop
  | outOfFuel
deriving DecidableEq

def isProperty (key : String) : Key → Bool
  | .identifier name => name = key
  | .string value => value = key
  | .number _ => false

section Helper

variable {P : Type} (scope : Scope P) (key : String)

/-- The body of the loop. -/
def lookAt (getProperty : Properties P → Except Stop (Found P)) :
    Entry P (Expression P) → Progress P → Except Stop (Progress P)
  | _, .returned found => .ok (.returned found)
  | .property name node, .looking unresolvedSpreadElement =>
    if isProperty key name then .ok (.returned (.property name node))
    else .ok (.looking unresolvedSpreadElement)
  | .spreadElement argument, .looking unresolvedSpreadElement =>
    match getValueOfExpression scope argument with
    | some props => do
      match ← getProperty props with
      | .null => return .looking unresolvedSpreadElement
      | prop => return .returned prop
    | none => .ok (.looking true)

/-- The loop goes from the last entry to the first. -/
def getProperty : ℕ → Properties P → Except Stop (Found P)
  | 0, _ => .error .outOfFuel
  | fuel + 1, properties => do
    match ← properties.foldrM (lookAt scope key (getProperty fuel)) (.looking false) with
    | .returned found => return found
    | .looking true => return .undefined
    | .looking false => return .null

end Helper

/-! ## Evaluation -/

section Evaluation

variable {P : Type}

/-- Where the value of a key comes from. -/
inductive Source (P : Type)
  | property (key : Key) (node : P)
  | unknown

-- the scope in which the initialiser stands of the variable that a name denotes in a scope
variable (scopeOf : Scope P → String → Scope P)

/-- The scope of the object that a spread is resolved to. -/
def scopeOfValue (scope : Scope P) : Expression P → Scope P
  | .identifier name => scopeOf scope name
  | _ => scope

/-- Where an evaluation of an object expression gets the value of a key from, if it has the
key. What a spread is that is not resolved is not known, and it may have the key or not. -/
inductive Evaluates (key : String) : Scope P → Properties P → Option (Source P) → Prop
  | nil (scope : Scope P) : Evaluates key scope [] none
  | property {scope : Scope P} {rest : Properties P} {source : Option (Source P)}
      (name : Key) (node : P) (evaluates : Evaluates key scope rest source) :
      Evaluates key scope (.property name node :: rest)
        (source.or (if name.name = key then some (.property name node) else none))
  | resolved {scope : Scope P} {rest props : Properties P} {argument : Expression P}
      {source inner : Option (Source P)}
      (known : getValueOfExpression scope argument = some props)
      (evaluatesInner : Evaluates key (scopeOfValue scopeOf scope argument) props inner)
      (evaluates : Evaluates key scope rest source) :
      Evaluates key scope (.spreadElement argument :: rest) (source.or inner)
  | absent {scope : Scope P} {rest : Properties P} {argument : Expression P}
      {source : Option (Source P)} (unknown : getValueOfExpression scope argument = none)
      (evaluates : Evaluates key scope rest source) :
      Evaluates key scope (.spreadElement argument :: rest) source
  | present {scope : Scope P} {rest : Properties P} {argument : Expression P}
      {source : Option (Source P)} (unknown : getValueOfExpression scope argument = none)
      (evaluates : Evaluates key scope rest source) :
      Evaluates key scope (.spreadElement argument :: rest) (source.or (some .unknown))

/-- An answer about a key is right. -/
def Sound (key : String) (scope : Scope P) (properties : Properties P) : Found P → Prop
  | .property name node => ∀ source, Evaluates scopeOf key scope properties source →
      source = some (.property name node)
  | .null => ∀ source, Evaluates scopeOf key scope properties source → source = none
  | .undefined =>
      (¬ ∃ name node, ∀ source, Evaluates scopeOf key scope properties source →
        source = some (.property name node)) ∧
      ¬ ∀ source, Evaluates scopeOf key scope properties source → source = none

/-- What the evaluation of an object expression in a scope goes on with. -/
inductive Part : Scope P × Properties P → Scope P × Properties P → Prop
  | spread {scope : Scope P} {properties props : Properties P} {argument : Expression P}
      (member : .spreadElement argument ∈ properties)
      (known : getValueOfExpression scope argument = some props) :
      Part (scope, properties) (scopeOfValue scopeOf scope argument, props)

/-- The spreads in an object expression have the same objects in the scope of the rule. -/
def SameValues (rule : Scope P) (start : Scope P × Properties P) : Prop :=
  ∀ scope properties, ReflTransGen (Part scopeOf) start (scope, properties) →
    ∀ argument, .spreadElement argument ∈ properties →
      getValueOfExpression rule argument = getValueOfExpression scope argument

end Evaluation

/-! ## Replacing spreads -/

section Inlining

variable {P : Type} (scope : Scope P) (key : String)

/-- A resolvable spread is replaced by the entries of its object. -/
inductive Inlines : Properties P → Properties P → Prop
  | spread (before after : Properties P) {argument : Expression P} {props : Properties P}
      (known : getValueOfExpression scope argument = some props) :
      Inlines (before ++ .spreadElement argument :: after) (before ++ (props ++ after))

/-- What is left once all resolvable spreads are replaced. -/
inductive Leaf (P : Type)
  | property (key : Key) (node : P)
  | unresolved

inductive Flattens : Properties P → List (Leaf P) → Prop
  | nil : Flattens [] []
  | property {rest : Properties P} {leaves : List (Leaf P)} (name : Key) (node : P)
      (flattens : Flattens rest leaves) :
      Flattens (.property name node :: rest) (.property name node :: leaves)
  | resolved {rest props : Properties P} {inner leaves : List (Leaf P)}
      {argument : Expression P} (known : getValueOfExpression scope argument = some props)
      (flattensInner : Flattens props inner) (flattens : Flattens rest leaves) :
      Flattens (.spreadElement argument :: rest) (inner ++ leaves)
  | unresolved {rest : Properties P} {leaves : List (Leaf P)} {argument : Expression P}
      (unknown : getValueOfExpression scope argument = none) (flattens : Flattens rest leaves) :
      Flattens (.spreadElement argument :: rest) (.unresolved :: leaves)

/-- A property that `getProperty` takes for one with the key. -/
def Leaf.isRecognised : Leaf P → Bool
  | .property name _ => isProperty key name
  | .unresolved => false

def Leaf.canSet : Leaf P → Bool
  | .property name _ => name.name = key
  | .unresolved => true

/-- The last entry that can set the key. -/
def decisive (leaves : List (Leaf P)) : Option (Leaf P) :=
  (leaves.filter (Leaf.canSet key)).getLast?

/-- The right answer. -/
def verdict (leaves : List (Leaf P)) : Found P :=
  match decisive key leaves with
  | none => .null
  | some (.property name node) => .property name node
  | some .unresolved => .undefined

/-- The last entry that can set the key is recognised, or it is an unresolved spread and no
property with the key is recognised at all. -/
def Clear (leaves : List (Leaf P)) : Prop :=
  ∀ last, decisive key leaves = some last → last.isRecognised key ∨
    last = .unresolved ∧ ∀ leaf ∈ leaves, ¬ leaf.isRecognised key

/-- Some fuel is enough for the answer. -/
def Returns (properties : Properties P) (found : Found P) : Prop :=
  ∃ fuel, getProperty scope key fuel properties = .ok found

/-- The answer is right, and it stays the same whichever resolvable spreads are replaced. -/
def Correct (scopeOf : Scope P → String → Scope P) (properties : Properties P) : Prop :=
  ∃ found, Returns scope key properties found ∧ Sound scopeOf key scope properties found ∧
    ∀ properties', ReflTransGen (Inlines scope) properties properties' →
      Returns scope key properties' found

/-- What an object expression is resolved with: the arguments of its spreads, and the objects
that identifiers are defined as. -/
def calls : Expression P → List (Expression P)
  | .objectExpression properties => properties.filterMap fun
    | .spreadElement argument => some argument
    | .property _ _ => none
  | .identifier name =>
    match getUniqueWriteUsage scope name with
    | some (.objectExpression properties) => [.objectExpression properties]
    | _ => []
  | .other => []

end Inlining

/-! ## The right answer -/

section Verdict

variable {P : Type} {scopeOf : Scope P → String → Scope P} {rule scope : Scope P} {key : String}
variable {properties rest : Properties P} {leaves : List (Leaf P)}

theorem decisive_append (leaves leaves' : List (Leaf P)) :
    decisive key (leaves ++ leaves') = (decisive key leaves').or (decisive key leaves) := by
  rw [decisive, List.filter_append, List.getLast?_append]
  rfl

theorem decisive_cons (leaf : Leaf P) (leaves : List (Leaf P)) :
    decisive key (leaf :: leaves) =
      (decisive key leaves).or (if leaf.canSet key then some leaf else none) := by
  rw [← List.singleton_append, decisive_append]
  congr 1
  rw [decisive, List.filter_singleton]
  cases leaf.canSet key <;> rfl

def Leaf.source : Leaf P → Source P
  | .property name node => .property name node
  | .unresolved => .unknown

theorem SameValues.tail {entry : Entry P (Expression P)}
    (same : SameValues scopeOf rule (scope, entry :: rest)) :
    SameValues scopeOf rule (scope, rest) := by
  intro scope' properties reached
  obtain here | ⟨next, part, later⟩ := ReflTransGen.cases_head reached
  · cases here
    exact fun argument member => same _ _ .refl argument (List.mem_cons_of_mem entry member)
  · cases part with
    | spread member known =>
        exact same _ _ (.head (.spread (List.mem_cons_of_mem entry member) known) later)

theorem SameValues.inner {argument : Expression P} {props : Properties P}
    (same : SameValues scopeOf rule (scope, .spreadElement argument :: rest))
    (known : getValueOfExpression scope argument = some props) :
    SameValues scopeOf rule (scopeOfValue scopeOf scope argument, props) :=
  fun _ _ reached => same _ _ (.head (.spread List.mem_cons_self known) reached)

theorem SameValues.here {argument : Expression P}
    (same : SameValues scopeOf rule (scope, .spreadElement argument :: rest)) :
    getValueOfExpression rule argument = getValueOfExpression scope argument :=
  same _ _ .refl argument List.mem_cons_self

theorem map_source_ite (name : Key) (node : P) :
    (if (Leaf.property name node).canSet key then some (Leaf.property name node) else none).map
        Leaf.source =
      if name.name = key then some (.property name node) else none := by
  have canSet : (Leaf.property name node).canSet key = true ↔ name.name = key :=
    decide_eq_true_iff
  by_cases same : name.name = key
  · rw [if_pos same, if_pos (canSet.mpr same)]
    rfl
  · rw [if_neg same, if_neg fun h => same (canSet.mp h)]
    rfl

/-- Some evaluation gets the key from the last entry that can set it. -/
theorem exists_evaluation (flattens : Flattens rule properties leaves)
    (same : SameValues scopeOf rule (scope, properties)) :
    Evaluates scopeOf key scope properties ((decisive key leaves).map Leaf.source) := by
  induction flattens generalizing scope with
  | nil => exact .nil scope
  | @property rest leaves name node flattens ih =>
      rw [decisive_cons, Option.map_or, map_source_ite]
      exact .property name node (ih same.tail)
  | @resolved rest props inner leaves argument known flattensInner flattens ihInner ih =>
      have known' := same.here.symm.trans known
      rw [decisive_append, Option.map_or]
      exact .resolved known' (ihInner (same.inner known')) (ih same.tail)
  | @unresolved rest leaves argument unknown flattens ih =>
      rw [decisive_cons, Option.map_or]
      exact .present (same.here.symm.trans unknown) (ih same.tail)

/-- Unless it is an unresolved spread, all evaluations do. -/
theorem source_eq (flattens : Flattens rule properties leaves)
    (same : SameValues scopeOf rule (scope, properties))
    (known : decisive key leaves ≠ some .unresolved) {source : Option (Source P)}
    (evaluates : Evaluates scopeOf key scope properties source) :
    source = (decisive key leaves).map Leaf.source := by
  induction flattens generalizing scope source with
  | nil =>
      cases evaluates
      rfl
  | @property rest leaves name node flattens ih =>
      cases evaluates with
      | @property _ _ source _ _ evaluates =>
          rw [decisive_cons] at known ⊢
          have rest : source = _ := ih same.tail (fun h => known (by rw [h]; rfl)) evaluates
          rw [rest, Option.map_or, map_source_ite]
  | @resolved rest props inner leaves argument resolved flattensInner flattens ihInner ih =>
      rw [decisive_append] at known ⊢
      have known' := same.here.symm.trans resolved
      cases evaluates with
      | @resolved _ _ props' _ source innerSource resolved' evaluatesInner evaluates =>
          cases known'.symm.trans resolved'
          have behind := ih same.tail (fun h => known (by rw [h]; rfl)) evaluates
          rw [behind, Option.map_or]
          cases last : decisive key leaves with
          | some leaf => rfl
          | none =>
              rw [last] at known
              exact ihInner (same.inner known') known evaluatesInner
      | absent unknown' => cases known'.symm.trans unknown'
      | present unknown' => cases known'.symm.trans unknown'
  | @unresolved rest leaves argument unknown flattens ih =>
      rw [decisive_cons] at known ⊢
      have hasLast : ∃ leaf, decisive key leaves = some leaf := by
        rw [← Option.ne_none_iff_exists']
        intro none
        exact known (by rw [none]; rfl)
      obtain ⟨leaf, last⟩ := hasLast
      rw [last] at known ⊢
      cases evaluates with
      | resolved resolved' =>
          cases (same.here.symm.trans unknown).symm.trans resolved'
      | absent unknown' evaluates =>
          have behind := ih same.tail (last ▸ known) evaluates
          rw [behind, last]
          rfl
      | present unknown' evaluates =>
          have behind := ih same.tail (last ▸ known) evaluates
          rw [behind, last]
          rfl

theorem sound_iff (flattens : Flattens rule properties leaves)
    (same : SameValues scopeOf rule (scope, properties)) (found : Found P) :
    Sound scopeOf key scope properties found ↔ found = verdict key leaves := by
  have evaluation := @exists_evaluation _ _ _ _ key _ _ flattens same
  have all := @source_eq _ _ _ _ key _ _ flattens same
  rw [verdict]
  cases last : decisive key leaves with
  | none =>
      rw [last] at evaluation all
      have absent : ∀ source, Evaluates scopeOf key scope properties source → source = none :=
        fun source evaluates => all nofun evaluates
      constructor
      · intro sound
        cases found with
        | property name node => cases sound _ evaluation
        | null => rfl
        | undefined => exact absurd absent sound.2
      · rintro rfl
        exact absent
  | some leaf =>
      rw [last] at evaluation all
      cases leaf with
      | property name node =>
          have present : ∀ source, Evaluates scopeOf key scope properties source →
              source = some (.property name node) := fun source evaluates => all nofun evaluates
          constructor
          · intro sound
            cases found with
            | property name' node' =>
                cases sound _ evaluation
                rfl
            | null => cases sound _ evaluation
            | undefined => exact absurd ⟨name, node, present⟩ sound.1
          · rintro rfl
            exact present
      | unresolved =>
          constructor
          · intro sound
            cases found with
            | property name' node' => cases sound _ evaluation
            | null => cases sound _ evaluation
            | undefined => rfl
          · rintro rfl
            refine ⟨?_, fun none => nomatch none _ evaluation⟩
            rintro ⟨name, node, present⟩
            cases present _ evaluation

end Verdict

/-! ## The answer of the helper -/

def Progress.answer {P : Type} : Progress P → Found P
  | .returned found => found
  | .looking true => .undefined
  | .looking false => .null

/-- How the loop goes on after a spread in whose object the key was looked up. -/
def Progress.afterSpread {P : Type} (unresolvedSpreadElement : Bool) : Found P → Progress P
  | .null => .looking unresolvedSpreadElement
  | prop => .returned prop

section Answer

variable {P : Type} {scope : Scope P} {key : String} {properties : Properties P}
variable {leaves : List (Leaf P)} {entry : Entry P (Expression P)} {progress next : Progress P}
variable {fuel fuel' : ℕ} {found : Found P}

/-- How far the loop has got once it has looked at these entries. -/
def Comes (scope : Scope P) (key : String) (fuel : ℕ) (properties : Properties P)
    (progress : Progress P) : Prop :=
  properties.foldrM (lookAt scope key (getProperty scope key fuel)) (.looking false) =
    .ok progress

theorem comes_cons_iff : Comes scope key fuel (entry :: properties) next ↔
    ∃ progress, Comes scope key fuel properties progress ∧
      lookAt scope key (getProperty scope key fuel) entry progress = .ok next := by
  rw [Comes, List.foldrM_cons, except_bind_eq_ok]
  rfl

theorem getProperty_eq_ok_iff : getProperty scope key (fuel + 1) properties = .ok found ↔
    ∃ progress, Comes scope key fuel properties progress ∧ progress.answer = found := by
  rw [getProperty, except_bind_eq_ok]
  apply exists_congr
  intro progress
  apply and_congr_right
  intro _
  match progress with
  | .returned found' => exact ⟨Except.ok.inj, congrArg _⟩
  | .looking true => exact ⟨Except.ok.inj, congrArg _⟩
  | .looking false => exact ⟨Except.ok.inj, congrArg _⟩

theorem lookAt_resolved {argument : Expression P} {props : Properties P}
    {find : Properties P → Except Stop (Found P)} {unresolvedSpreadElement : Bool}
    (known : getValueOfExpression scope argument = some props) (finds : find props = .ok found) :
    lookAt scope key find (.spreadElement argument) (.looking unresolvedSpreadElement) =
      .ok (.afterSpread unresolvedSpreadElement found) := by
  rw [lookAt, known]
  refine except_bind_eq_ok.mpr ⟨found, finds, ?_⟩
  cases found <;> rfl

theorem lookAt_mono {find find' : Properties P → Except Stop (Found P)}
    (more : ∀ props found, find props = .ok found → find' props = .ok found)
    (h : lookAt scope key find entry progress = .ok next) :
    lookAt scope key find' entry progress = .ok next := by
  cases progress with
  | returned found => exact h
  | looking unresolvedSpreadElement =>
      cases entry with
      | property name node => exact h
      | spreadElement argument =>
          rw [lookAt] at h ⊢
          cases known : getValueOfExpression scope argument with
          | none =>
              rw [known] at h
              exact h
          | some props =>
              rw [known] at h
              obtain ⟨found, finds, h⟩ := except_bind_eq_ok.mp h
              exact except_bind_eq_ok.mpr ⟨found, more props found finds, h⟩

theorem Comes.mono (more : ∀ props found, getProperty scope key fuel props = .ok found →
      getProperty scope key fuel' props = .ok found)
    (h : Comes scope key fuel properties progress) : Comes scope key fuel' properties progress := by
  induction properties generalizing progress with
  | nil => exact h
  | cons entry properties ih =>
      obtain ⟨before, comes, looks⟩ := comes_cons_iff.1 h
      exact comes_cons_iff.2 ⟨before, ih comes, lookAt_mono more looks⟩

theorem getProperty_mono (le : fuel ≤ fuel')
    (h : getProperty scope key fuel properties = .ok found) :
    getProperty scope key fuel' properties = .ok found := by
  induction fuel generalizing fuel' properties found with
  | zero => cases h
  | succ fuel ih =>
      obtain ⟨fuel', rfl⟩ := Nat.exists_eq_add_of_lt (Nat.lt_of_succ_le le)
      obtain ⟨progress, comes, answer⟩ := getProperty_eq_ok_iff.1 h
      exact getProperty_eq_ok_iff.2
        ⟨progress, comes.mono fun props found => ih (by omega), answer⟩

theorem Comes.of_le (h : Comes scope key fuel properties progress) (le : fuel ≤ fuel') :
    Comes scope key fuel' properties progress :=
  h.mono fun _ _ => getProperty_mono le

theorem Returns.unique {found' : Found P} (h : Returns scope key properties found)
    (h' : Returns scope key properties found') : found = found' := by
  obtain ⟨fuel, returned⟩ := h
  obtain ⟨fuel', returned'⟩ := h'
  have same := (getProperty_mono (le_max_left fuel fuel') returned).symm.trans
    (getProperty_mono (le_max_right fuel fuel') returned')
  exact Except.ok.inj same

theorem decisive_eq_none_iff :
    decisive key leaves = none ↔ ∀ leaf ∈ leaves, ¬ leaf.canSet key := by
  rw [decisive, List.getLast?_eq_none_iff, List.filter_eq_nil_iff]

theorem canSet_of_isRecognised {leaf : Leaf P} (h : leaf.isRecognised key) : leaf.canSet key := by
  match leaf with
  | .property (.identifier name) node => exact h
  | .property (.string value) node => exact h

/-- What the loop has come to with these leaves. -/
structure Agrees (key : String) (progress : Progress P) (leaves : List (Leaf P)) : Prop where
  recognised : ∀ name node, decisive key leaves = some (.property name node) →
    isProperty key name → progress = .returned (.property name node)
  nothing : (∀ leaf ∈ leaves, ¬ leaf.isRecognised key) → .unresolved ∉ leaves →
    progress = .looking false
  hidden : (∀ leaf ∈ leaves, ¬ leaf.isRecognised key) → .unresolved ∈ leaves →
    progress = .looking true ∨ progress = .returned .undefined

theorem Agrees.of_decisive_eq_none (agrees : Agrees key progress leaves)
    (none : decisive key leaves = none) : progress = .looking false := by
  rw [decisive_eq_none_iff] at none
  apply agrees.nothing
  · exact fun leaf member recognised => none leaf member (canSet_of_isRecognised recognised)
  · exact fun member => none _ member rfl

/-- Entries in front of those that the loop has returned at are not looked at. -/
theorem Agrees.of_returned (agrees : Agrees key (.returned found) leaves) (front : List (Leaf P)) :
    Agrees key (.returned found) (front ++ leaves) := by
  have behind : (∀ leaf ∈ front ++ leaves, ¬ leaf.isRecognised key) →
      ∀ leaf ∈ leaves, ¬ leaf.isRecognised key :=
    fun none leaf member => none leaf (List.mem_append_right front member)
  constructor
  · intro name node last isProp
    rw [decisive_append] at last
    cases later : decisive key leaves with
    | none => exact nomatch agrees.of_decisive_eq_none later
    | some leaf =>
        rw [later] at last
        exact agrees.recognised name node (later.trans last) isProp
  · intro none resolved
    exact nomatch agrees.nothing (behind none)
      fun member => resolved (List.mem_append_right front member)
  · intro none _
    by_cases member : .unresolved ∈ leaves
    · exact agrees.hidden (behind none) member
    · exact nomatch agrees.nothing (behind none) member

theorem Agrees.property {find : Properties P → Except Stop (Found P)} (name : Key) (node : P)
    (agrees : Agrees key progress leaves) :
    ∃ next, lookAt scope key find (.property name node) progress = .ok next ∧
      Agrees key next (.property name node :: leaves) := by
  cases progress with
  | returned found => exact ⟨_, rfl, agrees.of_returned [_]⟩
  | looking unresolvedSpreadElement =>
      have notBehind : ∀ name' node', decisive key leaves = some (.property name' node') →
          ¬ isProperty key name' :=
        fun name' node' last isProp => nomatch agrees.recognised name' node' last isProp
      by_cases isProp : isProperty key name
      · refine ⟨.returned (.property name node), if_pos isProp, ?_, ?_, ?_⟩
        · intro name' node' last isProp'
          have canSet : (Leaf.property name node).canSet key :=
            @canSet_of_isRecognised P key (.property name node) isProp
          rw [decisive_cons, if_pos canSet] at last
          cases behind : decisive key leaves with
          | none =>
              rw [behind] at last
              cases last
              rfl
          | some leaf =>
              rw [behind] at last
              exact absurd isProp' (notBehind name' node' (behind.trans last))
        · exact fun none _ => absurd isProp (none _ List.mem_cons_self)
        · exact fun none _ => absurd isProp (none _ List.mem_cons_self)
      · refine ⟨.looking unresolvedSpreadElement, if_neg isProp, ?_, ?_, ?_⟩
        · intro name' node' last isProp'
          rw [decisive_cons] at last
          obtain behind | ⟨-, here⟩ := Option.or_eq_some_iff.mp last
          · exact absurd isProp' (notBehind name' node' behind)
          · obtain ⟨-, here⟩ := Option.ite_none_right_eq_some.mp here
            cases here
            exact absurd isProp' isProp
        · intro none resolved
          exact agrees.nothing (fun leaf member => none leaf (.tail _ member))
            fun member => resolved (.tail _ member)
        · intro none unresolved
          obtain behind | member := List.mem_cons.mp unresolved
          · cases behind
          · exact agrees.hidden (fun leaf member => none leaf (.tail _ member)) member

theorem Agrees.unresolved {argument : Expression P}
    (unknown : getValueOfExpression scope argument = none)
    {find : Properties P → Except Stop (Found P)} (agrees : Agrees key progress leaves) :
    ∃ next, lookAt scope key find (.spreadElement argument) progress = .ok next ∧
      Agrees key next (.unresolved :: leaves) := by
  cases progress with
  | returned found => exact ⟨_, rfl, agrees.of_returned [_]⟩
  | looking unresolvedSpreadElement =>
      refine ⟨.looking true, ?_, ?_, ?_, ?_⟩
      · rw [lookAt, unknown]
      · intro name node last isProp
        rw [decisive_cons] at last
        obtain behind | ⟨-, here⟩ := Option.or_eq_some_iff.mp last
        · exact nomatch agrees.recognised name node behind isProp
        · cases here
      · exact fun _ resolved => absurd List.mem_cons_self resolved
      · exact fun _ _ => .inl rfl

theorem Agrees.resolved {inner : List (Leaf P)} {progressInner : Progress P}
    {argument : Expression P} {props : Properties P}
    (known : getValueOfExpression scope argument = some props)
    {find : Properties P → Except Stop (Found P)} (finds : find props = .ok progressInner.answer)
    (agreesInner : Agrees key progressInner inner) (agrees : Agrees key progress leaves) :
    ∃ next, lookAt scope key find (.spreadElement argument) progress = .ok next ∧
      Agrees key next (inner ++ leaves) := by
  cases progress with
  | returned found => exact ⟨_, rfl, agrees.of_returned inner⟩
  | looking unresolvedSpreadElement =>
      refine ⟨_, lookAt_resolved known finds, ?_, ?_, ?_⟩
      · intro name node last isProp
        rw [decisive_append] at last
        obtain behind | ⟨-, here⟩ := Option.or_eq_some_iff.mp last
        · exact nomatch agrees.recognised name node behind isProp
        · rw [agreesInner.recognised name node here isProp]
          rfl
      · intro none resolved
        obtain ⟨noneInner, none⟩ := List.forall_mem_append.mp none
        rw [List.mem_append, not_or] at resolved
        rw [agreesInner.nothing noneInner resolved.1]
        exact agrees.nothing none resolved.2
      · intro none unresolved
        obtain ⟨noneInner, none⟩ := List.forall_mem_append.mp none
        by_cases unresolvedInner : .unresolved ∈ inner
        · obtain answer | answer := agreesInner.hidden noneInner unresolvedInner
          · rw [answer]
            exact .inr rfl
          · rw [answer]
            exact .inr rfl
        · have behind := (List.mem_append.mp unresolved).resolve_left unresolvedInner
          rw [agreesInner.nothing noneInner unresolvedInner]
          exact agrees.hidden none behind

theorem exists_comes (flattens : Flattens scope properties leaves) :
    ∃ fuel progress, Comes scope key fuel properties progress ∧ Agrees key progress leaves := by
  induction flattens with
  | nil =>
      refine ⟨0, .looking false, rfl, ?_, ?_, ?_⟩
      · exact nofun
      · exact fun _ _ => rfl
      · exact nofun
  | @property rest leaves name node flattens ih =>
      obtain ⟨fuel, progress, comes, agrees⟩ := ih
      obtain ⟨next, looks, agrees⟩ := agrees.property name node
      exact ⟨fuel, next, comes_cons_iff.2 ⟨progress, comes, looks⟩, agrees⟩
  | @resolved rest props inner leaves argument known flattensInner flattens ihInner ih =>
      obtain ⟨fuel, progress, comes, agrees⟩ := ih
      obtain ⟨fuelInner, progressInner, comesInner, agreesInner⟩ := ihInner
      have finds := getProperty_eq_ok_iff.2 ⟨progressInner, comesInner, rfl⟩
      have finds := getProperty_mono (le_max_left (fuelInner + 1) fuel) finds
      obtain ⟨next, looks, agrees⟩ := agreesInner.resolved known finds agrees
      have comes := comes.of_le (le_max_right (fuelInner + 1) fuel)
      exact ⟨_, next, comes_cons_iff.2 ⟨progress, comes, looks⟩, agrees⟩
  | @unresolved rest leaves argument unknown flattens ih =>
      obtain ⟨fuel, progress, comes, agrees⟩ := ih
      obtain ⟨next, looks, agrees⟩ := agrees.unresolved unknown
      exact ⟨fuel, next, comes_cons_iff.2 ⟨progress, comes, looks⟩, agrees⟩

theorem exists_returns (flattens : Flattens scope properties leaves) :
    ∃ progress, Returns scope key properties progress.answer ∧ Agrees key progress leaves := by
  obtain ⟨fuel, progress, comes, agrees⟩ := exists_comes flattens
  exact ⟨progress, ⟨fuel + 1, getProperty_eq_ok_iff.2 ⟨progress, comes, rfl⟩⟩, agrees⟩

/-- With clear leaves the answer is the right one. -/
theorem Clear.returns (clear : Clear key leaves) (flattens : Flattens scope properties leaves) :
    Returns scope key properties (verdict key leaves) := by
  obtain ⟨progress, returns, agrees⟩ := exists_returns flattens
  rw [verdict]
  cases last : decisive key leaves with
  | none =>
      rw [agrees.of_decisive_eq_none last] at returns
      exact returns
  | some leaf =>
      obtain isRecognised | ⟨rfl, none⟩ := clear leaf last
      · cases leaf with
        | property name node =>
            rw [agrees.recognised name node last isRecognised] at returns
            exact returns
        | unresolved => cases isRecognised
      · have member : .unresolved ∈ leaves :=
          (List.mem_filter.mp (List.mem_of_getLast? last)).1
        obtain answer | answer := agrees.hidden none member
        · rw [answer] at returns
          exact returns
        · rw [answer] at returns
          exact returns

/-- The loop returns what an entry is or what is found in the object of a spread. -/
theorem lookAt_eq_returned {find : Properties P → Except Stop (Found P)}
    (h : lookAt scope key find entry progress = .ok (.returned found)) :
    progress = .returned found ∨
      (∃ name node, isProperty key name ∧ found = .property name node) ∨
        ∃ props, find props = .ok found := by
  cases progress with
  | returned found' =>
      cases h
      exact .inl rfl
  | looking unresolvedSpreadElement =>
      right
      cases entry with
      | property name node =>
          rw [lookAt] at h
          split at h
          · next isProp =>
            cases h
            exact .inl ⟨name, node, isProp, rfl⟩
          · cases h
      | spreadElement argument =>
          cases known : getValueOfExpression scope argument with
          | none =>
              rw [lookAt, known] at h
              cases h
          | some props =>
              cases finds : find props with
              | error stop =>
                  rw [lookAt, known] at h
                  exact nomatch (except_bind_eq_ok.mp h).imp fun _ ok => finds.symm.trans ok.1
              | ok inner =>
                  rw [lookAt_resolved known finds] at h
                  cases inner with
                  | null => cases h
                  | property name node =>
                      cases h
                      exact .inr ⟨props, finds⟩
                  | undefined =>
                      cases h
                      exact .inr ⟨props, finds⟩

/-- A property that is returned is a recognised one. -/
theorem isProperty_of_returned {name : Key} {node : P}
    (returned : getProperty scope key fuel properties = .ok (.property name node)) :
    isProperty key name := by
  induction fuel generalizing properties with
  | zero => cases returned
  | succ fuel ih =>
      obtain ⟨progress, comes, answer⟩ := getProperty_eq_ok_iff.1 returned
      have isReturned : progress = .returned (.property name node) := by
        match progress with
        | .returned found => exact congrArg _ answer
        | .looking true => cases answer
        | .looking false => cases answer
      rw [isReturned] at comes
      clear returned
      induction properties with
      | nil => cases comes
      | cons entry properties ihRest =>
          obtain ⟨before, comes, looks⟩ := comes_cons_iff.1 comes
          obtain rfl | ⟨name', node', isProp, same⟩ | ⟨props, finds⟩ := lookAt_eq_returned looks
          · exact ihRest comes
          · cases same
            exact isProp
          · exact ih finds

theorem Returns.isProperty {name : Key} {node : P}
    (returns : Returns scope key properties (.property name node)) : isProperty key name :=
  returns.elim fun _ => isProperty_of_returned

end Answer

/-! ## The answer once spreads are replaced -/

section Replaced

variable {P : Type} {scope : Scope P} {key : String}
variable {properties properties' rest rest' : Properties P} {leaves leaves' : List (Leaf P)}

theorem Flattens.append (flattens : Flattens scope properties leaves)
    (flattens' : Flattens scope rest leaves') :
    Flattens scope (properties ++ rest) (leaves ++ leaves') := by
  induction flattens with
  | nil => exact flattens'
  | property name node _ ih => exact .property name node ih
  | resolved known flattensInner _ _ ih =>
      rw [List.append_assoc]
      exact .resolved known flattensInner ih
  | unresolved unknown _ ih => exact .unresolved unknown ih

theorem Flattens.of_append (flattens : Flattens scope (properties ++ rest) leaves) :
    ∃ front back, leaves = front ++ back ∧ Flattens scope properties front ∧
      Flattens scope rest back := by
  induction properties generalizing leaves with
  | nil => exact ⟨[], leaves, rfl, .nil, flattens⟩
  | cons entry properties ih =>
      cases flattens with
      | property name node flattens =>
          obtain ⟨front, back, rfl, first, second⟩ := ih flattens
          exact ⟨_ :: front, back, rfl, .property name node first, second⟩
      | @resolved _ _ inner _ _ known flattensInner flattens =>
          obtain ⟨front, back, rfl, first, second⟩ := ih flattens
          exact ⟨inner ++ front, back, (List.append_assoc ..).symm,
            .resolved known flattensInner first, second⟩
      | unresolved unknown flattens =>
          obtain ⟨front, back, rfl, first, second⟩ := ih flattens
          exact ⟨_ :: front, back, rfl, .unresolved unknown first, second⟩

theorem Flattens.inlines (flattens : Flattens scope properties leaves)
    (inlines : Inlines scope properties properties') : Flattens scope properties' leaves := by
  cases inlines with
  | @spread before after argument props known =>
      obtain ⟨front, back, rfl, first, second⟩ := flattens.of_append
      cases second with
      | resolved known' flattensInner flattensAfter =>
          cases known.symm.trans known'
          exact first.append (flattensInner.append flattensAfter)
      | unresolved unknown => cases known.symm.trans unknown

theorem Flattens.inlinesAll (flattens : Flattens scope properties leaves)
    (inlines : ReflTransGen (Inlines scope) properties properties') :
    Flattens scope properties' leaves := by
  induction inlines with
  | refl => exact flattens
  | tail _ step ih => exact ih.inlines step

/-- An entry that is left as it is. -/
inductive Stays (scope : Scope P) : Entry P (Expression P) → Leaf P → Prop
  | property (name : Key) (node : P) : Stays scope (.property name node) (.property name node)
  | unresolved {argument : Expression P} (unknown : getValueOfExpression scope argument = none) :
      Stays scope (.spreadElement argument) .unresolved

theorem Inlines.append_left (front : Properties P) (inlines : Inlines scope rest rest') :
    Inlines scope (front ++ rest) (front ++ rest') := by
  cases inlines with
  | spread before after known =>
      rw [← List.append_assoc, ← List.append_assoc]
      exact .spread (front ++ before) after known

theorem Inlines.append_right (back : Properties P) (inlines : Inlines scope rest rest') :
    Inlines scope (rest ++ back) (rest' ++ back) := by
  cases inlines with
  | spread before after known =>
      rw [List.append_assoc, List.append_assoc, List.append_assoc, List.cons_append]
      exact .spread before (after ++ back) known

/-- All resolvable spreads can be replaced. -/
theorem Flattens.exists_inlined (flattens : Flattens scope properties leaves) :
    ∃ inlined, ReflTransGen (Inlines scope) properties inlined ∧
      List.Forall₂ (Stays scope) inlined leaves := by
  induction flattens with
  | nil => exact ⟨[], .refl, .nil⟩
  | @property rest leaves name node _ ih =>
      obtain ⟨inlined, steps, stays⟩ := ih
      exact ⟨_, steps.lift ([.property name node] ++ ·) fun _ _ => Inlines.append_left _,
        .cons (.property name node) stays⟩
  | @resolved rest props inner leaves argument known _ _ ihInner ih =>
      obtain ⟨inlined, steps, stays⟩ := ih
      obtain ⟨inlinedInner, stepsInner, staysInner⟩ := ihInner
      have first : Inlines scope (.spreadElement argument :: rest) (props ++ rest) :=
        .spread [] rest known
      have second := stepsInner.lift (· ++ rest) fun _ _ => Inlines.append_right rest
      have third := steps.lift (inlinedInner ++ ·) fun _ _ => Inlines.append_left inlinedInner
      exact ⟨inlinedInner ++ inlined, (second.trans third).head first,
        List.rel_append staysInner stays⟩
  | @unresolved rest leaves argument unknown _ ih =>
      obtain ⟨inlined, steps, stays⟩ := ih
      exact ⟨_, steps.lift ([.spreadElement argument] ++ ·) fun _ _ => Inlines.append_left _,
        .cons (.unresolved unknown) stays⟩

/-- Without resolvable spreads the loop goes on until it comes to a recognised property. -/
theorem comes_of_stays (stays : List.Forall₂ (Stays scope) properties leaves) :
    ∃ progress, Comes scope key 0 properties progress ∧
      ((∃ name node, progress = .returned (.property name node)) ∨
        (∃ flag, progress = .looking flag) ∧ ∀ leaf ∈ leaves, ¬ leaf.isRecognised key) := by
  induction stays with
  | nil => exact ⟨.looking false, rfl, .inr ⟨⟨false, rfl⟩, nofun⟩⟩
  | @cons entry leaf properties leaves stays _ ih =>
      obtain ⟨progress, comes, ⟨name, node, rfl⟩ | ⟨⟨flag, rfl⟩, none⟩⟩ := ih
      · exact ⟨_, comes_cons_iff.2 ⟨_, comes, rfl⟩, .inl ⟨name, node, rfl⟩⟩
      · cases stays with
        | property name node =>
            by_cases isProp : isProperty key name
            · exact ⟨_, comes_cons_iff.2 ⟨_, comes, if_pos isProp⟩, .inl ⟨name, node, rfl⟩⟩
            · refine ⟨_, comes_cons_iff.2 ⟨_, comes, if_neg isProp⟩, .inr ⟨⟨flag, rfl⟩, ?_⟩⟩
              exact List.forall_mem_cons.mpr ⟨isProp, none⟩
        | @unresolved argument unknown =>
            have looks : lookAt scope key (getProperty scope key 0) (.spreadElement argument)
                (.looking flag) = .ok (.looking true) := by
              rw [lookAt, unknown]
            refine ⟨_, comes_cons_iff.2 ⟨_, comes, looks⟩, .inr ⟨⟨true, rfl⟩, ?_⟩⟩
            exact List.forall_mem_cons.mpr ⟨Bool.false_ne_true, none⟩

theorem exists_returns_property (stays : List.Forall₂ (Stays scope) properties leaves)
    {leaf : Leaf P} (member : leaf ∈ leaves) (recognised : leaf.isRecognised key) :
    ∃ name node, Returns scope key properties (.property name node) := by
  obtain ⟨progress, comes, ⟨name, node, rfl⟩ | ⟨-, none⟩⟩ := @comes_of_stays _ _ key _ _ stays
  · exact ⟨name, node, 1, getProperty_eq_ok_iff.2 ⟨_, comes, rfl⟩⟩
  · exact absurd recognised (none leaf member)

end Replaced

/-! ## Acyclic objects -/

section Ending

variable {P : Type} {scope : Scope P}

theorem exists_flattens {properties : Properties P}
    (each : ∀ argument props, .spreadElement argument ∈ properties →
      getValueOfExpression scope argument = some props → ∃ leaves, Flattens scope props leaves) :
    ∃ leaves, Flattens scope properties leaves := by
  induction properties with
  | nil => exact ⟨[], .nil⟩
  | cons entry properties ih =>
      have each' := fun argument props member => each argument props (.tail entry member)
      obtain ⟨leaves, flattens⟩ := ih each'
      cases entry with
      | property name node => exact ⟨_, .property name node flattens⟩
      | spreadElement argument =>
          cases known : getValueOfExpression scope argument with
          | none => exact ⟨_, .unresolved known flattens⟩
          | some props =>
              obtain ⟨inner, flattensInner⟩ := each argument props List.mem_cons_self known
              exact ⟨_, .resolved known flattensInner flattens⟩

theorem exists_flattens_of_ends {expression : Expression P}
    (ends : Ends (calls scope) expression) {props : Properties P}
    (known : getValueOfExpression scope expression = some props) :
    ∃ leaves, Flattens scope props leaves := by
  induction ends generalizing props with
  | intro expression _ ih =>
      cases expression with
      | objectExpression properties =>
          cases known
          apply exists_flattens
          intro argument props member known
          exact ih argument (List.mem_filterMap.mpr ⟨_, member, rfl⟩) known
      | identifier name =>
          rw [getValueOfExpression] at known
          split at known
          · next written =>
            cases known
            apply ih (.objectExpression props) ?_ rfl
            rw [Calls, calls, written]
            exact List.mem_singleton_self _
          · cases known
      | other => cases known

end Ending


/-! ## When the helper is right -/

section Main

variable {P : Type} {scope : Scope P}

theorem name_mem_of_getVariableFromScope {name : String} {found : Variable P}
    (h : getVariableFromScope scope name = some found) : name ∈ scope.flatten.map (·.name) := by
  induction scope with
  | nil => cases h
  | cons inner upper ih =>
      rw [List.flatten_cons, List.map_append, List.mem_append]
      rw [getVariableFromScope] at h
      split at h
      · next declared here =>
        have named := List.find?_some (p := fun declared : Variable P => declared.name = name) here
        have named := of_decide_eq_true named
        exact .inl (List.mem_map.mpr ⟨declared, List.mem_of_find?_eq_some here, named⟩)
      · exact .inr (ih h)

/-- The identifiers that have a unique write. -/
def defined (scope : Scope P) : Set (Expression P) :=
  {expression | ∃ name, expression = .identifier name ∧ getUniqueWriteUsage scope name ≠ none}

theorem finite_defined (scope : Scope P) : (defined scope).Finite := by
  let names := (scope.flatten.map (·.name)).map (@Expression.identifier P)
  apply Set.Finite.subset (List.finite_toSet names)
  rintro expression ⟨name, rfl, written⟩
  have found : getVariableFromScope scope name ≠ none := by
    intro unknown
    rw [getUniqueWriteUsage, unknown] at written
    exact written rfl
  obtain ⟨declared, found⟩ := Option.ne_none_iff_exists'.mp found
  exact List.mem_map.mpr ⟨name, name_mem_of_getVariableFromScope found, rfl⟩

theorem ends_calls_iff (expression : Expression P) :
    Ends (calls scope) expression ↔ Acyclic (calls scope) expression := by
  apply ends_iff_acyclic sizeOf (finite_defined scope)
  intro expression undefined argument called
  cases expression with
  | objectExpression properties =>
      obtain ⟨entry, member, isArgument⟩ := List.mem_filterMap.mp called
      cases entry with
      | property name node => cases isArgument
      | spreadElement argument' =>
          cases isArgument
          have := List.sizeOf_lt_of_mem member
          rw [Entry.spreadElement.sizeOf_spec] at this
          rw [Expression.objectExpression.sizeOf_spec]
          omega
  | identifier name =>
      rw [calls] at called
      split at called
      · next written => exact absurd ⟨name, rfl, by simp [written]⟩ undefined
      · cases called
  | other => cases called

/-- The helper is right on an object expression with acyclic spreads, and replacing spreads does
not change its answer, if and only if the entries that are left after all replacements are
clear about the key. -/
theorem correct_iff {scopeOf : Scope P → String → Scope P} {key : String}
    {properties : Properties P} (acyclic : Acyclic (calls scope) (.objectExpression properties))
    (same : SameValues scopeOf scope (scope, properties)) :
    Correct scope key scopeOf properties ↔
      ∀ leaves, Flattens scope properties leaves → Clear key leaves := by
  constructor
  · rintro ⟨found, returns, sound, unchanged⟩ leaves flattens last decides
    rw [sound_iff flattens same, verdict, decides] at sound
    cases last with
    | property name node =>
        subst sound
        exact .inl returns.isProperty
    | unresolved =>
        subst sound
        refine .inr ⟨rfl, fun leaf member recognised => ?_⟩
        obtain ⟨inlined, steps, stays⟩ := flattens.exists_inlined
        obtain ⟨name, node, returns'⟩ := exists_returns_property stays member recognised
        cases (unchanged inlined steps).unique returns'
  · intro clear
    have ends := (ends_calls_iff (.objectExpression properties)).mpr acyclic
    obtain ⟨leaves, flattens⟩ := exists_flattens_of_ends ends rfl
    have clear := clear leaves flattens
    refine ⟨verdict key leaves, clear.returns flattens, ?_, fun properties' steps => ?_⟩
    · exact (sound_iff flattens same _).mpr rfl
    · exact clear.returns (flattens.inlinesAll steps)

end Main

/-- `const u = {b: 2}`. -/
def shownScope : Scope ℕ :=
  [[⟨"u", [⟨true, some (.objectExpression [.property (.identifier "b") 2])⟩]⟩]]

/-- `{...v, a: 1, ...u}`, where nothing is known about `v`. -/
def shown : Properties ℕ :=
  [.spreadElement (.identifier "v"), .property (.identifier "a") 1,
    .spreadElement (.identifier "u")]

theorem acyclic_shown : Acyclic (calls shownScope) (.objectExpression shown) := by
  have value : Ends (calls shownScope) (.objectExpression [.property (.identifier "b") 2]) :=
    .intro _ nofun
  apply Ends.acyclic
  apply Acc.intro
  intro argument called
  obtain rfl | rfl : argument = .identifier "v" ∨ argument = .identifier "u" := by
    simpa [Calls, calls, shown] using called
  · exact .intro _ nofun
  · apply Acc.intro
    intro definition called
    obtain rfl := List.mem_singleton.mp called
    exact value

/-- Where all initialisers stand in the scope of the rule, the values are the same. -/
theorem sameValues_of_oneScope {P : Type} (rule : Scope P) (properties : Properties P) :
    SameValues (fun _ _ => rule) rule (rule, properties) := by
  intro scope properties' reached argument _
  have oneScope : ∀ target, ReflTransGen (Part fun _ _ => rule) (rule, properties) target →
      target.1 = rule := by
    intro target reached
    induction reached with
    | refl => rfl
    | tail _ part ih =>
        cases part with
        | @spread _ _ _ argument member known =>
            cases argument with
            | identifier name => rfl
            | objectExpression properties => exact ih
            | other => exact ih
  rw [show scope = rule from oneScope _ reached]

theorem correct_shown : Correct shownScope "a" (fun _ _ => shownScope) shown := by
  apply (correct_iff acyclic_shown (sameValues_of_oneScope _ _)).mpr
  rintro leaves (_ | _ | ⟨known, -, -⟩ | ⟨-, flattens⟩)
  · cases known
  obtain _ | ⟨_, _, _ | _ | ⟨known, inner, rest⟩ | ⟨unknown, -⟩⟩ := flattens
  · cases known
    cases rest
    obtain _ | ⟨_, _, ⟨⟩⟩ := inner
    rintro last ⟨⟩
    exact .inl rfl
  · cases unknown

/-- `{a: 1, ...u}`. -/
def overwritten : Properties ℕ :=
  [.property (.identifier "a") 1, .spreadElement (.identifier "u")]

/-- The property is returned though the spread behind it may set the key. -/
theorem not_correct_overwritten :
    getProperty [] "a" 1 overwritten = .ok (.property (.identifier "a") 1) ∧
      Evaluates (fun _ _ => []) "a" [] overwritten (some .unknown) ∧
        ¬ Correct [] "a" (fun _ _ => []) overwritten := by
  have returned : getProperty [] "a" 1 overwritten = .ok (.property (.identifier "a") 1) := rfl
  have evaluates : Evaluates (fun _ _ => []) "a" [] overwritten (some .unknown) :=
    .property (.identifier "a") 1 (.present rfl (.nil []))
  refine ⟨returned, evaluates, ?_⟩
  rintro ⟨found, returns, sound, -⟩
  cases returns.unique ⟨1, returned⟩
  cases sound _ evaluates

end SonarJS.ObjectProperties
