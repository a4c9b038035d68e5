import Mathlib.Data.List.DropRight
import SonarJS.Linting.FullyQualifiedNames

/-!
# Fully qualified names and intermediate variables

An expression that starts from a variable should have the name that it has with the
definition of the variable in its place. It does if the definition starts from an
identifier: the resolution goes on from there with the same properties collected, and in an
acyclic program it does not matter which variables it has visited before.

A definition that starts from a call of `require` is treated in two ways. Through a variable
the parts of the module name are taken apart, and all properties that have been collected
come after them. In a chain the module name stays as it is, and the chain must not have
another call inside.
-/

namespace SonarJS

namespace FullyQualifiedNames

open Relation

/-! ## The reduction of an expression -/

/-- Where the loop goes on from a node, and the qualifier that it collects there. -/
def Node.next : Node → Option (Node × Option String)
  | .memberExpression object property => some (object, qualifier property)
  | .callExpression callee arguments =>
    if (getModuleNameFromRequire (.callExpression callee arguments)).isSome then none
    else some (callee, none)
  | .newExpression callee _ => some (callee, none)
  | .chainExpression expression => some (expression, none)
  | .tsNonNullExpression expression => some (expression, none)
  | .tsQualifiedName left right => some (left, some right)
  | .identifier _ => none
  | .literal _ => none
  | .other => none

section Reduction

variable {type : NodeType} {node : Node}

theorem sizeOf_next {n : Node} {q : Option String} (h : node.next = some (n, q)) :
    sizeOf n < sizeOf node := by
  cases node with
  | callExpression callee arguments =>
      change ite _ none (some (callee, none)) = _ at h
      split at h
      · cases h
      · cases h
        simp
        omega
  | identifier name => cases h
  | literal value => cases h
  | other => cases h
  | _ =>
      cases h
      simp
      try omega

theorem Node.next_induction {motive : Node → Prop}
    (step : ∀ node, (∀ n q, node.next = some (n, q) → motive n) → motive node) (node : Node) :
    motive node := by
  induction size : sizeOf node using Nat.strong_induction_on generalizing node with
  | _ bound ih =>
      subst size
      exact step node fun n q next => ih _ (sizeOf_next next) n rfl

theorem reduceTo_of_type (h : node.type = type) (fqn : List String) :
    reduceTo type node fqn = (node, fqn) := by
  subst h
  cases node <;> simp [reduceTo, Node.type]

theorem reduceTo_of_next_none (h : node.next = none) (fqn : List String) :
    reduceTo type node fqn = (node, fqn) := by
  cases node with
  | callExpression callee arguments =>
      change ite _ none (some (callee, none)) = _ at h
      split at h
      case isTrue found => rw [reduceTo, if_pos (.inr found)]
      case isFalse => cases h
  | identifier name => rfl
  | literal value => rfl
  | other => rfl
  | _ => cases h

theorem reduceTo_of_next {n : Node} {q : Option String} (other : node.type ≠ type)
    (h : node.next = some (n, q)) (fqn : List String) :
    reduceTo type node fqn = reduceTo type n (q.toList ++ fqn) := by
  cases node with
  | callExpression callee arguments =>
      change ite _ none (some (callee, none)) = _ at h
      split at h
      case isTrue => cases h
      case isFalse noRequire =>
        cases h
        rw [reduceTo]
        exact if_neg (not_or.mpr ⟨Ne.symm other, noRequire⟩)
  | identifier name => cases h
  | literal value => cases h
  | other => cases h
  | _ =>
      cases h
      rw [reduceTo]
      exact if_neg (Ne.symm other)

/-- What has been collected before stays behind what is collected now. -/
theorem reduceTo_eq (type : NodeType) (node : Node) (fqn : List String) :
    reduceTo type node fqn = ((reduceTo type node []).1, (reduceTo type node []).2 ++ fqn) := by
  induction node using Node.next_induction generalizing fqn with
  | step node ih =>
      by_cases here : node.type = type
      · rw [reduceTo_of_type here, reduceTo_of_type here]
        rfl
      · cases next : node.next with
        | none =>
            rw [reduceTo_of_next_none next, reduceTo_of_next_none next]
            rfl
        | some found =>
            obtain ⟨n, q⟩ := found
            rw [reduceTo_of_next here next, reduceTo_of_next here next, ih n q next,
              ih n q next (q.toList ++ [])]
            simp

/-- To stop at a call on the way makes no difference. -/
theorem reduceTo_reduceTo (node : Node) (fqn : List String) :
    reduceTo .identifier (reduceTo .callExpression node fqn).1
      (reduceTo .callExpression node fqn).2 = reduceTo .identifier node fqn := by
  induction node using Node.next_induction generalizing fqn with
  | step node ih =>
      by_cases call : node.type = .callExpression
      · rw [reduceTo_of_type call]
      · cases next : node.next with
        | none => rw [reduceTo_of_next_none next]
        | some found =>
            obtain ⟨n, q⟩ := found
            have other : node.type ≠ .identifier := by
              cases node
              case identifier => cases next
              all_goals exact nofun
            rw [reduceTo_of_next call next, ih n q next, reduceTo_of_next other next]

end Reduction

/-! ## Chains -/

/-- A static property. -/
inductive Property
  | identifier (name : String)
  | literal (value : String)

def Property.name : Property → String
  | .identifier name => name
  | .literal value => value

def Property.node : Property → Node
  | .identifier name => .identifier name
  | .literal value => .literal (some value)

/-- What is done with an expression in a chain. -/
inductive Step
  | member (property : Property)
  | call (arguments : List Node)
  | new (arguments : List Node)

namespace Step

def apply (node : Node) : Step → Node
  | .member property => .memberExpression node property.node
  | .call arguments => .callExpression node arguments
  | .new arguments => .newExpression node arguments

def isCall : Step → Bool
  | .call _ => true
  | _ => false

def name : Step → Option String
  | .member property => some property.name
  | _ => none

end Step

/-- What a chain starts from. -/
inductive Root
  | identifier (name : String)
  | require (moduleName : String)

def Root.node : Root → Node
  | .identifier name => .identifier name
  | .require moduleName => .callExpression (.identifier "require") [.literal (some moduleName)]

def chain (node : Node) (steps : List Step) : Node := steps.foldl Step.apply node

/-- The accessed members in access order. -/
def members (steps : List Step) : List String := steps.filterMap Step.name

/-- An identifier `require` that is called with one literal. -/
def CallsRequire (root : Root) (steps : List Step) : Prop :=
  root = .identifier "require" ∧ ∃ value rest, steps = .call [.literal value] :: rest

theorem not_callsRequire_of_ne {name : String} {steps : List Step} (h : name ≠ "require") :
    ¬ CallsRequire (.identifier name) steps := by
  rintro ⟨same, _⟩
  exact h (Root.identifier.inj same)

theorem isSome_getModuleNameFromRequire_iff {callee : Node} {arguments : List Node} :
    (getModuleNameFromRequire (.callExpression callee arguments)).isSome ↔
      callee = .identifier "require" ∧ ∃ value, arguments = [.literal value] := by
  constructor
  · intro found
    unfold getModuleNameFromRequire at found
    split at found
    case h_1 value rest same =>
      cases same
      split at found
      case isFalse => cases found
      case isTrue isRequire =>
        unfold FullyQualifiedNames.isRequire at isRequire
        split at isRequire
        case h_2 => cases isRequire
        case h_1 name arguments same =>
          cases same
          obtain ⟨isName, one⟩ := Bool.and_eq_true_iff.mp isRequire
          have one := List.length_eq_zero_iff.mp (Nat.succ.inj (of_decide_eq_true one))
          exact ⟨by rw [of_decide_eq_true isName], value, by rw [one]⟩
    case h_2 => cases found
  · rintro ⟨rfl, value, rfl⟩
    rfl

@[simp] theorem chain_concat (node : Node) (steps : List Step) (step : Step) :
    chain node (steps ++ [step]) = step.apply (chain node steps) := by
  rw [chain, List.foldl_append]
  rfl

theorem members_append (steps steps' : List Step) :
    members (steps ++ steps') = members steps ++ members steps' := List.filterMap_append

/-- Only an identifier by itself is an identifier. -/
theorem chain_eq_identifier_iff {root : Root} {steps : List Step} {name : String} :
    chain root.node steps = .identifier name ↔ root = .identifier name ∧ steps = [] := by
  induction steps using List.reverseRecOn with
  | nil =>
      cases root with
      | identifier name' => simp [chain, Root.node]
      | require moduleName => simp [chain, Root.node]
  | append_singleton steps step _ =>
      rw [chain_concat]
      cases step <;> simp [Step.apply]

/-- A chain goes on to its root, past calls also. -/
theorem next_chain_concat {root : Root} {steps : List Step} {step : Step}
    (noRequire : ¬ CallsRequire root (steps ++ [step])) :
    (chain root.node (steps ++ [step])).next = some (chain root.node steps, step.name) := by
  rw [chain_concat]
  cases step with
  | member property => cases property <;> rfl
  | new arguments => rfl
  | call arguments =>
      have peeled : ¬ (getModuleNameFromRequire
          (.callExpression (chain root.node steps) arguments)).isSome := by
        rw [isSome_getModuleNameFromRequire_iff, chain_eq_identifier_iff]
        rintro ⟨⟨rfl, rfl⟩, value, rfl⟩
        exact noRequire ⟨rfl, value, [], rfl⟩
      exact if_neg peeled

theorem CallsRequire.concat {root : Root} {steps : List Step} (h : CallsRequire root steps)
    (step : Step) : CallsRequire root (steps ++ [step]) := by
  obtain ⟨isRequire, value, rest, rfl⟩ := h
  exact ⟨isRequire, value, rest ++ [step], rfl⟩

theorem reduceTo_identifier_chain {root : Root} {steps : List Step}
    (noRequire : ¬ CallsRequire root steps) (fqn : List String) :
    reduceTo .identifier (chain root.node steps) fqn = (root.node, members steps ++ fqn) := by
  induction steps using List.reverseRecOn generalizing fqn with
  | nil =>
      cases root with
      | identifier name => rfl
      | require moduleName => rfl
  | append_singleton steps step ih =>
      have other : (chain root.node (steps ++ [step])).type ≠ .identifier := by
        rw [chain_concat]
        cases step <;> exact nofun
      rw [reduceTo_of_next other (next_chain_concat noRequire),
        ih fun calls => noRequire (calls.concat step), members_append, List.append_assoc]
      cases step <;> rfl

/-- What a chain does after its last call. -/
def afterCalls (steps : List Step) : List Step := steps.rtakeWhile fun step => !step.isCall

/-- A chain up to its last call, and nothing if there is no call. -/
def upToCall (steps : List Step) : List Step := steps.rdropWhile fun step => !step.isCall

theorem upToCall_concat (steps : List Step) (step : Step) :
    upToCall (steps ++ [step]) = if step.isCall then steps ++ [step] else upToCall steps := by
  rw [upToCall, List.rdropWhile_concat, upToCall]
  cases step.isCall <;> rfl

theorem afterCalls_concat (steps : List Step) (step : Step) :
    afterCalls (steps ++ [step]) = if step.isCall then [] else afterCalls steps ++ [step] := by
  rw [afterCalls, List.rtakeWhile_concat, afterCalls]
  cases step.isCall <;> rfl

theorem reduceTo_call_chain {root : Root} (steps : List Step) (fqn : List String) :
    reduceTo .callExpression (chain root.node steps) fqn =
      (chain root.node (upToCall steps), members (afterCalls steps) ++ fqn) := by
  induction steps using List.reverseRecOn generalizing fqn with
  | nil =>
      cases root with
      | identifier name => rfl
      | require moduleName => rfl
  | append_singleton steps step ih =>
      by_cases call : step.isCall
      case pos =>
        obtain ⟨arguments, rfl⟩ : ∃ arguments, step = .call arguments := by
          cases step with
          | call arguments => exact ⟨arguments, rfl⟩
          | _ => cases call
        have here : (chain root.node (steps ++ [.call arguments])).type = .callExpression := by
          rw [chain_concat]
          rfl
        rw [reduceTo_of_type here, upToCall_concat, afterCalls_concat]
        rfl
      case neg =>
        have other : (chain root.node (steps ++ [step])).type ≠ .callExpression := by
          rw [chain_concat]
          cases step with
          | call arguments => exact absurd rfl call
          | _ => exact nofun
        have next : (chain root.node (steps ++ [step])).next =
            some (chain root.node steps, step.name) := by
          rw [chain_concat]
          cases step with
          | call arguments => exact absurd rfl call
          | member property => cases property <;> rfl
          | new arguments => rfl
        rw [reduceTo_of_next other next, ih, upToCall_concat, afterCalls_concat, if_neg call,
          if_neg call, members_append, List.append_assoc]
        cases step <;> rfl

theorem upToCall_append_afterCalls (steps : List Step) :
    upToCall steps ++ afterCalls steps = steps := List.rdropWhile_append_rtakeWhile

theorem upToCall_eq_nil_iff {steps : List Step} :
    upToCall steps = [] ↔ ∀ step ∈ steps, step.isCall = false := by
  rw [upToCall, List.rdropWhile_eq_nil_iff]
  simp

/-! ## The definition graph -/

section Graph

variable {V : Type} (program : Program V)

/-- The variable that an expression starts from. -/
def startOf (scope : Scope V) (node : Node) : Option V :=
  match (reduceTo .identifier node []).1 with
  | .identifier name => getVariableFromScope scope name
  | _ => none

/-- The expressions that a variable is defined by. -/
def definingNodes (declared : Variable V) : List Node :=
  (declared.defs.filterMap fun
    | .importBinding _ (.tsImportEqualsDeclaration (.entityName name)) => some name
    | _ => none) ++ (getUniqueWriteReference declared).toList

/-- A definition of the first variable starts from the second. -/
def LeadsTo (declared target : V) : Prop :=
  ∃ node ∈ definingNodes (program declared), startOf (program declared).scope node = some target

def Acyclic : Prop := ∀ declared, ¬ TransGen (LeadsTo program) declared declared

/-- The resolution of an expression never comes to one of these variables. -/
def Avoids (scope : Scope V) (node : Node) (visitedVars : List V) : Prop :=
  ∀ start, startOf scope node = some start →
    ∀ target, ReflTransGen (LeadsTo program) start target → target ∉ visitedVars

variable {program}

theorem startOf_eq {scope : Scope V} {node : Node} {fqn fqn' : List String} {name : String}
    (h : reduceTo .identifier node fqn = (.identifier name, fqn')) :
    startOf scope node = getVariableFromScope scope name := by
  rw [reduceTo_eq, Prod.mk.injEq] at h
  rw [startOf, h.1]

theorem startOf_reduceTo (scope : Scope V) (node : Node) (fqn : List String) :
    startOf scope (reduceTo .callExpression node fqn).1 = startOf scope node := by
  have same := congrArg Prod.fst (reduceTo_reduceTo node fqn)
  rw [reduceTo_eq .identifier _ (reduceTo .callExpression node fqn).2,
    reduceTo_eq .identifier node fqn] at same
  rw [startOf, startOf, same]

variable {resolve resolve' : Resolve V} {declared : V} {visitedVars visitedVars' : List V}
variable {definition : Definition} {fqn : List String} {result : Option String}

/-- One resolver answers what the other does on the nodes that a variable leads to. -/
def Follows (program : Program V) (resolve resolve' : Resolve V) (declared : V)
    (visitedVars visitedVars' : List V) : Prop :=
  ∀ node, (∃ n ∈ definingNodes (program declared),
      startOf (program declared).scope node = startOf (program declared).scope n) →
    ∀ fqn result,
      resolve (program declared).scope node fqn (visitedVars ++ [declared]) = some result →
        resolve' (program declared).scope node fqn (visitedVars' ++ [declared]) = some result

theorem checkFqnFromImport_congr
    (follows : Follows program resolve resolve' declared visitedVars visitedVars')
    (member : definition ∈ (program declared).defs)
    (h : checkFqnFromImport program resolve declared definition fqn visitedVars = some result) :
    checkFqnFromImport program resolve' declared definition fqn visitedVars' = some result := by
  cases definition with
  | other => exact h
  | declarator id => exact h
  | importBinding specifier importDeclaration =>
      cases importDeclaration with
      | importDeclaration source => exact h
      | tsImportEqualsDeclaration moduleReference =>
          cases moduleReference with
          | tsExternalModuleReference expression =>
              cases expression with
              | literal value => cases value <;> exact h
              | _ => exact h
          | entityName name =>
              cases name with
              | tsQualifiedName left right =>
                  refine follows _ ⟨_, List.mem_append_left _ ?_, rfl⟩ _ _ h
                  exact List.mem_filterMap.mpr ⟨_, member, rfl⟩
              | _ => exact h

theorem checkFqnFromRequire_congr
    (follows : Follows program resolve resolve' declared visitedVars visitedVars')
    (h : checkFqnFromRequire program resolve declared definition fqn visitedVars = some result) :
    checkFqnFromRequire program resolve' declared definition fqn visitedVars' = some result := by
  cases definition with
  | other => exact h
  | importBinding specifier importDeclaration => exact h
  | declarator id =>
      unfold checkFqnFromRequire at h ⊢
      cases written : getUniqueWriteReference (program declared) with
      | none =>
          rw [written] at h
          exact h
      | some value =>
          rw [written] at h
          dsimp only at h ⊢
          split
          case h_1 found =>
            rw [found] at h
            exact h
          case h_2 notFound =>
            split at h
            case h_1 found => exact absurd found (notFound _)
            case h_2 =>
              refine follows _ ⟨value, List.mem_append_right _ ?_, startOf_reduceTo _ _ _⟩ _ _ h
              rw [written]
              exact List.mem_singleton_self value

theorem resolveIdentifier_congr [DecidableEq V] {scope : Scope V} {name : String}
    (follows : ∀ declared, getVariableFromScope scope name = some declared →
      Follows program resolve resolve' declared visitedVars visitedVars')
    (unvisited : ∀ declared, getVariableFromScope scope name = some declared →
      declared ∉ visitedVars ∧ declared ∉ visitedVars')
    (h : resolveIdentifier program resolve scope name fqn visitedVars = some result) :
    resolveIdentifier program resolve' scope name fqn visitedVars' = some result := by
  rw [resolveIdentifier] at h ⊢
  cases found : getVariableFromScope scope name with
  | none =>
      rw [found] at h
      exact h
  | some declared =>
      obtain ⟨new, new'⟩ := unvisited declared found
      rw [found] at h
      dsimp only at h ⊢
      split
      case isTrue several =>
        rw [if_pos several] at h
        exact h
      case isFalse single =>
        rw [if_neg single] at h
        split
        case isTrue ends =>
          rw [if_pos (.inl (ends.resolve_right new'))] at h
          exact h
        case isFalse goesOn =>
          rw [if_neg (not_or.mpr ⟨(not_or.mp goesOn).1, new⟩)] at h
          cases resolvable : (program declared).defs.find? Definition.isResolvable with
          | none =>
              rw [resolvable] at h
              exact h
          | some definition =>
              rw [resolvable] at h
              obtain ⟨fqnFromImport, known, h⟩ := Option.bind_eq_some_iff.mp h
              refine Option.bind_eq_some_iff.mpr ⟨fqnFromImport, checkFqnFromImport_congr
                (follows declared found) (List.mem_of_find?_eq_some resolvable) known, ?_⟩
              cases fqnFromImport with
              | some _ => exact h
              | none => exact checkFqnFromRequire_congr (follows declared found) h

/-- A jump avoids the variable that it starts from. -/
theorem Avoids.jump (acyclic : Acyclic program) {scope : Scope V} {node n n' : Node}
    (avoids : Avoids program scope node visitedVars) (start : startOf scope node = some declared)
    (member : n ∈ definingNodes (program declared))
    (same : startOf (program declared).scope n' = startOf (program declared).scope n) :
    Avoids program (program declared).scope n' (visitedVars ++ [declared]) := by
  intro next isNext target reached
  have leads : LeadsTo program declared next := ⟨n, member, same.symm.trans isNext⟩
  rw [List.mem_append, List.mem_singleton, not_or]
  refine ⟨avoids declared start target (.head leads reached), ?_⟩
  rintro rfl
  exact acyclic target (TransGen.head' leads reached)

/-- Neither more fuel nor other variables that are not come to change a result. -/
theorem getFullyQualifiedNameRaw_congr [DecidableEq V] (acyclic : Acyclic program)
    {fuel fuel' : ℕ} (more : fuel ≤ fuel') {scope : Scope V} {node : Node}
    (avoids : Avoids program scope node visitedVars)
    (avoids' : Avoids program scope node visitedVars')
    (h : getFullyQualifiedNameRaw program fuel scope node fqn visitedVars = some result) :
    getFullyQualifiedNameRaw program fuel' scope node fqn visitedVars' = some result := by
  induction fuel generalizing fuel' scope node fqn visitedVars visitedVars' result with
  | zero => cases h
  | succ fuel ih =>
      obtain ⟨fuel', rfl⟩ := Nat.exists_eq_add_of_lt (Nat.lt_of_succ_le more)
      rw [getFullyQualifiedNameRaw] at h ⊢
      split
      case h_2 notIdentifier =>
        split at h
        case h_1 found => exact absurd found (notIdentifier _ _)
        case h_2 => exact h
      case h_1 _ name fqn found =>
        rw [found] at h
        have start : ∀ declared, getVariableFromScope scope name = some declared →
            startOf scope node = some declared := fun declared known =>
          (startOf_eq found).trans known
        refine resolveIdentifier_congr ?_ ?_ h
        · intro declared known n' child fqn result h
          obtain ⟨n, member, same⟩ := child
          exact ih (by omega) (avoids.jump acyclic (start declared known) member same)
            (avoids'.jump acyclic (start declared known) member same) h
        · intro declared known
          exact ⟨avoids declared (start declared known) declared .refl,
            avoids' declared (start declared known) declared .refl⟩

end Graph

/-! ## Slashes in a name -/

section Slashes

def slashes (s : String) : ℕ := s.toList.count '/'

theorem slash_not_mem_splitOn {s part : List Char} (h : part ∈ s.splitOn '/') : '/' ∉ part := by
  induction s generalizing part with
  | nil =>
      rw [List.splitOn_nil, List.mem_singleton] at h
      subst h
      exact List.not_mem_nil
  | cons c s ih =>
      rw [List.splitOn_cons_eq_if_modifyHead] at h
      split at h
      · obtain rfl | h := List.mem_cons.mp h
        · exact List.not_mem_nil
        · exact ih h
      · rename_i other
        obtain ⟨first, rest, parts⟩ := List.exists_cons_of_ne_nil (List.splitOn_ne_nil '/' s)
        rw [parts, List.modifyHead_cons] at h
        obtain rfl | h := List.mem_cons.mp h
        · have notSlash : '/' ≠ c := fun same => other (by rw [← same]; rfl)
          exact List.not_mem_cons_of_ne_of_not_mem notSlash
            (ih (by rw [parts]; exact List.mem_cons_self))
        · exact ih (by rw [parts]; exact List.mem_cons_of_mem _ h)

theorem slashes_join (fqn : List String) :
    slashes (join fqn) = (fqn.flatMap String.toList).count '/' := by
  rw [slashes, join, String.toList_intercalate]
  induction fqn with
  | nil => rfl
  | cons part fqn ih =>
      cases fqn with
      | nil => simp
      | cons next fqn =>
          have separator : ".".toList.count '/' = 0 := by decide
          rw [List.map_cons, List.map_cons, List.intercalate_cons_cons, List.count_append,
            List.count_append, ← List.map_cons, ih, separator, Nat.add_zero]
          exact List.count_append.symm

theorem slashes_splitPath (path : String) :
    ((splitPath path).flatMap String.toList).count '/' = 0 := by
  rw [List.count_eq_zero, List.mem_flatMap]
  rintro ⟨part, member, slash⟩
  obtain ⟨chars, isPart, rfl⟩ := List.mem_map.mp member
  rw [String.toList_ofList] at slash
  exact slash_not_mem_splitOn isPart slash

/-- The prefix that is removed has no slash. -/
theorem slashes_removeNodePrefixIfExists (fqn : String) :
    slashes (removeNodePrefixIfExists fqn) = slashes fqn := by
  rw [removeNodePrefixIfExists]
  split
  case isFalse => rfl
  case isTrue isPrefix =>
    obtain ⟨rest, same⟩ := List.isPrefixOf_iff_prefix.mp isPrefix
    have noSlash : NODE_NAMESPACE.toList.count '/' = 0 := by decide
    rw [slashes, slashes, String.toList_ofList, ← same, ← String.length_toList, List.drop_left,
      List.count_append, noSlash, Nat.zero_add]

theorem splitPath_eq_singleton {path : String} (h : '/' ∉ path.toList) :
    splitPath path = [path] := by
  rw [splitPath, List.splitOn_eq_singleton h, List.map_singleton, String.ofList_toList]

end Slashes

section Inlining

variable {V : Type} [Fintype V] [DecidableEq V] (program : Program V) (scope : Scope V)

/-- `const v = e` is the only definition of a variable, and what the expression starts from
means the same in the scope of the variable. -/
structure IsConst (name : String) (declared : V) (root : Root) (steps : List Step) : Prop where
  found : getVariableFromScope scope name = some declared
  defs : (program declared).defs = [.declarator .other]
  writeable : (program declared).writeable = true
  written : getUniqueWriteReference (program declared) = some (chain root.node steps)
  sameScope : ∀ x, root = .identifier x →
    getVariableFromScope (program declared).scope x = getVariableFromScope scope x

/-- The names of `E[v]` and `E[e]`, where `E` ends with a call, are the same, and for a module
they are the name of the module, with its parts taken apart in both or in none, followed by
the accessed members. -/
def NamesAgree (name : String) (root : Root) (steps access : List Step) (arguments : List Node) :
    Prop :=
  getFullyQualifiedName program scope (chain (.identifier name) (access ++ [.call arguments])) =
      getFullyQualifiedName program scope
        (chain root.node (steps ++ (access ++ [.call arguments]))) ∧
    ∀ moduleName, root = .require moduleName →
      ∃ parts, (parts = [moduleName] ∨ parts = splitPath moduleName) ∧
        getFullyQualifiedName program scope
            (chain root.node (steps ++ (access ++ [.call arguments]))) =
          some (removeNodePrefixIfExists (join (parts ++ (members steps ++ members access))))

variable {program scope}

/-- In a chain, only the root itself can be a call of `require`. -/
theorem getModuleNameFromRequire_chain {root : Root} {steps : List Step}
    (noRequire : ¬ CallsRequire root steps)
    (notRoot : ∀ moduleName, root = .require moduleName → steps ≠ []) :
    getModuleNameFromRequire (chain root.node steps) = none := by
  induction steps using List.reverseRecOn with
  | nil =>
      cases root with
      | identifier x => rfl
      | require moduleName => exact absurd rfl (notRoot moduleName rfl)
  | append_singleton steps step _ =>
      rw [chain_concat]
      cases step with
      | member property => rfl
      | new arguments => rfl
      | call arguments =>
          rw [← Option.not_isSome_iff_eq_none]
          show ¬ (getModuleNameFromRequire (.callExpression _ arguments)).isSome
          rw [isSome_getModuleNameFromRequire_iff, chain_eq_identifier_iff]
          rintro ⟨⟨same, rfl⟩, value, rfl⟩
          exact noRequire ⟨same, value, [], rfl⟩

omit [Fintype V] in
/-- A chain with an identifier at its root is resolved from the identifier on. -/
theorem getFullyQualifiedNameRaw_chain {x : String} {steps : List Step}
    (noRequire : ¬ CallsRequire (.identifier x) steps) (fuel : ℕ) (fqn : List String)
    (visitedVars : List V) :
    getFullyQualifiedNameRaw program (fuel + 1) scope (chain (Root.identifier x).node steps) fqn
        visitedVars =
      resolveIdentifier program (getFullyQualifiedNameRaw program fuel) scope x
        (members steps ++ fqn) visitedVars := by
  rw [getFullyQualifiedNameRaw, reduceTo_identifier_chain noRequire]
  rfl

theorem fromRequireChain_chain (moduleName : String) (steps : List Step) (arguments : List Node) :
    fromRequireChain (chain (Root.require moduleName).node (steps ++ [.call arguments])) =
      if ∀ step ∈ steps, step.isCall = false then some (join (moduleName :: members steps))
      else none := by
  have noRequire : ¬ CallsRequire (.require moduleName) (upToCall steps) :=
    fun calls => nomatch calls.1
  rw [chain_concat]
  show fromRequireChain (.callExpression (chain (Root.require moduleName).node steps) arguments) = _
  rw [fromRequireChain, reduceTo_call_chain, List.append_nil]
  dsimp only
  by_cases plain : upToCall steps = []
  case pos =>
    have whole := upToCall_append_afterCalls steps
    rw [plain, List.nil_append] at whole
    rw [if_pos (upToCall_eq_nil_iff.1 plain), plain, whole]
    rfl
  case neg =>
    rw [if_neg (upToCall_eq_nil_iff.not.mp plain),
      getModuleNameFromRequire_chain noRequire fun _ _ => plain]

omit [Fintype V] in
/-- A chain with a call of `require` at its root has a name if no other call is in the way. -/
theorem getFullyQualifiedNameRaw_require (moduleName : String) (steps : List Step)
    (arguments : List Node) (fuel : ℕ) (visitedVars : List V) :
    getFullyQualifiedNameRaw program (fuel + 1) scope
        (chain (Root.require moduleName).node (steps ++ [.call arguments])) [] visitedVars =
      some (if ∀ step ∈ steps, step.isCall = false then some (join (moduleName :: members steps))
        else none) := by
  have noRequire : ¬ CallsRequire (.require moduleName) (steps ++ [.call arguments]) :=
    fun calls => nomatch calls.1
  rw [getFullyQualifiedNameRaw, reduceTo_identifier_chain noRequire, ← fromRequireChain_chain]
  rfl

omit [Fintype V] in
/-- A chain that starts from the variable goes on with the definition. -/
theorem getFullyQualifiedNameRaw_const {name : String} {declared : V} {root : Root}
    {steps access : List Step} (const : IsConst program scope name declared root steps)
    (noRequire : ¬ CallsRequire (.identifier name) access) (fuel : ℕ) :
    getFullyQualifiedNameRaw program (fuel + 1) scope (chain (.identifier name) access) [] [] =
      checkFqnFromRequire program (getFullyQualifiedNameRaw program fuel) declared
        (.declarator .other) (members access) [] := by
  have one : ¬ 1 < (program declared).defs.length := by
    rw [const.defs]
    exact lt_irrefl 1
  have goesOn : ¬ ((program declared).writeable = false ∨ declared ∈ ([] : List V)) := by
    simp [const.writeable]
  apply (getFullyQualifiedNameRaw_chain noRequire fuel [] []).trans
  rw [resolveIdentifier, const.found, List.append_nil]
  dsimp only
  rw [if_neg one, if_neg goesOn, const.defs]
  rfl

omit [Fintype V] in
theorem resolveIdentifier_scope {resolve : Resolve V} {scope scope' : Scope V} {x : String}
    (same : getVariableFromScope scope x = getVariableFromScope scope' x) (fqn : List String)
    (visitedVars : List V) :
    resolveIdentifier program resolve scope x fqn visitedVars =
      resolveIdentifier program resolve scope' x fqn visitedVars := by
  rw [resolveIdentifier, same, resolveIdentifier]

theorem CallsRequire.append {root : Root} {steps : List Step} (h : CallsRequire root steps)
    (more : List Step) : CallsRequire root (steps ++ more) := by
  obtain ⟨isRequire, value, rest, rfl⟩ := h
  exact ⟨isRequire, value, rest ++ more, rfl⟩

/-- The enough fuel of `getFullyQualifiedName`. -/
theorem getFullyQualifiedName_eq {node : Node} {name : Option String}
    (h : getFullyQualifiedNameRaw program (Fintype.card V + 1) scope node [] [] = some name) :
    getFullyQualifiedName program scope node = name.map removeNodePrefixIfExists := by
  rw [getFullyQualifiedName, h]
  rfl

variable {name : String} {declared : V} {steps access : List Step} {arguments : List Node}

omit [Fintype V] [DecidableEq V] in
/-- From the variable, the definition is resolved from its last call on. -/
theorem checkFqnFromRequire_const {resolve : Resolve V} {root : Root}
    (const : IsConst program scope name declared root steps)
    (noRequire : ¬ CallsRequire root (upToCall steps))
    (notRoot : ∀ moduleName, root = .require moduleName → upToCall steps ≠ [])
    (fqn : List String) :
    checkFqnFromRequire program resolve declared (.declarator .other) fqn [] =
      resolve (program declared).scope (chain root.node (upToCall steps))
        (members (afterCalls steps) ++ fqn) [declared] := by
  unfold checkFqnFromRequire
  rw [const.written]
  dsimp only
  rw [reduceTo_call_chain]
  dsimp only
  rw [getModuleNameFromRequire_chain noRequire notRoot]
  rfl

omit [Fintype V] [DecidableEq V] in
/-- What is left of the definition does not lead back to the variable. -/
theorem avoids_const (acyclic : Acyclic program) {root : Root}
    (const : IsConst program scope name declared root steps)
    (noRequire : ¬ CallsRequire (.identifier name) access) :
    Avoids program (program declared).scope (chain root.node (upToCall steps)) [declared] := by
  have start : startOf scope (chain (.identifier name) access) = some declared := by
    have reduced := reduceTo_identifier_chain noRequire []
    exact (startOf_eq reduced).trans const.found
  have member : chain root.node steps ∈ definingNodes (program declared) := by
    apply List.mem_append_right _
    rw [const.written]
    exact List.mem_singleton_self _
  have nothing : Avoids program scope (chain (.identifier name) access) [] :=
    fun _ _ _ _ => List.not_mem_nil
  apply nothing.jump acyclic start member
  have same := startOf_reduceTo (program declared).scope (chain root.node steps) []
  rwa [reduceTo_call_chain] at same

/-- Through an identifier, the way over the variable ends where the direct one does. -/
theorem names_eq_of_identifier (acyclic : Acyclic program) {x : String}
    (const : IsConst program scope name declared (.identifier x) steps)
    (noRequire : ¬ CallsRequire (.identifier name) access)
    (noRequire' : ¬ CallsRequire (.identifier x) (steps ++ access)) :
    getFullyQualifiedName program scope (chain (.identifier name) access) =
      getFullyQualifiedName program scope (chain (Root.identifier x).node (steps ++ access)) := by
  have whole := upToCall_append_afterCalls steps
  have noRequireInside : ¬ CallsRequire (.identifier x) (upToCall steps) := by
    intro calls
    rw [← whole, List.append_assoc] at noRequire'
    exact noRequire' (calls.append _)
  obtain ⟨fuel, count⟩ := Nat.exists_eq_add_one.mpr (Fintype.card_pos_iff.mpr ⟨declared⟩)
  have returns : (getFullyQualifiedNameRaw program (Fintype.card V + 1) scope
      (chain (.identifier name) access) [] []).isSome :=
    isSome_getFullyQualifiedNameRaw _ _ _ _ _ (Nat.lt_succ_iff.mpr (Finset.card_le_univ _))
  obtain ⟨result, through⟩ := Option.isSome_iff_exists.mp returns
  refine (getFullyQualifiedName_eq through).trans (getFullyQualifiedName_eq ?_).symm
  -- the way over the variable, without the variable and with the fuel of its jump
  rw [getFullyQualifiedNameRaw_const const noRequire,
    checkFqnFromRequire_const const noRequireInside fun _ => nofun] at through
  have direct := getFullyQualifiedNameRaw_congr acyclic (Nat.le_succ _)
    (avoids_const acyclic const noRequire) (fun _ _ _ _ => List.not_mem_nil) through
  rw [count, getFullyQualifiedNameRaw_chain noRequireInside,
    resolveIdentifier_scope (const.sameScope x rfl)] at direct
  have all : members (steps ++ access) =
      members (upToCall steps) ++ (members (afterCalls steps) ++ members access) := by
    rw [← List.append_assoc, ← members_append, whole, members_append]
  rw [count, getFullyQualifiedNameRaw_chain noRequire', ← direct, List.append_nil, all]

/-- Through a call of `require`, the way over the variable takes the parts of the module
name and all members, as long as the definition has no other call. -/
theorem name_of_require {moduleName : String}
    (const : IsConst program scope name declared (.require moduleName) steps)
    (noRequire : ¬ CallsRequire (.identifier name) access)
    (plain : ∀ step ∈ steps, step.isCall = false) :
    getFullyQualifiedName program scope (chain (.identifier name) access) =
      some (removeNodePrefixIfExists
        (join (splitPath moduleName ++ (members steps ++ members access)))) := by
  have noCall := upToCall_eq_nil_iff.2 plain
  have whole := upToCall_append_afterCalls steps
  rw [noCall, List.nil_append] at whole
  have through : getFullyQualifiedNameRaw program (Fintype.card V + 1) scope
      (chain (.identifier name) access) [] [] =
        some (some (join (splitPath moduleName ++ (members steps ++ members access)))) := by
    rw [getFullyQualifiedNameRaw_const const noRequire]
    unfold checkFqnFromRequire
    rw [const.written]
    dsimp only
    rw [reduceTo_call_chain, noCall, whole]
    rfl
  exact getFullyQualifiedName_eq through

/-- Through a call of `require`, the direct way takes the name of the module as it is, and
there must not be another call before the last. -/
theorem name_of_require_chain (moduleName : String) (steps : List Step) (arguments : List Node) :
    getFullyQualifiedName program scope
        (chain (Root.require moduleName).node (steps ++ [.call arguments])) =
      if ∀ step ∈ steps, step.isCall = false then
        some (removeNodePrefixIfExists (join (moduleName :: members steps)))
      else none := by
  rw [getFullyQualifiedName_eq (getFullyQualifiedNameRaw_require moduleName steps arguments _ [])]
  split
  · rfl
  · rfl

theorem removed_join_eq_iff {moduleName : String} {fqn : List String} :
    removeNodePrefixIfExists (join (splitPath moduleName ++ fqn)) =
        removeNodePrefixIfExists (join (moduleName :: fqn)) ↔ '/' ∉ moduleName.toList := by
  constructor
  · intro same
    have count := congrArg slashes same
    rw [slashes_removeNodePrefixIfExists, slashes_removeNodePrefixIfExists, slashes_join,
      slashes_join, List.flatMap_append, List.count_append, slashes_splitPath, List.flatMap_cons,
      List.count_append, Nat.zero_add] at count
    exact List.count_eq_zero.mp (Nat.right_eq_add.mp count)
  · intro noSlash
    rw [splitPath_eq_singleton noSlash, List.singleton_append]

/-- The names agree if and only if the definition does not start from a call of `require`, or
the name of the module has one part and the only call of the whole chain is the last one.
Neither the variable nor the definition is a `require` that is called with a literal. -/
theorem namesAgree_iff (acyclic : Acyclic program) {root : Root}
    (const : IsConst program scope name declared root steps)
    (noRequire : ¬ CallsRequire (.identifier name) (access ++ [.call arguments]))
    (noRequire' : ¬ CallsRequire root (steps ++ (access ++ [.call arguments]))) :
    NamesAgree program scope name root steps access arguments ↔
      ∀ moduleName, root = .require moduleName →
        '/' ∉ moduleName.toList ∧ ∀ step ∈ steps ++ access, step.isCall = false := by
  have memberless : members (access ++ [.call arguments]) = members access := by
    rw [members_append]
    exact List.append_nil _
  cases root with
  | identifier x =>
      constructor
      · intro _ moduleName isRequire
        cases isRequire
      · intro _
        refine ⟨names_eq_of_identifier acyclic const noRequire noRequire', ?_⟩
        intro moduleName isRequire
        cases isRequire
  | require moduleName =>
      have direct : getFullyQualifiedName program scope
          (chain (Root.require moduleName).node (steps ++ access ++ [.call arguments])) = _ :=
        name_of_require_chain moduleName (steps ++ access) arguments
      rw [List.append_assoc, members_append] at direct
      constructor
      · intro agree other isRequire
        cases isRequire
        obtain ⟨parts, _, named⟩ := agree.2 moduleName rfl
        have plain : ∀ step ∈ steps ++ access, step.isCall = false := by
          by_contra call
          rw [direct, if_neg call] at named
          cases named
        have through := name_of_require const noRequire fun step member =>
          plain step (List.mem_append_left access member)
        rw [memberless] at through
        rw [if_pos plain] at direct
        exact ⟨removed_join_eq_iff.1 (Option.some.inj (through.symm.trans (agree.1.trans direct))),
          plain⟩
      · intro condition
        obtain ⟨noSlash, plain⟩ := condition moduleName rfl
        have through := name_of_require const noRequire fun step member =>
          plain step (List.mem_append_left access member)
        rw [memberless] at through
        rw [if_pos plain] at direct
        refine ⟨through.trans (Eq.trans ?_ direct.symm), ?_⟩
        · rw [removed_join_eq_iff.2 noSlash]
        · intro other isRequire
          cases isRequire
          exact ⟨[moduleName], .inl rfl, direct⟩

/-- `const v = require(m)`, as the only definition of the program. -/
def requireProgram (moduleName : String) : Program Unit := fun _ =>
  { defs := [.declarator .other], writeable := true
    references := [{ isWrite := true, writeExpr := some (Root.require moduleName).node }]
    scope := [[("v", ())]] }

theorem acyclic_requireProgram (moduleName : String) : Acyclic (requireProgram moduleName) := by
  intro declared path
  obtain ⟨target, leads, _⟩ := TransGen.head'_iff.mp path
  obtain ⟨node, member, start⟩ := leads
  obtain rfl : node = (Root.require moduleName).node := List.mem_singleton.mp member
  cases start

theorem isConst_requireProgram (moduleName : String) :
    IsConst (requireProgram moduleName) [[("v", ())]] "v" () (.require moduleName) [] where
  found := by decide
  defs := rfl
  writeable := rfl
  written := rfl
  sameScope := nofun

/-- `v.readFile()` after `const v = require('fs')`. -/
theorem namesAgree_fs :
    NamesAgree (requireProgram "fs") [[("v", ())]] "v" (.require "fs") []
      [.member (.identifier "readFile")] [] := by
  apply (namesAgree_iff (acyclic_requireProgram "fs") (isConst_requireProgram "fs")
    (not_callsRequire_of_ne (by decide)) fun calls => nomatch calls.1).mpr
  intro moduleName isRequire
  cases isRequire
  refine ⟨by decide, ?_⟩
  intro step member
  obtain rfl := List.mem_singleton.mp member
  rfl

/-- `v.Bucket()` after `const v = require('aws-cdk-lib/aws-s3')`, a program without cycles, has
another name than `require('aws-cdk-lib/aws-s3').Bucket()`. -/
theorem not_namesAgree_cdk :
    Acyclic (requireProgram "aws-cdk-lib/aws-s3") ∧
      IsConst (requireProgram "aws-cdk-lib/aws-s3") [[("v", ())]] "v" ()
        (.require "aws-cdk-lib/aws-s3") [] ∧
      ¬ NamesAgree (requireProgram "aws-cdk-lib/aws-s3") [[("v", ())]] "v"
        (.require "aws-cdk-lib/aws-s3") [] [.member (.identifier "Bucket")] [] := by
  refine ⟨acyclic_requireProgram _, isConst_requireProgram _, ?_⟩
  intro agree
  have noRequire : ¬ CallsRequire (.identifier "v")
      ([.member (.identifier "Bucket")] ++ [.call []]) := not_callsRequire_of_ne (by decide)
  have through := name_of_require (isConst_requireProgram "aws-cdk-lib/aws-s3") noRequire nofun
  have direct := agree.1.symm.trans through
  have same := (name_of_require_chain _ [.member (.identifier "Bucket")] []).symm.trans direct
  exact removed_join_eq_iff.1 (Option.some.inj same).symm (by decide)

end Inlining

end FullyQualifiedNames

end SonarJS
