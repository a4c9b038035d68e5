import Mathlib.Computability.Language
import SonarJS.Regex.Syntax

/-!
# Parts of regular expressions that match the empty string

`matchEmptyString` says whether a node matches the empty string. A quantifier does by its
lower bound alone: that its element may match the empty string as often as needed is not
looked at. The answer is wrong where a quantifier of this kind decides.
-/

namespace SonarJS.Regex.EmptyMatches

mutual

def matchEmptyString : Node → Bool
  | .alternative _ elements => everyMatches elements
  | .lookaround _ _ _ | .assertion _ => true
  | .capturingGroup _ alternatives | .group _ alternatives | .pattern _ alternatives =>
    someMatches alternatives
  | .quantifier _ min _ _ => min == 0
  | .regExpLiteral _ _ _ | .flags _ | .characterClass _ _ | .characterClassRange _ _ _
  | .characterSet _ | .character _ _ | .backreference _ => false

def everyMatches : List Node → Bool
  | [] => true
  | node :: nodes => matchEmptyString node && everyMatches nodes

def someMatches : List Node → Bool
  | [] => false
  | node :: nodes => matchEmptyString node || someMatches nodes

end

theorem everyMatches_iff {nodes : List Node} :
    everyMatches nodes = true ↔ ∀ node ∈ nodes, matchEmptyString node = true := by
  induction nodes with
  | nil => simp [everyMatches]
  | cons node nodes ih => simp [everyMatches, ih]

theorem someMatches_iff {nodes : List Node} :
    someMatches nodes = true ↔ ∃ node ∈ nodes, matchEmptyString node = true := by
  induction nodes with
  | nil => simp [someMatches]
  | cons node nodes ih => simp [someMatches, ih]

/-! ## The language of a node -/

def isPlain : Node → Bool
  | .lookaround _ _ _ | .assertion _ | .backreference _ | .regExpLiteral _ _ _ | .flags _ => false
  | _ => true

/-- A node without assertions, back references and anything that is not part of a pattern. -/
def Plain (node : Node) : Prop := ∀ part, node.Within part → isPlain part = true

theorem Plain.of_children {node : Node} (plain : isPlain node = true)
    (below : ∀ child ∈ node.children, Plain child) : Plain node := by
  intro part within
  obtain rfl | ⟨child, member, within⟩ := within.cases_head
  · exact plain
  · exact below child member part within

theorem Plain.child {node child : Node} (plain : Plain node) (member : child ∈ node.children) :
    Plain child :=
  fun part within => plain part (.head member within)

variable {α : Type} (characters : Node → Set α)

/-- The words of one character. -/
def letters (allowed : Set α) : Language α := { word | ∃ c ∈ allowed, word = [c] }

mutual

/-- The words of a node, by what a character, a character set or a character class matches.
Nodes that are not plain have no words. -/
def language : Node → Language α
  | .alternative _ elements => concatenation elements
  | .capturingGroup _ alternatives | .group _ alternatives | .pattern _ alternatives =>
    union alternatives
  | .quantifier _ min max element =>
    { word | ∃ n, min ≤ n ∧ (∀ m ∈ max, n ≤ m) ∧ word ∈ language element ^ n }
  | .characterClass span elements => letters (characters (.characterClass span elements))
  | .characterClassRange span min max => letters (characters (.characterClassRange span min max))
  | .characterSet span => letters (characters (.characterSet span))
  | .character span value => letters (characters (.character span value))
  | .regExpLiteral _ _ _ | .flags _ | .lookaround _ _ _ | .assertion _ | .backreference _ => 0

def concatenation : List Node → Language α
  | [] => 1
  | node :: nodes => language node * concatenation nodes

def union : List Node → Language α
  | [] => 0
  | node :: nodes => language node + union nodes

end

/-- The node matches the empty string. -/
def Nullable (node : Node) : Prop := [] ∈ language characters node

def isDisjunction : Node → Bool
  | .capturingGroup _ _ | .group _ _ | .pattern _ _ => true
  | _ => false

/-- Whether the node matches the empty string is decided by a quantifier that has to be
repeated and whose element matches it. -/
inductive Hinges : Node → Prop
  | quantifier {span : Span} {min : ℕ} {max : Option ℕ} {element : Node} (repeats : 0 < min)
      (nullable : Nullable characters (.quantifier span min max element)) :
      Hinges (.quantifier span min max element)
  | alternative {span : Span} {elements : List Node} {element : Node}
      (nullable : ∀ element ∈ elements, Nullable characters element)
      (member : element ∈ elements) (hinges : Hinges element) :
      Hinges (.alternative span elements)
  | group {node alternative : Node} (isDisjunction : isDisjunction node = true)
      (member : alternative ∈ node.children) (nullable : Nullable characters alternative)
      (hinge : ∀ alternative ∈ node.children, Nullable characters alternative →
        Hinges alternative) : Hinges node

section Language

variable {characters} {span : Span}

theorem nil_mem_mul {l l' : Language α} : [] ∈ l * l' ↔ [] ∈ l ∧ [] ∈ l' := by
  constructor
  · rintro ⟨w, left, w', right, empty⟩
    obtain ⟨rfl, rfl⟩ := List.append_eq_nil_iff.mp empty
    exact ⟨left, right⟩
  · rintro ⟨left, right⟩
    exact ⟨[], left, [], right, rfl⟩

theorem nil_mem_concatenation {nodes : List Node} :
    [] ∈ concatenation characters nodes ↔ ∀ node ∈ nodes, Nullable characters node := by
  induction nodes with
  | nil => simp [concatenation]
  | cons node nodes ih =>
      rw [concatenation, nil_mem_mul, ih, List.forall_mem_cons]
      exact Iff.rfl

theorem nil_mem_union {nodes : List Node} :
    [] ∈ union characters nodes ↔ ∃ node ∈ nodes, Nullable characters node := by
  induction nodes with
  | nil => simp [union]
  | cons node nodes ih =>
      rw [union, Language.mem_add, ih, List.exists_mem_cons_iff]
      exact Iff.rfl

theorem nil_notMem_letters (allowed : Set α) : [] ∉ letters allowed := by
  rintro ⟨c, -, same⟩
  cases same

theorem nil_mem_pow {l : Language α} (n : ℕ) : [] ∈ l ^ n ↔ n = 0 ∨ [] ∈ l := by
  induction n with
  | zero => simp
  | succ n ih =>
      rw [pow_succ, nil_mem_mul, ih]
      tauto

theorem nullable_of_isDisjunction {node : Node} (h : isDisjunction node = true) :
    Nullable characters node ↔ ∃ alternative ∈ node.children, Nullable characters alternative := by
  cases node with
  | pattern | group | capturingGroup => exact nil_mem_union
  | _ => cases h

theorem nullable_quantifier {min : ℕ} {max : Option ℕ} {element : Node} :
    Nullable characters (.quantifier span min max element) ↔
      min = 0 ∨ (∀ m ∈ max, min ≤ m) ∧ Nullable characters element := by
  constructor
  · rintro ⟨n, atLeast, atMost, member⟩
    obtain rfl | nullable := (nil_mem_pow n).mp member
    · exact .inl (Nat.le_zero.mp atLeast)
    · exact .inr ⟨fun m isMax => atLeast.trans (atMost m isMax), nullable⟩
  · rintro (rfl | ⟨atMost, nullable⟩)
    · exact ⟨0, le_rfl, fun m _ => Nat.zero_le m, (nil_mem_pow 0).mpr (.inl rfl)⟩
    · exact ⟨min, le_rfl, atMost, (nil_mem_pow min).mpr (.inr nullable)⟩

end Language

/-! ## When the answer is right -/

section Answer

variable {characters}

theorem matches_of_isDisjunction {node : Node} (h : isDisjunction node = true) :
    matchEmptyString node = true ↔ ∃ alternative ∈ node.children,
      matchEmptyString alternative = true := by
  cases node with
  | pattern | group | capturingGroup => exact someMatches_iff
  | _ => cases h

/-- The answer yes is right. -/
theorem nullable_of_matches {node : Node} (plain : Plain node)
    (h : matchEmptyString node = true) : Nullable characters node := by
  induction node using Node.induction with
  | step node ih =>
      by_cases group : isDisjunction node = true
      · obtain ⟨alternative, member, found⟩ := (matches_of_isDisjunction group).mp h
        refine (nullable_of_isDisjunction group).mpr ⟨alternative, member, ?_⟩
        exact ih alternative member (plain.child member) found
      · cases node with
        | alternative span elements =>
            refine nil_mem_concatenation.2 fun element member => ?_
            exact ih element member (plain.child member) (everyMatches_iff.1 h element member)
        | quantifier span min max element =>
            exact nullable_quantifier.2 (.inl (beq_iff_eq.mp h))
        | pattern | group | capturingGroup => exact absurd rfl group
        | lookaround | assertion => cases plain _ .refl
        | regExpLiteral | flags | characterClass | characterClassRange | characterSet | character
        | backreference => cases h

theorem hinges_of_isDisjunction {node : Node} (h : isDisjunction node = true) :
    Hinges characters node ↔ (∃ alternative ∈ node.children, Nullable characters alternative) ∧
      ∀ alternative ∈ node.children, Nullable characters alternative →
        Hinges characters alternative := by
  constructor
  · intro hinges
    cases hinges with
    | group _ member nullable hinge => exact ⟨⟨_, member, nullable⟩, hinge⟩
    | quantifier | alternative => cases h
  · rintro ⟨⟨alternative, member, nullable⟩, hinge⟩
    exact .group h member nullable hinge

theorem hinges_alternative {span : Span} {elements : List Node} :
    Hinges characters (.alternative span elements) ↔
      (∀ element ∈ elements, Nullable characters element) ∧
        ∃ element ∈ elements, Hinges characters element := by
  constructor
  · intro hinges
    cases hinges with
    | alternative nullable member hinges => exact ⟨nullable, _, member, hinges⟩
    | group isGroup => cases isGroup
  · rintro ⟨nullable, element, member, hinges⟩
    exact .alternative nullable member hinges

theorem hinges_quantifier {span : Span} {min : ℕ} {max : Option ℕ} {element : Node} :
    Hinges characters (.quantifier span min max element) ↔
      0 < min ∧ Nullable characters (.quantifier span min max element) := by
  constructor
  · intro hinges
    cases hinges with
    | quantifier repeats nullable => exact ⟨repeats, nullable⟩
    | group isGroup => cases isGroup
  · rintro ⟨repeats, nullable⟩
    exact .quantifier repeats nullable

/-- The answer no is wrong if it hinges on a quantifier. -/
theorem hinges_iff {node : Node} (plain : Plain node) :
    Hinges characters node ↔ Nullable characters node ∧ ¬ matchEmptyString node = true := by
  induction node using Node.induction with
  | step node ih =>
      by_cases group : isDisjunction node = true
      · rw [hinges_of_isDisjunction group, nullable_of_isDisjunction group,
          matches_of_isDisjunction group]
        refine and_congr_right fun _ => ⟨?_, ?_⟩
        · rintro hinge ⟨alternative, member, found⟩
          have plain := plain.child member
          have hinges := hinge alternative member (nullable_of_matches plain found)
          exact ((ih alternative member plain).mp hinges).2 found
        · intro noMatch alternative member nullable
          refine (ih alternative member (plain.child member)).mpr ⟨nullable, fun found => ?_⟩
          exact noMatch ⟨alternative, member, found⟩
      · cases node with
        | alternative span elements =>
            rw [hinges_alternative, Nullable, language, nil_mem_concatenation, matchEmptyString,
              everyMatches_iff]
            refine and_congr_right fun nullable => ?_
            push Not
            refine exists_congr fun element => and_congr_right fun member => ?_
            rw [ih element member (plain.child member), and_iff_right (nullable element member)]
        | quantifier span min max element =>
            rw [hinges_quantifier, matchEmptyString, beq_iff_eq, Nat.pos_iff_ne_zero, and_comm]
        | pattern | group | capturingGroup => exact absurd rfl group
        | lookaround | assertion | backreference | regExpLiteral | flags =>
            cases plain _ .refl
        | characterClass | characterClassRange | characterSet | character =>
            refine iff_of_false (fun hinges => ?_) fun wrong => nil_notMem_letters _ wrong.1
            cases hinges with
            | group isGroup => cases isGroup

/-- The answer is right for a node exactly if it does not hinge on a quantifier. -/
theorem matchEmptyString_exact_iff {node : Node} (plain : Plain node) :
    (matchEmptyString node = true ↔ [] ∈ language characters node) ↔ ¬ Hinges characters node := by
  rw [hinges_iff plain, not_and_not_right]
  exact ⟨fun exact nullable => exact.mpr nullable,
    fun complete => ⟨nullable_of_matches plain, complete⟩⟩

end Answer

/-! ## An element that is repeated -/

/-- A node with a lower bound around an `a` that can be left out: `(?:a*)+`, or `(?:a*)*`
for the bound 0. -/
def repeated (min : ℕ) : Node :=
  .quantifier ⟨1, 8⟩ min none (.group ⟨1, 7⟩ [.alternative ⟨4, 6⟩
    [.quantifier ⟨4, 6⟩ 0 none (.character ⟨4, 5⟩ 0x61)]])

theorem plain_repeated (min : ℕ) : Plain (repeated min) := by
  refine .of_children rfl (List.forall_mem_singleton.mpr ?_)
  refine .of_children rfl (List.forall_mem_singleton.mpr ?_)
  refine .of_children rfl (List.forall_mem_singleton.mpr ?_)
  refine .of_children rfl (List.forall_mem_singleton.mpr ?_)
  exact .of_children rfl (List.forall_mem_nil _)

/-- A character matches itself. -/
def itself : Node → Set ℕ
  | .character _ value => {value}
  | _ => ∅

theorem matchEmptyString_star :
    matchEmptyString (repeated 0) = true ↔ [] ∈ language itself (repeated 0) := by
  refine (matchEmptyString_exact_iff (plain_repeated 0)).mpr fun hinges => ?_
  exact absurd (hinges_quantifier.1 hinges).1 (Nat.lt_irrefl 0)

theorem not_matchEmptyString_plus :
    Plain (repeated 1) ∧
      ¬ (matchEmptyString (repeated 1) = true ↔ [] ∈ language itself (repeated 1)) := by
  refine ⟨plain_repeated 1, fun exact => ?_⟩
  have star : Nullable itself (.quantifier ⟨4, 6⟩ 0 none (.character ⟨4, 5⟩ 0x61)) :=
    nullable_quantifier.2 (.inl rfl)
  have group : Nullable itself (.group ⟨1, 7⟩ [.alternative ⟨4, 6⟩
      [.quantifier ⟨4, 6⟩ 0 none (.character ⟨4, 5⟩ 0x61)]]) := by
    refine (nullable_of_isDisjunction rfl).mpr ⟨_, List.mem_singleton_self _, ?_⟩
    exact nil_mem_concatenation.2 (List.forall_mem_singleton.mpr star)
  have nullable : Nullable itself (repeated 1) := by
    refine nullable_quantifier.2 (.inr ⟨?_, group⟩)
    intro m isMax
    cases isMax
  exact absurd (exact.mpr nullable) (by decide)

end SonarJS.Regex.EmptyMatches
