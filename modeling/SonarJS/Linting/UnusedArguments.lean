import SonarJS.Foundation.Edits
import SonarJS.Foundation.Separated

/-!
# Removing an unused parameter

The suggestion looks for parentheses and commas around the parameter in the tokens of the
whole file. Positions are those between tokens: each end of a removed range is the start or
the end of a token, and borders on a parenthesis or a comma, so that no two tokens become one.
-/

namespace SonarJS.UnusedArguments

open Edits

/-- A token by its value. -/
abbrev Token := List Char

def openingParen : Token := ['(']

def closingParen : Token := [')']

def comma : Token := [',']

/-! ## Files -/

/-- A parameter. The range of its node leaves its decorators out. -/
structure Parameter where
  decorators : List Token
  node : List Token
  first : ∀ token, decorators.head? = some token → token = ['@']
  last : decorators.getLast? ≠ some openingParen

/-- The parameters of a function: one without parentheses, or a list. -/
inductive Parameters
  | bare (param : Token)
  | listed (params : List Parameter) (trailingComma : Bool)

/-- A function with what comes before its parameters and behind them. -/
structure File where
  before : List Token
  parameters : Parameters
  behind : List Token

namespace Parameter

def tokens (param : Parameter) : List Token := param.decorators ++ param.node

/-- Parameters that others come behind. -/
def leading (params : List Parameter) : List Token := Separated.leading comma (params.map tokens)

/-- Parameters that come behind others. -/
def following (params : List Parameter) : List Token :=
  Separated.following comma (params.map tokens)

/-- The parameters with commas between them. -/
def join (params : List Parameter) : List Token := Separated.join comma (params.map tokens)

/-- The ranges of the nodes of parameters from a position on. -/
def ranges : ℕ → List Parameter → List (ℕ × ℕ)
  | _, [] => []
  | position, param :: params =>
    let start := position + param.decorators.length
    (start, start + param.node.length) :: ranges (start + param.node.length + 1) params

end Parameter

namespace File

def tokens (file : File) : List Token :=
  match file.parameters with
  | .bare param => file.before ++ [param] ++ file.behind
  | .listed params trailingComma =>
    file.before ++ openingParen :: Parameter.join params ++
      (if trailingComma then [comma] else []) ++ closingParen :: file.behind

/-- `func.params`, as ranges. -/
def params (file : File) : List (ℕ × ℕ) :=
  match file.parameters with
  | .bare _ => [(file.before.length, file.before.length + 1)]
  | .listed params _ => Parameter.ranges (file.before.length + 1) params

end File

/-! ## The suggestion -/

section Suggestion

variable (tokens : List Token) (param : ℕ × ℕ)

/-- The parenthesis right before the parameter, if it is one. -/
def openingBefore (position : ℕ) : Option ℕ :=
  (indexBefore (fun _ => true) tokens position).filter fun i => tokens[i]? = some openingParen

/-- The branch for a single parameter, which throws if no closing parenthesis comes after. -/
def replaceSingle : Option (List Token) :=
  match openingBefore tokens param.1 with
  | some start =>
    (indexAfter (· = closingParen) tokens param.2).map fun last =>
      replaceRange (start, last + 1) [openingParen, closingParen] tokens
  | none => some (replaceRange param [openingParen, closingParen] tokens)

/-- The branch for the last of several parameters. -/
def removeLast : Option (List Token) :=
  (indexBefore (· = comma) tokens param.1).map fun commaBefore =>
    match indexAfter (· = comma) tokens param.2 with
    | some commaAfter => removeRange (commaBefore + 1, commaAfter + 1) tokens
    | none => removeRange (commaBefore, param.2) tokens

/-- The tokens after the fix. There are none if it throws. -/
def getParameterRemovalSuggestion (params : List (ℕ × ℕ)) (paramIndex : ℕ) :
    Option (List Token) :=
  params[paramIndex]?.bind fun param =>
    if params.length = 1 then replaceSingle tokens param
    else if params.length - 1 = paramIndex then removeLast tokens param
    else params[paramIndex + 1]?.map fun next => removeRange (param.1, next.1) tokens

end Suggestion

/-! ## What it is for -/

/-- The function without a parameter. A trailing comma goes with the only parameter. -/
def Parameters.without (paramIndex : ℕ) : Parameters → Parameters
  | bare _ => listed [] false
  | listed params trailingComma =>
    listed (params.eraseIdx paramIndex) (trailingComma && params.length ≠ 1)

def File.without (file : File) (paramIndex : ℕ) : File :=
  { file with parameters := file.parameters.without paramIndex }

/-- The delimiters that the suggestion finds are those of the parameter: a parameter without
parentheses has none before it, a single one has no decorators, one with others behind it has
the decorators of the next. The last one has no comma in its decorators and a comma behind it,
or there are no commas in the rest of the file. -/
def Removable (file : File) (paramIndex : ℕ) : Prop :=
  match file.parameters with
  | .bare _ => file.before.getLast? ≠ some openingParen
  | .listed params trailingComma =>
    ∀ param, params[paramIndex]? = some param →
      if params.length = 1 then param.decorators = []
      else if params.length - 1 = paramIndex then
        comma ∉ param.decorators ∧ (trailingComma ∨ comma ∉ file.behind)
      else ∀ next, params[paramIndex + 1]? = some next → param.decorators = next.decorators

/-! ## Lists of parameters -/

section Lists

open Parameter

variable {params before behind : List Parameter} {param : Parameter} {position : ℕ}

theorem leading_eq_join (several : params ≠ []) : leading params = join params ++ [comma] :=
  Separated.leading_eq_join (by simpa using several)

theorem join_append_cons :
    join (before ++ param :: behind) = leading before ++ param.tokens ++ following behind := by
  rw [join, List.map_append, List.map_cons, Separated.join_append_cons, leading, following]

theorem length_ranges : (ranges position params).length = params.length := by
  induction params generalizing position with
  | nil => rfl
  | cons param params ih => rw [ranges, List.length_cons, ih, List.length_cons]

/-- The range of a node begins behind its decorators. -/
theorem ranges_getElem? :
    (ranges position (before ++ param :: behind))[before.length]? =
      some (position + (leading before).length + param.decorators.length,
        position + (leading before).length + param.decorators.length + param.node.length) := by
  induction before generalizing position with
  | nil => rfl
  | cons first before ih =>
      rw [List.cons_append, ranges, List.length_cons, List.getElem?_cons_succ, ih]
      simp only [leading, tokens, List.map_cons, Separated.leading_cons, List.length_append,
        List.length_cons]
      grind

end Lists

theorem isOther {token : Token} {tokens : List Token} (others : token ∉ tokens) :
    ∀ other ∈ tokens, decide (other = token) = false := by
  intro other member
  rw [decide_eq_false_iff_not]
  rintro rfl
  exact others member

/-- The last of several. -/
theorem eq_append_cons_of_mem_right {token : Token} {tokens : List Token}
    (member : token ∈ tokens) :
    ∃ before behind, tokens = before ++ token :: behind ∧ token ∉ behind := by
  obtain ⟨behind, before, split, others⟩ :=
    List.eq_append_cons_of_mem (List.mem_reverse.mpr member)
  refine ⟨before.reverse, behind.reverse, ?_, by simpa using others⟩
  rw [← List.reverse_reverse tokens, split]
  simp

/-! ## A single parameter -/

section Single

variable {before node skipped behind : List Token}

theorem openingBefore_eq_none (last : before.getLast? ≠ some openingParen) :
    openingBefore (before ++ behind) before.length = none := by
  cases before using List.reverseRecOn with
  | nil => rfl
  | append_singleton before token =>
      have noParen : token ≠ openingParen := by
        intro same
        exact last (by rw [List.getLast?_concat, same])
      have found : indexBefore (fun _ => true) (before ++ token :: [] ++ behind)
          (before ++ [token]).length = some before.length :=
        indexBefore_append (by simp) rfl (by simp)
      rw [openingBefore, found]
      simp [noParen]

theorem openingBefore_append :
    openingBefore (before ++ openingParen :: behind) (before.length + 1) =
      some before.length := by
  have found : indexBefore (fun _ => true) (before ++ openingParen :: [] ++ behind)
      (before.length + 1) = some before.length := indexBefore_append (by simp) rfl rfl
  rw [List.append_assoc, List.cons_append, List.nil_append] at found
  rw [openingBefore, found]
  simp

/-- Without a parenthesis before it, the parameter is replaced. -/
theorem replaceSingle_of_last_ne (last : before.getLast? ≠ some openingParen) :
    replaceSingle (before ++ node ++ behind) (before.length, before.length + node.length) =
      some (before ++ [openingParen, closingParen] ++ behind) := by
  have noParen : openingBefore (before ++ node ++ behind) before.length = none := by
    rw [List.append_assoc]
    exact openingBefore_eq_none last
  rw [replaceSingle, noParen]
  exact congrArg some (replaceRange_append rfl rfl)

/-- With one before it, all from there to the next one behind it is replaced. -/
theorem replaceSingle_append (others : closingParen ∉ skipped) :
    replaceSingle (before ++ openingParen :: node ++ skipped ++ closingParen :: behind)
        (before.length + 1, before.length + 1 + node.length) =
      some (before ++ [openingParen, closingParen] ++ behind) := by
  have opening : openingBefore
      (before ++ openingParen :: node ++ skipped ++ closingParen :: behind)
      (before.length + 1) = some before.length := by
    simp only [List.append_assoc, List.cons_append]
    exact openingBefore_append
  have closing : indexAfter (· = closingParen)
      (before ++ openingParen :: node ++ skipped ++ closingParen :: behind)
      (before.length + 1 + node.length) =
        some (before.length + 1 + node.length + skipped.length) := by
    refine indexAfter_append ?_ ?_ (by simp)
    · simp only [List.length_append, List.length_cons]
      omega
    · exact isOther others
  have whole : before ++ openingParen :: node ++ skipped ++ closingParen :: behind =
      before ++ (openingParen :: node ++ skipped ++ [closingParen]) ++ behind := by simp
  simp only [replaceSingle, opening, closing, Option.map_some]
  rw [whole]
  refine congrArg some (replaceRange_append rfl ?_)
  simp only [List.length_append, List.length_cons, List.length_nil]
  omega

theorem replaceSingle_eq_none (others : closingParen ∉ behind) :
    replaceSingle (before ++ openingParen :: node ++ behind)
      (before.length + 1, before.length + 1 + node.length) = none := by
  have opening : openingBefore (before ++ openingParen :: node ++ behind)
      (before.length + 1) = some before.length := by
    simp only [List.append_assoc, List.cons_append]
    exact openingBefore_append
  have closing : indexAfter (· = closingParen) (before ++ openingParen :: node ++ behind)
      (before.length + 1 + node.length) = none := by
    refine indexAfter_eq_none ?_ (isOther others)
    simp only [List.length_append, List.length_cons]
    omega
  simp only [replaceSingle, opening, closing, Option.map_none]

end Single

/-! ## The last of several parameters -/

section Last

variable {before decorators node skipped behind : List Token}

theorem commaBefore_append (others : comma ∉ decorators) :
    indexBefore (· = comma) (before ++ comma :: decorators ++ behind)
      (before.length + 1 + decorators.length) = some before.length :=
  indexBefore_append (isOther others) (by simp) rfl

/-- With a comma behind it, all up to there is removed, and the comma before it stays. -/
theorem removeLast_append (noComma : comma ∉ decorators)
    (others : comma ∉ skipped) :
    removeLast (before ++ comma :: decorators ++ node ++ skipped ++ comma :: behind)
        (before.length + 1 + decorators.length,
          before.length + 1 + decorators.length + node.length) =
      some (before ++ comma :: behind) := by
  have found : indexBefore (· = comma)
      (before ++ comma :: decorators ++ node ++ skipped ++ comma :: behind)
      (before.length + 1 + decorators.length) = some before.length := by
    rw [List.append_assoc _ node, List.append_assoc]
    exact commaBefore_append noComma
  have after : indexAfter (· = comma)
      (before ++ comma :: decorators ++ node ++ skipped ++ comma :: behind)
      (before.length + 1 + decorators.length + node.length) =
        some (before.length + 1 + decorators.length + node.length + skipped.length) := by
    refine indexAfter_append ?_ (isOther others) (by simp)
    simp only [List.length_append, List.length_cons]
    omega
  have whole : before ++ comma :: decorators ++ node ++ skipped ++ comma :: behind =
      (before ++ [comma]) ++ (decorators ++ node ++ skipped ++ [comma]) ++ behind := by simp
  have kept : before ++ comma :: behind = (before ++ [comma]) ++ behind := by simp
  simp only [removeLast, found, after, Option.map_some]
  rw [whole, kept]
  refine congrArg some (removeRange_append (by simp) ?_)
  simp only [List.length_append, List.length_cons, List.length_nil]
  omega

/-- Without a comma behind it, the comma before it goes. -/
theorem removeLast_of_not_mem (noComma : comma ∉ decorators)
    (others : comma ∉ behind) :
    removeLast (before ++ comma :: decorators ++ node ++ behind)
        (before.length + 1 + decorators.length,
          before.length + 1 + decorators.length + node.length) =
      some (before ++ behind) := by
  have found : indexBefore (· = comma) (before ++ comma :: decorators ++ node ++ behind)
      (before.length + 1 + decorators.length) = some before.length := by
    rw [List.append_assoc _ node]
    exact commaBefore_append noComma
  have after : indexAfter (· = comma) (before ++ comma :: decorators ++ node ++ behind)
      (before.length + 1 + decorators.length + node.length) = none := by
    refine indexAfter_eq_none ?_ (isOther others)
    simp only [List.length_append, List.length_cons]
    omega
  have whole : before ++ comma :: decorators ++ node ++ behind =
      before ++ (comma :: decorators ++ node) ++ behind := by simp
  simp only [removeLast, found, after, Option.map_some]
  rw [whole]
  refine congrArg some (removeRange_append rfl ?_)
  simp only [List.length_append, List.length_cons]
  omega

end Last

/-! ## When the parameter is removed -/

section Removal

open Parameter

variable {before behind : List Token} {trailing : Bool}

theorem closingParen_ne_comma : closingParen ≠ comma := by decide

theorem closingParen_ne_openingParen : closingParen ≠ openingParen := by decide

/-- A parameter without parentheses. -/
theorem suggestion_bare_iff (param : Token) :
    replaceSingle (before ++ [param] ++ behind) (before.length, before.length + 1) =
        some (before ++ openingParen :: closingParen :: behind) ↔
      before.getLast? ≠ some openingParen := by
  by_cases last : before.getLast? = some openingParen
  · obtain ⟨before, rfl⟩ := List.getLast?_eq_some_iff.mp last
    refine ⟨fun same => ?_, absurd last⟩
    rw [List.length_append, List.length_singleton] at same
    by_cases closing : closingParen ∈ behind
    · -- the parenthesis before the parameter is not its own
      obtain ⟨skipped, rest, rfl, others⟩ := List.eq_append_cons_of_mem closing
      have whole : before ++ [openingParen] ++ [param] ++ (skipped ++ closingParen :: rest) =
          before ++ openingParen :: [param] ++ skipped ++ closingParen :: rest := by simp
      have replaced := @replaceSingle_append before [param] skipped rest others
      rw [List.length_singleton] at replaced
      rw [whole, replaced] at same
      simp [closingParen_ne_openingParen] at same
    · have whole : before ++ [openingParen] ++ [param] ++ behind =
          before ++ openingParen :: [param] ++ behind := by simp
      have thrown := @replaceSingle_eq_none before [param] behind closing
      rw [List.length_singleton] at thrown
      rw [whole, thrown] at same
      cases same
  · refine iff_of_true ?_ last
    have replaced := @replaceSingle_of_last_ne before [param] behind last
    rw [List.length_singleton] at replaced
    rw [replaced, List.append_assoc]
    rfl

/-- A single parameter in parentheses. -/
theorem suggestion_single_iff (param : Parameter) {trailing : List Token}
    (noParen : closingParen ∉ trailing) :
    replaceSingle
        (before ++ openingParen :: param.tokens ++ trailing ++ closingParen :: behind)
        (before.length + 1 + param.decorators.length,
          before.length + 1 + param.decorators.length + param.node.length) =
        some (before ++ openingParen :: closingParen :: behind) ↔
      param.decorators = [] := by
  cases decorators : param.decorators with
  | nil =>
      refine iff_of_true ?_ rfl
      rw [Parameter.tokens, decorators, List.length_nil, Nat.add_zero, List.nil_append,
        replaceSingle_append noParen, List.append_assoc]
      rfl
  | cons token decorators' =>
      refine ⟨fun same => ?_, fun none => absurd none (List.cons_ne_nil _ _)⟩
      have isAt : token = ['@'] := param.first token (by rw [decorators]; rfl)
      have last : (before ++ openingParen :: param.decorators).getLast? ≠
          some openingParen := by
        have := param.last
        rw [decorators] at this ⊢
        rwa [List.getLast?_append_of_ne_nil _ (List.cons_ne_nil _ _), List.getLast?_cons_cons]
      have whole : before ++ openingParen :: param.tokens ++ trailing ++ closingParen :: behind =
          before ++ openingParen :: param.decorators ++ param.node ++
            (trailing ++ closingParen :: behind) := by simp [Parameter.tokens]
      have start : before.length + 1 + (token :: decorators').length =
          (before ++ openingParen :: param.decorators).length := by
        rw [decorators]
        simp
        omega
      rw [whole, start, replaceSingle_of_last_ne last, decorators, isAt] at same
      simp [closingParen] at same

/-- What is left depends on the last comma before the parameter and on the first behind it. -/
theorem exists_removeLast {decorators node : List Token} (noComma : comma ∉ decorators) :
    ∃ rest, removeLast (before ++ comma :: decorators ++ node ++
          ((if trailing then [comma] else []) ++ closingParen :: behind))
        (before.length + 1 + decorators.length,
          before.length + 1 + decorators.length + node.length) = some (before ++ rest) ∧
      (trailing → rest = comma :: closingParen :: behind) ∧
      (trailing = false → comma ∈ behind → rest.head? = some comma) ∧
      (trailing = false → comma ∉ behind → rest = closingParen :: behind) := by
  cases trailing with
  | true =>
      have removed := @removeLast_append before decorators node [] (closingParen :: behind)
        noComma List.not_mem_nil
      rw [List.append_nil] at removed
      exact ⟨_, removed, fun _ => rfl, by simp, by simp⟩
  | false =>
      by_cases later : comma ∈ behind
      · obtain ⟨skipped, behind, rfl, others⟩ := List.eq_append_cons_of_mem later
        have notFirst : comma ∉ closingParen :: skipped :=
          List.not_mem_cons_of_ne_of_not_mem closingParen_ne_comma.symm others
        have removed := @removeLast_append before decorators node _ behind noComma notFirst
        rw [List.append_assoc, List.cons_append] at removed
        exact ⟨_, removed, by simp, fun _ _ => rfl, fun _ none => absurd later none⟩
      · have noLater : comma ∉ closingParen :: behind :=
          List.not_mem_cons_of_ne_of_not_mem closingParen_ne_comma.symm later
        exact ⟨_, removeLast_of_not_mem noComma noLater, by simp,
          fun _ some => absurd some later, fun _ _ => rfl⟩

/-- The last of several parameters. -/
theorem suggestion_last_iff (param : Parameter) :
    removeLast
        (before ++ comma :: param.tokens ++
          ((if trailing then [comma] else []) ++ closingParen :: behind))
        (before.length + 1 + param.decorators.length,
          before.length + 1 + param.decorators.length + param.node.length) =
        some (before ++ ((if trailing then [comma] else []) ++ closingParen :: behind)) ↔
      comma ∉ param.decorators ∧ (trailing ∨ comma ∉ behind) := by
  by_cases inside : comma ∈ param.decorators
  · -- the comma before the parameter belongs to its decorators
    refine iff_of_false (fun same => ?_) (fun h => h.1 inside)
    obtain ⟨earlier, decorators, split, noComma⟩ := eq_append_cons_of_mem_right inside
    have whole : before ++ comma :: param.tokens =
        (before ++ comma :: earlier) ++ comma :: decorators ++ param.node := by
      simp [Parameter.tokens, split]
    have start : before.length + 1 + param.decorators.length =
        (before ++ comma :: earlier).length + 1 + decorators.length := by
      simp [split]
      omega
    obtain ⟨rest, removed, withTrailing, -, -⟩ := @exists_removeLast
      (before ++ comma :: earlier) behind trailing decorators param.node noComma
    rw [whole, start, removed] at same
    cases trailing with
    | true =>
        have lengths := congrArg List.length (Option.some.inj same)
        simp [withTrailing rfl] at lengths
        omega
    | false => simp [closingParen_ne_comma.symm] at same
  · obtain ⟨rest, removed, withTrailing, withComma, withoutComma⟩ := @exists_removeLast
      before behind trailing param.decorators param.node inside
    have whole : before ++ comma :: param.tokens =
        before ++ comma :: param.decorators ++ param.node := by simp [Parameter.tokens]
    rw [whole, removed]
    cases trailing with
    | true => simp [withTrailing rfl, inside]
    | false =>
        by_cases later : comma ∈ behind
        · refine iff_of_false (fun same => ?_) (fun h => by simp [later] at h)
          have first := withComma rfl later
          rw [Option.some.injEq, List.append_cancel_left_eq] at same
          rw [same] at first
          exact closingParen_ne_comma (Option.some.inj first)
        · simp [withoutComma rfl later, inside, later]

/-- A parameter with others behind it: what is left has its decorators before the next one. -/
theorem suggestion_other_iff (param next : Parameter) :
    removeRange (before.length + param.decorators.length,
        before.length + param.tokens.length + 1 + next.decorators.length)
        (before ++ param.tokens ++ comma :: next.tokens ++ behind) =
        before ++ next.tokens ++ behind ↔
      param.decorators = next.decorators := by
  have whole : before ++ param.tokens ++ comma :: next.tokens ++ behind =
      (before ++ param.decorators) ++ (param.node ++ comma :: next.decorators) ++
        (next.node ++ behind) := by simp [Parameter.tokens]
  rw [whole, removeRange_append (by simp)
    (by simp only [Parameter.tokens, List.length_append, List.length_cons]; omega)]
  simp [Parameter.tokens]

end Removal

/-! ## The branches -/

section Branches

variable {tokens : List Token} {params : List (ℕ × ℕ)} {paramIndex : ℕ} {param next : ℕ × ℕ}

theorem suggestion_eq_replaceSingle (single : params = [param]) :
    getParameterRemovalSuggestion tokens params 0 = replaceSingle tokens param := by
  subst single
  rfl

theorem suggestion_eq_removeLast (found : params[paramIndex]? = some param)
    (last : params.length = paramIndex + 1) (several : paramIndex ≠ 0) :
    getParameterRemovalSuggestion tokens params paramIndex = removeLast tokens param := by
  rw [getParameterRemovalSuggestion, found, Option.bind_some, if_neg (by omega),
    if_pos (by omega)]

theorem suggestion_eq_removeRange (found : params[paramIndex]? = some param)
    (foundNext : params[paramIndex + 1]? = some next) :
    getParameterRemovalSuggestion tokens params paramIndex =
      some (removeRange (param.1, next.1) tokens) := by
  have inside : paramIndex + 1 < params.length := (List.getElem?_eq_some_iff.mp foundNext).1
  rw [getParameterRemovalSuggestion, found, Option.bind_some, if_neg (by omega),
    if_neg (by omega), foundNext, Option.map_some]

end Branches

section File

open Parameter

variable {before behind : List Token} {earlier later : List Parameter}
variable {param next : Parameter} {trailing : Bool}

theorem params_getElem? :
    (File.params ⟨before, .listed (earlier ++ param :: later) trailing,
        behind⟩)[earlier.length]? =
      some (before.length + 1 + (leading earlier).length + param.decorators.length,
        before.length + 1 + (leading earlier).length + param.decorators.length +
          param.node.length) := ranges_getElem?

theorem suggestion_single (file : File) (single : file.parameters = .listed [param] trailing) :
    getParameterRemovalSuggestion file.tokens file.params 0 = some (file.without 0).tokens ↔
      Removable file 0 := by
  obtain ⟨before, parameters, behind⟩ := file
  obtain rfl : parameters = .listed [param] trailing := single
  have noParen : closingParen ∉ if trailing then [comma] else [] := by
    cases trailing <;> decide
  have removable : Removable ⟨before, .listed [param] trailing, behind⟩ 0 ↔
      param.decorators = [] := by simp [Removable]
  have only : File.params ⟨before, .listed [param] trailing, behind⟩ =
      [(before.length + 1 + param.decorators.length,
        before.length + 1 + param.decorators.length + param.node.length)] := rfl
  rw [suggestion_eq_replaceSingle only, removable,
    ← @suggestion_single_iff before behind param _ noParen]
  simp [File.tokens, join, File.without, Parameters.without, List.eraseIdx]

theorem suggestion_last (file : File) (several : earlier ≠ [])
    (last : file.parameters = .listed (earlier ++ [param]) trailing) :
    getParameterRemovalSuggestion file.tokens file.params earlier.length =
        some (file.without earlier.length).tokens ↔ Removable file earlier.length := by
  obtain ⟨before, parameters, behind⟩ := file
  obtain rfl : parameters = .listed (earlier ++ [param]) trailing := last
  have length : earlier.length ≠ 0 := by simpa using several
  have removable : Removable ⟨before, .listed (earlier ++ [param]) trailing, behind⟩
      earlier.length ↔ comma ∉ param.decorators ∧ (trailing ∨ comma ∉ behind) := by
    simp [Removable, several]
  have commaBefore : leading earlier = join earlier ++ [comma] := leading_eq_join several
  have start : before.length + 1 + (leading earlier).length =
      (before ++ openingParen :: join earlier).length + 1 := by
    rw [commaBefore]
    simp
    omega
  have tokens : File.tokens ⟨before, .listed (earlier ++ [param]) trailing, behind⟩ =
      (before ++ openingParen :: join earlier) ++ comma :: param.tokens ++
        ((if trailing then [comma] else []) ++ closingParen :: behind) := by
    simp [File.tokens, join_append_cons, commaBefore, following]
  have without : File.tokens (File.without
        ⟨before, .listed (earlier ++ [param]) trailing, behind⟩ earlier.length) =
      (before ++ openingParen :: join earlier) ++
        ((if trailing then [comma] else []) ++ closingParen :: behind) := by
    simp [File.without, Parameters.without, File.tokens, length,
      List.eraseIdx_append_of_length_le]
  rw [suggestion_eq_removeLast params_getElem? (by simp [File.params, length_ranges]) length,
    tokens, without, start, removable, suggestion_last_iff]

theorem suggestion_other (file : File)
    (notLast : file.parameters = .listed (earlier ++ param :: next :: later) trailing) :
    getParameterRemovalSuggestion file.tokens file.params earlier.length =
        some (file.without earlier.length).tokens ↔ Removable file earlier.length := by
  obtain ⟨before, parameters, behind⟩ := file
  obtain rfl : parameters = .listed (earlier ++ param :: next :: later) trailing := notLast
  have several : earlier.length + (later.length + 1 + 1) ≠ 1 := by omega
  have removable : Removable ⟨before, .listed (earlier ++ param :: next :: later) trailing,
      behind⟩ earlier.length ↔ param.decorators = next.decorators := by
    simp [Removable, several]
  have split : earlier ++ param :: next :: later = (earlier ++ [param]) ++ next :: later := by
    simp
  have foundNext := @params_getElem? before behind (earlier ++ [param]) later next trailing
  rw [← split, List.length_append, List.length_singleton] at foundNext
  have start : before.length + 1 + (leading (earlier ++ [param])).length =
      (before ++ openingParen :: leading earlier).length + param.tokens.length + 1 := by
    simp [leading]
    omega
  have tokens : File.tokens ⟨before, .listed (earlier ++ param :: next :: later) trailing,
        behind⟩ =
      (before ++ openingParen :: leading earlier) ++ param.tokens ++ comma :: next.tokens ++
        (following later ++ (if trailing then [comma] else []) ++ closingParen :: behind) := by
    simp [File.tokens, join_append_cons, following]
  have without : File.tokens (File.without
        ⟨before, .listed (earlier ++ param :: next :: later) trailing, behind⟩
          earlier.length) =
      (before ++ openingParen :: leading earlier) ++ next.tokens ++
        (following later ++ (if trailing then [comma] else []) ++ closingParen :: behind) := by
    simp [File.without, Parameters.without, File.tokens, List.eraseIdx_append_of_length_le,
      join_append_cons, several]
  have position : before.length + 1 + (leading earlier).length =
      (before ++ openingParen :: leading earlier).length := by
    simp
    omega
  rw [suggestion_eq_removeRange params_getElem? foundNext, Option.some.injEq, tokens, without,
    start, position, removable, suggestion_other_iff]

end File

/-- The suggestion takes exactly the parameter and a comma of the parameter list out of the file
if and only if the delimiters it finds are its own. -/
theorem getParameterRemovalSuggestion_iff (file : File) (paramIndex : Fin file.params.length) :
    getParameterRemovalSuggestion file.tokens file.params paramIndex =
        some (file.without paramIndex).tokens ↔ Removable file paramIndex := by
  obtain ⟨paramIndex, inside⟩ := paramIndex
  obtain ⟨before, parameters, behind⟩ := file
  cases parameters with
  | bare param =>
      have only : paramIndex = 0 := Nat.lt_one_iff.mp inside
      subst only
      have suggestion := @suggestion_bare_iff before behind param
      simpa [getParameterRemovalSuggestion, File.params, File.tokens, File.without,
        Parameters.without, Removable, Parameter.join] using suggestion
  | listed params trailing =>
      rw [File.params, length_ranges] at inside
      have split : params = params.take paramIndex ++ params[paramIndex] ::
          params.drop (paramIndex + 1) := by simp
      have length : (params.take paramIndex).length = paramIndex := by
        rw [List.length_take]
        omega
      generalize params.take paramIndex = earlier at split length
      generalize params[paramIndex] = param at split
      generalize params.drop (paramIndex + 1) = later at split
      subst split length
      cases later with
      | cons next later => exact suggestion_other _ rfl
      | nil =>
          cases earlier with
          | nil => exact suggestion_single _ rfl
          | cons first earlier => exact suggestion_last _ (List.cons_ne_nil _ _) rfl

/-- The parenthesis of the call before an arrow function is taken for its own. -/
def callWithArrow : File where
  before := ["foo".toList, openingParen]
  parameters := .bare "x".toList
  behind := ["=>".toList, "1".toList, closingParen, ";".toList]

theorem not_removes_bareParameter :
    ¬∀ (file : File) (paramIndex : Fin file.params.length),
      getParameterRemovalSuggestion file.tokens file.params paramIndex =
        some (file.without paramIndex).tokens := by
  intro removes
  have := removes callWithArrow ⟨0, Nat.zero_lt_one⟩
  exact absurd this (by decide)

end SonarJS.UnusedArguments
