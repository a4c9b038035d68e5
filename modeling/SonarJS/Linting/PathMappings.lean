import SonarJS.Regex.Matching

/-!
# Path mappings

`no-implicit-dependencies` leaves imports alone whose names are mapped by a key of `paths` in
`tsconfig.json`. A key with an asterisk is split by a regular expression. A name is then tested for
the prefix and for the suffix, each on its own, so that the two can overlap in it. TypeScript does
not map such a name.
-/

namespace SonarJS.PathMappings

open Regex.Matching

/-! ## The patterns -/

/-- Texts are lists of code units. -/
abbrev Text := List ℕ

def asterisk : ℕ := 0x2A

inductive PathMappingPattern
  | noAsterisk (value : Text)
  | singleAsterisk (prefixText suffixText : Text)
deriving DecidableEq

def PathMappingPattern.isApplicableTo (name : Text) : PathMappingPattern → Bool
  | .noAsterisk value => name = value
  | .singleAsterisk prefixText suffixText =>
    prefixText.isPrefixOf name && suffixText.isSuffixOf name

/-- The characters of the regular expression: the asterisk, and the class of all others. -/
inductive KeyCharacter
  | asterisk
  | notAsterisk

def keyCharacters : CharacterSets KeyCharacter where
  accepts _ character unit :=
    match character with
    | .asterisk => unit = asterisk
    | .notAsterisk => unit ≠ asterisk
  canonicalize _ unit := unit

def noFlags : Flags where
  dotAll := false
  isGlobal := false
  ignoreCase := false
  multiline := false
  sticky := false
  unicode := false

/-- All characters up to an asterisk or the end. -/
def others : Element KeyCharacter := .quantifier 0 none true (.character .notAsterisk)

/-- Matches any text with a single asterisk. -/
def PATH_MAPPING_ASTERISK_PATTERN : List (List (Element KeyCharacter)) :=
  [[.edge .atStart, .capturingGroup 1 [[others]], .character .asterisk,
    .capturingGroup 2 [[others]], .edge .atEnd]]

def PATH_MAPPING_ASTERISK_PATTERN_PREFIX_IDX : ℕ := 1

def PATH_MAPPING_ASTERISK_PATTERN_SUFFIX_IDX : ℕ := 2

/-- The text that a group has captured, which is undefined without a capture. -/
def captured {input : Text} (m : Match input) (number : ℕ) : Option Text :=
  (m.state.captures number).map fun range => slice input range.1 range.2

/-- The pattern for a key other than a single asterisk. Both groups are captured in every match. -/
def patternOf (p : Text) : Option PathMappingPattern :=
  match exec keyCharacters noFlags p PATH_MAPPING_ASTERISK_PATTERN 0 with
  | some m =>
    some (.singleAsterisk ((captured m PATH_MAPPING_ASTERISK_PATTERN_PREFIX_IDX).getD [])
      ((captured m PATH_MAPPING_ASTERISK_PATTERN_SUFFIX_IDX).getD []))
  | none => if asterisk ∉ p then some (.noAsterisk p) else none

inductive Extracted
  | matchAll
  | patterns (pathMappingPatterns : List PathMappingPattern)
deriving DecidableEq

/-- The loop over the keys, with the patterns so far. -/
def extractFrom : List Text → List PathMappingPattern → Extracted
  | [], pathMappingPatterns => .patterns pathMappingPatterns
  | p :: keys, pathMappingPatterns =>
    if p = [asterisk] then .matchAll
    else extractFrom keys (pathMappingPatterns ++ (patternOf p).toList)

/-- The options of the compiler, with the keys of `paths` in the order in which they come. -/
structure CompilerOptions where
  paths : Option (List Text)

structure Program where
  getCompilerOptions : Option CompilerOptions

structure ParserServices where
  program : Option Program

def ParserServices.keys (parserServices : ParserServices) : List Text :=
  let compilerOptions := parserServices.program.bind Program.getCompilerOptions
  (compilerOptions.bind CompilerOptions.paths).getD []

def extractPathMappingPatterns (parserServices : ParserServices) : Extracted :=
  extractFrom parserServices.keys []

/-- Whether the rule leaves alone an import of this name for a path mapping. -/
def Extracted.isApplicableTo (name : Text) : Extracted → Bool
  | .matchAll => true
  | .patterns pathMappingPatterns => pathMappingPatterns.any (·.isApplicableTo name)

/-! ## What the regular expression matches -/

section Split

variable {p before behind : Text} {x y : State p}

theorem mem_atStart : y ∈ elementMatcher keyCharacters noFlags .forward (.edge .atStart) x ↔
    x.endIndex = 0 ∧ y = x := by
  by_cases atStart : x.endIndex = 0 <;> simp [elementMatcher, holdsAtEdge, noFlags, atStart]

theorem mem_atEnd : y ∈ elementMatcher keyCharacters noFlags .forward (.edge .atEnd) x ↔
    x.endIndex = p.length ∧ y = x := by
  by_cases atEnd : x.endIndex = p.length <;> simp [elementMatcher, holdsAtEdge, noFlags, atEnd]

/-- A group passes everything up to the next asterisk or the end and captures it. -/
theorem mem_group {number : ℕ} :
    y ∈ elementMatcher keyCharacters noFlags .forward (.capturingGroup number [[others]]) x ↔
      ∃ z : State p, x.endIndex ≤ z.endIndex ∧ z.captures = x.captures ∧
        asterisk ∉ slice p x.endIndex z.endIndex ∧
        y = z.capture number x.endIndex z.endIndex := by
  have accepts (units : Text) : asterisk ∉ units ↔
      ∀ unit ∈ units, keyCharacters.accepts noFlags .notAsterisk unit = true := by
    simp only [keyCharacters, decide_eq_true_eq]
    exact ⟨fun none unit mem same => none (same ▸ mem), fun other mem => other _ mem rfl⟩
  rw [mem_capturingGroup]
  constructor
  · rintro ⟨z, passes, rfl⟩
    obtain ⟨le, captures, accepted⟩ := mem_characters.mp passes
    exact ⟨z, le, captures, (accepts _).mpr accepted, rfl⟩
  · rintro ⟨z, le, captures, none, rfl⟩
    exact ⟨z, mem_characters.mpr ⟨le, captures, (accepts _).mp none⟩, rfl⟩

theorem mem_asterisk :
    y ∈ elementMatcher keyCharacters noFlags .forward (.character .asterisk) x ↔
      y.endIndex = x.endIndex + 1 ∧ y.captures = x.captures ∧
        slice p x.endIndex y.endIndex = [asterisk] := by
  rw [mem_character]
  constructor
  · rintro ⟨next, -, captures, accepted⟩
    refine ⟨next, captures, ?_⟩
    have length : (slice p x.endIndex y.endIndex).length = 1 := by
      have inside := y.inside
      simp only [slice, List.length_drop, List.length_take]
      omega
    obtain ⟨unit, single⟩ := List.length_eq_one_iff.mp length
    rw [single] at accepted ⊢
    have same := accepted unit (List.mem_singleton_self _)
    rw [of_decide_eq_true same]
  · rintro ⟨next, captures, single⟩
    refine ⟨next, by omega, captures, fun unit mem => ?_⟩
    rw [single] at mem
    exact decide_eq_true (List.mem_singleton.mp mem)

theorem exec_asterisk {m : Match p}
    (matched : exec keyCharacters noFlags p PATH_MAPPING_ASTERISK_PATTERN 0 = some m) :
    ∃ before behind, p = before ++ asterisk :: behind ∧ asterisk ∉ before ∧ asterisk ∉ behind ∧
      captured m 1 = some before ∧ captured m 2 = some behind := by
  obtain ⟨index, -, member⟩ := mem_of_exec matched
  simp only [PATH_MAPPING_ASTERISK_PATTERN, disjunctionMatcher, alternativeMatcher,
    List.append_nil, List.mem_flatMap, List.mem_singleton] at member
  obtain ⟨x, first, y, second, z, third, u, fourth, v, fifth, isLast⟩ := member
  obtain ⟨begins, rfl⟩ := mem_atStart.1 first
  obtain ⟨y, -, captures, noneBefore, rfl⟩ := mem_group.1 second
  obtain ⟨next, captures', single⟩ := mem_asterisk.1 third
  obtain ⟨u, le, captures'', noneBehind, rfl⟩ := mem_group.1 fourth
  obtain ⟨ends, rfl⟩ := mem_atEnd.1 fifth
  change z.endIndex = y.endIndex + 1 at next
  change u.endIndex = p.length at ends
  change slice p y.endIndex z.endIndex = [asterisk] at single
  have whole : p = slice p 0 y.endIndex ++ asterisk :: slice p z.endIndex u.endIndex := by
    have parts : slice p 0 y.endIndex ++ (slice p y.endIndex z.endIndex ++
        slice p z.endIndex u.endIndex) = slice p 0 p.length := by
      rw [slice_append (by omega) le, slice_append (Nat.zero_le _) (by omega), ends]
    rw [single] at parts
    exact (parts.trans (by simp [slice])).symm
  rw [begins] at noneBefore captures'
  refine ⟨_, _, whole, noneBefore, noneBehind, ?_, ?_⟩
  · have known : m.state.captures 1 = some (0, y.endIndex) := by
      rw [isLast, captures_capture_of_ne (by decide), captures'', captures', captures_capture]
    rw [captured, known]
    rfl
  · have known : m.state.captures 2 = some (z.endIndex, u.endIndex) := by
      rw [isLast, captures_capture]
    rw [captured, known]
    rfl

/-- A text is split at an asterisk that has no other one beside it. -/
theorem isSome_exec_asterisk (noneBefore : asterisk ∉ before) (noneBehind : asterisk ∉ behind) :
    (exec keyCharacters noFlags (before ++ asterisk :: behind) PATH_MAPPING_ASTERISK_PATTERN
      0).isSome := by
  let x : State (before ++ asterisk :: behind) := .initial 0
  let y : State (before ++ asterisk :: behind) :=
    ⟨before.length, by simp, x.captures⟩
  let z : State (before ++ asterisk :: behind) :=
    ⟨before.length + 1, by simp, (y.capture 1 0 before.length).captures⟩
  let u : State (before ++ asterisk :: behind) :=
    ⟨(before ++ asterisk :: behind).length, le_rfl, z.captures⟩
  have first : x ∈ elementMatcher keyCharacters noFlags .forward (.edge .atStart) x :=
    mem_atStart.2 ⟨rfl, rfl⟩
  have second : y.capture 1 0 before.length ∈
      elementMatcher keyCharacters noFlags .forward (.capturingGroup 1 [[others]]) x := by
    refine mem_group.2 ⟨y, Nat.zero_le _, rfl, ?_, rfl⟩
    simpa [slice, x, y, State.initial] using noneBefore
  have third : z ∈ elementMatcher keyCharacters noFlags .forward (.character .asterisk)
      (y.capture 1 0 before.length) := by
    refine mem_asterisk.2 ⟨rfl, rfl, ?_⟩
    change slice _ before.length (before.length + 1) = _
    rw [slice_add, List.drop_left]
    rfl
  have fourth : u.capture 2 (before.length + 1) u.endIndex ∈
      elementMatcher keyCharacters noFlags .forward (.capturingGroup 2 [[others]]) z := by
    refine mem_group.2 ⟨u, ?_, rfl, ?_, rfl⟩
    · simp [z, u]
    · change asterisk ∉ slice _ (before.length + 1) (before ++ asterisk :: behind).length
      rw [slice, List.take_length, List.drop_length_add_append]
      exact noneBehind
  have fifth : u.capture 2 (before.length + 1) u.endIndex ∈
      elementMatcher keyCharacters noFlags .forward (.edge .atEnd)
        (u.capture 2 (before.length + 1) u.endIndex) :=
    mem_atEnd.2 ⟨rfl, rfl⟩
  have starts : (0 : Fin ((before ++ asterisk :: behind).length + 1)) ∈
      startIndices noFlags (before ++ asterisk :: behind) 0 :=
    List.mem_filter.mpr ⟨List.mem_finRange _, rfl⟩
  refine isSome_exec (y := u.capture 2 (before.length + 1) u.endIndex) starts ?_
  simp only [PATH_MAPPING_ASTERISK_PATTERN, disjunctionMatcher, alternativeMatcher,
    List.append_nil, List.mem_flatMap, List.mem_singleton]
  exact ⟨_, first, _, second, _, third, _, fourth, _, fifth, rfl⟩

theorem split_unique {before' behind' : Text} (noneBefore : asterisk ∉ before)
    (noneBehind : asterisk ∉ behind)
    (same : before ++ asterisk :: behind = before' ++ asterisk :: behind') :
    before' = before ∧ behind' = behind := by
  obtain ⟨rfl, -, rfl⟩ := (List.append_cons_inj_of_notMem noneBefore noneBehind).mp same
  exact ⟨rfl, rfl⟩

/-- A key with an asterisk is taken apart there. -/
theorem patternOf_split (noneBefore : asterisk ∉ before) (noneBehind : asterisk ∉ behind) :
    patternOf (before ++ asterisk :: behind) = some (.singleAsterisk before behind) := by
  obtain ⟨m, matched⟩ := Option.isSome_iff_exists.mp (isSome_exec_asterisk noneBefore noneBehind)
  obtain ⟨before', behind', same, -, -, first, second⟩ := exec_asterisk matched
  obtain ⟨rfl, rfl⟩ := split_unique noneBefore noneBehind same
  rw [patternOf, matched]
  dsimp only [PATH_MAPPING_ASTERISK_PATTERN_PREFIX_IDX, PATH_MAPPING_ASTERISK_PATTERN_SUFFIX_IDX]
  rw [first, second]
  rfl

theorem patternOf_of_notMem (none : asterisk ∉ p) : patternOf p = some (.noAsterisk p) := by
  cases matched : exec keyCharacters noFlags p PATH_MAPPING_ASTERISK_PATTERN 0 with
  | some m =>
      obtain ⟨before, behind, rfl, -⟩ := exec_asterisk matched
      simp at none
  | none => rw [patternOf, matched]; exact if_pos none

theorem exists_split (single : p.count asterisk = 1) :
    ∃ before behind, p = before ++ asterisk :: behind ∧ asterisk ∉ before ∧ asterisk ∉ behind := by
  have mem : asterisk ∈ p := List.count_pos_iff.mp (by omega)
  obtain ⟨before, behind, rfl⟩ := List.append_of_mem mem
  rw [List.count_append, List.count_cons_self] at single
  exact ⟨before, behind, rfl, List.count_eq_zero.mp (by omega), List.count_eq_zero.mp (by omega)⟩

/-- Keys with several asterisks, which the compiler rejects, are passed over. -/
theorem patternOf_eq_none_iff : patternOf p = none ↔ 1 < p.count asterisk := by
  constructor
  · intro noPattern
    by_contra few
    obtain none | single : p.count asterisk = 0 ∨ p.count asterisk = 1 := by omega
    · rw [patternOf_of_notMem (List.count_eq_zero.mp none)] at noPattern
      cases noPattern
    · obtain ⟨before, behind, rfl, noneBefore, noneBehind⟩ := exists_split single
      rw [patternOf_split noneBefore noneBehind] at noPattern
      cases noPattern
  · intro several
    have mem : asterisk ∈ p := List.count_pos_iff.mp (by omega)
    cases matched : exec keyCharacters noFlags p PATH_MAPPING_ASTERISK_PATTERN 0 with
    | some m =>
        obtain ⟨before, behind, rfl, noneBefore, noneBehind, -⟩ := exec_asterisk matched
        rw [List.count_append, List.count_cons_self, List.count_eq_zero.mpr noneBefore,
          List.count_eq_zero.mpr noneBehind] at several
        exact absurd several (by decide)
    | none =>
        rw [patternOf, matched]
        exact if_neg (not_not_intro mem)

end Split

/-! ## What the keys map -/

section Mapping

variable {key name before behind : Text}

/-- A key maps itself, and what has something in place of the asterisk. -/
def Maps (key name : Text) : Prop :=
  key = name ∨ ∃ before between behind, key = before ++ asterisk :: behind ∧
    name = before ++ between ++ behind

/-- The prefix and the suffix of the key have characters of the name in common. -/
def Overlaps (key name : Text) : Prop :=
  ∃ before behind, key = before ++ asterisk :: behind ∧ before <+: name ∧ behind <:+ name ∧
    name.length < before.length + behind.length

theorem prefix_suffix_iff : before <+: name ∧ behind <:+ name ↔
    (∃ between, name = before ++ between ++ behind) ∨
      before <+: name ∧ behind <:+ name ∧ name.length < before.length + behind.length := by
  constructor
  · rintro ⟨⟨rest, rfl⟩, ends⟩
    obtain short | enough := Nat.lt_or_ge rest.length behind.length
    · refine .inr ⟨List.prefix_append .., ends, ?_⟩
      rw [List.length_append]
      omega
    · obtain ⟨between, rfl⟩ :=
        List.suffix_of_suffix_length_le ends (List.suffix_append before rest) enough
      exact .inl ⟨between, (List.append_assoc ..).symm⟩
  · rintro (⟨between, rfl⟩ | ⟨begins, ends, -⟩)
    · exact ⟨⟨between ++ behind, (List.append_assoc ..).symm⟩, List.suffix_append ..⟩
    · exact ⟨begins, ends⟩

theorem maps_split (noneBefore : asterisk ∉ before) (noneBehind : asterisk ∉ behind) :
    Maps (before ++ asterisk :: behind) name ↔ ∃ between, name = before ++ between ++ behind := by
  constructor
  · rintro (rfl | ⟨before', between, behind', same, rfl⟩)
    · exact ⟨[asterisk], by simp⟩
    · obtain ⟨rfl, rfl⟩ := split_unique noneBefore noneBehind same
      exact ⟨between, rfl⟩
  · rintro ⟨between, rfl⟩
    exact .inr ⟨before, between, behind, rfl, rfl⟩

theorem overlaps_split (noneBefore : asterisk ∉ before) (noneBehind : asterisk ∉ behind) :
    Overlaps (before ++ asterisk :: behind) name ↔
      before <+: name ∧ behind <:+ name ∧ name.length < before.length + behind.length := by
  constructor
  · rintro ⟨before', behind', same, overlaps⟩
    obtain ⟨rfl, rfl⟩ := split_unique noneBefore noneBehind same
    exact overlaps
  · intro overlaps
    exact ⟨before, behind, rfl, overlaps⟩

theorem maps_of_notMem (none : asterisk ∉ key) : Maps key name ↔ key = name := by
  refine or_iff_left ?_
  rintro ⟨before, between, behind, rfl, -⟩
  simp at none

theorem not_overlaps_of_notMem (none : asterisk ∉ key) : ¬Overlaps key name := by
  rintro ⟨before, behind, rfl, -⟩
  simp at none

/-- What a key with at most one asterisk contributes. -/
theorem contributes_iff (few : key.count asterisk ≤ 1) :
    key = [asterisk] ∨ (patternOf key).any (·.isApplicableTo name) = true ↔
      Maps key name ∨ Overlaps key name := by
  obtain none | single : key.count asterisk = 0 ∨ key.count asterisk = 1 := by omega
  · have none := List.count_eq_zero.mp none
    have notAll : key ≠ [asterisk] := by
      rintro rfl
      simp at none
    rw [patternOf_of_notMem none, maps_of_notMem none, or_iff_right notAll,
      or_iff_left (not_overlaps_of_notMem none)]
    simp [PathMappingPattern.isApplicableTo, eq_comm]
  · obtain ⟨before, behind, rfl, noneBefore, noneBehind⟩ := exists_split single
    rw [patternOf_split noneBefore noneBehind, maps_split noneBefore noneBehind,
      overlaps_split noneBefore noneBehind, ← prefix_suffix_iff]
    have tested : (some (PathMappingPattern.singleAsterisk before behind)).any
        (·.isApplicableTo name) = true ↔ before <+: name ∧ behind <:+ name := by
      simp [PathMappingPattern.isApplicableTo]
    rw [tested]
    refine or_iff_right_of_imp fun all => ?_
    obtain ⟨rfl, -, rfl⟩ := (List.append_cons_inj_of_notMem noneBefore noneBehind).mp
      (all.trans (List.nil_append [asterisk]).symm)
    exact ⟨List.nil_prefix, List.nil_suffix⟩

theorem extractFrom_isApplicableTo (keys : List Text) (patterns : List PathMappingPattern) :
    (extractFrom keys patterns).isApplicableTo name = true ↔
      patterns.any (·.isApplicableTo name) = true ∨ ∃ key ∈ keys,
        key = [asterisk] ∨ (patternOf key).any (·.isApplicableTo name) = true := by
  induction keys generalizing patterns with
  | nil => simp [extractFrom, Extracted.isApplicableTo]
  | cons key keys ih =>
      rw [extractFrom]
      split
      next all => exact iff_of_true rfl (.inr ⟨key, List.mem_cons_self, .inl all⟩)
      next notAll =>
        rw [ih, List.any_append, Bool.or_eq_true, List.exists_mem_cons_iff, or_iff_right notAll,
          or_assoc]
        have same : (patternOf key).toList.any (·.isApplicableTo name) =
            (patternOf key).any (·.isApplicableTo name) := by
          cases patternOf key <;> simp
        rw [same]

/-- A name is left alone if a key maps it, or if the prefix and suffix of a key overlap in it. -/
theorem isApplicableTo_iff {parserServices : ParserServices}
    (few : ∀ key ∈ parserServices.keys, key.count asterisk ≤ 1) :
    (extractPathMappingPatterns parserServices).isApplicableTo name = true ↔
      ∃ key ∈ parserServices.keys, Maps key name ∨ Overlaps key name := by
  rw [extractPathMappingPatterns, extractFrom_isApplicableTo]
  simp only [List.any_nil, Bool.false_eq_true, false_or]
  refine exists_congr fun key => and_congr_right fun mem => ?_
  exact contributes_iff (few key mem)

end Mapping

/-- The extracted patterns are those of TypeScript for a name exactly if a key maps the name, or no
key has a prefix and a suffix that overlap in it. -/
theorem extractPathMappingPatterns_right_iff (parserServices : ParserServices) (name : Text)
    (few : ∀ key ∈ parserServices.keys, key.count asterisk ≤ 1) :
    ((extractPathMappingPatterns parserServices).isApplicableTo name = true ↔
      ∃ key ∈ parserServices.keys, Maps key name) ↔
      ((∃ key ∈ parserServices.keys, Overlaps key name) →
        ∃ key ∈ parserServices.keys, Maps key name) := by
  rw [isApplicableTo_iff few]
  constructor
  · rintro right ⟨key, mem, overlaps⟩
    exact right.mp ⟨key, mem, .inr overlaps⟩
  · intro mapped
    constructor
    · rintro ⟨key, mem, maps | overlaps⟩
      · exact ⟨key, mem, maps⟩
      · exact mapped ⟨key, mem, overlaps⟩
    · rintro ⟨key, mem, maps⟩
      exact ⟨key, mem, .inl maps⟩

def text (s : String) : Text := s.toList.map Char.toNat

/-- A program with these keys in `paths`. -/
def withPaths (keys : List String) : ParserServices where
  program := some ⟨some ⟨some (keys.map text)⟩⟩

theorem extractPathMappingPatterns_right_of_maps :
    ((extractPathMappingPatterns (withPaths ["jest", "@app/*"])).isApplicableTo
        (text "@app/util") = true ↔
      ∃ key ∈ (withPaths ["jest", "@app/*"]).keys, Maps key (text "@app/util")) := by
  refine (extractPathMappingPatterns_right_iff _ _ (by decide)).mpr fun _ => ?_
  exact ⟨text "@app/*", by decide, .inr ⟨text "@app/", text "util", [], by decide, by decide⟩⟩

/-- In `aba`, the `b` of `ab*ba` would have to be both in front of the asterisk and behind it. -/
theorem not_right_overlapping :
    ¬∀ (parserServices : ParserServices) (name : Text),
      (∀ key ∈ parserServices.keys, key.count asterisk ≤ 1) →
        ((extractPathMappingPatterns parserServices).isApplicableTo name = true ↔
          ∃ key ∈ parserServices.keys, Maps key name) := by
  intro right
  have overlaps : Overlaps (text "ab*ba") (text "aba") :=
    ⟨text "ab", text "ba", by decide, by decide, by decide, by decide⟩
  have few : ∀ key ∈ (withPaths ["ab*ba"]).keys, key.count asterisk ≤ 1 := by decide
  obtain ⟨key, mem, maps⟩ := (right (withPaths ["ab*ba"]) (text "aba") few).mp
    ((isApplicableTo_iff few).mpr ⟨text "ab*ba", List.mem_singleton_self _, .inr overlaps⟩)
  obtain rfl : key = text "ab" ++ asterisk :: text "ba" := by
    rw [List.mem_singleton.mp mem]
    decide
  obtain ⟨between, same⟩ := (maps_split (by decide) (by decide)).mp maps
  have length := congrArg List.length same
  rw [List.length_append, List.length_append] at length
  have short : (text "aba").length = 3 := by decide
  have long : (text "ab").length + (text "ba").length = 4 := by decide
  omega

end SonarJS.PathMappings
