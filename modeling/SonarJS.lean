import SonarJS.Foundation.OrderedCollections
import SonarJS.Foundation.Worklist
import SonarJS.Foundation.Action
import SonarJS.Foundation.FileSystem
import SonarJS.Foundation.Utf8
import SonarJS.Foundation.Tally
import SonarJS.Foundation.Traversal
import SonarJS.Foundation.Recursion
import SonarJS.Foundation.Lines
import SonarJS.Foundation.Replacement
import SonarJS.Foundation.Forest
import SonarJS.Foundation.SortedMap
import SonarJS.Foundation.StringLiteral
import SonarJS.Foundation.StackSearch
import SonarJS.Foundation.Trie
import SonarJS.Foundation.Numbers
import SonarJS.Foundation.PosixPath
import SonarJS.Foundation.Scanning
import SonarJS.Foundation.Backtracking
import SonarJS.Foundation.Patterns
import SonarJS.Foundation.Edits
import SonarJS.Foundation.Separated
import SonarJS.Foundation.Pieces
import SonarJS.Foundation.Transitions
import SonarJS.Foundation.Json
import SonarJS.Foundation.BreadthFirst
import SonarJS.Linting.CodePath
import SonarJS.Linting.LiveVariables
import SonarJS.Linting.DeadStore
import SonarJS.Linting.ReachingDefinitions
import SonarJS.Linting.ReachingDefinitions.Runs
import SonarJS.Linting.RedundantAssignments
import SonarJS.Linting.AssignmentContext
import SonarJS.Linting.ParameterReassignment
import SonarJS.Linting.Resolution
import SonarJS.Linting.Resolution.Patterns
import SonarJS.Linting.ObjectProperties
import SonarJS.Linting.FullyQualifiedNames
import SonarJS.Linting.FullyQualifiedNames.Inlining
import SonarJS.Linting.SwitchFallthrough
import SonarJS.Linting.CommentedCode
import SonarJS.Linting.InfiniteLoops
import SonarJS.Linting.InvariantReturns.Runs
import SonarJS.Linting.Scopes
import SonarJS.Linting.FilePermissions
import SonarJS.Linting.ImplicitDependencies
import SonarJS.Linting.PathMappings
import SonarJS.Linting.UnusedArguments
import SonarJS.Linting.UnusedImports
import SonarJS.Linting.DuplicateTypes
import SonarJS.Linting.EqualsInFor
import SonarJS.Linting.LoopIncrements
import SonarJS.Linting.JumpsInLoops
import SonarJS.Linting.RedundantParentheses
import SonarJS.Linting.RuleComposition
import SonarJS.Linting.DuplicateKeys
import SonarJS.Linting.UnionTypes
import SonarJS.Linting.RedundantOptional
import SonarJS.Linting.SyntaxTree
import SonarJS.Linting.ConditionalOperators
import SonarJS.Linting.CyclomaticComplexity
import SonarJS.Linting.LinesPerFunction
import SonarJS.Linting.LinesOfCode
import SonarJS.Linting.SymbolHighlighting
import SonarJS.Linting.Visitor
import SonarJS.Linting.Metrics
import SonarJS.Linting.CopyPaste
import SonarJS.Linting.Messages
import SonarJS.Linting.LinterConfigs
import SonarJS.Linting.ImportClauses
import SonarJS.Linting.DuplicateImports
import SonarJS.Linting.DuplicateImports.Ranges
import SonarJS.Linting.DuplicateImports.Keeping
import SonarJS.Regex.CharacterClass
import SonarJS.Regex.CharacterClass.Ranges
import SonarJS.Regex.CharacterClass.Intersections
import SonarJS.Regex.CharacterClass.CaseInsensitive
import SonarJS.Regex.Tokenizer
import SonarJS.Regex.Tokenizer.Literals
import SonarJS.Regex.Locations
import SonarJS.Regex.Syntax
import SonarJS.Regex.Complexity
import SonarJS.Regex.EmptyMatches
import SonarJS.Regex.ExistingGroups
import SonarJS.Regex.Matching
import SonarJS.Regex.ReluctantQuantifiers
import SonarJS.Regex.ConciseRegex
import SonarJS.Regex.ConciseRegex.Braces
import SonarJS.Regex.ConciseRegex.Characters
import SonarJS.Regex.ConciseRegex.Matches
import SonarJS.Cache.VarLength
import SonarJS.Cache.Cpd
import SonarJS.Cache.Sequence
import SonarJS.Cache.FailedRestore
import SonarJS.Cache.Strategy
import SonarJS.Cache.Runs
import SonarJS.Cache.Processor
import SonarJS.Lcov.Parser
import SonarJS.Lcov.Coverage
import SonarJS.Lcov.LineHits
import SonarJS.Lcov.Grammar
import SonarJS.Lcov.ReversePathTree
import SonarJS.TypeScript.Programs
import SonarJS.TypeScript.ProgramRequests
import SonarJS.TypeScript.TsConfigs
import SonarJS.TypeScript.PathWalker
import SonarJS.TypeScript.TsConfigProvider
import SonarJS.Filter.SizeAssessor
import SonarJS.Filter.LineLength
import SonarJS.Css.Lexer
import SonarJS.Bridge.Server
import SonarJS.Bridge.OrphanTimeout
import SonarJS.Bridge.Requests
import SonarJS.Bridge.Sensors
import SonarJS.Embedded.Snippets
import SonarJS.Embedded.SourceCode
import SonarJS.Embedded.Analysis
import SonarJS.Embedded.BlockScalars
import SonarJS.Embedded.ParsingErrors
