import Mrustc.Comparison.Common
import Mrustc.Codec.Emitter
import Mrustc.Codec.Decimal
import Mrustc.Hir.Path
import Mrustc.Hir.EncodedLiteral
import Mrustc.Hir.LiteralOrder
import Mrustc.Hir.LiteralBytes
import Mrustc.Hir.SimplePath
import Mrustc.Mangling.Mangler
import Mrustc.Mangling.Names
import Mrustc.Mangling.Injectivity
import Mrustc.Mangling.Symbols
import Mrustc.Parse.Codepoint
import Mrustc.Parse.Token
import Mrustc.Parse.TokenStream
import Mrustc.Parse.TokenTrees
import Mrustc.Parse.LexTables
import Mrustc.Parse.Lex
import Mrustc.Parse.Lexed
import Mrustc.Parse.ReadBack
import Mrustc.Parse.ReadText
import Mrustc.Parse.ByteWeight
import Mrustc.Parse.RoundTrip
import Mrustc.Parse.Stringify
import Mrustc.Ast.Expr
import Mrustc.Parse.ExprParser
import Mrustc.Parse.Spelling
import Mrustc.Depth.Settles
import Mrustc.Parse.SpelledTypes
import Mrustc.Parse.SpelledPaths
import Mrustc.Parse.SpelledExprs
import Mrustc.Parse.Precedence
import Mrustc.Minicargo.Jobs
import Mrustc.Minicargo.JobsSafety
import Mrustc.Minicargo.JobsRuns
import Mrustc.Codec.Varint
import Mrustc.ProcMacro.Protocol
import Mrustc.ProcMacro.TokenStream
import Mrustc.ProcMacro.Invocation
import Mrustc.ProcMacro.Streams
import Mrustc.ProcMacro.Travels
import Mrustc.ProcMacro.RoundTrip
import Mrustc.Memory.Contents
import Mrustc.Mir.Syntax
import Mrustc.Mir.Visit
import Mrustc.Mir.Semantics
import Mrustc.Mir.Forwarding
import Mrustc.Mir.Places
import Mrustc.Mir.Simulation
import Mrustc.Mir.Recorded
import Mrustc.Mir.ForwardingSound
import Mrustc.Mir.ForwardedRuns
import Mrustc.Memory.Flat
import Mrustc.Mir.Words
import Mrustc.Int128.U128
import Mrustc.Int128.Arith
import Mrustc.Int128.S128
import Mrustc.Int128.Exact
import Mrustc.Mir.ConstFold
import Mrustc.Mir.FoldMeaning
import Mrustc.Mir.FoldExact
import Mrustc.Mir.Folding
import Mrustc.Mir.Monomorph
import Mrustc.Mir.ConstGenerics
import Mrustc.Trace.Simulation
import Mrustc.Mir.Cfg
import Mrustc.Mir.BlockSimplify
import Mrustc.Depth.Loops
import Mrustc.Mir.BlockTargets
import Mrustc.Mir.SkipGotos
import Mrustc.Mir.BlockContents
import Mrustc.Mir.MergeBlocks
import Mrustc.Mir.BlockSimplifySound
import Mrustc.Mir.UnifyBlocks
import Mrustc.Mir.SameBlocks
import Mrustc.Mir.UnifyBlocksSound
import Mrustc.Mir.Invalidation
import Mrustc.Mir.Monotone
import Mrustc.Mir.NoopRemoval
import Mrustc.Mir.NoopRemovalSound
import Mrustc.Mir.Edits
import Mrustc.Mir.ConstPropagate
import Mrustc.Codec.Reading
import Mrustc.Serialise.Lowlevel
import Mrustc.Serialise.Inverse
import Mrustc.Serialise.ReadBuffer
import Mrustc.RcString.TieredSet
import Mrustc.RcString.Interning
import Mrustc.Depth.Search
import Mrustc.Numbering.Renumbers
import Mrustc.Mir.GarbageCollect
import Mrustc.Mir.Traverse
import Mrustc.Mir.Compaction
import Mrustc.Mir.GarbageCollectSound
import Mrustc.Mir.SortBlocksSound
import Mrustc.Mir.PropagateKnownValues
import Mrustc.Mir.BlockOrigins
import Mrustc.Mir.KnownSources
import Mrustc.Mir.Points
import Mrustc.Mir.KnownFields
import Mrustc.Mir.KnownPass
import Mrustc.Mir.KnownValuesSound
import Mrustc.ConstEval.Bytes
import Mrustc.ConstEval.Values
import Mrustc.ConstEval.BitIntrinsics
import Mrustc.ConstEval.BitIntrinsicsExact
import Mrustc.ConstEval.Arith
import Mrustc.ConstEval.ArithUnsigned
import Mrustc.ConstEval.ArithSigned
import Mrustc.ConstEval.ArithExact
import Mrustc.Rounding.Nearest
import Mrustc.ConstEval.Floats
import Mrustc.ConstEval.Cast
import Mrustc.ConstEval.CastExact
import Mrustc.Layout.Placement
import Mrustc.Trans.TypeRepr
import Mrustc.Trans.RunningOffset
import Mrustc.Trans.StructFields
import Mrustc.Trans.LayoutValid
import Mrustc.Trans.TypeVisitor
import Mrustc.Trans.TypeOrder
import Mrustc.Trans.TypeVisits
import Mrustc.ConstEval.EncodeFloat
import Mrustc.Minicargo.Cfg
import Mrustc.Minicargo.Features
import Mrustc.Minicargo.FeatureClosure
import Mrustc.Minicargo.FeatureRuns
import Mrustc.Parse.BlockComments
import Mrustc.Parse.Literals
import Mrustc.Parse.LongestSymbol
import Mrustc.Parse.Numbers
import Mrustc.Parse.Lookahead
import Mrustc.Parse.LookaheadTokens
import Mrustc.Parse.NumberRuns
import Mrustc.Parse.CutTokens
import Mrustc.Parse.CutTokensLost
import Mrustc.Parse.TrailingNewline
import Mrustc.Location.Moves
import Mrustc.Minicargo.Path
import Mrustc.Minicargo.PathLocation
import Mrustc.Minicargo.PathSpellings
import Mrustc.Minicargo.Version
import Mrustc.Minicargo.Comparators
import Mrustc.Minicargo.Requirement
import Mrustc.Minicargo.Requirements
import Mrustc.Miri.PrimitiveValue
import Mrustc.Miri.Operators
import Mrustc.Miri.RustArithmetic
import Mrustc.Miri.RustOperators
import Mrustc.Impls.HeaderTypes
import Mrustc.Impls.Overlap
import Mrustc.Impls.Matching
import Mrustc.Impls.MatchRuns
import Mrustc.Impls.GroundInstances
import Mrustc.Impls.OverlapTests
import Mrustc.Impls.OverlapExact
import Mrustc.AdjacentSwaps.Swaps
import Mrustc.Comparison.Partial
import Mrustc.MatchRules.Rules
import Mrustc.MatchRules.SortRulesets
import Mrustc.MatchRules.Values
import Mrustc.MatchRules.Disjoint
import Mrustc.MatchRules.Orders
import Mrustc.MatchRules.Steps
import Mrustc.MatchRules.Sorts
import Mrustc.MatchRules.Recursion
import Mrustc.MatchRules.Moves
import Mrustc.MatchRules.SortSafe
