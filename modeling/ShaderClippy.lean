import ShaderClippy.Rewriter.Substitution
import ShaderClippy.ControlFlow.EngineHistory
import ShaderClippy.ControlFlow.Barrier
import ShaderClippy.Lsp.Positions
import ShaderClippy.Lsp.DocumentSync
import ShaderClippy.Lsp.StaleFixes
import ShaderClippy.Lsp.FramingStream
import ShaderClippy.Lsp.Dispatcher
import ShaderClippy.Config.Glob
import ShaderClippy.Reflection.Engine
import ShaderClippy.Suppress.EndToEnd
import ShaderClippy.Suppress.LineEndings
import ShaderClippy.Hlsl.Arith
import ShaderClippy.Hlsl.Loose
import ShaderClippy.Hlsl.Product
import ShaderClippy.Hlsl.RealMeaning
import ShaderClippy.Rules.LerpOnBoolCond
import ShaderClippy.Rules.LiteralValue
import ShaderClippy.Rules.MulIdentity
import ShaderClippy.Rules.OperandSplice
import ShaderClippy.Rules.OperandStructure
import ShaderClippy.Rules.PowFix
import ShaderClippy.Cli.GithubAnnotation
import ShaderClippy.ControlFlow.Liveness
import ShaderClippy.Lib.SpliceRange
import ShaderClippy.Lint.DocumentOrder
import ShaderClippy.Rewriter.Atomicity
import ShaderClippy.Rules.PuritySoundness
import ShaderClippy.ControlFlow.BlockLocation
import ShaderClippy.ControlFlow.DiscardMarks
import ShaderClippy.ControlFlow.HelperLane
import ShaderClippy.Config.EmptyText
import ShaderClippy.ControlFlow.BarrierQuery
import ShaderClippy.ControlFlow.Lanes
import ShaderClippy.Lib.Brackets
import ShaderClippy.Lint.EmptyPath
import ShaderClippy.Lsp.ChangeRanges
import ShaderClippy.Lsp.Clamping
import ShaderClippy.Rewriter.Greedy
import ShaderClippy.Suppress.BraceScope
import ShaderClippy.Suppress.OwnLine
import ShaderClippy.Suppress.QuoteLines
import ShaderClippy.ControlFlow.Reducible
import ShaderClippy.ControlFlow.InsideLoop
import ShaderClippy.ControlFlow.LaneSecurity
import ShaderClippy.ControlFlow.UniformitySound
import ShaderClippy.Hlsl.Abutting
import ShaderClippy.Lib.AffineTerm
import ShaderClippy.Lib.BankLoad
import ShaderClippy.Lib.DigitRegister
import ShaderClippy.Lib.Trim
import ShaderClippy.Lib.Words
import ShaderClippy.Lsp.Debounce
import ShaderClippy.Lsp.HeaderFields
import ShaderClippy.Lsp.Uri
import ShaderClippy.Rewriter.Twins
import ShaderClippy.Rules.AttributeInteger
import ShaderClippy.Rules.BankConflict
import ShaderClippy.Rules.Clamp01
import ShaderClippy.Rules.GroupsharedBudget
import ShaderClippy.Rules.OperandEffects
import ShaderClippy.Rules.PowAgreement
import ShaderClippy.Cli.JsonOutput
import ShaderClippy.Rules.ByteOffset
import ShaderClippy.Rules.RayPayload
import ShaderClippy.ControlFlow.DefUse
import ShaderClippy.ControlFlow.Evaluation
import ShaderClippy.ControlFlow.LiveBlocks
import ShaderClippy.Lib.Overlap
import ShaderClippy.Lsp.RangeQueries
import ShaderClippy.Rules.GroupsharedNames
import ShaderClippy.Rules.GroupsharedOverwrite
import ShaderClippy.Rules.GroupsharedRace
import ShaderClippy.Rules.SameValue
import ShaderClippy.Rules.LiveState
import ShaderClippy.Hlsl.TokenText
import ShaderClippy.Hlsl.VectorMeaning
import ShaderClippy.Rules.ExcessInterpolators
import ShaderClippy.Rules.SampleGrad
import ShaderClippy.Rules.ScratchIndexing
import ShaderClippy.Rules.SqrtSubtraction
import ShaderClippy.Lib.ClampedDepth
import ShaderClippy.Lib.CommentZones
import ShaderClippy.Lib.GeneralFormat
import ShaderClippy.Rules.ArgumentSpans
import ShaderClippy.Rules.TextScan
import ShaderClippy.ControlFlow.GraphQueries
import ShaderClippy.ControlFlow.IdLayout
import ShaderClippy.ControlFlow.LoopRuns
import ShaderClippy.ControlFlow.UniformLeaves
import ShaderClippy.Hlsl.VectorFunctions
import ShaderClippy.Lib.FirstWins
import ShaderClippy.Lib.Havoc
import ShaderClippy.Lib.KeyedPool
import ShaderClippy.Lib.TextSearch
import ShaderClippy.Lib.TreeCursor
import ShaderClippy.Lint.CursorWalk
import ShaderClippy.Reflection.ReflectionError
import ShaderClippy.Reflection.SessionPool
import ShaderClippy.Rules.GuardFix
import ShaderClippy.Rules.LoopSample
import ShaderClippy.Rules.RegisterPressure
import ShaderClippy.Hlsl.Accesses
import ShaderClippy.Lib.BlockSlots
import ShaderClippy.Rules.DeadStore
import ShaderClippy.Rules.DeadStoreRuns
import ShaderClippy.Cli.FixRun
import ShaderClippy.Rules.ManualReflect
import ShaderClippy.Cli.Arguments
import ShaderClippy.Lib.LexicalPath
import ShaderClippy.Lsp.ClientView
import ShaderClippy.Lsp.MainLoop
import ShaderClippy.Lsp.QuickFix
import ShaderClippy.Cli.ExitCode
import ShaderClippy.ControlFlow.DivergentCf
import ShaderClippy.Rules.DivergentCalls
