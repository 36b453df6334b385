import Offside.CommandLine.Report
import Offside.Lexeme.Rebuild
import Offside.Machine.Session
import Offside.Main
import Offside.Parse.Program
import Offside.Proofs.Attempt
import Offside.Proofs.LayoutStep
import Offside.Proofs.Spelling
import Offside.Tree.Json
import Offside.Proofs.Rebuild
import Offside.Proofs.TextLayout
import Offside.Proofs.Blocks
import Offside.Proofs.Homogeneous
import Offside.Proofs.Moves
import Offside.Proofs.ScopeTyping
import Offside.Proofs.StaticTypes
import Offside.Proofs.CursorTokens
import Offside.Proofs.Grammar
import Offside.Proofs.ParseExpr
import Offside.Proofs.ParseStmt
import Offside.Proofs.ParseDeclaration
import Offside.Proofs.ParseProgram
import Offside.Proofs.PlacedGrammar
import Offside.Proofs.ParsePlaces
import Offside.Proofs.InlineText
import Offside.Proofs.NumberText
import Offside.Proofs.SourceTokens
import Offside.Proofs.TokenText
import Offside.Proofs.PrintExpr
import Offside.Proofs.PrintStmt
import Offside.Proofs.PrintProgram
import Offside.Proofs.Rounding
import Offside.Proofs.RealBits
import Offside.Proofs.RealText
import Offside.Proofs.CallDepth
import Offside.Proofs.Requests
import Offside.Proofs.Strict.Basic
import Offside.Proofs.Strict.Lexemes
import Offside.Proofs.Strict.Reader
import Offside.Proofs.Strict.ReadExpr
import Offside.Proofs.Strict.ReadStmt
import Offside.Proofs.Strict.ReadProgram
import Offside.Proofs.Strict.Values
import Offside.Proofs.Strict.Machine
import Offside.Proofs.Strict.Session
import Offside.Proofs.CutOff
import Offside.Proofs.Statements
import Offside.Proofs.Failures
import Offside.Proofs.FaultOrigins
import Offside.Proofs.CallTargets
import Offside.Proofs.Spans
import Offside.Proofs.RebuiltProgram
import Offside.Proofs.ActiveCalls
import Offside.Proofs.Watched
import Offside.Proofs.WellFormed
import Offside.Proofs.ArgumentSlots
import Offside.Proofs.InputWords
import Offside.Proofs.ReadWritten
import Offside.Proofs.RawTokens
import Offside.Proofs.Tiling
import Offside.Proofs.NestedSpans
import Offside.Proofs.Places
import Offside.Proofs.WriteBack
import Offside.Proofs.CallReadings
import Offside.Proofs.Untouched
import Offside.Proofs.FirstValues
import Offside.Proofs.ClearedTexts
import Offside.Proofs.SteadyText
import Offside.Proofs.CutShort
import Offside.Proofs.FirstError
import Offside.Proofs.CheckedStores
import Offside.Proofs.WordOrder
import Offside.Proofs.CountedRounds
import Offside.Proofs.TextParts
import Offside.Proofs.LineReturns
import Offside.Proofs.MarkedEnd
import Offside.Proofs.ErrorPlaces
import Offside.Proofs.WrappedIntegers
import Offside.Proofs.SignedLiterals
import Offside.Proofs.FunctionTable
import Offside.Proofs.Strict.Progress
import Offside.Proofs.SourceLines
