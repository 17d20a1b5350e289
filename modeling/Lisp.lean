import Lisp.FileTree
import Lisp.Main
import Lisp.Proofs.RoundTrip
import Lisp.Proofs.Equality
import Lisp.Proofs.Trampoline
import Lisp.Proofs.FrameIsolation
import Lisp.Proofs.Pattern
import Lisp.Proofs.QuotedSpan
import Lisp.Proofs.MaximalMunch
import Lisp.Proofs.Grammar
import Lisp.Proofs.GrammarReading
import Lisp.Proofs.TokenTexts
import Lisp.Proofs.Inversion
import Lisp.Proofs.Wrapping
import Lisp.Proofs.Loading
import Lisp.Proofs.ReadValues
import Lisp.Proofs.LiteralEquality
import Lisp.Proofs.Sourced
import Lisp.Proofs.SourcedCalls
import Lisp.Proofs.SourcedRules
import Lisp.Proofs.SessionValues
import Lisp.Proofs.Ending
import Lisp.Proofs.Scope
import Lisp.Proofs.MacroExpansion
import Lisp.Proofs.Effect
import Lisp.Proofs.Writes
import Lisp.Proofs.Transcript
import Lisp.Proofs.FailedWrites
import Lisp.Proofs.PendingStack
import Lisp.Proofs.Misreading
import Lisp.Proofs.MisreadLoading
import Lisp.Proofs.Recurrence
import Lisp.Proofs.Reprinting
import Lisp.Proofs.Application
import Lisp.Proofs.Quasiquote
import Lisp.Proofs.Layout
import Lisp.Proofs.Comments
import Lisp.Proofs.Stopping
import Lisp.Proofs.Completion
import Lisp.Proofs.Cursor
import Lisp.Proofs.QuotedFormat
import Lisp.Proofs.QuotedTokens
import Lisp.Proofs.EnvHistory
import Lisp.Proofs.Binding
import Lisp.Proofs.ArithmeticFold
import Lisp.Proofs.SpecialForms
import Lisp.Proofs.Printing
import Lisp.Proofs.MapConstruction
import Lisp.Proofs.Remainder
import Lisp.Proofs.FirstFailure
import Lisp.Proofs.TailPositions
import Lisp.Proofs.Nesting
import Lisp.Proofs.TailLoop
import Lisp.Proofs.PrintCalls
import Lisp.Proofs.SequenceLaws
import Lisp.Proofs.CommandLine
