import Descent.Table
import Descent.Text
import Descent.Event
import Descent.Run
import Descent.Parser.Basic
import Descent.Parser.Combinator
import Descent.Numeral
import Descent.Binary64
import Descent.Decimal
import Descent.FloatLiteral
import Descent.Blank
import Descent.Value.Basic
import Descent.Value.Action
import Descent.Json.Number
import Descent.Json.Quoted
import Descent.Grammar
import Descent.Rule
import Descent.Store
import Descent.Blueprint
import Descent.ParseAll
import Descent.Json.Grammar
import Descent.Parens
import Descent.Template
import Descent.Session
import Descent.Proofs.Language
import Descent.Proofs.Assembly
import Descent.Proofs.Leftover
import Descent.Proofs.Outcome
import Descent.Proofs.Agreement
import Descent.Proofs.SelfReference
import Descent.Proofs.Nesting
import Descent.Proofs.FloatLiteral
import Descent.Proofs.Rounding
import Descent.Proofs.Radix
import Descent.Proofs.Conversion
import Descent.Proofs.Exponents
import Descent.Proofs.Blocks
import Descent.Proofs.Json.Number
import Descent.Proofs.Json.Integers
import Descent.Proofs.Json.Quoted
import Descent.Proofs.Json.Items
import Descent.Proofs.Json.Written
import Descent.Proofs.Json.Decode
import Descent.Proofs.Json.Answers
import Descent.Proofs.Json.Standard
import Descent.Proofs.Depth
import Descent.Proofs.Layout
import Descent.Proofs.Meaning
import Descent.Proofs.Progress
import Descent.Proofs.Termination
import Descent.Proofs.Substitution
import Descent.Proofs.Unfolding
import Descent.Proofs.Sources
import Descent.Proofs.Moves
import Descent.Proofs.Lifetimes
import Descent.Proofs.Forward
import Descent.Proofs.Handles
import Descent.Proofs.Congruence
import Descent.Proofs.Verbatim
import Descent.Proofs.Stalls
import Descent.Proofs.Bare
import Descent.Proofs.Erasure
import Descent.Proofs.Tracing
import Descent.Proofs.Spans
import Descent.Proofs.Flattening
import Descent.Proofs.Interpolation
import Descent.Proofs.Placeholders
import Descent.Proofs.Delimiters
import Descent.Proofs.Repetition
import Descent.Proofs.Doubling
import Descent.Proofs.Uses
import Descent.Proofs.Issues
import Descent.Proofs.Stages
import Descent.Proofs.Counting
