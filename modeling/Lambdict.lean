import Lambdict.CommandLine.Options
import Lambdict.CommandLine.Run
import Lambdict.Desugar
import Lambdict.Environment
import Lambdict.Error
import Lambdict.Eval.Basic
import Lambdict.Eval.Primitive
import Lambdict.Eval.Store
import Lambdict.Expr.Basic
import Lambdict.Expr.Checked
import Lambdict.Expr.Equality
import Lambdict.Expr.Inspect
import Lambdict.Expr.Placement
import Lambdict.Expr.Surface
import Lambdict.Literal
import Lambdict.Main
import Lambdict.Name.Collect
import Lambdict.Name.Set
import Lambdict.Name.Supply
import Lambdict.Number.Basic
import Lambdict.Number.Double
import Lambdict.Number.Numeral
import Lambdict.Number.Shortest
import Lambdict.Outcome
import Lambdict.Primitive
import Lambdict.Program
import Lambdict.Proofs.Alone
import Lambdict.Proofs.Alpha
import Lambdict.Proofs.Apart
import Lambdict.Proofs.Calls.Basic
import Lambdict.Proofs.Calls.Draws
import Lambdict.Proofs.Calls.Hygiene
import Lambdict.Proofs.Calls.Outside
import Lambdict.Proofs.Collected
import Lambdict.Proofs.Construct
import Lambdict.Proofs.Depth
import Lambdict.Proofs.Dictionaries.Chains
import Lambdict.Proofs.Dictionaries.Maps
import Lambdict.Proofs.Dictionaries.Runs
import Lambdict.Proofs.DigitLimit
import Lambdict.Proofs.Equality
import Lambdict.Proofs.Equivalence
import Lambdict.Proofs.Expansion
import Lambdict.Proofs.FreeNames
import Lambdict.Proofs.Fresh
import Lambdict.Proofs.Identifiers
import Lambdict.Proofs.Lookup
import Lambdict.Proofs.Matching.Basic
import Lambdict.Proofs.Matching.Renaming
import Lambdict.Proofs.Matching.Simulation
import Lambdict.Proofs.Matching.Start
import Lambdict.Proofs.Matching.Substitution
import Lambdict.Proofs.Messages.Failure
import Lambdict.Proofs.Messages.Rewording
import Lambdict.Proofs.Messages.Run
import Lambdict.Proofs.Messages.Wording
import Lambdict.Proofs.Nameless.Alpha
import Lambdict.Proofs.Nameless.Basic
import Lambdict.Proofs.Nameless.Calls
import Lambdict.Proofs.Nameless.Renaming
import Lambdict.Proofs.Nameless.Substitution
import Lambdict.Proofs.Number.Arithmetic
import Lambdict.Proofs.Number.Rounding
import Lambdict.Proofs.Number.Shortest
import Lambdict.Proofs.Number.Text
import Lambdict.Proofs.Occurrences
import Lambdict.Proofs.OpenNames
import Lambdict.Proofs.Parsed
import Lambdict.Proofs.Printing.Form
import Lambdict.Proofs.Printing.RoundTrip
import Lambdict.Proofs.Printing.Running
import Lambdict.Proofs.Printing.Text
import Lambdict.Proofs.Printing.Written
import Lambdict.Proofs.Reading.Atoms
import Lambdict.Proofs.Reading.Decomposition
import Lambdict.Proofs.Reading.Grammar
import Lambdict.Proofs.Reading.Joining
import Lambdict.Proofs.Reading.Language
import Lambdict.Proofs.Reading.Lexing
import Lambdict.Proofs.Reading.Lookahead
import Lambdict.Proofs.Reading.Partition
import Lambdict.Proofs.Reading.Streams
import Lambdict.Proofs.Reading.Syntax
import Lambdict.Proofs.Requests
import Lambdict.Proofs.Safety.Checks
import Lambdict.Proofs.Safety.Run
import Lambdict.Proofs.Safety.Valid
import Lambdict.Proofs.Search
import Lambdict.Proofs.Sessions.Forms
import Lambdict.Proofs.Sessions.OneText
import Lambdict.Proofs.Sessions.Pieces
import Lambdict.Proofs.Sessions.State
import Lambdict.Proofs.Sharing
import Lambdict.Proofs.Simulation.Basic
import Lambdict.Proofs.Simulation.Eval
import Lambdict.Proofs.Simulation.Invariant
import Lambdict.Proofs.Simulation.Primitive
import Lambdict.Proofs.Sugar
import Lambdict.Proofs.Supplies
import Lambdict.Proofs.WellFormed
import Lambdict.Renaming
import Lambdict.SExpr
import Lambdict.Session
import Lambdict.Settings
import Lambdict.Strategy
import Lambdict.Substitution
import Lambdict.Text.Blank
import Lambdict.Text.Digit
import Lambdict.Text.Printable
import Lambdict.Text.Quoted
import Lambdict.Text.Utf8
import Lambdict.Text.Word
import Lambdict.Token
import Lambdict.TokenStream
