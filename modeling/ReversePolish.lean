import ReversePolish.Main
import ReversePolish.Proofs.Display.RoundTrip
import ReversePolish.Proofs.Evaluation.Depth
import ReversePolish.Proofs.Evaluation.Readability
import ReversePolish.Proofs.Evaluation.Resumption
import ReversePolish.Proofs.CommandLine.Arguments
import ReversePolish.Proofs.CommandLine.Placement
import ReversePolish.Proofs.CommandLine.Input
import ReversePolish.Proofs.Display.Escapes
import ReversePolish.Proofs.CommandLine.Plain
import ReversePolish.Proofs.Token.Unreadable
import ReversePolish.Proofs.CommandLine.Flags
import ReversePolish.Proofs.Session.Colour
import ReversePolish.Proofs.CommandLine.Colour
import ReversePolish.Proofs.Session.Titles
import ReversePolish.Proofs.Token.Words
import ReversePolish.Proofs.CommandLine.Conclusion
import ReversePolish.Proofs.Display.Columns
import ReversePolish.Proofs.Session.Pointers
import ReversePolish.Proofs.Evaluation.Verbosity
import ReversePolish.Proofs.Session.History
import ReversePolish.Proofs.Session.Silence
import ReversePolish.Proofs.CommandLine.Settings
import ReversePolish.Proofs.Token.Rounding
import ReversePolish.Proofs.Binary.Interval
import ReversePolish.Proofs.Decimal.Grid
import ReversePolish.Proofs.Display.Markers
import ReversePolish.Proofs.Evaluation.Padding
import ReversePolish.Proofs.Evaluation.Record
import ReversePolish.Proofs.Display.Shortest
import ReversePolish.Proofs.Evaluation.Frame
import ReversePolish.Proofs.Evaluation.Lines
import ReversePolish.Proofs.Binary.Widening
import ReversePolish.Proofs.Token.Source
import ReversePolish.Proofs.Display.Width
import ReversePolish.Proofs.Display.Cell
import ReversePolish.Proofs.Display.Layout
import ReversePolish.Proofs.Binary.Arithmetic
import ReversePolish.Proofs.Evaluation.Rewriting
import ReversePolish.Proofs.Evaluation.Arithmetic
import ReversePolish.Proofs.Literal.DoubleRounding
import ReversePolish.Proofs.Display.Canonical
