import SqlDispatch.Command.Text
import SqlDispatch.Main
import SqlDispatch.Token.Grammar
import SqlDispatch.Proofs.Arguments.Grammar
import SqlDispatch.Proofs.Arguments.Layout
import SqlDispatch.Proofs.Command.RoundTrip
import SqlDispatch.Proofs.Command.Written
import SqlDispatch.Proofs.Layout
import SqlDispatch.Proofs.Preparation
import SqlDispatch.Proofs.Routing
import SqlDispatch.Proofs.Streaming.Directive
import SqlDispatch.Proofs.Token.Partition
import SqlDispatch.Proofs.Token.Layout
import SqlDispatch.Proofs.Token.Quoting
import SqlDispatch.Proofs.Token.Reference
import SqlDispatch.Proofs.Token.Extension
import SqlDispatch.Proofs.Execution
import SqlDispatch.Proofs.Streaming.Run
import SqlDispatch.Proofs.Streaming.RoundTrip
import SqlDispatch.Proofs.Target
import SqlDispatch.Proofs.Arguments.Fault
import SqlDispatch.Proofs.Arguments.Precedence
import SqlDispatch.Proofs.Arguments.Surplus
import SqlDispatch.Proofs.Arguments.Order
import SqlDispatch.Proofs.Fault
import SqlDispatch.Proofs.Shell.Line
import SqlDispatch.Proofs.Shell.Run
import SqlDispatch.Proofs.Shell.Stop
import SqlDispatch.Proofs.Shell.Breakage
import SqlDispatch.Proofs.Case
import SqlDispatch.Proofs.Config
import SqlDispatch.Proofs.Arguments.Integer
import SqlDispatch.Proofs.Streaming.Quantity
import SqlDispatch.Proofs.Streaming.Agreement
import SqlDispatch.Proofs.Command.Lookup
import SqlDispatch.Proofs.History
import SqlDispatch.Proofs.Shell.Padding
import SqlDispatch.Proofs.Token.Comment
import SqlDispatch.Proofs.Token.Progress
