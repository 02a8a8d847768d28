import Mundart.Command.Arguments
import Mundart.Command.Basic
import Mundart.Command.Flag
import Mundart.Command.Outcome
import Mundart.Command.Repl
import Mundart.Command.Setup
import Mundart.Command.Suggestion
import Mundart.Dict
import Mundart.Failure
import Mundart.Fetch
import Mundart.Http.Message
import Mundart.Http.Status
import Mundart.Json.Basic
import Mundart.Json.Read
import Mundart.Log.Basic
import Mundart.Log.Event
import Mundart.Main
import Mundart.Method
import Mundart.Node.Basic
import Mundart.Node.Expression
import Mundart.Node.Statement
import Mundart.Number.Based
import Mundart.Number.Double
import Mundart.Number.Layout
import Mundart.Number.Reading
import Mundart.Number.Shortest
import Mundart.Outline.Basic
import Mundart.Outline.Resolve
import Mundart.Outline.Yaml
import Mundart.Page.Basic
import Mundart.Page.Dashboard
import Mundart.Page.Playground
import Mundart.Random
import Mundart.Run.Action
import Mundart.Run.Eval
import Mundart.Run.Session
import Mundart.Scope
import Mundart.Service.Endpoint
import Mundart.Service.Record
import Mundart.Service.Rpc
import Mundart.Service.Server
import Mundart.Service.Submission
import Mundart.Sorting
import Mundart.Store.Basic
import Mundart.Store.Operation
import Mundart.Text.Basic
import Mundart.Text.Blank
import Mundart.Text.Lines
import Mundart.Text.Printable
import Mundart.Text.Quoted
import Mundart.Text.Rune
import Mundart.Time.Basic
import Mundart.Time.Reading
import Mundart.Token.Basic
import Mundart.Token.Rule
import Mundart.Token.Scan
import Mundart.Url.Address
import Mundart.Url.Basic
import Mundart.Url.Percent
import Mundart.Value.Arithmetic
import Mundart.Value.Basic
import Mundart.Value.Display
import Mundart.Value.Json
import Mundart.Value.Order
import Mundart.Value.Trusted
import Mundart.Proofs.Dict
import Mundart.Proofs.Token.Content
import Mundart.Proofs.Token.Cut
import Mundart.Proofs.Token.Lexeme
import Mundart.Proofs.Number.Decimal
import Mundart.Proofs.Grammar.Form
import Mundart.Proofs.Grammar.Derivation
import Mundart.Proofs.Grammar.Derivation.Expressions
import Mundart.Proofs.Grammar.Derivation.Statements
import Mundart.Proofs.Grammar.Derivation.Formed
import Mundart.Proofs.Grammar.Canonical
import Mundart.Proofs.Grammar.RoundTrip.Productions
import Mundart.Proofs.Grammar.RoundTrip.Expressions
import Mundart.Proofs.Grammar.RoundTrip.Operands
import Mundart.Proofs.Grammar.RoundTrip.Statements
import Mundart.Proofs.Grammar.RoundTrip
import Mundart.Proofs.Value.Orderly
import Mundart.Proofs.Run.Built
import Mundart.Proofs.Run.Law
import Mundart.Proofs.Run.Frame
import Mundart.Proofs.Run.Fuel
import Mundart.Proofs.Run.Sound
import Mundart.Proofs.Run.Halting
import Mundart.Proofs.Store.History
import Mundart.Proofs.Store.Consistency
import Mundart.Proofs.Store.Lifecycle
import Mundart.Proofs.Run.Growth
import Mundart.Proofs.Run.Coupling
import Mundart.Proofs.Run.StepLimit
import Mundart.Proofs.Run.Record
import Mundart.Proofs.Run.Mirroring
import Mundart.Proofs.Run.Interruption
import Mundart.Proofs.Grammar.Follow
import Mundart.Proofs.Grammar.Follow.Expressions
import Mundart.Proofs.Grammar.Follow.Statements
import Mundart.Proofs.Grammar.Joined
import Mundart.Proofs.Token.Seam
import Mundart.Proofs.Run.Composition
import Mundart.Proofs.Value.Literal
import Mundart.Proofs.Run.ReadBack
import Mundart.Proofs.Service.Runnable
import Mundart.Proofs.Service.Interleaving
import Mundart.Proofs.Service.ExecutedRevision
import Mundart.Proofs.Service.Cancellation
import Mundart.Proofs.Service.RecordedOutcome
import Mundart.Proofs.Service.Submission
import Mundart.Proofs.Service.Evaluation
import Mundart.Proofs.Service.Refusal
import Mundart.Proofs.Run.Akin
import Mundart.Proofs.Run.Comment
import Mundart.Proofs.Text.Utf8
import Mundart.Proofs.Json.Lexical
import Mundart.Proofs.Json.RoundTrip
import Mundart.Proofs.Value.JsonRoundTrip
import Mundart.Proofs.Grammar.Yield
import Mundart.Proofs.Http.Field
import Mundart.Proofs.Service.Creation
import Mundart.Proofs.Number.Rank
import Mundart.Proofs.Number.Rounding
import Mundart.Proofs.Sorting.Derivation
import Mundart.Proofs.Value.Comparison
import Mundart.Proofs.Value.Equality
import Mundart.Proofs.Sorting.StableSort
import Mundart.Proofs.Sorting.Values
import Mundart.Proofs.Run.StoreBack
import Mundart.Proofs.Token.Boundary
import Mundart.Proofs.Token.Respaced
import Mundart.Proofs.Run.CountingLoop
import Mundart.Proofs.Number.Whole
import Mundart.Proofs.Value.FetchedIntegers
import Mundart.Proofs.Grammar.Nesting
import Mundart.Proofs.Outline.Written
import Mundart.Proofs.Outline.Decoding
import Mundart.Proofs.Outline.Listing
import Mundart.Proofs.Json.Double
import Mundart.Proofs.Json.Alike
import Mundart.Proofs.Value.JsonEncoders
import Mundart.Proofs.Value.Sequence
import Mundart.Proofs.Dict.History
import Mundart.Proofs.OrderedMap
import Mundart.Proofs.Memory.Sharing
import Mundart.Proofs.Memory.Maps
import Mundart.Proofs.Scope.Snapshot
import Mundart.Proofs.Run.Selection
import Mundart.Proofs.Scope.Lineage
import Mundart.Proofs.Run.CallDepth
import Mundart.Proofs.Store.Listings
import Mundart.Proofs.Value.IntegerArithmetic
import Mundart.Proofs.Grammar.Progress
import Mundart.Proofs.Grammar.Progress.Expressions
import Mundart.Proofs.Grammar.Progress.Statements
import Mundart.Proofs.Grammar.Termination
