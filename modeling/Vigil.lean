import Vigil.Number.Double
import Vigil.Number.Decimal
import Vigil.Number.Word
import Vigil.Time.Interval
import Vigil.Time.Instant
import Vigil.Text.Ranges
import Vigil.Text.Alphanumeric
import Vigil.Text.Identifier
import Vigil.Text.Hidden
import Vigil.Text.Utf8
import Vigil.Text.Quoted
import Vigil.Span
import Vigil.Ty
import Vigil.Operator
import Vigil.Fault
import Vigil.Value
import Vigil.Key
import Vigil.Table
import Vigil.Vec
import Vigil.Heap
import Vigil.Json.Basic
import Vigil.Json.Number
import Vigil.Json.Token
import Vigil.Json.Skim
import Vigil.Json.Reader
import Vigil.Doc.Basic
import Vigil.Doc.Encode
import Vigil.Doc.Decode
import Vigil.Diagnostic
import Vigil.Expr.Basic
import Vigil.Expr.Arith
import Vigil.Expr.Text
import Vigil.Expr.Check
import Vigil.Flow
import Vigil.Stmt.Basic
import Vigil.World.Basic
import Vigil.World.Trigger
import Vigil.World.Collection
import Vigil.Expr.Eval
import Vigil.Stmt.Dispatch
import Vigil.Stmt.Exec
import Vigil.World.Schedule
import Vigil.Build.Scope
import Vigil.Build.Expr
import Vigil.Build.Stmt
import Vigil.Script
import Vigil.Outline
import Vigil.Stmt.Text
import Vigil.Stmt.Walk
import Vigil.LineMap
import Vigil.Lint
import Vigil.Files
import Vigil.Sources
import Vigil.Config.Setting
import Vigil.Config.Path
import Vigil.Config.Toml.Token
import Vigil.Config.Toml.Quoted
import Vigil.Config.Toml.Scalar
import Vigil.Config.Toml.Tree
import Vigil.Config.Toml.Reader
import Vigil.Config.Json5
import Vigil.Config.Ini
import Vigil.Config.Ron
import Vigil.Config.Yaml.Cursor
import Vigil.Config.Yaml.Scalar
import Vigil.Config.Yaml.Token
import Vigil.Config.Yaml.Layout
import Vigil.Config.Yaml.Node
import Vigil.Config.Yaml.Reader
import Vigil.Config.Dotenv
import Vigil.Config.Pattern
import Vigil.Config.LogFilter
import Vigil.Config.Format
import Vigil.Config.Basic
import Vigil.Command
import Vigil.Main
import Vigil.Proofs.Trigger.Overrun
import Vigil.Proofs.Trigger.Listed
import Vigil.Proofs.Table.Iterations
import Vigil.Proofs.Table.Cursors
import Vigil.Proofs.Trigger.Deadlines
import Vigil.Proofs.Trigger.Sessions
import Vigil.Proofs.Switch.Scan
import Vigil.Proofs.Walk.Course
import Vigil.Proofs.Walk.Looks
import Vigil.Proofs.Doc.RoundTrip
import Vigil.Proofs.Typing.Returns
import Vigil.Proofs.Trigger.Evaluations
import Vigil.Proofs.Coverage.Histories
import Vigil.Proofs.Exec.Finite
import Vigil.Proofs.Build.Inferred
import Vigil.Proofs.Build.Landmarks
import Vigil.Proofs.Flow.Loops
import Vigil.Proofs.Lint.Unreachable
import Vigil.Proofs.Lint.Unused
import Vigil.Proofs.Flow.Returns
import Vigil.Proofs.Build.Unbroken
import Vigil.Proofs.Switch.Arms
import Vigil.Proofs.Flow.Bindings
import Vigil.Proofs.Exec.Slots
import Vigil.Proofs.Typing.Nesting
import Vigil.Proofs.Typing.Assignable
import Vigil.Proofs.Expr.Arithmetic
import Vigil.Proofs.Expr.Reading
