import BehaviorTree.Blackboard
import BehaviorTree.Build
import BehaviorTree.Command.Arguments
import BehaviorTree.Command.Perform
import BehaviorTree.Document
import BehaviorTree.Document.Fields
import BehaviorTree.Document.Read
import BehaviorTree.Document.Write
import BehaviorTree.Emission
import BehaviorTree.Fault
import BehaviorTree.Guard
import BehaviorTree.Guard.Game
import BehaviorTree.Json.Basic
import BehaviorTree.Json.Decode
import BehaviorTree.Json.Encode
import BehaviorTree.Json.Parse
import BehaviorTree.Main
import BehaviorTree.Mismatch
import BehaviorTree.Node
import BehaviorTree.Node.Position
import BehaviorTree.Node.Reset
import BehaviorTree.Node.Tick
import BehaviorTree.Number.Binary
import BehaviorTree.Number.Layout
import BehaviorTree.Number.Literal
import BehaviorTree.Number.Shortest
import BehaviorTree.Policy
import BehaviorTree.Proofs.Attendance
import BehaviorTree.Proofs.Bisimulation
import BehaviorTree.Proofs.Blueprint
import BehaviorTree.Proofs.Buildable
import BehaviorTree.Proofs.Cancellation
import BehaviorTree.Proofs.Clock
import BehaviorTree.Proofs.Columns
import BehaviorTree.Proofs.Completion
import BehaviorTree.Proofs.Confinement
import BehaviorTree.Proofs.Congruence
import BehaviorTree.Proofs.Course
import BehaviorTree.Proofs.Decision
import BehaviorTree.Proofs.Descendants
import BehaviorTree.Proofs.Duality
import BehaviorTree.Proofs.Embedding
import BehaviorTree.Proofs.Ending
import BehaviorTree.Proofs.Faithful
import BehaviorTree.Proofs.Flattening
import BehaviorTree.Proofs.Forgetting
import BehaviorTree.Proofs.Fresh
import BehaviorTree.Proofs.History
import BehaviorTree.Proofs.Location
import BehaviorTree.Proofs.Lookup
import BehaviorTree.Proofs.Meter
import BehaviorTree.Proofs.Numeral
import BehaviorTree.Proofs.Operation
import BehaviorTree.Proofs.Ownership
import BehaviorTree.Proofs.Pass
import BehaviorTree.Proofs.Permutation
import BehaviorTree.Proofs.Precedence
import BehaviorTree.Proofs.Progress
import BehaviorTree.Proofs.Provision
import BehaviorTree.Proofs.Recording
import BehaviorTree.Proofs.Reference
import BehaviorTree.Proofs.Refusal
import BehaviorTree.Proofs.Rendering
import BehaviorTree.Proofs.Repetition
import BehaviorTree.Proofs.Reread
import BehaviorTree.Proofs.Response
import BehaviorTree.Proofs.Resumption
import BehaviorTree.Proofs.Round
import BehaviorTree.Proofs.RoundTrip
import BehaviorTree.Proofs.Settled
import BehaviorTree.Proofs.Stack
import BehaviorTree.Proofs.Stall
import BehaviorTree.Proofs.Step
import BehaviorTree.Proofs.Store
import BehaviorTree.Proofs.Sweep
import BehaviorTree.Proofs.Trail
import BehaviorTree.Proofs.Unfolding
import BehaviorTree.Proofs.Verdict
import BehaviorTree.Proofs.Window
import BehaviorTree.Registry
import BehaviorTree.Status
import BehaviorTree.Text.Alignment
import BehaviorTree.Text.Hexadecimal
import BehaviorTree.Text.Inspection
import BehaviorTree.Text.Visible
import BehaviorTree.Trace
import BehaviorTree.Tree
import BehaviorTree.Vec3
import BehaviorTree.Yaml.Cursor
import BehaviorTree.Yaml.Decode
import BehaviorTree.Yaml.Node
import BehaviorTree.Yaml.Presentation
import BehaviorTree.Yaml.Printer
import BehaviorTree.Yaml.Scalar
import BehaviorTree.Yaml.Source
import BehaviorTree.Yaml.Token
import BehaviorTree.Yaml.Token.Property
import BehaviorTree.Yaml.Token.Scalar
import BehaviorTree.Yaml.Token.Stream
