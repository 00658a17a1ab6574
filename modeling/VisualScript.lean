import VisualScript.Catalog.Basic
import VisualScript.Catalog.Memory
import VisualScript.Class.Basic
import VisualScript.Class.Json
import VisualScript.Class.Source
import VisualScript.Graph.Edit
import VisualScript.Graph.Json
import VisualScript.Graph.Method
import VisualScript.Graph.Node
import VisualScript.Graph.Pin
import VisualScript.Graph.Wiring
import VisualScript.Json.Decode
import VisualScript.Json.Document
import VisualScript.Json.Read
import VisualScript.Json.Scan
import VisualScript.Json.Value
import VisualScript.Json.Write
import VisualScript.Naming
import VisualScript.Number.Binary64
import VisualScript.Number.Decimal
import VisualScript.Order.SortedSet
import VisualScript.Project.Basic
import VisualScript.Project.Build
import VisualScript.Source.Body
import VisualScript.Source.Code
import VisualScript.Source.Config
import VisualScript.Source.Line
import VisualScript.Source.Operand
import VisualScript.Types.Basic
import VisualScript.Types.Json
import VisualScript.Types.Reflected
import VisualScript.Proofs.Graph.Ends
import VisualScript.Proofs.Graph.Links
import VisualScript.Proofs.Graph.Wiring
import VisualScript.Proofs.Graph.Nodes
import VisualScript.Proofs.Graph.Consistency
import VisualScript.Proofs.Graph.Effects
import VisualScript.Proofs.Graph.Counter
import VisualScript.Proofs.Graph.Reversal
import VisualScript.Proofs.Graph.History
import VisualScript.Proofs.Source.Derivation
import VisualScript.Proofs.Source.Rows
import VisualScript.Proofs.Source.Scoping
import VisualScript.Proofs.Source.Order
import VisualScript.Proofs.Source.Ways
import VisualScript.Proofs.Source.Acceptance
import VisualScript.Proofs.Source.Failure
import VisualScript.Proofs.Source.Alarms
import VisualScript.Proofs.Source.Built
import VisualScript.Proofs.Graph.Refusal
import VisualScript.Proofs.Catalog.Closure
import VisualScript.Proofs.Source.Renaming
import VisualScript.Proofs.Source.Lockstep
import VisualScript.Proofs.Source.Invariance
import VisualScript.Proofs.Graph.Restoration
import VisualScript.Proofs.Graph.Loading
import VisualScript.Proofs.Json.RoundTrip
import VisualScript.Proofs.Json.Reading
import VisualScript.Proofs.Json.Decoded
import VisualScript.Proofs.Graph.Chronicle
import VisualScript.Proofs.Source.Grammar
import VisualScript.Proofs.Source.Blocks
import VisualScript.Proofs.Source.Capture
import VisualScript.Proofs.Project.ClassNames
import VisualScript.Proofs.Class.Members
import VisualScript.Proofs.Project.FreshNames
import VisualScript.Proofs.Project.Building
import VisualScript.Proofs.Graph.Rollback
import VisualScript.Proofs.Catalog.Search
import VisualScript.Proofs.Source.Termination
import VisualScript.Proofs.Source.Rereading
import VisualScript.Proofs.Graph.Admission
import VisualScript.Proofs.Class.Declaring
import VisualScript.Proofs.Json.Reordering
import VisualScript.Proofs.Catalog.Filling
import VisualScript.Proofs.Source.EnumFlags
import VisualScript.Proofs.Source.Locals
import VisualScript.Proofs.Source.Quoting
import VisualScript.Proofs.Graph.Canonical
import VisualScript.Proofs.Graph.Turns
