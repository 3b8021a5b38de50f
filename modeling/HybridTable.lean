import HybridTable.Number.Decimal
import HybridTable.Value.Basic
import HybridTable.Value.Key
import HybridTable.Value.Printed
import HybridTable.Error
import HybridTable.Table.Cell
import HybridTable.Table.Entry
import HybridTable.Table.Basic
import HybridTable.Table.Resize
import HybridTable.Table.Border
import HybridTable.Table.Construct
import HybridTable.Table.Shift
import HybridTable.Table.Traverse
import HybridTable.Objects.Basic
import HybridTable.Objects.Reclaim
import HybridTable.Sort.Heap
import HybridTable.World.Basic
import HybridTable.World.Dispatch
import HybridTable.World.Library
import HybridTable.Json.Basic
import HybridTable.Json.Bridge
import HybridTable.Json.Number
import HybridTable.Json.Parser
import HybridTable.Json.Printer
import HybridTable.Session.Answer
import HybridTable.Session.Command
import HybridTable.Session.Listing
import HybridTable.Session.State
import HybridTable.Session.Run
import HybridTable.Proofs.FiniteMap
import HybridTable.Proofs.Reachable
import HybridTable.Proofs.Traversal
import HybridTable.Proofs.Reclamation
import HybridTable.Proofs.WeakContents
import HybridTable.Proofs.HeapOrder
import HybridTable.Proofs.WriteBack
import HybridTable.Proofs.Capacities
import HybridTable.Proofs.Interchange
import HybridTable.Proofs.ValueOrder
import HybridTable.Proofs.Failures
import HybridTable.Proofs.JsonData
import HybridTable.Proofs.StoredKeys
import HybridTable.Proofs.Strength
import HybridTable.Proofs.Borders
import HybridTable.Proofs.Sizing
import HybridTable.Proofs.Safety
import HybridTable.Proofs.HandlerChains
import HybridTable.Proofs.Assigning
import HybridTable.Proofs.Writable
import HybridTable.Proofs.JsonMembers
import HybridTable.Proofs.ListShifts
import HybridTable.Proofs.ArrayLimit
import HybridTable.Proofs.SortedRun
import HybridTable.Proofs.Growth
import HybridTable.Proofs.GivenPairs
import HybridTable.Proofs.Unpacking
import HybridTable.Proofs.GeneralFormat
import HybridTable.Proofs.NormalForms
import HybridTable.Proofs.Joining
import HybridTable.Proofs.ChainLengths
