import QubitRouting.Main
import QubitRouting.Simulation.Complex
import QubitRouting.Simulation.Fixed
import QubitRouting.Table.Record
import QubitRouting.Proofs.Simulation.Cnot
import QubitRouting.Proofs.Relay.Emission
import QubitRouting.Proofs.Search.Invariant
import QubitRouting.Proofs.Relay.Path
import QubitRouting.Proofs.Search.Meaning
import QubitRouting.Proofs.Routing.Replacement
import QubitRouting.Proofs.Device.Coupling
import QubitRouting.Proofs.Device.Distance
import QubitRouting.Proofs.Search.Bound
import QubitRouting.Proofs.Search.Pruning
import QubitRouting.Proofs.Search.Walking
import QubitRouting.Proofs.Search.Choice
import QubitRouting.Proofs.Table.Entries
import QubitRouting.Proofs.Table.Cheapest
import QubitRouting.Proofs.Table.Completeness
import QubitRouting.Proofs.Table.Meaning
import QubitRouting.Proofs.Template.Gates
import QubitRouting.Proofs.Template.Method
import QubitRouting.Proofs.Template.Root
import QubitRouting.Proofs.Template.Meaning
import QubitRouting.Proofs.Cancellation.Adjacent
import QubitRouting.Proofs.Cancellation.Sweep
import QubitRouting.Proofs.Cancellation.NormalForm
import QubitRouting.Proofs.Cancellation.Meaning
import QubitRouting.Proofs.Placement.Search
import QubitRouting.Proofs.Relay.Native
import QubitRouting.Proofs.Table.Native
import QubitRouting.Proofs.Template.Native
import QubitRouting.Proofs.Routing.Compliance
import QubitRouting.Proofs.Routing.Targets
import QubitRouting.Proofs.Device.Description
import QubitRouting.Proofs.Table.Cache
import QubitRouting.Proofs.Session.Invariant
import QubitRouting.Proofs.Placement.Candidates
import QubitRouting.Proofs.Placement.Exhaustive
import QubitRouting.Proofs.Placement.Greedy
import QubitRouting.Proofs.Simulation.Relocation
import QubitRouting.Proofs.Placement.Meaning
import QubitRouting.Proofs.Simulation.Inverse
import QubitRouting.Proofs.Search.Simple
import QubitRouting.Proofs.Table.Width
import QubitRouting.Proofs.Table.Price
import QubitRouting.Proofs.Relay.Price
import QubitRouting.Proofs.Search.Price
import QubitRouting.Proofs.Routing.Price
import QubitRouting.Proofs.Template.Price
import QubitRouting.Proofs.Placement.Histogram
import QubitRouting.Proofs.Placement.Estimate
import QubitRouting.Proofs.Placement.Growth
import QubitRouting.Proofs.Placement.Order
import QubitRouting.Circuit.Editing
import QubitRouting.Proofs.Text.Padding
import QubitRouting.Proofs.Device.Format
import QubitRouting.Proofs.Circuit.Depth
import QubitRouting.Proofs.Circuit.Editing
import QubitRouting.Proofs.Circuit.Relabelling
import QubitRouting.Proofs.Simulation.InPlace
import QubitRouting.Proofs.Search.Admissible
import QubitRouting.Proofs.Json.RoundTrip
