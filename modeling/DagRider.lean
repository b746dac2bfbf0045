import DagRider.Lib.OrderedMap
import DagRider.Lib.UnorderedMap
import DagRider.Lib.Run
import DagRider.Lib.Framing
import DagRider.Lib.Json
import DagRider.Lib.StackSearch
import DagRider.Model.Vertex
import DagRider.Model.Consensus
import DagRider.Model.Wire
import DagRider.Model.Network
import DagRider.Node.Steps
import DagRider.Node.Proposals
import DagRider.Node.Growth
import DagRider.Node.Rounds
import DagRider.Lib.CausalGraph
import DagRider.Node.Membership
import DagRider.Node.Admission
import DagRider.Node.Ordering
import DagRider.Node.Parents
import DagRider.Agreement.History
import DagRider.Agreement.Views
import DagRider.Agreement.Leaders
import DagRider.Agreement.Delivery
import DagRider.Agreement.Order
import DagRider.Model.Broadcaster
import DagRider.Transport.Sends
import DagRider.Node.Drain
import DagRider.Model.Transactions
import DagRider.Model.Pipeline
import DagRider.Transport.Turns
import DagRider.Transport.Routing
import DagRider.Transport.Interleaving
import DagRider.Transport.Batching
import DagRider.Transport.Messages
import DagRider.Transport.Pipeline
import DagRider.Lib.Labels
import DagRider.Search.Reachability
import DagRider.Search.Ending
import DagRider.Agreement.Layout
import DagRider.Agreement.Causality
import DagRider.Lib.GreedyCover
import DagRider.Node.WeakEdges
import DagRider.Agreement.Broadcast
import DagRider.Node.Digest
import DagRider.Lib.Stride
import DagRider.Agreement.Reduction
import DagRider.Agreement.Rotation
import DagRider.Lib.Decimal
import DagRider.Lib.Delivery
import DagRider.Lib.JsonMap
import DagRider.Model.Config
import DagRider.Config.RoundTrip
import DagRider.Node.Arrival
import DagRider.Hashes.Decoding
import DagRider.Model.Hashing
import DagRider.Hashes.Blocks
import DagRider.Transport.Failures
import DagRider.Config.Addresses
import DagRider.Lib.Hexadecimal
import DagRider.Model.Keys
import DagRider.Config.Keys
import DagRider.Config.Lookups
import DagRider.Search.Progress
import DagRider.Node.Counter
import DagRider.Node.Deliveries
import DagRider.Lib.Simulation
import DagRider.Lib.Threads
import DagRider.Model.Channel
import DagRider.Channel.Locking
import DagRider.Channel.Refinement
import DagRider.Channel.Waking
import DagRider.Liveness.Passes
import DagRider.Liveness.Rounds
import DagRider.Liveness.Lockstep
import DagRider.Liveness.Commits
import DagRider.Liveness.Waves
import DagRider.Lib.SearchCost
import DagRider.Search.Cost
import DagRider.Lib.Merge
import DagRider.Model.Receiver
import DagRider.Transport.Serving
import DagRider.Transport.Clients
import DagRider.Transport.Settling
import DagRider.Transport.Acknowledgements
import DagRider.Agreement.Certified
import DagRider.Model.Coordinator
import DagRider.Transport.Blocks
import DagRider.Transport.Listening
import DagRider.Transport.Undelivered
