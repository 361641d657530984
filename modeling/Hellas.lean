import Hellas.Lib.Words
import Hellas.Lib.Guard
import Hellas.Lib.Slots
import Hellas.Lib.Codec
import Hellas.Lib.Runs
import Hellas.Lib.OneUse
import Hellas.Lib.Bits
import Hellas.Lib.Trie
import Hellas.Lib.Lineage
import Hellas.Lib.Cbor
import Hellas.Lib.Text
import Hellas.Lib.Retry
import Hellas.Lib.Pieces
import Hellas.Lib.Lists
import Hellas.Kernel.Canonical
import Hellas.Kernel.Primitive
import Hellas.Kernel.Context
import Hellas.Kernel.Auth
import Hellas.Kernel.Error
import Hellas.Kernel.Object
import Hellas.Kernel.Terms
import Hellas.Kernel.Registry
import Hellas.Kernel.Store
import Hellas.Kernel.Lease
import Hellas.Kernel.Settlement
import Hellas.Kernel.Contest
import Hellas.Kernel.Tx
import Hellas.Kernel.Identity
import Hellas.Kernel.Event
import Hellas.Kernel.Price
import Hellas.Kernel.Open
import Hellas.Kernel.Moves
import Hellas.Kernel.Close
import Hellas.Kernel.State
import Hellas.Kernel.Fold
import Hellas.Kernel.Accepted
import Hellas.Kernel.Opened
import Hellas.Kernel.Effects
import Hellas.Kernel.Faults
import Hellas.Kernel.Reassembly
import Hellas.Invariants.Conservation
import Hellas.Invariants.Wire
import Hellas.Invariants.Hashed
import Hellas.Invariants.OneUse
import Hellas.Invariants.Records
import Hellas.Invariants.Registry
import Hellas.Invariants.Exits
import Hellas.Invariants.Insurance
import Hellas.Invariants.Contest
import Hellas.Invariants.Channel
import Hellas.Invariants.Authority
import Hellas.Invariants.Delegation
import Hellas.Invariants.Preimages
import Hellas.Invariants.Projection
import Hellas.Invariants.Enforced
import Hellas.Chain.Domain
import Hellas.Chain.OwnerProof
import Hellas.Chain.OwnerNodes
import Hellas.Chain.OwnerTree
import Hellas.Chain.Holdings
import Hellas.Chain.PathProof
import Hellas.Chain.PageSound
import Hellas.Chain.Owned
import Hellas.Chain.Filed
import Hellas.Chain.History
import Hellas.Chain.Pages
import Hellas.Chain.Execution
import Hellas.Chain.Proposal
import Hellas.Authority.Types
import Hellas.Authority.State
import Hellas.Authority.Lineage
import Hellas.Authority.Steps
import Hellas.Authority.Sound
import Hellas.Authority.Permanence
import Hellas.Authority.Escalation
import Hellas.Grants.Budget
import Hellas.Grants.Ledger
import Hellas.Grants.Exposure
import Hellas.Grants.Tree
import Hellas.Grants.Pricing
import Hellas.Grants.Bill
import Hellas.Work.Records
import Hellas.Work.Book
import Hellas.Work.State
import Hellas.Work.Moves
import Hellas.Work.Reached
import Hellas.Work.Cutoff
import Hellas.Work.Credit
import Hellas.Work.Earned
import Hellas.Work.Observe
import Hellas.Work.CrashSafe
import Hellas.Invocation.Stream
import Hellas.Invocation.Output
import Hellas.Invocation.Batch
import Hellas.Invocation.Binding
import Hellas.Invocation.Incremental
import Hellas.Invocation.Producer
import Hellas.Invocation.Produced
import Hellas.Invocation.Completed
import Hellas.Invocation.Signed
import Hellas.Invocation.Finished
import Hellas.Xet.Content
import Hellas.Xet.Injective
import Hellas.Wire.Frame
import Hellas.Wire.Mux
import Hellas.Wire.Flow
import Hellas.Wire.Ends
import Hellas.Wire.Lane
import Hellas.Wire.Delivery
import Hellas.Wire.Link
import Hellas.Wire.Moves
import Hellas.Wire.Faithful
import Hellas.Wire.Framing
