import Hellas.Chain.Owned
import Hellas.Kernel.Accepted

-- Block execution: the host loads the slots a transaction may touch, applies the kernel to them
-- and replays what the kernel announces into the storage batch.

namespace Hellas.Chain

open Guard Kernel Words

def ExecutionError.isTransientForMempool : ExecutionError → Bool
  | .objectNotFound _ => true
  | .kernelApply (.invalidProof _ .timeoutNotReached) => true
  | _ => false

def ExecutionError.isFatalStorage : ExecutionError → Bool
  | .storage _ | .kernelHostContract _ => true
  | _ => false

-- A declared slot is in its list whether or not it holds anything; `staged` is what they hold.
structure BlockWorkingSet where
  coins : List CoinId
  edges : List EdgeId
  registry : List RegistryChunkId
  staged : Batch

namespace BlockWorkingSet

def new : BlockWorkingSet := ⟨[],[],[],.empty⟩

def insertCoinSlot (working : BlockWorkingSet) (id : CoinId) (coin : Option Kernel.Coin) :
    BlockWorkingSet :=
  { working with
    coins := id :: working.coins
    staged := { working.staged with coins := working.staged.coins.set id coin } }

def insertEdgeSlot (working : BlockWorkingSet) (id : EdgeId) (edge : Option Edge) :
    BlockWorkingSet :=
  { working with
    edges := id :: working.edges
    staged := { working.staged with edges := working.staged.edges.set id edge } }

def insertRegistryChunkSlot (working : BlockWorkingSet) (id : RegistryChunkId) (chunk : Option RegistryChunk) : BlockWorkingSet :=
  { working with
    registry := id :: working.registry
    staged := { working.staged with registry := working.staged.registry.set id chunk } }

-- A write to a slot nobody declared is unavailable.
def backend (working : BlockWorkingSet) : Backend :=
  ⟨fun _ id => decide (id ∈ working.coins),fun _ id => decide (id ∈ working.edges),
    fun _ id => decide (id ∈ working.registry)⟩

end BlockWorkingSet

namespace Object

def asCoin : Object → Option Kernel.Coin
  | .coin held => some held.toKernel
  | _ => none

def asEdge : Object → Option Edge
  | .edge held => some held
  | _ => none

def asRegistryChunk : Object → Option RegistryChunk
  | .registryChunk chunk => some chunk
  | _ => none

end Object

-- The three loaders obey one rule: an empty slot is declared too, a foreign object is refused.
def loadSlot (batches : Store) (id : ObjectId) (expected : ObjectKind) (view : Object → Option α) :
    Except ExecutionError (Option α) :=
  match batches.get id with
  | none => .ok none
  | some object =>
    match view object with
    | some value => .ok (some value)
    | none => .error (.wrongObjectKind id expected object.kind)

def loadCoinSlot (batches : Store) (working : BlockWorkingSet) (id : CoinId) :
    Except ExecutionError BlockWorkingSet :=
  working.insertCoinSlot id <$> loadSlot batches (coinObjectId id) .coin Object.asCoin

def loadEdgeSlot (batches : Store) (working : BlockWorkingSet) (id : EdgeId) :
    Except ExecutionError BlockWorkingSet :=
  working.insertEdgeSlot id <$> loadSlot batches (edgeObjectId id) .edge Object.asEdge

def loadRegistryChunkSlot (batches : Store) (working : BlockWorkingSet) (id : RegistryChunkId) :
    Except ExecutionError BlockWorkingSet :=
  working.insertRegistryChunkSlot id <$> loadSlot batches (registryChunkObjectId id) .registryChunk Object.asRegistryChunk

def Move.paymentEdge : Move → EdgeId
  | .startPaymentClose start => start.paymentEdge
  | .respondPaymentClose response => response.paymentEdge

inductive Transaction where
  | kernel (tx : Tx)
  deriving DecidableEq

-- The seven-bit groups a length takes on the wire.
def varintSize (value : Nat) : Nat :=
  if value < 128 then 1 else 1 + varintSize (value / 128)

def Transaction.encodeSize : Transaction → Nat
  | .kernel tx => 1 + varintSize (encodedSize tx) + encodedSize tx

section Execution

variable [Xet] [Sha256]

def bondLeaseSlots (network : NetworkId) (bond : EdgeId) : List RegistryChunkId :=
  [bondLeaseSlot network bond 0,bondLeaseSlot network bond 1]

def closeOutputIds (input : EdgeId) (outputs : Payouts) : List CoinId := Change.ids (closeCoins input outputs)

-- The payment edge a bond's loaded lease names, if the lease is whole.
def leasedPaymentEdge (working : BlockWorkingSet) (network : NetworkId) (bond : EdgeId) :
    Option EdgeId :=
  match readLeaseSlots working.staged network bond with
  | .present lease => some lease.paymentEdge
  | .absent | .faulty _ => none

-- Only a payment's open touches more than its coins and its edge: the bond and its lease.
def loadOpenSlots (batches : Store) (network : NetworkId) (working : BlockWorkingSet)
    (funding : Funding) (terms : Terms) : Except ExecutionError BlockWorkingSet := do
  let working ← funding.ids.foldlM (loadCoinSlot batches) working
  let working ← loadEdgeSlot batches working (Tx.edgeIdOf funding terms)
  match terms with
  | .workPayment payment => do
    let working ← loadEdgeSlot batches working payment.bondEdge
    (bondLeaseSlots network payment.bondEdge).foldlM (loadRegistryChunkSlot batches) working
  | _ => pure working

-- A bond's timeout is decided by its lease, and a present lease by the edge it names.
def loadTimeoutSlots (batches : Store) (network : NetworkId) (working : BlockWorkingSet)
    (input : EdgeId) : Proof → Except ExecutionError BlockWorkingSet
  | .timeout (.workStakeBond _) _ => do
    let working ← (bondLeaseSlots network input).foldlM (loadRegistryChunkSlot batches) working
    match leasedPaymentEdge working network input with
    | some paymentEdge => loadEdgeSlot batches working paymentEdge
    | none => pure working
  | _ => pure working

-- The two payment exits read the contest record, and its absence is an answer too.
def loadContestSlot (batches : Store) (network : NetworkId) (working : BlockWorkingSet)
    (input : EdgeId) (proof : Proof) : Except ExecutionError BlockWorkingSet :=
  match proof.kind with
  | .freeze | .adjudicated => loadRegistryChunkSlot batches working (pendingPaymentCloseSlot network input)
  | .mutualClose | .timeout => .ok working

def loadCloseSlots (batches : Store) (network : NetworkId) (working : BlockWorkingSet)
    (input : EdgeId) (proof : Proof) (outputs : Payouts) :
    Except ExecutionError BlockWorkingSet := do
  let working ← loadEdgeSlot batches working input
  let working ← (closeOutputIds input outputs).foldlM (loadCoinSlot batches) working
  let working ← loadContestSlot batches network working input proof
  loadTimeoutSlots batches network working input proof

def loadMoveSlots (batches : Store) (network : NetworkId) (working : BlockWorkingSet)
    (action : Move) : Except ExecutionError BlockWorkingSet := do
  let working ← loadEdgeSlot batches working (Move.paymentEdge action)
  loadRegistryChunkSlot batches working (pendingPaymentCloseSlot network (Move.paymentEdge action))

def loadReshapeSlots (batches : Store) (network : NetworkId) (working : BlockWorkingSet)
    (reshape : Reshape) : Except ExecutionError BlockWorkingSet := do
  let working ← reshape.inputs.items.foldlM (loadCoinSlot batches) working
  (Change.ids (Reshape.outputCoins network reshape.inputs reshape.outputs)).foldlM (loadCoinSlot batches) working

def loadKernelSlots (batches : Store) (context : Context) (tx : Tx) :
    Except ExecutionError BlockWorkingSet :=
  match tx with
  | .openEdge funding terms _ _ => loadOpenSlots batches context.network .new funding terms
  | .closeEdge input proof outputs => loadCloseSlots batches context.network .new input proof outputs
  | .move action => loadMoveSlots batches context.network .new action
  | .owner reshape => loadReshapeSlots batches context.network .new reshape

-- A missing object that was never there is the sender's; one that vanished is the host's.
def classifyKernelError (working : Batch) (source : ApplyError) : ExecutionError :=
  match source with
  | .missingCoin id =>
    if working.coin id = none then .objectNotFound (coinObjectId id)
    else .kernelHostContract source
  | .missingEdge id =>
    if working.edge id = none then .objectNotFound (edgeObjectId id)
    else .kernelHostContract source
  | .missingRegistryChunk id =>
    if working.registryChunk id = none then .objectNotFound (registryChunkObjectId id)
    else .kernelHostContract source
  | .coinChanged _ | .edgeChanged _ | .registryChunkChanged _ | .coinInsertRejected .. |
    .edgeInsertRejected .. | .registryChunkInsertRejected .. | .registryDiffRejected _ =>
    .kernelHostContract source
  | .outputExists _ | .edgeExists _ | .duplicateInput _ | .invalidOpen .. | .invalidClose .. |
    .invalidProof .. | .invalidMove .. | .invalidReshape _ => .kernelApply source

def replaySpent (working : Batch) (batches : Store) (id : CoinId) :
    Except (Store × ExecutionError) Store := do
  rejectIf (working.coin id).isSome (batches, .kernelHostContract (.coinChanged id))
  writeOwned batches (coinObjectId id) none

def replayIssued (working : Batch) (batches : Store) (id : CoinId) :
    Except (Store × ExecutionError) Store := do
  let coin ← okOr (working.coin id) (batches, .kernelHostContract (.missingCoin id))
  writeOwned batches (coinObjectId id) (some (.coin (Coin.ofKernel coin)))

-- The event is the authoritative diff, in its own order.
def replayKernelEvent (batches : Store) (working : Batch) :
    EventKind → Except (Store × ExecutionError) Store
  | .edgeOpened inputs output => do
    let batches ← inputs.foldlM (replaySpent working) batches
    let edge ← okOr (working.edge output) (batches, .kernelHostContract (.missingEdge output))
    writeOwned batches (edgeObjectId output) (some (.edge edge))
  | .edgeClosed input outputs => do
    rejectIf (working.edge input).isSome (batches, .kernelHostContract (.edgeChanged input))
    let batches ← writeOwned batches (edgeObjectId input) none
    outputs.foldlM (replayIssued working) batches
  | .coinsReshaped inputs outputs => do
    let batches ← inputs.foldlM (replaySpent working) batches
    outputs.foldlM (replayIssued working) batches

def replayMutation (working : Batch) (batches : Store) (mutation : RegistryMutation) :
    Except (Store × ExecutionError) Store := do
  rejectIf (working.registryChunk mutation.id ≠ mutation.chunk) (batches, .kernelHostContract (.registryChunkChanged mutation.id))
  pure (batches.write (registryChunkObjectId mutation.id) (mutation.chunk.map .registryChunk))

def replayKernelRegistry (batches : Store) (working : Batch) (registry : RegistryDiff) :
    Except (Store × ExecutionError) Store :=
  registry.mutations.foldlM (replayMutation working) batches

-- Lifetimes cost nothing on this chain, so consensus caps the span of every open.
def checkOpen (context : Context) : Tx → Except ExecutionError Unit
  | .openEdge _ terms _ _ =>
    rejectIf (saturatingSub terms.timeout.value context.blockHeight.value > maxEdgeLifetimeBlocks)
      (.edgeLifetimeExceeded (saturatingSub terms.timeout.value context.blockHeight.value) maxEdgeLifetimeBlocks)
  | _ => .ok ()

def replayPublicEvent (batches : Store) (working : Batch) :
    Option EventKind → Except (Store × ExecutionError) Store
  | some event => replayKernelEvent batches working event
  | none => .ok batches

-- A registry-only operation announces nothing, so the registry is replayed either way.
def replayOutcome (batches : Store) (working : Batch) (outcome : ApplyOutcome) :
    Except (Store × ExecutionError) Store := do
  let batches ← replayPublicEvent batches working outcome.publicEvent
  replayKernelRegistry batches working outcome.registry

def applyKernelTransaction (batches : Store) (context : Context) (verifier : SigVerifier)
    (tx : Tx) : Except (Store × ExecutionError) Store := do
  (checkOpen context tx).mapError fun error => (batches, error)
  let working ← (loadKernelSlots batches context tx).mapError fun error => (batches, error)
  let (outcome, applied) ← (State.apply working.backend context verifier working.staged tx).mapError
    fun source => (batches, classifyKernelError working.staged source)
  replayOutcome batches applied outcome

def applyTransaction (batches : Store) (context : Context) (verifier : SigVerifier) :
    Transaction → Except (Store × ExecutionError) Store
  | .kernel tx => applyKernelTransaction batches context verifier tx

-- Allocations past the last 16-bit index are cut off.
def genesisCoins (allocations : List (SettlementKey × UInt64)) : List (ObjectId × Coin) :=
  (allocations.take (2^16)).mapIdx fun index allocation => (genesisObjectId (UInt16.ofNat index), Coin.owned allocation.1 allocation.2)

def seedCoin (batches : Store) (seed : ObjectId × Coin) : Except (Store × ExecutionError) Store :=
  writeOwned batches seed.1 (some (.coin seed.2))

def maybeSeedGenesis (context : Context) (allocations : List (SettlementKey × UInt64)) (batches : Store) : Except ExecutionError Store :=
  if context.blockHeight.value ≠ 1 then .ok batches
  else ((genesisCoins allocations).foldlM seedCoin batches).mapError Prod.snd

-- One transaction after the other; the first refusal refuses the block.
def executeTransactions (context : Context) (verifier : SigVerifier) (batches : Store)
    (txs : List Transaction) : Except ExecutionError Store :=
  (txs.foldlM (fun batches tx => applyTransaction batches context verifier tx) batches).mapError
    Prod.snd

def executeAll (context : Context) (verifier : SigVerifier) (txs : List Transaction)
    (allocations : List (SettlementKey × UInt64)) (batches : Store) :
    Except ExecutionError Store := do
  let batches ← maybeSeedGenesis context allocations batches
  executeTransactions context verifier batches txs

end Execution

end Hellas.Chain
