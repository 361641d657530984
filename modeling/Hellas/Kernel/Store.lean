import Hellas.Kernel.Registry
import Hellas.Lib.Slots

-- The staged store a transaction reads and writes.

namespace Hellas.Kernel

open Guard

structure Batch where
  coins : Slots CoinId Coin
  edges : Slots EdgeId Edge
  registry : Slots RegistryChunkId RegistryChunk
  deriving DecidableEq

-- Whether the host's backend takes an insert it is asked for. Occupancy is decided before it.
structure Backend where
  takesCoin : Batch → CoinId → Bool
  takesEdge : Batch → EdgeId → Bool
  takesChunk : Batch → RegistryChunkId → Bool

-- A store that accepts every insert at a free id.
def Backend.acceptAll : Backend := ⟨fun _ _ => true,fun _ _ => true,fun _ _ => true⟩

namespace Batch

def empty : Batch := ⟨∅,∅,∅⟩

def coin (batch : Batch) (id : CoinId) : Option Coin := batch.coins.lookup id
def edge (batch : Batch) (id : EdgeId) : Option Edge := batch.edges.lookup id
def registryChunk (batch : Batch) (id : RegistryChunkId) : Option RegistryChunk := batch.registry.lookup id

def insertCoin (backend : Backend) (batch : Batch) (id : CoinId) (coin : Coin) :
    Except InsertError Batch := do
  rejectIf (batch.coin id).isSome .alreadyExists
  rejectIf (backend.takesCoin batch id = false) .unavailable
  pure { batch with coins := batch.coins.insert id coin }

def insertEdge (backend : Backend) (batch : Batch) (id : EdgeId) (edge : Edge) :
    Except InsertError Batch := do
  rejectIf (batch.edge id).isSome .alreadyExists
  rejectIf (backend.takesEdge batch id = false) .unavailable
  pure { batch with edges := batch.edges.insert id edge }

def insertRegistryChunk (backend : Backend) (batch : Batch) (id : RegistryChunkId) (chunk : RegistryChunk) : Except InsertError Batch := do
  rejectIf (batch.registryChunk id).isSome .alreadyExists
  rejectIf (backend.takesChunk batch id = false) .unavailable
  pure { batch with registry := batch.registry.insert id chunk }

def removeCoin (batch : Batch) (id : CoinId) : Option Coin × Batch := (batch.coin id, { batch with coins := batch.coins.erase id })

def removeEdge (batch : Batch) (id : EdgeId) : Option Edge × Batch := (batch.edge id, { batch with edges := batch.edges.erase id })

def removeRegistryChunk (batch : Batch) (id : RegistryChunkId) : Option RegistryChunk × Batch :=
  (batch.registryChunk id, { batch with registry := batch.registry.erase id })

end Batch

-- A write replaces the slot whole; a delete must find something to delete.
def RegistryMutation.fold (backend : Backend) (batch : Batch) (mutation : RegistryMutation) :
    Except ApplyError Batch :=
  match mutation.chunk with
  | some chunk =>
    let (_, cleared) := batch.removeRegistryChunk mutation.id
    (cleared.insertRegistryChunk backend mutation.id chunk).mapError (.registryChunkInsertRejected mutation.id)
  | none =>
    match batch.removeRegistryChunk mutation.id with
    | (some _, cleared) => .ok cleared
    | (none, _) => .error (.missingRegistryChunk mutation.id)

def RegistryDiff.fold (backend : Backend) (batch : Batch) (diff : RegistryDiff) :
    Except ApplyError Batch :=
  diff.mutations.foldlM (RegistryMutation.fold backend) batch

end Hellas.Kernel
