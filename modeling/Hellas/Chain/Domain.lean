import Hellas.Kernel.Registry
import Hellas.Lib.Slots

-- What the chain keeps under its object ids, and how the ids are made.

namespace Hellas.Chain

open Kernel

-- SHA-256 lives outside the repository; results that need it free of collisions say on which
-- preimages.
class Sha256 where
  hash : List UInt8 → FixedBytes 32

abbrev Digest := FixedBytes 32
abbrev ObjectId := Digest

-- A settlement key is the kernel's key under the chain's own name.
abbrev SettlementKey := Kernel.Key

def zeroDigest : Digest := ⟨List.replicate 32 0,List.length_replicate⟩

def maxEdgeLifetimeBlocks : UInt64 := 1000000
def ownerNodeBytes : Nat := 163

def genesisObjectId [Sha256] (validatorIndex : UInt16) : ObjectId := Sha256.hash (bytesOf "hellas-genesis" ++ encode validatorIndex)

def coinObjectId (id : CoinId) : ObjectId := id.raw
def edgeObjectId (id : EdgeId) : ObjectId := id.raw
def registryChunkObjectId (id : RegistryChunkId) : ObjectId := id.raw

structure Coin where
  owner : SettlementKey
  delegate : Option SettlementKey
  value : UInt64
  deriving DecidableEq

namespace Coin

def owned (owner : SettlementKey) (value : UInt64) : Coin := ⟨owner,none,value⟩

def ofKernel (coin : Kernel.Coin) : Coin := ⟨coin.owner,coin.delegate,coin.value⟩

def toKernel (coin : Coin) : Kernel.Coin := Kernel.Coin.issue coin.owner coin.delegate coin.value

@[simp] theorem toKernel_ofKernel : (ofKernel coin).toKernel = coin := rfl

@[simp] theorem ofKernel_toKernel {coin : Coin} : ofKernel coin.toKernel = coin := rfl

end Coin

inductive ObjectKind where
  | coin
  | edge
  | registryChunk
  | ownerData
  deriving DecidableEq

abbrev OwnerNode := FixedBytes ownerNodeBytes

-- `ownerData` is written by the host's owner tree alone.
inductive Object where
  | coin (coin : Coin)
  | edge (edge : Edge)
  | registryChunk (chunk : RegistryChunk)
  | ownerData (node : OwnerNode)
  deriving DecidableEq

def Object.kind : Object → ObjectKind
  | .coin _ => .coin
  | .edge _ => .edge
  | .registryChunk _ => .registryChunk
  | .ownerData _ => .ownerData

-- One speculative storage batch: reads see the writes made so far, a write of nothing deletes.
abbrev Store := Slots ObjectId Object

namespace Store

def get (store : Store) (id : ObjectId) : Option Object := store.lookup id

def write (store : Store) (id : ObjectId) : Option Object → Store
  | some object => store.insert id object
  | none => store.erase id

theorem get_write {store : Store} {id : ObjectId} :
    (store.write id value).get other = if other = id then value else store.get other := by
  cases value with
  | some object => exact Slots.lookup_insert_if
  | none => exact Slots.lookup_erase_if

@[simp] theorem get_empty {id : ObjectId} : get ∅ id = none := Finmap.lookup_empty id

theorem ext_get {left right : Store} (same : ∀ id, left.get id = right.get id) : left = right := Finmap.ext_lookup same

end Store

end Hellas.Chain
