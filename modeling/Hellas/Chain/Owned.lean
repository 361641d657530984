import Hellas.Chain.Holdings

-- Objects are written together with the owner metadata they are filed under.

namespace Hellas.Chain

open Guard Kernel Words

inductive ExecutionError where
  | objectNotFound (id : ObjectId)
  | wrongObjectKind (id : ObjectId) (expected actual : ObjectKind)
  | storage (reason : String)
  | kernelHostContract (error : ApplyError)
  | kernelApply (error : ApplyError)
  | edgeLifetimeExceeded (blocks max : UInt64)
  deriving DecidableEq

def OwnerProofError.text : OwnerProofError → String
  | .storage reason => "owner tree storage failed: " ++ reason
  | .invalid => "invalid owner tree node or proof"
  | .binding => "owner proof does not match the finalized root or requested owner/page"
  | .page => "owner page limit or offset is invalid"

def Store.getNode (batch : Store) (key : Digest) : Except OwnerProofError (Option OwnerNode) :=
  match batch.get key with
  | none => .ok none
  | some (.ownerData bytes) => .ok (some bytes)
  | some _ => .error .invalid

-- Domain-separated keys still reject a colliding spendable object before writing.
def Store.putNode (batch : Store) (key : Digest) (value : Option OwnerNode) :
    Except (Store × OwnerProofError) Store := do
  let _ ← (batch.getNode key).mapError fun error => (batch, error)
  pure (batch.write key (value.map .ownerData))

instance : OwnerTreeStore Store := ⟨Store.getNode,Store.putNode⟩

theorem getNode_exact {batch : Store} {key : Digest} {node : Option OwnerNode} :
    getNode batch key = .ok node ↔ batch.get key = node.map .ownerData := by
  show batch.getNode key = _ ↔ _
  unfold Store.getNode
  generalize batch.get key = found
  cases found with
  | none => cases node <;> simp
  | some object => cases object <;> cases node <;> simp

theorem putNode_exact {batch next : Store} {key : Digest} {value : Option OwnerNode} :
    putNode batch key value = .ok next ↔ (∃ old, getNode batch key = .ok old) ∧ batch.write key (value.map .ownerData) = next := by
  show batch.putNode key value = _ ↔ _
  simp only [Store.putNode,bind_ok,mapError_ok,pure_ok]
  constructor
  · intro put
    obtain ⟨old,found,same⟩ := put
    exact ⟨⟨old,found⟩,same⟩
  · intro written
    obtain ⟨⟨old,found⟩,same⟩ := written
    exact ⟨old,found,same⟩

instance : LawfulOwnerTreeStore Store where
  put_ok _ readable := ⟨_,putNode_exact.mpr ⟨⟨_,readable⟩,rfl⟩⟩
  get_put := by
    intro batch next key value written other
    obtain ⟨-,rfl⟩ := putNode_exact.mp written
    split
    · rename_i same
      rw [getNode_exact,Store.get_write,if_pos same]
    · rename_i different
      show Store.getNode _ _ = Store.getNode _ _
      rw [Store.getNode,Store.getNode,Store.get_write,if_neg different]

-- A coin is its owner's value, and a zero-balance entry for a delegate who is somebody else.
def coinHoldings (coin : Coin) : List (SettlementKey × UInt8 × UInt64) :=
  (coin.owner, holdingCoin, coin.value) ::
    ((coin.delegate.filter (· ≠ coin.owner)).map fun delegate => (delegate, holdingDelegated, 0)).toList

def partyKeys (party : PartyKeys) : List SettlementKey := [party.owner,party.signer] ++ party.payoutDelegate.toList

-- Every authority or destination key an edge commits, once each, in the order of their bytes.
def edgeKeys (parties : Parties) : List SettlementKey :=
  ((partyKeys parties.maker ++ partyKeys parties.taker).mergeSort fun left right => decide (left.raw.bytes ≤ right.raw.bytes)).dedup

def ownership : Option Object → List (SettlementKey × UInt8 × UInt64)
  | some (.coin coin) => coinHoldings coin
  | some (.edge edge) => (edgeKeys edge.parties).map fun key => (key, holdingEdge, 0)
  | _ => []

def Object.isOwnerData : Object → Bool
  | .ownerData _ => true
  | _ => false

section Writing

variable [Sha256]

def unfile (id : ObjectId) (store : Store) (holding : SettlementKey × UInt8 × UInt64) :
    Except (Store × OwnerProofError) Store :=
  updateHolding store holding.1 id none

def file (id : ObjectId) (store : Store) (holding : SettlementKey × UInt8 × UInt64) :
    Except (Store × OwnerProofError) Store :=
  updateHolding store holding.1 id (some holding.2)

def ownerTreeFailed (failure : Store × OwnerProofError) : Store × ExecutionError := (failure.1, .storage failure.2.text)

def writeOwned (batch : Store) (id : ObjectId) (value : Option Object) :
    Except (Store × ExecutionError) Store := do
  let old := batch.get id
  rejectIf ((∃ object ∈ old, object.isOwnerData) ∨ ∃ object ∈ value, object.isOwnerData)
    (batch, .storage "object namespace collides with owner metadata")
  let store ← ((ownership old).foldlM (unfile id) batch).mapError ownerTreeFailed
  let store ← ((ownership value).foldlM (file id) store).mapError ownerTreeFailed
  pure (store.write id value)

end Writing

end Hellas.Chain
