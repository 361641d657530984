import Hellas.Chain.Domain
import Hellas.Lib.Bits

-- The authenticated owner tree: a sparse tree of holdings for each key, and one tree of summaries
-- over the keys. Nodes are stored one by one under hashed keys.

namespace Hellas.Chain

open Guard Kernel Words

def ownerPageLimit : UInt32 := 32

def holdingCoin : UInt8 := 0
def holdingEdge : UInt8 := 1
def holdingDelegated : UInt8 := 2

structure OwnerCommitment where
  hash : Digest
  count : UInt64
  balance : BitVec 128
  deriving DecidableEq

def OwnerCommitment.none : OwnerCommitment := ⟨zeroDigest,0,0⟩

inductive OwnerLeaf where
  | summary (root : OwnerCommitment)
  | holding (kind : UInt8) (balance : UInt64)
  deriving DecidableEq

structure OwnerSibling where
  depth : UInt16
  commitment : OwnerCommitment
  deriving DecidableEq

-- Empty siblings are implied.
structure OwnerPathProof where
  leaf : Option OwnerLeaf
  siblings : List OwnerSibling
  deriving DecidableEq

structure HoldingProof where
  objectId : Digest
  path : OwnerPathProof
  deriving DecidableEq

structure OwnerPageProof where
  owner : String
  summary : OwnerPathProof
  offset : UInt64
  limit : UInt32
  holdings : List HoldingProof
  afterKey : Option Digest
  afterPath : Option OwnerPathProof
  deriving DecidableEq

inductive OwnerProofError where
  | storage (reason : String)
  | invalid
  | binding
  | page
  deriving DecidableEq

-- A failed write hands the store back as far as it got.
class OwnerTreeStore (σ : Type) where
  getNode : σ → Digest → Except OwnerProofError (Option OwnerNode)
  putNode : σ → Digest → Option OwnerNode → Except (σ × OwnerProofError) σ

export OwnerTreeStore (getNode putNode)

-- The rebuildable in-memory backend.
structure MemoryOwnerTree where
  nodes : Slots Digest OwnerNode

instance : OwnerTreeStore MemoryOwnerTree where
  getNode tree key := .ok (tree.nodes.lookup key)
  putNode tree key value := .ok <| match value with
    | some value => ⟨tree.nodes.insert key value⟩
    | none => ⟨tree.nodes.erase key⟩

-- Base58 text of a key, from outside the repository.
class Base58 where
  text : List UInt8 → String

def keyText [Base58] (key : SettlementKey) : String := Base58.text key.raw.bytes

def bit (key : Digest) (depth : Nat) : Bool := Bits.bit key.bytes depth

def setBit (key : Digest) (depth : Nat) : Digest := ⟨Bits.setBit key.bytes depth,by rw [Bits.setBit_length,key.length_eq]⟩

def clearBit (key : Digest) (depth : Nat) : Digest := ⟨Bits.clearBit key.bytes depth,by rw [Bits.clearBit_length,key.length_eq]⟩

def keyPrefix (key : Digest) (depth : Nat) : Digest := (List.range' depth (256 - depth)).foldl clearBit key

def nodeBytes (scope key : Digest) (depth : Nat) : List UInt8 :=
  bytesOf "hellas-owner-node-v1" ++ (scope.bytes ++ (encode (UInt16.ofNat depth) ++ (keyPrefix key depth).bytes))

def writeCommit (value : OwnerCommitment) : List UInt8 := value.hash.bytes ++ (encode value.count ++ bigEndian 16 value.balance.toNat)

def OwnerCommitment.ofBytes (bytes : List UInt8) (sized : bytes.length = 56) : OwnerCommitment where
  hash := ⟨bytes.take 32,by rw [List.length_take,sized]; rfl⟩
  count := UInt64.ofNat (fromBigEndian ((bytes.drop 32).take 8))
  balance := BitVec.ofNat 128 (fromBigEndian ((bytes.drop 40).take 16))

def readCommit (bytes : List UInt8) : Except OwnerProofError OwnerCommitment :=
  if sized : bytes.length = 56 then
    let value := OwnerCommitment.ofBytes bytes sized
    if ¬(value.count = 0 ↔ value.hash = zeroDigest) ∨ value.count = 0 ∧ value.balance ≠ 0 then
      .error .invalid
    else .ok value
  else .error .invalid

def checkedAdd128 (left right : BitVec 128) : Option (BitVec 128) :=
  if left.toNat + right.toNat < 2^128 then some (left + right) else none

def branchBytes (left right : OwnerCommitment) : List UInt8 := bytesOf "hellas-owner-branch-v1" ++ (writeCommit left ++ writeCommit right)

def OwnerLeaf.body : OwnerLeaf → List UInt8
  | .summary root => 1 :: writeCommit root
  | .holding kind balance => 2 :: kind :: encode balance

def leafBytes (scope key : Digest) (leaf : OwnerLeaf) : List UInt8 :=
  bytesOf "hellas-owner-leaf-v1" ++ (scope.bytes ++ (key.bytes ++ leaf.body))

-- Only a held coin carries balance.
def validKind (kind : UInt8) (balance : UInt64) : Bool :=
  if kind = holdingCoin then true
  else if kind = holdingEdge ∨ kind = holdingDelegated then balance == 0
  else false

def padNode (bytes : List UInt8) : OwnerNode := ⟨(bytes ++ List.replicate ownerNodeBytes 0).take ownerNodeBytes,by simp⟩

def encodeLeaf (leaf : OwnerLeaf) : OwnerNode := padNode leaf.body

def decodeLeaf : Option OwnerNode → Except OwnerProofError (Option OwnerLeaf)
  | none => .ok none
  | some raw =>
    let tag := raw.bytes.getD 0 0
    if tag = 1 ∧ (raw.bytes.drop 57).all (· == 0) then do
      let root ← readCommit ((raw.bytes.drop 1).take 56)
      pure (some (.summary root))
    else if tag = 2 ∧ (raw.bytes.drop 10).all (· == 0) then
      .ok (some (.holding (raw.bytes.getD 1 0) (UInt64.ofNat (fromBigEndian ((raw.bytes.drop 2).take 8)))))
    else .error .invalid

def branch : Option OwnerNode → Except OwnerProofError (OwnerCommitment × OwnerCommitment)
  | none => .ok (OwnerCommitment.none, OwnerCommitment.none)
  | some raw => do
    rejectIf (raw.bytes.getD 0 0 ≠ 0 ∨ (raw.bytes.drop 113).any (· != 0)) .invalid
    let left ← readCommit ((raw.bytes.drop 1).take 56)
    let right ← readCommit ((raw.bytes.drop 57).take 56)
    pure (left, right)

def encodeBranch (left right : OwnerCommitment) : Option OwnerNode :=
  if left.count = 0 ∧ right.count = 0 then none
  else some (padNode (0 :: (writeCommit left ++ writeCommit right)))

def expandStep (state : List OwnerCommitment × Option Nat) (sibling : OwnerSibling) :
    Except OwnerProofError (List OwnerCommitment × Option Nat) := do
  let depth := sibling.depth.toNat
  rejectIf (256 ≤ depth ∨ (∃ previous ∈ state.2, depth ≤ previous) ∨ sibling.commitment.count = 0) .invalid
  let _ ← readCommit (writeCommit sibling.commitment)
  pure (state.1.set depth sibling.commitment, some depth)

def expandSiblings (proof : OwnerPathProof) : Except OwnerProofError (List OwnerCommitment) := do
  rejectIf (256 < proof.siblings.length) .invalid
  let (siblings, _) ← proof.siblings.foldlM expandStep
    (List.replicate 256 OwnerCommitment.none, none)
  pure siblings

def OwnerPathProof.root (proof : OwnerPathProof) : Except OwnerProofError OwnerCommitment :=
  match proof.leaf with
  | none => .ok OwnerCommitment.none
  | some (.summary root) => .ok root
  | some (.holding _ _) => .error .invalid

def upward : List Nat := (List.range 256).reverse

section Hashing

variable [Sha256]

def ownerKey (owner : SettlementKey) : Digest := Sha256.hash owner.raw.bytes

def holdingScope (owner : SettlementKey) : Digest := Sha256.hash (bytesOf "hellas-owner-holdings-v1" ++ owner.raw.bytes)

def nodeKey (scope key : Digest) (depth : Nat) : Digest := Sha256.hash (nodeBytes scope key depth)

def combine (left right : OwnerCommitment) : Except OwnerProofError OwnerCommitment := do
  let count ← okOr (checkedAdd left.count right.count) .invalid
  let balance ← okOr (checkedAdd128 left.balance right.balance) .invalid
  if count = 0 then pure OwnerCommitment.none
  else pure ⟨Sha256.hash (branchBytes left right),count,balance⟩

def leafCommit (scope key : Digest) : Option OwnerLeaf → Except OwnerProofError OwnerCommitment
  | none => .ok OwnerCommitment.none
  | some (.summary root) => do
    rejectIf (scope ≠ zeroDigest ∨ root.count = 0) .invalid
    pure ⟨Sha256.hash (leafBytes scope key (.summary root)),1,root.balance⟩
  | some (.holding kind balance) => do
    rejectIf (scope = zeroDigest ∨ validKind kind balance = false) .invalid
    pure ⟨Sha256.hash (leafBytes scope key (.holding kind balance)),1,balance.toBitVec.setWidth 128⟩

def verifyStep (key : Digest) (siblings : List OwnerCommitment) (state : OwnerCommitment × UInt64)
    (depth : Nat) : Except OwnerProofError (OwnerCommitment × UInt64) := do
  let sibling := siblings.getD depth OwnerCommitment.none
  let _ ← readCommit (writeCommit sibling)
  if bit key depth then
    let rank ← okOr (checkedAdd state.2 sibling.count) .invalid
    let current ← combine sibling state.1
    pure (current, rank)
  else
    let current ← combine state.1 sibling
    pure (current, state.2)

def verifyPath (scope key : Digest) (proof : OwnerPathProof) :
    Except OwnerProofError (OwnerCommitment × UInt64) := do
  let siblings ← expandSiblings proof
  let current ← leafCommit scope key proof.leaf
  upward.foldlM (verifyStep key siblings) (current, 0)

section Stored

variable {σ : Type} [OwnerTreeStore σ]

def pathStep (store : σ) (scope key : Digest) (siblings : List OwnerSibling) (depth : Nat) :
    Except OwnerProofError (List OwnerSibling) := do
  let node ← getNode store (nodeKey scope key depth)
  let (left, right) ← branch node
  let sibling := if bit key depth then left else right
  if 0 < sibling.count then pure (siblings ++ [⟨UInt16.ofNat depth,sibling⟩]) else pure siblings

def path (store : σ) (scope key : Digest) : Except OwnerProofError OwnerPathProof := do
  let siblings ← (List.range 256).foldlM (pathStep store scope key) []
  let node ← getNode store (nodeKey scope key 256)
  let leaf ← decodeLeaf node
  pure ⟨leaf,siblings⟩

def updateStep (scope key : Digest) (siblings : List OwnerCommitment) (state : σ × OwnerCommitment) (depth : Nat) :
    Except (σ × OwnerProofError) (σ × OwnerCommitment) := do
  let (store, current) := state
  let sibling := siblings.getD depth OwnerCommitment.none
  let (left, right) := if bit key depth then (sibling, current) else (current, sibling)
  let current ← (combine left right).mapError fun error => (store, error)
  let store ← putNode store (nodeKey scope key depth) (encodeBranch left right)
  pure (store, current)

def update (store : σ) (scope key : Digest) (leaf : Option OwnerLeaf) :
    Except (σ × OwnerProofError) (σ × OwnerCommitment) := do
  let proof ← (path store scope key).mapError fun error => (store, error)
  let siblings ← (expandSiblings proof).mapError fun error => (store, error)
  let current ← (leafCommit scope key leaf).mapError fun error => (store, error)
  let store ← putNode store (nodeKey scope key 256) (leaf.map encodeLeaf)
  upward.foldlM (updateStep scope key siblings) (store, current)

def ownerRoot (store : σ) : Except OwnerProofError Digest := do
  let node ← getNode store (nodeKey zeroDigest zeroDigest 0)
  let (left, right) ← branch node
  let root ← combine left right
  pure root.hash

-- Removing the last holding removes its owner.
def summaryLeaf (holdings : OwnerCommitment) : Option OwnerLeaf :=
  if holdings.count = 0 then none else some (.summary holdings)

def updateHolding (store : σ) (owner : SettlementKey) (objectId : Digest)
    (value : Option (UInt8 × UInt64)) : Except (σ × OwnerProofError) σ := do
  let (store, holdings) ← update store (holdingScope owner) objectId
    (value.map fun held => .holding held.1 held.2)
  let (store, _) ← update store zeroDigest (ownerKey owner) (summaryLeaf holdings)
  pure store

-- A subtree still to be searched, with the rank of its first holding.
structure Pending where
  key : Digest
  depth : Nat
  rank : UInt64
  commit : OwnerCommitment

-- The depth-first search over an explicit stack; depths stay within the tree's 256 levels.
def collect (store : σ) (scope : Digest) (offset final : UInt64) (stack : List Pending)
    (holdings : List HoldingProof) : Except OwnerProofError (List HoldingProof) :=
  match stack with
  | [] => .ok holdings
  | top :: stack =>
    if top.commit.count = 0 ∨ final ≤ top.rank ∨ saturatingAdd top.rank top.commit.count ≤ offset then
      collect store scope offset final stack holdings
    else if top.depth < 256 then do
      let node ← getNode store (nodeKey scope top.key top.depth)
      let (left, right) ← branch node
      let joined ← combine left right
      rejectIf (joined ≠ top.commit) .invalid
      let rank ← okOr (checkedAdd top.rank left.count) .invalid
      collect store scope offset final (⟨top.key,top.depth + 1,top.rank,left⟩ ::
          ⟨setBit top.key top.depth,top.depth + 1,rank,right⟩ :: stack) holdings
    else do
      let found ← path store scope top.key
      collect store scope offset final stack (holdings ++ [⟨top.key,found⟩])
termination_by (stack.map fun pending => 3 ^ (257 - pending.depth)).sum
decreasing_by
  · simp
  · rename_i inside
    have power : 257 - top.depth = (257 - (top.depth + 1)) + 1 := by omega
    simp only [List.map_cons,List.sum_cons,power,Nat.pow_succ]
    have positive : 0 < 3 ^ (257 - (top.depth + 1)) := Nat.pow_pos (by omega)
    omega
  · simp

def proveOwnerPage [Base58] (store : σ) (owner : SettlementKey) (offset : UInt64) (limit : UInt32) :
    Except OwnerProofError OwnerPageProof := do
  rejectIf (limit = 0 ∨ ownerPageLimit < limit) .page
  let summary ← path store zeroDigest (ownerKey owner)
  let root ← summary.root
  rejectIf (root.count < offset) .page
  let final := min (saturatingAdd offset limit.toUInt64) root.count
  let holdings ← collect store (holdingScope owner) offset final [⟨zeroDigest,0,0,root⟩] []
  pure ⟨keyText owner,summary,offset,limit,holdings,none,none⟩

def proveOwnerPageAfter [Base58] (store : σ) (owner : SettlementKey) (after : Option Digest)
    (limit : UInt32) : Except OwnerProofError OwnerPageProof :=
  match after with
  | none => proveOwnerPage store owner 0 limit
  | some key => do
    let cursor ← path store (holdingScope owner) key
    let (_, rank) ← verifyPath (holdingScope owner) key cursor
    let offset ← okOr (checkedAdd rank (if cursor.leaf.isSome then 1 else 0)) .invalid
    let page ← proveOwnerPage store owner offset limit
    pure { page with afterKey := some key, afterPath := some cursor }

end Stored

def OwnerLeaf.isHolding : OwnerLeaf → Bool
  | .summary _ => false
  | .holding _ _ => true

def verifyHolding (owner : SettlementKey) (offset : UInt64) (summary : OwnerCommitment)
    (entry : HoldingProof × Nat) : Except OwnerProofError Unit := do
  let (holding, position) := entry
  rejectIf (¬∃ leaf ∈ holding.path.leaf, leaf.isHolding) .invalid
  let (actual, rank) ← verifyPath (holdingScope owner) holding.objectId holding.path
  rejectIf (actual ≠ summary ∨ rank ≠ offset + UInt64.ofNat position) .binding

def verifyOwnerPageAt [Base58] (root : Digest) (owner : SettlementKey) (offset : UInt64)
    (limit : UInt32) (proof : OwnerPageProof) : Except OwnerProofError OwnerCommitment := do
  rejectIf (proof.owner ≠ keyText owner ∨ proof.offset ≠ offset ∨ proof.limit ≠ limit) .binding
  rejectIf (limit = 0 ∨ ownerPageLimit < limit) .page
  let (top, _) ← verifyPath zeroDigest (ownerKey owner) proof.summary
  rejectIf (top.hash ≠ root) .binding
  let summary ← proof.summary.root
  rejectIf (summary.count < offset ∨ proof.holdings.length ≠ (min limit.toUInt64 (summary.count - offset)).toNat) .page
  proof.holdings.zipIdx.forM (verifyHolding owner offset summary)
  pure summary

def verifyOwnerPage [Base58] (root : Digest) (owner : SettlementKey) (offset : UInt64)
    (limit : UInt32) (proof : OwnerPageProof) : Except OwnerProofError OwnerCommitment := do
  rejectIf (proof.afterKey.isSome ∨ proof.afterPath.isSome) .binding
  verifyOwnerPageAt root owner offset limit proof

-- Where the page after a cursor starts, from the proof of the cursor itself.
def offsetAfter (owner : SettlementKey) (after : Option Digest) (proof : OwnerPageProof) :
    Except OwnerProofError UInt64 :=
  match after, proof.afterKey, proof.afterPath with
  | none, none, none => .ok 0
  | some requested, some proved, some path =>
    if requested = proved then do
      let (commitment, rank) ← verifyPath (holdingScope owner) requested path
      let summary ← proof.summary.root
      rejectIf (commitment ≠ summary) .binding
      okOr (checkedAdd rank (if path.leaf.isSome then 1 else 0)) .invalid
    else .error .binding
  | _, _, _ => .error .binding

def verifyOwnerPageAfter [Base58] (root : Digest) (owner : SettlementKey) (after : Option Digest)
    (limit : UInt32) (proof : OwnerPageProof) : Except OwnerProofError OwnerCommitment := do
  let offset ← offsetAfter owner after proof
  verifyOwnerPageAt root owner offset limit proof

end Hashing

end Hellas.Chain
