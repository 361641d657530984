import Hellas.Invariants.Conservation
import Hellas.Kernel.Effects

-- What a run hashes. The digest is not this crate's, so a result that needs it free of collisions
-- says so about the terms, edge ids, slot ids or coin ids its run derives and about nothing else:
-- over all preimages no 32-byte digest is injective.

namespace Hellas.Kernel

-- The coins a submission derives; those of genesis come with ids of their own.
inductive CoinName where
  | payout (edge : EdgeId) (index : Nat) (owner : Key)
  | reshape (network : NetworkId) (inputs : ReshapeInputs) (index : Nat) (owner : Key)
  deriving DecidableEq

structure SlotName where
  network : NetworkId
  space : RegistryNamespace
  key : EdgeId
  index : UInt8
  deriving DecidableEq

namespace SlotName

def lease (network : NetworkId) (bond : EdgeId) (index : UInt8) : SlotName := ⟨network,.bondLease,bond,index⟩

def contest (network : NetworkId) (payment : EdgeId) : SlotName := ⟨network,.paymentClose,payment,0⟩

def about (network : NetworkId) (edge : EdgeId) : List SlotName := [lease network edge 0,lease network edge 1,contest network edge]

end SlotName

-- The bond a payment embeds is hashed with it.
def Terms.hashes (terms : Terms) : List Terms :=
  match terms with
  | .workPayment payment => [terms,.workStakeBond payment.bondTerms]
  | _ => [terms]

@[simp] theorem Terms.mem_hashes (terms : Terms) : terms ∈ terms.hashes := by
  cases terms <;> simp [Terms.hashes]

namespace Tx

def hashesTerms : Tx → List Terms
  | .openEdge _ terms _ _ => terms.hashes
  | .closeEdge _ (.timeout terms _) _ => terms.hashes
  | .move (.startPaymentClose start) => start.terms.hashes
  | _ => []

def hashesSlots (network : NetworkId) : Tx → List SlotName
  | .openEdge _ (.workPayment payment) _ _ => SlotName.about network payment.bondEdge
  | .openEdge .. => []
  | .closeEdge input _ _ => SlotName.about network input
  | .move (.startPaymentClose start) => SlotName.about network start.paymentEdge
  | .move (.respondPaymentClose response) => SlotName.about network response.paymentEdge
  | .owner _ => []

def hashesCoins (network : NetworkId) : Tx → List CoinName
  | .closeEdge input _ outputs => outputs.items.mapIdx fun index payout => .payout input index payout.owner
  | .owner reshape => reshape.outputs.items.mapIdx fun index payout => .reshape network reshape.inputs index payout.owner
  | _ => []

end Tx

structure Hashed where
  terms : Set Terms
  edges : Set (Funding × TermsHash)
  slots : Set SlotName
  coins : Set CoinName

variable [Xet]

def CoinName.id : CoinName → CoinId
  | .payout edge index owner => CoinId.payout edge index owner
  | .reshape network inputs index owner => CoinId.reshape network inputs index owner

def SlotName.id (name : SlotName) : RegistryChunkId := RegistryChunkId.derive name.network name.space name.key.raw name.index

def Tx.edgeName (opened : Funding × TermsHash) : EdgeId := edgeId opened.1 opened.2

def Tx.hashesEdges : Tx → List (Funding × TermsHash)
  | .openEdge funding terms _ _ => [(funding, terms.hash)]
  | _ => []

-- Everything one submission hashes is accounted for.
structure Hashed.Covers (hashed : Hashed) (step : Step) : Prop where
  terms : ∀ terms ∈ step.tx.hashesTerms, terms ∈ hashed.terms
  edges : ∀ opened ∈ step.tx.hashesEdges, opened ∈ hashed.edges
  slots : ∀ name ∈ step.tx.hashesSlots step.context.network, name ∈ hashed.slots
  coins : ∀ name ∈ step.tx.hashesCoins step.context.network, name ∈ hashed.coins

-- What a list of submissions hashes, and no more.
def Hashed.of (steps : List Step) : Hashed where
  terms := { terms | terms ∈ steps.flatMap fun step => step.tx.hashesTerms }
  edges := { opened | opened ∈ steps.flatMap fun step => step.tx.hashesEdges }
  slots := { name | name ∈ steps.flatMap fun step => step.tx.hashesSlots step.context.network }
  coins := { name | name ∈ steps.flatMap fun step => step.tx.hashesCoins step.context.network }

theorem Hashed.of_covers (member : step ∈ steps) :
    (Hashed.of steps).Covers step where
  terms _ found := List.mem_flatMap_of_mem member found
  edges _ found := List.mem_flatMap_of_mem member found
  slots _ found := List.mem_flatMap_of_mem member found
  coins _ found := List.mem_flatMap_of_mem member found

-- The four derivations tell apart whatever the run feeds them.
structure Hashed.Apart (hashed : Hashed) : Prop where
  terms : Set.InjOn Terms.hash hashed.terms
  edges : Set.InjOn Tx.edgeName hashed.edges
  slots : Set.InjOn SlotName.id hashed.slots
  coins : Set.InjOn CoinName.id hashed.coins

-- Every live edge is as an accepted open of known terms left it.
def Batch.Traced (known : Set Terms) (batch : Batch) : Prop := ∀ id edge, batch.edge id = some edge → ∃ terms ∈ known, edge.OpenedWith terms

namespace Batch.Traced

variable {batch : Batch}

theorem step (traced : batch.Traced known) (accepted : Accepted context verifier batch tx next)
    (covered : ∀ terms ∈ tx.hashesTerms, terms ∈ known) : next.Traced known := by
  intro id edge live
  rcases accepted.edge_origin live with ⟨before,-⟩ | ⟨funding,terms,makerAuth,takerAuth,coins,debits,diff,rfl,rfl,rfl,accepts⟩
  · exact traced id edge before
  · exact ⟨terms,covered terms terms.mem_hashes,accepts.opened⟩

theorem revealed (traced : batch.Traced known) (injective : Set.InjOn Terms.hash known)
    {id : EdgeId} {edge : Edge} {terms : Terms} (live : batch.edge id = some edge)
    (hashed : terms ∈ known) (bound : terms.hash = edge.terms) : edge.OpenedWith terms := by
  obtain ⟨opened,member,origin⟩ := traced id edge live
  have same : opened = terms := injective member hashed (origin.hash.symm.trans bound.symm)
  rw [← same]
  exact origin

end Batch.Traced

end Hellas.Kernel
