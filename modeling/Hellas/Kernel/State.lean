import Hellas.Kernel.Close
import Hellas.Lib.Runs

-- The owner transaction, the dispatch over transactions and the driver over a store.

namespace Hellas.Kernel

open Guard Words

-- Only coins the owner keeps may carry a delegate.
def checkReshapeOutput (owner : Key) (payout : Payout) : Except InvalidReshapeReason Unit := do
  rejectIf (payout.value = 0) .zeroOutput
  rejectIf (payout.delegate.isSome ∧ payout.owner ≠ owner) .foreignDelegation

section Transactions

variable [Xet]

def Reshape.outputCoins (network : NetworkId) (inputs : ReshapeInputs) (outputs : Payouts) :
    Coins :=
  issueCoins (CoinId.reshape network inputs) outputs

def Reshape.apply (reshape : Reshape) (context : Context) (verifier : SigVerifier) (batch : Batch) : Except ApplyError Change := do
  refuse ((duplicate reshape.inputs.items).map .duplicateInput)
  let coins ← loadCoins batch reshape.inputs.items
  let first ← okOr coins.head? (.invalidReshape .noInputs)
  let owner := first.2.owner
  rejectIf (∃ entry ∈ coins, entry.2.owner ≠ owner) (.invalidReshape .ownerMismatch)
  (reshape.outputs.items.forM (checkReshapeOutput owner)).mapError .invalidReshape
  let held ← okOr (checkedSum (fun entry => entry.2.value) coins) (.invalidReshape .valueOverflow)
  let issued ← okOr (reshape.outputs.checkedSum Payout.value) (.invalidReshape .valueOverflow)
  rejectIf (held ≠ issued) (.invalidReshape .valueMismatch)
  let issuedCoins := Reshape.outputCoins context.network reshape.inputs reshape.outputs
  refuse (occupied batch issuedCoins)
  rejectIf (¬verifier.verifyAuth reshape.auth owner (Reshape.payloadHash context.network reshape.inputs reshape.outputs))
    (.invalidReshape .badSignature)
  pure (.reshaped coins issuedCoins)

structure ReshapeAccepts (reshape : Reshape) (context : Context) (verifier : SigVerifier)
    (batch : Batch) (coins : Coins) (owner : Key) (held : UInt64) : Prop where
  distinct : reshape.inputs.items.Nodup
  named : coins.map Prod.fst = reshape.inputs.items
  live : ∀ entry ∈ coins, batch.coin entry.1 = some entry.2
  funded : coins ≠ []
  owned : ∀ entry ∈ coins, entry.2.owner = owner
  issues : ∀ payout ∈ reshape.outputs.items, checkReshapeOutput owner payout = .ok ()
  consumed : Words.total (fun entry => entry.2.value) coins = held.toNat
  issued : Words.total Payout.value reshape.outputs.items = held.toNat
  free : ∀ entry ∈ Reshape.outputCoins context.network reshape.inputs reshape.outputs,
    batch.coin entry.1 = none
  signed : verifier.verifyAuth reshape.auth owner
    (Reshape.payloadHash context.network reshape.inputs reshape.outputs) = true

theorem Reshape.apply_exact {reshape : Reshape} :
    reshape.apply context verifier batch = .ok change ↔
      ∃ coins owner held, ReshapeAccepts reshape context verifier batch coins owner held ∧ change = .reshaped coins
          (Reshape.outputCoins context.network reshape.inputs reshape.outputs) := by
  simp only [Reshape.apply,bind_ok,refuse_ok,Option.map_eq_none_iff,duplicate_none,loadCoins_exact,okOr_ok,rejectIf_ok,
    mapError_ok,forM_ok,BoundedList.checkedSum,checkedSum_exact,occupied_none,pure_ok,ne_eq,not_not,not_exists,not_and]
  constructor
  · rintro ⟨_,distinct,coins,⟨named,live⟩,first,head,_,owned,_,issues,held,consumed,
      total,issued,_,rfl,_,free,_,signed,rfl⟩
    refine ⟨coins,first.2.owner,held,⟨distinct,named,live,?_,owned,issues,consumed,issued,free,signed⟩,rfl⟩
    rintro rfl
    cases head
  · rintro ⟨coins,owner,held,accepted,rfl⟩
    obtain ⟨first,rest,rfl⟩ := List.exists_cons_of_ne_nil accepted.funded
    obtain rfl := accepted.owned first List.mem_cons_self
    exact ⟨(),accepted.distinct,_,⟨accepted.named,accepted.live⟩,first,rfl,(),accepted.owned,(),accepted.issues,held,
      accepted.consumed,held,accepted.issued,(),rfl,(),accepted.free,(),accepted.signed,rfl⟩

def Move.apply (action : Move) (context : Context) (verifier : SigVerifier) (batch : Batch) :
    Except ApplyError Change :=
  match action with
  | .startPaymentClose start => applyStart start context verifier batch
  | .respondPaymentClose response => applyResponse response context verifier batch

def Tx.apply (tx : Tx) (context : Context) (verifier : SigVerifier) (batch : Batch) :
    Except ApplyError Change :=
  match tx with
  | .openEdge funding terms makerAuth takerAuth => applyOpen funding terms makerAuth takerAuth context verifier batch
  | .closeEdge input proof outputs => applyClose input proof outputs context verifier batch
  | .move action => action.apply context verifier batch
  | .owner reshape => reshape.apply context verifier batch

end Transactions

def Genesis.insert (backend : Backend) (batch : Batch) (seed : Genesis) :
    Except InsertError Batch :=
  batch.insertCoin backend seed.id seed.coin

namespace State

-- The state is its store: nothing else is carried from one transaction to the next.
def genesis (backend : Backend) (store : Batch) (seeds : List Genesis) : Except InsertError Batch :=
  seeds.foldlM (Genesis.insert backend) store

variable [Xet]

-- Validate against the staged batch, then fold the change; an error commits nothing.
def apply (backend : Backend) (context : Context) (verifier : SigVerifier) (store : Batch)
    (operation : Tx) : Except ApplyError (ApplyOutcome × Batch) := do
  let change ← operation.apply context verifier store
  let next ← change.fold backend store
  pure (change.outcome, next)

end State

structure Step where
  context : Context
  verifier : SigVerifier
  tx : Tx

section Runs

variable [Xet]

-- The store one submission leaves behind, if it is accepted.
def Step.next (backend : Backend) (store : Batch) (step : Step) : Option Batch :=
  match State.apply backend step.context step.verifier store step.tx with
  | .ok (_, after) => some after
  | .error _ => none

abbrev Taken := Runs.Transition Batch Step

def State.run (backend : Backend) (store : Batch) (steps : List Step) : Batch := Runs.run (Step.next backend) store steps

-- The accepted submissions of a run, each with the stores around it.
def State.trace (backend : Backend) (store : Batch) (steps : List Step) : List Taken := Runs.trace (Step.next backend) store steps

end Runs

end Hellas.Kernel
