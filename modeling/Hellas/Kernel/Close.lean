import Hellas.Kernel.Moves

-- Closing an edge: what each kind of proof must establish and which registry slots it retires.

namespace Hellas.Kernel

open Guard Words

def maxFreezeAuthBlocks : UInt64 := 64

-- A work-payment close pays exactly two coins, provider first.
def checkSplit (parties : Parties) (amounts : UInt64 × UInt64) (ownerSigned : Bool × Bool)
    (outputs : Payouts) : Except InvalidProofReason Unit := do
  let (total, providerTotal) := amounts
  let expected ← splitPayouts parties total providerTotal ownerSigned
  rejectIf (outputs ≠ Payouts.pair expected) .payoutMismatch

variable {outputs : Payouts} {batch : Batch}

theorem checkSplit_exact {total : UInt64} {done : Unit} :
    checkSplit parties (total, provider) signed outputs = .ok done ↔ ∃ client : UInt64, total.toNat = provider.toNat + client.toNat ∧
        outputs = Payouts.pair (parties.taker.payout provider signed.2, parties.maker.payout client signed.1) := by
  simp only [checkSplit,bind_ok,splitPayouts_exact,rejectIf_ok,ne_eq,not_not]
  constructor
  · rintro ⟨_,⟨client,split,rfl⟩,paid⟩
    exact ⟨client,split,paid⟩
  · rintro ⟨client,split,paid⟩
    exact ⟨_,⟨client,split,rfl⟩,paid⟩

-- A freeze honours the owners that sign it and those that acted on the contest it ends.
def freezeOwnerSigned (maker taker : PartyAuth) (pending : Option PendingPaymentClose) :
    Bool × Bool :=
  let previous := match pending with
    | none => (false, false)
    | some record => record.ownerSigned
  (maker.isOwner || previous.1, taker.isOwner || previous.2)

-- The owner exits of the two payment closes; the others are not payment exits.
def Proof.paymentCloseOwnerSigned (proof : Proof) (pending : Option PendingPaymentClose) :
    Option (Bool × Bool) :=
  match proof with
  | .freeze _ _ _ maker taker => some (freezeOwnerSigned maker taker pending)
  | .adjudicated _ => pending.map PendingPaymentClose.ownerSigned
  | .mutualClose .. | .timeout .. => none

def freezeProvider (earned : UInt64) : Option PendingPaymentClose → Except InvalidProofReason UInt64
  | none => .ok earned
  | some record => do
    rejectIf (earned < record.finalCumulative) .freezeBelowSettled
    okOr (checkedAdd earned (record.freezePenalty earned)) .payoutOverCapacity

abbrev StagedCloseRegistry := Option RegistryMutation × Option RegistryMutation

def noStagedRegistry : StagedCloseRegistry := (none, none)

def oneStaged (mutation : Option RegistryMutation) : StagedCloseRegistry := (mutation, none)

structure CloseSubject where
  input : EdgeId
  edge : Edge
  total : UInt64
  outputs : Payouts
  deriving DecidableEq

variable [Xet]

-- The contest is the proof: no signature, and exactly the amounts it ended on.
def checkAdjudicated (close : CloseSubject) (contestCommitment : PaymentContestCommitment)
    (context : Context) (batch : Batch) : Except InvalidProofReason (Option RegistryMutation) := do
  let pending ← (readPending batch context close.input).mapError .closePendingFault
  let record ← okOr pending .closePendingMissing
  rejectIf (record.responded = false ∧ context.blockHeight.value < record.responseDeadline) .responseWindowOpen
  let provider ← okOr (checkedAdd record.finalCumulative record.penalty) .payoutOverCapacity
  checkSplit close.edge.parties (close.total, provider) record.ownerSigned close.outputs
  rejectIf (contestCommitment ≠ record.contestCommitment context.network close.input close.edge.terms) .contestMismatch
  pure (some (.delete (pendingPaymentCloseSlot context.network close.input)))

-- A freeze may end a contest but neither walk it back nor erase a penalty it proved.
def checkFreeze (close : CloseSubject) (earned : UInt64) (validity : UInt64 × UInt64)
    (makerAuth takerAuth : PartyAuth) (context : Context) (verifier : SigVerifier)
    (batch : Batch) : Except InvalidProofReason (Option RegistryMutation) := do
  (checkValidityWindow context.blockHeight.value validity maxFreezeAuthBlocks).mapError fun _ => .freezeOutsideValidityWindow
  let pending ← (readPending batch context close.input).mapError .closePendingFault
  let provider ← freezeProvider earned pending
  checkSplit close.edge.parties (close.total, provider) (freezeOwnerSigned makerAuth takerAuth pending) close.outputs
  let digest := freezeDigest context.network close.input close.edge.terms earned validity
  rejectIf (¬verifyParty verifier makerAuth close.edge.parties.maker digest ∨
    ¬verifyParty verifier takerAuth close.edge.parties.taker digest) .badSignature
  pure (pending.map fun _ => .delete (pendingPaymentCloseSlot context.network close.input))

-- Only a bond's owner may sign its timeout, to take the stake back undelegated.
def checkTimeoutOwner (close : CloseSubject) (terms : Terms) (owner : Option PartyAuth)
    (context : Context) (verifier : SigVerifier) : Except InvalidProofReason Unit :=
  match owner with
  | none => .ok ()
  | some auth => do
    rejectIf (¬terms.isWorkBond ∨ ¬auth.isOwner) .badSignature
    rejectIf (¬verifyParty verifier auth close.edge.parties.maker (Tx.payloadHash context.network
      close.input .timeout close.edge.terms close.outputs)) .badSignature

def timeoutExpected (owner : Option PartyAuth) (expected : Payout) : Payout :=
  if owner.isSome then Payout.new expected.owner expected.value else expected

def timeoutLease (terms : Terms) (context : Context) (batch : Batch) (input : EdgeId) :
    Except InvalidProofReason (Option BondLease) :=
  if terms.isWorkBond then (readBondLease batch context.network input).mapError .bondLeaseFault
  else .ok none

-- A bond no live channel leans on is the one shape whose timeout does not wait.
def checkTimeout (close : CloseSubject) (terms : Terms) (owner : Option PartyAuth)
    (context : Context) (verifier : SigVerifier) (batch : Batch) :
    Except InvalidProofReason StagedCloseRegistry := do
  rejectIf (terms.hash ≠ close.edge.terms) .termsMismatch
  let lease ← timeoutLease terms context batch close.input
  let liveLease := lease.filter fun lease => (batch.edge lease.paymentEdge).isSome
  rejectIf (¬(terms.isWorkBond ∧ liveLease = none) ∧ context.blockHeight.value < close.edge.timeout.value) .timeoutNotReached
  let committed ← okOr terms.timeoutOutputs .payoutMismatch
  checkTimeoutOwner close terms owner context verifier
  rejectIf (committed.len ≠ close.outputs.len ∨ ∃ pair ∈ committed.items.zip close.outputs.items, timeoutExpected owner pair.1 ≠ pair.2)
    .payoutMismatch
  pure (match lease with
    | none => noStagedRegistry
    | some _ =>
      let (first, second) := deleteMutations context.network close.input
      (some first, some second))

-- A cooperative close cannot pay a destination the terms did not name.
def checkMutual (close : CloseSubject) (maker taker : PartyAuth) (context : Context)
    (verifier : SigVerifier) : Except InvalidProofReason Unit := do
  let parties := close.edge.parties
  rejectIf (context.blockHeight.value ≥ close.edge.timeout.value) .proofExpired
  rejectIf (¬∀ payout ∈ close.outputs.items, parties.maker.isDestination payout maker.isOwner = true ∨
      parties.taker.isDestination payout taker.isOwner = true) .payoutNotCommitted
  let hash := Tx.payloadHash context.network close.input .mutualClose close.edge.terms close.outputs
  rejectIf (¬(verifyParty verifier maker parties.maker hash ∧ verifyParty verifier taker parties.taker hash)) .badSignature

def checkProof (close : CloseSubject) (proof : Proof) (context : Context) (verifier : SigVerifier)
    (batch : Batch) : Except InvalidProofReason StagedCloseRegistry :=
  match proof with
  | .mutualClose maker taker => do
    checkMutual close maker taker context verifier
    pure noStagedRegistry
  | .timeout terms owner => checkTimeout close terms owner context verifier batch
  | .freeze earned validFromHeight validThroughHeight maker taker =>
    oneStaged <$> checkFreeze close earned (validFromHeight, validThroughHeight) maker taker context verifier batch
  | .adjudicated commitment => oneStaged <$> checkAdjudicated close commitment context batch

-- Each payout becomes a coin under an id derived from its position and owner.
def issueCoins (name : Nat → Key → CoinId) (outputs : Payouts) : Coins :=
  outputs.items.mapIdx fun index payout => (name index payout.owner, payout.coin)

def closeCoins (input : EdgeId) (outputs : Payouts) : Coins := issueCoins (CoinId.payout input) outputs

omit [Xet] in
theorem mem_issueCoins {name : Nat → Key → CoinId} :
    entry ∈ issueCoins name outputs ↔ ∃ index payout, outputs.items[index]? = some payout ∧
      entry = (name index payout.owner, payout.coin) := by
  rw [issueCoins,List.mem_iff_getElem?]
  simp only [List.getElem?_mapIdx,Option.map_eq_some_iff]
  constructor
  · intro issued
    obtain ⟨index,payout,found,same⟩ := issued
    exact ⟨index,payout,found,same.symm⟩
  · intro named
    obtain ⟨index,payout,found,same⟩ := named
    exact ⟨index,payout,found,same.symm⟩

omit [Xet] in
theorem total_issueCoins (name : Nat → Key → CoinId) :
    Words.total (fun entry => entry.2.value) (issueCoins name outputs) = Words.total Payout.value outputs.items := by
  refine congrArg List.sum (List.ext_getElem? fun index => ?_)
  simp only [List.getElem?_map,issueCoins,List.getElem?_mapIdx,Option.map_map,Function.comp_def,Payout.coin,Coin.issue]

def occupied (batch : Batch) (coins : Coins) : Option ApplyError :=
  (coins.find? fun entry => (batch.coin entry.1).isSome).map fun entry => .outputExists entry.1

omit [Xet] in
theorem occupied_none : occupied batch coins = none ↔ ∀ entry ∈ coins, batch.coin entry.1 = none := by
  simp only [occupied,Option.map_eq_none_iff,List.find?_eq_none,Option.not_isSome_iff_eq_none]

def checkCloseOutputs (input : EdgeId) (outputs : Payouts) (batch : Batch) :
    Except ApplyError Unit :=
  refuse (occupied batch (closeCoins input outputs))

def applyClose (input : EdgeId) (proof : Proof) (outputs : Payouts) (context : Context)
    (verifier : SigVerifier) (batch : Batch) : Except ApplyError Change := do
  checkCloseOutputs input outputs batch
  let coins := closeCoins input outputs
  let edge ← okOr (batch.edge input) (.missingEdge input)
  rejectIf (edge.allows proof.kind = false) (.invalidClose input .kindForbidden)
  let total ← (edge.closes coins (closeCost outputs.len proof)).mapError (.invalidClose input)
  let staged ← (checkProof ⟨input,edge,total,outputs⟩ proof context verifier batch).mapError
    (.invalidProof input)
  let registry ← RegistryDiff.pushAll (staged.1.toList ++ staged.2.toList)
  pure ((Change.closed (input, edge) coins).withRegistry registry)

structure CloseAccepts (input : EdgeId) (proof : Proof) (outputs : Payouts) (context : Context)
    (verifier : SigVerifier) (batch : Batch) (edge : Edge) (total : UInt64)
    (staged : StagedCloseRegistry) : Prop where
  free : ∀ entry ∈ closeCoins input outputs, batch.coin entry.1 = none
  live : batch.edge input = some edge
  allowed : edge.allows proof.kind = true
  priced : edge.closeValue (closeCost outputs.len proof) = some total
  paid : Words.total (fun entry => entry.2.value) (closeCoins input outputs) = total.toNat
  proved : checkProof ⟨input,edge,total,outputs⟩ proof context verifier batch = .ok staged

theorem applyClose_exact :
    applyClose input proof outputs context verifier batch = .ok change ↔ ∃ edge total staged diff,
        CloseAccepts input proof outputs context verifier batch edge total staged ∧ diff.mutations = staged.1.toList ++ staged.2.toList ∧
          change = (Change.closed (input, edge) (closeCoins input outputs)).withRegistry diff := by
  simp only [applyClose,checkCloseOutputs,bind_ok,refuse_ok,occupied_none,okOr_ok,rejectIf_ok,
    Bool.not_eq_false,mapError_ok,Edge.closes_exact,RegistryDiff.pushAll_exact,pure_ok]
  constructor
  · rintro ⟨_,free,edge,live,_,allowed,total,⟨priced,paid⟩,staged,proved,diff,pushed,
      rfl⟩
    exact ⟨edge,total,staged,diff,⟨free,live,allowed,priced,paid,proved⟩,pushed,rfl⟩
  · rintro ⟨edge,total,staged,diff,accepted,pushed,rfl⟩
    exact ⟨(),accepted.free,edge,accepted.live,(),accepted.allowed,total,
      ⟨accepted.priced,accepted.paid⟩,staged,accepted.proved,diff,pushed,rfl⟩

end Hellas.Kernel
