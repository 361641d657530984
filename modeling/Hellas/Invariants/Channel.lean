import Hellas.Invariants.Contest

-- A payment channel has no timeout. Its two exits are open whenever their conditions are met, to
-- exactly the payouts the endpoint formulas give.

namespace Hellas.Kernel

open Guard Words

def penaltyOwed (earned : UInt64) (pending : Option PendingPaymentClose) : UInt64 :=
  (pending.map fun record => record.freezePenalty earned).getD 0

variable {earned : UInt64} {settlement : WorkPaymentSettlement} {payouts : Payout × Payout}

theorem freezeProvider_exact :
    freezeProvider earned pending = .ok provider ↔ (∀ record, pending = some record → record.finalCumulative ≤ earned) ∧
        earned.toNat + (penaltyOwed earned pending).toNat = provider.toNat := by
  cases pending with
  | none => simp [freezeProvider,penaltyOwed,UInt64.toNat_inj]
  | some record =>
    simp only [freezeProvider,bind_ok,rejectIf_ok,okOr_ok,checkedAdd_exact,UInt64.not_lt]
    constructor
    · intro passed
      obtain ⟨_,above,summed⟩ := passed
      refine ⟨?_,summed⟩
      intro other same
      cases same
      exact above
    · intro precise
      exact ⟨(),precise.1 record rfl,precise.2⟩

theorem adjudicatedPayouts_exact :
    adjudicatedPayouts settlement parties final due signed = .ok payouts ↔
      ∃ provider : UInt64, final.toNat + (if due then settlement.omissionBond else 0).toNat = provider.toNat ∧
          splitPayouts parties settlement.adjudicatedTotal provider signed = .ok payouts := by
  simp only [adjudicatedPayouts,bind_ok,okOr_ok,checkedAdd_exact]

theorem freezePayouts_exact :
    freezePayouts settlement parties earned penalty signed = .ok payouts ↔
      ∃ provider : UInt64, earned.toNat + penalty.toNat = provider.toNat ∧
        splitPayouts parties settlement.freezeTotal provider signed = .ok payouts := by
  simp only [freezePayouts,bind_ok,okOr_ok,checkedAdd_exact]

theorem split_exists (parties : Parties) {total : UInt64} (signed : Bool × Bool) (funded : amount ≤ total.toNat) :
    ∃ (provider : UInt64) (payouts : Payout × Payout), amount = provider.toNat ∧ splitPayouts parties total provider signed = .ok payouts ∧
      (∀ outputs, checkSplit parties (total, provider) signed outputs = .ok () ↔ outputs = Payouts.pair payouts) ∧
      Words.total Payout.value (Payouts.pair payouts).items = total.toNat := by
  have small := total.toNat_lt
  obtain ⟨provider,same⟩ := exists_word (show amount < 2^64 by omega)
  obtain ⟨client,rest⟩ := exists_word (show total.toNat - amount < 2^64 by omega)
  have split : splitPayouts parties total provider signed =
      .ok (parties.taker.payout provider signed.2, parties.maker.payout client signed.1) :=
    splitPayouts_exact.mpr ⟨client,by omega,rfl⟩
  refine ⟨provider,_,same,split,?_,?_⟩
  · intro outputs
    simp only [checkSplit,split,bind_ok,Except.ok.injEq,exists_eq_left',rejectIf_ok,ne_eq,not_not]
  · change provider.toNat + (client.toNat + 0) = _
    omega

section Exits

variable [Xet] {context : Context} {batch : Batch} {id : EdgeId} {edge : Edge}
  {payment : WorkPaymentTerms}

theorem Edge.OpenedWith.payment_allows (opened : edge.OpenedWith (.workPayment payment)) :
    edge.allows .freeze = true ∧ edge.allows .adjudicated = true := by
  unfold Edge.allows
  rw [opened.allowed]
  change CloseKindSet.workPayment.contains .freeze = true ∧ CloseKindSet.workPayment.contains .adjudicated = true
  decide

-- Settling a contest that is over: accepted with these payouts and with no others.
theorem adjudicated_accepts (verifier : SigVerifier) {record : PendingPaymentClose} (live : batch.edge id = some edge)
    (opened : edge.OpenedWith (.workPayment payment))
    (settles : workPaymentSettlement edge.values payment.omissionBond = some settlement) (fair : record.Fair settlement)
    (read : readPendingClose batch context.network id = .ok (some record))
    (ended : record.responseDeadline ≤ context.blockHeight.value ∨ record.responded = true) :
    ∃ payouts, adjudicatedPayouts settlement edge.parties record.finalCumulative record.penaltyDue record.ownerSigned = .ok payouts ∧
      ∀ outputs, (∀ entry ∈ closeCoins id outputs, batch.coin entry.1 = none) →
        ((∃ total staged, CloseAccepts id (.adjudicated (record.contestCommitment context.network id
          (Terms.workPayment payment).hash)) outputs context verifier batch edge total staged) ↔ outputs = Payouts.pair payouts) := by
  obtain ⟨-,settled,least,-⟩ := workPaymentSettlement_exact.mp settles
  have due : (if record.penaltyDue then settlement.omissionBond else 0) = record.penalty := by
    rw [PendingPaymentClose.penalty,fair.penaltyAmount]
  have bounded : record.penalty.toNat ≤ record.penaltyAmount.toNat := by
    unfold PendingPaymentClose.penalty
    split <;> simp
  have funded := fair.funded
  obtain ⟨provider,payouts,provided,split,checked,summed⟩ := split_exists edge.parties
    record.ownerSigned (show record.finalCumulative.toNat + record.penalty.toNat ≤ settlement.adjudicatedTotal.toNat by omega)
  refine ⟨payouts,adjudicatedPayouts_exact.mpr ⟨provider,by rw [due,provided],split⟩,?_⟩
  intro outputs free
  constructor
  · rintro ⟨total,staged,accepts⟩
    have priced := accepts.priced
    rw [show edge.closeValue (closeCost outputs.len (.adjudicated _)) = _ from settled] at priced
    cases priced
    cases checkProof_exact.mp accepts.proved with
    | adjudicated found _ summed paid =>
      rw [show readPendingClose batch context.network id = _ from found] at read
      cases read
      obtain rfl := UInt64.toNat_inj.mp (provided.symm.trans summed)
      exact (checked outputs).mp paid
  · intro same
    subst same
    refine ⟨settlement.adjudicatedTotal,_,free,live,opened.payment_allows.2,settled,?_,
      checkProof_exact.mpr (.adjudicated read ended.symm provided ((checked _).mpr rfl) (by rw [opened.hash]))⟩
    rw [closeCoins,total_issueCoins (CoinId.payout id)]
    exact summed

omit [Xet] in
theorem penaltyOwed_le (earned : UInt64) (fair : ∀ record, pending = some record → record.Fair settlement) :
    (penaltyOwed earned pending).toNat ≤ settlement.omissionBond.toNat := by
  cases pending with
  | none => simp [penaltyOwed]
  | some record =>
    rw [← (fair record rfl).penaltyAmount]
    simp only [penaltyOwed,Option.map_some,Option.getD_some,PendingPaymentClose.freezePenalty]
    split <;> simp

theorem freeze_accepts (live : batch.edge id = some edge) (opened : edge.OpenedWith (.workPayment payment))
    (settles : workPaymentSettlement edge.values payment.omissionBond = some settlement)
    (fair : ∀ record, pending = some record → record.Fair settlement)
    (read : readPendingClose batch context.network id = .ok pending) (within : earned ≤ settlement.capacity)
    (above : ∀ record, pending = some record → record.finalCumulative ≤ earned)
    (window : checkValidityWindow context.blockHeight.value (validFrom, validThrough) maxFreezeAuthBlocks = .ok ())
    (makerSigned : verifyParty verifier maker edge.parties.maker
      (freezeDigest context.network id edge.terms earned (validFrom, validThrough)) = true)
    (takerSigned : verifyParty verifier taker edge.parties.taker
      (freezeDigest context.network id edge.terms earned (validFrom, validThrough)) = true) :
    ∃ payouts, freezePayouts settlement edge.parties earned (penaltyOwed earned pending)
        (freezeOwnerSigned maker taker pending) = .ok payouts ∧
      ∀ outputs, (∀ entry ∈ closeCoins id outputs, batch.coin entry.1 = none) →
        ((∃ total staged, CloseAccepts id (.freeze earned validFrom validThrough maker taker) outputs
          context verifier batch edge total staged) ↔ outputs = Payouts.pair payouts) := by
  obtain ⟨frozen,-,least,bond⟩ := workPaymentSettlement_exact.mp settles
  have owed := penaltyOwed_le earned fair
  rw [bond] at owed
  rw [UInt64.le_iff_toNat_le] at within
  obtain ⟨provider,payouts,provided,split,checked,summed⟩ := split_exists edge.parties
    (freezeOwnerSigned maker taker pending) (show earned.toNat + (penaltyOwed earned pending).toNat ≤ settlement.freezeTotal.toNat by omega)
  refine ⟨payouts,freezePayouts_exact.mpr ⟨provider,provided,split⟩,?_⟩
  intro outputs free
  constructor
  · rintro ⟨total,staged,accepts⟩
    have priced := accepts.priced
    rw [show edge.closeValue (closeCost outputs.len (.freeze ..)) = _ from frozen] at priced
    cases priced
    cases checkProof_exact.mp accepts.proved with
    | freeze _ found agreed paid =>
      rw [show readPendingClose batch context.network id = _ from found] at read
      cases read
      obtain rfl := UInt64.toNat_inj.mp (provided.symm.trans (freezeProvider_exact.mp agreed).2)
      exact (checked outputs).mp paid
  · intro same
    subst same
    refine ⟨settlement.freezeTotal,_,free,live,opened.payment_allows.1,frozen,?_,
      checkProof_exact.mpr (.freeze window read (freezeProvider_exact.mpr ⟨above,provided⟩) ((checked _).mpr rfl) makerSigned takerSigned)⟩
    rw [closeCoins,total_issueCoins (CoinId.payout id)]
    exact summed

end Exits

section Runs

variable [Xet] {hashed : Hashed} {backend : Backend} {seeds : List Genesis} {start : Batch}
  {steps : List Step} {network : NetworkId} {id : EdgeId} {edge : Edge}
  {payment : WorkPaymentTerms}

-- A submission whose payout ids are free is accepted exactly when its close checks out.
theorem submitted_iff {batch : Batch} (apart : hashed.Apart)
    (covers : hashed.Covers ⟨context,verifier,.closeEdge id proof outputs⟩) (live : batch.edge id = some edge) :
    (∃ result, State.apply .acceptAll context verifier batch (.closeEdge id proof outputs) = .ok result) ↔
      ∃ total staged, CloseAccepts id proof outputs context verifier batch edge total staged := by
  constructor
  · rintro ⟨⟨outcome,next⟩,applied⟩
    obtain ⟨found,total,staged,accepts⟩ := (apply_accepted applied).close_parts
    obtain rfl := Option.some.inj (accepts.live.symm.trans live)
    exact ⟨total,staged,accepts⟩
  · rintro ⟨total,staged,accepts⟩
    exact accepts.submitted apart.coins apart.slots covers

-- Both exits of a reachable payment channel, each to exactly the payouts its endpoint computes.
theorem channel_not_stranded (chain : Chain hashed backend seeds start steps) (seedsApart : SeedsApart hashed seeds)
    (apart : hashed.Apart) (oneNetwork : ∀ step ∈ steps, step.context.network = network)
    (known : SlotName.contest network id ∈ hashed.slots)
    (live : (State.run backend start steps).edge id = some edge)
    (member : Terms.workPayment payment ∈ hashed.terms)
    (hash : edge.terms = (Terms.workPayment payment).hash) :
    let state := State.run backend start steps
    ∃ settlement, workPaymentSettlement edge.values payment.omissionBond = some settlement ∧
      (∀ record context verifier, readPendingClose state network id = .ok (some record) →
        context.network = network →
        record.responseDeadline ≤ context.blockHeight.value ∨ record.responded = true →
          ∃ payouts, adjudicatedPayouts settlement edge.parties record.finalCumulative
            record.penaltyDue record.ownerSigned = .ok payouts ∧
          ∀ outputs, let tx := Tx.closeEdge id (.adjudicated (record.contestCommitment network id
              (Terms.workPayment payment).hash)) outputs
            hashed.Covers ⟨context,verifier,tx⟩ →
              ((∃ result, State.apply .acceptAll context verifier state tx = .ok result) ↔
                outputs = Payouts.pair payouts)) ∧
      ∀ pending context verifier earned validFrom validThrough maker taker,
        readPendingClose state network id = .ok pending → context.network = network →
        earned ≤ settlement.capacity →
        (∀ record, pending = some record → record.finalCumulative ≤ earned) →
        validFrom ≤ context.blockHeight.value → context.blockHeight.value ≤ validThrough →
        validThrough.toNat + 1 ≤ validFrom.toNat + maxFreezeAuthBlocks.toNat →
        verifyParty verifier maker edge.parties.maker
          (freezeDigest network id edge.terms earned (validFrom, validThrough)) = true →
        verifyParty verifier taker edge.parties.taker
          (freezeDigest network id edge.terms earned (validFrom, validThrough)) = true →
          ∃ payouts, freezePayouts settlement edge.parties earned (penaltyOwed earned pending)
            (freezeOwnerSigned maker taker pending) = .ok payouts ∧
          ∀ outputs,
            let tx := Tx.closeEdge id (.freeze earned validFrom validThrough maker taker) outputs
            hashed.Covers ⟨context,verifier,tx⟩ →
              ((∃ result, State.apply .acceptAll context verifier state tx = .ok result) ↔
                outputs = Payouts.pair payouts) := by
  intro state
  have upheld : Upheld hashed network seeds _ state := chain.upheld seedsApart apart oneNetwork
  have opened := upheld.sound.traced.revealed apart.terms live member hash.symm
  obtain ⟨settlement,settles,-⟩ := opened.payment payment rfl
  have fair : ∀ record, readPendingClose state network id = .ok (some record) →
      record.Fair settlement := by
    intro record read
    obtain ⟨found,terms,other,held,known,openedAs,same,fair⟩ := upheld.contested.fair id
      record known (upheld.sound.contest_of_read known read)
    obtain rfl := Option.some.inj (held.symm.trans live)
    cases apart.terms known member (openedAs.hash.symm.trans hash)
    obtain rfl := Option.some.inj (same.symm.trans settles)
    exact fair
  have free : ∀ proof outputs, (∀ name ∈ (Tx.closeEdge id proof outputs).hashesCoins network,
      name ∈ hashed.coins) → ∀ entry ∈ closeCoins id outputs, state.coin entry.1 = none :=
    fun proof outputs covered => upheld.ledger.payout_free seedsApart apart.coins covered live
      opened.payment_locked
  refine ⟨settlement,settles,?_,?_⟩
  · intro record context verifier read here ended
    subst here
    obtain ⟨payouts,formula,precise⟩ := adjudicated_accepts verifier live opened settles
      (fair record read) read ended
    refine ⟨payouts,formula,?_⟩
    intro outputs tx covers
    exact (submitted_iff apart covers live).trans (precise outputs (free _ outputs covers.coins))
  · intro pending context verifier earned validFrom validThrough maker taker read here within above
      after before narrow makerSigned takerSigned
    subst here
    have window : checkValidityWindow context.blockHeight.value (validFrom, validThrough)
        maxFreezeAuthBlocks = .ok () :=
      checkValidityWindow_exact.mpr ⟨after,before,narrow⟩
    obtain ⟨payouts,formula,precise⟩ := freeze_accepts live opened settles
      (fun record same => fair record (same ▸ read)) read within above window makerSigned takerSigned
    refine ⟨payouts,formula,?_⟩
    intro outputs tx covers
    exact (submitted_iff apart covers live).trans (precise outputs (free _ outputs covers.coins))

end Runs

namespace Sample

attribute [local instance] checksum

theorem channel_not_stranded_answered : ∃ edge settlement payouts,
    (State.run .acceptAll start contest).edge paymentEdge = some edge ∧
      workPaymentSettlement edge.values payment.omissionBond = some settlement ∧
      adjudicatedPayouts settlement edge.parties record.finalCumulative record.penaltyDue
        record.ownerSigned = .ok payouts := by
  obtain ⟨edge,live,hash⟩ := payment_live
  obtain ⟨settlement,settles,settled,-⟩ := channel_not_stranded contest_chain seedsApart channel_apart
    (fun step member => channel_network step (List.mem_append_left _ member)) payment_known live
    payment_hashed hash
  obtain ⟨payouts,formula,-⟩ := settled record (context 14) verifier contest_read rfl (.inr rfl)
  exact ⟨edge,settlement,payouts,live,settles,formula⟩

end Sample

end Hellas.Kernel
