import Hellas.Invariants.Registry

-- Who may spend a coin, and whom a close may pay.

namespace Hellas.Kernel

open Guard

section Spending

variable [Xet] {context : Context} {verifier : SigVerifier} {batch : Batch}

def Party.pick (party : Party) (maker taker : α) : α :=
  match party with
  | .maker => maker
  | .taker => taker

def Tx.coinWitnesses (network : NetworkId) : Tx → List (Auth × PayloadHash)
  | .openEdge funding terms makerAuth takerAuth =>
    [(makerAuth.auth, Tx.openHash network funding terms),(takerAuth.auth, Tx.openHash network funding terms)]
  | .owner reshape => [(reshape.auth, Reshape.payloadHash network reshape.inputs reshape.outputs)]
  | _ => []

-- A coin is spent by its owner, or by its delegate opening a work shape that keeps it delegated to
-- that delegate or to nobody.
inductive SpentBy (context : Context) (verifier : SigVerifier) (coin : Coin) : Tx → Prop where
  | owner {tx : Tx} {auth : Auth} {hash : PayloadHash}
      (witness : (auth, hash) ∈ tx.coinWitnesses context.network)
      (verified : verifier.verifyAuth auth coin.owner hash = true) : SpentBy context verifier coin tx
  | delegate {funding : Funding} {terms : Terms} {makerAuth takerAuth : PartyAuth} {party : Party}
      {signer : Key} {payoutDelegate : Option Key}
      (work : terms.isBasic = false) (delegated : coin.delegate = some signer)
      (committed : party.keysOf terms.parties = ⟨coin.owner,signer,payoutDelegate⟩)
      (kept : payoutDelegate = none ∨ payoutDelegate = some signer)
      (verified : verifier.verifyAuth (party.pick makerAuth takerAuth).auth signer
        (Tx.openHash context.network funding terms) = true) :
      SpentBy context verifier coin (.openEdge funding terms makerAuth takerAuth)

variable {auth makerAuth takerAuth : PartyAuth} {party : PartyKeys} {hash : PayloadHash}
  {funding : Funding} {terms : Terms} {coins : Coins} {debits : OpenDebits} {diff : RegistryDiff}

omit [Xet] in
theorem verifyParty_owner (signed : verifyParty verifier auth party hash = true) (owner : auth.isOwner = true) :
    verifier.verifyAuth auth.auth party.owner hash = true := by
  rw [verifyParty,PartyAuth.isOwner_iff.mp owner] at signed
  exact signed

omit [Xet] in
theorem verifyParty_signer (signed : verifyParty verifier auth party hash = true) (signer : auth.isOwner = false) :
    verifier.verifyAuth auth.auth party.signer hash = true := by
  unfold verifyParty at signed
  unfold PartyAuth.isOwner at signer
  cases authority : auth.authority with
  | owner => simp [authority] at signer
  | signer =>
    rw [authority] at signed
    exact signed

theorem OpenAccepts.verified {funding : Funding} {terms : Terms} {makerAuth takerAuth : PartyAuth} {coins : Coins}
    {debits : OpenDebits} {diff : RegistryDiff}
    (accepts : OpenAccepts funding terms makerAuth takerAuth context verifier batch coins debits diff) (party : Party) :
    verifyParty verifier (party.pick makerAuth takerAuth) (party.keysOf terms.parties)
      (Tx.openHash context.network funding terms) = true := by
  have signed := accepts.signed
  simp only [checkOpenAuth,rejectIf_ok,not_or,not_not] at signed
  cases party with
  | maker => exact signed.1
  | taker => exact signed.2

theorem OpenAccepts.side (accepts : OpenAccepts funding terms makerAuth takerAuth context verifier batch coins debits
      diff) (party : Party) :
    let side := party.pick (coins.take funding.makerLen) (coins.drop funding.makerLen)
    (∀ entry ∈ side, entry.2.owner = (party.keysOf terms.parties).owner) ∧
      (terms.isBasic = true → (party.pick makerAuth takerAuth).isOwner = true) ∧
      MayCommit (party.keysOf terms.parties) (party.pick makerAuth takerAuth) side := by
  obtain ⟨makerOwned,takerOwned⟩ := checkFundingOwnership_exact.mp accepts.owned
  obtain ⟨basic,makerMay,takerMay⟩ := checkOpenAuthority_exact.mp accepts.authority
  cases party with
  | maker => exact ⟨makerOwned,fun shape => (basic shape).1,makerMay⟩
  | taker => exact ⟨takerOwned,fun shape => (basic shape).2,takerMay⟩

theorem OpenAccepts.spent (accepts : OpenAccepts funding terms makerAuth takerAuth context verifier batch coins debits diff)
    (used : entry ∈ coins) :
    SpentBy context verifier entry.2 (.openEdge funding terms makerAuth takerAuth) := by
  obtain ⟨party,mine⟩ : ∃ party : Party, entry ∈ party.pick (coins.take funding.makerLen) (coins.drop funding.makerLen) := by
    rw [← List.take_append_drop funding.makerLen coins] at used
    rcases List.mem_append.mp used with ofMaker | ofTaker
    · exact ⟨.maker,ofMaker⟩
    · exact ⟨.taker,ofTaker⟩
  obtain ⟨owned,basic,may⟩ := accepts.side party
  have signed := accepts.verified party
  by_cases owner : (party.pick makerAuth takerAuth).isOwner = true
  · refine .owner ?_ (owned entry mine ▸ verifyParty_owner signed owner)
    cases party <;> simp [Tx.coinWitnesses,Party.pick]
  · obtain ⟨delegated,kept⟩ := may.resolve_left owner
    have work : terms.isBasic = false := by
      by_contra shape
      exact owner (basic (by simpa using shape))
    exact .delegate work (delegated entry mine) (by rw [owned entry mine]) kept
      (verifyParty_signer signed (by simpa using owner))

theorem Accepted.spent {tx : Tx} (accepted : Accepted context verifier batch tx next) {id : CoinId} (consumed : id ∈ tx.consumesCoins) :
    ∃ coin, batch.coin id = some coin ∧ SpentBy context verifier coin tx := by
  cases accepted with
  | opened accepts =>
    rw [Tx.consumesCoins,← accepts.named] at consumed
    obtain ⟨entry,used,rfl⟩ := List.mem_map.mp consumed
    exact ⟨entry.2,accepts.live entry used,accepts.spent used⟩
  | reshaped accepts =>
    rw [Tx.consumesCoins,← accepts.named] at consumed
    obtain ⟨entry,used,rfl⟩ := List.mem_map.mp consumed
    refine ⟨entry.2,accepts.live entry used,.owner (List.mem_singleton.mpr rfl) ?_⟩
    rw [accepts.owned entry used]
    exact accepts.signed
  | closed => cases consumed
  | started => cases consumed
  | responded => cases consumed

end Spending

section Paying

variable [Xet] {context : Context} {verifier : SigVerifier} {batch next : Batch}

def Batch.contest (batch : Batch) (network : NetworkId) (input : EdgeId) :
    Option PendingPaymentClose :=
  (readPendingClose batch network input).toOption.join

-- Whether a close lets a party out undelegated: its owner signs the close, or has acted on the
-- contest the close ends.
def Proof.ownerExit (proof : Proof) (pending : Option PendingPaymentClose) (party : Party) :
    Bool :=
  let acted := pending.any fun record => party.pick record.ownerSigned.1 record.ownerSigned.2
  match proof with
  | .mutualClose maker taker => (party.pick maker taker).isOwner
  | .timeout terms owner => terms.isWorkBond && owner.isSome && party.pick true false
  | .freeze _ _ _ maker taker => (party.pick maker taker).isOwner || acted
  | .adjudicated _ => acted

variable {proof : Proof} {outputs : Payouts}

omit [Xet] in
theorem Proof.ownerExit_payment (exits : proof.paymentCloseOwnerSigned pending = some signed) (party : Party) :
    proof.ownerExit pending party = party.pick signed.1 signed.2 := by
  cases proof with
  | mutualClose maker taker => cases exits
  | timeout terms owner => cases exits
  | freeze earned validFrom validThrough maker taker =>
    cases exits
    cases party <;> cases pending <;> rfl
  | adjudicated commitment =>
    obtain ⟨record,rfl,rfl⟩ := Option.map_eq_some_iff.mp exits
    cases party <;> rfl

omit [Xet] in
theorem PartyKeys.payout_destined (party : PartyKeys) (value : UInt64) (signed : Bool) :
    party.isDestination (party.payout value signed) signed = true := by
  simp [PartyKeys.isDestination,PartyKeys.payout,Payout.delegated]

omit [Xet] in
theorem checkSplit_destined (split : checkSplit parties amounts signed outputs = .ok ()) (paid : payout ∈ outputs.items) :
    ∃ party : Party, (party.keysOf parties).isDestination payout (party.pick signed.1 signed.2) = true := by
  obtain ⟨client,-,rfl⟩ := checkSplit_exact.mp split
  rcases List.mem_pair.mp paid with rfl | rfl
  · exact ⟨.taker,PartyKeys.payout_destined _ _ _⟩
  · exact ⟨.maker,PartyKeys.payout_destined _ _ _⟩

omit [Xet] in
theorem timeoutExpected_destined {party : PartyKeys} (destined : party.isDestination expected false = true) (owner : Option PartyAuth) :
    party.isDestination (timeoutExpected owner expected) owner.isSome = true := by
  cases owner with
  | none => exact destined
  | some auth =>
    obtain ⟨key,delegate,value⟩ := expected
    simp only [PartyKeys.isDestination,PartyKeys.payout,Payout.delegated,beq_iff_eq,Payout.mk.injEq] at destined
    simp [PartyKeys.isDestination,PartyKeys.payout,Payout.delegated,timeoutExpected,Payout.new,destined.1]

theorem timeout_destined {close : CloseSubject} (opened : close.edge.OpenedWith terms) (commits : terms.timeoutOutputs = some committed)
    (signed : checkTimeoutOwner close terms owner context verifier = .ok ())
    (listed : close.outputs.items = committed.items.map (timeoutExpected owner))
    (paid : payout ∈ close.outputs.items) (pending : Option PendingPaymentClose) :
    ∃ party : Party, (party.keysOf close.edge.parties).isDestination payout ((Proof.timeout terms owner).ownerExit pending party) = true ∧
      (terms.isWorkBond = true → party = .maker) := by
  rw [listed] at paid
  obtain ⟨expected,member,rfl⟩ := List.mem_map.mp paid
  rw [opened.parties]
  by_cases shape : terms.isWorkBond = true
  · obtain ⟨bond,rfl⟩ : ∃ bond, terms = .workStakeBond bond := by
      cases terms with
      | workStakeBond bond => exact ⟨bond,rfl⟩
      | basic => cases shape
      | workPayment payment => cases shape
    cases commits
    have solely := (opened.bond bond rfl).2
    simp only [paidSolelyTo,Bool.and_eq_true,List.all_eq_true] at solely
    refine ⟨.maker,?_,fun _ => rfl⟩
    simpa [Proof.ownerExit,Party.pick,Party.keysOf,Terms.parties,Terms.isWorkBond] using
      timeoutExpected_destined (solely.2 expected member) owner
  · have unsigned : owner = none := by
      cases owner with
      | none => rfl
      | some auth => simp [checkTimeoutOwner,bind_ok,rejectIf_ok,shape] at signed
    subst unsigned
    have destined := (opened.exits committed commits).2 expected member
    simp only [Parties.isDestination,Bool.or_eq_true] at destined
    rcases destined with toMaker | toTaker
    · exact ⟨.maker,by simpa [Proof.ownerExit,Party.keysOf,timeoutExpected] using toMaker,
        (absurd · shape)⟩
    · exact ⟨.taker,by simpa [Proof.ownerExit,Party.keysOf,timeoutExpected] using toTaker,
        (absurd · shape)⟩

-- Every payout of a close goes to a party, under that party's own flag; a bond's, to its maker.
theorem CloseAccepts.destined (accepts : CloseAccepts input proof outputs context verifier batch edge total staged)
    (traced : batch.Traced known) (injective : Set.InjOn Terms.hash known)
    (covered : ∀ terms ∈ (Tx.closeEdge input proof outputs).hashesTerms, terms ∈ known) (paid : payout ∈ outputs.items) :
    ∃ party : Party, (party.keysOf edge.parties).isDestination payout (proof.ownerExit (batch.contest context.network input) party) = true ∧
      (edge.allowed = .workStakeBond → party = .maker) := by
  have wrongKind (party : Party) (kind : proof.kind ≠ .timeout) :
      edge.allowed = .workStakeBond → party = .maker :=
    fun allowed => absurd (allows_bond allowed accepts.allowed) kind
  cases checkProof_exact.mp accepts.proved with
  | mutualClose early destined makerSigned takerSigned =>
    rcases destined payout paid with toMaker | toTaker
    · exact ⟨.maker,toMaker,wrongKind _ (by intro same; cases same)⟩
    · exact ⟨.taker,toTaker,wrongKind _ (by intro same; cases same)⟩
  | timeout bound leased due commits signed listed =>
    rename_i terms owner lease committed
    have member : terms ∈ known := covered terms terms.mem_hashes
    have opened := traced.revealed injective accepts.live member bound
    obtain ⟨party,destined,bondMaker⟩ := timeout_destined opened commits signed listed paid (batch.contest context.network input)
    refine ⟨party,destined,fun allowed => bondMaker ?_⟩
    obtain ⟨bond,rfl⟩ := Terms.of_bondCloses (opened.allowed.symm.trans allowed)
    rfl
  | freeze window read provided split makerSigned takerSigned =>
    rename_i earned validFrom validThrough provider maker taker pending
    obtain ⟨party,destined⟩ := checkSplit_destined split paid
    have retired : batch.contest context.network input = pending := by
      simp [Batch.contest,read,Except.toOption]
    refine ⟨party,?_,wrongKind _ (by intro same; cases same)⟩
    rw [retired,Proof.ownerExit_payment rfl]
    exact destined
  | adjudicated read settled provided split committed =>
    rename_i commitment record provider
    obtain ⟨party,destined⟩ := checkSplit_destined split paid
    have retired : batch.contest context.network input = some record := by
      simp [Batch.contest,read,Except.toOption]
    refine ⟨party,?_,wrongKind _ (by intro same; cases same)⟩
    rw [retired,Proof.ownerExit_payment rfl]
    exact destined

-- No coin is spent but by its owner or its delegate, no close pays but the parties of its edge under
-- their own flags, and a move touches neither coins nor edges.
theorem spends_authorized {backend : Backend} {tx : Tx} {outcome : ApplyOutcome}
    (applied : State.apply backend context verifier batch tx = .ok (outcome, next)) :
    (∀ id ∈ tx.consumesCoins, ∃ coin, batch.coin id = some coin ∧ SpentBy context verifier coin tx) ∧
    (∀ id coin, batch.coin id = some coin → next.coin id ≠ some coin → id ∈ tx.consumesCoins) ∧
    (∀ hashed seeds start steps, Chain hashed backend seeds start steps →
      Set.InjOn Terms.hash hashed.terms → hashed.Covers ⟨context,verifier,tx⟩ →
      batch = State.run backend start steps → ∀ input proof outputs,
      tx = .closeEdge input proof outputs → ∃ edge, batch.edge input = some edge ∧
        ∀ id coin, next.coin id = some coin → batch.coin id ≠ some coin →
          ∃ (party : Party) (value : UInt64), coin = ((party.keysOf edge.parties).payout value
            (proof.ownerExit (batch.contest context.network input) party)).coin) ∧
    ∀ action, tx = .move action → next.coins = batch.coins ∧ next.edges = batch.edges := by
  have accepted := apply_accepted applied
  refine ⟨fun id consumed => accepted.spent consumed,?_,?_,?_⟩
  · intro id coin live changed
    by_contra unspent
    exact changed (accepted.coins.kept live unspent)
  · rintro hashed seeds start steps chain termsIds covers rfl input proof outputs rfl
    obtain ⟨edge,total,staged,accepts⟩ := accepted.close_parts
    refine ⟨edge,accepts.live,fun id coin live fresh => ?_⟩
    rcases accepted.coins.origin live with created | ⟨before,-⟩
    · obtain ⟨index,payout,position,same⟩ := mem_issueCoins.mp created
      cases same
      obtain ⟨party,destined,-⟩ := accepts.destined chain.traced termsIds covers.terms
        (List.mem_of_getElem? position)
      exact ⟨party,payout.value,congrArg Payout.coin (beq_iff_eq.mp destined)⟩
    · exact absurd before fresh
  · rintro action rfl
    cases accepted with
    | started => exact ⟨rfl,rfl⟩
    | responded => exact ⟨rfl,rfl⟩

end Paying

namespace Sample

attribute [local instance] checksum

-- The settlement of the answered contest, which both owners acted on.
theorem spends_authorized_settle :
    let state := State.run .acceptAll start contest
    let proof := Proof.adjudicated
      (record.contestCommitment network paymentEdge (Terms.workPayment payment).hash)
    Chain hashed .acceptAll seeds start contest ∧
    ∃ outcome next, State.apply .acceptAll settle.context settle.verifier state settle.tx =
        .ok (outcome, next) ∧
      ∃ edge, state.edge paymentEdge = some edge ∧
        ∀ id coin, next.coin id = some coin → state.coin id ≠ some coin →
          ∃ (party : Party) (value : UInt64), coin = ((party.keysOf edge.parties).payout value
            (proof.ownerExit (state.contest network paymentEdge) party)).coin := by
  intro state proof
  have accepted : (State.apply .acceptAll settle.context settle.verifier state
      settle.tx).isOk = true := by
    decide +kernel
  cases applied : State.apply .acceptAll settle.context settle.verifier state settle.tx with
  | error error => simp [applied,Except.isOk,Except.toBool] at accepted
  | ok result =>
    obtain ⟨outcome,next⟩ := result
    exact ⟨contest_chain,outcome,next,rfl,(spends_authorized applied).2.2.1 hashed seeds start
      contest contest_chain termsIds (channel_covered settle (by simp [channel])) rfl paymentEdge
      proof shares rfl⟩

end Sample

end Hellas.Kernel
