import Hellas.Kernel.Fold
import Hellas.Lib.Lists

-- What an accepted transaction does to a store: one case per shape, with everything it passed.

namespace Hellas.Kernel

open Guard Words

variable [Xet]

-- The lease a payment open writes; every other open writes nothing.
inductive TakesLease (output : EdgeId) (context : Context) (batch : Batch) :
    Terms → RegistryDiff → Prop where
  | basic : TakesLease output context batch (.basic protocol parties timeout outputs) .empty
  | bond : TakesLease output context batch (.workStakeBond bond) .empty
  | payment {payment : WorkPaymentTerms} {bond : Edge} {first second : RegistryChunk}
      {diff : RegistryDiff}
      (live : batch.edge payment.bondEdge = some bond)
      (bound : bond.terms = payment.bondTermsHash)
      (unleased : readBondLease batch context.network payment.bondEdge = .ok none)
      (written : BondLease.toChunks ⟨payment.bondEdge,output,(Terms.workPayment payment).hash,
        payment.privatePolicyCommitment,payment.admissionHorizon.value⟩ = some (first, second))
      (staged : diff.mutations = [.write (bondLeaseSlot context.network payment.bondEdge 0) first,
        .write (bondLeaseSlot context.network payment.bondEdge 1) second]) :
      TakesLease output context batch (.workPayment payment) diff

variable {terms : Terms} {context : Context} {batch : Batch} {network : NetworkId}
  {record : PendingPaymentClose} {close : CloseSubject} {verifier : SigVerifier}
  {maker taker : PartyAuth} {staged : StagedCloseRegistry} {owner : Option PartyAuth} {step : Step}

theorem openBondLease_exact :
    openBondLease output terms context batch = .ok diff ↔ TakesLease output context batch terms diff := by
  cases terms with
  | basic protocol parties timeout outputs =>
    rw [openBondLease]
    · exact ⟨fun same => by cases same; exact .basic,fun taken => by cases taken; rfl⟩
    · intro payment same
      cases same
  | workStakeBond bond =>
    rw [openBondLease]
    · exact ⟨fun same => by cases same; exact .bond,fun taken => by cases taken; rfl⟩
    · intro payment same
      cases same
  | workPayment payment =>
    simp only [openBondLease,bind_ok,okOr_ok,rejectIf_ok,mapError_ok,createMutations,Option.bind_eq_bind,
      Option.bind_eq_some_iff,Option.pure_def,Option.some.injEq,RegistryDiff.pushAll_exact,ne_eq,not_not]
    constructor
    · rintro ⟨bond,live,_,bound,lease,read,_,absent,_,⟨⟨first,second⟩,written,rfl⟩,
        staged⟩
      have free : lease = none := by simpa using absent
      exact .payment live bound (free ▸ read) written staged
    · rintro (_ | _ | ⟨live,bound,unleased,written,staged⟩)
      exact ⟨_,live,(),bound,none,unleased,(),by simp,_,⟨_,written,rfl⟩,staged⟩

theorem TakesLease.fits {output : EdgeId} {context : Context} {batch : Batch} {terms : Terms}
    {diff : RegistryDiff} (taken : TakesLease output context batch terms diff) :
    diff.Fits batch := by
  cases taken with
  | basic => simp [RegistryDiff.Fits,RegistryDiff.empty]
  | bond => simp [RegistryDiff.Fits,RegistryDiff.empty]
  | payment live bound unleased written staged => simp [RegistryDiff.Fits,staged,RegistryMutation.Fits,RegistryMutation.write]

theorem readBondLease_present (read : readBondLease batch network bond = .ok (some lease)) :
    batch.registryChunk (bondLeaseSlot network bond 0) ≠ none ∧ batch.registryChunk (bondLeaseSlot network bond 1) ≠ none := by
  unfold readBondLease readLeaseSlots at read
  generalize batch.registryChunk (bondLeaseSlot network bond 0) = first at read ⊢
  generalize batch.registryChunk (bondLeaseSlot network bond 1) = second at read ⊢
  cases first <;> cases second <;> simp_all [parseBondLease]

theorem readPendingClose_present (read : readPendingClose batch network edge = .ok (some record)) :
    batch.registryChunk (pendingPaymentCloseSlot network edge) ≠ none := by
  unfold readPendingClose readPendingSlot at read
  intro absent
  rw [absent] at read
  cases read

def retiredLease (network : NetworkId) (input : EdgeId) : Option BondLease → StagedCloseRegistry
  | none => noStagedRegistry
  | some _ => (some (.delete (bondLeaseSlot network input 0)),
    some (.delete (bondLeaseSlot network input 1)))

def retiredContest (network : NetworkId) (input : EdgeId) (pending : Option PendingPaymentClose) :
    StagedCloseRegistry :=
  oneStaged (pending.map fun _ => .delete (pendingPaymentCloseSlot network input))

-- A leased bond whose channel is live waits for its horizon; so does everything that is no bond.
def TimeoutDue (terms : Terms) (lease : Option BondLease) (edge : Edge) (context : Context) (batch : Batch) : Prop :=
  (terms.isWorkBond = true ∧ ∀ held, lease = some held → batch.edge held.paymentEdge = none) ∨
    edge.timeout.value ≤ context.blockHeight.value

-- What each kind of proof establishes about the close it is attached to.
inductive ClosesBy (close : CloseSubject) (context : Context) (verifier : SigVerifier)
    (batch : Batch) : Proof → StagedCloseRegistry → Prop where
  | mutualClose {maker taker : PartyAuth}
      (early : context.blockHeight.value < close.edge.timeout.value)
      (paid : ∀ payout ∈ close.outputs.items,
        close.edge.parties.maker.isDestination payout maker.isOwner = true ∨
          close.edge.parties.taker.isDestination payout taker.isOwner = true)
      (makerSigned : verifyParty verifier maker close.edge.parties.maker (Tx.payloadHash
        context.network close.input .mutualClose close.edge.terms close.outputs) = true)
      (takerSigned : verifyParty verifier taker close.edge.parties.taker (Tx.payloadHash
        context.network close.input .mutualClose close.edge.terms close.outputs) = true) :
      ClosesBy close context verifier batch (.mutualClose maker taker) noStagedRegistry
  | timeout {terms : Terms} {owner : Option PartyAuth} {lease : Option BondLease}
      {committed : Payouts}
      (bound : terms.hash = close.edge.terms)
      (leased : timeoutLease terms context batch close.input = .ok lease)
      (due : TimeoutDue terms lease close.edge context batch)
      (commits : terms.timeoutOutputs = some committed)
      (signed : checkTimeoutOwner close terms owner context verifier = .ok ())
      (paid : close.outputs.items = committed.items.map (timeoutExpected owner)) :
      ClosesBy close context verifier batch (.timeout terms owner)
        (retiredLease context.network close.input lease)
  | freeze {earned validFrom validThrough provider : UInt64} {maker taker : PartyAuth}
      {pending : Option PendingPaymentClose}
      (window : checkValidityWindow context.blockHeight.value (validFrom, validThrough)
        maxFreezeAuthBlocks = .ok ())
      (read : readPendingClose batch context.network close.input = .ok pending)
      (provided : freezeProvider earned pending = .ok provider)
      (split : checkSplit close.edge.parties (close.total, provider)
        (freezeOwnerSigned maker taker pending) close.outputs = .ok ())
      (makerSigned : verifyParty verifier maker close.edge.parties.maker (freezeDigest
        context.network close.input close.edge.terms earned (validFrom, validThrough)) = true)
      (takerSigned : verifyParty verifier taker close.edge.parties.taker (freezeDigest
        context.network close.input close.edge.terms earned (validFrom, validThrough)) = true) :
      ClosesBy close context verifier batch (.freeze earned validFrom validThrough maker taker)
        (retiredContest context.network close.input pending)
  | adjudicated {commitment : PaymentContestCommitment} {record : PendingPaymentClose}
      {provider : UInt64}
      (read : readPendingClose batch context.network close.input = .ok (some record))
      (settled : record.responded = true ∨ record.responseDeadline ≤ context.blockHeight.value)
      (provided : record.finalCumulative.toNat + record.penalty.toNat = provider.toNat)
      (split : checkSplit close.edge.parties (close.total, provider) record.ownerSigned
        close.outputs = .ok ())
      (committed : commitment = record.contestCommitment context.network close.input
        close.edge.terms) :
      ClosesBy close context verifier batch (.adjudicated commitment)
        (retiredContest context.network close.input (some record))

theorem checkMutual_exact :
    checkProof close (.mutualClose maker taker) context verifier batch = .ok staged ↔
      ClosesBy close context verifier batch (.mutualClose maker taker) staged := by
  simp only [checkProof,checkMutual,bind_ok,rejectIf_ok,pure_ok,ge_iff_le,UInt64.not_le,not_not]
  constructor
  · rintro ⟨_,⟨_,early,_,paid,makerSigned,takerSigned⟩,rfl⟩
    exact .mutualClose early paid makerSigned takerSigned
  · rintro ⟨early,paid,makerSigned,takerSigned⟩
    exact ⟨(),⟨(),early,(),paid,makerSigned,takerSigned⟩,rfl⟩

omit [Xet] in
theorem timeoutDue_exact {lease : Option BondLease} {edge : Edge} :
    ¬(¬(terms.isWorkBond = true ∧ lease.filter (fun held => (batch.edge held.paymentEdge).isSome) = none) ∧
        context.blockHeight.value < edge.timeout.value) ↔
      TimeoutDue terms lease edge context batch := by
  rw [not_and_or,not_not,UInt64.not_lt,TimeoutDue]
  simp [Option.filter_eq_none_iff]

omit [Xet] in
theorem payoutsMatch_exact {committed outputs : Payouts} :
    ¬(committed.len ≠ outputs.len ∨ ∃ pair ∈ committed.items.zip outputs.items, timeoutExpected owner pair.1 ≠ pair.2) ↔
      outputs.items = committed.items.map (timeoutExpected owner) := by
  rw [← Lists.zip_matches,not_or,not_ne_iff,BoundedList.len,BoundedList.len]
  simp only [not_exists,not_and,not_ne_iff]

theorem checkTimeout_exact :
    checkProof close (.timeout terms owner) context verifier batch = .ok staged ↔
      ClosesBy close context verifier batch (.timeout terms owner) staged := by
  simp only [checkProof,checkTimeout,bind_ok,okOr_ok,rejectIf_ok,not_ne_iff,pure_ok,timeoutDue_exact,payoutsMatch_exact]
  constructor
  · rintro ⟨_,bound,lease,leased,_,due,committed,commits,_,signed,_,paid,rfl⟩
    have retired : ClosesBy close context verifier batch _ _ := .timeout bound leased due commits signed paid
    cases lease <;> exact retired
  · intro closed
    cases closed with
    | timeout bound leased due commits signed paid =>
      rename_i lease committed
      refine ⟨(),bound,lease,leased,(),due,committed,commits,(),signed,(),paid,?_⟩
      cases lease <;> rfl

theorem checkFreeze_exact :
    checkProof close (.freeze earned validFrom validThrough maker taker) context verifier batch = .ok staged ↔
      ClosesBy close context verifier batch (.freeze earned validFrom validThrough maker taker) staged := by
  simp only [checkProof,checkFreeze,map_ok,bind_ok,mapError_ok,readPending,rejectIf_ok,not_or,not_not,pure_ok]
  constructor
  · rintro ⟨_,⟨_,window,pending,read,provider,provided,_,split,_,⟨makerSigned,
      takerSigned⟩,rfl⟩,rfl⟩
    exact .freeze window read provided split makerSigned takerSigned
  · intro closed
    cases closed with
    | freeze window read provided split makerSigned takerSigned =>
      exact ⟨_,⟨(),window,_,read,_,provided,(),split,(),⟨makerSigned,takerSigned⟩,rfl⟩,rfl⟩

theorem checkAdjudicated_exact :
    checkProof close (.adjudicated commitment) context verifier batch = .ok staged ↔
      ClosesBy close context verifier batch (.adjudicated commitment) staged := by
  simp only [checkProof,checkAdjudicated,map_ok,bind_ok,mapError_ok,readPending,okOr_ok,rejectIf_ok,ne_eq,not_not,not_and_or,
    Bool.not_eq_false,UInt64.not_lt,checkedAdd_exact,pure_ok]
  constructor
  · rintro ⟨_,⟨pending,read,record,rfl,_,settled,provider,provided,_,split,_,committed,
      rfl⟩,rfl⟩
    exact .adjudicated read settled provided split committed
  · intro closed
    cases closed with
    | adjudicated read settled provided split committed => exact ⟨_,⟨_,read,_,rfl,(),settled,_,provided,(),split,(),committed,rfl⟩,rfl⟩

theorem checkProof_exact :
    checkProof close proof context verifier batch = .ok staged ↔ ClosesBy close context verifier batch proof staged := by
  cases proof with
  | mutualClose maker taker => exact checkMutual_exact
  | timeout terms owner => exact checkTimeout_exact
  | freeze earned validFrom validThrough maker taker => exact checkFreeze_exact
  | adjudicated commitment => exact checkAdjudicated_exact

theorem ClosesBy.fits {close : CloseSubject} {proof : Proof} {context : Context}
    {verifier : SigVerifier} {batch : Batch} {staged : StagedCloseRegistry} {diff : RegistryDiff}
    (closed : ClosesBy close context verifier batch proof staged)
    (pushed : diff.mutations = staged.1.toList ++ staged.2.toList) : diff.Fits batch := by
  unfold RegistryDiff.Fits
  rw [pushed]
  cases closed with
  | mutualClose => simp [noStagedRegistry]
  | timeout bound leased =>
    rename_i terms owner lease committed commits due signed paid
    cases lease with
    | none => simp [retiredLease,noStagedRegistry]
    | some lease =>
      have read : readBondLease batch context.network close.input = .ok (some lease) := by
        unfold timeoutLease at leased
        split at leased
        · exact mapError_ok.mp leased
        · cases leased
      have present := readBondLease_present read
      simp [retiredLease,RegistryMutation.Fits,RegistryMutation.delete,present]
  | freeze window read =>
    rename_i pending provided split makerSigned takerSigned
    cases pending with
    | none => simp [retiredContest,oneStaged]
    | some record =>
      have present := readPendingClose_present read
      simp [retiredContest,oneStaged,RegistryMutation.Fits,RegistryMutation.delete,present]
  | adjudicated read =>
    have present := readPendingClose_present read
    simp [retiredContest,oneStaged,RegistryMutation.Fits,RegistryMutation.delete,present]

def contestWritten (network : NetworkId) (input : EdgeId) (chunk : RegistryChunk) (batch : Batch) : Batch :=
  { batch with
    registry := (RegistryMutation.write (pendingPaymentCloseSlot network input) chunk).onto batch.registry }

inductive Accepted (context : Context) (verifier : SigVerifier) (batch : Batch) :
    Tx → Batch → Prop where
  | opened {funding : Funding} {terms : Terms} {makerAuth takerAuth : PartyAuth} {coins : Coins}
      {debits : OpenDebits} {diff : RegistryDiff}
      (accepts : OpenAccepts funding terms makerAuth takerAuth context verifier batch coins debits
        diff) :
      Accepted context verifier batch (.openEdge funding terms makerAuth takerAuth)
        ⟨batch.coins.eraseAll funding.ids,
          batch.edges.insert (edgeId funding terms.hash) debits.edge,diff.onto batch.registry⟩
  | closed {input : EdgeId} {proof : Proof} {outputs : Payouts} {edge : Edge} {total : UInt64}
      {staged : StagedCloseRegistry} {diff : RegistryDiff}
      (accepts : CloseAccepts input proof outputs context verifier batch edge total staged)
      (distinct : ((closeCoins input outputs).map Prod.fst).Nodup)
      (pushed : diff.mutations = staged.1.toList ++ staged.2.toList) :
      Accepted context verifier batch (.closeEdge input proof outputs)
        ⟨batch.coins.insertAll (closeCoins input outputs),batch.edges.erase input,
          diff.onto batch.registry⟩
  | started {start : PaymentCloseStart} {edge : Edge} {payment : WorkPaymentTerms}
      {record : PendingPaymentClose} {chunk : RegistryChunk}
      (accepts : StartAccepts start context verifier batch edge payment record)
      (written : record.toChunk = some chunk) :
      Accepted context verifier batch (.move (.startPaymentClose start))
        (contestWritten context.network start.paymentEdge chunk batch)
  | responded {response : PaymentCloseResponse} {edge : Edge} {record : PendingPaymentClose}
      {chunk : RegistryChunk}
      (accepts : ResponseAccepts response context verifier batch edge record)
      (written : (record.withAcceptedResponse response).toChunk = some chunk) :
      Accepted context verifier batch (.move (.respondPaymentClose response))
        (contestWritten context.network response.paymentEdge chunk batch)
  | reshaped {reshape : Reshape} {coins : Coins} {owner : Key} {held : UInt64}
      (accepts : ReshapeAccepts reshape context verifier batch coins owner held)
      (distinct : ((Reshape.outputCoins context.network reshape.inputs reshape.outputs).map
        Prod.fst).Nodup) :
      Accepted context verifier batch (.owner reshape)
        ⟨(batch.coins.eraseAll reshape.inputs.items).insertAll
            (Reshape.outputCoins context.network reshape.inputs reshape.outputs),
          batch.edges,batch.registry⟩

theorem RecordsContest.onto (records : RecordsContest network input record change) (batch : Batch) :
    ∃ chunk, record.toChunk = some chunk ∧ change.onto batch = contestWritten network input chunk batch := by
  obtain ⟨chunk,diff,written,rfl,staged⟩ := records
  refine ⟨chunk,written,?_⟩
  simp [Change.onto,RegistryDiff.onto,staged,contestWritten]

theorem recordsContest_of {network : NetworkId} {input : EdgeId} {record : PendingPaymentClose}
    {chunk : RegistryChunk} {batch : Batch} (written : record.toChunk = some chunk) :
    ∃ change, RecordsContest network input record change ∧ change.Fits batch ∧
      change.onto batch = contestWritten network input chunk batch := by
  let diff : RegistryDiff := ⟨[.write (pendingPaymentCloseSlot network input) chunk],
    by simp [maxRegistryMutations],by simp⟩
  exact ⟨.hidden diff,⟨chunk,diff,written,rfl,rfl⟩,
    by simp [Change.Fits,RegistryDiff.Fits,diff,RegistryMutation.Fits,RegistryMutation.write],rfl⟩

theorem apply_accepted (applied : State.apply backend context verifier batch tx = .ok (outcome, next)) :
    Accepted context verifier batch tx next := by
  simp only [State.apply,bind_ok,pure_ok,Prod.mk.injEq] at applied
  obtain ⟨change,checked,_,folded,-,rfl⟩ := applied
  obtain ⟨fits,rfl⟩ := Change.fold_parts folded
  cases tx with
  | openEdge funding terms makerAuth takerAuth =>
    obtain ⟨coins,debits,diff,accepts,rfl⟩ := applyOpen_exact.mp checked
    have opened := Accepted.opened accepts
    rwa [← accepts.named] at opened
  | closeEdge input proof outputs =>
    obtain ⟨edge,total,staged,diff,accepts,pushed,rfl⟩ := applyClose_exact.mp checked
    exact .closed accepts fits.1.2.1 pushed
  | move action =>
    cases action with
    | startPaymentClose start =>
      obtain ⟨edge,payment,record,accepts,records⟩ := applyStart_exact.mp checked
      obtain ⟨chunk,written,same⟩ := records.onto batch
      rw [same]
      exact .started accepts written
    | respondPaymentClose response =>
      obtain ⟨edge,record,accepts,records⟩ := applyResponse_exact.mp checked
      obtain ⟨chunk,written,same⟩ := records.onto batch
      rw [same]
      exact .responded accepts written
  | owner reshape =>
    obtain ⟨coins,owner,held,accepts,rfl⟩ := Reshape.apply_exact.mp checked
    have reshaped := Accepted.reshaped accepts fits.1.2.2.1
    rwa [← accepts.named] at reshaped

theorem accepted_apply (accepted : Accepted context verifier batch tx next) :
    ∃ outcome, State.apply .acceptAll context verifier batch tx = .ok (outcome, next) := by
  suffices staged : ∃ change, tx.apply context verifier batch = .ok change ∧ change.Fits batch ∧ change.onto batch = next by
    obtain ⟨change,checked,fits,rfl⟩ := staged
    refine ⟨change.outcome,?_⟩
    simp only [State.apply,bind_ok,pure_ok]
    exact ⟨change,checked,_,Change.fold_accepts fits,rfl⟩
  cases accepted with
  | opened accepts =>
    refine ⟨_,applyOpen_exact.mpr ⟨_,_,_,accepts,rfl⟩,⟨⟨accepts.named ▸ accepts.distinct,accepts.live,accepts.fresh⟩,
        (openBondLease_exact.mp accepts.leased).fits⟩,?_⟩
    rw [← accepts.named]
    rfl
  | closed accepts distinct pushed =>
    exact ⟨_,applyClose_exact.mpr ⟨_,_,_,_,accepts,pushed,rfl⟩,⟨⟨accepts.live,distinct,accepts.free⟩,
        (checkProof_exact.mp accepts.proved).fits pushed⟩,rfl⟩
  | started accepts written =>
    obtain ⟨change,records,fits,same⟩ := recordsContest_of written
    exact ⟨change,applyStart_exact.mpr ⟨_,_,_,accepts,records⟩,fits,same⟩
  | responded accepts written =>
    obtain ⟨change,records,fits,same⟩ := recordsContest_of written
    exact ⟨change,applyResponse_exact.mpr ⟨_,_,accepts,records⟩,fits,same⟩
  | reshaped accepts distinct =>
    refine ⟨_,Reshape.apply_exact.mpr ⟨_,_,_,accepts,rfl⟩,⟨⟨accepts.named ▸ accepts.distinct,accepts.live,distinct,?_⟩,
        by simp [RegistryDiff.Fits,RegistryDiff.empty]⟩,?_⟩
    · intro entry member
      rw [Batch.coin,Slots.lookup_eraseAll]
      split
      · rfl
      · exact accepts.free entry member
    · rw [← accepts.named]
      rfl

theorem next_accepted (stepped : step.next backend store = some after) :
    Accepted step.context step.verifier store step.tx after := by
  unfold Step.next at stepped
  split at stepped
  · rename_i applied
    cases stepped
    exact apply_accepted applied
  · cases stepped

end Hellas.Kernel
