import Hellas.Invariants.Insurance

-- The contest over a payment close as the state machine it is: none, started, answered, retired.

namespace Hellas.Kernel

open Guard Words

def Tx.starts (id : EdgeId) : Tx → Bool
  | .move (.startPaymentClose start) => start.paymentEdge = id
  | _ => false

def Tx.responds (id : EdgeId) : Tx → Bool
  | .move (.respondPaymentClose response) => response.paymentEdge = id
  | _ => false

-- What an accepted transaction does to the contest of one edge.
inductive ContestStep [Xet] (context : Context) (verifier : SigVerifier) (batch : Batch)
    (id : EdgeId) (tx : Tx) : Option PendingPaymentClose → Option PendingPaymentClose → Prop where
  | idle {record : Option PendingPaymentClose} (unstarted : tx.starts id = false)
      (unanswered : tx.responds id = false) : ContestStep context verifier batch id tx record record
  | started {start : PaymentCloseStart} {edge : Edge} {payment : WorkPaymentTerms}
      {record : PendingPaymentClose} (submitted : tx = .move (.startPaymentClose start))
      (named : start.paymentEdge = id)
      (accepts : StartAccepts start context verifier batch edge payment record) :
      ContestStep context verifier batch id tx none (some record)
  | responded {response : PaymentCloseResponse} {edge : Edge} {record : PendingPaymentClose}
      (submitted : tx = .move (.respondPaymentClose response)) (named : response.paymentEdge = id)
      (accepts : ResponseAccepts response context verifier batch edge record) :
      ContestStep context verifier batch id tx (some record)
        (some (record.withAcceptedResponse response))
  | retired {record : Option PendingPaymentClose} {proof : Proof} {outputs : Payouts} {edge : Edge}
      {total : UInt64} {staged : StagedCloseRegistry}
      (submitted : tx = .closeEdge id proof outputs)
      (accepts : CloseAccepts id proof outputs context verifier batch edge total staged) :
      ContestStep context verifier batch id tx record none

section Machine

variable [Xet] {context : Context} {verifier : SigVerifier} {batch next : Batch} {tx : Tx}
  {slots : Set SlotName} {id : EdgeId} {record : Option PendingPaymentClose}

theorem Accepted.contest_step (accepted : Accepted context verifier batch tx next)
    (injective : Set.InjOn SlotName.id slots) (covered : ∀ name ∈ tx.hashesSlots context.network, name ∈ slots)
    (known : SlotName.contest context.network id ∈ slots) (stored : ContestAt context.network batch id record) :
    ∃ after, ContestAt context.network next id after ∧ ContestStep context verifier batch id tx record after := by
  refine ⟨_,accepted.contest_after injective covered known stored,?_⟩
  cases accepted with
  | opened accepts => exact .idle rfl rfl
  | closed accepts distinct pushed =>
    rename_i input proof outputs _ _ _ _
    cases proof with
    | mutualClose | timeout => exact .idle rfl rfl
    | freeze | adjudicated =>
      by_cases here : id = input
      · subst here
        rw [contestAfter,if_pos ⟨rfl,rfl⟩]
        exact .retired rfl accepts
      · rw [contestAfter,if_neg fun both => here both.2]
        exact .idle rfl rfl
  | started accepts written =>
    rename_i start _ _ _ _
    by_cases here : id = start.paymentEdge
    · subst here
      have absent := accepts.absent
      rw [stored.read] at absent
      cases absent
      rw [contestAfter,if_pos ⟨rfl,rfl⟩,accepts.opened]
      exact .started rfl rfl accepts
    · rw [contestAfter,if_neg fun both => here both.2]
      exact .idle (by simpa [Tx.starts] using fun same => here same.symm) rfl
  | responded accepts written =>
    rename_i response _ _ _
    by_cases here : id = response.paymentEdge
    · subst here
      have pending := accepts.pending
      rw [stored.read] at pending
      cases pending
      rw [contestAfter,if_pos ⟨rfl,rfl⟩]
      exact .responded rfl rfl accepts
    · rw [contestAfter,if_neg fun both => here both.2]
      exact .idle rfl (by simpa [Tx.responds] using fun same => here same.symm)
  | reshaped accepts => exact .idle rfl rfl

end Machine

-- What never changes while a contest lives, and what only rises.
structure PendingPaymentClose.Advances (before after : PendingPaymentClose) : Prop where
  startId : after.startId = before.startId
  responseDeadline : after.responseDeadline = before.responseDeadline
  startCumulative : after.startCumulative = before.startCumulative
  openerRole : after.openerRole = before.openerRole
  penaltyAmount : after.penaltyAmount = before.penaltyAmount
  finalCumulative : before.finalCumulative.toNat ≤ after.finalCumulative.toNat

-- A stored record, measured against what its edge can pay.
structure PendingPaymentClose.Fair (settlement : WorkPaymentSettlement)
    (record : PendingPaymentClose) : Prop where
  rises : record.startCumulative.toNat ≤ record.finalCumulative.toNat
  responded : record.responded = true ↔
    record.startCumulative.toNat < record.finalCumulative.toNat
  penaltyDue : record.penaltyDue = true ↔ record.responded = true ∧ record.openerRole = .maker
  penaltyAmount : record.penaltyAmount = settlement.omissionBond
  funded : record.finalCumulative.toNat + record.penaltyAmount.toNat ≤
    min settlement.freezeTotal.toNat settlement.adjudicatedTotal.toNat

namespace PendingPaymentClose

theorem Advances.refl {record : PendingPaymentClose} : record.Advances record := ⟨rfl,rfl,rfl,rfl,rfl,Nat.le_refl _⟩

theorem Advances.trans {first : PendingPaymentClose} (early : first.Advances second) (late : second.Advances third) :
    first.Advances third where
  startId := late.startId.trans early.startId
  responseDeadline := late.responseDeadline.trans early.responseDeadline
  startCumulative := late.startCumulative.trans early.startCumulative
  openerRole := late.openerRole.trans early.openerRole
  penaltyAmount := late.penaltyAmount.trans early.penaltyAmount
  finalCumulative := early.finalCumulative.trans late.finalCumulative

end PendingPaymentClose

theorem checkCapacity_exact {edge : Edge} {bond amount : UInt64} {done : Unit} :
    checkCapacity edge bond amount = .ok done ↔ ∃ settlement, workPaymentSettlement edge.values bond = some settlement ∧
        amount.toNat ≤ settlement.capacity.toNat := by
  simp only [checkCapacity,paymentCapacity,bind_ok,okOr_ok,rejectIf_ok,Option.bind_eq_bind,Option.bind_eq_some_iff,
    Option.pure_def,Option.some.injEq,gt_iff_lt,UInt64.not_lt,UInt64.le_iff_toNat_le]
  constructor
  · rintro ⟨_,⟨settlement,found,rfl⟩,within⟩
    exact ⟨settlement,found,within⟩
  · rintro ⟨settlement,found,within⟩
    exact ⟨_,⟨settlement,found,rfl⟩,within⟩

section Records

variable [Xet] {context : Context} {verifier : SigVerifier} {batch : Batch} {edge : Edge}
  {record : PendingPaymentClose}

variable {payment : WorkPaymentTerms}

omit [Xet] in
theorem PendingPaymentClose.opened_fair {input : EdgeId} {opener : Party} {startId : StartId} {deadline claimed : UInt64} {owner : Bool}
    (settles : workPaymentSettlement edge.values payment.omissionBond = some settlement)
    (within : claimed.toNat ≤ settlement.capacity.toNat) :
    (PendingPaymentClose.opened input opener startId deadline (claimed, payment.omissionBond) owner).Fair settlement := by
  obtain ⟨-,-,least,bond⟩ := workPaymentSettlement_exact.mp settles
  refine ⟨Nat.le_refl _,?_,?_,bond.symm,?_⟩
  · simp [PendingPaymentClose.opened]
  · simp [PendingPaymentClose.opened]
  · change _ + payment.omissionBond.toNat ≤ _
    rw [least]
    exact (Nat.add_le_add_right within _).trans (Nat.le_of_eq (Nat.add_comm _ _))

theorem StartAccepts.fair {start : PaymentCloseStart} (accepts : StartAccepts start context verifier batch edge payment record)
    (settles : workPaymentSettlement edge.values payment.omissionBond = some settlement) :
    record.Fair settlement := by
  have opened := accepts.opened
  have certified := accepts.certified
  cases claim : start.certificate with
  | none =>
    simp only [PendingPaymentClose.fromAcceptedStart,accepts.terms,claim,Option.bind_eq_bind,
      Option.bind_eq_some_iff,Option.pure_def,Option.some.injEq] at opened
    obtain ⟨deadline,-,rfl⟩ := opened
    exact PendingPaymentClose.opened_fair settles (Nat.zero_le _)
  | some signed =>
    simp only [PendingPaymentClose.fromAcceptedStart,accepts.terms,claim,Option.bind_eq_bind,
      Option.bind_eq_some_iff,Option.pure_def,Option.some.injEq] at opened
    simp only [checkStartCertificate,claim,bind_ok,checkCapacity_exact] at certified
    obtain ⟨deadline,-,rfl⟩ := opened
    obtain ⟨_,-,_,-,found,same,within⟩ := certified
    rw [settles] at same
    cases same
    exact PendingPaymentClose.opened_fair settles within

theorem ResponseAccepts.advances (accepts : ResponseAccepts response context verifier batch edge record) :
    record.Advances (record.withAcceptedResponse response) :=
  ⟨rfl,rfl,rfl,rfl,rfl,Nat.le_of_lt (UInt64.lt_iff_toNat_lt.mp accepts.raises)⟩

theorem ResponseAccepts.fair (accepts : ResponseAccepts response context verifier batch edge record)
    (settles : workPaymentSettlement edge.values settlement.omissionBond = some settlement)
    (fair : record.Fair settlement) : (record.withAcceptedResponse response).Fair settlement := by
  obtain ⟨-,-,least,-⟩ := workPaymentSettlement_exact.mp settles
  obtain ⟨found,same,within⟩ := checkCapacity_exact.mp accepts.funded
  rw [fair.penaltyAmount,settles] at same
  cases same
  have raises := UInt64.lt_iff_toNat_lt.mp accepts.raises
  have rises := fair.rises
  have clear : record.penaltyDue = false := by
    by_contra due
    have answered := (fair.penaltyDue.mp (by simpa using due)).1
    rw [accepts.unanswered] at answered
    cases answered
  refine ⟨?_,?_,?_,fair.penaltyAmount,?_⟩
  · change record.startCumulative.toNat ≤ response.certificate.earnedCumulative.toNat
    omega
  · change true = true ↔ record.startCumulative.toNat < response.certificate.earnedCumulative.toNat
    simp only [true_iff]
    omega
  · simp [PendingPaymentClose.withAcceptedResponse,PendingPaymentClose.respondedAt,clear]
  · change response.certificate.earnedCumulative.toNat + record.penaltyAmount.toNat ≤ _
    rw [fair.penaltyAmount,least]
    omega

theorem Edge.OpenedWith.payment_locked (opened : edge.OpenedWith (.workPayment payment)) : 0 < edge.locked := by
  obtain ⟨settlement,settles,positive⟩ := opened.payment payment rfl
  obtain ⟨frozen,-,least,-⟩ := workPaymentSettlement_exact.mp settles
  have balanced := (EdgeValues.closeValue_exact.mp frozen).2
  rw [ne_eq,← UInt64.toNat_inj,UInt64.toNat_zero] at positive
  simp only [Edge.values] at balanced
  unfold Edge.locked
  omega

end Records

section Invariant

variable [Xet]

def InContest (network : NetworkId) (id : EdgeId) (batch : Batch) : Prop := ∃ record, ContestAt network batch id (some record)

def Answered (network : NetworkId) (id : EdgeId) (batch : Batch) : Prop :=
  ∃ record, ContestAt network batch id (some record) ∧ record.responded = true

def FairAt (hashed : Hashed) (batch : Batch) (id : EdgeId) (record : PendingPaymentClose) : Prop :=
  ∃ edge payment settlement, batch.edge id = some edge ∧ Terms.workPayment payment ∈ hashed.terms ∧ edge.OpenedWith (.workPayment payment) ∧
    workPaymentSettlement edge.values payment.omissionBond = some settlement ∧
    record.Fair settlement

structure Contested (hashed : Hashed) (network : NetworkId) (past : List Taken) (batch : Batch) :
    Prop where
  starts : ∀ id, SlotName.contest network id ∈ hashed.slots →
    Once id (Tx.starts id) (InContest network id) past batch
  responses : ∀ id, SlotName.contest network id ∈ hashed.slots →
    Once id (Tx.responds id) (Answered network id) past batch
  begun : ∀ id record, SlotName.contest network id ∈ hashed.slots →
    ContestAt network batch id (some record) →
      0 < occurrences (Tx.starts id) past
  fair : ∀ id record, SlotName.contest network id ∈ hashed.slots →
    ContestAt network batch id (some record) → FairAt hashed batch id record

variable {hashed : Hashed} {network : NetworkId} {seeds : List Genesis} {past : List Taken}
  {batch next : Batch} {context : Context} {verifier : SigVerifier} {tx : Tx} {id : EdgeId}

theorem Accepted.closed_gone (accepted : Accepted context verifier batch tx next)
    (submitted : tx = .closeEdge id proof outputs) : next.edge id = none := by
  rw [accepted.edges.others id (by simp [submitted,Tx.createsEdges]),
    if_pos (by simp [submitted,Tx.consumesEdges])]

theorem FairAt.kept (fair : FairAt hashed batch id record)
    (accepted : Accepted context verifier batch tx next) (live : next.edge id ≠ none) :
    FairAt hashed next id record := by
  obtain ⟨edge,payment,settlement,held,rest⟩ := fair
  rcases accepted.edge_kept held with kept | ⟨proof,outputs,_,_,submitted,-⟩
  · exact ⟨edge,payment,settlement,kept,rest⟩
  · exact absurd (accepted.closed_gone submitted) live

theorem StartAccepts.opened_with (accepts : StartAccepts start context verifier batch edge payment record)
    (traced : batch.Traced hashed.terms) (termsIds : Set.InjOn Terms.hash hashed.terms)
    (covered : ∀ terms ∈ start.terms.hashes, terms ∈ hashed.terms) :
    Terms.workPayment payment ∈ hashed.terms ∧ edge.OpenedWith (.workPayment payment) := by
  have bound := accepts.bound
  rw [accepts.terms] at bound covered
  have known : Terms.workPayment payment ∈ hashed.terms := covered _ (Terms.mem_hashes _)
  exact ⟨known,traced.revealed termsIds accepts.live known bound⟩

namespace Contested

variable {step : Step} (contested : Contested hashed network past batch) (ledger : Ledger hashed seeds past batch)
  (sound : RegistrySound hashed network batch) (apart : hashed.Apart) (covers : hashed.Covers step)
  (here : step.context.network = network) (accepted : Accepted step.context step.verifier batch step.tx next)

section Slot

variable (known : SlotName.contest network id ∈ hashed.slots)

include sound apart covers here accepted known in
theorem moved : ∃ before after, ContestAt network batch id before ∧ ContestAt network next id after ∧
    ContestStep step.context step.verifier batch id step.tx before after := by
  subst here
  obtain ⟨before,stored⟩ := sound.whole.contest _ id known
  obtain ⟨after,written,moved⟩ := accepted.contest_step apart.slots covers.slots known stored
  exact ⟨before,after,stored,written,moved⟩

include contested ledger sound apart covers here accepted known

theorem starts_step :
    Once id (Tx.starts id) (InContest network id) (past ++ [⟨batch,step,next⟩]) next := by
  obtain ⟨before,after,stored,written,moved⟩ := moved sound apart covers here accepted known
  refine (contested.starts id known).carried ledger apart.edges covers accepted ?_ ?_
  · intro starts
    cases moved with
    | idle unstarted =>
      rw [starts] at unstarted
      cases unstarted
    | started submitted named accepts =>
      have terms := covers.terms
      rw [submitted] at terms
      obtain ⟨-,opened⟩ := accepts.opened_with sound.traced apart.terms terms
      refine ⟨?_,⟨_,written⟩,_,named ▸ accepts.live,opened.payment_locked⟩
      rintro ⟨record,held⟩
      cases held.unique stored
    | responded submitted => simp [submitted,Tx.starts] at starts
    | retired submitted => simp [submitted,Tx.starts] at starts
  · rintro ⟨record,held⟩
    cases held.unique stored
    cases moved with
    | idle => exact .inl ⟨_,written⟩
    | responded => exact .inl ⟨_,written⟩
    | retired submitted => exact .inr (accepted.closed_gone submitted)

theorem responses_step :
    Once id (Tx.responds id) (Answered network id) (past ++ [⟨batch,step,next⟩]) next := by
  obtain ⟨before,after,stored,written,moved⟩ := moved sound apart covers here accepted known
  refine (contested.responses id known).carried ledger apart.edges covers accepted ?_ ?_
  · intro responds
    cases moved with
    | idle _ unanswered =>
      rw [responds] at unanswered
      cases unanswered
    | started submitted => simp [submitted,Tx.responds] at responds
    | responded submitted named accepts =>
      obtain ⟨edge,payment,_,live,-,opened,-⟩ := contested.fair id _ known stored
      refine ⟨?_,⟨_,written,rfl⟩,edge,live,opened.payment_locked⟩
      rintro ⟨record,held,answered⟩
      cases held.unique stored
      rw [accepts.unanswered] at answered
      cases answered
    | retired submitted => simp [submitted,Tx.responds] at responds
  · rintro ⟨record,held,answered⟩
    cases held.unique stored
    cases moved with
    | idle => exact .inl ⟨_,written,answered⟩
    | responded => exact .inl ⟨_,written,rfl⟩
    | retired submitted => exact .inr (accepted.closed_gone submitted)

omit ledger in
theorem begun_step (held : ContestAt network next id (some record)) :
    0 < occurrences (Tx.starts id) (past ++ [⟨batch,step,next⟩]) := by
  obtain ⟨before,after,stored,written,moved⟩ := moved sound apart covers here accepted known
  cases written.unique held
  rw [occurrences_snoc]
  cases moved with
  | idle => exact Nat.add_pos_left (contested.begun id _ known stored) _
  | started submitted named =>
    rw [if_pos (by simp [submitted,Tx.starts,named])]
    exact Nat.succ_pos _
  | responded => exact Nat.add_pos_left (contested.begun id _ known stored) _

omit ledger in
theorem fair_step (soundNext : RegistrySound hashed network next) (held : ContestAt network next id (some record)) :
    FairAt hashed next id record := by
  obtain ⟨before,after,stored,written,moved⟩ := moved sound apart covers here accepted known
  cases written.unique held
  obtain ⟨current,live,-⟩ := soundNext.paymentLive id record known held
  have stays : next.edge id ≠ none := by simp [live]
  cases moved with
  | idle => exact (contested.fair id _ known stored).kept accepted stays
  | started submitted named accepts =>
    have terms := covers.terms
    rw [submitted] at terms
    obtain ⟨member,opened⟩ := accepts.opened_with sound.traced apart.terms terms
    obtain ⟨settlement,settles,-⟩ := opened.payment _ rfl
    have fair : FairAt hashed batch id record := ⟨_,_,settlement,named ▸ accepts.live,member,opened,settles,accepts.fair settles⟩
    exact fair.kept accepted stays
  | responded submitted named accepts =>
    obtain ⟨edge,payment,settlement,earlier,member,opened,settles,fair⟩ := contested.fair id _ known stored
    obtain rfl := Option.some.inj ((named ▸ accepts.live).symm.trans earlier)
    have bond := (workPaymentSettlement_exact.mp settles).2.2.2
    have answered : FairAt hashed batch id _ := ⟨_,payment,settlement,earlier,member,opened,settles,accepts.fair (bond ▸ settles) fair⟩
    exact answered.kept accepted stays

end Slot

include contested ledger sound apart covers here accepted in
theorem carried : Contested hashed network (past ++ [⟨batch,step,next⟩]) next where
  starts _ known := contested.starts_step ledger sound apart covers here accepted known
  responses _ known := contested.responses_step ledger sound apart covers here accepted known
  begun _ _ known held := contested.begun_step sound apart covers here accepted known held
  fair _ _ known held := contested.fair_step sound apart covers here accepted known
    (sound.carried apart.slots apart.terms covers here accepted) held

end Contested

end Invariant

section Payouts

variable [Xet] {context : Context} {verifier : SigVerifier} {batch : Batch} {id : EdgeId}
  {proof : Proof} {edge : Edge} {total : UInt64} {record : PendingPaymentClose}

omit [Xet] in
theorem PendingPaymentClose.penalty_le_freeze : record.penalty.toNat ≤ (record.freezePenalty earned).toNat := by
  unfold penalty freezePenalty
  cases record.penaltyDue <;> simp

-- Ending a contest pays the provider everything it ended on, and exactly that unless both sign.
theorem CloseAccepts.pays_contest (accepts : CloseAccepts id proof outputs context verifier batch edge total staged)
    (read : readPendingClose batch context.network id = .ok (some record))
    (ends : proof.kind = .freeze ∨ proof.kind = .adjudicated) :
    ∃ (provider client : UInt64) (signed : Bool × Bool),
      outputs = Payouts.pair (edge.parties.taker.payout provider signed.2, edge.parties.maker.payout client signed.1) ∧
      record.finalCumulative.toNat + record.penalty.toNat ≤ provider.toNat ∧
      (proof.kind = .adjudicated → provider.toNat = record.finalCumulative.toNat + record.penalty.toNat) := by
  cases checkProof_exact.mp accepts.proved with
  | mutualClose => simp [Proof.kind] at ends
  | timeout => simp [Proof.kind] at ends
  | freeze window found provided split =>
    obtain ⟨client,-,paid⟩ := checkSplit_exact.mp split
    rw [show readPendingClose batch context.network id = _ from found] at read
    cases read
    simp only [freezeProvider,bind_ok,rejectIf_ok,okOr_ok,checkedAdd_exact,UInt64.not_lt,UInt64.le_iff_toNat_le] at provided
    obtain ⟨_,above,summed⟩ := provided
    refine ⟨_,client,_,paid,?_,by simp [Proof.kind]⟩
    rw [← summed]
    exact Nat.add_le_add above record.penalty_le_freeze
  | adjudicated found settled provided split =>
    obtain ⟨client,-,paid⟩ := checkSplit_exact.mp split
    rw [show readPendingClose batch context.network id = _ from found] at read
    cases read
    exact ⟨_,client,_,paid,Nat.le_of_eq provided,fun _ => provided.symm⟩

end Payouts

section Runs

variable [Xet] {hashed : Hashed} {backend : Backend} {seeds : List Genesis} {start : Batch}
  {steps : List Step} {network : NetworkId} {id : EdgeId}

-- Everything that holds of a history and the store it ends in.
structure Upheld (hashed : Hashed) (network : NetworkId) (seeds : List Genesis)
    (past : List Taken) (batch : Batch) : Prop where
  ledger : Ledger hashed seeds past batch
  sound : RegistrySound hashed network batch
  contested : Contested hashed network past batch

theorem Upheld.carried (upheld : Upheld hashed network seeds past batch) (seedsApart : SeedsApart hashed seeds)
    (apart : hashed.Apart) (covers : hashed.Covers step) (here : step.context.network = network)
    (accepted : Accepted step.context step.verifier batch step.tx next) :
    Upheld hashed network seeds (past ++ [⟨batch,step,next⟩]) next where
  ledger := upheld.ledger.carried seedsApart apart.coins apart.edges covers accepted
  sound := upheld.sound.carried apart.slots apart.terms covers here accepted
  contested := upheld.contested.carried upheld.ledger upheld.sound apart covers here accepted

theorem genesis_upheld (seeded : State.genesis backend .empty seeds = .ok start) :
    Upheld hashed network seeds [] start := by
  have vacant : ∀ id record, ¬ContestAt network start id (some record) := by
    rintro id record ⟨chunk,-,-,held⟩
    rw [genesis_vacant seeded] at held
    cases held
  exact ⟨genesis_ledger seeded,genesis_sound seeded,fun _ _ => .initial,fun _ _ => .initial,
    fun id record _ held => (vacant id record held).elim,
    fun id record _ held => (vacant id record held).elim⟩

theorem Chain.upheld (chain : Chain hashed backend seeds start steps) (seedsApart : SeedsApart hashed seeds) (apart : hashed.Apart)
    (oneNetwork : ∀ step ∈ steps, step.context.network = network) :
    Upheld hashed network seeds (State.trace backend start steps) (State.run backend start steps) :=
  Runs.run_history (fun step => hashed.Covers step ∧ step.context.network = network)
    (motive := Upheld hashed network seeds) (genesis_upheld chain.seeded)
    (fun _ _ _ _ fits stepped upheld => upheld.carried seedsApart apart fits.1 fits.2 (next_accepted stepped))
    steps (fun step member => ⟨chain.covered step member,oneNetwork step member⟩)

-- From the state in which a record is first seen, every later record of the edge advances it.
theorem Chain.record_advances (chain : Chain hashed backend seeds start (early ++ rest))
    (seedsApart : SeedsApart hashed seeds) (apart : hashed.Apart) (oneNetwork : ∀ step ∈ early ++ rest, step.context.network = network)
    (known : SlotName.contest network id ∈ hashed.slots)
    (first : ContestAt network (State.run backend start early) id (some record)) :
    ∀ later, ContestAt network (State.run backend start (early ++ rest)) id (some later) → record.Advances later := by
  have before := (chain.initially (List.prefix_append early rest)).upheld seedsApart apart
    fun step member => oneNetwork step (List.mem_append_left _ member)
  have begun := before.contested.begun id record known first
  rw [State.run,Runs.run_append]
  refine (Runs.run_history (fun step => hashed.Covers step ∧ step.context.network = network)
    (motive := fun past batch =>
      Upheld hashed network seeds (State.trace backend start early ++ past) batch ∧
      ∀ later, ContestAt network batch id (some later) → record.Advances later) ?_ ?_ rest
    (fun step member => ⟨chain.covered step (List.mem_append_right _ member),
      oneNetwork step (List.mem_append_right _ member)⟩)).2
  · refine ⟨by rwa [List.append_nil],fun later held => ?_⟩
    cases first.unique held
    exact .refl
  · rintro past batch step next ⟨covers,here⟩ stepped ⟨upheld,advances⟩
    have accepted := next_accepted stepped
    refine ⟨?_,fun later held => ?_⟩
    · rw [← List.append_assoc]
      exact upheld.carried seedsApart apart covers here accepted
    subst here
    obtain ⟨old,stored⟩ := upheld.sound.whole.contest _ id known
    obtain ⟨after,written,moved⟩ := accepted.contest_step apart.slots covers.slots known stored
    cases written.unique held
    cases moved with
    | idle => exact advances _ stored
    | responded submitted named accepts => exact (advances _ stored).trans accepts.advances
    | started submitted named accepts =>
      -- A second start would find the record, or the edge gone.
      have fresh := (upheld.contested.starts id known).fresh (fun read => by obtain ⟨_,other⟩ := read; cases other.unique stored)
        (by simp [← named,accepts.live])
      rw [occurrences,List.countP_append] at fresh
      rw [occurrences] at begun
      omega

theorem RegistrySound.contest_of_read (sound : RegistrySound hashed network batch)
    (known : SlotName.contest network id ∈ hashed.slots) (read : readPendingClose batch network id = .ok (some record)) :
    ContestAt network batch id (some record) := by
  obtain ⟨held,stored⟩ := sound.whole.contest network id known
  rw [stored.read] at read
  cases read
  exact stored

-- One start and one answer in the whole run; a record only rises, is always fair, is not answered
-- late, and whatever ends it pays what it says.
theorem contest_machine (chain : Chain hashed backend seeds start steps) (seedsApart : SeedsApart hashed seeds)
    (apart : hashed.Apart) (oneNetwork : ∀ step ∈ steps, step.context.network = network)
    (known : SlotName.contest network id ∈ hashed.slots) :
    let trace := State.trace backend start steps
    (occurrences (Tx.starts id) trace ≤ 1 ∧ occurrences (Tx.responds id) trace ≤ 1) ∧
    (∀ early late, early <+: late → late <+: steps → ∀ record later,
      readPendingClose (State.run backend start early) network id = .ok (some record) →
      readPendingClose (State.run backend start late) network id = .ok (some later) →
        record.Advances later) ∧
    (∀ early, early <+: steps → ∀ record,
      readPendingClose (State.run backend start early) network id = .ok (some record) →
        FairAt hashed (State.run backend start early) id record) ∧
    (∀ taken ∈ trace, ∀ response, taken.input.tx = .move (.respondPaymentClose response) →
      response.paymentEdge = id → ∃ record,
        readPendingClose taken.before network id = .ok (some record) ∧
          taken.input.context.blockHeight.value < record.responseDeadline) ∧
    ∀ taken ∈ trace, ∀ proof outputs edge record, taken.input.tx = .closeEdge id proof outputs →
      taken.before.edge id = some edge →
      readPendingClose taken.before network id = .ok (some record) →
      proof.kind = .freeze ∨ proof.kind = .adjudicated →
        ∃ (provider client : UInt64) (signed : Bool × Bool),
          outputs = Payouts.pair (edge.parties.taker.payout provider signed.2,
            edge.parties.maker.payout client signed.1) ∧
          record.finalCumulative.toNat + record.penalty.toNat ≤ provider.toNat ∧
          (proof.kind = .adjudicated →
            provider.toNat = record.finalCumulative.toNat + record.penalty.toNat) := by
  intro trace
  have contested : Contested hashed network trace _ := (chain.upheld seedsApart apart oneNetwork).contested
  have reached : ∀ {early}, early <+: steps → Upheld hashed network seeds
      (State.trace backend start early) (State.run backend start early) := fun within =>
    (chain.initially within).upheld seedsApart apart fun step member => oneNetwork step (within.subset member)
  have located : ∀ taken ∈ trace, taken.input.context.network = network ∧
      Accepted taken.input.context taken.input.verifier taken.before taken.input.tx taken.after := by
    intro taken member
    obtain ⟨early,within,-⟩ := Runs.trace_reached member
    exact ⟨oneNetwork _ (within.subset (by simp)),next_accepted (Runs.trace_step member)⟩
  refine ⟨⟨(contested.starts id known).at_most,(contested.responses id known).at_most⟩,
    ?_,?_,?_,?_⟩
  · intro early late within whole record later first second
    have firstHeld := (reached (within.trans whole)).sound.contest_of_read known first
    have secondHeld := (reached whole).sound.contest_of_read known second
    obtain ⟨rest,rfl⟩ := within
    exact (chain.initially whole).record_advances seedsApart apart
      (fun step member => oneNetwork step (whole.subset member)) known firstHeld later secondHeld
  · intro early within record read
    have upheld := reached within
    exact upheld.contested.fair id record known (upheld.sound.contest_of_read known read)
  · intro taken member response submitted named
    obtain ⟨here,accepted⟩ := located taken member
    rw [submitted] at accepted
    subst here named
    obtain ⟨edge,record,accepts⟩ := accepted.response_parts
    exact ⟨record,accepts.pending,accepts.timely⟩
  · intro taken member proof outputs edge record submitted live read ends
    obtain ⟨here,accepted⟩ := located taken member
    rw [submitted] at accepted
    subst here
    obtain ⟨found,total,staged,accepts⟩ := accepted.close_parts
    obtain rfl := Option.some.inj (accepts.live.symm.trans live)
    exact accepts.pays_contest read ends

end Runs

namespace Sample

attribute [local instance] checksum

theorem payment_known : SlotName.contest network paymentEdge ∈ hashed.slots := by
  have found : SlotName.contest network paymentEdge ∈ channel.flatMap (fun step => step.tx.hashesSlots step.context.network) := by
    decide +kernel
  exact found

theorem contest_read :
    readPendingClose (State.run .acceptAll start contest) network paymentEdge = .ok (some record) := by
  decide +kernel

theorem contest_machine_answered :
    SlotName.contest network paymentEdge ∈ hashed.slots ∧
      FairAt hashed (State.run .acceptAll start contest) paymentEdge record :=
  ⟨payment_known,(contest_machine contest_chain seedsApart channel_apart (fun step member =>
    channel_network step (List.mem_append_left _ member)) payment_known).2.2.1 contest
      List.prefix_rfl record contest_read⟩

end Sample

end Hellas.Kernel
