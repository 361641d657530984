import Hellas.Invariants.Channel

-- What holders can count on without anyone's help: objects of worth stay as they are, and a
-- certificate shown in time is paid.

namespace Hellas.Kernel

open Guard Words

-- A run on one network, over a store that takes every insert.
structure Played [Xet] (hashed : Hashed) (network : NetworkId) (seeds : List Genesis) (start : Batch)
    (steps : List Step) : Prop where
  chain : Chain hashed .acceptAll seeds start steps
  seedsApart : SeedsApart hashed seeds
  apart : hashed.Apart
  oneNetwork : ∀ step ∈ steps, step.context.network = network

section Objects

variable [Xet] {hashed : Hashed} {backend : Backend} {seeds : List Genesis} {start : Batch} {early steps : List Step}

theorem Chain.edge_kept (chain : Chain hashed backend seeds start steps) (seedsApart : SeedsApart hashed seeds)
    (coinIds : Set.InjOn CoinName.id hashed.coins) (edgeIds : Set.InjOn Tx.edgeName hashed.edges)
    (within : early <+: steps) (live : (State.run backend start early).edge input = some edge) (worth : 0 < edge.locked)
    (found : (State.run backend start steps).edge input = some other) : other = edge := by
  have edges := (chain.ledger seedsApart coinIds edgeIds).edges
  have first := ((chain.initially within).ledger seedsApart coinIds edgeIds).edges.logged input edge live
  exact edges.unique ((edgesCreated_grows (Runs.trace_grows within)).subset first) worth (edges.logged input other found)

-- An id of worth names one object in the whole run.
theorem objects_never_change (chain : Chain hashed backend seeds start steps) (seedsApart : SeedsApart hashed seeds)
    (coinIds : Set.InjOn CoinName.id hashed.coins) (edgeIds : Set.InjOn Tx.edgeName hashed.edges)
    (within : early <+: steps) :
    (∀ id coin other, (State.run backend start early).coin id = some coin → 0 < coin.value.toNat →
      (State.run backend start steps).coin id = some other → other = coin) ∧
    ∀ id edge other, (State.run backend start early).edge id = some edge → 0 < edge.locked →
      (State.run backend start steps).edge id = some other → other = edge := by
  refine ⟨fun id coin other live worth found => ?_,fun id edge other live worth found =>
    chain.edge_kept seedsApart coinIds edgeIds within live worth found⟩
  have coins := (chain.ledger seedsApart coinIds edgeIds).coins
  have first := ((chain.initially within).ledger seedsApart coinIds edgeIds).coins.logged id coin live
  exact coins.unique ((coinsCreated_grows (Runs.trace_grows within)).subset first) worth (coins.logged id other found)

end Objects

section Channels

variable [Xet] {hashed : Hashed} {network : NetworkId} {seeds : List Genesis} {start : Batch}
  {steps early late : List Step} {id : EdgeId} {edge : Edge} {record : PendingPaymentClose}

theorem Edge.OpenedWith.payment_kind {payment : WorkPaymentTerms} (opened : edge.OpenedWith (.workPayment payment))
    (allowed : edge.allows kind = true) : kind = .freeze ∨ kind = .adjudicated := by
  unfold Edge.allows at allowed
  rw [opened.allowed] at allowed
  change CloseKindSet.workPayment.contains kind = true at allowed
  revert allowed
  cases kind <;> decide

-- The provider comes first and is paid at least this.
def PaysProvider (edge : Edge) (outputs : Payouts) (least : Nat) : Prop :=
  ∃ (provider client : UInt64) (signed : Bool × Bool), outputs = Payouts.pair
    (edge.parties.taker.payout provider signed.2, edge.parties.maker.payout client signed.1) ∧ least ≤ provider.toNat

omit [Xet] in
theorem PaysProvider.mono (pays : PaysProvider edge outputs least) (lower : less ≤ least) :
    PaysProvider edge outputs less := by
  obtain ⟨provider,client,signed,paid,above⟩ := pays
  exact ⟨provider,client,signed,paid,lower.trans above⟩

omit [Xet] in
theorem PendingPaymentClose.Advances.penalty_le (advances : record.Advances later) (fair : record.Fair one)
    (fairLater : later.Fair other) : record.penalty.toNat ≤ later.penalty.toNat := by
  unfold penalty
  rw [advances.penaltyAmount]
  by_cases due : record.penaltyDue = true
  · obtain ⟨answered,opener⟩ := fair.penaltyDue.mp due
    have rises := advances.finalCumulative
    have raised := fair.responded.mp answered
    rw [← advances.startCumulative] at raised
    rw [fairLater.penaltyDue.mpr ⟨fairLater.responded.mpr (by omega),advances.openerRole.trans opener⟩,due]
  · rw [if_neg due]
    exact Nat.zero_le _

namespace Played

theorem initially (played : Played hashed network seeds start steps) (within : early <+: steps) :
    Played hashed network seeds start early :=
  ⟨played.chain.initially within,played.seedsApart,played.apart,fun step member => played.oneNetwork step (within.subset member)⟩

theorem upheld (played : Played hashed network seeds start steps) :
    Upheld hashed network seeds (State.trace .acceptAll start steps) (State.run .acceptAll start steps) :=
  played.chain.upheld played.seedsApart played.apart played.oneNetwork

-- A contest stands as long as its edge does.
theorem stands (played : Played hashed network seeds start (early ++ late)) (known : SlotName.contest network id ∈ hashed.slots)
    (first : ContestAt network (State.run .acceptAll start early) id (some record))
    (live : (State.run .acceptAll start (early ++ late)).edge id ≠ none) :
    ∃ later, ContestAt network (State.run .acceptAll start (early ++ late)) id (some later) ∧ record.Advances later := by
  have begun := (played.initially (List.prefix_append early late)).upheld.contested.begun id record known first
  by_contra ended
  have fresh := (played.upheld.contested.starts id known).fresh (by
    rintro ⟨later,held⟩
    exact ended ⟨later,held,played.chain.record_advances played.seedsApart played.apart played.oneNetwork known first later held⟩) live
  rw [State.trace,Runs.trace_append,occurrences,List.countP_append] at fresh
  rw [State.trace,occurrences] at begun
  omega

-- Whatever ends a contested channel later on pays what the contest had come to.
theorem pays_later (played : Played hashed network seeds start (early ++ late))
    (known : SlotName.contest network id ∈ hashed.slots) (live : (State.run .acceptAll start early).edge id = some edge)
    (first : ContestAt network (State.run .acceptAll start early) id (some record))
    (member : taken ∈ State.trace .acceptAll (State.run .acceptAll start early) late)
    (closes : taken.input.tx = .closeEdge id proof outputs) :
    PaysProvider edge outputs (record.finalCumulative.toNat + record.penalty.toNat) := by
  obtain ⟨_,payment,_,held,-,opened,-,fair⟩ :=
    (played.initially (List.prefix_append early late)).upheld.contested.fair id record known first
  obtain rfl := Option.some.inj (held.symm.trans live)
  obtain ⟨part,inside,reached⟩ := Runs.trace_reached member
  rw [State.run,← Runs.run_append] at reached
  have there := played.oneNetwork _ (List.mem_append_right _ (inside.subset (List.mem_concat_self)))
  have sofar : Played hashed network seeds start (early ++ part) :=
    played.initially ((List.prefix_append_right_inj _).mpr ((List.prefix_append part _).trans inside))
  have accepted := next_accepted (Runs.trace_step member)
  rw [closes,← reached] at accepted
  obtain ⟨other,total,staged,ends⟩ := accepted.close_parts
  obtain rfl := sofar.chain.edge_kept played.seedsApart played.apart.coins played.apart.edges (List.prefix_append early part) live
    opened.payment_locked ends.live
  obtain ⟨later,standing,advances⟩ := sofar.stands known first (by rw [State.run,ends.live]; simp)
  obtain ⟨_,_,_,-,-,-,-,fairLater⟩ := sofar.upheld.contested.fair id later known standing
  obtain ⟨provider,client,signed,paid,least,-⟩ := ends.pays_contest (there ▸ standing.read) (opened.payment_kind ends.allowed)
  have penalty := advances.penalty_le fair fairLater
  have rises := advances.finalCumulative
  exact ⟨provider,client,signed,paid,by omega⟩

-- A move that leaves a record behind is taken, and the record is paid from then on.
theorem recorded {step : Step} (played : Played hashed network seeds start (early ++ [step] ++ late))
    (known : SlotName.contest network id ∈ hashed.slots) (live : (State.run .acceptAll start early).edge id = some edge)
    (written : record.toChunk = some chunk) (named : record.paymentEdge = id)
    (accepted : Accepted step.context step.verifier (State.run .acceptAll start early) step.tx next)
    (left : next = contestWritten step.context.network id chunk (State.run .acceptAll start early)) :
    (∃ next, step.next .acceptAll (State.run .acceptAll start early) = some next) ∧
    ∀ taken ∈ State.trace .acceptAll (State.run .acceptAll start (early ++ [step])) late, ∀ proof outputs,
      taken.input.tx = .closeEdge id proof outputs → PaysProvider edge outputs (record.finalCumulative.toNat + record.penalty.toNat) := by
  have here : step.context.network = network := played.oneNetwork step (by simp)
  subst here
  obtain ⟨outcome,applied⟩ := accepted_apply accepted
  have stepped : step.next .acceptAll (State.run .acceptAll start early) = some next := by rw [Step.next,applied]
  have same : State.run .acceptAll start (early ++ [step]) = next := by
    rw [State.run] at stepped
    rw [State.run,Runs.run_snoc,Runs.advance,stepped]
    rfl
  refine ⟨⟨_,stepped⟩,fun taken member proof outputs closes => played.pays_later known ?_ ?_ member closes⟩
  · rw [same,left]
    exact live
  · rw [same,left]
    exact ⟨chunk,named,written,RegistryMutation.lookup_onto.trans (if_pos rfl)⟩

end Played

-- An answer that meets the checks is accepted, and from then on whatever ends the channel pays its
-- certificate, with the omission bond on top where the payer had opened the contest.
theorem certificate_enforced {step : Step} (played : Played hashed network seeds start (early ++ [step] ++ late))
    {response : PaymentCloseResponse} (submitted : step.tx = .move (.respondPaymentClose response))
    (known : SlotName.contest network response.paymentEdge ∈ hashed.slots)
    (accepts : ResponseAccepts response step.context step.verifier (State.run .acceptAll start early) edge record) :
    (∃ next, step.next .acceptAll (State.run .acceptAll start early) = some next) ∧
    ∀ taken ∈ State.trace .acceptAll (State.run .acceptAll start (early ++ [step])) late, ∀ proof outputs,
      taken.input.tx = .closeEdge response.paymentEdge proof outputs →
        PaysProvider edge outputs (response.certificate.earnedCumulative.toNat +
          if record.openerRole = .maker then record.penaltyAmount.toNat else 0) := by
  have before := played.initially (⟨[step] ++ late,by simp⟩ : early <+: early ++ [step] ++ late)
  have pending := accepts.pending
  rw [played.oneNetwork step (by simp)] at pending
  obtain ⟨_,named,-⟩ := before.upheld.sound.contest_of_read known pending
  obtain ⟨chunk,written⟩ := (record.withAcceptedResponse response).toChunk_some
  obtain ⟨taken,pays⟩ := played.recorded known accepts.live written named (submitted ▸ .responded accepts written) rfl
  refine ⟨taken,fun taken member proof outputs closes => (pays taken member proof outputs closes).mono ?_⟩
  refine Nat.add_le_add_left ?_ _
  split
  · rename_i opener
    simp [PendingPaymentClose.penalty,PendingPaymentClose.withAcceptedResponse,PendingPaymentClose.respondedAt,opener]
  · exact Nat.zero_le _

-- The other way to show one: what a start claims is paid likewise.
theorem start_enforced {step : Step} (played : Played hashed network seeds start (early ++ [step] ++ late))
    {request : PaymentCloseStart} (submitted : step.tx = .move (.startPaymentClose request))
    (known : SlotName.contest network request.paymentEdge ∈ hashed.slots) {payment : WorkPaymentTerms}
    (accepts : StartAccepts request step.context step.verifier (State.run .acceptAll start early) edge payment record) :
    (∃ next, step.next .acceptAll (State.run .acceptAll start early) = some next) ∧
    ∀ taken ∈ State.trace .acceptAll (State.run .acceptAll start (early ++ [step])) late, ∀ proof outputs,
      taken.input.tx = .closeEdge request.paymentEdge proof outputs → PaysProvider edge outputs
        ((request.certificate.map fun shown => shown.1.earnedCumulative.toNat).getD 0) := by
  obtain ⟨chunk,written⟩ := record.toChunk_some
  have opening := accepts.opened
  obtain ⟨taken,pays⟩ := played.recorded known accepts.live written (PendingPaymentClose.fromAcceptedStart_edge opening)
    (submitted ▸ .started accepts written) rfl
  refine ⟨taken,fun taken member proof outputs closes => (pays taken member proof outputs closes).mono ?_⟩
  simp only [PendingPaymentClose.fromAcceptedStart,accepts.terms,Option.bind_eq_bind,Option.bind_eq_some_iff] at opening
  obtain ⟨deadline,-,same⟩ := opening
  cases same
  cases request.certificate <;> simp [PendingPaymentClose.opened]

end Channels

namespace Sample

attribute [local instance] checksum

theorem objects_never_change_channel :
    (∃ edge, (State.run .acceptAll start [openBond,openPayment]).edge paymentEdge = some edge ∧ 0 < edge.locked ∧
      (State.run .acceptAll start contest).edge paymentEdge = some edge) ∧
    ∃ coin, (State.run .acceptAll start settled).coin (.payout paymentEdge 0 provider.owner) = some coin ∧
      coin.value = 150 ∧ (State.run .acceptAll start channel).coin (.payout paymentEdge 0 provider.owner) = some coin := by
  constructor
  · have worth : ((State.run .acceptAll start [openBond,openPayment]).edge paymentEdge).any (fun edge => 0 < edge.locked) = true := by
      decide +kernel
    obtain ⟨edge,live,locked⟩ := (Option.any_eq_true ..).mp worth
    obtain ⟨other,found,-⟩ := payment_live
    have within : [openBond,openPayment] <+: contest := ⟨[startClose,respond],rfl⟩
    have kept := objects_never_change contest_chain seedsApart coinIds edgeIds within
    obtain rfl := kept.2 paymentEdge edge other live (of_decide_eq_true locked) found
    exact ⟨other,live,of_decide_eq_true locked,found⟩
  · have worth : ((State.run .acceptAll start settled).coin (.payout paymentEdge 0 provider.owner)).any (·.value = 150) = true := by
      decide +kernel
    have held : ((State.run .acceptAll start channel).coin (.payout paymentEdge 0 provider.owner)).isSome = true := by decide +kernel
    obtain ⟨coin,live,value⟩ := (Option.any_eq_true ..).mp worth
    obtain ⟨other,found⟩ := Option.isSome_iff_exists.mp held
    have kept := objects_never_change channel_chain seedsApart coinIds edgeIds settled_within
    have same := of_decide_eq_true value
    obtain rfl := kept.1 _ coin other live (by rw [same]; decide) found
    exact ⟨other,live,same,found⟩

theorem certificate_enforced_settled :
    (∃ next, respond.next .acceptAll (State.run .acceptAll start [openBond,openPayment,startClose]) = some next) ∧
    ∃ edge, (State.run .acceptAll start [openBond,openPayment,startClose]).edge paymentEdge = some edge ∧
      PaysProvider edge shares (50 + 100) := by
  have checked : checkResponse answer respond.context respond.verifier
      (State.run .acceptAll start [openBond,openPayment,startClose]) = .ok record := by
    decide +kernel
  obtain ⟨edge,before,accepts,answered⟩ := checkResponse_exact.mp checked
  have played : Played hashed network seeds start ([openBond,openPayment,startClose] ++ [respond] ++ [settle,release]) :=
    ⟨channel_chain,seedsApart,channel_apart,channel_network⟩
  obtain ⟨taken,pays⟩ := certificate_enforced played rfl payment_known accepts
  have closed : ∃ taken ∈ State.trace .acceptAll (State.run .acceptAll start contest) [settle,release], taken.input.tx = settle.tx := by
    decide +kernel
  obtain ⟨closing,member,closes⟩ := closed
  -- The answer leaves the opener and the bond of the record as they were.
  have opener : (before.withAcceptedResponse answer).openerRole = .maker := answered ▸ rfl
  have penalty : (before.withAcceptedResponse answer).penaltyAmount = 100 := answered ▸ rfl
  rw [PendingPaymentClose.withAcceptedResponse,PendingPaymentClose.respondedAt] at opener penalty
  have paid := pays closing member _ _ closes
  rw [opener,penalty] at paid
  exact ⟨taken,edge,accepts.live,paid⟩

-- The provider opens the contest with a certificate over 40, and nobody answers.
def claim : PaymentCloseStart :=
  ⟨paymentEdge,.workPayment payment,.taker,10,19,some (⟨paymentEdge,(Terms.workPayment payment).hash,40⟩, owner),owner⟩
def claimClose : Step := submit 12 (.move (.startPaymentClose claim))
def claimed : PendingPaymentClose := .opened paymentEdge .taker (startIdOf (claim.digest network) 12) 32 (40, 100) true
def claimShares : Payouts := Payouts.pair (.new provider.owner 40, .new client.owner 857)
def settleClaim : Step := submit 32 (.closeEdge paymentEdge (.adjudicated
  (claimed.contestCommitment network paymentEdge (Terms.workPayment payment).hash)) claimShares)
def unanswered : List Step := [openBond,openPayment] ++ [claimClose] ++ [settleClaim]

theorem unanswered_played : Played (Hashed.of unanswered) network seeds start unanswered where
  chain := ⟨seeds_start,fun _ => Hashed.of_covers⟩
  seedsApart := seedsApart_of (by decide +kernel)
  apart := by
    constructor
    all_goals exact Lists.injOn_listed (by decide +kernel)
  oneNetwork := by decide

theorem start_enforced_claimed :
    (∃ next, claimClose.next .acceptAll (State.run .acceptAll start [openBond,openPayment]) = some next) ∧
    ∃ edge, (State.run .acceptAll start [openBond,openPayment]).edge paymentEdge = some edge ∧ PaysProvider edge claimShares 40 := by
  have accepted : (claimClose.next .acceptAll (State.run .acceptAll start [openBond,openPayment])).isSome = true := by
    decide +kernel
  have closed : ∃ taken ∈ State.trace .acceptAll (State.run .acceptAll start ([openBond,openPayment] ++ [claimClose])) [settleClaim],
      taken.input.tx = settleClaim.tx := by
    decide +kernel
  have known : SlotName.contest network paymentEdge ∈ unanswered.flatMap (fun step => step.tx.hashesSlots step.context.network) := by
    decide +kernel
  obtain ⟨next,stepped⟩ := Option.isSome_iff_exists.mp accepted
  obtain ⟨closing,member,closes⟩ := closed
  have started : Accepted _ _ _ (.move (.startPaymentClose claim)) next := next_accepted stepped
  cases started with
  | started accepts =>
    obtain ⟨taken,pays⟩ := start_enforced unanswered_played rfl known accepts
    exact ⟨taken,_,accepts.live,pays closing member _ _ closes⟩

end Sample

end Hellas.Kernel
