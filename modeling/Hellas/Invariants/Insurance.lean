import Hellas.Invariants.Exits

-- A bond insures one payment channel in its whole life, and waits for it.

namespace Hellas.Kernel

open Guard

def Tx.leases (bond : EdgeId) : Tx → Bool
  | .openEdge _ (.workPayment payment) _ _ => payment.bondEdge = bond
  | _ => false

theorem Tx.leases_parts {tx : Tx} (leases : tx.leases bond = true) :
    ∃ funding payment makerAuth takerAuth, tx = .openEdge funding (.workPayment payment) makerAuth takerAuth ∧ payment.bondEdge = bond := by
  unfold Tx.leases at leases
  split at leases
  · exact ⟨_,_,_,_,rfl,by simpa using leases⟩
  · cases leases

section Bonds

variable [Xet]

def Leased (network : NetworkId) (bond : EdgeId) (batch : Batch) : Prop := ∃ lease, LeaseAt network batch bond (some lease)

def Names (hashed : Hashed) (batch : Batch) (id bond : EdgeId) : Prop :=
  ∃ edge payment, batch.edge id = some edge ∧ Terms.workPayment payment ∈ hashed.terms ∧
    edge.terms = (Terms.workPayment payment).hash ∧ payment.bondEdge = bond

structure Insured (hashed : Hashed) (network : NetworkId) (past : List Taken) (batch : Batch) :
    Prop where
  once : ∀ bond, LeaseKnown hashed.slots network bond →
    Once bond (Tx.leases bond) (Leased network bond) past batch
  named : ∀ id bond, Names hashed batch id bond →
    LeaseKnown hashed.slots network bond ∧ 0 < occurrences (Tx.leases bond) past ∧
      ∀ lease, LeaseAt network batch bond (some lease) → lease.paymentEdge = id
  backs : ∀ bond lease, LeaseKnown hashed.slots network bond →
    LeaseAt network batch bond (some lease) → ∃ funding payment,
      lease.paymentEdge = edgeId funding (Terms.workPayment payment).hash ∧
      (funding, (Terms.workPayment payment).hash) ∈ hashed.edges ∧
      Terms.workPayment payment ∈ hashed.terms ∧ payment.bondEdge = bond
  addressed : ∀ id edge, batch.edge id = some edge →
    ∃ funding, (funding, edge.terms) ∈ hashed.edges ∧ id = edgeId funding edge.terms

section Steps

variable {hashed : Hashed} {network : NetworkId} {seeds : List Genesis} {batch next : Batch}
  {step : Step} {bond : EdgeId} (sound : RegistrySound hashed network batch) (apart : hashed.Apart)
  (covers : hashed.Covers step) (here : step.context.network = network)
  (accepted : Accepted step.context step.verifier batch step.tx next)

include covers here in
theorem leases_known (leases : step.tx.leases bond = true) : LeaseKnown hashed.slots network bond := by
  obtain ⟨funding,payment,makerAuth,takerAuth,submitted,same⟩ := Tx.leases_parts leases
  subst same here
  have slots := covers.slots
  rw [submitted] at slots
  exact ⟨slots _ (by simp [Tx.hashesSlots,SlotName.about]),
    slots _ (by simp [Tx.hashesSlots,SlotName.about])⟩

include sound apart covers here accepted in
theorem RegistrySound.lease_taken (leases : step.tx.leases bond = true) :
    LeaseKnown hashed.slots network bond ∧ LeaseAt network batch bond none ∧ ∃ edge, batch.edge bond = some edge ∧ 0 < edge.locked := by
  have known := leases_known covers here leases
  obtain ⟨funding,payment,makerAuth,takerAuth,submitted,same⟩ := Tx.leases_parts leases
  subst same here
  have terms := covers.terms
  rw [submitted] at accepted terms
  obtain ⟨coins,debits,diff,accepts,-⟩ := accepted.open_parts
  have taken := openBondLease_exact.mp accepts.leased
  obtain ⟨edge,live,opened⟩ := taken.bond_opened sound.traced apart.terms terms
  refine ⟨known,?_,edge,live,?_⟩
  · obtain ⟨lease,stored⟩ := sound.whole.lease _ _ known
    cases taken with
    | payment _ _ unleased =>
      rw [stored.read] at unleased
      cases unleased
      exact stored
  · have staked := (opened.bond _ rfl).1
    rw [ne_eq,← UInt64.toNat_inj] at staked
    unfold Edge.locked
    simp only [UInt64.toNat_zero] at staked
    omega

namespace Insured

variable (insured : Insured hashed network past batch)

include insured in
theorem unleased_before (known : LeaseKnown hashed.slots network bond) (vacant : LeaseAt network batch bond none)
    (live : batch.edge bond ≠ none) : occurrences (Tx.leases bond) past = 0 := by
  refine (insured.once bond known).fresh ?_ live
  rintro ⟨lease,held⟩
  cases held.unique vacant

include sound apart covers here accepted insured

theorem once_step (ledger : Ledger hashed seeds past batch)
    (known : LeaseKnown hashed.slots network bond) :
    Once bond (Tx.leases bond) (Leased network bond) (past ++ [⟨batch,step,next⟩]) next := by
  refine (insured.once bond known).carried ledger apart.edges covers accepted ?_ ?_
  · intro leases
    obtain ⟨-,vacant,edge,live,worth⟩ := sound.lease_taken apart covers here accepted leases
    have stored := accepted.lease_after apart.slots covers.slots known vacant
    obtain ⟨funding,payment,makerAuth,takerAuth,submitted,same⟩ := Tx.leases_parts leases
    rw [submitted,leaseAfter,if_pos ⟨here.symm,same.symm⟩] at stored
    refine ⟨?_,⟨_,stored⟩,edge,live,worth⟩
    rintro ⟨lease,held⟩
    cases held.unique vacant
  · rintro ⟨lease,stored⟩
    have after := accepted.lease_after apart.slots covers.slots known stored
    cases kept : leaseAfter step.context network bond (some lease) step.tx with
    | some other => exact .inl ⟨other,kept ▸ after⟩
    | none =>
      obtain ⟨terms,owner,outputs,submitted⟩ := leaseAfter_none kept
      refine .inr ?_
      rw [accepted.edges.others bond (by simp [submitted,Tx.createsEdges]),
        if_pos (by simp [submitted,Tx.consumesEdges])]

variable {id : EdgeId} {edge : Edge}

theorem named_step (names : Names hashed next id bond) :
    LeaseKnown hashed.slots network bond ∧ 0 < occurrences (Tx.leases bond) (past ++ [⟨batch,step,next⟩]) ∧
      ∀ lease, LeaseAt network next bond (some lease) → lease.paymentEdge = id := by
  obtain ⟨edge,payment,live,member,hash,rfl⟩ := names
  rw [occurrences_snoc]
  rcases accepted.edge_origin live with ⟨before,-⟩ | ⟨funding,terms,makerAuth,takerAuth,coins,debits,diff,submitted,sameId,value,accepts⟩
  · obtain ⟨known,leased,same⟩ :=
      insured.named id payment.bondEdge ⟨edge,payment,before,member,hash,rfl⟩
    refine ⟨known,Nat.add_pos_left leased _,fun lease stored => ?_⟩
    obtain ⟨old,earlier⟩ := sound.whole.lease network payment.bondEdge known
    have after := (accepted.lease_after apart.slots covers.slots known earlier).unique stored
    rcases leaseAfter_some after with ⟨_,other,_,_,submitted,-,bond,-⟩ | ⟨held,-⟩
    · -- A second lease would need the bond free, and it has been leased.
      have leases : step.tx.leases payment.bondEdge = true := by simp [submitted,Tx.leases,bond]
      obtain ⟨-,vacant,bondEdge,bondLive,-⟩ := sound.lease_taken apart covers here accepted leases
      have unleased := insured.unleased_before known vacant (by simp [bondLive])
      omega
    · exact same lease (held ▸ earlier)
  · have opened := accepts.opened.hash
    have known : terms ∈ hashed.terms := covers.terms terms (by simp [submitted,Tx.hashesTerms])
    rw [value,opened] at hash
    obtain rfl := apart.terms known member hash
    have leases : step.tx.leases payment.bondEdge = true := by simp [submitted,Tx.leases]
    obtain ⟨known,vacant,-⟩ := sound.lease_taken apart covers here accepted leases
    rw [if_pos leases]
    refine ⟨known,Nat.succ_pos _,fun lease stored => ?_⟩
    have after := (accepted.lease_after apart.slots covers.slots known vacant).unique stored
    rw [submitted,leaseAfter,if_pos ⟨here.symm,rfl⟩] at after
    cases after
    exact sameId.symm

theorem carried (ledger : Ledger hashed seeds past batch) :
    Insured hashed network (past ++ [⟨batch,step,next⟩]) next where
  once _ known := once_step sound apart covers here accepted insured ledger known
  named _ _ names := named_step sound apart covers here accepted insured names
  backs bond lease known stored := by
    obtain ⟨old,earlier⟩ := sound.whole.lease network bond known
    have after := (accepted.lease_after apart.slots covers.slots known earlier).unique stored
    rcases leaseAfter_some after with ⟨funding,payment,_,_,submitted,-,same,rfl⟩ | ⟨held,-⟩
    · exact ⟨funding,payment,rfl,covers.edges _ (by simp [submitted,Tx.hashesEdges]),
        covers.terms _ (by simp [submitted,Tx.hashesTerms]),same.symm⟩
    · exact insured.backs bond lease known (held ▸ earlier)
  addressed id edge live := by
    rcases accepted.edge_origin live with ⟨before,-⟩ | ⟨funding,terms,_,_,_,debits,_,submitted,same,value,accepts⟩
    · exact insured.addressed id edge before
    · have opened := accepts.opened.hash
      rw [value,opened]
      exact ⟨funding,covers.edges _ (by simp [submitted,Tx.hashesEdges]),same⟩

omit sound apart covers here accepted in
theorem leased_to (names : Names hashed batch id bond) (live : batch.edge bond ≠ none) :
    LeaseKnown hashed.slots network bond ∧ ∃ lease, LeaseAt network batch bond (some lease) ∧ lease.paymentEdge = id := by
  obtain ⟨known,leased,same⟩ := insured.named id bond names
  rcases (insured.once bond known leased).held with ⟨lease,stored⟩ | gone
  · exact ⟨known,lease,stored,same lease stored⟩
  · exact absurd gone live

omit sound covers here accepted in
theorem lease_names (known : LeaseKnown hashed.slots network bond)
    (stored : LeaseAt network batch bond (some lease)) (live : batch.edge lease.paymentEdge ≠ none) :
    Names hashed batch lease.paymentEdge bond := by
  obtain ⟨funding,payment,named,derived,member,same⟩ := insured.backs bond lease known stored
  obtain ⟨edge,held⟩ := Option.ne_none_iff_exists'.mp live
  obtain ⟨other,otherDerived,address⟩ := insured.addressed _ edge held
  have clash := apart.edges derived otherDerived (named.symm.trans address)
  exact ⟨edge,payment,held,member,(Prod.mk.inj clash).2.symm,same⟩

theorem waits (closes : step.tx = .closeEdge bond proof outputs) (live : batch.edge bond = some edge)
    (names : Names hashed batch id bond) :
    edge.timeout.value ≤ step.context.blockHeight.value := by
  obtain ⟨known,lease,stored,same⟩ := insured.leased_to names (by simp [live])
  obtain ⟨found,foundLive,allowed⟩ := sound.bondLive bond lease known stored
  rw [live] at foundLive
  cases foundLive
  have terms := covers.terms
  rw [closes] at accepted terms
  obtain ⟨closed,total,staged,accepts⟩ := accepted.close_parts
  have sameEdge := accepts.live
  rw [live] at sameEdge
  cases sameEdge
  obtain ⟨revealed,owner,rfl,-⟩ := accepts.releases allowed sound.traced apart.terms terms
  cases checkProof_exact.mp accepts.proved with
  | timeout bound leased due commits signed paid =>
    rcases due with ⟨-,idle⟩ | reached
    · subst here
      change (readBondLease batch step.context.network bond).mapError _ = _ at leased
      rw [mapError_ok,stored.read] at leased
      cases leased
      obtain ⟨payment,_,held,-⟩ := names
      have gone := idle lease rfl
      rw [same,held] at gone
      cases gone
    · exact reached

-- A bond no live channel leans on can always be taken back, at any height.
omit covers here accepted in
theorem returns {context : Context} (live : batch.edge bond = some edge)
    (member : Terms.workStakeBond terms ∈ hashed.terms) (hash : edge.terms = (Terms.workStakeBond terms).hash)
    (idle : ∀ id, ¬Names hashed batch id bond) (committed : Tx.timeoutClose bond (.workStakeBond terms) = some tx)
    (here : context.network = network) (covers : hashed.Covers ⟨context,verifier,tx⟩) :
    (∃ result, State.apply .acceptAll context verifier batch tx = .ok result) ↔
      ∀ entry ∈ tx.createsCoins network, batch.coin entry.1 = none := by
  cases committed
  subst here
  constructor
  · rintro ⟨⟨outcome,next⟩,applied⟩
    obtain ⟨_,_,_,accepts⟩ := (apply_accepted applied).close_parts
    exact accepts.free
  · intro free
    have known : LeaseKnown hashed.slots context.network bond :=
      ⟨covers.slots _ (by simp [Tx.hashesSlots,SlotName.about]),
        covers.slots _ (by simp [Tx.hashesSlots,SlotName.about])⟩
    obtain ⟨lease,stored⟩ := sound.whole.lease _ _ known
    have opened := sound.traced.revealed apart.terms live member hash.symm
    have unclaimed : ∀ held, lease = some held → batch.edge held.paymentEdge = none := by
      intro held same
      subst same
      by_contra channel
      exact idle _ (insured.lease_names apart known stored channel)
    obtain ⟨total,staged,accepts⟩ := timeout_accepts verifier live opened rfl (mapError_ok.mpr stored.read) (.inl ⟨rfl,unclaimed⟩) free
    exact accepts.submitted apart.coins apart.slots covers

end Insured

end Steps

section Runs

variable {hashed : Hashed} {backend : Backend} {seeds : List Genesis} {start : Batch}
  {steps : List Step} {network : NetworkId}

theorem Chain.insured (chain : Chain hashed backend seeds start steps) (seedsApart : SeedsApart hashed seeds)
    (apart : hashed.Apart) (oneNetwork : ∀ step ∈ steps, step.context.network = network) :
    Insured hashed network (State.trace backend start steps) (State.run backend start steps) := by
  have initial : Insured hashed network [] start := by
    refine ⟨fun bond _ => .initial,?_,?_,?_⟩
    · rintro id bond ⟨edge,_,live,-⟩
      rw [genesis_bare chain.seeded] at live
      cases live
    · intro bond lease known stored
      obtain ⟨edge,live,-⟩ := (genesis_sound chain.seeded).bondLive bond lease known stored
      rw [genesis_bare chain.seeded] at live
      cases live
    · intro id edge live
      rw [genesis_bare chain.seeded] at live
      cases live
  refine (Runs.run_history (fun step => hashed.Covers step ∧ step.context.network = network)
    (motive := fun past batch => Ledger hashed seeds past batch ∧
      RegistrySound hashed network batch ∧ Insured hashed network past batch)
    ⟨genesis_ledger chain.seeded,genesis_sound chain.seeded,initial⟩ ?_ steps
    (fun step member => ⟨chain.covered step member,oneNetwork step member⟩)).2.2
  rintro past before step after ⟨covers,here⟩ stepped ⟨ledger,sound,insured⟩
  have accepted := next_accepted stepped
  exact ⟨ledger.carried seedsApart apart.coins apart.edges covers accepted,sound.carried apart.slots apart.terms covers here accepted,
    insured.carried sound apart covers here accepted ledger⟩

-- One channel per bond in the whole run; while it lives the lease names it and the bond waits; when
-- it does not, the committed timeout is accepted at once.
theorem bond_exclusive (chain : Chain hashed backend seeds start steps) (seedsApart : SeedsApart hashed seeds)
    (apart : hashed.Apart) (oneNetwork : ∀ step ∈ steps, step.context.network = network) (bond : EdgeId) :
    let state := State.run backend start steps
    let trace := State.trace backend start steps
    occurrences (Tx.leases bond) trace ≤ 1 ∧
    (∀ id, Names hashed state id bond → state.edge bond ≠ none →
      ∃ lease, readBondLease state network bond = .ok (some lease) ∧ lease.paymentEdge = id) ∧
    (∀ taken ∈ trace, ∀ proof outputs edge id, taken.input.tx = .closeEdge bond proof outputs →
      taken.before.edge bond = some edge → Names hashed taken.before id bond →
        edge.timeout.value ≤ taken.input.context.blockHeight.value) ∧
    ∀ edge terms tx context verifier, state.edge bond = some edge →
      Terms.workStakeBond terms ∈ hashed.terms →
      edge.terms = (Terms.workStakeBond terms).hash → (∀ id, ¬Names hashed state id bond) →
      Tx.timeoutClose bond (.workStakeBond terms) = some tx → context.network = network →
      hashed.Covers ⟨context,verifier,tx⟩ →
        ((∃ result, State.apply .acceptAll context verifier state tx = .ok result) ↔
          ∀ entry ∈ tx.createsCoins network, state.coin entry.1 = none) := by
  intro state trace
  have insured : Insured hashed network trace state := chain.insured seedsApart apart oneNetwork
  have sound : RegistrySound hashed network state :=
    chain.sound apart.slots apart.terms oneNetwork
  refine ⟨?_,?_,?_,?_⟩
  · by_contra twice
    have positive : 0 < occurrences (Tx.leases bond) trace := by omega
    obtain ⟨taken,member,leases⟩ := List.countP_pos_iff.mp positive
    obtain ⟨early,within,-⟩ := Runs.trace_reached member
    have submitted : taken.input ∈ steps := within.subset (by simp)
    have known := leases_known (chain.covered _ submitted) (oneNetwork _ submitted) leases
    exact twice (insured.once bond known).at_most
  · intro id names live
    obtain ⟨-,lease,stored,same⟩ := insured.leased_to names live
    exact ⟨lease,stored.read,same⟩
  · intro taken member proof outputs edge id closes live names
    obtain ⟨early,within,reached⟩ := Runs.trace_reached member
    have submitted : taken.input ∈ steps := within.subset (by simp)
    have earlier : early <+: steps := (List.prefix_append _ _).trans within
    have early_network := fun step member => oneNetwork step (earlier.subset member)
    have before : Insured hashed network (State.trace backend start early) taken.before :=
      reached ▸ (chain.initially earlier).insured seedsApart apart early_network
    have beforeSound : RegistrySound hashed network taken.before :=
      reached ▸ (chain.initially earlier).sound apart.slots apart.terms early_network
    exact before.waits beforeSound apart (chain.covered _ submitted)
      (oneNetwork _ submitted) (next_accepted (Runs.trace_step member)) closes live names
  · intro edge terms tx context verifier live member hash idle committed here covers
    exact insured.returns sound apart live member hash idle committed here covers

end Runs

end Bonds

namespace Sample

attribute [local instance] checksum

theorem channel_apart : hashed.Apart := ⟨termsIds,edgeIds,slotIds,coinIds⟩

theorem payment_live : ∃ edge,
    (State.run .acceptAll start contest).edge paymentEdge = some edge ∧ edge.terms = (Terms.workPayment payment).hash := by
  have live : ((State.run .acceptAll start contest).edge paymentEdge).map Edge.terms = some (Terms.workPayment payment).hash := by
    decide +kernel
  exact Option.map_eq_some_iff.mp live

theorem payment_hashed : Terms.workPayment payment ∈ hashed.terms :=
  (channel_covered openPayment (by simp [channel,contest])).terms _
    (by simp [openPayment,submit,Tx.hashesTerms,Terms.hashes])

theorem payment_names : Names hashed (State.run .acceptAll start contest) paymentEdge bondEdge := by
  obtain ⟨edge,held,hash⟩ := payment_live
  exact ⟨edge,payment,held,payment_hashed,hash,rfl⟩

theorem bond_exclusive_contest :
    Chain hashed .acceptAll seeds start contest ∧ ∃ lease,
      readBondLease (State.run .acceptAll start contest) network bondEdge = .ok (some lease) ∧
        lease.paymentEdge = paymentEdge :=
  ⟨contest_chain,(bond_exclusive contest_chain seedsApart channel_apart (fun step member =>
    channel_network step (List.mem_append_left _ member)) bondEdge).2.1 paymentEdge payment_names
      (by decide +kernel)⟩

end Sample

end Hellas.Kernel
