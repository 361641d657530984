import Hellas.Invariants.OneUse
import Hellas.Invariants.Records
import Hellas.Kernel.Faults

-- No reachable registry holds half a lease, an orphan or a stranger.

namespace Hellas.Kernel

open Guard

section Edges

variable [Xet] {batch next : Batch} {tx : Tx}

variable {edge : Edge}

theorem Accepted.edge_kept (accepted : Accepted context verifier batch tx next) {id : EdgeId} (live : batch.edge id = some edge) :
    next.edge id = some edge ∨ ∃ proof outputs total staged, tx = .closeEdge id proof outputs ∧
      CloseAccepts id proof outputs context verifier batch edge total staged := by
  by_cases closed : id ∈ tx.consumesEdges
  · refine .inr ?_
    cases accepted with
    | closed accepts =>
      obtain rfl := List.mem_singleton.mp closed
      have same := accepts.live
      rw [live] at same
      cases same
      exact ⟨_,_,_,_,rfl,accepts⟩
    | opened => cases closed
    | started => cases closed
    | responded => cases closed
    | reshaped => cases closed
  · exact .inl (accepted.edges.kept live closed)

omit [Xet] in
theorem allows_bond (allowed : edge.allowed = .workStakeBond) (allows : edge.allows kind = true) : kind = .timeout := by
  rw [Edge.allows,allowed] at allows
  revert allows
  cases kind <;> decide

omit [Xet] in
theorem allows_payment (allowed : edge.allowed = .workPayment) (allows : edge.allows kind = true) :
    kind = .freeze ∨ kind = .adjudicated := by
  rw [Edge.allows,allowed] at allows
  revert allows
  cases kind <;> decide

omit [Xet] in
theorem Terms.of_bondCloses {terms : Terms} (same : terms.allowedCloses = .workStakeBond) :
    ∃ bond, terms = .workStakeBond bond := by
  cases terms with
  | basic =>
    change CloseKindSet.basic = .workStakeBond at same
    exact absurd same (by decide)
  | workPayment payment =>
    change CloseKindSet.workPayment = .workStakeBond at same
    exact absurd same (by decide)
  | workStakeBond bond => exact ⟨bond,rfl⟩

end Edges

structure Whole [Xet] (slots : Set SlotName) (batch : Batch) : Prop where
  lease : ∀ network bond, LeaseKnown slots network bond →
    ∃ lease, LeaseAt network batch bond lease
  contest : ∀ network payment, SlotName.contest network payment ∈ slots →
    ∃ record, ContestAt network batch payment record

def BondLive (batch : Batch) (bond : EdgeId) : Prop := ∃ edge, batch.edge bond = some edge ∧ edge.allowed = .workStakeBond

def PaymentLive (batch : Batch) (payment : EdgeId) : Prop := ∃ edge, batch.edge payment = some edge ∧ edge.allowed = .workPayment

-- On the one network a chain runs, records are kept about live edges and about nothing else.
structure RegistrySound [Xet] (hashed : Hashed) (network : NetworkId) (batch : Batch) : Prop where
  whole : Whole hashed.slots batch
  traced : batch.Traced hashed.terms
  bondLive : ∀ bond lease, LeaseKnown hashed.slots network bond →
    LeaseAt network batch bond (some lease) → BondLive batch bond
  paymentLive : ∀ payment record, SlotName.contest network payment ∈ hashed.slots →
    ContestAt network batch payment (some record) → PaymentLive batch payment
  occupied : ∀ id, batch.registryChunk id ≠ none → ∃ edge,
    (∀ name ∈ SlotName.about network edge, name ∈ hashed.slots) ∧
      ∃ name ∈ SlotName.about network edge, id = name.id

section Steps

variable [Xet] {hashed : Hashed} {network : NetworkId} {batch next : Batch} {tx : Tx}

theorem Whole.step {slots : Set SlotName} (whole : Whole slots batch) (injective : Set.InjOn SlotName.id slots)
    (covered : ∀ name ∈ tx.hashesSlots context.network, name ∈ slots)
    (accepted : Accepted context verifier batch tx next) :
    Whole slots next where
  lease network bond known := by
    obtain ⟨lease,stored⟩ := whole.lease network bond known
    exact ⟨_,accepted.lease_after injective covered known stored⟩
  contest network payment known := by
    obtain ⟨record,stored⟩ := whole.contest network payment known
    exact ⟨_,accepted.contest_after injective covered known stored⟩

theorem TakesLease.bond_opened {known : Set Terms} {output : EdgeId} {payment : WorkPaymentTerms} {diff : RegistryDiff}
    (taken : TakesLease output context batch (.workPayment payment) diff) (traced : batch.Traced known)
    (injective : Set.InjOn Terms.hash known) (covered : ∀ terms ∈ (Terms.workPayment payment).hashes, terms ∈ known) :
    ∃ edge, batch.edge payment.bondEdge = some edge ∧ edge.OpenedWith (.workStakeBond payment.bondTerms) := by
  cases taken with
  | payment live bound unleased written staged =>
    have embedded : Terms.workStakeBond payment.bondTerms ∈ known := covered _ (by simp [Terms.hashes])
    exact ⟨_,live,traced.revealed injective live embedded bound.symm⟩

theorem CloseAccepts.releases {id : EdgeId} (accepts : CloseAccepts id proof outputs context verifier batch edge total staged)
    (allowed : edge.allowed = .workStakeBond) (traced : batch.Traced hashed.terms)
    (injective : Set.InjOn Terms.hash hashed.terms)
    (covered : ∀ terms ∈ (Tx.closeEdge id proof outputs).hashesTerms, terms ∈ hashed.terms) :
    ∃ bond owner, proof = .timeout (.workStakeBond bond) owner ∧ edge.OpenedWith (.workStakeBond bond) := by
  have kind := allows_bond allowed accepts.allowed
  cases checkProof_exact.mp accepts.proved with
  | mutualClose => cases kind
  | freeze => cases kind
  | adjudicated => cases kind
  | timeout bound leased due commits signed paid =>
    rename_i terms owner lease committed
    have known : terms ∈ hashed.terms := covered terms terms.mem_hashes
    have opened := traced.revealed injective accepts.live known bound
    obtain ⟨bond,rfl⟩ := Terms.of_bondCloses (opened.allowed.symm.trans allowed)
    exact ⟨bond,owner,rfl,opened⟩

namespace RegistrySound

variable {step : Step} (sound : RegistrySound hashed network batch) (slotIds : Set.InjOn SlotName.id hashed.slots)
  (termsIds : Set.InjOn Terms.hash hashed.terms) (covers : hashed.Covers step) (here : step.context.network = network)
  (accepted : Accepted step.context step.verifier batch step.tx next)

include sound slotIds termsIds covers here accepted in
theorem bondLive_step {bond : EdgeId} {lease : BondLease}
    (known : LeaseKnown hashed.slots network bond) (stored : LeaseAt network next bond (some lease)) :
    BondLive next bond := by
  obtain ⟨old,before⟩ := sound.whole.lease network bond known
  have after := (accepted.lease_after slotIds covers.slots known before).unique stored
  rcases leaseAfter_some after with ⟨funding,payment,makerAuth,takerAuth,submitted,-,same,-⟩ | ⟨held,unreleased⟩
  · have covered := covers.terms
    rw [submitted] at accepted covered
    obtain ⟨coins,debits,diff,accepts,-⟩ := accepted.open_parts
    obtain ⟨edge,live,opened⟩ := (openBondLease_exact.mp accepts.leased).bond_opened sound.traced termsIds covered
    rw [← same] at live
    rcases accepted.edge_kept live with kept | ⟨_,_,_,_,closes,-⟩
    · exact ⟨edge,kept,opened.allowed⟩
    · cases closes
  · subst held
    obtain ⟨edge,live,allowed⟩ := sound.bondLive bond lease known before
    rcases accepted.edge_kept live with kept | ⟨proof,outputs,total,staged,submitted,accepts⟩
    · exact ⟨edge,kept,allowed⟩
    · have covered := covers.terms
      rw [submitted] at covered
      obtain ⟨terms,owner,rfl,-⟩ := accepts.releases allowed sound.traced termsIds covered
      exact absurd (unreleased _ _ _ submitted here.symm) (by simp [Terms.isWorkBond])

include sound slotIds termsIds covers here accepted in
theorem paymentLive_step {payment : EdgeId} {record : PendingPaymentClose} (known : SlotName.contest network payment ∈ hashed.slots)
    (stored : ContestAt network next payment (some record)) : PaymentLive next payment := by
  obtain ⟨old,before⟩ := sound.whole.contest network payment known
  have after := (accepted.contest_after slotIds covers.slots known before).unique stored
  have stays : PaymentLive batch payment → (∀ proof outputs, step.tx = .closeEdge payment proof outputs →
        network = step.context.network → proof.kind ≠ .freeze ∧ proof.kind ≠ .adjudicated) →
      PaymentLive next payment := by
    rintro ⟨edge,live,allowed⟩ unretired
    rcases accepted.edge_kept live with kept | ⟨proof,outputs,total,staged,submitted,accepts⟩
    · exact ⟨edge,kept,allowed⟩
    · obtain ⟨unfrozen,unsettled⟩ := unretired proof outputs submitted here.symm
      rcases allows_payment allowed accepts.allowed with frozen | settled
      · exact absurd frozen unfrozen
      · exact absurd settled unsettled
  rcases contestAfter_some after with ⟨start,submitted,-,same,-⟩ | ⟨response,held,submitted,-,-,found,-⟩ | ⟨held,unretired⟩
  · refine stays ?_ (by simp [submitted])
    have covered := covers.terms
    rw [submitted] at accepted covered
    cases accepted with
    | started accepts written =>
      have known : start.terms ∈ hashed.terms := covered _ start.terms.mem_hashes
      have opened := sound.traced.revealed termsIds accepts.live known accepts.bound
      rw [same]
      exact ⟨_,accepts.live,by rw [opened.allowed,accepts.terms]; rfl⟩
  · subst found
    exact stays (sound.paymentLive payment held known before) (by simp [submitted])
  · subst held
    exact stays (sound.paymentLive payment record known before) unretired

include sound covers here accepted in
theorem occupied_step {id : RegistryChunkId} (held : next.registryChunk id ≠ none) : ∃ edge,
      (∀ name ∈ SlotName.about network edge, name ∈ hashed.slots) ∧ ∃ name ∈ SlotName.about network edge, id = name.id := by
  by_cases written : ∃ name ∈ step.tx.writesSlots step.context.network, id = name.id
  · obtain ⟨name,member,same⟩ := written
    obtain ⟨edge,about⟩ := Tx.writesSlots_about member
    rw [here] at about
    refine ⟨edge,fun other found => covers.slots other ?_,name,about.2,same⟩
    rwa [here,about.1]
  · refine sound.occupied id ?_
    rwa [← accepted.registry_frame fun name member same => written ⟨name,member,same⟩]

include sound slotIds termsIds covers here accepted in
theorem carried : RegistrySound hashed network next where
  whole := sound.whole.step slotIds covers.slots accepted
  traced := sound.traced.step accepted covers.terms
  bondLive _ _ known stored := sound.bondLive_step slotIds termsIds covers here accepted known stored
  paymentLive _ _ known stored := sound.paymentLive_step slotIds termsIds covers here accepted known stored
  occupied _ held := sound.occupied_step covers here accepted held

end RegistrySound

omit [Xet] in
theorem Tx.readsEdges_hashed (read : edge ∈ tx.readsEdges) : tx.hashesSlots network = SlotName.about network edge := by
  unfold Tx.readsEdges at read
  split at read
  · rw [List.mem_singleton.mp read]
    rfl
  · cases read
  · rw [List.mem_singleton.mp read]
    rfl
  · rw [List.mem_singleton.mp read]
    rfl
  · rw [List.mem_singleton.mp read]
    rfl
  · cases read

theorem Whole.reads (whole : Whole slots batch) (covered : ∀ name ∈ tx.hashesSlots network, name ∈ slots) (read : edge ∈ tx.readsEdges) :
    (∃ lease, readBondLease batch network edge = .ok lease) ∧ ∃ pending, readPendingClose batch network edge = .ok pending := by
  rw [Tx.readsEdges_hashed read] at covered
  obtain ⟨lease,leased⟩ := whole.lease network edge ⟨covered _ (by simp [SlotName.about]),covered _ (by simp [SlotName.about])⟩
  obtain ⟨record,contested⟩ := whole.contest network edge (covered _ (by simp [SlotName.about]))
  exact ⟨⟨lease,leased.read⟩,record,contested.read⟩

end Steps

section Runs

variable [Xet] {hashed : Hashed} {backend : Backend} {seeds : List Genesis} {start : Batch}
  {steps : List Step} {network : NetworkId}

omit [Xet] in
theorem genesis_bare (seeded : State.genesis backend .empty seeds = .ok start) (id : EdgeId) :
    start.edge id = none := by
  obtain ⟨-,rfl⟩ := genesis_parts seeded
  exact Finmap.lookup_empty id

omit [Xet] in
theorem genesis_vacant (seeded : State.genesis backend .empty seeds = .ok start)
    (id : RegistryChunkId) : start.registryChunk id = none := by
  obtain ⟨-,rfl⟩ := genesis_parts seeded
  exact Finmap.lookup_empty id

theorem genesis_whole (seeded : State.genesis backend .empty seeds = .ok start) :
    Whole hashed.slots start where
  lease _ _ _ := ⟨none,genesis_vacant seeded _,genesis_vacant seeded _⟩
  contest _ _ _ := ⟨none,genesis_vacant seeded _⟩

theorem genesis_traced (seeded : State.genesis backend .empty seeds = .ok start) : start.Traced hashed.terms := by
  intro id edge live
  rw [genesis_bare seeded] at live
  cases live

theorem genesis_sound (seeded : State.genesis backend .empty seeds = .ok start) :
    RegistrySound hashed network start where
  whole := genesis_whole seeded
  traced := genesis_traced seeded
  bondLive bond lease _ stored := by
    obtain ⟨first,second,-,-,held,-⟩ := stored
    rw [genesis_vacant seeded] at held
    cases held
  paymentLive payment record _ stored := by
    obtain ⟨chunk,-,-,held⟩ := stored
    rw [genesis_vacant seeded] at held
    cases held
  occupied id held := absurd (genesis_vacant seeded id) held

theorem Chain.whole (chain : Chain hashed backend seeds start steps) (slotIds : Set.InjOn SlotName.id hashed.slots) :
    Whole hashed.slots (State.run backend start steps) :=
  Runs.run_invariant hashed.Covers (Whole hashed.slots) (genesis_whole chain.seeded)
    (fun _ _ _ covers stepped whole => whole.step slotIds covers.slots (next_accepted stepped))
    steps chain.covered

theorem Chain.traced (chain : Chain hashed backend seeds start steps) :
    (State.run backend start steps).Traced hashed.terms :=
  Runs.run_invariant hashed.Covers (Batch.Traced hashed.terms) (genesis_traced chain.seeded)
    (fun _ _ _ covers stepped traced => traced.step (next_accepted stepped) covers.terms)
    steps chain.covered

theorem Chain.sound (chain : Chain hashed backend seeds start steps) (slotIds : Set.InjOn SlotName.id hashed.slots)
    (termsIds : Set.InjOn Terms.hash hashed.terms) (oneNetwork : ∀ step ∈ steps, step.context.network = network) :
    RegistrySound hashed network (State.run backend start steps) :=
  Runs.run_invariant (fun step => hashed.Covers step ∧ step.context.network = network)
    (RegistrySound hashed network) (genesis_sound chain.seeded)
    (fun _ _ _ fits stepped sound => sound.carried slotIds termsIds fits.1 fits.2 (next_accepted stepped))
    steps (fun step member => ⟨chain.covered step member,oneNetwork step member⟩)

-- Leases and contests are whole, about live edges of the right kind, and alone in the registry; so
-- no submission meets a broken one.
theorem registry_sound (chain : Chain hashed backend seeds start steps)
    (slotIds : Set.InjOn SlotName.id hashed.slots) (termsIds : Set.InjOn Terms.hash hashed.terms)
    (oneNetwork : ∀ step ∈ steps, step.context.network = network) :
    let state := State.run backend start steps
    (∀ bond, LeaseKnown hashed.slots network bond →
      let slots := parseBondLease (state.registryChunk (bondLeaseSlot network bond 0))
        (state.registryChunk (bondLeaseSlot network bond 1)) bond
      slots = .absent ∨ ∃ lease edge, slots = .present lease ∧ lease.bondEdge = bond ∧
        state.edge bond = some edge ∧ edge.allowed = CloseKindSet.empty.insert .timeout) ∧
    (∀ payment, SlotName.contest network payment ∈ hashed.slots →
      let slot := parsePendingClose
        (state.registryChunk (pendingPaymentCloseSlot network payment)) payment
      slot = .absent ∨ ∃ record edge, slot = .present record ∧ record.paymentEdge = payment ∧
        state.edge payment = some edge ∧
          edge.allowed = (CloseKindSet.empty.insert .freeze).insert .adjudicated) ∧
    (∀ id, state.registryChunk id ≠ none → ∃ edge,
      (∀ name ∈ SlotName.about network edge, name ∈ hashed.slots) ∧
      id ∈ [bondLeaseSlot network edge 0,bondLeaseSlot network edge 1,
        pendingPaymentCloseSlot network edge]) ∧
    ∀ step, hashed.Covers step → step.context.network = network → ∀ error,
      State.apply .acceptAll step.context step.verifier state step.tx = .error error →
        error.isRegistryFault = false := by
  intro state
  have sound : RegistrySound hashed network state := chain.sound slotIds termsIds oneNetwork
  refine ⟨?_,?_,?_,?_⟩
  · intro bond known
    obtain ⟨lease,stored⟩ := sound.whole.lease network bond known
    cases lease with
    | none => exact .inl stored.slots
    | some lease =>
      obtain ⟨edge,live,allowed⟩ := sound.bondLive bond lease known stored
      exact .inr ⟨lease,edge,stored.slots,stored.named,live,allowed⟩
  · intro payment known
    obtain ⟨record,stored⟩ := sound.whole.contest network payment known
    cases record with
    | none => exact .inl stored.slot
    | some record =>
      obtain ⟨edge,live,allowed⟩ := sound.paymentLive payment record known stored
      exact .inr ⟨record,edge,stored.slot,stored.named,live,allowed⟩
  · intro id held
    obtain ⟨edge,known,name,about,same⟩ := sound.occupied id held
    refine ⟨edge,known,?_⟩
    subst same
    exact List.mem_map_of_mem about
  · intro step covers here error failed
    subst here
    have clear := State.apply_avoids (fun edge read => (sound.whole.reads covers.slots read).1)
      (fun edge read => (sound.whole.reads covers.slots read).2) error failed
    simpa using clear

end Runs

namespace Sample

attribute [local instance] checksum

theorem slotIds : Set.InjOn SlotName.id hashed.slots := Lists.injOn_listed (by decide +kernel)

theorem termsIds : Set.InjOn Terms.hash hashed.terms := Lists.injOn_listed (by decide +kernel)

theorem channel_network : ∀ step ∈ channel, step.context.network = network := by decide

theorem contest_chain : Chain hashed .acceptAll seeds start contest := channel_chain.initially (List.prefix_append _ _)

theorem bond_known : LeaseKnown hashed.slots network bondEdge := by
  have found : ∀ name ∈ [SlotName.lease network bondEdge 0,.lease network bondEdge 1],
      name ∈ channel.flatMap (fun step => step.tx.hashesSlots step.context.network) := by
    decide +kernel
  exact ⟨found _ (by simp),found _ (by simp)⟩

theorem registry_sound_contest :
    Chain hashed .acceptAll seeds start contest ∧
      (readLeaseSlots (State.run .acceptAll start contest) network bondEdge = .absent ∨
        ∃ lease edge, readLeaseSlots (State.run .acceptAll start contest) network bondEdge =
            .present lease ∧ lease.bondEdge = bondEdge ∧
          (State.run .acceptAll start contest).edge bondEdge = some edge ∧
            edge.allowed = CloseKindSet.empty.insert .timeout) :=
  ⟨contest_chain,(registry_sound contest_chain slotIds termsIds fun step member =>
    channel_network step (List.mem_append_left _ member)).1 bondEdge bond_known⟩

end Sample

end Hellas.Kernel
