import Hellas.Invariants.Hashed

-- The registry as what it stores: at most one lease for each bond and one contest for each payment.
-- The abstract maps change by two small functions; the chunked slots follow them.

namespace Hellas.Kernel

open Guard

section Slots

variable [Xet]

def LeaseAt (network : NetworkId) (batch : Batch) (bond : EdgeId) : Option BondLease → Prop
  | none => batch.registryChunk (bondLeaseSlot network bond 0) = none ∧
    batch.registryChunk (bondLeaseSlot network bond 1) = none
  | some lease => ∃ first second, lease.bondEdge = bond ∧ lease.toChunks = some (first, second) ∧
    batch.registryChunk (bondLeaseSlot network bond 0) = some first ∧
    batch.registryChunk (bondLeaseSlot network bond 1) = some second

def ContestAt (network : NetworkId) (batch : Batch) (payment : EdgeId) :
    Option PendingPaymentClose → Prop
  | none => batch.registryChunk (pendingPaymentCloseSlot network payment) = none
  | some record => ∃ chunk, record.paymentEdge = payment ∧ record.toChunk = some chunk ∧
    batch.registryChunk (pendingPaymentCloseSlot network payment) = some chunk

variable {network : NetworkId} {batch next : Batch} {edge : EdgeId}

theorem LeaseAt.slots {lease : Option BondLease} (stored : LeaseAt network batch edge lease) :
    readLeaseSlots batch network edge = match lease with
      | none => .absent
      | some lease => .present lease := by
  cases lease with
  | none =>
    obtain ⟨first,second⟩ := stored
    simp [readLeaseSlots,first,second,parseBondLease]
  | some lease =>
    obtain ⟨first,second,named,written,low,high⟩ := stored
    subst named
    simp only [readLeaseSlots,low,high,parseBondLease_toChunks written]

theorem LeaseAt.read (stored : LeaseAt network batch edge lease) : readBondLease batch network edge = .ok lease := by
  unfold readBondLease
  rw [stored.slots]
  cases lease <;> rfl

theorem ContestAt.slot {record : Option PendingPaymentClose} (stored : ContestAt network batch edge record) :
    readPendingSlot batch network edge = match record with
      | none => .absent
      | some record => .present record := by
  cases record with
  | none => simp [readPendingSlot,show batch.registryChunk _ = none from stored,parsePendingClose]
  | some record =>
    obtain ⟨chunk,named,written,held⟩ := stored
    subst named
    simp only [readPendingSlot,held,parsePendingClose_toChunk written]

theorem ContestAt.read (stored : ContestAt network batch edge record) :
    readPendingClose batch network edge = .ok record := by
  unfold readPendingClose
  rw [stored.slot]
  cases record <;> rfl

theorem LeaseAt.named (stored : LeaseAt network batch edge (some lease)) : lease.bondEdge = edge := by
  obtain ⟨_,_,same,-⟩ := stored
  exact same

theorem ContestAt.named (stored : ContestAt network batch edge (some record)) : record.paymentEdge = edge := by
  obtain ⟨_,same,-⟩ := stored
  exact same

theorem LeaseAt.unique (stored : LeaseAt network batch edge lease) (found : LeaseAt network batch edge other) : lease = other :=
  Except.ok.inj (stored.read.symm.trans found.read)

theorem ContestAt.unique (stored : ContestAt network batch edge record) (found : ContestAt network batch edge other) :
    record = other :=
  Except.ok.inj (stored.read.symm.trans found.read)

theorem LeaseAt.frame (stored : LeaseAt network batch edge lease)
    (low : next.registryChunk (bondLeaseSlot network edge 0) = batch.registryChunk (bondLeaseSlot network edge 0))
    (high : next.registryChunk (bondLeaseSlot network edge 1) = batch.registryChunk (bondLeaseSlot network edge 1)) :
    LeaseAt network next edge lease := by
  cases lease <;> unfold LeaseAt <;> rw [low,high] <;> exact stored

theorem ContestAt.frame (stored : ContestAt network batch edge record) (same : next.registryChunk (pendingPaymentCloseSlot network edge) =
      batch.registryChunk (pendingPaymentCloseSlot network edge)) :
    ContestAt network next edge record := by
  cases record <;> unfold ContestAt <;> rw [same] <;> exact stored

end Slots

section Changes

variable [Xet]

def leaseAfter (context : Context) (network : NetworkId) (bond : EdgeId) (lease : Option BondLease) : Tx → Option BondLease
  | .openEdge funding (.workPayment payment) _ _ =>
    if network = context.network ∧ bond = payment.bondEdge then
      some ⟨payment.bondEdge,edgeId funding (Terms.workPayment payment).hash,
        (Terms.workPayment payment).hash,payment.privatePolicyCommitment,
        payment.admissionHorizon.value⟩
    else lease
  | .closeEdge input (.timeout terms _) _ =>
    if network = context.network ∧ bond = input ∧ terms.isWorkBond = true then none else lease
  | _ => lease

def contestAfter (context : Context) (network : NetworkId) (payment : EdgeId)
    (record : Option PendingPaymentClose) : Tx → Option PendingPaymentClose
  | .closeEdge input (.freeze ..) _ | .closeEdge input (.adjudicated _) _ =>
    if network = context.network ∧ payment = input then none else record
  | .move (.startPaymentClose start) =>
    if network = context.network ∧ payment = start.paymentEdge then
      PendingPaymentClose.fromAcceptedStart context.network context.blockHeight.value start
    else record
  | .move (.respondPaymentClose response) =>
    if network = context.network ∧ payment = response.paymentEdge then
      record.map fun held => held.withAcceptedResponse response
    else record
  | _ => record

variable {context : Context} {network : NetworkId} {edge : EdgeId} {tx : Tx}

theorem leaseAfter_some (after : leaseAfter context network edge old tx = some lease) :
    (∃ funding payment makerAuth takerAuth, tx = .openEdge funding (.workPayment payment) makerAuth takerAuth ∧
      network = context.network ∧ edge = payment.bondEdge ∧
      lease = ⟨payment.bondEdge,edgeId funding (Terms.workPayment payment).hash,
        (Terms.workPayment payment).hash,payment.privatePolicyCommitment,
        payment.admissionHorizon.value⟩) ∨
    old = some lease ∧ ∀ terms owner outputs, tx = .closeEdge edge (.timeout terms owner) outputs →
      network = context.network → terms.isWorkBond = false := by
  unfold leaseAfter at after
  split at after
  · split at after
    · rename_i here
      exact .inl ⟨_,_,_,_,rfl,here.1,here.2,(Option.some.inj after).symm⟩
    · exact .inr ⟨after,by simp⟩
  · split at after
    · cases after
    · rename_i elsewhere
      refine .inr ⟨after,?_⟩
      intro terms owner outputs same here
      cases same
      simpa [here] using elsewhere
  · rename_i other
    exact .inr ⟨after,fun terms owner outputs same _ => (other _ _ _ _ same).elim⟩

theorem leaseAfter_none (after : leaseAfter context network edge (some lease) tx = none) :
    ∃ terms owner outputs, tx = .closeEdge edge (.timeout terms owner) outputs := by
  unfold leaseAfter at after
  split at after
  · split at after <;> cases after
  · split at after
    · rename_i here
      exact ⟨_,_,_,by rw [here.2.1]⟩
    · cases after
  · cases after

theorem contestAfter_some (after : contestAfter context network edge old tx = some record) :
    (∃ start, tx = .move (.startPaymentClose start) ∧ network = context.network ∧ edge = start.paymentEdge ∧
      PendingPaymentClose.fromAcceptedStart context.network context.blockHeight.value start = some record) ∨
    (∃ response held, tx = .move (.respondPaymentClose response) ∧ network = context.network ∧
      edge = response.paymentEdge ∧ old = some held ∧
      record = held.withAcceptedResponse response) ∨
    old = some record ∧ ∀ proof outputs, tx = .closeEdge edge proof outputs →
      network = context.network → proof.kind ≠ .freeze ∧ proof.kind ≠ .adjudicated := by
  unfold contestAfter at after
  split at after
  iterate 2
    · split at after
      · cases after
      · rename_i elsewhere
        refine .inr (.inr ⟨after,?_⟩)
        intro proof outputs same here
        cases same
        exact (elsewhere ⟨here,rfl⟩).elim
  · split at after
    · rename_i here
      exact .inl ⟨_,rfl,here.1,here.2,after⟩
    · exact .inr (.inr ⟨after,by simp⟩)
  · split at after
    · rename_i here
      obtain ⟨held,found,same⟩ := Option.map_eq_some_iff.mp after
      exact .inr (.inl ⟨_,held,rfl,here.1,here.2,found,same.symm⟩)
    · exact .inr (.inr ⟨after,by simp⟩)
  · rename_i frozen settled _ _
    refine .inr (.inr ⟨after,?_⟩)
    intro proof outputs same _
    cases proof with
    | mutualClose maker taker => simp [Proof.kind]
    | timeout terms owner => simp [Proof.kind]
    | freeze => exact (frozen _ _ _ _ _ _ _ same).elim
    | adjudicated => exact (settled _ _ _ same).elim

end Changes

-- The slots a transaction may write; the other slots it derives are only read.
def Tx.writesSlots (network : NetworkId) : Tx → List SlotName
  | .openEdge _ (.workPayment payment) _ _ => [.lease network payment.bondEdge 0,.lease network payment.bondEdge 1]
  | .closeEdge input (.timeout ..) _ => [.lease network input 0,.lease network input 1]
  | .closeEdge input (.freeze ..) _ | .closeEdge input (.adjudicated _) _ => [.contest network input]
  | .move (.startPaymentClose start) => [.contest network start.paymentEdge]
  | .move (.respondPaymentClose response) => [.contest network response.paymentEdge]
  | _ => []

variable {network : NetworkId} {tx : Tx} {name : SlotName}

theorem Tx.writesSlots_about (written : name ∈ tx.writesSlots network) :
    ∃ edge, tx.hashesSlots network = SlotName.about network edge ∧ name ∈ SlotName.about network edge := by
  unfold writesSlots at written
  split at written
  · exact ⟨_,rfl,by simp only [SlotName.about,List.mem_cons] at written ⊢; tauto⟩
  · exact ⟨_,rfl,by simp only [SlotName.about,List.mem_cons] at written ⊢; tauto⟩
  · exact ⟨_,rfl,by simp_all [SlotName.about]⟩
  · exact ⟨_,rfl,by simp_all [SlotName.about]⟩
  · exact ⟨_,rfl,by simp_all [SlotName.about]⟩
  · exact ⟨_,rfl,by simp_all [SlotName.about]⟩
  · cases written

theorem Tx.writesSlots_hashed (written : name ∈ tx.writesSlots network) : name ∈ tx.hashesSlots network := by
  obtain ⟨edge,same,member⟩ := writesSlots_about written
  rwa [same]

section Frame

variable {id : RegistryChunkId} {chunk : RegistryChunk} {name : SlotName} {lease : Option BondLease}

@[simp] theorem RegistryMutation.write_id : (RegistryMutation.write id chunk).id = id := rfl

@[simp] theorem RegistryMutation.delete_id : (RegistryMutation.delete id).id = id := rfl

@[simp] theorem RegistryMutation.write_chunk : (RegistryMutation.write id chunk).chunk = some chunk := rfl

@[simp] theorem RegistryMutation.delete_chunk : (RegistryMutation.delete id).chunk = none := rfl

theorem bondLeaseSlot_named [Xet] {network : NetworkId} {bond : EdgeId} {index : UInt8} :
    bondLeaseSlot network bond index = (SlotName.lease network bond index).id := rfl

theorem pendingPaymentCloseSlot_named [Xet] {network : NetworkId} {payment : EdgeId} :
    pendingPaymentCloseSlot network payment = (SlotName.contest network payment).id := rfl

variable [Xet] {context : Context} {verifier : SigVerifier} {batch next : Batch} {tx : Tx}

omit [Xet] in
theorem lookup_mutations {registry : Slots RegistryChunkId RegistryChunk}
    {mutations : List RegistryMutation} (apart : ∀ mutation ∈ mutations, id ≠ mutation.id) :
    (mutations.foldl RegistryMutation.onto registry).lookup id = registry.lookup id := by
  induction mutations generalizing registry with
  | nil => rfl
  | cons head rest ih =>
    rw [List.forall_mem_cons] at apart
    rw [List.foldl_cons,ih apart.2,RegistryMutation.lookup_onto,if_neg apart.1]

theorem Accepted.registry_frame (accepted : Accepted context verifier batch tx next)
    (apart : ∀ name ∈ tx.writesSlots context.network, id ≠ name.id) :
    next.registryChunk id = batch.registryChunk id := by
  cases accepted with
  | opened accepts =>
    apply lookup_mutations
    cases openBondLease_exact.mp accepts.leased with
    | basic => simp [RegistryDiff.empty]
    | bond => simp [RegistryDiff.empty]
    | payment live bound unleased written staged =>
      rw [staged]
      simpa [Tx.writesSlots,bondLeaseSlot_named] using apart
  | closed accepts distinct pushed =>
    apply lookup_mutations
    rw [pushed]
    cases checkProof_exact.mp accepts.proved with
    | mutualClose => simp [noStagedRegistry]
    | timeout =>
      rename_i lease _ _ _ _ _ _ _
      cases lease with
      | none => simp [retiredLease,noStagedRegistry]
      | some lease => simpa [retiredLease,Tx.writesSlots,bondLeaseSlot_named] using apart
    | freeze =>
      rename_i pending _ _ _ _ _ _
      cases pending with
      | none => simp [retiredContest,oneStaged]
      | some record => simpa [retiredContest,oneStaged,Tx.writesSlots,pendingPaymentCloseSlot_named] using apart
    | adjudicated => simpa [retiredContest,oneStaged,Tx.writesSlots,pendingPaymentCloseSlot_named] using apart
  | started accepts written =>
    have other := apart _ (List.mem_singleton.mpr rfl)
    exact RegistryMutation.lookup_onto.trans (if_neg other)
  | responded accepts written =>
    have other := apart _ (List.mem_singleton.mpr rfl)
    exact RegistryMutation.lookup_onto.trans (if_neg other)
  | reshaped => rfl

theorem slot_apart (injective : Set.InjOn SlotName.id slots) (known : name ∈ slots) (found : other ∈ slots) (apart : name ≠ other) :
    name.id ≠ other.id :=
  fun same => apart (injective known found same)

variable {slots : Set SlotName} {network : NetworkId} {edge : EdgeId} (accepted : Accepted context verifier batch tx next)
  (injective : Set.InjOn SlotName.id slots) (covered : ∀ name ∈ tx.hashesSlots context.network, name ∈ slots)

include accepted injective covered in
theorem Accepted.slot_kept (known : name ∈ slots) (unwritten : name ∉ tx.writesSlots context.network) :
    next.registryChunk name.id = batch.registryChunk name.id := by
  apply accepted.registry_frame
  intro other written
  refine slot_apart injective known (covered other (Tx.writesSlots_hashed written)) ?_
  intro same
  exact unwritten (same ▸ written)

def LeaseKnown (slots : Set SlotName) (network : NetworkId) (bond : EdgeId) : Prop :=
  SlotName.lease network bond 0 ∈ slots ∧ SlotName.lease network bond 1 ∈ slots

include accepted injective covered in
theorem Accepted.lease_kept (known : LeaseKnown slots network edge)
    (unwritten : ∀ index, SlotName.lease network edge index ∉ tx.writesSlots context.network)
    (stored : LeaseAt network batch edge lease) :
    LeaseAt network next edge lease :=
  stored.frame (accepted.slot_kept injective covered known.1 (unwritten 0)) (accepted.slot_kept injective covered known.2 (unwritten 1))

theorem LeaseKnown.apart (known : LeaseKnown slots network edge) (injective : Set.InjOn SlotName.id slots) :
    bondLeaseSlot network edge 1 ≠ bondLeaseSlot network edge 0 :=
  slot_apart injective known.2 known.1 (by simp [SlotName.lease])

include accepted injective covered in
theorem Accepted.lease_after (known : LeaseKnown slots network edge) (stored : LeaseAt network batch edge lease) :
    LeaseAt network next edge (leaseAfter context network edge lease tx) := by
  have kept := fun unwritten => accepted.lease_kept injective covered known unwritten stored
  have apart := known.apart injective
  cases accepted with
  | opened accepts =>
    cases openBondLease_exact.mp accepts.leased with
    | basic | bond => exact kept (by simp [Tx.writesSlots])
    | payment live bound unleased written staged =>
      rename_i payment _ _ _
      by_cases here : network = context.network ∧ edge = payment.bondEdge
      · rw [leaseAfter,if_pos here]
        obtain ⟨rfl,rfl⟩ := here
        refine ⟨_,_,rfl,written,?_,?_⟩ <;>
          simp [Batch.registryChunk,RegistryDiff.onto,staged,RegistryMutation.lookup_onto,apart.symm]
      · rw [leaseAfter,if_neg here]
        refine kept fun index member => here ?_
        simp only [Tx.writesSlots,List.mem_cons,SlotName.lease,SlotName.mk.injEq] at member
        tauto
  | closed accepts distinct pushed =>
    cases checkProof_exact.mp accepts.proved with
    | mutualClose => exact kept (by simp [Tx.writesSlots])
    | timeout bound leased due commits signed paid =>
      rename_i input _ _ _ _ terms _ _ _
      by_cases here : network = context.network ∧ edge = input ∧ terms.isWorkBond = true
      · rw [leaseAfter,if_pos here]
        obtain ⟨rfl,rfl,isBond⟩ := here
        -- The close read the same slots, so it deletes them exactly when they are occupied.
        rw [timeoutLease,if_pos isBond,mapError_ok,stored.read] at leased
        cases leased
        cases lease with
        | none => simpa [LeaseAt,Batch.registryChunk,RegistryDiff.onto,pushed,retiredLease,noStagedRegistry] using stored
        | some lease => simp [LeaseAt,Batch.registryChunk,RegistryDiff.onto,pushed,retiredLease,RegistryMutation.lookup_onto]
      · rw [leaseAfter,if_neg here]
        by_cases isBond : terms.isWorkBond = true
        · refine kept fun index member => here ?_
          simp only [Tx.writesSlots,List.mem_cons,SlotName.lease,SlotName.mk.injEq] at member
          tauto
        · rw [timeoutLease,if_neg isBond] at leased
          cases leased
          simpa [LeaseAt,Batch.registryChunk,RegistryDiff.onto,pushed,retiredLease,noStagedRegistry] using stored
    | freeze | adjudicated => exact kept (by simp [Tx.writesSlots,SlotName.lease,SlotName.contest])
  | started | responded => exact kept (by simp [Tx.writesSlots,SlotName.lease,SlotName.contest])
  | reshaped => exact kept (by simp [Tx.writesSlots])

omit [Xet] in
theorem contest_elsewhere (elsewhere : ¬(network = found ∧ edge = other)) :
    SlotName.contest network edge ∉ [SlotName.contest found other] := by
  intro member
  apply elsewhere
  simp only [List.mem_singleton,SlotName.contest,SlotName.mk.injEq] at member
  exact ⟨member.1,member.2.2.1⟩

theorem contest_retired {diff : RegistryDiff} (stored : ContestAt network batch edge record)
    (retired : staged = retiredContest network edge record)
    (pushed : diff.mutations = staged.1.toList ++ staged.2.toList) :
    ContestAt network ⟨coins,edges,diff.onto batch.registry⟩ edge none := by
  subst retired
  cases record with
  | none => simpa [ContestAt,Batch.registryChunk,RegistryDiff.onto,pushed,retiredContest,oneStaged] using stored
  | some record => simp [ContestAt,Batch.registryChunk,RegistryDiff.onto,pushed,retiredContest,oneStaged,RegistryMutation.lookup_onto]

theorem PendingPaymentClose.fromAcceptedStart_edge (opened : fromAcceptedStart found height start = some record) :
    record.paymentEdge = start.paymentEdge := by
  unfold fromAcceptedStart at opened
  split at opened
  · simp only [Option.bind_eq_bind,Option.bind_eq_some_iff,Option.pure_def,
      Option.some.injEq] at opened
    obtain ⟨_,_,rfl⟩ := opened
    rfl
  · cases opened

include accepted injective covered in
theorem Accepted.contest_after (known : SlotName.contest network edge ∈ slots) (stored : ContestAt network batch edge record) :
    ContestAt network next edge (contestAfter context network edge record tx) := by
  have kept := fun unwritten => stored.frame (accepted.slot_kept injective covered known unwritten)
  cases accepted with
  | opened accepts =>
    cases openBondLease_exact.mp accepts.leased with
    | basic | bond => exact kept (by simp [Tx.writesSlots])
    | payment => exact kept (by simp [Tx.writesSlots,SlotName.lease,SlotName.contest])
  | closed accepts distinct pushed =>
    rename_i input _ _ _ _ _ _
    cases checkProof_exact.mp accepts.proved with
    | mutualClose => exact kept (by simp [Tx.writesSlots])
    | timeout => exact kept (by simp [Tx.writesSlots,SlotName.lease,SlotName.contest])
    | freeze _ read | adjudicated read =>
      by_cases here : network = context.network ∧ edge = input
      · rw [contestAfter,if_pos here]
        obtain ⟨rfl,rfl⟩ := here
        rw [stored.read] at read
        cases read
        exact contest_retired stored rfl pushed
      · rw [contestAfter,if_neg here]
        exact kept (contest_elsewhere here)
  | started accepts written =>
    rename_i start _ _ _ _
    by_cases here : network = context.network ∧ edge = start.paymentEdge
    · rw [contestAfter,if_pos here,accepts.opened]
      obtain ⟨rfl,rfl⟩ := here
      exact ⟨_,PendingPaymentClose.fromAcceptedStart_edge accepts.opened,written,RegistryMutation.lookup_onto.trans (if_pos rfl)⟩
    · rw [contestAfter,if_neg here]
      exact kept (contest_elsewhere here)
  | responded accepts written =>
    rename_i response _ _ _
    by_cases here : network = context.network ∧ edge = response.paymentEdge
    · rw [contestAfter,if_pos here]
      obtain ⟨rfl,rfl⟩ := here
      have read := accepts.pending
      rw [stored.read] at read
      cases read
      obtain ⟨_,named,-⟩ := stored
      exact ⟨_,named,written,RegistryMutation.lookup_onto.trans (if_pos rfl)⟩
    · rw [contestAfter,if_neg here]
      exact kept (contest_elsewhere here)
  | reshaped => exact kept (by simp [Tx.writesSlots])

end Frame

end Hellas.Kernel
