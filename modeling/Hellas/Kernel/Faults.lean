import Hellas.Kernel.Accepted

-- Which errors speak of a broken registry, and that a transaction whose records read back ends in
-- none of them.

namespace Hellas.Kernel

open Guard

def InvalidOpenReason.isRegistryFault : InvalidOpenReason → Bool
  | .workBondLeaseFault _ => true
  | _ => false

def InvalidMoveReason.isRegistryFault : InvalidMoveReason → Bool
  | .closePendingFault _ => true
  | _ => false

def InvalidProofReason.isRegistryFault : InvalidProofReason → Bool
  | .closePendingFault _ | .bondLeaseFault _ => true
  | _ => false

def ApplyError.isRegistryFault : ApplyError → Bool
  | .invalidOpen _ reason => reason.isRegistryFault
  | .invalidMove _ reason => reason.isRegistryFault
  | .invalidProof _ reason => reason.isRegistryFault
  | .missingRegistryChunk _ | .registryChunkInsertRejected .. => true
  | _ => false

abbrev OpenReadable (run : Except InvalidOpenReason α) : Prop := Avoids (fun reason => reason.isRegistryFault = true) run

abbrev MoveReadable (run : Except InvalidMoveReason α) : Prop := Avoids (fun reason => reason.isRegistryFault = true) run

abbrev ProofReadable (run : Except InvalidProofReason α) : Prop := Avoids (fun reason => reason.isRegistryFault = true) run

abbrev Readable (run : Except ApplyError α) : Prop := Avoids (fun error => error.isRegistryFault = true) run

-- The equations and not the definition: under a binder the predicate stays folded.
attribute [local simp] ApplyError.isRegistryFault.eq_1 ApplyError.isRegistryFault.eq_2
  ApplyError.isRegistryFault.eq_3 ApplyError.isRegistryFault.eq_6

theorem loadCoins_avoids : Readable (loadCoins batch ids) := by
  induction ids with
  | nil => simp [loadCoins]
  | cons id rest ih => simp [loadCoins,ih]

@[local simp high]
theorem occupied_avoids : Readable (refuse (occupied batch coins)) := by
  refine avoids_refuse.mpr fun failure found => ?_
  obtain ⟨entry,-,same⟩ := Option.map_eq_some_iff.mp found
  simp [← same]

theorem RegistryDiff.pushAll_avoids {mutations : List RegistryMutation} :
    Readable (RegistryDiff.pushAll mutations) := by
  simp [RegistryDiff.pushAll]

section Open

theorem Edge.ofOpen_avoids {total : UInt64} {parties : Parties} {terms : TermsHash}
    {debits : UInt64 × UInt64 × UInt64 × Fees} {timeout : BlockHeight} {allowed : CloseKindSet} :
    OpenReadable (Edge.ofOpen total parties terms debits timeout allowed) := by
  simp +decide [Edge.ofOpen]

variable [Xet] {context : Context}

theorem openDebits_avoids {height : BlockHeight} {fees : Fees} {coins : Nat} {total : Option UInt64} :
    OpenReadable (openDebits height fees coins total terms) := by
  have payout : ∀ values, OpenReadable (timeoutPayout values terms) := by
    intro values
    unfold timeoutPayout
    split <;> simp +decide
  simp +decide [openDebits,openLifetimeFee,payout,Edge.ofOpen_avoids]

omit [Xet] in
theorem checkTimeoutPayout_avoids : OpenReadable (checkTimeoutPayout debits terms) := by
  unfold checkTimeoutPayout
  split <;> simp +decide

omit [Xet] in
theorem checkOpenAuthority_avoids : OpenReadable (checkOpenAuthority terms coins makerAuth takerAuth) := by
  have party : ∀ keys auth coins, OpenReadable (checkPartyAuthority keys auth coins) := by
    intro keys auth coins
    unfold checkPartyAuthority
    split <;> simp +decide
  simp +decide [checkOpenAuthority,party]

omit [Xet] in
theorem checkWorkProfileOpen_avoids : OpenReadable (checkWorkProfileOpen edge shape terms) := by
  unfold checkWorkProfileOpen
  split <;> simp +decide [checkWorkBondPolicy,checkWorkPaymentTerms,checkPaymentCapacity]

theorem openBondLease_avoids {output : EdgeId} (readable : ∀ payment, terms = .workPayment payment →
      ∃ lease, readBondLease batch context.network payment.bondEdge = .ok lease) :
    Readable (openBondLease output terms context batch) := by
  unfold openBondLease
  split
  · rename_i payment
    obtain ⟨lease,read⟩ := readable payment rfl
    have cut : ∀ lease, createMutations context.network lease ≠ none := by
      intro lease
      obtain ⟨first,second,written⟩ := lease.toChunks_some
      simp [createMutations,written]
    simp +decide [read,cut,RegistryDiff.pushAll_avoids]
  · exact avoids_ok

theorem applyOpen_avoids (readable : ∀ payment, terms = .workPayment payment →
      ∃ lease, readBondLease batch context.network payment.bondEdge = .ok lease) :
    Readable (applyOpen funding terms makerAuth takerAuth context verifier batch) := by
  simp +decide [applyOpen,openCoins,loadCoins_avoids,checkFundingOwnership,checkOpenAuth,openDebits_avoids,
    checkTimeoutPayout_avoids,checkOpenAuthority_avoids,checkWorkProfileOpen_avoids,openBondLease_avoids readable]

end Open

section Close

variable [Xet] {context : Context}

theorem checkProof_avoids (leased : ∃ lease, readBondLease batch context.network close.input = .ok lease)
    (contested : ∃ pending, readPendingClose batch context.network close.input = .ok pending) :
    ProofReadable (checkProof close proof context verifier batch) := by
  obtain ⟨lease,leaseRead⟩ := leased
  obtain ⟨pending,pendingRead⟩ := contested
  cases proof with
  | mutualClose maker taker => simp +decide [checkProof,checkMutual]
  | timeout terms owner =>
    have lease : ProofReadable (timeoutLease terms context batch close.input) := by
      unfold timeoutLease
      split <;> simp +decide [leaseRead]
    have signed : ProofReadable (checkTimeoutOwner close terms owner context verifier) := by
      unfold checkTimeoutOwner
      split <;> simp +decide
    simp +decide [checkProof,checkTimeout,lease,signed]
  | freeze earned validFrom validThrough maker taker =>
    have provided : ProofReadable (freezeProvider earned pending) := by
      cases pending <;> simp +decide [freezeProvider]
    simp +decide [checkProof,checkFreeze,readPending,pendingRead,provided,checkSplit,splitPayouts]
  | adjudicated commitment => simp +decide [checkProof,checkAdjudicated,readPending,pendingRead,checkSplit,splitPayouts]

theorem applyClose_avoids {outputs : Payouts} (leased : ∃ lease, readBondLease batch context.network input = .ok lease)
    (contested : ∃ pending, readPendingClose batch context.network input = .ok pending) :
    Readable (applyClose input proof outputs context verifier batch) := by
  have proved : ∀ edge total, ProofReadable (checkProof ⟨input,edge,total,outputs⟩ proof context verifier batch) :=
    fun edge total => checkProof_avoids leased contested
  simp [applyClose,checkCloseOutputs,RegistryDiff.pushAll_avoids,proved]

end Close

section Moves

theorem checkCapacity_avoids {bond amount : UInt64} : MoveReadable (checkCapacity edge bond amount) := by
  simp +decide [checkCapacity]

theorem checkStartCertificate_avoids {payment : WorkPaymentTerms} :
    MoveReadable (checkStartCertificate start edge payment) := by
  unfold checkStartCertificate
  split <;> simp +decide [checkCertificate,checkCapacity_avoids]

theorem moveWindowFault_clear {fault : WindowFault} : (moveWindowFault fault).isRegistryFault = false := by
  cases fault <;> rfl

variable [Xet] {context : Context}

omit [Xet] in
theorem toChunk_present (record : PendingPaymentClose) : record.toChunk ≠ none := by
  obtain ⟨chunk,written⟩ := record.toChunk_some
  simp [written]

theorem applyStart_avoids (contested : ∃ pending, readPendingClose batch context.network start.paymentEdge = .ok pending) :
    Readable (applyStart start context verifier batch) := by
  obtain ⟨pending,read⟩ := contested
  simp +decide [applyStart,readPending,read,moveWindowFault_clear,checkStartCertificate_avoids,toChunk_present,RegistryDiff.pushAll_avoids]

theorem applyResponse_avoids {response : PaymentCloseResponse}
    (contested : ∃ pending, readPendingClose batch context.network response.paymentEdge = .ok pending) :
    Readable (applyResponse response context verifier batch) := by
  obtain ⟨pending,read⟩ := contested
  simp +decide [applyResponse,checkResponse,readPending,read,checkCertificate,checkCapacity_avoids,
    toChunk_present,RegistryDiff.pushAll_avoids]

theorem Reshape.apply_avoids {reshape : Reshape} : Readable (reshape.apply context verifier batch) := by
  simp [Reshape.apply,loadCoins_avoids]

end Moves

section Fold

-- The errors of a coin or an edge that is not in the store as it was read.
def ApplyError.ofObject : ApplyError → Bool
  | .missingCoin _ | .coinChanged _ | .missingEdge _ | .edgeChanged _ => true
  | .coinInsertRejected .. | .edgeInsertRejected .. => true
  | _ => false

theorem Effect.fold_avoids {effect : Effect} {bad : ApplyError → Prop} (clear : ∀ error, error.ofObject = true → ¬bad error) :
    Avoids bad (effect.fold backend batch) := by
  have inserted : ∀ batch coins, Avoids bad (insertCoins backend batch coins) := by
    refine fun batch coins => avoids_foldlM fun state entry => avoids_mapError.mpr ?_
    exact fun reason _ => clear _ rfl
  have removed : ∀ batch coins, Avoids bad (removeCoins batch coins) := by
    intro batch coins
    refine avoids_foldlM fun state entry => ?_
    unfold removeCoin
    split
    · split
      · exact avoids_ok
      · exact avoids_error.mpr (clear _ rfl)
    · exact avoids_error.mpr (clear _ rfl)
  have closed : ∀ batch edge, Avoids bad (removeEdge batch edge) := by
    intro batch edge
    unfold removeEdge
    split
    · split
      · exact avoids_ok
      · exact avoids_error.mpr (clear _ rfl)
    · exact avoids_error.mpr (clear _ rfl)
  have opened : ∀ batch edge, Avoids bad (insertEdge backend batch edge) :=
    fun batch edge => avoids_mapError.mpr fun reason _ => clear _ rfl
  cases effect <;> simp [fold,inserted,removed,closed,opened]

theorem Change.fold_avoids {change : Change} (fits : change.outcome.registry.Fits batch) :
    Readable (change.fold .acceptAll batch) := by
  cases change with
  | hidden diff =>
    intro error failed
    rw [show fold .acceptAll batch (.hidden diff) = _ from
      mutations_accepts diff.distinct fits] at failed
    cases failed
  | visible event effect diff =>
    refine avoids_bind.mpr ⟨Effect.fold_avoids ?_,fun middle folded => ?_⟩
    · intro error object
      cases error <;> simp [ApplyError.ofObject] at object <;> simp
    obtain ⟨-,rfl⟩ := Effect.fold_parts folded
    intro error failed
    rw [show diff.fold .acceptAll (effect.onto batch) = _ from
      mutations_accepts diff.distinct (by
        unfold RegistryMutation.Fits Batch.registryChunk
        rw [Effect.onto_registry]
        exact fits)] at failed
    cases failed

end Fold

section Apply

variable [Xet] {context : Context} {tx : Tx}

def Tx.readsEdges : Tx → List EdgeId
  | .openEdge _ (.workPayment payment) _ _ => [payment.bondEdge]
  | .openEdge .. => []
  | .closeEdge input _ _ => [input]
  | .move (.startPaymentClose start) => [start.paymentEdge]
  | .move (.respondPaymentClose response) => [response.paymentEdge]
  | .owner _ => []

theorem Tx.apply_avoids (leased : ∀ edge ∈ tx.readsEdges, ∃ lease, readBondLease batch context.network edge = .ok lease)
    (contested : ∀ edge ∈ tx.readsEdges, ∃ pending, readPendingClose batch context.network edge = .ok pending) :
    Readable (tx.apply context verifier batch) := by
  cases tx with
  | openEdge funding terms makerAuth takerAuth =>
    refine applyOpen_avoids fun payment same => ?_
    subst same
    exact leased _ List.mem_cons_self
  | closeEdge input proof outputs => exact applyClose_avoids (leased _ List.mem_cons_self) (contested _ List.mem_cons_self)
  | move action =>
    cases action with
    | startPaymentClose start => exact applyStart_avoids (contested _ List.mem_cons_self)
    | respondPaymentClose response => exact applyResponse_avoids (contested _ List.mem_cons_self)
  | owner reshape => exact Reshape.apply_avoids

theorem Tx.apply_fits (applied : tx.apply context verifier batch = .ok change) :
    change.outcome.registry.Fits batch := by
  cases tx with
  | openEdge funding terms makerAuth takerAuth =>
    obtain ⟨coins,debits,registry,accepts,rfl⟩ := applyOpen_exact.mp applied
    exact (openBondLease_exact.mp accepts.leased).fits
  | closeEdge input proof outputs =>
    obtain ⟨edge,total,staged,diff,accepts,pushed,rfl⟩ := applyClose_exact.mp applied
    exact (checkProof_exact.mp accepts.proved).fits pushed
  | move action =>
    have writes : ∀ {diff : RegistryDiff} {id chunk}, diff.mutations = [.write id chunk] → diff.Fits batch := by
      intro diff id chunk staged
      simp [RegistryDiff.Fits,staged,RegistryMutation.Fits,RegistryMutation.write]
    cases action with
    | startPaymentClose start =>
      obtain ⟨_,_,_,-,chunk,diff,-,rfl,staged⟩ := applyStart_exact.mp applied
      exact writes staged
    | respondPaymentClose response =>
      obtain ⟨_,_,-,chunk,diff,-,rfl,staged⟩ := applyResponse_exact.mp applied
      exact writes staged
  | owner reshape =>
    obtain ⟨coins,owner,held,-,rfl⟩ := Reshape.apply_exact.mp applied
    simp [Change.reshaped,Change.outcome,RegistryDiff.Fits,RegistryDiff.empty]

theorem State.apply_avoids (leased : ∀ edge ∈ tx.readsEdges, ∃ lease, readBondLease batch context.network edge = .ok lease)
    (contested : ∀ edge ∈ tx.readsEdges, ∃ pending, readPendingClose batch context.network edge = .ok pending) :
    Readable (State.apply .acceptAll context verifier batch tx) := by
  refine avoids_bind.mpr ⟨Tx.apply_avoids leased contested,fun change applied => ?_⟩
  exact avoids_bind.mpr ⟨Change.fold_avoids (Tx.apply_fits applied),fun _ _ => avoids_pure⟩

end Apply

end Hellas.Kernel
