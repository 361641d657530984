import Hellas.Kernel.Open

-- The two moves of a payment-close contest: a start stakes an amount and opens a window, one
-- response may raise it.

namespace Hellas.Kernel

open Guard Words

inductive WindowFault where
  | outside
  | tooWide
  deriving DecidableEq

def moveWindowFault : WindowFault → InvalidMoveReason
  | .outside => .outsideValidityWindow
  | .tooWide => .validitySpanTooWide

-- Inclusive at both ends, so a single-block window spans one.
def checkValidityWindow (height : UInt64) (validity : UInt64 × UInt64) (maxSpan : UInt64) :
    Except WindowFault Unit := do
  let (first, last) := validity
  rejectIf (height < first ∨ height > last) .outside
  let gap ← okOr (checkedSub last first) .tooWide
  let span ← okOr (checkedAdd gap 1) .tooWide
  rejectIf (span > maxSpan) .tooWide

theorem checkValidityWindow_exact : checkValidityWindow height validity maxSpan = .ok done ↔
      validity.1 ≤ height ∧ height ≤ validity.2 ∧ validity.2.toNat + 1 ≤ validity.1.toNat + maxSpan.toNat := by
  obtain ⟨first,last⟩ := validity
  simp only [checkValidityWindow,bind_ok,rejectIf_ok,okOr_ok,checkedSub_exact,checkedAdd_exact,not_or,UInt64.le_iff_toNat_le,
    UInt64.lt_iff_toNat_lt,gt_iff_lt,UInt64.toNat_one]
  constructor
  · rintro ⟨_,inside,gap,width,span,counted,narrow⟩
    omega
  · rintro ⟨after,before,narrow⟩
    have top := maxSpan.toNat_lt
    obtain ⟨gap,width⟩ := exists_word (show last.toNat - first.toNat < 2^64 by omega)
    obtain ⟨span,counted⟩ := exists_word (show gap.toNat + 1 < 2^64 by omega)
    exact ⟨(),by omega,gap,by omega,span,by omega,by omega⟩

-- A certificate is evidence about the one channel it names.
def checkCertificate (certificate : EarnedCertificate) (input : EdgeId) (terms : TermsHash) :
    Except InvalidMoveReason Unit :=
  rejectIf (¬(certificate.paymentEdge = input ∧ certificate.paymentTermsHash = terms)) .certificateNotBound

def checkCapacity (edge : Edge) (omissionBond amount : UInt64) : Except InvalidMoveReason Unit := do
  let capacity ← okOr (paymentCapacity edge omissionBond) .reserveTooSmall
  rejectIf (amount > capacity) .certificateOverCapacity

def Terms.asWorkPayment : Terms → Option WorkPaymentTerms
  | .workPayment payment => some payment
  | _ => none

-- Zero is spelled by the absent certificate alone.
def checkStartCertificate (start : PaymentCloseStart) (edge : Edge) (payment : WorkPaymentTerms) :
    Except InvalidMoveReason Unit :=
  match start.certificate with
  | none => .ok ()
  | some (certificate, _) => do
    checkCertificate certificate start.paymentEdge edge.terms
    rejectIf (certificate.earnedCumulative = 0) .certificateNotPositive
    checkCapacity edge payment.omissionBond certificate.earnedCumulative

variable [Xet]

def readPending (batch : Batch) (context : Context) (input : EdgeId) :
    Except PendingCloseFault (Option PendingPaymentClose) :=
  readPendingClose batch context.network input

def certificateSigned (start : PaymentCloseStart) (edge : Edge) (network : NetworkId) (verifier : SigVerifier) : Bool :=
  match start.certificate with
  | none => true
  | some (certificate, auth) => verifyParty verifier auth edge.parties.maker (certificate.digest network)

def applyStart (start : PaymentCloseStart) (context : Context) (verifier : SigVerifier) (batch : Batch) : Except ApplyError Change := do
  let input := start.paymentEdge
  let height := context.blockHeight.value
  let edge ← okOr (batch.edge input) (.missingEdge input)
  rejectIf (start.terms.hash ≠ edge.terms) (.invalidMove input .termsMismatch)
  let payment ← okOr start.terms.asWorkPayment (.invalidMove input .notAPaymentChannel)
  (checkValidityWindow height (start.validFromHeight, start.validThroughHeight)
    payment.startValidityBlocks).mapError fun fault => .invalidMove input (moveWindowFault fault)
  let pending ← (readPending batch context input).mapError
    fun fault => .invalidMove input (.closePendingFault fault)
  rejectIf pending.isSome (.invalidMove input .closePending)
  let record ← okOr (PendingPaymentClose.fromAcceptedStart context.network height start)
    (.invalidMove input .deadlineOverflow)
  (checkStartCertificate start edge payment).mapError (.invalidMove input)
  rejectIf (¬certificateSigned start edge context.network verifier) (.invalidMove input .badCertificateSignature)
  rejectIf (¬verifyParty verifier start.action (start.openerRole.keysOf edge.parties)
    (start.digest context.network)) (.invalidMove input .badSignature)
  let chunk ← okOr record.toChunk (.invalidMove input (.closePendingFault .body))
  let diff ← RegistryDiff.pushAll [.write (pendingPaymentCloseSlot context.network input) chunk]
  pure (.hidden diff)

def checkResponse (response : PaymentCloseResponse) (context : Context) (verifier : SigVerifier)
    (batch : Batch) : Except ApplyError PendingPaymentClose := do
  let input := response.paymentEdge
  let edge ← okOr (batch.edge input) (.missingEdge input)
  rejectIf (edge.allows .adjudicated = false) (.invalidMove input .notAPaymentChannel)
  let pending ← (readPending batch context input).mapError
    fun fault => .invalidMove input (.closePendingFault fault)
  let record ← okOr pending (.invalidMove input .closePendingMissing)
  rejectIf (record.startId ≠ response.startId) (.invalidMove input .startIdMismatch)
  rejectIf (response.responderRole ≠ .taker) (.invalidMove input .responderNotBeneficiary)
  rejectIf (record.responded = true) (.invalidMove input .alreadyResponded)
  rejectIf (context.blockHeight.value ≥ record.responseDeadline) (.invalidMove input .responseWindowClosed)
  let certificate := response.certificate
  (checkCertificate certificate input edge.terms).mapError (.invalidMove input)
  rejectIf (certificate.earnedCumulative ≤ record.finalCumulative) (.invalidMove input .certificateNotIncreasing)
  (checkCapacity edge record.penaltyAmount certificate.earnedCumulative).mapError (.invalidMove input)
  let earnedDigest := certificate.digest context.network
  let digest := responseDigest context.network input edge.terms record.startId
    response.responderRole earnedDigest
  rejectIf (¬verifyParty verifier response.action (response.responderRole.keysOf edge.parties) digest) (.invalidMove input .badSignature)
  rejectIf (¬verifyParty verifier response.certificateAuth edge.parties.maker earnedDigest) (.invalidMove input .badCertificateSignature)
  pure (record.withAcceptedResponse response)

def applyResponse (response : PaymentCloseResponse) (context : Context) (verifier : SigVerifier)
    (batch : Batch) : Except ApplyError Change := do
  let input := response.paymentEdge
  let advanced ← checkResponse response context verifier batch
  let chunk ← okOr advanced.toChunk (.invalidMove input (.closePendingFault .body))
  let diff ← RegistryDiff.pushAll [.write (pendingPaymentCloseSlot context.network input) chunk]
  pure (.hidden diff)

def RecordsContest (network : NetworkId) (input : EdgeId) (record : PendingPaymentClose) (change : Change) : Prop :=
  ∃ chunk diff, record.toChunk = some chunk ∧ change = .hidden diff ∧
    diff.mutations = [.write (pendingPaymentCloseSlot network input) chunk]

structure StartAccepts (start : PaymentCloseStart) (context : Context) (verifier : SigVerifier)
    (batch : Batch) (edge : Edge) (payment : WorkPaymentTerms) (record : PendingPaymentClose) :
    Prop where
  live : batch.edge start.paymentEdge = some edge
  bound : start.terms.hash = edge.terms
  terms : start.terms = .workPayment payment
  window : checkValidityWindow context.blockHeight.value
    (start.validFromHeight, start.validThroughHeight) payment.startValidityBlocks = .ok ()
  absent : readPendingClose batch context.network start.paymentEdge = .ok none
  opened : PendingPaymentClose.fromAcceptedStart context.network context.blockHeight.value start =
    some record
  certified : checkStartCertificate start edge payment = .ok ()
  vouched : certificateSigned start edge context.network verifier = true
  signed : verifyParty verifier start.action (start.openerRole.keysOf edge.parties)
    (start.digest context.network) = true

omit [Xet] in
theorem asWorkPayment_exact {terms : Terms} : terms.asWorkPayment = some payment ↔ terms = .workPayment payment := by
  cases terms <;> simp [Terms.asWorkPayment]

variable {context : Context} {verifier : SigVerifier} {batch : Batch}
  {response : PaymentCloseResponse}

theorem applyStart_exact :
    applyStart start context verifier batch = .ok change ↔
      ∃ edge payment record, StartAccepts start context verifier batch edge payment record ∧
        RecordsContest context.network start.paymentEdge record change := by
  simp only [applyStart,bind_ok,okOr_ok,rejectIf_ok,mapError_ok,readPending,ne_eq,not_not,
    asWorkPayment_exact,pure_ok,RegistryDiff.pushAll_exact,RecordsContest]
  constructor
  · rintro ⟨edge,live,_,bound,payment,terms,_,window,pending,found,_,absent,record,
      opened,_,certified,_,vouched,_,signed,chunk,written,diff,staged,rfl⟩
    have free : pending = .none := by simpa using absent
    exact ⟨edge,payment,record,⟨live,bound,terms,window,free ▸ found,opened,certified,vouched,signed⟩,chunk,diff,written,rfl,staged⟩
  · rintro ⟨edge,payment,record,accepted,chunk,diff,written,rfl,staged⟩
    exact ⟨edge,accepted.live,(),accepted.bound,payment,accepted.terms,(),accepted.window,
      none,accepted.absent,(),by simp,record,accepted.opened,(),accepted.certified,(),
      accepted.vouched,(),accepted.signed,chunk,written,diff,staged,rfl⟩

structure ResponseAccepts (response : PaymentCloseResponse) (context : Context)
    (verifier : SigVerifier) (batch : Batch) (edge : Edge) (record : PendingPaymentClose) :
    Prop where
  live : batch.edge response.paymentEdge = some edge
  payment : edge.allows .adjudicated = true
  pending : readPendingClose batch context.network response.paymentEdge = .ok (some record)
  answers : record.startId = response.startId
  beneficiary : response.responderRole = .taker
  unanswered : record.responded = false
  timely : context.blockHeight.value < record.responseDeadline
  certified : checkCertificate response.certificate response.paymentEdge edge.terms = .ok ()
  raises : record.finalCumulative < response.certificate.earnedCumulative
  funded : checkCapacity edge record.penaltyAmount response.certificate.earnedCumulative = .ok ()
  signed : verifyParty verifier response.action (response.responderRole.keysOf edge.parties)
    (responseDigest context.network response.paymentEdge edge.terms record.startId
      response.responderRole (response.certificate.digest context.network)) = true
  vouched : verifyParty verifier response.certificateAuth edge.parties.maker
    (response.certificate.digest context.network) = true

theorem checkResponse_exact :
    checkResponse response context verifier batch = .ok advanced ↔
      ∃ edge record, ResponseAccepts response context verifier batch edge record ∧ advanced = record.withAcceptedResponse response := by
  simp only [checkResponse,bind_ok,okOr_ok,rejectIf_ok,mapError_ok,readPending,ne_eq,not_not,
    Bool.not_eq_false,Bool.not_eq_true,ge_iff_le,UInt64.not_le,pure_ok]
  constructor
  · rintro ⟨edge,live,_,payment,pending,found,record,rfl,_,answers,_,beneficiary,_,
      unanswered,_,timely,_,certified,_,raises,_,funded,_,signed,_,vouched,rfl⟩
    exact ⟨edge,record,⟨live,payment,found,answers,beneficiary,unanswered,timely,certified,raises,funded,signed,vouched⟩,rfl⟩
  · rintro ⟨edge,record,accepted,rfl⟩
    exact ⟨edge,accepted.live,(),accepted.payment,some record,accepted.pending,record,rfl,(),accepted.answers,(),
      accepted.beneficiary,(),accepted.unanswered,(),accepted.timely,(),accepted.certified,(),accepted.raises,(),
      accepted.funded,(),accepted.signed,(),accepted.vouched,rfl⟩

theorem applyResponse_exact :
    applyResponse response context verifier batch = .ok change ↔
      ∃ edge record, ResponseAccepts response context verifier batch edge record ∧
        RecordsContest context.network response.paymentEdge (record.withAcceptedResponse response) change := by
  simp only [applyResponse,bind_ok,okOr_ok,checkResponse_exact,pure_ok,RegistryDiff.pushAll_exact,RecordsContest]
  constructor
  · rintro ⟨_,⟨edge,record,accepted,rfl⟩,chunk,written,diff,staged,rfl⟩
    exact ⟨edge,record,accepted,chunk,diff,written,rfl,staged⟩
  · rintro ⟨edge,record,accepted,chunk,diff,written,rfl,staged⟩
    exact ⟨_,⟨edge,record,accepted,rfl⟩,chunk,written,diff,staged,rfl⟩

end Hellas.Kernel
