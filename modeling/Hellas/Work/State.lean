import Hellas.Work.Book

-- What one endpoint durably knows about one paid channel, and every record that may move it.

namespace Hellas.Work

open Authority (Digest)
open Guard Kernel Words

-- The prepared input and the transcript of a job are opened and checked by the invocation protocol;
-- any pair of such checks will do here.
class Invocations where
  checkInput : PaidChannel → PaidJobAuthorizationV2 → List UInt8 → Except PaidWorkError Unit
  terminalResult : PaidChannel → PaidJobAuthorizationV2 → List UInt8 → List UInt8 →
    Except PaidWorkError PaidJobResultV1

instance : JobAuthorization PaidJobAuthorizationV2 where
  unit := "finalized height"
  proposalNonce authorization := authorization.proposalNonce
  acceptanceDeadline authorization := authorization.acceptanceDeadline.toNat
  terminalDeadline authorization := authorization.terminalDeadline.toNat

inductive TerminalOutcome where
  | certified (signedResult : PaidJobResultV1 × Sig) (certificate : EarnedCertificate)
      (binding : PaymentBindingV1) (bindingSignature certificateSignature : Sig)
  | rejected (resultDigest evidenceDigest : Digest)
  | expired (deadline height : UInt64) (payload : FixedBytes 32)
  | failed (code : UInt32)
  | indeterminate
  deriving DecidableEq

instance : JobOutcome TerminalOutcome where
  name
    | .certified .. => "certified"
    | .rejected .. => "rejected"
    | .expired .. => "expired"
    | .failed _ => "failed"
    | .indeterminate => "indeterminate"

def TerminalOutcome.isCertified : TerminalOutcome → Bool
  | .certified .. => true
  | _ => false

abbrev PaidJob := JobState PaidJobAuthorizationV2 PaidJobResultV1 Sig

abbrev PaidBook := JobBook PaidJobAuthorizationV2 PaidJobResultV1 Sig TerminalOutcome

structure OpenContest where
  startId : StartId
  opener : Party
  responseDeadline : UInt64
  claimed : UInt64
  deriving DecidableEq

structure CloseHistory where
  height : UInt64
  payload : FixedBytes 32
  pending : PendingPaymentClose
  deriving DecidableEq

structure RespondedContest where
  startId : StartId
  responseDigest : PayloadHash
  deriving DecidableEq

structure CloseSettlement where
  height : UInt64
  payload : FixedBytes 32
  providerPayout : UInt64
  deriving DecidableEq

structure PaidCertificate where
  workId : Digest
  certificate : EarnedCertificate
  binding : PaymentBindingV1
  bindingSignature : Sig
  certificateSignature : Sig
  deriving DecidableEq

inductive ChannelRecord where
  | originObserved
  | proposalExchange (workId : Digest) (pending : Bool)
  | cursorAdvanced (height : UInt64) (parent payload : FixedBytes 32)
  | jobProposed (authorization : PaidJobAuthorizationV2) (clientSignature : Sig)
      (preparedInput : List UInt8)
  | jobAccepted (workId : Digest) (providerSignature : Sig)
  | jobRunning (workId : Digest)
  | jobResult (workId : Digest) (result : PaidJobResultV1) (providerSignature : Sig)
      (transcript : List UInt8)
  | plaintextReleased (workId : Digest)
  | resultVerified (workId : Digest)
  | jobTerminated (workId : Digest) (outcome : TerminalOutcome)
  | closePrepared (start : PaymentCloseStart)
  | closeOpened (contest : OpenContest)
  | closeResponded (answer : RespondedContest)
  | closeSettled (settlement : CloseSettlement)
  | closeHistoryAdvanced (parent : FixedBytes 32) (history : CloseHistory)
  deriving DecidableEq

structure SetupOrigin where
  paymentEdge : EdgeId
  height : UInt64
  payload : FixedBytes 32
  parent : FixedBytes 32
  deriving DecidableEq

structure PaymentState where
  channel : PaidChannel
  settlement : WorkPaymentSettlement
  cursor : UInt64 × FixedBytes 32
  originObserved : Bool
  closePrepared : Option PaymentCloseStart
  closeOpened : Option OpenContest
  closeHistory : Option CloseHistory
  closeResponded : Option RespondedContest
  closeSettled : Option CloseSettlement
  deriving DecidableEq

structure Channel where
  funding : PaymentState
  ledger : CreditLedger
  role : Role
  book : PaidBook
  deriving DecidableEq

def lastMax (score : α → UInt64) (items : List α) : Option α :=
  items.foldl (fun best item =>
    match best with
    | none => some item
    | some held => if score held ≤ score item then some item else some held) none

-- An owner key speaks as owner even where it is the signer too.
def authorityOf (keys : PartyKeys) (key : Key) : Option Authority :=
  if key = keys.owner then some .owner
  else if key = keys.signer then some .signer
  else none

namespace Channel

def new (channel : PaidChannel) (settlement : WorkPaymentSettlement) (role : Role) (origin : SetupOrigin) : Channel where
  funding := ⟨channel,settlement,(origin.height, origin.payload),false,none,none,none,none,none⟩
  ledger := .new
  role := role
  book := .empty

def paymentFromTerminal (terminal : JobTerminal TerminalOutcome) : Option PaidCertificate :=
  match terminal.outcome with
  | .certified _ certificate binding bindingSignature certificateSignature =>
    some ⟨terminal.workId,certificate,binding,bindingSignature,certificateSignature⟩
  | _ => none

def lastPayment (channel : Channel) : Option PaidCertificate :=
  lastMax (fun payment => payment.certificate.earnedCumulative)
    (channel.book.terminals.values.filterMap paymentFromTerminal)

def executableCertificate (channel : Channel) : Option (EarnedCertificate × Sig) :=
  channel.lastPayment.map fun payment => (payment.certificate, payment.certificateSignature)

-- The retained close start while the height is still inside the window it could be included in.
def includableCloseStart (channel : Channel) (height : UInt64) : Option PaymentCloseStart :=
  channel.funding.closePrepared.filter fun start => height ≤ start.validThroughHeight

def isClosing (channel : Channel) : Bool :=
  channel.funding.closeOpened.isSome || channel.funding.closeSettled.isSome ||
    (channel.includableCloseStart channel.funding.cursor.1).isSome

def answerableContest (channel : Channel) : Option (OpenContest × EarnedCertificate × Sig) :=
  if channel.role ≠ .provider ∨ channel.funding.closeSettled ≠ none ∨
      ∃ history ∈ channel.funding.closeHistory, history.pending.responded = true then
    none
  else do
    let contest ← channel.funding.closeOpened
    if contest.opener ≠ .maker ∨ contest.responseDeadline ≤ channel.funding.cursor.1 then none
    else do
      let certificate ← channel.executableCertificate.filter fun held => contest.claimed < held.1.earnedCumulative
      pure (contest, certificate)

def refuseIfClosing (channel : Channel) (step : String) : Except ChannelStateError Unit :=
  rejectIf (channel.isClosing = true) (.closing step)

def requireRole (channel : Channel) (step : String) (role : Role) : Except ChannelStateError Unit :=
  rejectIf (channel.role ≠ role) (.wrongRole step role.name)

def refuseOpenJob (channel : Channel) (step : String) : Except ChannelStateError Unit :=
  match channel.book.jobs.values with
  | job :: _ => .error (.wrongPhase step job.phase.name)
  | [] => .ok ()

def onBook (channel : Channel) (step : Except ChannelStateError (PaidBook × Applied)) :
    Except ChannelStateError (Channel × Applied) := do
  let moved ← step
  pure ({ channel with book := moved.1 }, moved.2)

def onFunding (channel : Channel) (funding : PaymentState) : Channel × Applied := ({ channel with funding := funding }, .changed)

def applyOriginObserved (channel : Channel) : Channel × Applied :=
  if channel.funding.originObserved then (channel, .redundant)
  else channel.onFunding { channel.funding with originObserved := true }

def reading (channel : Channel) (height : UInt64) (parent payload : FixedBytes 32) :
    Except ChannelStateError Applied :=
  let held := channel.funding.cursor
  if (height, payload) = held then .ok .redundant
  else do
    rejectIf (height ≠ saturatingAdd held.1 1) (.cursorNotNext held.1 height)
    rejectIf (parent ≠ held.2) (.cursorNotContiguous height)
    pure .changed

def applyCursor (channel : Channel) (height : UInt64) (parent payload : FixedBytes 32) :
    Except ChannelStateError (Channel × Applied) := do
  let read ← channel.reading height parent payload
  match read with
  | .redundant => pure (channel, .redundant)
  | .changed => pure (channel.onFunding { channel.funding with cursor := (height, payload) })

-- A contest's record must be the one its start, its terms and its window allow.
def UnfitHistory (channel : Channel) (contest : OpenContest) (inclusion : UInt64) (history : CloseHistory) : Prop :=
  let pending := history.pending
  let terms := channel.funding.channel.paymentTerms
  history.height < inclusion ∨ contest.responseDeadline < history.height ∨ saturatingAdd channel.funding.cursor.1 1 < history.height ∨
    pending.paymentEdge ≠ channel.funding.channel.paymentEdge ∨
    pending.startId ≠ contest.startId ∨ pending.openerRole ≠ contest.opener ∨
    pending.responseDeadline ≠ contest.responseDeadline ∨
    pending.startCumulative ≠ contest.claimed ∨ pending.finalCumulative < contest.claimed ∨
    channel.funding.settlement.capacity < pending.finalCumulative ∨
    pending.penaltyAmount ≠ terms.omissionBond ∨
    (pending.responded = false ∧ (pending.finalCumulative ≠ contest.claimed ∨ pending.penaltyDue = true)) ∨
    (pending.responded = true ∧ (pending.finalCumulative ≤ contest.claimed ∨ pending.penaltyDue ≠ decide (contest.opener = .maker)))

instance {channel : Channel} {contest : OpenContest} {inclusion : UInt64} {history : CloseHistory} :
    Decidable (channel.UnfitHistory contest inclusion history) :=
  inferInstanceAs (Decidable (_ ∨ _ ∨ _ ∨ _ ∨ _ ∨ _ ∨ _ ∨ _ ∨ _ ∨ _ ∨ _ ∨ _ ∨ _))

def checkCloseHistory (channel : Channel) (history : CloseHistory) :
    Except ChannelStateError Unit := do
  let contest ← okOr channel.funding.closeOpened .malformed
  let inclusion ← okOr (checkedSub contest.responseDeadline
    channel.funding.channel.paymentTerms.omitResponseBlocks) .malformed
  rejectIf (channel.UnfitHistory contest inclusion history) .malformed

def BreaksHistory (previous : CloseHistory) (next : UInt64) (parent : FixedBytes 32) (history : CloseHistory) : Prop :=
  let before := previous.pending
  let pending := history.pending
  history.height ≠ next ∨ parent ≠ previous.payload ∨
    (pending.responded = true ∧ before.responded = false ∧ pending.responseDeadline ≤ history.height) ∨
    pending.ownerSigned.1 ≠ before.ownerSigned.1 ∨
    ((before.responded = true ∨ pending.responded = false) ∧ pending ≠ before) ∨
    pending.finalCumulative < before.finalCumulative ∨
    (before.ownerSigned.1 = true ∧ pending.ownerSigned.1 = false) ∨
    (before.ownerSigned.2 = true ∧ pending.ownerSigned.2 = false)

instance {previous history : CloseHistory} {next : UInt64} {parent : FixedBytes 32} :
    Decidable (BreaksHistory previous next parent history) :=
  inferInstanceAs (Decidable (_ ∨ _ ∨ _ ∨ _ ∨ _ ∨ _ ∨ _ ∨ _))

def followHistory (channel : Channel) (parent : FixedBytes 32) (history : CloseHistory) :
    Except ChannelStateError Unit :=
  match channel.funding.closeHistory with
  | some previous => do
    let next ← okOr (checkedAdd previous.height 1) .malformed
    rejectIf (BreaksHistory previous next parent history) .malformed
  | none => do
    let inclusion ← okOr (checkedSub history.pending.responseDeadline
      channel.funding.channel.paymentTerms.omitResponseBlocks) .malformed
    rejectIf (history.height ≠ inclusion) .malformed

def applyCloseHistory (channel : Channel) (parent : FixedBytes 32) (history : CloseHistory) :
    Except ChannelStateError (Channel × Applied) := do
  channel.checkCloseHistory history
  if channel.funding.closeHistory = some history then pure (channel, .redundant)
  else do
    channel.followHistory parent history
    pure (channel.onFunding { channel.funding with closeHistory := some history })

def applyCloseOpened (channel : Channel) (contest : OpenContest) :
    Except ChannelStateError (Channel × Applied) :=
  if channel.funding.closeOpened = some contest then .ok (channel, .redundant)
  else do
    rejectIf (channel.funding.closeSettled ≠ none) (.closing "opening a close contest")
    rejectIf (channel.funding.closeOpened ≠ none) (.conflict "this edge's close contest")
    channel.refuseOpenJob "opening a close contest"
    pure (channel.onFunding { channel.funding with closeOpened := some contest })

def applyCloseSettled (channel : Channel) (settlement : CloseSettlement) :
    Except ChannelStateError (Channel × Applied) :=
  if channel.funding.closeSettled = some settlement then .ok (channel, .redundant)
  else do
    rejectIf (channel.funding.closeSettled ≠ none) (.conflict "this edge's close")
    channel.refuseOpenJob "closing the payment edge"
    pure (channel.onFunding { channel.funding with closeSettled := some settlement })

section Crypto

variable [Xet]

def responseBodyDigest (channel : PaidChannel) (startId : StartId) (certificate : EarnedCertificate) :
    PayloadHash :=
  responseDigest channel.network channel.paymentEdge channel.paymentTermsHash startId .taker (certificate.digest channel.network)

def applyCloseResponded (channel : Channel) (answer : RespondedContest) :
    Except ChannelStateError (Channel × Applied) :=
  if channel.funding.closeResponded = some answer then .ok (channel, .redundant)
  else do
    rejectIf (channel.funding.closeResponded ≠ none) (.conflict "this contest's answer")
    channel.requireRole "answering a close contest" .provider
    rejectIf (channel.funding.closeSettled ≠ none) (.closing "answering a close contest")
    let owed ← okOr channel.answerableContest
      (.wrongPhase "answering a close contest" "owed no answer")
    rejectIf (owed.1.startId ≠ answer.startId) (.wrongChannel "close response start_id")
    rejectIf (answer.responseDigest ≠ responseBodyDigest channel.funding.channel answer.startId owed.2.1)
      (.wrongChannel "close response digest")
    pure (channel.onFunding { channel.funding with closeResponded := some answer })

-- The certificate a close start of this endpoint must carry, signed as the client's key speaks.
def startCertificate (channel : Channel) :
    Except ChannelStateError (Option (EarnedCertificate × PartyAuth)) :=
  match channel.executableCertificate with
  | none => .ok none
  | some (certificate, signature) => do
    let authority ← okOr (authorityOf channel.funding.channel.paymentTerms.parties.maker
      channel.funding.channel.clientKey) (.wrongChannel "close start certificate signer")
    pure (some (certificate, ⟨authority,.native signature⟩))

def openerRole : Role → Party
  | .client => .maker
  | .provider => .taker

def checkCloseStart (channel : Channel) (start : PaymentCloseStart) :
    Except ChannelStateError Unit := do
  let certificate ← channel.startCertificate
  rejectIf (start.paymentEdge ≠ channel.funding.channel.paymentEdge) (.wrongChannel "close start payment_edge")
  rejectIf (start.terms.hash ≠ channel.funding.channel.paymentTermsHash) (.wrongChannel "close start payment_terms_hash")
  rejectIf (start.openerRole ≠ openerRole channel.role) (.wrongChannel "close start opener_role")
  rejectIf (start.certificate ≠ certificate) (.wrongChannel "close start certificate")

def applyClosePrepared (channel : Channel) (start : PaymentCloseStart) :
    Except ChannelStateError (Channel × Applied) :=
  if channel.funding.closePrepared = some start then .ok (channel, .redundant)
  else do
    rejectIf (channel.funding.closeOpened ≠ none ∨ channel.funding.closeSettled ≠ none) (.closing "signing a close start")
    channel.refuseOpenJob "signing a close start"
    channel.checkCloseStart start
    rejectIf (channel.includableCloseStart channel.funding.cursor.1 ≠ none) (.conflict "a close start that can still be included")
    pure (channel.onFunding { channel.funding with closePrepared := some start })

end Crypto

section Jobs

variable [Xet] [Invocations] (verifier : SigVerifier)

def checkAuthorization (channel : Channel) (authorization : PaidJobAuthorizationV2)
    (preparedInput : List UInt8) (replaying : Bool) : Except ChannelStateError Unit := do
  rejectIf (authorization.channelId ≠ channel.funding.channel.id) (.wrongChannel "channel_id")
  if replaying then rejectIf (preparedInput ≠ []) .malformed
  else (Invocations.checkInput channel.funding.channel authorization preparedInput).mapError .record

def checkResultPayload (channel : Channel) (job : PaidJob) (result : PaidJobResultV1)
    (transcript : List UInt8) (replaying : Bool) : Except ChannelStateError Unit := do
  rejectIf (result.workId ≠ job.workId) (.wrongChannel "result work_id")
  if replaying then rejectIf (transcript ≠ []) .malformed
  else do
    let rebuilt ← (Invocations.terminalResult channel.funding.channel job.authorization
      job.preparedInput transcript).mapError .record
    rejectIf (rebuilt ≠ result) (.wrongChannel "result against its transcript")

def signedBy (signature : Sig) (key : Key) (hash : PayloadHash) (slot party : String) :
    Except ChannelStateError Unit :=
  rejectIf (verifier.verifySig signature key hash = false) (.badSignature slot party)

def reservedPrices (jobs : List PaidJob) : UInt64 := jobs.foldl (fun sum job => saturatingAdd sum job.authorization.price) 0

def checkCreditLimit (ledger : String) (limit reserved price : UInt64) :
    Except ChannelStateError Unit :=
  rejectIf (limit < saturatingAdd reserved price) (.overCredit ledger 0 reserved price limit)

def checkComputeLimit (channel : Channel) (price : UInt64) : Except ChannelStateError Unit :=
  checkCreditLimit "compute" channel.funding.channel.channelPolicy.computeCreditLimit (reservedPrices channel.book.jobs.values) price

def checkDeliveryLimit (channel : Channel) (price : UInt64) : Except ChannelStateError Unit :=
  checkCreditLimit "delivery" channel.funding.channel.channelPolicy.deliveryCreditLimit
    (reservedPrices (channel.book.jobs.values.filter fun job => job.phase.released)) price

-- Compute credit is the provider's exposure alone.
def checkComputeOf (channel : Channel) (price : UInt64) : Except ChannelStateError Unit :=
  if channel.role = .provider then channel.checkComputeLimit price else .ok ()

def applyProposed (channel : Channel) (authorization : PaidJobAuthorizationV2)
    (clientSignature : Sig) (preparedInput : List UInt8) (metadataOnly : Bool) :
    Except ChannelStateError (Channel × Applied) :=
  let work := workId channel.funding.channel authorization
  match channel.book.jobs.lookup work with
  | some job =>
    if job.authorization = authorization ∧ job.clientSignature = clientSignature ∧
        job.preparedInput = preparedInput then
      .ok (channel, .redundant)
    else .error (.wrongPhase "proposing a job" job.phase.name)
  | none => do
    channel.book.refuseIfTerminated work "proposing a job"
    channel.refuseIfClosing "proposing a job"
    channel.checkAuthorization authorization preparedInput metadataOnly
    rejectIf (authorization.proposalNonce ≤ channel.book.proposalNonceHighWater) (.wrongChannel "proposal_nonce")
    signedBy verifier clientSignature channel.funding.channel.clientKey (signingHash work) "authorization" "the client"
    channel.checkComputeOf authorization.price
    channel.onBook (channel.book.propose ⟨authorization,work,preparedInput,clientSignature,none,.halfSigned,none,[]⟩ channel.role)

def applyAccepted (channel : Channel) (work : Digest) (providerSignature : Sig) :
    Except ChannelStateError (Channel × Applied) := do
  let job ← channel.book.openJob work "co-signing a job"
  if job.providerSignature = some providerSignature then pure (channel, .redundant)
  else do
    rejectIf (job.phase ≠ .halfSigned) (.wrongPhase "co-signing a job" job.phase.name)
    let height := channel.funding.cursor.1
    rejectIf (channel.role = .provider ∧ job.authorization.acceptanceDeadline < height)
      (.acceptanceLate ⟨height.toNat,"finalized height"⟩ ⟨job.authorization.acceptanceDeadline.toNat,"finalized height"⟩)
    signedBy verifier providerSignature channel.funding.channel.providerKey (signingHash job.workId) "authorization" "the provider"
    channel.onBook (channel.book.accept work providerSignature height.toNat channel.role)

def applyRunning (channel : Channel) (work : Digest) : Except ChannelStateError (Channel × Applied) := do
  channel.requireRole "a running marker" .provider
  channel.onBook (channel.book.run work channel.funding.cursor.1.toNat)

-- The provider records a result for an invocation it marked; the client never sees that marker.
def resultPhase (role : Role) (phase : JobPhase) : Bool :=
  match role with
  | .provider => phase = .running || phase = .streaming
  | .client => phase = .accepted

-- A result already held is offered again, or brings back the transcript a restart dropped.
def repeatResult (channel : Channel) (job : PaidJob) (held : PaidJobResultV1 × Sig) (work : Digest)
    (result : PaidJobResultV1) (providerSignature : Sig) (transcript : List UInt8)
    (metadataOnly : Bool) : Except ChannelStateError (Channel × Applied) :=
  if held = (result, providerSignature) ∧ job.transcript = transcript then .ok (channel, .redundant)
  else if channel.role = .client ∧ metadataOnly = false ∧ held = (result, providerSignature) ∧
      job.transcript = [] then do
    channel.checkResultPayload job result transcript false
    pure ({ channel with book := channel.book.put work { job with transcript := transcript } }, .changed)
  else .error (.conflict "this job's result")

def applyResult (channel : Channel) (work : Digest) (result : PaidJobResultV1)
    (providerSignature : Sig) (transcript : List UInt8) (metadataOnly : Bool) :
    Except ChannelStateError (Channel × Applied) := do
  let job ← channel.book.openJob work "recording a result"
  match job.result with
  | some held => channel.repeatResult job held work result providerSignature transcript metadataOnly
  | none => do
    rejectIf (work ∈ channel.book.indeterminate) .indeterminate
    rejectIf (resultPhase channel.role job.phase = false) (.wrongPhase "recording a result" job.phase.name)
    let height := channel.funding.cursor.1
    rejectIf (job.authorization.terminalDeadline < height) (.receiptLate height job.authorization.terminalDeadline)
    channel.checkResultPayload job result transcript metadataOnly
    signedBy verifier providerSignature channel.funding.channel.providerKey
      (signingHash (resultDigest channel.funding.channel result)) "result" "the provider"
    channel.onBook (channel.book.recordResult work result providerSignature transcript)

-- Replay keeps the prior decision without the bodies it was taken on.
def recheckResult (channel : Channel) (job : PaidJob) (result : PaidJobResultV1) (replaying : Bool) :
    Except ChannelStateError Unit :=
  if replaying then .ok () else channel.checkResultPayload job result job.transcript false

def applyVerified (channel : Channel) (work : Digest) (replaying : Bool) :
    Except ChannelStateError (Channel × Applied) := do
  channel.requireRole "recording a verified result" .client
  let job ← channel.book.openJob work "recording a verified result"
  let held ← okOr job.result (.wrongPhase "recording a verified result" job.phase.name)
  rejectIf (held.1.outcome ≠ .finished) (.wrongChannel "verified failed result")
  if job.phase = .verified then pure (channel, .redundant)
  else do
    channel.recheckResult job held.1 replaying
    channel.onBook (channel.book.markVerified work)

def applyPlaintext (channel : Channel) (work : Digest) :
    Except ChannelStateError (Channel × Applied) := do
  channel.requireRole "releasing plaintext" .provider
  let job ← channel.book.openJob work "releasing plaintext"
  if job.phase.released then pure (channel, .redundant)
  else do
    rejectIf (job.phase ≠ .ready ∧ job.phase ≠ .running) (.wrongPhase "releasing plaintext" job.phase.name)
    channel.checkDeliveryLimit job.authorization.price
    channel.onBook (channel.book.release work)

def payablePhase : Role → JobPhase
  | .provider => .delivered
  | .client => .verified

-- A client pays by the height it signed to pay by.
def checkPaymentHeight (channel : Channel) (deadline : UInt64) : Except ChannelStateError Unit :=
  rejectIf (channel.role = .client ∧ deadline < channel.funding.cursor.1) (.paymentLate channel.funding.cursor.1 deadline)

def rest (channel : Channel) (job : PaidJob) (outcome : TerminalOutcome) : PaidBook := channel.book.restAt ⟨job.workId,job.phase,outcome⟩

def terminateCertified (channel : Channel) (job : PaidJob) (signedResult : PaidJobResultV1 × Sig)
    (certificate : EarnedCertificate) (binding : PaymentBindingV1)
    (bindingSignature certificateSignature : Sig) : Except ChannelStateError (Channel × Applied) := do
  rejectIf (job.phase ≠ payablePhase channel.role) (.wrongPhase "crediting a payment" job.phase.name)
  let held ← okOr job.result (.wrongPhase "crediting a payment" job.phase.name)
  rejectIf (signedResult ≠ held) (.wrongChannel "certified receipt")
  channel.checkPaymentHeight job.authorization.paymentDeadline
  signedBy verifier bindingSignature channel.funding.channel.clientKey
    (signingHash (paymentBindingDigest channel.funding.channel binding)) "binding" "the client"
  signedBy verifier certificateSignature channel.funding.channel.clientKey
    (certificate.digest channel.funding.channel.network) "certificate" "the client"
  let ledger ← (channel.ledger.creditPayment channel.funding.channel job.authorization held.1 binding
    certificate channel.funding.settlement).mapError .record
  pure ({ channel with
    ledger := ledger
    book := channel.rest job (.certified signedResult certificate binding bindingSignature certificateSignature) }, .changed)

def applyRejected (channel : Channel) (job : PaidJob) (named evidence : Digest) :
    Except ChannelStateError (Channel × Applied) := do
  channel.requireRole "refuting a result" .client
  rejectIf (job.phase ≠ .ready) (.wrongPhase "refuting a result" job.phase.name)
  let held ← okOr job.result (.wrongPhase "refuting a result" job.phase.name)
  rejectIf (named ≠ resultDigest channel.funding.channel held.1) (.wrongChannel "rejected result_digest")
  pure ({ channel with book := channel.rest job (.rejected named evidence) }, .changed)

def endJob (channel : Channel) (job : PaidJob) (outcome : TerminalOutcome) :
    Except ChannelStateError (Channel × Applied) :=
  match outcome with
  | .certified signedResult certificate binding bindingSignature certificateSignature =>
    channel.terminateCertified verifier job signedResult certificate binding bindingSignature certificateSignature
  | .rejected named evidence => channel.applyRejected job named evidence
  | _ => .ok ({ channel with book := channel.rest job outcome }, .changed)

def applyTerminated (channel : Channel) (work : Digest) (outcome : TerminalOutcome) :
    Except ChannelStateError (Channel × Applied) :=
  match channel.book.terminals.lookup work with
  | some held =>
    if held.outcome = outcome then .ok (channel, .redundant)
    else .error (.terminated "terminating the job" (JobOutcome.name held.outcome))
  | none => do
    rejectIf (outcome.isCertified = true ∧ channel.book.jobs.lookup work = none) (.wrongChannel "binding work_id")
    let job ← channel.book.openJob work "terminating the job"
    channel.endJob verifier job outcome

def apply (channel : Channel) (record : ChannelRecord) (metadataOnly : Bool) :
    Except ChannelStateError (Channel × Applied) :=
  match record with
  | .originObserved => .ok channel.applyOriginObserved
  | .proposalExchange work pending => do
    channel.requireRole "recording proposal exchange" .client
    channel.onBook (channel.book.proposalExchange work pending)
  | .cursorAdvanced height parent payload => channel.applyCursor height parent payload
  | .jobProposed authorization clientSignature preparedInput =>
    channel.applyProposed verifier authorization clientSignature preparedInput metadataOnly
  | .jobAccepted work providerSignature => channel.applyAccepted verifier work providerSignature
  | .jobRunning work => channel.applyRunning work
  | .jobResult work result providerSignature transcript =>
    channel.applyResult verifier work result providerSignature transcript metadataOnly
  | .plaintextReleased work => channel.applyPlaintext work
  | .resultVerified work => channel.applyVerified work metadataOnly
  | .jobTerminated work outcome => channel.applyTerminated verifier work outcome
  | .closeHistoryAdvanced parent history => channel.applyCloseHistory parent history
  | .closePrepared start => channel.applyClosePrepared start
  | .closeOpened contest => channel.applyCloseOpened contest
  | .closeResponded answer => channel.applyCloseResponded answer
  | .closeSettled settlement => channel.applyCloseSettled settlement

end Jobs

end Channel

end Hellas.Work
