import Hellas.Lib.Retry
import Hellas.Work.Reached

-- Reading one finalized block: everything the block means is committed before the cursor that says
-- it was read.

namespace Hellas.Work

open Authority (Digest)
open Guard Kernel Retry Words

structure FinalizedWork where
  height : UInt64
  parent : FixedBytes 32
  payload : FixedBytes 32
  txs : List Tx
  deriving DecidableEq

inductive WorkStoreError where
  | channel (reason : ChannelStateError)
  | checkpointTooLarge (length : Nat)

-- The bytes of a checkpoint, which the codec writes and only its bound is asked for here.
class Checkpoints where
  length : Channel → Nat
  jobTailBytes : Nat

def maxCheckpointBytes : Nat := 4 * 2^20

-- What a record may still add to a checkpoint; none where its width is not this endpoint's choice.
def ChannelRecord.checkpointTail [Checkpoints] : ChannelRecord → Option Nat
  | .jobProposed .. => some Checkpoints.jobTailBytes
  | .proposalExchange .. | .jobAccepted .. | .jobResult .. | .jobTerminated .. |
    .closePrepared _ | .closeResponded _ => some 0
  | _ => none

namespace Channel

def payment (channel : Channel) (work : Digest) : Option PaidCertificate := (channel.book.terminals.lookup work).bind paymentFromTerminal

def unanswered (phase : JobPhase) : Bool := phase = .halfSigned || phase = .accepted || phase = .running || phase = .streaming

-- The deadline a job has crossed at this height, if it can no longer be paid for.
def crossed (channel : Channel) (height : UInt64) (job : PaidJob) : Option UInt64 :=
  let terms := job.authorization
  match channel.role with
  | .provider =>
    if terms.paymentDeadline < height then some terms.paymentDeadline
    else if terms.terminalDeadline < height ∧ job.result = none then some terms.terminalDeadline
    else if terms.acceptanceDeadline < height ∧ job.phase = .halfSigned then
      some terms.acceptanceDeadline
    else none
  | .client =>
    if terms.terminalDeadline < height ∧ job.result = none ∧ unanswered job.phase = true then
      some terms.terminalDeadline
    else if terms.acceptanceDeadline < height ∧ job.phase = .halfSigned ∧
        job.preparedInput = [] then
      some terms.acceptanceDeadline
    else if terms.paymentDeadline < height ∧ job.result ≠ none ∧
        channel.payment job.workId = none then
      some terms.paymentDeadline
    else none

def expiryAt (channel : Channel) (height : UInt64) (payload : FixedBytes 32) :
    List (Digest × TerminalOutcome) :=
  channel.book.jobs.values.filterMap fun job =>
    (channel.crossed height job).map fun deadline => (job.workId, .expired deadline height payload)

end Channel

-- What the block says of a start on this channel's edge, as the kernel fixed it.
def openedBy [Xet] (channel : PaidChannel) (height : UInt64) (start : PaymentCloseStart) :
    OpenContest where
  startId := startIdOf (start.digest channel.network) height
  opener := start.openerRole
  responseDeadline := saturatingAdd height channel.paymentTerms.omitResponseBlocks
  claimed := match start.certificate with
    | some (certificate, _) => certificate.earnedCumulative
    | none => 0

def providerPayout (channel : PaidChannel) (outputs : Payouts) : UInt64 :=
  match outputs.items.find? fun payout =>
    payout.owner = channel.paymentTerms.parties.taker.owner with
  | some payout => payout.value
  | none => 0

-- A start is only accepted as the contest that is already recorded.
def acceptedStart [Xet] (channel : PaidChannel) (height : UInt64) (contest : OpenContest)
    (pending : Option PendingPaymentClose) (start : PaymentCloseStart) :
    Except ChannelStateError PendingPaymentClose := do
  rejectIf (pending ≠ none ∨ start.terms.hash ≠ channel.paymentTermsHash) .malformed
  let opened ← okOr (PendingPaymentClose.fromAcceptedStart channel.network height start) .malformed
  rejectIf (opened.startId ≠ contest.startId ∨ opened.openerRole ≠ contest.opener ∨
    opened.responseDeadline ≠ contest.responseDeadline ∨ opened.startCumulative ≠ contest.claimed)
    .malformed
  pure opened

def acceptedResponse (height : UInt64) (pending : Option PendingPaymentClose)
    (response : PaymentCloseResponse) : Except ChannelStateError PendingPaymentClose := do
  let opened ← okOr pending .malformed
  rejectIf (opened.startId ≠ response.startId ∨ opened.responded = true ∨ opened.responseDeadline ≤ height) .malformed
  pure (opened.withAcceptedResponse response)

def contestAfterTx [Xet] (channel : PaidChannel) (height : UInt64) (contest : OpenContest)
    (pending : Option PendingPaymentClose) (tx : Tx) :
    Except ChannelStateError (Option PendingPaymentClose) :=
  match tx with
  | .move (.startPaymentClose start) =>
    if start.paymentEdge = channel.paymentEdge then
      some <$> acceptedStart channel height contest pending start
    else .ok pending
  | .move (.respondPaymentClose response) =>
    if response.paymentEdge = channel.paymentEdge then
      some <$> acceptedResponse height pending response
    else .ok pending
  | .closeEdge input _ _ =>
    if input = channel.paymentEdge then .error .malformed else .ok pending
  | _ => .ok pending

def contestAfterBlock [Xet] (channel : PaidChannel) (previous : Option PendingPaymentClose)
    (block : FinalizedWork) (contest : OpenContest) :
    Except ChannelStateError PendingPaymentClose := do
  let pending ← block.txs.foldlM (contestAfterTx channel block.height contest) previous
  okOr pending .malformed

abbrev Step := Task Channel WorkStoreError

section Watching

variable [Xet] [Invocations] [Checkpoints] (verifier : SigVerifier)

-- A record the state already holds is not written again.
def commit (record : ChannelRecord) : Step := fun channel =>
  match channel.apply verifier record false with
  | .error refused => ⟨[],some (.channel refused)⟩
  | .ok (_, .redundant) => ⟨[],none⟩
  | .ok (next, .changed) =>
    match record.checkpointTail with
    | none => ⟨[next],none⟩
    | some tail =>
      if maxCheckpointBytes < Checkpoints.length next + tail then
        ⟨[],some (.checkpointTooLarge (Checkpoints.length next + tail))⟩
      else ⟨[next],none⟩

def endEach (ends : List (Digest × TerminalOutcome)) : Step := all (ends.map fun ended => commit verifier (.jobTerminated ended.1 ended.2))

def expire (block : FinalizedWork) : Step := fun channel => endEach verifier (channel.expiryAt block.height block.payload) channel

-- No job survives a contest or a close on its edge.
def cutoff (block : FinalizedWork) : Step := fun channel =>
  endEach verifier (channel.book.jobs.values.map fun job =>
    (job.workId, .expired job.authorization.paymentDeadline block.height block.payload)) channel

def applyTx (block : FinalizedWork) (tx : Tx) : Step := fun channel =>
  match tx with
  | .move (.startPaymentClose start) =>
    if start.paymentEdge = channel.funding.channel.paymentEdge then
      andThen (cutoff verifier block) (commit verifier (.closeOpened (openedBy channel.funding.channel block.height start))) channel
    else nothing channel
  | .closeEdge input _ outputs =>
    if input = channel.funding.channel.paymentEdge then
      andThen (cutoff verifier block) (commit verifier (.closeSettled
        ⟨block.height,block.payload,providerPayout channel.funding.channel outputs⟩)) channel
    else nothing channel
  | _ => nothing channel

-- The one height the retained history of a contest may go on to.
def nextHistory (channel : Channel) (contest : OpenContest) : Option UInt64 :=
  match channel.funding.closeHistory with
  | some history => checkedAdd history.height 1
  | none => checkedSub contest.responseDeadline
      channel.funding.channel.paymentTerms.omitResponseBlocks

-- Each block of a contest is retained before the cursor passes it.
def retainHistory (block : FinalizedWork) : Step := fun channel =>
  match channel.funding.closeSettled, channel.funding.closeOpened with
  | none, some contest =>
    if block.height ≤ contest.responseDeadline ∧
        nextHistory channel contest = some block.height then
      match contestAfterBlock channel.funding.channel
        (channel.funding.closeHistory.map CloseHistory.pending) block contest with
      | .error refused => ⟨[],some (.channel refused)⟩
      | .ok pending => commit verifier (.closeHistoryAdvanced block.parent
          ⟨block.height,block.payload,pending⟩) channel
    else nothing channel
  | _, _ => nothing channel

def applyFinalizedTxs (block : FinalizedWork) : Step :=
  andThen (all (block.txs.map (applyTx verifier block))) (retainHistory verifier block)

def observe (block : FinalizedWork) : Step := fun channel =>
  match channel.reading block.height block.parent block.payload with
  | .error refused => ⟨[],some (.channel refused)⟩
  | .ok .redundant => nothing channel
  | .ok .changed =>
    andThen (andThen (expire verifier block) (applyFinalizedTxs verifier block))
      (commit verifier (.cursorAdvanced block.height block.parent block.payload)) channel

end Watching

end Hellas.Work
