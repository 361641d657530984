import Hellas.Work.State

-- Everything an accepted record can do to a channel, guards included.

namespace Hellas.Work

open Authority (Digest)
open Guard Kernel Words

namespace JobBook

section Moves

variable {α ρ σ τ : Type} [JobOutcome τ] {book : JobBook α ρ σ τ} {id : Digest}

theorem refuseIfTerminated_ok : book.refuseIfTerminated id step = .ok done ↔ book.terminals.lookup id = none := by
  unfold refuseIfTerminated
  cases book.terminals.lookup id <;> simp

theorem openJob_ok : book.openJob id step = .ok job ↔ book.jobs.lookup id = some job := by
  unfold openJob
  cases book.jobs.lookup id with
  | some held => simp
  | none => simp [refuseIfTerminated_ok]

end Moves

end JobBook

namespace Channel

variable [Xet] [Invocations] {verifier : SigVerifier} {channel after : Channel}
  {record : ChannelRecord} {metadataOnly : Bool}

omit [Xet] [Invocations] in
theorem refuseOpenJob_ok : channel.refuseOpenJob step = .ok done ↔ channel.book.jobs = ∅ := by
  unfold refuseOpenJob
  constructor
  · intro passed
    split at passed
    · cases passed
    · rename_i empty
      apply Finmap.ext_lookup
      intro key
      rw [Finmap.lookup_empty]
      cases found : channel.book.jobs.lookup key with
      | none => rfl
      | some job =>
        have listed : job ∈ channel.book.jobs.values := Slots.mem_values.mpr ⟨key,found⟩
        rw [empty] at listed
        cases listed
  · intro empty
    rw [empty]
    rfl

def proposal (channel : Channel) (authorization : PaidJobAuthorizationV2) (clientSignature : Sig) (preparedInput : List UInt8) : PaidJob :=
  ⟨authorization,workId channel.funding.channel authorization,preparedInput,clientSignature,none,.halfSigned,none,[]⟩

def proposed (channel : Channel) (job : PaidJob) : PaidBook :=
  { channel.book.put job.workId job with
    pendingProposal := if channel.role = .client then some job.workId else channel.book.pendingProposal
    proposalNonceHighWater := job.authorization.proposalNonce }

structure Proposes (verifier : SigVerifier) (channel : Channel) (metadataOnly : Bool)
    (authorization : PaidJobAuthorizationV2) (clientSignature : Sig) (preparedInput : List UInt8) :
    Prop where
  fresh : channel.book.jobs.lookup (workId channel.funding.channel authorization) = none
  unended : channel.book.terminals.lookup (workId channel.funding.channel authorization) = none
  standing : channel.isClosing = false
  authorized : channel.checkAuthorization authorization preparedInput metadataOnly = .ok ()
  nonce : channel.book.proposalNonceHighWater < authorization.proposalNonce
  signed : verifier.verifySig clientSignature channel.funding.channel.clientKey
    (signingHash (workId channel.funding.channel authorization)) = true
  compute : channel.role = .provider → channel.checkComputeLimit authorization.price = .ok ()
  answered : channel.role = .client → channel.book.pendingProposal = none

def countersigned (job : PaidJob) (signature : Sig) : PaidJob := { job with providerSignature := some signature, phase := .accepted }

def accepted (channel : Channel) (work : Digest) (job : PaidJob) : PaidBook :=
  { channel.book.put work job with pendingProposal := channel.book.answered work }

structure Accepts (verifier : SigVerifier) (channel : Channel) (work : Digest) (signature : Sig)
    (job : PaidJob) : Prop where
  held : channel.book.jobs.lookup work = some job
  unsigned : job.providerSignature ≠ some signature
  phase : job.phase = .halfSigned
  timely : channel.role = .provider → channel.funding.cursor.1 ≤ job.authorization.acceptanceDeadline
  signed : verifier.verifySig signature channel.funding.channel.providerKey
    (signingHash job.workId) = true

structure Records (verifier : SigVerifier) (channel : Channel) (metadataOnly : Bool) (work : Digest)
    (result : PaidJobResultV1) (signature : Sig) (transcript : List UInt8) (job : PaidJob) :
    Prop where
  held : channel.book.jobs.lookup work = some job
  unanswered : job.result = none
  known : work ∉ channel.book.indeterminate
  phase : resultPhase channel.role job.phase = true
  timely : channel.funding.cursor.1 ≤ job.authorization.terminalDeadline
  payload : channel.checkResultPayload job result transcript metadataOnly = .ok ()
  signed : verifier.verifySig signature channel.funding.channel.providerKey
    (signingHash (resultDigest channel.funding.channel result)) = true

def recorded (job : PaidJob) (result : PaidJobResultV1) (signature : Sig) (transcript : List UInt8) :
    PaidJob :=
  { job with
    result := some (result, signature)
    transcript := transcript
    phase := if job.phase = .streaming then .delivered else .ready }

def unsealed (job : PaidJob) : PaidJob := { job with phase := if job.phase = .running then .streaming else .delivered }

structure Certifies (verifier : SigVerifier) (channel : Channel) (work : Digest)
    (signedResult : PaidJobResultV1 × Sig) (certificate : EarnedCertificate)
    (binding : PaymentBindingV1) (bindingSignature certificateSignature : Sig) (job : PaidJob)
    (ledger : CreditLedger) : Prop where
  unended : channel.book.terminals.lookup work = none
  held : channel.book.jobs.lookup work = some job
  payable : job.phase = payablePhase channel.role
  receipt : job.result = some signedResult
  timely : channel.role = .client → channel.funding.cursor.1 ≤ job.authorization.paymentDeadline
  bound : verifier.verifySig bindingSignature channel.funding.channel.clientKey
    (signingHash (paymentBindingDigest channel.funding.channel binding)) = true
  certified : verifier.verifySig certificateSignature channel.funding.channel.clientKey
    (certificate.digest channel.funding.channel.network) = true
  credits : channel.ledger.Credits channel.funding.channel job.authorization signedResult.1 binding
    certificate channel.funding.settlement ledger

inductive Moved (verifier : SigVerifier) (channel : Channel) (metadataOnly : Bool) :
    ChannelRecord → Channel → Prop where
  | origin : channel.funding.originObserved = false →
      Moved verifier channel metadataOnly .originObserved
        { channel with funding := { channel.funding with originObserved := true } }
  | exchanged {work : Digest} {pending : Bool} {job : PaidJob} : channel.role = .client →
      channel.book.jobs.lookup work = some job → job.phase = .halfSigned →
      (∀ held ∈ channel.book.pendingProposal, held = work) →
      channel.book.pendingProposal ≠ (if pending then some work else none) →
      Moved verifier channel metadataOnly (.proposalExchange work pending)
        { channel with book := { channel.book with
          pendingProposal := if pending then some work else none } }
  | advanced {height : UInt64} {parent payload : FixedBytes 32} :
      (height, payload) ≠ channel.funding.cursor →
      height = saturatingAdd channel.funding.cursor.1 1 → parent = channel.funding.cursor.2 →
      Moved verifier channel metadataOnly (.cursorAdvanced height parent payload)
        { channel with funding := { channel.funding with cursor := (height, payload) } }
  | proposed {authorization : PaidJobAuthorizationV2} {signature : Sig} {input : List UInt8} :
      Proposes verifier channel metadataOnly authorization signature input →
      Moved verifier channel metadataOnly (.jobProposed authorization signature input)
        { channel with book := channel.proposed (channel.proposal authorization signature input) }
  | accepted {work : Digest} {signature : Sig} {job : PaidJob} :
      Accepts verifier channel work signature job →
      Moved verifier channel metadataOnly (.jobAccepted work signature)
        { channel with book := channel.accepted work (countersigned job signature) }
  | running {work : Digest} {job : PaidJob} : channel.role = .provider →
      channel.book.jobs.lookup work = some job → job.phase = .accepted →
      channel.funding.cursor.1 ≤ job.authorization.terminalDeadline →
      Moved verifier channel metadataOnly (.jobRunning work)
        { channel with book := channel.book.put work { job with phase := .running } }
  | recorded {work : Digest} {result : PaidJobResultV1} {signature : Sig} {transcript : List UInt8}
      {job : PaidJob} : Records verifier channel metadataOnly work result signature transcript job →
      Moved verifier channel metadataOnly (.jobResult work result signature transcript)
        { channel with book := channel.book.put work (recorded job result signature transcript) }
  | restored {work : Digest} {result : PaidJobResultV1} {signature : Sig} {transcript : List UInt8}
      {job : PaidJob} : channel.role = .client → metadataOnly = false →
      channel.book.jobs.lookup work = some job → job.result = some (result, signature) →
      job.transcript = [] → transcript ≠ [] →
      channel.checkResultPayload job result transcript false = .ok () →
      Moved verifier channel metadataOnly (.jobResult work result signature transcript)
        { channel with book := channel.book.put work { job with transcript := transcript } }
  | released {work : Digest} {job : PaidJob} : channel.role = .provider →
      channel.book.jobs.lookup work = some job → (job.phase = .running ∨ job.phase = .ready) →
      channel.checkDeliveryLimit job.authorization.price = .ok () →
      Moved verifier channel metadataOnly (.plaintextReleased work)
        { channel with book := channel.book.put work (unsealed job) }
  | verified {work : Digest} {job : PaidJob} {held : PaidJobResultV1 × Sig} : channel.role = .client →
      channel.book.jobs.lookup work = some job → job.phase = .ready → job.result = some held →
      held.1.outcome = .finished → channel.recheckResult job held.1 metadataOnly = .ok () →
      Moved verifier channel metadataOnly (.resultVerified work)
        { channel with book := channel.book.put work { job with phase := .verified } }
  | certified {work : Digest} {signedResult : PaidJobResultV1 × Sig} {certificate : EarnedCertificate}
      {binding : PaymentBindingV1} {bindingSignature certificateSignature : Sig} {job : PaidJob}
      {ledger : CreditLedger} :
      Certifies verifier channel work signedResult certificate binding bindingSignature
        certificateSignature job ledger →
      Moved verifier channel metadataOnly (.jobTerminated work
          (.certified signedResult certificate binding bindingSignature certificateSignature))
        { channel with
          ledger := ledger
          book := channel.rest job (.certified signedResult certificate binding bindingSignature
            certificateSignature) }
  | rejected {work named evidence : Digest} {job : PaidJob} {held : PaidJobResultV1 × Sig} :
      channel.book.terminals.lookup work = none → channel.role = .client →
      channel.book.jobs.lookup work = some job → job.phase = .ready → job.result = some held →
      named = resultDigest channel.funding.channel held.1 →
      Moved verifier channel metadataOnly (.jobTerminated work (.rejected named evidence))
        { channel with book := channel.rest job (.rejected named evidence) }
  | ended {work : Digest} {job : PaidJob} {outcome : TerminalOutcome} :
      channel.book.terminals.lookup work = none → channel.book.jobs.lookup work = some job →
      (∀ named evidence, outcome ≠ .rejected named evidence) → outcome.isCertified = false →
      Moved verifier channel metadataOnly (.jobTerminated work outcome)
        { channel with book := channel.rest job outcome }
  | history {parent : FixedBytes 32} {history : CloseHistory} :
      channel.checkCloseHistory history = .ok () → channel.funding.closeHistory ≠ some history →
      channel.followHistory parent history = .ok () →
      Moved verifier channel metadataOnly (.closeHistoryAdvanced parent history)
        { channel with funding := { channel.funding with closeHistory := some history } }
  | prepared {start : PaymentCloseStart} : channel.funding.closePrepared ≠ some start →
      channel.funding.closeOpened = none → channel.funding.closeSettled = none →
      channel.book.jobs = ∅ → channel.checkCloseStart start = .ok () →
      channel.includableCloseStart channel.funding.cursor.1 = none →
      Moved verifier channel metadataOnly (.closePrepared start)
        { channel with funding := { channel.funding with closePrepared := some start } }
  | opened {contest : OpenContest} : channel.funding.closeOpened = none →
      channel.funding.closeSettled = none → channel.book.jobs = ∅ →
      Moved verifier channel metadataOnly (.closeOpened contest)
        { channel with funding := { channel.funding with closeOpened := some contest } }
  | responded {answer : RespondedContest} {owed : OpenContest × EarnedCertificate × Sig} :
      channel.funding.closeResponded = none → channel.role = .provider →
      channel.funding.closeSettled = none → channel.answerableContest = some owed →
      owed.1.startId = answer.startId →
      answer.responseDigest =
        responseBodyDigest channel.funding.channel answer.startId owed.2.1 →
      Moved verifier channel metadataOnly (.closeResponded answer)
        { channel with funding := { channel.funding with closeResponded := some answer } }
  | settled {settlement : CloseSettlement} : channel.funding.closeSettled = none →
      channel.book.jobs = ∅ →
      Moved verifier channel metadataOnly (.closeSettled settlement)
        { channel with funding := { channel.funding with closeSettled := some settlement } }

-- What a channel holds when a record tells it nothing new.
inductive Held (channel : Channel) : ChannelRecord → Prop where
  | origin : channel.funding.originObserved = true → Held channel .originObserved
  | exchanged {work : Digest} {pending : Bool} {job : PaidJob} : channel.role = .client →
      channel.book.jobs.lookup work = some job → job.phase = .halfSigned →
      (∀ held ∈ channel.book.pendingProposal, held = work) →
      channel.book.pendingProposal = (if pending then some work else none) →
      Held channel (.proposalExchange work pending)
  | cursor {height : UInt64} {parent payload : FixedBytes 32} :
      (height, payload) = channel.funding.cursor →
      Held channel (.cursorAdvanced height parent payload)
  | proposed {authorization : PaidJobAuthorizationV2} {signature : Sig} {input : List UInt8}
      {job : PaidJob} :
      channel.book.jobs.lookup (workId channel.funding.channel authorization) = some job →
      job.authorization = authorization → job.clientSignature = signature →
      job.preparedInput = input → Held channel (.jobProposed authorization signature input)
  | accepted {work : Digest} {signature : Sig} {job : PaidJob} :
      channel.book.jobs.lookup work = some job → job.providerSignature = some signature →
      Held channel (.jobAccepted work signature)
  | running {work : Digest} {job : PaidJob} : channel.role = .provider →
      channel.book.jobs.lookup work = some job → (job.phase = .running ∨ job.phase = .streaming) →
      Held channel (.jobRunning work)
  | recorded {work : Digest} {result : PaidJobResultV1} {signature : Sig} {transcript : List UInt8}
      {job : PaidJob} : channel.book.jobs.lookup work = some job →
      job.result = some (result, signature) → job.transcript = transcript →
      Held channel (.jobResult work result signature transcript)
  | released {work : Digest} {job : PaidJob} : channel.role = .provider →
      channel.book.jobs.lookup work = some job → job.phase.released = true →
      Held channel (.plaintextReleased work)
  | verified {work : Digest} {job : PaidJob} {held : PaidJobResultV1 × Sig} :
      channel.role = .client → channel.book.jobs.lookup work = some job → job.phase = .verified →
      job.result = some held → held.1.outcome = .finished → Held channel (.resultVerified work)
  | terminated {work : Digest} {terminal : JobTerminal TerminalOutcome} :
      channel.book.terminals.lookup work = some terminal →
      Held channel (.jobTerminated work terminal.outcome)
  | history {parent : FixedBytes 32} {history : CloseHistory} :
      channel.checkCloseHistory history = .ok () → channel.funding.closeHistory = some history →
      Held channel (.closeHistoryAdvanced parent history)
  | prepared {start : PaymentCloseStart} : channel.funding.closePrepared = some start →
      Held channel (.closePrepared start)
  | opened {contest : OpenContest} : channel.funding.closeOpened = some contest →
      Held channel (.closeOpened contest)
  | responded {answer : RespondedContest} : channel.funding.closeResponded = some answer →
      Held channel (.closeResponded answer)
  | settled {settlement : CloseSettlement} : channel.funding.closeSettled = some settlement →
      Held channel (.closeSettled settlement)

-- An accepted record is held already, or moves the channel.
inductive Outcome (verifier : SigVerifier) (channel : Channel) (metadataOnly : Bool)
    (record : ChannelRecord) : Channel × Applied → Prop where
  | redundant : Held channel record →
      Outcome verifier channel metadataOnly record (channel, .redundant)
  | changed {after : Channel} : Moved verifier channel metadataOnly record after →
      Outcome verifier channel metadataOnly record (after, .changed)

variable {done : Channel × Applied}

omit [Xet] [Invocations] in
theorem onBook_ok {step : Except ChannelStateError (PaidBook × Applied)} :
    channel.onBook step = .ok done ↔ ∃ moved, step = .ok moved ∧ ({ channel with book := moved.1 }, moved.2) = done := by
  simp only [onBook,bind_ok,pure_ok]

variable {signature : Sig} {work : Digest} {outcome : TerminalOutcome}

omit [Xet] [Invocations] in
theorem signedBy_ok {key : Key} {hash : PayloadHash} {slot party : String} {passed : Unit} :
    signedBy verifier signature key hash slot party = .ok passed ↔ verifier.verifySig signature key hash = true := by
  simp only [signedBy,rejectIf_ok,Bool.not_eq_false]

theorem applyCursor_outcome (accepted : channel.applyCursor height parent payload = .ok done) :
    Outcome verifier channel metadataOnly (.cursorAdvanced height parent payload) done := by
  simp only [applyCursor,bind_ok] at accepted
  obtain ⟨read,reads,moves⟩ := accepted
  unfold reading at reads
  dsimp only at reads
  split at reads
  · rename_i same
    cases reads
    cases moves
    exact .redundant (.cursor same)
  · rename_i other
    simp only [bind_ok,rejectIf_ok,not_not,pure_ok] at reads
    obtain ⟨_,next,_,contiguous,rfl⟩ := reads
    cases moves
    exact .changed (.advanced other next contiguous)

theorem applyProposed_outcome {authorization : PaidJobAuthorizationV2}
    (accepted : channel.applyProposed verifier authorization signature input metadataOnly = .ok done) :
    Outcome verifier channel metadataOnly (.jobProposed authorization signature input) done := by
  unfold applyProposed at accepted
  dsimp only at accepted
  split at accepted
  · rename_i job held
    split at accepted
    · rename_i same
      obtain ⟨terms,signed,input⟩ := same
      cases accepted
      exact .redundant (.proposed held terms signed input)
    · cases accepted
  · rename_i fresh
    simp only [bind_ok,JobBook.refuseIfTerminated_ok,refuseIfClosing,rejectIf_ok,signedBy_ok,
      Bool.not_eq_true,UInt64.not_le,onBook_ok] at accepted
    obtain ⟨_,unended,_,standing,_,authorized,_,nonce,_,signed,_,compute,moved,placed,rfl⟩ := accepted
    unfold JobBook.propose at placed
    rw [fresh] at placed
    simp only [bind_ok,JobBook.refuseIfTerminated_ok,rejectIf_ok,pure_ok,not_and,not_not] at placed
    obtain ⟨_,-,_,-,_,answered,rfl⟩ := placed
    refine .changed (.proposed ⟨fresh,unended,standing,authorized,nonce,signed,?_,answered⟩)
    intro provider
    rw [checkComputeOf,if_pos provider] at compute
    exact compute

theorem applyAccepted_outcome (accepted : channel.applyAccepted verifier work signature = .ok done) :
    Outcome verifier channel metadataOnly (.jobAccepted work signature) done := by
  simp only [applyAccepted,bind_ok,JobBook.openJob_ok] at accepted
  obtain ⟨job,held,rest⟩ := accepted
  split at rest
  · rename_i signed
    cases rest
    exact .redundant (.accepted held signed)
  · rename_i unsigned
    simp only [bind_ok,rejectIf_ok,not_not,not_and,UInt64.not_lt,signedBy_ok,onBook_ok] at rest
    obtain ⟨_,phase,_,timely,_,signed,moved,placed,rfl⟩ := rest
    simp only [JobBook.accept,bind_ok,JobBook.openJob_ok] at placed
    obtain ⟨again,found,placed⟩ := placed
    cases held.symm.trans found
    rw [if_neg unsigned] at placed
    simp only [bind_ok,rejectIf_ok,pure_ok] at placed
    obtain ⟨_,-,_,-,rfl⟩ := placed
    exact .changed (.accepted ⟨held,unsigned,phase,timely,signed⟩)

theorem applyRunning_outcome (accepted : channel.applyRunning work = .ok done) :
    Outcome verifier channel metadataOnly (.jobRunning work) done := by
  simp only [applyRunning,requireRole,bind_ok,rejectIf_ok,not_not,onBook_ok,JobBook.run,JobBook.openJob_ok] at accepted
  obtain ⟨_,provider,moved,⟨job,held,placed⟩,rfl⟩ := accepted
  split at placed
  · rename_i started
    cases placed
    exact .redundant (.running provider held started)
  · simp only [bind_ok,rejectIf_ok,not_not,not_lt,pure_ok] at placed
    obtain ⟨_,phase,_,timely,rfl⟩ := placed
    exact .changed (.running provider held phase (UInt64.le_iff_toNat_le.mpr timely))

theorem applyResult_outcome {result : PaidJobResultV1}
    (accepted : channel.applyResult verifier work result signature transcript metadataOnly = .ok done) :
    Outcome verifier channel metadataOnly (.jobResult work result signature transcript) done := by
  simp only [applyResult,bind_ok,JobBook.openJob_ok] at accepted
  obtain ⟨job,held,rest⟩ := accepted
  split at rest
  · rename_i answer answered
    unfold repeatResult at rest
    split at rest
    · rename_i same
      obtain ⟨rfl,transcript⟩ := same
      cases rest
      exact .redundant (.recorded held answered transcript)
    · rename_i different
      split at rest
      · rename_i dropped
        obtain ⟨client,live,same,empty⟩ := dropped
        simp only [bind_ok,pure_ok] at rest
        obtain ⟨_,payload,rfl⟩ := rest
        subst same
        refine .changed (.restored client live held answered empty ?_ payload)
        intro blank
        exact different ⟨rfl,empty.trans blank.symm⟩
      · cases rest
  · rename_i unanswered
    simp only [bind_ok,rejectIf_ok,UInt64.not_lt,signedBy_ok,Bool.not_eq_false,onBook_ok,
      JobBook.recordResult,JobBook.openJob_ok,pure_ok] at rest
    obtain ⟨_,known,_,phase,_,timely,_,payload,_,signed,moved,⟨_,-,again,found,_,-,rfl⟩,rfl⟩ := rest
    cases held.symm.trans found
    exact .changed (.recorded ⟨held,unanswered,known,phase,timely,payload,signed⟩)

theorem applyPlaintext_outcome (accepted : channel.applyPlaintext work = .ok done) :
    Outcome verifier channel metadataOnly (.plaintextReleased work) done := by
  simp only [applyPlaintext,requireRole,bind_ok,rejectIf_ok,not_not,JobBook.openJob_ok] at accepted
  obtain ⟨_,provider,job,held,rest⟩ := accepted
  split at rest
  · rename_i out
    cases rest
    exact .redundant (.released provider held out)
  · rename_i kept
    simp only [bind_ok,rejectIf_ok,not_and,not_not,onBook_ok,JobBook.release,JobBook.openJob_ok] at rest
    obtain ⟨_,phase,_,credit,moved,⟨again,found,placed⟩,rfl⟩ := rest
    cases held.symm.trans found
    rw [if_neg kept] at placed
    simp only [bind_ok,rejectIf_ok,pure_ok] at placed
    obtain ⟨_,-,rfl⟩ := placed
    refine .changed (.released provider held ?_ credit)
    by_cases ready : job.phase = .ready
    · exact .inr ready
    · exact .inl (phase ready)

theorem applyVerified_outcome (accepted : channel.applyVerified work metadataOnly = .ok done) :
    Outcome verifier channel metadataOnly (.resultVerified work) done := by
  simp only [applyVerified,requireRole,bind_ok,rejectIf_ok,not_not,JobBook.openJob_ok,okOr_ok] at accepted
  obtain ⟨_,client,job,held,answer,answered,_,finished,rest⟩ := accepted
  split at rest
  · rename_i verified
    cases rest
    exact .redundant (.verified client held verified answered finished)
  · rename_i unverified
    simp only [bind_ok,onBook_ok,JobBook.markVerified,JobBook.openJob_ok] at rest
    obtain ⟨_,rechecked,moved,⟨again,found,placed⟩,rfl⟩ := rest
    cases held.symm.trans found
    rw [if_neg unverified] at placed
    simp only [bind_ok,rejectIf_ok,not_not,pure_ok] at placed
    obtain ⟨_,ready,rfl⟩ := placed
    exact .changed (.verified client held ready answered finished rechecked)

theorem endJob_outcome {job : PaidJob} (unended : channel.book.terminals.lookup work = none)
    (held : channel.book.jobs.lookup work = some job) (accepted : channel.endJob verifier job outcome = .ok done) :
    Outcome verifier channel metadataOnly (.jobTerminated work outcome) done := by
  unfold endJob at accepted
  split at accepted
  · simp only [terminateCertified,checkPaymentHeight,bind_ok,rejectIf_ok,not_not,okOr_ok,
      not_and,UInt64.not_lt,signedBy_ok,mapError_ok,CreditLedger.creditPayment_ok,
      pure_ok] at accepted
    obtain ⟨_,payable,receipt,answered,_,rfl,_,timely,_,bound,_,certified,ledger,credits,rfl⟩ := accepted
    exact .changed (.certified ⟨unended,held,payable,answered,timely,bound,certified,credits⟩)
  · simp only [applyRejected,requireRole,bind_ok,rejectIf_ok,not_not,okOr_ok,pure_ok] at accepted
    obtain ⟨_,client,_,ready,answer,answered,_,named,rfl⟩ := accepted
    exact .changed (.rejected unended client held ready answered named)
  · rename_i uncertified unrejected
    cases accepted
    refine .changed (.ended unended held ?_ ?_)
    · intro named evidence same
      exact unrejected named evidence same
    · cases outcome with
      | certified signedResult certificate binding bindingSignature certificateSignature =>
        exact absurd rfl (uncertified signedResult certificate binding bindingSignature certificateSignature)
      | _ => rfl

theorem applyTerminated_outcome (accepted : channel.applyTerminated verifier work outcome = .ok done) :
    Outcome verifier channel metadataOnly (.jobTerminated work outcome) done := by
  unfold applyTerminated at accepted
  split at accepted
  · rename_i terminal ended
    split at accepted
    · rename_i same
      cases accepted
      rw [← same]
      exact .redundant (.terminated ended)
    · cases accepted
  · rename_i unended
    simp only [bind_ok,JobBook.openJob_ok] at accepted
    obtain ⟨_,-,job,held,ends⟩ := accepted
    exact endJob_outcome unended held ends

theorem applyClose_outcome (accepted : channel.apply verifier record metadataOnly = .ok done)
    (closes : match record with
      | .closeHistoryAdvanced .. | .closePrepared _ | .closeOpened _ | .closeResponded _
      | .closeSettled _ => True
      | _ => False) : Outcome verifier channel metadataOnly record done := by
  cases record with
  | closeHistoryAdvanced parent history =>
    simp only [apply,applyCloseHistory,bind_ok] at accepted
    obtain ⟨_,fits,rest⟩ := accepted
    split at rest
    · rename_i same
      cases rest
      exact .redundant (.history fits same)
    · rename_i other
      simp only [bind_ok,pure_ok] at rest
      obtain ⟨_,follows,rfl⟩ := rest
      exact .changed (.history fits other follows)
  | closePrepared start =>
    simp only [apply,applyClosePrepared] at accepted
    split at accepted
    · rename_i same
      cases accepted
      exact .redundant (.prepared same)
    · rename_i other
      simp only [bind_ok,rejectIf_ok,not_or,not_not,refuseOpenJob_ok,pure_ok] at accepted
      obtain ⟨_,⟨unopened,unsettled⟩,_,idle,_,checked,_,lapsed,rfl⟩ := accepted
      exact .changed (.prepared other unopened unsettled idle checked lapsed)
  | closeOpened contest =>
    simp only [apply,applyCloseOpened] at accepted
    split at accepted
    · rename_i same
      cases accepted
      exact .redundant (.opened same)
    · simp only [bind_ok,rejectIf_ok,not_not,refuseOpenJob_ok,pure_ok] at accepted
      obtain ⟨_,unsettled,_,unopened,_,idle,rfl⟩ := accepted
      exact .changed (.opened unopened unsettled idle)
  | closeResponded answer =>
    simp only [apply,applyCloseResponded] at accepted
    split at accepted
    · rename_i same
      cases accepted
      exact .redundant (.responded same)
    · simp only [requireRole,bind_ok,rejectIf_ok,not_not,okOr_ok,pure_ok] at accepted
      obtain ⟨_,unanswered,_,provider,_,unsettled,owed,owes,_,same,_,digest,rfl⟩ := accepted
      exact .changed (.responded unanswered provider unsettled owes same digest)
  | closeSettled settlement =>
    simp only [apply,applyCloseSettled] at accepted
    split at accepted
    · rename_i same
      cases accepted
      exact .redundant (.settled same)
    · simp only [bind_ok,rejectIf_ok,not_not,refuseOpenJob_ok,pure_ok] at accepted
      obtain ⟨_,unsettled,_,idle,rfl⟩ := accepted
      exact .changed (.settled unsettled idle)
  | _ => exact closes.elim

theorem apply_outcome (accepted : channel.apply verifier record metadataOnly = .ok done) :
    Outcome verifier channel metadataOnly record done := by
  cases record with
  | originObserved =>
    simp only [apply,applyOriginObserved] at accepted
    split at accepted
    · rename_i observed
      cases accepted
      exact .redundant (.origin observed)
    · rename_i unobserved
      cases accepted
      exact .changed (.origin (Bool.not_eq_true _ ▸ unobserved))
  | proposalExchange work pending =>
    simp only [apply,requireRole,bind_ok,rejectIf_ok,not_not,onBook_ok,JobBook.proposalExchange,
      JobBook.openJob_ok,not_exists,not_and] at accepted
    obtain ⟨_,client,moved,⟨job,held,_,phase,_,same,placed⟩,rfl⟩ := accepted
    by_cases other : channel.book.pendingProposal = if pending then some work else none
    · rw [if_pos other] at placed
      cases placed
      exact .redundant (.exchanged client held phase same other)
    · rw [if_neg other] at placed
      cases placed
      exact .changed (.exchanged client held phase same other)
  | cursorAdvanced height parent payload => exact applyCursor_outcome accepted
  | jobProposed authorization signature input => exact applyProposed_outcome accepted
  | jobAccepted work signature => exact applyAccepted_outcome accepted
  | jobRunning work => exact applyRunning_outcome accepted
  | jobResult work result signature transcript => exact applyResult_outcome accepted
  | plaintextReleased work => exact applyPlaintext_outcome accepted
  | resultVerified work => exact applyVerified_outcome accepted
  | jobTerminated work outcome => exact applyTerminated_outcome accepted
  | closeHistoryAdvanced | closePrepared | closeOpened | closeResponded | closeSettled => exact applyClose_outcome accepted trivial

end Channel

end Hellas.Work
