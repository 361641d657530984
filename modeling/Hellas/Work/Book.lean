import Hellas.Work.Records

-- The lifecycle of a job, shared by paid channels and by work done on grants.

namespace Hellas.Work

open Authority (Digest)
open Guard

inductive Role where
  | client
  | provider
  deriving DecidableEq

def Role.name : Role → String
  | .client => "client"
  | .provider => "provider"

inductive Applied where
  | changed
  | redundant
  deriving DecidableEq

inductive JobPhase where
  | halfSigned
  | accepted
  | running
  | streaming
  | ready
  | verified
  | delivered
  deriving DecidableEq

namespace JobPhase

def name : JobPhase → String
  | .halfSigned => "half-signed"
  | .accepted => "accepted"
  | .running => "running"
  | .streaming => "streaming"
  | .ready => "ready"
  | .verified => "verified"
  | .delivered => "delivered"

def released (phase : JobPhase) : Bool := phase = .delivered || phase = .streaming

end JobPhase

structure ClockReading where
  value : Nat
  unit : String
  deriving DecidableEq

inductive ChannelStateError where
  | record (error : PaidWorkError)
  | badSignature (slot party : String)
  | wrongPhase (step phase : String)
  | wrongRole (step expected : String)
  | wrongChannel (field : String)
  | terminated (step outcome : String)
  | overCredit (ledger : String) (used reserved price limit : UInt64)
  | indeterminate
  | acceptanceLate (now deadline : ClockReading)
  | dispatchLate (now deadline : ClockReading)
  | receiptLate (height deadline : UInt64)
  | paymentLate (height deadline : UInt64)
  | cursorNotNext (held actual : UInt64)
  | cursorNotContiguous (height : UInt64)
  | closing (step : String)
  | conflict (what : String)
  | malformed
  deriving DecidableEq

class JobAuthorization (α : Type) where
  unit : String
  proposalNonce : α → UInt64
  acceptanceDeadline : α → Nat
  terminalDeadline : α → Nat

export JobAuthorization (proposalNonce acceptanceDeadline terminalDeadline)

class JobOutcome (τ : Type) where
  name : τ → String

structure JobState (α ρ σ : Type) where
  authorization : α
  workId : Digest
  preparedInput : List UInt8
  clientSignature : σ
  providerSignature : Option σ
  phase : JobPhase
  result : Option (ρ × σ)
  transcript : List UInt8
  deriving DecidableEq

structure JobTerminal (τ : Type) where
  workId : Digest
  phase : JobPhase
  outcome : τ
  deriving DecidableEq

structure JobBook (α ρ σ τ : Type) where
  pendingProposal : Option Digest
  jobs : Slots Digest (JobState α ρ σ)
  terminals : Slots Digest (JobTerminal τ)
  proposalNonceHighWater : UInt64
  indeterminate : Finset Digest
  deriving DecidableEq

namespace JobBook

variable {α ρ σ τ : Type}

def empty : JobBook α ρ σ τ := ⟨none,∅,∅,0,∅⟩

-- A step that no longer finds its own proposal unanswered leaves the question open.
def answered (book : JobBook α ρ σ τ) (id : Digest) : Option Digest :=
  if book.pendingProposal = some id then none else book.pendingProposal

def put (book : JobBook α ρ σ τ) (id : Digest) (job : JobState α ρ σ) : JobBook α ρ σ τ := { book with jobs := book.jobs.insert id job }

section Moves

variable [DecidableEq α] [DecidableEq ρ] [DecidableEq σ] [JobAuthorization α] [JobOutcome τ]

def refuseIfTerminated (book : JobBook α ρ σ τ) (id : Digest) (step : String) :
    Except ChannelStateError Unit :=
  match book.terminals.lookup id with
  | some terminal => .error (.terminated step (JobOutcome.name terminal.outcome))
  | none => .ok ()

def openJob (book : JobBook α ρ σ τ) (id : Digest) (step : String) :
    Except ChannelStateError (JobState α ρ σ) :=
  match book.jobs.lookup id with
  | some job => .ok job
  | none => do
    book.refuseIfTerminated id step
    .error (.wrongPhase step "none")

def proposalExchange (book : JobBook α ρ σ τ) (id : Digest) (pending : Bool) :
    Except ChannelStateError (JobBook α ρ σ τ × Applied) := do
  let job ← book.openJob id "recording proposal exchange"
  rejectIf (job.phase ≠ .halfSigned) (.wrongPhase "recording proposal exchange" job.phase.name)
  rejectIf (∃ held ∈ book.pendingProposal, held ≠ id) (.conflict "unanswered proposal")
  let next := if pending then some id else none
  if book.pendingProposal = next then pure (book, .redundant)
  else pure ({ book with pendingProposal := next }, .changed)

def propose (book : JobBook α ρ σ τ) (job : JobState α ρ σ) (role : Role) :
    Except ChannelStateError (JobBook α ρ σ τ × Applied) :=
  match book.jobs.lookup job.workId with
  | some held => if held = job then pure (book, .redundant) else .error (.conflict "job proposal")
  | none => do
    book.refuseIfTerminated job.workId "proposing a job"
    rejectIf (proposalNonce job.authorization ≤ book.proposalNonceHighWater) (.wrongChannel "proposal_nonce")
    rejectIf (role = .client ∧ book.pendingProposal ≠ none) (.conflict "unanswered proposal")
    let pending := if role = .client then some job.workId else book.pendingProposal
    let placed := book.put job.workId job
    pure ({ placed with
      pendingProposal := pending
      proposalNonceHighWater := proposalNonce job.authorization }, .changed)

def accept (book : JobBook α ρ σ τ) (id : Digest) (signature : σ) (now : Nat) (role : Role) :
    Except ChannelStateError (JobBook α ρ σ τ × Applied) := do
  let job ← book.openJob id "co-signing a job"
  if job.providerSignature = some signature then pure (book, .redundant)
  else do
    rejectIf (job.phase ≠ .halfSigned) (.wrongPhase "co-signing a job" job.phase.name)
    let deadline := acceptanceDeadline job.authorization
    rejectIf (role = .provider ∧ deadline < now) (.acceptanceLate ⟨now,JobAuthorization.unit α⟩ ⟨deadline,JobAuthorization.unit α⟩)
    let signed := { job with providerSignature := some signature, phase := .accepted }
    pure ({ book.put id signed with pendingProposal := book.answered id }, .changed)

def run (book : JobBook α ρ σ τ) (id : Digest) (now : Nat) : Except ChannelStateError (JobBook α ρ σ τ × Applied) := do
  let job ← book.openJob id "a running marker"
  if job.phase = .running ∨ job.phase = .streaming then pure (book, .redundant)
  else do
    rejectIf (job.phase ≠ .accepted) (.wrongPhase "a running marker" job.phase.name)
    let deadline := terminalDeadline job.authorization
    rejectIf (deadline < now) (.dispatchLate ⟨now,JobAuthorization.unit α⟩ ⟨deadline,JobAuthorization.unit α⟩)
    pure (book.put id { job with phase := .running }, .changed)

def recordResult (book : JobBook α ρ σ τ) (id : Digest) (result : ρ) (signature : σ)
    (transcript : List UInt8) : Except ChannelStateError (JobBook α ρ σ τ × Applied) := do
  rejectIf (id ∈ book.indeterminate) .indeterminate
  let job ← book.openJob id "recording a result"
  rejectIf (job.phase ≠ .accepted ∧ job.phase ≠ .running ∧ job.phase ≠ .streaming) (.wrongPhase "recording a result" job.phase.name)
  let phase := if job.phase = .streaming then JobPhase.delivered else .ready
  let recorded := { job with
    result := some (result, signature), transcript := transcript, phase := phase }
  pure (book.put id recorded, .changed)

def markVerified (book : JobBook α ρ σ τ) (id : Digest) : Except ChannelStateError (JobBook α ρ σ τ × Applied) := do
  let job ← book.openJob id "recording a verified result"
  if job.phase = .verified then pure (book, .redundant)
  else do
    rejectIf (job.phase ≠ .ready) (.wrongPhase "recording a verified result" job.phase.name)
    pure (book.put id { job with phase := .verified }, .changed)

def release (book : JobBook α ρ σ τ) (id : Digest) : Except ChannelStateError (JobBook α ρ σ τ × Applied) := do
  let job ← book.openJob id "releasing plaintext"
  if job.phase.released then pure (book, .redundant)
  else do
    rejectIf (job.phase ≠ .running ∧ job.phase ≠ .ready) (.wrongPhase "releasing plaintext" job.phase.name)
    let phase := if job.phase = .running then JobPhase.streaming else .delivered
    pure (book.put id { job with phase := phase }, .changed)

end Moves

def restAt (book : JobBook α ρ σ τ) (terminal : JobTerminal τ) : JobBook α ρ σ τ :=
  { book with
    pendingProposal := book.answered terminal.workId
    jobs := book.jobs.erase terminal.workId
    indeterminate := book.indeterminate.erase terminal.workId
    terminals := book.terminals.insert terminal.workId terminal }

end JobBook

end Hellas.Work
