import Hellas.Invariants.Conservation
import Hellas.Lib.Runs
import Hellas.Work.Moves

-- A channel record by record: what an accepted one does to the open jobs, the ended ones and the
-- money, and what every reached channel keeps.

namespace Hellas.Work

open Authority (Digest)
open Guard Kernel Words

namespace Channel

-- A record as it is offered: with its bodies, or read back without them.
abbrev Offer := ChannelRecord × Bool

-- The job a record carries from one phase to the next is the same job.
structure Carries (channel : Channel) (record : ChannelRecord) (work : Digest) (job next : PaidJob) :
    Prop where
  held : channel.book.jobs.lookup work = some job
  authorization : next.authorization = job.authorization
  workId : next.workId = job.workId
  input : next.preparedInput = job.preparedInput
  released : next.phase.released = true ↔
    job.phase.released = true ∨ record = .plaintextReleased work
  credit : next.phase.released = true → job.phase.released = true ∨
    channel.checkDeliveryLimit job.authorization.price = .ok ()

section Booked

variable [Xet]

-- Only a certified end moves money.
inductive Settles (channel : Channel) (work : Digest) (job : PaidJob) :
    TerminalOutcome → CreditLedger → Prop where
  | unpaid {outcome : TerminalOutcome} : outcome.isCertified = false →
      Settles channel work job outcome channel.ledger
  | paid {verifier : SigVerifier} {signedResult : PaidJobResultV1 × Sig}
      {certificate : EarnedCertificate} {binding : PaymentBindingV1}
      {bindingSignature certificateSignature : Sig} {ledger : CreditLedger} :
      Certifies verifier channel work signedResult certificate binding bindingSignature
        certificateSignature job ledger →
      Settles channel work job
        (.certified signedResult certificate binding bindingSignature certificateSignature) ledger

inductive Booked (channel : Channel) (record : ChannelRecord) (after : Channel) : Prop where
  | kept : after.book.jobs = channel.book.jobs → after.book.terminals = channel.book.terminals →
      after.ledger = channel.ledger →
      after.book.proposalNonceHighWater = channel.book.proposalNonceHighWater →
      (∀ authorization signature input, record ≠ .jobProposed authorization signature input) →
      (∀ work outcome, record ≠ .jobTerminated work outcome) → Booked channel record after
  | opened (authorization : PaidJobAuthorizationV2) (signature : Sig) (input : List UInt8) :
      record = .jobProposed authorization signature input →
      channel.book.jobs.lookup (workId channel.funding.channel authorization) = none →
      channel.book.terminals.lookup (workId channel.funding.channel authorization) = none →
      channel.isClosing = false →
      channel.book.proposalNonceHighWater < authorization.proposalNonce →
      (channel.role = .provider → channel.checkComputeLimit authorization.price = .ok ()) →
      after.book.jobs = channel.book.jobs.insert (workId channel.funding.channel authorization)
        (channel.proposal authorization signature input) →
      after.book.terminals = channel.book.terminals → after.ledger = channel.ledger →
      after.book.proposalNonceHighWater = authorization.proposalNonce → Booked channel record after
  | carried (work : Digest) (job next : PaidJob) : channel.Carries record work job next →
      after.book.jobs = channel.book.jobs.insert work next →
      after.book.terminals = channel.book.terminals → after.ledger = channel.ledger →
      after.book.proposalNonceHighWater = channel.book.proposalNonceHighWater →
      (∀ authorization signature input, record ≠ .jobProposed authorization signature input) →
      (∀ work outcome, record ≠ .jobTerminated work outcome) → Booked channel record after
  | ended (work : Digest) (job : PaidJob) (outcome : TerminalOutcome) :
      record = .jobTerminated work outcome → channel.book.terminals.lookup work = none →
      channel.book.jobs.lookup work = some job → channel.Settles work job outcome after.ledger →
      after.book = channel.rest job outcome → Booked channel record after

end Booked

variable [Xet] [Invocations] {verifier : SigVerifier} {channel after : Channel}
  {record : ChannelRecord} {offered : Offer}

variable {work : Digest} {job : PaidJob}

omit [Xet] [Invocations] in
theorem Accepts.carries (accepts : Accepts verifier channel work signature job) :
    channel.Carries (.jobAccepted work signature) work job (countersigned job signature) where
  held := accepts.held
  authorization := rfl
  workId := rfl
  input := rfl
  released := by
    rw [accepts.phase]
    exact iff_of_false Bool.false_ne_true (by simp [JobPhase.released])
  credit := fun out => absurd out Bool.false_ne_true

theorem Records.carries (records : Records verifier channel metadataOnly work result signature transcript job) :
    channel.Carries (.jobResult work result signature transcript) work job (recorded job result signature transcript) := by
  have stays : (recorded job result signature transcript).phase.released = true ↔ job.phase.released = true := by
    have phase := records.phase
    unfold recorded
    unfold resultPhase at phase
    cases role : channel.role <;> cases atPhase : job.phase <;>
      simp_all [JobPhase.released]
  refine ⟨records.held,rfl,rfl,rfl,?_,?_⟩
  · rw [stays]
    simp
  · intro out
    exact .inl (stays.mp out)

theorem Moved.booked (moved : Moved verifier channel metadataOnly record after) : Booked channel record after := by
  cases moved with
  | origin | exchanged | advanced | history | prepared | opened | responded | settled =>
    exact .kept rfl rfl rfl rfl (fun _ _ _ other => nomatch other) (fun _ _ other => nomatch other)
  | proposed proposes =>
    exact .opened _ _ _ rfl proposes.fresh proposes.unended proposes.standing proposes.nonce proposes.compute rfl rfl rfl rfl
  | accepted accepts =>
    exact .carried _ _ _ accepts.carries rfl rfl rfl rfl (fun _ _ _ other => nomatch other)
      (fun _ _ other => nomatch other)
  | recorded records =>
    exact .carried _ _ _ records.carries rfl rfl rfl rfl (fun _ _ _ other => nomatch other)
      (fun _ _ other => nomatch other)
  | @running work job provider held phase timely =>
    refine .carried work job { job with phase := .running } ⟨held,rfl,rfl,rfl,?_,?_⟩ rfl rfl rfl rfl
      (fun _ _ _ other => nomatch other) (fun _ _ other => nomatch other)
    · simp [phase,JobPhase.released]
    · simp [JobPhase.released]
  | @restored work _ _ transcript job client live held answered empty filled payload =>
    refine .carried work job { job with transcript := transcript } ⟨held,rfl,rfl,rfl,?_,.inl⟩ rfl rfl rfl rfl
      (fun _ _ _ other => nomatch other) (fun _ _ other => nomatch other)
    simp
  | @released work job provider held phase credit =>
    refine .carried work job (unsealed job) ⟨held,rfl,rfl,rfl,?_,fun _ => .inr credit⟩ rfl rfl rfl rfl
      (fun _ _ _ other => nomatch other) (fun _ _ other => nomatch other)
    refine iff_of_true ?_ (.inr rfl)
    unfold unsealed
    split <;> rfl
  | @verified work job _ client held phase answered finished rechecked =>
    refine .carried work job { job with phase := .verified } ⟨held,rfl,rfl,rfl,?_,?_⟩ rfl rfl rfl rfl
      (fun _ _ _ other => nomatch other) (fun _ _ other => nomatch other)
    · simp [phase,JobPhase.released]
    · simp [JobPhase.released]
  | certified certifies => exact .ended _ _ _ rfl certifies.unended certifies.held (.paid certifies) rfl
  | rejected unended client held phase answered named => exact .ended _ _ _ rfl unended held (.unpaid rfl) rfl
  | ended unended held unrejected uncertified => exact .ended _ _ _ rfl unended held (.unpaid uncertified) rfl

-- What no record touches, and the reading of the chain that only goes up.
structure Standing (channel after : Channel) : Prop where
  role : after.role = channel.role
  paid : after.funding.channel = channel.funding.channel
  settlement : after.funding.settlement = channel.funding.settlement
  height : channel.funding.cursor.1 ≤ after.funding.cursor.1

omit [Xet] [Invocations] in
theorem Standing.refl : Standing channel channel := ⟨rfl,rfl,rfl,UInt64.le_refl _⟩

omit [Xet] [Invocations] in
theorem Standing.trans (first : Standing channel after) (second : Standing after next) :
    Standing channel next where
  role := second.role.trans first.role
  paid := second.paid.trans first.paid
  settlement := second.settlement.trans first.settlement
  height := UInt64.le_trans first.height second.height

theorem Moved.standing (moved : Moved verifier channel metadataOnly record after) : Standing channel after := by
  cases moved with
  | advanced other next contiguous =>
    refine ⟨rfl,rfl,rfl,?_⟩
    rw [next]
    exact le_saturatingAdd
  | _ => exact ⟨rfl,rfl,rfl,UInt64.le_refl _⟩

section Offers

def offer (verifier : SigVerifier) (channel : Channel) (offered : Offer) : Option Channel :=
  (channel.apply verifier offered.1 offered.2).toOption.map Prod.fst

theorem offer_some : channel.offer verifier offered = some after ↔
    ∃ applied, channel.apply verifier offered.1 offered.2 = .ok (after, applied) := by
  unfold offer
  cases channel.apply verifier offered.1 offered.2 with
  | error refused => simp [Except.toOption]
  | ok done =>
    obtain ⟨moved,applied⟩ := done
    simp [Except.toOption]

theorem offer_cases (taken : channel.offer verifier offered = some after) :
    after = channel ∧ channel.Held offered.1 ∨ Moved verifier channel offered.2 offered.1 after := by
  obtain ⟨applied,accepted⟩ := offer_some.mp taken
  cases apply_outcome accepted with
  | redundant held => exact .inl ⟨rfl,held⟩
  | changed moved => exact .inr moved

theorem offer_standing (taken : channel.offer verifier offered = some after) : Standing channel after := by
  rcases offer_cases taken with ⟨rfl,held⟩ | moved
  · exact .refl
  · exact moved.standing

def reached (verifier : SigVerifier) (start : Channel) (offers : List Offer) : Channel := Runs.run (offer verifier) start offers

theorem reached_standing {start : Channel} {offers : List Offer} : Standing start (reached verifier start offers) := by
  refine Runs.run_invariant (fun _ => True) (Standing start) .refl ?_ offers fun _ _ => trivial
  intro before input next _ taken stands
  exact stands.trans (offer_standing taken)

end Offers

-- Jobs and terminals are filed by their own ids, and no job is both open and ended.
structure Filed (channel : Channel) : Prop where
  job : ∀ work job, channel.book.jobs.lookup work = some job → job.workId = work
  terminal : ∀ work terminal, channel.book.terminals.lookup work = some terminal →
    terminal.workId = work
  apart : ∀ work, channel.book.jobs.lookup work ≠ none → channel.book.terminals.lookup work = none

namespace Filed

omit [Xet] [Invocations] in
theorem new {paid : PaidChannel} {settlement : WorkPaymentSettlement} {role : Role}
    {origin : SetupOrigin} : Filed (Channel.new paid settlement role origin) := by
  refine ⟨?_,?_,?_⟩
  · intro work job held
    cases held
  · intro work terminal held
    cases held
  · intro work held
    exact absurd rfl held

variable {work : Digest}

omit [Xet] [Invocations] in
theorem rest (filed : Filed channel) (held : channel.book.jobs.lookup work = some job) (book : after.book = channel.rest job outcome) :
    Filed after := by
  have own := filed.job work job held
  refine ⟨?_,?_,?_⟩
  · intro other found
    rw [book]
    simp only [Channel.rest,JobBook.restAt,Slots.lookup_erase_if]
    intro ongoing
    split at ongoing
    · cases ongoing
    · exact filed.job _ _ ongoing
  · intro other found
    rw [book]
    simp only [Channel.rest,JobBook.restAt,Slots.lookup_insert_if]
    intro ended
    split at ended
    · rename_i same
      cases ended
      exact same.symm
    · exact filed.terminal _ _ ended
  · intro other
    rw [book]
    simp only [Channel.rest,JobBook.restAt,Slots.lookup_erase_if,Slots.lookup_insert_if]
    intro ongoing
    split at ongoing
    · exact absurd rfl ongoing
    · rename_i different
      rw [if_neg different]
      exact filed.apart _ ongoing

omit [Xet] [Invocations] in
theorem insert (filed : Filed channel) (own : job.workId = work) (unended : channel.book.terminals.lookup work = none)
    (jobs : after.book.jobs = channel.book.jobs.insert work job)
    (terminals : after.book.terminals = channel.book.terminals) : Filed after := by
  refine ⟨?_,?_,?_⟩
  · intro other found
    rw [jobs,Slots.lookup_insert_if]
    intro ongoing
    split at ongoing
    · rename_i same
      cases ongoing
      rw [own,same]
    · exact filed.job _ _ ongoing
  · rw [terminals]
    exact filed.terminal
  · intro other
    rw [jobs,terminals,Slots.lookup_insert_if]
    intro ongoing
    split at ongoing
    · rename_i same
      rw [same]
      exact unended
    · exact filed.apart _ ongoing

omit [Invocations] in
theorem booked (filed : Filed channel) (booked : Booked channel record after) : Filed after := by
  cases booked with
  | kept jobs terminals ledger nonce unproposed unended =>
    exact ⟨jobs ▸ filed.job,terminals ▸ filed.terminal,jobs ▸ terminals ▸ filed.apart⟩
  | opened authorization signature input same fresh unended standing nonce compute jobs terminals =>
    have own : (channel.proposal authorization signature input).workId = workId channel.funding.channel authorization := rfl
    exact filed.insert own unended jobs terminals
  | carried work job next carries jobs terminals =>
    have own := carries.workId.trans (filed.job work job carries.held)
    have unended := filed.apart work (by simp [carries.held])
    exact filed.insert own unended jobs terminals
  | ended work job outcome same unended held settles book => exact filed.rest held book

omit [Invocations] in
theorem terminal_kept (filed : Filed channel) (booked : Booked channel record after) {work : Digest}
    {terminal : JobTerminal TerminalOutcome} (ended : channel.book.terminals.lookup work = some terminal) :
    after.book.terminals.lookup work = some terminal := by
  cases booked with
  | kept _ terminals => exact terminals ▸ ended
  | opened _ _ _ _ _ _ _ _ _ _ terminals => exact terminals ▸ ended
  | carried _ _ _ _ _ terminals => exact terminals ▸ ended
  | ended other job outcome same unended held settles book =>
    rw [book]
    simp only [Channel.rest,JobBook.restAt,Slots.lookup_insert_if,filed.job other job held]
    rw [if_neg,ended]
    intro clash
    rw [clash,unended] at ended
    cases ended

omit [Invocations] in
theorem job_known (filed : Filed channel) (booked : Booked channel record after)
    (known : channel.book.jobs.lookup work ≠ none ∨ channel.book.terminals.lookup work ≠ none) :
    after.book.jobs.lookup work ≠ none ∨ after.book.terminals.lookup work ≠ none := by
  rcases known with ongoing | ended
  · cases booked with
    | kept jobs => exact .inl (jobs ▸ ongoing)
    | opened authorization signature input _ _ _ _ _ _ jobs =>
      refine .inl ?_
      rw [jobs,Slots.lookup_insert_if]
      split
      · exact Option.some_ne_none _
      · exact ongoing
    | carried other job next _ jobs =>
      refine .inl ?_
      rw [jobs,Slots.lookup_insert_if]
      split
      · exact Option.some_ne_none _
      · exact ongoing
    | ended other job outcome same unended held settles book =>
      rw [book]
      simp only [Channel.rest,JobBook.restAt,Slots.lookup_erase_if,Slots.lookup_insert_if]
      split
      · exact .inr (Option.some_ne_none _)
      · exact .inl ongoing
  · obtain ⟨terminal,ended⟩ := Option.ne_none_iff_exists'.mp ended
    rw [filed.terminal_kept booked ended]
    exact .inr (Option.some_ne_none _)

theorem offer (filed : Filed channel) (taken : channel.offer verifier offered = some after) : Filed after := by
  rcases offer_cases taken with ⟨rfl,held⟩ | moved
  · exact filed
  · exact filed.booked moved.booked

theorem reached (filed : Filed start) : Filed (reached verifier start offers) := by
  refine Runs.run_invariant (fun _ => True) Filed filed ?_ offers fun _ _ => trivial
  intro before input next _ taken filed
  exact filed.offer taken

end Filed

end Channel

-- One small paid channel, for evaluating statements: its provider takes two jobs and is paid for
-- the first. The bodies are not looked into and every signature is good.
namespace Sample

open Kernel.Sample (checksum fill network payment paymentEdge verifier)

attribute [local instance] checksum

@[reducible] def bodies : Invocations where
  checkInput _ _ _ := .ok ()
  terminalResult channel authorization _ _ := .ok ⟨workId channel authorization,fill 32 5,fill 32 6,.finished,⟨fill 32 7,8⟩⟩

attribute [local instance] bodies

def paid : PaidChannel := ⟨network,paymentEdge,payment,⟨100,50⟩⟩
def settlement : WorkPaymentSettlement := ⟨600,500,500,100⟩
def origin : SetupOrigin := ⟨paymentEdge,3,fill 32 3,fill 32 2⟩
def signature : Sig := ⟨fill 64 9⟩

def authorization (nonce price : UInt64) : PaidJobAuthorizationV2 :=
  ⟨paid.id,fill 32 1,fill 32 2,⟨fill 32 3,4⟩,fill 32 4,nonce,10,fill 32 5,fill 32 6,price,20,30,.ephemeral⟩

def work (nonce price : UInt64) : Digest := workId paid (authorization nonce price)

def result (nonce price : UInt64) : PaidJobResultV1 := ⟨work nonce price,fill 32 5,fill 32 6,.finished,⟨fill 32 7,8⟩⟩

def certificate (earned : UInt64) : EarnedCertificate := ⟨paymentEdge,paid.paymentTermsHash,earned⟩

def payFor (nonce price earned : UInt64) : ChannelRecord :=
  .jobTerminated (work nonce price) (.certified (result nonce price, signature) (certificate earned)
    ⟨work nonce price,resultDigest paid (result nonce price),(certificate earned).digest network⟩
    signature signature)

def live (record : ChannelRecord) : Channel.Offer := (record, false)

def serve (nonce price : UInt64) : List Channel.Offer :=
  [live (.jobProposed (authorization nonce price) signature [1]),
    live (.jobAccepted (work nonce price) signature),live (.jobRunning (work nonce price)),
    live (.plaintextReleased (work nonce price)),
    live (.jobResult (work nonce price) (result nonce price) signature [2])]

def offers : List Channel.Offer := serve 1 30 ++ [live (payFor 1 30 30)] ++ serve 2 40

def provider : Channel := Channel.new paid settlement .provider origin

end Sample

end Hellas.Work
