import Hellas.Work.Reached

-- What a provider has at stake: every open job counts against the compute credit it signed for, and
-- every job whose plaintext has left it against the delivery credit.

namespace Hellas.Work

open Authority (Digest)
open Guard Kernel Words

namespace Channel

variable [Xet] [Invocations] {verifier : SigVerifier} {channel : Channel}

def price (job : PaidJob) : Nat := job.authorization.price.toNat

def releasedPrice (job : PaidJob) : Nat := if job.phase.released then price job else 0

def computeExposure (channel : Channel) : Nat := channel.book.jobs.weight price

def deliveryExposure (channel : Channel) : Nat := channel.book.jobs.weight releasedPrice

omit [Xet] [Invocations] in
theorem computeExposure_total {jobs : Slots Digest PaidJob} :
    total (fun job : PaidJob => job.authorization.price) jobs.values = jobs.weight price :=
  Slots.sum_values

omit [Xet] [Invocations] in
theorem deliveryExposure_total {jobs : Slots Digest PaidJob} :
    total (fun job : PaidJob => job.authorization.price)
      (jobs.values.filter fun job => job.phase.released) = jobs.weight releasedPrice := by
  rw [total_filter]
  exact Slots.sum_values

omit [Xet] [Invocations] in
theorem checkCreditLimit_exact {ledger : String} {limit price : UInt64} {jobs : List PaidJob}
    (finite : limit.toNat < 2^64 - 1) (within : checkCreditLimit ledger limit (reservedPrices jobs) price = .ok ()) :
    total (fun job : PaidJob => job.authorization.price) jobs + price.toNat ≤ limit.toNat := by
  have summed : (reservedPrices jobs).toNat = min ((0 : UInt64).toNat + total (fun job : PaidJob => job.authorization.price) jobs)
        (2^64 - 1) := saturatingSum_from
  have zero : (0 : UInt64).toNat = 0 := rfl
  rw [checkCreditLimit,rejectIf_ok,UInt64.not_lt,UInt64.le_iff_toNat_le,saturatingAdd_eq,summed,zero] at within
  omega

structure Within (channel : Channel) : Prop where
  compute : channel.computeExposure ≤
    channel.funding.channel.channelPolicy.computeCreditLimit.toNat
  delivery : channel.deliveryExposure ≤
    channel.funding.channel.channelPolicy.deliveryCreditLimit.toNat

-- The limits a provider channel was signed with are finite.
structure Limited (channel : Channel) : Prop where
  provider : channel.role = .provider
  compute : channel.funding.channel.channelPolicy.computeCreditLimit.toNat < 2^64 - 1
  delivery : channel.funding.channel.channelPolicy.deliveryCreditLimit.toNat < 2^64 - 1

omit [Xet] [Invocations] in
theorem Limited.standing (limited : channel.Limited) (stands : Standing channel after) : after.Limited := by
  refine ⟨stands.role.trans limited.provider,?_,?_⟩
  · rw [stands.paid]
    exact limited.compute
  · rw [stands.paid]
    exact limited.delivery

variable {work : Digest} {job : PaidJob}

omit [Xet] [Invocations] in
theorem Carries.compute (carries : channel.Carries record work job next) :
    Slots.weight price (channel.book.jobs.insert work next) = channel.computeExposure := by
  have replaced := @Slots.weight_replace _ _ _ price _ _ _ next carries.held
  have same : price next = price job := by
    unfold price
    rw [carries.authorization]
  rw [computeExposure]
  omega

omit [Xet] [Invocations] in
theorem Carries.delivery (carries : channel.Carries record work job next) (limited : channel.Limited) (within : channel.Within) :
    Slots.weight releasedPrice (channel.book.jobs.insert work next) ≤ channel.funding.channel.channelPolicy.deliveryCreditLimit.toNat := by
  have replaced := @Slots.weight_replace _ _ _ releasedPrice _ _ _ next carries.held
  have held := within.delivery
  have same : price next = price job := by
    unfold price
    rw [carries.authorization]
  rw [deliveryExposure] at held
  by_cases out : next.phase.released = true
  · have weighs : releasedPrice next = price job := by
      rw [releasedPrice,if_pos out,same]
    rcases carries.credit out with already | credit
    · have before : releasedPrice job = price job := if_pos already
      omega
    · have fits := checkCreditLimit_exact limited.delivery credit
      rw [deliveryExposure_total] at fits
      have spelled : price job = job.authorization.price.toNat := rfl
      omega
  · have weighs : releasedPrice next = 0 := if_neg out
    omega

omit [Invocations] in
theorem Within.booked (within : channel.Within) (limited : channel.Limited) (filed : channel.Filed)
    (booked : Booked channel record after) (stands : Standing channel after) : after.Within := by
  suffices fits : Slots.weight price after.book.jobs ≤ channel.funding.channel.channelPolicy.computeCreditLimit.toNat ∧
      Slots.weight releasedPrice after.book.jobs ≤ channel.funding.channel.channelPolicy.deliveryCreditLimit.toNat by
    refine ⟨?_,?_⟩
    · rw [stands.paid]
      exact fits.1
    · rw [stands.paid]
      exact fits.2
  obtain ⟨computed,delivered⟩ := within
  rw [computeExposure] at computed
  rw [deliveryExposure] at delivered
  cases booked with
  | kept jobs =>
    rw [jobs]
    exact ⟨computed,delivered⟩
  | opened authorization signature input same fresh unended standing nonce compute jobs =>
    have credit := checkCreditLimit_exact limited.compute (compute limited.provider)
    rw [computeExposure_total] at credit
    have sealed_ : releasedPrice (channel.proposal authorization signature input) = 0 := rfl
    have costs : price (channel.proposal authorization signature input) = authorization.price.toNat := rfl
    rw [jobs,Slots.weight_insert price fresh,Slots.weight_insert releasedPrice fresh]
    omega
  | carried work job next carries jobs =>
    rw [jobs]
    exact ⟨carries.compute ▸ computed,carries.delivery limited ⟨computed,delivered⟩⟩
  | ended work job outcome same unended held settles book =>
    have compute := Slots.weight_erase price held
    have delivery := Slots.weight_erase releasedPrice held
    rw [book]
    simp only [rest,JobBook.restAt,filed.job work job held]
    omega

def WasReleased (past : List (Runs.Transition Channel Offer)) (work : Digest) : Prop :=
  ∃ taken ∈ past, taken.input.1 = .plaintextReleased work ∧ taken.before.book.jobs.lookup work ≠ none

structure Exposes (past : List (Runs.Transition Channel Offer)) (channel : Channel) : Prop where
  limited : channel.Limited
  filed : channel.Filed
  within : channel.Within
  known : ∀ taken ∈ past, ∀ work, taken.before.book.jobs.lookup work ≠ none →
    channel.book.jobs.lookup work ≠ none ∨ channel.book.terminals.lookup work ≠ none
  released : ∀ work job, channel.book.jobs.lookup work = some job →
    (job.phase.released = true ↔ WasReleased past work)
  paid : ∀ work terminal, channel.book.terminals.lookup work = some terminal →
    terminal.outcome.isCertified = true → ∃ taken ∈ past, ∃ job,
      taken.before.book.jobs.lookup work = some job ∧ job.phase.released = true

theorem offer_releases (is : offered.1 = .plaintextReleased work) (taken : channel.offer verifier offered = some after) :
    ∃ job, after.book.jobs.lookup work = some job ∧ job.phase.released = true := by
  rcases offer_cases taken with ⟨rfl,held⟩ | moved
  · rw [is] at held
    cases held with
    | released provider held out => exact ⟨_,held,out⟩
  · rw [is] at moved
    cases moved with
    | released provider held phase credit =>
      refine ⟨_,Finmap.lookup_insert _,?_⟩
      unfold unsealed
      split <;> rfl

section Step

omit [Xet] [Invocations] in
theorem WasReleased.snoc :
    WasReleased (past ++ [last]) work ↔ WasReleased past work ∨
      last.input.1 = .plaintextReleased work ∧ last.before.book.jobs.lookup work ≠ none := by
  simp only [WasReleased,List.mem_append,List.mem_singleton]
  constructor
  · intro found
    obtain ⟨taken,earlier | rfl,is,ongoing⟩ := found
    · exact .inl ⟨taken,earlier,is,ongoing⟩
    · exact .inr ⟨is,ongoing⟩
  · intro found
    rcases found with ⟨taken,earlier,is,ongoing⟩ | ⟨is,ongoing⟩
    · exact ⟨taken,.inl earlier,is,ongoing⟩
    · exact ⟨last,.inr rfl,is,ongoing⟩

omit [Xet] [Invocations] in
theorem Exposes.unreleased (exposes : Exposes past channel) (fresh : channel.book.jobs.lookup work = none)
    (unended : channel.book.terminals.lookup work = none) : ¬WasReleased past work := by
  intro found
  obtain ⟨taken,member,_,ongoing⟩ := found
  rcases exposes.known taken member work ongoing with held | ended
  · exact held fresh
  · exact ended unended

omit [Invocations] in
theorem Exposes.released_booked (exposes : Exposes past channel) (booked : Booked channel record after)
    (held : after.book.jobs.lookup work = some job) :
    (WasReleased past work → job.phase.released = true) ∧ (job.phase.released = true → WasReleased past work ∨
        record = .plaintextReleased work ∧ channel.book.jobs.lookup work ≠ none) := by
  have kept (held : channel.book.jobs.lookup work = some job) :
      (WasReleased past work → job.phase.released = true) ∧ (job.phase.released = true → WasReleased past work ∨
          record = .plaintextReleased work ∧ channel.book.jobs.lookup work ≠ none) :=
    ⟨(exposes.released work job held).mpr,fun out => .inl ((exposes.released work job held).mp out)⟩
  cases booked with
  | kept jobs => exact kept (jobs ▸ held)
  | opened authorization signature input same fresh unended standing nonce compute jobs =>
    rw [jobs,Slots.lookup_insert_if] at held
    split at held
    · rename_i own
      cases held
      rw [← own] at fresh unended
      exact ⟨fun found => absurd found (exposes.unreleased fresh unended),fun out => nomatch out⟩
    · exact kept held
  | carried other before next carries jobs =>
    rw [jobs,Slots.lookup_insert_if] at held
    split at held
    · rename_i own
      cases held
      rw [own,carries.released,exposes.released other before carries.held]
      refine ⟨.inl,?_⟩
      intro out
      rcases out with found | is
      · exact .inl found
      · exact .inr ⟨is,by simp [carries.held]⟩
    · exact kept held
  | ended other before outcome same unended ongoing settles book =>
    rw [book] at held
    simp only [rest,JobBook.restAt,Slots.lookup_erase_if] at held
    split at held
    · cases held
    · exact kept held

omit [Invocations] in
theorem Exposes.paid_booked (exposes : Exposes past channel) (booked : Booked channel record after)
    (ended : after.book.terminals.lookup work = some terminal) (certified : terminal.outcome.isCertified = true) :
    channel.book.terminals.lookup work = some terminal ∨ ∃ job, channel.book.jobs.lookup work = some job ∧ job.phase.released = true := by
  cases booked with
  | kept jobs terminals => exact .inl (terminals ▸ ended)
  | opened _ _ _ _ _ _ _ _ _ _ terminals => exact .inl (terminals ▸ ended)
  | carried _ _ _ _ _ terminals => exact .inl (terminals ▸ ended)
  | ended other job outcome same unended held settles book =>
    rw [book] at ended
    simp only [rest,JobBook.restAt,Slots.lookup_insert_if,exposes.filed.job other job held] at ended
    split at ended
    · rename_i own
      cases ended
      generalize after.ledger = ledger at settles
      cases settles with
      | unpaid uncertified =>
        rw [uncertified] at certified
        cases certified
      | paid certifies =>
        refine .inr ⟨job,own ▸ held,?_⟩
        rw [certifies.payable,exposes.limited.provider]
        rfl
    · exact .inl ended

theorem Exposes.offer (exposes : Exposes past channel) (taken : channel.offer verifier offered = some after) :
    Exposes (past ++ [⟨channel,offered,after⟩]) after := by
  have stands := offer_standing taken
  have filed := exposes.filed.offer taken
  have releases (work : Digest) (is : offered.1 = .plaintextReleased work) (job : PaidJob)
      (held : after.book.jobs.lookup work = some job) : job.phase.released = true := by
    obtain ⟨again,found,out⟩ := offer_releases is taken
    cases held.symm.trans found
    exact out
  have paid_grows {work : Digest} (found : ∃ taken ∈ past, ∃ job,
      taken.before.book.jobs.lookup work = some job ∧ job.phase.released = true) :
      ∃ taken ∈ past ++ [⟨channel,offered,after⟩], ∃ job, taken.before.book.jobs.lookup work = some job ∧ job.phase.released = true := by
    obtain ⟨taken,member,rest⟩ := found
    exact ⟨taken,List.mem_append_left _ member,rest⟩
  rcases offer_cases taken with ⟨rfl,held⟩ | moved
  · refine ⟨exposes.limited,filed,exposes.within,?_,?_,?_⟩
    · intro taken member work ongoing
      rcases List.mem_append.mp member with earlier | last
      · exact exposes.known taken earlier work ongoing
      · cases List.mem_singleton.mp last
        exact .inl ongoing
    · intro work job held
      rw [WasReleased.snoc,exposes.released work job held]
      refine ⟨.inl,?_⟩
      intro found
      rcases found with found | ⟨is,_⟩
      · exact found
      · exact (exposes.released work job held).mp (releases work is job held)
    · intro work terminal ended certified
      exact paid_grows (exposes.paid work terminal ended certified)
  · have booked := moved.booked
    refine ⟨exposes.limited.standing stands,filed,exposes.within.booked exposes.limited exposes.filed booked stands,?_,?_,?_⟩
    · intro taken member work ongoing
      rcases List.mem_append.mp member with earlier | last
      · exact exposes.filed.job_known booked (exposes.known taken earlier work ongoing)
      · cases List.mem_singleton.mp last
        exact exposes.filed.job_known booked (.inl ongoing)
    · intro work job held
      obtain ⟨stays,gets⟩ := exposes.released_booked booked held
      rw [WasReleased.snoc]
      refine ⟨gets,?_⟩
      intro found
      rcases found with found | ⟨is,_⟩
      · exact stays found
      · exact releases work is job held
    · intro work terminal ended certified
      rcases exposes.paid_booked booked ended certified with already | ⟨job,held,out⟩
      · exact paid_grows (exposes.paid work terminal already certified)
      · exact ⟨_,List.mem_append_right _ (List.mem_singleton.mpr rfl),job,held,out⟩

end Step

theorem reached_exposes {paid : PaidChannel} {settlement : WorkPaymentSettlement} {origin : SetupOrigin}
    {offers : List Offer} (compute : paid.channelPolicy.computeCreditLimit.toNat < 2^64 - 1)
    (delivery : paid.channelPolicy.deliveryCreditLimit.toNat < 2^64 - 1) :
    Exposes (Runs.trace (offer verifier) (Channel.new paid settlement .provider origin) offers)
      (reached verifier (Channel.new paid settlement .provider origin) offers) := by
  refine Runs.run_history (fun _ => True) (motive := Exposes) ?_ ?_ offers fun _ _ => trivial
  · refine ⟨⟨rfl,compute,delivery⟩,.new,⟨Nat.zero_le _,Nat.zero_le _⟩,?_,?_,?_⟩
    · intro taken member
      cases member
    · intro work job held
      cases held
    · intro work terminal ended
      cases ended
  · intro past before input next _ taken exposes
    exact exposes.offer taken

omit [Xet] [Invocations] in
theorem released_iff {phase : JobPhase} : phase.released = true ↔ phase = .streaming ∨ phase = .delivered := by
  cases phase <;> decide

structure Exposure (verifier : SigVerifier) (paid : PaidChannel) (start : Channel)
    (offers : List Offer) : Prop where
  compute : (reached verifier start offers).computeExposure ≤
    paid.channelPolicy.computeCreditLimit.toNat
  delivery : (reached verifier start offers).deliveryExposure ≤
    paid.channelPolicy.deliveryCreditLimit.toNat
  released : ∀ work job, (reached verifier start offers).book.jobs.lookup work = some job →
    ((job.phase = .streaming ∨ job.phase = .delivered) ↔
      WasReleased (Runs.trace (offer verifier) start offers) work)
  paid : ∀ work terminal,
    (reached verifier start offers).book.terminals.lookup work = some terminal →
    terminal.outcome.isCertified = true → ∃ taken ∈ Runs.trace (offer verifier) start offers,
      ∃ job, taken.before.book.jobs.lookup work = some job ∧
        (job.phase = .streaming ∨ job.phase = .delivered)

theorem provider_exposure_bounded (verifier : SigVerifier) (paid : PaidChannel) (settlement : WorkPaymentSettlement)
    (origin : SetupOrigin) (offers : List Offer) (compute : paid.channelPolicy.computeCreditLimit.toNat < 2^64 - 1)
    (delivery : paid.channelPolicy.deliveryCreditLimit.toNat < 2^64 - 1) :
    Exposure verifier paid (Channel.new paid settlement .provider origin) offers := by
  have exposes := @reached_exposes _ _ verifier paid settlement origin offers compute delivery
  have stands := @reached_standing _ _ verifier (Channel.new paid settlement .provider origin) offers
  have signed : (reached verifier (Channel.new paid settlement .provider origin)
    offers).funding.channel = paid := stands.paid
  have computes := exposes.within.compute
  have delivers := exposes.within.delivery
  rw [signed] at computes delivers
  refine ⟨computes,delivers,?_,?_⟩
  · intro work job held
    rw [← released_iff]
    exact exposes.released work job held
  · intro work terminal ended certified
    obtain ⟨taken,member,job,held,out⟩ := exposes.paid work terminal ended certified
    exact ⟨taken,member,job,held,released_iff.mp out⟩

-- Whose channel it is and what it pays never change, and the chain is never read backwards.
theorem channel_never_turns (verifier : SigVerifier) (start : Channel) (early late : List Offer) :
    Standing (reached verifier start early) (reached verifier start (early ++ late)) := by
  unfold reached
  rw [Runs.run_append]
  exact reached_standing

-- The job has ended, or is open on these terms.
def Keeps (channel : Channel) (work : Digest) (terms : PaidJobAuthorizationV2) : Prop :=
  channel.book.terminals.lookup work ≠ none ∨ ∃ job, channel.book.jobs.lookup work = some job ∧ job.authorization = terms

omit [Invocations] in
theorem Filed.keeps (filed : Filed channel) (booked : Booked channel record after) (keeps : channel.Keeps work terms) :
    after.Keeps work terms := by
  rcases keeps with ended | ⟨job,held,rfl⟩
  · obtain ⟨terminal,ended⟩ := Option.ne_none_iff_exists'.mp ended
    exact .inl (by simp [filed.terminal_kept booked ended])
  unfold Keeps
  cases booked with
  | kept jobs => exact .inr ⟨job,jobs ▸ held,rfl⟩
  | opened authorization signature input _ fresh _ _ _ _ jobs =>
    refine .inr ⟨job,?_,rfl⟩
    rw [jobs,Slots.lookup_insert_if,if_neg,held]
    rintro rfl
    cases fresh.symm.trans held
  | carried other before next carries jobs =>
    rw [jobs,Slots.lookup_insert_if]
    split
    · rename_i same
      subst same
      cases carries.held.symm.trans held
      exact .inr ⟨next,rfl,carries.authorization⟩
    · exact .inr ⟨job,held,rfl⟩
  | ended other before outcome _ _ found _ book =>
    simp only [book,Channel.rest,JobBook.restAt,Slots.lookup_erase_if,Slots.lookup_insert_if]
    split
    · exact .inl (Option.some_ne_none _)
    · exact .inr ⟨job,held,rfl⟩

theorem reached_terminal {start : Channel} {late : List Offer} (filed : start.Filed) {work : Digest}
    {terminal : JobTerminal TerminalOutcome} (ended : start.book.terminals.lookup work = some terminal) :
    (reached verifier start late).book.terminals.lookup work = some terminal := by
  have both : (reached verifier start late).Filed ∧ (reached verifier start late).book.terminals.lookup work = some terminal := by
    refine Runs.run_invariant (fun _ => True) (fun channel : Channel => channel.Filed ∧
      channel.book.terminals.lookup work = some terminal) ⟨filed,ended⟩ ?_ late fun _ _ => trivial
    intro before input next _ taken holds
    obtain ⟨filed,ended⟩ := holds
    refine ⟨filed.offer taken,?_⟩
    rcases offer_cases taken with ⟨rfl,held⟩ | moved
    · exact ended
    · exact filed.terminal_kept moved.booked ended
  exact both.2

-- A job ends for good, and until then it is open on the terms it was proposed on.
theorem jobs_keep_their_terms (verifier : SigVerifier) (paid : PaidChannel) (settlement : WorkPaymentSettlement)
    (role : Role) (origin : SetupOrigin) (early late : List Offer) (work : Digest) :
    let before := reached verifier (Channel.new paid settlement role origin) early
    let after := reached verifier (Channel.new paid settlement role origin) (early ++ late)
    (∀ terminal, before.book.terminals.lookup work = some terminal → after.book.terminals.lookup work = some terminal) ∧
    ∀ job, before.book.jobs.lookup work = some job →
      after.book.terminals.lookup work ≠ none ∨
        ∃ later, after.book.jobs.lookup work = some later ∧ later.authorization = job.authorization := by
  intro before after
  have filed : before.Filed := Filed.new.reached
  have onward : after = reached verifier before late := Runs.run_append ..
  rw [onward]
  refine ⟨fun terminal => reached_terminal filed,fun job held => ?_⟩
  refine (Runs.run_invariant (fun _ => True) (fun channel : Channel => channel.Filed ∧ channel.Keeps work job.authorization)
    ⟨filed,.inr ⟨job,held,rfl⟩⟩ ?_ late fun _ _ => trivial).2
  rintro before input next _ taken ⟨filed,keeps⟩
  refine ⟨filed.offer taken,?_⟩
  rcases offer_cases taken with ⟨rfl,-⟩ | moved
  · exact keeps
  · exact filed.keeps moved.booked keeps

end Channel

namespace Sample

open Kernel.Sample (checksum verifier)

attribute [local instance] checksum bodies

theorem provider_exposure_bounded_second_job :
    (Channel.reached verifier provider offers).deliveryExposure = 40 ∧ Channel.Exposure verifier paid provider offers :=
  ⟨by decide +kernel,
    Channel.provider_exposure_bounded verifier paid settlement origin offers (by decide) (by decide)⟩

theorem jobs_keep_their_terms_paid :
    (∃ job, (Channel.reached verifier provider (serve 1 30)).book.jobs.lookup (work 1 30) = some job ∧
      ((Channel.reached verifier provider (serve 1 30 ++ [live (payFor 1 30 30)])).book.terminals.lookup (work 1 30) ≠ none ∨
        ∃ later, (Channel.reached verifier provider (serve 1 30 ++ [live (payFor 1 30 30)])).book.jobs.lookup (work 1 30) = some later ∧
          later.authorization = job.authorization)) ∧
    ∃ terminal, (Channel.reached verifier provider (serve 1 30 ++ [live (payFor 1 30 30)])).book.terminals.lookup (work 1 30) =
        some terminal ∧
      (Channel.reached verifier provider offers).book.terminals.lookup (work 1 30) = some terminal := by
  have standing : ((Channel.reached verifier provider (serve 1 30)).book.jobs.lookup (work 1 30)).isSome = true := by
    decide +kernel
  have paidFor : ((Channel.reached verifier provider (serve 1 30 ++ [live (payFor 1 30 30)])).book.terminals.lookup (work 1 30)).isSome = true := by
    decide +kernel
  obtain ⟨job,held⟩ := Option.isSome_iff_exists.mp standing
  obtain ⟨terminal,ended⟩ := Option.isSome_iff_exists.mp paidFor
  exact ⟨⟨job,held,(Channel.jobs_keep_their_terms verifier paid settlement .provider origin _ _ _).2 job held⟩,
    terminal,ended,(Channel.jobs_keep_their_terms verifier paid settlement .provider origin _ (serve 2 40) _).1 terminal ended⟩

end Sample

end Hellas.Work
