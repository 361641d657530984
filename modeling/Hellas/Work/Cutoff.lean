import Hellas.Work.Reached

-- A channel that is closing takes no job, and one whose close the chain has seen is frozen: what it
-- owes, what it holds and the one answer it may still give.

namespace Hellas.Work

open Authority (Digest)
open Guard Kernel Words

namespace Channel

variable [Xet] [Invocations] {verifier : SigVerifier} {channel after : Channel}

def cutOff (channel : Channel) : Bool := channel.funding.closeOpened.isSome || channel.funding.closeSettled.isSome

omit [Xet] [Invocations] in
theorem isClosing_of_cutOff (cut : channel.cutOff = true) : channel.isClosing = true := by
  unfold isClosing
  unfold cutOff at cut
  rw [cut]
  rfl

def Idle (channel : Channel) : Prop := channel.isClosing = true → channel.book.jobs = ∅

omit [Xet] [Invocations] in
theorem Idle.none_held (idle : channel.Idle) (closing : channel.isClosing = true)
    (held : channel.book.jobs.lookup work = some job) : False := by
  rw [idle closing,Finmap.lookup_empty] at held
  cases held

omit [Xet] [Invocations] in
theorem isClosing_earlier (later : channel.funding.cursor.1 ≤ height)
    (closing : ({ channel with funding := { channel.funding with cursor := (height, payload) } } :
      Channel).isClosing = true) : channel.isClosing = true := by
  simp only [isClosing,Bool.or_eq_true,includableCloseStart,Option.isSome_iff_exists,
    Option.filter_eq_some_iff,decide_eq_true_eq] at closing ⊢
  rcases closing with shut | ⟨start,signed,within⟩
  · exact .inl shut
  · exact .inr ⟨start,signed,UInt64.le_trans later within⟩

theorem Idle.moved (idle : channel.Idle) (moved : Moved verifier channel metadataOnly record after) : after.Idle := by
  cases moved with
  | origin | exchanged | history | responded => exact idle
  | advanced other next contiguous =>
    intro closing
    refine idle (isClosing_earlier ?_ closing)
    rw [next]
    exact le_saturatingAdd
  | proposed proposes =>
    intro closing
    have standing : channel.isClosing = true := closing
    rw [proposes.standing] at standing
    cases standing
  | accepted accepts => exact fun closing => (idle.none_held closing accepts.held).elim
  | recorded records => exact fun closing => (idle.none_held closing records.held).elim
  | certified certifies => exact fun closing => (idle.none_held closing certifies.held).elim
  | running provider held | released provider held | verified client held => exact fun closing => (idle.none_held closing held).elim
  | restored client live held => exact fun closing => (idle.none_held closing held).elim
  | rejected unended client held => exact fun closing => (idle.none_held closing held).elim
  | ended unended held => exact fun closing => (idle.none_held closing held).elim
  | prepared other unopened unsettled empty => exact fun _ => empty
  | opened unopened unsettled empty => exact fun _ => empty
  | settled unsettled empty => exact fun _ => empty

theorem Idle.offer (idle : channel.Idle) (taken : channel.offer verifier offered = some after) : after.Idle := by
  rcases offer_cases taken with ⟨rfl,held⟩ | moved
  · exact idle
  · exact idle.moved moved

theorem reached_idle {start : Channel} (idle : start.Idle) : (reached verifier start offers).Idle := by
  refine Runs.run_invariant (fun _ => True) Idle idle ?_ offers fun _ _ => trivial
  intro before input next _ taken idle
  exact idle.offer taken

def Answered (channel : Channel) : Prop := ∃ history ∈ channel.funding.closeHistory, history.pending.responded = true

structure Frozen (channel after : Channel) : Prop where
  jobs : after.book.jobs = ∅
  terminals : after.book.terminals = channel.book.terminals
  ledger : after.ledger = channel.ledger
  nonce : after.book.proposalNonceHighWater = channel.book.proposalNonceHighWater
  contest : after.funding.closeOpened = channel.funding.closeOpened
  prepared : after.funding.closePrepared = channel.funding.closePrepared
  settled : channel.funding.closeSettled ≠ none → after.funding.closeSettled ≠ none
  answered : channel.Answered → after.Answered
  standing : Standing channel after

namespace Frozen

omit [Xet] [Invocations] in
theorem refl (jobs : channel.book.jobs = ∅) : Frozen channel channel := ⟨jobs,rfl,rfl,rfl,rfl,rfl,id,id,.refl⟩

omit [Xet] [Invocations] in
theorem trans (first : Frozen channel after) (second : Frozen after next) :
    Frozen channel next where
  jobs := second.jobs
  terminals := second.terminals.trans first.terminals
  ledger := second.ledger.trans first.ledger
  nonce := second.nonce.trans first.nonce
  contest := second.contest.trans first.contest
  prepared := second.prepared.trans first.prepared
  settled := second.settled ∘ first.settled
  answered := second.answered ∘ first.answered
  standing := first.standing.trans second.standing

omit [Xet] [Invocations] in
theorem cutOff (frozen : Frozen channel after) (cut : channel.cutOff = true) : after.cutOff = true := by
  simp only [Channel.cutOff,Bool.or_eq_true,Option.isSome_iff_ne_none] at cut ⊢
  rw [frozen.contest]
  exact cut.imp id frozen.settled

omit [Xet] [Invocations] in
theorem certificate (frozen : Frozen channel after) : after.executableCertificate = channel.executableCertificate := by
  simp only [executableCertificate,lastPayment,frozen.terminals]

end Frozen

omit [Xet] [Invocations] in
theorem followHistory_answered (follows : channel.followHistory parent history = .ok ()) (answered : channel.Answered) :
    history.pending.responded = true := by
  obtain ⟨previous,held,responded⟩ := answered
  unfold followHistory at follows
  rw [Option.mem_def.mp held] at follows
  simp only [bind_ok,okOr_ok,rejectIf_ok] at follows
  obtain ⟨next,_,unbroken⟩ := follows
  simp only [BreaksHistory,not_or,not_and,not_not] at unbroken
  rw [unbroken.2.2.2.2.1 (.inl responded)]
  exact responded

theorem Moved.frozen (moved : Moved verifier channel metadataOnly record after)
    (jobs : channel.book.jobs = ∅) (cut : channel.cutOff = true) : Frozen channel after := by
  have closing := isClosing_of_cutOff cut
  have idle : channel.Idle := fun _ => jobs
  have stands := moved.standing
  cases moved with
  | origin | exchanged | advanced => exact ⟨jobs,rfl,rfl,rfl,rfl,rfl,id,id,stands⟩
  | proposed proposes =>
    rw [proposes.standing] at closing
    cases closing
  | accepted accepts => exact (idle.none_held closing accepts.held).elim
  | recorded records => exact (idle.none_held closing records.held).elim
  | certified certifies => exact (idle.none_held closing certifies.held).elim
  | running provider held | released provider held | verified client held => exact (idle.none_held closing held).elim
  | restored client live held => exact (idle.none_held closing held).elim
  | rejected unended client held => exact (idle.none_held closing held).elim
  | ended unended held => exact (idle.none_held closing held).elim
  | history fits other follows =>
    refine ⟨jobs,rfl,rfl,rfl,rfl,rfl,id,?_,stands⟩
    intro answered
    exact ⟨_,rfl,followHistory_answered follows answered⟩
  | prepared other unopened unsettled empty =>
    rw [Channel.cutOff,unopened,unsettled] at cut
    cases cut
  | opened unopened unsettled empty =>
    rw [Channel.cutOff,unopened,unsettled] at cut
    cases cut
  | responded unanswered provider unsettled owes same digest => exact ⟨jobs,rfl,rfl,rfl,rfl,rfl,id,id,stands⟩
  | settled unsettled empty => exact ⟨jobs,rfl,rfl,rfl,rfl,rfl,fun _ => Option.some_ne_none _,id,stands⟩

theorem offer_frozen (taken : channel.offer verifier offered = some after)
    (jobs : channel.book.jobs = ∅) (cut : channel.cutOff = true) : Frozen channel after := by
  rcases offer_cases taken with ⟨rfl,held⟩ | moved
  · exact .refl jobs
  · exact moved.frozen jobs cut

theorem reached_frozen {start : Channel} {offers : List Offer} (jobs : start.book.jobs = ∅)
    (cut : start.cutOff = true) : Frozen start (reached verifier start offers) := by
  refine Runs.run_invariant (fun _ => True) (Frozen start) (.refl jobs) ?_ offers fun _ _ => trivial
  intro before input next _ taken frozen
  exact frozen.trans (offer_frozen taken frozen.jobs (frozen.cutOff cut))

structure Owes (channel : Channel) (contest : OpenContest) (certificate : EarnedCertificate × Sig) :
    Prop where
  provider : channel.role = .provider
  unsettled : channel.funding.closeSettled = none
  unanswered : ¬channel.Answered
  contested : channel.funding.closeOpened = some contest
  opener : contest.opener = .maker
  timely : channel.funding.cursor.1 < contest.responseDeadline
  certified : channel.executableCertificate = some certificate
  understated : contest.claimed < certificate.1.earnedCumulative

omit [Xet] [Invocations] in
theorem answerableContest_some : channel.answerableContest = some owed ↔ channel.Owes owed.1 owed.2 := by
  obtain ⟨contest,certificate⟩ := owed
  unfold answerableContest
  constructor
  · intro owes
    split at owes
    · cases owes
    · rename_i fit
      simp only [not_or,not_not] at fit
      obtain ⟨provider,unsettled,unanswered⟩ := fit
      simp only [Option.bind_eq_bind,Option.bind_eq_some_iff] at owes
      obtain ⟨held,contested,owes⟩ := owes
      split at owes
      · cases owes
      · rename_i ongoing
        simp only [not_or,not_not,UInt64.not_le] at ongoing
        simp only [Option.bind_eq_some_iff,Option.filter_eq_some_iff,
          decide_eq_true_eq,Option.pure_def,Option.some.injEq,Prod.mk.injEq] at owes
        obtain ⟨best,⟨certified,understated⟩,rfl,rfl⟩ := owes
        exact ⟨provider,unsettled,unanswered,contested,ongoing.1,ongoing.2,certified,understated⟩
  · intro owes
    have fit : ¬(channel.role ≠ .provider ∨ channel.funding.closeSettled ≠ none ∨
        ∃ history ∈ channel.funding.closeHistory, history.pending.responded = true) := by
      simp only [not_or,not_not]
      exact ⟨owes.provider,owes.unsettled,owes.unanswered⟩
    have ongoing : ¬(contest.opener ≠ .maker ∨ contest.responseDeadline ≤ channel.funding.cursor.1) := by
      simp only [not_or,not_not,UInt64.not_le]
      exact ⟨owes.opener,owes.timely⟩
    rw [if_neg fit,owes.contested,owes.certified]
    simp only [Option.bind_eq_bind,Option.bind_some,if_neg ongoing]
    rw [Option.filter_some,decide_eq_true owes.understated]
    rfl

omit [Xet] [Invocations] in
theorem Frozen.owed (frozen : Frozen channel after) {owed : OpenContest × EarnedCertificate × Sig}
    (owes : after.answerableContest = some owed) : channel.answerableContest = some owed := by
  rw [answerableContest_some] at owes ⊢
  refine ⟨?_,?_,?_,?_,owes.opener,?_,?_,owes.understated⟩
  · exact frozen.standing.role.symm.trans owes.provider
  · by_contra settled
    exact frozen.settled settled owes.unsettled
  · exact fun answered => owes.unanswered (frozen.answered answered)
  · exact frozen.contest.symm.trans owes.contested
  · exact UInt64.lt_of_le_of_lt frozen.standing.height owes.timely
  · exact frozen.certificate.symm.trans owes.certified

def answerOf (taken : Runs.Transition Channel Offer) : Option RespondedContest :=
  match taken.input.1 with
  | .closeResponded answer => if taken.after = taken.before then none else some answer
  | _ => none

def answers (past : List (Runs.Transition Channel Offer)) : List RespondedContest := past.filterMap answerOf

def Answers (channel : Channel) (answer : RespondedContest) : Prop :=
  ∃ contest certificate signature, channel.funding.closeOpened = some contest ∧
    channel.executableCertificate = some (certificate, signature) ∧
    answer.startId = contest.startId ∧
    answer.responseDigest = responseBodyDigest channel.funding.channel contest.startId certificate

structure Replies (past : List (Runs.Transition Channel Offer)) (channel : Channel) : Prop where
  idle : channel.Idle
  once : (answers past).length ≤ 1
  unanswered : channel.funding.closeResponded = none → answers past = []
  named : ∀ answer ∈ answers past, channel.Answers answer

omit [Invocations] in
theorem Answers.frozen (answers : channel.Answers answer) (frozen : Frozen channel after) : after.Answers answer := by
  obtain ⟨contest,certificate,signature,contested,certified,start,digest⟩ := answers
  refine ⟨contest,certificate,signature,frozen.contest.trans contested,frozen.certificate.trans certified,start,?_⟩
  rw [frozen.standing.paid]
  exact digest

omit [Invocations] in
theorem Answers.cutOff (answers : channel.Answers answer) : channel.cutOff = true := by
  obtain ⟨contest,_,_,contested,_⟩ := answers
  rw [Channel.cutOff,contested]
  rfl

theorem Moved.responds (moved : Moved verifier channel metadataOnly record after) :
    after.funding.closeResponded = channel.funding.closeResponded ∧ (∀ answer, record ≠ .closeResponded answer) ∨
      ∃ answer, record = .closeResponded answer ∧ channel.funding.closeResponded = none ∧
        after.funding.closeResponded = some answer ∧ after.Answers answer := by
  cases moved with
  | @responded answer owed unanswered provider unsettled owes same digest =>
    have rests := answerableContest_some.mp owes
    refine .inr ⟨answer,rfl,unanswered,rfl,owed.1,owed.2.1,owed.2.2,rests.contested,rests.certified,same.symm,?_⟩
    rw [same]
    exact digest
  | _ => exact .inl ⟨rfl,fun _ other => nomatch other⟩

theorem Replies.offer (replies : Replies past channel) (taken : channel.offer verifier offered = some after) :
    Replies (past ++ [⟨channel,offered,after⟩]) after := by
  have idle := replies.idle.offer taken
  have named : ∀ answer ∈ answers past, after.Answers answer := by
    intro answer given
    have held := replies.named answer given
    have closing := isClosing_of_cutOff held.cutOff
    exact held.frozen (offer_frozen taken (replies.idle closing) held.cutOff)
  have grown : answers (past ++ [⟨channel,offered,after⟩]) =
      answers past ++ (answerOf ⟨channel,offered,after⟩).toList := Runs.filterMap_snoc
  rcases offer_cases taken with ⟨same,held⟩ | moved
  · have silent : answerOf ⟨channel,offered,after⟩ = none := by
      unfold answerOf
      split
      · exact if_pos same
      · rfl
    rw [silent,Option.toList_none,List.append_nil] at grown
    refine ⟨idle,grown ▸ replies.once,?_,grown ▸ named⟩
    rw [grown,same]
    exact replies.unanswered
  · rcases moved.responds with ⟨kept,other⟩ | ⟨answer,is,before,now,answered⟩
    · have silent : answerOf ⟨channel,offered,after⟩ = none := by
        unfold answerOf
        split
        · rename_i answer given
          exact absurd given (other answer)
        · rfl
      rw [silent,Option.toList_none,List.append_nil] at grown
      refine ⟨idle,grown ▸ replies.once,?_,grown ▸ named⟩
      rw [grown,kept]
      exact replies.unanswered
    · have changed : after ≠ channel := by
        intro same
        rw [same,before] at now
        cases now
      have spoken : answerOf ⟨channel,offered,after⟩ = some answer := by
        unfold answerOf
        rw [is]
        exact if_neg changed
      rw [spoken,replies.unanswered before] at grown
      refine ⟨idle,?_,?_,?_⟩
      · rw [grown]
        exact Nat.le_refl 1
      · rw [now]
        intro vacant
        cases vacant
      · intro given listed
        rw [grown] at listed
        cases List.mem_singleton.mp listed
        exact answered

theorem reached_replies {start : Channel} {offers : List Offer} (idle : start.Idle) :
    Replies (Runs.trace (offer verifier) start offers) (reached verifier start offers) := by
  refine Runs.run_history (fun _ => True) (motive := Replies) ?_ ?_ offers fun _ _ => trivial
  · exact ⟨idle,Nat.zero_le 1,fun _ => rfl,fun _ given => nomatch given⟩
  · intro past before input next _ taken replies
    exact replies.offer taken

structure Cutoff (verifier : SigVerifier) (start : Channel) (early late : List Offer) : Prop where
  idle : (reached verifier start early).isClosing = true →
    (reached verifier start early).book.jobs = ∅
  jobs : (reached verifier start early).cutOff = true →
    (reached verifier start (early ++ late)).book.jobs = ∅
  terminals : (reached verifier start early).cutOff = true →
    (reached verifier start (early ++ late)).book.terminals =
      (reached verifier start early).book.terminals
  ledger : (reached verifier start early).cutOff = true →
    (reached verifier start (early ++ late)).ledger = (reached verifier start early).ledger
  nonce : (reached verifier start early).cutOff = true →
    (reached verifier start (early ++ late)).book.proposalNonceHighWater =
      (reached verifier start early).book.proposalNonceHighWater
  contest : (reached verifier start early).cutOff = true →
    (reached verifier start (early ++ late)).funding.closeOpened =
      (reached verifier start early).funding.closeOpened
  certificate : (reached verifier start early).cutOff = true →
    (reached verifier start (early ++ late)).executableCertificate =
      (reached verifier start early).executableCertificate
  unprepared : (reached verifier start early).cutOff = true →
    ∀ taken ∈ Runs.trace (offer verifier) (reached verifier start early) late, ∀ signed,
      taken.input.1 = .closePrepared signed → taken.after = taken.before
  once : (answers (Runs.trace (offer verifier) start early)).length ≤ 1
  answer : ∀ answer ∈ answers (Runs.trace (offer verifier) start early),
    (reached verifier start early).Answers answer
  silent : (reached verifier start early).funding.closeOpened ≠ none →
    (reached verifier start early).answerableContest = none →
    (reached verifier start (early ++ late)).answerableContest = none
  same : (reached verifier start early).funding.closeOpened ≠ none → ∀ owed again,
    (reached verifier start early).answerableContest = some owed →
    (reached verifier start (early ++ late)).answerableContest = some again → again = owed

omit [Xet] [Invocations] in
theorem new_idle {paid : PaidChannel} {settlement : WorkPaymentSettlement} {role : Role} :
    (Channel.new paid settlement role origin).Idle := fun _ => rfl

theorem prepared_keeps (frozen : Frozen channel after)
    (moved : Moved verifier channel metadataOnly (.closePrepared signed) after) : False := by
  cases moved with
  | prepared other => exact other frozen.prepared.symm

theorem close_freezes (verifier : SigVerifier) (paid : PaidChannel) (settlement : WorkPaymentSettlement) (role : Role)
    (origin : SetupOrigin) (early late : List Offer) :
    Cutoff verifier (Channel.new paid settlement role origin) early late := by
  have idle : (reached verifier (Channel.new paid settlement role origin) early).Idle :=
    reached_idle new_idle
  have replies := @reached_replies _ _ verifier (Channel.new paid settlement role origin) early
    new_idle
  have frozen (cut : (reached verifier (Channel.new paid settlement role origin) early).cutOff =
      true) : Frozen (reached verifier (Channel.new paid settlement role origin) early)
        (reached verifier (Channel.new paid settlement role origin) (early ++ late)) := by
    have later := @reached_frozen _ _ verifier _ late (idle (isClosing_of_cutOff cut)) cut
    unfold reached at later ⊢
    rw [Runs.run_append]
    exact later
  have contested (opened : (reached verifier (Channel.new paid settlement role origin)
      early).funding.closeOpened ≠ none) :
      (reached verifier (Channel.new paid settlement role origin) early).cutOff = true := by
    rw [cutOff,Option.isSome_iff_ne_none.mpr opened]
    rfl
  refine ⟨idle,?_,?_,?_,?_,?_,?_,?_,replies.once,replies.named,?_,?_⟩
  · exact fun cut => (frozen cut).jobs
  · exact fun cut => (frozen cut).terminals
  · exact fun cut => (frozen cut).ledger
  · exact fun cut => (frozen cut).nonce
  · exact fun cut => (frozen cut).contest
  · exact fun cut => (frozen cut).certificate
  · intro cut taken member signed is
    have empty := idle (isClosing_of_cutOff cut)
    have held := Runs.trace_invariant (fun _ => True)
      (fun state : Channel => state.book.jobs = ∅ ∧ state.cutOff = true) ⟨empty,cut⟩
      (fun before input next _ stepped holds =>
        ⟨(offer_frozen stepped holds.1 holds.2).jobs,
          (offer_frozen stepped holds.1 holds.2).cutOff holds.2⟩) late (fun _ _ => trivial) taken member
    obtain ⟨⟨unended,shut⟩,_,stepped⟩ := held
    rcases offer_cases stepped with ⟨same,held⟩ | moved
    · exact same
    · rw [is] at moved
      exact (prepared_keeps (moved.frozen unended shut) moved).elim
  · intro opened silent
    by_contra owes
    obtain ⟨owed,owes⟩ := Option.ne_none_iff_exists'.mp owes
    rw [(frozen (contested opened)).owed owes] at silent
    cases silent
  · intro opened owed again first second
    rw [(frozen (contested opened)).owed second] at first
    exact Option.some.inj first

end Channel

end Hellas.Work
