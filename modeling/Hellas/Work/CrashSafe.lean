import Hellas.Work.Observe

-- Reading a block again after a crash: every commit the interrupted run made is met as done, and
-- the rest ends as it would have ended.

namespace Hellas.Work

open Authority (Digest)
open Guard Kernel Retry Words

namespace Channel

-- What a state on the way through one block has of the states before it.
structure Onward (channel after : Channel) : Prop where
  role : after.role = channel.role
  paid : after.funding.channel = channel.funding.channel
  cursor : after.funding.cursor = channel.funding.cursor
  jobs : ∀ work job, after.book.jobs.lookup work = some job →
    channel.book.jobs.lookup work = some job
  opened : ∀ contest, channel.funding.closeOpened = some contest →
    after.funding.closeOpened = some contest
  settled : ∀ settlement, channel.funding.closeSettled = some settlement →
    after.funding.closeSettled = some settlement

namespace Onward

variable {channel : Channel}

theorem refl : Onward channel channel := ⟨rfl,rfl,rfl,fun _ _ held => held,fun _ held => held,fun _ held => held⟩

theorem trans (first : Onward channel after) (second : Onward after next) :
    Onward channel next where
  role := second.role.trans first.role
  paid := second.paid.trans first.paid
  cursor := second.cursor.trans first.cursor
  jobs work job held := first.jobs work job (second.jobs work job held)
  opened contest held := second.opened contest (first.opened contest held)
  settled settlement held := second.settled settlement (first.settled settlement held)

theorem no_jobs (onward : Onward channel after) (empty : channel.book.jobs = ∅) : after.book.jobs = ∅ := by
  apply Finmap.ext_lookup
  intro work
  rw [Finmap.lookup_empty]
  cases held : after.book.jobs.lookup work with
  | none => rfl
  | some job =>
    have before := onward.jobs work job held
    rw [empty,Finmap.lookup_empty] at before
    cases before

end Onward

theorem crossed_onward (filed : Filed channel) (filed' : Filed after)
    (onward : Onward channel after) (held : after.book.jobs.lookup work = some job) :
    after.crossed height job = channel.crossed height job := by
  have unpaid : ∀ state : Channel, Filed state → state.book.jobs.lookup work = some job → state.payment job.workId = none := by
    intro state own found
    have unended := own.apart work (by rw [found]; exact Option.some_ne_none _)
    rw [payment,own.job work job found,unended]
    rfl
  unfold crossed
  rw [onward.role,unpaid channel filed (onward.jobs work job held),unpaid after filed' held]

end Channel

section Commits

variable [Xet] [Invocations] [Checkpoints] {verifier : SigVerifier} {channel : Channel}
  {record : ChannelRecord}

-- What a commit may end in: refused, already held, or one step further.
inductive Commits (verifier : SigVerifier) (channel : Channel) (record : ChannelRecord) :
    Ran Channel WorkStoreError → Prop where
  | refused {failure : WorkStoreError} : Commits verifier channel record ⟨[],some failure⟩
  | held : channel.Held record → Commits verifier channel record ⟨[],none⟩
  | moved {next : Channel} : channel.Moved verifier false record next →
      Commits verifier channel record ⟨[next],none⟩

theorem commit_commits : Commits verifier channel record (commit verifier record channel) := by
  unfold commit
  split
  · exact .refused
  · rename_i after accepted
    cases Channel.apply_outcome accepted with
    | redundant held => exact .held held
  · rename_i next accepted
    cases Channel.apply_outcome accepted with
    | changed moved =>
      split
      · exact .moved moved
      · split
        · exact .refused
        · exact .moved moved

theorem commit_held {channel' : Channel} (held : channel.apply verifier record false = .ok (channel', .redundant)) :
    commit verifier record channel = ⟨[],none⟩ := by
  unfold commit
  rw [held]

theorem commit_expired {work : Digest} {job : PaidJob} {deadline height : UInt64} {payload : FixedBytes 32}
    (filed : channel.Filed) (held : channel.book.jobs.lookup work = some job) :
    (∃ failure, commit verifier (.jobTerminated work (.expired deadline height payload)) channel = ⟨[],some failure⟩) ∨
      commit verifier (.jobTerminated work (.expired deadline height payload)) channel =
        ⟨[{ channel with book := channel.rest job (.expired deadline height payload) }],none⟩ := by
  have unended := filed.apart work (by rw [held]; exact Option.some_ne_none _)
  have found : channel.book.openJob work "terminating the job" = .ok job := JobBook.openJob_ok.mpr held
  have accepted : channel.apply verifier (.jobTerminated work (.expired deadline height payload)) false =
      .ok ({ channel with book := channel.rest job (.expired deadline height payload) }, .changed) := by
    unfold Channel.apply Channel.applyTerminated
    dsimp only
    rw [unended]
    simp only [bind_ok,rejectIf_ok]
    exact ⟨(),fun both => Bool.false_ne_true both.1,job,found,rfl⟩
  unfold commit
  rw [accepted]
  dsimp only [ChannelRecord.checkpointTail]
  split
  · exact .inl ⟨_,rfl⟩
  · exact .inr rfl

end Commits

section Sweeps

open Channel (Onward Filed)

variable [Xet] [Invocations] [Checkpoints]

def dueEnds (block : FinalizedWork) (due : Channel → PaidJob → Option UInt64) (channel : Channel) :
    List (Digest × TerminalOutcome) :=
  channel.book.jobs.values.filterMap fun job =>
    (due channel job).map fun deadline => (job.workId, .expired deadline block.height block.payload)

def sweep (verifier : SigVerifier) (block : FinalizedWork) (due : Channel → PaidJob → Option UInt64) : Step := fun channel =>
  endEach verifier (dueEnds block due channel) channel

def Steady (due : Channel → PaidJob → Option UInt64) : Prop :=
  ∀ channel after work job, Filed channel → Filed after → Onward channel after →
    after.book.jobs.lookup work = some job → due after job = due channel job

variable {verifier : SigVerifier} {block : FinalizedWork}
  {due : Channel → PaidJob → Option UInt64} {channel : Channel}

omit [Xet] [Invocations] [Checkpoints] in
theorem mem_dueEnds {work : Digest} {outcome : TerminalOutcome} (filed : Filed channel)
    (listed : (work, outcome) ∈ dueEnds block due channel) :
    ∃ job deadline, channel.book.jobs.lookup work = some job ∧ due channel job = some deadline ∧
      outcome = .expired deadline block.height block.payload := by
  obtain ⟨job,held,made⟩ := List.mem_filterMap.mp listed
  obtain ⟨key,found⟩ := Slots.mem_values.mp held
  obtain ⟨deadline,late,same⟩ := Option.map_eq_some_iff.mp made
  cases same
  refine ⟨job,deadline,?_,late,rfl⟩
  rw [filed.job key job found]
  exact found

omit [Xet] [Invocations] [Checkpoints] in
theorem dueEnds_distinct (filed : Filed channel) : ((dueEnds block due channel).map Prod.fst).Nodup := by
  have each : ∀ jobs : List PaidJob, ((jobs.filterMap fun job =>
      (due channel job).map fun deadline => (job.workId,
        TerminalOutcome.expired deadline block.height block.payload)).map Prod.fst).Sublist
      (jobs.map JobState.workId) := by
    intro jobs
    induction jobs with
    | nil => exact .slnil
    | cons job jobs ih =>
      cases late : due channel job with
      | none =>
        rw [List.filterMap_cons_none (by rw [late]; rfl),List.map_cons]
        exact ih.cons _
      | some deadline =>
        rw [List.filterMap_cons_some (by rw [late]; rfl),List.map_cons,List.map_cons]
        exact ih.cons_cons _
  refine (each channel.book.jobs.values).nodup ?_
  rw [Slots.values_keys filed.job]
  exact Ranked.sorted_nodup

omit [Xet] [Invocations] [Checkpoints] in
theorem dueEnds_rest (steady : Steady due) (filed : Filed channel) (filed' : Filed after)
    (onward : Onward channel after) (jobs : after.book.jobs = channel.book.jobs.erase work)
    (ends : dueEnds block due channel = (work, outcome) :: rest) :
    dueEnds block due after = rest := by
  have same : dueEnds block due after = (dueEnds block due channel).filter fun ended => ended.1 ≠ work := by
    unfold dueEnds
    have alike : ∀ ongoing ∈ after.book.jobs.values, due after ongoing = due channel ongoing := by
      intro ongoing listed
      obtain ⟨key,found⟩ := Slots.mem_values.mp listed
      exact steady channel after key ongoing filed filed' onward found
    rw [List.filterMap_congr (fun ongoing listed => by rw [alike ongoing listed]),jobs,
      Slots.values_erase filed.job,List.filterMap_filter,List.filter_filterMap]
    refine List.filterMap_congr fun ongoing listed => ?_
    cases late : due channel ongoing with
    | none => simp
    | some deadline => by_cases own : ongoing.workId = work <;> simp [own,Option.filter_some]
  have distinct := @dueEnds_distinct block due channel filed
  rw [ends,List.map_cons,List.nodup_cons] at distinct
  rw [same,ends,List.filter_cons_of_neg (by simp)]
  refine List.filter_eq_self.mpr fun ended listed => decide_eq_true ?_
  intro clash
  exact distinct.1 (List.mem_map.mpr ⟨ended,listed,clash⟩)

omit [Xet] [Invocations] [Checkpoints] in
theorem ended_onward : Onward channel { channel with book := channel.rest job outcome } where
  role := rfl
  paid := rfl
  cursor := rfl
  jobs work other held := by
    simp only [Channel.rest,JobBook.restAt,Slots.lookup_erase_if] at held
    split at held
    · cases held
    · exact held
  opened _ held := held
  settled _ held := held

theorem sweep_unrolls (steady : Steady due) :
    Unrolls (sweep verifier block due) Filed Onward (fun state => dueEnds block due state = [])
      (fun state => (dueEnds block due state).length) where
  refl _ := .refl
  trans _ _ _ := .trans
  step := by
    intro channel filed
    unfold sweep
    cases ends : dueEnds block due channel with
    | nil => exact .inl ⟨rfl,rfl⟩
    | cons ended rest =>
      obtain ⟨work,outcome⟩ := ended
      obtain ⟨job,deadline,held,late,rfl⟩ := @mem_dueEnds block due channel work outcome filed (by rw [ends]; exact List.mem_cons_self)
      change _ ∨ (∃ failure, andThen _ (endEach verifier rest) channel = _) ∨ _
      rcases @commit_expired _ _ _ verifier channel work job deadline block.height block.payload filed held with ⟨failure,refused⟩ | moved
      · refine .inr (.inl ⟨failure,?_⟩)
        unfold andThen
        rw [refused]
      · have own := filed.job work job held
        have kept : Filed { channel with
            book := channel.rest job (.expired deadline block.height block.payload) } :=
          filed.rest held rfl
        have left := dueEnds_rest steady filed kept ended_onward (by rw [← own]; rfl) ends
        refine .inr (.inr ⟨_,kept,ended_onward,?_,?_⟩)
        · rw [left]
          exact Nat.lt_succ_self _
        · rw [left]
          change andThen _ (endEach verifier rest) channel = _
          unfold andThen
          rw [moved]
          rfl

omit [Xet] [Invocations] [Checkpoints] in
theorem crossed_steady : Steady fun channel job => channel.crossed height job :=
  fun _ _ _ _ filed filed' onward held => Channel.crossed_onward filed filed' onward held

theorem expire_unrolls :
    Unrolls (expire verifier block) Filed Onward (fun state => state.expiryAt block.height block.payload = [])
      (fun state => (state.expiryAt block.height block.payload).length) :=
  have steady : Steady fun channel job => channel.crossed block.height job := crossed_steady
  sweep_unrolls steady

theorem cutoff_sweeps : cutoff verifier block = sweep verifier block fun _ job => some job.authorization.paymentDeadline := by
  funext channel
  unfold cutoff sweep dueEnds
  simp only [Option.map_some,List.filterMap_eq_map']

omit [Xet] [Invocations] [Checkpoints] in
theorem jobs_empty (spent : channel.book.jobs.values = []) : channel.book.jobs = ∅ :=
  have passed : channel.refuseOpenJob "" = .ok () := by rw [Channel.refuseOpenJob,spent]
  Channel.refuseOpenJob_ok.mp passed

theorem cutoff_unrolls :
    Unrolls (cutoff verifier block) Filed Onward (fun state => state.book.jobs = ∅)
      (fun state => (dueEnds block (fun _ job => some job.authorization.paymentDeadline) state).length) := by
  rw [cutoff_sweeps]
  have steady : Steady fun _ job => some job.authorization.paymentDeadline := fun _ _ _ _ _ _ _ _ => rfl
  obtain ⟨refl,trans,step⟩ := @sweep_unrolls _ _ _ verifier block _ steady
  refine ⟨refl,trans,fun state filed => ?_⟩
  rcases step state filed with ⟨done,ran⟩ | failed | goes
  · refine .inl ⟨jobs_empty ?_,ran⟩
    simp only [dueEnds,Option.map_some,List.filterMap_eq_map',List.map_eq_nil_iff] at done
    exact done
  · exact .inr (.inl failed)
  · exact .inr (.inr goes)

theorem cutoff_settled (empty : channel.book.jobs = ∅) : cutoff verifier block channel = ⟨[],none⟩ := by
  unfold cutoff
  rw [empty]
  rfl

end Sweeps

section Duties

open Channel (Onward Filed Held Moved)

variable [Xet]

-- The two records that say the channel's edge is being closed, or is.
inductive Closing : ChannelRecord → Prop where
  | opened (contest : OpenContest) : Closing (.closeOpened contest)
  | settled (settlement : CloseSettlement) : Closing (.closeSettled settlement)

def closing (block : FinalizedWork) (channel : PaidChannel) : Tx → Option ChannelRecord
  | .move (.startPaymentClose start) =>
    if start.paymentEdge = channel.paymentEdge then
      some (.closeOpened (openedBy channel block.height start))
    else none
  | .closeEdge input _ outputs =>
    if input = channel.paymentEdge then
      some (.closeSettled ⟨block.height,block.payload,providerPayout channel outputs⟩)
    else none
  | _ => none

variable {block : FinalizedWork} {record : ChannelRecord} {channel : Channel}

variable {tx : Tx}

theorem closing_closes (told : closing block paid tx = some record) : Closing record := by
  unfold closing at told
  split at told
  · split at told
    · cases told
      exact .opened _
    · cases told
  · split at told
    · cases told
      exact .settled _
    · cases told
  · cases told

variable [Invocations] {verifier : SigVerifier}

theorem Closing.moves (closes : Closing record) (filed : Filed channel) (moved : channel.Moved verifier false record after) :
    Filed after ∧ Onward channel after ∧ after.book = channel.book ∧ after.Held record := by
  refine ⟨filed.booked moved.booked,?_⟩
  cases closes with
  | opened contest =>
    cases moved with
    | opened vacant =>
      refine ⟨⟨rfl,rfl,rfl,fun _ _ held => held,?_,fun _ held => held⟩,rfl,.opened rfl⟩
      intro other held
      rw [vacant] at held
      cases held
  | settled settlement =>
    cases moved with
    | settled vacant =>
      refine ⟨⟨rfl,rfl,rfl,fun _ _ held => held,fun _ held => held,?_⟩,rfl,.settled rfl⟩
      intro other held
      rw [vacant] at held
      cases held

omit [Invocations] in
theorem Closing.stays (closes : Closing record) (onward : Onward channel after) (held : channel.Held record) : after.Held record := by
  cases closes with
  | opened contest =>
    cases held with
    | opened holds => exact .opened (onward.opened _ holds)
  | settled settlement =>
    cases held with
    | settled holds => exact .settled (onward.settled _ holds)

variable [Checkpoints]

theorem Closing.settled_commit (closes : Closing record) (held : channel.Held record) :
    commit verifier record channel = ⟨[],none⟩ := by
  cases closes with
  | opened contest =>
    cases held with
    | opened holds =>
      refine @commit_held _ _ _ _ _ _ channel ?_
      exact if_pos holds
  | settled settlement =>
    cases held with
    | settled holds =>
      refine @commit_held _ _ _ _ _ _ channel ?_
      exact if_pos holds

-- Clearing the jobs and then saying why.
def conclude (verifier : SigVerifier) (block : FinalizedWork) (record : ChannelRecord) : Step :=
  andThen (cutoff verifier block) (commit verifier record)

theorem applyTx_closing : applyTx verifier block tx channel =
    (closing block channel.funding.channel tx).elim (nothing channel) fun record =>
      conclude verifier block record channel := by
  cases tx with
  | move action =>
    cases action with
    | startPaymentClose start =>
      simp only [applyTx,closing]
      split <;> rfl
    | _ => rfl
  | closeEdge input proof outputs =>
    simp only [applyTx,closing]
    split <;> rfl
  | _ => rfl

theorem Closing.commit_cases (closes : Closing record) (filed : Filed channel) :
    (∃ failure, commit verifier record channel = ⟨[],some failure⟩) ∨ channel.Held record ∧ commit verifier record channel = ⟨[],none⟩ ∨
      ∃ next, (Filed next ∧ Onward channel next ∧ next.book = channel.book ∧ next.Held record) ∧
        commit verifier record channel = ⟨[next],none⟩ := by
  have ran := @commit_commits _ _ _ verifier channel record
  generalize commit verifier record channel = made at ran
  cases ran with
  | refused => exact .inl ⟨_,rfl⟩
  | held held => exact .inr (.inl ⟨held,rfl⟩)
  | moved moved => exact .inr (.inr ⟨_,closes.moves filed moved,rfl⟩)

theorem Closing.commit_advances (closes : Closing record) : Advances Filed Onward (commit verifier record) := by
  intro channel filed stop listed
  rcases closes.commit_cases filed with ⟨failure,ran⟩ | ⟨-,ran⟩ | ⟨next,⟨kept,onward,-⟩,ran⟩
  · rw [ran] at listed
    cases listed
  · rw [ran] at listed
    cases listed
  · rw [ran] at listed
    rw [List.mem_singleton.mp listed]
    exact ⟨kept,onward⟩

theorem Closing.conclude_advances (closes : Closing record) : Advances Filed Onward (conclude verifier block record) :=
  .andThen (fun _ => .refl) (fun _ _ _ => .trans) cutoff_unrolls.advances closes.commit_advances

def Concluded (record : ChannelRecord) (channel : Channel) : Prop := channel.book.jobs = ∅ ∧ channel.Held record

theorem Closing.conclude_finishes (closes : Closing record) (filed : Filed channel)
    (passed : (conclude verifier block record channel).failure = none) :
    Concluded record ((conclude verifier block record channel).final channel) := by
  unfold conclude at passed ⊢
  cases failed : (cutoff verifier block channel).failure with
  | some failure =>
    rw [(andThen_failed failed).1] at passed
    cases passed
  | none =>
    obtain ⟨failure,ends,-⟩ := @andThen_passed _ _ (cutoff verifier block) (commit verifier record) channel failed
    obtain ⟨kept,-⟩ := (@cutoff_unrolls _ _ _ verifier block).advances.final (fun _ => .refl) filed
    have empty := (@cutoff_unrolls _ _ _ verifier block).finishes filed failed
    rw [failure] at passed
    rw [ends]
    rcases @Closing.commit_cases _ _ _ _ verifier _ closes kept with ⟨refused,ran⟩ | ⟨held,ran⟩ | ⟨next,⟨-,-,book,held⟩,ran⟩
    · rw [ran] at passed
      cases passed
    · rw [ran]
      exact ⟨empty,held⟩
    · rw [ran]
      exact ⟨(congrArg JobBook.jobs book).trans empty,held⟩

theorem Closing.conclude_settled (closes : Closing record) (concluded : Concluded record channel) :
    Settled (conclude verifier block record) channel := by
  obtain ⟨empty,held⟩ := concluded
  have cleared : Settled (cutoff verifier block) channel := by
    unfold Settled
    rw [cutoff_settled empty]
    exact ⟨rfl,rfl⟩
  obtain ⟨failure,ends⟩ := @andThen_settled _ _ (cutoff verifier block) (commit verifier record) channel cleared
  rw [closes.settled_commit held] at failure ends
  exact ⟨failure,ends⟩

theorem Closing.conclude_resumes (closes : Closing record) (filed : Filed channel) :
    Resumes (conclude verifier block record) channel := by
  refine resumes_andThen (cutoff_unrolls.resumes filed) fun failed => ?_
  obtain ⟨kept,-⟩ := (@cutoff_unrolls _ _ _ verifier block).advances.final (fun _ => .refl) filed
  have empty := (@cutoff_unrolls _ _ _ verifier block).finishes filed failed
  rcases @Closing.commit_cases _ _ _ _ verifier _ closes kept with ⟨refused,ran⟩ | ⟨held,ran⟩ | ⟨next,⟨-,-,book,held⟩,ran⟩
  · rw [Resumes,ran]
    exact ⟨fun _ listed => absurd listed List.not_mem_nil,
      fun _ listed => absurd listed List.not_mem_nil⟩
  · rw [Resumes,ran]
    exact ⟨fun _ listed => absurd listed List.not_mem_nil,
      fun _ listed => absurd listed List.not_mem_nil⟩
  · rw [Resumes,ran]
    refine ⟨fun stop listed => ?_,fun stop listed => ?_⟩
    · rw [List.mem_singleton.mp listed,closes.settled_commit held]
      exact ⟨rfl,rfl⟩
    · rw [List.mem_singleton.mp listed,Settled,
        cutoff_settled ((congrArg JobBook.jobs book).trans empty)]
      exact ⟨rfl,rfl⟩

-- What a block asks for before its history is kept: the late jobs, then each transaction.
inductive Duty where
  | expiry
  | tx (tx : Tx)

def Duty.run (verifier : SigVerifier) (block : FinalizedWork) : Duty → Step
  | .expiry => expire verifier block
  | .tx carried => applyTx verifier block carried

def Duty.Done (block : FinalizedWork) : Duty → Channel → Prop
  | .expiry, channel => channel.expiryAt block.height block.payload = []
  | .tx carried, channel => ∀ record,
      closing block channel.funding.channel carried = some record → Concluded record channel

theorem applyTx_unconcerned (silent : closing block channel.funding.channel tx = none) :
    applyTx verifier block tx channel = ⟨[],none⟩ := by
  rw [applyTx_closing,silent]
  rfl

theorem applyTx_told (told : closing block channel.funding.channel tx = some record) :
    applyTx verifier block tx channel = conclude verifier block record channel := by
  rw [applyTx_closing,told]
  rfl

theorem applyTx_advances {tx : Tx} : Advances Filed Onward (applyTx verifier block tx) := by
  intro channel filed stop listed
  cases told : closing block channel.funding.channel tx with
  | none =>
    rw [applyTx_unconcerned told] at listed
    cases listed
  | some record =>
    rw [applyTx_told told] at listed
    exact (closing_closes told).conclude_advances channel filed stop listed

theorem applyTx_finishes (filed : Filed channel) (passed : (applyTx verifier block tx channel).failure = none) :
    Duty.Done block (.tx tx) ((applyTx verifier block tx channel).final channel) := by
  obtain ⟨-,onward⟩ := (@applyTx_advances _ _ _ verifier _ tx).final (fun _ => Onward.refl) filed
  intro record told
  rw [onward.paid] at told
  rw [applyTx_told told] at passed ⊢
  exact (closing_closes told).conclude_finishes filed passed

theorem applyTx_settled (done : Duty.Done block (.tx tx) channel) : Settled (applyTx verifier block tx) channel := by
  cases told : closing block channel.funding.channel tx with
  | none =>
    rw [Settled,applyTx_unconcerned told]
    exact ⟨rfl,rfl⟩
  | some record =>
    rw [Settled,applyTx_told told]
    exact (closing_closes told).conclude_settled (done record told)

theorem applyTx_resumes (filed : Filed channel) : Resumes (applyTx verifier block tx) channel := by
  intro stop listed
  obtain ⟨-,onward⟩ := applyTx_advances channel filed stop listed
  cases told : closing block channel.funding.channel tx with
  | none =>
    rw [applyTx_unconcerned told] at listed
    cases listed
  | some record =>
    have again : closing block stop.funding.channel tx = some record := by
      rw [onward.paid]
      exact told
    rw [applyTx_told told] at listed
    rw [applyTx_told told,applyTx_told again]
    exact (closing_closes told).conclude_resumes filed stop listed

omit [Xet] [Invocations] [Checkpoints] in
theorem expiryAt_onward (filed : Filed channel) (filed' : Filed after)
    (onward : Onward channel after) (spent : channel.expiryAt block.height block.payload = []) :
    after.expiryAt block.height block.payload = [] := by
  refine List.filterMap_eq_nil_iff.mpr fun job listed => ?_
  obtain ⟨work,held⟩ := Slots.mem_values.mp listed
  rw [Channel.crossed_onward filed filed' onward held]
  refine List.filterMap_eq_nil_iff.mp spent job (Slots.mem_values.mpr ⟨work,?_⟩)
  exact onward.jobs work job held

theorem expire_settled (spent : channel.expiryAt block.height block.payload = []) :
    Settled (expire verifier block) channel := by
  rw [Settled,expire,spent]
  exact ⟨rfl,rfl⟩

theorem duties_forward : Forward (Duty.run verifier block) Filed Onward (Duty.Done block) where
  refl _ := .refl
  trans _ _ _ := .trans
  advances duty := by
    cases duty with
    | expiry => exact expire_unrolls.advances
    | tx tx => exact applyTx_advances
  finishes duty channel filed passed := by
    cases duty with
    | expiry => exact expire_unrolls.finishes filed passed
    | tx tx => exact applyTx_finishes filed passed
  keeps duty channel after filed filed' onward done := by
    cases duty with
    | expiry => exact expiryAt_onward filed filed' onward done
    | tx tx =>
      intro record told
      rw [onward.paid] at told
      obtain ⟨empty,held⟩ := done record told
      exact ⟨onward.no_jobs empty,(closing_closes told).stays onward held⟩
  settled duty channel filed done := by
    cases duty with
    | expiry => exact expire_settled done
    | tx tx => exact applyTx_settled done
  resumes duty channel filed := by
    cases duty with
    | expiry => exact expire_unrolls.resumes filed
    | tx tx => exact applyTx_resumes filed

end Duties

section Reading

open Channel (Onward Filed Held Moved)

variable [Xet] [Invocations] [Checkpoints] {verifier : SigVerifier} {block : FinalizedWork}

omit [Xet] [Invocations] [Checkpoints] in
theorem nextHistory_past (kept : channel.funding.closeHistory = some history) :
    nextHistory channel contest ≠ some history.height := by
  unfold nextHistory
  rw [kept]
  intro same
  have more := checkedAdd_exact.mp same
  rw [show (1 : UInt64).toNat = 1 from rfl] at more
  omega

theorem retainHistory_kept (kept : channel.funding.closeHistory = some history) (same : history.height = block.height) :
    retainHistory verifier block channel = ⟨[],none⟩ := by
  unfold retainHistory
  split
  · rw [if_neg]
    · rfl
    · exact fun both => nextHistory_past kept (same ▸ both.2)
  · rfl

theorem retainHistory_cases (filed : Filed channel) :
    (retainHistory verifier block channel).stops = [] ∨ ∃ next, Filed next ∧ Onward channel next ∧
        retainHistory verifier block channel = ⟨[next],none⟩ ∧
        retainHistory verifier block next = ⟨[],none⟩ := by
  unfold retainHistory
  split
  · rename_i contest unsettled opened
    split
    · split
      · exact .inl rfl
      · rename_i pending kept
        have ran := @commit_commits _ _ _ verifier channel (.closeHistoryAdvanced block.parent ⟨block.height,block.payload,pending⟩)
        generalize commit verifier (.closeHistoryAdvanced block.parent ⟨block.height,block.payload,pending⟩) channel = made at ran
        cases ran with
        | refused => exact .inl rfl
        | held held => exact .inl rfl
        | moved moved =>
          refine .inr ⟨_,filed.booked moved.booked,?_,rfl,?_⟩
          · cases moved
            exact ⟨rfl,rfl,rfl,fun _ _ held => held,fun _ held => held,fun _ held => held⟩
          · cases moved
            exact retainHistory_kept rfl rfl
    · exact .inl rfl
  · exact .inl rfl

theorem retainHistory_advances : Advances Filed Onward (retainHistory verifier block) := by
  intro channel filed stop listed
  rcases retainHistory_cases filed with stays | ⟨next,kept,onward,ran,-⟩
  · rw [stays] at listed
    cases listed
  · rw [ran] at listed
    rw [List.mem_singleton.mp listed]
    exact ⟨kept,onward⟩

theorem retainHistory_resumes (filed : Filed channel) : Resumes (retainHistory verifier block) channel := by
  intro stop listed
  rcases retainHistory_cases filed with stays | ⟨next,kept,onward,ran,settled⟩
  · rw [stays] at listed
    cases listed
  · rw [ran] at listed
    rw [List.mem_singleton.mp listed,ran,settled]
    exact ⟨rfl,rfl⟩

def read (verifier : SigVerifier) (block : FinalizedWork) : Step := andThen (expire verifier block) (applyFinalizedTxs verifier block)

theorem read_duties : read verifier block =
    andThen (all ((.expiry :: block.txs.map Duty.tx).map (Duty.run verifier block))) (retainHistory verifier block) := by
  have same : all ((.expiry :: block.txs.map Duty.tx).map (Duty.run verifier block)) =
      andThen (expire verifier block) (all (block.txs.map (applyTx verifier block))) := by
    rw [List.map_cons,List.map_map]
    rfl
  rw [same,andThen_assoc]
  rfl

theorem read_advances : Advances Filed Onward (read verifier block) := by
  rw [read_duties]
  exact .andThen (fun _ => .refl) (fun _ _ _ => .trans) duties_forward.all_advances
    retainHistory_advances

theorem read_resumes (filed : Filed channel) : Resumes (read verifier block) channel := by
  rw [read_duties]
  exact duties_forward.then_resumes filed retainHistory_advances fun _ kept => retainHistory_resumes kept

end Reading

section Cursor

open Channel (Onward Filed)

variable [Xet] [Invocations] [Checkpoints] {verifier : SigVerifier} {channel : Channel}
  {block : FinalizedWork}

structure Next (channel : Channel) (block : FinalizedWork) : Prop where
  unread : (block.height, block.payload) ≠ channel.funding.cursor
  height : block.height = saturatingAdd channel.funding.cursor.1 1
  parent : block.parent = channel.funding.cursor.2

def passed (channel : Channel) (block : FinalizedWork) : Channel :=
  { channel with funding := { channel.funding with cursor := (block.height, block.payload) } }

omit [Xet] [Invocations] [Checkpoints] in
theorem Next.reading (next : Next channel block) :
    channel.reading block.height block.parent block.payload = .ok .changed := by
  unfold Channel.reading
  dsimp only
  rw [if_neg next.unread]
  simp only [bind_ok,rejectIf_ok,not_not,pure_ok]
  exact ⟨(),next.height,(),next.parent,trivial⟩

omit [Xet] [Invocations] [Checkpoints] in
theorem Next.onward (next : Next channel block) (onward : Onward channel after) : Next after block := by
  obtain ⟨unread,height,parent⟩ := next
  rw [← onward.cursor] at unread height parent
  exact ⟨unread,height,parent⟩

theorem Next.commits (next : Next channel block) :
    commit verifier (.cursorAdvanced block.height block.parent block.payload) channel = ⟨[passed channel block],none⟩ := by
  have moved : channel.apply verifier (.cursorAdvanced block.height block.parent block.payload) false =
      .ok (passed channel block, .changed) := by
    unfold Channel.apply Channel.applyCursor
    dsimp only
    rw [next.reading]
    rfl
  unfold commit
  rw [moved]
  rfl

theorem Next.observes (next : Next channel block) : observe verifier block channel =
    andThen (read verifier block) (commit verifier (.cursorAdvanced block.height block.parent block.payload)) channel := by
  unfold observe
  rw [next.reading]
  rfl

theorem observe_read (held : (block.height, block.payload) = channel.funding.cursor) :
    observe verifier block channel = ⟨[],none⟩ := by
  have redundant : channel.reading block.height block.parent block.payload = .ok .redundant := if_pos held
  unfold observe
  rw [redundant]
  rfl

theorem Next.resumes (filed : Filed channel) (next : Next channel block) :
    Resumes (observe verifier block) channel := by
  intro stop listed
  rw [next.observes] at listed ⊢
  have within : ∀ stop ∈ (read verifier block channel).stops,
      SameEnd (observe verifier block stop) stop (andThen (read verifier block) (commit verifier
        (.cursorAdvanced block.height block.parent block.payload)) channel) channel := by
    intro stop early
    obtain ⟨-,onward⟩ := read_advances channel filed stop early
    rw [(next.onward onward).observes]
    exact (read_resumes filed stop early).andThen
  cases failed : (read verifier block channel).failure with
  | some failure =>
    rw [(andThen_failed failed).2.2] at listed
    exact within stop listed
  | none =>
    obtain ⟨-,onward⟩ := (@read_advances _ _ _ verifier block).final (fun _ => .refl) filed
    have last := @Next.commits _ _ _ verifier _ _ (next.onward onward)
    obtain ⟨failure,ends,stops⟩ := @andThen_passed _ _ (read verifier block) (commit verifier
      (.cursorAdvanced block.height block.parent block.payload)) channel failed
    rw [last] at failure ends stops
    rw [stops] at listed
    rcases List.mem_append.mp listed with early | late
    · exact within stop early
    · rw [List.mem_singleton.mp late,observe_read rfl]
      exact ⟨failure.symm,ends.symm⟩

theorem Next.passes (filed : Filed channel) (next : Next channel block) (done : (observe verifier block channel).failure = none) :
    ((observe verifier block channel).final channel).funding.cursor = (block.height, block.payload) := by
  rw [next.observes] at done ⊢
  cases failed : (read verifier block channel).failure with
  | some failure =>
    rw [(andThen_failed failed).1] at done
    cases done
  | none =>
    obtain ⟨-,onward⟩ := (@read_advances _ _ _ verifier block).final (fun _ => .refl) filed
    rw [(andThen_passed failed).2.1,(next.onward onward).commits]
    rfl

theorem observe_refused (unread : (block.height, block.payload) ≠ channel.funding.cursor) (other : ¬Next channel block) :
    ∃ refused, observe verifier block channel = ⟨[],some (.channel refused)⟩ := by
  have refused : ∃ refused, channel.reading block.height block.parent block.payload = .error refused := by
    cases read : channel.reading block.height block.parent block.payload with
    | error refused => exact ⟨refused,rfl⟩
    | ok applied =>
      unfold Channel.reading at read
      dsimp only at read
      rw [if_neg unread] at read
      simp only [bind_ok,rejectIf_ok,not_not] at read
      obtain ⟨_,height,_,parent,-⟩ := read
      exact absurd ⟨unread,height,parent⟩ other
  obtain ⟨refused,reads⟩ := refused
  refine ⟨refused,?_⟩
  unfold observe
  rw [reads]

end Cursor

-- Reading a block is idempotent over crashes: from any commit it made, reading it again ends in the
-- same result and the same state, read once it is read, and no other block is taken.
theorem observing_is_idempotent [Xet] [Invocations] [Checkpoints] (verifier : SigVerifier) (channel : Channel)
    (block : FinalizedWork) (filed : channel.Filed) :
    (Next channel block → (∀ stop ∈ channel :: (observe verifier block channel).stops,
        SameEnd (observe verifier block stop) stop (observe verifier block channel) channel) ∧
      ((observe verifier block channel).failure = none →
        observe verifier block ((observe verifier block channel).final channel) = ⟨[],none⟩)) ∧
    ((block.height, block.payload) = channel.funding.cursor → observe verifier block channel = ⟨[],none⟩) ∧
    ((block.height, block.payload) ≠ channel.funding.cursor → ¬Next channel block →
      ∃ refused, observe verifier block channel = ⟨[],some (.channel refused)⟩) := by
  refine ⟨fun next => ⟨fun stop listed => ?_,fun done => ?_⟩,observe_read,observe_refused⟩
  · rcases List.mem_cons.mp listed with rfl | later
    · exact ⟨rfl,rfl⟩
    · exact next.resumes filed stop later
  · exact observe_read (next.passes filed done).symm

-- A contest cuts off the open job; stopped right after the job ended, the rest is read again.
namespace Sample

open Kernel.Sample (checksum close fill verifier)

attribute [local instance] checksum bodies

@[reducible] def small : Checkpoints where
  length _ := 0
  jobTailBytes := 0

attribute [local instance] small

def contested : FinalizedWork := ⟨4,fill 32 3,fill 32 4,[.move (.startPaymentClose close)]⟩

def working : Channel := Channel.reached verifier provider [live (.jobProposed (authorization 1 30) signature [1])]

theorem observing_is_idempotent_contested :
    (observe verifier contested working).failure = none ∧ (observe verifier contested working).stops.length = 4 ∧
      ∀ stop ∈ (observe verifier contested working).stops,
        SameEnd (observe verifier contested stop) stop (observe verifier contested working) working := by
  have cursor : working.funding.cursor = (3, fill 32 3) := by decide +kernel
  have next : Next working contested := by
    refine ⟨?_,?_,?_⟩ <;> rw [cursor] <;> decide
  have ran : (observe verifier contested working).failure = none ∧
      (observe verifier contested working).stops.length = 4 := by decide +kernel
  obtain ⟨resumes,-⟩ :=
    (observing_is_idempotent verifier working contested Channel.Filed.new.reached).1 next
  exact ⟨ran.1,ran.2,fun stop listed => resumes stop (List.mem_cons_of_mem _ listed)⟩

end Sample

end Hellas.Work
