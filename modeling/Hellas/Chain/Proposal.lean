import Hellas.Chain.Execution
import Hellas.Invariants.Conservation

-- Building a proposal: candidates are tried against one speculative batch, and what the proposer
-- keeps is what every validator arrives at by executing the included transactions alone.

namespace Hellas.Chain

open Guard Kernel

def usizeMax : Nat := 2^64 - 1

def usizeSaturatingAdd (left right : Nat) : Nat := min (left + right) usizeMax

def responseContestWasRemoved (transaction : Transaction) (error : ExecutionError) : Bool :=
  match transaction, error with
  | .kernel (.move (.respondPaymentClose response)), .objectNotFound id => id == edgeObjectId response.paymentEdge
  | _, _ => false

structure Proposal where
  batches : Store
  included : List Transaction
  retained : List Transaction
  includedBytes : Nat

namespace Proposal

def start (batches : Store) : Proposal := ⟨batches,[],[],0⟩

def includes (proposal : Proposal) (batches : Store) (bytes : Nat) (tx : Transaction) : Proposal :=
  ⟨batches,proposal.included ++ [tx],proposal.retained,bytes⟩

def retains (proposal : Proposal) (batches : Store) (txs : List Transaction) : Proposal :=
  ⟨batches,proposal.included,proposal.retained ++ txs,proposal.includedBytes⟩

def drops (proposal : Proposal) (batches : Store) : Proposal := { proposal with batches := batches }

end Proposal

section Proposing

variable [Xet] [Sha256] (context : Context) (verifier : SigVerifier) (maxTxs maxTxBytes : Nat)

-- The batch a refused candidate hands back is the one the next candidate is tried against.
def tryCandidates (proposal : Proposal) : List Transaction → Except ExecutionError Proposal
  | [] => .ok proposal
  | tx :: rest =>
    let nextBytes := usizeSaturatingAdd proposal.includedBytes tx.encodeSize
    if proposal.included.length ≥ maxTxs ∨ nextBytes > maxTxBytes then
      .ok (proposal.retains proposal.batches (tx :: rest))
    else
      match applyTransaction proposal.batches context verifier tx with
      | .ok next => tryCandidates (proposal.includes next nextBytes tx) rest
      | .error (next, error) =>
        if error.isTransientForMempool ∧ responseContestWasRemoved tx error = false then
          tryCandidates (proposal.retains next [tx]) rest
        else if error.isFatalStorage then .error error
        else tryCandidates (proposal.drops next) rest

def executeProposal (candidates : List Transaction) (allocations : List (SettlementKey × UInt64))
    (batches : Store) : Except ExecutionError (Store × List Transaction × List Transaction) := do
  let batches ← maybeSeedGenesis context allocations batches
  let proposal ← tryCandidates context verifier maxTxs maxTxBytes (.start batches) candidates
  pure (proposal.batches, proposal.included, proposal.retained)

end Proposing

section Refusals

def Survivable (failure : Store × ExecutionError) : Prop := failure.2.isFatalStorage = false

theorem not_survivable {failure : Store × ExecutionError} (fatal : failure.2.isFatalStorage = true) :
    ¬Survivable failure := by
  rw [Survivable,fatal]
  exact Bool.noConfusion

variable [Sha256]

theorem writeOwned_avoids {id : ObjectId} : Avoids Survivable (writeOwned batches id value) := by
  simp only [writeOwned,avoids_bind,avoids_rejectIf,avoids_mapError,avoids_pure]
  refine ⟨fun _ => not_survivable rfl,fun _ _ => ⟨?_,fun _ _ => ⟨?_,fun _ _ => trivial⟩⟩⟩
  · exact fun _ _ => not_survivable rfl
  · exact fun _ _ => not_survivable rfl

theorem replaySpent_avoids {id : CoinId} : Avoids Survivable (replaySpent working batches id) := by
  rw [replaySpent,avoids_bind,avoids_rejectIf]
  exact ⟨fun _ => not_survivable rfl,fun _ _ => writeOwned_avoids⟩

theorem replayIssued_avoids {id : CoinId} : Avoids Survivable (replayIssued working batches id) := by
  rw [replayIssued,avoids_bind,avoids_okOr]
  exact ⟨fun _ => not_survivable rfl,fun _ _ => writeOwned_avoids⟩

theorem replayKernelEvent_avoids : Avoids Survivable (replayKernelEvent batches working event) := by
  have spent (inputs : List CoinId) (batches : Store) :
      Avoids Survivable (inputs.foldlM (replaySpent working) batches) :=
    avoids_foldlM fun _ _ => replaySpent_avoids
  have issued (outputs : List CoinId) (batches : Store) :
      Avoids Survivable (outputs.foldlM (replayIssued working) batches) :=
    avoids_foldlM fun _ _ => replayIssued_avoids
  cases event with
  | edgeOpened inputs output =>
    simp only [replayKernelEvent,avoids_bind,avoids_okOr]
    exact ⟨spent inputs batches,fun _ _ => ⟨fun _ => not_survivable rfl,
      fun _ _ => writeOwned_avoids⟩⟩
  | edgeClosed input outputs =>
    simp only [replayKernelEvent,avoids_bind,avoids_rejectIf]
    exact ⟨fun _ => not_survivable rfl,fun _ _ => ⟨writeOwned_avoids,fun _ _ => issued outputs _⟩⟩
  | coinsReshaped inputs outputs =>
    simp only [replayKernelEvent,avoids_bind]
    exact ⟨spent inputs batches,fun _ _ => issued outputs _⟩

theorem replayOutcome_avoids : Avoids Survivable (replayOutcome batches working outcome) := by
  rw [replayOutcome,avoids_bind]
  refine ⟨?_,fun _ _ => avoids_foldlM fun _ mutation => ?_⟩
  · cases outcome.publicEvent with
    | none => exact avoids_ok
    | some event => exact replayKernelEvent_avoids
  · rw [replayMutation,avoids_bind,avoids_rejectIf]
    exact ⟨fun _ => not_survivable rfl,fun _ _ => avoids_pure⟩

omit [Sha256] in
theorem handed_back {run : Except ε α} {reason : ε → ExecutionError}
    (failed : (run.mapError fun source => (batches, reason source)) = .error (after, error)) :
    after = batches := by
  cases run with
  | ok value => cases failed
  | error source => exact (congrArg Prod.fst (Except.error.inj failed)).symm

variable [Xet]

theorem applyTransaction_refused (failed : applyTransaction batches context verifier tx = .error (after, error))
    (alive : error.isFatalStorage = false) : after = batches := by
  obtain ⟨tx⟩ := tx
  simp only [applyTransaction,applyKernelTransaction,bind_error] at failed
  rcases failed with refused | ⟨_,-,refused | ⟨working,-,refused | ⟨applied,-,replayed⟩⟩⟩
  · exact handed_back refused
  · exact handed_back refused
  · exact handed_back refused
  · exact absurd alive (replayOutcome_avoids _ replayed)

end Refusals

inductive Verdict where
  | included
  | retained
  | dropped
  deriving DecidableEq

def taken (verdict : Verdict) (verdicts : List (Transaction × Verdict)) : List Transaction :=
  (verdicts.filter fun entry => entry.2 = verdict).map Prod.fst

@[simp] theorem taken_nil : taken verdict [] = [] := rfl

@[simp] theorem taken_cons :
    taken verdict ((tx, other) :: rest) = if other = verdict then tx :: taken verdict rest else taken verdict rest := by
  unfold taken
  rw [List.filter_cons]
  split
  · rename_i same
    rw [if_pos (of_decide_eq_true same)]
    rfl
  · rename_i different
    rw [if_neg (of_decide_eq_false (Bool.eq_false_iff.mpr different))]

theorem taken_all {txs : List Transaction} :
    taken verdict (txs.map fun tx => (tx, other)) = if other = verdict then txs else [] := by
  induction txs with
  | nil => exact (ite_self _).symm
  | cons tx txs ih =>
    rw [List.map_cons,taken_cons,ih]
    split <;> rfl

def totalSize (txs : List Transaction) : Nat := (txs.map Transaction.encodeSize).sum

section Deciding

variable [Xet] [Sha256] (context : Context) (verifier : SigVerifier)

-- A candidate is dropped for good: it cannot become valid later, and it touched nothing.
structure Refuses (batches : Store) (tx : Transaction) (error : ExecutionError) : Prop where
  untouched : applyTransaction batches context verifier tx = .error (batches, error)
  survives : error.isFatalStorage = false
  settled : error.isTransientForMempool = true → responseContestWasRemoved tx error = true

inductive Decided : Store → List (Transaction × Verdict) → Store → Prop where
  | done {batches : Store} : Decided batches [] batches
  | included {batches next final : Store} {tx : Transaction} {rest : List (Transaction × Verdict)} :
      applyTransaction batches context verifier tx = .ok next → Decided next rest final →
        Decided batches ((tx, .included) :: rest) final
  | retained {batches final : Store} {tx : Transaction} {rest : List (Transaction × Verdict)} :
      Decided batches rest final → Decided batches ((tx, .retained) :: rest) final
  | dropped {batches final : Store} {tx : Transaction} {rest : List (Transaction × Verdict)}
      {error : ExecutionError} : Refuses context verifier batches tx error →
        Decided batches rest final → Decided batches ((tx, .dropped) :: rest) final

variable {context verifier}

theorem executeTransactions_cons :
    executeTransactions context verifier batches (tx :: txs) = .ok final ↔ ∃ next, applyTransaction batches context verifier tx = .ok next ∧
        executeTransactions context verifier next txs = .ok final := by
  simp only [executeTransactions,mapError_ok,List.foldlM_cons,bind_ok]

-- The validator who runs the included transactions alone ends at the proposer's batch.
theorem Decided.replays (decided : Decided context verifier batches verdicts final) :
    executeTransactions context verifier batches (taken .included verdicts) = .ok final := by
  induction decided with
  | done => rfl
  | included applied later ih =>
    rw [taken_cons,if_pos rfl,executeTransactions_cons]
    exact ⟨_,applied,ih⟩
  | retained later ih => exact ih
  | dropped refuses later ih => exact ih

theorem Decided.dropped_at (decided : Decided context verifier batches (before ++ (tx, .dropped) :: after) final) :
    ∃ there error, executeTransactions context verifier batches (taken .included before) =
      .ok there ∧ Refuses context verifier there tx error := by
  induction before generalizing batches with
  | nil =>
    cases decided with
    | dropped refuses later => exact ⟨batches,_,rfl,refuses⟩
  | cons entry before ih =>
    cases decided with
    | included applied later =>
      obtain ⟨there,error,ran,refuses⟩ := ih later
      exact ⟨there,error,executeTransactions_cons.mpr ⟨_,applied,ran⟩,refuses⟩
    | retained later => exact ih later
    | dropped refuses later => exact ih later

theorem decided_retained {txs : List Transaction} :
    Decided context verifier batches (txs.map fun tx => (tx, .retained)) batches := by
  induction txs with
  | nil => exact .done
  | cons tx txs ih => exact .retained ih

variable {maxTxs maxTxBytes : Nat} {proposal after : Proposal} {tx : Transaction}

inductive Tried (context : Context) (verifier : SigVerifier) (maxTxs maxTxBytes : Nat)
    (proposal : Proposal) (tx : Transaction) (rest : List Transaction) (after : Proposal) :
    Prop where
  | cutOff : after = proposal.retains proposal.batches (tx :: rest) →
      Tried context verifier maxTxs maxTxBytes proposal tx rest after
  | included {next : Store} : proposal.included.length < maxTxs →
      usizeSaturatingAdd proposal.includedBytes tx.encodeSize ≤ maxTxBytes →
      applyTransaction proposal.batches context verifier tx = .ok next →
      tryCandidates context verifier maxTxs maxTxBytes (proposal.includes next
        (usizeSaturatingAdd proposal.includedBytes tx.encodeSize) tx) rest = .ok after →
      Tried context verifier maxTxs maxTxBytes proposal tx rest after
  | retained : tryCandidates context verifier maxTxs maxTxBytes
        (proposal.retains proposal.batches [tx]) rest = .ok after →
      Tried context verifier maxTxs maxTxBytes proposal tx rest after
  | dropped {error : ExecutionError} : Refuses context verifier proposal.batches tx error →
      tryCandidates context verifier maxTxs maxTxBytes proposal rest = .ok after →
      Tried context verifier maxTxs maxTxBytes proposal tx rest after

theorem tryCandidates_tried (ran : tryCandidates context verifier maxTxs maxTxBytes proposal (tx :: candidates) = .ok after) :
    Tried context verifier maxTxs maxTxBytes proposal tx candidates after := by
  rw [tryCandidates] at ran
  split at ran
  · exact .cutOff (Except.ok.inj ran).symm
  rename_i room
  rw [not_or,ge_iff_le,Nat.not_le,gt_iff_lt,Nat.not_lt] at room
  split at ran
  · rename_i next applied
    exact .included room.1 room.2 applied ran
  rename_i next error refused
  split at ran
  · rename_i transient
    have alive : error.isFatalStorage = false := by
      cases error <;> first | rfl | cases transient.1
    rw [applyTransaction_refused refused alive] at ran
    exact .retained ran
  rename_i settled
  split at ran
  · cases ran
  · rename_i alive
    rw [Bool.not_eq_true] at alive
    have same := applyTransaction_refused refused alive
    subst same
    refine .dropped ⟨refused,alive,?_⟩ ran
    intro transient
    rw [not_and,Bool.not_eq_false] at settled
    exact settled transient

theorem tryCandidates_decided (ran : tryCandidates context verifier maxTxs maxTxBytes proposal candidates = .ok after) :
    ∃ verdicts, verdicts.map Prod.fst = candidates ∧ Decided context verifier proposal.batches verdicts after.batches ∧
      after.included = proposal.included ++ taken .included verdicts ∧
      after.retained = proposal.retained ++ taken .retained verdicts := by
  induction candidates generalizing proposal with
  | nil =>
    cases ran
    exact ⟨[],rfl,.done,(List.append_nil _).symm,(List.append_nil _).symm⟩
  | cons tx rest ih =>
    cases tryCandidates_tried ran with
    | cutOff same =>
      subst same
      refine ⟨(tx :: rest).map fun tx => (tx, .retained),?_,decided_retained,?_,?_⟩
      · rw [List.map_map]
        exact List.map_id _
      · rw [taken_all,if_neg (by decide),List.append_nil]
        rfl
      · rw [taken_all,if_pos rfl]
        rfl
    | included few small applied ran =>
      obtain ⟨verdicts,same,decided,included,retained⟩ := ih ran
      refine ⟨(tx, .included) :: verdicts,congrArg (tx :: ·) same,.included applied decided,?_,retained⟩
      rw [included,taken_cons,if_pos rfl,Proposal.includes,List.append_assoc]
      rfl
    | retained ran =>
      obtain ⟨verdicts,same,decided,included,retained⟩ := ih ran
      refine ⟨(tx, .retained) :: verdicts,congrArg (tx :: ·) same,.retained decided,included,?_⟩
      rw [retained,taken_cons,if_pos rfl,Proposal.retains,List.append_assoc]
      rfl
    | dropped refuses ran =>
      obtain ⟨verdicts,same,decided,included,retained⟩ := ih ran
      exact ⟨(tx, .dropped) :: verdicts,congrArg (tx :: ·) same,.dropped refuses decided,included,retained⟩

structure WithinLimits (maxTxs maxTxBytes : Nat) (proposal : Proposal) : Prop where
  count : proposal.included.length ≤ maxTxs
  counted : proposal.includedBytes = min (totalSize proposal.included) usizeMax
  bytes : proposal.includedBytes ≤ maxTxBytes

theorem tryCandidates_within (ran : tryCandidates context verifier maxTxs maxTxBytes proposal candidates = .ok after)
    (within : WithinLimits maxTxs maxTxBytes proposal) : WithinLimits maxTxs maxTxBytes after := by
  induction candidates generalizing proposal with
  | nil =>
    cases ran
    exact within
  | cons tx rest ih =>
    cases tryCandidates_tried ran with
    | cutOff same =>
      subst same
      exact ⟨within.count,within.counted,within.bytes⟩
    | included few small applied ran =>
      refine ih ran ⟨?_,?_,small⟩
      · rw [Proposal.includes,List.length_append]
        exact few
      · have before := within.counted
        simp only [Proposal.includes,usizeSaturatingAdd,totalSize,List.map_append,
          List.sum_append,List.map_cons,List.map_nil,List.sum_cons,List.sum_nil] at before ⊢
        omega
    | retained ran => exact ih ran ⟨within.count,within.counted,within.bytes⟩
    | dropped refuses ran => exact ih ran within

end Deciding

section Verifying

variable [Xet] [Sha256] (context : Context) (verifier : SigVerifier)

-- What a validator can rely on. Sizes are compared as machine words: no vector of transactions is
-- larger than that.
structure Verifies (maxTxs maxTxBytes : Nat) (candidates : List Transaction)
    (allocations : List (SettlementKey × UInt64)) (parent batch : Store)
    (included retained : List Transaction) : Prop where
  replays : executeAll context verifier included allocations parent = .ok batch
  count : included.length ≤ maxTxs
  -- A limit below the largest word bounds the total; at that limit only a total that is a word.
  bytes : maxTxBytes < usizeMax ∨ totalSize included ≤ usizeMax → totalSize included ≤ maxTxBytes
  verdicts : ∃ verdicts : List (Transaction × Verdict), verdicts.map Prod.fst = candidates ∧
    taken .included verdicts = included ∧ taken .retained verdicts = retained ∧
    ∀ before tx after, verdicts = before ++ (tx, .dropped) :: after → ∃ there error,
      executeAll context verifier (taken .included before) allocations parent = .ok there ∧
        Refuses context verifier there tx error

theorem proposals_verify {context : Context} {verifier : SigVerifier} {maxTxs maxTxBytes : Nat}
    {candidates : List Transaction} {allocations : List (SettlementKey × UInt64)} {parent batch : Store}
    {included retained : List Transaction}
    (proposed : executeProposal context verifier maxTxs maxTxBytes candidates allocations parent =
      .ok (batch, included, retained)) :
    Verifies context verifier maxTxs maxTxBytes candidates allocations parent batch included retained := by
  simp only [executeProposal,bind_ok,pure_ok,Prod.mk.injEq] at proposed
  obtain ⟨seeded,seeds,after,ran,rfl,rfl,rfl⟩ := proposed
  obtain ⟨verdicts,same,decided,included,retained⟩ := tryCandidates_decided ran
  have within := tryCandidates_within ran ⟨Nat.zero_le _,rfl,Nat.zero_le _⟩
  rw [Proposal.start,List.nil_append] at included retained
  refine ⟨?_,within.count,?_,verdicts,same,included.symm,retained.symm,?_⟩
  · rw [included,executeAll,bind_ok]
    exact ⟨seeded,seeds,decided.replays⟩
  · intro small
    have bytes := within.bytes
    rw [within.counted] at bytes
    omega
  · intro before tx later split
    subst split
    obtain ⟨there,error,reached,refuses⟩ := decided.dropped_at
    refine ⟨there,error,?_,refuses⟩
    rw [executeAll,bind_ok]
    exact ⟨seeded,seeds,reached⟩

end Verifying

namespace Sample

open Kernel.Sample

attribute [local instance] checksum

@[reducible] def digest : Sha256 := ⟨Xet.hash⟩

attribute [local instance] digest

def channelLive : Store :=
  Store.write ∅ (edgeObjectId paymentEdge) (((State.run .acceptAll start [openBond,openPayment]).edge paymentEdge).map .edge)

def starts : Transaction := .kernel startClose.tx
def responds : Transaction := .kernel respond.tx

-- An answer to no contest is dropped, the contest and its answer fit, the rest waits.
theorem proposals_verify_contest :
    ∃ batch, executeProposal (Kernel.Sample.context 12) verifier 2 4096
        [responds,starts,responds,starts] [] channelLive = .ok (batch, [starts,responds], [starts]) ∧
      Verifies (Kernel.Sample.context 12) verifier 2 4096 [responds,starts,responds,starts] []
        channelLive batch [starts,responds] [starts] := by
  have ran : (executeProposal (Kernel.Sample.context 12) verifier 2 4096
      [responds,starts,responds,starts] [] channelLive).toOption.map Prod.snd =
        some ([starts,responds], [starts]) := by decide +kernel
  cases result : executeProposal (Kernel.Sample.context 12) verifier 2 4096
      [responds,starts,responds,starts] [] channelLive with
  | error failure =>
    rw [result] at ran
    cases ran
  | ok proposed =>
    rw [result] at ran
    obtain ⟨batch,included,retained⟩ := proposed
    cases ran
    exact ⟨batch,rfl,proposals_verify result⟩

end Sample

end Hellas.Chain
