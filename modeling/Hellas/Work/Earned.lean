import Hellas.Lib.Lists
import Hellas.Work.Credit

-- The one number a channel's money is: what was credited is what the certified jobs were priced at,
-- and what the best retained certificate says.

namespace Hellas.Work

open Authority (Digest)
open Guard Kernel Words

namespace Channel

variable [Xet] [Invocations] {verifier : SigVerifier} {channel : Channel}

def earnedOf (terminal : JobTerminal TerminalOutcome) : Option UInt64 :=
  (paymentFromTerminal terminal).map fun payment => payment.certificate.earnedCumulative

def largestEarned (channel : Channel) : Nat :=
  (channel.book.terminals.values.filterMap earnedOf).foldr (fun earned best => max earned.toNat best) 0

def earning (taken : Runs.Transition Channel Offer) : Nat :=
  match taken.input.1 with
  | .jobTerminated work (.certified ..) =>
    match taken.before.book.jobs.lookup work with
    | some job => price job
    | none => 0
  | _ => 0

def endOf (taken : Runs.Transition Channel Offer) : Option Digest :=
  match taken.input.1 with
  | .jobTerminated work _ => if taken.after = taken.before then none else some work
  | _ => none

def nonceOf (taken : Runs.Transition Channel Offer) : Option UInt64 :=
  match taken.input.1 with
  | .jobProposed authorization _ _ =>
    if taken.after = taken.before then none else some authorization.proposalNonce
  | _ => none

section Other

omit [Xet] [Invocations] in
theorem earning_other (other : ∀ work outcome, taken.input.1 ≠ .jobTerminated work outcome) : earning taken = 0 := by
  unfold earning
  split
  · rename_i is
    exact absurd is (other _ _)
  · rfl

omit [Xet] [Invocations] in
theorem endOf_other (other : ∀ work outcome, taken.input.1 ≠ .jobTerminated work outcome) : endOf taken = none := by
  unfold endOf
  split
  · rename_i is
    exact absurd is (other _ _)
  · rfl

omit [Xet] [Invocations] in
theorem nonceOf_other (other : ∀ authorization signature input, taken.input.1 ≠ .jobProposed authorization signature input) :
    nonceOf taken = none := by
  unfold nonceOf
  split
  · rename_i is
    exact absurd is (other _ _ _)
  · rfl

omit [Xet] [Invocations] in
theorem endOf_same (same : taken.after = taken.before) : endOf taken = none := by
  unfold endOf
  split
  · exact if_pos same
  · rfl

omit [Xet] [Invocations] in
theorem nonceOf_same (same : taken.after = taken.before) : nonceOf taken = none := by
  unfold nonceOf
  split
  · exact if_pos same
  · rfl

end Other

section Steps

variable {past : List (Runs.Transition Channel Offer)}

-- The account: what was certified so far, and the best certificate retained.
structure Credited (past : List (Runs.Transition Channel Offer)) (channel : Channel) : Prop where
  sum : channel.ledger.creditedCumulative.toNat = (past.map earning).sum
  above : ∀ work terminal earned, channel.book.terminals.lookup work = some terminal →
    earnedOf terminal = some earned → earned ≤ channel.ledger.creditedCumulative
  met : channel.ledger.creditedCumulative = 0 ∨ ∃ work terminal,
    channel.book.terminals.lookup work = some terminal ∧
      earnedOf terminal = some channel.ledger.creditedCumulative
  capacity : channel.ledger.creditedCumulative ≤ channel.funding.settlement.capacity

omit [Xet] [Invocations] in
theorem Credited.unpaid (credited : Credited past channel) (stands : Standing channel after)
    (free : earning ⟨channel,offered,after⟩ = 0) (ledger : after.ledger = channel.ledger)
    (gained : ∀ work terminal earned, after.book.terminals.lookup work = some terminal →
      earnedOf terminal = some earned → channel.book.terminals.lookup work = some terminal)
    (kept : ∀ work terminal, channel.book.terminals.lookup work = some terminal → after.book.terminals.lookup work = some terminal) :
    Credited (past ++ [⟨channel,offered,after⟩]) after := by
  refine ⟨?_,?_,?_,?_⟩
  · rw [ledger,credited.sum,List.map_append,List.sum_append,List.map_singleton,free]
    rfl
  · intro work terminal earned ended worth
    rw [ledger]
    exact credited.above work terminal earned (gained work terminal earned ended worth) worth
  · rw [ledger]
    refine credited.met.imp id ?_
    intro best
    obtain ⟨work,terminal,ended,worth⟩ := best
    exact ⟨work,terminal,kept work terminal ended,worth⟩
  · rw [ledger,stands.settlement]
    exact credited.capacity

omit [Invocations] in
theorem Held.free (held : channel.Held offered.1) (filed : channel.Filed) : earning ⟨channel,offered,after⟩ = 0 := by
  unfold earning
  split
  · rename_i work _ _ _ _ _ is
    have closed : channel.book.jobs.lookup work = none := by
      rw [show offered.1 = _ from is] at held
      generalize named : TerminalOutcome.certified .. = outcome at held
      cases held with
      | terminated ended =>
        by_contra ongoing
        rw [filed.apart work ongoing] at ended
        cases ended
    rw [closed]
  · rfl

omit [Xet] [Invocations] in
theorem Settles.earning_unpaid (is : offered.1 = .jobTerminated work outcome) (uncertified : outcome.isCertified = false) :
    earning ⟨channel,offered,after⟩ = 0 := by
  unfold earning
  split
  · rename_i named
    cases is.symm.trans named
    cases uncertified
  · rfl

theorem Credited.offer (credited : Credited past channel) (filed : channel.Filed) (taken : channel.offer verifier offered = some after) :
    Credited (past ++ [⟨channel,offered,after⟩]) after := by
  have stands := offer_standing taken
  rcases offer_cases taken with ⟨rfl,held⟩ | moved
  · exact credited.unpaid stands (held.free filed) rfl (fun _ _ _ ended _ => ended)
      (fun _ _ ended => ended)
  · have booked := moved.booked
    have kept := fun work terminal => @Filed.terminal_kept _ channel after _ filed booked work terminal
    cases booked with
    | kept jobs terminals ledger nonce unproposed unended =>
      exact credited.unpaid stands (earning_other unended) ledger (fun _ _ _ ended _ => terminals ▸ ended) kept
    | opened authorization signature input is fresh unended standing rises compute jobs terminals
        ledger =>
      refine credited.unpaid stands (earning_other ?_) ledger (fun _ _ _ ended _ => terminals ▸ ended)
        kept
      intro work outcome named
      cases is.symm.trans named
    | carried work job next carries jobs terminals ledger nonce unproposed unended =>
      exact credited.unpaid stands (earning_other unended) ledger (fun _ _ _ ended _ => terminals ▸ ended) kept
    | ended work job outcome is unended held settles book =>
      have ends (other : Digest) : after.book.terminals.lookup other = if other = work then some ⟨job.workId,job.phase,outcome⟩
          else channel.book.terminals.lookup other := by
        rw [book]
        simp only [rest,JobBook.restAt,Slots.lookup_insert_if,filed.job work job held]
      generalize ledger : after.ledger = money at settles
      cases settles with
      | unpaid uncertified =>
        refine credited.unpaid stands (Settles.earning_unpaid is uncertified) ledger ?_ kept
        intro other terminal earned ended worth
        rw [ends] at ended
        split at ended
        · cases ended
          cases outcome with
          | certified => cases uncertified
          | _ => cases worth
        · exact ended
      | @paid verifier signedResult certificate binding bindingSignature certificateSignature _
          certifies =>
        have credits := certifies.credits
        have earns : earning ⟨channel,offered,after⟩ = job.authorization.price.toNat := by
          unfold earning
          rw [is]
          dsimp only
          rw [held]
          rfl
        have worth : certificate.earnedCumulative = money.creditedCumulative := by
          rw [credits.money]
        have risen : channel.ledger.creditedCumulative ≤ money.creditedCumulative := by
          have sum := credits.sum
          rw [UInt64.le_iff_toNat_le]
          omega
        refine ⟨?_,?_,?_,?_⟩
        · rw [ledger,← credits.sum,credited.sum,List.map_append,List.sum_append,
            List.map_singleton,earns]
          rfl
        · intro other terminal earned ended own
          rw [ledger]
          rw [ends] at ended
          split at ended
          · cases ended
            cases own
            exact worth ▸ UInt64.le_refl _
          · exact UInt64.le_trans (credited.above other terminal earned ended own) risen
        · rw [ledger]
          refine .inr ⟨work,_,(ends work).trans (if_pos rfl),?_⟩
          exact congrArg some worth
        · rw [ledger,stands.settlement]
          exact credits.bounded

-- Every end stands in the terminals, and none was written twice.
structure EndsOnce (past : List (Runs.Transition Channel Offer)) (channel : Channel) : Prop where
  written : ∀ work ∈ past.filterMap endOf, channel.book.terminals.lookup work ≠ none
  once : (past.filterMap endOf).Nodup

omit [Xet] [Invocations] in
theorem EndsOnce.quiet (ends : EndsOnce past channel) (unended : endOf ⟨channel,offered,after⟩ = none)
    (terminals : after.book.terminals = channel.book.terminals) :
    EndsOnce (past ++ [⟨channel,offered,after⟩]) after := by
  have same : List.filterMap endOf (past ++ [⟨channel,offered,after⟩]) = past.filterMap endOf := by
    rw [Runs.filterMap_snoc,unended,Option.toList_none,List.append_nil]
  refine ⟨?_,same ▸ ends.once⟩
  rw [same,terminals]
  exact ends.written

theorem EndsOnce.offer (ends : EndsOnce past channel) (filed : channel.Filed) (taken : channel.offer verifier offered = some after) :
    EndsOnce (past ++ [⟨channel,offered,after⟩]) after := by
  rcases offer_cases taken with ⟨rfl,held⟩ | moved
  · exact ends.quiet (endOf_same rfl) rfl
  · have booked := moved.booked
    have kept := fun work terminal => @Filed.terminal_kept _ channel after _ filed booked work terminal
    cases booked with
    | kept jobs terminals ledger nonce unproposed unended => exact ends.quiet (endOf_other unended) terminals
    | opened authorization signature input is fresh unended standing rises compute jobs terminals =>
      refine ends.quiet (endOf_other ?_) terminals
      intro work outcome named
      cases is.symm.trans named
    | carried work job next carries jobs terminals ledger nonce unproposed unended => exact ends.quiet (endOf_other unended) terminals
    | ended work job outcome is unended held settles book =>
      have written : after.book.terminals.lookup work ≠ none := by
        rw [book]
        simp [rest,JobBook.restAt,filed.job work job held]
      have changed : after ≠ channel := by
        intro same
        rw [same] at written
        exact written unended
      have grown : List.filterMap endOf (past ++ [⟨channel,offered,after⟩]) = past.filterMap endOf ++ [work] := by
        rw [Runs.filterMap_snoc,endOf,is]
        exact congrArg _ (congrArg Option.toList (if_neg changed))
      refine ⟨?_,?_⟩
      · rw [grown]
        intro other member
        rcases List.mem_append.mp member with earlier | own
        · obtain ⟨terminal,ended⟩ := Option.ne_none_iff_exists'.mp (ends.written other earlier)
          rw [kept other terminal ended]
          exact Option.some_ne_none _
        · rw [List.mem_singleton.mp own]
          exact written
      · rw [grown,List.nodup_append]
        refine ⟨ends.once,List.nodup_singleton _,?_⟩
        intro other earlier last own same
        rw [List.mem_singleton.mp own] at same
        rw [same] at earlier
        exact ends.written work earlier unended

-- Nonces only go up, and the book remembers the last.
structure Rising (past : List (Runs.Transition Channel Offer)) (channel : Channel) : Prop where
  nonces : (past.filterMap nonceOf).Pairwise (· < ·)
  used : ∀ nonce ∈ past.filterMap nonceOf, nonce ≤ channel.book.proposalNonceHighWater

omit [Xet] [Invocations] in
theorem Rising.quiet (rising : Rising past channel) (unopened : nonceOf ⟨channel,offered,after⟩ = none)
    (nonce : after.book.proposalNonceHighWater = channel.book.proposalNonceHighWater) :
    Rising (past ++ [⟨channel,offered,after⟩]) after := by
  have same : List.filterMap nonceOf (past ++ [⟨channel,offered,after⟩]) = past.filterMap nonceOf := by
    rw [Runs.filterMap_snoc,unopened,Option.toList_none,List.append_nil]
  refine ⟨same ▸ rising.nonces,?_⟩
  rw [same,nonce]
  exact rising.used

theorem offer_nonce (taken : channel.offer verifier offered = some after) :
    nonceOf ⟨channel,offered,after⟩ = none ∧ after.book.proposalNonceHighWater = channel.book.proposalNonceHighWater ∨
      ∃ nonce, nonceOf ⟨channel,offered,after⟩ = some nonce ∧
        channel.book.proposalNonceHighWater < nonce ∧ after.book.proposalNonceHighWater = nonce := by
  rcases offer_cases taken with ⟨rfl,held⟩ | moved
  · exact .inl ⟨nonceOf_same rfl,rfl⟩
  · cases moved.booked with
    | kept jobs terminals ledger nonce unproposed unended => exact .inl ⟨nonceOf_other unproposed,nonce⟩
    | opened authorization signature input is fresh unended standing rises compute jobs terminals
        ledger nonce =>
      have changed : after ≠ channel := by
        intro same
        rw [same] at nonce
        rw [nonce] at rises
        exact UInt64.lt_irrefl _ rises
      refine .inr ⟨authorization.proposalNonce,?_,rises,nonce⟩
      unfold nonceOf
      rw [is]
      exact if_neg changed
    | carried work job next carries jobs terminals ledger nonce unproposed unended => exact .inl ⟨nonceOf_other unproposed,nonce⟩
    | ended work job outcome is unended held settles book =>
      refine .inl ⟨nonceOf_other ?_,by rw [book]; rfl⟩
      intro authorization signature input named
      cases is.symm.trans named

theorem Rising.offer (rising : Rising past channel) (taken : channel.offer verifier offered = some after) :
    Rising (past ++ [⟨channel,offered,after⟩]) after := by
  rcases offer_nonce taken with ⟨unopened,nonce⟩ | ⟨nonce,opens,rises,now⟩
  · exact rising.quiet unopened nonce
  · have grown : List.filterMap nonceOf (past ++ [⟨channel,offered,after⟩]) =
        past.filterMap nonceOf ++ [nonce] := by
      rw [Runs.filterMap_snoc,opens]
      rfl
    have above (used : UInt64) (member : used ∈ past.filterMap nonceOf) : used < nonce :=
      UInt64.lt_of_le_of_lt (rising.used used member) rises
    refine ⟨?_,?_⟩
    · rw [grown,List.pairwise_append]
      refine ⟨rising.nonces,List.pairwise_singleton _ _,?_⟩
      intro used member last own
      rw [List.mem_singleton.mp own]
      exact above used member
    · rw [grown,now]
      intro used member
      rcases List.mem_append.mp member with earlier | own
      · exact UInt64.le_of_lt (above used earlier)
      · rw [List.mem_singleton.mp own]
        exact UInt64.le_refl _

end Steps

structure Account (past : List (Runs.Transition Channel Offer)) (channel : Channel) : Prop where
  filed : channel.Filed
  credited : Credited past channel
  ends : EndsOnce past channel
  rising : Rising past channel

theorem reached_account {paid : PaidChannel} {settlement : WorkPaymentSettlement} {role : Role}
    {origin : SetupOrigin} {offers : List Offer} :
    Account (Runs.trace (offer verifier) (Channel.new paid settlement role origin) offers)
      (reached verifier (Channel.new paid settlement role origin) offers) := by
  refine Runs.run_history (fun _ => True) (motive := Account) ?_ ?_ offers fun _ _ => trivial
  · refine ⟨.new,⟨rfl,?_,.inl rfl,?_⟩,⟨?_,List.nodup_nil⟩,⟨List.Pairwise.nil,?_⟩⟩
    · intro work terminal earned ended
      cases ended
    · exact UInt64.le_iff_toNat_le.mpr (Nat.zero_le _)
    · intro work member
      cases member
    · intro nonce member
      cases member
  · intro past before input next _ taken account
    exact ⟨account.filed.offer taken,account.credited.offer account.filed taken,
      account.ends.offer account.filed taken,account.rising.offer taken⟩

omit [Xet] [Invocations] in
theorem Credited.largest {past : List (Runs.Transition Channel Offer)} (credited : Credited past channel) :
    channel.largestEarned = channel.ledger.creditedCumulative.toNat := by
  apply Lists.foldr_max
  · intro earned member
    obtain ⟨terminal,listed,worth⟩ := List.mem_filterMap.mp member
    obtain ⟨work,ended⟩ := Slots.mem_values.mp listed
    exact UInt64.le_iff_toNat_le.mp (credited.above work terminal earned ended worth)
  · refine credited.met.imp (congrArg UInt64.toNat) ?_
    intro best
    obtain ⟨work,terminal,ended,worth⟩ := best
    exact ⟨_,List.mem_filterMap.mpr ⟨terminal,Slots.mem_values.mpr ⟨work,ended⟩,worth⟩,rfl⟩

structure Earned (verifier : SigVerifier) (settlement : WorkPaymentSettlement) (start : Channel)
    (early late : List Offer) : Prop where
  sum : (reached verifier start early).ledger.creditedCumulative.toNat =
    ((Runs.trace (offer verifier) start early).map earning).sum
  largest : (reached verifier start early).ledger.creditedCumulative.toNat =
    (reached verifier start early).largestEarned
  capacity : (reached verifier start early).ledger.creditedCumulative ≤ settlement.capacity
  apart : ∀ work, (reached verifier start early).book.jobs.lookup work = none ∨
    (reached verifier start early).book.terminals.lookup work = none
  permanent : ∀ work terminal,
    (reached verifier start early).book.terminals.lookup work = some terminal →
    (reached verifier start (early ++ late)).book.terminals.lookup work = some terminal
  once : ((Runs.trace (offer verifier) start early).filterMap endOf).Nodup
  rises : ∀ taken ∈ Runs.trace (offer verifier) start early, ∀ nonce, nonceOf taken = some nonce →
    taken.before.book.proposalNonceHighWater < nonce ∧
      taken.after.book.proposalNonceHighWater = nonce
  nonces : ((Runs.trace (offer verifier) start early).filterMap nonceOf).Pairwise (· < ·)

theorem channel_account (verifier : SigVerifier) (paid : PaidChannel) (settlement : WorkPaymentSettlement) (role : Role)
    (origin : SetupOrigin) (early late : List Offer) :
    Earned verifier settlement (Channel.new paid settlement role origin) early late := by
  have account := @reached_account _ _ verifier paid settlement role origin early
  have stands := @reached_standing _ _ verifier (Channel.new paid settlement role origin) early
  refine ⟨account.credited.sum,account.credited.largest.symm,?_,?_,?_,account.ends.once,?_,
    account.rising.nonces⟩
  · have fits := account.credited.capacity
    rw [stands.settlement] at fits
    exact fits
  · intro work
    by_cases ongoing : (reached verifier (Channel.new paid settlement role origin)
        early).book.jobs.lookup work = none
    · exact .inl ongoing
    · exact .inr (account.filed.apart work ongoing)
  · intro work terminal ended
    have later := @reached_terminal _ _ verifier _ late account.filed work terminal ended
    unfold reached at later ⊢
    rw [Runs.run_append]
    exact later
  · intro taken member nonce opens
    rcases offer_nonce (Runs.trace_step member) with ⟨unopened,_⟩ | ⟨again,named,rises,now⟩
    · rw [show nonceOf taken = none from unopened] at opens
      cases opens
    · cases opens.symm.trans named
      exact ⟨rises,now⟩

end Channel

end Hellas.Work
