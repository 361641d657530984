import Hellas.Invocation.Output

-- Batch verification taken apart: the chain of events, their total size, and chunks followed by
-- one event that ends the list.

namespace Hellas.Invocation

open Cbor Guard Kernel Words

theorem usizeAdd_some {total : Nat} : usizeAdd left right = some total ↔ left + right = total ∧ total < 2^64 := by
  unfold usizeAdd
  split
  · rename_i fits
    rw [Option.some.injEq]
    constructor
    · intro same
      exact ⟨same,same ▸ fits⟩
    · exact And.left
  · rename_i large
    constructor
    · intro same
      cases same
    · intro fits
      exact absurd (fits.1 ▸ fits.2) large

theorem failure_not_chunk : failureKind ≠ artifactChunkKind := by decide

theorem terminal_not_chunk : terminalKind ≠ artifactChunkKind := by decide

section Batch

variable [Xet]

def Gathered.conclude (gathered : Gathered) (event : OutputEventEnvelope) :
    Except CanonicalDecodeError InvocationOutput := do
  rejectIf (event.event.body.canonicalization ≠ canonicalization) (error "wrong invocation output canonicalization")
  if event.event.body.kind = failureKind then gathered.fail event []
  else if event.event.body.kind = terminalKind then
    let next ← gathered.close event
    next.finish
  else .error (error "unknown invocation output event")

variable {gathered after : Gathered} {events : List OutputEventEnvelope}

theorem push_event {delivered : ArtifactPrefix} (pushed : delivered.push event = .ok (next, chunk)) :
    event.event.body.kind = artifactChunkKind ∧ event.event.body.canonicalization = canonicalization := by
  simp only [ArtifactPrefix.push,bind_ok,rejectIf_ok,not_or,not_not] at pushed
  obtain ⟨_,known,-⟩ := pushed
  exact known

theorem gather_ok : gathered.gather event = .ok after ↔ ∃ delivered chunk,
    gathered.delivered.push event = .ok (delivered, chunk) ∧ after = { gathered with
        artifacts := gathered.artifacts.extend chunk.name chunk.format chunk.bytes
        delivered := delivered } := by
  simp only [Gathered.gather,bind_ok,pure_ok,Prod.exists]
  constructor
  · intro gathered
    obtain ⟨delivered,chunk,pushed,same⟩ := gathered
    exact ⟨delivered,chunk,pushed,same.symm⟩
  · intro pushed
    obtain ⟨delivered,chunk,pushed,same⟩ := pushed
    exact ⟨delivered,chunk,pushed,same.symm⟩

theorem gather_terminal (gathers : gathered.gather event = .ok after) : after.terminal = gathered.terminal := by
  obtain ⟨delivered,chunk,-,rfl⟩ := gather_ok.mp gathers
  rfl

theorem verifyEvents_closed (closed : gathered.terminal = some terminal) :
    verifyEvents gathered events = .ok output ↔ events = [] ∧ gathered.finish = .ok output := by
  cases events with
  | nil => simp [verifyEvents]
  | cons event rest => simp [verifyEvents,closed,rejectIf]

omit [Xet] in
theorem fail_alone (failed : gathered.fail event rest = .ok output) : rest = [] := by
  simp only [Gathered.fail,bind_ok,rejectIf_ok,not_not] at failed
  obtain ⟨_,alone,-⟩ := failed
  exact alone

omit [Xet] in
theorem close_closed (closes : gathered.close event = .ok after) : ∃ terminal, after.terminal = some terminal := by
  simp only [Gathered.close,bind_ok,pure_ok,Prod.exists] at closes
  obtain ⟨_,terminal,-,_,-,rfl⟩ := closes
  exact ⟨terminal,rfl⟩

theorem verifyEvents_cons (unclosed : gathered.terminal = none) :
    verifyEvents gathered (event :: rest) = .ok output ↔ (∃ next, gathered.gather event = .ok next ∧ verifyEvents next rest = .ok output) ∨
        rest = [] ∧ gathered.conclude event = .ok output := by
  simp only [verifyEvents,Gathered.conclude,unclosed,bind_ok,rejectIf_ok,not_not,
    Option.isSome_none,Bool.false_eq_true,not_false_eq_true,true_and]
  constructor
  · intro verified
    obtain ⟨_,_,known,verified⟩ := verified
    split at verified
    · exact .inl (bind_ok.mp verified)
    split at verified
    · rename_i failed
      have alone := fail_alone verified
      subst alone
      exact .inr ⟨rfl,(),known,(if_pos failed).trans verified⟩
    split at verified
    · rename_i notFailed terminal
      obtain ⟨next,closes,verified⟩ := bind_ok.mp verified
      obtain ⟨_,closed⟩ := close_closed closes
      obtain ⟨alone,finishes⟩ := (verifyEvents_closed closed).mp verified
      refine .inr ⟨alone,(),known,?_⟩
      rw [if_neg notFailed,if_pos terminal]
      exact bind_ok.mpr ⟨next,closes,finishes⟩
    · cases verified
  · intro either
    rcases either with ⟨next,gathers,verified⟩ | ⟨rfl,_,known,concludes⟩
    · obtain ⟨delivered,chunk,pushed,-⟩ := gather_ok.mp gathers
      obtain ⟨isChunk,known⟩ := push_event pushed
      refine ⟨(),(),known,?_⟩
      rw [if_pos isChunk]
      exact bind_ok.mpr ⟨next,gathers,verified⟩
    · refine ⟨(),(),known,?_⟩
      split at concludes
      · rename_i failed
        rw [if_neg (failed ▸ failure_not_chunk),if_pos failed]
        exact concludes
      split at concludes
      · rename_i notFailed terminal
        rw [if_neg (terminal ▸ terminal_not_chunk),if_neg notFailed,if_pos terminal]
        exact concludes
      · cases concludes

theorem conclude_kind (concludes : gathered.conclude event = .ok output) :
    (event.event.body.kind = terminalKind ∨ event.event.body.kind = failureKind) ∧
      event.event.body.canonicalization = canonicalization := by
  simp only [Gathered.conclude,bind_ok,rejectIf_ok,not_not] at concludes
  obtain ⟨_,known,concludes⟩ := concludes
  split at concludes
  · rename_i failed
    exact ⟨.inr failed,known⟩
  split at concludes
  · rename_i terminal
    exact ⟨.inl terminal,known⟩
  · cases concludes

theorem verifyEvents_after {rest : List OutputEventEnvelope} (unclosed : gathered.terminal = none)
    (gathers : events.foldlM Gathered.gather gathered = .ok after) :
    after.terminal = none ∧ verifyEvents gathered (events ++ rest) = verifyEvents after rest := by
  induction events generalizing gathered with
  | nil =>
    cases gathers
    exact ⟨unclosed,rfl⟩
  | cons event events ih =>
    obtain ⟨next,first,gathers⟩ := bind_ok.mp gathers
    obtain ⟨delivered,chunk,pushed,-⟩ := gather_ok.mp first
    obtain ⟨isChunk,known⟩ := push_event pushed
    obtain ⟨still,same⟩ := ih ((gather_terminal first).trans unclosed) gathers
    refine ⟨still,?_⟩
    rw [← same,List.cons_append,verifyEvents,unclosed,known,if_pos isChunk,first]
    simp only [rejectIf,Option.isSome_none,Bool.false_eq_true,if_false,ne_eq,not_true_eq_false]
    rfl

theorem verifyEvents_exact (unclosed : gathered.terminal = none) :
    verifyEvents gathered events = .ok output ↔ ∃ body last after, events = body ++ [last] ∧
      body.foldlM Gathered.gather gathered = .ok after ∧ after.conclude last = .ok output := by
  induction events generalizing gathered with
  | nil =>
    rw [verifyEvents,Gathered.finish,unclosed]
    constructor
    · intro finished
      cases finished
    · intro split
      obtain ⟨body,last,-,empty,-⟩ := split
      cases body <;> cases empty
  | cons event rest ih =>
    rw [verifyEvents_cons unclosed]
    constructor
    · intro either
      rcases either with ⟨next,gathers,verified⟩ | ⟨rfl,concludes⟩
      · obtain ⟨body,last,after,rfl,ran,concludes⟩ :=
          (ih ((gather_terminal gathers).trans unclosed)).mp verified
        exact ⟨event :: body,last,after,rfl,bind_ok.mpr ⟨next,gathers,ran⟩,concludes⟩
      · exact ⟨[],event,gathered,rfl,rfl,concludes⟩
    · intro split
      obtain ⟨body,last,after,same,ran,concludes⟩ := split
      cases body with
      | nil =>
        cases same
        cases ran
        exact .inr ⟨rfl,concludes⟩
      | cons first body =>
        cases same
        obtain ⟨next,gathers,ran⟩ := bind_ok.mp ran
        exact .inl ⟨next,gathers,(ih ((gather_terminal gathers).trans unclosed)).mpr ⟨body,last,after,rfl,ran,concludes⟩⟩

end Batch

section Chain

variable [Xet] [Signing] {event : OutputEventEnvelope} {events : List OutputEventEnvelope}

theorem continuation_ok {sequence : UInt64} (linked : verifyOutputEventContinuation scheme input key sequence previous event = .ok result) :
    result = event.eventCommitment := by
  simp only [verifyOutputEventContinuation,bind_ok,pure_ok] at linked
  obtain ⟨_,-,_,-,_,-,_,-,_,-,_,-,same⟩ := linked
  exact same.symm

theorem verifyChain_snoc :
    verifyChain scheme input key index previous (events ++ [event]) = .ok result ↔
      ∃ middle, verifyChain scheme input key index previous events = .ok middle ∧ index + events.length < 2^64 ∧
        verifyOutputEventContinuation scheme input key (UInt64.ofNat (index + events.length)) middle event = .ok result := by
  induction events generalizing index previous with
  | nil =>
    simp only [List.nil_append,verifyChain,bind_ok,rejectIf_ok,Nat.not_le,List.length_nil,Nat.add_zero,Except.ok.injEq]
    constructor
    · intro linked
      obtain ⟨_,room,last,linked,rfl⟩ := linked
      exact ⟨previous,rfl,room,linked⟩
    · intro linked
      obtain ⟨middle,rfl,room,linked⟩ := linked
      exact ⟨(),room,result,linked,rfl⟩
  | cons first rest ih =>
    have shift : index + (first :: rest).length = index + 1 + rest.length := by
      rw [List.length_cons]
      omega
    simp only [List.cons_append,verifyChain,bind_ok,rejectIf_ok,Nat.not_le,ih,shift]
    constructor
    · intro linked
      obtain ⟨_,room,next,first,middle,rest,fits,last⟩ := linked
      exact ⟨middle,⟨(),room,next,first,rest⟩,fits,last⟩
    · intro linked
      obtain ⟨middle,⟨_,room,next,first,rest⟩,fits,last⟩ := linked
      exact ⟨(),room,next,first,middle,rest,fits,last⟩

theorem verifyChain_before (chained : verifyChain scheme input key index previous (events ++ later) = .ok result) :
    ∃ middle, verifyChain scheme input key index previous events = .ok middle := by
  induction later using List.reverseRecOn generalizing result with
  | nil =>
    rw [List.append_nil] at chained
    exact ⟨result,chained⟩
  | append_singleton later last ih =>
    rw [← List.append_assoc,verifyChain_snoc] at chained
    obtain ⟨middle,chained,-⟩ := chained
    exact ih chained

def payloadBytes (events : List OutputEventEnvelope) : Nat := (events.map fun event => event.payload.length).sum

omit [Xet] [Signing] in
theorem payloadTotal_some {size : Nat} :
    payloadTotal events = some size ↔ payloadBytes events = size ∧ size < 2^64 := by
  have onward (start : Nat) (small : start < 2^64) :
      events.foldlM (fun total event => usizeAdd total event.payload.length) start = some size ↔
        start + payloadBytes events = size ∧ size < 2^64 := by
    induction events generalizing start with
    | nil =>
      simp only [List.foldlM_nil,Option.pure_def,Option.some.injEq,payloadBytes,List.map_nil,List.sum_nil,Nat.add_zero]
      constructor
      · intro same
        exact ⟨same,same ▸ small⟩
      · exact And.left
    | cons event rest ih =>
      simp only [List.foldlM_cons,Option.bind_eq_bind,Option.bind_eq_some_iff,usizeAdd_some,payloadBytes,List.map_cons,List.sum_cons]
      constructor
      · intro folded
        obtain ⟨middle,⟨rfl,fits⟩,folded⟩ := folded
        have summed := (ih _ fits).mp folded
        rw [payloadBytes] at summed
        exact ⟨by omega,summed.2⟩
      · intro summed
        refine ⟨_,⟨rfl,by omega⟩,(ih _ (by omega)).mpr ?_⟩
        rw [payloadBytes]
        exact ⟨by omega,summed.2⟩
  have started := onward 0 (by decide)
  rwa [Nat.zero_add] at started

structure Accepts (request : InvocationRequest) (provider : PublicKey)
    (events : List OutputEventEnvelope) (budget : UInt64) (output : InvocationOutput) : Prop where
  runner : request.runnerPublicKey = provider
  affordable : payloadBytes events ≤ budget.toNat
  chained : ∃ last, verifyChain (invokeScheme request.assurance) request.inputCommitment provider 0
    (outputGenesis request.inputCommitment (streamIdOf request.inputCommitment)) events = .ok last
  verified : verifyEvents .empty events = .ok output

theorem verify_exact :
    verify request provider events budget = .ok output ↔ Accepts request provider events budget output := by
  simp only [verify,bind_ok,rejectIf_ok,not_not,okOr_ok,mapError_ok,Nat.not_lt,payloadTotal_some,verifyOutputEventEnvelopes,pure_ok]
  constructor
  · intro passed
    obtain ⟨_,runner,size,⟨rfl,small⟩,_,affordable,_,⟨last,chained,_,nonempty,-⟩,verified⟩ := passed
    exact ⟨runner,affordable,⟨last,chained⟩,verified⟩
  · intro accepts
    obtain ⟨last,chained⟩ := accepts.chained
    have nonempty : ¬events.isEmpty = true := by
      intro empty
      have unverified := accepts.verified
      rw [List.isEmpty_iff.mp empty] at unverified
      cases unverified
    exact ⟨(),accepts.runner,_,⟨rfl,Nat.lt_of_le_of_lt accepts.affordable budget.toNat_lt⟩,(),
      accepts.affordable,last,⟨last,chained,(),nonempty,rfl⟩,accepts.verified⟩

end Chain

end Hellas.Invocation
