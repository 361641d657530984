import Hellas.Lib.Lists
import Hellas.Invocation.Binding

-- Incremental verification is batch verification: the pushes are taken exactly when the batch is,
-- and what they release is what the output holds.

namespace Hellas.Invocation

open Cbor Guard Kernel Words

section Incremental

variable [Layout]

def Arrival.held (arrival : Arrival) : Nat := arrival.kindCapacity + arrival.payloadCapacity + 4 * Layout.envelopeSize

def heldBytes (arrivals : List Arrival) : Nat := (arrivals.map Arrival.held).sum

def envelopes (arrivals : List Arrival) : List OutputEventEnvelope := arrivals.map Arrival.envelope

theorem retain_some {verifier : StreamVerifier} {arrival : Arrival} {total : Nat} :
    verifier.retain arrival = some total ↔ verifier.retainedBytes + arrival.held = total ∧ total < 2^64 := by
  simp only [StreamVerifier.retain,Option.bind_eq_bind,Option.bind_eq_some_iff,usizeAdd_some,Arrival.held]
  constructor
  · intro charged
    obtain ⟨_,⟨rfl,-⟩,_,⟨rfl,-⟩,same,small⟩ := charged
    exact ⟨same,small⟩
  · intro total
    exact ⟨_,⟨rfl,by omega⟩,_,⟨rfl,by omega⟩,total.1,total.2⟩

variable [Xet] [Signing]

namespace StreamVerifier

-- Feeding one arrival after the other, up to the first refusal.
def pushAll (verifier : StreamVerifier) :
    List Arrival → Except CanonicalDecodeError (StreamVerifier × List ArtifactChunk)
  | [] => .ok (verifier, [])
  | arrival :: rest =>
    match verifier.push arrival with
    | (_, .error failure) => .error failure
    | (next, .ok released) => do
      let (final, chunks) ← next.pushAll rest
      pure (final, released.toList ++ chunks)

theorem push_refused {verifier : StreamVerifier} {arrival : Arrival}
    {failure : CanonicalDecodeError} (refused : (verifier.push arrival).2 = .error failure) :
    (verifier.push arrival).1 = verifier := by
  unfold push at refused ⊢
  cases admitted : verifier.admitEvent arrival with
  | error failure => rfl
  | ok charges =>
    rw [admitted] at refused
    dsimp only at refused ⊢
    split_ifs with isChunk ends
    · rw [if_pos isChunk] at refused
      unfold pushChunk at refused ⊢
      split <;> simp_all
    · rw [if_neg isChunk,if_pos ends] at refused
      unfold pushTerminal at refused ⊢
      split
      · rw [drop,keep,List.dropLast_concat]
      · rename_i verified
        rw [verified] at refused
        cases refused
    · rfl

end StreamVerifier

-- The verifier after some arrivals, none of which has ended the stream.
structure Follows (request : InvocationRequest) (provider : PublicKey) (budget : UInt64)
    (arrivals : List Arrival) (gathered : Gathered) (state : StreamVerifier) : Prop where
  asked : state.request = request
  signer : state.provider = provider
  allowed : state.budget = budget
  limit : state.retainedLimit = maxInvocationBytes
  runner : request.runnerPublicKey = provider
  events : state.events = envelopes arrivals
  bytes : state.bytes = payloadBytes (envelopes arrivals)
  retained : state.retainedBytes = heldBytes arrivals
  chained : verifyChain (invokeScheme request.assurance) request.inputCommitment provider 0
    (outputGenesis request.inputCommitment (streamIdOf request.inputCommitment))
    (envelopes arrivals) = .ok state.previous
  gathers : (envelopes arrivals).foldlM Gathered.gather .empty = .ok gathered
  delivered : state.delivered = gathered.delivered
  pending : state.output = none

variable {request : InvocationRequest} {provider : PublicKey} {budget : UInt64}
  {arrivals : List Arrival} {arrival : Arrival} {gathered : Gathered} {state : StreamVerifier}

structure Admits (request : InvocationRequest) (provider : PublicKey) (budget : UInt64)
    (arrivals : List Arrival) (arrival : Arrival) (state : StreamVerifier)
    (charges : StreamVerifier.Charges) : Prop where
  retained : charges.retained = heldBytes (arrivals ++ [arrival])
  remembered : charges.retained ≤ maxInvocationBytes
  bytes : charges.bytes = payloadBytes (envelopes (arrivals ++ [arrival]))
  affordable : charges.bytes ≤ budget.toNat
  linked : verifyOutputEventContinuation (invokeScheme request.assurance) request.inputCommitment
    provider (UInt64.ofNat arrivals.length) state.previous arrival.envelope = .ok charges.previous
  known : arrival.envelope.event.body.canonicalization = canonicalization

omit [Xet] [Signing] in
theorem heldBytes_snoc : heldBytes (arrivals ++ [arrival]) = heldBytes arrivals + arrival.held := by
  simp [heldBytes]

omit [Layout] [Xet] [Signing] in
theorem envelopes_snoc : envelopes (arrivals ++ [arrival]) = envelopes arrivals ++ [arrival.envelope] := by
  simp [envelopes]

variable {event : OutputEventEnvelope} {chunk : ArtifactChunk} {output : InvocationOutput}
  {start final : StreamVerifier} {chunks : List ArtifactChunk} {early late : List Arrival}
  {name : String}

omit [Layout] [Xet] [Signing] in
theorem payloadBytes_snoc : payloadBytes (events ++ [event]) = payloadBytes events + event.payload.length := by
  simp [payloadBytes]

theorem Follows.admitEvent_exact (follows : Follows request provider budget arrivals gathered state) :
    state.admitEvent arrival = .ok charges ↔ Admits request provider budget arrivals arrival state charges := by
  simp only [StreamVerifier.admitEvent,follows.pending,follows.asked,follows.signer,follows.allowed,follows.limit,
    follows.events,bind_ok,rejectIf_ok,okOr_ok,mapError_ok,retain_some,usizeAdd_some,follows.bytes,follows.retained,Nat.not_lt,
    not_not,pure_ok,envelopes,List.length_map]
  constructor
  · intro admitted
    obtain ⟨_,-,_,⟨rfl,-⟩,_,remembered,_,⟨rfl,-⟩,_,affordable,previous,linked,_,known,rfl⟩ := admitted
    refine ⟨heldBytes_snoc.symm,remembered,?_,affordable,linked,known⟩
    rw [envelopes_snoc,payloadBytes_snoc]
    rfl
  · intro admits
    have retained := admits.retained
    have bytes := admits.bytes
    have remembered := admits.remembered
    have affordable := admits.affordable
    have word := budget.toNat_lt
    rw [heldBytes_snoc] at retained
    rw [envelopes_snoc,payloadBytes_snoc] at bytes
    refine ⟨(),by simp,_,⟨retained.symm,?_⟩,(),remembered,_,⟨bytes.symm,?_⟩,(),
      affordable,_,admits.linked,(),admits.known,rfl⟩
    · exact Nat.lt_of_le_of_lt remembered (by decide)
    · exact Nat.lt_of_le_of_lt affordable word

omit [Xet] [Signing] in
theorem length_le_held : arrivals.length ≤ heldBytes arrivals := by
  induction arrivals with
  | nil => exact Nat.le_refl 0
  | cons arrival rest ih =>
    have positive := Layout.positive
    rw [heldBytes] at ih ⊢
    simp only [List.length_cons,List.map_cons,List.sum_cons,Arrival.held]
    omega

theorem Admits.room (admits : Admits request provider budget arrivals arrival state charges) :
    arrivals.length < 2^64 := by
  have counted := @length_le_held _ (arrivals ++ [arrival])
  have remembered := admits.remembered
  rw [admits.retained] at remembered
  rw [List.length_append] at counted
  have limit : maxInvocationBytes < 2^64 := by decide
  omega

theorem Follows.extends (follows : Follows request provider budget arrivals gathered state) {delivered : ArtifactPrefix}
    (admits : Admits request provider budget arrivals arrival state charges)
    (pushed : state.delivered.push arrival.envelope = .ok (delivered, chunk)) :
    Follows request provider budget (arrivals ++ [arrival]) { gathered with
        artifacts := gathered.artifacts.extend chunk.name chunk.format chunk.bytes
        delivered := delivered }
      (({ state with delivered := delivered }.keep arrival.envelope).charge charges) := by
  have size : (envelopes arrivals).length = arrivals.length := List.length_map _
  refine ⟨follows.asked,follows.signer,follows.allowed,follows.limit,follows.runner,?_,
    admits.bytes,admits.retained,?_,?_,rfl,follows.pending⟩
  · rw [envelopes_snoc,← follows.events]
    rfl
  · rw [envelopes_snoc,verifyChain_snoc,size,Nat.zero_add]
    exact ⟨_,follows.chained,admits.room,admits.linked⟩
  · rw [envelopes_snoc,List.foldlM_append,bind_ok]
    refine ⟨gathered,follows.gathers,?_⟩
    rw [List.foldlM_cons,bind_ok]
    refine ⟨_,gather_ok.mpr ⟨delivered,chunk,?_,rfl⟩,rfl⟩
    rw [← follows.delivered]
    exact pushed

-- A push takes a chunk, ends the stream, or is refused.
inductive Pushed (request : InvocationRequest) (provider : PublicKey) (budget : UInt64)
    (arrivals : List Arrival) (arrival : Arrival) (gathered : Gathered) (state : StreamVerifier) :
    StreamVerifier × Except CanonicalDecodeError (Option ArtifactChunk) → Prop where
  | refused {failure : CanonicalDecodeError} :
      Pushed request provider budget arrivals arrival gathered state (state, .error failure)
  | chunk {next : StreamVerifier} {delivered : ArtifactPrefix} {chunk : ArtifactChunk} :
      Follows request provider budget (arrivals ++ [arrival])
        { gathered with
          artifacts := gathered.artifacts.extend chunk.name chunk.format chunk.bytes
          delivered := delivered } next →
      Pushed request provider budget arrivals arrival gathered state (next, .ok (some chunk))
  | ended {next : StreamVerifier} {output : InvocationOutput} :
      verify request provider (envelopes (arrivals ++ [arrival])) budget = .ok output →
      next.finish = .ok (output, envelopes (arrivals ++ [arrival])) →
      Pushed request provider budget arrivals arrival gathered state (next, .ok none)

theorem Follows.pushed (follows : Follows request provider budget arrivals gathered state) :
    Pushed request provider budget arrivals arrival gathered state (state.push arrival) := by
  unfold StreamVerifier.push
  cases admitted : state.admitEvent arrival with
  | error failure => exact .refused
  | ok charges =>
    have admits := follows.admitEvent_exact.mp admitted
    dsimp only
    split_ifs
    · unfold StreamVerifier.pushChunk
      split
      · exact .refused
      · rename_i delivered chunk pushed
        exact .chunk (follows.extends admits pushed)
    · have kept : (state.keep arrival.envelope).events = envelopes (arrivals ++ [arrival]) := by
        rw [StreamVerifier.keep,follows.events,envelopes_snoc]
      unfold StreamVerifier.pushTerminal
      rw [follows.asked,follows.signer,follows.allowed,kept]
      split
      · have back : (state.keep arrival.envelope).drop = state := by
          rw [StreamVerifier.drop,StreamVerifier.keep,List.dropLast_concat]
        rw [back]
        exact .refused
      · rename_i output verified
        refine .ended verified ?_
        rw [← kept]
        rfl
    · exact .refused

omit [Layout] [Xet] [Signing] in
theorem envelopes_append : envelopes (arrivals ++ later) = envelopes arrivals ++ envelopes later := List.map_append

omit [Xet] [Signing] in
theorem heldBytes_le : heldBytes arrivals ≤ heldBytes (arrivals ++ later) := by
  rw [heldBytes,heldBytes,List.map_append,List.sum_append]
  exact Nat.le_add_right _ _

omit [Layout] [Xet] [Signing] in
theorem payloadBytes_le : payloadBytes events ≤ payloadBytes (events ++ later) := by
  rw [payloadBytes,payloadBytes,List.map_append,List.sum_append]
  exact Nat.le_add_right _ _

theorem Follows.admitted (follows : Follows request provider budget arrivals gathered state) {later : List Arrival}
    (accepts : Accepts request provider (envelopes (arrivals ++ arrival :: later)) budget output)
    (held : heldBytes (arrivals ++ arrival :: later) ≤ maxInvocationBytes)
    (known : arrival.envelope.event.body.canonicalization = canonicalization) :
    ∃ charges, state.admitEvent arrival = .ok charges := by
  have split : arrivals ++ arrival :: later = (arrivals ++ [arrival]) ++ later := by simp
  rw [split] at accepts held
  obtain ⟨last,chained⟩ := accepts.chained
  rw [envelopes_append] at chained
  obtain ⟨middle,chained⟩ := verifyChain_before chained
  rw [envelopes_snoc,verifyChain_snoc] at chained
  obtain ⟨previous,before,-,linked⟩ := chained
  cases follows.chained.symm.trans before
  rw [Nat.zero_add,show (envelopes arrivals).length = arrivals.length from List.length_map _] at linked
  refine ⟨⟨_,_,_⟩,follows.admitEvent_exact.mpr ⟨rfl,heldBytes_le.trans held,rfl,?_,linked,known⟩⟩
  have affordable := accepts.affordable
  rw [envelopes_append] at affordable
  exact payloadBytes_le.trans affordable

theorem Follows.not_refused (follows : Follows request provider budget arrivals gathered state)
    (accepts : Accepts request provider (envelopes (arrivals ++ arrival :: later)) budget output)
    (held : heldBytes (arrivals ++ arrival :: later) ≤ maxInvocationBytes) :
    later ≠ [] ∧ (∃ chunk, (state.push arrival).2 = .ok (some chunk)) ∨ later = [] ∧ (state.push arrival).2 = .ok none := by
  have verified := accepts.verified
  obtain ⟨unclosed,same⟩ := @verifyEvents_after _ _ _ _ (envelopes (arrival :: later)) rfl follows.gathers
  rw [envelopes_append,same,show envelopes (arrival :: later) =
    arrival.envelope :: envelopes later from rfl,verifyEvents_cons unclosed] at verified
  rcases verified with ⟨next,gathers,verified⟩ | ⟨alone,concludes⟩
  · obtain ⟨delivered,chunk,pushed,-⟩ := gather_ok.mp gathers
    obtain ⟨isChunk,known⟩ := push_event pushed
    obtain ⟨charges,admitted⟩ := follows.admitted accepts held known
    refine .inl ⟨?_,chunk,?_⟩
    · intro alone
      subst alone
      have missing : next.terminal = none := (gather_terminal gathers).trans unclosed
      rw [show envelopes [] = [] from rfl,verifyEvents,Gathered.finish,missing] at verified
      cases verified
    · rw [StreamVerifier.push,admitted]
      dsimp only
      rw [if_pos isChunk,StreamVerifier.pushChunk,follows.delivered,pushed]
  · obtain ⟨ends,known⟩ := conclude_kind concludes
    obtain ⟨charges,admitted⟩ := follows.admitted accepts held known
    have alone : later = [] := List.map_eq_nil_iff.mp alone
    subst alone
    refine .inr ⟨rfl,?_⟩
    have notChunk : arrival.envelope.event.body.kind ≠ artifactChunkKind := by
      rcases ends with terminal | failed
      · exact terminal ▸ terminal_not_chunk
      · exact failed ▸ failure_not_chunk
    have whole := verify_exact.mpr accepts
    rw [envelopes_snoc,← follows.events,← follows.asked,← follows.signer,← follows.allowed] at whole
    rw [StreamVerifier.push,admitted]
    dsimp only
    rw [if_neg notChunk,if_pos ends,StreamVerifier.pushTerminal,StreamVerifier.keep,whole]

theorem follows_new (opened : StreamVerifier.new request provider budget = .ok start) :
    Follows request provider budget [] .empty start := by
  simp only [StreamVerifier.new,bind_ok,rejectIf_ok,not_not,pure_ok] at opened
  obtain ⟨_,runner,rfl⟩ := opened
  exact ⟨rfl,rfl,rfl,rfl,runner,rfl,rfl,rfl,rfl,rfl,rfl,rfl⟩

omit [Layout] [Signing] in
theorem new_runner (runner : request.runnerPublicKey = provider) :
    ∃ start, StreamVerifier.new request provider budget = .ok start := by
  simp only [StreamVerifier.new,bind_ok,rejectIf_ok,not_not,pure_ok]
  exact ⟨_,(),runner,rfl⟩

theorem pushAll_cons :
    state.pushAll (arrival :: rest) = .ok (final, chunks) ↔ ∃ next released later, state.push arrival = (next, .ok released) ∧
        next.pushAll rest = .ok (final, later) ∧ chunks = released.toList ++ later := by
  rw [StreamVerifier.pushAll]
  split
  · rename_i refused
    simp [refused]
  · rename_i next released taken
    simp only [taken,bind_ok,pure_ok,Prod.exists,Prod.mk.injEq]
    constructor
    · intro pushed
      obtain ⟨_,later,pushed,rfl,rfl⟩ := pushed
      exact ⟨next,released,later,⟨rfl,rfl⟩,pushed,rfl⟩
    · intro pushed
      obtain ⟨_,_,later,⟨rfl,taken⟩,pushed,rfl⟩ := pushed
      cases taken
      exact ⟨final,later,pushed,rfl,rfl⟩

def collect (chunks : List ArtifactChunk) : Artifacts :=
  chunks.foldl (fun artifacts chunk => artifacts.extend chunk.name chunk.format chunk.bytes) ∅

-- Pushes that were all taken stop short of the end or reach it with the last one.
inductive Fed (request : InvocationRequest) (provider : PublicKey) (budget : UInt64)
    (arrivals : List Arrival) (chunks : List ArtifactChunk) (final : StreamVerifier) : Prop where
  | ongoing {gathered : Gathered} : gathered.artifacts = collect chunks →
      Follows request provider budget arrivals gathered final →
      Fed request provider budget arrivals chunks final
  | ended {output : InvocationOutput} {gathered : Gathered} {last : OutputEventEnvelope}
      {before : List OutputEventEnvelope} :
      gathered.artifacts = collect chunks → envelopes arrivals = before ++ [last] →
      before.foldlM Gathered.gather .empty = .ok gathered →
      verify request provider (envelopes arrivals) budget = .ok output →
      final.finish = .ok (output, envelopes arrivals) →
      Fed request provider budget arrivals chunks final

omit [Layout] [Xet] [Signing] in
theorem finish_some (finished : state.finish = .ok (output, events)) : state.output = some output := by
  simp only [StreamVerifier.finish,bind_ok,okOr_ok,pure_ok,Prod.mk.injEq] at finished
  obtain ⟨_,found,rfl,-⟩ := finished
  exact found

theorem push_ended {output : InvocationOutput} (ended : state.output = some output) :
    ∃ failure, state.push arrival = (state, .error failure) := by
  have refused : state.admitEvent arrival = .error (error "event after invocation terminal") := by
    rw [StreamVerifier.admitEvent,ended]
    rfl
  rw [StreamVerifier.push,refused]
  exact ⟨_,rfl⟩

omit [Layout] [Xet] [Signing] in
theorem collect_snoc : collect (chunks ++ [chunk]) = (collect chunks).extend chunk.name chunk.format chunk.bytes := by
  simp [collect]

theorem Follows.fed (follows : Follows request provider budget arrivals gathered state)
    (collected : gathered.artifacts = collect chunks) (pushed : state.pushAll later = .ok (final, more)) :
    Fed request provider budget (arrivals ++ later) (chunks ++ more) final := by
  induction later generalizing arrivals gathered state chunks more with
  | nil =>
    cases pushed
    rw [List.append_nil,List.append_nil]
    exact .ongoing collected follows
  | cons arrival later ih =>
    obtain ⟨next,released,rest,taken,went,rfl⟩ := pushAll_cons.mp pushed
    have outcome := @Follows.pushed _ _ _ _ _ _ _ arrival _ _ follows
    rw [taken] at outcome
    rw [List.append_cons]
    cases outcome with
    | @chunk next delivered chunk extended =>
      have joined : gathered.artifacts.extend chunk.name chunk.format chunk.bytes = collect (chunks ++ [chunk]) := by
        rw [collect_snoc,← collected]
      have grown := ih extended joined went
      rwa [List.append_assoc chunks] at grown
    | @ended next output verified finished =>
      have alone : later = [] ∧ final = next ∧ rest = [] := by
        cases later with
        | nil =>
          cases went
          exact ⟨rfl,rfl,rfl⟩
        | cons other later =>
          obtain ⟨_,_,_,taken,-⟩ := pushAll_cons.mp went
          obtain ⟨_,refused⟩ := @push_ended _ _ _ other _ _ (finish_some finished)
          rw [refused] at taken
          cases taken
      obtain ⟨rfl,rfl,rfl⟩ := alone
      rw [List.append_nil,Option.toList_none,List.append_nil,List.append_nil]
      exact .ended collected envelopes_snoc follows.gathers verified finished

theorem Follows.feeds (follows : Follows request provider budget arrivals gathered state)
    (accepts : Accepts request provider (envelopes (arrivals ++ (early ++ late))) budget output)
    (held : heldBytes (arrivals ++ (early ++ late)) ≤ maxInvocationBytes) (more : late ≠ []) :
    ∃ final chunks after, state.pushAll early = .ok (final, chunks) ∧ Follows request provider budget (arrivals ++ early) after final := by
  induction early generalizing arrivals gathered state with
  | nil =>
    rw [List.append_nil]
    exact ⟨state,[],gathered,rfl,follows⟩
  | cons arrival early ih =>
    rw [List.cons_append] at accepts held
    have outcome := @Follows.pushed _ _ _ _ _ _ _ arrival _ _ follows
    have taken := follows.not_refused accepts held
    generalize result : state.push arrival = pushed at outcome taken
    rcases taken with ⟨-,chunk,taken⟩ | ⟨alone,-⟩
    · obtain ⟨next,released⟩ := pushed
      cases taken
      cases outcome with
      | chunk extended =>
        rw [List.append_cons] at accepts held
        obtain ⟨final,chunks,after,pushed,reached⟩ := ih extended accepts held
        rw [List.append_cons]
        exact ⟨final,_,after,pushAll_cons.mpr ⟨next,_,chunks,result,pushed,rfl⟩,reached⟩
    · exact absurd (List.append_eq_nil_iff.mp alone).2 more

theorem pushAll_append : state.pushAll (early ++ late) = .ok (final, chunks) ↔
      ∃ middle first second, state.pushAll early = .ok (middle, first) ∧
        middle.pushAll late = .ok (final, second) ∧ chunks = first ++ second := by
  induction early generalizing state chunks with
  | nil =>
    rw [List.nil_append,StreamVerifier.pushAll]
    constructor
    · intro pushed
      exact ⟨state,[],chunks,rfl,pushed,rfl⟩
    · intro pushed
      obtain ⟨_,_,second,⟨⟩,pushed,rfl⟩ := pushed
      exact pushed
  | cons arrival early ih =>
    rw [List.cons_append,pushAll_cons]
    constructor
    · intro pushed
      obtain ⟨next,released,later,taken,pushed,rfl⟩ := pushed
      obtain ⟨middle,first,second,before,after,rfl⟩ := ih.mp pushed
      exact ⟨middle,_,second,pushAll_cons.mpr ⟨next,released,first,taken,before,rfl⟩,after,(List.append_assoc _ _ _).symm⟩
    · intro pushed
      obtain ⟨middle,first,second,whole,after,rfl⟩ := pushed
      obtain ⟨next,released,later,taken,before,rfl⟩ := pushAll_cons.mp whole
      exact ⟨next,released,later ++ second,taken,ih.mpr ⟨middle,later,second,before,after,rfl⟩,List.append_assoc _ _ _⟩

def concatenated (chunks : List ArtifactChunk) (name : String) : List UInt8 :=
  (chunks.filter fun chunk => chunk.name = name).flatMap ArtifactChunk.bytes

omit [Layout] [Xet] [Signing] in
theorem concatenated_snoc :
    concatenated (chunks ++ [chunk]) name = concatenated chunks name ++ if chunk.name = name then chunk.bytes else [] := by
  rw [concatenated,List.filter_append,List.flatMap_append,concatenated,List.filter_singleton]
  by_cases same : chunk.name = name <;> simp [same]

omit [Layout] [Xet] [Signing] in
theorem concatenated_none (absent : chunks.find? (fun chunk => chunk.name = name) = none) :
    concatenated chunks name = [] := by
  rw [List.find?_eq_none] at absent
  rw [concatenated,List.filter_eq_nil_iff.mpr absent]
  rfl

omit [Layout] [Xet] [Signing] in
theorem collect_lookup :
    (collect chunks).lookup name = (chunks.find? fun chunk => chunk.name = name).map fun first =>
      ⟨name,first.format,concatenated chunks name⟩ := by
  induction chunks using List.reverseRecOn generalizing name with
  | nil => rfl
  | append_singleton chunks chunk ih =>
    rw [collect_snoc,Artifacts.extend,List.find?_append,concatenated_snoc,ih]
    cases found : chunks.find? fun other => other.name = chunk.name with
    | none =>
      rw [Option.map_none]
      dsimp only
      rw [Slots.lookup_insert_if,ih]
      split
      · rename_i same
        subst same
        simp [found,concatenated_none found]
      · rename_i different
        simp [Ne.symm different]
    | some first =>
      rw [Option.map_some]
      dsimp only
      rw [Slots.lookup_insert_if,ih]
      split
      · rename_i same
        subst same
        simp [found]
      · rename_i different
        simp [Ne.symm different]

omit [Layout] [Signing] in
theorem conclude_artifacts (concludes : gathered.conclude event = .ok output) :
    output.artifacts = gathered.artifacts.values := by
  simp only [Gathered.conclude,bind_ok,rejectIf_ok,not_not] at concludes
  obtain ⟨_,-,concludes⟩ := concludes
  split at concludes
  · simp only [Gathered.fail,bind_ok,pure_ok,Prod.exists] at concludes
    obtain ⟨_,-,_,-,_,_,-,_,-,rfl⟩ := concludes
    rfl
  split at concludes
  · simp only [Gathered.close,Gathered.finish,bind_ok,okOr_ok,pure_ok,Prod.exists] at concludes
    obtain ⟨_,⟨_,terminal,-,_,-,rfl⟩,_,-,_,-,_,-,rfl⟩ := concludes
    rfl
  · cases concludes

structure Delivers (chunks : List ArtifactChunk) (output : InvocationOutput) : Prop where
  artifacts : ∀ artifact, artifact ∈ output.artifacts ↔
    ∃ first, chunks.find? (fun chunk => chunk.name = artifact.name) = some first ∧
      artifact.format = first.format ∧ artifact.bytes = concatenated chunks artifact.name
  distinct : (output.artifacts.map Artifact.name).Nodup

omit [Layout] [Xet] [Signing] in
theorem delivers_collect (same : output.artifacts = (collect chunks).values) : Delivers chunks output := by
  have named (name : String) (artifact : Artifact) (found : (collect chunks).lookup name = some artifact) : artifact.name = name := by
    rw [collect_lookup,Option.map_eq_some_iff] at found
    obtain ⟨first,-,rfl⟩ := found
    rfl
  refine ⟨?_,?_⟩
  · intro artifact
    rw [same,Slots.mem_values]
    constructor
    · intro listed
      obtain ⟨name,found⟩ := listed
      obtain rfl := named name artifact found
      rw [collect_lookup,Option.map_eq_some_iff] at found
      obtain ⟨first,found,made⟩ := found
      refine ⟨first,found,?_,?_⟩
      · rw [← made]
      · rw [← made]
    · intro released
      obtain ⟨first,found,format,bytes⟩ := released
      refine ⟨artifact.name,?_⟩
      rw [collect_lookup,found,Option.map_some,← format,← bytes]
  · rw [same,Slots.values_keys named]
    exact Ranked.sorted_nodup

-- The incremental verifier against the batch one, over one sequence of arrivals.
structure AgreesWithBatch (request : InvocationRequest) (provider : PublicKey) (budget : UInt64)
    (arrivals : List Arrival) : Prop where
  agree : ∀ output, (∃ start final chunks, StreamVerifier.new request provider budget = .ok start ∧
      start.pushAll arrivals = .ok (final, chunks) ∧
      final.finish = .ok (output, envelopes arrivals)) ↔
    verify request provider (envelopes arrivals) budget = .ok output
  prefixes : ∀ output, verify request provider (envelopes arrivals) budget = .ok output →
    ∀ early late, arrivals = early ++ late → late ≠ [] → ∃ start final chunks,
      StreamVerifier.new request provider budget = .ok start ∧
        start.pushAll early = .ok (final, chunks) ∧ final.output = none
  released : ∀ start final chunks output, StreamVerifier.new request provider budget = .ok start →
    start.pushAll arrivals = .ok (final, chunks) → final.output = some output →
      Delivers chunks output ∧ ∀ early late middle sofar, arrivals = early ++ late →
        start.pushAll early = .ok (middle, sofar) →
          ∀ name, concatenated sofar name <+: concatenated chunks name

theorem fed_new (opened : StreamVerifier.new request provider budget = .ok start) (pushed : start.pushAll arrivals = .ok (final, chunks)) :
    Fed request provider budget arrivals chunks final :=
  (follows_new opened).fed (show Gathered.empty.artifacts = collect [] from rfl) pushed

theorem fed_output (opened : StreamVerifier.new request provider budget = .ok start)
    (pushed : start.pushAll arrivals = .ok (final, chunks)) (ended : final.output = some output) :
    verify request provider (envelopes arrivals) budget = .ok output ∧ Delivers chunks output := by
  cases fed_new opened pushed with
  | ongoing collected follows => cases follows.pending.symm.trans ended
  | ended collected split gathers verified finishes =>
    have same := finish_some finishes
    cases ended.symm.trans same
    refine ⟨verified,delivers_collect ?_⟩
    obtain ⟨unclosed,after⟩ := @verifyEvents_after _ _ _ _ [_] rfl gathers
    have concludes := (verify_exact.mp verified).verified
    rw [split,after,verifyEvents_cons unclosed] at concludes
    rcases concludes with ⟨next,gathers,finished⟩ | ⟨-,concludes⟩
    · rw [verifyEvents,Gathered.finish,(gather_terminal gathers).trans unclosed] at finished
      cases finished
    · rw [conclude_artifacts concludes,collected]

theorem verified_fed (verified : verify request provider (envelopes (early ++ late)) budget = .ok output)
    (held : heldBytes (early ++ late) ≤ maxInvocationBytes) (more : late ≠ []) :
    ∃ start final chunks gathered, StreamVerifier.new request provider budget = .ok start ∧ start.pushAll early = .ok (final, chunks) ∧
      Follows request provider budget early gathered final := by
  have accepts := verify_exact.mp verified
  obtain ⟨start,opened⟩ := @new_runner _ _ _ budget accepts.runner
  obtain ⟨final,chunks,gathered,pushed,follows⟩ := (follows_new opened).feeds accepts held more
  exact ⟨start,final,chunks,gathered,opened,pushed,follows⟩

theorem agreesWithBatch (held : heldBytes arrivals ≤ maxInvocationBytes) :
    AgreesWithBatch request provider budget arrivals := by
  refine ⟨?_,?_,?_⟩
  · intro output
    constructor
    · intro fed
      obtain ⟨start,final,chunks,opened,pushed,finished⟩ := fed
      exact (fed_output opened pushed (finish_some finished)).1
    · intro verified
      obtain ⟨early,last,rfl⟩ : ∃ early last, arrivals = early ++ [last] := by
        cases arrivals using List.reverseRecOn with
        | nil => cases (verify_exact.mp verified).verified
        | append_singleton early last => exact ⟨early,last,rfl⟩
      obtain ⟨start,middle,chunks,gathered,opened,pushed,follows⟩ := verified_fed verified held (List.cons_ne_nil last [])
      have outcome := @Follows.pushed _ _ _ _ _ _ _ last _ _ follows
      have taken := follows.not_refused (verify_exact.mp verified) held
      generalize result : middle.push last = step at outcome taken
      rcases taken with ⟨more,-⟩ | ⟨-,taken⟩
      · exact absurd rfl more
      obtain ⟨final,released⟩ := step
      cases taken
      cases outcome with
      | ended again finished =>
        cases verified.symm.trans again
        refine ⟨start,final,chunks ++ [],opened,pushAll_append.mpr
          ⟨middle,chunks,[],pushed,pushAll_cons.mpr ⟨final,none,[],result,rfl,rfl⟩,rfl⟩,
          finished⟩
  · intro output verified early late split more
    subst split
    obtain ⟨start,final,chunks,gathered,opened,pushed,follows⟩ := verified_fed verified held more
    exact ⟨start,final,chunks,opened,pushed,follows.pending⟩
  · intro start final chunks output opened pushed ended
    refine ⟨(fed_output opened pushed ended).2,?_⟩
    intro early late middle sofar split fed name
    subst split
    obtain ⟨_,_,second,first,-,rfl⟩ := pushAll_append.mp pushed
    cases fed.symm.trans first
    rw [concatenated,concatenated,List.filter_append,List.flatMap_append]
    exact List.prefix_append _ _

def BindsTranscript (request : InvocationRequest) (provider : PublicKey) : Prop :=
  ∀ hashed : Set (List UInt8), Set.InjOn Xet.hash hashed →
    ∀ (left right : List OutputEventEnvelope) (budget allowance : UInt64) (one other : InvocationOutput),
      (∀ event ∈ left ++ right, event.event.body.canonicalBytes ∈ hashed ∧ event.payload ∈ hashed) →
      verify request provider left budget = .ok one →
      verify request provider right allowance = .ok other →
      left.getLast?.map OutputEventEnvelope.eventCommitment = right.getLast?.map OutputEventEnvelope.eventCommitment →
      left.map unsigned = right.map unsigned ∧ one = other

theorem incremental_is_batch (request : InvocationRequest) (provider : PublicKey) (budget : UInt64)
    (arrivals : List Arrival) (held : heldBytes arrivals ≤ maxInvocationBytes) :
    AgreesWithBatch request provider budget arrivals ∧
      (∀ (verifier : StreamVerifier) (arrival : Arrival) (failure : CanonicalDecodeError),
        (verifier.push arrival).2 = .error failure → (verifier.push arrival).1 = verifier) ∧
      BindsTranscript request provider := by
  refine ⟨agreesWithBatch held,fun _ _ _ refused => StreamVerifier.push_refused refused,?_⟩
  intro hashed apart left right budget allowance one other listed verified verified' same
  exact accepted_bound apart listed (verify_exact.mp verified) (verify_exact.mp verified') same

end Incremental

namespace Sample

@[reducible] def digest : Xet :=
  ⟨fun bytes => ⟨bigEndian 32 (bytes.foldl
    (fun sum byte => (sum * 263 + byte.toNat + 1) % (2^255 - 19)) 7),by simp⟩⟩

def runner : PublicKey := .secp256k1 ⟨List.replicate 33 2,by simp⟩

def signatureOver (digest : Digest) : Signature := .secp256k1 ⟨digest.bytes ++ digest.bytes,by simp [digest.length_eq]⟩

-- The one other signature that passes for the same digest.
def secondOver (digest : Digest) : Signature := .secp256k1 ⟨digest.bytes ++ List.replicate 32 0,by simp [digest.length_eq]⟩

@[reducible] def curve : LawfulSigning where
  SigningKey := Unit
  publicKey _ := runner
  signDigest _ digest := .ok (signatureOver digest)
  verifyDigestSignature key signature digest :=
    if key = runner ∧ (signature = signatureOver digest ∨ signature = secondOver digest) then .ok () else .error "bad signature"
  accepted := by
    intro key digest signature signed
    cases signed
    exact if_pos ⟨rfl,.inl rfl⟩

@[reducible] def layout : Layout := ⟨352,by decide⟩

attribute [local instance] digest curve layout

def request : InvocationRequest :=
  ⟨⟨List.replicate 32 5,by simp⟩,⟨List.replicate 32 6,by simp⟩,runner,⟨List.replicate 32 7,by simp⟩,
    .producerSigned,false⟩

def builder : OutputTranscriptBuilder := .new (invokeScheme request.assurance) request.inputCommitment () canonicalization

def greeting : InvocationOutput := ⟨.succeeded,[⟨"text","utf8",[104,105]⟩],[]⟩

def events : List OutputEventEnvelope :=
  (do
    let (builder, chunk) ← builder.pushEnvelope artifactChunkKind
      (Wire.chunk.put (artifactChunkKind, ⟨"text","utf8",0,[104,105]⟩))
    let (_, ends) ← builder.pushEnvelope terminalKind
      (Wire.terminal.put (terminalKind, greeting.terminal.toOption.getD ⟨[],[]⟩))
    pure [chunk,ends] : Except StreamVerifyError _).toOption.getD []

def arrivals : List Arrival := events.map fun event => ⟨event,64,256⟩

def resigned : List OutputEventEnvelope := events.map fun event =>
  { event with event := { event.event with signature := secondOver event.event.body.signaturePreimage } }

def hashes : List (List UInt8) := events.flatMap fun event => [event.event.body.canonicalBytes,event.payload]

theorem hashes_listed : ∀ event ∈ events ++ resigned, event.event.body.canonicalBytes ∈ hashes ∧ event.payload ∈ hashes := by
  intro event listed
  rcases List.mem_append.mp listed with signed | again
  · exact ⟨List.mem_flatMap_of_mem signed (by simp),List.mem_flatMap_of_mem signed (by simp)⟩
  · obtain ⟨original,signed,rfl⟩ := List.mem_map.mp again
    exact ⟨List.mem_flatMap_of_mem signed (by simp),List.mem_flatMap_of_mem signed (by simp)⟩

theorem incremental_is_batch_resigned :
    verify request runner (envelopes arrivals) 4096 = .ok greeting ∧ AgreesWithBatch request runner 4096 arrivals ∧
      resigned ≠ events ∧ verify request runner resigned 4096 = .ok greeting ∧ events.map unsigned = resigned.map unsigned := by
  have arrived : envelopes arrivals = events := by simp [envelopes,arrivals,Function.comp_def]
  have verified : verify request runner events 4096 = .ok greeting := by decide +kernel
  have again : verify request runner resigned 4096 = .ok greeting := by decide +kernel
  have last : events.getLast?.map OutputEventEnvelope.eventCommitment = resigned.getLast?.map OutputEventEnvelope.eventCommitment := by
    rw [resigned,List.getLast?_map,Option.map_map]
    rfl
  obtain ⟨agrees,-,binds⟩ := incremental_is_batch request runner 4096 arrivals (by decide +kernel)
  have bound := binds { bytes | bytes ∈ hashes } (Lists.injOn_listed (by decide +kernel)) events resigned 4096 4096 greeting greeting
    hashes_listed verified again last
  rw [arrived]
  exact ⟨verified,agrees,by decide +kernel,again,bound.1⟩

end Sample

end Hellas.Invocation
