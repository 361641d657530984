import Hellas.Invocation.Completed

-- Whole runs of a producer: any pushes, taken or refused, and then one way to end.

namespace Hellas.Invocation

open Cbor Guard Kernel Words

namespace OutputStream

def pushAll [Xet] [Signing] (stream : OutputStream) :
    List Attempt → OutputStream × List (Attempt × OutputEventEnvelope)
  | [] => (stream, [])
  | attempt :: rest =>
    match stream.push attempt with
    | (next, .error _) => next.pushAll rest
    | (next, .ok envelope) => ((next.pushAll rest).1, (attempt, envelope) :: (next.pushAll rest).2)

theorem refused_unchanged [Xet] [Signing] {stream : OutputStream} {attempt : Attempt}
    {failure : OutputError} (refused : (stream.push attempt).2 = .error failure) :
    (stream.push attempt).1 = stream := by
  unfold push at refused ⊢
  cases pushed : stream.pushInner attempt failurePayloadBytes with
  | error cause => rfl
  | ok result =>
    rw [pushed] at refused
    cases refused

end OutputStream

section Signed

variable [Xet] [LawfulSigning] {request : InvocationRequest} {key : SigningKey} {budget : UInt64}
  {stream : OutputStream} {output : InvocationOutput} {chunkSize : Nat}
  {taken : List (Attempt × OutputEventEnvelope)}

def published (taken : List (Attempt × OutputEventEnvelope)) : List OutputEventEnvelope := taken.map Prod.snd

def delivered (taken : List (Attempt × OutputEventEnvelope)) : List ArtifactChunk := taken.map fun push => push.1.chunk

-- A live stream: what it published, with the room of a failure kept after the first push.
structure Live (request : InvocationRequest) (key : SigningKey) (budget : UInt64)
    (taken : List (Attempt × OutputEventEnvelope)) (stream : OutputStream) : Prop where
  held : ∃ last gathered, Published request key budget (published taken) last (delivered taken)
    gathered ∧ stream = streamAt request key budget (published taken) last gathered
  room : taken ≠ [] → payloadBytes (published taken) + failurePayloadBytes ≤ budget.toNat

theorem live_new {start : OutputStream} (opened : OutputStream.new request key budget = .ok start) :
    Live request key budget [] start := by
  obtain ⟨last,made,same⟩ := new_published opened
  exact ⟨⟨last,_,made,same⟩,fun more => absurd rfl more⟩

theorem Live.pushed {attempt : Attempt} {next : OutputStream} {envelope : OutputEventEnvelope} (live : Live request key budget taken stream)
    (pushed : stream.pushInner attempt failurePayloadBytes = .ok (next, envelope)) :
    Live request key budget (taken ++ [(attempt, envelope)]) next := by
  obtain ⟨last,gathered,made,rfl⟩ := live.held
  obtain ⟨passed,rfl⟩ := pushInner_taken made.room pushed
  obtain ⟨after,same,grown⟩ := made.pushed passed
  have split : published (taken ++ [(attempt, envelope)]) = published taken ++ [envelope] := List.map_append
  have chunks : delivered (taken ++ [(attempt, envelope)]) = delivered taken ++ [attempt.chunk] := List.map_append
  refine ⟨⟨envelope.eventCommitment,after,?_,?_⟩,fun _ => ?_⟩
  · rw [split,chunks]
    exact grown
  · rw [split,streamAt,streamAt,same]
  · have reserved := passed.reserved
    rw [split,payloadBytes_snoc,passed.linked.payload_eq]
    omega

theorem Live.pushAll (live : Live request key budget taken stream) {attempts : List Attempt} :
    Live request key budget (taken ++ (stream.pushAll attempts).2) (stream.pushAll attempts).1 := by
  induction attempts generalizing stream taken with
  | nil =>
    rw [OutputStream.pushAll,List.append_nil]
    exact live
  | cons attempt rest ih =>
    rw [OutputStream.pushAll,OutputStream.push]
    cases pushed : stream.pushInner attempt failurePayloadBytes with
    | error failure => exact ih live
    | ok result =>
      have rest := ih (live.pushed pushed)
      rw [List.append_assoc] at rest
      exact rest

-- The output of a failure is what was published, after the envelopes that were returned.
structure FailsAs (request : InvocationRequest) (key : SigningKey) (budget : UInt64)
    (taken : List (Attempt × OutputEventEnvelope)) (reason : FailureReason)
    (output : InvocationOutput) (events : List OutputEventEnvelope) : Prop where
  verified : verify request (Signing.publicKey key) events budget = .ok output
  leading : published taken <+: events
  outcome : output.outcome = .failed reason
  carried : Delivers (delivered taken) output

variable {reason : FailureReason} {artifact : Artifact} {next : OutputStream}

theorem Live.fails (live : Live request key budget taken stream) (failed : stream.fail reason = .ok (output, events)) :
    FailsAs request key budget taken reason output events := by
  obtain ⟨last,gathered,made,rfl⟩ := live.held
  obtain ⟨verified,leading,rfl⟩ := made.fails failed
  exact ⟨verified,leading,rfl,delivers_collect (by rw [made.collected])⟩

theorem Live.resumes (live : Live request key budget taken stream) :
    OutputStream.resume request key (published taken) budget = .ok stream := by
  obtain ⟨last,gathered,made,rfl⟩ := live.held
  exact made.resumes

theorem Live.finishes (live : Live request key budget taken stream) (finished : stream.finish output chunkSize = .ok events) :
    verify request (Signing.publicKey key) events budget = .ok output ∧ published taken <+: events := by
  obtain ⟨last,gathered,made,rfl⟩ := live.held
  unfold OutputStream.finish at finished
  split at finished
  · cases finished
  · rename_i next _ appended
    obtain ⟨leading,-,verified⟩ := appendCompletion_accepted made appended
    simp only [OutputTranscriptBuilder.finish,map_ok,mapError_ok,bind_ok,pure_ok] at finished
    obtain ⟨_,⟨_,-,rfl⟩,rfl⟩ := finished
    exact ⟨verified,leading⟩

theorem Continued.truncated (continued : Continued request key budget events stream) :
    ∃ signed, stream.signedEvents = .ok signed ∧ signed.take events.length = events ∧
      stream.request = request ∧ stream.key = key ∧ stream.maximumPayloadBytes = budget := by
  obtain ⟨more,last,chunks,gathered,-,rfl⟩ := continued
  refine ⟨events ++ more,?_,List.take_left,rfl,rfl,rfl⟩
  rw [OutputStream.signedEvents,OutputTranscriptBuilder.finish]
  by_cases empty : events ++ more = []
  · have fresh : (streamAt request key budget (events ++ more) last gathered).inner.events = [] :=
      empty
    rw [fresh,empty]
    rfl
  · have begun : (streamAt request key budget (events ++ more) last gathered).inner.events.isEmpty =
        false := List.isEmpty_eq_false_iff.mpr empty
    rw [begun]
    rfl

theorem Live.finishOrFail_eq (live : Live request key budget taken stream) :
    (∃ next, stream.appendCompletion output chunkSize = (next, .ok ()) ∧
      verify request (Signing.publicKey key) next.inner.events budget = .ok output ∧
      published taken <+: next.inner.events ∧
      stream.finishOrFail output chunkSize = .ok (output, next.inner.events)) ∨
    ∃ reason, stream.finishOrFail output chunkSize = stream.fail reason := by
  obtain ⟨last,gathered,made,same⟩ := live.held
  unfold OutputStream.finishOrFail
  split
  · rename_i next _ appended
    rw [same] at appended
    obtain ⟨leading,begun,verified⟩ := appendCompletion_accepted made appended
    rw [← same] at appended
    refine .inl ⟨next,appended,verified,leading,?_⟩
    rw [OutputTranscriptBuilder.finish,List.isEmpty_eq_false_iff.mpr begun]
    rfl
  · rename_i next cause appended
    rw [same] at appended
    obtain ⟨signed,kept,cut,asked,signer,allowed⟩ := (appendCompletion_failed made appended).truncated
    refine .inr ⟨OutputStream.causeOf cause,?_⟩
    have length : stream.inner.events.length = (published taken).length := by
      rw [same]
      rfl
    rw [kept,asked,signer,allowed,length]
    change (OutputStream.resume request key (signed.take _) budget >>= _) = _
    rw [cut,live.resumes]
    rfl

theorem Live.failure_room (live : Live request key budget taken stream) (room : failurePayloadBytes ≤ budget.toNat ∨ taken ≠ []) :
    payloadBytes (published taken) + failurePayloadBytes ≤ budget.toNat := by
  rcases room with large | begun
  · by_cases empty : taken = []
    · subst empty
      exact (Nat.zero_add _).symm ▸ large
    · exact live.room empty
  · exact live.room begun

theorem Live.fail_fits (live : Live request key budget taken stream) (room : failurePayloadBytes ≤ budget.toNat ∨ taken ≠ []) :
    stream.fail reason ≠ .error .limit := by
  have fits := live.failure_room room
  obtain ⟨last,gathered,made,rfl⟩ := live.held
  intro refused
  exact Published.fail_fits fits _ refused rfl

-- Everything that can end a live stream, against the verifier.
structure EndsVerified (request : InvocationRequest) (key : SigningKey) (budget : UInt64)
    (stream : OutputStream) (taken : List (Attempt × OutputEventEnvelope)) : Prop where
  finish : ∀ output chunkSize events, stream.finish output chunkSize = .ok events →
    verify request (Signing.publicKey key) events budget = .ok output ∧ published taken <+: events
  finishOrFail : ∀ output chunkSize result events,
    stream.finishOrFail output chunkSize = .ok (result, events) →
      verify request (Signing.publicKey key) events budget = .ok result ∧
        published taken <+: events ∧
        (result = output ∨ ∃ reason, FailsAs request key budget taken reason result events)
  fail : ∀ reason result events, stream.fail reason = .ok (result, events) →
    FailsAs request key budget taken reason result events
  resume : ∀ reason result events,
    (OutputStream.resume request key (published taken) budget >>= fun resumed =>
      resumed.fail reason) = .ok (result, events) →
        FailsAs request key budget taken reason result events
  room : failurePayloadBytes ≤ budget.toNat ∨ taken ≠ [] → ∀ reason output chunkSize,
    stream.fail reason ≠ .error .limit ∧ stream.finishOrFail output chunkSize ≠ .error .limit

theorem Live.endsVerified (live : Live request key budget taken stream) :
    EndsVerified request key budget stream taken := by
  refine ⟨fun _ _ _ finished => live.finishes finished,?_,fun _ _ _ failed => live.fails failed,
    ?_,?_⟩
  · intro output chunkSize result events ended
    rcases @Live.finishOrFail_eq _ _ _ _ _ _ output chunkSize _ live with
      ⟨next,-,verified,leading,same⟩ | ⟨reason,same⟩
    · rw [same] at ended
      cases ended
      exact ⟨verified,leading,.inl rfl⟩
    · rw [same] at ended
      have failed := live.fails ended
      exact ⟨failed.verified,failed.leading,.inr ⟨reason,failed⟩⟩
  · intro reason result events ended
    rw [live.resumes] at ended
    exact live.fails ended
  · intro room reason output chunkSize
    refine ⟨live.fail_fits room,?_⟩
    rcases @Live.finishOrFail_eq _ _ _ _ _ _ output chunkSize _ live with
      ⟨next,-,-,-,same⟩ | ⟨reason,same⟩
    · rw [same]
      intro refused
      cases refused
    · rw [same]
      exact live.fail_fits room

omit [Xet] [LawfulSigning] in
theorem piece_slice :
    OutputStream.piece artifact chunkSize index = OutputStream.slice artifact (index * chunkSize)
      (min artifact.bytes.length (index * chunkSize + chunkSize)) := by
  have bytes : (artifact.bytes.drop (index * chunkSize)).take chunkSize =
      (artifact.bytes.take (min artifact.bytes.length (index * chunkSize + chunkSize))).drop (index * chunkSize) := by
    rw [List.drop_take,List.take_eq_take_iff,List.length_drop]
    omega
  rw [OutputStream.piece,OutputStream.slice,bytes]

def pieceOffset (artifact : Artifact) (chunkSize : Nat) : Nat → Option Nat
  | 0 => none
  | index + 1 => some (min artifact.bytes.length (index * chunkSize + chunkSize))

variable {events : List OutputEventEnvelope}

theorem pieces_before (continued : Continued request key budget events stream) (absent : stream.artifacts.lookup artifact.name = none)
    (few : ∀ index < count, index * chunkSize < artifact.bytes.length)
    (pushed : stream.pushEach ((List.range count).map (OutputStream.piece artifact chunkSize)) = .ok next) :
    Continued request key budget events next ∧ Reached next.artifacts artifact (pieceOffset artifact chunkSize count) ∧
      ∀ name, name ≠ artifact.name → next.artifacts.lookup name = stream.artifacts.lookup name := by
  induction count generalizing next with
  | zero =>
    cases pushed
    exact ⟨continued,absent,fun _ _ => rfl⟩
  | succ count ih =>
    rw [List.range_succ,List.map_append,OutputStream.pushEach,List.foldlM_append,bind_ok] at pushed
    obtain ⟨middle,before,pushed⟩ := pushed
    simp only [List.map_singleton,List.foldlM_cons,List.foldlM_nil,bind_ok,map_ok,pure_ok,Prod.exists] at pushed
    obtain ⟨_,⟨_,envelope,pushed,rfl⟩,rfl⟩ := pushed
    obtain ⟨continued,reached,apart⟩ := ih (fun index low => few index (by omega)) before
    have place : (pieceOffset artifact chunkSize count).getD 0 = count * chunkSize := by
      cases count with
      | zero => simp [pieceOffset]
      | succ count =>
        have inside := few (count + 1) (by omega)
        rw [Nat.succ_mul] at inside ⊢
        exact Nat.min_eq_right (by omega)
    have inside := few count (by omega)
    rw [piece_slice,← place] at pushed
    obtain ⟨continued,reached,further⟩ := continued.reaches reached (by omega) (Nat.min_le_left _ _) pushed
    rw [place] at reached
    exact ⟨continued,reached,fun name away => (further name away).trans (apart name away)⟩

omit [Xet] [LawfulSigning] in
theorem pieces_cover {length count : Nat} (positive : 0 < chunkSize) (counted : count = (length + chunkSize - 1) / chunkSize) :
    (∀ index < count, index * chunkSize < length) ∧ length ≤ count * chunkSize := by
  subst counted
  constructor
  · intro index low
    have fits := Nat.div_mul_le_self (length + chunkSize - 1) chunkSize
    have next := Nat.mul_le_mul_right chunkSize (Nat.succ_le_of_lt low)
    rw [Nat.succ_mul] at next
    omega
  · have covers := Nat.lt_mul_div_succ (length + chunkSize - 1) positive
    rw [Nat.mul_succ,Nat.mul_comm chunkSize] at covers
    omega

theorem pieces_tailed (positive : 0 < chunkSize) (continued : Continued request key budget events stream)
    (absent : stream.artifacts.lookup artifact.name = none)
    (pushed : stream.pushEach (OutputStream.pieces artifact chunkSize) = .ok next) :
    Tailed request key budget events stream [artifact] (next, .ok ()) := by
  obtain ⟨few,covers⟩ := @pieces_cover chunkSize artifact.bytes.length _ positive rfl
  rw [OutputStream.pieces,OutputStream.pushEach,List.foldlM_append,bind_ok] at pushed
  obtain ⟨middle,before,pushed⟩ := pushed
  obtain ⟨continued,reached,apart⟩ := pieces_before continued absent few before
  by_cases empty : artifact.bytes = []
  · have zero : (artifact.bytes.length + chunkSize - 1) / chunkSize = 0 := by
      rw [empty,List.length_nil,Nat.zero_add]
      exact Nat.div_eq_of_lt (by omega)
    rw [zero] at reached
    have alone : (⟨artifact.name,artifact.format,0,[]⟩ : Attempt) = OutputStream.slice artifact ((Option.none : Option Nat).getD 0) 0 := by
      rw [OutputStream.slice,List.take_zero]
      rfl
    rw [if_pos empty,alone] at pushed
    simp only [List.foldlM_cons,List.foldlM_nil,bind_ok,map_ok,pure_ok,Prod.exists] at pushed
    obtain ⟨_,⟨_,envelope,pushed,rfl⟩,rfl⟩ := pushed
    obtain ⟨continued,reached,further⟩ := continued.reaches reached (Nat.le_refl _) (Nat.zero_le _) pushed
    refine ⟨continued,fun name other => ?_,fun _ => ?_⟩
    · rw [List.map_singleton,List.mem_singleton] at other
      exact (further name other).trans (apart name other)
    · rw [List.forall_mem_singleton]
      exact reached.complete (by rw [remaining,empty]; rfl)
  · rw [if_neg empty] at pushed
    cases pushed
    refine ⟨continued,fun name other => ?_,fun _ => ?_⟩
    · rw [List.map_singleton,List.mem_singleton] at other
      exact apart name other
    · rw [List.forall_mem_singleton]
      have several := List.length_pos_of_ne_nil empty
      generalize (artifact.bytes.length + chunkSize - 1) / chunkSize = count at reached covers
      cases count with
      | zero => omega
      | succ count =>
        rw [Nat.succ_mul] at covers
        refine reached.complete ?_
        rw [pieceOffset,remaining]
        omega

theorem allPieces_tailed {artifacts : List Artifact} (positive : 0 < chunkSize)
    (continued : Continued request key budget events stream) (distinct : (artifacts.map Artifact.name).Nodup)
    (absent : ∀ artifact ∈ artifacts, stream.artifacts.lookup artifact.name = none)
    (pushed : stream.pushEach (artifacts.flatMap fun artifact => OutputStream.pieces artifact chunkSize) = .ok next) :
    Tailed request key budget events stream artifacts (next, .ok ()) := by
  induction artifacts generalizing stream with
  | nil =>
    cases pushed
    exact ⟨continued,fun _ _ => rfl,fun _ artifact listed => by cases listed⟩
  | cons artifact rest ih =>
    rw [List.map_cons,List.nodup_cons] at distinct
    rw [List.forall_mem_cons] at absent
    rw [List.flatMap_cons,OutputStream.pushEach,List.foldlM_append,bind_ok] at pushed
    obtain ⟨middle,before,pushed⟩ := pushed
    have first := pieces_tailed positive continued absent.1 before
    refine first.cons distinct.1 (ih first.continued distinct.2 ?_ pushed)
    intro other listed
    have away : other.name ≠ artifact.name := fun same => distinct.1 (same ▸ List.mem_map_of_mem listed)
    exact (first.apart away).trans (absent.2 other listed)

theorem sign_verifies {events : List OutputEventEnvelope} (signed : output.sign request key chunkSize = .ok events) :
    verify request (Signing.publicKey key) events (UInt64.ofNat maxInvocationBytes) = .ok output := by
  simp only [InvocationOutput.sign,bind_ok] at signed
  obtain ⟨start,opened,signed⟩ := signed
  split at signed
  · rename_i reason outcome
    simp only [InvocationOutput.contentId,outcome,bind_ok,mapError_ok,rejectIf_ok,not_not,not_or,map_ok,pure_ok,Prod.exists] at signed
    obtain ⟨_,⟨terminal,made,_,bare,-⟩,_,⟨positive,-⟩,next,pushed,result,_,failed,rfl⟩ := signed
    have terminates := terminal_ok made
    obtain ⟨last,nothing,rfl⟩ := new_published opened
    obtain ⟨⟨more,last,chunks,after,published,rfl⟩,elsewhere,complete⟩ :=
      allPieces_tailed (Nat.pos_of_ne_zero positive) nothing.continued terminates.distinct (fun _ _ => rfl) pushed
    obtain ⟨verified,-,rfl⟩ := published.fails failed
    have values : after.artifacts.values = output.artifacts := terminates.values (complete rfl) elsewhere
    rw [verified,values,← outcome,← bare]
  · exact ((live_new opened).finishes signed).1

theorem produced_verifies (request : InvocationRequest) (key : SigningKey) (budget : UInt64) (start : OutputStream)
    (opened : OutputStream.new request key budget = .ok start) (attempts : List Attempt) :
    EndsVerified request key budget (start.pushAll attempts).1 (start.pushAll attempts).2 ∧
      (∀ (stream : OutputStream) (attempt : Attempt) (failure : OutputError),
        (stream.push attempt).2 = .error failure → (stream.push attempt).1 = stream) ∧
      ∀ (output : InvocationOutput) (chunkSize : Nat) (events : List OutputEventEnvelope),
        output.sign request key chunkSize = .ok events →
          verify request (Signing.publicKey key) events (UInt64.ofNat maxInvocationBytes) = .ok output := by
  refine ⟨?_,fun _ _ _ refused => OutputStream.refused_unchanged refused,
    fun _ _ _ signed => sign_verifies signed⟩
  have live := @Live.pushAll _ _ _ _ _ _ _ (live_new opened) attempts
  rw [List.nil_append] at live
  exact live.endsVerified

end Signed

namespace Sample

attribute [local instance] digest curve

def attempts : List Attempt := [⟨"text","utf8",0,[104,105]⟩,⟨"text","utf8",0,[33]⟩]

def written : InvocationOutput := ⟨.succeeded,[⟨"text","utf8",[104,105,33]⟩],[]⟩

def started : OutputStream := ⟨request,(),.new (invokeScheme request.assurance) request.inputCommitment () canonicalization,∅,0,4096⟩

theorem produced_verifies_tail :
    (started.pushAll attempts).2.length = 1 ∧ ((started.pushAll attempts).1.finish written 2).isOk = true ∧
      EndsVerified request () 4096 (started.pushAll attempts).1 (started.pushAll attempts).2 :=
  ⟨by decide +kernel,by decide +kernel,(produced_verifies request () 4096 started rfl attempts).1⟩

end Sample

end Hellas.Invocation
