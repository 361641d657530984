import Hellas.Invocation.Producer

-- Every transcript a producer ends verifies, at its own budget, to the output it was ended with.

namespace Hellas.Invocation

open Cbor Guard Kernel Words

section Sizes

variable {attempt : Attempt}

theorem text_length : (Item.text.put value).length ≤ 9 + (Item.utf8 value).length := by
  have lead : (header 3 (Item.utf8 value).length).length ≤ 9 := header_length_le
  change (header 3 _ ++ _).length ≤ _
  rw [List.length_append]
  omega

theorem label_short (labelled : label value = .ok ()) : (Item.utf8 value).length ≤ maxLabelBytes := by
  simp only [label,rejectIf_ok,not_or,Nat.not_lt] at labelled
  exact labelled.2.1

theorem chunk_put : Wire.chunk.put (kind, chunk) =
    header 4 2 ++ (Item.text.put kind ++ (header 5 4 ++ ((Item.text.put "name" ++ Item.text.put chunk.name) ++
        ((Item.text.put "bytes" ++ (header 2 chunk.bytes.length ++ chunk.bytes)) ++
          ((Item.text.put "format" ++ Item.text.put chunk.format) ++ (Item.text.put "offset" ++ header 0 chunk.offset.toNat)))))) := rfl

theorem payload_bounds (name : label attempt.name = .ok ()) (format : label attempt.format = .ok ()) :
    attempt.bytes.length ≤ attempt.payload.length ∧ attempt.payload.length ≤ attempt.bytes.length + 2048 := by
  have first := label_short name
  have second := label_short format
  have third : (Item.text.put attempt.name).length ≤ _ := text_length
  have fourth : (Item.text.put attempt.format).length ≤ _ := text_length
  have fifth : (header 2 attempt.bytes.length).length ≤ 9 := header_length_le
  have sixth : (header 0 attempt.offset.toNat).length ≤ 9 := header_length_le
  have fixed : (header 4 2).length + (Item.text.put artifactChunkKind).length +
      (header 5 4).length + (Item.text.put "name").length + (Item.text.put "bytes").length +
      (Item.text.put "format").length + (Item.text.put "offset").length ≤ 100 := by
    decide +kernel
  rw [maxLabelBytes] at first second
  rw [Attempt.payload,chunk_put,Attempt.chunk]
  simp only [List.length_append]
  omega

theorem chunk_decodes (name : label attempt.name = .ok ()) (format : label attempt.format = .ok ())
    (small : attempt.bytes.length ≤ maxChunkBytes) :
    decodeCanonicalDagCbor Wire.chunk attempt.payload = .ok (artifactChunkKind, attempt.chunk) := by
  have first := label_short name
  have second := label_short format
  rw [maxLabelBytes] at first second
  rw [maxChunkBytes] at small
  have fits : Wire.chunk.fits (artifactChunkKind, attempt.chunk) := by
    refine ⟨?_,Nat.lt_of_le_of_lt first (by decide),Nat.lt_of_le_of_lt small (by decide),
      Nat.lt_of_le_of_lt second (by decide),trivial⟩
    show (Item.utf8 artifactChunkKind).length < 2^64
    decide +kernel
  rw [decodeCanonicalDagCbor,okOr_ok]
  exact Item.decodeCanonical_put fits

theorem failure_length {reason : FailureReason} :
    (Wire.failure.put (failureKind, reason)).length ≤ failurePayloadBytes := by
  cases reason <;> decide +kernel

theorem failure_decodes :
    decodeCanonicalDagCbor Wire.failure (Wire.failure.put (failureKind, reason)) = .ok (failureKind, reason) := by
  have fits : Wire.failure.fits (failureKind, reason) := by
    constructor
    · show (Item.utf8 failureKind).length < 2^64
      decide +kernel
    · show (Item.utf8 reason.label).length < 2^64
      cases reason <;> decide +kernel
  rw [decodeCanonicalDagCbor,okOr_ok]
  exact Item.decodeCanonical_put fits

end Sizes

theorem reserve_ok [Signing] {stream : OutputStream} :
    stream.reserve bytes = .ok () ↔ stream.payloadBytes + bytes ≤ stream.maximumPayloadBytes.toNat := by
  have small := stream.maximumPayloadBytes.toNat_lt
  unfold OutputStream.reserve usizeAdd
  split
  · rename_i total added
    split at added
    · cases added
      rw [rejectIf_ok,Nat.not_lt]
    · cases added
  · rename_i added
    split at added
    · cases added
    · constructor
      · intro impossible
        cases impossible
      · intro fits
        omega

def Artifacts.grown (artifacts : Artifacts) (attempt : Attempt) : Artifact :=
  ((artifacts.lookup attempt.name).map fun artifact =>
    { artifact with bytes := artifact.bytes ++ attempt.bytes }).getD ⟨attempt.name,attempt.format,attempt.bytes⟩

theorem extend_lookup {artifacts : Artifacts} {attempt : Attempt} :
    (artifacts.extend attempt.name attempt.format attempt.bytes).lookup name =
      if name = attempt.name then some (artifacts.grown attempt) else artifacts.lookup name := by
  rw [Artifacts.extend,Artifacts.grown]
  cases artifacts.lookup attempt.name with
  | none => exact Slots.lookup_insert_if
  | some artifact => exact Slots.lookup_insert_if

section Produced

variable [Xet] [LawfulSigning] {request : InvocationRequest} {key : SigningKey} {budget : UInt64}
  {events : List OutputEventEnvelope} {last : Digest} {chunks : List ArtifactChunk}
  {gathered : Gathered}

def builderAt (request : InvocationRequest) (key : SigningKey) (events : List OutputEventEnvelope)
    (last : Digest) : OutputTranscriptBuilder :=
  ⟨invokeScheme request.assurance,request.inputCommitment,streamIdOf request.inputCommitment,key,
    canonicalization,last,UInt64.ofNat events.length,events⟩

-- One more envelope is the next link the verifier expects.
structure Linked (request : InvocationRequest) (key : SigningKey)
    (events : List OutputEventEnvelope) (last : Digest) (kind : String) (payload : List UInt8)
    (envelope : OutputEventEnvelope) : Prop where
  payload_eq : envelope.payload = payload
  kind_eq : envelope.event.body.kind = kind
  canonical : envelope.event.body.canonicalization = canonicalization
  room : events.length + 1 < 2^64
  continues : verifyOutputEventContinuation (invokeScheme request.assurance)
    request.inputCommitment (Signing.publicKey key) (UInt64.ofNat events.length) last envelope =
      .ok envelope.eventCommitment

theorem pushEnvelope_linked (room : events.length < 2^64)
    (pushed : (builderAt request key events last).pushEnvelope kind payload = .ok (next, envelope)) :
    next = builderAt request key (events ++ [envelope]) envelope.eventCommitment ∧
      Linked request key events last kind payload envelope := by
  simp only [OutputTranscriptBuilder.pushEnvelope,SignedOutputEvent.sign,OutputEventEnvelope.new,
    bind_ok,okOr_ok,rejectIf_ok,not_not,mapError_ok,pure_ok,Prod.mk.injEq] at pushed
  obtain ⟨sequence,counted,_,⟨_,signer,signature,signed,rfl⟩,_,⟨_,hashes,rfl⟩,rfl,rfl⟩ := pushed
  have added := checkedAdd_exact.mp counted
  have place : (builderAt request key events last).nextSequence.toNat = events.length := UInt64.toNat_ofNat_of_lt' room
  rw [place,UInt64.toNat_one] at added
  have grown : events.length + 1 < 2^64 := added ▸ sequence.toNat_lt
  refine ⟨?_,rfl,rfl,rfl,grown,?_⟩
  · have same : sequence = UInt64.ofNat (events.length + 1) := by
      rw [← UInt64.toNat_inj,UInt64.toNat_ofNat_of_lt' grown,added]
    conv_rhs => rw [builderAt,List.length_append,List.length_singleton,← same]
    rfl
  · have accepted := LawfulSigning.accepted _ _ _ signed
    simp only [verifyOutputEventContinuation,OutputEventEnvelope.verify,SignedOutputEvent.verify,
      bind_ok,rejectIf_ok,not_not,mapError_ok,pure_ok]
    exact ⟨(),⟨(),hashes,(),rfl,(),rfl,accepted⟩,(),rfl,(),rfl,(),rfl,(),rfl,(),rfl,trivial⟩

-- What has been signed so far, as a verifier would read it.
structure Published (request : InvocationRequest) (key : SigningKey) (budget : UInt64)
    (events : List OutputEventEnvelope) (last : Digest) (chunks : List ArtifactChunk)
    (gathered : Gathered) : Prop where
  runner : request.runnerPublicKey = Signing.publicKey key
  chained : verifyChain (invokeScheme request.assurance) request.inputCommitment
    (Signing.publicKey key) 0
    (outputGenesis request.inputCommitment (streamIdOf request.inputCommitment)) events = .ok last
  room : events.length < 2^64
  affordable : payloadBytes events ≤ budget.toNat
  gathers : events.foldlM Gathered.gather .empty = .ok gathered
  collected : gathered.artifacts = collect chunks
  matched : ∀ name, gathered.delivered.artifacts.lookup name =
    (gathered.artifacts.lookup name).map fun artifact => (artifact.format, UInt64.ofNat artifact.bytes.length)
  short : ∀ name artifact, gathered.artifacts.lookup name = some artifact →
    artifact.bytes.length ≤ payloadBytes events

def streamAt (request : InvocationRequest) (key : SigningKey) (budget : UInt64)
    (events : List OutputEventEnvelope) (last : Digest) (gathered : Gathered) : OutputStream :=
  ⟨request,key,builderAt request key events last,gathered.artifacts,payloadBytes events,budget⟩

theorem new_published (opened : OutputStream.new request key budget = .ok start) :
    ∃ last, Published request key budget [] last [] .empty ∧ start = streamAt request key budget [] last .empty := by
  simp only [OutputStream.new,bind_ok,rejectIf_ok,not_not,pure_ok] at opened
  obtain ⟨_,runner,rfl⟩ := opened
  refine ⟨_,⟨runner,rfl,by decide,Nat.zero_le _,rfl,rfl,?_,?_⟩,rfl⟩
  · intro name
    rfl
  · intro name artifact found
    cases found

structure Taken (request : InvocationRequest) (key : SigningKey) (budget : UInt64)
    (events : List OutputEventEnvelope) (last : Digest) (gathered : Gathered) (attempt : Attempt)
    (room : Nat) (envelope : OutputEventEnvelope) : Prop where
  name : label attempt.name = .ok ()
  format : label attempt.format = .ok ()
  small : attempt.bytes.length ≤ maxChunkBytes
  contiguous : (streamAt request key budget events last gathered).continues attempt = .ok ()
  reserved : payloadBytes events + (attempt.payload.length + room) ≤ budget.toNat
  linked : Linked request key events last artifactChunkKind attempt.payload envelope

theorem pushInner_taken (few : events.length < 2^64)
    (pushed : (streamAt request key budget events last gathered).pushInner attempt room = .ok (next, envelope)) :
    Taken request key budget events last gathered attempt room envelope ∧
      next = streamAt request key budget (events ++ [envelope]) envelope.eventCommitment { gathered with
          artifacts := gathered.artifacts.extend attempt.name attempt.format attempt.bytes } := by
  simp only [OutputStream.pushInner,bind_ok,rejectIf_ok,Nat.not_lt,okOr_ok,mapError_ok,pure_ok,
    usizeAdd_some,Prod.exists,Prod.mk.injEq] at pushed
  obtain ⟨_,name,_,format,_,small,_,contiguous,_,⟨rfl,-⟩,_,reserved,inner,_,signed,rfl,rfl⟩ := pushed
  obtain ⟨rfl,linked⟩ := pushEnvelope_linked few signed
  refine ⟨⟨name,format,small,contiguous,reserve_ok.mp reserved,linked⟩,?_⟩
  conv_rhs => rw [streamAt,payloadBytes_snoc]
  rfl

namespace Published

variable {attempt : Attempt} {room : Nat} {envelope : OutputEventEnvelope}
  (published : Published request key budget events last chunks gathered)

omit [Xet] [LawfulSigning] in
theorem size_matched {formats : Slots String (String × UInt64)} {artifacts : Artifacts}
    (matched : ∀ name, formats.lookup name = (artifacts.lookup name).map fun artifact =>
      (artifact.format, UInt64.ofNat artifact.bytes.length)) : formats.size = artifacts.size := by
  rw [Slots.size,Slots.size]
  congr 1
  ext name
  rw [Slots.mem_keys,Slots.mem_keys,matched]
  cases artifacts.lookup name <;> simp

include published in
theorem continues (contiguous : (streamAt request key budget events last gathered).continues attempt = .ok ()) :
    gathered.delivered.continues attempt.chunk = .ok () := by
  have same : (streamAt request key budget events last gathered).artifacts.lookup attempt.name =
      gathered.artifacts.lookup attempt.name := rfl
  rw [OutputStream.continues,same] at contiguous
  rw [ArtifactPrefix.continues,Attempt.chunk,published.matched]
  cases found : gathered.artifacts.lookup attempt.name with
  | none =>
    rw [found] at contiguous
    rw [rejectIf_ok] at contiguous
    rw [Option.map_none]
    dsimp only
    rw [rejectIf_ok,size_matched published.matched]
    exact contiguous
  | some artifact =>
    rw [found] at contiguous
    rw [rejectIf_ok] at contiguous
    rw [Option.map_some]
    dsimp only
    rw [rejectIf_ok]
    exact contiguous

include published in
theorem ends (taken : Taken request key budget events last gathered attempt room envelope) :
    ∃ stop, checkedAdd attempt.offset (UInt64.ofNat attempt.bytes.length) = some stop ∧
      (gathered.artifacts.grown attempt).format = attempt.format ∧
      stop = UInt64.ofNat (gathered.artifacts.grown attempt).bytes.length ∧
      (gathered.artifacts.grown attempt).bytes.length ≤ payloadBytes events + attempt.payload.length := by
  have within := (payload_bounds taken.name taken.format).1
  have reserved := taken.reserved
  have small := budget.toNat_lt
  have contiguous := published.continues taken.contiguous
  rw [ArtifactPrefix.continues,Attempt.chunk,published.matched] at contiguous
  refine ⟨UInt64.ofNat (gathered.artifacts.grown attempt).bytes.length,?_⟩
  rw [Artifacts.grown,checkedAdd_exact,UInt64.toNat_ofNat_of_lt' (show _ < 2^64 by omega)]
  cases found : gathered.artifacts.lookup attempt.name with
  | none =>
    rw [found] at contiguous
    simp only [Option.map_none,rejectIf_ok,not_or,not_not] at contiguous
    simp only [Option.map_none,Option.getD_none,contiguous.1,UInt64.toNat_zero,Nat.zero_add]
    exact ⟨(UInt64.toNat_ofNat_of_lt' (show _ < 2^64 by omega)).symm,trivial,trivial,by omega⟩
  | some artifact =>
    have before := published.short _ _ found
    rw [found] at contiguous
    simp only [Option.map_some,rejectIf_ok,not_or,not_not] at contiguous
    simp only [Option.map_some,Option.getD_some,List.length_append]
    rw [← contiguous.2.1,UInt64.toNat_ofNat_of_lt' (show _ < 2^64 by omega),
      UInt64.toNat_ofNat_of_lt' (show _ < 2^64 by omega)]
    exact ⟨rfl,contiguous.1,trivial,by omega⟩

include published in
theorem prefix_takes (taken : Taken request key budget events last gathered attempt room envelope) :
    ∃ delivered : ArtifactPrefix, gathered.delivered.push envelope = .ok (delivered, attempt.chunk) ∧
      ∀ name, delivered.artifacts.lookup name = ((gathered.artifacts.extend attempt.name attempt.format attempt.bytes).lookup name).map
          fun artifact => (artifact.format, UInt64.ofNat artifact.bytes.length) := by
  obtain ⟨stop,added,format,ending,-⟩ := published.ends taken
  refine ⟨⟨gathered.delivered.artifacts.insert attempt.name (attempt.format, stop)⟩,?_,?_⟩
  · have bounds := (payload_bounds taken.name taken.format).2
    have small := taken.small
    have large : ¬maxChunkBytes + 2048 < attempt.payload.length := by omega
    simp only [ArtifactPrefix.push,ArtifactPrefix.advance,bind_ok,rejectIf_ok,pure_ok,okOr_ok,not_or,not_not,Nat.not_lt,
      Prod.exists,bound,domainIs,Prod.mk.injEq,taken.linked.payload_eq]
    exact ⟨(),⟨taken.linked.kind_eq,taken.linked.canonical⟩,(),Nat.not_lt.mp large,_,_,
      chunk_decodes taken.name taken.format small,(),rfl,(),taken.name,(),taken.format,(),
      small,_,⟨(),published.continues taken.contiguous,_,added,rfl⟩,rfl,rfl⟩
  · intro name
    rw [Slots.lookup_insert_if,extend_lookup]
    split
    · rw [Option.map_some,format,ending]
    · exact published.matched name

include published in
theorem pushed (taken : Taken request key budget events last gathered attempt room envelope) :
    ∃ after : Gathered, after.artifacts = gathered.artifacts.extend attempt.name attempt.format attempt.bytes ∧
      Published request key budget (events ++ [envelope]) envelope.eventCommitment (chunks ++ [attempt.chunk]) after := by
  obtain ⟨delivered,gathers,matched⟩ := published.prefix_takes taken
  obtain ⟨stop,-,-,-,within⟩ := published.ends taken
  have reserved := taken.reserved
  have linked := taken.linked
  have size : payloadBytes (events ++ [envelope]) = payloadBytes events + attempt.payload.length := by
    rw [payloadBytes_snoc,linked.payload_eq]
  refine ⟨{ gathered with
    artifacts := gathered.artifacts.extend attempt.name attempt.format attempt.bytes
    delivered := delivered },rfl,published.runner,?_,?_,by omega,?_,?_,matched,?_⟩
  · rw [verifyChain_snoc,Nat.zero_add]
    exact ⟨last,published.chained,published.room,linked.continues⟩
  · rw [List.length_append,List.length_singleton]
    exact linked.room
  · rw [List.foldlM_append,published.gathers,bind_ok]
    exact ⟨gathered,rfl,bind_ok.mpr ⟨_,gather_ok.mpr ⟨delivered,_,gathers,rfl⟩,rfl⟩⟩
  · rw [collect_snoc,← published.collected]
    rfl
  · intro name artifact found
    rw [size]
    change (gathered.artifacts.extend attempt.name attempt.format attempt.bytes).lookup name = _ at found
    rw [extend_lookup] at found
    split at found
    · cases found
      exact within
    · exact Nat.le_add_right_of_le (published.short name artifact found)

include published in
theorem accepted (linked : Linked request key events last kind payload envelope)
    (affordable : payloadBytes events + payload.length ≤ budget.toNat)
    (concludes : gathered.conclude envelope = .ok output) :
    verify request (Signing.publicKey key) (events ++ [envelope]) budget = .ok output := by
  obtain ⟨unclosed,same⟩ := @verifyEvents_after _ _ _ _ [envelope] rfl published.gathers
  refine verify_exact.mpr ⟨published.runner,?_,⟨envelope.eventCommitment,?_⟩,?_⟩
  · rw [payloadBytes_snoc,linked.payload_eq]
    exact affordable
  · rw [verifyChain_snoc,Nat.zero_add]
    exact ⟨last,published.chained,published.room,linked.continues⟩
  · rw [same,verifyEvents_cons unclosed]
    exact .inr ⟨rfl,concludes⟩

theorem fail_concludes (linked : Linked request key events last failureKind (Wire.failure.put (failureKind, reason)) envelope) :
    gathered.conclude envelope = .ok ⟨.failed reason,gathered.artifacts.values,[]⟩ := by
  simp only [Gathered.conclude,Gathered.fail,linked.kind_eq,if_true,bind_ok,rejectIf_ok,
    not_not,bound,domainIs,Nat.not_lt,linked.payload_eq,Prod.exists,pure_ok]
  exact ⟨(),linked.canonical,(),trivial,(),failure_length,_,_,failure_decodes,(),rfl,rfl⟩

-- A failure is signed after everything published and verifies to exactly that.
include published in
theorem fails (failed : (streamAt request key budget events last gathered).fail reason = .ok (output, final)) :
    verify request (Signing.publicKey key) final budget = .ok output ∧ events <+: final ∧
      output = ⟨.failed reason,gathered.artifacts.values,[]⟩ := by
  simp only [OutputStream.fail,OutputTranscriptBuilder.finish,bind_ok,mapError_ok,rejectIf_ok,pure_ok,Prod.exists,Prod.mk.injEq] at failed
  obtain ⟨_,reserved,inner,envelope,signed,_,_,⟨_,-,rfl,-⟩,rfl,rfl⟩ := failed
  obtain ⟨rfl,linked⟩ := pushEnvelope_linked published.room signed
  exact ⟨published.accepted linked (reserve_ok.mp reserved) (fail_concludes linked),List.prefix_append _ _,rfl⟩

omit [Xet] [LawfulSigning] in
theorem sign_avoids_limit {run : Except StreamVerifyError α} :
    Avoids (fun failure => failure = .limit) (run.mapError OutputStream.streamFailed) := by
  rw [avoids_mapError]
  intro failure _ same
  cases same

theorem fail_fits {stream : OutputStream} (room : stream.payloadBytes + failurePayloadBytes ≤ stream.maximumPayloadBytes.toNat) :
    Avoids (fun failure => failure = .limit) (stream.fail reason) := by
  have size := @failure_length reason
  have fits : stream.reserve (Wire.failure.put (failureKind, reason)).length = .ok () := reserve_ok.mpr (by omega)
  rw [OutputStream.fail,fits]
  simp only [avoids_bind,avoids_ok,avoids_pure,sign_avoids_limit,implies_true,and_self]

include published in
theorem last_commitment (ended : events.getLast? = some final) :
    final.eventCommitment = last := by
  obtain ⟨before,rfl⟩ := List.getLast?_eq_some_iff.mp ended
  have chained := published.chained
  rw [verifyChain_snoc] at chained
  obtain ⟨middle,-,-,linked⟩ := chained
  exact (continuation_ok linked).symm

theorem absorb_all {state after : Gathered} {stream : OutputStream}
    (gathers : events.foldlM Gathered.gather state = .ok after) (held : stream.artifacts = state.artifacts)
    (fits : stream.payloadBytes + payloadBytes events ≤ stream.maximumPayloadBytes.toNat) :
    events.foldlM OutputStream.absorb (state.delivered, stream) = .ok (after.delivered, { stream with
      artifacts := after.artifacts
      payloadBytes := stream.payloadBytes + payloadBytes events }) := by
  induction events generalizing state stream with
  | nil =>
    cases gathers
    rw [← held]
    rfl
  | cons event events ih =>
    obtain ⟨next,first,gathers⟩ := bind_ok.mp gathers
    obtain ⟨delivered,chunk,pushed,rfl⟩ := gather_ok.mp first
    have split : payloadBytes (event :: events) = event.payload.length + payloadBytes events := by
      simp [payloadBytes]
    have small := stream.maximumPayloadBytes.toNat_lt
    rw [split] at fits ⊢
    rw [List.foldlM_cons,bind_ok]
    refine ⟨(delivered, { stream with
      payloadBytes := stream.payloadBytes + event.payload.length
      artifacts := stream.artifacts.extend chunk.name chunk.format chunk.bytes }),?_,?_⟩
    · simp only [OutputStream.absorb,bind_ok,mapError_ok,okOr_ok,rejectIf_ok,pure_ok,
        usizeAdd_some,Nat.not_lt,Prod.exists]
      exact ⟨delivered,chunk,pushed,_,⟨rfl,by omega⟩,(),by omega,rfl⟩
    · have rest : stream.payloadBytes + event.payload.length + payloadBytes events ≤
          stream.maximumPayloadBytes.toNat := by omega
      rw [ih gathers (by rw [held]) rest,Nat.add_assoc]

include published in
theorem resumeInner_at :
    OutputStream.resumeInner ⟨request,key,.new (invokeScheme request.assurance)
      request.inputCommitment key canonicalization,gathered.artifacts,payloadBytes events,budget⟩
      events = .ok (streamAt request key budget events last gathered) := by
  unfold OutputStream.resumeInner
  split
  · rename_i empty
    subst empty
    cases published.chained
    rfl
  · rename_i nonempty
    obtain ⟨final,ended⟩ := Option.ne_none_iff_exists'.mp (mt List.getLast?_eq_none_iff.mp nonempty)
    simp only [OutputTranscriptBuilder.resumeVerified,verifyOutputEventEnvelopes,bind_ok,
      mapError_ok,okOr_ok,rejectIf_ok,pure_ok,Nat.not_le,List.isEmpty_iff]
    refine ⟨_,⟨last,⟨last,published.chained,(),nonempty,rfl⟩,final,ended,(),published.room,rfl⟩,?_⟩
    rw [published.last_commitment ended]
    rfl

include published in
theorem resumes :
    OutputStream.resume request key events budget = .ok (streamAt request key budget events last gathered) := by
  have fits : 0 + payloadBytes events ≤ budget.toNat := by
    rw [Nat.zero_add]
    exact published.affordable
  have absorbed := @absorb_all _ _ _ _ _ ⟨request,key,.new (invokeScheme request.assurance)
    request.inputCommitment key canonicalization,∅,0,budget⟩ published.gathers rfl fits
  simp only [OutputStream.resume,OutputStream.new,bind_ok,rejectIf_ok,not_not,pure_ok,Prod.exists]
  refine ⟨_,⟨(),published.runner,rfl⟩,_,_,absorbed,?_⟩
  dsimp only
  rw [Nat.zero_add]
  exact published.resumeInner_at

end Published

end Produced

end Hellas.Invocation
