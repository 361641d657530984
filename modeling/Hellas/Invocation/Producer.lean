import Hellas.Invocation.Incremental

-- The producer's side: chunks are signed as they become available, room is kept for a failure, and
-- tails that were signed but never published are discarded.

namespace Hellas.Invocation

open Cbor Guard Kernel Words

structure OutputStream [Signing] where
  request : InvocationRequest
  key : SigningKey
  inner : OutputTranscriptBuilder
  artifacts : Artifacts
  payloadBytes : Nat
  maximumPayloadBytes : UInt64

-- One call of `push`.
structure Attempt where
  name : String
  format : String
  offset : UInt64
  bytes : List UInt8

def Attempt.chunk (attempt : Attempt) : ArtifactChunk := ⟨attempt.name,attempt.format,attempt.offset,attempt.bytes⟩

def Attempt.payload (attempt : Attempt) : List UInt8 := Wire.chunk.put (artifactChunkKind, attempt.chunk)

namespace OutputStream

variable [Signing]

def streamFailed (failure : StreamVerifyError) : OutputError := streamError failure.text

def reserve (stream : OutputStream) (bytes : Nat) : Except OutputError Unit :=
  match usizeAdd stream.payloadBytes bytes with
  | some total => rejectIf (stream.maximumPayloadBytes.toNat < total) .limit
  | none => .error .limit

-- The same rule the verifier's prefix enforces.
def continues (stream : OutputStream) (attempt : Attempt) : Except OutputError Unit :=
  match stream.artifacts.lookup attempt.name with
  | some previous =>
    rejectIf (previous.format ≠ attempt.format ∨
      UInt64.ofNat previous.bytes.length ≠ attempt.offset ∨ attempt.offset = 0 ∨ attempt.bytes = [])
      (streamError "artifact chunk is not contiguous")
  | none => rejectIf (attempt.offset ≠ 0 ∨ maxArtifacts ≤ stream.artifacts.size) (streamError "invalid artifact start")

variable [Xet]

def new (request : InvocationRequest) (key : SigningKey) (maximumPayloadBytes : UInt64) :
    Except OutputError OutputStream := do
  rejectIf (request.runnerPublicKey ≠ Signing.publicKey key) (streamError "invocation runner differs from its signing provider")
  pure ⟨request,key,.new (invokeScheme request.assurance) request.inputCommitment key canonicalization,∅,0,maximumPayloadBytes⟩

def absorb (state : ArtifactPrefix × OutputStream) (event : OutputEventEnvelope) :
    Except OutputError (ArtifactPrefix × OutputStream) := do
  let (delivered, chunk) ← (state.1.push event).mapError .invalid
  let payloadBytes ← okOr (usizeAdd state.2.payloadBytes event.payload.length)
    (streamError "invocation transcript size overflow")
  rejectIf (state.2.maximumPayloadBytes.toNat < payloadBytes) .limit
  pure (delivered, { state.2 with
    payloadBytes := payloadBytes
    artifacts := state.2.artifacts.extend chunk.name chunk.format chunk.bytes })

def resumeInner (stream : OutputStream) (events : List OutputEventEnvelope) :
    Except OutputError OutputStream :=
  if events = [] then .ok stream
  else do
    let inner ← (OutputTranscriptBuilder.resumeVerified (invokeScheme stream.request.assurance)
      stream.request.inputCommitment stream.key canonicalization events).mapError streamFailed
    pure { stream with inner := inner }

-- Only a delivered prefix is resumed; unpublished tails must not enter a failed continuation.
def resume (request : InvocationRequest) (key : SigningKey) (events : List OutputEventEnvelope)
    (maximumPayloadBytes : UInt64) : Except OutputError OutputStream := do
  let stream ← new request key maximumPayloadBytes
  let (_, stream) ← events.foldlM absorb (⟨∅⟩, stream)
  stream.resumeInner events

def failed (stream : OutputStream) (reason : FailureReason) : InvocationOutput := ⟨.failed reason,stream.artifacts.values,[]⟩

def fail (stream : OutputStream) (reason : FailureReason) :
    Except OutputError (InvocationOutput × List OutputEventEnvelope) := do
  stream.reserve (Wire.failure.put (failureKind, reason)).length
  let (inner, _) ← (stream.inner.pushEnvelope failureKind
    (Wire.failure.put (failureKind, reason))).mapError streamFailed
  let (events, _) ← inner.finish.mapError streamFailed
  pure (stream.failed reason, events)

-- Nothing of the stream is touched before the envelope is signed.
def pushInner (stream : OutputStream) (attempt : Attempt) (room : Nat) :
    Except OutputError (OutputStream × OutputEventEnvelope) := do
  (label attempt.name).mapError .invalid
  (label attempt.format).mapError .invalid
  rejectIf (maxChunkBytes < attempt.bytes.length) (streamError "oversize artifact chunk")
  stream.continues attempt
  let needed ← okOr (usizeAdd attempt.payload.length room)
    (streamError "invocation transcript size overflow")
  stream.reserve needed
  let (inner, event) ← (stream.inner.pushEnvelope artifactChunkKind attempt.payload).mapError
    streamFailed
  pure ({ stream with
    inner := inner
    payloadBytes := stream.payloadBytes + event.payload.length
    artifacts := stream.artifacts.extend attempt.name attempt.format attempt.bytes }, event)

-- A live push leaves the room a failure needs.
def push (stream : OutputStream) (attempt : Attempt) :
    OutputStream × Except OutputError OutputEventEnvelope :=
  match stream.pushInner attempt failurePayloadBytes with
  | .error failure => (stream, .error failure)
  | .ok (next, event) => (next, .ok event)

def slice (artifact : Artifact) (start stop : Nat) : Attempt :=
  ⟨artifact.name,artifact.format,UInt64.ofNat start,(artifact.bytes.take stop).drop start⟩

-- What is missing of one artifact, piece by piece; an empty artifact still takes one piece.
def pushTail (artifact : Artifact) (chunkSize : Nat) :
    Nat → OutputStream → Option Nat → OutputStream × Except OutputError Unit
  | 0, stream, _ => (stream, .ok ())
  | fuel + 1, stream, offset =>
    if offset.all (fun start => decide (start < artifact.bytes.length)) = true then
      match stream.pushInner (slice artifact (offset.getD 0)
        (min artifact.bytes.length (offset.getD 0 + chunkSize))) 0 with
      | .error failure => (stream, .error failure)
      | .ok (next, _) => pushTail artifact chunkSize fuel next
          (some (min artifact.bytes.length (offset.getD 0 + chunkSize)))
    else (stream, .ok ())

def pushTails (chunkSize : Nat) (stream : OutputStream) :
    List Artifact → OutputStream × Except OutputError Unit
  | [] => (stream, .ok ())
  | artifact :: rest =>
    match pushTail artifact chunkSize (artifact.bytes.length + 1) stream
      ((stream.artifacts.lookup artifact.name).map fun prior => prior.bytes.length) with
    | (next, .error failure) => (next, .error failure)
    | (next, .ok _) => pushTails chunkSize next rest

-- The final artifacts must extend every prefix already published.
def checkPublished (output : InvocationOutput) (published : String × Artifact) :
    Except OutputError Unit := do
  let artifact ← okOr (output.artifacts.find? fun artifact => artifact.name = published.1)
    (streamError "published artifact is missing from the final result")
  rejectIf (artifact.format ≠ published.2.format ∨ (published.2.bytes.isPrefixOf artifact.bytes) = false)
    (streamError "final artifact differs from its published prefix")

def checkCompletion (stream : OutputStream) (output : InvocationOutput) (chunkSize : Nat) :
    Except OutputError Terminal := do
  rejectIf (output.outcome ≠ .succeeded) (streamError "failed invocation cannot have a success terminal")
  let terminal ← output.terminal.mapError .invalid
  rejectIf (chunkSize = 0 ∨ maxChunkBytes < chunkSize) (streamError "invalid invocation chunk size")
  (stream.artifacts.listing.filterMap fun name =>
    (stream.artifacts.lookup name).map fun artifact => (name, artifact)).forM (checkPublished output)
  pure terminal

def pushTerminal (stream : OutputStream) (terminal : Terminal) :
    OutputStream × Except OutputError Unit :=
  match stream.reserve (Wire.terminal.put (terminalKind, terminal)).length with
  | .error failure => (stream, .error failure)
  | .ok _ =>
    match stream.inner.pushEnvelope terminalKind (Wire.terminal.put (terminalKind, terminal)) with
    | .error failure => (stream, .error (streamFailed failure))
    | .ok (inner, _) => ({ stream with inner := inner }, .ok ())

def appendCompletion (stream : OutputStream) (output : InvocationOutput) (chunkSize : Nat) :
    OutputStream × Except OutputError Unit :=
  match stream.checkCompletion output chunkSize with
  | .error failure => (stream, .error failure)
  | .ok terminal =>
    match pushTails chunkSize stream output.artifacts with
    | (next, .error failure) => (next, .error failure)
    | (next, .ok _) => next.pushTerminal terminal

def finish (stream : OutputStream) (output : InvocationOutput) (chunkSize : Nat) :
    Except OutputError (List OutputEventEnvelope) :=
  match stream.appendCompletion output chunkSize with
  | (_, .error failure) => .error failure
  | (next, .ok _) => Prod.fst <$> next.inner.finish.mapError streamFailed

def causeOf : OutputError → FailureReason
  | .limit => .outputLimit
  | .invalid _ => .execution

-- An empty transcript has no events to keep.
def signedEvents (stream : OutputStream) : Except OutputError (List OutputEventEnvelope) :=
  match stream.inner.finish with
  | .ok (events, _) => .ok events
  | .error .emptyTranscript => .ok []
  | .error failure => .error (streamFailed failure)

def finishOrFail (stream : OutputStream) (output : InvocationOutput) (chunkSize : Nat) :
    Except OutputError (InvocationOutput × List OutputEventEnvelope) :=
  match stream.appendCompletion output chunkSize with
  | (next, .ok _) => do
    let (events, _) ← next.inner.finish.mapError streamFailed
    pure (output, events)
  | (next, .error cause) => do
    let events ← next.signedEvents
    let resumed ← resume next.request next.key (events.take stream.inner.events.length)
      next.maximumPayloadBytes
    resumed.fail (causeOf cause)

def piece (artifact : Artifact) (chunkSize index : Nat) : Attempt :=
  ⟨artifact.name,artifact.format,UInt64.ofNat (index * chunkSize),(artifact.bytes.drop (index * chunkSize)).take chunkSize⟩

def pieces (artifact : Artifact) (chunkSize : Nat) : List Attempt :=
  (List.range ((artifact.bytes.length + chunkSize - 1) / chunkSize)).map (piece artifact chunkSize) ++
    if artifact.bytes = [] then [⟨artifact.name,artifact.format,0,[]⟩] else []

def pushEach (stream : OutputStream) (attempts : List Attempt) : Except OutputError OutputStream :=
  attempts.foldlM (fun stream attempt => Prod.fst <$> stream.pushInner attempt failurePayloadBytes) stream

end OutputStream

def resultDomain : String := "hellas.invocation.result.v1"

def Wire.failedResult : Item (String × String × FailureReason × List ArtifactEnd) :=
  (Item.text.pair (Item.text.pair (Wire.reason.pair Wire.artifactEnd.array))).tuple 4

-- The identity of a result covers whole artifacts, not the pieces they came in.
def InvocationOutput.contentId [Xet] (output : InvocationOutput) :
    Except CanonicalDecodeError Digest := do
  let terminal ← output.terminal
  match output.outcome with
  | .succeeded => pure (Xet.hash (Wire.terminal.put (resultDomain, terminal)))
  | .failed reason =>
    rejectIf (output.metadata ≠ []) (error "failed invocation cannot carry success metadata")
    pure (Xet.hash (Wire.failedResult.put (resultDomain, failureKind, reason, terminal.artifacts)))

def InvocationOutput.sign [Xet] [Signing] (output : InvocationOutput) (request : InvocationRequest)
    (key : SigningKey) (chunkSize : Nat) : Except OutputError (List OutputEventEnvelope) := do
  let stream ← OutputStream.new request key (UInt64.ofNat maxInvocationBytes)
  match output.outcome with
  | .failed reason =>
    let _ ← output.contentId.mapError .invalid
    rejectIf (chunkSize = 0 ∨ maxChunkBytes < chunkSize) (streamError "invalid invocation chunk size")
    let stream ← stream.pushEach (output.artifacts.flatMap fun artifact => OutputStream.pieces artifact chunkSize)
    Prod.snd <$> stream.fail reason
  | .succeeded => stream.finish output chunkSize

end Hellas.Invocation
