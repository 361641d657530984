import Hellas.Invocation.Stream
import Hellas.Lib.Slots
import Mathlib.Data.String.Basic
import Mathlib.Order.Lex

-- Signed artifact chunks and one complete application result: the producer's stream, the batch
-- verifier and the incremental one.

namespace Hellas.Invocation

open Cbor Guard Kernel Words

structure CanonicalDecodeError where
  message : String
  deriving DecidableEq

abbrev error (message : String) : CanonicalDecodeError := ⟨message⟩

inductive OutputError where
  | limit
  | invalid (reason : CanonicalDecodeError)
  deriving DecidableEq

def streamError (message : String) : OutputError := .invalid (error message)

def maxLabelBytes : Nat := 256
def maxArtifacts : Nat := 64
def maxInvocationBytes : Nat := 64 * 1024 * 1024
def maxChunkBytes : Nat := 64 * 1024
def failurePayloadBytes : Nat := 40

def artifactChunkKind : String := "invocation.artifact-chunk.v1"
def terminalKind : String := "invocation.terminal.v1"
def failureKind : String := "invocation.failed.v1"

def usizeAdd (left right : Nat) : Option Nat := if left + right < 2^64 then some (left + right) else none

instance : Ranked String (List Char) where
  rank := String.toList
  rank_injective _ _ := String.toList_inj.mp

structure Artifact where
  name : String
  format : String
  bytes : List UInt8
  deriving DecidableEq

structure ArtifactChunk where
  name : String
  format : String
  offset : UInt64
  bytes : List UInt8
  deriving DecidableEq

structure ArtifactEnd where
  name : String
  format : String
  bytes : UInt64
  contentId : Digest
  deriving DecidableEq

structure Terminal where
  artifacts : List ArtifactEnd
  metadata : List UInt8
  deriving DecidableEq

inductive FailureReason where
  | compilation
  | execution
  | callerLimit
  | cancelled
  | executionTimeout
  | outputLimit
  | unavailable
  deriving DecidableEq

def FailureReason.label : FailureReason → String
  | .compilation => "compilation"
  | .execution => "execution"
  | .callerLimit => "caller-limit"
  | .cancelled => "cancelled"
  | .executionTimeout => "execution-timeout"
  | .outputLimit => "output-limit"
  | .unavailable => "unavailable"

def FailureReason.all : List FailureReason := [.compilation,.execution,.callerLimit,.cancelled,.executionTimeout,.outputLimit,.unavailable]

inductive Outcome where
  | succeeded
  | failed (reason : FailureReason)
  deriving DecidableEq

structure InvocationOutput where
  outcome : Outcome
  artifacts : List Artifact
  metadata : List UInt8
  deriving DecidableEq

inductive Assurance where
  | producerSigned
  | appleAppAttest
  deriving DecidableEq

def Assurance.toByte : Assurance → UInt8
  | .producerSigned => 0
  | .appleAppAttest => 1

-- The scheme of an invocation; the fetch schemes belong to another operation.
def invokeScheme : Assurance → UInt8
  | .producerSigned => 0
  | .appleAppAttest => 2

structure InvocationRequest where
  executionEnvironment : Digest
  input : Digest
  runnerPublicKey : PublicKey
  nonce : FixedBytes 32
  assurance : Assurance
  retain : Bool
  deriving DecidableEq

-- Map keys come shortest first, as canonical CBOR has them.
namespace Wire

def digest : Item Digest :=
  Item.bytes.refine FixedBytes.bytes (fun raw => if size : raw.length = 32 then some ⟨raw,size⟩ else none)
    (fun value => dif_pos value.length_eq)

def chunk : Item (String × ArtifactChunk) :=
  (Item.text.pair (((Item.text.field "name").pair ((Item.bytes.field "bytes").pair
    ((Item.text.field "format").pair (Item.uint.field "offset")))).record 4 |>.refine
      (fun chunk : ArtifactChunk => (chunk.name, chunk.bytes, chunk.format, chunk.offset))
      (fun raw => some ⟨raw.1,raw.2.2.1,raw.2.2.2,raw.2.1⟩) (fun _ => rfl))).tuple 2

def artifactEnd : Item ArtifactEnd :=
  ((Item.text.field "name").pair ((Item.uint.field "bytes").pair
    ((Item.text.field "format").pair (digest.field "content_id")))).record 4 |>.refine
      (fun ends => (ends.name, ends.bytes, ends.format, ends.contentId))
      (fun raw => some ⟨raw.1,raw.2.2.1,raw.2.1,raw.2.2.2⟩) (fun _ => rfl)

def terminal : Item (String × Terminal) :=
  (Item.text.pair (((Item.bytes.field "metadata").pair (artifactEnd.array.field "artifacts")).record 2 |>.refine
      (fun terminal : Terminal => (terminal.metadata, terminal.artifacts))
      (fun raw => some ⟨raw.2,raw.1⟩) (fun _ => rfl))).tuple 2

def reason : Item FailureReason :=
  Item.text.refine FailureReason.label (fun raw => FailureReason.all.find? fun reason => reason.label = raw)
    (fun value => by cases value <;> decide +kernel)

def failure : Item (String × FailureReason) := (Item.text.pair reason).tuple 2

def artifact : Item (String × Artifact) :=
  (Item.text.pair (((Item.text.field "name").pair ((Item.bytes.field "bytes").pair (Item.text.field "format"))).record 3 |>.refine
      (fun artifact : Artifact => (artifact.name, artifact.bytes, artifact.format))
      (fun raw => some ⟨raw.1,raw.2.2,raw.2.1⟩) (fun _ => rfl))).tuple 2

def publicKey (key : PublicKey) : List UInt8 := header 4 2 ++ header 0 key.kind.toNat ++ Item.bytes.put key.bytes

-- A fixed array of bytes is an array of numbers.
def byteArray (bytes : List UInt8) : List UInt8 := header 4 bytes.length ++ bytes.flatMap fun byte => header 0 byte.toNat

def flag (value : Bool) : List UInt8 := if value then [0xf5] else [0xf4]

def request (request : InvocationRequest) : List UInt8 :=
  header 4 2 ++ Item.text.put "hellas.invocation.request.v1" ++ header 5 6 ++ Item.text.put "input" ++ Item.bytes.put request.input.bytes ++
    Item.text.put "nonce" ++ byteArray request.nonce.bytes ++
    Item.text.put "retain" ++ flag request.retain ++
    Item.text.put "assurance" ++ header 0 request.assurance.toByte.toNat ++
    Item.text.put "runner_public_key" ++ publicKey request.runnerPublicKey ++
    Item.text.put "execution_environment" ++ Item.bytes.put request.executionEnvironment.bytes

end Wire

def decodeCanonicalDagCbor (item : Item α) (bytes : List UInt8) : Except CanonicalDecodeError α :=
  okOr (item.decodeCanonical bytes) (error "invalid DAG-CBOR")

def isControl (char : Char) : Bool := char.toNat < 0x20 || (0x7f ≤ char.toNat && char.toNat < 0xa0)

def label (value : String) : Except CanonicalDecodeError Unit :=
  rejectIf (value = "" ∨ maxLabelBytes < (Item.utf8 value).length ∨ value.toList.any isControl = true)
    (error "artifact names and formats must be bounded nonempty labels")

def bound (bytes : List UInt8) (budget : Nat) : Except CanonicalDecodeError Unit :=
  rejectIf (budget < bytes.length) (error "invocation exceeds its byte budget")

def domainIs (actual expected : String) : Except CanonicalDecodeError Unit := rejectIf (actual ≠ expected) (error "wrong invocation schema")

def Artifact.validate (artifact : Artifact) : Except CanonicalDecodeError Unit := do
  label artifact.name
  label artifact.format

def validateSorted (previous : Option String) : List Artifact → Except CanonicalDecodeError Unit
  | [] => .ok ()
  | artifact :: rest => do
    artifact.validate
    rejectIf (previous.any (fun name => decide (artifact.name.toList ≤ name.toList)) = true)
      (error "artifact names must be unique and sorted")
    validateSorted (some artifact.name) rest

def validateArtifacts (artifacts : List Artifact) : Except CanonicalDecodeError Unit := do
  rejectIf (maxArtifacts < artifacts.length) (error "too many invocation artifacts")
  validateSorted none artifacts

section Results

variable [Xet]

def InvocationRequest.inputCommitment (request : InvocationRequest) : Digest := Xet.hash (Wire.request request)

def Artifact.contentId (artifact : Artifact) : Except CanonicalDecodeError Digest := do
  artifact.validate
  pure (Xet.hash (Wire.artifact.put ("hellas.invocation.artifact.v1", artifact)))

def Artifact.ends (artifact : Artifact) : Except CanonicalDecodeError ArtifactEnd := do
  let contentId ← artifact.contentId
  pure ⟨artifact.name,artifact.format,UInt64.ofNat artifact.bytes.length,contentId⟩

def InvocationOutput.terminal (output : InvocationOutput) :
    Except CanonicalDecodeError Terminal := do
  validateArtifacts output.artifacts
  let ends ← output.artifacts.mapM Artifact.ends
  pure ⟨ends,output.metadata⟩

def canonicalization : Digest := canonicalizationId (bytesOf "hellas.invocation.output.v1")

end Results

-- What has been delivered of each artifact: its format and its length.
structure ArtifactPrefix where
  artifacts : Slots String (String × UInt64)

-- An artifact continues where it ended, in its own format, and never with nothing.
def ArtifactPrefix.continues (delivered : ArtifactPrefix) (chunk : ArtifactChunk) :
    Except CanonicalDecodeError Unit :=
  match delivered.artifacts.lookup chunk.name with
  | some (format, bytes) =>
    rejectIf (format ≠ chunk.format ∨ bytes ≠ chunk.offset ∨ chunk.offset = 0 ∨ chunk.bytes = []) (error "artifact chunk is not contiguous")
  | none => rejectIf (chunk.offset ≠ 0 ∨ maxArtifacts ≤ delivered.artifacts.size) (error "invalid artifact start")

def ArtifactPrefix.advance (delivered : ArtifactPrefix) (chunk : ArtifactChunk) :
    Except CanonicalDecodeError ArtifactPrefix := do
  delivered.continues chunk
  let ends ← okOr (checkedAdd chunk.offset (UInt64.ofNat chunk.bytes.length))
    (error "artifact length overflow")
  pure ⟨delivered.artifacts.insert chunk.name (chunk.format, ends)⟩

abbrev Artifacts := Slots String Artifact

def Artifacts.extend (artifacts : Artifacts) (name format : String) (bytes : List UInt8) :
    Artifacts :=
  match artifacts.lookup name with
  | some artifact => artifacts.insert name { artifact with bytes := artifact.bytes ++ bytes }
  | none => artifacts.insert name ⟨name,format,bytes⟩

section Verifying

variable [Xet]

def ArtifactPrefix.push (delivered : ArtifactPrefix) (event : OutputEventEnvelope) :
    Except CanonicalDecodeError (ArtifactPrefix × ArtifactChunk) := do
  rejectIf (event.event.body.kind ≠ artifactChunkKind ∨
    event.event.body.canonicalization ≠ canonicalization) (error "wrong invocation artifact event")
  bound event.payload (maxChunkBytes + 2048)
  let (domain, chunk) ← decodeCanonicalDagCbor Wire.chunk event.payload
  domainIs domain artifactChunkKind
  label chunk.name
  label chunk.format
  rejectIf (maxChunkBytes < chunk.bytes.length) (error "oversize artifact chunk")
  let next ← delivered.advance chunk
  pure (next, chunk)

structure Gathered where
  artifacts : Artifacts
  delivered : ArtifactPrefix
  terminal : Option Terminal

def Gathered.empty : Gathered := ⟨∅,⟨∅⟩,none⟩

def Gathered.gather (gathered : Gathered) (event : OutputEventEnvelope) :
    Except CanonicalDecodeError Gathered := do
  let (delivered, chunk) ← gathered.delivered.push event
  pure { gathered with
    artifacts := gathered.artifacts.extend chunk.name chunk.format chunk.bytes
    delivered := delivered }

-- A failure is the last event and carries what was delivered before it.
def Gathered.fail (gathered : Gathered) (event : OutputEventEnvelope)
    (rest : List OutputEventEnvelope) : Except CanonicalDecodeError InvocationOutput := do
  rejectIf (rest ≠ []) (error "event after invocation failure")
  bound event.payload failurePayloadBytes
  let (domain, reason) ← decodeCanonicalDagCbor Wire.failure event.payload
  domainIs domain failureKind
  pure ⟨.failed reason,gathered.artifacts.values,[]⟩

def Gathered.close (gathered : Gathered) (event : OutputEventEnvelope) :
    Except CanonicalDecodeError Gathered := do
  let (domain, terminal) ← decodeCanonicalDagCbor Wire.terminal event.payload
  domainIs domain terminalKind
  pure { gathered with terminal := some terminal }

def Gathered.succeeded (gathered : Gathered) (terminal : Terminal) : InvocationOutput :=
  ⟨.succeeded,gathered.artifacts.values,terminal.metadata⟩

-- The terminal must name exactly the bytes delivered.
def Gathered.finish (gathered : Gathered) : Except CanonicalDecodeError InvocationOutput := do
  let terminal ← okOr gathered.terminal (error "missing invocation terminal")
  let expected ← (gathered.succeeded terminal).terminal
  rejectIf (expected ≠ terminal) (error "terminal artifacts do not match delivered bytes")
  pure (gathered.succeeded terminal)

def verifyEvents (gathered : Gathered) :
    List OutputEventEnvelope → Except CanonicalDecodeError InvocationOutput
  | [] => gathered.finish
  | event :: rest => do
    rejectIf gathered.terminal.isSome (error "event after invocation terminal")
    rejectIf (event.event.body.canonicalization ≠ canonicalization) (error "wrong invocation output canonicalization")
    if event.event.body.kind = artifactChunkKind then
      let next ← gathered.gather event
      verifyEvents next rest
    else if event.event.body.kind = failureKind then gathered.fail event rest
    else if event.event.body.kind = terminalKind then
      let next ← gathered.close event
      verifyEvents next rest
    else .error (error "unknown invocation output event")

def payloadTotal (events : List OutputEventEnvelope) : Option Nat :=
  events.foldlM (fun total event => usizeAdd total event.payload.length) 0

variable [Signing]

def verify (request : InvocationRequest) (provider : PublicKey) (events : List OutputEventEnvelope)
    (budget : UInt64) : Except CanonicalDecodeError InvocationOutput := do
  rejectIf (request.runnerPublicKey ≠ provider) (error "invocation runner differs from the expected provider")
  let size ← okOr (payloadTotal events) (error "invocation transcript size overflow")
  rejectIf (budget.toNat < size) (error "invocation result exceeds its byte budget")
  let _ ← (verifyOutputEventEnvelopes (invokeScheme request.assurance) request.inputCommitment
    provider events).mapError fun failure => error failure.text
  verifyEvents .empty events

end Verifying

-- The size of one envelope in memory, which the compiler decides.
class Layout where
  envelopeSize : Nat
  positive : 0 < envelopeSize

structure StreamVerifier where
  request : InvocationRequest
  provider : PublicKey
  previous : Digest
  delivered : ArtifactPrefix
  events : List OutputEventEnvelope
  bytes : Nat
  budget : UInt64
  retainedBytes : Nat
  retainedLimit : Nat
  output : Option InvocationOutput

-- An envelope as it arrives, with the capacities of its kind and payload buffers.
structure Arrival where
  envelope : OutputEventEnvelope
  kindCapacity : Nat
  payloadCapacity : Nat

namespace StreamVerifier

variable [Xet]

def new (request : InvocationRequest) (provider : PublicKey) (budget : UInt64) :
    Except CanonicalDecodeError StreamVerifier := do
  rejectIf (request.runnerPublicKey ≠ provider) (error "invocation runner differs from the expected provider")
  pure ⟨request,provider,outputGenesis request.inputCommitment (streamIdOf request.inputCommitment),
    ⟨∅⟩,[],0,budget,0,maxInvocationBytes,none⟩

-- Spare capacity is charged, and the fixed part four times for the list that grows.
def retain [Layout] (verifier : StreamVerifier) (arrival : Arrival) : Option Nat := do
  let heap ← usizeAdd arrival.kindCapacity arrival.payloadCapacity
  let charged ← usizeAdd heap (4 * Layout.envelopeSize)
  usizeAdd verifier.retainedBytes charged

structure Charges where
  retained : Nat
  bytes : Nat
  previous : Digest

variable [Signing] [Layout]

-- Everything that is checked before the verifier is touched.
def admitEvent (verifier : StreamVerifier) (arrival : Arrival) :
    Except CanonicalDecodeError Charges := do
  rejectIf verifier.output.isSome (error "event after invocation terminal")
  let retained ← okOr (verifier.retain arrival)
    (error "invocation transcript memory accounting overflow")
  rejectIf (verifier.retainedLimit < retained) (error "invocation transcript exceeds its retained-memory budget")
  let bytes ← okOr (usizeAdd verifier.bytes arrival.envelope.payload.length)
    (error "invocation transcript size overflow")
  rejectIf (verifier.budget.toNat < bytes) (error "invocation result exceeds its byte budget")
  let previous ← (verifyOutputEventContinuation (invokeScheme verifier.request.assurance)
    verifier.request.inputCommitment verifier.provider (UInt64.ofNat verifier.events.length)
    verifier.previous arrival.envelope).mapError fun failure => error failure.text
  rejectIf (arrival.envelope.event.body.canonicalization ≠ canonicalization) (error "wrong invocation output canonicalization")
  pure ⟨retained,bytes,previous⟩

def charge (verifier : StreamVerifier) (charges : Charges) : StreamVerifier :=
  { verifier with
    previous := charges.previous, bytes := charges.bytes, retainedBytes := charges.retained }

def keep (verifier : StreamVerifier) (event : OutputEventEnvelope) : StreamVerifier :=
  { verifier with events := verifier.events ++ [event] }

def drop (verifier : StreamVerifier) : StreamVerifier := { verifier with events := verifier.events.dropLast }

def pushChunk (verifier : StreamVerifier) (event : OutputEventEnvelope) (charges : Charges) :
    StreamVerifier × Except CanonicalDecodeError (Option ArtifactChunk) :=
  match verifier.delivered.push event with
  | .error failure => (verifier, .error failure)
  | .ok (delivered, chunk) => (({ verifier with delivered := delivered }.keep event).charge charges, .ok (some chunk))

-- A terminal is verified with everything before it; if that fails it is taken back.
def pushTerminal (verifier : StreamVerifier) (event : OutputEventEnvelope) (charges : Charges) :
    StreamVerifier × Except CanonicalDecodeError (Option ArtifactChunk) :=
  match verify verifier.request verifier.provider (verifier.keep event).events verifier.budget with
  | .error failure => ((verifier.keep event).drop, .error failure)
  | .ok output => ({ verifier.keep event with output := some output }.charge charges, .ok none)

def push (verifier : StreamVerifier) (arrival : Arrival) :
    StreamVerifier × Except CanonicalDecodeError (Option ArtifactChunk) :=
  match verifier.admitEvent arrival with
  | .error failure => (verifier, .error failure)
  | .ok charges =>
    if arrival.envelope.event.body.kind = artifactChunkKind then
      verifier.pushChunk arrival.envelope charges
    else if arrival.envelope.event.body.kind = terminalKind ∨
        arrival.envelope.event.body.kind = failureKind then
      verifier.pushTerminal arrival.envelope charges
    else (verifier, .error (error "unknown invocation output event"))

-- Called once the transport has ended.
def finish (verifier : StreamVerifier) :
    Except CanonicalDecodeError (InvocationOutput × List OutputEventEnvelope) := do
  let output ← okOr verifier.output (error "missing invocation terminal")
  pure (output, verifier.events)

end StreamVerifier

end Hellas.Invocation
