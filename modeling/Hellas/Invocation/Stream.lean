import Hellas.Kernel.Primitive
import Hellas.Lib.Cbor

-- Signed output events: each binds its request, its place in the stream and the event before it.

namespace Hellas.Invocation

open Cbor Guard Kernel Words

abbrev Digest := FixedBytes 32

def hashTuple [Xet] (tag : String) (fields : List (List UInt8)) : Digest :=
  Xet.hash (bytesOf "hellas.hash_tuple.v2" ++ bigEndian 4 (bytesOf tag).length ++ bytesOf tag ++
    bigEndian 4 fields.length ++ fields.flatMap fun field => bigEndian 8 field.length ++ field)

namespace Tag

def canonicalizationId : String := "hellas.stream.canonicalization.id.v2"
def outputEvent : String := "hellas.stream.output.event.v2"
def eventSignature : String := "hellas.stream.event.signature.v2"
def outputGenesis : String := "hellas.stream.output.genesis.v2"
def streamId : String := "hellas.stream.id.v2"
def producerId : String := "hellas.producer_id.v2"

end Tag

inductive PublicKey where
  | secp256k1 (raw : FixedBytes 33)
  | ed25519 (raw : FixedBytes 32)
  | p256 (raw : FixedBytes 33)
  deriving DecidableEq

namespace PublicKey

def kind : PublicKey → UInt8
  | .secp256k1 _ => 1
  | .ed25519 _ => 2
  | .p256 _ => 3

def bytes : PublicKey → List UInt8
  | .secp256k1 raw | .p256 raw => raw.bytes
  | .ed25519 raw => raw.bytes

end PublicKey

inductive Signature where
  | secp256k1 (raw : FixedBytes 64)
  | ed25519 (raw : FixedBytes 64)
  | p256 (raw : FixedBytes 64)
  deriving DecidableEq

-- The curves live outside the repository.
class Signing where
  SigningKey : Type
  publicKey : SigningKey → PublicKey
  signDigest : SigningKey → Digest → Except String Signature
  verifyDigestSignature : PublicKey → Signature → Digest → Except String Unit

-- What a key signs is accepted under its public key.
class LawfulSigning extends Signing where
  accepted : ∀ key digest signature, signDigest key digest = .ok signature →
    verifyDigestSignature (publicKey key) signature digest = .ok ()

abbrev SigningKey [Signing] : Type := Signing.SigningKey

inductive StreamVerifyError where
  | emptyTranscript
  | schemeMismatch
  | sequenceMismatch (expected actual : UInt64)
  | previousEventMismatch
  | unexpectedSigner
  | signerMismatch
  | inputCommitmentMismatch
  | streamIdMismatch
  | sequenceOverflow
  | payloadMismatch
  | signature (text : String)
  deriving DecidableEq

def StreamVerifyError.text : StreamVerifyError → String
  | .emptyTranscript => "stream transcript is empty"
  | .schemeMismatch => "event scheme does not match transcript scheme"
  | .sequenceMismatch expected actual => "event sequence mismatch: expected " ++ toString expected ++ ", got " ++ toString actual
  | .previousEventMismatch => "event previous commitment does not match transcript chain"
  | .unexpectedSigner => "event signer does not match expected key"
  | .signerMismatch => "event signer id does not match public key"
  | .inputCommitmentMismatch => "output event input commitment does not match transcript input"
  | .streamIdMismatch => "output event stream id does not match transcript input"
  | .sequenceOverflow => "event sequence exceeded u64 range"
  | .payloadMismatch => "event payload bytes do not match the signed payload commitment"
  | .signature text => "signature verification failed: " ++ text

structure OutputEventBody where
  scheme : UInt8
  input : Digest
  streamId : Digest
  sequence : UInt64
  previousEvent : Digest
  kind : String
  payload : Digest
  signer : Digest
  canonicalization : Digest
  deriving DecidableEq

structure SignedOutputEvent where
  body : OutputEventBody
  signature : Signature
  publicKey : PublicKey
  deriving DecidableEq

structure OutputEventEnvelope where
  event : SignedOutputEvent
  payload : List UInt8
  deriving DecidableEq

namespace OutputEventBody

def canonicalBytes (body : OutputEventBody) : List UInt8 :=
  header 4 10 ++ Item.text.put Tag.outputEvent ++ header 0 body.scheme.toNat ++
    Item.bytes.put body.input.bytes ++ Item.bytes.put body.streamId.bytes ++
    Item.uint.put body.sequence ++ Item.bytes.put body.previousEvent.bytes ++
    Item.text.put body.kind ++ Item.bytes.put body.payload.bytes ++
    Item.bytes.put body.signer.bytes ++ Item.bytes.put body.canonicalization.bytes

variable [Xet]

def eventCommitment (body : OutputEventBody) : Digest := Xet.hash body.canonicalBytes

def signaturePreimage (body : OutputEventBody) : Digest := hashTuple Tag.eventSignature [body.canonicalBytes]

end OutputEventBody

section Chain

variable [Xet]

def producerId (key : PublicKey) : Digest := hashTuple Tag.producerId [[key.kind],key.bytes]

def streamIdOf (input : Digest) : Digest := hashTuple Tag.streamId [input.bytes]

def outputGenesis (input streamId : Digest) : Digest := hashTuple Tag.outputGenesis [input.bytes,streamId.bytes]

def canonicalizationId (text : List UInt8) : Digest := hashTuple Tag.canonicalizationId [text]

def OutputEventEnvelope.eventCommitment (envelope : OutputEventEnvelope) : Digest := envelope.event.body.eventCommitment

variable [Signing]

def SignedOutputEvent.verify (event : SignedOutputEvent) (expectedKey : PublicKey) :
    Except StreamVerifyError Unit := do
  rejectIf (event.publicKey ≠ expectedKey) .unexpectedSigner
  rejectIf (event.body.signer ≠ producerId expectedKey) .signerMismatch
  (Signing.verifyDigestSignature expectedKey event.signature event.body.signaturePreimage).mapError .signature

def SignedOutputEvent.sign (body : OutputEventBody) (key : SigningKey) :
    Except StreamVerifyError SignedOutputEvent := do
  rejectIf (body.signer ≠ producerId (Signing.publicKey key)) .signerMismatch
  let signature ← (Signing.signDigest key body.signaturePreimage).mapError .signature
  pure ⟨body,signature,Signing.publicKey key⟩

def OutputEventEnvelope.new (event : SignedOutputEvent) (payload : List UInt8) :
    Except StreamVerifyError OutputEventEnvelope := do
  rejectIf (event.body.payload ≠ Xet.hash payload) .payloadMismatch
  pure ⟨event,payload⟩

def OutputEventEnvelope.verify (envelope : OutputEventEnvelope) (expectedKey : PublicKey) :
    Except StreamVerifyError Unit := do
  rejectIf (envelope.event.body.payload ≠ Xet.hash envelope.payload) .payloadMismatch
  envelope.event.verify expectedKey

-- One envelope as the exact next link in a stream.
def verifyOutputEventContinuation (scheme : UInt8) (input : Digest) (producerKey : PublicKey)
    (expectedSequence : UInt64) (expectedPrevious : Digest) (event : OutputEventEnvelope) :
    Except StreamVerifyError Digest := do
  event.verify producerKey
  rejectIf (event.event.body.scheme ≠ scheme) .schemeMismatch
  rejectIf (event.event.body.input ≠ input) .inputCommitmentMismatch
  rejectIf (event.event.body.streamId ≠ streamIdOf input) .streamIdMismatch
  rejectIf (event.event.body.sequence ≠ expectedSequence) (.sequenceMismatch expectedSequence event.event.body.sequence)
  rejectIf (event.event.body.previousEvent ≠ expectedPrevious) .previousEventMismatch
  pure event.eventCommitment

def verifyChain (scheme : UInt8) (input : Digest) (producerKey : PublicKey) (index : Nat)
    (previous : Digest) : List OutputEventEnvelope → Except StreamVerifyError Digest
  | [] => .ok previous
  | event :: rest => do
    rejectIf (2^64 ≤ index) .sequenceOverflow
    let previous ← verifyOutputEventContinuation scheme input producerKey (UInt64.ofNat index)
      previous event
    verifyChain scheme input producerKey (index + 1) previous rest

def verifyOutputEventEnvelopes (scheme : UInt8) (input : Digest) (producerKey : PublicKey)
    (events : List OutputEventEnvelope) : Except StreamVerifyError Digest := do
  let previous ← verifyChain scheme input producerKey 0 (outputGenesis input (streamIdOf input))
    events
  rejectIf events.isEmpty .emptyTranscript
  pure previous

end Chain

structure OutputTranscriptBuilder [Signing] where
  scheme : UInt8
  input : Digest
  streamId : Digest
  signingKey : SigningKey
  canonicalization : Digest
  previousEvent : Digest
  nextSequence : UInt64
  events : List OutputEventEnvelope

namespace OutputTranscriptBuilder

variable [Xet] [Signing]

def new (scheme : UInt8) (input : Digest) (signingKey : SigningKey) (canonicalization : Digest) :
    OutputTranscriptBuilder :=
  ⟨scheme,input,streamIdOf input,signingKey,canonicalization,outputGenesis input (streamIdOf input),0,[]⟩

def resumeVerified (scheme : UInt8) (input : Digest) (signingKey : SigningKey)
    (canonicalization : Digest) (events : List OutputEventEnvelope) :
    Except StreamVerifyError OutputTranscriptBuilder := do
  let _ ← verifyOutputEventEnvelopes scheme input (Signing.publicKey signingKey) events
  let last ← okOr events.getLast? .emptyTranscript
  rejectIf (2^64 ≤ events.length) .sequenceOverflow
  pure ⟨scheme,input,streamIdOf input,signingKey,canonicalization,last.eventCommitment,UInt64.ofNat events.length,events⟩

def body (builder : OutputTranscriptBuilder) (kind : String) (payload : List UInt8) :
    OutputEventBody :=
  ⟨builder.scheme,builder.input,builder.streamId,builder.nextSequence,builder.previousEvent,kind,
    Xet.hash payload,producerId (Signing.publicKey builder.signingKey),builder.canonicalization⟩

-- Nothing is kept of an envelope that could not be signed.
def pushEnvelope (builder : OutputTranscriptBuilder) (kind : String) (payload : List UInt8) :
    Except StreamVerifyError (OutputTranscriptBuilder × OutputEventEnvelope) := do
  let nextSequence ← okOr (checkedAdd builder.nextSequence 1) .sequenceOverflow
  let event ← SignedOutputEvent.sign (builder.body kind payload) builder.signingKey
  let envelope ← OutputEventEnvelope.new event payload
  pure ({ builder with
    previousEvent := envelope.eventCommitment
    nextSequence := nextSequence
    events := builder.events ++ [envelope] }, envelope)

def finish (builder : OutputTranscriptBuilder) :
    Except StreamVerifyError (List OutputEventEnvelope × Digest) := do
  rejectIf builder.events.isEmpty .emptyTranscript
  pure (builder.events, builder.previousEvent)

end OutputTranscriptBuilder

end Hellas.Invocation
