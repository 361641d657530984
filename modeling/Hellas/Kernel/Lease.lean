import Hellas.Kernel.Store

-- The lease a payment open takes on its bond: one record in two registry chunks.

namespace Hellas.Kernel

open Codec Guard

def bondLeaseVersion : UInt8 := 2
def bondLeaseChunks : UInt8 := 2

structure BondLease where
  bondEdge : EdgeId
  paymentEdge : EdgeId
  paymentTermsHash : TermsHash
  privatePolicyCommitment : FixedBytes 32
  admissionHorizon : UInt64
  deriving DecidableEq

def BondLease.encodedLength : Nat := envelopeSize + 1 + 2 * 32 + 32 + 32 + 8

instance : Encode BondLease where
  maxEncodedSize := BondLease.encodedLength
  encodedSize _ := BondLease.encodedLength
  encode lease := encodeEnvelope Tag.bondLease ++ (encode bondLeaseVersion ++
    (encode lease.bondEdge ++ (encode lease.paymentEdge ++ (encode lease.paymentTermsHash ++
      (encode lease.privatePolicyCommitment ++ encode lease.admissionHorizon)))))

instance : Decode BondLease where
  decode := decodeComposite Tag.bondLease do
    let version : UInt8 ← decodeField
    if version ≠ bondLeaseVersion then throw (.invalidTag version)
    else do
      let bondEdge ← decodeField
      let paymentEdge ← decodeField
      let paymentTermsHash ← decodeField
      let privatePolicyCommitment ← decodeField
      let admissionHorizon ← decodeField
      pure ⟨bondEdge,paymentEdge,paymentTermsHash,privatePolicyCommitment,admissionHorizon⟩

instance : Lawful BondLease where
  size lease := by
    change List.length (_ ++ (_ ++ (_ ++ (_ ++ (_ ++ (_ ++ _)))))) = BondLease.encodedLength
    simp only [List.length_append,encodeEnvelope_length,Lawful.size,FixedSize.size]
    rfl
  bound _ := Nat.le_refl _
  exact := composite_exact (parses_congr (parses_read fun _ => parses_ite parses_throw
    (parses_read fun _ => parses_read fun _ => parses_read fun _ => parses_read fun _ =>
    parses_read fun _ => parses_pure)) (by
        rintro ⟨bond,payment,terms,policy,horizon⟩ bytes
        simp))

namespace BondLease

def toChunks (lease : BondLease) : Option (RegistryChunk × RegistryChunk) := do
  let value := encode lease
  let first ← RegistryChunk.split .bondLease .bondLease value 0
  let second ← RegistryChunk.split .bondLease .bondLease value 1
  pure (first, second)

-- One turn of the reassembly loop.
def appendChunk (buf : List UInt8) (expectedIndex : UInt8) (chunk : RegistryChunk) :
    Except BondLeaseFault (List UInt8) := do
  rejectIf (chunk.space ≠ .bondLease ∨ chunk.recordTag ≠ .bondLease ∨
    chunk.chunkCount ≠ bondLeaseChunks ∨ chunk.chunkIndex ≠ expectedIndex ∨ chunk.valueLen.toNat ≠ encodedLength) .shape
  rejectIf (buf.length + chunk.payload.length > encodedLength) .shape
  pure (buf ++ chunk.payload)

def fromChunks (first second : RegistryChunk) (bondEdge : EdgeId) :
    Except BondLeaseFault BondLease := do
  let head ← appendChunk [] 0 first
  let value ← appendChunk head 1 second
  rejectIf (value.length ≠ encodedLength) .shape
  let lease ← (decodeExact value : Except DecodeError BondLease).mapError fun _ => .body
  rejectIf (lease.bondEdge ≠ bondEdge) .edge
  pure lease

end BondLease

inductive LeaseSlots where
  | absent
  | present (lease : BondLease)
  | faulty (fault : BondLeaseFault)
  deriving DecidableEq

-- A lease is written whole or not at all; half of one is a fault, not an absence.
def parseBondLease (first second : Option RegistryChunk) (bondEdge : EdgeId) : LeaseSlots :=
  match first, second with
  | none, none => .absent
  | some first, some second =>
    match BondLease.fromChunks first second bondEdge with
    | .ok lease => .present lease
    | .error fault => .faulty fault
  | some _, none => .faulty .halfPresent
  | none, some _ => .faulty .halfPresent

section Slots

variable [Xet]

def bondLeaseSlot (network : NetworkId) (bondEdge : EdgeId) (chunkIndex : UInt8) :
    RegistryChunkId :=
  RegistryChunkId.derive network .bondLease bondEdge.raw chunkIndex

def readLeaseSlots (batch : Batch) (network : NetworkId) (bondEdge : EdgeId) : LeaseSlots :=
  parseBondLease (batch.registryChunk (bondLeaseSlot network bondEdge 0)) (batch.registryChunk (bondLeaseSlot network bondEdge 1)) bondEdge

def readBondLease (batch : Batch) (network : NetworkId) (bondEdge : EdgeId) :
    Except BondLeaseFault (Option BondLease) :=
  match readLeaseSlots batch network bondEdge with
  | .absent => .ok none
  | .present lease => .ok (some lease)
  | .faulty fault => .error fault

def createMutations (network : NetworkId) (lease : BondLease) :
    Option (RegistryMutation × RegistryMutation) := do
  let (first, second) ← lease.toChunks
  pure (.write (bondLeaseSlot network lease.bondEdge 0) first, .write (bondLeaseSlot network lease.bondEdge 1) second)

def deleteMutations (network : NetworkId) (bondEdge : EdgeId) :
    RegistryMutation × RegistryMutation :=
  (.delete (bondLeaseSlot network bondEdge 0), .delete (bondLeaseSlot network bondEdge 1))

end Slots

theorem BondLease.encode_count (lease : BondLease) : chunkCountFor (encode lease).length = some bondLeaseChunks := by
  rw [Lawful.size lease,show encodedSize lease = encodedLength from rfl]
  decide

theorem BondLease.toChunks_some (lease : BondLease) : ∃ first second, lease.toChunks = some (first, second) := by
  have counted := lease.encode_count
  obtain ⟨first,cutFirst⟩ := RegistryChunk.split_some .bondLease .bondLease counted (show (0 : UInt8) < bondLeaseChunks by decide)
  obtain ⟨second,cutSecond⟩ := RegistryChunk.split_some .bondLease .bondLease counted (show (1 : UInt8) < bondLeaseChunks by decide)
  exact ⟨first,second,by simp [toChunks,cutFirst,cutSecond]⟩

theorem BondLease.fromChunks_toChunks (written : lease.toChunks = some (first, second)) :
    fromChunks first second lease.bondEdge = .ok lease := by
  simp only [toChunks,Option.bind_eq_bind,Option.bind_eq_some_iff,Option.pure_def,Option.some.injEq,Prod.mk.injEq] at written
  obtain ⟨_,cutFirst,_,cutSecond,rfl,rfl⟩ := written
  have total : (encode lease).length = encodedLength := Lawful.size lease
  obtain ⟨space,tag,index,count,length,payload⟩ := RegistryChunk.split_parts cutFirst
  obtain ⟨space',tag',index',count',length',payload'⟩ := RegistryChunk.split_parts cutSecond
  rw [lease.encode_count,Option.some.injEq] at count count'
  rw [total] at length length'
  have whole : RegistryChunk.live (encode lease) 0 ++ RegistryChunk.live (encode lease) 1 =
      encode lease := RegistryChunk.live_two (by rw [total]; decide)
  have sizes := congrArg List.length whole
  rw [List.length_append,total] at sizes
  simp only [fromChunks,appendChunk,bind_ok,rejectIf_ok,pure_ok,mapError_ok,decodeExact_ok]
  refine ⟨_,⟨(),by simp [space,tag,index,← count,length],(),?_,rfl⟩,_,
    ⟨(),by simp [space',tag',index',← count',length'],(),?_,rfl⟩,(),?_,lease,?_,(),?_,rfl⟩
  · simp only [payload,List.length_nil]
    omega
  · simp only [payload,payload',List.nil_append]
    omega
  · simp only [payload,payload',List.nil_append,whole,total,ne_eq,not_true,not_false_eq_true]
  · rw [List.nil_append,payload,payload',whole]
    simpa using (Lawful.exact (α := BondLease)).roundtrip trivial []
  · simp

theorem parseBondLease_toChunks (written : lease.toChunks = some (first, second)) :
    parseBondLease (some first) (some second) lease.bondEdge = .present lease := by
  simp only [parseBondLease,BondLease.fromChunks_toChunks written]

end Hellas.Kernel
