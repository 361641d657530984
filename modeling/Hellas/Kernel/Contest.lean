import Hellas.Kernel.Settlement

-- Certificates, the two close moves and the pending record they share.

namespace Hellas.Kernel

open Codec Guard Words

def workCloseVersion : UInt8 := 3
def workPendingVersion : UInt8 := 4

structure EarnedCertificate where
  paymentEdge : EdgeId
  paymentTermsHash : TermsHash
  earnedCumulative : UInt64
  deriving DecidableEq

structure StartId where
  raw : FixedBytes 32
  deriving DecidableEq

structure PaymentContestCommitment where
  raw : FixedBytes 32
  deriving DecidableEq

structure PaymentCloseStart where
  paymentEdge : EdgeId
  terms : Terms
  openerRole : Party
  validFromHeight : UInt64
  validThroughHeight : UInt64
  certificate : Option (EarnedCertificate × PartyAuth)
  action : PartyAuth
  deriving DecidableEq

structure PaymentCloseResponse where
  paymentEdge : EdgeId
  startId : StartId
  responderRole : Party
  certificate : EarnedCertificate
  certificateAuth : PartyAuth
  action : PartyAuth
  deriving DecidableEq

-- `ownerSigned` is ordered maker then taker.
structure PendingPaymentClose where
  paymentEdge : EdgeId
  openerRole : Party
  startId : StartId
  responseDeadline : UInt64
  startCumulative : UInt64
  finalCumulative : UInt64
  responded : Bool
  penaltyDue : Bool
  penaltyAmount : UInt64
  ownerSigned : Bool × Bool
  deriving DecidableEq

instance : Encode StartId := .wrap StartId.raw
instance : Decode StartId := .wrap StartId.mk
instance : Lawful StartId := .wrap (fun _ => rfl) (fun _ => rfl)
instance : FixedSize StartId 32 := ⟨fun _ => rfl,rfl⟩

instance : Encode PaymentContestCommitment := .wrap PaymentContestCommitment.raw
instance : Decode PaymentContestCommitment := .wrap PaymentContestCommitment.mk
instance : Lawful PaymentContestCommitment := .wrap (fun _ => rfl) (fun _ => rfl)
instance : FixedSize PaymentContestCommitment 32 := ⟨fun _ => rfl,rfl⟩

def EarnedCertificate.encodedLength : Nat := envelopeSize + 1 + 32 + 32 + 8

instance : Encode EarnedCertificate where
  maxEncodedSize := EarnedCertificate.encodedLength
  encodedSize _ := EarnedCertificate.encodedLength
  encode certificate := encodeEnvelope Tag.earnedCertificate ++ (encode workCloseVersion ++
    (encode certificate.paymentEdge ++ (encode certificate.paymentTermsHash ++ encode certificate.earnedCumulative)))

instance : Decode EarnedCertificate where
  decode := decodeComposite Tag.earnedCertificate do
    let version : UInt8 ← decodeField
    if version ≠ workCloseVersion then throw (.invalidTag version)
    else do
      let paymentEdge ← decodeField
      let paymentTermsHash ← decodeField
      let earnedCumulative ← decodeField
      pure ⟨paymentEdge,paymentTermsHash,earnedCumulative⟩

instance : Lawful EarnedCertificate where
  size certificate := by
    change List.length (_ ++ (_ ++ (_ ++ (_ ++ _)))) = EarnedCertificate.encodedLength
    simp only [List.length_append,encodeEnvelope_length,Lawful.size,FixedSize.size]
    rfl
  bound _ := Nat.le_refl _
  exact := composite_exact (parses_congr (parses_read fun _ => parses_ite parses_throw
    (parses_read fun _ => parses_read fun _ => parses_read fun _ => parses_pure)) (by
        rintro ⟨edge,terms,earned⟩ bytes
        simp))

instance : FixedSize EarnedCertificate EarnedCertificate.encodedLength := ⟨fun _ => rfl,rfl⟩

section Digests

variable [Xet]

def EarnedCertificate.digest (certificate : EarnedCertificate) (network : NetworkId) :
    PayloadHash :=
  ⟨Xet.hash (Domain.workEarnedCertificate ++ (encode network ++ (encode certificate.paymentEdge ++
    (encode certificate.paymentTermsHash ++ encode certificate))))⟩

def noEarnedDigest (paymentEdge : EdgeId) (paymentTermsHash : TermsHash) : PayloadHash :=
  ⟨Xet.hash (Domain.workNoEarnedCertificate ++ (encode paymentEdge ++ encode paymentTermsHash))⟩

def settlementCommitment (network : NetworkId) (paymentEdge : EdgeId) (paymentTermsHash : TermsHash) (amount : UInt64) : FixedBytes 32 :=
  Xet.hash (Domain.workSettlementState ++ (encode network ++ (encode paymentEdge ++ (encode paymentTermsHash ++ encode amount))))

def startDigest (network : NetworkId) (paymentEdge : EdgeId) (paymentTermsHash : TermsHash)
    (openerRole : Party) (validity : UInt64 × UInt64) (earnedDigestOrNone : PayloadHash) :
    PayloadHash :=
  ⟨Xet.hash (Domain.workStartPaymentClose ++ (encode network ++ (encode paymentEdge ++
    (encode paymentTermsHash ++ (encode openerRole ++ (encode validity.1 ++ (encode validity.2 ++ encode earnedDigestOrNone)))))))⟩

def startIdOf (digest : PayloadHash) (inclusionHeight : UInt64) : StartId :=
  ⟨Xet.hash (Domain.workStartPaymentCloseId ++ (encode digest ++ encode inclusionHeight))⟩

def responseDigest (network : NetworkId) (paymentEdge : EdgeId) (paymentTermsHash : TermsHash)
    (startId : StartId) (responderRole : Party) (earnedDigest : PayloadHash) : PayloadHash :=
  ⟨Xet.hash (Domain.workRespondPaymentClose ++ (encode network ++ (encode paymentEdge ++
    (encode paymentTermsHash ++ (encode startId ++ (encode responderRole ++ encode earnedDigest))))))⟩

def freezeDigest (network : NetworkId) (paymentEdge : EdgeId) (paymentTermsHash : TermsHash)
    (earned : UInt64) (validity : UInt64 × UInt64) : PayloadHash :=
  ⟨Xet.hash (Domain.workFreezeClose ++ (encode network ++ (encode paymentEdge ++ (encode paymentTermsHash ++
      (encode (settlementCommitment network paymentEdge paymentTermsHash earned) ++ (encode validity.1 ++ encode validity.2))))))⟩

def PaymentCloseStart.digest (start : PaymentCloseStart) (network : NetworkId) : PayloadHash :=
  let terms := start.terms.hash
  let earned := match start.certificate with
    | none => noEarnedDigest start.paymentEdge terms
    | some (certificate, _) => certificate.digest network
  startDigest network start.paymentEdge terms start.openerRole (start.validFromHeight, start.validThroughHeight) earned

end Digests

def flag (value : Bool) : UInt8 := if value then 1 else 0

namespace PendingPaymentClose

def opened (paymentEdge : EdgeId) (openerRole : Party) (startId : StartId)
    (responseDeadline : UInt64) (claim : UInt64 × UInt64) (ownerSigned : Bool) :
    PendingPaymentClose :=
  let signed := match openerRole with
    | .maker => (ownerSigned, false)
    | .taker => (false, ownerSigned)
  let (claimed, omissionBond) := claim
  { paymentEdge, openerRole, startId, responseDeadline
    startCumulative := claimed
    finalCumulative := claimed
    responded := false
    penaltyDue := false
    penaltyAmount := omissionBond
    ownerSigned := signed }

def fromAcceptedStart [Xet] (network : NetworkId) (height : UInt64) (start : PaymentCloseStart) :
    Option PendingPaymentClose :=
  match start.terms with
  | .workPayment payment => do
    let deadline ← checkedAdd height payment.omitResponseBlocks
    let claimed := match start.certificate with
      | none => 0
      | some (certificate, _) => certificate.earnedCumulative
    pure (opened start.paymentEdge start.openerRole (startIdOf (start.digest network) height)
      deadline (claimed, payment.omissionBond) start.action.isOwner)
  | _ => none

def penalty (record : PendingPaymentClose) : UInt64 :=
  if record.penaltyDue then record.penaltyAmount else 0

-- A raise against a client's own start forfeits the client's omission bond.
def respondedAt (record : PendingPaymentClose) (amount : UInt64) (ownerSigned : Bool) :
    PendingPaymentClose :=
  { record with
    finalCumulative := amount
    responded := true
    penaltyDue := record.penaltyDue || record.openerRole == .maker
    ownerSigned := (record.ownerSigned.1, record.ownerSigned.2 || ownerSigned) }

def withAcceptedResponse (record : PendingPaymentClose) (response : PaymentCloseResponse) :
    PendingPaymentClose :=
  record.respondedAt response.certificate.earnedCumulative response.action.isOwner

def freezePenalty (record : PendingPaymentClose) (earned : UInt64) : UInt64 :=
  if record.penaltyDue || (record.openerRole == .maker && earned > record.startCumulative) then
    record.penaltyAmount
  else 0

-- The record's opener role and responded flag are not in the preimage.
def contestCommitment [Xet] (record : PendingPaymentClose) (network : NetworkId)
    (paymentEdge : EdgeId) (paymentTermsHash : TermsHash) : PaymentContestCommitment :=
  ⟨Xet.hash (Domain.workAdjudicatedPaymentClose ++ (encode network ++ (encode paymentEdge ++
    (encode paymentTermsHash ++ (encode record.startId ++ (encode record.responseDeadline ++
      (encode record.startCumulative ++ (encode record.finalCumulative ++
        (encode (flag record.penaltyDue) ++ (encode record.penaltyAmount ++
          (encode (flag record.ownerSigned.1) ++ encode (flag record.ownerSigned.2))))))))))))⟩

def encodedLength : Nat := envelopeSize + 1 + 32 + 1 + 32 + 3 * 8 + 2 * 1 + 8 + 2 * 1

end PendingPaymentClose

-- Any byte but 0 and 1 is a second spelling of a stored flag.
def decodeFlag (field : String) : Cursor DecodeError Bool := do
  let byte : UInt8 ← decodeField
  if byte = 0 then pure false
  else if byte = 1 then pure true
  else throw (.nonCanonical field)

theorem parses_flag (field : String) : Parses (fun v r => r = encode (flag v)) (decodeFlag field) :=
  parses_congr (parses_read fun _ => parses_ite parses_pure (parses_ite parses_pure
    parses_throw)) (by
      rintro (_ | _) bytes <;> simp [flag])

instance : Encode PendingPaymentClose where
  maxEncodedSize := PendingPaymentClose.encodedLength
  encodedSize _ := PendingPaymentClose.encodedLength
  encode record := encodeEnvelope Tag.paymentClosePending ++ (encode workPendingVersion ++
    (encode record.paymentEdge ++ (encode record.openerRole ++ (encode record.startId ++
      (encode record.responseDeadline ++ (encode record.startCumulative ++
        (encode record.finalCumulative ++ (encode (flag record.responded) ++
          (encode (flag record.penaltyDue) ++ (encode record.penaltyAmount ++
            (encode (flag record.ownerSigned.1) ++ encode (flag record.ownerSigned.2))))))))))))

instance : Decode PendingPaymentClose where
  decode := decodeComposite Tag.paymentClosePending do
    let version : UInt8 ← decodeField
    if version ≠ workPendingVersion then throw (.invalidTag version)
    else do
      let paymentEdge ← decodeField
      let openerRole ← decodeField
      let startId ← decodeField
      let responseDeadline ← decodeField
      let startCumulative ← decodeField
      let finalCumulative ← decodeField
      let responded ← decodeFlag "PendingPaymentClose.responded"
      let penaltyDue ← decodeFlag "PendingPaymentClose.penalty_due"
      let penaltyAmount ← decodeField
      let makerSigned ← decodeFlag "PendingPaymentClose.maker_owner_signed"
      let takerSigned ← decodeFlag "PendingPaymentClose.taker_owner_signed"
      pure ⟨paymentEdge,openerRole,startId,responseDeadline,startCumulative,finalCumulative,
        responded,penaltyDue,penaltyAmount,(makerSigned,takerSigned)⟩

instance : Lawful PendingPaymentClose where
  size record := by
    change List.length (_ ++ (_ ++ (_ ++ (_ ++ (_ ++ (_ ++ (_ ++ (_ ++ (_ ++ (_ ++ (_ ++
      (_ ++ _)))))))))))) = PendingPaymentClose.encodedLength
    simp only [List.length_append,encodeEnvelope_length,Lawful.size,FixedSize.size]
    rfl
  bound _ := Nat.le_refl _
  exact := composite_exact (parses_congr (parses_read fun _ => parses_ite parses_throw
    (parses_read fun _ => parses_read fun _ => parses_read fun _ => parses_read fun _ =>
    parses_read fun _ => parses_read fun _ => parses_bind (parses_flag _) fun _ => parses_bind
    (parses_flag _) fun _ => parses_read fun _ => parses_bind (parses_flag _) fun _ => parses_bind
    (parses_flag _) fun _ => parses_pure)) (by
        rintro ⟨edge,role,start,deadline,claimed,final,responded,due,amount,maker,taker⟩ bytes
        simp [-Bool.exists_bool]))

namespace PendingPaymentClose

def toChunk (record : PendingPaymentClose) : Option RegistryChunk := RegistryChunk.split .paymentClose .paymentPending (encode record) 0

def fromChunk (chunk : RegistryChunk) (paymentEdge : EdgeId) :
    Except PendingCloseFault PendingPaymentClose := do
  rejectIf (chunk.space ≠ .paymentClose ∨ chunk.recordTag ≠ .paymentPending ∨
    chunk.chunkCount ≠ 1 ∨ chunk.chunkIndex ≠ 0 ∨ chunk.valueLen.toNat ≠ encodedLength) .shape
  let record ← (decodeExact chunk.payload : Except DecodeError PendingPaymentClose).mapError
    fun _ => .body
  rejectIf (record.paymentEdge ≠ paymentEdge) .edge
  pure record

theorem encode_count (record : PendingPaymentClose) : chunkCountFor (encode record).length = some 1 := by
  rw [Lawful.size record,show encodedSize record = encodedLength from rfl]
  decide

theorem toChunk_some (record : PendingPaymentClose) : ∃ chunk, record.toChunk = some chunk :=
  RegistryChunk.split_some _ _ record.encode_count (by decide)

theorem fromChunk_toChunk {record : PendingPaymentClose} (written : record.toChunk = some chunk) :
    fromChunk chunk record.paymentEdge = .ok record := by
  have total : (encode record).length = encodedLength := Lawful.size record
  obtain ⟨space,tag,index,count,length,payload⟩ := RegistryChunk.split_parts written
  rw [record.encode_count,Option.some.injEq] at count
  rw [total] at length
  rw [RegistryChunk.live_one (by rw [total]; decide)] at payload
  simp only [fromChunk,bind_ok,rejectIf_ok,pure_ok,mapError_ok,decodeExact_ok,payload]
  refine ⟨(),by simp [space,tag,index,← count,length],record,?_,(),by simp,rfl⟩
  simpa using (Lawful.exact (α := PendingPaymentClose)).roundtrip trivial []

end PendingPaymentClose

inductive PendingSlot where
  | absent
  | present (record : PendingPaymentClose)
  | faulty (fault : PendingCloseFault)
  deriving DecidableEq

def parsePendingClose (chunk : Option RegistryChunk) (paymentEdge : EdgeId) : PendingSlot :=
  match chunk with
  | none => .absent
  | some chunk =>
    match PendingPaymentClose.fromChunk chunk paymentEdge with
    | .ok record => .present record
    | .error fault => .faulty fault

theorem parsePendingClose_toChunk {record : PendingPaymentClose} (written : record.toChunk = some chunk) :
    parsePendingClose (some chunk) record.paymentEdge = .present record := by
  simp only [parsePendingClose,PendingPaymentClose.fromChunk_toChunk written]

section Slot

variable [Xet]

def pendingPaymentCloseSlot (network : NetworkId) (paymentEdge : EdgeId) : RegistryChunkId :=
  RegistryChunkId.derive network .paymentClose paymentEdge.raw 0

def readPendingSlot (batch : Batch) (network : NetworkId) (paymentEdge : EdgeId) : PendingSlot :=
  parsePendingClose (batch.registryChunk (pendingPaymentCloseSlot network paymentEdge)) paymentEdge

def readPendingClose (batch : Batch) (network : NetworkId) (paymentEdge : EdgeId) :
    Except PendingCloseFault (Option PendingPaymentClose) :=
  match readPendingSlot batch network paymentEdge with
  | .absent => .ok none
  | .present record => .ok (some record)
  | .faulty fault => .error fault

end Slot

end Hellas.Kernel
