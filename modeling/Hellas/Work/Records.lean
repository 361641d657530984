import Hellas.Authority.Types
import Hellas.Kernel.Contest

-- The private records two parties of a paid channel sign: the job, its result and the payment that
-- binds one certificate to one result.

namespace Hellas.Work

open Authority (Digest)
open Guard Kernel Words

inductive PaidWorkError where
  | unknownFormatVersion (actual : UInt8)
  | wrongRecordTag (expected actual : UInt8)
  | recordLength (expected actual : Nat)
  | mismatch (field : String)
  | priceOutOfRange (price maxJobPrice : UInt64)
  | deadlineOrder (acceptance terminal payment horizon : UInt64)
  | acceptanceExpired (height deadline : UInt64)
  | policyZero (field : String)
  | overEnvelope (field : String) (actual limit : UInt64)
  | body (text : String)
  | overflow (field : String)
  | overCapacity (cumulative capacity : UInt64)
  | transcript (text : String)
  deriving DecidableEq

namespace Domain

def channel : List UInt8 := bytesOf "hellas.work.channel.v2"
def paidJobAuthorize : List UInt8 := bytesOf "hellas.work.paid-job-authorize.v2"
def paidJobResult : List UInt8 := bytesOf "hellas.work.paid-job-result.v1"
def paymentBinding : List UInt8 := bytesOf "hellas.work.payment-binding.v1"

end Domain

-- A fixed-width private record: a version byte, its tag and its body.
class PrivateRecord (α : Type) where
  tag : UInt8
  body : α → List UInt8

def recordBytes [PrivateRecord α] (record : α) : List UInt8 := [formatVersion,PrivateRecord.tag α] ++ PrivateRecord.body record

structure ContentRef where
  id : Digest
  bytes : UInt64
  deriving DecidableEq

inductive Retention where
  | ephemeral
  | retain
  deriving DecidableEq

def Retention.code : Retention → UInt8
  | .ephemeral => 0
  | .retain => 1

structure PaidChannelPolicyV1 where
  computeCreditLimit : UInt64
  deliveryCreditLimit : UInt64
  deriving DecidableEq

structure PaidJobAuthorizationV2 where
  channelId : Digest
  workPolicyDigest : Digest
  paymentPolicyDigest : Digest
  inputContent : ContentRef
  preparedInputDigest : Digest
  proposalNonce : UInt64
  acceptanceDeadline : UInt64
  requestCommitment : Digest
  environmentCommitment : Digest
  price : UInt64
  terminalDeadline : UInt64
  paymentDeadline : UInt64
  retention : Retention
  deriving DecidableEq

inductive ResultOutcome where
  | finished
  | failed
  deriving DecidableEq

def ResultOutcome.code : ResultOutcome → UInt8
  | .finished => 0
  | .failed => 1

structure PaidJobResultV1 where
  workId : Digest
  terminalTranscriptCommitment : Digest
  canonicalOutputDigest : Digest
  outcome : ResultOutcome
  transcriptContent : ContentRef
  deriving DecidableEq

structure PaymentBindingV1 where
  workId : Digest
  resultDigest : Digest
  certificateDigest : PayloadHash
  deriving DecidableEq

def encodeReference (reference : ContentRef) : List UInt8 := encode reference.id ++ encode reference.bytes

instance : PrivateRecord PaidJobAuthorizationV2 where
  tag := 9
  body authorization :=
    encode authorization.channelId ++ (encode authorization.workPolicyDigest ++
      (encode authorization.paymentPolicyDigest ++ (encodeReference authorization.inputContent ++
        (encode authorization.preparedInputDigest ++ (encode authorization.proposalNonce ++
          (encode authorization.acceptanceDeadline ++ (encode authorization.requestCommitment ++
            (encode authorization.environmentCommitment ++ (encode authorization.price ++
              (encode authorization.terminalDeadline ++ (encode authorization.paymentDeadline ++ [authorization.retention.code])))))))))))

instance : PrivateRecord PaidJobResultV1 where
  tag := 3
  body result :=
    encode result.workId ++ (encode result.terminalTranscriptCommitment ++
      (encode result.canonicalOutputDigest ++ ([result.outcome.code] ++ encodeReference result.transcriptContent)))

instance : PrivateRecord PaymentBindingV1 where
  tag := 4
  body binding := encode binding.workId ++ (encode binding.resultDigest ++ encode binding.certificateDigest)

-- The two hashes the source stores beside these fields are functions of them.
structure PaidChannel where
  network : NetworkId
  paymentEdge : EdgeId
  paymentTerms : WorkPaymentTerms
  channelPolicy : PaidChannelPolicyV1
  deriving DecidableEq

section Digests

variable [Xet]

namespace PaidChannel

def paymentTermsHash (channel : PaidChannel) : TermsHash := (Terms.workPayment channel.paymentTerms).hash

def id (channel : PaidChannel) : Digest :=
  Xet.hash (Domain.channel ++ (encode channel.network ++ (encode channel.paymentEdge ++
    (encode channel.paymentTermsHash ++ (encode channel.paymentTerms.bondEdge ++ encode channel.paymentTerms.bondTermsHash)))))

end PaidChannel

def versionedRecordDigest (domain : List UInt8) (network : NetworkId) (channel : Digest) (bytes : List UInt8) : Digest :=
  Xet.hash (domain ++ (encode network ++ (encode channel ++ bytes)))

def workId (channel : PaidChannel) (authorization : PaidJobAuthorizationV2) : Digest :=
  versionedRecordDigest Domain.paidJobAuthorize channel.network channel.id (recordBytes authorization)

def boundResultDigest (network : NetworkId) (channel : Digest) (result : PaidJobResultV1) : Digest :=
  versionedRecordDigest Domain.paidJobResult network channel (recordBytes result)

def resultDigest (channel : PaidChannel) (result : PaidJobResultV1) : Digest := boundResultDigest channel.network channel.id result

def paymentBindingDigest (channel : PaidChannel) (binding : PaymentBindingV1) : Digest :=
  versionedRecordDigest Domain.paymentBinding channel.network channel.id (recordBytes binding)

def signingHash (digest : Digest) : PayloadHash := ⟨digest⟩

end Digests

namespace PaidChannel

-- A payment edge's maker is the client and its taker the provider.
def clientKey (channel : PaidChannel) : Key := channel.paymentTerms.parties.maker.signer

def providerKey (channel : PaidChannel) : Key := channel.paymentTerms.parties.taker.signer

end PaidChannel

section Payment

variable [Xet]

def checkResult (channel : PaidChannel) (work : Digest) (result : PaidJobResultV1) :
    Except PaidWorkError Digest := do
  rejectIf (result.workId ≠ work) (.mismatch "work_id")
  pure (resultDigest channel result)

def nextPayment (channel : PaidChannel) (authorization : PaidJobAuthorizationV2)
    (result : PaidJobResultV1) (credited : UInt64) (settlement : WorkPaymentSettlement) :
    Except PaidWorkError (EarnedCertificate × PaymentBindingV1) := do
  rejectIf (result.outcome ≠ .finished) (.mismatch "failed result is not payable")
  let work := workId channel authorization
  let digest ← checkResult channel work result
  let cumulative ← okOr (checkedAdd credited authorization.price) (.overflow "earned cumulative")
  rejectIf (settlement.capacity < cumulative) (.overCapacity cumulative settlement.capacity)
  let certificate : EarnedCertificate := ⟨channel.paymentEdge,channel.paymentTermsHash,cumulative⟩
  pure (certificate, ⟨work,digest,certificate.digest channel.network⟩)

structure CreditLedger where
  creditedCumulative : UInt64
  deriving DecidableEq

namespace CreditLedger

def new : CreditLedger := ⟨0⟩

def creditPayment (ledger : CreditLedger) (channel : PaidChannel) (authorization : PaidJobAuthorizationV2) (result : PaidJobResultV1)
    (binding : PaymentBindingV1) (certificate : EarnedCertificate)
    (settlement : WorkPaymentSettlement) : Except PaidWorkError CreditLedger := do
  let expected ← nextPayment channel authorization result ledger.creditedCumulative settlement
  rejectIf (certificate.paymentEdge ≠ expected.1.paymentEdge) (.mismatch "certificate payment_edge")
  rejectIf (certificate.paymentTermsHash ≠ expected.1.paymentTermsHash) (.mismatch "certificate payment_terms_hash")
  rejectIf (certificate.earnedCumulative ≠ expected.1.earnedCumulative) (.mismatch "certificate earned_cumulative")
  rejectIf (binding.workId ≠ expected.2.workId) (.mismatch "binding work_id")
  rejectIf (binding.resultDigest ≠ expected.2.resultDigest) (.mismatch "binding result_digest")
  rejectIf (binding.certificateDigest ≠ expected.2.certificateDigest) (.mismatch "binding certificate_digest")
  pure ⟨expected.1.earnedCumulative⟩

structure Credits (ledger : CreditLedger) (channel : PaidChannel)
    (authorization : PaidJobAuthorizationV2) (result : PaidJobResultV1) (binding : PaymentBindingV1)
    (certificate : EarnedCertificate) (settlement : WorkPaymentSettlement) (after : CreditLedger) :
    Prop where
  finished : result.outcome = .finished
  answers : result.workId = workId channel authorization
  sum : ledger.creditedCumulative.toNat + authorization.price.toNat = after.creditedCumulative.toNat
  bounded : after.creditedCumulative ≤ settlement.capacity
  money : certificate = ⟨channel.paymentEdge,channel.paymentTermsHash,after.creditedCumulative⟩
  buys : binding = ⟨workId channel authorization,resultDigest channel result,
    certificate.digest channel.network⟩

theorem creditPayment_ok {ledger : CreditLedger} :
    ledger.creditPayment channel authorization result binding certificate settlement = .ok after ↔
      ledger.Credits channel authorization result binding certificate settlement after := by
  simp only [creditPayment,nextPayment,checkResult,bind_ok,rejectIf_ok,okOr_ok,pure_ok,checkedAdd_exact,not_not]
  constructor
  · intro credited
    obtain ⟨expected,⟨_,finished,digest,⟨_,answers,rfl⟩,sum,added,_,bounded,rfl⟩,_,edge,
      _,terms,_,earned,_,work,_,bound,_,digest,rfl⟩ := credited
    obtain ⟨certEdge,certTerms,certSum⟩ := certificate
    obtain ⟨bindWork,bindResult,bindDigest⟩ := binding
    cases edge
    cases terms
    cases earned
    cases work
    cases bound
    cases digest
    exact ⟨finished,answers,added,UInt64.not_lt.mp bounded,rfl,rfl⟩
  · intro credits
    obtain ⟨finished,answers,sum,bounded,rfl,rfl⟩ := credits
    exact ⟨_,⟨(),finished,_,⟨(),answers,rfl⟩,_,sum,(),UInt64.not_lt.mpr bounded,rfl⟩,(),rfl,(),rfl,(),rfl,(),rfl,(),rfl,(),rfl,rfl⟩

end CreditLedger

end Payment

end Hellas.Work
