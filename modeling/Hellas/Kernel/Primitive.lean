import Hellas.Kernel.Canonical

-- Byte newtypes: keys, identifiers, commitments and signatures, and the hash they come from.

namespace Hellas.Kernel

-- The Xet file hash of a short byte string. The digest function lives outside this crate; results
-- that need it free of collisions say on which preimages.
class Xet where
  hash : List UInt8 → FixedBytes 32

structure Key where
  raw : FixedBytes 33
  deriving DecidableEq

structure CoinId where
  raw : FixedBytes 32
  deriving DecidableEq

structure EdgeId where
  raw : FixedBytes 32
  deriving DecidableEq

structure TermsHash where
  raw : FixedBytes 32
  deriving DecidableEq

structure PayloadHash where
  raw : FixedBytes 32
  deriving DecidableEq

structure Sig where
  raw : FixedBytes 64
  deriving DecidableEq

structure ProtocolCode where
  raw : UInt8
  deriving DecidableEq

inductive Party where
  | maker
  | taker
  deriving DecidableEq

instance : Encode Key := .wrap Key.raw
instance : Decode Key := .wrap Key.mk
instance : Lawful Key := .wrap (fun _ => rfl) (fun _ => rfl)
instance : FixedSize Key 33 := ⟨fun _ => rfl,rfl⟩

instance : Encode CoinId := .wrap CoinId.raw
instance : Decode CoinId := .wrap CoinId.mk
instance : Lawful CoinId := .wrap (fun _ => rfl) (fun _ => rfl)
instance : FixedSize CoinId 32 := ⟨fun _ => rfl,rfl⟩

instance : Encode EdgeId := .wrap EdgeId.raw
instance : Decode EdgeId := .wrap EdgeId.mk
instance : Lawful EdgeId := .wrap (fun _ => rfl) (fun _ => rfl)
instance : FixedSize EdgeId 32 := ⟨fun _ => rfl,rfl⟩

instance : Encode TermsHash := .wrap TermsHash.raw
instance : Decode TermsHash := .wrap TermsHash.mk
instance : Lawful TermsHash := .wrap (fun _ => rfl) (fun _ => rfl)
instance : FixedSize TermsHash 32 := ⟨fun _ => rfl,rfl⟩

instance : Encode PayloadHash := .wrap PayloadHash.raw
instance : Decode PayloadHash := .wrap PayloadHash.mk
instance : Lawful PayloadHash := .wrap (fun _ => rfl) (fun _ => rfl)
instance : FixedSize PayloadHash 32 := ⟨fun _ => rfl,rfl⟩

instance : Encode Sig := .wrap Sig.raw
instance : Decode Sig := .wrap Sig.mk
instance : Lawful Sig := .wrap (fun _ => rfl) (fun _ => rfl)
instance : FixedSize Sig 64 := ⟨fun _ => rfl,rfl⟩

instance : Encode ProtocolCode := .wrap ProtocolCode.raw
instance : Decode ProtocolCode := .wrap ProtocolCode.mk
instance : Lawful ProtocolCode := .wrap (fun _ => rfl) (fun _ => rfl)
instance : FixedSize ProtocolCode 1 := ⟨fun _ => rfl,rfl⟩

def Party.tag : Party → UInt8
  | .maker => 0
  | .taker => 1

def Party.fromTag (tag : UInt8) : Option Party :=
  if tag = 0 then some .maker else if tag = 1 then some .taker else none

theorem Party.fromTag_exact (tag : UInt8) (party : Party) : Party.fromTag tag = some party ↔ tag = party.tag := by
  unfold fromTag
  cases party <;> simp only [Party.tag] <;> grind

instance : Encode Party := .tagged Party.tag
instance : Decode Party := .tagged Party.fromTag
instance : Lawful Party := .tagged Party.fromTag_exact
instance : FixedSize Party 1 := ⟨fun _ => rfl,rfl⟩

def bytesOf (text : String) : List UInt8 := text.toUTF8.toList

namespace Domain

def coinGenesis : List UInt8 := bytesOf "hellas.edge.genesis.v1"
def coinPayout : List UInt8 := bytesOf "hellas.edge.coin.v1"
def edgeOpen : List UInt8 := bytesOf "hellas.edge.edge.v1"
def openPayload : List UInt8 := bytesOf "hellas.edge.open.v1"
def closePayload : List UInt8 := bytesOf "hellas.edge.close.v1"
def termsBasic : List UInt8 := bytesOf "hellas.terms.basic.v2"
def termsWorkPayment : List UInt8 := bytesOf "hellas.terms.work-payment.v4"
def termsWorkStakeBond : List UInt8 := bytesOf "hellas.terms.work-stake-bond.v4"
def workEarnedCertificate : List UInt8 := bytesOf "hellas.work.earned-cumulative.v2"
def workNoEarnedCertificate : List UInt8 := bytesOf "hellas.work.no-earned-certificate.v2"
def workSettlementState : List UInt8 := bytesOf "hellas.work.settlement-state.v2"
def workStartPaymentClose : List UInt8 := bytesOf "hellas.work.start-payment-close.v2"
def workStartPaymentCloseId : List UInt8 := bytesOf "hellas.work.start-payment-close-id.v2"
def workRespondPaymentClose : List UInt8 := bytesOf "hellas.work.respond-payment-close.v2"
def workAdjudicatedPaymentClose : List UInt8 := bytesOf "hellas.work.adjudicated-payment-close.v4"
def workFreezeClose : List UInt8 := bytesOf "hellas.work.freeze-close.v2"
def ownerReshape : List UInt8 := bytesOf "hellas.owner.reshape.v2"
def coinReshape : List UInt8 := bytesOf "hellas.owner.coin.v2"
def registryChunkId : List UInt8 := bytesOf "hellas.registry.chunk-id.v2"

end Domain

def maxPartyInputs : Nat := 4
def maxEdgeInputs : Nat := maxPartyInputs * 2
def maxEdgeOutputs : Nat := 4

end Hellas.Kernel
