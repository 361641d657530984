import Hellas.Kernel.Object

-- Concrete edge terms, their codec and their commitment.

namespace Hellas.Kernel

open Codec Guard

structure WorkStakeBondTerms where
  parties : Parties
  timeout : BlockHeight
  timeoutOutputs : Payouts
  maxJobPrice : UInt64
  deriving DecidableEq

-- A payment embeds the complete terms of the bond it leans on; its parties are the bond's, swapped.
structure WorkPaymentTerms where
  bondEdge : EdgeId
  bondTerms : WorkStakeBondTerms
  privatePolicyCommitment : FixedBytes 32
  omitResponseBlocks : UInt64
  startValidityBlocks : UInt64
  omissionBond : UInt64
  deriving DecidableEq

namespace WorkPaymentTerms

def parties (payment : WorkPaymentTerms) : Parties :=
  let bond := payment.bondTerms.parties
  ⟨bond.taker,bond.maker⟩

def admissionHorizon (payment : WorkPaymentTerms) : BlockHeight := payment.bondTerms.timeout

end WorkPaymentTerms

-- The body; the stored hash of the source is a function of it. Tags 1 and 3 are not assigned.
inductive Terms where
  | basic (protocol : ProtocolCode) (parties : Parties) (timeout : BlockHeight)
      (timeoutOutputs : Payouts)
  | workPayment (payment : WorkPaymentTerms)
  | workStakeBond (bond : WorkStakeBondTerms)
  deriving DecidableEq

namespace Terms

def basicTag : UInt8 := 0
def workPaymentTag : UInt8 := 2
def workStakeBondTag : UInt8 := 4

def parties : Terms → Parties
  | .basic _ parties _ _ => parties
  | .workPayment payment => payment.parties
  | .workStakeBond bond => bond.parties

def timeout : Terms → BlockHeight
  | .basic _ _ timeout _ => timeout
  | .workPayment payment => payment.admissionHorizon
  | .workStakeBond bond => bond.timeout

def timeoutOutputs : Terms → Option Payouts
  | .basic _ _ _ outputs => some outputs
  | .workPayment _ => none
  | .workStakeBond bond => some bond.timeoutOutputs

def allowedCloses : Terms → CloseKindSet
  | .basic .. => .basic
  | .workPayment _ => .workPayment
  | .workStakeBond _ => .workStakeBond

end Terms

instance : Encode WorkStakeBondTerms where
  maxEncodedSize := maxEncodedSize Parties + maxEncodedSize BlockHeight + maxEncodedSize Payouts + 8
  encodedSize bond := encodedSize bond.parties + maxEncodedSize BlockHeight + encodedSize bond.timeoutOutputs + 8
  encode bond := encode bond.parties ++ (encode bond.timeout ++ (encode bond.timeoutOutputs ++ encode bond.maxJobPrice))

instance : Decode WorkStakeBondTerms where
  decode buf := (do
    let parties ← decodeField
    let timeout ← decodeField
    let timeoutOutputs ← decodeField
    let maxJobPrice ← decodeField
    pure ⟨parties,timeout,timeoutOutputs,maxJobPrice⟩ : Cursor DecodeError WorkStakeBondTerms) buf 0

instance : Lawful WorkStakeBondTerms where
  size bond := by
    change List.length (_ ++ (_ ++ (_ ++ _))) = _ + _ + _ + _
    simp only [List.length_append,Lawful.size,FixedSize.size,FixedSize.max,Nat.add_assoc]
  bound bond := by
    change _ + _ + _ + _ ≤ _ + _ + _ + _
    have parties := Lawful.bound bond.parties
    have outputs := Lawful.bound bond.timeoutOutputs
    omega
  exact := parses_exact (parses_congr (parses_read fun _ => parses_read fun _ =>
    parses_read fun _ => parses_read fun _ => parses_pure)
    (by rintro ⟨parties,timeout,outputs,price⟩ bytes; simp [encode]))

-- The complete tag-4 bytes of a bond, as a payment body carries them.
def encodeWorkStakeBondWitness (bond : WorkStakeBondTerms) : List UInt8 :=
  encodeEnvelope Tag.terms ++ (encode Terms.workStakeBondTag ++ encode bond)

def decodeWorkStakeBondWitness : Decoder DecodeError WorkStakeBondTerms :=
  decodeComposite Tag.terms do
    let variant : UInt8 ← decodeField
    if variant ≠ Terms.workStakeBondTag then throw (.invalidTag variant)
    else decodeField

def workStakeBondWitnessSize (bond : WorkStakeBondTerms) : Nat := envelopeSize + 1 + encodedSize bond

theorem witness_exact : Exact (fun _ => True) encodeWorkStakeBondWitness decodeWorkStakeBondWitness :=
  composite_exact (parses_congr (parses_read fun _ => parses_ite parses_throw
    parses_field) (by intro bond bytes; simp))

theorem witness_length (bond : WorkStakeBondTerms) :
    (encodeWorkStakeBondWitness bond).length = workStakeBondWitnessSize bond := by
  simp only [encodeWorkStakeBondWitness,workStakeBondWitnessSize,List.length_append,
    encodeEnvelope_length,Lawful.size,FixedSize.size,Nat.add_assoc]

def decodeWitnessField : Cursor DecodeError WorkStakeBondTerms := fun buf consumed => do
  let rest ← if consumed ≤ buf.length then .ok (buf.drop consumed)
    else .error (.invalidConsumption consumed buf.length)
  let (bond, size) ← decodeWorkStakeBondWitness rest
  pure (bond, consumed + size)

theorem parses_witness : Parses (fun v r => True ∧ r = encodeWorkStakeBondWitness v) decodeWitnessField := by
  apply parses_nested witness_exact
  intro buf before value used here
  simp only [decodeWitnessField,here.length_le,if_true,bind_ok,pure_ok]
  constructor
  · rintro ⟨rest,same,⟨found,inner⟩,decoded,result⟩
    cases same
    cases result
    exact ⟨inner,decoded,witness_exact.consumed decoded,rfl⟩
  · rintro ⟨inner,decoded,-,rfl⟩
    exact ⟨_,rfl,(value, inner),decoded,rfl⟩

instance : Encode WorkPaymentTerms where
  maxEncodedSize := maxEncodedSize EdgeId + (envelopeSize + 1 + maxEncodedSize WorkStakeBondTerms) + 32 + 3 * 8
  encodedSize payment := maxEncodedSize EdgeId + workStakeBondWitnessSize payment.bondTerms + 32 + 3 * 8
  encode payment := encode payment.bondEdge ++ (encodeWorkStakeBondWitness payment.bondTerms ++
    (encode payment.privatePolicyCommitment ++ (encode payment.omitResponseBlocks ++
      (encode payment.startValidityBlocks ++ encode payment.omissionBond))))

instance : Decode WorkPaymentTerms where
  decode buf := (do
    let bondEdge ← decodeField
    let bondTerms ← decodeWitnessField
    let privatePolicyCommitment ← decodeField
    let omitResponseBlocks ← decodeField
    let startValidityBlocks ← decodeField
    let omissionBond ← decodeField
    pure ⟨bondEdge,bondTerms,privatePolicyCommitment,omitResponseBlocks,startValidityBlocks,
      omissionBond⟩ : Cursor DecodeError WorkPaymentTerms) buf 0

instance : Lawful WorkPaymentTerms where
  size payment := by
    change List.length (_ ++ (_ ++ (_ ++ (_ ++ (_ ++ _))))) = _ + _ + _ + _
    simp only [List.length_append,Lawful.size,witness_length,FixedSize.size,FixedSize.max]
    omega
  bound payment := by
    change _ + workStakeBondWitnessSize _ + _ + _ ≤ _ + _ + _ + _
    have bond := Lawful.bound payment.bondTerms
    unfold workStakeBondWitnessSize
    omega
  exact := parses_exact (parses_congr (parses_read fun _ => parses_bind parses_witness fun _ =>
    parses_read fun _ => parses_read fun _ => parses_read fun _ => parses_read fun _ => parses_pure)
    (by rintro ⟨edge,bond,policy,window,start,omission⟩ bytes; simp [encode]))

def Terms.body : Terms → List UInt8
  | .basic protocol parties timeout outputs =>
    encode basicTag ++ (encode protocol ++ (encode parties ++ (encode timeout ++ encode outputs)))
  | .workPayment payment => encode workPaymentTag ++ encode payment
  | .workStakeBond bond => encode workStakeBondTag ++ encode bond

def Terms.basicBodySize : Nat := maxEncodedSize ProtocolCode + maxEncodedSize Parties + maxEncodedSize BlockHeight + maxEncodedSize Payouts

instance : Encode Terms where
  maxEncodedSize := envelopeSize + 1 + max (max Terms.basicBodySize (maxEncodedSize WorkStakeBondTerms)) (maxEncodedSize WorkPaymentTerms)
  encodedSize terms := envelopeSize + 1 + match terms with
    | .basic protocol parties timeout outputs => encodedSize protocol + encodedSize parties + encodedSize timeout + encodedSize outputs
    | .workPayment payment => encodedSize payment
    | .workStakeBond bond => encodedSize bond
  encode terms := encodeEnvelope Tag.terms ++ terms.body

instance : Decode Terms where
  decode := decodeComposite Tag.terms do
    let variant : UInt8 ← decodeField
    if variant = Terms.basicTag then do
      let protocol ← decodeField
      let parties ← decodeField
      let timeout ← decodeField
      let timeoutOutputs ← decodeField
      pure (.basic protocol parties timeout timeoutOutputs)
    else if variant = Terms.workPaymentTag then do
      let payment ← decodeField
      pure (.workPayment payment)
    else if variant = Terms.workStakeBondTag then do
      let bond ← decodeField
      pure (.workStakeBond bond)
    else throw (.invalidTag variant)

instance : Lawful Terms where
  size terms := by
    change List.length (_ ++ _) = _ + _ + _
    cases terms <;> simp only [Terms.body,List.length_append,encodeEnvelope_length,Lawful.size,FixedSize.size,Nat.add_assoc]
  bound terms := by
    change _ + _ + _ ≤ _ + _ + _
    apply Nat.add_le_add_left
    cases terms with
    | basic protocol parties timeout outputs =>
      have named := Lawful.bound parties
      have paid := Lawful.bound outputs
      refine Nat.le_trans ?_ (Nat.le_trans (Nat.le_max_left _ _) (Nat.le_max_left _ _))
      simp only [Terms.basicBodySize,FixedSize.size,FixedSize.max]
      omega
    | workPayment payment => exact Nat.le_trans (Lawful.bound payment) (Nat.le_max_right _ _)
    | workStakeBond bond => exact Nat.le_trans (Lawful.bound bond) (Nat.le_trans (Nat.le_max_right _ _) (Nat.le_max_left _ _))
  exact := composite_exact (parses_congr (parses_read fun _ => parses_ite (parses_read fun _ =>
    parses_read fun _ => parses_read fun _ => parses_read fun _ => parses_pure) (parses_ite
    (parses_read fun _ => parses_pure) (parses_ite (parses_read fun _ => parses_pure)
    parses_throw))) (by
      rintro (⟨protocol,parties,timeout,outputs⟩ | payment | bond) bytes <;>
        simp [Terms.body,Terms.basicTag,Terms.workPaymentTag,Terms.workStakeBondTag]))

section Commitment

variable [Xet]

def workStakeBondTermsHash (bond : WorkStakeBondTerms) : TermsHash :=
  ⟨Xet.hash (Domain.termsWorkStakeBond ++ encodeWorkStakeBondWitness bond)⟩

def WorkPaymentTerms.bondTermsHash (payment : WorkPaymentTerms) : TermsHash := workStakeBondTermsHash payment.bondTerms

-- The domain separates the three shapes before any byte of the body does.
def Terms.domain : Terms → List UInt8
  | .basic .. => Domain.termsBasic
  | .workPayment _ => Domain.termsWorkPayment
  | .workStakeBond _ => Domain.termsWorkStakeBond

def Terms.hash (terms : Terms) : TermsHash := ⟨Xet.hash (terms.domain ++ encode terms)⟩

end Commitment

end Hellas.Kernel
