import Hellas.Kernel.Contest

-- Transactions and their wire format.

namespace Hellas.Kernel

open Codec Guard

def encodeCertificate : Option (EarnedCertificate × PartyAuth) → List UInt8
  | none => encode (0 : UInt8)
  | some (certificate, auth) => encode (1 : UInt8) ++ (encode certificate ++ encode auth)

def decodeCertificate : Cursor DecodeError (Option (EarnedCertificate × PartyAuth)) := do
  let present : UInt8 ← decodeField
  if present = 0 then pure none
  else if present = 1 then do
    let certificate ← decodeField
    let auth ← decodeField
    pure (some (certificate, auth))
  else throw (.invalidTag present)

theorem parses_certificate : Parses (fun v r => r = encodeCertificate v) decodeCertificate :=
  parses_congr (parses_read fun _ => parses_ite parses_pure (parses_ite (parses_read fun _ =>
    parses_read fun _ => parses_pure) parses_throw)) (by
        rintro (_ | ⟨certificate,auth⟩) bytes <;> simp [encodeCertificate])

def certificateSize : Option (EarnedCertificate × PartyAuth) → Nat
  | none => 0
  | some (certificate, auth) => encodedSize certificate + encodedSize auth

theorem encodeCertificate_length (certificate : Option (EarnedCertificate × PartyAuth)) :
    (encodeCertificate certificate).length = 1 + certificateSize certificate := by
  rcases certificate with _ | ⟨certificate,auth⟩ <;>
    simp only [encodeCertificate,certificateSize,List.length_append,Lawful.size,FixedSize.size (α := UInt8)]

instance : Encode PaymentCloseStart where
  maxEncodedSize := envelopeSize + 1 + 32 + maxEncodedSize Terms + 1 + 2 * 8 + 1 +
    EarnedCertificate.encodedLength + 2 * maxEncodedSize PartyAuth
  encodedSize start := envelopeSize + 1 + 32 + encodedSize start.terms + 1 + 2 * 8 + 1 +
    certificateSize start.certificate + encodedSize start.action
  encode start := encodeEnvelope Tag.paymentCloseStart ++ (encode workCloseVersion ++
    (encode start.paymentEdge ++ (encode start.terms ++ (encode start.openerRole ++
      (encode start.validFromHeight ++ (encode start.validThroughHeight ++
        (encodeCertificate start.certificate ++ encode start.action)))))))

instance : Decode PaymentCloseStart where
  decode := decodeComposite Tag.paymentCloseStart do
    let version : UInt8 ← decodeField
    if version ≠ workCloseVersion then throw (.invalidTag version)
    else do
      let paymentEdge ← decodeField
      let terms ← decodeField
      let openerRole ← decodeField
      let validFromHeight ← decodeField
      let validThroughHeight ← decodeField
      let certificate ← decodeCertificate
      let action ← decodeField
      pure ⟨paymentEdge,terms,openerRole,validFromHeight,validThroughHeight,certificate,action⟩

instance : Lawful PaymentCloseStart where
  size start := by
    change List.length (_ ++ (_ ++ (_ ++ (_ ++ (_ ++ (_ ++ (_ ++ (_ ++ _)))))))) =
      _ + _ + _ + _ + _ + _ + _ + _ + _
    simp only [List.length_append,encodeEnvelope_length,encodeCertificate_length,Lawful.size,FixedSize.size]
    omega
  bound start := by
    change _ + _ + _ + _ + _ + _ + _ + certificateSize start.certificate + _ ≤
      _ + _ + _ + _ + _ + _ + _ + _ + 2 * _
    have terms := Lawful.bound start.terms
    have action := Lawful.bound start.action
    have certificate : certificateSize start.certificate ≤ EarnedCertificate.encodedLength + maxEncodedSize PartyAuth := by
      rcases start.certificate with _ | ⟨certificate,auth⟩
      · exact Nat.zero_le _
      · exact Nat.add_le_add_left (Lawful.bound auth) _
    omega
  exact := composite_exact (parses_congr (parses_read fun _ => parses_ite parses_throw
    (parses_read fun _ => parses_read fun _ => parses_read fun _ => parses_read fun _ =>
    parses_read fun _ => parses_bind parses_certificate fun _ => parses_read fun _ =>
    parses_pure)) (by
        rintro ⟨edge,terms,role,opens,closes,certificate,action⟩ bytes
        simp))

instance : Encode PaymentCloseResponse where
  maxEncodedSize := envelopeSize + 1 + 32 + 32 + 1 + EarnedCertificate.encodedLength + 2 * maxEncodedSize PartyAuth
  encodedSize response := envelopeSize + 1 + 32 + 32 + 1 + EarnedCertificate.encodedLength +
    2 * maxEncodedSize PartyAuth - 2 * maxEncodedSize PartyAuth + encodedSize response.certificateAuth + encodedSize response.action
  encode response := encodeEnvelope Tag.paymentCloseResponse ++ (encode workCloseVersion ++
    (encode response.paymentEdge ++ (encode response.startId ++ (encode response.responderRole ++
      (encode response.certificate ++ (encode response.certificateAuth ++ encode response.action))))))

instance : Decode PaymentCloseResponse where
  decode := decodeComposite Tag.paymentCloseResponse do
    let version : UInt8 ← decodeField
    if version ≠ workCloseVersion then throw (.invalidTag version)
    else do
      let paymentEdge ← decodeField
      let startId ← decodeField
      let responderRole ← decodeField
      let certificate ← decodeField
      let certificateAuth ← decodeField
      let action ← decodeField
      pure ⟨paymentEdge,startId,responderRole,certificate,certificateAuth,action⟩

instance : Lawful PaymentCloseResponse where
  size response := by
    change List.length (_ ++ (_ ++ (_ ++ (_ ++ (_ ++ (_ ++ (_ ++ _))))))) =
      _ + _ + _ + _ + _ + _ + 2 * maxEncodedSize PartyAuth - 2 * maxEncodedSize PartyAuth + _ + _
    simp only [List.length_append,encodeEnvelope_length,Lawful.size (α := PartyAuth),Lawful.size,FixedSize.size]
    omega
  bound response := by
    change _ + _ + _ + _ + _ + _ + 2 * maxEncodedSize PartyAuth - 2 * maxEncodedSize PartyAuth +
      _ + _ ≤ _ + _ + _ + _ + _ + _ + 2 * maxEncodedSize PartyAuth
    have certificate := Lawful.bound response.certificateAuth
    have action := Lawful.bound response.action
    omega
  exact := composite_exact (parses_congr (parses_read fun _ => parses_ite parses_throw
    (parses_read fun _ => parses_read fun _ => parses_read fun _ => parses_read fun _ =>
    parses_read fun _ => parses_read fun _ => parses_pure)) (by
        rintro ⟨edge,start,role,certificate,auth,action⟩ bytes
        simp))

abbrev PartyCoins := BoundedList CoinId maxPartyInputs

instance : Lawful PartyCoins := lawful_list (by decide)

structure Funding where
  maker : PartyCoins
  taker : PartyCoins
  deriving DecidableEq

namespace Funding

def len (funding : Funding) : Nat := funding.maker.len + funding.taker.len
def makerLen (funding : Funding) : Nat := funding.maker.len
def ids (funding : Funding) : List CoinId := funding.maker.items ++ funding.taker.items

end Funding

instance : Encode Funding where
  maxEncodedSize := envelopeSize + 2 * maxEncodedSize PartyCoins
  encodedSize funding := envelopeSize + encodedSize funding.maker + encodedSize funding.taker
  encode funding := encodeEnvelope Tag.funding ++ (encode funding.maker ++ encode funding.taker)

instance : Decode Funding where
  decode := decodeComposite Tag.funding do
    let maker ← decodeField
    let taker ← decodeField
    pure ⟨maker,taker⟩

instance : Lawful Funding where
  size funding := by
    change List.length (_ ++ (_ ++ _)) = _ + _ + _
    simp only [List.length_append,encodeEnvelope_length,Lawful.size,Nat.add_assoc]
  bound funding := by
    change _ + _ + _ ≤ _ + 2 * _
    have maker := Lawful.bound funding.maker
    have taker := Lawful.bound funding.taker
    omega
  exact := composite_exact (parses_congr (parses_read fun _ => parses_read fun _ => parses_pure) (by rintro ⟨maker,taker⟩ bytes; simp))

inductive Proof where
  | mutualClose (maker taker : PartyAuth)
  | timeout (terms : Terms) (owner : Option PartyAuth)
  | freeze (earned validFromHeight validThroughHeight : UInt64) (maker taker : PartyAuth)
  | adjudicated (contestCommitment : PaymentContestCommitment)
  deriving DecidableEq

namespace Proof

def kind : Proof → CloseKind
  | .mutualClose .. => .mutualClose
  | .timeout .. => .timeout
  | .freeze .. => .freeze
  | .adjudicated _ => .adjudicated

def body : Proof → List UInt8
  | .mutualClose maker taker => encode CloseKind.mutualClose.tag ++ (encode maker ++ encode taker)
  | .timeout terms owner => encode CloseKind.timeout.tag ++ (encode terms ++ encode owner)
  | .freeze earned validFrom validThrough maker taker => encode CloseKind.freeze.tag ++
    (encode earned ++ (encode validFrom ++ (encode validThrough ++ (encode maker ++ encode taker))))
  | .adjudicated commitment => encode CloseKind.adjudicated.tag ++ encode commitment

def freezeBodySize : Nat := 3 * 8 + 2 * maxEncodedSize PartyAuth

def maxBody : Nat :=
  max (max (max (2 * maxEncodedSize PartyAuth) (maxEncodedSize Terms + maxEncodedSize (Option PartyAuth))) freezeBodySize)
      (maxEncodedSize PaymentContestCommitment)

end Proof

instance : Encode Proof where
  maxEncodedSize := envelopeSize + 1 + Proof.maxBody
  encodedSize proof := envelopeSize + 1 + match proof with
    | .mutualClose maker taker => encodedSize maker + encodedSize taker
    | .timeout terms owner => encodedSize terms + encodedSize owner
    | .freeze _ _ _ maker taker => 3 * 8 + encodedSize maker + encodedSize taker
    | .adjudicated commitment => encodedSize commitment
  encode proof := encodeEnvelope Tag.proof ++ proof.body

instance : Decode Proof where
  decode := decodeComposite Tag.proof do
    let variant : UInt8 ← decodeField
    if variant = CloseKind.mutualClose.tag then do
      let maker ← decodeField
      let taker ← decodeField
      pure (.mutualClose maker taker)
    else if variant = CloseKind.timeout.tag then do
      let terms ← decodeField
      let owner ← decodeField
      pure (.timeout terms owner)
    else if variant = CloseKind.freeze.tag then do
      let earned ← decodeField
      let validFromHeight ← decodeField
      let validThroughHeight ← decodeField
      let maker ← decodeField
      let taker ← decodeField
      pure (.freeze earned validFromHeight validThroughHeight maker taker)
    else if variant = CloseKind.adjudicated.tag then do
      let contestCommitment ← decodeField
      pure (.adjudicated contestCommitment)
    else throw (.invalidTag variant)

instance : Lawful Proof where
  size proof := by
    change List.length (_ ++ _) = _ + _ + _
    cases proof <;> simp only [Proof.body,List.length_append,encodeEnvelope_length,Lawful.size,FixedSize.size] <;> omega
  bound proof := by
    change _ + _ + _ ≤ _ + _ + _
    apply Nat.add_le_add_left
    unfold Proof.maxBody Proof.freezeBodySize
    cases proof with
    | mutualClose maker taker =>
      have left := Lawful.bound maker
      have right := Lawful.bound taker
      dsimp only
      omega
    | timeout terms owner =>
      have left := Lawful.bound terms
      have right := Lawful.bound owner
      dsimp only
      omega
    | freeze earned opens closes maker taker =>
      have left := Lawful.bound maker
      have right := Lawful.bound taker
      dsimp only
      omega
    | adjudicated commitment => exact Nat.le_trans (Lawful.bound commitment) (Nat.le_max_right _ _)
  exact := composite_exact (parses_congr (parses_read fun _ => parses_ite (parses_read fun _ =>
    parses_read fun _ => parses_pure) (parses_ite (parses_read fun _ => parses_read fun _ =>
    parses_pure) (parses_ite (parses_read fun _ => parses_read fun _ => parses_read fun _ =>
    parses_read fun _ => parses_read fun _ => parses_pure) (parses_ite (parses_read fun _ =>
    parses_pure) parses_throw)))) (by
      rintro (⟨maker,taker⟩ | ⟨terms,owner⟩ | ⟨earned,opens,closes,maker,taker⟩ | commitment) bytes <;> simp [Proof.body,CloseKind.tag]))

abbrev ReshapeInputs := BoundedList CoinId maxEdgeInputs

instance : Lawful ReshapeInputs := lawful_list (by decide)

-- The owner consumes coins it owns and issues coins.
structure Reshape where
  inputs : ReshapeInputs
  outputs : Payouts
  auth : Auth
  deriving DecidableEq

instance : Encode Reshape where
  maxEncodedSize := maxEncodedSize ReshapeInputs + maxEncodedSize Payouts + maxEncodedSize Auth
  encodedSize reshape := encodedSize reshape.inputs + encodedSize reshape.outputs +
    encodedSize reshape.auth
  encode reshape := encode reshape.inputs ++ (encode reshape.outputs ++ encode reshape.auth)

instance : Decode Reshape where
  decode buf := (do
    let inputs ← decodeField
    let outputs ← decodeField
    let auth ← decodeField
    pure ⟨inputs,outputs,auth⟩ : Cursor DecodeError Reshape) buf 0

instance : Lawful Reshape where
  size reshape := by
    change List.length (_ ++ (_ ++ _)) = _ + _ + _
    simp only [List.length_append,Lawful.size,Nat.add_assoc]
  bound reshape := by
    change _ + _ + _ ≤ _ + _ + _
    have inputs := Lawful.bound reshape.inputs
    have outputs := Lawful.bound reshape.outputs
    have auth := Lawful.bound reshape.auth
    omega
  exact := parses_exact (parses_congr (parses_read fun _ => parses_read fun _ =>
    parses_read fun _ => parses_pure)
    (by rintro ⟨inputs,outputs,auth⟩ bytes; simp [encode]))

inductive Move where
  | startPaymentClose (start : PaymentCloseStart)
  | respondPaymentClose (response : PaymentCloseResponse)
  deriving DecidableEq

instance : Encode Move where
  maxEncodedSize := max (maxEncodedSize PaymentCloseStart) (maxEncodedSize PaymentCloseResponse)
  encodedSize
    | .startPaymentClose start => encodedSize start
    | .respondPaymentClose response => encodedSize response
  encode
    | .startPaymentClose start => encode start
    | .respondPaymentClose response => encode response

-- The nested envelope's tag is the action kind; there is no second action byte beside it.
instance : Decode Move where
  decode buf := do
    let tag ← peekEnvelopeTag buf
    if tag = Tag.paymentCloseStart then do
      let (start, consumed) ← (decode buf : Except DecodeError (PaymentCloseStart × Nat))
      pure (.startPaymentClose start, consumed)
    else if tag = Tag.paymentCloseResponse then do
      let (response, consumed) ← (decode buf : Except DecodeError (PaymentCloseResponse × Nat))
      pure (.respondPaymentClose response, consumed)
    else .error (.invalidTag tag)

theorem peekEnvelopeTag_ok (found : encodeEnvelope tag ++ rest <+: buf) : peekEnvelopeTag buf = .ok tag := by
  obtain ⟨tail,rfl⟩ := found
  simp [peekEnvelopeTag,decodeFixed,envelopeSize,encodeEnvelope]

instance : Lawful Move where
  size action := by
    cases action with
    | startPaymentClose start => exact Lawful.size start
    | respondPaymentClose response => exact Lawful.size response
  bound action := by
    cases action with
    | startPaymentClose start => exact Nat.le_trans (Lawful.bound start) (Nat.le_max_left _ _)
    | respondPaymentClose response => exact Nat.le_trans (Lawful.bound response) (Nat.le_max_right _ _)
  exact := by
    intro buf action used
    constructor
    · intro decoded
      simp only [decode,bind_ok] at decoded
      obtain ⟨tag,-,chosen⟩ := decoded
      split at chosen
      · obtain ⟨⟨start,consumed⟩,read,same⟩ := bind_ok.mp chosen
        cases same
        exact (Lawful.exact buf start consumed).mp read
      · split at chosen
        · obtain ⟨⟨response,consumed⟩,read,same⟩ := bind_ok.mp chosen
          cases same
          exact (Lawful.exact buf response consumed).mp read
        · cases chosen
    · intro accepted
      cases action with
      | startPaymentClose start =>
        have peeked : peekEnvelopeTag buf = .ok Tag.paymentCloseStart := peekEnvelopeTag_ok accepted.2.1
        simp only [decode,peeked,bind_ok]
        exact ⟨_,rfl,by
          rw [if_pos rfl,bind_ok]
          exact ⟨(start, used),(Lawful.exact buf start used).mpr accepted,rfl⟩⟩
      | respondPaymentClose response =>
        have peeked : peekEnvelopeTag buf = .ok Tag.paymentCloseResponse := peekEnvelopeTag_ok accepted.2.1
        simp only [decode,peeked,bind_ok]
        exact ⟨_,rfl,by
          rw [if_neg (by decide),if_pos rfl,bind_ok]
          exact ⟨(response, used),(Lawful.exact buf response used).mpr accepted,rfl⟩⟩

inductive Tx where
  | openEdge (funding : Funding) (terms : Terms) (makerAuth takerAuth : PartyAuth)
  | closeEdge (input : EdgeId) (proof : Proof) (outputs : Payouts)
  | move (action : Move)
  | owner (reshape : Reshape)
  deriving DecidableEq

namespace Tx

def openTag : UInt8 := 0
def closeTag : UInt8 := 1
def moveTag : UInt8 := 2
def ownerTag : UInt8 := 3

def body : Tx → List UInt8
  | .openEdge funding terms makerAuth takerAuth =>
    encode openTag ++ (encode funding ++ (encode terms ++ (encode makerAuth ++ encode takerAuth)))
  | .closeEdge input proof outputs => encode closeTag ++ (encode input ++ (encode proof ++ encode outputs))
  | .move action => encode moveTag ++ encode action
  | .owner reshape => encode ownerTag ++ encode reshape

def maxOpenBody : Nat := maxEncodedSize Funding + maxEncodedSize Terms + 2 * maxEncodedSize PartyAuth

def maxCloseBody : Nat := maxEncodedSize EdgeId + maxEncodedSize Proof + maxEncodedSize Payouts

def maxBody : Nat := max (max (max maxOpenBody maxCloseBody) (maxEncodedSize Move)) (maxEncodedSize Reshape)

end Tx

instance : Encode Tx where
  maxEncodedSize := envelopeSize + 1 + Tx.maxBody
  encodedSize tx := envelopeSize + 1 + match tx with
    | .openEdge funding terms makerAuth takerAuth => encodedSize funding + encodedSize terms +
      encodedSize makerAuth + encodedSize takerAuth
    | .closeEdge input proof outputs => encodedSize input + encodedSize proof + encodedSize outputs
    | .move action => encodedSize action
    | .owner reshape => encodedSize reshape
  encode tx := encodeEnvelope Tag.tx ++ tx.body

instance : Decode Tx where
  decode := decodeComposite Tag.tx do
    let variant : UInt8 ← decodeField
    if variant = Tx.openTag then do
      let funding ← decodeField
      let terms ← decodeField
      let makerAuth ← decodeField
      let takerAuth ← decodeField
      pure (.openEdge funding terms makerAuth takerAuth)
    else if variant = Tx.closeTag then do
      let input ← decodeField
      let proof ← decodeField
      let outputs ← decodeField
      pure (.closeEdge input proof outputs)
    else if variant = Tx.moveTag then do
      let action ← decodeField
      pure (.move action)
    else if variant = Tx.ownerTag then do
      let reshape ← decodeField
      pure (.owner reshape)
    else throw (.invalidTag variant)

instance : Lawful Tx where
  size tx := by
    change List.length (_ ++ _) = _ + _ + _
    cases tx <;> simp only [Tx.body,List.length_append,encodeEnvelope_length,Lawful.size,FixedSize.size (α := UInt8),Nat.add_assoc]
  bound tx := by
    change _ + _ + _ ≤ _ + _ + _
    apply Nat.add_le_add_left
    unfold Tx.maxBody Tx.maxOpenBody Tx.maxCloseBody
    cases tx with
    | openEdge funding terms makerAuth takerAuth =>
      have spent := Lawful.bound funding
      have body := Lawful.bound terms
      have maker := Lawful.bound makerAuth
      have taker := Lawful.bound takerAuth
      dsimp only
      omega
    | closeEdge input proof outputs =>
      have edge := Lawful.bound input
      have witness := Lawful.bound proof
      have paid := Lawful.bound outputs
      dsimp only
      omega
    | move action =>
      have bounded := Lawful.bound action
      dsimp only
      omega
    | owner reshape =>
      have bounded := Lawful.bound reshape
      dsimp only
      omega
  exact := composite_exact (parses_congr (parses_read fun _ => parses_ite (parses_read fun _ =>
    parses_read fun _ => parses_read fun _ => parses_read fun _ => parses_pure) (parses_ite
    (parses_read fun _ => parses_read fun _ => parses_read fun _ => parses_pure) (parses_ite
    (parses_read fun _ => parses_pure) (parses_ite (parses_read fun _ => parses_pure)
    parses_throw)))) (by
      rintro (⟨funding,terms,maker,taker⟩ | ⟨input,proof,outputs⟩ | action | reshape) bytes <;>
        simp [Tx.body,Tx.openTag,Tx.closeTag,Tx.moveTag,Tx.ownerTag]))

end Hellas.Kernel
