import Hellas.Kernel.Context

-- Authorization witnesses and the keys a witness is checked against.

namespace Hellas.Kernel

open Codec

def maxWebauthnDataLength : Nat := 2048

abbrev WebAuthnData := BoundedList UInt8 maxWebauthnDataLength

instance : Lawful WebAuthnData := lawful_list (by decide)

structure WebAuthnAssertion where
  r : FixedBytes 32
  s : FixedBytes 32
  pubKeyX : FixedBytes 32
  pubKeyY : FixedBytes 32
  webauthnData : WebAuthnData
  deriving DecidableEq

instance : Encode WebAuthnAssertion where
  maxEncodedSize := envelopeSize + 4 * 32 + maxEncodedSize WebAuthnData
  encodedSize value := envelopeSize + encodedSize value.r + encodedSize value.s +
    encodedSize value.pubKeyX + encodedSize value.pubKeyY + encodedSize value.webauthnData
  encode value := encodeEnvelope Tag.webauthnAssertion ++ (encode value.r ++ (encode value.s ++
    (encode value.pubKeyX ++ (encode value.pubKeyY ++ encode value.webauthnData))))

instance : Decode WebAuthnAssertion where
  decode := decodeComposite Tag.webauthnAssertion do
    let r ← decodeField
    let s ← decodeField
    let pubKeyX ← decodeField
    let pubKeyY ← decodeField
    let webauthnData ← decodeField
    pure ⟨r,s,pubKeyX,pubKeyY,webauthnData⟩

instance : Lawful WebAuthnAssertion where
  size value := by
    change List.length (_ ++ (_ ++ (_ ++ (_ ++ (_ ++ _))))) = _ + _ + _ + _ + _ + _
    simp only [List.length_append,encodeEnvelope_length,Lawful.size,Nat.add_assoc]
  bound value := by
    change _ + _ + _ + _ + _ + _ ≤ _ + _ + maxEncodedSize WebAuthnData
    have data := Lawful.bound value.webauthnData
    simp only [FixedSize.size]
    omega
  exact := composite_exact (parses_congr (parses_read fun _ => parses_read fun _ =>
    parses_read fun _ => parses_read fun _ => parses_read fun _ => parses_pure)
    (by rintro ⟨r,s,x,y,data⟩ bytes; simp))

inductive Auth where
  | native (sig : Sig)
  | webAuthn (assertion : WebAuthnAssertion)
  deriving DecidableEq

def Auth.body : Auth → List UInt8
  | .native sig => encode (0 : UInt8) ++ encode sig
  | .webAuthn assertion => encode (1 : UInt8) ++ encode assertion

instance : Encode Auth where
  maxEncodedSize := envelopeSize + 1 + maxEncodedSize WebAuthnAssertion
  encodedSize auth := envelopeSize + 1 + match auth with
    | .native sig => encodedSize sig
    | .webAuthn assertion => encodedSize assertion
  encode auth := encodeEnvelope Tag.auth ++ auth.body

instance : Decode Auth where
  decode := decodeComposite Tag.auth do
    let variant : UInt8 ← decodeField
    if variant = 0 then do
      let sig ← decodeField
      pure (.native sig)
    else if variant = 1 then do
      let assertion ← decodeField
      pure (.webAuthn assertion)
    else throw (.invalidTag variant)

instance : Lawful Auth where
  size auth := by
    change List.length (_ ++ _) = _ + _ + _
    cases auth <;> simp only [Auth.body,List.length_append,encodeEnvelope_length,Lawful.size,FixedSize.size,Nat.add_assoc]
  bound auth := by
    change _ + _ + _ ≤ _ + _ + _
    cases auth with
    | native sig =>
      have widest : 64 ≤ maxEncodedSize WebAuthnAssertion := by decide
      simp only [FixedSize.size]
      omega
    | webAuthn assertion => exact Nat.add_le_add_left (Lawful.bound assertion) _
  exact := composite_exact (parses_congr (parses_read fun _ => parses_ite (parses_read fun _ =>
    parses_pure) (parses_ite (parses_read fun _ => parses_pure) parses_throw))
    (by rintro (sig | assertion) bytes <;> simp [Auth.body]))

inductive Authority where
  | owner
  | signer
  deriving DecidableEq

def Authority.tag : Authority → UInt8
  | .owner => 0
  | .signer => 1

def Authority.fromTag (tag : UInt8) : Option Authority :=
  if tag = 0 then some .owner else if tag = 1 then some .signer else none

theorem Authority.fromTag_exact (tag : UInt8) (authority : Authority) :
    Authority.fromTag tag = some authority ↔ tag = authority.tag := by
  unfold fromTag
  cases authority <;> simp only [Authority.tag] <;> grind

instance : Encode Authority := .tagged Authority.tag
instance : Decode Authority := .tagged Authority.fromTag
instance : Lawful Authority := .tagged Authority.fromTag_exact
instance : FixedSize Authority 1 := ⟨fun _ => rfl,rfl⟩

-- The witness names the key it was made with; the kernel verifies that one key.
structure PartyAuth where
  authority : Authority
  auth : Auth
  deriving DecidableEq

def PartyAuth.isOwner (auth : PartyAuth) : Bool :=
  match auth.authority with
  | .owner => true
  | .signer => false

theorem PartyAuth.isOwner_iff {auth : PartyAuth} : auth.isOwner = true ↔ auth.authority = .owner := by
  unfold isOwner
  cases auth.authority <;> simp

instance : Encode PartyAuth where
  maxEncodedSize := envelopeSize + maxEncodedSize Authority + maxEncodedSize Auth
  encodedSize auth := envelopeSize + encodedSize auth.authority + encodedSize auth.auth
  encode auth := encodeEnvelope Tag.partyAuth ++ (encode auth.authority ++ encode auth.auth)

instance : Decode PartyAuth where
  decode := decodeComposite Tag.partyAuth do
    let authority ← decodeField
    let auth ← decodeField
    pure ⟨authority,auth⟩

instance : Lawful PartyAuth where
  size auth := by
    change List.length (_ ++ (_ ++ _)) = _ + _ + _
    simp only [List.length_append,encodeEnvelope_length,Lawful.size,Nat.add_assoc]
  bound auth := by
    change _ + _ + _ ≤ _ + _ + _
    have authority := Lawful.bound auth.authority
    have inner := Lawful.bound auth.auth
    omega
  exact := composite_exact (parses_congr (parses_read fun _ => parses_read fun _ => parses_pure) (by rintro ⟨authority,auth⟩ bytes; simp))

-- The host's signature check. Without an override, a passkey assertion never verifies.
structure SigVerifier where
  verifySig : Sig → Key → PayloadHash → Bool
  verifyAuth : Auth → Key → PayloadHash → Bool := fun auth key hash =>
    match auth with
    | .native sig => verifySig sig key hash
    | .webAuthn _ => false

end Hellas.Kernel
