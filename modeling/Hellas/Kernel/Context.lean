import Hellas.Kernel.Primitive

-- Network, block context and deterministic resource pricing.

namespace Hellas.Kernel

open Codec Words

def maxNetworkIdLength : Nat := 63

-- The id's live bytes; the padding of the fixed buffer never reaches an encoding.
structure NetworkId where
  bytes : List UInt8
  nonempty : bytes ≠ []
  bound : bytes.length ≤ maxNetworkIdLength
  deriving DecidableEq

instance : Encode NetworkId where
  maxEncodedSize := 1 + maxNetworkIdLength
  encodedSize network := 1 + network.bytes.length
  encode network := UInt8.ofNat network.bytes.length :: network.bytes

theorem encode_network_cancel {second : NetworkId} {left right : List UInt8} :
    encode first ++ left = encode second ++ right ↔ first = second ∧ left = right := by
  constructor
  · intro same
    obtain ⟨length,rest⟩ := List.cons.inj same
    have small : first.bytes.length = second.bytes.length := by
      have short := first.bound
      have long := second.bound
      have words := congrArg UInt8.toNat length
      simp only [maxNetworkIdLength,UInt8.toNat_ofNat'] at short long words
      omega
    obtain ⟨bytes,after⟩ := List.append_inj rest small
    cases first
    cases second
    cases bytes
    exact ⟨rfl,after⟩
  · intro same
    rw [same.1,same.2]

structure BlockHash where
  raw : FixedBytes 32
  deriving DecidableEq

structure BlockHeight where
  value : UInt64
  deriving DecidableEq

instance : Encode BlockHeight where
  maxEncodedSize := envelopeSize + 8
  encodedSize _ := envelopeSize + 8
  encode height := encodeEnvelope Tag.blockHeight ++ encode height.value

instance : Decode BlockHeight where
  decode := decodeComposite Tag.blockHeight do
    let value ← decodeField
    pure ⟨value⟩

instance : Lawful BlockHeight where
  size _ := by simp [encode,encodedSize]
  bound _ := Nat.le_refl _
  exact := composite_exact (parses_congr (parses_read fun _ => parses_pure)
    (by rintro ⟨value⟩ bytes; simp [encode]))

instance : FixedSize BlockHeight (envelopeSize + 8) := ⟨fun _ => rfl,rfl⟩

-- Resource units of one operation: fixed overhead, touched slots, proof verifications.
structure Cost where
  base : UInt64
  slots : UInt64
  proofs : UInt64
  deriving DecidableEq

namespace Cost

def fits (cost budget : Cost) : Bool := cost.base ≤ budget.base && cost.slots ≤ budget.slots && cost.proofs ≤ budget.proofs

end Cost

-- `lifetime` prices a live edge slot per prepaid block and is not a cost dimension.
structure Fees where
  base : UInt64
  slot : UInt64
  proof : UInt64
  lifetime : UInt64
  deriving DecidableEq

namespace Fees

def charge (fees : Fees) (cost : Cost) : Option UInt64 := do
  let base ← checkedMul fees.base cost.base
  let slots ← checkedMul fees.slot cost.slots
  let proofs ← checkedMul fees.proof cost.proofs
  checkedAdd (← checkedAdd base slots) proofs

def price (fees : Fees) (cost : Cost) : Nat :=
  fees.base.toNat * cost.base.toNat + fees.slot.toNat * cost.slots.toNat + fees.proof.toNat * cost.proofs.toNat

theorem charge_exact {fees : Fees} : fees.charge cost = some fee ↔ fees.price cost = fee.toNat := by
  simp only [charge,Option.bind_eq_bind,Option.bind_eq_some_iff,checkedMul_exact,checkedAdd_exact,price]
  constructor
  · rintro ⟨base,baseFee,slots,slotFee,proofs,proofFee,both,sum,total⟩
    omega
  · intro total
    have bound := fee.toNat_lt
    obtain ⟨base,baseFee⟩ := exists_word (show fees.base.toNat * cost.base.toNat < 2^64 by omega)
    obtain ⟨slots,slotFee⟩ := exists_word (show fees.slot.toNat * cost.slots.toNat < 2^64 by omega)
    obtain ⟨proofs,proofFee⟩ := exists_word (show fees.proof.toNat * cost.proofs.toNat < 2^64 by omega)
    obtain ⟨both,sum⟩ := exists_word (show base.toNat + slots.toNat < 2^64 by omega)
    exact ⟨base,baseFee,slots,slotFee,proofs,proofFee,both,sum,by omega⟩

end Fees

instance : Encode Fees where
  maxEncodedSize := envelopeSize + 4 * 8
  encodedSize _ := envelopeSize + 4 * 8
  encode fees := encodeEnvelope Tag.fees ++ (encode fees.base ++ (encode fees.slot ++ (encode fees.proof ++ encode fees.lifetime)))

instance : Decode Fees where
  decode := decodeComposite Tag.fees do
    let base ← decodeField
    let slot ← decodeField
    let proof ← decodeField
    let lifetime ← decodeField
    pure ⟨base,slot,proof,lifetime⟩

instance : Lawful Fees where
  size _ := by simp [encode,encodedSize]
  bound _ := Nat.le_refl _
  exact := composite_exact (parses_congr (parses_read fun _ => parses_read fun _ =>
    parses_read fun _ => parses_read fun _ =>
    parses_pure) (by rintro ⟨base,slot,proof,lifetime⟩ bytes; simp))

instance : FixedSize Fees (envelopeSize + 4 * 8) := ⟨fun _ => rfl,rfl⟩

structure Context where
  network : NetworkId
  blockHeight : BlockHeight
  previousHash : BlockHash
  fees : Fees
  deriving DecidableEq

end Hellas.Kernel
