import Hellas.Kernel.State

-- The wire format: one value, one byte string, in both directions.

namespace Hellas.Kernel

open Codec

-- The four laws of a canonical codec, on the values it is meant for.
structure WireLaws (α : Type) [Encode α] [Decode α] (valid : α → Prop) : Prop where
  roundtrip : ∀ value, valid value → decodeExact (encode value) = .ok value
  size : ∀ value, valid value →
    (encode value).length = encodedSize value ∧ encodedSize value ≤ maxEncodedSize α
  stream : ∀ value rest, valid value →
    decode (encode value ++ rest) = .ok (value, (encode value).length)
  canonical : ∀ (bytes : List UInt8) (value : α), decodeExact bytes = .ok value →
    encode value = bytes

theorem WireLaws.of_exact [Encode α] [Decode α] {valid : α → Prop} (size : ∀ value : α, (encode value).length = encodedSize value)
    (bound : ∀ value : α, encodedSize value ≤ maxEncodedSize α) (precise : Exact valid encode decode) :
    WireLaws α valid where
  roundtrip value good := by
    rw [decodeExact_ok]
    simpa using precise.roundtrip good []
  size value _ := ⟨size value,bound value⟩
  stream value rest good := precise.roundtrip good rest
  canonical bytes value decoded := (precise.whole (decodeExact_ok.mp decoded)).2

theorem WireLaws.of_lawful (α : Type) [Encode α] [Decode α] [Lawful α] : WireLaws α fun _ => True :=
  .of_exact Lawful.size Lawful.bound Lawful.exact

-- An edge is stored with one of the three close sets terms can give it; any other is not data.
theorem wire_format_bijective :
    WireLaws Tx (fun _ => True) ∧ WireLaws Coin (fun _ => True) ∧ WireLaws Edge (fun edge => edge.allowed.Permitted) ∧
      WireLaws RegistryChunk (fun _ => True) ∧ WireLaws PendingPaymentClose (fun _ => True) ∧
      WireLaws BondLease (fun _ => True) ∧ WireLaws Terms (fun _ => True) :=
  ⟨.of_lawful Tx,.of_lawful Coin,
    .of_exact Edge.encode_length Edge.encodedSize_le Edge.exact,.of_lawful RegistryChunk,
    .of_lawful PendingPaymentClose,.of_lawful BondLease,.of_lawful Terms⟩

end Hellas.Kernel
