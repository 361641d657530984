import Hellas.Lib.Codec
import Hellas.Lib.Words

-- The kernel's canonical bytes: fixed-width big-endian words, presence bytes, length-prefixed
-- bounded lists, and a two-byte envelope before every composite value.

namespace Hellas.Kernel

open Codec Guard Words

inductive DecodeError where
  | insufficientBytes (needed got : Nat)
  | invalidTag (tag : UInt8)
  | invalidLength (got max : Nat)
  | invalidConsumption (consumed available : Nat)
  | trailingBytes (remaining : Nat)
  | nonCanonical (field : String)
  deriving DecidableEq

class Encode (α : Type) where
  maxEncodedSize : Nat
  encodedSize : α → Nat
  encode : α → List UInt8

class Decode (α : Type) where
  decode : Decoder DecodeError α

export Encode (encodedSize encode)
export Decode (decode)

def maxEncodedSize (α : Type) [Encode α] : Nat := Encode.maxEncodedSize α

-- One complete value; bytes after it are refused.
def decodeExact [Decode α] (buf : List UInt8) : Except DecodeError α := do
  let (value, consumed) ← decode buf
  if buf.length < consumed then .error (.invalidConsumption consumed buf.length)
  else if buf.length = consumed then .ok value
  else .error (.trailingBytes (buf.length - consumed))

-- The encoder's declared sizes are the sizes it emits, and the decoder accepts exactly what the
-- encoder writes.
class Lawful (α : Type) [Encode α] [Decode α] : Prop where
  size : ∀ value : α, (encode value).length = encodedSize value
  bound : ∀ value : α, encodedSize value ≤ maxEncodedSize α
  exact : Exact (fun _ : α => True) encode decode

attribute [simp] Lawful.size

-- Types every value of which takes the same number of bytes.
class FixedSize (α : Type) [Encode α] (n : outParam Nat) : Prop where
  size : ∀ value : α, encodedSize value = n
  max : maxEncodedSize α = n

variable {first second : α} {buf : List UInt8}

theorem encode_cancel [Encode α] [Decode α] [Lawful α] :
    encode first ++ left = encode second ++ right ↔ first = second ∧ left = right := by
  constructor
  · intro same
    exact (Lawful.exact (α := α)).cancel trivial trivial same
  · intro same
    rw [same.1,same.2]

theorem encode_inj [Encode α] [Decode α] [Lawful α] : encode first = encode second ↔ first = second := by
  constructor
  · intro same
    have padded : encode first ++ [] = encode second ++ [] := by rw [same]
    exact (encode_cancel.mp padded).1
  · intro same
    rw [same]

theorem decodeExact_ok [Decode α] {value : α} : decodeExact buf = .ok value ↔ decode buf = .ok (value, buf.length) := by
  unfold decodeExact
  rw [bind_ok]
  constructor
  · rintro ⟨⟨found,used⟩,decoded,checked⟩
    simp only at checked
    split at checked
    · cases checked
    · split at checked
      · rename_i length
        cases checked
        rw [decoded,length]
      · cases checked
  · intro decoded
    exact ⟨(value, buf.length),decoded,by simp⟩

structure FixedBytes (n : Nat) where
  bytes : List UInt8
  length_eq : bytes.length = n
  deriving DecidableEq

theorem FixedBytes.ext {left right : FixedBytes n} (same : left.bytes = right.bytes) : left = right := by
  cases left
  cases right
  cases same
  rfl

-- A list of at most `n` entries; the backing array's dead tail is not part of the value.
structure BoundedList (α : Type) (n : Nat) where
  items : List α
  bound : items.length ≤ n
  deriving DecidableEq

namespace BoundedList

def len (list : BoundedList α n) : Nat := list.items.length

def isEmpty (list : BoundedList α n) : Bool := list.items.isEmpty

def checkedSum (list : BoundedList α n) (value : α → UInt64) : Option UInt64 := Words.checkedSum value list.items

def empty : BoundedList α n := ⟨[],by simp⟩

theorem ext {left right : BoundedList α n} (same : left.items = right.items) : left = right := by
  cases left
  cases right
  cases same
  rfl

end BoundedList

def decodeFixed (n : Nat) : Decoder DecodeError (FixedBytes n) := fun buf =>
  if enough : n ≤ buf.length then .ok (⟨buf.take n,by simp [enough]⟩, n)
  else .error (.insufficientBytes n buf.length)

theorem decodeFixed_exact : Exact (fun _ => True) FixedBytes.bytes (decodeFixed n) := by
  intro buf value used
  unfold decodeFixed
  split
  · rename_i enough
    constructor
    · rintro ⟨⟩
      exact ⟨trivial, List.take_prefix n buf,by simp [enough]⟩
    · rintro ⟨-,found,rfl⟩
      obtain ⟨bytes,rfl⟩ := value
      have taken := List.prefix_iff_eq_take.mp found
      simp [← taken]
  · rename_i short
    simp only [reduceCtorEq,true_and,false_iff,not_and]
    intro found
    have fits := found.length_le
    rw [value.length_eq] at fits
    exact absurd fits short

-- A field decoder handed the bytes from the cursor on; it may not claim more than it was given.
def decodeField [Decode α] : Cursor DecodeError α := fun buf consumed => do
  let rest ← if consumed ≤ buf.length then .ok (buf.drop consumed)
    else .error (.invalidConsumption consumed buf.length)
  let (value, used) ← decode rest
  rejectIf (used > rest.length) (.invalidConsumption used rest.length)
  pure (value, consumed + used)

theorem parses_field_of [Decode α] {valid : α → Prop} {encode : α → List UInt8} (precise : Exact valid encode decode) :
    Parses (fun v r => valid v ∧ r = encode v) (decodeField : Cursor DecodeError α) := by
  apply parses_nested precise
  intro buf before value used here
  simp only [decodeField,here.length_le,if_true,bind_ok,rejectIf_ok,pure_ok]
  constructor
  · rintro ⟨rest,same,⟨found,inner⟩,decoded,done,fits,result⟩
    cases same
    cases result
    exact ⟨inner,decoded,by omega,rfl⟩
  · rintro ⟨inner,decoded,fits,rfl⟩
    exact ⟨_,rfl,(value, inner),decoded,(),by omega,rfl⟩

theorem parses_field [Encode α] [Decode α] [Lawful α] :
    Parses (fun v r => r = encode v) (decodeField : Cursor DecodeError α) :=
  parses_congr (parses_field_of Lawful.exact) (by simp)

theorem parses_read [Encode α] [Decode α] [Lawful α] {later : α → β → List UInt8 → Prop}
    {next : α → Cursor DecodeError β} (tail : ∀ a, Parses (later a) (next a)) :
    Parses (fun v r => ∃ a s t, s = encode a ∧ later a v t ∧ r = s ++ t) (decodeField >>= next) :=
  parses_bind parses_field tail

-- A wrapper writes and reads the bytes of what it wraps.
@[reducible] def Encode.wrap [Encode α] (unwrap : β → α) : Encode β where
  maxEncodedSize := maxEncodedSize α
  encodedSize value := encodedSize (unwrap value)
  encode value := encode (unwrap value)

@[reducible] def Decode.wrap [Decode α] (wrap : α → β) : Decode β where
  decode buf := do
    let (value, consumed) ← decode buf
    pure (wrap value, consumed)

theorem Lawful.wrap [Encode α] [Decode α] [Lawful α] {wrap : α → β} {unwrap : β → α}
    (left : ∀ a, unwrap (wrap a) = a) (right : ∀ b, wrap (unwrap b) = b) :
    @Lawful β (Encode.wrap unwrap) (Decode.wrap wrap) :=
  @Lawful.mk β (Encode.wrap unwrap) (Decode.wrap wrap)
    (fun value => Lawful.size (unwrap value)) (fun value => Lawful.bound (unwrap value)) (by
      intro buf value used
      change (decode buf >>= fun done => pure (wrap done.1, done.2)) = _ ↔
        True ∧ encode (unwrap value) <+: buf ∧ used = (encode (unwrap value)).length
      simp only [bind_ok,pure_ok,Prod.mk.injEq]
      constructor
      · rintro ⟨⟨found,inner⟩,decoded,rfl,rfl⟩
        rw [left]
        exact (Lawful.exact _ _ _).mp decoded
      · intro accepted
        exact ⟨(unwrap value, used),(Lawful.exact _ _ _).mpr accepted,right value,rfl⟩)

instance : Encode UInt8 where
  maxEncodedSize := 1
  encodedSize _ := 1
  encode byte := [byte]

instance : Decode UInt8 where
  decode buf :=
    match buf with
    | byte :: _ => .ok (byte, 1)
    | [] => .error (.insufficientBytes 1 0)

instance : Lawful UInt8 where
  size _ := rfl
  bound _ := Nat.le_refl _
  exact := by
    rintro (_ | ⟨byte,rest⟩) value used
    · simp [decode,encode]
    · simp [decode,encode,eq_comm]

-- One-byte enums: a tag, and the partial way back.
@[reducible] def Encode.tagged (tag : α → UInt8) : Encode α where
  maxEncodedSize := 1
  encodedSize _ := 1
  encode value := [tag value]

@[reducible] def Decode.tagged (fromTag : UInt8 → Option α) : Decode α where
  decode buf := do
    let (byte, consumed) ← (decode buf : Except DecodeError (UInt8 × Nat))
    okOr ((fromTag byte).map fun value => (value, consumed)) (.invalidTag byte)

theorem Lawful.tagged {tag : α → UInt8} {fromTag : UInt8 → Option α}
    (inverse : ∀ byte value, fromTag byte = some value ↔ byte = tag value) :
    @Lawful α (Encode.tagged tag) (Decode.tagged fromTag) :=
  @Lawful.mk α (Encode.tagged tag) (Decode.tagged fromTag) (fun _ => rfl) (fun _ => Nat.le_refl _) (by
      rintro (_ | ⟨byte,rest⟩) value used
      · simp [decode,encode]
      · simp [decode,encode,inverse]
        rw [eq_comm,@eq_comm _ 1])

instance : FixedSize UInt8 1 := ⟨fun _ => rfl,rfl⟩

instance : Encode (FixedBytes n) where
  maxEncodedSize := n
  encodedSize _ := n
  encode := FixedBytes.bytes

instance : Decode (FixedBytes n) where
  decode := decodeFixed n

instance : Lawful (FixedBytes n) where
  size value := value.length_eq
  bound _ := Nat.le_refl _
  exact := decodeFixed_exact

instance : FixedSize (FixedBytes n) n := ⟨fun _ => rfl,rfl⟩

-- `u16`, `u32` and `u64` differ in width only.
def decodeWord (width : Nat) (ofNat : Nat → α) : Decoder DecodeError α := fun buf =>
  if width ≤ buf.length then .ok (ofNat (fromBigEndian (buf.take width)), width)
  else .error (.insufficientBytes width buf.length)

theorem decodeWord_exact {ofNat : Nat → α} {toNat : α → Nat}
    (back : ∀ value, value < 256^width → toNat (ofNat value) = value) (forth : ∀ value, ofNat (toNat value) = value)
    (small : ∀ value, toNat value < 256^width) :
    Exact (fun _ => True) (fun value => bigEndian width (toNat value)) (decodeWord width ofNat) := by
  intro buf value used
  unfold decodeWord
  split
  · rename_i enough
    have length : (buf.take width).length = width := by simp [enough]
    constructor
    · rintro ⟨⟩
      have bounded := fromBigEndian_lt (buf.take width)
      have restored := bigEndian_fromBigEndian (buf.take width)
      rw [length] at bounded restored
      simp only [back _ bounded,restored]
      exact ⟨trivial, List.take_prefix width buf,length.symm⟩
    · rintro ⟨-,found,rfl⟩
      have taken := List.prefix_iff_eq_take.mp found
      rw [bigEndian_length] at taken ⊢
      rw [← taken,fromBigEndian_bigEndian,Nat.mod_eq_of_lt (small value),forth]
  · rename_i short
    simp only [reduceCtorEq,true_and,false_iff,not_and]
    intro found
    have fits := found.length_le
    rw [bigEndian_length] at fits
    exact absurd fits short

instance : Encode UInt16 where
  maxEncodedSize := 2
  encodedSize _ := 2
  encode word := bigEndian 2 word.toNat

instance : Decode UInt16 where
  decode := decodeWord 2 UInt16.ofNat

instance : Encode UInt32 where
  maxEncodedSize := 4
  encodedSize _ := 4
  encode word := bigEndian 4 word.toNat

instance : Decode UInt32 where
  decode := decodeWord 4 UInt32.ofNat

instance : Encode UInt64 where
  maxEncodedSize := 8
  encodedSize _ := 8
  encode word := bigEndian 8 word.toNat

instance : Decode UInt64 where
  decode := decodeWord 8 UInt64.ofNat

instance : Lawful UInt16 where
  size _ := bigEndian_length _ _
  bound _ := Nat.le_refl _
  exact := decodeWord_exact (fun _ small => UInt16.toNat_ofNat_of_lt' small)
    (fun _ => UInt16.ofNat_toNat) (fun value => value.toNat_lt)

instance : Lawful UInt32 where
  size _ := bigEndian_length _ _
  bound _ := Nat.le_refl _
  exact := decodeWord_exact (fun _ small => UInt32.toNat_ofNat_of_lt' small)
    (fun _ => UInt32.ofNat_toNat) (fun value => value.toNat_lt)

instance : Lawful UInt64 where
  size _ := bigEndian_length _ _
  bound _ := Nat.le_refl _
  exact := decodeWord_exact (fun _ small => UInt64.toNat_ofNat_of_lt' small)
    (fun _ => UInt64.ofNat_toNat) (fun value => value.toNat_lt)

instance : FixedSize UInt16 2 := ⟨fun _ => rfl,rfl⟩
instance : FixedSize UInt64 8 := ⟨fun _ => rfl,rfl⟩

-- `usize` travels as a `u64`; on the 64-bit targets the saturation never happens.
def encodeUsize (value : Nat) : List UInt8 := encode (UInt64.ofNat (min value (2^64 - 1)))

def decodeUsize : Decoder DecodeError Nat := fun buf => do
  let (word, consumed) ← (decode buf : Except DecodeError (UInt64 × Nat))
  pure (word.toNat, consumed)

theorem encodeUsize_toNat (word : UInt64) : encodeUsize word.toNat = encode word := by
  have small := word.toNat_lt
  rw [encodeUsize,Nat.min_eq_left (by omega),UInt64.ofNat_toNat]

@[simp] theorem encodeUsize_length (value : Nat) : (encodeUsize value).length = 8 := bigEndian_length _ _

theorem decodeUsize_exact : Exact (fun value => value < 2^64) encodeUsize decodeUsize := by
  intro buf value used
  simp only [decodeUsize,bind_ok,pure_ok,Prod.mk.injEq]
  constructor
  · rintro ⟨⟨word,inner⟩,decoded,rfl,rfl⟩
    rw [encodeUsize_toNat]
    exact ⟨word.toNat_lt,((Lawful.exact _ _ _).mp decoded).2⟩
  · rintro ⟨small,found,rfl⟩
    have word := UInt64.toNat_ofNat_of_lt' small
    refine ⟨(UInt64.ofNat value, 8),(Lawful.exact _ _ _).mpr ⟨trivial,?_,?_⟩,word,?_⟩
    · rwa [← encodeUsize_toNat,word]
    · rw [← encodeUsize_toNat,encodeUsize_length]
    · rw [encodeUsize_length]

-- Option<T>: a presence byte, then the value only when present.
instance [Encode α] : Encode (Option α) where
  maxEncodedSize := 1 + maxEncodedSize α
  encodedSize value := 1 + (value.map encodedSize).getD 0
  encode
    | none => encode (0 : UInt8)
    | some value => encode (1 : UInt8) ++ encode value

instance [Decode α] : Decode (Option α) where
  decode buf := (do
    let present : UInt8 ← decodeField
    if present = 0 then pure none
    else if present = 1 then do
      let value ← decodeField
      pure (some value)
    else throw (.invalidTag present) : Cursor DecodeError (Option α)) buf 0

instance [Encode α] [Decode α] [Lawful α] : Lawful (Option α) where
  size value := by
    cases value with
    | none => rfl
    | some value => simp [encode,encodedSize,Nat.add_comm]
  bound value := by
    cases value with
    | none => exact Nat.le_add_right _ _
    | some value => exact Nat.add_le_add_left (Lawful.bound value) _
  exact := by
    refine parses_exact (parses_congr (parses_read fun present => parses_ite parses_pure (parses_ite
      (parses_read fun value => parses_pure) parses_throw)) ?_)
    intro value bytes
    cases value <;> simp [encode]

-- List<T, N>: the live length, then each entry.
def encodeItems [Encode α] (items : List α) : List UInt8 := items.flatMap encode

def decodeItems [Decode α] : (len : Nat) → Cursor DecodeError {items : List α // items.length = len}
  | 0 => pure ⟨[],rfl⟩
  | len + 1 => do
    let item ← decodeField
    let rest ← decodeItems len
    pure ⟨item :: rest.1,by simp [rest.2]⟩

theorem parses_items [Encode α] [Decode α] [Lawful α] (len : Nat) :
    Parses (fun v r => r = encodeItems v.1)
      (decodeItems len : Cursor DecodeError {items : List α // items.length = len}) := by
  induction len with
  | zero =>
    refine parses_congr parses_pure ?_
    rintro ⟨items,length⟩ bytes
    simp [List.length_eq_zero_iff.mp length,encodeItems]
  | succ len ih =>
    refine parses_congr (parses_read fun item => parses_bind ih fun rest => parses_pure) ?_
    rintro ⟨items,length⟩ bytes
    obtain ⟨head,tail,rfl⟩ := List.exists_cons_of_length_eq_add_one length
    have rest : tail.length = len := by simpa using length
    simp [encodeItems,rest]

instance [Encode α] : Encode (BoundedList α n) where
  maxEncodedSize := 8 + n * maxEncodedSize α
  encodedSize list := 8 + (list.items.map encodedSize).sum
  encode list := encodeUsize list.len ++ encodeItems list.items

def decodeListBody [Decode α] (len : Nat) : Cursor DecodeError (BoundedList α n) :=
  if fits : len ≤ n then do
    let items ← decodeItems len
    pure ⟨items.1,by rw [items.2]; exact fits⟩
  else throw (.invalidLength len n)

instance [Decode α] : Decode (BoundedList α n) where
  decode buf := do
    let (len, consumed) ← decodeUsize buf
    decodeListBody len buf consumed

theorem parses_listBody [Encode α] [Decode α] [Lawful α] (len : Nat) :
    Parses (fun v r => v.len = len ∧ r = encodeItems v.items)
      (decodeListBody len : Cursor DecodeError (BoundedList α n)) := by
  refine parses_congr (parses_dite (fun _ => parses_bind (parses_items len) fun _ => parses_pure)
    fun _ => parses_throw) ?_
  rintro ⟨items,bound⟩ bytes
  simp only [BoundedList.len]
  constructor
  · split
    · rintro ⟨⟨found,rfl⟩,s,t,rfl,⟨same,rfl⟩,rfl⟩
      cases same
      exact ⟨rfl,by simp⟩
    · simp
  · rintro ⟨rfl,rfl⟩
    rw [dif_pos bound]
    exact ⟨⟨items,rfl⟩,_,[],rfl,⟨rfl,rfl⟩,by simp⟩

theorem encodeItems_length [Encode α] [Decode α] [Lawful α] (items : List α) :
    (encodeItems items).length = (items.map encodedSize).sum := by
  induction items with
  | nil => rfl
  | cons head items ih =>
    simp only [encodeItems,List.flatMap_cons,List.length_append,Lawful.size head] at ih ⊢
    simp [ih]

theorem encodedSize_sum_le [Encode α] [Decode α] [Lawful α] (items : List α) :
    (items.map encodedSize).sum ≤ items.length * maxEncodedSize α := by
  induction items with
  | nil => simp
  | cons head items ih =>
    have bounded := Lawful.bound head
    simp only [List.map_cons,List.sum_cons,List.length_cons,Nat.succ_mul]
    omega

theorem lawful_list [Encode α] [Decode α] [Lawful α] (small : n < 2^64) :
    Lawful (BoundedList α n) where
  size list := by simp [encode,encodedSize,← encodeItems_length list.items]
  bound list := Nat.add_le_add_left ((encodedSize_sum_le list.items).trans (Nat.mul_le_mul_right _ list.bound)) _
  exact := by
    refine exact_then decodeUsize_exact parses_listBody ?_
    rintro ⟨items,bound⟩ bytes
    have fits : items.length < 2^64 := by omega
    simp [encode,BoundedList.len]
    exact fun _ => fits

def envelopeSize : Nat := 2
def formatVersion : UInt8 := 1

-- The gaps are reserved consensus assignments.
namespace Tag

def blockHeight : UInt8 := 1
def fees : UInt8 := 2
def parties : UInt8 := 3
def coin : UInt8 := 4
def edge : UInt8 := 5
def funding : UInt8 := 6
def payout : UInt8 := 7
def webauthnAssertion : UInt8 := 9
def auth : UInt8 := 10
def terms : UInt8 := 11
def proof : UInt8 := 12
def tx : UInt8 := 13
def earnedCertificate : UInt8 := 20
def paymentCloseStart : UInt8 := 21
def paymentCloseResponse : UInt8 := 22
def paymentClosePending : UInt8 := 23
def registryChunk : UInt8 := 24
def bondLease : UInt8 := 31
def partyAuth : UInt8 := 32

end Tag

def encodeEnvelope (typeTag : UInt8) : List UInt8 := [formatVersion,typeTag]

@[simp] theorem encodeEnvelope_length (typeTag : UInt8) : (encodeEnvelope typeTag).length = envelopeSize := rfl

def decodeEnvelope (buf : List UInt8) (expectedTag : UInt8) : Except DecodeError Nat := do
  let (header, consumed) ← decodeFixed envelopeSize buf
  let version ← okOr header.bytes[0]? (.insufficientBytes envelopeSize 0)
  rejectIf (version ≠ formatVersion) (.invalidTag version)
  let typeTag ← okOr header.bytes[1]? (.insufficientBytes envelopeSize 1)
  rejectIf (typeTag ≠ expectedTag) (.invalidTag typeTag)
  pure consumed

-- The tag at the head of a nested composite, left in place for its own decoder to check.
def peekEnvelopeTag (buf : List UInt8) : Except DecodeError UInt8 := do
  let (header, _) ← decodeFixed envelopeSize buf
  okOr header.bytes[1]? (.insufficientBytes envelopeSize 1)

def decodeComposite (typeTag : UInt8) (body : Cursor DecodeError α) : Decoder DecodeError α :=
  fun buf => do
    let consumed ← decodeEnvelope buf typeTag
    body buf consumed

theorem decodeEnvelope_ok :
    decodeEnvelope buf typeTag = .ok used ↔ encodeEnvelope typeTag <+: buf ∧ used = envelopeSize := by
  match buf with
  | [] => simp [decodeEnvelope,decodeFixed,envelopeSize,encodeEnvelope]
  | [only] => simp [decodeEnvelope,decodeFixed,envelopeSize,encodeEnvelope]
  | version :: tag :: rest =>
    simp [decodeEnvelope,decodeFixed,envelopeSize,encodeEnvelope,and_assoc]
    rw [eq_comm,@eq_comm _ tag,@eq_comm _ 2]

theorem composite_exact {good : α → Prop} {rest : α → List UInt8} (parsed : Parses (fun v r => good v ∧ r = rest v) body) :
    Exact good (fun v => encodeEnvelope typeTag ++ rest v) (decodeComposite typeTag body) := by
  intro buf value used
  rw [decodeComposite,bind_ok]
  constructor
  · rintro ⟨consumed,opened,read⟩
    obtain ⟨found,rfl⟩ := decodeEnvelope_ok.mp opened
    obtain ⟨bytes,⟨accepted,rfl⟩,inside,rfl⟩ := (parsed buf (encodeEnvelope typeTag) found value used).mp read
    exact ⟨accepted,inside,rfl⟩
  · rintro ⟨accepted,inside,rfl⟩
    have found : encodeEnvelope typeTag <+: buf := (List.prefix_append _ _).trans inside
    exact ⟨envelopeSize,decodeEnvelope_ok.mpr ⟨found,rfl⟩,
      (parsed buf (encodeEnvelope typeTag) found value _).mpr ⟨_,⟨accepted,rfl⟩,inside,rfl⟩⟩

end Hellas.Kernel
