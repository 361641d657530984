import Mathlib.Tactic.Ring
import Hellas.Lib.Cbor
import Hellas.Lib.Guard

-- The frames of one stream and the bytes they travel as.

namespace Hellas.Wire

open Cbor.Item (utf8 ofUtf8 ofUtf8_utf8)
open Guard Words

inductive WireCode where
  | ok | cancelled | unknown | invalidArgument | deadlineExceeded | notFound | alreadyExists
  | permissionDenied | resourceExhausted | failedPrecondition | aborted | outOfRange
  | unimplemented | internal | unavailable | dataLoss | unauthenticated
  deriving DecidableEq

namespace WireCode

def asU8 : WireCode → UInt8
  | .ok => 0
  | .cancelled => 1
  | .unknown => 2
  | .invalidArgument => 3
  | .deadlineExceeded => 4
  | .notFound => 5
  | .alreadyExists => 6
  | .permissionDenied => 7
  | .resourceExhausted => 8
  | .failedPrecondition => 9
  | .aborted => 10
  | .outOfRange => 11
  | .unimplemented => 12
  | .internal => 13
  | .unavailable => 14
  | .dataLoss => 15
  | .unauthenticated => 16

def fromU8 (value : UInt8) : Option WireCode :=
  match value.toNat with
  | 0 => some .ok
  | 1 => some .cancelled
  | 2 => some .unknown
  | 3 => some .invalidArgument
  | 4 => some .deadlineExceeded
  | 5 => some .notFound
  | 6 => some .alreadyExists
  | 7 => some .permissionDenied
  | 8 => some .resourceExhausted
  | 9 => some .failedPrecondition
  | 10 => some .aborted
  | 11 => some .outOfRange
  | 12 => some .unimplemented
  | 13 => some .internal
  | 14 => some .unavailable
  | 15 => some .dataLoss
  | 16 => some .unauthenticated
  | _ => none

theorem fromU8_asU8 {code : WireCode} : fromU8 code.asU8 = some code := by
  cases code <;> rfl

end WireCode

inductive MetadataValue where
  | text (value : String)
  | bytes (value : List UInt8)
  deriving DecidableEq

abbrev Entry := String × MetadataValue

abbrev Metadata := List Entry

structure Trailer where
  status : WireCode
  message : String
  metadata : Metadata
  deriving DecidableEq

def Trailer.default : Trailer := ⟨.ok,"",[]⟩

inductive Frame where
  | openFrame (methodId : UInt32) (headers : Metadata)
  | body (payload : List UInt8)
  | endFrame (status : WireCode) (trailer : Trailer)
  | reset (code : WireCode)
  | credit (additionalBytes : Nat)
  deriving DecidableEq

inductive FrameError where
  | short (needed got : Nat)
  | unknownKind (kind : UInt8)
  | unknownCode (code : UInt8)
  | bodyTooLarge (len limit : Nat)
  | badKeyUtf8
  | badValueUtf8
  | unknownMetadataTag (tag : UInt8)
  | badVarint
  | trailingBytes (remaining : Nat)
  | oversizedFrame (len cap : Nat)
  deriving DecidableEq

def maxFrameBytes : Nat := 4 * 1024 * 1024
def metadataMaxEntries : Nat := 256
def metadataMaxFieldLen : Nat := 64 * 1024

def littleEndian (width value : Nat) : List UInt8 := (bigEndian width value).reverse

def fromLittleEndian (bytes : List UInt8) : Nat := fromBigEndian bytes.reverse

section Varint

def writeVarint (value : Nat) : List UInt8 :=
  if value < 128 then [UInt8.ofNat value]
  else UInt8.ofNat (value % 128 + 128) :: writeVarint (value / 128)
termination_by value
decreasing_by omega

-- One group of seven bits at a time; the tenth may hold one bit, the last may not be empty.
def readGroups : List UInt8 → Nat → Nat → Except FrameError (Option (Nat × Nat))
  | [], index, _ => if index < 10 then .ok none else .error .badVarint
  | byte :: rest, index, result =>
    if 10 ≤ index ∨ (index = 9 ∧ 1 < byte.toNat % 128) then .error .badVarint
    else if byte.toNat < 128 then
      if 0 < index ∧ byte.toNat % 128 = 0 then .error .badVarint
      else .ok (some (result + byte.toNat % 128 * 2^(7 * index), index + 1))
    else readGroups rest (index + 1) (result + byte.toNat % 128 * 2^(7 * index))

def readVarintPartial (buf : List UInt8) : Except FrameError (Option (Nat × Nat)) := readGroups buf 0 0

def readVarint (buf : List UInt8) : Except FrameError (Nat × Nat) := do
  okOr (← readVarintPartial buf) .badVarint

def boundedLen (len limit : Nat) : Except FrameError Unit := rejectIf (limit < len) (.bodyTooLarge len limit)

-- A length and that many bytes, from a position in the buffer to the one behind them.
def readField (limit : Nat) (buf : List UInt8) (pos : Nat) : Except FrameError (List UInt8 × Nat) := do
  let length ← readVarint (buf.drop pos)
  boundedLen length.1 limit
  rejectIf (buf.length < pos + length.2 + length.1) (.short (pos + length.2 + length.1) buf.length)
  pure ((buf.drop (pos + length.2)).take length.1, pos + length.2 + length.1)

end Varint

section Encoding

def putField (bytes : List UInt8) : List UInt8 := writeVarint bytes.length ++ bytes

def encodeValue : MetadataValue → List UInt8
  | .text value => 0 :: putField (utf8 value)
  | .bytes value => 1 :: putField value

def encodeEntry (entry : Entry) : List UInt8 := putField (utf8 entry.1) ++ encodeValue entry.2

def encodeMetadata (metadata : Metadata) : List UInt8 := writeVarint metadata.length ++ metadata.flatMap encodeEntry

def Frame.kind : Frame → UInt8
  | .openFrame .. => 0
  | .body _ => 1
  | .endFrame .. => 2
  | .reset _ => 3
  | .credit _ => 4

-- The status of an end frame is written from its trailer alone.
def encodeBody : Frame → List UInt8
  | .openFrame methodId headers => littleEndian 4 methodId.toNat ++ encodeMetadata headers
  | .body payload => payload
  | .endFrame _ trailer => trailer.status.asU8 :: (putField (utf8 trailer.message) ++ encodeMetadata trailer.metadata)
  | .reset code => [code.asU8]
  | .credit additionalBytes => littleEndian 4 additionalBytes

def encodeFrame (frame : Frame) : List UInt8 := frame.kind :: encodeBody frame

end Encoding

section Decoding

def readValue (tag : UInt8) (bytes : List UInt8) : Except FrameError MetadataValue :=
  match tag.toNat with
  | 0 => do
    let text ← okOr (ofUtf8 bytes) .badValueUtf8
    pure (.text text)
  | 1 => .ok (.bytes bytes)
  | _ => .error (.unknownMetadataTag tag)

def decodeEntry (buf : List UInt8) (pos : Nat) : Except FrameError (Entry × Nat) := do
  let key ← readField metadataMaxFieldLen buf pos
  let name ← okOr (ofUtf8 key.1) .badKeyUtf8
  rejectIf (buf.length < key.2 + 1) (.short (key.2 + 1) buf.length)
  let held ← readField metadataMaxFieldLen buf (key.2 + 1)
  let value ← readValue (buf.getD key.2 0) held.1
  pure ((name, value), held.2)

def decodeEntries : Nat → List UInt8 → Nat → Except FrameError (Metadata × Nat)
  | 0, _, pos => .ok ([], pos)
  | count + 1, buf, pos => do
    let first ← decodeEntry buf pos
    let rest ← decodeEntries count buf first.2
    pure (first.1 :: rest.1, rest.2)

def decodeMetadata (buf : List UInt8) : Except FrameError (Metadata × Nat) := do
  let count ← readVarint buf
  rejectIf (metadataMaxEntries < count.1) (.bodyTooLarge count.1 metadataMaxEntries)
  decodeEntries count.1 buf count.2

-- Metadata that must be all there is.
def wholeMetadata (buf : List UInt8) : Except FrameError Metadata := do
  let held ← decodeMetadata buf
  rejectIf (held.2 ≠ buf.length) (.trailingBytes (buf.length - held.2))
  pure held.1

def decodeOpen (body : List UInt8) : Except FrameError Frame := do
  rejectIf (body.length < 4) (.short 4 body.length)
  let headers ← wholeMetadata (body.drop 4)
  pure (.openFrame (UInt32.ofNat (fromLittleEndian (body.take 4))) headers)

def decodeEnd (body : List UInt8) : Except FrameError Frame := do
  rejectIf (body = []) (.short 1 0)
  let status ← okOr (WireCode.fromU8 (body.getD 0 0)) (.unknownCode (body.getD 0 0))
  let message ← readField maxFrameBytes body 1
  let text ← okOr (ofUtf8 message.1) .badValueUtf8
  let metadata ← wholeMetadata (body.drop message.2)
  pure (.endFrame status ⟨status,text,metadata⟩)

def decodeReset (body : List UInt8) : Except FrameError Frame := do
  rejectIf (body = []) (.short 1 0)
  rejectIf (1 < body.length) (.trailingBytes (body.length - 1))
  let code ← okOr (WireCode.fromU8 (body.getD 0 0)) (.unknownCode (body.getD 0 0))
  pure (.reset code)

def decodeCredit (body : List UInt8) : Except FrameError Frame := do
  rejectIf (body.length < 4) (.short 4 body.length)
  rejectIf (4 < body.length) (.trailingBytes (body.length - 4))
  pure (.credit (fromLittleEndian body))

def decodeFrame (buf : List UInt8) : Except FrameError Frame := do
  rejectIf (maxFrameBytes < buf.length) (.oversizedFrame buf.length maxFrameBytes)
  match buf with
  | [] => .error (.short 1 0)
  | kind :: body =>
    match kind.toNat with
    | 0 => decodeOpen body
    | 1 => .ok (.body body)
    | 2 => decodeEnd body
    | 3 => decodeReset body
    | 4 => decodeCredit body
    | _ => .error (.unknownKind kind)

end Decoding

-- A frame travels under the slot and generation of its stream.
structure StreamKey where
  streamId : Nat
  generation : Nat
  deriving DecidableEq

structure KeyedFrame where
  key : StreamKey
  frame : Frame
  deriving DecidableEq

def encodeKeyedFrame (keyed : KeyedFrame) : List UInt8 :=
  bigEndian 2 keyed.key.streamId ++ (bigEndian 2 keyed.key.generation ++ encodeFrame keyed.frame)

def decodeKeyedFrame (buf : List UInt8) : Except FrameError KeyedFrame := do
  rejectIf (buf.length < 4) (.short 4 buf.length)
  let frame ← decodeFrame (buf.drop 4)
  pure ⟨⟨fromBigEndian (buf.take 2),fromBigEndian ((buf.drop 2).take 2)⟩,frame⟩

-- What the decoder takes: few enough entries of short enough fields, and a bounded whole.
def MetadataValue.size : MetadataValue → Nat
  | .text value => (utf8 value).length
  | .bytes value => value.length

structure Metadata.Fits (metadata : Metadata) : Prop where
  entries : metadata.length ≤ metadataMaxEntries
  fields : ∀ entry ∈ metadata, (utf8 entry.1).length ≤ metadataMaxFieldLen ∧
    entry.2.size ≤ metadataMaxFieldLen

structure Frame.Fits (frame : Frame) : Prop where
  whole : (encodeFrame frame).length ≤ maxFrameBytes
  headers : ∀ methodId headers, frame = .openFrame methodId headers → Metadata.Fits headers
  trailer : ∀ status trailer, frame = .endFrame status trailer →
    Metadata.Fits trailer.metadata ∧ status = trailer.status
  credit : ∀ additional, frame = .credit additional → additional < 2^32

section RoundTrip

theorem readGroups_continues {value index result : Nat} {rest : List UInt8} (small : value * 2^(7 * index) < 2^64) (high : ¬value < 128) :
    readGroups (UInt8.ofNat (value % 128 + 128) :: rest) index result = readGroups rest (index + 1) (result + value % 128 * 2^(7 * index)) ∧
      value / 128 * 2^(7 * (index + 1)) + value % 128 * 2^(7 * index) = value * 2^(7 * index) := by
  have byte : (UInt8.ofNat (value % 128 + 128)).toNat = value % 128 + 128 := by
    rw [UInt8.toNat_ofNat']
    omega
  have ninth : ¬9 ≤ index := by
    intro late
    have large : 2^63 ≤ 2^(7 * index) := Nat.pow_le_pow_right (by decide) (by omega)
    have least := Nat.mul_le_mul (Nat.not_lt.mp high) large
    omega
  have continued : ¬value % 128 + 128 < 128 := by omega
  constructor
  · simp only [readGroups,byte,if_neg continued,Nat.add_mod_right,Nat.mod_mod]
    rw [if_neg (by omega)]
  · rw [Nat.mul_add,Nat.pow_add]
    conv_rhs => rw [← Nat.div_add_mod value 128]
    ring

theorem readGroups_few (small : value * 2^(7 * index) < 2^64) (more : 0 < index → 0 < value) : index < 10 := by
  by_contra many
  have large : 2^70 ≤ 2^(7 * index) := Nat.pow_le_pow_right (by decide) (by omega)
  have least := le_trans large (Nat.le_mul_of_pos_left _ (more (by omega)))
  omega

theorem readGroups_writeVarint {value index result : Nat} {rest : List UInt8}
    (small : value * 2^(7 * index) < 2^64) (more : 0 < index → 0 < value) :
    readGroups (writeVarint value ++ rest) index result =
      .ok (some (result + value * 2^(7 * index), index + (writeVarint value).length)) := by
  induction value using Nat.strongRecOn generalizing index result with
  | ind value ih =>
    have few := readGroups_few small more
    unfold writeVarint
    split
    · rename_i low
      have byte : (UInt8.ofNat value).toNat = value := by
        rw [UInt8.toNat_ofNat']
        omega
      have ninth : ¬(10 ≤ index ∨ (index = 9 ∧ 1 < value)) := by
        rintro (late | ⟨last,big⟩)
        · omega
        · subst last
          have : value * 2^63 < 2^64 := small
          omega
      have filled : ¬(0 < index ∧ value = 0) := by
        intro both
        have := more both.1
        omega
      simp only [List.cons_append,List.nil_append,readGroups,byte,Nat.mod_eq_of_lt low,
        if_neg ninth,if_pos low,if_neg filled,List.length_singleton]
    · rename_i high
      obtain ⟨continues,parts⟩ := @readGroups_continues value index result (writeVarint (value / 128) ++ rest) small high
      rw [List.cons_append,continues,ih (value / 128) (by omega) (by omega) (by omega),
        List.length_cons]
      congr 3
      · omega
      · omega

theorem readVarint_writeVarint (small : value < 2^64) :
    readVarint (writeVarint value ++ rest) = .ok (value, (writeVarint value).length) := by
  have read : readVarintPartial (writeVarint value ++ rest) = .ok (some (value, (writeVarint value).length)) := by
    have groups := @readGroups_writeVarint value 0 0 rest (by simpa using small) (by omega)
    simpa [readVarintPartial] using groups
  unfold readVarint
  rw [read]
  rfl

variable {before after : List UInt8}

theorem readField_putField {limit : Nat} {bytes : List UInt8} (short : bytes.length ≤ limit) (small : limit < 2^64) :
    readField limit (before ++ (putField bytes ++ after)) before.length = .ok (bytes, before.length + (putField bytes).length) := by
  have start : (before ++ (putField bytes ++ after)).drop before.length = writeVarint bytes.length ++ (bytes ++ after) := by
    rw [List.drop_left,putField,List.append_assoc]
  have read : readVarint (writeVarint bytes.length ++ (bytes ++ after)) =
      .ok (bytes.length, (writeVarint bytes.length).length) := readVarint_writeVarint (by omega)
  have inside : ((before ++ (putField bytes ++ after)).drop
      (before.length + (writeVarint bytes.length).length)).take bytes.length = bytes := by
    rw [← List.drop_drop,start,List.drop_left,List.take_left]
  have ends : before.length + (writeVarint bytes.length).length + bytes.length = before.length + (putField bytes).length := by
    rw [putField,List.length_append,Nat.add_assoc]
  unfold readField
  rw [start,read]
  simp only [boundedLen,bind_ok,rejectIf_ok,pure_ok,Except.ok.injEq,exists_eq_left',inside,ends]
  refine ⟨(),by omega,(),?_,trivial⟩
  simp only [List.length_append]
  omega

theorem readValue_encodeValue {value : MetadataValue} (short : value.size ≤ metadataMaxFieldLen) :
    ∃ tag bytes, encodeValue value = tag :: putField bytes ∧ bytes.length ≤ metadataMaxFieldLen ∧ readValue tag bytes = .ok value := by
  cases value with
  | text value =>
    refine ⟨0,utf8 value,rfl,short,?_⟩
    change (do let text ← okOr (ofUtf8 (utf8 value)) _; pure (MetadataValue.text text)) = _
    rw [ofUtf8_utf8]
    rfl
  | bytes value => exact ⟨1,value,rfl,short,rfl⟩

theorem decodeEntry_encodeEntry {entry : Entry} (short : (utf8 entry.1).length ≤ metadataMaxFieldLen ∧ entry.2.size ≤ metadataMaxFieldLen) :
    decodeEntry (before ++ (encodeEntry entry ++ after)) before.length = .ok (entry, before.length + (encodeEntry entry).length) := by
  obtain ⟨name,value⟩ := entry
  obtain ⟨tag,bytes,spelled,fits,reads⟩ := readValue_encodeValue short.2
  have key : readField metadataMaxFieldLen (before ++ (encodeEntry (name, value) ++ after))
      before.length = .ok (utf8 name, before.length + (putField (utf8 name)).length) := by
    rw [encodeEntry,List.append_assoc]
    exact readField_putField short.1 (by decide)
  have whole : before ++ (encodeEntry (name, value) ++ after) = (before ++ putField (utf8 name)) ++ (tag :: (putField bytes ++ after)) := by
    simp only [encodeEntry,spelled,List.append_assoc,List.cons_append]
  have held : readField metadataMaxFieldLen (before ++ (encodeEntry (name, value) ++ after))
      (before.length + (putField (utf8 name)).length + 1) =
      .ok (bytes, before.length + (encodeEntry (name, value)).length) := by
    have position : before.length + (putField (utf8 name)).length + 1 = ((before ++ putField (utf8 name)) ++ [tag]).length := by
      rw [List.length_append,List.length_append,List.length_singleton]
    have size : before.length + (encodeEntry (name, value)).length =
        ((before ++ putField (utf8 name)) ++ [tag]).length + (putField bytes).length := by
      simp only [encodeEntry,spelled,List.length_append,List.length_cons,List.length_nil]
      omega
    rw [whole,position,size,List.append_cons]
    exact readField_putField fits (by decide)
  have marker : (before ++ (encodeEntry (name, value) ++ after)).getD (before.length + (putField (utf8 name)).length) 0 = tag := by
    rw [whole,← List.length_append,List.getD_eq_getElem?_getD,List.getElem?_append_right (Nat.le_refl _),Nat.sub_self]
    rfl
  unfold decodeEntry
  rw [key]
  simp only [bind_ok,Except.ok.injEq,exists_eq_left',ofUtf8_utf8,okOr_ok,Option.some.injEq,rejectIf_ok,held,marker,reads,pure_ok,and_true]
  refine ⟨(),?_⟩
  rw [whole]
  simp only [List.length_append,List.length_cons]
  omega

theorem decodeEntries_encode {metadata : Metadata}
    (short : ∀ entry ∈ metadata, (utf8 entry.1).length ≤ metadataMaxFieldLen ∧ entry.2.size ≤ metadataMaxFieldLen) :
    decodeEntries metadata.length (before ++ (metadata.flatMap encodeEntry ++ after)) before.length =
      .ok (metadata, before.length + (metadata.flatMap encodeEntry).length) := by
  induction metadata generalizing before with
  | nil => rfl
  | cons entry metadata ih =>
    rw [List.forall_mem_cons] at short
    have split : before ++ ((entry :: metadata).flatMap encodeEntry ++ after) =
        before ++ (encodeEntry entry ++ (metadata.flatMap encodeEntry ++ after)) := by
      rw [List.flatMap_cons,List.append_assoc]
    have first := @decodeEntry_encodeEntry before (metadata.flatMap encodeEntry ++ after) entry short.1
    have rest := @ih (before ++ encodeEntry entry) short.2
    rw [List.append_assoc,List.length_append] at rest
    rw [split,List.length_cons,decodeEntries]
    simp only [bind_ok,first,Except.ok.injEq,exists_eq_left',rest,pure_ok,Prod.mk.injEq,true_and,List.flatMap_cons,List.length_append]
    omega

theorem wholeMetadata_encode {metadata : Metadata} (fits : metadata.Fits) :
    wholeMetadata (encodeMetadata metadata) = .ok metadata := by
  have few : metadata.length ≤ 256 := fits.entries
  have count : readVarint (encodeMetadata metadata) = .ok (metadata.length, (writeVarint metadata.length).length) :=
    readVarint_writeVarint (by omega)
  have entries := @decodeEntries_encode (writeVarint metadata.length) [] metadata fits.fields
  rw [List.append_nil] at entries
  have held : decodeMetadata (encodeMetadata metadata) = .ok (metadata, (encodeMetadata metadata).length) := by
    unfold decodeMetadata
    rw [count]
    simp only [bind_ok,Except.ok.injEq,exists_eq_left',rejectIf_ok]
    refine ⟨(),not_lt.mpr fits.entries,?_⟩
    rw [encodeMetadata,entries,List.length_append]
  unfold wholeMetadata
  rw [held]
  simp only [bind_ok,Except.ok.injEq,exists_eq_left',rejectIf_ok,not_not,pure_ok,and_true]
  exact ⟨(),trivial⟩

theorem fromLittleEndian_littleEndian (small : value < 256^width) :
    fromLittleEndian (littleEndian width value) = value := by
  rw [fromLittleEndian,littleEndian,List.reverse_reverse,fromBigEndian_bigEndian,Nat.mod_eq_of_lt small]

theorem littleEndian_length {width value : Nat} : (littleEndian width value).length = width := by
  rw [littleEndian,List.length_reverse,bigEndian_length]

theorem decodeOpen_encode {methodId : UInt32} {headers : Metadata} (fits : headers.Fits) :
    decodeOpen (littleEndian 4 methodId.toNat ++ encodeMetadata headers) = .ok (.openFrame methodId headers) := by
  have size := @littleEndian_length 4 methodId.toNat
  have word : fromLittleEndian (littleEndian 4 methodId.toNat) = methodId.toNat := fromLittleEndian_littleEndian methodId.toNat_lt
  unfold decodeOpen
  simp only [bind_ok,rejectIf_ok,List.drop_left' size,List.take_left' size,wholeMetadata_encode fits,Except.ok.injEq,
    exists_eq_left',pure_ok,word,UInt32.ofNat_toNat,and_true]
  refine ⟨(),?_⟩
  rw [List.length_append,size]
  omega

theorem decodeEnd_encode {trailer : Trailer} (fits : trailer.metadata.Fits) (short : (utf8 trailer.message).length ≤ maxFrameBytes) :
    decodeEnd (trailer.status.asU8 :: (putField (utf8 trailer.message) ++ encodeMetadata trailer.metadata)) =
      .ok (.endFrame trailer.status trailer) := by
  have message := @readField_putField [trailer.status.asU8] (encodeMetadata trailer.metadata)
    maxFrameBytes (utf8 trailer.message) short (by decide)
  have rest : (trailer.status.asU8 :: (putField (utf8 trailer.message) ++
      encodeMetadata trailer.metadata)).drop (1 + (putField (utf8 trailer.message)).length) =
      encodeMetadata trailer.metadata := by
    rw [Nat.add_comm,List.drop_succ_cons,List.drop_left]
  unfold decodeEnd
  simp only [bind_ok,rejectIf_ok]
  refine ⟨(),List.cons_ne_nil _ _,trailer.status,?_,_,message,trailer.message,?_,trailer.metadata,?_,rfl⟩
  · rw [List.getD_cons_zero,WireCode.fromU8_asU8]
    rfl
  · rw [ofUtf8_utf8]
    rfl
  · change wholeMetadata (List.drop (1 + _) _) = _
    rw [rest,wholeMetadata_encode fits]

theorem decodeFrame_encodeFrame {frame : Frame} (fits : frame.Fits) : decodeFrame (encodeFrame frame) = .ok frame := by
  have whole : ¬maxFrameBytes < (encodeFrame frame).length := not_lt.mpr fits.whole
  unfold decodeFrame
  simp only [bind_ok,rejectIf_ok]
  refine ⟨(),whole,?_⟩
  cases frame with
  | openFrame methodId headers => exact decodeOpen_encode (fits.headers _ _ rfl)
  | body payload => rfl
  | endFrame status trailer =>
    obtain ⟨metadata,same⟩ := fits.trailer _ _ rfl
    subst same
    refine decodeEnd_encode metadata ?_
    have size := fits.whole
    simp only [encodeFrame,encodeBody,putField,List.length_cons,List.length_append] at size
    omega
  | reset code =>
    change decodeReset [code.asU8] = _
    unfold decodeReset
    simp only [bind_ok,rejectIf_ok]
    refine ⟨(),List.cons_ne_nil _ _,(),by simp,code,?_,rfl⟩
    rw [List.getD_cons_zero,WireCode.fromU8_asU8]
    rfl
  | credit additional =>
    have size := @littleEndian_length 4 additional
    have small : additional < 256^4 := fits.credit _ rfl
    change decodeCredit (littleEndian 4 additional) = _
    unfold decodeCredit
    simp only [bind_ok,rejectIf_ok,size,pure_ok,fromLittleEndian_littleEndian small]
    exact ⟨(),by omega,(),by omega,trivial⟩

theorem decodeKeyedFrame_encode {keyed : KeyedFrame} (fits : keyed.frame.Fits)
    (stream : keyed.key.streamId < 256^2) (generation : keyed.key.generation < 256^2) :
    decodeKeyedFrame (encodeKeyedFrame keyed) = .ok keyed := by
  have one := bigEndian_length 2 keyed.key.streamId
  have two := bigEndian_length 2 keyed.key.generation
  have first : (encodeKeyedFrame keyed).take 2 = bigEndian 2 keyed.key.streamId := List.take_left' one
  have second : (encodeKeyedFrame keyed).drop 2 = bigEndian 2 keyed.key.generation ++ encodeFrame keyed.frame := List.drop_left' one
  have third : (encodeKeyedFrame keyed).drop 4 = encodeFrame keyed.frame := by
    rw [show 4 = 2 + 2 from rfl,← List.drop_drop,second,List.drop_left' two]
  unfold decodeKeyedFrame
  simp only [bind_ok,rejectIf_ok]
  refine ⟨(),?_,keyed.frame,?_,?_⟩
  · simp only [encodeKeyedFrame,List.length_append,one,two]
    omega
  · rw [third,decodeFrame_encodeFrame fits]
  · rw [first,second,List.take_left' two,fromBigEndian_bigEndian,fromBigEndian_bigEndian,
      Nat.mod_eq_of_lt stream,Nat.mod_eq_of_lt generation]
    rfl

end RoundTrip

end Hellas.Wire
