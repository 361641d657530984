import Hellas.Wire.Frame

-- The codec read back to its bytes, the length computed ahead of a frame, and frames cut out of
-- the reads of a byte stream.

namespace Hellas.Wire

open Cbor.Item (utf8 ofUtf8)
open Guard Words

-- What the types of a frame's own fields say, and the one status an end frame has.
def Frame.Typed : Frame → Prop
  | .endFrame status trailer => status = trailer.status
  | .credit additional => additional < 2^32
  | _ => True

def Frame.Bounded : Frame → Prop
  | .openFrame _ headers => headers.Fits
  | .endFrame _ trailer => trailer.metadata.Fits
  | _ => True

theorem Frame.fits_iff {frame : Frame} :
    frame.Fits ↔ frame.Typed ∧ frame.Bounded ∧ (encodeFrame frame).length ≤ maxFrameBytes := by
  constructor
  · intro fits
    refine ⟨?_,?_,fits.whole⟩
    · cases frame with
      | endFrame status trailer => exact (fits.trailer _ _ rfl).2
      | credit additional => exact fits.credit _ rfl
      | _ => trivial
    · cases frame with
      | openFrame methodId headers => exact fits.headers _ _ rfl
      | endFrame status trailer => exact (fits.trailer _ _ rfl).1
      | _ => trivial
  · rintro ⟨typed,bounded,whole⟩
    refine ⟨whole,?_,?_,?_⟩
    · rintro _ _ rfl
      exact bounded
    · rintro _ _ rfl
      exact ⟨bounded,typed⟩
    · rintro _ rfl
      exact typed

section Canonical

structure Spans (buf : List UInt8) (start : Nat) (spelled : List UInt8) (stop : Nat) : Prop where
  ends : stop = start + spelled.length
  inside : buf.drop start = spelled ++ buf.drop stop

theorem Spans.append (first : Spans buf start left middle) (second : Spans buf middle right stop) :
    Spans buf start (left ++ right) stop := by
  refine ⟨?_,?_⟩
  · rw [second.ends,first.ends,List.length_append,Nat.add_assoc]
  · rw [first.inside,second.inside,List.append_assoc]

theorem Spans.whole (spans : Spans buf 0 spelled buf.length) : buf = spelled := by
  have inside := spans.inside
  rwa [List.drop_zero,List.drop_length,List.append_nil] at inside

theorem utf8_ofUtf8 {payload : List UInt8} {text : String} (read : ofUtf8 payload = some text) :
    utf8 text = payload := by
  unfold ofUtf8 String.fromUTF8? at read
  split at read
  · cases read
    exact List.toList_data_toByteArray
  · cases read

theorem readGroups_canonical (read : readGroups bytes index result = .ok (some (value, stop))) :
    ∃ high rest, bytes = writeVarint high ++ rest ∧ value = result + high * 2^(7 * index) ∧
      stop = index + (writeVarint high).length ∧ (0 < index → 0 < high) := by
  induction bytes generalizing index result with
  | nil =>
    unfold readGroups at read
    split at read <;> cases read
  | cons byte rest ih =>
    have bound := byte.toNat_lt
    unfold readGroups at read
    split at read
    · cases read
    split at read
    · rename_i low
      split at read
      · cases read
      · rename_i filled
        simp only [Except.ok.injEq,Option.some.injEq,Prod.mk.injEq] at read
        obtain ⟨rfl,rfl⟩ := read
        have spelled : writeVarint byte.toNat = [byte] := by
          rw [writeVarint,if_pos low,UInt8.ofNat_toNat]
        rw [Nat.mod_eq_of_lt low] at filled ⊢
        exact ⟨byte.toNat,rest,by rw [spelled]; rfl,rfl,by rw [spelled]; rfl,by omega⟩
    · rename_i continued
      obtain ⟨high,after,rfl,rfl,rfl,more⟩ := ih read
      have positive := more (by omega)
      have spelled : writeVarint (byte.toNat % 128 + 128 * high) = byte :: writeVarint high := by
        rw [writeVarint,if_neg (by omega),show (byte.toNat % 128 + 128 * high) / 128 = high by omega,
          show (byte.toNat % 128 + 128 * high) % 128 + 128 = byte.toNat by omega,UInt8.ofNat_toNat]
      refine ⟨byte.toNat % 128 + 128 * high,after,by rw [spelled]; rfl,?_,?_,by omega⟩
      · rw [Nat.mul_add,Nat.pow_add]
        ring
      · rw [spelled,List.length_cons]
        omega

theorem readVarint_canonical (read : readVarint buf = .ok (value, consumed)) :
    ∃ rest, buf = writeVarint value ++ rest ∧ consumed = (writeVarint value).length := by
  simp only [readVarint,bind_ok,okOr_ok] at read
  obtain ⟨_,read,rfl⟩ := read
  obtain ⟨high,rest,spelled,rfl,rfl,-⟩ := readGroups_canonical read
  simp only [Nat.mul_zero,Nat.pow_zero,Nat.mul_one,Nat.zero_add]
  exact ⟨rest,spelled,trivial⟩

theorem readField_canonical {limit : Nat} {bytes : List UInt8} (read : readField limit buf start = .ok (bytes, stop)) :
    Spans buf start (putField bytes) stop ∧ bytes.length ≤ limit := by
  simp only [readField,boundedLen,bind_ok,rejectIf_ok,pure_ok,Prod.mk.injEq] at read
  obtain ⟨⟨length,consumed⟩,announced,_,small,_,enough,rfl,rfl⟩ := read
  obtain ⟨rest,spelled,rfl⟩ := readVarint_canonical announced
  have after : buf.drop (start + (writeVarint length).length) = rest := by
    rw [← List.drop_drop,spelled,List.drop_left]
  have size : (rest.take length).length = length := by
    have whole := congrArg List.length spelled
    simp only [List.length_drop,List.length_append] at whole
    rw [List.length_take]
    omega
  rw [after]
  refine ⟨⟨?_,?_⟩,size.le.trans (not_lt.mp small)⟩
  · rw [putField,List.length_append,size,Nat.add_assoc]
  · rw [spelled,putField,size,List.append_assoc,← List.drop_drop,after,List.take_append_drop]

theorem readValue_canonical (read : readValue tag bytes = .ok value) :
    encodeValue value = tag :: putField bytes ∧ value.size = bytes.length := by
  have tagged : UInt8.ofNat tag.toNat = tag := UInt8.ofNat_toNat
  unfold readValue at read
  split at read
  · rename_i zero
    rw [zero] at tagged
    simp only [bind_ok,okOr_ok,pure_ok] at read
    obtain ⟨text,decoded,rfl⟩ := read
    rw [← tagged,← utf8_ofUtf8 decoded]
    exact ⟨rfl,rfl⟩
  · rename_i one
    rw [one] at tagged
    cases read
    rw [← tagged]
    exact ⟨rfl,rfl⟩
  · cases read

theorem decodeEntry_canonical (read : decodeEntry buf start = .ok (entry, stop)) :
    Spans buf start (encodeEntry entry) stop ∧ (utf8 entry.1).length ≤ metadataMaxFieldLen ∧ entry.2.size ≤ metadataMaxFieldLen := by
  simp only [decodeEntry,bind_ok,okOr_ok,rejectIf_ok,pure_ok,Prod.mk.injEq] at read
  obtain ⟨key,named,name,text,_,room,held,valued,value,tagged,rfl,rfl⟩ := read
  obtain ⟨first,short⟩ := readField_canonical named
  obtain ⟨third,small⟩ := readField_canonical valued
  obtain ⟨spelled,size⟩ := readValue_canonical tagged
  have second : Spans buf key.2 [buf.getD key.2 0] (key.2 + 1) := by
    refine ⟨rfl,?_⟩
    have within : key.2 < buf.length := by omega
    rw [List.drop_eq_getElem_cons within,List.getD_eq_getElem?_getD,List.getElem?_eq_getElem within]
    rfl
  rw [encodeEntry,spelled,size,utf8_ofUtf8 text]
  exact ⟨first.append (second.append third),short,small⟩

theorem decodeEntries_canonical (read : decodeEntries count buf start = .ok (metadata, stop)) :
    Spans buf start (metadata.flatMap encodeEntry) stop ∧ metadata.length = count ∧
      ∀ entry ∈ metadata, (utf8 entry.1).length ≤ metadataMaxFieldLen ∧ entry.2.size ≤ metadataMaxFieldLen := by
  induction count generalizing start metadata with
  | zero =>
    cases read
    exact ⟨⟨rfl,rfl⟩,rfl,by simp⟩
  | succ count ih =>
    simp only [decodeEntries,bind_ok,pure_ok,Prod.mk.injEq] at read
    obtain ⟨first,one,rest,others,rfl,rfl⟩ := read
    obtain ⟨here,fits⟩ := decodeEntry_canonical one
    obtain ⟨there,counted,fields⟩ := ih others
    exact ⟨List.flatMap_cons ▸ here.append there,by simp [counted],
      List.forall_mem_cons.mpr ⟨fits,fields⟩⟩

theorem wholeMetadata_canonical {metadata : Metadata} (read : wholeMetadata buf = .ok metadata) :
    encodeMetadata metadata = buf ∧ metadata.Fits := by
  simp only [wholeMetadata,decodeMetadata,bind_ok,rejectIf_ok,pure_ok,not_not] at read
  obtain ⟨held,⟨⟨count,consumed⟩,counted,_,few,entries⟩,_,all,rfl⟩ := read
  obtain ⟨rest,spelled,rfl⟩ := readVarint_canonical counted
  obtain ⟨spans,rfl,fields⟩ := decodeEntries_canonical entries
  rw [all] at spans
  have header : Spans buf 0 (writeVarint held.1.length) (writeVarint held.1.length).length := by
    refine ⟨(Nat.zero_add _).symm,?_⟩
    conv_lhs => rw [spelled]
    rw [spelled,List.drop_left,List.drop_zero]
  exact ⟨(header.append spans).whole.symm,⟨not_lt.mp few,fields⟩⟩

theorem littleEndian_fromLittleEndian {bytes : List UInt8} {width : Nat} (size : bytes.length = width) :
    littleEndian width (fromLittleEndian bytes) = bytes ∧ fromLittleEndian bytes < 256^width := by
  subst size
  have whole := bigEndian_fromBigEndian bytes.reverse
  have bound := fromBigEndian_lt bytes.reverse
  rw [List.length_reverse] at whole bound
  exact ⟨by rw [littleEndian,fromLittleEndian,whole,List.reverse_reverse],bound⟩

theorem WireCode.asU8_fromU8 {byte : UInt8} {code : WireCode} (read : fromU8 byte = some code) : code.asU8 = byte := by
  have same : UInt8.ofNat byte.toNat = byte := UInt8.ofNat_toNat
  unfold fromU8 at read
  split at read
  all_goals
    first
    | cases read; rename_i value; rw [← same,value]; rfl
    | cases read

theorem first_byte {body : List UInt8} (nonempty : body ≠ []) : body = body.getD 0 0 :: body.drop 1 := by
  cases body with
  | nil => exact absurd rfl nonempty
  | cons head tail => rfl

theorem decodeEnd_canonical {frame : Frame} (read : decodeEnd buf = .ok frame) :
    ∃ trailer, frame = .endFrame trailer.status trailer ∧ trailer.metadata.Fits ∧ encodeBody frame = buf := by
  simp only [decodeEnd,bind_ok,okOr_ok,rejectIf_ok,pure_ok] at read
  obtain ⟨_,nonempty,status,known,message,said,text,decoded,metadata,rest,rfl⟩ := read
  obtain ⟨spans,-⟩ := readField_canonical said
  obtain ⟨spelled,fits⟩ := wholeMetadata_canonical rest
  refine ⟨⟨status,text,metadata⟩,rfl,fits,?_⟩
  simp only [encodeBody]
  rw [WireCode.asU8_fromU8 known,utf8_ofUtf8 decoded,spelled,← spans.inside]
  exact (first_byte nonempty).symm

theorem decodeReset_canonical {frame : Frame} (read : decodeReset buf = .ok frame) :
    ∃ code, frame = .reset code ∧ encodeBody frame = buf := by
  simp only [decodeReset,bind_ok,okOr_ok,rejectIf_ok,pure_ok] at read
  obtain ⟨_,nonempty,_,single,code,known,rfl⟩ := read
  refine ⟨code,rfl,?_⟩
  rw [first_byte nonempty,List.drop_eq_nil_of_le (by omega),encodeBody,
    WireCode.asU8_fromU8 known]

theorem decodeOpen_canonical (read : decodeOpen buf = .ok frame) :
    ∃ methodId headers, frame = .openFrame methodId headers ∧ headers.Fits ∧ encodeBody frame = buf := by
  simp only [decodeOpen,bind_ok,rejectIf_ok,pure_ok] at read
  obtain ⟨_,long,headers,rest,rfl⟩ := read
  obtain ⟨spelled,fits⟩ := wholeMetadata_canonical rest
  obtain ⟨word,small⟩ := @littleEndian_fromLittleEndian (buf.take 4) 4 (by rw [List.length_take]; omega)
  refine ⟨_,headers,rfl,fits,?_⟩
  rw [encodeBody,UInt32.toNat_ofNat',Nat.mod_eq_of_lt (show _ < 2^32 from small),word,spelled,List.take_append_drop]

theorem decodeFrame_canonical (read : decodeFrame buf = .ok frame) : encodeFrame frame = buf ∧ frame.Fits := by
  simp only [decodeFrame,bind_ok,rejectIf_ok] at read
  obtain ⟨_,whole,read⟩ := read
  have spelled : encodeFrame frame = buf ∧ frame.Typed ∧ frame.Bounded := by
    split at read
    · cases read
    rename_i kind body
    have same : UInt8.ofNat kind.toNat = kind := UInt8.ofNat_toNat
    split at read
    · rename_i zero
      obtain ⟨methodId,headers,rfl,fits,bytes⟩ := decodeOpen_canonical read
      exact ⟨by rw [encodeFrame,bytes,← same,zero]; rfl,trivial,fits⟩
    · rename_i one
      cases read
      exact ⟨by rw [← same,one]; rfl,trivial,trivial⟩
    · rename_i two
      obtain ⟨trailer,rfl,fits,bytes⟩ := decodeEnd_canonical read
      exact ⟨by rw [encodeFrame,bytes,← same,two]; rfl,rfl,fits⟩
    · rename_i three
      obtain ⟨code,rfl,bytes⟩ := decodeReset_canonical read
      exact ⟨by rw [encodeFrame,bytes,← same,three]; rfl,trivial,trivial⟩
    · rename_i four
      simp only [decodeCredit,bind_ok,rejectIf_ok,pure_ok] at read
      obtain ⟨_,long,_,short,rfl⟩ := read
      obtain ⟨word,small⟩ := @littleEndian_fromLittleEndian body 4 (by omega)
      exact ⟨by rw [encodeFrame,encodeBody,word,← same,four]; rfl,small,trivial⟩
    · cases read
  obtain ⟨bytes,typed,bounded⟩ := spelled
  exact ⟨bytes,Frame.fits_iff.mpr ⟨typed,bounded,by rw [bytes]; omega⟩⟩

theorem decodeKeyedFrame_canonical (read : decodeKeyedFrame buf = .ok keyed) :
    encodeKeyedFrame keyed = buf ∧ keyed.frame.Fits := by
  simp only [decodeKeyedFrame,bind_ok,rejectIf_ok,pure_ok] at read
  obtain ⟨_,long,frame,inner,rfl⟩ := read
  obtain ⟨spelled,fits⟩ := decodeFrame_canonical inner
  have one := bigEndian_fromBigEndian (buf.take 2)
  have two := bigEndian_fromBigEndian ((buf.drop 2).take 2)
  rw [List.length_take,Nat.min_eq_left (by omega)] at one
  rw [List.length_take,List.length_drop,Nat.min_eq_left (by omega)] at two
  refine ⟨?_,fits⟩
  rw [encodeKeyedFrame,one,two,spelled,show 4 = 2 + 2 from rfl,← List.drop_drop,List.take_append_drop,List.take_append_drop]

end Canonical

section Length

def encodedVarintLen (value : Nat) : Nat :=
  if value < 128 then 1 else encodedVarintLen (value / 128) + 1
termination_by value
decreasing_by omega

def checkedEncodedAdd (left right : Nat) : Except FrameError Nat :=
  if left + right < 2^64 then .ok (left + right)
  else .error (.oversizedFrame (2^64 - 1) maxFrameBytes)

def encodedEntryLen (len : Nat) (entry : Entry) : Except FrameError Nat := do
  boundedLen (utf8 entry.1).length metadataMaxFieldLen
  boundedLen entry.2.size metadataMaxFieldLen
  let len ← checkedEncodedAdd len (encodedVarintLen (utf8 entry.1).length)
  let len ← checkedEncodedAdd len (utf8 entry.1).length
  let len ← checkedEncodedAdd len 1
  let len ← checkedEncodedAdd len (encodedVarintLen entry.2.size)
  checkedEncodedAdd len entry.2.size

def encodedMetadataLen (metadata : Metadata) : Except FrameError Nat := do
  boundedLen metadata.length metadataMaxEntries
  metadata.foldlM encodedEntryLen (encodedVarintLen metadata.length)

def encodedBodyLen : Frame → Except FrameError Nat
  | .openFrame _ headers => do checkedEncodedAdd 4 (← encodedMetadataLen headers)
  | .body payload => .ok payload.length
  | .endFrame _ trailer => do
    let len ← checkedEncodedAdd 1 (encodedVarintLen (utf8 trailer.message).length)
    let len ← checkedEncodedAdd len (utf8 trailer.message).length
    checkedEncodedAdd len (← encodedMetadataLen trailer.metadata)
  | .reset _ => .ok 1
  | .credit _ => .ok 4

def encodedFrameLen (frame : Frame) : Except FrameError Nat := do
  let len ← checkedEncodedAdd 1 (← encodedBodyLen frame)
  rejectIf (maxFrameBytes < len) (.oversizedFrame len maxFrameBytes)
  pure len

theorem encodedVarintLen_eq : encodedVarintLen value = (writeVarint value).length := by
  induction value using Nat.strongRecOn with
  | ind value ih =>
    unfold encodedVarintLen writeVarint
    split
    · rfl
    · rw [ih (value / 128) (by omega),List.length_cons]

@[simp] theorem checkedEncodedAdd_ok : checkedEncodedAdd left right = .ok sum ↔ left + right = sum ∧ sum < 2^64 := by
  unfold checkedEncodedAdd
  split <;> simp <;> omega

theorem encodeEntry_length : (encodeEntry entry).length =
    encodedVarintLen (utf8 entry.1).length + (utf8 entry.1).length + 1 + encodedVarintLen entry.2.size + entry.2.size := by
  obtain ⟨name,value⟩ := entry
  cases value <;>
    simp only [encodeEntry,encodeValue,putField,List.length_append,List.length_cons,encodedVarintLen_eq,MetadataValue.size] <;> omega

theorem encodedEntryLen_exact :
    encodedEntryLen len entry = .ok sum ↔ ((utf8 entry.1).length ≤ metadataMaxFieldLen ∧ entry.2.size ≤ metadataMaxFieldLen) ∧
        len + (encodeEntry entry).length = sum ∧ sum < 2^64 := by
  simp only [encodedEntryLen,boundedLen,bind_ok,rejectIf_ok,checkedEncodedAdd_ok,encodeEntry_length,not_lt]
  constructor
  · rintro ⟨_,key,_,value,a,⟨rfl,-⟩,b,⟨rfl,-⟩,c,⟨rfl,-⟩,d,⟨rfl,-⟩,summed,small⟩
    exact ⟨⟨key,value⟩,by omega,small⟩
  · rintro ⟨⟨key,value⟩,summed,small⟩
    exact ⟨(),key,(),value,_,⟨rfl,by omega⟩,_,⟨rfl,by omega⟩,_,⟨rfl,by omega⟩,_,⟨rfl,by omega⟩,
      by omega,small⟩

theorem encodedEntriesLen_exact {metadata : Metadata} (start : len < 2^64) :
    metadata.foldlM encodedEntryLen len = .ok sum ↔ (∀ entry ∈ metadata, (utf8 entry.1).length ≤ metadataMaxFieldLen ∧
        entry.2.size ≤ metadataMaxFieldLen) ∧
        len + (metadata.flatMap encodeEntry).length = sum ∧ sum < 2^64 := by
  induction metadata generalizing len with
  | nil =>
    simp only [List.foldlM_nil,pure_ok,List.not_mem_nil,false_implies,implies_true,true_and,List.flatMap_nil,List.length_nil,Nat.add_zero]
    exact ⟨fun same => ⟨same,same ▸ start⟩,And.left⟩
  | cons entry rest ih =>
    rw [List.foldlM_cons,bind_ok,List.forall_mem_cons,List.flatMap_cons,List.length_append]
    constructor
    · rintro ⟨first,one,others⟩
      obtain ⟨fits,rfl,small⟩ := encodedEntryLen_exact.mp one
      obtain ⟨fields,summed,bound⟩ := (ih small).mp others
      exact ⟨⟨fits,fields⟩,by omega,bound⟩
    · rintro ⟨⟨fits,fields⟩,summed,bound⟩
      have small : len + (encodeEntry entry).length < 2^64 := by omega
      exact ⟨_,encodedEntryLen_exact.mpr ⟨fits,rfl,small⟩,(ih small).mpr ⟨fields,by omega,bound⟩⟩

theorem encodedMetadataLen_exact :
    encodedMetadataLen metadata = .ok sum ↔ metadata.Fits ∧ (encodeMetadata metadata).length = sum ∧ sum < 2^64 := by
  simp only [encodedMetadataLen,boundedLen,bind_ok,rejectIf_ok,not_lt]
  have start : metadata.length ≤ metadataMaxEntries → encodedVarintLen metadata.length < 2^64 := by
    intro few
    have few : metadata.length ≤ 256 := few
    rw [encodedVarintLen]
    split
    · omega
    · rw [encodedVarintLen,if_pos (by omega)]
      omega
  rw [encodeMetadata,List.length_append,← encodedVarintLen_eq]
  constructor
  · rintro ⟨_,few,summed⟩
    obtain ⟨fields,sum⟩ := (encodedEntriesLen_exact (start few)).mp summed
    exact ⟨⟨few,fields⟩,sum⟩
  · rintro ⟨fits,sum⟩
    exact ⟨(),fits.entries,(encodedEntriesLen_exact (start fits.entries)).mpr ⟨fits.fields,sum⟩⟩

theorem encodedBodyLen_exact (small : len < 2^64) :
    encodedBodyLen frame = .ok len ↔ frame.Bounded ∧ (encodeBody frame).length = len := by
  cases frame with
  | openFrame methodId headers =>
    simp only [encodedBodyLen,bind_ok,checkedEncodedAdd_ok,encodedMetadataLen_exact,encodeBody,List.length_append,littleEndian_length]
    constructor
    · rintro ⟨_,⟨fits,rfl,-⟩,summed,-⟩
      exact ⟨fits,summed⟩
    · rintro ⟨fits,summed⟩
      exact ⟨_,⟨fits,rfl,by omega⟩,summed,small⟩
  | endFrame status trailer =>
    simp only [encodedBodyLen,bind_ok,checkedEncodedAdd_ok,encodedMetadataLen_exact,encodeBody,
      putField,List.length_append,List.length_cons,encodedVarintLen_eq]
    constructor
    · rintro ⟨_,⟨rfl,-⟩,_,⟨rfl,-⟩,_,⟨fits,rfl,-⟩,summed,-⟩
      exact ⟨fits,by omega⟩
    · rintro ⟨fits,summed⟩
      exact ⟨_,⟨rfl,by omega⟩,_,⟨rfl,by omega⟩,_,⟨fits,rfl,by omega⟩,by omega,small⟩
  | body | reset | credit => simp [encodedBodyLen,encodeBody,Frame.Bounded,littleEndian_length]

theorem encodedFrameLen_exact {frame : Frame} (typed : frame.Typed) :
    encodedFrameLen frame = .ok sum ↔ frame.Fits ∧ (encodeFrame frame).length = sum := by
  have room : maxFrameBytes < 2^64 := by decide
  rw [Frame.fits_iff,encodeFrame,List.length_cons]
  simp only [encodedFrameLen,bind_ok,checkedEncodedAdd_ok,rejectIf_ok,pure_ok,not_lt]
  constructor
  · rintro ⟨len,summed,_,⟨rfl,bound⟩,_,within,rfl⟩
    obtain ⟨bounded,rfl⟩ := (encodedBodyLen_exact (by omega)).mp summed
    exact ⟨⟨typed,bounded,by omega⟩,by omega⟩
  · rintro ⟨⟨-,bounded,within⟩,rfl⟩
    exact ⟨_,(encodedBodyLen_exact (by omega)).mpr ⟨bounded,rfl⟩,_,⟨rfl,by omega⟩,(),by omega,
      by omega⟩

end Length

section Stream

-- The bytes of an announced frame, once all of them are there; the rest stays buffered.
def popAnnounced (buf : List UInt8) : Option (Nat × Nat) → Except FrameError (Option (Frame × List UInt8))
  | none => .ok none
  | some (len, consumed) => do
    rejectIf (maxFrameBytes < len) (.oversizedFrame len maxFrameBytes)
    if buf.length < consumed + len then pure none
    else do
      let frame ← decodeFrame ((buf.take (consumed + len)).drop consumed)
      pure (some (frame, buf.drop (consumed + len)))

def tryPopFrame (buf : List UInt8) : Except FrameError (Option (Frame × List UInt8)) := do
  popAnnounced buf (← readVarintPartial buf)

def announced (frame : Frame) : List UInt8 := putField (encodeFrame frame)

-- Frames are popped until more bytes are needed; each takes at least one byte.
def popFrames : Nat → List UInt8 → Except FrameError (List Frame × List UInt8)
  | 0, buf => .ok ([], buf)
  | fuel + 1, buf => do
    match ← tryPopFrame buf with
    | none => pure ([], buf)
    | some (frame, rest) => do
      let more ← popFrames fuel rest
      pure (frame :: more.1, more.2)

-- One read extends the buffer, and what it completes is handed on.
def receiveRead (held : List Frame × List UInt8) (read : List UInt8) :
    Except FrameError (List Frame × List UInt8) := do
  let popped ← popFrames (held.2 ++ read).length (held.2 ++ read)
  pure (held.1 ++ popped.1, popped.2)

def receive (reads : List (List UInt8)) : Except FrameError (List Frame × List UInt8) := reads.foldlM receiveRead ([], [])

theorem readGroups_short (small : value * 2^(7 * index) < 2^64) (more : 0 < index → 0 < value)
    (short : count < (writeVarint value).length) :
    readGroups ((writeVarint value).take count) index result = .ok none := by
  induction value using Nat.strongRecOn generalizing index result count with
  | ind value ih =>
    have few := readGroups_few small more
    cases count with
    | zero => rw [List.take_zero,readGroups,if_pos few]
    | succ count =>
      unfold writeVarint at short ⊢
      split at short
      · simp at short
      · rename_i high
        rw [List.length_cons] at short
        obtain ⟨continues,parts⟩ := @readGroups_continues value index result ((writeVarint (value / 128)).take count) small high
        rw [if_neg high,List.take_succ_cons,continues]
        exact ih (value / 128) (by omega) (by omega) (by omega) (by omega)

theorem tryPopFrame_exact (fits : frame.Fits) (within : buf <+: announced frame ++ more) :
    tryPopFrame buf = .ok (if buf.length < (announced frame).length then none
      else some (frame, buf.drop (announced frame).length)) := by
  have bound : (encodeFrame frame).length ≤ maxFrameBytes := fits.whole
  have room : maxFrameBytes < 2^64 := by decide
  have size : (announced frame).length = (writeVarint (encodeFrame frame).length).length + (encodeFrame frame).length := by
    rw [announced,putField,List.length_append]
  have cut : ∀ count ≤ buf.length, count ≤ (announced frame).length → buf.take count = (announced frame).take count := by
    intro count held inside
    rw [List.prefix_iff_eq_take.mp within,List.take_take,Nat.min_eq_left held,List.take_append_of_le_length inside]
  -- The buffer ends inside the length, inside the frame, or behind it.
  by_cases header : buf.length < (writeVarint (encodeFrame frame).length).length
  · have partly : readVarintPartial buf = .ok none := by
      have same := cut buf.length le_rfl (by omega)
      rw [List.take_length,announced,putField,List.take_append_of_le_length (by omega)] at same
      rw [same]
      exact readGroups_short (by omega) (by omega) header
    rw [if_pos (by omega),tryPopFrame,partly]
    rfl
  have here : buf = writeVarint (encodeFrame frame).length ++ buf.drop (writeVarint (encodeFrame frame).length).length := by
    have same := cut (writeVarint (encodeFrame frame).length).length (by omega) (by omega)
    rw [announced,putField,List.take_left] at same
    conv_lhs => rw [← List.take_append_drop (writeVarint (encodeFrame frame).length).length buf,same]
  have read : readVarintPartial buf = .ok (some ((encodeFrame frame).length, (writeVarint (encodeFrame frame).length).length)) := by
    have groups := @readGroups_writeVarint (encodeFrame frame).length 0 0
      (buf.drop (writeVarint (encodeFrame frame).length).length) (by omega) (by omega)
    rw [← here] at groups
    simpa [readVarintPartial] using groups
  rw [tryPopFrame,bind_ok,size]
  refine ⟨_,read,?_⟩
  rw [popAnnounced,bind_ok]
  refine ⟨(),rejectIf_ok.mpr (by omega),?_⟩
  split
  · rfl
  · have frameBytes : (buf.take ((writeVarint (encodeFrame frame).length).length +
        (encodeFrame frame).length)).drop (writeVarint (encodeFrame frame).length).length =
        encodeFrame frame := by
      rw [cut _ (by omega) (by omega),← size,List.take_length,announced,putField,List.drop_left]
    rw [frameBytes,decodeFrame_encodeFrame fits]
    rfl

def Awaits (left : List Frame) (rest : List UInt8) : Prop :=
  match left with
  | [] => rest = []
  | next :: _ => rest <+: announced next ∧ rest.length < (announced next).length

theorem popFrames_exact {frames : List Frame} (fits : ∀ frame ∈ frames, frame.Fits)
    (within : buf <+: frames.flatMap announced) {fuel : Nat} (enough : buf.length ≤ fuel) :
    ∃ got left rest, popFrames fuel buf = .ok (got, rest) ∧ frames = got ++ left ∧
      buf = got.flatMap announced ++ rest ∧ Awaits left rest ∧ tryPopFrame rest = .ok none := by
  induction frames generalizing buf fuel with
  | nil =>
    cases List.prefix_nil.mp within
    refine ⟨[],[],[],?_,rfl,rfl,rfl,rfl⟩
    cases fuel <;> rfl
  | cons frame frames ih =>
    rw [List.forall_mem_cons] at fits
    rw [List.flatMap_cons] at within
    have popped := tryPopFrame_exact fits.1 within
    split at popped
    · rename_i short
      have inside : buf <+: announced frame := List.prefix_of_prefix_length_le within (List.prefix_append _ _) (by omega)
      refine ⟨[],frame :: frames,buf,?_,rfl,rfl,⟨inside,short⟩,popped⟩
      cases fuel with
      | zero => rfl
      | succ fuel =>
        rw [popFrames,popped]
        rfl
    · rename_i long
      obtain ⟨rest,rfl⟩ := List.prefix_of_prefix_length_le (List.prefix_append _ _) within (not_lt.mp long)
      rw [List.drop_left] at popped
      rw [List.prefix_append_right_inj] at within
      have taken : 0 < (announced frame).length := by
        simp [announced,putField,encodeFrame]
      rw [List.length_append] at enough
      cases fuel with
      | zero => omega
      | succ fuel =>
        obtain ⟨got,left,held,pops,rfl,rfl,waits,asks⟩ := @ih rest fits.2 within fuel (by omega)
        refine ⟨frame :: got,left,held,?_,rfl,?_,waits,asks⟩
        · rw [popFrames,popped]
          change (do let more ← popFrames fuel _; pure (frame :: more.1, more.2)) = _
          rw [pops]
          rfl
        · rw [List.flatMap_cons,List.append_assoc]

-- Reads cut anywhere leave the same frames, with the start of the next one buffered.
theorem receive_exact (fits : ∀ frame ∈ frames, frame.Fits) {reads : List (List UInt8)}
    (within : reads.flatten <+: frames.flatMap announced) :
    ∃ got left rest, receive reads = .ok (got, rest) ∧ frames = got ++ left ∧
      reads.flatten = got.flatMap announced ++ rest ∧ Awaits left rest ∧ tryPopFrame rest = .ok none := by
  induction reads using List.reverseRecOn with
  | nil =>
    refine ⟨[],frames,[],rfl,rfl,rfl,?_,rfl⟩
    cases frames with
    | nil => rfl
    | cons frame frames => exact ⟨List.nil_prefix,by simp [announced,putField,encodeFrame]⟩
  | append_singleton reads read ih =>
    rw [List.flatten_append,List.flatten_singleton] at within ⊢
    obtain ⟨got,left,rest,received,rfl,held,-,-⟩ := ih ((List.prefix_append _ _).trans within)
    rw [held,List.append_assoc,List.flatMap_append,List.prefix_append_right_inj] at within
    obtain ⟨more,still,buffered,pops,rfl,bytes,waits,asks⟩ := popFrames_exact
      (fun frame member => fits frame (List.mem_append_right _ member)) within le_rfl
    refine ⟨got ++ more,still,buffered,?_,by rw [List.append_assoc],?_,waits,asks⟩
    · rw [receive] at received
      rw [receive,List.foldlM_append,received]
      change (receiveRead (got, rest) read >>= pure) = _
      simp only [receiveRead,pops,bind_pure]
      rfl
    · rw [held,List.append_assoc,bytes,List.flatMap_append,List.append_assoc]

end Stream

-- The codec is exact both ways, and the boundaries of the reads a stream arrives in do not show.
theorem framing_exact :
    (∀ frame : Frame, frame.Typed →
      ((∃ len, encodedFrameLen frame = .ok len) ↔ decodeFrame (encodeFrame frame) = .ok frame) ∧
        ∀ len, encodedFrameLen frame = .ok len → len = (encodeFrame frame).length) ∧
    (∀ bytes frame, decodeFrame bytes = .ok frame → encodeFrame frame = bytes) ∧
    (∀ keyed : KeyedFrame, keyed.frame.Typed → keyed.key.streamId < 2^16 → keyed.key.generation < 2^16 →
      ((∃ len, encodedFrameLen keyed.frame = .ok len) ↔ decodeKeyedFrame (encodeKeyedFrame keyed) = .ok keyed)) ∧
    (∀ bytes keyed, decodeKeyedFrame bytes = .ok keyed → encodeKeyedFrame keyed = bytes) ∧
    (∀ frames : List Frame, (∀ frame ∈ frames, frame.Typed ∧ ∃ len, encodedFrameLen frame = .ok len) →
      ∀ reads : List (List UInt8), reads.flatten = frames.flatMap announced → receive reads = .ok (frames, []) ∧
        ∀ count, ∃ got left rest, receive (reads.take count) = .ok (got, rest) ∧
          frames = got ++ left ∧ Awaits left rest ∧ tryPopFrame rest = .ok none) ∧
    (∀ (frame : Frame) (buf more : List UInt8), frame.Typed →
      (∃ len, encodedFrameLen frame = .ok len) → buf <+: announced frame ++ more →
        tryPopFrame buf = .ok (if buf.length < (announced frame).length then none
          else some (frame, buf.drop (announced frame).length))) ∧
    ∀ buf len consumed, tryPopFrame buf = .ok none → readVarintPartial buf = .ok (some (len, consumed)) →
        len ≤ maxFrameBytes ∧ buf.length < consumed + len := by
  have sized : ∀ {frame : Frame}, frame.Typed →
      ((∃ len, encodedFrameLen frame = .ok len) ↔ frame.Fits) := by
    intro frame typed
    simp only [encodedFrameLen_exact typed,exists_and_left,exists_eq',and_true]
  refine ⟨fun frame typed => ⟨?_,?_⟩,fun _ _ read => (decodeFrame_canonical read).1,?_,
    fun _ _ read => (decodeKeyedFrame_canonical read).1,?_,?_,?_⟩
  · rw [sized typed]
    exact ⟨decodeFrame_encodeFrame,fun read => (decodeFrame_canonical read).2⟩
  · intro len computed
    exact ((encodedFrameLen_exact typed).mp computed).2.symm
  · intro keyed typed stream generation
    rw [sized typed]
    exact ⟨fun fits => decodeKeyedFrame_encode fits stream generation,
      fun read => (decodeKeyedFrame_canonical read).2⟩
  · intro frames good reads whole
    have fits : ∀ frame ∈ frames, frame.Fits := fun frame member =>
      (sized (good frame member).1).mp (good frame member).2
    refine ⟨?_,fun count => ?_⟩
    · obtain ⟨got,left,rest,received,rfl,bytes,waits,-⟩ := receive_exact fits
        (whole ▸ List.prefix_rfl : reads.flatten <+: _)
      rw [whole,List.flatMap_append,List.append_cancel_left_eq] at bytes
      cases left with
      | nil =>
        cases waits
        rw [received,List.append_nil]
      | cons next left =>
        have short := waits.2
        rw [← bytes,List.flatMap_cons,List.length_append] at short
        omega
    · have within : (reads.take count).flatten <+: frames.flatMap announced := by
        rw [← whole]
        conv_rhs => rw [← List.take_append_drop count reads,List.flatten_append]
        exact List.prefix_append _ _
      obtain ⟨got,left,rest,received,split,-,waits,asks⟩ := receive_exact fits within
      exact ⟨got,left,rest,received,split,waits,asks⟩
  · intro frame buf more typed computed within
    exact tryPopFrame_exact ((sized typed).mp computed) within
  · intro buf len consumed asked read
    simp only [tryPopFrame,read,bind_ok,Except.ok.injEq,exists_eq_left',popAnnounced,
      rejectIf_ok,not_lt] at asked
    obtain ⟨_,bound,asked⟩ := asked
    refine ⟨bound,?_⟩
    by_contra enough
    rw [if_neg enough] at asked
    simp only [bind_ok,pure_ok] at asked
    obtain ⟨_,_,impossible⟩ := asked
    cases impossible

namespace Sample

def twoFrames : List Frame := [.reset .cancelled,.body [7]]
def threeReads : List (List UInt8) := [[2,3],[1,2],[1,7]]

theorem framing_exact_two : threeReads.flatten = twoFrames.flatMap announced ∧
    receive threeReads = .ok (twoFrames, []) := by
  have spelled : threeReads.flatten = twoFrames.flatMap announced := by
    simp [threeReads,twoFrames,announced,putField,encodeFrame,encodeBody,Frame.kind,
      WireCode.asU8,writeVarint]
  have sized : ∀ frame ∈ twoFrames, frame.Typed ∧ ∃ len, encodedFrameLen frame = .ok len := by
    intro frame member
    simp only [twoFrames,List.mem_cons,List.not_mem_nil,or_false] at member
    rcases member with rfl | rfl
    · exact ⟨trivial,2,rfl⟩
    · exact ⟨trivial,2,rfl⟩
  exact ⟨spelled,(framing_exact.2.2.2.2.1 twoFrames sized threeReads spelled).1⟩

end Sample

end Hellas.Wire
