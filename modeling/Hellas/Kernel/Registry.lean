import Hellas.Kernel.Terms

-- Registry slots: chunked records keyed by a hash of network, namespace, logical key and index.

namespace Hellas.Kernel

open Codec Guard

inductive RegistryNamespace where
  | paymentClose
  | bondLease
  deriving DecidableEq

inductive RegistryRecordTag where
  | paymentPending
  | bondLease
  deriving DecidableEq

def RegistryNamespace.tag : RegistryNamespace → UInt8
  | .paymentClose => 0
  | .bondLease => 1

def RegistryNamespace.fromTag (tag : UInt8) : Option RegistryNamespace :=
  if tag = 0 then some .paymentClose else if tag = 1 then some .bondLease else none

def RegistryRecordTag.tag : RegistryRecordTag → UInt8
  | .paymentPending => 0
  | .bondLease => 1

def RegistryRecordTag.fromTag (tag : UInt8) : Option RegistryRecordTag :=
  if tag = 0 then some .paymentPending else if tag = 1 then some .bondLease else none

theorem RegistryNamespace.fromTag_exact (tag : UInt8) (space : RegistryNamespace) :
    fromTag tag = some space ↔ tag = space.tag := by
  unfold fromTag
  cases space <;> simp only [RegistryNamespace.tag] <;> grind

theorem RegistryRecordTag.fromTag_exact (tag : UInt8) (record : RegistryRecordTag) :
    fromTag tag = some record ↔ tag = record.tag := by
  unfold fromTag
  cases record <;> simp only [RegistryRecordTag.tag] <;> grind

instance : Encode RegistryNamespace := .tagged RegistryNamespace.tag
instance : Decode RegistryNamespace := .tagged RegistryNamespace.fromTag
instance : Lawful RegistryNamespace := .tagged RegistryNamespace.fromTag_exact
instance : FixedSize RegistryNamespace 1 := ⟨fun _ => rfl,rfl⟩

instance : Encode RegistryRecordTag := .tagged RegistryRecordTag.tag
instance : Decode RegistryRecordTag := .tagged RegistryRecordTag.fromTag
instance : Lawful RegistryRecordTag := .tagged RegistryRecordTag.fromTag_exact
instance : FixedSize RegistryRecordTag 1 := ⟨fun _ => rfl,rfl⟩

instance : Encode RegistryChunkId := .wrap RegistryChunkId.raw
instance : Decode RegistryChunkId := .wrap RegistryChunkId.mk
instance : Lawful RegistryChunkId := .wrap (fun _ => rfl) (fun _ => rfl)

def RegistryChunkId.derive [Xet] (network : NetworkId) (space : RegistryNamespace)
    (logicalKey : FixedBytes 32) (chunkIndex : UInt8) : RegistryChunkId :=
  ⟨Xet.hash (Domain.registryChunkId ++ (encode network ++ (encode space ++ (encode logicalKey ++ encode chunkIndex))))⟩

def registryChunkVersion : UInt8 := 2
def registryChunkDataCapacity : Nat := 120
def maxRegistryChunks : Nat := 255
def maxRegistryMutations : Nat := 2
def maxRegistryValueLen : Nat := maxRegistryChunks * registryChunkDataCapacity

def chunkCountFor (valueLen : Nat) : Option UInt8 :=
  if valueLen = 0 ∨ valueLen > maxRegistryValueLen then none
  else some (UInt8.ofNat ((valueLen + (registryChunkDataCapacity - 1)) / registryChunkDataCapacity))

-- Every chunk but the last is full; the last carries the remainder.
def expectedDataLen (valueLen : UInt16) (chunkIndex chunkCount : UInt8) : Option UInt8 :=
  let index := chunkIndex.toNat
  if index + 1 < chunkCount.toNat then some (UInt8.ofNat registryChunkDataCapacity)
  else if valueLen.toNat < index * registryChunkDataCapacity then none
  else
    let remainder := valueLen.toNat - index * registryChunkDataCapacity
    if remainder = 0 ∨ remainder > registryChunkDataCapacity then none
    else some (UInt8.ofNat remainder)

-- A chunk is only built by splitting a value or by decoding canonical bytes, and carries what both
-- establish: derived fields agree with what they derive from and dead bytes are zero.
structure RegistryChunk where
  space : RegistryNamespace
  recordTag : RegistryRecordTag
  chunkIndex : UInt8
  chunkCount : UInt8
  valueLen : UInt16
  dataLen : UInt8
  data : FixedBytes registryChunkDataCapacity
  count_eq : chunkCountFor valueLen.toNat = some chunkCount
  index_lt : chunkIndex < chunkCount
  dataLen_eq : expectedDataLen valueLen chunkIndex chunkCount = some dataLen
  padding : ∀ byte ∈ data.bytes.drop dataLen.toNat, byte = 0
  deriving DecidableEq

theorem chunkCountFor_exact :
    chunkCountFor valueLen = some count ↔ 0 < valueLen ∧ valueLen ≤ maxRegistryValueLen ∧ count.toNat = (valueLen + 119) / 120 := by
  unfold chunkCountFor
  split
  · rename_i outside
    simp only [reduceCtorEq,false_iff]
    omega
  · rename_i inside
    have width : (valueLen + 119) / 120 < 2^8 := by
      simp only [maxRegistryValueLen,maxRegistryChunks,registryChunkDataCapacity] at inside
      omega
    simp only [Option.some.injEq,registryChunkDataCapacity,← UInt8.toNat_inj,UInt8.toNat_ofNat_of_lt' width]
    omega

theorem expectedDataLen_le (expected : expectedDataLen valueLen index count = some dataLen) :
    dataLen.toNat ≤ registryChunkDataCapacity := by
  have capacity : registryChunkDataCapacity = 120 := rfl
  unfold expectedDataLen at expected
  dsimp only at expected
  split_ifs at expected
  · cases expected
    decide
  · cases expected
    rw [UInt8.toNat_ofNat']
    omega

namespace RegistryChunk

def live (value : List UInt8) (chunkIndex : UInt8) : List UInt8 :=
  (value.drop (chunkIndex.toNat * registryChunkDataCapacity)).take registryChunkDataCapacity

theorem live_length (value : List UInt8) (chunkIndex : UInt8) :
    (live value chunkIndex).length = min 120 (value.length - chunkIndex.toNat * 120) := by
  simp [live,registryChunkDataCapacity]

theorem live_le (value : List UInt8) (chunkIndex : UInt8) :
    (live value chunkIndex).length ≤ registryChunkDataCapacity := by
  rw [live_length,registryChunkDataCapacity]
  omega

variable {value : List UInt8} {count index : UInt8} {space : RegistryNamespace}
  {chunk : RegistryChunk}

theorem live_one (short : value.length ≤ 120) : live value 0 = value := by
  simp only [live,registryChunkDataCapacity,UInt8.toNat_zero,Nat.zero_mul,List.drop_zero]
  exact List.take_of_length_le short

theorem live_two (short : value.length ≤ 240) : live value 0 ++ live value 1 = value := by
  have rest : (value.drop 120).take 120 = value.drop 120 := List.take_of_length_le (by rw [List.length_drop]; omega)
  simp only [live,registryChunkDataCapacity,UInt8.toNat_zero,UInt8.toNat_one,Nat.zero_mul,
    Nat.one_mul,List.drop_zero,rest,List.take_append_drop]

theorem valueLen_toNat (counted : chunkCountFor value.length = some count) :
    (UInt16.ofNat value.length).toNat = value.length := by
  obtain ⟨-,bounded,-⟩ := chunkCountFor_exact.mp counted
  simp only [maxRegistryValueLen,maxRegistryChunks,registryChunkDataCapacity] at bounded
  exact UInt16.toNat_ofNat_of_lt' (show value.length < 2^16 by omega)

theorem dataLen_toNat (value : List UInt8) (chunkIndex : UInt8) :
    (UInt8.ofNat (live value chunkIndex).length).toNat = (live value chunkIndex).length := by
  have bounded := live_le value chunkIndex
  simp only [registryChunkDataCapacity] at bounded
  exact UInt8.toNat_ofNat_of_lt' (show (live value chunkIndex).length < 2^8 by omega)

theorem split_dataLen (counted : chunkCountFor value.length = some count) (inRange : index < count) :
    expectedDataLen (UInt16.ofNat value.length) index count = some (UInt8.ofNat (live value index).length) := by
  obtain ⟨positive,-,counts⟩ := chunkCountFor_exact.mp counted
  rw [UInt8.lt_iff_toNat_lt] at inRange
  simp only [expectedDataLen,valueLen_toNat counted,live_length,registryChunkDataCapacity]
  split
  · rw [Nat.min_eq_left (by omega)]
  · rw [if_neg (by omega),if_neg (by omega),Nat.min_eq_right (by omega)]

theorem split_padding (value : List UInt8) (index : UInt8) :
    ∀ byte ∈ (live value index ++ List.replicate (registryChunkDataCapacity - (live value index).length) 0).drop
        (UInt8.ofNat (live value index).length).toNat, byte = 0 := by
  rw [dataLen_toNat,List.drop_left]
  exact fun byte member => List.eq_of_mem_replicate member

-- Past the index check nothing in the source's conversions can fail: the fields' proofs say so.
def split (space : RegistryNamespace) (recordTag : RegistryRecordTag) (value : List UInt8) (chunkIndex : UInt8) : Option RegistryChunk :=
  match counted : chunkCountFor value.length with
  | none => none
  | some chunkCount =>
    if inRange : chunkIndex < chunkCount then some {
      space, recordTag, chunkIndex, chunkCount
      valueLen := UInt16.ofNat value.length
      dataLen := UInt8.ofNat (live value chunkIndex).length
      data := ⟨live value chunkIndex ++ List.replicate (registryChunkDataCapacity - (live value chunkIndex).length) 0,by
        have bounded := live_le value chunkIndex
        rw [List.length_append,List.length_replicate]
        omega⟩
      count_eq := by rw [valueLen_toNat counted,counted]
      index_lt := inRange
      dataLen_eq := split_dataLen counted inRange
      padding := split_padding value chunkIndex }
    else none

def payload (chunk : RegistryChunk) : List UInt8 := chunk.data.bytes.take chunk.dataLen.toNat

theorem split_parts (cut : split space tag value index = some chunk) :
    chunk.space = space ∧ chunk.recordTag = tag ∧ chunk.chunkIndex = index ∧
      chunkCountFor value.length = some chunk.chunkCount ∧ chunk.valueLen.toNat = value.length ∧ chunk.payload = live value index := by
  unfold split at cut
  split at cut
  · cases cut
  · rename_i count counted
    split at cut
    · cases cut
      refine ⟨rfl,rfl,rfl,counted,valueLen_toNat counted,?_⟩
      simp only [payload,dataLen_toNat,List.take_left]
    · cases cut

theorem split_some (space : RegistryNamespace) (tag : RegistryRecordTag)
    (counted : chunkCountFor value.length = some count) (inRange : index < count) :
    ∃ chunk, split space tag value index = some chunk := by
  unfold split
  split
  · rename_i missing
    rw [missing] at counted
    cases counted
  · rename_i found same
    rw [same] at counted
    cases counted
    rw [dif_pos inRange]
    exact ⟨_,rfl⟩

-- The decoder's checks on the parsed fields: one state, one byte string.
def ofFields (space : RegistryNamespace) (recordTag : RegistryRecordTag)
    (chunkIndex chunkCount : UInt8) (valueLen : UInt16) (dataLen : UInt8)
    (data : FixedBytes registryChunkDataCapacity) : Except DecodeError RegistryChunk :=
  if count : chunkCountFor valueLen.toNat ≠ some chunkCount then
    .error (.nonCanonical "RegistryChunk.chunk_count")
  else if index : chunkIndex ≥ chunkCount then .error (.nonCanonical "RegistryChunk.chunk_index")
  else if length : expectedDataLen valueLen chunkIndex chunkCount ≠ some dataLen then
    .error (.nonCanonical "RegistryChunk.data_len")
  else if data.bytes.length < dataLen.toNat then .error (.nonCanonical "RegistryChunk.data_len")
  else if dirty : ∃ byte ∈ data.bytes.drop dataLen.toNat, byte ≠ 0 then
    .error (.nonCanonical "RegistryChunk.data")
  else .ok {
    space, recordTag, chunkIndex, chunkCount, valueLen, dataLen, data
    count_eq := Decidable.not_not.mp count
    index_lt := UInt8.not_le.mp index
    dataLen_eq := Decidable.not_not.mp length
    padding := fun byte member => Decidable.byContradiction fun set => dirty ⟨byte,member,set⟩ }

theorem dataLen_le (chunk : RegistryChunk) : chunk.dataLen.toNat ≤ chunk.data.bytes.length := by
  rw [chunk.data.length_eq]
  exact expectedDataLen_le chunk.dataLen_eq

theorem ofFields_exact {valueLen : UInt16} {dataLen : UInt8} {data : FixedBytes registryChunkDataCapacity} :
    ofFields space tag index count valueLen dataLen data = .ok chunk ↔
      chunk.space = space ∧ chunk.recordTag = tag ∧ chunk.chunkIndex = index ∧
        chunk.chunkCount = count ∧ chunk.valueLen = valueLen ∧ chunk.dataLen = dataLen ∧ chunk.data = data := by
  constructor
  · intro built
    unfold ofFields at built
    repeat' split at built
    all_goals cases built
    exact ⟨rfl,rfl,rfl,rfl,rfl,rfl,rfl⟩
  · rintro ⟨rfl,rfl,rfl,rfl,rfl,rfl,rfl⟩
    have clean : ¬∃ byte ∈ chunk.data.bytes.drop chunk.dataLen.toNat, byte ≠ 0 := by
      rintro ⟨byte,member,set⟩
      exact set (chunk.padding byte member)
    unfold ofFields
    rw [dif_neg (by simp [chunk.count_eq]),dif_neg (UInt8.not_le.mpr chunk.index_lt),
      dif_neg (by simp [chunk.dataLen_eq]),if_neg (Nat.not_lt.mpr chunk.dataLen_le),dif_neg clean]

end RegistryChunk

instance : Encode RegistryChunk where
  maxEncodedSize := envelopeSize + 6 * 1 + 2 + registryChunkDataCapacity
  encodedSize _ := envelopeSize + 6 * 1 + 2 + registryChunkDataCapacity
  encode chunk := encodeEnvelope Tag.registryChunk ++ (encode registryChunkVersion ++
    (encode chunk.space ++ (encode chunk.recordTag ++ (encode chunk.chunkIndex ++
      (encode chunk.chunkCount ++ (encode chunk.valueLen ++ (encode chunk.dataLen ++ encode chunk.data)))))))

instance : Decode RegistryChunk where
  decode := decodeComposite Tag.registryChunk do
    let version : UInt8 ← decodeField
    if version ≠ registryChunkVersion then throw (.invalidTag version)
    else do
      let space ← decodeField
      let recordTag ← decodeField
      let chunkIndex ← decodeField
      let chunkCount ← decodeField
      let valueLen ← decodeField
      let dataLen ← decodeField
      let data ← decodeField
      checked (RegistryChunk.ofFields space recordTag chunkIndex chunkCount valueLen dataLen data)

instance : Lawful RegistryChunk where
  size chunk := by
    change List.length (_ ++ (_ ++ (_ ++ (_ ++ (_ ++ (_ ++ (_ ++ (_ ++ _)))))))) = _ + _ + _ + _
    simp only [List.length_append,encodeEnvelope_length,Lawful.size,FixedSize.size]
    omega
  bound _ := Nat.le_refl _
  exact := composite_exact (parses_congr (parses_read fun _ => parses_ite parses_throw
    (parses_read fun _ => parses_read fun _ => parses_read fun _ => parses_read fun _ =>
    parses_read fun _ => parses_read fun _ => parses_read fun _ => parses_checked)) (by
        intro chunk bytes
        simp [RegistryChunk.ofFields_exact]))

structure RegistryMutation where
  id : RegistryChunkId
  chunk : Option RegistryChunk
  deriving DecidableEq

def RegistryMutation.write (id : RegistryChunkId) (chunk : RegistryChunk) : RegistryMutation := ⟨id,some chunk⟩

def RegistryMutation.delete (id : RegistryChunkId) : RegistryMutation := ⟨id,none⟩

-- The registry writes of one operation: few, and never two of one slot.
structure RegistryDiff where
  mutations : List RegistryMutation
  bound : mutations.length ≤ maxRegistryMutations
  distinct : (mutations.map RegistryMutation.id).Nodup
  deriving DecidableEq

namespace RegistryDiff

def empty : RegistryDiff := ⟨[],by simp,by simp⟩

def push (diff : RegistryDiff) (mutation : RegistryMutation) :
    Except RegistryDiffError RegistryDiff :=
  if present : mutation.id ∈ diff.mutations.map RegistryMutation.id then
    .error (.duplicate mutation.id)
  else if room : diff.mutations.length < maxRegistryMutations then
    .ok ⟨diff.mutations ++ [mutation],by
      rw [List.length_append,List.length_singleton]; exact room,by
      simpa [List.nodup_append,diff.distinct] using present⟩
  else .error .full

theorem ext {left right : RegistryDiff} (same : left.mutations = right.mutations) : left = right := by
  cases left
  cases right
  cases same
  rfl

variable {diff : RegistryDiff} {mutations : List RegistryMutation}

theorem push_exact : diff.push mutation = .ok next ↔ next.mutations = diff.mutations ++ [mutation] := by
  unfold push
  constructor
  · intro pushed
    repeat' split at pushed
    all_goals cases pushed
    rfl
  · intro same
    have distinct := next.distinct
    have bound := next.bound
    rw [same] at distinct bound
    have fresh : mutation.id ∉ diff.mutations.map RegistryMutation.id := by
      simpa [List.nodup_append,diff.distinct] using distinct
    rw [dif_neg fresh,dif_pos (by rwa [List.length_append,List.length_singleton] at bound)]
    exact congrArg Except.ok (ext same.symm)

def pushAll (mutations : List RegistryMutation) : Except ApplyError RegistryDiff :=
  (mutations.foldlM push empty).mapError .registryDiffRejected

theorem push_room {whole : RegistryDiff} (same : whole.mutations = diff.mutations ++ mutation :: rest) :
    ∃ next, diff.push mutation = .ok next := by
  have distinct := whole.distinct
  have bound := whole.bound
  rw [same,List.append_cons] at distinct bound
  rw [List.map_append] at distinct
  rw [List.length_append] at bound
  exact ⟨⟨diff.mutations ++ [mutation],by omega,(List.nodup_append.mp distinct).1⟩,
    push_exact.mpr rfl⟩

theorem foldlM_push_exact : mutations.foldlM push start = .ok diff ↔ diff.mutations = start.mutations ++ mutations := by
  induction mutations generalizing start with
  | nil =>
    rw [List.foldlM_nil,pure_ok,List.append_nil]
    exact ⟨fun same => same ▸ rfl,fun same => ext same.symm⟩
  | cons mutation rest ih =>
    simp only [List.foldlM_cons,bind_ok,ih]
    constructor
    · rintro ⟨next,pushed,same⟩
      rw [same,push_exact.mp pushed,List.append_assoc,List.singleton_append]
    · intro same
      obtain ⟨next,pushed⟩ := push_room same
      exact ⟨next,pushed,by
        rw [same,push_exact.mp pushed,List.append_assoc,List.singleton_append]⟩

theorem pushAll_exact : pushAll mutations = .ok diff ↔ diff.mutations = mutations := by
  rw [pushAll,mapError_ok,foldlM_push_exact]
  rfl

end RegistryDiff

end Hellas.Kernel
