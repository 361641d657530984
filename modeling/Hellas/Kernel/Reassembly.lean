import Hellas.Kernel.Registry
import Hellas.Lib.Pieces

-- Registry values read back from a view of live objects, chunk by chunk.

namespace Hellas.Kernel

open Codec Pieces

-- Live registry chunks, packed to the front and sorted by id.
structure View where
  registry : List (RegistryChunkId × RegistryChunk)

namespace View

def registryChunk (view : View) (id : RegistryChunkId) : Option RegistryChunk :=
  (view.registry.find? fun entry => entry.1 = id).map Prod.snd

variable [Xet]

-- What the reader asks of a chunk before it takes the chunk's bytes.
def Sibling (space : RegistryNamespace) (head chunk : RegistryChunk) (index : UInt8) : Prop :=
  chunk.space = space ∧ chunk.recordTag = head.recordTag ∧ chunk.chunkIndex = index ∧
    chunk.chunkCount = head.chunkCount ∧ chunk.valueLen = head.valueLen

instance {space : RegistryNamespace} {head chunk : RegistryChunk} {index : UInt8} :
    Decidable (Sibling space head chunk index) :=
  inferInstanceAs (Decidable (_ ∧ _ ∧ _ ∧ _ ∧ _))

-- The buffer enters by its length only: what it held before is overwritten or cut off.
def readChunk (view : View) (network : NetworkId) (space : RegistryNamespace)
    (key : FixedBytes 32) (head : RegistryChunk) (room : Nat) (written : List UInt8) (index : Nat) :
    Option (List UInt8) := do
  let chunk ← view.registryChunk (.derive network space key (UInt8.ofNat index))
  if ¬Sibling space head chunk (UInt8.ofNat index) then none
  else if room < written.length + chunk.payload.length then none
  else some (written ++ chunk.payload)

def registryValue (view : View) (network : NetworkId) (space : RegistryNamespace)
    (key : FixedBytes 32) (room : Nat) : Option (RegistryRecordTag × List UInt8) := do
  let head ← view.registryChunk (.derive network space key 0)
  let written ← (List.range head.chunkCount.toNat).foldlM
    (view.readChunk network space key head room) []
  if written.length ≠ head.valueLen.toNat then none
  else if head.chunkCount < 255 ∧
      (view.registryChunk (.derive network space key head.chunkCount)).isSome then none
  else some (head.recordTag, written)

end View

namespace RegistryChunk

theorem data_eq (chunk : RegistryChunk) : chunk.data.bytes =
    chunk.payload ++ List.replicate (registryChunkDataCapacity - chunk.dataLen.toNat) 0 := by
  have zeros : chunk.data.bytes.drop chunk.dataLen.toNat = List.replicate (registryChunkDataCapacity - chunk.dataLen.toNat) 0 := by
    refine List.eq_replicate_iff.mpr ⟨?_,chunk.padding⟩
    rw [List.length_drop,chunk.data.length_eq]
  rw [payload,← zeros,List.take_append_drop]

theorem payload_length (chunk : RegistryChunk) : chunk.payload.length = chunk.dataLen.toNat := by
  rw [payload,List.length_take,Nat.min_eq_left chunk.dataLen_le]

theorem ext {left right : RegistryChunk} (space : left.space = right.space)
    (tag : left.recordTag = right.recordTag) (index : left.chunkIndex = right.chunkIndex)
    (length : left.valueLen = right.valueLen) (bytes : left.payload = right.payload) :
    left = right := by
  have count : left.chunkCount = right.chunkCount := by
    have one := left.count_eq
    rw [length,right.count_eq] at one
    exact (Option.some.inj one).symm
  have size : left.dataLen = right.dataLen := by
    have one := left.dataLen_eq
    rw [length,index,count,right.dataLen_eq] at one
    exact (Option.some.inj one).symm
  have data : left.data = right.data := by
    refine FixedBytes.ext ?_
    rw [left.data_eq,right.data_eq,bytes,size]
  cases left
  cases right
  cases space
  cases tag
  cases index
  cases length
  cases count
  cases size
  cases data
  rfl

variable {chunk : RegistryChunk}

theorem payload_full (more : chunk.chunkIndex.toNat + 1 < chunk.chunkCount.toNat) : chunk.payload.length = 120 := by
  have expected := chunk.dataLen_eq
  unfold expectedDataLen at expected
  dsimp only at expected
  rw [if_pos more] at expected
  rw [payload_length,← Option.some.inj expected]
  rfl

theorem payload_le : chunk.payload.length ≤ 120 := by
  rw [payload_length]
  exact expectedDataLen_le chunk.dataLen_eq

theorem split_of_parts {space : RegistryNamespace} {tag : RegistryRecordTag} {value : List UInt8}
    (place : chunk.space = space) (kind : chunk.recordTag = tag) (length : chunk.valueLen.toNat = value.length)
    (bytes : chunk.payload = live value chunk.chunkIndex) :
    split space tag value chunk.chunkIndex = some chunk := by
  have counted : chunkCountFor value.length = some chunk.chunkCount := by
    rw [← length]
    exact chunk.count_eq
  obtain ⟨cut,found⟩ := split_some space tag counted chunk.index_lt
  obtain ⟨where_,tagged,indexed,-,sized,carries⟩ := split_parts found
  rw [found]
  refine congrArg some (ext ?_ ?_ indexed ?_ ?_)
  · rw [where_,place]
  · rw [tagged,kind]
  · exact UInt16.toNat_inj.mp (sized.trans length.symm)
  · rw [carries,bytes]

end RegistryChunk

namespace View

variable [Xet] {view : View} {network : NetworkId} {space : RegistryNamespace}
  {key : FixedBytes 32} {head : RegistryChunk} {room : Nat}

def dataAt (view : View) (network : NetworkId) (space : RegistryNamespace) (key : FixedBytes 32) (index : Nat) : List UInt8 :=
  ((view.registryChunk (.derive network space key (UInt8.ofNat index))).map RegistryChunk.payload).getD []

def SiblingAt (view : View) (network : NetworkId) (space : RegistryNamespace) (key : FixedBytes 32)
    (head : RegistryChunk) (index : Nat) : Prop :=
  ∃ chunk, view.registryChunk (.derive network space key (UInt8.ofNat index)) = some chunk ∧ Sibling space head chunk (UInt8.ofNat index)

variable {value : List UInt8} {tag : RegistryRecordTag}

theorem readChunk_some :
    view.readChunk network space key head room written index = some next ↔ view.SiblingAt network space key head index ∧
        next = written ++ view.dataAt network space key index ∧ next.length ≤ room := by
  unfold readChunk SiblingAt dataAt
  cases found : view.registryChunk (.derive network space key (UInt8.ofNat index)) with
  | none => simp
  | some chunk =>
    simp only [Option.bind_eq_bind,Option.bind_some,Option.map_some,Option.getD_some,Option.some.injEq,exists_eq_left']
    split
    · rename_i other
      simp [other]
    · rename_i sibling
      rw [not_not] at sibling
      split
      · rename_i full
        simp only [reduceCtorEq,sibling,true_and,false_iff]
        intro both
        have size := congrArg List.length both.1
        rw [List.length_append] at size
        omega
      · rename_i fits
        simp only [Option.some.injEq,sibling,true_and]
        constructor
        · intro same
          refine ⟨same.symm,?_⟩
          rw [← same,List.length_append]
          omega
        · intro both
          exact both.1.symm

theorem readChunks_some {items : List Nat} {start : List UInt8} (fits : start.length ≤ room) :
    items.foldlM (view.readChunk network space key head room) start = some written ↔
      (∀ index ∈ items, view.SiblingAt network space key head index) ∧
        written = start ++ items.flatMap (view.dataAt network space key) ∧ written.length ≤ room := by
  induction items generalizing start with
  | nil =>
    simp only [List.foldlM_nil,Option.pure_def,Option.some.injEq,List.not_mem_nil,false_implies,
      implies_true,true_and,List.flatMap_nil,List.append_nil]
    constructor
    · intro same
      exact ⟨same.symm,same ▸ fits⟩
    · intro both
      exact both.1.symm
  | cons index items ih =>
    simp only [List.foldlM_cons,Option.bind_eq_bind,Option.bind_eq_some_iff,List.flatMap_cons,List.forall_mem_cons]
    constructor
    · intro read
      obtain ⟨next,first,rest⟩ := read
      obtain ⟨sibling,taken,short⟩ := readChunk_some.mp first
      obtain ⟨others,whole,bounded⟩ := (ih short).mp rest
      refine ⟨⟨sibling,others⟩,?_,bounded⟩
      rw [whole,taken,List.append_assoc]
    · intro all
      obtain ⟨⟨sibling,others⟩,whole,bounded⟩ := all
      rw [← List.append_assoc] at whole
      have short : (start ++ view.dataAt network space key index).length ≤ room := by
        rw [whole,List.length_append] at bounded
        exact (Nat.le_add_right _ _).trans bounded
      exact ⟨_,readChunk_some.mpr ⟨sibling,rfl,short⟩,(ih short).mpr ⟨others,whole,bounded⟩⟩

-- A value is stored under a key when its chunks, and no others, are in the key's first slots.
structure Stores (view : View) (network : NetworkId) (space : RegistryNamespace)
    (key : FixedBytes 32) (tag : RegistryRecordTag) (value : List UInt8) (count : UInt8) : Prop where
  counted : chunkCountFor value.length = some count
  chunks : ∀ index < count, view.registryChunk (.derive network space key index) =
    RegistryChunk.split space tag value index
  closed : count < 255 → view.registryChunk (.derive network space key count) = none

theorem stores_read (stores : view.Stores network space key tag value count) (short : value.length ≤ room) :
    view.registryValue network space key room = some (tag, value) := by
  obtain ⟨counted,chunks,closed⟩ := stores
  obtain ⟨positive,bounded,counts⟩ := chunkCountFor_exact.mp counted
  have several : (0 : UInt8) < count := by
    rw [UInt8.lt_iff_toNat_lt,counts]
    change 0 < _
    omega
  have narrow : ∀ index < count.toNat, (UInt8.ofNat index).toNat = index := fun index below =>
    UInt8.toNat_ofNat_of_lt' (below.trans count.toNat_lt)
  have cut : ∀ index < count.toNat, ∃ chunk, view.registryChunk (.derive network space key (UInt8.ofNat index)) = some chunk ∧
        RegistryChunk.split space tag value (UInt8.ofNat index) = some chunk := by
    intro index below
    have inside : UInt8.ofNat index < count := by
      rw [UInt8.lt_iff_toNat_lt,narrow index below]
      exact below
    obtain ⟨chunk,made⟩ := RegistryChunk.split_some space tag counted inside
    exact ⟨chunk,(chunks _ inside).trans made,made⟩
  obtain ⟨head,made⟩ := RegistryChunk.split_some space tag counted several
  have found : view.registryChunk (.derive network space key 0) = some head := (chunks 0 several).trans made
  obtain ⟨-,kind,-,parts,sized,-⟩ := RegistryChunk.split_parts made
  have same : head.chunkCount = count := Option.some.inj (parts.symm.trans counted)
  have siblings : ∀ index ∈ List.range count.toNat, view.SiblingAt network space key head index := by
    intro index listed
    obtain ⟨chunk,here,made⟩ := cut index (List.mem_range.mp listed)
    obtain ⟨place,tagged,indexed,counted',sized',-⟩ := RegistryChunk.split_parts made
    refine ⟨chunk,here,place,tagged.trans kind.symm,indexed,?_,?_⟩
    · rw [same]
      exact Option.some.inj (counted'.symm.trans counted)
    · exact UInt16.toNat_inj.mp (sized'.trans sized.symm)
  have bytes : (List.range count.toNat).flatMap (view.dataAt network space key) = value := by
    rw [← @pieces_whole _ value 120 count.toNat (by omega)]
    refine List.flatMap_congr fun index listed => ?_
    obtain ⟨chunk,here,made⟩ := cut index (List.mem_range.mp listed)
    rw [dataAt,here]
    refine (RegistryChunk.split_parts made).2.2.2.2.2.trans ?_
    unfold RegistryChunk.live piece
    rw [narrow index (List.mem_range.mp listed)]
    rfl
  have gathered : (List.range count.toNat).foldlM (view.readChunk network space key head room) [] = some value := by
    refine (readChunks_some (Nat.zero_le _)).mpr ⟨siblings,?_,short⟩
    rw [bytes,List.nil_append]
  unfold registryValue
  rw [found]
  simp only [Option.bind_eq_bind,Option.bind_some]
  rw [same,gathered,Option.bind_some,if_neg (not_not.mpr sized.symm),if_neg,kind]
  intro stale
  rw [closed stale.1] at stale
  exact absurd stale.2 Bool.false_ne_true

theorem read_stores (read : view.registryValue network space key room = some (tag, value)) :
    value.length ≤ room ∧ ∃ count, view.Stores network space key tag value count := by
  unfold registryValue at read
  simp only [Option.bind_eq_bind,Option.bind_eq_some_iff] at read
  obtain ⟨head,found,written,gathered,read⟩ := read
  obtain ⟨siblings,bytes,short⟩ := (readChunks_some (Nat.zero_le _)).mp gathered
  rw [List.nil_append] at bytes
  split at read
  · cases read
  · rename_i whole
    rw [not_not] at whole
    split at read
    · cases read
    · rename_i closed
      cases read
      have narrow : ∀ index < head.chunkCount.toNat, (UInt8.ofNat index).toNat = index :=
        fun index below => UInt8.toNat_ofNat_of_lt' (below.trans head.chunkCount.toNat_lt)
      have pieces : ∀ index < head.chunkCount.toNat, ∃ chunk,
          view.registryChunk (.derive network space key (UInt8.ofNat index)) = some chunk ∧ Sibling space head chunk (UInt8.ofNat index) ∧
            view.dataAt network space key index = chunk.payload := by
        intro index below
        obtain ⟨chunk,here,sibling⟩ := siblings index (List.mem_range.mpr below)
        exact ⟨chunk,here,sibling,by rw [dataAt,here]; rfl⟩
      refine ⟨short,head.chunkCount,?_,?_,?_⟩
      · rw [whole]
        exact head.count_eq
      · intro index below
        have inside : index.toNat < head.chunkCount.toNat := UInt8.lt_iff_toNat_lt.mp below
        obtain ⟨chunk,here,sibling,data⟩ := pieces index.toNat inside
        rw [UInt8.ofNat_toNat] at here sibling
        obtain ⟨place,kind,indexed,counted,sized⟩ := sibling
        rw [here,← indexed]
        refine (RegistryChunk.split_of_parts place kind ?_ ?_).symm
        · rw [sized,whole]
        · rw [indexed,← data,bytes]
          refine (piece_of_pieces (fun other more => ?_) (fun other less => ?_) inside).symm
          · obtain ⟨chunk,-,sibling,data⟩ := pieces other (by omega)
            rw [data]
            refine RegistryChunk.payload_full ?_
            rw [sibling.2.2.1,sibling.2.2.2.1,narrow other (by omega)]
            exact more
          · obtain ⟨chunk,-,-,data⟩ := pieces other less
            rw [data]
            exact RegistryChunk.payload_le
      · intro small
        rw [← Option.not_isSome_iff_eq_none]
        exact fun stale => closed ⟨small,stale⟩

def ofSlots (network : NetworkId) (space : RegistryNamespace) (key : FixedBytes 32) (contents : UInt8 → Option RegistryChunk) : View where
  registry := (List.range 256).filterMap fun index =>
    (contents (UInt8.ofNat index)).map fun chunk => (.derive network space key (UInt8.ofNat index), chunk)

theorem ofSlots_chunk {contents : UInt8 → Option RegistryChunk}
    (apart : ∀ other, RegistryChunkId.derive network space key other = .derive network space key index → other = index) :
    (ofSlots network space key contents).registryChunk (.derive network space key index) = contents index := by
  have each : ∀ items : List Nat, (index.toNat ∈ items) → (∀ other ∈ items, other < 256) →
      ((items.filterMap fun other => (contents (UInt8.ofNat other)).map fun chunk =>
        (RegistryChunkId.derive network space key (UInt8.ofNat other), chunk)).find?
          fun entry => entry.1 = .derive network space key index).map Prod.snd = contents index := by
    intro items
    induction items with
    | nil => exact fun listed => absurd listed List.not_mem_nil
    | cons other items ih =>
      intro listed small
      have narrow : (UInt8.ofNat other).toNat = other := UInt8.toNat_ofNat_of_lt' (small other List.mem_cons_self)
      by_cases here : other = index.toNat
      · subst here
        rw [List.filterMap_cons,UInt8.ofNat_toNat]
        cases held : contents index with
        | some chunk => simp
        | none =>
          rw [Option.map_none]
          dsimp only
          rw [List.find?_eq_none.mpr,Option.map_none]
          intro entry kept
          obtain ⟨later,-,made⟩ := List.mem_filterMap.mp kept
          obtain ⟨chunk,found,rfl⟩ := Option.map_eq_some_iff.mp made
          intro same
          rw [apart _ (of_decide_eq_true same),held] at found
          cases found
      · have rest := ih ((List.mem_cons.mp listed).resolve_left (Ne.symm here))
          fun later kept => small later (List.mem_cons_of_mem _ kept)
        rw [List.filterMap_cons]
        cases held : contents (UInt8.ofNat other) with
        | none =>
          rw [Option.map_none]
          exact rest
        | some chunk =>
          rw [Option.map_some]
          dsimp only
          rw [List.find?_cons_of_neg,rest]
          intro same
          refine here ?_
          rw [← narrow,apart _ (of_decide_eq_true same)]
  exact each _ (List.mem_range.mpr index.toNat_lt) fun _ listed => List.mem_range.mp listed

-- A value is read back exactly when its own chunks, and nothing after them, are there to be read.
theorem registry_values_reassemble (view : View) (network : NetworkId) (space : RegistryNamespace) (key : FixedBytes 32)
    (room : Nat) :
    (∀ tag value index chunk, RegistryChunk.split space tag value index = some chunk →
      decode (encode chunk) = .ok (chunk, (encode chunk).length)) ∧
    (∀ tag value, 0 < value.length → value.length ≤ maxRegistryValueLen → value.length ≤ room →
      (∀ index, view.registryChunk (.derive network space key index) = RegistryChunk.split space tag value index) →
      view.registryValue network space key room = some (tag, value)) ∧
    ∀ tag value, view.registryValue network space key room = some (tag, value) ↔
      value.length ≤ room ∧ ∃ count, view.Stores network space key tag value count := by
  refine ⟨fun tag value index chunk _ => ?_,?_,fun tag value => ⟨read_stores,?_⟩⟩
  · have lawful : Exact (fun _ : RegistryChunk => True) encode decode := Lawful.exact
    have whole := @Exact.roundtrip _ _ chunk _ _ _ lawful trivial []
    rwa [List.append_nil] at whole
  · intro tag value positive bounded short holds
    have counted : chunkCountFor value.length =
        some (UInt8.ofNat ((value.length + 119) / 120)) := by
      unfold chunkCountFor registryChunkDataCapacity
      rw [if_neg (by omega)]
    refine stores_read ⟨counted,fun index _ => holds index,fun _ => ?_⟩ short
    rw [holds]
    unfold RegistryChunk.split
    split
    · rfl
    · rename_i count same
      rw [counted] at same
      cases same
      exact dif_neg (UInt8.lt_irrefl _)
  · intro stored
    obtain ⟨short,count,stores⟩ := stored
    exact stores_read stores short

end View

-- A digest that keeps the last byte alone tells the slots of one key apart.
namespace View.Sample

@[reducible] def lastByte : Xet := ⟨fun bytes => ⟨List.replicate 32 (bytes.getLastD 0),by simp⟩⟩

attribute [local instance] lastByte

def ledger : NetworkId := ⟨[2],by simp,by decide⟩
def record : FixedBytes 32 := ⟨List.replicate 32 11,by simp⟩

theorem slots_apart (same : RegistryChunkId.derive ledger .bondLease record one =
      .derive ledger .bondLease record other) : one = other := by
  have last : ∀ index : UInt8, (RegistryChunkId.derive ledger .bondLease record index).raw.bytes = List.replicate 32 index := by
    intro index
    change List.replicate 32 (List.getLastD (_ ++ (_ ++ (_ ++ (_ ++ [index])))) 0) = _
    simp [List.getLastD_eq_getLast?]
  have bytes := last one
  rw [same,last other] at bytes
  exact ((List.replicate_right_inj (by decide)).mp bytes).symm

-- The longest values fill every index a chunk can have, and the reader looks no further: what
-- stands in the slot after the last is not seen.
def longest : List UInt8 := List.replicate 30600 1

def crowded : View := .ofSlots ledger .bondLease record fun index =>
  if index = 255 then RegistryChunk.split .bondLease .bondLease [9] 0
  else RegistryChunk.split .bondLease .bondLease longest index

theorem longest_counted : chunkCountFor longest.length = some 255 := by
  rw [longest,List.length_replicate]
  decide

theorem crowded_stores : crowded.Stores ledger .bondLease record .bondLease longest 255 := by
  refine ⟨longest_counted,fun index below => ?_,fun small => absurd small (UInt8.lt_irrefl _)⟩
  rw [crowded,ofSlots_chunk fun other => slots_apart,if_neg]
  intro same
  rw [same] at below
  exact UInt8.lt_irrefl _ below

theorem slot_past_longest_unread :
    chunkCountFor longest.length = some 255 ∧
      crowded.registryValue ledger .bondLease record 30600 = some (.bondLease, longest) ∧
      (crowded.registryChunk (.derive ledger .bondLease record 255)).isSome := by
  refine ⟨longest_counted,stores_read crowded_stores ?_,?_⟩
  · rw [longest,List.length_replicate]
  · rw [crowded,ofSlots_chunk fun other => slots_apart,if_pos rfl]
    rfl

def short : List UInt8 := List.replicate 130 5

theorem registry_values_reassemble_short :
    View.registryValue (.ofSlots ledger .bondLease record
        (RegistryChunk.split .bondLease .paymentPending short)) ledger .bondLease record 200 =
      some (.paymentPending, short) := by
  refine (registry_values_reassemble _ ledger .bondLease record 200).2.1 _ _ ?_ ?_ ?_ fun index =>
    ofSlots_chunk fun other => slots_apart
  all_goals
    rw [short,List.length_replicate]
    decide

end View.Sample

end Hellas.Kernel
