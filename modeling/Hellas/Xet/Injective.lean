import Hellas.Lib.Lists
import Hellas.Xet.Content

-- Content ids determine content: texts of nodes are unambiguous, and the keys keep leaves, inner
-- nodes and files apart.

namespace Hellas.Content

open Kernel Words

section Texts

theorem limbs_length {bytes : List UInt8} (size : bytes.length = 8 * count) :
    ((limbs count bytes).flatMap fun limb => limb.reverse.flatMap Text.hexByte).length = 16 * count := by
  induction count generalizing bytes with
  | zero => rfl
  | succ count ih =>
    have rest : (bytes.drop 8).length = 8 * count := by
      rw [List.length_drop]
      omega
    rw [limbs,List.flatMap_cons,List.length_append,ih rest,Text.hexBytes_length,List.length_reverse,List.length_take]
    omega

theorem limbs_cancel {one other : List UInt8} (first : one.length = 8 * count) (second : other.length = 8 * count)
    (same : ((limbs count one).flatMap fun limb => limb.reverse.flatMap Text.hexByte) =
      (limbs count other).flatMap fun limb => limb.reverse.flatMap Text.hexByte) :
    one = other := by
  induction count generalizing one other with
  | zero => rw [List.length_eq_zero_iff.mp first,List.length_eq_zero_iff.mp second]
  | succ count ih =>
    rw [limbs,limbs,List.flatMap_cons,List.flatMap_cons] at same
    obtain ⟨here,there⟩ := List.append_inj same (by
      rw [Text.hexBytes_length,Text.hexBytes_length,List.length_reverse,List.length_reverse,
        List.length_take,List.length_take,first,second])
    have heads := List.reverse_injective (Text.hexBytes_injective here)
    have tails := ih (by rw [List.length_drop]; omega) (by rw [List.length_drop]; omega) there
    rw [← List.take_append_drop 8 one,heads,tails,List.take_append_drop]

theorem writeHash_length {hash : XetHash} : (writeHash hash).length = 64 := limbs_length hash.length_eq

theorem writeHash_injective : Function.Injective writeHash := by
  intro one other same
  exact FixedBytes.ext (limbs_cancel one.length_eq other.length_eq same)

theorem entry_cancel (same : entry one ++ left = entry other ++ right) : one = other ∧ left = right := by
  have small (node : Chunk) : node.dataLen.toNat < 10^20 := Nat.lt_trans node.dataLen.toNat_lt (by decide)
  simp only [entry,List.append_assoc] at same
  obtain ⟨hashes,rest⟩ := List.append_inj same (by rw [writeHash_length,writeHash_length])
  have lengths := List.append_cancel_left rest
  obtain ⟨length,ending⟩ := Text.decimal_cancel (small one) (small other) (by rw [Text.isDigit]; decide) lengths
  obtain ⟨hash,dataLen⟩ := one
  obtain rfl := writeHash_injective hashes
  obtain rfl := UInt64.toNat_inj.mp length
  exact ⟨rfl,ending⟩

theorem entry_length {node : Chunk} : 0 < (entry node).length ∧ (entry node).length ≤ maxEntrySize := by
  have digits := @Text.decimal_length node.dataLen.toNat
  have spaces : (bytesOf " : ").length = 3 := by decide +kernel
  rw [entry,List.length_append,List.length_append,List.length_append,writeHash_length,spaces,maxEntrySize,List.length_singleton]
  omega

theorem mergeBuffer_ne_nil : mergeBuffer (node :: rest) ≠ [] := by
  rw [mergeBuffer,List.flatMap_cons]
  exact List.append_ne_nil_of_left_ne_nil (List.ne_nil_of_length_pos entry_length.1) _

theorem mergeBuffer_injective : Function.Injective mergeBuffer := by
  intro one
  induction one with
  | nil =>
    intro other same
    cases other with
    | nil => rfl
    | cons node rest => exact absurd same.symm mergeBuffer_ne_nil
  | cons node rest ih =>
    intro other same
    cases other with
    | nil => exact absurd same mergeBuffer_ne_nil
    | cons first later =>
      rw [mergeBuffer,mergeBuffer,List.flatMap_cons,List.flatMap_cons] at same
      obtain ⟨rfl,after⟩ := entry_cancel same
      rw [ih after]

theorem mergeBuffer_length {nodes : List Chunk} (few : nodes.length ≤ maxGroupSize) :
    (mergeBuffer nodes).length ≤ maxMergeBufferSize := by
  have each : (mergeBuffer nodes).length ≤ nodes.length * maxEntrySize := by
    induction nodes with
    | nil => exact Nat.zero_le _
    | cons node rest ih =>
      rw [List.length_cons] at few
      have before := ih (by omega)
      have here := (@entry_length node).2
      rw [mergeBuffer,List.flatMap_cons,List.length_append,List.length_cons,Nat.succ_mul]
      rw [mergeBuffer] at before
      omega
  exact Nat.le_trans each (Nat.mul_le_mul_right _ few)

end Texts

section Levels

variable [Blake3]

-- The levels a tree goes through: each but the first merges one of several nodes.
inductive Level (chunks : List Chunk) : Nat → List Chunk → Prop where
  | base : Level chunks 0 chunks
  | up {height : Nat} {nodes : List Chunk} : Level chunks height nodes → 1 < nodes.length →
      Level chunks (height + 1) (mergeLevel nodes)

theorem raiseLoop_step (several : 1 < nodes.length) : raiseLoop nodes = raiseLoop (mergeLevel nodes) := by
  rw [raiseLoop,if_pos several,mergeLoop_eq (Nat.le_refl 0),List.take_zero,List.nil_append,List.drop_zero]

theorem raiseLoop_single (single : ¬1 < nodes.length) : raiseLoop nodes = nodes := by
  rw [raiseLoop,if_neg single]

theorem mergeLevel_ne_nil (nonempty : nodes ≠ []) : mergeLevel nodes ≠ [] := by
  rw [mergeLevel,groups_cons nonempty]
  exact List.cons_ne_nil _ _

theorem mergeLevel_shorter (several : 1 < nodes.length) : (mergeLevel nodes).length < nodes.length := by
  rw [mergeLevel,List.length_map]
  exact groups_shorter several

theorem root_level (level : Level chunks height nodes) (nonempty : nodes ≠ []) :
    ∃ top root, Level chunks top [root] ∧ raiseLoop nodes = [root] := by
  induction size : nodes.length using Nat.strongRecOn generalizing nodes height with
  | ind size ih =>
    by_cases several : 1 < nodes.length
    · obtain ⟨top,root,reached,same⟩ := ih _ (size ▸ mergeLevel_shorter several)
        (level.up several) (mergeLevel_ne_nil nonempty) rfl
      exact ⟨top,root,reached,(raiseLoop_step several).trans same⟩
    · have single : nodes.length = 1 := by
        have positive := List.length_pos_of_ne_nil nonempty
        omega
      obtain ⟨root,rfl⟩ := List.length_eq_one_iff.mp single
      exact ⟨height,root,level,raiseLoop_single several⟩

theorem merkleRoot_level (nonempty : chunks ≠ []) :
    ∃ top root, Level chunks top [root] ∧ merkleRoot chunks = root.hash := by
  obtain ⟨top,root,level,raised⟩ := root_level .base nonempty
  refine ⟨top,root,level,?_⟩
  rw [merkleRoot,raised]

end Levels

section Injective

theorem dataKey_ne_internal : dataKey ≠ internalNodeKey := by decide

variable [Blake3] [Gear] {one other : List UInt8}

-- Everything the id of a file hashes, with the key it is hashed under.
inductive Preimage (bytes : List UInt8) : FixedBytes 32 × List UInt8 → Prop where
  | data {piece : List UInt8} : piece ∈ split bytes → Preimage bytes (dataKey, piece)
  | node {height : Nat} {nodes group : List Chunk} : Level (chunk bytes) height nodes →
      1 < nodes.length → group ∈ groups nodes → Preimage bytes (internalNodeKey, mergeBuffer group)
  | file : bytes ≠ [] → Preimage bytes (zeroKey, (merkleRoot (chunk bytes)).bytes)

-- No collision within or across keys, and no zero digest, over what two files hash.
structure CollisionFree (one other : List UInt8) : Prop where
  apart : ∀ left right, (Preimage one left ∨ Preimage other left) →
    (Preimage one right ∨ Preimage other right) →
    Blake3.keyedHash left.1 left.2 = Blake3.keyedHash right.1 right.2 → left = right
  nonzero : ∀ input, (Preimage one input ∨ Preimage other input) →
    Blake3.keyedHash input.1 input.2 ≠ .zero

-- A node of some level was hashed from a piece of the file or from a group below it.
inductive Made (bytes : List UInt8) : Nat → Chunk → Prop where
  | leaf {piece : List UInt8} : piece ∈ split bytes → Made bytes 0 (leaf piece)
  | merged {height : Nat} {nodes group : List Chunk} : Level (chunk bytes) height nodes →
      1 < nodes.length → group ∈ groups nodes → Made bytes (height + 1) (merge group)

variable {low high : Nat}

theorem Level.made (level : Level (chunk bytes) height nodes) (listed : node ∈ nodes) : Made bytes height node := by
  cases level with
  | base =>
    obtain ⟨piece,member,rfl⟩ := List.mem_map.mp listed
    exact .leaf member
  | up below several =>
    obtain ⟨group,member,rfl⟩ := List.mem_map.mp listed
    exact .merged below several member

theorem group_inj (free : CollisionFree one other) (first : Level (chunk one) low below) (several : 1 < below.length)
    (here : left ∈ groups below) (second : Level (chunk other) high beside) (many : 1 < beside.length)
    (there : right ∈ groups beside) (same : (merge left).hash = (merge right).hash) :
    left = right := by
  have texts := free.apart _ _ (.inl (.node first several here)) (.inr (.node second many there)) same
  exact mergeBuffer_injective (congrArg Prod.snd texts)

theorem made_inj (free : CollisionFree one other) (first : Made one low left)
    (second : Made other high right) (same : left.hash = right.hash) :
    left = right ∧ (low = 0 ↔ high = 0) := by
  cases first with
  | leaf here =>
    cases second with
    | leaf there =>
      have pieces := free.apart _ _ (.inl (.data here)) (.inr (.data there)) same
      cases pieces
      exact ⟨rfl,Iff.rfl⟩
    | merged level several there =>
      have keys := free.apart _ _ (.inl (.data here)) (.inr (.node level several there)) same
      exact absurd (congrArg Prod.fst keys) dataKey_ne_internal
  | merged below several here =>
    cases second with
    | leaf there =>
      have keys := free.apart _ _ (.inl (.node below several here)) (.inr (.data there)) same
      exact absurd (congrArg Prod.fst keys).symm dataKey_ne_internal
    | merged level many there =>
      rw [group_inj free below several here level many there same]
      exact ⟨rfl,by simp⟩

theorem level_bottom (free : CollisionFree one other) (first : Level (chunk one) low left)
    (second : Level (chunk other) high right) (same : left = right) (nonempty : left ≠ []) :
    low = 0 ↔ high = 0 := by
  obtain ⟨node,listed⟩ := List.exists_mem_of_ne_nil _ nonempty
  exact (made_inj free (first.made listed) (second.made (same ▸ listed)) rfl).2

theorem level_inj (free : CollisionFree one other) {right : List Chunk}
    (first : Level (chunk one) low left) (second : Level (chunk other) high right)
    (same : left = right) (nonempty : left ≠ []) : low = high ∧ chunk one = chunk other := by
  induction first generalizing high right with
  | base =>
    cases second with
    | base => exact ⟨rfl,same⟩
    | up below several =>
      have bottom := level_bottom free .base (below.up several) same nonempty
      simp at bottom
  | @up low nodes below several ih =>
    cases second with
    | base =>
      have bottom := level_bottom free (below.up several) .base same nonempty
      simp at bottom
    | @up high beside level many =>
      have equal : groups nodes = groups beside :=
        Lists.map_inj_on (fun group here group' there merged =>
          group_inj free below several here level many there (congrArg Chunk.hash merged)) same
      have flat := congrArg List.flatten equal
      rw [groups_flatten,groups_flatten] at flat
      have filled : nodes ≠ [] := List.ne_nil_of_length_pos (Nat.lt_of_succ_lt several)
      obtain ⟨heights,chunks⟩ := ih level flat filled
      exact ⟨congrArg Nat.succ heights,chunks⟩

omit [Blake3] in
theorem split_inj (same : split one = split other) : one = other := by
  rw [← @split_flatten _ one,same,split_flatten]

theorem chunk_ne_nil (nonempty : bytes ≠ []) : chunk bytes ≠ [] := by
  intro empty
  rw [chunk,List.map_eq_nil_iff] at empty
  apply nonempty
  rw [← @split_flatten _ bytes,empty]
  rfl

theorem chunk_inj (free : CollisionFree one other) (same : chunk one = chunk other) : one = other := by
  refine split_inj (Lists.map_inj_on (fun left here right there equal => ?_) same)
  have pieces := free.apart _ _ (.inl (.data here)) (.inr (.data there)) (congrArg Chunk.hash equal)
  exact congrArg Prod.snd pieces

theorem fileHash_some (nonempty : bytes ≠ []) :
    fileHash (chunk bytes) = Blake3.keyedHash zeroKey (merkleRoot (chunk bytes)).bytes := by
  rw [fileHash,if_neg (chunk_ne_nil nonempty)]

theorem fileHash_none : fileHash (chunk []) = .zero := by
  rw [chunk,split_nil,fileHash]
  exact if_pos rfl

theorem fileHash_inj (free : CollisionFree one other) (same : fileHash (chunk one) = fileHash (chunk other)) : chunk one = chunk other := by
  by_cases first : one = []
  · by_cases second : other = []
    · rw [first,second]
    · rw [first,fileHash_none,fileHash_some second] at same
      exact absurd same.symm (free.nonzero _ (.inr (.file second)))
  · by_cases second : other = []
    · rw [second,fileHash_none,fileHash_some first] at same
      exact absurd same (free.nonzero _ (.inl (.file first)))
    · rw [fileHash_some first,fileHash_some second] at same
      have files := free.apart _ _ (.inl (.file first)) (.inr (.file second)) same
      have roots := FixedBytes.ext (congrArg Prod.snd files)
      obtain ⟨low,left,reached,here⟩ := merkleRoot_level (chunk_ne_nil first)
      obtain ⟨high,right,level,there⟩ := merkleRoot_level (chunk_ne_nil second)
      rw [here,there] at roots
      obtain ⟨rfl,-⟩ := made_inj free (reached.made List.mem_cons_self) (level.made List.mem_cons_self) roots
      exact (level_inj free reached level rfl (List.cons_ne_nil _ _)).2

-- What the loops over one level do, whatever the nodes are.
structure MergesWell (chunks : List Chunk) : Prop where
  inPlace : ∀ nodes, mergeLoop nodes 0 0 = mergeLevel nodes
  shorter : ∀ height nodes, Level chunks height nodes → 1 < nodes.length →
    (mergeLevel nodes).length < nodes.length
  sizes : ∀ height nodes, Level chunks height nodes → ∀ group ∈ (groups nodes).dropLast,
    3 ≤ group.length
  fits : ∀ height nodes, Level chunks height nodes → ∀ group ∈ groups nodes,
    0 < group.length ∧ group.length ≤ maxGroupSize ∧
      (mergeBuffer group).length ≤ maxMergeBufferSize
  ends : chunks ≠ [] → ∃ top root, Level chunks top [root] ∧ merkleRoot chunks = root.hash

omit [Gear] in
theorem mergesWell (chunks : List Chunk) : MergesWell chunks := by
  refine ⟨?_,?_,?_,?_,merkleRoot_level⟩
  · intro nodes
    rw [mergeLoop_eq (Nat.le_refl 0),List.take_zero,List.nil_append,List.drop_zero]
  · intro height nodes level several
    exact mergeLevel_shorter several
  · intro height nodes level
    exact groups_sizes.2
  · intro height nodes level group listed
    obtain ⟨positive,few⟩ := groups_sizes.1 group listed
    exact ⟨positive,few,mergeBuffer_length few⟩

theorem content_id_injective (one other : List UInt8) (free : CollisionFree one other) :
    (hash one = hash other → one = other) ∧ (fileHash (chunk one) = fileHash (chunk other) → chunk one = chunk other) ∧
      (∀ low high nodes, Level (chunk one) low nodes → Level (chunk other) high nodes →
        nodes ≠ [] → low = high ∧ chunk one = chunk other) ∧
      ∀ chunks, MergesWell chunks := by
  refine ⟨?_,fileHash_inj free,?_,mergesWell⟩
  · intro same
    exact chunk_inj free (fileHash_inj free same)
  · intro low high nodes first second nonempty
    exact level_inj free first second rfl nonempty

end Injective

namespace Sample

@[reducible] def blake : Blake3 :=
  ⟨fun key bytes => ⟨bigEndian 32 ((key.bytes ++ bytes.take 256).foldl
    (fun sum byte => (sum * 263 + byte.toNat + 1) % (2^255 - 19)) 7),bigEndian_length _ _⟩⟩

-- A rolling hash that matches after every 65 bytes.
@[reducible] def gear : Gear where
  Hasher := Unit
  default := ()
  nextMatch hasher bytes _ := (hasher, if 65 ≤ bytes.length then some 65 else none)
  consumes := by
    intro hasher bytes mask consumed matched
    split at matched
    · cases matched
      omega
    · cases matched

attribute [local instance] blake gear

def zeros : List UInt8 := List.replicate minChunkSize 0

def file (last : UInt8) : List UInt8 := zeros ++ [last]

theorem zeros_length : zeros.length = 8192 := List.length_replicate

theorem boundary_matched (room : cursor + 65 ≤ window.length) (large : minChunkSize ≤ cursor + 65) :
    boundary window Gear.default cursor = cursor + 65 := by
  have found : (Gear.nextMatch Gear.default (window.drop cursor) chunkBoundaryMask).2 = some 65 :=
    if_pos (by rw [List.length_drop]; omega)
  rw [boundary]
  split
  · rename_i nothing
    rw [found] at nothing
    cases nothing
  · rename_i consumed matched
    cases found.symm.trans matched
    exact if_pos large

theorem boundary_ended (short : window.length < cursor + 65) : boundary window Gear.default cursor = window.length := by
  have found : (Gear.nextMatch Gear.default (window.drop cursor) chunkBoundaryMask).2 = none :=
    if_neg (by rw [List.length_drop]; omega)
  rw [boundary]
  split
  · rfl
  · rename_i consumed matched
    cases found.symm.trans matched

theorem split_file (last : UInt8) : split (file last) = [zeros,[last]] := by
  have length : (file last).length = 8193 := by
    rw [file,List.length_append,zeros_length]
    rfl
  have whole : (file last).take maxChunkSize = file last := List.take_of_length_le (by rw [length]; decide)
  have first : boundary (file last) Gear.default (min initialSkip (file last).length) = 8192 := by
    rw [length]
    exact boundary_matched (by rw [length]; decide) (by decide)
  have second : boundary ([last].take maxChunkSize) Gear.default (min initialSkip ([last].take maxChunkSize).length) = 1 :=
    boundary_ended (by show 1 < 1 + 65; decide)
  rw [split,if_neg (List.ne_nil_of_length_pos (by omega)),whole,first,file,List.take_left' zeros_length,List.drop_left' zeros_length,
    split,if_neg (List.cons_ne_nil _ _),second]
  exact congrArg (fun rest => [zeros,[last]] ++ rest) split_nil

def first : Chunk := ⟨chunkHash zeros,8192⟩

theorem chunk_file (last : UInt8) : chunk (file last) = [first,leaf [last]] := by
  rw [chunk,split_file,List.map_cons,List.map_singleton,leaf,zeros_length]
  rfl

variable {left right : Chunk}

theorem groups_pair : groups [left,right] = [[left,right]] := by
  rw [groups_cons (List.cons_ne_nil _ _)]
  exact congrArg (List.cons _) (by rw [groups]; rfl)

theorem mergeLevel_pair : mergeLevel [left,right] = [merge [left,right]] := by
  rw [mergeLevel,groups_pair]
  rfl

theorem level_pair (level : Level [left,right] height nodes) : nodes = [left,right] ∨ nodes = [merge [left,right]] := by
  induction level with
  | base => exact .inl rfl
  | up below several same =>
    rcases same with rfl | rfl
    · exact .inr mergeLevel_pair
    · exact absurd several (Nat.lt_irrefl 1)

def inputs (last : UInt8) : List (FixedBytes 32 × List UInt8) :=
  [(dataKey, zeros),(dataKey, [last]),(internalNodeKey, mergeBuffer [first,leaf [last]]),
    (zeroKey, (merge [first,leaf [last]]).hash.bytes)]

theorem preimage_file (made : Preimage (file last) input) : input ∈ inputs last := by
  cases made with
  | data listed =>
    rw [split_file,List.mem_cons,List.mem_singleton] at listed
    rcases listed with rfl | rfl
    · simp [inputs]
    · simp [inputs]
  | node level several listed =>
    rw [chunk_file] at level
    rcases level_pair level with rfl | rfl
    · rw [groups_pair,List.mem_singleton] at listed
      simp [inputs,listed]
    · exact absurd several (Nat.lt_irrefl 1)
  | file _ =>
    have raised : raiseLoop [first,leaf [last]] = [merge [first,leaf [last]]] := by
      rw [raiseLoop_step (show 1 < [first,leaf [last]].length from Nat.lt_succ_self 1),mergeLevel_pair]
      exact raiseLoop_single (Nat.lt_irrefl 1)
    rw [chunk_file,merkleRoot,raised]
    simp [inputs]

theorem files_collisionFree : CollisionFree (file 1) (file 2) := by
  have listed (input : FixedBytes 32 × List UInt8) (made : Preimage (file 1) input ∨ Preimage (file 2) input) :
      input ∈ inputs 1 ++ (inputs 2).tail := by
    rcases made with one | other
    · exact List.mem_append_left _ (preimage_file one)
    · have found := preimage_file other
      rw [inputs,List.mem_cons] at found
      rcases found with rfl | later
      · exact List.mem_append_left _ List.mem_cons_self
      · exact List.mem_append_right _ later
  have apart : ((inputs 1 ++ (inputs 2).tail).map fun input => Blake3.keyedHash input.1 input.2).Nodup := by decide +kernel
  have nonzero : ∀ digest ∈ (inputs 1 ++ (inputs 2).tail).map fun input => Blake3.keyedHash input.1 input.2, digest ≠ .zero := by
    decide +kernel
  exact ⟨fun left right one other => List.inj_on_of_nodup_map apart (listed left one) (listed right other),
    fun input made => nonzero _ (List.mem_map_of_mem (listed input made))⟩

theorem content_id_injective_chunks : CollisionFree (file 1) (file 2) ∧ (chunk (file 1)).length = 2 ∧ hash (file 1) ≠ hash (file 2) := by
  refine ⟨files_collisionFree,by rw [chunk_file]; rfl,fun same => ?_⟩
  have equal := (content_id_injective (file 1) (file 2) files_collisionFree).1 same
  exact absurd (List.append_cancel_left equal) (by decide)

end Sample

end Hellas.Content
