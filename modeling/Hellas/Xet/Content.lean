import Hellas.Kernel.Primitive
import Hellas.Lib.Text

-- Content ids: a file is cut into chunks, and the chunks are merged level by level into one root.

namespace Hellas.Content

open Kernel Words

abbrev XetHash := FixedBytes 32

-- Keyed BLAKE3 and the Gear rolling hash are libraries outside the repository.
class Blake3 where
  keyedHash : FixedBytes 32 → List UInt8 → XetHash

-- A match consumes at least one byte of what it was given, and no more than all of it.
class Gear where
  Hasher : Type
  default : Hasher
  nextMatch : Hasher → List UInt8 → UInt64 → Hasher × Option Nat
  consumes : ∀ hasher bytes mask consumed, (nextMatch hasher bytes mask).2 = some consumed →
    0 < consumed ∧ consumed ≤ bytes.length

def dataKey : FixedBytes 32 :=
  ⟨[102,151,245,119,91,149,80,222,49,53,203,172,165,151,24,28,157,228,33,16,155,235,43,88,180,208,176,75,147,173,242,41],rfl⟩

def internalNodeKey : FixedBytes 32 :=
  ⟨[1,126,197,199,165,71,41,150,253,148,102,102,180,138,2,230,93,221,83,111,55,199,109,210,248,99,82,230,74,83,113,63],rfl⟩

def zeroKey : FixedBytes 32 := ⟨List.replicate 32 0,rfl⟩

def XetHash.zero : XetHash := zeroKey

def minChunkSize : Nat := 8 * 1024
def maxChunkSize : Nat := 128 * 1024
def chunkBoundaryMask : UInt64 := 0xffff000000000000
def hashWindowSize : Nat := 64
def initialSkip : Nat := minChunkSize - hashWindowSize - 1
def treeBranchingFactor : Nat := 4
def maxGroupSize : Nat := 2 * treeBranchingFactor + 1
def maxEntrySize : Nat := 64 + 3 + 20 + 1
def maxMergeBufferSize : Nat := maxGroupSize * maxEntrySize

structure Chunk where
  hash : XetHash
  dataLen : UInt64
  deriving DecidableEq

def naturalCutValue (hash : XetHash) : Nat := fromBigEndian (hash.bytes.drop 24).reverse

section Chunking

variable [Gear]

-- Matches before the smallest chunk are passed over.
def boundary (window : List UInt8) (hasher : Gear.Hasher) (cursor : Nat) : Nat :=
  match _found : (Gear.nextMatch hasher (window.drop cursor) chunkBoundaryMask).2 with
  | none => window.length
  | some consumed =>
    if minChunkSize ≤ cursor + consumed then cursor + consumed
    else boundary window (Gear.nextMatch hasher (window.drop cursor) chunkBoundaryMask).1
      (cursor + consumed)
termination_by window.length - cursor
decreasing_by
  have step := Gear.consumes _ _ _ _ _found
  rw [List.length_drop] at step
  omega

theorem boundary_bounds {window : List UInt8} {hasher : Gear.Hasher} {cursor : Nat} (nonempty : window ≠ []) :
    0 < boundary window hasher cursor ∧ boundary window hasher cursor ≤ window.length := by
  fun_induction boundary window hasher cursor with
  | case1 hasher cursor found => exact ⟨List.length_pos_of_ne_nil nonempty,Nat.le_refl _⟩
  | case2 hasher cursor consumed found large =>
    have step := Gear.consumes _ _ _ _ found
    rw [List.length_drop] at step
    omega
  | case3 hasher cursor consumed found small ih => exact ih

-- The pieces of a file, each at most the largest chunk.
def split (bytes : List UInt8) : List (List UInt8) :=
  if bytes = [] then []
  else
    bytes.take (boundary (bytes.take maxChunkSize) Gear.default (min initialSkip (bytes.take maxChunkSize).length)) ::
    split (bytes.drop (boundary (bytes.take maxChunkSize) Gear.default (min initialSkip (bytes.take maxChunkSize).length)))
termination_by bytes.length
decreasing_by
  rename_i nonempty
  have window : bytes.take maxChunkSize ≠ [] := by
    rw [Ne,List.take_eq_nil_iff]
    exact not_or.mpr ⟨by decide,nonempty⟩
  have positive := (@boundary_bounds _ _ Gear.default (min initialSkip (bytes.take maxChunkSize).length) window).1
  have length := List.length_pos_of_ne_nil nonempty
  rw [List.length_drop]
  omega

theorem split_flatten {bytes : List UInt8} : (split bytes).flatten = bytes := by
  fun_induction split bytes with
  | case1 => rfl
  | case2 bytes some ih => rw [List.flatten_cons,ih,List.take_append_drop]

theorem split_nil : split [] = [] := by
  rw [split,if_pos rfl]

-- Only the end of what is left can be cut before the smallest chunk is full.
theorem boundary_large {window : List UInt8} {hasher : Gear.Hasher} {cursor : Nat} :
    boundary window hasher cursor = window.length ∨ minChunkSize ≤ boundary window hasher cursor := by
  fun_induction boundary window hasher cursor with
  | case1 => exact .inl rfl
  | case2 hasher cursor consumed found large => exact .inr large
  | case3 hasher cursor consumed found small ih => exact ih

theorem split_step {bytes : List UInt8} (nonempty : bytes ≠ []) : ∃ cut, 0 < cut ∧ cut ≤ bytes.length ∧ cut ≤ maxChunkSize ∧
    (cut = bytes.length ∨ minChunkSize ≤ cut) ∧ split bytes = bytes.take cut :: split (bytes.drop cut) := by
  have window : bytes.take maxChunkSize ≠ [] := by
    rw [Ne,List.take_eq_nil_iff]
    exact not_or.mpr ⟨by decide,nonempty⟩
  have bounds := @boundary_bounds _ _ Gear.default (min initialSkip (bytes.take maxChunkSize).length) window
  have large := @boundary_large _ (bytes.take maxChunkSize) Gear.default (min initialSkip (bytes.take maxChunkSize).length)
  have length := @List.length_take _ maxChunkSize bytes
  have ordered : minChunkSize ≤ maxChunkSize := by decide
  exact ⟨_,bounds.1,by omega,by omega,by omega,by rw [split,if_neg nonempty]⟩

-- The pieces keep to the two sizes, but for the last, which may be short; so a file shorter than the
-- smallest chunk is one piece.
theorem chunks_sized (bytes : List UInt8) :
    (∀ piece ∈ split bytes, 0 < piece.length ∧ piece.length ≤ maxChunkSize) ∧
    (∀ piece ∈ (split bytes).dropLast, minChunkSize ≤ piece.length) ∧
    (split bytes).length ≤ bytes.length / minChunkSize + 1 ∧
    (bytes ≠ [] → bytes.length < minChunkSize → split bytes = [bytes]) := by
  induction size : bytes.length using Nat.strong_induction_on generalizing bytes with
  | _ _ ih =>
    by_cases empty : bytes = []
    · subst empty
      simp [split_nil]
    · obtain ⟨cut,positive,within,small,ends,same⟩ := split_step empty
      obtain ⟨sized,full,count,-⟩ := ih _ (by omega) (bytes.drop cut) List.length_drop
      have length : (bytes.take cut).length = cut := by simp [within]
      rcases ends with whole | large
      · have one : split bytes = [bytes] := by rw [same,whole,List.take_length,List.drop_length,split_nil]
        simp [one]
        omega
      · rw [same]
        refine ⟨?_,?_,?_,fun _ short => by omega⟩
        · rintro piece (_ | ⟨_,later⟩)
          · omega
          · exact sized piece later
        · intro piece inside
          cases rest : split (bytes.drop cut) with
          | nil => simp [rest] at inside
          | cons next others =>
            rw [rest,List.dropLast_cons_cons,List.mem_cons] at inside
            rcases inside with rfl | later
            · omega
            · exact full piece (rest ▸ later)
        · rw [List.length_cons]
          unfold minChunkSize at *
          omega

variable [Blake3]

def chunkHash (bytes : List UInt8) : XetHash := Blake3.keyedHash dataKey bytes

def leaf (data : List UInt8) : Chunk := ⟨chunkHash data,UInt64.ofNat data.length⟩

def chunk (bytes : List UInt8) : List Chunk := (split bytes).map leaf

end Chunking

section Merging

-- A cut after the third or a later child that ends naturally; nine children at most.
def nextMergeCut (nodes : List Chunk) : Nat :=
  if nodes.length ≤ 2 then nodes.length
  else
    match ((nodes.take (min nodes.length maxGroupSize)).drop 2).findIdx? fun node =>
      naturalCutValue node.hash % treeBranchingFactor = 0 with
    | some index => index + 2 + 1
    | none => min nodes.length maxGroupSize

theorem nextMergeCut_bounds {nodes : List Chunk} :
    nextMergeCut nodes ≤ nodes.length ∧ nextMergeCut nodes ≤ maxGroupSize ∧ (nodes ≠ [] → 0 < nextMergeCut nodes) ∧
      (nextMergeCut nodes < 3 → nextMergeCut nodes = nodes.length) := by
  unfold nextMergeCut
  have positive : nodes ≠ [] → 0 < nodes.length := List.length_pos_of_ne_nil
  split
  · rename_i few
    refine ⟨Nat.le_refl _,Nat.le_trans few (by decide),positive,fun _ => rfl⟩
  · rename_i many
    have group : maxGroupSize = 9 := rfl
    split
    · rename_i index found
      obtain ⟨low,-⟩ := List.findIdx?_eq_some_iff_getElem.mp found
      rw [List.length_drop,List.length_take] at low
      omega
    · omega

def groups (nodes : List Chunk) : List (List Chunk) :=
  if nodes = [] then []
  else nodes.take (nextMergeCut nodes) :: groups (nodes.drop (nextMergeCut nodes))
termination_by nodes.length
decreasing_by
  rename_i nonempty
  have positive := nextMergeCut_bounds.2.2.1 nonempty
  have length := List.length_pos_of_ne_nil nonempty
  rw [List.length_drop]
  omega

variable {nodes : List Chunk}

theorem groups_cons (nonempty : nodes ≠ []) : groups nodes = nodes.take (nextMergeCut nodes) :: groups (nodes.drop (nextMergeCut nodes)) := by
  rw [groups,if_neg nonempty]

theorem groups_flatten : (groups nodes).flatten = nodes := by
  fun_induction groups nodes with
  | case1 => rfl
  | case2 nodes some ih => rw [List.flatten_cons,ih,List.take_append_drop]

theorem groups_sizes :
    (∀ group ∈ groups nodes, 0 < group.length ∧ group.length ≤ maxGroupSize) ∧ ∀ group ∈ (groups nodes).dropLast, 3 ≤ group.length := by
  fun_induction groups nodes with
  | case1 => simp
  | case2 nodes some ih =>
    obtain ⟨within,atMost,positive,short⟩ := @nextMergeCut_bounds nodes
    have size : (nodes.take (nextMergeCut nodes)).length = nextMergeCut nodes := by
      rw [List.length_take,Nat.min_eq_left within]
    refine ⟨List.forall_mem_cons.mpr ⟨?_,ih.1⟩,?_⟩
    · rw [size]
      exact ⟨positive some,atMost⟩
    · cases rest : groups (nodes.drop (nextMergeCut nodes)) with
      | nil => simp
      | cons next later =>
        rw [rest] at ih
        rw [List.dropLast_cons_cons,List.forall_mem_cons]
        refine ⟨?_,ih.2⟩
        by_contra few
        rw [size,Nat.not_le] at few
        have nothing : nodes.drop (nextMergeCut nodes) = [] := List.drop_eq_nil_of_le (Nat.le_of_eq (short few).symm)
        rw [nothing,groups,if_pos rfl] at rest
        cases rest

theorem groups_thirds {nodes : List Chunk} : 3 * (groups nodes).length ≤ nodes.length + 2 := by
  fun_induction groups nodes with
  | case1 => exact Nat.zero_le _
  | case2 nodes some ih =>
    obtain ⟨within,-,positive,short⟩ := @nextMergeCut_bounds nodes
    have enough := positive some
    rw [List.length_drop] at ih
    rw [List.length_cons]
    by_cases few : nextMergeCut nodes < 3
    · have nothing : nodes.drop (nextMergeCut nodes) = [] :=
        List.drop_eq_nil_of_le (Nat.le_of_eq (short few).symm)
      rw [nothing,groups,if_pos rfl,List.length_nil]
      omega
    · omega

theorem groups_shorter (several : 1 < nodes.length) : (groups nodes).length < nodes.length := by
  have thirds := @groups_thirds nodes
  omega

def limbs : Nat → List UInt8 → List (List UInt8)
  | 0, _ => []
  | count + 1, bytes => bytes.take 8 :: limbs count (bytes.drop 8)

-- Four limbs, each printed with its most significant byte first.
def writeHash (hash : XetHash) : List UInt8 := (limbs 4 hash.bytes).flatMap fun limb => limb.reverse.flatMap Text.hexByte

def entry (node : Chunk) : List UInt8 := writeHash node.hash ++ (bytesOf " : " ++ (Text.decimal node.dataLen.toNat ++ [10]))

def mergeBuffer (nodes : List Chunk) : List UInt8 := nodes.flatMap entry

def totalLen (nodes : List Chunk) : UInt64 := nodes.foldl (fun sum node => sum + node.dataLen) 0

variable [Blake3]

def merge (nodes : List Chunk) : Chunk := ⟨Blake3.keyedHash internalNodeKey (mergeBuffer nodes),totalLen nodes⟩

-- One level, merged in place: the nodes written so far stand before those still to be read.
def mergeLoop (nodes : List Chunk) (read write : Nat) : List Chunk :=
  if read < nodes.length then
    mergeLoop (nodes.set write (merge ((nodes.take (read + nextMergeCut (nodes.drop read))).drop
      read))) (read + nextMergeCut (nodes.drop read)) (write + 1)
  else nodes.take write
termination_by nodes.length - read
decreasing_by
  rename_i more
  have nonempty : nodes.drop read ≠ [] := by
    rw [Ne,List.drop_eq_nil_iff]
    omega
  have positive := nextMergeCut_bounds.2.2.1 nonempty
  rw [List.length_set]
  omega

def mergeLevel (nodes : List Chunk) : List Chunk := (groups nodes).map merge

theorem mergeLoop_eq {read write : Nat} (behind : write ≤ read) :
    mergeLoop nodes read write = nodes.take write ++ mergeLevel (nodes.drop read) := by
  fun_induction mergeLoop nodes read write with
  | case1 nodes read write more ih =>
    have nonempty : nodes.drop read ≠ [] := by
      rw [Ne,List.drop_eq_nil_iff]
      omega
    have positive := nextMergeCut_bounds.2.2.1 nonempty
    rw [ih (by omega),List.drop_set_of_lt (by omega),List.take_succ_eq_append_getElem
      (by rw [List.length_set]; omega),List.getElem_set_self,List.take_set_of_le (Nat.le_refl _),
      mergeLevel,mergeLevel,groups_cons nonempty,List.map_cons,List.append_assoc,
      List.singleton_append,List.drop_take,Nat.add_sub_cancel_left,List.drop_drop]
  | case2 nodes read write done =>
    rw [List.drop_eq_nil_of_le (Nat.le_of_not_lt done),mergeLevel,groups,if_pos rfl,List.map_nil,List.append_nil]

theorem mergeLoop_shorter (several : 1 < nodes.length) : (mergeLoop nodes 0 0).length < nodes.length := by
  rw [mergeLoop_eq (Nat.le_refl 0),List.take_zero,List.nil_append,List.drop_zero,mergeLevel,List.length_map]
  exact groups_shorter several

-- Level after level, until one node is left.
def raiseLoop (nodes : List Chunk) : List Chunk :=
  if 1 < nodes.length then raiseLoop (mergeLoop nodes 0 0) else nodes
termination_by nodes.length
decreasing_by
  rename_i several
  exact mergeLoop_shorter several

def merkleRoot (chunks : List Chunk) : XetHash :=
  match raiseLoop chunks with
  | [] => .zero
  | root :: _ => root.hash

def fileHash (chunks : List Chunk) : XetHash :=
  if chunks = [] then .zero else Blake3.keyedHash zeroKey (merkleRoot chunks).bytes

def hash [Gear] (bytes : List UInt8) : XetHash := fileHash (chunk bytes)

end Merging

end Hellas.Content
