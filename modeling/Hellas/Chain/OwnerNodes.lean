import Hellas.Chain.OwnerProof

-- What the owner tree's encodings read back to, and what its sums come to when they fit.

namespace Hellas.Chain

open Guard Kernel Words

structure OwnerCommitment.Well (commit : OwnerCommitment) : Prop where
  vacant : commit.count = 0 ↔ commit.hash = zeroDigest
  unfunded : commit.count = 0 → commit.balance = 0

theorem OwnerCommitment.none_well : OwnerCommitment.none.Well := ⟨by simp [none],fun _ => rfl⟩

variable {commit left right : OwnerCommitment} {leaf : OwnerLeaf}

theorem OwnerCommitment.Well.eq_none (well : commit.Well) (empty : commit.count = 0) : commit = .none := by
  have hash := well.vacant.mp empty
  have balance := well.unfunded empty
  cases commit
  simp only at empty hash balance
  rw [empty,hash,balance]
  rfl

@[simp] theorem writeCommit_length : (writeCommit commit).length = 56 := by
  simp [writeCommit,commit.hash.length_eq,FixedSize.size]

theorem read_balance {balance : BitVec 128} : fromBigEndian (bigEndian 16 balance.toNat) = balance.toNat := by
  rw [fromBigEndian_bigEndian]
  exact Nat.mod_eq_of_lt balance.isLt

theorem read_word : UInt64.ofNat (fromBigEndian (encode word)) = word := by
  change UInt64.ofNat (fromBigEndian (bigEndian 8 word.toNat)) = word
  have small : word.toNat % 256 ^ 8 = word.toNat := Nat.mod_eq_of_lt word.toNat_lt
  rw [fromBigEndian_bigEndian,small,UInt64.ofNat_toNat]

theorem writeCommit_inj : writeCommit left = writeCommit right ↔ left = right := by
  constructor
  · intro same
    unfold writeCommit at same
    obtain ⟨hash,rest⟩ := List.append_inj same (by rw [left.hash.length_eq,right.hash.length_eq])
    obtain ⟨count,balance⟩ := encode_cancel.mp rest
    have value := congrArg fromBigEndian balance
    rw [read_balance,read_balance] at value
    cases left
    cases right
    simp only at hash count value
    rw [FixedBytes.ext hash,count,BitVec.eq_of_toNat_eq value]
  · intro same
    rw [same]

theorem ofBytes_writeCommit : OwnerCommitment.ofBytes (writeCommit commit) writeCommit_length = commit := by
  have word : (encode commit.count).length = 8 := bigEndian_length 8 _
  have hash : (writeCommit commit).take 32 = commit.hash.bytes := List.take_left' commit.hash.length_eq
  have rest : (writeCommit commit).drop 32 = encode commit.count ++ bigEndian 16 commit.balance.toNat :=
    List.drop_left' commit.hash.length_eq
  have count : ((writeCommit commit).drop 32).take 8 = encode commit.count := by
    rw [rest,List.take_left' word]
  have balance : ((writeCommit commit).drop 40).take 16 = bigEndian 16 commit.balance.toNat := by
    have later : (writeCommit commit).drop 40 = ((writeCommit commit).drop 32).drop 8 := by
      rw [List.drop_drop]
    rw [later,rest,List.drop_left' word,List.take_of_length_le (by simp)]
  simp only [OwnerCommitment.ofBytes,hash,count,balance,read_word,read_balance,BitVec.ofNat_toNat,BitVec.setWidth_eq]

theorem readCommit_writeCommit : readCommit (writeCommit commit) = .ok result ↔ commit.Well ∧ commit = result := by
  unfold readCommit
  rw [dif_pos writeCommit_length]
  simp only [ofBytes_writeCommit]
  split
  · rename_i refused
    simp only [reduceCtorEq,false_iff,not_and]
    intro well
    rcases refused with mixed | funded
    · exact absurd well.vacant mixed
    · exact absurd (well.unfunded funded.1) funded.2
  · rename_i accepted
    rw [not_or,not_not,not_and,not_not] at accepted
    simp only [Except.ok.injEq]
    exact ⟨fun same => ⟨⟨accepted.1,accepted.2⟩,same⟩,fun found => found.2⟩

theorem padNode_bytes {bytes : List UInt8} (short : bytes.length ≤ ownerNodeBytes) :
    (padNode bytes).bytes = bytes ++ List.replicate (ownerNodeBytes - bytes.length) 0 := by
  change (bytes ++ List.replicate ownerNodeBytes 0).take ownerNodeBytes = _
  rw [List.take_append,List.take_of_length_le short,List.take_replicate]
  congr 2
  omega

@[simp] theorem body_length :
    leaf.body.length = match leaf with | .summary _ => 57 | .holding _ _ => 10 := by
  cases leaf with
  | summary root => simp [OwnerLeaf.body]
  | holding kind balance => simp [OwnerLeaf.body,FixedSize.size]

def OwnerLeaf.Well : OwnerLeaf → Prop
  | .summary root => root.Well
  | .holding _ _ => True

theorem decodeLeaf_encodeLeaf (well : leaf.Well) : decodeLeaf (some (encodeLeaf leaf)) = .ok (some leaf) := by
  cases leaf with
  | summary root =>
    have read := readCommit_writeCommit.mpr ⟨well,rfl⟩
    have bytes : (encodeLeaf (.summary root)).bytes = 1 :: (writeCommit root ++ _) := padNode_bytes (by simp [ownerNodeBytes])
    have body : ((encodeLeaf (.summary root)).bytes.drop 1).take 56 = writeCommit root := by
      rw [bytes,List.drop_succ_cons,List.drop_zero,List.take_left' writeCommit_length]
    have zeros : ((encodeLeaf (.summary root)).bytes.drop 57).all (· == 0) = true := by
      rw [bytes,List.drop_succ_cons,List.drop_left' writeCommit_length]
      simp
    rw [decodeLeaf]
    simp only [body,read,zeros]
    rw [bytes]
    rfl
  | holding kind balance =>
    have bytes : (encodeLeaf (.holding kind balance)).bytes = 2 :: kind :: (encode balance ++ _) := padNode_bytes (by simp [ownerNodeBytes])
    have word : (encode balance).length = 8 := bigEndian_length 8 _
    have body : ((encodeLeaf (.holding kind balance)).bytes.drop 2).take 8 = encode balance := by
      rw [bytes,List.drop_succ_cons,List.drop_succ_cons,List.drop_zero,List.take_left' word]
    have zeros : ((encodeLeaf (.holding kind balance)).bytes.drop 10).all (· == 0) = true := by
      rw [bytes,List.drop_succ_cons,List.drop_succ_cons,List.drop_left' word]
      simp
    rw [decodeLeaf]
    simp only [body,zeros,read_word]
    rw [bytes]
    rfl

theorem branch_encodeBranch (leftWell : left.Well) (rightWell : right.Well) :
    branch (encodeBranch left right) = .ok (left, right) := by
  unfold encodeBranch
  split
  · rename_i empty
    rw [leftWell.eq_none empty.1,rightWell.eq_none empty.2]
    rfl
  · obtain ⟨spare,bytes⟩ : ∃ spare, (padNode (0 :: (writeCommit left ++ writeCommit right))).bytes =
        0 :: (writeCommit left ++ (writeCommit right ++ List.replicate spare 0)) := by
      have padded := @padNode_bytes (0 :: (writeCommit left ++ writeCommit right)) (by simp [ownerNodeBytes])
      rw [padded,List.cons_append,List.append_assoc]
      exact ⟨_,rfl⟩
    have first : (((padNode (0 :: (writeCommit left ++ writeCommit right))).bytes.drop 1).take 56) = writeCommit left := by
      rw [bytes,List.drop_succ_cons,List.drop_zero,List.take_left' writeCommit_length]
    have second : (((padNode (0 :: (writeCommit left ++ writeCommit right))).bytes.drop 57).take 56) = writeCommit right := by
      rw [bytes,List.drop_succ_cons,List.drop_left' writeCommit_length,List.take_left' writeCommit_length]
    have zeros : ((padNode (0 :: (writeCommit left ++ writeCommit right))).bytes.drop 113).any (· != 0) = false := by
      have later : (113 : Nat) = 1 + (56 + 56) := rfl
      rw [bytes,later,← List.drop_drop,← List.drop_drop,List.drop_succ_cons,List.drop_zero,
        List.drop_left' writeCommit_length,List.drop_left' writeCommit_length]
      simp
    have read (commit : OwnerCommitment) (well : commit.Well) :
        readCommit (writeCommit commit) = .ok commit := readCommit_writeCommit.mpr ⟨well,rfl⟩
    rw [branch]
    simp only [first,second,zeros,read left leftWell,read right rightWell]
    rw [bytes]
    rfl

section Sums

variable [Sha256]

structure Fits (left right : OwnerCommitment) : Prop where
  count : left.count.toNat + right.count.toNat < 2^64
  balance : left.balance.toNat + right.balance.toNat < 2^128

def merge (left right : OwnerCommitment) : OwnerCommitment :=
  if left.count + right.count = 0 then .none
  else ⟨Sha256.hash (branchBytes left right),left.count + right.count,left.balance + right.balance⟩

variable {left right : OwnerCommitment}

theorem combine_exact : combine left right = .ok result ↔ Fits left right ∧ merge left right = result := by
  unfold combine merge checkedAdd checkedAdd128
  by_cases counted : left.count.toNat + right.count.toNat < 2^64
  · by_cases funded : left.balance.toNat + right.balance.toNat < 2^128
    · have fits : Fits left right := ⟨counted,funded⟩
      rw [if_pos counted,if_pos funded]
      simp only [bind_ok,okOr_ok,Option.some.injEq]
      constructor
      · rintro ⟨count,rfl,balance,rfl,found⟩
        refine ⟨fits,?_⟩
        split at found
        · rename_i empty
          rw [if_pos empty]
          exact pure_ok.mp found
        · rename_i occupied
          rw [if_neg occupied]
          exact pure_ok.mp found
      · rintro ⟨-,found⟩
        refine ⟨_,rfl,_,rfl,?_⟩
        rw [← found]
        split <;> rfl
    · have misfit : ¬Fits left right := fun fits => funded fits.balance
      rw [if_pos counted,if_neg funded]
      simp [bind_ok,misfit]
  · have misfit : ¬Fits left right := fun fits => counted fits.count
    rw [if_neg counted]
    simp [bind_ok,misfit]

theorem merge_count (fits : Fits left right) :
    (merge left right).count.toNat = left.count.toNat + right.count.toNat := by
  have sum : (left.count + right.count).toNat = left.count.toNat + right.count.toNat := by
    rw [UInt64.toNat_add,Nat.mod_eq_of_lt fits.count]
  unfold merge
  split
  · rename_i empty
    rw [empty] at sum
    exact sum
  · exact sum

theorem merge_balance (fits : Fits left right) (leftWell : left.Well) (rightWell : right.Well) :
    (merge left right).balance.toNat = left.balance.toNat + right.balance.toNat := by
  unfold merge
  split
  · rename_i empty
    have sum : (left.count + right.count).toNat = left.count.toNat + right.count.toNat := by
      rw [UInt64.toNat_add,Nat.mod_eq_of_lt fits.count]
    rw [empty,UInt64.toNat_zero] at sum
    have first : left.count = 0 := by rw [← UInt64.toNat_inj,UInt64.toNat_zero]; omega
    have second : right.count = 0 := by rw [← UInt64.toNat_inj,UInt64.toNat_zero]; omega
    rw [leftWell.unfunded first,rightWell.unfunded second]
    rfl
  · simp only [BitVec.toNat_add,Nat.mod_eq_of_lt fits.balance]

theorem merge_well {left right : OwnerCommitment} (lively : ∀ bytes, Sha256.hash bytes ≠ zeroDigest) :
    (merge left right).Well := by
  unfold merge
  split
  · exact OwnerCommitment.none_well
  · rename_i occupied
    exact ⟨⟨fun empty => absurd empty occupied,fun zero => absurd zero (lively _)⟩,
      fun empty => absurd empty occupied⟩

end Sums

section Keys

def keyBits (key : Digest) : List Bool := Bits.bits key.bytes

def bitsKey (path : List Bool) : Digest := ⟨Bits.pack 32 ((path ++ List.replicate 256 false).take 256),Bits.pack_length⟩

@[simp] theorem keyBits_length {key : Digest} : (keyBits key).length = 256 := by
  rw [keyBits,Bits.bits_length,key.length_eq]

variable {left right key : Digest} {path : List Bool} {depth : Nat}

theorem keyBits_inj : keyBits left = keyBits right ↔ left = right := by
  unfold keyBits
  rw [Bits.bits_inj (by rw [left.length_eq,right.length_eq])]
  exact ⟨FixedBytes.ext,fun same => by rw [same]⟩

theorem keyBits_lt : keyBits left < keyBits right ↔ left.bytes < right.bytes := Bits.bits_lt (by rw [left.length_eq,right.length_eq])

theorem padded_length : ((path ++ List.replicate 256 false).take 256).length = 256 := by
  rw [List.length_take,List.length_append,List.length_replicate]
  omega

theorem keyBits_bitsKey : keyBits (bitsKey path) = (path ++ List.replicate 256 false).take 256 := Bits.bits_pack padded_length

@[simp] theorem bitsKey_keyBits : bitsKey (keyBits key) = key := by
  rw [← keyBits_inj,keyBits_bitsKey,List.take_left' keyBits_length]

theorem keyBits_bitsKey_whole (whole : path.length = 256) : keyBits (bitsKey path) = path := by
  rw [keyBits_bitsKey,List.take_left' whole]

theorem keyBits_get {key : Digest} {depth : Nat} (inside : depth < 256) :
    (keyBits key)[depth]? = some (bit key depth) :=
  Bits.bits_get (by rw [key.length_eq]; exact inside)

theorem keyBits_succ (inside : depth < 256) :
    (keyBits key).take (depth + 1) = (keyBits key).take depth ++ [bit key depth] := by
  rw [List.take_add_one,keyBits_get inside]
  rfl

theorem keyBits_drop (inside : depth < 256) :
    (keyBits key).drop depth = bit key depth :: (keyBits key).drop (depth + 1) := by
  have found := List.drop_eq_getElem_cons (l := keyBits key) (i := depth) (by simpa using inside)
  have here := @keyBits_get key depth inside
  rw [List.getElem?_eq_getElem (by simpa using inside),Option.some.injEq] at here
  rw [found,here]

theorem bit_cleared :
    bit ((List.range' depth count).foldl clearBit key) other = (bit key other && !decide (depth ≤ other ∧ other < depth + count)) := by
  induction count generalizing key depth with
  | zero =>
    have nowhere : ¬(depth ≤ other ∧ other < depth + 0) := by omega
    rw [decide_eq_false nowhere,Bool.not_false,Bool.and_true]
    rfl
  | succ count ih =>
    have cleared : bit (clearBit key depth) other = (bit key other && !decide (depth = other)) := Bits.bit_clearBit
    have place : (depth ≤ other ∧ other < depth + (count + 1)) ↔ depth = other ∨ (depth + 1 ≤ other ∧ other < depth + 1 + count) := by omega
    rw [List.range'_succ,List.foldl_cons,ih,cleared]
    simp only [place,Bool.decide_or,Bool.not_or,Bool.and_assoc]

theorem keyPrefix_bits (inside : depth ≤ 256) : keyPrefix key depth = bitsKey ((keyBits key).take depth) := by
  have taken : ((keyBits key).take depth).length = depth := by simpa using inside
  rw [← keyBits_inj,keyBits_bitsKey]
  apply List.ext_getElem?
  intro other
  by_cases here : other < 256
  · rw [keyBits_get here,keyPrefix,bit_cleared,List.getElem?_take,if_pos here]
    by_cases low : other < depth
    · have kept : ¬(depth ≤ other ∧ other < depth + (256 - depth)) := by omega
      rw [List.getElem?_append_left (by omega),List.getElem?_take,if_pos low,keyBits_get here]
      simp [kept]
    · have gone : depth ≤ other ∧ other < depth + (256 - depth) := by omega
      rw [List.getElem?_append_right (by omega),taken,List.getElem?_replicate,
        if_pos (by omega)]
      simp [gone]
  · rw [List.getElem?_eq_none (by rw [keyBits_length]; omega),
      List.getElem?_eq_none (by rw [padded_length]; omega)]

theorem bitsKey_low (short : path.length < 256) : bitsKey (path ++ [false]) = bitsKey path := by
  rw [← keyBits_inj,keyBits_bitsKey,keyBits_bitsKey,List.append_assoc,List.singleton_append,← List.replicate_succ]
  have more : List.replicate (256 + 1) false = List.replicate 256 false ++ [false] := List.replicate_succ'
  rw [more,← List.append_assoc,List.take_append_of_le_length]
  rw [List.length_append,List.length_replicate]
  omega

theorem bitsKey_high (short : path.length < 256) : bitsKey (path ++ [true]) = setBit (bitsKey path) path.length := by
  have set : keyBits (setBit (bitsKey path) path.length) = (keyBits (bitsKey path)).set path.length true :=
    Bits.bits_set (by rw [(bitsKey path).length_eq]; exact short)
  have more : List.replicate 256 false = false :: List.replicate 255 false := List.replicate_succ
  rw [← keyBits_inj,set,keyBits_bitsKey,keyBits_bitsKey,List.append_assoc,List.singleton_append,
    ← List.take_set,more,List.set_append_right _ _ (le_refl _),Nat.sub_self,List.set_cons_zero]
  have tail : false :: List.replicate 255 false = List.replicate 255 false ++ [false] := by
    rw [← List.replicate_succ,List.replicate_succ']
  rw [tail,← List.cons_append,← List.append_assoc,List.take_append_of_le_length]
  rw [List.length_append,List.length_cons,List.length_replicate]
  omega

end Keys

end Hellas.Chain
