import Hellas.Chain.OwnerNodes
import Hellas.Lib.Trie

-- The owner tree as it should stand: every stored node is a function of the holdings below it, and
-- one update moves the store from the tree of the old holdings to the tree of the new ones.

namespace Hellas.Chain

open Guard Kernel Words

-- One tree of summaries, and one tree of holdings for each key.
inductive OwnerTree where
  | owners
  | holdings (owner : SettlementKey)
  deriving DecidableEq

abbrev Leaves := Trie.Leaves OwnerLeaf

def OwnerLeaf.balance : OwnerLeaf → BitVec 128
  | .summary root => root.balance
  | .holding _ balance => balance.toBitVec.setWidth 128

theorem OwnerLeaf.balance_summary : (OwnerLeaf.summary root).balance = root.balance := rfl

def OwnerLeaf.Valid (scope : Digest) : OwnerLeaf → Prop
  | .summary root => scope = zeroDigest ∧ root.count ≠ 0 ∧ root.Well
  | .holding kind balance => scope ≠ zeroDigest ∧ validKind kind balance = true

theorem OwnerLeaf.Valid.well {leaf : OwnerLeaf} (valid : leaf.Valid scope) : leaf.Well := by
  cases leaf with
  | summary root => exact valid.2.2
  | holding kind balance => trivial

def counted (leaves : Leaves) (height : Nat) (path : List Bool) : Nat := Trie.total (fun _ => 1) leaves height path

def funded (leaves : Leaves) (height : Nat) (path : List Bool) : Nat := Trie.total (fun leaf => leaf.balance.toNat) leaves height path

-- Every leaf below belongs, and their number and sum fit their words.
structure Bounded (leaves : Leaves) (height : Nat) (path : List Bool) : Prop where
  count : counted leaves height path < 2^64
  balance : funded leaves height path < 2^128

theorem Bounded.below {leaves : Leaves} {height : Nat} {path more : List Bool}
    (bounded : Bounded leaves (height + more.length) path) : Bounded leaves height (path ++ more) :=
  ⟨lt_of_le_of_lt Trie.total_le bounded.count,lt_of_le_of_lt Trie.total_le bounded.balance⟩

theorem Bounded.child {height : Nat} {path : List Bool} (bounded : Bounded leaves (height + 1) path) (bit : Bool) :
    Bounded leaves height (path ++ [bit]) := bounded.below

section Ideal

variable [Sha256]

-- No preimage hashes to the digest that stands for an empty tree.
def Lively : Prop := ∀ bytes, Sha256.hash bytes ≠ zeroDigest

def OwnerTree.scope : OwnerTree → Digest
  | .owners => zeroDigest
  | .holdings owner => holdingScope owner

def nodePreimage (scope : Digest) (path : List Bool) : List UInt8 :=
  bytesOf "hellas-owner-node-v1" ++ (scope.bytes ++ (encode (UInt16.ofNat path.length) ++ (bitsKey path).bytes))

def nodeAt (scope : Digest) (path : List Bool) : Digest := Sha256.hash (nodePreimage scope path)

variable {scope key : Digest} {leaf : Option OwnerLeaf} {path : List Bool} {leaves : Leaves}
  {height : Nat}

theorem nodeKey_at (inside : depth ≤ 256) : nodeKey scope key depth = nodeAt scope ((keyBits key).take depth) := by
  have taken : ((keyBits key).take depth).length = depth := by simpa using inside
  rw [nodeKey,nodeBytes,keyPrefix_bits inside,nodeAt,nodePreimage,taken]

def leafOf (scope : Digest) (path : List Bool) : Option OwnerLeaf → OwnerCommitment
  | none => .none
  | some leaf => ⟨Sha256.hash (leafBytes scope (bitsKey path) leaf),1,leaf.balance⟩

theorem leafCommit_exact (well : ∀ found ∈ leaf, found.Well) :
    leafCommit scope key leaf = .ok result ↔ (∀ found ∈ leaf, found.Valid scope) ∧ leafOf scope (keyBits key) leaf = result := by
  cases leaf with
  | none => simp [leafCommit,leafOf]
  | some leaf =>
    cases leaf with
    | summary root =>
      have reads := well _ rfl
      simp only [leafCommit,bind_ok,rejectIf_ok,pure_ok,leafOf,OwnerLeaf.balance,
        bitsKey_keyBits,Option.mem_def,Option.some.injEq,forall_eq',OwnerLeaf.Valid]
      constructor
      · rintro ⟨_,accepted,found⟩
        rw [not_or,not_not] at accepted
        exact ⟨⟨accepted.1,accepted.2,reads⟩,found⟩
      · rintro ⟨valid,found⟩
        exact ⟨(),by rw [not_or,not_not]; exact ⟨valid.1,valid.2.1⟩,found⟩
    | holding kind balance =>
      simp only [leafCommit,bind_ok,rejectIf_ok,pure_ok,leafOf,OwnerLeaf.balance,
        bitsKey_keyBits,Option.mem_def,Option.some.injEq,forall_eq',OwnerLeaf.Valid]
      constructor
      · rintro ⟨_,accepted,found⟩
        rw [not_or,Bool.not_eq_false] at accepted
        exact ⟨accepted,found⟩
      · rintro ⟨valid,found⟩
        exact ⟨(),by rw [not_or,Bool.not_eq_false]; exact valid,found⟩

theorem leafOf_well (lively : Lively) : (leafOf scope path leaf).Well := by
  cases leaf with
  | none => exact OwnerCommitment.none_well
  | some leaf =>
    have occupied : (1 : UInt64) ≠ 0 := by decide
    exact ⟨⟨fun empty => absurd empty occupied,fun zero => absurd zero (lively _)⟩,
      fun empty => absurd empty occupied⟩

def summaryOf (scope : Digest) (leaves : Leaves) (height : Nat) (path : List Bool) :
    OwnerCommitment :=
  Trie.fold (leafOf scope) merge leaves height path

def siblingsOf (scope : Digest) (leaves : Leaves) (key : Digest) : List OwnerCommitment :=
  Trie.siblings (leafOf scope) merge leaves [] (keyBits key)

def stored (scope : Digest) (leaves : Leaves) (path : List Bool) : Option OwnerNode :=
  if path.length < 256 then
    encodeBranch (summaryOf scope leaves (255 - path.length) (path ++ [false]))
      (summaryOf scope leaves (255 - path.length) (path ++ [true]))
  else (leaves path).map encodeLeaf

theorem summaryOf_leaf : summaryOf scope leaves 0 path = leafOf scope path (leaves path) := by
  rw [summaryOf,Trie.fold]

theorem summaryOf_node :
    summaryOf scope leaves (height + 1) path = merge (summaryOf scope leaves height (path ++ [false]))
        (summaryOf scope leaves height (path ++ [true])) := by
  rw [summaryOf,Trie.fold]
  rfl

theorem summaryOf_well (lively : Lively) {scope : Digest}
    {leaves : Leaves} {height : Nat} {path : List Bool} : (summaryOf scope leaves height path).Well := by
  cases height with
  | zero =>
    rw [summaryOf_leaf]
    exact leafOf_well lively
  | succ height =>
    rw [summaryOf_node]
    exact merge_well lively

def OwnerCommitment.Exact (commit : OwnerCommitment) (leaves : Leaves) (height : Nat) (path : List Bool) : Prop :=
  commit.count.toNat = counted leaves height path ∧ commit.balance.toNat = funded leaves height path

omit [Sha256] in
theorem Bounded.fits_of (bounded : Bounded leaves (height + 1) path) (low : left.Exact leaves height (path ++ [false]))
    (high : right.Exact leaves height (path ++ [true])) : Fits left right := by
  have count : counted leaves (height + 1) path = _ := Trie.total_node
  have balance : funded leaves (height + 1) path = _ := Trie.total_node
  constructor
  · rw [low.1,high.1]
    exact count ▸ bounded.count
  · rw [low.2,high.2]
    exact balance ▸ bounded.balance

theorem merge_exact (fits : Fits left right) (leftWell : left.Well) (rightWell : right.Well)
    (low : left.Exact leaves height (path ++ [false])) (high : right.Exact leaves height (path ++ [true])) :
    (merge left right).Exact leaves (height + 1) path := by
  have count := merge_count fits
  have balance := merge_balance fits leftWell rightWell
  rw [low.1,high.1] at count
  rw [low.2,high.2] at balance
  exact ⟨count.trans Trie.total_node.symm,balance.trans Trie.total_node.symm⟩

theorem summaryOf_exact (lively : Lively) {scope : Digest} {leaves : Leaves} {height : Nat}
    {path : List Bool} (bounded : Bounded leaves height path) :
    (summaryOf scope leaves height path).Exact leaves height path := by
  induction height generalizing path with
  | zero =>
    unfold OwnerCommitment.Exact counted funded Trie.total Trie.entries
    rw [summaryOf_leaf]
    cases leaves path with
    | none => exact ⟨rfl,rfl⟩
    | some leaf => exact ⟨rfl,(Nat.add_zero _).symm⟩
  | succ height ih =>
    have low := ih (bounded.child false)
    have high := ih (bounded.child true)
    rw [summaryOf_node]
    exact merge_exact (bounded.fits_of low high) (summaryOf_well lively) (summaryOf_well lively) low high

theorem Bounded.fits (lively : Lively) {scope : Digest} {leaves : Leaves} {height : Nat} {path : List Bool}
    (bounded : Bounded leaves (height + 1) path) :
    Fits (summaryOf scope leaves height (path ++ [false])) (summaryOf scope leaves height (path ++ [true])) :=
  bounded.fits_of (summaryOf_exact lively (bounded.child false)) (summaryOf_exact lively (bounded.child true))

end Ideal

section Siblings

variable [Sha256]

variable {scope key : Digest} {leaves : Leaves}

@[simp] theorem siblingsOf_length : (siblingsOf scope leaves key).length = 256 := by
  rw [siblingsOf,Trie.siblings_length,keyBits_length]

theorem siblingsOf_drop {scope key : Digest} {leaves : Leaves} {depth : Nat} (inside : depth < 256) :
    (siblingsOf scope leaves key).drop depth = summaryOf scope leaves (255 - depth) ((keyBits key).take depth ++ [!bit key depth]) ::
        (siblingsOf scope leaves key).drop (depth + 1) := by
  have length : ((keyBits key).drop (depth + 1)).length = 255 - depth := by
    rw [List.length_drop,keyBits_length]
    omega
  rw [siblingsOf,Trie.siblings_drop,keyBits_drop inside,Trie.siblings,length,List.nil_append,
    Trie.siblings_drop,List.nil_append,keyBits_succ inside]
  rfl

theorem siblingsOf_get (inside : depth < 256) :
    (siblingsOf scope leaves key)[depth]? = some (summaryOf scope leaves (255 - depth) ((keyBits key).take depth ++ [!bit key depth])) := by
  have found := @siblingsOf_drop _ scope key leaves depth inside
  rw [← List.head?_drop,found]
  rfl

theorem siblingsOf_well (lively : Lively) : ∀ side ∈ siblingsOf scope leaves key, side.Well := by
  intro side member
  obtain ⟨depth,found⟩ := List.mem_iff_getElem?.mp member
  have inside : depth < 256 := by
    have bound := (List.getElem?_eq_some_iff.mp found).1
    rwa [siblingsOf_length] at bound
  rw [siblingsOf_get inside,Option.some.injEq] at found
  rw [← found]
  exact summaryOf_well lively

end Siblings

section Compact

def beside (sides : List OwnerCommitment) (depth : Nat) : List OwnerSibling :=
  let side := sides.getD depth .none
  if 0 < side.count then [⟨UInt16.ofNat depth,side⟩] else []

def compact (sides : List OwnerCommitment) : List OwnerSibling := (List.range 256).flatMap (beside sides)

theorem beside_length {sides : List OwnerCommitment} {depth : Nat} : (beside sides depth).length ≤ 1 := by
  simp only [beside]
  split <;> simp

variable {sides : List OwnerCommitment}

theorem compact_length : (compact sides).length ≤ 256 := by
  have each : ∀ depths : List Nat, (depths.flatMap (beside sides)).length ≤ depths.length := by
    intro depths
    induction depths with
    | nil => simp
    | cons depth depths ih =>
      have one := @beside_length sides depth
      rw [List.flatMap_cons,List.length_append,List.length_cons]
      omega
  have whole := each (List.range 256)
  rwa [List.length_range] at whole

def Placed (sides : List OwnerCommitment) (depth : Nat) (state : List OwnerCommitment × Option Nat) : Prop :=
  state.1 = sides.take depth ++ List.replicate (256 - depth) .none ∧ ∀ last ∈ state.2, last < depth

theorem expand_beside (sized : sides.length = 256) (well : ∀ side ∈ sides, side.Well) (inside : depth < 256)
    (placed : Placed sides depth state) :
    ∃ next, (beside sides depth).foldlM expandStep state = .ok next ∧ Placed sides (depth + 1) next := by
  obtain ⟨side,found⟩ : ∃ side, sides[depth]? = some side := ⟨_,List.getElem?_eq_getElem (by omega)⟩
  have reads : side.Well := well side (List.mem_of_getElem? found)
  have taken : sides.take (depth + 1) = sides.take depth ++ [side] := by
    rw [List.take_add_one,found]
    rfl
  have rest : List.replicate (256 - depth) OwnerCommitment.none = .none :: List.replicate (256 - (depth + 1)) .none := by
    have count : 256 - depth = (256 - (depth + 1)) + 1 := by omega
    rw [count,List.replicate_succ]
  simp only [beside,List.getD_eq_getElem?_getD,found,Option.getD_some]
  by_cases empty : side.count = 0
  · have nothing : ¬0 < side.count := by simp [empty]
    rw [if_neg nothing]
    refine ⟨state,rfl,?_,fun last known => Nat.lt_succ_of_lt (placed.2 last known)⟩
    rw [placed.1,taken,reads.eq_none empty,List.append_assoc,List.singleton_append,rest]
  · have something : 0 < side.count := UInt64.pos_iff_ne_zero.mpr empty
    have small : (UInt16.ofNat depth).toNat = depth := UInt16.toNat_ofNat_of_lt' (by
      show depth < 65536
      omega)
    have prior : ¬∃ last ∈ state.2, depth ≤ last := by
      intro refused
      obtain ⟨last,known,late⟩ := refused
      have early := placed.2 last known
      omega
    have read : readCommit (writeCommit side) = .ok side := readCommit_writeCommit.mpr ⟨reads,rfl⟩
    have set : (sides.take depth ++ List.replicate (256 - depth) OwnerCommitment.none).set depth side =
        sides.take (depth + 1) ++ List.replicate (256 - (depth + 1)) .none := by
      have length : (sides.take depth).length = depth := by
        rw [List.length_take]
        omega
      rw [rest,taken,List.set_append_right _ _ (by omega),length,Nat.sub_self,List.set_cons_zero,
        List.append_assoc,List.singleton_append]
    rw [if_pos something]
    refine ⟨(state.1.set depth side, some depth),?_,?_,?_⟩
    · have accepted : ¬(256 ≤ depth ∨ (∃ last ∈ state.2, depth ≤ last) ∨ side.count = 0) := by
        rintro (far | late | vacant)
        · omega
        · exact prior late
        · exact empty vacant
      simp only [List.foldlM_cons,List.foldlM_nil,expandStep,small,read,rejectIf,if_neg accepted]
      rfl
    · rw [placed.1]
      exact set
    · intro last known
      cases known
      exact Nat.lt_succ_self depth

theorem expandSiblings_compact (sized : sides.length = 256) (well : ∀ side ∈ sides, side.Well) :
    expandSiblings ⟨leaf,compact sides⟩ = .ok sides := by
  have run : ∀ depth ≤ 256, ∃ state, ((List.range depth).flatMap (beside sides)).foldlM expandStep
        (List.replicate 256 OwnerCommitment.none, none) = .ok state ∧ Placed sides depth state := by
    intro depth
    induction depth with
    | zero =>
      intro _
      exact ⟨_,rfl,rfl,fun last known => by cases known⟩
    | succ depth ih =>
      intro inside
      obtain ⟨state,reached,placed⟩ := ih (by omega)
      obtain ⟨next,step,after⟩ := expand_beside sized well (by omega) placed
      refine ⟨next,?_,after⟩
      rw [List.range_succ,List.flatMap_append,List.foldlM_append,reached]
      simpa using step
  obtain ⟨state,reached,placed⟩ := run 256 (le_refl _)
  have short : ¬256 < (compact sides).length := not_lt.mpr compact_length
  have final : state.1 = sides := by
    rw [placed.1,← sized,List.take_length,Nat.sub_self,List.replicate_zero,List.append_nil]
  unfold expandSiblings
  simp only [rejectIf,if_neg short]
  rw [compact,bind_ok]
  refine ⟨(),rfl,?_⟩
  rw [bind_ok]
  exact ⟨state,reached,by rw [final]; rfl⟩

end Compact

-- A store a node can be written to wherever it can be read, and which changes nowhere else.
class LawfulOwnerTreeStore (σ : Type) [OwnerTreeStore σ] : Prop where
  put_ok : ∀ {store : σ} {key : Digest} {old : Option OwnerNode} (value : Option OwnerNode),
    getNode store key = .ok old → ∃ next, putNode store key value = .ok next
  get_put : ∀ {store next : σ} {key : Digest} {value : Option OwnerNode},
    putNode store key value = .ok next → ∀ other,
      getNode next other = if other = key then .ok value else getNode store other

instance : LawfulOwnerTreeStore MemoryOwnerTree where
  put_ok _ _ := ⟨_,rfl⟩
  get_put := by
    intro store next key value written other
    cases value with
    | none =>
      cases written
      change Except.ok _ = _
      rw [Slots.lookup_erase_if]
      split <;> rfl
    | some node =>
      cases written
      change Except.ok _ = _
      rw [Slots.lookup_insert_if]
      split <;> rfl

section Reading

variable [Sha256] {σ : Type} [OwnerTreeStore σ] {store : σ} {scope key : Digest} {leaves : Leaves}

def OnPath (store : σ) (scope : Digest) (leaves : Leaves) (key : Digest) : Prop :=
  ∀ depth ≤ 256, getNode store (nodeKey scope key depth) = .ok (stored scope leaves ((keyBits key).take depth))

theorem stored_branch (inside : depth < 256) :
    stored scope leaves ((keyBits key).take depth) =
      encodeBranch (summaryOf scope leaves (255 - depth) ((keyBits key).take depth ++ [false]))
        (summaryOf scope leaves (255 - depth) ((keyBits key).take depth ++ [true])) := by
  have length : ((keyBits key).take depth).length = depth := by
    rw [List.length_take,keyBits_length]
    omega
  rw [stored,length,if_pos inside]

theorem stored_leaf : stored scope leaves ((keyBits key).take 256) = (leaves (keyBits key)).map encodeLeaf := by
  have whole : (keyBits key).take 256 = keyBits key := List.take_of_length_le (by simp)
  rw [whole,stored,keyBits_length,if_neg (lt_irrefl _)]

def proofOf (scope : Digest) (leaves : Leaves) (key : Digest) : OwnerPathProof :=
  ⟨leaves (keyBits key),compact (siblingsOf scope leaves key)⟩

theorem pathStep_exact (lively : Lively) (here : OnPath store scope leaves key) (inside : depth < 256) :
    pathStep store scope key siblings depth = .ok (siblings ++ beside (siblingsOf scope leaves key) depth) := by
  have read := here depth (by omega)
  have sides := branch_encodeBranch (@summaryOf_well _ lively scope leaves (255 - depth) ((keyBits key).take depth ++ [false]))
    (@summaryOf_well _ lively scope leaves (255 - depth) ((keyBits key).take depth ++ [true]))
  rw [stored_branch inside] at read
  unfold pathStep beside
  rw [List.getD_eq_getElem?_getD,siblingsOf_get inside,Option.getD_some,read]
  simp only [bind,Except.bind,sides]
  cases bit key depth with
  | false =>
    simp only [Bool.not_false,Bool.false_eq_true,if_false]
    split
    · rfl
    · rw [List.append_nil]
      rfl
  | true =>
    simp only [Bool.not_true,if_true]
    split
    · rfl
    · rw [List.append_nil]
      rfl

theorem path_exact (lively : Lively) (here : OnPath store scope leaves key) (reads : ∀ leaf, leaves (keyBits key) = some leaf → leaf.Well) :
    path store scope key = .ok (proofOf scope leaves key) := by
  have run : ∀ depth ≤ 256, (List.range depth).foldlM (pathStep store scope key) [] =
      .ok ((List.range depth).flatMap (beside (siblingsOf scope leaves key))) := by
    intro depth
    induction depth with
    | zero => exact fun _ => rfl
    | succ depth ih =>
      intro inside
      rw [List.range_succ,List.foldlM_append,ih (by omega),List.flatMap_append,
        List.flatMap_singleton]
      simp only [bind,Except.bind,List.foldlM_cons,List.foldlM_nil,pathStep_exact lively here (show depth < 256 by omega)]
      rfl
  have leaf := here 256 (le_refl _)
  rw [stored_leaf] at leaf
  have decoded : decodeLeaf ((leaves (keyBits key)).map encodeLeaf) = .ok (leaves (keyBits key)) := by
    cases found : leaves (keyBits key) with
    | none => rfl
    | some held => exact decodeLeaf_encodeLeaf (reads held found)
  unfold path
  rw [run 256 (le_refl _),leaf]
  simp only [bind,Except.bind,decoded]
  rfl

theorem expandSiblings_proofOf (lively : Lively) :
    expandSiblings (proofOf scope leaves key) = .ok (siblingsOf scope leaves key) :=
  expandSiblings_compact siblingsOf_length (siblingsOf_well lively)

end Reading

section Writing

variable [Sha256] {σ : Type} [OwnerTreeStore σ] {store : σ} {scope key : Digest} {leaves : Leaves}

theorem siblingsOf_write {leaf : Option OwnerLeaf} :
    siblingsOf scope (Trie.write leaves (keyBits key) leaf) key = siblingsOf scope leaves key :=
  @Trie.siblings_write _ _ _ _ _ [] _ _

omit [Sha256] in
theorem upward_eq : upward = (List.range' 0 256).reverse := by
  rw [upward,List.range_eq_range']

variable {depth : Nat} {leaf : Option OwnerLeaf} {next : σ × OwnerCommitment}

theorem joined_exact (inside : depth < 256) :
    (if bit key depth then ((siblingsOf scope leaves key).getD depth .none,
          summaryOf scope leaves (255 - depth) ((keyBits key).take (depth + 1)))
      else (summaryOf scope leaves (255 - depth) ((keyBits key).take (depth + 1)),
        (siblingsOf scope leaves key).getD depth .none)) =
      (summaryOf scope leaves (255 - depth) ((keyBits key).take depth ++ [false]),
        summaryOf scope leaves (255 - depth) ((keyBits key).take depth ++ [true])) := by
  rw [List.getD_eq_getElem?_getD,siblingsOf_get inside,Option.getD_some,keyBits_succ inside]
  cases bit key depth <;> rfl

theorem updateStep_exact (lively : Lively) [LawfulOwnerTreeStore σ] (inside : depth < 256)
    (bounded : Bounded leaves (256 - depth) ((keyBits key).take depth))
    (readable : getNode store (nodeKey scope key depth) = .ok old) :
    ∃ next, updateStep scope key (siblingsOf scope leaves key)
        (store, summaryOf scope leaves (255 - depth) ((keyBits key).take (depth + 1))) depth =
          .ok (next, summaryOf scope leaves (256 - depth) ((keyBits key).take depth)) ∧
      ∀ other, getNode next other = if other = nodeKey scope key depth then
        .ok (stored scope leaves ((keyBits key).take depth)) else getNode store other := by
  have height : 256 - depth = (255 - depth) + 1 := by omega
  rw [height] at bounded
  have joined := combine_exact.mpr ⟨@Bounded.fits _ lively scope _ _ _ bounded,rfl⟩
  obtain ⟨next,written⟩ := LawfulOwnerTreeStore.put_ok (stored scope leaves ((keyBits key).take depth)) readable
  refine ⟨next,?_,LawfulOwnerTreeStore.get_put written⟩
  rw [stored_branch inside] at written
  unfold updateStep
  simp only [joined_exact inside,joined,Except.mapError,bind,Except.bind,written]
  rw [height,summaryOf_node]
  rfl

theorem update_run (lively : Lively) [LawfulOwnerTreeStore σ] (bounded : Bounded leaves 256 [])
    (apart : ∀ depth ≤ 256, ∀ other ≤ 256, nodeKey scope key depth = nodeKey scope key other → depth = other)
    (readable : ∀ depth < 256, ∃ old, getNode store (nodeKey scope key depth) = .ok old) :
    ∀ count depth, depth + count = 256 → ∃ next,
      (List.range' depth count).reverse.foldlM (updateStep scope key (siblingsOf scope leaves key))
        (store, leafOf scope (keyBits key) (leaves (keyBits key))) = .ok (next, summaryOf scope leaves count ((keyBits key).take depth)) ∧
      (∀ other, depth ≤ other → other < 256 → getNode next (nodeKey scope key other) =
        .ok (stored scope leaves ((keyBits key).take other))) ∧
      (∀ node, (∀ other, depth ≤ other → other < 256 → node ≠ nodeKey scope key other) → getNode next node = getNode store node) := by
  intro count
  induction count with
  | zero =>
    intro depth whole
    have all : (keyBits key).take depth = keyBits key := List.take_of_length_le (by simp; omega)
    refine ⟨store,?_,fun other low high => by omega,fun _ _ => rfl⟩
    rw [all,summaryOf_leaf]
    rfl
  | succ count ih =>
    intro depth whole
    have inside : depth < 256 := by omega
    obtain ⟨middle,run,written,kept⟩ := ih (depth + 1) (by omega)
    have taken : ((keyBits key).take depth).length = depth := by
      rw [List.length_take,keyBits_length]
      omega
    have below : Bounded leaves (256 - depth) ((keyBits key).take depth) := by
      have inner := @Bounded.below leaves (256 - depth) [] ((keyBits key).take depth)
      rw [taken,Nat.sub_add_cancel (by omega),List.nil_append] at inner
      exact inner bounded
    obtain ⟨old,read⟩ := readable depth inside
    have fresh : ∀ other, depth + 1 ≤ other → other < 256 → nodeKey scope key depth ≠ nodeKey scope key other := by
      intro other low high same
      have equal := apart depth (by omega) other (by omega) same
      omega
    have found : getNode middle (nodeKey scope key depth) = .ok old := by
      rw [kept _ fresh,read]
    obtain ⟨next,step,after⟩ := updateStep_exact lively inside below found
    have height : count = 255 - depth := by omega
    have top : count + 1 = 256 - depth := by omega
    refine ⟨next,?_,?_,?_⟩
    · rw [List.range'_succ,List.reverse_cons,List.foldlM_append,run,height]
      simp only [bind,Except.bind,List.foldlM_cons,List.foldlM_nil,step]
      rw [← height,top]
      rfl
    · intro other low high
      rw [after]
      by_cases same : other = depth
      · rw [same,if_pos rfl]
      · have different : nodeKey scope key other ≠ nodeKey scope key depth :=
          fun equal => same (apart other (by omega) depth (by omega) equal)
        rw [if_neg different]
        exact written other (by omega) high
    · intro node outside
      rw [after,if_neg (outside depth (le_refl _) inside)]
      exact kept node fun other low high => outside other (by omega) high

-- One update turns the tree of the old leaves into the tree of the new ones, on its own path only.
theorem update_exact (lively : Lively) [LawfulOwnerTreeStore σ] (here : OnPath store scope leaves key)
    (apart : ∀ depth ≤ 256, ∀ other ≤ 256, nodeKey scope key depth = nodeKey scope key other → depth = other)
    (reads : ∀ old, leaves (keyBits key) = some old → old.Well) (valid : ∀ found ∈ leaf, found.Valid scope)
    (bounded : Bounded (Trie.write leaves (keyBits key) leaf) 256 []) :
    ∃ next, update store scope key leaf = .ok (next, summaryOf scope (Trie.write leaves (keyBits key) leaf) 256 []) ∧
      OnPath next scope (Trie.write leaves (keyBits key) leaf) key ∧
      ∀ node, (∀ depth ≤ 256, node ≠ nodeKey scope key depth) → getNode next node = getNode store node := by
  have placed : Trie.write leaves (keyBits key) leaf (keyBits key) = leaf := if_pos rfl
  have below := (leafCommit_exact fun found member => (valid found member).well).mpr
    ⟨valid,(rfl : leafOf scope (keyBits key) leaf = _)⟩
  obtain ⟨start,written⟩ := LawfulOwnerTreeStore.put_ok (leaf.map encodeLeaf) (here 256 (le_refl _))
  have started := LawfulOwnerTreeStore.get_put written
  have readable : ∀ depth < 256, ∃ old, getNode start (nodeKey scope key depth) = .ok old := by
    intro depth inside
    have different : nodeKey scope key depth ≠ nodeKey scope key 256 := by
      intro same
      have equal := apart depth (by omega) 256 (le_refl _) same
      omega
    rw [started,if_neg different]
    exact ⟨_,here depth (by omega)⟩
  obtain ⟨next,run,found,kept⟩ := update_run lively bounded apart readable 256 0 rfl
  rw [siblingsOf_write,placed,← upward_eq,List.take_zero] at run
  refine ⟨next,?_,?_,?_⟩
  · unfold update
    rw [path_exact lively here reads]
    simp only [Except.mapError,bind,Except.bind,expandSiblings_proofOf lively,below,written,run]
  · intro depth inside
    by_cases last : depth = 256
    · have outside : ∀ other, 0 ≤ other → other < 256 →
          nodeKey scope key depth ≠ nodeKey scope key other := by
        intro other _ high same
        have equal := apart depth (by omega) other (by omega) same
        omega
      rw [kept _ outside,last,started,if_pos rfl,stored_leaf,placed]
    · exact found depth (by omega) (by omega)
  · intro node outside
    rw [kept node fun other _ high => outside other (by omega),started,
      if_neg (outside 256 (le_refl _))]

theorem update_preserves {holds : σ → Prop} {leaf : Option OwnerLeaf} {result : σ × OwnerCommitment}
    (kept : ∀ {store next : σ} {depth : Nat} {value : Option OwnerNode}, depth ≤ 256 → holds store →
      putNode store (nodeKey scope key depth) value = .ok next → holds next)
    (start : holds store) (updated : update store scope key leaf = .ok result) : holds result.1 := by
  unfold update at updated
  simp only [bind_ok] at updated
  obtain ⟨_,-,sides,-,current,-,first,put,ran⟩ := updated
  refine foldlM_keeps (· ≤ 256) (fun state => holds state.1) (fun state depth next low step here => ?_)
    (fun depth member => ?_) (kept (le_refl 256) start put) ran
  · simp only [updateStep,bind_ok,pure_ok] at step
    obtain ⟨current,-,written,put,rfl⟩ := step
    exact kept low here put
  · rw [upward,List.mem_reverse,List.mem_range] at member
    omega

theorem updateStep_room (lively : Lively) {sides : List OwnerCommitment} (inside : depth < 256)
    (sibling : sides.getD depth .none = summaryOf scope leaves (255 - depth) ((keyBits key).take depth ++ [!bit key depth]))
    (beyond : Bounded leaves (255 - depth) ((keyBits key).take depth ++ [!bit key depth])) (well : current.Well)
    (precise : current.Exact leaves (255 - depth) ((keyBits key).take (depth + 1)))
    (step : updateStep scope key sides (store, current) depth = .ok next) :
    next.2.Well ∧ next.2.Exact leaves (256 - depth) ((keyBits key).take depth) := by
  have height : 256 - depth = (255 - depth) + 1 := by omega
  have side := @summaryOf_exact _ lively scope _ _ _ beyond
  have sideWell := @summaryOf_well _ lively scope leaves (255 - depth) ((keyBits key).take depth ++ [!bit key depth])
  rw [keyBits_succ inside] at precise
  rw [height]
  unfold updateStep at step
  simp only [sibling,bind_ok,mapError_ok,combine_exact,pure_ok] at step
  cases turn : bit key depth with
  | false =>
    simp only [turn,Bool.not_false,Bool.false_eq_true,if_false] at step side sideWell precise
    obtain ⟨joined,⟨fits,rfl⟩,after,-,rfl⟩ := step
    exact ⟨merge_well lively,merge_exact fits well sideWell precise side⟩
  | true =>
    simp only [turn,Bool.not_true,if_true] at step side sideWell precise
    obtain ⟨joined,⟨fits,rfl⟩,after,-,rfl⟩ := step
    exact ⟨merge_well lively,merge_exact fits sideWell well side precise⟩

omit [Sha256] in
theorem Bounded.beside (bounded : Bounded leaves 256 []) (inside : depth < 256) :
    Bounded (Trie.write leaves (keyBits key) leaf) (255 - depth) ((keyBits key).take depth ++ [!bit key depth]) := by
  have taken : ((keyBits key).take depth ++ [!bit key depth]).length = depth + 1 := by
    rw [List.length_append,List.length_take,keyBits_length,List.length_singleton]
    omega
  have old := @Bounded.below leaves (255 - depth) [] ((keyBits key).take depth ++ [!bit key depth])
  rw [taken,List.nil_append] at old
  have below := old (by rwa [show 255 - depth + (depth + 1) = 256 by omega])
  have off : ∀ rest : List Bool, rest.length = 255 - depth → (keyBits key).take depth ++ [!bit key depth] ++ rest ≠ keyBits key := by
    intro rest _ same
    have front := congrArg (List.take (depth + 1)) same
    rw [List.take_left' taken,keyBits_succ inside,List.append_cancel_left_eq] at front
    cases turn : bit key depth <;> simp [turn] at front
  constructor
  · rw [counted,Trie.total_write_off off]
    exact below.count
  · rw [funded,Trie.total_write_off off]
    exact below.balance

theorem update_run_room (lively : Lively) (bounded : Bounded leaves 256 []) (well : current.Well)
    (precise : current.Exact (Trie.write leaves (keyBits key) leaf) 0 (keyBits key)) :
    ∀ count depth, depth + count = 256 → ∀ after : σ × OwnerCommitment,
      (List.range' depth count).reverse.foldlM (updateStep scope key (siblingsOf scope leaves key))
        (store, current) = .ok after → after.2.Well ∧
      after.2.Exact (Trie.write leaves (keyBits key) leaf) count ((keyBits key).take depth) := by
  intro count
  induction count with
  | zero =>
    intro depth whole after run
    have all : (keyBits key).take depth = keyBits key := List.take_of_length_le (by simp; omega)
    cases run
    rw [all]
    exact ⟨well,precise⟩
  | succ count ih =>
    intro depth whole after run
    have inside : depth < 256 := by omega
    have height : count = 255 - depth := by omega
    have top : count + 1 = 256 - depth := by omega
    rw [List.range'_succ,List.reverse_cons,List.foldlM_append,bind_ok] at run
    obtain ⟨middle,earlier,last⟩ := run
    simp only [List.foldlM_cons,List.foldlM_nil,bind_pure] at last
    obtain ⟨middleWell,middleExact⟩ := ih (depth + 1) (by omega) middle earlier
    have sibling : (siblingsOf scope leaves key).getD depth .none =
        summaryOf scope (Trie.write leaves (keyBits key) leaf) (255 - depth) ((keyBits key).take depth ++ [!bit key depth]) := by
      rw [← @siblingsOf_write _ scope key leaves leaf,List.getD_eq_getElem?_getD,siblingsOf_get inside,Option.getD_some]
    rw [height] at middleExact
    rw [top]
    exact updateStep_room lively inside sibling (bounded.beside inside) middleWell middleExact last

theorem leafOf_exact :
    (leafOf scope (keyBits key) leaf).Exact (Trie.write leaves (keyBits key) leaf) 0 (keyBits key) := by
  unfold OwnerCommitment.Exact counted funded Trie.total Trie.entries
  rw [Trie.write,if_pos rfl]
  cases leaf with
  | none => exact ⟨rfl,rfl⟩
  | some leaf => exact ⟨rfl,(Nat.add_zero _).symm⟩

theorem update_room (lively : Lively) (here : OnPath store scope leaves key)
    (reads : ∀ old, leaves (keyBits key) = some old → old.Well) (bounded : Bounded leaves 256 [])
    (well : ∀ found ∈ leaf, found.Well) (updated : update store scope key leaf = .ok next) :
    (∀ found ∈ leaf, found.Valid scope) ∧ Bounded (Trie.write leaves (keyBits key) leaf) 256 [] := by
  unfold update at updated
  rw [path_exact lively here reads] at updated
  simp only [bind_ok,mapError_ok,Except.ok.injEq,exists_eq_left',expandSiblings_proofOf lively,leafCommit_exact well] at updated
  obtain ⟨current,⟨valid,rfl⟩,start,-,run⟩ := updated
  rw [upward_eq] at run
  obtain ⟨-,count,balance⟩ := update_run_room lively bounded (leafOf_well lively) leafOf_exact 256 0 rfl next run
  rw [List.take_zero] at count balance
  exact ⟨valid,count ▸ next.2.count.toNat_lt,balance ▸ next.2.balance.isLt⟩

end Writing

end Hellas.Chain
