import Hellas.Chain.PathProof

-- What an accepted page shows of an owner's holdings, whoever made it.

namespace Hellas.Chain

open Guard Kernel Words

section Listing

variable {held : Held} {owner : SettlementKey}

def OwnerLeaf.entry : OwnerLeaf → UInt8 × UInt64
  | .summary _ => (0, 0)
  | .holding kind balance => (kind, balance)

def listing (held : Held) (owner : SettlementKey) : List (ObjectId × UInt8 × UInt64) :=
  (Trie.entries (holdingLeaves (held owner)) 256 []).map fun found => (bitsKey found.1, found.2.entry)

def placed (entry : ObjectId × UInt8 × UInt64) : List Bool × OwnerLeaf := (keyBits entry.1, heldLeaf entry.2)

theorem entry_placed (member : found ∈ Trie.entries (holdingLeaves (held owner)) 256 []) :
    found = placed (bitsKey found.1, found.2.entry) ∧ held owner (bitsKey found.1) = some found.2.entry := by
  obtain ⟨path,leaf⟩ := found
  obtain ⟨rest,length,same,here⟩ := Trie.mem_entries.mp member
  rw [List.nil_append] at same
  have whole : path.length = 256 := by rw [same,length]
  rw [holdingLeaves,if_pos whole] at here
  obtain ⟨entry,present,rfl⟩ := Option.map_eq_some_iff.mp here
  refine ⟨?_,present⟩
  rw [placed,keyBits_bitsKey_whole whole]
  rfl

theorem entries_listing : Trie.entries (holdingLeaves (held owner)) 256 [] = (listing held owner).map placed := by
  unfold listing
  rw [List.map_map]
  refine Eq.trans (List.map_id _).symm (List.map_congr_left ?_)
  intro found member
  exact (entry_placed member).1

variable {id : ObjectId} {entry : UInt8 × UInt64}

theorem mem_listing : (id, entry) ∈ listing held owner ↔ held owner id = some entry := by
  constructor
  · intro member
    obtain ⟨found,inside,same⟩ := List.mem_map.mp member
    have present := (entry_placed inside).2
    rw [Prod.mk.injEq] at same
    rw [same.1,same.2] at present
    exact present
  · intro present
    have inside : (keyBits id, heldLeaf entry) ∈ Trie.entries (holdingLeaves (held owner)) 256 [] := by
      refine Trie.mem_entries.mpr ⟨keyBits id,keyBits_length,rfl,?_⟩
      rw [holdingLeaves_key,present]
      rfl
    exact List.mem_map.mpr ⟨_,inside,by rw [bitsKey_keyBits]; rfl⟩

theorem listing_sorted : (listing held owner).Pairwise fun left right => left.1.bytes < right.1.bytes := by
  have sorted := @Trie.entries_sorted _ (holdingLeaves (held owner)) 256 []
  rw [entries_listing,List.pairwise_map] at sorted
  exact sorted.imp fun before => keyBits_lt.mp before

theorem listing_length : (listing held owner).length = counted (holdingLeaves (held owner)) 256 [] := by
  rw [counted_length,entries_listing,List.length_map]

theorem listing_funded : ((listing held owner).map fun entry => entry.2.2.toNat).sum =
    funded (holdingLeaves (held owner)) 256 [] := by
  unfold funded Trie.total
  rw [entries_listing,List.map_map]
  rfl

theorem listing_place (present : held owner id = some entry) :
    (listing held owner)[(Trie.before (holdingLeaves (held owner)) [] (keyBits id)).length]? = some (id, entry) := by
  have around := @Trie.entries_around _ (holdingLeaves (held owner)) [] (keyBits id)
  have found : (Trie.entries (holdingLeaves (held owner)) 256 [])[
      (Trie.before (holdingLeaves (held owner)) [] (keyBits id)).length]? = some (keyBits id, heldLeaf entry) := by
    rw [List.nil_append,holdingLeaves_key,present,keyBits_length] at around
    rw [around]
    simp
  rw [listing,List.getElem?_map,found,Option.map_some,bitsKey_keyBits]
  rfl

theorem listing_after :
    (listing held owner).drop ((Trie.before (holdingLeaves (held owner)) [] (keyBits id)).length +
        if (held owner id).isSome then 1 else 0) =
      (listing held owner).filter fun entry => decide (id.bytes < entry.1.bytes) := by
  have around := @Trie.entries_around _ (holdingLeaves (held owner)) [] (keyBits id)
  rw [List.nil_append,holdingLeaves_key,keyBits_length] at around
  have larger : ∀ found ∈ Trie.entries (holdingLeaves (held owner)) 256 [],
      (id.bytes < (bitsKey found.1).bytes ↔ keyBits id < found.1) := by
    intro found member
    have same := (entry_placed member).1
    rw [← keyBits_lt]
    have path : found.1 = keyBits (bitsKey found.1) := congrArg Prod.fst same
    rw [← path]
  have kept : (Trie.entries (holdingLeaves (held owner)) 256 []).filter (fun found => decide (keyBits id < found.1)) =
        Trie.after (holdingLeaves (held owner)) [] (keyBits id) := by
    have first : (Trie.before (holdingLeaves (held owner)) [] (keyBits id)).filter (fun found => decide (keyBits id < found.1)) = [] := by
      rw [List.filter_eq_nil_iff]
      intro found member
      have below := Trie.before_lt found member
      rw [List.nil_append] at below
      rw [decide_eq_true_iff]
      exact fun above => lt_asymm below above
    have itself : (((held owner id).map heldLeaf).toList.map fun leaf => (keyBits id, leaf)).filter
        (fun found => decide (keyBits id < found.1)) = [] := by
      rw [List.filter_eq_nil_iff]
      intro found member
      obtain ⟨leaf,-,rfl⟩ := List.mem_map.mp member
      simp
    have last : (Trie.after (holdingLeaves (held owner)) [] (keyBits id)).filter (fun found => decide (keyBits id < found.1)) =
          Trie.after (holdingLeaves (held owner)) [] (keyBits id) := by
      rw [List.filter_eq_self]
      intro found member
      have above := Trie.lt_after found member
      rw [List.nil_append] at above
      exact decide_eq_true above
    rw [around,List.filter_append,List.filter_append,first,itself,last]
    rfl
  have dropped : (Trie.entries (holdingLeaves (held owner)) 256 []).drop
      ((Trie.before (holdingLeaves (held owner)) [] (keyBits id)).length + if (held owner id).isSome then 1 else 0) =
      Trie.after (holdingLeaves (held owner)) [] (keyBits id) := by
    rw [around]
    apply List.drop_left'
    cases held owner id <;> simp
  unfold listing
  rw [← List.map_drop,dropped,← kept,List.filter_map]
  refine congrArg (List.map _) (List.filter_congr ?_)
  intro found member
  simp only [Function.comp_apply,larger found member]

end Listing

section Sound

variable [Sha256] {σ : Type} [OwnerTreeStore σ] {store : σ}
  {visits : Set (SettlementKey × ObjectId)} {held : Held} {owner : SettlementKey} {cursor : ObjectId}

theorem ownerLeaves_at (lively : Lively) (keeps : Keeps visits store held)
    (distinct : KeysApart visits) (visit : (owner, cursor) ∈ visits) :
    ownerLeaves held (keyBits (ownerKey owner)) = summaryLeaf (rootOf held owner) := by
  have apart := keeps.apart distinct visit
  unfold summaryLeaf
  split
  · rename_i vacant
    have nothing := (rootOf_vacant lively (keeps.holdings owner)).mp vacant
    apply ownerLeaves_none
    intro other holds same
    have equal := apart other owner (.inl holds) (.inr rfl) (keyBits_inj.mp same)
    exact nothing (equal ▸ holds)
  · rename_i occupied
    have holds : Holder held owner := by
      by_contra nothing
      exact occupied ((rootOf_vacant lively (keeps.holdings owner)).mpr nothing)
    exact ownerLeaves_key (fun other holdsToo same => apart other owner (.inl holdsToo) (.inr rfl) same) holds

noncomputable def topOf (held : Held) : OwnerCommitment := summaryOf zeroDigest (ownerLeaves held) 256 []

theorem stored_root : stored scope leaves [] = encodeBranch (summaryOf scope leaves 255 [false]) (summaryOf scope leaves 255 [true]) := by
  rw [stored,List.length_nil,if_pos (by omega),List.nil_append,List.nil_append]

theorem ownerRoot_of {left right : OwnerCommitment} (leftWell : left.Well) (rightWell : right.Well)
    (fits : Fits left right) (read : getNode store (nodeKey zeroDigest zeroDigest 0) = .ok (encodeBranch left right)) :
    ownerRoot store = .ok (merge left right).hash := by
  have children := branch_encodeBranch leftWell rightWell
  have joined := combine_exact.mpr ⟨fits,rfl⟩
  unfold ownerRoot
  simp only [read,children,joined,bind,Except.bind]
  rfl

theorem topOf_node : topOf held = merge (summaryOf zeroDigest (ownerLeaves held) 255 [false])
    (summaryOf zeroDigest (ownerLeaves held) 255 [true]) := summaryOf_node

theorem ownerRoot_exact (lively : Lively) (keeps : Keeps visits store held) :
    ownerRoot store = .ok (topOf held).hash := by
  have top := keeps.grown (.owners, []) (.inl rfl)
  have key : nodeKey zeroDigest zeroDigest 0 = OwnerTree.node (.owners, []) := by
    rw [nodeKey_at (Nat.zero_le _),List.take_zero]
    rfl
  change getNode store _ = .ok (stored zeroDigest (ownerLeaves held) []) at top
  rw [stored_root,← key] at top
  rw [topOf_node]
  exact ownerRoot_of (summaryOf_well lively) (summaryOf_well lively)
    (@Bounded.fits _ lively zeroDigest (ownerLeaves held) 255 [] keeps.owners) top

omit [Sha256] in
theorem root_summaryLeaf {proof : OwnerPathProof} (leaf : proof.leaf = summaryLeaf root) (well : root.Well) :
    proof.root = .ok result ↔ result = root := by
  unfold OwnerPathProof.root
  rw [leaf]
  unfold summaryLeaf
  split
  · rename_i empty
    split at empty
    · rename_i vacant
      rw [well.eq_none vacant,Except.ok.injEq,eq_comm]
    · cases empty
  · rename_i found same
    split at same
    · cases same
    · cases same
      rw [Except.ok.injEq,eq_comm]
  · rename_i same
    split at same <;> cases same

def pagePreimages (held : Held) (owner : SettlementKey) (proof : OwnerPageProof) :
    Set (List UInt8) :=
  { bytes | bytes ∈ treePreimages zeroDigest (ownerLeaves held) ∪
      pathPreimages zeroDigest (ownerKey owner) proof.summary ∨
    bytes ∈ treePreimages (holdingScope owner) (holdingLeaves (held owner)) ∨
    (∃ holding ∈ proof.holdings, bytes ∈ pathPreimages (holdingScope owner) holding.objectId holding.path) ∨
    ∃ key ∈ proof.afterKey, ∃ path ∈ proof.afterPath, bytes ∈ pathPreimages (holdingScope owner) key path }

def HoldingProof.shown (holding : HoldingProof) : ObjectId × Option OwnerLeaf := (holding.objectId, holding.path.leaf)

def present (entry : ObjectId × UInt8 × UInt64) : ObjectId × Option OwnerLeaf := (entry.1, some (heldLeaf entry.2))

variable {proof : OwnerPageProof} (lively : Lively) (keeps : Keeps visits store held)
  (distinct : KeysApart visits) (visit : (owner, cursor) ∈ visits)
  (collisionFree : Set.InjOn Sha256.hash (pagePreimages held owner proof))

include lively keeps collisionFree

theorem summary_sound (verified : verifyPath zeroDigest (ownerKey owner) proof.summary = .ok (top, rank))
    (rooted : top.hash = (topOf held).hash) :
    proof.summary.leaf = ownerLeaves held (keyBits (ownerKey owner)) :=
  (path_sound lively keeps.owners (collisionFree.mono fun _ member => .inl member) verified rooted).1

theorem holding_path_sound {key : Digest} {path : OwnerPathProof}
    (checked : pathPreimages (holdingScope owner) key path ⊆ pagePreimages held owner proof)
    (verified : verifyPath (holdingScope owner) key path = .ok (rootOf held owner, rank)) :
    path.leaf = (held owner key).map heldLeaf ∧ rank.toNat = (Trie.before (holdingLeaves (held owner)) [] (keyBits key)).length := by
  have apart := collisionFree.mono (show treePreimages (holdingScope owner)
      (holdingLeaves (held owner)) ∪ pathPreimages (holdingScope owner) key path ⊆ pagePreimages held owner proof from
    Set.union_subset (fun _ member => .inr (.inl member)) checked)
  have sound := path_sound lively (keeps.holdings owner) apart verified rfl
  rw [holdingLeaves_key] at sound
  exact ⟨sound.1,sound.2.2⟩

theorem holding_sound {holding : HoldingProof} (member : holding ∈ proof.holdings)
    (verified : verifyHolding owner offset (rootOf held owner) (holding, position) = .ok ()) :
    ∃ entry, (listing held owner)[(offset + UInt64.ofNat position).toNat]? = some entry ∧ holding.shown = present entry := by
  simp only [verifyHolding,bind_ok,rejectIf_ok,not_not,not_or] at verified
  obtain ⟨-,⟨leaf,found,-⟩,⟨actual,rank⟩,checked,same,ranked⟩ := verified
  dsimp only at same ranked
  rw [same] at checked
  have sound := holding_path_sound lively keeps collisionFree (fun bytes inside => .inr (.inr (.inl ⟨holding,member,inside⟩))) checked
  rw [Option.mem_def.mp found,eq_comm,Option.map_eq_some_iff] at sound
  obtain ⟨⟨entry,held,rfl⟩,place⟩ := sound
  refine ⟨(holding.objectId, entry),?_,?_⟩
  · rw [← ranked,place,listing_place held]
  · rw [HoldingProof.shown,Option.mem_def.mp found,present]

include distinct visit

theorem page_sound [Base58] (verified : verifyOwnerPageAt (topOf held).hash owner offset limit proof = .ok summary) :
    summary = rootOf held owner ∧ offset.toNat ≤ (listing held owner).length ∧ proof.holdings.map HoldingProof.shown =
        (((listing held owner).drop offset.toNat).take limit.toNat).map present := by
  simp only [verifyOwnerPageAt,bind_ok,rejectIf_ok,pure_ok,forM_ok,not_or,not_not] at verified
  obtain ⟨-,-,-,-,⟨top,rank⟩,climbed,-,rooted,claimed,read,-,⟨low,counted⟩,-,each,result⟩ := verified
  subst result
  have leaf := summary_sound lively keeps collisionFree climbed rooted
  rw [ownerLeaves_at lively keeps distinct visit] at leaf
  have same := (root_summaryLeaf leaf (rootOf_well lively)).mp read
  subst same
  have count : (rootOf held owner).count.toNat = (listing held owner).length := by
    rw [listing_length]
    exact (rootOf_exact lively (keeps.holdings owner)).1
  have bound := (rootOf held owner).count.toNat_lt
  have early : offset ≤ (rootOf held owner).count := UInt64.not_lt.mp low
  have rest := UInt64.toNat_sub_of_le _ _ early
  have start : offset.toNat ≤ (listing held owner).length := by
    rw [← count]
    exact UInt64.le_iff_toNat_le.mp early
  have length : proof.holdings.length = min limit.toNat ((listing held owner).length - offset.toNat) := by
    rw [counted,min_toNat,rest,count]
    rfl
  refine ⟨rfl,start,List.ext_getElem? ?_⟩
  intro position
  rw [List.getElem?_map,List.getElem?_map]
  by_cases inside : position < proof.holdings.length
  · have member : (proof.holdings[position], position) ∈ proof.holdings.zipIdx := by
      rw [List.mem_zipIdx_iff_getElem?,List.getElem?_eq_getElem inside]
    obtain ⟨entry,found,shown⟩ := holding_sound lively keeps collisionFree (List.getElem_mem inside) (each _ member)
    have small : (offset + UInt64.ofNat position).toNat = offset.toNat + position := by
      have fits : position < 2^64 := by omega
      rw [UInt64.toNat_add,UInt64.toNat_ofNat_of_lt' fits]
      omega
    rw [small] at found
    rw [List.getElem?_eq_getElem inside,List.getElem?_take,if_pos (by omega),List.getElem?_drop,
      found,Option.map_some,Option.map_some,shown]
  · rw [List.getElem?_eq_none (by omega),List.getElem?_eq_none (by simp; omega)]
    rfl

-- Whether or not the cursor itself is still held, the page starts with the next larger id.
theorem page_after_sound [Base58] (verified : verifyOwnerPageAfter (topOf held).hash owner (some key) limit proof = .ok summary) :
    summary = rootOf held owner ∧ proof.holdings.map HoldingProof.shown =
      (((listing held owner).filter fun entry => decide (key.bytes < entry.1.bytes)).take limit.toNat).map present := by
  unfold verifyOwnerPageAfter at verified
  rw [bind_ok] at verified
  obtain ⟨offset,located,shown⟩ := verified
  unfold offsetAfter at located
  split at located
  · rename_i absent _ _
    cases absent
  · rename_i requested proved path same proofKey proofPath
    cases same
    split at located
    · rename_i sameKey
      subst sameKey
      simp only [bind_ok,rejectIf_ok,not_not,okOr_ok,checkedAdd_exact] at located
      obtain ⟨⟨commitment,rank⟩,climbed,claimed,read,-,bound,placed⟩ := located
      obtain ⟨rooted,-,page⟩ := page_sound lively keeps distinct visit collisionFree shown
      have again : proof.summary.root = .ok summary := by
        simp only [verifyOwnerPageAt,bind_ok,pure_ok] at shown
        obtain ⟨-,-,-,-,-,-,-,-,found,rootRead,-,-,-,-,result⟩ := shown
        rw [← result]
        exact rootRead
      rw [read,Except.ok.injEq] at again
      dsimp only at bound placed
      rw [bound,again,rooted] at climbed
      have cursorPath := holding_path_sound lively keeps collisionFree
        (fun bytes inside => .inr (.inr (.inr ⟨_,proofKey,path,proofPath,inside⟩))) climbed
      have start : offset.toNat = (Trie.before (holdingLeaves (held owner)) [] (keyBits key)).length +
            if (held owner key).isSome then 1 else 0 := by
        rw [← placed,cursorPath.1,cursorPath.2]
        cases held owner key <;> rfl
      rw [start,listing_after] at page
      exact ⟨rooted,page⟩
    · cases located
  · cases located

end Sound

end Hellas.Chain
