import Hellas.Chain.OwnerTree
import Mathlib.Data.Set.Function

-- Who holds what, as one map, and the store that keeps its two levels of trees.

namespace Hellas.Chain

open Guard Kernel Words

abbrev Held := SettlementKey → ObjectId → Option (UInt8 × UInt64)

namespace Held

def empty : Held := fun _ _ => none

def set (held : Held) (owner : SettlementKey) (id : ObjectId) (value : Option (UInt8 × UInt64)) :
    Held :=
  fun other key => if other = owner ∧ key = id then value else held other key

theorem set_other {held : Held} {owner : SettlementKey} {id : ObjectId} (different : other ≠ owner) :
    held.set owner id value other = held other := by
  funext key
  exact if_neg fun same => different same.1

end Held

def heldLeaf (entry : UInt8 × UInt64) : OwnerLeaf := .holding entry.1 entry.2

def holdingLeaves (held : ObjectId → Option (UInt8 × UInt64)) : Leaves := fun path =>
  if path.length = 256 then (held (bitsKey path)).map heldLeaf else none

@[simp] theorem holdingLeaves_key {held : ObjectId → Option (UInt8 × UInt64)} {id : ObjectId} :
    holdingLeaves held (keyBits id) = (held id).map heldLeaf := by
  rw [holdingLeaves,if_pos keyBits_length,bitsKey_keyBits]

theorem holdingLeaves_set {held : Held} {owner : SettlementKey} {id : ObjectId} {value : Option (UInt8 × UInt64)} :
    holdingLeaves (held.set owner id value owner) = Trie.write (holdingLeaves (held owner)) (keyBits id) (value.map heldLeaf) := by
  funext path
  unfold Trie.write
  split
  · rename_i here
    rw [here,holdingLeaves_key,Held.set,if_pos ⟨rfl,rfl⟩]
  · rename_i elsewhere
    unfold holdingLeaves
    split
    · rename_i whole
      have other : bitsKey path ≠ id := by
        intro same
        exact elsewhere (by rw [← same,keyBits_bitsKey_whole whole])
      rw [Held.set,if_neg fun same => other same.2]
    · rfl

section Trees

variable [Sha256]

def rootOf (held : Held) (owner : SettlementKey) : OwnerCommitment := summaryOf (holdingScope owner) (holdingLeaves (held owner)) 256 []

def Holder (held : Held) (owner : SettlementKey) : Prop := ∃ id, held owner id ≠ none

open Classical in
noncomputable def ownerLeaves (held : Held) : Leaves := fun path =>
  if found : ∃ owner, Holder held owner ∧ keyBits (ownerKey owner) = path then
    some (.summary (rootOf held found.choose)) else none

noncomputable def leavesOf (held : Held) : OwnerTree → Leaves
  | .owners => ownerLeaves held
  | .holdings owner => holdingLeaves (held owner)

def OwnerTree.node (position : OwnerTree × List Bool) : Digest := nodeAt position.1.scope position.2

-- Every position an update of these holdings reads or writes, with the root.
def positions (visits : Set (SettlementKey × ObjectId)) : Set (OwnerTree × List Bool) :=
  { position | position = (.owners, []) ∨ ∃ visit ∈ visits, ∃ depth ≤ 256,
    position = (.holdings visit.1, (keyBits visit.2).take depth) ∨ position = (.owners, (keyBits (ownerKey visit.1)).take depth) }

-- No two positions share a node key, and no two keys share a place among the owners.
structure KeysApart (visits : Set (SettlementKey × ObjectId)) : Prop where
  nodes : Set.InjOn OwnerTree.node (positions visits)
  owners : ∀ one ∈ visits, ∀ other ∈ visits, ownerKey one.1 = ownerKey other.1 → one.1 = other.1

def keyPreimages (visits : Set (SettlementKey × ObjectId)) : Set (List UInt8) :=
  { bytes | (∃ visit ∈ visits, bytes = visit.1.raw.bytes ∨
      bytes = bytesOf "hellas-owner-holdings-v1" ++ visit.1.raw.bytes) ∨
    ∃ position ∈ positions visits, bytes = nodePreimage position.1.scope position.2 }

variable {visits : Set (SettlementKey × ObjectId)} {owner : SettlementKey} {path : List Bool}
  {scope : Digest} {held : Held} {height : Nat}

theorem positions_length (member : position ∈ positions visits) : position.2.length ≤ 256 := by
  rcases member with rfl | ⟨visit,-,depth,low,rfl | rfl⟩
  · exact Nat.zero_le _
  · rw [List.length_take]
    omega
  · rw [List.length_take]
    omega

theorem keyPreimages_mono (within : visits ⊆ more) : keyPreimages visits ⊆ keyPreimages more := by
  rintro bytes (⟨visit,inside,same⟩ | ⟨position,place,same⟩)
  · exact .inl ⟨visit,within inside,same⟩
  · refine .inr ⟨position,?_,same⟩
    rcases place with root | ⟨visit,inside,deep⟩
    · exact .inl root
    · exact .inr ⟨visit,within inside,deep⟩

theorem positions_owner (member : (.holdings owner, path) ∈ positions visits) : ∃ visit ∈ visits, visit.1 = owner := by
  rcases member with same | ⟨visit,inside,depth,low,same | same⟩
  · cases same
  · cases same
    exact ⟨visit,inside,rfl⟩
  · cases same

omit [Sha256] in
theorem nodePreimage_inj {branch : List Bool} (short : path.length ≤ 256)
    (shortToo : branch.length ≤ 256) (same : nodePreimage scope path = nodePreimage other branch) :
    scope = other ∧ path = branch := by
  unfold nodePreimage at same
  rw [List.append_cancel_left_eq] at same
  obtain ⟨scopes,rest⟩ := List.append_inj same (by rw [scope.length_eq,other.length_eq])
  obtain ⟨lengths,keys⟩ := encode_cancel.mp rest
  have length : path.length = branch.length := by
    have words := congrArg UInt16.toNat lengths
    rw [UInt16.toNat_ofNat',UInt16.toNat_ofNat'] at words
    omega
  have bits := congrArg (fun key => (keyBits key).take path.length) (FixedBytes.ext keys)
  simp only [keyBits_bitsKey,List.take_take,Nat.min_eq_left short] at bits
  rw [List.take_left,length,List.take_left] at bits
  exact ⟨FixedBytes.ext scopes,bits⟩

theorem keysApart_of (lively : Lively) (collisionFree : Set.InjOn Sha256.hash (keyPreimages visits)) :
    KeysApart visits where
  nodes := by
    intro one inside other insideToo same
    have bytes := collisionFree (.inr ⟨one,inside,rfl⟩) (.inr ⟨other,insideToo,rfl⟩) same
    obtain ⟨scopes,paths⟩ := nodePreimage_inj (positions_length inside) (positions_length insideToo) bytes
    obtain ⟨tree,path⟩ := one
    obtain ⟨otherTree,otherPath⟩ := other
    have trees : tree = otherTree := by
      cases tree with
      | owners =>
        cases otherTree with
        | owners => rfl
        | holdings owner => exact absurd scopes.symm (lively _)
      | holdings owner =>
        cases otherTree with
        | owners => exact absurd scopes (lively _)
        | holdings owner' =>
          obtain ⟨visit,known,rfl⟩ := positions_owner inside
          obtain ⟨visitToo,knownToo,rfl⟩ := positions_owner insideToo
          have keys := collisionFree (.inl ⟨visit,known,.inr rfl⟩) (.inl ⟨visitToo,knownToo,.inr rfl⟩) scopes
          rw [List.append_cancel_left_eq] at keys
          exact congrArg OwnerTree.holdings (congrArg Key.mk (FixedBytes.ext keys))
    exact Prod.ext trees paths
  owners := by
    intro one inside other insideToo same
    have keys := collisionFree (.inl ⟨one,inside,.inl rfl⟩) (.inl ⟨other,insideToo,.inl rfl⟩) same
    exact congrArg Key.mk (FixedBytes.ext keys)

theorem ownerLeaves_key (apart : ∀ other, Holder held other → ownerKey other = ownerKey owner → other = owner) (holds : Holder held owner) :
    ownerLeaves held (keyBits (ownerKey owner)) = some (.summary (rootOf held owner)) := by
  have found : ∃ other, Holder held other ∧ keyBits (ownerKey other) = keyBits (ownerKey owner) := ⟨owner,holds,rfl⟩
  rw [ownerLeaves,dif_pos found]
  rw [apart _ found.choose_spec.1 (keyBits_inj.mp found.choose_spec.2)]

theorem ownerLeaves_none (nobody : ∀ owner, Holder held owner → keyBits (ownerKey owner) ≠ path) :
    ownerLeaves held path = none := by
  rw [ownerLeaves,dif_neg]
  intro found
  obtain ⟨owner,holds,same⟩ := found
  exact nobody owner holds same

theorem ownerLeaves_some (found : ownerLeaves held path = some leaf) :
    ∃ owner, Holder held owner ∧ keyBits (ownerKey owner) = path ∧ leaf = .summary (rootOf held owner) := by
  unfold ownerLeaves at found
  split at found
  · rename_i witness
    cases found
    exact ⟨_,witness.choose_spec.1,witness.choose_spec.2,rfl⟩
  · cases found

theorem summaryOf_empty : summaryOf scope (fun _ => none) height path = .none := by
  induction height generalizing path with
  | zero =>
    rw [summaryOf_leaf]
    rfl
  | succ height ih =>
    rw [summaryOf_node,ih,ih]
    rfl

theorem stored_empty : stored scope (fun _ => none) path = none := by
  unfold stored
  rw [summaryOf_empty,summaryOf_empty]
  split <;> rfl

omit [Sha256] in
theorem holdingLeaves_empty (nothing : ¬Holder held owner) : holdingLeaves (held owner) = fun _ => none := by
  funext path
  unfold holdingLeaves
  split
  · have absent : held owner (bitsKey path) = none := by
      by_contra present
      exact nothing ⟨_,present⟩
    rw [absent]
    rfl
  · rfl

theorem leavesOf_empty (tree : OwnerTree) : leavesOf Held.empty tree = fun _ => none := by
  cases tree with
  | owners =>
    funext path
    exact ownerLeaves_none fun owner holds _ => holds.elim fun id present => present rfl
  | holdings owner => exact holdingLeaves_empty fun holds => holds.elim fun id present => present rfl

omit [Sha256] in
theorem counted_length : counted leaves height path = (Trie.entries leaves height path).length := by
  unfold counted Trie.total
  simp

omit [Sha256] in
theorem counted_holder : counted (holdingLeaves (held owner)) 256 [] = 0 ↔ ¬Holder held owner := by
  rw [counted_length,List.length_eq_zero_iff]
  constructor
  · intro empty holds
    obtain ⟨id,present⟩ := holds
    obtain ⟨entry,found⟩ := Option.ne_none_iff_exists'.mp present
    have member : (keyBits id, heldLeaf entry) ∈ Trie.entries (holdingLeaves (held owner)) 256 [] := by
      refine Trie.mem_entries.mpr ⟨keyBits id,keyBits_length,rfl,?_⟩
      rw [holdingLeaves_key,found]
      rfl
    rw [empty] at member
    cases member
  · intro nothing
    rw [List.eq_nil_iff_forall_not_mem]
    intro entry member
    obtain ⟨rest,-,-,found⟩ := Trie.mem_entries.mp member
    rw [holdingLeaves_empty nothing] at found
    cases found

theorem rootOf_exact (lively : Lively) (bounded : Bounded (holdingLeaves (held owner)) 256 []) :
    (rootOf held owner).Exact (holdingLeaves (held owner)) 256 [] := summaryOf_exact lively bounded

theorem rootOf_vacant (lively : Lively) (bounded : Bounded (holdingLeaves (held owner)) 256 []) :
    (rootOf held owner).count = 0 ↔ ¬Holder held owner := by
  rw [← counted_holder,← (rootOf_exact lively bounded).1,← UInt64.toNat_inj,UInt64.toNat_zero]

theorem rootOf_well (lively : Lively) : (rootOf held owner).Well := summaryOf_well lively

theorem ownerLeaves_set (lively : Lively) {id : ObjectId} {value : Option (UInt8 × UInt64)}
    (bounded : Bounded (holdingLeaves (held.set owner id value owner)) 256 [])
    (apart : ∀ one other, (Holder held one ∨ one = owner) → (Holder held other ∨ other = owner) →
      ownerKey one = ownerKey other → one = other) :
    ownerLeaves (held.set owner id value) = Trie.write (ownerLeaves held) (keyBits (ownerKey owner))
        (summaryLeaf (rootOf (held.set owner id value) owner)) := by
  have rooted {other : SettlementKey} (different : other ≠ owner) :
      rootOf (held.set owner id value) other = rootOf held other := by
    rw [rootOf,rootOf,Held.set_other different]
  have held_other {other : SettlementKey} (different : other ≠ owner) :
      Holder (held.set owner id value) other ↔ Holder held other := by
    rw [Holder,Holder,Held.set_other different]
  have known {other : SettlementKey} (holds : Holder (held.set owner id value) other) :
      Holder held other ∨ other = owner := by
    by_cases same : other = owner
    · exact .inr same
    · exact .inl ((held_other same).mp holds)
  funext path
  unfold Trie.write summaryLeaf
  split
  · rename_i here
    rw [here]
    split
    · rename_i vacant
      apply ownerLeaves_none
      intro other holds same
      have equal := apart other owner (known holds) (.inr rfl) (keyBits_inj.mp same)
      exact (rootOf_vacant lively bounded).mp vacant (equal ▸ holds)
    · rename_i occupied
      apply ownerLeaves_key
      · intro other holds same
        exact apart other owner (known holds) (.inr rfl) same
      · by_contra nothing
        exact occupied ((rootOf_vacant lively bounded).mpr nothing)
  · rename_i elsewhere
    cases found : ownerLeaves held path with
    | none =>
      apply ownerLeaves_none
      intro other holds same
      have different : other ≠ owner := by
        intro equal
        exact elsewhere (by rw [← same,equal])
      have present := (held_other different).mp holds
      rw [← same,ownerLeaves_key (fun third holdsThird sameKey =>
        apart third other (.inl holdsThird) (.inl present) sameKey) present] at found
      cases found
    | some leaf =>
      obtain ⟨other,holds,same,rfl⟩ := ownerLeaves_some found
      have different : other ≠ owner := by
        intro equal
        exact elsewhere (by rw [← same,equal])
      have present := (held_other different).mpr holds
      rw [← same,ownerLeaves_key (fun third holdsThird sameKey =>
        apart third other (known holdsThird) (.inl holds) sameKey) present,rooted different]

end Trees

section Grown

variable [Sha256] {σ : Type} [OwnerTreeStore σ] {store : σ}

def Grown (space : Set (OwnerTree × List Bool)) (store : σ) (trees : OwnerTree → Leaves) : Prop :=
  ∀ position ∈ space, getNode store (OwnerTree.node position) = .ok (stored position.1.scope (trees position.1) position.2)

def Inside (space : Set (OwnerTree × List Bool)) (tree : OwnerTree) (key : Digest) : Prop :=
  ∀ depth ≤ 256, (tree, (keyBits key).take depth) ∈ space

variable {trees : OwnerTree → Leaves}

theorem Grown.onPath (grown : Grown space store trees) (inside : Inside space tree key) :
    OnPath store tree.scope (trees tree) key := by
  intro depth low
  rw [nodeKey_at low]
  exact grown _ (inside depth low)

theorem Inside.apart (inside : Inside space tree key) (distinct : Set.InjOn OwnerTree.node space) :
    ∀ depth ≤ 256, ∀ other ≤ 256, nodeKey tree.scope key depth = nodeKey tree.scope key other → depth = other := by
  intro depth low other high same
  rw [nodeKey_at low,nodeKey_at high] at same
  have paths := distinct (inside depth low) (inside other high) same
  have lengths := congrArg (fun position => position.2.length) paths
  simp only [List.length_take,keyBits_length] at lengths
  omega

theorem stored_write_off {scope : Digest} {leaves : Leaves} {leaf : Option OwnerLeaf}
    {path : List Bool} (off : ∀ depth ≤ 256, path ≠ (keyBits key).take depth) :
    stored scope (Trie.write leaves (keyBits key) leaf) path = stored scope leaves path := by
  unfold stored
  split
  · rename_i short
    have below (bit : Bool) : summaryOf scope (Trie.write leaves (keyBits key) leaf)
        (255 - path.length) (path ++ [bit]) = summaryOf scope leaves (255 - path.length) (path ++ [bit]) := by
      apply Trie.fold_write_off
      intro rest _ same
      have front := congrArg (List.take path.length) same
      rw [List.append_assoc,List.take_left] at front
      exact off path.length (by omega) front
    rw [below,below]
  · have other : path ≠ keyBits key := by
      intro same
      refine off 256 (le_refl _) ?_
      rw [same,List.take_of_length_le (by simp)]
    rw [Trie.write,if_neg other]

theorem update_grown (lively : Lively) [LawfulOwnerTreeStore σ] (distinct : Set.InjOn OwnerTree.node space)
    (inside : Inside space tree key) (grown : Grown space store trees)
    (reads : ∀ old, trees tree (keyBits key) = some old → old.Well) (valid : ∀ found ∈ leaf, found.Valid tree.scope)
    (bounded : Bounded (Trie.write (trees tree) (keyBits key) leaf) 256 []) :
    ∃ next, update store tree.scope key leaf = .ok (next, summaryOf tree.scope (Trie.write (trees tree) (keyBits key) leaf) 256 []) ∧
      Grown space next (Function.update trees tree (Trie.write (trees tree) (keyBits key) leaf)) := by
  obtain ⟨next,updated,here,elsewhere⟩ := update_exact lively (grown.onPath inside) (inside.apart distinct) reads valid bounded
  refine ⟨next,updated,?_⟩
  intro position member
  by_cases onPath : ∃ depth ≤ 256, position = (tree, (keyBits key).take depth)
  · obtain ⟨depth,low,rfl⟩ := onPath
    have found := here depth low
    rw [nodeKey_at low] at found
    rw [Function.update_self]
    exact found
  · have outside : ∀ depth ≤ 256, OwnerTree.node position ≠ nodeKey tree.scope key depth := by
      intro depth low same
      rw [nodeKey_at low] at same
      exact onPath ⟨depth,low,distinct member (inside depth low) same⟩
    rw [elsewhere _ outside,grown position member]
    by_cases same : position.1 = tree
    · have off : ∀ depth ≤ 256, position.2 ≠ (keyBits key).take depth := by
        intro depth low equal
        exact onPath ⟨depth,low,Prod.ext same equal⟩
      rw [same,Function.update_self,stored_write_off off]
    · rw [Function.update_of_ne same]

theorem grown_empty (vacant : ∀ position ∈ space, getNode store (OwnerTree.node position) = .ok none) :
    Grown space store (leavesOf Held.empty) := by
  intro position member
  rw [leavesOf_empty,stored_empty,vacant position member]

end Grown

section Keeping

variable [Sha256] {σ : Type} [OwnerTreeStore σ] {store next : σ}
  {visits : Set (SettlementKey × ObjectId)} {held : Held} {owner : SettlementKey} {id : ObjectId}
  {value : Option (UInt8 × UInt64)}

def ValidEntry (entry : UInt8 × UInt64) : Prop := validKind entry.1 entry.2 = true

-- The store keeps exactly these holdings, all of them visited and none beyond its words.
structure Keeps (visits : Set (SettlementKey × ObjectId)) (store : σ) (held : Held) : Prop where
  grown : Grown (positions visits) store (leavesOf held)
  visited : ∀ owner id, held owner id ≠ none → (owner, id) ∈ visits
  kinds : ∀ owner id, ∀ entry ∈ held owner id, ValidEntry entry
  holdings : ∀ owner, Bounded (holdingLeaves (held owner)) 256 []
  owners : Bounded (ownerLeaves held) 256 []

theorem inside_holdings (visit : (owner, id) ∈ visits) : Inside (positions visits) (.holdings owner) id :=
  fun depth low => .inr ⟨_,visit,depth,low,.inl rfl⟩

theorem inside_owners (visit : (owner, id) ∈ visits) : Inside (positions visits) .owners (ownerKey owner) :=
  fun depth low => .inr ⟨_,visit,depth,low,.inr rfl⟩

theorem heldLeaf_valid (lively : Lively) : (heldLeaf entry).Valid (holdingScope owner) ↔ ValidEntry entry :=
  ⟨fun valid => valid.2,fun valid => ⟨lively _,valid⟩⟩

theorem Keeps.apart (keeps : Keeps visits store held) (distinct : KeysApart visits) (visit : (owner, id) ∈ visits) :
    ∀ one other, (Holder held one ∨ one = owner) → (Holder held other ∨ other = owner) → ownerKey one = ownerKey other → one = other := by
  have known : ∀ one, (Holder held one ∨ one = owner) → ∃ key, (one, key) ∈ visits := by
    intro one either
    rcases either with ⟨key,present⟩ | same
    · exact ⟨key,keeps.visited one key present⟩
    · exact ⟨id,same ▸ visit⟩
  intro one other first second same
  obtain ⟨firstId,firstVisit⟩ := known one first
  obtain ⟨secondId,secondVisit⟩ := known other second
  exact distinct.owners _ firstVisit _ secondVisit same

theorem leavesOf_set (lively : Lively) (keeps : Keeps visits store held) (distinct : KeysApart visits)
    (visit : (owner, id) ∈ visits) (bounded : Bounded (holdingLeaves (held.set owner id value owner)) 256 []) :
    Function.update (Function.update (leavesOf held) (.holdings owner)
        (Trie.write (holdingLeaves (held owner)) (keyBits id) (value.map heldLeaf))) .owners
      (Trie.write (ownerLeaves held) (keyBits (ownerKey owner)) (summaryLeaf (rootOf (held.set owner id value) owner))) =
      leavesOf (held.set owner id value) := by
  funext tree
  cases tree with
  | owners => rw [Function.update_self,leavesOf,ownerLeaves_set lively bounded (keeps.apart distinct visit)]
  | holdings other =>
    rw [Function.update_of_ne (by simp),leavesOf]
    by_cases same : other = owner
    · rw [same,Function.update_self,holdingLeaves_set]
    · rw [Function.update_of_ne (by simpa using same),leavesOf,Held.set_other same]

theorem Keeps.set_facts (keeps : Keeps visits store held) (visit : (owner, id) ∈ visits) (valid : ∀ entry ∈ value, ValidEntry entry)
    (bounded : Bounded (holdingLeaves (held.set owner id value owner)) 256 [])
    (boundedOwners : Bounded (ownerLeaves (held.set owner id value)) 256 [])
    (grown : Grown (positions visits) next (leavesOf (held.set owner id value))) :
    Keeps visits next (held.set owner id value) where
  grown := grown
  visited := by
    intro other key present
    unfold Held.set at present
    split at present
    · rename_i same
      rw [same.1,same.2]
      exact visit
    · exact keeps.visited other key present
  kinds := by
    intro other key entry found
    unfold Held.set at found
    split at found
    · exact valid entry found
    · exact keeps.kinds other key entry found
  holdings := by
    intro other
    by_cases same : other = owner
    · rw [same]
      exact bounded
    · rw [Held.set_other same]
      exact keeps.holdings other
  owners := boundedOwners

theorem leavesOf_reads (lively : Lively) {tree : OwnerTree} {path : List Bool} {leaf : OwnerLeaf}
    (found : leavesOf held tree path = some leaf) : leaf.Well := by
  cases tree with
  | owners =>
    obtain ⟨other,-,-,rfl⟩ := ownerLeaves_some found
    exact rootOf_well lively
  | holdings owner =>
    rw [leavesOf,holdingLeaves] at found
    split at found
    · obtain ⟨entry,-,rfl⟩ := Option.map_eq_some_iff.mp found
      trivial
    · cases found

omit [Sha256] in
theorem summaryLeaf_valid {root : OwnerCommitment} (well : root.Well) :
    ∀ found ∈ summaryLeaf root, found.Valid zeroDigest := by
  intro found member
  unfold summaryLeaf at member
  split at member
  · cases member
  · rename_i occupied
    cases member
    exact ⟨rfl,occupied,well⟩

theorem leavesOf_owners : Function.update (leavesOf held) (.holdings owner) leaves .owners = ownerLeaves held :=
  Function.update_of_ne (by simp) _ _

theorem updateHolding_ok (lively : Lively) [LawfulOwnerTreeStore σ] (keeps : Keeps visits store held)
    (distinct : KeysApart visits) (visit : (owner, id) ∈ visits) (valid : ∀ entry ∈ value, ValidEntry entry)
    (bounded : Bounded (holdingLeaves (held.set owner id value owner)) 256 [])
    (boundedOwners : Bounded (ownerLeaves (held.set owner id value)) 256 []) :
    ∃ next, updateHolding store owner id value = .ok next ∧ Keeps visits next (held.set owner id value) := by
  have validLeaf : ∀ found ∈ value.map heldLeaf, found.Valid (holdingScope owner) := by
    intro found member
    obtain ⟨entry,inside,rfl⟩ := Option.mem_map.mp member
    exact (heldLeaf_valid lively).mpr (valid entry inside)
  obtain ⟨middle,first,grown⟩ := update_grown lively distinct.nodes (inside_holdings visit)
    keeps.grown (fun _ => leavesOf_reads lively) validLeaf (by rw [leavesOf,← holdingLeaves_set]; exact bounded)
  rw [leavesOf,← holdingLeaves_set] at first
  have written := ownerLeaves_set lively bounded (keeps.apart distinct visit)
  obtain ⟨next,second,whole⟩ := update_grown lively distinct.nodes (inside_owners visit) grown
    (by rw [leavesOf_owners]; exact fun _ => @leavesOf_reads _ held lively .owners _ _)
    (summaryLeaf_valid (rootOf_well lively)) (by rw [leavesOf_owners,← written]; exact boundedOwners)
  rw [leavesOf_owners] at whole second
  rw [leavesOf,leavesOf_set lively keeps distinct visit bounded] at whole
  refine ⟨next,?_,keeps.set_facts visit valid bounded boundedOwners whole⟩
  unfold updateHolding
  rw [bind_ok]
  exact ⟨_,first,by rw [bind_ok]; exact ⟨_,second,rfl⟩⟩

theorem updateHolding_keeps (lively : Lively) [LawfulOwnerTreeStore σ]
    (keeps : Keeps visits store held) (distinct : KeysApart visits) (visit : (owner, id) ∈ visits)
    (updated : updateHolding store owner id value = .ok next) :
    Keeps visits next (held.set owner id value) := by
  have ran := updated
  unfold updateHolding at updated
  simp only [bind_ok,pure_ok] at updated
  obtain ⟨⟨middle,root⟩,first,⟨last,top⟩,second,-⟩ := updated
  have leafWell : ∀ found ∈ value.map heldLeaf, found.Well := by
    intro found member
    obtain ⟨entry,-,rfl⟩ := Option.mem_map.mp member
    trivial
  obtain ⟨validLeaf,bounded⟩ := update_room lively
    (keeps.grown.onPath (inside_holdings visit)) (fun _ => leavesOf_reads lively) (keeps.holdings owner) leafWell first
  have valid : ∀ entry ∈ value, ValidEntry entry := by
    intro entry member
    exact (heldLeaf_valid lively).mp (validLeaf _ (Option.mem_map.mpr ⟨entry,member,rfl⟩))
  obtain ⟨known,again,grown⟩ := update_grown lively distinct.nodes (inside_holdings visit)
    keeps.grown (fun _ => leavesOf_reads lively) validLeaf bounded
  have same := first.symm.trans again
  simp only [Except.ok.injEq,Prod.mk.injEq] at same
  have rooted : summaryOf (OwnerTree.holdings owner).scope
      (Trie.write (leavesOf held (.holdings owner)) (keyBits id) (value.map heldLeaf)) 256 [] = rootOf (held.set owner id value) owner := by
    rw [leavesOf,← holdingLeaves_set]
    rfl
  rw [leavesOf,← holdingLeaves_set] at bounded
  have path := grown.onPath (inside_owners visit)
  rw [leavesOf_owners,← same.1] at path
  dsimp only at second
  rw [same.2,rooted] at second
  obtain ⟨-,boundedOwners⟩ := update_room lively path (fun _ => @leavesOf_reads _ held lively .owners _ _) keeps.owners
    (fun found member => (summaryLeaf_valid (rootOf_well lively) found member).well) second
  rw [← ownerLeaves_set lively bounded (keeps.apart distinct visit)] at boundedOwners
  obtain ⟨result,found,kept⟩ := updateHolding_ok lively keeps distinct visit valid bounded boundedOwners
  rw [ran,Except.ok.injEq] at found
  rw [found]
  exact kept

omit [OwnerTreeStore σ] in
theorem bounded_empty (tree : OwnerTree) : Bounded (leavesOf Held.empty tree) 256 [] := by
  have nothing : Trie.entries (leavesOf Held.empty tree) 256 [] = [] := by
    rw [List.eq_nil_iff_forall_not_mem]
    intro entry member
    obtain ⟨rest,-,-,found⟩ := Trie.mem_entries.mp member
    rw [leavesOf_empty] at found
    cases found
  constructor
  · rw [counted,Trie.total,nothing]
    decide
  · rw [funded,Trie.total,nothing]
    decide

theorem keeps_empty (vacant : ∀ position ∈ positions visits, getNode store (OwnerTree.node position) = .ok none) :
    Keeps visits store Held.empty where
  grown := grown_empty vacant
  visited _ _ present := absurd rfl present
  kinds _ _ _ found := by cases found
  holdings owner := bounded_empty (.holdings owner)
  owners := bounded_empty .owners

end Keeping

section Calls

variable [Sha256] {σ : Type} [OwnerTreeStore σ]

structure HoldingCall where
  owner : SettlementKey
  objectId : ObjectId
  value : Option (UInt8 × UInt64)

def HoldingCall.run (store : σ) (call : HoldingCall) : Except (σ × OwnerProofError) σ :=
  updateHolding store call.owner call.objectId call.value

def HoldingCall.visit (call : HoldingCall) : SettlementKey × ObjectId := (call.owner, call.objectId)

def HoldingCall.apply (held : Held) (call : HoldingCall) : Held := held.set call.owner call.objectId call.value

theorem calls_keep (lively : Lively) [LawfulOwnerTreeStore σ] {visits : Set (SettlementKey × ObjectId)}
    (distinct : KeysApart visits) {calls : List HoldingCall} (inside : ∀ call ∈ calls, call.visit ∈ visits)
    {start final : σ} {held : Held} (keeps : Keeps visits start held)
    (ran : calls.foldlM HoldingCall.run start = .ok final) :
    Keeps visits final (calls.foldl HoldingCall.apply held) := by
  induction calls generalizing start held with
  | nil =>
    cases ran
    exact keeps
  | cons call calls ih =>
    rw [List.foldlM_cons,bind_ok] at ran
    obtain ⟨middle,first,rest⟩ := ran
    exact ih (fun other member => inside other (List.mem_cons_of_mem _ member))
      (updateHolding_keeps lively keeps distinct (inside call List.mem_cons_self) first) rest

end Calls

end Hellas.Chain
