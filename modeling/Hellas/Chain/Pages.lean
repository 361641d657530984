import Hellas.Chain.History
import Mathlib.Data.List.Sort

-- The store's own pages: the search finds the holdings of its window, and what it returns is
-- accepted.

namespace Hellas.Chain

open Guard Kernel Words

section Search

variable [Sha256] {σ : Type} [OwnerTreeStore σ] {store : σ}
  {visits : Set (SettlementKey × ObjectId)} {held : Held} {owner : SettlementKey}

variable {scope : Digest} {path : List Bool}

theorem nodeKey_bitsKey (short : path.length ≤ 256) : nodeKey scope (bitsKey path) path.length = nodeAt scope path := by
  rw [nodeKey_at short,keyBits_bitsKey,List.take_take,min_eq_left short,List.take_left]

def window (offset final : Nat) (rank : Nat) (entries : List α) : List α := (entries.take (final - rank)).drop (offset - rank)

omit [Sha256] in
theorem window_append :
    window offset final rank (left ++ right) = window offset final rank left ++ window offset final (rank + left.length) right := by
  unfold window
  rw [List.take_append,List.drop_append,List.length_take]
  by_cases inside : left.length ≤ final - rank
  · rw [Nat.min_eq_right inside]
    congr 2
    · omega
    · congr 1
      omega
  · have nothing : final - (rank + left.length) = 0 := by omega
    have exhausted : final - rank - left.length = 0 := by omega
    rw [nothing,exhausted]
    simp

def foundAt (scope : Digest) (leaves : Leaves) (entry : List Bool × OwnerLeaf) : HoldingProof :=
  ⟨bitsKey entry.1,proofOf scope leaves (bitsKey entry.1)⟩

theorem Keeps.onHolding (keeps : Keeps visits store held) {id : ObjectId} (present : held owner id ≠ none) :
    OnPath store (holdingScope owner) (holdingLeaves (held owner)) id :=
  keeps.grown.onPath (inside_holdings (keeps.visited owner id present))

theorem Keeps.node_below (keeps : Keeps visits store held) (sized : path.length + height = 256)
    (below : entry ∈ Trie.entries (holdingLeaves (held owner)) height path) :
    getNode store (nodeKey (holdingScope owner) (bitsKey path) path.length) =
      .ok (stored (holdingScope owner) (holdingLeaves (held owner)) path) := by
  obtain ⟨key,leaf⟩ := entry
  obtain ⟨rest,length,same,found⟩ := Trie.mem_entries.mp below
  have whole : key.length = 256 := by rw [same,List.length_append,length,sized]
  have present : held owner (bitsKey key) ≠ none := by
    intro absent
    rw [holdingLeaves,if_pos whole,absent] at found
    cases found
  have here := keeps.onHolding present path.length (by omega)
  have taken : (keyBits (bitsKey key)).take path.length = path := by
    rw [keyBits_bitsKey_whole whole,same,List.take_left]
  rw [nodeKey_at (by omega),taken] at here
  rw [nodeKey_bitsKey (by omega)]
  exact here

omit [Sha256] in
theorem window_nil {entries : List α} (outside : entries.length = 0 ∨ final ≤ rank ∨ rank + entries.length ≤ offset) :
    window offset final rank entries = [] := by
  unfold window
  apply List.drop_eq_nil_of_le
  rw [List.length_take]
  omega

omit [Sha256] in
theorem window_all (low : offset ≤ rank) (high : rank < final) : window offset final rank [entry] = [entry] := by
  have first : offset - rank = 0 := by omega
  unfold window
  rw [first,List.drop_zero,List.take_of_length_le]
  rw [List.length_singleton]
  omega

omit [Sha256] in
theorem skipped_exact {commit : OwnerCommitment} {rank : UInt64}
    (counts : commit.count.toNat = length) (room : rank.toNat + length < 2^64) :
    (commit.count = 0 ∨ final ≤ rank ∨ saturatingAdd rank commit.count ≤ offset) ↔
      (length = 0 ∨ final.toNat ≤ rank.toNat ∨ rank.toNat + length ≤ offset.toNat) := by
  rw [UInt64.le_iff_toNat_le,UInt64.le_iff_toNat_le,saturatingAdd_toNat (by rw [counts]; exact room),
    ← UInt64.toNat_inj,counts,UInt64.toNat_zero]

theorem collect_branch {left right : OwnerCommitment} {rank next : UInt64} (inside : depth < 256) (leftWell : left.Well)
    (rightWell : right.Well) (fits : Fits left right)
    (read : getNode store (nodeKey scope key depth) = .ok (encodeBranch left right))
    (ranked : rank.toNat + left.count.toNat = next.toNat)
    (taken : ¬((merge left right).count = 0 ∨ final ≤ rank ∨ saturatingAdd rank (merge left right).count ≤ offset)) :
    collect store scope offset final (⟨key,depth,rank,merge left right⟩ :: stack) found =
      collect store scope offset final (⟨key,depth + 1,rank,left⟩ ::
        ⟨setBit key depth,depth + 1,next,right⟩ :: stack) found := by
  have children := branch_encodeBranch leftWell rightWell
  have joined := combine_exact.mpr ⟨fits,rfl⟩
  have sum := checkedAdd_exact.mpr ranked
  rw [collect,if_neg taken,if_pos inside,read]
  simp only [bind,Except.bind,children,joined,sum,okOr,rejectIf,ne_eq,not_true_eq_false,if_false]

-- A subtree on the stack adds exactly the holdings of its window, in order.
theorem collect_exact (lively : Lively) (keeps : Keeps visits store held) {offset final : UInt64} :
    ∀ height path (rank : UInt64) stack found, path.length + height = 256 →
      rank.toNat + (Trie.entries (holdingLeaves (held owner)) height path).length < 2^64 →
      collect store (holdingScope owner) offset final (⟨bitsKey path,path.length,rank,
        summaryOf (holdingScope owner) (holdingLeaves (held owner)) height path⟩ :: stack) found =
      collect store (holdingScope owner) offset final stack (found ++ (window offset.toNat final.toNat rank.toNat
          (Trie.entries (holdingLeaves (held owner)) height path)).map (foundAt (holdingScope owner) (holdingLeaves (held owner)))) := by
  intro height
  induction height with
  | zero =>
    intro path rank stack found sized room
    have whole : path.length = 256 := by omega
    have counts := (@summaryOf_exact _ lively (holdingScope owner) _ _ _ ((keeps.holdings owner).inner sized)).1
    rw [counted_length] at counts
    rw [collect]
    split
    · rename_i skip
      rw [window_nil ((skipped_exact counts room).mp skip),List.map_nil,List.append_nil]
    · rename_i taken
      rw [skipped_exact counts room,not_or,not_or] at taken
      obtain ⟨several,early,late⟩ := taken
      obtain ⟨entry,single⟩ : ∃ entry, Trie.entries (holdingLeaves (held owner)) 0 path = [entry] := by
        rw [Trie.entries] at several ⊢
        cases atPath : holdingLeaves (held owner) path with
        | none =>
          rw [atPath] at several
          exact absurd rfl several
        | some leaf => exact ⟨_,rfl⟩
      have member : entry ∈ Trie.entries (holdingLeaves (held owner)) 0 path := by
        rw [single]
        exact List.mem_singleton_self entry
      obtain ⟨key,leaf⟩ := entry
      obtain ⟨rest,length,same,here⟩ := Trie.mem_entries.mp member
      rw [List.length_eq_zero_iff.mp length,List.append_nil] at same
      have present : held owner (bitsKey path) ≠ none := by
        intro absent
        rw [same,holdingLeaves,if_pos whole,absent] at here
        cases here
      have read := path_exact lively (keeps.onHolding present) (fun _ => @leavesOf_reads _ held lively (.holdings owner) _ _)
      rw [single,List.length_singleton] at late
      rw [if_neg (show ¬path.length < 256 by omega),read,single,
        window_all (by omega) (by omega),same]
      rfl
  | succ height ih =>
    intro path rank stack found sized room
    have bounded := (keeps.holdings owner).inner sized
    have counts := (@summaryOf_exact _ lively (holdingScope owner) _ _ _ bounded).1
    have low := (@summaryOf_exact _ lively (holdingScope owner) _ _ _ (bounded.child false)).1
    rw [counted_length] at counts low
    have split : Trie.entries (holdingLeaves (held owner)) (height + 1) path =
        Trie.entries (holdingLeaves (held owner)) height (path ++ [false]) ++
          Trie.entries (holdingLeaves (held owner)) height (path ++ [true]) := by
      rw [Trie.entries]
    by_cases skip : (summaryOf (holdingScope owner) (holdingLeaves (held owner)) (height + 1)
        path).count = 0 ∨ final ≤ rank ∨ saturatingAdd rank (summaryOf (holdingScope owner)
          (holdingLeaves (held owner)) (height + 1) path).count ≤ offset
    · rw [collect,if_pos skip,window_nil ((skipped_exact counts room).mp skip),List.map_nil,
        List.append_nil]
    · have occupied : (Trie.entries (holdingLeaves (held owner)) (height + 1) path).length ≠ 0 :=
        fun empty => skip ((skipped_exact counts room).mpr (.inl empty))
      obtain ⟨entry,member⟩ := List.exists_mem_of_length_pos (Nat.pos_of_ne_zero occupied)
      have inside : path.length < 256 := by omega
      have below : 255 - path.length = height := by omega
      have read := keeps.node_below sized member
      rw [stored,if_pos inside,below] at read
      rw [split,List.length_append] at room
      obtain ⟨next,ranked⟩ := exists_word (show rank.toNat + (Trie.entries
        (holdingLeaves (held owner)) height (path ++ [false])).length < 2^64 by omega)
      rw [summaryOf_node] at skip ⊢
      rw [← low] at ranked
      rw [collect_branch inside (summaryOf_well lively) (summaryOf_well lively) (Bounded.fits lively bounded) read ranked skip]
      have deeper (turn : Bool) : (path ++ [turn]).length = path.length + 1 := by simp
      have first := ih (path ++ [false]) rank
      have second := ih (path ++ [true]) next
      rw [deeper,bitsKey_low inside] at first
      rw [deeper,bitsKey_high inside] at second
      rw [low] at ranked
      rw [first _ _ (by omega) (by omega),second _ _ (by omega) (by omega),split,window_append,
        ranked,List.map_append,List.append_assoc]

theorem Keeps.valid (lively : Lively) (keeps : Keeps visits store held) (found : leavesOf held tree path = some leaf) :
    leaf.Valid tree.scope := by
  cases tree with
  | owners =>
    obtain ⟨other,holds,-,rfl⟩ := ownerLeaves_some found
    refine ⟨rfl,?_,rootOf_well lively⟩
    intro vacant
    exact (rootOf_vacant lively (keeps.holdings other)).mp vacant holds
  | holdings other =>
    rw [leavesOf,holdingLeaves] at found
    split at found
    · obtain ⟨entry,present,rfl⟩ := Option.map_eq_some_iff.mp found
      exact (heldLeaf_valid lively).mpr (keeps.kinds other _ entry present)
    · cases found

theorem collect_page (lively : Lively) (keeps : Keeps visits store held) {offset final : UInt64} :
    collect store (holdingScope owner) offset final [⟨zeroDigest,0,0,rootOf held owner⟩] [] =
      .ok ((window offset.toNat final.toNat 0 (Trie.entries (holdingLeaves (held owner)) 256 [])).map
        (foundAt (holdingScope owner) (holdingLeaves (held owner)))) := by
  have room : (0 : UInt64).toNat + (Trie.entries (holdingLeaves (held owner)) 256 []).length < 2^64 := by
    rw [← counted_length,UInt64.toNat_zero,Nat.zero_add]
    exact (keeps.holdings owner).count
  have zero : bitsKey [] = zeroDigest := by decide
  have run := @collect_exact _ _ _ store visits held owner lively keeps offset final 256 [] 0 [] [] rfl room
  rw [zero,List.length_nil,UInt64.toNat_zero,List.nil_append] at run
  rw [rootOf,run,collect]

end Search

section Complete

variable [Sha256] {σ : Type} [OwnerTreeStore σ] {store : σ}
  {visits : Set (SettlementKey × ObjectId)} {held : Held} {owner : SettlementKey} {cursor : ObjectId}
  (lively : Lively) (keeps : Keeps visits store held) (distinct : KeysApart visits)
  (visit : (owner, cursor) ∈ visits)

include lively keeps

variable {offset : UInt64} {limit : UInt32}

theorem holding_complete (found : (Trie.entries (holdingLeaves (held owner)) 256 [])[index]? = some entry) :
    ∃ rank : UInt64, verifyPath (holdingScope owner) (bitsKey entry.1)
        (proofOf (holdingScope owner) (holdingLeaves (held owner)) (bitsKey entry.1)) =
          .ok (rootOf held owner, rank) ∧ rank.toNat = index := by
  have same := (entry_placed (List.mem_of_getElem? found)).1
  have path : keyBits (bitsKey entry.1) = entry.1 := (congrArg Prod.fst same).symm
  have whole : entry.1.length = 256 := by rw [← path,keyBits_length]
  obtain ⟨rank,verified,placed⟩ := @path_complete _ (holdingScope owner) (bitsKey entry.1)
    (holdingLeaves (held owner)) lively (keeps.holdings owner)
    (fun leaf here => keeps.valid lively
      (show leavesOf held (.holdings owner) (keyBits (bitsKey entry.1)) = some leaf from here))
  refine ⟨rank,verified,?_⟩
  rw [placed,path]
  exact Trie.entries_place whole found

theorem verifyHolding_complete (found : (Trie.entries (holdingLeaves (held owner)) 256 [])[index]? = some entry)
    (placed : (offset + UInt64.ofNat position).toNat = index) :
    verifyHolding owner offset (rootOf held owner)
      (foundAt (holdingScope owner) (holdingLeaves (held owner)) entry, position) = .ok () := by
  obtain ⟨rank,verified,ranked⟩ := holding_complete lively keeps found
  have same := (entry_placed (List.mem_of_getElem? found)).2
  have leaf : ∃ leaf ∈ (foundAt (holdingScope owner) (holdingLeaves (held owner)) entry).path.leaf, leaf.isHolding = true := by
    refine ⟨heldLeaf entry.2.entry,?_,rfl⟩
    rw [foundAt,proofOf,holdingLeaves_key,same]
    rfl
  have equal : rank = offset + UInt64.ofNat position := by
    rw [← UInt64.toNat_inj,ranked,placed]
  simp only [verifyHolding,bind_ok,rejectIf_ok,not_not,not_or]
  exact ⟨(),leaf,(rootOf held owner, rank),verified,rfl,equal⟩

theorem not_past (low : offset.toNat ≤ (listing held owner).length) : ¬(rootOf held owner).count < offset := by
  rw [UInt64.lt_iff_toNat_lt,(rootOf_exact lively (keeps.holdings owner)).1,← listing_length]
  omega

include distinct visit

theorem owner_root : (proofOf zeroDigest (ownerLeaves held) (ownerKey owner)).root = .ok (rootOf held owner) :=
  (root_summaryLeaf (ownerLeaves_at lively keeps distinct visit) (rootOf_well lively)).mpr rfl

def ownPage [Base58] (held : Held) (owner : SettlementKey) (offset : UInt64) (limit : UInt32) (summary : OwnerPathProof) : OwnerPageProof :=
  ⟨keyText owner,summary,offset,limit,(window offset.toNat (min (saturatingAdd offset limit.toUInt64) (rootOf held owner).count).toNat 0
      (Trie.entries (holdingLeaves (held owner)) 256 [])).map (foundAt (holdingScope owner) (holdingLeaves (held owner))),none,none⟩

theorem proveOwnerPage_exact [Base58] (positive : limit ≠ 0) (bounded : limit ≤ ownerPageLimit)
    (low : offset.toNat ≤ (listing held owner).length) :
    proveOwnerPage store owner offset limit = .ok (ownPage held owner offset limit
      (proofOf zeroDigest (ownerLeaves held) (ownerKey owner))) := by
  have read := path_exact lively (keeps.grown.onPath (inside_owners visit)) (fun _ => @leavesOf_reads _ held lively .owners _ _)
  have root := owner_root lively keeps distinct visit
  have early := not_past lively keeps low
  have found := @collect_page _ _ _ store visits held owner lively keeps offset
    (min (saturatingAdd offset limit.toUInt64) (rootOf held owner).count)
  simp only [proveOwnerPage,bind_ok,rejectIf_ok,pure_ok,not_or]
  exact ⟨(),⟨positive,UInt32.not_lt.mpr bounded⟩,_,read,_,root,(),early,_,found,rfl⟩

theorem page_complete [Base58] (positive : limit ≠ 0) (bounded : limit ≤ ownerPageLimit)
    (low : offset.toNat ≤ (listing held owner).length) (afterKey : Option Digest) (afterPath : Option OwnerPathProof) :
    verifyOwnerPageAt (topOf held).hash owner offset limit
      { ownPage held owner offset limit (proofOf zeroDigest (ownerLeaves held) (ownerKey owner)) with
        afterKey := afterKey, afterPath := afterPath } = .ok (rootOf held owner) := by
  have root := owner_root lively keeps distinct visit
  obtain ⟨rank,climbed,-⟩ := @path_complete _ zeroDigest (ownerKey owner) (ownerLeaves held) lively
    keeps.owners (fun leaf here => keeps.valid lively
      (show leavesOf held .owners (keyBits (ownerKey owner)) = some leaf from here))
  have count : (rootOf held owner).count.toNat = (Trie.entries (holdingLeaves (held owner)) 256 []).length := by
    rw [(rootOf_exact lively (keeps.holdings owner)).1,counted_length]
  have early := not_past lively keeps low
  rw [listing_length,counted_length] at low
  have last : (min (saturatingAdd offset limit.toUInt64) (rootOf held owner).count).toNat =
      min (offset.toNat + limit.toNat) (Trie.entries (holdingLeaves (held owner)) 256 []).length := by
    rw [min_toNat,saturatingAdd_min,count]
    rfl
  have rest : ((rootOf held owner).count - offset).toNat = (Trie.entries (holdingLeaves (held owner)) 256 []).length - offset.toNat := by
    rw [UInt64.toNat_sub_of_le _ _ (UInt64.not_lt.mp early),count]
  have length : (ownPage held owner offset limit (proofOf zeroDigest (ownerLeaves held)
      (ownerKey owner))).holdings.length = (min limit.toUInt64 ((rootOf held owner).count - offset)).toNat := by
    have word : limit.toUInt64.toNat = limit.toNat := rfl
    rw [ownPage,List.length_map,window,List.length_drop,List.length_take,last,min_toNat,rest,word]
    omega
  have each : ∀ entry ∈ (ownPage held owner offset limit (proofOf zeroDigest (ownerLeaves held)
      (ownerKey owner))).holdings.zipIdx, verifyHolding owner offset (rootOf held owner) entry = .ok () := by
    intro entry member
    obtain ⟨holding,position⟩ := entry
    rw [List.mem_zipIdx_iff_getElem?,ownPage,List.getElem?_map,Option.map_eq_some_iff] at member
    obtain ⟨found,here,rfl⟩ := member
    rw [window,Nat.sub_zero,Nat.sub_zero,List.getElem?_drop,List.getElem?_take] at here
    split at here
    · have small := (List.getElem?_eq_some_iff.mp here).1
      have bound := (rootOf held owner).count.toNat_lt
      refine verifyHolding_complete lively keeps here ?_
      rw [UInt64.toNat_add,UInt64.toNat_ofNat_of_lt' (show position < 2^64 by omega)]
      omega
    · cases here
  simp only [verifyOwnerPageAt,bind_ok,rejectIf_ok,pure_ok,forM_ok,not_or,not_not]
  exact ⟨(),⟨rfl,rfl,rfl⟩,(),⟨positive,UInt32.not_lt.mpr bounded⟩,_,climbed,(),rfl,_,root,(),⟨early,length⟩,(),each,rfl⟩

noncomputable def afterPage [Base58] (held : Held) (owner : SettlementKey) (cursor : ObjectId) (offset : UInt64) (limit : UInt32) : OwnerPageProof :=
  { ownPage held owner offset limit (proofOf zeroDigest (ownerLeaves held) (ownerKey owner))
    with afterKey := some cursor, afterPath := some (proofOf (holdingScope owner) (holdingLeaves (held owner)) cursor) }

theorem proveOwnerPageAfter_exact [Base58] (positive : limit ≠ 0) (bounded : limit ≤ ownerPageLimit) :
    ∃ offset, proveOwnerPageAfter store owner (some cursor) limit = .ok (afterPage held owner cursor offset limit) ∧
      verifyOwnerPageAfter (topOf held).hash owner (some cursor) limit (afterPage held owner cursor offset limit) =
        .ok (rootOf held owner) := by
  have read : path store (holdingScope owner) cursor = .ok (proofOf (holdingScope owner) (holdingLeaves (held owner)) cursor) :=
    path_exact lively (keeps.grown.onPath (inside_holdings visit)) (fun _ => @leavesOf_reads _ held lively (.holdings owner) _ _)
  obtain ⟨rank,climbed,placed⟩ := @path_complete _ (holdingScope owner) cursor
    (holdingLeaves (held owner)) lively (keeps.holdings owner) (fun leaf here => keeps.valid lively
      (show leavesOf held (.holdings owner) (keyBits cursor) = some leaf from here))
  have around := congrArg List.length (@Trie.entries_around _ (holdingLeaves (held owner)) [] (keyBits cursor))
  rw [List.nil_append,holdingLeaves_key,keyBits_length,List.length_append,List.length_append,List.length_map] at around
  have one : (((held owner cursor).map heldLeaf).toList).length =
      (if ((held owner cursor).map heldLeaf).isSome then (1 : UInt64) else 0).toNat := by
    cases held owner cursor <;> rfl
  have small : (Trie.entries (holdingLeaves (held owner)) 256 []).length < 2^64 := by
    rw [← counted_length]
    exact (keeps.holdings owner).count
  obtain ⟨offset,next⟩ := exists_word (show rank.toNat +
    (if ((held owner cursor).map heldLeaf).isSome then (1 : UInt64) else 0).toNat < 2^64 by omega)
  have low : offset.toNat ≤ (listing held owner).length := by
    rw [listing_length,counted_length]
    omega
  have leaf : (proofOf (holdingScope owner) (holdingLeaves (held owner)) cursor).leaf =
      (held owner cursor).map heldLeaf := holdingLeaves_key
  have added := checkedAdd_exact.mpr next
  have page := proveOwnerPage_exact lively keeps distinct visit positive bounded low
  have summaryRoot := owner_root lively keeps distinct visit
  refine ⟨offset,?_,?_⟩
  · simp only [proveOwnerPageAfter,bind_ok,okOr_ok,pure_ok]
    exact ⟨_,read,_,climbed,offset,by rw [leaf]; exact added,_,page,rfl⟩
  · have located : offsetAfter owner (some cursor) (afterPage held owner cursor offset limit) = .ok offset := by
      simp only [offsetAfter,afterPage,if_true,bind_ok,rejectIf_ok,not_not,okOr_ok]
      exact ⟨_,climbed,_,summaryRoot,(),rfl,by rw [leaf]; exact added⟩
    rw [verifyOwnerPageAfter,located]
    exact page_complete lively keeps distinct visit positive bounded low _ _

end Complete

section Authentic

variable [Sha256] [Base58] {σ : Type} [OwnerTreeStore σ] [LawfulOwnerTreeStore σ]

-- What an accepted page says: how much the owner holds in all, and the entries it is asked for.
structure Shows (listing : List (ObjectId × UInt8 × UInt64)) (summary : OwnerCommitment)
    (proof : OwnerPageProof) (page : List (ObjectId × UInt8 × UInt64)) : Prop where
  count : summary.count.toNat = listing.length
  balance : summary.balance.toNat =
    ((listing.filter fun entry => entry.2.1 == holdingCoin).map fun entry => entry.2.2.toNat).sum
  holdings : proof.holdings.map HoldingProof.shown = page.map present

omit [Base58] [LawfulOwnerTreeStore σ] in
theorem coins_funded {store : σ} {visits : Set (SettlementKey × ObjectId)} {held : Held}
    (keeps : Keeps visits store held) (owner : SettlementKey) :
    (((listing held owner).filter fun entry => entry.2.1 == holdingCoin).map
      fun entry => entry.2.2.toNat).sum = funded (holdingLeaves (held owner)) 256 [] := by
  have each : ∀ entries : List (ObjectId × UInt8 × UInt64), (∀ entry ∈ entries, ValidEntry entry.2) →
      ((entries.filter fun entry => entry.2.1 == holdingCoin).map fun entry => entry.2.2.toNat).sum =
        (entries.map fun entry => entry.2.2.toNat).sum := by
    intro entries
    induction entries with
    | nil => exact fun _ => rfl
    | cons entry entries ih =>
      intro valid
      have rest := ih fun other member => valid other (List.mem_cons_of_mem _ member)
      have here := valid entry List.mem_cons_self
      by_cases coin : entry.2.1 = holdingCoin
      · rw [List.filter_cons_of_pos (by simpa using coin),List.map_cons,List.map_cons,List.sum_cons,
          List.sum_cons,rest]
      · have empty : entry.2.2 = 0 := by
          unfold ValidEntry validKind at here
          rw [if_neg coin] at here
          split at here
          · simpa using here
          · cases here
        rw [List.filter_cons_of_neg (by simpa using coin),List.map_cons,List.sum_cons,rest,empty]
        simp
  rw [← listing_funded]
  refine each _ ?_
  intro entry member
  exact keeps.kinds owner entry.1 entry.2 (mem_listing.mp member)

theorem owner_pages_authentic (lively : Lively) {start store : σ} {calls : List HoldingCall}
    (vacant : ∀ key, getNode start key = .ok none) (built : calls.foldlM HoldingCall.run start = .ok store)
    (owner : SettlementKey) (cursor : ObjectId) (collisionFree : Set.InjOn Sha256.hash
      (keyPreimages (insert (owner, cursor) { visit | ∃ call ∈ calls, visit = call.visit }))) :
    ∃ root listing, ownerRoot store = .ok root ∧ listing.Pairwise (fun left right => left.1.bytes < right.1.bytes) ∧
      (∀ id entry, (id, entry) ∈ listing ↔ calls.foldl HoldingCall.apply Held.empty owner id = some entry) ∧
      (∀ proof, Set.InjOn Sha256.hash (pagePreimages (calls.foldl HoldingCall.apply Held.empty) owner proof) →
        (∀ offset limit summary, verifyOwnerPage root owner offset limit proof = .ok summary →
          Shows listing summary proof ((listing.drop offset.toNat).take limit.toNat)) ∧
        ∀ key limit summary, verifyOwnerPageAfter root owner (some key) limit proof = .ok summary →
          Shows listing summary proof
            ((listing.filter fun entry => decide (key.bytes < entry.1.bytes)).take limit.toNat)) ∧
      ∀ limit : UInt32, limit ≠ 0 → limit ≤ ownerPageLimit →
        (∀ offset : UInt64, offset.toNat ≤ listing.length → ∃ proof summary,
          proveOwnerPage store owner offset limit = .ok proof ∧
            verifyOwnerPage root owner offset limit proof = .ok summary) ∧
        ∀ after : Option Digest, (∀ key ∈ after, key = cursor) → ∃ proof summary,
          proveOwnerPageAfter store owner after limit = .ok proof ∧
            verifyOwnerPageAfter root owner after limit proof = .ok summary := by
  have distinct := keysApart_of lively collisionFree
  have visit : (owner, cursor) ∈ insert (owner, cursor)
      { visit | ∃ call ∈ calls, visit = HoldingCall.visit call } := .inl rfl
  have keeps := calls_keep lively distinct (fun call member => .inr ⟨call,member,rfl⟩)
    (keeps_empty fun position _ => vacant _) built
  have totals := rootOf_exact lively (keeps.holdings owner)
  have shows : ∀ {proof : OwnerPageProof} {page : List (ObjectId × UInt8 × UInt64)},
      proof.holdings.map HoldingProof.shown = page.map present →
      Shows (listing (calls.foldl HoldingCall.apply Held.empty) owner)
        (rootOf (calls.foldl HoldingCall.apply Held.empty) owner) proof page := by
    intro proof page same
    refine ⟨?_,?_,same⟩
    · rw [totals.1,listing_length]
    · rw [totals.2,coins_funded keeps]
  refine ⟨(topOf (calls.foldl HoldingCall.apply Held.empty)).hash,
    listing (calls.foldl HoldingCall.apply Held.empty) owner,ownerRoot_exact lively keeps,
    listing_sorted,fun id entry => mem_listing,?_,?_⟩
  · intro proof collisionFree
    constructor
    · intro offset limit summary verified
      simp only [verifyOwnerPage,bind_ok,rejectIf_ok] at verified
      obtain ⟨-,-,verified⟩ := verified
      obtain ⟨same,-,page⟩ := page_sound lively keeps distinct visit collisionFree verified
      rw [same]
      exact shows page
    · intro key limit summary verified
      obtain ⟨same,page⟩ := page_after_sound lively keeps distinct visit collisionFree verified
      rw [same]
      exact shows page
  · intro limit positive bounded
    have whole : ∀ offset : UInt64,
        offset.toNat ≤ (listing (calls.foldl HoldingCall.apply Held.empty) owner).length → _ :=
      fun offset low => And.intro (proveOwnerPage_exact lively keeps distinct visit positive bounded low)
        (page_complete lively keeps distinct visit positive bounded low none none)
    constructor
    · intro offset low
      exact ⟨_,_,(whole offset low).1,(whole offset low).2⟩
    · intro after same
      cases after with
      | none => exact ⟨_,_,(whole 0 (Nat.zero_le _)).1,(whole 0 (Nat.zero_le _)).2⟩
      | some key =>
        obtain ⟨offset,proved,verified⟩ := proveOwnerPageAfter_exact lively keeps distinct visit
          positive bounded
        rw [same key rfl]
        exact ⟨_,_,proved,verified⟩

omit [OwnerTreeStore σ] [LawfulOwnerTreeStore σ] in
theorem ownPage_preimages {held : Held} (lively : Lively)
    (after : ∀ key ∈ afterKey, ∀ path ∈ afterPath, path = proofOf (holdingScope owner) (holdingLeaves (held owner)) key) :
    pagePreimages held owner { ownPage held owner offset limit (proofOf zeroDigest (ownerLeaves held) (ownerKey owner))
        with afterKey := afterKey, afterPath := afterPath } ⊆
      treePreimages zeroDigest (ownerLeaves held) ∪ treePreimages (holdingScope owner) (holdingLeaves (held owner)) := by
  intro bytes member
  rcases member with (tree | summary) | tree | ⟨holding,shown,path⟩ | ⟨key,asked,path,given,inside⟩
  · exact .inl tree
  · exact .inl (proofOf_preimages lively summary)
  · exact .inr tree
  · obtain ⟨entry,-,rfl⟩ := List.mem_map.mp shown
    exact .inr (proofOf_preimages lively path)
  · rw [after key asked path given] at inside
    exact .inr (proofOf_preimages lively inside)

end Authentic

section Moves

-- The same moves as calls on the tree alone.
def crowdCall (move : Nat × Option UInt64) : HoldingCall := ⟨sampleOwner,crowdId move.1,move.2.map fun value => (holdingCoin, value)⟩

variable {moves : List (Nat × Option UInt64)}

theorem calls_held : (moves.map crowdCall).foldl HoldingCall.apply Held.empty = held (OwnedWrite.liveAfter (moves.map crowdMove)) := by
  induction moves using List.reverseRecOn with
  | nil => exact held_empty.symm
  | append_singleton moves move ih =>
    funext owner id
    rw [OwnedWrite.liveAfter,List.map_append,List.map_append,List.foldl_append,List.foldl_append,ih]
    change (held (OwnedWrite.liveAfter (moves.map crowdMove))).set sampleOwner (crowdId move.1) _ owner id =
      holding owner (((OwnedWrite.liveAfter (moves.map crowdMove)).write (crowdId move.1) (move.2.map crowdCoin)).get id)
    rw [Held.set,Store.get_write]
    by_cases here : id = crowdId move.1
    · rw [if_pos here,holding_crowd]
      by_cases own : owner = sampleOwner
      · rw [if_pos ⟨own,here⟩,if_pos own]
        rfl
      · rw [if_neg fun both => own both.1,if_neg own]
        by_contra present
        exact own (moves_held present).1
    · rw [if_neg fun both => here both.2,if_neg here]
      rfl

theorem memory_vacant (key : Digest) : getNode (MemoryOwnerTree.mk ∅) key = .ok none := congrArg Except.ok (Finmap.lookup_empty key)

variable [Sha256] (crowds : Crowds)

include crowds

theorem calls_run (few : moves.length < 2^64) :
    ∃ store : MemoryOwnerTree, (moves.map crowdCall).foldlM HoldingCall.run ⟨∅⟩ = .ok store ∧
      Keeps crowdVisits store ((moves.map crowdCall).foldl HoldingCall.apply Held.empty) := by
  induction moves using List.reverseRecOn with
  | nil => exact ⟨⟨∅⟩,rfl,keeps_empty fun position _ => memory_vacant _⟩
  | append_singleton moves move ih =>
    rw [List.length_append] at few
    obtain ⟨store,ran,keeps⟩ := ih (Nat.lt_of_add_right_lt few)
    have room : Room (((moves ++ [move]).map crowdCall).foldl HoldingCall.apply Held.empty) := by
      rw [calls_held]
      exact (moves_fit (by rwa [List.length_append])).room crowds.lively (crowds.keysApart.holders fun owner id => moves_held)
    rw [List.map_append,List.foldl_append] at room ⊢
    obtain ⟨next,updated,kept⟩ := updateHolding_ok crowds.lively keeps crowds.keysApart
      (show (sampleOwner, crowdId move.1) ∈ crowdVisits from ⟨rfl,move.1,rfl⟩)
      (by
        intro entry member
        obtain ⟨value,-,rfl⟩ := Option.map_eq_some_iff.mp member
        rfl)
      (room.holdings sampleOwner) room.owners
    refine ⟨next,?_,kept⟩
    rw [List.foldlM_append,ran]
    exact bind_ok.mpr ⟨store,rfl,bind_ok.mpr ⟨next,updated,rfl⟩⟩

theorem calls_trees :
    Set.InjOn Sha256.hash (treePreimages zeroDigest (ownerLeaves ((moves.map crowdCall).foldl HoldingCall.apply Held.empty)) ∪
      treePreimages (holdingScope sampleOwner) (holdingLeaves ((moves.map crowdCall).foldl HoldingCall.apply Held.empty sampleOwner))) := by
  apply crowds.trees
  · intro path present
    obtain ⟨leaf,found⟩ := Option.ne_none_iff_exists'.mp present
    obtain ⟨owner,-,placed,-⟩ := ownerLeaves_some found
    exact ⟨ownerKey owner,crowds.ownerKey_early owner,placed⟩
  · intro path present
    rw [holdingLeaves] at present
    split at present
    · rename_i whole
      refine ⟨bitsKey path,?_,keyBits_bitsKey_whole whole⟩
      rw [calls_held] at present
      obtain ⟨-,number,named⟩ := moves_held fun absent => present (by rw [absent]; rfl)
      rw [named]
      exact crowdId_early
    · exact absurd rfl present
  · rw [crowds.holdingScope]
    decide

end Moves

@[reducible] def sampleText : Base58 := ⟨fun _ => ""⟩

-- Three coins, of which the middle one goes again.
def spent : List (Nat × Option UInt64) := [(3, some 5),(1, some 7),(2, some 9),(2, none)]

theorem spent_visits : insert (sampleOwner, crowdId 2) { visit | ∃ call ∈ spent.map crowdCall, visit = call.visit } ⊆ crowdVisits := by
  rintro visit (rfl | ⟨call,member,rfl⟩)
  · exact ⟨rfl,2,rfl⟩
  · obtain ⟨move,-,rfl⟩ := List.mem_map.mp member
    exact ⟨rfl,move.1,rfl⟩

theorem spent_listing {listing : List (ObjectId × UInt8 × UInt64)}
    (sorted : listing.Pairwise fun left right => left.1.bytes < right.1.bytes)
    (members : ∀ id entry, (id, entry) ∈ listing ↔ (spent.map crowdCall).foldl HoldingCall.apply Held.empty sampleOwner id = some entry) :
    listing = [(crowdId 1, holdingCoin, 7),(crowdId 3, holdingCoin, 5)] := by
  have strict : Std.Irrefl fun left right : ObjectId × UInt8 × UInt64 => left.1.bytes < right.1.bytes := ⟨fun entry => List.lt_irrefl _⟩
  have ordered : Std.Antisymm fun left right : ObjectId × UInt8 × UInt64 => left.1.bytes < right.1.bytes :=
    ⟨fun left right less more => absurd (List.lt_trans less more) (List.lt_irrefl _)⟩
  refine sorted.eq_of_mem_iff (by decide +kernel) ?_
  intro entry
  obtain ⟨id,entry⟩ := entry
  have first : crowdId 2 ≠ crowdId 1 := by decide +kernel
  have second : crowdId 2 ≠ crowdId 3 := by decide +kernel
  have third : crowdId 3 ≠ crowdId 1 := by decide +kernel
  rw [members]
  simp only [spent,crowdCall,List.map_cons,List.map_nil,List.foldl_cons,List.foldl_nil,HoldingCall.apply,Held.set,Held.empty,
    List.mem_cons,List.not_mem_nil,or_false,Prod.mk.injEq,Option.map_some,Option.map_none,true_and]
  by_cases gone : id = crowdId 2
  · simp [gone,first,second]
  by_cases one : id = crowdId 1
  · simp [one,third.symm,first.symm,eq_comm]
  by_cases three : id = crowdId 3
  · simp [three,third,second.symm,eq_comm]
  · simp [gone,one,three]

theorem owner_pages_authentic_spent : letI := crowdSha
    letI := sampleText
    ∃ (store : MemoryOwnerTree) (root : Digest) (page later : OwnerPageProof) (summary again : OwnerCommitment),
      (spent.map crowdCall).foldlM HoldingCall.run ⟨∅⟩ = .ok store ∧ ownerRoot store = .ok root ∧
      (proveOwnerPage store sampleOwner 1 1 = .ok page ∧ verifyOwnerPage root sampleOwner 1 1 page = .ok summary ∧
        summary.count.toNat = 2 ∧ summary.balance.toNat = 12 ∧
        page.holdings.map HoldingProof.shown = [(crowdId 3, some (.holding holdingCoin 5))]) ∧
      proveOwnerPageAfter store sampleOwner (some (crowdId 2)) 1 = .ok later ∧
        verifyOwnerPageAfter root sampleOwner (some (crowdId 2)) 1 later = .ok again ∧
        again.count.toNat = 2 ∧ again.balance.toNat = 12 ∧
        later.holdings.map HoldingProof.shown = [(crowdId 3, some (.holding holdingCoin 5))] := by
  let := crowdSha
  let := sampleText
  have crowds : Crowds := crowdSha_crowds
  obtain ⟨store,built,keeps⟩ := calls_run crowds (show spent.length < 2^64 by decide)
  obtain ⟨root,listing,rooted,sorted,members,sound,complete⟩ := owner_pages_authentic crowds.lively memory_vacant built
    sampleOwner (crowdId 2) (crowds.keys.mono (keyPreimages_mono spent_visits))
  have listed := spent_listing sorted members
  subst listed
  obtain ⟨pages,pagesAfter⟩ := complete 1 (by decide) (by decide)
  obtain ⟨page,summary,proved,verified⟩ := pages 1 (by decide)
  obtain ⟨later,again,provedLater,verifiedLater⟩ := pagesAfter (some (crowdId 2)) (fun key same => (Option.some.inj same).symm)
  have visit : (sampleOwner, crowdId 2) ∈ crowdVisits := ⟨rfl,2,rfl⟩
  have own : proveOwnerPage store sampleOwner 1 1 = .ok _ := proveOwnerPage_exact crowds.lively keeps crowds.keysApart visit
    (by decide) (by decide) (by rw [spent_listing listing_sorted fun id entry => mem_listing]; decide)
  obtain ⟨offset,ownLater,-⟩ := proveOwnerPageAfter_exact crowds.lively keeps crowds.keysApart visit
    (show (1 : UInt32) ≠ 0 by decide) (by decide)
  rw [proved,Except.ok.injEq] at own
  rw [provedLater,Except.ok.injEq] at ownLater
  have shows := (sound page (by
    rw [own]
    exact (calls_trees crowds).mono (ownPage_preimages crowds.lively (by simp)))).1 1 1 summary verified
  have showsLater := (sound later (by
    rw [ownLater]
    refine (calls_trees crowds).mono (ownPage_preimages crowds.lively ?_)
    intro key asked path given
    rw [← Option.some.inj asked]
    exact (Option.some.inj given).symm)).2 (crowdId 2) 1 again verifiedLater
  have rest : (([(crowdId 1, holdingCoin, 7),(crowdId 3, holdingCoin, 5)] : List (ObjectId × UInt8 × UInt64)).filter fun entry =>
      decide ((crowdId 2).bytes < entry.1.bytes)) = [(crowdId 3, holdingCoin, 5)] := by
    decide +kernel
  rw [rest] at showsLater
  exact ⟨store,root,page,later,summary,again,built,rooted,⟨proved,verified,shows.count,shows.balance,shows.holdings⟩,
    provedLater,verifiedLater,showsLater.count,showsLater.balance,showsLater.holdings⟩

end Hellas.Chain
