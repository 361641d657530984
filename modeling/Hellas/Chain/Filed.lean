import Hellas.Chain.Owned

-- A store whose owner metadata says exactly what its live objects say, and that every owned write
-- keeps it so.

namespace Hellas.Chain

open Guard Kernel Words

def Commits (parties : Parties) (key : SettlementKey) : Prop :=
  key = parties.maker.owner ∨ key = parties.maker.signer ∨ parties.maker.payoutDelegate = some key ∨
    key = parties.taker.owner ∨ key = parties.taker.signer ∨ parties.taker.payoutDelegate = some key

instance {parties : Parties} {key : SettlementKey} : Decidable (Commits parties key) :=
  inferInstanceAs (Decidable (_ ∨ _ ∨ _ ∨ _ ∨ _ ∨ _))

-- What a key holds of an object: the value of a coin it owns, and an entry without balance for a
-- coin another owner delegated to it and for an edge that commits it.
def holding (key : SettlementKey) : Option Object → Option (UInt8 × UInt64)
  | some (.coin coin) =>
    if coin.owner = key then some (holdingCoin, coin.value)
    else if coin.delegate = some key then some (holdingDelegated, 0) else none
  | some (.edge edge) => if Commits edge.parties key then some (holdingEdge, 0) else none
  | _ => none

def held (live : Store) : Held := fun owner id => holding owner (live.get id)

variable {key : SettlementKey} {object : Option Object} {entry : UInt8 × UInt64}

theorem mem_edgeKeys : key ∈ edgeKeys parties ↔ Commits parties key := by
  simp only [edgeKeys,List.mem_dedup,List.mem_mergeSort,partyKeys,Commits,List.mem_append,
    List.mem_cons,List.not_mem_nil,or_false,Option.mem_toList]
  tauto

theorem mem_ownership : (key, entry) ∈ ownership object ↔ holding key object = some entry := by
  cases object with
  | none => simp [ownership,holding]
  | some object =>
    cases object with
    | coin coin =>
      simp only [ownership,coinHoldings,holding,List.mem_cons,Option.mem_toList,
        Option.map_eq_some_iff,Option.filter_eq_some_iff,Prod.mk.injEq,decide_eq_true_eq]
      split
      · rename_i same
        subst same
        simp only [true_and,Option.some.injEq,eq_comm]
        constructor
        · intro either
          rcases either with same | ⟨delegate,⟨-,other⟩,equal,-⟩
          · exact same
          · exact absurd equal other
        · exact .inl
      · rename_i different
        simp only [Ne.symm different,false_and,false_or]
        split
        · rename_i delegated
          simp only [Option.some.injEq,eq_comm]
          constructor
          · intro found
            obtain ⟨delegate,-,-,same⟩ := found
            exact same
          · intro same
            exact ⟨key,⟨delegated,Ne.symm different⟩,rfl,same⟩
        · rename_i other
          simp only [reduceCtorEq,iff_false]
          intro found
          obtain ⟨delegate,⟨delegated,-⟩,rfl,-⟩ := found
          exact other delegated
    | edge edge =>
      simp only [ownership,holding,List.mem_map,Prod.mk.injEq,mem_edgeKeys]
      split
      · rename_i committed
        simp only [Option.some.injEq]
        constructor
        · intro listed
          obtain ⟨_,_,_,same⟩ := listed
          exact same
        · intro same
          exact ⟨key,committed,rfl,same⟩
      · rename_i other
        simp only [reduceCtorEq,iff_false]
        intro found
        obtain ⟨_,committed,rfl,-⟩ := found
        exact other committed
    | registryChunk chunk => simp [ownership,holding]
    | ownerData node => simp [ownership,holding]

theorem ownership_distinct : ((ownership object).map Prod.fst).Nodup := by
  cases object with
  | none => exact List.nodup_nil
  | some object =>
    cases object with
    | coin coin =>
      simp only [ownership,coinHoldings,List.map_cons,List.nodup_cons,List.mem_map,Option.mem_toList,Option.map_eq_some_iff,
        Option.filter_eq_some_iff,decide_eq_true_eq]
      constructor
      · intro again
        obtain ⟨entry,⟨delegate,⟨-,other⟩,rfl⟩,same⟩ := again
        exact other same
      · cases coin.delegate.filter (· ≠ coin.owner) <;> simp
    | edge edge =>
      simp only [ownership,List.map_map]
      exact (List.map_id (edgeKeys edge.parties)).symm ▸ List.nodup_dedup _
    | registryChunk chunk => exact List.nodup_nil
    | ownerData node => exact List.nodup_nil

theorem holding_valid (holds : holding key object = some entry) : ValidEntry entry := by
  cases object with
  | none => cases holds
  | some object =>
    cases object with
    | coin coin =>
      simp only [holding] at holds
      split at holds
      · cases holds
        rfl
      · split at holds
        · cases holds
          rfl
        · cases holds
    | edge edge =>
      simp only [holding] at holds
      split at holds
      · cases holds
        rfl
      · cases holds
    | registryChunk chunk => cases holds
    | ownerData node => cases holds

section Room

variable [Sha256] {small big : Held}

def Held.Within (small big : Held) : Prop := ∀ owner id entry, small owner id = some entry → big owner id = some entry

structure Room (held : Held) : Prop where
  holdings : ∀ owner, Bounded (holdingLeaves (held owner)) 256 []
  owners : Bounded (ownerLeaves held) 256 []

omit [Sha256] in
theorem holdingLeaves_within (within : small.Within big) {owner : SettlementKey} {path : List Bool}
    {leaf : OwnerLeaf} (found : holdingLeaves (small owner) path = some leaf) :
    holdingLeaves (big owner) path = some leaf := by
  rw [holdingLeaves] at found ⊢
  split at found
  · rename_i whole
    obtain ⟨entry,here,same⟩ := Option.map_eq_some_iff.mp found
    rw [if_pos whole,within owner _ entry here]
    exact congrArg some same
  · cases found

omit [Sha256] in
theorem Bounded.within {leaves others : Leaves} {height : Nat} {path : List Bool} (bounded : Bounded others height path)
    (grows : ∀ key leaf, leaves key = some leaf → ∃ heavier, others key = some heavier ∧ leaf.balance.toNat ≤ heavier.balance.toNat) :
    Bounded leaves height path where
  count := by
    refine lt_of_le_of_lt (Trie.total_mono ?_) bounded.count
    intro key leaf found
    obtain ⟨heavier,there,-⟩ := grows key leaf found
    exact ⟨heavier,there,le_refl _⟩
  balance := lt_of_le_of_lt (Trie.total_mono grows) bounded.balance

theorem Room.within (lively : Lively) (room : Room big) (within : small.Within big)
    (apart : ∀ one other, Holder big one → Holder big other → ownerKey one = ownerKey other → one = other) :
    Room small := by
  have holders : ∀ owner, Holder small owner → Holder big owner := by
    intro owner holds
    obtain ⟨id,present⟩ := holds
    obtain ⟨entry,found⟩ := Option.ne_none_iff_exists'.mp present
    exact ⟨id,by rw [within owner id entry found]; simp⟩
  have holdings : ∀ owner, Bounded (holdingLeaves (small owner)) 256 [] := by
    intro owner
    refine (room.holdings owner).within ?_
    intro path leaf found
    exact ⟨leaf,holdingLeaves_within within found,le_refl _⟩
  refine ⟨holdings,room.owners.within ?_⟩
  intro path leaf found
  obtain ⟨owner,holds,placed,same⟩ := ownerLeaves_some found
  have there := ownerLeaves_key (fun other present equal => apart other owner present (holders owner holds) equal) (holders owner holds)
  rw [placed] at there
  refine ⟨_,there,?_⟩
  have funds : funded (holdingLeaves (small owner)) 256 [] ≤
      funded (holdingLeaves (big owner)) 256 [] := Trie.total_mono fun key leaf found =>
    ⟨leaf,holdingLeaves_within within found,le_refl _⟩
  rw [← (rootOf_exact lively (holdings owner)).2,← (rootOf_exact lively (room.holdings owner)).2] at funds
  rw [same,OwnerLeaf.balance_summary,OwnerLeaf.balance_summary]
  exact funds

end Room

section Rewriting

abbrev Filing := List (SettlementKey × UInt8 × UInt64)

def unfiled (held : Held) (id : ObjectId) (entries : Filing) : Held := entries.foldl (fun rest entry => rest.set entry.1 id none) held

def refiled (held : Held) (id : ObjectId) (entries : Filing) : Held :=
  entries.foldl (fun rest entry => rest.set entry.1 id (some entry.2)) held

theorem unfiled_at {held : Held} {id : ObjectId} :
    unfiled held id entries owner other = if owner ∈ entries.map Prod.fst ∧ other = id then none else held owner other := by
  induction entries generalizing held with
  | nil => simp [unfiled]
  | cons entry entries ih =>
    rw [show unfiled held id (entry :: entries) = unfiled (held.set entry.1 id none) id entries from
      rfl,ih,Held.set]
    simp only [List.map_cons,List.mem_cons]
    by_cases later : owner ∈ entries.map Prod.fst ∧ other = id
    · rw [if_pos later,if_pos ⟨.inr later.1,later.2⟩]
    · rw [if_neg later]
      by_cases here : owner = entry.1 ∧ other = id
      · rw [if_pos here,if_pos ⟨.inl here.1,here.2⟩]
      · rw [if_neg here,if_neg]
        intro either
        rcases either with ⟨first | rest,same⟩
        · exact here ⟨first,same⟩
        · exact later ⟨rest,same⟩

theorem refiled_off {held : Held} {id other : ObjectId} {owner : SettlementKey} {entries : Filing}
    (off : other = id → owner ∉ entries.map Prod.fst) :
    refiled held id entries owner other = held owner other := by
  induction entries generalizing held with
  | nil => rfl
  | cons entry entries ih =>
    have rest : other = id → owner ∉ entries.map Prod.fst := fun same member => off same (List.mem_cons_of_mem _ member)
    have here : ¬(owner = entry.1 ∧ other = id) := fun both => off both.2 (both.1 ▸ List.mem_cons_self)
    rw [show refiled held id (entry :: entries) =
      refiled (held.set entry.1 id (some entry.2)) id entries from rfl,ih rest,Held.set,if_neg here]

theorem refiled_on {held : Held} {id : ObjectId} {entries : Filing}
    (distinct : (entries.map Prod.fst).Nodup) {entry : SettlementKey × UInt8 × UInt64}
    (member : entry ∈ entries) : refiled held id entries entry.1 id = some entry.2 := by
  induction entries generalizing held with
  | nil => cases member
  | cons head entries ih =>
    rw [List.map_cons,List.nodup_cons] at distinct
    rw [show refiled held id (head :: entries) = refiled (held.set head.1 id (some head.2)) id entries from rfl]
    rcases List.mem_cons.mp member with same | later
    · subst same
      rw [refiled_off fun _ => distinct.1,Held.set,if_pos ⟨rfl,rfl⟩]
    · exact ih distinct.2 later

theorem held_write {live : Store} {id : ObjectId} {value : Option Object} :
    refiled (unfiled (held live) id (ownership (live.get id))) id (ownership value) = held (live.write id value) := by
  funext owner other
  have now : held (live.write id value) owner other = if other = id then holding owner value else held live owner other := by
    rw [held,Store.get_write]
    split <;> rfl
  rw [now]
  by_cases here : other = id
  · subst here
    rw [if_pos rfl]
    cases holds : holding owner value with
    | some entry => exact refiled_on ownership_distinct (mem_ownership.mpr holds)
    | none =>
      have off : owner ∉ (ownership value).map Prod.fst := by
        intro member
        obtain ⟨⟨key,entry⟩,found,rfl⟩ := List.mem_map.mp member
        rw [mem_ownership.mp found] at holds
        cases holds
      rw [refiled_off fun _ => off,unfiled_at]
      split
      · rfl
      · rename_i outside
        cases old : held live owner other with
        | none => rfl
        | some entry => exact absurd ⟨List.mem_map.mpr ⟨(owner, entry),mem_ownership.mpr old,rfl⟩,rfl⟩ outside
  · rw [if_neg here,refiled_off fun same => absurd same here,unfiled_at,
      if_neg fun both => here both.2]

variable [Sha256] {visits : Set (SettlementKey × ObjectId)} {store next : Store} {id : ObjectId}
  {entries : Filing} {before : Held}

variable (lively : Lively) (distinct : KeysApart visits) (inside : ∀ entry ∈ entries, (entry.1, id) ∈ visits)

include lively distinct inside

theorem holdings_keep (place : SettlementKey × UInt8 × UInt64 → Option (UInt8 × UInt64)) (keeps : Keeps visits store before)
    (ran : entries.foldlM (fun store entry => updateHolding store entry.1 id (place entry)) store = .ok next) :
    Keeps visits next (entries.foldl (fun rest entry => rest.set entry.1 id (place entry)) before) := by
  have calls := @calls_keep _ Store _ lively _ visits distinct (entries.map fun entry => ⟨entry.1,id,place entry⟩) (by
      intro call member
      obtain ⟨entry,found,rfl⟩ := List.mem_map.mp member
      exact inside entry found) store next before keeps
  rw [List.foldlM_map,List.foldl_map] at calls
  exact calls ran

theorem unfile_keeps (keeps : Keeps visits store before) (ran : entries.foldlM (unfile id) store = .ok next) :
    Keeps visits next (unfiled before id entries) := holdings_keep lively distinct inside (fun _ => none) keeps ran

theorem file_keeps (keeps : Keeps visits store before) (ran : entries.foldlM (file id) store = .ok next) :
    Keeps visits next (refiled before id entries) := holdings_keep lively distinct inside (fun entry => some entry.2) keeps ran

omit lively distinct inside in
theorem Keeps.room {σ : Type} [OwnerTreeStore σ] {store : σ} (keeps : Keeps visits store before) :
    Room before := ⟨keeps.holdings,keeps.owners⟩

omit lively inside in
theorem KeysApart.holders (visited : ∀ owner id, before owner id ≠ none → (owner, id) ∈ visits) :
    ∀ one other, Holder before one → Holder before other → ownerKey one = ownerKey other → one = other := by
  intro one other first second same
  obtain ⟨firstId,firstHeld⟩ := first
  obtain ⟨secondId,secondHeld⟩ := second
  exact distinct.owners _ (visited one firstId firstHeld) _ (visited other secondId secondHeld) same

theorem unfile_ok (keeps : Keeps visits store before) :
    ∃ next, entries.foldlM (unfile id) store = .ok next := by
  induction entries generalizing store before with
  | nil => exact ⟨store,rfl⟩
  | cons entry entries ih =>
    have within : (before.set entry.1 id none).Within before := by
      intro owner other found here
      rw [Held.set] at here
      split at here
      · cases here
      · exact here
    have room := keeps.room.within lively within (distinct.holders keeps.visited)
    obtain ⟨middle,updated,kept⟩ := updateHolding_ok lively keeps distinct (inside entry List.mem_cons_self)
      (show ∀ found ∈ none, ValidEntry found from fun _ listed => by cases listed)
      (room.holdings entry.1) room.owners
    obtain ⟨next,ran⟩ := ih (fun other member => inside other (List.mem_cons_of_mem _ member)) kept
    refine ⟨next,?_⟩
    rw [List.foldlM_cons,unfile,updated]
    exact ran

theorem file_ok (once : (entries.map Prod.fst).Nodup) (valid : ∀ entry ∈ entries, ValidEntry entry.2)
    (vacant : ∀ entry ∈ entries, before entry.1 id = none) (keeps : Keeps visits store before)
    (room : Room (refiled before id entries)) :
    ∃ next, entries.foldlM (file id) store = .ok next := by
  induction entries generalizing store before with
  | nil => exact ⟨store,rfl⟩
  | cons entry entries ih =>
    rw [List.map_cons,List.nodup_cons] at once
    have later : ∀ other ∈ entries, (other.1, id) ∈ visits := fun other member => inside other (List.mem_cons_of_mem _ member)
    have still : ∀ other ∈ entries, (before.set entry.1 id (some entry.2)) other.1 id = none := by
      intro other member
      have different : ¬(other.1 = entry.1 ∧ id = id) := fun same => once.1 (same.1 ▸ List.mem_map_of_mem member)
      rw [Held.set,if_neg different]
      exact vacant other (List.mem_cons_of_mem _ member)
    have within : (before.set entry.1 id (some entry.2)).Within (refiled before id (entry :: entries)) := by
      intro owner other found here
      rw [show refiled before id (entry :: entries) = refiled (before.set entry.1 id (some entry.2)) id entries from rfl,refiled_off,here]
      intro same member
      obtain ⟨⟨key,value⟩,listed,rfl⟩ := List.mem_map.mp member
      rw [same,still _ listed] at here
      cases here
    have visited : ∀ owner other, refiled before id (entry :: entries) owner other ≠ none → (owner, other) ∈ visits := by
      intro owner other present
      by_cases listed : other = id ∧ owner ∈ (entry :: entries).map Prod.fst
      · obtain ⟨same,member⟩ := listed
        obtain ⟨named,found,rfl⟩ := List.mem_map.mp member
        rw [same]
        exact inside named found
      · rw [refiled_off fun same member => listed ⟨same,member⟩] at present
        exact keeps.visited owner other present
    have now := room.within lively within (distinct.holders visited)
    obtain ⟨middle,updated,kept⟩ := updateHolding_ok lively keeps distinct (inside entry List.mem_cons_self)
      (show ∀ found ∈ some entry.2, ValidEntry found from fun found same => by
        cases same
        exact valid entry List.mem_cons_self)
      (now.holdings entry.1) now.owners
    obtain ⟨next,ran⟩ := ih later once.2 (fun other member => valid other (List.mem_cons_of_mem _ member)) still kept room
    refine ⟨next,?_⟩
    rw [List.foldlM_cons,file,updated]
    exact ran

end Rewriting

section Filed

variable [Sha256] {visits : Set (SettlementKey × ObjectId)} {store next live : Store}
  {id key : ObjectId} {owner : SettlementKey}

def Clear (visits : Set (SettlementKey × ObjectId)) (id : ObjectId) : Prop := ∀ position ∈ positions visits, OwnerTree.node position ≠ id

-- The store is its live objects and, elsewhere, the owner trees of exactly those.
structure Filed (visits : Set (SettlementKey × ObjectId)) (store live : Store) : Prop where
  keeps : Keeps visits store (held live)
  objects : ∀ id, Clear visits id → store.get id = live.get id
  clear : ∀ id, live.get id ≠ none → Clear visits id
  plain : ∀ id, ∀ object ∈ live.get id, object.isOwnerData = false

theorem updateHolding_frame (visit : (owner, id) ∈ visits) (clear : Clear visits key)
    (updated : updateHolding store owner id value = .ok next) :
    next.get key = store.get key := by
  have kept : ∀ {tree : OwnerTree} {place : Digest}, Inside (positions visits) tree place →
      ∀ {before after : Store} {depth : Nat} {node : Option OwnerNode}, depth ≤ 256 → before.get key = store.get key →
        putNode before (nodeKey tree.scope place depth) node = .ok after →
        after.get key = store.get key := by
    intro tree place inside before after depth node low same written
    obtain ⟨-,rfl⟩ := putNode_exact.mp written
    have other : key ≠ nodeKey tree.scope place depth := by
      rw [nodeKey_at low]
      exact (clear _ (inside depth low)).symm
    rw [Store.get_write,if_neg other,same]
  simp only [updateHolding,bind_ok,pure_ok] at updated
  obtain ⟨⟨middle,root⟩,first,⟨last,top⟩,second,rfl⟩ := updated
  have half := @update_preserves _ Store _ store (holdingScope owner) id
    (fun store' => store'.get key = store.get key) _ _ (kept (inside_holdings visit)) rfl first
  exact @update_preserves _ Store _ middle zeroDigest (ownerKey owner)
    (fun store' => store'.get key = store.get key) _ _ (kept (inside_owners visit)) half second

omit [Sha256] in
theorem calls_frame {step : Store → SettlementKey × UInt8 × UInt64 → Except (Store × OwnerProofError) Store}
    (holds : ∀ {store next entry}, (entry.1, id) ∈ visits → step store entry = .ok next → next.get key = store.get key)
    {entries : Filing} (inside : ∀ entry ∈ entries, (entry.1, id) ∈ visits) (ran : entries.foldlM step store = .ok next) :
    next.get key = store.get key :=
  foldlM_keeps _ (·.get key = store.get key) (fun _ _ _ visit first same => (holds visit first).trans same) inside rfl ran

def Visits (visits : Set (SettlementKey × ObjectId)) (id : ObjectId) (value : Option Object) : Prop :=
  ∀ owner entry, holding owner value = some entry → (owner, id) ∈ visits

theorem Filed.current (filed : Filed visits store live) : Visits visits id (live.get id) := by
  intro owner entry holds
  exact filed.keeps.visited owner id (by rw [held,holds]; simp)

omit [Sha256] in
theorem Visits.ownership (visited : Visits visits id value) : ∀ entry ∈ ownership value, (entry.1, id) ∈ visits := by
  intro entry member
  exact visited entry.1 entry.2 (mem_ownership.mp member)

theorem writeOwned_filed (lively : Lively) (distinct : KeysApart visits) (filed : Filed visits store live)
    (clear : Clear visits id) (visited : Visits visits id value) (written : writeOwned store id value = .ok next) :
    Filed visits next (live.write id value) := by
  simp only [writeOwned,bind_ok,rejectIf_ok,mapError_ok,pure_ok,not_or,not_exists,not_and,
    Bool.not_eq_true,filed.objects id clear] at written
  obtain ⟨-,⟨-,plain⟩,middle,cleared,last,filled,rfl⟩ := written
  have keeps := file_keeps lively distinct visited.ownership
    (unfile_keeps lively distinct filed.current.ownership filed.keeps cleared) filled
  rw [held_write] at keeps
  have framed : ∀ key, Clear visits key → last.get key = store.get key := by
    intro key clear
    rw [calls_frame (fun visit ran => updateHolding_frame visit clear ran) visited.ownership filled,
      calls_frame (fun visit ran => updateHolding_frame visit clear ran) filed.current.ownership cleared]
  constructor
  · refine ⟨?_,keeps.visited,keeps.kinds,keeps.holdings,keeps.owners⟩
    intro position member
    have here := keeps.grown position member
    rw [getNode_exact] at here ⊢
    rw [Store.get_write,if_neg (clear position member),here]
  · intro key clear
    rw [Store.get_write,Store.get_write]
    split
    · rfl
    · rw [framed key clear,filed.objects key clear]
  · intro key present
    rw [Store.get_write] at present
    split at present
    · rename_i same
      rw [same]
      exact clear
    · exact filed.clear key present
  · intro key object found
    rw [Store.get_write] at found
    split at found
    · exact plain object found
    · exact filed.plain key object found

theorem writeOwned_ok (lively : Lively) (distinct : KeysApart visits) (filed : Filed visits store live)
    (clear : Clear visits id) {value : Option Object} (visited : Visits visits id value)
    (plain : ∀ object ∈ value, object.isOwnerData = false) (room : Room (held (live.write id value))) :
    ∃ next, writeOwned store id value = .ok next := by
  obtain ⟨middle,cleared⟩ := @unfile_ok _ visits store id (ownership (live.get id)) _ lively distinct filed.current.ownership filed.keeps
  have kept := unfile_keeps lively distinct filed.current.ownership filed.keeps cleared
  have gone : ∀ entry ∈ ownership value, unfiled (held live) id (ownership (live.get id)) entry.1 id = none := by
    intro entry _
    rw [unfiled_at]
    split
    · rfl
    · rename_i outside
      cases old : held live entry.1 id with
      | none => rfl
      | some found => exact absurd ⟨List.mem_map.mpr ⟨(entry.1, found),mem_ownership.mpr old,rfl⟩,rfl⟩ outside
  obtain ⟨last,filled⟩ := file_ok lively distinct visited.ownership ownership_distinct
    (fun entry member => holding_valid (mem_ownership.mp member)) gone kept
    (by rw [held_write]; exact room)
  refine ⟨last.write id value,?_⟩
  simp only [writeOwned,bind_ok,rejectIf_ok,mapError_ok,pure_ok,not_or,not_exists,not_and,Bool.not_eq_true,filed.objects id clear]
  exact ⟨(),⟨filed.plain id,plain⟩,middle,cleared,last,filled,rfl⟩

omit [Sha256] in
theorem held_empty : held ∅ = Held.empty := by
  funext owner id
  rw [held,Store.get_empty]
  rfl

theorem filed_empty : Filed visits ∅ ∅ where
  keeps := by
    rw [held_empty]
    refine keeps_empty fun position _ => ?_
    rw [getNode_exact,Store.get_empty]
    rfl
  objects _ _ := rfl
  clear id present := absurd Store.get_empty present
  plain id object found := by
    rw [Store.get_empty] at found
    cases found

end Filed

end Hellas.Chain
