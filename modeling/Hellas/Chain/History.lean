import Hellas.Chain.Filed
import Hellas.Chain.PageSound
import Mathlib.Algebra.BigOperators.Group.Finset.Piecewise
import Mathlib.Algebra.BigOperators.Group.Finset.Sigma
import Mathlib.Algebra.Order.BigOperators.Group.Finset

-- The owner trees as a function of the live objects: what they count, what they sum to, and that
-- no history leaves a trace in them.

namespace Hellas.Chain

open Guard Kernel Words

section Counting

def holdingsOf (live : Store) (owner : SettlementKey) : Finset ObjectId := live.keys.filter fun id => holding owner (live.get id) ≠ none

def holdersOf (live : Store) : Finset SettlementKey := live.keys.biUnion fun id => ((ownership (live.get id)).map Prod.fst).toFinset

def coinValue : Option Object → Nat
  | some (.coin coin) => coin.value.toNat
  | _ => 0

def ownedValue (owner : SettlementKey) : Option Object → Nat
  | some (.coin coin) => if coin.owner = owner then coin.value.toNat else 0
  | _ => 0

structure Fitting (live : Store) : Prop where
  holdings : ∀ owner, (holdingsOf live owner).card < 2^64
  owners : (holdersOf live).card < 2^64
  value : ∑ id ∈ live.keys, coinValue (live.get id) < 2^128

variable {live : Store} {owner : SettlementKey} {object : Option Object}

theorem mem_live {id : ObjectId} : id ∈ live.keys ↔ live.get id ≠ none := by
  rw [Finmap.mem_keys,Store.get,ne_eq,Finmap.lookup_eq_none,not_not]

theorem mem_holdersOf : owner ∈ holdersOf live ↔ Holder (held live) owner := by
  simp only [holdersOf,Finset.mem_biUnion,List.mem_toFinset,List.mem_map,Holder,held]
  constructor
  · intro found
    obtain ⟨id,-,entry,listed,rfl⟩ := found
    exact ⟨id,by rw [mem_ownership.mp listed]; simp⟩
  · intro found
    obtain ⟨id,present⟩ := found
    obtain ⟨entry,holds⟩ := Option.ne_none_iff_exists'.mp present
    refine ⟨id,mem_live.mpr ?_,(owner, entry),mem_ownership.mpr holds,rfl⟩
    intro absent
    rw [absent] at holds
    cases holds

theorem holding_balance : ((holding owner object).map fun entry => entry.2.toNat).getD 0 = ownedValue owner object := by
  cases object with
  | none => rfl
  | some object =>
    cases object with
    | coin coin =>
      simp only [holding,ownedValue]
      split
      · rfl
      · split <;> rfl
    | edge edge =>
      simp only [holding,ownedValue]
      split <;> rfl
    | registryChunk chunk => rfl
    | ownerData node => rfl

theorem heldLeaf_balance : (heldLeaf entry).balance.toNat = entry.2.toNat := by
  show (entry.2.toBitVec.setWidth 128).toNat = _
  have small := entry.2.toNat_lt
  rw [BitVec.toNat_setWidth,Nat.mod_eq_of_lt]
  · rfl
  · exact lt_of_lt_of_le small (by decide)

theorem total_held {weight : OwnerLeaf → Nat} :
    Trie.total weight (holdingLeaves (held live owner)) 256 [] =
      ∑ id ∈ live.keys, ((holding owner (live.get id)).map fun entry => weight (heldLeaf entry)).getD 0 := by
  have apart : Set.InjOn keyBits live.keys := fun one _ other _ same => keyBits_inj.mp same
  rw [Trie.total_eq_sum apart (fun id _ => keyBits_length)]
  · refine Finset.sum_congr rfl ?_
    intro id _
    rw [holdingLeaves_key,Option.map_map]
    rfl
  · intro key leaf whole found
    refine ⟨bitsKey key,mem_live.mpr ?_,keyBits_bitsKey_whole whole⟩
    rw [holdingLeaves,if_pos whole] at found
    intro absent
    rw [held,absent] at found
    cases found

theorem counted_held : counted (holdingLeaves (held live owner)) 256 [] = (holdingsOf live owner).card := by
  rw [counted,total_held,holdingsOf,Finset.card_filter]
  refine Finset.sum_congr rfl ?_
  intro id _
  cases holding owner (live.get id) <;> rfl

theorem funded_held :
    funded (holdingLeaves (held live owner)) 256 [] = ∑ id ∈ live.keys, ownedValue owner (live.get id) := by
  rw [funded,total_held]
  refine Finset.sum_congr rfl ?_
  intro id _
  rw [← holding_balance]
  cases holding owner (live.get id) with
  | none => rfl
  | some entry => exact heldLeaf_balance

theorem ownedValue_le : ownedValue owner object ≤ coinValue object := by
  cases object with
  | none => exact le_refl _
  | some object =>
    cases object with
    | coin coin =>
      simp only [ownedValue,coinValue]
      split
      · exact le_refl _
      · exact Nat.zero_le _
    | edge edge => exact le_refl _
    | registryChunk chunk => exact le_refl _
    | ownerData node => exact le_refl _

theorem sum_ownedValue_le : ∑ owner ∈ owners, ownedValue owner object ≤ coinValue object := by
  cases object with
  | none => simp [ownedValue]
  | some object =>
    cases object with
    | coin coin =>
      simp only [ownedValue,coinValue,Finset.sum_ite_eq]
      split
      · exact le_refl _
      · exact Nat.zero_le _
    | edge edge => simp [ownedValue]
    | registryChunk chunk => simp [ownedValue]
    | ownerData node => simp [ownedValue]

end Counting

section Fitting

variable [Sha256] {live : Store}

theorem total_owners (apart : ∀ one other, Holder (held live) one → Holder (held live) other →
      ownerKey one = ownerKey other → one = other) {weight : OwnerLeaf → Nat} :
    Trie.total weight (ownerLeaves (held live)) 256 [] = ∑ owner ∈ holdersOf live, weight (.summary (rootOf (held live) owner)) := by
  have places : Set.InjOn (fun owner => keyBits (ownerKey owner)) (holdersOf live) := by
    intro one first other second same
    exact apart one other (mem_holdersOf.mp first) (mem_holdersOf.mp second) (keyBits_inj.mp same)
  rw [Trie.total_eq_sum places (fun owner _ => keyBits_length)]
  · refine Finset.sum_congr rfl ?_
    intro owner member
    have holds := mem_holdersOf.mp member
    rw [ownerLeaves_key (fun other present same => apart other owner present holds same) holds,
      Option.map_some,Option.getD_some]
  · intro key leaf _ found
    obtain ⟨owner,holds,placed,-⟩ := ownerLeaves_some found
    exact ⟨owner,mem_holdersOf.mpr holds,placed⟩

omit [Sha256] in
theorem Fitting.holding_room (fits : Fitting live) (owner : SettlementKey) :
    Bounded (holdingLeaves (held live owner)) 256 [] where
  count := by
    rw [counted_held]
    exact fits.holdings owner
  balance := by
    rw [funded_held]
    exact lt_of_le_of_lt (Finset.sum_le_sum fun id _ => ownedValue_le) fits.value

theorem Fitting.room (lively : Lively) (fits : Fitting live) (apart : ∀ one other, Holder (held live) one → Holder (held live) other →
      ownerKey one = ownerKey other → one = other) : Room (held live) := by
  refine ⟨fits.holding_room,?_,?_⟩
  · rw [counted,total_owners apart,← Finset.card_eq_sum_ones]
    exact fits.owners
  · have balances : ∑ owner ∈ holdersOf live,
          (OwnerLeaf.summary (rootOf (held live) owner)).balance.toNat =
        ∑ owner ∈ holdersOf live, ∑ id ∈ live.keys, ownedValue owner (live.get id) := by
      refine Finset.sum_congr rfl ?_
      intro owner _
      rw [OwnerLeaf.balance_summary,(rootOf_exact lively (fits.holding_room owner)).2,funded_held]
    rw [funded,total_owners apart,balances,Finset.sum_comm]
    exact lt_of_le_of_lt (Finset.sum_le_sum fun id _ => sum_ownedValue_le) fits.value

end Fitting

section Writes

variable [Sha256]

structure OwnedWrite where
  id : ObjectId
  value : Option Object

namespace OwnedWrite

def run (batch : Store) (write : OwnedWrite) : Except (Store × ExecutionError) Store := writeOwned batch write.id write.value

def runAll (writes : List OwnedWrite) : Except (Store × ExecutionError) Store := writes.foldlM run ∅

def apply (live : Store) (write : OwnedWrite) : Store := live.write write.id write.value

def liveAfter (writes : List OwnedWrite) : Store := writes.foldl apply ∅

-- The write's id is no node's, and its holders are among the visits.
structure Known (visits : Set (SettlementKey × ObjectId)) (write : OwnedWrite) : Prop where
  clear : Clear visits write.id
  visited : Visits visits write.id write.value

end OwnedWrite

variable {visits : Set (SettlementKey × ObjectId)} {writes : List OwnedWrite} {store next live : Store}

theorem writes_filed (lively : Lively) (distinct : KeysApart visits) (known : ∀ write ∈ writes, write.Known visits)
    (filed : Filed visits store live) (ran : writes.foldlM OwnedWrite.run store = .ok next) :
    Filed visits next (writes.foldl OwnedWrite.apply live) := by
  induction writes generalizing store live with
  | nil =>
    cases ran
    exact filed
  | cons write writes ih =>
    rw [List.foldlM_cons,bind_ok] at ran
    obtain ⟨middle,first,rest⟩ := ran
    have here := known write List.mem_cons_self
    exact ih (fun other member => known other (List.mem_cons_of_mem _ member))
      (writeOwned_filed lively distinct filed here.clear here.visited first) rest

theorem writes_ok (lively : Lively) (distinct : KeysApart visits) (known : ∀ write ∈ writes, write.Known visits)
    (plain : ∀ write ∈ writes, ∀ object ∈ write.value, object.isOwnerData = false) (filed : Filed visits store live)
    (fits : ∀ done rest, writes = done ++ rest → Fitting (done.foldl OwnedWrite.apply live)) :
    ∃ next, writes.foldlM OwnedWrite.run store = .ok next := by
  induction writes generalizing store live with
  | nil => exact ⟨store,rfl⟩
  | cons write writes ih =>
    have here := known write List.mem_cons_self
    have visited : ∀ owner id, held (live.write write.id write.value) owner id ≠ none → (owner, id) ∈ visits := by
      intro owner id present
      obtain ⟨entry,holds⟩ := Option.ne_none_iff_exists'.mp present
      rw [held,Store.get_write] at holds
      split at holds
      · rename_i same
        rw [same]
        exact here.visited owner entry holds
      · exact filed.keeps.visited owner id (by rw [held,holds]; simp)
    have room := (fits [write] writes rfl).room lively (distinct.holders visited)
    obtain ⟨middle,first⟩ := writeOwned_ok lively distinct filed here.clear here.visited (plain write List.mem_cons_self) room
    have after := writeOwned_filed lively distinct filed here.clear here.visited first
    obtain ⟨next,rest⟩ := ih (fun other member => known other (List.mem_cons_of_mem _ member))
      (fun other member => plain other (List.mem_cons_of_mem _ member)) after
      (fun done rest same => fits (write :: done) rest (by rw [same]; rfl))
    exact ⟨next,by rw [List.foldlM_cons,OwnedWrite.run,first]; exact rest⟩

-- The live objects and the visits leave no choice for the rest of the store.
theorem Filed.unique (filed : Filed visits store live) (otherwise : Filed visits other live) : store = other := by
  refine Store.ext_get fun id => ?_
  by_cases clear : Clear visits id
  · rw [filed.objects id clear,otherwise.objects id clear]
  · rw [Clear] at clear
    push Not at clear
    obtain ⟨position,inside,rfl⟩ := clear
    rw [getNode_exact.mp (filed.keeps.grown position inside),getNode_exact.mp (otherwise.keeps.grown position inside)]

variable {owner : SettlementKey} {id : ObjectId} {scope key : Digest} {path : List Bool}

theorem Filed.leaf (filed : Filed visits store live) (visit : (owner, id) ∈ visits) :
    store.get (nodeKey (holdingScope owner) id 256) = (holding owner (live.get id)).map fun entry =>
        .ownerData (encodeLeaf (.holding entry.1 entry.2)) := by
  have read := getNode_exact.mp (filed.keeps.grown _ (inside_holdings visit 256 (le_refl _)))
  rw [nodeKey_at (le_refl _)]
  change store.get (nodeAt (holdingScope owner) _) = _ at read
  rw [read]
  change (stored (holdingScope owner) (holdingLeaves (held live owner)) _).map _ = _
  rw [stored_leaf,holdingLeaves_key,Option.map_map,Option.map_map]
  rfl

theorem Filed.summary (lively : Lively) (distinct : KeysApart visits) (filed : Filed visits store live) (visit : (owner, id) ∈ visits) :
    store.get (nodeKey zeroDigest (ownerKey owner) 256) =
      (summaryLeaf (rootOf (held live) owner)).map fun leaf => .ownerData (encodeLeaf leaf) := by
  have read := getNode_exact.mp (filed.keeps.grown _ (inside_owners visit 256 (le_refl _)))
  rw [nodeKey_at (le_refl _)]
  change store.get (nodeAt zeroDigest _) = _ at read
  rw [read]
  change (stored zeroDigest (ownerLeaves (held live)) _).map _ = _
  rw [stored_leaf,ownerLeaves_at lively filed.keeps distinct visit,Option.map_map]
  rfl

theorem stored_vacant (vacant : ∀ rest, (path ++ rest).length = 256 → leaves (path ++ rest) = none)
    (short : path.length ≤ 256) : stored scope leaves path = none := by
  by_cases inner : path.length < 256
  · have below (bit : Bool) : summaryOf scope leaves (255 - path.length) (path ++ [bit]) = .none := by
      rw [summaryOf,@Trie.fold_congr _ _ (leafOf scope) merge leaves fun _ => none]
      · exact summaryOf_empty
      · intro rest length
        rw [List.append_assoc]
        refine vacant _ ?_
        simp only [List.length_append,List.length_singleton,length]
        omega
    rw [stored,if_pos inner,below,below]
    rfl
  · have whole := vacant [] (by simp; omega)
    rw [List.append_nil] at whole
    rw [stored,if_neg inner,whole]
    rfl

def Rooted (live : Store) (key : Digest) : Prop :=
  ∃ owner id, held live owner id ≠ none ∧ ∃ depth ≤ 256,
    key = nodeKey (holdingScope owner) id depth ∨ key = nodeKey zeroDigest (ownerKey owner) depth

theorem nodeAt_under (under : keyBits key = path ++ rest) :
    path.length ≤ 256 ∧ nodeAt scope path = nodeKey scope key path.length := by
  have short : path.length ≤ 256 := by
    have sized := congrArg List.length under
    rw [keyBits_length,List.length_append] at sized
    omega
  rw [nodeKey_at short,under,List.take_left]
  exact ⟨short,rfl⟩

theorem Filed.rooted (filed : Filed visits store live) (found : store.get key = some (.ownerData node)) : Rooted live key := by
  by_cases clear : Clear visits key
  · rw [filed.objects key clear] at found
    cases filed.plain key _ found
  rw [Clear] at clear
  push Not at clear
  obtain ⟨⟨tree,path⟩,inside,rfl⟩ := clear
  rw [getNode_exact.mp (filed.keeps.grown _ inside)] at found
  have occupied : ¬∀ rest, (path ++ rest).length = 256 → leavesOf (held live) tree (path ++ rest) = none := by
    intro vacant
    rw [stored_vacant vacant (positions_length inside)] at found
    cases found
  push Not at occupied
  obtain ⟨rest,sized,present⟩ := occupied
  obtain ⟨leaf,leafed⟩ := Option.ne_none_iff_exists'.mp present
  cases tree with
  | owners =>
    obtain ⟨owner,⟨id,holds⟩,placed,-⟩ := ownerLeaves_some leafed
    obtain ⟨short,same⟩ := nodeAt_under placed
    exact ⟨owner,id,holds,_,short,.inr same⟩
  | holdings owner =>
    rw [leavesOf,holdingLeaves,if_pos sized] at leafed
    obtain ⟨short,same⟩ := nodeAt_under (keyBits_bitsKey_whole sized)
    refine ⟨owner,_,?_,_,short,.inl same⟩
    intro absent
    rw [absent] at leafed
    cases leafed

theorem Filed.vacant (lively : Lively) (distinct : KeysApart visits) (filed : Filed visits store live)
    (visit : (owner, id) ∈ visits) (nothing : holdingsOf live owner = ∅) :
    store.get (nodeKey zeroDigest (ownerKey owner) 256) = none ∧
      ∀ depth ≤ 256, store.get (nodeKey (holdingScope owner) id depth) = none := by
  have nobody : ¬Holder (held live) owner := by
    rw [← counted_holder,counted_held,nothing,Finset.card_empty]
  constructor
  · rw [filed.summary lively distinct visit,summaryLeaf,
      if_pos ((rootOf_vacant lively (filed.keeps.holdings owner)).mpr nobody)]
    rfl
  · intro depth low
    have read := getNode_exact.mp (filed.keeps.grown _ (inside_holdings visit depth low))
    change store.get (nodeAt (holdingScope owner) _) = (stored (holdingScope owner) (holdingLeaves (held live owner)) _).map _ at read
    rw [nodeKey_at low,read,holdingLeaves_empty nobody,stored_empty]
    rfl

theorem Filed.totals (lively : Lively) (distinct : KeysApart visits)
    (filed : Filed visits store live) (holder : (holdingsOf live owner).Nonempty) :
    ∃ root : OwnerCommitment, store.get (nodeKey zeroDigest (ownerKey owner) 256) = some (.ownerData (encodeLeaf (.summary root))) ∧
      root.count.toNat = (holdingsOf live owner).card ∧
      root.balance.toNat = ∑ id ∈ live.keys, ownedValue owner (live.get id) := by
  obtain ⟨id,member⟩ := holder
  have holds : held live owner id ≠ none := (Finset.mem_filter.mp member).2
  have totals := rootOf_exact lively (filed.keeps.holdings owner)
  rw [OwnerCommitment.Exact,counted_held,funded_held] at totals
  refine ⟨rootOf (held live) owner,?_,totals⟩
  rw [filed.summary lively distinct (filed.keeps.visited owner id holds),summaryLeaf,if_neg]
  · rfl
  · rw [rootOf_vacant lively (filed.keeps.holdings owner),not_not]
    exact ⟨id,holds⟩

theorem Filed.root_empty (lively : Lively) (filed : Filed visits store ∅) : ownerRoot store = .ok zeroDigest := by
  have leaves : ownerLeaves (held ∅) = fun _ => none := by
    rw [held_empty]
    exact leavesOf_empty .owners
  rw [ownerRoot_exact lively filed.keeps,topOf,leaves,summaryOf_empty]
  rfl

-- Two histories that leave the same live objects leave the same trees: one leaf for each holding,
-- one summary for each holder, and no node beside them.
theorem owner_tree_history_free (lively : Lively) (distinct : KeysApart visits)
    (known : ∀ write ∈ writes, write.Known visits) :
    (∀ next, OwnedWrite.runAll writes = .ok next → (∀ others other, (∀ write ∈ others, write.Known visits) →
        OwnedWrite.runAll others = .ok other →
        OwnedWrite.liveAfter others = OwnedWrite.liveAfter writes → other = next) ∧
      (∀ id, Clear visits id → next.get id = (OwnedWrite.liveAfter writes).get id) ∧
      (∀ owner id, (owner, id) ∈ visits → next.get (nodeKey (holdingScope owner) id 256) =
        (holding owner ((OwnedWrite.liveAfter writes).get id)).map fun entry =>
          .ownerData (encodeLeaf (.holding entry.1 entry.2))) ∧
      (∀ owner, (holdingsOf (OwnedWrite.liveAfter writes) owner).Nonempty →
        ∃ root : OwnerCommitment, next.get (nodeKey zeroDigest (ownerKey owner) 256) =
            some (.ownerData (encodeLeaf (.summary root))) ∧
          root.count.toNat = (holdingsOf (OwnedWrite.liveAfter writes) owner).card ∧
          root.balance.toNat = ∑ id ∈ (OwnedWrite.liveAfter writes).keys,
            ownedValue owner ((OwnedWrite.liveAfter writes).get id)) ∧
      (∀ owner id, (owner, id) ∈ visits → holdingsOf (OwnedWrite.liveAfter writes) owner = ∅ →
        next.get (nodeKey zeroDigest (ownerKey owner) 256) = none ∧
          ∀ depth ≤ 256, next.get (nodeKey (holdingScope owner) id depth) = none) ∧
      (∀ key node, next.get key = some (.ownerData node) → Rooted (OwnedWrite.liveAfter writes) key) ∧
      (OwnedWrite.liveAfter writes = ∅ → ownerRoot next = .ok zeroDigest)) ∧
    ((∀ write ∈ writes, ∀ object ∈ write.value, object.isOwnerData = false) →
      (∀ done rest, writes = done ++ rest → Fitting (OwnedWrite.liveAfter done)) →
      ∃ next, OwnedWrite.runAll writes = .ok next) := by
  constructor
  · intro next ran
    have filed := writes_filed lively distinct known filed_empty ran
    refine ⟨?_,filed.objects,fun owner id visit => filed.leaf visit,
      fun owner holder => filed.totals lively distinct holder,
      fun owner id visit nothing => filed.vacant lively distinct visit nothing,
      fun key node found => filed.rooted found,?_⟩
    · intro others other knownToo ranToo same
      have otherwise := writes_filed lively distinct knownToo filed_empty ranToo
      change Filed visits other (OwnedWrite.liveAfter others) at otherwise
      rw [same] at otherwise
      exact otherwise.unique filed
    · intro empty
      change Filed visits next (OwnedWrite.liveAfter writes) at filed
      rw [empty] at filed
      exact filed.root_empty lively
  · intro plain fits
    exact writes_ok lively distinct known plain filed_empty fits

end Writes

section Sample

-- Eight bytes of a key, a depth or a height, and one byte of a scope.
def mark (key : List UInt8) (number : Nat) (flag : UInt8) : List UInt8 := key.take 8 ++ (bigEndian 2 number ++ flag :: List.replicate 21 1)

def markUp (child : List UInt8) : List UInt8 := mark child (fromBigEndian ((child.drop 8).take 2) + 1) (child.getD 10 0)

-- Node keys, branches and leaves by their place; a branch by its left child, where there is one; an
-- owner's key and scope by their length.
def crowdMark (bytes : List UInt8) : List UInt8 :=
  if bytes.length = 86 then mark (bytes.drop 54) (fromBigEndian ((bytes.drop 52).take 2)) (bytes.getD 20 0)
  else if bytes.length = 134 then
    if (bytes.drop 22).take 32 = zeroDigest.bytes then markUp ((bytes.drop 78).take 32) else markUp ((bytes.drop 22).take 32)
  else if bytes.length = 94 ∨ bytes.length = 141 then mark (bytes.drop 52) 0 (bytes.getD 20 0)
  else (if bytes.length = 33 then 1 else 2) :: List.replicate 31 0

theorem mark_length (wide : 8 ≤ key.length) : (mark key number flag).length = 32 := by
  simp [mark,Nat.min_eq_left wide]

theorem crowdMark_length {bytes : List UInt8} : (crowdMark bytes).length = 32 := by
  unfold crowdMark
  split
  · exact mark_length (by rw [List.length_drop]; omega)
  split
  · split
    · exact mark_length (by rw [List.length_take,List.length_drop]; omega)
    · exact mark_length (by rw [List.length_take,List.length_drop]; omega)
  split
  · exact mark_length (by rw [List.length_drop]; omega)
  · rw [List.length_cons,List.length_replicate]

@[reducible] def crowdSha : Sha256 := ⟨fun bytes => ⟨crowdMark bytes,crowdMark_length⟩⟩

def Crowds [Sha256] : Prop := ∀ bytes, (Sha256.hash bytes).bytes = crowdMark bytes

theorem crowdSha_crowds : @Crowds crowdSha := fun _ => rfl

theorem mark_inj (wide : 8 ≤ key.length) (wideToo : 8 ≤ other.length) (small : number < 256^2) (smallToo : more < 256^2)
    (same : mark key number flag = mark other more sign) : key.take 8 = other.take 8 ∧ number = more ∧ flag = sign := by
  obtain ⟨keys,rest⟩ := List.append_inj same (by rw [List.length_take,List.length_take]; omega)
  obtain ⟨numbers,flags⟩ := List.append_inj rest (by rw [bigEndian_length,bigEndian_length])
  have equal := congrArg fromBigEndian numbers
  rw [fromBigEndian_bigEndian,fromBigEndian_bigEndian,Nat.mod_eq_of_lt small,Nat.mod_eq_of_lt smallToo] at equal
  exact ⟨keys,equal,(List.cons.inj flags).1⟩

theorem mark_last (wide : 8 ≤ key.length) : (mark key number flag).drop 11 = List.replicate 21 1 := by
  have front : (key.take 8 ++ (bigEndian 2 number ++ [flag])).length = 11 := by simp [Nat.min_eq_left wide]
  rw [mark,List.append_cons,← List.append_assoc,List.drop_left' front]

theorem markUp_mark (wide : 8 ≤ key.length) (small : number < 256^2) :
    markUp (mark key number flag) = mark key (number + 1) flag := by
  have front : (key.take 8).length = 8 := by rw [List.length_take,Nat.min_eq_left wide]
  have width : (bigEndian 2 number).length = 2 := bigEndian_length 2 number
  have keyed : (mark key number flag).take 8 = key.take 8 := List.take_left' front
  have numbered : ((mark key number flag).drop 8).take 2 = bigEndian 2 number := by
    rw [mark,List.drop_left' front,List.take_left' width]
  have flagged : (mark key number flag).getD 10 0 = flag := by
    rw [mark,List.getD_append_right _ _ _ _ (by omega),front,List.getD_append_right _ _ _ _ (by omega),width]
    rfl
  rw [markUp,numbered,flagged,fromBigEndian_bigEndian,Nat.mod_eq_of_lt small,mark,keyed]
  rfl

theorem digest_wide (key : Digest) : 8 ≤ key.bytes.length := by
  rw [key.length_eq]
  decide

end Sample

section Early

def Early (key : Digest) : Prop := ∀ depth, 64 ≤ depth → bit key depth = false

theorem early_of_zeros {key : Digest} (zeros : key.bytes.drop 8 = List.replicate 24 0) : Early key := by
  intro depth late
  have place : depth / 8 = 8 + (depth / 8 - 8) := by omega
  have byte : key.bytes.getD (depth / 8) 0 = 0 := by
    rw [List.getD_eq_getElem?_getD,place,← List.getElem?_drop,zeros,List.getElem?_replicate]
    split <;> rfl
  rw [bit,Bits.bit,byte,UInt8.zero_and]
  rfl

theorem Early.keyPrefix (early : Early key) (depth : Nat) : Early (keyPrefix key depth) := by
  intro other late
  rw [Chain.keyPrefix,bit_cleared,early other late,Bool.false_and]

theorem Early.ext {one other : Digest} (early : Early one) (earlyToo : Early other)
    (same : one.bytes.take 8 = other.bytes.take 8) : one = other := by
  rw [← keyBits_inj]
  apply List.ext_getElem?
  intro depth
  by_cases inside : depth < 256
  · rw [keyBits_get inside,keyBits_get inside]
    by_cases late : 64 ≤ depth
    · rw [early depth late,earlyToo depth late]
    · have byte : one.bytes.getD (depth / 8) 0 = other.bytes.getD (depth / 8) 0 := by
        have taken := congrArg (fun bytes => bytes[depth / 8]?) same
        simp only [List.getElem?_take,if_pos (show depth / 8 < 8 by omega)] at taken
        rw [List.getD_eq_getElem?_getD,List.getD_eq_getElem?_getD,taken]
      rw [bit,bit,Bits.bit,Bits.bit,byte]
  · rw [List.getElem?_eq_none (by rw [keyBits_length]; omega),
      List.getElem?_eq_none (by rw [keyBits_length]; omega)]

end Early

section Crowd

variable [Sha256] (crowds : Crowds) {scope key : Digest} {path : List Bool} {leaves : Leaves}

include crowds

theorem Crowds.ends (bytes : List UInt8) : (Sha256.hash bytes).bytes.drop 11 = List.replicate 21 1 ∨
    (Sha256.hash bytes).bytes = (if bytes.length = 33 then 1 else 2) :: List.replicate 31 0 := by
  rw [crowds bytes]
  unfold crowdMark
  split
  · exact .inl (mark_last (by rw [List.length_drop]; omega))
  split
  · split
    · exact .inl (mark_last (by rw [List.length_take,List.length_drop]; omega))
    · exact .inl (mark_last (by rw [List.length_take,List.length_drop]; omega))
  split
  · exact .inl (mark_last (by rw [List.length_drop]; omega))
  · exact .inr rfl

theorem Crowds.lively : Lively := by
  intro bytes zero
  rcases crowds.ends bytes with marked | plain
  · rw [zero] at marked
    exact absurd marked (by decide)
  · rw [zero] at plain
    split at plain
    · exact absurd plain (by decide)
    · exact absurd plain (by decide)

omit [Sha256] crowds in
-- Node keys and leaves alike: a tag of twenty bytes, the scope, and what the place is.
theorem tagged_parts {tag rest : List UInt8} (sized : tag.length = 20) :
    (tag ++ (scope.bytes ++ rest)).getD 20 0 = scope.bytes.getD 0 0 ∧ (tag ++ (scope.bytes ++ rest)).drop 52 = rest := by
  have wide := scope.length_eq
  constructor
  · rw [List.getD_append_right _ _ _ _ (by omega),sized,List.getD_append _ _ _ _ (by omega)]
  · rw [show (52 : Nat) = 20 + 32 from rfl,← List.drop_drop,List.drop_left' sized,List.drop_left' wide]

theorem Crowds.node (short : path.length ≤ 256) :
    (nodeAt scope path).bytes = mark (bitsKey path).bytes path.length (scope.bytes.getD 0 0) := by
  have tag : (bytesOf "hellas-owner-node-v1").length = 20 := by decide +kernel
  have width : (encode (UInt16.ofNat path.length)).length = 2 := bigEndian_length 2 _
  have length : (nodePreimage scope path).length = 86 := by
    simp [nodePreimage,tag,scope.length_eq,(bitsKey path).length_eq]
    rfl
  obtain ⟨flag,deep⟩ : (nodePreimage scope path).getD 20 0 = scope.bytes.getD 0 0 ∧
      (nodePreimage scope path).drop 52 = encode (UInt16.ofNat path.length) ++ (bitsKey path).bytes := tagged_parts tag
  have key : (nodePreimage scope path).drop 54 = (bitsKey path).bytes := by
    rw [show (54 : Nat) = 52 + 2 from rfl,← List.drop_drop,deep,List.drop_left' width]
  have depth : fromBigEndian (encode (UInt16.ofNat path.length)) = path.length := by
    have word : (UInt16.ofNat path.length).toNat = path.length := UInt16.toNat_ofNat_of_lt' (by show path.length < 65536; omega)
    show fromBigEndian (bigEndian 2 (UInt16.ofNat path.length).toNat) = path.length
    rw [fromBigEndian_bigEndian,word,Nat.mod_eq_of_lt (by omega)]
  rw [nodeAt,crowds,crowdMark,if_pos length,key,deep,flag,List.take_left' width,depth]

theorem Crowds.leaf {leaf : OwnerLeaf} :
    (Sha256.hash (leafBytes scope key leaf)).bytes = mark key.bytes 0 (scope.bytes.getD 0 0) := by
  have tag : (bytesOf "hellas-owner-leaf-v1").length = 20 := by decide +kernel
  have body : leaf.body.length = 10 ∨ leaf.body.length = 57 := by
    cases leaf with
    | holding kind balance => exact .inl rfl
    | summary root =>
      right
      simp [OwnerLeaf.body,writeCommit,root.hash.length_eq]
      rfl
  have length : (leafBytes scope key leaf).length = 84 + leaf.body.length := by
    simp [leafBytes,tag,scope.length_eq,key.length_eq]
    omega
  obtain ⟨flag,deep⟩ : (leafBytes scope key leaf).getD 20 0 = scope.bytes.getD 0 0 ∧
      (leafBytes scope key leaf).drop 52 = key.bytes ++ leaf.body := tagged_parts tag
  have first : (key.bytes ++ leaf.body).take 8 = key.bytes.take 8 := List.take_append_of_le_length (by rw [key.length_eq]; decide)
  rw [crowds,crowdMark,if_neg (by omega),if_neg (by omega),if_pos (by omega),flag,deep,mark,first]
  rfl

theorem Crowds.branch {left right : OwnerCommitment} : (Sha256.hash (branchBytes left right)).bytes =
    markUp (if left.hash = zeroDigest then right.hash.bytes else left.hash.bytes) := by
  have tag : (bytesOf "hellas-owner-branch-v1").length = 22 := by decide +kernel
  have commit (value : OwnerCommitment) : (writeCommit value).length = 56 := by
    simp [writeCommit,value.hash.length_eq]
    rfl
  have hash (value : OwnerCommitment) (rest : List UInt8) : (writeCommit value ++ rest).take 32 = value.hash.bytes := by
    rw [writeCommit,List.append_assoc,List.take_left' value.hash.length_eq]
  have first : (branchBytes left right).drop 22 = writeCommit left ++ writeCommit right := by
    rw [branchBytes,List.drop_left' tag]
  have second : (branchBytes left right).drop 78 = writeCommit right ++ [] := by
    rw [show (78 : Nat) = 22 + 56 from rfl,← List.drop_drop,first,List.drop_left' (commit left),List.append_nil]
  have length : (branchBytes left right).length = 134 := by
    simp [branchBytes,tag,commit]
  rw [crowds,crowdMark,if_neg (by omega),if_pos length,first,second,hash,hash]
  by_cases empty : left.hash = zeroDigest
  · rw [if_pos empty,if_pos (congrArg FixedBytes.bytes empty)]
  · rw [if_neg empty,if_neg fun same => empty (FixedBytes.ext same)]

-- A subtree that holds anything is told by one of its leaves, its height and its scope.
theorem Crowds.summary (height : Nat) (path : List Bool) (sized : path.length + height = 256) :
    summaryOf scope leaves height path = .none ∨ ∃ key, path <+: keyBits key ∧ leaves (keyBits key) ≠ none ∧
      (summaryOf scope leaves height path).hash.bytes = mark key.bytes height (scope.bytes.getD 0 0) := by
  induction height generalizing path with
  | zero =>
    have whole := keyBits_bitsKey_whole (show path.length = 256 from sized)
    rw [summaryOf_leaf]
    cases found : leaves path with
    | none => exact .inl rfl
    | some leaf =>
      refine .inr ⟨bitsKey path,by rw [whole],?_,crowds.leaf⟩
      rw [whole,found]
      exact Option.some_ne_none leaf
  | succ height ih =>
    rw [summaryOf_node,merge]
    split
    · exact .inl rfl
    · rename_i occupied
      have below (turn : Bool) := ih (path ++ [turn]) (by rw [List.length_append,List.length_singleton]; omega)
      right
      rw [crowds.branch]
      rcases below false with vacant | ⟨key,under,found,marked⟩
      · rw [vacant] at occupied ⊢
        rcases below true with empty | ⟨key,under,found,marked⟩
        · rw [empty] at occupied
          exact absurd rfl occupied
        · refine ⟨key,(List.prefix_append path _).trans under,found,?_⟩
          rw [if_pos (show OwnerCommitment.none.hash = zeroDigest from rfl),marked,markUp_mark (digest_wide key) (by omega)]
      · refine ⟨key,(List.prefix_append path _).trans under,found,?_⟩
        have live : (summaryOf scope leaves height (path ++ [false])).hash ≠ zeroDigest := by
          intro zero
          have last : (mark key.bytes height (scope.bytes.getD 0 0)).drop 11 = _ := mark_last (digest_wide key)
          rw [← marked,zero] at last
          exact absurd last (by decide)
        rw [if_neg live,marked,markUp_mark (digest_wide key) (by omega)]

def placeBytes (scope : Digest) (leaves : Leaves) (key : Digest) : Nat → List UInt8
  | 0 => ((leaves (keyBits key)).map (leafBytes scope key)).getD []
  | height + 1 => branchBytes (summaryOf scope leaves height ((keyBits key).take (255 - height) ++ [false]))
      (summaryOf scope leaves height ((keyBits key).take (255 - height) ++ [true]))

def EarlyLeaves (leaves : Leaves) : Prop := ∀ path, leaves path ≠ none → ∃ key, Early key ∧ keyBits key = path

theorem Crowds.placed (early : EarlyLeaves leaves) (member : bytes ∈ treePreimages scope leaves) :
    ∃ key height, Early key ∧ height ≤ 256 ∧ bytes = placeBytes scope leaves key height ∧
      (Sha256.hash bytes).bytes = mark key.bytes height (scope.bytes.getD 0 0) := by
  rcases member with ⟨height,path,sized,occupied,rfl⟩ | ⟨path,leaf,found,rfl⟩
  · rcases crowds.summary (height + 1) path sized with vacant | ⟨key,⟨rest,under⟩,found,marked⟩
    · rw [vacant] at occupied
      exact absurd rfl occupied
    · obtain ⟨named,first,same⟩ := early _ found
      cases keyBits_inj.mp same
      refine ⟨key,height + 1,first,by omega,?_,?_⟩
      · rw [placeBytes,← under,show 255 - height = path.length by omega,List.take_left]
      · rw [summaryOf_node,merge] at marked occupied
        split at marked
        · rename_i vacant
          rw [if_pos vacant] at occupied
          exact absurd rfl occupied
        · exact marked
  · obtain ⟨key,first,rfl⟩ := early path (by rw [found]; exact Option.some_ne_none leaf)
    refine ⟨key,0,first,Nat.zero_le _,?_,?_⟩
    · rw [placeBytes,found,bitsKey_keyBits]
      rfl
    · rw [bitsKey_keyBits,crowds.leaf]

-- Two trees of different scopes, hashed without a collision.
theorem Crowds.trees {upper lower : Leaves} {scope other : Digest} (early : EarlyLeaves upper) (earlyToo : EarlyLeaves lower)
    (different : scope.bytes.getD 0 0 ≠ other.bytes.getD 0 0) :
    Set.InjOn Sha256.hash (treePreimages scope upper ∪ treePreimages other lower) := by
  have within : ∀ {scope leaves one more}, EarlyLeaves leaves → one ∈ treePreimages scope leaves → more ∈ treePreimages scope leaves →
      Sha256.hash one = Sha256.hash more → one = more := by
    intro scope leaves one more early first second same
    obtain ⟨key,height,soon,low,rfl,marked⟩ := crowds.placed early first
    obtain ⟨keyToo,heightToo,soonToo,lowToo,rfl,markedToo⟩ := crowds.placed early second
    rw [same,markedToo] at marked
    obtain ⟨keys,heights,-⟩ := mark_inj (digest_wide keyToo) (digest_wide key) (by omega) (by omega) marked
    rw [soon.ext soonToo keys.symm,heights]
  have across : ∀ {one more}, one ∈ treePreimages scope upper → more ∈ treePreimages other lower →
      Sha256.hash one ≠ Sha256.hash more := by
    intro one more first second same
    obtain ⟨key,height,-,low,-,marked⟩ := crowds.placed early first
    obtain ⟨keyToo,heightToo,-,lowToo,-,markedToo⟩ := crowds.placed earlyToo second
    rw [same,markedToo] at marked
    exact different (mark_inj (digest_wide keyToo) (digest_wide key) (by omega) (by omega) marked).2.2.symm
  intro one first more second same
  rcases first with first | first <;> rcases second with second | second
  · exact within early first second same
  · exact absurd same (across first second)
  · exact absurd same.symm (across second first)
  · exact within earlyToo first second same

def sampleOwner : SettlementKey := ⟨⟨List.replicate 33 7,List.length_replicate⟩⟩

def crowdId (number : Nat) : ObjectId := ⟨bigEndian 8 number ++ List.replicate 24 0,by rw [List.length_append,bigEndian_length]; rfl⟩

def crowdVisits : Set (SettlementKey × ObjectId) := { visit | visit.1 = sampleOwner ∧ ∃ number, visit.2 = crowdId number }

omit [Sha256] crowds in
theorem crowdId_early {number : Nat} : Early (crowdId number) := early_of_zeros (List.drop_left' (bigEndian_length 8 number))

theorem Crowds.ownerKey (owner : SettlementKey) : (ownerKey owner).bytes = 1 :: List.replicate 31 0 := by
  have wide := owner.raw.length_eq
  rw [Chain.ownerKey,crowds,crowdMark,if_neg (by omega),if_neg (by omega),if_neg (by omega),if_pos wide]

theorem Crowds.holdingScope (owner : SettlementKey) : (holdingScope owner).bytes = 2 :: List.replicate 31 0 := by
  have tag : (bytesOf "hellas-owner-holdings-v1").length = 24 := by decide +kernel
  have wide : (bytesOf "hellas-owner-holdings-v1" ++ owner.raw.bytes).length = 57 := by
    rw [List.length_append,tag,owner.raw.length_eq]
  rw [Chain.holdingScope,crowds,crowdMark,if_neg (by omega),if_neg (by omega),if_neg (by omega),if_neg (by omega)]

theorem Crowds.ownerKey_early (owner : SettlementKey) : Early (Chain.ownerKey owner) :=
  early_of_zeros (by rw [crowds.ownerKey]; rfl)

theorem Crowds.early {position : OwnerTree × List Bool} (member : position ∈ positions crowdVisits) : Early (bitsKey position.2) := by
  have taken : ∀ key depth, Early key → depth ≤ 256 → Early (bitsKey ((keyBits key).take depth)) := by
    intro key depth early low
    rw [← keyPrefix_bits low]
    exact early.keyPrefix depth
  rcases member with rfl | ⟨⟨owner,id⟩,⟨-,number,named⟩,depth,low,rfl | rfl⟩
  · exact taken _ 0 (crowds.ownerKey_early sampleOwner) (Nat.zero_le _)
  · change id = _ at named
    rw [named]
    exact taken _ depth crowdId_early low
  · exact taken _ depth (crowds.ownerKey_early owner) low

variable {position other : OwnerTree × List Bool}

theorem Crowds.unmarked (inside : position ∈ positions crowdVisits) :
    (nodeAt position.1.scope position.2).bytes ≠ byte :: List.replicate 31 0 := by
  intro same
  have last := congrArg (List.drop 11) same
  rw [crowds.node (positions_length inside),mark_last (digest_wide _),List.drop_succ_cons] at last
  exact absurd last (by decide)

theorem Crowds.scope_inj {one other : OwnerTree} (flags : one.scope.bytes.getD 0 0 = other.scope.bytes.getD 0 0) :
    one.scope = other.scope := by
  have zero : zeroDigest.bytes.getD 0 0 = 0 := by decide
  cases one with
  | owners =>
    cases other with
    | owners => rfl
    | holdings owner =>
      rw [OwnerTree.scope,OwnerTree.scope,zero,crowds.holdingScope] at flags
      exact absurd flags (by decide)
  | holdings owner =>
    cases other with
    | owners =>
      rw [OwnerTree.scope,OwnerTree.scope,zero,crowds.holdingScope] at flags
      exact absurd flags (by decide)
    | holdings other =>
      apply FixedBytes.ext
      rw [OwnerTree.scope,OwnerTree.scope,crowds.holdingScope,crowds.holdingScope]

theorem Crowds.position_inj (inside : position ∈ positions crowdVisits) (insideToo : other ∈ positions crowdVisits)
    (same : nodeAt position.1.scope position.2 = nodeAt other.1.scope other.2) :
    nodePreimage position.1.scope position.2 = nodePreimage other.1.scope other.2 := by
  have short := positions_length inside
  have shortToo := positions_length insideToo
  have bytes := congrArg FixedBytes.bytes same
  rw [crowds.node short,crowds.node shortToo] at bytes
  obtain ⟨keys,depths,flags⟩ := mark_inj (digest_wide _) (digest_wide _) (by omega) (by omega) bytes
  have equal := congrArg (fun key => (keyBits key).take position.2.length) ((crowds.early inside).ext (crowds.early insideToo) keys)
  simp only [keyBits_bitsKey,List.take_take,Nat.min_eq_left short] at equal
  rw [List.take_left,depths,List.take_left] at equal
  rw [equal,crowds.scope_inj flags]

theorem Crowds.keys : Set.InjOn Sha256.hash (keyPreimages crowdVisits) := by
  have key : (Sha256.hash sampleOwner.raw.bytes).bytes = 1 :: List.replicate 31 0 := crowds.ownerKey sampleOwner
  have scope : (Sha256.hash (bytesOf "hellas-owner-holdings-v1" ++ sampleOwner.raw.bytes)).bytes = 2 :: List.replicate 31 0 :=
    crowds.holdingScope sampleOwner
  intro one first other second same
  have bytes := congrArg FixedBytes.bytes same
  rcases first with ⟨⟨_,_⟩,⟨rfl,-⟩,rfl | rfl⟩ | ⟨position,inside,rfl⟩ <;>
    rcases second with ⟨⟨_,_⟩,⟨rfl,-⟩,rfl | rfl⟩ | ⟨positionToo,insideToo,rfl⟩
  · rfl
  · rw [key,scope] at bytes
    exact absurd bytes (by decide)
  · exact absurd (bytes.symm.trans key) (crowds.unmarked insideToo)
  · rw [key,scope] at bytes
    exact absurd bytes (by decide)
  · rfl
  · exact absurd (bytes.symm.trans scope) (crowds.unmarked insideToo)
  · exact absurd (bytes.trans key) (crowds.unmarked inside)
  · exact absurd (bytes.trans scope) (crowds.unmarked inside)
  · exact crowds.position_inj inside insideToo same

theorem Crowds.keysApart : KeysApart crowdVisits := keysApart_of crowds.lively crowds.keys

theorem Crowds.clear (number : Nat) : Clear crowdVisits (crowdId number) := by
  intro position inside same
  have last := congrArg (fun digest : Digest => digest.bytes.drop 11) same
  have zeros : (crowdId number).bytes.drop 11 = List.replicate 21 0 := by
    rw [show (11 : Nat) = 8 + 3 from rfl,← List.drop_drop,crowdId,List.drop_left' (bigEndian_length 8 number)]
    rfl
  simp only [OwnerTree.node,crowds.node (positions_length inside),mark_last (digest_wide _),zeros] at last
  exact absurd last (by decide)

end Crowd

section Moves

def crowdCoin (value : UInt64) : Object := .coin ⟨sampleOwner,none,value⟩

-- A coin of the one owner put at a numbered id, or whatever is there taken away.
def crowdMove (move : Nat × Option UInt64) : OwnedWrite := ⟨crowdId move.1,move.2.map crowdCoin⟩

variable {moves : List (Nat × Option UInt64)} {owner : SettlementKey} {value : Option UInt64} {writes : List OwnedWrite}
  {live : Store} {id : ObjectId}

theorem holding_crowd : holding owner (value.map crowdCoin) =
    if owner = sampleOwner then value.map fun value => (holdingCoin, value) else none := by
  cases value with
  | none => simp [holding]
  | some value => simp [holding,crowdCoin,eq_comm]

theorem move_known [Sha256] (crowds : Crowds) (move : Nat × Option UInt64) : (crowdMove move).Known crowdVisits where
  clear := crowds.clear move.1
  visited := by
    intro owner entry holds
    rw [crowdMove,holding_crowd] at holds
    split at holds
    · exact ⟨by assumption,move.1,rfl⟩
    · cases holds

theorem moves_known [Sha256] (crowds : Crowds) : ∀ write ∈ moves.map crowdMove, write.Known crowdVisits := by
  intro write member
  obtain ⟨move,-,rfl⟩ := List.mem_map.mp member
  exact move_known crowds move

theorem moves_plain : ∀ write ∈ moves.map crowdMove, ∀ object ∈ write.value, object.isOwnerData = false := by
  intro write member object found
  obtain ⟨move,-,rfl⟩ := List.mem_map.mp member
  obtain ⟨value,-,rfl⟩ := Option.map_eq_some_iff.mp found
  rfl

theorem mem_of_live (found : (writes.foldl OwnedWrite.apply live).get id = some object) :
    ⟨id,some object⟩ ∈ writes ∨ live.get id = some object := by
  induction writes generalizing live with
  | nil => exact .inr found
  | cons write writes ih =>
    rcases ih found with later | here
    · exact .inl (List.mem_cons_of_mem _ later)
    · rw [OwnedWrite.apply,Store.get_write] at here
      split at here
      · rename_i same
        rw [same,← here]
        exact .inl List.mem_cons_self
      · exact .inr here

-- What is live is a coin that some move put there.
theorem moves_live (found : (OwnedWrite.liveAfter (moves.map crowdMove)).get id = some object) :
    ∃ number value, (number, some value) ∈ moves ∧ id = crowdId number ∧ object = crowdCoin value := by
  rcases mem_of_live found with put | before
  · obtain ⟨⟨number,value⟩,member,same⟩ := List.mem_map.mp put
    obtain ⟨placed,made⟩ := OwnedWrite.mk.inj same
    obtain ⟨value,rfl,rfl⟩ := Option.map_eq_some_iff.mp made
    exact ⟨number,value,member,placed.symm,rfl⟩
  · rw [Store.get_empty] at before
    cases before

theorem moves_held (present : held (OwnedWrite.liveAfter (moves.map crowdMove)) owner id ≠ none) :
    owner = sampleOwner ∧ ∃ number, id = crowdId number := by
  rw [held] at present
  cases found : (OwnedWrite.liveAfter (moves.map crowdMove)).get id with
  | none =>
    rw [found] at present
    exact absurd rfl present
  | some object =>
    obtain ⟨number,value,-,rfl,rfl⟩ := moves_live found
    rw [found,show some (crowdCoin value) = (some value).map crowdCoin from rfl,holding_crowd] at present
    split at present
    · exact ⟨by assumption,number,rfl⟩
    · exact absurd rfl present

theorem moves_fit (few : moves.length < 2^64) : Fitting (OwnedWrite.liveAfter (moves.map crowdMove)) := by
  have named : (OwnedWrite.liveAfter (moves.map crowdMove)).keys ⊆ (moves.map fun move => crowdId move.1).toFinset := by
    intro id member
    obtain ⟨object,found⟩ := Option.ne_none_iff_exists'.mp (mem_live.mp member)
    obtain ⟨number,value,put,rfl,-⟩ := moves_live found
    exact List.mem_toFinset.mpr (List.mem_map.mpr ⟨_,put,rfl⟩)
  have sized : (OwnedWrite.liveAfter (moves.map crowdMove)).keys.card < 2^64 := by
    have listed := (Finset.card_le_card named).trans (List.toFinset_card_le _)
    rw [List.length_map] at listed
    omega
  refine ⟨fun owner => ?_,?_,?_⟩
  · exact lt_of_le_of_lt (Finset.card_filter_le _ _) sized
  · have holders : holdersOf (OwnedWrite.liveAfter (moves.map crowdMove)) ⊆ {sampleOwner} := by
      intro owner member
      obtain ⟨id,present⟩ := mem_holdersOf.mp member
      exact Finset.mem_singleton.mpr (moves_held present).1
    exact lt_of_le_of_lt (Finset.card_le_card holders) (by decide)
  · have each : ∀ id ∈ (OwnedWrite.liveAfter (moves.map crowdMove)).keys,
        coinValue ((OwnedWrite.liveAfter (moves.map crowdMove)).get id) ≤ 2^64 := by
      intro id _
      cases found : (OwnedWrite.liveAfter (moves.map crowdMove)).get id with
      | none => exact Nat.zero_le _
      | some object =>
        obtain ⟨number,value,-,-,rfl⟩ := moves_live found
        exact value.toNat_lt.le
    have sum := Finset.sum_le_card_nsmul _ _ _ each
    rw [nsmul_eq_mul,Nat.cast_id] at sum
    omega

theorem moves_done (split : moves.map crowdMove = done ++ rest) : ∃ early, early <+: moves ∧ done = early.map crowdMove := by
  obtain ⟨early,late,rfl,rfl,-⟩ := List.map_eq_append_iff.mp split
  exact ⟨early,List.prefix_append early late,rfl⟩

theorem moves_fit_early (few : moves.length < 2^64) (split : moves.map crowdMove = done ++ rest) :
    Fitting (OwnedWrite.liveAfter done) := by
  obtain ⟨early,within,rfl⟩ := moves_done split
  exact moves_fit (lt_of_le_of_lt within.length_le few)

end Moves

section Histories

def direct : List (Nat × Option UInt64) := [(1, some 5),(2, some 7)]

-- In another order, by way of a coin that is replaced and one that is taken back.
def detour : List (Nat × Option UInt64) := [(2, some 9),(3, some 1),(2, some 7),(3, none),(1, some 5)]

theorem detour_live : OwnedWrite.liveAfter (detour.map crowdMove) = OwnedWrite.liveAfter (direct.map crowdMove) := by
  decide +kernel

theorem owner_tree_history_free_detour : letI := crowdSha
    ∃ next, OwnedWrite.runAll (direct.map crowdMove) = .ok next ∧ OwnedWrite.runAll (detour.map crowdMove) = .ok next ∧
      next.get (nodeKey (holdingScope sampleOwner) (crowdId 2) 256) = some (.ownerData (encodeLeaf (.holding holdingCoin 7))) ∧
      next.get (nodeKey (holdingScope sampleOwner) (crowdId 3) 256) = none ∧
      ∃ root : OwnerCommitment, next.get (nodeKey zeroDigest (ownerKey sampleOwner) 256) =
          some (.ownerData (encodeLeaf (.summary root))) ∧
        root.count.toNat = 2 ∧ root.balance.toNat = 12 := by
  let := crowdSha
  have crowds : Crowds := crowdSha_crowds
  obtain ⟨told,succeeds⟩ := owner_tree_history_free crowds.lively crowds.keysApart (@moves_known direct _ crowds)
  obtain ⟨next,ran⟩ := succeeds moves_plain fun done rest split => moves_fit_early (by decide) split
  obtain ⟨other,wandered⟩ := (owner_tree_history_free crowds.lively crowds.keysApart (@moves_known detour _ crowds)).2
    moves_plain fun done rest split => moves_fit_early (by decide) split
  obtain ⟨unique,-,leaves,summaries,-⟩ := told next ran
  rw [unique _ other (moves_known crowds) wandered detour_live] at wandered
  have holdings : holdingsOf (OwnedWrite.liveAfter (direct.map crowdMove)) sampleOwner = {crowdId 1,crowdId 2} := by
    decide +kernel
  obtain ⟨root,stored,count,balance⟩ := summaries sampleOwner (by rw [holdings]; exact Finset.insert_nonempty _ _)
  refine ⟨next,ran,wandered,?_,?_,root,stored,?_,?_⟩
  · have kept : (OwnedWrite.liveAfter (direct.map crowdMove)).get (crowdId 2) = some (crowdCoin 7) := by decide +kernel
    rw [leaves sampleOwner (crowdId 2) ⟨rfl,2,rfl⟩,kept,crowdCoin,holding,if_pos rfl]
    rfl
  · have gone : (OwnedWrite.liveAfter (direct.map crowdMove)).get (crowdId 3) = none := by decide +kernel
    rw [leaves sampleOwner (crowdId 3) ⟨rfl,3,rfl⟩,gone]
    rfl
  · rw [count,holdings]
    decide +kernel
  · rw [balance]
    decide +kernel

end Histories

section Full

def crowd (count : Nat) : List (Nat × Option UInt64) := (List.range count).map fun number => (number, some 0)

variable {count : Nat}

theorem liveAfter_crowd (listed : number < count) :
    (OwnedWrite.liveAfter ((crowd count).map crowdMove)).get (crowdId number) = some (crowdCoin 0) := by
  induction count with
  | zero => omega
  | succ count ih =>
    rw [OwnedWrite.liveAfter,crowd,List.range_succ,List.map_append,List.map_append,List.foldl_append,
      List.map_singleton,List.map_singleton,List.foldl_cons,List.foldl_nil,OwnedWrite.apply,Store.get_write]
    split
    · rfl
    · rename_i different
      have earlier : number < count := by
        rcases Nat.lt_or_ge number count with earlier | latest
        · exact earlier
        · exact absurd (by rw [show number = count by omega]; rfl) different
      exact ih earlier

theorem crowdId_injOn (few : count ≤ 2^64) : Set.InjOn crowdId (Finset.range count) := by
  intro one first other second same
  rw [Finset.coe_range,Set.mem_Iio] at first second
  have bytes := congrArg (fun id : ObjectId => fromBigEndian (id.bytes.take 8)) same
  simp only [crowdId,List.take_left' (bigEndian_length 8 _),fromBigEndian_bigEndian] at bytes
  omega

theorem crowd_holdings (few : count ≤ 2^64) :
    count ≤ (holdingsOf (OwnedWrite.liveAfter ((crowd count).map crowdMove)) sampleOwner).card := by
  have listed : (Finset.range count).image crowdId ⊆ holdingsOf (OwnedWrite.liveAfter ((crowd count).map crowdMove)) sampleOwner := by
    intro id member
    obtain ⟨number,inside,rfl⟩ := Finset.mem_image.mp member
    have present := liveAfter_crowd (Finset.mem_range.mp inside)
    refine Finset.mem_filter.mpr ⟨mem_live.mpr ?_,?_⟩
    · rw [present]
      exact Option.some_ne_none _
    · rw [present,crowdCoin,holding,if_pos rfl]
      exact Option.some_ne_none _
  have sized := Finset.card_le_card listed
  rwa [Finset.card_image_of_injOn (crowdId_injOn few),Finset.card_range] at sized

theorem crowd_value (split : (crowd count).map crowdMove = done ++ rest) :
    ∑ id ∈ (OwnedWrite.liveAfter done).keys, coinValue ((OwnedWrite.liveAfter done).get id) = 0 := by
  obtain ⟨early,within,rfl⟩ := moves_done split
  refine Finset.sum_eq_zero fun id _ => ?_
  cases found : (OwnedWrite.liveAfter (early.map crowdMove)).get id with
  | none => rfl
  | some object =>
    obtain ⟨number,value,put,-,rfl⟩ := moves_live found
    obtain ⟨_,-,same⟩ := List.mem_map.mp (within.subset put)
    cases same
    rfl

theorem crowd_refused [Sha256] (crowds : Crowds) (full : count = 2^64) (next : Store) :
    OwnedWrite.runAll ((crowd count).map crowdMove) ≠ .ok next := by
  intro ran
  have filed := writes_filed crowds.lively crowds.keysApart (moves_known crowds) filed_empty ran
  have room := (filed.keeps.holdings sampleOwner).count
  rw [counted_held] at room
  have many := crowd_holdings full.le
  rw [OwnedWrite.liveAfter] at many
  omega

-- However little the coins come to, one more than a word counts is refused.
theorem owner_count_overflows : ∃ _ : Sha256, Lively ∧
    ∃ visits writes, KeysApart visits ∧ (∀ write ∈ writes, write.Known visits) ∧
      (∀ write ∈ writes, ∀ object ∈ write.value, object.isOwnerData = false) ∧
      (∀ done rest, writes = done ++ rest → ∑ id ∈ (OwnedWrite.liveAfter done).keys,
        coinValue ((OwnedWrite.liveAfter done).get id) = 0) ∧
      ∀ next, OwnedWrite.runAll writes ≠ .ok next := by
  let := crowdSha
  have crowds : Crowds := crowdSha_crowds
  exact ⟨crowdSha,crowds.lively,crowdVisits,(crowd (2^64)).map crowdMove,crowds.keysApart,moves_known crowds,moves_plain,
    fun done rest split => crowd_value split,crowd_refused crowds rfl⟩

end Full

end Hellas.Chain
