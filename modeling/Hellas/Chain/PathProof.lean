import Hellas.Chain.Holdings

-- A proof of one path: what its climb adds up, that an accepted climb to a tree's hash tells the
-- truth about its leaf and its rank, and that the tree's own climb is accepted.

namespace Hellas.Chain

open Guard Kernel Words

section Climbing

variable [Sha256] {sides : List OwnerCommitment}

def countOf (commit : OwnerCommitment) : Nat := commit.count.toNat

def ordered (turn : Bool) (side current : OwnerCommitment) : OwnerCommitment × OwnerCommitment :=
  if turn then (side, current) else (current, side)

variable {result side below : OwnerCommitment} {rank : UInt64}

theorem verifyStep_exact (here : sides.getD depth .none = side) :
    verifyStep key sides (current, rank) depth = .ok (result, next) ↔
      side.Well ∧ Fits (ordered (bit key depth) side current).1 (ordered (bit key depth) side current).2 ∧
        merge (ordered (bit key depth) side current).1 (ordered (bit key depth) side current).2 = result ∧
        (if bit key depth then countOf side else 0) + rank.toNat = next.toNat := by
  unfold verifyStep ordered countOf
  rw [here]
  cases bit key depth with
  | false =>
    simp only [bind_ok,readCommit_writeCommit,Bool.false_eq_true,if_false,combine_exact,pure_ok,
      Prod.mk.injEq,Nat.zero_add,UInt64.toNat_inj]
    constructor
    · rintro ⟨read,⟨well,-⟩,joined,⟨fits,rfl⟩,rfl,rfl⟩
      exact ⟨well,fits,rfl,rfl⟩
    · rintro ⟨well,fits,rfl,rfl⟩
      exact ⟨side,⟨well,rfl⟩,_,⟨fits,rfl⟩,rfl,rfl⟩
  | true =>
    simp only [bind_ok,readCommit_writeCommit,if_true,okOr_ok,checkedAdd_exact,combine_exact,pure_ok,Prod.mk.injEq]
    constructor
    · rintro ⟨read,⟨well,-⟩,sum,added,joined,⟨fits,rfl⟩,rfl,rfl⟩
      exact ⟨well,fits,rfl,by omega⟩
    · rintro ⟨well,fits,rfl,added⟩
      exact ⟨side,⟨well,rfl⟩,next,by omega,_,⟨fits,rfl⟩,rfl,rfl⟩

-- What a climb from a leaf must have met to be accepted, and where it ends.
structure Climbs (rest : List Bool) (sides : List OwnerCommitment) (below : OwnerCommitment)
    (result : OwnerCommitment) (rank : UInt64) : Prop where
  well : ∀ side ∈ sides, side.Well
  fits : ∀ pair ∈ Trie.joined merge rest sides below, Fits pair.1 pair.2
  reached : Trie.climb merge rest sides below = result
  ranked : Trie.rank countOf rest sides = rank.toNat

theorem climbs_cons :
    Climbs (turn :: rest) (side :: sides) below result rank ↔ ∃ current earlier, Climbs rest sides below current earlier ∧ side.Well ∧
        Fits (ordered turn side current).1 (ordered turn side current).2 ∧
        merge (ordered turn side current).1 (ordered turn side current).2 = result ∧
        (if turn then countOf side else 0) + earlier.toNat = rank.toNat := by
  have climbed : Trie.climb merge (turn :: rest) (side :: sides) below = merge (ordered turn side (Trie.climb merge rest sides below)).1
        (ordered turn side (Trie.climb merge rest sides below)).2 := by
    cases turn <;> rfl
  constructor
  · intro climbs
    have ranked := climbs.ranked
    rw [Trie.rank] at ranked
    have bound := rank.toNat_lt
    obtain ⟨earlier,known⟩ := exists_word (show Trie.rank countOf rest sides < 2^64 by omega)
    refine ⟨Trie.climb merge rest sides below,earlier,⟨fun other member => climbs.well other (List.mem_cons_of_mem _ member),
        fun pair member => climbs.fits pair (List.mem_cons_of_mem _ member),rfl,known⟩,
      climbs.well side List.mem_cons_self,?_,?_,by omega⟩
    · exact climbs.fits _ List.mem_cons_self
    · rw [← climbs.reached,climbed]
  · intro found
    obtain ⟨current,earlier,climbs,well,fits,joined,ranked⟩ := found
    have reached := climbs.reached
    refine ⟨?_,?_,?_,?_⟩
    · intro other member
      rcases List.mem_cons.mp member with rfl | later
      · exact well
      · exact climbs.well other later
    · intro pair member
      rcases List.mem_cons.mp member with rfl | later
      · rw [reached]
        exact fits
      · exact climbs.fits pair later
    · rw [climbed,reached,joined]
    · rw [Trie.rank,climbs.ranked,ranked]

theorem verify_run (sized : sides.length = 256) :
    ∀ count depth, depth + count = 256 → ∀ result rank,
      (List.range' depth count).reverse.foldlM (verifyStep key sides) (below, 0) = .ok (result, rank) ↔
      Climbs ((keyBits key).drop depth) (sides.drop depth) below result rank := by
  intro count
  induction count with
  | zero =>
    intro depth whole result rank
    rw [List.drop_of_length_le (by simp; omega),List.drop_of_length_le (by omega)]
    constructor
    · intro run
      cases run
      have nothing : ∀ side ∈ ([] : List OwnerCommitment), side.Well := by simp
      have unjoined : ∀ pair ∈ Trie.joined merge [] [] below, Fits pair.1 pair.2 := by
        simp [Trie.joined]
      exact ⟨nothing,unjoined,rfl,rfl⟩
    · intro climbs
      have zero : rank = 0 := by
        rw [← UInt64.toNat_inj,← climbs.ranked]
        rfl
      rw [zero,← climbs.reached]
      rfl
  | succ count ih =>
    intro depth whole result rank
    have inside : depth < 256 := by omega
    have side : sides.getD depth .none = sides[depth] := by
      rw [List.getD_eq_getElem?_getD,List.getElem?_eq_getElem (by omega),Option.getD_some]
    rw [List.range'_succ,List.reverse_cons,List.foldlM_append,bind_ok,keyBits_drop inside,
      List.drop_eq_getElem_cons (show depth < sides.length by omega),climbs_cons]
    constructor
    · rintro ⟨⟨current,earlier⟩,run,step⟩
      simp only [List.foldlM_cons,List.foldlM_nil,bind_pure] at step
      exact ⟨current,earlier,(ih (depth + 1) (by omega) current earlier).mp run,
        (verifyStep_exact side).mp step⟩
    · rintro ⟨current,earlier,climbs,step⟩
      refine ⟨(current, earlier),(ih (depth + 1) (by omega) current earlier).mpr climbs,?_⟩
      simp only [List.foldlM_cons,List.foldlM_nil,bind_pure]
      exact (verifyStep_exact side).mpr step

omit [Sha256] in
theorem expandSiblings_length (expanded : expandSiblings proof = .ok sides) : sides.length = 256 := by
  have step : ∀ (siblings : List OwnerSibling) (start after : List OwnerCommitment × Option Nat), start.1.length = 256 →
      siblings.foldlM expandStep start = .ok after → after.1.length = 256 := by
    intro siblings
    induction siblings with
    | nil =>
      intro start after sized run
      cases run
      exact sized
    | cons sibling siblings ih =>
      intro start after sized run
      rw [List.foldlM_cons,bind_ok] at run
      obtain ⟨middle,first,rest⟩ := run
      refine ih middle after ?_ rest
      simp only [expandStep,bind_ok,rejectIf_ok,pure_ok] at first
      obtain ⟨-,-,-,-,rfl⟩ := first
      rw [List.length_set,sized]
  simp only [expandSiblings,bind_ok,rejectIf_ok,pure_ok] at expanded
  obtain ⟨-,-,after,run,rfl⟩ := expanded
  exact step _ _ _ List.length_replicate run

theorem verifyPath_exact :
    verifyPath scope key proof = .ok (result, rank) ↔
      ∃ sides below, expandSiblings proof = .ok sides ∧ leafCommit scope key proof.leaf = .ok below ∧
        Climbs (keyBits key) sides below result rank := by
  unfold verifyPath
  simp only [bind_ok]
  constructor
  · rintro ⟨sides,expanded,below,committed,run⟩
    rw [upward_eq] at run
    have climbs := (verify_run (expandSiblings_length expanded) 256 0 rfl result rank).mp run
    exact ⟨sides,below,expanded,committed,climbs⟩
  · rintro ⟨sides,below,expanded,committed,climbs⟩
    refine ⟨sides,expanded,below,committed,?_⟩
    rw [upward_eq]
    exact (verify_run (expandSiblings_length expanded) 256 0 rfl result rank).mpr climbs

end Climbing

section Binding

variable [Sha256] {scope key : Digest} {leaves : Leaves} {proof : OwnerPathProof}

def treePreimages (scope : Digest) (leaves : Leaves) : Set (List UInt8) :=
  { bytes | (∃ height path, path.length + (height + 1) = 256 ∧
      (summaryOf scope leaves (height + 1) path).count ≠ 0 ∧
      bytes = branchBytes (summaryOf scope leaves height (path ++ [false])) (summaryOf scope leaves height (path ++ [true]))) ∨
    ∃ path leaf, leaves path = some leaf ∧ bytes = leafBytes scope (bitsKey path) leaf }

def pathPreimages (scope key : Digest) (proof : OwnerPathProof) : Set (List UInt8) :=
  { bytes | (∃ leaf ∈ proof.leaf, bytes = leafBytes scope key leaf) ∨
    ∃ sides, expandSiblings proof = .ok sides ∧ ∃ pair ∈ Trie.joined merge (keyBits key) sides (leafOf scope (keyBits key) proof.leaf),
        (merge pair.1 pair.2).count ≠ 0 ∧ bytes = branchBytes pair.1 pair.2 }

omit [Sha256] in
theorem branchBytes_inj (same : branchBytes left right = branchBytes lower upper) : left = lower ∧ right = upper := by
  unfold branchBytes at same
  rw [List.append_cancel_left_eq] at same
  obtain ⟨first,second⟩ := List.append_inj same (by simp)
  exact ⟨writeCommit_inj.mp first,writeCommit_inj.mp second⟩

omit [Sha256] in
theorem leafBytes_inj (same : leafBytes scope key one = leafBytes scope key other) : one = other := by
  unfold leafBytes at same
  rw [List.append_cancel_left_eq,List.append_cancel_left_eq,List.append_cancel_left_eq] at same
  cases one with
  | summary root =>
    cases other with
    | summary root' =>
      rw [OwnerLeaf.body,OwnerLeaf.body,List.cons.injEq] at same
      rw [writeCommit_inj.mp same.2]
    | holding kind balance => cases (List.cons.inj same).1
  | holding kind balance =>
    cases other with
    | summary root' => cases (List.cons.inj same).1
    | holding kind' balance' =>
      rw [OwnerLeaf.body,OwnerLeaf.body,List.cons.injEq,List.cons.injEq,encode_inj] at same
      rw [same.2.1,same.2.2]

theorem merge_sound (lively : Lively) (leftWell : left.Well) (rightWell : right.Well) (lowerWell : lower.Well)
    (upperWell : upper.Well) (fits : Fits left right) (fitsToo : Fits lower upper)
    (apart : (merge left right).count ≠ 0 → (merge lower upper).count ≠ 0 →
      Sha256.hash (branchBytes left right) = Sha256.hash (branchBytes lower upper) →
        branchBytes left right = branchBytes lower upper) (same : (merge left right).hash = (merge lower upper).hash) :
    left = lower ∧ right = upper := by
  have parts {first second : OwnerCommitment} (firstWell : first.Well) (secondWell : second.Well)
      (fits : Fits first second) (empty : (merge first second).count = 0) :
      first = .none ∧ second = .none := by
    have sum := merge_count fits
    rw [empty,UInt64.toNat_zero] at sum
    have firstZero : first.count = 0 := by rw [← UInt64.toNat_inj,UInt64.toNat_zero]; omega
    have secondZero : second.count = 0 := by rw [← UInt64.toNat_inj,UInt64.toNat_zero]; omega
    exact ⟨firstWell.eq_none firstZero,secondWell.eq_none secondZero⟩
  have hashed {first second : OwnerCommitment} (occupied : (merge first second).count ≠ 0) :
      (merge first second).hash = Sha256.hash (branchBytes first second) := by
    unfold merge at occupied ⊢
    split
    · rename_i empty
      rw [if_pos empty] at occupied
      exact absurd rfl occupied
    · rfl
  have vacant := (@merge_well _ left right lively).vacant
  have vacantToo := (@merge_well _ lower upper lively).vacant
  by_cases empty : (merge left right).count = 0
  · have emptyToo := vacantToo.mpr (same ▸ vacant.mp empty)
    obtain ⟨rfl,rfl⟩ := parts leftWell rightWell fits empty
    obtain ⟨rfl,rfl⟩ := parts lowerWell upperWell fitsToo emptyToo
    exact ⟨rfl,rfl⟩
  · have occupied : (merge lower upper).count ≠ 0 := by
      intro zero
      exact empty (vacant.mpr (same ▸ vacantToo.mp zero))
    rw [hashed empty,hashed occupied] at same
    exact branchBytes_inj (apart empty occupied same)

theorem leafOf_sound (apart : ∀ one ∈ claimed, ∀ other ∈ actual,
      Sha256.hash (leafBytes scope key one) = Sha256.hash (leafBytes scope key other) → leafBytes scope key one = leafBytes scope key other)
    (same : leafOf scope (keyBits key) claimed = leafOf scope (keyBits key) actual) :
    claimed = actual := by
  cases claimed with
  | none =>
    cases actual with
    | none => rfl
    | some leaf => exact absurd (congrArg OwnerCommitment.count same) (show (0 : UInt64) ≠ 1 by decide)
  | some leaf =>
    cases actual with
    | none => exact absurd (congrArg OwnerCommitment.count same) (show (1 : UInt64) ≠ 0 by decide)
    | some other =>
      have hashes := congrArg OwnerCommitment.hash same
      simp only [leafOf,bitsKey_keyBits] at hashes
      rw [leafBytes_inj (apart leaf rfl other rfl hashes)]

theorem leafCommit_leafOf (committed : leafCommit scope key leaf = .ok below) :
    leafOf scope (keyBits key) leaf = below := by
  cases leaf with
  | none =>
    cases committed
    rfl
  | some leaf =>
    cases leaf with
    | summary root =>
      simp only [leafCommit,bind_ok,rejectIf_ok,pure_ok] at committed
      obtain ⟨-,-,rfl⟩ := committed
      rw [leafOf,bitsKey_keyBits]
      rfl
    | holding kind balance =>
      simp only [leafCommit,bind_ok,rejectIf_ok,pure_ok] at committed
      obtain ⟨-,-,rfl⟩ := committed
      rw [leafOf,bitsKey_keyBits]
      rfl

omit [Sha256] in
theorem Bounded.inner (bounded : Bounded leaves 256 []) {path : List Bool}
    (sized : path.length + height = 256) : Bounded leaves height path := by
  have inner := @Bounded.below leaves height [] path
  rw [Nat.add_comm,sized] at inner
  exact inner bounded

theorem climb_well (lively : Lively) {rest : List Bool} {sides : List OwnerCommitment}
    {below : OwnerCommitment} (well : below.Well) : (Trie.climb merge rest sides below).Well := by
  cases rest with
  | nil => exact well
  | cons turn rest =>
    cases sides with
    | nil => exact well
    | cons side sides => cases turn <;> exact merge_well lively

theorem joined_well (lively : Lively) {rest : List Bool} {sides : List OwnerCommitment}
    {below : OwnerCommitment} (well : below.Well) (wellSides : ∀ side ∈ sides, side.Well) :
    ∀ pair ∈ Trie.joined merge rest sides below, pair.1.Well ∧ pair.2.Well := by
  induction rest generalizing sides with
  | nil => intro pair member; cases member
  | cons turn rest ih =>
    cases sides with
    | nil => intro pair member; cases member
    | cons side sides =>
      have sideWell := wellSides side List.mem_cons_self
      have current := @climb_well _ lively rest sides below well
      intro pair member
      rcases List.mem_cons.mp member with here | later
      · cases turn with
        | false => rw [here]; exact ⟨current,sideWell⟩
        | true => rw [here]; exact ⟨sideWell,current⟩
      · exact ih (fun other inside => wellSides other (List.mem_cons_of_mem _ inside)) pair later

-- One accepted path that ends at the tree's hash shows the tree's own leaf, at its true rank.
theorem path_sound (lively : Lively) (bounded : Bounded leaves 256 [])
    (apart : Set.InjOn Sha256.hash (treePreimages scope leaves ∪ pathPreimages scope key proof))
    (verified : verifyPath scope key proof = .ok (result, rank))
    (same : result.hash = (summaryOf scope leaves 256 []).hash) :
    proof.leaf = leaves (keyBits key) ∧ result = summaryOf scope leaves 256 [] ∧
      rank.toNat = (Trie.before leaves [] (keyBits key)).length := by
  obtain ⟨sides,below,expanded,committed,climbs⟩ := verifyPath_exact.mp verified
  have sized := expandSiblings_length expanded
  have start := leafCommit_leafOf committed
  have joinedWell := @joined_well _ lively (keyBits key) sides below (start ▸ leafOf_well lively) climbs.well
  have told : ∀ pair ∈ Trie.joined merge (keyBits key) sides below, ∀ height path, path.length + (height + 1) = 256 →
      (merge pair.1 pair.2).hash = (summaryOf scope leaves (height + 1) path).hash →
        pair.1 = summaryOf scope leaves height (path ++ [false]) ∧ pair.2 = summaryOf scope leaves height (path ++ [true]) := by
    intro pair member height path inside equal
    rw [summaryOf_node] at equal
    refine merge_sound lively (joinedWell pair member).1 (joinedWell pair member).2
      (summaryOf_well lively) (summaryOf_well lively) (climbs.fits pair member)
      (Bounded.fits lively (bounded.inner inside)) ?_ equal
    intro occupied honest hashes
    rw [← summaryOf_node] at honest
    exact apart (.inr (.inr ⟨sides,expanded,pair,start ▸ member,occupied,rfl⟩)) (.inl (.inl ⟨height,path,inside,honest,rfl⟩)) hashes
  have reached : result = summaryOf scope leaves 256 [] := by
    obtain ⟨turn,rest,bits⟩ := List.exists_cons_of_ne_nil (List.ne_nil_of_length_eq_add_one (@keyBits_length key))
    obtain ⟨side,others,parts⟩ := List.exists_cons_of_ne_nil (List.ne_nil_of_length_eq_add_one sized)
    have head : ∃ pair ∈ Trie.joined merge (keyBits key) sides below, merge pair.1 pair.2 = result := by
      rw [← climbs.reached,bits,parts]
      refine ⟨_,List.mem_cons_self,?_⟩
      cases turn <;> rfl
    obtain ⟨pair,member,top⟩ := head
    have children := told pair member 255 [] rfl (by rw [top]; exact same)
    rw [← top,children.1,children.2,← summaryOf_node]
  have length : ([] : List Bool).length + (keyBits key).length = 256 := by simp
  obtain ⟨honest,bottom⟩ := Trie.climb_sound length (by rw [sized,keyBits_length])
    (fun pair member height path inside equal => told pair member height path inside (congrArg OwnerCommitment.hash equal))
    (by rw [climbs.reached,reached,keyBits_length]; rfl)
  rw [List.nil_append,← start] at bottom
  refine ⟨?_,reached,?_⟩
  · refine leafOf_sound ?_ bottom
    intro one claimed other actual hashes
    refine apart (.inr (.inl ⟨one,claimed,rfl⟩)) (.inl (.inr ⟨keyBits key,other,actual,?_⟩)) hashes
    rw [bitsKey_keyBits]
  · rw [← climbs.ranked,honest]
    refine Trie.rank_siblings length ?_
    intro height path inside
    rw [← counted_length]
    exact (summaryOf_exact lively (bounded.inner inside)).1

theorem path_complete (lively : Lively) (bounded : Bounded leaves 256 []) (valid : ∀ leaf ∈ leaves (keyBits key), leaf.Valid scope) :
    ∃ rank : UInt64, verifyPath scope key (proofOf scope leaves key) = .ok (summaryOf scope leaves 256 [], rank) ∧
      rank.toNat = (Trie.before leaves [] (keyBits key)).length := by
  have length : ([] : List Bool).length + (keyBits key).length = 256 := by simp
  have ranked : Trie.rank countOf (keyBits key) (siblingsOf scope leaves key) = (Trie.before leaves [] (keyBits key)).length := by
    refine Trie.rank_siblings length ?_
    intro height path inside
    rw [← counted_length]
    exact (summaryOf_exact lively (bounded.inner inside)).1
  have small : (Trie.before leaves [] (keyBits key)).length < 2^64 := by
    have around := congrArg List.length (@Trie.entries_around _ leaves [] (keyBits key))
    have count := bounded.count
    rw [keyBits_length,← counted_length,List.length_append,List.length_append] at around
    omega
  obtain ⟨rank,known⟩ := exists_word small
  refine ⟨rank,verifyPath_exact.mpr ⟨siblingsOf scope leaves key,_,
    expandSiblings_proofOf lively,(leafCommit_exact fun leaf found => (valid leaf found).well).mpr
      ⟨valid,rfl⟩,siblingsOf_well lively,?_,?_,ranked.trans known⟩,known.symm⟩
  · intro pair member
    obtain ⟨height,path,inside,rfl⟩ := @Trie.joined_siblings _ _ _ _ leaves [] (keyBits key) pair member
    rw [length] at inside
    exact Bounded.fits lively (bounded.inner inside)
  · have climbed := @Trie.climb_siblings _ _ (leafOf scope) merge leaves [] (keyBits key)
    rw [List.nil_append,keyBits_length] at climbed
    exact climbed

theorem proofOf_preimages (lively : Lively) :
    pathPreimages scope key (proofOf scope leaves key) ⊆ treePreimages scope leaves := by
  intro bytes member
  rcases member with ⟨leaf,found,same⟩ | ⟨sides,expanded,pair,joined,occupied,same⟩
  · exact .inr ⟨keyBits key,leaf,found,by rw [same,bitsKey_keyBits]⟩
  · rw [expandSiblings_proofOf lively,Except.ok.injEq] at expanded
    subst expanded
    obtain ⟨height,path,inside,rfl⟩ := @Trie.joined_siblings _ _ _ _ leaves [] (keyBits key) pair joined
    rw [keyBits_length,List.length_nil,Nat.zero_add] at inside
    refine .inl ⟨height,path,inside,?_,same⟩
    rw [summaryOf_node]
    exact occupied

end Binding

end Hellas.Chain
