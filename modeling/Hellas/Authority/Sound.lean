import Hellas.Authority.Steps

-- What every reachable authority state keeps, and that it therefore restores from its own snapshot.

namespace Hellas.Authority

open Guard Lineage

namespace AuthorityState

section Dead

variable {state : AuthorityState} {id : GrantId} {now : UnixMillis}

theorem dead_false (walked : state.lineage id = .ok members) : state.dead id now = false ↔
    ∀ key ∈ members, ∀ grant, state.grant key = some grant → grant.revoked = false ∧ max now state.now < grant.spec.expires := by
  rw [dead,walked,List.any_eq_false]
  refine forall₂_congr fun key _ => ?_
  cases state.grant key with
  | none => simp
  | some grant => simp

theorem dead_member (walked : state.lineage id = .ok members) (inside : key ∈ members)
    (alive : state.dead id now = false) : state.dead key now = false := by
  obtain ⟨chain,short⟩ := lineage_ok.mp walked
  obtain ⟨tail,found,ends⟩ := chain.member inside
  have walkedToo := lineage_ok.mpr ⟨found,ends.length_le.trans short⟩
  rw [dead_false walkedToo]
  exact fun other listed => (dead_false walked).mp alive other (ends.subset listed)

theorem live_not_dead (live : state.liveLineage id now = .ok members) : state.dead id now = false := by
  obtain ⟨walked,each⟩ := liveLineage_ok.mp live
  rw [dead_false walked]
  intro key inside grant found
  obtain ⟨again,foundAgain,alive⟩ := each key inside
  cases found.symm.trans foundAgain
  exact ⟨alive.standing,alive.unexpired⟩

theorem mem_forgotten : key ∈ state.forgotten now ↔ state.grant key ≠ none ∧ key ≠ state.rootGrant ∧ state.dead key now = true := by
  simp [forgotten,AuthorityState.grant]

end Dead

-- The part of a state that no command checks as a whole and a restart does.
structure Sound (state : AuthorityState) : Prop where
  named : ∀ key grant, state.grant key = some grant → grant.id = key
  specs : ∀ key grant, state.grant key = some grant →
    grant.spec.authority = state.authority ∧ grant.spec.Validate
  revisions : ∀ key grant, state.grant key = some grant →
    0 < grant.revision ∧ grant.revision ≤ state.revision
  lineages : ∀ key, state.grant key ≠ none → ∃ members, state.lineage key = .ok members
  root : ∃ grant, state.grant state.rootGrant = some grant ∧ state.generation ≤ grant.revision ∧
    grant.origin.delegates = false
  generation : 0 < state.generation ∧ state.generation ≤ state.revision
  recovery : match state.lastRecovery with
    | none => state.generation = 1
    | some record => state.Receipt record
  few : state.grants.size ≤ maxGrants
  holders : ∀ key credential, state.credential key = some credential →
    credential.id = key ∧ state.ValidateCredential credential
  held : ∃ key, state.credential key ≠ none
  fewHolders : state.credentials.size ≤ maxCredentials

section Lineages

variable {state after : AuthorityState} {now : UnixMillis}

theorem lineages_of_above (sound : state.Sound) (same : above after.grants = above state.grants) :
    ∀ key, after.grant key ≠ none → ∃ members, after.lineage key = .ok members := by
  intro key present
  have before : state.grant key ≠ none := by
    intro absent
    have nowhere := congrFun same key
    rw [above,above,show state.grants.lookup key = none from absent,Option.map_none,Option.map_eq_none_iff] at nowhere
    exact present nowhere
  obtain ⟨members,walked⟩ := sound.lineages key before
  obtain ⟨chain,short⟩ := lineage_ok.mp walked
  exact ⟨members,lineage_ok.mpr ⟨same ▸ chain,short⟩⟩

theorem above_written {old grant : Grant} (found : state.grant grant.id = some old) (origin : grant.origin = old.origin) :
    above (state.written [] grant now).grants = above state.grants := by
  funext key
  rw [above,above]
  change ((state.written [] grant now).grant key).map _ = (state.grant key).map _
  rw [written_grant]
  split
  · rename_i same
    rw [same,found,Option.map_some,Option.map_some,origin]
  · rw [if_neg (List.not_mem_nil)]

variable {id : GrantId}

-- What stays behind keeps its whole lineage: an ancestor dies with everything under it.
theorem Inserted.kept (inserted : state.Inserted id spec origin now gone after)
    (sound : state.Sound) (stays : key ∉ gone) (walked : state.lineage key = .ok members) :
    ∀ other ∈ members, other ∉ gone := by
  rcases inserted.forgot with ⟨rfl,-⟩ | ⟨rfl,-⟩
  · exact fun other _ => List.not_mem_nil
  · intro other inside lost
    obtain ⟨-,notRoot,dies⟩ := mem_forgotten.mp lost
    obtain ⟨chain,-⟩ := lineage_ok.mp walked
    by_cases root : key = state.rootGrant
    · obtain ⟨grant,found,-,stands⟩ := sound.root
      have alone : Chain (above state.grants) key [key] := by
        refine .alone (above_some.mpr ⟨grant,by rw [root]; exact found,?_⟩)
        cases issued : grant.origin with
        | node issuer => rfl
        | delegated parent =>
          rw [issued] at stands
          cases stands
      rw [chain.unique alone,List.mem_singleton,root] at inside
      exact notRoot inside
    · have present : state.grant key ≠ none := by
        have listed := chain.known chain.self_mem
        intro absent
        exact listed (by rw [above,show state.grants.lookup key = none from absent]; rfl)
      have alive : state.dead key now = false := by
        by_contra dead
        exact stays (mem_forgotten.mpr ⟨present,root,by simpa using dead⟩)
      rw [dead_member walked inside alive] at dies
      cases dies

theorem Inserted.chain (inserted : state.Inserted id spec origin now gone after)
    (sound : state.Sound) (stays : key ∉ gone) (walked : state.lineage key = .ok members) :
    Chain (above after.grants) key members := by
  obtain ⟨chain,-⟩ := lineage_ok.mp walked
  refine chain.congr fun other inside => ?_
  have different : other ≠ id := by
    rintro rfl
    exact chain.known inside (by
      rw [above,show state.grants.lookup other = none from inserted.free]
      rfl)
  rw [above,above]
  change (after.grant other).map _ = (state.grant other).map _
  rw [inserted.written,written_grant,if_neg different,if_neg (inserted.kept sound stays walked other inside)]

theorem Inserted.lineages (inserted : state.Inserted id spec origin now gone after)
    (sound : state.Sound) (under : ∀ parent, origin = .delegated parent →
      ∃ members, state.liveLineage parent now = .ok members ∧ members.length ≤ maxDelegationDepth) :
    ∀ key, after.grant key ≠ none → ∃ members, after.lineage key = .ok members := by
  intro key present
  by_cases new : key = id
  · have found : after.grants.lookup key = some ⟨id,state.revision + 1,spec,origin,false⟩ := by
      change after.grant key = _
      rw [inserted.written,written_grant,if_pos new]
    cases issued : origin with
    | node issuer =>
      refine ⟨[key],lineage_ok.mpr ⟨.alone (above_some.mpr ⟨_,found,?_⟩),by simp⟩⟩
      rw [issued]
      rfl
    | delegated parent =>
      obtain ⟨members,live,shallow⟩ := under parent issued
      have stays : parent ∉ gone := by
        rcases inserted.forgot with ⟨rfl,-⟩ | ⟨rfl,-⟩
        · exact List.not_mem_nil
        · intro lost
          have dies := (mem_forgotten.mp lost).2.2
          rw [live_not_dead live] at dies
          cases dies
      have up := inserted.chain sound stays (liveLineage_ok.mp live).1
      refine ⟨key :: members,lineage_ok.mpr ⟨.under (above_some.mpr ⟨_,found,?_⟩) up,?_⟩⟩
      · rw [issued]
        rfl
      · simpa using shallow
  · rw [inserted.written,written_grant,if_neg new] at present
    split at present
    · exact absurd rfl present
    · rename_i stays
      obtain ⟨members,walked⟩ := sound.lineages key present
      exact ⟨members,lineage_ok.mpr ⟨inserted.chain sound stays walked,(lineage_ok.mp walked).2⟩⟩

end Lineages

section Preserved

variable {state after : AuthorityState} {id : GrantId} {now : UnixMillis} {grant : Grant}

-- A receipt outlives the grants it names: what comes under their ids later is newer.
theorem Receipt.written (receipt : state.Receipt record) (fresh : grant.revision = state.revision + 1) (forward : state.now ≤ now) :
    (state.written gone grant now).Receipt record := by
  obtain ⟨later,same,grown,bound,past,root,few,each⟩ := receipt
  refine ⟨later,same,grown,Nat.le_succ_of_le bound,past.trans forward,root,few,?_⟩
  intro key inside
  rcases each key inside with here | settled
  · exact .inl here
  · refine .inr fun found member => ?_
    rw [written_grant] at member
    split at member
    · cases member
      exact .inr (by rw [fresh]; exact Nat.lt_succ_of_le bound)
    · split at member
      · cases member
      · exact settled found member

theorem Sound.written (sound : state.Sound) (fresh : grant.revision = state.revision + 1)
    (authority : grant.spec.authority = state.authority) (valid : grant.spec.Validate)
    (other : grant.id ≠ state.rootGrant) (kept : state.rootGrant ∉ gone) (forward : state.now ≤ now)
    (lineages : ∀ key, (state.written gone grant now).grant key ≠ none →
      ∃ members, (state.written gone grant now).lineage key = .ok members)
    (few : (state.written gone grant now).grants.size ≤ maxGrants) :
    (state.written gone grant now).Sound where
  named := by
    intro key found held
    rw [written_grant] at held
    split at held
    · rename_i same
      cases held
      exact same.symm
    · split at held
      · cases held
      · exact sound.named key found held
  specs := by
    intro key found held
    rw [written_grant] at held
    split at held
    · cases held
      exact ⟨authority,valid⟩
    · split at held
      · cases held
      · exact sound.specs key found held
  revisions := by
    intro key found held
    change _ ∧ _ ≤ state.revision + 1
    rw [written_grant] at held
    split at held
    · cases held
      rw [fresh]
      exact ⟨Nat.succ_pos _,le_refl _⟩
    · split at held
      · cases held
      · obtain ⟨positive,bound⟩ := sound.revisions key found held
        exact ⟨positive,Nat.le_succ_of_le bound⟩
  lineages := lineages
  root := by
    obtain ⟨root,found,reached,stands⟩ := sound.root
    refine ⟨root,?_,reached,stands⟩
    change (state.written gone grant now).grant state.rootGrant = _
    rw [written_grant,if_neg other.symm,if_neg kept,found]
  generation := ⟨sound.generation.1,Nat.le_succ_of_le sound.generation.2⟩
  recovery := by
    have before := sound.recovery
    change match state.lastRecovery with
      | none => state.generation = 1
      | some record => (state.written gone grant now).Receipt record
    cases recorded : state.lastRecovery with
    | none =>
      rw [recorded] at before
      exact before
    | some record =>
      rw [recorded] at before
      exact Receipt.written before fresh forward
  few := few
  holders := by
    intro key credential held
    obtain ⟨same,authority,generation,valid,admitted,positive,bound⟩ := sound.holders key credential held
    exact ⟨same,authority,generation,valid,admitted,positive,Nat.le_succ_of_le bound⟩
  held := sound.held
  fewHolders := sound.fewHolders

variable {origin : GrantOrigin} {credential : Credential}

theorem Inserted.few (inserted : state.Inserted id spec origin now gone after) : after.grants.size ≤ maxGrants := by
  rw [inserted.written,AuthorityState.written]
  refine Slots.size_insert_le.trans ?_
  rcases inserted.forgot with ⟨rfl,space⟩ | ⟨rfl,space⟩
  · exact space
  · have distinct : (state.forgotten now).Nodup := List.Nodup.filter _ Ranked.sorted_nodup
    rw [Slots.size_eraseAll fun key listed => (mem_forgotten.mp listed).1,
      List.toFinset_card_of_nodup distinct]
    exact space

theorem Inserted.sound (inserted : state.Inserted id spec origin now gone after) (sound : state.Sound)
    (timely : state.Timely spec now) (under : ∀ parent, origin = .delegated parent →
      ∃ members, state.liveLineage parent now = .ok members ∧ members.length ≤ maxDelegationDepth) :
    after.Sound := by
  have lineages := inserted.lineages sound under
  have few := inserted.few
  have other : id ≠ state.rootGrant := by
    rintro rfl
    obtain ⟨root,found,-⟩ := sound.root
    cases found.symm.trans inserted.free
  have kept : state.rootGrant ∉ gone := by
    rcases inserted.forgot with ⟨rfl,-⟩ | ⟨rfl,-⟩
    · exact List.not_mem_nil
    · exact fun lost => (mem_forgotten.mp lost).2.1 rfl
  rw [inserted.written] at lineages few ⊢
  exact sound.written rfl timely.authority timely.valid other kept timely.forward lineages few

theorem Sound.rewritten (sound : state.Sound) {old : Grant} (found : state.grant id = some old)
    (same : grant.id = old.id) (origin : grant.origin = old.origin) (fresh : grant.revision = state.revision + 1)
    (authority : grant.spec.authority = state.authority) (valid : grant.spec.Validate) (other : id ≠ state.rootGrant)
    (forward : state.now ≤ now) :
    (state.written [] grant now).Sound := by
  have here : grant.id = id := same.trans (sound.named id old found)
  refine sound.written fresh authority valid (here ▸ other) List.not_mem_nil forward
    (lineages_of_above sound (above_written (here ▸ found) origin)) ?_
  change Slots.size ((state.grants.eraseAll []).insert grant.id grant) ≤ _
  rw [Slots.eraseAll_nil,Slots.size_insert_present]
  · exact sound.few
  · change state.grant grant.id ≠ none
    rw [here,found]
    exact Option.some_ne_none _

variable [Outside]

theorem apply_sound (sound : state.Sound) (accepted : state.apply actor command now = .ok after) : after.Sound := by
  cases command with
  | issue authorization id spec =>
    obtain ⟨authorizing,gone,issued⟩ := issue_ok accepted
    exact issued.inserted.sound sound issued.timely fun parent delegated => by cases delegated
  | delegate parent id spec =>
    obtain ⟨upper,gone,delegated⟩ := delegate_ok accepted
    refine delegated.inserted.sound sound delegated.timely fun other same => ?_
    cases same
    exact delegated.live
  | revise authorization id expected spec =>
    obtain ⟨authorizing,old,revised⟩ := revise_ok accepted
    rw [revised.written]
    exact sound.rewritten revised.found rfl rfl rfl revised.timely.authority revised.timely.valid revised.other revised.timely.forward
  | revoke authorization id expected =>
    obtain ⟨old,revoked⟩ := revoke_ok accepted
    obtain ⟨authority,valid⟩ := sound.specs id old revoked.found
    rw [revoked.written]
    exact sound.rewritten revoked.found rfl rfl rfl authority valid revoked.other revoked.forward

omit [Outside] in
theorem size_reclaimed : (state.credentials.eraseAll (state.reclaimed now)).size = (state.live now).length := by
  have distinct : (state.reclaimed now).Nodup := List.Nodup.filter _ Ranked.sorted_nodup
  have listed : ∀ key ∈ state.reclaimed now, state.credentials.lookup key ≠ none := by
    intro key member
    exact Slots.mem_listing.mp (List.mem_of_mem_filter member)
  have split := List.length_eq_length_filter_add (l := state.credentials.listing) fun id => (state.credential id).any (state.unusable now)
  have whole : state.credentials.listing.length = state.credentials.size := Ranked.length_sorted
  rw [Slots.size_eraseAll listed,List.toFinset_card_of_nodup distinct,← whole,split,reclaimed,live,Nat.add_sub_cancel_left]

omit [Outside] in
theorem Credentialed.holders {credentials : Slots CredentialId Credential}
    (credentialed : state.Credentialed now credentials after) (sound : state.Sound) :
    ∀ key credential, credentials.lookup key = some credential → credential.id = key ∧
      credential.scope.authority = state.authority ∧ credential.generation = state.generation ∧
      credential.scope.Validate ∧ credential.holder.Admits credential.scope ∧
      credential.revision ≠ 0 ∧ credential.revision ≤ state.revision + 1 := by
  have before : ∀ key credential, state.credential key = some credential → credential.id = key ∧
      credential.scope.authority = state.authority ∧ credential.generation = state.generation ∧
      credential.scope.Validate ∧ credential.holder.Admits credential.scope ∧
      credential.revision ≠ 0 ∧ credential.revision ≤ state.revision + 1 := by
    intro key credential held
    obtain ⟨same,authority,generation,valid,admitted,positive,bound⟩ := sound.holders key credential held
    exact ⟨same,authority,generation,valid,admitted,positive,Nat.le_succ_of_le bound⟩
  intro key credential held
  rcases credentialed.issued with ⟨new,⟨authority,generation,valid,admitted,positive,bound⟩,kept,space,rfl⟩ | ⟨id,old,found,rfl⟩
  · rw [Slots.lookup_insert_if] at held
    split at held
    · rename_i same
      cases held
      exact ⟨same.symm,authority,generation,valid,admitted,positive,Nat.le_succ_of_le bound⟩
    · rcases space with ⟨rfl,-⟩ | ⟨rfl,-⟩
      · exact before key credential held
      · rw [Slots.lookup_eraseAll] at held
        split at held
        · cases held
        · exact before key credential held
  · rw [Slots.lookup_insert_if] at held
    split at held
    · rename_i same
      cases held
      obtain ⟨named,authority,generation,valid,admitted,-,bound⟩ := sound.holders id old found
      exact ⟨named.trans same.symm,authority,generation,valid,admitted,Nat.succ_ne_zero _,Nat.succ_le_succ bound⟩
    · exact before key credential held

theorem applyCredential_sound (sound : state.Sound) (accepted : state.applyCredential actor command now = .ok after) : after.Sound := by
  obtain ⟨credentials,credentialed⟩ := applyCredential_ok accepted
  have holders := credentialed.holders sound
  rw [credentialed.written]
  refine ⟨sound.named,sound.specs,?_,sound.lineages,sound.root,
    ⟨sound.generation.1,Nat.le_succ_of_le sound.generation.2⟩,?_,sound.few,holders,?_,?_⟩
  · intro key grant found
    obtain ⟨positive,bound⟩ := sound.revisions key grant found
    exact ⟨positive,Nat.le_succ_of_le bound⟩
  · have before := sound.recovery
    change match state.lastRecovery with
      | none => state.generation = 1
      | some record => _
    cases recorded : state.lastRecovery with
    | none =>
      rw [recorded] at before
      exact before
    | some record =>
      rw [recorded] at before
      obtain ⟨later,same,grown,bound,past,root,few,each⟩ := before
      exact ⟨later,same,grown,Nat.le_succ_of_le bound,past.trans credentialed.forward,root,few,each⟩
  · rcases credentialed.issued with ⟨new,-,kept,-,rfl⟩ | ⟨id,old,-,rfl⟩
    · exact ⟨new.id,by rw [AuthorityState.credential,Finmap.lookup_insert]; simp⟩
    · exact ⟨id,by rw [AuthorityState.credential,Finmap.lookup_insert]; simp⟩
  · rcases credentialed.issued with ⟨new,-,kept,space,rfl⟩ | ⟨id,old,found,rfl⟩
    · refine Slots.size_insert_le.trans ?_
      rcases space with ⟨rfl,few⟩ | ⟨rfl,few⟩
      · exact few
      · rw [size_reclaimed]
        exact few
    · refine le_of_eq_of_le (Slots.size_insert_present ?_) sound.fewHolders
      rw [show state.credentials.lookup id = some old from found]
      exact Option.some_ne_none _

omit [Outside] in
theorem admits_node (node : credential.bearer = false) : credential.holder.Admits credential.scope := by
  rw [Credential.bearer,decide_eq_false_iff_not] at node
  cases held : credential.holder with
  | node key => trivial
  | bearer => exact absurd held node

theorem Recovered.above (recovered : state.Recovered command now revoked after) (sound : state.Sound) :
    above after.grants = above state.grants := by
  funext key
  rw [Authority.above,Authority.above]
  change (after.grant key).map _ = (state.grant key).map _
  by_cases root : key = state.rootGrant
  · obtain ⟨grant,found,-,stands⟩ := sound.root
    rw [root,recovered.replaced,found,Option.map_some,Option.map_some]
    cases issued : grant.origin with
    | node issuer => rfl
    | delegated parent =>
      rw [issued] at stands
      cases stands
  · rw [recovered.others key root,Option.map_map]
    congr 1
    funext grant
    simp only [Function.comp_apply,retired]
    split <;> rfl

theorem Recovered.sound {command : RecoveryCommand} (recovered : state.Recovered command now revoked after) (sound : state.Sound) :
    after.Sound := by
  have kept : ∀ key grant, key ≠ state.rootGrant → after.grant key = some grant →
      ∃ old, state.grant key = some old ∧ grant = retired revoked (state.revision + 1) old key := by
    intro key grant other found
    rw [recovered.others key other,Option.map_eq_some_iff] at found
    obtain ⟨old,before,same⟩ := found
    exact ⟨old,before,same.symm⟩
  have presentBefore : ∀ key, after.grant key ≠ none → state.grant key ≠ none := by
    intro key present absent
    by_cases root : key = state.rootGrant
    · obtain ⟨grant,found,-⟩ := sound.root
      rw [root,found] at absent
      cases absent
    · rw [recovered.others key root,absent] at present
      exact present rfl
  refine ⟨?_,?_,?_,lineages_of_above sound (recovered.above sound),?_,?_,?_,?_,?_,?_,?_⟩
  · intro key grant found
    by_cases root : key = state.rootGrant
    · rw [root,recovered.replaced] at found
      cases found
      exact root.symm
    · obtain ⟨old,before,rfl⟩ := kept key grant root found
      have same := sound.named key old before
      unfold retired
      split <;> exact same
  · intro key grant found
    rw [recovered.authority]
    by_cases root : key = state.rootGrant
    · rw [root,recovered.replaced] at found
      cases found
      exact ⟨recovered.timely.authority,recovered.timely.valid⟩
    · obtain ⟨old,before,rfl⟩ := kept key grant root found
      have same := sound.specs key old before
      unfold retired
      split <;> exact same
  · intro key grant found
    rw [recovered.revision]
    by_cases root : key = state.rootGrant
    · rw [root,recovered.replaced] at found
      cases found
      exact ⟨Nat.succ_pos _,le_refl _⟩
    · obtain ⟨old,before,rfl⟩ := kept key grant root found
      obtain ⟨positive,bound⟩ := sound.revisions key old before
      unfold retired
      split
      · exact ⟨Nat.succ_pos _,le_refl _⟩
      · exact ⟨positive,Nat.le_succ_of_le bound⟩
  · rw [recovered.rootGrant,recovered.generation]
    exact ⟨_,recovered.replaced,Nat.succ_le_succ sound.generation.2,rfl⟩
  · rw [recovered.generation,recovered.revision]
    exact ⟨Nat.succ_pos _,Nat.succ_le_succ sound.generation.2⟩
  · obtain ⟨previous,recorded⟩ := recovered.receipt
    rw [recorded]
    change after.Receipt _
    have few : revoked.card ≤ maxGrants := by
      refine (Finset.card_le_card fun key inside => ?_).trans sound.few
      exact Slots.mem_keys.mpr (recovered.present key inside)
    unfold Receipt
    rw [recovered.generation,recovered.revision,recovered.clock,recovered.rootGrant]
    refine ⟨Nat.succ_lt_succ sound.generation.1,rfl,Nat.succ_le_succ sound.generation.2,le_refl _,le_refl _,recovered.root,few,?_⟩
    intro key inside
    by_cases root : key = state.rootGrant
    · exact .inl root
    · refine .inr fun grant found => .inl ?_
      obtain ⟨old,before,rfl⟩ := kept key grant root found
      unfold retired
      split
      · rfl
      · rename_i settled
        by_contra standing
        exact settled ⟨inside,by simpa using standing⟩
  · refine (Finset.card_le_card fun key inside => ?_).trans sound.few
    exact Slots.mem_keys.mpr (presentBefore key (Slots.mem_keys.mp inside))
  · obtain ⟨valid,generation,first,node,authority⟩ := recovered.initial
    intro key credential held
    rw [AuthorityState.credential,recovered.credentials] at held
    by_cases same : key = command.credential.id
    · rw [same,Finmap.lookup_singleton_eq] at held
      cases held
      refine ⟨same.symm,?_,?_,valid,admits_node node,by rw [first]; exact one_ne_zero,?_⟩
      · rw [recovered.authority,authority,recovered.timely.authority]
      · rw [recovered.generation,generation]
      · rw [recovered.revision,first]
        exact Nat.succ_le_succ (Nat.zero_le _)
    · rw [Finmap.lookup_eq_none.mpr (by simpa using same)] at held
      cases held
  · refine ⟨command.credential.id,?_⟩
    rw [AuthorityState.credential,recovered.credentials,Finmap.lookup_singleton_eq]
    exact Option.some_ne_none _
  · rw [recovered.credentials,Slots.size,Finmap.keys_singleton,Finset.card_singleton]
    decide

omit [Outside] in
theorem Bootstrapped.sound {admin : GrantSpec} (founded : Bootstrapped id admin credential now state) : state.Sound := by
  obtain ⟨valid,⟨scopeValid,generation,first,node,authority⟩,rfl⟩ := founded
  have only : ∀ key grant, (Finmap.singleton id
      (⟨id,1,admin,.node admin.subject,false⟩ : Grant) : Slots GrantId Grant).lookup key = some grant →
      key = id ∧ grant = ⟨id,1,admin,.node admin.subject,false⟩ := by
    intro key grant found
    by_cases same : key = id
    · rw [same,Finmap.lookup_singleton_eq] at found
      cases found
      exact ⟨same,rfl⟩
    · rw [Finmap.lookup_eq_none.mpr (by simpa using same)] at found
      cases found
  refine ⟨?_,?_,?_,?_,⟨_,Finmap.lookup_singleton_eq,le_refl _,rfl⟩,⟨Nat.one_pos,le_refl _⟩,rfl,?_,?_,⟨credential.id,?_⟩,?_⟩
  · intro key grant found
    obtain ⟨rfl,rfl⟩ := only key grant found
    rfl
  · intro key grant found
    obtain ⟨rfl,rfl⟩ := only key grant found
    exact ⟨rfl,valid⟩
  · intro key grant found
    obtain ⟨rfl,rfl⟩ := only key grant found
    exact ⟨Nat.one_pos,le_refl _⟩
  · intro key present
    obtain ⟨grant,found⟩ := Option.ne_none_iff_exists'.mp present
    obtain ⟨rfl,rfl⟩ := only key grant found
    exact ⟨[key],lineage_ok.mpr ⟨.alone (above_some.mpr ⟨_,found,rfl⟩),by simp⟩⟩
  · rw [Slots.size,Finmap.keys_singleton,Finset.card_singleton]
    decide
  · intro key found held
    rw [AuthorityState.credential] at held
    by_cases same : key = credential.id
    · rw [same,Finmap.lookup_singleton_eq] at held
      cases held
      exact ⟨same.symm,authority,generation,scopeValid,admits_node node,
        by rw [first]; exact one_ne_zero,by rw [first]⟩
    · rw [Finmap.lookup_eq_none.mpr (by simpa using same)] at held
      cases held
  · rw [AuthorityState.credential,Finmap.lookup_singleton_eq]
    exact Option.some_ne_none _
  · rw [Slots.size,Finmap.keys_singleton,Finset.card_singleton]
    decide

theorem step_sound (sound : state.Sound) (accepted : state.step command = .ok after) : after.Sound := by
  cases command with
  | grant actor command now => exact apply_sound sound accepted
  | credential actor command now => exact applyCredential_sound sound accepted
  | recovery command now =>
    obtain ⟨revoked,recovered⟩ := recover_ok accepted
    exact recovered.sound sound

def run (state : AuthorityState) (commands : List Command) : Except AuthorityError AuthorityState := commands.foldlM step state

theorem run_sound (sound : state.Sound) (ran : state.run commands = .ok after) : after.Sound :=
  foldlM_keeps (fun _ => True) Sound (fun _ _ _ _ accepted before => step_sound before accepted) (fun _ _ => trivial) sound ran

end Preserved

section Restore

variable {state : AuthorityState}

theorem restoreGrant_all {authority : AuthorityId} {revision : Revision} {grants : List Grant}
    {slots : Slots GrantId Grant} (fit : ∀ grant ∈ grants, grant.spec.authority = authority ∧ grant.spec.Validate ∧
      grant.revision ≠ 0 ∧ grant.revision ≤ revision) :
    grants.foldlM (restoreGrant authority revision) slots = grants.foldlM (Slots.insertFresh Grant.id .invalid) slots := by
  induction grants generalizing slots with
  | nil => rfl
  | cons grant grants ih =>
    obtain ⟨audience,valid,positive,bound⟩ := fit grant List.mem_cons_self
    have passes : ¬(grant.spec.authority ≠ authority ∨ ¬grant.spec.Validate ∨ grant.revision = 0 ∨ revision < grant.revision) := by
      rintro (other | invalid | zero | above)
      · exact other audience
      · exact invalid valid
      · exact positive zero
      · exact absurd above (not_lt.mpr bound)
    have same : restoreGrant authority revision slots grant = slots.insertFresh Grant.id .invalid grant := by
      rw [restoreGrant,rejectIf,if_neg passes]
      rfl
    rw [List.foldlM_cons,List.foldlM_cons,same]
    congr 1
    funext next
    exact ih fun other listed => fit other (List.mem_cons_of_mem _ listed)

theorem Sound.validateRecovery (sound : state.Sound) : state.validateRecovery = .ok () := by
  obtain ⟨root,found,reached,stands⟩ := sound.root
  have recovery := sound.recovery
  obtain ⟨positive,bound⟩ := sound.generation
  simp only [AuthorityState.validateRecovery,bind_ok,okOr_ok,rejectIf_ok,not_or,not_lt,Bool.not_eq_true]
  refine ⟨root,found,(),⟨Nat.ne_of_gt positive,bound,reached,stands⟩,?_⟩
  cases recorded : state.lastRecovery with
  | none =>
    rw [recorded] at recovery
    simpa using recovery
  | some record =>
    rw [recorded] at recovery
    simpa using recovery

theorem Sound.restores (sound : state.Sound) : restore state.snapshot = .ok state := by
  have grantsNamed : ∀ key grant, state.grants.lookup key = some grant → grant.id = key := sound.named
  have holdersNamed : ∀ key credential, state.credentials.lookup key = some credential →
      credential.id = key := fun key credential held => (sound.holders key credential held).1
  have fit : ∀ grant ∈ state.grants.values, grant.spec.authority = state.authority ∧
      grant.spec.Validate ∧ grant.revision ≠ 0 ∧ grant.revision ≤ state.revision := by
    intro grant listed
    obtain ⟨key,held⟩ := Slots.mem_values.mp listed
    obtain ⟨authority,valid⟩ := sound.specs key grant held
    obtain ⟨positive,bound⟩ := sound.revisions key grant held
    exact ⟨authority,valid,Nat.ne_of_gt positive,bound⟩
  obtain ⟨root,found,-⟩ := sound.root
  obtain ⟨holder,held⟩ := sound.held
  obtain ⟨credential,held⟩ := Option.ne_none_iff_exists'.mp held
  simp only [restore,bind_ok,rejectIf_ok,not_or,not_lt,pure_ok,forM_ok,validateCredential,not_not]
  refine ⟨(),⟨?_,?_⟩,(),⟨?_,?_⟩,state.credentials,Slots.insertFresh_values holdersNamed,state.grants,?_,(),
    sound.validateRecovery,(),?_,(),?_,rfl⟩
  · exact List.ne_nil_of_mem (Slots.mem_values.mpr ⟨_,found⟩)
  · exact le_of_eq_of_le Slots.length_values sound.few
  · exact List.ne_nil_of_mem (Slots.mem_values.mpr ⟨_,held⟩)
  · exact le_of_eq_of_le Slots.length_values sound.fewHolders
  · exact (restoreGrant_all fit).trans (Slots.insertFresh_values grantsNamed)
  · intro credential listed
    obtain ⟨key,held⟩ := Slots.mem_values.mp listed
    exact (sound.holders key credential held).2
  · intro key listed
    obtain ⟨members,walked⟩ := sound.lineages key (Slots.mem_listing.mp listed)
    exact ⟨members,walked,trivial⟩

-- A node that kept its state can always start again from it.
theorem snapshot_restores [Outside] {id : GrantId} {machine : Option Digest} {admin : GrantSpec}
    {credential : Credential} {owner : Outside.Assertion} {now : UnixMillis} {start : AuthorityState}
    (founded : bootstrap id machine admin credential owner now = .ok start) {commands : List Command}
    (ran : start.run commands = .ok state) : restore state.snapshot = .ok state :=
  (run_sound (bootstrap_ok founded).sound ran).restores

-- A change of ownership leaves no earlier credential behind, and no change leaves none at all.
theorem credentials_current [Outside] {id : GrantId} {machine : Option Digest} {admin : GrantSpec} {credential : Credential}
    {owner : Outside.Assertion} {now : UnixMillis} {start : AuthorityState}
    (founded : bootstrap id machine admin credential owner now = .ok start) {commands : List Command}
    (ran : start.run commands = .ok state) : (∃ key, state.credential key ≠ none) ∧
      ∀ key holder, state.credential key = some holder → holder.id = key ∧ state.ValidateCredential holder := by
  have sound := run_sound (bootstrap_ok founded).sound ran
  exact ⟨sound.held,sound.holders⟩

end Restore

end AuthorityState

namespace Sample

open AuthorityState

@[reducible] def outside : Outside where
  hash _ := ⟨List.replicate 32 3,List.length_replicate⟩
  Assertion := Unit
  verifies _ _ _ := true

def principal (byte : UInt8) : PrincipalId := ⟨⟨List.replicate 33 byte,List.length_replicate⟩⟩

def grantId (byte : UInt8) : GrantId := ⟨⟨List.replicate 16 byte,List.length_replicate⟩⟩

def authority : AuthorityId := ⟨⟨List.replicate 32 1,List.length_replicate⟩⟩

def issueOperation : OperationId := ⟨"grant.issue",by decide +kernel⟩
def revokeOperation : OperationId := ⟨"grant.revoke",by decide +kernel⟩
def administerOperation : OperationId := ⟨"grant.administer",by decide +kernel⟩
def credentialOperation : OperationId := ⟨"credential.issue",by decide +kernel⟩
def withdrawOperation : OperationId := ⟨"credential.revoke",by decide +kernel⟩
def invokeOperation : OperationId := ⟨"gateway.invoke",by decide +kernel⟩

def resource : ResourceId := ⟨⟨List.replicate 32 3,List.length_replicate⟩⟩

def permission (operation : OperationId) : Permission := ⟨operation,resource⟩

def admin (subject : PrincipalId) : GrantSpec where
  authority := authority
  subject := subject
  permissions := {permission issueOperation, permission revokeOperation,
    permission administerOperation, permission credentialOperation, permission withdrawOperation}
  notBefore := 5
  expires := 1000
  delegationDepth := 2
  issuance := some ⟨{issueOperation, revokeOperation, administerOperation, credentialOperation,
    withdrawOperation, invokeOperation},.authority,1000,3⟩

def device (byte : UInt8) (subject : PrincipalId) (generation : Nat) : Credential where
  id := ⟨⟨List.replicate 16 byte,List.length_replicate⟩⟩
  scope := admin subject
  holder := .node ⟨⟨List.replicate 33 9,List.length_replicate⟩⟩
  generation := generation
  revision := 1
  verifier := ⟨List.replicate 32 3,List.length_replicate⟩
  revoked := false

def user (subject : PrincipalId) : GrantSpec where
  authority := authority
  subject := subject
  permissions := {permission invokeOperation}
  notBefore := 5
  expires := 500
  delegationDepth := 1
  issuance := none

def founding : Except AuthorityError AuthorityState :=
  letI := outside
  bootstrap (grantId 0) none (admin (principal 1)) (device 1 (principal 1) 1) () 10

def commands : List (@Command outside) :=
  letI := outside
  [.grant (principal 1) (.issue (grantId 0) (grantId 1) (user (principal 2))) 20,
    .grant (principal 2) (.delegate (grantId 1) (grantId 2) { user (principal 3) with delegationDepth := 0 }) 20,
    .credential (principal 1) (.issue (grantId 0) (device 2 (principal 1) 1)) 25,
    .recovery ⟨device 3 (principal 4) 2,4,admin (principal 4),{grantId 1},()⟩ 30]

theorem exists_ok {run : Except AuthorityError α} (accepted : run.isOk = true) : ∃ value, run = .ok value := by
  cases run with
  | error failed => cases accepted
  | ok value => exact ⟨value,rfl⟩

theorem snapshot_restores_recovered : letI := outside
    ∃ start state, founding = .ok start ∧ start.run commands = .ok state ∧
      restore state.snapshot = .ok state := by
  let := outside
  obtain ⟨state,ran⟩ := @exists_ok _ (founding >>= fun start => start.run commands) (by decide +kernel)
  obtain ⟨start,founded,ran⟩ := bind_ok.mp ran
  exact ⟨start,state,founded,ran,snapshot_restores founded ran⟩

-- The devices of the first owner are gone, and the one the recovery brought is of its generation.
theorem credentials_current_recovered : letI := outside
    ∃ state holder, (founding >>= fun start => start.run commands) = .ok state ∧ state.generation = 2 ∧
      state.credential (device 1 (principal 1) 1).id = none ∧ state.credential (device 2 (principal 1) 1).id = none ∧
      state.credential (device 3 (principal 4) 2).id = some holder ∧ state.ValidateCredential holder := by
  let := outside
  have facts : ((founding >>= fun start => start.run commands).toOption.any fun state => state.generation = 2 ∧
      state.credential (device 1 (principal 1) 1).id = none ∧ state.credential (device 2 (principal 1) 1).id = none ∧
      (state.credential (device 3 (principal 4) 2).id).isSome) = true := by
    decide +kernel
  cases reached : founding >>= fun start => start.run commands with
  | error failure =>
    rw [reached] at facts
    cases facts
  | ok state =>
    rw [reached] at facts
    obtain ⟨generation,first,second,third⟩ := of_decide_eq_true facts
    obtain ⟨holder,found⟩ := Option.isSome_iff_exists.mp third
    obtain ⟨start,founded,ran⟩ := bind_ok.mp reached
    exact ⟨state,holder,rfl,generation,first,second,found,((credentials_current founded ran).2 _ holder found).2⟩

end Sample

end Hellas.Authority
