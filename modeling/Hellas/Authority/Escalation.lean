import Hellas.Authority.Permanence

-- What principals acting together can never gain, and what one acting alone can never prolong.

namespace Hellas.Authority

open Guard Lineage

def Command.actor [Outside] : Command → Option PrincipalId
  | .grant actor _ _ => some actor
  | .credential actor _ _ => some actor
  | .recovery _ _ => none

namespace AuthorityState

section Coalition

variable {start state after : AuthorityState} {members : List GrantId}
  {coalition : Set PrincipalId} {actor : PrincipalId} {spec : GrantSpec} {now : UnixMillis}

def Base (start : AuthorityState) (coalition : Set PrincipalId) (grant : Grant) : Prop :=
  ∃ key, start.grant key = some grant ∧ grant.spec.subject ∈ coalition ∧ start.dead key start.now = false

def Reach (start : AuthorityState) (coalition : Set PrincipalId) (permission : Permission) : Prop :=
  ∃ grant, start.Base coalition grant ∧ (permission ∈ grant.spec.permissions ∨ ∃ ceiling ∈ grant.spec.issuance, ceiling.Allows permission)

structure Confined (start : AuthorityState) (coalition : Set PrincipalId) (spec : GrantSpec) :
    Prop where
  permissions : ∀ permission ∈ spec.permissions, start.Reach coalition permission
  ceiling : ∀ ceiling ∈ spec.issuance, ∃ grant, start.Base coalition grant ∧
    ∃ outer ∈ grant.spec.issuance, ceiling.Subset outer

variable {grant : Grant} {target : GrantSpec}

theorem Base.confined (base : start.Base coalition grant) : start.Confined coalition grant.spec :=
  ⟨fun _ inside => ⟨grant,base,.inl inside⟩,
    fun ceiling inside => ⟨grant,base,ceiling,inside,IssuanceCeiling.subset_refl⟩⟩

theorem Confined.within {inner : GrantSpec} (confined : start.Confined coalition spec)
    (within : inner.Within spec) : start.Confined coalition inner := by
  refine ⟨fun permission inside => confined.permissions permission (within.permissions inside),?_⟩
  intro ceiling inside
  obtain ⟨upper,above,below⟩ := within.ceiling ceiling inside
  obtain ⟨grant,base,outer,top,further⟩ := confined.ceiling upper above
  exact ⟨grant,base,outer,top,below.trans further⟩

theorem Confined.covers (confined : start.Confined coalition spec) {ceiling : IssuanceCeiling}
    (inside : ceiling ∈ spec.issuance) (covers : ceiling.CoversScope target) :
    start.Confined coalition target := by
  obtain ⟨grant,base,outer,top,further⟩ := confined.ceiling ceiling inside
  refine ⟨fun permission listed => ⟨grant,base,.inr ⟨outer,top,?_⟩⟩,?_⟩
  · exact further.allows (covers.1 permission listed)
  · exact fun inner below => ⟨grant,base,outer,top,(covers.2 inner below).trans further⟩

-- Every grant is confined, revoked, or exactly as it was at the start.
structure Contained (start : AuthorityState) (coalition : Set PrincipalId) (state : AuthorityState) :
    Prop where
  later : start.now ≤ state.now
  each : ∀ key grant, state.grant key = some grant →
    start.Confined coalition grant.spec ∨ grant.revoked = true ∨ start.grant key = some grant

theorem Contained.live (contained : start.Contained coalition state) {id : GrantId}
    (live : state.liveLineage id now = .ok members) (found : state.grant id = some grant)
    (member : grant.spec.subject ∈ coalition) :
    start.Confined coalition grant.spec := by
  obtain ⟨walked,each⟩ := liveLineage_ok.mp live
  obtain ⟨chain,short⟩ := lineage_ok.mp walked
  by_cases touched : ∃ key ∈ members, ∃ upper, state.grant key = some upper ∧ start.Confined coalition upper.spec
  · obtain ⟨key,inside,upper,held,confined⟩ := touched
    exact confined.within (liveLineage_within live found inside held)
  · have same : ∀ key ∈ members, ∃ upper, state.grant key = some upper ∧
        start.grant key = some upper ∧ state.Live (max now state.now) upper := by
      intro key inside
      obtain ⟨upper,held,alive⟩ := each key inside
      rcases contained.each key upper held with confined | revoked | before
      · exact absurd ⟨key,inside,upper,held,confined⟩ touched
      · rw [alive.standing] at revoked
        cases revoked
      · exact ⟨upper,held,before,alive⟩
    have chainBefore : Chain (above start.grants) id members := by
      refine chain.congr fun key inside => ?_
      obtain ⟨upper,held,before,-⟩ := same key inside
      rw [above,above,show start.grants.lookup key = some upper from before,show state.grants.lookup key = some upper from held]
    obtain ⟨own,held,before,-⟩ := same id chain.self_mem
    cases found.symm.trans held
    refine Base.confined ⟨id,before,member,?_⟩
    rw [dead_false (lineage_ok.mpr ⟨chainBefore,short⟩)]
    intro key inside upper foundBefore
    obtain ⟨again,-,beforeAgain,alive⟩ := same key inside
    cases foundBefore.symm.trans beforeAgain
    refine ⟨alive.standing,lt_of_le_of_lt ?_ alive.unexpired⟩
    rw [max_self]
    exact contained.later.trans (le_max_right _ _)

theorem Contained.written {gone : List GrantId} {new : Grant} (contained : start.Contained coalition state) (forward : state.now ≤ now)
    (fits : start.Confined coalition new.spec ∨ new.revoked = true) : start.Contained coalition (state.written gone new now) := by
  refine ⟨contained.later.trans forward,?_⟩
  intro key grant found
  rw [written_grant] at found
  split at found
  · cases found
    exact fits.imp_right .inl
  · split at found
    · cases found
    · exact contained.each key grant found

variable [Outside]

theorem Authorizes.confined {issuance : Bool} (authorizes : state.Authorizes actor authorization operation target now issuance grant)
    (contained : start.Contained coalition state) (member : actor ∈ coalition) :
    start.Confined coalition target := by
  obtain ⟨members,live⟩ := authorizes.live
  have own := contained.live live authorizes.found (by rw [authorizes.subject]; exact member)
  obtain ⟨ceiling,inside,covers,-⟩ := authorizes.ceiling
  exact own.covers inside covers

theorem apply_contained (contained : start.Contained coalition state) (member : actor ∈ coalition)
    (accepted : state.apply actor command now = .ok after) :
    start.Contained coalition after := by
  cases command with
  | issue authorization id spec =>
    obtain ⟨authorizing,gone,issued⟩ := issue_ok accepted
    obtain ⟨authorization,authorizes⟩ := issued.authorized
    rw [issued.inserted.written]
    exact contained.written issued.timely.forward (.inl (authorizes.confined contained member))
  | delegate parent id spec =>
    obtain ⟨upper,gone,delegated⟩ := delegate_ok accepted
    obtain ⟨members,live,-⟩ := delegated.live
    have own := contained.live live delegated.found (by rw [delegated.subject]; exact member)
    rw [delegated.inserted.written]
    exact contained.written delegated.timely.forward (.inl (own.within delegated.narrows.within))
  | revise authorization id expected spec =>
    obtain ⟨authorizing,old,revised⟩ := revise_ok accepted
    obtain ⟨authorization,authorizes⟩ := revised.authorized
    rw [revised.written]
    exact contained.written revised.timely.forward (.inl (authorizes.confined contained member))
  | revoke authorization id expected =>
    obtain ⟨old,revoked⟩ := revoke_ok accepted
    rw [revoked.written]
    exact contained.written revoked.forward (.inr rfl)

theorem run_contained {commands : List Command} (contained : start.Contained coalition state)
    (actors : ∀ command ∈ commands, ∃ actor ∈ coalition, command.actor = some actor)
    (ran : state.run commands = .ok after) : start.Contained coalition after := by
  refine foldlM_keeps _ (start.Contained coalition) (fun state command middle allowed first contained => ?_) actors contained ran
  obtain ⟨actor,member,named⟩ := allowed
  cases command with
  | grant own command now =>
    cases named
    exact apply_contained contained member first
  | credential own command now =>
    obtain ⟨credentials,credentialed⟩ := applyCredential_ok first
    rw [credentialed.written]
    exact ⟨contained.later.trans credentialed.forward,contained.each⟩
  | recovery command now => cases named

-- Whatever its members issue, delegate, revise or revoke among themselves, a coalition keeps to
-- what its living grants held or could issue when it started.
theorem coalition_confined (coalition : Set PrincipalId) {commands : List Command}
    (actors : ∀ command ∈ commands, ∃ actor ∈ coalition, command.actor = some actor)
    (ran : start.run commands = .ok state) :
    (∀ actor ∈ coalition, ∀ id permission time evidence, state.now ≤ time →
      state.authorize actor id permission time = .ok evidence → start.Reach coalition permission) ∧
    (∀ id grant members time, state.now ≤ time → state.liveLineage id time = .ok members →
      state.grant id = some grant → grant.spec.subject ∈ coalition →
      ∀ ceiling ∈ grant.spec.issuance, ∃ base, start.Base coalition base ∧
        ∃ outer ∈ base.spec.issuance, ceiling.Subset outer) ∧
    ((∀ base, start.Base coalition base → base.spec.issuance = none) →
      ∀ actor ∈ coalition, ∀ id permission time evidence, state.now ≤ time →
        state.authorize actor id permission time = .ok evidence →
        ∃ base, start.Base coalition base ∧ permission ∈ base.spec.permissions) := by
  have contained : start.Contained coalition state :=
    run_contained ⟨le_refl _,fun key grant found => .inr (.inr found)⟩ actors ran
  have reaches : ∀ actor ∈ coalition, ∀ id permission time evidence,
      state.authorize actor id permission time = .ok evidence → start.Reach coalition permission := by
    intro actor member id permission time evidence accepted
    obtain ⟨members,grant,live,found,subject,permitted,-⟩ := authorize_ok accepted
    exact (contained.live live found (by rw [subject]; exact member)).permissions permission permitted
  refine ⟨fun actor member id permission time evidence _ => reaches actor member id permission time
    evidence,?_,?_⟩
  · intro id grant members time _ live found member
    exact (contained.live live found member).ceiling
  · intro plain actor member id permission time evidence _ accepted
    obtain ⟨base,living,held | ⟨ceiling,inside,-⟩⟩ :=
      reaches actor member id permission time evidence accepted
    · exact ⟨base,living,held⟩
    · rw [plain base living] at inside
      cases inside

end Coalition

section Alone

variable {start state after : AuthorityState} {actor : PrincipalId} {spec : GrantSpec}
  {now : UnixMillis} {key : GrantId} {grant : Grant}

def Outlasted (start : AuthorityState) (actor : PrincipalId) (expires : UnixMillis) : Prop :=
  ∃ key first, start.grant key = some first ∧ first.spec.subject = actor ∧ expires ≤ first.spec.expires

-- The grant is an administrative grant the principal started with, or stands under one and within it.
structure Descends (start : AuthorityState) (actor : PrincipalId) (state : AuthorityState)
    (key : GrantId) (spec : GrantSpec) (origin : GrantId) (first still : Grant) : Prop where
  begun : start.grant origin = some first
  subject : first.spec.subject = actor
  administers : first.spec.Administrative
  kept : state.grant origin = some still
  same : still.spec = first.spec ∧ still.origin = first.origin
  under : ∃ members, state.lineage key = .ok members ∧ origin ∈ members
  within : spec.Within first.spec
  itself : origin = key → spec = first.spec

structure Curbed (start : AuthorityState) (actor : PrincipalId) (state : AuthorityState) : Prop where
  lasting : ∀ key grant, state.grant key = some grant → grant.spec.subject = actor →
    start.Outlasted actor grant.spec.expires
  ruling : ∀ key grant, state.grant key = some grant → grant.spec.subject = actor →
    grant.spec.Administrative →
    ∃ origin first still, start.Descends actor state key grant.spec origin first still

theorem Descends.administrative (descends : start.Descends actor state key spec origin first still) :
    still.spec.subject = actor ∧ still.spec.Administrative := by
  rw [descends.same.1]
  exact ⟨descends.subject,descends.administers⟩

theorem Descends.inserted {origin id : GrantId} {first still : Grant} {new : GrantSpec} {placed : GrantOrigin}
    {gone : List GrantId} (descends : start.Descends actor state key spec origin first still) (sound : state.Sound)
    (inserted : state.Inserted id new placed now gone after) (stays : key ∉ gone) :
    start.Descends actor after key spec origin first still := by
  obtain ⟨members,walked,inside⟩ := descends.under
  have differs : origin ≠ id := by
    rintro rfl
    cases descends.kept.symm.trans inserted.free
  refine { descends with kept := ?_, under := ⟨members,?_,inside⟩ }
  · rw [inserted.written,written_grant,if_neg differs,
      if_neg (inserted.kept sound stays walked origin inside),descends.kept]
  · exact lineage_ok.mpr ⟨inserted.chain sound stays walked,(lineage_ok.mp walked).2⟩

theorem Curbed.inserted {id : GrantId} {placed : GrantOrigin} {gone : List GrantId} (curbed : start.Curbed actor state)
    (sound : state.Sound) (inserted : state.Inserted id spec placed now gone after)
    (lasting : spec.subject = actor → start.Outlasted actor spec.expires)
    (ruling : spec.subject = actor → spec.Administrative → ∃ origin first still, start.Descends actor after id spec origin first still) :
    start.Curbed actor after := by
  have cases : ∀ key grant, after.grant key = some grant → key = id ∧ grant.spec = spec ∨ key ∉ gone ∧ state.grant key = some grant := by
    intro key grant found
    rw [inserted.written,written_grant] at found
    split at found
    · rename_i same
      cases found
      exact .inl ⟨same,rfl⟩
    · split at found
      · cases found
      · rename_i stays
        exact .inr ⟨stays,found⟩
  constructor
  · intro key grant found own
    rcases cases key grant found with ⟨-,same⟩ | ⟨-,before⟩
    · rw [same] at own ⊢
      exact lasting own
    · exact curbed.lasting key grant before own
  · intro key grant found own administers
    rcases cases key grant found with ⟨here,same⟩ | ⟨stays,before⟩
    · rw [same] at own administers ⊢
      rw [here]
      exact ruling own administers
    · obtain ⟨origin,first,still,descends⟩ := curbed.ruling key grant before own administers
      exact ⟨origin,first,still,descends.inserted sound inserted stays⟩

theorem Curbed.rewritten {id : GrantId} {old new : Grant} (curbed : start.Curbed actor state) (sound : state.Sound)
    (found : state.grant id = some old) (same : new.id = old.id) (placed : new.origin = old.origin)
    (lasting : new.spec.subject = actor → start.Outlasted actor new.spec.expires)
    (ruling : new.spec.subject = actor → new.spec.Administrative → new.spec = old.spec)
    (own : old.spec.subject = actor → old.spec.Administrative → new.spec = old.spec) :
    start.Curbed actor (state.written [] new now) := by
  have here : new.id = id := same.trans (sound.named id old found)
  have lineages := @above_written state now old new (by rw [here]; exact found) placed
  have walks : ∀ {key members}, state.lineage key = .ok members → (state.written [] new now).lineage key = .ok members := by
    intro key members walked
    obtain ⟨chain,short⟩ := lineage_ok.mp walked
    exact lineage_ok.mpr ⟨by rw [lineages]; exact chain,short⟩
  have moves : ∀ {key spec origin first still}, start.Descends actor state key spec origin first still →
      ∃ still, start.Descends actor (state.written [] new now) key spec origin first still := by
    intro key spec origin first still descends
    obtain ⟨members,walked,inside⟩ := descends.under
    by_cases touched : origin = id
    · have held := descends.kept
      rw [touched,found] at held
      cases held
      obtain ⟨subject,administers⟩ := descends.administrative
      refine ⟨new,{ descends with
        kept := ?_
        same := ⟨(own subject administers).trans descends.same.1,placed.trans descends.same.2⟩
        under := ⟨members,walks walked,inside⟩ }⟩
      rw [written_grant,if_pos (touched.trans here.symm)]
    · refine ⟨still,{ descends with kept := ?_, under := ⟨members,walks walked,inside⟩ }⟩
      rw [written_grant,if_neg (by rw [here]; exact touched),if_neg List.not_mem_nil,descends.kept]
  constructor
  · intro key grant held subject
    rw [written_grant] at held
    split at held
    · cases held
      exact lasting subject
    · rw [if_neg List.not_mem_nil] at held
      exact curbed.lasting key grant held subject
  · intro key grant held subject administers
    rw [written_grant] at held
    split at held
    · rename_i place
      cases held
      have unchanged := ruling subject administers
      rw [unchanged] at subject administers ⊢
      obtain ⟨origin,first,still,descends⟩ := curbed.ruling id old found subject administers
      rw [place,here]
      obtain ⟨still,moved⟩ := moves descends
      exact ⟨origin,first,still,moved⟩
    · rw [if_neg List.not_mem_nil] at held
      obtain ⟨origin,first,still,descends⟩ := curbed.ruling key grant held subject administers
      obtain ⟨still,moved⟩ := moves descends
      exact ⟨origin,first,still,moved⟩

theorem curbed_start (sound : start.Sound) : start.Curbed actor start where
  lasting key grant found own := ⟨key,grant,found,own,le_refl _⟩
  ruling key grant found own administers := by
    obtain ⟨members,walked⟩ := sound.lineages key (by rw [found]; simp)
    exact ⟨key,grant,grant,found,own,administers,found,⟨rfl,rfl⟩,
      ⟨members,walked,(lineage_ok.mp walked).1.self_mem⟩,GrantSpec.within_refl,fun _ => rfl⟩

variable [Outside]

theorem Authorizes.outlasted {authorization : GrantId} {operation : String} {target : GrantSpec} (curbed : start.Curbed actor state)
    (authorizes : state.Authorizes actor authorization operation target now issuance grant)
    (short : expires ≤ grant.spec.expires) : start.Outlasted actor expires := by
  obtain ⟨key,first,begun,subject,lasts⟩ := curbed.lasting authorization grant authorizes.found authorizes.subject
  exact ⟨key,first,begun,subject,short.trans lasts⟩

omit [Outside] in
theorem Delegated.descends {parent id : GrantId} {upper : Grant} {gone : List GrantId}
    (delegated : state.Delegated actor parent id spec now upper gone after) (sound : state.Sound)
    (curbed : start.Curbed actor state) (administers : spec.Administrative) :
    ∃ origin first still, start.Descends actor after id spec origin first still := by
  have inserted := delegated.inserted
  obtain ⟨above,live,shallow⟩ := delegated.live
  have rules := delegated.narrows.within.administrative administers
  obtain ⟨origin,first,still,descends⟩ := curbed.ruling parent upper delegated.found delegated.subject rules
  have stays : parent ∉ gone := by
    rcases inserted.forgot with ⟨rfl,-⟩ | ⟨rfl,-⟩
    · exact List.not_mem_nil
    · intro lost
      have dies := (mem_forgotten.mp lost).2.2
      rw [live_not_dead live] at dies
      cases dies
  have moved := descends.inserted sound inserted stays
  obtain ⟨members,walked,inside⟩ := moved.under
  have found : after.grants.lookup id = some ⟨id,state.revision + 1,spec,.delegated parent,false⟩ := by
    change after.grant id = _
    rw [inserted.written,written_grant,if_pos rfl]
  have differs : origin ≠ id := by
    rintro rfl
    cases descends.kept.symm.trans inserted.free
  refine ⟨origin,first,still,{ moved with
    under := ⟨id :: members,lineage_ok.mpr ⟨?_,?_⟩,List.mem_cons_of_mem _ inside⟩
    within := delegated.narrows.within.trans descends.within
    itself := fun same => absurd same differs }⟩
  · exact .under (above_some.mpr ⟨_,found,rfl⟩) (lineage_ok.mp walked).1
  · have same := (lineage_ok.mp walked).1.unique
      (inserted.chain sound stays (liveLineage_ok.mp live).1)
    rw [same]
    exact Nat.succ_le_succ shallow

theorem apply_curbed (curbed : start.Curbed actor state) (sound : state.Sound) (accepted : state.apply actor command now = .ok after) :
    start.Curbed actor after := by
  cases command with
  | issue authorization id spec =>
    obtain ⟨authorizing,gone,issued⟩ := issue_ok accepted
    obtain ⟨authorization,authorizes⟩ := issued.authorized
    refine curbed.inserted sound issued.inserted (fun own => ?_) fun own administers => ?_
    · exact authorizes.outlasted curbed (issued.self own).2
    · exact absurd administers (issued.self own).1
  | delegate parent id spec =>
    obtain ⟨upper,gone,delegated⟩ := delegate_ok accepted
    refine curbed.inserted sound delegated.inserted (fun _ => ?_) fun _ administers => ?_
    · obtain ⟨key,first,begun,subject,lasts⟩ :=
        curbed.lasting parent upper delegated.found delegated.subject
      exact ⟨key,first,begun,subject,delegated.narrows.within.expires.trans lasts⟩
    · exact delegated.descends sound curbed administers
  | revise authorization id expected spec =>
    obtain ⟨authorizing,old,revised⟩ := revise_ok accepted
    obtain ⟨authorization,authorizes⟩ := revised.authorized
    rw [revised.written]
    refine curbed.rewritten sound revised.found rfl rfl (fun own => ?_) (fun own administers => ?_)
      fun own administers => ?_
    · exact authorizes.outlasted curbed (revised.self own).2
    · exact absurd administers (revised.self own).1
    · exact absurd administers (revised.own own)
  | revoke authorization id expected =>
    obtain ⟨old,revoked⟩ := revoke_ok accepted
    rw [revoked.written]
    exact curbed.rewritten sound revoked.found rfl rfl (fun own => curbed.lasting id old revoked.found own) (fun _ _ => rfl) fun _ _ => rfl

theorem run_curbed (curbed : start.Curbed actor state) (sound : state.Sound) (alone : ∀ command ∈ commands, command.actor = some actor)
    (ran : state.run commands = .ok after) : start.Curbed actor after := by
  refine (foldlM_keeps _ (fun state => start.Curbed actor state ∧ state.Sound)
    (fun state command middle named first held => ⟨?_,step_sound held.2 first⟩) alone ⟨curbed,sound⟩ ran).1
  obtain ⟨curbed,sound⟩ := held
  cases command with
  | grant own command now =>
    cases named
    exact apply_curbed curbed sound first
  | credential own command now =>
    obtain ⟨credentials,credentialed⟩ := applyCredential_ok first
    rw [credentialed.written]
    refine ⟨curbed.lasting,fun key grant found own administers => ?_⟩
    obtain ⟨origin,first,still,descends⟩ := curbed.ruling key grant found own administers
    exact ⟨origin,first,still,{ descends with kept := descends.kept, under := descends.under }⟩
  | recovery command now => cases named

-- A principal on its own neither outlives its grants nor makes itself an administrator again.
theorem alone_never_prolonged {id : GrantId} {machine : Option Digest} {admin : GrantSpec} {credential : Credential}
    {owner : Outside.Assertion} {instant : UnixMillis} {origin : AuthorityState}
    (founded : bootstrap id machine admin credential owner instant = .ok origin) {before : List Command}
    (reached : origin.run before = .ok start) (actor : PrincipalId) {commands : List Command}
    (alone : ∀ command ∈ commands, command.actor = some actor) (ran : start.run commands = .ok state) :
    (∀ key grant, state.grant key = some grant → grant.spec.subject = actor →
      ∃ other first, start.grant other = some first ∧ first.spec.subject = actor ∧
        grant.spec.expires ≤ first.spec.expires) ∧
    ∀ key grant, state.grant key = some grant → grant.spec.subject = actor → grant.spec.Administrative →
      ∃ other first still, start.Descends actor state key grant.spec other first still := by
  have sound : start.Sound := run_sound (bootstrap_ok founded).sound reached
  have curbed := run_curbed (curbed_start sound) sound alone ran
  exact ⟨curbed.lasting,curbed.ruling⟩

end Alone

end AuthorityState

namespace Sample

open AuthorityState

theorem coalition_confined_pair : letI := outside
    ∃ start state, founding = .ok start ∧ start.run (commands.take 3) = .ok state ∧
      (state.authorize (principal 2) (grantId 1) (permission invokeOperation) 30).isOk = true ∧
      start.Reach {principal 1, principal 2} (permission invokeOperation) := by
  let := outside
  obtain ⟨evidence,accepted⟩ := @exists_ok _ (founding >>= fun start =>
    start.run (commands.take 3) >>= fun state =>
      rejectIf (30 < state.now) .clock >>= fun _ =>
      state.authorize (principal 2) (grantId 1) (permission invokeOperation) 30) (by decide +kernel)
  simp only [bind_ok,rejectIf_ok,not_lt] at accepted
  obtain ⟨start,founded,state,ran,-,late,authorized⟩ := accepted
  have actors : ∀ command ∈ commands.take 3, ∃ actor ∈ ({principal 1, principal 2} : Set PrincipalId),
      command.actor = some actor := by
    intro command listed
    simp only [commands,List.take_succ_cons,List.take_zero,List.mem_cons,List.not_mem_nil,
      or_false] at listed
    rcases listed with rfl | rfl | rfl
    · exact ⟨principal 1,.inl rfl,rfl⟩
    · exact ⟨principal 2,.inr rfl,rfl⟩
    · exact ⟨principal 1,.inl rfl,rfl⟩
  have confined := coalition_confined {principal 1, principal 2} actors ran
  exact ⟨start,state,founded,ran,by rw [authorized]; rfl,
    confined.1 (principal 2) (.inr rfl) _ _ 30 evidence late authorized⟩

def selfDelegation : List (@Command outside) :=
  letI := outside
  [.grant (principal 1) (.delegate (grantId 0) (grantId 5) { admin (principal 1) with delegationDepth := 1, expires := 900 }) 20]

theorem alone_never_prolonged_delegated : letI := outside
    ∃ start state grant other first still, founding = .ok start ∧
      start.run selfDelegation = .ok state ∧ state.grant (grantId 5) = some grant ∧
      grant.spec.Administrative ∧ grant.spec.expires ≤ 1000 ∧
      start.Descends (principal 1) state (grantId 5) grant.spec other first still := by
  let := outside
  obtain ⟨grant,accepted⟩ := @exists_ok _ (founding >>= fun start =>
    start.run selfDelegation >>= fun state => okOr (state.grant (grantId 5)) .missing >>= fun grant =>
      rejectIf (¬(grant.spec.subject = principal 1 ∧ grant.spec.Administrative ∧
        grant.spec.expires ≤ 1000)) .denied >>= fun _ => pure grant) (by decide +kernel)
  simp only [bind_ok,okOr_ok,rejectIf_ok,not_not,pure_ok] at accepted
  obtain ⟨start,founded,state,ran,same,found,-,⟨own,administers,short⟩,rfl⟩ := accepted
  have alone : ∀ command ∈ selfDelegation, command.actor = some (principal 1) := by
    intro command listed
    rw [selfDelegation,List.mem_singleton] at listed
    rw [listed]
    rfl
  obtain ⟨other,first,still,descends⟩ := (alone_never_prolonged founded
    (show start.run [] = _ from rfl) (principal 1) alone ran).2 _ _ found own administers
  exact ⟨start,state,same,other,first,still,founded,ran,found,administers,short,descends⟩

end Sample

end Hellas.Authority
