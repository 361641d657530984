import Hellas.Authority.Lineage

-- What each accepted command found in the state and what it left there.

namespace Hellas.Authority

open Guard Lineage

namespace AuthorityState

variable {state after : AuthorityState} {actor : PrincipalId} {id : GrantId} {spec : GrantSpec}
  {now : UnixMillis}

structure Timely (state : AuthorityState) (spec : GrantSpec) (now : UnixMillis) : Prop where
  forward : state.now ≤ now
  authority : spec.authority = state.authority
  valid : spec.Validate
  unexpired : now < spec.expires

variable {grant : Grant}

theorem checkTime_ok : state.checkTime now = .ok done ↔ state.now ≤ now := by
  rw [checkTime,rejectIf_ok,not_lt]

theorem checkSpec_ok : state.checkSpec spec now = .ok done ↔ state.Timely spec now := by
  simp only [checkSpec,bind_ok,checkTime_ok,rejectIf_ok,not_not,not_le]
  constructor
  · intro checked
    obtain ⟨-,forward,-,authority,-,valid,unexpired⟩ := checked
    exact ⟨forward,authority,valid,unexpired⟩
  · intro timely
    exact ⟨(),timely.forward,(),timely.authority,(),timely.valid,timely.unexpired⟩

-- A live grant of the actor whose ceiling has room for the target.
structure Authorizes [Outside] (state : AuthorityState) (actor : PrincipalId) (id : GrantId)
    (operation : String) (target : GrantSpec) (now : UnixMillis) (issuance : Bool)
    (grant : Grant) : Prop where
  found : state.grant id = some grant
  live : ∃ members, state.liveLineage id now = .ok members
  assigned : issuance = true → grant.origin.delegates = false
  subject : grant.spec.subject = actor
  operates : grant.spec.Has operation state.authority.resource
  administers : target.Administrative → grant.spec.Has grantAdminister state.authority.resource
  ceiling : ∃ ceiling ∈ grant.spec.issuance, ceiling.CoversScope target ∧
    (issuance = true → ceiling.Covers target now)

theorem administrator_ok [Outside] {operation : String} {target : GrantSpec} {issuance : Bool}
    (accepted : state.administrator actor id operation target now issuance = .ok done) :
    ∃ grant, state.Authorizes actor id operation target now issuance grant := by
  simp only [administrator,adminScope,bind_ok,okOr_ok,rejectIf_ok,not_or,not_and,not_not,Bool.not_eq_true] at accepted
  obtain ⟨members,live,grant,found,-,⟨assigned,subject⟩,operates,administers,covered⟩ := accepted
  refine ⟨grant,found,⟨members,live⟩,assigned,subject,operates,administers,?_⟩
  obtain ⟨ceiling,inside,covers⟩ := covered
  refine ⟨ceiling,inside,?_⟩
  split at covers
  · exact ⟨covers.1,fun _ => covers⟩
  · rename_i plain
    exact ⟨covers,fun issues => absurd issues plain⟩

theorem checkSelfAssignment_ok (found : state.grant authorization = some grant)
    (accepted : state.checkSelfAssignment actor authorization spec = .ok done)
    (self : spec.subject = actor) : ¬spec.Administrative ∧ spec.expires ≤ grant.spec.expires := by
  simp only [checkSelfAssignment,found,okOr,bind_ok,rejectIf_ok,Except.ok.injEq,exists_eq_left',not_and,not_or,not_lt] at accepted
  exact accepted self

def written (state : AuthorityState) (gone : List GrantId) (grant : Grant) (now : UnixMillis) :
    AuthorityState :=
  { state with
    grants := (state.grants.eraseAll gone).insert grant.id grant
    revision := state.revision + 1
    now := now }

theorem written_grant :
    (state.written gone grant now).grant key = if key = grant.id then some grant else if key ∈ gone then none else state.grant key := by
  rw [AuthorityState.grant,written,Slots.lookup_insert_if,Slots.lookup_eraseAll]
  rfl

theorem replace_ok (accepted : state.replace grant now = .ok after) :
    state.revision + 1 < 2^64 ∧ after = state.written [] grant now := by
  simp only [replace,bind_ok,okOr_ok,Revision.next_some,pure_ok] at accepted
  obtain ⟨revision,⟨rfl,small⟩,rfl⟩ := accepted
  exact ⟨small,rfl⟩

-- A new grant under an id that was free, after a full authority forgot its dead ones.
structure Inserted (state : AuthorityState) (id : GrantId) (spec : GrantSpec) (origin : GrantOrigin)
    (now : UnixMillis) (gone : List GrantId) (after : AuthorityState) : Prop where
  free : state.grant id = none
  room : state.revision + 1 < 2^64
  forgot : gone = [] ∧ state.grants.size < maxGrants ∨
    gone = state.forgotten now ∧ state.grants.size - gone.length < maxGrants
  written : after = state.written gone ⟨id,state.revision + 1,spec,origin,false⟩ now

theorem insert_ok (accepted : state.insert id spec origin now = .ok after) :
    ∃ gone, state.Inserted id spec origin now gone after := by
  simp only [insert,bind_ok,rejectIf_ok,not_not,okOr_ok,Revision.next_some] at accepted
  obtain ⟨-,free,revision,⟨rfl,small⟩,pruned⟩ := accepted
  split at pruned
  · simp only [bind_ok,rejectIf_ok,not_le,pure_ok] at pruned
    obtain ⟨-,fits,kept,rfl,replaced⟩ := pruned
    exact ⟨state.forgotten now,free,small,.inr ⟨rfl,fits⟩,(replace_ok replaced).2⟩
  · rename_i space
    obtain ⟨kept,same,replaced⟩ := bind_ok.mp pruned
    obtain rfl := pure_ok.mp same
    exact ⟨[],free,small,.inl ⟨rfl,not_le.mp space⟩,(replace_ok replaced).2⟩

theorem target_ok (accepted : state.target id expected = .ok grant) :
    id ≠ state.rootGrant ∧ state.grant id = some grant ∧ grant.revoked = false := by
  simp only [target,bind_ok,rejectIf_ok,okOr_ok,pure_ok,Bool.not_eq_true] at accepted
  obtain ⟨-,other,found,same,-,standing,-,-,rfl⟩ := accepted
  exact ⟨other,same,standing⟩

section Grants

variable [Outside]

structure Issued (state : AuthorityState) (actor : PrincipalId) (id : GrantId) (spec : GrantSpec)
    (now : UnixMillis) (authorizing : Grant) (gone : List GrantId) (after : AuthorityState) :
    Prop where
  timely : state.Timely spec now
  authorized : ∃ authorization,
    state.Authorizes actor authorization grantIssue spec now true authorizing
  self : spec.subject = actor → ¬spec.Administrative ∧ spec.expires ≤ authorizing.spec.expires
  inserted : state.Inserted id spec (.node actor) now gone after

variable {authorization root : GrantId} {revision : Revision}

theorem issue_ok (accepted : state.issue actor authorization id spec now = .ok after) :
    ∃ authorizing gone, state.Issued actor id spec now authorizing gone after := by
  simp only [issue,bind_ok] at accepted
  obtain ⟨_,timely,_,allowed,_,assigned,inserted⟩ := accepted
  obtain ⟨authorizing,authorizes⟩ := administrator_ok allowed
  obtain ⟨gone,inserted⟩ := insert_ok inserted
  exact ⟨authorizing,gone,checkSpec_ok.mp timely,⟨authorization,authorizes⟩,checkSelfAssignment_ok authorizes.found assigned,inserted⟩

structure Delegated (state : AuthorityState) (actor : PrincipalId) (parent id : GrantId)
    (spec : GrantSpec) (now : UnixMillis) (upper : Grant) (gone : List GrantId)
    (after : AuthorityState) : Prop where
  timely : state.Timely spec now
  found : state.grant parent = some upper
  live : ∃ members, state.liveLineage parent now = .ok members ∧ members.length ≤ maxDelegationDepth
  subject : upper.spec.subject = actor
  narrows : spec.Narrows upper.spec
  inserted : state.Inserted id spec (.delegated parent) now gone after

theorem delegate_ok (accepted : state.delegate actor parent id spec now = .ok after) :
    ∃ upper gone, state.Delegated actor parent id spec now upper gone after := by
  simp only [delegate,bind_ok,okOr_ok,rejectIf_ok,not_or,not_not,not_lt] at accepted
  obtain ⟨_,timely,members,live,upper,found,-,⟨subject,narrows,shallow,-⟩,-,-,-,-,inserted⟩ := accepted
  obtain ⟨gone,inserted⟩ := insert_ok inserted
  exact ⟨upper,gone,checkSpec_ok.mp timely,found,⟨members,live,shallow⟩,subject,narrows,inserted⟩

structure Revised (state : AuthorityState) (actor : PrincipalId) (id : GrantId) (spec : GrantSpec)
    (now : UnixMillis) (authorizing old : Grant) (after : AuthorityState) : Prop where
  timely : state.Timely spec now
  authorized : ∃ authorization,
    state.Authorizes actor authorization grantIssue spec now true authorizing
  self : spec.subject = actor → ¬spec.Administrative ∧ spec.expires ≤ authorizing.spec.expires
  own : old.spec.subject = actor → ¬old.spec.Administrative
  found : state.grant id = some old
  under : ∀ parent, old.origin = .delegated parent → ∃ members,
    state.liveLineage parent now = .ok members
  other : id ≠ state.rootGrant
  standing : old.revoked = false
  room : state.revision + 1 < 2^64
  written : after = state.written [] { old with spec := spec, revision := state.revision + 1 } now

theorem revise_ok (accepted : state.revise actor authorization id expected spec now = .ok after) :
    ∃ authorizing old, state.Revised actor id spec now authorizing old after := by
  simp only [revise,bind_ok,okOr_ok,Revision.next_some] at accepted
  obtain ⟨_,timely,old,found,_,allowed,_,assigned,_,own,_,-,_,under,target,targeted,revision,⟨rfl,-⟩,replaced⟩ := accepted
  obtain ⟨authorizing,authorizes⟩ := administrator_ok allowed
  obtain ⟨other,foundToo,standing⟩ := target_ok targeted
  cases found.symm.trans foundToo
  obtain ⟨small,rfl⟩ := replace_ok replaced
  refine ⟨authorizing,old,checkSpec_ok.mp timely,⟨authorization,authorizes⟩,
    checkSelfAssignment_ok authorizes.found assigned,?_,found,?_,other,standing,small,rfl⟩
  · intro self
    rw [checkOwn,if_pos self] at own
    exact (checkSelfAssignment_ok authorizes.found own self).1
  · intro parent delegated
    rw [delegated] at under
    simp only [checkUnder,bind_ok] at under
    obtain ⟨members,live,-⟩ := under
    exact ⟨members,live⟩

structure Revoked (state : AuthorityState) (actor : PrincipalId) (id : GrantId) (now : UnixMillis)
    (old : Grant) (after : AuthorityState) : Prop where
  forward : state.now ≤ now
  found : state.grant id = some old
  other : id ≠ state.rootGrant
  standing : old.revoked = false
  room : state.revision + 1 < 2^64
  written : after = state.written [] { old with revoked := true, revision := state.revision + 1 } now

theorem revoke_ok (accepted : state.revoke actor authorization id expected now = .ok after) :
    ∃ old, state.Revoked actor id now old after := by
  simp only [revoke,bind_ok,okOr_ok,Revision.next_some] at accepted
  obtain ⟨_,timely,old,found,_,-,_,-,_,-,target,targeted,revision,⟨rfl,-⟩,replaced⟩ := accepted
  obtain ⟨other,foundToo,standing⟩ := target_ok targeted
  cases found.symm.trans foundToo
  obtain ⟨small,rfl⟩ := replace_ok replaced
  exact ⟨old,checkTime_ok.mp timely,found,other,standing,small,rfl⟩

structure Credentialed (state : AuthorityState) (now : UnixMillis)
    (credentials : Slots CredentialId Credential) (after : AuthorityState) : Prop where
  forward : state.now ≤ now
  room : state.revision + 1 < 2^64
  written : after = { state with
    credentials := credentials
    revision := state.revision + 1
    now := now }
  issued : (∃ credential, state.ValidateCredential credential ∧ ∃ kept : Slots CredentialId Credential,
      (kept = state.credentials ∧ kept.size < maxCredentials ∨
        kept = state.credentials.eraseAll (state.reclaimed now) ∧
          (state.live now).length < maxCredentials) ∧
      credentials = kept.insert credential.id credential) ∨
    ∃ id credential, state.credential id = some credential ∧
      credentials = state.credentials.insert id
        { credential with revision := credential.revision + 1, revoked := true }

theorem applyCredential_ok (accepted : state.applyCredential actor command now = .ok after) :
    ∃ credentials, state.Credentialed now credentials after := by
  simp only [applyCredential,bind_ok,checkTime_ok,okOr_ok,Revision.next_some,pure_ok] at accepted
  obtain ⟨-,forward,revision,⟨rfl,small⟩,credentials,changed,rfl⟩ := accepted
  refine ⟨credentials,forward,small,rfl,?_⟩
  cases command with
  | issue authorization credential =>
    simp only [changeCredentials,issueCredential,validateCredential,bind_ok,rejectIf_ok,not_not,not_le,pure_ok] at changed
    obtain ⟨-,valid,-,-,-,-,-,-,-,few,rfl⟩ := changed
    refine .inl ⟨credential,valid,_,?_,rfl⟩
    split
    · exact .inr ⟨rfl,few⟩
    · rename_i space
      exact .inl ⟨rfl,not_le.mp space⟩
  | revoke authorization id expected =>
    simp only [changeCredentials,revokeCredential,bind_ok,okOr_ok,rejectIf_ok,Revision.next_some,pure_ok] at changed
    obtain ⟨credential,found,-,-,-,-,-,-,revision,⟨rfl,-⟩,rfl⟩ := changed
    exact .inr ⟨id,credential,found,rfl⟩

def retired (revoked : Finset GrantId) (revision : Revision) (grant : Grant) (key : GrantId) : Grant :=
  if key ∈ revoked ∧ grant.revoked = false then { grant with revision := revision, revoked := true }
  else grant

omit [Outside] in
theorem retire_ok {grants : Slots GrantId Grant} (accepted : retire root revision grants id = .ok next) :
    grants.lookup id ≠ none ∧ ∀ key, key ≠ root →
      next.lookup key = (grants.lookup key).map fun grant => retired {id} revision grant key := by
  simp only [retire,bind_ok,okOr_ok,pure_ok] at accepted
  obtain ⟨grant,found,rfl⟩ := accepted
  refine ⟨by simp [found],?_⟩
  intro key other
  by_cases same : key = id
  · rw [same] at other ⊢
    rw [found,Option.map_some]
    unfold retired
    split
    · rename_i standing
      rw [Finmap.lookup_insert,if_pos ⟨Finset.mem_singleton_self id,standing.1⟩]
    · rename_i settled
      rw [found,if_neg]
      exact fun both => settled ⟨both.2,other⟩
  · have outside : ∀ grant : Grant, retired {id} revision grant key = grant := by
      intro grant
      rw [retired,if_neg]
      exact fun both => same (Finset.mem_singleton.mp both.1)
    have kept : ∀ slot : Option Grant, slot = slot.map fun grant => retired {id} revision grant key := by
      intro slot
      cases slot with
      | none => rfl
      | some grant => rw [Option.map_some,outside]
    split
    · rw [Finmap.lookup_insert_of_ne _ same]
      exact kept _
    · exact kept _

omit [Outside] in
theorem retire_all {ids : List GrantId} {grants : Slots GrantId Grant} (accepted : ids.foldlM (retire root revision) grants = .ok next) :
    (∀ id ∈ ids, id ≠ root → grants.lookup id ≠ none) ∧ ∀ key, key ≠ root →
      next.lookup key = (grants.lookup key).map fun grant => retired ids.toFinset revision grant key := by
  induction ids generalizing grants with
  | nil =>
    obtain rfl := pure_ok.mp accepted
    refine ⟨by simp,?_⟩
    intro key _
    cases grants.lookup key <;> rfl
  | cons id ids ih =>
    rw [List.foldlM_cons,bind_ok] at accepted
    obtain ⟨middle,first,rest⟩ := accepted
    obtain ⟨present,step⟩ := retire_ok first
    obtain ⟨presentToo,steps⟩ := ih rest
    constructor
    · intro key listed other
      rcases List.mem_cons.mp listed with rfl | later
      · exact present
      · have found := presentToo key later other
        rw [step key other] at found
        exact fun absent => found (by rw [absent]; rfl)
    · intro key other
      rw [steps key other,step key other,Option.map_map]
      congr 1
      funext grant
      simp only [Function.comp_apply,retired,Finset.mem_singleton,List.mem_toFinset,List.mem_cons]
      by_cases here : key = id <;> by_cases later : key ∈ ids <;>
        cases standing : grant.revoked <;> simp [here,later,standing]

omit [Outside] in
theorem mandatory_all {grants : List Grant} (accepted : grants.foldlM state.mandatory start = .ok named) :
    start ⊆ named ∧ ∀ grant ∈ grants, grant.revoked = false → (grant.spec.Administrative ∨
      ∃ members, state.lineage grant.id = .ok members ∧ state.rootGrant ∈ members) → grant.id ∈ named := by
  induction grants generalizing start with
  | nil =>
    obtain rfl := pure_ok.mp accepted
    exact ⟨Finset.Subset.refl _,by simp⟩
  | cons grant grants ih =>
    rw [List.foldlM_cons,bind_ok] at accepted
    obtain ⟨middle,first,rest⟩ := accepted
    obtain ⟨kept,swept⟩ := ih rest
    have here : start ⊆ middle ∧ (grant.revoked = false → (grant.spec.Administrative ∨
        ∃ members, state.lineage grant.id = .ok members ∧ state.rootGrant ∈ members) → grant.id ∈ middle) := by
      unfold mandatory at first
      split at first
      · rename_i gone
        obtain rfl := pure_ok.mp first
        exact ⟨Finset.Subset.refl _,fun standing => absurd gone (by simp [standing])⟩
      · split at first
        · obtain rfl := pure_ok.mp first
          exact ⟨Finset.subset_insert _ _,fun _ _ => Finset.mem_insert_self _ _⟩
        · rename_i plain
          simp only [bind_ok,pure_ok] at first
          obtain ⟨members,walked,rfl⟩ := first
          split
          · exact ⟨Finset.subset_insert _ _,fun _ _ => Finset.mem_insert_self _ _⟩
          · rename_i outside
            refine ⟨Finset.Subset.refl _,?_⟩
            intro _ either
            rcases either with administers | ⟨found,walkedToo,inside⟩
            · exact absurd administers plain
            · cases walked.symm.trans walkedToo
              exact absurd inside outside
    refine ⟨Finset.Subset.trans here.1 kept,?_⟩
    intro other listed standing either
    rcases List.mem_cons.mp listed with rfl | later
    · exact kept (here.2 standing either)
    · exact swept other later standing either

structure Recovered (state : AuthorityState) (command : RecoveryCommand) (now : UnixMillis)
    (revoked : Finset GrantId) (after : AuthorityState) : Prop where
  timely : state.Timely command.administrator now
  room : state.revision + 1 < 2^64
  initial : command.credential.scope.Validate ∧
    command.credential.generation = state.generation + 1 ∧ command.credential.revision = 1 ∧
    command.credential.bearer = false ∧
    command.credential.scope.authority = command.administrator.authority
  named : command.revoke ⊆ revoked
  root : state.rootGrant ∈ revoked
  swept : ∀ key grant, state.grant key = some grant → grant.revoked = false →
    (grant.spec.Administrative ∨
      ∃ members, state.lineage grant.id = .ok members ∧ state.rootGrant ∈ members) →
    grant.id ∈ revoked
  present : ∀ key ∈ revoked, state.grant key ≠ none
  replaced : after.grant state.rootGrant = some ⟨state.rootGrant,state.revision + 1,
    command.administrator,.node command.administrator.subject,false⟩
  others : ∀ key, key ≠ state.rootGrant → after.grant key =
    (state.grant key).map fun grant => retired revoked (state.revision + 1) grant key
  authority : after.authority = state.authority
  revision : after.revision = state.revision + 1
  clock : after.now = now
  rootGrant : after.rootGrant = state.rootGrant
  generation : after.generation = state.generation + 1
  receipt : ∃ previous, after.lastRecovery = some ⟨state.generation + 1,state.revision + 1,now,
    previous,command.administrator.subject,revoked⟩
  credentials : after.credentials = Finmap.singleton command.credential.id command.credential

theorem recover_ok {command : RecoveryCommand} (accepted : state.recover command now = .ok after) :
    ∃ revoked, state.Recovered command now revoked after := by
  simp only [recover,bind_ok,okOr_ok,Revision.next_some,validateInitialCredential,rejectIf_ok,not_not,pure_ok] at accepted
  obtain ⟨_,timely,-,-,-,-,generation,⟨rfl,-⟩,-,initial,-,-,-,-,named,gathered,
    previous,found,revision,⟨rfl,small⟩,grants,swept,rfl⟩ := accepted
  obtain ⟨kept,mandatory⟩ := mandatory_all gathered
  obtain ⟨present,marked⟩ := retire_all swept
  have listed : (Ranked.sorted (Insert.insert state.rootGrant named)).toFinset = Insert.insert state.rootGrant named := by
    ext key
    rw [List.mem_toFinset,Ranked.mem_sorted]
  rw [listed] at marked
  refine ⟨Insert.insert state.rootGrant named,checkSpec_ok.mp timely,small,⟨initial.1,initial.2.1,initial.2.2.1,
    initial.2.2.2.2.1,initial.2.2.2.2.2.1⟩,Finset.Subset.trans kept (Finset.subset_insert _ _),Finset.mem_insert_self _ _,?_,?_,
    Finmap.lookup_insert _,?_,rfl,rfl,rfl,rfl,rfl,⟨_,rfl⟩,rfl⟩
  · intro key grant held standing either
    exact Finset.mem_insert_of_mem (mandatory grant (Slots.mem_values.mpr ⟨key,held⟩) standing either)
  · intro key inside
    by_cases root : key = state.rootGrant
    · rw [root,found]
      simp
    · exact present key (Ranked.mem_sorted.mpr inside) root
  · intro key other
    exact (Finmap.lookup_insert_of_ne _ other).trans (marked key other)

structure Bootstrapped (id : GrantId) (admin : GrantSpec) (credential : Credential)
    (now : UnixMillis) (state : AuthorityState) : Prop where
  valid : admin.Validate
  initial : credential.scope.Validate ∧ credential.generation = 1 ∧ credential.revision = 1 ∧
    credential.bearer = false ∧ credential.scope.authority = admin.authority
  founded : state = {
    authority := admin.authority
    revision := 1
    now := now
    rootGrant := id
    generation := 1
    lastRecovery := none
    grants := Finmap.singleton id ⟨id,1,admin,.node admin.subject,false⟩
    credentials := Finmap.singleton credential.id credential }

theorem bootstrap_ok {machine : Option Digest} {admin : GrantSpec} {credential : Credential} {owner : Outside.Assertion}
    (accepted : bootstrap id machine admin credential owner now = .ok state) :
    Bootstrapped id admin credential now state := by
  simp only [bootstrap,validateAdministrator,validateInitialCredential,bind_ok,rejectIf_ok,not_not,pure_ok] at accepted
  obtain ⟨-,admitted,-,initial,-,-,rfl⟩ := accepted
  exact ⟨admitted.1,⟨initial.1,initial.2.1,initial.2.2.1,initial.2.2.2.2.1,initial.2.2.2.2.2.1⟩,rfl⟩

end Grants

end AuthorityState

end Hellas.Authority
