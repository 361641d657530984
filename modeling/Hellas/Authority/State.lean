import Hellas.Authority.Types

-- The authority's state and its transitions.

namespace Hellas.Authority

open Guard Kernel

structure AuthorityState where
  authority : AuthorityId
  revision : Revision
  now : UnixMillis
  rootGrant : GrantId
  generation : Nat
  lastRecovery : Option RecoveryRecord
  grants : Slots GrantId Grant
  credentials : Slots CredentialId Credential

structure AuthoritySnapshot where
  authority : AuthorityId
  revision : Revision
  now : UnixMillis
  rootGrant : GrantId
  generation : Nat
  lastRecovery : Option RecoveryRecord
  grants : List Grant
  credentials : List Credential

-- The loop that walks from a grant to its node assignment; `room` is what the depth leaves.
def lineageFrom (grants : Slots GrantId Grant) :
    Nat → List GrantId → GrantId → Except AuthorityError (List GrantId)
  | 0, _, _ => .error .invalid
  | room + 1, seen, id => do
    rejectIf (id ∈ seen) .invalid
    let grant ← okOr (grants.lookup id) .missing
    match grant.origin with
    | .node _ => pure [id]
    | .delegated parent => do
      let rest ← lineageFrom grants room (id :: seen) parent
      pure (id :: rest)

namespace AuthorityState

def grant (state : AuthorityState) (id : GrantId) : Option Grant := state.grants.lookup id

def credential (state : AuthorityState) (id : CredentialId) : Option Credential := state.credentials.lookup id

def lineage (state : AuthorityState) (id : GrantId) : Except AuthorityError (List GrantId) :=
  lineageFrom state.grants (maxDelegationDepth + 1) [] id

def dead (state : AuthorityState) (id : GrantId) (now : UnixMillis) : Bool :=
  match state.lineage id with
  | .error _ => true
  | .ok lineage => lineage.any fun id => (state.grant id).any fun grant => grant.revoked || decide (grant.spec.expires ≤ max now state.now)

def checkLive (state : AuthorityState) (now : UnixMillis) (id : GrantId) :
    Except AuthorityError Unit := do
  let grant ← okOr (state.grant id) .missing
  rejectIf (grant.revoked = true) .revoked
  rejectIf (now < grant.spec.notBefore ∨ grant.spec.expires ≤ now) .expired
  match grant.origin with
  | .node _ => pure ()
  | .delegated parent => do
    let above ← okOr (state.grant parent) .missing
    rejectIf (¬grant.spec.Narrows above.spec) .denied

def liveLineage (state : AuthorityState) (id : GrantId) (now : UnixMillis) :
    Except AuthorityError (List GrantId) := do
  let lineage ← state.lineage id
  lineage.forM (state.checkLive (max now state.now))
  pure lineage

def authorize (state : AuthorityState) (actor : PrincipalId) (id : GrantId) (permission : Permission) (now : UnixMillis) :
    Except AuthorityError (List (GrantId × Revision)) := do
  let lineage ← state.liveLineage id now
  let grant ← okOr (state.grant id) .missing
  rejectIf (grant.spec.subject ≠ actor ∨ permission ∉ grant.spec.permissions) .denied
  pure (lineage.filterMap fun id => (state.grant id).map fun grant => (id, grant.revision))

def checkTime (state : AuthorityState) (now : UnixMillis) : Except AuthorityError Unit := rejectIf (now < state.now) .clock

def checkSpec (state : AuthorityState) (spec : GrantSpec) (now : UnixMillis) :
    Except AuthorityError Unit := do
  state.checkTime now
  rejectIf (spec.authority ≠ state.authority) .audience
  rejectIf (¬spec.Validate) .invalid
  rejectIf (spec.expires ≤ now) .expired

section Administration

variable [Outside]

def adminScope (state : AuthorityState) (scope : GrantSpec) (operation : String)
    (target : GrantSpec) (now : UnixMillis) (issuance : Bool) : Except AuthorityError Unit :=
  rejectIf (¬scope.Has operation state.authority.resource ∨ (target.Administrative ∧ ¬scope.Has grantAdminister state.authority.resource) ∨
    ¬∃ ceiling ∈ scope.issuance, if issuance = true then ceiling.Covers target now else ceiling.CoversScope target) .denied

def administrator (state : AuthorityState) (actor : PrincipalId) (id : GrantId)
    (operation : String) (target : GrantSpec) (now : UnixMillis) (issuance : Bool) :
    Except AuthorityError Unit := do
  let _ ← state.liveLineage id now
  let authorization ← okOr (state.grant id) .missing
  -- Delegated rights fall with their parent, so they mint nothing independent of it.
  rejectIf ((issuance = true ∧ authorization.origin.delegates = true) ∨ authorization.spec.subject ≠ actor) .denied
  state.adminScope authorization.spec operation target now issuance

end Administration

def checkSelfAssignment (state : AuthorityState) (actor : PrincipalId) (authorization : GrantId)
    (spec : GrantSpec) : Except AuthorityError Unit := do
  let authorizing ← okOr (state.grant authorization) .missing
  rejectIf (spec.subject = actor ∧ (spec.Administrative ∨ authorizing.spec.expires < spec.expires)) .denied

def replace (state : AuthorityState) (grant : Grant) (now : UnixMillis) :
    Except AuthorityError AuthorityState := do
  let revision ← okOr state.revision.next .capacity
  pure { state with grants := state.grants.insert grant.id grant, revision := revision, now := now }

-- The grants a full authority forgets: dead ones, the ownership slot apart.
def forgotten (state : AuthorityState) (now : UnixMillis) : List GrantId :=
  state.grants.listing.filter fun id => id ≠ state.rootGrant && state.dead id now

def insert (state : AuthorityState) (id : GrantId) (spec : GrantSpec) (origin : GrantOrigin)
    (now : UnixMillis) : Except AuthorityError AuthorityState := do
  rejectIf (state.grant id ≠ none) .duplicate
  let revision ← okOr state.revision.next .capacity
  let kept ← if maxGrants ≤ state.grants.size then do
      rejectIf (maxGrants ≤ state.grants.size - (state.forgotten now).length) .capacity
      pure { state with grants := state.grants.eraseAll (state.forgotten now) }
    else pure state
  kept.replace ⟨id,revision,spec,origin,false⟩ now

def target (state : AuthorityState) (id : GrantId) (expected : Revision) :
    Except AuthorityError Grant := do
  rejectIf (id = state.rootGrant) .denied
  let grant ← okOr (state.grant id) .missing
  rejectIf (grant.revoked = true) .revoked
  rejectIf (grant.revision ≠ expected) .revision
  pure grant

section Commands

variable [Outside]

def issue (state : AuthorityState) (actor : PrincipalId) (authorization id : GrantId)
    (spec : GrantSpec) (now : UnixMillis) : Except AuthorityError AuthorityState := do
  state.checkSpec spec now
  state.administrator actor authorization grantIssue spec now true
  state.checkSelfAssignment actor authorization spec
  state.insert id spec (.node actor) now

-- Descendants of the assignment that still hold one of its slots.
def retained (state : AuthorityState) (assignment : GrantId) (now : UnixMillis) : List GrantId :=
  state.grants.listing.filter fun id => !state.dead id now && match state.lineage id with
    | .ok lineage => lineage.getLast? = some assignment
    | .error _ => false

def delegate (state : AuthorityState) (actor : PrincipalId) (parent id : GrantId)
    (spec : GrantSpec) (now : UnixMillis) : Except AuthorityError AuthorityState := do
  state.checkSpec spec now
  let lineage ← state.liveLineage parent now
  let above ← okOr (state.grant parent) .missing
  rejectIf (above.spec.subject ≠ actor ∨ ¬spec.Narrows above.spec ∨ maxDelegationDepth < lineage.length ∨
    (spec.Administrative ∧ ¬above.spec.Has grantAdminister state.authority.resource)) .denied
  let assignment ← okOr lineage.getLast? .invalid
  rejectIf (maxDelegations < (state.retained assignment now).length) .capacity
  state.insert id spec (.delegated parent) now

def checkOwn (state : AuthorityState) (actor : PrincipalId) (authorization : GrantId) (old : Grant) :
    Except AuthorityError Unit :=
  if old.spec.subject = actor then state.checkSelfAssignment actor authorization old.spec
  else pure ()

def checkUnder (state : AuthorityState) (origin : GrantOrigin) (spec : GrantSpec) (now : UnixMillis) : Except AuthorityError Unit :=
  match origin with
  | .node _ => pure ()
  | .delegated parent => do
    let _ ← state.liveLineage parent now
    let above ← okOr (state.grant parent) .missing
    rejectIf (¬spec.Narrows above.spec) .denied

def revise (state : AuthorityState) (actor : PrincipalId) (authorization id : GrantId)
    (expected : Revision) (spec : GrantSpec) (now : UnixMillis) :
    Except AuthorityError AuthorityState := do
  state.checkSpec spec now
  let old ← okOr (state.grant id) .missing
  state.administrator actor authorization grantIssue spec now true
  state.checkSelfAssignment actor authorization spec
  state.checkOwn actor authorization old
  -- A small new scope must not take over a wider grant.
  state.administrator actor authorization grantIssue old.spec now false
  state.checkUnder old.origin spec now
  let _ ← state.target id expected
  let revision ← okOr state.revision.next .capacity
  state.replace { old with spec := spec, revision := revision } now

-- A delegator may take back what it delegated; anything else takes an administrator.
def checkRevoker (state : AuthorityState) (actor : PrincipalId) (authorization : GrantId)
    (authorizer old : Grant) (now : UnixMillis) : Except AuthorityError Unit :=
  if old.origin = .delegated authorization ∧ authorizer.spec.subject = actor ∧
    0 < authorizer.spec.delegationDepth ∧ (¬old.spec.Administrative ∨
      authorizer.spec.Has grantAdminister state.authority.resource) then pure ()
  else state.administrator actor authorization grantRevoke old.spec now false

def revoke (state : AuthorityState) (actor : PrincipalId) (authorization id : GrantId)
    (expected : Revision) (now : UnixMillis) : Except AuthorityError AuthorityState := do
  state.checkTime now
  let old ← okOr (state.grant id) .missing
  let _ ← state.liveLineage authorization now
  let authorizer ← okOr (state.grant authorization) .missing
  state.checkRevoker actor authorization authorizer old now
  let _ ← state.target id expected
  let revision ← okOr state.revision.next .capacity
  state.replace { old with revoked := true, revision := revision } now

def apply (state : AuthorityState) (actor : PrincipalId) (command : GrantCommand)
    (now : UnixMillis) : Except AuthorityError AuthorityState :=
  match command with
  | .issue authorization id spec => state.issue actor authorization id spec now
  | .delegate parent id spec => state.delegate actor parent id spec now
  | .revise authorization id expected spec => state.revise actor authorization id expected spec now
  | .revoke authorization id expected => state.revoke actor authorization id expected now

end Commands

section Credentials

def ValidateCredential (state : AuthorityState) (credential : Credential) : Prop :=
  credential.scope.authority = state.authority ∧ credential.generation = state.generation ∧
    credential.scope.Validate ∧ credential.holder.Admits credential.scope ∧
    credential.revision ≠ 0 ∧ credential.revision ≤ state.revision

instance {state : AuthorityState} {credential : Credential} :
    Decidable (state.ValidateCredential credential) :=
  inferInstanceAs (Decidable (_ ∧ _ ∧ _ ∧ _ ∧ _ ∧ _))

def validateCredential (state : AuthorityState) (credential : Credential) :
    Except AuthorityError Unit :=
  rejectIf (¬state.ValidateCredential credential) .invalid

def unusable (state : AuthorityState) (now : UnixMillis) (credential : Credential) : Bool :=
  credential.revoked || decide (credential.generation ≠ state.generation) || decide (credential.scope.expires ≤ now)

def live (state : AuthorityState) (now : UnixMillis) : List CredentialId :=
  state.credentials.listing.filter fun id => !(state.credential id).any (state.unusable now)

-- The credentials that are reclaimed when space is needed.
def reclaimed (state : AuthorityState) (now : UnixMillis) : List CredentialId :=
  state.credentials.listing.filter fun id => (state.credential id).any (state.unusable now)

variable [Outside]

def issueCredential (state : AuthorityState) (actor : PrincipalId) (authorization : GrantId) (credential : Credential) (now : UnixMillis) :
    Except AuthorityError (Slots CredentialId Credential) := do
  state.validateCredential credential
  rejectIf (credential.revoked = true ∨ credential.revision ≠ 1) .invalid
  rejectIf (state.credential credential.id ≠ none) .duplicate
  state.administrator actor authorization credentialIssue credential.scope now true
  rejectIf (maxCredentials ≤ (state.live now).length) .capacity
  let kept := if maxCredentials ≤ state.credentials.size then
    state.credentials.eraseAll (state.reclaimed now) else state.credentials
  pure (kept.insert credential.id credential)

def revokeCredential (state : AuthorityState) (actor : PrincipalId) (authorization : GrantId)
    (id : CredentialId) (expected : Revision) (now : UnixMillis) :
    Except AuthorityError (Slots CredentialId Credential) := do
  let credential ← okOr (state.credential id) .missing
  state.administrator actor authorization credentialRevoke credential.scope now false
  rejectIf (credential.revision ≠ expected) .revision
  rejectIf (credential.revoked = true) .revoked
  let revision ← okOr credential.revision.next .capacity
  pure (state.credentials.insert id { credential with revision := revision, revoked := true })

def changeCredentials (state : AuthorityState) (actor : PrincipalId) (now : UnixMillis) :
    CredentialCommand → Except AuthorityError (Slots CredentialId Credential)
  | .issue authorization credential => state.issueCredential actor authorization credential now
  | .revoke authorization id expected => state.revokeCredential actor authorization id expected now

def applyCredential (state : AuthorityState) (actor : PrincipalId) (command : CredentialCommand)
    (now : UnixMillis) : Except AuthorityError AuthorityState := do
  state.checkTime now
  let revision ← okOr state.revision.next .capacity
  let credentials ← state.changeCredentials actor now command
  pure { state with credentials := credentials, revision := revision, now := now }

end Credentials

section Ownership

variable [Outside]

def validateInitialCredential (admin : GrantSpec) (credential : Credential) (generation : Nat)
    (now : UnixMillis) : Except AuthorityError Unit :=
  let scope := credential.scope
  rejectIf (¬(scope.Validate ∧ credential.generation = generation ∧ credential.revision = 1 ∧
    credential.revoked = false ∧ credential.bearer = false ∧ scope.authority = admin.authority ∧
    scope.subject = admin.subject ∧ scope.permissions ⊆ admin.permissions ∧
    admin.notBefore ≤ scope.notBefore ∧ scope.notBefore ≤ now ∧ now < scope.expires ∧
    scope.expires ≤ admin.expires ∧ scope.delegationDepth ≤ admin.delegationDepth ∧
    ∃ ceiling ∈ admin.issuance, ceiling.CoversScope scope)) .invalid

def validateAdministrator (admin : GrantSpec) (now : UnixMillis) : Except AuthorityError Unit :=
  rejectIf (¬(admin.Validate ∧ admin.notBefore ≤ now ∧ now < admin.expires ∧
    (∀ operation ∈ administrativeOperations, admin.Has operation admin.authority.resource) ∧
    ∃ ceiling ∈ admin.issuance, ceiling.Covers admin now)) .invalid

def checkOwner (ownership : Ownership) (admin : GrantSpec) (credential : Credential)
    (owner : Outside.Assertion) : Except AuthorityError Unit :=
  match credential.holder with
  | .bearer => .error .invalid
  | .node holder => rejectIf (Outside.verifies owner admin.subject.raw
      (ownershipDigest ownership admin credential.scope holder) = false) .denied

def bootstrap (id : GrantId) (machine : Option Digest) (admin : GrantSpec) (credential : Credential)
    (owner : Outside.Assertion) (now : UnixMillis) : Except AuthorityError AuthorityState := do
  validateAdministrator admin now
  validateInitialCredential admin credential 1 now
  checkOwner (.bootstrap id machine) admin credential owner
  pure {
    authority := admin.authority
    revision := 1
    now := now
    rootGrant := id
    generation := 1
    lastRecovery := none
    grants := Finmap.singleton id ⟨id,1,admin,.node admin.subject,false⟩
    credentials := Finmap.singleton credential.id credential }

-- Besides what the command names, every administrative grant and every grant under the root.
def mandatory (state : AuthorityState) (revoke : Finset GrantId) (grant : Grant) :
    Except AuthorityError (Finset GrantId) :=
  if grant.revoked = true then pure revoke
  else if grant.spec.Administrative then pure (Insert.insert grant.id revoke)
  else do
    let lineage ← state.lineage grant.id
    pure (if state.rootGrant ∈ lineage then Insert.insert grant.id revoke else revoke)

def retire (root : GrantId) (revision : Revision) (grants : Slots GrantId Grant) (id : GrantId) :
    Except AuthorityError (Slots GrantId Grant) := do
  let grant ← okOr (grants.lookup id) .missing
  pure (if grant.revoked = false ∧ id ≠ root then
    grants.insert id { grant with revision := revision, revoked := true } else grants)

def recover (state : AuthorityState) (command : RecoveryCommand) (now : UnixMillis) :
    Except AuthorityError AuthorityState := do
  state.checkSpec command.administrator now
  rejectIf (command.expected ≠ state.revision) .revision
  validateAdministrator command.administrator now
  let generation ← okOr (Revision.next state.generation) .capacity
  validateInitialCredential command.administrator command.credential generation now
  checkOwner (.recover command.expected) command.administrator command.credential command.owner
  rejectIf (maxGrants < command.revoke.card) .capacity
  let named ← state.grants.values.foldlM state.mandatory command.revoke
  let revoked := Insert.insert state.rootGrant named
  let previous ← okOr (state.grant state.rootGrant) .missing
  let revision ← okOr state.revision.next .capacity
  let grants ← (Ranked.sorted revoked).foldlM (retire state.rootGrant revision) state.grants
  pure { state with
    grants := grants.insert state.rootGrant ⟨state.rootGrant,revision,command.administrator,.node command.administrator.subject,false⟩
    generation := generation
    credentials := Finmap.singleton command.credential.id command.credential
    revision := revision
    now := now
    lastRecovery := some ⟨generation,revision,now,previous.spec.subject,command.administrator.subject,revoked⟩ }

end Ownership

section Snapshot

def snapshot (state : AuthorityState) : AuthoritySnapshot where
  authority := state.authority
  revision := state.revision
  now := state.now
  rootGrant := state.rootGrant
  generation := state.generation
  lastRecovery := state.lastRecovery
  grants := state.grants.values
  credentials := state.credentials.values

def Receipt (state : AuthorityState) (record : RecoveryRecord) : Prop :=
  1 < state.generation ∧ record.generation = state.generation ∧ record.generation ≤ record.revision ∧ record.revision ≤ state.revision ∧
    record.recordedAt ≤ state.now ∧ state.rootGrant ∈ record.revoked ∧
    record.revoked.card ≤ maxGrants ∧
    -- A pruned id may name a new grant, which is then newer than the receipt.
    ∀ id ∈ record.revoked, id = state.rootGrant ∨ ∀ grant ∈ state.grant id, grant.revoked = true ∨ record.revision < grant.revision

instance {state : AuthorityState} {record : RecoveryRecord} : Decidable (state.Receipt record) :=
  inferInstanceAs (Decidable (_ ∧ _ ∧ _ ∧ _ ∧ _ ∧ _ ∧ _ ∧ ∀ id ∈ record.revoked, _))

def validateRecovery (state : AuthorityState) : Except AuthorityError Unit := do
  let root ← okOr (state.grant state.rootGrant) .invalid
  rejectIf (state.generation = 0 ∨ state.revision < state.generation ∨
    root.revision < state.generation ∨ root.origin.delegates = true) .invalid
  match state.lastRecovery with
  | none => rejectIf (state.generation ≠ 1) .invalid
  | some record => rejectIf (¬state.Receipt record) .invalid

def restoreGrant (authority : AuthorityId) (revision : Revision) (grants : Slots GrantId Grant)
    (grant : Grant) : Except AuthorityError (Slots GrantId Grant) := do
  rejectIf (grant.spec.authority ≠ authority ∨ ¬grant.spec.Validate ∨ grant.revision = 0 ∨ revision < grant.revision) .invalid
  grants.insertFresh Grant.id .invalid grant

def restore (snapshot : AuthoritySnapshot) : Except AuthorityError AuthorityState := do
  rejectIf (snapshot.grants = [] ∨ maxGrants < snapshot.grants.length) .invalid
  rejectIf (snapshot.credentials = [] ∨ maxCredentials < snapshot.credentials.length) .invalid
  let credentials ← snapshot.credentials.foldlM (Slots.insertFresh Credential.id .invalid) ∅
  let grants ← snapshot.grants.foldlM (restoreGrant snapshot.authority snapshot.revision) ∅
  let state : AuthorityState := {
    authority := snapshot.authority
    revision := snapshot.revision
    now := snapshot.now
    rootGrant := snapshot.rootGrant
    generation := snapshot.generation
    lastRecovery := snapshot.lastRecovery
    grants := grants
    credentials := credentials }
  state.validateRecovery
  state.credentials.values.forM state.validateCredential
  state.grants.listing.forM fun id => do
    let _ ← state.lineage id
    pure ()
  pure state

end Snapshot

end AuthorityState

-- One step of an authority's run: a grant command or a credential command of an authenticated
-- actor, or the offline recovery of ownership.
inductive Command [Outside] where
  | grant (actor : PrincipalId) (command : GrantCommand) (now : UnixMillis)
  | credential (actor : PrincipalId) (command : CredentialCommand) (now : UnixMillis)
  | recovery (command : RecoveryCommand) (now : UnixMillis)

def AuthorityState.step [Outside] (state : AuthorityState) :
    Command → Except AuthorityError AuthorityState
  | .grant actor command now => state.apply actor command now
  | .credential actor command now => state.applyCredential actor command now
  | .recovery command now => state.recover command now


end Hellas.Authority
