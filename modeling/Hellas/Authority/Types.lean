import Hellas.Kernel.Primitive
import Hellas.Lib.Slots
import Mathlib.Data.Prod.Lex
import Mathlib.Data.String.Basic

-- Principals, grants and credentials of one node's authority.

namespace Hellas.Authority

open Guard Kernel Words

abbrev Digest := FixedBytes 32

-- The digest function and the passkey verifier are parameters.
class Outside where
  hash : List UInt8 → Digest
  Assertion : Type
  verifies : Assertion → FixedBytes 33 → Digest → Bool

def hashTuple [Outside] (tag : String) (fields : List (List UInt8)) : Digest :=
  Outside.hash (bytesOf "hellas.hash_tuple.v2" ++ bigEndian 4 (bytesOf tag).length ++ bytesOf tag ++
    bigEndian 4 fields.length ++ fields.flatMap fun field => bigEndian 8 field.length ++ field)

-- Byte strings of one length compare as the numbers they spell.
def spelled (value : FixedBytes n) : Nat := fromBigEndian value.bytes

theorem spelled_injective : Function.Injective (@spelled n) := by
  intro left right same
  apply FixedBytes.ext
  have back (value : FixedBytes n) : value.bytes = bigEndian n (spelled value) := by
    obtain ⟨bytes,rfl⟩ := value
    exact (bigEndian_fromBigEndian bytes).symm
  rw [back left,back right,same]

instance : Ranked Digest Nat where
  rank := spelled
  rank_injective := spelled_injective

structure PrincipalId where
  raw : FixedBytes 33
  deriving DecidableEq

structure NodeKey where
  raw : FixedBytes 33
  deriving DecidableEq

structure AuthorityId where
  raw : Digest
  deriving DecidableEq

structure ResourceId where
  raw : Digest
  deriving DecidableEq

structure GrantId where
  raw : FixedBytes 16
  deriving DecidableEq

structure CredentialId where
  raw : FixedBytes 16
  deriving DecidableEq

instance : Ranked GrantId Nat where
  rank id := spelled id.raw
  rank_injective one other same := by
    cases one
    cases other
    exact congrArg _ (spelled_injective same)

instance : Ranked CredentialId Nat where
  rank id := spelled id.raw
  rank_injective one other same := by
    cases one
    cases other
    exact congrArg _ (spelled_injective same)

instance : Ranked ResourceId Nat where
  rank id := spelled id.raw
  rank_injective one other same := by
    cases one
    cases other
    exact congrArg _ (spelled_injective same)

def AuthorityId.resource [Outside] (authority : AuthorityId) : ResourceId :=
  ⟨hashTuple "hellas.authority.resource.v1" [authority.raw.bytes]⟩

-- Both are 64-bit words in the source; only the step to the next revision can leave them.
abbrev Revision := Nat
abbrev UnixMillis := Nat

def Revision.next (revision : Revision) : Option Revision :=
  if revision + 1 < 2^64 then some (revision + 1) else none

@[simp] theorem Revision.next_some {revision : Revision} :
    revision.next = some after ↔ after = revision + 1 ∧ after < 2^64 := by
  unfold Revision.next
  split
  · rename_i small
    constructor
    · intro same
      cases same
      exact ⟨rfl,small⟩
    · intro found
      rw [found.1]
  · rename_i large
    constructor
    · intro same
      cases same
    · intro found
      rw [found.1] at found
      exact absurd found.2 large

-- A new record starts at one; an update advances it exactly once.
def Revision.Follows (revision : Revision) (previous : Option Revision) : Prop := Revision.next (previous.getD 0) = some revision

instance {revision : Revision} {previous : Option Revision} :
    Decidable (revision.Follows previous) :=
  inferInstanceAs (Decidable (_ = _))

theorem Revision.Follows.ne_zero {revision : Revision} (follows : revision.Follows previous) : revision ≠ 0 := by
  rw [(Revision.next_some.mp follows).1]
  exact Nat.succ_ne_zero _

inductive AuthorityError where
  | invalid
  | audience
  | denied
  | missing
  | revoked
  | expired
  | revision
  | duplicate
  | capacity
  | clock
  | credential
  | stepUp
  | entropy
  deriving DecidableEq

def grantIssue : String := "grant.issue"
def grantRevoke : String := "grant.revoke"
def grantAdminister : String := "grant.administer"
def credentialIssue : String := "credential.issue"
def credentialRevoke : String := "credential.revoke"
def gatewayInvoke : String := "gateway.invoke"

def administrativeOperations : List String := [grantIssue,grantRevoke,grantAdminister,credentialIssue,credentialRevoke]

def maxCredentials : Nat := 256
def maxDelegationDepth : Nat := 8
def maxDelegations : Nat := 32
def maxGrants : Nat := 256
def maxPermissions : Nat := 128

def operationName (name : String) : Bool :=
  !name.isEmpty && decide (name.utf8ByteSize ≤ 96) && name.toList.all (fun letter => letter.isLower || letter.isDigit || letter == '.') &&
    !(name.toList.splitOn '.').any List.isEmpty

-- An exact operation name.
structure OperationId where
  name : String
  named : operationName name = true
  deriving DecidableEq

structure Permission where
  operation : OperationId
  resource : ResourceId
  deriving DecidableEq

instance : Ranked OperationId String where
  rank operation := operation.name
  rank_injective one other same := by
    cases one
    cases other
    cases same
    rfl

instance : Ranked Permission (String ×ₗ Nat) where
  rank permission := toLex (permission.operation.name, spelled permission.resource.raw)
  rank_injective one other same := by
    obtain ⟨operations,resources⟩ := Prod.mk.inj (toLex.injective same)
    have first : one.operation = other.operation := Ranked.rank_injective operations
    have second : one.resource = other.resource := Ranked.rank_injective resources
    cases one
    cases other
    cases first
    cases second
    rfl

inductive CeilingResources where
  | named (ids : Finset ResourceId)
  | authority
  deriving DecidableEq

namespace CeilingResources

def Contains : CeilingResources → ResourceId → Prop
  | .named ids, resource => resource ∈ ids
  | .authority, _ => True

instance : (resources : CeilingResources) → (resource : ResourceId) →
    Decidable (resources.Contains resource)
  | .named ids, resource => inferInstanceAs (Decidable (resource ∈ ids))
  | .authority, _ => inferInstanceAs (Decidable True)

def Subset : CeilingResources → CeilingResources → Prop
  | _, .authority => True
  | .named ids, .named outer => ids ⊆ outer
  | .authority, .named _ => False

instance : (inner outer : CeilingResources) → Decidable (inner.Subset outer)
  | .named _, .authority => inferInstanceAs (Decidable True)
  | .authority, .authority => inferInstanceAs (Decidable True)
  | .named ids, .named outer => inferInstanceAs (Decidable (ids ⊆ outer))
  | .authority, .named _ => inferInstanceAs (Decidable False)

@[simp] theorem subset_refl {resources : CeilingResources} : resources.Subset resources := by
  cases resources with
  | named ids => exact Finset.Subset.refl ids
  | authority => trivial

theorem Subset.contains {inner : CeilingResources} (within : inner.Subset outer)
    (inside : inner.Contains resource) : outer.Contains resource := by
  cases outer with
  | authority => trivial
  | named ids =>
    cases inner with
    | authority => exact within.elim
    | named inner => exact within inside

theorem Subset.trans {inner : CeilingResources} (low : inner.Subset middle) (high : middle.Subset outer) : inner.Subset outer := by
  cases outer with
  | authority => cases inner <;> trivial
  | named ids =>
    cases middle with
    | authority => exact high.elim
    | named middle =>
      cases inner with
      | authority => exact low.elim
      | named inner => exact Finset.Subset.trans low high

end CeilingResources

structure IssuanceCeiling where
  operations : Finset OperationId
  resources : CeilingResources
  maxValidityMs : Nat
  maxDelegationDepth : Nat
  deriving DecidableEq

structure GrantSpec where
  authority : AuthorityId
  subject : PrincipalId
  permissions : Finset Permission
  notBefore : UnixMillis
  expires : UnixMillis
  delegationDepth : Nat
  issuance : Option IssuanceCeiling
  deriving DecidableEq

namespace IssuanceCeiling

def Validate (ceiling : IssuanceCeiling) : Prop :=
  ceiling.operations.Nonempty ∧ ceiling.operations.card ≤ maxPermissions ∧
    0 < ceiling.maxValidityMs ∧ ceiling.maxDelegationDepth ≤ Authority.maxDelegationDepth ∧
    match ceiling.resources with
    | .named ids => ids.Nonempty ∧ ids.card ≤ maxPermissions
    | .authority => True

instance {ceiling : IssuanceCeiling} : Decidable ceiling.Validate :=
  have : Decidable (match ceiling.resources with
      | .named ids => ids.Nonempty ∧ ids.card ≤ maxPermissions
      | .authority => True) :=
    match ceiling.resources with
    | .named ids => inferInstanceAs (Decidable (ids.Nonempty ∧ ids.card ≤ maxPermissions))
    | .authority => inferInstanceAs (Decidable True)
  inferInstanceAs (Decidable (_ ∧ _ ∧ _ ∧ _ ∧ _))

def Subset (ceiling outer : IssuanceCeiling) : Prop :=
  ceiling.operations ⊆ outer.operations ∧ ceiling.resources.Subset outer.resources ∧ ceiling.maxValidityMs ≤ outer.maxValidityMs ∧
    ceiling.maxDelegationDepth ≤ outer.maxDelegationDepth

instance {ceiling outer : IssuanceCeiling} : Decidable (ceiling.Subset outer) :=
  inferInstanceAs (Decidable (_ ∧ _ ∧ _ ∧ _))

-- The operation and the resource of this permission lie inside the ceiling.
def Allows (ceiling : IssuanceCeiling) (permission : Permission) : Prop :=
  permission.operation ∈ ceiling.operations ∧ ceiling.resources.Contains permission.resource

instance {ceiling : IssuanceCeiling} {permission : Permission} :
    Decidable (ceiling.Allows permission) :=
  inferInstanceAs (Decidable (_ ∧ _))

def CoversScope (ceiling : IssuanceCeiling) (spec : GrantSpec) : Prop :=
  (∀ permission ∈ spec.permissions, ceiling.Allows permission) ∧ ∀ inner ∈ spec.issuance, inner.Subset ceiling

instance {ceiling : IssuanceCeiling} {spec : GrantSpec} : Decidable (ceiling.CoversScope spec) :=
  inferInstanceAs (Decidable (_ ∧ _))

def Covers (ceiling : IssuanceCeiling) (spec : GrantSpec) (now : UnixMillis) : Prop :=
  ceiling.CoversScope spec ∧ spec.delegationDepth ≤ ceiling.maxDelegationDepth ∧
    now < spec.expires ∧ spec.expires - now ≤ ceiling.maxValidityMs

instance {ceiling : IssuanceCeiling} {spec : GrantSpec} {now : UnixMillis} :
    Decidable (ceiling.Covers spec now) :=
  inferInstanceAs (Decidable (_ ∧ _ ∧ _ ∧ _))

@[simp] theorem subset_refl {ceiling : IssuanceCeiling} : ceiling.Subset ceiling :=
  ⟨Finset.Subset.refl _,CeilingResources.subset_refl,le_refl _,le_refl _⟩

theorem Subset.trans {inner : IssuanceCeiling} (low : inner.Subset middle) (high : middle.Subset outer) : inner.Subset outer :=
  ⟨Finset.Subset.trans low.1 high.1,low.2.1.trans high.2.1,low.2.2.1.trans high.2.2.1,low.2.2.2.trans high.2.2.2⟩

theorem Subset.allows {inner : IssuanceCeiling} (within : inner.Subset outer)
    (allowed : inner.Allows permission) : outer.Allows permission :=
  ⟨within.1 allowed.1,within.2.1.contains allowed.2⟩

end IssuanceCeiling

namespace GrantSpec

def Validate (spec : GrantSpec) : Prop :=
  spec.permissions.Nonempty ∧ spec.permissions.card ≤ maxPermissions ∧
    spec.notBefore < spec.expires ∧ spec.delegationDepth ≤ maxDelegationDepth ∧
    ∀ ceiling ∈ spec.issuance, ceiling.Validate

instance {spec : GrantSpec} : Decidable spec.Validate :=
  inferInstanceAs (Decidable (_ ∧ _ ∧ _ ∧ _ ∧ _))

def Has (spec : GrantSpec) (operation : String) (resource : ResourceId) : Prop :=
  ∃ permission ∈ spec.permissions, permission.operation.name = operation ∧ permission.resource = resource

instance {spec : GrantSpec} {operation : String} {resource : ResourceId} :
    Decidable (spec.Has operation resource) :=
  inferInstanceAs (Decidable (∃ permission ∈ spec.permissions, _))

def Administrative (spec : GrantSpec) : Prop :=
  spec.issuance ≠ none ∨ ∃ permission ∈ spec.permissions, permission.operation.name ∈ administrativeOperations

instance {spec : GrantSpec} : Decidable spec.Administrative :=
  inferInstanceAs (Decidable (_ ∨ ∃ permission ∈ spec.permissions, _))

def CeilingWithin (inner outer : Option IssuanceCeiling) : Prop := ∀ child ∈ inner, ∃ parent ∈ outer, child.Subset parent

instance {inner outer : Option IssuanceCeiling} : Decidable (CeilingWithin inner outer) :=
  inferInstanceAs (Decidable (∀ child ∈ inner, ∃ parent ∈ outer, child.Subset parent))

def Narrows (spec parent : GrantSpec) : Prop :=
  spec.authority = parent.authority ∧ spec.permissions ⊆ parent.permissions ∧
    parent.notBefore ≤ spec.notBefore ∧ spec.expires ≤ parent.expires ∧
    spec.delegationDepth < parent.delegationDepth ∧ CeilingWithin spec.issuance parent.issuance

instance {spec parent : GrantSpec} : Decidable (spec.Narrows parent) :=
  inferInstanceAs (Decidable (_ ∧ _ ∧ _ ∧ _ ∧ _ ∧ _))

theorem CeilingWithin.refl {ceiling : Option IssuanceCeiling} : CeilingWithin ceiling ceiling :=
  fun child found => ⟨child,found,IssuanceCeiling.subset_refl⟩

theorem CeilingWithin.trans (low : CeilingWithin narrow middle) (high : CeilingWithin middle wide) :
    CeilingWithin narrow wide := by
  intro child found
  obtain ⟨parent,above,inside⟩ := low child found
  obtain ⟨top,highest,further⟩ := high parent above
  exact ⟨top,highest,inside.trans further⟩

structure Within (spec outer : GrantSpec) : Prop where
  permissions : spec.permissions ⊆ outer.permissions
  expires : spec.expires ≤ outer.expires
  ceiling : CeilingWithin spec.issuance outer.issuance

theorem within_refl {spec : GrantSpec} : spec.Within spec := ⟨Finset.Subset.refl _,le_refl _,.refl⟩

theorem Within.trans {low : GrantSpec} (first : low.Within middle) (second : middle.Within high) : low.Within high :=
  ⟨Finset.Subset.trans first.permissions second.permissions,first.expires.trans second.expires,first.ceiling.trans second.ceiling⟩

theorem Narrows.within {spec : GrantSpec} (narrows : spec.Narrows parent) : spec.Within parent :=
  ⟨narrows.2.1,narrows.2.2.2.1,narrows.2.2.2.2.2⟩

theorem Within.administrative {spec : GrantSpec} (within : spec.Within outer)
    (administers : spec.Administrative) : outer.Administrative := by
  rcases administers with ceiling | ⟨permission,inside,named⟩
  · obtain ⟨child,found⟩ := Option.ne_none_iff_exists'.mp ceiling
    obtain ⟨parent,above,-⟩ := within.ceiling child found
    rw [Option.mem_def] at above
    exact .inl (by simp [above])
  · exact .inr ⟨permission,within.permissions inside,named⟩

end GrantSpec

inductive GrantOrigin where
  | node (issuer : PrincipalId)
  | delegated (parent : GrantId)
  deriving DecidableEq

def GrantOrigin.delegates : GrantOrigin → Bool
  | .node _ => false
  | .delegated _ => true

structure Grant where
  id : GrantId
  revision : Revision
  spec : GrantSpec
  origin : GrantOrigin
  revoked : Bool
  deriving DecidableEq

inductive GrantCommand where
  | issue (authorization id : GrantId) (spec : GrantSpec)
  | delegate (parent id : GrantId) (spec : GrantSpec)
  | revise (authorization id : GrantId) (expected : Revision) (spec : GrantSpec)
  | revoke (authorization id : GrantId) (expected : Revision)

inductive CredentialHolder where
  | node (key : NodeKey)
  | bearer
  deriving DecidableEq

def CredentialHolder.Admits : CredentialHolder → GrantSpec → Prop
  | .node _, _ => True
  | .bearer, scope => scope.issuance = none ∧ scope.delegationDepth = 0 ∧
    scope.permissions.card = 1 ∧
    ∀ permission ∈ scope.permissions, permission.operation.name = gatewayInvoke

instance : (holder : CredentialHolder) → (scope : GrantSpec) → Decidable (holder.Admits scope)
  | .node _, _ => inferInstanceAs (Decidable True)
  | .bearer, scope => inferInstanceAs (Decidable (_ ∧ _ ∧ _ ∧ ∀ permission ∈ scope.permissions, _))

structure Credential where
  id : CredentialId
  scope : GrantSpec
  holder : CredentialHolder
  generation : Nat
  revision : Revision
  verifier : Digest
  revoked : Bool
  deriving DecidableEq

def Credential.bearer (credential : Credential) : Bool := credential.holder = .bearer

inductive CredentialCommand where
  | issue (authorization : GrantId) (credential : Credential)
  | revoke (authorization : GrantId) (id : CredentialId) (expected : Revision)

structure RecoveryCommand [Outside] where
  credential : Credential
  expected : Revision
  administrator : GrantSpec
  revoke : Finset GrantId
  owner : Outside.Assertion

structure RecoveryRecord where
  generation : Nat
  revision : Revision
  recordedAt : UnixMillis
  previousAdministrator : PrincipalId
  administrator : PrincipalId
  revoked : Finset GrantId
  deriving DecidableEq

-- The ownership change an owner approves.
inductive Ownership where
  | bootstrap (root : GrantId) (target : Option Digest)
  | recover (expected : Revision)

section Commitment

variable [Outside]

def IssuanceCeiling.commitment (ceiling : IssuanceCeiling) : Digest :=
  let operations := (Ranked.sorted ceiling.operations).map fun operation => bytesOf operation.name
  let resources := match ceiling.resources with
    | .authority => hashTuple "hellas.auth.ceiling.authority.v1" []
    | .named ids => hashTuple "hellas.auth.ceiling.named.v1"
      ((Ranked.sorted ids).map fun id : ResourceId => id.raw.bytes)
  hashTuple "hellas.auth.ceiling.v1" [(hashTuple "hellas.auth.ceiling.operations.v1" operations).bytes,resources.bytes,
      bigEndian 8 ceiling.maxValidityMs,bigEndian 1 ceiling.maxDelegationDepth]

def GrantSpec.commitment (spec : GrantSpec) : Digest :=
  let permissions := (Ranked.sorted spec.permissions).flatMap fun permission =>
    [bytesOf permission.operation.name,permission.resource.raw.bytes]
  hashTuple "hellas.auth.grant-spec.v2" [spec.authority.raw.bytes,[3],spec.subject.raw.bytes,
      (hashTuple "hellas.auth.permissions.v1" permissions).bytes,bigEndian 8 spec.notBefore,
      bigEndian 8 spec.expires,bigEndian 1 spec.delegationDepth,
      (spec.issuance.map fun ceiling => ceiling.commitment.bytes).getD []]

def ownershipDigest (ownership : Ownership) (administrator credential : GrantSpec) (holder : NodeKey) :
    Digest :=
  match ownership with
  | .bootstrap root target => hashTuple "hellas.auth.bootstrap.v3"
    [root.raw.bytes,(target.map FixedBytes.bytes).getD [],administrator.commitment.bytes,credential.commitment.bytes,holder.raw.bytes]
  | .recover expected => hashTuple "hellas.auth.recovery.v2"
    [bigEndian 8 expected,administrator.commitment.bytes,credential.commitment.bytes,holder.raw.bytes]

end Commitment

end Hellas.Authority
