import Hellas.Authority.State
import Hellas.Lib.Lineage

-- What the walk up a grant's lineage finds, and what a live and a dead lineage say of its members.

namespace Hellas.Authority

open Guard Lineage

section Walk

variable {grants : Slots GrantId Grant} {id : GrantId}

def GrantOrigin.parent : GrantOrigin → Option GrantId
  | .node _ => none
  | .delegated parent => some parent

def above (grants : Slots GrantId Grant) : Above GrantId := fun id => (grants.lookup id).map fun grant => grant.origin.parent

theorem above_some :
    above grants id = some upper ↔ ∃ grant, grants.lookup id = some grant ∧ grant.origin.parent = upper := by
  rw [above,Option.map_eq_some_iff]

def parentOf (grants : Slots GrantId Grant) (id : GrantId) :
    Except AuthorityError (Option GrantId) := do
  let grant ← okOr (grants.lookup id) .missing
  pure grant.origin.parent

theorem aboveOf_parentOf : aboveOf (parentOf grants) = above grants := by
  funext id
  unfold aboveOf above parentOf
  cases grants.lookup id <;> rfl

theorem lineageFrom_walk : lineageFrom grants room seen id = walk (parentOf grants) .invalid room seen id := by
  induction room generalizing id seen with
  | zero => rfl
  | succ room ih =>
    simp only [lineageFrom,walk,parentOf,bind_assoc,pure_bind]
    congr 1
    funext _
    cases grants.lookup id with
    | none => rfl
    | some grant =>
      obtain ⟨name,revision,spec,origin,revoked⟩ := grant
      cases origin with
      | node issuer => rfl
      | delegated parent =>
        simp only [okOr,GrantOrigin.parent,ih]
        rfl

end Walk

namespace AuthorityState

variable {state : AuthorityState} {id : GrantId} {now : UnixMillis}

theorem lineage_ok : state.lineage id = .ok members ↔ Chain (above state.grants) id members ∧ members.length ≤ maxDelegationDepth + 1 := by
  rw [lineage,lineageFrom_walk,walk_ok,aboveOf_parentOf]

-- Each member of a live lineage is itself in force, and within the one above it.
structure Live (state : AuthorityState) (time : UnixMillis) (grant : Grant) : Prop where
  standing : grant.revoked = false
  started : grant.spec.notBefore ≤ time
  unexpired : time < grant.spec.expires
  narrows : ∀ parent, grant.origin = .delegated parent →
    ∃ upper, state.grant parent = some upper ∧ grant.spec.Narrows upper.spec

theorem checkLive_ok : state.checkLive now id = .ok done ↔ ∃ grant, state.grant id = some grant ∧ state.Live now grant := by
  simp only [checkLive,bind_ok,okOr_ok,rejectIf_ok,not_or,not_lt,not_le,Bool.not_eq_true]
  refine exists_congr fun grant => and_congr_right fun _ => ?_
  constructor
  · intro checked
    obtain ⟨-,standing,-,⟨started,unexpired⟩,origin⟩ := checked
    refine ⟨standing,started,unexpired,?_⟩
    intro parent delegated
    rw [delegated] at origin
    simp only [bind_ok,okOr_ok,rejectIf_ok,not_not] at origin
    exact origin
  · intro live
    refine ⟨(),live.standing,(),⟨live.started,live.unexpired⟩,?_⟩
    cases origin : grant.origin with
    | node issuer => rfl
    | delegated parent =>
      simp only [bind_ok,okOr_ok,rejectIf_ok,not_not]
      exact live.narrows parent origin

theorem liveLineage_ok : state.liveLineage id now = .ok members ↔
    state.lineage id = .ok members ∧ ∀ key ∈ members, ∃ grant, state.grant key = some grant ∧ state.Live (max now state.now) grant := by
  simp only [liveLineage,bind_ok,forM_ok,pure_ok,checkLive_ok]
  constructor
  · intro ran
    obtain ⟨found,walked,-,each,rfl⟩ := ran
    exact ⟨walked,each⟩
  · intro known
    exact ⟨members,known.1,(),known.2,rfl⟩

theorem liveLineage_within (live : state.liveLineage id now = .ok members) {grant upper : Grant}
    (found : state.grant id = some grant) (inside : key ∈ members)
    (foundToo : state.grant key = some upper) : grant.spec.Within upper.spec := by
  obtain ⟨walked,each⟩ := liveLineage_ok.mp live
  have climbed : ∃ lower higher, state.grant id = some lower ∧ state.grant key = some higher ∧ lower.spec.Within higher.spec := by
    refine (lineage_ok.mp walked).1.climb (fun low high => ∃ lower higher,
      state.grant low = some lower ∧ state.grant high = some higher ∧ lower.spec.Within higher.spec) ?_ ?_ ?_ key inside
    · intro key inside
      obtain ⟨grant,found,-⟩ := each key inside
      exact ⟨grant,grant,found,found,GrantSpec.within_refl⟩
    · intro low middle high first second
      obtain ⟨lower,between,foundLow,foundMiddle,narrow⟩ := first
      obtain ⟨betweenToo,higher,foundAgain,foundHigh,further⟩ := second
      cases foundMiddle.symm.trans foundAgain
      exact ⟨lower,higher,foundLow,foundHigh,narrow.trans further⟩
    · intro key inside parent placed
      obtain ⟨grant,found,live⟩ := each key inside
      obtain ⟨again,foundAgain,origin⟩ := above_some.mp placed
      cases found.symm.trans foundAgain
      cases issued : grant.origin with
      | node issuer =>
        rw [issued] at origin
        cases origin
      | delegated above =>
        rw [issued] at origin
        cases origin
        obtain ⟨upper,foundUpper,narrows⟩ := live.narrows parent issued
        exact ⟨grant,upper,found,foundUpper,narrows.within⟩
  obtain ⟨lower,higher,foundLow,foundHigh,within⟩ := climbed
  cases found.symm.trans foundLow
  cases foundToo.symm.trans foundHigh
  exact within

end AuthorityState

end Hellas.Authority
