import Hellas.Authority.Sound

-- Evidence and revocation over whole runs: what a grant was once, nothing later says otherwise.

namespace Hellas.Authority

open Guard Lineage

namespace AuthorityState

section Steps

variable [Outside] {state after : AuthorityState} {key : GrantId} {grant : Grant}

def Command.recovers : Command → Bool
  | .grant _ _ _ => false
  | .credential _ _ _ => false
  | .recovery _ _ => true

-- The four things an accepted command can do to the grants, the last one by recovery alone.
inductive Effect (state after : AuthorityState) : Bool → Prop where
  | inserted {id : GrantId} {spec : GrantSpec} {origin : GrantOrigin} {now : UnixMillis}
      {gone : List GrantId} : state.Inserted id spec origin now gone after → Effect state after false
  | rewritten {id : GrantId} {old new : Grant} {now : UnixMillis} :
      after = state.written [] new now → state.grant id = some old → id ≠ state.rootGrant →
      old.revoked = false → new.id = old.id → new.origin = old.origin →
      new.revision = state.revision + 1 → Effect state after false
  | untouched : after.grants = state.grants → after.revision = state.revision + 1 →
      after.rootGrant = state.rootGrant → Effect state after false
  | recovered {recovery : RecoveryCommand} {now : UnixMillis} {revoked : Finset GrantId} :
      state.Recovered recovery now revoked after → Effect state after true

theorem step_effect (accepted : state.step command = .ok after) : Effect state after (Command.recovers command) := by
  cases command with
  | grant actor command now =>
    cases command with
    | issue authorization id spec =>
      obtain ⟨authorizing,gone,issued⟩ := issue_ok accepted
      exact .inserted issued.inserted
    | delegate parent id spec =>
      obtain ⟨upper,gone,delegated⟩ := delegate_ok accepted
      exact .inserted delegated.inserted
    | revise authorization id expected spec =>
      obtain ⟨authorizing,old,revised⟩ := revise_ok accepted
      exact .rewritten revised.written revised.found revised.other revised.standing rfl rfl rfl
    | revoke authorization id expected =>
      obtain ⟨old,revoked⟩ := revoke_ok accepted
      exact .rewritten revoked.written revoked.found revoked.other revoked.standing rfl rfl rfl
  | credential actor command now =>
    obtain ⟨credentials,credentialed⟩ := applyCredential_ok accepted
    rw [credentialed.written]
    exact .untouched rfl rfl rfl
  | recovery command now =>
    obtain ⟨revoked,recovered⟩ := recover_ok accepted
    exact .recovered recovered

variable {recovers : Bool}

theorem Effect.revision (effect : Effect state after recovers) : after.revision = state.revision + 1 := by
  cases effect with
  | inserted inserted =>
    rw [inserted.written]
    rfl
  | rewritten written _ _ _ _ _ _ =>
    rw [written]
    rfl
  | untouched _ revision _ => exact revision
  | recovered recovered => exact recovered.revision

theorem Effect.rootGrant (effect : Effect state after recovers) : after.rootGrant = state.rootGrant := by
  cases effect with
  | inserted inserted =>
    rw [inserted.written]
    rfl
  | rewritten written _ _ _ _ _ _ =>
    rw [written]
    rfl
  | untouched _ _ root => exact root
  | recovered recovered => exact recovered.rootGrant

theorem Effect.old (effect : Effect state after recovers) (found : after.grant key = some grant)
    (older : grant.revision ≤ state.revision) : state.grant key = some grant := by
  cases effect with
  | inserted inserted =>
    rw [inserted.written,written_grant] at found
    split at found
    · cases found
      exact absurd older (Nat.not_succ_le_self _)
    · split at found
      · cases found
      · exact found
  | rewritten written _ _ _ _ _ fresh =>
    rw [written,written_grant] at found
    split at found
    · cases found
      rw [fresh] at older
      exact absurd older (Nat.not_succ_le_self _)
    · rw [if_neg List.not_mem_nil] at found
      exact found
  | untouched same _ _ =>
    rw [AuthorityState.grant,same] at found
    exact found
  | recovered recovered =>
    by_cases root : key = state.rootGrant
    · rw [root,recovered.replaced] at found
      cases found
      exact absurd older (Nat.not_succ_le_self _)
    · rw [recovered.others key root,Option.map_eq_some_iff] at found
      obtain ⟨before,held,same⟩ := found
      unfold retired at same
      split at same
      · rw [← same] at older
        exact absurd older (Nat.not_succ_le_self _)
      · rw [held,same]

theorem Effect.origin (effect : Effect state after recovers) (sound : state.Sound)
    (other : key ≠ state.rootGrant) (found : state.grant key = some grant)
    (still : after.grant key = some new) : new.origin = grant.origin := by
  cases effect with
  | inserted inserted =>
    rw [inserted.written,written_grant] at still
    split at still
    · rename_i same
      rw [same] at found
      cases found.symm.trans inserted.free
    · split at still
      · cases still
      · rw [found] at still
        cases still
        rfl
  | @rewritten id old rewrote now written held _ _ same origin _ =>
    rw [written,written_grant] at still
    split at still
    · rename_i here
      rw [here,same,sound.named id old held,held] at found
      cases found
      cases still
      exact origin
    · rw [if_neg List.not_mem_nil,found] at still
      cases still
      rfl
  | untouched same _ _ =>
    rw [AuthorityState.grant,same,show state.grants.lookup key = some grant from found] at still
    cases still
    rfl
  | recovered recovered =>
    rw [recovered.others key other,found,Option.map_some] at still
    cases still
    unfold retired
    split <;> rfl

-- A revoked grant above keeps what is below it dead, until that is forgotten.
theorem Effect.buried (effect : Effect state after recovers) (sound : state.Sound) {id : GrantId}
    {members : List GrantId} (walked : state.lineage id = .ok members) (inside : key ∈ members)
    (other : key ≠ state.rootGrant) (found : state.grant key = some grant) (revoked : grant.revoked = true) :
    after.grant id = none ∨ after.lineage id = .ok members ∧ ∃ still, after.grant key = some still ∧ still.revoked = true := by
  obtain ⟨chain,short⟩ := lineage_ok.mp walked
  have present : state.grant id ≠ none := by
    have listed := chain.known chain.self_mem
    intro absent
    exact listed (by rw [above,show state.grants.lookup id = none from absent]; rfl)
  cases effect with
  | @inserted new spec origin now gone inserted =>
    have differs : ∀ {name}, state.grant name ≠ none → name ≠ new := by
      rintro name held rfl
      exact held inserted.free
    by_cases stays : id ∈ gone
    · left
      rw [inserted.written,written_grant,if_neg (differs present),if_pos stays]
    · right
      refine ⟨lineage_ok.mpr ⟨inserted.chain sound stays walked,short⟩,grant,?_,revoked⟩
      rw [inserted.written,written_grant,if_neg (differs (by rw [found]; simp)),
        if_neg (inserted.kept sound stays walked key inside),found]
  | @rewritten name old rewrote now written held _ standing same origin _ =>
    have named := sound.named name old held
    right
    have lineages : above after.grants = above state.grants := by
      rw [written]
      exact above_written (by rw [same,named]; exact held) origin
    refine ⟨lineage_ok.mpr ⟨lineages ▸ chain,short⟩,grant,?_,revoked⟩
    have differs : key ≠ rewrote.id := by
      rw [same,named]
      rintro rfl
      rw [held] at found
      cases found
      rw [standing] at revoked
      cases revoked
    rw [written,written_grant,if_neg differs,if_neg List.not_mem_nil,found]
  | untouched same _ _ =>
    right
    refine ⟨lineage_ok.mpr ⟨by rw [same]; exact chain,short⟩,grant,?_,revoked⟩
    rw [AuthorityState.grant,same]
    exact found
  | recovered recovered =>
    right
    refine ⟨lineage_ok.mpr ⟨by rw [recovered.above sound]; exact chain,short⟩,grant,?_,revoked⟩
    rw [recovered.others key other,found,Option.map_some,retired,if_neg]
    rw [revoked]
    exact fun both => Bool.noConfusion both.2

theorem Effect.root (effect : Effect state after false) (sound : state.Sound) :
    after.grant state.rootGrant = state.grant state.rootGrant := by
  cases effect with
  | @inserted id spec origin now gone inserted =>
    obtain ⟨root,found,-⟩ := sound.root
    have differs : state.rootGrant ≠ id := by
      rintro rfl
      cases found.symm.trans inserted.free
    have stays : state.rootGrant ∉ gone := by
      rcases inserted.forgot with ⟨rfl,-⟩ | ⟨rfl,-⟩
      · exact List.not_mem_nil
      · exact fun lost => (mem_forgotten.mp lost).2.1 rfl
    rw [inserted.written,written_grant,if_neg differs,if_neg stays]
  | @rewritten id old rewrote now written found other _ same _ _ =>
    have differs : state.rootGrant ≠ rewrote.id := by
      rw [same,sound.named id old found]
      exact other.symm
    rw [written,written_grant,if_neg differs,if_neg List.not_mem_nil]
  | untouched same _ _ => rw [AuthorityState.grant,AuthorityState.grant,same]

end Steps

section Runs

variable [Outside] {state after : AuthorityState} {commands : List Command} {key id : GrantId}
  {grant : Grant}

theorem run_cons : state.run (command :: commands) = .ok after ↔
    ∃ middle, state.step command = .ok middle ∧ middle.run commands = .ok after := by
  rw [run,List.foldlM_cons,bind_ok]
  rfl

theorem run_revision (ran : state.run commands = .ok after) : state.revision ≤ after.revision := by
  refine foldlM_keeps (fun _ => True) (state.revision ≤ ·.revision) (fun before command next _ first reached => ?_)
    (fun _ _ => trivial) (le_refl _) ran
  rw [(step_effect first).revision]
  exact Nat.le_succ_of_le reached

theorem run_rootGrant (ran : state.run commands = .ok after) : after.rootGrant = state.rootGrant :=
  foldlM_keeps (fun _ => True) (·.rootGrant = state.rootGrant)
    (fun _ _ _ _ first same => (step_effect first).rootGrant.trans same) (fun _ _ => trivial) rfl ran

theorem run_old (ran : state.run commands = .ok after) (found : after.grant key = some grant)
    (older : grant.revision ≤ state.revision) : state.grant key = some grant := by
  induction commands generalizing state with
  | nil =>
    obtain rfl := pure_ok.mp ran
    exact found
  | cons command commands ih =>
    obtain ⟨middle,first,rest⟩ := run_cons.mp ran
    have effect := step_effect first
    have reached : grant.revision ≤ middle.revision := by
      rw [effect.revision]
      exact Nat.le_succ_of_le older
    exact effect.old (ih rest reached) older

def Forgets (state : AuthorityState) (commands : List Command) (id : GrantId) : Prop :=
  ∃ done rest middle, commands = done ++ rest ∧ state.run done = .ok middle ∧ middle.grant id = none

theorem Forgets.cons (first : state.step command = .ok middle) (forgets : middle.Forgets commands id) :
    state.Forgets (command :: commands) id := by
  obtain ⟨done,rest,later,same,ran,absent⟩ := forgets
  exact ⟨command :: done,rest,later,by rw [same]; rfl,run_cons.mpr ⟨middle,first,ran⟩,absent⟩

theorem run_origin (sound : state.Sound) (ran : state.run commands = .ok after)
    (other : key ≠ state.rootGrant) (kept : ¬state.Forgets commands key) {new : Grant}
    (found : state.grant key = some grant) (still : after.grant key = some new) :
    new.origin = grant.origin := by
  induction commands generalizing state grant with
  | nil =>
    obtain rfl := pure_ok.mp ran
    cases found.symm.trans still
    rfl
  | cons command commands ih =>
    obtain ⟨middle,first,rest⟩ := run_cons.mp ran
    have effect := step_effect first
    have present : middle.grant key ≠ none := fun absent => kept ⟨[command],commands,middle,rfl,run_cons.mpr ⟨middle,first,rfl⟩,absent⟩
    obtain ⟨between,held⟩ := Option.ne_none_iff_exists'.mp present
    rw [ih (step_sound sound first) rest (by rw [effect.rootGrant]; exact other)
      (fun forgets => kept (forgets.cons first)) held,effect.origin sound other found held]

theorem run_buried (sound : state.Sound) (ran : state.run commands = .ok after) {members : List GrantId}
    (walked : state.lineage id = .ok members) (inside : key ∈ members) (other : key ≠ state.rootGrant)
    (found : state.grant key = some grant) (revoked : grant.revoked = true) :
    state.Forgets commands id ∨ after.lineage id = .ok members ∧ ∃ still, after.grant key = some still ∧ still.revoked = true := by
  induction commands generalizing state grant with
  | nil =>
    obtain rfl := pure_ok.mp ran
    exact .inr ⟨walked,grant,found,revoked⟩
  | cons command commands ih =>
    obtain ⟨middle,first,rest⟩ := run_cons.mp ran
    have effect := step_effect first
    rcases effect.buried sound walked inside other found revoked with absent | ⟨walks,still,held,gone⟩
    · exact .inl ⟨[command],commands,middle,rfl,run_cons.mpr ⟨middle,first,rfl⟩,absent⟩
    · rcases ih (step_sound sound first) rest walks (by rw [effect.rootGrant]; exact other) held gone with
        forgets | buried
      · exact .inl (forgets.cons first)
      · exact .inr buried

end Runs

section Evidence

variable {state : AuthorityState} {id : GrantId}

theorem evidence_members {members : List GrantId} (known : ∀ key ∈ members, state.grant key ≠ none) :
    (members.filterMap fun key => (state.grant key).map fun grant => (key, grant.revision)).map Prod.fst = members := by
  induction members with
  | nil => rfl
  | cons head members ih =>
    obtain ⟨grant,found⟩ := Option.ne_none_iff_exists'.mp (known head List.mem_cons_self)
    rw [List.filterMap_cons,found,Option.map_some,List.map_cons,ih fun key inside => known key (List.mem_cons_of_mem _ inside)]

theorem authorize_ok (accepted : state.authorize actor id permission time = .ok evidence) :
    ∃ members grant, state.liveLineage id time = .ok members ∧ state.grant id = some grant ∧
      grant.spec.subject = actor ∧ permission ∈ grant.spec.permissions ∧
      evidence = members.filterMap fun key => (state.grant key).map fun grant => (key, grant.revision) := by
  simp only [authorize,bind_ok,okOr_ok,rejectIf_ok,not_or,not_not,pure_ok] at accepted
  obtain ⟨members,live,grant,found,-,⟨subject,permitted⟩,rfl⟩ := accepted
  exact ⟨members,grant,live,found,subject,permitted,rfl⟩

theorem authorize_entry (accepted : state.authorize actor id permission time = .ok evidence)
    {entry : GrantId × Revision} (listed : entry ∈ evidence) :
    ∃ grant, state.grant entry.1 = some grant ∧ grant.revision = entry.2 ∧
      permission ∈ grant.spec.permissions ∧ grant.spec.notBefore ≤ max time state.now ∧
      max time state.now < grant.spec.expires := by
  obtain ⟨members,own,live,found,-,permitted,rfl⟩ := authorize_ok accepted
  obtain ⟨key,inside,read⟩ := List.mem_filterMap.mp listed
  obtain ⟨grant,held,rfl⟩ := Option.map_eq_some_iff.mp read
  obtain ⟨again,heldAgain,alive⟩ := (liveLineage_ok.mp live).2 key inside
  cases held.symm.trans heldAgain
  exact ⟨grant,held,rfl,(liveLineage_within live found inside held).permissions permitted,alive.started,alive.unexpired⟩

end Evidence

section Permanence

variable [Outside]

-- What holds between two states of a run, the second reached from the first by these commands.
structure Permanent (early late : AuthorityState) (commands : List Command) : Prop where
  advances : ∀ command after, late.step command = .ok after → late.revision < after.revision
  identical : ∀ key one other, early.grant key = some one → late.grant key = some other →
    one.revision = other.revision → one = other
  evident : ∀ actor id permission time subject key operation instant evidence,
    early.authorize actor id permission time = .ok evidence →
    late.authorize subject key operation instant = .ok evidence →
    ∀ entry ∈ evidence, ∃ grant, early.grant entry.1 = some grant ∧
      late.grant entry.1 = some grant ∧ grant.revision = entry.2
  complete : ∀ key, late.grant key ≠ none → ∃ members, late.lineage key = .ok members ∧
    members.Nodup ∧ members.length ≤ maxDelegationDepth + 1 ∧
    ∀ member ∈ members, late.grant member ≠ none
  placed : ∀ key one other, key ≠ early.rootGrant → ¬early.Forgets commands key →
    early.grant key = some one → late.grant key = some other → other.origin = one.origin
  owned : ∃ root, late.grant early.rootGrant = some root ∧ root.origin.delegates = false
  final : ∀ key grant id members actor permission time evidence, early.grant key = some grant →
    grant.revoked = true → key ≠ early.rootGrant → early.lineage id = .ok members → key ∈ members →
    late.authorize actor id permission time = .ok evidence →
    early.Forgets commands id ∧ ∃ new, late.grant id = some new ∧ early.revision < new.revision
  lawful : ∀ actor id permission time evidence,
    late.authorize actor id permission time = .ok evidence →
    late.lineage id = .ok (evidence.map Prod.fst) ∧ ∀ entry ∈ evidence,
      ∃ grant, late.grant entry.1 = some grant ∧ grant.revision = entry.2 ∧
        permission ∈ grant.spec.permissions ∧ grant.spec.notBefore ≤ max time late.now ∧
        max time late.now < grant.spec.expires
  reserved : ∀ command after, late.step command = .ok after →
    (∀ recovery now, command ≠ .recovery recovery now) →
    after.grant late.rootGrant = late.grant late.rootGrant
  recovered : ∀ recovery now after, late.recover recovery now = .ok after →
    after.grant late.rootGrant = some ⟨late.rootGrant,late.revision + 1,recovery.administrator,
      .node recovery.administrator.subject,false⟩ ∧
    ∀ key grant new members, key ≠ late.rootGrant → late.grant key = some grant →
      late.lineage key = .ok members → (grant.spec.Administrative ∨ late.rootGrant ∈ members) →
      after.grant key = some new → new.revoked = true

variable {early late : AuthorityState} {commands : List Command}

theorem Sound.identical (sound : early.Sound) (ran : early.run commands = .ok late) {key : GrantId}
    {one other : Grant} (found : early.grant key = some one) (foundLate : late.grant key = some other)
    (same : one.revision = other.revision) : one = other := by
  have older := (sound.revisions key one found).2
  rw [same] at older
  cases found.symm.trans (run_old ran foundLate older)
  rfl

theorem Sound.swept {state after : AuthorityState} (sound : state.Sound) {recovery : RecoveryCommand} {now : UnixMillis}
    {revoked : Finset GrantId} (recovered : state.Recovered recovery now revoked after) {key : GrantId}
    {grant new : Grant} {members : List GrantId} (other : key ≠ state.rootGrant) (found : state.grant key = some grant)
    (walked : state.lineage key = .ok members) (mandatory : grant.spec.Administrative ∨ state.rootGrant ∈ members)
    (still : after.grant key = some new) :
    new.revoked = true := by
  have named := sound.named key grant found
  rw [recovered.others key other,found,Option.map_some] at still
  cases still
  unfold retired
  split
  · rfl
  · rename_i settled
    by_contra standing
    have stands : grant.revoked = false := by simpa using standing
    refine settled ⟨?_,stands⟩
    have inside := recovered.swept key grant found stands (mandatory.imp id fun listed => ⟨members,by rw [named]; exact walked,listed⟩)
    rw [named] at inside
    exact inside

theorem evidence_permanent {id : GrantId} {machine : Option Digest} {admin : GrantSpec}
    {credential : Credential} {owner : Outside.Assertion} {now : UnixMillis} {start : AuthorityState}
    (founded : bootstrap id machine admin credential owner now = .ok start) {before : List Command}
    (reached : start.run before = .ok early) (ran : early.run commands = .ok late) :
    Permanent early late commands := by
  have sound : early.Sound := run_sound (bootstrap_ok founded).sound reached
  have soundLate : late.Sound := run_sound sound ran
  constructor
  · intro command after accepted
    rw [(step_effect accepted).revision]
    exact Nat.lt_succ_self _
  · intro key one other found foundLate same
    exact sound.identical ran found foundLate same
  · intro actor id permission time subject key operation instant evidence first second entry listed
    obtain ⟨one,found,read,-⟩ := authorize_entry first listed
    obtain ⟨other,foundLate,readLate,-⟩ := authorize_entry second listed
    rw [sound.identical ran found foundLate (read.trans readLate.symm)] at found
    exact ⟨other,found,foundLate,readLate⟩
  · intro key present
    obtain ⟨members,walked⟩ := soundLate.lineages key present
    obtain ⟨chain,short⟩ := lineage_ok.mp walked
    refine ⟨members,walked,chain.nodup,short,?_⟩
    intro member inside absent
    exact chain.known inside (by
      rw [above,show late.grants.lookup member = none from absent]
      rfl)
  · intro key one other differs kept found foundLate
    exact run_origin sound ran differs kept found foundLate
  · obtain ⟨root,found,-,stands⟩ := soundLate.root
    rw [run_rootGrant ran] at found
    exact ⟨root,found,stands⟩
  · intro key grant id members actor permission time evidence found revoked other walked inside accepted
    rcases run_buried sound ran walked inside other found revoked with forgets | ⟨walks,still,held,gone⟩
    · refine ⟨forgets,?_⟩
      obtain ⟨done,rest,middle,same,begun,absent⟩ := forgets
      obtain ⟨-,new,-,foundNew,-⟩ := authorize_ok accepted
      refine ⟨new,foundNew,?_⟩
      have continued : middle.run rest = .ok late := by
        rw [same,run,List.foldlM_append,bind_ok] at ran
        obtain ⟨again,begunAgain,ends⟩ := ran
        cases begun.symm.trans begunAgain
        exact ends
      by_contra older
      have present := run_old continued foundNew
        ((not_lt.mp older).trans (run_revision begun))
      rw [absent] at present
      cases present
    · obtain ⟨alive,-,live,-⟩ := authorize_ok accepted
      obtain ⟨walksToo,each⟩ := liveLineage_ok.mp live
      cases walks.symm.trans walksToo
      obtain ⟨again,heldAgain,standing⟩ := each key inside
      cases held.symm.trans heldAgain
      have standing := standing.standing
      rw [gone] at standing
      cases standing
  · intro actor id permission time evidence accepted
    refine ⟨?_,fun entry listed => authorize_entry accepted listed⟩
    obtain ⟨members,-,live,-,-,-,rfl⟩ := authorize_ok accepted
    obtain ⟨walked,each⟩ := liveLineage_ok.mp live
    rw [evidence_members fun key inside => ?_]
    · exact walked
    · obtain ⟨grant,found,-⟩ := each key inside
      rw [found]
      exact Option.some_ne_none _
  · intro command after accepted ordinary
    have effect := step_effect accepted
    cases command with
    | grant actor command now => exact effect.root soundLate
    | credential actor command now => exact effect.root soundLate
    | recovery command now => exact absurd rfl (ordinary command now)
  · intro recovery now after accepted
    obtain ⟨revoked,recovered⟩ := recover_ok accepted
    exact ⟨recovered.replaced,fun key grant new members other found walked mandatory still =>
      soundLate.swept recovered other found walked mandatory still⟩

end Permanence

end AuthorityState

namespace Sample

open AuthorityState

theorem evidence_permanent_recovered : letI := outside
    ∃ early late, founding = .ok early ∧ early.run commands = .ok late ∧
      Permanent early late commands := by
  let := outside
  obtain ⟨late,ran⟩ := @exists_ok _ (founding >>= fun start => start.run commands) (by decide +kernel)
  obtain ⟨early,founded,ran⟩ := bind_ok.mp ran
  exact ⟨early,late,founded,ran,evidence_permanent founded (show early.run [] = _ from rfl) ran⟩

-- Recovery replaces the issuer of the root, and an earlier instant is read as the state's own.
theorem root_reissued_and_time_clamped : letI := outside
    ∃ early late one other evidence, founding = .ok early ∧
      early.run [.recovery ⟨device 3 (principal 4) 2,1,admin (principal 4),∅,()⟩ 30] = .ok late ∧
      early.grant (grantId 0) = some one ∧ late.grant (grantId 0) = some other ∧
      other.origin ≠ one.origin ∧
      early.authorize (principal 1) (grantId 0) (permission issueOperation) 0 = .ok evidence ∧
      0 < one.spec.notBefore := by
  let := outside
  have checked : (match founding with
      | .error _ => false
      | .ok early => match early.run
          [.recovery ⟨device 3 (principal 4) 2,1,admin (principal 4),∅,()⟩ 30] with
        | .error _ => false
        | .ok late => match early.grant (grantId 0), late.grant (grantId 0),
            early.authorize (principal 1) (grantId 0) (permission issueOperation) 0 with
          | some one, some other, .ok _ =>
            decide (other.origin ≠ one.origin ∧ 0 < one.spec.notBefore)
          | _, _, _ => false) = true := by decide +kernel
  split at checked
  · cases checked
  rename_i early founded
  split at checked
  · cases checked
  rename_i late ran
  split at checked
  · rename_i one other evidence found foundLate accepted
    obtain ⟨moved,later⟩ := of_decide_eq_true checked
    exact ⟨early,late,one,other,evidence,founded,ran,found,foundLate,moved,accepted,later⟩
  · cases checked

end Sample

end Hellas.Authority
