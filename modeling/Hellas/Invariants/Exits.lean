import Hellas.Invariants.Registry

-- What a close needs to be accepted, beyond what it proves.

namespace Hellas.Kernel

open Guard

section Acceptance

variable [Xet] {hashed : Hashed} {context : Context}

theorem closeCoins_distinct (coinIds : Set.InjOn CoinName.id hashed.coins)
    (covered : ∀ name ∈ (Tx.closeEdge input proof outputs).hashesCoins context.network, name ∈ hashed.coins) :
    ((closeCoins input outputs).map Prod.fst).Nodup := by
  have names : ((Tx.closeEdge input proof outputs).hashesCoins context.network).Nodup := by
    rw [List.nodup_iff_getElem?_ne_getElem?]
    intro first second ordered bound same
    simp only [Tx.hashesCoins,List.length_mapIdx,List.getElem?_mapIdx] at bound same
    rw [List.getElem?_eq_getElem (by omega),List.getElem?_eq_getElem bound] at same
    simp only [Option.map_some,Option.some.injEq,CoinName.payout.injEq] at same
    omega
  have ids : (closeCoins input outputs).map Prod.fst =
      ((Tx.closeEdge input proof outputs).hashesCoins context.network).map CoinName.id := by
    refine List.ext_getElem? fun index => ?_
    simp only [closeCoins,issueCoins,Tx.hashesCoins,List.getElem?_map,List.getElem?_mapIdx,Option.map_map]
    rfl
  rw [ids]
  exact List.Nodup.map_on (fun left found right other same => coinIds (covered left found) (covered right other) same) names

theorem ClosesBy.diff (closed : ClosesBy close context verifier batch proof staged)
    (apart : bondLeaseSlot context.network close.input 1 ≠ bondLeaseSlot context.network close.input 0) :
    ∃ diff : RegistryDiff, diff.mutations = staged.1.toList ++ staged.2.toList := by
  have fits : (staged.1.toList ++ staged.2.toList).length ≤ maxRegistryMutations ∧
      ((staged.1.toList ++ staged.2.toList).map RegistryMutation.id).Nodup := by
    cases closed with
    | mutualClose => simp [noStagedRegistry]
    | timeout =>
      rename_i lease _ _ _ _ _ _ _
      cases lease <;> simp [retiredLease,noStagedRegistry,maxRegistryMutations,apart.symm]
    | freeze =>
      rename_i pending _ _ _ _ _ _
      cases pending <;> simp [retiredContest,oneStaged,maxRegistryMutations]
    | adjudicated => simp [retiredContest,oneStaged,maxRegistryMutations]
  exact ⟨⟨_,fits.1,fits.2⟩,rfl⟩

theorem CloseAccepts.submitted (accepts : CloseAccepts input proof outputs context verifier batch edge total staged)
    (coinIds : Set.InjOn CoinName.id hashed.coins) (slotIds : Set.InjOn SlotName.id hashed.slots)
    (covers : hashed.Covers ⟨context,verifier,.closeEdge input proof outputs⟩) :
    ∃ result, State.apply .acceptAll context verifier batch (.closeEdge input proof outputs) = .ok result := by
  have known : LeaseKnown hashed.slots context.network input :=
    ⟨covers.slots _ (by simp [Tx.hashesSlots,SlotName.about]),
      covers.slots _ (by simp [Tx.hashesSlots,SlotName.about])⟩
  obtain ⟨diff,pushed⟩ := (checkProof_exact.mp accepts.proved).diff (known.apart slotIds)
  obtain ⟨outcome,applied⟩ := accepted_apply (.closed accepts (closeCoins_distinct coinIds covers.coins) pushed)
  exact ⟨_,applied⟩

theorem timeout_accepts (verifier : SigVerifier) (live : batch.edge input = some edge) (opened : edge.OpenedWith terms)
    (commits : terms.timeoutOutputs = some outputs) (leased : timeoutLease terms context batch input = .ok lease)
    (due : TimeoutDue terms lease edge context batch)
    (free : ∀ entry ∈ closeCoins input outputs, batch.coin entry.1 = none) :
    ∃ total staged, CloseAccepts input (.timeout terms none) outputs context verifier batch edge total staged := by
  obtain ⟨⟨total,priced,summed⟩,-⟩ := opened.exits outputs commits
  refine ⟨total,retiredLease context.network input lease,⟨free,live,?_,priced,?_,?_⟩⟩
  · rw [Edge.allows,opened.allowed]
    cases terms with
    | basic =>
      change CloseKindSet.basic.contains .timeout = true
      decide
    | workStakeBond bond =>
      change CloseKindSet.workStakeBond.contains .timeout = true
      decide
    | workPayment payment => cases commits
  · rw [closeCoins,total_issueCoins (CoinId.payout input)]
    exact summed
  · refine checkProof_exact.mpr (.timeout opened.hash.symm leased due commits rfl ?_)
    exact (List.map_id outputs.items).symm

end Acceptance

section Funded

variable [Xet] {hashed : Hashed} {backend : Backend} {seeds : List Genesis} {start : Batch}
  {steps : List Step}

def Taken.Funds (taken : Taken) : Prop :=
  match taken.input.tx with
  | .openEdge .. => taken.Spends
  | _ => True

-- Among funded opens no edge id recurs, not even that of an edge that locks nothing.
theorem Ledger.funded_step (ledger : Ledger hashed seeds past batch) (edgeIds : Set.InjOn Tx.edgeName hashed.edges)
    (covers : hashed.Covers step) (accepted : Accepted step.context step.verifier batch step.tx next)
    (distinct : ((edgesCreated past).map Prod.fst).Nodup) (funds : Taken.Funds ⟨batch,step,next⟩) :
    ((edgesCreated (past ++ [⟨batch,step,next⟩])).map Prod.fst).Nodup := by
  have effect := accepted.edges
  have ids := createsEdges_ids ⟨batch,step,next⟩ effect
  rw [edgesCreated_snoc,List.map_append,ids,List.nodup_append]
  refine ⟨distinct,effect.created_distinct,?_⟩
  rintro id earlier other created rfl
  obtain ⟨⟨_,old⟩,before,rfl⟩ := List.mem_map.mp earlier
  cases submitted : step.tx with
  | closeEdge input proof outputs => simp [submitted,Tx.createsEdges] at created
  | move action => simp [submitted,Tx.createsEdges] at created
  | owner reshape => simp [submitted,Tx.createsEdges] at created
  | openEdge funding terms makerAuth takerAuth =>
    simp only [submitted,Tx.createsEdges,List.mem_singleton] at created
    subst created
    obtain ⟨taken,member,consumed,-⟩ := ledger.reopened edgeIds covers submitted before
    rw [submitted] at accepted
    obtain ⟨coins,debits,diff,accepts,-⟩ := accepted.open_parts
    have live := live_of_named accepts.named accepts.live
    simp only [Taken.Funds,Taken.Spends,submitted] at funds
    rw [List.sum_eq_zero] at funds
    · exact Nat.lt_irrefl 0 funds
    · intro amount found
      obtain ⟨id,used,same⟩ := List.mem_map.mp found
      cases held : batch.coin id with
      | none => simpa [held] using same.symm
      | some coin =>
        rw [held] at same
        have worthless := ledger.barren member consumed live used (ledger.coins.logged id coin held)
        simpa [worthless] using same.symm

theorem Chain.funded (chain : Chain hashed backend seeds start steps) (seedsApart : SeedsApart hashed seeds)
    (coinIds : Set.InjOn CoinName.id hashed.coins) (edgeIds : Set.InjOn Tx.edgeName hashed.edges)
    (funds : ∀ taken ∈ State.trace backend start steps, taken.Funds) :
    ((edgesCreated (State.trace backend start steps)).map Prod.fst).Nodup := by
  refine (Runs.run_history hashed.Covers (motive := fun past batch =>
    Ledger hashed seeds past batch ∧ ((∀ taken ∈ past, Taken.Funds taken) → ((edgesCreated past).map Prod.fst).Nodup))
    ⟨genesis_ledger chain.seeded,fun _ => by simp [edgesCreated]⟩ ?_ steps chain.covered).2 funds
  rintro past before step after covers stepped ⟨ledger,distinct⟩
  have accepted := next_accepted stepped
  refine ⟨ledger.carried seedsApart coinIds edgeIds covers accepted,fun funds => ?_⟩
  rw [List.forall_mem_append,List.forall_mem_singleton] at funds
  exact ledger.funded_step edgeIds covers accepted (distinct funds.1) funds.2

-- The committed timeout is accepted once due exactly when its payout ids are free, and they are in
-- every run whose opens are all funded.
theorem timeout_not_withheld (chain : Chain hashed backend seeds start steps) (seedsApart : SeedsApart hashed seeds)
    (apart : hashed.Apart) {id : EdgeId} {edge : Edge} {terms : Terms} {tx : Tx}
    {context : Context} {verifier : SigVerifier}
    (live : (State.run backend start steps).edge id = some edge)
    (member : terms ∈ hashed.terms) (hash : edge.terms = terms.hash)
    (exit : Tx.timeoutClose id terms = some tx)
    (due : terms.timeout.value ≤ context.blockHeight.value)
    (covers : hashed.Covers ⟨context,verifier,tx⟩) :
    let state := State.run backend start steps
    ((∃ result, State.apply .acceptAll context verifier state tx = .ok result) ↔
      ∀ entry ∈ tx.createsCoins context.network, state.coin entry.1 = none) ∧
    ((∀ taken ∈ State.trace backend start steps, taken.Funds) →
      ∃ result, State.apply .acceptAll context verifier state tx = .ok result) := by
  intro state
  simp only [Tx.timeoutClose,Option.bind_eq_bind,Option.bind_eq_some_iff,Option.pure_def,
    Option.some.injEq] at exit
  obtain ⟨outputs,commits,rfl⟩ := exit
  have whole := chain.whole apart.slots
  have opened := chain.traced.revealed apart.terms live member hash.symm
  have accepted : (∀ entry ∈ closeCoins id outputs, state.coin entry.1 = none) →
      ∃ result, State.apply .acceptAll context verifier state
        (.closeEdge id (.timeout terms none) outputs) = .ok result := by
    intro free
    obtain ⟨⟨lease,read⟩,-⟩ := whole.reads covers.slots (List.mem_singleton.mpr rfl)
    have leased : ∃ lease, timeoutLease terms context state id = .ok lease := by
      unfold timeoutLease
      split
      · exact ⟨lease,mapError_ok.mpr read⟩
      · exact ⟨none,rfl⟩
    obtain ⟨lease,leased⟩ := leased
    obtain ⟨total,staged,accepts⟩ := timeout_accepts verifier live opened commits leased
      (.inr (opened.timeout ▸ due)) free
    exact accepts.submitted apart.coins apart.slots covers
  refine ⟨⟨?_,accepted⟩,fun funds => accepted ?_⟩
  · rintro ⟨⟨outcome,next⟩,applied⟩
    obtain ⟨_,_,_,accepts⟩ := (apply_accepted applied).close_parts
    exact accepts.free
  · intro entry paid
    by_contra taken
    have ledger := chain.ledger seedsApart apart.coins apart.edges
    have spent := ledger.payout_taken seedsApart apart.coins covers.coins paid taken
    have balanced := ledger.edges.balance id
    have once := List.nodup_iff_count_le_one.mp (chain.funded seedsApart apart.coins apart.edges funds) id
    rw [live,Option.toList_some,List.length_singleton] at balanced
    have positive := List.count_pos_iff.mpr spent
    omega

end Funded

namespace Sample

attribute [local instance] checksum

def settled : List Step := contest ++ [settle]

theorem settled_within : settled <+: channel := by
  simp [settled,channel]

theorem settled_funds : ∀ taken ∈ State.trace .acceptAll start settled, taken.Funds := by
  have spends : ∀ taken ∈ State.trace .acceptAll start settled, (match taken.input.tx with
      | .openEdge funding _ _ _ => decide (0 <
        (funding.ids.map fun id => ((taken.before.coin id).map (·.value.toNat)).getD 0).sum)
      | _ => true) = true := by
    decide +kernel
  intro taken member
  have spent := spends taken member
  unfold Taken.Funds Taken.Spends
  cases submitted : taken.input.tx with
  | openEdge funding terms makerAuth takerAuth => simpa [submitted] using spent
  | closeEdge input proof outputs => trivial
  | move action => trivial
  | owner reshape => trivial

theorem timeout_not_withheld_bond :
    Chain hashed .acceptAll seeds start settled ∧ ∃ result, State.apply .acceptAll (context 100) verifier
        (State.run .acceptAll start settled) release.tx = .ok result := by
  have chain := channel_chain.initially settled_within
  have live : ((State.run .acceptAll start settled).edge bondEdge).map Edge.terms =
      some (Terms.workStakeBond bond).hash := by
    decide +kernel
  obtain ⟨edge,held,hash⟩ := Option.map_eq_some_iff.mp live
  have released := channel_covered release (by simp [channel])
  have covers : hashed.Covers ⟨context 100,verifier,release.tx⟩ :=
    ⟨released.terms,released.edges,released.slots,released.coins⟩
  exact ⟨chain,(timeout_not_withheld chain seedsApart ⟨termsIds,edgeIds,slotIds,coinIds⟩ held
    (covers.terms (.workStakeBond bond) (Terms.mem_hashes _))
    hash rfl (by decide) covers).2 settled_funds⟩

-- An edge that costs nothing and locks nothing, opened twice from no coins at all.
def free (height : UInt64) : Context := ⟨network,⟨height⟩,⟨fill 32 0⟩,⟨0,0,0,0⟩⟩
def nothing : Payouts := one (.new provider.owner 0)
def token : Terms := .basic ⟨0⟩ ⟨provider,client⟩ ⟨100⟩ nothing
def tokenEdge : EdgeId := Tx.edgeIdOf ⟨.empty,.empty⟩ token
def openToken (height : UInt64) : Step := ⟨free height,verifier,.openEdge ⟨.empty,.empty⟩ token owner owner⟩
def closeToken : Step := ⟨free 11,verifier,.closeEdge tokenEdge (.mutualClose owner owner) nothing⟩
def replayed : List Step := [openToken 10,closeToken,openToken 12]
def exit : Step := ⟨free 100,verifier,.closeEdge tokenEdge (.timeout token none) nothing⟩

theorem timeout_withheld :
    let hashed := Hashed.of (replayed ++ [exit])
    (Chain hashed .acceptAll [] .empty replayed ∧ SeedsApart hashed [] ∧ hashed.Apart ∧ hashed.Covers exit) ∧
    (State.trace .acceptAll .empty replayed).length = 3 ∧
    Tx.timeoutClose tokenEdge token = some exit.tx ∧
    ((State.run .acceptAll .empty replayed).edge tokenEdge).map Edge.terms = some token.hash ∧
    State.apply .acceptAll exit.context exit.verifier (State.run .acceptAll .empty replayed)
      exit.tx = .error (.outputExists (CoinId.payout tokenEdge 0 provider.owner)) := by
  intro hashed
  have covered : ∀ step ∈ replayed ++ [exit], hashed.Covers step :=
    fun step member => Hashed.of_covers member
  refine ⟨⟨⟨rfl,fun step member => covered step (by simp [member])⟩,by simp [SeedsApart],
    ⟨?_,?_,?_,?_⟩,covered exit (by simp)⟩,by decide +kernel,rfl,by decide +kernel,
    by decide +kernel⟩
  all_goals exact Lists.injOn_listed (by decide +kernel)

end Sample

end Hellas.Kernel
