import Hellas.Invariants.Hashed
import Hellas.Lib.OneUse

-- Ids are hashes of earlier ids. Whatever carries value is created once in the whole run, so nothing
-- that spent value can be submitted again.

namespace Hellas.Kernel

open Guard Words

section Worth

variable [Xet] {input : EdgeId} {proof : Proof} {outputs : Payouts} {context : Context}
  {verifier : SigVerifier} {batch : Batch} {edge : Edge} {total : UInt64}
  {staged : StagedCloseRegistry}

theorem CloseAccepts.total_le (accepts : CloseAccepts input proof outputs context verifier batch edge total staged) :
    total.toNat ≤ edge.locked := by
  have balanced := (EdgeValues.closeValue_exact.mp accepts.priced).2
  simp only [Edge.values] at balanced
  unfold Edge.locked
  omega

theorem CloseAccepts.value_le (accepts : CloseAccepts input proof outputs context verifier batch edge total staged)
    (paid : entry ∈ closeCoins input outputs) :
    entry.2.value.toNat ≤ edge.locked := by
  have share := total_mem (fun entry : CoinId × Coin => entry.2.value) paid
  have summed := accepts.paid
  have bounded := accepts.total_le
  omega

end Worth

section Logs

variable [Xet]

namespace Taken

def createsCoins (taken : Taken) : Coins := taken.input.tx.createsCoins taken.input.context.network

def consumesCoins (taken : Taken) : List CoinId := taken.input.tx.consumesCoins

def createsEdges (taken : Taken) : List (EdgeId × Edge) :=
  taken.input.tx.createsEdges.filterMap fun id => (taken.after.edge id).map fun edge => (id, edge)

def consumesEdges (taken : Taken) : List EdgeId := taken.input.tx.consumesEdges

end Taken

def coinsCreated (seeds : List Genesis) (past : List Taken) : Coins := seedCoins seeds ++ past.flatMap Taken.createsCoins

def coinsConsumed (past : List Taken) : List CoinId := past.flatMap Taken.consumesCoins

def edgesCreated (past : List Taken) : List (EdgeId × Edge) := past.flatMap Taken.createsEdges

def edgesConsumed (past : List Taken) : List EdgeId := past.flatMap Taken.consumesEdges

section Snoc

variable {seeds : List Genesis} {past : List Taken} {taken : Taken}

theorem coinsCreated_snoc : coinsCreated seeds (past ++ [taken]) = coinsCreated seeds past ++ taken.createsCoins := by
  simp [coinsCreated]

omit [Xet] in
theorem coinsConsumed_snoc : coinsConsumed (past ++ [taken]) = coinsConsumed past ++ taken.consumesCoins := by
  simp [coinsConsumed]

theorem edgesCreated_snoc : edgesCreated (past ++ [taken]) = edgesCreated past ++ taken.createsEdges := by
  simp [edgesCreated]

omit [Xet] in
theorem edgesConsumed_snoc : edgesConsumed (past ++ [taken]) = edgesConsumed past ++ taken.consumesEdges := by
  simp [edgesConsumed]

theorem mem_createsEdges : entry ∈ taken.createsEdges ↔
    entry.1 ∈ taken.input.tx.createsEdges ∧ taken.after.edge entry.1 = some entry.2 := by
  simp only [Taken.createsEdges,List.mem_filterMap,Option.map_eq_some_iff]
  constructor
  · rintro ⟨id,named,edge,live,same⟩
    cases same
    exact ⟨named,live⟩
  · rintro ⟨named,live⟩
    exact ⟨entry.1,named,entry.2,live,rfl⟩

theorem createsEdges_ids (taken : Taken) (effect : EdgeEffect taken.before taken.after taken.input.tx.consumesEdges
    taken.input.tx.createsEdges) :
    taken.createsEdges.map Prod.fst = taken.input.tx.createsEdges := by
  have live := effect.created_live
  unfold Taken.createsEdges
  generalize taken.input.tx.createsEdges = ids at live ⊢
  induction ids with
  | nil => rfl
  | cons id rest ih =>
    rw [List.forall_mem_cons] at live
    obtain ⟨edge,found⟩ := Option.ne_none_iff_exists'.mp live.1
    simp only [List.filterMap_cons,found,Option.map_some,List.map_cons,ih live.2]

end Snoc

-- A taken step was accepted, and hashes only what is accounted for.
def Taken.Fits (hashed : Hashed) (taken : Taken) : Prop :=
  Accepted taken.input.context taken.input.verifier taken.before taken.input.tx taken.after ∧ hashed.Covers taken.input

-- Both ledgers balance, and every coin and edge a past step found live is in their logs.
structure Ledger (hashed : Hashed) (seeds : List Genesis) (past : List Taken) (batch : Batch) :
    Prop where
  coins : OneUse (fun coin : Coin => coin.value.toNat) batch.coin (coinsCreated seeds past)
    (coinsConsumed past)
  edges : OneUse Edge.locked batch.edge (edgesCreated past) (edgesConsumed past)
  fits : ∀ taken ∈ past, taken.Fits hashed
  coinsSeen : ∀ taken ∈ past, ∀ id coin, taken.before.coin id = some coin →
    (id, coin) ∈ coinsCreated seeds past
  edgesSeen : ∀ taken ∈ past, ∀ id edge, taken.before.edge id = some edge →
    (id, edge) ∈ edgesCreated past

-- No seed has the id of a coin that the run derives.
def SeedsApart (hashed : Hashed) (seeds : List Genesis) : Prop := ∀ seed ∈ seeds, ∀ name ∈ hashed.coins, seed.id ≠ name.id

theorem seedsApart_of (apart : ∀ seed ∈ seeds, ∀ name ∈ steps.flatMap (fun step => step.tx.hashesCoins step.context.network),
    seed.id ≠ name.id) : SeedsApart (Hashed.of steps) seeds := apart

end Logs

section Names

variable {network : NetworkId}

-- The name under which a transaction creates a coin.
inductive CreatedAs (network : NetworkId) : Tx → CoinName → Prop where
  | payout : CreatedAs network (.closeEdge input proof outputs) (.payout input index owner)
  | reshape : CreatedAs network (.owner reshape) (.reshape network reshape.inputs index owner)

theorem CreatedAs.payout_parts {input : EdgeId} {index : Nat} {owner : Key} (made : CreatedAs network tx (.payout input index owner)) :
    ∃ proof outputs, tx = .closeEdge input proof outputs := by
  cases made
  exact ⟨_,_,rfl⟩

theorem CreatedAs.reshape_parts (made : CreatedAs network tx (.reshape other inputs index owner)) :
    ∃ reshape, tx = .owner reshape ∧ reshape.inputs = inputs := by
  cases made
  exact ⟨_,rfl,rfl⟩

theorem created_named [Xet] (made : entry ∈ tx.createsCoins network) :
    ∃ name ∈ tx.hashesCoins network, CreatedAs network tx name ∧ entry.1 = name.id := by
  cases tx with
  | openEdge funding terms makerAuth takerAuth => cases made
  | move action => cases made
  | closeEdge input proof outputs =>
    obtain ⟨index,payout,found,same⟩ := mem_issueCoins.mp made
    refine ⟨.payout input index payout.owner,?_,.payout,by rw [same]; rfl⟩
    exact List.mem_iff_getElem?.mpr ⟨index,by simp [Tx.hashesCoins,found]⟩
  | owner reshape =>
    obtain ⟨index,payout,found,same⟩ := mem_issueCoins.mp made
    refine ⟨.reshape network reshape.inputs index payout.owner,?_,.reshape,by rw [same]; rfl⟩
    exact List.mem_iff_getElem?.mpr ⟨index,by simp [Tx.hashesCoins,found]⟩

end Names

section Inversion

variable [Xet] {context : Context} {verifier : SigVerifier} {batch next : Batch}

theorem Accepted.close_parts (accepted : Accepted context verifier batch (.closeEdge input proof outputs) next) :
    ∃ edge total staged, CloseAccepts input proof outputs context verifier batch edge total staged := by
  cases accepted with
  | closed accepts => exact ⟨_,_,_,accepts⟩

theorem Accepted.reshape_parts (accepted : Accepted context verifier batch (.owner reshape) next) :
    ∃ coins owner held, ReshapeAccepts reshape context verifier batch coins owner held := by
  cases accepted with
  | reshaped accepts => exact ⟨_,_,_,accepts⟩

theorem Accepted.open_parts (accepted : Accepted context verifier batch (.openEdge funding terms makerAuth takerAuth) next) :
    ∃ coins debits diff, OpenAccepts funding terms makerAuth takerAuth context verifier batch coins
      debits diff ∧ next.edge (edgeId funding terms.hash) = some debits.edge := by
  cases accepted with
  | opened accepts => exact ⟨_,_,_,accepts,Finmap.lookup_insert _⟩

theorem Accepted.response_parts (accepted : Accepted context verifier batch (.move (.respondPaymentClose response)) next) :
    ∃ edge record, ResponseAccepts response context verifier batch edge record := by
  cases accepted with
  | responded accepts => exact ⟨_,_,accepts⟩

theorem ReshapeAccepts.worth {reshape : Reshape} {coins : Coins} {owner : Key} {held : UInt64}
    (accepts : ReshapeAccepts reshape context verifier batch coins owner held)
    (issues : reshape.outputs.items ≠ []) : ∃ entry ∈ coins, 0 < entry.2.value.toNat := by
  obtain ⟨first,member⟩ := List.exists_mem_of_ne_nil _ issues
  have checked := accepts.issues first member
  simp only [checkReshapeOutput,bind_ok,rejectIf_ok,← UInt64.toNat_inj,UInt64.toNat_zero] at checked
  obtain ⟨_,nonzero,-⟩ := checked
  have share := total_mem Payout.value member
  have issued := accepts.issued
  have consumed := accepts.consumed
  exact total_pos (by omega)

end Inversion

namespace Ledger

variable [Xet] {hashed : Hashed} {seeds : List Genesis} {past : List Taken} {batch next : Batch}
  {step : Step}

variable {coin : Coin} {taken : Taken} {edge : Edge} {input : EdgeId} {proof : Proof}
  {outputs : Payouts} {coins : Coins} {funding : Funding} {terms : Terms}
  {makerAuth takerAuth : PartyAuth}

variable (ledger : Ledger hashed seeds past batch) (seedsApart : SeedsApart hashed seeds)
  (coinIds : Set.InjOn CoinName.id hashed.coins) (edgeIds : Set.InjOn Tx.edgeName hashed.edges)
  (covers : hashed.Covers step) (accepted : Accepted step.context step.verifier batch step.tx next)

include ledger

theorem coins_named {id : CoinId} (made : (id, coin) ∈ coinsCreated seeds past) :
    (∃ seed ∈ seeds, seed.id = id) ∨
      ∃ taken ∈ past, (id, coin) ∈ taken.createsCoins ∧ ∃ name ∈ hashed.coins,
        CreatedAs taken.input.context.network taken.input.tx name ∧ id = name.id := by
  rcases List.mem_append.mp made with seeded | later
  · obtain ⟨seed,member,same⟩ := List.mem_map.mp seeded
    cases same
    exact .inl ⟨seed,member,rfl⟩
  · obtain ⟨taken,member,created⟩ := List.mem_flatMap.mp later
    obtain ⟨name,found,as,same⟩ := created_named created
    exact .inr ⟨taken,member,created,name,(ledger.fits taken member).2.coins name found,as,same⟩

theorem edge_reused (member : taken ∈ past) {id : EdgeId} {old : Edge}
    (closed : id ∈ taken.consumesEdges) (live : batch.edge id = some edge) (earlier : taken.before.edge id = some old) :
    edge.locked = 0 ∧ old.locked = 0 := by
  have spent : id ∈ edgesConsumed past := List.mem_flatMap.mpr ⟨taken,member,closed⟩
  exact ⟨ledger.edges.reused spent live (ledger.edges.logged _ _ live),
    ledger.edges.reused spent live (ledger.edgesSeen taken member _ _ earlier)⟩

theorem coin_reused (member : taken ∈ past) {id : CoinId}
    (consumed : id ∈ taken.consumesCoins) (live : batch.coin id = some coin) {other : Coin}
    (made : (id, other) ∈ coinsCreated seeds past) : other.value.toNat = 0 :=
  ledger.coins.reused (List.mem_flatMap.mpr ⟨taken,member,consumed⟩) live made

theorem close_recurs {total : UInt64}
    (accepts : CloseAccepts input proof outputs step.context step.verifier batch edge total staged)
    (paid : entry ∈ closeCoins input outputs) (member : taken ∈ past) {old : Coin}
    (made : (entry.1, old) ∈ taken.createsCoins) (same : taken.input.tx = .closeEdge input otherProof otherOutputs) :
    entry.2.value.toNat = 0 ∧ old.value.toNat = 0 := by
  have closed := (ledger.fits taken member).1
  rw [same] at closed
  obtain ⟨before,sum,retired,earlier⟩ := closed.close_parts
  have consumes : input ∈ taken.consumesEdges := by simp [Taken.consumesEdges,same,Tx.consumesEdges]
  obtain ⟨worthless,barren⟩ := ledger.edge_reused member consumes accepts.live earlier.live
  have first := accepts.value_le paid
  rw [Taken.createsCoins,same] at made
  have second := earlier.value_le made
  constructor
  · omega
  · change old.value.toNat ≤ _ at second
    omega

theorem reshape_recurs (accepts : ReshapeAccepts reshape step.context step.verifier batch coins owner held)
    (issues : reshape.outputs.items ≠ []) (member : taken ∈ past) {other : Reshape}
    (same : taken.input.tx = .owner other) (inputs : other.inputs = reshape.inputs) : False := by
  obtain ⟨entry,found,worth⟩ := accepts.worth issues
  have consumed : entry.1 ∈ taken.consumesCoins := by
    simp only [Taken.consumesCoins,same,Tx.consumesCoins,inputs,← accepts.named]
    exact List.mem_map_of_mem found
  have live := accepts.live entry found
  have worthless := ledger.coin_reused member consumed live (ledger.coins.logged _ _ live)
  omega

include seedsApart coinIds covers accepted in
theorem coin_recurs (made : entry ∈ step.tx.createsCoins step.context.network) {old : Coin}
    (before : (entry.1, old) ∈ coinsCreated seeds past) :
    entry.2.value.toNat = 0 ∧ old.value.toNat = 0 := by
  obtain ⟨name,found,as,same⟩ := created_named made
  have hashedName := covers.coins name found
  rcases ledger.coins_named before with ⟨seed,seeded,seedId⟩ | ⟨taken,member,created,other,otherName,otherAs,otherId⟩
  · exact absurd (seedId.trans same) (seedsApart seed seeded name hashedName)
  · have clash : name = other := coinIds hashedName otherName (same.symm.trans otherId)
    subst clash
    cases name with
    | payout input index owner =>
      obtain ⟨proof,outputs,now⟩ := as.payout_parts
      obtain ⟨otherProof,otherOutputs,earlier⟩ := otherAs.payout_parts
      rw [now] at accepted made
      obtain ⟨edge,total,staged,accepts⟩ := accepted.close_parts
      exact ledger.close_recurs accepts made member created earlier
    | reshape network inputs index owner =>
      obtain ⟨reshape,now,reused⟩ := as.reshape_parts
      obtain ⟨other,earlier,otherReused⟩ := otherAs.reshape_parts
      rw [now] at accepted made
      obtain ⟨coins,key,held,accepts⟩ := accepted.reshape_parts
      refine (ledger.reshape_recurs accepts ?_ member earlier (otherReused.trans reused.symm)).elim
      intro empty
      simp [Tx.createsCoins,Reshape.outputCoins,issueCoins,empty] at made

include edgeIds covers in
theorem reopened (submitted : step.tx = .openEdge funding terms makerAuth takerAuth)
    (before : (edgeId funding terms.hash, old) ∈ edgesCreated past) :
    ∃ taken ∈ past, taken.consumesCoins = funding.ids ∧ (0 < old.locked →
      ∃ id ∈ funding.ids, ∃ coin, taken.before.coin id = some coin ∧ 0 < coin.value.toNat) := by
  obtain ⟨taken,member,created⟩ := List.mem_flatMap.mp before
  obtain ⟨named,found⟩ := mem_createsEdges.mp created
  have fits := ledger.fits taken member
  cases earlier : taken.input.tx with
  | closeEdge input proof outputs => simp [earlier,Tx.createsEdges] at named
  | move action => simp [earlier,Tx.createsEdges] at named
  | owner reshape => simp [earlier,Tx.createsEdges] at named
  | openEdge otherFunding otherTerms otherMaker otherTaker =>
    simp only [earlier,Tx.createsEdges,List.mem_singleton] at named
    have here := covers.edges (funding, terms.hash) (by simp [submitted,Tx.hashesEdges])
    have there := fits.2.edges (otherFunding, otherTerms.hash) (by simp [earlier,Tx.hashesEdges])
    obtain ⟨rfl,sameHash⟩ := Prod.mk.inj (edgeIds here there named)
    have opened := fits.1
    rw [earlier] at opened
    obtain ⟨spent,debits,diff,accepts,result⟩ := opened.open_parts
    rw [← sameHash,found] at result
    cases result
    refine ⟨taken,member,by simp [Taken.consumesCoins,earlier,Tx.consumesCoins],fun worth => ?_⟩
    obtain ⟨entry,used,positive⟩ := accepts.funded worth
    exact ⟨entry.1,accepts.named ▸ List.mem_map_of_mem used,entry.2,accepts.live entry used,positive⟩

theorem barren (member : taken ∈ past) {ids : List CoinId}
    (consumed : taken.consumesCoins = ids) (live : ∀ id ∈ ids, batch.coin id ≠ none) {id : CoinId}
    (used : id ∈ ids) (made : (id, coin) ∈ coinsCreated seeds past) : coin.value.toNat = 0 := by
  obtain ⟨current,held⟩ := Option.ne_none_iff_exists'.mp (live id used)
  exact ledger.coin_reused member (consumed ▸ used) held made

include edgeIds covers in
theorem edge_recurs (submitted : step.tx = .openEdge funding terms makerAuth takerAuth)
    (accepts : OpenAccepts funding terms makerAuth takerAuth step.context step.verifier batch coins debits diff)
    {old : Edge} (before : (edgeId funding terms.hash, old) ∈ edgesCreated past) :
    debits.edge.locked = 0 ∧ old.locked = 0 := by
  obtain ⟨taken,member,consumed,funded⟩ := ledger.reopened edgeIds covers submitted before
  have live := live_of_named accepts.named accepts.live
  constructor
  · apply Nat.eq_zero_of_not_pos
    intro worth
    obtain ⟨entry,used,positive⟩ := accepts.funded worth
    have worthless := ledger.barren member consumed live (accepts.named ▸ List.mem_map_of_mem used)
      (ledger.coins.logged _ _ (accepts.live entry used))
    omega
  · apply Nat.eq_zero_of_not_pos
    intro worth
    obtain ⟨id,used,coin,held,positive⟩ := funded worth
    have worthless := ledger.barren member consumed live used (ledger.coinsSeen taken member _ _ held)
    omega

include seedsApart coinIds in
theorem payout_taken (covered : ∀ name ∈ (Tx.closeEdge input proof outputs).hashesCoins network, name ∈ hashed.coins)
    (paid : entry ∈ closeCoins input outputs) (taken : batch.coin entry.1 ≠ none) :
    input ∈ edgesConsumed past := by
  obtain ⟨index,payout,found,same⟩ := mem_issueCoins.mp paid
  have derived : CoinName.payout input index payout.owner ∈ hashed.coins :=
    covered _ (List.mem_iff_getElem?.mpr ⟨index,by simp [Tx.hashesCoins,found]⟩)
  obtain ⟨coin,held⟩ := Option.ne_none_iff_exists'.mp taken
  rw [same] at held
  rcases ledger.coins_named (ledger.coins.logged _ _ held) with ⟨seed,seeded,seedId⟩ | ⟨earlier,member,-,name,otherName,as,otherId⟩
  · exact absurd seedId (seedsApart seed seeded _ derived)
  · cases coinIds derived otherName otherId
    obtain ⟨otherProof,otherOutputs,closed⟩ := as.payout_parts
    exact List.mem_flatMap.mpr ⟨earlier,member,by
      simp [Taken.consumesEdges,closed,Tx.consumesEdges]⟩

include seedsApart coinIds in
theorem payout_free (covered : ∀ name ∈ (Tx.closeEdge input proof outputs).hashesCoins network, name ∈ hashed.coins)
    (live : batch.edge input = some edge) (worth : 0 < edge.locked) :
    ∀ entry ∈ closeCoins input outputs, batch.coin entry.1 = none := by
  intro entry paid
  by_contra taken
  have spent := ledger.payout_taken seedsApart coinIds covered paid taken
  have worthless := ledger.edges.reused spent live (ledger.edges.logged _ _ live)
  omega

include edgeIds covers accepted in
theorem edge_gone {id : EdgeId} {old : Edge} (made : (id, old) ∈ edgesCreated past) (worth : 0 < old.locked) (gone : batch.edge id = none) :
    next.edge id = none := by
  cases found : next.edge id with
  | none => rfl
  | some edge =>
    rcases accepted.edge_origin found with ⟨live,-⟩ | ⟨funding,terms,makerAuth,takerAuth,coins,debits,diff,submitted,same,-,accepts⟩
    · rw [gone] at live
      cases live
    · rw [same] at made
      have worthless := (ledger.edge_recurs edgeIds covers submitted accepts made).2
      omega

include seedsApart coinIds covers accepted in
theorem coins_step :
    OneUse (fun coin : Coin => coin.value.toNat) next.coin (coinsCreated seeds (past ++ [⟨batch,step,next⟩]))
      (coinsConsumed (past ++ [⟨batch,step,next⟩])) := by
  have effect := accepted.coins
  rw [coinsCreated_snoc,coinsConsumed_snoc]
  have cleared := ledger.coins.consume effect.consumed_distinct effect.consumed_live (fun _ => rfl)
  refine cleared.create effect.created_distinct ?_ ?_ effect.created_live effect.others
  · intro entry made
    rw [effect.created_free entry made,ite_self]
  · intro entry made old before
    exact ledger.coin_recurs seedsApart coinIds covers accepted made before

include edgeIds covers accepted in
theorem edges_step :
    OneUse Edge.locked next.edge (edgesCreated (past ++ [⟨batch,step,next⟩])) (edgesConsumed (past ++ [⟨batch,step,next⟩])) := by
  have effect := accepted.edges
  have ids := createsEdges_ids ⟨batch,step,next⟩ effect
  rw [edgesCreated_snoc,edgesConsumed_snoc]
  have cleared := ledger.edges.consume effect.consumed_distinct effect.consumed_live (fun _ => rfl)
  refine cleared.create (ids ▸ effect.created_distinct) ?_ ?_ ?_ ?_
  · intro entry made
    rw [effect.created_free _ (mem_createsEdges.mp made).1,ite_self]
  · intro entry made old before
    obtain ⟨created,live⟩ := mem_createsEdges.mp made
    rcases accepted.edge_origin live with ⟨old,-⟩ | ⟨funding,terms,makerAuth,takerAuth,coins,debits,diff,submitted,same,value,accepts⟩
    · rw [effect.created_free _ created] at old
      cases old
    · rw [value]
      rw [same] at before
      exact ledger.edge_recurs edgeIds covers submitted accepts before
  · intro entry made
    exact (mem_createsEdges.mp made).2
  · intro id absent
    rw [ids] at absent
    exact effect.others id absent

include seedsApart coinIds edgeIds covers accepted in
theorem carried : Ledger hashed seeds (past ++ [⟨batch,step,next⟩]) next where
  coins := ledger.coins_step seedsApart coinIds covers accepted
  edges := ledger.edges_step edgeIds covers accepted
  fits := by
    rw [List.forall_mem_append,List.forall_mem_singleton]
    exact ⟨ledger.fits,accepted,covers⟩
  coinsSeen := by
    rw [List.forall_mem_append,List.forall_mem_singleton,coinsCreated_snoc]
    refine ⟨fun taken member id coin live => ?_,fun id coin live => ?_⟩
    · exact List.mem_append_left _ (ledger.coinsSeen taken member id coin live)
    · exact List.mem_append_left _ (ledger.coins.logged id coin live)
  edgesSeen := by
    rw [List.forall_mem_append,List.forall_mem_singleton,edgesCreated_snoc]
    refine ⟨fun taken member id edge live => ?_,fun id edge live => ?_⟩
    · exact List.mem_append_left _ (ledger.edgesSeen taken member id edge live)
    · exact List.mem_append_left _ (ledger.edges.logged id edge live)

end Ledger

section Runs

variable [Xet] {hashed : Hashed} {backend : Backend} {seeds : List Genesis} {start : Batch}
  {steps : List Step}

-- A run from genesis, with everything it hashes accounted for.
structure Chain (hashed : Hashed) (backend : Backend) (seeds : List Genesis) (start : Batch)
    (steps : List Step) : Prop where
  seeded : State.genesis backend .empty seeds = .ok start
  covered : ∀ step ∈ steps, hashed.Covers step

theorem genesis_ledger (seeded : State.genesis backend .empty seeds = .ok start) : Ledger hashed seeds [] start := by
  obtain ⟨⟨distinct,-⟩,same⟩ := genesis_parts seeded
  subst same
  refine ⟨?_,?_,by simp,by simp,by simp⟩
  · rw [coinsCreated,List.flatMap_nil,List.append_nil]
    refine OneUse.initial distinct (fun entry member => ?_) (fun id absent => ?_)
    · exact Slots.lookup_insertAll_mem distinct member
    · exact (Slots.lookup_insertAll_notMem absent).trans (Finmap.lookup_empty id)
  · exact OneUse.initial List.nodup_nil (by simp [edgesCreated])
      (fun id _ => Finmap.lookup_empty id)

namespace Chain

theorem ledger (chain : Chain hashed backend seeds start steps) (seedsApart : SeedsApart hashed seeds)
    (coinIds : Set.InjOn CoinName.id hashed.coins) (edgeIds : Set.InjOn Tx.edgeName hashed.edges) :
    Ledger hashed seeds (State.trace backend start steps) (State.run backend start steps) :=
  Runs.run_history hashed.Covers (motive := Ledger hashed seeds) (genesis_ledger chain.seeded)
    (fun _ _ _ _ covers stepped ledger => ledger.carried seedsApart coinIds edgeIds covers (next_accepted stepped))
    steps chain.covered

theorem initially (chain : Chain hashed backend seeds start steps) (within : early <+: steps) :
    Chain hashed backend seeds start early where
  seeded := chain.seeded
  covered step member := chain.covered step (within.subset member)

end Chain

variable {early : List Taken} {batch : Batch}

theorem coinsCreated_grows (within : early <+: late) : coinsCreated seeds early <+: coinsCreated seeds late := by
  obtain ⟨rest,same⟩ := within
  exact ⟨rest.flatMap Taken.createsCoins,by simp [coinsCreated,← same]⟩

theorem edgesCreated_grows (within : early <+: late) : edgesCreated early <+: edgesCreated late := by
  obtain ⟨rest,same⟩ := within
  exact ⟨rest.flatMap Taken.createsEdges,by simp [edgesCreated,← same]⟩

-- The steps that use up value: an open of positive funding, a reshape that issues something, a close
-- of an edge that locks anything.
def Taken.Spends (taken : Taken) : Prop :=
  match taken.input.tx with
  | .openEdge funding _ _ _ => 0 < (funding.ids.map fun id => ((taken.before.coin id).map (·.value.toNat)).getD 0).sum
  | .owner reshape => reshape.outputs.items ≠ []
  | .closeEdge input _ _ => ∃ edge, taken.before.edge input = some edge ∧ 0 < edge.locked
  | .move _ => False

theorem Ledger.spends {past : List Taken} (ledger : Ledger hashed seeds past batch) {taken : Taken}
    (member : taken ∈ past) (spends : taken.Spends) :
    (∃ id coin, (id, coin) ∈ coinsCreated seeds past ∧ 0 < coin.value.toNat ∧ id ∈ taken.consumesCoins) ∨
    ∃ id edge, (id, edge) ∈ edgesCreated past ∧ 0 < edge.locked ∧ id ∈ taken.consumesEdges := by
  have accepted := (ledger.fits taken member).1
  unfold Taken.Spends at spends
  cases submitted : taken.input.tx with
  | openEdge funding terms makerAuth takerAuth =>
    simp only [submitted] at spends
    obtain ⟨id,used,worth⟩ : ∃ id ∈ funding.ids, ((taken.before.coin id).map (·.value.toNat)).getD 0 ≠ 0 := by
      by_contra barren
      rw [List.sum_eq_zero] at spends
      · exact Nat.lt_irrefl 0 spends
      · intro amount found
        obtain ⟨id,used,same⟩ := List.mem_map.mp found
        by_contra worth
        exact barren ⟨id,used,by rwa [same]⟩
    cases held : taken.before.coin id with
    | none => simp [held] at worth
    | some coin =>
      simp only [held,Option.map_some,Option.getD_some] at worth
      exact .inl ⟨id,coin,ledger.coinsSeen taken member id coin held,Nat.pos_of_ne_zero worth,
        by simpa [Taken.consumesCoins,submitted,Tx.consumesCoins] using used⟩
  | owner reshape =>
    rw [submitted] at spends accepted
    obtain ⟨coins,owner,held,accepts⟩ := accepted.reshape_parts
    obtain ⟨entry,used,worth⟩ := accepts.worth spends
    refine .inl ⟨entry.1,entry.2,ledger.coinsSeen taken member _ _ (accepts.live entry used),worth,?_⟩
    simp only [Taken.consumesCoins,submitted,Tx.consumesCoins,← accepts.named]
    exact List.mem_map_of_mem used
  | closeEdge input proof outputs =>
    rw [submitted] at spends
    obtain ⟨edge,live,worth⟩ := spends
    exact .inr ⟨input,edge,ledger.edgesSeen taken member _ _ live,worth,
      by simp [Taken.consumesEdges,submitted,Tx.consumesEdges]⟩
  | move action =>
    rw [submitted] at spends
    exact spends.elim

theorem Ledger.no_replay {past : List Taken} (ledger : Ledger hashed seeds past batch) :
    past.Pairwise fun earlier later => earlier.Spends → later.input.tx ≠ earlier.input.tx := by
  rw [List.pairwise_iff_forall_sublist]
  intro earlier later ordered spends same
  have member : earlier ∈ past := ordered.subset List.mem_cons_self
  rcases ledger.spends member spends with ⟨id,coin,made,worth,used⟩ | ⟨id,edge,made,worth,used⟩
  · have again : id ∈ later.consumesCoins := by rwa [Taken.consumesCoins,same]
    have twice := Lists.count_twice ordered used again
    have once := ledger.coins.consumed_le made worth
    unfold coinsConsumed at once
    omega
  · have again : id ∈ later.consumesEdges := by rwa [Taken.consumesEdges,same]
    have twice := Lists.count_twice ordered used again
    have once := ledger.edges.consumed_le made worth
    unfold edgesConsumed at once
    omega

-- Whatever is ever live with value is created once in the whole run, and no step that used up value
-- is accepted again under any later context.
theorem value_created_once (chain : Chain hashed backend seeds start steps) (seedsApart : SeedsApart hashed seeds)
    (coinIds : Set.InjOn CoinName.id hashed.coins) (edgeIds : Set.InjOn Tx.edgeName hashed.edges) :
    (∀ early, early <+: steps → ∀ id coin, (State.run backend start early).coin id = some coin → 0 < coin.value.toNat →
        ((coinsCreated seeds (State.trace backend start steps)).map Prod.fst).count id = 1) ∧
    (∀ early, early <+: steps → ∀ id edge, (State.run backend start early).edge id = some edge → 0 < edge.locked →
        ((edgesCreated (State.trace backend start steps)).map Prod.fst).count id = 1) ∧
    (State.trace backend start steps).Pairwise fun earlier later => earlier.Spends → later.input.tx ≠ earlier.input.tx := by
  have whole := chain.ledger seedsApart coinIds edgeIds
  refine ⟨?_,?_,whole.no_replay⟩
  · intro early within id coin live worth
    have before := (chain.initially within).ledger seedsApart coinIds edgeIds
    have made := (coinsCreated_grows (Runs.trace_grows within)).subset
      (before.coins.logged id coin live)
    exact whole.coins.once id coin made worth
  · intro early within id edge live worth
    have before := (chain.initially within).ledger seedsApart coinIds edgeIds
    have made := (edgesCreated_grows (Runs.trace_grows within)).subset
      (before.edges.logged id edge live)
    exact whole.edges.once id edge made worth

end Runs

def occurrences (happens : Tx → Bool) (past : List Taken) : Nat := past.countP fun taken => happens taken.input.tx

theorem occurrences_snoc {happens : Tx → Bool} :
    occurrences happens (past ++ [taken]) = occurrences happens past + if happens taken.input.tx = true then 1 else 0 := by
  simp [occurrences,List.countP_append,List.countP_singleton]

-- What happens to an edge of worth at most once: it leaves a mark, and the mark stays until the edge
-- is gone, which is for good.
structure Happened [Xet] (id : EdgeId) (happens : Tx → Bool) (Mark : Batch → Prop)
    (past : List Taken) (batch : Batch) : Prop where
  single : occurrences happens past = 1
  valuable : ∃ edge, (id, edge) ∈ edgesCreated past ∧ 0 < edge.locked
  held : Mark batch ∨ batch.edge id = none

def Once [Xet] (id : EdgeId) (happens : Tx → Bool) (Mark : Batch → Prop) (past : List Taken) (batch : Batch) : Prop :=
  0 < occurrences happens past → Happened id happens Mark past batch

namespace Once

variable [Xet] {id : EdgeId} {happens : Tx → Bool} {Mark : Batch → Prop} {hashed : Hashed}
  {seeds : List Genesis} {past : List Taken} {batch next : Batch} {step : Step}

theorem initial : Once id happens Mark [] batch := by
  intro positive
  cases positive

theorem at_most (once : Once id happens Mark past batch) : occurrences happens past ≤ 1 := by
  by_contra twice
  have single := (once (by omega)).single
  omega

theorem fresh (once : Once id happens Mark past batch) (unmarked : ¬Mark batch)
    (live : batch.edge id ≠ none) : occurrences happens past = 0 := by
  by_contra happened
  rcases (once (Nat.pos_of_ne_zero happened)).held with marked | gone
  · exact unmarked marked
  · exact live gone

theorem carried (once : Once id happens Mark past batch) (ledger : Ledger hashed seeds past batch)
    (edgeIds : Set.InjOn Tx.edgeName hashed.edges) (covers : hashed.Covers step)
    (accepted : Accepted step.context step.verifier batch step.tx next)
    (takes : happens step.tx = true → ¬Mark batch ∧ Mark next ∧ ∃ edge, batch.edge id = some edge ∧ 0 < edge.locked)
    (keeps : Mark batch → Mark next ∨ next.edge id = none) :
    Once id happens Mark (past ++ [⟨batch,step,next⟩]) next := by
  intro positive
  rw [occurrences_snoc] at positive
  by_cases now : happens step.tx = true
  · obtain ⟨unmarked,marked,edge,live,worth⟩ := takes now
    have first := once.fresh unmarked (by simp [live])
    refine ⟨?_,⟨edge,?_,worth⟩,.inl marked⟩
    · rw [occurrences_snoc,first,if_pos now]
    · rw [edgesCreated_snoc]
      exact List.mem_append_left _ (ledger.edges.logged id edge live)
  · rw [if_neg now] at positive
    obtain ⟨single,⟨edge,made,worth⟩,held⟩ := once positive
    refine ⟨?_,⟨edge,?_,worth⟩,?_⟩
    · rw [occurrences_snoc,single,if_neg now]
    · rw [edgesCreated_snoc]
      exact List.mem_append_left _ made
    · rcases held with marked | gone
      · exact keeps marked
      · exact .inr (ledger.edge_gone edgeIds covers accepted made worth gone)

end Once

namespace Sample

attribute [local instance] checksum

def hashed : Hashed := Hashed.of channel

theorem channel_covered : ∀ step ∈ channel, hashed.Covers step := fun _ member => Hashed.of_covers member

theorem channel_chain : Chain hashed .acceptAll seeds start channel where
  seeded := seeds_start
  covered := channel_covered

theorem seedsApart : SeedsApart hashed seeds := seedsApart_of (by decide +kernel)

theorem coinIds : Set.InjOn CoinName.id hashed.coins := Lists.injOn_listed (by decide +kernel)

theorem edgeIds : Set.InjOn Tx.edgeName hashed.edges := Lists.injOn_listed (by decide +kernel)

theorem value_created_once_channel :
    Chain hashed .acceptAll seeds start channel ∧
      ((coinsCreated seeds (State.trace .acceptAll start channel)).map Prod.fst).count (CoinId.genesis 0) = 1 := by
  refine ⟨channel_chain,(value_created_once channel_chain seedsApart coinIds edgeIds).1 [] List.nil_prefix
    _ ⟨provider.owner,none,1000⟩ ?_ (by decide)⟩
  decide +kernel

end Sample

end Hellas.Kernel
