import Hellas.Invariants.Authority

-- A key that signs nothing keeps its coins in the hands it left them in.

namespace Hellas.Kernel

open Guard

def PartyKeys.Guarded (key : Key) (delegates : Set Key) (party : PartyKeys) : Prop :=
  party.owner = key → ∀ delegate, party.payoutDelegate = some delegate → delegate ∈ delegates

-- A bond pays its maker alone, so nothing is asked of the taker it names.
def Terms.Guarded (key : Key) (delegates : Set Key) (terms : Terms) : Prop :=
  ∀ party : Party, (terms.isWorkBond = true → party = .maker) → (party.keysOf terms.parties).Guarded key delegates

-- The key's coins carry none but these delegates, and no live edge can issue it another.
structure Confined [Xet] (key : Key) (delegates : Set Key) (known : Set Terms) (batch : Batch) :
    Prop where
  coins : ∀ id coin, batch.coin id = some coin → coin.owner = key →
    ∀ delegate, coin.delegate = some delegate → delegate ∈ delegates
  edges : ∀ id edge, batch.edge id = some edge → ∃ terms ∈ known, edge.OpenedWith terms ∧
    terms.Guarded key delegates

theorem PartyKeys.Guarded.pays {key : Key} {party : PartyKeys} (guarded : party.Guarded key delegates) {payout : Payout} {signed : Bool}
    (destined : party.isDestination payout signed = true) (owned : payout.owner = key)
    {delegate : Key} (delegated : payout.delegate = some delegate) : delegate ∈ delegates := by
  have same : payout = party.payout payout.value signed := beq_iff_eq.mp destined
  rw [same] at owned delegated
  cases signed with
  | true => cases delegated
  | false => exact guarded owned delegate delegated

section Steps

variable [Xet]

theorem Confined.traced (confined : Confined key delegates known batch) : batch.Traced known := by
  intro id edge live
  obtain ⟨terms,member,opened,-⟩ := confined.edges id edge live
  exact ⟨terms,member,opened⟩

theorem Confined.revealed (confined : Confined key delegates known batch)
    (injective : Set.InjOn Terms.hash known) {id : EdgeId} {edge : Edge}
    (live : batch.edge id = some edge) (member : terms ∈ known) (bound : terms.hash = edge.terms) :
    terms.Guarded key delegates := by
  obtain ⟨opened,found,origin,guarded⟩ := confined.edges id edge live
  have same : opened = terms := injective found member (origin.hash.symm.trans bound.symm)
  rwa [same] at guarded

theorem OpenAccepts.maker_funded (accepts : OpenAccepts funding terms makerAuth takerAuth context verifier batch coins debits
      diff) (work : terms.isBasic = false) : ∃ entry, entry ∈ coins.take funding.makerLen := by
  have funded : (FundingShape.of funding).maker = true := by
    have profile := accepts.profile
    cases terms with
    | basic => cases work
    | workStakeBond bond =>
      simp only [checkWorkProfileOpen,bind_ok,rejectIf_ok,Bool.not_eq_false] at profile
      obtain ⟨_,_,_,funded,-⟩ := profile
      exact funded
    | workPayment payment =>
      simp only [checkWorkProfileOpen,bind_ok,rejectIf_ok,Bool.not_eq_false] at profile
      obtain ⟨_,_,_,_,_,funded,-⟩ := profile
      exact funded
  have several : 0 < funding.maker.items.length := by
    simpa [FundingShape.of,BoundedList.isEmpty,List.length_pos_iff] using funded
  have all : coins.length = funding.maker.items.length + funding.taker.items.length := by
    rw [← List.length_map (f := Prod.fst),accepts.named,Funding.ids,List.length_append]
  refine List.exists_mem_of_length_pos ?_
  rw [List.length_take,Funding.makerLen,BoundedList.len]
  omega

theorem OpenAccepts.guarded (accepts : OpenAccepts funding terms makerAuth takerAuth context verifier batch coins debits diff)
    (silent : ∀ auth hash, verifier.verifyAuth auth key hash = false) (confined : Confined key delegates known batch)
    (injective : Set.InjOn Terms.hash known) (covered : ∀ hashed ∈ terms.hashes, hashed ∈ known) :
    terms.Guarded key delegates := by
  intro party only owned delegate committed
  obtain ⟨owners,basic,may⟩ := accepts.side party
  have unsigned : ¬(party.pick makerAuth takerAuth).isOwner = true := by
    intro owner
    have verified := verifyParty_owner (accepts.verified party) owner
    rw [owned,silent] at verified
    cases verified
  obtain ⟨delegated,kept⟩ := may.resolve_left unsigned
  have work : terms.isBasic = false := by
    by_contra shape
    exact unsigned (basic (by simpa using shape))
  cases party with
  | maker =>
    -- The side is funded, so its signer already holds a coin of the key.
    obtain ⟨entry,found⟩ := accepts.maker_funded work
    have signer : some delegate = some (Party.maker.keysOf terms.parties).signer := by
      rw [← committed]
      exact kept.resolve_left (by rw [committed]; simp)
    exact confined.coins entry.1 entry.2 (accepts.live entry (List.mem_of_mem_take found))
      ((owners entry found).trans owned) delegate ((delegated entry found).trans signer.symm)
  | taker =>
    -- An unfunded side commits the key only where it mirrors the maker of a live bond.
    cases terms with
    | basic => cases work
    | workStakeBond bond => cases only rfl
    | workPayment payment =>
      obtain ⟨edge,live,opened⟩ := (openBondLease_exact.mp accepts.leased).bond_opened confined.traced injective covered
      have guarded := confined.revealed injective live (covered _ (by simp [Terms.hashes])) opened.hash.symm
      exact guarded .maker (fun _ => rfl) owned delegate committed

theorem ReshapeAccepts.foreign (accepts : ReshapeAccepts reshape context verifier batch coins owner held)
    (issued : payout ∈ reshape.outputs.items) (delegated : payout.delegate = some delegate) :
    payout.owner = owner := by
  have issues := accepts.issues payout issued
  simp only [checkReshapeOutput,bind_ok,rejectIf_ok,delegated] at issues
  obtain ⟨_,-,own⟩ := issues
  simpa using own

theorem Confined.coins_step (confined : Confined key delegates known batch)
    (injective : Set.InjOn Terms.hash known) (covered : ∀ terms ∈ tx.hashesTerms, terms ∈ known)
    (silent : ∀ auth hash, verifier.verifyAuth auth key hash = false)
    (accepted : Accepted context verifier batch tx next)
    (created : entry ∈ tx.createsCoins context.network) (owned : entry.2.owner = key)
    (delegated : entry.2.delegate = some delegate) : delegate ∈ delegates := by
  cases accepted with
  | opened => cases created
  | started => cases created
  | responded => cases created
  | closed accepts =>
    rename_i edge _ _ _ _ _
    obtain ⟨index,payout,position,rfl⟩ := mem_issueCoins.mp created
    obtain ⟨terms,member,opened,guarded⟩ := confined.edges _ _ accepts.live
    obtain ⟨party,destined,bondMaker⟩ := accepts.destined confined.traced injective covered (List.mem_of_getElem? position)
    have safe : (party.keysOf edge.parties).Guarded key delegates := by
      rw [opened.parties]
      refine guarded party fun shape => bondMaker (opened.allowed.trans ?_)
      cases terms with
      | workStakeBond bond => rfl
      | basic => cases shape
      | workPayment payment => cases shape
    exact safe.pays destined owned delegated
  | reshaped accepts =>
    obtain ⟨index,payout,position,rfl⟩ := mem_issueCoins.mp created
    have signed := accepts.signed
    rw [← accepts.foreign (List.mem_of_getElem? position) delegated] at signed
    change payout.owner = key at owned
    rw [owned,silent] at signed
    cases signed

theorem Confined.step (confined : Confined key delegates known batch)
    (injective : Set.InjOn Terms.hash known) (covered : ∀ terms ∈ tx.hashesTerms, terms ∈ known)
    (silent : ∀ auth hash, verifier.verifyAuth auth key hash = false)
    (accepted : Accepted context verifier batch tx next) : Confined key delegates known next where
  coins id coin live owned delegate delegated := by
    rcases accepted.coins.origin live with created | ⟨before,-⟩
    · exact confined.coins_step injective covered silent accepted created owned delegated
    · exact confined.coins id coin before owned delegate delegated
  edges id edge live := by
    rcases accepted.edge_origin live with ⟨before,-⟩ | ⟨funding,terms,makerAuth,takerAuth,coins,debits,diff,rfl,rfl,rfl,accepts⟩
    · exact confined.edges id edge before
    · exact ⟨terms,covered terms terms.mem_hashes,
        accepts.opened,accepts.guarded silent confined injective covered⟩

theorem Accepted.undelegated_kept (accepted : Accepted context verifier batch tx next)
    (silent : ∀ auth hash, verifier.verifyAuth auth key hash = false) {id : CoinId} {coin : Coin}
    (live : batch.coin id = some coin) (owned : coin.owner = key) (bare : coin.delegate = none) :
    next.coin id = some coin := by
  refine accepted.coins.kept live fun consumed => ?_
  obtain ⟨found,held,spent⟩ := accepted.spent consumed
  rw [live] at held
  cases held
  cases spent with
  | owner witness verified =>
    rw [owned,silent] at verified
    cases verified
  | delegate work delegated =>
    rw [bare] at delegated
    cases delegated

end Steps

section Runs

variable [Xet] {key : Key} {known : Set Terms} {backend : Backend} {start : Batch}
  {steps : List Step}

def Batch.delegatesOf (batch : Batch) (key : Key) : Set Key :=
  { delegate | ∃ id coin, batch.coin id = some coin ∧ coin.owner = key ∧
    coin.delegate = some delegate }

theorem Batch.Traced.confined (traced : start.Traced known)
    (unnamed : ∀ id edge, start.edge id = some edge → ∀ party : Party, (party.keysOf edge.parties).owner ≠ key) :
    Confined key (start.delegatesOf key) known start where
  coins id coin live owned _ delegated := ⟨id,coin,live,owned,delegated⟩
  edges id edge live := by
    obtain ⟨terms,member,opened⟩ := traced id edge live
    refine ⟨terms,member,opened,fun party _ owned => ?_⟩
    rw [← opened.parties] at owned
    exact absurd owned (unnamed id edge live party)

-- While a key signs nothing and is nobody's counterparty, its delegates gain no other delegate and
-- its undelegated coins do not move.
theorem delegation_confined (termsIds : Set.InjOn Terms.hash known)
    (covered : ∀ step ∈ steps, ∀ terms ∈ step.tx.hashesTerms, terms ∈ known)
    (silent : ∀ step ∈ steps, ∀ auth hash, step.verifier.verifyAuth auth key hash = false)
    (traced : start.Traced known)
    (unnamed : ∀ id edge, start.edge id = some edge → ∀ party : Party,
      (party.keysOf edge.parties).owner ≠ key) :
    let state := State.run backend start steps
    (∀ delegate, (∀ id coin, start.coin id = some coin → coin.owner = key →
        coin.delegate ≠ some delegate) →
      ∀ id coin, state.coin id = some coin → coin.owner = key → coin.delegate ≠ some delegate) ∧
    ∀ id coin, start.coin id = some coin → coin.owner = key → coin.delegate = none →
      state.coin id = some coin := by
  intro state
  constructor
  · intro delegate absent id coin live owned delegated
    have confined : Confined key (start.delegatesOf key) known state :=
      Runs.run_invariant (fun step => (∀ terms ∈ step.tx.hashesTerms, terms ∈ known) ∧
        ∀ auth hash, step.verifier.verifyAuth auth key hash = false)
        (Confined key (start.delegatesOf key) known) (traced.confined unnamed)
        (fun _ _ _ fits stepped confined =>
          confined.step termsIds fits.1 fits.2 (next_accepted stepped))
        steps (fun step member => ⟨covered step member,silent step member⟩)
    obtain ⟨first,origin,before,mine,same⟩ := confined.coins id coin live owned delegate delegated
    exact absent first origin before mine same
  · intro id coin live owned bare
    exact Runs.run_invariant
      (fun step => ∀ auth hash, step.verifier.verifyAuth auth key hash = false)
      (fun batch => Batch.coin batch id = some coin) live
      (fun _ _ _ silent stepped live =>
        (next_accepted stepped).undelegated_kept silent live owned bare)
      steps silent

end Runs

namespace Sample

attribute [local instance] checksum

-- A key nothing verifies under, and the agent it once gave one of its two coins to.
def hermit : Key := key 7
def agent : Key := key 8
def deaf : SigVerifier := ⟨fun _ _ _ => true,fun _ signer _ => signer != hermit⟩
def purse : Coins := [(.genesis 0, ⟨hermit,some agent,1000⟩),(.genesis 1, ⟨hermit,none,1000⟩)]
def retired : Batch := ⟨Slots.insertAll ∅ purse,∅,∅⟩

-- The agent stakes its coin and takes it back.
def agency : WorkStakeBondTerms := ⟨⟨⟨hermit,agent,some agent⟩,client⟩,⟨100⟩,one (.delegated hermit (some agent) 898),1⟩
def agencyEdge : EdgeId := Tx.edgeIdOf bondFunding (.workStakeBond agency)
def stake : Step := ⟨context 10,deaf,.openEdge bondFunding (.workStakeBond agency) { owner with authority := .signer } owner⟩
def unstake : Step := ⟨context 11,deaf,.closeEdge agencyEdge (.timeout (.workStakeBond agency) none) agency.timeoutOutputs⟩

theorem deaf_silent (auth : Auth) (hash : PayloadHash) : deaf.verifyAuth auth hermit hash = false := by
  simp [deaf]

theorem delegation_confined_agent :
    (State.trace .acceptAll retired [stake,unstake]).length = 2 ∧
    (∀ delegate, delegate ≠ agent → ∀ id coin, (State.run .acceptAll retired [stake,unstake]).coin id = some coin →
        coin.owner = hermit → coin.delegate ≠ some delegate) ∧
    (State.run .acceptAll retired [stake,unstake]).coin (.genesis 1) = some ⟨hermit,none,1000⟩ := by
  have bare : ∀ id, retired.edge id = none := fun id => Finmap.lookup_empty id
  obtain ⟨delegates,kept⟩ := @delegation_confined _ hermit (Hashed.of [stake,unstake]).terms
    .acceptAll retired _ (Lists.injOn_listed (by decide +kernel))
    (fun step member => (Hashed.of_covers member).terms)
    (fun step member auth hash => by
      rcases List.mem_pair.mp member with rfl | rfl <;> exact deaf_silent auth hash)
    (fun id edge live => by rw [bare] at live; cases live)
    (fun id edge live => by rw [bare] at live; cases live)
  refine ⟨by decide +kernel,fun delegate other => delegates delegate ?_,
    kept (.genesis 1) _ (by decide +kernel) rfl rfl⟩
  intro id coin live _ same
  rcases Slots.lookup_insertAll_cases live with held | ⟨-,absent⟩
  · rcases List.mem_pair.mp held with here | here
    · cases here
      cases same
      exact other rfl
    · cases here
      cases same
  · cases (Finmap.lookup_empty id).symm.trans absent

-- An edge no open leaves: its terms pay the hermit, its record does not name it.
def stray : Terms := .basic ⟨0⟩ ⟨⟨hermit,agent,some agent⟩,client⟩ ⟨10⟩ (one (.delegated hermit (some agent) 5))
def strayEdge : EdgeId := Tx.edgeIdOf ⟨.empty,.empty⟩ stray
def astray : Batch := ⟨∅,Finmap.singleton strayEdge ⟨5,0,⟨0,0,0,0⟩,⟨10⟩,⟨provider,client⟩,stray.hash,.basic⟩,∅⟩
def leak : Step := ⟨context 10,deaf,.closeEdge strayEdge (.timeout stray none) (one (.delegated hermit (some agent) 5))⟩

theorem delegation_amplified :
    Set.InjOn Terms.hash (Hashed.of [leak]).terms ∧
    (∀ auth hash, leak.verifier.verifyAuth auth hermit hash = false) ∧
    (∀ id edge, astray.edge id = some edge → ∀ party : Party, (party.keysOf edge.parties).owner ≠ hermit) ∧
    (∀ id, astray.coin id = none) ∧
    (State.trace .acceptAll astray [leak]).length = 1 ∧
    (State.run .acceptAll astray [leak]).coin (CoinId.payout strayEdge 0 hermit) = some ⟨hermit,some agent,5⟩ := by
  refine ⟨Lists.injOn_listed (by decide +kernel),deaf_silent,?_,fun id => Finmap.lookup_empty id,
    by decide +kernel,by decide +kernel⟩
  intro id edge live party
  by_cases here : id = strayEdge
  · subst here
    cases (Finmap.lookup_singleton_eq).symm.trans live
    cases party <;> decide
  · rw [Batch.edge,astray,Finmap.lookup_eq_none.mpr (by simpa using here)] at live
    cases live

end Sample

end Hellas.Kernel
