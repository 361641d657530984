import Hellas.Invariants.OneUse
import Hellas.Kernel.Faults

-- What an open will be charged, computed without a store, and what the reserve it locks pays for.

namespace Hellas.Kernel

open Guard Words

section Reserve

theorem Fees.price_mono {fees : Fees} {cost reserve : Cost} (fits : cost.fits reserve = true) :
    fees.price cost ≤ fees.price reserve := by
  simp only [Cost.fits,Bool.and_eq_true,decide_eq_true_eq,UInt64.le_iff_toNat_le] at fits
  obtain ⟨⟨base,slots⟩,proofs⟩ := fits
  exact Nat.add_le_add (Nat.add_le_add (Nat.mul_le_mul_left _ base) (Nat.mul_le_mul_left _ slots)) (Nat.mul_le_mul_left _ proofs)

-- A timeout reveals the terms its edge was opened with; no other proof reveals any.
def Proof.Reveals (proof : Proof) (terms : Terms) : Prop := ∀ revealed owner, proof = .timeout revealed owner → revealed = terms

theorem closeCost_fits {terms : Terms} {proof : Proof} (allowed : terms.allowedCloses.contains proof.kind = true)
    (reveals : proof.Reveals terms) (few : outputs ≤ maxEdgeOutputs) :
    (closeCost outputs proof).fits (openReserveCost terms) = true := by
  have basic : ∀ outputs ≤ maxEdgeOutputs, (kindCloseCost outputs .mutualClose).fits (kindCloseCost maxEdgeOutputs .mutualClose) = true ∧
      (timeoutCloseCost outputs false).fits (kindCloseCost maxEdgeOutputs .mutualClose) = true := by
    decide
  have bond : ∀ outputs ≤ maxEdgeOutputs, (timeoutCloseCost outputs true).fits
      ⟨1,saturatingAdd (units maxEdgeOutputs) workBondTimeoutExtraSlots,2⟩ = true := by
    decide
  -- The kinds outside a profile's own set fall away; each kind inside it is one comparison.
  cases terms with
  | basic =>
    cases proof with
    | mutualClose => exact (basic outputs few).1
    | timeout revealed owner =>
      cases reveals revealed owner rfl
      exact (basic outputs few).2
    | freeze | adjudicated => simp +decide [Terms.allowedCloses,Proof.kind] at allowed
  | workStakeBond =>
    cases proof with
    | timeout revealed owner =>
      cases reveals revealed owner rfl
      exact bond outputs few
    | mutualClose | freeze | adjudicated => simp +decide [Terms.allowedCloses,Proof.kind] at allowed
  | workPayment =>
    cases proof with
    | freeze | adjudicated => rfl
    | mutualClose | timeout => simp +decide [Terms.allowedCloses,Proof.kind] at allowed

variable [Xet] {funding : Funding} {terms : Terms} {makerAuth takerAuth : PartyAuth}
  {context : Context} {verifier : SigVerifier} {batch : Batch} {coins : Coins} {debits : OpenDebits}
  {diff : RegistryDiff}

theorem OpenAccepts.reserved (accepts : OpenAccepts funding terms makerAuth takerAuth context verifier batch coins debits diff) :
    debits.edge.closeFees = context.fees ∧ context.fees.price (openReserveCost terms) = debits.edge.reserve.toNat := by
  have charged := accepts.charged
  simp only [openDebits,bind_ok,okOr_ok,Edge.ofOpen_exact,Fees.charge_exact,pure_ok] at charged
  obtain ⟨_,-,_,-,reserve,reserved,_,-,edge,⟨⟨-,held,fees⟩,-⟩,_,-,rfl⟩ := charged
  exact ⟨fees,by rw [reserved,held]⟩

theorem OpenAccepts.prices
    (accepts : OpenAccepts funding terms makerAuth takerAuth context verifier batch coins debits diff) {proof : Proof}
    (allowed : debits.edge.allows proof.kind = true) (reveals : proof.Reveals terms) (few : outputs ≤ maxEdgeOutputs) :
    ∃ value, debits.edge.closeValue (closeCost outputs proof) = some value ∧ debits.edge.value ≤ value ∧
      value.toNat + debits.openFee.toNat + debits.lifetimeFee.toNat ≤ Words.total (fun entry => entry.2.value) coins := by
  obtain ⟨fees,reserve⟩ := accepts.reserved
  obtain ⟨⟨-,-,balanced⟩,⟨-,-,-,kinds⟩,-⟩ := accepts.debits_parts
  rw [Edge.allows,kinds] at allowed
  have covered := @Fees.price_mono context.fees _ _ (closeCost_fits allowed reveals few)
  have summed : Words.total (fun entry => entry.2.value) coins < 2^64 := by
    have charged := accepts.charged
    simp only [openDebits,bind_ok,okOr_ok,checkedSum_exact] at charged
    obtain ⟨_,-,_,-,_,-,sum,same,-⟩ := charged
    rw [same]
    exact sum.toNat_lt
  rw [Edge.locked] at balanced
  obtain ⟨value,left⟩ := exists_word (show debits.edge.value.toNat + debits.edge.reserve.toNat -
    context.fees.price (closeCost outputs proof) < 2^64 by omega)
  have priced : debits.edge.closeValue (closeCost outputs proof) = some value := by
    refine EdgeValues.closeValue_exact.mpr ?_
    change debits.edge.closeFees.price _ ≤ debits.edge.reserve.toNat ∧
      debits.edge.value.toNat + debits.edge.reserve.toNat = value.toNat + debits.edge.closeFees.price _
    rw [fees]
    exact ⟨by omega,by omega⟩
  exact ⟨value,priced,UInt64.le_iff_toNat_le.mpr (by omega),by omega⟩

theorem applyClose_covered {proof : Proof} {outputs : Payouts} (live : batch.edge input = some edge)
    (priced : edge.allows proof.kind = true → ∃ value, edge.closeValue (closeCost outputs.len proof) = some value) :
    Avoids (fun error => error = .invalidClose input .reserveTooSmall)
      (applyClose input proof outputs context verifier batch) := by
  rw [applyClose,checkCloseOutputs]
  refine avoids_bind.mpr ⟨?_,fun _ _ => avoids_bind.mpr ⟨by simp [live],fun found read => ?_⟩⟩
  · refine avoids_refuse.mpr fun failure found => ?_
    obtain ⟨entry,-,rfl⟩ := Option.map_eq_some_iff.mp found
    simp
  cases live.symm.trans (okOr_ok.mp read)
  refine avoids_bind.mpr ⟨by simp,fun _ admitted => avoids_bind.mpr ⟨?_,fun total _ =>
    avoids_bind.mpr ⟨by simp,fun staged _ => by simp [RegistryDiff.pushAll]⟩⟩⟩
  obtain ⟨value,worth⟩ := priced (Bool.not_eq_false _ ▸ rejectIf_ok.mp admitted)
  simp only [avoids_mapError,Edge.closes,worth,avoids_bind,avoids_okOr,okOr_ok]
  refine ⟨by simp,fun sum _ => ?_⟩
  split
  · simp
  · split <;> simp

-- Whatever the fees of a later block, an exit the edge admits is one its reserve pays for.
theorem reserve_prices_every_exit {change : Change}
    (applied : applyOpen funding terms makerAuth takerAuth context verifier batch = .ok change) :
    ∃ coins edge registry openFee lifetimeFee,
      change = (Change.opened coins (Tx.edgeIdOf funding terms, edge)).withRegistry registry ∧
      coins.map Prod.fst = funding.ids ∧ (∀ entry ∈ coins, batch.coin entry.1 = some entry.2) ∧
      edge.allowed = terms.allowedCloses ∧
      context.fees.charge (openCost funding.len terms) = some openFee ∧
      openLifetimeFee context.blockHeight context.fees terms = .ok lifetimeFee ∧
      (∀ proof outputs, edge.allows proof.kind = true → proof.Reveals terms →
        outputs ≤ maxEdgeOutputs → ∃ value, edge.closeValue (closeCost outputs proof) = some value ∧
          edge.value ≤ value ∧ value.toNat + openFee.toNat + lifetimeFee.toNat ≤
            Words.total (fun entry => entry.2.value) coins) ∧
      ∀ input proof outputs later laterVerifier store, store.edge input = some edge →
        proof.Reveals terms → applyClose input proof outputs later laterVerifier store ≠
          .error (.invalidClose input .reserveTooSmall) := by
  obtain ⟨coins,debits,diff,accepts,rfl⟩ := applyOpen_exact.mp applied
  obtain ⟨⟨charged,rented,-⟩,⟨-,-,-,kinds⟩,-⟩ := accepts.debits_parts
  refine ⟨coins,debits.edge,diff,debits.openFee,debits.lifetimeFee,rfl,accepts.named,accepts.live,
    kinds,charged,rented,fun proof outputs => accepts.prices,?_⟩
  intro input proof outputs later laterVerifier store live reveals refused
  refine applyClose_covered live (fun admitted => ?_) _ refused rfl
  obtain ⟨value,priced,-⟩ := accepts.prices admitted reveals outputs.bound
  exact ⟨value,priced⟩

end Reserve

namespace Sample

attribute [local instance] checksum

theorem bond_opens : ∃ taken, State.apply .acceptAll (context 10) verifier start openBond.tx = .ok taken := by
  have opened : (State.apply .acceptAll (context 10) verifier start openBond.tx).isOk = true := by
    decide +kernel
  cases applied : State.apply .acceptAll (context 10) verifier start openBond.tx with
  | error failed => simp [applied,Except.isOk,Except.toBool] at opened
  | ok taken => exact ⟨taken,rfl⟩

theorem reserve_prices_every_exit_bond : ∃ (change : Change) (edge : Edge) (value : UInt64),
    applyOpen bondFunding (.workStakeBond bond) owner owner (context 10) verifier start =
      .ok change ∧ edge.allows .timeout = true ∧ edge.value ≤ value ∧
      edge.closeValue (closeCost maxEdgeOutputs (.timeout (.workStakeBond bond) none)) = some value := by
  obtain ⟨taken,applied⟩ := bond_opens
  obtain ⟨change,opened,-⟩ := bind_ok.mp applied
  obtain ⟨_,edge,_,_,_,-,-,-,kinds,-,-,exits,-⟩ := reserve_prices_every_exit opened
  have timed : edge.allows .timeout = true := by
    rw [Edge.allows,kinds]
    decide
  obtain ⟨value,priced,least,-⟩ := exits (.timeout (.workStakeBond bond) none) maxEdgeOutputs timed
    (by rintro revealed owner same; cases same; rfl) le_rfl
  exact ⟨change,edge,value,opened,timed,least,priced⟩

end Sample

section Projection

abbrev PricedCoins := BoundedList (CoinId × UInt64) maxPartyInputs

-- A prospective open's coins with the value each is worth, and no store behind them.
structure OpenFunding where
  maker : PricedCoins
  taker : PricedCoins
  deriving DecidableEq

namespace OpenFunding

def ids (coins : PricedCoins) : PartyCoins := ⟨coins.items.map Prod.fst,by simpa using coins.bound⟩

def funding (priced : OpenFunding) : Funding := ⟨ids priced.maker,ids priced.taker⟩
def len (priced : OpenFunding) : Nat := priced.maker.len + priced.taker.len

def shape (priced : OpenFunding) : FundingShape := ⟨!priced.maker.isEmpty,!priced.taker.isEmpty⟩

def total (priced : OpenFunding) : Option UInt64 := do
  checkedAdd (← priced.maker.checkedSum Prod.snd) (← priced.taker.checkedSum Prod.snd)

def worth (batch : Batch) (id : CoinId) : UInt64 := ((batch.coin id).map Coin.value).getD 0

def price (batch : Batch) (coins : PartyCoins) : PricedCoins := ⟨coins.items.map fun id => (id, worth batch id),by simpa using coins.bound⟩

def live (batch : Batch) (funding : Funding) : OpenFunding := ⟨price batch funding.maker,price batch funding.taker⟩

variable {batch : Batch} {funding : Funding}

theorem ids_price : ids (price batch coins) = coins := BoundedList.ext (by simp [ids,price,Function.comp_def])

theorem live_funding : (live batch funding).funding = funding := by
  simp [OpenFunding.funding,live,ids_price]

theorem live_len : (live batch funding).len = funding.len := by
  simp [len,live,price,Funding.len,BoundedList.len]

theorem live_shape : (live batch funding).shape = .of funding := by
  simp [shape,live,price,FundingShape.of,BoundedList.isEmpty]

theorem live_total {coins : Coins} (named : coins.map Prod.fst = funding.ids) (held : ∀ entry ∈ coins, batch.coin entry.1 = some entry.2) :
    (live batch funding).total = checkedSum (fun entry => entry.2.value) coins := by
  have parties : Words.total (fun entry => entry.2.value) coins =
      Words.total Prod.snd (price batch funding.maker).items + Words.total Prod.snd (price batch funding.taker).items := by
    have each : coins.map (fun entry => entry.2.value.toNat) =
        (coins.map Prod.fst).map fun id => (worth batch id).toNat := by
      rw [List.map_map]
      exact List.map_congr_left fun entry member => by simp [worth,held entry member]
    simp [Words.total,each,named,Funding.ids,price,Function.comp_def]
  refine Option.ext fun sum => ?_
  simp only [total,live,Option.bind_eq_bind,Option.bind_eq_some_iff,BoundedList.checkedSum,checkedSum_exact,checkedAdd_exact,parties]
  constructor
  · rintro ⟨maker,made,taker,taken,summed⟩
    omega
  · intro summed
    have bound := sum.toNat_lt
    obtain ⟨maker,made⟩ := exists_word (show Words.total Prod.snd (price batch funding.maker).items < 2^64 by omega)
    obtain ⟨taker,taken⟩ := exists_word (show Words.total Prod.snd (price batch funding.taker).items < 2^64 by omega)
    exact ⟨maker,made,taker,taken,by omega⟩

end OpenFunding

structure OpenProjection where
  edge : EdgeId
  openFee : UInt64
  lifetimeFee : UInt64
  values : EdgeValues
  timeoutPayout : Option UInt64
  deriving DecidableEq

-- Whether a rejected open read the store or a witness, and not only its own terms and amounts.
def InvalidOpenReason.readsState : InvalidOpenReason → Bool
  | .fundingUnauthorized | .fundingNotDelegated | .payoutDelegateNotSigner => true
  | .basicAuthNotOwner | .badSignature => true
  | .workBondTermsMismatch | .workBondAlreadyLeased | .workBondLeaseFault _ => true
  | _ => false

def ApplyError.readsState : ApplyError → Bool
  | .invalidOpen _ reason => reason.readsState
  | .invalidClose .. | .invalidProof .. | .invalidMove .. | .invalidReshape _ => false
  | _ => true

variable [Xet] {funding : Funding} {terms : Terms} {makerAuth takerAuth : PartyAuth}
  {context : Context} {verifier : SigVerifier} {batch : Batch} {coins : Coins} {debits : OpenDebits}

def openProjection (height : BlockHeight) (fees : Fees) (funding : OpenFunding) (terms : Terms) :
    Except InvalidOpenReason OpenProjection := do
  let debits ← openDebits height fees funding.len funding.total terms
  checkWorkProfileOpen debits.edge funding.shape terms
  pure ⟨Tx.edgeIdOf funding.funding terms,debits.openFee,debits.lifetimeFee,debits.edge.values,debits.timeoutPayout⟩

theorem openProjection_exact (named : coins.map Prod.fst = funding.ids) (held : ∀ entry ∈ coins, batch.coin entry.1 = some entry.2) :
    openProjection context.blockHeight context.fees (.live batch funding) terms = .ok projected ↔
      ∃ debits, openDebits context.blockHeight context.fees funding.len (checkedSum (fun entry => entry.2.value) coins) terms = .ok debits ∧
        checkWorkProfileOpen debits.edge (.of funding) terms = .ok () ∧
        projected = ⟨Tx.edgeIdOf funding terms,debits.openFee,debits.lifetimeFee,debits.edge.values,debits.timeoutPayout⟩ := by
  simp only [openProjection,bind_ok,pure_ok,OpenFunding.live_len,OpenFunding.live_shape,
    OpenFunding.live_funding,OpenFunding.live_total named held]
  constructor
  · rintro ⟨debits,charged,_,profile,rfl⟩
    exact ⟨debits,charged,profile,rfl⟩
  · rintro ⟨debits,charged,profile,rfl⟩
    exact ⟨debits,charged,(),profile,rfl⟩

theorem OpenAccepts.projects (accepts : OpenAccepts funding terms makerAuth takerAuth context verifier batch coins debits diff) :
    openProjection context.blockHeight context.fees (.live batch funding) terms =
      .ok ⟨Tx.edgeIdOf funding terms,debits.openFee,debits.lifetimeFee,debits.edge.values, debits.timeoutPayout⟩ :=
  (openProjection_exact accepts.named accepts.live).mpr ⟨debits,accepts.charged,accepts.profile,rfl⟩

omit [Xet] in
theorem loadCoins_present (exist : ∀ id ∈ ids, (batch.coin id).isSome = true) :
    ∃ coins, loadCoins batch ids = .ok coins := by
  induction ids with
  | nil => exact ⟨[],rfl⟩
  | cons id rest ih =>
    rw [List.forall_mem_cons] at exist
    obtain ⟨coins,loaded⟩ := ih exist.2
    obtain ⟨coin,held⟩ := Option.isSome_iff_exists.mp exist.1
    exact ⟨(id, coin) :: coins,by simp [loadCoins,held,loaded,okOr,bind,Except.bind,pure,Except.pure]⟩

omit [Xet] in
theorem Change.fold_reads {change : Change} :
    Avoids (fun error => error.readsState = false) (change.fold backend batch) := by
  have registry : ∀ batch (diff : RegistryDiff), Avoids (fun error => error.readsState = false) (diff.fold backend batch) := by
    refine fun batch diff => avoids_foldlM fun state mutation => ?_
    unfold RegistryMutation.fold
    split
    · simp [ApplyError.readsState]
    · split <;> simp [ApplyError.readsState]
  cases change with
  | hidden diff => exact registry _ _
  | visible event effect diff =>
    refine avoids_bind.mpr ⟨Effect.fold_avoids ?_,fun middle _ => registry _ _⟩
    intro error object
    cases error <;> simp [ApplyError.ofObject,ApplyError.readsState] at object ⊢

theorem applyOpen_reads (loaded : loadCoins batch funding.ids = .ok coins)
    (charged : openDebits context.blockHeight context.fees funding.len (checkedSum (fun entry => entry.2.value) coins) terms = .ok debits)
    (committed : checkTimeoutPayout debits terms = .ok ())
    (profile : checkWorkProfileOpen debits.edge (.of funding) terms = .ok ()) :
    Avoids (fun error => error.readsState = false) (applyOpen funding terms makerAuth takerAuth context verifier batch) := by
  have party : ∀ keys auth coins, Avoids (fun reason => reason.readsState = false)
      (checkPartyAuthority keys auth coins) := by
    intro keys auth coins
    unfold checkPartyAuthority
    split <;> simp [InvalidOpenReason.readsState]
  have lease : Avoids (fun error => error.readsState = false)
      (openBondLease (edgeId funding terms.hash) terms context batch) := by
    unfold openBondLease
    split
    · simp [ApplyError.readsState,InvalidOpenReason.readsState,RegistryDiff.pushAll]
    · exact avoids_ok
  simp +decide [applyOpen,openCoins,loaded,charged,committed,profile,lease,checkFundingOwnership,
    checkOpenAuthority,party,checkOpenAuth,ApplyError.readsState.eq_1,ApplyError.readsState.eq_6]

omit [Xet] in
theorem checkTimeoutPayout_met (commits : terms.timeoutOutputs = some outputs)
    (sum : outputs.checkedSum Payout.value = debits.timeoutPayout)
    (paid : ∀ payout ∈ outputs.items, terms.parties.isDestination payout false = true) :
    checkTimeoutPayout debits terms = .ok () := by
  unfold checkTimeoutPayout
  split
  · rename_i required found left right
    cases commits.symm.trans right
    simpa [sum,left] using paid
  · rfl

-- An endpoint that holds no store computes what the open will be charged, and refuses only what
-- the kernel refuses.
theorem open_projection_agrees {backend : Backend} (exist : ∀ id ∈ funding.ids, (batch.coin id).isSome = true) :
    (∀ outcome next, State.apply backend context verifier batch
        (.openEdge funding terms makerAuth takerAuth) = .ok (outcome, next) →
      ∃ projected edge total, openProjection context.blockHeight context.fees (.live batch funding) terms =
          .ok projected ∧
        batch.edge projected.edge = none ∧ next.edge projected.edge = some edge ∧
        projected.values = edge.values ∧ (OpenFunding.live batch funding).total = some total ∧
        projected.openFee.toNat + projected.lifetimeFee.toNat + projected.values.value.toNat +
          projected.values.reserve.toNat = total.toNat ∧
        ∀ outputs, terms.timeoutOutputs = some outputs → outputs.checkedSum Payout.value = projected.timeoutPayout) ∧
    (∀ reason, openProjection context.blockHeight context.fees (.live batch funding) terms = .error reason →
      ∀ result, State.apply backend context verifier batch (.openEdge funding terms makerAuth takerAuth) ≠ .ok result) ∧
    ∀ projected, openProjection context.blockHeight context.fees (.live batch funding) terms = .ok projected →
      (∀ outputs, terms.timeoutOutputs = some outputs → outputs.checkedSum Payout.value = projected.timeoutPayout ∧
          ∀ payout ∈ outputs.items, terms.parties.isDestination payout false = true) →
      ∀ error, State.apply backend context verifier batch
        (.openEdge funding terms makerAuth takerAuth) = .error error → error.readsState = true := by
  refine ⟨fun outcome next applied => ?_,fun reason refused result applied => ?_,?_⟩
  · obtain ⟨coins,debits,diff,accepts,inserted⟩ := (apply_accepted applied).open_parts
    obtain ⟨⟨-,-,balanced⟩,-,required⟩ := accepts.debits_parts
    have charged := accepts.charged
    simp only [openDebits,bind_ok,okOr_ok] at charged
    obtain ⟨_,-,_,-,_,-,total,summed,-⟩ := charged
    refine ⟨_,debits.edge,total,accepts.projects,accepts.fresh,inserted,rfl,
      by rw [OpenFunding.live_total accepts.named accepts.live,summed],?_,?_⟩
    · rw [checkedSum_exact] at summed
      change debits.openFee.toNat + debits.lifetimeFee.toNat + debits.edge.value.toNat +
        debits.edge.reserve.toNat = _
      rw [← summed,balanced,Edge.locked]
      omega
    · intro outputs commits
      obtain ⟨⟨payout,priced,paid⟩,-⟩ := accepts.exits commits
      simp only [timeoutPayout,commits,bind_ok,okOr_ok,pure_ok] at required
      obtain ⟨same,worth,here⟩ := required
      cases priced.symm.trans worth
      rw [BoundedList.checkedSum,checkedSum_exact.mpr paid,here]
  · obtain ⟨coins,debits,diff,accepts,-⟩ := (apply_accepted applied).open_parts
    cases accepts.projects.symm.trans refused
  · intro projected projects committed error
    obtain ⟨coins,loaded⟩ := loadCoins_present exist
    obtain ⟨named,held⟩ := loadCoins_exact.mp loaded
    obtain ⟨debits,charged,profile,rfl⟩ := (openProjection_exact named held).mp projects
    have met : checkTimeoutPayout debits terms = .ok () := by
      cases commits : terms.timeoutOutputs with
      | none => simp [checkTimeoutPayout,commits]
      | some outputs =>
        exact checkTimeoutPayout_met commits (committed outputs commits).1
          (committed outputs commits).2
    intro failed
    have safe : Avoids (fun error => error.readsState = false) (State.apply backend context verifier
        batch (.openEdge funding terms makerAuth takerAuth)) :=
      avoids_bind.mpr ⟨applyOpen_reads loaded charged met profile,fun change _ =>
        avoids_bind.mpr ⟨Change.fold_reads,fun _ _ => avoids_pure⟩⟩
    exact Bool.not_eq_false _ ▸ safe error failed

end Projection

namespace Sample

attribute [local instance] checksum

theorem open_projection_agrees_bond :
    (∀ id ∈ bondFunding.ids, (start.coin id).isSome = true) ∧
      ∃ projected, openProjection ⟨10⟩ fees (.live start bondFunding) (.workStakeBond bond) =
        .ok projected ∧ projected.edge = bondEdge ∧ projected.timeoutPayout = some 898 := by
  have exist : ∀ id ∈ bondFunding.ids, (start.coin id).isSome = true := by decide +kernel
  obtain ⟨taken,applied⟩ := bond_opens
  obtain ⟨projected,edge,total,projects,-,-,-,-,-,pays⟩ :=
    (open_projection_agrees exist).1 taken.1 taken.2 applied
  refine ⟨exist,projected,projects,?_,(pays bond.timeoutOutputs rfl).symm.trans rfl⟩
  simp only [openProjection,bind_ok,pure_ok] at projects
  obtain ⟨debits,-,_,-,rfl⟩ := projects
  exact congrArg (fun funding => Tx.edgeIdOf funding (.workStakeBond bond)) OpenFunding.live_funding

end Sample

end Hellas.Kernel
