import Hellas.Kernel.Price

-- Opening an edge: what the open is charged, what its terms must commit and who must sign.

namespace Hellas.Kernel

open Guard Words

def minOmitResponseBlocks : UInt64 := 2 + 4 + 1 + 8 + 1
def maxOmitResponseBlocks : UInt64 := 4096
def maxStartValidityBlocks : UInt64 := 64

def duplicate [DecidableEq α] : List α → Option α
  | [] => none
  | head :: tail => if head ∈ tail then some head else duplicate tail

theorem duplicate_none [DecidableEq α] {items : List α} : duplicate items = none ↔ items.Nodup := by
  induction items with
  | nil => simp [duplicate]
  | cons head tail ih =>
    rw [duplicate,List.nodup_cons]
    split
    · rename_i again
      simp [again]
    · rename_i fresh
      simp [fresh,ih]

-- The coin each id names, in order; the first absent one is the rejection.
def loadCoins (batch : Batch) : List CoinId → Except ApplyError Coins
  | [] => pure []
  | id :: rest => do
    let coin ← okOr (batch.coin id) (.missingCoin id)
    let coins ← loadCoins batch rest
    pure ((id, coin) :: coins)

def openCoins (funding : Funding) (batch : Batch) : Except ApplyError Coins := loadCoins batch funding.ids

theorem loadCoins_exact :
    loadCoins batch ids = .ok coins ↔ coins.map Prod.fst = ids ∧ ∀ entry ∈ coins, batch.coin entry.1 = some entry.2 := by
  induction ids generalizing coins with
  | nil =>
    rw [loadCoins,pure_ok]
    constructor
    · rintro rfl
      simp
    · rintro ⟨unsorted,-⟩
      exact (List.map_eq_nil_iff.mp unsorted).symm
  | cons id rest ih =>
    simp only [loadCoins,bind_ok,okOr_ok,pure_ok,ih]
    constructor
    · rintro ⟨coin,live,tail,⟨rfl,held⟩,rfl⟩
      exact ⟨rfl,by simpa [live] using held⟩
    · rintro ⟨named,held⟩
      cases coins with
      | nil => cases named
      | cons entry tail =>
        obtain ⟨here,later⟩ := List.cons.inj named
        rw [← here]
        rw [List.forall_mem_cons] at held
        exact ⟨entry.2,held.1,tail,⟨later,held.2⟩,rfl⟩

section Arithmetic

variable [Xet]

structure OpenDebits where
  openFee : UInt64
  lifetimeFee : UInt64
  edge : Edge
  timeoutPayout : Option UInt64
  deriving DecidableEq

-- Rent for every block up to the committed timeout, which must lie ahead.
def openLifetimeFee (height : BlockHeight) (fees : Fees) (terms : Terms) :
    Except InvalidOpenReason UInt64 := do
  let blocks ← okOr (checkedSub terms.timeout.value height.value) .timeoutNotFuture
  rejectIf (blocks = 0) .timeoutNotFuture
  okOr (checkedMul fees.lifetime blocks) .lifetimeFeeOverflow

def timeoutPayout (values : EdgeValues) (terms : Terms) :
    Except InvalidOpenReason (Option UInt64) :=
  match terms.timeoutOutputs with
  | none => .ok none
  | some outputs => do
    let required ← okOr (values.closeValue (timeoutCloseCost outputs.len terms.isWorkBond))
      .reserveOverflow
    pure (some required)

def openDebits (height : BlockHeight) (fees : Fees) (coins : Nat) (total : Option UInt64)
    (terms : Terms) : Except InvalidOpenReason OpenDebits := do
  let openFee ← okOr (fees.charge (openCost coins terms)) .feeOverflow
  let lifetimeFee ← openLifetimeFee height fees terms
  let reserve ← okOr (fees.charge (openReserveCost terms)) .reserveOverflow
  let total ← okOr total .fundingOverflow
  let edge ← Edge.ofOpen total terms.parties terms.hash (openFee, lifetimeFee, reserve, fees)
    terms.timeout terms.allowedCloses
  let timeoutPayout ← timeoutPayout edge.values terms
  pure ⟨openFee,lifetimeFee,edge,timeoutPayout⟩

-- A timeout needs no signature, so its payouts must land at committed destinations.
def checkTimeoutPayout (debits : OpenDebits) (terms : Terms) : Except InvalidOpenReason Unit :=
  match debits.timeoutPayout, terms.timeoutOutputs with
  | some required, some outputs => do
    let committed ← okOr (outputs.checkedSum Payout.value) .termsPayoutOverflow
    rejectIf (committed ≠ required) .termsValueMismatch
    rejectIf (¬∀ payout ∈ outputs.items, terms.parties.isDestination payout false = true) .timeoutPayoutNotCommitted
  | _, _ => .ok ()

end Arithmetic

structure FundingShape where
  maker : Bool
  taker : Bool
  deriving DecidableEq

def FundingShape.of (funding : Funding) : FundingShape := ⟨!funding.maker.isEmpty,!funding.taker.isEmpty⟩

def paidSolelyTo (outputs : Payouts) (party : PartyKeys) : Bool :=
  !outputs.isEmpty && outputs.items.all fun payout => party.isDestination payout false

def checkWorkBondPolicy (bond : WorkStakeBondTerms) : Except InvalidOpenReason Unit := do
  rejectIf (bond.maxJobPrice = 0) .jobPriceCapZero
  rejectIf (paidSolelyTo bond.timeoutOutputs bond.parties.maker = false) .workStakeReturnRouting

def checkWorkPaymentTerms (payment : WorkPaymentTerms) : Except InvalidOpenReason Unit := do
  checkWorkBondPolicy payment.bondTerms
  rejectIf (payment.omitResponseBlocks < minOmitResponseBlocks ∨
    payment.omitResponseBlocks > maxOmitResponseBlocks) .workResponseWindowOutOfRange
  rejectIf (payment.startValidityBlocks = 0 ∨ payment.startValidityBlocks > maxStartValidityBlocks) .workStartValidityOutOfRange

-- Both exits must be affordable, and something must be left above the omission bond.
def checkPaymentCapacity (edge : Edge) (payment : WorkPaymentTerms) :
    Except InvalidOpenReason Unit := do
  let route ← okOr (closeRouteMinimum edge) .workPaymentReserveTooSmall
  let capacity ← okOr (checkedSub route payment.omissionBond) .workPaymentCapacityUnfunded
  rejectIf (capacity = 0) .workPaymentCapacityUnfunded

-- Each work shape is funded by its maker and by its maker alone.
def checkWorkProfileOpen (edge : Edge) (funding : FundingShape) (terms : Terms) :
    Except InvalidOpenReason Unit :=
  match terms with
  | .basic .. => .ok ()
  | .workStakeBond bond => do
    checkWorkBondPolicy bond
    rejectIf (funding.maker = false) .workStakeMakerUnfunded
    rejectIf (edge.value = 0) .workStakeValueZero
    rejectIf (funding.taker = true) .workStakeTakerFunded
  | .workPayment payment => do
    checkWorkPaymentTerms payment
    rejectIf (funding.taker = true) .workPaymentTakerFunded
    rejectIf (funding.maker = false) .workPaymentMakerUnfunded
    checkPaymentCapacity edge payment

-- Every coin belongs to its side's committed owner, whichever of the party's keys signs.
def checkFundingOwnership (output : EdgeId) (coins : Coins) (makerLen : Nat) (parties : Parties) :
    Except ApplyError Unit :=
  rejectIf (∃ entry ∈ coins.zipIdx, entry.1.2.owner ≠ (if entry.2 < makerLen then parties.maker else parties.taker).owner)
    (.invalidOpen output .fundingUnauthorized)

-- A signer spends only coins delegated to it and commits only itself, or nobody, as delegate.
def checkPartyAuthority (party : PartyKeys) (auth : PartyAuth) (coins : Coins) :
    Except InvalidOpenReason Unit :=
  if auth.isOwner then .ok ()
  else do
    rejectIf (∃ entry ∈ coins, entry.2.delegate ≠ some party.signer) .fundingNotDelegated
    rejectIf (party.payoutDelegate.isSome ∧ party.payoutDelegate ≠ some party.signer) .payoutDelegateNotSigner

def Terms.isBasic : Terms → Bool
  | .basic .. => true
  | _ => false

def checkOpenAuthority (terms : Terms) (funding : Coins × Nat) (makerAuth takerAuth : PartyAuth) :
    Except InvalidOpenReason Unit := do
  let (coins, makerLen) := funding
  rejectIf (terms.isBasic ∧ ¬(makerAuth.isOwner ∧ takerAuth.isOwner)) .basicAuthNotOwner
  let (makerCoins, takerCoins) := coins.splitAt (min makerLen coins.length)
  checkPartyAuthority terms.parties.maker makerAuth makerCoins
  checkPartyAuthority terms.parties.taker takerAuth takerCoins

def verifyParty (verifier : SigVerifier) (auth : PartyAuth) (party : PartyKeys) (hash : PayloadHash) : Bool :=
  verifier.verifyAuth auth.auth (party.key auth.authority) hash

variable [Xet]

def checkOpenAuth (network : NetworkId) (output : EdgeId) (funding : Funding) (terms : Terms)
    (makerAuth takerAuth : PartyAuth) (verifier : SigVerifier) : Except ApplyError Unit :=
  let hash := Tx.openHash network funding terms
  rejectIf (¬verifyParty verifier makerAuth terms.parties.maker hash ∨
    ¬verifyParty verifier takerAuth terms.parties.taker hash) (.invalidOpen output .badSignature)

-- Only a payment writes: the lease it takes on a bond that is live and unleased.
def openBondLease (output : EdgeId) (terms : Terms) (context : Context) (batch : Batch) :
    Except ApplyError RegistryDiff :=
  match terms with
  | .workPayment payment => do
    let bond ← okOr (batch.edge payment.bondEdge) (.missingEdge payment.bondEdge)
    rejectIf (bond.terms ≠ payment.bondTermsHash) (.invalidOpen output .workBondTermsMismatch)
    let lease ← (readBondLease batch context.network payment.bondEdge).mapError
      fun fault => .invalidOpen output (.workBondLeaseFault fault)
    rejectIf lease.isSome (.invalidOpen output .workBondAlreadyLeased)
    let (first, second) ← okOr (createMutations context.network
      ⟨payment.bondEdge,output,terms.hash,payment.privatePolicyCommitment,
        payment.admissionHorizon.value⟩) (.invalidOpen output (.workBondLeaseFault .body))
    RegistryDiff.pushAll [first,second]
  | _ => .ok .empty

def applyOpen (funding : Funding) (terms : Terms) (makerAuth takerAuth : PartyAuth)
    (context : Context) (verifier : SigVerifier) (batch : Batch) : Except ApplyError Change := do
  let output := edgeId funding terms.hash
  refuse ((duplicate funding.ids).map .duplicateInput)
  rejectIf (batch.edge output).isSome (.edgeExists output)
  let coins ← openCoins funding batch
  checkFundingOwnership output coins funding.makerLen terms.parties
  let debits ← (openDebits context.blockHeight context.fees funding.len
    (checkedSum (fun entry => entry.2.value) coins) terms).mapError (.invalidOpen output)
  (checkTimeoutPayout debits terms).mapError (.invalidOpen output)
  (checkOpenAuthority terms (coins, funding.makerLen) makerAuth takerAuth).mapError (.invalidOpen output)
  (checkWorkProfileOpen debits.edge (.of funding) terms).mapError (.invalidOpen output)
  let registry ← openBondLease output terms context batch
  checkOpenAuth context.network output funding terms makerAuth takerAuth verifier
  pure ((Change.opened coins (output, debits.edge)).withRegistry registry)

-- Everything an accepted open has passed, and the change it stages.
structure OpenAccepts (funding : Funding) (terms : Terms) (makerAuth takerAuth : PartyAuth)
    (context : Context) (verifier : SigVerifier) (batch : Batch) (coins : Coins)
    (debits : OpenDebits) (registry : RegistryDiff) : Prop where
  distinct : funding.ids.Nodup
  fresh : batch.edge (edgeId funding terms.hash) = none
  named : coins.map Prod.fst = funding.ids
  live : ∀ entry ∈ coins, batch.coin entry.1 = some entry.2
  owned : checkFundingOwnership (edgeId funding terms.hash) coins funding.makerLen
    terms.parties = .ok ()
  charged : openDebits context.blockHeight context.fees funding.len
    (checkedSum (fun entry => entry.2.value) coins) terms = .ok debits
  committed : checkTimeoutPayout debits terms = .ok ()
  authority : checkOpenAuthority terms (coins, funding.makerLen) makerAuth takerAuth = .ok ()
  profile : checkWorkProfileOpen debits.edge (.of funding) terms = .ok ()
  leased : openBondLease (edgeId funding terms.hash) terms context batch = .ok registry
  signed : checkOpenAuth context.network (edgeId funding terms.hash) funding terms makerAuth
    takerAuth verifier = .ok ()

theorem applyOpen_exact {funding : Funding} {change : Change} :
    applyOpen funding terms makerAuth takerAuth context verifier batch = .ok change ↔ ∃ coins debits registry,
        OpenAccepts funding terms makerAuth takerAuth context verifier batch coins debits registry ∧
          change = (Change.opened coins (edgeId funding terms.hash, debits.edge)).withRegistry registry := by
  simp only [applyOpen,bind_ok,refuse_ok,Option.map_eq_none_iff,duplicate_none,rejectIf_ok,
    Option.isSome_iff_ne_none,ne_eq,not_not,openCoins,loadCoins_exact,mapError_ok,pure_ok]
  constructor
  · rintro ⟨_,distinct,_,fresh,coins,⟨named,live⟩,_,owned,debits,charged,_,committed,_,
      authority,_,profile,registry,leased,_,signed,rfl⟩
    exact ⟨coins,debits,registry,⟨distinct,fresh,named,live,owned,charged,committed,authority,profile,leased,signed⟩,rfl⟩
  · rintro ⟨coins,debits,registry,accepted,rfl⟩
    exact ⟨(),accepted.distinct,(),accepted.fresh,coins,⟨accepted.named,accepted.live⟩,(),
      accepted.owned,debits,accepted.charged,(),accepted.committed,(),accepted.authority,(),
      accepted.profile,registry,accepted.leased,(),accepted.signed,rfl⟩

end Hellas.Kernel
