import Hellas.Kernel.Accepted

-- What an accepted open establishes once and for all about the edge it leaves behind.

namespace Hellas.Kernel

open Guard Words

section Checks

variable {coins : Coins}

theorem checkFundingOwnership_exact :
    checkFundingOwnership output coins makerLen parties = .ok done ↔ (∀ entry ∈ coins.take makerLen, entry.2.owner = parties.maker.owner) ∧
        ∀ entry ∈ coins.drop makerLen, entry.2.owner = parties.taker.owner := by
  simp only [checkFundingOwnership,rejectIf_ok,not_exists,not_and,not_ne_iff]
  constructor
  · intro owned
    constructor
    · intro entry member
      obtain ⟨index,here⟩ := List.mem_iff_getElem?.mp member
      rw [List.getElem?_take] at here
      split at here
      · rename_i low
        simpa [low] using owned (entry, index) (List.mem_zipIdx_iff_getElem?.mpr here)
      · cases here
    · intro entry member
      obtain ⟨index,here⟩ := List.mem_iff_getElem?.mp member
      rw [List.getElem?_drop] at here
      simpa using owned (entry, makerLen + index) (List.mem_zipIdx_iff_getElem?.mpr here)
  · rintro ⟨maker,taker⟩ ⟨entry,index⟩ member
    have here := List.mem_zipIdx_iff_getElem?.mp member
    dsimp only
    split
    · rename_i low
      refine maker entry (List.mem_iff_getElem?.mpr ⟨index,?_⟩)
      rw [List.getElem?_take_of_lt low]
      exact here
    · rename_i high
      refine taker entry (List.mem_iff_getElem?.mpr ⟨index - makerLen,?_⟩)
      rw [List.getElem?_drop,Nat.add_sub_cancel' (Nat.le_of_not_lt high)]
      exact here

def MayCommit (party : PartyKeys) (auth : PartyAuth) (coins : Coins) : Prop :=
  auth.isOwner = true ∨ (∀ entry ∈ coins, entry.2.delegate = some party.signer) ∧
    (party.payoutDelegate = none ∨ party.payoutDelegate = some party.signer)

theorem checkPartyAuthority_exact : checkPartyAuthority party auth coins = .ok done ↔ MayCommit party auth coins := by
  unfold checkPartyAuthority MayCommit
  split
  · rename_i owner
    simp [owner]
  · rename_i signer
    simp only [bind_ok,rejectIf_ok,not_exists,not_and,not_ne_iff,signer,false_or,Option.isSome_iff_ne_none,Bool.false_eq_true]
    constructor
    · rintro ⟨_,delegated,committed⟩
      exact ⟨delegated,or_iff_not_imp_left.mpr committed⟩
    · rintro ⟨delegated,committed⟩
      exact ⟨(),delegated,or_iff_not_imp_left.mp committed⟩

theorem checkOpenAuthority_exact :
    checkOpenAuthority terms (coins, makerLen) makerAuth takerAuth = .ok done ↔
      (terms.isBasic = true → makerAuth.isOwner = true ∧ takerAuth.isOwner = true) ∧
        MayCommit terms.parties.maker makerAuth (coins.take makerLen) ∧
        MayCommit terms.parties.taker takerAuth (coins.drop makerLen) := by
  have left : coins.take (min makerLen coins.length) = coins.take makerLen := by
    rw [← List.take_take,List.take_length]
  have right : coins.drop (min makerLen coins.length) = coins.drop makerLen := by
    rcases Nat.le_total makerLen coins.length with inside | outside
    · rw [Nat.min_eq_left inside]
    · rw [Nat.min_eq_right outside,List.drop_length,List.drop_of_length_le outside]
  simp only [checkOpenAuthority,bind_ok,rejectIf_ok,not_and_not_right,List.splitAt_eq,left,right,checkPartyAuthority_exact]
  constructor
  · intro passed
    obtain ⟨_,basic,_,maker,taker⟩ := passed
    exact ⟨basic,maker,taker⟩
  · intro held
    obtain ⟨basic,maker,taker⟩ := held
    exact ⟨(),basic,(),maker,taker⟩

end Checks

theorem checkWorkBondPolicy_exact :
    checkWorkBondPolicy bond = .ok done ↔ bond.maxJobPrice ≠ 0 ∧ paidSolelyTo bond.timeoutOutputs bond.parties.maker = true := by
  simp only [checkWorkBondPolicy,bind_ok,rejectIf_ok,Bool.not_eq_false]
  constructor
  · intro passed
    obtain ⟨_,price,paid⟩ := passed
    exact ⟨price,paid⟩
  · intro held
    exact ⟨(),held.1,held.2⟩

theorem checkPaymentCapacity_exact :
    checkPaymentCapacity edge payment = .ok done ↔
      ∃ settlement, workPaymentSettlement edge.values payment.omissionBond = some settlement ∧ settlement.capacity ≠ 0 := by
  simp only [checkPaymentCapacity,bind_ok,okOr_ok,rejectIf_ok,workPaymentSettlement_exact,
    closeRouteMinimum,routeMinimum_exact,checkedSub_exact]
  constructor
  · rintro ⟨route,⟨freeze,adjudicated,frozen,settled,least⟩,capacity,funded,positive⟩
    exact ⟨⟨freeze,adjudicated,capacity,payment.omissionBond⟩,⟨frozen,settled,by rw [← least,funded],rfl⟩,positive⟩
  · rintro ⟨settlement,⟨frozen,settled,least,bond⟩,positive⟩
    have bound := settlement.freezeTotal.toNat_lt
    obtain ⟨route,routed⟩ := exists_word (show min settlement.freezeTotal.toNat settlement.adjudicatedTotal.toNat < 2^64 by omega)
    exact ⟨route,⟨_,_,frozen,settled,routed.symm⟩,settlement.capacity,by omega,positive⟩

variable [Xet]

-- An edge as an accepted open of these terms leaves it.
structure Edge.OpenedWith (edge : Edge) (terms : Terms) : Prop where
  timeout : edge.timeout = terms.timeout
  parties : edge.parties = terms.parties
  hash : edge.terms = terms.hash
  allowed : edge.allowed = terms.allowedCloses
  exits : ∀ outputs, terms.timeoutOutputs = some outputs →
    (∃ total, edge.closeValue (timeoutCloseCost outputs.len terms.isWorkBond) = some total ∧
      Words.total Payout.value outputs.items = total.toNat) ∧
    ∀ payout ∈ outputs.items, terms.parties.isDestination payout false = true
  bond : ∀ bond, terms = .workStakeBond bond → edge.value ≠ 0 ∧
    paidSolelyTo bond.timeoutOutputs bond.parties.maker = true
  payment : ∀ payment, terms = .workPayment payment → ∃ settlement,
    workPaymentSettlement edge.values payment.omissionBond = some settlement ∧
      settlement.capacity ≠ 0

namespace OpenAccepts

theorem debits_parts (accepts : OpenAccepts funding terms makerAuth takerAuth context verifier batch coins debits diff) :
    (context.fees.charge (openCost funding.len terms) = some debits.openFee ∧
      openLifetimeFee context.blockHeight context.fees terms = .ok debits.lifetimeFee ∧
      Words.total (fun entry => entry.2.value) coins =
        debits.openFee.toNat + debits.lifetimeFee.toNat + debits.edge.locked) ∧
    (debits.edge.timeout = terms.timeout ∧ debits.edge.parties = terms.parties ∧
      debits.edge.terms = terms.hash ∧ debits.edge.allowed = terms.allowedCloses) ∧
    timeoutPayout debits.edge.values terms = .ok debits.timeoutPayout := by
  have charged := accepts.charged
  simp only [openDebits,bind_ok,okOr_ok,Edge.ofOpen_exact,checkedSum_exact,pure_ok] at charged
  obtain ⟨openFee,priced,lifetimeFee,rented,reserve,reserved,sum,summed,edge,⟨⟨balanced,-,-⟩,fields⟩,payout,required,rfl⟩ := charged
  exact ⟨⟨priced,rented,by rw [summed,balanced]⟩,fields,required⟩

theorem exits (accepts : OpenAccepts funding terms makerAuth takerAuth context verifier batch coins
    debits diff) (commits : terms.timeoutOutputs = some outputs) :
    (∃ total, debits.edge.closeValue (timeoutCloseCost outputs.len terms.isWorkBond) = some total ∧
      Words.total Payout.value outputs.items = total.toNat) ∧
    ∀ payout ∈ outputs.items, terms.parties.isDestination payout false = true := by
  have required := accepts.debits_parts.2.2
  have committed := accepts.committed
  simp only [timeoutPayout,commits,bind_ok,okOr_ok,pure_ok] at required
  obtain ⟨total,priced,same⟩ := required
  simp only [checkTimeoutPayout,← same,commits,bind_ok,okOr_ok,rejectIf_ok,BoundedList.checkedSum,checkedSum_exact,not_not] at committed
  obtain ⟨_,summed,_,rfl,paid⟩ := committed
  exact ⟨⟨_,priced,summed⟩,paid⟩

theorem opened (accepts : OpenAccepts funding terms makerAuth takerAuth context verifier batch coins
    debits diff) : debits.edge.OpenedWith terms := by
  obtain ⟨-,⟨timeout,parties,hash,allowed⟩,-⟩ := accepts.debits_parts
  refine ⟨timeout,parties,hash,allowed,fun outputs commits => accepts.exits commits,?_,?_⟩
  · rintro bond rfl
    have profile := accepts.profile
    simp only [checkWorkProfileOpen,bind_ok,rejectIf_ok,checkWorkBondPolicy_exact] at profile
    obtain ⟨_,⟨-,paid⟩,_,_,_,staked,-⟩ := profile
    exact ⟨staked,paid⟩
  · rintro payment rfl
    have profile := accepts.profile
    simp only [checkWorkProfileOpen,bind_ok,rejectIf_ok,checkPaymentCapacity_exact] at profile
    obtain ⟨_,_,_,_,_,_,settles⟩ := profile
    exact settles

theorem funded (accepts : OpenAccepts funding terms makerAuth takerAuth context verifier batch coins
    debits diff) (worth : 0 < debits.edge.locked) :
    ∃ entry ∈ coins, 0 < entry.2.value.toNat := by
  have balanced := accepts.debits_parts.1.2.2
  exact total_pos (by omega)

end OpenAccepts

end Hellas.Kernel
