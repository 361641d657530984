import Hellas.Kernel.Lease

-- What a work-payment close distributes, and to whom.

namespace Hellas.Kernel

open Guard Words

def workPaymentCloseSlots : UInt64 := 4

def workPaymentCloseCost (kind : CloseKind) : Cost := ⟨1,workPaymentCloseSlots,kind.proofs⟩

def workPaymentReserveCost : Cost := workPaymentCloseCost .freeze

-- The cheaper of the two exits bounds what a certificate may claim.
def routeMinimum (values : EdgeValues) : Option UInt64 := do
  let freeze ← values.closeValue (workPaymentCloseCost .freeze)
  let adjudicated ← values.closeValue (workPaymentCloseCost .adjudicated)
  pure (if freeze < adjudicated then freeze else adjudicated)

def closeRouteMinimum (edge : Edge) : Option UInt64 := routeMinimum edge.values

structure WorkPaymentSettlement where
  freezeTotal : UInt64
  adjudicatedTotal : UInt64
  capacity : UInt64
  omissionBond : UInt64
  deriving DecidableEq

def workPaymentSettlement (values : EdgeValues) (omissionBond : UInt64) :
    Option WorkPaymentSettlement := do
  let freezeTotal ← values.closeValue (workPaymentCloseCost .freeze)
  let adjudicatedTotal ← values.closeValue (workPaymentCloseCost .adjudicated)
  let capacity ← checkedSub (← routeMinimum values) omissionBond
  pure ⟨freezeTotal,adjudicatedTotal,capacity,omissionBond⟩

def paymentCapacity (edge : Edge) (omissionBond : UInt64) : Option UInt64 := do
  let settlement ← workPaymentSettlement edge.values omissionBond
  pure settlement.capacity

-- Owner exits are ordered maker then taker; payouts are ordered provider (taker) then client.
def splitPayouts (parties : Parties) (total providerTotal : UInt64) (ownerSigned : Bool × Bool) :
    Except InvalidProofReason (Payout × Payout) := do
  let clientTotal ← okOr (checkedSub total providerTotal) .payoutOverCapacity
  pure (parties.taker.payout providerTotal ownerSigned.2, parties.maker.payout clientTotal ownerSigned.1)

def adjudicatedPayouts (settlement : WorkPaymentSettlement) (parties : Parties)
    (finalCumulative : UInt64) (penaltyDue : Bool) (ownerSigned : Bool × Bool) :
    Except InvalidProofReason (Payout × Payout) := do
  let penalty := if penaltyDue then settlement.omissionBond else 0
  let provider ← okOr (checkedAdd finalCumulative penalty) .payoutOverCapacity
  splitPayouts parties settlement.adjudicatedTotal provider ownerSigned

def freezePayouts (settlement : WorkPaymentSettlement) (parties : Parties) (earned penalty : UInt64) (ownerSigned : Bool × Bool) :
    Except InvalidProofReason (Payout × Payout) := do
  let provider ← okOr (checkedAdd earned penalty) .payoutOverCapacity
  splitPayouts parties settlement.freezeTotal provider ownerSigned

def Payouts.pair (payouts : Payout × Payout) : Payouts := ⟨[payouts.1,payouts.2],by simp [maxEdgeOutputs]⟩

theorem routeMinimum_exact :
    routeMinimum values = some route ↔ ∃ freeze adjudicated, values.closeValue (workPaymentCloseCost .freeze) = some freeze ∧
        values.closeValue (workPaymentCloseCost .adjudicated) = some adjudicated ∧ route.toNat = min freeze.toNat adjudicated.toNat := by
  simp only [routeMinimum,Option.bind_eq_bind,Option.bind_eq_some_iff,Option.pure_def,Option.some.injEq]
  constructor
  · rintro ⟨freeze,frozen,adjudicated,settled,rfl⟩
    refine ⟨freeze,adjudicated,frozen,settled,?_⟩
    split
    · rename_i less
      rw [UInt64.lt_iff_toNat_lt] at less
      omega
    · rename_i less
      rw [UInt64.lt_iff_toNat_lt] at less
      omega
  · rintro ⟨freeze,adjudicated,frozen,settled,least⟩
    refine ⟨freeze,frozen,adjudicated,settled,?_⟩
    rw [← UInt64.toNat_inj,least]
    split
    · rename_i less
      rw [UInt64.lt_iff_toNat_lt] at less
      omega
    · rename_i less
      rw [UInt64.lt_iff_toNat_lt] at less
      omega

theorem workPaymentSettlement_exact :
    workPaymentSettlement values bond = some settlement ↔ values.closeValue (workPaymentCloseCost .freeze) = some settlement.freezeTotal ∧
        values.closeValue (workPaymentCloseCost .adjudicated) = some settlement.adjudicatedTotal ∧
        min settlement.freezeTotal.toNat settlement.adjudicatedTotal.toNat = bond.toNat + settlement.capacity.toNat ∧
        settlement.omissionBond = bond := by
  obtain ⟨freezeTotal,adjudicatedTotal,capacity,held⟩ := settlement
  simp only [workPaymentSettlement,Option.bind_eq_bind,Option.bind_eq_some_iff,Option.pure_def,
    Option.some.injEq,routeMinimum_exact,checkedSub_exact,WorkPaymentSettlement.mk.injEq]
  constructor
  · rintro ⟨freeze,frozen,adjudicated,settled,route,⟨f,a,sameF,sameA,least⟩,rest,funded,
      rfl,rfl,rfl,rfl⟩
    rw [frozen] at sameF
    rw [settled] at sameA
    cases sameF
    cases sameA
    exact ⟨frozen,settled,by omega,rfl⟩
  · rintro ⟨frozen,settled,least,rfl⟩
    have bound := freezeTotal.toNat_lt
    obtain ⟨route,routed⟩ := exists_word (show min freezeTotal.toNat adjudicatedTotal.toNat < 2^64 by omega)
    exact ⟨_,frozen,_,settled,route,⟨_,_,frozen,settled,routed.symm⟩,capacity,by omega,
      rfl,rfl,rfl,rfl⟩

theorem splitPayouts_exact {parties : Parties} {total : UInt64} {signed : Bool × Bool} {payouts : Payout × Payout} :
    splitPayouts parties total provider signed = .ok payouts ↔ ∃ client : UInt64, total.toNat = provider.toNat + client.toNat ∧
        payouts = (parties.taker.payout provider signed.2, parties.maker.payout client signed.1) := by
  simp only [splitPayouts,bind_ok,okOr_ok,checkedSub_exact,pure_ok]
  constructor
  · rintro ⟨client,funded,rfl⟩
    exact ⟨client,funded,rfl⟩
  · rintro ⟨client,funded,rfl⟩
    exact ⟨client,funded,rfl⟩

end Hellas.Kernel
