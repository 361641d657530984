import Hellas.Grants.Exposure
import Mathlib.Algebra.Order.BigOperators.Group.List

-- Operator prices: what a usage costs, what is reserved for a bound, and what is settled for the
-- usage that was measured.

namespace Hellas.Grants

open Authority Guard Words

structure UnitPrice where
  meter : Meter
  usdMicros : UInt64
  units : UInt64
  nonzero : units ≠ 0
  deriving DecidableEq

-- No table is unpriced; an empty table rates everything at zero.
structure Pricing where
  revision : Revision
  rates : Option (List UnitPrice)
  deriving DecidableEq

inductive PricingError where
  | invalid
  | overflow
  deriving DecidableEq

-- The product is taken in twice the width, and rounded up once.
def UnitPrice.cost (rate : UnitPrice) (usage : Charge) : Nat :=
  ((usage rate.meter).toNat * rate.usdMicros.toNat + (rate.units.toNat - 1)) / rate.units.toNat

def Charge.set (usage : Charge) (meter : Meter) (value : UInt64) : Charge := Function.update usage meter value

namespace Pricing

def InvalidRates (rates : List UnitPrice) : Prop :=
  4 < rates.length ∨ ¬(rates.map UnitPrice.meter).Nodup ∨ ∃ rate ∈ rates, rate.meter = .usdMicros

instance {rates : List UnitPrice} : Decidable (InvalidRates rates) :=
  inferInstanceAs (Decidable (_ ∨ _ ∨ _))

def validate (pricing : Pricing) : Except PricingError Unit := do
  rejectIf (pricing.revision = 0) .invalid
  rejectIf (pricing.rates.any fun rates => InvalidRates rates) .invalid

def addCost (usage : Charge) (total : UInt64) (rate : UnitPrice) : Except PricingError UInt64 := do
  rejectIf (2^64 ≤ rate.cost usage) .overflow
  okOr (checkedAdd total (UInt64.ofNat (rate.cost usage))) .overflow

def quoteRates (usage : Charge) : Option (List UnitPrice) → Except PricingError (Option UInt64)
  | none => .ok none
  | some rates => some <$> rates.foldlM (addCost usage) 0

def quote (pricing : Pricing) (usage : Charge) : Except PricingError (Option UInt64) := do
  pricing.validate
  quoteRates usage pricing.rates

def reserve (pricing : Pricing) (usage : Charge) : Except PricingError Charge := do
  let amount ← pricing.quote usage
  pure (usage.set .usdMicros (amount.getD 0))

-- A cost that cannot be written down is settled as the largest that can.
def settle (pricing : Pricing) (usage : Charge) : Except PricingError Charge :=
  match pricing.quote usage with
  | .ok amount => .ok (usage.set .usdMicros (amount.getD 0))
  | .error .overflow => .ok (usage.set .usdMicros (UInt64.ofNat (2^64 - 1)))
  | .error .invalid => .error .invalid

def due (pricing : Pricing) (usage : Charge) : Nat := ((pricing.rates.getD []).map fun rate => rate.cost usage).sum

section Quotes

variable {pricing : Pricing} {usage bound actual reserved : Charge} {rates : List UnitPrice}

variable {rate : UnitPrice} {total sum : UInt64}

theorem addCost_ok : addCost usage total rate = .ok sum ↔ total.toNat + rate.cost usage = sum.toNat := by
  have bounded := sum.toNat_lt
  simp only [addCost,bind_ok,rejectIf_ok,okOr_ok,checkedAdd_exact,Nat.not_le]
  constructor
  · intro passed
    obtain ⟨_,small,added⟩ := passed
    rwa [UInt64.toNat_ofNat_of_lt' small] at added
  · intro added
    have small : rate.cost usage < 2^64 := by omega
    exact ⟨(),small,by rwa [UInt64.toNat_ofNat_of_lt' small]⟩

theorem addCosts_ok :
    rates.foldlM (addCost usage) total = .ok sum ↔ total.toNat + (rates.map fun rate => rate.cost usage).sum = sum.toNat := by
  induction rates generalizing total with
  | nil => simp [List.foldlM,UInt64.toNat_inj]
  | cons rate rates ih =>
    simp only [List.foldlM_cons,bind_ok,List.map_cons,List.sum_cons]
    constructor
    · intro passed
      obtain ⟨middle,first,rest⟩ := passed
      have one := addCost_ok.mp first
      have more := ih.mp rest
      omega
    · intro added
      have bounded := sum.toNat_lt
      obtain ⟨middle,same⟩ := @exists_word (total.toNat + rate.cost usage) (by omega)
      refine ⟨middle,addCost_ok.mpr same,ih.mpr ?_⟩
      omega

theorem addCosts_error {failure : PricingError} (failed : rates.foldlM (addCost usage) total = .error failure) : failure = .overflow := by
  have only : Avoids (· ≠ PricingError.overflow) (rates.foldlM (addCost usage) total) := by
    refine avoids_foldlM fun total rate => ?_
    simp [addCost]
  exact not_not.mp (only failure failed)

theorem quote_ok (valid : pricing.validate = .ok ()) (fits : pricing.due usage < 2^64) :
    ∃ amount, pricing.quote usage = .ok amount ∧ (amount.getD 0).toNat = pricing.due usage := by
  unfold due at fits ⊢
  cases table : pricing.rates with
  | none =>
    refine ⟨none,?_,rfl⟩
    simp only [quote,bind_ok]
    exact ⟨(),valid,by rw [table]; rfl⟩
  | some rates =>
    rw [table] at fits
    obtain ⟨sum,same⟩ := exists_word fits
    refine ⟨some sum,?_,same.symm⟩
    simp only [quote,bind_ok]
    refine ⟨(),valid,?_⟩
    rw [table,quoteRates,map_ok]
    refine ⟨sum,addCosts_ok.mpr ?_,rfl⟩
    rw [← same]
    exact Nat.zero_add _

theorem quote_over (valid : pricing.validate = .ok ()) (large : 2^64 ≤ pricing.due usage) :
    pricing.quote usage = .error .overflow := by
  unfold due at large
  have table : ∃ rates, pricing.rates = some rates := by
    cases table : pricing.rates with
    | none => simp [table] at large
    | some rates => exact ⟨rates,rfl⟩
  obtain ⟨rates,table⟩ := table
  rw [table] at large
  cases summed : rates.foldlM (addCost usage) 0 with
  | ok sum =>
    have precise := addCosts_ok.mp summed
    have bounded := sum.toNat_lt
    have zero : (0 : UInt64).toNat = 0 := rfl
    rw [Option.getD_some] at large
    omega
  | error failure =>
    rw [quote,bind_error]
    refine .inr ⟨(),valid,?_⟩
    rw [table,quoteRates,summed,addCosts_error summed]
    rfl

theorem quote_overflows (valid : pricing.validate = .ok ()) :
    pricing.quote usage = .error .overflow ↔ 2^64 ≤ pricing.due usage := by
  constructor
  · intro excess
    by_contra small
    obtain ⟨amount,quoted,-⟩ := quote_ok valid (Nat.not_le.mp small)
    rw [quoted] at excess
    cases excess
  · exact quote_over valid

theorem reserve_ok (valid : pricing.validate = .ok ()) (reserves : pricing.reserve usage = .ok reserved) :
    pricing.due usage < 2^64 ∧ (reserved .usdMicros).toNat = pricing.due usage ∧
      ∀ meter, meter ≠ .usdMicros → reserved meter = usage meter := by
  simp only [reserve,bind_ok,pure_ok] at reserves
  obtain ⟨amount,quoted,rfl⟩ := reserves
  have fits : pricing.due usage < 2^64 := by
    by_contra large
    rw [quote_over valid (Nat.not_lt.mp large)] at quoted
    cases quoted
  obtain ⟨again,same,precise⟩ := quote_ok valid fits
  rw [quoted] at same
  cases same
  refine ⟨fits,?_,fun meter other => Function.update_of_ne other _ _⟩
  rw [Charge.set,Function.update_self,precise]

theorem settle_ok (valid : pricing.validate = .ok ()) :
    ∃ settled, pricing.settle usage = .ok settled ∧ (settled .usdMicros).toNat = min (pricing.due usage) (2^64 - 1) ∧
      ∀ meter, meter ≠ .usdMicros → settled meter = usage meter := by
  by_cases fits : pricing.due usage < 2^64
  · obtain ⟨amount,quoted,precise⟩ := quote_ok valid fits
    refine ⟨_,by rw [settle,quoted],?_,fun meter other => Function.update_of_ne other _ _⟩
    rw [Charge.set,Function.update_self,precise]
    omega
  · refine ⟨_,by rw [settle,quote_over valid (Nat.not_lt.mp fits)],?_,
      fun meter other => Function.update_of_ne other _ _⟩
    rw [Charge.set,Function.update_self]
    have top : (UInt64.ofNat (2^64 - 1)).toNat = 2^64 - 1 := rfl
    rw [top]
    omega

theorem cost_mono (less : actual rate.meter ≤ bound rate.meter) : rate.cost actual ≤ rate.cost bound :=
  Nat.div_le_div_right (Nat.add_le_add_right (Nat.mul_le_mul_right _ (UInt64.le_iff_toNat_le.mp less)) _)

theorem due_mono (valid : pricing.validate = .ok ()) (less : ∀ meter, meter ≠ .usdMicros → actual meter ≤ bound meter) :
    pricing.due actual ≤ pricing.due bound := by
  refine List.sum_le_sum fun rate listed => cost_mono (less rate.meter fun money => ?_)
  simp only [validate,bind_ok,rejectIf_ok] at valid
  obtain ⟨_,-,rated⟩ := valid
  cases table : pricing.rates with
  | none => simp [table] at listed
  | some rates =>
    rw [table] at listed rated
    simp only [Option.any_some,decide_eq_true_eq] at rated
    exact rated (.inr (.inr ⟨rate,listed,money⟩))

theorem exceeds_iff (valid : pricing.validate = .ok ()) (reserves : pricing.reserve bound = .ok reserved)
    (settles : pricing.settle actual = .ok settled) :
    settled.Exceeds reserved ↔ ∃ meter, meter ≠ .usdMicros ∧ bound meter < actual meter := by
  obtain ⟨fits,money,usages⟩ := reserve_ok valid reserves
  obtain ⟨again,same,paid,spent⟩ := @settle_ok pricing actual valid
  rw [settles] at same
  cases same
  constructor
  · intro excess
    obtain ⟨meter,-,above⟩ := excess
    by_contra within
    have less : ∀ meter, meter ≠ .usdMicros → actual meter ≤ bound meter :=
      fun meter other => UInt64.not_lt.mp fun above => within ⟨meter,other,above⟩
    by_cases isMoney : meter = .usdMicros
    · subst isMoney
      have ordered := due_mono valid less
      have more := UInt64.lt_iff_toNat_lt.mp above
      omega
    · rw [usages meter isMoney,spent meter isMoney] at above
      exact absurd above (UInt64.not_lt.mpr (less meter isMoney))
  · intro excess
    obtain ⟨meter,other,above⟩ := excess
    refine ⟨meter,Meter.mem_all,?_⟩
    rw [usages meter other,spent meter other]
    exact above

end Quotes

end Pricing

namespace Ledger

section Settled

variable {ledger : Ledger} {work : Digest} {held : Held} {time : UnixMillis} {id : BudgetNode}

theorem charged_exhausted (sound : ledger.Sound) (found : ledger.held.lookup work = some held)
    (inside : id ∈ held.path) (largest : (actual meter).toNat = 2^64 - 1) :
    (ledger.charged work held (.observed actual) time).used id meter window = 2^64 - 1 := by
  have spent : (ledger.charged work held (.observed actual) time).node id = ((ledger.advance time).node id).map fun node =>
        if id ∈ held.path then node.spend actual else node := Slots.lookup_mapAll
  obtain ⟨node,there⟩ := Option.ne_none_iff_exists'.mp (sound.placed found id inside)
  rw [used,spent,advance_node,there]
  simp only [Option.map_some,Option.getD_some,if_pos inside,Node.spend,saturatingAdd_eq]
  omega

end Settled

-- Usage alone decides an overrun. A job that stayed within its bound pays the exact price, and
-- keeps within its limit every counter that had room for all that was held through it.
theorem usage_decides_overrun {pricing : Pricing} (valid : pricing.validate = .ok ()) {bound reserved : Charge}
    (reserves : pricing.reserve bound = .ok reserved) {earlier : List Operation} {ledger : Ledger}
    (reached : ledger = empty.performAll earlier) {work : Digest} {path : List BudgetNode}
    (held : ledger.held.lookup work = some ⟨path,reserved⟩) (actual : Charge) (time : UnixMillis) :
    ∃ settled after overrun, pricing.settle actual = .ok settled ∧
      ledger.settle work (.observed settled) time = (after, .ok overrun) ∧
      (overrun = true ↔ ∃ meter, meter ≠ .usdMicros ∧ bound meter < actual meter) ∧
      (overrun = false → (∀ meter, settled meter ≤ reserved meter) ∧ (settled .usdMicros).toNat =
          ((pricing.rates.getD []).map fun rate => rate.cost actual).sum ∧
        ∀ id ∈ path, ∀ limit ∈ ledger.limitsOf id, ledger.Fits id limit → after.Fits id limit ∧
            after.used id limit.meter limit.window ≤ limit.amount.toNat) ∧
      (pricing.quote actual = .error .overflow → overrun = true ∧
        ∀ id ∈ path, ∀ window, after.used id .usdMicros window = 2^64 - 1) := by
  have sound : ledger.Sound := reached ▸ performAll_sound sound_empty
  obtain ⟨settled,settles,paid,spent⟩ := @Pricing.settle_ok pricing actual valid
  obtain ⟨fits,money,usages⟩ := Pricing.reserve_ok valid reserves
  have decides := Pricing.exceeds_iff valid reserves settles
  refine ⟨settled,_,_,settles,settle_held sound held,?_,?_,?_⟩
  · rw [decide_eq_true_iff]
    exact decides
  · intro within
    rw [decide_eq_false_iff_not] at within
    have bounded : ∀ meter, settled meter ≤ reserved meter :=
      fun meter => UInt64.not_lt.mp fun above => within ⟨meter,Meter.mem_all,above⟩
    have less : ∀ meter, meter ≠ .usdMicros → actual meter ≤ bound meter := fun meter other =>
      UInt64.not_lt.mp fun above => within (decides.mpr ⟨meter,other,above⟩)
    refine ⟨bounded,?_,fun id inside limit listed room => ?_⟩
    · change _ = pricing.due actual
      have cheaper := Pricing.due_mono valid less
      omega
    · have effect : Effect ledger (.settle work (.observed settled) time)
          (ledger.perform (.settle work (.observed settled) time)) := perform_effect sound
      have after := effect.fits sound listed (fun other found meter => by
        rw [held] at found
        cases found
        exact bounded meter) room
      rw [perform,settle_held sound held] at after
      exact ⟨after,(Nat.le_add_right _ _).trans after⟩
  · intro excess
    rw [Pricing.quote_overflows valid] at excess
    have largest : (settled .usdMicros).toNat = 2^64 - 1 := by omega
    refine ⟨?_,fun id inside window => charged_exhausted sound held inside largest⟩
    rw [decide_eq_true_iff]
    -- The money reserved may itself be the largest amount, so the usage has to show it.
    by_contra within
    have less : ∀ meter, meter ≠ .usdMicros → actual meter ≤ bound meter := fun meter other =>
      UInt64.not_lt.mp fun above => within (decides.mpr ⟨meter,other,above⟩)
    have cheaper := Pricing.due_mono valid less
    omega

namespace Sample

def second : Digest := ⟨List.replicate 32 5,rfl⟩

def shared : Limit := ⟨.requests,.total,20⟩

def rates : Pricing := ⟨1,some [⟨.requests,3,2,by decide⟩]⟩

def requests (count : UInt64) : Charge := fun meter => if meter = .requests then count else 0

def priced (count money : UInt64) : Charge := (requests count).set .usdMicros money

def both : List Operation :=
  [.configureMachine [] 8,.configureBudget ⟨.account account,.machine,1,[],9,by decide⟩,
    .configureBudget ⟨.pool pool,.account account,1,[],9,by decide⟩,
    .configureBudget ⟨holder,.pool pool,1,[shared],2,by decide⟩,
    .reserve work holder (priced 10 15) 0,.reserve second holder (priced 10 15) 0]

def lineage : List BudgetNode := [.machine,.account account,.pool pool,holder]

theorem usage_decides_overrun_both :
    ∃ settled after overrun, rates.settle (requests 7) = .ok settled ∧
      (empty.performAll both).settle work (.observed settled) 0 = (after, .ok overrun) ∧
      (settled .usdMicros).toNat = 11 ∧ after.Fits holder shared := by
  have held : (empty.performAll both).held.lookup work = some ⟨lineage,priced 10 15⟩ := by
    decide +kernel
  have valid : rates.validate = .ok () := by decide
  have reserves : rates.reserve (requests 10) = .ok (priced 10 15) := by decide +kernel
  obtain ⟨settled,after,overrun,settles,done,decides,within,-⟩ :=
    usage_decides_overrun valid reserves rfl held (requests 7) 0
  have fine : overrun = false := by
    rw [← Bool.not_eq_true,decides]
    decide +kernel
  obtain ⟨-,paid,kept⟩ := within fine
  refine ⟨settled,after,overrun,settles,done,paid.trans (by decide +kernel),?_⟩
  exact (kept holder (by decide +kernel) shared (by decide +kernel)
    (show _ ≤ _ by decide +kernel)).1

-- The counter alone says nothing about the room its limit has left: another job's overrun may have
-- taken it.
def overrun : List Operation := both ++ [.settle second (.observed (priced 15 23)) 0]

theorem counter_within_limit_passes_it :
    rates.validate = .ok () ∧ rates.reserve (requests 10) = .ok (priced 10 15) ∧
    (empty.performAll overrun).held.lookup work = some ⟨lineage,priced 10 15⟩ ∧
    shared ∈ (empty.performAll overrun).limitsOf holder ∧
    (empty.performAll overrun).used holder .requests .total ≤ shared.amount.toNat ∧
    rates.settle (requests 10) = .ok (priced 10 15) ∧
    ((empty.performAll overrun).settle work (.observed (priced 10 15)) 0).2 = .ok false ∧
    shared.amount.toNat < ((empty.performAll overrun).settle work
      (.observed (priced 10 15)) 0).1.used holder .requests .total := by
  decide +kernel

end Sample

end Ledger

end Hellas.Grants
