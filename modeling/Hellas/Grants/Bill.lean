import Hellas.Grants.Tree

-- The counters against the books: every settlement leaves a receipt, and a counter is the sum of the
-- receipts of its window.

namespace Hellas.Grants.Ledger

open Authority

structure Receipt where
  time : UnixMillis
  path : List BudgetNode
  charge : Charge

def receipt (ledger : Ledger) : Operation → Option Receipt
  | .settle work usage time => (ledger.held.lookup work).map fun held =>
    ⟨(ledger.settle work usage time).1.highWater,held.path,actualOf usage held⟩
  | _ => none

def receipts : Ledger → List Operation → List Receipt
  | _, [] => []
  | ledger, operation :: rest => (ledger.receipt operation).toList ++ receipts (ledger.perform operation) rest

def Receipt.bills (receipt : Receipt) (id : BudgetNode) (meter : Meter) (window : Window) (now : Nat) : Nat :=
  if id ∈ receipt.path ∧ window.id receipt.time = now then (receipt.charge meter).toNat else 0

variable {ledger after : Ledger} {operations : List Operation} {operation : Operation} {id : BudgetNode}
  {meter : Meter} {window : Window} {now : Nat}

-- What moving the clock leaves of a counter.
structure Rolls (ledger after : Ledger) (added : Nat) (id : BudgetNode) (meter : Meter) (window : Window) : Prop where
  later : ledger.highWater ≤ after.highWater
  used : after.used id meter window =
    (if window.id ledger.highWater < window.id after.highWater then 0 else ledger.used id meter window) + added

theorem Turn.rolls (turn : Turn ledger operation after) (current : ledger.Current)
    (other : ∀ work usage time, operation ≠ .settle work usage time) : Rolls ledger after 0 id meter window := by
  cases turn with
  | refused | released => exact ⟨le_refl _,by simp [used,node]⟩
  | configured configures => exact ⟨le_refl _,by simp [configured_used configures]⟩
  | advanced => exact ⟨le_max_left _ _,current.used_advance⟩
  | reserved => exact ⟨le_max_left _ _,current.used_advance⟩
  | @settled work _ usage time => exact absurd rfl (other work usage time)

theorem perform_rolls (kept : ledger.Kept) (precise : ledger.Unsaturated operation) :
    Rolls ledger (ledger.perform operation) (((ledger.receipt operation).map
      (·.bills id meter window (window.id (ledger.perform operation).highWater))).getD 0) id meter window := by
  cases operation with
  | settle work usage time =>
    cases found : ledger.held.lookup work with
    | none =>
      rw [perform,settle_absent found,receipt,found]
      exact ⟨le_refl _,by simp⟩
    | some held =>
      obtain ⟨subject,-,walked⟩ := kept.rooted.held work held found
      rw [perform,settle_held kept.sound found,receipt,found]
      refine ⟨le_max_left _ _,?_⟩
      rw [charged_used kept.current (fun id inside => path_placed walked inside) fun id inside => precise held found id inside meter window]
      refine congrArg₂ (· + ·) rfl ?_
      simp [Receipt.bills,settle_held kept.sound found]
  | _ =>
    refine (perform_turn kept.sound kept.rooted _).rolls kept.current ?_
    intro work usage time same
    cases same

-- A receipt of a window that has passed since bills nothing.
theorem receipt_past (passed : window.id (ledger.perform operation).highWater < now) :
    ((ledger.receipt operation).map (·.bills id meter window now)).getD 0 = 0 := by
  cases operation with
  | settle work usage time =>
    rw [receipt]
    cases ledger.held.lookup work with
    | none => rfl
    | some held => exact if_neg fun both => passed.ne both.2
  | _ => rfl

theorem performAll_rolls (kept : ledger.Kept) (precise : Throughout Unsaturated ledger operations) :
    Rolls ledger (ledger.performAll operations) ((receipts ledger operations).map
      (·.bills id meter window (window.id (ledger.performAll operations).highWater))).sum id meter window := by
  induction operations generalizing ledger with
  | nil => exact ⟨le_refl _,by simp [receipts,performAll]⟩
  | cons operation rest ih =>
    have step := @perform_rolls ledger operation id meter window kept precise.1
    have next : (ledger.perform operation).Kept := @performAll_kept ledger [operation] kept ⟨precise.1,trivial⟩
    have run := ih next precise.2
    have first : window.id ledger.highWater ≤ window.id (ledger.perform operation).highWater := Window.id_mono step.later
    have split : ∀ now, ((receipts ledger (operation :: rest)).map (·.bills id meter window now)).sum =
        ((ledger.receipt operation).map (·.bills id meter window now)).getD 0 +
          ((receipts (ledger.perform operation) rest).map (·.bills id meter window now)).sum := by
      intro now
      cases written : ledger.receipt operation <;> simp [receipts,written]
    refine ⟨step.later.trans run.later,?_⟩
    rw [split,← Nat.add_assoc]
    refine run.used.trans (congrArg (· + _) ?_)
    by_cases moved : window.id (ledger.perform operation).highWater < window.id ((ledger.perform operation).performAll rest).highWater
    · exact (if_pos moved).trans (congrArg₂ (· + ·) (if_pos (first.trans_lt moved)) (receipt_past moved)).symm
    · have same := Nat.le_antisymm (Window.id_mono run.later) (Nat.not_lt.mp moved)
      refine (if_neg moved).trans (step.used.trans ?_)
      rw [same]
      rfl

-- Every counter is exactly the sum of the actual charges settled through its node in its window.
theorem counters_match_receipts (operations : List Operation) (precise : Throughout Unsaturated empty operations)
    (id : BudgetNode) (meter : Meter) (window : Window) :
    let ledger := empty.performAll operations
    ledger.used id meter window = ((receipts empty operations).map (·.bills id meter window (window.id ledger.highWater))).sum := by
  intro ledger
  rw [(performAll_rolls kept_empty precise).used]
  split
  · exact Nat.zero_add _
  · exact Nat.zero_add _

namespace Sample

theorem counters_match_receipts_next_hour : ((receipts empty (setup ++ nextHour)).map
    (·.bills .machine .requests .hour (Window.id .hour (empty.performAll (setup ++ nextHour)).highWater))).sum = 10 := by
  refine (counters_match_receipts (setup ++ nextHour) ?_ _ _ _).symm.trans (by decide +kernel)
  refine ⟨trivial,trivial,trivial,trivial,trivial,trivial,?_,trivial⟩
  show ∀ held ∈ (empty.performAll (setup ++ [.advance 3600000])).held.lookup work, ∀ id ∈ held.path, ∀ meter window,
      ((empty.performAll (setup ++ [.advance 3600000])).advance 3600000).used id meter window + (actualOf .unknown held meter).toNat < 2^64
  decide +kernel

end Sample

end Hellas.Grants.Ledger
