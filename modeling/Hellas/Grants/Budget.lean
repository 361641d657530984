import Hellas.Authority.Types
import Hellas.Lib.Lineage
import Mathlib.Data.Fintype.Pi

-- Budgets of work done on grants: what is metered, over which windows, and the ledger of what is
-- used and what is held along the path from the machine down to a subject.

namespace Hellas.Grants

open Authority Guard Kernel Lineage Words

def maxBudgetPathLen : Nat := 11

inductive Meter where
  | requests
  | inputTokens
  | outputTokens
  | deviceMillis
  | usdMicros
  deriving DecidableEq

def Meter.all : List Meter := [.requests,.inputTokens,.outputTokens,.deviceMillis,.usdMicros]

@[simp] theorem Meter.mem_all : meter ∈ Meter.all := by
  cases meter <;> decide

instance : Fintype Meter := ⟨Meter.all.toFinset,fun _ => List.mem_toFinset.mpr Meter.mem_all⟩

inductive Window where
  | hour
  | day
  | week
  | total
  deriving DecidableEq

def Window.all : List Window := [.hour,.day,.week,.total]

@[simp] theorem Window.mem_all : window ∈ Window.all := by
  cases window <;> decide

instance : Fintype Window := ⟨Window.all.toFinset,fun _ => List.mem_toFinset.mpr Window.mem_all⟩

def Window.id : Window → UnixMillis → Nat
  | .hour, time => time / 3600000
  | .day, time => time / 86400000
  | .week, time => (time / 86400000 + 3) / 7
  | .total, _ => 0

theorem Window.id_mono {window : Window} (ordered : early ≤ late) : window.id early ≤ window.id late := by
  have days : early / 86400000 ≤ late / 86400000 := Nat.div_le_div_right ordered
  cases window with
  | hour => exact Nat.div_le_div_right ordered
  | day => exact days
  | week => exact Nat.div_le_div_right (Nat.add_le_add_right days 3)
  | total => exact le_refl 0

structure PoolId where
  raw : FixedBytes 16
  deriving DecidableEq

inductive BudgetNode where
  | machine
  | account (id : ResourceId)
  | pool (id : PoolId)
  | subject (pool : PoolId) (subject : PrincipalId)
  deriving DecidableEq

namespace BudgetNode

def ValidParent : BudgetNode → BudgetNode → Prop
  | .account _, .machine => True
  | .pool _, .account _ => True
  | .subject home _, .pool parent => home = parent
  | .subject home holder, .subject parent ancestor => home = parent ∧ holder ≠ ancestor
  | _, _ => False

instance : (node parent : BudgetNode) → Decidable (node.ValidParent parent)
  | .account _, .machine => inferInstanceAs (Decidable True)
  | .pool _, .account _ => inferInstanceAs (Decidable True)
  | .subject home _, .pool parent => inferInstanceAs (Decidable (home = parent))
  | .subject home holder, .subject parent ancestor => inferInstanceAs (Decidable (home = parent ∧ holder ≠ ancestor))
  | .machine, _ => inferInstanceAs (Decidable False)
  | .account _, .account _ => inferInstanceAs (Decidable False)
  | .account _, .pool _ => inferInstanceAs (Decidable False)
  | .account _, .subject _ _ => inferInstanceAs (Decidable False)
  | .pool _, .machine => inferInstanceAs (Decidable False)
  | .pool _, .pool _ => inferInstanceAs (Decidable False)
  | .pool _, .subject _ _ => inferInstanceAs (Decidable False)
  | .subject _ _, .machine => inferInstanceAs (Decidable False)
  | .subject _ _, .account _ => inferInstanceAs (Decidable False)

def isSubject : BudgetNode → Bool
  | .subject _ _ => true
  | _ => false

end BudgetNode

structure Limit where
  meter : Meter
  window : Window
  amount : UInt64
  deriving DecidableEq

structure BudgetDef where
  node : BudgetNode
  parent : BudgetNode
  revision : Revision
  limits : List Limit
  maxInFlight : Nat
  positive : 0 < maxInFlight
  deriving DecidableEq

abbrev Charge := Meter → UInt64

def Charge.Exceeds (actual bound : Charge) : Prop := ∃ meter ∈ Meter.all, bound meter < actual meter

instance {actual bound : Charge} : Decidable (actual.Exceeds bound) :=
  inferInstanceAs (Decidable (∃ meter ∈ Meter.all, bound meter < actual meter))

inductive Usage where
  | observed (charge : Charge)
  | unknown
  deriving DecidableEq

end Hellas.Grants
