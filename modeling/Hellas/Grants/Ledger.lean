import Hellas.Grants.Budget

-- The ledger: a counter per meter and window at every node, and the charges held through it.

namespace Hellas.Grants

open Authority Guard Lineage Words

def maxBudgetNodes : Nat := 1024
def maxConcurrent : Nat := 256

structure Held where
  path : List BudgetNode
  charge : Charge
  deriving DecidableEq

structure Counter where
  windowId : Nat
  used : UInt64
  deriving DecidableEq

structure Node where
  parent : Option BudgetNode
  revision : Revision
  limits : List Limit
  concurrent : Nat
  counters : Meter → Window → Counter
  deriving DecidableEq

inductive LedgerError where
  | unknownNode
  | invalidLimits
  | overBudget (node : BudgetNode) (meter : Meter) (window : Window)
  | concurrent (node : BudgetNode)
  | duplicate
  | unknownReservation
  | invalidPath
  | revision
  | capacity
  | overflow
  deriving DecidableEq

namespace Node

def counterAt (node : Node) (meter : Meter) (window : Window) (time : UnixMillis) : Counter :=
  let counter := node.counters meter window
  if counter.windowId < window.id time then ⟨window.id time,0⟩ else counter

def advance (node : Node) (time : UnixMillis) : Node := { node with counters := fun meter window => node.counterAt meter window time }

-- One actual charge on every window of every meter.
def spend (node : Node) (actual : Charge) : Node :=
  { node with counters := fun meter window =>
      { node.counters meter window with
        used := saturatingAdd (node.counters meter window).used (actual meter) } }

end Node

structure Ledger where
  nodes : Slots BudgetNode Node
  held : Slots Digest Held
  highWater : UnixMillis
  deriving DecidableEq

namespace Ledger

def empty : Ledger := ⟨∅,∅,0⟩

def node (ledger : Ledger) (id : BudgetNode) : Option Node := ledger.nodes.lookup id

-- Only the machine stands alone, and only it is not revisioned.
def parentOf (ledger : Ledger) (id : BudgetNode) : Except LedgerError (Option BudgetNode) := do
  let node ← okOr (ledger.node id) .unknownNode
  if id = .machine then do
    rejectIf (node.parent ≠ none ∨ node.revision ≠ 0) .invalidPath
    pure none
  else do
    let parent ← okOr node.parent .invalidPath
    rejectIf (¬id.ValidParent parent ∨ node.revision = 0) .invalidPath
    pure (some parent)

def path (ledger : Ledger) (id : BudgetNode) : Except LedgerError (List BudgetNode) :=
  List.reverse <$> walk ledger.parentOf .invalidPath maxBudgetPathLen [] id

def DistinctLimits (limits : List Limit) : Prop := (limits.map fun limit => (limit.meter, limit.window)).Nodup

instance {limits : List Limit} : Decidable (DistinctLimits limits) :=
  inferInstanceAs (Decidable (List.Nodup _))

def InvalidLimits (limits : List Limit) (concurrent : Nat) : Prop :=
  concurrent = 0 ∨ maxConcurrent < concurrent ∨ Meter.all.length * Window.all.length < limits.length ∨ ¬DistinctLimits limits

instance {limits : List Limit} {concurrent : Nat} : Decidable (InvalidLimits limits concurrent) :=
  inferInstanceAs (Decidable (_ ∨ _ ∨ _ ∨ _))

-- A revision changes limits, never counters or what is held.
def configured (ledger : Ledger) (id : BudgetNode) (limits : List Limit) (concurrent : Nat) : Node :=
  match ledger.node id with
  | some node => { node with limits := limits, concurrent := concurrent }
  | none => Node.advance ⟨none,0,limits,concurrent,fun _ _ => ⟨0,0⟩⟩ ledger.highWater

def configure (ledger : Ledger) (id : BudgetNode) (limits : List Limit) (concurrent : Nat) :
    Except LedgerError Ledger := do
  rejectIf (InvalidLimits limits concurrent) .invalidLimits
  pure { ledger with nodes := ledger.nodes.insert id (ledger.configured id limits concurrent) }

def configureMachine (ledger : Ledger) (limits : List Limit) (concurrent : Nat) :
    Except LedgerError Ledger :=
  ledger.configure .machine limits concurrent

def checkRevision (ledger : Ledger) (definition : BudgetDef) : Except LedgerError Unit :=
  match ledger.node definition.node with
  | some old => rejectIf (old.parent ≠ some definition.parent ∨
      ¬definition.revision.Follows (some old.revision)) .revision
  | none => do
    rejectIf (¬definition.revision.Follows none) .revision
    rejectIf (maxBudgetNodes ≤ ledger.nodes.size) .capacity

def configureBudget (ledger : Ledger) (definition : BudgetDef) : Except LedgerError Ledger := do
  rejectIf (¬definition.node.ValidParent definition.parent) .invalidPath
  let above ← ledger.path definition.parent
  rejectIf (maxBudgetPathLen ≤ above.length) .invalidPath
  ledger.checkRevision definition
  let next ← ledger.configure definition.node definition.limits definition.maxInFlight
  let node ← okOr (next.node definition.node) .unknownNode
  let placed := { node with parent := some definition.parent, revision := definition.revision }
  pure { next with nodes := next.nodes.insert definition.node placed }

def through (ledger : Ledger) (node : BudgetNode) : List Held := ledger.held.values.filter fun held => node ∈ held.path

def activeCount (ledger : Ledger) (node : BudgetNode) : Nat := (ledger.through node).length

def reserved (ledger : Ledger) (node : BudgetNode) (meter : Meter) : UInt64 :=
  (ledger.through node).foldl (fun sum held => saturatingAdd sum (held.charge meter)) 0

def advance (ledger : Ledger) (time : UnixMillis) : Ledger :=
  let highWater := max ledger.highWater time
  { ledger with
    highWater := highWater
    nodes := ledger.nodes.mapAll fun _ node => node.advance highWater }

def spentWith (ledger : Ledger) (id : BudgetNode) (node : Node) (charge : Charge) (limit : Limit) :
    Option UInt64 := do
  let sum ← checkedAdd (node.counters limit.meter limit.window).used (ledger.reserved id limit.meter)
  checkedAdd sum (charge limit.meter)

def checkLimit (ledger : Ledger) (id : BudgetNode) (node : Node) (charge : Charge) (limit : Limit) :
    Except LedgerError Unit :=
  rejectIf ((ledger.spentWith id node charge limit).all (limit.amount < ·) = true) (.overBudget id limit.meter limit.window)

def checkNode (ledger : Ledger) (charge : Charge) (id : BudgetNode) : Except LedgerError Unit := do
  let node ← okOr (ledger.node id) .unknownNode
  rejectIf (node.concurrent ≤ ledger.activeCount id) (.concurrent id)
  Meter.all.forM fun meter => do
    let _ ← okOr (checkedAdd (ledger.reserved id meter) (charge meter)) .overflow
  node.limits.forM (ledger.checkLimit id node charge)

def reservable (ledger : Ledger) (id : Digest) (subject : BudgetNode) :
    Except LedgerError (List BudgetNode) := do
  rejectIf (ledger.held.lookup id ≠ none) .duplicate
  rejectIf (¬subject.isSubject = true) .invalidPath
  ledger.path subject

-- A refusal after the clock was moved leaves the moved clock behind.
def reserve (ledger : Ledger) (id : Digest) (subject : BudgetNode) (charge : Charge)
    (time : UnixMillis) : Ledger × Except LedgerError Unit :=
  match ledger.reservable id subject with
  | .error failure => (ledger, .error failure)
  | .ok path =>
    let rolled := ledger.advance time
    match path.forM (rolled.checkNode charge) with
    | .error failure => (rolled, .error failure)
    | .ok () => ({ rolled with held := rolled.held.insert id ⟨path,charge⟩ }, .ok ())

def spendAlong (ledger : Ledger) (actual : Charge) : List BudgetNode → Ledger × Except LedgerError Unit
  | [] => (ledger, .ok ())
  | id :: rest =>
    match ledger.node id with
    | none => (ledger, .error .unknownNode)
    | some node => spendAlong { ledger with nodes := ledger.nodes.insert id (node.spend actual) } actual rest

def actualOf (usage : Usage) (held : Held) : Charge :=
  match usage with
  | .observed charge => charge
  | .unknown => held.charge

-- Answers whether the actual charge went past the one held.
def settle (ledger : Ledger) (reservation : Digest) (usage : Usage) (time : UnixMillis) :
    Ledger × Except LedgerError Bool :=
  match ledger.held.lookup reservation with
  | none => (ledger, .error .unknownReservation)
  | some held =>
    let freed := { ledger with held := ledger.held.erase reservation }
    let actual := actualOf usage held
    let spent := (freed.advance time).spendAlong actual held.path
    (spent.1, (fun _ => decide (actual.Exceeds held.charge)) <$> spent.2)

def release (ledger : Ledger) (reservation : Digest) : Except LedgerError Ledger := do
  rejectIf (ledger.held.lookup reservation = none) .unknownReservation
  pure { ledger with held := ledger.held.erase reservation }

end Ledger

end Hellas.Grants
