import Hellas.Kernel.Identity

-- The change a transaction stages: its public event, its effect on objects and its registry diff.

namespace Hellas.Kernel

open Guard

abbrev Coins := List (CoinId × Coin)

inductive EventKind where
  | edgeOpened (inputs : List CoinId) (output : EdgeId)
  | edgeClosed (input : EdgeId) (outputs : List CoinId)
  | coinsReshaped (inputs outputs : List CoinId)
  deriving DecidableEq

inductive Effect where
  | opened (coins : Coins) (edge : EdgeId × Edge)
  | closed (edge : EdgeId × Edge) (coins : Coins)
  | reshaped (inputs outputs : Coins)
  deriving DecidableEq

inductive Change where
  | visible (event : EventKind) (effect : Effect) (registry : RegistryDiff)
  | hidden (registry : RegistryDiff)
  deriving DecidableEq

structure ApplyOutcome where
  publicEvent : Option EventKind
  registry : RegistryDiff
  deriving DecidableEq

namespace Change

def ids (coins : Coins) : List CoinId := coins.map Prod.fst

def opened (inputs : Coins) (output : EdgeId × Edge) : Change := .visible (.edgeOpened (ids inputs) output.1) (.opened inputs output) .empty

def closed (input : EdgeId × Edge) (outputs : Coins) : Change := .visible (.edgeClosed input.1 (ids outputs)) (.closed input outputs) .empty

def reshaped (inputs outputs : Coins) : Change := .visible (.coinsReshaped (ids inputs) (ids outputs)) (.reshaped inputs outputs) .empty

def withRegistry (change : Change) (diff : RegistryDiff) : Change :=
  match change with
  | .visible event effect _ => .visible event effect diff
  | .hidden _ => .hidden diff

def outcome : Change → ApplyOutcome
  | .visible event _ registry => ⟨some event,registry⟩
  | .hidden registry => ⟨none,registry⟩

end Change

namespace Effect

def insertCoin (backend : Backend) (batch : Batch) (coin : CoinId × Coin) :
    Except ApplyError Batch :=
  (batch.insertCoin backend coin.1 coin.2).mapError (.coinInsertRejected coin.1)

def removeCoin (batch : Batch) (coin : CoinId × Coin) : Except ApplyError Batch :=
  match batch.removeCoin coin.1 with
  | (some removed, rest) =>
    if removed = coin.2 then .ok rest else .error (.coinChanged coin.1)
  | (none, _) => .error (.missingCoin coin.1)

def insertEdge (backend : Backend) (batch : Batch) (edge : EdgeId × Edge) :
    Except ApplyError Batch :=
  (batch.insertEdge backend edge.1 edge.2).mapError (.edgeInsertRejected edge.1)

def removeEdge (batch : Batch) (edge : EdgeId × Edge) : Except ApplyError Batch :=
  match batch.removeEdge edge.1 with
  | (some removed, rest) =>
    if removed = edge.2 then .ok rest else .error (.edgeChanged edge.1)
  | (none, _) => .error (.missingEdge edge.1)

def insertCoins (backend : Backend) (batch : Batch) (coins : Coins) : Except ApplyError Batch := coins.foldlM (insertCoin backend) batch

def removeCoins (batch : Batch) (coins : Coins) : Except ApplyError Batch := coins.foldlM removeCoin batch

def fold (backend : Backend) (batch : Batch) : Effect → Except ApplyError Batch
  | .opened coins edge => do insertEdge backend (← removeCoins batch coins) edge
  | .closed edge coins => do insertCoins backend (← removeEdge batch edge) coins
  | .reshaped inputs outputs => do insertCoins backend (← removeCoins batch inputs) outputs

end Effect

def Change.fold (backend : Backend) (batch : Batch) : Change → Except ApplyError Batch
  | .visible _ effect registry => do registry.fold backend (← effect.fold backend batch)
  | .hidden registry => registry.fold backend batch

end Hellas.Kernel
