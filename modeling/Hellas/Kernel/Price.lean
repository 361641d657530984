import Hellas.Kernel.Event

-- Resource costs of opens and closes, and the reserve an open sets aside for its close.

namespace Hellas.Kernel

open Words

def units (value : Nat) : UInt64 := UInt64.ofNat (min value (2^64 - 1))

def Terms.isWorkBond : Terms → Bool
  | .workStakeBond _ => true
  | _ => false

def workBondTimeoutExtraSlots : UInt64 := 4

def timeoutCloseCost (outputs : Nat) (workBond : Bool) : Cost :=
  let extra := if workBond then workBondTimeoutExtraSlots else 1
  ⟨1,saturatingAdd (units outputs) extra,CloseKind.timeout.proofs⟩

def kindCloseCost (outputs : Nat) (kind : CloseKind) : Cost :=
  match kind with
  | .freeze | .adjudicated => workPaymentCloseCost kind
  | .mutualClose | .timeout => ⟨1,saturatingAdd (units outputs) 1,kind.proofs⟩

-- Only a timeout reveals the terms its price depends on.
def closeCost (outputs : Nat) (proof : Proof) : Cost :=
  match proof with
  | .timeout terms _ => timeoutCloseCost outputs terms.isWorkBond
  | .mutualClose .. | .freeze .. | .adjudicated _ => kindCloseCost outputs proof.kind

def openWitnesses : UInt64 := 2

def openCost (coins : Nat) (terms : Terms) : Cost :=
  let inputs := units coins
  match terms with
  | .workPayment _ => ⟨1,saturatingAdd inputs 4,openWitnesses⟩
  | .workStakeBond _ | .basic .. => ⟨1,saturatingAdd inputs 1,openWitnesses⟩

-- The dearest close of the shape, at the maximum payout fanout.
def openReserveCost (terms : Terms) : Cost :=
  match terms with
  | .workPayment _ => workPaymentReserveCost
  | .workStakeBond _ => ⟨1,saturatingAdd (units maxEdgeOutputs) workBondTimeoutExtraSlots,CloseKind.mutualClose.proofs⟩
  | .basic .. => kindCloseCost maxEdgeOutputs .mutualClose

end Hellas.Kernel
