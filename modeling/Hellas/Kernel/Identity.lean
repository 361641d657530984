import Hellas.Kernel.Tx

-- Derived identifiers and the payloads parties sign.

namespace Hellas.Kernel

variable [Xet]

namespace CoinId

def genesis (index : UInt32) : CoinId := ⟨Xet.hash (Domain.coinGenesis ++ encode index)⟩

def reshape (network : NetworkId) (inputs : ReshapeInputs) (index : Nat) (owner : Key) : CoinId :=
  ⟨Xet.hash (Domain.coinReshape ++ (encode network ++ (encode inputs ++ (encodeUsize index ++ encode owner))))⟩

-- The delegate is not in the preimage: the edge and the position name the coin.
def payout (edge : EdgeId) (index : Nat) (owner : Key) : CoinId :=
  ⟨Xet.hash (Domain.coinPayout ++ (encode edge ++ (encodeUsize index ++ encode owner)))⟩

end CoinId

def edgeId (funding : Funding) (termsHash : TermsHash) : EdgeId :=
  ⟨Xet.hash (Domain.edgeOpen ++ (encode termsHash ++ (encode funding.maker ++ encode funding.taker)))⟩

def Tx.edgeIdOf (funding : Funding) (terms : Terms) : EdgeId := edgeId funding terms.hash

def Tx.openHash (network : NetworkId) (funding : Funding) (terms : Terms) : PayloadHash :=
  ⟨Xet.hash (Domain.openPayload ++ (encode network ++ encode (Tx.edgeIdOf funding terms)))⟩

def Tx.payloadHash (network : NetworkId) (input : EdgeId) (kind : CloseKind) (terms : TermsHash) (outputs : Payouts) : PayloadHash :=
  ⟨Xet.hash (Domain.closePayload ++ (encode network ++ (encode input ++ (encode kind.tag ++ (encode terms ++ encode outputs)))))⟩

def Reshape.payloadHash (network : NetworkId) (inputs : ReshapeInputs) (outputs : Payouts) :
    PayloadHash :=
  ⟨Xet.hash (Domain.ownerReshape ++ (encode network ++ (encode inputs ++ encode outputs)))⟩

-- The committed, unsigned way out of an edge.
def Tx.timeoutClose (edge : EdgeId) (terms : Terms) : Option Tx := do
  let outputs ← terms.timeoutOutputs
  pure (.closeEdge edge (.timeout terms none) outputs)

end Hellas.Kernel
