import Hellas.Kernel.Primitive

-- Every reason the kernel rejects a transaction.

namespace Hellas.Kernel

structure RegistryChunkId where
  raw : FixedBytes 32
  deriving DecidableEq

inductive InsertError where
  | alreadyExists
  | unavailable
  deriving DecidableEq

inductive RegistryDiffError where
  | full
  | duplicate (id : RegistryChunkId)
  deriving DecidableEq

inductive BondLeaseFault where
  | halfPresent
  | shape
  | body
  | edge
  deriving DecidableEq

inductive PendingCloseFault where
  | shape
  | body
  | edge
  deriving DecidableEq

inductive InvalidOpenReason where
  | feeOverflow
  | reserveOverflow
  | fundingOverflow
  | fundingInsufficient
  | timeoutNotFuture
  | lifetimeFeeOverflow
  | termsPayoutOverflow
  | termsValueMismatch
  | fundingUnauthorized
  | fundingNotDelegated
  | payoutDelegateNotSigner
  | basicAuthNotOwner
  | timeoutPayoutNotCommitted
  | badSignature
  | workStakeValueZero
  | jobPriceCapZero
  | workStakeReturnRouting
  | workStakeMakerUnfunded
  | workStakeTakerFunded
  | workPaymentTakerFunded
  | workPaymentMakerUnfunded
  | workResponseWindowOutOfRange
  | workStartValidityOutOfRange
  | workPaymentReserveTooSmall
  | workPaymentCapacityUnfunded
  | workBondTermsMismatch
  | workBondAlreadyLeased
  | workBondLeaseFault (fault : BondLeaseFault)
  deriving DecidableEq

inductive InvalidMoveReason where
  | termsMismatch
  | notAPaymentChannel
  | outsideValidityWindow
  | validitySpanTooWide
  | closePending
  | closePendingMissing
  | closePendingFault (fault : PendingCloseFault)
  | startIdMismatch
  | responderNotBeneficiary
  | alreadyResponded
  | responseWindowClosed
  | certificateNotBound
  | certificateNotPositive
  | certificateNotIncreasing
  | certificateOverCapacity
  | reserveTooSmall
  | deadlineOverflow
  | badSignature
  | badCertificateSignature
  deriving DecidableEq

inductive InvalidCloseReason where
  | payoutOverflow
  | reserveTooSmall
  | valueMismatch
  | kindForbidden
  deriving DecidableEq

inductive InvalidProofReason where
  | termsMismatch
  | badSignature
  | proofExpired
  | timeoutNotReached
  | payoutMismatch
  | payoutNotCommitted
  | closePendingMissing
  | closePendingFault (fault : PendingCloseFault)
  | responseWindowOpen
  | contestMismatch
  | freezeOutsideValidityWindow
  | freezeBelowSettled
  | bondLeaseFault (fault : BondLeaseFault)
  | payoutOverCapacity
  deriving DecidableEq

inductive InvalidReshapeReason where
  | zeroOutput
  | foreignDelegation
  | noInputs
  | ownerMismatch
  | valueOverflow
  | valueMismatch
  | badSignature
  deriving DecidableEq

inductive ApplyError where
  | missingCoin (id : CoinId)
  | coinChanged (id : CoinId)
  | missingEdge (id : EdgeId)
  | edgeChanged (id : EdgeId)
  | missingRegistryChunk (id : RegistryChunkId)
  | registryChunkChanged (id : RegistryChunkId)
  | outputExists (id : CoinId)
  | edgeExists (id : EdgeId)
  | duplicateInput (id : CoinId)
  | invalidOpen (output : EdgeId) (reason : InvalidOpenReason)
  | invalidClose (input : EdgeId) (reason : InvalidCloseReason)
  | invalidProof (input : EdgeId) (reason : InvalidProofReason)
  | invalidMove (input : EdgeId) (reason : InvalidMoveReason)
  | invalidReshape (reason : InvalidReshapeReason)
  | registryDiffRejected (reason : RegistryDiffError)
  | coinInsertRejected (id : CoinId) (reason : InsertError)
  | edgeInsertRejected (id : EdgeId) (reason : InsertError)
  | registryChunkInsertRejected (id : RegistryChunkId) (reason : InsertError)
  deriving DecidableEq

end Hellas.Kernel
