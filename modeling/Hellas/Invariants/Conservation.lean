import Hellas.Kernel.Opened

-- No transaction creates or destroys value: what a store locks, plus every fee charged on the way,
-- is what genesis issued. No property of the hash is used; an id clash is a rejection.

namespace Hellas.Kernel

open Guard Words

def Batch.held (batch : Batch) : Nat := batch.coins.weight (fun coin => coin.value.toNat) + batch.edges.weight Edge.locked

section Accounting

variable [Xet]

-- An open pays for itself and for its rent; a close pays out of the reserve its edge locked. Moves
-- and reshapes pay nothing.
def Tx.charge (context : Context) (batch : Batch) : Tx → Nat
  | .openEdge funding terms _ _ =>
    ((context.fees.charge (openCost funding.len terms)).getD 0).toNat +
      ((openLifetimeFee context.blockHeight context.fees terms).toOption.getD 0).toNat
  | .closeEdge input proof outputs =>
    match batch.edge input with
    | some edge => ((edge.closeFees.charge (closeCost outputs.len proof)).getD 0).toNat
    | none => 0
  | .move _ | .owner _ => 0

def Taken.charge (taken : Taken) : Nat := taken.input.tx.charge taken.input.context taken.before

namespace Accepted

theorem open_conserves (accepts : OpenAccepts funding terms makerAuth takerAuth context verifier batch coins debits diff) :
    Batch.held ⟨batch.coins.eraseAll funding.ids,batch.edges.insert (edgeId funding terms.hash) debits.edge,diff.onto batch.registry⟩ +
      (Tx.openEdge funding terms makerAuth takerAuth).charge context batch = batch.held := by
  obtain ⟨⟨priced,rented,balanced⟩,-,-⟩ := accepts.debits_parts
  have spent := Slots.weight_eraseAll (fun coin : Coin => coin.value.toNat)
    (accepts.named ▸ accepts.distinct) accepts.live
  have locked : Slots.weight Edge.locked (batch.edges.insert (edgeId funding terms.hash)
      debits.edge) = _ := Slots.weight_insert Edge.locked accepts.fresh
  rw [accepts.named] at spent
  simp only [Batch.held,Tx.charge,priced,rented,Option.getD_some,Except.toOption,spent,locked]
  simp only [Words.total] at balanced
  omega

theorem close_conserves {input : EdgeId} {proof : Proof} {outputs : Payouts} {edge : Edge} {total : UInt64}
    (accepts : CloseAccepts input proof outputs context verifier batch edge total staged)
    (distinct : ((closeCoins input outputs).map Prod.fst).Nodup) :
    Batch.held ⟨batch.coins.insertAll (closeCoins input outputs),batch.edges.erase input, registry⟩ +
      (Tx.closeEdge input proof outputs).charge context batch = batch.held := by
  obtain ⟨covered,balanced⟩ := EdgeValues.closeValue_exact.mp accepts.priced
  have bound := edge.values.reserve.toNat_lt
  obtain ⟨fee,charged⟩ := exists_word (show edge.values.closeFees.price (closeCost outputs.len proof) < 2^64 by omega)
  have priced := Fees.charge_exact.mpr charged
  have paid := accepts.paid
  have issued := Slots.weight_insertAll (fun coin : Coin => coin.value.toNat) distinct
    accepts.free
  have freed := Slots.weight_erase Edge.locked accepts.live
  simp only [Batch.held,Tx.charge,accepts.live,issued,freed]
  simp only [Edge.values] at priced balanced charged
  simp only [priced,Option.getD_some,Edge.locked]
  simp only [Words.total] at paid
  omega

theorem reshape_conserves (accepts : ReshapeAccepts reshape context verifier batch coins owner sum)
    (distinct : ((Reshape.outputCoins context.network reshape.inputs reshape.outputs).map Prod.fst).Nodup) :
    Batch.held ⟨(batch.coins.eraseAll reshape.inputs.items).insertAll
        (Reshape.outputCoins context.network reshape.inputs reshape.outputs),batch.edges,
        batch.registry⟩ = batch.held := by
  have spent := Slots.weight_eraseAll (fun coin : Coin => coin.value.toNat)
    (accepts.named ▸ accepts.distinct) accepts.live
  rw [accepts.named] at spent
  have free : ∀ entry ∈ Reshape.outputCoins context.network reshape.inputs reshape.outputs,
      (batch.coins.eraseAll reshape.inputs.items).lookup entry.1 = none := by
    intro entry member
    rw [Slots.lookup_eraseAll]
    split
    · rfl
    · exact accepts.free entry member
  have issued := Slots.weight_insertAll (fun coin : Coin => coin.value.toNat) distinct free
  have consumed := accepts.consumed
  have minted := accepts.issued
  rw [← total_issueCoins (CoinId.reshape context.network reshape.inputs)] at minted
  simp only [Words.total,Reshape.outputCoins] at consumed minted issued ⊢
  simp only [Batch.held,spent,issued]
  omega

theorem conserves (accepted : Accepted context verifier batch tx next) :
    next.held + tx.charge context batch = batch.held := by
  cases accepted with
  | opened accepts => exact open_conserves accepts
  | closed accepts distinct pushed => exact close_conserves accepts distinct
  | started accepts written => rfl
  | responded accepts written => rfl
  | reshaped accepts distinct => exact reshape_conserves accepts distinct

end Accepted

omit [Xet] in
theorem genesis_held (seeded : State.genesis backend store seeds = .ok start) :
    start.held = (seeds.map fun seed => seed.coin.value.toNat).sum + store.held := by
  obtain ⟨⟨distinct,free⟩,same⟩ := genesis_parts seeded
  have issued := Slots.weight_insertAll (fun coin : Coin => coin.value.toNat) distinct free
  rw [seedCoins,List.map_map] at issued
  rw [same]
  simp only [Batch.held,issued,seedCoins,Function.comp_def]
  omega

theorem run_conserves (steps : List Step) :
    (State.run backend start steps).held + ((State.trace backend start steps).map Taken.charge).sum = start.held := by
  refine Runs.run_history (fun _ => True)
    (motive := fun past state => state.held + (past.map Taken.charge).sum = start.held)
    (by simp) ?_ steps (by simp)
  intro past before step after _ stepped balanced
  have conserved := (next_accepted stepped).conserves
  simp only [List.map_append,List.map_cons,List.map_nil,List.sum_append,List.sum_cons,List.sum_nil,Taken.charge]
  omega

-- Whatever genesis seeds, whatever is submitted, under whichever schedules, heights and verifiers.
theorem value_conserved {backend : Backend} {seeds : List Genesis} {start : Batch}
    (seeded : State.genesis backend .empty seeds = .ok start) (steps : List Step) :
    (State.run backend start steps).held + ((State.trace backend start steps).map Taken.charge).sum =
      (seeds.map fun seed => seed.coin.value.toNat).sum ∧
    ∀ taken ∈ State.trace backend start steps,
      (∃ action, taken.input.tx = .move action) ∨ (∃ reshape, taken.input.tx = .owner reshape) →
        taken.charge = 0 ∧ taken.after.held = taken.before.held := by
  constructor
  · rw [run_conserves,genesis_held seeded]
    rfl
  · intro taken member unpriced
    have conserved := (next_accepted (Runs.trace_step member)).conserves
    have free : taken.charge = 0 := by
      unfold Taken.charge
      rcases unpriced with ⟨action,same⟩ | ⟨reshape,same⟩ <;> rw [same] <;> rfl
    unfold Taken.charge at free
    rw [free] at conserved
    exact ⟨free,conserved⟩

end Accounting

-- One small chain, for evaluating statements: a provider bonds a coin, a client opens a payment
-- channel on the bond, starts its close and is answered, and both edges pay out. The digest is a
-- checksum and the verifier takes every signature; nothing is claimed of either.
namespace Sample

@[reducible] def checksum : Xet :=
  ⟨fun bytes => ⟨bigEndian 32 (bytes.foldl
    (fun sum byte => (sum * 257 + byte.toNat + 1) % (2^256 - 189)) 0),by simp⟩⟩

attribute [local instance] checksum

def fill (n : Nat) (byte : UInt8) : FixedBytes n := ⟨List.replicate n byte,by simp⟩
def key (byte : UInt8) : Key := ⟨fill 33 byte⟩
def one (item : α) : BoundedList α (n + 1) := ⟨[item],by simp⟩
def provider : PartyKeys := .sole (key 1)
def client : PartyKeys := .sole (key 2)
def network : NetworkId := ⟨[1],by simp,by decide⟩
def fees : Fees := ⟨1,1,1,1⟩
def context (height : UInt64) : Context := ⟨network,⟨height⟩,⟨fill 32 0⟩,fees⟩
def verifier : SigVerifier := ⟨fun _ _ _ => true,fun _ _ _ => true⟩
def owner : PartyAuth := ⟨.owner,.native ⟨fill 64 0⟩⟩
def submit (height : UInt64) (tx : Tx) : Step := ⟨context height,verifier,tx⟩

def seeds : List Genesis := [.ofCoin (.genesis 0) provider.owner 1000,.ofCoin (.genesis 1) client.owner 1000]

def start : Batch := ⟨Slots.insertAll ∅ (seeds.map fun seed => (seed.id, seed.coin)),∅,∅⟩

def bond : WorkStakeBondTerms := ⟨⟨provider,client⟩,⟨100⟩,one (.new provider.owner 898),1⟩

def bondFunding : Funding := ⟨one (.genesis 0),.empty⟩
def bondEdge : EdgeId := Tx.edgeIdOf bondFunding (.workStakeBond bond)
def payment : WorkPaymentTerms := ⟨bondEdge,bond,fill 32 0,20,10,100⟩
def paymentFunding : Funding := ⟨one (.genesis 1),.empty⟩
def paymentEdge : EdgeId := Tx.edgeIdOf paymentFunding (.workPayment payment)
def openBond : Step := submit 10 (.openEdge bondFunding (.workStakeBond bond) owner owner)
def openPayment : Step := submit 11 (.openEdge paymentFunding (.workPayment payment) owner owner)

def close : PaymentCloseStart := ⟨paymentEdge,.workPayment payment,.maker,10,19,none,owner⟩
def startClose : Step := submit 12 (.move (.startPaymentClose close))

def answer : PaymentCloseResponse :=
  ⟨paymentEdge,startIdOf (close.digest network) 12,.taker,⟨paymentEdge,(Terms.workPayment payment).hash,50⟩,owner,owner⟩

def respond : Step := submit 13 (.move (.respondPaymentClose answer))

-- The channel from genesis to an answered contest.
def contest : List Step := [openBond,openPayment,startClose,respond]

def record : PendingPaymentClose := (PendingPaymentClose.opened paymentEdge .maker answer.startId 32 (0, 100) true).respondedAt 50 true

def shares : Payouts := Payouts.pair (.new provider.owner 150, .new client.owner 747)

def settle : Step := submit 14 (.closeEdge paymentEdge (.adjudicated
  (record.contestCommitment network paymentEdge (Terms.workPayment payment).hash)) shares)

def release : Step := submit 15 (.closeEdge bondEdge (.timeout (.workStakeBond bond) none) bond.timeoutOutputs)

-- The whole life of both edges.
def channel : List Step := contest ++ [settle,release]

theorem seeds_start : State.genesis .acceptAll .empty seeds = .ok start := by decide +kernel

theorem value_conserved_channel :
    State.genesis .acceptAll .empty seeds = .ok start ∧ (State.run .acceptAll start channel).held +
        ((State.trace .acceptAll start channel).map Taken.charge).sum = 2000 :=
  ⟨seeds_start,(value_conserved seeds_start channel).1⟩

end Sample

end Hellas.Kernel
