import Hellas.Kernel.Opened

-- Which coins and edges an accepted transaction consumes and creates, and that it touches no other.

namespace Hellas.Kernel

open Words

namespace Tx

def consumesCoins : Tx → List CoinId
  | .openEdge funding _ _ _ => funding.ids
  | .owner reshape => reshape.inputs.items
  | _ => []

def consumesEdges : Tx → List EdgeId
  | .closeEdge input _ _ => [input]
  | _ => []

variable [Xet]

def createsCoins (network : NetworkId) : Tx → Coins
  | .closeEdge input _ outputs => closeCoins input outputs
  | .owner reshape => Reshape.outputCoins network reshape.inputs reshape.outputs
  | _ => []

def createsEdges : Tx → List EdgeId
  | .openEdge funding terms _ _ => [edgeId funding terms.hash]
  | _ => []

end Tx

variable {batch next : Batch}

structure CoinEffect (batch next : Batch) (consumed : List CoinId) (created : Coins) : Prop where
  consumed_distinct : consumed.Nodup
  consumed_live : ∀ id ∈ consumed, batch.coin id ≠ none
  created_distinct : (created.map Prod.fst).Nodup
  created_free : ∀ entry ∈ created, batch.coin entry.1 = none
  created_live : ∀ entry ∈ created, next.coin entry.1 = some entry.2
  others : ∀ id, id ∉ created.map Prod.fst →
    next.coin id = if id ∈ consumed then none else batch.coin id

structure EdgeEffect (batch next : Batch) (consumed created : List EdgeId) : Prop where
  consumed_distinct : consumed.Nodup
  consumed_live : ∀ id ∈ consumed, batch.edge id ≠ none
  created_distinct : created.Nodup
  created_free : ∀ id ∈ created, batch.edge id = none
  created_live : ∀ id ∈ created, next.edge id ≠ none
  others : ∀ id, id ∉ created → next.edge id = if id ∈ consumed then none else batch.edge id

namespace CoinEffect

theorem origin (effect : CoinEffect batch next consumed created) {id : CoinId} {coin : Coin} (live : next.coin id = some coin) :
    (id, coin) ∈ created ∨ batch.coin id = some coin ∧ id ∉ consumed := by
  by_cases new : id ∈ created.map Prod.fst
  · obtain ⟨entry,found,same⟩ := List.mem_map.mp new
    subst same
    rw [effect.created_live entry found] at live
    cases live
    exact .inl found
  · rw [effect.others id new] at live
    split at live
    · cases live
    · exact .inr ⟨live,‹_›⟩

theorem kept (effect : CoinEffect batch next consumed created) {id : CoinId} {coin : Coin}
    (live : batch.coin id = some coin) (unspent : id ∉ consumed) : next.coin id = some coin := by
  have old : id ∉ created.map Prod.fst := by
    intro member
    obtain ⟨entry,found,same⟩ := List.mem_map.mp member
    rw [← same,effect.created_free entry found] at live
    cases live
  rw [effect.others id old,if_neg unspent]
  exact live

end CoinEffect

namespace EdgeEffect

theorem kept (effect : EdgeEffect batch next consumed created) {id : EdgeId} {edge : Edge}
    (live : batch.edge id = some edge) (unclosed : id ∉ consumed) : next.edge id = some edge := by
  have old : id ∉ created := by
    intro member
    rw [effect.created_free id member] at live
    cases live
  rw [effect.others id old,if_neg unclosed]
  exact live

end EdgeEffect

theorem live_of_named {coins : Coins} (named : coins.map Prod.fst = ids) (live : ∀ entry ∈ coins, batch.coin entry.1 = some entry.2) :
    ∀ id ∈ ids, batch.coin id ≠ none := by
  intro id member
  rw [← named] at member
  obtain ⟨entry,found,same⟩ := List.mem_map.mp member
  rw [← same,live entry found]
  simp

variable [Xet]

theorem Accepted.coins (accepted : Accepted context verifier batch tx next) :
    CoinEffect batch next tx.consumesCoins (tx.createsCoins context.network) := by
  cases accepted with
  | opened accepts =>
    exact {
      consumed_distinct := accepts.distinct
      consumed_live := live_of_named accepts.named accepts.live
      created_distinct := by simp [Tx.createsCoins]
      created_free := by simp [Tx.createsCoins]
      created_live := by simp [Tx.createsCoins]
      others := fun id _ => Slots.lookup_eraseAll }
  | closed accepts distinct pushed =>
    exact {
      consumed_distinct := by simp [Tx.consumesCoins]
      consumed_live := by simp [Tx.consumesCoins]
      created_distinct := distinct
      created_free := accepts.free
      created_live := fun entry member => Slots.lookup_insertAll_mem distinct member
      others := fun id absent => by
        rw [if_neg (by simp [Tx.consumesCoins])]
        exact Slots.lookup_insertAll_notMem absent }
  | started accepts written =>
    exact ⟨by simp [Tx.consumesCoins],by simp [Tx.consumesCoins],by simp [Tx.createsCoins],
      by simp [Tx.createsCoins],by simp [Tx.createsCoins],fun id _ => by
        simp [Tx.consumesCoins,contestWritten,Batch.coin]⟩
  | responded accepts written =>
    exact ⟨by simp [Tx.consumesCoins],by simp [Tx.consumesCoins],by simp [Tx.createsCoins],
      by simp [Tx.createsCoins],by simp [Tx.createsCoins],fun id _ => by
        simp [Tx.consumesCoins,contestWritten,Batch.coin]⟩
  | reshaped accepts distinct =>
    exact {
      consumed_distinct := accepts.distinct
      consumed_live := live_of_named accepts.named accepts.live
      created_distinct := distinct
      created_free := accepts.free
      created_live := fun entry member => Slots.lookup_insertAll_mem distinct member
      others := fun id absent => (Slots.lookup_insertAll_notMem absent).trans Slots.lookup_eraseAll }

theorem Accepted.edges (accepted : Accepted context verifier batch tx next) :
    EdgeEffect batch next tx.consumesEdges tx.createsEdges := by
  cases accepted with
  | opened accepts =>
    refine ⟨by simp [Tx.consumesEdges],by simp [Tx.consumesEdges],by simp [Tx.createsEdges],?_,
      ?_,?_⟩
    · simpa [Tx.createsEdges] using accepts.fresh
    · simp [Tx.createsEdges,Batch.edge,Finmap.lookup_insert]
    · intro id other
      rw [if_neg (by simp [Tx.consumesEdges])]
      exact Finmap.lookup_insert_of_ne _ (by simpa [Tx.createsEdges] using other)
  | closed accepts distinct pushed =>
    refine ⟨by simp [Tx.consumesEdges],?_,by simp [Tx.createsEdges],by simp [Tx.createsEdges],
      by simp [Tx.createsEdges],?_⟩
    · simp [Tx.consumesEdges,accepts.live]
    · intro id _
      simpa [Tx.consumesEdges,Batch.edge] using Slots.lookup_erase_if
  | started accepts written =>
    exact ⟨by simp [Tx.consumesEdges],by simp [Tx.consumesEdges],by simp [Tx.createsEdges],
      by simp [Tx.createsEdges],by simp [Tx.createsEdges],fun id _ => by
        simp [Tx.consumesEdges,contestWritten,Batch.edge]⟩
  | responded accepts written =>
    exact ⟨by simp [Tx.consumesEdges],by simp [Tx.consumesEdges],by simp [Tx.createsEdges],
      by simp [Tx.createsEdges],by simp [Tx.createsEdges],fun id _ => by
        simp [Tx.consumesEdges,contestWritten,Batch.edge]⟩
  | reshaped accepts distinct =>
    exact ⟨by simp [Tx.consumesEdges],by simp [Tx.consumesEdges],by simp [Tx.createsEdges],
      by simp [Tx.createsEdges],by simp [Tx.createsEdges],fun id _ => by
        simp [Tx.consumesEdges,Batch.edge]⟩

theorem Accepted.edge_origin (accepted : Accepted context verifier batch tx next) {id : EdgeId} {edge : Edge}
    (live : next.edge id = some edge) :
    batch.edge id = some edge ∧ id ∉ tx.consumesEdges ∨ ∃ funding terms makerAuth takerAuth coins debits diff,
        tx = .openEdge funding terms makerAuth takerAuth ∧ id = edgeId funding terms.hash ∧
        edge = debits.edge ∧ OpenAccepts funding terms makerAuth takerAuth context verifier batch coins debits diff := by
  cases accepted with
  | opened accepts =>
    rw [Batch.edge,Slots.lookup_insert_if] at live
    split at live
    · rename_i same
      cases live
      exact .inr ⟨_,_,_,_,_,_,_,rfl,same,rfl,accepts⟩
    · exact .inl ⟨live,by simp [Tx.consumesEdges]⟩
  | closed accepts distinct pushed =>
    rw [Batch.edge,Slots.lookup_erase_if] at live
    split at live
    · cases live
    · rename_i other
      exact .inl ⟨live,by simpa [Tx.consumesEdges] using other⟩
  | started accepts written => exact .inl ⟨live,by simp [Tx.consumesEdges]⟩
  | responded accepts written => exact .inl ⟨live,by simp [Tx.consumesEdges]⟩
  | reshaped accepts distinct => exact .inl ⟨live,by simp [Tx.consumesEdges]⟩

end Hellas.Kernel
