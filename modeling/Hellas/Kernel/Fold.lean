import Hellas.Kernel.State

-- What folding a change does to a store, as one equation per effect, and when it succeeds.

namespace Hellas.Kernel

open Guard

namespace Effect

variable {batch next : Batch} {coins : Coins} {backend : Backend}

theorem removeCoin_exact :
    removeCoin batch coin = .ok next ↔ batch.coin coin.1 = some coin.2 ∧ next = { batch with coins := batch.coins.erase coin.1 } := by
  simp only [removeCoin,Batch.removeCoin]
  constructor
  · intro removed
    split at removed
    · rename_i found rest taken
      obtain ⟨live,rfl⟩ := Prod.mk.inj taken
      split at removed
      · rename_i same
        cases removed
        exact ⟨same ▸ live,rfl⟩
      · cases removed
    · cases removed
  · rintro ⟨live,rfl⟩
    simp [live]

theorem removeCoins_exact :
    removeCoins batch coins = .ok next ↔ (coins.map Prod.fst).Nodup ∧ (∀ entry ∈ coins, batch.coin entry.1 = some entry.2) ∧
        next = { batch with coins := batch.coins.eraseAll (coins.map Prod.fst) } := by
  unfold removeCoins
  induction coins generalizing batch with
  | nil =>
    rw [List.foldlM_nil,pure_ok]
    constructor
    · intro same
      exact ⟨by simp,by simp,same ▸ rfl⟩
    · intro removed
      exact removed.2.2 ▸ rfl
  | cons head rest ih =>
    simp only [List.foldlM_cons,bind_ok,removeCoin_exact,ih,List.map_cons,List.nodup_cons,List.forall_mem_cons,Slots.eraseAll_cons]
    constructor
    · rintro ⟨_,⟨live,rfl⟩,distinct,held,rfl⟩
      have others : ∀ entry ∈ rest, entry.1 ≠ head.1 := by
        intro entry member same
        have gone := held entry member
        rw [Batch.coin,same,Finmap.lookup_erase] at gone
        cases gone
      refine ⟨⟨?_,distinct⟩,⟨live,?_⟩,rfl⟩
      · intro member
        obtain ⟨entry,found,same⟩ := List.mem_map.mp member
        exact others entry found same
      · intro entry member
        rw [← held entry member,Batch.coin,Batch.coin,Finmap.lookup_erase_ne (others entry member)]
    · rintro ⟨⟨fresh,distinct⟩,⟨live,held⟩,rfl⟩
      refine ⟨_,⟨live,rfl⟩,distinct,?_,rfl⟩
      intro entry member
      have other : entry.1 ≠ head.1 := fun same => fresh (same ▸ List.mem_map_of_mem member)
      rw [← held entry member,Batch.coin,Batch.coin,Finmap.lookup_erase_ne other]

theorem insertCoin_parts (inserted : insertCoin backend batch coin = .ok next) :
    batch.coin coin.1 = none ∧ next = { batch with coins := batch.coins.insert coin.1 coin.2 } := by
  simp only [insertCoin,Batch.insertCoin,mapError_ok,bind_ok,rejectIf_ok,pure_ok] at inserted
  obtain ⟨_,free,_,_,rfl⟩ := inserted
  exact ⟨by simpa using free,rfl⟩

-- Inserting a list of coins needs distinct free ids; an accepting store asks for nothing more.
def Insertable (batch : Batch) (coins : Coins) : Prop := (coins.map Prod.fst).Nodup ∧ ∀ entry ∈ coins, batch.coin entry.1 = none

theorem insertable_cons :
    Insertable batch (head :: rest) ↔ batch.coin head.1 = none ∧
      Insertable { batch with coins := batch.coins.insert head.1 head.2 } rest := by
  simp only [Insertable,Batch.coin,List.map_cons,List.nodup_cons,List.forall_mem_cons,Slots.lookup_insert_if]
  constructor
  · rintro ⟨⟨fresh,distinct⟩,free,others⟩
    refine ⟨free,distinct,?_⟩
    intro entry member
    have apart : entry.1 ≠ head.1 := fun same => fresh (same ▸ List.mem_map_of_mem member)
    rw [if_neg apart]
    exact others entry member
  · rintro ⟨free,distinct,others⟩
    have apart : ∀ entry ∈ rest, entry.1 ≠ head.1 := by
      intro entry member same
      have gone := others entry member
      rw [if_pos same] at gone
      cases gone
    refine ⟨⟨?_,distinct⟩,free,?_⟩
    · intro member
      obtain ⟨entry,found,same⟩ := List.mem_map.mp member
      exact apart entry found same
    · intro entry member
      have gone := others entry member
      rwa [if_neg (apart entry member)] at gone

theorem insertCoins_parts (inserted : insertCoins backend batch coins = .ok next) :
    Insertable batch coins ∧ next = { batch with coins := batch.coins.insertAll coins } := by
  unfold insertCoins at inserted
  induction coins generalizing batch with
  | nil =>
    rw [List.foldlM_nil,pure_ok] at inserted
    exact ⟨⟨by simp,by simp⟩,inserted ▸ rfl⟩
  | cons head rest ih =>
    rw [List.foldlM_cons,bind_ok] at inserted
    obtain ⟨middle,first,later⟩ := inserted
    obtain ⟨free,rfl⟩ := insertCoin_parts first
    obtain ⟨others,rfl⟩ := ih later
    exact ⟨insertable_cons.mpr ⟨free,others⟩,rfl⟩

theorem insertCoins_accepts (free : Insertable batch coins) :
    insertCoins .acceptAll batch coins = .ok { batch with coins := batch.coins.insertAll coins } := by
  unfold insertCoins
  induction coins generalizing batch with
  | nil => rfl
  | cons head rest ih =>
    obtain ⟨here,later⟩ := insertable_cons.mp free
    rw [List.foldlM_cons,bind_ok]
    refine ⟨_,?_,ih later⟩
    simp [insertCoin,Batch.insertCoin,here,Backend.acceptAll]

theorem insertEdge_parts (inserted : insertEdge backend batch edge = .ok next) :
    batch.edge edge.1 = none ∧ next = { batch with edges := batch.edges.insert edge.1 edge.2 } := by
  simp only [insertEdge,Batch.insertEdge,mapError_ok,bind_ok,rejectIf_ok,pure_ok] at inserted
  obtain ⟨_,free,_,_,rfl⟩ := inserted
  exact ⟨by simpa using free,rfl⟩

theorem insertEdge_accepts (free : batch.edge edge.1 = none) :
    insertEdge .acceptAll batch edge = .ok { batch with edges := batch.edges.insert edge.1 edge.2 } := by
  simp [insertEdge,Batch.insertEdge,free,Backend.acceptAll,pure,Except.pure,bind,Except.bind,rejectIf,Except.mapError]

theorem removeEdge_exact :
    removeEdge batch edge = .ok next ↔ batch.edge edge.1 = some edge.2 ∧ next = { batch with edges := batch.edges.erase edge.1 } := by
  simp only [removeEdge,Batch.removeEdge]
  constructor
  · intro removed
    split at removed
    · rename_i found rest taken
      obtain ⟨live,rfl⟩ := Prod.mk.inj taken
      split at removed
      · rename_i same
        cases removed
        exact ⟨same ▸ live,rfl⟩
      · cases removed
    · cases removed
  · rintro ⟨live,rfl⟩
    simp [live]

end Effect

def seedCoins (seeds : List Genesis) : Coins := seeds.map fun seed => (seed.id, seed.coin)

variable {backend : Backend} {mutation : RegistryMutation} {batch next : Batch}
  {mutations : List RegistryMutation}

theorem genesis_parts (seeded : State.genesis backend store seeds = .ok start) :
    Effect.Insertable store (seedCoins seeds) ∧ start = { store with coins := store.coins.insertAll (seedCoins seeds) } := by
  unfold State.genesis at seeded
  induction seeds generalizing store with
  | nil =>
    rw [List.foldlM_nil,pure_ok] at seeded
    exact ⟨⟨by simp [seedCoins],by simp [seedCoins]⟩,seeded ▸ rfl⟩
  | cons seed seeds ih =>
    simp only [List.foldlM_cons,bind_ok,Genesis.insert,Batch.insertCoin,rejectIf_ok,pure_ok] at seeded
    obtain ⟨_,⟨_,free,_,_,rfl⟩,later⟩ := seeded
    obtain ⟨others,same⟩ := ih later
    exact ⟨Effect.insertable_cons.mpr ⟨by simpa using free,others⟩,same⟩

-- One slot after a mutation: emptied, or rewritten whole.
def RegistryMutation.onto (registry : Slots RegistryChunkId RegistryChunk)
    (mutation : RegistryMutation) : Slots RegistryChunkId RegistryChunk :=
  match mutation.chunk with
  | some chunk => (registry.erase mutation.id).insert mutation.id chunk
  | none => registry.erase mutation.id

theorem RegistryMutation.lookup_onto {registry : Slots RegistryChunkId RegistryChunk} {id : RegistryChunkId} :
    (mutation.onto registry).lookup id = if id = mutation.id then mutation.chunk else registry.lookup id := by
  unfold onto
  split
  · rename_i chunk written
    rw [written,Slots.lookup_insert_if,Slots.lookup_erase_if]
    split <;> rfl
  · rename_i deleted
    rw [deleted,Slots.lookup_erase_if]

def RegistryMutation.Fits (batch : Batch) (mutation : RegistryMutation) : Prop :=
  mutation.chunk = none → batch.registryChunk mutation.id ≠ none

theorem RegistryMutation.fold_parts (folded : mutation.fold backend batch = .ok next) :
    mutation.Fits batch ∧ next = { batch with registry := mutation.onto batch.registry } := by
  unfold RegistryMutation.fold at folded
  split at folded
  · rename_i chunk written
    simp only [Batch.removeRegistryChunk,Batch.insertRegistryChunk,mapError_ok,bind_ok,pure_ok] at folded
    obtain ⟨_,_,_,_,rfl⟩ := folded
    exact ⟨by simp [Fits,written],by simp [onto,written]⟩
  · rename_i deleted
    simp only [Batch.removeRegistryChunk] at folded
    split at folded
    · rename_i found cleared taken
      obtain ⟨live,rfl⟩ := Prod.mk.inj taken
      cases folded
      exact ⟨fun _ => by simp [live],by simp [onto,deleted]⟩
    · cases folded

theorem RegistryMutation.fold_accepts (fits : mutation.Fits batch) :
    mutation.fold .acceptAll batch = .ok { batch with registry := mutation.onto batch.registry } := by
  unfold RegistryMutation.fold
  split
  · rename_i chunk written
    have cleared : (batch.registry.erase mutation.id).lookup mutation.id = none := Finmap.lookup_erase ..
    simp [Batch.removeRegistryChunk,Batch.insertRegistryChunk,Batch.registryChunk,cleared,Backend.acceptAll,onto,written]
  · rename_i deleted
    obtain ⟨chunk,live⟩ := Option.ne_none_iff_exists'.mp (fits deleted)
    simp [Batch.removeRegistryChunk,live,onto,deleted]

def RegistryDiff.onto (registry : Slots RegistryChunkId RegistryChunk) (diff : RegistryDiff) :
    Slots RegistryChunkId RegistryChunk :=
  diff.mutations.foldl RegistryMutation.onto registry

-- Slots are written at most once, so each mutation is judged against the original store.
def RegistryDiff.Fits (batch : Batch) (diff : RegistryDiff) : Prop := ∀ mutation ∈ diff.mutations, mutation.Fits batch

theorem mutations_fits {head : RegistryMutation} {rest : List RegistryMutation}
    (distinct : ((head :: rest).map RegistryMutation.id).Nodup) :
    (∀ mutation ∈ rest, mutation.Fits { batch with registry := head.onto batch.registry }) ↔ ∀ mutation ∈ rest, mutation.Fits batch := by
  rw [List.map_cons,List.nodup_cons] at distinct
  refine forall₂_congr fun mutation member => ?_
  have apart : mutation.id ≠ head.id := fun same => distinct.1 (same ▸ List.mem_map_of_mem member)
  unfold RegistryMutation.Fits Batch.registryChunk
  rw [RegistryMutation.lookup_onto,if_neg apart]

theorem mutations_parts (distinct : (mutations.map RegistryMutation.id).Nodup)
    (folded : mutations.foldlM (RegistryMutation.fold backend) batch = .ok next) :
    (∀ mutation ∈ mutations, mutation.Fits batch) ∧
      next = { batch with registry := mutations.foldl RegistryMutation.onto batch.registry } := by
  induction mutations generalizing batch with
  | nil =>
    rw [List.foldlM_nil,pure_ok] at folded
    exact ⟨by simp,folded ▸ rfl⟩
  | cons head rest ih =>
    rw [List.foldlM_cons,bind_ok] at folded
    obtain ⟨middle,first,later⟩ := folded
    obtain ⟨fits,rfl⟩ := RegistryMutation.fold_parts first
    obtain ⟨others,rfl⟩ := ih (List.nodup_cons.mp distinct).2 later
    exact ⟨List.forall_mem_cons.mpr ⟨fits,(mutations_fits distinct).mp others⟩,rfl⟩

theorem mutations_accepts (distinct : (mutations.map RegistryMutation.id).Nodup) (fits : ∀ mutation ∈ mutations, mutation.Fits batch) :
    mutations.foldlM (RegistryMutation.fold .acceptAll) batch =
      .ok { batch with registry := mutations.foldl RegistryMutation.onto batch.registry } := by
  induction mutations generalizing batch with
  | nil => rfl
  | cons head rest ih =>
    rw [List.forall_mem_cons] at fits
    rw [List.foldlM_cons,bind_ok]
    exact ⟨_,RegistryMutation.fold_accepts fits.1,ih (List.nodup_cons.mp distinct).2 ((mutations_fits distinct).mpr fits.2)⟩

namespace Effect

def onto (batch : Batch) : Effect → Batch
  | .opened coins edge => { batch with
      coins := batch.coins.eraseAll (coins.map Prod.fst)
      edges := batch.edges.insert edge.1 edge.2 }
  | .closed edge coins => { batch with
      coins := batch.coins.insertAll coins
      edges := batch.edges.erase edge.1 }
  | .reshaped inputs outputs => { batch with
      coins := (batch.coins.eraseAll (inputs.map Prod.fst)).insertAll outputs }

def Fits (batch : Batch) : Effect → Prop
  | .opened coins edge => (coins.map Prod.fst).Nodup ∧
    (∀ entry ∈ coins, batch.coin entry.1 = some entry.2) ∧ batch.edge edge.1 = none
  | .closed edge coins => batch.edge edge.1 = some edge.2 ∧ Insertable batch coins
  | .reshaped inputs outputs => (inputs.map Prod.fst).Nodup ∧
    (∀ entry ∈ inputs, batch.coin entry.1 = some entry.2) ∧
    Insertable { batch with coins := batch.coins.eraseAll (inputs.map Prod.fst) } outputs

variable {batch : Batch} {effect : Effect}

theorem fold_parts (folded : effect.fold backend batch = .ok next) : effect.Fits batch ∧ next = effect.onto batch := by
  cases effect with
  | opened coins edge =>
    simp only [fold,bind_ok,removeCoins_exact] at folded
    obtain ⟨_,⟨distinct,live,rfl⟩,inserted⟩ := folded
    obtain ⟨free,rfl⟩ := insertEdge_parts inserted
    exact ⟨⟨distinct,live,free⟩,rfl⟩
  | closed edge coins =>
    simp only [fold,bind_ok,removeEdge_exact] at folded
    obtain ⟨_,⟨live,rfl⟩,inserted⟩ := folded
    obtain ⟨free,rfl⟩ := insertCoins_parts inserted
    exact ⟨⟨live,free⟩,rfl⟩
  | reshaped inputs outputs =>
    simp only [fold,bind_ok,removeCoins_exact] at folded
    obtain ⟨_,⟨distinct,live,rfl⟩,inserted⟩ := folded
    obtain ⟨free,rfl⟩ := insertCoins_parts inserted
    exact ⟨⟨distinct,live,free⟩,rfl⟩

theorem fold_accepts (fits : effect.Fits batch) : effect.fold .acceptAll batch = .ok (effect.onto batch) := by
  cases effect with
  | opened coins edge =>
    obtain ⟨distinct,live,free⟩ := fits
    rw [fold,bind_ok]
    exact ⟨_,removeCoins_exact.mpr ⟨distinct,live,rfl⟩,insertEdge_accepts free⟩
  | closed edge coins =>
    obtain ⟨live,free⟩ := fits
    rw [fold,bind_ok]
    exact ⟨_,removeEdge_exact.mpr ⟨live,rfl⟩,insertCoins_accepts free⟩
  | reshaped inputs outputs =>
    obtain ⟨distinct,live,free⟩ := fits
    rw [fold,bind_ok]
    exact ⟨_,removeCoins_exact.mpr ⟨distinct,live,rfl⟩,insertCoins_accepts free⟩

theorem onto_registry : (effect.onto batch).registry = batch.registry := by
  cases effect <;> rfl

end Effect

namespace Change

def onto (batch : Batch) : Change → Batch
  | .visible _ effect registry => { effect.onto batch with registry := registry.onto batch.registry }
  | .hidden registry => { batch with registry := registry.onto batch.registry }

def Fits (batch : Batch) : Change → Prop
  | .visible _ effect registry => effect.Fits batch ∧ registry.Fits batch
  | .hidden registry => registry.Fits batch

theorem fold_parts {change : Change} (folded : change.fold backend batch = .ok next) :
    change.Fits batch ∧ next = change.onto batch := by
  cases change with
  | visible event effect registry =>
    rw [fold,bind_ok] at folded
    obtain ⟨middle,first,later⟩ := folded
    obtain ⟨fits,rfl⟩ := Effect.fold_parts first
    obtain ⟨registered,rfl⟩ := mutations_parts registry.distinct later
    unfold RegistryMutation.Fits Batch.registryChunk at registered
    rw [Effect.onto_registry] at registered
    exact ⟨⟨fits,registered⟩,by rw [Effect.onto_registry]; rfl⟩
  | hidden registry =>
    obtain ⟨registered,rfl⟩ := mutations_parts registry.distinct folded
    exact ⟨registered,rfl⟩

theorem fold_accepts {change : Change} (fits : change.Fits batch) :
    change.fold .acceptAll batch = .ok (change.onto batch) := by
  cases change with
  | visible event effect registry =>
    obtain ⟨first,later⟩ := fits
    rw [fold,bind_ok]
    refine ⟨_,Effect.fold_accepts first,(mutations_accepts registry.distinct ?_).trans ?_⟩
    · unfold RegistryMutation.Fits Batch.registryChunk
      rw [Effect.onto_registry]
      exact later
    · rw [Effect.onto_registry]
      rfl
  | hidden registry => exact mutations_accepts registry.distinct fits

end Change

end Hellas.Kernel
