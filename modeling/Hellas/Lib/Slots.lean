import Mathlib.Algebra.Order.Ring.Nat
import Mathlib.Algebra.BigOperators.Group.Finset.Basic
import Mathlib.Data.Finmap
import Mathlib.Data.Finset.Sort

-- Keyed stores with insert-if-absent and take-if-present folds over lists of entries, and a weight
-- summed over everything that is live.

-- Keys listed in the order of what they spell.
class Ranked (κ : Type) (ρ : outParam Type) [LinearOrder ρ] where
  rank : κ → ρ
  rank_injective : Function.Injective rank

namespace Ranked

variable {κ ρ : Type} [LinearOrder ρ] [Ranked κ ρ]

def Before (one other : κ) : Prop := rank one ≤ rank other

instance : DecidableRel (Before : κ → κ → Prop) := fun one other =>
  inferInstanceAs (Decidable (rank one ≤ rank other))

instance : IsTrans κ Before := ⟨fun _ _ _ => le_trans⟩

instance : Std.Total (Before : κ → κ → Prop) := ⟨fun _ _ => le_total _ _⟩

instance : Std.Antisymm (Before : κ → κ → Prop) :=
  ⟨fun _ _ low high => rank_injective (le_antisymm low high)⟩

-- A sort that also computes inside the kernel.
def sorted (names : Finset κ) : List κ :=
  Quot.liftOn names.val (List.insertionSort Before) fun left right same =>
    (((List.perm_insertionSort Before left).trans same).trans (List.perm_insertionSort Before right).symm).eq_of_pairwise'
      (List.pairwise_insertionSort Before left) (List.pairwise_insertionSort Before right)

variable {names : Finset κ}

theorem sorted_val : (sorted names : Multiset κ) = names.val := by
  obtain ⟨listed,distinct⟩ := names
  induction listed using Quot.inductionOn with
  | h listed => exact Quot.sound (List.perm_insertionSort Before listed)

@[simp] theorem mem_sorted : name ∈ sorted names ↔ name ∈ names := by
  rw [← Multiset.mem_coe,sorted_val,Finset.mem_val]

theorem sorted_nodup : (sorted names).Nodup := by
  rw [← Multiset.coe_nodup,sorted_val]
  exact names.nodup

theorem sorted_before : (sorted names).Pairwise Before := by
  obtain ⟨listed,distinct⟩ := names
  induction listed using Quot.inductionOn with
  | h listed => exact List.pairwise_insertionSort Before listed

@[simp] theorem length_sorted : (sorted names).length = names.card := by
  rw [← Multiset.coe_card,sorted_val]
  rfl

end Ranked

abbrev Slots (κ ν : Type) := Finmap fun _ : κ => ν

namespace Slots

variable {κ ν : Type}

def weight (value : ν → Nat) (slots : Slots κ ν) : Nat := (slots.entries.map fun entry => value entry.2).sum

@[simp] theorem weight_empty {value : ν → Nat} : weight value (∅ : Slots κ ν) = 0 := rfl

variable [DecidableEq κ]

def eraseAll (slots : Slots κ ν) (keys : List κ) : Slots κ ν := keys.foldl (fun rest key => rest.erase key) slots

def insertAll (slots : Slots κ ν) (entries : List (κ × ν)) : Slots κ ν :=
  entries.foldl (fun rest entry => rest.insert entry.1 entry.2) slots

def set (slots : Slots κ ν) (key : κ) : Option ν → Slots κ ν
  | some value => slots.insert key value
  | none => slots.erase key

variable {slots : Slots κ ν} {key : κ} {keys : List κ} {entries : List (κ × ν)} {item : ν}
  {one : ν → Nat}

@[simp] theorem eraseAll_nil : slots.eraseAll [] = slots := rfl

@[simp] theorem eraseAll_cons : slots.eraseAll (key :: keys) = eraseAll (slots.erase key) keys := rfl

@[simp] theorem insertAll_nil : slots.insertAll [] = slots := rfl

@[simp] theorem insertAll_cons :
    slots.insertAll (entry :: entries) = insertAll (slots.insert entry.1 entry.2) entries := rfl

theorem lookup_erase_if : (slots.erase other).lookup key = if key = other then none else slots.lookup key := by
  split
  · rename_i same
    rw [same,Finmap.lookup_erase]
  · rename_i different
    rw [Finmap.lookup_erase_ne different]

theorem lookup_insert_if :
    (slots.insert other value).lookup key = if key = other then some value else slots.lookup key := by
  split
  · rename_i same
    rw [same,Finmap.lookup_insert]
  · rename_i different
    rw [Finmap.lookup_insert_of_ne _ different]

theorem lookup_eraseAll : (slots.eraseAll keys).lookup key = if key ∈ keys then none else slots.lookup key := by
  induction keys generalizing slots with
  | nil => simp
  | cons head keys ih =>
    rw [eraseAll_cons,ih,lookup_erase_if]
    by_cases same : key = head <;> simp [same]

theorem lookup_insertAll_notMem (absent : key ∉ entries.map Prod.fst) :
    (slots.insertAll entries).lookup key = slots.lookup key := by
  induction entries generalizing slots with
  | nil => rfl
  | cons head entries ih =>
    rw [List.map_cons,List.mem_cons,not_or] at absent
    rw [insertAll_cons,ih absent.2,Finmap.lookup_insert_of_ne _ absent.1]

theorem lookup_insertAll_mem {slots : Slots κ ν} {entries : List (κ × ν)} {entry : κ × ν}
    (distinct : (entries.map Prod.fst).Nodup) (member : entry ∈ entries) :
    (slots.insertAll entries).lookup entry.1 = some entry.2 := by
  induction entries generalizing slots with
  | nil => cases member
  | cons head entries ih =>
    rw [List.map_cons,List.nodup_cons] at distinct
    rcases List.mem_cons.mp member with rfl | later
    · rw [insertAll_cons,lookup_insertAll_notMem distinct.1,Finmap.lookup_insert]
    · exact ih distinct.2 later

theorem lookup_insertAll_cases (live : (slots.insertAll entries).lookup key = some value) :
    (key, value) ∈ entries ∨ key ∉ entries.map Prod.fst ∧ slots.lookup key = some value := by
  induction entries generalizing slots with
  | nil => exact .inr ⟨by simp,live⟩
  | cons head entries ih =>
    rcases ih live with later | ⟨absent,earlier⟩
    · exact .inl (List.mem_cons_of_mem _ later)
    · rw [lookup_insert_if] at earlier
      split at earlier
      · rename_i same
        cases earlier
        exact .inl (by simp [same])
      · rename_i different
        exact .inr ⟨by simpa [different] using absent,earlier⟩

theorem weight_insert (value : ν → Nat) (absent : slots.lookup key = none) :
    weight value (slots.insert key item) = value item + weight value slots := by
  rw [weight,weight,Finmap.entries_insert_of_notMem (Finmap.lookup_eq_none.mp absent),Multiset.map_cons,Multiset.sum_cons]

omit [DecidableEq κ] in
theorem weight_add {other : ν → Nat} :
    slots.weight (fun item => one item + other item) = slots.weight one + slots.weight other :=
  Multiset.sum_map_add

theorem weight_congr {other : ν → Nat} (same : ∀ key item, slots.lookup key = some item → one item = other item) :
    slots.weight one = slots.weight other := by
  unfold weight
  congr 1
  apply Multiset.map_congr rfl
  intro entry listed
  exact same entry.1 entry.2 (Finmap.lookup_eq_some_iff.mpr listed)

omit [DecidableEq κ] in
theorem weight_sum {ι : Type} {names : Finset ι} {value : ι → ν → Nat} :
    slots.weight (fun item => ∑ name ∈ names, value name item) = ∑ name ∈ names, slots.weight (value name) := by
  classical
  induction names using Finset.induction with
  | empty =>
    simp only [Finset.sum_empty]
    exact Multiset.sum_map_zero
  | insert name names fresh ih =>
    simp only [Finset.sum_insert fresh]
    rw [weight_add,ih]

theorem insert_erase : (slots.erase key).insert key item = slots.insert key item := by
  apply Finmap.ext_lookup
  intro other
  rw [lookup_insert_if,lookup_insert_if,lookup_erase_if]
  split <;> rfl

theorem insert_held (live : slots.lookup key = some item) : slots.insert key item = slots := by
  apply Finmap.ext_lookup
  intro other
  rw [lookup_insert_if]
  split
  · rename_i same
    rw [same,live]
  · rfl

theorem weight_erase (value : ν → Nat) (live : slots.lookup key = some item) :
    weight value slots = value item + weight value (slots.erase key) := by
  have weighed : weight value ((slots.erase key).insert key item) = _ := weight_insert value (slots.lookup_erase key)
  rwa [insert_erase,insert_held live] at weighed

theorem weight_replace (value : ν → Nat) {slots : Slots κ ν} {key : κ} {item next : ν} (live : slots.lookup key = some item) :
    weight value (slots.insert key next) + value item = weight value slots + value next := by
  have weighed : weight value ((slots.erase key).insert key next) = _ := weight_insert value (slots.lookup_erase key)
  rw [insert_erase] at weighed
  rw [weighed,weight_erase value live]
  omega

theorem weight_eraseAll (value : ν → Nat) (distinct : (entries.map Prod.fst).Nodup)
    (live : ∀ entry ∈ entries, slots.lookup entry.1 = some entry.2) :
    weight value slots = (entries.map fun entry => value entry.2).sum +
        weight value (slots.eraseAll (entries.map Prod.fst)) := by
  induction entries generalizing slots with
  | nil => simp
  | cons head entries ih =>
    rw [List.map_cons,List.nodup_cons] at distinct
    have rest : ∀ entry ∈ entries, (slots.erase head.1).lookup entry.1 = some entry.2 := by
      intro entry member
      have other : entry.1 ≠ head.1 := by
        intro same
        exact distinct.1 (same ▸ List.mem_map_of_mem member)
      rw [Finmap.lookup_erase_ne other]
      exact live entry (List.mem_cons_of_mem _ member)
    rw [weight_erase value (live head List.mem_cons_self),ih distinct.2 rest]
    simp only [List.map_cons,List.sum_cons,eraseAll_cons,Nat.add_assoc]

theorem weight_insertAll (value : ν → Nat) (distinct : (entries.map Prod.fst).Nodup)
    (absent : ∀ entry ∈ entries, slots.lookup entry.1 = none) :
    weight value (slots.insertAll entries) = (entries.map fun entry => value entry.2).sum + weight value slots := by
  induction entries generalizing slots with
  | nil => simp
  | cons head entries ih =>
    rw [List.map_cons,List.nodup_cons] at distinct
    have rest : ∀ entry ∈ entries, (slots.insert head.1 head.2).lookup entry.1 = none := by
      intro entry member
      have other : entry.1 ≠ head.1 := by
        intro same
        exact distinct.1 (same ▸ List.mem_map_of_mem member)
      rw [Finmap.lookup_insert_of_ne _ other]
      exact absent entry (List.mem_cons_of_mem _ member)
    rw [insertAll_cons,ih distinct.2 rest,weight_insert value (absent head List.mem_cons_self)]
    simp only [List.map_cons,List.sum_cons]
    omega

section Rewriting

variable {μ : Type} {slots : Slots κ ν}

def mapAll (rewrite : κ → ν → μ) (slots : Slots κ ν) : Slots κ μ where
  entries := slots.entries.map fun entry => ⟨entry.1,rewrite entry.1 entry.2⟩
  nodupKeys := by
    have distinct := slots.nodupKeys.nodup_keys
    rw [← Multiset.nodup_keys,Multiset.keys,Multiset.map_map]
    exact distinct

@[simp] theorem lookup_mapAll {rewrite : κ → ν → μ} :
    (slots.mapAll rewrite).lookup key = (slots.lookup key).map (rewrite key) := by
  induction slots using Finmap.induction_on with
  | H listed => exact List.dlookup_map₂ key

end Rewriting

section Size

variable {slots : Slots κ ν}

theorem mem_keys : key ∈ slots.keys ↔ slots.lookup key ≠ none := by
  rw [Finmap.mem_keys,ne_eq,Finmap.lookup_eq_none,not_not]

def size (slots : Slots κ ν) : Nat := slots.keys.card

theorem keys_insert : (slots.insert key value).keys = insert key slots.keys := by
  ext other
  rw [mem_keys,lookup_insert_if,Finset.mem_insert,mem_keys]
  by_cases same : other = key <;> simp [same]

theorem keys_eraseAll : (slots.eraseAll keys).keys = slots.keys \ keys.toFinset := by
  ext other
  rw [mem_keys,lookup_eraseAll,Finset.mem_sdiff,mem_keys,List.mem_toFinset]
  by_cases listed : other ∈ keys <;> simp [listed]

theorem size_insert_le : size (slots.insert key value) ≤ size slots + 1 := by
  rw [size,keys_insert]
  exact Finset.card_insert_le _ _

theorem size_insert_present (present : slots.lookup key ≠ none) : size (slots.insert key value) = size slots := by
  rw [size,keys_insert,Finset.insert_eq_of_mem (mem_keys.mpr present),size]

theorem size_eraseAll (listed : ∀ key ∈ keys, slots.lookup key ≠ none) :
    size (slots.eraseAll keys) = size slots - keys.toFinset.card := by
  rw [size,keys_eraseAll,Finset.card_sdiff_of_subset,size]
  intro other member
  exact mem_keys.mpr (listed other (List.mem_toFinset.mp member))

end Size

-- Entries in the order of their keys, and a store rebuilt from them.
section Listing

variable {ρ : Type} [LinearOrder ρ] [Ranked κ ρ]

def listing (slots : Slots κ ν) : List κ := Ranked.sorted slots.keys

def values (slots : Slots κ ν) : List ν := slots.listing.filterMap slots.lookup

variable {slots : Slots κ ν} {key : κ}

@[simp] theorem mem_listing : key ∈ slots.listing ↔ slots.lookup key ≠ none := by
  rw [listing,Ranked.mem_sorted,mem_keys]

theorem mem_values : value ∈ slots.values ↔ ∃ key, slots.lookup key = some value := by
  rw [values,List.mem_filterMap]
  constructor
  · intro found
    obtain ⟨key,-,held⟩ := found
    exact ⟨key,held⟩
  · intro found
    obtain ⟨key,held⟩ := found
    exact ⟨key,by rw [mem_listing,held]; simp,held⟩

theorem coe_values : (slots.values : Multiset ν) = slots.entries.map fun entry => entry.2 := by
  have listed : (slots.listing : Multiset κ) = slots.entries.map fun entry => entry.1 := Ranked.sorted_val
  have each : ∀ entries : Multiset (Sigma fun _ : κ => ν),
      (∀ entry ∈ entries, slots.lookup entry.1 = some entry.2) →
      entries.filterMap (fun entry => slots.lookup entry.1) = entries.map fun entry => entry.2 := by
    intro entries
    induction entries using Multiset.induction_on with
    | empty => exact fun _ => rfl
    | cons head entries ih =>
      intro found
      rw [Multiset.filterMap_cons_some (fun entry : Sigma fun _ : κ => ν => slots.lookup entry.1)
        _ _ (found head (Multiset.mem_cons_self _ _)),Multiset.map_cons,
        ih fun entry member => found entry (Multiset.mem_cons_of_mem member)]
  rw [values,← Multiset.filterMap_coe,listed,Multiset.filterMap_map]
  exact each _ fun entry member => Finmap.mem_lookup_iff.mpr member

theorem length_values : slots.values.length = slots.size := by
  rw [← Multiset.coe_card,coe_values,Multiset.card_map,size]
  exact (Multiset.card_map Sigma.fst slots.entries).symm

theorem sum_values {value : ν → Nat} : (slots.values.map value).sum = slots.weight value := by
  rw [← Multiset.sum_coe,← Multiset.map_coe,coe_values,Multiset.map_map]
  rfl

variable {name : ν → κ}

theorem values_keys (named : ∀ key value, slots.lookup key = some value → name value = key) :
    slots.values.map name = slots.listing := by
  have each : ∀ keys : List κ, (∀ key ∈ keys, slots.lookup key ≠ none) → (keys.filterMap slots.lookup).map name = keys := by
    intro keys
    induction keys with
    | nil => exact fun _ => rfl
    | cons head keys ih =>
      intro listed
      obtain ⟨value,held⟩ := Option.ne_none_iff_exists'.mp (listed head List.mem_cons_self)
      have first : List.filterMap slots.lookup (head :: keys) = value :: keys.filterMap slots.lookup := List.filterMap_cons_some held
      rw [first,List.map_cons,named head value held,ih fun key member => listed key (List.mem_cons_of_mem _ member)]
  exact each _ fun key member => mem_listing.mp member

theorem values_of_sorted {name : ν → κ} {items : List ν}
    (sorted : (items.map name).Pairwise fun one other => Ranked.rank one < Ranked.rank other)
    (held : ∀ item ∈ items, slots.lookup (name item) = some item)
    (only : ∀ key, slots.lookup key ≠ none → key ∈ items.map name) : slots.values = items := by
  have distinct : (items.map name).Nodup := sorted.imp fun below same => by
    rw [same] at below
    exact lt_irrefl _ below
  have same : slots.listing.Perm (items.map name) := by
    refine (List.perm_ext_iff_of_nodup Ranked.sorted_nodup distinct).mpr fun key => ?_
    change key ∈ slots.listing ↔ _
    rw [mem_listing]
    refine ⟨only key,fun member => ?_⟩
    obtain ⟨item,listed,rfl⟩ := List.mem_map.mp member
    rw [held item listed]
    simp
  have listed : slots.listing = items.map name := same.eq_of_pairwise' Ranked.sorted_before (sorted.imp le_of_lt)
  rw [values,listed,List.filterMap_map]
  exact (List.filterMap_congr held).trans List.filterMap_some

omit [DecidableEq κ] in
theorem listing_strict : slots.listing.Pairwise fun one other => Ranked.rank one < Ranked.rank other :=
  (Ranked.sorted_before.and Ranked.sorted_nodup).imp fun both => lt_of_le_of_ne both.1 fun same => both.2 (Ranked.rank_injective same)

theorem values_erase (named : ∀ key value, slots.lookup key = some value → name value = key) :
    values (slots.erase key) = slots.values.filter fun value => name value ≠ key := by
  refine @values_of_sorted _ _ _ _ _ _ _ name _ ?_ ?_ ?_
  · have strict := @listing_strict _ _ _ _ _ slots
    rw [← values_keys named] at strict
    exact strict.sublist (List.filter_sublist.map name)
  · intro item listed
    rw [List.mem_filter,decide_eq_true_iff] at listed
    obtain ⟨held,other⟩ := listed
    obtain ⟨own,found⟩ := mem_values.mp held
    rw [Finmap.lookup_erase_ne other,named own item found,found]
  · intro other found
    rw [lookup_erase_if] at found
    split at found
    · exact absurd rfl found
    · rename_i different
      obtain ⟨value,held⟩ := Option.ne_none_iff_exists'.mp found
      refine List.mem_map.mpr ⟨value,List.mem_filter.mpr ⟨mem_values.mpr ⟨other,held⟩,?_⟩,named other value held⟩
      rw [named other value held]
      exact decide_eq_true different

theorem insertAll_values (named : ∀ key value, slots.lookup key = some value → name value = key) :
    insertAll ∅ (slots.values.map fun value => (name value, value)) = slots := by
  have firsts : (slots.values.map fun value => (name value, value)).map Prod.fst =
      slots.listing := by
    rw [List.map_map,← values_keys named]
    rfl
  apply Finmap.ext_lookup
  intro key
  cases held : slots.lookup key with
  | none =>
    rw [lookup_insertAll_notMem,Finmap.lookup_empty]
    rw [firsts,mem_listing,held]
    simp
  | some value =>
    have listed : (key, value) ∈ slots.values.map fun value => (name value, value) := by
      refine List.mem_map.mpr ⟨value,mem_values.mpr ⟨key,held⟩,?_⟩
      rw [named key value held]
    exact @lookup_insertAll_mem _ _ _ _ _ (key, value) (by rw [firsts]; exact Ranked.sorted_nodup) listed

end Listing

-- Taking entries in one by one, each refused whose key is already taken.
section Fresh

variable {ε : Type}

def insertFresh (name : ν → κ) (taken : ε) (slots : Slots κ ν) (value : ν) : Except ε (Slots κ ν) :=
  if slots.lookup (name value) ≠ none then .error taken else .ok (slots.insert (name value) value)

variable {name : ν → κ} {slots : Slots κ ν}

theorem insertFresh_all {values : List ν} (distinct : (values.map name).Nodup) (free : ∀ value ∈ values, slots.lookup (name value) = none) :
    values.foldlM (insertFresh name taken) slots = .ok (slots.insertAll (values.map fun value => (name value, value))) := by
  induction values generalizing slots with
  | nil => rfl
  | cons head values ih =>
    rw [List.map_cons,List.nodup_cons] at distinct
    have vacant : ¬slots.lookup (name head) ≠ none := not_not.mpr (free head List.mem_cons_self)
    rw [List.foldlM_cons,insertFresh,if_neg vacant,List.map_cons,insertAll_cons]
    refine ih distinct.2 fun value member => ?_
    rw [lookup_insert_if,if_neg]
    · exact free value (List.mem_cons_of_mem _ member)
    · exact fun same => distinct.1 (same ▸ List.mem_map_of_mem member)

theorem insertFresh_values {ρ : Type} [LinearOrder ρ] [Ranked κ ρ] (named : ∀ key value, slots.lookup key = some value → name value = key) :
    slots.values.foldlM (insertFresh name taken) ∅ = .ok slots := by
  rw [insertFresh_all,insertAll_values named]
  · rw [values_keys named]
    exact Ranked.sorted_nodup
  · exact fun value _ => Finmap.lookup_empty _

end Fresh

end Slots
