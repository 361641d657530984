import Mathlib.Algebra.Order.BigOperators.Group.List
import Mathlib.Algebra.Order.Ring.Nat
import Mathlib.Data.List.Induction

-- Fixed-width arithmetic that refuses to wrap, and big-endian byte strings. Nothing here knows
-- what the words or the bytes are for.

namespace Words

def checkedAdd (left right : UInt64) : Option UInt64 :=
  if left.toNat + right.toNat < 2^64 then some (left + right) else none

def checkedSub (left right : UInt64) : Option UInt64 :=
  if right.toNat ≤ left.toNat then some (left - right) else none

def checkedMul (left right : UInt64) : Option UInt64 :=
  if left.toNat * right.toNat < 2^64 then some (left * right) else none

def saturatingAdd (left right : UInt64) : UInt64 := (checkedAdd left right).getD (UInt64.ofNat (2^64 - 1))

def saturatingSub (left right : UInt64) : UInt64 := (checkedSub left right).getD 0

theorem exists_word {value : Nat} (small : value < 2^64) : ∃ word : UInt64, value = word.toNat :=
  ⟨UInt64.ofNat value,(UInt64.toNat_ofNat_of_lt' small).symm⟩

variable {item : α} {items : List α}

theorem checkedAdd_exact : checkedAdd left right = some result ↔ left.toNat + right.toNat = result.toNat := by
  unfold checkedAdd
  have bound := result.toNat_lt
  split
  · rename_i fits
    simp only [Option.some.injEq,← UInt64.toNat_inj,UInt64.toNat_add,Nat.mod_eq_of_lt fits]
  · simp only [reduceCtorEq,false_iff]
    omega

theorem checkedSub_exact : checkedSub left right = some result ↔ left.toNat = right.toNat + result.toNat := by
  unfold checkedSub
  split
  · rename_i fits
    have difference := UInt64.toNat_sub_of_le left right (UInt64.le_iff_toNat_le.mpr fits)
    simp only [Option.some.injEq,← UInt64.toNat_inj,difference]
    omega
  · simp only [reduceCtorEq,false_iff]
    omega

theorem checkedMul_exact : checkedMul left right = some result ↔ left.toNat * right.toNat = result.toNat := by
  unfold checkedMul
  have bound := result.toNat_lt
  split
  · rename_i fits
    simp only [Option.some.injEq,← UInt64.toNat_inj,UInt64.toNat_mul,Nat.mod_eq_of_lt fits]
  · simp only [reduceCtorEq,false_iff]
    omega

theorem saturatingAdd_toNat {left right : UInt64} (fits : left.toNat + right.toNat < 2^64) :
    (saturatingAdd left right).toNat = left.toNat + right.toNat := by
  unfold saturatingAdd checkedAdd
  rw [if_pos fits,Option.getD_some,UInt64.toNat_add,Nat.mod_eq_of_lt fits]

theorem saturatingAdd_min {left right limit : UInt64} :
    min (saturatingAdd left right).toNat limit.toNat = min (left.toNat + right.toNat) limit.toNat := by
  have bound := limit.toNat_lt
  unfold saturatingAdd checkedAdd
  split
  · rename_i fits
    rw [Option.getD_some,UInt64.toNat_add,Nat.mod_eq_of_lt fits]
  · have top : (UInt64.ofNat (2^64 - 1)).toNat = 2^64 - 1 := rfl
    rw [Option.getD_none,top]
    omega

theorem saturatingAdd_eq {left right : UInt64} :
    (saturatingAdd left right).toNat = min (left.toNat + right.toNat) (2^64 - 1) := by
  have limited := @saturatingAdd_min left right (UInt64.ofNat (2^64 - 1))
  have top : (UInt64.ofNat (2^64 - 1)).toNat = 2^64 - 1 := rfl
  have bound := (saturatingAdd left right).toNat_lt
  rw [top] at limited
  omega

theorem le_saturatingAdd : left ≤ saturatingAdd left right := by
  have bound := left.toNat_lt
  rw [UInt64.le_iff_toNat_le,saturatingAdd_eq]
  omega

theorem min_toNat {left right : UInt64} : (min left right).toNat = min left.toNat right.toNat := by
  change (if left ≤ right then left else right).toNat = _
  rw [Nat.min_def]
  split
  · rename_i small
    rw [if_pos (UInt64.le_iff_toNat_le.mp small)]
  · rename_i large
    rw [if_neg fun small => large (UInt64.le_iff_toNat_le.mpr small)]

-- The accumulating loop `total = total.checked_add(value(item))?` over a slice.
def checkedSum (value : α → UInt64) (items : List α) : Option UInt64 := items.foldlM (fun total item => checkedAdd total (value item)) 0

def total (value : α → UInt64) (items : List α) : Nat := (items.map fun item => (value item).toNat).sum

@[simp] theorem total_nil {value : α → UInt64} : total value [] = 0 := rfl

@[simp] theorem total_cons {value : α → UInt64} :
    total value (item :: items) = (value item).toNat + total value items := by
  simp [total]

theorem total_mem (value : α → UInt64) (member : item ∈ items) : (value item).toNat ≤ total value items :=
  List.le_sum_of_mem (List.mem_map_of_mem member)

theorem total_pos {value : α → UInt64} (positive : 0 < total value items) : ∃ item ∈ items, 0 < (value item).toNat := by
  induction items with
  | nil => cases positive
  | cons head rest ih =>
    rw [total_cons] at positive
    by_cases here : 0 < (value head).toNat
    · exact ⟨head,List.mem_cons_self,here⟩
    · obtain ⟨item,member,found⟩ := ih (by omega)
      exact ⟨item,List.mem_cons_of_mem _ member,found⟩

theorem total_filter {value : α → UInt64} {keep : α → Bool} :
    total value (items.filter keep) = (items.map fun item => if keep item then (value item).toNat else 0).sum := by
  induction items with
  | nil => rfl
  | cons head items ih =>
    rw [List.filter_cons]
    split
    · rename_i kept
      rw [total_cons,List.map_cons,List.sum_cons,if_pos kept,ih]
    · rename_i dropped
      rw [List.map_cons,List.sum_cons,if_neg dropped,ih,Nat.zero_add]

theorem saturatingSum_from {value : α → UInt64} :
    (items.foldl (fun sum item => saturatingAdd sum (value item)) start).toNat =
      min (start.toNat + total value items) (2^64 - 1) := by
  induction items generalizing start with
  | nil =>
    have bound := start.toNat_lt
    rw [List.foldl_nil,total_nil]
    omega
  | cons head items ih =>
    rw [List.foldl_cons,ih,total_cons,saturatingAdd_eq]
    omega

theorem saturatingSum_exact {value : α → UInt64} (fits : total value items < 2^64) :
    (items.foldl (fun sum item => saturatingAdd sum (value item)) 0).toNat = total value items := by
  have zero : (0 : UInt64).toNat = 0 := rfl
  rw [saturatingSum_from,zero]
  omega

theorem checkedSum_from {value : α → UInt64} :
    items.foldlM (fun sum item => checkedAdd sum (value item)) start = some result ↔
      start.toNat + total value items = result.toNat := by
  induction items generalizing start with
  | nil => simp [← UInt64.toNat_inj]
  | cons item items ih =>
    simp only [List.foldlM_cons,Option.bind_eq_bind,Option.bind_eq_some_iff,ih,total_cons,checkedAdd_exact]
    constructor
    · rintro ⟨next,added,summed⟩
      omega
    · intro summed
      have bound := result.toNat_lt
      have small : start.toNat + (value item).toNat < 2^64 := by omega
      obtain ⟨next,added⟩ := exists_word small
      exact ⟨next,added,by omega⟩

theorem checkedSum_exact {value : α → UInt64} :
    checkedSum value items = some result ↔ total value items = result.toNat := by
  unfold checkedSum
  rw [checkedSum_from]
  simp

-- The low `width` bytes of a number, most significant first.
def bigEndian : Nat → Nat → List UInt8
  | 0, _ => []
  | width + 1, value => bigEndian width (value / 256) ++ [UInt8.ofNat value]

def fromBigEndian (bytes : List UInt8) : Nat := bytes.foldl (fun value byte => value * 256 + byte.toNat) 0

@[simp] theorem bigEndian_length (width value : Nat) : (bigEndian width value).length = width := by
  induction width generalizing value with
  | zero => rfl
  | succ width ih => simp [bigEndian,ih]

theorem fromBigEndian_snoc (bytes : List UInt8) (last : UInt8) :
    fromBigEndian (bytes ++ [last]) = fromBigEndian bytes * 256 + last.toNat := by
  simp [fromBigEndian]

theorem fromBigEndian_bigEndian (width value : Nat) : fromBigEndian (bigEndian width value) = value % 256^width := by
  induction width generalizing value with
  | zero => simp [bigEndian,fromBigEndian,Nat.mod_one]
  | succ width ih =>
    have power : 256^(width + 1) = 256 * 256^width := Nat.pow_succ'
    rw [bigEndian,fromBigEndian_snoc,ih,UInt8.toNat_ofNat',power,Nat.mod_mul]
    omega

theorem fromBigEndian_lt (bytes : List UInt8) : fromBigEndian bytes < 256^bytes.length := by
  induction bytes using List.reverseRecOn with
  | nil => simp [fromBigEndian]
  | append_singleton bytes last ih =>
    have bound := last.toNat_lt
    rw [fromBigEndian_snoc,List.length_append,List.length_singleton,Nat.pow_succ]
    omega

theorem bigEndian_fromBigEndian (bytes : List UInt8) : bigEndian bytes.length (fromBigEndian bytes) = bytes := by
  induction bytes using List.reverseRecOn with
  | nil => rfl
  | append_singleton bytes last ih =>
    have bound := last.toNat_lt
    have high : (fromBigEndian bytes * 256 + last.toNat) / 256 = fromBigEndian bytes := by omega
    have low : UInt8.ofNat (fromBigEndian bytes * 256 + last.toNat) = last := by
      rw [← UInt8.toNat_inj,UInt8.toNat_ofNat']
      omega
    rw [fromBigEndian_snoc,List.length_append,List.length_singleton,bigEndian,high,low,ih]

end Words
