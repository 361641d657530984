import Mathlib.Data.List.Basic
import Mathlib.Data.Nat.Bitwise
import Mathlib.Order.Basic
import Mathlib.Tactic.Ring

-- Byte strings as bit strings, most significant bit first: reading, setting and clearing one bit,
-- packing bits back into bytes, and the order of the two.

namespace Bits

def mask (index : Nat) : UInt8 := 1 <<< (7 - UInt8.ofNat (index % 8))

def bit (bytes : List UInt8) (index : Nat) : Bool := bytes.getD (index / 8) 0 &&& mask index != 0

def setBit (bytes : List UInt8) (index : Nat) : List UInt8 := bytes.modify (index / 8) fun byte => byte ||| mask index

def clearBit (bytes : List UInt8) (index : Nat) : List UInt8 := bytes.modify (index / 8) fun byte => byte &&& ~~~mask index

def numeral : Nat → Nat → List Bool
  | 0, _ => []
  | width + 1, value => value.testBit width :: numeral width value

def bits (bytes : List UInt8) : List Bool := bytes.flatMap fun byte => numeral 8 byte.toNat

variable {width : Nat}

@[simp] theorem setBit_length : (setBit bytes index).length = bytes.length := by
  simp [setBit]

@[simp] theorem clearBit_length : (clearBit bytes index).length = bytes.length := by
  simp [clearBit]

@[simp] theorem numeral_length : (numeral width value).length = width := by
  induction width with
  | zero => rfl
  | succ width ih => rw [numeral,List.length_cons,ih]

theorem numeral_get (inside : index < width) :
    (numeral width value)[index]? = some (value.testBit (width - 1 - index)) := by
  induction width generalizing index with
  | zero => omega
  | succ width ih =>
    cases index with
    | zero => simp [numeral]
    | succ index =>
      rw [numeral,List.getElem?_cons_succ,ih (by omega)]
      congr 2
      omega

@[simp] theorem bits_cons : bits (byte :: bytes) = numeral 8 byte.toNat ++ bits bytes := rfl

@[simp] theorem bits_length : (bits bytes).length = 8 * bytes.length := by
  induction bytes with
  | nil => rfl
  | cons byte bytes ih =>
    rw [bits_cons,List.length_append,numeral_length,ih,List.length_cons]
    omega

section Positions

theorem mask_toNat : (mask index).toNat = 2 ^ (7 - index % 8) := by
  have each : ∀ place : Fin 8, (1 <<< (7 - UInt8.ofNat place)).toNat = 2 ^ (7 - place.val) := by
    decide
  exact each ⟨index % 8,Nat.mod_lt _ (by omega)⟩

theorem and_mask : (byte &&& mask index != 0) = byte.toNat.testBit (7 - index % 8) := by
  have zero : (byte &&& mask index = 0) ↔ byte.toNat &&& 2 ^ (7 - index % 8) = 0 := by
    rw [← UInt8.toNat_inj,UInt8.toNat_and,mask_toNat]
    rfl
  have power : (byte.toNat &&& 2 ^ (7 - index % 8)) =
      (byte.toNat.testBit (7 - index % 8)).toNat * 2 ^ (7 - index % 8) := Nat.and_two_pow _ _
  rw [Bool.eq_iff_iff,bne_iff_ne,ne_eq,zero,power]
  cases byte.toNat.testBit (7 - index % 8) <;> simp

theorem bits_get (inside : index < 8 * bytes.length) : (bits bytes)[index]? = some (bit bytes index) := by
  unfold bit
  rw [and_mask]
  induction bytes generalizing index with
  | nil => simp at inside
  | cons byte bytes ih =>
    rw [List.length_cons] at inside
    by_cases here : index < 8
    · rw [bits_cons,List.getElem?_append_left (by simpa using here),numeral_get here]
      simp [Nat.div_eq_of_lt here,Nat.mod_eq_of_lt here]
    · have later := @ih (index - 8) (by omega)
      have place : index / 8 = (index - 8) / 8 + 1 := by omega
      have offset : index % 8 = (index - 8) % 8 := by omega
      rw [bits_cons,List.getElem?_append_right (by simpa using here),numeral_length,later,place,
        offset]
      simp

theorem or_mask :
    (byte ||| mask index).toNat.testBit (7 - other % 8) = (byte.toNat.testBit (7 - other % 8) || decide (index % 8 = other % 8)) := by
  rw [UInt8.toNat_or,Nat.testBit_or,mask_toNat,Nat.testBit_two_pow]
  congr 2
  rw [eq_iff_iff]
  omega

theorem andNot_mask :
    (byte &&& ~~~mask index).toNat.testBit (7 - other % 8) = (byte.toNat.testBit (7 - other % 8) && !decide (index % 8 = other % 8)) := by
  have inverted : (~~~mask index).toNat.testBit (7 - other % 8) = !(mask index).toNat.testBit (7 - other % 8) := by
    change (~~~(mask index).toBitVec).getLsbD _ = !(mask index).toBitVec.getLsbD _
    rw [BitVec.getLsbD_not]
    have below : 7 - other % 8 < 8 := by omega
    simp [below]
  rw [UInt8.toNat_and,Nat.testBit_and,inverted,mask_toNat,Nat.testBit_two_pow]
  congr 3
  rw [eq_iff_iff]
  omega

theorem bit_setBit (inside : index < 8 * bytes.length) :
    bit (setBit bytes index) other = (bit bytes other || decide (index = other)) := by
  unfold bit setBit
  rw [and_mask,and_mask,List.getD_eq_getElem?_getD,List.getD_eq_getElem?_getD,List.getElem?_modify]
  by_cases sameByte : index / 8 = other / 8
  · have found : bytes[other / 8]? = some bytes[other / 8] :=
      List.getElem?_eq_getElem (by omega)
    simp only [found,if_pos sameByte,Option.map_eq_map,Option.map_some,Option.getD_some]
    rw [or_mask]
    congr 2
    rw [eq_iff_iff]
    omega
  · have different : index ≠ other := by
      intro same
      exact sameByte (by rw [same])
    simp [sameByte,different]

theorem bit_clearBit : bit (clearBit bytes index) other = (bit bytes other && !decide (index = other)) := by
  unfold bit clearBit
  rw [and_mask,and_mask,List.getD_eq_getElem?_getD,List.getD_eq_getElem?_getD,List.getElem?_modify]
  by_cases sameByte : index / 8 = other / 8
  · cases found : bytes[other / 8]? with
    | none => simp
    | some byte =>
      simp only [if_pos sameByte,Option.map_eq_map,Option.map_some,Option.getD_some]
      rw [andNot_mask]
      congr 3
      rw [eq_iff_iff]
      omega
  · have different : index ≠ other := by
      intro same
      exact sameByte (by rw [same])
    simp [sameByte,different]

theorem bits_set (inside : index < 8 * bytes.length) : bits (setBit bytes index) = (bits bytes).set index true := by
  apply List.ext_getElem?
  intro other
  rw [List.getElem?_set]
  by_cases here : other < 8 * bytes.length
  · rw [bits_get (by simpa using here),bits_get here,bit_setBit inside,bits_length]
    by_cases same : index = other
    · simp [same,here]
    · simp [same]
  · have outside : index ≠ other := by omega
    rw [if_neg outside,List.getElem?_eq_none (by simpa using here),
      List.getElem?_eq_none (by simpa using here)]

end Positions

section Order

theorem mod_numeral (width value : Nat) : value % 2 ^ (width + 1) = value % 2 ^ width + 2 ^ width * (value.testBit width).toNat := by
  rw [Nat.mod_pow_succ,Nat.toNat_testBit]

theorem mod_low (width value : Nat) : value % 2 ^ width < 2 ^ width := Nat.mod_lt _ (Nat.two_pow_pos _)

theorem numeral_lt : numeral width left < numeral width right ↔ left % 2 ^ width < right % 2 ^ width := by
  induction width with
  | zero => simp [numeral,Nat.mod_one]
  | succ width ih =>
    have leftLow := mod_low width left
    have rightLow := mod_low width right
    rw [numeral,numeral,List.cons_lt_cons_iff,ih,mod_numeral,mod_numeral]
    cases left.testBit width <;> cases right.testBit width <;>
      simp only [Bool.toNat_false,Bool.toNat_true,Nat.mul_zero,Nat.mul_one,reduceCtorEq,
        Bool.lt_iff,true_and,false_and,and_true,and_false,true_or,false_or,true_iff,
        false_iff] <;> omega

theorem numeral_inj : numeral width left = numeral width right ↔ left % 2 ^ width = right % 2 ^ width := by
  induction width with
  | zero => simp [numeral,Nat.mod_one]
  | succ width ih =>
    have leftLow := mod_low width left
    have rightLow := mod_low width right
    rw [numeral,numeral,List.cons.injEq,ih,mod_numeral,mod_numeral]
    cases left.testBit width <;> cases right.testBit width <;>
      simp only [Bool.toNat_false,Bool.toNat_true,Nat.mul_zero,Nat.mul_one,reduceCtorEq,true_and,false_and,false_iff] <;> omega

theorem append_lt_append {left right : List Bool} (length : left.length = right.length) :
    left ++ lower < right ++ upper ↔ left < right ∨ left = right ∧ lower < upper := by
  induction left generalizing right with
  | nil =>
    rw [List.length_nil,eq_comm,List.length_eq_zero_iff] at length
    simp [length]
  | cons head left ih =>
    cases right with
    | nil => cases length
    | cons other right =>
      have shorter : left.length = right.length := by simpa using length
      rw [List.cons_append,List.cons_append,List.cons_lt_cons_iff,List.cons_lt_cons_iff,ih shorter,List.cons.injEq]
      tauto

theorem small (value : UInt8) : value.toNat % 2 ^ 8 = value.toNat := Nat.mod_eq_of_lt value.toNat_lt

theorem bits_lt (length : left.length = right.length) : bits left < bits right ↔ left < right := by
  induction left generalizing right with
  | nil =>
    rw [List.length_nil,eq_comm,List.length_eq_zero_iff] at length
    simp [length]
  | cons byte left ih =>
    cases right with
    | nil => cases length
    | cons other right =>
      have shorter : left.length = right.length := by simpa using length
      rw [bits_cons,bits_cons,append_lt_append (by simp),numeral_lt,numeral_inj,ih shorter,
        List.cons_lt_cons_iff,small,small,UInt8.toNat_inj,UInt8.lt_iff_toNat_lt]

theorem bits_inj (length : left.length = right.length) : bits left = bits right ↔ left = right := by
  induction left generalizing right with
  | nil =>
    rw [List.length_nil,eq_comm,List.length_eq_zero_iff] at length
    simp [length]
  | cons byte left ih =>
    cases right with
    | nil => cases length
    | cons other right =>
      have shorter : left.length = right.length := by simpa using length
      have parts : numeral 8 byte.toNat ++ bits left = numeral 8 other.toNat ++ bits right ↔
          numeral 8 byte.toNat = numeral 8 other.toNat ∧ bits left = bits right :=
        ⟨fun same => List.append_inj same (by simp),fun same => by rw [same.1,same.2]⟩
      rw [bits_cons,bits_cons,parts,numeral_inj,ih shorter,List.cons.injEq,small,small,UInt8.toNat_inj]

end Order

section Packing

def number : List Bool → Nat
  | [] => 0
  | bit :: path => bit.toNat * 2 ^ path.length + number path

theorem number_lt {path : List Bool} : number path < 2 ^ path.length := by
  induction path with
  | nil => decide
  | cons bit path ih =>
    rw [number,List.length_cons,Nat.pow_succ]
    cases bit <;> simp only [Bool.toNat_false,Bool.toNat_true] <;> omega

theorem numeral_number {path : List Bool} : numeral path.length (number path) = path := by
  induction path with
  | nil => rfl
  | cons bit path ih =>
    have low := @number_lt path
    have rest : numeral path.length (bit.toNat * 2 ^ path.length + number path) = path := by
      refine Eq.trans (numeral_inj.mpr ?_) ih
      rw [Nat.mul_comm,Nat.mul_add_mod]
    rw [number,List.length_cons,numeral,rest,Nat.mul_comm,Nat.testBit_two_pow_mul_add _ low,if_neg (lt_irrefl _),Nat.sub_self]
    cases bit <;> rfl

def pack : Nat → List Bool → List UInt8
  | 0, _ => []
  | width + 1, path => UInt8.ofNat (number (path.take 8)) :: pack width (path.drop 8)

@[simp] theorem pack_length : (pack width path).length = width := by
  induction width generalizing path with
  | zero => rfl
  | succ width ih => rw [pack,List.length_cons,ih]

theorem bits_pack {path : List Bool} (length : path.length = 8 * width) : bits (pack width path) = path := by
  induction width generalizing path with
  | zero =>
    rw [Nat.mul_zero,List.length_eq_zero_iff] at length
    rw [length]
    rfl
  | succ width ih =>
    have taken : (path.take 8).length = 8 := by
      rw [List.length_take]
      omega
    have low := @number_lt (path.take 8)
    have first : numeral 8 (number (path.take 8)) = path.take 8 := by
      have whole := @numeral_number (path.take 8)
      rwa [taken] at whole
    rw [taken] at low
    rw [pack,bits_cons,UInt8.toNat_ofNat_of_lt' low,first,ih (by rw [List.length_drop]; omega),List.take_append_drop]

end Packing

end Bits
