import Mathlib.Data.List.Basic
import Mathlib.Data.UInt
import Mathlib.Tactic.Common

-- Numbers and bytes spelled in text: what they spell can be read back, and a decimal ends where
-- its digits do.

namespace Text

def hexDigits : List UInt8 := [48,49,50,51,52,53,54,55,56,57,97,98,99,100,101,102]

def hexByte (byte : UInt8) : List UInt8 := [hexDigits.getD (byte >>> 4).toNat 0,hexDigits.getD (byte &&& 15).toNat 0]

def unhex (digits : List UInt8) : UInt8 := digits.foldl (fun sum digit => sum * 16 + if digit < 97 then digit - 48 else digit - 87) 0

theorem unhex_hexByte (byte : UInt8) : unhex (hexByte byte) = byte := by
  have all : ∀ value : Fin 256, unhex (hexByte (UInt8.ofNat value)) = UInt8.ofNat value := by
    decide +kernel
  have here := all ⟨byte.toNat,byte.toNat_lt⟩
  rwa [UInt8.ofNat_toNat] at here

theorem hexByte_injective : Function.Injective hexByte := Function.LeftInverse.injective unhex_hexByte

theorem hexBytes_injective : Function.Injective (List.flatMap hexByte) := by
  intro one
  induction one with
  | nil =>
    intro other same
    cases other with
    | nil => rfl
    | cons head rest => cases same
  | cons head rest ih =>
    intro other same
    cases other with
    | nil => cases same
    | cons first later =>
      rw [List.flatMap_cons,List.flatMap_cons] at same
      obtain ⟨here,there⟩ := List.append_inj same rfl
      rw [hexByte_injective here,ih there]

theorem hexBytes_length {bytes : List UInt8} : (bytes.flatMap hexByte).length = 2 * bytes.length := by
  rw [List.length_flatMap]
  simp [hexByte,Nat.mul_comm]

-- The digits of a number in front of what is already written, least significant first.
def decimalLoop : Nat → Nat → List UInt8 → List UInt8
  | 0, _, written => written
  | fuel + 1, remaining, written =>
    if 0 < remaining then
      decimalLoop fuel (remaining / 10) (UInt8.ofNat (48 + remaining % 10) :: written)
    else written

-- Twenty digits hold every 64-bit word.
def decimal (value : Nat) : List UInt8 :=
  if value = 0 then [48] else decimalLoop 20 value []

def readDecimal (digits : List UInt8) : Nat := digits.foldl (fun sum digit => sum * 10 + (digit.toNat - 48)) 0

def isDigit (byte : UInt8) : Prop := 48 ≤ byte.toNat ∧ byte.toNat < 58

variable {value : Nat}

theorem digit_toNat : (UInt8.ofNat (48 + value % 10)).toNat = 48 + value % 10 := by
  rw [UInt8.toNat_ofNat',Nat.mod_eq_of_lt]
  omega

theorem foldl_decimalLoop (small : remaining < 10^fuel) :
    (decimalLoop fuel remaining written).foldl (fun sum digit => sum * 10 + (digit.toNat - 48)) 0 =
      written.foldl (fun sum digit => sum * 10 + (digit.toNat - 48)) remaining := by
  induction fuel generalizing remaining written with
  | zero => rw [decimalLoop,Nat.lt_one_iff.mp small]
  | succ fuel ih =>
    rw [decimalLoop]
    split
    · rw [Nat.pow_succ] at small
      rw [ih (by omega),List.foldl_cons,digit_toNat]
      congr 1
      omega
    · rename_i zero
      rw [Nat.eq_zero_of_not_pos zero]

theorem readDecimal_decimal (small : value < 10^20) : readDecimal (decimal value) = value := by
  unfold decimal
  split
  · rename_i zero
    rw [zero]
    rfl
  · exact foldl_decimalLoop small

theorem decimalLoop_digits (digits : ∀ digit ∈ written, isDigit digit) :
    ∀ digit ∈ decimalLoop fuel remaining written, isDigit digit := by
  induction fuel generalizing remaining written with
  | zero => exact digits
  | succ fuel ih =>
    rw [decimalLoop]
    split
    · refine ih (List.forall_mem_cons.mpr ⟨?_,digits⟩)
      rw [isDigit,digit_toNat]
      omega
    · exact digits

theorem decimal_digits : ∀ digit ∈ decimal value, isDigit digit := by
  unfold decimal
  split
  · rw [List.forall_mem_singleton,isDigit]
    decide
  · exact decimalLoop_digits fun digit listed => by cases listed

theorem decimalLoop_length : (decimalLoop fuel remaining written).length ≤ fuel + written.length := by
  induction fuel generalizing remaining written with
  | zero => exact Nat.le_of_eq (Nat.zero_add _).symm
  | succ fuel ih =>
    rw [decimalLoop]
    split
    · refine Nat.le_trans ih ?_
      rw [List.length_cons]
      omega
    · omega

theorem decimal_length {value : Nat} : (decimal value).length ≤ 20 := by
  unfold decimal
  split
  · decide
  · exact decimalLoop_length

theorem decimal_cancel (first : one < 10^20) (second : other < 10^20) (noDigit : ¬isDigit mark)
    (same : decimal one ++ mark :: left = decimal other ++ mark :: right) :
    one = other ∧ left = right := by
  have split (value : Nat) (rest : List UInt8) :
      (decimal value ++ mark :: rest).takeWhile (fun byte => decide (byte ≠ mark)) =
        decimal value := by
    rw [List.takeWhile_append_of_pos]
    · simp
    · intro digit listed
      have known := decimal_digits digit listed
      rw [decide_eq_true_eq]
      intro equal
      exact noDigit (equal ▸ known)
  have digits : decimal one = decimal other := by
    rw [← split one left,same,split]
  have value := congrArg readDecimal digits
  rw [readDecimal_decimal first,readDecimal_decimal second] at value
  rw [digits] at same
  exact ⟨value,(List.cons.inj (List.append_cancel_left same)).2⟩

end Text
