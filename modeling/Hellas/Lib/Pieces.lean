import Mathlib.Data.List.Basic
import Mathlib.Data.List.Flatten
import Mathlib.Tactic.Common

-- A list cut into pieces of one width, the last of them shorter, and put together again.

namespace Pieces

variable {α : Type} {whole : List α} {width count index : Nat} {pieces : Nat → List α}

def piece (width : Nat) (whole : List α) (index : Nat) : List α := (whole.drop (index * width)).take width

theorem pieces_take : (List.range count).flatMap (piece width whole) = whole.take (count * width) := by
  induction count with
  | zero => simp
  | succ count ih =>
    rw [List.range_succ,List.flatMap_append,ih,List.flatMap_singleton,Nat.succ_mul,List.take_add]
    rfl

theorem pieces_whole (covered : whole.length ≤ count * width) :
    (List.range count).flatMap (piece width whole) = whole := by
  rw [pieces_take,List.take_of_length_le covered]

theorem full_length (full : ∀ index < count, (pieces index).length = width) :
    ((List.range count).flatMap pieces).length = count * width := by
  induction count with
  | zero => simp
  | succ count ih =>
    rw [List.range_succ,List.flatMap_append,List.length_append,List.flatMap_singleton,
      ih fun index below => full index (Nat.lt_succ_of_lt below),full count (Nat.lt_succ_self count),
      Nat.succ_mul]

theorem piece_of_pieces (full : ∀ index, index + 1 < count → (pieces index).length = width)
    (fits : ∀ index < count, (pieces index).length ≤ width) (inside : index < count) :
    piece width ((List.range count).flatMap pieces) index = pieces index := by
  have cut : List.range count = List.range index ++ index :: List.range' (index + 1) (count - index - 1) := by
    have joined := @List.range'_append_1 0 index (count - index - 1 + 1)
    rw [Nat.zero_add] at joined
    rw [List.range_eq_range',List.range_eq_range',← List.range'_succ,joined]
    congr 1
    omega
  have before : ((List.range index).flatMap pieces).length = index * width := full_length fun earlier below => full earlier (by omega)
  unfold piece
  rw [cut,List.flatMap_append,List.flatMap_cons,List.drop_left' before]
  by_cases last : index + 1 < count
  · rw [List.take_left' (full index last)]
  · have rest : count - index - 1 = 0 := by omega
    rw [rest,List.range'_zero,List.flatMap_nil,List.append_nil]
    exact List.take_of_length_le (fits index inside)

end Pieces
