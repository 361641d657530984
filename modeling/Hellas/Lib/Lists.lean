import Mathlib.Data.List.Count
import Mathlib.Data.List.Flatten
import Mathlib.Data.Set.Function
import Mathlib.Order.Lattice
import Mathlib.Tactic.Common

-- Lists told apart by what is mapped over them, and what one element says of the whole list.

namespace Lists

variable {α β : Type}

theorem zip_matches {f : α → β} {left : List α} {right : List β} :
    (left.length = right.length ∧ ∀ pair ∈ left.zip right, f pair.1 = pair.2) ↔ right = left.map f := by
  induction left generalizing right with
  | nil => simp [eq_comm]
  | cons head left ih =>
    cases right with
    | nil => simp
    | cons other right =>
      simp only [List.length_cons,Nat.add_right_cancel_iff,List.zip_cons_cons,List.forall_mem_cons,List.map_cons,List.cons.injEq,← ih]
      constructor
      · intro zipped
        obtain ⟨same,here,rest⟩ := zipped
        exact ⟨here.symm,same,rest⟩
      · intro mapped
        obtain ⟨here,same,rest⟩ := mapped
        exact ⟨same,here.symm,rest⟩

theorem map_inj_on {f : α → β} {left right : List α} (inj : ∀ x ∈ left, ∀ y ∈ right, f x = f y → x = y) (same : left.map f = right.map f) :
    left = right := by
  induction left generalizing right with
  | nil => exact (List.map_eq_nil_iff.mp same.symm).symm
  | cons head rest ih =>
    cases right with
    | nil => cases same
    | cons first later =>
      rw [List.map_cons,List.map_cons] at same
      obtain ⟨here,there⟩ := List.cons.inj same
      rw [inj head List.mem_cons_self first List.mem_cons_self here,ih (fun x member y listed => inj x (List.mem_cons_of_mem _ member) y
          (List.mem_cons_of_mem _ listed)) there]

theorem injOn_listed {f : α → β} {items : List α} (apart : ∀ left ∈ items, ∀ right ∈ items, f left = f right → left = right) :
    Set.InjOn f { item | item ∈ items } :=
  fun left first right second => apart left first right second

theorem count_twice [DecidableEq β] {f : α → List β} {past : List α} {first second : α} {key : β}
    (ordered : [first,second].Sublist past) (here : key ∈ f first) (there : key ∈ f second) : 2 ≤ (past.flatMap f).count key := by
  have within : (f first ++ f second).Sublist (past.flatMap f) := by
    simpa [List.flatMap_def] using (ordered.map f).flatten
  have counted := within.count_le key
  rw [List.count_append] at counted
  have one := List.count_pos_iff.mpr here
  have two := List.count_pos_iff.mpr there
  omega

theorem foldr_max {weight : α → Nat} {values : List α} (above : ∀ value ∈ values, weight value ≤ bound)
    (met : bound = 0 ∨ ∃ value ∈ values, weight value = bound) : values.foldr (fun value best => max (weight value) best) 0 = bound := by
  apply le_antisymm
  · clear met
    induction values with
    | nil => exact Nat.zero_le _
    | cons head rest ih => exact max_le (above head List.mem_cons_self) (ih fun value member => above value (List.mem_cons_of_mem _ member))
  · rcases met with rfl | ⟨value,member,rfl⟩
    · exact Nat.zero_le _
    · clear above
      induction values with
      | nil => cases member
      | cons head rest ih =>
        rw [List.foldr_cons]
        rcases List.mem_cons.mp member with rfl | later
        · exact le_max_left _ _
        · exact (ih later).trans (le_max_right _ _)

end Lists
