import Mathlib.Data.List.Nodup
import Mathlib.Data.Bool.Basic
import Mathlib.Order.Lattice
import Mathlib.Algebra.Order.Ring.Nat
import Mathlib.Algebra.BigOperators.Group.Finset.Basic

-- Maps from bit paths of one length, seen as the full binary tree over them: what a summary of the
-- tree is, how one write moves it, and where a key stands among the keys in order.

namespace Trie

variable {α β : Type}

abbrev Leaves (α : Type) := List Bool → Option α

def write (leaves : Leaves α) (key : List Bool) (value : Option α) : Leaves α := fun path => if path = key then value else leaves path

-- The summary of what lies below a path, that many bits above the leaves.
def fold (leaf : List Bool → Option α → β) (node : β → β → β) (leaves : Leaves α) :
    Nat → List Bool → β
  | 0, path => leaf path (leaves path)
  | height + 1, path => node (fold leaf node leaves height (path ++ [false]))
      (fold leaf node leaves height (path ++ [true]))

-- The occupied keys below a path, in order.
def entries (leaves : Leaves α) : Nat → List Bool → List (List Bool × α)
  | 0, path => (leaves path).toList.map fun value => (path, value)
  | height + 1, path => entries leaves height (path ++ [false]) ++
      entries leaves height (path ++ [true])

-- The summaries beside the way from a path down to a key.
def siblings (leaf : List Bool → Option α → β) (node : β → β → β) (leaves : Leaves α) :
    List Bool → List Bool → List β
  | _, [] => []
  | path, bit :: rest => fold leaf node leaves rest.length (path ++ [!bit]) ::
      siblings leaf node leaves (path ++ [bit]) rest

-- The way back up, from a leaf's summary and what stands beside it.
def climb (node : β → β → β) : List Bool → List β → β → β
  | bit :: rest, side :: sides, below =>
    let here := climb node rest sides below
    if bit then node side here else node here side
  | _, _, below => below

-- A tree of any height doubles when it is evaluated, so it is only ever rewritten.
attribute [irreducible] fold entries

section Summaries

variable {leaf : List Bool → Option α → β} {node : β → β → β} {leaves : Leaves α}

theorem fold_congr {others : Leaves α} {height : Nat} {path : List Bool}
    (same : ∀ rest : List Bool, rest.length = height → leaves (path ++ rest) = others (path ++ rest)) :
    fold leaf node leaves height path = fold leaf node others height path := by
  induction height generalizing path with
  | zero =>
    have here := same [] rfl
    rw [List.append_nil] at here
    rw [fold,fold,here]
  | succ height ih =>
    have below (bit : Bool) : fold leaf node leaves height (path ++ [bit]) = fold leaf node others height (path ++ [bit]) := by
      apply ih
      intro rest length
      have deeper := same (bit :: rest) (by simp [length])
      simpa using deeper
    rw [fold,fold,below,below]

variable {path rest : List Bool} {value : Option α}

theorem fold_write_off (off : ∀ rest : List Bool, rest.length = height → path ++ rest ≠ key) :
    fold leaf node (write leaves key value) height path = fold leaf node leaves height path := by
  apply fold_congr
  intro rest length
  rw [write,if_neg (off rest length)]

theorem siblings_length : (siblings leaf node leaves path rest).length = rest.length := by
  induction rest generalizing path with
  | nil => rfl
  | cons bit rest ih => rw [siblings,List.length_cons,ih,List.length_cons]

theorem siblings_drop :
    (siblings leaf node leaves path rest).drop depth = siblings leaf node leaves (path ++ rest.take depth) (rest.drop depth) := by
  induction rest generalizing path depth with
  | nil => simp [siblings]
  | cons bit rest ih =>
    cases depth with
    | zero => simp
    | succ depth => rw [siblings,List.drop_succ_cons,ih,List.take_succ_cons,List.drop_succ_cons,List.append_assoc,List.singleton_append]

theorem siblings_write {path rest : List Bool} {value : Option α} :
    siblings leaf node (write leaves (path ++ rest) value) path rest = siblings leaf node leaves path rest := by
  induction rest generalizing path with
  | nil => rfl
  | cons bit rest ih =>
    have deeper := @ih (path ++ [bit])
    rw [← List.append_cons] at deeper
    rw [siblings,siblings,deeper,fold_write_off]
    intro other length same
    rw [List.append_assoc,List.append_cancel_left_eq] at same
    cases bit <;> cases same

theorem climb_siblings {path rest : List Bool} :
    climb node rest (siblings leaf node leaves path rest) (leaf (path ++ rest) (leaves (path ++ rest))) =
      fold leaf node leaves rest.length path := by
  induction rest generalizing path with
  | nil => simp [climb,fold]
  | cons bit rest ih =>
    have deeper := @ih (path ++ [bit])
    rw [← List.append_cons] at deeper
    rw [siblings,climb,deeper,List.length_cons,fold]
    cases bit <;> rfl

end Summaries

section Order

variable {leaves : Leaves α}

variable {height : Nat} {path rest : List Bool} {value : α}

theorem mem_entries :
    (key, value) ∈ entries leaves height path ↔
      ∃ rest : List Bool, rest.length = height ∧ key = path ++ rest ∧ leaves key = some value := by
  induction height generalizing path with
  | zero =>
    simp only [entries,List.mem_map,Option.mem_toList,Prod.mk.injEq]
    constructor
    · intro found
      rcases found with ⟨held,here,rfl,rfl⟩
      exact ⟨[],rfl,(List.append_nil path).symm,here⟩
    · intro found
      rcases found with ⟨rest,length,same,here⟩
      have ends : path = key := by simpa [List.length_eq_zero_iff.mp length] using same.symm
      exact ⟨value,ends ▸ here,ends,rfl⟩
  | succ height ih =>
    rw [entries,List.mem_append,ih,ih]
    constructor
    · intro found
      rcases found with ⟨rest,length,rfl,here⟩ | ⟨rest,length,rfl,here⟩
      · exact ⟨false :: rest,by simp [length],by simp,here⟩
      · exact ⟨true :: rest,by simp [length],by simp,here⟩
    · intro found
      rcases found with ⟨rest,length,rfl,here⟩
      cases rest with
      | nil => cases length
      | cons bit rest =>
        have shorter : rest.length = height := by simpa using length
        cases bit with
        | false => exact .inl ⟨rest,shorter,by simp,here⟩
        | true => exact .inr ⟨rest,shorter,by simp,here⟩

theorem entries_eq_fold : entries leaves height path =
    fold (fun path value => value.toList.map fun found => (path, found)) List.append leaves height path := by
  induction height generalizing path with
  | zero => rw [entries,fold]
  | succ height ih =>
    rw [entries,fold,ih,ih]
    rfl

theorem append_lt (ordered : left < right) : path ++ left < path ++ right := by
  induction path with
  | nil => exact ordered
  | cons bit path ih => exact List.Lex.cons ih

theorem entries_sorted {height : Nat} {path : List Bool} :
    (entries leaves height path).Pairwise fun left right => left.1 < right.1 := by
  induction height generalizing path with
  | zero =>
    rw [entries]
    cases leaves path <;> simp
  | succ height ih =>
    rw [entries,List.pairwise_append]
    refine ⟨ih,ih,?_⟩
    intro left lower right upper
    obtain ⟨first,-,low,-⟩ := mem_entries.mp lower
    obtain ⟨second,-,high,-⟩ := mem_entries.mp upper
    rw [low,high,List.append_assoc,List.append_assoc]
    exact append_lt (List.Lex.rel (by decide))

def before (leaves : Leaves α) : List Bool → List Bool → List (List Bool × α)
  | _, [] => []
  | path, false :: rest => before leaves (path ++ [false]) rest
  | path, true :: rest => entries leaves rest.length (path ++ [false]) ++
      before leaves (path ++ [true]) rest

def after (leaves : Leaves α) : List Bool → List Bool → List (List Bool × α)
  | _, [] => []
  | path, false :: rest => after leaves (path ++ [false]) rest ++
      entries leaves rest.length (path ++ [true])
  | path, true :: rest => after leaves (path ++ [true]) rest

theorem entries_around {path rest : List Bool} :
    entries leaves rest.length path = before leaves path rest ++ ((leaves (path ++ rest)).toList.map fun value => (path ++ rest, value)) ++
      after leaves path rest := by
  induction rest generalizing path with
  | nil => simp [entries,before,after]
  | cons bit rest ih =>
    have deeper := @ih (path ++ [bit])
    simp only [← List.append_cons] at deeper
    cases bit with
    | false => simp only [List.length_cons,entries,deeper,before,after,List.append_assoc]
    | true => simp only [List.length_cons,entries,deeper,before,after,List.append_assoc]

theorem before_lt : ∀ entry ∈ before leaves path rest, entry.1 < path ++ rest := by
  induction rest generalizing path with
  | nil => intro entry member; cases member
  | cons bit rest ih =>
    have deeper := @ih (path ++ [bit])
    rw [← List.append_cons] at deeper
    cases bit with
    | false => exact deeper
    | true =>
      intro entry member
      rcases List.mem_append.mp member with lower | nearer
      · obtain ⟨other,-,low,-⟩ := mem_entries.mp lower
        rw [low,List.append_assoc]
        exact append_lt (List.Lex.rel (by decide))
      · exact deeper entry nearer

theorem lt_after : ∀ entry ∈ after leaves path rest, path ++ rest < entry.1 := by
  induction rest generalizing path with
  | nil => intro entry member; cases member
  | cons bit rest ih =>
    have deeper := @ih (path ++ [bit])
    rw [← List.append_cons] at deeper
    cases bit with
    | true => exact deeper
    | false =>
      intro entry member
      rcases List.mem_append.mp member with nearer | upper
      · exact deeper entry nearer
      · obtain ⟨other,-,high,-⟩ := mem_entries.mp upper
        rw [high,List.append_assoc]
        exact append_lt (List.Lex.rel (by decide))

theorem entries_place (sized : key.length = height) (found : (entries leaves height [])[index]? = some (key, value)) :
    (before leaves [] key).length = index := by
  have here : leaves key = some value := by
    obtain ⟨rest,-,-,here⟩ := mem_entries.mp (List.mem_of_getElem? found)
    exact here
  have around := @entries_around _ leaves [] key
  rw [List.nil_append,here,sized] at around
  have placed : (entries leaves height [])[(before leaves [] key).length]? = some (key, value) := by
    rw [around]
    simp
  have distinct : (entries leaves height []).Nodup := by
    refine List.Pairwise.imp ?_ (@entries_sorted _ leaves height [])
    intro left right ordered same
    rw [same] at ordered
    exact List.lt_irrefl _ ordered
  obtain ⟨low,first⟩ := List.getElem?_eq_some_iff.mp placed
  obtain ⟨high,second⟩ := List.getElem?_eq_some_iff.mp found
  exact (List.Nodup.getElem_inj_iff distinct).mp (first.trans second.symm)

end Order

section Measures

variable {leaf : List Bool → Option α → β} {node : β → β → β} {leaves : Leaves α}

def total (weight : α → Nat) (leaves : Leaves α) (height : Nat) (path : List Bool) : Nat :=
  ((entries leaves height path).map fun entry => weight entry.2).sum

variable {weight : α → Nat}

theorem total_node :
    total weight leaves (height + 1) path = total weight leaves height (path ++ [false]) + total weight leaves height (path ++ [true]) := by
  rw [total,entries,List.map_append,List.sum_append]
  rfl

theorem total_write_off (off : ∀ rest : List Bool, rest.length = height → path ++ rest ≠ key) :
    total weight (write leaves key value) height path = total weight leaves height path := by
  rw [total,total,entries_eq_fold,entries_eq_fold,fold_write_off off]

theorem total_eq_sum {ι : Type} {names : Finset ι} {place : ι → List Bool} (apart : Set.InjOn place names)
    (sized : ∀ name ∈ names, (place name).length = height)
    (covered : ∀ key value, key.length = height → leaves key = some value → ∃ name ∈ names, place name = key) :
    total weight leaves height [] = ∑ name ∈ names, ((leaves (place name)).map weight).getD 0 := by
  have distinct : ((entries leaves height []).map Prod.fst).Nodup := by
    refine List.Pairwise.map Prod.fst ?_ (@entries_sorted _ leaves height [])
    intro left right ordered same
    rw [same] at ordered
    exact List.lt_irrefl _ ordered
  have weighed : total weight leaves height [] = (((entries leaves height []).map Prod.fst).map fun key =>
        ((leaves key).map weight).getD 0).sum := by
    rw [total,List.map_map]
    refine congrArg List.sum (List.map_congr_left ?_)
    intro entry member
    obtain ⟨rest,-,-,here⟩ := mem_entries.mp member
    rw [Function.comp_apply,here]
    rfl
  have inside : ((entries leaves height []).map Prod.fst).toFinset ⊆ names.image place := by
    intro key member
    obtain ⟨entry,listed,rfl⟩ := List.mem_map.mp (List.mem_toFinset.mp member)
    obtain ⟨rest,length,same,here⟩ := mem_entries.mp listed
    obtain ⟨name,known,placed⟩ := covered entry.1 entry.2 (by rw [same]; exact length) here
    exact Finset.mem_image.mpr ⟨name,known,placed⟩
  rw [weighed,← List.sum_toFinset _ distinct,Finset.sum_subset inside,Finset.sum_image apart]
  intro key member outside
  obtain ⟨name,known,rfl⟩ := Finset.mem_image.mp member
  cases here : leaves (place name) with
  | none => rfl
  | some value =>
    refine absurd (List.mem_toFinset.mpr (List.mem_map.mpr ⟨(place name, value),?_,rfl⟩)) outside
    exact mem_entries.mpr ⟨place name,sized name known,rfl,here⟩

theorem total_mono (grows : ∀ key value, leaves key = some value → ∃ heavier, others key = some heavier ∧ weight value ≤ weight heavier) :
    total weight leaves height path ≤ total weight others height path := by
  induction height generalizing path with
  | zero =>
    rw [total,total,entries,entries]
    cases here : leaves path with
    | none => simp
    | some value =>
      obtain ⟨heavier,there,less⟩ := grows path value here
      rw [there]
      simpa using less
  | succ height ih =>
    have low := @ih (path ++ [false])
    have high := @ih (path ++ [true])
    rw [total_node,total_node]
    omega

theorem total_le : total weight leaves height (path ++ more) ≤ total weight leaves (height + more.length) path := by
  induction more generalizing path with
  | nil => simp
  | cons bit more ih =>
    have below := @ih (path ++ [bit])
    rw [← List.append_cons] at below
    rw [List.length_cons,← Nat.add_assoc,total_node]
    cases bit <;> omega

def rank (size : β → Nat) : List Bool → List β → Nat
  | bit :: rest, side :: sides => (if bit then size side else 0) + rank size rest sides
  | _, _ => 0

theorem rank_siblings {size : β → Nat} {rest : List Bool} (sized : path.length + rest.length = whole)
    (measured : ∀ height below, below.length + height = whole →
      size (fold leaf node leaves height below) = (entries leaves height below).length) :
    rank size rest (siblings leaf node leaves path rest) = (before leaves path rest).length := by
  induction rest generalizing path with
  | nil => rfl
  | cons bit rest ih =>
    have resized (turn : Bool) : (path ++ [turn]).length + rest.length = whole := by
      rw [← sized,List.length_append,List.length_singleton,List.length_cons]
      omega
    cases bit with
    | false =>
      rw [siblings,rank,ih (resized false),before]
      simp
    | true =>
      have here := measured rest.length (path ++ [false]) (resized false)
      rw [siblings,rank,ih (resized true),before,List.length_append,if_pos rfl]
      exact congrArg (· + _) here

end Measures

section Soundness

variable {leaf : List Bool → Option α → β} {node : β → β → β} {leaves : Leaves α}

def joined (node : β → β → β) : List Bool → List β → β → List (β × β)
  | bit :: rest, side :: sides, below =>
    let here := climb node rest sides below
    (if bit then (side, here) else (here, side)) :: joined node rest sides below
  | _, _, _ => []

theorem joined_siblings {path rest : List Bool} :
    ∀ pair ∈ joined node rest (siblings leaf node leaves path rest) (leaf (path ++ rest) (leaves (path ++ rest))),
      ∃ height below, below.length + (height + 1) = path.length + rest.length ∧
        pair = (fold leaf node leaves height (below ++ [false]), fold leaf node leaves height (below ++ [true])) := by
  induction rest generalizing path with
  | nil => intro pair member; cases member
  | cons bit rest ih =>
    have deeper := @ih (path ++ [bit])
    rw [← List.append_cons] at deeper
    have climbed := @climb_siblings _ _ leaf node leaves (path ++ [bit]) rest
    rw [← List.append_cons] at climbed
    intro pair member
    rw [siblings,joined,climbed] at member
    rcases List.mem_cons.mp member with here | later
    · refine ⟨rest.length,path,rfl,?_⟩
      rw [here]
      cases bit <;> rfl
    · obtain ⟨height,below,length,same⟩ := deeper pair later
      refine ⟨height,below,?_,same⟩
      rw [length,List.length_append,List.length_singleton,List.length_cons]
      omega

-- Where a join tells its pair from the tree's, a way up that ends at the tree's summary started
-- from the tree's leaf and went past the tree's siblings.
theorem climb_sound {path rest : List Bool} {sides : List β} (sized : path.length + rest.length = whole)
    (length : sides.length = rest.length) (apart : ∀ pair ∈ joined node rest sides below, ∀ height path,
      path.length + (height + 1) = whole →
      node pair.1 pair.2 = fold leaf node leaves (height + 1) path → pair.1 = fold leaf node leaves height (path ++ [false]) ∧
          pair.2 = fold leaf node leaves height (path ++ [true]))
    (same : climb node rest sides below = fold leaf node leaves rest.length path) :
    sides = siblings leaf node leaves path rest ∧ below = leaf (path ++ rest) (leaves (path ++ rest)) := by
  induction rest generalizing path sides with
  | nil =>
    rw [List.length_eq_zero_iff.mp length] at same ⊢
    rw [List.length_nil,fold] at same
    rw [List.append_nil]
    exact ⟨rfl,same⟩
  | cons bit rest ih =>
    cases sides with
    | nil => cases length
    | cons side sides =>
      have shorter : sides.length = rest.length := by simpa using length
      have here := apart _ (List.mem_cons_self) rest.length path sized
      have deeper : climb node rest sides below = fold leaf node leaves rest.length (path ++ [bit]) ∧
          side = fold leaf node leaves rest.length (path ++ [!bit]) := by
        cases bit with
        | false =>
          obtain ⟨first,second⟩ := here same
          exact ⟨first,second⟩
        | true =>
          obtain ⟨first,second⟩ := here same
          exact ⟨second,first⟩
      have resized : (path ++ [bit]).length + rest.length = whole := by
        rw [← sized,List.length_append,List.length_singleton,List.length_cons]
        omega
      obtain ⟨sides,below⟩ := ih resized shorter (fun pair member => apart pair (List.mem_cons_of_mem _ member)) deeper.1
      rw [← List.append_cons] at below
      exact ⟨by rw [siblings,deeper.2,sides],below⟩

end Soundness

end Trie
