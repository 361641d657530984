import Mathlib.Data.List.Count
import Mathlib.Data.List.Nodup

-- Keyed resources that are created and consumed, with the log of both. A key may recur, but only
-- while everything ever created under it is worthless.

structure OneUse {κ ν : Type} [DecidableEq κ] (worth : ν → Nat) (live : κ → Option ν)
    (created : List (κ × ν)) (consumed : List κ) : Prop where
  balance : ∀ key, (created.map Prod.fst).count key = consumed.count key + (live key).toList.length
  logged : ∀ key value, live key = some value → (key, value) ∈ created
  once : ∀ key value, (key, value) ∈ created → 0 < worth value →
    (created.map Prod.fst).count key = 1

namespace OneUse

variable {κ ν : Type} [DecidableEq κ] {worth : ν → Nat} {live after : κ → Option ν}

theorem consumed_le (sound : OneUse worth live created consumed) (made : (key, value) ∈ created)
    (valuable : 0 < worth value) : consumed.count key ≤ 1 := by
  have balanced := sound.balance key
  rw [sound.once key value made valuable] at balanced
  omega

-- A key that is live again after being consumed never named anything of worth.
theorem reused (sound : OneUse worth live created consumed) (spent : key ∈ consumed)
    (held : live key = some current) (made : (key, value) ∈ created) :
    worth value = 0 := by
  apply Nat.eq_zero_of_not_pos
  intro valuable
  have balanced := sound.balance key
  have twice := List.count_pos_iff.mpr spent
  rw [sound.once key value made valuable,held] at balanced
  simp only [Option.toList_some,List.length_singleton] at balanced
  omega

theorem unique (sound : OneUse worth live created consumed) (made : (key, value) ∈ created)
    (valuable : 0 < worth value) (again : (key, other) ∈ created) : other = value := by
  have single := sound.once key value made valuable
  rw [List.count,List.countP_map,List.countP_eq_length_filter,List.length_eq_one_iff] at single
  obtain ⟨entry,only⟩ := single
  have listed : ∀ found, (key, found) ∈ created → (key, found) = entry := by
    intro found member
    rw [← List.mem_singleton,← only,List.mem_filter]
    exact ⟨member,beq_self_eq_true key⟩
  exact (Prod.mk.inj ((listed other again).trans (listed value made).symm)).2

theorem consume (sound : OneUse worth live created consumed) (distinct : removed.Nodup)
    (present : ∀ key ∈ removed, live key ≠ none) (cleared : ∀ key, after key = if key ∈ removed then none else live key) :
    OneUse worth after created (consumed ++ removed) where
  balance key := by
    have balanced := sound.balance key
    rw [List.count_append,cleared]
    split
    · rename_i member
      obtain ⟨value,held⟩ := Option.ne_none_iff_exists'.mp (present key member)
      rw [held] at balanced
      rw [List.count_eq_one_of_mem distinct member]
      simpa using balanced
    · rename_i absent
      rw [List.count_eq_zero_of_not_mem absent]
      exact balanced
  logged key value held := by
    rw [cleared] at held
    split at held
    · cases held
    · exact sound.logged key value held
  once := sound.once

theorem create (sound : OneUse worth live created consumed) (distinct : (added.map Prod.fst).Nodup)
    (free : ∀ entry ∈ added, live entry.1 = none)
    (recurs : ∀ entry ∈ added, ∀ old, (entry.1, old) ∈ created → worth entry.2 = 0 ∧ worth old = 0)
    (inserted : ∀ entry ∈ added, after entry.1 = some entry.2)
    (kept : ∀ key, key ∉ added.map Prod.fst → after key = live key) :
    OneUse worth after (created ++ added) consumed where
  balance key := by
    have balanced := sound.balance key
    rw [List.map_append,List.count_append]
    by_cases member : key ∈ added.map Prod.fst
    · obtain ⟨entry,found,same⟩ := List.mem_map.mp member
      rw [List.count_eq_one_of_mem distinct member]
      subst same
      rw [free entry found] at balanced
      rw [inserted entry found]
      simpa using balanced
    · rw [List.count_eq_zero_of_not_mem member,kept key member]
      exact balanced
  logged key value held := by
    by_cases member : key ∈ added.map Prod.fst
    · obtain ⟨entry,found,same⟩ := List.mem_map.mp member
      subst same
      rw [inserted entry found] at held
      cases held
      exact List.mem_append_right _ found
    · rw [kept key member] at held
      exact List.mem_append_left _ (sound.logged key value held)
  once key value made valuable := by
    rw [List.map_append,List.count_append]
    rcases List.mem_append.mp made with old | new
    · have absent : key ∉ added.map Prod.fst := by
        intro member
        obtain ⟨entry,found,same⟩ := List.mem_map.mp member
        subst same
        have worthless := (recurs entry found value old).2
        omega
      rw [sound.once key value old valuable,List.count_eq_zero_of_not_mem absent]
    · have absent : key ∉ created.map Prod.fst := by
        intro member
        obtain ⟨entry,found,same⟩ := List.mem_map.mp member
        subst same
        have worthless : worth value = 0 := (recurs _ new entry.2 found).1
        omega
      rw [List.count_eq_zero_of_not_mem absent,List.count_eq_one_of_mem distinct (List.mem_map_of_mem new)]

theorem initial (distinct : (created.map Prod.fst).Nodup) (present : ∀ entry ∈ created, live entry.1 = some entry.2)
    (only : ∀ key, key ∉ created.map Prod.fst → live key = none) :
    OneUse worth live created [] where
  balance key := by
    by_cases member : key ∈ created.map Prod.fst
    · rw [List.count_eq_one_of_mem distinct member]
      obtain ⟨entry,found,same⟩ := List.mem_map.mp member
      subst same
      rw [present entry found]
      rfl
    · rw [List.count_eq_zero_of_not_mem member,only key member]
      rfl
  logged key value held := by
    by_cases member : key ∈ created.map Prod.fst
    · obtain ⟨entry,found,same⟩ := List.mem_map.mp member
      subst same
      rw [present entry found] at held
      cases held
      exact found
    · rw [only key member] at held
      cases held
  once key value made _ := List.count_eq_one_of_mem distinct (List.mem_map_of_mem made)

end OneUse
