import Hellas.Lib.Guard
import Mathlib.Data.List.Nodup

-- Entries that stand alone or under another entry, and the chain from an entry up to the one that
-- stands alone.

namespace Lineage

variable {κ : Type}

-- What is above an entry: nothing known of it, nothing above it, or its parent.
abbrev Above (κ : Type) := κ → Option (Option κ)

inductive Chain (above : Above κ) : κ → List κ → Prop where
  | alone {id : κ} : above id = some none → Chain above id [id]
  | under {id parent : κ} {rest : List κ} :
      above id = some (some parent) → Chain above parent rest → Chain above id (id :: rest)

namespace Chain

variable {above : Above κ} {id : κ} {members : List κ}

theorem head (chain : Chain above id members) : ∃ rest, members = id :: rest := by
  cases chain with
  | alone _ => exact ⟨[],rfl⟩
  | under _ _ => exact ⟨_,rfl⟩

theorem self_mem (chain : Chain above id members) : id ∈ members := by
  obtain ⟨rest,same⟩ := chain.head
  rw [same]
  exact List.mem_cons_self

theorem unique (chain : Chain above id members) (again : Chain above id others) : members = others := by
  induction chain generalizing others with
  | alone stands =>
    cases again with
    | alone _ => rfl
    | under placed _ => cases stands.symm.trans placed
  | under placed _ ih =>
    cases again with
    | alone stands => cases placed.symm.trans stands
    | under placedToo above =>
      cases placed.symm.trans placedToo
      rw [ih above]

theorem member (chain : Chain above id members) (inside : key ∈ members) :
    ∃ tail, Chain above key tail ∧ tail <:+ members := by
  induction chain with
  | alone stands =>
    rw [List.mem_singleton.mp inside]
    exact ⟨_,.alone stands,List.suffix_rfl⟩
  | under placed up ih =>
    rcases List.mem_cons.mp inside with same | later
    · rw [same]
      exact ⟨_,.under placed up,List.suffix_rfl⟩
    · obtain ⟨tail,found,ends⟩ := ih later
      exact ⟨tail,found,ends.trans (List.suffix_cons _ _)⟩

theorem known (chain : Chain above id members) (inside : key ∈ members) : above key ≠ none := by
  obtain ⟨tail,found,-⟩ := chain.member inside
  cases found with
  | alone stands => simp [stands]
  | under placed _ => simp [placed]

theorem nodup (chain : Chain above id members) : members.Nodup := by
  induction chain with
  | alone _ => exact List.nodup_singleton _
  | under placed up ih =>
    refine List.nodup_cons.mpr ⟨?_,ih⟩
    intro inside
    obtain ⟨tail,found,ends⟩ := up.member inside
    have same := found.unique (.under placed up)
    have long := ends.length_le
    rw [same,List.length_cons] at long
    omega

theorem congr (chain : Chain above id members) (same : ∀ key ∈ members, other key = above key) : Chain other id members := by
  induction chain with
  | alone stands => exact .alone ((same _ List.mem_cons_self).trans stands)
  | under placed _ ih =>
    exact .under ((same _ List.mem_cons_self).trans placed) (ih fun key inside => same key (List.mem_cons_of_mem _ inside))

theorem count_under [DecidableEq κ] (chain : Chain above id members) :
    (members.countP fun key => above key = some (some parent)) = if parent ∈ members.tail then 1 else 0 := by
  induction chain with
  | alone stands => simp [stands]
  | @under id next rest placed up ih =>
    obtain ⟨later,rfl⟩ := up.head
    have fresh := (List.nodup_cons.mp up.nodup).1
    rw [List.countP_cons,ih,placed]
    simp only [List.tail_cons,Option.some.injEq,decide_eq_true_eq,List.mem_cons]
    by_cases same : next = parent
    · subst same
      simp [fresh]
    · by_cases inside : parent ∈ later <;> simp [same,Ne.symm same,inside]

theorem climb (relates : κ → κ → Prop) (chain : Chain above id members) (same : ∀ key ∈ members, relates key key)
    (through : ∀ {low middle high}, relates low middle → relates middle high → relates low high)
    (each : ∀ key ∈ members, ∀ parent, above key = some (some parent) → relates key parent) :
    ∀ key ∈ members, relates id key := by
  induction chain with
  | alone _ =>
    intro key inside
    rw [List.mem_singleton.mp inside]
    exact same _ List.mem_cons_self
  | under placed _ ih =>
    intro key inside
    rcases List.mem_cons.mp inside with here | later
    · rw [here]
      exact same _ List.mem_cons_self
    · exact through (each _ List.mem_cons_self _ placed)
        (ih (fun lower listed => same lower (List.mem_cons_of_mem _ listed))
          (fun lower listed => each lower (List.mem_cons_of_mem _ listed)) key later)

end Chain

-- The bounded walk up such a chain, which refuses to meet an entry twice.
section Walk

open Guard

variable {ε : Type} [DecidableEq κ] {up : κ → Except ε (Option κ)} {looped : ε} {id : κ}
  {members : List κ}

def walk (up : κ → Except ε (Option κ)) (looped : ε) : Nat → List κ → κ → Except ε (List κ)
  | 0, _, _ => .error looped
  | room + 1, seen, id => do
    rejectIf (id ∈ seen) looped
    let upper ← up id
    match upper with
    | none => pure [id]
    | some parent => do
      let rest ← walk up looped room (id :: seen) parent
      pure (id :: rest)

def aboveOf (up : κ → Except ε (Option κ)) : Above κ := fun id => (up id).toOption

omit [DecidableEq κ] in
theorem aboveOf_some : aboveOf up id = some upper ↔ up id = .ok upper := by
  unfold aboveOf
  cases up id <;> simp [Except.toOption]

theorem walk_chain (walked : walk up looped room seen id = .ok members) :
    Chain (aboveOf up) id members ∧ members.length ≤ room := by
  induction room generalizing id seen members with
  | zero => cases walked
  | succ room ih =>
    simp only [walk,bind_ok,rejectIf_ok] at walked
    obtain ⟨_,-,upper,found,rest⟩ := walked
    cases upper with
    | none =>
      obtain rfl := pure_ok.mp rest
      exact ⟨.alone (aboveOf_some.mpr found),by simp⟩
    | some parent =>
      obtain ⟨higher,walked,same⟩ := bind_ok.mp rest
      obtain rfl := pure_ok.mp same
      obtain ⟨chain,short⟩ := ih walked
      exact ⟨.under (aboveOf_some.mpr found) chain,by simpa using short⟩

theorem Chain.walk (chain : Chain (aboveOf up) id members) :
    ∀ {room : Nat} {seen : List κ}, members.length ≤ room → (∀ key ∈ members, key ∉ seen) → walk up looped room seen id = .ok members := by
  induction chain with
  | alone stands =>
    intro room seen short apart
    obtain ⟨room,rfl⟩ := Nat.exists_eq_succ_of_ne_zero (Nat.ne_of_gt short)
    simp only [Lineage.walk,bind_ok,rejectIf_ok]
    exact ⟨(),apart _ List.mem_cons_self,none,aboveOf_some.mp stands,rfl⟩
  | under placed higher ih =>
    intro room seen short apart
    obtain ⟨room,rfl⟩ := Nat.exists_eq_succ_of_ne_zero (Nat.ne_of_gt (Nat.lt_of_lt_of_le (Nat.succ_pos _) short))
    simp only [Lineage.walk,bind_ok,rejectIf_ok]
    refine ⟨(),apart _ List.mem_cons_self,some _,aboveOf_some.mp placed,?_⟩
    have distinct := (Chain.under placed higher).nodup
    have later := @ih room (_ :: seen) (by simpa using short) (by
      intro key inside listed
      rcases List.mem_cons.mp listed with same | earlier
      · rw [same] at inside
        exact (List.nodup_cons.mp distinct).1 inside
      · exact apart key (List.mem_cons_of_mem _ inside) earlier)
    exact bind_ok.mpr ⟨_,later,rfl⟩

theorem walk_ok : walk up looped room [] id = .ok members ↔ Chain (aboveOf up) id members ∧ members.length ≤ room :=
  ⟨walk_chain,fun found => found.1.walk found.2 (by simp)⟩

end Walk

end Lineage
