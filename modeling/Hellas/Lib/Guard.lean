import Mathlib.Tactic.Common

-- Fallible code as a chain of guards: what an accepted run must have passed, and which errors a
-- run can end in.

namespace Guard

def rejectIf (refused : Prop) [Decidable refused] (error : ε) : Except ε Unit :=
  if refused then .error error else .ok ()

def refuse : Option ε → Except ε Unit
  | some error => .error error
  | none => .ok ()

def okOr (value : Option α) (error : ε) : Except ε α :=
  match value with
  | some item => .ok item
  | none => .error error

variable {run : Except ε α} {next : α → Except ε β} {items : List α}

@[simp] theorem bind_ok : (run >>= next) = .ok result ↔ ∃ value, run = .ok value ∧ next value = .ok result := by
  cases run with
  | error failed => simp [bind,Except.bind]
  | ok value => simp [bind,Except.bind]

theorem bind_error {failure : ε} :
    (run >>= next) = .error failure ↔ run = .error failure ∨ ∃ value, run = .ok value ∧ next value = .error failure := by
  cases run with
  | error failed => simp [bind,Except.bind]
  | ok value => simp [bind,Except.bind]

@[simp] theorem pure_ok : (pure value : Except ε α) = .ok result ↔ value = result := by
  simp [pure,Except.pure]

@[simp] theorem rejectIf_ok [Decidable refused] : rejectIf refused error = .ok done ↔ ¬refused := by
  unfold rejectIf
  split <;> simp [*]

@[simp] theorem refuse_ok : refuse error = .ok done ↔ error = none := by
  cases error <;> simp [refuse]

@[simp] theorem okOr_ok : okOr value error = .ok item ↔ value = some item := by
  cases value <;> simp [okOr]

@[simp] theorem mapError_ok {wrap : ε → δ} : run.mapError wrap = .ok value ↔ run = .ok value := by
  cases run <;> simp [Except.mapError]

@[simp] theorem map_ok {f : α → β} : (f <$> run) = .ok result ↔ ∃ value, run = .ok value ∧ f value = result := by
  cases run <;> simp [Functor.map,Except.map]

@[simp] theorem forM_ok {check : α → Except ε Unit} :
    items.forM check = .ok done ↔ ∀ item ∈ items, check item = .ok () := by
  induction items with
  | nil => simp [List.forM]
  | cons head tail ih =>
    change (check head >>= fun _ => tail.forM check) = _ ↔ _
    rw [bind_ok,List.forall_mem_cons,← ih]
    constructor
    · intro passed
      obtain ⟨_,first,rest⟩ := passed
      exact ⟨first,rest⟩
    · intro both
      exact ⟨(),both.1,both.2⟩

theorem mapM_ok_mem {f : α → Except ε β} (mapped : items.mapM f = .ok results) (listed : result ∈ results) :
    ∃ item ∈ items, f item = .ok result := by
  induction items generalizing results with
  | nil =>
    rw [List.mapM_nil,pure_ok] at mapped
    subst mapped
    cases listed
  | cons item items ih =>
    simp only [List.mapM_cons,bind_ok,pure_ok] at mapped
    obtain ⟨first,made,rest,mapped,rfl⟩ := mapped
    rcases List.mem_cons.mp listed with rfl | later
    · exact ⟨item,List.mem_cons_self,made⟩
    · obtain ⟨other,member,made⟩ := ih mapped later
      exact ⟨other,List.mem_cons_of_mem _ member,made⟩

theorem mapM_ok_length {f : α → Except ε β} (mapped : items.mapM f = .ok results) : results.length = items.length := by
  induction items generalizing results with
  | nil =>
    rw [List.mapM_nil,pure_ok] at mapped
    rw [← mapped]
    rfl
  | cons item items ih =>
    simp only [List.mapM_cons,bind_ok,pure_ok] at mapped
    obtain ⟨first,-,rest,mapped,rfl⟩ := mapped
    rw [List.length_cons,List.length_cons,ih mapped]

-- What every step keeps, a fold that succeeds has kept.
theorem foldlM_keeps {step : σ → α → Except ε σ} (Fits : α → Prop) (Holds : σ → Prop)
    (kept : ∀ state item next, Fits item → step state item = .ok next → Holds state → Holds next)
    (fits : ∀ item ∈ items, Fits item) (holds : Holds start) (ran : items.foldlM step start = .ok final) : Holds final := by
  induction items generalizing start with
  | nil => exact pure_ok.mp ran ▸ holds
  | cons head tail ih =>
    rw [List.forall_mem_cons] at fits
    rw [List.foldlM_cons,bind_ok] at ran
    obtain ⟨middle,first,rest⟩ := ran
    exact ih fits.2 (kept start head middle fits.1 first holds) rest

-- A run never ends in an error of the named kind. The simp set walks a chain of guards and leaves
-- those whose own error is of that kind.
def Avoids (bad : ε → Prop) (run : Except ε α) : Prop := ∀ error, run = .error error → ¬bad error

section Avoids

variable {bad : ε → Prop}

@[simp] theorem avoids_ok : Avoids bad (.ok value) := by
  intro error failed
  cases failed

@[simp] theorem avoids_nothing : Avoids (fun _ => False) run := fun _ _ impossible => impossible

@[simp] theorem avoids_pure : Avoids bad (pure value) := avoids_ok

@[simp] theorem avoids_error : Avoids bad (.error error : Except ε α) ↔ ¬bad error := by
  simp [Avoids]

@[simp] theorem avoids_bind {next : α → Except ε β} :
    Avoids bad (run >>= next) ↔ Avoids bad run ∧ ∀ value, run = .ok value → Avoids bad (next value) := by
  cases run with
  | error failed => simp [bind,Except.bind]
  | ok value => simp [bind,Except.bind]

@[simp] theorem avoids_map {f : α → β} : Avoids bad (f <$> run) ↔ Avoids bad run := by
  cases run <;> simp [Functor.map,Except.map]

@[simp] theorem avoids_rejectIf [Decidable refused] : Avoids bad (rejectIf refused error) ↔ (refused → ¬bad error) := by
  unfold rejectIf
  split <;> simp [*]

@[simp] theorem avoids_refuse : Avoids bad (refuse error) ↔ ∀ failure, error = some failure → ¬bad failure := by
  cases error <;> simp [refuse]

@[simp] theorem avoids_okOr : Avoids bad (okOr value error) ↔ (value = none → ¬bad error) := by
  cases value <;> simp [okOr]

@[simp] theorem avoids_mapError {bad : δ → Prop} {wrap : ε → δ} :
    Avoids bad (run.mapError wrap) ↔ Avoids (fun error => bad (wrap error)) run := by
  cases run <;> simp [Except.mapError]

theorem avoids_foldlM {step : σ → α → Except ε σ} (each : ∀ state item, Avoids bad (step state item)) :
    Avoids bad (items.foldlM step start) := by
  induction items generalizing start with
  | nil => exact avoids_pure
  | cons head tail ih =>
    rw [List.foldlM_cons,avoids_bind]
    exact ⟨each start head,fun middle _ => ih⟩

end Avoids

end Guard
