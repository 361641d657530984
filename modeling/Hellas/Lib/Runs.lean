import Mathlib.Data.List.Induction

-- Runs of a fallible step. A rejected input leaves the state; an accepted one is a transition, and
-- the trace of a run is the list of its transitions.

namespace Runs

structure Transition (σ ι : Type) where
  before : σ
  input : ι
  after : σ

variable {σ ι : Type} {step : σ → ι → Option σ} {start : σ}

def advance (step : σ → ι → Option σ) (state : σ) (input : ι) : σ := (step state input).getD state

def run (step : σ → ι → Option σ) (start : σ) (inputs : List ι) : σ := inputs.foldl (advance step) start

def took (step : σ → ι → Option σ) (state : σ) (input : ι) : List (Transition σ ι) :=
  match step state input with
  | some after => [⟨state,input,after⟩]
  | none => []

def trace (step : σ → ι → Option σ) : σ → List ι → List (Transition σ ι)
  | _, [] => []
  | state, input :: rest => took step state input ++ trace step (advance step state input) rest

@[simp] theorem run_nil : run step start [] = start := rfl

@[simp] theorem run_snoc : run step start (inputs ++ [input]) = advance step (run step start inputs) input := by
  simp [run]

@[simp] theorem trace_nil : trace step start [] = [] := rfl

theorem run_append : run step start (left ++ right) = run step (run step start left) right := by
  simp [run]

theorem trace_append :
    trace step start (left ++ right) = trace step start left ++ trace step (run step start left) right := by
  induction left generalizing start with
  | nil => rfl
  | cons input left ih =>
    rw [List.cons_append,trace,ih,trace,List.append_assoc]
    rfl

@[simp] theorem trace_snoc :
    trace step start (inputs ++ [input]) = trace step start inputs ++ took step (run step start inputs) input := by
  rw [trace_append]
  simp [trace]

theorem trace_grows (within : left <+: right) : trace step start left <+: trace step start right := by
  obtain ⟨rest,same⟩ := within
  rw [← same,trace_append]
  exact List.prefix_append _ _

theorem filterMap_snoc {β : Type} {pick : Transition σ ι → Option β} :
    (past ++ [last]).filterMap pick = past.filterMap pick ++ (pick last).toList := by
  rw [List.filterMap_append,List.filterMap_cons,List.filterMap_nil]
  cases pick last <;> rfl

-- The induction every statement about whole runs goes through: what holds of the empty history and
-- is carried by one accepted input holds of the whole history and the state it ends in.
theorem run_history (Fits : ι → Prop) {motive : List (Transition σ ι) → σ → Prop} (initial : motive [] start)
    (carried : ∀ past before input after, Fits input → step before input = some after →
      motive past before → motive (past ++ [⟨before,input,after⟩]) after) (inputs : List ι)
    (fits : ∀ input ∈ inputs, Fits input) :
    motive (trace step start inputs) (run step start inputs) := by
  induction inputs using List.reverseRecOn with
  | nil => exact initial
  | append_singleton inputs input ih =>
    rw [List.forall_mem_append,List.forall_mem_singleton] at fits
    rw [trace_snoc,run_snoc]
    unfold took advance
    split
    · rename_i after stepped
      rw [stepped]
      exact carried _ _ _ _ fits.2 stepped (ih fits.1)
    · rename_i stuck
      rw [stuck,List.append_nil]
      exact ih fits.1

theorem run_invariant (Fits : ι → Prop) (Holds : σ → Prop) (initial : Holds start)
    (preserved : ∀ before input after, Fits input → step before input = some after → Holds before → Holds after)
    (inputs : List ι) (fits : ∀ input ∈ inputs, Fits input) :
    Holds (run step start inputs) :=
  run_history Fits (motive := fun _ state => Holds state) initial
    (fun _ before input after => preserved before input after) inputs fits

theorem trace_invariant (Fits : ι → Prop) (Holds : σ → Prop) (initial : Holds start)
    (preserved : ∀ before input after, Fits input → step before input = some after → Holds before → Holds after)
    (inputs : List ι) (fits : ∀ input ∈ inputs, Fits input) :
    ∀ taken ∈ trace step start inputs, Holds taken.before ∧ Fits taken.input ∧ step taken.before taken.input = some taken.after := by
  have both : (∀ taken ∈ trace step start inputs, Holds taken.before ∧ Fits taken.input ∧
      step taken.before taken.input = some taken.after) ∧ Holds (run step start inputs) := by
    refine run_history Fits (motive := fun past state => (∀ taken ∈ past, Holds taken.before ∧
      Fits taken.input ∧ step taken.before taken.input = some taken.after) ∧ Holds state)
      ⟨by simp,initial⟩ ?_ inputs fits
    rintro past before input after fit stepped ⟨earlier,holds⟩
    refine ⟨?_,preserved before input after fit stepped holds⟩
    rw [List.forall_mem_append,List.forall_mem_singleton]
    exact ⟨earlier,holds,fit,stepped⟩
  exact both.1

theorem trace_step (member : taken ∈ trace step start inputs) : step taken.before taken.input = some taken.after :=
  (trace_invariant (fun _ => True) (fun _ => True) trivial (fun _ _ _ _ _ _ => trivial) inputs
    (fun _ _ => trivial) taken member).2.2

theorem trace_reached (member : taken ∈ trace step start inputs) :
    ∃ early, early ++ [taken.input] <+: inputs ∧ run step start early = taken.before := by
  induction inputs using List.reverseRecOn with
  | nil => cases member
  | append_singleton inputs input ih =>
    rw [trace_snoc] at member
    rcases List.mem_append.mp member with earlier | last
    · obtain ⟨early,within,reached⟩ := ih earlier
      exact ⟨early,within.trans (List.prefix_append _ _),reached⟩
    · unfold took at last
      split at last
      · obtain rfl := List.mem_singleton.mp last
        exact ⟨inputs,List.prefix_rfl,rfl⟩
      · cases last

end Runs
