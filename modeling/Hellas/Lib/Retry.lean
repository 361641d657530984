import Mathlib.Data.List.Induction
import Mathlib.Tactic.Common

-- Work that commits in steps and may be stopped after any of them: when doing it again from where
-- it stopped ends as the uninterrupted run does.

namespace Retry

variable {σ ε : Type}

-- The states after each commit, in order, and what ended the run if it was not its end.
structure Ran (σ ε : Type) where
  stops : List σ
  failure : Option ε

def Ran.final (ran : Ran σ ε) (start : σ) : σ := ran.stops.getLast?.getD start

abbrev Task (σ ε : Type) := σ → Ran σ ε

def nothing : Task σ ε := fun _ => ⟨[],none⟩

def andThen (first second : Task σ ε) : Task σ ε := fun start =>
  match (first start).failure with
  | some failure => ⟨(first start).stops,some failure⟩
  | none => ⟨(first start).stops ++ (second ((first start).final start)).stops,(second ((first start).final start)).failure⟩

def all (tasks : List (Task σ ε)) : Task σ ε := tasks.foldr andThen nothing

-- Two runs that end alike, whatever they committed on the way.
def SameEnd (left : Ran σ ε) (start : σ) (right : Ran σ ε) (other : σ) : Prop :=
  left.failure = right.failure ∧ left.final start = right.final other

-- Stopped anywhere and started again, the task ends as it would have.
def Resumes (task : Task σ ε) (start : σ) : Prop := ∀ stop ∈ (task start).stops, SameEnd (task stop) stop (task start) start

def Settled (task : Task σ ε) (state : σ) : Prop := (task state).failure = none ∧ (task state).final state = state

variable {first second : Task σ ε} {start : σ}

theorem final_append {early late : List σ} {failure : Option ε} {start : σ} :
    (⟨early ++ late,failure⟩ : Ran σ ε).final start = (⟨late,failure⟩ : Ran σ ε).final ((⟨early,failure⟩ : Ran σ ε).final start) := by
  unfold Ran.final
  cases late using List.reverseRecOn with
  | nil => simp
  | append_singleton late last => simp [← List.append_assoc]

theorem andThen_failed {failure : ε} (failed : (first start).failure = some failure) :
    (andThen first second start).failure = some failure ∧ (andThen first second start).final start = (first start).final start ∧
      (andThen first second start).stops = (first start).stops := by
  unfold andThen
  rw [failed]
  exact ⟨rfl,rfl,rfl⟩

theorem andThen_passed (passed : (first start).failure = none) :
    (andThen first second start).failure = (second ((first start).final start)).failure ∧
      (andThen first second start).final start = (second ((first start).final start)).final ((first start).final start) ∧
      (andThen first second start).stops = (first start).stops ++ (second ((first start).final start)).stops := by
  have same : andThen first second start = ⟨(first start).stops ++ (second ((first start).final start)).stops,
      (second ((first start).final start)).failure⟩ := by
    unfold andThen
    rw [passed]
  rw [same]
  exact ⟨rfl,final_append,rfl⟩

theorem SameEnd.andThen {left right : σ} (same : SameEnd (first left) left (first right) right) :
    SameEnd (andThen first second left) left (andThen first second right) right := by
  cases failed : (first right).failure with
  | some failure =>
    have also := same.1.trans failed
    obtain ⟨one,ends,-⟩ := @andThen_failed _ _ first second left _ also
    obtain ⟨other,stays,-⟩ := @andThen_failed _ _ first second right _ failed
    exact ⟨one.trans other.symm,ends.trans (same.2.trans stays.symm)⟩
  | none =>
    have also := same.1.trans failed
    obtain ⟨one,ends,-⟩ := @andThen_passed _ _ first second left also
    obtain ⟨other,stays,-⟩ := @andThen_passed _ _ first second right failed
    rw [same.2] at one ends
    exact ⟨one.trans other.symm,ends.trans stays.symm⟩

theorem andThen_settled {state : σ} (settled : Settled first state) :
    SameEnd (andThen first second state) state (second state) state := by
  obtain ⟨failure,ends,-⟩ := @andThen_passed _ _ first second state settled.1
  rw [settled.2] at failure ends
  exact ⟨failure,ends⟩

theorem andThen_assoc : andThen (andThen first second) third = andThen first (andThen second third) := by
  funext start
  cases failed : (first start).failure with
  | some failure => simp only [andThen,failed]
  | none =>
    cases failed' : (second ((first start).final start)).failure with
    | some failure => simp only [andThen,failed,failed']
    | none =>
      have ends : (⟨(first start).stops ++ (second ((first start).final start)).stops,none⟩ :
          Ran σ ε).final start =
          (second ((first start).final start)).final ((first start).final start) := final_append
      simp only [andThen,failed,failed',ends,List.append_assoc]

theorem resumes_andThen (resumes : Resumes first start) (later : (first start).failure = none → Resumes second ((first start).final start) ∧
      ∀ stop ∈ (second ((first start).final start)).stops, Settled first stop) :
    Resumes (andThen first second) start := by
  intro stop listed
  cases failed : (first start).failure with
  | some failure =>
    obtain ⟨-,-,stops⟩ := @andThen_failed _ _ first second start _ failed
    rw [stops] at listed
    exact (resumes stop listed).andThen
  | none =>
    obtain ⟨failure,ends,stops⟩ := @andThen_passed _ _ first second start failed
    rw [stops] at listed
    rcases List.mem_append.mp listed with early | late
    · exact (resumes stop early).andThen
    · obtain ⟨again,settled⟩ := later failed
      obtain ⟨failure',ends'⟩ := @andThen_settled _ _ first second stop (settled stop late)
      obtain ⟨failure'',ends''⟩ := again stop late
      exact ⟨failure'.trans (failure''.trans failure.symm),ends'.trans (ends''.trans ends.symm)⟩

-- Every commit leads to a good state that is later than where the task began.
def Advances (Good : σ → Prop) (Later : σ → σ → Prop) (task : Task σ ε) : Prop :=
  ∀ start, Good start → ∀ stop ∈ (task start).stops, Good stop ∧ Later start stop

section Advances

variable {Good : σ → Prop} {Later : σ → σ → Prop}

theorem advances_nothing : Advances Good Later (nothing : Task σ ε) := by
  intro start good stop listed
  cases listed

theorem Advances.final (advances : Advances Good Later task) (refl : ∀ state, Later state state) (good : Good start) :
    Good ((task start).final start) ∧ Later start ((task start).final start) := by
  unfold Ran.final
  cases last : (task start).stops.getLast? with
  | none => exact ⟨good,refl start⟩
  | some stop => exact advances start good stop (List.mem_of_getLast? last)

theorem Advances.andThen (refl : ∀ state, Later state state) (trans : ∀ one two three, Later one two → Later two three → Later one three)
    (one : Advances Good Later first) (other : Advances Good Later second) :
    Advances Good Later (andThen first second) := by
  intro start good stop listed
  cases failed : (first start).failure with
  | some failure =>
    rw [(andThen_failed failed).2.2] at listed
    exact one start good stop listed
  | none =>
    rw [(andThen_passed failed).2.2] at listed
    rcases List.mem_append.mp listed with early | late
    · exact one start good stop early
    · obtain ⟨kept,reached⟩ := one.final refl good
      obtain ⟨kept',reached'⟩ := other _ kept stop late
      exact ⟨kept',trans _ _ _ reached reached'⟩

end Advances

-- A task that commits one step and goes on as it would from there, with less left to do each time.
structure Unrolls (task : Task σ ε) (Good : σ → Prop) (Later : σ → σ → Prop) (Done : σ → Prop)
    (left : σ → Nat) : Prop where
  refl : ∀ state, Later state state
  trans : ∀ one two three, Later one two → Later two three → Later one three
  step : ∀ state, Good state → (Done state ∧ task state = ⟨[],none⟩) ∨
    (∃ failure, task state = ⟨[],some failure⟩) ∨
    ∃ next, Good next ∧ Later state next ∧ left next < left state ∧
      task state = ⟨next :: (task next).stops,(task next).failure⟩

namespace Unrolls

variable {Good : σ → Prop} {Later : σ → σ → Prop} {Done : σ → Prop} {left : σ → Nat}

theorem final_cons {next state : σ} {failure : Option ε} {stops : List σ} :
    (⟨next :: stops,failure⟩ : Ran σ ε).final state = (⟨stops,failure⟩ : Ran σ ε).final next := by
  unfold Ran.final
  rw [List.getLast?_cons,Option.getD_some]

theorem advances (unrolls : Unrolls task Good Later Done left) : Advances Good Later task := by
  intro start
  induction start using (measure left).wf.induction with
  | h start ih =>
    intro good stop listed
    rcases unrolls.step start good with ⟨-,ran⟩ | ⟨failure,ran⟩ | ⟨next,kept,later,less,ran⟩
    · rw [ran] at listed
      cases listed
    · rw [ran] at listed
      cases listed
    · rw [ran] at listed
      rcases List.mem_cons.mp listed with rfl | further
      · exact ⟨kept,later⟩
      · obtain ⟨good',later'⟩ := ih next less kept stop further
        exact ⟨good',unrolls.trans _ _ _ later later'⟩

theorem finishes (unrolls : Unrolls task Good Later Done left) {start : σ} (good : Good start)
    (passed : (task start).failure = none) : Done ((task start).final start) := by
  induction start using (measure left).wf.induction with
  | h start ih =>
    rcases unrolls.step start good with ⟨done,ran⟩ | ⟨failure,ran⟩ | ⟨next,kept,-,less,ran⟩
    · rw [ran]
      exact done
    · rw [ran] at passed
      cases passed
    · rw [ran] at passed
      rw [ran,final_cons]
      exact ih next less kept passed

theorem resumes (unrolls : Unrolls task Good Later Done left) {start : σ} (good : Good start) : Resumes task start := by
  induction start using (measure left).wf.induction with
  | h start ih =>
    intro stop listed
    rcases unrolls.step start good with ⟨-,ran⟩ | ⟨failure,ran⟩ | ⟨next,kept,-,less,ran⟩
    · rw [ran] at listed
      cases listed
    · rw [ran] at listed
      cases listed
    · have further : SameEnd (task next) next (task start) start := by
        rw [ran]
        exact ⟨rfl,final_cons.symm⟩
      rw [ran] at listed
      rcases List.mem_cons.mp listed with rfl | below
      · exact further
      · obtain ⟨failure,ends⟩ := ih next less kept stop below
        exact ⟨failure.trans further.1,ends.trans further.2⟩

end Unrolls

-- A family of duties over states that only go forward: what is done stays done.
structure Forward {ι : Type} (run : ι → Task σ ε) (Good : σ → Prop) (Later : σ → σ → Prop)
    (Done : ι → σ → Prop) : Prop where
  refl : ∀ state, Later state state
  trans : ∀ one two three, Later one two → Later two three → Later one three
  advances : ∀ duty, Advances Good Later (run duty)
  finishes : ∀ duty state, Good state → (run duty state).failure = none →
    Done duty ((run duty state).final state)
  keeps : ∀ duty one two, Good one → Good two → Later one two → Done duty one → Done duty two
  settled : ∀ duty state, Good state → Done duty state → Settled (run duty) state
  resumes : ∀ duty state, Good state → Resumes (run duty) state

namespace Forward

variable {ι : Type} {run : ι → Task σ ε} {Good : σ → Prop} {Later : σ → σ → Prop}
  {Done : ι → σ → Prop} {duties : List ι}

theorem all_advances (forward : Forward run Good Later Done) : Advances Good Later (all (duties.map run)) := by
  induction duties with
  | nil => exact advances_nothing
  | cons duty duties ih => exact .andThen forward.refl forward.trans (forward.advances duty) ih

theorem all_settled (forward : Forward run Good Later Done) (good : Good state)
    (done : ∀ duty ∈ duties, Done duty state) : Settled (all (duties.map run)) state := by
  induction duties with
  | nil => exact ⟨rfl,rfl⟩
  | cons duty duties ih =>
    rw [List.forall_mem_cons] at done
    obtain ⟨failure,ends⟩ := @andThen_settled _ _ (run duty) (all (duties.map run)) state (forward.settled duty state good done.1)
    obtain ⟨passed,stays⟩ := ih done.2
    exact ⟨failure.trans passed,ends.trans stays⟩

theorem all_finishes (forward : Forward run Good Later Done) (good : Good start) (passed : (all (duties.map run) start).failure = none) :
    ∀ duty ∈ duties, Done duty ((all (duties.map run) start).final start) := by
  induction duties generalizing start with
  | nil =>
    intro duty listed
    cases listed
  | cons duty duties ih =>
    change (andThen (run duty) (all (duties.map run)) start).failure = none at passed
    change ∀ other ∈ duty :: duties, Done other ((andThen (run duty) (all (duties.map run)) start).final start)
    cases failed : (run duty start).failure with
    | some failure =>
      rw [(andThen_failed failed).1] at passed
      cases passed
    | none =>
      obtain ⟨failure,ends,-⟩ := @andThen_passed _ _ (run duty) (all (duties.map run)) start failed
      obtain ⟨kept,-⟩ := (forward.advances duty).final forward.refl good
      obtain ⟨kept',reached'⟩ := (@all_advances _ _ _ _ _ _ _ duties forward).final forward.refl kept
      rw [ends,List.forall_mem_cons]
      exact ⟨forward.keeps duty _ _ kept kept' reached' (forward.finishes duty start good failed),ih kept (failure.symm.trans passed)⟩

theorem all_resumes (forward : Forward run Good Later Done) (good : Good start) :
    Resumes (all (duties.map run)) start := by
  induction duties generalizing start with
  | nil =>
    intro stop listed
    cases listed
  | cons duty duties ih =>
    refine resumes_andThen (forward.resumes duty start good) fun passed => ?_
    obtain ⟨kept,-⟩ := (forward.advances duty).final forward.refl good
    refine ⟨ih kept,fun stop listed => ?_⟩
    obtain ⟨good',reached⟩ := forward.all_advances _ kept stop listed
    exact forward.settled duty stop good' (forward.keeps duty _ _ kept good' reached (forward.finishes duty start good passed))

theorem then_resumes (forward : Forward run Good Later Done) (good : Good start)
    (advances : Advances Good Later last) (resumes : ∀ state, Good state → Resumes last state) :
    Resumes (andThen (all (duties.map run)) last) start := by
  refine resumes_andThen (forward.all_resumes good) fun passed => ?_
  obtain ⟨kept,-⟩ := (@all_advances _ _ _ _ _ _ _ duties forward).final forward.refl good
  refine ⟨resumes _ kept,fun stop listed => ?_⟩
  obtain ⟨good',reached⟩ := advances _ kept stop listed
  refine forward.all_settled good' fun duty member => ?_
  exact forward.keeps duty _ _ kept good' reached (forward.all_finishes good passed duty member)

end Forward

end Retry
