import Hellas.Wire.Flow

-- What the peer of a slot will have heard once everything sent to it has arrived.

namespace Hellas.Wire

open StreamSlot

def Frame.isOpen : Frame → Bool
  | .openFrame .. => true
  | _ => false

def Frame.isReset : Frame → Bool
  | .reset _ => true
  | _ => false

-- Which halves of the seated stream have ended, as its holder sees it.
structure Ends where
  generation : Nat
  localEnd : Bool
  peerEnd : Bool

def ends (seat : Option StreamSlot) : Option Ends := seat.map fun slot => ⟨slot.generation,slot.localTerminal,slot.peerTerminal⟩

namespace Ends

def closed (held : Ends) : Bool := held.localEnd && held.peerEnd

def touch (tag : Nat) (frame : Frame) (held : Ends) : Ends :=
  if held.generation = tag then
    ⟨held.generation,held.localEnd || frame.isReset,held.peerEnd || frame.isTerminal⟩
  else held

-- A stream opens only where none is open.
def hear (held : Option Ends) (sent : Tagged) : Option (Option Ends) :=
  if sent.2.isOpen then
    if held.all fun seated => seated.closed && seated.generation ≠ sent.1 then
      some (some ⟨sent.1,false,false⟩)
    else none
  else some (held.map (touch sent.1 sent.2))

def hears : Option Ends → List Tagged → Option (Option Ends)
  | held, [] => some held
  | held, sent :: way => (hear held sent).bind fun next => hears next way

def Firmer (held after : Option Ends) : Prop :=
  match held, after with
  | none, none => True
  | some one, some other => other.generation = one.generation ∧
      (one.localEnd = true → other.localEnd = true) ∧ (one.peerEnd = true → other.peerEnd = true)
  | _, _ => False

variable {held final : Option Ends} {tag : Nat} {frame : Frame} {way : List Tagged}

theorem Firmer.refl : Firmer held held := by
  cases held with
  | none => trivial
  | some seated => exact ⟨rfl,id,id⟩

theorem Firmer.trans (first : Firmer held after) (second : Firmer after last) : Firmer held last := by
  cases held <;> cases after <;> cases last <;> simp_all [Firmer]

theorem touch_generation : (touch tag frame seated).generation = seated.generation := by
  unfold touch
  split <;> rfl

theorem touch_firmer : Firmer held (held.map (touch tag frame)) := by
  cases held with
  | none => trivial
  | some seated => refine ⟨touch_generation,?_,?_⟩ <;> unfold touch <;> split <;> simp_all

theorem touch_mono (firmer : Firmer held after) :
    Firmer (held.map (touch tag frame)) (after.map (touch tag frame)) := by
  cases held with
  | none => cases after <;> simp_all [Firmer]
  | some one =>
    cases after with
    | none => exact firmer.elim
    | some other =>
      obtain ⟨same,locals,peers⟩ := firmer
      refine ⟨by rw [touch_generation,touch_generation,same],?_,?_⟩
      all_goals
        unfold touch
        rw [same]
        split
        · simp only [Bool.or_eq_true]
          grind
        · assumption

theorem hear_quiet (quiet : frame.isOpen = false) : hear held (tag, frame) = some (held.map (touch tag frame)) := by
  unfold hear
  rw [quiet]
  rfl

theorem hear_open {next : Option Ends} (opens : frame.isOpen = true) :
    hear held (tag, frame) = some next ↔ held.all (fun seated => seated.closed && seated.generation ≠ tag) = true ∧
        next = some ⟨tag,false,false⟩ := by
  unfold hear
  rw [opens,if_pos rfl]
  split
  · rename_i vacant
    rw [Option.some.injEq]
    exact ⟨fun same => ⟨vacant,same.symm⟩,fun both => both.2.symm⟩
  · rename_i taken
    exact ⟨fun missing => (nomatch missing),fun both => absurd both.1 taken⟩

theorem hear_plain (plain : frame.isOpen = false) (unended : frame.isTerminal = false) :
    hear held (tag, frame) = some held := by
  rw [hear_quiet plain]
  cases held with
  | none => rfl
  | some seated =>
    have whole : frame.isReset = false := by
      cases frame with
      | reset code => cases unended
      | _ => rfl
    simp [touch,unended,whole]

theorem hears_cons : hears held (sent :: way) = (hear held sent).bind fun next => hears next way := rfl

theorem hears_append : hears held (way ++ more) = (hears held way).bind fun next => hears next more := by
  induction way generalizing held with
  | nil => rfl
  | cons sent way ih =>
    rw [List.cons_append,hears_cons,hears_cons]
    cases hear held sent with
    | none => rfl
    | some next => exact ih

theorem hears_snoc : hears held (way ++ [(tag, frame)]) = (hears held way).bind fun next => hear next (tag, frame) := by
  rw [hears_append]
  congr 1
  funext next
  rw [hears_cons]
  cases hear next (tag, frame) <;> rfl

theorem hears_quiet (quiet : ∀ sent ∈ way, sent.2.isOpen = false) :
    ∃ final, hears held way = some final ∧ Firmer held final := by
  induction way generalizing held with
  | nil => exact ⟨held,rfl,.refl⟩
  | cons sent way ih =>
    rw [List.forall_mem_cons] at quiet
    obtain ⟨final,heard,firmer⟩ := @ih (held.map (touch sent.1 sent.2)) quiet.2
    refine ⟨final,?_,touch_firmer.trans firmer⟩
    rw [hears_cons,hear_quiet quiet.1]
    exact heard

theorem hears_mono (firmer : Firmer held after) (heard : hears held way = some final) :
    ∃ last, hears after way = some last ∧ Firmer final last := by
  induction way generalizing held after with
  | nil =>
    cases heard
    exact ⟨after,rfl,firmer⟩
  | cons sent way ih =>
    rw [hears_cons] at heard ⊢
    obtain ⟨next,first,rest⟩ := Option.bind_eq_some_iff.mp heard
    cases opens : sent.2.isOpen with
    | false =>
      have quiet := @hear_quiet held sent.1 sent.2 opens
      rw [quiet] at first
      cases first
      obtain ⟨last,heard',firmer'⟩ := ih (touch_mono firmer) rest
      refine ⟨last,?_,firmer'⟩
      rw [@hear_quiet after sent.1 sent.2 opens]
      exact heard'
    | true =>
      have same : hear after sent = some next := by
        obtain ⟨vacant,fresh⟩ := (@hear_open held sent.1 sent.2 next opens).mp first
        refine (@hear_open after sent.1 sent.2 next opens).mpr ⟨?_,fresh⟩
        cases held <;> cases after <;> simp_all [Firmer,closed]
      exact ⟨final,by rw [same]; exact rest,.refl⟩

theorem hears_generation (heard : hears held way = some (some seated)) :
    (∃ before, held = some before ∧ before.generation = seated.generation) ∨
      ∃ frame : Frame, frame.isOpen = true ∧ (seated.generation, frame) ∈ way := by
  induction way generalizing held with
  | nil =>
    cases heard
    exact .inl ⟨seated,rfl,rfl⟩
  | cons sent way ih =>
    rw [hears_cons] at heard
    obtain ⟨next,first,rest⟩ := Option.bind_eq_some_iff.mp heard
    rcases ih rest with ⟨before,rfl,same⟩ | ⟨frame,opens,listed⟩
    · cases opens : sent.2.isOpen with
      | false =>
        have quiet := @hear_quiet held sent.1 sent.2 opens
        rw [quiet] at first
        obtain ⟨earlier,rfl,touched⟩ := Option.map_eq_some_iff.mp (Option.some.inj first)
        refine .inl ⟨earlier,rfl,?_⟩
        rw [← same,← touched,touch_generation]
      | true =>
        obtain ⟨-,fresh⟩ := (@hear_open held sent.1 sent.2 _ opens).mp first
        cases fresh
        refine .inr ⟨sent.2,opens,?_⟩
        rw [← same]
        exact List.mem_cons_self
    · exact .inr ⟨frame,opens,List.mem_cons_of_mem _ listed⟩

theorem hears_insert (plain : frame.isOpen = false) (unended : frame.isTerminal = false) :
    hears held (before ++ (tag, frame) :: way) = hears held (before ++ way) := by
  rw [hears_append,hears_append]
  congr 1
  funext next
  rw [hears_cons,hear_plain plain unended]
  rfl

end Ends

end Hellas.Wire
