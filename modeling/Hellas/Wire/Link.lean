import Hellas.Wire.Delivery

-- Two multiplexers and the messages under way between them.

namespace Hellas.Wire

open StreamSlot Guard

def Role.other : Role → Role
  | .client => .server
  | .server => .client

-- One end of the link, with what it has done and seen so far.
structure Side where
  mux : Multiplexer
  inbox : List (List UInt8)
  accepted : List (StreamKey × Payload)
  delivered : List (StreamKey × Payload)
  opened : List Nat
  received : List (List UInt8 × Except MuxError (List Event))

abbrev Link := Role → Side

inductive Act where
  | openStream (methodId : UInt32) (headers : Metadata)
  | trySendBody (idx : Nat) (payload : Payload)
  | closeSend (idx : Nat) (trailer : Option Trailer)
  | reset (idx : Nat) (code : WireCode)
  | consume (idx bytes : Nat)
  | nextOutbound
  | recv

-- Headers and trailers stay inside the decoder's limits.
def Act.Fits : Act → Prop
  | .openStream methodId headers => (Frame.openFrame methodId headers).Fits
  | .closeSend _ trailer => (Frame.endFrame (trailer.getD .default).status (trailer.getD .default)).Fits
  | _ => True

namespace Multiplexer

-- A stream is named by its slot and the generation seated there.
def keyAt (mux : Multiplexer) (idx : Nat) : StreamKey := ⟨idx,(mux.generation idx).getD 0⟩

def chunks (mux : Multiplexer) (events : List Event) : List (StreamKey × Payload) :=
  events.filterMap fun event =>
    match event with
    | .bodyChunk idx payload => some (mux.keyAt idx, payload)
    | _ => none

end Multiplexer

namespace Side

def openStream (side : Side) (methodId : UInt32) (headers : Metadata) : Side :=
  match side.mux.openStream methodId headers with
  | (mux, .ok idx) => { side with mux := mux, opened := side.opened ++ [idx] }
  | (mux, .error _) => { side with mux := mux }

def trySendBody (side : Side) (idx : Nat) (payload : Payload) : Side :=
  match side.mux.trySendBody idx payload with
  | .ok (mux, .accepted) => { side with mux := mux, accepted := side.accepted ++ [(side.mux.keyAt idx, payload)] }
  | .ok (mux, .blocked _) => { side with mux := mux }
  | .error _ => side

def withMux (side : Side) : Except MuxError Multiplexer → Side
  | .ok mux => { side with mux := mux }
  | .error _ => side

def recv (side : Side) : Side :=
  match side.inbox with
  | [] => side
  | message :: rest =>
    match side.mux.recv message with
    | .ok (mux, events) =>
      { side with
        mux := mux
        inbox := rest
        delivered := side.delivered ++ mux.chunks events
        received := side.received ++ [(message, .ok events)] }
    | .error refused => { side with inbox := rest, received := side.received ++ [(message, .error refused)] }

end Side

namespace Link

def put (link : Link) (role : Role) (side : Side) : Link := Function.update link role side

def ship (link : Link) (role : Role) : Link :=
  let shipped := (link role).mux.nextOutbound
  (link.put role { link role with mux := shipped.1 }).put role.other
    { link role.other with inbox := (link role.other).inbox ++ shipped.2.toList }

def step (link : Link) (role : Role) : Act → Link
  | .openStream methodId headers => link.put role ((link role).openStream methodId headers)
  | .trySendBody idx payload => link.put role ((link role).trySendBody idx payload)
  | .closeSend idx trailer => link.put role ((link role).withMux ((link role).mux.closeSend idx trailer))
  | .reset idx code => link.put role { link role with mux := (link role).mux.reset idx code }
  | .consume idx bytes => link.put role ((link role).withMux ((link role).mux.consume idx bytes))
  | .nextOutbound => link.ship role
  | .recv => link.put role (link role).recv

def new (slots streamWindow : Nat) : Link := fun role => ⟨.new role slots streamWindow,[],[],[],[],[]⟩

def run (link : Link) (acts : List (Role × Act)) : Link := acts.foldl (fun link act => link.step act.1 act.2) link

end Link

namespace Multiplexer

-- What every multiplexer of a link keeps, whatever its streams do.
structure Kept (slots window : Nat) (role : Role) (mux : Multiplexer) : Prop where
  size : mux.slots = slots
  room : mux.streamWindow = window
  side : mux.role = role
  unstashed : mux.pendingWrite = none
  free : ∀ idx, mux.free idx = true → role.ownsSlot idx = true ∧ idx < slots % 2^16 ∧
    Lane.Idle (mux.streams idx)
  range : ∀ idx slot, mux.streams idx = some slot → idx < slots % 2^16
  queue : ∀ idx slot, mux.streams idx = some slot →
    slot.generation < 2^16 ∧ ∀ frame ∈ slot.sendQueue, frame.Fits

variable {slots window : Nat} {role : Role} {mux : Multiplexer} {idx : Nat}

theorem seat_same : (mux.seat idx slot).streams idx = some slot := Function.update_self ..

theorem seat_other (different : other ≠ idx) :
    (mux.seat idx slot).streams other = mux.streams other := Function.update_of_ne different ..

theorem Kept.new : Kept slots window role (Multiplexer.new role slots window) where
  size := rfl
  room := rfl
  side := rfl
  unstashed := rfl
  free idx given := by
    simp only [Multiplexer.new,Bool.and_eq_true,decide_eq_true_eq] at given
    exact ⟨given.2,given.1,fun slot seated => nomatch seated⟩
  range _ _ held := nomatch held
  queue _ _ held := nomatch held

theorem Kept.seat (kept : Kept slots window role mux) (busy : mux.free idx = false) (inside : idx < slots % 2^16)
    (generation : slot.generation < 2^16) (fits : ∀ frame ∈ slot.sendQueue, frame.Fits) :
    Kept slots window role (mux.seat idx slot) where
  size := kept.size
  room := kept.room
  side := kept.side
  unstashed := kept.unstashed
  free other given := by
    have different : other ≠ idx := by
      intro same
      rw [same] at given
      exact absurd (busy.symm.trans given) Bool.false_ne_true
    rw [seat_other different]
    exact kept.free other given
  range other held seated := by
    by_cases same : other = idx
    · rw [same]
      exact inside
    · rw [seat_other same] at seated
      exact kept.range other held seated
  queue other held seated := by
    by_cases same : other = idx
    · rw [same,seat_same] at seated
      cases seated
      exact ⟨generation,fits⟩
    · rw [seat_other same] at seated
      exact kept.queue other held seated

theorem Kept.busy (kept : Kept slots window role mux) (seated : mux.streams idx = some slot)
    (active : slot.isClosed = false ∨ slot.sendQueue ≠ []) : mux.free idx = false := by
  cases given : mux.free idx with
  | false => rfl
  | true =>
    obtain ⟨-,-,idle⟩ := kept.free idx given
    obtain ⟨closed,empty⟩ := idle slot seated
    rcases active with listening | waiting
    · rw [closed] at listening
      cases listening
    · exact absurd empty waiting

theorem Kept.markFree (kept : Kept slots window role mux) (seated : mux.streams idx = some slot)
    (closed : slot.isClosed = true) (empty : slot.sendQueue = []) :
    Kept slots window role (mux.markFree idx) := by
  unfold Multiplexer.markFree
  split
  · rename_i owned
    refine ⟨kept.size,kept.room,kept.side,kept.unstashed,?_,kept.range,kept.queue⟩
    intro other given
    by_cases same : other = idx
    · rw [same]
      refine ⟨kept.side ▸ owned,kept.range idx slot seated,fun held chosen => ?_⟩
      change mux.streams idx = some held at chosen
      rw [seated] at chosen
      cases chosen
      exact ⟨closed,empty⟩
    · change Function.update mux.free idx true other = true at given
      rw [Function.update_of_ne same] at given
      exact kept.free other given
  · exact kept

theorem markFree_streams : (mux.markFree idx).streams = mux.streams := by
  unfold Multiplexer.markFree
  split <;> rfl

theorem Kept.maybeFreeSlot (kept : Kept slots window role mux) :
    Kept slots window role (mux.maybeFreeSlot idx).1 ∧ (mux.maybeFreeSlot idx).1.streams = mux.streams := by
  unfold Multiplexer.maybeFreeSlot
  split
  · exact ⟨kept,rfl⟩
  · rename_i slot seated
    split
    · exact ⟨kept,rfl⟩
    · rename_i closed
      split
      · exact ⟨kept,rfl⟩
      · rename_i empty
        rw [Bool.not_eq_false] at closed
        rw [not_not] at empty
        exact ⟨kept.markFree seated closed empty,markFree_streams⟩

theorem Kept.drainOne (kept : Kept slots window role mux) :
    Kept slots window role (mux.drainOne idx) ∧ (mux.drainOne idx).streams = mux.streams := by
  unfold Multiplexer.drainOne
  split
  · exact kept.maybeFreeSlot
  · exact ⟨⟨kept.size,kept.room,kept.side,kept.unstashed,kept.free,kept.range,kept.queue⟩,
      rfl⟩

theorem Kept.drain (kept : Kept slots window role mux) :
    Kept slots window role mux.drainPendingTerminalFree ∧ mux.drainPendingTerminalFree.streams = mux.streams := by
  have each : ∀ (entries : List Nat) (mux : Multiplexer), Kept slots window role mux →
      Kept slots window role (entries.foldl Multiplexer.drainOne mux) ∧ (entries.foldl Multiplexer.drainOne mux).streams = mux.streams := by
    intro entries
    induction entries with
    | nil => exact fun mux kept => ⟨kept,rfl⟩
    | cons entry entries ih =>
      intro mux kept
      obtain ⟨kept',same⟩ := @Kept.drainOne _ _ _ _ entry kept
      obtain ⟨kept'',same'⟩ := ih _ kept'
      exact ⟨kept'',same'.trans same⟩
  exact each _ _ ⟨kept.size,kept.room,kept.side,kept.unstashed,kept.free,kept.range,kept.queue⟩

theorem Kept.cleanUp (kept : Kept slots window role mux) :
    Kept slots window role (mux.cleanUpAfterRemoteFree idx) ∧ (mux.cleanUpAfterRemoteFree idx).streams = mux.streams := by
  refine ⟨⟨kept.size,kept.room,kept.side,?_,kept.free,kept.range,kept.queue⟩,rfl⟩
  change mux.pendingWrite.filter _ = none
  rw [kept.unstashed]
  rfl

end Multiplexer

end Hellas.Wire
