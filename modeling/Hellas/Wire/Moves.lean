import Hellas.Wire.Link

-- Everything one call can do to a multiplexer, as what it does to one of its slots.

namespace Hellas.Wire

open StreamSlot Guard

section Limits

theorem body_fits {payload : Payload} (short : payload.length ≤ window) (small : window < maxFrameBytes) :
    (Frame.body payload).Fits where
  whole := by
    simp only [encodeFrame,encodeBody,List.length_cons]
    omega
  headers _ _ same := nomatch same
  trailer _ _ same := nomatch same
  credit _ same := nomatch same

theorem reset_fits : (Frame.reset code).Fits where
  whole := by
    simp only [encodeFrame,encodeBody,List.length_cons,List.length_nil]
    decide
  headers _ _ same := nomatch same
  trailer _ _ same := nomatch same
  credit _ same := nomatch same

theorem credit_fits (small : bytes < 2^32) : (Frame.credit bytes).Fits where
  whole := by
    simp only [encodeFrame,encodeBody,List.length_cons,littleEndian_length]
    decide
  headers _ _ same := nomatch same
  trailer _ _ same := nomatch same
  credit _ same := by
    cases same
    exact small

theorem returnCredit_fits (small : bytes < 2^32) (fits : ∀ frame ∈ queue, frame.Fits) :
    ∀ frame ∈ returnCredit bytes queue, frame.Fits := by
  intro frame listed
  rcases @returnCredit_cases bytes queue with ⟨before,waiting,rest,rfl,same⟩ | same
  · rw [same,List.mem_append,List.mem_cons] at listed
    rcases listed with old | rfl | old
    · exact fits frame (List.mem_append_left _ old)
    · refine credit_fits ?_
      unfold saturatingAdd32
      omega
    · exact fits frame (List.mem_append_right _ (List.mem_cons_of_mem _ old))
  · rw [same,List.mem_cons] at listed
    rcases listed with rfl | old
    · exact credit_fits small
    · exact fits frame old

end Limits

namespace Multiplexer

variable {slots window : Nat} {role : Role} {mux next : Multiplexer} {idx : Nat} {slot : StreamSlot}

theorem seat_self (seated : mux.streams idx = some slot) : mux.seat idx slot = mux := by
  unfold Multiplexer.seat
  rw [← seated,Function.update_eq_self]

-- An action of a side's own: nothing, or one on a slot that carries a stream.
inductive Worked (mux next : Multiplexer) : List (StreamKey × Payload) → Prop where
  | still : next.streams = mux.streams → Worked mux next []
  | acted {idx : Nat} {slot after : StreamSlot} {taken : List Payload} :
      mux.streams idx = some slot → Acted slot after taken →
      next.streams = (mux.seat idx after).streams →
      Worked mux next (taken.map fun payload => (⟨idx,slot.generation⟩, payload))

theorem acted_active (acted : Acted slot after taken) : slot.isClosed = false := by
  cases acted with
  | sent payload live => rw [isClosed,live,Bool.and_false]
  | ended trailer live => rw [isClosed,live,Bool.and_false]
  | reset code standing => exact standing
  | returned bytes returning live => rw [isClosed,live,Bool.false_and]

theorem Kept.acted (kept : Kept slots window role mux) {after : StreamSlot} {taken : List Payload}
    (seated : mux.streams idx = some slot) (acted : Acted slot after taken)
    (fits : ∀ frame ∈ after.sendQueue, frame.Fits) : Kept slots window role (mux.seat idx after) := by
  refine kept.seat (kept.busy seated (.inl (acted_active acted))) (kept.range idx slot seated) ?_ fits
  rw [acted.generation]
  exact (kept.queue idx slot seated).1

theorem trySendBody_worked (kept : Kept slots window role mux) (small : window < maxFrameBytes)
    (done : mux.trySendBody idx payload = .ok (next, outcome)) :
    Kept slots window role next ∧ (outcome = .accepted → Worked mux next [(mux.keyAt idx, payload)]) ∧
      (outcome ≠ .accepted → Worked mux next []) := by
  unfold Multiplexer.trySendBody at done
  split at done
  · cases done
  · rename_i short
    rw [kept.room,not_lt] at short
    split at done
    · cases done
    · rename_i slot seated
      have same := seat_self seated
      unfold StreamSlot.trySendBody at done
      split at done
      · cases done
      · rename_i live
        split at done
        · cases done
          rw [same]
          exact ⟨kept,fun other => (nomatch other),fun _ => .still rfl⟩
        · rename_i enough
          rw [not_lt] at enough
          split at done
          · cases done
            rw [same]
            exact ⟨kept,fun other => (nomatch other),fun _ => .still rfl⟩
          · split at done
            · cases done
            · cases done
              rw [Bool.not_eq_true] at live
              have acted := Acted.sent payload live enough
              have key : mux.keyAt idx = ⟨idx,slot.generation⟩ := by
                rw [keyAt,generation,seated]
                rfl
              refine ⟨kept.acted seated acted ?_,fun _ => ?_,fun other => absurd rfl other⟩
              · intro frame listed
                rcases List.mem_append.mp listed with old | new
                · exact (kept.queue idx slot seated).2 frame old
                · rw [List.mem_singleton.mp new]
                  exact body_fits short small
              · rw [key]
                exact .acted seated acted rfl

theorem closeSend_worked (kept : Kept slots window role mux) {trailer : Option Trailer}
    (fits : (Frame.endFrame (trailer.getD .default).status (trailer.getD .default)).Fits)
    (done : mux.closeSend idx trailer = .ok next) :
    Kept slots window role next ∧ Worked mux next [] := by
  unfold Multiplexer.closeSend at done
  split at done
  · cases done
  · rename_i slot seated
    unfold StreamSlot.closeSend at done
    split at done
    · cases done
      rw [seat_self seated]
      exact ⟨kept,.still rfl⟩
    · rename_i live
      split at done
      · cases done
      · cases done
        rw [Bool.not_eq_true] at live
        have acted := Acted.ended (trailer.getD .default) live
        refine ⟨kept.acted seated acted ?_,.acted seated acted rfl⟩
        intro frame listed
        rcases List.mem_append.mp listed with old | new
        · exact (kept.queue idx slot seated).2 frame old
        · rw [List.mem_singleton.mp new]
          exact fits

theorem reset_worked (kept : Kept slots window role mux) {code : WireCode} :
    Kept slots window role (mux.reset idx code) ∧ Worked mux (mux.reset idx code) [] := by
  unfold Multiplexer.reset
  split
  · exact ⟨kept,.still rfl⟩
  · rename_i slot seated
    unfold StreamSlot.reset
    split
    · rw [seat_self seated]
      exact ⟨kept,.still rfl⟩
    · rename_i standing
      rw [Bool.not_eq_true,Bool.and_comm] at standing
      have acted := Acted.reset code standing
      refine ⟨kept.acted seated acted ?_,.acted seated acted rfl⟩
      intro frame listed
      rw [List.mem_singleton.mp listed]
      exact reset_fits

theorem consume_worked (kept : Kept slots window role mux)
    (bounded : ∀ slot, mux.streams idx = some slot → slot.localCreditHighWater < 2^32)
    (done : mux.consume idx bytes = .ok next) :
    Kept slots window role next ∧ Worked mux next [] := by
  unfold Multiplexer.consume at done
  split at done
  · cases done
    exact ⟨kept,.still rfl⟩
  · rename_i returning
    split at done
    · cases done
      exact ⟨kept,.still rfl⟩
    · rename_i slot seated
      have small := bounded slot seated
      unfold StreamSlot.consume at done
      split at done
      · cases done
        rw [seat_self seated]
        exact ⟨kept,.still rfl⟩
      · rename_i live
        split at done
        · cases done
        · rename_i available
          cases done
          rw [Bool.not_eq_true] at live
          rw [not_lt] at available
          have acted := Acted.returned bytes (Nat.pos_of_ne_zero returning) live available
          exact ⟨kept.acted seated acted (returnCredit_fits (by omega) (kept.queue idx slot seated).2),
            .acted seated acted rfl⟩

theorem openStream_worked (kept : Kept slots window role mux) {methodId : UInt32} {headers : Metadata}
    (fits : (Frame.openFrame methodId headers).Fits) :
    Kept slots window role (mux.openStream methodId headers).1 ∧ ((∃ refused, (mux.openStream methodId headers).2 = .error refused ∧
          (mux.openStream methodId headers).1.streams = mux.streams) ∨
        ∃ idx, (mux.openStream methodId headers).2 = .ok idx ∧ role.ownsSlot idx = true ∧ Lane.Idle (mux.streams idx) ∧
          (mux.openStream methodId headers).1.streams = (mux.seat idx (Lane.freshSlot methodId headers
            window ((generationOf (mux.streams idx) + 1) % 2^16))).streams) := by
  obtain ⟨drained,same⟩ := kept.drain
  unfold Multiplexer.openStream
  dsimp only
  split
  · exact ⟨drained,.inl ⟨.atCapacity,rfl,same⟩⟩
  · rename_i idx found
    have given : mux.drainPendingTerminalFree.free idx = true := List.find?_some found
    obtain ⟨owned,inside,idle⟩ := drained.free idx given
    rw [same] at idle
    have generation : mux.drainPendingTerminalFree.nextGeneration idx = (generationOf (mux.streams idx) + 1) % 2^16 := by
      rw [nextGeneration,Multiplexer.generation,same]
      cases mux.streams idx <;> rfl
    have used : Kept slots window role (mux.drainPendingTerminalFree.markUsed idx) := by
      refine ⟨drained.size,drained.room,drained.side,drained.unstashed,fun other free => ?_,
        drained.range,drained.queue⟩
      by_cases this : other = idx
      · rw [this] at free
        change Function.update mux.drainPendingTerminalFree.free idx false idx = true at free
        rw [Function.update_self] at free
        cases free
      · change Function.update mux.drainPendingTerminalFree.free idx false other = true at free
        rw [Function.update_of_ne this] at free
        exact drained.free other free
    have busy : (mux.drainPendingTerminalFree.markUsed idx).free idx = false := Function.update_self ..
    rw [generation,drained.room]
    refine ⟨used.seat busy inside (Nat.mod_lt _ (by decide)) ?_,.inr ⟨idx,rfl,owned,idle,?_⟩⟩
    · intro frame listed
      rw [List.mem_singleton.mp listed]
      exact fits
    · change Function.update mux.drainPendingTerminalFree.streams idx _ =
        Function.update mux.streams idx _
      rw [same]
      rfl

theorem scan_worked {left : Nat} (kept : Kept slots window role mux) :
    Kept slots window role (scan left mux).1 ∧ ((scan left mux).2 = none ∧ (scan left mux).1.streams = mux.streams ∨
        ∃ idx slot frame rest, mux.streams idx = some slot ∧ slot.sendQueue = frame :: rest ∧
          (scan left mux).2 = some ⟨⟨idx,slot.generation⟩,frame⟩ ∧
          (scan left mux).1.streams = (mux.seat idx { slot with sendQueue := rest }).streams) := by
  induction left generalizing mux with
  | zero => exact ⟨kept,.inl ⟨rfl,rfl⟩⟩
  | succ left ih =>
    have turned : Kept slots window role { mux with rr := (mux.rr + 1) % (mux.slots % 2^16) } :=
      ⟨kept.size,kept.room,kept.side,kept.unstashed,kept.free,kept.range,kept.queue⟩
    rw [scan]
    dsimp only
    split
    · exact ih turned
    · rename_i slot seated
      split
      · exact ih turned
      · rename_i frame rest shape
        have listed := (kept.queue mux.rr slot seated).2
        rw [shape] at listed
        have busy := kept.busy seated (.inr (by rw [shape]; exact List.cons_ne_nil _ _))
        have popped : Kept slots window role (Multiplexer.seat { mux with rr := (mux.rr + 1) % (mux.slots % 2^16) } mux.rr
            { slot with sendQueue := rest }) :=
          turned.seat busy (kept.range _ _ seated) (kept.queue _ _ seated).1
            fun frame member => listed frame (List.mem_cons_of_mem _ member)
        refine ⟨?_,.inr ⟨mux.rr,slot,frame,rest,seated,shape,rfl,?_⟩⟩
        · unfold emit
          dsimp only
          split
          · exact ⟨popped.size,popped.room,popped.side,popped.unstashed,popped.free,
              popped.range,popped.queue⟩
          · exact popped
        · unfold emit
          dsimp only
          split <;> rfl

theorem nextOutbound_worked (kept : Kept slots window role mux) :
    Kept slots window role mux.nextOutbound.1 ∧ (mux.nextOutbound.2 = none ∧ mux.nextOutbound.1.streams = mux.streams ∨
        ∃ idx slot frame rest, mux.streams idx = some slot ∧ slot.sendQueue = frame :: rest ∧
          mux.nextOutbound.2 = some (encodeKeyedFrame ⟨⟨idx,slot.generation⟩,frame⟩) ∧
          mux.nextOutbound.1.streams = (mux.seat idx { slot with sendQueue := rest }).streams) := by
  obtain ⟨drained,same⟩ := kept.drain
  unfold Multiplexer.nextOutbound
  rw [kept.unstashed]
  dsimp only
  obtain ⟨kept',moved⟩ := @scan_worked _ _ _ _ mux.slots drained
  refine ⟨kept',?_⟩
  rcases moved with ⟨idle,still⟩ | ⟨idx,slot,frame,rest,seated,shape,sending,popped⟩
  · rw [idle]
    exact .inl ⟨rfl,still.trans same⟩
  · rw [sending]
    rw [same] at seated
    refine .inr ⟨idx,slot,frame,rest,seated,shape,rfl,popped.trans ?_⟩
    change Function.update _ _ _ = Function.update _ _ _
    rw [same]

theorem recvOpen_worked (kept : Kept slots window role mux) {key : StreamKey} {methodId : UInt32} {headers : Metadata}
    (foreign : role.ownsSlot key.streamId = false) (inside : key.streamId < slots % 2^16)
    (generation : key.generation < 2^16)
    (vacant : ∀ slot, mux.streams key.streamId = some slot → slot.isClosed = true ∧ slot.generation ≠ key.generation) :
    ∃ next, mux.recvFrame ⟨key,.openFrame methodId headers⟩ = .ok (next, [.newIncomingStream key.streamId methodId headers]) ∧
      Kept slots window role next ∧ next.streams = (mux.seat key.streamId
        { StreamSlot.openSlot methodId window with generation := key.generation }).streams := by
  have busy : mux.free key.streamId = false := by
    cases given : mux.free key.streamId with
    | false => rfl
    | true =>
      have owned := (kept.free _ given).1
      rw [foreign] at owned
      cases owned
  have seated : Kept slots window role (mux.seat key.streamId { StreamSlot.openSlot methodId window with generation := key.generation }) :=
    kept.seat busy inside generation fun _ listed => nomatch listed
  obtain ⟨cleaned,same⟩ := @Kept.cleanUp _ _ _ _ key.streamId seated
  refine ⟨_,?_,cleaned,same⟩
  have low : key.streamId < slots := lt_of_lt_of_le inside (Nat.mod_le _ _)
  unfold Multiplexer.recvFrame
  dsimp only
  rw [kept.size,if_neg (not_le.mpr low)]
  simp only [Multiplexer.recvOpen,bind_ok,rejectIf_ok,pure_ok,kept.room]
  refine ⟨(),?_,(),?_,(),?_,trivial⟩
  · rw [kept.side,foreign]
    exact Bool.false_ne_true
  · cases held : mux.streams key.streamId with
    | none => simp
    | some slot => simp [(vacant slot held).1]
  · intro clash
    obtain ⟨slot,held,same⟩ := Option.map_eq_some_iff.mp clash
    exact (vacant slot held).2 same

theorem recvSeated_worked (kept : Kept slots window role mux) {frame : Frame} (seated : mux.streams idx = some slot)
    (quiet : frame.isOpen = false) (fits : frame.Fits)
    (room : ∀ payload, frame = .body payload → slot.peerTerminal = false → payload.length ≤ slot.localRecvCredit) :
    Kept slots window role (mux.recvSeated idx slot frame).1 ∧ ∃ after taken, Heard slot frame after taken ∧
        (mux.recvSeated idx slot frame).1.streams = (mux.seat idx after).streams ∧
        (mux.recvSeated idx slot frame).1.chunks (mux.recvSeated idx slot frame).2 =
          taken.map (fun payload => (⟨idx,slot.generation⟩, payload)) ∧
        (frame.isBody = true → ∀ code, .resetStream idx code ∉ (mux.recvSeated idx slot frame).2) := by
  have inside := kept.range idx slot seated
  obtain ⟨generation,queue⟩ := kept.queue idx slot seated
  unfold Multiplexer.recvSeated
  split
  · rename_i late
    simp only [Bool.and_eq_true,Bool.or_eq_true,Bool.not_eq_true'] at late
    refine ⟨kept,slot,[],.ignored late.1 late.2,by rw [seat_self seated],rfl,?_⟩
    intro _ code listed
    cases listed
  · rename_i heard
    simp only [Bool.and_eq_true,Bool.or_eq_true,Bool.not_eq_true',not_and,not_or,Bool.not_eq_false,Bool.not_eq_true] at heard
    split
    · cases quiet
    · rename_i payload
      have listening : slot.peerTerminal = false := by
        cases ended : slot.peerTerminal with
        | false => rfl
        | true => exact absurd (heard ended).2 Bool.false_ne_true
      have enough := room payload rfl listening
      have short : payload.length % 2^32 = payload.length := by
        have whole := fits.whole
        simp only [encodeFrame,encodeBody,List.length_cons] at whole
        have cap : maxFrameBytes < 2^32 := by decide
        exact Nat.mod_eq_of_lt (by omega)
      unfold Multiplexer.recvBody
      rw [short,if_neg (not_lt.mpr enough)]
      refine ⟨kept.seat (kept.busy seated (.inl ?_)) inside generation queue,_,[payload],.body payload listening enough,rfl,?_,?_⟩
      · rw [isClosed,listening]
        rfl
      · simp only [chunks,List.filterMap_cons,List.filterMap_nil,List.map_cons,List.map_nil,
          keyAt,Multiplexer.generation,seat_same,Option.map_some,Option.getD_some]
      · intro _ code listed
        rw [List.mem_singleton] at listed
        cases listed
    · rename_i status trailer
      have listening : slot.peerTerminal = false := by
        cases ended : slot.peerTerminal with
        | false => rfl
        | true => exact absurd (heard ended).2 Bool.false_ne_true
      have ended : Kept slots window role (mux.seat idx { slot with peerTerminal := true }) :=
        kept.seat (kept.busy seated (.inl (by rw [isClosed,listening]; rfl))) inside generation queue
      obtain ⟨freed,same⟩ := @Kept.maybeFreeSlot _ _ _ _ idx ended
      obtain ⟨cleaned,same'⟩ := @Kept.cleanUp _ _ _ _ idx freed
      unfold Multiplexer.recvEnd
      dsimp only
      refine ⟨?_,_,[],.ended status trailer listening,?_,rfl,fun body => absurd body Bool.false_ne_true⟩
      · split
        · exact cleaned
        · exact freed
      · split
        · exact same'.trans same
        · exact same
    · rename_i code
      have standing : slot.isClosed = false := by
        cases closed : slot.isClosed with
        | false => rfl
        | true =>
          simp only [isClosed,Bool.and_eq_true] at closed
          exact absurd ((heard closed.1).1.symm.trans closed.2) Bool.false_ne_true
      have dropped : Kept slots window role (mux.seat idx { slot with peerTerminal := true, localTerminal := true, sendQueue := [] }) :=
        kept.seat (kept.busy seated (.inl standing)) inside generation fun _ listed => absurd listed List.not_mem_nil
      obtain ⟨freed,same⟩ := @Kept.maybeFreeSlot _ _ _ _ idx dropped
      obtain ⟨cleaned,same'⟩ := @Kept.cleanUp _ _ _ _ idx freed
      exact ⟨cleaned,_,[],.reset code standing,same'.trans same,rfl,fun body => absurd body Bool.false_ne_true⟩
    · rename_i additional
      have standing : slot.isClosed = false := by
        cases closed : slot.isClosed with
        | false => rfl
        | true =>
          simp only [isClosed,Bool.and_eq_true] at closed
          exact absurd ((heard closed.1).1.symm.trans closed.2) Bool.false_ne_true
      exact ⟨kept.seat (kept.busy seated (.inl standing)) inside generation queue,_,[],
        .credit additional standing,rfl,rfl,fun body => absurd body Bool.false_ne_true⟩

end Multiplexer

end Hellas.Wire
