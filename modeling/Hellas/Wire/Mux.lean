import Mathlib.Logic.Function.Basic
import Hellas.Wire.Frame

-- The multiplexer without its I/O: slots that carry streams, one generation after another, with
-- credit for each direction.

namespace Hellas.Wire

open Guard Words

def slotQueueCap : Nat := 4

inductive Role where
  | client
  | server
  deriving DecidableEq

namespace Role

def parity : Role → Nat
  | .client => 0
  | .server => 1

def ownsSlot (role : Role) (idx : Nat) : Bool := idx % 2 = role.parity

end Role

structure StreamSlot where
  generation : Nat
  methodId : UInt32
  peerRecvCredit : Nat
  localRecvCredit : Nat
  localCreditHighWater : Nat
  sendQueue : List Frame
  peerTerminal : Bool
  localTerminal : Bool
  deriving DecidableEq

def Frame.isBody : Frame → Bool
  | .body _ => true
  | _ => false

def Frame.isTerminal : Frame → Bool
  | .endFrame .. | .reset _ => true
  | _ => false

-- What may still reach a stream whose peer has ended its own half.
def Frame.afterEnd : Frame → Bool
  | .credit _ | .reset _ => true
  | _ => false

inductive Event where
  | newIncomingStream (slot : Nat) (methodId : UInt32) (headers : Metadata)
  | bodyChunk (slot : Nat) (payload : List UInt8)
  | endStream (slot : Nat) (trailer : Trailer)
  | resetStream (slot : Nat) (code : WireCode)
  | peerCredit (slot additionalBytes : Nat)
  deriving DecidableEq

inductive MuxError where
  | atCapacity
  | slotClosed (slot : Nat)
  | bodyTooLarge (len limit : Nat)
  | frame (reason : FrameError)
  | protocol (reason : String)
  deriving DecidableEq

inductive SendBodyOutcome where
  | accepted
  | blocked (payload : List UInt8)
  deriving DecidableEq

def saturatingAdd32 (left right : Nat) : Nat := min (left + right) (2^32 - 1)

namespace StreamSlot

def openSlot (methodId : UInt32) (streamWindow : Nat) : StreamSlot := ⟨0,methodId,streamWindow,streamWindow,streamWindow,[],false,false⟩

def isClosed (slot : StreamSlot) : Bool := slot.peerTerminal && slot.localTerminal

-- Credit already waiting to be sent takes the new bytes in; otherwise it goes ahead of everything.
def addCredit (bytes : Nat) : List Frame → Option (List Frame)
  | [] => none
  | .credit waiting :: rest => some (.credit (saturatingAdd32 waiting bytes) :: rest)
  | frame :: rest => (addCredit bytes rest).map (frame :: ·)

def returnCredit (bytes : Nat) (queue : List Frame) : List Frame := (addCredit bytes queue).getD (.credit bytes :: queue)

def trySendBody (slot : StreamSlot) (idx : Nat) (payload : List UInt8) :
    Except MuxError (StreamSlot × SendBodyOutcome) :=
  if slot.localTerminal then .error (.slotClosed idx)
  else if slot.peerRecvCredit < payload.length then .ok (slot, .blocked payload)
  else if slot.sendQueue.any Frame.isBody then .ok (slot, .blocked payload)
  else if slotQueueCap ≤ slot.sendQueue.length then .error (.protocol "send queue full")
  else .ok ({ slot with
    peerRecvCredit := slot.peerRecvCredit - payload.length
    sendQueue := slot.sendQueue ++ [.body payload] }, .accepted)

def closeSend (slot : StreamSlot) (trailer : Option Trailer) : Except MuxError StreamSlot :=
  if slot.localTerminal then .ok slot
  else if slotQueueCap ≤ slot.sendQueue.length then .error (.protocol "close while queue full")
  else .ok { slot with
    localTerminal := true
    sendQueue := slot.sendQueue ++ [.endFrame (trailer.getD .default).status (trailer.getD .default)] }

def reset (slot : StreamSlot) (code : WireCode) : StreamSlot :=
  if slot.localTerminal && slot.peerTerminal then slot
  else { slot with localTerminal := true, peerTerminal := true, sendQueue := [.reset code] }

def consume (slot : StreamSlot) (bytes : Nat) : Except MuxError StreamSlot :=
  if slot.peerTerminal then .ok slot
  else if slot.localCreditHighWater - slot.localRecvCredit < bytes then
    .error (.protocol "consumed more body bytes than received")
  else .ok { slot with
    localRecvCredit := slot.localRecvCredit + bytes
    sendQueue := returnCredit bytes slot.sendQueue }

end StreamSlot

structure Multiplexer where
  slots : Nat
  streams : Nat → Option StreamSlot
  free : Nat → Bool
  role : Role
  pendingWrite : Option (List UInt8)
  pendingTerminalFree : List Nat
  rr : Nat
  streamWindow : Nat

namespace Multiplexer

-- Slot numbers are sixteen bits wide, whatever the size of the table.
def new (role : Role) (slots streamWindow : Nat) : Multiplexer where
  slots := slots
  streams := fun _ => none
  free := fun idx => decide (idx < slots % 2^16) && role.ownsSlot idx
  role := role
  pendingWrite := none
  pendingTerminalFree := []
  rr := 0
  streamWindow := streamWindow

def generation (mux : Multiplexer) (idx : Nat) : Option Nat := (mux.streams idx).map StreamSlot.generation

def lowestFree (mux : Multiplexer) : Option Nat := (List.range mux.slots).find? mux.free

def seat (mux : Multiplexer) (idx : Nat) (slot : StreamSlot) : Multiplexer :=
  { mux with streams := Function.update mux.streams idx (some slot) }

def markUsed (mux : Multiplexer) (idx : Nat) : Multiplexer := { mux with free := Function.update mux.free idx false }

def markFree (mux : Multiplexer) (idx : Nat) : Multiplexer :=
  if mux.role.ownsSlot idx then { mux with free := Function.update mux.free idx true } else mux

-- A slot is given back once both halves ended and nothing is left to send.
def maybeFreeSlot (mux : Multiplexer) (idx : Nat) : Multiplexer × Bool :=
  match mux.streams idx with
  | none => (mux, false)
  | some slot =>
    if slot.isClosed = false then (mux, false)
    else if slot.sendQueue ≠ [] then (mux, false)
    else (mux.markFree idx, true)

def drainOne (mux : Multiplexer) (idx : Nat) : Multiplexer :=
  if (mux.maybeFreeSlot idx).2 then (mux.maybeFreeSlot idx).1
  else { mux with pendingTerminalFree := mux.pendingTerminalFree ++ [idx] }

def drainPendingTerminalFree (mux : Multiplexer) : Multiplexer :=
  mux.pendingTerminalFree.foldl drainOne { mux with pendingTerminalFree := [] }

def cleanUpAfterRemoteFree (mux : Multiplexer) (idx : Nat) : Multiplexer :=
  { mux with
    pendingTerminalFree := mux.pendingTerminalFree.filter (· ≠ idx)
    pendingWrite := mux.pendingWrite.filter fun bytes => ¬(4 ≤ bytes.length ∧ fromBigEndian (bytes.take 2) = idx) }

-- A slot used before carries its generation on.
def nextGeneration (mux : Multiplexer) (idx : Nat) : Nat := ((mux.generation idx).getD 0 + 1) % 2^16

def openStream (mux : Multiplexer) (methodId : UInt32) (headers : Metadata) :
    Multiplexer × Except MuxError Nat :=
  let drained := mux.drainPendingTerminalFree
  match drained.lowestFree with
  | none => (drained, .error .atCapacity)
  | some idx =>
    ((drained.seat idx { StreamSlot.openSlot methodId drained.streamWindow with
      generation := drained.nextGeneration idx
      sendQueue := [.openFrame methodId headers] }).markUsed idx, .ok idx)

def trySendBody (mux : Multiplexer) (idx : Nat) (payload : List UInt8) :
    Except MuxError (Multiplexer × SendBodyOutcome) :=
  if mux.streamWindow < payload.length then
    .error (.bodyTooLarge payload.length mux.streamWindow)
  else
    match mux.streams idx with
    | none => .error (.protocol "send on empty slot")
    | some slot => (slot.trySendBody idx payload).map fun done => (mux.seat idx done.1, done.2)

def closeSend (mux : Multiplexer) (idx : Nat) (trailer : Option Trailer) :
    Except MuxError Multiplexer :=
  match mux.streams idx with
  | none => .error (.protocol "close on empty slot")
  | some slot => (slot.closeSend trailer).map (mux.seat idx)

def reset (mux : Multiplexer) (idx : Nat) (code : WireCode) : Multiplexer :=
  match mux.streams idx with
  | none => mux
  | some slot => mux.seat idx (slot.reset code)

def consume (mux : Multiplexer) (idx bytes : Nat) : Except MuxError Multiplexer :=
  if bytes = 0 then .ok mux
  else
    match mux.streams idx with
    | none => .ok mux
    | some slot => (slot.consume bytes).map (mux.seat idx)

-- A frame that ends the stream, or is the last one of a stream that ended, frees its slot later.
def defers (slot : StreamSlot) (frame : Frame) (rest : List Frame) : Bool :=
  frame.isTerminal || (slot.localTerminal && slot.peerTerminal && rest.isEmpty)

def emit (mux : Multiplexer) (idx : Nat) (slot : StreamSlot) (frame : Frame) (rest : List Frame) :
    Multiplexer × Option KeyedFrame :=
  let popped := mux.seat idx { slot with sendQueue := rest }
  (if defers slot frame rest ∧ idx ∉ mux.pendingTerminalFree then
      { popped with pendingTerminalFree := mux.pendingTerminalFree ++ [idx] }
    else popped,
    some ⟨⟨idx,slot.generation⟩,frame⟩)

-- The slots take turns; each is asked once.
def scan : Nat → Multiplexer → Multiplexer × Option KeyedFrame
  | 0, mux => (mux, none)
  | left + 1, mux =>
    let idx := mux.rr
    let turned := { mux with rr := (mux.rr + 1) % (mux.slots % 2^16) }
    match turned.streams idx with
    | none => scan left turned
    | some slot =>
      match slot.sendQueue with
      | [] => scan left turned
      | frame :: rest => turned.emit idx slot frame rest

def nextOutbound (mux : Multiplexer) : Multiplexer × Option (List UInt8) :=
  match mux.pendingWrite with
  | some pending => ({ mux with pendingWrite := none }, some pending)
  | none =>
    let shipped := scan mux.slots mux.drainPendingTerminalFree
    (shipped.1, shipped.2.map encodeKeyedFrame)

def recvOpen (mux : Multiplexer) (key : StreamKey) (methodId : UInt32) (headers : Metadata) :
    Except MuxError (Multiplexer × List Event) := do
  rejectIf (mux.role.ownsSlot key.streamId = true) (.protocol "peer opened a slot owned by our parity")
  rejectIf ((mux.streams key.streamId).any fun existing => existing.isClosed = false)
    (.protocol "peer re-opened active slot")
  rejectIf (mux.generation key.streamId = some key.generation) (.protocol "peer reused slot without bumping generation")
  pure ((mux.seat key.streamId { StreamSlot.openSlot methodId mux.streamWindow with
    generation := key.generation }).cleanUpAfterRemoteFree key.streamId,
    [.newIncomingStream key.streamId methodId headers])

def recvBody (mux : Multiplexer) (idx : Nat) (slot : StreamSlot) (payload : List UInt8) :
    Multiplexer × List Event :=
  if slot.localRecvCredit < payload.length % 2^32 then
    (mux.seat idx { slot with
      peerTerminal := true, localTerminal := true, sendQueue := [.reset .resourceExhausted] },
      [.resetStream idx .resourceExhausted])
  else
    (mux.seat idx { slot with
      localRecvCredit := slot.localRecvCredit - payload.length % 2^32 },
      [.bodyChunk idx payload])

def recvEnd (mux : Multiplexer) (idx : Nat) (slot : StreamSlot) (trailer : Trailer) :
    Multiplexer × List Event :=
  let ended := (mux.seat idx { slot with peerTerminal := true }).maybeFreeSlot idx
  (if ended.2 then ended.1.cleanUpAfterRemoteFree idx else ended.1, [.endStream idx trailer])

def recvReset (mux : Multiplexer) (idx : Nat) (slot : StreamSlot) (code : WireCode) :
    Multiplexer × List Event :=
  let dropped := mux.seat idx { slot with
    peerTerminal := true, localTerminal := true, sendQueue := [] }
  ((dropped.maybeFreeSlot idx).1.cleanUpAfterRemoteFree idx, [.resetStream idx code])

-- A frame for the stream that is seated.
def recvSeated (mux : Multiplexer) (idx : Nat) (slot : StreamSlot) (frame : Frame) :
    Multiplexer × List Event :=
  if slot.peerTerminal && (slot.localTerminal || !frame.afterEnd) then (mux, [])
  else
    match frame with
    | .openFrame .. => (mux, [])
    | .body payload => mux.recvBody idx slot payload
    | .endFrame _ trailer => mux.recvEnd idx slot trailer
    | .reset code => mux.recvReset idx slot code
    | .credit additional =>
      (mux.seat idx { slot with
        peerRecvCredit := saturatingAdd32 slot.peerRecvCredit additional },
        [.peerCredit idx additional])

def recvFrame (mux : Multiplexer) (keyed : KeyedFrame) : Except MuxError (Multiplexer × List Event) :=
  if mux.slots ≤ keyed.key.streamId then .error (.protocol "stream id out of range")
  else
    match keyed.frame with
    | .openFrame methodId headers => mux.recvOpen keyed.key methodId headers
    | frame =>
      match mux.streams keyed.key.streamId with
      | none => .ok (mux, [])
      | some slot =>
        if slot.generation ≠ keyed.key.generation then .ok (mux, [])
        else .ok (mux.recvSeated keyed.key.streamId slot frame)

def recv (mux : Multiplexer) (bytes : List UInt8) : Except MuxError (Multiplexer × List Event) := do
  let keyed ← (decodeKeyedFrame bytes).mapError .frame
  mux.recvFrame keyed

end Multiplexer

end Hellas.Wire
