import Mathlib.Algebra.Order.Ring.Nat
import Hellas.Wire.Mux

-- One direction of one stream: what its sender may still send, what is under way and what its
-- receiver still has room for.

namespace Hellas.Wire

abbrev Tagged := Nat × Frame

abbrev Payload := List UInt8

def bodyOf (key : Nat) : Tagged → Option Payload
  | (tag, .body payload) => if tag = key then some payload else none
  | _ => none

def creditOf (key : Nat) : Tagged → Nat
  | (tag, .credit bytes) => if tag = key then bytes else 0
  | _ => 0

def payloads (key : Nat) (way : List Tagged) : List Payload := way.filterMap (bodyOf key)

def load (key : Nat) (way : List Tagged) : Nat := ((payloads key way).map List.length).sum

def credit (key : Nat) (way : List Tagged) : Nat := (way.map (creditOf key)).sum

section Measures

variable {key tag : Nat} {frame : Frame} {way : List Tagged}

@[simp] theorem payloads_nil : payloads key [] = [] := rfl
@[simp] theorem load_nil : load key [] = 0 := rfl
@[simp] theorem credit_nil : credit key [] = 0 := rfl

@[simp] theorem payloads_append : payloads key (way ++ more) = payloads key way ++ payloads key more := List.filterMap_append

@[simp] theorem load_append : load key (way ++ more) = load key way + load key more := by
  simp [load]

@[simp] theorem credit_append : credit key (way ++ more) = credit key way + credit key more := by
  simp [credit]

theorem payloads_cons : payloads key ((tag, frame) :: way) = (bodyOf key (tag, frame)).toList ++ payloads key way := by
  cases held : bodyOf key (tag, frame) <;> simp [payloads,held]

theorem load_cons : load key ((tag, frame) :: way) = ((bodyOf key (tag, frame)).map List.length).getD 0 + load key way := by
  cases held : bodyOf key (tag, frame) <;> simp [load,payloads_cons,held]

theorem credit_cons : credit key ((tag, frame) :: way) = creditOf key (tag, frame) + credit key way := by
  simp [credit]

theorem bodyOf_other (other : tag ≠ key) : bodyOf key (tag, frame) = none := by
  cases frame with
  | body payload => exact if_neg other
  | _ => rfl

theorem creditOf_other (other : tag ≠ key) : creditOf key (tag, frame) = 0 := by
  cases frame with
  | credit bytes => exact if_neg other
  | _ => rfl

theorem cons_other (other : tag ≠ key) :
    payloads key ((tag, frame) :: way) = payloads key way ∧ load key ((tag, frame) :: way) = load key way ∧
      credit key ((tag, frame) :: way) = credit key way := by
  rw [payloads_cons,load_cons,credit_cons,bodyOf_other other,creditOf_other other]
  simp

theorem all_other (others : ∀ sent ∈ way, sent.1 ≠ key) :
    payloads key way = [] ∧ load key way = 0 ∧ credit key way = 0 := by
  induction way with
  | nil => exact ⟨rfl,rfl,rfl⟩
  | cons sent way ih =>
    rw [List.forall_mem_cons] at others
    obtain ⟨bodies,bytes,returned⟩ := @cons_other key sent.1 sent.2 way others.1
    obtain ⟨bodies',bytes',returned'⟩ := ih others.2
    exact ⟨bodies.trans bodies',bytes.trans bytes',returned.trans returned'⟩

end Measures

namespace StreamSlot

def tagged (slot : StreamSlot) : List Tagged := slot.sendQueue.map fun frame => (slot.generation, frame)

theorem tagged_tag {slot : StreamSlot} : ∀ sent ∈ slot.tagged, sent.1 = slot.generation := by
  intro sent listed
  obtain ⟨frame,-,rfl⟩ := List.mem_map.mp listed
  rfl

-- What a stream's own side may do to it, with the bodies it took.
inductive Acted (slot : StreamSlot) : StreamSlot → List Payload → Prop where
  | sent (payload : Payload) : slot.localTerminal = false →
      payload.length ≤ slot.peerRecvCredit →
      Acted slot { slot with
        peerRecvCredit := slot.peerRecvCredit - payload.length
        sendQueue := slot.sendQueue ++ [.body payload] } [payload]
  | ended (trailer : Trailer) : slot.localTerminal = false →
      Acted slot { slot with
        localTerminal := true
        sendQueue := slot.sendQueue ++ [.endFrame trailer.status trailer] } []
  | reset (code : WireCode) : slot.isClosed = false →
      Acted slot { slot with
        localTerminal := true, peerTerminal := true, sendQueue := [.reset code] } []
  | returned (bytes : Nat) : 0 < bytes → slot.peerTerminal = false →
      bytes ≤ slot.localCreditHighWater - slot.localRecvCredit →
      Acted slot { slot with
        localRecvCredit := slot.localRecvCredit + bytes
        sendQueue := returnCredit bytes slot.sendQueue } []

-- What a frame of its own generation does to a stream, with the bodies it hands on.
inductive Heard (slot : StreamSlot) : Frame → StreamSlot → List Payload → Prop where
  | ignored {frame : Frame} : slot.peerTerminal = true →
      (slot.localTerminal = true ∨ frame.afterEnd = false) → Heard slot frame slot []
  | body (payload : Payload) : slot.peerTerminal = false →
      payload.length ≤ slot.localRecvCredit →
      Heard slot (.body payload)
        { slot with localRecvCredit := slot.localRecvCredit - payload.length } [payload]
  | ended (status : WireCode) (trailer : Trailer) : slot.peerTerminal = false →
      Heard slot (.endFrame status trailer) { slot with peerTerminal := true } []
  | reset (code : WireCode) : slot.isClosed = false →
      Heard slot (.reset code) { slot with
        peerTerminal := true, localTerminal := true, sendQueue := [] } []
  | credit (bytes : Nat) : slot.isClosed = false →
      Heard slot (.credit bytes) { slot with
        peerRecvCredit := saturatingAdd32 slot.peerRecvCredit bytes } []

section Returned

variable {bytes : Nat} {queue : List Frame}

theorem returnCredit_cases : (∃ before waiting after, queue = before ++ .credit waiting :: after ∧
      returnCredit bytes queue = before ++ .credit (saturatingAdd32 waiting bytes) :: after) ∨
    returnCredit bytes queue = .credit bytes :: queue := by
  have found : ∀ queue, addCredit bytes queue = none ∨
      ∃ before waiting after, queue = before ++ .credit waiting :: after ∧ addCredit bytes queue =
          some (before ++ .credit (saturatingAdd32 waiting bytes) :: after) := by
    intro queue
    induction queue with
    | nil => exact .inl rfl
    | cons frame queue ih =>
      have later : (∀ waiting, frame ≠ .credit waiting) → addCredit bytes (frame :: queue) = (addCredit bytes queue).map (frame :: ·) := by
        intro other
        cases frame with
        | credit waiting => exact absurd rfl (other waiting)
        | _ => rfl
      by_cases waits : ∃ waiting, frame = .credit waiting
      · obtain ⟨waiting,rfl⟩ := waits
        exact .inr ⟨[],waiting,queue,rfl,rfl⟩
      · rw [later fun waiting same => waits ⟨waiting,same⟩]
        rcases ih with absent | ⟨before,waiting,after,rfl,carrying⟩
        · rw [absent]
          exact .inl rfl
        · rw [carrying]
          exact .inr ⟨frame :: before,waiting,after,rfl,rfl⟩
  unfold returnCredit
  rcases found queue with absent | ⟨before,waiting,after,same,carrying⟩
  · rw [absent]
    exact .inr rfl
  · rw [carrying]
    exact .inl ⟨before,waiting,after,same,rfl⟩

theorem returnCredit_measures {generation : Nat} :
    payloads generation ((returnCredit bytes queue).map fun frame => (generation, frame)) =
        payloads generation (queue.map fun frame => (generation, frame)) ∧
      (credit generation (queue.map fun frame => (generation, frame)) + bytes < 2^32 →
        credit generation ((returnCredit bytes queue).map fun frame => (generation, frame)) =
          credit generation (queue.map fun frame => (generation, frame)) + bytes) := by
  rcases @returnCredit_cases bytes queue with ⟨before,waiting,after,rfl,same⟩ | same
  · rw [same]
    constructor
    · simp [payloads_cons,bodyOf]
    · intro bound
      simp only [List.map_append,List.map_cons,credit_append,credit_cons,creditOf,if_pos] at bound ⊢
      unfold saturatingAdd32
      omega
  · rw [same]
    constructor
    · simp [payloads_cons,bodyOf]
    · intro bound
      simp only [List.map_cons,credit_cons,creditOf,if_pos]
      omega

end Returned

section Effects

variable {slot : StreamSlot} {key : Nat}

theorem Acted.generation (acted : Acted slot after taken) : after.generation = slot.generation := by
  cases acted <;> rfl

theorem tagged_other (other : slot.generation ≠ key) :
    payloads key slot.tagged = [] ∧ load key slot.tagged = 0 ∧ credit key slot.tagged = 0 :=
  all_other fun sent listed => by rw [tagged_tag sent listed]; exact other

theorem Acted.bodies (acted : Acted slot after taken) :
    (after.isClosed = true ∧ taken = [] ∧ payloads slot.generation after.tagged = []) ∨ (slot.isClosed = false ∧
        payloads slot.generation after.tagged = payloads slot.generation slot.tagged ++ taken ∧
        after.peerRecvCredit + (taken.map List.length).sum = slot.peerRecvCredit) := by
  cases acted with
  | sent payload live enough =>
    refine .inr ⟨by simp [isClosed,live],?_,?_⟩
    · simp [tagged,payloads_cons,bodyOf]
    · simp only [List.map_cons,List.map_nil,List.sum_cons,List.sum_nil]
      omega
  | ended trailer live =>
    refine .inr ⟨by simp [isClosed,live],?_,by simp⟩
    simp [tagged,payloads_cons,bodyOf]
  | reset code live => exact .inl ⟨rfl,rfl,rfl⟩
  | returned bytes returning live available =>
    refine .inr ⟨by simp [isClosed,live],?_,by simp⟩
    simpa [tagged] using returnCredit_measures.1

theorem Acted.room (acted : Acted slot after taken) :
    after.isClosed = true ∨ (after.peerTerminal = slot.peerTerminal ∧ ∃ bytes, after.localRecvCredit = slot.localRecvCredit + bytes ∧
        bytes ≤ slot.localCreditHighWater - slot.localRecvCredit ∧
        (credit slot.generation slot.tagged + bytes < 2^32 →
          credit slot.generation after.tagged = credit slot.generation slot.tagged + bytes)) := by
  cases acted with
  | sent payload live enough =>
    refine .inr ⟨rfl,0,rfl,Nat.zero_le _,fun _ => ?_⟩
    simp [tagged,credit_cons,creditOf]
  | ended trailer live =>
    refine .inr ⟨rfl,0,rfl,Nat.zero_le _,fun _ => ?_⟩
    simp [tagged,credit_cons,creditOf]
  | reset code live => exact .inl rfl
  | returned bytes returning live available => exact .inr ⟨rfl,bytes,rfl,available,returnCredit_measures.2⟩

theorem Heard.generation (heard : Heard slot frame after taken) : after.generation = slot.generation := by
  cases heard <;> rfl

end Effects

end StreamSlot

-- The receiver has room for all that is under way, which continues what it got; and as long as the
-- sender is on the same stream, the credit of both adds up.
def Flow (sender receiver : Option StreamSlot) (way back : List Tagged) (sent got : Nat → List Payload) : Prop :=
  ∀ slot, receiver = some slot → slot.peerTerminal = false → load slot.generation way ≤ slot.localRecvCredit ∧
    (got slot.generation ++ payloads slot.generation way) <+: sent slot.generation ∧
    ∀ other, sender = some other → other.generation = slot.generation → other.isClosed = false →
      slot.localRecvCredit = other.peerRecvCredit + load slot.generation way + credit slot.generation back ∧
      sent slot.generation = got slot.generation ++ payloads slot.generation way

def extend (log : Nat → List Payload) (key : Nat) (more : List Payload) : Nat → List Payload := Function.update log key (log key ++ more)

namespace Flow

variable {sent got : Nat → List Payload}

open StreamSlot

variable {log : Nat → List Payload}

@[simp] theorem extend_nil : extend log key [] = log := by
  simp [extend]

theorem extend_same : extend log key more key = log key ++ more := by
  simp [extend]

theorem extend_other (different : other ≠ key) : extend log key more other = log other := by
  simp [extend,different]

theorem sender_acts (flow : Flow (some slot) receiver (way ++ slot.tagged) back sent got) (acted : Acted slot after taken) :
    Flow (some after) receiver (way ++ after.tagged) back (extend sent slot.generation taken) got := by
  intro held seated live
  obtain ⟨room,continues,precise⟩ := flow held seated live
  rw [load_append] at room
  rw [payloads_append,← List.append_assoc] at continues
  by_cases same : slot.generation = held.generation
  · rw [← same] at room continues precise ⊢
    rcases acted.bodies with ⟨closed,rfl,empties⟩ | ⟨standing,bodies,paid⟩
    · have empty : load slot.generation after.tagged = 0 := by rw [load,empties]; rfl
      rw [extend_nil,load_append,payloads_append,empty,empties,List.append_nil]
      refine ⟨by omega,(List.prefix_append _ _).trans continues,fun other chosen _ listening => ?_⟩
      cases chosen
      rw [closed] at listening
      cases listening
    · obtain ⟨adds,whole⟩ := precise slot rfl rfl standing
      rw [load_append] at adds
      rw [payloads_append] at whole
      have bytes : load slot.generation after.tagged = load slot.generation slot.tagged + (taken.map List.length).sum := by
        simp [load,bodies]
      rw [extend_same,load_append,payloads_append,bodies,bytes,whole]
      refine ⟨by omega,?_,fun other chosen _ listening => ⟨?_,?_⟩⟩
      · simp
      · cases chosen
        omega
      · simp
  · obtain ⟨bodies,bytes,-⟩ := @tagged_other slot held.generation same
    obtain ⟨bodies',bytes',-⟩ := @tagged_other after held.generation (by rw [acted.generation]; exact same)
    rw [load_append,payloads_append,bodies',bytes',extend_other (Ne.symm same)]
    rw [bytes] at room
    rw [bodies,List.append_nil] at continues
    refine ⟨room,by simpa using continues,fun other chosen clash => ?_⟩
    cases chosen
    exact absurd (acted.generation.symm.trans clash) same

theorem receiver_acts (flow : Flow sender (some slot) way (back ++ slot.tagged) sent got)
    (acted : Acted slot after taken) (bounded : slot.localRecvCredit ≤ slot.localCreditHighWater)
    (small : slot.localCreditHighWater < 2^32) :
    Flow sender (some after) way (back ++ after.tagged) sent got := by
  intro held seated live
  cases seated
  rcases acted.room with cut | ⟨still,bytes,room,available,returned⟩
  · rw [isClosed,live] at cut
    cases cut
  · obtain ⟨enough,continues,precise⟩ := flow slot rfl (still.symm.trans live)
    rw [acted.generation,room]
    refine ⟨by omega,continues,fun other chosen same standing => ?_⟩
    obtain ⟨adds,whole⟩ := precise other chosen same standing
    rw [credit_append] at adds
    rw [credit_append,returned (by omega)]
    exact ⟨by omega,whole⟩

theorem receiver_hears (flow : Flow sender (some slot) ((slot.generation, frame) :: way) (back ++ slot.tagged) sent got)
    (heard : Heard slot frame after taken) :
    Flow sender (some after) way (back ++ after.tagged) sent (extend got slot.generation taken) := by
  intro held seated live
  cases seated
  cases heard with
  | ignored ended =>
    rw [ended] at live
    cases live
  | ended => cases live
  | reset => cases live
  | body payload listening enough =>
    obtain ⟨room,continues,precise⟩ := flow slot rfl listening
    simp only [load_cons,payloads_cons,bodyOf,if_true,Option.map_some,Option.getD_some,
      Option.toList_some,List.singleton_append] at room continues precise
    refine ⟨?_,?_,fun other chosen same standing => ?_⟩
    · change load slot.generation way ≤ slot.localRecvCredit - payload.length
      omega
    · change (extend got slot.generation [payload] slot.generation ++ _) <+: _
      rw [extend_same,List.append_assoc]
      exact continues
    · obtain ⟨adds,whole⟩ := precise other chosen same standing
      refine ⟨?_,?_⟩
      · change slot.localRecvCredit - payload.length = other.peerRecvCredit +
          load slot.generation way + credit slot.generation (back ++ slot.tagged)
        omega
      · change sent slot.generation = extend got slot.generation [payload] slot.generation ++ _
        rw [extend_same,List.append_assoc]
        exact whole
  | credit bytes standing =>
    obtain ⟨room,continues,precise⟩ := flow slot rfl live
    simp only [load_cons,payloads_cons,bodyOf,Option.map_none,Option.getD_none,Nat.zero_add,
      Option.toList_none,List.nil_append] at room continues precise
    rw [extend_nil]
    exact ⟨room,continues,precise⟩

theorem sender_hears (flow : Flow (some slot) receiver (way ++ slot.tagged) ((slot.generation, frame) :: back) sent got)
    (heard : Heard slot frame after taken) (small : ∀ held, receiver = some held → held.localRecvCredit < 2^32) :
    Flow (some after) receiver (way ++ after.tagged) back sent got := by
  intro held seated live
  obtain ⟨room,continues,precise⟩ := flow held seated live
  have bound := small held seated
  cases heard with
  | ignored ended rest =>
    refine ⟨room,continues,fun other chosen same standing => ?_⟩
    cases chosen
    obtain ⟨adds,whole⟩ := precise slot rfl same standing
    refine ⟨?_,whole⟩
    have uncounted : creditOf held.generation (slot.generation, frame) = 0 := by
      rcases rest with closed | late
      · rw [isClosed,ended,closed] at standing
        cases standing
      · cases frame with
        | credit bytes => cases late
        | _ => rfl
    rw [credit_cons,uncounted,Nat.zero_add] at adds
    exact adds
  | body payload listening enough =>
    refine ⟨room,continues,fun other chosen same standing => ?_⟩
    cases chosen
    obtain ⟨adds,whole⟩ := precise slot rfl same standing
    simp only [credit_cons,creditOf,Nat.zero_add] at adds
    exact ⟨adds,whole⟩
  | ended status trailer listening =>
    refine ⟨room,continues,fun other chosen same standing => ?_⟩
    cases chosen
    obtain ⟨adds,whole⟩ := precise slot rfl same (by rw [isClosed,listening]; rfl)
    simp only [credit_cons,creditOf,Nat.zero_add] at adds
    exact ⟨adds,whole⟩
  | reset code standing =>
    rw [load_append] at room
    rw [payloads_append,← List.append_assoc] at continues
    refine ⟨?_,?_,fun other chosen same closed => ?_⟩
    · simp only [tagged,List.map_nil,List.append_nil]
      omega
    · simp only [tagged,List.map_nil,List.append_nil]
      exact (List.prefix_append _ _).trans continues
    · cases chosen
      cases closed
  | credit bytes standing =>
    refine ⟨room,continues,fun other chosen same listening => ?_⟩
    cases chosen
    change slot.generation = held.generation at same
    obtain ⟨adds,whole⟩ := precise slot rfl same standing
    rw [credit_cons,creditOf,if_pos same] at adds
    refine ⟨?_,whole⟩
    change held.localRecvCredit = saturatingAdd32 slot.peerRecvCredit bytes +
      load held.generation (way ++ slot.tagged) + credit held.generation back
    unfold saturatingAdd32
    omega

theorem drop_way (flow : Flow sender receiver ((tag, frame) :: way) back sent got)
    (other : ∀ slot, receiver = some slot → slot.generation ≠ tag) :
    Flow sender receiver way back sent got := by
  intro held seated live
  obtain ⟨bodies,bytes,-⟩ := @cons_other held.generation tag frame way (Ne.symm (other held seated))
  have holds := flow held seated live
  rw [bodies,bytes] at holds
  exact holds

theorem drop_back (flow : Flow sender receiver way ((tag, frame) :: back) sent got)
    (other : ∀ slot, sender = some slot → slot.generation ≠ tag) :
    Flow sender receiver way back sent got := by
  intro held seated live
  obtain ⟨room,continues,precise⟩ := flow held seated live
  refine ⟨room,continues,fun slot chosen same standing => ?_⟩
  obtain ⟨-,-,returned⟩ := @cons_other held.generation tag frame back (same ▸ Ne.symm (other slot chosen))
  obtain ⟨adds,whole⟩ := precise slot chosen same standing
  rw [returned] at adds
  exact ⟨adds,whole⟩

end Flow

end Hellas.Wire
