import Hellas.Wire.Lane

-- A slot takes a new stream, and each end hears the next frame.

namespace Hellas.Wire

open StreamSlot Ends

namespace Lane

variable {window : Nat} {lane : Lane} {slot after : StreamSlot} {taken : List Payload}
  {tag : Nat} {frame : Frame} {rest : List Tagged} {methodId : UInt32} {headers : Metadata}

theorem ends_some : ends (some slot) = some ⟨slot.generation,slot.localTerminal,slot.peerTerminal⟩ := rfl

section Opening

def freshSlot (methodId : UInt32) (headers : Metadata) (window generation : Nat) : StreamSlot :=
  { StreamSlot.openSlot methodId window with
    generation := generation, sendQueue := [.openFrame methodId headers] }

-- The owner's slot holds no stream, or one that has ended and been sent out.
def Idle (seat : Option StreamSlot) : Prop := ∀ slot, seat = some slot → slot.isClosed = true ∧ slot.sendQueue = []

def ownerOpens (lane : Lane) (methodId : UInt32) (headers : Metadata) (window : Nat) : Lane :=
  { lane with owner := some (freshSlot methodId headers window (generationOf lane.owner + 1)) }

variable (sound : lane.Sound window) (idle : Idle lane.owner)

include idle in
theorem idle_onward : lane.onward = lane.out := by
  rw [onward]
  cases seated : lane.owner with
  | none => exact List.append_nil _
  | some slot =>
    rw [queued,tagged,(idle slot seated).2]
    exact List.append_nil _

theorem opened_onward : (lane.ownerOpens methodId headers window).onward =
    lane.out ++ [(generationOf lane.owner + 1, .openFrame methodId headers)] := rfl

-- Nothing the peer will have heard stands in the way of the new stream.
include sound idle in
theorem idle_vacant (heard : hears (ends lane.peer) lane.onward = some final)
    (agrees : ∀ slot, lane.owner = some slot → Matches slot final) :
    final.all (fun seated => seated.closed && seated.generation ≠ generationOf lane.owner + 1) = true := by
  have ordered := sound.ordered
  have low : ∀ seated, final = some seated → seated.generation ≤ generationOf lane.owner := by
    intro seated reached
    rw [reached] at heard
    rcases hears_generation heard with ⟨before,held,same⟩ | ⟨frame,-,listed⟩
    · obtain ⟨slot,chosen,rfl⟩ := Option.map_eq_some_iff.mp held
      have behind := ordered.behind
      rw [chosen] at behind
      rw [← same]
      exact behind
    · exact ordered.onward _ listed
  cases reached : final with
  | none => rfl
  | some last =>
    have below := low last reached
    have shut : last.closed = true := by
      cases seated : lane.owner with
      | none =>
        have peerless := ordered.unopened seated
        rw [reached,peerless] at heard
        rcases hears_generation heard with ⟨before,held,-⟩ | ⟨frame,opens,listed⟩
        · cases held
        · have above := ordered.opens _ listed opens
          rw [seated] at below
          change last.generation ≤ 0 at below
          have zero : generationOf lane.peer < last.generation := above
          omega
      | some slot =>
        have agree := agrees slot seated
        obtain ⟨ended,-⟩ := idle slot seated
        rw [reached] at agree
        unfold Matches at agree
        dsimp only at agree
        simp only [isClosed,Bool.and_eq_true] at ended
        split at agree
        · rw [closed,agree.1 ended.2,agree.2 ended.1]
          rfl
        · exact agree.1
    rw [Option.all_some,shut,Bool.true_and]
    exact decide_eq_true (by omega)

include sound idle in
theorem ownerOpens_ordered : (lane.ownerOpens methodId headers window).Ordered := by
  obtain ⟨onward,homeward,behind,opens,first,-⟩ := sound.ordered
  rw [idle_onward idle] at onward opens first
  refine ⟨?_,homeward,?_,?_,?_,fun vacant => nomatch vacant⟩
  · rw [opened_onward]
    intro sent listed
    change sent.1 ≤ generationOf lane.owner + 1
    rcases List.mem_append.mp listed with early | late
    · exact le_trans (onward sent early) (Nat.le_succ _)
    · rw [List.mem_singleton.mp late]
  · exact le_trans behind (Nat.le_succ _)
  · rw [opened_onward]
    intro sent listed listening
    rcases List.mem_append.mp listed with early | late
    · exact opens sent early listening
    · rw [List.mem_singleton.mp late]
      exact Nat.lt_succ_of_le behind
  · rw [opened_onward]
    refine List.pairwise_append.mpr ⟨first,List.pairwise_singleton _ _,?_⟩
    intro earlier listed later new _
    rw [List.mem_singleton.mp new]
    exact Nat.lt_succ_of_le (onward earlier listed)

include sound idle in
theorem ownerOpens_pending : (lane.ownerOpens methodId headers window).Pending window := by
  intro sent listed listening
  have onward := sound.ordered.onward
  rw [idle_onward idle] at onward
  have plain : ∀ key, load key (lane.ownerOpens methodId headers window).onward = load key lane.out ∧
      payloads key (lane.ownerOpens methodId headers window).onward = payloads key lane.out ∧
      credit key (lane.ownerOpens methodId headers window).onward = credit key lane.out := by
    intro key
    rw [opened_onward]
    simp [load_cons,payloads_cons,credit_cons,bodyOf,creditOf]
  obtain ⟨bytes,bodies,returned⟩ := plain sent.1
  rw [bytes,bodies,returned]
  rw [opened_onward] at listed
  rcases List.mem_append.mp listed with early | late
  · have pending := sound.pending sent (by rw [idle_onward idle]; exact early) listening
    rw [idle_onward idle] at pending
    refine ⟨pending.1,pending.2.1,fun held same own => ?_⟩
    cases same
    have below := onward sent early
    change generationOf lane.owner + 1 = sent.1 at own
    omega
  · rw [List.mem_singleton.mp late]
    obtain ⟨silence,zero,unreturned⟩ := @all_other (generationOf lane.owner + 1) lane.out
      fun sent listed => by have := onward sent listed; omega
    rw [silence,zero,unreturned]
    refine ⟨Nat.zero_le _, List.nil_prefix,fun held same _ _ => ?_⟩
    cases same
    exact ⟨rfl,sound.logged.owner _ (Nat.lt_succ_self _),rfl,rfl⟩

include sound idle in
theorem ownerOpens_sound : (lane.ownerOpens methodId headers window).Sound window := by
  obtain ⟨final,heard,agrees⟩ := sound.ahead
  have ordered := sound.ordered
  refine ⟨ownerOpens_ordered sound idle,?_,?_,?_,?_,ownerOpens_pending sound idle,?_,?_⟩
  · have vacant := idle_vacant sound idle heard agrees
    refine ⟨some ⟨generationOf lane.owner + 1,false,false⟩,?_,fun held same => ?_⟩
    · rw [idle_onward idle] at heard
      change hears (ends lane.peer) _ = _
      rw [opened_onward,hears_snoc,heard]
      exact (hear_open rfl).mpr ⟨vacant,rfl⟩
    · cases same
      exact (if_pos rfl).mpr ⟨fun ended => absurd ended Bool.false_ne_true,
        fun ended => absurd ended Bool.false_ne_true⟩
  · intro sent listed own _
    have below := (ordered.homeward sent listed).1
    have behind := ordered.behind
    change sent.1 = generationOf lane.owner + 1 at own
    omega
  · intro held chosen live
    have behind := ordered.behind
    change lane.peer = some held at chosen
    rw [chosen] at behind
    change held.generation ≤ _ at behind
    have flow := sound.outward held chosen live
    rw [idle_onward idle] at flow
    rw [opened_onward]
    simp only [load_append,load_cons,payloads_append,payloads_cons,bodyOf,Option.map_none,
      Option.getD_none,Option.toList_none,load_nil,payloads_nil,List.append_nil,Nat.add_zero]
    refine ⟨flow.1,flow.2.1,fun other same own => ?_⟩
    cases same
    change generationOf lane.owner + 1 = held.generation at own
    omega
  · intro held chosen live
    cases chosen
    change load (generationOf lane.owner + 1) lane.homeward ≤ window ∧ (lane.ownerGot (generationOf lane.owner + 1) ++
        payloads (generationOf lane.owner + 1) lane.homeward) <+: _ ∧ _
    have behind := ordered.behind
    obtain ⟨silence,zero,-⟩ := @all_other (generationOf lane.owner + 1) lane.homeward
      fun sent listed => by have := (ordered.homeward sent listed).1; omega
    rw [silence,zero,List.append_nil]
    refine ⟨Nat.zero_le _,sound.logged.homeward _,fun other chosen own => ?_⟩
    change lane.peer = some other at chosen
    rw [chosen] at behind
    change other.generation = generationOf lane.owner + 1 at own
    change other.generation ≤ _ at behind
    omega
  · obtain ⟨owner,peer,onward,homeward⟩ := sound.logged
    exact ⟨fun key above => owner key (Nat.lt_of_succ_lt above),peer,onward,homeward⟩
  · intro held chosen
    rcases chosen with mine | theirs
    · cases mine
      exact ⟨Nat.le_refl _,rfl⟩
    · exact sound.bounded held (.inr theirs)

end Opening

section PeerOpens

variable (sound : lane.Sound window) (arrives : lane.out = (tag, .openFrame methodId headers) :: rest)

def peerOpens (lane : Lane) (tag : Nat) (methodId : UInt32) (window : Nat) (rest : List Tagged) :
    Lane :=
  { lane with
    peer := some { StreamSlot.openSlot methodId window with generation := tag }
    out := rest }

include arrives in
theorem arriving : lane.onward = (tag, .openFrame methodId headers) :: (rest ++ queued lane.owner) := by
  rw [onward,arrives,List.cons_append]

-- A stream arrives where none stands, under a generation of its own.
include sound arrives in
theorem peerOpens_vacant : ∀ slot, lane.peer = some slot → slot.isClosed = true ∧ slot.generation ≠ tag := by
  intro slot seated
  obtain ⟨final,heard,-⟩ := sound.ahead
  rw [arriving arrives,hears_cons,seated] at heard
  obtain ⟨next,first,-⟩ := Option.bind_eq_some_iff.mp heard
  obtain ⟨vacant,-⟩ := (hear_open rfl).mp first
  simp only [ends_some,Option.all_some,closed,Bool.and_eq_true,decide_eq_true_eq] at vacant
  exact ⟨by rw [isClosed,vacant.1.1,vacant.1.2]; rfl,vacant.2⟩

include sound arrives in
theorem arriving_above : generationOf lane.peer < tag ∧ tag ≤ generationOf lane.owner := by
  have listed : (tag, Frame.openFrame methodId headers) ∈ lane.onward := by
    rw [arriving arrives]
    exact List.mem_cons_self
  exact ⟨sound.ordered.opens _ listed rfl,sound.ordered.onward _ listed⟩

include sound in
theorem back_below : ∀ sent ∈ lane.back, sent.1 ≤ generationOf lane.peer ∧ sent.2.isOpen = false :=
  fun sent listed => sound.ordered.homeward sent (List.mem_append_left _ listed)

include sound arrives in
theorem peerOpens_ordered : (lane.peerOpens tag methodId window rest).Ordered := by
  obtain ⟨onward,-,-,-,first,unopened⟩ := sound.ordered
  obtain ⟨above,below⟩ := arriving_above sound arrives
  rw [arriving arrives] at onward first
  rw [List.forall_mem_cons] at onward
  rw [List.pairwise_cons] at first
  refine ⟨onward.2,?_,below,fun sent listed listening => first.1 sent listed listening,first.2,?_⟩
  · intro sent listed
    change sent ∈ lane.back ++ [] at listed
    rw [List.append_nil] at listed
    obtain ⟨low,quiet⟩ := back_below sound sent listed
    exact ⟨le_trans low (le_of_lt above),quiet⟩
  · intro ownerless
    change lane.owner = none at ownerless
    rw [ownerless] at below
    change tag ≤ 0 at below
    omega

include sound arrives in
theorem peerOpens_sound : (lane.peerOpens tag methodId window rest).Sound window := by
  obtain ⟨final,heard,agrees⟩ := sound.ahead
  obtain ⟨above,below⟩ := arriving_above sound arrives
  have fresh := sound.logged.peer tag above
  have home : (lane.peerOpens tag methodId window rest).homeward = lane.back := List.append_nil _
  have way : (lane.peerOpens tag methodId window rest).onward = rest ++ queued lane.owner := rfl
  have plain : ∀ key, load key lane.onward = load key (rest ++ queued lane.owner) ∧
      payloads key lane.onward = payloads key (rest ++ queued lane.owner) ∧
      credit key lane.onward = credit key (rest ++ queued lane.owner) := by
    intro key
    rw [arriving arrives,load_cons,payloads_cons,credit_cons]
    simp only [bodyOf,creditOf,Option.map_none,Option.getD_none,Option.toList_none,List.nil_append,Nat.zero_add,and_self]
  have silent : ∀ key, generationOf lane.peer < key → payloads key lane.back = [] ∧ load key lane.back = 0 ∧ credit key lane.back = 0 :=
    fun key higher => all_other fun sent listed => by
      have := (back_below sound sent listed).1
      omega
  obtain ⟨room,continues,precise⟩ := sound.pending (tag, .openFrame methodId headers)
    (by rw [arriving arrives]; exact List.mem_cons_self) rfl
  obtain ⟨bytes,bodies,returned⟩ := plain tag
  rw [bytes] at room
  rw [bodies] at continues
  rw [bytes,bodies,returned] at precise
  refine ⟨peerOpens_ordered sound arrives,?_,?_,?_,?_,?_,?_,?_⟩
  · refine ⟨final,?_,agrees⟩
    rw [arriving arrives,hears_cons] at heard
    obtain ⟨next,first,later⟩ := Option.bind_eq_some_iff.mp heard
    obtain ⟨-,rfl⟩ := (hear_open rfl).mp first
    exact later
  · intro sent listed own
    rw [home] at listed
    have low := (back_below sound sent listed).1
    change sent.1 = generationOf lane.owner at own
    omega
  · rw [way,home]
    intro held chosen live
    cases chosen
    obtain ⟨-,-,unreturned⟩ := silent tag above
    change load tag (rest ++ queued lane.owner) ≤ window ∧
      (lane.peerGot tag ++ payloads tag (rest ++ queued lane.owner)) <+: lane.ownerSent tag ∧
      ∀ other, lane.owner = some other → other.generation = tag → other.isClosed = false →
        window = other.peerRecvCredit + load tag (rest ++ queued lane.owner) + credit tag lane.back ∧
        lane.ownerSent tag = lane.peerGot tag ++ payloads tag (rest ++ queued lane.owner)
    rw [fresh.2,List.nil_append,unreturned]
    refine ⟨room,continues,fun other same own standing => ?_⟩
    obtain ⟨adds,whole,-⟩ := precise other same own standing
    exact ⟨adds.symm,whole⟩
  · rw [way,home]
    intro held chosen live
    change lane.owner = some held at chosen
    have own : generationOf lane.owner = held.generation := generation_eq chosen
    obtain ⟨silence,zero,-⟩ := silent held.generation (by omega)
    have got := sound.logged.homeward held.generation
    rw [silence,zero,List.append_nil]
    refine ⟨Nat.zero_le _,got,fun other same equal standing => ?_⟩
    cases same
    change tag = held.generation at equal
    obtain ⟨-,-,full,unreturned⟩ := precise held chosen equal.symm (by rw [isClosed,live]; rfl)
    rw [← equal] at got ⊢
    change lane.ownerGot tag <+: lane.peerSent tag at got
    change held.localRecvCredit = window + 0 + credit tag (rest ++ queued lane.owner) ∧ lane.peerSent tag = lane.ownerGot tag
    rw [fresh.1] at got ⊢
    exact ⟨by omega,(List.prefix_nil.mp got).symm⟩
  · unfold Pending
    rw [way]
    intro sent listed listening
    obtain ⟨bytes,bodies,returned⟩ := plain sent.1
    have pending := sound.pending sent (by rw [arriving arrives]; exact List.mem_cons_of_mem _ listed)
      listening
    rw [bytes,bodies,returned] at pending
    exact pending
  · obtain ⟨owner,peer,onward,homeward⟩ := sound.logged
    exact ⟨owner,fun key higher => peer key (lt_trans above higher),onward,homeward⟩
  · intro held chosen
    rcases chosen with mine | theirs
    · exact sound.bounded held (.inl mine)
    · cases theirs
      exact ⟨Nat.le_refl _,rfl⟩

end PeerOpens

section Heard

variable (heard : Heard slot frame after taken)

include heard in
theorem heard_tagged : after.tagged = slot.tagged ∨ after.tagged = [] := by
  cases heard with
  | reset => exact .inr rfl
  | _ => exact .inl rfl

include heard in
theorem heard_listed (listed : sent ∈ after.tagged) : sent ∈ slot.tagged := by
  rcases heard_tagged heard with same | empties
  · exact same ▸ listed
  · rw [empties] at listed
    cases listed

include heard in
theorem heard_ends :
    ends (some after) = some (touch slot.generation frame ⟨slot.generation,slot.localTerminal,slot.peerTerminal⟩) := by
  unfold touch
  rw [if_pos rfl,ends_some,heard.generation]
  cases heard with
  | ignored ended rest =>
    rcases rest with closed | late
    · simp [ended,closed]
    · cases frame <;> simp_all [Frame.afterEnd,Frame.isReset]
  | body => simp [Frame.isReset,Frame.isTerminal]
  | ended => simp [Frame.isReset,Frame.isTerminal]
  | reset => simp [Frame.isReset,Frame.isTerminal]
  | credit => simp [Frame.isReset,Frame.isTerminal]

include heard in
theorem heard_bounded (bounded : slot.localRecvCredit ≤ window ∧ slot.localCreditHighWater = window) :
    after.localRecvCredit ≤ window ∧ after.localCreditHighWater = window := by
  cases heard with
  | body payload =>
    refine ⟨?_,bounded.2⟩
    change slot.localRecvCredit - payload.length ≤ window
    omega
  | _ => exact bounded

variable {sender : Option StreamSlot} {way back : List Tagged} {got : Nat → List Payload}

-- What is handed on continues what was handed on before.
include heard in
theorem heard_continues {sent : Nat → List Payload} (flow : Flow sender (some slot) ((slot.generation, frame) :: way) back sent got)
    (before : got slot.generation <+: sent slot.generation) :
    (got slot.generation ++ taken) <+: sent slot.generation := by
  cases heard with
  | body payload listening =>
    obtain ⟨-,continues,-⟩ := flow slot rfl listening
    simp only [payloads_cons,bodyOf,if_true,Option.toList_some,← List.append_assoc] at continues
    exact (List.prefix_append _ _).trans continues
  | _ =>
    rw [List.append_nil]
    exact before

omit heard in
theorem arriving_room {sent : Nat → List Payload} (flow : Flow sender (some slot) ((slot.generation, .body payload) :: way) back sent got)
    (listening : slot.peerTerminal = false) : payload.length ≤ slot.localRecvCredit := by
  obtain ⟨room,-,-⟩ := flow slot rfl listening
  simp only [load_cons,bodyOf,if_true,Option.map_some,Option.getD_some] at room
  omega

end Heard

section PeerHears

variable (sound : lane.Sound window) (seated : lane.peer = some slot)
  (arrives : lane.out = (slot.generation, frame) :: rest) (quiet : frame.isOpen = false)
  (heard : Heard slot frame after taken)

def peerHears (lane : Lane) (slot after : StreamSlot) (taken : List Payload) (rest : List Tagged) :
    Lane :=
  { lane with
    peer := some after, out := rest, peerGot := extend lane.peerGot slot.generation taken }

include arrives in
theorem hearing : lane.onward = (slot.generation, frame) :: (rest ++ queued lane.owner) := by
  rw [onward,arrives,List.cons_append]

include sound seated arrives heard in
theorem peerHears_ordered : (lane.peerHears slot after taken rest).Ordered := by
  obtain ⟨onward,homeward,behind,opens,first,unopened⟩ := sound.ordered
  rw [hearing arrives] at onward opens first
  rw [homeward_eq seated,peerGeneration_eq seated,← heard.generation] at homeward
  rw [peerGeneration_eq seated,← heard.generation] at behind opens
  rw [List.forall_mem_cons] at onward
  rw [List.pairwise_cons] at first
  refine ⟨onward.2,?_,behind,fun sent listed listening => opens sent (List.mem_cons_of_mem _ listed) listening,first.2,?_⟩
  · intro sent listed
    change sent ∈ lane.back ++ after.tagged at listed
    refine homeward sent ?_
    rcases List.mem_append.mp listed with early | late
    · exact List.mem_append_left _ early
    · exact List.mem_append_right _ (heard_listed heard late)
  · intro ownerless
    have peerless := unopened ownerless
    rw [seated] at peerless
    cases peerless

include sound seated arrives quiet heard in
theorem peerHears_sound (small : window < 2^32) : (lane.peerHears slot after taken rest).Sound window := by
  have bound := sound.bounded
  have outward := sound.outward
  have inward := sound.inward
  have above := sound.ordered.opens
  rw [hearing arrives,homeward_eq seated,seated] at outward inward
  rw [peerGeneration_eq seated] at above
  refine ⟨peerHears_ordered sound seated arrives heard,?_,?_,outward.receiver_hears heard,
    inward.sender_hears heard fun held chosen => by have := bound held (.inl chosen); omega,
    ?_,?_,?_⟩
  · obtain ⟨final,hearsAll,agrees⟩ := sound.ahead
    refine ⟨final,?_,agrees⟩
    rw [hearing arrives,hears_cons,hear_quiet quiet,seated] at hearsAll
    change hears (ends (some after)) (rest ++ queued lane.owner) = _
    rw [heard_ends heard]
    exact hearsAll
  · intro sent listed own terminal
    change sent ∈ lane.back ++ after.tagged at listed
    have old : sent ∈ lane.homeward := by
      rw [homeward_eq seated]
      rcases List.mem_append.mp listed with early | late
      · exact List.mem_append_left _ early
      · exact List.mem_append_right _ (heard_listed heard late)
    obtain ⟨held,chosen,same,ended,reset⟩ := sound.answered sent old own terminal
    rw [seated] at chosen
    cases chosen
    have firmer := @touch_firmer (ends (some slot)) slot.generation frame
    rw [ends_some,Option.map_some,← heard_ends heard] at firmer
    exact ⟨after,rfl,heard.generation.trans same,firmer.2.1 ended,fun is => firmer.2.2 (reset is)⟩
  · intro sent listed listening
    have old : sent ∈ lane.onward := by
      rw [hearing arrives]
      exact List.mem_cons_of_mem _ listed
    have other : slot.generation ≠ sent.1 := by
      have := above sent old listening
      omega
    have pending := sound.pending sent old listening
    obtain ⟨bodies,bytes,returned⟩ := @cons_other sent.1 slot.generation frame (rest ++ queued lane.owner) other
    rw [hearing arrives,bodies,bytes,returned] at pending
    exact pending
  · obtain ⟨owner,peer,onward,homeward⟩ := sound.logged
    rw [peerGeneration_eq seated] at peer
    refine ⟨owner,fun key higher => ?_,fun key => ?_,homeward⟩
    · change after.generation < key at higher
      rw [heard.generation] at higher
      change _ ∧ extend lane.peerGot slot.generation taken key = []
      rw [Flow.extend_other (by omega)]
      exact peer key higher
    · change extend lane.peerGot slot.generation taken key <+: lane.ownerSent key
      by_cases same : key = slot.generation
      · rw [same,Flow.extend_same]
        exact heard_continues heard outward (onward _)
      · rw [Flow.extend_other same]
        exact onward key
  · intro held chosen
    rcases chosen with mine | theirs
    · exact bound held (.inl mine)
    · cases theirs
      exact heard_bounded heard (bound slot (.inr seated))

end PeerHears

section OwnerHears

variable (sound : lane.Sound window) (seated : lane.owner = some slot)
  (arrives : lane.back = (slot.generation, frame) :: rest) (heard : Heard slot frame after taken)

def ownerHears (lane : Lane) (slot after : StreamSlot) (taken : List Payload) (rest : List Tagged) :
    Lane :=
  { lane with
    owner := some after, back := rest, ownerGot := extend lane.ownerGot slot.generation taken }

include arrives in
theorem returning : lane.homeward = (slot.generation, frame) :: (rest ++ queued lane.peer) := by
  rw [homeward,arrives,List.cons_append]

-- What comes back on the owner's own stream says that its peer has heard of it.
include sound seated arrives in
theorem returned_generation : generationOf lane.peer = slot.generation := by
  have low := (sound.ordered.homeward _ (by rw [returning arrives]; exact List.mem_cons_self)).1
  have behind := sound.ordered.behind
  rw [generation_eq seated] at behind
  exact Nat.le_antisymm behind low

include sound seated arrives in
theorem returned_quiet : ∀ sent ∈ lane.onward, sent.2.isOpen = false := by
  intro sent listed
  by_contra listening
  rw [Bool.not_eq_false] at listening
  have above := sound.ordered.opens sent listed listening
  have below := sound.ordered.onward sent listed
  rw [returned_generation sound seated arrives] at above
  rw [generation_eq seated] at below
  omega

include sound seated arrives in
theorem returned_quiet_out : ∀ sent ∈ lane.out, sent.2.isOpen = false := fun sent listed =>
  returned_quiet sound seated arrives sent (List.mem_append_left _ listed)

include sound seated arrives heard in
theorem ownerHears_ahead : (lane.ownerHears slot after taken rest).Ahead := by
  obtain ⟨final,hearsAll,agrees⟩ := sound.ahead
  have agree := agrees slot seated
  have answer := sound.answered (slot.generation, frame) (by rw [returning arrives]; exact List.mem_cons_self) (generation_eq seated).symm
  rw [generation_eq seated] at answer
  rw [onward_eq seated] at hearsAll
  change ∃ final, hears (ends lane.peer) (lane.out ++ after.tagged) = some final ∧ ∀ held, some after = some held → Matches held final
  cases heard with
  | ignored | body | credit => exact ⟨final,hearsAll,fun held same => by cases same; exact agree⟩
  | ended status trailer listening =>
    refine ⟨final,hearsAll,fun held same => ?_⟩
    cases same
    obtain ⟨other,chosen,own,ended,-⟩ := answer rfl
    obtain ⟨last,hearsAll',firmer⟩ := @hears_quiet (ends lane.peer) _ (returned_quiet sound seated arrives)
    rw [onward_eq seated,hearsAll] at hearsAll'
    cases hearsAll'
    rw [chosen,ends_some] at firmer
    cases final with
    | none => exact firmer.elim
    | some reached =>
      obtain ⟨same,locals,-⟩ := firmer
      have mine : reached.generation = slot.generation := same.trans own
      unfold Matches at agree ⊢
      dsimp only at agree ⊢
      rw [if_pos mine] at agree ⊢
      exact ⟨agree.1,fun _ => locals ended⟩
  | reset code standing =>
    obtain ⟨other,chosen,own,ended,reset⟩ := answer rfl
    obtain ⟨last,hearsOut,firmer⟩ := @hears_quiet (ends lane.peer) _ (returned_quiet_out sound seated arrives)
    refine ⟨last,?_,fun held same => ?_⟩
    · rw [← hearsOut]
      exact congrArg _ (List.append_nil _)
    · cases same
      rw [chosen,ends_some] at firmer
      cases last with
      | none => exact firmer.elim
      | some reached =>
        obtain ⟨same,locals,peers⟩ := firmer
        have mine : reached.generation = slot.generation := same.trans own
        unfold Matches
        dsimp only
        rw [if_pos mine]
        exact ⟨fun _ => peers (reset rfl),fun _ => locals ended⟩

include sound seated arrives heard in
theorem ownerHears_ordered : (lane.ownerHears slot after taken rest).Ordered := by
  obtain ⟨onward,homeward,behind,opens,first,-⟩ := sound.ordered
  rw [onward_eq seated] at onward opens first
  rw [generation_eq seated,← heard.generation] at onward behind
  rw [returning arrives,List.forall_mem_cons] at homeward
  have fewer : (lane.out ++ after.tagged).Sublist (lane.out ++ slot.tagged) := by
    refine (List.append_sublist_append_left _).mpr ?_
    rcases heard_tagged heard with same | empties
    · rw [same]
    · rw [empties]
      exact List.nil_sublist _
  exact ⟨fun sent listed => onward sent (fewer.subset listed),homeward.2,behind,
    fun sent listed => opens sent (fewer.subset listed),first.sublist fewer,
    fun vacant => nomatch vacant⟩

include sound seated arrives heard in
theorem ownerHears_sound (small : window < 2^32) : (lane.ownerHears slot after taken rest).Sound window := by
  have bound := sound.bounded
  have outward := sound.outward
  have inward := sound.inward
  rw [returning arrives,onward_eq seated,seated] at outward inward
  refine ⟨ownerHears_ordered sound seated arrives heard,ownerHears_ahead sound seated arrives heard,
    ?_,outward.sender_hears heard fun held chosen => by have := bound held (.inr chosen); omega,
    inward.receiver_hears heard,?_,?_,?_⟩
  · intro sent listed own terminal
    change sent.1 = after.generation at own
    rw [heard.generation,← generation_eq seated] at own
    obtain ⟨held,chosen,same,ended⟩ := sound.answered sent (by rw [returning arrives]; exact List.mem_cons_of_mem _ listed) own terminal
    refine ⟨held,chosen,?_,ended⟩
    change held.generation = after.generation
    rw [heard.generation,← generation_eq seated]
    exact same
  · intro sent listed listening
    change sent ∈ lane.out ++ after.tagged at listed
    have old : sent ∈ lane.onward := by
      rw [onward_eq seated]
      rcases List.mem_append.mp listed with early | late
      · exact List.mem_append_left _ early
      · exact List.mem_append_right _ (heard_listed heard late)
    rw [returned_quiet sound seated arrives sent old] at listening
    cases listening
  · obtain ⟨owner,peer,onward,homeward⟩ := sound.logged
    rw [generation_eq seated,← heard.generation] at owner
    refine ⟨owner,peer,onward,fun key => ?_⟩
    change extend lane.ownerGot slot.generation taken key <+: lane.peerSent key
    by_cases same : key = slot.generation
    · rw [same,Flow.extend_same]
      exact heard_continues heard inward (homeward _)
    · rw [Flow.extend_other same]
      exact homeward key
  · intro held chosen
    rcases chosen with mine | theirs
    · cases mine
      exact heard_bounded heard (bound slot (.inl seated))
    · exact bound held (.inr theirs)

end OwnerHears

section Passing

variable (sound : lane.Sound window)

-- A frame of a stream that is no longer seated is dropped.
include sound in
theorem peerPasses_sound (arrives : lane.out = (tag, frame) :: rest) (quiet : frame.isOpen = false)
    (other : ∀ slot, lane.peer = some slot → slot.generation ≠ tag) :
    ({ lane with out := rest } : Lane).Sound window := by
  have way : lane.onward = (tag, frame) :: (rest ++ queued lane.owner) := by
    rw [onward,arrives,List.cons_append]
  obtain ⟨⟨onward,homeward,behind,opens,first,unopened⟩,⟨final,heard,agrees⟩,answered,outward,inward,pending,logged,bounded⟩ := sound
  rw [way] at onward opens first heard outward inward
  rw [List.forall_mem_cons] at onward
  rw [List.pairwise_cons] at first
  refine ⟨⟨onward.2,homeward,behind,fun sent listed => opens sent (List.mem_cons_of_mem _ listed),first.2,unopened⟩,
    ⟨final,?_,agrees⟩,answered,outward.drop_way other,inward.drop_back other,?_,
    ⟨logged.owner,logged.peer,logged.onward,logged.homeward⟩,bounded⟩
  · rw [hears_cons,hear_quiet quiet] at heard
    have same : (ends lane.peer).map (touch tag frame) = ends lane.peer := by
      cases seated : lane.peer with
      | none => rfl
      | some slot => rw [ends_some,Option.map_some,touch,if_neg (other slot seated)]
    rw [same] at heard
    exact heard
  · intro sent listed listening
    have above := first.1 sent listed listening
    have held := pending sent (by rw [way]; exact List.mem_cons_of_mem _ listed) listening
    obtain ⟨bodies,bytes,returned⟩ := @cons_other sent.1 tag frame (rest ++ queued lane.owner) (Nat.ne_of_lt above)
    rw [way,bodies,bytes,returned] at held
    exact held

include sound in
theorem ownerPasses_sound (arrives : lane.back = (tag, frame) :: rest) (other : ∀ slot, lane.owner = some slot → slot.generation ≠ tag) :
    ({ lane with back := rest } : Lane).Sound window := by
  have home : lane.homeward = (tag, frame) :: (rest ++ queued lane.peer) := by
    rw [homeward,arrives,List.cons_append]
  obtain ⟨⟨onward,homeward,behind,opens,first,unopened⟩,ahead,answered,outward,inward,pending,logged,bounded⟩ := sound
  rw [home] at homeward outward inward
  rw [List.forall_mem_cons] at homeward
  refine ⟨⟨onward,homeward.2,behind,opens,first,unopened⟩,ahead,fun sent listed => ?_,
    outward.drop_back other,inward.drop_way other,pending,
    ⟨logged.owner,logged.peer,logged.onward,logged.homeward⟩,bounded⟩
  exact answered sent (by rw [home]; exact List.mem_cons_of_mem _ listed)

end Passing

end Lane

end Hellas.Wire
