import Hellas.Wire.Ends

-- One slot seen from both ends: the side that opens its streams, the side that answers, and what
-- is under way between them.

namespace Hellas.Wire

open StreamSlot Ends

structure Lane where
  owner : Option StreamSlot
  peer : Option StreamSlot
  out : List Tagged
  back : List Tagged
  ownerSent : Nat → List Payload
  peerGot : Nat → List Payload
  peerSent : Nat → List Payload
  ownerGot : Nat → List Payload

def queued : Option StreamSlot → List Tagged
  | some slot => slot.tagged
  | none => []

def generationOf : Option StreamSlot → Nat
  | some slot => slot.generation
  | none => 0

def Matches (slot : StreamSlot) : Option Ends → Prop
  | none => slot.isClosed = true
  | some heard =>
    if heard.generation = slot.generation then
      (slot.localTerminal = true → heard.peerEnd = true) ∧ (slot.peerTerminal = true → heard.localEnd = true)
    else heard.closed = true ∧ slot.isClosed = true

namespace Lane

def onward (lane : Lane) : List Tagged := lane.out ++ queued lane.owner

def homeward (lane : Lane) : List Tagged := lane.back ++ queued lane.peer

structure Ordered (lane : Lane) : Prop where
  onward : ∀ sent ∈ lane.onward, sent.1 ≤ generationOf lane.owner
  homeward : ∀ sent ∈ lane.homeward, sent.1 ≤ generationOf lane.peer ∧ sent.2.isOpen = false
  behind : generationOf lane.peer ≤ generationOf lane.owner
  opens : ∀ sent ∈ lane.onward, sent.2.isOpen = true → generationOf lane.peer < sent.1
  first : lane.onward.Pairwise fun earlier later => later.2.isOpen = true → earlier.1 < later.1
  unopened : lane.owner = none → lane.peer = none

def Ahead (lane : Lane) : Prop :=
  ∃ final, hears (ends lane.peer) lane.onward = some final ∧ ∀ slot, lane.owner = some slot → Matches slot final

def Answered (lane : Lane) : Prop :=
  ∀ sent ∈ lane.homeward, sent.1 = generationOf lane.owner → sent.2.isTerminal = true →
    ∃ slot, lane.peer = some slot ∧ slot.generation = generationOf lane.owner ∧
      slot.localTerminal = true ∧ (sent.2.isReset = true → slot.peerTerminal = true)

def Pending (window : Nat) (lane : Lane) : Prop :=
  ∀ sent ∈ lane.onward, sent.2.isOpen = true → load sent.1 lane.onward ≤ window ∧ payloads sent.1 lane.onward <+: lane.ownerSent sent.1 ∧
    ∀ slot, lane.owner = some slot → slot.generation = sent.1 → slot.isClosed = false →
      slot.peerRecvCredit + load sent.1 lane.onward = window ∧
      lane.ownerSent sent.1 = payloads sent.1 lane.onward ∧
      slot.localRecvCredit = window ∧ credit sent.1 lane.onward = 0

structure Logged (lane : Lane) : Prop where
  owner : ∀ key, generationOf lane.owner < key → lane.ownerSent key = []
  peer : ∀ key, generationOf lane.peer < key → lane.peerSent key = [] ∧ lane.peerGot key = []
  onward : ∀ key, lane.peerGot key <+: lane.ownerSent key
  homeward : ∀ key, lane.ownerGot key <+: lane.peerSent key

def Bounded (window : Nat) (lane : Lane) : Prop :=
  ∀ slot, lane.owner = some slot ∨ lane.peer = some slot → slot.localRecvCredit ≤ window ∧ slot.localCreditHighWater = window

structure Sound (window : Nat) (lane : Lane) : Prop where
  ordered : lane.Ordered
  ahead : lane.Ahead
  answered : lane.Answered
  outward : Flow lane.owner lane.peer lane.onward lane.homeward lane.ownerSent lane.peerGot
  inward : Flow lane.peer lane.owner lane.homeward lane.onward lane.peerSent lane.ownerGot
  pending : lane.Pending window
  logged : lane.Logged
  bounded : lane.Bounded window

variable {window : Nat} {lane : Lane} {slot after : StreamSlot} {taken : List Payload}
  {frame : Frame}

theorem prefix_extend {log : Nat → List Payload} (continues : got <+: log other) :
    got <+: extend log key more other := by
  by_cases same : other = key
  · subst same
    rw [Flow.extend_same]
    exact continues.trans (List.prefix_append _ _)
  · rw [Flow.extend_other same]
    exact continues

theorem first_quiet {way : List Tagged} (first : way.Pairwise fun earlier later => later.2.isOpen = true → earlier.1 < later.1)
    (quiet : ∀ sent ∈ more, sent.2.isOpen = false) :
    (way ++ more).Pairwise fun earlier later => later.2.isOpen = true → earlier.1 < later.1 := by
  refine List.pairwise_append.mpr ⟨first,?_,?_⟩
  · refine List.Pairwise.imp_of_mem ?_ (List.pairwise_of_forall fun _ _ => trivial)
    intro earlier later _ listed _ opens
    rw [quiet later listed] at opens
    cases opens
  · intro earlier _ later listed opens
    rw [quiet later listed] at opens
    cases opens

theorem acted_queued (acted : Acted slot after taken) : ∀ sent ∈ after.tagged, sent ∈ slot.tagged ∨
    sent.2.isOpen = false ∧ (sent.2.isTerminal = true → after.localTerminal = true ∧
      (sent.2.isReset = true → after.peerTerminal = true)) := by
  intro sent listed
  obtain ⟨frame,queued,rfl⟩ := List.mem_map.mp listed
  rw [acted.generation]
  cases acted with
  | sent payload live enough =>
    rcases List.mem_append.mp queued with old | new
    · exact .inl (List.mem_map_of_mem old)
    · rw [List.mem_singleton.mp new]
      exact .inr ⟨rfl,fun terminal => nomatch terminal⟩
  | ended trailer live =>
    rcases List.mem_append.mp queued with old | new
    · exact .inl (List.mem_map_of_mem old)
    · rw [List.mem_singleton.mp new]
      exact .inr ⟨rfl,fun _ => ⟨rfl,fun reset => nomatch reset⟩⟩
  | reset code live =>
    rw [List.mem_singleton.mp queued]
    exact .inr ⟨rfl,fun _ => ⟨rfl,fun _ => rfl⟩⟩
  | returned bytes returning live available =>
    change frame ∈ returnCredit bytes slot.sendQueue at queued
    rcases @returnCredit_cases bytes slot.sendQueue with ⟨before,waiting,rest,whole,same⟩ | same
    · rw [same,List.mem_append,List.mem_cons] at queued
      rcases queued with old | rfl | old
      · refine .inl (List.mem_map_of_mem ?_)
        rw [whole]
        exact List.mem_append_left _ old
      · exact .inr ⟨rfl,fun terminal => nomatch terminal⟩
      · refine .inl (List.mem_map_of_mem ?_)
        rw [whole]
        exact List.mem_append_right _ (List.mem_cons_of_mem _ old)
    · rw [same] at queued
      rcases List.mem_cons.mp queued with rfl | old
      · exact .inr ⟨rfl,fun terminal => nomatch terminal⟩
      · exact .inl (List.mem_map_of_mem old)

theorem acted_opens (acted : Acted slot after taken) (listed : sent ∈ after.tagged)
    (opens : sent.2.isOpen = true) : sent ∈ slot.tagged := by
  rcases acted_queued acted sent listed with old | ⟨quiet,-⟩
  · exact old
  · rw [quiet] at opens
    cases opens

theorem acted_ends (acted : Acted slot after taken) : Firmer (ends (some slot)) (ends (some after)) := by
  cases acted with
  | sent => exact ⟨rfl,id,id⟩
  | ended => exact ⟨rfl,fun _ => rfl,id⟩
  | reset => exact ⟨rfl,fun _ => rfl,fun _ => rfl⟩
  | returned => exact ⟨rfl,id,id⟩

theorem acted_bounded (acted : Acted slot after taken) (bounded : slot.localRecvCredit ≤ window ∧ slot.localCreditHighWater = window) :
    after.localRecvCredit ≤ window ∧ after.localCreditHighWater = window := by
  cases acted with
  | returned bytes returning live available =>
    refine ⟨?_,bounded.2⟩
    change slot.localRecvCredit + bytes ≤ window
    omega
  | _ => exact bounded

theorem matches_mono (agrees : Matches slot heard) (firmer : Firmer heard last) : Matches slot last := by
  cases heard with
  | none =>
    cases last with
    | none => exact agrees
    | some seated => exact firmer.elim
  | some one =>
    cases last with
    | none => exact firmer.elim
    | some other =>
      obtain ⟨same,locals,peers⟩ := firmer
      unfold Matches at agrees ⊢
      dsimp only at agrees ⊢
      rw [same]
      split
      · rename_i own
        rw [if_pos own] at agrees
        exact ⟨fun ended => peers (agrees.1 ended),fun ended => locals (agrees.2 ended)⟩
      · rename_i foreign
        rw [if_neg foreign] at agrees
        refine ⟨?_,agrees.2⟩
        simp only [closed,Bool.and_eq_true] at agrees ⊢
        exact ⟨locals agrees.1.1,peers agrees.1.2⟩

theorem matches_open (agrees : Matches slot heard) (standing : slot.isClosed = false) :
    ∃ seated, heard = some seated ∧ seated.generation = slot.generation ∧ (slot.localTerminal = true → seated.peerEnd = true) ∧
      (slot.peerTerminal = true → seated.localEnd = true) := by
  cases heard with
  | none =>
    rw [Matches,standing] at agrees
    cases agrees
  | some seated =>
    unfold Matches at agrees
    dsimp only at agrees
    split at agrees
    · rename_i own
      exact ⟨seated,rfl,own,agrees⟩
    · rw [standing] at agrees
      cases agrees.2

section OwnerActs

variable (sound : lane.Sound window) (seated : lane.owner = some slot)
  (acted : Acted slot after taken)

-- No credit is given back on a stream the peer has not heard of.
include sound seated in
theorem unheard (returning : 0 < bytes) (listening : slot.peerTerminal = false)
    (available : bytes ≤ slot.localCreditHighWater - slot.localRecvCredit) :
    ∀ sent ∈ lane.onward, sent.1 = slot.generation → sent.2.isOpen = false := by
  intro sent listed own
  by_contra opens
  rw [Bool.not_eq_false] at opens
  obtain ⟨-,-,precise⟩ := sound.pending sent listed opens
  obtain ⟨-,-,full,-⟩ := precise slot seated own.symm (by rw [isClosed,listening]; rfl)
  have bound := (sound.bounded slot (.inl seated)).2
  omega

def ownerActs (lane : Lane) (slot after : StreamSlot) (taken : List Payload) : Lane :=
  { lane with owner := some after, ownerSent := extend lane.ownerSent slot.generation taken }

include seated in
theorem onward_eq : lane.onward = lane.out ++ slot.tagged := by
  rw [onward,seated,queued]

include seated in
theorem generation_eq : generationOf lane.owner = slot.generation := by
  rw [seated,generationOf]

include sound seated acted in
theorem ownerActs_ordered : (lane.ownerActs slot after taken).Ordered := by
  obtain ⟨onward,homeward,behind,opens,first,-⟩ := sound.ordered
  rw [onward_eq seated] at onward opens first
  rw [generation_eq seated] at onward behind
  have own := acted.generation
  refine ⟨?_,homeward,?_,?_,?_,fun vacant => nomatch vacant⟩
  · intro sent listed
    change sent ∈ lane.out ++ after.tagged at listed
    change sent.1 ≤ after.generation
    rw [own]
    rcases List.mem_append.mp listed with early | late
    · exact onward sent (List.mem_append_left _ early)
    · rw [tagged_tag sent late,own]
  · change generationOf lane.peer ≤ after.generation
    rw [own]
    exact behind
  · intro sent listed listening
    change sent ∈ lane.out ++ after.tagged at listed
    rcases List.mem_append.mp listed with early | late
    · exact opens sent (List.mem_append_left _ early) listening
    · exact opens sent (List.mem_append_right _ (acted_opens acted late listening)) listening
  · change (lane.out ++ after.tagged).Pairwise _
    have outFirst := (List.pairwise_append.mp first).1
    cases acted with
    | sent payload live enough =>
      simp only [tagged,List.map_append,← List.append_assoc]
      exact first_quiet first fun sent listed => by rw [List.mem_singleton.mp listed]; rfl
    | ended trailer live =>
      simp only [tagged,List.map_append,← List.append_assoc]
      exact first_quiet first fun sent listed => by rw [List.mem_singleton.mp listed]; rfl
    | reset code live => exact first_quiet outFirst fun sent listed => by rw [List.mem_singleton.mp listed]; rfl
    | returned bytes returning live available =>
      refine first_quiet outFirst fun sent listed => ?_
      by_contra listening
      rw [Bool.not_eq_false] at listening
      have old := acted_opens (.returned bytes returning live available) listed listening
      have quiet := unheard sound seated returning live available sent
        (by rw [onward_eq seated]; exact List.mem_append_right _ old) (tagged_tag sent old)
      rw [quiet] at listening
      cases listening

-- Before its queue is sent, the peer will have heard of the owner's stream, or of none that stands.
include sound seated in
theorem unsent (standing : slot.isClosed = false) (late : hears (some reached) slot.tagged = some final) (agree : Matches slot final) :
    reached.generation = slot.generation ∨ reached.closed = true := by
  obtain ⟨last,rfl,own,-⟩ := matches_open agree standing
  have first := sound.ordered.first
  rw [onward_eq seated] at first
  have queue := (List.pairwise_append.mp first).2.1
  cases shape : slot.tagged with
  | nil =>
    rw [shape] at late
    cases late
    exact .inl own
  | cons head rest =>
    have tags := @tagged_tag slot
    rw [shape] at late queue tags
    rw [List.pairwise_cons] at queue
    rw [List.forall_mem_cons] at tags
    have quiet : ∀ sent ∈ rest, sent.2.isOpen = false := by
      intro sent listed
      by_contra listening
      rw [Bool.not_eq_false] at listening
      have below := queue.1 sent listed listening
      rw [tags.1,tags.2 sent listed] at below
      exact absurd below (lt_irrefl _)
    rw [hears_cons] at late
    obtain ⟨next,heard,rest'⟩ := Option.bind_eq_some_iff.mp late
    cases opens : head.2.isOpen with
    | true =>
      obtain ⟨vacant,-⟩ := (@hear_open (some reached) head.1 head.2 next opens).mp heard
      simp only [Option.all_some,Bool.and_eq_true] at vacant
      exact .inr vacant.1
    | false =>
      rw [@hear_quiet (some reached) head.1 head.2 opens] at heard
      cases heard
      obtain ⟨last',heard',firmer⟩ := @hears_quiet (some (touch head.1 head.2 reached)) rest quiet
      rw [Option.map_some,heard'] at rest'
      cases rest'
      refine .inl ?_
      rw [← own,firmer.1,touch_generation]

include sound seated acted in
theorem ownerActs_ahead : (lane.ownerActs slot after taken).Ahead := by
  obtain ⟨final,heard,agrees⟩ := sound.ahead
  have agree := agrees slot seated
  rw [onward_eq seated] at heard
  change ∃ final, hears (ends lane.peer) (lane.out ++ after.tagged) = some final ∧ ∀ held, some after = some held → Matches held final
  cases acted with
  | sent payload live enough =>
    refine ⟨final,?_,fun held same => by cases same; exact agree⟩
    simp only [tagged,List.map_append,← List.append_assoc]
    change hears _ (lane.out ++ slot.tagged ++ [(slot.generation, .body payload)]) = _
    rw [hears_snoc,heard]
    exact hear_plain rfl rfl
  | ended trailer live =>
    obtain ⟨last,rfl,own,peers,locals⟩ := matches_open agree (by rw [isClosed,live,Bool.and_false])
    refine ⟨some (touch slot.generation (.endFrame trailer.status trailer) last),?_,?_⟩
    · simp only [tagged,List.map_append,← List.append_assoc]
      change hears _ (lane.out ++ slot.tagged ++ [(slot.generation, .endFrame trailer.status trailer)]) = _
      rw [hears_snoc,heard]
      exact hear_quiet rfl
    · intro held same
      cases same
      unfold Matches
      dsimp only
      rw [touch_generation,if_pos own]
      unfold touch
      rw [if_pos own]
      refine ⟨fun _ => Bool.or_true _,fun ended => ?_⟩
      simp only [Bool.or_eq_true]
      exact .inl (locals ended)
  | reset code standing =>
    rw [hears_append] at heard
    obtain ⟨middle,early,late⟩ := Option.bind_eq_some_iff.mp heard
    refine ⟨middle.map (touch slot.generation (.reset code)),?_,?_⟩
    · change hears _ (lane.out ++ [(slot.generation, .reset code)]) = _
      rw [hears_snoc,early]
      exact hear_quiet rfl
    · intro held same
      cases same
      cases middle with
      | none => rfl
      | some reached =>
        change Matches _ (some (touch slot.generation (.reset code) reached))
        unfold Matches
        dsimp only
        rw [touch_generation]
        split
        · rename_i own
          unfold touch
          rw [if_pos own]
          exact ⟨fun _ => Bool.or_true _,fun _ => Bool.or_true _⟩
        · rename_i foreign
          unfold touch
          rw [if_neg foreign]
          refine ⟨?_,rfl⟩
          rcases unsent sound seated standing late agree with own | closed
          · exact absurd own foreign
          · exact closed
  | returned bytes returning live available =>
    refine ⟨final,?_,fun held same => by cases same; exact agree⟩
    rw [← heard]
    rcases @returnCredit_cases bytes slot.sendQueue with ⟨before,waiting,rest,whole,same⟩ | same
    · change hears _ (lane.out ++ (returnCredit bytes slot.sendQueue).map _) =
        hears _ (lane.out ++ slot.sendQueue.map _)
      rw [same,whole]
      simp only [List.map_append,List.map_cons,← List.append_assoc]
      rw [hears_insert rfl rfl,hears_insert rfl rfl]
    · simp only [tagged,same,List.map_cons]
      exact hears_insert rfl rfl

include sound seated acted in
theorem ownerActs_pending : (lane.ownerActs slot after taken).Pending window := by
  intro sent listed listening
  change sent ∈ lane.out ++ after.tagged at listed
  change load sent.1 (lane.out ++ after.tagged) ≤ window ∧ payloads sent.1 (lane.out ++ after.tagged) <+:
      extend lane.ownerSent slot.generation taken sent.1 ∧
    ∀ held, some after = some held → held.generation = sent.1 → held.isClosed = false →
      held.peerRecvCredit + load sent.1 (lane.out ++ after.tagged) = window ∧
      extend lane.ownerSent slot.generation taken sent.1 = payloads sent.1 (lane.out ++ after.tagged) ∧
      held.localRecvCredit = window ∧ credit sent.1 (lane.out ++ after.tagged) = 0
  have old : sent ∈ lane.onward := by
    rw [onward_eq seated]
    rcases List.mem_append.mp listed with early | late
    · exact List.mem_append_left _ early
    · exact List.mem_append_right _ (acted_opens acted late listening)
  obtain ⟨room,continues,precise⟩ := sound.pending sent old listening
  rw [onward_eq seated] at room continues precise
  by_cases own : slot.generation = sent.1
  · rw [← own] at room continues precise ⊢
    rw [load_append] at room
    rw [payloads_append] at continues
    rcases acted.bodies with ⟨closed,rfl,empties⟩ | ⟨standing,bodies,paid⟩
    · have empty : load slot.generation after.tagged = 0 := by rw [load,empties]; rfl
      rw [Flow.extend_nil,load_append,payloads_append,empty,empties,List.append_nil]
      refine ⟨by omega,(List.prefix_append _ _).trans continues,fun held same _ listening => ?_⟩
      cases same
      rw [closed] at listening
      cases listening
    · obtain ⟨adds,whole,full,unreturned⟩ := precise slot seated rfl standing
      have bytes : load slot.generation after.tagged = load slot.generation slot.tagged + (taken.map List.length).sum := by
        simp [load,bodies]
      have bound := (sound.bounded slot (.inl seated)).2
      rw [load_append] at adds
      rw [payloads_append] at whole
      rw [Flow.extend_same,load_append,payloads_append,credit_append,bodies,bytes,whole]
      rw [credit_append] at unreturned
      refine ⟨by omega,by simp,fun held same _ listening => ?_⟩
      cases same
      rcases acted.room with cut | ⟨-,more,made,available,returned⟩
      · rw [cut] at listening
        cases listening
      · have announced := returned (by omega)
        exact ⟨by omega,by simp,by omega,by omega⟩
  · obtain ⟨bodies,bytes,-⟩ := @tagged_other slot sent.1 own
    obtain ⟨bodies',bytes',-⟩ := @tagged_other after sent.1 (by rw [acted.generation]; exact own)
    rw [load_append,bytes] at room
    rw [payloads_append,bodies] at continues
    rw [load_append,payloads_append,bodies',bytes',Flow.extend_other (Ne.symm own)]
    refine ⟨room,continues,fun held same clash => ?_⟩
    cases same
    exact absurd (acted.generation.symm.trans clash) own

include sound seated acted in
theorem ownerActs_logged : (lane.ownerActs slot after taken).Logged := by
  obtain ⟨owner,peer,onward,homeward⟩ := sound.logged
  rw [generation_eq seated] at owner
  refine ⟨fun key above => ?_,peer,fun key => prefix_extend (onward key),homeward⟩
  change after.generation < key at above
  rw [acted.generation] at above
  change extend lane.ownerSent slot.generation taken key = []
  rw [Flow.extend_other (by omega)]
  exact owner key above

include sound seated acted in
theorem ownerActs_sound (small : window < 2^32) : (lane.ownerActs slot after taken).Sound window := by
  have bound := sound.bounded slot (.inl seated)
  have outward := sound.outward
  have inward := sound.inward
  rw [onward_eq seated,seated] at outward inward
  refine ⟨ownerActs_ordered sound seated acted,ownerActs_ahead sound seated acted,?_,
    outward.sender_acts acted,inward.receiver_acts acted (by omega) (by omega),
    ownerActs_pending sound seated acted,ownerActs_logged sound seated acted,?_⟩
  · intro sent listed own terminal
    change sent.1 = after.generation at own
    rw [acted.generation,← generation_eq seated] at own
    obtain ⟨held,chosen,same,ended⟩ := sound.answered sent listed own terminal
    refine ⟨held,chosen,?_,ended⟩
    change held.generation = after.generation
    rw [acted.generation,← generation_eq seated]
    exact same
  · intro held chosen
    rcases chosen with mine | theirs
    · cases mine
      exact acted_bounded acted bound
    · exact sound.bounded held (.inr theirs)

end OwnerActs

section PeerActs

variable (sound : lane.Sound window) (seated : lane.peer = some slot)
  (acted : Acted slot after taken)

def peerActs (lane : Lane) (slot after : StreamSlot) (taken : List Payload) : Lane :=
  { lane with peer := some after, peerSent := extend lane.peerSent slot.generation taken }

include seated in
theorem homeward_eq : lane.homeward = lane.back ++ slot.tagged := by
  rw [homeward,seated,queued]

include seated in
theorem peerGeneration_eq : generationOf lane.peer = slot.generation := by
  rw [seated,generationOf]

include sound seated acted in
theorem peerActs_ordered : (lane.peerActs slot after taken).Ordered := by
  obtain ⟨onward,homeward,behind,opens,first,unopened⟩ := sound.ordered
  rw [homeward_eq seated,peerGeneration_eq seated] at homeward
  rw [peerGeneration_eq seated,← acted.generation] at behind opens
  refine ⟨onward,?_,behind,opens,first,fun vacant => ?_⟩
  · intro sent listed
    change sent ∈ lane.back ++ after.tagged at listed
    change sent.1 ≤ after.generation ∧ _
    rw [acted.generation]
    rcases List.mem_append.mp listed with early | late
    · exact homeward sent (List.mem_append_left _ early)
    · refine ⟨le_of_eq ((tagged_tag sent late).trans acted.generation),?_⟩
      rcases acted_queued acted sent late with old | ⟨quiet,-⟩
      · exact (homeward sent (List.mem_append_right _ old)).2
      · exact quiet
  · have peerless := unopened vacant
    rw [seated] at peerless
    cases peerless

include sound seated acted in
theorem peerActs_ahead : (lane.peerActs slot after taken).Ahead := by
  obtain ⟨final,heard,agrees⟩ := sound.ahead
  rw [seated] at heard
  obtain ⟨last,heard',firmer⟩ := hears_mono (acted_ends acted) heard
  exact ⟨last,heard',fun held chosen => matches_mono (agrees held chosen) firmer⟩

include sound seated acted in
theorem peerActs_answered : (lane.peerActs slot after taken).Answered := by
  intro sent listed own terminal
  change sent ∈ lane.back ++ after.tagged at listed
  change sent.1 = generationOf lane.owner at own
  change ∃ held, some after = some held ∧ held.generation = generationOf lane.owner ∧ _
  have before : ∀ sent ∈ lane.homeward, sent.1 = generationOf lane.owner → sent.2.isTerminal = true → ∃ held, some after = some held ∧
        held.generation = generationOf lane.owner ∧ held.localTerminal = true ∧
        (sent.2.isReset = true → held.peerTerminal = true) := by
    intro sent listed own terminal
    obtain ⟨held,chosen,same,ended,reset⟩ := sound.answered sent listed own terminal
    rw [seated] at chosen
    cases chosen
    obtain ⟨-,locals,peers⟩ := acted_ends acted
    exact ⟨after,rfl,acted.generation.trans same,locals ended,fun is => peers (reset is)⟩
  rw [homeward_eq seated] at before
  rcases List.mem_append.mp listed with early | late
  · exact before sent (List.mem_append_left _ early) own terminal
  · rcases acted_queued acted sent late with old | ⟨-,ends⟩
    · exact before sent (List.mem_append_right _ old) own terminal
    · exact ⟨after,rfl,(tagged_tag sent late).symm.trans own,ends terminal⟩

include sound seated acted in
theorem peerActs_sound (small : window < 2^32) : (lane.peerActs slot after taken).Sound window := by
  have bound := sound.bounded slot (.inr seated)
  have outward := sound.outward
  have inward := sound.inward
  rw [homeward_eq seated,seated] at outward inward
  refine ⟨peerActs_ordered sound seated acted,peerActs_ahead sound seated acted,
    peerActs_answered sound seated acted,outward.receiver_acts acted (by omega) (by omega),
    inward.sender_acts acted,sound.pending,?_,?_⟩
  · obtain ⟨owner,peer,onward,homeward⟩ := sound.logged
    rw [peerGeneration_eq seated] at peer
    refine ⟨owner,fun key above => ?_,onward,fun key => prefix_extend (homeward key)⟩
    change after.generation < key at above
    rw [acted.generation] at above
    change extend lane.peerSent slot.generation taken key = [] ∧ _
    rw [Flow.extend_other (by omega)]
    exact peer key above
  · intro held chosen
    rcases chosen with mine | theirs
    · exact sound.bounded held (.inl mine)
    · cases theirs
      exact acted_bounded acted bound

end PeerActs

section Shipping

variable (sound : lane.Sound window) {rest : List Frame} (shape : slot.sendQueue = frame :: rest)

def ownerShips (lane : Lane) (slot : StreamSlot) (frame : Frame) (rest : List Frame) : Lane :=
  { lane with
    owner := some { slot with sendQueue := rest }
    out := lane.out ++ [(slot.generation, frame)] }

def peerShips (lane : Lane) (slot : StreamSlot) (frame : Frame) (rest : List Frame) : Lane :=
  { lane with
    peer := some { slot with sendQueue := rest }
    back := lane.back ++ [(slot.generation, frame)] }

include sound shape in
theorem ownerShips_sound (seated : lane.owner = some slot) : (lane.ownerShips slot frame rest).Sound window := by
  have way : (lane.ownerShips slot frame rest).onward = lane.onward := by
    rw [onward_eq seated,tagged,shape]
    change lane.out ++ [(slot.generation, frame)] ++ rest.map _ = _
    rw [List.append_assoc]
    rfl
  have generation : generationOf (lane.ownerShips slot frame rest).owner = generationOf lane.owner := by
    rw [seated]
    rfl
  have home : (lane.ownerShips slot frame rest).homeward = lane.homeward := rfl
  obtain ⟨⟨onward,homeward,behind,opens,first,-⟩,⟨final,heard,agrees⟩,answered,outward,
    inward,pending,⟨ownerLog,peerLog,onLog,homeLog⟩,bounded⟩ := sound
  refine ⟨⟨?_,homeward,?_,?_,?_,?_⟩,⟨final,?_,?_⟩,?_,?_,?_,?_,⟨?_,peerLog,onLog,homeLog⟩,?_⟩
  · rw [way,generation]
    exact onward
  · rw [generation]
    exact behind
  · rw [way]
    exact opens
  · rw [way]
    exact first
  · intro gone
    cases gone
  · rw [way]
    exact heard
  · intro held chosen
    cases chosen
    exact agrees slot seated
  · unfold Answered
    rw [generation]
    exact answered
  · rw [way,home]
    intro held chosen live
    obtain ⟨room,continues,precise⟩ := outward held chosen live
    refine ⟨room,continues,fun other same own standing => ?_⟩
    cases same
    exact precise slot seated own standing
  · rw [way,home]
    intro held chosen live
    cases chosen
    exact inward slot seated live
  · unfold Pending
    rw [way]
    intro sent listed listening
    obtain ⟨room,continues,precise⟩ := pending sent listed listening
    refine ⟨room,continues,fun other same own standing => ?_⟩
    cases same
    exact precise slot seated own standing
  · rw [generation]
    exact ownerLog
  · intro held chosen
    rcases chosen with mine | theirs
    · cases mine
      exact bounded slot (.inl seated)
    · exact bounded held (.inr theirs)

include sound shape in
theorem peerShips_sound (seated : lane.peer = some slot) : (lane.peerShips slot frame rest).Sound window := by
  have home : (lane.peerShips slot frame rest).homeward = lane.homeward := by
    rw [homeward_eq seated,tagged,shape]
    change lane.back ++ [(slot.generation, frame)] ++ rest.map _ = _
    rw [List.append_assoc]
    rfl
  have generation : generationOf (lane.peerShips slot frame rest).peer = generationOf lane.peer := by
    rw [seated]
    rfl
  have flags : ends (lane.peerShips slot frame rest).peer = ends lane.peer := by
    rw [seated]
    rfl
  have way : (lane.peerShips slot frame rest).onward = lane.onward := rfl
  obtain ⟨⟨onward,homeward,behind,opens,first,unopened⟩,⟨final,heard,agrees⟩,answered,
    outward,inward,pending,⟨ownerLog,peerLog,onLog,homeLog⟩,bounded⟩ := sound
  refine ⟨⟨onward,?_,?_,?_,first,fun vacant => ?_⟩,⟨final,?_,agrees⟩,?_,?_,?_,pending,
    ⟨ownerLog,?_,onLog,homeLog⟩,?_⟩
  · rw [home,generation]
    exact homeward
  · rw [generation]
    exact behind
  · rw [generation]
    exact opens
  · have peerless := unopened vacant
    rw [seated] at peerless
    cases peerless
  · rw [flags]
    exact heard
  · unfold Answered
    rw [home]
    intro sent listed own terminal
    obtain ⟨held,chosen,same,ended⟩ := answered sent listed own terminal
    rw [seated] at chosen
    cases chosen
    exact ⟨_,rfl,same,ended⟩
  · rw [way,home]
    intro held chosen live
    cases chosen
    exact outward slot seated live
  · rw [way,home]
    intro held chosen live
    obtain ⟨room,continues,precise⟩ := inward held chosen live
    refine ⟨room,continues,fun other same own standing => ?_⟩
    cases same
    exact precise slot seated own standing
  · rw [generation]
    exact peerLog
  · intro held chosen
    rcases chosen with mine | theirs
    · exact bounded held (.inl mine)
    · cases theirs
      exact bounded slot (.inr seated)

end Shipping

end Lane

end Hellas.Wire
