import Hellas.Wire.Moves

-- The invariant of a link, slot by slot, and what it says of every stream.

namespace Hellas.Wire

open StreamSlot Guard

namespace Role

theorem other_other {role : Role} : role.other.other = role := by
  cases role <;> rfl

theorem other_ne {role : Role} : role.other ≠ role := by
  cases role <;> decide

theorem ne_other {role side : Role} (different : side ≠ role) : side = role.other := by
  cases role <;> cases side <;> first | rfl | exact absurd rfl different

end Role

def ownerOf (idx : Nat) : Role := if idx % 2 = 0 then .client else .server

theorem owns_iff {role : Role} : role.ownsSlot idx = true ↔ ownerOf idx = role := by
  unfold Role.ownsSlot ownerOf
  rw [decide_eq_true_iff]
  cases role <;> simp only [Role.parity] <;> split <;> simp_all

def onSlot (idx : Nat) (letters : List KeyedFrame) : List Tagged :=
  letters.filterMap fun letter =>
    if letter.key.streamId = idx then some (letter.key.generation, letter.frame) else none

def logOf (idx : Nat) (log : List (StreamKey × Payload)) (generation : Nat) : List Payload :=
  log.filterMap fun entry => if entry.1 = ⟨idx,generation⟩ then some entry.2 else none

abbrev Letters := Role → List KeyedFrame

def laneOf (link : Link) (letters : Letters) (idx : Nat) : Lane where
  owner := (link (ownerOf idx)).mux.streams idx
  peer := (link (ownerOf idx).other).mux.streams idx
  out := onSlot idx (letters (ownerOf idx).other)
  back := onSlot idx (letters (ownerOf idx))
  ownerSent := logOf idx (link (ownerOf idx)).accepted
  peerGot := logOf idx (link (ownerOf idx).other).delivered
  peerSent := logOf idx (link (ownerOf idx).other).accepted
  ownerGot := logOf idx (link (ownerOf idx)).delivered

section Logs

variable {idx generation : Nat} {log : List (StreamKey × Payload)} {taken : List Payload}

theorem log_foreign {key : StreamKey} (foreign : (⟨idx,generation⟩ : StreamKey) ≠ key) :
    (taken.map fun payload => ((⟨idx,generation⟩ : StreamKey), payload)).filterMap
      (fun entry => if entry.1 = key then some entry.2 else none) = [] := by
  rw [List.filterMap_map]
  exact List.filterMap_eq_nil_iff.mpr fun payload _ => if_neg foreign

theorem logOf_taken :
    logOf idx (log ++ taken.map fun payload => (⟨idx,generation⟩, payload)) = extend (logOf idx log) generation taken := by
  funext key
  unfold logOf
  rw [List.filterMap_append]
  by_cases same : key = generation
  · rw [same,Flow.extend_same,List.filterMap_map]
    congr 1
    exact (List.filterMap_congr fun payload _ => if_pos rfl).trans List.filterMap_some
  · rw [Flow.extend_other same,log_foreign fun clash => same (StreamKey.mk.inj clash).2.symm,List.append_nil]

theorem logOf_elsewhere (different : other ≠ idx) :
    logOf other (log ++ taken.map fun payload => (⟨idx,generation⟩, payload)) = logOf other log := by
  funext key
  unfold logOf
  rw [List.filterMap_append,log_foreign fun clash => different (StreamKey.mk.inj clash).1.symm,List.append_nil]

theorem onSlot_append : onSlot idx (letters ++ more) = onSlot idx letters ++ onSlot idx more := List.filterMap_append

theorem onSlot_nil : onSlot idx [] = [] := rfl

theorem onSlot_own {letter : KeyedFrame} {letters : List KeyedFrame} (own : letter.key.streamId = idx) :
    onSlot idx (letter :: letters) = (letter.key.generation, letter.frame) :: onSlot idx letters :=
  List.filterMap_cons_some (if_pos own)

theorem onSlot_other {letter : KeyedFrame} {letters : List KeyedFrame}
    (foreign : letter.key.streamId ≠ idx) : onSlot idx (letter :: letters) = onSlot idx letters :=
  List.filterMap_cons_none (if_neg foreign)

end Logs

def Fine (got : List UInt8 × Except MuxError (List Event)) : Prop :=
  ∃ events, got.2 = .ok events ∧ ∀ key payload, decodeKeyedFrame got.1 = .ok ⟨key,.body payload⟩ →
    ∀ code, .resetStream key.streamId code ∉ events

def Side.Clean (side : Side) : Prop := ∀ got ∈ side.received, Fine got

structure Linked (slots window : Nat) (letters : Letters) (link : Link) : Prop where
  inbox : ∀ role, (link role).inbox = (letters role).map encodeKeyedFrame
  valid : ∀ role, ∀ letter ∈ letters role, letter.frame.Fits ∧
    letter.key.streamId < slots % 2^16 ∧ letter.key.generation < 2^16
  kept : ∀ role, Multiplexer.Kept slots window role (link role).mux
  lanes : ∀ idx, (laneOf link letters idx).Sound window
  counted : ∀ idx, generationOf ((link (ownerOf idx)).mux.streams idx) =
    (link (ownerOf idx)).opened.count idx
  received : ∀ role, (link role).Clean

-- No slot has been opened so often that its generations come round again.
def Unspent (link : Link) : Prop := ∀ role idx, (link role).opened.count idx < 2^16

def Side.moved (side : Side) (next : Multiplexer) (taken : List (StreamKey × Payload)) : Side :=
  { side with mux := next, accepted := side.accepted ++ taken }

namespace Linked

variable {slots window : Nat} {letters : Letters} {link : Link} {role : Role} {idx : Nat} {side : Side}

theorem put_same : (link.put role side) role = side := Function.update_self ..

theorem put_other : (link.put role side) role.other = link role.other := Function.update_of_ne Role.other_ne ..

theorem put_else (apart : different ≠ role) :
    (link.put role side) different = link different := Function.update_of_ne apart ..

theorem forall_put {Holds : Role → Side → Prop} (here : Holds role side) (rest : ∀ different, Holds different (link different)) :
    ∀ different, Holds different ((link.put role side) different) := by
  intro different
  by_cases same : different = role
  · rw [same,put_same]
    exact here
  · rw [put_else same]
    exact rest different

theorem laneOf_at (own : ownerOf idx = role) : laneOf link letters idx = ⟨(link role).mux.streams idx,(link role.other).mux.streams idx,
      onSlot idx (letters role.other),onSlot idx (letters role),logOf idx (link role).accepted,
      logOf idx (link role.other).delivered,logOf idx (link role.other).accepted,
      logOf idx (link role).delivered⟩ := by
  unfold laneOf
  rw [own]

theorem laneOf_across (own : ownerOf idx = role.other) : laneOf link letters idx =
    ⟨(link role.other).mux.streams idx,(link role).mux.streams idx,onSlot idx (letters role),onSlot idx (letters role.other),
      logOf idx (link role.other).accepted,logOf idx (link role).delivered,
      logOf idx (link role).accepted,logOf idx (link role.other).delivered⟩ := by
  unfold laneOf
  rw [own,Role.other_other]

theorem laneOf_still (streams : side.mux.streams idx = (link role).mux.streams idx)
    (sent : logOf idx side.accepted = logOf idx (link role).accepted)
    (got : logOf idx side.delivered = logOf idx (link role).delivered) :
    laneOf (link.put role side) letters idx = laneOf link letters idx := by
  by_cases own : ownerOf idx = role
  · rw [laneOf_at own,laneOf_at own,put_same,put_other,streams,sent,got]
  · rw [laneOf_across (Role.ne_other own),laneOf_across (Role.ne_other own),put_same,put_other,streams,sent,got]

theorem still_sound (streams : side.mux.streams idx = (link role).mux.streams idx)
    (sent : logOf idx side.accepted = logOf idx (link role).accepted) (got : side.delivered = (link role).delivered)
    (sound : (laneOf link letters idx).Sound window) : (laneOf (link.put role side) letters idx).Sound window := by
  rwa [laneOf_still streams sent (congrArg _ got)]

theorem new {slots window : Nat} : Linked slots window (fun _ => []) (.new slots window) where
  inbox _ := rfl
  valid _ _ listed := nomatch listed
  kept _ := .new
  lanes idx := by
    refine ⟨⟨?_,?_,Nat.le_refl _,?_,.nil,fun _ => rfl⟩,⟨none,rfl,?_⟩,?_,?_,?_,?_,
      ⟨fun _ _ => rfl,fun _ _ => ⟨rfl,rfl⟩,fun _ => List.nil_prefix,fun _ => List.nil_prefix⟩,?_⟩
    · exact fun _ listed => nomatch listed
    · exact fun _ listed => nomatch listed
    · exact fun _ listed => nomatch listed
    · exact fun _ seated => nomatch seated
    · exact fun _ listed => nomatch listed
    · exact fun _ seated => nomatch seated
    · exact fun _ seated => nomatch seated
    · exact fun _ listed => nomatch listed
    · intro slot seated
      rcases seated with seated | seated <;> cases seated
  counted _ := rfl
  received _ _ listed := nomatch listed

-- One side is replaced by one that has heard nothing more.
theorem replaced (linked : Linked slots window letters link) (inbox : side.inbox = (link role).inbox)
    (kept : Multiplexer.Kept slots window role side.mux) (clean : side.Clean)
    (lanes : ∀ idx, (laneOf (link.put role side) letters idx).Sound window)
    (counted : ∀ idx, ownerOf idx = role → generationOf (side.mux.streams idx) = side.opened.count idx) :
    Linked slots window letters (link.put role side) where
  inbox := @forall_put _ _ _ (fun different side => side.inbox = (letters different).map encodeKeyedFrame)
    (inbox.trans (linked.inbox role)) linked.inbox
  valid := linked.valid
  kept := @forall_put _ _ _ (fun different side => Multiplexer.Kept slots window different side.mux) kept linked.kept
  lanes := lanes
  counted idx := by
    by_cases own : ownerOf idx = role
    · rw [own,put_same]
      exact counted idx own
    · rw [put_else own]
      exact linked.counted idx
  received := @forall_put _ _ _ (fun _ side => side.Clean) clean linked.received

theorem counted_at (linked : Linked slots window letters link) (own : ownerOf idx = role) :
    generationOf ((link role).mux.streams idx) = (link role).opened.count idx := own ▸ linked.counted idx

theorem worked (linked : Linked slots window letters link) (small : window < 2^32)
    (kept : Multiplexer.Kept slots window role next) (moved : Multiplexer.Worked (link role).mux next taken) :
    Linked slots window letters (link.put role ((link role).moved next taken)) := by
  refine replaced linked rfl kept (linked.received role) (fun idx => ?_) fun idx own => ?_
  · have sound := linked.lanes idx
    cases moved with
    | still streams =>
      exact still_sound (congrFun streams idx) (congrArg _ (List.append_nil _)) rfl sound
    | @acted target slot after bodies seated acted streams =>
      by_cases here : idx = target
      · subst here
        have placed : next.streams idx = some after := by
          rw [streams]
          exact Multiplexer.seat_same
        by_cases own : ownerOf idx = role
        · rw [laneOf_at own] at sound ⊢
          rw [put_same,put_other]
          dsimp only [Side.moved]
          rw [placed,logOf_taken]
          exact Lane.ownerActs_sound sound seated acted small
        · rw [laneOf_across (Role.ne_other own)] at sound ⊢
          rw [put_same,put_other]
          dsimp only [Side.moved]
          rw [placed,logOf_taken]
          exact Lane.peerActs_sound sound seated acted small
      · exact still_sound ((congrFun streams idx).trans (Multiplexer.seat_other here)) (logOf_elsewhere here) rfl sound
  · refine Eq.trans ?_ (counted_at linked own)
    change generationOf (next.streams idx) = _
    cases moved with
    | still streams => rw [streams]
    | @acted target slot after bodies seated acted streams =>
      rw [streams]
      by_cases here : idx = target
      · subst here
        rw [Multiplexer.seat_same,seated]
        exact acted.generation
      · rw [Multiplexer.seat_other here]

theorem opens (linked : Linked slots window letters link) {methodId : UInt32}
    (kept : Multiplexer.Kept slots window role next) (owned : role.ownsSlot target = true)
    (idle : Lane.Idle ((link role).mux.streams target))
    (streams : next.streams = ((link role).mux.seat target (Lane.freshSlot methodId headers window
      ((generationOf ((link role).mux.streams target) + 1) % 2^16))).streams)
    (unspent : (link role).opened.count target + 1 < 2^16) :
    Linked slots window letters (link.put role { link role with mux := next, opened := (link role).opened ++ [target] }) := by
  have own := owns_iff.mp owned
  have counted := counted_at linked own
  rw [counted,Nat.mod_eq_of_lt unspent,← counted] at streams
  refine replaced linked rfl kept (linked.received role) (fun idx => ?_) fun idx mine => ?_
  · have sound := linked.lanes idx
    by_cases here : idx = target
    · subst here
      have placed : next.streams idx = some (Lane.freshSlot methodId headers window (generationOf ((link role).mux.streams idx) + 1)) := by
        rw [streams]
        exact Multiplexer.seat_same
      rw [laneOf_at own] at sound ⊢
      rw [put_same,put_other]
      dsimp only
      rw [placed]
      exact Lane.ownerOpens_sound sound idle
    · exact still_sound ((congrFun streams idx).trans (Multiplexer.seat_other here)) rfl rfl sound
  · dsimp only
    rw [streams,List.count_append]
    by_cases here : idx = target
    · subst here
      rw [Multiplexer.seat_same,List.count_singleton_self,← counted]
      rfl
    · rw [Multiplexer.seat_other here,List.count_singleton,counted_at linked mine,if_neg (by simpa using Ne.symm here),Nat.add_zero]

section Shipping

def shipped (link : Link) (role : Role) (next : Multiplexer) (messages : List (List UInt8)) : Link :=
  (link.put role { link role with mux := next }).put role.other { link role.other with inbox := (link role.other).inbox ++ messages }

theorem shipped_here : shipped link role next messages role = { link role with mux := next } := by
  unfold shipped
  rw [put_else Role.other_ne.symm,put_same]

theorem shipped_there : shipped link role next messages role.other =
    { link role.other with inbox := (link role.other).inbox ++ messages } := put_same

theorem ships_nothing (linked : Linked slots window letters link) (kept : Multiplexer.Kept slots window role next)
    (streams : next.streams = (link role).mux.streams) :
    Linked slots window letters (shipped link role next []) := by
  have same : shipped link role next [] = link.put role { link role with mux := next } := by
    unfold shipped
    rw [List.append_nil]
    funext different
    by_cases there : different = role.other
    · rw [there,put_same,put_other]
    · rw [put_else there]
  rw [same]
  refine replaced linked rfl kept (linked.received role) (fun idx => ?_) fun idx own => ?_
  · exact still_sound (congrFun streams idx) rfl rfl (linked.lanes idx)
  · exact (congrArg generationOf (congrFun streams idx)).trans (counted_at linked own)

variable {next : Multiplexer} {slot : StreamSlot} (linked : Linked slots window letters link)
  (seated : (link role).mux.streams target = some slot) (shape : slot.sendQueue = frame :: rest)
  (streams : next.streams = ((link role).mux.seat target { slot with sendQueue := rest }).streams)

include linked seated shape streams in
theorem ships_lane : (laneOf (shipped link role next messages)
    (Function.update letters role.other (letters role.other ++ [⟨⟨target,slot.generation⟩,frame⟩])) idx).Sound window := by
  have sound := linked.lanes idx
  have apart : role ≠ role.other := Role.other_ne.symm
  by_cases own : ownerOf idx = role
  · rw [laneOf_at own] at sound ⊢
    rw [shipped_here,shipped_there,Function.update_self,Function.update_of_ne apart,onSlot_append]
    dsimp only
    rw [streams]
    by_cases here : idx = target
    · subst here
      rw [Multiplexer.seat_same,@onSlot_own idx ⟨⟨idx,slot.generation⟩,frame⟩ [] rfl]
      exact Lane.ownerShips_sound sound shape seated
    · rw [Multiplexer.seat_other here,@onSlot_other idx ⟨⟨target,slot.generation⟩,frame⟩ [] (Ne.symm here),onSlot_nil,List.append_nil]
      exact sound
  · rw [laneOf_across (Role.ne_other own)] at sound ⊢
    rw [shipped_here,shipped_there,Function.update_self,Function.update_of_ne apart,onSlot_append]
    dsimp only
    rw [streams]
    by_cases here : idx = target
    · subst here
      rw [Multiplexer.seat_same,@onSlot_own idx ⟨⟨idx,slot.generation⟩,frame⟩ [] rfl]
      exact Lane.peerShips_sound sound shape seated
    · rw [Multiplexer.seat_other here,@onSlot_other idx ⟨⟨target,slot.generation⟩,frame⟩ [] (Ne.symm here),onSlot_nil,List.append_nil]
      exact sound

include seated streams in
theorem ships_generation : generationOf (next.streams idx) = generationOf ((link role).mux.streams idx) := by
  rw [streams]
  by_cases here : idx = target
  · subst here
    rw [Multiplexer.seat_same,seated]
    rfl
  · rw [Multiplexer.seat_other here]

include linked seated shape streams in
theorem ships (kept : Multiplexer.Kept slots window role next) :
    Linked slots window (Function.update letters role.other (letters role.other ++ [⟨⟨target,slot.generation⟩,frame⟩]))
      (shipped link role next [encodeKeyedFrame ⟨⟨target,slot.generation⟩,frame⟩]) := by
  have inside := (linked.kept role).range target slot seated
  obtain ⟨generation,fits⟩ := (linked.kept role).queue target slot seated
  rw [shape] at fits
  have apart : role ≠ role.other := Role.other_ne.symm
  have sides : ∀ different, different = role ∨ different = role.other := by
    intro different
    by_cases same : different = role
    · exact .inl same
    · exact .inr (Role.ne_other same)
  refine ⟨fun different => ?_,fun different => ?_,fun different => ?_,fun idx => ships_lane linked seated shape streams,
    fun idx => ?_,fun different => ?_⟩
  · rcases sides different with rfl | rfl
    · rw [shipped_here,Function.update_of_ne apart]
      exact linked.inbox different
    · rw [shipped_there,Function.update_self,List.map_append,← linked.inbox role.other]
      rfl
  · rcases sides different with rfl | rfl
    · rw [Function.update_of_ne apart]
      exact linked.valid different
    · rw [Function.update_self]
      intro letter listed
      rcases List.mem_append.mp listed with old | new
      · exact linked.valid role.other letter old
      · rw [List.mem_singleton.mp new]
        exact ⟨fits frame List.mem_cons_self,inside,generation⟩
  · rcases sides different with rfl | rfl
    · rw [shipped_here]
      exact kept
    · rw [shipped_there]
      exact linked.kept role.other
  · have counted := linked.counted idx
    rcases sides (ownerOf idx) with own | own
    · rw [own] at counted ⊢
      rw [shipped_here]
      exact (ships_generation seated streams).trans counted
    · rw [own] at counted ⊢
      rw [shipped_there]
      exact counted
  · rcases sides different with rfl | rfl
    · rw [shipped_here]
      exact linked.received different
    · rw [shipped_there]
      exact linked.received role.other

end Shipping

section Receiving

def heard (side : Side) (next : Multiplexer) (message : List UInt8) (left : List (List UInt8)) (events : List Event) : Side :=
  { side with
    mux := next
    inbox := left
    delivered := side.delivered ++ next.chunks events
    received := side.received ++ [(message, .ok events)] }

def heardAt (link : Link) (role : Role) (next : Multiplexer) (letter : KeyedFrame) (rest : List KeyedFrame) (events : List Event) : Link :=
  link.put role (heard (link role) next (encodeKeyedFrame letter) (rest.map encodeKeyedFrame) events)

variable {mux : Multiplexer}

theorem recv_heard {side : Side} (waiting : side.inbox = message :: left) (done : side.mux.recv message = .ok (next, events)) :
    side.recv = heard side next message left events := by
  unfold Side.recv heard
  rw [waiting]
  dsimp only
  rw [done]

theorem recv_letter (linked : Linked slots window letters link) {letter : KeyedFrame} (listed : letter ∈ letters role) :
    (link role).mux.recv (encodeKeyedFrame letter) = (link role).mux.recvFrame letter := by
  obtain ⟨fits,stream,generation⟩ := linked.valid role letter listed
  have narrow : letter.key.streamId < 256^2 := by
    have := Nat.mod_lt slots (show 0 < 2^16 by decide)
    omega
  unfold Multiplexer.recv
  rw [decodeKeyedFrame_encode fits narrow generation]
  rfl

variable {letter : KeyedFrame} {taken : List Payload}

theorem received_at (linked : Linked slots window letters link) (arrives : letters role = letter :: rest)
    (kept : Multiplexer.Kept slots window role next)
    (elsewhere : ∀ idx, idx ≠ letter.key.streamId → next.streams idx = (link role).mux.streams idx)
    (chunks : next.chunks events = taken.map fun payload => (⟨letter.key.streamId,letter.key.generation⟩, payload))
    (lane : (laneOf (heardAt link role next letter rest events) (Function.update letters role rest) letter.key.streamId).Sound window)
    (generation : ownerOf letter.key.streamId = role →
      generationOf (next.streams letter.key.streamId) = generationOf ((link role).mux.streams letter.key.streamId))
    (fine : Fine (encodeKeyedFrame letter, .ok events)) :
    Linked slots window (Function.update letters role rest) (heardAt link role next letter rest events) := by
  unfold heardAt at lane ⊢
  refine ⟨fun different => ?_,fun different => ?_,@forall_put _ _ _
    (fun different side => Multiplexer.Kept slots window different side.mux) kept linked.kept,
    fun idx => ?_,fun idx => ?_,@forall_put _ _ _ (fun _ side => side.Clean) ?_ linked.received⟩
  · by_cases same : different = role
    · rw [same,put_same,Function.update_self]
      rfl
    · rw [put_else same,Function.update_of_ne same]
      exact linked.inbox different
  · by_cases same : different = role
    · rw [same,Function.update_self]
      intro waiting listed
      exact linked.valid role waiting (arrives ▸ List.mem_cons_of_mem _ listed)
    · rw [Function.update_of_ne same]
      exact linked.valid different
  · by_cases here : idx = letter.key.streamId
    · subst here
      exact lane
    · have way : ∀ different, onSlot idx (Function.update letters role rest different) =
          onSlot idx (letters different) := by
        intro different
        by_cases same : different = role
        · rw [same,Function.update_self,arrives,onSlot_other (Ne.symm here)]
        · rw [Function.update_of_ne same]
      have heard : logOf idx ((link role).delivered ++ next.chunks events) = logOf idx (link role).delivered := by
        rw [chunks]
        exact logOf_elsewhere here
      have still : laneOf (heardAt link role next letter rest events) letters idx = laneOf link letters idx :=
        laneOf_still (elsewhere idx here) rfl heard
      have sound := linked.lanes idx
      rw [← still] at sound
      unfold laneOf at sound ⊢
      rw [way,way]
      exact sound
  · have counted := linked.counted idx
    by_cases own : ownerOf idx = role
    · rw [own] at counted ⊢
      rw [put_same]
      refine Eq.trans ?_ counted
      change generationOf (next.streams idx) = _
      by_cases here : idx = letter.key.streamId
      · rw [here] at own ⊢
        exact generation own
      · rw [elsewhere idx here]
    · rw [put_else own]
      exact counted
  · intro got listed
    rcases List.mem_append.mp listed with old | new
    · exact linked.received role got old
    · rw [List.mem_singleton.mp new]
      exact fine

theorem arriving_owner (own : ownerOf letter.key.streamId = role)
    (arrives : letters role = letter :: rest) : (laneOf link letters letter.key.streamId).back =
      (letter.key.generation, letter.frame) :: onSlot letter.key.streamId rest := by
  rw [laneOf_at own,arrives]
  exact onSlot_own rfl

theorem arriving_peer (own : ownerOf letter.key.streamId = role.other)
    (arrives : letters role = letter :: rest) : (laneOf link letters letter.key.streamId).out =
      (letter.key.generation, letter.frame) :: onSlot letter.key.streamId rest := by
  rw [laneOf_across own,arrives]
  exact onSlot_own rfl

theorem arrived_owner (own : ownerOf letter.key.streamId = role)
    (chunks : next.chunks events = taken.map fun payload => (⟨letter.key.streamId,letter.key.generation⟩, payload)) :
    laneOf (heardAt link role next letter rest events) (Function.update letters role rest) letter.key.streamId =
      { laneOf link letters letter.key.streamId with
        owner := next.streams letter.key.streamId
        back := onSlot letter.key.streamId rest
        ownerGot := extend (laneOf link letters letter.key.streamId).ownerGot letter.key.generation taken } := by
  rw [heardAt,laneOf_at own,laneOf_at own,put_same,put_other,Function.update_self,Function.update_of_ne Role.other_ne]
  dsimp only [heard]
  rw [chunks,logOf_taken]

theorem arrived_peer (own : ownerOf letter.key.streamId = role.other)
    (chunks : next.chunks events = taken.map fun payload => (⟨letter.key.streamId,letter.key.generation⟩, payload)) :
    laneOf (heardAt link role next letter rest events) (Function.update letters role rest) letter.key.streamId =
      { laneOf link letters letter.key.streamId with
        peer := next.streams letter.key.streamId
        out := onSlot letter.key.streamId rest
        peerGot := extend (laneOf link letters letter.key.streamId).peerGot letter.key.generation taken } := by
  rw [heardAt,laneOf_across own,laneOf_across own,put_same,put_other,Function.update_self,Function.update_of_ne Role.other_ne]
  dsimp only [heard]
  rw [chunks,logOf_taken]

theorem fine_quiet (carries : decodeKeyedFrame message = .ok ⟨key,frame⟩)
    (clean : frame.isBody = true → ∀ code, .resetStream key.streamId code ∉ events) :
    Fine (message, .ok events) := by
  refine ⟨events,rfl,fun other payload decoded => ?_⟩
  rw [carries] at decoded
  cases decoded
  exact clean rfl

theorem carries (linked : Linked slots window letters link) (listed : letter ∈ letters role) :
    decodeKeyedFrame (encodeKeyedFrame letter) = .ok letter := by
  obtain ⟨fits,stream,generation⟩ := linked.valid role letter listed
  refine decodeKeyedFrame_encode fits ?_ generation
  have := Nat.mod_lt slots (show 0 < 2^16 by decide)
  omega

theorem receives_stale (linked : Linked slots window letters link) (arrives : letters role = letter :: rest)
    (quiet : letter.frame.isOpen = false)
    (gone : ∀ slot, (link role).mux.streams letter.key.streamId = some slot → slot.generation ≠ letter.key.generation) :
    Linked slots window (Function.update letters role rest) (heardAt link role (link role).mux letter rest []) := by
  have chunks : (link role).mux.chunks [] = ([] : List Payload).map fun payload =>
      (⟨letter.key.streamId,letter.key.generation⟩, payload) := rfl
  refine received_at linked arrives (linked.kept role) (fun _ _ => rfl) chunks ?_ (fun _ => rfl)
    (fine_quiet (carries linked (arrives ▸ List.mem_cons_self)) fun _ _ => List.not_mem_nil)
  have sound := linked.lanes letter.key.streamId
  by_cases own : ownerOf letter.key.streamId = role
  · rw [arrived_owner own chunks,Flow.extend_nil]
    have passed := Lane.ownerPasses_sound sound (arriving_owner own arrives) (by rw [laneOf_at own]; exact gone)
    rw [laneOf_at own] at passed ⊢
    exact passed
  · have theirs := Role.ne_other own
    rw [arrived_peer theirs chunks,Flow.extend_nil]
    have passed := Lane.peerPasses_sound sound (arriving_peer theirs arrives) quiet (by rw [laneOf_across theirs]; exact gone)
    rw [laneOf_across theirs] at passed ⊢
    exact passed

theorem arriving_fits (linked : Linked slots window letters link) (arrives : letters role = letter :: rest)
    (seated : (link role).mux.streams letter.key.streamId = some slot) (same : slot.generation = letter.key.generation)
    (body : letter.frame = .body payload) (listening : slot.peerTerminal = false) :
    payload.length ≤ slot.localRecvCredit := by
  have sound := linked.lanes letter.key.streamId
  by_cases own : ownerOf letter.key.streamId = role
  · have flow := sound.inward
    have way : (laneOf link letters letter.key.streamId).homeward = (slot.generation, .body payload) :: (onSlot letter.key.streamId rest ++
          queued (laneOf link letters letter.key.streamId).peer) := by
      rw [Lane.homeward,arriving_owner own arrives,body,same]
      rfl
    rw [way] at flow
    rw [show (laneOf link letters letter.key.streamId).owner = some slot by
      rw [laneOf_at own]; exact seated] at flow
    exact Lane.arriving_room flow listening
  · have theirs := Role.ne_other own
    have flow := sound.outward
    have way : (laneOf link letters letter.key.streamId).onward = (slot.generation, .body payload) :: (onSlot letter.key.streamId rest ++
          queued (laneOf link letters letter.key.streamId).owner) := by
      rw [Lane.onward,arriving_peer theirs arrives,body,same]
      rfl
    rw [way] at flow
    rw [show (laneOf link letters letter.key.streamId).peer = some slot by
      rw [laneOf_across theirs]; exact seated] at flow
    exact Lane.arriving_room flow listening

theorem receives_seated (linked : Linked slots window letters link) (small : window < 2^32)
    (arrives : letters role = letter :: rest) (quiet : letter.frame.isOpen = false)
    (seated : (link role).mux.streams letter.key.streamId = some slot) (same : slot.generation = letter.key.generation) :
    let done := (link role).mux.recvSeated letter.key.streamId slot letter.frame
    Linked slots window (Function.update letters role rest) (heardAt link role done.1 letter rest done.2) := by
  have listed : letter ∈ letters role := arrives ▸ List.mem_cons_self
  obtain ⟨kept,after,taken,hears,streams,chunks,clean⟩ :=
    Multiplexer.recvSeated_worked (linked.kept role) seated quiet (linked.valid role letter listed).1
      (fun payload body listening => arriving_fits linked arrives seated same body listening)
  rw [same] at chunks
  have placed : ((link role).mux.recvSeated letter.key.streamId slot letter.frame).1.streams letter.key.streamId = some after := by
    rw [streams]
    exact Multiplexer.seat_same
  refine received_at linked arrives kept (fun idx other => (congrFun streams idx).trans (Multiplexer.seat_other other)) chunks ?_
    (fun _ => ?_) (fine_quiet (carries linked listed) clean)
  · have sound := linked.lanes letter.key.streamId
    by_cases own : ownerOf letter.key.streamId = role
    · rw [arrived_owner own chunks,placed]
      have chosen : (laneOf link letters letter.key.streamId).owner = some slot := by
        rw [laneOf_at own]
        exact seated
      have moved := Lane.ownerHears_sound sound chosen (by rw [arriving_owner own arrives,same]) hears small
      rw [Lane.ownerHears,same] at moved
      exact moved
    · have theirs := Role.ne_other own
      rw [arrived_peer theirs chunks,placed]
      have chosen : (laneOf link letters letter.key.streamId).peer = some slot := by
        rw [laneOf_across theirs]
        exact seated
      have moved := Lane.peerHears_sound sound chosen (by rw [arriving_peer theirs arrives,same]) quiet hears small
      rw [Lane.peerHears,same] at moved
      exact moved
  · rw [placed,seated]
    exact hears.generation

theorem recvFrame_seated (inside : ¬mux.slots ≤ letter.key.streamId) (quiet : letter.frame.isOpen = false)
    (seated : mux.streams letter.key.streamId = some slot) (same : slot.generation = letter.key.generation) :
    mux.recvFrame letter = .ok (mux.recvSeated letter.key.streamId slot letter.frame) := by
  unfold Multiplexer.recvFrame
  rw [if_neg inside,seated]
  cases shape : letter.frame with
  | openFrame methodId headers =>
    rw [shape] at quiet
    cases quiet
  | body | endFrame | reset | credit => exact if_neg (not_not.mpr same)

theorem recvFrame_stale (inside : ¬mux.slots ≤ letter.key.streamId) (quiet : letter.frame.isOpen = false)
    (gone : ∀ slot, mux.streams letter.key.streamId = some slot → slot.generation ≠ letter.key.generation) :
    mux.recvFrame letter = .ok (mux, []) := by
  unfold Multiplexer.recvFrame
  rw [if_neg inside]
  cases shape : letter.frame with
  | openFrame methodId headers =>
    rw [shape] at quiet
    cases quiet
  | body | endFrame | reset | credit =>
    cases seated : mux.streams letter.key.streamId with
    | none => rfl
    | some slot => exact if_pos (gone slot seated)

theorem receives_open (linked : Linked slots window letters link) (arrives : letters role = letter :: rest)
    {methodId : UInt32} {headers : Metadata} (opens : letter.frame = .openFrame methodId headers) :
    ∃ next, (link role).mux.recvFrame letter = .ok (next, [.newIncomingStream letter.key.streamId methodId headers]) ∧
      Linked slots window (Function.update letters role rest)
        (heardAt link role next letter rest [.newIncomingStream letter.key.streamId methodId headers]) := by
  have listed : letter ∈ letters role := arrives ▸ List.mem_cons_self
  obtain ⟨-,inside,generation⟩ := linked.valid role letter listed
  have sound := linked.lanes letter.key.streamId
  have theirs : ownerOf letter.key.streamId = role.other := by
    refine Role.ne_other fun own => ?_
    have quiet := (sound.ordered.homeward (letter.key.generation, letter.frame) (by
      rw [Lane.homeward,arriving_owner own arrives]
      exact List.mem_cons_self)).2
    rw [opens] at quiet
    cases quiet
  have out : (laneOf link letters letter.key.streamId).out =
      (letter.key.generation, .openFrame methodId headers) :: onSlot letter.key.streamId rest := by
    rw [arriving_peer theirs arrives,opens]
  have foreign : role.ownsSlot letter.key.streamId = false := by
    rw [← Bool.not_eq_true]
    exact fun owned => Role.other_ne (theirs.symm.trans (owns_iff.mp owned))
  have vacant := Lane.peerOpens_vacant sound out
  rw [show (laneOf link letters letter.key.streamId).peer =
    (link role).mux.streams letter.key.streamId by rw [laneOf_across theirs]] at vacant
  obtain ⟨next,done,kept,streams⟩ := @Multiplexer.recvOpen_worked _ _ _ _ (linked.kept role)
    letter.key methodId headers foreign inside generation vacant
  rw [show (⟨letter.key,.openFrame methodId headers⟩ : KeyedFrame) = letter by rw [← opens]] at done
  have chunks : next.chunks [.newIncomingStream letter.key.streamId methodId headers] =
      ([] : List Payload).map fun payload => (⟨letter.key.streamId,letter.key.generation⟩, payload) := rfl
  refine ⟨next,done,received_at linked arrives kept (fun idx other => (congrFun streams idx).trans (Multiplexer.seat_other other)) chunks ?_
    (fun own => absurd (theirs.symm.trans own) Role.other_ne)
    (fine_quiet (carries linked listed) fun body => ?_)⟩
  · rw [arrived_peer theirs chunks,Flow.extend_nil,streams,Multiplexer.seat_same]
    exact Lane.peerOpens_sound sound out
  · rw [opens] at body
    cases body

theorem receives (linked : Linked slots window letters link) (small : window < 2^32) :
    ∃ later, Linked slots window later (link.put role (link role).recv) := by
  have waiting := linked.inbox role
  cases arrives : letters role with
  | nil =>
    rw [arrives] at waiting
    have same : (link role).recv = link role := by
      unfold Side.recv
      rw [waiting]
      rfl
    refine ⟨letters,?_⟩
    rw [same,Link.put,Function.update_eq_self]
    exact linked
  | cons letter rest =>
    rw [arrives] at waiting
    have known := @recv_letter _ _ _ _ role linked letter (arrives ▸ List.mem_cons_self)
    have inside := (linked.valid role letter (arrives ▸ List.mem_cons_self)).2.1
    have range : ¬(link role).mux.slots ≤ letter.key.streamId := by
      rw [(linked.kept role).size]
      have := Nat.mod_le slots (2^16)
      omega
    refine ⟨Function.update letters role rest,?_⟩
    cases opens : letter.frame.isOpen with
    | true =>
      cases shape : letter.frame with
      | openFrame methodId headers =>
        obtain ⟨next,done,later⟩ := receives_open linked arrives shape
        rw [recv_heard waiting (known.trans done)]
        exact later
      | body | endFrame | reset | credit =>
        rw [shape] at opens
        cases opens
    | false =>
      by_cases current : ∃ slot, (link role).mux.streams letter.key.streamId = some slot ∧ slot.generation = letter.key.generation
      · obtain ⟨slot,seated,same⟩ := current
        have done := recvFrame_seated range opens seated same
        rw [recv_heard waiting (known.trans done)]
        exact receives_seated linked small arrives opens seated same
      · have gone : ∀ slot, (link role).mux.streams letter.key.streamId = some slot →
            slot.generation ≠ letter.key.generation :=
          fun slot seated same => current ⟨slot,seated,same⟩
        rw [recv_heard waiting (known.trans (recvFrame_stale range opens gone))]
        exact receives_stale linked arrives opens gone

end Receiving

section Stepping

theorem moved_nil : side.moved next [] = { side with mux := next } := by
  unfold Side.moved
  rw [List.append_nil]

theorem narrow_window (small : window < maxFrameBytes) : window < 2^32 := small.trans (by decide)

theorem opening_steps (linked : Linked slots window letters link) (small : window < maxFrameBytes)
    {methodId : UInt32} {headers : Metadata} (fits : (Frame.openFrame methodId headers).Fits)
    (unspent : Unspent (link.step role (.openStream methodId headers))) :
    Linked slots window letters (link.step role (.openStream methodId headers)) := by
  obtain ⟨kept,refused | opened⟩ := Multiplexer.openStream_worked (linked.kept role) fits
  · obtain ⟨reason,failed,streams⟩ := refused
    have same : (link role).openStream methodId headers = (link role).moved ((link role).mux.openStream methodId headers).1 [] := by
      rw [moved_nil]
      unfold Side.openStream
      split
      · rename_i mux idx done
        rw [done] at failed
        cases failed
      · rename_i mux reason done
        rw [done]
    rw [Link.step,same]
    exact worked linked (narrow_window small) kept (.still streams)
  · obtain ⟨idx,done,owned,idle,streams⟩ := opened
    have same : (link role).openStream methodId headers = { link role with
        mux := ((link role).mux.openStream methodId headers).1
        opened := (link role).opened ++ [idx] } := by
      unfold Side.openStream
      split
      · rename_i mux found step
        rw [step] at done ⊢
        cases done
        rfl
      · rename_i mux reason step
        rw [step] at done
        cases done
    have count := unspent role idx
    rw [Link.step,same] at count ⊢
    rw [put_same,List.count_append,List.count_singleton_self] at count
    exact opens linked kept owned idle streams count

theorem sending_steps (linked : Linked slots window letters link) (small : window < maxFrameBytes) :
    Linked slots window letters (link.step role (.trySendBody idx payload)) := by
  rw [Link.step]
  unfold Side.trySendBody
  split
  · rename_i mux done
    obtain ⟨kept,accepted,-⟩ := Multiplexer.trySendBody_worked (linked.kept role) small done
    exact worked linked (narrow_window small) kept (accepted rfl)
  · rename_i mux back done
    obtain ⟨kept,-,blocked⟩ := Multiplexer.trySendBody_worked (linked.kept role) small done
    rw [← moved_nil]
    exact worked linked (narrow_window small) kept (blocked fun same => nomatch same)
  · rw [Link.put,Function.update_eq_self]
    exact linked

theorem withMux_steps (linked : Linked slots window letters link) (small : window < maxFrameBytes)
    (each : ∀ next, result = .ok next → Multiplexer.Kept slots window role next ∧ Multiplexer.Worked (link role).mux next []) :
    Linked slots window letters (link.put role ((link role).withMux result)) := by
  cases result with
  | ok next =>
    obtain ⟨kept,moved⟩ := each next rfl
    rw [Side.withMux,← moved_nil]
    exact worked linked (narrow_window small) kept moved
  | error reason =>
    rw [Side.withMux,Link.put,Function.update_eq_self]
    exact linked

theorem high_water (linked : Linked slots window letters link)
    (seated : (link role).mux.streams idx = some slot) : slot.localCreditHighWater = window := by
  refine ((linked.lanes idx).bounded slot ?_).2
  by_cases own : ownerOf idx = role
  · left
    rw [laneOf_at own]
    exact seated
  · right
    rw [laneOf_across (Role.ne_other own)]
    exact seated

theorem shipping_steps (linked : Linked slots window letters link) :
    ∃ later, Linked slots window later (link.ship role) := by
  obtain ⟨kept,nothing | something⟩ := Multiplexer.nextOutbound_worked (linked.kept role)
  · obtain ⟨quiet,streams⟩ := nothing
    have same : link.ship role = shipped link role (link role).mux.nextOutbound.1 [] := by
      unfold Link.ship
      dsimp only
      rw [quiet]
      rfl
    exact ⟨letters,same ▸ ships_nothing linked kept streams⟩
  · obtain ⟨idx,slot,frame,rest,seated,shape,message,streams⟩ := something
    have same : link.ship role = shipped link role (link role).mux.nextOutbound.1 [encodeKeyedFrame ⟨⟨idx,slot.generation⟩,frame⟩] := by
      unfold Link.ship
      dsimp only
      rw [message]
      rfl
    exact ⟨_,same ▸ ships linked seated shape streams kept⟩

theorem steps (linked : Linked slots window letters link) (small : window < maxFrameBytes)
    (fits : act.Fits) (unspent : Unspent (link.step role act)) :
    ∃ later, Linked slots window later (link.step role act) := by
  cases act with
  | openStream methodId headers => exact ⟨letters,opening_steps linked small fits unspent⟩
  | trySendBody idx payload => exact ⟨letters,sending_steps linked small⟩
  | closeSend idx trailer =>
    exact ⟨letters,withMux_steps linked small fun _ done => Multiplexer.closeSend_worked (linked.kept role) fits done⟩
  | reset idx code =>
    obtain ⟨kept,moved⟩ := @Multiplexer.reset_worked _ _ _ _ idx (linked.kept role) code
    refine ⟨letters,?_⟩
    rw [Link.step,← moved_nil]
    exact worked linked (narrow_window small) kept moved
  | consume idx bytes =>
    refine ⟨letters,withMux_steps linked small fun _ done => Multiplexer.consume_worked (linked.kept role) (fun slot seated => ?_) done⟩
    rw [high_water linked seated]
    exact narrow_window small
  | nextOutbound => exact shipping_steps linked
  | recv => exact receives linked (narrow_window small)

theorem opened_grows : (link different).opened.count idx ≤ ((link.step role act) different).opened.count idx := by
  have put : ∀ side : Side, (link role).opened.count idx ≤ side.opened.count idx →
      (link different).opened.count idx ≤ ((link.put role side) different).opened.count idx := by
    intro side grows
    by_cases same : different = role
    · rw [same,put_same]
      exact grows
    · rw [put_else same]
  cases act with
  | openStream methodId headers =>
    refine put _ ?_
    unfold Side.openStream
    split
    · exact (List.prefix_append _ _).sublist.count_le idx
    · exact Nat.le_refl _
  | trySendBody target payload =>
    refine put _ ?_
    unfold Side.trySendBody
    split <;> exact Nat.le_refl _
  | closeSend target trailer =>
    refine put _ ?_
    unfold Side.withMux
    split <;> exact Nat.le_refl _
  | reset target code => exact put _ (Nat.le_refl _)
  | consume target bytes =>
    refine put _ ?_
    unfold Side.withMux
    split <;> exact Nat.le_refl _
  | nextOutbound =>
    rw [Link.step]
    unfold Link.ship
    dsimp only
    by_cases there : different = role.other
    · rw [there,put_same]
    · rw [put_else there]
      exact put _ (Nat.le_refl _)
  | recv =>
    refine put _ ?_
    unfold Side.recv
    split
    · exact Nat.le_refl _
    · split <;> exact Nat.le_refl _

theorem unspent_before (unspent : Unspent (link.run acts)) : Unspent link := by
  induction acts generalizing link with
  | nil => exact unspent
  | cons act acts ih =>
    intro role idx
    exact Nat.lt_of_le_of_lt opened_grows (ih unspent role idx)

theorem runs (linked : Linked slots window letters link) (small : window < maxFrameBytes)
    (fits : ∀ act ∈ acts, act.2.Fits) (unspent : Unspent (link.run acts)) :
    ∃ later, Linked slots window later (link.run acts) := by
  induction acts generalizing link letters with
  | nil => exact ⟨letters,linked⟩
  | cons act acts ih =>
    obtain ⟨next,stepped⟩ := steps linked small (fits act List.mem_cons_self) (unspent_before unspent)
    exact ih stepped (fun later listed => fits later (List.mem_cons_of_mem _ listed)) unspent

end Stepping

end Linked

def readTagged (idx : Nat) (message : List UInt8) : Option Tagged :=
  match decodeKeyedFrame message with
  | .ok keyed =>
    if keyed.key.streamId = idx then some (keyed.key.generation, keyed.frame) else none
  | .error _ => none

def Side.underWay (side : Side) (idx : Nat) : List Tagged := side.inbox.filterMap (readTagged idx)

namespace Linked

variable {slots window : Nat} {letters : Letters} {link : Link} {role : Role}

theorem underWay_letters (linked : Linked slots window letters link) :
    (link role).underWay idx = onSlot idx (letters role) := by
  unfold Side.underWay onSlot
  rw [linked.inbox role,List.filterMap_map]
  refine List.filterMap_congr fun letter listed => ?_
  change readTagged idx (encodeKeyedFrame letter) = _
  unfold readTagged
  rw [carries linked listed]

theorem balanced (linked : Linked slots window letters link) (sends : (link role).mux.streams idx = some sender)
    (takes : (link role.other).mux.streams idx = some receiver) (same : sender.generation = receiver.generation)
    (live : sender.isClosed = false) (hearing : receiver.peerTerminal = false) :
    receiver.localRecvCredit = sender.peerRecvCredit + load receiver.generation ((link role.other).underWay idx ++ sender.tagged) +
      credit receiver.generation ((link role).underWay idx ++ receiver.tagged) := by
  rw [underWay_letters linked,underWay_letters linked]
  have sound := linked.lanes idx
  by_cases own : ownerOf idx = role
  · have flow := sound.outward
    rw [laneOf_at own] at flow
    dsimp only [Lane.onward,Lane.homeward] at flow
    rw [sends,takes] at flow
    exact ((flow receiver rfl hearing).2.2 sender rfl same live).1
  · have flow := sound.inward
    rw [laneOf_across (Role.ne_other own)] at flow
    dsimp only [Lane.onward,Lane.homeward] at flow
    rw [sends,takes] at flow
    exact ((flow receiver rfl hearing).2.2 sender rfl same live).1

theorem in_order (linked : Linked slots window letters link) {idx generation : Nat} :
    logOf idx (link role).delivered generation <+: logOf idx (link role.other).accepted generation := by
  have sound := (linked.lanes idx).logged
  by_cases own : ownerOf idx = role
  · have back := sound.homeward generation
    rw [laneOf_at own] at back
    exact back
  · have out := sound.onward generation
    rw [laneOf_across (Role.ne_other own)] at out
    exact out

end Linked

-- Two ends of one link deliver each stream's bodies in order and never run out of the room they
-- promised each other.
theorem link_is_faithful {slots window : Nat} (small : window < maxFrameBytes)
    {acts : List (Role × Act)} (fits : ∀ act ∈ acts, act.2.Fits) {link : Link}
    (reached : link = (Link.new slots window).run acts) (unspent : Unspent link) :
    (∀ role, ∀ got ∈ (link role).received, Fine got) ∧
    (∀ role idx sender receiver, (link role).mux.streams idx = some sender →
      (link role.other).mux.streams idx = some receiver →
      sender.generation = receiver.generation → sender.isClosed = false →
      receiver.isClosed = false → receiver.peerTerminal = false →
      receiver.localRecvCredit = sender.peerRecvCredit +
        load receiver.generation ((link role.other).underWay idx ++ sender.tagged) +
        credit receiver.generation ((link role).underWay idx ++ receiver.tagged)) ∧
    ∀ role idx generation, logOf idx (link role).delivered generation <+:
      logOf idx (link role.other).accepted generation := by
  subst reached
  obtain ⟨letters,linked⟩ := Linked.runs Linked.new small fits unspent
  refine ⟨linked.received,?_,fun role idx generation => Linked.in_order linked⟩
  intro role idx sender receiver sends takes same live _ hearing
  exact Linked.balanced linked sends takes same live hearing

namespace Sample

-- A stream is opened, carries one body, and its reader gives part of the room back.
def exchange : List (Role × Act) :=
  [(.client, .openStream 7 []),(.client, .nextOutbound),(.server, .recv),
    (.client, .trySendBody 0 [1,2,3]),(.client, .nextOutbound),(.server, .recv),
    (.server, .consume 0 2),(.client, .trySendBody 0 [4])]

theorem exchange_fits : ∀ act ∈ exchange, act.2.Fits := by
  have opens : (Frame.openFrame 7 []).Fits := by
    refine ⟨by decide +kernel,fun methodId headers same => ?_,fun _ _ same => (nomatch same),
      fun _ same => (nomatch same)⟩
    cases same
    exact ⟨by decide,fun _ listed => nomatch listed⟩
  simp [exchange,Act.Fits,opens]

theorem exchange_unspent : Unspent ((Link.new 2 16).run exchange) := by
  have client : (((Link.new 2 16).run exchange) .client).opened = [0] := by decide +kernel
  have server : (((Link.new 2 16).run exchange) .server).opened = [] := by decide +kernel
  intro role idx
  cases role with
  | client =>
    rw [client]
    exact Nat.lt_of_le_of_lt List.count_le_length (by decide)
  | server =>
    rw [server]
    exact Nat.lt_of_le_of_lt List.count_le_length (by decide)

theorem link_is_faithful_exchange :
    (∃ sender receiver, (((Link.new 2 16).run exchange) .client).mux.streams 0 = some sender ∧
      (((Link.new 2 16).run exchange) .server).mux.streams 0 = some receiver ∧
      sender.isClosed = false ∧ receiver.isClosed = false ∧
      receiver.localRecvCredit = sender.peerRecvCredit + 1 + 2) ∧
    logOf 0 (((Link.new 2 16).run exchange) .server).delivered 1 = [[1,2,3]] ∧
    logOf 0 (((Link.new 2 16).run exchange) .server).delivered 1 <+:
      logOf 0 (((Link.new 2 16).run exchange) .client).accepted 1 := by
  obtain ⟨_,balance,order⟩ := link_is_faithful (by decide) exchange_fits rfl exchange_unspent
  have sends : (((Link.new 2 16).run exchange) .client).mux.streams 0 =
      some ⟨1,7,12,16,16,[.body [4]],false,false⟩ := by decide +kernel
  have takes : (((Link.new 2 16).run exchange) .server).mux.streams 0 =
      some ⟨1,7,16,15,16,[.credit 2],false,false⟩ := by decide +kernel
  have counts := balance .client 0 _ _ sends takes rfl rfl rfl rfl
  have loaded : load 1 ((((Link.new 2 16).run exchange) .server).underWay 0 ++ [(1, .body [4])]) =
      1 := by decide +kernel
  have returned : credit 1 ((((Link.new 2 16).run exchange) .client).underWay 0 ++
      [(1, .credit 2)]) = 2 := by decide +kernel
  refine ⟨⟨_,_,sends,takes,rfl,rfl,?_⟩,by decide +kernel,order .server 0 1⟩
  rw [← loaded,← returned]
  exact counts

end Sample

end Hellas.Wire
