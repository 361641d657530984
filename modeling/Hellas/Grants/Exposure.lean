import Hellas.Grants.Ledger

-- What a node has used and what is held through it, over any run of the ledger.

namespace Hellas.Grants

open Authority Guard Lineage Words

namespace Ledger

section Exact

variable {ledger : Ledger} {node : BudgetNode} {meter : Meter}

-- The exact sum held through a node, where the code adds with saturation.
def exposure (ledger : Ledger) (node : BudgetNode) (meter : Meter) : Nat :=
  ledger.held.weight fun held => if node ∈ held.path then (held.charge meter).toNat else 0

theorem total_through :
    total (fun held : Held => held.charge meter) (ledger.through node) = ledger.exposure node meter := by
  rw [through,total_filter,exposure,← Slots.sum_values]
  simp only [decide_eq_true_eq]

theorem reserved_exact (fits : ledger.exposure node meter < 2^64) :
    (ledger.reserved node meter).toNat = ledger.exposure node meter := by
  rw [← total_through] at fits ⊢
  exact saturatingSum_exact fits

theorem activeCount_weight : ledger.activeCount node = ledger.held.weight fun held => if node ∈ held.path then 1 else 0 := by
  rw [activeCount,through,← Slots.sum_values,← List.countP_eq_length_filter]
  induction ledger.held.values with
  | nil => rfl
  | cons head rest ih =>
    rw [List.countP_cons,List.map_cons,List.sum_cons,ih,Nat.add_comm]
    simp only [decide_eq_true_eq]

end Exact

-- What each operation leaves behind.
section Steps

variable {ledger after : Ledger} {id : BudgetNode}

theorem advance_node {time : UnixMillis} : (ledger.advance time).node id =
    (ledger.node id).map fun node => node.advance (max ledger.highWater time) :=
  Slots.lookup_mapAll

theorem node_insert {other : BudgetNode} {placed : Node} :
    node { ledger with nodes := ledger.nodes.insert other placed } id = if id = other then some placed else ledger.node id :=
  Slots.lookup_insert_if

theorem configure_ok :
    ledger.configure id limits concurrent = .ok after ↔ ¬InvalidLimits limits concurrent ∧
      after = { ledger with nodes := ledger.nodes.insert id (ledger.configured id limits concurrent) } := by
  simp only [configure,bind_ok,rejectIf_ok,pure_ok]
  constructor
  · intro passed
    obtain ⟨_,valid,same⟩ := passed
    exact ⟨valid,same.symm⟩
  · intro placed
    exact ⟨(),placed.1,placed.2.symm⟩

def defined (ledger : Ledger) (definition : BudgetDef) : Node :=
  { ledger.configured definition.node definition.limits definition.maxInFlight with
    parent := some definition.parent
    revision := definition.revision }

structure Defines (ledger : Ledger) (definition : BudgetDef) : Prop where
  parent : definition.node.ValidParent definition.parent
  room : ∃ above, ledger.path definition.parent = .ok above ∧ above.length < maxBudgetPathLen
  revision : ledger.checkRevision definition = .ok ()
  limits : ¬InvalidLimits definition.limits definition.maxInFlight

theorem configureBudget_ok {definition : BudgetDef} :
    ledger.configureBudget definition = .ok after ↔ ledger.Defines definition ∧
      after = { ledger with nodes := ledger.nodes.insert definition.node (ledger.defined definition) } := by
  simp only [configureBudget,bind_ok,rejectIf_ok,not_not,not_le,configure_ok,okOr_ok,pure_ok]
  constructor
  · intro accepted
    obtain ⟨_,parent,above,found,_,room,_,revision,next,⟨limits,rfl⟩,node,placed,rfl⟩ := accepted
    rw [node_insert,if_pos rfl] at placed
    cases placed
    exact ⟨⟨parent,⟨above,found,room⟩,revision,limits⟩,by rw [Finmap.insert_insert]; rfl⟩
  · intro accepted
    obtain ⟨⟨parent,⟨above,found,room⟩,revision,limits⟩,rfl⟩ := accepted
    refine ⟨(),parent,above,found,(),room,(),revision,_,⟨limits,rfl⟩,_,node_insert.trans (if_pos rfl),?_⟩
    rw [Finmap.insert_insert]
    rfl

theorem spendAlong_all {path : List BudgetNode} (distinct : path.Nodup) (placed : ∀ id ∈ path, ledger.node id ≠ none) :
    ledger.spendAlong actual path =
      ({ ledger with nodes := ledger.nodes.mapAll fun id node =>
          if id ∈ path then node.spend actual else node }, .ok ()) := by
  induction path generalizing ledger with
  | nil =>
    have same : ledger.nodes = ledger.nodes.mapAll fun id node =>
        if id ∈ ([] : List BudgetNode) then node.spend actual else node := by
      apply Finmap.ext_lookup
      intro key
      simp
    rw [spendAlong,← same]
  | cons head path ih =>
    obtain ⟨node,found⟩ := Option.ne_none_iff_exists'.mp (placed head List.mem_cons_self)
    rw [List.nodup_cons] at distinct
    rw [spendAlong,found]
    dsimp only
    rw [ih distinct.2 fun id later => ?_]
    · congr 2
      apply Finmap.ext_lookup
      intro key
      rw [Slots.lookup_mapAll,Slots.lookup_mapAll,Slots.lookup_insert_if]
      by_cases same : key = head
      · subst same
        have held : ledger.nodes.lookup key = some node := found
        simp [held,distinct.1]
      · simp [same]
    · rw [node_insert]
      split
      · exact Option.some_ne_none _
      · exact placed id (List.mem_cons_of_mem _ later)

end Steps

section Paths

variable {ledger : Ledger} {id : BudgetNode} {path : List BudgetNode}

theorem path_ok : ledger.path id = .ok path ↔ Chain (aboveOf ledger.parentOf) id path.reverse ∧ path.length ≤ maxBudgetPathLen := by
  rw [Ledger.path,map_ok]
  constructor
  · intro found
    obtain ⟨members,walked,rfl⟩ := found
    rw [List.reverse_reverse,List.length_reverse]
    exact walk_ok.mp walked
  · intro chain
    refine ⟨path.reverse,walk_ok.mpr ⟨chain.1,?_⟩,List.reverse_reverse path⟩
    rw [List.length_reverse]
    exact chain.2

theorem path_distinct (found : ledger.path id = .ok path) : path.Nodup := List.nodup_reverse.mp (path_ok.mp found).1.nodup

theorem path_placed (found : ledger.path id = .ok path) (inside : key ∈ path) : ledger.node key ≠ none := by
  have known := (path_ok.mp found).1.known (List.mem_reverse.mpr inside)
  intro absent
  apply known
  rw [aboveOf,parentOf,absent]
  rfl

end Paths

-- Sums held never leave 64 bits, and what is held is held through nodes that are there.
structure Sound (ledger : Ledger) : Prop where
  placed : ∀ {work held}, ledger.held.lookup work = some held →
    ∀ node ∈ held.path, ledger.node node ≠ none
  distinct : ∀ {work held}, ledger.held.lookup work = some held → held.path.Nodup
  exact : ∀ node meter, ledger.exposure node meter < 2^64

section Moves

variable {ledger after : Ledger} {work : Digest} {charge : Charge} {time : UnixMillis}
  {subject node : BudgetNode}

-- A node that was checked has room for one more, and for this charge under every limit.
structure Admits (ledger : Ledger) (charge : Charge) (id : BudgetNode) (node : Node) : Prop where
  room : ledger.activeCount id < node.concurrent
  fits : ∀ meter, (ledger.reserved id meter).toNat + (charge meter).toNat < 2^64
  within : ∀ limit ∈ node.limits, (node.counters limit.meter limit.window).used.toNat +
    (ledger.reserved id limit.meter).toNat + (charge limit.meter).toNat ≤ limit.amount.toNat

variable {id : BudgetNode} {usage : Usage}

theorem checkLimit_ok {node : Node} {limit : Limit} (passed : ledger.checkLimit id node charge limit = .ok done) :
    (node.counters limit.meter limit.window).used.toNat +
      (ledger.reserved id limit.meter).toNat + (charge limit.meter).toNat ≤ limit.amount.toNat := by
  simp only [checkLimit,spentWith,rejectIf_ok,Option.all_eq_true,not_forall] at passed
  obtain ⟨sum,summed,small⟩ := passed
  rw [decide_eq_true_eq] at small
  obtain ⟨first,added,last⟩ := Option.bind_eq_some_iff.mp summed
  rw [checkedAdd_exact] at added last
  rw [UInt64.lt_iff_toNat_lt] at small
  omega

theorem checkNode_ok (passed : ledger.checkNode charge id = .ok done) :
    ∃ node, ledger.node id = some node ∧ ledger.Admits charge id node := by
  simp only [checkNode,bind_ok,okOr_ok,rejectIf_ok,forM_ok,not_le] at passed
  obtain ⟨node,found,_,room,_,fits,limits⟩ := passed
  refine ⟨node,found,room,?_,fun limit listed => checkLimit_ok (limits limit listed)⟩
  intro meter
  obtain ⟨sum,added,-⟩ := fits meter Meter.mem_all
  have precise := checkedAdd_exact.mp added
  have bound := sum.toNat_lt
  omega

structure Reserves (ledger : Ledger) (work : Digest) (subject : BudgetNode) (charge : Charge)
    (time : UnixMillis) (path : List BudgetNode) : Prop where
  fresh : ledger.held.lookup work = none
  isSubject : subject.isSubject = true
  walked : ledger.path subject = .ok path
  admits : ∀ id ∈ path, ∃ node, (ledger.advance time).node id = some node ∧
    (ledger.advance time).Admits charge id node

theorem reserve_cases :
    (∃ failure, ledger.reserve work subject charge time = (ledger, .error failure)) ∨
    (∃ failure, ledger.reserve work subject charge time = (ledger.advance time, .error failure)) ∨
    ∃ path, ledger.Reserves work subject charge time path ∧ ledger.reserve work subject charge time =
        ({ ledger.advance time with held := ledger.held.insert work ⟨path,charge⟩ }, .ok ()) := by
  unfold reserve
  cases opened : ledger.reservable work subject with
  | error failure => exact .inl ⟨failure,rfl⟩
  | ok path =>
    dsimp only
    cases checked : path.forM ((ledger.advance time).checkNode charge) with
    | error failure => exact .inr (.inl ⟨failure,rfl⟩)
    | ok done =>
      simp only [reservable,bind_ok,rejectIf_ok,not_not] at opened
      obtain ⟨_,fresh,_,isSubject,found⟩ := opened
      rw [forM_ok] at checked
      exact .inr (.inr ⟨path,⟨fresh,isSubject,found,fun id inside => checkNode_ok (checked id inside)⟩,rfl⟩)

-- Where a charge was held it is spent along its whole path.
def charged (ledger : Ledger) (work : Digest) (held : Held) (usage : Usage) (time : UnixMillis) :
    Ledger :=
  let rolled := ledger.advance time
  { rolled with
    held := ledger.held.erase work
    nodes := rolled.nodes.mapAll fun id node =>
      if id ∈ held.path then node.spend (actualOf usage held) else node }

theorem settle_held (sound : ledger.Sound) {held : Held} (found : ledger.held.lookup work = some held) :
    ledger.settle work usage time = (ledger.charged work held usage time, .ok (decide ((actualOf usage held).Exceeds held.charge))) := by
  unfold settle
  rw [found]
  dsimp only
  rw [spendAlong_all (sound.distinct found)]
  · rfl
  · intro id inside
    rw [advance_node]
    obtain ⟨node,there⟩ := Option.ne_none_iff_exists'.mp (sound.placed found id inside)
    have kept : Ledger.node { ledger with held := ledger.held.erase work } id = some node := there
    rw [kept]
    exact Option.some_ne_none _

theorem settle_absent (absent : ledger.held.lookup work = none) :
    ledger.settle work usage time = (ledger, .error .unknownReservation) := by
  unfold settle
  rw [absent]

theorem release_ok : ledger.release work = .ok after ↔ ledger.held.lookup work ≠ none ∧
    after = { ledger with held := ledger.held.erase work } := by
  simp only [release,bind_ok,rejectIf_ok,pure_ok]
  constructor
  · intro passed
    obtain ⟨_,found,same⟩ := passed
    exact ⟨found,same.symm⟩
  · intro erased
    exact ⟨(),erased.1,erased.2.symm⟩

end Moves

inductive Operation where
  | configureMachine (limits : List Limit) (concurrent : Nat)
  | configureBudget (definition : BudgetDef)
  | advance (time : UnixMillis)
  | reserve (work : Digest) (subject : BudgetNode) (charge : Charge) (time : UnixMillis)
  | settle (work : Digest) (usage : Usage) (time : UnixMillis)
  | release (work : Digest)

-- A refused configuration or release leaves the ledger as it was.
def orKept (ledger : Ledger) : Except LedgerError Ledger → Ledger
  | .ok after => after
  | .error _ => ledger

def perform (ledger : Ledger) : Operation → Ledger
  | .configureMachine limits concurrent => ledger.orKept (ledger.configureMachine limits concurrent)
  | .configureBudget definition => ledger.orKept (ledger.configureBudget definition)
  | .advance time => ledger.advance time
  | .reserve work subject charge time => (ledger.reserve work subject charge time).1
  | .settle work usage time => (ledger.settle work usage time).1
  | .release work => ledger.orKept (ledger.release work)

def performAll (ledger : Ledger) (operations : List Operation) : Ledger := operations.foldl perform ledger

inductive Effect (ledger : Ledger) : Operation → Ledger → Prop where
  | refused {operation : Operation} : Effect ledger operation ledger
  | configured {operation : Operation} {id : BudgetNode} {placed : Node} :
      (∀ node, ledger.node id = some node → placed.counters = node.counters) →
      Effect ledger operation { ledger with nodes := ledger.nodes.insert id placed }
  | advanced {operation : Operation} {time : UnixMillis} :
      Effect ledger operation (ledger.advance time)
  | reserved {work : Digest} {subject : BudgetNode} {charge : Charge} {time : UnixMillis}
      {path : List BudgetNode} : ledger.Reserves work subject charge time path →
      Effect ledger (.reserve work subject charge time)
        { ledger.advance time with held := ledger.held.insert work ⟨path,charge⟩ }
  | settled {work : Digest} {held : Held} {usage : Usage} {time : UnixMillis} :
      ledger.held.lookup work = some held →
      Effect ledger (.settle work usage time) (ledger.charged work held usage time)
  | released {operation : Operation} {work : Digest} {held : Held} :
      ledger.held.lookup work = some held →
      Effect ledger operation { ledger with held := ledger.held.erase work }

section Performed

variable {ledger after : Ledger} {operation : Operation} {id : BudgetNode} {meter : Meter}

theorem configured_counters {concurrent : Nat} {node : Node} (found : ledger.node id = some node) :
    (ledger.configured id limits concurrent).counters = node.counters := by
  rw [configured,found]

theorem perform_cases {ends : Operation → Ledger → Prop} (sound : ledger.Sound) (refused : ∀ operation, ends operation ledger)
    (machine : ∀ limits concurrent, ends (.configureMachine limits concurrent)
      { ledger with nodes := ledger.nodes.insert .machine (ledger.configured .machine limits concurrent) })
    (budget : ∀ definition, ledger.Defines definition → ends (.configureBudget definition)
      { ledger with nodes := ledger.nodes.insert definition.node (ledger.defined definition) })
    (advanced : ∀ operation time, ends operation (ledger.advance time))
    (reserved : ∀ work subject charge time path, ledger.Reserves work subject charge time path → ends (.reserve work subject charge time)
        { ledger.advance time with held := ledger.held.insert work ⟨path,charge⟩ })
    (settled : ∀ work held usage time, ledger.held.lookup work = some held →
      ends (.settle work usage time) (ledger.charged work held usage time))
    (released : ∀ work held, ledger.held.lookup work = some held → ends (.release work) { ledger with held := ledger.held.erase work }) :
    ends operation (ledger.perform operation) := by
  cases operation with
  | configureMachine limits concurrent =>
    rw [perform,configureMachine]
    cases done : ledger.configure .machine limits concurrent with
    | error failure => exact refused _
    | ok after =>
      rw [orKept,(configure_ok.mp done).2]
      exact machine limits concurrent
  | configureBudget definition =>
    rw [perform]
    cases done : ledger.configureBudget definition with
    | error failure => exact refused _
    | ok after =>
      obtain ⟨defines,same⟩ := configureBudget_ok.mp done
      rw [orKept,same]
      exact budget definition defines
  | advance time => exact advanced _ time
  | reserve work subject charge time =>
    rw [perform]
    rcases @reserve_cases ledger work charge time subject with
      ⟨failure,stopped⟩ | ⟨failure,stopped⟩ | ⟨path,reserves,held⟩
    · rw [stopped]
      exact refused _
    · rw [stopped]
      exact advanced _ time
    · rw [held]
      exact reserved work subject charge time path reserves
  | settle work usage time =>
    rw [perform]
    cases found : ledger.held.lookup work with
    | none =>
      rw [settle_absent found]
      exact refused _
    | some held =>
      rw [settle_held sound found]
      exact settled work held usage time found
  | release work =>
    rw [perform]
    cases done : ledger.release work with
    | error failure => exact refused _
    | ok after =>
      obtain ⟨found,same⟩ := release_ok.mp done
      obtain ⟨held,found⟩ := Option.ne_none_iff_exists'.mp found
      rw [orKept,same]
      exact released work held found

theorem perform_effect (sound : ledger.Sound) : Effect ledger operation (ledger.perform operation) := by
  refine perform_cases sound ?_ ?_ ?_ ?_ ?_ ?_ ?_
  · exact fun _ => .refused
  · exact fun _ _ => .configured fun _ found => configured_counters found
  · exact fun _ _ => .configured fun _ found => configured_counters found
  · exact fun _ _ => .advanced
  · exact fun _ _ _ _ _ reserves => .reserved reserves
  · exact fun _ _ _ _ found => .settled found
  · exact fun _ _ found => .released found

theorem exposure_insert {work : Digest} {held : Held} {time : UnixMillis} (fresh : ledger.held.lookup work = none) :
    exposure { ledger.advance time with held := ledger.held.insert work held } id meter =
      (if id ∈ held.path then (held.charge meter).toNat else 0) + ledger.exposure id meter :=
  Slots.weight_insert _ fresh

theorem exposure_erase {work : Digest} {held : Held} {other : Ledger} (found : ledger.held.lookup work = some held)
    (erased : other.held = ledger.held.erase work) :
    ledger.exposure id meter = (if id ∈ held.path then (held.charge meter).toNat else 0) + other.exposure id meter := by
  rw [exposure,exposure,erased]
  exact Slots.weight_erase _ found

theorem Effect.placed (effect : Effect ledger operation after) (there : ledger.node id ≠ none) :
    after.node id ≠ none := by
  obtain ⟨node,found⟩ := Option.ne_none_iff_exists'.mp there
  have rolled (time : UnixMillis) : (ledger.advance time).node id ≠ none := by
    rw [advance_node,found]
    exact Option.some_ne_none _
  cases effect with
  | refused => exact there
  | configured _ =>
    rw [node_insert]
    split
    · exact Option.some_ne_none _
    · exact there
  | advanced => exact rolled _
  | reserved _ => exact rolled _
  | settled _ =>
    intro absent
    have gone : (Option.map _ _ : Option Node) = none := Slots.lookup_mapAll.symm.trans absent
    exact rolled _ (Option.map_eq_none_iff.mp gone)
  | released _ => exact there

theorem Admits.exposure {charge : Charge} {node : Node} {time : UnixMillis} (sound : ledger.Sound)
    (admits : (ledger.advance time).Admits charge id node) :
    ledger.exposure id meter + (charge meter).toNat < 2^64 := by
  have precise := reserved_exact (sound.exact id meter)
  have fits := admits.fits meter
  have same : (ledger.advance time).reserved id meter = ledger.reserved id meter := rfl
  rw [same,precise] at fits
  exact fits

theorem Sound.given_back {work : Digest} {held : Held} (sound : ledger.Sound)
    (found : ledger.held.lookup work = some held) (erased : after.held = ledger.held.erase work)
    (there : ∀ node, ledger.node node ≠ none → after.node node ≠ none) : after.Sound := by
  have earlier : ∀ {other kept}, after.held.lookup other = some kept → ledger.held.lookup other = some kept := by
    intro other kept live
    rw [erased,Slots.lookup_erase_if] at live
    split at live
    · cases live
    · exact live
  refine ⟨fun live node inside => there node (sound.placed (earlier live) node inside),
    fun live => sound.distinct (earlier live),?_⟩
  intro node meter
  have less := @exposure_erase ledger node meter work held after found erased
  have bound := sound.exact node meter
  omega

theorem Effect.sound (effect : Effect ledger operation after) (sound : ledger.Sound) : after.Sound := by
  have there := fun node => @Effect.placed ledger after operation node effect
  cases effect with
  | refused => exact sound
  | configured _ | advanced =>
    exact ⟨fun found node inside => there node (sound.placed found node inside),sound.distinct,
      sound.exact⟩
  | @reserved work subject charge time path reserves =>
    refine ⟨?_,?_,?_⟩
    · intro other held found node inside
      rw [Slots.lookup_insert_if] at found
      split at found
      · cases found
        exact there node (path_placed reserves.walked inside)
      · exact there node (sound.placed found node inside)
    · intro other held found
      rw [Slots.lookup_insert_if] at found
      split at found
      · cases found
        exact path_distinct reserves.walked
      · exact sound.distinct found
    · intro node meter
      rw [exposure_insert reserves.fresh]
      split
      · rename_i inside
        obtain ⟨record,-,admits⟩ := reserves.admits node inside
        have room := @Admits.exposure ledger node meter charge record time sound admits
        rw [Nat.add_comm]
        exact room
      · rw [Nat.zero_add]
        exact sound.exact node meter
  | settled found => exact sound.given_back found rfl there
  | released found => exact sound.given_back found rfl there

end Performed

def used (ledger : Ledger) (id : BudgetNode) (meter : Meter) (window : Window) : Nat :=
  ((ledger.node id).map fun node => (node.counters meter window).used.toNat).getD 0

def limitsOf (ledger : Ledger) (id : BudgetNode) : List Limit := ((ledger.node id).map Node.limits).getD []

def capacity (ledger : Ledger) (id : BudgetNode) : Nat := ((ledger.node id).map Node.concurrent).getD 0

def Fits (ledger : Ledger) (id : BudgetNode) (limit : Limit) : Prop :=
  ledger.used id limit.meter limit.window + ledger.exposure id limit.meter ≤ limit.amount.toNat

def Measured (ledger : Ledger) : Operation → Prop
  | .settle work (.observed actual) _ => ∀ held, ledger.held.lookup work = some held → ∀ meter, actual meter ≤ held.charge meter
  | _ => True

section Bounds

variable {ledger after : Ledger} {operation : Operation} {id : BudgetNode} {limit : Limit}

theorem counterAt_used {node : Node} :
    (node.counterAt meter window time).used.toNat ≤ (node.counters meter window).used.toNat := by
  unfold Node.counterAt
  dsimp only
  split
  · exact Nat.zero_le _
  · exact le_refl _

theorem used_advance {meter : Meter} {window : Window} {time : UnixMillis} :
    (ledger.advance time).used id meter window ≤ ledger.used id meter window := by
  rw [used,used,advance_node]
  cases ledger.node id with
  | none => exact le_refl _
  | some node => exact counterAt_used

theorem actualOf_measured {work : Digest} {held : Held} {usage : Usage} {time : UnixMillis}
    (measured : ledger.Measured (.settle work usage time)) (found : ledger.held.lookup work = some held) (meter : Meter) :
    (actualOf usage held meter).toNat ≤ (held.charge meter).toNat := by
  cases usage with
  | observed actual => exact UInt64.le_iff_toNat_le.mp (measured held found meter)
  | unknown => exact le_refl _

theorem used_charged {work : Digest} {held : Held} {usage : Usage} {time : UnixMillis} {meter : Meter} {window : Window} :
    (ledger.charged work held usage time).used id meter window ≤
      ledger.used id meter window + if id ∈ held.path then (actualOf usage held meter).toNat else 0 := by
  have rolled := @used_advance ledger id meter window time
  have spent : (ledger.charged work held usage time).node id = ((ledger.advance time).node id).map fun node =>
        if id ∈ held.path then node.spend (actualOf usage held) else node := Slots.lookup_mapAll
  rw [used,spent]
  rw [used] at rolled
  cases there : (ledger.advance time).node id with
  | none => exact Nat.zero_le _
  | some node =>
    rw [there] at rolled
    simp only [Option.map_some,Option.getD_some] at rolled ⊢
    split
    · have added := @saturatingAdd_eq (node.counters meter window).used (actualOf usage held meter)
      simp only [Node.spend]
      omega
    · exact rolled

theorem Effect.fits (effect : Effect ledger operation after) (sound : ledger.Sound)
    (listed : limit ∈ ledger.limitsOf id) (measured : ledger.Measured operation)
    (fits : ledger.Fits id limit) : after.Fits id limit := by
  unfold Fits at fits ⊢
  cases effect with
  | refused => exact fits
  | @configured _ other placed kept =>
    have same : Ledger.used { ledger with nodes := ledger.nodes.insert other placed } id limit.meter
        limit.window = ledger.used id limit.meter limit.window := by
      rw [used,used,node_insert]
      split
      · rename_i here
        subst here
        cases found : ledger.node id with
        | none => simp [limitsOf,found] at listed
        | some node => simp [kept node found]
      · rfl
    rw [same]
    exact fits
  | @advanced _ time =>
    have rolled := @used_advance ledger id limit.meter limit.window time
    have same : (ledger.advance time).exposure id limit.meter = ledger.exposure id limit.meter := rfl
    omega
  | @reserved work subject charge time path reserves =>
    have rolled := @used_advance ledger id limit.meter limit.window time
    have moved : Ledger.used { ledger.advance time with held := ledger.held.insert work ⟨path,charge⟩ }
        id limit.meter limit.window = (ledger.advance time).used id limit.meter limit.window := rfl
    rw [exposure_insert reserves.fresh,moved]
    dsimp only
    split
    · rename_i inside
      -- The new charge was checked against this very limit.
      obtain ⟨node,there,admits⟩ := reserves.admits id inside
      have still : limit ∈ node.limits := by
        rw [advance_node,Option.map_eq_some_iff] at there
        obtain ⟨old,found,rfl⟩ := there
        rw [limitsOf,found] at listed
        exact listed
      have within := admits.within limit still
      have precise := reserved_exact (sound.exact id limit.meter)
      have same : (ledger.advance time).reserved id limit.meter = ledger.reserved id limit.meter := rfl
      have spent : (ledger.advance time).used id limit.meter limit.window = (node.counters limit.meter limit.window).used.toNat := by
        rw [used,there]
        rfl
      rw [same,precise] at within
      omega
    · omega
  | @settled work held usage time found =>
    have charged := @used_charged ledger id work held usage time limit.meter limit.window
    have bound := actualOf_measured measured found limit.meter
    have less := @exposure_erase ledger id limit.meter work held (ledger.charged work held usage time) found rfl
    split at charged <;> rename_i inside
    · rw [if_pos inside] at less
      omega
    · rw [if_neg inside] at less
      omega
  | @released _ work held found =>
    have less := @exposure_erase ledger id limit.meter work held { ledger with held := ledger.held.erase work } found rfl
    have same : Ledger.used { ledger with held := ledger.held.erase work } id limit.meter limit.window =
        ledger.used id limit.meter limit.window := rfl
    omega

theorem Effect.crowd (effect : Effect ledger operation after) (raised : ledger.capacity id ≤ after.capacity id)
    (within : ledger.activeCount id ≤ ledger.capacity id) : after.activeCount id ≤ after.capacity id := by
  rw [activeCount_weight] at within ⊢
  cases effect with
  | refused | configured _ | advanced => exact within.trans raised
  | @reserved work subject charge time path reserves =>
    have counted : Slots.weight (fun held : Held => if id ∈ held.path then 1 else 0)
        (ledger.held.insert work ⟨path,charge⟩) = _ := Slots.weight_insert _ reserves.fresh
    refine counted.le.trans ?_
    dsimp only
    split
    · rename_i inside
      obtain ⟨node,there,admits⟩ := reserves.admits id inside
      have room := admits.room
      have same : capacity { ledger.advance time with held := ledger.held.insert work ⟨path,charge⟩ } id = node.concurrent := by
        change ((Ledger.node (ledger.advance time) id).map Node.concurrent).getD 0 = _
        rw [there]
        rfl
      rw [activeCount_weight] at room
      have unmoved : (ledger.advance time).held = ledger.held := rfl
      rw [unmoved] at room
      rw [same]
      omega
    · rw [Nat.zero_add]
      exact within.trans raised
  | settled found =>
    have counted := Slots.weight_erase (fun held : Held => if id ∈ held.path then 1 else 0) found
    exact (Nat.le_add_left _ _).trans (counted.ge.trans (within.trans raised))
  | released found =>
    have counted := Slots.weight_erase (fun held : Held => if id ∈ held.path then 1 else 0) found
    exact (Nat.le_add_left _ _).trans (counted.ge.trans (within.trans raised))

end Bounds

-- Every operation of a run is taken in a state where it keeps to this.
def Throughout (keeps : Ledger → Operation → Prop) : Ledger → List Operation → Prop
  | _, [] => True
  | ledger, operation :: rest => keeps ledger operation ∧ Throughout keeps (ledger.perform operation) rest

def LimitsStand (id : BudgetNode) (ledger : Ledger) (operation : Operation) : Prop :=
  (ledger.perform operation).limitsOf id = ledger.limitsOf id

def NotLowered (id : BudgetNode) (ledger : Ledger) (operation : Operation) : Prop :=
  ledger.capacity id ≤ (ledger.perform operation).capacity id

section Runs

variable {ledger : Ledger} {operations : List Operation} {id : BudgetNode} {limit : Limit}

theorem sound_empty : empty.Sound := ⟨(fun found => by cases found),(fun found => by cases found),fun _ _ => Nat.two_pow_pos 64⟩

theorem performAll_sound (sound : ledger.Sound) : (ledger.performAll operations).Sound := by
  induction operations generalizing ledger with
  | nil => exact sound
  | cons operation rest ih => exact ih ((perform_effect sound).sound sound)

theorem performAll_fits (sound : ledger.Sound) (listed : limit ∈ ledger.limitsOf id)
    (keeps : Throughout (fun state operation => LimitsStand id state operation ∧
      state.Measured operation) ledger operations)
    (fits : ledger.Fits id limit) : (ledger.performAll operations).Fits id limit := by
  induction operations generalizing ledger with
  | nil => exact fits
  | cons operation rest ih =>
    obtain ⟨⟨stands,measured⟩,later⟩ := keeps
    have effect := @perform_effect ledger operation sound
    exact ih (effect.sound sound) (stands ▸ listed) later (effect.fits sound listed measured fits)

theorem performAll_crowd (sound : ledger.Sound) (keeps : Throughout (NotLowered id) ledger operations)
    (within : ledger.activeCount id ≤ ledger.capacity id) :
    (ledger.performAll operations).activeCount id ≤ (ledger.performAll operations).capacity id := by
  induction operations generalizing ledger with
  | nil => exact within
  | cons operation rest ih =>
    have effect := @perform_effect ledger operation sound
    exact ih (effect.sound sound) keeps.2 (effect.crowd keeps.1 within)

-- The bounds of one node of a ledger, and what a refused reservation leaves.
structure Budgeted (ledger : Ledger) (id : BudgetNode) : Prop where
  exact : ∀ meter, (ledger.reserved id meter).toNat = ledger.exposure id meter
  limits : ∀ later, ∀ limit ∈ ledger.limitsOf id, ledger.Fits id limit →
    Throughout (fun state operation => LimitsStand id state operation ∧ state.Measured operation)
      ledger later → (ledger.performAll later).Fits id limit
  crowd : ∀ later, ledger.activeCount id ≤ ledger.capacity id →
    Throughout (NotLowered id) ledger later →
    (ledger.performAll later).activeCount id ≤ (ledger.performAll later).capacity id
  refused : ∀ work subject charge time failure,
    (ledger.reserve work subject charge time).2 = .error failure →
    (ledger.reserve work subject charge time).1 = ledger ∨
      (ledger.reserve work subject charge time).1 = ledger.advance time

theorem budgets_never_overrun (earlier : List Operation) (id : BudgetNode) :
    (empty.performAll earlier).Budgeted id ∧ (Throughout (NotLowered id) empty earlier →
        (empty.performAll earlier).activeCount id ≤ (empty.performAll earlier).capacity id) := by
  have sound := @performAll_sound empty earlier sound_empty
  refine ⟨⟨fun meter => reserved_exact (sound.exact id meter),?_,?_,?_⟩,?_⟩
  · intro later limit listed fits keeps
    exact performAll_fits sound listed keeps fits
  · intro later within keeps
    exact performAll_crowd sound keeps within
  · intro work subject charge time failure refused
    rcases @reserve_cases (empty.performAll earlier) work charge time subject with
      ⟨_,same⟩ | ⟨_,same⟩ | ⟨path,-,held⟩
    · exact .inl (congrArg Prod.fst same)
    · exact .inr (congrArg Prod.fst same)
    · rw [held] at refused
      cases refused
  · intro keeps
    exact performAll_crowd sound_empty keeps (Nat.zero_le _)

-- One subject with ten requests an hour: a reservation made in one hour and settled in the next.
namespace Sample

def pool : PoolId := ⟨⟨List.replicate 16 1,rfl⟩⟩

def account : ResourceId := ⟨⟨List.replicate 32 2,rfl⟩⟩

def holder : BudgetNode := .subject pool ⟨⟨List.replicate 33 3,rfl⟩⟩

def hourly : Limit := ⟨.requests,.hour,10⟩

def work : Digest := ⟨List.replicate 32 4,rfl⟩

def once : Charge := fun meter => if meter = .requests then 10 else 0

def setup : List Operation :=
  [.configureMachine [] 8,.configureBudget ⟨.account account,.machine,1,[],8,by decide⟩,
    .configureBudget ⟨.pool pool,.account account,1,[],8,by decide⟩,
    .configureBudget ⟨holder,.pool pool,1,[hourly],1,by decide⟩,
    .reserve work holder once 3599999]

def nextHour : List Operation := [.advance 3600000,.settle work .unknown 3600000]

theorem budgets_never_overrun_next_hour :
    (empty.performAll setup).activeCount holder = 1 ∧
      ((empty.performAll setup).performAll nextHour).used holder .requests .hour = 10 ∧
      ((empty.performAll setup).performAll nextHour).Fits holder hourly := by
  refine ⟨by decide +kernel,by decide +kernel,?_⟩
  refine (budgets_never_overrun setup holder).1.limits nextHour hourly (by decide +kernel)
    (show _ ≤ _ by decide +kernel) ?_
  exact ⟨⟨show _ = _ by decide +kernel,trivial⟩,⟨show _ = _ by decide +kernel,trivial⟩,trivial⟩

end Sample

end Runs

end Ledger

end Hellas.Grants
