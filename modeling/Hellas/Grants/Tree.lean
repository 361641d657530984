import Hellas.Grants.Exposure

-- The budget tree: parents never change, every node's path leads to the machine, and what a node
-- has used and has reserved is what its children have.

namespace Hellas.Grants

open Authority Guard Lineage Words

namespace Ledger

variable {ledger after : Ledger} {id : BudgetNode} {meter : Meter} {window : Window}
  {time : UnixMillis}

def children (ledger : Ledger) (id : BudgetNode) : Finset BudgetNode :=
  ledger.nodes.keys.filter fun child => (ledger.node child).bind Node.parent = some id

theorem mem_children : child ∈ ledger.children id ↔ ∃ node, ledger.node child = some node ∧ node.parent = some id := by
  rw [children,Finset.mem_filter,Slots.mem_keys]
  constructor
  · intro listed
    exact Option.bind_eq_some_iff.mp listed.2
  · intro found
    refine ⟨?_,Option.bind_eq_some_iff.mpr found⟩
    obtain ⟨node,there,-⟩ := found
    exact Option.ne_none_iff_exists'.mpr ⟨node,there⟩

-- Every node leads to the machine, and what is held is held along the path of a subject.
structure Rooted (ledger : Ledger) : Prop where
  paths : ∀ id, ledger.node id ≠ none → ∃ path, ledger.path id = .ok path
  held : ∀ work held, ledger.held.lookup work = some held →
    ∃ subject, subject.isSubject = true ∧ ledger.path subject = .ok held.path

-- How a node that is there stands: the machine alone and unrevised, every other under its parent.
inductive Stands (id : BudgetNode) (node : Node) : Prop where
  | alone : id = .machine → node.parent = none → node.revision = 0 → Stands id node
  | under {parent : BudgetNode} : id ≠ .machine → node.parent = some parent →
      id.ValidParent parent → node.revision ≠ 0 → Stands id node

theorem parentOf_some {node : Node} {upper : Option BudgetNode} (found : ledger.node id = some node) :
    ledger.parentOf id = .ok upper ↔ Stands id node ∧ upper = node.parent := by
  simp only [parentOf,bind_ok,okOr_ok,found,Option.some.injEq]
  constructor
  · intro passed
    obtain ⟨_,rfl,passed⟩ := passed
    split at passed
    · rename_i machine
      simp only [bind_ok,rejectIf_ok,not_or,not_not,pure_ok] at passed
      obtain ⟨_,⟨alone,unrevised⟩,rfl⟩ := passed
      exact ⟨.alone machine alone unrevised,alone.symm⟩
    · rename_i other
      simp only [bind_ok,okOr_ok,rejectIf_ok,not_or,not_not,pure_ok] at passed
      obtain ⟨parent,placed,_,⟨valid,revised⟩,rfl⟩ := passed
      exact ⟨.under other placed valid revised,placed.symm⟩
  · intro stands
    obtain ⟨stands,rfl⟩ := stands
    refine ⟨node,rfl,?_⟩
    cases stands with
    | alone machine alone unrevised => simp [machine,alone,unrevised,Guard.rejectIf]
    | under other placed valid revised =>
      simp only [if_neg other,bind_ok,okOr_ok,rejectIf_ok,not_or,not_not,pure_ok]
      exact ⟨_,placed,(),⟨valid,revised⟩,placed.symm⟩

theorem above_stands (above : aboveOf ledger.parentOf id = some upper) :
    ∃ node, Stands id node ∧ upper = node.parent := by
  have passed := aboveOf_some.mp above
  cases found : ledger.node id with
  | none => simp [parentOf,found,Guard.okOr] at passed
  | some node => exact ⟨node,(parentOf_some found).mp passed⟩

theorem Rooted.stands (rooted : ledger.Rooted) {node : Node} (found : ledger.node id = some node) : Stands id node := by
  obtain ⟨path,walked⟩ := rooted.paths id (Option.ne_none_iff_exists'.mpr ⟨node,found⟩)
  have known := (path_ok.mp walked).1.known (path_ok.mp walked).1.self_mem
  obtain ⟨upper,known⟩ := Option.ne_none_iff_exists'.mp known
  exact ((parentOf_some found).mp (aboveOf_some.mp known)).1

theorem Rooted.above (rooted : ledger.Rooted) {node : Node} (found : ledger.node id = some node) :
    aboveOf ledger.parentOf id = some node.parent :=
  aboveOf_some.mpr ((parentOf_some found).mpr ⟨rooted.stands found,rfl⟩)

-- Nothing that a walk looks at has changed.
structure Keeps (ledger after : Ledger) : Prop where
  stands : ∀ id node, ledger.node id = some node → ∃ moved, after.node id = some moved ∧
    moved.parent = node.parent ∧ (moved.revision = 0 ↔ node.revision = 0)

theorem Keeps.above (keeps : Keeps ledger after) (there : ledger.node id ≠ none) :
    aboveOf after.parentOf id = aboveOf ledger.parentOf id := by
  obtain ⟨node,found⟩ := Option.ne_none_iff_exists'.mp there
  obtain ⟨moved,kept,parent,revision⟩ := keeps.stands id node found
  apply Option.ext
  intro upper
  rw [aboveOf_some,aboveOf_some,parentOf_some found,parentOf_some kept,parent]
  refine and_congr_left fun _ => ⟨?_,?_⟩
  · intro stands
    cases stands with
    | alone machine alone unrevised => exact .alone machine (parent ▸ alone) (revision.mp unrevised)
    | under other placed valid revised => exact .under other (parent ▸ placed) valid (mt revision.mpr revised)
  · intro stands
    cases stands with
    | alone machine alone unrevised => exact .alone machine (parent.trans alone) (revision.mpr unrevised)
    | under other placed valid revised => exact .under other (parent.trans placed) valid (mt revision.mp revised)

theorem Keeps.path (keeps : Keeps ledger after) {path : List BudgetNode}
    (walked : ledger.path id = .ok path) : after.path id = .ok path := by
  obtain ⟨chain,short⟩ := path_ok.mp walked
  refine path_ok.mpr ⟨chain.congr ?_,short⟩
  intro key inside
  exact keeps.above (path_placed walked (List.mem_reverse.mp inside))

theorem Keeps.refl : Keeps ledger ledger := ⟨fun _ node found => ⟨node,found,rfl,Iff.rfl⟩⟩

theorem keeps_advance : Keeps ledger (ledger.advance time) := by
  refine ⟨fun id node found => ?_⟩
  rw [advance_node,found]
  exact ⟨_,rfl,rfl,Iff.rfl⟩

theorem charged_node {work : Digest} {held : Held} {usage : Usage} :
    (ledger.charged work held usage time).node id = ((ledger.advance time).node id).map fun node =>
      if id ∈ held.path then node.spend (actualOf usage held) else node :=
  Slots.lookup_mapAll

theorem keeps_charged {work : Digest} {held : Held} {usage : Usage} :
    Keeps ledger (ledger.charged work held usage time) := by
  refine ⟨fun id node found => ?_⟩
  rw [charged_node,advance_node,found]
  refine ⟨_,rfl,?_⟩
  split
  · exact ⟨rfl,Iff.rfl⟩
  · exact ⟨rfl,Iff.rfl⟩

-- A revision of what is there keeps its place; a new node takes a place nothing stood under.
inductive Configures (ledger : Ledger) (id : BudgetNode) (placed : Node) : Prop where
  | revised {node : Node} : ledger.node id = some node → placed.parent = node.parent →
      (placed.revision = 0 ↔ node.revision = 0) → placed.counters = node.counters →
      Configures ledger id placed
  | machine : ledger.node id = none → id = .machine → placed.parent = none →
      placed.revision = 0 →
      placed.counters = (fun _ window => ⟨window.id ledger.highWater,0⟩) →
      Configures ledger id placed
  | under {parent : BudgetNode} {above : List BudgetNode} : ledger.node id = none →
      id.ValidParent parent → placed.parent = some parent → placed.revision ≠ 0 →
      ledger.path parent = .ok above → above.length < maxBudgetPathLen →
      placed.counters = (fun _ window => ⟨window.id ledger.highWater,0⟩) →
      Configures ledger id placed

theorem configured_fresh (fresh : ledger.node id = none) :
    (ledger.configured id limits concurrent).counters = fun _ window => ⟨window.id ledger.highWater,0⟩ := by
  rw [configured,fresh]
  funext meter window
  simp only [Node.advance,Node.counterAt]
  split
  · rfl
  · rename_i still
    have zero : window.id ledger.highWater = 0 := Nat.eq_zero_of_not_pos still
    rw [zero]

theorem configure_configures : ledger.Configures .machine (ledger.configured .machine limits concurrent) := by
  cases found : ledger.node .machine with
  | none =>
    refine .machine found rfl ?_ ?_ (configured_fresh found)
    · rw [configured,found]
      rfl
    · rw [configured,found]
      rfl
  | some node =>
    refine .revised found ?_ ?_ (configured_counters found)
    · rw [configured,found]
    · rw [configured,found]

theorem Defines.configures {definition : BudgetDef} (defines : ledger.Defines definition) (rooted : ledger.Rooted) :
    ledger.Configures definition.node (ledger.defined definition) := by
  obtain ⟨valid,⟨above,walked,room⟩,revision,limits⟩ := defines
  unfold checkRevision at revision
  cases found : ledger.node definition.node with
  | none =>
    rw [found] at revision
    simp only [bind_ok,rejectIf_ok,not_not] at revision
    obtain ⟨_,follows,-⟩ := revision
    exact .under found valid rfl (Revision.Follows.ne_zero follows) walked room (configured_fresh found)
  | some old =>
    rw [found] at revision
    simp only [rejectIf_ok,not_or,not_not] at revision
    refine .revised found revision.1.symm ?_ (configured_counters found)
    refine iff_of_false (Revision.Follows.ne_zero revision.2) ?_
    cases rooted.stands found with
    | alone machine =>
      rw [machine] at valid
      exact valid.elim
    | under other placed valid revised => exact revised

theorem Configures.keeps {placed : Node} (configures : ledger.Configures id placed) :
    Keeps ledger { ledger with nodes := ledger.nodes.insert id placed } := by
  refine ⟨fun key node found => ?_⟩
  rw [node_insert]
  by_cases same : key = id
  · rw [if_pos same]
    subst same
    cases configures with
    | revised there parent revision counters =>
      cases there.symm.trans found
      exact ⟨placed,rfl,parent,revision⟩
    | machine fresh => cases fresh.symm.trans found
    | under fresh => cases fresh.symm.trans found
  · rw [if_neg same]
    exact ⟨node,found,rfl,Iff.rfl⟩

theorem Configures.walks {placed : Node} (configures : ledger.Configures id placed) (rooted : ledger.Rooted) :
    ∃ walked, path { ledger with nodes := ledger.nodes.insert id placed } id = .ok walked := by
  have keeps := configures.keeps
  have here : node { ledger with nodes := ledger.nodes.insert id placed } id = some placed := node_insert.trans (if_pos rfl)
  have above (stands : Stands id placed) : aboveOf (parentOf { ledger with
      nodes := ledger.nodes.insert id placed }) id = some placed.parent :=
    aboveOf_some.mpr ((parentOf_some here).mpr ⟨stands,rfl⟩)
  cases configures with
  | revised there parent revision counters =>
    obtain ⟨walked,found⟩ := rooted.paths id (Option.ne_none_iff_exists'.mpr ⟨_,there⟩)
    exact ⟨walked,keeps.path found⟩
  | machine fresh machine alone unrevised counters =>
    have stands := above (.alone machine alone unrevised)
    rw [alone] at stands
    exact ⟨[id],path_ok.mpr ⟨.alone stands,Nat.succ_le_succ (Nat.zero_le _)⟩⟩
  | @under parent higher fresh valid placed_ revised walked room counters =>
    have other : id ≠ .machine := by
      intro machine
      rw [machine] at valid
      exact valid.elim
    have stands := above (.under other placed_ valid revised)
    rw [placed_] at stands
    refine ⟨higher ++ [id],path_ok.mpr ⟨?_,?_⟩⟩
    · rw [List.reverse_append]
      exact .under stands (path_ok.mp (keeps.path walked)).1
    · rw [List.length_append]
      exact room

inductive Turn (ledger : Ledger) : Operation → Ledger → Prop where
  | refused {operation : Operation} : Turn ledger operation ledger
  | configured {operation : Operation} {id : BudgetNode} {placed : Node} :
      ledger.Configures id placed →
      Turn ledger operation { ledger with nodes := ledger.nodes.insert id placed }
  | advanced {operation : Operation} {time : UnixMillis} :
      Turn ledger operation (ledger.advance time)
  | reserved {operation : Operation} {work : Digest} {subject : BudgetNode} {charge : Charge}
      {time : UnixMillis} {path : List BudgetNode} :
      ledger.Reserves work subject charge time path →
      Turn ledger operation
        { ledger.advance time with held := ledger.held.insert work ⟨path,charge⟩ }
  | settled {work : Digest} {held : Held} {usage : Usage} {time : UnixMillis} :
      ledger.held.lookup work = some held →
      Turn ledger (.settle work usage time) (ledger.charged work held usage time)
  | released {operation : Operation} {work : Digest} :
      Turn ledger operation { ledger with held := ledger.held.erase work }

theorem perform_turn (sound : ledger.Sound) (rooted : ledger.Rooted) (operation : Operation) :
    Turn ledger operation (ledger.perform operation) := by
  refine perform_cases sound ?_ ?_ ?_ ?_ ?_ ?_ ?_
  · exact fun _ => .refused
  · exact fun _ _ => .configured configure_configures
  · exact fun _ defines => .configured (defines.configures rooted)
  · exact fun _ _ => .advanced
  · exact fun _ _ _ _ _ reserves => .reserved reserves
  · exact fun _ _ _ _ found => .settled found
  · exact fun _ _ _ => .released

section Turns

theorem Turn.keeps (turn : Turn ledger operation after) : Keeps ledger after := by
  cases turn with
  | refused => exact .refl
  | released => exact ⟨(@Keeps.refl ledger).stands⟩
  | configured configures => exact configures.keeps
  | advanced => exact keeps_advance
  | @reserved _ work subject charge time path reserves => exact ⟨(@keeps_advance ledger time).stands⟩
  | settled found => exact keeps_charged

theorem node_back {node : BudgetNode} (there : (ledger.advance time).node node ≠ none) : ledger.node node ≠ none := by
  intro absent
  rw [advance_node,absent] at there
  exact there rfl

theorem Turn.grown (turn : Turn ledger operation after) (rooted : ledger.Rooted) (there : after.node id ≠ none) :
    ledger.node id ≠ none ∨ ∃ walked, after.path id = .ok walked := by
  cases turn with
  | refused | released => exact .inl there
  | @configured _ key placed configures =>
    by_cases same : id = key
    · subst same
      exact .inr (configures.walks rooted)
    · rw [node_insert,if_neg same] at there
      exact .inl there
  | advanced => exact .inl (node_back there)
  | reserved reserves => exact .inl (node_back there)
  | @settled work held usage time found =>
    refine .inl (@node_back ledger time id ?_)
    intro absent
    rw [charged_node,absent] at there
    exact there rfl

theorem Turn.rooted (turn : Turn ledger operation after) (rooted : ledger.Rooted) : after.Rooted := by
  have keeps := turn.keeps
  refine ⟨?_,?_⟩
  · intro id there
    rcases turn.grown rooted there with before | walks
    · obtain ⟨path,walked⟩ := rooted.paths id before
      exact ⟨path,keeps.path walked⟩
    · exact walks
  · have earlier {work : Digest} {held : Held} (found : ledger.held.lookup work = some held) :
        ∃ subject, subject.isSubject = true ∧ after.path subject = .ok held.path := by
      obtain ⟨subject,isSubject,walked⟩ := rooted.held work held found
      exact ⟨subject,isSubject,keeps.path walked⟩
    have erased {work other : Digest} {held : Held} (found : (ledger.held.erase other).lookup work = some held) :
        ledger.held.lookup work = some held := by
      rw [Slots.lookup_erase_if] at found
      split at found
      · cases found
      · exact found
    intro work held found
    cases turn with
    | refused | configured | advanced => exact earlier found
    | settled _ => exact earlier (erased found)
    | released => exact earlier (erased found)
    | @reserved _ other subject charge time path reserves =>
      rw [Slots.lookup_insert_if] at found
      split at found
      · cases found
        exact ⟨subject,reserves.isSubject,keeps.path reserves.walked⟩
      · exact earlier found

end Turns

-- Every counter is in the window the ledger's clock is in.
def Current (ledger : Ledger) : Prop :=
  ∀ id node, ledger.node id = some node → ∀ meter window, (node.counters meter window).windowId = window.id ledger.highWater

theorem counterAt_current {node : Node} (ordered : early ≤ late) (current : (node.counters meter window).windowId = window.id early) :
    node.counterAt meter window late = ⟨window.id late,
      if window.id early < window.id late then 0 else (node.counters meter window).used⟩ := by
  unfold Node.counterAt
  dsimp only
  rw [current]
  split
  · rfl
  · rename_i still
    have same : window.id early = window.id late := Nat.le_antisymm (Window.id_mono ordered) (Nat.not_lt.mp still)
    rw [← same,← current]

theorem Current.advance (current : ledger.Current) : (ledger.advance time).Current := by
  intro id node found meter window
  rw [advance_node,Option.map_eq_some_iff] at found
  obtain ⟨old,there,rfl⟩ := found
  change (old.counterAt meter window _).windowId = _
  rw [counterAt_current (Nat.le_max_left _ time) (current id old there meter window)]
  rfl

def rolled (ledger : Ledger) (time : UnixMillis) (window : Window) (sum : Nat) : Nat :=
  if window.id ledger.highWater < window.id (max ledger.highWater time) then 0 else sum

theorem Current.used_advance (current : ledger.Current) :
    (ledger.advance time).used id meter window = ledger.rolled time window (ledger.used id meter window) := by
  unfold rolled used
  rw [advance_node]
  cases found : ledger.node id with
  | none => simp
  | some node =>
    simp only [Option.map_some,Option.getD_some,Node.advance]
    rw [counterAt_current (Nat.le_max_left _ time) (current id node found meter window)]
    split <;> rfl

theorem Turn.current {operation : Operation} (turn : Turn ledger operation after) (current : ledger.Current) : after.Current := by
  cases turn with
  | refused | released => exact current
  | advanced => exact current.advance
  | @reserved _ work subject charge time path reserves => exact @Current.advance ledger time current
  | @configured _ key placed configures =>
    intro id node found meter window
    rw [node_insert] at found
    split at found
    · cases found
      cases configures with
      | revised there parent revision counters =>
        rw [counters]
        exact current key _ there meter window
      | machine fresh machine alone unrevised counters => rw [counters]
      | under fresh valid placed_ revised walked room counters => rw [counters]
    · exact current id node found meter window
  | @settled work held usage time found =>
    intro id node there meter window
    rw [charged_node,Option.map_eq_some_iff] at there
    obtain ⟨old,before,rfl⟩ := there
    have rolls := @Current.advance ledger time current id old before meter window
    split
    · exact rolls
    · exact rolls

-- The operation adds to no counter what it cannot hold.
def Unsaturated (ledger : Ledger) : Operation → Prop
  | .settle work usage time => ∀ held, ledger.held.lookup work = some held → ∀ id ∈ held.path,
    ∀ meter window, (ledger.advance time).used id meter window + (actualOf usage held meter).toNat < 2^64
  | _ => True

-- A node covers its children: exactly, but for a subject, which may have spent on its own.
structure Covers (id : BudgetNode) (own sum : Nat) : Prop where
  above : sum ≤ own
  exact : id.isSubject = false → own = sum

theorem Covers.add (one : Covers id own sum) (other : Covers id more extra) : Covers id (own + more) (sum + extra) := by
  refine ⟨Nat.add_le_add one.above other.above,?_⟩
  intro plain
  rw [one.exact plain,other.exact plain]

def Balanced (ledger : Ledger) : Prop :=
  ∀ id meter window, Covers id (ledger.used id meter window) (∑ child ∈ ledger.children id, ledger.used child meter window)

theorem Keeps.sum (keeps : Keeps ledger after) {value : BudgetNode → Nat} (idle : ∀ child, ledger.node child = none → value child = 0) :
    ∑ child ∈ after.children id, value child = ∑ child ∈ ledger.children id, value child := by
  refine (Finset.sum_subset ?_ ?_).symm
  · intro child listed
    obtain ⟨node,found,parent⟩ := mem_children.mp listed
    obtain ⟨moved,kept,same,-⟩ := keeps.stands child node found
    exact mem_children.mpr ⟨moved,kept,same.trans parent⟩
  · intro child listed unlisted
    apply idle
    by_contra there
    obtain ⟨node,found⟩ := Option.ne_none_iff_exists'.mp there
    obtain ⟨moved,kept,same,-⟩ := keeps.stands child node found
    obtain ⟨again,kept',parent⟩ := mem_children.mp listed
    cases kept.symm.trans kept'
    exact unlisted (mem_children.mpr ⟨node,found,same.symm.trans parent⟩)

theorem used_absent (absent : ledger.node id = none) : ledger.used id meter window = 0 := by
  rw [used,absent]
  rfl

theorem Rooted.count_children (rooted : ledger.Rooted) {subject : BudgetNode}
    {path : List BudgetNode} (walked : ledger.path subject = .ok path) :
    ((ledger.children id).filter (· ∈ path)).card = if id ∈ path.reverse.tail then 1 else 0 := by
  have chain := (path_ok.mp walked).1
  rw [← chain.count_under,List.countP_eq_length_filter,← List.toFinset_card_of_nodup (chain.nodup.filter _)]
  congr 1
  ext child
  simp only [Finset.mem_filter,mem_children,List.mem_toFinset,List.mem_filter,List.mem_reverse,decide_eq_true_eq]
  constructor
  · intro listed
    obtain ⟨⟨node,found,parent⟩,inside⟩ := listed
    exact ⟨inside,(rooted.above found).trans (congrArg some parent)⟩
  · intro listed
    obtain ⟨inside,above⟩ := listed
    obtain ⟨node,found⟩ := Option.ne_none_iff_exists'.mp (path_placed walked inside)
    exact ⟨⟨node,found,Option.some.inj ((rooted.above found).symm.trans above)⟩,inside⟩

theorem Rooted.covers_path (rooted : ledger.Rooted) {subject : BudgetNode} {path : List BudgetNode}
    (isSubject : subject.isSubject = true) (walked : ledger.path subject = .ok path) (amount : Nat) :
    Covers id (if id ∈ path then amount else 0) (∑ child ∈ ledger.children id, if child ∈ path then amount else 0) := by
  have counted := @Rooted.count_children ledger id rooted subject path walked
  have chain := (path_ok.mp walked).1
  rw [← Finset.sum_filter,Finset.sum_const_nat fun _ _ => rfl,counted]
  obtain ⟨rest,same⟩ := chain.head
  have members : id ∈ path ↔ id = subject ∨ id ∈ path.reverse.tail := by
    rw [← List.mem_reverse,same,List.mem_cons,List.tail_cons]
  refine ⟨?_,?_⟩
  · split
    · rename_i below
      rw [if_pos (members.mpr (.inr below)),Nat.one_mul]
    · rw [Nat.zero_mul]
      exact Nat.zero_le _
  · intro plain
    have other : id ≠ subject := by
      intro equal
      rw [equal,isSubject] at plain
      cases plain
    simp only [members,other,false_or,ite_mul,one_mul,zero_mul]

theorem configured_used (configures : ledger.Configures key placed) :
    used { ledger with nodes := ledger.nodes.insert key placed } id meter window = ledger.used id meter window := by
  unfold used
  rw [node_insert]
  split
  · rename_i same
    subst same
    cases configures with
    | revised there parent revision counters => rw [there,Option.map_some,Option.map_some,counters]
    | machine fresh machine alone unrevised counters =>
      rw [fresh,Option.map_some,counters]
      rfl
    | under fresh valid placed_ revised walked room counters =>
      rw [fresh,Option.map_some,counters]
      rfl
  · rfl

theorem charged_used {work : Digest} {held : Held} {usage : Usage} (current : ledger.Current)
    (placed : ∀ id ∈ held.path, ledger.node id ≠ none)
    (fits : ∀ id ∈ held.path, (ledger.advance time).used id meter window + (actualOf usage held meter).toNat < 2^64) :
    (ledger.charged work held usage time).used id meter window = ledger.rolled time window (ledger.used id meter window) +
        if id ∈ held.path then (actualOf usage held meter).toNat else 0 := by
  rw [← current.used_advance]
  by_cases inside : id ∈ held.path
  · have room := fits id inside
    rw [if_pos inside]
    obtain ⟨node,there⟩ := Option.ne_none_iff_exists'.mp (placed id inside)
    unfold used at room ⊢
    rw [advance_node,there] at room
    rw [charged_node,advance_node,there]
    simp only [Option.map_some,Option.getD_some,if_pos inside,Node.spend] at room ⊢
    exact saturatingAdd_toNat room
  · unfold used
    rw [charged_node,if_neg inside,Nat.add_zero]
    simp only [inside,if_false,Option.map_id']

theorem rolled_sum {value : BudgetNode → Nat} :
    ∑ name ∈ names, ledger.rolled time window (value name) = ledger.rolled time window (∑ name ∈ names, value name) := by
  unfold rolled
  split
  · exact Finset.sum_const_zero
  · rfl

theorem Covers.rolled (covers : Covers id own sum) :
    Covers id (ledger.rolled time window own) (ledger.rolled time window sum) := by
  unfold Ledger.rolled
  split
  · exact ⟨Nat.le_refl 0,fun _ => rfl⟩
  · exact covers

theorem Turn.balanced (turn : Turn ledger operation after) (rooted : ledger.Rooted)
    (current : ledger.Current) (precise : ledger.Unsaturated operation) (balanced : ledger.Balanced) :
    after.Balanced := by
  have keeps := turn.keeps
  have moved (meter : Meter) (window : Window) (id : BudgetNode) :
      ∑ child ∈ after.children id, ledger.used child meter window = ∑ child ∈ ledger.children id, ledger.used child meter window :=
    keeps.sum fun child absent => used_absent absent
  intro id meter window
  have before := balanced id meter window
  cases turn with
  | refused | released => exact before
  | configured configures =>
    simp only [configured_used configures]
    rw [moved]
    exact before
  | @advanced _ time =>
    simp only [current.used_advance]
    rw [rolled_sum,moved]
    exact before.rolled
  | @reserved _ work subject charge time path reserves =>
    change Covers id ((ledger.advance time).used id meter window) (∑ child ∈ _, (ledger.advance time).used child meter window)
    simp only [current.used_advance]
    rw [rolled_sum,moved]
    exact before.rolled
  | @settled work held usage time found =>
    obtain ⟨subject,isSubject,walked⟩ := rooted.held work held found
    have placed (node : BudgetNode) (inside : node ∈ held.path) : ledger.node node ≠ none := path_placed walked inside
    simp only [charged_used current placed fun node inside => precise held found node inside meter window]
    rw [Finset.sum_add_distrib,rolled_sum,moved,keeps.sum]
    · exact before.rolled.add (rooted.covers_path isSubject walked _)
    · intro child absent
      exact if_neg fun inside => placed child inside absent

theorem Rooted.exposure_children (rooted : ledger.Rooted) (plain : id.isSubject = false) :
    ledger.exposure id meter = ∑ child ∈ ledger.children id, ledger.exposure child meter := by
  unfold exposure
  rw [← Slots.weight_sum]
  apply Slots.weight_congr
  intro work held found
  obtain ⟨subject,isSubject,walked⟩ := rooted.held work held found
  exact (rooted.covers_path isSubject walked _).exact plain

structure AddsUp (ledger : Ledger) : Prop where
  windows : ∀ id node, ledger.node id = some node → ∀ meter window,
    (node.counters meter window).windowId = window.id ledger.highWater
  used : ∀ id, id.isSubject = false → ∀ meter window, ledger.used id meter window =
    ∑ child ∈ ledger.children id, ledger.used child meter window
  subjects : ∀ id, id.isSubject = true → ∀ meter window,
    ∑ child ∈ ledger.children id, ledger.used child meter window ≤ ledger.used id meter window
  reserved : ∀ id, id.isSubject = false → ∀ meter, (ledger.reserved id meter).toNat =
    ∑ child ∈ ledger.children id, (ledger.reserved child meter).toNat
  paths : ∀ id, ledger.node id ≠ none → ∃ path, ledger.path id = .ok path ∧
    path.head? = some .machine ∧ path.getLast? = some id ∧
    path.IsChain (fun parent child => child.ValidParent parent) ∧ path.length ≤ maxBudgetPathLen

structure Kept (ledger : Ledger) : Prop where
  sound : ledger.Sound
  rooted : ledger.Rooted
  current : ledger.Current
  balanced : ledger.Balanced

theorem kept_empty : empty.Kept := by
  refine ⟨sound_empty,⟨?_,?_⟩,?_,?_⟩
  · intro id there
    exact absurd rfl there
  · intro work held found
    cases found
  · intro id node found
    cases found
  · intro id meter window
    exact ⟨Nat.le_refl 0,fun _ => rfl⟩

theorem performAll_kept (kept : ledger.Kept) (precise : Throughout Unsaturated ledger operations) :
    (ledger.performAll operations).Kept := by
  induction operations generalizing ledger with
  | nil => exact kept
  | cons operation rest ih =>
    have turn := perform_turn kept.sound kept.rooted operation
    have sound := (@perform_effect ledger operation kept.sound).sound kept.sound
    exact ih ⟨sound,turn.rooted kept.rooted,turn.current kept.current,turn.balanced kept.rooted kept.current precise.1 kept.balanced⟩ precise.2

theorem path_steps (chain : Chain (aboveOf ledger.parentOf) id members) :
    members.getLast? = some .machine ∧ members.IsChain (fun child parent => child.ValidParent parent) := by
  induction chain with
  | alone stands =>
    obtain ⟨node,stands,alone⟩ := above_stands stands
    cases stands with
    | alone machine => exact ⟨by rw [machine]; rfl,List.isChain_singleton _⟩
    | under other placed =>
      rw [placed] at alone
      cases alone
  | @under key parent rest above up ih =>
    obtain ⟨node,stands,placed⟩ := above_stands above
    obtain ⟨later,rfl⟩ := up.head
    cases stands with
    | alone machine alone =>
      rw [alone] at placed
      cases placed
    | under other placed' valid =>
      cases placed.trans placed'
      refine ⟨?_,List.isChain_cons_cons.mpr ⟨valid,ih.2⟩⟩
      rw [List.getLast?_cons_cons]
      exact ih.1

theorem Kept.addsUp (kept : ledger.Kept) : ledger.AddsUp := by
  have precise (id : BudgetNode) (meter : Meter) := reserved_exact (kept.sound.exact id meter)
  refine ⟨kept.current,?_,?_,?_,?_⟩
  · intro id plain meter window
    exact (kept.balanced id meter window).exact plain
  · intro id _ meter window
    exact (kept.balanced id meter window).above
  · intro id plain meter
    simp only [precise]
    exact kept.rooted.exposure_children plain
  · intro id there
    obtain ⟨path,walked⟩ := kept.rooted.paths id there
    obtain ⟨chain,short⟩ := path_ok.mp walked
    obtain ⟨last,steps⟩ := path_steps chain
    obtain ⟨rest,same⟩ := chain.head
    refine ⟨path,walked,?_,?_,?_,short⟩
    · rw [← List.getLast?_reverse]
      exact last
    · rw [← List.head?_reverse,same]
      rfl
    · rw [← List.reverse_reverse path,List.isChain_reverse]
      exact steps

theorem budget_tree_adds_up (operations : List Operation)
    (precise : Throughout Unsaturated empty operations) : (empty.performAll operations).AddsUp :=
  (performAll_kept kept_empty precise).addsUp

namespace Sample

theorem budget_tree_adds_up_next_hour :
    ((empty.performAll (setup ++ nextHour)).children (.pool pool)) = {holder} ∧
      (empty.performAll (setup ++ nextHour)).used .machine .requests .hour = 10 ∧
      (empty.performAll (setup ++ nextHour)).AddsUp := by
  refine ⟨by decide +kernel,by decide +kernel,budget_tree_adds_up _ ?_⟩
  refine ⟨trivial,trivial,trivial,trivial,trivial,trivial,?_,trivial⟩
  show ∀ held ∈ (empty.performAll (setup ++ [.advance 3600000])).held.lookup work,
      ∀ id ∈ held.path, ∀ meter window,
      ((empty.performAll (setup ++ [.advance 3600000])).advance 3600000).used id meter window +
        (actualOf .unknown held meter).toNat < 2^64
  decide +kernel

end Sample

end Ledger

end Hellas.Grants
