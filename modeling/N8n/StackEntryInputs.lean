import N8n.SourceDataGroups

/-! At which inputs an entry of the recreated stack has its data and sources. For a complete group
they are appended connection by connection, and data only where the output has items, so that
an input has its own only where all before it have. -/

namespace N8n.PartialExecution

open PartialExecution.DirectedGraph WorkflowExecute List Option

/-! ## What an input should get -/

def TaskData.Gives (task : TaskData) (type : NodeConnectionType) (output : ℕ) (items : Items) : Prop :=
  ∃ data outputs, task.data = some data ∧ data.get type = some outputs ∧ outputs[output]? = some (some items)

/-- The data of a source and their run: pinned ones, or those of the first run that gave the output items. -/
inductive ComesFrom (runData : RunData) (pinData : PinData) (c : N8n.GraphConnection) : Option Items → ℕ → Prop
  | pinned {items : Items} (pinned : pinData.get c.fromNode = some items) : ComesFrom runData pinData c (some items) 0
  | firstRun {runs : List TaskData} {task : TaskData} {items : Items} {run : ℕ}
      (notPinned : pinData.get c.fromNode = none) (ran : runData.get c.fromNode = some runs)
      (here : runs[run]? = some task) (gives : task.Gives c.type c.outputIndex items) (nonempty : items ≠ [])
      (first : ∀ earlier < run, ∀ task, runs[earlier]? = some task → ¬task.HasData c.type c.outputIndex) :
      ComesFrom runData pinData c (some items) run
  | nothing {runs : List TaskData} (notPinned : pinData.get c.fromNode = none)
      (ran : runData.get c.fromNode = some runs) (never : ∀ task ∈ runs, ¬task.HasData c.type c.outputIndex) :
      ComesFrom runData pinData c none 0

/-- The entry has the data of the connection's source, and a source that names it, at the connection's input. -/
def OnItsInput (runData : RunData) (pinData : PinData) (entry : ExecuteData) (c : N8n.GraphConnection) : Prop :=
  ∃ data run, ComesFrom runData pinData c data run ∧ entry.data[c.inputIndex]? = data ∧
    ∃ sources, entry.source = some sources ∧ sources[c.inputIndex]? = some ⟨c.fromNode, c.outputIndex, run⟩

variable {runData : RunData} {pinData : PinData} {c : N8n.GraphConnection} {connections : List N8n.GraphConnection}
  {name : String} {type : NodeConnectionType} {output : ℕ} {runs : List TaskData} {task : TaskData} {items : Items}
  {incoming : Option Items × ℕ} {entries : List (Option SourceConnectionGroup × ExecuteData)}

theorem TaskData.Gives.hasData (gives : task.Gives type output items) (nonempty : items ≠ []) :
    task.HasData type output := by
  obtain ⟨data, outputs, found, ofType, here⟩ := gives
  obtain ⟨item, rest, rfl⟩ := exists_cons_of_ne_nil nonempty
  exact ⟨data, outputs, item, rest, found, ofType, here⟩

theorem TaskData.Gives.unique {others : Items} (gives : task.Gives type output items)
    (givesOthers : task.Gives type output others) : items = others := by
  obtain ⟨data, outputs, found, ofType, here⟩ := gives
  obtain ⟨_, _, foundToo, ofTypeToo, hereToo⟩ := givesOthers
  obtain rfl := some.inj (found.symm.trans foundToo)
  obtain rfl := some.inj (ofType.symm.trans ofTypeToo)
  exact some.inj (some.inj (here.symm.trans hereToo))

theorem read_gives (done : task.read type output = .ok (some items)) : task.Gives type output items := by
  rw [TaskData.read] at done
  cases found : task.data with
  | none =>
    rw [found] at done
    cases done
  | some data =>
    cases ofType : data.get type with
    | none => simp [found, ofType] at done
    | some outputs =>
      simp only [found, ofType, Except.ok.injEq, join_eq_some_iff] at done
      exact ⟨data, outputs, found, ofType, done⟩

theorem ComesFrom.unique {data others : Option Items} {run other : ℕ} (from_ : ComesFrom runData pinData c data run)
    (fromToo : ComesFrom runData pinData c others other) : data = others ∧ run = other := by
  cases from_ with
  | pinned pinned =>
    cases fromToo with
    | pinned pinnedToo => exact ⟨pinned.symm.trans pinnedToo, rfl⟩
    | firstRun notPinned => cases notPinned.symm.trans pinned
    | nothing notPinned => cases notPinned.symm.trans pinned
  | @firstRun runs task items run notPinned ran here gives nonempty first =>
    cases fromToo with
    | pinned pinned => cases notPinned.symm.trans pinned
    | @firstRun _ taskToo _ _ _ ranToo hereToo givesToo nonemptyToo firstToo =>
      obtain rfl := some.inj (ran.symm.trans ranToo)
      have notAfter : ¬other < run := fun before => first other before taskToo hereToo (givesToo.hasData nonemptyToo)
      have notBefore : ¬run < other := fun before => firstToo run before task here (gives.hasData nonempty)
      obtain rfl : run = other := by omega
      obtain rfl := some.inj (here.symm.trans hereToo)
      exact ⟨congrArg Option.some (gives.unique givesToo), rfl⟩
    | nothing _ ranToo never =>
      obtain rfl := some.inj (ran.symm.trans ranToo)
      exact absurd (gives.hasData nonempty) (never task (mem_of_getElem? here))
  | @nothing runs notPinned ran never =>
    cases fromToo with
    | pinned pinned => cases notPinned.symm.trans pinned
    | @firstRun _ task _ _ _ ranToo here gives nonempty first =>
      obtain rfl := some.inj (ran.symm.trans ranToo)
      exact absurd (gives.hasData nonempty) (never task (mem_of_getElem? here))
    | nothing => exact ⟨rfl, rfl⟩

theorem firstRunWithData_first (found : runData.get name = some runs) {left index : ℕ}
    (all : runs.length = index + left) {first : Option (Items × ℕ)}
    (done : firstRunWithData runData name type output left index = .ok first) :
    match first with
    | none => ∀ i, index ≤ i → ∀ task, runs[i]? = some task → ¬task.HasData type output
    | some (items, run) => index ≤ run ∧ items ≠ [] ∧ (∃ task, runs[run]? = some task ∧ task.Gives type output items) ∧
        ∀ i, index ≤ i → i < run → ∀ task, runs[i]? = some task → ¬task.HasData type output := by
  induction left generalizing index with
  | zero =>
    obtain rfl := Except.ok.inj done
    intro i after task here
    obtain ⟨inside, _⟩ := List.getElem?_eq_some_iff.mp here
    omega
  | succ left ih =>
    have inside : index < runs.length := by omega
    rw [firstRunWithData, bind_eq_ok, getIncomingData_eq found inside] at done
    obtain ⟨items, read, done⟩ := done
    have hasData := read_hasData read
    have goesOn : ¬runs[index].HasData type output → ∀ i, index ≤ i →
        (i ≠ index → ∀ task, runs[i]? = some task → ¬task.HasData type output) →
        ∀ task, runs[i]? = some task → ¬task.HasData type output := by
      intro noData i _ others task here
      by_cases isIndex : i = index
      · subst isIndex
        obtain rfl := some.inj ((getElem?_eq_getElem inside).symm.trans here)
        exact noData
      · exact others isIndex task here
    rcases items with _ | (_ | ⟨item, items⟩)
    case some.cons =>
      obtain rfl := Except.ok.inj done
      refine ⟨le_rfl, cons_ne_nil _ _, ⟨_, getElem?_eq_getElem inside, read_gives read⟩, ?_⟩
      intro i after before
      omega
    all_goals
      have noData : ¬runs[index].HasData type output := by simp [hasData]
      have rest := ih (by omega) done
      rcases first with _ | ⟨items, run⟩
      · exact fun i after => goesOn noData i after fun notIndex => rest i (by omega)
      · obtain ⟨later, nonempty, here, others⟩ := rest
        refine ⟨by omega, nonempty, here, fun i after before => ?_⟩
        exact goesOn noData i after fun notIndex => others i (by omega) before

theorem incomingDataOf_comesFrom (read : incomingDataOf runData pinData c = .ok incoming) :
    ComesFrom runData pinData c incoming.1 incoming.2 := by
  rw [incomingDataOf] at read
  cases pinned : pinData.get c.fromNode with
  | some items =>
    rw [pinned] at read
    obtain rfl := Except.ok.inj read
    exact .pinned pinned
  | none =>
    simp only [pinned] at read
    cases ran : runData.get c.fromNode with
    | none => simp [OrderedMap.has, ran] at read
    | some runs =>
      rw [if_pos (by simp [OrderedMap.has, ran]), bind_eq_ok] at read
      obtain ⟨first, searched, same⟩ := read
      obtain rfl := Except.ok.inj same
      rw [getIncomingDataFromAnyRun, getRunIndexLength, ran] at searched
      have isFirst := firstRunWithData_first ran (Nat.zero_add _).symm searched
      rcases first with _ | ⟨items, run⟩
      · refine .nothing pinned ran fun task member => ?_
        obtain ⟨i, here⟩ := mem_iff_getElem?.mp member
        exact isFirst i (Nat.zero_le i) task here
      · obtain ⟨_, nonempty, ⟨task, here, gives⟩, others⟩ := isFirst
        exact .firstRun pinned ran here gives nonempty fun i before => others i (Nat.zero_le i) before

/-! ## The entries and the groups that they are for -/

section Entries

variable (localeLE : String → String → Bool) (graph : DirectedGraph) (runData : RunData) (pinData : PinData)

def entriesOfGroup (startNode : GraphNode) (group : SourceConnectionGroup) :
    Except Failure (List (Option SourceConnectionGroup × ExecuteData)) :=
  if group.complete then do
    let executeData ← completeEntry runData pinData startNode group.connections
    return [(some group, executeData)]
  else return []

/-- What a start node puts on the stack; without a group where no main connection leads to it. -/
def entriesOfStartNode (startNode : GraphNode) :
    Except Failure (List (Option SourceConnectionGroup × ExecuteData)) := do
  let parentConnections ← asserted (graph.getDirectParentConnections startNode)
  if (parentConnections.filter (·.type = .main)).length = 0 then
    return [(none, ⟨startNode, [[emptyItem]], none⟩)]
  else
    let entries ← (getSourceDataGroups localeLE graph startNode runData pinData).mapM
      (entriesOfGroup runData pinData startNode)
    return entries.flatten

def entriesOf (startNodes : List GraphNode) : Except Failure (List (Option SourceConnectionGroup × ExecuteData)) := do
  let entries ← startNodes.mapM (entriesOfStartNode localeLE graph runData pinData)
  return entries.flatten

end Entries

variable {localeLE : String → String → Bool} {graph : DirectedGraph} {startNode : GraphNode}
  {startNodes : List GraphNode} {group : SourceConnectionGroup} {entry : ExecuteData} {s next : RecreatedStack}

theorem addWaitingConnection_stack {nextRunIndex : ℕ}
    (added : addWaitingConnection runData startNode nextRunIndex s c = .ok next) :
    next.nodeExecutionStack = s.nodeExecutionStack := by
  rw [addWaitingConnection, bind_eq_ok] at added
  obtain ⟨first, _, added⟩ := added
  cases first with
  | none =>
    obtain rfl := Except.ok.inj added
    rfl
  | some first =>
    obtain rfl := Except.ok.inj added
    rfl

theorem addGroup_stack (added : addGroup runData pinData startNode s group = .ok next) :
    ∃ new, entriesOfGroup runData pinData startNode group = .ok new ∧
      next.nodeExecutionStack = s.nodeExecutionStack ++ new.map Prod.snd := by
  rw [addGroup] at added
  rw [entriesOfGroup]
  split at added
  · next complete =>
    obtain ⟨executeData, made, same⟩ := bind_eq_ok.mp added
    obtain rfl := Except.ok.inj same
    exact ⟨_, by rw [if_pos complete, made]; rfl, rfl⟩
  · next incomplete =>
    refine ⟨[], by rw [if_neg incomplete]; rfl, ?_⟩
    rw [map_nil, append_nil]
    exact foldlM_ok_invariant (I := fun t => t.nodeExecutionStack = s.nodeExecutionStack)
      (fun c _ t next kept added => (addWaitingConnection_stack added).trans kept) rfl added

theorem addStartNode_stack (added : addStartNode localeLE graph runData pinData s startNode = .ok next) :
    ∃ new, entriesOfStartNode localeLE graph runData pinData startNode = .ok new ∧
      next.nodeExecutionStack = s.nodeExecutionStack ++ new.map Prod.snd := by
  obtain ⟨parentConnections, parents, added⟩ := bind_eq_ok.mp added
  rw [entriesOfStartNode, parents, ok_bind]
  dsimp only at added
  split at added
  · next none =>
    obtain rfl := Except.ok.inj added
    exact ⟨_, by rw [if_pos none]; rfl, rfl⟩
  · next some =>
    have each : ∀ group ∈ getSourceDataGroups localeLE graph startNode runData pinData, ∀ s next,
        addGroup runData pinData startNode s group = .ok next →
        ∃ new, entriesOfGroup runData pinData startNode group = .ok new ∧
          next.nodeExecutionStack = s.nodeExecutionStack ++ new.map Prod.snd := fun _ _ _ _ => addGroup_stack
    obtain ⟨news, made, stack⟩ := foldlM_appends each added
    exact ⟨_, by rw [if_neg some, made]; rfl, stack⟩

theorem recreateNodeExecutionStack_stack
    (recreated : recreateNodeExecutionStack localeLE graph startNodes runData pinData = .ok s) :
    ∃ entries, entriesOf localeLE graph runData pinData startNodes = .ok entries ∧
      s.nodeExecutionStack = entries.map Prod.snd := by
  rw [recreateNodeExecutionStack] at recreated
  split at recreated
  · cases recreated
  · have each : ∀ startNode ∈ startNodes, ∀ s next, addStartNode localeLE graph runData pinData s startNode = .ok next →
        ∃ new, entriesOfStartNode localeLE graph runData pinData startNode = .ok new ∧
          next.nodeExecutionStack = s.nodeExecutionStack ++ new.map Prod.snd := fun _ _ _ _ => addStartNode_stack
    obtain ⟨news, made, stack⟩ := foldlM_appends each recreated
    exact ⟨_, by rw [entriesOf, made]; rfl, stack⟩

theorem mem_entriesOfGroup {new : List (Option SourceConnectionGroup × ExecuteData)} {other : SourceConnectionGroup}
    (made : entriesOfGroup runData pinData startNode other = .ok new) :
    (some group, entry) ∈ new ↔ group = other ∧ other.complete = true ∧
      completeEntry runData pinData startNode other.connections = .ok entry := by
  rw [entriesOfGroup] at made
  split at made
  · next complete =>
    obtain ⟨executeData, entered, same⟩ := bind_eq_ok.mp made
    obtain rfl := Except.ok.inj same
    simp [entered, complete, eq_comm]
  · next incomplete =>
    obtain rfl := Except.ok.inj made
    simp [incomplete]

theorem made_of_mem (made : entriesOf localeLE graph runData pinData startNodes = .ok entries)
    (member : (some group, entry) ∈ entries) :
    ∃ startNode ∈ startNodes, group ∈ getSourceDataGroups localeLE graph startNode runData pinData ∧
      group.complete = true ∧ completeEntry runData pinData startNode group.connections = .ok entry := by
  obtain ⟨lists, ofNodes, same⟩ := bind_eq_ok.mp made
  obtain rfl := Except.ok.inj same
  obtain ⟨startNode, isStart, new, ofNode, inNew⟩ := (mem_flatten_of_mapM ofNodes).mp member
  obtain ⟨parentConnections, _, ofNode⟩ := bind_eq_ok.mp ofNode
  split at ofNode
  · obtain rfl := Except.ok.inj ofNode
    simp at inNew
  · obtain ⟨groupLists, ofGroups, same⟩ := bind_eq_ok.mp ofNode
    obtain rfl := Except.ok.inj same
    obtain ⟨other, isGroup, new, ofGroup, inNew⟩ := (mem_flatten_of_mapM ofGroups).mp inNew
    obtain ⟨rfl, complete, entered⟩ := (mem_entriesOfGroup ofGroup).mp inNew
    exact ⟨startNode, isStart, isGroup, complete, entered⟩

theorem mem_of_complete
    (made : entriesOf localeLE graph runData pinData startNodes = .ok entries) (isStart : startNode ∈ startNodes)
    (isGroup : group ∈ getSourceDataGroups localeLE graph startNode runData pinData) (complete : group.complete = true)
    (inside : c ∈ group.connections) (main : c.type = .main) :
    ∃ entry, (some group, entry) ∈ entries ∧ completeEntry runData pinData startNode group.connections = .ok entry := by
  have counts := (getSourceDataGroups_perm localeLE graph startNode runData pinData).mem_iff.mp
    (mem_flatMap.mpr ⟨group, isGroup, inside⟩)
  obtain ⟨d, incoming, rfl⟩ := List.mem_map.mp (mem_of_mem_filter counts)
  obtain ⟨lists, ofNodes, same⟩ := bind_eq_ok.mp made
  obtain rfl := Except.ok.inj same
  obtain ⟨ofStart, startMade⟩ := ok_of_mapM ofNodes isStart
  obtain ⟨parentConnections, parents, ofNode⟩ := bind_eq_ok.mp startMade
  have isParent : d ∈ parentConnections := by
    rw [getDirectParentConnections] at parents
    split at parents
    · exact Except.ok.inj parents ▸ incoming
    · cases parents
  split at ofNode
  · next none =>
    have nothing := eq_nil_of_length_eq_zero none
    exact absurd (mem_filter.mpr ⟨isParent, decide_eq_true main⟩) (nothing ▸ not_mem_nil)
  · obtain ⟨groupLists, ofGroups, same⟩ := bind_eq_ok.mp ofNode
    obtain rfl := Except.ok.inj same
    obtain ⟨new, ofGroup⟩ := ok_of_mapM ofGroups isGroup
    have entered := ofGroup
    rw [entriesOfGroup, if_pos complete] at entered
    obtain ⟨entry, entered, _⟩ := bind_eq_ok.mp entered
    have inNew := (mem_entriesOfGroup ofGroup).mpr ⟨rfl, complete, entered⟩
    have inStart := (mem_flatten_of_mapM ofGroups).mpr ⟨group, isGroup, new, ofGroup, inNew⟩
    exact ⟨entry, (mem_flatten_of_mapM ofNodes).mpr ⟨startNode, isStart, _, startMade, inStart⟩, entered⟩

/-! ## What stands at an input -/

section Placement

variable (runData : RunData) (pinData : PinData)

def itemsOf (c : N8n.GraphConnection) : Option Items :=
  match incomingDataOf runData pinData c with
  | .ok incoming => incoming.1
  | .error _ => none

def sourceOf (c : N8n.GraphConnection) : SourceData :=
  match incomingDataOf runData pinData c with
  | .ok incoming => ⟨c.fromNode, c.outputIndex, incoming.2⟩
  | .error _ => ⟨c.fromNode, c.outputIndex, 0⟩

def InPlace (connections : List N8n.GraphConnection) : Prop :=
  (∀ c ∈ connections.head?, c.inputIndex = 0) ∧ connections.Pairwise fun a b => a.type = .main ∨ b.type = .main →
      itemsOf runData pinData a = none → itemsOf runData pinData b = none

/-- Connections of other types may happen to have what the main ones should have. -/
def ReplacedByOthers (connections : List N8n.GraphConnection) : Prop :=
  (∃ c ∈ connections, c.type ≠ .main) ∧ ∀ c ∈ connections, c.type = .main →
    (connections.filterMap (itemsOf runData pinData))[c.inputIndex]? = itemsOf runData pinData c ∧
      ∃ d, connections[c.inputIndex]? = some d ∧ sourceOf runData pinData d = sourceOf runData pinData c

end Placement

theorem incomingDataOf_eq (read : incomingDataOf runData pinData c = .ok incoming) :
    itemsOf runData pinData c = incoming.1 ∧ sourceOf runData pinData c = ⟨c.fromNode, c.outputIndex, incoming.2⟩ := by
  rw [itemsOf, sourceOf, read]
  exact ⟨rfl, rfl⟩

theorem completeEntry_eq (made : completeEntry runData pinData startNode connections = .ok entry) :
    entry.data = connections.filterMap (itemsOf runData pinData) ∧
      entry.source = some (connections.map (sourceOf runData pinData)) := by
  obtain ⟨incoming, read, same⟩ := bind_eq_ok.mp made
  obtain rfl := Except.ok.inj same
  have each := mapM_eq_ok.mp read
  clear made same read
  dsimp only
  induction each with
  | nil => exact ⟨rfl, rfl⟩
  | @cons c incoming connections others first _ ih =>
    obtain ⟨items, source⟩ := incomingDataOf_eq first
    obtain ⟨data, sources⟩ := ih
    rw [filterMap_cons, filterMap_cons, items, data, zip_cons_cons, map_cons, map_cons, source,
      some.inj sources]
    exact ⟨rfl, rfl⟩

theorem onItsInput_iff (made : completeEntry runData pinData startNode connections = .ok entry)
    (inside : c ∈ connections) : OnItsInput runData pinData entry c ↔
      (connections.filterMap (itemsOf runData pinData))[c.inputIndex]? = itemsOf runData pinData c ∧
        ∃ d, connections[c.inputIndex]? = some d ∧ sourceOf runData pinData d = sourceOf runData pinData c := by
  obtain ⟨data, sources⟩ := completeEntry_eq made
  obtain ⟨incoming, read, _⟩ := bind_eq_ok.mp made
  obtain ⟨own, ownRead⟩ := ok_of_mapM read inside
  obtain ⟨items, source⟩ := incomingDataOf_eq ownRead
  have comesFrom := incomingDataOf_comesFrom ownRead
  rw [OnItsInput, data, sources, items, source]
  constructor
  · rintro ⟨data, run, fromToo, here, sources, isSource, named⟩
    obtain ⟨rfl, rfl⟩ := comesFrom.unique fromToo
    obtain rfl := some.inj isSource
    rw [getElem?_map] at named
    exact ⟨here, map_eq_some_iff.mp named⟩
  · rintro ⟨here, named⟩
    refine ⟨own.1, own.2, comesFrom, here, _, rfl, ?_⟩
    rw [getElem?_map]
    exact map_eq_some_iff.mpr named

theorem getElem?_filterMap {α β : Type*} {f : α → Option β} {before after : List α} {a : α}
    (allBefore : ∀ b, f a = some b → ∀ x ∈ before, (f x).isSome) (noneAfter : f a = none → ∀ x ∈ after, f x = none) :
    ((before ++ a :: after).filterMap f)[before.length]? = f a := by
  cases found : f a with
  | none =>
    have nothing : after.filterMap f = [] := filterMap_eq_nil_iff.mpr (noneAfter found)
    have short := length_filterMap_le f before
    rw [filterMap_append, filterMap_cons_none found, nothing, append_nil]
    exact getElem?_eq_none short
  | some b =>
    have length := filterMap_length_eq_length.mpr (allBefore b found)
    rw [filterMap_append, filterMap_cons_some found, getElem?_append_right length.le, length,
      Nat.sub_self]
    rfl

theorem inputIndex_of_range {low n : ℕ} (indexes : connections.map (·.inputIndex) = List.range' low n) {i : ℕ}
    (here : connections[i]? = some c) : c.inputIndex = low + i := by
  have mapped : (connections.map (·.inputIndex))[i]? = some c.inputIndex := by rw [getElem?_map, here]; rfl
  rw [indexes] at mapped
  obtain ⟨inside, same⟩ := List.getElem?_eq_some_iff.mp mapped
  rw [getElem_range'] at same
  omega

theorem InPlace.placed {low n : ℕ} (indexes : connections.map (·.inputIndex) = List.range' low n)
    (inPlace : InPlace runData pinData connections) (inside : c ∈ connections) (main : c.type = .main) :
    (connections.filterMap (itemsOf runData pinData))[c.inputIndex]? = itemsOf runData pinData c ∧
      connections[c.inputIndex]? = some c := by
  obtain ⟨fromZero, ordered⟩ := inPlace
  obtain ⟨before, after, rfl⟩ := append_of_mem inside
  have atPlace : (before ++ c :: after)[before.length]? = some c := by simp
  have isZero : low = 0 := by
    obtain ⟨first, isFirst⟩ : ∃ first, (before ++ c :: after)[0]? = some first := by
      cases before with
      | nil => exact ⟨c, rfl⟩
      | cons b before => exact ⟨b, rfl⟩
    have atFirst := inputIndex_of_range indexes isFirst
    have zero := fromZero first (head?_eq_getElem? ▸ isFirst)
    omega
  have place : c.inputIndex = before.length := by
    have index := inputIndex_of_range indexes atPlace
    omega
  rw [place]
  refine ⟨getElem?_filterMap (fun items found x member => ?_) (fun none x member => ?_), atPlace⟩
  · have pair := (pairwise_append.mp ordered).2.2 x member c mem_cons_self (.inr main)
    rw [isSome_iff_ne_none]
    intro noItems
    cases found.symm.trans (pair noItems)
  · have pairs := (pairwise_append.mp ordered).2.1
    exact rel_of_pairwise_cons pairs member (.inl main) none

theorem inPlace_of_placed {low n : ℕ} (indexes : connections.map (·.inputIndex) = List.range' low n)
    (placed : ∀ c ∈ connections,
      (connections.filterMap (itemsOf runData pinData))[c.inputIndex]? = itemsOf runData pinData c ∧
        ∃ d, connections[c.inputIndex]? = some d) : InPlace runData pinData connections := by
  have length : connections.length = n := by
    have lengths := congrArg List.length indexes
    rwa [length_map, length_range'] at lengths
  -- the last connection is inside only where the first is at input 0
  have isZero : 0 < n → low = 0 := by
    intro some
    have last := getElem?_eq_getElem (l := connections) (i := n - 1) (by omega)
    obtain ⟨_, d, here⟩ := placed _ (mem_of_getElem? last)
    obtain ⟨inside, _⟩ := List.getElem?_eq_some_iff.mp here
    have index := inputIndex_of_range indexes last
    omega
  constructor
  · intro c isHead
    have first : connections[0]? = some c := head?_eq_getElem? ▸ isHead
    have index := inputIndex_of_range indexes first
    obtain ⟨inside, _⟩ := List.getElem?_eq_some_iff.mp first
    have zero := isZero (by omega)
    omega
  · refine pairwise_iff_getElem.mpr fun i j insideI insideJ before _ noItems => ?_
    have zero := isZero (by omega)
    have indexI := inputIndex_of_range indexes (getElem?_eq_getElem insideI)
    have indexJ := inputIndex_of_range indexes (getElem?_eq_getElem insideJ)
    have atI := (placed _ (getElem_mem insideI)).1
    have atJ := (placed _ (getElem_mem insideJ)).1
    rw [noItems, List.getElem?_eq_none_iff] at atI
    rw [← atJ]
    exact getElem?_eq_none (by omega)

theorem placed_iff {low n : ℕ} (indexes : connections.map (·.inputIndex) = List.range' low n)
    (made : completeEntry runData pinData startNode connections = .ok entry) :
    (∀ c ∈ connections, c.type = .main → OnItsInput runData pinData entry c) ↔
      InPlace runData pinData connections ∨ ReplacedByOthers runData pinData connections := by
  constructor
  · intro placed
    by_cases others : ∃ c ∈ connections, c.type ≠ .main
    · exact .inr ⟨others, fun c inside main => (onItsInput_iff made inside).mp (placed c inside main)⟩
    · push Not at others
      refine .inl (inPlace_of_placed indexes fun c inside => ?_)
      obtain ⟨items, d, here, _⟩ := (onItsInput_iff made inside).mp (placed c inside (others c inside))
      exact ⟨items, d, here⟩
  · rintro (inPlace | ⟨_, replaced⟩) c inside main
    · obtain ⟨items, here⟩ := inPlace.placed indexes inside main
      exact (onItsInput_iff made inside).mpr ⟨items, c, here, rfl⟩
    · exact (onItsInput_iff made inside).mpr (replaced c inside main)

/-- The entries for complete groups have data and sources at the right inputs exactly when the groups start at
input 0 and have those without items last. -/
theorem recreateNodeExecutionStack_inPlace_iff
    (recreated : recreateNodeExecutionStack localeLE graph startNodes runData pinData = .ok s) :
    ∃ entries, entriesOf localeLE graph runData pinData startNodes = .ok entries ∧
      s.nodeExecutionStack = entries.map Prod.snd ∧
      ((∀ group entry, (some group, entry) ∈ entries → ∀ c ∈ group.connections, c.type = .main →
          OnItsInput runData pinData entry c) ↔
        ∀ startNode ∈ startNodes, ∀ group ∈ getSourceDataGroups localeLE graph startNode runData pinData,
          group.complete = true → InPlace runData pinData group.connections ∨
            ReplacedByOthers runData pinData group.connections) := by
  obtain ⟨entries, made, stack⟩ := recreateNodeExecutionStack_stack recreated
  refine ⟨entries, made, stack, fun placed startNode isStart group isGroup complete => ?_,
    fun inPlace group entry member => ?_⟩
  · obtain ⟨low, n, some, indexes⟩ := getSourceDataGroups_consecutive localeLE graph startNode runData pinData isGroup
    by_cases mains : ∃ c ∈ group.connections, c.type = .main
    · obtain ⟨c, inside, main⟩ := mains
      obtain ⟨entry, member, entered⟩ := mem_of_complete made isStart isGroup complete inside main
      exact (placed_iff indexes entered).mp (placed group entry member)
    · push Not at mains
      obtain ⟨c, inside⟩ : ∃ c, c ∈ group.connections := by
        refine exists_mem_of_length_pos ?_
        have lengths := congrArg List.length indexes
        rw [length_map, length_range'] at lengths
        omega
      exact .inr ⟨⟨c, inside, mains c inside⟩, fun c inside main => absurd main (mains c inside)⟩
  · obtain ⟨startNode, isStart, isGroup, complete, entered⟩ := made_of_mem made member
    obtain ⟨low, n, _, indexes⟩ := getSourceDataGroups_consecutive localeLE graph startNode runData pinData isGroup
    exact (placed_iff indexes entered).mpr (inPlace startNode isStart group isGroup complete)

/-- `a` leads to an input of `d`. -/
def leadsToInput (input : ℕ) : DirectedGraph :=
  setConnection (empty.addNodes [plainNode 0 "a", plainNode 1 "d"]) ⟨plainNode 0 "a", plainNode 1 "d", .main, 0, input⟩

def gaveItem : RunData := ⟨[("a", [⟨false, some ⟨[(.main, [some [⟨"1"⟩]])], by decide⟩⟩])], by decide⟩

theorem inputZero_inPlace : ∃ (s : RecreatedStack) (entries : List (Option SourceConnectionGroup × ExecuteData)),
    recreateNodeExecutionStack (· ≤ ·) (leadsToInput 0) [plainNode 1 "d"] gaveItem .empty = .ok s ∧
      s.nodeExecutionStack = entries.map Prod.snd ∧
      ∀ group entry, (some group, entry) ∈ entries → ∀ c ∈ group.connections, c.type = .main →
        OnItsInput gaveItem .empty entry c := by
  obtain ⟨s, recreated⟩ : ∃ s,
      recreateNodeExecutionStack (· ≤ ·) (leadsToInput 0) [plainNode 1 "d"] gaveItem .empty = .ok s := ⟨_, rfl⟩
  obtain ⟨entries, _, stack, exactly⟩ := recreateNodeExecutionStack_inPlace_iff recreated
  refine ⟨s, entries, recreated, stack, exactly.mpr ?_⟩
  intro startNode isStart group isGroup _
  obtain rfl := mem_singleton.mp isStart
  have groups : getSourceDataGroups (· ≤ ·) (leadsToInput 0) (plainNode 1 "d") gaveItem .empty =
      [⟨true, [⟨"a", "d", .main, 0, 0⟩]⟩] := by decide
  rw [groups] at isGroup
  obtain rfl := mem_singleton.mp isGroup
  exact .inl ⟨by simp, pairwise_singleton _ _⟩

/-- What belongs at input 1 is at input 0. -/
theorem inputOne_misplaced : ∃ s entry,
    recreateNodeExecutionStack (· ≤ ·) (leadsToInput 1) [plainNode 1 "d"] gaveItem .empty = .ok s ∧
      entriesOf (· ≤ ·) (leadsToInput 1) gaveItem .empty [plainNode 1 "d"] =
        .ok [(some ⟨true, [⟨"a", "d", .main, 0, 1⟩]⟩, entry)] ∧ s.nodeExecutionStack = [entry] ∧
      entry.data = [[⟨"1"⟩]] ∧ ¬OnItsInput gaveItem .empty entry ⟨"a", "d", .main, 0, 1⟩ := by
  refine ⟨_, ⟨plainNode 1 "d", [[⟨"1"⟩]], some [⟨"a", 0, 0⟩]⟩, rfl, rfl, rfl, rfl, ?_⟩
  rintro ⟨_, _, _, _, sources, isSource, here⟩
  obtain rfl := some.inj isSource
  cases here

end N8n.PartialExecution
