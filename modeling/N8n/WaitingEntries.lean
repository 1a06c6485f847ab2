import N8n.StackEntryInputs

/-! What a partial execution holds back for the incomplete groups of its start nodes. The
waiting entries and their sources are written in step, and every entry is written once: a group
writes to a run index of its own, the number of those that its start node has by then. -/

namespace N8n.PartialExecution

open PartialExecution.DirectedGraph WorkflowExecute List Option OrderedMap

/-! ## Reading and writing -/

structure Slot where
  nodeName : String
  runIndex : ℕ
  inputType : NodeConnectionType
  inputIndex : ℕ
  deriving DecidableEq

namespace Waiting

variable {α : Type*} (waiting : Waiting α)

def runs (nodeName : String) : OrderedMap ℕ (OrderedMap NodeConnectionType (List (Option α))) :=
  (waiting.get nodeName).getD .empty

def entry (slot : Slot) : Option α :=
  ((((waiting.runs slot.nodeName).get slot.runIndex).getD .empty).get slot.inputType).getD [] |>.getD
    slot.inputIndex none

/-- The run indexes of a node are the first `count` numbers. -/
def Rows (nodeName : String) (count : ℕ) : Prop :=
  (waiting.runs nodeName).size = count ∧ ∀ k, (waiting.runs nodeName).has k = true ↔ k < count

def add (slot : Slot) (executionData : α) : Waiting α :=
  addWaitingExecution waiting slot.nodeName slot.runIndex slot.inputType slot.inputIndex executionData

theorem runs_add (slot : Slot) (x : α) (nodeName : String) :
    (waiting.add slot x).runs nodeName = if nodeName = slot.nodeName then
      (waiting.runs nodeName).set slot.runIndex ((((waiting.runs nodeName).get slot.runIndex).getD .empty).set
        slot.inputType (assignAt none (((((waiting.runs nodeName).get slot.runIndex).getD .empty).get
          slot.inputType).getD []) slot.inputIndex (some x)))
      else waiting.runs nodeName := by
  rw [runs, add, addWaitingExecution, get_set]
  split
  · next same =>
    rw [same]
    rfl
  · rfl

theorem entry_add (slot other : Slot) (x : α) :
    (waiting.add slot x).entry other = if other = slot then some x else waiting.entry other := by
  rw [entry, runs_add]
  by_cases sameName : other.nodeName = slot.nodeName
  swap
  · rw [if_neg sameName, if_neg fun same => sameName (congrArg Slot.nodeName same), entry]
  by_cases sameRun : other.runIndex = slot.runIndex
  swap
  · rw [if_pos sameName, get_set_ne _ _ sameRun, if_neg fun same => sameRun (congrArg Slot.runIndex same),
      entry]
  by_cases sameType : other.inputType = slot.inputType
  swap
  · rw [if_pos sameName, sameRun, get_set_self, getD_some, get_set_ne _ _ sameType,
      if_neg fun same => sameType (congrArg Slot.inputType same), entry, sameRun]
  rw [if_pos sameName, sameRun, get_set_self, getD_some, sameType, get_set_self,
    getD_some]
  by_cases sameIndex : other.inputIndex = slot.inputIndex
  · have same : other = slot := by
      cases other
      cases slot
      simp_all
    rw [sameIndex, getD_assignAt_self, if_pos same]
  · rw [getD_assignAt_ne _ _ _ sameIndex, if_neg fun same => sameIndex (congrArg Slot.inputIndex same), entry, sameRun,
      sameType]

variable {waiting} {nodeName : String} {count : ℕ} {slot : Slot}

theorem Rows.of_entry {x : α} (rows : waiting.Rows slot.nodeName count) (here : waiting.entry slot = some x) :
    slot.runIndex < count := by
  refine (rows.2 _).mp ?_
  rw [OrderedMap.has]
  cases found : (waiting.runs slot.nodeName).get slot.runIndex with
  | none => simp [entry, found, get_empty] at here
  | some _ => rfl

theorem Rows.other (rows : waiting.Rows nodeName count) (other : nodeName ≠ slot.nodeName) (x : α) :
    (waiting.add slot x).Rows nodeName count := by
  rw [Rows, runs_add, if_neg other]
  exact rows

theorem Rows.new (rows : waiting.Rows slot.nodeName slot.runIndex) (x : α) :
    (waiting.add slot x).Rows slot.nodeName (slot.runIndex + 1) := by
  have absent : (waiting.runs slot.nodeName).get slot.runIndex = none := by
    have none := (rows.2 slot.runIndex).not.mpr (lt_irrefl _)
    rwa [OrderedMap.has, Bool.not_eq_true, isSome_eq_false_iff, isNone_iff_eq_none] at none
  rw [Rows, runs_add, if_pos rfl]
  refine ⟨?_, fun k => ?_⟩
  · rw [OrderedMap.size, entries_set_new _ _ absent, length_append, ← OrderedMap.size, rows.1]
    rfl
  · have before := rows.2 k
    rw [OrderedMap.has, get_set]
    split
    · next same => simp [same]
    · next other =>
      rw [OrderedMap.has] at before
      rw [before]
      omega

theorem Rows.again (rows : waiting.Rows slot.nodeName (slot.runIndex + 1)) (x : α) :
    (waiting.add slot x).Rows slot.nodeName (slot.runIndex + 1) := by
  obtain ⟨old, found⟩ : ∃ old, (waiting.runs slot.nodeName).get slot.runIndex = some old := by
    have known := (rows.2 slot.runIndex).mpr (Nat.lt_succ_self _)
    rwa [OrderedMap.has, isSome_iff_exists] at known
  rw [Rows, runs_add, if_pos rfl]
  refine ⟨(size_set_known _ _ found).trans rows.1, fun k => ?_⟩
  have before := rows.2 k
  rw [OrderedMap.has, get_set]
  split
  · next same => simp [same]
  · exact before

def Shown {β : Type*} (waiting : Waiting α) (part : β → α) (writes : List (Slot × β)) : Prop :=
  ∀ slot x, waiting.entry slot = some x ↔ ∃ data, (slot, data) ∈ writes ∧ part data = x

theorem Shown.add {β : Type*} {part : β → α} {writes : List (Slot × β)} (shown : Shown waiting part writes)
    (write : Slot × β) (fresh : ∀ old ∈ writes, old.1 ≠ write.1) :
    Shown (waiting.add write.1 (part write.2)) part (writes ++ [write]) := by
  intro slot x
  rw [entry_add]
  split
  · next same =>
    subst same
    constructor
    · intro found
      exact ⟨write.2, mem_append_right _ (mem_singleton_self _), some.inj found⟩
    · rintro ⟨data, member, rfl⟩
      rcases mem_append.mp member with old | new
      · exact absurd rfl (fresh (write.1, data) old)
      · rw [← mem_singleton.mp new]
  · next different =>
    rw [shown slot x]
    refine exists_congr fun data => and_congr_left fun _ => ?_
    have other : (slot, data) ≠ write := fun same => different (congrArg Prod.fst same)
    rw [mem_append, mem_singleton, or_iff_left other]

end Waiting

/-! ## What is written -/

section Writes

variable (runData : RunData)

/-- What the waiting branch reads for a connection, and from which run. -/
def stored (c : N8n.GraphConnection) : Option (Items × ℕ) :=
  (getIncomingDataFromAnyRun runData c.fromNode c.type c.outputIndex).toOption.join

def writeOf (nodeName : String) (row : ℕ) (c : N8n.GraphConnection) : Option (Slot × Items × SourceData) :=
  (stored runData c).map fun data =>
    (⟨nodeName, row, c.type, c.inputIndex⟩, data.1, ⟨c.fromNode, c.outputIndex, row⟩)

def waits (group : SourceConnectionGroup) : Bool :=
  !group.complete && group.connections.any fun c => (stored runData c).isSome

def writesOfGroup (nodeName : String) (row : ℕ) (group : SourceConnectionGroup) : List (Slot × Items × SourceData) :=
  if group.complete then [] else group.connections.filterMap (writeOf runData nodeName row)

/-- A group writes to the run index that counts the groups before it that have something to write. -/
def writesOfGroups (nodeName : String) : ℕ → List SourceConnectionGroup → List (Slot × Items × SourceData)
  | _, [] => []
  | row, group :: groups => writesOfGroup runData nodeName row group ++
      writesOfGroups nodeName (row + (waits runData group).toNat) groups

def writesOfStartNode (localeLE : String → String → Bool) (graph : DirectedGraph) (pinData : PinData)
    (startNode : GraphNode) : List (Slot × Items × SourceData) :=
  writesOfGroups runData startNode.name 0 (getSourceDataGroups localeLE graph startNode runData pinData)

structure Shows (s : RecreatedStack) (writes : List (Slot × Items × SourceData)) : Prop where
  entries : s.waitingExecution.Shown Prod.fst writes
  sources : s.waitingExecutionSource.Shown Prod.snd writes

end Writes

variable {runData : RunData} {pinData : PinData} {c : N8n.GraphConnection} {connections : List N8n.GraphConnection}
  {localeLE : String → String → Bool} {graph : DirectedGraph} {startNode : GraphNode} {startNodes : List GraphNode}
  {group : SourceConnectionGroup} {groups : List SourceConnectionGroup} {s next : RecreatedStack}
  {writes : List (Slot × Items × SourceData)} {row : ℕ} {nodeName : String} {new : List (Slot × Items × SourceData)}
  {items : Items} {run : ℕ}

def RecreatedStack.write (s : RecreatedStack) (write : Slot × Items × SourceData) : RecreatedStack :=
  { s with
    waitingExecution := s.waitingExecution.add write.1 write.2.1
    waitingExecutionSource := s.waitingExecutionSource.add write.1 write.2.2 }

theorem Shows.write (shown : Shows s writes) (write : Slot × Items × SourceData)
    (fresh : ∀ old ∈ writes, old.1 ≠ write.1) : Shows (s.write write) (writes ++ [write]) :=
  ⟨shown.entries.add write fresh, shown.sources.add write fresh⟩

theorem addWaitingConnection_eq (added : addWaitingConnection runData startNode row s c = .ok next) :
    next = (writeOf runData startNode.name row c).elim s s.write := by
  rw [addWaitingConnection, bind_eq_ok] at added
  obtain ⟨first, read, added⟩ := added
  have reads : stored runData c = first := by
    rw [stored, read]
    rfl
  rw [writeOf, reads]
  cases first with
  | none => exact (Except.ok.inj added).symm
  | some first => exact (Except.ok.inj added).symm

theorem foldlM_addWaitingConnection
    (added : connections.foldlM (addWaitingConnection runData startNode row) s = .ok next) :
    next = (connections.filterMap (writeOf runData startNode.name row)).foldl RecreatedStack.write s := by
  induction connections generalizing s with
  | nil => exact (Except.ok.inj added).symm
  | cons c connections ih =>
    obtain ⟨mid, first, rest⟩ := foldlM_cons_eq_ok.mp added
    have one := addWaitingConnection_eq first
    rw [ih rest, filterMap_cons, one]
    cases writeOf runData startNode.name row c <;> rfl

theorem Shows.foldl (shown : Shows s writes)
    (distinct : (new.map Prod.fst).Nodup) (fresh : ∀ old ∈ writes, ∀ write ∈ new, old.1 ≠ write.1) :
    Shows (new.foldl RecreatedStack.write s) (writes ++ new) := by
  induction new generalizing s writes with
  | nil => exact (append_nil writes).symm ▸ shown
  | cons write new ih =>
    obtain ⟨apart, distinct⟩ := nodup_cons.mp distinct
    rw [foldl_cons, append_cons]
    refine ih (shown.write write fun old member => fresh old member write mem_cons_self) distinct ?_
    intro old member later inNew
    rcases mem_append.mp member with before | here
    · exact fresh old before later (mem_cons_of_mem _ inNew)
    · obtain rfl := mem_singleton.mp here
      exact fun same => apart (List.mem_map.mpr ⟨later, inNew, same.symm⟩)

theorem rows_foldl_other {count : ℕ}
    (other : ∀ write ∈ new, nodeName ≠ write.1.nodeName) (rows : s.waitingExecution.Rows nodeName count) :
    (new.foldl RecreatedStack.write s).waitingExecution.Rows nodeName count := by
  induction new generalizing s with
  | nil => exact rows
  | cons write new ih =>
    obtain ⟨here, later⟩ := forall_mem_cons.mp other
    exact ih later (rows.other here write.2.1)

theorem rows_foldl (here : ∀ write ∈ new, write.1.nodeName = nodeName ∧ write.1.runIndex = row)
    (rows : s.waitingExecution.Rows nodeName row) :
    (new.foldl RecreatedStack.write s).waitingExecution.Rows nodeName (row + (!new.isEmpty).toNat) := by
  cases new with
  | nil => exact rows
  | cons write new =>
    obtain ⟨⟨rfl, rfl⟩, later⟩ := forall_mem_cons.mp here
    rw [foldl_cons]
    have started := rows.new write.2.1
    change (s.write write).waitingExecution.Rows write.1.nodeName (write.1.runIndex + 1) at started
    generalize s.write write = mid at started
    clear rows here
    induction new generalizing mid with
    | nil => exact started
    | cons next new ih =>
      obtain ⟨⟨sameName, sameRun⟩, rest⟩ := forall_mem_cons.mp later
      refine ih rest (mid.write next) ?_
      have here : mid.waitingExecution.Rows next.1.nodeName (next.1.runIndex + 1) := by
        rw [sameName, sameRun]
        exact started
      have again := here.again next.2.1
      rw [sameName, sameRun] at again
      exact again

theorem mem_writesOfGroup {write : Slot × Items × SourceData} :
    write ∈ writesOfGroup runData nodeName row group ↔ group.complete = false ∧
      ∃ c ∈ group.connections, ∃ items run, stored runData c = some (items, run) ∧
        write = (⟨nodeName, row, c.type, c.inputIndex⟩, items, ⟨c.fromNode, c.outputIndex, row⟩) := by
  rw [writesOfGroup]
  cases group.complete with
  | true => simp
  | false => simp [writeOf, eq_comm]

theorem writesOfGroup_isEmpty (nodeName : String) (row : ℕ) :
    (!(writesOfGroup runData nodeName row group).isEmpty) = waits runData group := by
  rw [writesOfGroup, waits]
  cases group.complete with
  | true => rfl
  | false =>
    induction group.connections with
    | nil => rfl
    | cons c connections ih =>
      rw [filterMap_cons, any_cons]
      cases reads : stored runData c with
      | none => simpa [writeOf, reads] using ih
      | some data => simp [writeOf, reads]

theorem writesOfGroup_distinct (distinct : (group.connections.map (·.inputIndex)).Nodup) :
    ((writesOfGroup runData nodeName row group).map Prod.fst).Nodup := by
  rw [writesOfGroup]
  split
  · exact nodup_nil
  refine Nodup.of_map Slot.inputIndex (distinct.sublist ?_)
  induction group.connections with
  | nil => exact Sublist.refl _
  | cons c connections ih =>
    rw [filterMap_cons]
    cases reads : stored runData c with
    | none =>
      simp only [writeOf, reads, map_none]
      exact ih.cons _
    | some data =>
      simp only [writeOf, reads, map_some, map_cons]
      exact ih.cons_cons _

theorem addGroup_shows (added : addGroup runData pinData startNode s group = .ok next) (shown : Shows s writes)
    (rows : s.waitingExecution.Rows startNode.name row) (distinct : (group.connections.map (·.inputIndex)).Nodup) :
    Shows next (writes ++ writesOfGroup runData startNode.name row group) ∧
      next.waitingExecution.Rows startNode.name (row + (waits runData group).toNat) ∧
      ∀ other ≠ startNode.name, ∀ count, s.waitingExecution.Rows other count →
        next.waitingExecution.Rows other count := by
  have here : ∀ write ∈ writesOfGroup runData startNode.name row group,
      write.1.nodeName = startNode.name ∧ write.1.runIndex = row := by
    intro write member
    obtain ⟨_, c, _, items, run, _, rfl⟩ := mem_writesOfGroup.mp member
    exact ⟨rfl, rfl⟩
  obtain ⟨stack, same⟩ : ∃ stack, next =
      { (writesOfGroup runData startNode.name row group).foldl RecreatedStack.write s with
        nodeExecutionStack := stack } := by
    rw [addGroup] at added
    split at added
    · next complete =>
      obtain ⟨executeData, _, same⟩ := bind_eq_ok.mp added
      rw [writesOfGroup, if_pos complete]
      exact ⟨_, (Except.ok.inj same).symm⟩
    · next incomplete =>
      have nextRow : (s.waitingExecution.get startNode.name).elim 0 (·.entries.length) = row := by
        rw [← rows.1, Waiting.runs]
        cases s.waitingExecution.get startNode.name <;> rfl
      rw [nextRow] at added
      rw [writesOfGroup, if_neg incomplete]
      exact ⟨next.nodeExecutionStack, by rw [← foldlM_addWaitingConnection added]⟩
  have fresh : ∀ old ∈ writes, ∀ write ∈ writesOfGroup runData startNode.name row group, old.1 ≠ write.1 := by
    intro old member write new sameSlot
    obtain ⟨name, run⟩ := here write new
    have stored := (shown.entries old.1 old.2.1).mpr ⟨old.2, member, rfl⟩
    have before := Waiting.Rows.of_entry (by rw [sameSlot, name]; exact rows) stored
    rw [sameSlot, run] at before
    exact lt_irrefl _ before
  subst same
  refine ⟨⟨?_, ?_⟩, ?_, fun other different count othersRows => ?_⟩
  · exact (shown.foldl (writesOfGroup_distinct distinct) fresh).entries
  · exact (shown.foldl (writesOfGroup_distinct distinct) fresh).sources
  · rw [← writesOfGroup_isEmpty startNode.name row]
    exact rows_foldl here rows
  · exact rows_foldl_other (fun write member => (here write member).1 ▸ different) othersRows

theorem addGroups_shows (added : groups.foldlM (addGroup runData pinData startNode) s = .ok next)
    (shown : Shows s writes) (rows : s.waitingExecution.Rows startNode.name row)
    (distinct : ∀ group ∈ groups, (group.connections.map (·.inputIndex)).Nodup) :
    Shows next (writes ++ writesOfGroups runData startNode.name row groups) ∧
      ∀ other ≠ startNode.name, ∀ count, s.waitingExecution.Rows other count →
        next.waitingExecution.Rows other count := by
  induction groups generalizing s writes row with
  | nil =>
    obtain rfl := Except.ok.inj added
    rw [writesOfGroups, append_nil]
    exact ⟨shown, fun _ _ _ => id⟩
  | cons group groups ih =>
    obtain ⟨mid, first, rest⟩ := foldlM_cons_eq_ok.mp added
    obtain ⟨here, later⟩ := forall_mem_cons.mp distinct
    obtain ⟨shownMid, rowsMid, othersMid⟩ := addGroup_shows first shown rows here
    obtain ⟨shownNext, othersNext⟩ := ih rest shownMid rowsMid later
    rw [writesOfGroups, ← append_assoc]
    exact ⟨shownNext, fun other different count before => othersNext other different count
      (othersMid other different count before)⟩

theorem mem_writesOfGroups {write : Slot × Items × SourceData} :
    write ∈ writesOfGroups runData nodeName row groups ↔ ∃ before group after, groups = before ++ group :: after ∧
      write ∈ writesOfGroup runData nodeName (row + before.countP (waits runData)) group := by
  induction groups generalizing row with
  | nil => simp [writesOfGroups]
  | cons first groups ih =>
    rw [writesOfGroups, mem_append, ih]
    constructor
    · rintro (here | ⟨before, group, after, rfl, later⟩)
      · exact ⟨[], first, groups, rfl, by simpa using here⟩
      · refine ⟨first :: before, group, after, rfl, ?_⟩
        rw [countP_cons, Nat.add_comm (before.countP _), ← Nat.add_assoc]
        cases gives : waits runData first <;> simpa [gives] using later
    · rintro ⟨before, group, after, split, member⟩
      cases before with
      | nil =>
        obtain ⟨rfl, rfl⟩ := List.cons.inj split
        exact .inl (by simpa using member)
      | cons _ before =>
        obtain ⟨rfl, rfl⟩ := List.cons.inj split
        refine .inr ⟨before, group, after, rfl, ?_⟩
        rw [countP_cons, Nat.add_comm (before.countP _), ← Nat.add_assoc] at member
        cases gives : waits runData first <;> simpa [gives] using member

theorem getSourceDataGroups_inputs (isGroup : group ∈ getSourceDataGroups localeLE graph startNode runData pinData) :
    (group.connections.map (·.inputIndex)).Nodup := by
  obtain ⟨low, n, _, indexes⟩ := getSourceDataGroups_consecutive localeLE graph startNode runData pinData isGroup
  rw [indexes]
  exact nodup_range'

theorem mainParents_of_incomplete {parentConnections : List GraphConnection}
    (isGroup : group ∈ getSourceDataGroups localeLE graph startNode runData pinData)
    (incomplete : group.complete = false)
    (parents : asserted (graph.getDirectParentConnections startNode) = .ok parentConnections) :
    (parentConnections.filter (·.type = .main)).length ≠ 0 := by
  obtain ⟨_, perm, _, each⟩ := getSourceDataGroups_partitions localeLE graph startNode runData pinData
  have without : ¬ ∀ c ∈ group.connections, hasData runData pinData c = true := fun all =>
    Bool.false_ne_true (incomplete.symm.trans ((each group isGroup).2.mpr all))
  push Not at without
  obtain ⟨c, inside, noData⟩ := without
  have counts := perm.mem_iff.mp (mem_flatMap.mpr ⟨group, isGroup, inside⟩)
  obtain ⟨incoming, kept⟩ := mem_filter.mp counts
  have main : c.type = .main := by simpa [noData] using kept
  obtain ⟨d, isIncoming, rfl⟩ := List.mem_map.mp incoming
  have isParent : d ∈ parentConnections := by
    rw [getDirectParentConnections] at parents
    split at parents
    · exact Except.ok.inj parents ▸ isIncoming
    · cases parents
  intro none
  have empty := eq_nil_of_length_eq_zero none
  exact absurd (mem_filter.mpr ⟨isParent, decide_eq_true main⟩) (empty ▸ not_mem_nil)

theorem addStartNode_shows (added : addStartNode localeLE graph runData pinData s startNode = .ok next)
    (shown : Shows s writes) (rows : s.waitingExecution.Rows startNode.name 0) :
    Shows next (writes ++ writesOfStartNode runData localeLE graph pinData startNode) ∧
      ∀ other ≠ startNode.name, ∀ count, s.waitingExecution.Rows other count →
        next.waitingExecution.Rows other count := by
  obtain ⟨parentConnections, parents, added⟩ := bind_eq_ok.mp added
  dsimp only at added
  split at added
  · next none =>
    obtain rfl := Except.ok.inj added
    have nothing : writesOfStartNode runData localeLE graph pinData startNode = [] := by
      refine eq_nil_iff_forall_not_mem.mpr fun write member => ?_
      obtain ⟨before, group, after, split, written⟩ := mem_writesOfGroups.mp member
      have isGroup : group ∈ getSourceDataGroups localeLE graph startNode runData pinData := by simp [split]
      exact absurd none (mainParents_of_incomplete isGroup (mem_writesOfGroup.mp written).1 parents)
    rw [nothing, append_nil]
    exact ⟨⟨shown.entries, shown.sources⟩, fun _ _ _ => id⟩
  · exact addGroups_shows added shown rows fun group isGroup =>
      getSourceDataGroups_inputs isGroup

theorem addStartNodes_shows (added : startNodes.foldlM (addStartNode localeLE graph runData pinData) s = .ok next)
    (shown : Shows s writes) (rows : ∀ n ∈ startNodes, s.waitingExecution.Rows n.name 0)
    (distinct : (startNodes.map GraphNode.name).Nodup) :
    Shows next (writes ++ startNodes.flatMap (writesOfStartNode runData localeLE graph pinData)) := by
  induction startNodes generalizing s writes with
  | nil =>
    obtain rfl := Except.ok.inj added
    rwa [flatMap_nil, append_nil]
  | cons startNode startNodes ih =>
    obtain ⟨mid, first, rest⟩ := foldlM_cons_eq_ok.mp added
    obtain ⟨here, later⟩ := forall_mem_cons.mp rows
    obtain ⟨apart, distinct⟩ := nodup_cons.mp distinct
    obtain ⟨shownMid, othersMid⟩ := addStartNode_shows first shown here
    rw [flatMap_cons, ← append_assoc]
    refine ih rest shownMid (fun n member => othersMid n.name (fun same => ?_) 0 (later n member)) distinct
    exact apart (same ▸ List.mem_map_of_mem member)

theorem stores_of_recreated (recreated : recreateNodeExecutionStack localeLE graph startNodes runData pinData = .ok s) :
    ∀ n ∈ startNodes, graph.Stores n := by
  rw [recreateNodeExecutionStack] at recreated
  split at recreated
  · cases recreated
  intro n member
  obtain ⟨here, after, taken⟩ := foldlM_ok_taken member recreated
  obtain ⟨parentConnections, parents, _⟩ := bind_eq_ok.mp taken
  rw [getDirectParentConnections] at parents
  split at parents
  · next stored => exact stored
  · cases parents

theorem recreateNodeExecutionStack_shows (distinct : startNodes.Nodup)
    (recreated : recreateNodeExecutionStack localeLE graph startNodes runData pinData = .ok s) :
    Shows s (startNodes.flatMap (writesOfStartNode runData localeLE graph pinData)) := by
  have stored := stores_of_recreated recreated
  have names : (startNodes.map GraphNode.name).Nodup :=
    distinct.map_on fun one inOne two inTwo same => (stored one inOne).eq_of_name (stored two inTwo) same
  rw [recreateNodeExecutionStack] at recreated
  split at recreated
  · cases recreated
  have empty : Shows ⟨[], .empty, .empty⟩ [] := ⟨fun slot items => by simp [Waiting.entry, Waiting.runs],
    fun slot source => by simp [Waiting.entry, Waiting.runs]⟩
  exact addStartNodes_shows recreated empty (fun n _ => ⟨rfl, fun k => by simp [Waiting.runs, OrderedMap.has]⟩) names

/-! ## Which connections are recorded -/

def Recorded (s : RecreatedStack) (startNode : GraphNode) (c : N8n.GraphConnection) (items : Items) (run : ℕ) : Prop :=
  ∃ k, s.waitingExecution.entry ⟨startNode.name, k, .main, c.inputIndex⟩ = some items ∧
    s.waitingExecutionSource.entry ⟨startNode.name, k, .main, c.inputIndex⟩ = some ⟨c.fromNode, c.outputIndex, run⟩

/-- A list whose elements share nothing has an element with a given part at one place only. -/
theorem split_unique {α β : Type*} {parts : α → List β} {before after befores afters : List α} {a b : α} {x : β}
    (same : before ++ a :: after = befores ++ b :: afters)
    (distinct : ((before ++ a :: after).flatMap parts).Nodup) (inA : x ∈ parts a) (inB : x ∈ parts b) :
    before = befores ∧ a = b := by
  rcases append_eq_append_iff.mp same with ⟨between, rfl, right⟩ | ⟨between, rfl, right⟩
  · cases between with
    | nil =>
      obtain ⟨rfl, rfl⟩ := List.cons.inj right
      exact ⟨(append_nil _).symm, rfl⟩
    | cons _ between =>
      obtain ⟨rfl, rfl⟩ := List.cons.inj right
      simp only [flatMap_append, flatMap_cons] at distinct
      have tail := (nodup_append'.mp distinct).2.1
      have apart := (nodup_append'.mp tail).2.2
      exact absurd (mem_flatMap.mpr ⟨b, mem_append_right _ mem_cons_self, inB⟩) (apart inA)
  · cases between with
    | nil =>
      obtain ⟨rfl, rfl⟩ := List.cons.inj right
      exact ⟨append_nil _, rfl⟩
    | cons _ between =>
      obtain ⟨rfl, rfl⟩ := List.cons.inj right
      simp only [flatMap_append, flatMap_cons, append_assoc] at distinct
      have tail := (nodup_append'.mp distinct).2.1
      have apart := (nodup_append'.mp tail).2.2
      exact absurd (mem_append_right _ (mem_append_left _ inA)) (apart inB)

theorem toNode_of_group (isGroup : group ∈ getSourceDataGroups localeLE graph startNode runData pinData)
    (inside : c ∈ group.connections) : c.toNode = startNode.name := by
  have counts := (getSourceDataGroups_perm localeLE graph startNode runData pinData).mem_iff.mp
    (mem_flatMap.mpr ⟨group, isGroup, inside⟩)
  obtain ⟨d, incoming, rfl⟩ := List.mem_map.mp (mem_of_mem_filter counts)
  exact congrArg GraphNode.name (of_decide_eq_true (mem_filter.mp incoming).2)

theorem read_of_recreated (recreated : recreateNodeExecutionStack localeLE graph startNodes runData pinData = .ok s)
    (isStart : startNode ∈ startNodes) (isGroup : group ∈ getSourceDataGroups localeLE graph startNode runData pinData)
    (incomplete : group.complete = false) (inside : c ∈ group.connections) :
    getIncomingDataFromAnyRun runData c.fromNode c.type c.outputIndex = .ok (stored runData c) := by
  rw [recreateNodeExecutionStack] at recreated
  split at recreated
  · cases recreated
  obtain ⟨_, _, ofNode⟩ := foldlM_ok_taken isStart recreated
  obtain ⟨parentConnections, parents, ofNode⟩ := bind_eq_ok.mp ofNode
  dsimp only at ofNode
  split at ofNode
  · next none =>
    exact absurd none (mainParents_of_incomplete isGroup incomplete parents)
  obtain ⟨_, _, ofGroup⟩ := foldlM_ok_taken isGroup ofNode
  rw [addGroup, if_neg (by simp [incomplete])] at ofGroup
  obtain ⟨_, _, ofConnection⟩ := foldlM_ok_taken inside ofGroup
  obtain ⟨first, read, _⟩ := bind_eq_ok.mp ofConnection
  rw [stored, read]
  rfl

/-- Without pinned data the waiting branch reads what the stack branch would. -/
theorem stored_of_unpinned
    (read : getIncomingDataFromAnyRun runData c.fromNode c.type c.outputIndex = .ok (stored runData c))
    (notPinned : pinData.get c.fromNode = none) (comesFrom : ComesFrom runData pinData c (some items) run) :
    stored runData c = some (items, run) := by
  have ran : runData.has c.fromNode = true := by
    cases comesFrom with
    | pinned pinned => cases notPinned.symm.trans pinned
    | firstRun _ ran => rw [OrderedMap.has, ran]; rfl
  have incoming : incomingDataOf runData pinData c =
      .ok ((stored runData c).map Prod.fst, (stored runData c).elim 0 Prod.snd) := by
    rw [incomingDataOf, notPinned]
    simp only [ran, if_true, read, ok_bind]
    rfl
  obtain ⟨sameItems, sameRun⟩ := comesFrom.unique (incomingDataOf_comesFrom incoming)
  cases found : stored runData c with
  | none => simp [found] at sameItems
  | some data =>
    simp only [found, map_some, some.injEq, elim_some] at sameItems sameRun
    rw [sameItems, sameRun]

theorem recorded_iff (distinct : startNodes.Nodup)
    (recreated : recreateNodeExecutionStack localeLE graph startNodes runData pinData = .ok s)
    (isStart : startNode ∈ startNodes) {before after : List SourceConnectionGroup}
    (split : getSourceDataGroups localeLE graph startNode runData pinData = before ++ group :: after)
    (incomplete : group.complete = false) (inside : c ∈ group.connections) (main : c.type = .main) :
    Recorded s startNode c items run ↔
      (∃ read, stored runData c = some (items, read)) ∧ run = before.countP (waits runData) := by
  have shown := recreateNodeExecutionStack_shows distinct recreated
  have names := stores_of_recreated recreated
  have isGroup : group ∈ getSourceDataGroups localeLE graph startNode runData pinData := by simp [split]
  constructor
  · rintro ⟨k, waiting, source⟩
    -- the entry and its source were written together
    obtain ⟨data, written, rfl⟩ := (shown.entries _ _).mp waiting
    have sameSource := ((shown.sources _ _).mpr ⟨data, written, rfl⟩).symm.trans source
    obtain ⟨other, isOther, written⟩ := mem_flatMap.mp written
    obtain ⟨befores, groupToo, afters, splitToo, written⟩ := mem_writesOfGroups.mp written
    obtain ⟨_, d, insideToo, items, read, reads, same⟩ := mem_writesOfGroup.mp written
    rw [Nat.zero_add] at same
    obtain ⟨sameSlot, rfl⟩ := Prod.mk.inj same
    obtain ⟨sameName, sameRow, sameType, sameInput⟩ := Slot.mk.inj sameSlot
    obtain ⟨sameFrom, sameOutput, sameRun⟩ := SourceData.mk.inj (some.inj sameSource)
    obtain rfl := (names startNode isStart).eq_of_name (names other isOther) sameName
    have isGroupToo : groupToo ∈ getSourceDataGroups localeLE graph startNode runData pinData := by simp [splitToo]
    obtain rfl : c = d := by
      have toC := toNode_of_group isGroup inside
      have toD := toNode_of_group isGroupToo insideToo
      cases c
      cases d
      simp_all
    have apart := (getSourceDataGroups_partitions localeLE graph startNode runData pinData).2.2.1
    rw [split] at apart
    obtain ⟨rfl, rfl⟩ := split_unique (split.symm.trans splitToo) apart inside insideToo
    exact ⟨⟨read, reads⟩, sameRun.symm⟩
  · rintro ⟨⟨read, reads⟩, rfl⟩
    have written : (⟨startNode.name, before.countP (waits runData), .main, c.inputIndex⟩, items,
        ⟨c.fromNode, c.outputIndex, before.countP (waits runData)⟩) ∈
        startNodes.flatMap (writesOfStartNode runData localeLE graph pinData) := by
      refine mem_flatMap.mpr ⟨startNode, isStart, mem_writesOfGroups.mpr ⟨before, group, after, split, ?_⟩⟩
      rw [Nat.zero_add]
      exact mem_writesOfGroup.mpr ⟨incomplete, c, inside, items, read, reads, by rw [main]⟩
    exact ⟨_, (shown.entries _ _).mpr ⟨_, written, rfl⟩, (shown.sources _ _).mpr ⟨_, written, rfl⟩⟩

/-- A main connection of an incomplete group is recorded exactly when its source is not pinned, or pinned to what
its first run with items gave, and the run that its data are from is numbered like the group: by how many groups of
the start node have had something to write before. -/
theorem recreateNodeExecutionStack_recorded_iff (distinct : startNodes.Nodup)
    (recreated : recreateNodeExecutionStack localeLE graph startNodes runData pinData = .ok s) :
    ∀ startNode ∈ startNodes, ∀ before group after,
      getSourceDataGroups localeLE graph startNode runData pinData = before ++ group :: after →
      group.complete = false → ∀ c ∈ group.connections, c.type = .main →
      ∀ items run, ComesFrom runData pinData c (some items) run → (Recorded s startNode c items run ↔
          (pinData.get c.fromNode = none ∨ ∃ read, stored runData c = some (items, read)) ∧
            run = before.countP (waits runData)) := by
  intro startNode isStart before group after split incomplete c inside main items run comesFrom
  rw [recorded_iff distinct recreated isStart split incomplete inside main]
  refine and_congr_left fun _ => ⟨.inr, fun either => ?_⟩
  rcases either with notPinned | reads
  · have isGroup : group ∈ getSourceDataGroups localeLE graph startNode runData pinData := by simp [split]
    have read := read_of_recreated recreated isStart isGroup incomplete inside
    exact ⟨run, stored_of_unpinned read notPinned comesFrom⟩
  · exact reads

/-- `a` and `b` lead to the two inputs of `d`. -/
def twoInputs : DirectedGraph :=
  let a := plainNode 0 "a"
  let b := plainNode 1 "b"
  let d := plainNode 2 "d"
  [⟨a, d, .main, 0, 0⟩, ⟨b, d, .main, 0, 1⟩].foldl setConnection (empty.addNodes [a, b, d])

def twoInputsGroup : SourceConnectionGroup := ⟨false, [⟨"a", "d", .main, 0, 0⟩, ⟨"b", "d", .main, 0, 1⟩]⟩

theorem oneInput_recorded : ∃ s,
    recreateNodeExecutionStack (· ≤ ·) twoInputs [plainNode 2 "d"] gaveItem .empty = .ok s ∧
      Recorded s (plainNode 2 "d") ⟨"a", "d", .main, 0, 0⟩ [⟨"1"⟩] 0 := by
  obtain ⟨s, recreated⟩ : ∃ s,
      recreateNodeExecutionStack (· ≤ ·) twoInputs [plainNode 2 "d"] gaveItem .empty = .ok s := ⟨_, rfl⟩
  refine ⟨s, recreated, ?_⟩
  refine (recreateNodeExecutionStack_recorded_iff (by decide) recreated (plainNode 2 "d") (mem_singleton_self _)
    [] twoInputsGroup [] (by decide) rfl ⟨"a", "d", .main, 0, 0⟩ (by decide) rfl [⟨"1"⟩] 0 ?_).mpr ⟨.inl rfl, rfl⟩
  exact .firstRun rfl rfl rfl ⟨_, _, rfl, rfl, rfl⟩ (by decide) (by simp)

/-- The pinned items of `a` are lost while `b` has no data. -/
theorem pinned_unrecorded :
    ¬ ∀ (localeLE : String → String → Bool) (graph : DirectedGraph) (startNodes : List GraphNode) (runData : RunData)
      (pinData : PinData) (s : RecreatedStack), startNodes.Nodup →
      recreateNodeExecutionStack localeLE graph startNodes runData pinData = .ok s →
      ∀ startNode ∈ startNodes, ∀ group ∈ getSourceDataGroups localeLE graph startNode runData pinData,
        group.complete = false → ∀ c ∈ group.connections, c.type = .main →
        ∀ items run, ComesFrom runData pinData c (some items) run → Recorded s startNode c items run := by
  intro records
  obtain ⟨k, waiting, _⟩ := records (· ≤ ·) twoInputs [plainNode 2 "d"] .empty ⟨[("a", [⟨"1"⟩])], by decide⟩
    ⟨[], .empty, .empty⟩ (by decide) rfl (plainNode 2 "d") (mem_singleton_self _) twoInputsGroup (by decide) rfl
    ⟨"a", "d", .main, 0, 0⟩ (by decide) rfl [⟨"1"⟩] 0 (.pinned rfl)
  cases waiting

end N8n.PartialExecution
