import N8n.FindStartNodes
import N8n.SourceConnectionGroup

/-! The stack and the waiting entries from which a partial execution goes on. It is asserted that
no node is disabled, that start nodes are stored and that all sources of a complete group have
data; the last one holds by the way groups are made. -/

namespace N8n.PartialExecution

open PartialExecution.DirectedGraph List

structure SourceData where
  previousNode : String
  previousNodeOutput : ℕ
  previousNodeRun : ℕ
  deriving DecidableEq

structure ExecuteData where
  node : GraphNode
  data : List Items
  source : Option (List SourceData)
  deriving DecidableEq

/-- By node, run index and input type; arrays may have holes. -/
abbrev Waiting (α : Type*) := OrderedMap String (OrderedMap ℕ (OrderedMap NodeConnectionType (List (Option α))))

structure RecreatedStack where
  nodeExecutionStack : List ExecuteData
  waitingExecution : Waiting Items
  waitingExecutionSource : Waiting SourceData

def GraphConnection.byName (c : GraphConnection) : N8n.GraphConnection :=
  ⟨c.fromNode.name, c.toNode.name, c.type, c.outputIndex, c.inputIndex⟩

/-- The connections of a group are only asked for names from then on. `localeLE` is the order of
`localeCompare`. -/
def getSourceDataGroups (localeLE : String → String → Bool) (graph : DirectedGraph) (node : GraphNode)
    (runData : RunData) (pinnedData : PinData) : List WorkflowExecute.SourceConnectionGroup :=
  let connections := (graph.getConnections.filter (·.toNode = node)).map (·.byName)
  let hasData := fun connection : N8n.GraphConnection =>
    runData.has connection.fromNode || pinnedData.has connection.fromNode
  let sorted := fun connections : List N8n.GraphConnection =>
    connections.insertionSort fun a b => WorkflowExecute.sortByInputIndexThenByName localeLE a b = true
  let sortedConnectionsWithData := sorted (connections.filter hasData)
  let sortedConnectionsWithoutData := sorted (connections.filter fun connection =>
    !hasData connection && connection.type = .main)
  if sortedConnectionsWithData.isEmpty ∧ sortedConnectionsWithoutData.isEmpty then []
  else WorkflowExecute.groupConnections
    (2 * (sortedConnectionsWithData.length + sortedConnectionsWithoutData.length) + 1) sortedConnectionsWithData
    sortedConnectionsWithoutData WorkflowExecute.newGroup
    (WorkflowExecute.minInputIndex (sortedConnectionsWithData ++ sortedConnectionsWithoutData))

/-- `addWaitingExecution`, and `addWaitingExecutionSource` with source data. -/
def addWaitingExecution {α : Type*} (waitingExecution : Waiting α) (nodeName : String) (runIndex : ℕ)
    (inputType : NodeConnectionType) (inputIndex : ℕ) (executionData : α) : Waiting α :=
  let waitingExecutionObject := (waitingExecution.get nodeName).getD .empty
  let taskDataConnections := (waitingExecutionObject.get runIndex).getD .empty
  let executionDataList := (taskDataConnections.get inputType).getD []
  waitingExecution.set nodeName (waitingExecutionObject.set runIndex (taskDataConnections.set inputType
    (assignAt none executionDataList inputIndex (some executionData))))

/-- The data for an input of a complete group and the run that they are from. -/
def incomingDataOf (runData : RunData) (pinData : PinData) (incomingConnection : N8n.GraphConnection) :
    Except Failure (Option Items × ℕ) :=
  match pinData.get incomingConnection.fromNode with
  | some data => .ok (some data, 0)
  | none =>
    if runData.has incomingConnection.fromNode then do
      let nodeIncomingData ← getIncomingDataFromAnyRun runData incomingConnection.fromNode incomingConnection.type
        incomingConnection.outputIndex
      return (nodeIncomingData.map Prod.fst, nodeIncomingData.elim 0 Prod.snd)
    else .error .assertion

def completeEntry (runData : RunData) (pinData : PinData) (startNode : GraphNode)
    (connections : List N8n.GraphConnection) : Except Failure ExecuteData := do
  let incoming ← connections.mapM (incomingDataOf runData pinData)
  return {
    node := startNode
    data := incoming.filterMap Prod.fst
    source := some ((connections.zip incoming).map fun (connection, data) =>
      ⟨connection.fromNode, connection.outputIndex, data.2⟩) }

def addWaitingConnection (runData : RunData) (startNode : GraphNode) (nextRunIndex : ℕ) (s : RecreatedStack)
    (incomingConnection : N8n.GraphConnection) : Except Failure RecreatedStack := do
  let maybeNodeIncomingData ← getIncomingDataFromAnyRun runData incomingConnection.fromNode incomingConnection.type
    incomingConnection.outputIndex
  match maybeNodeIncomingData with
  | none => return s
  | some (nodeIncomingData, _) => return { s with
      waitingExecution := addWaitingExecution s.waitingExecution startNode.name nextRunIndex incomingConnection.type
        incomingConnection.inputIndex nodeIncomingData
      waitingExecutionSource := addWaitingExecution s.waitingExecutionSource startNode.name nextRunIndex
        incomingConnection.type incomingConnection.inputIndex
        ⟨incomingConnection.fromNode, incomingConnection.outputIndex, nextRunIndex⟩ }

def addGroup (runData : RunData) (pinData : PinData) (startNode : GraphNode) (s : RecreatedStack)
    (sourceData : WorkflowExecute.SourceConnectionGroup) : Except Failure RecreatedStack :=
  if sourceData.complete then do
    let executeData ← completeEntry runData pinData startNode sourceData.connections
    return { s with nodeExecutionStack := s.nodeExecutionStack ++ [executeData] }
  else
    let nextRunIndex := (s.waitingExecution.get startNode.name).elim 0 (·.entries.length)
    sourceData.connections.foldlM (addWaitingConnection runData startNode nextRunIndex) s

def addStartNode (localeLE : String → String → Bool) (graph : DirectedGraph) (runData : RunData) (pinData : PinData)
    (s : RecreatedStack) (startNode : GraphNode) : Except Failure RecreatedStack := do
  let parentConnections ← asserted (graph.getDirectParentConnections startNode)
  let incomingStartNodeConnections := parentConnections.filter (·.type = .main)
  if incomingStartNodeConnections.length = 0 then
    return { s with nodeExecutionStack :=
      s.nodeExecutionStack ++ [⟨startNode, [[WorkflowExecute.emptyItem]], none⟩] }
  else (getSourceDataGroups localeLE graph startNode runData pinData).foldlM (addGroup runData pinData startNode) s

def recreateNodeExecutionStack (localeLE : String → String → Bool) (graph : DirectedGraph)
    (startNodes : List GraphNode) (runData : RunData) (pinData : PinData) : Except Failure RecreatedStack :=
  if graph.getNodes.any (·.disabled) then .error .assertion
  else startNodes.foldlM (addStartNode localeLE graph runData pinData) ⟨[], .empty, .empty⟩

/-! ## The assertions -/

variable {graph : DirectedGraph} {localeLE : String → String → Bool} {runData : RunData} {pinData : PinData}
  {startNode : GraphNode} {startNodes : List GraphNode} {s : RecreatedStack} {name : String} {output : ℕ}
  {type : NodeConnectionType} {c : N8n.GraphConnection} {group : WorkflowExecute.SourceConnectionGroup}

theorem getIncomingData_ne_assertion {index : ℤ} :
    getIncomingData runData name index type output ≠ .error .assertion := by
  rw [getIncomingData]
  split
  · simp
  · split <;> simp

theorem getIncomingDataFromAnyRun_ne_assertion :
    getIncomingDataFromAnyRun runData name type output ≠ .error .assertion := by
  rw [getIncomingDataFromAnyRun]
  generalize getRunIndexLength runData name = left
  generalize 0 = index
  induction left generalizing index with
  | zero => simp [firstRunWithData]
  | succ left ih =>
    rw [firstRunWithData]
    refine bind_ne_error getIncomingData_ne_assertion fun items _ => ?_
    split
    · simp
    · exact ih (index + 1)

theorem groupConnections_complete {fuel inputIndex : ℕ} {withData withoutData : List N8n.GraphConnection}
    {current : WorkflowExecute.SourceConnectionGroup}
    (member : group ∈ WorkflowExecute.groupConnections fuel withData withoutData current inputIndex)
    (complete : group.complete = true) (inside : c ∈ group.connections) :
    c ∈ withData ∨ current.complete = true ∧ c ∈ current.connections := by
  induction fuel generalizing withData withoutData current inputIndex with
  | zero =>
    obtain rfl := mem_singleton.mp member
    exact .inr ⟨complete, inside⟩
  | succ fuel ih =>
    rw [WorkflowExecute.groupConnections] at member
    split at member
    · obtain rfl := mem_singleton.mp member
      exact .inr ⟨complete, inside⟩
    split at member
    · rename_i found
      rcases ih member with old | ⟨isComplete, onGroup⟩
      · exact .inl (mem_of_mem_eraseP old)
      · rcases mem_append.mp onGroup with before | new
        · exact .inr ⟨isComplete, before⟩
        · obtain rfl := mem_singleton.mp new
          exact .inl (mem_of_find?_eq_some found)
    split at member
    · rcases ih member with old | ⟨isComplete, _⟩
      · exact .inl old
      · cases isComplete
    · rcases mem_cons.mp member with rfl | later
      · exact .inr ⟨complete, inside⟩
      · exact (ih later).imp_right fun ⟨_, nothing⟩ => absurd nothing not_mem_nil

theorem getSourceDataGroups_complete (member : group ∈ getSourceDataGroups localeLE graph startNode runData pinData)
    (complete : group.complete = true) (inside : c ∈ group.connections) :
    runData.has c.fromNode = true ∨ pinData.has c.fromNode = true := by
  rw [getSourceDataGroups] at member
  dsimp only at member
  split at member
  · cases member
  · have withData := (groupConnections_complete member complete inside).resolve_right
      fun nothing => not_mem_nil nothing.2
    rw [mem_insertionSort, mem_filter, Bool.or_eq_true] at withData
    exact withData.2

theorem incomingDataOf_ne_assertion (hasData : runData.has c.fromNode = true ∨ pinData.has c.fromNode = true) :
    incomingDataOf runData pinData c ≠ .error .assertion := by
  rw [incomingDataOf]
  split
  · simp
  · rename_i notPinned
    have ran : runData.has c.fromNode = true := hasData.resolve_right (by simp [OrderedMap.has, notPinned])
    rw [if_pos ran]
    exact bind_ne_error getIncomingDataFromAnyRun_ne_assertion fun data _ => ok_ne_error _

theorem addGroup_ne_assertion (hasData : group.complete = true → ∀ c ∈ group.connections,
      runData.has c.fromNode = true ∨ pinData.has c.fromNode = true) :
    addGroup runData pinData startNode s group ≠ .error .assertion := by
  rw [addGroup]
  split
  · rename_i complete
    have read := mapM_ne_error fun c member => incomingDataOf_ne_assertion (hasData complete c member)
    refine bind_ne_error (bind_ne_error read fun incoming _ same => nomatch same) fun executeData _ same => nomatch same
  · refine foldlM_ne_error fun c _ s => ?_
    refine bind_ne_error getIncomingDataFromAnyRun_ne_assertion fun data _ => ?_
    split
    · exact fun same => nomatch same
    · exact fun same => nomatch same

theorem recreateNodeExecutionStack_ne_assertion (enabled : ∀ n, graph.Stores n → n.disabled = false)
    (stored : ∀ n ∈ startNodes, graph.Stores n) :
    recreateNodeExecutionStack localeLE graph startNodes runData pinData ≠ .error .assertion := by
  have free : ¬graph.getNodes.any (·.disabled) = true := by
    rw [any_eq_true]
    rintro ⟨n, member, disabled⟩
    exact Bool.false_ne_true ((enabled n (mem_getNodes.mp member)).symm.trans disabled)
  rw [recreateNodeExecutionStack, if_neg free]
  refine foldlM_ne_error fun startNode member s => ?_
  rw [addStartNode, getDirectParentConnections, if_pos (stored startNode member)]
  refine bind_ne_error (ok_ne_error _) fun parentConnections _ => ?_
  dsimp only
  split
  · exact ok_ne_error _
  · exact foldlM_ne_error fun group inGroups s =>
      addGroup_ne_assertion fun complete c inside => getSourceDataGroups_complete inGroups complete inside

end N8n.PartialExecution
