import N8n.AddNodeToBeExecuted

/-! What the engine does when a node answers with a request instead of data: a run
slot is reserved for every requested action, and the requested nodes and the
requesting node go on the stack one by one. An unknown node makes
`prepareRequestedNodesForExecution` throw and the slots reserved before it stay.
A run slot is recorded without its `inputOverride`, which only the log view shows. -/

namespace N8n.WorkflowExecute

open Option

structure EngineRequest where
  actions : List ExecuteNodeAction
  metadata : String
  deriving DecidableEq

/-- `executionData.data.main?.[0]?.[itemIndex]`. -/
def agentInputData (executionData : IExecuteData) (itemIndex : ℕ) : Option INodeExecutionData :=
  match executionData.main.getD 0 .undefined with
  | .items data => data[itemIndex]?
  | .null => none
  | .undefined => none

/-- Reserve the next run slot of a node and return its index. -/
def initializeNodeRunData (runData : IRunData) (nodeName : String) : ℕ × IRunData :=
  let nodeRunData := (runData.get nodeName).getD []
  (nodeRunData.length, runData.set nodeName (nodeRunData ++ [⟨none⟩]))

def customParent (action : ExecuteNodeAction) : Bool :=
  (action.metadata.bind (·.parentNodeName)).any (· ≠ "")

section Requests

-- the object spread of the agent's item, the arguments of the call and its id
variable (mergedJson : Option INodeExecutionData → ExecuteNodeAction → String) {currentNode : INode}
  {executionData : IExecuteData} {runIndex : ℕ} {w : Workflow} {resume : Delivery}

/-- The call that schedules one action and the slot that it will fill. -/
def prepareAction (currentNode : INode) (runIndex : ℕ) (executionData : IExecuteData)
    (runData : IRunData) (action : ExecuteNodeAction) : Delivery × SubNodeExecutionDataAction :=
  let parentSourceData := (executionData.source[runIndex]?).join
  let defaultParentOutputIndex := (parentSourceData.map (·.previousNodeOutput)).getD 0
  let defaultParentSourceNode := (parentSourceData.map (·.previousNode)).getD currentNode.name
  let parentNode := (action.metadata.bind (·.parentNodeName)).getD currentNode.name
  let parentRunIndex : ℤ := if customParent action
    then (((runData.get parentNode).map List.length).getD 1 : ℕ) - 1
    else (parentSourceData.map (·.previousNodeRun)).getD 0
  let itemIndex := (action.metadata.bind (·.itemIndex)).getD 0
  let nodeRunIndex := (initializeNodeRunData runData action.nodeName).1
  (⟨⟨action.nodeName, action.type, 0⟩, 0, parentNode,
      some [.items [⟨mergedJson (agentInputData executionData itemIndex) action⟩]],
      if customParent action then parentRunIndex else runIndex, some nodeRunIndex,
      some ⟨false, none, true, some ((executionData.metadata.bind (·.preservedSourceOverwrite)).getD
          ⟨defaultParentSourceNode, defaultParentOutputIndex, parentRunIndex⟩)⟩⟩,
    ⟨action, action.nodeName, nodeRunIndex⟩)

/-- The run data with all reserved slots, and the prepared calls unless the loop threw. -/
def prepareRequestedNodesForExecution (w : Workflow) (currentNode : INode) (runIndex : ℕ)
    (executionData : IExecuteData) :
    List ExecuteNodeAction → IRunData → IRunData × Option (List (Delivery × SubNodeExecutionDataAction))
  | [], runData => (runData, some [])
  | action :: actions, runData =>
    match w.getNode action.nodeName with
    | none => (runData, none)
    | some _ =>
      let rest := prepareRequestedNodesForExecution w currentNode runIndex executionData actions
        (initializeNodeRunData runData action.nodeName).2
      (rest.1, rest.2.map ((prepareAction mergedJson currentNode runIndex executionData runData action) :: ·))

/-- The call that resumes the requesting node, or `none` where it has no parent and
the request is ignored. An empty parent name is falsy. -/
def prepareRequestingNodeForResuming (executionData : IExecuteData) (nodeName : String)
    (runIndex : ℕ) (subNodeExecutionData : SubNodeExecutionData) : Option Delivery :=
  ((executionData.source[0]?).join.map (·.previousNode)).bind fun parentNode =>
    if parentNode = "" then none else
      let preserved := do
        let metadata ← executionData.metadata
        if metadata.preserveSourceOverwrite then metadata.preservedSourceOverwrite else none
      some ⟨⟨nodeName, .aiTool, 0⟩, 0, parentNode, some executionData.main, runIndex, some runIndex,
        some ⟨true, some subNodeExecutionData, preserved.isSome, preserved⟩⟩

structure HandledRequest where
  runData : IRunData
  nodesToBeExecuted : Option (List Delivery)

/-- The resumed node is put first, "at the bottom of the stack". -/
def handleRequest (w : Workflow) (currentNode : INode) (request : EngineRequest) (runIndex : ℕ)
    (executionData : IExecuteData) (runData : IRunData) : HandledRequest :=
  let prepared := prepareRequestedNodesForExecution mergedJson w currentNode runIndex executionData
    request.actions runData
  ⟨prepared.1, prepared.2.map fun nodes =>
    match prepareRequestingNodeForResuming executionData currentNode.name runIndex
        ⟨nodes.map Prod.snd, request.metadata⟩ with
    | none => []
    | some resume => resume :: nodes.map Prod.fst⟩

/-- The loop over `nodesToBeExecuted` ends at a call that throws. -/
def addNodes (w : Workflow) (s : RunExecutionData) : List Delivery → Outcome
  | [] => ⟨s, false⟩
  | c :: calls =>
    let added := addNodeToBeExecuted w s c
    if added.threw then added else addNodes w added.after calls

def handleEngineRequest (w : Workflow) (s : RunExecutionData) (currentNode : INode)
    (request : EngineRequest) (runIndex : ℕ) (executionData : IExecuteData) : Outcome :=
  let handled := handleRequest mergedJson w currentNode request runIndex executionData s.runData
  match handled.nodesToBeExecuted with
  | none => ⟨{ s with runData := handled.runData }, true⟩
  | some calls => addNodes w { s with runData := handled.runData } calls

/-! ## What is prepared -/

theorem prepareRequestedNodesForExecution_actions (actions : List ExecuteNodeAction) (runData : IRunData)
    {nodes : List (Delivery × SubNodeExecutionDataAction)}
    (prepared : (prepareRequestedNodesForExecution mergedJson w currentNode runIndex executionData
      actions runData).2 = some nodes) :
    nodes.map (fun node => (node.2.action, node.2.nodeName)) = actions.map fun action => (action, action.nodeName) := by
  induction actions generalizing runData nodes with
  | nil =>
    simp only [prepareRequestedNodesForExecution, some.injEq] at prepared
    simp [← prepared]
  | cons action actions ih =>
    simp only [prepareRequestedNodesForExecution] at prepared
    split at prepared
    · cases prepared
    · simp only [map_eq_some_iff] at prepared
      obtain ⟨rest, done, rfl⟩ := prepared
      simp [prepareAction, ih _ done]

theorem handleRequest_cons {request : EngineRequest} {runData : IRunData} {calls : List Delivery}
    (handled : (handleRequest mergedJson w currentNode request runIndex executionData
      runData).nodesToBeExecuted = some (resume :: calls)) :
    ∃ nodes, (prepareRequestedNodesForExecution mergedJson w currentNode runIndex executionData
        request.actions runData).2 = some nodes ∧ calls = nodes.map Prod.fst ∧
      prepareRequestingNodeForResuming executionData currentNode.name runIndex
        ⟨nodes.map Prod.snd, request.metadata⟩ = some resume := by
  simp only [handleRequest, map_eq_some_iff] at handled
  obtain ⟨nodes, prepared, scheduled⟩ := handled
  refine ⟨nodes, prepared, ?_⟩
  split at scheduled
  · cases scheduled
  · rename_i resumed
    rw [List.cons.injEq] at scheduled
    exact ⟨scheduled.2.symm, scheduled.1 ▸ resumed⟩

theorem prepareRequestingNodeForResuming_metadata {nodeName : String} {subNodeExecutionData : SubNodeExecutionData}
    (resumed : prepareRequestingNodeForResuming executionData nodeName runIndex subNodeExecutionData = some resume) :
    resume.connectionData.node = nodeName ∧ resume.newRunIndex = some runIndex ∧
      resume.metadata.bind (·.subNodeExecutionData) = some subNodeExecutionData := by
  simp only [prepareRequestingNodeForResuming, bind_eq_some_iff] at resumed
  obtain ⟨parentNode, -, resumed⟩ := resumed
  split at resumed
  · cases resumed
  · simp only [some.injEq] at resumed
    subst resumed
    exact ⟨rfl, rfl, rfl⟩

end Requests

/-! ## An agent with a tool -/

/-- `Start` feeds `Agent`, which asks the engine to run `Tool`. -/
def agentWorkflow (order : ExecutionOrder) : Workflow where
  nodes := ⟨[("Start", ⟨"Start"⟩), ("Agent", ⟨"Agent"⟩), ("Tool", ⟨"Tool"⟩)], by decide⟩
  named := Workflow.named_of_entries (by decide)
  connectionsBySourceNode := ⟨[("Start", ⟨[(.main, [some [⟨"Agent", .main, 0⟩]])], by decide⟩)], by decide⟩
  connectionsByDestinationNode := ⟨[("Agent", ⟨[(.main, [some [⟨"Start", .main, 0⟩]])], by decide⟩)], by decide⟩
  executionOrder := some order

def callTool (id : String) : ExecuteNodeAction := ⟨"Tool", "{}", .aiTool, id, none⟩

def toolRequest : EngineRequest := ⟨[callTool "call"], "{}"⟩

/-- The entry of `Agent` with one item from `Start`. -/
def agentEntry : IExecuteData :=
  ⟨some ⟨"Agent"⟩, [.items [⟨"{}"⟩]], [some ⟨"Start", 0, 0⟩], none, none⟩

end N8n.WorkflowExecute
