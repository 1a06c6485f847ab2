import N8n.RequestsResponse

/-! What `handleRequest` writes down about a requested action: the item that it gets, with the
source that the item is traced back to, and the run slot with its source. A slot is pushed as
soon as its action is come to, before later actions and the parent of the requesting node
are looked at. The handling in `RequestsResponse` is this one without paired items and slot
sources. -/

namespace N8n.WorkflowExecute

open List Option Prod

structure PairedItem where
  item : ℤ
  input : ℕ
  sourceOverwrite : ISourceData
  deriving DecidableEq

structure RequestedItem where
  json : String
  pairedItem : PairedItem
  deriving DecidableEq

structure RunSlot where
  data : Option ITaskDataConnections
  inputOverride : Option (List (List RequestedItem))
  source : List ISourceData
  executionIndex : ℕ
  executionTime : ℕ
  startTime : ℕ
  deriving DecidableEq

abbrev SlotData := OrderedMap String (List RunSlot)

structure RequestedNode where
  inputConnectionData : IConnection
  parentOutputIndex : ℕ
  parentNode : String
  parentOutputData : List (List RequestedItem)
  runIndex : ℤ
  nodeRunIndex : ℕ
  preserveSourceOverwrite : Bool
  preservedSourceOverwrite : ISourceData
  deriving DecidableEq

def buildParentOutputData (json : String) (parentRunIndex : ℤ) (parentOutputIndex : ℕ)
    (parentSourceNode : String) : List (List RequestedItem) :=
  [[{ json
      pairedItem :=
        { item := parentRunIndex
          input := parentOutputIndex
          sourceOverwrite := ⟨parentSourceNode, parentOutputIndex, parentRunIndex⟩ } }]]

def placeholder (parentNode : String) (parentOutputIndex : ℕ) (previousNodeRun : ℤ)
    (displayOutputData : List (List RequestedItem)) : RunSlot where
  data := none
  inputOverride := some displayOutputData
  source := [⟨parentNode, parentOutputIndex, previousNodeRun⟩]
  executionIndex := 0
  executionTime := 0
  startTime := 0

def initializeRunSlot (runData : SlotData) (nodeName parentNode : String) (parentOutputIndex : ℕ)
    (previousNodeRun : ℤ) (displayOutputData : List (List RequestedItem)) : ℕ × SlotData :=
  let nodeRunData := (runData.get nodeName).getD []
  (nodeRunData.length, runData.set nodeName
    (nodeRunData ++ [placeholder parentNode parentOutputIndex previousNodeRun displayOutputData]))

def parentNodeOf (currentNode : INode) (action : ExecuteNodeAction) : String :=
  (action.metadata.bind (·.parentNodeName)).getD currentNode.name

/-- `(runData[parentNode]?.length ?? 1) - 1`. -/
def lastRunOf (runData : SlotData) (parentNode : String) : ℤ :=
  (((runData.get parentNode).map List.length).getD 1 : ℕ) - 1

section Handling

-- the object spread of the agent's item, the arguments of the call and its id
variable (mergedJson : Option INodeExecutionData → ExecuteNodeAction → String)

def requestAction (currentNode : INode) (runIndex : ℕ) (executionData : IExecuteData)
    (runData : SlotData) (action : ExecuteNodeAction) :
    (RequestedNode × SubNodeExecutionDataAction) × SlotData :=
  let parentSourceData := (executionData.source[runIndex]?).join
  let defaultParentOutputIndex := (parentSourceData.map (·.previousNodeOutput)).getD 0
  let defaultParentSourceNode := (parentSourceData.map (·.previousNode)).getD currentNode.name
  let parentNode := parentNodeOf currentNode action
  let parentRunIndex : ℤ := if customParent action then lastRunOf runData parentNode
    else (parentSourceData.map (·.previousNodeRun)).getD 0
  let agentInputData := agentInputData executionData ((action.metadata.bind (·.itemIndex)).getD 0)
  let parentOutputData := buildParentOutputData (mergedJson agentInputData action) parentRunIndex
    defaultParentOutputIndex defaultParentSourceNode
  let displayOutputData := buildParentOutputData action.input parentRunIndex
    defaultParentOutputIndex defaultParentSourceNode
  let initialized := initializeRunSlot runData action.nodeName parentNode defaultParentOutputIndex
    (if customParent action then parentRunIndex else runIndex) displayOutputData
  (({ inputConnectionData := ⟨action.nodeName, action.type, 0⟩
      parentOutputIndex := 0
      parentNode := parentNode
      parentOutputData := parentOutputData
      runIndex := if customParent action then parentRunIndex else runIndex
      nodeRunIndex := initialized.1
      preserveSourceOverwrite := true
      preservedSourceOverwrite :=
        (executionData.metadata.bind (·.preservedSourceOverwrite)).getD
          ⟨defaultParentSourceNode, defaultParentOutputIndex, parentRunIndex⟩ },
    { action, nodeName := action.nodeName, runIndex := initialized.1 }), initialized.2)

def requestActions (w : Workflow) (currentNode : INode) (runIndex : ℕ)
    (executionData : IExecuteData) : List ExecuteNodeAction → SlotData →
      SlotData × Option (List (RequestedNode × SubNodeExecutionDataAction))
  | [], runData => (runData, some [])
  | action :: actions, runData =>
    match w.getNode action.nodeName with
    | none => (runData, none)
    | some _ =>
      let first := requestAction mergedJson currentNode runIndex executionData runData action
      let rest := requestActions w currentNode runIndex executionData actions first.2
      (rest.1, rest.2.map (first.1 :: ·))

/-- How a request ends: an exception, no nodes to be executed, or the requesting node and then
the requested ones. -/
inductive RequestOutcome
  | threw
  | ignored
  | scheduled (resume : Delivery) (requested : List RequestedNode)
  deriving DecidableEq

/-- The run data that a request leaves behind, and how it ends. -/
structure RequestResult where
  runData : SlotData
  outcome : RequestOutcome

def handleRecordedRequest (w : Workflow) (currentNode : INode) (request : EngineRequest)
    (runIndex : ℕ) (executionData : IExecuteData) (runData : SlotData) : RequestResult :=
  let prepared := requestActions mergedJson w currentNode runIndex executionData request.actions runData
  match prepared.2 with
  | none => ⟨prepared.1, .threw⟩
  | some nodes =>
    match prepareRequestingNodeForResuming executionData currentNode.name runIndex
        ⟨nodes.map snd, request.metadata⟩ with
    | none => ⟨prepared.1, .ignored⟩
    | some resume => ⟨prepared.1, .scheduled resume (nodes.map fst)⟩

variable {mergedJson : Option INodeExecutionData → ExecuteNodeAction → String} {w : Workflow}
  {currentNode : INode} {request : EngineRequest} {runIndex : ℕ} {executionData : IExecuteData}
  {runData : SlotData} {actions : List ExecuteNodeAction}

/-! ## The slots that are reserved -/

def slotCount (runData : SlotData) : ℕ := (runData.values.map List.length).sum

theorem slotCount_initializeRunSlot (runData : SlotData) (nodeName parentNode : String) (output : ℕ)
    (run : ℤ) (display : List (List RequestedItem)) :
    slotCount (initializeRunSlot runData nodeName parentNode output run display).2 = slotCount runData + 1 := by
  simp only [slotCount, initializeRunSlot]
  cases found : runData.get nodeName with
  | none =>
    rw [runData.sum_set_new List.length _ found]
    rfl
  | some runs =>
    have sums := runData.sum_set List.length (runs ++ [placeholder parentNode output run display]) found
    simp only [length_append, length_singleton] at sums
    simp only [getD_some]
    omega

theorem slotCount_requestActions (actions : List ExecuteNodeAction) (runData : SlotData) :
    slotCount (requestActions mergedJson w currentNode runIndex executionData actions runData).1 =
      slotCount runData + (actions.takeWhile fun action => (w.getNode action.nodeName).isSome).length := by
  induction actions generalizing runData with
  | nil => rfl
  | cons action actions ih =>
    rw [requestActions]
    cases known : w.getNode action.nodeName with
    | none => simp [known]
    | some node =>
      have first := slotCount_initializeRunSlot runData action.nodeName
      simp only [takeWhile_cons, known, isSome_some, if_true, length_cons, ih]
      rw [requestAction, first]
      omega

theorem requestActions_unchanged_iff :
    (requestActions mergedJson w currentNode runIndex executionData actions runData).1 = runData ↔
      ∀ action, actions.head? = some action → w.getNode action.nodeName = none := by
  constructor
  · intro unchanged action first
    obtain ⟨rest, rfl⟩ := head?_eq_some_iff.mp first
    have count : slotCount (requestActions mergedJson w currentNode runIndex executionData (action :: rest)
      runData).1 = _ := slotCount_requestActions _ _
    rw [unchanged] at count
    by_contra known
    have isKnown := isSome_iff_ne_none.mpr known
    simp only [takeWhile_cons, isKnown, if_true, length_cons] at count
    omega
  · intro unknown
    cases actions with
    | nil => rfl
    | cons action actions => simp only [requestActions, unknown action rfl]

theorem requestActions_isSome :
    (requestActions mergedJson w currentNode runIndex executionData actions runData).2.isSome ↔
      ∀ action ∈ actions, (w.getNode action.nodeName).isSome := by
  induction actions generalizing runData with
  | nil => simp [requestActions]
  | cons action actions ih =>
    rw [requestActions]
    cases known : w.getNode action.nodeName with
    | none => simp [known]
    | some node => simp [known, ih]

/-! ## Requests that cannot be handled -/

/-- An empty name is falsy. -/
def hasParent (executionData : IExecuteData) : Bool :=
  (executionData.source[0]?).join.any (·.previousNode ≠ "")

structure CanBeHandled (w : Workflow) (request : EngineRequest) (executionData : IExecuteData) : Prop where
  known : ∀ action ∈ request.actions, (w.getNode action.nodeName).isSome
  parent : hasParent executionData = true

theorem prepareRequestingNodeForResuming_isSome {nodeName : String} {data : SubNodeExecutionData} :
    (prepareRequestingNodeForResuming executionData nodeName runIndex data).isSome = hasParent executionData := by
  simp only [prepareRequestingNodeForResuming, hasParent]
  cases (executionData.source[0]?).join with
  | none => rfl
  | some source => by_cases empty : source.previousNode = "" <;> simp [empty]

theorem handleRecordedRequest_runData :
    (handleRecordedRequest mergedJson w currentNode request runIndex executionData runData).runData =
      (requestActions mergedJson w currentNode runIndex executionData request.actions runData).1 := by
  rw [handleRecordedRequest]
  split
  · rfl
  · split <;> rfl

theorem handleRecordedRequest_fails_iff :
    ((handleRecordedRequest mergedJson w currentNode request runIndex executionData runData).outcome = .threw ∨
      (handleRecordedRequest mergedJson w currentNode request runIndex executionData runData).outcome = .ignored) ↔
      ¬CanBeHandled w request executionData := by
  rw [handleRecordedRequest]
  split
  · rename_i threw
    refine iff_of_true (.inl rfl) fun handled => ?_
    have prepared : (requestActions mergedJson w currentNode runIndex executionData request.actions
      runData).2.isSome := requestActions_isSome.mpr handled.known
    rw [threw] at prepared
    cases prepared
  · rename_i nodes prepared
    have known := requestActions_isSome.mp (isSome_iff_exists.mpr ⟨nodes, prepared⟩)
    split
    · rename_i ignored
      have orphan : hasParent executionData = false := by
        rw [← prepareRequestingNodeForResuming_isSome, ignored]
        rfl
      exact iff_of_true (.inr rfl) fun handled => Bool.false_ne_true (orphan.symm.trans handled.parent)
    · rename_i resume scheduled
      have parent : hasParent executionData = true := by
        rw [← prepareRequestingNodeForResuming_isSome, scheduled]
        rfl
      refine iff_of_false ?_ (not_not.mpr ⟨known, parent⟩)
      simp

/-- A request that is not handled leaves the run data as they were just when no slot was
reserved before that was found out. -/
theorem failed_request_keeps_runData_iff (mergedJson : Option INodeExecutionData → ExecuteNodeAction → String)
    (w : Workflow) (currentNode : INode) (request : EngineRequest) (runIndex : ℕ) (executionData : IExecuteData)
    (runData : SlotData) :
    let result := handleRecordedRequest mergedJson w currentNode request runIndex executionData runData
    (result.outcome = .threw ∨ result.outcome = .ignored → result.runData = runData) ↔
      CanBeHandled w request executionData ∨
        ∀ action, request.actions.head? = some action → w.getNode action.nodeName = none := by
  intro result
  rw [handleRecordedRequest_fails_iff, handleRecordedRequest_runData, requestActions_unchanged_iff]
  exact or_iff_not_imp_left.symm

/-- `Agent` asks for `Tool` and then for a node that there is not. -/
def unknownSecond : EngineRequest := ⟨[callTool "call", ⟨"Missing", "{}", .aiTool, "other", none⟩], "{}"⟩

/-- The slot of the first action stays. -/
theorem slot_left_by_failed_request :
    let result := handleRecordedRequest (fun _ _ => "{}") (agentWorkflow .v1) ⟨"Agent"⟩ unknownSecond 0
      agentEntry .empty
    result.outcome = .threw ∧ result.runData ≠ .empty ∧ slotCount result.runData = 1 := by
  decide

/-! ## Without paired items and slot sources -/

def eraseSlots (runData : SlotData) : IRunData := runData.mapValues fun runs => runs.map fun slot => ⟨slot.data⟩

def RequestedNode.erase (node : RequestedNode) : Delivery where
  connectionData := node.inputConnectionData
  outputIndex := node.parentOutputIndex
  parentNodeName := node.parentNode
  nodeSuccessData := some (node.parentOutputData.map fun items => .items (items.map fun item => ⟨item.json⟩))
  runIndex := node.runIndex
  newRunIndex := some node.nodeRunIndex
  metadata := some ⟨false, none, node.preserveSourceOverwrite, some node.preservedSourceOverwrite⟩

theorem get_eraseSlots (runData : SlotData) (nodeName : String) :
    (eraseSlots runData).get nodeName = (runData.get nodeName).map fun runs => runs.map fun slot => ⟨slot.data⟩ :=
  runData.get_mapValues _ nodeName

theorem erase_initializeRunSlot (runData : SlotData) (nodeName parentNode : String) (output : ℕ) (run : ℤ)
    (display : List (List RequestedItem)) :
    initializeNodeRunData (eraseSlots runData) nodeName =
      ((initializeRunSlot runData nodeName parentNode output run display).1,
        eraseSlots (initializeRunSlot runData nodeName parentNode output run display).2) := by
  have written := runData.mapValues_set (fun runs : List RunSlot => runs.map fun slot => (⟨slot.data⟩ : ITaskData))
    nodeName (((runData.get nodeName).getD []) ++ [placeholder parentNode output run display])
  simp only [initializeNodeRunData, get_eraseSlots, initializeRunSlot]
  simp only [eraseSlots, written]
  cases runData.get nodeName with
  | none => rfl
  | some runs => simp [placeholder]

theorem lastRunOf_eq (runData : SlotData) (parentNode : String) : lastRunOf runData parentNode =
      ((((eraseSlots runData).get parentNode).map List.length).getD 1 : ℕ) - 1 := by
  rw [get_eraseSlots, lastRunOf]
  cases runData.get parentNode with
  | none => rfl
  | some runs => simp

theorem erase_requestAction (runData : SlotData) (action : ExecuteNodeAction) :
    let requested := requestAction mergedJson currentNode runIndex executionData runData action
    prepareAction mergedJson currentNode runIndex executionData (eraseSlots runData) action =
      (requested.1.1.erase, requested.1.2) := by
  have index := congrArg fst (erase_initializeRunSlot runData action.nodeName "" 0 0 [])
  by_cases custom : customParent action = true
  · cases inherited : executionData.metadata.bind (·.preservedSourceOverwrite) <;>
      simp [prepareAction, requestAction, RequestedNode.erase, buildParentOutputData, parentNodeOf, custom,
        inherited, lastRunOf_eq, index, initializeRunSlot]
  · cases inherited : executionData.metadata.bind (·.preservedSourceOverwrite) <;>
      simp [prepareAction, requestAction, RequestedNode.erase, buildParentOutputData, parentNodeOf, custom,
        inherited, index, initializeRunSlot]

theorem erase_requestActions (actions : List ExecuteNodeAction) (runData : SlotData) :
    let requested := requestActions mergedJson w currentNode runIndex executionData actions runData
    prepareRequestedNodesForExecution mergedJson w currentNode runIndex executionData actions (eraseSlots runData) =
      (eraseSlots requested.1, requested.2.map fun nodes => nodes.map fun node => (node.1.erase, node.2)) := by
  induction actions generalizing runData with
  | nil => rfl
  | cons action actions ih =>
    simp only [requestActions, prepareRequestedNodesForExecution]
    cases w.getNode action.nodeName with
    | none => rfl
    | some node =>
      have reserved : (initializeNodeRunData (eraseSlots runData) action.nodeName).2 =
          eraseSlots (requestAction mergedJson currentNode runIndex executionData runData action).2 :=
        congrArg snd (erase_initializeRunSlot runData action.nodeName _ _ _ _)
      simp only [reserved, ih, erase_requestAction]
      cases (requestActions mergedJson w currentNode runIndex executionData actions _).2 <;> rfl

def RequestOutcome.nodesToBeExecuted : RequestOutcome → Option (List Delivery)
  | threw => none
  | ignored => some []
  | scheduled resume requested => some (resume :: requested.map RequestedNode.erase)

/-- The handling without paired items and slot sources. -/
theorem erase_handleRecordedRequest (mergedJson : Option INodeExecutionData → ExecuteNodeAction → String)
    (w : Workflow) (currentNode : INode) (request : EngineRequest) (runIndex : ℕ) (executionData : IExecuteData)
    (runData : SlotData) :
    let result := handleRecordedRequest mergedJson w currentNode request runIndex executionData runData
    handleRequest mergedJson w currentNode request runIndex executionData (eraseSlots runData) =
      ⟨eraseSlots result.runData, result.outcome.nodesToBeExecuted⟩ := by
  simp only [handleRequest, handleRecordedRequest, erase_requestActions]
  cases (requestActions mergedJson w currentNode runIndex executionData request.actions runData).2 with
  | none => rfl
  | some nodes =>
    have actions : (nodes.map fun node => (node.1.erase, node.2)).map snd = nodes.map snd := by
      simp
    simp only [map_some, actions]
    cases prepareRequestingNodeForResuming executionData currentNode.name runIndex
      ⟨nodes.map snd, request.metadata⟩ with
    | none => rfl
    | some resume => simp [RequestOutcome.nodesToBeExecuted, Function.comp_def]

/-! ## The source of a requested action -/

def reservedSlots (mergedJson : Option INodeExecutionData → ExecuteNodeAction → String) (currentNode : INode)
    (runIndex : ℕ) (executionData : IExecuteData) (runData : SlotData) (actions : List ExecuteNodeAction) : SlotData :=
  actions.foldl (fun runData action =>
    (requestAction mergedJson currentNode runIndex executionData runData action).2) runData

variable {nodes : List (RequestedNode × SubNodeExecutionDataAction)} {requested : List RequestedNode}
  {resume : Delivery}

section

variable (prepared : (requestActions mergedJson w currentNode runIndex executionData actions runData).2 = some nodes)
include prepared

theorem requestActions_length : nodes.length = actions.length := by
  induction actions generalizing runData nodes with
  | nil =>
    obtain rfl := some.inj prepared
    rfl
  | cons action actions ih =>
    rw [requestActions] at prepared
    split at prepared
    · cases prepared
    · obtain ⟨rest, done, rfl⟩ := map_eq_some_iff.mp prepared
      simp [ih done]

theorem mem_requestActions {node : RequestedNode × SubNodeExecutionDataAction} :
    node ∈ nodes ↔ ∃ earlier action later, actions = earlier ++ action :: later ∧
      node = (requestAction mergedJson currentNode runIndex executionData
        (reservedSlots mergedJson currentNode runIndex executionData runData earlier) action).1 := by
  induction actions generalizing runData nodes with
  | nil =>
    obtain rfl := some.inj prepared
    simp
  | cons first actions ih =>
    rw [requestActions] at prepared
    split at prepared
    · cases prepared
    · obtain ⟨rest, done, rfl⟩ := map_eq_some_iff.mp prepared
      rw [mem_cons, ih done]
      constructor
      · rintro (rfl | ⟨earlier, action, later, rfl, rfl⟩)
        · exact ⟨[], first, actions, rfl, rfl⟩
        · exact ⟨first :: earlier, action, later, rfl, rfl⟩
      · rintro ⟨earlier, action, later, split, rfl⟩
        cases earlier with
        | nil =>
          obtain ⟨rfl, rfl⟩ := List.cons.inj split
          exact .inl rfl
        | cons head earlier =>
          obtain ⟨rfl, rest⟩ := List.cons.inj split
          exact .inr ⟨earlier, action, later, rest, rfl⟩

end

def lastRunAfter (runData : SlotData) (actions : List ExecuteNodeAction) (parentNode : String) : ℤ :=
  let reserved := (actions.filter (·.nodeName = parentNode)).length
  match runData.get parentNode with
  | none => if reserved = 0 then 0 else reserved - 1
  | some runs => (runs.length + reserved : ℕ) - 1

theorem lastRunOf_reservedSlots (actions : List ExecuteNodeAction) (runData : SlotData) (parentNode : String) :
    lastRunOf (reservedSlots mergedJson currentNode runIndex executionData runData actions) parentNode =
      lastRunAfter runData actions parentNode := by
  induction actions generalizing runData with
  | nil =>
    simp only [reservedSlots, foldl_nil, lastRunOf, lastRunAfter, filter_nil, length_nil]
    cases runData.get parentNode <;> simp
  | cons action actions ih =>
    rw [reservedSlots, foldl_cons]
    refine (ih _).trans ?_
    simp only [lastRunAfter, requestAction, initializeRunSlot, OrderedMap.get_set]
    by_cases same : parentNode = action.nodeName
    · subst same
      cases runData.get action.nodeName with
      | none => simp
      | some runs =>
        simp
        omega
    · have other : action.nodeName ≠ parentNode := Ne.symm same
      simp [same, other]

/-- The source that is read for the requesting node: an absent entry is its own first output. -/
def readSource (currentNode : INode) (runIndex : ℕ) (executionData : IExecuteData) : ISourceData :=
  (executionData.source[runIndex]?).join.getD ⟨currentNode.name, 0, 0⟩

/-- The source written for an action that is come to after others. -/
def sourceAfter (currentNode : INode) (runIndex : ℕ) (executionData : IExecuteData) (runData : SlotData)
    (earlier : List ExecuteNodeAction) (action : ExecuteNodeAction) : ISourceData :=
  let read := readSource currentNode runIndex executionData
  ⟨read.previousNode, read.previousNodeOutput,
    if customParent action then lastRunAfter runData earlier (parentNodeOf currentNode action)
    else read.previousNodeRun⟩

def RequestedNode.sources (node : RequestedNode) : List (List ISourceData) × ISourceData :=
  (node.parentOutputData.map fun items => items.map (·.pairedItem.sourceOverwrite), node.preservedSourceOverwrite)

def inheritedSource (executionData : IExecuteData) : Option ISourceData :=
  executionData.metadata.bind (·.preservedSourceOverwrite)

theorem requestAction_sources (earlier : List ExecuteNodeAction) (action : ExecuteNodeAction) :
    (requestAction mergedJson currentNode runIndex executionData
      (reservedSlots mergedJson currentNode runIndex executionData runData earlier) action).1.1.sources =
      ([[sourceAfter currentNode runIndex executionData runData earlier action]], (inheritedSource executionData).getD
          (sourceAfter currentNode runIndex executionData runData earlier action)) := by
  simp only [requestAction, RequestedNode.sources, buildParentOutputData, inheritedSource, sourceAfter, readSource,
    lastRunOf_reservedSlots]
  cases (executionData.source[runIndex]?).join <;> rfl

theorem scheduled_of_handled (mergedJson : Option INodeExecutionData → ExecuteNodeAction → String)
    (currentNode : INode) (runIndex : ℕ) (runData : SlotData) (handled : CanBeHandled w request executionData) :
    ∃ resume requested, (handleRecordedRequest mergedJson w currentNode request runIndex executionData
      runData).outcome = .scheduled resume requested := by
  cases outcome : (handleRecordedRequest mergedJson w currentNode request runIndex executionData runData).outcome with
  | threw => exact absurd handled (handleRecordedRequest_fails_iff.mp (.inl outcome))
  | ignored => exact absurd handled (handleRecordedRequest_fails_iff.mp (.inr outcome))
  | scheduled resume requested => exact ⟨resume, requested, rfl⟩

theorem nodes_of_scheduled
    (scheduled : (handleRecordedRequest mergedJson w currentNode request runIndex executionData runData).outcome =
      .scheduled resume requested) :
    ∃ nodes, (requestActions mergedJson w currentNode runIndex executionData request.actions runData).2 = some nodes ∧
      nodes.map fst = requested := by
  rw [handleRecordedRequest] at scheduled
  split at scheduled
  · cases scheduled
  · rename_i nodes prepared
    split at scheduled
    · cases scheduled
    · exact ⟨nodes, prepared, (RequestOutcome.scheduled.inj scheduled).2⟩

theorem handled_of_scheduled
    (scheduled : (handleRecordedRequest mergedJson w currentNode request runIndex executionData runData).outcome =
      .scheduled resume requested) : CanBeHandled w request executionData := by
  by_contra refused
  rcases handleRecordedRequest_fails_iff.mpr refused with threw | ignored
  · cases threw.symm.trans scheduled
  · cases ignored.symm.trans scheduled

def feedingSource (executionData : IExecuteData) : Option ISourceData := (executionData.source[0]?).join

def NamesFeeding (executionData : IExecuteData) (node : RequestedNode) : Prop :=
  ∃ source, feedingSource executionData = some source ∧
    (∀ sources ∈ node.sources.1, ∀ recorded ∈ sources, recorded = source) ∧
    (inheritedSource executionData = none → node.sources.2 = source)

/-- The sources of all requested nodes name what fed the requesting node, and they are those of
a requesting node that runs for the first time. -/
def RecordsFeedingSource (mergedJson : Option INodeExecutionData → ExecuteNodeAction → String) (w : Workflow)
    (currentNode : INode) (request : EngineRequest) (runIndex : ℕ) (executionData : IExecuteData)
    (runData : SlotData) : Prop :=
  ∀ resume requested, (handleRecordedRequest mergedJson w currentNode request runIndex executionData runData).outcome =
      .scheduled resume requested →
    (∀ node ∈ requested, NamesFeeding executionData node) ∧
    ∀ first others, (handleRecordedRequest mergedJson w currentNode request 0 executionData runData).outcome =
      .scheduled first others → requested.map RequestedNode.sources = others.map RequestedNode.sources

/-- The entry at the run index, or else the requesting node's own first output, has the node and
the output that fed the node, and the run is the same by way of the entry or of the custom parent. -/
structure ReadsFeeding (currentNode : INode) (runIndex : ℕ) (executionData : IExecuteData) (runData : SlotData)
    (source : ISourceData) (earlier : List ExecuteNodeAction) (action : ExecuteNodeAction) : Prop where
  node : (readSource currentNode runIndex executionData).previousNode = source.previousNode
  output : (readSource currentNode runIndex executionData).previousNodeOutput = source.previousNodeOutput
  ownRun : customParent action = false →
    (readSource currentNode runIndex executionData).previousNodeRun = source.previousNodeRun
  parentRun : customParent action = true →
    lastRunAfter runData earlier (parentNodeOf currentNode action) = source.previousNodeRun

variable {source : ISourceData}

theorem sourceAfter_eq_iff {earlier : List ExecuteNodeAction} {action : ExecuteNodeAction} :
    sourceAfter currentNode runIndex executionData runData earlier action = source ↔
      ReadsFeeding currentNode runIndex executionData runData source earlier action := by
  rw [sourceAfter, ISourceData.mk.injEq]
  constructor
  · rintro ⟨node, output, run⟩
    refine ⟨node, output, fun own => ?_, fun custom => ?_⟩
    · rwa [own] at run
    · rwa [if_pos custom] at run
  · intro reads
    refine ⟨reads.node, reads.output, ?_⟩
    cases custom : customParent action with
    | false => exact reads.ownRun custom
    | true => exact reads.parentRun custom

/-- The first run reads the entry that the requesting node's parent is taken from. -/
theorem ReadsFeeding.firstRun {earlier : List ExecuteNodeAction} {action : ExecuteNodeAction}
    (feeding : feedingSource executionData = some source)
    (reads : ReadsFeeding currentNode runIndex executionData runData source earlier action) :
    ReadsFeeding currentNode 0 executionData runData source earlier action := by
  have read : readSource currentNode 0 executionData = source := by
    rw [readSource, show (executionData.source[0]?).join = some source from feeding]
    rfl
  exact ⟨by rw [read], by rw [read], fun _ => by rw [read], reads.parentRun⟩

theorem sources_eq_replicate
    (prepared : (requestActions mergedJson w currentNode runIndex executionData actions runData).2 = some nodes)
    (reads : ∀ earlier action later, actions = earlier ++ action :: later →
      ReadsFeeding currentNode runIndex executionData runData source earlier action) :
    (nodes.map fst).map RequestedNode.sources =
      List.replicate actions.length ([[source]], (inheritedSource executionData).getD source) := by
  rw [eq_replicate_iff]
  refine ⟨by simp [requestActions_length prepared], fun sources member => ?_⟩
  simp only [List.map_map, List.mem_map, Function.comp_apply] at member
  obtain ⟨node, inside, rfl⟩ := member
  obtain ⟨earlier, action, later, split, rfl⟩ := (mem_requestActions prepared).mp inside
  rw [requestAction_sources, sourceAfter_eq_iff.mpr (reads earlier action later split)]

theorem sources_recorded_iff (mergedJson : Option INodeExecutionData → ExecuteNodeAction → String) (w : Workflow)
    (currentNode : INode) (request : EngineRequest) (runIndex : ℕ) (executionData : IExecuteData)
    (runData : SlotData) :
    RecordsFeedingSource mergedJson w currentNode request runIndex executionData runData ↔
      (CanBeHandled w request executionData → ∀ source, feedingSource executionData = some source →
        ∀ earlier action later, request.actions = earlier ++ action :: later →
          ReadsFeeding currentNode runIndex executionData runData source earlier action) := by
  constructor
  · intro records handled source feeding earlier action later split
    obtain ⟨resume, requested, scheduled⟩ := scheduled_of_handled mergedJson currentNode runIndex runData handled
    obtain ⟨nodes, prepared, rfl⟩ := nodes_of_scheduled scheduled
    have inside := (mem_requestActions prepared).mpr ⟨earlier, action, later, split, rfl⟩
    obtain ⟨found, same, items, _⟩ := (records _ _ scheduled).1 _ (mem_map_of_mem inside)
    obtain rfl := some.inj (same.symm.trans feeding)
    rw [requestAction_sources] at items
    exact sourceAfter_eq_iff.mp (items _ (mem_singleton_self _) _ (mem_singleton_self _))
  · intro reads resume requested scheduled
    have handled := handled_of_scheduled scheduled
    obtain ⟨nodes, prepared, rfl⟩ := nodes_of_scheduled scheduled
    obtain ⟨source, feeding⟩ : ∃ source, feedingSource executionData = some source :=
      isSome_iff_exists.mp (isSome_of_any handled.parent)
    have feeds := reads handled source feeding
    have sources := sources_eq_replicate prepared feeds
    refine ⟨fun node member => ⟨source, feeding, ?_⟩, fun first others firstScheduled => ?_⟩
    · have here := eq_of_mem_replicate (sources ▸ mem_map_of_mem member)
      rw [here]
      exact ⟨by simp, fun none => by rw [none]; rfl⟩
    · obtain ⟨firstNodes, firstPrepared, rfl⟩ := nodes_of_scheduled firstScheduled
      have firstFeeds : ∀ earlier action later, request.actions = earlier ++ action :: later →
          ReadsFeeding currentNode 0 executionData runData source earlier action :=
        fun earlier action later split => (feeds earlier action later split).firstRun feeding
      rw [sources, sources_eq_replicate firstPrepared firstFeeds]

/-- The entry of an agent that was run before, with what another run of `Start` fed it. -/
def secondEntry : IExecuteData :=
  ⟨some ⟨"Agent"⟩, [.items [⟨"{}"⟩]], [some ⟨"Start", 0, 1⟩], none, none⟩

/-- The tool's item is traced back to the agent itself. -/
theorem source_of_second_run_lost :
    ¬RecordsFeedingSource (fun _ _ => "{}") (agentWorkflow .v1) ⟨"Agent"⟩ toolRequest 1 secondEntry .empty := by
  intro records
  obtain ⟨source, feeding, items, _⟩ := (records _ _ rfl).1 _ mem_cons_self
  obtain rfl := some.inj feeding
  exact absurd (items _ mem_cons_self _ mem_cons_self) (by decide)

end Handling

end N8n.WorkflowExecute
