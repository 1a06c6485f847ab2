import N8n.SparseArray
import N8n.TransitionSystem
import N8n.Workflow

/-! How the execution engine hands the output of a node to the next one. A node
with several connected main inputs collects its inputs in a waiting entry and
goes on the stack when no input of the entry is `null` any more; any other node
goes on the stack at once.
`waitingExecution` and `waitingExecutionSource` are always written and deleted
together, so an entry here holds both of its arrays. The engine throws where it
reads a property of an undefined value; `threw` marks such a call and the state
is the one it leaves behind. -/

namespace N8n.WorkflowExecute

structure INodeExecutionData where
  json : String
  deriving DecidableEq

/-- One input of an entry. An assignment past the end of an array leaves
`undefined` holes behind. -/
inductive Slot
  | undefined
  | null
  | items (data : List INodeExecutionData)
  deriving DecidableEq

def Slot.truthy : Slot → Bool
  | .items _ => true
  | .null => false
  | .undefined => false

/-- The last run of a parent with an empty list of runs is `-1`. -/
structure ISourceData where
  previousNode : String
  previousNodeOutput : ℕ
  previousNodeRun : ℤ
  deriving DecidableEq

/-- The part of an action's metadata that the engine reads. -/
structure ActionMetadata where
  parentNodeName : Option String
  itemIndex : Option ℕ
  deriving DecidableEq

/-- The input of an action is a JSON object, kept as its text. -/
structure ExecuteNodeAction where
  nodeName : String
  input : String
  type : NodeConnectionType
  id : String
  metadata : Option ActionMetadata
  deriving DecidableEq

structure SubNodeExecutionDataAction where
  action : ExecuteNodeAction
  nodeName : String
  runIndex : ℕ
  deriving DecidableEq

structure SubNodeExecutionData where
  actions : List SubNodeExecutionDataAction
  metadata : String
  deriving DecidableEq

structure ITaskMetadata where
  nodeWasResumed : Bool
  subNodeExecutionData : Option SubNodeExecutionData
  preserveSourceOverwrite : Bool
  preservedSourceOverwrite : Option ISourceData
  deriving DecidableEq

structure WaitingEntry where
  main : List Slot
  source : List (Option ISourceData)
  deriving DecidableEq

structure IExecuteData where
  node : Option INode
  main : List Slot
  source : List (Option ISourceData)
  runIndex : Option ℕ
  metadata : Option ITaskMetadata
  deriving DecidableEq

abbrev ITaskDataConnections := OrderedMap NodeConnectionType (List (List INodeExecutionData))

structure ITaskData where
  data : Option ITaskDataConnections
  deriving DecidableEq

abbrev IRunData := OrderedMap String (List ITaskData)

structure RunExecutionData where
  runData : IRunData
  nodeExecutionStack : List IExecuteData
  waitingExecution : OrderedMap String (SparseArray WaitingEntry)
  deriving DecidableEq

/-- The arguments of one call. `nodeSuccessData` is `none` where the source passes
`null`; a single output may be `null` too. -/
structure Delivery where
  connectionData : IConnection
  outputIndex : ℕ
  parentNodeName : String
  nodeSuccessData : Option (List Slot)
  runIndex : ℤ
  newRunIndex : Option ℕ
  metadata : Option ITaskMetadata
  deriving DecidableEq

namespace Delivery

def slot (c : Delivery) : Slot :=
  match c.nodeSuccessData with
  | none => .null
  | some outputs => outputs.getD c.outputIndex .undefined

def sourceData (c : Delivery) : ISourceData := ⟨c.parentNodeName, c.outputIndex, c.runIndex⟩

def source (c : Delivery) : Option ISourceData := c.nodeSuccessData.map fun _ => c.sourceData

end Delivery

def mainInputs (w : Workflow) (node : String) : Option NodeInputConnections :=
  (w.connectionsByDestinationNode.get node).bind (·.get .main)

def numberOfInputs (w : Workflow) (node : String) : ℕ := (mainInputs w node).elim 0 List.length

def enqueueFn (w : Workflow) (stack : List IExecuteData) (item : IExecuteData) :
    List IExecuteData :=
  if w.executionOrder = some .v1 then item :: stack else stack ++ [item]

/-- No connection of the list delivered an item in the given run. -/
def incomingConnectionIsEmpty (runData : IRunData) (inputConnections : List IConnection) (runIndex : ℤ) : Bool :=
  inputConnections.all fun connection =>
    let nodeIncomingData := do
      let runs ← runData.get connection.node
      let task ← if runIndex < 0 then none else runs[runIndex.toNat]?
      let data ← task.data
      let main ← data.get .main
      main[connection.index]?
    nodeIncomingData.all List.isEmpty

def emptyEntry (numberOfConnections : ℕ) : WaitingEntry :=
  ⟨List.replicate numberOfConnections .null, List.replicate numberOfConnections none⟩

def prepareWaitingToExecution (waiting : SparseArray WaitingEntry) (numberOfConnections runIndex : ℕ) :
    SparseArray WaitingEntry :=
  waiting.set runIndex (emptyEntry numberOfConnections)

/-! ## Starting the nodes that feed the other inputs -/

/-- The names of all nodes that the parent is connected to, or `none` where the
parent has no connections and the source throws. -/
def checkOutputNodes (w : Workflow) (parentNodeName : String) : Option (List String) :=
  (w.connectionsBySourceNode.get parentNodeName).map fun connections =>
    (((connections.get .main).getD []).flatMap (·.getD [])).map (·.node)

/-- The connections of the first main input, or `none` where the source throws. -/
def firstInput (w : Workflow) (node : String) : Option (List IConnection) :=
  (mainInputs w node).map fun main => (main[0]?).join.getD []

/-- Walk from the far ancestors of an input node towards it and keep the first one
that neither ran nor will run anyway. -/
def findNodeToAdd (runData : IRunData) (inputNode : String) (outputNodes executionStackNodes : List String) :
    (nodeToAdd : Option String) → (parentNodes : List String) → Option String
  | nodeToAdd, [] => nodeToAdd
  | nodeToAdd, parentNode :: rest =>
    if inputNode ≠ parentNode ∧ parentNode ∈ outputNodes then none
    else if parentNode ∈ executionStackNodes then none
    else if runData.has parentNode then nodeToAdd
    else findNodeToAdd runData inputNode outputNodes executionStackNodes (some parentNode) rest

def emptyItem : INodeExecutionData := ⟨"{}"⟩

def startItem (w : Workflow) (c : Delivery) (nodeToAdd : String) : IExecuteData :=
  ⟨w.getNode nodeToAdd, [.items [emptyItem]], [some c.sourceData], none, none⟩

/-- The node to start for one connection of another input, if any. The outer `none`
is where the source throws. -/
def nodeToStart (w : Workflow) (runData : IRunData) (c : Delivery) (outputNodes : List String)
    (stack : List IExecuteData) (inputData : IConnection) : Option (Option String) := do
  if inputData.node = c.parentNodeName then return none
  let executionStackNodes ← stack.mapM fun item => item.node.map (·.name)
  if inputData.node ∈ outputNodes then
    let connections ← firstInput w inputData.node
    if !incomingConnectionIsEmpty runData connections c.runIndex then return none
  if inputData.node ∈ executionStackNodes then return none
  if runData.has inputData.node then return none
  if !w.isLegacyExecutionOrder then return none
  let parentNodes := (w.getParentNodes inputData.node ++ [inputData.node]).reverse
  let nodeToAdd := findNodeToAdd runData inputData.node outputNodes executionStackNodes
    (some inputData.node) parentNodes
  -- an undefined name is looked up as the string "undefined"
  if c.parentNodeName ∈ w.getParentNodes (nodeToAdd.getD "undefined") then
    let .items data := c.slot | none
    if data.isEmpty then return none
  match nodeToAdd with
  | none => return none
  | some name =>
    if w.connectionsByDestinationNode.has name then
      let connections ← firstInput w name
      return if incomingConnectionIsEmpty runData connections c.runIndex then some name else none
    else return some name

def checkInput (w : Workflow) (runData : IRunData) (c : Delivery) (outputNodes : List String)
    (stack : List IExecuteData) (inputData : IConnection) : Option (List IExecuteData) :=
  (nodeToStart w runData c outputNodes stack inputData).map fun nodeToAdd =>
    nodeToAdd.elim stack fun name => enqueueFn w stack (startItem w c name)

def checkInputs (w : Workflow) (runData : IRunData) (c : Delivery) (outputNodes : List String) :
    List IConnection → List IExecuteData → List IExecuteData × Bool
  | [], stack => (stack, false)
  | inputData :: rest, stack =>
    match checkInput w runData c outputNodes stack inputData with
    | none => (stack, true)
    | some stack' => checkInputs w runData c outputNodes rest stack'

/-- The first time a node waits, the nodes that feed its other inputs are started
in the legacy order where nothing else would start them. -/
def checkSiblings (w : Workflow) (runData : IRunData) (c : Delivery)
    (stack : List IExecuteData) : List IExecuteData × Bool :=
  match checkOutputNodes w c.parentNodeName with
  | none => (stack, true)
  | some outputNodes =>
    checkInputs w runData c outputNodes (((mainInputs w c.connectionData.node).getD []).flatMap (·.getD [])) stack

/-! ## The call -/

structure Outcome where
  after : RunExecutionData
  threw : Bool

def partialEntry (waiting : SparseArray WaitingEntry) (index : ℕ) : Option ℕ :=
  waiting.findKey fun entry => !(entry.main.getD index .undefined).truthy

def waitingNodeIndex (waiting : SparseArray WaitingEntry) (index : ℕ) : ℕ :=
  (partialEntry waiting index).getD waiting.values.length

/-- The waiting entries with the one that takes the new data in place. -/
def preparedWaiting (waiting : SparseArray WaitingEntry) (numberOfConnections index : ℕ) :
    SparseArray WaitingEntry :=
  if (partialEntry waiting index).isSome then waiting
  else prepareWaitingToExecution waiting numberOfConnections (waitingNodeIndex waiting index)

def addData (entry : WaitingEntry) (c : Delivery) : WaitingEntry :=
  ⟨assignAt .undefined entry.main c.connectionData.index c.slot,
    assignAt none entry.source c.connectionData.index c.source⟩

def addNodeToBeExecuted (w : Workflow) (s : RunExecutionData) (c : Delivery) : Outcome :=
  let node := c.connectionData.node
  let index := c.connectionData.index
  let numberOfConnections := numberOfInputs w node
  if 1 < numberOfConnections then
    let nodeWasWaiting := s.waitingExecution.has node
    let waiting := (s.waitingExecution.get node).getD .empty
    let key := waitingNodeIndex waiting index
    let waiting := preparedWaiting waiting numberOfConnections index
    let entry := addData ((waiting.get key).getD ⟨[], []⟩) c
    let waiting := waiting.set key entry
    if entry.main.all (· ≠ .null) then
      let waiting := waiting.delete key
      ⟨{ s with
        nodeExecutionStack := enqueueFn w s.nodeExecutionStack ⟨w.nodes.get node, entry.main, entry.source, none, none⟩
        waitingExecution := if waiting.values.isEmpty then s.waitingExecution.delete node
          else s.waitingExecution.set node waiting }, false⟩
    else
      let scan := if nodeWasWaiting then (s.nodeExecutionStack, false)
        else checkSiblings w s.runData c s.nodeExecutionStack
      if scan.2 then
        ⟨{ s with
          nodeExecutionStack := scan.1
          waitingExecution := s.waitingExecution.set node waiting }, true⟩
      else
        let connectionDataArray := assignAt .undefined entry.main index c.slot
        let waiting := prepareWaitingToExecution waiting numberOfConnections key
        let waiting := waiting.set key ⟨connectionDataArray, entry.source⟩
        ⟨{ s with
          nodeExecutionStack := scan.1
          waitingExecution := s.waitingExecution.set node waiting }, false⟩
  else
    let connectionDataArray := assignAt .undefined (List.replicate (index + 1) .null) index c.slot
    if w.nodes.has node then
      ⟨{ s with
        nodeExecutionStack := enqueueFn w s.nodeExecutionStack
          ⟨w.nodes.get node, connectionDataArray, [some c.sourceData], c.newRunIndex, c.metadata⟩ }, false⟩
    else ⟨s, false⟩

end N8n.WorkflowExecute
