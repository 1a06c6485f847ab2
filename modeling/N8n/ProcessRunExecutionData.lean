import Mathlib.Data.List.Sort
import N8n.RetryLoop

/-! The execution loop. One iteration takes an entry off the stack, runs its node and
puts the nodes that follow on the stack; when the stack is empty at the end of the
body, the waiting nodes are scanned for one that may run with the inputs it has.
An iteration that ends the loop by itself, with an error, an exception or a node
that waits, has no next state. -/

namespace N8n.WorkflowExecute

inductive RequiredInputs
  | count (n : ℕ)
  | indexes (inputs : List ℕ)
  deriving DecidableEq

inductive OnError
  | continueErrorOutput
  | continueRegularOutput
  | stopWorkflow
  deriving DecidableEq

/-- What the loop reads of a node and of its type. `requiredInputs` is the value after
an expression has been resolved. -/
structure NodeInfo where
  disabled : Option Bool
  position : ℤ × ℤ
  inputs : ℕ
  requiredInputs : Option RequiredInputs
  continueOnFail : Bool
  onError : Option OnError
  deriving DecidableEq

structure Execution where
  workflow : Workflow
  info : String → NodeInfo
  runNodeFilter : Option (List String)
  destinationNode : Option String
  mergedJson : Option INodeExecutionData → ExecuteNodeAction → String

/-! ## Input data -/

/-- The nodes at the top of the branches that lead to a node. `checkedNodes` is shared
by all nested calls and grows with each, so `fuel` never runs out when it exceeds the
number of nodes. -/
def getHighestNode (x : Execution) : (fuel : ℕ) → (nodeName : String) →
    (nodeConnectionIndex : Option ℕ) → (checkedNodes : List String) → List String × List String
  | 0, _, _, checkedNodes => ([], checkedNodes)
  | fuel + 1, nodeName, nodeConnectionIndex, checkedNodes =>
    if !x.workflow.nodes.has nodeName then ([], checkedNodes) else
      let currentHighest := if (x.info nodeName).disabled = some false then [nodeName] else []
      match mainInputs x.workflow nodeName with
      | none => (currentHighest, checkedNodes)
      | some main =>
        if nodeName ∈ checkedNodes then (currentHighest, checkedNodes) else
          let connections := nodeConnectionIndex.elim (main.flatMap (·.getD []))
            fun index => (main[index]?).join.getD []
          connections.foldl (fun (returnNodes, checkedNodes) connection =>
            if connection.node ∈ checkedNodes then (returnNodes, checkedNodes)
            else if !x.workflow.nodes.has connection.node then (returnNodes, checkedNodes)
            else
              let found := getHighestNode x fuel connection.node none checkedNodes
              let addNodes :=
                if found.1.isEmpty ∧ (x.info connection.node).disabled ≠ some true
                then [connection.node] else found.1
              (addNodes.foldl (fun nodes name => if name ∈ nodes then nodes else nodes ++ [name])
                returnNodes, found.2)) ([], checkedNodes ++ [nodeName])

/-- The inputs from `connectionIndex` on; `false` where the entry goes back on the stack. -/
def ensureInputs (x : Execution) (nodeName : String) (main : List Slot) : (connectionIndexes : List ℕ) → Bool
  | [] => true
  | connectionIndex :: rest =>
    let highestNodes := (getHighestNode x (x.workflow.nodes.entries.length + 1) nodeName (some connectionIndex) []).1
    if highestNodes.isEmpty then true
    else if x.workflow.isLegacyExecutionOrder ∧
        (main.length < connectionIndex ∨ main[connectionIndex]? = some .null) then false
    else ensureInputs x nodeName main rest

def ensureInputData (x : Execution) (nodeName : String) (executionData : IExecuteData) : Bool :=
  ensureInputs x nodeName executionData.main (List.range (numberOfInputs x.workflow nodeName))

/-! ## The waiting-node scan -/

def allInputsRequired (info : NodeInfo) : RequiredInputs → Bool
  | .count n => n = info.inputs
  | .indexes inputs => inputs.length = info.inputs

/-- `Object.keys(...).sort()[0]`: the keys are compared as strings. -/
def firstRunIndex : List ℕ → Option ℕ
  | [] => none
  | key :: keys => some (keys.foldl (fun first key =>
      if toString key < toString first then key else first) key)

/-- Inputs that received data, be it empty. A hole is skipped like `null`. -/
def inputsWithData (main : List Slot) : List ℕ :=
  (List.range main.length).filter fun index => (main.getD index .undefined).truthy

def requiredInputsMissing (main : List Slot) : RequiredInputs → Bool
  | .count n => (inputsWithData main).length < n
  | .indexes inputs => inputs.any (· ∉ inputsWithData main)

inductive Candidate
  | skipped
  | threw
  | taken (runIndex : ℕ) (entry : WaitingEntry)
  deriving DecidableEq

def requiredInputsOf (x : Execution) (nodeName : String) : Option RequiredInputs :=
  if x.workflow.executionOrder = some .v1 then (x.info nodeName).requiredInputs else none

def candidate (x : Execution) (waitingExecution : OrderedMap String (SparseArray WaitingEntry))
    (waitingNodes : List String) (nodeName : String) : Candidate :=
  if !x.workflow.nodes.has nodeName then .skipped
  else if (requiredInputsOf x nodeName).any (allInputsRequired (x.info nodeName)) then .skipped
  else if (x.workflow.getParentNodes nodeName).any (· ∈ waitingNodes) then .skipped
  else
    let waiting := (waitingExecution.get nodeName).getD .empty
    match firstRunIndex waiting.keys with
    | none => .threw
    | some runIndex =>
      let entry := (waiting.get runIndex).getD ⟨[], []⟩
      if (requiredInputsOf x nodeName).any (requiredInputsMissing entry.main) then .skipped
      else .taken runIndex entry

def firstCandidate (x : Execution)
    (waitingExecution : OrderedMap String (SparseArray WaitingEntry)) (waitingNodes : List String) :
    List String → Option (String × Candidate)
  | [] => none
  | nodeName :: rest =>
    match candidate x waitingExecution waitingNodes nodeName with
    | .skipped => firstCandidate x waitingExecution waitingNodes rest
    | found => some (nodeName, found)

/-- An input that never received data becomes an empty array. -/
def taskDataMain (main : List Slot) : List Slot :=
  main.map fun data => if data = .null then .items [] else data

def hasItems (main : List Slot) : Bool :=
  main.any fun
    | .items data => !data.isEmpty
    | .null => false
    | .undefined => false

def padInputs (inputs : ℕ) (main : List Slot) : List Slot :=
  main ++ List.replicate (inputs - main.length) (.items [])

def removeWaiting (waitingExecution : OrderedMap String (SparseArray WaitingEntry))
    (nodeName : String) (runIndex : ℕ) : OrderedMap String (SparseArray WaitingEntry) :=
  let waiting := ((waitingExecution.get nodeName).getD .empty).delete runIndex
  if waiting.values.isEmpty then waitingExecution.delete nodeName
  else waitingExecution.set nodeName waiting

/-- An entry with items goes on the stack and ends the scan; one without items is
dropped and the scan starts again. Every restart drops an entry, so `fuel` never runs
out when it exceeds the number of entries. `none` is where the scan throws. -/
def scanWaiting (x : Execution) : (fuel : ℕ) → RunExecutionData → Option RunExecutionData
  | 0, s => some s
  | fuel + 1, s =>
    let waitingNodes := s.waitingExecution.entries.map Prod.fst
    match firstCandidate x s.waitingExecution waitingNodes waitingNodes with
    | none => some s
    | some (_, .skipped) => some s
    | some (_, .threw) => none
    | some (nodeName, .taken runIndex entry) =>
      let removed := removeWaiting s.waitingExecution nodeName runIndex
      if hasItems (taskDataMain entry.main) then
        some { s with
          nodeExecutionStack := s.nodeExecutionStack ++ [⟨x.workflow.nodes.get nodeName,
            padInputs (x.info nodeName).inputs (taskDataMain entry.main), entry.source, none, none⟩]
          waitingExecution := removed }
      else scanWaiting x fuel { s with waitingExecution := removed }

def waitingEntries (waitingExecution : OrderedMap String (SparseArray WaitingEntry)) : ℕ :=
  (waitingExecution.values.map (SparseArray.total fun _ => 1)).sum

def scan (x : Execution) (s : RunExecutionData) : Option RunExecutionData :=
  scanWaiting x (waitingEntries s.waitingExecution + 1) s

/-! ## The nodes that follow -/

def outputConnections (w : Workflow) (nodeName : String) : List (ℕ × IConnection) :=
  let main := ((w.connectionsBySourceNode.get nodeName).bind (·.get .main)).getD []
  main.zipIdx.flatMap fun output => (output.1.getD []).map fun connection => (output.2, connection)

def followed (w : Workflow) (nodeSuccessData : List Slot) (output : ℕ × IConnection) : Bool :=
  match nodeSuccessData.getD output.1 .undefined with
  | .items data => !data.isEmpty || (0 < output.2.index && w.isLegacyExecutionOrder)
  | .null => false
  | .undefined => false

/-- The order `nodesToAdd` is sorted by: bottom to top, then right to left. -/
def addedBefore (x : Execution) (a b : ℕ × IConnection) : Bool :=
  let p := (x.info a.2.node).position
  let q := (x.info b.2.node).position
  q.2 < p.2 || (q.2 = p.2 && q.1 ≤ p.1)

/-- The calls of `addNodeToBeExecuted` after a node ran, or `none` where a connection
leads to an unknown node. -/
def nextCalls (x : Execution) (nodeName : String) (nodeSuccessData : List Slot) (runIndex : ℕ) :
    Option (List Delivery) :=
  let connections := outputConnections x.workflow nodeName
  if connections.all fun output => x.workflow.nodes.has output.2.node then
    let nodesToAdd := connections.filter (followed x.workflow nodeSuccessData)
    let ordered := if x.workflow.executionOrder = some .v1
      then nodesToAdd.insertionSort (fun a b => addedBefore x a b = true) else nodesToAdd
    some (ordered.map fun output =>
      ⟨output.2, output.1, nodeName, some nodeSuccessData, runIndex, none, none⟩)
  else none

/-! ## One iteration -/

/-- How the node of an entry behaves: what the retry loops return, the item made of
the message if they end in an error, whether it was put to wait, where its output is
logged, and the requests of tries in which `handleEngineRequest` threw. -/
structure NodeRun where
  result : TriesResult
  errorItem : INodeExecutionData
  waitTill : Bool
  rewireOutputLogTo : Option NodeConnectionType
  failed : List EngineRequest
  deriving DecidableEq

/-- `dequeued` records the run slots of all entries that were taken off the stack. -/
structure LoopState where
  data : RunExecutionData
  lastExecutionTry : Option (String × ℕ)
  destinationReached : Bool
  dequeued : List (String × ℕ)
  deriving DecidableEq

def runIndexOf (runData : IRunData) (executionData : IExecuteData) (nodeName : String) : ℕ :=
  executionData.runIndex.getD ((runData.get nodeName).elim 0 List.length)

def Slot.toItems : Slot → List INodeExecutionData
  | .items data => data
  | .null => []
  | .undefined => []

/-- A run slot that was reserved is filled, else a new one is added. -/
def recordRun (runData : IRunData) (nodeName : String) (runIndex : ℕ) (task : ITaskData) : IRunData :=
  let runs := (runData.get nodeName).getD []
  runData.set nodeName (if runIndex < runs.length then runs.set runIndex task else runs ++ [task])

/-- A tool called by an agent continues unless it is told to stop. -/
def continuesOnError (info : NodeInfo) (run : NodeRun) : Bool :=
  info.continueOnFail || info.onError ∈ [some .continueRegularOutput, some .continueErrorOutput] ||
    (run.rewireOutputLogTo = some .aiTool && info.onError ≠ some .stopWorkflow)

/-- The data of a node that threw and continues: an error item for an agent, else the
first input where there is one. -/
def continuedData (run : NodeRun) (executionData : IExecuteData)
    (nodeSuccessData : Option (List Slot)) : Option (List Slot) :=
  if run.rewireOutputLogTo = some .aiTool then some [.items [run.errorItem]]
  else match executionData.main with
    | [] => nodeSuccessData
    | .null :: _ => nodeSuccessData
    | data :: _ => some [data]

def NodeRun.requests (run : NodeRun) : List EngineRequest :=
  match run.result with
  | .request request => run.failed ++ [request]
  | .noData => run.failed
  | .finished _ _ => run.failed

/-- What the node hands on, or `none` where its error stops the execution. -/
def outputData (info : NodeInfo) (run : NodeRun) (executionData : IExecuteData)
    (nodeSuccessData : Option (List Slot)) (executionError : Bool) : Option (List Slot) :=
  if executionError then
    if continuesOnError info run then continuedData run executionData nodeSuccessData else none
  else nodeSuccessData

def recordOutput (data : RunExecutionData) (nodeName : String) (runIndex : ℕ) (run : NodeRun)
    (outputs : List Slot) : RunExecutionData :=
  let output := OrderedMap.empty.set (run.rewireOutputLogTo.getD .main) (outputs.map Slot.toItems)
  { data with runData := recordRun data.runData nodeName runIndex ⟨some output⟩ }

/-- The end of the body: the nodes that follow, then the scan on an empty stack. -/
def addNextNodes (x : Execution) (data : RunExecutionData) (calls : List Delivery) :
    Option RunExecutionData :=
  let added := addNodes x.workflow data calls
  if added.threw then none
  else if added.after.nodeExecutionStack = [] ∧ added.after.waitingExecution.entries ≠ []
  then scan x added.after
  else some added.after

/-- The rest of the body after the retry loops. An output that is no array cannot be
iterated. -/
def finishNode (x : Execution) (s : LoopState) (executionData : IExecuteData) (nodeName : String)
    (runIndex : ℕ) (run : NodeRun) (nodeSuccessData : Option (List Slot)) (executionError : Bool) :
    Option LoopState :=
  (outputData (x.info nodeName) run executionData nodeSuccessData executionError).bind fun outputs =>
    if run.waitTill ∨ outputs.any (!·.truthy) then none
    else
      let recorded := recordOutput s.data nodeName runIndex run outputs
      if x.destinationNode = some nodeName then
        some { s with data := recorded, destinationReached := true }
      else
        (nextCalls x nodeName outputs runIndex).bind fun calls =>
          (addNextNodes x recorded calls).map fun data => { s with data := data }

def filtered (x : Execution) (nodeName : String) : Bool :=
  x.runNodeFilter.any fun names => nodeName ∉ names

/-- The entry is taken off the stack. -/
def shift (s : LoopState) (rest : List IExecuteData) (nodeName : String) (runIndex : ℕ) : LoopState :=
  { s with
    data := { s.data with nodeExecutionStack := rest }
    dequeued := s.dequeued ++ [(nodeName, runIndex)] }

/-- What a request that threw has put on the stack and into the run data stays there. -/
def failedTries (x : Execution) (executionNode : INode) (runIndex : ℕ) (executionData : IExecuteData) :
    List EngineRequest → RunExecutionData → Option RunExecutionData
  | [], data => some data
  | request :: requests, data =>
    let handled := handleEngineRequest x.mergedJson x.workflow data executionNode request runIndex executionData
    if handled.threw then failedTries x executionNode runIndex executionData requests handled.after else none

def iterate (x : Execution) (s : LoopState) (run : NodeRun) : Option LoopState :=
  match s.data.nodeExecutionStack with
  | [] => none
  | executionData :: rest =>
    executionData.node.bind fun executionNode =>
      let nodeName := executionNode.name
      let runIndex := runIndexOf s.data.runData executionData nodeName
      let shifted := shift s rest nodeName runIndex
      if s.lastExecutionTry = some (nodeName, runIndex) then none
      else if filtered x nodeName then some shifted
      else if !ensureInputData x nodeName executionData then
        some { shifted with
          data := { shifted.data with nodeExecutionStack := rest ++ [executionData] }
          lastExecutionTry := some (nodeName, runIndex) }
      else
        (failedTries x executionNode runIndex executionData run.failed shifted.data).bind fun data =>
          match run.result with
          | .noData => some { shifted with data := data }
          | .request request =>
            let handled := handleEngineRequest x.mergedJson x.workflow data executionNode request runIndex executionData
            if handled.threw then none else some { shifted with data := handled.after }
          | .finished nodeSuccessData executionError =>
            finishNode x { shifted with data := data } executionData nodeName runIndex run nodeSuccessData executionError

def loop (x : Execution) (start : LoopState) : TransitionSystem LoopState NodeRun where
  init := start
  step := iterate x

end N8n.WorkflowExecute
