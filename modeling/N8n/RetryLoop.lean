import N8n.RequestsResponse

/-! The two nested loops that run one entry of the stack. The outer loop counts
attempts and goes on after an exception; the inner loop goes on after a soft
failure, an item that carries `json.error`, and advances the same counter. The
recorded run data is what it is when the entry is taken off the stack, and the
outcome of every call of `runNode` is an input. -/

namespace N8n.WorkflowExecute

/-- The settings of a node that the loops read. -/
structure RetrySettings where
  retryOnFail : Bool
  maxTries : Option ℤ
  alwaysOutputData : Bool
  deriving DecidableEq

/-- `Math.min(5, Math.max(2, maxTries || 3))` for a node with retries, else one. -/
def RetrySettings.tries (node : RetrySettings) : ℕ :=
  if node.retryOnFail then
    let wanted := node.maxTries.getD 3
    (min 5 (max 2 (if wanted = 0 then 3 else wanted))).toNat
  else 1

/-- The value of `json.error` of an item, as far as `isErrorValue` tells it apart. -/
inductive JsonError
  | undefined
  | null
  | false
  | value (text : String)
  deriving DecidableEq

def isErrorValue : JsonError → Bool
  | .value _ => true
  | .undefined => Bool.false
  | .null => Bool.false
  | .false => Bool.false

/-- What one call of `runNode` does and what becomes of its result. `processed` is
the data after converting binary data, splitting error outputs and pairing items,
`none` where one of these throws; `handled` says that `handleEngineRequest` returns. -/
inductive Attempt
  | throws
  | request (request : EngineRequest) (handled : Bool)
  | response (data : Option (List Slot)) (processed : Option (Option (List Slot)))
  deriving DecidableEq

def firstItem (data : Option (List Slot)) : Option INodeExecutionData :=
  match (data.getD []).getD 0 .undefined with
  | .items items => items[0]?
  | .null => none
  | .undefined => none

structure EngineResult where
  action : ExecuteNodeAction
  data : ITaskData
  deriving DecidableEq

structure EngineResponse where
  actionResponses : List EngineResult
  metadata : String
  deriving DecidableEq

def makeEngineResponse : EngineResponse := ⟨[], "{}"⟩

def actionResponse (runData : IRunData) (subNode : SubNodeExecutionDataAction) :
    Option EngineResult := do
  let nodeRunData ← runData.get subNode.nodeName
  let data ← nodeRunData[subNode.runIndex]?
  return ⟨subNode.action, data⟩

/-- Fill the response object of the entry before a call from the outer loop. -/
def collectResponses (runData : IRunData) (metadata : Option ITaskMetadata)
    (results : EngineResponse) : EngineResponse :=
  match metadata.bind (·.subNodeExecutionData) with
  | none => results
  | some subNodeExecutionData =>
    ⟨results.actionResponses ++ subNodeExecutionData.actions.filterMap (actionResponse runData),
      subNodeExecutionData.metadata⟩

/-- What the loops share. `calls` records the last argument of every call of
`runNode`, which the inner loop leaves out. -/
structure Tries where
  tryIndex : ℕ
  subNodeExecutionResults : EngineResponse
  calls : List (Option EngineResponse)
  nodeSuccessData : Option (List Slot)
  executionError : Bool
  deriving DecidableEq

/-- How the loops are left: to the next entry with a handled request or without
data, or to the rest of the body with the data and whether the last attempt threw. -/
inductive TriesResult
  | request (request : EngineRequest)
  | noData
  | finished (nodeSuccessData : Option (List Slot)) (executionError : Bool)
  deriving DecidableEq

structure TriesInput where
  node : RetrySettings
  pinData : Option (List INodeExecutionData)
  metadata : Option ITaskMetadata
  runData : IRunData
  /-- `json.error` of an item -/
  jsonError : INodeExecutionData → JsonError
  /-- the outcomes of the successive calls of `runNode` -/
  outcome : ℕ → Attempt
  /-- the node put the execution to wait -/
  waitTill : Bool

namespace TriesInput

variable (input : TriesInput)

def checkFailure : Attempt → Bool
  | .throws => false
  | .request _ _ => false
  | .response data _ => (firstItem data).any fun item => isErrorValue (input.jsonError item)

/-- `while (nodeFailed && tryIndex !== maxTries - 1)`, with the tries left before the
last one as the recursion argument. A call that throws leaves before `tryIndex++`. -/
def retrySoftFailures : (left : ℕ) → Tries → Attempt → Tries × Attempt
  | 0, t, runNodeData => (t, runNodeData)
  | left + 1, t, runNodeData =>
    if input.checkFailure runNodeData then
      let called := { t with calls := t.calls ++ [none] }
      match input.outcome t.calls.length with
      | .throws => (called, .throws)
      | next => retrySoftFailures left { called with tryIndex := t.tryIndex + 1 } next
    else (t, runNodeData)

/-- The end of a try that did not throw. -/
def finishTry (t : Tries) : Tries × TriesResult :=
  let nodeSuccessData :=
    if (firstItem t.nodeSuccessData).isNone ∧ input.node.alwaysOutputData
    then some (assignAt .undefined (t.nodeSuccessData.getD []) 0 (.items [emptyItem]))
    else t.nodeSuccessData
  let finished := { t with nodeSuccessData := nodeSuccessData }
  if nodeSuccessData = none ∧ ¬input.waitTill then (finished, .noData)
  else (finished, .finished nodeSuccessData t.executionError)

/-- What follows the inner loop, with no result where the attempt threw. -/
def settle (t : Tries) : Attempt → Tries × Option TriesResult
  | .throws => (t, none)
  | .request request handled => (t, if handled then some (.request request) else none)
  | .response _ none => (t, none)
  | .response _ (some data) =>
    let finished := input.finishTry { t with nodeSuccessData := data }
    (finished.1, some finished.2)

/-- The body of the outer loop up to the `catch`. -/
def tryNode (t : Tries) : Tries × Option TriesResult :=
  match input.pinData with
  | some nodePinData =>
    let finished := input.finishTry { t with nodeSuccessData := some [.items nodePinData] }
    (finished.1, some finished.2)
  | none =>
    let results := collectResponses input.runData input.metadata t.subNodeExecutionResults
    let called := { t with subNodeExecutionResults := results, calls := t.calls ++ [some results] }
    let retried := input.retrySoftFailures (input.node.tries - 1 - t.tryIndex) called (input.outcome t.calls.length)
    input.settle retried.1 retried.2

/-- Every round advances `tryIndex`, so as many rounds as tries are enough. -/
def tryLoop : (rounds : ℕ) → Tries → Tries × TriesResult
  | 0, t => (t, .finished t.nodeSuccessData t.executionError)
  | rounds + 1, t =>
    if t.tryIndex < input.node.tries then
      let tried := input.tryNode { t with executionError := false }
      match tried.2 with
      | some result => (tried.1, result)
      | none => tryLoop rounds { tried.1 with tryIndex := tried.1.tryIndex + 1, executionError := true }
    else (t, .finished t.nodeSuccessData t.executionError)

def runTries : Tries × TriesResult :=
  input.tryLoop input.node.tries ⟨0, makeEngineResponse, [], none, false⟩

end TriesInput

end N8n.WorkflowExecute
