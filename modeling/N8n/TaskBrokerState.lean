import N8n.OrderedMap

/-! The messages and the state of the task broker, which pairs task requests with
the offers of task runners and relays what the two sides say about a task.

A handler runs without interruption up to its next `await`. What is left of it
there is a `Frame`, so the state holds every suspended handler. Two promises are
awaited besides the sends: the answer of the runner to an accepted offer and the
answer of the requester to a ready task. They are settled by handlers and by
timers and belong to one call of `acceptOffer`, so they are kept in its frame.
The callbacks that deliver messages do not fail, as the registered ones do not.
`log` is the history of events and messages, newest first; no handler reads it.
Logging, and the fields of a runner that only logging reads, are left out. -/

namespace N8n.TaskBroker

inductive TaskRunnerMode
  | internal
  | external
  deriving DecidableEq

/-- The constructor of the broker throws on a task timeout that is not positive.
`nanoid n` is the n-th generated task id; generated ids do not repeat. -/
structure Config where
  mode : TaskRunnerMode
  taskTimeout : ℕ
  taskTimeout_pos : 0 < taskTimeout
  isSelfHosted : Bool
  nanoid : ℕ → String
  nanoid_injective : Function.Injective nanoid

inductive BrokerError
  | taskReject (reason : String)
  | taskDeferred
  | taskRunnerAcceptTimeout (taskId runnerId : String)
  | requesterTimedOut
  | runnerNotFound (runnerId : String)
  | taskRunnerExecutionTimeout (taskTimeout : ℕ) (isSelfHosted : Bool) (mode : TaskRunnerMode)
  | foreign (message : String)
  deriving DecidableEq

def BrokerError.message : BrokerError → String
  | .taskReject reason => "Task rejected with reason: " ++ reason
  | .taskDeferred => "Task deferred until runner is ready"
  | .taskRunnerAcceptTimeout taskId runnerId =>
    "Runner (" ++ runnerId ++ ") took too long to acknowledge acceptance of task (" ++ taskId ++ ")"
  | .requesterTimedOut => "Requester timed out"
  | .runnerNotFound runnerId => "Cannot find runner, failed to find runner (" ++ runnerId ++ ")"
  | .taskRunnerExecutionTimeout taskTimeout _ _ =>
    "Task execution timed out after " ++ toString taskTimeout ++ " " ++
      if taskTimeout = 1 then "second" else "seconds"
  | .foreign message => message

/-! ## Messages -/

inductive RpcStatus
  | success
  | error
  deriving DecidableEq

inductive ExpiryReason
  | timeout
  | draining
  deriving DecidableEq

namespace BrokerMessage

inductive ToRunner
  | runnerRegistered
  | taskOfferAccept (taskId offerId : String)
  | taskCancel (taskId reason : String)
  | taskSettings (taskId settings : String)
  | rpcResponse (taskId callId : String) (status : RpcStatus) (data : String)
  | taskDataResponse (taskId requestId data : String)
  | nodeTypes (taskId requestId nodeTypes : String)
  deriving DecidableEq

inductive ToRequester
  | taskReady (requestId taskId : String)
  | taskDone (taskId data : String)
  | taskError (taskId : String) (error : BrokerError)
  | requestExpired (requestId : String) (reason : ExpiryReason)
  | taskDataRequest (taskId requestId requestParams : String)
  | nodeTypesRequest (taskId requestId requestParams : String)
  | rpc (taskId callId name params : String)
  deriving DecidableEq

end BrokerMessage

open BrokerMessage

inductive RunnerMessage
  | info (name : String) (types : List String)
  | taskAccepted (taskId : String)
  | taskRejected (taskId reason : String)
  | taskDeferred (taskId : String)
  | taskDone (taskId data : String)
  | taskError (taskId error : String)
  | taskOffer (offerId taskType : String) (validFor : Int)
  | taskDataRequest (taskId requestId requestParams : String)
  | nodeTypesRequest (taskId requestId requestParams : String)
  | rpc (taskId callId name params : String)
  deriving DecidableEq

inductive RequesterMessage
  | taskSettings (taskId settings : String)
  | taskCancel (taskId reason : String)
  | taskRequest (requestId taskType : String)
  | taskDataResponse (taskId requestId data : String)
  | nodeTypesResponse (taskId requestId nodeTypes : String)
  | rpcResponse (taskId callId : String) (status : RpcStatus) (data : String)
  deriving DecidableEq

structure TaskRunner where
  id : String
  taskTypes : List String
  deriving DecidableEq

/-- What happens to the broker from outside, and the choice of the scheduler: which
pending timer fires, which suspended handler goes on, and how far the clock moves. -/
inductive Event
  | registerRunner (runner : TaskRunner)
  | deregisterRunner (runnerId : String) (error : BrokerError)
  | registerRequester (requesterId : String)
  | deregisterRequester (requesterId : String)
  | runnerMessage (runnerId : String) (message : RunnerMessage)
  | requesterMessage (requesterId : String) (message : RequesterMessage)
  | requesterReject (taskId reason : String)
  | startDraining
  | fire (timer : ℕ)
  | resume (frame : ℕ)
  | tick (elapsed : ℕ)
  deriving DecidableEq

inductive Entry
  | received (event : Event)
  | toRunner (runnerId : String) (message : ToRunner)
  | toRequester (requesterId : String) (message : ToRequester)
  | timedOutDuringTask
  deriving DecidableEq

/-! ## State -/

structure Task where
  id : String
  runnerId : String
  requesterId : String
  taskType : String
  timeout : Option ℕ
  deriving DecidableEq

structure TaskOffer where
  offerId : String
  runnerId : String
  taskType : String
  validFor : Int
  validUntil : Int
  deriving DecidableEq

/-- `ref` is the identity of the request object, which the list of pending requests
shares with a running `acceptOffer`. -/
structure TaskRequest where
  ref : ℕ
  requestId : String
  requesterId : String
  taskType : String
  timeout : Option ℕ
  acceptInProgress : Bool
  deriving DecidableEq

structure Accept where
  taskId : String
  offer : TaskOffer
  request : TaskRequest
  deriving DecidableEq

def Accept.task (accept : Accept) : Task where
  id := accept.taskId
  runnerId := accept.offer.runnerId
  requesterId := accept.request.requesterId
  taskType := accept.offer.taskType
  timeout := none

inductive RunnerAnswer
  | accepted
  | rejected (error : BrokerError)
  deriving DecidableEq

inductive RequesterAnswer
  | settings (settings : String)
  | rejected (error : BrokerError)
  deriving DecidableEq

inductive Phase
  | offerSent (answer : Option RunnerAnswer)
  | awaitingRunner (answer : Option RunnerAnswer)
  | readySent (answer : Option RequesterAnswer)
  | awaitingRequester (answer : Option RequesterAnswer)
  | gotRunner (runnerId settings : String)
  | settingsSent
  | runnerMissing
  | cancelSent
  deriving DecidableEq

/-- A suspended handler. `finishing` has nothing left to do once its send is over. -/
inductive Frame
  | finishing
  | terminalSent (taskId : String)
  | timeoutCancelSent (taskId : String)
  | respond (runnerId : String) (message : ToRunner)
  | accepting (accept : Accept) (phase : Phase)
  deriving DecidableEq

inductive Timer
  | request (requestId : String)
  | runnerAccept (taskId runnerId : String)
  | requesterAccept (taskId : String)
  | task (taskId : String)
  deriving DecidableEq

structure Broker where
  knownRunners : OrderedMap String TaskRunner
  requesters : List String
  tasks : OrderedMap String Task
  isDraining : Bool
  runnerAcceptRejects : List String
  requesterAcceptRejects : List String
  pendingTaskOffers : List TaskOffer
  pendingTaskRequests : List TaskRequest
  mismatchWarned : List String
  timers : List (ℕ × Timer)
  nextTimer : ℕ
  nextTask : ℕ
  nextRef : ℕ
  now : Int
  frames : List Frame
  log : List Entry
  deriving DecidableEq

def Broker.start : Broker where
  knownRunners := .empty
  requesters := []
  tasks := .empty
  isDraining := false
  runnerAcceptRejects := []
  requesterAcceptRejects := []
  pendingTaskOffers := []
  pendingTaskRequests := []
  mismatchWarned := []
  timers := []
  nextTimer := 0
  nextTask := 0
  nextRef := 0
  now := 0
  frames := []
  log := []

end N8n.TaskBroker
