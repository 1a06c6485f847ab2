import Mathlib.Logic.Function.Iterate
import N8n.OrderedMap
import N8n.TransitionSystem

/-! The task runner. It offers to run tasks as long as its open offers and running tasks
leave room, and a broker message, a timer or the end of an execution each is one step.
The task states live in a heap: the map of running tasks and a running execution share
them, and an execution keeps its own task even when another one has taken its entry.
Requests for data and the settings are part of executing a task and not modelled. -/

namespace N8n

inductive TaskStatus where
  | waitingForSettings
  | running
  | abortingCancelled
  | abortingTimeout
  deriving DecidableEq

/-- `timeoutTimer` says whether the field is set: the constructor sets it, only `cleanup`
unsets it. -/
structure TaskState where
  taskId : String
  status : TaskStatus
  timeoutTimer : Bool
  deriving DecidableEq

def TaskState.new (taskId : String) : TaskState := ⟨taskId, .waitingForSettings, true⟩

def TaskState.cleanup (taskState : TaskState) : TaskState := { taskState with timeoutTimer := false }

structure TaskOffer where
  offerId : String
  validUntil : ℕ
  deriving DecidableEq

/-- `Data` is what executions return and throw. -/
inductive TaskError (Data : Type*) where
  | timedOut (taskTimeout : ℕ)
  | thrown (error : Data)
  | notSerializable
  | unexpectedTaskStatus (taskState : TaskState)
  deriving DecidableEq

/-- `taskDone` and `taskError` also say which task they end; the broker only sees its id. -/
inductive RunnerMessage (Data : Type*) where
  | info (name : String) (types : List String)
  | taskOffer (taskType offerId : String) (validFor : ℕ)
  | taskAccepted (taskId : String)
  | taskRejected (taskId reason : String)
  | taskDone (task : ℕ) (taskId : String) (data : Data)
  | taskError (task : ℕ) (taskId : String) (error : TaskError Data)
  deriving DecidableEq

/-- A task is its place in the heap. `timers` are the tasks whose timeout is pending,
`executions` those whose `executeTask` has not settled. -/
structure TaskRunner (Data : Type*) where
  canSendOffers : Bool
  runningTasks : OrderedMap String ℕ
  offerInterval : Bool
  openOffers : OrderedMap String TaskOffer
  isShuttingDown : Bool
  idleTimer : Bool
  tasks : List TaskState
  timers : List ℕ
  executions : List ℕ
  offersMade : ℕ
  sent : List (RunnerMessage Data)
  reachedIdleTimeout : Bool
  exited : Bool
  deriving DecidableEq

namespace TaskRunner

/-- The options, and what the calls of `nanoid` and `randomInt` for each offer return. -/
structure Config where
  name : String
  taskType : String
  maxConcurrency : ℕ
  taskTimeout : ℕ
  idleTimeout : ℕ
  nanoid : ℕ → String
  randomInt : ℕ → ℕ

def OFFER_VALID_TIME_MS : ℕ := 5000

def OFFER_VALID_EXTRA_MS : ℕ := 100

def msToNs (ms : ℕ) : ℕ := ms * 1000000

variable {Data : Type*}

def send (message : RunnerMessage Data) (s : TaskRunner Data) : TaskRunner Data :=
  { s with sent := s.sent ++ [message] }

def resetIdleTimer (cfg : Config) (s : TaskRunner Data) : TaskRunner Data :=
  if cfg.idleTimeout = 0 then s else { s with idleTimer := true }

def stopTaskOffers (s : TaskRunner Data) : TaskRunner Data :=
  { s with canSendOffers := false, offerInterval := false }

def startTaskOffers (s : TaskRunner Data) : TaskRunner Data :=
  { s with canSendOffers := true, offerInterval := true }

def deleteStaleOffers (now : ℕ) (s : TaskRunner Data) : TaskRunner Data :=
  { s with openOffers := s.openOffers.filter fun offer => !decide (offer.validUntil < now) }

def sendOffer (cfg : Config) (now : ℕ) (s : TaskRunner Data) : TaskRunner Data :=
  let validForInMs := OFFER_VALID_TIME_MS + cfg.randomInt s.offersMade
  let validUntil := now + msToNs (validForInMs + OFFER_VALID_EXTRA_MS)
  let offerId := cfg.nanoid s.offersMade
  send (.taskOffer cfg.taskType offerId validForInMs) { s with
      offersMade := s.offersMade + 1
      openOffers := s.openOffers.set offerId ⟨offerId, validUntil⟩ }

def sendOffers (cfg : Config) (now : ℕ) (s : TaskRunner Data) : TaskRunner Data :=
  let s := s.deleteStaleOffers now
  let offersToSend := cfg.maxConcurrency - (s.openOffers.size + s.runningTasks.size)
  if s.canSendOffers then (sendOffer cfg now)^[offersToSend] s else s

def hasOpenTaskSlots (cfg : Config) (s : TaskRunner Data) : Bool :=
  s.runningTasks.size < cfg.maxConcurrency

def offerAccepted (cfg : Config) (offerId taskId : String) (s : TaskRunner Data) : TaskRunner Data :=
  if s.isShuttingDown then s.send (.taskRejected taskId "Runner is shutting down")
  else if !s.hasOpenTaskSlots cfg then
    { s with openOffers := s.openOffers.delete offerId }.send
      (.taskRejected taskId "No open task slots - runner already at capacity")
  else if !s.openOffers.has offerId then
    s.send (.taskRejected taskId "Offer expired - not accepted within validity window")
  else
    let s := { s with openOffers := s.openOffers.delete offerId }.resetIdleTimer cfg
    let task := s.tasks.length
    { s with
      tasks := s.tasks ++ [TaskState.new taskId]
      timers := s.timers ++ [task]
      runningTasks := s.runningTasks.set taskId task }.send (.taskAccepted taskId)

def runningTask (s : TaskRunner Data) (taskId : String) : Option (ℕ × TaskState) := do
  let task ← s.runningTasks.get taskId
  let taskState ← s.tasks[task]?
  return (task, taskState)

def setStatus (task : ℕ) (status : TaskStatus) (s : TaskRunner Data) : TaskRunner Data :=
  { s with tasks := s.tasks.modify task fun taskState => { taskState with status } }

def finishTask (cfg : Config) (now task : ℕ) (taskId : String) (s : TaskRunner Data) :
    TaskRunner Data :=
  resetIdleTimer cfg (sendOffers cfg now { s with
      tasks := s.tasks.modify task TaskState.cleanup
      timers := s.timers.erase task
      runningTasks := s.runningTasks.delete taskId })

def taskCancelled (cfg : Config) (now : ℕ) (taskId : String) (s : TaskRunner Data) :
    TaskRunner Data :=
  match s.runningTask taskId with
  | none => s
  | some (task, taskState) =>
    match taskState.status with
    | .waitingForSettings => s.finishTask cfg now task taskState.taskId
    | .abortingTimeout => s
    | .abortingCancelled => s
    | .running => s.setStatus task .abortingCancelled

/-- A second timeout throws, and nothing has changed by then. -/
def taskTimedOut (cfg : Config) (now : ℕ) (taskId : String) (s : TaskRunner Data) :
    TaskRunner Data :=
  match s.runningTask taskId with
  | none => s
  | some (task, taskState) =>
    match taskState.status with
    | .waitingForSettings =>
      (s.send (.taskError task taskId (.timedOut cfg.taskTimeout))).finishTask cfg now task taskState.taskId
    | .abortingTimeout => s
    | .running => s.setStatus task .abortingTimeout
    | .abortingCancelled => s

def receivedSettings (taskId : String) (s : TaskRunner Data) : TaskRunner Data :=
  match s.runningTask taskId with
  | none => s
  | some (task, taskState) =>
    match taskState.status with
    | .waitingForSettings =>
      { s.setStatus task .running with executions := s.executions ++ [task] }
    | _ => s

/-- Also the error it rejects with. `serializable` says whether the message can be turned
into JSON. -/
def taskExecutionSucceeded (cfg : Config) (now task : ℕ) (taskState : TaskState) (data : Data)
    (serializable : Bool) (s : TaskRunner Data) : TaskRunner Data × Option (TaskError Data) :=
  match taskState.status, serializable with
  | .waitingForSettings, _ =>
    (s.finishTask cfg now task taskState.taskId, some (.unexpectedTaskStatus taskState))
  | .abortingCancelled, _ => (s.finishTask cfg now task taskState.taskId, none)
  | _, true =>
    ((s.send (.taskDone task taskState.taskId data)).finishTask cfg now task taskState.taskId, none)
  | _, false => (s.finishTask cfg now task taskState.taskId, some .notSerializable)

def taskExecutionFailed (cfg : Config) (now task : ℕ) (taskState : TaskState)
    (error : TaskError Data) (serializable : Bool) (s : TaskRunner Data) : TaskRunner Data :=
  match taskState.status, serializable with
  | .waitingForSettings, _ => s.finishTask cfg now task taskState.taskId
  | .abortingCancelled, _ => s.finishTask cfg now task taskState.taskId
  | _, true =>
    (s.send (.taskError task taskState.taskId error)).finishTask cfg now task taskState.taskId
  | _, false => s.finishTask cfg now task taskState.taskId

/-- The handlers behind `executeTask`: the second one also catches what the first throws. -/
def executionSettled (cfg : Config) (now task : ℕ) (taskState : TaskState)
    (outcome : Except Data Data) (serializable : Bool) (s : TaskRunner Data) : TaskRunner Data :=
  let s := { s with executions := s.executions.erase task }
  match outcome with
  | .error error => s.taskExecutionFailed cfg now task taskState (.thrown error) serializable
  | .ok data =>
    match s.taskExecutionSucceeded cfg now task taskState data serializable with
    | (s, none) => s
    | (s, some error) => s.taskExecutionFailed cfg now task taskState error true

def stop (s : TaskRunner Data) : TaskRunner Data :=
  { { s with isShuttingDown := true, idleTimer := false }.stopTaskOffers with openOffers := .empty }

def onConnectionClose (s : TaskRunner Data) : TaskRunner Data :=
  let s := s.stopTaskOffers
  if s.isShuttingDown then s else { s with exited := true }

def idleTimeoutReached (s : TaskRunner Data) : TaskRunner Data :=
  if s.runningTasks.size = 0 then { s with reachedIdleTimeout := true } else s

/-- The broker's messages, the timers, the end of an execution, and what the process does. -/
inductive Event (Data : Type*) where
  | infoRequest
  | runnerRegistered
  | taskOfferAccept (offerId taskId : String)
  | taskCancel (taskId : String)
  | taskSettings (taskId : String)
  | drain
  | offerIntervalFired
  | taskTimeoutFired (task : ℕ)
  | idleTimerFired
  | executionSettled (task : ℕ) (outcome : Except Data Data) (serializable : Bool)
  | stop
  | connectionClosed

/-- A step and the reading of the clock it uses. -/
def step (cfg : Config) (s : TaskRunner Data) : ℕ × Event Data → Option (TaskRunner Data)
  | (now, e) =>
    if s.exited then none
    else match e with
    | .infoRequest => some (s.send (.info cfg.name [cfg.taskType]))
    | .runnerRegistered => some s.startTaskOffers
    | .taskOfferAccept offerId taskId => some (s.offerAccepted cfg offerId taskId)
    | .taskCancel taskId => some (s.taskCancelled cfg now taskId)
    | .taskSettings taskId => some (s.receivedSettings taskId)
    | .drain => some s.stopTaskOffers
    | .offerIntervalFired => if s.offerInterval then some (s.sendOffers cfg now) else none
    | .taskTimeoutFired task =>
      if task ∈ s.timers then (s.tasks[task]?).map fun taskState =>
        { s with timers := s.timers.erase task }.taskTimedOut cfg now taskState.taskId
      else none
    | .idleTimerFired =>
      if s.idleTimer then some { s with idleTimer := false }.idleTimeoutReached else none
    | .executionSettled task outcome serializable =>
      if task ∈ s.executions then (s.tasks[task]?).map fun taskState =>
        s.executionSettled cfg now task taskState outcome serializable
      else none
    | .stop => some s.stop
    | .connectionClosed => some s.onConnectionClose

def created (cfg : Config) : TaskRunner Data :=
  resetIdleTimer cfg ⟨false, .empty, false, .empty, false, false, [], [], [], 0, [], false, false⟩

def system (cfg : Config) (Data : Type*) : TransitionSystem (TaskRunner Data) (ℕ × Event Data) :=
  ⟨created cfg, step cfg⟩

end TaskRunner

end N8n
