import N8n.TaskBrokerState
import N8n.TransitionSystem

/-! The handlers of the task broker, each up to its next `await`, and the step that
runs one of them. A send reaches only a registered party. `handleResponse` and
`handleRequesterReject` are public methods that no message is dispatched to. -/

namespace N8n.TaskBroker

open BrokerMessage

namespace Broker

/-! ## Sends, timers and suspension -/

def messageRunner (s : Broker) (runnerId : String) (message : ToRunner) : Broker :=
  { s with log := if s.knownRunners.has runnerId then .toRunner runnerId message :: s.log else s.log }

def messageRequester (s : Broker) (requesterId : String) (message : ToRequester) : Broker :=
  { s with
    log := if requesterId ∈ s.requesters then .toRequester requesterId message :: s.log else s.log }

def suspend (s : Broker) (frame : Frame) : Broker := { s with frames := s.frames ++ [frame] }

def setTimeout (s : Broker) (timer : Timer) : Broker :=
  { s with timers := s.timers ++ [(s.nextTimer, timer)], nextTimer := s.nextTimer + 1 }

def clearTimeout (s : Broker) (handle : Option ℕ) : Broker :=
  { s with timers := s.timers.filter fun timer => some timer.1 ≠ handle }

/-! ## Settling the promises of `acceptOffer`

A promise that is settled stays as it is. -/

def Phase.settleRunner (answer : RunnerAnswer) : Phase → Phase
  | .offerSent none => .offerSent (some answer)
  | .awaitingRunner none => .awaitingRunner (some answer)
  | phase => phase

def Phase.settleRequester (answer : RequesterAnswer) : Phase → Phase
  | .readySent none => .readySent (some answer)
  | .awaitingRequester none => .awaitingRequester (some answer)
  | phase => phase

def Frame.settle (taskId : String) (change : Phase → Phase) : Frame → Frame
  | .accepting accept phase =>
    if accept.taskId = taskId then .accepting accept (change phase) else .accepting accept phase
  | frame => frame

def settleRunner (s : Broker) (taskId : String) (answer : RunnerAnswer) : Broker :=
  { s with frames := s.frames.map (Frame.settle taskId (Phase.settleRunner answer)) }

def settleRequester (s : Broker) (taskId : String) (answer : RequesterAnswer) : Broker :=
  { s with frames := s.frames.map (Frame.settle taskId (Phase.settleRequester answer)) }

/-- The body shared by `handleRunnerAccept`, `handleRunnerReject` and
`handleRunnerDeferred`. -/
def answerRunner (s : Broker) (taskId : String) (answer : RunnerAnswer) : Broker :=
  if taskId ∈ s.runnerAcceptRejects then
    { s.settleRunner taskId answer with
      runnerAcceptRejects := s.runnerAcceptRejects.filter (· ≠ taskId) }
  else s

def handleRunnerAccept (s : Broker) (taskId : String) : Broker := s.answerRunner taskId .accepted

def handleRunnerReject (s : Broker) (taskId reason : String) : Broker :=
  s.answerRunner taskId (.rejected (.taskReject reason))

def handleRunnerDeferred (s : Broker) (taskId : String) : Broker :=
  s.answerRunner taskId (.rejected .taskDeferred)

def answerRequester (s : Broker) (taskId : String) (answer : RequesterAnswer) : Broker :=
  if taskId ∈ s.requesterAcceptRejects then
    { s.settleRequester taskId answer with
      requesterAcceptRejects := s.requesterAcceptRejects.filter (· ≠ taskId) }
  else s

def handleRequesterAccept (s : Broker) (taskId settings : String) : Broker :=
  s.answerRequester taskId (.settings settings)

def handleRequesterReject (s : Broker) (taskId reason : String) : Broker :=
  s.answerRequester taskId (.rejected (.taskReject reason))

/-! ## Tasks -/

def cancelTask (s : Broker) (taskId reason : String) : Broker :=
  match s.tasks.get taskId with
  | none => s
  | some task =>
    { s with tasks := s.tasks.delete taskId }.messageRunner task.runnerId (.taskCancel taskId reason)

def failTask (s : Broker) (taskId : String) (error : BrokerError) : Broker :=
  match s.tasks.get taskId with
  | none => s
  | some task =>
    { s with tasks := s.tasks.delete taskId }.messageRequester task.requesterId (.taskError taskId error)

/-- The body shared by `taskDoneHandler` and `taskErrorHandler`: unlike `failTask`
they delete the task only after the send. -/
def finishTask (s : Broker) (taskId : String) (message : String → ToRequester) : Broker :=
  match s.tasks.get taskId with
  | none => s
  | some task =>
    ((s.clearTimeout task.timeout).messageRequester task.requesterId (message task.id)).suspend (.terminalSent task.id)

def taskDoneHandler (s : Broker) (taskId data : String) : Broker :=
  s.finishTask taskId fun id => .taskDone id data

def taskErrorHandler (s : Broker) (taskId : String) (error : BrokerError) : Broker :=
  s.finishTask taskId fun id => .taskError id error

/-- The second half of `handleTaskTimeout`. -/
def timeoutError (cfg : Config) : BrokerError :=
  .taskRunnerExecutionTimeout cfg.taskTimeout cfg.isSelfHosted cfg.mode

def handleTaskTimeout (cfg : Config) (s : Broker) (taskId : String) : Broker :=
  match s.tasks.get taskId with
  | none => s
  | some task =>
    match cfg.mode with
    | .internal =>
      { s with log := .timedOutDuringTask :: s.log }.taskErrorHandler taskId (timeoutError cfg)
    | .external =>
      (s.messageRunner task.runnerId (.taskCancel taskId "Task execution timed out")).suspend
        (.timeoutCancelSent taskId)

/-- The body shared by the answers of a requester: `getRunnerOrFailTask`, then the
message to the runner. A task whose runner is gone fails instead. -/
def respondToRunner (s : Broker) (taskId : String) (message : ToRunner) : Broker :=
  match s.tasks.get taskId with
  | none => s
  | some task =>
    match s.knownRunners.get task.runnerId with
    | some runner => s.suspend (.respond runner.id message)
    | none => (s.failTask taskId (.runnerNotFound task.runnerId)).suspend .finishing

def handleRequesterDataResponse (s : Broker) (taskId requestId data : String) : Broker :=
  s.respondToRunner taskId (.taskDataResponse taskId requestId data)

def handleRequesterNodeTypesResponse (s : Broker) (taskId requestId nodeTypes : String) : Broker :=
  s.respondToRunner taskId (.nodeTypes taskId requestId nodeTypes)

def handleRequesterRpcResponse (s : Broker) (taskId callId : String) (status : RpcStatus) (data : String) : Broker :=
  s.respondToRunner taskId (.rpcResponse taskId callId status data)

/-- The body shared by the requests of a runner that are passed on to the requester. -/
def forwardToRequester (s : Broker) (taskId : String) (message : ToRequester) : Broker :=
  match s.tasks.get taskId with
  | none => s
  | some task => (s.messageRequester task.requesterId message).suspend .finishing

def handleDataRequest (s : Broker) (taskId requestId requestParams : String) : Broker :=
  s.forwardToRequester taskId (.taskDataRequest taskId requestId requestParams)

def handleNodeTypesRequest (s : Broker) (taskId requestId requestParams : String) : Broker :=
  s.forwardToRequester taskId (.nodeTypesRequest taskId requestId requestParams)

def handleRpcRequest (s : Broker) (taskId callId name params : String) : Broker :=
  s.forwardToRequester taskId (.rpc taskId callId name params)

def handleResponse (s : Broker) (taskId requestId data : String) : Broker :=
  match s.tasks.get taskId with
  | none => s
  | some task =>
    (s.messageRunner task.requesterId (.taskDataResponse taskId requestId data)).suspend .finishing

/-! ## Offers and requests -/

def createRequestTimeout (s : Broker) (requestId : String) : Broker :=
  s.setTimeout (.request requestId)

def handleRequestTimeout (s : Broker) (requestId : String) : Broker :=
  match s.pendingTaskRequests.find? (·.requestId = requestId) with
  | none => s
  | some request =>
    ({ s with
      pendingTaskRequests := s.pendingTaskRequests.eraseP (·.requestId = requestId)
      mismatchWarned := s.mismatchWarned.filter (· ≠ requestId) }.clearTimeout
        request.timeout).messageRequester request.requesterId (.requestExpired request.requestId .timeout)

/-- `-1` marks an offer that does not expire. -/
def TaskOffer.expired (now : Int) (offer : TaskOffer) : Bool :=
  offer.validFor ≠ -1 ∧ offer.validUntil < now

def expireTasks (s : Broker) : Broker :=
  { s with pendingTaskOffers := s.pendingTaskOffers.filter fun offer => !TaskOffer.expired s.now offer }

/-- `acceptOffer` up to the end of its first send. -/
def openAccept (s : Broker) (accept : Accept) : Broker :=
  (({ s with
    nextTask := s.nextTask + 1
    runnerAcceptRejects := s.runnerAcceptRejects ++ [accept.taskId] }.setTimeout
      (.runnerAccept accept.taskId accept.offer.runnerId)).messageRunner accept.offer.runnerId
        (.taskOfferAccept accept.taskId accept.offer.offerId)).suspend (.accepting accept (.offerSent none))

def acceptOffer (cfg : Config) (s : Broker) (offer : TaskOffer) (request : TaskRequest) : Broker :=
  s.openAccept ⟨cfg.nanoid s.nextTask, offer, request⟩

def warnOnTaskTypeMismatch (s : Broker) (request : TaskRequest) : Broker :=
  { s with
    mismatchWarned := if s.pendingTaskOffers = [] ∨ request.requestId ∈ s.mismatchWarned
      then s.mismatchWarned else s.mismatchWarned ++ [request.requestId] }

def setAcceptInProgress (requests : List TaskRequest) (ref : ℕ) (value : Bool) :
    List TaskRequest :=
  requests.map fun request =>
    if request.ref = ref then { request with acceptInProgress := value } else request

def setRequestTimeout (requests : List TaskRequest) (ref timeout : ℕ) : List TaskRequest :=
  requests.map fun request =>
    if request.ref = ref then { request with timeout := some timeout } else request

/-- The request is marked and the first offer of its type is taken off the list. -/
def claimOffer (s : Broker) (request : TaskRequest) : Broker :=
  { s with
    pendingTaskRequests := setAcceptInProgress s.pendingTaskRequests request.ref true
    pendingTaskOffers := s.pendingTaskOffers.eraseP (·.taskType = request.taskType)
    mismatchWarned := s.mismatchWarned.filter (· ≠ request.requestId) }

/-- One round of the loop in `settleTasks`. -/
def settleRequest (cfg : Config) (s : Broker) (request : TaskRequest) : Broker :=
  if request.acceptInProgress then s
  else match s.pendingTaskOffers.find? (·.taskType = request.taskType) with
    | none => s.warnOnTaskTypeMismatch request
    | some offer =>
      acceptOffer cfg (s.claimOffer request) offer { request with acceptInProgress := true }

def settleTasks (cfg : Config) (s : Broker) : Broker :=
  s.expireTasks.pendingTaskRequests.foldl (settleRequest cfg) s.expireTasks

def taskRequested (cfg : Config) (s : Broker) (request : TaskRequest) : Broker :=
  if s.isDraining then
    (s.clearTimeout request.timeout).messageRequester request.requesterId (.requestExpired request.requestId .draining)
  else settleTasks cfg { s with pendingTaskRequests := s.pendingTaskRequests ++ [request] }

def taskOffered (cfg : Config) (s : Broker) (offer : TaskOffer) : Broker :=
  settleTasks cfg { s with pendingTaskOffers := s.pendingTaskOffers ++ [offer] }

/-! ## The rest of `acceptOffer` -/

def freeRequest (s : Broker) (accept : Accept) : Broker :=
  { s with
    pendingTaskRequests := setAcceptInProgress s.pendingTaskRequests accept.request.ref false }

def deferRequest (s : Broker) (accept : Accept) : Broker :=
  { (s.clearTimeout accept.request.timeout).createRequestTimeout accept.request.requestId with
    pendingTaskRequests := setRequestTimeout s.pendingTaskRequests accept.request.ref s.nextTimer }

/-- The runner turned the offer down, put it off or did not answer in time. -/
def acceptFailed (s : Broker) (accept : Accept) (error : BrokerError) : Broker :=
  if error = .taskDeferred then (s.freeRequest accept).deferRequest accept
  else s.freeRequest accept

def storeTask (s : Broker) (accept : Accept) : Broker :=
  { s.clearTimeout accept.request.timeout with
    tasks := s.tasks.set accept.taskId accept.task }

def announceTask (s : Broker) (accept : Accept) : Broker :=
  (({ s with
    pendingTaskRequests :=
      s.pendingTaskRequests.eraseP (·.requestId = accept.request.requestId)
    requesterAcceptRejects := s.requesterAcceptRejects ++ [accept.taskId] }.setTimeout
      (.requesterAccept accept.taskId)).messageRequester accept.request.requesterId
        (.taskReady accept.request.requestId accept.taskId)).suspend (.accepting accept (.readySent none))

/-- The runner took the task. A request that expired meanwhile is not found, and then
nobody hears of the task. -/
def acceptSucceeded (s : Broker) (accept : Accept) : Broker :=
  if s.pendingTaskRequests.any (·.requestId = accept.request.requestId) then
    (s.storeTask accept).announceTask accept
  else s.storeTask accept

/-- `sendTaskSettings` up to `getRunnerOrFailTask`. -/
def sendTaskSettings (s : Broker) (accept : Accept) (settings : String) : Broker :=
  match s.tasks.get accept.taskId with
  | none => s
  | some task =>
    match s.knownRunners.get task.runnerId with
    | some runner => s.suspend (.accepting accept (.gotRunner runner.id settings))
    | none => (s.failTask accept.taskId (.runnerNotFound task.runnerId)).suspend (.accepting accept .runnerMissing)

/-- `sendTaskSettings` from there on. -/
def startTask (s : Broker) (accept : Accept) (runnerId settings : String) : Broker :=
  match s.tasks.get accept.taskId with
  | none => s
  | some task =>
    (({ s with tasks := s.tasks.set accept.taskId { task with timeout := some s.nextTimer } }.setTimeout
      (.task accept.taskId)).messageRunner runnerId (.taskSettings accept.taskId settings)).suspend
        (.accepting accept .settingsSent)

def cancelReason : BrokerError → String
  | .taskReject reason => reason
  | _ => "Unknown reason"

def acceptCancelled (s : Broker) (accept : Accept) (reason : String) : Broker :=
  (s.cancelTask accept.taskId reason).suspend (.accepting accept .cancelSent)

/-- A call of `acceptOffer` goes on, or `none` while the promise it awaits is open. -/
def resumeAccept (s : Broker) (accept : Accept) : Phase → Option Broker
  | .offerSent answer => some (s.suspend (.accepting accept (.awaitingRunner answer)))
  | .awaitingRunner none => none
  | .awaitingRunner (some .accepted) => some (s.acceptSucceeded accept)
  | .awaitingRunner (some (.rejected error)) => some (s.acceptFailed accept error)
  | .readySent answer => some (s.suspend (.accepting accept (.awaitingRequester answer)))
  | .awaitingRequester none => none
  | .awaitingRequester (some (.settings settings)) => some (s.sendTaskSettings accept settings)
  | .awaitingRequester (some (.rejected error)) =>
    some (s.acceptCancelled accept (cancelReason error))
  | .gotRunner runnerId settings => some (s.startTask accept runnerId settings)
  | .settingsSent => some s
  | .runnerMissing => some (s.acceptCancelled accept "Unknown reason")
  | .cancelSent => some s

def resumeFrame (cfg : Config) (s : Broker) : Frame → Option Broker
  | .finishing => some s
  | .terminalSent taskId => some { s with tasks := s.tasks.delete taskId }
  | .timeoutCancelSent taskId => some (s.taskErrorHandler taskId (timeoutError cfg))
  | .respond runnerId message => some ((s.messageRunner runnerId message).suspend .finishing)
  | .accepting accept phase => s.resumeAccept accept phase

/-! ## Events -/

def registerRunner (s : Broker) (runner : TaskRunner) : Broker :=
  { s with knownRunners := s.knownRunners.set runner.id runner }.messageRunner runner.id .runnerRegistered

def disconnectReason (runnerId : String) (error : BrokerError) : String :=
  "The Task Runner (" ++ runnerId ++ ") has disconnected: " ++ error.message

/-- One round of the loop in `deregisterRunner`. -/
def failRunnerTask (runnerId : String) (error : BrokerError) (s : Broker) (task : Task) : Broker :=
  if task.runnerId = runnerId then
    ((s.failTask task.id error).suspend .finishing).handleRunnerReject task.id (disconnectReason runnerId error)
  else s

def deregisterRunner (s : Broker) (runnerId : String) (error : BrokerError) : Broker :=
  s.tasks.values.foldl (failRunnerTask runnerId error) { s with
    knownRunners := s.knownRunners.delete runnerId
    pendingTaskOffers := s.pendingTaskOffers.filter (·.runnerId ≠ runnerId) }

def onRunnerMessage (cfg : Config) (s : Broker) (runnerId : String) (message : RunnerMessage) :
    Broker :=
  if s.knownRunners.has runnerId then
    match message with
    | .taskAccepted taskId => s.handleRunnerAccept taskId
    | .taskRejected taskId reason => s.handleRunnerReject taskId reason
    | .taskDeferred taskId => s.handleRunnerDeferred taskId
    | .taskOffer offerId taskType validFor => taskOffered cfg s ⟨offerId, runnerId, taskType, validFor,
          if validFor = -1 then 0 else s.now + validFor * 1000000⟩
    | .taskDone taskId data => s.taskDoneHandler taskId data
    | .taskError taskId error => s.taskErrorHandler taskId (.foreign error)
    | .taskDataRequest taskId requestId params => s.handleDataRequest taskId requestId params
    | .nodeTypesRequest taskId requestId params => s.handleNodeTypesRequest taskId requestId params
    | .rpc taskId callId name params => s.handleRpcRequest taskId callId name params
    | .info _ _ => s
  else s

def onRequesterMessage (cfg : Config) (s : Broker) (requesterId : String) (message : RequesterMessage) : Broker :=
  match message with
  | .taskSettings taskId settings => s.handleRequesterAccept taskId settings
  | .taskCancel taskId reason =>
    if s.tasks.has taskId then (s.cancelTask taskId reason).suspend .finishing else s
  | .taskRequest requestId taskType =>
    taskRequested cfg { s.createRequestTimeout requestId with nextRef := s.nextRef + 1 }
      ⟨s.nextRef, requestId, requesterId, taskType, some s.nextTimer, false⟩
  | .taskDataResponse taskId requestId data => s.handleRequesterDataResponse taskId requestId data
  | .nodeTypesResponse taskId requestId nodeTypes =>
    s.handleRequesterNodeTypesResponse taskId requestId nodeTypes
  | .rpcResponse taskId callId status data => s.handleRequesterRpcResponse taskId callId status data

def fireTimer (cfg : Config) (s : Broker) : Timer → Broker
  | .request requestId => s.handleRequestTimeout requestId
  | .runnerAccept taskId runnerId =>
    s.settleRunner taskId (.rejected (.taskRunnerAcceptTimeout taskId runnerId))
  | .requesterAccept taskId => s.settleRequester taskId (.rejected .requesterTimedOut)
  | .task taskId => handleTaskTimeout cfg s taskId

def handle (cfg : Config) (s : Broker) : Event → Option Broker
  | .registerRunner runner => some (s.registerRunner runner)
  | .deregisterRunner runnerId error => some (s.deregisterRunner runnerId error)
  | .registerRequester requesterId =>
    some { s with
      requesters := if requesterId ∈ s.requesters then s.requesters
        else s.requesters ++ [requesterId] }
  | .deregisterRequester requesterId =>
    some { s with requesters := s.requesters.filter (· ≠ requesterId) }
  | .runnerMessage runnerId message => some (onRunnerMessage cfg s runnerId message)
  | .requesterMessage requesterId message => some (onRequesterMessage cfg s requesterId message)
  | .requesterReject taskId reason => some (s.handleRequesterReject taskId reason)
  | .startDraining => some { s with isDraining := true }
  | .fire handle =>
    (s.timers.find? (·.1 = handle)).map fun timer =>
      fireTimer cfg { s with timers := s.timers.filter (·.1 ≠ handle) } timer.2
  | .resume index =>
    (s.frames[index]?).bind fun frame =>
      resumeFrame cfg { s with frames := s.frames.eraseIdx index } frame
  | .tick elapsed => some { s with now := s.now + elapsed }

def step (cfg : Config) (s : Broker) (event : Event) : Option Broker :=
  handle cfg { s with log := .received event :: s.log } event

end Broker

def system (cfg : Config) : TransitionSystem Broker Event := ⟨.start, Broker.step cfg⟩

end N8n.TaskBroker
