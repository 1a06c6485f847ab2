import N8n.TaskBroker

/-! What one event can do to the broker, said once. Every handler is a sequence of a
few kinds of moves; `Closed` lists them as closure conditions on a predicate, and
`step_closed` runs any event through them. An invariant is then proved by one short
case for each kind of move, and the dispatch over messages, timers and suspended
handlers is never repeated.
`I` holds along the handler and `J` once it is over. Moves that an invariant has to
treat with the event in hand get it as an equation. -/

namespace N8n.TaskBroker

open BrokerMessage List Option

/-- Entries that say nothing about the outcome of a request, an offer or a task. -/
def Entry.neutral : Entry → Bool
  | .received _ => false
  | .toRunner _ (.taskOfferAccept _ _) => false
  | .toRequester _ (.taskReady _ _) => false
  | .toRequester _ (.taskDone _ _) => false
  | .toRequester _ (.taskError _ _) => false
  | .toRequester _ (.requestExpired _ _) => false
  | _ => true

def BrokerMessage.ToRunner.task : ToRunner → Option String
  | .runnerRegistered => none
  | .taskOfferAccept taskId _ => some taskId
  | .taskCancel taskId _ => some taskId
  | .taskSettings taskId _ => some taskId
  | .rpcResponse taskId _ _ _ => some taskId
  | .taskDataResponse taskId _ _ => some taskId
  | .nodeTypes taskId _ _ => some taskId

def BrokerMessage.ToRequester.task : ToRequester → Option String
  | .taskReady _ taskId => some taskId
  | .taskDone taskId _ => some taskId
  | .taskError taskId _ => some taskId
  | .requestExpired _ _ => none
  | .taskDataRequest taskId _ _ => some taskId
  | .nodeTypesRequest taskId _ _ => some taskId
  | .rpc taskId _ _ _ => some taskId

def Frame.neutral : Frame → Bool
  | .finishing => true
  | .respond runnerId message => Entry.neutral (.toRunner runnerId message)
  | _ => false

def Event.Matches : Event → Prop
  | .runnerMessage _ (.taskOffer _ _ _) => True
  | .requesterMessage _ (.taskRequest _ _) => True
  | _ => False

/-- The events that may run `taskDoneHandler` or `taskErrorHandler` at once. -/
def Event.Finishes : Event → Prop
  | .runnerMessage _ _ => True
  | .fire _ => True
  | _ => False

/-- The send of the first phase is over and the second awaits the answer. -/
inductive Phase.Sent : Phase → Phase → Prop
  | offer (answer) : Phase.Sent (.offerSent answer) (.awaitingRunner answer)
  | ready (answer) : Phase.Sent (.readySent answer) (.awaitingRequester answer)

inductive Phase.Cancels : Phase → Prop
  | rejected (error) : Phase.Cancels (.awaitingRequester (some (.rejected error)))
  | runnerMissing : Phase.Cancels .runnerMissing

/-- `acceptOffer` returns: it has nothing left to do or its task is gone. -/
inductive Phase.Ends (s : Broker) (taskId : String) : Phase → Prop
  | settingsSent : Phase.Ends s taskId .settingsSent
  | cancelSent : Phase.Ends s taskId .cancelSent
  | answered (settings) : s.tasks.get taskId = none →
    Phase.Ends s taskId (.awaitingRequester (some (.settings settings)))
  | gotRunner (runnerId settings) : s.tasks.get taskId = none → Phase.Ends s taskId (.gotRunner runnerId settings)

namespace Broker

def record (s : Broker) (e : Event) : Broker := { s with log := .received e :: s.log }

def resumed (s : Broker) (i : ℕ) : Broker := { s with frames := s.frames.eraseIdx i }

def RunnerMissing (s : Broker) (taskId : String) : Prop :=
  ∃ task, s.tasks.get taskId = some task ∧ s.knownRunners.get task.runnerId = none

/-- A message about a task goes to the runner or the requester of that task, or was
held back by a handler that found them earlier. -/
def Addressed (s : Broker) : Entry → Prop
  | .toRunner runnerId message => ∀ taskId, message.task = some taskId →
    (∃ task, s.tasks.get taskId = some task ∧ task.runnerId = runnerId) ∨ .respond runnerId message ∈ s.frames
  | .toRequester requesterId message => ∀ taskId, message.task = some taskId →
    ∃ task, s.tasks.get taskId = some task ∧ task.requesterId = requesterId
  | _ => True

def AddressedFrame (s : Broker) : Frame → Prop
  | .respond runnerId message => ∀ taskId, message.task = some taskId →
    ∃ task, s.tasks.get taskId = some task ∧ task.runnerId = runnerId
  | _ => True

/-- The event makes the broker send the requester of the task that it is over. -/
def Terminates (cfg : Config) (s : Broker) (taskId : String) : Event → Prop
  | .runnerMessage runnerId (.taskDone id _) =>
    id = taskId ∧ s.knownRunners.has runnerId ∧ s.tasks.has taskId
  | .runnerMessage runnerId (.taskError id _) =>
    id = taskId ∧ s.knownRunners.has runnerId ∧ s.tasks.has taskId
  | .deregisterRunner runnerId _ => ∃ task ∈ s.tasks.values, task.id = taskId ∧ task.runnerId = runnerId
  | .requesterMessage _ (.taskDataResponse id _ _) => id = taskId ∧ s.RunnerMissing taskId
  | .requesterMessage _ (.nodeTypesResponse id _ _) => id = taskId ∧ s.RunnerMissing taskId
  | .requesterMessage _ (.rpcResponse id _ _ _) => id = taskId ∧ s.RunnerMissing taskId
  | .fire timer => (timer, .task taskId) ∈ s.timers ∧ cfg.mode = .internal ∧ s.tasks.has taskId
  | .resume i =>
    s.frames[i]? = some (.timeoutCancelSent taskId) ∧ s.tasks.has taskId ∨
    ∃ accept settings, accept.taskId = taskId ∧ s.RunnerMissing taskId ∧
      s.frames[i]? = some (.accepting accept (.awaitingRequester (some (.settings settings))))
  | _ => False

section Fields

variable (s : Broker) (taskId : String) {task : Task}

@[simp] theorem answerRunner_tasks (answer : RunnerAnswer) : (s.answerRunner taskId answer).tasks = s.tasks := by
  unfold answerRunner
  split <;> rfl

@[simp] theorem answerRunner_knownRunners (answer : RunnerAnswer) :
    (s.answerRunner taskId answer).knownRunners = s.knownRunners := by
  unfold answerRunner
  split <;> rfl

@[simp] theorem failTask_knownRunners (error : BrokerError) :
    (s.failTask taskId error).knownRunners = s.knownRunners := by
  unfold failTask
  split <;> rfl

theorem failTask_get (error : BrokerError) (other : String) :
    (s.failTask taskId error).tasks.get other = if other = taskId then none else s.tasks.get other := by
  unfold failTask
  split
  · rename_i missing
    split
    · rename_i same
      rw [same, missing]
    · rfl
  · exact s.tasks.get_delete taskId other

theorem finishTask_missing {s : Broker} {taskId : String} (missing : s.tasks.get taskId = none)
    (message : String → ToRequester) : s.finishTask taskId message = s := by
  simp only [finishTask, missing]

theorem failTask_missing {s : Broker} {taskId : String} (missing : s.tasks.get taskId = none)
    (error : BrokerError) : s.failTask taskId error = s := by
  simp only [failTask, missing]

theorem cancelTask_missing {s : Broker} {taskId : String} (missing : s.tasks.get taskId = none)
    (reason : String) : s.cancelTask taskId reason = s := by
  simp only [cancelTask, missing]

theorem failTask_known {s : Broker} {taskId : String} (found : s.tasks.get taskId = some task) (error : BrokerError) :
    s.failTask taskId error = { s with tasks := s.tasks.delete taskId }.messageRequester
      task.requesterId (.taskError taskId error) := by
  simp only [failTask, found]

theorem cancelTask_known {s : Broker} {taskId : String} (found : s.tasks.get taskId = some task) (reason : String) :
    s.cancelTask taskId reason = { s with tasks := s.tasks.delete taskId }.messageRunner
      task.runnerId (.taskCancel taskId reason) := by
  simp only [cancelTask, found]

theorem failTask_suspend (error : BrokerError) (frame : Frame) :
    (s.failTask taskId error).suspend frame = (s.suspend frame).failTask taskId error := by
  simp only [failTask, suspend]
  split <;> rfl

theorem cancelTask_suspend (reason : String) (frame : Frame) :
    (s.cancelTask taskId reason).suspend frame = (s.suspend frame).cancelTask taskId reason := by
  simp only [cancelTask, suspend]
  split <;> rfl

theorem startTask_known {s : Broker} {accept : Accept}
    (found : s.tasks.get accept.taskId = some task) (runnerId settings : String) :
    s.startTask accept runnerId settings = (({ s with
        tasks := s.tasks.set accept.taskId { task with timeout := some s.nextTimer } }.setTimeout
          (.task accept.taskId)).messageRunner runnerId
            (.taskSettings accept.taskId settings)).suspend (.accepting accept .settingsSent) := by
  simp only [startTask, found]

end Fields

/-- Closure of `I` under the moves that handlers of `e` make from `s₀`, where the last
move may only establish `J`. A move that the predicate does not look at needs no proof. -/
structure Closed (cfg : Config) (s₀ : Broker) (e : Event) (I J : Broker → Prop) : Prop where
  weaken : ∀ {s}, I s → J s := by intros; assumption
  aux : ∀ {s : Broker} draining acceptRejects warned (timers : List (ℕ × Timer)) next,
    (∀ handle taskId, (handle, .task taskId) ∈ timers → (handle, .task taskId) ∈ s.timers) → I s →
    I { s with
      isDraining := draining
      requesterAcceptRejects := acceptRejects
      mismatchWarned := warned
      timers := timers
      nextTimer := next } := by intros; assumption
  tick : ∀ {s : Broker} (elapsed : ℕ), I s → I { s with now := s.now + elapsed } := by intros; assumption
  setRunner : ∀ {s : Broker} (runner : TaskRunner), I s →
    I { s with knownRunners := s.knownRunners.set runner.id runner } := by intros; assumption
  deleteRunner : ∀ {s : Broker} runnerId error, e = .deregisterRunner runnerId error → I s → I { s with
      knownRunners := s.knownRunners.delete runnerId
      pendingTaskOffers := s.pendingTaskOffers.filter (·.runnerId ≠ runnerId) } := by intros; assumption
  setRequesters : ∀ {s : Broker} requesters, I s → I { s with requesters := requesters } := by intros; assumption
  entry : ∀ {s : Broker} entry, Entry.neutral entry → Addressed s₀ entry → I s →
    I { s with log := entry :: s.log } := by intros; assumption
  frame : ∀ {s : Broker} frame, Frame.neutral frame → AddressedFrame s₀ frame → I s → I (s.suspend frame)
  settleRunner : ∀ {s : Broker} taskId error, I s → I (s.settleRunner taskId (.rejected error))
  answerRunner : ∀ {s : Broker} taskId error, I s → I (s.answerRunner taskId (.rejected error))
  accepted : ∀ runnerId taskId, e = .runnerMessage runnerId (.taskAccepted taskId) →
    s₀.knownRunners.has runnerId → I (s₀.record e) → J ((s₀.record e).handleRunnerAccept taskId)
  rejectRequester : ∀ {s : Broker} taskId error, I s → I (s.settleRequester taskId (.rejected error))
  settings : ∀ requesterId taskId settings,
    e = .requesterMessage requesterId (.taskSettings taskId settings) → I (s₀.record e) →
    I ((s₀.record e).settleRequester taskId (.settings settings))
  cancel : ∀ {s : Broker} taskId reason, I s → I (s.cancelTask taskId reason)
  fail : ∀ {s : Broker} taskId error, Terminates cfg s₀ taskId e →
    (∀ task, s.tasks.get taskId = some task → s.knownRunners.get task.runnerId = none) → I s →
    I (s.failTask taskId error)
  finish : ∀ {s : Broker} taskId data error, e.Finishes → Terminates cfg s₀ taskId e →
    s.tasks = s₀.tasks → s.frames = s₀.frames → s.nextTask = s₀.nextTask → I s →
    J (s.taskDoneHandler taskId data) ∧ J (s.taskErrorHandler taskId error)
  timeoutFrame : ∀ {s : Broker} timer taskId, e = .fire timer → (timer, .task taskId) ∈ s₀.timers →
    s.frames = s₀.frames → s.nextTask = s₀.nextTask → I s →
    I (s.suspend (.timeoutCancelSent taskId))
  expireOffers : ∀ {s : Broker}, I s → I s.expireTasks := by intros; assumption
  addOffer : ∀ runnerId taskType validFor (offer : TaskOffer),
    e = .runnerMessage runnerId (.taskOffer offer.offerId taskType validFor) →
    offer.runnerId = runnerId → s₀.knownRunners.has runnerId → I (s₀.record e) →
    I { s₀.record e with
      pendingTaskOffers := s₀.pendingTaskOffers ++ [offer] } := by intros; assumption
  addRequest : ∀ requestId requesterId taskType timeout,
    e = .requesterMessage requesterId (.taskRequest requestId taskType) → I (s₀.record e) →
    I { s₀.record e with
      nextRef := s₀.nextRef + 1
      pendingTaskRequests := s₀.pendingTaskRequests ++
        [⟨s₀.nextRef, requestId, requesterId, taskType, timeout, false⟩] } := by intros; assumption
  drain : ∀ requestId requesterId taskType,
    e = .requesterMessage requesterId (.taskRequest requestId taskType) → I (s₀.record e) →
    I { s₀.record e with
      nextRef := s₀.nextRef + 1
      log := .toRequester requesterId (.requestExpired requestId .draining) ::
        (s₀.record e).log } := by intros; assumption
  skipRef : ∀ {s : Broker}, I s → I { s with nextRef := s.nextRef + 1 } := by intros; assumption
  expire : ∀ {s : Broker} requestId, I s → I (s.handleRequestTimeout requestId)
  settle : ∀ {s : Broker} (request : TaskRequest) (offer : TaskOffer), e.Matches →
    request ∈ s.pendingTaskRequests → (s.pendingTaskRequests.map (·.ref)).Nodup →
    request.acceptInProgress = false →
    s.pendingTaskOffers.find? (·.taskType = request.taskType) = some offer → I s →
    I ((s.claimOffer request).openAccept ⟨cfg.nanoid s.nextTask, offer, { request with acceptInProgress := true }⟩)
  resumeNeutral : ∀ i frame, e = .resume i → s₀.frames[i]? = some frame → Frame.neutral frame →
    I (s₀.record e) → I ((s₀.record e).resumed i)
  resumeTerminal : ∀ i taskId, e = .resume i → s₀.frames[i]? = some (.terminalSent taskId) →
    I (s₀.record e) → J { (s₀.record e).resumed i with tasks := s₀.tasks.delete taskId }
  resumeTimeout : ∀ i taskId, e = .resume i → s₀.frames[i]? = some (.timeoutCancelSent taskId) →
    I (s₀.record e) → J (((s₀.record e).resumed i).taskErrorHandler taskId (timeoutError cfg))
  advance : ∀ i accept phase phase', e = .resume i →
    s₀.frames[i]? = some (.accepting accept phase) → Phase.Sent phase phase' → I (s₀.record e) →
    J (((s₀.record e).resumed i).suspend (.accepting accept phase'))
  giveUp : ∀ i accept error, e = .resume i →
    s₀.frames[i]? = some (.accepting accept (.awaitingRunner (some (.rejected error)))) →
    I (s₀.record e) → J (((s₀.record e).resumed i).acceptFailed accept error)
  announce : ∀ i accept, e = .resume i → s₀.frames[i]? = some (.accepting accept (.awaitingRunner (some .accepted))) →
    (∃ request ∈ s₀.pendingTaskRequests, request.requestId = accept.request.requestId) →
    I (s₀.record e) → J ((((s₀.record e).resumed i).storeTask accept).announceTask accept)
  orphan : ∀ i accept, e = .resume i → s₀.frames[i]? = some (.accepting accept (.awaitingRunner (some .accepted))) →
    (¬ ∃ request ∈ s₀.pendingTaskRequests, request.requestId = accept.request.requestId) →
    I (s₀.record e) → J (((s₀.record e).resumed i).storeTask accept)
  foundRunner : ∀ i accept settings (task : Task) (runner : TaskRunner), e = .resume i →
    s₀.frames[i]? = some (.accepting accept (.awaitingRequester (some (.settings settings)))) →
    s₀.tasks.get accept.taskId = some task → s₀.knownRunners.get task.runnerId = some runner →
    I (s₀.record e) →
    J (((s₀.record e).resumed i).suspend (.accepting accept (.gotRunner runner.id settings)))
  lostRunner : ∀ i accept settings (task : Task) error, e = .resume i →
    s₀.frames[i]? = some (.accepting accept (.awaitingRequester (some (.settings settings)))) →
    s₀.tasks.get accept.taskId = some task → s₀.knownRunners.get task.runnerId = none →
    I (s₀.record e) →
    J ((((s₀.record e).resumed i).suspend (.accepting accept .runnerMissing)).failTask accept.taskId error)
  cancelled : ∀ i accept phase reason, e = .resume i →
    s₀.frames[i]? = some (.accepting accept phase) → Phase.Cancels phase → I (s₀.record e) →
    J ((((s₀.record e).resumed i).suspend (.accepting accept .cancelSent)).cancelTask accept.taskId reason)
  started : ∀ i accept runnerId settings (task : Task), e = .resume i →
    s₀.frames[i]? = some (.accepting accept (.gotRunner runnerId settings)) →
    s₀.tasks.get accept.taskId = some task → I (s₀.record e) →
    J (((s₀.record e).resumed i).startTask accept runnerId settings)
  ended : ∀ i accept phase, e = .resume i → s₀.frames[i]? = some (.accepting accept phase) →
    Phase.Ends s₀ accept.taskId phase → I (s₀.record e) → J ((s₀.record e).resumed i)

/-- What the dispatch relies on: tasks and runners are stored under their own ids, the
pending requests are different objects and a held back answer is an answer. -/
structure Coherence (knownRunners : OrderedMap String TaskRunner) (tasks : OrderedMap String Task)
    (refs : List ℕ) (nextRef : ℕ) (frames : List Frame) : Prop where
  keyed : ∀ key task, tasks.get key = some task → task.id = key
  runners : ∀ key runner, knownRunners.get key = some runner → runner.id = key
  apart : refs.Nodup
  fresh : ∀ ref ∈ refs, ref < nextRef
  replies : ∀ runnerId message, .respond runnerId message ∈ frames → Entry.neutral (.toRunner runnerId message)

def Coherent (s : Broker) : Prop :=
  Coherence s.knownRunners s.tasks (s.pendingTaskRequests.map (·.ref)) s.nextRef s.frames

theorem Coherence.add {runners tasks refs nextRef frames} (h : Coherence runners tasks refs nextRef frames) :
    Coherence runners tasks (refs ++ [nextRef]) (nextRef + 1) frames := by
  refine { h with apart := ?_, fresh := fun ref member => ?_ }
  · refine nodup_append.mpr ⟨h.apart, nodup_singleton _, fun ref old new single same => ?_⟩
    have bound := h.fresh ref old
    have equal := mem_singleton.mp single
    omega
  · rcases mem_append.mp member with old | new
    · exact Nat.lt_succ_of_lt (h.fresh ref old)
    · have equal := mem_singleton.mp new
      omega

theorem Coherent.found {s : Broker} (h : s.Coherent) {task : Task} (member : task ∈ s.tasks.values) :
    s.tasks.get task.id = some task := by
  obtain ⟨⟨key, value⟩, inside, rfl⟩ := List.mem_map.mp member
  have found := s.tasks.mem_entries_iff.mp inside
  exact h.keyed _ _ found ▸ found

/-- A round of `settleTasks` keeps every other pending request, and the identities. -/
theorem settleRequest_pending (cfg : Config) (s : Broker) (request : TaskRequest) :
    (settleRequest cfg s request).pendingTaskRequests.map (·.ref) = s.pendingTaskRequests.map (·.ref) ∧
      ∀ other ∈ s.pendingTaskRequests, other.ref ≠ request.ref →
        other ∈ (settleRequest cfg s request).pendingTaskRequests := by
  unfold settleRequest
  split
  · exact ⟨rfl, fun _ member _ => member⟩
  · split
    · exact ⟨rfl, fun _ member _ => member⟩
    · refine ⟨?_, fun other member different => ?_⟩
      · show (setAcceptInProgress _ _ _).map _ = _
        simp only [setAcceptInProgress, List.map_map]
        congr 1
        funext other
        simp only [Function.comp_apply]
        split <;> rfl
      · exact List.mem_map.mpr ⟨other, member, by simp [different]⟩

namespace Closed

variable {cfg : Config} {s₀ s : Broker} {e : Event} {I J : Broker → Prop}
  {runnerId requesterId requestId taskType : String} {error : BrokerError} {handle i : ℕ}
  {runnerMessage : RunnerMessage} {requesterMessage : RequesterMessage}

/-! ### Shared bodies -/

section

variable (h : Closed cfg s₀ e I J)
include h

theorem and {I' J' : Broker → Prop} (h' : Closed cfg s₀ e I' J') :
    Closed cfg s₀ e (fun s => I s ∧ I' s) (fun s => J s ∧ J' s) where
  weaken hs := ⟨h.weaken hs.1, h'.weaken hs.2⟩
  aux _ _ _ _ _ fewer hs := ⟨h.aux _ _ _ _ _ fewer hs.1, h'.aux _ _ _ _ _ fewer hs.2⟩
  tick elapsed hs := ⟨h.tick elapsed hs.1, h'.tick elapsed hs.2⟩
  setRunner runner hs := ⟨h.setRunner runner hs.1, h'.setRunner runner hs.2⟩
  deleteRunner id error same hs :=
    ⟨h.deleteRunner id error same hs.1, h'.deleteRunner id error same hs.2⟩
  setRequesters ids hs := ⟨h.setRequesters ids hs.1, h'.setRequesters ids hs.2⟩
  entry entry neutral fit hs := ⟨h.entry entry neutral fit hs.1, h'.entry entry neutral fit hs.2⟩
  frame frame neutral fit hs := ⟨h.frame frame neutral fit hs.1, h'.frame frame neutral fit hs.2⟩
  settleRunner id error hs := ⟨h.settleRunner id error hs.1, h'.settleRunner id error hs.2⟩
  answerRunner id error hs := ⟨h.answerRunner id error hs.1, h'.answerRunner id error hs.2⟩
  accepted runnerId id same known hs :=
    ⟨h.accepted runnerId id same known hs.1, h'.accepted runnerId id same known hs.2⟩
  rejectRequester id error hs := ⟨h.rejectRequester id error hs.1, h'.rejectRequester id error hs.2⟩
  settings id taskId settings same hs :=
    ⟨h.settings id taskId settings same hs.1, h'.settings id taskId settings same hs.2⟩
  cancel id reason hs := ⟨h.cancel id reason hs.1, h'.cancel id reason hs.2⟩
  fail id error terminates missing hs :=
    ⟨h.fail id error terminates missing hs.1, h'.fail id error terminates missing hs.2⟩
  finish id data error finishes terminates tasks frames next hs :=
    have left := h.finish id data error finishes terminates tasks frames next hs.1
    have right := h'.finish id data error finishes terminates tasks frames next hs.2
    ⟨⟨left.1, right.1⟩, left.2, right.2⟩
  timeoutFrame timer id same pending frames next hs :=
    ⟨h.timeoutFrame timer id same pending frames next hs.1, h'.timeoutFrame timer id same pending frames next hs.2⟩
  expireOffers hs := ⟨h.expireOffers hs.1, h'.expireOffers hs.2⟩
  addOffer id taskType validFor offer same own known hs :=
    ⟨h.addOffer id taskType validFor offer same own known hs.1,
      h'.addOffer id taskType validFor offer same own known hs.2⟩
  addRequest id requesterId taskType timeout same hs :=
    ⟨h.addRequest id requesterId taskType timeout same hs.1, h'.addRequest id requesterId taskType timeout same hs.2⟩
  drain id requesterId taskType same hs :=
    ⟨h.drain id requesterId taskType same hs.1, h'.drain id requesterId taskType same hs.2⟩
  skipRef hs := ⟨h.skipRef hs.1, h'.skipRef hs.2⟩
  expire id hs := ⟨h.expire id hs.1, h'.expire id hs.2⟩
  settle request offer matching pending nodup idle found hs :=
    ⟨h.settle request offer matching pending nodup idle found hs.1,
      h'.settle request offer matching pending nodup idle found hs.2⟩
  resumeNeutral i frame same there neutral hs :=
    ⟨h.resumeNeutral i frame same there neutral hs.1, h'.resumeNeutral i frame same there neutral hs.2⟩
  resumeTerminal i id same there hs :=
    ⟨h.resumeTerminal i id same there hs.1, h'.resumeTerminal i id same there hs.2⟩
  resumeTimeout i id same there hs :=
    ⟨h.resumeTimeout i id same there hs.1, h'.resumeTimeout i id same there hs.2⟩
  advance i accept phase next same there sent hs :=
    ⟨h.advance i accept phase next same there sent hs.1, h'.advance i accept phase next same there sent hs.2⟩
  giveUp i accept error same there hs :=
    ⟨h.giveUp i accept error same there hs.1, h'.giveUp i accept error same there hs.2⟩
  announce i accept same there pending hs :=
    ⟨h.announce i accept same there pending hs.1, h'.announce i accept same there pending hs.2⟩
  orphan i accept same there gone hs :=
    ⟨h.orphan i accept same there gone hs.1, h'.orphan i accept same there gone hs.2⟩
  foundRunner i accept settings task runner same there found known hs :=
    ⟨h.foundRunner i accept settings task runner same there found known hs.1,
      h'.foundRunner i accept settings task runner same there found known hs.2⟩
  lostRunner i accept settings task error same there found missing hs :=
    ⟨h.lostRunner i accept settings task error same there found missing hs.1,
      h'.lostRunner i accept settings task error same there found missing hs.2⟩
  cancelled i accept phase reason same there cancels hs :=
    ⟨h.cancelled i accept phase reason same there cancels hs.1,
      h'.cancelled i accept phase reason same there cancels hs.2⟩
  started i accept runnerId settings task same there found hs :=
    ⟨h.started i accept runnerId settings task same there found hs.1,
      h'.started i accept runnerId settings task same there found hs.2⟩
  ended i accept phase same there ends hs :=
    ⟨h.ended i accept phase same there ends hs.1, h'.ended i accept phase same there ends hs.2⟩

theorem messageRunner (message : ToRunner) (neutral : Entry.neutral (.toRunner runnerId message))
    (addressed : Addressed s₀ (.toRunner runnerId message)) (hs : I s) : I (s.messageRunner runnerId message) := by
  unfold Broker.messageRunner
  split
  · exact h.entry _ neutral addressed hs
  · exact hs

theorem messageRequester (message : ToRequester) (neutral : Entry.neutral (.toRequester requesterId message))
    (addressed : Addressed s₀ (.toRequester requesterId message)) (hs : I s) :
    I (s.messageRequester requesterId message) := by
  unfold Broker.messageRequester
  split
  · exact h.entry _ neutral addressed hs
  · exact hs

theorem setTimeout (timer : Timer) (other : ∀ taskId, timer ≠ .task taskId) (hs : I s) : I (s.setTimeout timer) := by
  refine h.aux (s := s) _ _ _ _ _ (fun handle taskId member => ?_) hs
  rcases mem_append.mp member with old | new
  · exact old
  · simp only [mem_singleton, Prod.mk.injEq] at new
    exact absurd new.2.symm (other taskId)

theorem clearTimeout (handle : Option ℕ) (hs : I s) : I (s.clearTimeout handle) :=
  h.aux (s := s) _ _ _ _ _ (fun _ _ member => (mem_filter.mp member).1) hs

theorem forgetRequester (taskId : String) (hs : I s) :
    I { s with requesterAcceptRejects := s.requesterAcceptRejects.filter (· ≠ taskId) } :=
  h.aux (s := s) _ _ _ _ _ (fun _ _ member => member) hs

theorem forwardToRequester (taskId : String) (message : ToRequester)
    (neutral : ∀ id, Entry.neutral (.toRequester id message)) (about : message.task = some taskId)
    (same : s.tasks = s₀.tasks) (hs : I s) : I (s.forwardToRequester taskId message) := by
  unfold Broker.forwardToRequester
  split
  · exact hs
  · rename_i task found
    refine h.frame _ rfl trivial (h.messageRequester message (neutral _) (fun id named => ?_) hs)
    rw [about, some.injEq] at named
    exact ⟨task, same ▸ named ▸ found, rfl⟩

/-- `Terminates` is asked for only where the task is known and its runner is not. -/
theorem respondToRunner (coherent : s₀.Coherent) (taskId : String)
    (message : ToRunner) (neutral : ∀ id, Entry.neutral (.toRunner id message)) (about : message.task = some taskId)
    (terminates : s₀.RunnerMissing taskId → Terminates cfg s₀ taskId e) (hs : I (s₀.record e)) :
    I ((s₀.record e).respondToRunner taskId message) := by
  unfold Broker.respondToRunner
  split
  · exact hs
  · rename_i task known
    split
    · rename_i runner there
      refine h.frame _ (neutral _) (fun id named => ⟨task, ?_, ?_⟩) hs
      · rw [about, some.injEq] at named
        exact named ▸ known
      · exact (coherent.runners _ _ there).symm
    · rename_i missing
      refine h.frame _ rfl trivial (h.fail taskId _ (terminates ⟨task, known, missing⟩) ?_ hs)
      intro other found
      rw [known, some.injEq] at found
      exact found ▸ missing

theorem settleRequest (matching : e.Matches) (request : TaskRequest)
    (pending : request ∈ s.pendingTaskRequests) (nodup : (s.pendingTaskRequests.map (·.ref)).Nodup)
    (hs : I s) : I (settleRequest cfg s request) := by
  unfold Broker.settleRequest
  split
  · exact hs
  · rename_i idle
    split
    · exact h.aux (s := s) _ _ _ _ _ (fun _ _ member => member) hs
    · rename_i offer found
      exact h.settle request offer matching pending nodup (by simpa using idle) found hs

theorem settleFold (matching : e.Matches) (requests : List TaskRequest)
    (apart : (requests.map (·.ref)).Nodup) (nodup : (s.pendingTaskRequests.map (·.ref)).Nodup)
    (pending : ∀ request ∈ requests, request ∈ s.pendingTaskRequests) (hs : I s) :
    I (requests.foldl (Broker.settleRequest cfg) s) := by
  induction requests generalizing s with
  | nil => exact hs
  | cons request rest ih =>
    simp only [map_cons, nodup_cons] at apart
    obtain ⟨refs, kept⟩ := settleRequest_pending cfg s request
    refine ih apart.2 (refs ▸ nodup) (fun other member => kept other ?_ fun same => ?_)
      (h.settleRequest matching request (pending request mem_cons_self) nodup hs)
    · exact pending other (mem_cons_of_mem _ member)
    · exact apart.1 (List.mem_map.mpr ⟨other, member, same⟩)

theorem settleTasks (matching : e.Matches)
    (nodup : (s.pendingTaskRequests.map (·.ref)).Nodup) (hs : I s) : I (settleTasks cfg s) :=
  h.settleFold matching s.expireTasks.pendingTaskRequests nodup nodup (fun _ member => member) (h.expireOffers hs)

theorem failRunnerTasks (coherent : s₀.Coherent) (same : e = .deregisterRunner runnerId error) (tasks : List Task)
    (among : ∀ task ∈ tasks, task ∈ s₀.tasks.values) (gone : s.knownRunners.get runnerId = none)
    (older : ∀ id task, s.tasks.get id = some task → s₀.tasks.get id = some task) (hs : I s) :
    I (tasks.foldl (failRunnerTask runnerId error) s) := by
  induction tasks generalizing s with
  | nil => exact hs
  | cons task rest ih =>
    have member := among task mem_cons_self
    have found := coherent.found member
    simp only [foldl_cons]
    by_cases assigned : task.runnerId = runnerId
    · have failed : I (s.failTask task.id error) := by
        refine h.fail task.id error ?_ (fun other present => ?_) hs
        · subst same
          exact ⟨task, member, rfl, assigned⟩
        · have equal := older _ _ present
          rw [found, some.injEq] at equal
          rw [← equal, assigned, gone]
      have round : I (failRunnerTask runnerId error s task) := by
        rw [failRunnerTask, if_pos assigned]
        exact h.answerRunner _ _ (h.frame _ rfl trivial failed)
      refine ih (fun other later => among other (mem_cons_of_mem _ later)) ?_ ?_ round
      · rw [failRunnerTask, if_pos assigned, Broker.handleRunnerReject, answerRunner_knownRunners]
        exact (failTask_knownRunners s task.id error).symm ▸ gone
      · intro id other present
        rw [failRunnerTask, if_pos assigned, Broker.handleRunnerReject, answerRunner_tasks] at present
        have kept : (s.failTask task.id error).tasks.get id = some other := present
        rw [failTask_get] at kept
        split at kept
        · cases kept
        · exact older id other kept
    · have round : failRunnerTask runnerId error s task = s := if_neg assigned
      rw [round]
      exact ih (fun other later => among other (mem_cons_of_mem _ later)) gone older hs

end

/-! ### One event -/

theorem deregisterRunner (h : Closed cfg s₀ (.deregisterRunner runnerId error) I J)
    (coherent : s₀.Coherent) (hs : I (s₀.record (.deregisterRunner runnerId error))) :
    I ((s₀.record (.deregisterRunner runnerId error)).deregisterRunner runnerId error) := by
  apply h.failRunnerTasks coherent rfl
  · exact fun _ member => member
  · exact s₀.knownRunners.get_delete_self runnerId
  · exact fun _ _ found => found
  · exact h.deleteRunner runnerId error rfl hs

theorem finishMissing (h : Closed cfg s₀ e I J) {taskId : String}
    (missing : s.tasks.get taskId = none) (message : String → ToRequester) (hs : I s) :
    J (s.finishTask taskId message) := by
  rw [finishTask_missing missing]
  exact h.weaken hs

theorem onRunnerMessage (h : Closed cfg s₀ (.runnerMessage runnerId runnerMessage) I J)
    (coherent : s₀.Coherent) (hs : I (s₀.record (.runnerMessage runnerId runnerMessage))) :
    J (onRunnerMessage cfg (s₀.record (.runnerMessage runnerId runnerMessage)) runnerId runnerMessage) := by
  unfold Broker.onRunnerMessage
  split
  case isFalse => exact h.weaken hs
  case isTrue known =>
    cases runnerMessage with
    | info _ _ => exact h.weaken hs
    | taskAccepted taskId => exact h.accepted runnerId taskId rfl known hs
    | taskRejected taskId reason => exact h.weaken (h.answerRunner _ _ hs)
    | taskDeferred taskId => exact h.weaken (h.answerRunner _ _ hs)
    | taskOffer offerId taskType validFor =>
      apply h.weaken
      show I (Broker.settleTasks _ _)
      apply h.settleTasks trivial
      · exact coherent.apart
      · exact h.addOffer runnerId taskType validFor _ rfl rfl known hs
    | taskDataRequest taskId requestId params =>
      exact h.weaken (h.forwardToRequester taskId _ (fun _ => rfl) rfl rfl hs)
    | nodeTypesRequest taskId requestId params =>
      exact h.weaken (h.forwardToRequester taskId _ (fun _ => rfl) rfl rfl hs)
    | rpc taskId callId name params =>
      exact h.weaken (h.forwardToRequester taskId _ (fun _ => rfl) rfl rfl hs)
    | taskDone taskId data =>
      cases present : s₀.tasks.get taskId with
      | none => exact h.finishMissing (s := s₀.record _) present _ hs
      | some task =>
        have has : s₀.tasks.has taskId := by simp [OrderedMap.has, present]
        exact (h.finish (s := s₀.record _) taskId data .requesterTimedOut trivial ⟨rfl, known, has⟩ rfl rfl rfl hs).1
    | taskError taskId error =>
      cases present : s₀.tasks.get taskId with
      | none => exact h.finishMissing (s := s₀.record _) present _ hs
      | some task =>
        have has : s₀.tasks.has taskId := by simp [OrderedMap.has, present]
        exact (h.finish (s := s₀.record _) taskId "" (.foreign error) trivial ⟨rfl, known, has⟩ rfl rfl rfl hs).2

theorem taskRequested (h : Closed cfg s₀ (.requesterMessage requesterId (.taskRequest requestId taskType)) I J)
    (coherent : s₀.Coherent) (hs : I (s₀.record (.requesterMessage requesterId (.taskRequest requestId taskType)))) :
    I (Broker.onRequesterMessage cfg (s₀.record (.requesterMessage requesterId (.taskRequest requestId taskType)))
      requesterId (.taskRequest requestId taskType)) := by
  have start : ∀ {s}, I s → I (s.setTimeout (.request requestId)) :=
    h.setTimeout (.request requestId) (fun _ => by simp)
  show I (Broker.taskRequested _ _ _)
  unfold Broker.taskRequested
  split
  · unfold Broker.messageRequester
    split
    · exact h.clearTimeout _ (start (h.drain requestId requesterId taskType rfl hs))
    · exact h.clearTimeout _ (start (h.skipRef hs))
  · apply h.settleTasks trivial
    · show (List.map _ (s₀.pendingTaskRequests ++ [_])).Nodup
      rw [map_append]
      exact coherent.add.apart
    · exact start (h.addRequest requestId requesterId taskType _ rfl hs)

theorem onRequesterMessage (h : Closed cfg s₀ (.requesterMessage requesterId requesterMessage) I J)
    (coherent : s₀.Coherent) (hs : I (s₀.record (.requesterMessage requesterId requesterMessage))) :
    I (onRequesterMessage cfg (s₀.record (.requesterMessage requesterId requesterMessage))
      requesterId requesterMessage) := by
  cases requesterMessage with
  | taskSettings taskId settings =>
    show I (Broker.answerRequester _ _ _)
    unfold Broker.answerRequester
    split
    · exact h.forgetRequester taskId (h.settings requesterId taskId settings rfl hs)
    · exact hs
  | taskCancel taskId reason =>
    simp only [Broker.onRequesterMessage]
    split
    · exact h.frame _ rfl trivial (h.cancel taskId reason hs)
    · exact hs
  | taskRequest requestId taskType => exact h.taskRequested coherent hs
  | taskDataResponse taskId requestId data =>
    exact h.respondToRunner coherent taskId _ (fun _ => rfl) rfl (fun missing => ⟨rfl, missing⟩) hs
  | nodeTypesResponse taskId requestId nodeTypes =>
    exact h.respondToRunner coherent taskId _ (fun _ => rfl) rfl (fun missing => ⟨rfl, missing⟩) hs
  | rpcResponse taskId callId status data =>
    exact h.respondToRunner coherent taskId _ (fun _ => rfl) rfl (fun missing => ⟨rfl, missing⟩) hs

theorem requesterReject (h : Closed cfg s₀ e I J) (taskId reason : String) (hs : I s) :
    I (s.handleRequesterReject taskId reason) := by
  unfold Broker.handleRequesterReject Broker.answerRequester
  split
  · exact h.forgetRequester taskId (h.rejectRequester taskId _ hs)
  · exact hs

theorem handleTaskTimeout (h : Closed cfg s₀ (.fire handle) I J) (taskId : String)
    (pending : (handle, .task taskId) ∈ s₀.timers) (same : s.tasks = s₀.tasks)
    (sameFrames : s.frames = s₀.frames) (sameNext : s.nextTask = s₀.nextTask) (hs : I s) :
    J (Broker.handleTaskTimeout cfg s taskId) := by
  unfold Broker.handleTaskTimeout
  split
  · exact h.weaken hs
  · rename_i task present
    rw [same] at present
    split
    · rename_i mode
      have has : s₀.tasks.has taskId := by simp [OrderedMap.has, present]
      exact (h.finish (s := { s with log := .timedOutDuringTask :: s.log }) taskId "" _
        trivial ⟨pending, mode, has⟩ same sameFrames sameNext
        (h.entry .timedOutDuringTask rfl trivial hs)).2
    · refine h.weaken (h.timeoutFrame handle taskId rfl pending sameFrames sameNext
        (h.messageRunner _ rfl (fun id named => ?_) hs))
      cases named
      exact .inl ⟨task, present, rfl⟩

theorem fireTimer (h : Closed cfg s₀ (.fire handle) I J) (timer : Timer)
    (pending : (handle, timer) ∈ s₀.timers) (same : s.tasks = s₀.tasks)
    (sameFrames : s.frames = s₀.frames) (sameNext : s.nextTask = s₀.nextTask) (hs : I s) :
    J (fireTimer cfg s timer) := by
  cases timer with
  | request requestId => exact h.weaken (h.expire requestId hs)
  | runnerAccept taskId runnerId => exact h.weaken (h.settleRunner taskId _ hs)
  | requesterAccept taskId => exact h.weaken (h.rejectRequester taskId _ hs)
  | task taskId => exact h.handleTaskTimeout taskId pending same sameFrames sameNext hs

section

variable (h : Closed cfg s₀ (.resume i) I J) (accept : Accept)
include h accept

theorem sendTaskSettings (settings : String)
    (there : s₀.frames[i]? = some (.accepting accept (.awaitingRequester (some (.settings settings)))))
    (hs : I (s₀.record (.resume i))) : J (((s₀.record (.resume i)).resumed i).sendTaskSettings accept settings) := by
  unfold Broker.sendTaskSettings
  split
  · rename_i missing
    exact h.ended i accept _ rfl there (.answered settings missing) hs
  · rename_i task found
    split
    · rename_i runner known
      exact h.foundRunner i accept settings task runner rfl there found known hs
    · rename_i unknown
      rw [failTask_suspend]
      exact h.lostRunner i accept settings task _ rfl there found unknown hs

theorem acceptSucceeded (there : s₀.frames[i]? = some (.accepting accept (.awaitingRunner (some .accepted))))
    (hs : I (s₀.record (.resume i))) : J (((s₀.record (.resume i)).resumed i).acceptSucceeded accept) := by
  unfold Broker.acceptSucceeded
  split
  · rename_i found
    simp only [List.any_eq_true, decide_eq_true_eq] at found
    exact h.announce i accept rfl there found hs
  · rename_i missing
    simp only [List.any_eq_true, decide_eq_true_eq] at missing
    exact h.orphan i accept rfl there missing hs

theorem acceptCancelled {phase : Phase} (reason : String) (there : s₀.frames[i]? = some (.accepting accept phase))
    (cancels : phase.Cancels) (hs : I (s₀.record (.resume i))) :
    J (((s₀.record (.resume i)).resumed i).acceptCancelled accept reason) := by
  rw [Broker.acceptCancelled, cancelTask_suspend]
  exact h.cancelled i accept phase reason rfl there cancels hs

theorem resumeAccept (phase : Phase)
    (there : s₀.frames[i]? = some (.accepting accept phase)) (hs : I (s₀.record (.resume i)))
    (taken : ((s₀.record (.resume i)).resumed i).resumeAccept accept phase = some s) : J s := by
  cases phase with
  | offerSent answer =>
    cases taken
    exact h.advance i accept _ _ rfl there (.offer answer) hs
  | awaitingRunner answer =>
    cases answer with
    | none => cases taken
    | some answer =>
      cases answer with
      | accepted =>
        cases taken
        exact h.acceptSucceeded accept there hs
      | rejected error =>
        cases taken
        exact h.giveUp i accept error rfl there hs
  | readySent answer =>
    cases taken
    exact h.advance i accept _ _ rfl there (.ready answer) hs
  | awaitingRequester answer =>
    cases answer with
    | none => cases taken
    | some answer =>
      cases answer with
      | settings settings =>
        cases taken
        exact h.sendTaskSettings accept settings there hs
      | rejected error =>
        cases taken
        exact h.acceptCancelled accept _ there (.rejected error) hs
  | gotRunner runnerId settings =>
    cases taken
    cases found : s₀.tasks.get accept.taskId with
    | none =>
      have unchanged : ((s₀.record (.resume i)).resumed i).startTask accept runnerId settings =
          (s₀.record (.resume i)).resumed i := by
        unfold Broker.startTask
        split
        · rfl
        · rename_i task present
          exact absurd (found.symm.trans present) (by simp)
      rw [unchanged]
      exact h.ended i accept _ rfl there (.gotRunner runnerId settings found) hs
    | some task => exact h.started i accept runnerId settings task rfl there found hs
  | settingsSent =>
    cases taken
    exact h.ended i accept _ rfl there .settingsSent hs
  | runnerMissing =>
    cases taken
    exact h.acceptCancelled accept _ there .runnerMissing hs
  | cancelSent =>
    cases taken
    exact h.ended i accept _ rfl there .cancelSent hs

end

theorem resumeFrame (h : Closed cfg s₀ (.resume i) I J) (coherent : s₀.Coherent) (frame : Frame)
    (there : s₀.frames[i]? = some frame) (hs : I (s₀.record (.resume i)))
    (taken : resumeFrame cfg ((s₀.record (.resume i)).resumed i) frame = some s) : J s := by
  cases frame with
  | finishing =>
    cases taken
    exact h.weaken (h.resumeNeutral i _ rfl there rfl hs)
  | terminalSent taskId =>
    cases taken
    exact h.resumeTerminal i taskId rfl there hs
  | timeoutCancelSent taskId =>
    cases taken
    exact h.resumeTimeout i taskId rfl there hs
  | respond runnerId message =>
    cases taken
    have suspended := mem_of_getElem? there
    have neutral := coherent.replies runnerId message suspended
    have rest := h.resumeNeutral i _ rfl there neutral hs
    exact h.weaken (h.frame _ rfl trivial (h.messageRunner message neutral (fun _ _ => .inr suspended) rest))
  | accepting accept phase => exact h.resumeAccept accept phase there hs taken

end Closed

/-- Any event, from a state that satisfies `I` once the event is recorded. -/
theorem step_closed {cfg : Config} {s₀ s' : Broker} {e : Event} {I J : Broker → Prop}
    (h : Closed cfg s₀ e I J) (coherent : s₀.Coherent) (hs : I (s₀.record e))
    (taken : step cfg s₀ e = some s') : J s' := by
  have taken : handle cfg (s₀.record e) e = some s' := taken
  cases e with
  | registerRunner runner =>
    cases taken
    exact h.weaken (h.messageRunner _ rfl (fun _ named => nomatch named) (h.setRunner runner hs))
  | deregisterRunner runnerId error =>
    cases taken
    exact h.weaken (h.deregisterRunner coherent hs)
  | registerRequester requesterId =>
    cases taken
    exact h.weaken (h.setRequesters _ hs)
  | deregisterRequester requesterId =>
    cases taken
    exact h.weaken (h.setRequesters _ hs)
  | runnerMessage runnerId message =>
    cases taken
    exact h.onRunnerMessage coherent hs
  | requesterMessage requesterId message =>
    cases taken
    exact h.weaken (h.onRequesterMessage coherent hs)
  | requesterReject taskId reason =>
    cases taken
    exact h.weaken (h.requesterReject taskId reason hs)
  | startDraining =>
    cases taken
    exact h.weaken (h.aux _ _ _ _ _ (fun _ _ member => member) hs)
  | tick elapsed =>
    cases taken
    exact h.weaken (h.tick elapsed hs)
  | fire handle =>
    simp only [Broker.handle, map_eq_some_iff] at taken
    obtain ⟨timer, found, rfl⟩ := taken
    have pending : timer ∈ s₀.timers := mem_of_find?_eq_some found
    have same : timer.1 = handle := by simpa using find?_some found
    refine h.fireTimer timer.2 (same ▸ pending) ?_ ?_ ?_ (h.aux (s := s₀.record (.fire handle)) _ _ _ _ _
        (fun _ _ member => (mem_filter.mp member).1) hs)
    · rfl
    · rfl
    · rfl
  | resume i =>
    simp only [Broker.handle, bind_eq_some_iff] at taken
    obtain ⟨frame, there, rest⟩ := taken
    exact h.resumeFrame coherent frame there hs rest

end Broker

end N8n.TaskBroker
