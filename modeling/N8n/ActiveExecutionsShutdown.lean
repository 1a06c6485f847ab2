import N8n.ConcurrencyAccounts
import N8n.OrderedMap
import N8n.OrderedSet
import N8n.QueueRecovery

/-! The shutdown of the active executions beside the concurrency control. The
control records the executions that it lets through and its calls of `cancelMany`.
`shutdown` runs without a pause as far as `removeAll`. The handlers of the rejected
promises run after that, in any order, and the wait ends when no execution is left.
The order of the ids in an object decides nothing here and is that of insertion. -/

namespace N8n

inductive WorkflowExecuteMode
  | cli
  | error
  | integrated
  | internal
  | manual
  | retry
  | trigger
  | webhook
  | evaluation
  | chat
  deriving DecidableEq

inductive ConcurrencyQueueType
  | production
  | evaluation
  deriving DecidableEq

namespace ConcurrencyQueue

def getAll (q : ConcurrencyQueue) : OrderedSet String := .ofList q.queue

def Outcome.remove (o : Outcome) (executionId : String) : Outcome :=
  let next := o.after.remove executionId
  ⟨next.after, o.emitted ++ next.emitted, o.letThrough ++ next.letThrough⟩

/-- The loop of `removeAll` over one queue. -/
def drain (q : ConcurrencyQueue) : Outcome := q.getAll.elements.foldl Outcome.remove ⟨q, [], []⟩

end ConcurrencyQueue

/-! ## The concurrency control -/

/-- `evaluationLimit` is the normalised limit that the first evaluation resolves. -/
structure ConcurrencyControlService where
  isEnabled : Bool
  evalQueueResolved : Bool
  evaluationLimit : Int
  queues : OrderedMap ConcurrencyQueueType ConcurrencyQueue
  letThrough : List String := []
  cancelMany : List (List String) := []
  deriving DecidableEq

namespace ConcurrencyControlService

variable (control : ConcurrencyControlService)

def ensureEvalQueueResolved : ConcurrencyControlService :=
  if control.evalQueueResolved then control
  else if 0 < control.evaluationLimit then
    { control with
      evalQueueResolved := true
      queues := control.queues.set .evaluation ⟨control.evaluationLimit, []⟩
      isEnabled := true }
  else { control with evalQueueResolved := true }

def getQueue : WorkflowExecuteMode → Option (ConcurrencyQueueType × ConcurrencyQueue)
  | .error | .integrated | .cli | .internal | .manual | .retry => none
  | .webhook | .trigger | .chat => (control.queues.get .production).map (.production, ·)
  | .evaluation => (control.queues.get .evaluation).map (.evaluation, ·)

def release (mode : WorkflowExecuteMode) : ConcurrencyControlService :=
  let control := if mode = .evaluation then control.ensureEvalQueueResolved else control
  if control.isEnabled then
    match control.getQueue mode with
    | none => control
    | some (type, queue) =>
      { control with
        queues := control.queues.set type queue.dequeue.after
        letThrough := control.letThrough ++ queue.dequeue.letThrough }
  else control

def removeAll (executionIdsToCancel : List String) : ConcurrencyControlService :=
  if control.isEnabled then
    let drained := control.queues.mapValues ConcurrencyQueue.drain
    { control with
      queues := drained.mapValues ConcurrencyQueue.Outcome.after
      letThrough := control.letThrough ++ drained.values.flatMap (·.letThrough)
      cancelMany := control.cancelMany ++
        if executionIdsToCancel = [] then [] else [executionIdsToCancel] }
  else control

def disable : ConcurrencyControlService := { control with isEnabled := false }

def AllEmpty : Prop := ∀ type queue, control.queues.get type = some queue → queue.queue = []

theorem release_disabled {mode : WorkflowExecuteMode} (disabled : control.isEnabled = false)
    (other : mode ≠ .evaluation) : control.release mode = control := by
  simp [release, other, disabled]

theorem removeAll_disabled (disabled : control.isEnabled = false) (ids : List String) :
    control.removeAll ids = control := by
  simp [removeAll, disabled]

end ConcurrencyControlService

/-! ## The active executions -/

open QueueRecovery (ExecutionStatus)

/-- An active execution. `settled` says that its post-execution promise is. -/
structure IExecutingWorkflowData where
  executionMode : WorkflowExecuteMode
  status : ExecutionStatus
  settled : Bool := false
  deriving DecidableEq

/-- `add` reserves no capacity for an evaluation, which is throttled elsewhere. -/
def shouldReserveCapacity (mode : WorkflowExecuteMode) : Bool := mode ≠ .evaluation

structure ActiveExecutions where
  concurrencyControl : ConcurrencyControlService
  activeExecutions : OrderedMap String IExecutingWorkflowData
  settling : List (String × IExecutingWorkflowData) := []
  deriving DecidableEq

namespace ActiveExecutions

def executionIds (process : ActiveExecutions) : List String :=
  process.activeExecutions.entries.map Prod.fst

def stopExecution (process : ActiveExecutions) (executionId : String) : ActiveExecutions :=
  match process.activeExecutions.get executionId with
  | none => process
  | some execution =>
    if execution.status = .waiting then
      { process with activeExecutions := process.activeExecutions.delete executionId }
    else if execution.settled then process
    else
      { process with
        activeExecutions :=
          process.activeExecutions.set executionId { execution with settled := true }
        settling := process.settling ++ [(executionId, { execution with settled := true })] }

/-- One pass of the loop of `shutdown`, with the ids in `toCancel`. -/
def visit (isRegularMode cancelAll : Bool) (state : ActiveExecutions × List String)
    (executionId : String) : ActiveExecutions × List String :=
  match state.1.activeExecutions.get executionId with
  | none => state
  | some { status := status, .. } =>
    if isRegularMode && cancelAll then
      (state.1.stopExecution executionId, state.2 ++ [executionId])
    else if status = .waiting ∨ status = .new then
      ({ state.1 with activeExecutions := state.1.activeExecutions.delete executionId }, state.2)
    else state

/-- `shutdown` as far as the wait. -/
def shutdown (process : ActiveExecutions) (isRegularMode cancelAll : Bool) : ActiveExecutions :=
  let process := if isRegularMode then
      { process with concurrencyControl := process.concurrencyControl.disable }
    else process
  let stopped := process.executionIds.foldl (visit isRegularMode cancelAll) (process, [])
  { stopped.1 with concurrencyControl := stopped.1.concurrencyControl.removeAll stopped.2 }

/-- The handler that `add` puts on the promise of an execution. -/
def settle (process : ActiveExecutions) (handler : String × IExecutingWorkflowData) :
    ActiveExecutions :=
  let control := if shouldReserveCapacity handler.2.executionMode then
      process.concurrencyControl.release handler.2.executionMode
    else process.concurrencyControl
  { process with
    concurrencyControl := control
    activeExecutions := if handler.2.status = .waiting then process.activeExecutions
      else process.activeExecutions.delete handler.1 }

/-- The state in which the handlers have run in the given order. -/
def settleAll (process : ActiveExecutions) (order : List (String × IExecutingWorkflowData)) :
    ActiveExecutions :=
  order.foldl settle process

@[simp] theorem stopExecution_control (process : ActiveExecutions) (executionId : String) :
    (process.stopExecution executionId).concurrencyControl = process.concurrencyControl := by
  unfold stopExecution
  split
  · rfl
  · split
    · rfl
    · split <;> rfl

theorem visit_control (isRegularMode cancelAll : Bool) (ids : List String) (state : ActiveExecutions × List String) :
    (ids.foldl (visit isRegularMode cancelAll) state).1.concurrencyControl =
      state.1.concurrencyControl := by
  induction ids generalizing state with
  | nil => rfl
  | cons id ids ih =>
    rw [List.foldl_cons, ih]
    unfold visit
    split
    · rfl
    · split
      · exact stopExecution_control _ _
      · split <;> rfl

/-- In regular mode the loop of `removeAll` is never reached: the control has been
disabled two statements before. -/
theorem shutdown_control (process : ActiveExecutions) (cancelAll : Bool) :
    (process.shutdown true cancelAll).concurrencyControl = process.concurrencyControl.disable := by
  simp only [shutdown, if_true, visit_control]
  exact ConcurrencyControlService.removeAll_disabled _ rfl _

theorem settle_control (process : ActiveExecutions) (handler : String × IExecutingWorkflowData)
    (disabled : process.concurrencyControl.isEnabled = false) :
    (process.settle handler).concurrencyControl = process.concurrencyControl := by
  by_cases reserved : shouldReserveCapacity handler.2.executionMode = true
  · have other : handler.2.executionMode ≠ .evaluation := by
      simpa [shouldReserveCapacity] using reserved
    simp only [settle, reserved, if_true]
    exact ConcurrencyControlService.release_disabled _ disabled other
  · simp only [settle, reserved, Bool.false_eq_true, if_false]

theorem settleAll_control (process : ActiveExecutions) (order : List (String × IExecutingWorkflowData))
    (disabled : process.concurrencyControl.isEnabled = false) :
    (process.settleAll order).concurrencyControl = process.concurrencyControl := by
  induction order generalizing process with
  | nil => rfl
  | cons handler order ih =>
    have same := process.settle_control handler disabled
    rw [settleAll, List.foldl_cons]
    exact (ih (process.settle handler) (same ▸ disabled)).trans same

/-! ## What the shutdown cancels and starts -/

/-- Everything active was handed to `cancelMany`, the queues are empty and nothing
was let through. -/
structure CancelsAndStartsNothing (before after : ActiveExecutions) : Prop where
  handed : ∃ calls, after.concurrencyControl.cancelMany = before.concurrencyControl.cancelMany ++ calls ∧
    ∀ id ∈ before.executionIds, ∃ ids ∈ calls, id ∈ ids
  emptied : after.concurrencyControl.AllEmpty
  held : after.concurrencyControl.letThrough = before.concurrencyControl.letThrough

/-- The handlers of what was stopped find the control disabled. Nothing is let
through, and nothing else happens either. -/
theorem settled_control (process : ActiveExecutions) (cancelAll : Bool)
    (order : List (String × IExecutingWorkflowData)) :
    ((process.shutdown true cancelAll).settleAll order).concurrencyControl =
      process.concurrencyControl.disable := by
  have control := process.shutdown_control cancelAll
  rw [settleAll_control _ order (by rw [control]; rfl), control]

/-- Whatever handlers have run since, the shutdown has cancelled what it stopped
exactly when there was nothing to cancel. -/
theorem shutdown_cancels_iff (process : ActiveExecutions) (order : List (String × IExecutingWorkflowData)) :
    CancelsAndStartsNothing process ((process.shutdown true true).settleAll order) ↔
      process.executionIds = [] ∧ process.concurrencyControl.AllEmpty := by
  have control := process.settled_control true order
  constructor
  · intro cancelled
    obtain ⟨calls, appended, covered⟩ := cancelled.handed
    have none : calls = [] := by
      rw [control] at appended
      exact List.append_right_eq_self.mp appended.symm
    refine ⟨List.eq_nil_iff_forall_not_mem.mpr fun id active => ?_, ?_⟩
    · obtain ⟨ids, member, -⟩ := covered id active
      rw [none] at member
      exact List.not_mem_nil member
    · have emptied := cancelled.emptied
      rw [control] at emptied
      exact emptied
  · rintro ⟨idle, empty⟩
    refine ⟨⟨[], ?_, ?_⟩, ?_, ?_⟩
    · rw [control, List.append_nil]
      rfl
    · simp [idle]
    · rw [control]
      exact empty
    · rw [control]
      rfl

def oneRunning : ActiveExecutions where
  concurrencyControl := {
    isEnabled := true
    evalQueueResolved := true
    evaluationLimit := -1
    queues := .set .empty .production ⟨-1, ["2"]⟩ }
  activeExecutions := .set .empty "1" { executionMode := .webhook, status := .running }

theorem oneRunning_uncancelled : ¬ ∀ (process : ActiveExecutions) (order : List (String × IExecutingWorkflowData)),
      order.Perm (process.shutdown true true).settling →
        CancelsAndStartsNothing process ((process.shutdown true true).settleAll order) := by
  intro cancels
  have emptied := (cancels oneRunning (oneRunning.shutdown true true).settling (.refl _)).emptied
  rw [settled_control] at emptied
  exact absurd (emptied .production ⟨-1, ["2"]⟩ (by decide)) (by decide)

end ActiveExecutions

end N8n
