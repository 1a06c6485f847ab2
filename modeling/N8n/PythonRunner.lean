import Mathlib.Data.Int.Notation
import Mathlib.Logic.Function.Basic
import N8n.OrderedMap
import N8n.TransitionSystem

/-! The task runner for Python: coroutines that interleave at their awaits, and the threads that
wait for and stop the processes of the tasks. -/

namespace N8n.PythonRunner

inductive TaskStatus where
  | waitingForSettings
  | running
  | aborting
  deriving DecidableEq

inductive Process where
  | created
  | alive
  | exited (exitcode : ℤ)
  deriving DecidableEq

structure TaskState where
  status : TaskStatus := .waitingForSettings
  process : Option Process := none
  deriving DecidableEq

structure TaskOffer where
  validUntil : ℕ
  deriving DecidableEq

def TaskOffer.hasExpired (offer : TaskOffer) (now : ℕ) : Bool := offer.validUntil < now

/-- `_execute_task` at its awaits. -/
inductive Phase where
  | scheduled
  /-- A thread runs `execute_process`. -/
  | executing
  /-- There is a result, and so many calls of `print` are still to be sent before it. -/
  | printing (left : ℕ)
  /-- An error is to be sent. -/
  | failing
  | sent
  deriving DecidableEq

structure Execution where
  phase : Phase
  continueOnFail : Bool
  deriving DecidableEq

/-- The handler of the broker's messages, which takes one after the other. -/
inductive Handler where
  | idle
  | replying
  /-- The cancellation of a waiting task runs `_send_offers`. -/
  | offering (taskId : String) (run : ℕ)
  /-- A thread runs `stop_process`, which was given a process or `None`. -/
  | stopping (taskId : String) (process : Bool)
  /-- It has found the process alive. -/
  | signalling (taskId : String)
  | stopped (taskId : String)
  deriving DecidableEq

/-- `runs` are the calls of `_send_offers` that await a send, with the number of offers that they
are still to make. The ids of the tasks accepted, and those whose cancellation was handled, are
kept for the statements and the broker's use of ids only. -/
structure State where
  now : ℕ := 0
  canSendOffers : Bool := false
  openOffers : OrderedMap String TaskOffer := .empty
  runningTasks : OrderedMap String TaskState := .empty
  runs : OrderedMap ℕ ℕ := .empty
  handler : Handler := .idle
  executions : String → Option Execution := fun _ => none
  accepted : List String := []
  canceled : List String := []

inductive Event where
  | tick (seconds : ℕ)
  | registered
  | drain
  /-- A loop calls `_send_offers`; the next offer is given with the event. -/
  | sendOffers (run : ℕ) (offerId : String) (validUntil : ℕ)
  /-- The send of an offer returns. -/
  | nextOffer (run : ℕ) (offerId : String) (validUntil : ℕ)
  /-- It raises, or the loop is cancelled. -/
  | dropOffers (run : ℕ)
  | accept (taskId offerId : String)
  /-- The send of the handler returns. -/
  | reply
  | settings (taskId : String) (continueOnFail : Bool)
  /-- `_execute_task` begins: the code is valid and a process is created, or it raises. -/
  | execute (taskId : String) (valid : Bool)
  | startProcess (taskId : String)
  | exit (taskId : String) (exitcode : ℤ)
  /-- `execute_process` returns with a result and its print calls, or raises. -/
  | collect (taskId : String) (result : Option ℕ)
  | sendPrint (taskId : String)
  | sendDone (taskId : String)
  /-- A send raises. -/
  | sendFails (taskId : String)
  | sendError (taskId : String)
  | finish (taskId : String)
  | cancel (taskId : String) (run : ℕ) (offerId : String) (validUntil : ℕ)
  /-- The `_send_offers` of the handler has returned. -/
  | offered
  /-- `stop_process` looks at the process. -/
  | stop
  /-- It signals the process, which exits with this code if it is still alive. -/
  | signal (exitcode : ℤ)
  | stopReturns

section Offers

variable (maxConcurrency : ℕ) (state : State)

/-- One round of the loop over the offers. -/
def offer (run remaining : ℕ) (offerId : String) (validUntil : ℕ) : State :=
  match remaining with
  | 0 => { state with runs := state.runs.delete run }
  | remaining + 1 => { state with
      openOffers := state.openOffers.set offerId { validUntil }
      runs := state.runs.set run remaining }

def withoutExpired : State :=
  { state with openOffers := state.openOffers.filter fun offer => !offer.hasExpired state.now }

def offersToSend : ℕ :=
  maxConcurrency - ((withoutExpired state).openOffers.size + state.runningTasks.size)

def sendOffers (run : ℕ) (offerId : String) (validUntil : ℕ) : State :=
  if state.canSendOffers then
    offer (withoutExpired state) run (offersToSend maxConcurrency state) offerId validUntil
  else state

end Offers

section Tasks

variable (state : State)

def setTask (taskId : String) (taskState : TaskState) : State :=
  { state with runningTasks := state.runningTasks.set taskId taskState }

def setPhase (taskId : String) (execution : Execution) (phase : Phase) : State :=
  { state with
    executions := Function.update state.executions taskId (some { execution with phase }) }

def process (taskId : String) : Option Process :=
  (state.runningTasks.get taskId).bind TaskState.process

def setProcess (taskId : String) (process : Process) : State :=
  match state.runningTasks.get taskId with
  | some taskState => setTask state taskId { taskState with process := some process }
  | none => state

/-- What `execute_process` raises is a result too when `continue_on_fail` is set. -/
def fail (taskId : String) (execution : Execution) : State :=
  setPhase state taskId execution (if execution.continueOnFail then .printing 0 else .failing)

def collect (taskId : String) (execution : Execution) (result : Option ℕ) : Option State :=
  match result, process state taskId with
  | some left, some (.exited 0) => some (setPhase state taskId execution (.printing left))
  | some _, _ => none
  -- The task times out, and its process is stopped.
  | none, some .alive => some (fail (setProcess state taskId (.exited (-15))) taskId execution)
  | none, _ => some (fail state taskId execution)

def handled (taskId : String) : State :=
  { state with handler := .idle, canceled := state.canceled ++ [taskId] }

end Tasks

def step (maxConcurrency : ℕ) (state : State) : Event → Option State
  | .tick seconds => some { state with now := state.now + seconds }
  | .registered => if state.handler = .idle then some { state with canSendOffers := true } else none
  | .drain => if state.handler = .idle then some { state with canSendOffers := false } else none
  | .sendOffers run offerId validUntil =>
    if state.runs.has run then none
    else some (sendOffers maxConcurrency state run offerId validUntil)
  | .nextOffer run offerId validUntil =>
    (state.runs.get run).map fun remaining => offer state run remaining offerId validUntil
  | .dropOffers run => some { state with runs := state.runs.delete run }
  | .accept taskId offerId =>
    -- The broker gives each task an id of its own.
    if state.handler ≠ .idle ∨ taskId ∈ state.accepted then none
    else
      match state.openOffers.get offerId with
      | some offer =>
        if offer.hasExpired state.now ∨ maxConcurrency ≤ state.runningTasks.size then
          some { state with handler := .replying }
        else
          some { setTask state taskId {} with
            openOffers := state.openOffers.delete offerId
            handler := .replying
            accepted := state.accepted ++ [taskId] }
      | none => some { state with handler := .replying }
  | .reply => if state.handler = .replying then some { state with handler := .idle } else none
  | .settings taskId continueOnFail =>
    if state.handler ≠ .idle then none
    else
      match state.runningTasks.get taskId with
      | some taskState =>
        if taskState.status ≠ .waitingForSettings then some state
        else
          some (setPhase (setTask state taskId { taskState with status := .running }) taskId
            { phase := .scheduled, continueOnFail } .scheduled)
      | none => some state
  | .execute taskId valid =>
    match state.executions taskId with
    | some { phase := .scheduled, continueOnFail } =>
      if valid && state.runningTasks.has taskId then
        some (setPhase (setProcess state taskId .created) taskId { phase := .scheduled, continueOnFail } .executing)
      else some (setPhase state taskId { phase := .scheduled, continueOnFail } .failing)
    | _ => none
  | .startProcess taskId =>
    match state.executions taskId with
    | some { phase := .executing, .. } =>
      if process state taskId = some .created then some (setProcess state taskId .alive) else none
    | _ => none
  | .exit taskId exitcode =>
    if process state taskId = some .alive then some (setProcess state taskId (.exited exitcode))
    else none
  | .collect taskId result =>
    match state.executions taskId with
    | some { phase := .executing, continueOnFail } =>
      collect state taskId { phase := .executing, continueOnFail } result
    | _ => none
  | .sendPrint taskId =>
    match state.executions taskId with
    | some { phase := .printing (left + 1), continueOnFail } =>
      some (setPhase state taskId { phase := .printing (left + 1), continueOnFail } (.printing left))
    | _ => none
  | .sendDone taskId =>
    match state.executions taskId with
    | some { phase := .printing 0, continueOnFail } =>
      some (setPhase state taskId { phase := .printing 0, continueOnFail } .sent)
    | _ => none
  | .sendFails taskId =>
    match state.executions taskId with
    | some { phase := .printing left, continueOnFail } =>
      some (setPhase state taskId { phase := .printing left, continueOnFail } .failing)
    | _ => none
  | .sendError taskId =>
    match state.executions taskId with
    | some { phase := .failing, continueOnFail } =>
      some (setPhase state taskId { phase := .failing, continueOnFail } .sent)
    | _ => none
  | .finish taskId =>
    match state.executions taskId with
    | some { phase := .sent, .. } | some { phase := .failing, .. } =>
      some { state with
        executions := Function.update state.executions taskId none
        runningTasks := state.runningTasks.delete taskId }
    | _ => none
  | .cancel taskId run offerId validUntil =>
    if state.handler ≠ .idle ∨ state.runs.has run then none
    else
      match state.runningTasks.get taskId with
      | none => some state
      | some { status := .waitingForSettings, .. } =>
        some (sendOffers maxConcurrency { state with
            runningTasks := state.runningTasks.delete taskId
            handler := .offering taskId run } run offerId validUntil)
      | some { status := .running, process } =>
        some { setTask state taskId { status := .aborting, process } with
          handler := .stopping taskId process.isSome }
      | some { status := .aborting, .. } => some state
  | .offered =>
    match state.handler with
    | .offering taskId run => if state.runs.has run then none else some (handled state taskId)
    | _ => none
  | .stop =>
    match state.handler with
    | .stopping taskId given =>
      if given ∧ process state taskId = some .alive then
        some { state with handler := .signalling taskId }
      else some { state with handler := .stopped taskId }
    | _ => none
  | .signal exitcode =>
    match state.handler with
    | .signalling taskId =>
      if exitcode = 0 then none
      else if process state taskId = some .alive then
        some { setProcess state taskId (.exited exitcode) with handler := .stopped taskId }
      else some { state with handler := .stopped taskId }
    | _ => none
  | .stopReturns =>
    match state.handler with
    | .stopped taskId => some (handled state taskId)
    | _ => none

def system (maxConcurrency : ℕ) : TransitionSystem State Event where
  init := {}
  step := step maxConcurrency

end N8n.PythonRunner
