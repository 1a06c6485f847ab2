import N8n.PythonRunnerCapacity

/-! When a cancelled task of the Python runner sends no result. -/

namespace N8n.PythonRunner

open List Option OrderedMap

section Moves

abbrev Task := Option Execution × Option TaskState

def taskOf (state : State) (taskId : String) : Task :=
  (state.executions taskId, state.runningTasks.get taskId)

/-- What a step can do to a task, besides accepting it. -/
inductive Moves : Task → Task → Prop where
  | stay (task : Task) : Moves task task
  | settings (execution : Option Execution) (process : Option Process) (continueOnFail : Bool) :
      Moves (execution, some { status := .waitingForSettings, process })
        (some { phase := .scheduled, continueOnFail }, some { status := .running, process })
  | create (continueOnFail : Bool) (taskState : TaskState) :
      Moves (some { phase := .scheduled, continueOnFail }, some taskState)
        (some { phase := .executing, continueOnFail }, some { taskState with process := some .created })
  | refuse (continueOnFail : Bool) (entry : Option TaskState) :
      Moves (some { phase := .scheduled, continueOnFail }, entry) (some { phase := .failing, continueOnFail }, entry)
  | start (continueOnFail : Bool) (status : TaskStatus) : Moves (some { phase := .executing, continueOnFail },
          some { status, process := some .created })
        (some { phase := .executing, continueOnFail }, some { status, process := some .alive })
  | exit (execution : Option Execution) (status : TaskStatus) (exitcode : ℤ) :
      Moves (execution, some { status, process := some .alive })
        (execution, some { status, process := some (.exited exitcode) })
  | collect (continueOnFail : Bool) (status : TaskStatus) (left : ℕ) :
      Moves (some { phase := .executing, continueOnFail }, some { status, process := some (.exited 0) })
        (some { phase := .printing left, continueOnFail }, some { status, process := some (.exited 0) })
  | fail (continueOnFail : Bool) (entry : Option TaskState) (dead : entry.bind TaskState.process ≠ some .alive) :
      Moves (some { phase := .executing, continueOnFail }, entry)
        (some { phase := if continueOnFail then .printing 0 else .failing, continueOnFail }, entry)
  | timeOut (continueOnFail : Bool) (status : TaskStatus) : Moves (some { phase := .executing, continueOnFail },
          some { status, process := some .alive })
        (some { phase := if continueOnFail then .printing 0 else .failing, continueOnFail },
          some { status, process := some (.exited (-15)) })
  | sendPrint (left : ℕ) (continueOnFail : Bool) (entry : Option TaskState) :
      Moves (some { phase := .printing (left + 1), continueOnFail }, entry)
        (some { phase := .printing left, continueOnFail }, entry)
  | sendDone (continueOnFail : Bool) (entry : Option TaskState) :
      Moves (some { phase := .printing 0, continueOnFail }, entry) (some { phase := .sent, continueOnFail }, entry)
  | sendFails (left : ℕ) (continueOnFail : Bool) (entry : Option TaskState) :
      Moves (some { phase := .printing left, continueOnFail }, entry)
        (some { phase := .failing, continueOnFail }, entry)
  | sendError (continueOnFail : Bool) (entry : Option TaskState) :
      Moves (some { phase := .failing, continueOnFail }, entry) (some { phase := .sent, continueOnFail }, entry)
  | finish (execution : Execution) (entry : Option TaskState)
      (ended : execution.phase = .sent ∨ execution.phase = .failing) :
      Moves (some execution, entry) (none, none)
  | forget (execution : Option Execution) (process : Option Process) :
      Moves (execution, some { status := .waitingForSettings, process }) (execution, none)
  | abort (execution : Option Execution) (process : Option Process) :
      Moves (execution, some { status := .running, process }) (execution, some { status := .aborting, process })

variable {maxConcurrency : ℕ} {state state' : State}

theorem taskOf_setPhase (taskId other : String) (execution : Execution) (phase : Phase) :
    taskOf (setPhase state taskId execution phase) other =
      if other = taskId then (some { execution with phase }, state.runningTasks.get taskId)
      else taskOf state other := by
  by_cases same : other = taskId
  · simp [taskOf, setPhase, same]
  · simp [taskOf, setPhase, same]

theorem taskOf_setTask (taskId other : String) (taskState : TaskState) : taskOf (setTask state taskId taskState) other =
      if other = taskId then (state.executions taskId, some taskState)
      else taskOf state other := by
  by_cases same : other = taskId
  · simp [taskOf, setTask, same]
  · simp [taskOf, setTask, same, get_set]

variable {taskId : String} {event : Event}

theorem taskOf_setProcess {taskState : TaskState}
    (known : state.runningTasks.get taskId = some taskState) (other : String) (process : Process) :
    taskOf (setProcess state taskId process) other =
      if other = taskId then
        (state.executions taskId, some { taskState with process := some process })
      else taskOf state other := by
  rw [setProcess, known, taskOf_setTask]

theorem taskOf_offer (run remaining : ℕ) (offerId : String) (validUntil : ℕ) (other : String) :
    taskOf (offer state run remaining offerId validUntil) other = taskOf state other := by
  cases remaining <;> rfl

theorem taskOf_sendOffers (run : ℕ) (offerId : String) (validUntil : ℕ) (other : String) :
    taskOf (sendOffers maxConcurrency state run offerId validUntil) other =
      taskOf state other := by
  rw [sendOffers]
  split_ifs
  · exact taskOf_offer ..
  · rfl

theorem known_of_process {process_ : Process} (found : process state taskId = some process_) :
    ∃ status, state.runningTasks.get taskId = some { status, process := some process_ } := by
  obtain ⟨⟨status, process_⟩, known, same⟩ := bind_eq_some_iff.mp found
  exact ⟨status, by rw [known, ← same]⟩

theorem moves_of_one (taskId : String) {before next : Task} (move : Moves before next)
    (found : taskOf state taskId = before)
    (after : ∀ other, taskOf state' other = if other = taskId then next else taskOf state other)
    (other : String) : Moves (taskOf state other) (taskOf state' other) := by
  rw [after]
  split_ifs with same
  · rw [same, found]
    exact move
  · exact .stay _

theorem moves_setPhase {execution : Execution} {phase : Phase} (executes : state.executions taskId = some execution)
    (move : Moves (some execution, state.runningTasks.get taskId)
      (some { execution with phase }, state.runningTasks.get taskId)) (other : String) :
    Moves (taskOf state other) (taskOf (setPhase state taskId execution phase) other) :=
  moves_of_one taskId move (by rw [taskOf, executes]) (fun id => by rw [taskOf_setPhase]) other

theorem moves_collect {continueOnFail : Bool} (result : Option ℕ)
    (executes : state.executions taskId = some { phase := .executing, continueOnFail }) (other : String) :
    Always (fun state' => Moves (taskOf state other) (taskOf state' other))
      (collect state taskId { phase := .executing, continueOnFail } result) := by
  unfold collect
  split
  · rename_i left found
    obtain ⟨status, known⟩ := known_of_process found
    exact .some (moves_setPhase executes (known ▸ .collect continueOnFail status left) other)
  · exact .none
  · rename_i found
    obtain ⟨status, known⟩ := known_of_process found
    refine .some (moves_of_one taskId (.timeOut continueOnFail status) (by rw [taskOf, executes, known])
      (fun id => ?_) other)
    rw [fail, taskOf_setPhase, taskOf_setProcess known]
    by_cases same : id = taskId
    · simp [same, setProcess, known, setTask]
    · simp [same]
  · rename_i dead
    exact .some (moves_setPhase executes (.fail continueOnFail _ dead) other)

theorem accept_moves (taskId offerId other : String) :
    Always (fun state' => Moves (taskOf state other) (taskOf state' other) ∨ other ∉ state.accepted ∧ taskId = other)
      (step maxConcurrency state (.accept taskId offerId)) := by
  rw [step]
  refine .refuse fun refused => ?_
  split
  · refine .ite (fun _ => .some (.inl (.stay _))) fun _ => .some ?_
    by_cases same : other = taskId
    · exact .inr ⟨same ▸ (not_or.mp refused).2, same.symm⟩
    · have kept : taskOf (setTask state taskId {}) other = taskOf state other := by
        rw [taskOf_setTask, if_neg same]
      exact .inl (kept ▸ .stay _)
  · exact .some (.inl (.stay _))

theorem moves_step (noAccept : ∀ taskId offerId, event ≠ .accept taskId offerId) (other : String) :
    Always (fun state' => Moves (taskOf state other) (taskOf state' other)) (step maxConcurrency state event) := by
  cases event with
  | accept taskId offerId => exact absurd rfl (noAccept taskId offerId)
  | settings taskId continueOnFail =>
    rw [step]
    refine .refuse fun _ => ?_
    split
    · rename_i taskState known
      refine .ite (fun _ => .some (.stay _)) fun waits => .some ?_
      obtain ⟨status, process⟩ := taskState
      obtain rfl : status = .waitingForSettings := by simpa using waits
      refine moves_of_one taskId (.settings (state.executions taskId) process continueOnFail)
        (by rw [taskOf, known]) (fun id => ?_) other
      rw [taskOf_setPhase, taskOf_setTask]
      split_ifs
      · simp [setTask]
      · rfl
    · exact .some (.stay _)
  | execute taskId valid =>
    rw [step]
    split
    · rename_i continueOnFail scheduled
      refine .ite (fun starts => .some ?_) fun _ =>
        .some (moves_setPhase scheduled (.refuse continueOnFail _) other)
      obtain ⟨taskState, known⟩ : ∃ taskState, state.runningTasks.get taskId = some taskState := by
        simpa [OrderedMap.has, isSome_iff_exists] using (Bool.and_eq_true_iff.mp starts).2
      refine moves_of_one taskId (.create continueOnFail taskState)
        (by rw [taskOf, scheduled, known]) (fun id => ?_) other
      rw [taskOf_setPhase, taskOf_setProcess known]
      split_ifs
      · simp [setProcess, known, setTask]
      · rfl
    · exact .none
  | startProcess taskId =>
    rw [step]
    split
    · rename_i continueOnFail executes
      refine .guard fun created => ?_
      obtain ⟨status, known⟩ := known_of_process created
      refine moves_of_one taskId (.start continueOnFail status) (by rw [taskOf, executes, known]) (fun id => ?_) other
      rw [taskOf_setProcess known, executes]
    · exact .none
  | exit taskId exitcode =>
    refine .guard fun alive => ?_
    obtain ⟨status, known⟩ := known_of_process alive
    refine moves_of_one taskId (.exit (state.executions taskId) status exitcode)
      (by rw [taskOf, known]) (fun id => ?_) other
    rw [taskOf_setProcess known]
  | signal exitcode =>
    rw [step]
    split
    · rename_i taskId signals
      refine .refuse fun _ => .ite (fun alive => .some ?_) fun _ => .some (.stay _)
      obtain ⟨status, known⟩ := known_of_process alive
      refine moves_of_one taskId (.exit (state.executions taskId) status exitcode)
        (by rw [taskOf, known]) (fun id => ?_) other
      exact taskOf_setProcess known id _
    · exact .none
  | collect taskId result =>
    rw [step]
    split
    · rename_i continueOnFail executes
      exact moves_collect result executes other
    · exact .none
  | sendPrint taskId =>
    rw [step]
    split
    · rename_i left continueOnFail prints
      exact .some (moves_setPhase prints (.sendPrint left continueOnFail _) other)
    · exact .none
  | sendDone taskId =>
    rw [step]
    split
    · rename_i continueOnFail prints
      exact .some (moves_setPhase prints (.sendDone continueOnFail _) other)
    · exact .none
  | sendFails taskId =>
    rw [step]
    split
    · rename_i left continueOnFail prints
      exact .some (moves_setPhase prints (.sendFails left continueOnFail _) other)
    · exact .none
  | sendError taskId =>
    rw [step]
    split
    · rename_i continueOnFail fails
      exact .some (moves_setPhase fails (.sendError continueOnFail _) other)
    · exact .none
  | finish taskId =>
    have ends : ∀ execution, state.executions taskId = some execution →
        execution.phase = .sent ∨ execution.phase = .failing → Moves (taskOf state other) (taskOf { state with
          executions := Function.update state.executions taskId none
          runningTasks := state.runningTasks.delete taskId } other) := by
      intro execution found ended
      refine moves_of_one taskId (.finish _ (state.runningTasks.get taskId) ended)
        (by rw [taskOf, found]) (fun id => ?_) other
      by_cases same : id = taskId
      · simp [taskOf, same]
      · simp [taskOf, same, get_delete]
    rw [step]
    split
    · rename_i continueOnFail ended
      exact .some (ends _ ended (.inl rfl))
    · rename_i continueOnFail ended
      exact .some (ends _ ended (.inr rfl))
    · exact .none
  | cancel taskId run offerId validUntil =>
    rw [step]
    refine .refuse fun _ => ?_
    split
    · exact .some (.stay _)
    · rename_i process known
      refine .some (moves_of_one taskId (.forget (state.executions taskId) process)
        (by rw [taskOf, known]) (fun id => ?_) other)
      rw [taskOf_sendOffers]
      by_cases same : id = taskId
      · simp [taskOf, same]
      · simp [taskOf, same, get_delete]
    · rename_i process known
      refine .some (moves_of_one taskId (.abort (state.executions taskId) process)
        (by rw [taskOf, known]) (fun id => ?_) other)
      change taskOf (setTask state taskId { status := .aborting, process }) id = _
      rw [taskOf_setTask]
    · exact .some (.stay _)
  | sendOffers run offerId validUntil =>
    refine .refuse fun _ => .some ?_
    rw [taskOf_sendOffers]
    exact .stay _
  | nextOffer run offerId validUntil =>
    rintro _ stepped
    obtain ⟨remaining, -, rfl⟩ := Option.map_eq_some_iff.mp stepped
    rw [taskOf_offer]
    exact .stay _
  | dropOffers | tick => exact .some (.stay _)
  | registered | drain | reply => exact .guard fun _ => .stay _
  | offered =>
    rw [step]
    split
    · exact .refuse fun _ => .some (.stay _)
    · exact .none
  | stop =>
    rw [step]
    split
    · exact .ite (fun _ => .some (.stay _)) fun _ => .some (.stay _)
    · exact .none
  | stopReturns =>
    rw [step]
    split
    · exact .some (.stay _)
    · exact .none

theorem step_moves (stepped : step maxConcurrency state event = some state') (other : String) :
    Moves (taskOf state other) (taskOf state' other) ∨
      (other ∉ state.accepted ∧ ∃ offerId, event = .accept other offerId) := by
  by_cases accepts : ∃ taskId offerId, event = .accept taskId offerId
  · obtain ⟨taskId, offerId, rfl⟩ := accepts
    exact (accept_moves taskId offerId other _ stepped).imp_right fun both => ⟨both.1, offerId, by rw [both.2]⟩
  · exact .inl (moves_step (fun taskId offerId same => accepts ⟨taskId, offerId, same⟩) other _ stepped)

end Moves

section Doomed

structure Fits (task : Task) : Prop where
  waiting : ∀ taskState, task.2 = some taskState → taskState.status = .waitingForSettings →
    task.1 = none ∧ taskState.process = none
  executed : task.1 ≠ none → ∃ taskState, task.2 = some taskState
  alive : ∀ taskState, task.2 = some taskState → taskState.process = some .alive →
    ∃ continueOnFail, task.1 = some { phase := .executing, continueOnFail }

inductive Doomed : Task → Prop where
  | ended : Doomed (none, none)
  | failing (continueOnFail : Bool) (entry : Option TaskState) :
      Doomed (some { phase := .failing, continueOnFail }, entry)
  | sent (continueOnFail : Bool) (entry : Option TaskState) : Doomed (some { phase := .sent, continueOnFail }, entry)
  | killed (status : TaskStatus) (exitcode : ℤ) (nonzero : exitcode ≠ 0) :
      Doomed (some { phase := .executing, continueOnFail := false },
        some { status, process := some (.exited exitcode) })

variable {execution : Execution} {entry : Option TaskState} {taskState : TaskState}

theorem Fits.dead (fits : Fits (some execution, entry)) (other : execution.phase ≠ .executing) :
    entry.bind TaskState.process ≠ some .alive := by
  intro lives
  obtain ⟨taskState, rfl, lives⟩ := bind_eq_some_iff.mp lives
  obtain ⟨_, executes⟩ := fits.alive taskState rfl lives
  cases executes
  exact other rfl

theorem Fits.proceed (fits : Fits (some execution, entry)) (dead : entry.bind TaskState.process ≠ some .alive)
    (execution' : Execution) : Fits (some execution', entry) where
  waiting taskState same waits := by
    cases (fits.waiting taskState same waits).1
  executed _ := fits.executed (by simp)
  alive taskState same lives := by
    cases same
    exact absurd lives dead

theorem Fits.change (waits : taskState.status ≠ .waitingForSettings)
    (lives : taskState.process = some .alive → execution.phase = .executing) :
    Fits (some execution, some taskState) where
  waiting _ same waits' := by
    cases same
    exact absurd waits' waits
  executed _ := ⟨taskState, rfl⟩
  alive _ same lives' := by
    cases same
    exact ⟨execution.continueOnFail, by rw [← lives lives']⟩

theorem Fits.started (fits : Fits (some execution, some taskState)) : taskState.status ≠ .waitingForSettings := by
  intro waits
  cases (fits.waiting taskState rfl waits).1

theorem fits_moves {before after : Task} (fits : Fits before) (move : Moves before after) : Fits after := by
  cases move with
  | stay => exact fits
  | settings execution process continueOnFail =>
    obtain ⟨rfl, rfl⟩ := fits.waiting _ rfl rfl
    exact Fits.change (by simp) (by simp)
  | create continueOnFail taskState => exact Fits.change fits.started (by simp)
  | refuse continueOnFail entry => exact fits.proceed (fits.dead (by simp)) _
  | start continueOnFail status => exact Fits.change fits.started (by simp)
  | exit execution status exitcode =>
    obtain ⟨_, rfl⟩ := fits.alive _ rfl rfl
    exact Fits.change fits.started (by simp)
  | collect continueOnFail status left => exact Fits.change fits.started (by simp)
  | fail continueOnFail entry dead => exact fits.proceed dead _
  | timeOut continueOnFail status => exact Fits.change fits.started (by simp)
  | sendPrint left continueOnFail entry => exact fits.proceed (fits.dead (by simp)) _
  | sendDone continueOnFail entry => exact fits.proceed (fits.dead (by simp)) _
  | sendFails left continueOnFail entry => exact fits.proceed (fits.dead (by simp)) _
  | sendError continueOnFail entry => exact fits.proceed (fits.dead (by simp)) _
  | finish execution entry ended => exact ⟨by simp, by simp, by simp⟩
  | forget execution process =>
    obtain ⟨rfl, -⟩ := fits.waiting _ rfl rfl
    exact ⟨by simp, by simp, by simp⟩
  | abort execution process =>
    match execution with
    | some execution =>
      refine Fits.change (by simp) fun lives => ?_
      obtain ⟨_, executes⟩ := fits.alive _ rfl lives
      cases executes
      rfl
    | none =>
      refine ⟨?_, by simp, fun taskState same lives => ?_⟩
      · rintro _ ⟨⟩ ⟨⟩
      · cases same
        exact fits.alive _ rfl lives

/-- A task that sends no result any more stays so, unless its id is accepted again. -/
theorem doomed_moves {before after : Task} (fits : Fits before) (doomed : Doomed before)
    (move : Moves before after) : Doomed after := by
  cases doomed with
  | ended =>
    cases move
    exact .ended
  | failing continueOnFail entry =>
    cases move with
    | stay | exit | abort => exact .failing ..
    | sendError => exact .sent ..
    | finish => exact .ended
    | settings | forget => cases (fits.waiting _ rfl rfl).1
  | sent continueOnFail entry =>
    cases move with
    | stay | exit | abort => exact .sent ..
    | finish => exact .ended
    | settings | forget => cases (fits.waiting _ rfl rfl).1
  | killed status exitcode nonzero =>
    cases move with
    | stay | abort => exact .killed _ _ nonzero
    | settings | forget => cases (fits.waiting _ rfl rfl).1
    | collect => exact absurd rfl nonzero
    | fail => exact .failing ..
    | finish _ _ ended => simp at ended

end Doomed

section Control

variable {maxConcurrency : ℕ} {state state' : State}

/-- What the handler of the broker's messages is at, and the ids that it has taken. -/
def control (state : State) : Handler × List String × List String :=
  (state.handler, state.canceled, state.accepted)

@[simp] theorem control_setPhase (taskId : String) (execution : Execution) (phase : Phase) :
    control (setPhase state taskId execution phase) = control state := rfl

@[simp] theorem control_setProcess (taskId : String) (process : Process) :
    control (setProcess state taskId process) = control state := by
  rw [setProcess]
  split <;> rfl

@[simp] theorem control_offer (run remaining : ℕ) (offerId : String) (validUntil : ℕ) :
    control (offer state run remaining offerId validUntil) = control state := by
  cases remaining <;> rfl

@[simp] theorem control_sendOffers (run : ℕ) (offerId : String) (validUntil : ℕ) :
    control (sendOffers maxConcurrency state run offerId validUntil) = control state := by
  rw [sendOffers]
  split_ifs
  · rw [control_offer]
    rfl
  · rfl

theorem sendOffers_kept (maxConcurrency : ℕ) (state : State) (run : ℕ) (offerId : String) (validUntil : ℕ) :
    (sendOffers maxConcurrency state run offerId validUntil).handler = state.handler ∧
      (sendOffers maxConcurrency state run offerId validUntil).canceled = state.canceled ∧
      (sendOffers maxConcurrency state run offerId validUntil).accepted = state.accepted := by
  have same : control (sendOffers maxConcurrency state run offerId validUntil) = control state :=
    control_sendOffers run offerId validUntil
  simpa [control] using same

theorem setProcess_canceled (taskId : String) (process : Process) :
    (setProcess state taskId process).canceled = state.canceled :=
  congrArg (·.2.1) (control_setProcess taskId process)

theorem setProcess_accepted (taskId : String) (process : Process) :
    (setProcess state taskId process).accepted = state.accepted :=
  congrArg (·.2.2) (control_setProcess taskId process)

theorem control_collect (taskId : String) (execution : Execution) (result : Option ℕ) :
    Always (fun state' => control state' = control state) (collect state taskId execution result) := by
  unfold collect
  split
  · exact .some rfl
  · exact .none
  · exact .some (by rw [fail, control_setPhase, control_setProcess])
  · exact .some rfl

def Event.isQuiet : Event → Bool
  | .accept .. | .reply | .cancel .. | .offered | .stop | .signal _ | .stopReturns => false
  | _ => true

theorem control_quiet {event : Event} (quiet : event.isQuiet = true) :
    Always (fun state' => control state' = control state) (step maxConcurrency state event) := by
  cases event with
  | accept | reply | cancel | offered | stop | signal | stopReturns => cases quiet
  | dropOffers | tick => exact .some rfl
  | registered | drain => exact .guard fun _ => rfl
  | sendOffers run offerId validUntil => exact .refuse fun _ => .some (control_sendOffers ..)
  | nextOffer run offerId validUntil =>
    rintro _ stepped
    obtain ⟨remaining, -, rfl⟩ := Option.map_eq_some_iff.mp stepped
    exact control_offer ..
  | settings taskId continueOnFail =>
    rw [step]
    refine .refuse fun _ => ?_
    split
    · exact .ite (fun _ => .some rfl) fun _ => .some rfl
    · exact .some rfl
  | execute taskId valid =>
    rw [step]
    split
    · exact .ite (fun _ => .some (by rw [control_setPhase, control_setProcess])) fun _ => .some rfl
    · exact .none
  | startProcess taskId =>
    rw [step]
    split
    · exact .guard fun _ => control_setProcess ..
    · exact .none
  | exit taskId exitcode => exact .guard fun _ => control_setProcess ..
  | collect taskId result =>
    rw [step]
    split
    · exact control_collect _ _ _
    · exact .none
  | finish taskId =>
    rw [step]
    split
    · exact .some rfl
    · exact .some rfl
    · exact .none
  | sendPrint | sendDone | sendFails | sendError =>
    rw [step]
    split
    · exact .some rfl
    · exact .none

end Control

section Cancelling

variable {maxConcurrency : ℕ} {state state' : State}

/-- The stop of a cancellation ends the task: its process is found alive, is still alive when it is
signalled, and does not continue on fail; or the task sends no result any more in any case. -/
def StopsInTime (state : State) : Event → Prop
  | .stop => ∀ taskId given, state.handler = .stopping taskId given →
      (given = true ∧ process state taskId = some .alive) ∨ Doomed (taskOf state taskId)
  | .signal _ => ∀ taskId, state.handler = .signalling taskId → (process state taskId = some .alive ∧
        ∀ execution, state.executions taskId = some execution →
          execution.continueOnFail = false) ∨ Doomed (taskOf state taskId)
  | _ => True

/-- No result is sent for a task whose cancellation was handled. -/
def NoLateDone (state : State) : Event → Prop
  | .sendDone taskId => taskId ∉ state.canceled
  | _ => True

def HandlerFits (state : State) : Handler → Prop
  | .offering taskId _ | .stopped taskId =>
      taskId ∈ state.accepted ∧ Doomed (taskOf state taskId)
  | .stopping taskId _ | .signalling taskId => taskId ∈ state.accepted
  | .idle | .replying => True

structure Settled (state : State) : Prop where
  fits : ∀ taskId, Fits (taskOf state taskId)
  fresh : ∀ taskId, taskId ∉ state.accepted → taskOf state taskId = (none, none)
  canceled : ∀ taskId ∈ state.canceled, taskId ∈ state.accepted ∧ Doomed (taskOf state taskId)
  handler : HandlerFits state state.handler

theorem settled_initial : Settled {} where
  fits _ := ⟨by simp [taskOf], by simp [taskOf], by simp [taskOf]⟩
  fresh _ _ := rfl
  canceled := by simp
  handler := trivial

variable {taskId offerId : String}

theorem step_accept (stepped : step maxConcurrency state (.accept taskId offerId) = some state') :
    state'.handler = .replying ∧ state'.canceled = state.canceled ∧
      ((state'.accepted = state.accepted ∧ ∀ other, taskOf state' other = taskOf state other) ∨
        (taskId ∉ state.accepted ∧ state'.accepted = state.accepted ++ [taskId] ∧ ∀ other, taskOf state' other =
            if other = taskId then (state.executions taskId, some {})
            else taskOf state other)) := by
  simp only [step] at stepped
  split_ifs at stepped with refused
  split at stepped
  · split_ifs at stepped
    · cases stepped
      exact ⟨rfl, rfl, .inl ⟨rfl, fun _ => rfl⟩⟩
    · cases stepped
      refine ⟨rfl, rfl, .inr ⟨(not_or.mp refused).2, rfl, fun other => ?_⟩⟩
      rw [← taskOf_setTask]
      rfl
  · cases stepped
    exact ⟨rfl, rfl, .inl ⟨rfl, fun _ => rfl⟩⟩

variable {event : Event}

section

variable (settled : Settled state)
include settled

section

variable (stepped : step maxConcurrency state event = some state')
include stepped

theorem Settled.doomed_step (known : taskId ∈ state.accepted) (doomed : Doomed (taskOf state taskId)) :
    Doomed (taskOf state' taskId) := by
  rcases step_moves stepped taskId with move | ⟨new, -⟩
  · exact doomed_moves (settled.fits taskId) doomed move
  · exact absurd known new

theorem Settled.move (other : ∀ taskId offerId, event ≠ .accept taskId offerId)
    (accepted : state'.accepted = state.accepted)
    (canceled : ∀ taskId ∈ state'.canceled, taskId ∈ state.accepted ∧ Doomed (taskOf state taskId))
    (handler : HandlerFits state' state'.handler) : Settled state' := by
  have moves : ∀ taskId, Moves (taskOf state taskId) (taskOf state' taskId) := fun taskId =>
    (step_moves stepped taskId).resolve_right fun ⟨_, offerId, accepts⟩ =>
      other taskId offerId accepts
  refine ⟨fun taskId => fits_moves (settled.fits taskId) (moves taskId), fun taskId new => ?_,
    fun taskId listed => ?_, handler⟩
  · have move := moves taskId
    rw [settled.fresh taskId (accepted ▸ new)] at move
    generalize taskOf state' taskId = after at move
    cases move
    rfl
  · obtain ⟨known, doomed⟩ := canceled taskId listed
    exact ⟨accepted ▸ known, settled.doomed_step stepped known doomed⟩

theorem Settled.handlerFits (accepted : state'.accepted = state.accepted) {handler : Handler}
    (fits : HandlerFits state handler) : HandlerFits state' handler := by
  cases handler with
  | idle | replying => trivial
  | stopping taskId | signalling taskId =>
    rw [HandlerFits] at fits ⊢
    rwa [accepted]
  | offering taskId | stopped taskId =>
    rw [HandlerFits] at fits ⊢
    rw [accepted]
    exact ⟨fits.1, settled.doomed_step stepped fits.1 fits.2⟩

end

theorem settled_accept (stepped : step maxConcurrency state (.accept taskId offerId) = some state') :
    Settled state' := by
  obtain ⟨handler, canceled, ⟨accepted, same⟩ | ⟨new, accepted, tasks⟩⟩ := step_accept stepped
  · refine ⟨fun id => ?_, fun id => ?_, fun id => ?_, ?_⟩
    · exact same id ▸ settled.fits id
    · rw [accepted, same]
      exact settled.fresh id
    · rw [canceled, accepted, same]
      exact settled.canceled id
    · rw [handler]
      trivial
  · have none_ := settled.fresh taskId new
    have unexecuted : state.executions taskId = none := congrArg Prod.fst none_
    refine ⟨fun id => ?_, fun id fresh => ?_, fun id listed => ?_, ?_⟩
    · rw [tasks]
      split_ifs
      · rw [unexecuted]
        refine ⟨?_, by simp, ?_⟩
        · rintro _ ⟨⟩ -
          exact ⟨rfl, rfl⟩
        · rintro _ ⟨⟩ ⟨⟩
      · exact settled.fits id
    · rw [accepted, mem_append, not_or, mem_singleton] at fresh
      rw [tasks, if_neg fresh.2]
      exact settled.fresh id fresh.1
    · rw [canceled] at listed
      obtain ⟨known, doomed⟩ := settled.canceled id listed
      have different : id ≠ taskId := by
        rintro rfl
        exact new known
      rw [accepted, tasks, if_neg different]
      exact ⟨mem_append_left _ known, doomed⟩
    · rw [handler]
      trivial

theorem settled_cancel {run validUntil : ℕ}
    (stepped : step maxConcurrency state (.cancel taskId run offerId validUntil) = some state') : Settled state' := by
  have whole := stepped
  simp only [step] at stepped
  split_ifs at stepped with busy
  have known : ∀ taskState, state.runningTasks.get taskId = some taskState → taskId ∈ state.accepted := by
    intro taskState found
    by_contra new
    have none_ := congrArg Prod.snd (settled.fresh taskId new)
    simp [taskOf, found] at none_
  split at stepped
  · cases stepped
    exact settled
  · rename_i process found
    cases stepped
    obtain ⟨handler, canceled, accepted⟩ := sendOffers_kept maxConcurrency { state with
      runningTasks := state.runningTasks.delete taskId
      handler := .offering taskId run } run offerId validUntil
    have unexecuted : state.executions taskId = none :=
      ((settled.fits taskId).waiting _ found rfl).1
    refine settled.move whole (by simp) accepted (fun id listed => ?_) ?_
    · rw [canceled] at listed
      exact settled.canceled id listed
    rw [handler]
    refine ⟨by rw [accepted]; exact known _ found, ?_⟩
    rw [taskOf_sendOffers, taskOf]
    simp only [get_delete_self, unexecuted]
    exact .ended
  · rename_i process found
    cases stepped
    exact settled.move whole (by simp) rfl settled.canceled (known _ found)
  · cases stepped
    exact settled

theorem settled_signal {exitcode : ℤ} (stops : StopsInTime state (.signal exitcode))
    (stepped : step maxConcurrency state (.signal exitcode) = some state') : Settled state' := by
  have whole := stepped
  simp only [step] at stepped
  split at stepped
  · rename_i taskId signals
    have known : taskId ∈ state.accepted := by
      have fits := settled.handler
      rwa [signals] at fits
    split_ifs at stepped with zero alive
    · cases stepped
      refine settled.move whole (by simp) (setProcess_accepted taskId _)
        (fun id listed => settled.canceled id (setProcess_canceled taskId _ ▸ listed)) ⟨?_, ?_⟩
      · exact (setProcess_accepted taskId _).symm ▸ known
      · rcases stops taskId signals with ⟨-, raises⟩ | doomed
        · obtain ⟨status, found⟩ := known_of_process alive
          obtain ⟨continueOnFail, executes⟩ := (settled.fits taskId).alive _ found rfl
          obtain rfl : continueOnFail = false := raises _ executes
          have killed := taskOf_setProcess found taskId (.exited exitcode)
          rw [if_pos rfl, show state.executions taskId = _ from executes] at killed
          exact killed ▸ .killed status exitcode zero
        · exact settled.doomed_step whole known doomed
    · cases stepped
      refine settled.move whole (by simp) rfl settled.canceled ⟨known, ?_⟩
      exact (stops taskId signals).resolve_left fun lives => alive lives.1
  · cases stepped

theorem settled_step (stops : StopsInTime state event)
    (stepped : step maxConcurrency state event = some state') : Settled state' := by
  by_cases quiet : event.isQuiet = true
  · obtain ⟨handler, canceled, accepted⟩ : state'.handler = state.handler ∧
        state'.canceled = state.canceled ∧ state'.accepted = state.accepted := by
      simpa [control] using control_quiet quiet _ stepped
    refine settled.move stepped ?_ accepted (canceled ▸ settled.canceled) ?_
    · rintro taskId offerId rfl
      cases quiet
    · rw [handler]
      exact settled.handlerFits stepped accepted settled.handler
  have whole := stepped
  cases event with
  | accept taskId offerId => exact settled_accept settled stepped
  | cancel taskId run offerId validUntil => exact settled_cancel settled stepped
  | signal exitcode => exact settled_signal settled stops stepped
  | reply =>
    simp only [step] at stepped
    split_ifs at stepped
    cases stepped
    exact settled.move whole (by simp) rfl settled.canceled trivial
  | offered =>
    simp only [step] at stepped
    split at stepped
    · rename_i taskId run offers
      split_ifs at stepped
      cases stepped
      refine settled.move whole (by simp) rfl (fun id listed => ?_) trivial
      rcases mem_append.mp listed with old | last
      · exact settled.canceled id old
      · rw [mem_singleton.mp last]
        have fits := settled.handler
        rwa [offers] at fits
    · cases stepped
  | stop =>
    simp only [step] at stepped
    split at stepped
    · rename_i taskId given stopping
      have known : taskId ∈ state.accepted := by
        have fits := settled.handler
        rwa [stopping] at fits
      split_ifs at stepped with alive
      · cases stepped
        exact settled.move whole (by simp) rfl settled.canceled known
      · cases stepped
        refine settled.move whole (by simp) rfl settled.canceled ⟨known, ?_⟩
        exact (stops taskId given stopping).resolve_left alive
    · cases stepped
  | stopReturns =>
    simp only [step] at stepped
    split at stepped
    · rename_i taskId stopped
      cases stepped
      refine settled.move whole (by simp) rfl (fun id listed => ?_) trivial
      rcases mem_append.mp listed with old | last
      · exact settled.canceled id old
      · rw [mem_singleton.mp last]
        have fits := settled.handler
        rwa [stopped] at fits
    · cases stepped
  | _ => simp [Event.isQuiet] at quiet

theorem Settled.noLateDone (stepped : step maxConcurrency state event = some state') : NoLateDone state event := by
  cases event with
  | sendDone taskId =>
    intro listed
    have doomed := (settled.canceled taskId listed).2
    simp only [step] at stepped
    split at stepped
    · rename_i continueOnFail prints
      rw [taskOf, prints] at doomed
      cases doomed
    · cases stepped
  | _ => trivial

end

/-- The runner stays within its capacity in the runs in which calls of `_send_offers` make their
offers one after the other, and it sends no result for a cancelled task in the runs in which every
stop ends its task. -/
theorem capacity_and_cancellation (maxConcurrency : ℕ) (events : List Event) :
    ((system maxConcurrency).AllSteps (OffersAlone maxConcurrency) {} events →
      (system maxConcurrency).AllStates (WithinCapacity maxConcurrency) {} events) ∧
    ((system maxConcurrency).AllSteps StopsInTime {} events →
      (system maxConcurrency).AllSteps NoLateDone {} events) := by
  constructor
  · intro alone
    refine alone.allStates (P := fun state => reserve state ≤ maxConcurrency)
      (fun _ _ _ room meets stepped => reserve_step room meets _ stepped)
      (fun _ room => withinCapacity_of_reserve room) ?_
    exact Nat.zero_le _
  · intro stops
    exact stops.of_invariant (P := Settled) (fun _ _ _ settled meets stepped => settled_step settled meets stepped)
      (fun _ _ _ settled _ stepped => settled.noLateDone stepped) settled_initial

def cancelledTask : List Event :=
  [.registered, .sendOffers 0 "a" 9, .nextOffer 0 "b" 9, .accept "t" "a", .reply,
    .settings "t" false, .execute "t" true, .startProcess "t", .cancel "t" 1 "c" 9, .stop,
    .signal (-15), .stopReturns, .collect "t" none, .sendError "t", .finish "t"]

theorem capacity_and_cancellation_cancelledTask : (system 2).AllStates (WithinCapacity 2) {} cancelledTask ∧
      (system 2).AllSteps NoLateDone {} cancelledTask := by
  obtain ⟨capacity, cancellation⟩ := capacity_and_cancellation 2 cancelledTask
  constructor
  · apply capacity
    rintro _ ⟨⟩
    refine ⟨trivial, ?_⟩
    rintro _ ⟨⟩
    refine ⟨fun _ => .inl rfl, ?_⟩
    iterate 6
      rintro _ ⟨⟩
      refine ⟨trivial, ?_⟩
    rintro _ ⟨⟩
    refine ⟨?_, ?_⟩
    · rintro - _ ⟨⟩ ⟨⟩
    iterate 6
      rintro _ ⟨⟩
      refine ⟨trivial, ?_⟩
    trivial
  · apply cancellation
    iterate 9
      rintro _ ⟨⟩
      refine ⟨trivial, ?_⟩
    rintro _ ⟨⟩
    refine ⟨?_, ?_⟩
    · rintro _ _ ⟨⟩
      exact .inl ⟨rfl, rfl⟩
    rintro _ ⟨⟩
    refine ⟨?_, ?_⟩
    · rintro _ ⟨⟩
      refine .inl ⟨rfl, ?_⟩
      rintro _ ⟨⟩
      rfl
    iterate 4
      rintro _ ⟨⟩
      refine ⟨trivial, ?_⟩
    trivial

/-- A loop is still to send its last offer when the cancellation of a waiting task sends more. -/
def twoRuns : List Event :=
  [.registered, .sendOffers 0 "a" 9, .nextOffer 0 "b" 9, .accept "t" "a", .reply,
    .cancel "t" 1 "c" 9, .nextOffer 0 "d" 9, .nextOffer 1 "e" 9]

/-- A task is cancelled between its settings and the creation of its process. -/
def earlyCancel : List Event :=
  [.registered, .sendOffers 0 "a" 9, .accept "t" "a", .reply, .settings "t" false,
    .cancel "t" 1 "c" 9, .stop, .stopReturns, .execute "t" true, .startProcess "t", .exit "t" 0,
    .collect "t" (some 0), .sendDone "t"]

theorem not_withinCapacity_and_not_noLateDone : ¬ (system 3).AllStates (WithinCapacity 3) {} twoRuns ∧
      ¬ (system 3).AllSteps NoLateDone {} earlyCancel := by
  constructor
  · intro all
    iterate 8
      replace all := all.2 _ rfl
    have counted : 4 ≤ 3 := all
    omega
  · intro all
    iterate 12
      replace all := (all _ rfl).2
    exact (all _ rfl).1 (by decide)

end Cancelling

end N8n.PythonRunner
