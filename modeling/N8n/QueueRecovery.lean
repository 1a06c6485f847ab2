import Mathlib.Logic.Function.Basic
import Mathlib.Tactic.Common
import N8n.TransitionSystem

/-! The recovery of executions that the queue has lost, between the reads and writes of the
processes that create, start and complete executions. -/

namespace N8n.QueueRecovery

open List

inductive ExecutionStatus where
  | canceled
  | crashed
  | error
  | new
  | running
  | success
  | unknown
  | waiting
  deriving DecidableEq

def isTerminalExecutionStatus : ExecutionStatus → Bool
  | .canceled | .crashed | .error | .success => true
  | .new | .running | .unknown | .waiting => false

def isInProgress (status : ExecutionStatus) : Bool :=
  status = .new ∨ status = .running

/-- The states of a job that the recovery asks the queue for. -/
inductive JobStatus where
  | waiting
  | active
  deriving DecidableEq

/-- `recoverFromQueue` between its awaits. -/
inductive Recovery (Id : Type) where
  | idle
  /-- The queue is to be read next. -/
  | stored (ids : List Id)
  /-- `markAsCrashed` is to update these executions, in batches. -/
  | marking (ids : List Id)

structure State (Id : Type) where
  executions : Id → Option ExecutionStatus := fun _ => none
  jobs : Id → Option JobStatus := fun _ => none
  recovery : Recovery Id := .idle

inductive Event (Id : Type) where
  /-- Another process creates the row of an execution. -/
  | create (id : Id)
  | enqueue (id : Id)
  | start (id : Id)
  | setRunning (id : Id)
  /-- Another process writes a final status. -/
  | complete (id : Id) (status : ExecutionStatus)
  /-- The job leaves the queue, after its completion or by a loss. -/
  | remove (id : Id)
  /-- The database answers `getInProgressExecutionIds`. -/
  | readExecutions (ids : List Id)
  /-- The queue answers `findJobsByStatus`. -/
  | readQueue
  /-- The database updates a batch of `markAsCrashed`. -/
  | mark

section Steps

variable {Id : Type} [DecidableEq Id] (batchSize : ℕ) (state : State Id)

def MAX_UPDATE_BATCH_SIZE : ℕ := 900

/-- The order of the rows is left to the database. -/
def isAnswer (ids : List Id) : Bool :=
  ids.length ≤ batchSize && ids.Nodup && ids.all fun id => (state.executions id).any isInProgress

def danglingIds (storedIds : List Id) : List Id :=
  storedIds.filter fun id => (state.jobs id).isNone

def update (batch : List Id) : State Id :=
  { state with
    executions := fun id =>
      if id ∈ batch then (state.executions id).map fun _ => .crashed else state.executions id }

/-- The recovery goes on with these ids, or returns if there are none. -/
def proceed (next : List Id → Recovery Id) (ids : List Id) : State Id :=
  { state with recovery := if ids = [] then .idle else next ids }

def step : Event Id → Option (State Id)
  | .create id =>
    if (state.executions id).isSome then none
    else some { state with executions := Function.update state.executions id (some .new) }
  | .enqueue id =>
    if (state.executions id).isNone || (state.jobs id).isSome then none
    else some { state with jobs := Function.update state.jobs id (some .waiting) }
  | .start id =>
    if state.jobs id = some .waiting then
      some { state with jobs := Function.update state.jobs id (some .active) }
    else none
  | .setRunning id =>
    if state.jobs id = some .active then
      some { state with
        executions := Function.update state.executions id ((state.executions id).map fun _ => .running) }
    else none
  | .complete id status =>
    if isTerminalExecutionStatus status && (state.executions id).isSome then
      some { state with executions := Function.update state.executions id (some status) }
    else none
  | .remove id => some { state with jobs := Function.update state.jobs id none }
  | .readExecutions ids =>
    match state.recovery with
    | .idle => if isAnswer batchSize state ids then some (proceed state .stored ids) else none
    | _ => none
  | .readQueue =>
    match state.recovery with
    | .stored ids => some (proceed state .marking (danglingIds state ids))
    | _ => none
  | .mark =>
    match state.recovery with
    | .marking ids =>
      some (proceed (update state (ids.take MAX_UPDATE_BATCH_SIZE)) .marking (ids.drop MAX_UPDATE_BATCH_SIZE))
    | _ => none

def system : TransitionSystem (State Id) (Event Id) where
  init := {}
  step := step batchSize

end Steps

section Marking

variable {Id : Type} [DecidableEq Id] {batchSize : ℕ} {state state' : State Id}

/-- The execution is over, or its job is waiting or active. -/
def Live (state : State Id) (id : Id) : Prop :=
  (state.executions id).any isTerminalExecutionStatus = true ∨ state.jobs id ≠ none

def marks (state : State Id) : Event Id → List Id
  | .mark =>
    match state.recovery with
    | .marking ids => ids.take MAX_UPDATE_BATCH_SIZE
    | _ => []
  | _ => []

/-- No execution is marked that is over or has a job. -/
def MarksDangling (state : State Id) (event : Event Id) : Prop :=
  ∀ id ∈ marks state event, ¬ Live state id

/-- No step of another process comes between the reads and the mark where it matters: an execution
whose job is gone when the queue is read is not over by then, and while it waits to be marked
nobody completes or enqueues it. -/
def Undisturbed (state : State Id) : Event Id → Prop
  | .readQueue => ∀ ids, state.recovery = .stored ids → ∀ id ∈ ids, state.jobs id = none →
      (state.executions id).any isTerminalExecutionStatus = false
  | .complete id _ | .enqueue id => ∀ ids, state.recovery = .marking ids → id ∉ ids
  | _ => True

structure Dangling (state : State Id) : Prop where
  stored : ∀ ids, state.recovery = .stored ids → ids.Nodup
  marking : ∀ ids, state.recovery = .marking ids → ids.Nodup ∧ ∀ id ∈ ids, ¬ Live state id

omit [DecidableEq Id] in
theorem not_live_iff {id : Id} : ¬ Live state id ↔
      (state.executions id).any isTerminalExecutionStatus = false ∧ state.jobs id = none := by
  simp [Live]

omit [DecidableEq Id] in
theorem Dangling.other (dangling : Dangling state) (same : state'.recovery = state.recovery)
    (kept : ∀ ids, state.recovery = .marking ids → ∀ id ∈ ids, ¬ Live state id →
      ¬ Live state' id) : Dangling state' where
  stored ids reading := dangling.stored ids (same ▸ reading)
  marking ids marking := by
    obtain ⟨nodup, none_⟩ := dangling.marking ids (same ▸ marking)
    exact ⟨nodup, fun id listed => kept ids (same ▸ marking) id listed (none_ id listed)⟩

omit [DecidableEq Id] in
theorem Dangling.apart (dangling : Dangling state) (same : state'.recovery = state.recovery) (id : Id)
    (elsewhere : ∀ other, other ≠ id → state'.executions other = state.executions other ∧
      state'.jobs other = state.jobs other)
    (unmarked : ∀ ids, state.recovery = .marking ids → ¬ Live state id → id ∉ ids) : Dangling state' := by
  refine dangling.other same fun ids marking other listed none_ => ?_
  have different : other ≠ id := by
    rintro rfl
    exact unmarked ids marking none_ listed
  rw [not_live_iff, (elsewhere other different).1, (elsewhere other different).2, ← not_live_iff]
  exact none_

theorem dangling_step (dangling : Dangling state) {event : Event Id} (undisturbed : Undisturbed state event)
    (stepped : step batchSize state event = some state') : Dangling state' := by
  cases event with
  | create id =>
    rw [step] at stepped
    split_ifs at stepped with exists_
    cases stepped
    refine dangling.other rfl fun ids _ other _ none_ => ?_
    rw [not_live_iff] at none_ ⊢
    simp only [Function.update_apply]
    split_ifs
    · exact ⟨rfl, none_.2⟩
    · exact none_
  | enqueue id =>
    rw [step] at stepped
    split_ifs at stepped with refused
    cases stepped
    refine dangling.apart rfl id (fun other different => by simp [different]) fun ids marking _ => ?_
    exact undisturbed ids marking
  | start id =>
    rw [step] at stepped
    split_ifs at stepped with waits
    cases stepped
    refine dangling.apart rfl id (fun other different => by simp [different]) fun ids _ none_ => ?_
    simp [(not_live_iff.mp none_).2] at waits
  | setRunning id =>
    rw [step] at stepped
    split_ifs at stepped with active
    cases stepped
    refine dangling.apart rfl id (fun other different => by simp [different]) fun ids _ none_ => ?_
    simp [(not_live_iff.mp none_).2] at active
  | complete id status =>
    rw [step] at stepped
    split_ifs at stepped
    cases stepped
    refine dangling.apart rfl id (fun other different => by simp [different]) fun ids marking _ => ?_
    exact undisturbed ids marking
  | remove id =>
    cases stepped
    refine dangling.other rfl fun ids _ other _ none_ => ?_
    rw [not_live_iff] at none_ ⊢
    simp only [Function.update_apply]
    split_ifs
    · exact ⟨none_.1, rfl⟩
    · exact none_
  | readExecutions ids =>
    rw [step] at stepped
    split at stepped
    · split_ifs at stepped with answer
      cases stepped
      simp only [isAnswer, Bool.and_eq_true, decide_eq_true_eq] at answer
      constructor
      · intro ids' reading
        rw [proceed] at reading
        dsimp only at reading
        split_ifs at reading
        cases reading
        exact answer.1.2
      · intro ids' marking
        rw [proceed] at marking
        dsimp only at marking
        split_ifs at marking
    · cases stepped
  | readQueue =>
    rw [step] at stepped
    split at stepped
    · rename_i ids reading
      cases stepped
      constructor
      · intro ids' reading'
        rw [proceed] at reading'
        dsimp only at reading'
        split_ifs at reading'
      · intro ids' marking
        rw [proceed] at marking
        dsimp only at marking
        split_ifs at marking
        cases marking
        refine ⟨(dangling.stored ids reading).filter _, fun id listed => ?_⟩
        obtain ⟨listed, gone⟩ := mem_filter.mp listed
        have absent : state.jobs id = none := by simpa using gone
        exact not_live_iff.mpr ⟨undisturbed ids reading id listed absent, absent⟩
    · cases stepped
  | mark =>
    rw [step] at stepped
    split at stepped
    · rename_i ids marking
      cases stepped
      obtain ⟨nodup, none_⟩ := dangling.marking ids marking
      constructor
      · intro ids' reading
        rw [proceed] at reading
        dsimp only at reading
        split_ifs at reading
      · intro ids' marking'
        rw [proceed] at marking'
        dsimp only at marking'
        split_ifs at marking'
        cases marking'
        refine ⟨nodup.sublist (drop_sublist _ _), fun id listed => ?_⟩
        have parts := nodup_append.mp ((take_append_drop MAX_UPDATE_BATCH_SIZE ids).symm ▸ nodup)
        have outside : id ∉ ids.take MAX_UPDATE_BATCH_SIZE := fun taken =>
          parts.2.2 id taken id listed rfl
        have before := not_live_iff.mp (none_ id (mem_of_mem_drop listed))
        exact not_live_iff.mpr ⟨by simpa [proceed, update, outside] using before.1, before.2⟩
    · cases stepped

omit [DecidableEq Id] in
theorem Dangling.marksDangling (dangling : Dangling state) (event : Event Id) : MarksDangling state event := by
  intro id marked
  cases event with
  | mark =>
    rw [marks] at marked
    split at marked
    · rename_i ids marking
      exact (dangling.marking ids marking).2 id (mem_of_mem_take marked)
    · cases marked
  | _ => cases marked

/-- In the runs that nobody disturbs no execution is marked as crashed that is over or has a job
that is waiting or active. -/
theorem marksDangling_of_undisturbed {events : List (Event Id)}
    (undisturbed : (system batchSize).AllSteps Undisturbed {} events) :
    (system batchSize).AllSteps MarksDangling {} events :=
  undisturbed.of_invariant (P := Dangling) (fun _ _ _ dangling meets stepped => dangling_step dangling meets stepped)
    (fun _ event _ dangling _ _ => dangling.marksDangling event)
    ⟨by rintro ids ⟨⟩, by rintro ids ⟨⟩⟩

/-- The first execution has lost its job, the second one is enqueued. -/
theorem marksDangling_lost : (system 10).AllSteps MarksDangling ({} : State ℕ)
      [.create 1, .create 2, .enqueue 1, .enqueue 2, .remove 1, .readExecutions [2, 1], .readQueue, .mark] := by
  apply marksDangling_of_undisturbed
  rintro _ ⟨⟩
  refine ⟨trivial, ?_⟩
  rintro _ ⟨⟩
  refine ⟨trivial, ?_⟩
  rintro _ ⟨⟩
  refine ⟨by rintro ids ⟨⟩, ?_⟩
  rintro _ ⟨⟩
  refine ⟨by rintro ids ⟨⟩, ?_⟩
  rintro _ ⟨⟩
  refine ⟨trivial, ?_⟩
  rintro _ ⟨⟩
  refine ⟨trivial, ?_⟩
  rintro _ ⟨⟩
  refine ⟨?_, ?_⟩
  · rintro ids ⟨⟩ id listed gone
    rcases mem_pair.mp listed with rfl | rfl
    · rfl
    · rfl
  rintro _ ⟨⟩
  exact ⟨trivial, trivial⟩

/-- The job of a new execution is enqueued after the queue was read. -/
theorem not_marksDangling_late : ¬ (system 10).AllSteps MarksDangling ({} : State ℕ)
      [.create 1, .readExecutions [1], .readQueue, .enqueue 1, .mark] := by
  intro all
  have last := (all _ rfl).2 _ rfl |>.2 _ rfl |>.2 _ rfl |>.2 _ rfl |>.1
  exact last 1 (by decide) (.inr (by decide))

end Marking

end N8n.QueueRecovery
