import Mathlib.Algebra.Order.Group.Nat
import N8n.PythonRunner

/-! When the Python runner stays within its capacity. -/

namespace N8n.PythonRunner

variable {maxConcurrency : ℕ} {state state' : State}

def WithinCapacity (maxConcurrency : ℕ) (state : State) : Prop :=
  state.runningTasks.size + state.openOffers.size ≤ maxConcurrency

/-- The offers that calls of `_send_offers` are still to make. -/
def planned (state : State) : ℕ := (state.runs.values.map id).sum

/-- No call of `_send_offers` decides to make offers while another one is still to make some. -/
def OffersAlone (maxConcurrency : ℕ) (state : State) : Event → Prop
  | .sendOffers _ _ _ => state.canSendOffers = true → planned state = 0 ∨ offersToSend maxConcurrency state = 0
  | .cancel taskId _ _ _ => state.canSendOffers = true → ∀ taskState, state.runningTasks.get taskId = some taskState →
        taskState.status = .waitingForSettings → planned state = 0 ∨ offersToSend maxConcurrency
            { state with runningTasks := state.runningTasks.delete taskId } = 0
  | _ => True

def reserve (state : State) : ℕ :=
  state.runningTasks.size + state.openOffers.size + planned state

theorem withinCapacity_of_reserve (room : reserve state ≤ maxConcurrency) : WithinCapacity maxConcurrency state := by
  rw [reserve] at room
  rw [WithinCapacity]
  omega

theorem reserve_setTask {taskId : String} {before : TaskState} (taskState : TaskState)
    (known : state.runningTasks.get taskId = some before) :
    reserve (setTask state taskId taskState) = reserve state := by
  simp only [reserve, setTask, planned, OrderedMap.size_set_known _ _ known]

theorem reserve_setProcess (taskId : String) (process : Process) :
    reserve (setProcess state taskId process) = reserve state := by
  rw [setProcess]
  split
  · rename_i taskState known
    exact reserve_setTask _ known
  · rfl

theorem reserve_offer {run remaining : ℕ} (known : state.runs.get run = some remaining)
    (offerId : String) (validUntil : ℕ) : reserve (offer state run remaining offerId validUntil) ≤ reserve state := by
  match remaining with
  | 0 =>
    have less := state.runs.sum_delete_le id run
    simp only [reserve, offer, planned]
    omega
  | remaining + 1 =>
    have open_ := state.openOffers.size_set_le offerId { validUntil }
    have sums := state.runs.sum_set id remaining known
    simp only [reserve, offer, planned, id] at sums ⊢
    omega

theorem reserve_sendOffers {run : ℕ} (new : state.runs.get run = none) (offerId : String)
    (validUntil : ℕ) (room : reserve state ≤ maxConcurrency)
    (alone : state.canSendOffers = true → planned state = 0 ∨ offersToSend maxConcurrency state = 0) :
    reserve (sendOffers maxConcurrency state run offerId validUntil) ≤ maxConcurrency := by
  have fewer : (withoutExpired state).openOffers.size ≤ state.openOffers.size :=
    state.openOffers.size_filter_le _
  rw [sendOffers]
  split_ifs with sends
  · have alone := alone sends
    match number : offersToSend maxConcurrency state with
    | 0 =>
      have less := state.runs.sum_delete_le id run
      simp only [reserve, offer, planned] at room ⊢
      simp only [withoutExpired] at fewer ⊢
      omega
    | remaining + 1 =>
      have none_ : planned state = 0 := alone.resolve_right (by simp [number])
      have open_ := (withoutExpired state).openOffers.size_set_le offerId { validUntil }
      have sums := state.runs.sum_set_new id remaining new
      rw [offersToSend] at number
      simp only [reserve, offer, planned] at none_ ⊢
      simp only [withoutExpired, id] at fewer open_ sums number ⊢
      omega
  · exact room

theorem reserve_fail (taskId : String) (execution : Execution) :
    reserve (fail state taskId execution) = reserve state := rfl

theorem reserve_collect (taskId : String) (execution : Execution) (result : Option ℕ) :
    Always (fun state' => reserve state' = reserve state) (collect state taskId execution result) := by
  unfold collect
  split
  · exact .some rfl
  · exact .none
  · exact .some (by rw [reserve_fail, reserve_setProcess])
  · exact .some rfl

section

variable (room : reserve state ≤ maxConcurrency)
include room

theorem reserve_accept (taskId offerId : String) :
    Always (reserve · ≤ maxConcurrency) (step maxConcurrency state (.accept taskId offerId)) := by
  rw [step]
  refine .refuse fun _ => ?_
  split
  · rename_i offer found
    refine .ite (fun _ => .some room) fun _ => .some ?_
    have running := state.runningTasks.size_set_le taskId {}
    have open_ := state.openOffers.size_delete_lt found
    simp only [reserve, setTask, planned] at room ⊢
    omega
  · exact .some room

theorem reserve_cancel {taskId offerId : String} {run validUntil : ℕ}
    (alone : OffersAlone maxConcurrency state (.cancel taskId run offerId validUntil)) :
    Always (reserve · ≤ maxConcurrency) (step maxConcurrency state (.cancel taskId run offerId validUntil)) := by
  rw [step]
  refine .refuse fun busy => ?_
  split
  · exact .some room
  · rename_i known
    refine .some (reserve_sendOffers ?_ offerId validUntil ?_ fun sends => alone sends _ known rfl)
    · simpa [OrderedMap.has] using (not_or.mp busy).2
    · have fewer := state.runningTasks.size_delete_le taskId
      simp only [reserve, planned] at room ⊢
      omega
  · rename_i process known
    have same := reserve_setTask { status := .aborting, process } known
    exact .some (same.le.trans room)
  · exact .some room

theorem reserve_step {event : Event} (alone : OffersAlone maxConcurrency state event) :
    Always (reserve · ≤ maxConcurrency) (step maxConcurrency state event) := by
  cases event with
  | sendOffers run offerId validUntil =>
    refine .refuse fun busy => .some ?_
    exact reserve_sendOffers (by simpa [OrderedMap.has] using busy) offerId validUntil room alone
  | nextOffer run offerId validUntil =>
    rintro _ stepped
    obtain ⟨remaining, known, rfl⟩ := Option.map_eq_some_iff.mp stepped
    exact (reserve_offer known offerId validUntil).trans room
  | dropOffers run =>
    refine .some ?_
    have less := state.runs.sum_delete_le id run
    simp only [reserve, planned] at room ⊢
    omega
  | accept taskId offerId => exact reserve_accept room taskId offerId
  | cancel taskId run offerId validUntil => exact reserve_cancel room alone
  | settings taskId continueOnFail =>
    rw [step]
    refine .refuse fun _ => ?_
    split
    · rename_i taskState known
      exact .ite (fun _ => .some room) fun _ => .some ((reserve_setTask _ known).le.trans room)
    · exact .some room
  | execute taskId valid =>
    rw [step]
    split
    · exact .ite (fun _ => .some ((reserve_setProcess taskId .created).le.trans room)) fun _ => .some room
    · exact .none
  | startProcess taskId =>
    rw [step]
    split
    · exact .guard fun _ => (reserve_setProcess taskId .alive).le.trans room
    · exact .none
  | exit taskId exitcode => exact .guard fun _ => (reserve_setProcess taskId (.exited exitcode)).le.trans room
  | collect taskId result =>
    rw [step]
    split
    · exact fun _ collected => (reserve_collect _ _ _ _ collected).le.trans room
    · exact .none
  | finish taskId =>
    have fewer := state.runningTasks.size_delete_le taskId
    have less : reserve { state with
        executions := Function.update state.executions taskId none
        runningTasks := state.runningTasks.delete taskId } ≤ maxConcurrency := by
      simp only [reserve, planned] at room ⊢
      omega
    rw [step]
    split
    · exact .some less
    · exact .some less
    · exact .none
  | signal exitcode =>
    rw [step]
    split
    · rename_i taskId signals
      refine .refuse fun _ => .ite (fun _ => .some ?_) fun _ => .some room
      have same : reserve _ = reserve state := reserve_setProcess taskId (.exited exitcode)
      exact same.le.trans room
    · exact .none
  | stop =>
    rw [step]
    split
    · exact .ite (fun _ => .some room) fun _ => .some room
    · exact .none
  | tick seconds => exact .some room
  | registered | drain | reply => exact .guard fun _ => room
  | offered =>
    rw [step]
    split
    · exact .refuse fun _ => .some room
    · exact .none
  | sendPrint | sendDone | sendFails | sendError | stopReturns =>
    rw [step]
    split
    · exact .some room
    · exact .none

end

end N8n.PythonRunner
