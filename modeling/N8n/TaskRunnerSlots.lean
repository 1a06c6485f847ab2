import N8n.TaskLedger

/-! What a task runner promises. A step of the runner is a move on its ledger, so the
messages that end tasks never exceed the acceptances, and open offers and running tasks
never exceed the concurrency, whatever the broker sends. That every unfinished task has
its own running slot needs one thing of the broker: that it does not give a task the id of
one that is still running. -/

namespace N8n

open Option OrderedMap

/-- A terminal message: the task that it ends, and the id it names. -/
def RunnerMessage.report {Data : Type*} : RunnerMessage Data → Option (ℕ × String)
  | .taskDone task taskId _ => some (task, taskId)
  | .taskError task taskId _ => some (task, taskId)
  | _ => none

namespace TaskRunner

open Ledger

variable {Data : Type*} {cfg : Config} {now : ℕ} {s s' : TaskRunner Data} {message : RunnerMessage Data} {task : ℕ}
  {taskId : String} {taskState : TaskState} {e : ℕ × Event Data}

def reports (s : TaskRunner Data) : List (ℕ × String) := s.sent.filterMap RunnerMessage.report

def ledger (s : TaskRunner Data) : Ledger := ⟨s.tasks, s.runningTasks, s.executions, s.reports⟩

/-! ## Every step is a move -/

theorem ledger_send (other : message.report = none) : (s.send message).ledger = s.ledger := by
  simp [ledger, reports, send, other]

theorem ledger_sendOffers : (s.sendOffers cfg now).ledger = s.ledger := by
  have one (s : TaskRunner Data) : (sendOffer cfg now s).ledger = s.ledger := by
    unfold sendOffer
    rw [ledger_send rfl]
    rfl
  have many (n : ℕ) (s : TaskRunner Data) : ((sendOffer cfg now)^[n] s).ledger = s.ledger := by
    induction n with
    | zero => rfl
    | succ n ih => rw [Function.iterate_succ_apply', one, ih]
  simp only [sendOffers]
  split
  · exact many _ _
  · rfl

theorem resetIdleTimer_eq (cfg : Config) (s : TaskRunner Data) :
    ∃ idleTimer, s.resetIdleTimer cfg = { s with idleTimer } := by
  unfold resetIdleTimer
  split
  · exact ⟨_, rfl⟩
  · exact ⟨_, rfl⟩

theorem ledger_resetIdleTimer : (s.resetIdleTimer cfg).ledger = s.ledger := by
  obtain ⟨idleTimer, same⟩ := resetIdleTimer_eq cfg s
  rw [same]
  rfl

theorem ledger_finishTask (task : ℕ) (taskId : String) :
    (s.finishTask cfg now task taskId).ledger = s.ledger.finish task taskId := by
  rw [finishTask, ledger_resetIdleTimer, ledger_sendOffers]
  rfl

theorem ledger_report (report : message.report = some (task, taskId)) :
    (s.send message).ledger = s.ledger.report task taskId := by
  simp [ledger, reports, send, report, Ledger.report]

theorem runningTask_some (found : s.runningTask taskId = some (task, taskState)) :
    s.runningTasks.get taskId = some task ∧ s.tasks[task]? = some taskState := by
  simp only [runningTask, bind_eq_bind, bind_eq_some_iff] at found
  obtain ⟨task', slot, taskState', stored, same⟩ := found
  cases same
  exact ⟨slot, stored⟩

theorem ledger_accept (s : TaskRunner Data) (taskId : String) : ({ s with
      tasks := s.tasks ++ [TaskState.new taskId]
      timers := s.timers ++ [s.tasks.length]
      runningTasks := s.runningTasks.set taskId s.tasks.length }.send (.taskAccepted taskId)).ledger =
        s.ledger.accept taskId := by
  rw [ledger_send rfl]
  rfl

theorem move_offerAccepted (offerId taskId : String) : s.ledger.Move none (s.offerAccepted cfg offerId taskId).ledger ∨
      s.ledger.Move (some taskId) (s.offerAccepted cfg offerId taskId).ledger := by
  unfold offerAccepted
  split
  · rw [ledger_send rfl]
    exact .inl .quiet
  split
  · rw [ledger_send rfl]
    exact .inl .quiet
  split
  · rw [ledger_send rfl]
    exact .inl .quiet
  · right
    simp only
    rw [ledger_accept, ledger_resetIdleTimer]
    exact .accept taskId

theorem move_taskCancelled (taskId : String) : s.ledger.Move none (s.taskCancelled cfg now taskId).ledger := by
  unfold taskCancelled
  split
  · exact .quiet
  · rename_i task taskState found
    obtain ⟨slot, stored⟩ := runningTask_some found
    split
    · rename_i waiting
      rw [ledger_finishTask]
      exact .withdraw slot stored waiting
    · exact .quiet
    · exact .quiet
    · rename_i running
      exact .abort slot stored running (by simp)

theorem move_taskTimedOut (taskId : String) : s.ledger.Move none (s.taskTimedOut cfg now taskId).ledger := by
  unfold taskTimedOut
  split
  · exact .quiet
  · rename_i task taskState found
    obtain ⟨slot, stored⟩ := runningTask_some found
    split
    · rename_i waiting
      rw [ledger_finishTask, ledger_report rfl]
      exact .expire slot stored waiting
    · exact .quiet
    · rename_i running
      exact .abort slot stored running (by simp)
    · exact .quiet

theorem move_receivedSettings (taskId : String) : s.ledger.Move none (s.receivedSettings taskId).ledger := by
  unfold receivedSettings
  split
  · exact .quiet
  · rename_i task taskState found
    obtain ⟨slot, stored⟩ := runningTask_some found
    split
    · rename_i waiting
      exact .start slot stored waiting
    · exact .quiet

theorem ledger_taskExecutionFailed (s : TaskRunner Data) (cfg : Config) (now task : ℕ)
    (taskState : TaskState) (error : TaskError Data) (serializable : Bool) :
    (s.taskExecutionFailed cfg now task taskState error serializable).ledger = s.ledger.finish task taskState.taskId ∨
      (s.taskExecutionFailed cfg now task taskState error serializable).ledger =
        (s.ledger.report task taskState.taskId).finish task taskState.taskId := by
  unfold taskExecutionFailed
  split
  · exact .inl (ledger_finishTask _ _)
  · exact .inl (ledger_finishTask _ _)
  · rw [ledger_finishTask, ledger_report rfl]
    exact .inr rfl
  · exact .inl (ledger_finishTask _ _)

theorem ledger_taskExecutionSucceeded {data : Data} {serializable : Bool} {error : Option (TaskError Data)}
    (done : s.taskExecutionSucceeded cfg now task taskState data serializable = (s', error)) :
    s'.ledger = s.ledger.finish task taskState.taskId ∨
      s'.ledger = (s.ledger.report task taskState.taskId).finish task taskState.taskId ∧ error = none := by
  unfold taskExecutionSucceeded at done
  split at done
  · cases done
    exact .inl (ledger_finishTask _ _)
  · cases done
    exact .inl (ledger_finishTask _ _)
  · cases done
    rw [ledger_finishTask, ledger_report rfl]
    exact .inr ⟨rfl, rfl⟩
  · cases done
    exact .inl (ledger_finishTask _ _)

/-- When the result cannot be sent, the task is finished twice. -/
theorem move_executionSettled (executing : task ∈ s.executions)
    (stored : s.tasks[task]? = some taskState) (outcome : Except Data Data) (serializable : Bool) :
    s.ledger.Move none (s.executionSettled cfg now task taskState outcome serializable).ledger := by
  have settled : ({ s with executions := s.executions.erase task } : TaskRunner Data).ledger =
      s.ledger.settle task := rfl
  have silent : s.ledger.Move none ((s.ledger.settle task).finish task taskState.taskId) :=
    .settle executing stored
  have reported := Move.complete (l := s.ledger) executing stored
  cases outcome with
  | error error =>
    simp only [executionSettled]
    rcases ledger_taskExecutionFailed { s with executions := s.executions.erase task } cfg now task
      taskState (.thrown error) serializable with same | same
    · rw [same, settled]
      exact silent
    · rw [same, settled]
      exact reported
  | ok data =>
    simp only [executionSettled]
    split
    · rename_i s' done
      rcases ledger_taskExecutionSucceeded done with same | ⟨same, _⟩
      · rw [same, settled]
        exact silent
      · rw [same, settled]
        exact reported
    · rename_i s' error done
      rcases ledger_taskExecutionSucceeded done with same | ⟨_, absurd⟩
      · rcases ledger_taskExecutionFailed s' cfg now task taskState error true with again | again
        · rw [again, same, finish_finish, settled]
          exact silent
        · rw [again, same, settled]
          exact (congrArg (s.ledger.Move none)
            (finish_finish task _ ((s.ledger.settle task).report task taskState.taskId))).mpr reported
      · cases absurd

theorem step_move (taken : step cfg s e = some s') : s.ledger.Move none s'.ledger ∨
      ∃ offerId taskId, e.2 = .taskOfferAccept offerId taskId ∧ s.ledger.Move (some taskId) s'.ledger := by
  obtain ⟨now, e⟩ := e
  simp only [step] at taken
  split at taken
  · cases taken
  cases e with
  | infoRequest =>
    cases taken
    rw [ledger_send rfl]
    exact .inl .quiet
  | runnerRegistered =>
    cases taken
    exact .inl .quiet
  | taskOfferAccept offerId taskId =>
    cases taken
    exact (move_offerAccepted offerId taskId).imp_right fun move => ⟨offerId, taskId, rfl, move⟩
  | taskCancel taskId =>
    cases taken
    exact .inl (move_taskCancelled taskId)
  | taskSettings taskId =>
    cases taken
    exact .inl (move_receivedSettings taskId)
  | drain =>
    cases taken
    exact .inl .quiet
  | offerIntervalFired =>
    simp only at taken
    split at taken
    · cases taken
      rw [ledger_sendOffers]
      exact .inl .quiet
    · cases taken
  | taskTimeoutFired task =>
    simp only at taken
    split at taken
    · obtain ⟨taskState, stored, rfl⟩ := map_eq_some_iff.mp taken
      exact .inl (move_taskTimedOut (s := { s with timers := s.timers.erase task }) taskState.taskId)
    · cases taken
  | idleTimerFired =>
    simp only at taken
    split at taken
    · cases taken
      unfold idleTimeoutReached
      split
      · exact .inl .quiet
      · exact .inl .quiet
    · cases taken
  | executionSettled task outcome serializable =>
    simp only at taken
    split at taken
    · rename_i executing
      obtain ⟨taskState, stored, rfl⟩ := map_eq_some_iff.mp taken
      exact .inl (move_executionSettled executing stored outcome serializable)
    · cases taken
  | stop =>
    cases taken
    exact .inl .quiet
  | connectionClosed =>
    cases taken
    simp only [onConnectionClose]
    split
    · exact .inl .quiet
    · exact .inl .quiet

/-! ## Offers and running tasks fit the concurrency -/

def Bounded (cfg : Config) (s : TaskRunner Data) : Prop :=
  s.openOffers.size + s.runningTasks.size ≤ cfg.maxConcurrency

section

variable (h : s.Bounded cfg)
include h

theorem Bounded.of_le (offers : s'.openOffers.size ≤ s.openOffers.size)
    (running : s'.runningTasks.size ≤ s.runningTasks.size) : s'.Bounded cfg := by
  unfold Bounded at h ⊢
  omega

theorem bounded_resetIdleTimer : (s.resetIdleTimer cfg).Bounded cfg := by
  obtain ⟨idleTimer, same⟩ := resetIdleTimer_eq cfg s
  rw [same]
  exact h

theorem bounded_sendOffers : (s.sendOffers cfg now).Bounded cfg := by
  have many (n : ℕ) (s : TaskRunner Data) (room : s.openOffers.size + s.runningTasks.size + n ≤ cfg.maxConcurrency) :
      ((sendOffer cfg now)^[n] s).Bounded cfg := by
    induction n generalizing s with
    | zero => exact room
    | succ n ih =>
      rw [Function.iterate_succ_apply]
      apply ih
      have one := s.openOffers.size_set_le (cfg.nanoid s.offersMade) ⟨cfg.nanoid s.offersMade,
        now + msToNs (OFFER_VALID_TIME_MS + cfg.randomInt s.offersMade + OFFER_VALID_EXTRA_MS)⟩
      simp only [sendOffer, send]
      omega
  have fewer : (s.deleteStaleOffers now).Bounded cfg :=
    h.of_le (size_filter_le _ _) (Nat.le_refl _)
  simp only [sendOffers]
  split
  · apply many
    unfold Bounded at fewer
    omega
  · exact fewer

theorem bounded_finishTask (task : ℕ) (taskId : String) : (s.finishTask cfg now task taskId).Bounded cfg :=
  bounded_resetIdleTimer (bounded_sendOffers (h.of_le (Nat.le_refl _) (size_delete_le _ _)))

theorem bounded_offerAccepted (offerId taskId : String) : (s.offerAccepted cfg offerId taskId).Bounded cfg := by
  unfold offerAccepted
  split
  · exact h
  split
  · exact h.of_le (size_delete_le _ _) (Nat.le_refl _)
  split
  · exact h
  · rename_i offered
    simp only [OrderedMap.has, Bool.not_eq_true, Bool.not_eq_false', isSome_iff_exists] at offered
    obtain ⟨offer, offered⟩ := offered
    have less := size_delete_lt _ offered
    have more := s.runningTasks.size_set_le taskId s.tasks.length
    simp only
    obtain ⟨idleTimer, same⟩ := resetIdleTimer_eq cfg { s with openOffers := s.openOffers.delete offerId }
    rw [same]
    unfold Bounded at h ⊢
    simp only [send]
    omega

theorem bounded_taskExecutionFailed (task : ℕ) (taskState : TaskState) (error : TaskError Data) (serializable : Bool) :
    (s.taskExecutionFailed cfg now task taskState error serializable).Bounded cfg := by
  unfold taskExecutionFailed
  split
  all_goals
    apply bounded_finishTask
    exact h

theorem bounded_taskExecutionSucceeded (now task : ℕ) (taskState : TaskState) (data : Data) (serializable : Bool) :
    (s.taskExecutionSucceeded cfg now task taskState data serializable).1.Bounded cfg := by
  unfold taskExecutionSucceeded
  split
  all_goals
    apply bounded_finishTask
    exact h

theorem bounded_taskCancelled (taskId : String) : (s.taskCancelled cfg now taskId).Bounded cfg := by
  unfold taskCancelled
  split
  · exact h
  split
  · exact bounded_finishTask h _ _
  all_goals exact h

theorem bounded_taskTimedOut (taskId : String) : (s.taskTimedOut cfg now taskId).Bounded cfg := by
  unfold taskTimedOut
  split
  · exact h
  split
  · apply bounded_finishTask
    exact h
  all_goals exact h

theorem bounded_receivedSettings (taskId : String) : (s.receivedSettings taskId).Bounded cfg := by
  unfold receivedSettings
  split
  · exact h
  split <;> exact h

theorem bounded_executionSettled (task : ℕ) (taskState : TaskState) (outcome : Except Data Data) (serializable : Bool) :
    (s.executionSettled cfg now task taskState outcome serializable).Bounded cfg := by
  have h : ({ s with executions := s.executions.erase task } : TaskRunner Data).Bounded cfg := h
  cases outcome with
  | error error => exact bounded_taskExecutionFailed h task taskState _ serializable
  | ok data =>
    have tried := bounded_taskExecutionSucceeded h now task taskState data serializable
    simp only [executionSettled]
    split
    · rename_i done
      rwa [done] at tried
    · rename_i done
      rw [done] at tried
      exact bounded_taskExecutionFailed tried task taskState _ true

theorem step_bounded (taken : step cfg s e = some s') : s'.Bounded cfg := by
  obtain ⟨now, e⟩ := e
  simp only [step] at taken
  split at taken
  · cases taken
  cases e with
  | taskOfferAccept offerId taskId =>
    cases taken
    exact bounded_offerAccepted h offerId taskId
  | taskCancel taskId =>
    cases taken
    exact bounded_taskCancelled h taskId
  | taskSettings taskId =>
    cases taken
    exact bounded_receivedSettings h taskId
  | offerIntervalFired =>
    simp only at taken
    split at taken
    · cases taken
      exact bounded_sendOffers h
    · cases taken
  | taskTimeoutFired task =>
    simp only at taken
    split at taken
    · obtain ⟨taskState, stored, rfl⟩ := map_eq_some_iff.mp taken
      apply bounded_taskTimedOut
      exact h
    · cases taken
  | executionSettled task outcome serializable =>
    simp only at taken
    split at taken
    · obtain ⟨taskState, stored, rfl⟩ := map_eq_some_iff.mp taken
      exact bounded_executionSettled h task taskState outcome serializable
    · cases taken
  | idleTimerFired =>
    simp only at taken
    split at taken
    · cases taken
      unfold idleTimeoutReached
      split <;> exact h
    · cases taken
  | connectionClosed =>
    cases taken
    simp only [onConnectionClose]
    split <;> exact h
  | stop =>
    cases taken
    exact h.of_le (Nat.zero_le _) (Nat.le_refl _)
  | infoRequest =>
    cases taken
    exact h
  | runnerRegistered =>
    cases taken
    exact h
  | drain =>
    cases taken
    exact h

end

/-! ## What holds in every run -/

theorem ledger_created (cfg : Config) : (created cfg : TaskRunner Data).ledger = ⟨[], .empty, [], []⟩ := by
  rw [created, ledger_resetIdleTimer]
  rfl

theorem reachable_bounded (h : (system cfg Data).Reachable s) : s.Bounded cfg := by
  apply h.invariant
  · exact bounded_resetIdleTimer (Nat.zero_le _)
  · exact fun s e s' bounded taken => step_bounded bounded taken

theorem reachable_balanced (h : (system cfg Data).Reachable s) : s.ledger.Wired ∧ s.ledger.Balanced := by
  apply h.invariant (P := fun s => s.ledger.Wired ∧ s.ledger.Balanced)
  · rw [show (system cfg Data).init = created cfg from rfl, ledger_created]
    exact ⟨⟨by simp, by simp, by simp⟩, fun _ => Nat.zero_le _⟩
  · intro s e s' ⟨wired, balanced⟩ taken
    rcases step_move taken with move | ⟨_, _, _, move⟩
    · exact ⟨wired.move move, balanced.move wired move⟩
    · exact ⟨wired.move move, balanced.move wired move⟩

def Fresh (s : TaskRunner Data) (e : ℕ × Event Data) : Prop :=
  ∀ offerId taskId, e.2 = .taskOfferAccept offerId taskId → s.runningTasks.get taskId = none

theorem slotted (h : (system cfg Data).ReachableVia Fresh s) : s.ledger.Slotted := by
  suffices inv : s.ledger.Wired ∧ s.ledger.Slotted from inv.2
  apply h.invariant (P := fun s => s.ledger.Wired ∧ s.ledger.Slotted)
  · rw [show (system cfg Data).init = created cfg from rfl, ledger_created]
    exact ⟨⟨by simp, by simp, by simp⟩, ⟨by simp, by simp, List.nodup_nil⟩⟩
  · intro s e s' ⟨wired, slotted⟩ fresh taken
    rcases step_move taken with move | ⟨offerId, taskId, accepts, move⟩
    · exact ⟨wired.move move, slotted.move wired move (by simp)⟩
    · refine ⟨wired.move move, slotted.move wired move fun id same => ?_⟩
      cases same
      exact fresh offerId taskId accepts

/-- A task that has been accepted and not finished occupies exactly one slot, a finished
one none, and nothing else occupies a slot. Finishing a task is what cleans it up. -/
structure OneSlotEach (s : TaskRunner Data) : Prop where
  unfinished : ∀ task taskState, s.tasks[task]? = some taskState → taskState.timeoutTimer = true →
    ∃! taskId, s.runningTasks.get taskId = some task
  finished : ∀ task taskState, s.tasks[task]? = some taskState → taskState.timeoutTimer = false →
    ∀ taskId, s.runningTasks.get taskId ≠ some task
  accepted : ∀ taskId task, s.runningTasks.get taskId = some task → task < s.tasks.length

/-- No terminal message ends a task that another one has ended, and each names its task. -/
structure OneReportEach (s : TaskRunner Data) : Prop where
  distinct : (s.reports.map Prod.fst).Nodup
  accepted : ∀ report ∈ s.reports, ∃ taskState, s.tasks[report.1]? = some taskState ∧ taskState.taskId = report.2

theorem runner_keeps_promises (cfg : Config) (s : TaskRunner Data) :
    ((system cfg Data).Reachable s → s.Bounded cfg ∧ s.OneReportEach) ∧
      ((system cfg Data).ReachableVia Fresh s → s.OneSlotEach) := by
  refine ⟨fun reached => ⟨reachable_bounded reached, ?_⟩, fun reached => ?_⟩
  · obtain ⟨wired, balanced⟩ := reachable_balanced reached
    refine ⟨List.nodup_iff_count_le_one.mpr fun task => ?_, wired.reported⟩
    have once := balanced task
    exact (by omega : (s.ledger.reports.map Prod.fst).count task ≤ 1)
  · have slots := (slotted reached).slot
    have wired := (reachable_balanced reached.reachable).1
    refine ⟨fun task taskState stored unfinished => ?_, fun task taskState stored finished id slot => ?_,
      fun taskId task slot => ?_⟩
    · refine ⟨taskState.taskId, (slots task taskState stored).mp unfinished, fun id slot => ?_⟩
      exact (wired.named slot stored).symm
    · have named := wired.named slot stored
      have unfinished := (slots task taskState stored).mpr (named ▸ slot)
      rw [finished] at unfinished
      cases unfinished
    · obtain ⟨taskState, stored, _⟩ := wired.slot taskId task slot
      exact (List.getElem?_eq_some_iff.mp stored).1

/-! ## Two acceptances -/

def Config.sample : Config :=
  ⟨"runner", "javascript", 2, 60, 0, fun n => if n = 0 then "first" else "second", fun _ => 0⟩

def freshCheck (s : TaskRunner Data) (e : ℕ × Event Data) : Bool :=
  match e.2 with
  | .taskOfferAccept _ taskId => (s.runningTasks.get taskId).isNone
  | _ => true

theorem fresh_of_check (checked : freshCheck s e = true) : s.Fresh e := by
  intro offerId taskId accepts
  simpa [freshCheck, accepts] using checked

def acceptsTwice (secondId : String) : List (ℕ × Event Unit) :=
  [(0, .runnerRegistered), (1, .offerIntervalFired), (2, .taskOfferAccept "first" "task"),
    (3, .taskSettings "task"), (4, .taskOfferAccept "second" secondId),
    (5, .executionSettled 0 (.ok ()) true)]

theorem runner_keeps_promises_twice : ∃ s : TaskRunner Unit,
    (s.reports = [(0, "task")] ∧ s.runningTasks.get "other" = some 1) ∧
      (s.Bounded .sample ∧ s.OneReportEach) ∧ s.OneSlotEach := by
  obtain ⟨s, reached, passed⟩ := TransitionSystem.reachableVia_runChecked freshCheck
    (fun _ _ => fresh_of_check) (.init : (system .sample Unit).ReachableVia Fresh _)
    (acceptsTwice "other")
    (fun s => s.reports = [(0, "task")] ∧ s.runningTasks.get "other" = some 1) (by decide)
  have promises := runner_keeps_promises .sample s
  exact ⟨s, of_decide_eq_true passed, promises.1 reached.reachable, promises.2 reached⟩

/-- The second task takes the entry of the first one, and loses it when the first is done. -/
theorem shared_id_loses_slot :
    ¬ ∀ (cfg : Config) (s : TaskRunner Unit), (system cfg Unit).Reachable s → s.OneSlotEach := by
  intro slots
  obtain ⟨s, reached, passed⟩ := TransitionSystem.reachableVia_runChecked (fun _ _ => true)
    (fun _ _ _ => trivial) (.initial : (system .sample Unit).Reachable _) (acceptsTwice "task")
    (fun s => s.tasks[1]? = some (TaskState.new "task") ∧ s.runningTasks.entries = []) (by decide)
  obtain ⟨stored, vacant⟩ := of_decide_eq_true passed
  obtain ⟨taskId, slot, _⟩ := (slots .sample s reached).unfinished 1 _ stored rfl
  simp [OrderedMap.get, vacant, OrderedMap.getEntry] at slot

end TaskRunner

end N8n
