import N8n.TaskBrokerInvariant

/-! How often a requester is told that a task is over. `cancelTask` and `failTask`
delete the task before they send; `taskDoneHandler` and `taskErrorHandler` send, wait
and delete afterwards, and while they wait the task is still there for every other
handler. An event that ends a task in that window is said to overlap; without one, a
task is ended at most once. -/

namespace N8n.TaskBroker

open BrokerMessage List

def Entry.terminal (taskId : String) : Entry → Bool
  | .toRequester _ (.taskDone id _) => id = taskId
  | .toRequester _ (.taskError id _) => id = taskId
  | _ => false

def terminals (log : List Entry) (taskId : String) : ℕ := log.countP (Entry.terminal taskId)
variable {entry : Entry}

theorem terminals_other (log : List Entry) (taskId : String) (other : Entry.terminal taskId entry = false) :
    terminals (entry :: log) taskId = terminals log taskId :=
  countP_cons_of_neg (by simp [other])

theorem terminals_ends (log : List Entry) {taskId : String} (ends : Entry.terminal taskId entry) :
    terminals (entry :: log) taskId = terminals log taskId + 1 :=
  countP_cons_of_pos ends

theorem terminal_neutral (neutral : Entry.neutral entry) (taskId : String) : Entry.terminal taskId entry = false := by
  unfold Entry.terminal
  split
  · cases neutral
  · cases neutral
  · rfl

namespace Broker

def Overlaps (cfg : Config) (s : Broker) (e : Event) : Prop :=
  ∃ taskId, Terminates cfg s taskId e ∧ .terminalSent taskId ∈ s.frames

/-- A task is ended at most once; one that is ended and still stored is about to be
deleted; and a task that is not stored yet has not been ended. -/
structure Sealing (cfg : Config) (tasks : OrderedMap String Task) (frames : List Frame)
    (log : List Entry) (nextTask : ℕ) : Prop where
  once : ∀ taskId, terminals log taskId ≤ 1
  live : ∀ taskId task, tasks.get taskId = some task → 0 < terminals log taskId → .terminalSent taskId ∈ frames
  early : ∀ call phase, .accepting call phase ∈ frames → phase.early → terminals log call.taskId = 0
  issued : ∀ taskId, 0 < terminals log taskId → Issued cfg nextTask taskId

def Sealed (cfg : Config) (s : Broker) : Prop := Sealing cfg s.tasks s.frames s.log s.nextTask

section Sealing

variable {cfg : Config} {tasks tasks' : OrderedMap String Task} {frames frames' : List Frame}
  {log : List Entry} {nextTask : ℕ} {call : Accept} {taskId : String}

section

variable (h : Sealing cfg tasks frames log nextTask) {entry : Entry}
include h

theorem Sealing.note (other : ∀ taskId, Entry.terminal taskId entry = false) :
    Sealing cfg tasks frames (entry :: log) nextTask := by
  have same : ∀ taskId, terminals (entry :: log) taskId = terminals log taskId :=
    fun taskId => terminals_other log taskId (other taskId)
  constructor
  · exact fun taskId => same taskId ▸ h.once taskId
  · exact fun taskId task found => same taskId ▸ h.live taskId task found
  · exact fun call phase member early => same _ ▸ h.early call phase member early
  · exact fun taskId => same taskId ▸ h.issued taskId

theorem Sealing.fewerTasks (fewer : ∀ key task, tasks'.get key = some task → tasks.get key = some task) :
    Sealing cfg tasks' frames log nextTask :=
  { h with live := fun taskId task found => h.live taskId task (fewer taskId task found) }

theorem Sealing.framed (kept : ∀ taskId, .terminalSent taskId ∈ frames → Frame.terminalSent taskId ∈ frames')
    (older : ∀ call phase, .accepting call phase ∈ frames' → phase.early →
      ∃ before, .accepting call before ∈ frames ∧ before.early) : Sealing cfg tasks frames' log nextTask := by
  refine { h with live := fun taskId task found ended => ?_, early := fun call phase member early => ?_ }
  · exact kept taskId (h.live taskId task found ended)
  · obtain ⟨before, there, wasEarly⟩ := older call phase member early
    exact h.early call before there wasEarly

theorem Sealing.suspend (frame : Frame) (other : ∀ call phase, frame = .accepting call phase → phase.early = false) :
    Sealing cfg tasks (frames ++ [frame]) log nextTask := by
  apply h.framed
  · exact fun taskId member => mem_append_left _ member
  · intro call phase member early
    rcases mem_suspend member with old | new
    · exact ⟨phase, old, early⟩
    · simp [other call phase new.symm] at early

theorem Sealing.settle (change : Phase → Phase) (kept : ∀ phase, (change phase).early = phase.early) :
    Sealing cfg tasks (frames.map (Frame.settle taskId change)) log nextTask := by
  apply h.framed
  · exact fun id member => (mem_settle_other (by simp)).mpr member
  · intro call phase member early
    obtain ⟨before, there, rfl⟩ := mem_settle member
    refine ⟨before, there, ?_⟩
    split at early
    · exact kept before ▸ early
    · exact early

theorem Sealing.resumed {i : ℕ} {frame : Frame}
    (there : frames[i]? = some frame) (other : ∀ taskId, .terminalSent taskId ≠ frame) :
    Sealing cfg tasks (frames.eraseIdx i) log nextTask := by
  apply h.framed
  · exact fun taskId member => mem_resumed there member (other taskId)
  · exact fun call phase member early => ⟨phase, mem_of_mem_eraseIdx member, early⟩

theorem Sealing.again {i : ℕ} {phase : Phase} (there : frames[i]? = some (.accepting call phase)) (phase' : Phase)
    (kept : phase'.early → phase.early) :
    Sealing cfg tasks (frames.eraseIdx i ++ [.accepting call phase']) log nextTask := by
  apply h.framed
  · exact fun taskId member => mem_append_left _ (mem_resumed there member (by simp))
  · intro other phase member early
    rcases mem_suspend member with old | new
    · exact ⟨phase, mem_of_mem_eraseIdx old, early⟩
    · cases new
      exact ⟨_, mem_of_getElem? there, kept early⟩

theorem Sealing.assign (open_ : terminals log taskId = 0 ∨ .terminalSent taskId ∈ frames) (task : Task) :
    Sealing cfg (tasks.set taskId task) frames log nextTask := by
  refine { h with live := fun id stored found ended => ?_ }
  by_cases same : id = taskId
  · subst same
    rcases open_ with zero | sent
    · omega
    · exact sent
  · rw [OrderedMap.get_set_ne _ _ same] at found
    exact h.live id stored found ended

theorem Sealing.end (ends : ∀ id, Entry.terminal id entry = decide (taskId = id))
    (zero : terminals log taskId = 0) (issued : Issued cfg nextTask taskId)
    (late : ∀ call phase, .accepting call phase ∈ frames → phase.early → call.taskId ≠ taskId)
    (gone : ∀ task, tasks.get taskId = some task → .terminalSent taskId ∈ frames) :
    Sealing cfg tasks frames (entry :: log) nextTask := by
  have here : terminals (entry :: log) taskId = 1 := by
    rw [terminals_ends log (by simp [ends]), zero]
  have other : ∀ id, id ≠ taskId → terminals (entry :: log) id = terminals log id :=
    fun id different => terminals_other log id (by simp [ends, different.symm])
  constructor
  · intro id
    by_cases same : id = taskId
    · have := same ▸ here
      omega
    · exact other id same ▸ h.once id
  · intro id task found ended
    by_cases same : id = taskId
    · subst same
      exact gone task found
    · exact h.live id task found (other id same ▸ ended)
  · intro call phase member early
    rw [other _ (late call phase member early)]
    exact h.early call phase member early
  · intro id ended
    by_cases same : id = taskId
    · exact same ▸ issued
    · exact h.issued id (other id same ▸ ended)

theorem Sealing.accepting (fresh : call.taskId = cfg.nanoid nextTask) (phase : Phase) :
    Sealing cfg tasks (frames ++ [.accepting call phase]) log (nextTask + 1) := by
  refine ⟨h.once, fun taskId task found ended => ?_, fun other phase member early => ?_,
    fun taskId ended => (h.issued taskId ended).next⟩
  · exact mem_append_left _ (h.live taskId task found ended)
  · rcases mem_suspend member with old | new
    · exact h.early other phase old early
    · cases new
      by_contra ended
      exact (h.issued _ (Nat.pos_of_ne_zero ended)).ne_fresh fresh

end

end Sealing

/-- What holds along a handler that started in `s₀`. -/
def SealedSince (cfg : Config) (s₀ s : Broker) : Prop :=
  Tracked cfg s ∧ Sealed cfg s ∧ ∀ taskId, .terminalSent taskId ∈ s.frames → Frame.terminalSent taskId ∈ s₀.frames

section Step

variable {cfg : Config} {s₀ s : Broker} {e : Event} {task : Task} {taskId : String}

theorem Sealed.messageRunner (h : s.Sealed cfg) (runnerId : String) (message : ToRunner) :
    (s.messageRunner runnerId message).Sealed cfg := by
  unfold Broker.messageRunner
  split
  · exact h.note fun _ => rfl
  · exact h

theorem Sealed.cancelTask (h : s.Sealed cfg) (taskId reason : String) : (s.cancelTask taskId reason).Sealed cfg := by
  unfold Broker.cancelTask
  split
  · exact h
  · have fewer : Sealed cfg { s with tasks := s.tasks.delete taskId } :=
      h.fewerTasks fun _ _ => s.tasks.get_delete_some
    exact fewer.messageRunner _ _

theorem Sealed.messageRequester (h : s.Sealed cfg) (requesterId : String) (message : ToRequester)
    (other : ∀ taskId, Entry.terminal taskId (.toRequester requesterId message) = false) :
    (s.messageRequester requesterId message).Sealed cfg := by
  unfold Broker.messageRequester
  split
  · exact h.note other
  · exact h

/-- A stored task that an event without overlap ends has not been ended. -/
theorem SealedSince.open_ (h : SealedSince cfg s₀ s) (apart : ¬ Overlaps cfg s₀ e)
    (terminates : Terminates cfg s₀ taskId e) (found : s.tasks.get taskId = some task) :
    terminals s.log taskId = 0 := by
  by_contra ended
  have sent := h.2.1.live taskId task found (Nat.pos_of_ne_zero ended)
  exact apart ⟨taskId, terminates, h.2.2 taskId sent⟩

theorem Tracked.late (h : s.Tracked cfg) (found : s.tasks.get taskId = some task) (call : Accept) (phase : Phase)
    (member : .accepting call phase ∈ s.frames) (early : phase.early) : call.taskId ≠ taskId := by
  intro same
  have missing := h.early call phase member early
  rw [same, found] at missing
  cases missing

theorem SealedSince.failTask (h : SealedSince cfg s₀ s) (apart : ¬ Overlaps cfg s₀ e)
    (terminates : Terminates cfg s₀ taskId e) (error : BrokerError) : (s.failTask taskId error).Sealed cfg := by
  unfold Broker.failTask
  split
  · exact h.2.1
  · rename_i task found
    have zero := h.open_ apart terminates found
    have fewer : Sealing cfg (s.tasks.delete taskId) s.frames s.log s.nextTask :=
      h.2.1.fewerTasks fun _ _ => s.tasks.get_delete_some
    unfold Broker.messageRequester
    split
    · refine fewer.end (fun _ => rfl) zero (h.1.task _ _ found) (h.1.late found) ?_
      intro other present
      simp at present
    · exact fewer

theorem SealedSince.finishTask (h : SealedSince cfg s₀ s) (apart : ¬ Overlaps cfg s₀ e)
    (terminates : Terminates cfg s₀ taskId e) (message : String → ToRequester)
    (keyed : ∀ key task, s.tasks.get key = some task → task.id = key) (ends : ∀ requesterId id other,
      Entry.terminal other (.toRequester requesterId (message id)) = decide (id = other)) :
    (s.finishTask taskId message).Sealed cfg := by
  unfold Broker.finishTask
  split
  · exact h.2.1
  · rename_i task found
    have zero := h.open_ apart terminates found
    have held := h.2.1.suspend (.terminalSent task.id) (by simp)
    unfold Broker.messageRequester
    have key := keyed taskId task found
    split
    · refine held.end (fun id => ?_) zero (h.1.task _ _ found) (fun call phase member early => ?_) (fun _ _ => ?_)
      · exact key ▸ ends _ task.id id
      · rcases mem_suspend member with old | new
        · exact h.1.late found call phase old early
        · cases new
      · exact key ▸ mem_append_right _ (mem_singleton_self _)
    · exact held

theorem sealed_closed (coherent : s₀.Coherent) (apart : ¬ Overlaps cfg s₀ e) :
    Closed cfg s₀ e (SealedSince cfg s₀) (Sealed cfg) where
  weaken hs := hs.2.1
  entry entry neutral _ hs := ⟨hs.1, hs.2.1.note (terminal_neutral neutral), hs.2.2⟩
  drain _ _ _ _ hs := ⟨hs.1, hs.2.1.note fun _ => rfl, hs.2.2⟩
  frame frame neutral addressed hs := by
    refine ⟨(tracked_closed cfg s₀ e).frame frame neutral addressed hs.1,
      hs.2.1.suspend frame fun call phase same => ?_, fun taskId member => ?_⟩
    · subst same
      cases neutral
    · rcases mem_suspend member with old | new
      · exact hs.2.2 taskId old
      · subst new
        cases neutral
  settleRunner taskId error hs :=
    ⟨(tracked_closed cfg s₀ e).settleRunner taskId error hs.1, hs.2.1.settle _ (early_settleRunner _),
      fun id member => hs.2.2 id ((mem_settle_other (by simp)).mp member)⟩
  answerRunner taskId error hs := by
    refine ⟨hs.1.answerRunner taskId _, ?_⟩
    unfold answerRunner
    split
    · exact ⟨hs.2.1.settle _ (early_settleRunner _),
        fun id member => hs.2.2 id ((mem_settle_other (by simp)).mp member)⟩
    · exact hs.2
  accepted runnerId taskId _ _ hs := by
    unfold handleRunnerAccept answerRunner
    split
    · exact hs.2.1.settle _ (early_settleRunner _)
    · exact hs.2.1
  rejectRequester taskId error hs :=
    ⟨(tracked_closed cfg s₀ e).rejectRequester taskId error hs.1, hs.2.1.settle _ (early_settleRequester _),
      fun id member => hs.2.2 id ((mem_settle_other (by simp)).mp member)⟩
  settings requesterId taskId settings same hs :=
    ⟨(tracked_closed cfg s₀ e).settings requesterId taskId settings same hs.1,
      hs.2.1.settle _ (early_settleRequester _),
      fun id member => hs.2.2 id ((mem_settle_other (by simp)).mp member)⟩
  cancel taskId reason hs := by
    refine ⟨hs.1.cancelTask taskId reason, ?_⟩
    refine ⟨hs.2.1.cancelTask taskId reason, ?_⟩
    unfold cancelTask
    split <;> exact hs.2.2
  fail taskId error terminates _ hs := by
    refine ⟨hs.1.failTask taskId error, hs.failTask apart terminates error, ?_⟩
    unfold failTask
    split <;> exact hs.2.2
  finish taskId data error _ terminates same _ _ hs := by
    have keyed := same ▸ coherent.keyed
    exact ⟨hs.finishTask apart terminates _ keyed (fun _ _ _ => rfl),
      hs.finishTask apart terminates _ keyed (fun _ _ _ => rfl)⟩
  timeoutFrame timer taskId same pending frames next hs := by
    refine ⟨(tracked_closed cfg s₀ e).timeoutFrame timer taskId same pending frames next hs.1,
      hs.2.1.suspend _ (by simp), fun id member => ?_⟩
    rcases mem_suspend member with old | new
    · exact hs.2.2 id old
    · cases new
  expire requestId hs := by
    refine ⟨(tracked_closed cfg s₀ e).expire requestId hs.1, ?_⟩
    unfold handleRequestTimeout
    split
    · exact hs.2
    · exact ⟨Sealed.messageRequester hs.2.1 _ _ fun _ => rfl, hs.2.2⟩
  settle request offer matching member nodup idle found hs := by
    refine ⟨(tracked_closed cfg s₀ e).settle request offer matching member nodup idle found hs.1, ?_,
      fun taskId member => ?_⟩
    · unfold openAccept messageRunner
      split
      · exact (hs.2.1.note fun _ => rfl).accepting rfl _
      · exact hs.2.1.accepting rfl _
    · rcases mem_suspend member with old | new
      · exact hs.2.2 taskId old
      · cases new
  resumeNeutral i frame same there neutral hs := by
    refine ⟨hs.1.resumed i, hs.2.1.resumed there fun taskId terminal => ?_,
      fun taskId member => hs.2.2 taskId (mem_of_mem_eraseIdx member)⟩
    subst terminal
    cases neutral
  resumeTerminal i taskId _ there hs := by
    refine { hs.2.1 with live := fun id task found ended => ?_, early := fun call phase member => ?_ }
    · have different : id ≠ taskId := fun same => by simp [same] at found
      rw [OrderedMap.get_delete_ne _ different] at found
      exact mem_resumed there (hs.2.1.live id task found ended) (by simp [different])
    · exact hs.2.1.early call phase (mem_of_mem_eraseIdx member)
  resumeTimeout i taskId same there hs := by
    cases found : s₀.tasks.get taskId with
    | none =>
      have unchanged := finishTask_missing (s := (s₀.record e).resumed i) found
      rw [taskErrorHandler, unchanged]
      exact hs.2.1.resumed there (by simp)
    | some task =>
      have has : s₀.tasks.has taskId := by simp [OrderedMap.has, found]
      have since : SealedSince cfg s₀ ((s₀.record e).resumed i) :=
        ⟨hs.1.resumed i, hs.2.1.resumed there (by simp),
          fun id member => hs.2.2 id (mem_of_mem_eraseIdx member)⟩
      refine since.finishTask apart ?_ _ coherent.keyed (fun _ _ _ => rfl)
      subst same
      exact .inl ⟨there, has⟩
  advance i accept _ phase' _ there sent hs := by
    cases sent with
    | offer answer => exact hs.2.1.again there _ (fun _ => rfl)
    | ready answer => exact hs.2.1.again there _ (fun early => early)
  giveUp i accept error _ there hs := by
    have rest := hs.2.1.resumed there (by simp)
    exact acceptFailed_elim rest rest
  announce i accept _ there _ hs := by
    have zero := hs.2.1.early accept _ (mem_of_getElem? there) rfl
    have stored := (hs.2.1.again there (.readySent none) (by rintro ⟨⟩)).assign (.inl zero) accept.task
    unfold announceTask messageRequester
    split
    · exact stored.note fun _ => rfl
    · exact stored
  orphan i accept _ there _ hs := by
    have zero := hs.2.1.early accept _ (mem_of_getElem? there) rfl
    exact (hs.2.1.resumed there (by simp)).assign (.inl zero) accept.task
  foundRunner i accept settings task runner _ there _ _ hs :=
    hs.2.1.again there _ (fun early => early)
  lostRunner i accept settings task error same there found missing hs := by
    have since : SealedSince cfg s₀ (((s₀.record e).resumed i).suspend (.accepting accept .runnerMissing)) := by
      refine ⟨hs.1.again there _ (by rintro ⟨⟩), hs.2.1.again there _ (by rintro ⟨⟩), fun id member => ?_⟩
      rcases mem_suspend member with old | new
      · exact hs.2.2 id (mem_of_mem_eraseIdx old)
      · cases new
    refine since.failTask apart ?_ error
    subst same
    exact .inr ⟨accept, settings, rfl, ⟨task, found, missing⟩, there⟩
  cancelled i accept phase reason _ there _ hs :=
    Sealed.cancelTask (s := ((s₀.record e).resumed i).suspend (.accepting accept .cancelSent))
      (hs.2.1.again there _ (by rintro ⟨⟩)) _ _
  started i accept runnerId settings task _ there found hs := by
    rw [startTask_known (s := (s₀.record e).resumed i) found]
    have again := hs.2.1.again there .settingsSent (by rintro ⟨⟩)
    have open_ : terminals s₀.log accept.taskId = 0 ∨
        .terminalSent accept.taskId ∈ s₀.frames.eraseIdx i ++ [.accepting accept .settingsSent] := by
      by_cases zero : terminals s₀.log accept.taskId = 0
      · exact .inl zero
      · exact .inr (again.live _ task found (Nat.pos_of_ne_zero zero))
    have stored := again.assign open_ { task with timeout := some s₀.nextTimer }
    unfold messageRunner
    split
    · exact stored.note fun _ => rfl
    · exact stored
  ended i accept phase _ there _ hs := hs.2.1.resumed there (by simp)

theorem step_sealed {s' : Broker} (wf : s.Wf cfg) (h : s.Sealed cfg) (apart : ¬ Overlaps cfg s e)
    (taken : step cfg s e = some s') : s'.Sealed cfg :=
  step_closed (sealed_closed wf.coherent apart) wf.coherent
    ⟨wf.tracked, h.note fun _ => rfl, fun _ member => member⟩ taken

theorem sealed_start (cfg : Config) : Broker.start.Sealed cfg :=
  ⟨by simp [start, terminals], by simp [start], by simp [start], by simp [start, terminals]⟩

end Step

/-- In every run in which no event ends a task while its end is being sent, a requester
hears at most once that a task is over. -/
theorem terminal_at_most_once {cfg : Config} {s : Broker}
    (h : (system cfg).ReachableVia (fun s e => ¬ Overlaps cfg s e) s) (taskId : String) :
    terminals s.log taskId ≤ 1 := by
  have inv : s.Wf cfg ∧ s.Sealed cfg := by
    refine h.invariant (P := fun s => s.Wf cfg ∧ s.Sealed cfg) ⟨wf_start cfg, sealed_start cfg⟩ ?_
    intro s e s' inv apart taken
    exact ⟨step_wf inv.1 taken, step_sealed inv.1 inv.2 apart taken⟩
  exact inv.2.once taskId

/-- While nothing ends a task, no event overlaps. -/
def quiet (s : Broker) : Bool :=
  s.frames.all fun
    | .terminalSent _ => false
    | _ => true

theorem quiet_apart {cfg : Config} {s : Broker} {e : Event} (quiet : s.quiet) : ¬ Overlaps cfg s e := by
  rintro ⟨taskId, _, sent⟩
  have absent := List.all_eq_true.mp quiet _ sent
  cases absent

theorem terminal_at_most_once_when_done : ∃ s, (system .sample).ReachableVia (fun s e => ¬ Overlaps .sample s e) s ∧
      terminals s.log "" = 1 ∧ terminals s.log "" ≤ 1 := by
  have start : (system .sample).ReachableVia (fun s e => ¬ Overlaps .sample s e) _ := .init
  obtain ⟨s, reached, once⟩ := TransitionSystem.reachableVia_runChecked (fun s _ => s.quiet)
    (fun _ _ => quiet_apart) start (taskStarted ++ [.runnerMessage "r" (.taskDone "" "data")])
    (fun s => terminals s.log "" = 1) (by decide)
  exact ⟨s, reached, of_decide_eq_true once, terminal_at_most_once reached ""⟩

/-- The runner disconnects while the broker is still sending that its task is done, and
the requester hears of an error as well. -/
theorem terminal_sent_twice :
    ¬ ∀ (cfg : Config) (s : Broker), (system cfg).Reachable s → ∀ taskId, terminals s.log taskId ≤ 1 := by
  intro once
  have start : (system .sample).Reachable Broker.start := .initial
  obtain ⟨s, reached, twice⟩ := TransitionSystem.reachableVia_runChecked (fun _ _ => true) (fun _ _ _ => trivial) start
    (taskStarted ++ [.runnerMessage "r" (.taskDone "" "data"),
      .deregisterRunner "r" (.foreign "gone")]) (fun s => terminals s.log "" = 2) (by decide)
  have bound := once .sample s reached ""
  have two : terminals s.log "" = 2 := of_decide_eq_true twice
  omega

end Broker

end N8n.TaskBroker
