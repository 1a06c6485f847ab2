import N8n.TaskBrokerHandshake

/-! Orphan tasks. `acceptOffer` keeps no hold on the request while it waits for the
runner: the request may expire, and then the task is stored although nobody will hear of
it. It also leaves once its own timeout has passed, and an acceptance that comes later is
lost on the runner's side. `Orderly` describes the events for which neither happens. In
a run of such events every stored task has been announced once the handlers are done,
and every runner that accepted a task has its settings or a cancellation. -/

namespace N8n.TaskBroker

open BrokerMessage List

def Announced (log : List Entry) (taskId : String) (task : Task) : Prop :=
  ∃ requestId, .toRequester task.requesterId (.taskReady requestId taskId) ∈ log

def Entry.decides (runnerId taskId : String) : Entry → Prop
  | .toRunner id (.taskSettings id' _) => id = runnerId ∧ id' = taskId
  | .toRunner id (.taskCancel id' _) => id = runnerId ∧ id' = taskId
  | _ => False

/-- The runner accepted a task it was offered, and has heard nothing since. The history
is newest first. -/
def Owes (log : List Entry) (runnerId taskId : String) : Prop :=
  ∃ newer older, log = newer ++ .received (.runnerMessage runnerId (.taskAccepted taskId)) :: older ∧
    Offered older runnerId taskId ∧ ∀ entry ∈ newer, ¬ entry.decides runnerId taskId

variable {taskId : String}

theorem Owes.cons {entry : Entry} {log : List Entry} {runnerId : String} (h : Owes (entry :: log) runnerId taskId) :
    (entry = .received (.runnerMessage runnerId (.taskAccepted taskId)) ∧ Offered log runnerId taskId) ∨
      Owes log runnerId taskId ∧ ¬ entry.decides runnerId taskId := by
  obtain ⟨newer, older, same, offered, silent⟩ := h
  cases newer with
  | nil =>
    cases same
    exact .inl ⟨rfl, offered⟩
  | cons first rest =>
    cases same
    refine .inr ⟨⟨rest, older, rfl, offered, fun entry member => ?_⟩, ?_⟩
    · exact silent entry (mem_cons_of_mem _ member)
    · exact silent entry mem_cons_self

theorem Owes.offered {log : List Entry} {runnerId : String} (h : Owes log runnerId taskId) :
    Offered log runnerId taskId := by
  obtain ⟨newer, older, rfl, ⟨offerId, member⟩, _⟩ := h
  exact ⟨offerId, mem_append_right _ (mem_cons_of_mem _ member)⟩

def Noted (log log' : List Entry) : Prop :=
  log' = log ∨ ∃ entry, log' = entry :: log ∧
    ∀ runnerId taskId, entry ≠ .received (.runnerMessage runnerId (.taskAccepted taskId))

namespace Noted

variable {log log' : List Entry} {runnerId taskId : String} {task : Task}

theorem owes (h : Noted log log') (owes : Owes log' runnerId taskId) : Owes log runnerId taskId := by
  rcases h with rfl | ⟨entry, rfl, other⟩
  · exact owes
  · rcases owes.cons with ⟨same, _⟩ | ⟨old, _⟩
    · exact absurd same (other _ _)
    · exact old

theorem subset (h : Noted log log') {entry : Entry} (member : entry ∈ log) : entry ∈ log' := by
  rcases h with rfl | ⟨entry, rfl, _⟩
  · exact member
  · exact mem_cons_of_mem _ member

theorem deregistered (h : Noted log log') (gone : Deregistered log runnerId) : Deregistered log' runnerId := by
  obtain ⟨error, member⟩ := gone
  exact ⟨error, h.subset member⟩

theorem announced (h : Noted log log') (announced : Announced log taskId task) : Announced log' taskId task := by
  obtain ⟨requestId, member⟩ := announced
  exact ⟨requestId, h.subset member⟩

end Noted

theorem noted_if (log : List Entry) (sent : Prop) [Decidable sent] (entry : Entry)
    (other : ∀ runnerId taskId, entry ≠ .received (.runnerMessage runnerId (.taskAccepted taskId))) :
    Noted log (if sent then entry :: log else log) := by
  split
  · exact .inr ⟨entry, rfl, other⟩
  · exact .inl rfl

theorem noted_messageRunner (s : Broker) (id : String) (message : ToRunner) :
    Noted s.log (s.messageRunner id message).log := noted_if s.log _ _ (by simp)

theorem noted_messageRequester (s : Broker) (id : String) (message : ToRequester) :
    Noted s.log (s.messageRequester id message).log := noted_if s.log _ _ (by simp)

/-- `acceptOffer` will still answer the runner that took the task. -/
def Phase.Awaited (tasks : OrderedMap String Task) (taskId : String) : Phase → Prop
  | .offerSent answer => answer = some .accepted
  | .awaitingRunner answer => answer = some .accepted
  | .readySent _ => tasks.has taskId
  | .awaitingRequester _ => tasks.has taskId
  | .gotRunner _ _ => tasks.has taskId
  | _ => False

def Phase.unheard : Phase → Bool
  | .readySent (some (.settings _)) => false
  | .readySent _ => true
  | .awaitingRequester (some (.settings _)) => false
  | .awaitingRequester _ => true
  | _ => false

variable {tasks : OrderedMap String Task} {phase : Phase}

theorem Phase.Awaited.unsettled (h : phase.Awaited tasks taskId) : phase.unsettled := by
  cases phase with
  | settingsSent => exact h.elim
  | runnerMissing => exact h.elim
  | cancelSent => exact h.elim
  | _ => rfl

theorem Phase.Awaited.settleRunner (h : phase.Awaited tasks taskId) (answer : RunnerAnswer) :
    (Broker.Phase.settleRunner answer phase).Awaited tasks taskId := by
  unfold Broker.Phase.settleRunner
  split
  · cases h
  · cases h
  · exact h

theorem Phase.Awaited.settleRequester (h : phase.Awaited tasks taskId) (answer : RequesterAnswer) :
    (Broker.Phase.settleRequester answer phase).Awaited tasks taskId := by
  unfold Broker.Phase.settleRequester
  split <;> exact h

theorem unheard_settleRunner (answer : RunnerAnswer) (h : phase.unheard) :
    (Broker.Phase.settleRunner answer phase).unheard := by
  unfold Broker.Phase.settleRunner
  split
  · cases h
  · cases h
  · exact h

theorem unheard_rejected (error : BrokerError) (h : phase.unheard) :
    (Broker.Phase.settleRequester (.rejected error) phase).unheard := by
  unfold Broker.Phase.settleRequester
  split
  · rfl
  · rfl
  · exact h

namespace Broker

structure Handshaking (tasks : OrderedMap String Task) (frames : List Frame) (log : List Entry) : Prop where
  owed : ∀ runnerId taskId, Owes log runnerId taskId → Deregistered log runnerId ∨
    ∃ call phase, .accepting call phase ∈ frames ∧ call.taskId = taskId ∧ phase.Awaited tasks taskId
  announced : ∀ taskId task, tasks.get taskId = some task → Announced log taskId task ∨
    ∃ call phase, .accepting call phase ∈ frames ∧ call.taskId = taskId ∧ phase.unheard

def Handshakes (s : Broker) : Prop := Handshaking s.tasks s.frames s.log

section Handshaking

variable {tasks tasks' : OrderedMap String Task} {frames frames' : List Frame}
  {log log' : List Entry} {call : Accept} {taskId : String}

theorem Awaited_congr (same : tasks'.get taskId = tasks.get taskId) (h : phase.Awaited tasks taskId) :
    phase.Awaited tasks' taskId := by
  have has : tasks'.has taskId = tasks.has taskId := by simp only [OrderedMap.has, same]
  cases phase <;> simp only [Phase.Awaited, has] at h ⊢ <;> exact h

section

variable (h : Handshaking tasks frames log)
include h

theorem Handshaking.framed (noted : Noted log log')
    (awaited : ∀ call phase, .accepting call phase ∈ frames → phase.Awaited tasks call.taskId →
      ∃ phase', .accepting call phase' ∈ frames' ∧ phase'.Awaited tasks call.taskId)
    (unheard : ∀ call phase, .accepting call phase ∈ frames → phase.unheard →
      ∃ phase', .accepting call phase' ∈ frames' ∧ phase'.unheard) :
    Handshaking tasks frames' log' where
  owed runnerId taskId owes := by
    rcases h.owed runnerId taskId (noted.owes owes) with gone | ⟨call, phase, there, rfl, waits⟩
    · exact .inl (noted.deregistered gone)
    · obtain ⟨phase', member, still⟩ := awaited call phase there waits
      exact .inr ⟨call, phase', member, rfl, still⟩
  announced taskId task found := by
    rcases h.announced taskId task found with said | ⟨call, phase, there, rfl, waits⟩
    · exact .inl (noted.announced said)
    · obtain ⟨phase', member, still⟩ := unheard call phase there waits
      exact .inr ⟨call, phase', member, rfl, still⟩

theorem Handshaking.keep (noted : Noted log log')
    (kept : ∀ call phase, .accepting call phase ∈ frames → Frame.accepting call phase ∈ frames') :
    Handshaking tasks frames' log' :=
  h.framed noted (fun call phase there waits => ⟨phase, kept call phase there, waits⟩)
    (fun call phase there waits => ⟨phase, kept call phase there, waits⟩)

theorem Handshaking.focus (taskId : String)
    (noted : Noted log log') (others : ∀ id, id ≠ taskId → tasks'.get id = tasks.get id)
    (kept : ∀ call phase, .accepting call phase ∈ frames → call.taskId ≠ taskId → .accepting call phase ∈ frames')
    (owed : ∀ runnerId, Owes log' runnerId taskId → Deregistered log' runnerId ∨
      ∃ call phase, .accepting call phase ∈ frames' ∧ call.taskId = taskId ∧ phase.Awaited tasks' taskId)
    (announced : ∀ task, tasks'.get taskId = some task → Announced log' taskId task ∨
      ∃ call phase, .accepting call phase ∈ frames' ∧ call.taskId = taskId ∧ phase.unheard) :
    Handshaking tasks' frames' log' where
  owed runnerId id owes := by
    by_cases here : id = taskId
    · subst here
      exact owed runnerId owes
    · rcases h.owed runnerId id (noted.owes owes) with gone | ⟨call, phase, there, rfl, waits⟩
      · exact .inl (noted.deregistered gone)
      · exact .inr ⟨call, phase, kept call phase there here, rfl, Awaited_congr (others _ here) waits⟩
  announced id task found := by
    by_cases here : id = taskId
    · subst here
      exact announced task found
    · rw [others id here] at found
      rcases h.announced id task found with said | ⟨call, phase, there, rfl, waits⟩
      · exact .inl (noted.announced said)
      · exact .inr ⟨call, phase, kept call phase there here, rfl, waits⟩

theorem Handshaking.drop (taskId : String)
    (noted : Noted log log') (gone : ∀ runnerId, Owes log' runnerId taskId → Deregistered log' runnerId)
    (kept : ∀ call phase, .accepting call phase ∈ frames → call.taskId ≠ taskId → .accepting call phase ∈ frames') :
    Handshaking (tasks.delete taskId) frames' log' := by
  refine h.focus taskId noted (fun id different => tasks.get_delete_ne different) kept
    (fun runnerId owes => .inl (gone runnerId owes)) (fun task found => ?_)
  simp at found

end

end Handshaking

section Step

variable {cfg : Config} {s₀ s s' : Broker} {e : Event}

variable {taskId : String} {task : Task} {frames : List Frame}

theorem OwnedBy.runner_of_owes {r q : String} (own : s.OwnedBy taskId r q) {runnerId : String}
    (owes : Owes s.log runnerId taskId) (found : s.tasks.get taskId = some task) : task.runnerId = runnerId := by
  obtain ⟨offerId, member⟩ := owes.offered
  exact (own.task task found).1.trans (own.toRunner runnerId _ member rfl).symm

/-- `frames` are the calls before one of the task was taken out or moved on. -/
theorem Handshaking.cancelTask (h : Handshaking s.tasks frames s.log)
    (reason : String) (found : s.tasks.get taskId = some task)
    (runner : ∀ runnerId, Owes s.log runnerId taskId → task.runnerId = runnerId)
    (present : Present s.knownRunners s.log task.runnerId)
    (kept : ∀ call phase, .accepting call phase ∈ frames → call.taskId ≠ taskId → .accepting call phase ∈ s.frames) :
    (s.cancelTask taskId reason).Handshakes := by
  rw [cancelTask_known found]
  apply h.drop taskId (noted_messageRunner _ _ _)
  · intro runnerId owes
    unfold Broker.messageRunner at owes ⊢
    split at owes
    · rename_i known
      rw [if_pos known]
      -- the cancellation is the answer, if it went to that runner
      rcases owes.cons with ⟨impossible, _⟩ | ⟨old, silent⟩
      · cases impossible
      · exact absurd ⟨runner runnerId old, rfl⟩ silent
    · rename_i unknown
      rw [if_neg unknown]
      have missing : s.knownRunners.get task.runnerId = none := by
        simpa [OrderedMap.has] using unknown
      exact runner runnerId owes ▸ present.gone missing
  · exact kept

theorem Handshaking.failTask (h : Handshaking s.tasks frames s.log)
    (error : BrokerError) (found : s.tasks.get taskId = some task)
    (runner : ∀ runnerId, Owes s.log runnerId taskId → task.runnerId = runnerId)
    (present : Present s.knownRunners s.log task.runnerId) (unknown : s.knownRunners.get task.runnerId = none)
    (kept : ∀ call phase, .accepting call phase ∈ frames → call.taskId ≠ taskId → .accepting call phase ∈ s.frames) :
    (s.failTask taskId error).Handshakes := by
  rw [failTask_known found]
  have noted := noted_messageRequester { s with tasks := s.tasks.delete taskId } task.requesterId
    (.taskError taskId error)
  apply h.drop taskId noted
  · intro runnerId owes
    exact noted.deregistered (runner runnerId (noted.owes owes) ▸ present.gone unknown)
  · exact kept

end Step

/-- An acceptance finds the call of `acceptOffer` still open; the settings of a task come
after it was announced, and a last word on it after its settings were sent; and a
request does not expire while a runner is accepting it. -/
def Orderly (s : Broker) : Event → Prop
  | .runnerMessage runnerId (.taskAccepted taskId) =>
    s.knownRunners.has runnerId → Offered s.log runnerId taskId →
      ∃ call phase, .accepting call phase ∈ s.frames ∧ call.taskId = taskId ∧
        (phase.unanswered ∨ phase.Awaited s.tasks taskId)
  | .runnerMessage _ (.taskDone taskId _) => s.tasks.has taskId → Settled s.frames taskId
  | .runnerMessage _ (.taskError taskId _) => s.tasks.has taskId → Settled s.frames taskId
  | .requesterMessage _ (.taskSettings taskId _) =>
    ∀ task, s.tasks.get taskId = some task → Announced s.log taskId task
  | .resume i => ∀ call, s.frames[i]? = some (.accepting call (.awaitingRunner (some .accepted))) →
    ∃ request ∈ s.pendingTaskRequests, request.requestId = call.request.requestId
  | _ => True

theorem Orderly.last {cfg : Config} {s : Broker} {e : Event} (orderly : s.Orderly e)
    (runnerId : String) (message : RunnerMessage) (taskId : String)
    (same : e = .runnerMessage runnerId message) (terminates : Terminates cfg s taskId e) :
    Settled s.frames taskId := by
  subst same
  cases message with
  | taskDone id data =>
    obtain ⟨rfl, _, stored⟩ := terminates
    exact orderly stored
  | taskError id error =>
    obtain ⟨rfl, _, stored⟩ := terminates
    exact orderly stored
  | _ => exact terminates.elim

def Grounded (cfg : Config) (s₀ : Broker) (e : Event) (s : Broker) : Prop :=
  Tracked cfg s ∧ RoutedSince cfg s₀ s ∧ AttendedSince e s ∧ Closes cfg s

/-- The invariants of a state from which a handler starts. -/
structure Ground (cfg : Config) (s : Broker) : Prop where
  coherent : s.Coherent
  tracked : s.Tracked cfg
  routed : s.Routed cfg
  attended : s.Attended
  closes : s.Closes cfg

section Step

variable {cfg : Config} {s₀ s s' : Broker} {e : Event}

theorem grounded_closed (ground : s₀.Ground cfg) (orderly : s₀.Orderly e) : Closed cfg s₀ e (Grounded cfg s₀ e)
      (fun s => Tracked cfg s ∧ Routed cfg s ∧ Attended s ∧ Closes cfg s) :=
  (tracked_closed cfg s₀ e).and ((routed_closed ground.coherent).and ((attended_closed cfg s₀ e).and
      (closes_closed ground.coherent ground.tracked ground.closes orderly.last)))

theorem Ground.grounded (ground : s₀.Ground cfg) : Grounded cfg s₀ e (s₀.record e) := by
  refine ⟨ground.tracked, fun taskId => (ground.routed taskId).imp fun r q own => ⟨own, ?_⟩,
    ⟨ground.attended.note _ (by simp), mem_cons_self⟩, ground.closes⟩
  exact own.noteOther (by simp) (by simp)

theorem Ground.step (ground : s.Ground cfg) (orderly : s.Orderly e)
    (taken : step cfg s e = some s') : s'.Ground cfg := by
  have next := step_closed (grounded_closed ground orderly) ground.coherent ground.grounded taken
  exact ⟨step_coherent ground.coherent taken, next.1, next.2.1, next.2.2.1, next.2.2.2⟩

theorem Ground.start (cfg : Config) : Broker.start.Ground cfg :=
  ⟨(wf_start cfg).coherent, (wf_start cfg).tracked, routed_start cfg,
    ⟨by simp [Broker.start], by simp [Broker.start], by simp [Broker.start], by simp [Broker.start],
      by simp [Broker.start, Offered]⟩,
    ⟨by simp [Broker.start], by simp [Broker.start], by simp [Broker.start]⟩⟩

variable {taskId : String} {task : Task} {runnerId : String}

theorem Grounded.runner (h : Grounded cfg s₀ e s) (found : s.tasks.get taskId = some task) (runnerId : String)
    (owes : Owes s.log runnerId taskId) : task.runnerId = runnerId := by
  obtain ⟨⟨r, q, own⟩, _⟩ := h.2.1 taskId
  exact OwnedBy.runner_of_owes own.2 owes found

theorem Grounded.present (h : Grounded cfg s₀ e s) (found : s.tasks.get taskId = some task) :
    Present s.knownRunners s.log task.runnerId :=
  h.2.2.1.1.task taskId task found

variable {tasks : OrderedMap String Task} {frames : List Frame} {log : List Entry} {nextTask i : ℕ} {call : Accept}
  {phase : Phase}

/-- What is owed and announced for the task of the call that goes on depends on that
call alone. -/
theorem Handshaking.at (h : Handshaking tasks frames log) (tracking : Tracking cfg tasks frames nextTask)
    (there : frames[i]? = some (.accepting call phase)) :
    (∀ runnerId, Owes log runnerId call.taskId → Deregistered log runnerId ∨ phase.Awaited tasks call.taskId) ∧
      ∀ task, tasks.get call.taskId = some task → Announced log call.taskId task ∨ phase.unheard := by
  constructor
  · intro runnerId owes
    refine (h.owed runnerId _ owes).imp_right ?_
    rintro ⟨other, phase', member, same, waits⟩
    obtain ⟨rfl, rfl⟩ := tracking.only there member same
    exact waits
  · intro task found
    refine (h.announced _ task found).imp_right ?_
    rintro ⟨other, phase', member, same, waits⟩
    obtain ⟨rfl, rfl⟩ := tracking.only there member same
    exact waits

theorem settle_mem (taskId : String) (change : Phase → Phase)
    (member : .accepting call phase ∈ frames) : .accepting call (if call.taskId = taskId then change phase else phase) ∈
      frames.map (Frame.settle taskId change) := by
  refine List.mem_map.mpr ⟨_, member, ?_⟩
  simp only [Frame.settle]
  split <;> rfl

theorem kept_resumed (there : frames[i]? = some (.accepting call phase)) (other : Accept) (phase' : Phase)
    (member : .accepting other phase' ∈ frames) (different : other.taskId ≠ call.taskId) :
    .accepting other phase' ∈ frames.eraseIdx i := by
  refine mem_resumed there member fun same => ?_
  cases same
  exact different rfl

section

variable (h : Handshaking tasks frames log)
include h

theorem Handshaking.again (tracking : Tracking cfg tasks frames nextTask)
    (there : frames[i]? = some (.accepting call phase)) (phase' : Phase)
    (awaited : phase.Awaited tasks call.taskId → phase'.Awaited tasks call.taskId)
    (unheard : phase.unheard → phase'.unheard) :
    Handshaking tasks (frames.eraseIdx i ++ [.accepting call phase']) log := by
  have here := h.at tracking there
  have last : .accepting call phase' ∈ frames.eraseIdx i ++ [.accepting call phase'] :=
    mem_append_right _ (mem_singleton_self _)
  apply h.focus call.taskId (.inl rfl) (fun _ _ => rfl)
  · exact fun other after member different =>
      mem_append_left _ (kept_resumed there other after member different)
  · exact fun runnerId owes => (here.1 runnerId owes).imp_right fun waits =>
      ⟨call, phase', last, rfl, awaited waits⟩
  · exact fun task found => (here.2 task found).imp_right fun waits =>
      ⟨call, phase', last, rfl, unheard waits⟩

theorem Handshaking.resumed (tracking : Tracking cfg tasks frames nextTask)
    (there : frames[i]? = some (.accepting call phase))
    (settled : ¬ phase.Awaited tasks call.taskId) (heard : phase.unheard = false) :
    Handshaking tasks (frames.eraseIdx i) log := by
  have here := h.at tracking there
  apply h.focus call.taskId (.inl rfl) (fun _ _ => rfl)
  · exact kept_resumed there
  · exact fun runnerId owes => (here.1 runnerId owes).imp_right fun waits => absurd waits settled
  · exact fun task found => (here.2 task found).imp_right fun waits => by simp [heard] at waits

theorem Handshaking.settle (taskId : String) (change : Phase → Phase)
    (awaited : ∀ phase id, phase.Awaited tasks id → (change phase).Awaited tasks id)
    (unheard : ∀ phase, phase.unheard → (change phase).unheard) :
    Handshaking tasks (frames.map (Frame.settle taskId change)) log := by
  apply h.framed (.inl rfl)
  · intro call phase member waits
    refine ⟨_, settle_mem taskId change member, ?_⟩
    split
    · exact awaited phase _ waits
    · exact waits
  · intro call phase member waits
    refine ⟨_, settle_mem taskId change member, ?_⟩
    split
    · exact unheard phase waits
    · exact waits

end

theorem Handshakes.finishTask (h : s.Handshakes) (taskId : String) (message : String → ToRequester) :
    (s.finishTask taskId message).Handshakes := by
  unfold Broker.finishTask
  split
  · exact h
  · exact h.keep (noted_messageRequester _ _ _) fun _ _ there => mem_append_left _ there

theorem Handshakes.answerRunner (h : s.Handshakes) (taskId : String) (answer : RunnerAnswer) :
    (s.answerRunner taskId answer).Handshakes := by
  unfold Broker.answerRunner
  split
  · exact h.settle taskId _ (fun _ _ waits => waits.settleRunner answer) (fun _ => unheard_settleRunner answer)
  · exact h

theorem handshakes_closed (ground : s₀.Ground cfg) (orderly : s₀.Orderly e)
    (other : ∀ runnerId taskId, e ≠ .runnerMessage runnerId (.taskAccepted taskId)) :
    Closed cfg s₀ e (fun s => Grounded cfg s₀ e s ∧ Handshakes s) Handshakes where
  weaken hs := hs.2
  aux _ _ _ _ _ fewer hs := ⟨(grounded_closed ground orderly).aux _ _ _ _ _ fewer hs.1, hs.2⟩
  tick elapsed hs := ⟨(grounded_closed ground orderly).tick elapsed hs.1, hs.2⟩
  setRunner runner hs := ⟨(grounded_closed ground orderly).setRunner runner hs.1, hs.2⟩
  deleteRunner id error same hs :=
    ⟨(grounded_closed ground orderly).deleteRunner id error same hs.1, hs.2⟩
  setRequesters ids hs := ⟨(grounded_closed ground orderly).setRequesters ids hs.1, hs.2⟩
  entry entry neutral fit hs := by
    refine ⟨(grounded_closed ground orderly).entry entry neutral fit hs.1, ?_⟩
    refine hs.2.keep (.inr ⟨entry, rfl, fun id taskId same => ?_⟩) fun _ _ there => there
    subst same
    cases neutral
  drain id requesterId taskType same hs :=
    ⟨(grounded_closed ground orderly).drain id requesterId taskType same hs.1,
      hs.2.keep (.inr ⟨_, rfl, by simp⟩) fun _ _ there => there⟩
  frame frame neutral fit hs :=
    ⟨(grounded_closed ground orderly).frame frame neutral fit hs.1,
      hs.2.keep (.inl rfl) fun _ _ there => mem_append_left _ there⟩
  settleRunner id error hs :=
    ⟨(grounded_closed ground orderly).settleRunner id error hs.1,
      hs.2.settle id _ (fun _ _ waits => waits.settleRunner _) (fun _ => unheard_settleRunner _)⟩
  answerRunner id error hs :=
    ⟨(grounded_closed ground orderly).answerRunner id error hs.1, hs.2.answerRunner id _⟩
  accepted runnerId id same _ _ := absurd same (other _ _)
  rejectRequester id error hs :=
    ⟨(grounded_closed ground orderly).rejectRequester id error hs.1,
      hs.2.settle id _ (fun _ _ waits => waits.settleRequester _) (fun _ => unheard_rejected _)⟩
  settings requesterId id settings same hs := by
    refine ⟨(grounded_closed ground orderly).settings requesterId id settings same hs.1, ?_⟩
    apply hs.2.focus id (.inl rfl) (fun _ _ => rfl)
    · intro call phase member different
      have moved := settle_mem id (Phase.settleRequester (.settings settings)) member
      rwa [if_neg different] at moved
    · intro runnerId owes
      refine (hs.2.owed runnerId id owes).imp_right ?_
      rintro ⟨call, phase, member, own, waits⟩
      have moved := settle_mem id (Phase.settleRequester (.settings settings)) member
      rw [if_pos own] at moved
      exact ⟨call, _, moved, own, waits.settleRequester _⟩
    · intro task found
      subst same
      obtain ⟨requestId, member⟩ := orderly task found
      exact .inl ⟨requestId, mem_cons_of_mem _ member⟩
  cancel id reason hs := by
    refine ⟨(grounded_closed ground orderly).cancel id reason hs.1, ?_⟩
    cases found : OrderedMap.get _ id with
    | none =>
      rw [cancelTask_missing found]
      exact hs.2
    | some task =>
      exact hs.2.cancelTask reason found (hs.1.runner found) (hs.1.present found)
        fun _ _ member _ => member
  fail id error terminates unknown hs := by
    refine ⟨(grounded_closed ground orderly).fail id error terminates unknown hs.1, ?_⟩
    cases found : OrderedMap.get _ id with
    | none =>
      rw [failTask_missing found]
      exact hs.2
    | some task =>
      exact hs.2.failTask error found (hs.1.runner found) (hs.1.present found) (unknown task found)
        fun _ _ member _ => member
  finish id data error _ _ _ _ _ hs := ⟨hs.2.finishTask id _, hs.2.finishTask id _⟩
  timeoutFrame timer id same pending frames next hs :=
    ⟨(grounded_closed ground orderly).timeoutFrame timer id same pending frames next hs.1,
      hs.2.keep (.inl rfl) fun _ _ there => mem_append_left _ there⟩
  expireOffers hs := ⟨(grounded_closed ground orderly).expireOffers hs.1, hs.2⟩
  addOffer id taskType validFor offer same own known hs :=
    ⟨(grounded_closed ground orderly).addOffer id taskType validFor offer same own known hs.1, hs.2⟩
  addRequest id requesterId taskType timeout same hs :=
    ⟨(grounded_closed ground orderly).addRequest id requesterId taskType timeout same hs.1, hs.2⟩
  skipRef hs := ⟨(grounded_closed ground orderly).skipRef hs.1, hs.2⟩
  expire id hs := by
    refine ⟨(grounded_closed ground orderly).expire id hs.1, ?_⟩
    unfold handleRequestTimeout
    split
    · exact hs.2
    · exact hs.2.keep (noted_messageRequester _ _ _) fun _ _ there => there
  settle request offer matching pending nodup idle found hs := by
    refine ⟨(grounded_closed ground orderly).settle request offer matching pending nodup idle found hs.1, ?_⟩
    exact hs.2.keep (noted_messageRunner _ _ _) fun _ _ there => mem_append_left _ there
  resumeNeutral i frame same there neutral hs := by
    refine ⟨(grounded_closed ground orderly).resumeNeutral i frame same there neutral hs.1, ?_⟩
    refine hs.2.keep (.inl rfl) fun call phase member => mem_resumed there member fun here => ?_
    subst here
    cases neutral
  resumeTerminal i id _ there hs := by
    have settled := (hs.1.2.2.2.terminal id (mem_of_getElem? there)).2
    apply hs.2.drop id (.inl rfl)
    · intro runnerId owes
      refine (hs.2.owed runnerId id owes).resolve_right ?_
      rintro ⟨call, phase, member, own, waits⟩
      have unsettled := waits.unsettled
      simp [settled call phase member own] at unsettled
    · exact fun call phase member _ => mem_resumed there member (by simp)
  resumeTimeout i id _ there hs := by
    have rest : ((s₀.record e).resumed i).Handshakes :=
      hs.2.keep (.inl rfl) fun call phase member => mem_resumed there member (by simp)
    exact rest.finishTask id _
  advance i call _ _ _ there sent hs := by
    cases sent with
    | offer answer => exact hs.2.again hs.1.1 there _ (fun waits => waits) (by rintro ⟨⟩)
    | ready answer =>
      refine hs.2.again hs.1.1 there _ (fun waits => waits) (fun waits => ?_)
      cases answer with
      | none => rfl
      | some answer => cases answer <;> exact waits
  giveUp i call error _ there hs := by
    have rest := hs.2.resumed hs.1.1 there (by simp [Phase.Awaited]) rfl
    exact acceptFailed_elim rest rest
  announce i call _ there _ hs := by
    dsimp only [Handshakes, announceTask, storeTask, suspend, messageRequester, setTimeout, clearTimeout]
    have last : Frame.accepting call (.readySent none) ∈ s₀.frames.eraseIdx i ++ [.accepting call (.readySent none)] :=
      mem_append_right _ (mem_singleton_self _)
    apply hs.2.focus call.taskId (noted_if _ _ _ (by simp))
    · exact fun id different => OrderedMap.get_set_ne _ _ different
    · exact fun other after member different =>
        mem_append_left _ (kept_resumed there other after member different)
    · exact fun _ _ => .inr ⟨call, _, last, rfl, by simp [Phase.Awaited, OrderedMap.has]⟩
    · exact fun _ _ => .inr ⟨call, _, last, rfl, rfl⟩
  orphan i call same there gone hs := by
    subst same
    exact absurd (orderly call there) gone
  foundRunner i call settings task runner _ there _ _ hs :=
    hs.2.again hs.1.1 there _ (fun waits => waits) (by rintro ⟨⟩)
  lostRunner i call settings task error _ there found missing hs :=
    Handshaking.failTask (s := ((s₀.record e).resumed i).suspend (.accepting call .runnerMissing))
      hs.2 error found (hs.1.runner found) (hs.1.present found) missing
      fun other after member different =>
        mem_append_left _ (kept_resumed there other after member different)
  cancelled i call phase reason _ there cancels hs := by
    cases found : s₀.tasks.get call.taskId with
    | none =>
      rw [cancelTask_missing (s := ((s₀.record e).resumed i).suspend _) found]
      apply hs.2.focus call.taskId (.inl rfl) (fun _ _ => rfl)
      · exact fun other after member different =>
          mem_append_left _ (kept_resumed there other after member different)
      · intro runnerId owes
        refine .inl (((hs.2.at hs.1.1 there).1 runnerId owes).resolve_right fun waits => ?_)
        cases cancels with
        | rejected error => simp [Phase.Awaited, OrderedMap.has, record, found] at waits
        | runnerMissing => exact waits
      · exact fun task stored => absurd (found.symm.trans stored) (by simp)
    | some task =>
      exact Handshaking.cancelTask (s := ((s₀.record e).resumed i).suspend (.accepting call .cancelSent))
        hs.2 reason found (hs.1.runner found) (hs.1.present found)
        fun other after member different =>
          mem_append_left _ (kept_resumed there other after member different)
  started i call runnerId settings task _ there found hs := by
    have member := mem_of_getElem? there
    obtain ⟨⟨r, q, _, own⟩, _⟩ := hs.1.2.1 call.taskId
    have runner : runnerId = r := own.got call runnerId settings member rfl
    rw [startTask_known (s := (s₀.record e).resumed i) found]
    dsimp only [Handshakes, suspend, messageRunner, setTimeout]
    have noted := noted_if (s₀.record e).log (s₀.knownRunners.has runnerId = true)
      (.toRunner runnerId (.taskSettings call.taskId settings)) (by simp)
    apply hs.2.focus call.taskId noted
    · exact fun id different => OrderedMap.get_set_ne _ _ different
    · exact fun other after member different =>
        mem_append_left _ (kept_resumed there other after member different)
    · intro owed owes
      obtain ⟨offerId, offered⟩ := (noted.owes owes).offered
      have same : owed = r := own.toRunner owed _ offered rfl
      split at owes
      · rcases owes.cons with ⟨impossible, _⟩ | ⟨_, silent⟩
        · cases impossible
        · exact absurd ⟨runner.trans same.symm, rfl⟩ silent
      · rename_i unknown
        have present := hs.1.2.2.1.1.call call _ member
        rw [(own.call call _ member rfl).1, ← runner] at present
        have missing : s₀.knownRunners.get runnerId = none := by
          simpa [OrderedMap.has] using unknown
        exact .inl (noted.deregistered (same.trans runner.symm ▸ present.gone missing))
    · intro stored same
      rw [OrderedMap.get_set_self, Option.some.injEq] at same
      subst same
      refine .inl (noted.announced ?_)
      exact ((hs.2.at hs.1.1 there).2 task found).resolve_right (by rintro ⟨⟩)
  ended i call phase _ there ends hs := by
    cases ends with
    | settingsSent => exact hs.2.resumed hs.1.1 there id rfl
    | cancelSent => exact hs.2.resumed hs.1.1 there id rfl
    | answered settings missing =>
      exact hs.2.resumed hs.1.1 there (by simp [Phase.Awaited, OrderedMap.has, record, missing]) rfl
    | gotRunner runnerId settings missing =>
      exact hs.2.resumed hs.1.1 there (by simp [Phase.Awaited, OrderedMap.has, record, missing]) rfl

theorem Handshaking.accept (h : Handshaking tasks frames log)
    (new : Offered log runnerId taskId → Deregistered log runnerId ∨
      ∃ call phase, .accepting call phase ∈ frames ∧ call.taskId = taskId ∧ phase.Awaited tasks taskId) :
    Handshaking tasks frames (.received (.runnerMessage runnerId (.taskAccepted taskId)) :: log) where
  owed id id' owes := by
    refine Or.imp_left (fun gone : Deregistered log id => gone.note _) ?_
    rcases owes.cons with ⟨same, offered⟩ | ⟨old, _⟩
    · cases same
      exact new offered
    · exact h.owed id id' old
  announced id task found := by
    refine (h.announced id task found).imp_left ?_
    rintro ⟨requestId, member⟩
    exact ⟨requestId, mem_cons_of_mem _ member⟩

theorem awaited_accepted (unanswered : phase.unanswered) :
    (Phase.settleRunner .accepted phase).Awaited tasks taskId := by
  unfold Phase.unanswered at unanswered
  split at unanswered
  · rfl
  · rfl
  · cases unanswered

theorem step_accepted (ground : s.Ground cfg)
    (orderly : s.Orderly (.runnerMessage runnerId (.taskAccepted taskId))) (h : s.Handshakes) :
    (onRunnerMessage cfg (s.record (.runnerMessage runnerId (.taskAccepted taskId))) runnerId
      (.taskAccepted taskId)).Handshakes := by
  unfold onRunnerMessage
  split
  · rename_i known
    show (Broker.answerRunner _ _ _).Handshakes
    unfold Broker.answerRunner
    split
    · have settled := h.settle taskId (Phase.settleRunner .accepted)
        (fun _ _ waits => waits.settleRunner _) (fun _ => unheard_settleRunner _)
      refine settled.accept fun offered => .inr ?_
      obtain ⟨call, phase, member, own, open_⟩ := orderly known offered
      have moved := settle_mem taskId (Phase.settleRunner .accepted) member
      rw [if_pos own] at moved
      exact ⟨call, _, moved, own, open_.elim awaited_accepted fun waits => waits.settleRunner _⟩
    · rename_i absent
      refine Handshaking.accept h fun offered => .inr ?_
      obtain ⟨call, phase, member, own, open_⟩ := orderly known offered
      refine ⟨call, phase, member, own, open_.resolve_left fun unanswered => absent ?_⟩
      exact own ▸ ground.attended.waiting call phase member unanswered
  · rename_i unknown
    refine Handshaking.accept h fun offered => .inl ?_
    have missing : s.knownRunners.has runnerId = false := Bool.eq_false_iff.mpr unknown
    refine (ground.attended.offered runnerId taskId offered).gone ?_
    simpa [OrderedMap.has] using missing

theorem step_handshakes (ground : s.Ground cfg) (orderly : s.Orderly e) (h : s.Handshakes)
    (taken : step cfg s e = some s') : s'.Handshakes := by
  by_cases accepts : ∃ runnerId taskId, e = .runnerMessage runnerId (.taskAccepted taskId)
  · obtain ⟨runnerId, taskId, rfl⟩ := accepts
    cases taken
    exact step_accepted ground orderly h
  · have other : ∀ runnerId taskId, e ≠ .runnerMessage runnerId (.taskAccepted taskId) :=
      fun runnerId taskId same => accepts ⟨runnerId, taskId, same⟩
    refine step_closed (handshakes_closed ground orderly other) ground.coherent
      ⟨ground.grounded, h.keep (.inr ⟨_, rfl, fun runnerId taskId same => ?_⟩) fun _ _ there => there⟩
      taken
    cases same
    exact other _ _ rfl

theorem handshakes_start : Broker.start.Handshakes where
  owed runnerId taskId owes := by
    obtain ⟨newer, older, same, _⟩ := owes
    cases newer <;> cases same
  announced taskId task found := by cases found

end Step

/-- In every run of orderly events, once no handler is suspended: every stored task has
been announced to its requester, and a runner that has heard nothing since it accepted a
task it was offered has been deregistered. -/
theorem no_orphan_task {cfg : Config} {s : Broker} (h : (system cfg).ReachableVia Orderly s) (idle : s.frames = []) :
    (∀ taskId task, s.tasks.get taskId = some task → Announced s.log taskId task) ∧
      ∀ runnerId taskId, Owes s.log runnerId taskId → Deregistered s.log runnerId := by
  have inv : s.Ground cfg ∧ s.Handshakes := by
    refine h.invariant (P := fun s => s.Ground cfg ∧ s.Handshakes) ⟨.start cfg, handshakes_start⟩ ?_
    intro s e s' inv orderly taken
    exact ⟨inv.1.step orderly taken, step_handshakes inv.1 orderly inv.2 taken⟩
  have handshaking : Handshaking s.tasks [] s.log := idle ▸ inv.2
  constructor
  · intro taskId task found
    refine (handshaking.announced taskId task found).resolve_right ?_
    rintro ⟨_, _, member, _⟩
    cases member
  · intro runnerId taskId owes
    refine (handshaking.owed runnerId taskId owes).resolve_right ?_
    rintro ⟨_, _, member, _⟩
    cases member

/-- What `Orderly` asks of the events of the sample run, as a check. -/
def orderlyCheck (s : Broker) : Event → Bool
  | .runnerMessage _ (.taskAccepted taskId) => s.frames.any fun
    | .accepting call phase => call.taskId = taskId && phase.unanswered
    | _ => false
  | .requesterMessage _ (.taskSettings taskId _) => (s.tasks.get taskId).all fun task =>
    s.log.any fun
      | .toRequester id (.taskReady _ id') => id = task.requesterId && id' = taskId
      | _ => false
  | .runnerMessage _ (.taskDone _ _) => false
  | .runnerMessage _ (.taskError _ _) => false
  | .resume i => match s.frames[i]? with
    | some (.accepting call (.awaitingRunner (some .accepted))) =>
      s.pendingTaskRequests.any (·.requestId = call.request.requestId)
    | _ => true
  | _ => true

theorem orderlyCheck_sound (s : Broker) (e : Event) (checked : s.orderlyCheck e = true) : s.Orderly e := by
  cases e with
  | runnerMessage runnerId message =>
    cases message with
    | taskAccepted taskId =>
      intro _ _
      obtain ⟨frame, member, passes⟩ := List.any_eq_true.mp checked
      cases frame with
      | accepting call phase =>
        simp only [Bool.and_eq_true, decide_eq_true_eq] at passes
        exact ⟨call, phase, member, passes.1, .inl passes.2⟩
      | _ => cases passes
    | taskDone taskId data => cases checked
    | taskError taskId error => cases checked
    | _ => trivial
  | requesterMessage requesterId message =>
    cases message with
    | taskSettings taskId settings =>
      intro task found
      simp only [orderlyCheck, found, Option.all_some] at checked
      obtain ⟨entry, member, passes⟩ := List.any_eq_true.mp checked
      split at passes
      · simp only [Bool.and_eq_true, decide_eq_true_eq] at passes
        exact ⟨_, passes.1 ▸ passes.2 ▸ member⟩
      · cases passes
    | _ => trivial
  | resume i =>
    intro call there
    simpa [orderlyCheck, there] using checked
  | _ => trivial

theorem no_orphan_task_when_started : ∃ s, (system .sample).ReachableVia Orderly s ∧ s.frames = [] ∧ s.tasks.has "" ∧
      (∀ taskId task, s.tasks.get taskId = some task → Announced s.log taskId task) := by
  have start : (system .sample).ReachableVia Orderly Broker.start := .init
  obtain ⟨s, reached, found⟩ := TransitionSystem.reachableVia_runChecked orderlyCheck
    orderlyCheck_sound start taskStarted (fun s => s.frames = [] && s.tasks.has "") (by decide)
  simp only [Bool.and_eq_true, decide_eq_true_eq] at found
  exact ⟨s, reached, found.1, found.2, (no_orphan_task reached found.1).1⟩

/-- The request expires while the runner is accepting it. The task is stored, nobody
hears of it, and nothing is left that could end it. -/
theorem orphan_task_left : ¬ ∀ (cfg : Config) (s : Broker), (system cfg).Reachable s → s.frames = [] → s.timers = [] →
      (∀ taskId task, s.tasks.get taskId = some task → Announced s.log taskId task) ∧
        ∀ runnerId taskId, Owes s.log runnerId taskId → Deregistered s.log runnerId := by
  intro claim
  have start : (system .sample).Reachable Broker.start := .initial
  obtain ⟨s, reached, found⟩ := TransitionSystem.reachableVia_runChecked (fun _ _ => true) (fun _ _ _ => trivial) start
    [.registerRunner ⟨"r", ["javascript"]⟩, .registerRequester "q",
      .requesterMessage "q" (.taskRequest "request" "javascript"),
      .runnerMessage "r" (.taskOffer "offer" "javascript" (-1)), .resume 0, .fire 0,
      .runnerMessage "r" (.taskAccepted ""), .resume 0, .fire 1]
    (fun s => s.frames = [] && s.timers = [] && s.tasks.has "" && s.log.all fun
      | .toRequester _ (.taskReady _ _) => false
      | _ => true) (by decide)
  simp only [Bool.and_eq_true, decide_eq_true_eq] at found
  obtain ⟨⟨⟨idle, quiet⟩, stored⟩, silent⟩ := found
  obtain ⟨task, there⟩ := Option.isSome_iff_exists.mp stored
  obtain ⟨requestId, member⟩ := (claim .sample s reached idle quiet).1 "" task there
  have absent := List.all_eq_true.mp silent _ member
  cases absent

end Broker

end N8n.TaskBroker
