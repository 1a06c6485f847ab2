import N8n.TaskBrokerRouting

/-! Two facts that the handshake of `acceptOffer` rests on. `Attending`: a runner that an
offer, a call of `acceptOffer` or a task belongs to is registered or has been
deregistered, and a call that waits for its runner can be answered. `Closing`: a task
whose end is under way, or whose execution time runs, has its settings. -/

namespace N8n.TaskBroker

open BrokerMessage List OrderedMap

def Deregistered (log : List Entry) (runnerId : String) : Prop :=
  ∃ error, .received (.deregisterRunner runnerId error) ∈ log

def Offered (log : List Entry) (runnerId taskId : String) : Prop :=
  ∃ offerId, .toRunner runnerId (.taskOfferAccept taskId offerId) ∈ log

def Present (runners : OrderedMap String TaskRunner) (log : List Entry) (runnerId : String) : Prop :=
  runners.has runnerId ∨ Deregistered log runnerId

variable {log : List Entry} {runnerId : String}

theorem Deregistered.note (h : Deregistered log runnerId) (entry : Entry) : Deregistered (entry :: log) runnerId := by
  obtain ⟨error, member⟩ := h
  exact ⟨error, mem_cons_of_mem _ member⟩

variable {runners : OrderedMap String TaskRunner}

section

variable (h : Present runners log runnerId)
include h

theorem Present.note (entry : Entry) : Present runners (entry :: log) runnerId :=
  h.imp_right fun gone => gone.note entry

theorem Present.set (runner : TaskRunner) : Present (runners.set runner.id runner) log runnerId := by
  refine h.imp_left fun has => ?_
  rw [OrderedMap.has, get_set]
  split
  · rfl
  · exact has

theorem Present.delete {other : String} (gone : Deregistered log other) :
    Present (runners.delete other) log runnerId := by
  by_cases here : runnerId = other
  · exact .inr (here ▸ gone)
  · refine h.imp_left fun has => ?_
    rw [OrderedMap.has, get_delete_ne _ here]
    exact has

theorem Present.gone (unknown : runners.get runnerId = none) : Deregistered log runnerId := by
  rcases h with known | gone
  · simp [OrderedMap.has, unknown] at known
  · exact gone

end

/-- The runner's answer is still open. -/
def Phase.unanswered : Phase → Bool
  | .offerSent none => true
  | .awaitingRunner none => true
  | _ => false

theorem unanswered_settleRunner (answer : RunnerAnswer) (phase : Phase) :
    (Broker.Phase.settleRunner answer phase).unanswered = false := by
  unfold Broker.Phase.settleRunner
  split
  · rfl
  · rfl
  · rename_i sent waiting
    unfold Phase.unanswered
    split
    · exact absurd rfl sent
    · exact absurd rfl waiting
    · rfl

theorem unanswered_settleRequester (answer : RequesterAnswer) (phase : Phase) :
    (Broker.Phase.settleRequester answer phase).unanswered = phase.unanswered := by
  unfold Broker.Phase.settleRequester
  split <;> rfl

namespace Broker

/-! ## Attending -/

structure Attending (runners : OrderedMap String TaskRunner) (tasks : OrderedMap String Task)
    (acceptRejects : List String) (offers : List TaskOffer) (frames : List Frame)
    (log : List Entry) : Prop where
  call : ∀ call phase, .accepting call phase ∈ frames → Present runners log call.offer.runnerId
  waiting : ∀ call phase, .accepting call phase ∈ frames → phase.unanswered → call.taskId ∈ acceptRejects
  task : ∀ taskId task, tasks.get taskId = some task → Present runners log task.runnerId
  offer : ∀ offer ∈ offers, Present runners log offer.runnerId
  offered : ∀ runnerId taskId, Offered log runnerId taskId → Present runners log runnerId

def Attended (s : Broker) : Prop :=
  Attending s.knownRunners s.tasks s.runnerAcceptRejects s.pendingTaskOffers s.frames s.log

section Attending

variable {runners runners' : OrderedMap String TaskRunner} {tasks tasks' : OrderedMap String Task}
  {acceptRejects : List String} {offers offers' : List TaskOffer} {frames frames' : List Frame}
  {log : List Entry} {call : Accept}

section

variable (h : Attending runners tasks acceptRejects offers frames log)
include h

theorem Attending.note (entry : Entry)
    (other : ∀ id taskId offerId, entry ≠ .toRunner id (.taskOfferAccept taskId offerId)) :
    Attending runners tasks acceptRejects offers frames (entry :: log) where
  call call phase member := (h.call call phase member).note entry
  waiting := h.waiting
  task taskId task found := (h.task taskId task found).note entry
  offer offer member := (h.offer offer member).note entry
  offered runnerId taskId offered := by
    obtain ⟨offerId, member⟩ := offered
    have old := (mem_cons.mp member).resolve_left fun same => other _ _ _ same.symm
    exact (h.offered runnerId taskId ⟨offerId, old⟩).note entry

theorem Attending.registered (kept : ∀ id, Present runners log id → Present runners' log id) :
    Attending runners' tasks acceptRejects offers frames log where
  call call phase member := kept _ (h.call call phase member)
  waiting := h.waiting
  task taskId task found := kept _ (h.task taskId task found)
  offer offer member := kept _ (h.offer offer member)
  offered runnerId taskId offered := kept _ (h.offered runnerId taskId offered)

theorem Attending.fewerTasks (fewer : ∀ key task, tasks'.get key = some task → tasks.get key = some task) :
    Attending runners tasks' acceptRejects offers frames log :=
  { h with task := fun taskId task found => h.task taskId task (fewer taskId task found) }

theorem Attending.assign (key : String) (task : Task) (present : Present runners log task.runnerId) :
    Attending runners (tasks.set key task) acceptRejects offers frames log := by
  refine { h with task := fun taskId stored found => ?_ }
  rw [get_set] at found
  split at found
  · cases found
    exact present
  · exact h.task taskId stored found

theorem Attending.fewerOffers (fewer : ∀ offer ∈ offers', offer ∈ offers) :
    Attending runners tasks acceptRejects offers' frames log :=
  { h with offer := fun offer member => h.offer offer (fewer offer member) }

theorem Attending.framed (older : ∀ call phase, .accepting call phase ∈ frames' →
      ∃ before, .accepting call before ∈ frames ∧ (phase.unanswered → before.unanswered)) :
    Attending runners tasks acceptRejects offers frames' log := by
  refine { h with
    call := fun call phase member => ?_
    waiting := fun call phase member unanswered => ?_ }
  · obtain ⟨before, there, _⟩ := older call phase member
    exact h.call call before there
  · obtain ⟨before, there, wasUnanswered⟩ := older call phase member
    exact h.waiting call before there (wasUnanswered unanswered)

theorem Attending.suspend (frame : Frame) (other : ∀ call phase, frame ≠ .accepting call phase) :
    Attending runners tasks acceptRejects offers (frames ++ [frame]) log :=
  h.framed fun _ phase member => ⟨phase, (mem_suspend member).resolve_right fun new => other _ _ new.symm, id⟩

theorem Attending.resumed (i : ℕ) : Attending runners tasks acceptRejects offers (frames.eraseIdx i) log :=
  h.framed fun _ phase member => ⟨phase, mem_of_mem_eraseIdx member, id⟩

theorem Attending.again {i : ℕ} {phase : Phase} (there : frames[i]? = some (.accepting call phase)) (phase' : Phase)
    (kept : phase'.unanswered → phase.unanswered) :
    Attending runners tasks acceptRejects offers (frames.eraseIdx i ++ [.accepting call phase']) log := by
  apply h.framed
  intro other after member
  rcases mem_suspend member with old | new
  · exact ⟨after, mem_of_mem_eraseIdx old, id⟩
  · cases new
    exact ⟨phase, mem_of_getElem? there, kept⟩

theorem Attending.settle (taskId : String) (change : Phase → Phase)
    (kept : ∀ phase, (change phase).unanswered → phase.unanswered) :
    Attending runners tasks acceptRejects offers (frames.map (Frame.settle taskId change)) log := by
  apply h.framed
  intro call phase member
  obtain ⟨before, there, rfl⟩ := mem_settle member
  refine ⟨before, there, ?_⟩
  split
  · exact kept before
  · exact id

theorem Attending.answer (taskId : String) (answer : RunnerAnswer) :
    Attending runners tasks (acceptRejects.filter (· ≠ taskId)) offers
      (frames.map (Frame.settle taskId (Phase.settleRunner answer))) log := by
  have settled := h.settle taskId (Phase.settleRunner answer) (by simp [unanswered_settleRunner])
  refine { settled with waiting := fun call phase member unanswered => ?_ }
  have listed := settled.waiting call phase member unanswered
  obtain ⟨before, _, same⟩ := mem_settle member
  have different : call.taskId ≠ taskId := by
    intro here
    rw [if_pos here] at same
    simp [same, unanswered_settleRunner] at unanswered
  exact mem_filter.mpr ⟨listed, by simpa using different⟩

theorem Attending.openAccept (call : Accept) (present : Present runners log call.offer.runnerId) :
    Attending runners tasks (acceptRejects ++ [call.taskId]) offers
      (frames ++ [.accepting call (.offerSent none)]) log := by
  refine { h with
    call := fun other phase member => ?_
    waiting := fun other phase member unanswered => ?_ }
  · rcases mem_suspend member with old | new
    · exact h.call other phase old
    · cases new
      exact present
  · rcases mem_suspend member with old | new
    · exact mem_append_left _ (h.waiting other phase old unanswered)
    · cases new
      exact mem_append_right _ (mem_singleton_self _)

theorem Attending.noteOffer {id taskId offerId : String} (present : runners.has id) :
    Attending runners tasks acceptRejects offers frames (.toRunner id (.taskOfferAccept taskId offerId) :: log) where
  call call phase member := (h.call call phase member).note _
  waiting := h.waiting
  task taskId task found := (h.task taskId task found).note _
  offer offer member := (h.offer offer member).note _
  offered runnerId other offered := by
    obtain ⟨offerId, member⟩ := offered
    rcases mem_cons.mp member with new | old
    · cases new
      exact .inl present
    · exact (h.offered runnerId other ⟨offerId, old⟩).note _

end

end Attending

section Step

variable {cfg : Config} {s₀ s s' : Broker} {e : Event}

section

variable (h : s.Attended)
include h

theorem Attended.messageRunner (id : String) (message : ToRunner)
    (other : ∀ taskId offerId, message ≠ .taskOfferAccept taskId offerId) : (s.messageRunner id message).Attended := by
  unfold Broker.messageRunner
  split
  · refine h.note _ fun id' taskId offerId same => ?_
    cases same
    exact other taskId offerId rfl
  · exact h

theorem Attended.messageRequester (id : String) (message : ToRequester) : (s.messageRequester id message).Attended := by
  unfold Broker.messageRequester
  split
  · exact h.note _ nofun
  · exact h

theorem Attended.cancelTask (taskId reason : String) : (s.cancelTask taskId reason).Attended := by
  unfold Broker.cancelTask
  split
  · exact h
  · have fewer : { s with tasks := s.tasks.delete taskId }.Attended :=
      h.fewerTasks fun _ _ => s.tasks.get_delete_some
    exact fewer.messageRunner _ _ nofun

theorem Attended.failTask (taskId : String) (error : BrokerError) : (s.failTask taskId error).Attended := by
  unfold Broker.failTask
  split
  · exact h
  · have fewer : { s with tasks := s.tasks.delete taskId }.Attended :=
      h.fewerTasks fun _ _ => s.tasks.get_delete_some
    exact fewer.messageRequester _ _

theorem Attended.finishTask (taskId : String) (message : String → ToRequester) :
    (s.finishTask taskId message).Attended := by
  unfold Broker.finishTask
  split
  · exact h
  · rename_i task _
    have sent := Attended.messageRequester (s := s.clearTimeout task.timeout) h task.requesterId (message task.id)
    exact Attending.suspend sent (.terminalSent task.id) (by simp)

theorem Attended.answerRunner (taskId : String) (answer : RunnerAnswer) : (s.answerRunner taskId answer).Attended := by
  unfold Broker.answerRunner
  split
  · exact h.answer taskId answer
  · exact h

theorem Attended.openAccept (call : Accept)
    (present : Present s.knownRunners s.log call.offer.runnerId) : (s.openAccept call).Attended := by
  have opened := Attending.openAccept h call present
  unfold Broker.openAccept Broker.messageRunner
  split
  · rename_i known
    exact opened.noteOffer known
  · exact opened

end

/-- The event is in the history, so a runner that it deregisters is accounted for. -/
def AttendedSince (e : Event) (s : Broker) : Prop := Attended s ∧ .received e ∈ s.log

theorem attended_closed (cfg : Config) (s₀ : Broker) (e : Event) : Closed cfg s₀ e (AttendedSince e) Attended where
  weaken hs := hs.1
  setRunner runner hs := ⟨hs.1.registered fun _ present => present.set runner, hs.2⟩
  deleteRunner runnerId error same hs := by
    have gone : Deregistered _ runnerId := ⟨error, same ▸ hs.2⟩
    have rest := hs.1.registered fun _ present => present.delete gone
    exact ⟨rest.fewerOffers fun offer member => (mem_filter.mp member).1, hs.2⟩
  entry entry neutral _ hs := by
    refine ⟨hs.1.note entry fun id taskId offerId same => ?_, mem_cons_of_mem _ hs.2⟩
    subst same
    cases neutral
  drain _ _ _ _ hs := ⟨hs.1.note _ (by simp), mem_cons_of_mem _ hs.2⟩
  frame frame neutral _ hs := by
    refine ⟨hs.1.suspend frame fun call phase same => ?_, hs.2⟩
    subst same
    cases neutral
  settleRunner taskId error hs :=
    ⟨hs.1.settle taskId _ (by simp [unanswered_settleRunner]), hs.2⟩
  answerRunner taskId error hs := by
    refine ⟨hs.1.answerRunner taskId _, ?_⟩
    unfold answerRunner
    split <;> exact hs.2
  accepted runnerId taskId _ _ hs := hs.1.answerRunner taskId _
  rejectRequester taskId error hs :=
    ⟨hs.1.settle taskId _ (by simp [unanswered_settleRequester]), hs.2⟩
  settings _ taskId _ _ hs := ⟨hs.1.settle taskId _ (by simp [unanswered_settleRequester]), hs.2⟩
  cancel taskId reason hs := by
    refine ⟨hs.1.cancelTask taskId reason, ?_⟩
    unfold cancelTask messageRunner
    split
    · exact hs.2
    · split
      · exact mem_cons_of_mem _ hs.2
      · exact hs.2
  fail taskId error _ _ hs := by
    refine ⟨hs.1.failTask taskId error, ?_⟩
    unfold failTask messageRequester
    split
    · exact hs.2
    · split
      · exact mem_cons_of_mem _ hs.2
      · exact hs.2
  finish taskId data error _ _ _ _ _ hs := ⟨hs.1.finishTask taskId _, hs.1.finishTask taskId _⟩
  timeoutFrame _ _ _ _ _ _ hs := ⟨hs.1.suspend _ (by simp), hs.2⟩
  expireOffers hs := ⟨hs.1.fewerOffers fun _ member => (mem_filter.mp member).1, hs.2⟩
  addOffer runnerId taskType validFor offer _ own known hs := by
    refine ⟨{ hs.1 with offer := fun other member => ?_ }, hs.2⟩
    rcases mem_append.mp member with old | new
    · exact hs.1.offer other old
    · rw [mem_singleton.mp new, own]
      exact .inl known
  expire requestId hs := by
    unfold handleRequestTimeout messageRequester
    split
    · exact hs
    · split
      · exact ⟨hs.1.note _ (by simp), mem_cons_of_mem _ hs.2⟩
      · exact hs
  settle request offer _ _ _ _ found hs := by
    have present := hs.1.offer offer (mem_of_find?_eq_some found)
    have claimed : (claimOffer _ request).Attended :=
      hs.1.fewerOffers fun _ member => mem_of_mem_eraseP member
    refine ⟨claimed.openAccept _ present, ?_⟩
    unfold openAccept messageRunner
    split
    · exact mem_cons_of_mem _ hs.2
    · exact hs.2
  resumeNeutral i _ _ _ _ hs := ⟨hs.1.resumed i, hs.2⟩
  resumeTerminal i taskId _ _ hs :=
    (hs.1.resumed i).fewerTasks fun _ _ => get_delete_some _
  resumeTimeout i taskId _ _ hs :=
    Attended.finishTask (s := (s₀.record e).resumed i) (hs.1.resumed i) taskId _
  advance i call _ _ _ there sent hs := by
    cases sent with
    | offer answer => exact hs.1.again there _ (by cases answer <;> simp [Phase.unanswered])
    | ready answer => exact hs.1.again there _ (by simp [Phase.unanswered])
  giveUp i call error _ _ hs := by
    have rest := hs.1.resumed i
    exact acceptFailed_elim rest rest
  announce i call _ there _ hs := by
    have present := hs.1.call call _ (mem_of_getElem? there)
    have stored := (hs.1.again there (.readySent none) (by simp [Phase.unanswered])).assign
      call.taskId call.task present
    dsimp only [Attended, announceTask, storeTask, suspend, messageRequester, setTimeout, clearTimeout]
    split
    · exact stored.note _ (by simp)
    · exact stored
  orphan i call _ there _ hs :=
    (hs.1.resumed i).assign call.taskId call.task (hs.1.call call _ (mem_of_getElem? there))
  foundRunner i call settings task runner _ there _ _ hs :=
    hs.1.again there _ (by simp [Phase.unanswered])
  lostRunner i call settings task error _ there _ _ hs :=
    Attended.failTask (s := ((s₀.record e).resumed i).suspend (.accepting call .runnerMissing))
      (hs.1.again there _ (by simp [Phase.unanswered])) _ _
  cancelled i call _ reason _ there _ hs :=
    Attended.cancelTask (s := ((s₀.record e).resumed i).suspend (.accepting call .cancelSent))
      (hs.1.again there _ (by simp [Phase.unanswered])) _ _
  started i call runnerId settings task _ there found hs := by
    rw [startTask_known (s := (s₀.record e).resumed i) found]
    have again := hs.1.again there .settingsSent (by simp [Phase.unanswered])
    have stored := again.assign call.taskId { task with timeout := some s₀.nextTimer }
      (hs.1.task call.taskId task found)
    unfold messageRunner
    split
    · exact stored.note _ (by simp)
    · exact stored
  ended i _ _ _ _ _ hs := hs.1.resumed i

end Step

/-! ## Closing -/

end Broker

/-- The settings of the task have not been sent, nor has it been given up. -/
def Phase.unsettled : Phase → Bool
  | .settingsSent => false
  | .runnerMissing => false
  | .cancelSent => false
  | _ => true

theorem unsettled_settleRunner (answer : RunnerAnswer) (phase : Phase) :
    (Broker.Phase.settleRunner answer phase).unsettled = phase.unsettled := by
  unfold Broker.Phase.settleRunner
  split <;> rfl

theorem unsettled_settleRequester (answer : RequesterAnswer) (phase : Phase) :
    (Broker.Phase.settleRequester answer phase).unsettled = phase.unsettled := by
  unfold Broker.Phase.settleRequester
  split <;> rfl

namespace Broker

/-- No call of `acceptOffer` has still to send settings for the task. -/
def Settled (frames : List Frame) (taskId : String) : Prop :=
  ∀ call phase, .accepting call phase ∈ frames → call.taskId = taskId → phase.unsettled = false

structure Closing (cfg : Config) (timers : List (ℕ × Timer)) (frames : List Frame) (nextTask : ℕ) : Prop where
  timer : ∀ handle taskId, (handle, .task taskId) ∈ timers → Issued cfg nextTask taskId ∧ Settled frames taskId
  cancel : ∀ taskId, .timeoutCancelSent taskId ∈ frames → Issued cfg nextTask taskId ∧ Settled frames taskId
  terminal : ∀ taskId, .terminalSent taskId ∈ frames → Issued cfg nextTask taskId ∧ Settled frames taskId

def Closes (cfg : Config) (s : Broker) : Prop := Closing cfg s.timers s.frames s.nextTask

section Closing

variable {cfg : Config} {timers timers' : List (ℕ × Timer)} {frames frames' : List Frame}
  {nextTask : ℕ} {call : Accept} {taskId : String}

theorem Settled.framed (h : Settled frames taskId)
    (older : ∀ call phase, .accepting call phase ∈ frames' → phase.unsettled →
      ∃ before, .accepting call before ∈ frames ∧ before.unsettled) : Settled frames' taskId := by
  intro call phase member own
  by_contra unsettled
  obtain ⟨before, there, wasUnsettled⟩ := older call phase member (by simpa using unsettled)
  simp [h call before there own] at wasUnsettled

section

variable (h : Closing cfg timers frames nextTask)
include h

section

variable (older : ∀ call phase, .accepting call phase ∈ frames' → phase.unsettled →
    ∃ before, .accepting call before ∈ frames ∧ before.unsettled)
include older

theorem Closing.framed (cancels : ∀ taskId, .timeoutCancelSent taskId ∈ frames' →
    Issued cfg nextTask taskId ∧ Settled frames taskId)
    (terminals : ∀ taskId, .terminalSent taskId ∈ frames' → Issued cfg nextTask taskId ∧ Settled frames taskId) :
    Closing cfg timers frames' nextTask where
  timer handle taskId member := (h.timer handle taskId member).imp_right fun past => past.framed older
  cancel taskId member := (cancels taskId member).imp_right fun past => past.framed older
  terminal taskId member := (terminals taskId member).imp_right fun past => past.framed older

theorem Closing.fewer (others : ∀ frame ∈ frames', frame.acceptId = none → frame ∈ frames) :
    Closing cfg timers frames' nextTask :=
  h.framed older (fun taskId member => h.cancel taskId (others _ member rfl))
    (fun taskId member => h.terminal taskId (others _ member rfl))

end

theorem Closing.resumed (i : ℕ) : Closing cfg timers (frames.eraseIdx i) nextTask := by
  apply h.fewer
  · exact fun call phase member unsettled => ⟨phase, mem_of_mem_eraseIdx member, unsettled⟩
  · exact fun frame member _ => mem_of_mem_eraseIdx member

theorem Closing.again {i : ℕ} {phase : Phase} (there : frames[i]? = some (.accepting call phase)) (phase' : Phase)
    (kept : phase'.unsettled → phase.unsettled) :
    Closing cfg timers (frames.eraseIdx i ++ [.accepting call phase']) nextTask := by
  apply h.fewer
  · intro other after member unsettled
    rcases mem_suspend member with old | new
    · exact ⟨after, mem_of_mem_eraseIdx old, unsettled⟩
    · cases new
      exact ⟨phase, mem_of_getElem? there, kept unsettled⟩
  · intro frame member other
    rcases mem_suspend member with old | new
    · exact mem_of_mem_eraseIdx old
    · subst new
      cases other

theorem Closing.suspend {frame : Frame} (calls : ∀ call phase, frame ≠ .accepting call phase)
    (past : ∀ taskId, frame = .timeoutCancelSent taskId ∨ frame = .terminalSent taskId →
      Issued cfg nextTask taskId ∧ Settled frames taskId) : Closing cfg timers (frames ++ [frame]) nextTask := by
  apply h.framed
  · exact fun call phase member unsettled => ⟨phase,
      (mem_suspend member).resolve_right fun new => calls _ _ new.symm, unsettled⟩
  · intro taskId member
    rcases mem_suspend member with old | new
    · exact h.cancel taskId old
    · exact past taskId (.inl new.symm)
  · intro taskId member
    rcases mem_suspend member with old | new
    · exact h.terminal taskId old
    · exact past taskId (.inr new.symm)

theorem Closing.settle (id : String)
    (change : Phase → Phase) (kept : ∀ phase, (change phase).unsettled = phase.unsettled) :
    Closing cfg timers (frames.map (Frame.settle id change)) nextTask := by
  apply h.fewer
  · intro call phase member unsettled
    obtain ⟨before, there, rfl⟩ := mem_settle member
    refine ⟨before, there, ?_⟩
    split at unsettled
    · exact kept before ▸ unsettled
    · exact unsettled
  · intro frame member other
    refine (mem_settle_other fun call phase same => ?_).mp member
    subst same
    cases other

theorem Closing.openAccept (call : Accept) (fresh : call.taskId = cfg.nanoid nextTask) (phase : Phase) :
    Closing cfg timers (frames ++ [.accepting call phase]) (nextTask + 1) := by
  have kept : ∀ taskId, Issued cfg nextTask taskId ∧ Settled frames taskId →
      Issued cfg (nextTask + 1) taskId ∧ Settled (frames ++ [.accepting call phase]) taskId := by
    intro taskId past
    refine ⟨past.1.next, fun other after member own => ?_⟩
    rcases mem_suspend member with old | new
    · exact past.2 other after old own
    · cases new
      exact absurd (own.symm.trans fresh) past.1.ne_fresh
  constructor
  · exact fun handle taskId member => kept taskId (h.timer handle taskId member)
  · exact fun taskId member => kept taskId (h.cancel taskId ((mem_suspend member).resolve_right nofun))
  · exact fun taskId member => kept taskId (h.terminal taskId ((mem_suspend member).resolve_right nofun))

end

end Closing

section Step

variable {cfg : Config} {s₀ s s' : Broker} {e : Event} {taskId : String}

theorem task_timer_set {timers : List (ℕ × Timer)} (timer : Timer) {next handle : ℕ}
    (other : ∀ taskId, timer ≠ .task taskId) (member : (handle, .task taskId) ∈ timers ++ [(next, timer)]) :
    (handle, .task taskId) ∈ timers := by
  refine (mem_append.mp member).resolve_right fun new => ?_
  exact other taskId (Prod.mk.inj (mem_singleton.mp new)).2.symm

theorem Closes.finishTask (h : s.Closes cfg) (taskId : String) (message : String → ToRequester)
    (keyed : ∀ key task, s.tasks.get key = some task → task.id = key)
    (past : ∀ task, s.tasks.get taskId = some task → Issued cfg s.nextTask taskId ∧ Settled s.frames taskId) :
    (s.finishTask taskId message).Closes cfg := by
  unfold Broker.finishTask
  split
  · exact h
  · rename_i task found
    have cleared : (s.clearTimeout task.timeout).Closes cfg :=
      { h with timer := fun handle id member => h.timer handle id (mem_filter.mp member).1 }
    refine Closing.suspend cleared (by simp) fun id same => ?_
    simp only [reduceCtorEq, Frame.terminalSent.injEq, false_or] at same
    rw [← same, keyed taskId task found]
    exact past task found

/-- The settings are out when an event runs `taskDoneHandler` or `taskErrorHandler`. -/
theorem Closes.finishes (closes : s₀.Closes cfg) (tracked : s₀.Tracked cfg)
    (last : ∀ runnerId message taskId, e = .runnerMessage runnerId message →
      Terminates cfg s₀ taskId e → Settled s₀.frames taskId) (finishes : e.Finishes) (terminates :
    Terminates cfg s₀ taskId e) {task : Task}
    (found : s₀.tasks.get taskId = some task) : Issued cfg s₀.nextTask taskId ∧ Settled s₀.frames taskId := by
  cases e with
  | runnerMessage runnerId message =>
    exact ⟨tracked.task taskId task found, last runnerId message taskId rfl terminates⟩
  | fire timer => exact closes.timer timer taskId terminates.1
  | _ => cases finishes

/-- A runner's last word on a task that it gets before the settings of the task were
sent is left out. -/
theorem closes_closed (coherent : s₀.Coherent) (tracked : s₀.Tracked cfg) (closes : s₀.Closes cfg)
    (last : ∀ runnerId message taskId, e = .runnerMessage runnerId message →
      Terminates cfg s₀ taskId e → Settled s₀.frames taskId) :
    Closed cfg s₀ e (Closes cfg) (Closes cfg) where
  aux _ _ _ timers _ fewer hs :=
    { hs with timer := fun handle taskId member => hs.timer handle taskId (fewer _ _ member) }
  frame frame neutral _ hs := by
    apply hs.suspend
    · intro call phase same
      subst same
      cases neutral
    · rintro taskId (same | same)
      · subst same
        cases neutral
      · subst same
        cases neutral
  settleRunner taskId error hs := hs.settle taskId _ (unsettled_settleRunner _)
  answerRunner taskId error hs := by
    unfold answerRunner
    split
    · exact hs.settle taskId _ (unsettled_settleRunner _)
    · exact hs
  accepted runnerId taskId _ _ hs := by
    unfold handleRunnerAccept answerRunner
    split
    · exact hs.settle taskId _ (unsettled_settleRunner _)
    · exact hs
  rejectRequester taskId error hs := hs.settle taskId _ (unsettled_settleRequester _)
  settings _ taskId _ _ hs := hs.settle taskId _ (unsettled_settleRequester _)
  cancel taskId reason hs := by
    unfold cancelTask
    split <;> exact hs
  fail taskId error _ _ hs := by
    unfold failTask
    split <;> exact hs
  finish taskId data error finishes terminates same frames next hs := by
    have keyed := same ▸ coherent.keyed
    constructor
    · refine hs.finishTask taskId _ keyed fun task found => ?_
      rw [frames, next]
      exact closes.finishes tracked last finishes terminates (same ▸ found)
    · refine hs.finishTask taskId _ keyed fun task found => ?_
      rw [frames, next]
      exact closes.finishes tracked last finishes terminates (same ▸ found)
  timeoutFrame timer taskId _ pending frames next hs := by
    have past := closes.timer timer taskId pending
    refine hs.suspend (by simp) fun id same => ?_
    simp only [reduceCtorEq, Frame.timeoutCancelSent.injEq, or_false] at same
    rw [← same, frames, next]
    exact past
  expire requestId hs := by
    unfold handleRequestTimeout
    split
    · exact hs
    · exact { hs with timer := fun handle id member => hs.timer handle id (mem_filter.mp member).1 }
  settle request offer _ _ _ _ _ hs := by
    have opened := hs.openAccept ⟨_, offer, { request with acceptInProgress := true }⟩ rfl (.offerSent none)
    refine { opened with timer := fun handle taskId member => opened.timer handle taskId ?_ }
    exact task_timer_set (.runnerAccept _ _) (by simp) member
  resumeNeutral i _ _ _ _ hs := hs.resumed i
  resumeTerminal i taskId _ _ hs := hs.resumed i
  resumeTimeout i taskId _ there hs :=
    Closes.finishTask (s := (s₀.record e).resumed i) (hs.resumed i) taskId _ coherent.keyed fun _ _ =>
      (closes.cancel taskId (mem_of_getElem? there)).imp_right fun past => past.framed
        fun _ phase member unsettled => ⟨phase, mem_of_mem_eraseIdx member, unsettled⟩
  advance i call _ _ _ there sent hs := by
    cases sent with
    | offer answer => exact hs.again there _ fun _ => rfl
    | ready answer => exact hs.again there _ fun _ => rfl
  giveUp i call error _ _ hs := by
    have rest := hs.resumed i
    unfold acceptFailed
    split
    · dsimp only [Closes, deferRequest, freeRequest, createRequestTimeout, setTimeout, clearTimeout]
      refine { rest with timer := fun handle taskId member => rest.timer handle taskId ?_ }
      exact (mem_filter.mp (task_timer_set (.request _) (by simp) member)).1
    · exact rest
  announce i call _ there _ hs := by
    have again := hs.again there (.readySent none) fun _ => rfl
    dsimp only [Closes, announceTask, storeTask, suspend, messageRequester, setTimeout, clearTimeout]
    refine { again with timer := fun handle taskId member => again.timer handle taskId ?_ }
    exact (mem_filter.mp (task_timer_set (.requesterAccept _) (by simp) member)).1
  orphan i call _ there _ hs := by
    have rest := hs.resumed i
    exact { rest with
      timer := fun handle taskId member => rest.timer handle taskId (mem_filter.mp member).1 }
  foundRunner i call settings task runner _ there _ _ hs := hs.again there _ fun _ => rfl
  lostRunner i call settings task error _ there _ _ hs := by
    have again := hs.again there .runnerMissing nofun
    unfold failTask
    split <;> exact again
  cancelled i call _ reason _ there _ hs := by
    have again := hs.again there .cancelSent nofun
    unfold cancelTask
    split <;> exact again
  started i call runnerId settings task _ there found hs := by
    rw [startTask_known (s := (s₀.record e).resumed i) found]
    have again := hs.again there .settingsSent nofun
    refine { again with timer := fun handle taskId member => ?_ }
    rcases mem_append.mp member with old | new
    · exact again.timer handle taskId old
    · cases mem_singleton.mp new
      refine ⟨tracked.issued there, fun other phase member own => ?_⟩
      rcases mem_suspend member with old | new
      · exact absurd (own ▸ mem_acceptIds old) (tracked.alone there)
      · cases new
        rfl
  ended i _ _ _ _ _ hs := hs.resumed i

end Step

end Broker

end N8n.TaskBroker
