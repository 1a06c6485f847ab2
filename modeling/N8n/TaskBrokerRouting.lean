import N8n.TaskBrokerInvariant

/-! Who hears about a task. The handlers look a task up by the id in the message and do
not look at who sent it. What they send goes by the task: a task id has one runner and
one requester for as long as anything in the state or in the history mentions it. -/

namespace N8n.TaskBroker

open BrokerMessage List

structure Owner (tasks : OrderedMap String Task) (frames : List Frame) (log : List Entry)
    (taskId runnerId requesterId : String) : Prop where
  toRunner : ∀ id message, .toRunner id message ∈ log → message.task = some taskId → id = runnerId
  toRequester : ∀ id message, .toRequester id message ∈ log → message.task = some taskId → id = requesterId
  call : ∀ call phase, .accepting call phase ∈ frames → call.taskId = taskId →
    call.offer.runnerId = runnerId ∧ call.request.requesterId = requesterId
  got : ∀ call id settings, .accepting call (.gotRunner id settings) ∈ frames → call.taskId = taskId → id = runnerId
  task : ∀ task, tasks.get taskId = some task → task.runnerId = runnerId ∧ task.requesterId = requesterId
  reply : ∀ id message, .respond id message ∈ frames → message.task = some taskId → id = runnerId

namespace Owner

variable {tasks tasks' : OrderedMap String Task} {frames frames' : List Frame} {log : List Entry}
  {taskId runnerId requesterId : String}

section

variable (h : Owner tasks frames log taskId runnerId requesterId) {id : String}
include h

theorem noteRunner {message : ToRunner} (own : message.task = some taskId → id = runnerId) :
    Owner tasks frames (.toRunner id message :: log) taskId runnerId requesterId where
  toRunner other message' member about := by
    rcases mem_cons.mp member with new | old
    · cases new
      exact own about
    · exact h.toRunner other message' old about
  toRequester other message' member about := by
    rcases mem_cons.mp member with new | old
    · cases new
    · exact h.toRequester other message' old about
  call := h.call
  got := h.got
  task := h.task
  reply := h.reply

theorem noteRequester {message : ToRequester} (own : message.task = some taskId → id = requesterId) :
    Owner tasks frames (.toRequester id message :: log) taskId runnerId requesterId where
  toRunner other message' member about := by
    rcases mem_cons.mp member with new | old
    · cases new
    · exact h.toRunner other message' old about
  toRequester other message' member about := by
    rcases mem_cons.mp member with new | old
    · cases new
      exact own about
    · exact h.toRequester other message' old about
  call := h.call
  got := h.got
  task := h.task
  reply := h.reply

theorem noteOther {entry : Entry} (other : ∀ id message, entry ≠ .toRunner id message)
    (other' : ∀ id message, entry ≠ .toRequester id message) :
    Owner tasks frames (entry :: log) taskId runnerId requesterId := by
  refine { h with
    toRunner := fun id message member => h.toRunner id message ?_
    toRequester := fun id message member => h.toRequester id message ?_ }
  · exact (mem_cons.mp member).resolve_left fun same => other _ _ same.symm
  · exact (mem_cons.mp member).resolve_left fun same => other' _ _ same.symm

theorem fewerTasks (fewer : ∀ key task, tasks'.get key = some task → tasks.get key = some task) :
    Owner tasks' frames log taskId runnerId requesterId :=
  { h with task := fun task found => h.task task (fewer taskId task found) }

theorem assign {key : String} (task : Task)
    (own : key = taskId → task.runnerId = runnerId ∧ task.requesterId = requesterId) :
    Owner (tasks.set key task) frames log taskId runnerId requesterId := by
  refine { h with task := fun stored found => ?_ }
  rw [OrderedMap.get_set] at found
  split at found
  · rename_i same
    cases found
    exact own same.symm
  · exact h.task stored found

theorem framed (calls : ∀ call phase, .accepting call phase ∈ frames' → ∃ before, .accepting call before ∈ frames)
    (gots : ∀ call id settings, .accepting call (.gotRunner id settings) ∈ frames' →
      call.taskId = taskId → id = runnerId)
    (replies : ∀ id message, .respond id message ∈ frames' → Frame.respond id message ∈ frames) :
    Owner tasks frames' log taskId runnerId requesterId := by
  refine { h with
    call := fun call phase member own => ?_
    got := gots
    reply := fun id message member => h.reply id message (replies id message member) }
  obtain ⟨before, there⟩ := calls call phase member
  exact h.call call before there own

theorem resumed (i : ℕ) : Owner tasks (frames.eraseIdx i) log taskId runnerId requesterId := by
  apply h.framed
  · exact fun call phase member => ⟨phase, mem_of_mem_eraseIdx member⟩
  · exact fun call id settings member => h.got call id settings (mem_of_mem_eraseIdx member)
  · exact fun id message member => mem_of_mem_eraseIdx member

theorem suspend {frame : Frame} (call : ∀ call phase, frame ≠ .accepting call phase)
    (reply : ∀ id message, frame = .respond id message → message.task = some taskId → id = runnerId) :
    Owner tasks (frames ++ [frame]) log taskId runnerId requesterId := by
  refine { h with
    call := fun call' phase member => ?_
    got := fun call' id settings member => ?_
    reply := fun id message member => ?_ }
  · exact h.call call' phase ((mem_suspend member).resolve_right fun new => call _ _ new.symm)
  · exact h.got call' id settings ((mem_suspend member).resolve_right fun new => call _ _ new.symm)
  · rcases mem_suspend member with old | new
    · exact h.reply id message old
    · exact reply id message new.symm

theorem suspendCall {call : Accept} (phase : Phase) (own : call.taskId = taskId →
      call.offer.runnerId = runnerId ∧ call.request.requesterId = requesterId)
    (got : ∀ id settings, phase = .gotRunner id settings → call.taskId = taskId → id = runnerId) :
    Owner tasks (frames ++ [.accepting call phase]) log taskId runnerId requesterId := by
  refine { h with
    call := fun call' phase' member => ?_
    got := fun call' id settings member => ?_
    reply := fun id message member => ?_ }
  · rcases mem_suspend member with old | new
    · exact h.call call' phase' old
    · cases new
      exact own
  · rcases mem_suspend member with old | new
    · exact h.got call' id settings old
    · cases new
      exact got id settings rfl
  · exact h.reply id message ((mem_suspend member).resolve_right nofun)

theorem settle (id : String) (change : Phase → Phase)
    (kept : ∀ phase id settings, change phase = .gotRunner id settings → phase = .gotRunner id settings) :
    Owner tasks (frames.map (Broker.Frame.settle id change)) log taskId runnerId requesterId := by
  apply h.framed
  · intro call phase member
    obtain ⟨before, there, _⟩ := mem_settle member
    exact ⟨before, there⟩
  · intro call other settings member
    obtain ⟨before, there, same⟩ := mem_settle member
    refine h.got call other settings ?_
    split at same
    · exact kept before other settings same.symm ▸ there
    · exact same ▸ there
  · exact fun other message member => (mem_settle_other (by simp)).mp member

end

end Owner

theorem gotRunner_settleRunner (answer : RunnerAnswer) (phase : Phase) (id settings : String)
    (same : Broker.Phase.settleRunner answer phase = .gotRunner id settings) : phase = .gotRunner id settings := by
  unfold Broker.Phase.settleRunner at same
  split at same
  · cases same
  · cases same
  · exact same

theorem gotRunner_settleRequester (answer : RequesterAnswer) (phase : Phase) (id settings : String)
    (same : Broker.Phase.settleRequester answer phase = .gotRunner id settings) : phase = .gotRunner id settings := by
  unfold Broker.Phase.settleRequester at same
  split at same
  · cases same
  · cases same
  · exact same

namespace Broker

def OwnedBy (s : Broker) (taskId runnerId requesterId : String) : Prop :=
  Owner s.tasks s.frames s.log taskId runnerId requesterId

section OwnedBy

variable {s s₀ : Broker} {taskId r q : String}

section

variable (h : s.OwnedBy taskId r q) {id : String}
include h

theorem OwnedBy.messageRunner {message : ToRunner} (own : message.task = some taskId → id = r) :
    (s.messageRunner id message).OwnedBy taskId r q := by
  unfold Broker.messageRunner
  split
  · exact h.noteRunner own
  · exact h

theorem OwnedBy.messageRequester {message : ToRequester} (own : message.task = some taskId → id = q) :
    (s.messageRequester id message).OwnedBy taskId r q := by
  unfold Broker.messageRequester
  split
  · exact h.noteRequester own
  · exact h

theorem OwnedBy.note (h₀ : s₀.OwnedBy taskId r q) {entry : Entry}
    (addressed : Addressed s₀ entry) : Owner s.tasks s.frames (entry :: s.log) taskId r q := by
  cases entry with
  | toRunner id message =>
    refine h.noteRunner fun about => ?_
    rcases addressed taskId about with ⟨task, found, rfl⟩ | held
    · exact (h₀.task task found).1
    · exact h₀.reply id message held about
  | toRequester id message =>
    refine h.noteRequester fun about => ?_
    obtain ⟨task, found, rfl⟩ := addressed taskId about
    exact (h₀.task task found).2
  | received event => exact h.noteOther (by simp) (by simp)
  | timedOutDuringTask => exact h.noteOther (by simp) (by simp)

theorem OwnedBy.answerRunner (id : String) (answer : RunnerAnswer) : (s.answerRunner id answer).OwnedBy taskId r q := by
  unfold Broker.answerRunner
  split
  · exact h.settle _ _ (gotRunner_settleRunner answer)
  · exact h

theorem OwnedBy.cancelTask (id reason : String) : (s.cancelTask id reason).OwnedBy taskId r q := by
  unfold Broker.cancelTask
  split
  · exact h
  · rename_i task found
    have fewer : { s with tasks := s.tasks.delete id }.OwnedBy taskId r q :=
      h.fewerTasks fun _ _ => s.tasks.get_delete_some
    apply fewer.messageRunner
    intro about
    cases about
    exact (h.task task found).1

theorem OwnedBy.failTask (id : String) (error : BrokerError) : (s.failTask id error).OwnedBy taskId r q := by
  unfold Broker.failTask
  split
  · exact h
  · rename_i task found
    have fewer : { s with tasks := s.tasks.delete id }.OwnedBy taskId r q :=
      h.fewerTasks fun _ _ => s.tasks.get_delete_some
    apply fewer.messageRequester
    intro about
    cases about
    exact (h.task task found).2

theorem OwnedBy.finishTask (id : String) (message : String → ToRequester) (about : ∀ id, (message id).task = some id)
    (keyed : ∀ key task, s.tasks.get key = some task → task.id = key) :
    (s.finishTask id message).OwnedBy taskId r q := by
  unfold Broker.finishTask
  split
  · exact h
  · rename_i task found
    have sent : (((s.clearTimeout task.timeout).messageRequester task.requesterId
        (message task.id))).OwnedBy taskId r q := by
      apply OwnedBy.messageRequester (s := s.clearTimeout task.timeout) h
      intro named
      rw [about, Option.some.injEq, keyed id task found] at named
      subst named
      exact (h.task task found).2
    exact Owner.suspend sent (by simp) (by simp)

theorem OwnedBy.openAccept {call : Accept}
    (own : call.taskId = taskId → call.offer.runnerId = r ∧ call.request.requesterId = q) :
    (s.openAccept call).OwnedBy taskId r q := by
  have called := h.suspendCall (.offerSent none) own (by simp)
  unfold Broker.openAccept Broker.messageRunner
  split
  · refine called.noteRunner fun about => ?_
    cases about
    exact (own rfl).1
  · exact called

end

end OwnedBy

/-- `P` holds of some runner and requester, and of any pair while the id is unused. -/
def Owned (cfg : Config) (nextTask : ℕ) (taskId : String) (P : String → String → Prop) : Prop :=
  (∃ r q, P r q) ∧ (¬ Issued cfg nextTask taskId → ∀ r q, P r q)

theorem Owned.imp {cfg : Config} {nextTask : ℕ} {taskId : String} {P Q : String → String → Prop}
    (h : Owned cfg nextTask taskId P) (implies : ∀ r q, P r q → Q r q) : Owned cfg nextTask taskId Q := by
  obtain ⟨⟨r, q, holds⟩, unused⟩ := h
  exact ⟨⟨r, q, implies r q holds⟩, fun fresh r q => implies r q (unused fresh r q)⟩

def Routed (cfg : Config) (s : Broker) : Prop :=
  ∀ taskId, Owned cfg s.nextTask taskId fun r q => Owner s.tasks s.frames s.log taskId r q

/-- Along a handler the owners stay those of the state it started in. -/
def RoutedSince (cfg : Config) (s₀ s : Broker) : Prop :=
  ∀ taskId, Owned cfg s.nextTask taskId fun r q =>
    Owner s₀.tasks s₀.frames s₀.log taskId r q ∧ Owner s.tasks s.frames s.log taskId r q

section Step

variable {cfg : Config} {s₀ s s' : Broker} {e : Event}

section

variable (hs : RoutedSince cfg s₀ s) (same : s'.nextTask = s.nextTask)
  (kept : ∀ taskId r q, s₀.OwnedBy taskId r q → s.OwnedBy taskId r q → s'.OwnedBy taskId r q)
include hs same kept

theorem RoutedSince.keep : RoutedSince cfg s₀ s' := by
  intro taskId
  rw [same]
  exact (hs taskId).imp fun r q owned => ⟨owned.1, kept taskId r q owned.1 owned.2⟩

theorem RoutedSince.last : Routed cfg s' := by
  intro taskId
  rw [same]
  exact (hs taskId).imp fun r q owned => kept taskId r q owned.1 owned.2

end

/-- A call of `acceptOffer` starts under an unused id, whose owners it settles. -/
theorem RoutedSince.openAccept (hs : RoutedSince cfg s₀ s) {call : Accept}
    (fresh : call.taskId = cfg.nanoid s.nextTask) : RoutedSince cfg s₀ (s.openAccept call) := by
  intro taskId
  by_cases same : call.taskId = taskId
  · have unused : ¬ Issued cfg s.nextTask taskId := fun issued =>
      issued.ne_fresh (same.symm.trans fresh)
    have owned := (hs taskId).2 unused call.offer.runnerId call.request.requesterId
    refine ⟨⟨_, _, owned.1, OwnedBy.openAccept owned.2 fun _ => ⟨rfl, rfl⟩⟩, fun unissued => ?_⟩
    exact absurd ⟨s.nextTask, Nat.lt_succ_self _, (same.symm.trans fresh).symm⟩ unissued
  · have kept : ∀ r q, s₀.OwnedBy taskId r q ∧ s.OwnedBy taskId r q →
        s₀.OwnedBy taskId r q ∧ (s.openAccept call).OwnedBy taskId r q :=
      fun r q owned => ⟨owned.1, owned.2.openAccept fun here => absurd here same⟩
    obtain ⟨⟨r, q, owned⟩, unused⟩ := hs taskId
    refine ⟨⟨r, q, kept r q owned⟩, fun unissued r q => kept r q (unused (fun issued => ?_) r q)⟩
    exact unissued issued.next

theorem routed_closed (coherent : s₀.Coherent) : Closed cfg s₀ e (RoutedSince cfg s₀) (Routed cfg) where
  weaken hs := hs.last rfl fun _ _ _ _ own => own
  entry entry _ addressed hs := hs.keep rfl fun _ _ _ own₀ own => own.note own₀ addressed
  drain _ _ _ _ hs := hs.keep rfl fun _ _ _ _ own => own.noteRequester nofun
  frame frame neutral addressed hs := by
    refine hs.keep rfl fun taskId r q own₀ own => own.suspend ?_ ?_
    · intro call phase same
      subst same
      cases neutral
    · intro id message same about
      subst same
      obtain ⟨task, found, rfl⟩ := addressed taskId about
      exact (own₀.task task found).1
  settleRunner id error hs := hs.keep rfl fun _ _ _ _ own =>
    own.settle id _ (gotRunner_settleRunner _)
  answerRunner id error hs := by
    refine hs.keep ?_ fun _ _ _ _ own => own.answerRunner id _
    unfold answerRunner
    split <;> rfl
  accepted runnerId id _ _ hs := by
    refine hs.last ?_ fun _ _ _ _ own => own.answerRunner id _
    unfold handleRunnerAccept answerRunner
    split <;> rfl
  rejectRequester id error hs := hs.keep rfl fun _ _ _ _ own =>
    own.settle id _ (gotRunner_settleRequester _)
  settings _ id _ _ hs := hs.keep rfl fun _ _ _ _ own =>
    own.settle id _ (gotRunner_settleRequester _)
  cancel id reason hs := by
    refine hs.keep ?_ fun _ _ _ _ own => own.cancelTask id reason
    unfold cancelTask
    split <;> rfl
  fail id error _ _ hs := by
    refine hs.keep ?_ fun _ _ _ _ own => own.failTask id error
    unfold failTask
    split <;> rfl
  finish id data error _ _ same _ _ hs := by
    have keyed := same ▸ coherent.keyed
    constructor
    · refine hs.last ?_ fun _ _ _ _ own => own.finishTask id _ (fun _ => rfl) keyed
      unfold taskDoneHandler finishTask
      split <;> rfl
    · refine hs.last ?_ fun _ _ _ _ own => own.finishTask id _ (fun _ => rfl) keyed
      unfold taskErrorHandler finishTask
      split <;> rfl
  timeoutFrame _ _ _ _ _ _ hs := hs.keep rfl fun _ _ _ _ own => own.suspend (by simp) (by simp)
  expire requestId hs := by
    unfold handleRequestTimeout
    split
    · exact hs
    · exact hs.keep rfl fun _ _ _ _ own => OwnedBy.messageRequester own nofun
  settle request offer _ _ _ _ _ hs :=
    RoutedSince.openAccept (s := Broker.claimOffer _ request) hs rfl
  resumeNeutral i _ _ _ _ hs := hs.keep rfl fun _ _ _ _ own => own.resumed i
  resumeTerminal i id _ _ hs := hs.last rfl fun _ _ _ _ own =>
    (own.resumed i).fewerTasks fun _ _ => OrderedMap.get_delete_some _
  resumeTimeout i id _ _ hs := by
    refine hs.last ?_ fun _ _ _ _ own => OwnedBy.finishTask (s := (s₀.record e).resumed i)
      (own.resumed i) id _ (fun _ => rfl) coherent.keyed
    unfold taskErrorHandler finishTask
    split <;> rfl
  advance i call phase next _ there sent hs := by
    have member := mem_of_getElem? there
    refine hs.last rfl fun _ _ _ _ own => (own.resumed i).suspendCall _ (own.call call phase member) ?_
    intro id settings same
    subst same
    cases sent
  giveUp i call error _ _ hs := by
    refine hs.last ?_ fun _ _ _ _ own => ?_
    · unfold acceptFailed
      split <;> rfl
    · have rest := own.resumed i
      unfold acceptFailed
      split
      · dsimp only [deferRequest, freeRequest, createRequestTimeout, setTimeout, clearTimeout]
        exact rest
      · exact rest
  announce i call _ there _ hs := by
    have member := mem_of_getElem? there
    refine hs.last rfl fun taskId r q _ own => ?_
    have owns := own.call call _ member
    have stored := ((own.resumed i).suspendCall (.readySent none) owns (by simp)).assign call.task owns
    unfold announceTask messageRequester
    split
    · refine stored.noteRequester fun about => ?_
      cases about
      exact (owns rfl).2
    · exact stored
  orphan i call _ there _ hs := hs.last rfl fun _ _ _ _ own =>
    (own.resumed i).assign call.task (own.call call _ (mem_of_getElem? there))
  foundRunner i call settings task runner _ there found known hs := by
    have member := mem_of_getElem? there
    refine hs.last rfl fun taskId r q _ own =>
      (own.resumed i).suspendCall _ (own.call call _ member) fun id x same here => ?_
    cases same
    subst here
    exact (coherent.runners _ _ known).trans (own.task task found).1
  lostRunner i call settings task error _ there _ _ hs := by
    have member := mem_of_getElem? there
    refine hs.last ?_ fun _ _ _ _ own => OwnedBy.failTask
      (s := ((s₀.record e).resumed i).suspend (.accepting call .runnerMissing))
      ((own.resumed i).suspendCall _ (own.call call _ member) (by simp)) _ _
    unfold failTask
    split <;> rfl
  cancelled i call phase reason _ there _ hs := by
    have member := mem_of_getElem? there
    refine hs.last ?_ fun _ _ _ _ own => OwnedBy.cancelTask
      (s := ((s₀.record e).resumed i).suspend (.accepting call .cancelSent))
      ((own.resumed i).suspendCall _ (own.call call _ member) (by simp)) _ _
    unfold cancelTask
    split <;> rfl
  started i call runnerId settings task _ there found hs := by
    have member := mem_of_getElem? there
    rw [startTask_known (s := (s₀.record e).resumed i) found]
    refine hs.last rfl fun taskId r q _ own => ?_
    have again := (own.resumed i).suspendCall .settingsSent (own.call call _ member) (by simp)
    have owns : call.taskId = taskId → task.runnerId = r ∧ task.requesterId = q := by
      intro here
      subst here
      exact own.task task found
    have stored := again.assign { task with timeout := some s₀.nextTimer } owns
    unfold messageRunner
    split
    · refine stored.noteRunner fun about => ?_
      cases about
      exact own.got call runnerId settings member rfl
    · exact stored
  ended i _ _ _ _ _ hs := hs.last rfl fun _ _ _ _ own => own.resumed i

theorem step_routed (coherent : s.Coherent) (h : s.Routed cfg) (taken : step cfg s e = some s') : s'.Routed cfg := by
  refine step_closed (routed_closed coherent) coherent (fun taskId => ?_) taken
  exact (h taskId).imp fun r q own => ⟨own, own.noteOther (by simp) (by simp)⟩

theorem routed_start (cfg : Config) : Broker.start.Routed cfg := by
  intro taskId
  have owns : ∀ r q, Broker.start.OwnedBy taskId r q := fun r q =>
    ⟨by simp [start], by simp [start], by simp [start], by simp [start], by simp [start], by simp [start]⟩
  exact ⟨⟨"", "", owns "" ""⟩, fun _ => owns⟩

theorem reachable_routed (h : (system cfg).Reachable s) : s.Coherent ∧ s.Routed cfg := by
  refine h.invariant (P := fun s => s.Coherent ∧ s.Routed cfg) ⟨(wf_start cfg).coherent, routed_start cfg⟩ ?_
  intro s e s' inv taken
  exact ⟨step_coherent inv.1 taken, step_routed inv.1 inv.2 taken⟩

end Step

end Broker

/-! ## Messages that name a task -/

def RunnerMessage.task : RunnerMessage → Option String
  | .info _ _ => none
  | .taskAccepted taskId => some taskId
  | .taskRejected taskId _ => some taskId
  | .taskDeferred taskId => some taskId
  | .taskDone taskId _ => some taskId
  | .taskError taskId _ => some taskId
  | .taskOffer _ _ _ => none
  | .taskDataRequest taskId _ _ => some taskId
  | .nodeTypesRequest taskId _ _ => some taskId
  | .rpc taskId _ _ _ => some taskId

def RequesterMessage.task : RequesterMessage → Option String
  | .taskSettings taskId _ => some taskId
  | .taskCancel taskId _ => some taskId
  | .taskRequest _ _ => none
  | .taskDataResponse taskId _ _ => some taskId
  | .nodeTypesResponse taskId _ _ => some taskId
  | .rpcResponse taskId _ _ _ => some taskId

def Entry.task : Entry → Option String
  | .toRunner _ message => message.task
  | .toRequester _ message => message.task
  | _ => none

namespace Broker

/-- Only the task is touched: the other tasks, the suspended handlers of other tasks,
the lists of runners, requesters, offers and requests stay, and what is sent is about
the task. -/
structure Confined (taskId : String) (s s' : Broker) : Prop where
  tasks : ∀ other, other ≠ taskId → s'.tasks.get other = s.tasks.get other
  frames : ∀ frame ∈ s.frames, frame.acceptId ≠ some taskId → frame ∈ s'.frames
  runners : s'.knownRunners = s.knownRunners
  requesters : s'.requesters = s.requesters
  offers : s'.pendingTaskOffers = s.pendingTaskOffers
  requests : s'.pendingTaskRequests = s.pendingTaskRequests
  sent : ∃ sent, s'.log = sent ++ s.log ∧ ∀ entry ∈ sent, entry.task = some taskId

namespace Confined

variable {s s' s'' : Broker} {taskId : String}

theorem refl (s : Broker) (taskId : String) : Confined taskId s s :=
  ⟨fun _ _ => rfl, fun _ member _ => member, rfl, rfl, rfl, rfl, [], rfl, by simp⟩

theorem trans (h : Confined taskId s s') (h' : Confined taskId s' s'') : Confined taskId s s'' := by
  obtain ⟨sent, log, about⟩ := h.sent
  obtain ⟨sent', log', about'⟩ := h'.sent
  refine ⟨fun other different => ?_, fun frame member other => ?_, h'.runners.trans h.runners,
    h'.requesters.trans h.requesters, h'.offers.trans h.offers, h'.requests.trans h.requests,
    sent' ++ sent, ?_, fun entry member => ?_⟩
  · exact (h'.tasks other different).trans (h.tasks other different)
  · exact h'.frames frame (h.frames frame member other) other
  · rw [log', log, append_assoc]
  · rcases mem_append.mp member with new | old
    · exact about' entry new
    · exact about entry old

theorem messageRunner (s : Broker) {message : ToRunner} (id : String)
    (about : message.task = some taskId) : Confined taskId s (s.messageRunner id message) := by
  unfold Broker.messageRunner
  split
  · exact ⟨fun _ _ => rfl, fun _ member _ => member, rfl, rfl, rfl, rfl,
      [.toRunner id message], rfl, by simp [Entry.task, about]⟩
  · exact refl s taskId

theorem messageRequester (s : Broker) {message : ToRequester} (id : String)
    (about : message.task = some taskId) : Confined taskId s (s.messageRequester id message) := by
  unfold Broker.messageRequester
  split
  · exact ⟨fun _ _ => rfl, fun _ member _ => member, rfl, rfl, rfl, rfl,
      [.toRequester id message], rfl, by simp [Entry.task, about]⟩
  · exact refl s taskId

theorem suspend (s : Broker) (frame : Frame) : Confined taskId s (s.suspend frame) :=
  ⟨fun _ _ => rfl, fun _ member _ => mem_append_left _ member, rfl, rfl, rfl, rfl, [], rfl, by simp⟩

theorem delete (s : Broker) : Confined taskId s { s with tasks := s.tasks.delete taskId } :=
  ⟨fun _ different => s.tasks.get_delete_ne different, fun _ member _ => member, rfl, rfl, rfl, rfl, [], rfl, by simp⟩

theorem clearTimeout (s : Broker) (handle : Option ℕ) : Confined taskId s (s.clearTimeout handle) :=
  ⟨fun _ _ => rfl, fun _ member _ => member, rfl, rfl, rfl, rfl, [], rfl, by simp⟩

theorem settle (s : Broker) (change : Phase → Phase) (acceptRejects acceptRejects' : List String) :
    Confined taskId s { s with
      frames := s.frames.map (Frame.settle taskId change)
      runnerAcceptRejects := acceptRejects
      requesterAcceptRejects := acceptRejects' } := by
  refine ⟨fun _ _ => rfl, fun frame member other => ?_, rfl, rfl, rfl, rfl, [], rfl, by simp⟩
  refine List.mem_map.mpr ⟨frame, member, ?_⟩
  cases frame with
  | accepting call phase =>
    have different : call.taskId ≠ taskId := fun same => other (congrArg some same)
    simp [Frame.settle, different]
  | _ => rfl

theorem answerRunner (s : Broker) (taskId : String) (answer : RunnerAnswer) :
    Confined taskId s (s.answerRunner taskId answer) := by
  unfold Broker.answerRunner
  split
  · exact settle s _ _ _
  · exact refl s taskId

theorem answerRequester (s : Broker) (taskId : String) (answer : RequesterAnswer) :
    Confined taskId s (s.answerRequester taskId answer) := by
  unfold Broker.answerRequester
  split
  · exact settle s _ _ _
  · exact refl s taskId

theorem cancelTask (s : Broker) (taskId reason : String) : Confined taskId s (s.cancelTask taskId reason) := by
  unfold Broker.cancelTask
  split
  · exact refl s taskId
  · exact (delete s).trans (messageRunner _ _ rfl)

theorem failTask (s : Broker) (taskId : String) (error : BrokerError) :
    Confined taskId s (s.failTask taskId error) := by
  unfold Broker.failTask
  split
  · exact refl s taskId
  · exact (delete s).trans (messageRequester _ _ rfl)

theorem finishTask (coherent : s.Coherent) (taskId : String) (message : String → ToRequester)
    (about : ∀ id, (message id).task = some id) : Confined taskId s (s.finishTask taskId message) := by
  unfold Broker.finishTask
  split
  · exact refl s taskId
  · rename_i task found
    have named : (message task.id).task = some taskId :=
      coherent.keyed taskId task found ▸ about task.id
    exact (clearTimeout s _).trans ((messageRequester _ _ named).trans (suspend _ _))

theorem forwardToRequester (s : Broker) (taskId : String) (message : ToRequester)
    (about : message.task = some taskId) : Confined taskId s (s.forwardToRequester taskId message) := by
  unfold Broker.forwardToRequester
  split
  · exact refl s taskId
  · exact (messageRequester s _ about).trans (suspend _ _)

theorem respondToRunner (s : Broker) (taskId : String) (message : ToRunner) :
    Confined taskId s (s.respondToRunner taskId message) := by
  unfold Broker.respondToRunner
  split
  · exact refl s taskId
  · split
    · exact suspend s _
    · exact (failTask s taskId _).trans (suspend _ _)

theorem onRunnerMessage (cfg : Config) (coherent : s.Coherent) (runnerId : String)
    {message : RunnerMessage} (names : message.task = some taskId) :
    Confined taskId s (onRunnerMessage cfg s runnerId message) := by
  unfold Broker.onRunnerMessage
  split
  · cases message with
    | info _ _ => cases names
    | taskOffer _ _ _ => cases names
    | taskAccepted id => cases names; exact answerRunner s taskId _
    | taskRejected id reason => cases names; exact answerRunner s taskId _
    | taskDeferred id => cases names; exact answerRunner s taskId _
    | taskDone id data => cases names; exact finishTask coherent taskId _ fun _ => rfl
    | taskError id error => cases names; exact finishTask coherent taskId _ fun _ => rfl
    | taskDataRequest id requestId params => cases names; exact forwardToRequester s taskId _ rfl
    | nodeTypesRequest id requestId params => cases names; exact forwardToRequester s taskId _ rfl
    | rpc id callId name params => cases names; exact forwardToRequester s taskId _ rfl
  · exact refl s taskId

theorem onRequesterMessage (cfg : Config) (s : Broker) (requesterId : String)
    {message : RequesterMessage} (names : message.task = some taskId) :
    Confined taskId s (onRequesterMessage cfg s requesterId message) := by
  cases message with
  | taskRequest _ _ => cases names
  | taskSettings id settings => cases names; exact answerRequester s taskId _
  | taskCancel id reason =>
    cases names
    simp only [Broker.onRequesterMessage]
    split
    · exact (cancelTask s taskId reason).trans (suspend _ _)
    · exact refl s taskId
  | taskDataResponse id requestId data => cases names; exact respondToRunner s taskId _
  | nodeTypesResponse id requestId nodeTypes => cases names; exact respondToRunner s taskId _
  | rpcResponse id callId status data => cases names; exact respondToRunner s taskId _

end Confined

variable {s : Broker} {taskId : String} {message : RequesterMessage}

/-- A runner's message about a task that the broker neither has nor waits for. -/
theorem onRunnerMessage_unknown (cfg : Config) (runnerId : String)
    {message : RunnerMessage} (names : message.task = some taskId)
    (absent : s.tasks.get taskId = none) (idle : taskId ∉ s.runnerAcceptRejects) :
    onRunnerMessage cfg s runnerId message = s := by
  unfold onRunnerMessage
  split
  · cases message <;> cases names <;>
      simp [handleRunnerAccept, handleRunnerReject, handleRunnerDeferred, answerRunner, idle,
        taskDoneHandler, taskErrorHandler, finishTask, handleDataRequest, handleNodeTypesRequest,
        handleRpcRequest, forwardToRequester, absent]
  · rfl

theorem onRequesterMessage_unknown (cfg : Config) (requesterId : String) (names : message.task = some taskId)
    (absent : s.tasks.get taskId = none) (idle : taskId ∉ s.requesterAcceptRejects) :
    onRequesterMessage cfg s requesterId message = s := by
  cases message <;> cases names <;>
    simp [onRequesterMessage, handleRequesterAccept, answerRequester, idle, OrderedMap.has, absent,
      handleRequesterDataResponse, handleRequesterNodeTypesResponse, handleRequesterRpcResponse,
      respondToRunner]

theorem onRunnerMessage_sender (cfg : Config) {r r' : String}
    {message : RunnerMessage} (names : message.task = some taskId)
    (known : s.knownRunners.has r) (known' : s.knownRunners.has r') :
    onRunnerMessage cfg s r message = onRunnerMessage cfg s r' message := by
  unfold onRunnerMessage
  rw [if_pos known, if_pos known']
  cases message <;> cases names <;> rfl

theorem onRequesterMessage_sender (cfg : Config) (s : Broker) (q q' : String) (names : message.task = some taskId) :
    onRequesterMessage cfg s q message = onRequesterMessage cfg s q' message := by
  cases message <;> cases names <;> rfl

/-- A message goes by the task it names and not by its sender. One from an unregistered
runner, or about a task that the broker neither has nor waits for, does nothing; any
other does the same whoever sent it, and touches that task alone. What the broker sends
about a task goes to the task's own runner and requester. -/
theorem messages_go_by_task (cfg : Config) {s : Broker} (reached : (system cfg).Reachable s) :
    (∀ r message, s.knownRunners.has r = false → onRunnerMessage cfg s r message = s) ∧
    (∀ r message taskId, message.task = some taskId → s.tasks.get taskId = none →
      taskId ∉ s.runnerAcceptRejects → onRunnerMessage cfg s r message = s) ∧
    (∀ q message taskId, message.task = some taskId → s.tasks.get taskId = none →
      taskId ∉ s.requesterAcceptRejects → onRequesterMessage cfg s q message = s) ∧
    (∀ r r' message taskId, message.task = some taskId → s.knownRunners.has r →
      s.knownRunners.has r' → onRunnerMessage cfg s r message = onRunnerMessage cfg s r' message) ∧
    (∀ q q' message taskId, message.task = some taskId →
      onRequesterMessage cfg s q message = onRequesterMessage cfg s q' message) ∧
    (∀ r message taskId, message.task = some taskId → Confined taskId s (onRunnerMessage cfg s r message)) ∧
    (∀ q message taskId, message.task = some taskId → Confined taskId s (onRequesterMessage cfg s q message)) ∧
    ∀ taskId, ∃ r q, Owner s.tasks s.frames s.log taskId r q := by
  obtain ⟨coherent, routed⟩ := reachable_routed reached
  refine ⟨fun r message unknown => ?_, ?_, ?_, ?_, ?_, ?_, ?_, fun taskId => (routed taskId).1⟩
  · simp [onRunnerMessage, unknown]
  · exact fun r message taskId names => onRunnerMessage_unknown cfg r names
  · exact fun q message taskId names => onRequesterMessage_unknown cfg q names
  · exact fun r r' message taskId names => onRunnerMessage_sender cfg names
  · exact fun q q' message taskId names => onRequesterMessage_sender cfg s q q' names
  · exact fun r message taskId names => Confined.onRunnerMessage cfg coherent r names
  · exact fun q message taskId names => Confined.onRequesterMessage cfg s q names

theorem messages_go_by_task_when_started : ∃ s, (system .sample).Reachable s ∧ s.tasks.has "" ∧
      onRunnerMessage .sample s "x" (.taskDone "" "data") = s := by
  have start : (system .sample).Reachable Broker.start := .initial
  obtain ⟨s, reached, found⟩ := TransitionSystem.reachableVia_runChecked (fun _ _ => true)
    (fun _ _ _ => trivial) start taskStarted
    (fun s => s.tasks.has "" && !s.knownRunners.has "x") (by decide)
  simp only [Bool.and_eq_true, Bool.not_eq_true'] at found
  exact ⟨s, reached, found.1, (messages_go_by_task .sample reached).1 "x" _ found.2⟩

/-- A runner that has nothing to do with a task says that it is done, and the requester
of the task is told so. -/
theorem foreign_message_handled : ¬ ∀ (cfg : Config) (s : Broker), (system cfg).Reachable s → ∀ r message taskId task,
      message.task = some taskId → s.tasks.get taskId = some task → task.runnerId ≠ r →
      onRunnerMessage cfg s r message = s := by
  intro ignored
  have start : (system .sample).Reachable Broker.start := .initial
  obtain ⟨s, reached, found⟩ := TransitionSystem.reachableVia_runChecked (fun _ _ => true)
    (fun _ _ _ => trivial) start (taskStarted ++ [.registerRunner ⟨"x", []⟩])
    (fun s => (s.tasks.get "").any (·.runnerId ≠ "x") &&
      (onRunnerMessage .sample s "x" (.taskDone "" "data")).log ≠ s.log) (by decide)
  simp only [Bool.and_eq_true, decide_eq_true_eq, Option.any_eq_true] at found
  obtain ⟨⟨task, stored, foreign⟩, changed⟩ := found
  exact changed (congrArg Broker.log (ignored .sample s reached "x" _ "" task rfl stored foreign))

end Broker

end N8n.TaskBroker
