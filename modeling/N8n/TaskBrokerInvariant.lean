import N8n.Suspended
import N8n.TaskBrokerMoves

/-! What every reachable state of the broker satisfies, whatever is sent to it:
`Coherent`, which the dispatch relies on, and `Tracked`, which ties the suspended calls
of `acceptOffer` to the tasks. Both are stated over the components they read, so that a
move that leaves these alone needs no proof. -/

namespace N8n.TaskBroker

open List OrderedMap

/-! ## Suspended calls of `acceptOffer` -/

def Frame.acceptId : Frame → Option String
  | .accepting accept _ => some accept.taskId
  | _ => none

def acceptIds (frames : List Frame) : List String := frames.filterMap Frame.acceptId

def Phase.early : Phase → Bool
  | .offerSent _ => true
  | .awaitingRunner _ => true
  | _ => false

@[simp] theorem early_settleRunner (answer : RunnerAnswer) (phase : Phase) :
    (Broker.Phase.settleRunner answer phase).early = phase.early := by
  unfold Broker.Phase.settleRunner
  split <;> rfl

@[simp] theorem early_settleRequester (answer : RequesterAnswer) (phase : Phase) :
    (Broker.Phase.settleRequester answer phase).early = phase.early := by
  unfold Broker.Phase.settleRequester
  split <;> rfl

variable {frames : List Frame} {accept : Accept} {phase : Phase} {change : Phase → Phase} {taskId : String}

theorem mem_acceptIds (member : .accepting accept phase ∈ frames) : accept.taskId ∈ acceptIds frames :=
  mem_filterMap.mpr ⟨_, member, rfl⟩

theorem acceptIds_settle (taskId : String) (change : Phase → Phase) (frames : List Frame) :
    acceptIds (frames.map (Broker.Frame.settle taskId change)) = acceptIds frames := by
  rw [acceptIds, filterMap_map]
  congr 1
  funext frame
  cases frame with
  | accepting accept phase =>
    simp only [Function.comp_apply, Broker.Frame.settle]
    split <;> rfl
  | _ => rfl

theorem mem_settle (member : .accepting accept phase ∈ frames.map (Broker.Frame.settle taskId change)) :
    ∃ before, .accepting accept before ∈ frames ∧ phase = if accept.taskId = taskId then change before else before := by
  obtain ⟨frame, there, same⟩ := List.mem_map.mp member
  cases frame with
  | accepting other before =>
    simp only [Broker.Frame.settle] at same
    split at same
    · cases same
      exact ⟨before, there, by simp_all⟩
    · cases same
      exact ⟨phase, there, by simp_all⟩
  | _ => cases same

theorem mem_settle_other {frame : Frame} (other : ∀ accept phase, frame ≠ .accepting accept phase) :
    frame ∈ frames.map (Broker.Frame.settle taskId change) ↔ frame ∈ frames := by
  constructor
  · intro member
    obtain ⟨before, there, same⟩ := List.mem_map.mp member
    cases before with
    | accepting accept phase =>
      simp only [Broker.Frame.settle] at same
      split at same <;> exact absurd same.symm (other _ _)
    | _ => exact same ▸ there
  · intro member
    refine List.mem_map.mpr ⟨frame, member, ?_⟩
    cases frame with
    | accepting accept phase => exact absurd rfl (other _ _)
    | _ => rfl

theorem acceptIds_perm {i : ℕ} (there : frames[i]? = some (.accepting accept phase)) :
    (accept.taskId :: acceptIds (frames.eraseIdx i)).Perm (acceptIds frames) :=
  (perm_resumed there).filterMap Frame.acceptId

theorem acceptIds_append (frames : List Frame) (frame : Frame) :
    acceptIds (frames ++ [frame]) = acceptIds frames ++ frame.acceptId.toList := by
  simp only [acceptIds, filterMap_append]
  cases same : frame.acceptId <;> simp [same]

namespace Broker

/-! ## Coherent -/

section Coherent

variable {runners : OrderedMap String TaskRunner} {tasks tasks' : OrderedMap String Task}
  {refs refs' : List ℕ} {nextRef : ℕ} {frames frames' : List Frame}

section

variable (h : Coherence runners tasks refs nextRef frames)
include h

theorem Coherence.mono (fewerTasks : ∀ key task, tasks'.get key = some task → tasks.get key = some task)
    (fewerRefs : refs'.Sublist refs)
    (fewerFrames : ∀ runnerId message, Frame.respond runnerId message ∈ frames' →
      Frame.respond runnerId message ∈ frames) :
    Coherence runners tasks' refs' nextRef frames' where
  keyed key task found := h.keyed key task (fewerTasks key task found)
  runners := h.runners
  apart := h.apart.sublist fewerRefs
  fresh ref member := h.fresh ref (fewerRefs.subset member)
  replies runnerId message member := h.replies runnerId message (fewerFrames _ _ member)

theorem Coherence.framed (fewer : ∀ runnerId message, Frame.respond runnerId message ∈ frames' →
      Frame.respond runnerId message ∈ frames) : Coherence runners tasks refs nextRef frames' :=
  h.mono (fun _ _ found => found) (Sublist.refl _) fewer

theorem Coherence.suspend (frame : Frame) (other : ∀ runnerId message, frame ≠ .respond runnerId message) :
    Coherence runners tasks refs nextRef (frames ++ [frame]) := by
  apply h.framed
  intro runnerId message member
  rcases mem_suspend member with old | new
  · exact old
  · exact absurd new.symm (other _ _)

theorem Coherence.settle (taskId : String) (change : Phase → Phase) :
    Coherence runners tasks refs nextRef (frames.map (Frame.settle taskId change)) :=
  h.framed fun _ _ => (mem_settle_other (by simp)).mp

theorem Coherence.resumed (i : ℕ) : Coherence runners tasks refs nextRef (frames.eraseIdx i) :=
  h.framed fun _ _ => mem_of_mem_eraseIdx

theorem Coherence.assign {key : String} (task : Task) (same : task.id = key) :
    Coherence runners (tasks.set key task) refs nextRef frames := by
  refine { h with keyed := fun other stored found => ?_ }
  rw [get_set] at found
  split at found
  · rename_i here
    cases found
    exact same.trans here.symm
  · exact h.keyed other stored found

theorem Coherence.raise : Coherence runners tasks refs (nextRef + 1) frames :=
  { h with fresh := fun ref member => Nat.lt_succ_of_lt (h.fresh ref member) }

end

end Coherent

theorem setAcceptInProgress_refs (requests : List TaskRequest) (ref : ℕ) (value : Bool) :
    (setAcceptInProgress requests ref value).map (·.ref) = requests.map (·.ref) := by
  simp only [setAcceptInProgress, List.map_map]
  congr 1
  funext request
  simp only [Function.comp_apply]
  split <;> rfl

theorem setRequestTimeout_refs (requests : List TaskRequest) (ref timeout : ℕ) :
    (setRequestTimeout requests ref timeout).map (·.ref) = requests.map (·.ref) := by
  simp only [setRequestTimeout, List.map_map]
  congr 1
  funext request
  simp only [Function.comp_apply]
  split <;> rfl

theorem acceptFailed_elim {P : Broker → Prop} {s : Broker} {accept : Accept} {error : BrokerError}
    (deferred : P ((s.freeRequest accept).deferRequest accept)) (freed : P (s.freeRequest accept)) :
    P (s.acceptFailed accept error) := by
  unfold acceptFailed
  split
  · exact deferred
  · exact freed

theorem acceptFailed_refs (s : Broker) (accept : Accept) (error : BrokerError) :
    (s.acceptFailed accept error).pendingTaskRequests.map (·.ref) = s.pendingTaskRequests.map (·.ref) := by
  unfold acceptFailed
  split
  · exact (setRequestTimeout_refs _ _ _).trans (setAcceptInProgress_refs _ _ _)
  · exact setAcceptInProgress_refs _ _ _

variable {s : Broker}

theorem Coherent.cancelTask (h : s.Coherent) (taskId reason : String) : (s.cancelTask taskId reason).Coherent := by
  unfold Broker.cancelTask
  split
  · exact h
  · exact h.mono (fun _ _ => get_delete_some _) (.refl _) (fun _ _ member => member)

theorem Coherent.failTask (h : s.Coherent) (taskId : String) (error : BrokerError) :
    (s.failTask taskId error).Coherent := by
  unfold Broker.failTask
  split
  · exact h
  · exact h.mono (fun _ _ => get_delete_some _) (.refl _) (fun _ _ member => member)

theorem Coherent.finishTask (h : s.Coherent) (taskId : String)
    (message : String → BrokerMessage.ToRequester) : (s.finishTask taskId message).Coherent := by
  unfold Broker.finishTask
  split
  · exact h
  · exact h.suspend _ (by simp)

theorem Coherent.answerRunner (h : s.Coherent) (taskId : String)
    (answer : RunnerAnswer) : (s.answerRunner taskId answer).Coherent := by
  unfold Broker.answerRunner
  split
  · exact h.settle _ _
  · exact h

theorem coherent_closed (cfg : Config) (s₀ : Broker) (e : Event) : Closed cfg s₀ e Coherent Coherent where
  setRunner runner hs := by
    refine { hs with runners := fun key other found => ?_ }
    rw [get_set] at found
    split at found
    · cases found
      rename_i same
      exact same.symm
    · exact hs.runners key other found
  deleteRunner runnerId error _ hs :=
    { hs with runners := fun key other found => hs.runners key other (get_delete_some _ found) }
  frame frame neutral _ hs := by
    refine { hs with replies := fun runnerId message member => ?_ }
    rcases mem_suspend member with old | new
    · exact hs.replies runnerId message old
    · subst new
      exact neutral
  settleRunner taskId error hs := hs.settle _ _
  answerRunner taskId error hs := hs.answerRunner taskId _
  accepted runnerId taskId _ _ hs := hs.answerRunner taskId _
  rejectRequester taskId error hs := hs.settle _ _
  settings _ taskId _ _ hs := hs.settle _ _
  cancel taskId reason hs := hs.cancelTask taskId reason
  fail taskId error _ _ hs := hs.failTask taskId error
  finish taskId data error _ _ _ _ _ hs := ⟨hs.finishTask taskId _, hs.finishTask taskId _⟩
  timeoutFrame _ _ _ _ _ _ hs := hs.suspend _ (by simp)
  addRequest _ _ _ _ _ hs := by
    unfold Coherent
    rw [map_append]
    exact hs.add
  drain _ _ _ _ hs := hs.raise
  skipRef hs := hs.raise
  expire requestId hs := by
    unfold handleRequestTimeout
    split
    · exact hs
    · exact hs.mono (fun _ _ found => found) (eraseP_sublist.map _) (fun _ _ member => member)
  settle request offer _ _ _ _ _ hs := by
    refine Coherence.suspend ?_ _ (by simp)
    show Coherence _ _ (List.map _ (setAcceptInProgress _ _ _)) _ _
    rw [setAcceptInProgress_refs]
    exact hs
  resumeNeutral i _ _ _ _ hs := hs.resumed i
  resumeTerminal i taskId _ _ hs :=
    (hs.resumed i).mono (fun _ _ => get_delete_some _) (.refl _) (fun _ _ member => member)
  resumeTimeout i taskId _ _ hs :=
    Coherent.finishTask (s := (s₀.record e).resumed i) (hs.resumed i) taskId _
  advance i accept _ phase' _ _ _ hs := (hs.resumed i).suspend _ (by simp)
  giveUp i accept error _ _ hs := by
    unfold Coherent
    rw [acceptFailed_refs]
    unfold acceptFailed
    split
    · dsimp only [deferRequest, freeRequest, createRequestTimeout, setTimeout, clearTimeout]
      exact hs.resumed i
    · exact hs.resumed i
  announce i accept _ _ _ hs := by
    dsimp only [announceTask, storeTask, Coherent, suspend, messageRequester, setTimeout, clearTimeout]
    exact (((hs.resumed i).assign accept.task rfl).mono (fun _ _ found => found) (eraseP_sublist.map _)
        (fun _ _ member => member)).suspend _ (by simp)
  orphan i accept _ _ _ hs := (hs.resumed i).assign accept.task rfl
  foundRunner i accept settings task runner _ _ _ _ hs := (hs.resumed i).suspend _ (by simp)
  lostRunner i accept settings task error _ _ _ _ hs :=
    Coherent.failTask (s := ((s₀.record e).resumed i).suspend (.accepting accept .runnerMissing))
      ((hs.resumed i).suspend _ (by simp)) _ _
  cancelled i accept _ reason _ _ _ hs :=
    Coherent.cancelTask (s := ((s₀.record e).resumed i).suspend (.accepting accept .cancelSent))
      ((hs.resumed i).suspend _ (by simp)) _ _
  started i accept runnerId settings task _ _ found hs := by
    rw [startTask_known (s := (s₀.record e).resumed i) found]
    have key : task.id = accept.taskId := hs.keyed _ _ found
    exact ((hs.resumed i).assign { task with timeout := some s₀.nextTimer } key).suspend
      (.accepting accept .settingsSent) (by simp)
  ended i accept phase _ _ _ hs := hs.resumed i

variable {cfg : Config} {s' : Broker} {e : Event} {nextTask : ℕ} {taskId : String}

theorem step_coherent (h : s.Coherent) (taken : step cfg s e = some s') : s'.Coherent :=
  step_closed (coherent_closed cfg s e) h h taken

/-! ## Tracked -/

def Issued (cfg : Config) (nextTask : ℕ) (taskId : String) : Prop :=
  ∃ k < nextTask, cfg.nanoid k = taskId

theorem Issued.next (h : Issued cfg nextTask taskId) : Issued cfg (nextTask + 1) taskId := by
  obtain ⟨k, bound, same⟩ := h
  exact ⟨k, Nat.lt_succ_of_lt bound, same⟩

theorem Issued.ne_fresh (h : Issued cfg nextTask taskId) : taskId ≠ cfg.nanoid nextTask := by
  obtain ⟨k, bound, same⟩ := h
  intro fresh
  have equal := cfg.nanoid_injective (same.trans fresh)
  omega

/-- Task ids are generated ones, a task id belongs to one call of `acceptOffer`, and a
task is stored only after its runner took it. -/
structure Tracking (cfg : Config) (tasks : OrderedMap String Task) (frames : List Frame) (nextTask : ℕ) : Prop where
  task : ∀ taskId task, tasks.get taskId = some task → Issued cfg nextTask taskId
  accept : ∀ taskId ∈ acceptIds frames, Issued cfg nextTask taskId
  single : (acceptIds frames).Nodup
  early : ∀ accept phase, .accepting accept phase ∈ frames → phase.early → tasks.get accept.taskId = none

def Tracked (cfg : Config) (s : Broker) : Prop := Tracking cfg s.tasks s.frames s.nextTask

section Tracked

variable {cfg : Config} {tasks tasks' : OrderedMap String Task} {frames : List Frame}
  {nextTask i : ℕ} {call : Accept} {phase phase' : Phase}

section

variable (h : Tracking cfg tasks frames nextTask)
include h

theorem Tracking.fewerTasks (fewer : ∀ key task, tasks'.get key = some task → tasks.get key = some task) :
    Tracking cfg tasks' frames nextTask where
  task taskId task found := h.task taskId task (fewer taskId task found)
  accept := h.accept
  single := h.single
  early call phase member early := by
    have missing := h.early call phase member early
    cases found : tasks'.get call.taskId with
    | none => rfl
    | some task => exact absurd (fewer _ _ found) (by simp [missing])

theorem Tracking.suspend (frame : Frame) (other : ∀ call phase, frame ≠ .accepting call phase) :
    Tracking cfg tasks (frames ++ [frame]) nextTask := by
  have same : acceptIds (frames ++ [frame]) = acceptIds frames := by
    rw [acceptIds_append]
    cases frame with
    | accepting call phase => exact absurd rfl (other _ _)
    | _ => simp [Frame.acceptId]
  refine ⟨h.task, same ▸ h.accept, same ▸ h.single, fun call phase member early => ?_⟩
  rcases mem_suspend member with old | new
  · exact h.early call phase old early
  · exact absurd new.symm (other _ _)

theorem Tracking.settle (taskId : String)
    (change : Phase → Phase) (kept : ∀ phase, (change phase).early = phase.early) :
    Tracking cfg tasks (frames.map (Frame.settle taskId change)) nextTask := by
  have same := acceptIds_settle taskId change frames
  refine ⟨h.task, same ▸ h.accept, same ▸ h.single, fun call phase member early => ?_⟩
  obtain ⟨before, there, rfl⟩ := mem_settle member
  refine h.early call before there ?_
  split at early
  · exact kept before ▸ early
  · exact early

theorem Tracking.resumed (i : ℕ) : Tracking cfg tasks (frames.eraseIdx i) nextTask := by
  have fewer : (acceptIds (frames.eraseIdx i)).Sublist (acceptIds frames) :=
    Sublist.filterMap _ (eraseIdx_sublist _ _)
  exact ⟨h.task, fun taskId member => h.accept taskId (fewer.subset member),
    h.single.sublist fewer, fun call phase member => h.early call phase (mem_of_mem_eraseIdx member)⟩

end

section

variable (h : Tracking cfg tasks frames nextTask) (there : frames[i]? = some (.accepting call phase))
include h there

theorem Tracking.alone : call.taskId ∉ acceptIds (frames.eraseIdx i) :=
  (nodup_cons.mp ((acceptIds_perm there).nodup_iff.mpr h.single)).1

theorem Tracking.only {other : Accept} (member : .accepting other phase' ∈ frames) (same : other.taskId = call.taskId) :
    other = call ∧ phase' = phase := by
  rcases mem_cons.mp ((perm_resumed there).mem_iff.mpr member) with here | rest
  · cases here
    exact ⟨rfl, rfl⟩
  · exact absurd (same ▸ mem_acceptIds rest) (h.alone there)

theorem Tracking.issued : Issued cfg nextTask call.taskId :=
  h.accept _ (mem_acceptIds (mem_of_getElem? there))

theorem Tracking.again (phase' : Phase) (kept : phase'.early → phase.early) :
    Tracking cfg tasks (frames.eraseIdx i ++ [.accepting call phase']) nextTask := by
  have rest := h.resumed i
  have ids : acceptIds (frames.eraseIdx i ++ [.accepting call phase']) =
      acceptIds (frames.eraseIdx i) ++ [call.taskId] := acceptIds_append _ _
  refine ⟨h.task, fun taskId member => ?_, ?_, fun other phase member early => ?_⟩
  · rcases mem_append.mp (ids ▸ member) with old | new
    · exact rest.accept taskId old
    · exact mem_singleton.mp new ▸ h.issued there
  · rw [ids]
    exact Nodup.append rest.single (nodup_singleton _) (disjoint_singleton.mpr (h.alone there))
  · rcases mem_suspend member with old | new
    · exact rest.early other phase old early
    · cases new
      exact h.early call _ (mem_of_getElem? there) (kept early)

theorem Tracking.assign (task : Task) : Tracking cfg (tasks.set call.taskId task) (frames.eraseIdx i) nextTask := by
  have rest := h.resumed i
  refine ⟨fun taskId stored found => ?_, rest.accept, rest.single, fun other phase member early => ?_⟩
  · rw [get_set] at found
    split at found
    · rename_i same
      exact same ▸ h.issued there
    · exact h.task taskId stored found
  · have different : other.taskId ≠ call.taskId := fun same =>
      h.alone there (same ▸ mem_acceptIds member)
    rw [get_set_ne _ _ different]
    exact rest.early other phase member early

theorem Tracking.assigned (task : Task) (late : phase'.early = false) :
    Tracking cfg (tasks.set call.taskId task) (frames.eraseIdx i ++ [.accepting call phase'])
      nextTask := by
  have stored := h.assign there task
  have again := h.again there phase' (by simp [late])
  refine ⟨stored.task, again.accept, again.single, fun other phase member early => ?_⟩
  rcases mem_suspend member with old | new
  · exact stored.early other phase old early
  · cases new
    simp [late] at early

end

theorem Tracking.accepting (h : Tracking cfg tasks frames nextTask) (fresh : call.taskId = cfg.nanoid nextTask) :
    Tracking cfg tasks (frames ++ [.accepting call phase]) (nextTask + 1) := by
  have ids : acceptIds (frames ++ [.accepting call phase]) = acceptIds frames ++ [call.taskId] :=
    acceptIds_append _ _
  refine ⟨fun taskId task found => (h.task taskId task found).next, fun taskId member => ?_, ?_,
    fun other phase member early => ?_⟩
  · rcases mem_append.mp (ids ▸ member) with old | new
    · exact (h.accept taskId old).next
    · exact ⟨nextTask, Nat.lt_succ_self _, (mem_singleton.mp new).trans fresh ▸ rfl⟩
  · rw [ids]
    refine Nodup.append h.single (nodup_singleton _) (disjoint_singleton.mpr ?_)
    exact fun old => (h.accept _ old).ne_fresh fresh
  · rcases mem_suspend member with old | new
    · exact h.early other phase old early
    · cases new
      cases found : tasks.get call.taskId with
      | none => rfl
      | some task => exact absurd fresh (h.task _ _ found).ne_fresh

end Tracked

theorem Tracked.cancelTask (h : s.Tracked cfg) (taskId reason : String) : (s.cancelTask taskId reason).Tracked cfg := by
  unfold Broker.cancelTask
  split
  · exact h
  · exact h.fewerTasks fun _ _ => get_delete_some _

theorem Tracked.failTask (h : s.Tracked cfg) (taskId : String)
    (error : BrokerError) : (s.failTask taskId error).Tracked cfg := by
  unfold Broker.failTask
  split
  · exact h
  · exact h.fewerTasks fun _ _ => get_delete_some _

theorem Tracked.finishTask (h : s.Tracked cfg) (taskId : String)
    (message : String → BrokerMessage.ToRequester) : (s.finishTask taskId message).Tracked cfg := by
  unfold Broker.finishTask
  split
  · exact h
  · exact h.suspend _ (by simp)

theorem Tracked.answerRunner (h : s.Tracked cfg) (taskId : String)
    (answer : RunnerAnswer) : (s.answerRunner taskId answer).Tracked cfg := by
  unfold Broker.answerRunner
  split
  · exact h.settle _ _ (early_settleRunner answer)
  · exact h

theorem tracked_closed (cfg : Config) (s₀ : Broker) (e : Event) : Closed cfg s₀ e (Tracked cfg) (Tracked cfg) where
  frame frame neutral _ hs := by
    apply hs.suspend frame
    intro call phase same
    subst same
    cases neutral
  settleRunner taskId error hs := hs.settle _ _ (early_settleRunner _)
  answerRunner taskId error hs := hs.answerRunner taskId _
  accepted runnerId taskId _ _ hs := hs.answerRunner taskId _
  rejectRequester taskId error hs := hs.settle _ _ (early_settleRequester _)
  settings _ taskId _ _ hs := hs.settle _ _ (early_settleRequester _)
  cancel taskId reason hs := hs.cancelTask taskId reason
  fail taskId error _ _ hs := hs.failTask taskId error
  finish taskId data error _ _ _ _ _ hs := ⟨hs.finishTask taskId _, hs.finishTask taskId _⟩
  timeoutFrame _ _ _ _ _ _ hs := hs.suspend _ (by simp)
  expire requestId hs := by
    unfold handleRequestTimeout
    split <;> exact hs
  settle request offer _ _ _ _ _ hs := hs.accepting rfl
  resumeNeutral i _ _ _ _ hs := hs.resumed i
  resumeTerminal i taskId _ _ hs := (hs.resumed i).fewerTasks fun _ _ => get_delete_some _
  resumeTimeout i taskId _ _ hs :=
    Tracked.finishTask (s := (s₀.record e).resumed i) (hs.resumed i) taskId _
  advance i accept _ phase' _ there sent hs := by
    cases sent with
    | offer answer => exact hs.again there _ (fun _ => rfl)
    | ready answer => exact hs.again there _ (fun early => early)
  giveUp i accept error _ _ hs := acceptFailed_elim (hs.resumed i) (hs.resumed i)
  announce i accept _ there _ hs := by
    dsimp only [announceTask, storeTask, Tracked, suspend, messageRequester, setTimeout, clearTimeout]
    exact hs.assigned there accept.task rfl
  orphan i accept _ there _ hs := hs.assign there accept.task
  foundRunner i accept settings task runner _ there _ _ hs :=
    hs.again there _ (fun early => early)
  lostRunner i accept settings task error _ there _ _ hs :=
    Tracked.failTask (s := ((s₀.record e).resumed i).suspend (.accepting accept .runnerMissing))
      (hs.again there _ (fun early => nomatch early)) _ _
  cancelled i accept _ reason _ there _ hs :=
    Tracked.cancelTask (s := ((s₀.record e).resumed i).suspend (.accepting accept .cancelSent))
      (hs.again there _ (fun early => nomatch early)) _ _
  started i accept runnerId settings task _ there found hs := by
    rw [startTask_known (s := (s₀.record e).resumed i) found]
    exact hs.assigned there _ rfl
  ended i accept phase _ _ _ hs := hs.resumed i

theorem step_tracked (coherent : s.Coherent) (h : s.Tracked cfg) (taken : step cfg s e = some s') : s'.Tracked cfg :=
  step_closed (tracked_closed cfg s e) coherent h taken

/-- Both, for the invariants that build on them. -/
structure Wf (cfg : Config) (s : Broker) : Prop where
  coherent : s.Coherent
  tracked : s.Tracked cfg

theorem wf_start (cfg : Config) : Broker.start.Wf cfg where
  coherent := ⟨by simp [start], by simp [start], by simp [start], by simp [start], by simp [start]⟩
  tracked := ⟨by simp [start], by simp [start, acceptIds], by simp [start, acceptIds], by simp [start]⟩

theorem step_wf (h : s.Wf cfg) (taken : step cfg s e = some s') : s'.Wf cfg :=
  ⟨step_coherent h.coherent taken, step_tracked h.coherent h.tracked taken⟩

end Broker

/-! ## A run

One task from the request to its settings, on which the results about runs are tried. -/

/-- Task ids are strings of as many strokes as ids were generated before. -/
def Config.sample : Config where
  mode := .external
  taskTimeout := 60
  taskTimeout_pos := by decide
  isSelfHosted := true
  nanoid n := String.ofList (List.replicate n '|')
  nanoid_injective := fun m n same => by
    simpa using congrArg String.length same

/-- A runner `r` takes the request of `q` and gets its settings. -/
def taskStarted : List Event :=
  [.registerRunner ⟨"r", ["javascript"]⟩, .registerRequester "q",
    .requesterMessage "q" (.taskRequest "request" "javascript"),
    .runnerMessage "r" (.taskOffer "offer" "javascript" (-1)),
    .resume 0, .runnerMessage "r" (.taskAccepted ""), .resume 0, .resume 0,
    .requesterMessage "q" (.taskSettings "" "settings"), .resume 0, .resume 0, .resume 0]

end N8n.TaskBroker
