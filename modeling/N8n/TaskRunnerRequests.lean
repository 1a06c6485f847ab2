import N8n.TaskRunnerSlots

/-! What a task of the runner waits for: its requests for data and for node types and
its calls of the server. Each kind has a table of its own, and the promise behind an
entry keeps the first outcome it is given. What is sent and what is answered is left out.
Cancelling rejects the requests of the task and no call. The record of a call does not
name its task, so a call waits on until it is answered. -/

namespace N8n.TaskRunner

open List Option

inductive RequestKind where
  | data
  | nodeTypes
  | rpc
  deriving DecidableEq

def RequestKind.cancellable : RequestKind → Bool
  | .data | .nodeTypes => true
  | .rpc => false

structure TaskRequest where
  requestId : String
  taskId : String
  deriving DecidableEq

/-- The record in the source has no `caller`, which is the task that `makeRpcCall` was
called for. The code never reads it. -/
structure RPCCall where
  callId : String
  caller : String
  deriving DecidableEq

inductive Outcome (Data : Type*) where
  | resolved (data : Data)
  | failed (data : Data)
  | taskCancelled (reason : String)
  deriving DecidableEq

/-- `settlements` are the calls of `resolve` and `reject`, in order. -/
structure RequestingRunner (Data : Type*) where
  runner : TaskRunner Data
  dataRequests : OrderedMap String TaskRequest := .empty
  nodeTypesRequests : OrderedMap String TaskRequest := .empty
  rpcCalls : OrderedMap String RPCCall := .empty
  settlements : List ((RequestKind × String) × Outcome Data) := []
  deriving DecidableEq

namespace RequestingRunner

variable {Data : Type*} (s : RequestingRunner Data)

def outcome (kind : RequestKind) (id : String) : Option (Outcome Data) :=
  (s.settlements.find? (·.1 = (kind, id))).map Prod.snd

/-- The task that an entry of a table belongs to. -/
def owner : RequestKind → String → Option String
  | .data, id => (s.dataRequests.get id).map TaskRequest.taskId
  | .nodeTypes, id => (s.nodeTypesRequests.get id).map TaskRequest.taskId
  | .rpc, id => (s.rpcCalls.get id).map RPCCall.caller

def Pending (kind : RequestKind) (id taskId : String) : Prop :=
  s.owner kind id = some taskId ∧ s.outcome kind id = none

/-! ## Cancelling -/

/-- One pass of a loop of `cancelTaskRequests`, with the ids it has rejected. -/
def cancelRequest (taskId : String) (state : List String × OrderedMap String TaskRequest)
    (entry : String × TaskRequest) : List String × OrderedMap String TaskRequest :=
  if entry.2.taskId = taskId then (state.1 ++ [entry.1], state.2.delete entry.1) else state

def cancelRequests (taskId : String) (requests : OrderedMap String TaskRequest) :
    List String × OrderedMap String TaskRequest :=
  requests.entries.foldl (cancelRequest taskId) ([], requests)

def cancelTaskRequests (taskId reason : String) : RequestingRunner Data :=
  let data := cancelRequests taskId s.dataRequests
  let nodeTypes := cancelRequests taskId s.nodeTypesRequests
  { s with
    dataRequests := data.2
    nodeTypesRequests := nodeTypes.2
    settlements := s.settlements ++ (data.1.map fun id => ((.data, id), .taskCancelled reason)) ++
      nodeTypes.1.map fun id => ((.nodeTypes, id), .taskCancelled reason) }

def statusOf (taskId : String) : Option TaskStatus :=
  (s.runner.runningTask taskId).map fun task => task.2.status

def taskCancelled (cfg : Config) (now : ℕ) (taskId reason : String) : RequestingRunner Data :=
  let handled := { s with runner := s.runner.taskCancelled cfg now taskId }
  if s.statusOf taskId = some .running then handled.cancelTaskRequests taskId reason else handled

def taskTimedOut (cfg : Config) (now : ℕ) (taskId : String) : RequestingRunner Data :=
  let handled := { s with runner := s.runner.taskTimedOut cfg now taskId }
  if s.statusOf taskId = some .running then handled.cancelTaskRequests taskId "timeout" else handled

/-- How the runner is told to abort a task. -/
inductive Abort where
  | cancelled (reason : String)
  | timedOut

def abort (cfg : Config) (now : ℕ) (taskId : String) : Abort → RequestingRunner Data
  | .cancelled reason => s.taskCancelled cfg now taskId reason
  | .timedOut => s.taskTimedOut cfg now taskId

def Abort.reason : Abort → String
  | .cancelled reason => reason
  | .timedOut => "timeout"

/-! ## What cancelling does to a table -/

def idsOf (taskId : String) (entries : List (String × TaskRequest)) : List String :=
  (entries.filter fun entry => entry.2.taskId = taskId).map Prod.fst

theorem foldl_cancelRequest (taskId : String) (entries : List (String × TaskRequest))
    (state : List String × OrderedMap String TaskRequest) :
    entries.foldl (cancelRequest taskId) state =
      (state.1 ++ idsOf taskId entries, state.2.deleteMany (idsOf taskId entries)) := by
  induction entries generalizing state with
  | nil => simp [idsOf, OrderedMap.deleteMany]
  | cons entry rest ih =>
    rw [foldl_cons, ih]
    by_cases own : entry.2.taskId = taskId
    · simp [cancelRequest, idsOf, own, OrderedMap.deleteMany]
    · simp [cancelRequest, idsOf, own]

section

variable (taskId : String) (requests : OrderedMap String TaskRequest) (id : String)
include taskId requests id

theorem mem_idsOf : id ∈ idsOf taskId requests.entries ↔ (requests.get id).map TaskRequest.taskId = some taskId := by
  simp only [idsOf, List.mem_map, mem_filter, decide_eq_true_eq, Prod.exists, exists_and_right,
    exists_eq_right, map_eq_some_iff, OrderedMap.mem_entries_iff]

theorem cancelRequests_rejects :
    id ∈ (cancelRequests taskId requests).1 ↔ (requests.get id).map TaskRequest.taskId = some taskId := by
  rw [cancelRequests, foldl_cancelRequest, nil_append, mem_idsOf]

theorem get_cancelRequests : (cancelRequests taskId requests).2.get id =
      if (requests.get id).map TaskRequest.taskId = some taskId then none else requests.get id := by
  rw [cancelRequests, foldl_cancelRequest, OrderedMap.get_deleteMany]
  exact if_congr (mem_idsOf taskId requests id) rfl rfl

end

theorem owner_cancelTaskRequests (taskId reason : String) (kind : RequestKind) (id : String) :
    (s.cancelTaskRequests taskId reason).owner kind id =
      if kind.cancellable ∧ s.owner kind id = some taskId then none else s.owner kind id := by
  cases kind with
  | data | nodeTypes =>
    simp only [owner, cancelTaskRequests, get_cancelRequests, RequestKind.cancellable, true_and]
    split <;> simp_all
  | rpc => simp [owner, cancelTaskRequests, RequestKind.cancellable]

theorem find_rejected (kind other : RequestKind) (ids : List String) (id reason : String) :
    ((ids.map fun id => ((other, id), (Outcome.taskCancelled reason : Outcome Data))).find?
        (·.1 = (kind, id))).map Prod.snd =
      if kind = other ∧ id ∈ ids then some (.taskCancelled reason) else none := by
  induction ids with
  | nil => simp
  | cons first rest ih =>
    by_cases same : kind = other ∧ id = first
    · obtain ⟨rfl, rfl⟩ := same
      simp
    · have skipped : ¬ (other = kind ∧ first = id) := fun both => same ⟨both.1.symm, both.2.symm⟩
      rw [map_cons, find?_cons_of_neg (by simpa using skipped), ih]
      refine if_congr ?_ rfl rfl
      simp only [mem_cons]
      tauto

theorem outcome_cancelTaskRequests (taskId reason : String) (kind : RequestKind) (id : String) :
    (s.cancelTaskRequests taskId reason).outcome kind id = (s.outcome kind id).or
      (if kind.cancellable ∧ s.owner kind id = some taskId then some (.taskCancelled reason)
        else none) := by
  simp only [outcome, cancelTaskRequests, find?_append, map_or, find_rejected, cancelRequests_rejects]
  cases kind <;> simp [RequestKind.cancellable, owner]

/-! ## What an abort releases -/

theorem abort_eq (cfg : Config) (now : ℕ) (taskId : String) (how : Abort) :
    ∃ runner, s.abort cfg now taskId how = if s.statusOf taskId = some .running then
      { s with runner }.cancelTaskRequests taskId how.reason else { s with runner } := by
  cases how with
  | cancelled reason => exact ⟨_, rfl⟩
  | timedOut => exact ⟨_, rfl⟩

/-- What the task waited for has been rejected and removed, and nothing of any other
task has changed. -/
structure Releases (before after : RequestingRunner Data) (taskId : String) : Prop where
  released : ∀ kind id, before.Pending kind id taskId →
    (∃ reason, after.outcome kind id = some (.taskCancelled reason)) ∧ after.owner kind id = none
  untouched : ∀ kind id other, other ≠ taskId → before.owner kind id = some other →
    after.owner kind id = some other ∧ after.outcome kind id = before.outcome kind id

def Reaches (kind : RequestKind) (taskId : String) : Prop :=
  kind.cancellable = true ∧ s.statusOf taskId = some .running

instance (kind : RequestKind) (taskId : String) : Decidable (s.Reaches kind taskId) :=
  inferInstanceAs (Decidable (_ ∧ _))

theorem abort_spec (cfg : Config) (now : ℕ) (taskId : String) (how : Abort) (kind : RequestKind) (id : String) :
    (s.abort cfg now taskId how).owner kind id = (if s.Reaches kind taskId ∧ s.owner kind id = some taskId then none
          else s.owner kind id) ∧
      (s.abort cfg now taskId how).outcome kind id = (s.outcome kind id).or
        (if s.Reaches kind taskId ∧ s.owner kind id = some taskId then
          some (.taskCancelled how.reason) else none) := by
  obtain ⟨runner, aborted⟩ := s.abort_eq cfg now taskId how
  rw [aborted]
  by_cases running : s.statusOf taskId = some .running
  · have same : s.Reaches kind taskId ∧ s.owner kind id = some taskId ↔
        kind.cancellable = true ∧ s.owner kind id = some taskId := by
      simp [Reaches, running]
    rw [if_pos running, owner_cancelTaskRequests, outcome_cancelTaskRequests]
    exact ⟨if_congr same.symm rfl rfl, congrArg _ (if_congr same.symm rfl rfl)⟩
  · have unreached : ¬ (s.Reaches kind taskId ∧ s.owner kind id = some taskId) :=
      fun both => running both.1.2
    rw [if_neg running, if_neg unreached, if_neg unreached, or_none]
    exact ⟨rfl, rfl⟩

/-- An abort releases all that the task waits for exactly when that is no call of the
server and the task executes, or nothing at all. -/
theorem abort_releases_iff (cfg : Config) (now : ℕ) (taskId : String) (how : Abort) :
    Releases s (s.abort cfg now taskId how) taskId ↔ ∀ kind id, s.Pending kind id taskId → s.Reaches kind taskId := by
  constructor
  · intro releases kind id pending
    obtain ⟨-, gone⟩ := releases.released kind id pending
    by_contra kept
    rw [(s.abort_spec cfg now taskId how kind id).1, if_neg fun cancels => kept cancels.1] at gone
    exact absurd (pending.1.symm.trans gone) (some_ne_none _)
  · intro condition
    refine ⟨fun kind id pending => ?_, fun kind id other different owned => ?_⟩
    · have spec := s.abort_spec cfg now taskId how kind id
      have cancels := And.intro (condition kind id pending) pending.1
      rw [if_pos cancels, if_pos cancels, pending.2] at spec
      exact ⟨⟨how.reason, spec.2⟩, spec.1⟩
    · have spec := s.abort_spec cfg now taskId how kind id
      have kept : ¬ (s.Reaches kind taskId ∧ s.owner kind id = some taskId) := by
        rintro ⟨-, own⟩
        rw [owned, some.injEq] at own
        exact different own
      rw [if_neg kept, if_neg kept, or_none] at spec
      exact ⟨spec.1.trans owned, spec.2⟩

def oneCall : RequestingRunner Unit where
  runner := {
    created .sample with
    tasks := [⟨"task", .running, true⟩]
    runningTasks := .set .empty "task" 0
    executions := [0] }
  rpcCalls := .set .empty "call" ⟨"call", "task"⟩

theorem oneCall_unreleased : ¬ ∀ (s : RequestingRunner Unit) (cfg : Config) (now : ℕ) (taskId : String) (how : Abort),
      s.statusOf taskId ≠ none → Releases s (s.abort cfg now taskId how) taskId := by
  intro releases
  have released := (releases oneCall .sample 0 "task" .timedOut (by decide)).released
  exact absurd (released .rpc "call" ⟨by decide, by decide⟩).2 (by decide)

end RequestingRunner

end N8n.TaskRunner
