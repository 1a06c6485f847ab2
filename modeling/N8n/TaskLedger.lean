import Mathlib.Tactic.Common
import N8n.SparseArray
import N8n.TaskRunner

/-! The tasks a runner has taken, without its offers and timers. A move takes a task,
gives its slot back, or changes its status; what every sequence of moves preserves is
stated here. Only the last invariant needs to know that a task is taken under an id that
no running task has. -/

namespace N8n

open List Option OrderedMap Prod Bool

/-- The tasks of a runner, and the terminal messages it has sent: about which task, under
which id. -/
structure Ledger where
  tasks : List TaskState
  runningTasks : OrderedMap String ℕ
  executions : List ℕ
  reports : List (ℕ × String)

namespace Ledger

def accept (taskId : String) (l : Ledger) : Ledger :=
  { l with
    tasks := l.tasks ++ [TaskState.new taskId]
    runningTasks := l.runningTasks.set taskId l.tasks.length }

def report (task : ℕ) (taskId : String) (l : Ledger) : Ledger :=
  { l with reports := l.reports ++ [(task, taskId)] }

def finish (task : ℕ) (taskId : String) (l : Ledger) : Ledger :=
  { l with
    tasks := l.tasks.modify task TaskState.cleanup
    runningTasks := l.runningTasks.delete taskId }

def setStatus (task : ℕ) (status : TaskStatus) (l : Ledger) : Ledger :=
  { l with tasks := l.tasks.modify task fun taskState => { taskState with status } }

def start (task : ℕ) (l : Ledger) : Ledger :=
  { l.setStatus task .running with executions := l.executions ++ [task] }

def settle (task : ℕ) (l : Ledger) : Ledger := { l with executions := l.executions.erase task }

theorem finish_finish (task : ℕ) (taskId : String) (l : Ledger) :
    (l.finish task taskId).finish task taskId = l.finish task taskId := by
  have tasks : (l.tasks.modify task TaskState.cleanup).modify task TaskState.cleanup =
      l.tasks.modify task TaskState.cleanup := by
    rw [modify_modify_eq]
    rfl
  have runningTasks : (l.runningTasks.delete taskId).delete taskId = l.runningTasks.delete taskId := by
    simp [OrderedMap.delete, List.filter_filter]
  simp only [finish, tasks, runningTasks]

inductive Move (l : Ledger) : Option String → Ledger → Prop
  | quiet : Move l none l
  | accept (taskId : String) : Move l (some taskId) (l.accept taskId)
  | withdraw {taskId : String} {task : ℕ} {taskState : TaskState}
      (slot : l.runningTasks.get taskId = some task) (stored : l.tasks[task]? = some taskState)
      (waiting : taskState.status = .waitingForSettings) :
      Move l none (l.finish task taskState.taskId)
  | expire {taskId : String} {task : ℕ} {taskState : TaskState}
      (slot : l.runningTasks.get taskId = some task) (stored : l.tasks[task]? = some taskState)
      (waiting : taskState.status = .waitingForSettings) :
      Move l none ((l.report task taskId).finish task taskState.taskId)
  | start {taskId : String} {task : ℕ} {taskState : TaskState}
      (slot : l.runningTasks.get taskId = some task) (stored : l.tasks[task]? = some taskState)
      (waiting : taskState.status = .waitingForSettings) : Move l none (l.start task)
  | abort {taskId : String} {task : ℕ} {taskState : TaskState} {status : TaskStatus}
      (slot : l.runningTasks.get taskId = some task) (stored : l.tasks[task]? = some taskState)
      (running : taskState.status = .running) (aborting : status ≠ .waitingForSettings) :
      Move l none (l.setStatus task status)
  | settle {task : ℕ} {taskState : TaskState} (executing : task ∈ l.executions)
      (stored : l.tasks[task]? = some taskState) :
      Move l none ((l.settle task).finish task taskState.taskId)
  | complete {task : ℕ} {taskState : TaskState} (executing : task ∈ l.executions)
      (stored : l.tasks[task]? = some taskState) :
      Move l none (((l.settle task).report task taskState.taskId).finish task taskState.taskId)

/-! ## What moves preserve -/

structure Wired (l : Ledger) : Prop where
  slot : ∀ taskId task, l.runningTasks.get taskId = some task →
    ∃ taskState, l.tasks[task]? = some taskState ∧ taskState.taskId = taskId
  started : ∀ task ∈ l.executions, ∃ taskState, l.tasks[task]? = some taskState ∧ taskState.status ≠ .waitingForSettings
  reported : ∀ report ∈ l.reports, ∃ taskState, l.tasks[report.1]? = some taskState ∧ taskState.taskId = report.2

/-- An unfinished task has the slot of its id, and a finished one has none. -/
structure Slotted (l : Ledger) : Prop where
  slot : ∀ task taskState, l.tasks[task]? = some taskState →
    (taskState.timeoutTimer = true ↔ l.runningTasks.get taskState.taskId = some task)
  executing : ∀ task ∈ l.executions, ∀ taskState, l.tasks[task]? = some taskState → taskState.timeoutTimer = true
  distinct : l.executions.Nodup

def waits (l : Ledger) (task : ℕ) : Bool :=
  (l.tasks[task]?).any fun taskState =>
    taskState.status = .waitingForSettings && l.runningTasks.get taskState.taskId = some task

/-- A task has one terminal message, which it may still have before it while it waits or
is executed. -/
def Balanced (l : Ledger) : Prop :=
  ∀ task, (l.reports.map fst).count task + (l.waits task).toNat + l.executions.count task ≤ 1

variable {l l' : Ledger} {taken : Option String}

variable {f : TaskState → TaskState} {tasks : List TaskState} {other : ℕ} {taskState : TaskState}

variable {task : ℕ}

theorem Wired.modify (h : l.Wired) (task : ℕ) (same : ∀ taskState, (f taskState).taskId = taskState.taskId)
    (kept : ∀ taskState, taskState.status ≠ .waitingForSettings → (f taskState).status ≠ .waitingForSettings) :
    Wired { l with tasks := l.tasks.modify task f } where
  slot taskId other found := by
    obtain ⟨taskState, stored, named⟩ := h.slot taskId other found
    refine ⟨_, getElem?_modified task stored, ?_⟩
    split
    · rw [same, named]
    · exact named
  started other member := by
    obtain ⟨taskState, stored, started⟩ := h.started other member
    refine ⟨_, getElem?_modified task stored, ?_⟩
    split
    · exact kept taskState started
    · exact started
  reported report member := by
    obtain ⟨taskState, stored, named⟩ := h.reported report member
    refine ⟨_, getElem?_modified task stored, ?_⟩
    split
    · rw [same, named]
    · exact named

theorem Wired.finish (h : l.Wired) (task : ℕ) (taskId : String) : (l.finish task taskId).Wired := by
  have modified := h.modify task (f := TaskState.cleanup) (fun _ => rfl) fun _ started => started
  refine ⟨fun other slot found => modified.slot other slot ?_, modified.started, modified.reported⟩
  exact get_delete_some _ found

variable {status : TaskStatus} {taskId : String}

theorem Wired.setStatus (h : l.Wired) (task : ℕ)
    (started : status ≠ .waitingForSettings) : (l.setStatus task status).Wired :=
  h.modify task (fun _ => rfl) fun _ _ => started

theorem Wired.settle (h : l.Wired) (task : ℕ) : (l.settle task).Wired :=
  ⟨h.slot, fun other member => h.started other (mem_of_mem_erase member), h.reported⟩

theorem Wired.report (h : l.Wired)
    (stored : l.tasks[task]? = some taskState) : (l.report task taskState.taskId).Wired := by
  refine ⟨h.slot, h.started, fun report member => ?_⟩
  rcases mem_append.mp member with old | new
  · exact h.reported report old
  · rw [mem_singleton.mp new]
    exact ⟨taskState, stored, rfl⟩

theorem Wired.named (h : l.Wired)
    (slot : l.runningTasks.get taskId = some task) (stored : l.tasks[task]? = some taskState) :
    taskState.taskId = taskId := by
  obtain ⟨taskState', stored', named⟩ := h.slot taskId task slot
  rw [stored, some.injEq] at stored'
  rw [stored', named]

theorem Wired.idle (wired : l.Wired)
    (stored : l.tasks[task]? = some taskState) (waiting : taskState.status = .waitingForSettings) :
    task ∉ l.executions := by
  intro member
  obtain ⟨taskState', stored', started⟩ := wired.started task member
  rw [stored, some.injEq] at stored'
  exact started (stored' ▸ waiting)

theorem Wired.accept (h : l.Wired) (taskId : String) : (l.accept taskId).Wired := by
  refine ⟨fun other task found => ?_, fun task member => ?_, fun report member => ?_⟩
  · simp only [Ledger.accept, get_set] at found ⊢
    split at found
    · rename_i same
      cases found
      exact ⟨TaskState.new taskId, by simp, same.symm⟩
    · obtain ⟨taskState, stored, named⟩ := h.slot other task found
      exact ⟨taskState, getElem?_concat stored _, named⟩
  · obtain ⟨taskState, stored, started⟩ := h.started task member
    exact ⟨taskState, getElem?_concat stored _, started⟩
  · obtain ⟨taskState, stored, named⟩ := h.reported report member
    exact ⟨taskState, getElem?_concat stored _, named⟩

theorem Wired.start (h : l.Wired) (stored : l.tasks[task]? = some taskState) : (l.start task).Wired := by
  have modified : (l.setStatus task .running).Wired := h.setStatus task (by simp)
  refine ⟨modified.slot, fun other member => ?_, modified.reported⟩
  rcases mem_append.mp member with old | new
  · exact modified.started other old
  · rw [mem_singleton.mp new]
    exact ⟨_, getElem?_modified task stored, by simp⟩

theorem Wired.move (h : l.Wired) (move : l.Move taken l') : l'.Wired := by
  cases move with
  | quiet => exact h
  | accept taskId => exact h.accept taskId
  | withdraw => exact h.finish _ _
  | expire slot stored waiting =>
    rw [h.named slot stored]
    exact (h.named slot stored ▸ h.report stored).finish _ _
  | start slot stored waiting => exact h.start stored
  | abort slot stored running aborting => exact h.setStatus _ aborting
  | settle executing stored => exact (h.settle _).finish _ _
  | complete executing stored => exact ((h.settle _).report stored).finish _ _

/-! ## One terminal message for each task -/

theorem waits_iff : l.waits task = true ↔ ∃ taskState, l.tasks[task]? = some taskState ∧
    taskState.status = .waitingForSettings ∧ l.runningTasks.get taskState.taskId = some task := by
  simp [waits, Option.any_eq_true]

theorem waits_finish (stored : l.tasks[task]? = some taskState)
    (waits : (l.finish task taskState.taskId).waits other = true) : l.waits other = true ∧ other ≠ task := by
  obtain ⟨otherState, stored', waiting, slot⟩ := waits_iff.mp waits
  obtain ⟨old, before, rfl⟩ := of_getElem?_modified stored'
  have same : (if task = other then old.cleanup else old).taskId = old.taskId := by split <;> rfl
  have status : (if task = other then old.cleanup else old).status = old.status := by split <;> rfl
  rw [same, Ledger.finish, get_delete] at slot
  split at slot
  · cases slot
  · rename_i different
    refine ⟨waits_iff.mpr ⟨old, before, status ▸ waiting, slot⟩, fun here => different ?_⟩
    rw [here, stored, some.injEq] at before
    rw [before]

theorem waits_setStatus (started : status ≠ .waitingForSettings)
    (waits : (l.setStatus task status).waits other = true) : l.waits other = true ∧ other ≠ task := by
  obtain ⟨otherState, stored', waiting, slot⟩ := waits_iff.mp waits
  obtain ⟨old, before, rfl⟩ := of_getElem?_modified stored'
  by_cases here : task = other
  · rw [if_pos here] at waiting
    exact absurd waiting started
  · rw [if_neg here] at waiting slot
    exact ⟨waits_iff.mpr ⟨old, before, waiting, slot⟩, Ne.symm here⟩

theorem not_reported (wired : l.Wired) (new : l.tasks.length ≤ task) : (l.reports.map fst).count task = 0 := by
  apply count_eq_zero.mpr
  intro member
  obtain ⟨report, sent, rfl⟩ := List.mem_map.mp member
  obtain ⟨taskState, stored, _⟩ := wired.reported report sent
  rw [getElem?_eq_none new] at stored
  cases stored

theorem not_executed (wired : l.Wired) (new : l.tasks.length ≤ task) : l.executions.count task = 0 := by
  apply count_eq_zero.mpr
  intro member
  obtain ⟨taskState, stored, _⟩ := wired.started task member
  rw [getElem?_eq_none new] at stored
  cases stored

theorem Balanced.accept (wired : l.Wired) (h : l.Balanced) (taskId : String) : (l.accept taskId).Balanced := by
  intro task
  have before := h task
  change (l.reports.map fst).count task + ((l.accept taskId).waits task).toNat + l.executions.count task ≤ 1
  by_cases old : task < l.tasks.length
  · cases waits : (l.accept taskId).waits task with
    | false =>
      simp only [toNat_false]
      omega
    | true =>
      obtain ⟨taskState, stored, waiting, slot⟩ := waits_iff.mp waits
      simp only [Ledger.accept, getElem?_append_left old, get_set] at stored slot
      split at slot
      · simp only [some.injEq] at slot
        omega
      · rwa [waits_iff.mpr ⟨taskState, stored, waiting, slot⟩] at before
  · have once := Bool.toNat_le ((l.accept taskId).waits task)
    rw [not_reported wired (by omega), not_executed wired (by omega)]
    omega

theorem Balanced.finish (h : l.Balanced)
    (stored : l.tasks[task]? = some taskState) : (l.finish task taskState.taskId).Balanced := by
  intro other
  have before := h other
  change (l.reports.map fst).count other +
    ((l.finish task taskState.taskId).waits other).toNat + l.executions.count other ≤ 1
  cases waits : (l.finish task taskState.taskId).waits other with
  | false =>
    simp only [toNat_false]
    omega
  | true => rwa [(waits_finish stored waits).1] at before

theorem count_report (task other : ℕ) (taskId : String) : ((l.report task taskId).reports.map fst).count other =
      (l.reports.map fst).count other + if task = other then 1 else 0 := by
  simp [report, count_append, count_singleton]

theorem Balanced.expire (h : l.Balanced) (stored : l.tasks[task]? = some taskState) (waiting : l.waits task = true) :
    ((l.report task taskState.taskId).finish task taskState.taskId).Balanced := by
  intro other
  have before := h other
  change ((l.report task taskState.taskId).reports.map fst).count other +
    ((l.finish task taskState.taskId).waits other).toNat + l.executions.count other ≤ 1
  rw [count_report]
  cases waits : (l.finish task taskState.taskId).waits other with
  | false =>
    simp only [toNat_false]
    split
    · rename_i here
      rw [← here] at before ⊢
      simp only [waiting, toNat_true] at before
      omega
    · omega
  | true =>
    obtain ⟨waited, different⟩ := waits_finish stored waits
    rw [if_neg (Ne.symm different)]
    rwa [waited] at before

theorem Balanced.start (h : l.Balanced) (waiting : l.waits task = true) : (l.start task).Balanced := by
  intro other
  have before := h other
  have count : (l.start task).executions.count other = l.executions.count other + if task = other then 1 else 0 := by
    simp [Ledger.start, count_append, count_singleton]
  change (l.reports.map fst).count other + ((l.setStatus task .running).waits other).toNat +
    (l.start task).executions.count other ≤ 1
  rw [count]
  cases waits : (l.setStatus task .running).waits other with
  | false =>
    simp only [toNat_false]
    split
    · rename_i here
      rw [← here] at before ⊢
      simp only [waiting, toNat_true] at before
      omega
    · omega
  | true =>
    obtain ⟨waited, different⟩ := waits_setStatus (by simp) waits
    rw [if_neg (Ne.symm different)]
    rwa [waited] at before

theorem Balanced.abort (h : l.Balanced) (task : ℕ)
    (aborting : status ≠ .waitingForSettings) : (l.setStatus task status).Balanced := by
  intro other
  have before := h other
  change (l.reports.map fst).count other + ((l.setStatus task status).waits other).toNat +
    l.executions.count other ≤ 1
  cases waits : (l.setStatus task status).waits other with
  | false =>
    simp only [toNat_false]
    omega
  | true => rwa [(waits_setStatus aborting waits).1] at before

theorem Balanced.complete (h : l.Balanced) (executing : task ∈ l.executions)
    (taskId : String) : ((l.settle task).report task taskId).Balanced := by
  intro other
  have before := h other
  have count := (perm_cons_erase executing).count_eq other
  rw [count_cons] at count
  change (((l.settle task).report task taskId).reports.map fst).count other +
    (l.waits other).toNat + (l.executions.erase task).count other ≤ 1
  rw [count_report]
  change (l.reports.map fst).count other + (if task = other then 1 else 0) +
    (l.waits other).toNat + (l.executions.erase task).count other ≤ 1
  simp only [beq_iff_eq] at count
  omega

theorem Balanced.settle (h : l.Balanced) (task : ℕ) : (l.settle task).Balanced := by
  intro other
  have before := h other
  have fewer := (erase_sublist (l := l.executions) (a := task)).count_le other
  change (l.reports.map fst).count other + (l.waits other).toNat + (l.executions.erase task).count other ≤ 1
  omega

theorem Balanced.move (wired : l.Wired) (h : l.Balanced) (move : l.Move taken l') : l'.Balanced := by
  cases move with
  | quiet => exact h
  | accept taskId => exact h.accept wired taskId
  | withdraw slot stored waiting => exact h.finish stored
  | expire slot stored waiting =>
    have named := wired.named slot stored
    have waits := waits_iff.mpr ⟨_, stored, waiting, named ▸ slot⟩
    exact named ▸ h.expire stored waits
  | start slot stored waiting =>
    have named := wired.named slot stored
    exact h.start (waits_iff.mpr ⟨_, stored, waiting, named ▸ slot⟩)
  | abort slot stored running aborting => exact h.abort _ aborting
  | settle executing stored => exact (h.settle _).finish stored
  | complete executing stored => exact (h.complete executing _).finish stored

/-! ## Each unfinished task has its slot -/

theorem Slotted.finish (h : l.Slotted) (stored : l.tasks[task]? = some taskState)
    (slot : l.runningTasks.get taskState.taskId = some task) (idle : task ∉ l.executions) :
    (l.finish task taskState.taskId).Slotted := by
  refine ⟨fun other otherState stored' => ?_, fun other member otherState stored' => ?_, h.distinct⟩
  · obtain ⟨old, before, rfl⟩ := of_getElem?_modified stored'
    by_cases here : task = other
    · subst here
      rw [stored, some.injEq] at before
      subst before
      simp [Ledger.finish, TaskState.cleanup]
    · simp only [here, if_false, Ledger.finish, get_delete]
      split
      · rename_i same
        refine iff_of_false (fun unfinished => ?_) (by simp)
        have other_slot := (h.slot other old before).mp unfinished
        rw [same, slot, some.injEq] at other_slot
        exact here other_slot
      · exact h.slot other old before
  · obtain ⟨old, before, rfl⟩ := of_getElem?_modified stored'
    have different : task ≠ other := fun same => idle (same ▸ member)
    simp only [different, if_false]
    exact h.executing other member old before

theorem Slotted.setStatus (h : l.Slotted) (task : ℕ) (status : TaskStatus) : (l.setStatus task status).Slotted := by
  refine ⟨fun other otherState stored' => ?_, fun other member otherState stored' => ?_, h.distinct⟩
  · obtain ⟨old, before, rfl⟩ := of_getElem?_modified stored'
    have slot := h.slot other old before
    split <;> exact slot
  · obtain ⟨old, before, rfl⟩ := of_getElem?_modified stored'
    have unfinished := h.executing other member old before
    split <;> exact unfinished

theorem Slotted.settle (h : l.Slotted) (task : ℕ) : (l.settle task).Slotted :=
  ⟨h.slot, fun other member => h.executing other (mem_of_mem_erase member), h.distinct.erase task⟩

theorem Slotted.report (h : l.Slotted) (task : ℕ) (taskId : String) : (l.report task taskId).Slotted :=
  ⟨h.slot, h.executing, h.distinct⟩

theorem Slotted.accept (wired : l.Wired) (h : l.Slotted) (fresh : l.runningTasks.get taskId = none) :
    (l.accept taskId).Slotted := by
  refine ⟨fun other otherState stored => ?_, fun other member otherState stored => ?_, h.distinct⟩
  · simp only [Ledger.accept, get_set] at stored ⊢
    by_cases old : other < l.tasks.length
    · rw [getElem?_append_left old] at stored
      have slot := h.slot other otherState stored
      split
      · rename_i same
        rw [same, fresh] at slot
        refine iff_of_false (fun unfinished => by cases slot.mp unfinished) ?_
        simp only [some.injEq]
        omega
      · exact slot
    · rw [getElem?_append_right (by omega), getElem?_singleton] at stored
      split at stored
      · cases stored
        simp only [TaskState.new, if_true, some.injEq, true_iff]
        omega
      · cases stored
  · obtain ⟨old, before, _⟩ := wired.started other member
    have same : some old = some otherState := (getElem?_concat before _).symm.trans stored
    rw [same] at before
    exact h.executing other member otherState before

theorem Slotted.start (wired : l.Wired) (h : l.Slotted) (stored : l.tasks[task]? = some taskState)
    (slot : l.runningTasks.get taskState.taskId = some task)
    (waiting : taskState.status = .waitingForSettings) : (l.start task).Slotted := by
  have kept := h.setStatus task .running
  have idle := wired.idle stored waiting
  refine ⟨kept.slot, fun other member otherState stored' => ?_, ?_⟩
  · rcases mem_append.mp member with old | new
    · exact kept.executing other old otherState stored'
    · rw [mem_singleton.mp new] at stored'
      refine (kept.slot task otherState stored').mpr ?_
      obtain ⟨old, before, rfl⟩ := of_getElem?_modified stored'
      rw [stored, some.injEq] at before
      subst before
      rw [if_pos rfl]
      exact slot
  · refine nodup_append.mpr ⟨h.distinct, nodup_singleton task, fun other member _ here => ?_⟩
    rw [mem_singleton.mp here]
    exact fun same => idle (same ▸ member)

theorem Slotted.move (wired : l.Wired) (h : l.Slotted) (move : l.Move taken l')
    (fresh : ∀ taskId, taken = some taskId → l.runningTasks.get taskId = none) : l'.Slotted := by
  cases move with
  | quiet => exact h
  | accept taskId => exact h.accept wired (fresh taskId rfl)
  | withdraw slot stored waiting =>
    exact h.finish stored (wired.named slot stored ▸ slot) (wired.idle stored waiting)
  | expire slot stored waiting =>
    exact (h.report _ _).finish stored (wired.named slot stored ▸ slot) (wired.idle stored waiting)
  | start slot stored waiting => exact h.start wired stored (wired.named slot stored ▸ slot) waiting
  | abort slot stored running aborting => exact h.setStatus _ _
  | settle executing stored =>
    have slot := (h.slot _ _ stored).mp (h.executing _ executing _ stored)
    exact (h.settle _).finish stored slot h.distinct.not_mem_erase
  | complete executing stored =>
    have slot := (h.slot _ _ stored).mp (h.executing _ executing _ stored)
    exact ((h.settle _).report _ _).finish stored slot h.distinct.not_mem_erase

end Ledger

end N8n
