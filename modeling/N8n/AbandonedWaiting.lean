import N8n.ProcessRunExecutionData

/-! When the loop runs out of entries, no waiting node may be left that the scan would
have released. The scan leaves no such node behind, but it is only reached at the end
of the body: an iteration that skips a filtered node, or whose node ended its branch
with `null`, goes on to the next entry before it. -/

namespace N8n.WorkflowExecute

open List Option

theorem firstRunIndex_mem {keys : List ℕ} {key : ℕ} (first : firstRunIndex keys = some key) : key ∈ keys := by
  cases keys with
  | nil => cases first
  | cons k keys =>
    simp only [firstRunIndex, some.injEq] at first
    subst first
    induction keys generalizing k with
    | nil => exact mem_singleton_self k
    | cons k' keys ih =>
      rw [foldl_cons]
      split
      · exact mem_cons_of_mem _ (ih k')
      · rcases mem_cons.mp (ih k) with here | later
        · exact mem_cons.mpr (.inl here)
        · exact mem_cons_of_mem _ (mem_cons_of_mem _ later)

variable {x : Execution} {waitingExecution : OrderedMap String (SparseArray WaitingEntry)} {waitingNodes : List String}

variable {nodeName : String} {runIndex : ℕ} {entry : WaitingEntry}

theorem candidate_first (taken : candidate x waitingExecution waitingNodes nodeName = .taken runIndex entry) :
    firstRunIndex ((waitingExecution.get nodeName).getD .empty).keys = some runIndex ∧
      entry = (((waitingExecution.get nodeName).getD .empty).get runIndex).getD ⟨[], []⟩ := by
  unfold candidate at taken
  split at taken
  · cases taken
  split at taken
  · cases taken
  split at taken
  · cases taken
  simp only at taken
  split at taken
  · cases taken
  rename_i first
  split at taken
  · cases taken
  cases taken
  exact ⟨first, rfl⟩

theorem candidate_taken (taken : candidate x waitingExecution waitingNodes nodeName = .taken runIndex entry) :
    ∃ waiting, waitingExecution.get nodeName = some waiting ∧ waiting.get runIndex = some entry := by
  obtain ⟨first, rfl⟩ := candidate_first taken
  have member := firstRunIndex_mem first
  cases found : waitingExecution.get nodeName with
  | none => simp [found, SparseArray.keys, SparseArray.empty] at member
  | some waiting =>
    simp only [found, getD_some, SparseArray.keys, mem_filter] at member
    obtain ⟨value, filled⟩ := isSome_iff_exists.mp member.2
    exact ⟨waiting, rfl, by simp [filled]⟩

theorem firstCandidate_some {nodes : List String} {found : Candidate}
    (first : firstCandidate x waitingExecution waitingNodes nodes = some (nodeName, found)) :
    candidate x waitingExecution waitingNodes nodeName = found ∧ found ≠ .skipped := by
  induction nodes with
  | nil => cases first
  | cons node nodes ih =>
    simp only [firstCandidate] at first
    split at first
    · exact ih first
    · rename_i notSkipped
      simp only [some.injEq, Prod.mk.injEq] at first
      obtain ⟨rfl, rfl⟩ := first
      exact ⟨rfl, notSkipped⟩

theorem waitingEntries_removeWaiting {waiting : SparseArray WaitingEntry}
    (found : waitingExecution.get nodeName = some waiting) (filled : waiting.get runIndex = some entry) :
    waitingEntries (removeWaiting waitingExecution nodeName runIndex) + 1 =
      waitingEntries waitingExecution := by
  have shrunk := waiting.total_delete (fun _ => 1) runIndex
  simp only [filled, elim_some] at shrunk
  unfold removeWaiting waitingEntries
  simp only [found, getD_some]
  split
  · rename_i vacant
    have none_left := SparseArray.total_of_values_nil (fun _ : WaitingEntry => 1) (List.isEmpty_iff.mp vacant)
    have total := waitingExecution.sum_delete (SparseArray.total fun _ => 1) found
    omega
  · have total := waitingExecution.sum_set (SparseArray.total fun _ => 1) (waiting.delete runIndex) found
    omega

/-! ## The scan leaves nothing to release -/

def releases (x : Execution) (waitingExecution : OrderedMap String (SparseArray WaitingEntry)) :
    Bool :=
  (scan x ⟨.empty, [], waitingExecution⟩).any fun scanned => !scanned.nodeExecutionStack.isEmpty

theorem releases_of_no_candidate (none_left : firstCandidate x waitingExecution (waitingExecution.entries.map Prod.fst)
      (waitingExecution.entries.map Prod.fst) = none) : releases x waitingExecution = false := by
  simp [releases, scan, scanWaiting, none_left]

theorem scanWaiting_settled (fuel : ℕ) (s scanned : RunExecutionData)
    (done : scanWaiting x fuel s = some scanned) (enough : waitingEntries s.waitingExecution < fuel)
    (empty : scanned.nodeExecutionStack = []) : releases x scanned.waitingExecution = false := by
  induction fuel generalizing s with
  | zero => omega
  | succ fuel ih =>
    simp only [scanWaiting] at done
    split at done
    · rename_i none_left
      cases done
      exact releases_of_no_candidate none_left
    · rename_i first
      exact absurd rfl (firstCandidate_some first).2
    · cases done
    · rename_i nodeName runIndex entry first
      obtain ⟨waiting, found, filled⟩ := candidate_taken (firstCandidate_some first).1
      split at done
      · cases done
        simp at empty
      · have fewer := waitingEntries_removeWaiting found filled
        exact ih _ done (by show waitingEntries (removeWaiting _ _ _) < fuel; omega)

theorem scan_settled {s scanned : RunExecutionData} (done : scan x s = some scanned)
    (empty : scanned.nodeExecutionStack = []) : releases x scanned.waitingExecution = false :=
  scanWaiting_settled _ s scanned done (Nat.lt_succ_self _) empty

/-! ## Over a run -/

/-- If the loop ends here, nothing is left that the scan would release. -/
def NoneAbandoned (x : Execution) (s : LoopState) : Prop :=
  s.data.nodeExecutionStack = [] → s.destinationReached = false → releases x s.data.waitingExecution = false

/-- The iteration goes on to the next entry before the scan: the node is filtered out,
or it ran and ended its branch. -/
def endsBranch (x : Execution) (s : LoopState) (run : NodeRun) : Bool :=
  match s.data.nodeExecutionStack with
  | [] => false
  | executionData :: _ => executionData.node.any fun executionNode =>
      filtered x executionNode.name || (ensureInputData x executionNode.name executionData && run.result = .noData)

/-- Such an iteration does not take the last entry while the scan would release a node. -/
def KeepsScanning (x : Execution) (s : LoopState) (run : NodeRun) : Prop :=
  ¬(endsBranch x s run = true ∧ s.data.nodeExecutionStack.length = 1 ∧
    s.destinationReached = false ∧ releases x s.data.waitingExecution = true)

theorem addNextNodes_settled {data data' : RunExecutionData} {calls : List Delivery}
    (done : addNextNodes x data calls = some data') (empty : data'.nodeExecutionStack = []) :
    releases x data'.waitingExecution = false := by
  simp only [addNextNodes] at done
  split at done
  · cases done
  split at done
  · exact scan_settled done empty
  · rename_i notScanned
    cases done
    -- the body ends without the scan only where nothing waits
    have vacant : (addNodes x.workflow data calls).after.waitingExecution.entries = [] := by
      by_contra waiting
      exact notScanned ⟨empty, waiting⟩
    refine releases_of_no_candidate ?_
    rw [vacant]
    rfl

variable {s s' : LoopState} {run : NodeRun} {start : LoopState}

theorem finishNode_noneAbandoned {executionData : IExecuteData}
    {nodeSuccessData : Option (List Slot)} {executionError : Bool}
    (done : finishNode x s executionData nodeName runIndex run nodeSuccessData executionError = some s') :
    NoneAbandoned x s' := by
  simp only [finishNode, bind_eq_some_iff] at done
  obtain ⟨outputs, -, done⟩ := done
  split at done
  · cases done
  split at done
  · cases done
    intro _ reached
    cases reached
  · simp only [bind_eq_some_iff, map_eq_some_iff] at done
    obtain ⟨calls, -, data, added, rfl⟩ := done
    exact fun empty _ => addNextNodes_settled added empty

/-- A step that is no request goes on before the scan and changes neither the waiting
nodes nor the entries below, or leaves nothing to release. -/
theorem iterate_cases (taken : iterate x s run = some s') (plain : run.requests = []) :
    endsBranch x s run = true ∧ s.data.nodeExecutionStack ≠ [] ∧
        s'.data.nodeExecutionStack = s.data.nodeExecutionStack.tail ∧
        s'.data.waitingExecution = s.data.waitingExecution ∧
        s'.destinationReached = s.destinationReached ∨
      endsBranch x s run = false ∧ NoneAbandoned x s' := by
  unfold iterate at taken
  unfold endsBranch
  cases stack : s.data.nodeExecutionStack with
  | nil => simp [stack] at taken
  | cons executionData rest =>
    simp only [stack] at taken
    obtain ⟨executionNode, node, taken⟩ := bind_eq_some_iff.mp taken
    simp only [node, any_some]
    split at taken
    · cases taken
    split at taken
    · rename_i skipped
      cases taken
      exact .inl ⟨by simp [skipped], by simp, rfl, rfl, rfl⟩
    rename_i notSkipped
    split at taken
    · rename_i noData
      cases taken
      refine .inr ⟨by simp_all, fun empty => ?_⟩
      simp at empty
    rename_i hasData
    unfold NodeRun.requests at plain
    cases result : run.result with
    | noData =>
      simp only [result] at plain taken
      rw [plain] at taken
      cases taken
      exact .inl ⟨by simp_all, by simp, rfl, rfl, rfl⟩
    | request request => simp [result] at plain
    | finished nodeSuccessData executionError =>
      simp only [result] at plain taken
      rw [plain] at taken
      exact .inr ⟨by simp_all, finishNode_noneAbandoned taken⟩

/-- The loop for nodes that return data, empty outputs or `null`, and no requests. -/
def dataLoop (x : Execution) (start : LoopState) : TransitionSystem LoopState NodeRun where
  init := start
  step := fun s run => if run.requests = [] then iterate x s run else none

theorem dataLoop_step (taken : (dataLoop x start).step s run = some s') :
    run.requests = [] ∧ iterate x s run = some s' :=
  ite_none_right_eq_some.mp taken

theorem step_noneAbandoned_iff (taken : (dataLoop x start).step s run = some s') :
    NoneAbandoned x s' ↔ KeepsScanning x s run := by
  obtain ⟨plain, taken⟩ := dataLoop_step taken
  unfold KeepsScanning
  rcases iterate_cases taken plain with ⟨early, nonempty, stack, waiting, reached⟩ | ⟨late, none_left⟩
  · unfold NoneAbandoned
    have last : s.data.nodeExecutionStack.tail = [] ↔ s.data.nodeExecutionStack.length = 1 := by
      cases entries : s.data.nodeExecutionStack with
      | nil => exact absurd entries nonempty
      | cons _ rest => simp
    rw [stack, waiting, reached, last, early]
    simp
  · simp [late, none_left]

/-- Over every run, from any state. -/
theorem none_abandoned_iff_keeps_scanning (x : Execution) (start : LoopState) (runs : List NodeRun) :
    (dataLoop x start).AllStates (NoneAbandoned x) start runs ↔
      NoneAbandoned x start ∧ (dataLoop x start).AllSteps (KeepsScanning x) start runs := by
  by_cases holds : NoneAbandoned x start
  · simp only [holds, true_and]
    exact TransitionSystem.allStates_iff_allSteps (I := fun _ => True) (fun _ _ _ _ _ _ _ => trivial)
      (fun _ _ _ _ _ taken => step_noneAbandoned_iff taken) holds trivial runs
  · simp only [holds, false_and, iff_false]
    intro all
    cases runs with
    | nil => exact holds all
    | cons _ _ => exact holds all.1

/-! ## A merge whose second branch ends -/

/-- `Start` feeds `A` and `B`, which feed the two inputs of `Merge`. -/
def branchesWorkflow : Workflow where
  nodes := ⟨[("Start", ⟨"Start"⟩), ("A", ⟨"A"⟩), ("B", ⟨"B"⟩), ("Merge", ⟨"Merge"⟩)], by decide⟩
  named := Workflow.named_of_entries (by decide)
  connectionsBySourceNode := ⟨[
    ("Start", ⟨[(.main, [some [⟨"A", .main, 0⟩, ⟨"B", .main, 0⟩]])], main_alone⟩),
    ("A", ⟨[(.main, [some [⟨"Merge", .main, 0⟩]])], main_alone⟩),
    ("B", ⟨[(.main, [some [⟨"Merge", .main, 1⟩]])], main_alone⟩)], by decide⟩
  connectionsByDestinationNode := ⟨[
    ("A", ⟨[(.main, [some [⟨"Start", .main, 0⟩]])], main_alone⟩),
    ("B", ⟨[(.main, [some [⟨"Start", .main, 0⟩]])], main_alone⟩),
    ("Merge", ⟨[(.main, [some [⟨"A", .main, 0⟩], some [⟨"B", .main, 0⟩]])], main_alone⟩)], by decide⟩
  executionOrder := some .v1

/-- `B` stands below `A`; `Merge` requires no input. -/
def branchesExecution : Execution where
  workflow := branchesWorkflow
  info := fun name => ⟨none, (0, if name = "B" then 100 else 0), if name = "Merge" then 2 else 1, none, false, none⟩
  runNodeFilter := none
  destinationNode := none
  mergedJson := fun _ _ => "{}"

def branchesStart : LoopState :=
  ⟨⟨.empty, [⟨some ⟨"Start"⟩, [.items [emptyItem]], [none], none, none⟩], .empty⟩, none, false, []⟩

def returnsItem : NodeRun := ⟨.finished (some [.items [⟨"1"⟩]]) false, emptyItem, false, none, []⟩

def returnsNull : NodeRun := ⟨.noData, emptyItem, false, none, []⟩

/-- `A` delivered to `Merge`, `B` ends its branch with `null`, and the loop ends with
`Merge` still waiting. -/
theorem merge_abandoned_after_null :
    ∃ s, (dataLoop branchesExecution branchesStart).run [returnsItem, returnsItem, returnsNull] = some s ∧
      s.data.nodeExecutionStack = [] ∧ ¬NoneAbandoned branchesExecution s := by
  have found : ((dataLoop branchesExecution branchesStart).run [returnsItem, returnsItem, returnsNull]).any (fun s =>
        s.data.nodeExecutionStack.isEmpty && !s.destinationReached &&
          releases branchesExecution s.data.waitingExecution) = true := by decide
  obtain ⟨s, done, holds⟩ := (Option.any_eq_true _ _).mp found
  simp only [Bool.and_eq_true, List.isEmpty_iff, Bool.not_eq_true'] at holds
  refine ⟨s, done, holds.1.1, fun none_left => ?_⟩
  rw [none_left holds.1.1 holds.1.2] at holds
  cases holds.2

end N8n.WorkflowExecute
