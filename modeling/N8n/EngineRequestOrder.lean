import N8n.EnsureInputData
import N8n.ProcessRunExecutionData
import N8n.WaitingInputs

/-! A node that asked the engine to run others is resumed by an entry that lists their
run slots. In the order `v1` every entry goes on top of the stack, so the requested
entries, which are added after the resuming one, come off before it, whatever nested
requests add in between. In the legacy order entries go to the end and the resuming
entry comes first. -/

namespace N8n.WorkflowExecute

open List Option

def requestedSlots (executionData : IExecuteData) : List (String × ℕ) :=
  ((executionData.metadata.bind (·.subNodeExecutionData)).elim [] (·.actions)).map fun action =>
    (action.nodeName, action.runIndex)

/-- The run slot that an entry with a fixed run index will fill. -/
def slotOf (executionData : IExecuteData) : List (String × ℕ) :=
  match executionData.node, executionData.runIndex with
  | some node, some runIndex => [(node.name, runIndex)]
  | _, _ => []

/-- Taken off from the top, every entry comes after all that it waits for, given what
is already `done`. -/
def Ordered : (done : List (String × ℕ)) → List IExecuteData → Prop
  | _, [] => True
  | done, executionData :: rest =>
    (∀ slot ∈ requestedSlots executionData, slot ∈ done) ∧ Ordered (done ++ slotOf executionData) rest

namespace Ordered

variable {done done' : List (String × ℕ)} {stack : List IExecuteData} {new : List IExecuteData}

theorem mono (subset : done ⊆ done') (h : Ordered done stack) : Ordered done' stack := by
  induction stack generalizing done done' with
  | nil => trivial
  | cons executionData rest ih =>
    refine ⟨fun slot member => subset (h.1 slot member), ih ?_ h.2⟩
    intro slot member
    rcases mem_append.mp member with before | here
    · exact mem_append_left _ (subset before)
    · exact mem_append_right _ here

theorem push (waits : ∀ executionData ∈ new, ∀ slot ∈ requestedSlots executionData, slot ∈ done)
    (h : Ordered done stack) : Ordered done (new ++ stack) := by
  induction new generalizing done with
  | nil => exact h
  | cons executionData rest ih =>
    refine ⟨waits executionData mem_cons_self, ih ?_ ?_⟩
    · intro other member slot wanted
      exact mem_append_left _ (waits other (mem_cons_of_mem _ member) slot wanted)
    · exact h.mono (subset_append_left _ _)

theorem push_requested (plain : ∀ executionData ∈ new, requestedSlots executionData = [])
    (h : Ordered (done ++ new.flatMap slotOf) stack) : Ordered done (new ++ stack) := by
  induction new generalizing done with
  | nil => simpa using h
  | cons executionData rest ih =>
    refine ⟨by simp [plain executionData mem_cons_self], ih ?_ ?_⟩
    · exact fun other member => plain other (mem_cons_of_mem _ member)
    · simpa [append_assoc] using h

end Ordered

/-! ## What a call puts on the stack in the order v1 -/

variable {w : Workflow} {currentNode : INode} {executionData : IExecuteData}
  {mergedJson : Option INodeExecutionData → ExecuteNodeAction → String} {runIndex : ℕ} {run : NodeRun}

section

variable (v1 : w.executionOrder = some .v1)
include v1

theorem enqueueFn_v1 (stack : List IExecuteData) (item : IExecuteData) : enqueueFn w stack item = item :: stack := by
  simp [enqueueFn, v1]

theorem checkInput_v1 {runData : IRunData} {c : Delivery}
    {outputNodes : List String} {stack stack' : List IExecuteData} {inputData : IConnection}
    (h : checkInput w runData c outputNodes stack inputData = some stack') : stack' = stack := by
  have current : w.isLegacyExecutionOrder = false := by simp [Workflow.isLegacyExecutionOrder, v1]
  simp only [checkInput, map_eq_some_iff] at h
  obtain ⟨nodeToAdd, found, rfl⟩ := h
  cases nodeToAdd with
  | none => rfl
  | some name =>
    exfalso
    simp only [nodeToStart, current, Bool.not_false, if_true, Option.pure_def, ite_self] at found
    split_ifs at found
    · cases found
    · obtain ⟨_, _, found⟩ := bind_eq_some_iff.mp found
      obtain ⟨_, _, found⟩ := bind_eq_some_iff.mp found
      cases found
    · obtain ⟨_, _, found⟩ := bind_eq_some_iff.mp found
      cases found

theorem checkSiblings_v1 (runData : IRunData) (c : Delivery)
    (stack : List IExecuteData) : (checkSiblings w runData c stack).1 = stack := by
  unfold checkSiblings
  split
  · rfl
  · rename_i outputNodes _
    generalize ((mainInputs w c.connectionData.node).getD []).flatMap (·.getD []) = inputs
    induction inputs with
    | nil => rfl
    | cons inputData rest ih =>
      simp only [checkInputs]
      split
      · rfl
      · rename_i stack' started
        rw [checkInput_v1 v1 started]
        exact ih

theorem add_pushes (s : RunExecutionData) (c : Delivery) :
    ∃ new, (addNodeToBeExecuted w s c).after.nodeExecutionStack = new ++ s.nodeExecutionStack ∧ ∀ executionData ∈ new,
        executionData.metadata = none ∨ executionData.metadata = c.metadata := by
  by_cases several : 1 < numberOfInputs w c.connectionData.node
  · obtain ⟨_, stack, _⟩ | ⟨_, _, same | ⟨_, siblings⟩⟩ := add_several w s c several
    · exact ⟨[_], by rw [stack, enqueueFn_v1 v1]; rfl, by simp⟩
    · exact ⟨[], by rw [same]; rfl, by simp⟩
    · exact ⟨[], by rw [siblings, checkSiblings_v1 v1]; rfl, by simp⟩
  · simp only [addNodeToBeExecuted, several, if_false]
    split
    · exact ⟨[_], by rw [enqueueFn_v1 v1]; rfl, by simp⟩
    · exact ⟨[], rfl, by simp⟩

theorem add_threw {s : RunExecutionData} {c : Delivery} (threw : (addNodeToBeExecuted w s c).threw = true) :
    (addNodeToBeExecuted w s c).after.nodeExecutionStack = s.nodeExecutionStack := by
  unfold addNodeToBeExecuted at threw ⊢
  dsimp only at threw ⊢
  split_ifs at threw ⊢
  · rfl
  · exact checkSiblings_v1 v1 _ _ _

theorem add_direct (s : RunExecutionData) (c : Delivery)
    (few : numberOfInputs w c.connectionData.node ≤ 1) (known : w.nodes.has c.connectionData.node) :
    ∃ main source, (addNodeToBeExecuted w s c).after.nodeExecutionStack =
      ⟨w.nodes.get c.connectionData.node, main, source, c.newRunIndex, c.metadata⟩ ::
        s.nodeExecutionStack ∧ (addNodeToBeExecuted w s c).threw = false := by
  simp only [addNodeToBeExecuted, Nat.not_lt.mpr few, if_false, known, if_true, enqueueFn_v1 v1]
  exact ⟨_, _, rfl, trivial⟩

theorem addNodes_plain (calls : List Delivery) (plain : ∀ c ∈ calls, c.metadata = none) (s : RunExecutionData) :
    ∃ new, (addNodes w s calls).after.nodeExecutionStack = new ++ s.nodeExecutionStack ∧
      ∀ executionData ∈ new, requestedSlots executionData = [] := by
  induction calls generalizing s with
  | nil => exact ⟨[], rfl, by simp⟩
  | cons c calls ih =>
    obtain ⟨first, stack, metadata⟩ := add_pushes v1 s c
    have waits : ∀ executionData ∈ first, requestedSlots executionData = [] := by
      intro executionData member
      have none_wanted : executionData.metadata = none := by
        rcases metadata executionData member with fresh | same
        · exact fresh
        · rw [same, plain c mem_cons_self]
      simp [requestedSlots, none_wanted]
    simp only [addNodes]
    split
    · exact ⟨first, stack, waits⟩
    · obtain ⟨rest, more, waitsRest⟩ :=
        ih (fun c' member => plain c' (mem_cons_of_mem _ member)) (addNodeToBeExecuted w s c).after
      refine ⟨rest ++ first, by rw [more, stack, append_assoc], ?_⟩
      intro executionData member
      rcases mem_append.mp member with here | there
      · exact waitsRest executionData here
      · exact waits executionData there

end

/-! ## Requests -/

structure Schedules (w : Workflow) (call : Delivery × SubNodeExecutionDataAction) : Prop where
  node : call.1.connectionData.node = call.2.nodeName
  slot : call.1.newRunIndex = some call.2.runIndex
  known : w.nodes.has call.2.nodeName
  plain : call.1.metadata.bind (·.subNodeExecutionData) = none

theorem prepareRequestedNodesForExecution_schedules (actions : List ExecuteNodeAction) (runData : IRunData)
    {nodes : List (Delivery × SubNodeExecutionDataAction)}
    (prepared : (prepareRequestedNodesForExecution mergedJson w currentNode runIndex executionData
      actions runData).2 = some nodes) : ∀ call ∈ nodes, Schedules w call := by
  induction actions generalizing runData nodes with
  | nil =>
    simp only [prepareRequestedNodesForExecution, some.injEq] at prepared
    simp [← prepared]
  | cons action actions ih =>
    simp only [prepareRequestedNodesForExecution] at prepared
    split at prepared
    · cases prepared
    · rename_i node found
      simp only [map_eq_some_iff] at prepared
      obtain ⟨rest, done, rfl⟩ := prepared
      intro call member
      rcases mem_cons.mp member with rfl | later
      · refine ⟨rfl, rfl, ?_, rfl⟩
        simp only [Workflow.getNode] at found
        simp [OrderedMap.has, prepareAction, found]
      · exact ih _ done call later

theorem addNodes_requested (v1 : w.executionOrder = some .v1)
    (nodes : List (Delivery × SubNodeExecutionDataAction)) (scheduled : ∀ call ∈ nodes, Schedules w call)
    (few : ∀ call ∈ nodes, numberOfInputs w call.2.nodeName ≤ 1) (s : RunExecutionData) :
    ∃ new, (addNodes w s (nodes.map Prod.fst)).after.nodeExecutionStack = new ++ s.nodeExecutionStack ∧
      (∀ executionData ∈ new, requestedSlots executionData = []) ∧
      ∀ call ∈ nodes, (call.2.nodeName, call.2.runIndex) ∈ new.flatMap slotOf := by
  induction nodes generalizing s with
  | nil => exact ⟨[], rfl, by simp, by simp⟩
  | cons call nodes ih =>
    have this_call := scheduled call mem_cons_self
    obtain ⟨main, source, stack, returned⟩ := add_direct v1 s call.1
      (by rw [this_call.node]; exact few call mem_cons_self)
      (by rw [this_call.node]; exact this_call.known)
    obtain ⟨rest, more, waits, filled⟩ := ih (fun other member => scheduled other (mem_cons_of_mem _ member))
      (fun other member => few other (mem_cons_of_mem _ member))
      (addNodeToBeExecuted w s call.1).after
    obtain ⟨node, found⟩ := isSome_iff_exists.mp this_call.known
    simp only [map_cons, addNodes, returned, Bool.false_eq_true, if_false]
    refine ⟨_, by rw [more, stack, append_cons], ?_, ?_⟩
    · intro executionData member
      rcases mem_append.mp member with later | here
      · exact waits executionData later
      · rw [mem_singleton.mp here]
        simp [requestedSlots, this_call.plain]
    · intro other member
      rw [flatMap_append]
      rcases mem_cons.mp member with rfl | later
      · refine mem_append_right _ ?_
        simp [slotOf, this_call.node, this_call.slot, found, w.named _ _ found]
      · exact mem_append_left _ (filled other later)

theorem handleEngineRequest_ordered (v1 : w.executionOrder = some .v1) {s : RunExecutionData} {request : EngineRequest}
    (few : ∀ action ∈ request.actions, numberOfInputs w action.nodeName ≤ 1)
    {done : List (String × ℕ)} (ordered : Ordered done s.nodeExecutionStack) :
    Ordered done (handleEngineRequest mergedJson w s currentNode request runIndex
      executionData).after.nodeExecutionStack := by
  unfold handleEngineRequest
  dsimp only
  cases handled : (handleRequest mergedJson w currentNode request runIndex executionData
      s.runData).nodesToBeExecuted with
  | none => exact ordered
  | some calls =>
    dsimp only
    cases calls with
    | nil => exact ordered
    | cons resume calls =>
      obtain ⟨nodes, prepared, rfl, resuming⟩ := handleRequest_cons mergedJson handled
      have names := prepareRequestedNodesForExecution_actions mergedJson _ _ prepared
      have scheduled := prepareRequestedNodesForExecution_schedules _ _ prepared
      have metadata := (prepareRequestingNodeForResuming_metadata resuming).2.2
      have fewNodes : ∀ call ∈ nodes, numberOfInputs w call.2.nodeName ≤ 1 := by
        intro call member
        have listed := mem_map_of_mem (f := fun node : Delivery × SubNodeExecutionDataAction =>
          (node.2.action, node.2.nodeName)) member
        rw [names, List.mem_map] at listed
        obtain ⟨action, inRequest, same⟩ := listed
        have name : action.nodeName = call.2.nodeName := congrArg Prod.snd same
        rw [← name]
        exact few action inRequest
      obtain ⟨resumed, stack, waits⟩ := add_pushes v1
        { s with runData := (handleRequest mergedJson w currentNode request runIndex executionData
            s.runData).runData } resume
      simp only [addNodes]
      split
      · rename_i threw
        rw [add_threw v1 threw]
        exact ordered
      · rename_i notThrew
        obtain ⟨requested, more, plain, filled⟩ := addNodes_requested v1 nodes scheduled fewNodes
          (addNodeToBeExecuted w { s with runData := (handleRequest mergedJson w currentNode request
            runIndex executionData s.runData).runData } resume).after
        rw [more, stack]
        refine .push_requested plain (.push ?_ (ordered.mono (subset_append_left _ _)))
        intro entry member slot wanted
        refine mem_append_right _ ?_
        rcases waits entry member with fresh | same
        · simp [requestedSlots, fresh] at wanted
        · simp only [requestedSlots, same, metadata, elim_some, List.map_map, List.mem_map] at wanted
          obtain ⟨call, inNodes, rfl⟩ := wanted
          exact filled call inNodes

/-! ## Over a run -/

def ResumesLast (s : LoopState) : Prop :=
  ∀ executionData rest, s.data.nodeExecutionStack = executionData :: rest →
    ∀ slot ∈ requestedSlots executionData, slot ∈ s.dequeued

/-- The order is `v1` and a request names nodes with at most one main input. -/
def RequestsOnTop (x : Execution) (_ : LoopState) (run : NodeRun) : Prop :=
  x.workflow.executionOrder = some .v1 ∧ ∀ request ∈ run.requests,
    ∀ action ∈ request.actions, numberOfInputs x.workflow action.nodeName ≤ 1

variable {x : Execution}

theorem ensureInputData_v1 (v1 : x.workflow.executionOrder = some .v1) (nodeName : String)
    (executionData : IExecuteData) : ensureInputData x nodeName executionData = true := by
  have current : x.workflow.isLegacyExecutionOrder = false := by
    simp [Workflow.isLegacyExecutionOrder, v1]
  let entry : StackEntry := ⟨OrderedMap.empty.set .main executionData.main, none, none, none, none⟩
  have main : entry.data.get .main = some executionData.main := OrderedMap.get_set_self _ _ _
  have same : (StackEntry.ensureInputData x nodeName entry []).1 = ensureInputData x nodeName executionData :=
    StackEntry.ensureInputData_fst main
  exact same.symm.trans (StackEntry.ensureInputData_current current main)

theorem scanWaiting_stack (fuel : ℕ) (s scanned : RunExecutionData) (done : scanWaiting x fuel s = some scanned) :
    ∃ new, scanned.nodeExecutionStack = s.nodeExecutionStack ++ new ∧
      ∀ executionData ∈ new, requestedSlots executionData = [] := by
  induction fuel generalizing s with
  | zero =>
    cases done
    exact ⟨[], by simp, by simp⟩
  | succ fuel ih =>
    simp only [scanWaiting] at done
    split at done
    · cases done
      exact ⟨[], by simp, by simp⟩
    · cases done
      exact ⟨[], by simp, by simp⟩
    · cases done
    · split at done
      · cases done
        exact ⟨[_], rfl, by simp [requestedSlots]⟩
      · have more := ih _ done
        exact more

theorem addNextNodes_stack (v1 : x.workflow.executionOrder = some .v1) {data data' : RunExecutionData}
    {calls : List Delivery} (plain : ∀ c ∈ calls, c.metadata = none) (done : addNextNodes x data calls = some data') :
    ∃ new, data'.nodeExecutionStack = new ++ data.nodeExecutionStack ∧
      ∀ executionData ∈ new, requestedSlots executionData = [] := by
  obtain ⟨new, stack, waits⟩ := addNodes_plain v1 calls plain data
  simp only [addNextNodes] at done
  split at done
  · cases done
  split at done
  · rename_i vacant
    obtain ⟨released, scanned, waitsReleased⟩ := scanWaiting_stack _ _ _ done
    have both : new = [] ∧ data.nodeExecutionStack = [] := by
      rw [stack, append_eq_nil_iff] at vacant
      exact vacant.1
    exact ⟨released, by rw [scanned, vacant.1, both.2]; simp, waitsReleased⟩
  · cases done
    exact ⟨new, stack, waits⟩

theorem finishNode_stack (v1 : x.workflow.executionOrder = some .v1) {s s' : LoopState} {nodeName : String}
    {nodeSuccessData : Option (List Slot)} {executionError : Bool}
    (done : finishNode x s executionData nodeName runIndex run nodeSuccessData executionError = some s') :
    s'.dequeued = s.dequeued ∧ ∃ new, s'.data.nodeExecutionStack = new ++ s.data.nodeExecutionStack ∧
        ∀ executionData ∈ new, requestedSlots executionData = [] := by
  simp only [finishNode, bind_eq_some_iff] at done
  obtain ⟨outputs, -, done⟩ := done
  split at done
  · cases done
  split at done
  · cases done
    exact ⟨rfl, [], rfl, by simp⟩
  · simp only [bind_eq_some_iff, map_eq_some_iff] at done
    obtain ⟨calls, next, data, added, rfl⟩ := done
    have plain : ∀ c ∈ calls, c.metadata = none := by
      simp only [nextCalls, ite_none_right_eq_some, some.injEq] at next
      intro c member
      rw [← next.2, List.mem_map] at member
      obtain ⟨_, _, rfl⟩ := member
      rfl
    have pushed := addNextNodes_stack v1 plain added
    exact ⟨rfl, pushed⟩

theorem Ordered.shift {s : LoopState} {rest : List IExecuteData}
    {executionNode : INode} (node : executionData.node = some executionNode)
    (ordered : Ordered s.dequeued (executionData :: rest)) :
    Ordered (s.dequeued ++
      [(executionNode.name, runIndexOf s.data.runData executionData executionNode.name)]) rest := by
  refine ordered.2.mono fun slot member => ?_
  rcases mem_append.mp member with before | here
  · exact mem_append_left _ before
  · refine mem_append_right _ ?_
    cases index : executionData.runIndex with
    | none => simp [slotOf, node, index] at here
    | some runIndex => simpa [slotOf, node, index, runIndexOf] using here

theorem failedTries_ordered (v1 : x.workflow.executionOrder = some .v1) {executionNode : INode}
    {requests : List EngineRequest} {data data' : RunExecutionData} {slots : List (String × ℕ)}
    (few : ∀ request ∈ requests, ∀ action ∈ request.actions, numberOfInputs x.workflow action.nodeName ≤ 1)
    (done : failedTries x executionNode runIndex executionData requests data = some data')
    (ordered : Ordered slots data.nodeExecutionStack) : Ordered slots data'.nodeExecutionStack := by
  induction requests generalizing data with
  | nil =>
    cases done
    exact ordered
  | cons request requests ih =>
    rw [forall_mem_cons] at few
    exact ih few.2 (ite_none_right_eq_some.mp done).2 (handleEngineRequest_ordered v1 few.1 ordered)

theorem iterate_ordered {s s' : LoopState}
    (ordered : Ordered s.dequeued s.data.nodeExecutionStack) (meets : RequestsOnTop x s run)
    (taken : iterate x s run = some s') : Ordered s'.dequeued s'.data.nodeExecutionStack := by
  obtain ⟨v1, few⟩ := meets
  unfold iterate at taken
  cases stack : s.data.nodeExecutionStack with
  | nil => simp [stack] at taken
  | cons executionData rest =>
    simp only [stack] at taken ordered
    obtain ⟨executionNode, node, taken⟩ := bind_eq_some_iff.mp taken
    have shifted := ordered.shift node
    split at taken
    · cases taken
    split at taken
    · cases taken
      exact shifted
    simp only [ensureInputData_v1 v1, Bool.not_true, Bool.false_eq_true, if_false] at taken
    obtain ⟨data, tried, taken⟩ := bind_eq_some_iff.mp taken
    unfold NodeRun.requests at few
    cases result : run.result with
    | noData =>
      simp only [result] at few taken
      cases taken
      exact failedTries_ordered v1 few tried shifted
    | request request =>
      simp only [result, forall_mem_append, forall_mem_singleton] at few
      simp only [result, ite_none_left_eq_some, some.injEq] at taken
      obtain ⟨-, rfl⟩ := taken
      exact handleEngineRequest_ordered v1 few.2 (failedTries_ordered v1 few.1 tried shifted)
    | finished nodeSuccessData executionError =>
      simp only [result] at few taken
      obtain ⟨dequeued, new, added, plain⟩ := finishNode_stack v1 taken
      rw [dequeued, added]
      refine .push (fun entry member => ?_) (failedTries_ordered v1 few tried shifted)
      simp [plain entry member]

theorem resumed_after_requested (x : Execution) (start : LoopState)
    (ordered : Ordered start.dequeued start.data.nodeExecutionStack) {s : LoopState}
    (reached : (loop x start).ReachableVia (RequestsOnTop x) s) : ResumesLast s := by
  have kept : Ordered s.dequeued s.data.nodeExecutionStack :=
    reached.invariant (P := fun s => Ordered s.dequeued s.data.nodeExecutionStack) ordered
      fun _ _ _ holds meets taken => iterate_ordered holds meets taken
  intro executionData rest stack
  rw [stack] at kept
  exact kept.1

/-! ## An agent that calls a tool -/

def agentExecution (order : ExecutionOrder) : Execution where
  workflow := agentWorkflow order
  info := fun _ => ⟨none, (0, 0), 1, none, false, none⟩
  runNodeFilter := none
  destinationNode := none
  mergedJson := fun _ _ => "{}"

def agentStart : LoopState := ⟨⟨.empty, [agentEntry], .empty⟩, none, false, []⟩

def asksForTool : NodeRun := ⟨.request toolRequest, emptyItem, false, none, []⟩

def toolAnswers : NodeRun :=
  ⟨.finished (some [.items [⟨"1"⟩]]) false, emptyItem, false, some .aiTool, []⟩

def checkOnTop (x : Execution) (run : NodeRun) : Bool :=
  x.workflow.executionOrder = some .v1 &&
    run.requests.all fun request => request.actions.all fun action => numberOfInputs x.workflow action.nodeName ≤ 1

theorem checkOnTop_sound (x : Execution) (s : LoopState) (run : NodeRun)
    (checked : checkOnTop x run = true) : RequestsOnTop x s run := by
  simp only [checkOnTop, Bool.and_eq_true, decide_eq_true_eq] at checked
  refine ⟨checked.1, fun request listed action member => ?_⟩
  have all := List.all_eq_true.mp checked.2 request listed
  simpa using List.all_eq_true.mp all action member

/-- In the order `v1` the tool runs first and `Agent` is next when it has run. -/
theorem agent_resumed_after_tool : ∃ s, (loop (agentExecution .v1) agentStart).Reachable s ∧ ResumesLast s ∧
      s.data.nodeExecutionStack.map requestedSlots = [[("Tool", 0)]] := by
  have start : (loop (agentExecution .v1) agentStart).ReachableVia
      (RequestsOnTop (agentExecution .v1)) agentStart := .init
  obtain ⟨s, reached, waits⟩ := TransitionSystem.reachableVia_runChecked
    (fun _ run => checkOnTop (agentExecution .v1) run)
    (fun s run => checkOnTop_sound (agentExecution .v1) s run) start [asksForTool, toolAnswers]
    (fun s => s.data.nodeExecutionStack.map requestedSlots = [[("Tool", 0)]]) (by decide)
  have last := resumed_after_requested (agentExecution .v1) agentStart ⟨by decide, trivial⟩ reached
  exact ⟨s, reached.reachable, last, of_decide_eq_true waits⟩

/-- In the legacy order `Agent` is resumed before `Tool` has run. -/
theorem agent_resumed_before_tool : ∃ s, (loop (agentExecution .v0) agentStart).Reachable s ∧ ¬ResumesLast s := by
  have start : (loop (agentExecution .v0) agentStart).Reachable agentStart := .initial
  obtain ⟨s, reached, waits⟩ := TransitionSystem.reachableVia_runChecked (fun _ _ => true)
    (fun _ _ _ => trivial) start [asksForTool]
    (fun s => s.data.nodeExecutionStack.head?.any fun executionData =>
      ("Tool", 0) ∈ requestedSlots executionData ∧ ("Tool", 0) ∉ s.dequeued) (by decide)
  refine ⟨s, reached, fun ordered => ?_⟩
  cases stack : s.data.nodeExecutionStack with
  | nil => simp [stack] at waits
  | cons executionData rest =>
    simp only [stack, head?_cons, any_some, decide_eq_true_eq] at waits
    exact waits.2 (ordered executionData rest stack _ waits.1)

end N8n.WorkflowExecute
