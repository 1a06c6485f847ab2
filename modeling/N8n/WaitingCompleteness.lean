import N8n.GraphExecutionStack
import N8n.WaitingInputs

/-! Whether an entry that goes on the stack has data for every connected input of its
node. `addNodeToBeExecuted` only looks for `null`, which `prepareWaitingToExecution`
puts in every input. The entries that `recreateNodeExecutionStack` restores have no
`null` at all, so the first delivery completes them whatever else is missing. -/

namespace N8n.WorkflowExecute

open List Option OrderedMap

/-- Every one of the `n` inputs has data or is marked as missing. -/
def Covers (n : ℕ) (entry : WaitingEntry) : Prop :=
  ∀ i < n, entry.main.getD i .undefined ≠ .undefined

/-- All of the `n` inputs have data, but for one at most. -/
def LacksAtMostOne (n : ℕ) (entry : WaitingEntry) : Prop :=
  ∃ missing, ∀ i < n, i ≠ missing → (entry.main.getD i .undefined).truthy = true

def Represented (w : Workflow) (waitingExecution : OrderedMap String (SparseArray WaitingEntry)) :
    Prop :=
  ∀ node waiting key entry, waitingExecution.get node = some waiting →
    waiting.get key = some entry → 1 < numberOfInputs w node →
      Covers (numberOfInputs w node) entry ∨ LacksAtMostOne (numberOfInputs w node) entry

/-! ## The entries that a call adds -/

def added (w : Workflow) (before after : List IExecuteData) : List IExecuteData :=
  if w.executionOrder = some .v1 then after.take (after.length - before.length)
  else after.drop before.length

def HasAllInputs (w : Workflow) (executionData : IExecuteData) : Prop :=
  ∀ node, executionData.node = some node → 1 < numberOfInputs w node.name →
    ∀ i < numberOfInputs w node.name, (executionData.main.getD i .undefined).truthy = true

def PushesComplete (w : Workflow) (s : RunExecutionData) (c : Delivery) : Prop :=
  ∀ executionData ∈ added w s.nodeExecutionStack (addNodeToBeExecuted w s c).after.nodeExecutionStack,
    HasAllInputs w executionData

theorem added_enqueueFn (w : Workflow) (stack : List IExecuteData) (item : IExecuteData) :
    added w stack (enqueueFn w stack item) = [item] := by
  unfold added enqueueFn
  split <;> simp

theorem added_self (w : Workflow) (stack : List IExecuteData) : added w stack stack = [] := by
  unfold added
  split <;> simp

variable {w : Workflow} {s : RunExecutionData} {c : Delivery}

theorem chosenEntry_cases (w : Workflow) (s : RunExecutionData) (c : Delivery) :
    ((chosenEntry w s c).main.getD c.connectionData.index .undefined).truthy = false ∧
      ((waitingOf s c.connectionData.node).get
          (waitingNodeIndex (waitingOf s c.connectionData.node) c.connectionData.index) = some (chosenEntry w s c) ∨
        chosenEntry w s c = emptyEntry (numberOfInputs w c.connectionData.node)) := by
  unfold chosenEntry preparedWaiting waitingNodeIndex
  cases found : partialEntry (waitingOf s c.connectionData.node) c.connectionData.index with
  | some key =>
    obtain ⟨entry, filled, lacks⟩ := SparseArray.findKey_some found
    simp only [Bool.not_eq_true'] at lacks
    simp only [found, isSome_some, if_true, getD_some, filled]
    exact ⟨lacks, .inl trivial⟩
  | none =>
    simp only [found, isSome_none, Bool.false_eq_true, if_false, getD_none,
      prepareWaitingToExecution, SparseArray.get_set_self, getD_some]
    refine ⟨?_, .inr trivial⟩
    simp only [emptyEntry, getD_eq_getElem?_getD, getElem?_replicate]
    split <;> rfl

theorem getD_ne_null_of_all {main : List Slot} (complete : main.all (· ≠ .null) = true) (i : ℕ) :
    main.getD i .undefined ≠ .null := by
  rw [getD_eq_getElem?_getD]
  cases found : main[i]? with
  | none => simp
  | some slot => simpa using List.all_eq_true.mp complete slot (mem_of_getElem? found)

theorem truthy_of_ne {slot : Slot} (defined : slot ≠ .undefined) (notNull : slot ≠ .null) : slot.truthy = true := by
  cases slot with
  | undefined => exact absurd rfl defined
  | null => exact absurd rfl notNull
  | items data => rfl

theorem addData_main_self (entry : WaitingEntry) (c : Delivery) :
    (addData entry c).main.getD c.connectionData.index .undefined = c.slot :=
  getD_assignAt_self _ _ _ _

theorem addData_main_ne (entry : WaitingEntry) (c : Delivery) {i : ℕ} (other : i ≠ c.connectionData.index) :
    (addData entry c).main.getD i .undefined = entry.main.getD i .undefined :=
  getD_assignAt_ne _ _ _ other

/-- The data goes to an input of the node and is not `undefined`. -/
structure Delivers (w : Workflow) (c : Delivery) : Prop where
  defined : c.slot ≠ .undefined
  input : c.connectionData.index < numberOfInputs w c.connectionData.node

variable {entry : WaitingEntry}

theorem addData_covers (delivers : Delivers w c) (kind : Covers (numberOfInputs w c.connectionData.node) entry ∨
      LacksAtMostOne (numberOfInputs w c.connectionData.node) entry)
    (lacks : (entry.main.getD c.connectionData.index .undefined).truthy = false) :
    Covers (numberOfInputs w c.connectionData.node) (addData entry c) := by
  intro i bound
  by_cases here : i = c.connectionData.index
  · rw [here, addData_main_self]
    exact delivers.defined
  · rw [addData_main_ne entry c here]
    rcases kind with covers | ⟨missing, all⟩
    · exact covers i bound
    · have only : missing = c.connectionData.index := by
        by_contra elsewhere
        rw [all _ delivers.input (Ne.symm elsewhere)] at lacks
        cases lacks
      have data := all i bound (by rw [only]; exact here)
      intro gone
      rw [gone] at data
      cases data

theorem emptyEntry_covers (n : ℕ) : Covers n (emptyEntry n) := by
  intro i bound
  simp [emptyEntry, bound]

variable {node : String} {key : ℕ}

theorem waitingOf_get (filled : (waitingOf s node).get key = some entry) :
    ∃ waiting, s.waitingExecution.get node = some waiting ∧ waiting.get key = some entry := by
  unfold waitingOf at filled
  cases found : s.waitingExecution.get node with
  | none => simp [found, SparseArray.get, SparseArray.empty] at filled
  | some waiting => exact ⟨waiting, rfl, by simpa [found] using filled⟩

theorem written_covers (represented : Represented w s.waitingExecution) (delivers : Delivers w c)
    (several : 1 < numberOfInputs w c.connectionData.node) :
    Covers (numberOfInputs w c.connectionData.node) (addData (chosenEntry w s c) c) := by
  obtain ⟨lacks, waits | fresh⟩ := chosenEntry_cases w s c
  · obtain ⟨waiting, found, filled⟩ := waitingOf_get waits
    exact addData_covers delivers (represented _ _ _ _ found filled several) lacks
  · exact addData_covers delivers (.inl (fresh ▸ emptyEntry_covers _)) lacks

/-! ## One call -/

/-- No node with several inputs is started beside a node that begins to wait. -/
def StartsSimple (w : Workflow) (s : RunExecutionData) (c : Delivery) : Prop :=
  s.waitingExecution.has c.connectionData.node = false → ∀ executionData ∈ added w s.nodeExecutionStack
        (checkSiblings w s.runData c s.nodeExecutionStack).1,
      ∀ node, executionData.node = some node → numberOfInputs w node.name ≤ 1

section

variable (represented : Represented w s.waitingExecution)
  (delivers : 1 < numberOfInputs w c.connectionData.node → Delivers w c)
include represented delivers

theorem pushesComplete_of_represented (simple : StartsSimple w s c) : PushesComplete w s c := by
  unfold PushesComplete
  by_cases several : 1 < numberOfInputs w c.connectionData.node
  · have covers := written_covers represented (delivers several) several
    obtain ⟨complete, stack, -⟩ | ⟨-, -, same | ⟨first, siblings⟩⟩ := add_several w s c several
    · rw [stack, added_enqueueFn]
      simp only [mem_singleton, forall_eq]
      intro node found _ i bound
      have name : node.name = c.connectionData.node := w.named _ _ found
      rw [name] at bound
      exact truthy_of_ne (covers i bound) (getD_ne_null_of_all complete i)
    · simp [same, added_self]
    · rw [siblings]
      intro executionData member node found more
      exact absurd more (Nat.not_lt.mpr (simple first executionData member node found))
  · simp only [addNodeToBeExecuted, several, if_false]
    split
    · rw [added_enqueueFn]
      simp only [mem_singleton, forall_eq]
      intro node found more
      rw [w.named _ _ found] at more
      exact absurd more several
    · simp [added_self]

theorem represented_after : Represented w (addNodeToBeExecuted w s c).after.waitingExecution := by
  by_cases several : 1 < numberOfInputs w c.connectionData.node
  · have covers := written_covers represented (delivers several) several
    -- the entries of the node are the old ones and the one that was written
    have own : ∀ key entry, (writtenWaiting w s c).get key = some entry →
        Covers (numberOfInputs w c.connectionData.node) entry ∨
          LacksAtMostOne (numberOfInputs w c.connectionData.node) entry := by
      intro key entry filled
      rw [writtenWaiting_get] at filled
      split at filled
      · cases filled
        exact .inl covers
      · obtain ⟨waiting, found, filled⟩ := waitingOf_get filled
        exact represented _ _ _ _ found filled several
    have kept : ∀ written : SparseArray WaitingEntry,
        (∀ key entry, written.get key = some entry → (writtenWaiting w s c).get key = some entry) →
        Represented w (s.waitingExecution.set c.connectionData.node written) := by
      intro written part node waiting key entry found filled more
      rw [get_set] at found
      split at found
      · rename_i same
        cases found
        rw [same]
        exact own key entry (part key entry filled)
      · exact represented node waiting key entry found filled more
    obtain ⟨-, -, waiting⟩ | ⟨-, waiting, -⟩ := add_several w s c several
    · rw [waiting]
      split
      · intro node waiting key entry found filled more
        exact represented node waiting key entry (get_delete_some _ found) filled more
      · refine kept _ fun key entry filled => ?_
        by_cases same : key = waitingNodeIndex (waitingOf s c.connectionData.node) c.connectionData.index
        · rw [same, SparseArray.get_delete_self] at filled
          cases filled
        · rwa [SparseArray.get_delete_ne _ same] at filled
    · rw [waiting]
      exact kept _ fun _ _ filled => filled
  · have same : (addNodeToBeExecuted w s c).after.waitingExecution = s.waitingExecution := by
      simp only [addNodeToBeExecuted, several, if_false]
      split <;> rfl
    rw [same]
    exact represented

end

/-! ## Runs of calls -/

def deliveries (w : Workflow) (start : RunExecutionData) : TransitionSystem RunExecutionData Delivery where
  init := start
  step s c :=
    if w.nodes.has c.connectionData.node then some (addNodeToBeExecuted w s c).after else none

def ProperCall (w : Workflow) (s : RunExecutionData) (c : Delivery) : Prop :=
  (1 < numberOfInputs w c.connectionData.node → Delivers w c) ∧ StartsSimple w s c

variable {start s' : RunExecutionData}

theorem deliveries_step (taken : (deliveries w start).step s c = some s') : s' = (addNodeToBeExecuted w s c).after := by
  simp only [deliveries, ite_none_right_eq_some, some.injEq] at taken
  exact taken.2.symm

theorem pushes_complete (represented : Represented w s.waitingExecution)
    (calls : List Delivery) (proper : (deliveries w start).AllSteps (ProperCall w) s calls) :
    (deliveries w start).AllSteps (PushesComplete w) s calls := by
  induction calls generalizing s with
  | nil => trivial
  | cons c calls ih =>
    intro s' taken
    obtain ⟨⟨delivers, simple⟩, rest⟩ := proper s' taken
    refine ⟨pushesComplete_of_represented represented delivers simple, ih ?_ rest⟩
    rw [deliveries_step taken]
    exact represented_after represented delivers

/-! ## An entry that lacks two inputs -/

def toInput (node : String) (input : ℕ) : Delivery :=
  ⟨⟨node, .main, input⟩, 0, "", some [.items []], 0, none, none⟩

theorem chosenEntry_waits (filled : (waitingOf s c.connectionData.node).get key = some entry)
    (lacks : (entry.main.getD c.connectionData.index .undefined).truthy = false) :
    (waitingOf s c.connectionData.node).get
      (waitingNodeIndex (waitingOf s c.connectionData.node) c.connectionData.index) = some (chosenEntry w s c) ∧
    preparedWaiting (waitingOf s c.connectionData.node) (numberOfInputs w c.connectionData.node)
      c.connectionData.index = waitingOf s c.connectionData.node := by
  unfold chosenEntry preparedWaiting waitingNodeIndex
  cases found : partialEntry (waitingOf s c.connectionData.node) c.connectionData.index with
  | none =>
    rw [(partialEntry_eq_none_iff _ _).mp found key entry filled] at lacks
    cases lacks
  | some first =>
    obtain ⟨other, here, -⟩ := SparseArray.findKey_some found
    simp [found, here]

theorem waitingOf_after (several : 1 < numberOfInputs w c.connectionData.node) {held : ℕ}
    (filled : (waitingOf s c.connectionData.node).get held = some entry)
    (lacks : (entry.main.getD c.connectionData.index .undefined).truthy = false)
    (complete : (addData (chosenEntry w s c) c).main.all (· ≠ .null) = true) :
    let key := waitingNodeIndex (waitingOf s c.connectionData.node) c.connectionData.index
    let after := waitingOf (addNodeToBeExecuted w s c).after c.connectionData.node
    (∀ other ≠ key, after.get other = (waitingOf s c.connectionData.node).get other) ∧ after.get key = none ∧
      (waitingOf s c.connectionData.node).total (fun _ => 1) = after.total (fun _ => 1) + 1 := by
  intro key after
  have others : ∀ other ≠ key, ((writtenWaiting w s c).delete key).get other =
      (waitingOf s c.connectionData.node).get other := by
    intro other different
    rw [SparseArray.get_delete_ne _ different, writtenWaiting_get, if_neg different]
  have size : (waitingOf s c.connectionData.node).total (fun _ => 1) =
      ((writtenWaiting w s c).delete key).total (fun _ => 1) + 1 := by
    obtain ⟨waits, prepared⟩ := chosenEntry_waits (w := w) filled lacks
    have same : writtenWaiting w s c = (preparedWaiting (waitingOf s c.connectionData.node)
        (numberOfInputs w c.connectionData.node) c.connectionData.index).set key (addData (chosenEntry w s c) c) := rfl
    rw [prepared] at same
    have written := SparseArray.total_set (fun _ => 1) (waitingOf s c.connectionData.node) key
      (addData (chosenEntry w s c) c)
    have deleted := SparseArray.total_delete (fun _ => 1) (writtenWaiting w s c) key
    rw [waits, elim_some, ← same] at written
    rw [writtenWaiting_get, if_pos rfl, elim_some] at deleted
    omega
  obtain ⟨-, -, waiting⟩ | ⟨incomplete, -⟩ := add_several w s c several
  · by_cases vacant : ((writtenWaiting w s c).delete key).values.isEmpty = true
    · have gone : after = .empty := by
        rw [if_pos vacant] at waiting
        show ((addNodeToBeExecuted w s c).after.waitingExecution.get _).getD .empty = _
        rw [waiting, get_delete_self]
        rfl
      have nothing : ∀ other, ((writtenWaiting w s c).delete key).get other = none := by
        intro other
        cases found : ((writtenWaiting w s c).delete key).get other with
        | none => rfl
        | some entry =>
          have member := SparseArray.mem_values_of_get found
          rw [List.isEmpty_iff.mp vacant] at member
          cases member
      refine ⟨fun other different => ?_, ?_, ?_⟩
      · rw [← others other different, nothing, gone]
        rfl
      · rw [gone]
        rfl
      · rw [size, SparseArray.total_of_values_nil _ (List.isEmpty_iff.mp vacant), gone]
        rfl
    · have kept : after = (writtenWaiting w s c).delete key := by
        rw [if_neg vacant] at waiting
        show ((addNodeToBeExecuted w s c).after.waitingExecution.get _).getD .empty = _
        rw [waiting, get_set_self]
        rfl
      rw [kept]
      exact ⟨others, SparseArray.get_delete_self _ _, size⟩
  · exact absurd complete (by rw [incomplete]; exact Bool.false_ne_true)

variable {input : ℕ}

theorem toInput_completes (noNull : ∀ key entry, (waitingOf s node).get key = some entry → Slot.null ∉ entry.main)
    (filled : (waitingOf s node).get key = some entry) (lacks : (entry.main.getD input .undefined).truthy = false) :
    (addData (chosenEntry w s (toInput node input)) (toInput node input)).main.all (· ≠ .null) = true := by
  have waits := (chosenEntry_waits (w := w) (c := toInput node input) filled lacks).1
  refine List.all_eq_true.mpr fun slot member => ?_
  rcases mem_assignAt member with old | rfl | rfl
  · have notNull : slot ≠ .null := fun isNull => noNull _ _ waits (isNull ▸ old)
    simpa using notNull
  · rfl
  · rfl

theorem toInput_after (several : 1 < numberOfInputs w node)
    (noNull : ∀ key entry, (waitingOf s node).get key = some entry → Slot.null ∉ entry.main)
    (filled : (waitingOf s node).get key = some entry)
    (lacks : (entry.main.getD input .undefined).truthy = false) :
    let taken := waitingNodeIndex (waitingOf s node) input
    let after := waitingOf (addNodeToBeExecuted w s (toInput node input)).after node
    (waitingOf s node).get taken = some (chosenEntry w s (toInput node input)) ∧
      (∀ other ≠ taken, after.get other = (waitingOf s node).get other) ∧ after.get taken = none ∧
      (waitingOf s node).total (fun _ => 1) = after.total (fun _ => 1) + 1 :=
  ⟨(chosenEntry_waits (c := toInput node input) filled lacks).1,
    waitingOf_after (c := toInput node input) several filled lacks (toInput_completes noNull filled lacks)⟩

theorem toInput_pushes {node : INode} (known : w.nodes.get node.name = some node)
    (several : 1 < numberOfInputs w node.name) (complete : (addData (chosenEntry w s (toInput node.name input))
      (toInput node.name input)).main.all (· ≠ .null) = true) (pushes : PushesComplete w s (toInput node.name input)) :
    ∀ i < numberOfInputs w node.name, i ≠ input →
      ((chosenEntry w s (toInput node.name input)).main.getD i .undefined).truthy = true := by
  obtain ⟨-, stack, -⟩ | ⟨incomplete, -⟩ := add_several w s (toInput node.name input) several
  · intro i bound other
    unfold PushesComplete at pushes
    rw [stack, added_enqueueFn] at pushes
    have all := pushes _ (mem_singleton_self _) node known several i bound
    rwa [addData_main_ne _ _ (by exact other)] at all
  · exact absurd complete (by rw [incomplete]; exact Bool.false_ne_true)

theorem exists_incomplete_push (start : RunExecutionData) {node : INode} {other : ℕ}
    (known : w.nodes.get node.name = some node) (several : 1 < numberOfInputs w node.name)
    (inputBound : input < numberOfInputs w node.name) (otherBound : other < numberOfInputs w node.name)
    (different : other ≠ input) (entries : ℕ) (s : RunExecutionData)
    (size : (waitingOf s node.name).total (fun _ => 1) = entries)
    (noNull : ∀ key entry, (waitingOf s node.name).get key = some entry → Slot.null ∉ entry.main)
    (filled : (waitingOf s node.name).get key = some entry) (lacks : (entry.main.getD input .undefined).truthy = false)
    (lacksOther : (entry.main.getD other .undefined).truthy = false) :
    ∃ calls, (deliveries w start).AllSteps (ProperCall w) s calls ∧
      ¬(deliveries w start).AllSteps (PushesComplete w) s calls := by
  induction entries generalizing s with
  | zero =>
    have fewer := (toInput_after several noNull filled lacks).2.2.2
    omega
  | succ entries ih =>
    have complete := toInput_completes (w := w) noNull filled lacks
    obtain ⟨waits, others, gone, fewer⟩ := toInput_after several noNull filled lacks
    have taken : (deliveries w start).step s (toInput node.name input) =
        some (addNodeToBeExecuted w s (toInput node.name input)).after := by
      simp [deliveries, toInput, OrderedMap.has, known]
    have proper : ProperCall w s (toInput node.name input) := by
      refine ⟨fun _ => ⟨by simp [Delivery.slot, toInput], inputBound⟩, fun first => ?_⟩
      obtain ⟨waiting, found, -⟩ := waitingOf_get filled
      simp [toInput, OrderedMap.has, found] at first
    by_cases pushes : PushesComplete w s (toInput node.name input)
    · -- the entry that was completed lacked this input only, so it is another one
      have full := toInput_pushes known several complete pushes other otherBound different
      have elsewhere : key ≠ waitingNodeIndex (waitingOf s node.name) input := by
        intro same
        have chosen : some entry = some (chosenEntry w s (toInput node.name input)) := by
          rw [← filled, same, waits]
        cases chosen
        rw [full] at lacksOther
        cases lacksOther
      obtain ⟨calls, properRest, incomplete⟩ :=
        ih (addNodeToBeExecuted w s (toInput node.name input)).after (by omega) (fun other entry found => by
            by_cases same : other = waitingNodeIndex (waitingOf s node.name) input
            · rw [same, gone] at found
              cases found
            · exact noNull other entry ((others other same).symm.trans found))
          ((others key elsewhere).trans filled)
      refine ⟨toInput node.name input :: calls, fun s' step => ?_, fun all => ?_⟩
      · rw [taken, some.injEq] at step
        exact ⟨proper, step ▸ properRest⟩
      · exact incomplete (all _ taken).2
    · refine ⟨[toInput node.name input], fun s' _ => ⟨proper, trivial⟩, fun all => ?_⟩
      exact pushes (all _ taken).1

/-! ## The restored entries -/

section Restored

open PartialExecution (RecreatedStack ExecuteData SourceData Items RunData PinData GraphNode)

def sourceOf (data : SourceData) : ISourceData := ⟨data.previousNode, data.previousNodeOutput, data.previousNodeRun⟩

def restoredExecuteData (executeData : ExecuteData) : IExecuteData :=
  ⟨some ⟨executeData.node.name⟩, executeData.data.map .items,
    (executeData.source.getD []).map fun data => some (sourceOf data), none, none⟩

/-- Where an array has a hole, an input is undefined. -/
def restoredEntry (data : OrderedMap NodeConnectionType (List (Option Items)))
    (source : OrderedMap NodeConnectionType (List (Option SourceData))) : WaitingEntry :=
  ⟨((data.get .main).getD []).map fun items => items.elim .undefined .items,
    ((source.get .main).getD []).map fun data => data.map sourceOf⟩

def restoredWaiting (s : RecreatedStack) : OrderedMap String (SparseArray WaitingEntry) :=
  s.waitingExecution.mapKeyed fun nodeName runs => .ofEntries (runs.entries.map fun entry =>
    (entry.1, restoredEntry entry.2 ((((s.waitingExecutionSource.get nodeName).getD .empty).get entry.1).getD .empty)))

/-- Output that is `null` is no more data than none. -/
def restoredRunData (runData : RunData) : IRunData :=
  runData.mapValues fun runs => runs.map fun task =>
    ⟨task.data.map fun data => data.mapValues fun outputs => outputs.map (·.getD [])⟩

/-- The state from which the engine goes on. `none` where an entry has no `main` array, at which the
engine throws with the first delivery. -/
def restore (runData : RunData) (s : RecreatedStack) : Option RunExecutionData :=
  if s.waitingExecution.values.all fun runs => runs.values.all (·.has .main) then
    some ⟨restoredRunData runData, s.nodeExecutionStack.map restoredExecuteData, restoredWaiting s⟩
  else none

/-- Restored entries belong to start nodes and have no `null`. -/
def Restored (startNodes : List GraphNode) (waitingExecution : OrderedMap String (SparseArray WaitingEntry)) : Prop :=
  ∀ node waiting key entry, waitingExecution.get node = some waiting →
    waiting.get key = some entry → (∃ startNode ∈ startNodes, startNode.name = node) ∧ Slot.null ∉ entry.main

variable {localeLE : String → String → Bool} {graph : PartialExecution.DirectedGraph} {runData : RunData}
  {pinData : PinData} {startNodes : List GraphNode} {recreated : RecreatedStack} {start : RunExecutionData}

theorem waiting_of_recreated
    (done : PartialExecution.recreateNodeExecutionStack localeLE graph startNodes runData pinData = .ok recreated) :
    ∀ name, recreated.waitingExecution.has name = true → ∃ startNode ∈ startNodes, startNode.name = name := by
  let Known (s : RecreatedStack) : Prop :=
    ∀ name, s.waitingExecution.has name = true → ∃ startNode ∈ startNodes, startNode.name = name
  rw [PartialExecution.recreateNodeExecutionStack] at done
  split_ifs at done
  refine foldlM_ok_invariant (I := Known) (fun startNode listed s next before step => ?_) (fun name has => ?_) done
  swap
  · simp [OrderedMap.has] at has
  obtain ⟨parents, _, step⟩ := bind_eq_ok.mp step
  dsimp only at step
  split at step
  · obtain rfl := Except.ok.inj step
    exact before
  refine foldlM_ok_invariant (I := Known) (fun group _ s next before step => ?_) before step
  rw [PartialExecution.addGroup] at step
  split at step
  · obtain ⟨_, _, step⟩ := bind_eq_ok.mp step
    obtain rfl := Except.ok.inj step
    exact before
  refine foldlM_ok_invariant (I := Known) (fun c _ s next before step => ?_) before step
  obtain ⟨first, _, step⟩ := bind_eq_ok.mp step
  cases first with
  | none =>
    obtain rfl := Except.ok.inj step
    exact before
  | some first =>
    obtain rfl := Except.ok.inj step
    intro name has
    rw [PartialExecution.addWaitingExecution, OrderedMap.has, get_set] at has
    split at has
    · next same => exact ⟨startNode, listed, same.symm⟩
    · exact before name has

theorem restored_of_recreated
    (done : PartialExecution.recreateNodeExecutionStack localeLE graph startNodes runData pinData = .ok recreated)
    (restored : restore runData recreated = some start) : Restored startNodes start.waitingExecution := by
  rw [restore] at restored
  split_ifs at restored
  obtain rfl := some.inj restored
  intro node waiting key entry found filled
  rw [restoredWaiting, get_mapKeyed] at found
  obtain ⟨runs, known, rfl⟩ := Option.map_eq_some_iff.mp found
  refine ⟨waiting_of_recreated done node (by rw [OrderedMap.has, known]; rfl), ?_⟩
  obtain ⟨_, member⟩ := SparseArray.mem_of_get_ofEntries filled
  obtain ⟨⟨_, data⟩, _, same⟩ := List.mem_map.mp member
  obtain ⟨rfl, rfl⟩ := Prod.mk.inj same
  intro null
  obtain ⟨items, _, isNull⟩ := List.mem_map.mp null
  cases items <;> cases isNull

end Restored

/-! ## Restoring a merge -/

open PartialExecution in
/-- The graph of the sources, which feed the inputs of the merging node in their order. -/
def mergeGraph (sources : List GraphNode) (merge : GraphNode) : PartialExecution.DirectedGraph :=
  (sources.zipIdx.map fun (source, input) => ⟨source, merge, .main, 0, input⟩).foldl DirectedGraph.setConnection
    (DirectedGraph.empty.addNodes (sources ++ [merge]))

/-- Only `A` ran. -/
def mergeRunData : PartialExecution.RunData :=
  OrderedMap.empty.set "A" [⟨false, some (OrderedMap.empty.set .main [some [⟨"1"⟩]])⟩]

def recreatedMerge : PartialExecution.RecreatedStack :=
  ⟨[], OrderedMap.empty.set "Merge" (OrderedMap.empty.set 0 (OrderedMap.empty.set .main [some [⟨"1"⟩]])),
    OrderedMap.empty.set "Merge" (OrderedMap.empty.set 0 (OrderedMap.empty.set .main [some ⟨"A", 0, 0⟩]))⟩

/-- `Merge` waits with the data of `A`. -/
def mergeWaits : RunExecutionData :=
  ⟨restoredRunData mergeRunData, [],
    OrderedMap.empty.set "Merge" (SparseArray.empty.set 0 ⟨[.items [⟨"1"⟩]], [some ⟨"A", 0, 0⟩]⟩)⟩

/-- The start node is `Merge`, which the sources feed. -/
def RestoresMerge (sources : List String) : Prop :=
  let nodes := (sources.zipIdx.map fun (source, i) => PartialExecution.plainNode i source)
  let merge := PartialExecution.plainNode sources.length "Merge"
  PartialExecution.recreateNodeExecutionStack (· ≤ ·) (mergeGraph nodes merge) [merge] mergeRunData .empty =
    .ok recreatedMerge ∧ restore mergeRunData recreatedMerge = some mergeWaits

theorem mergeWaits_get {waiting : SparseArray WaitingEntry}
    (found : mergeWaits.waitingExecution.get node = some waiting) (filled : waiting.get key = some entry) :
    node = "Merge" ∧ entry = ⟨[.items [⟨"1"⟩]], [some ⟨"A", 0, 0⟩]⟩ := by
  simp only [mergeWaits, get_set, get_empty] at found
  split at found
  · rename_i same
    cases found
    by_cases first : key = 0
    · rw [first, SparseArray.get_set_self] at filled
      cases filled
      exact ⟨same, rfl⟩
    · rw [SparseArray.get_set_ne _ _ first] at filled
      cases filled
  · cases found

theorem mergeWaits_proper (inputs : 1 < numberOfInputs w "Merge") : ProperCall w mergeWaits (toMerge "B" 1 "2") := by
  refine ⟨fun _ => ⟨by decide, inputs⟩, fun first => ?_⟩
  exact absurd first (by decide)

/-- `A`, `B` and `C` feed the three inputs of `Merge`. -/
def mergeOfThree : Workflow where
  nodes := ⟨[("A", ⟨"A"⟩), ("B", ⟨"B"⟩), ("C", ⟨"C"⟩), ("Merge", ⟨"Merge"⟩)], by decide⟩
  named := Workflow.named_of_entries (by decide)
  connectionsBySourceNode := ⟨[
    ("A", ⟨[(.main, [some [⟨"Merge", .main, 0⟩]])], main_alone⟩),
    ("B", ⟨[(.main, [some [⟨"Merge", .main, 1⟩]])], main_alone⟩),
    ("C", ⟨[(.main, [some [⟨"Merge", .main, 2⟩]])], main_alone⟩)], by decide⟩
  connectionsByDestinationNode := ⟨[
    ("Merge", ⟨[(.main, [some [⟨"A", .main, 0⟩], some [⟨"B", .main, 0⟩], some [⟨"C", .main, 0⟩]])],
      main_alone⟩)], by decide⟩
  executionOrder := some .v1

end N8n.WorkflowExecute
