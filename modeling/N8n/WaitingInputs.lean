import Mathlib.Algebra.Order.Group.Multiset
import Mathlib.Tactic.Abel
import N8n.AddNodeToBeExecuted

/-! What becomes of the inputs handed to a node that waits for several of them.
`holdings` counts each list of items once for every place that holds it: a waiting
entry of the node, or an entry for the node on the stack, at a given input.
A call adds the list it delivers to the holdings and takes away the entry it
overwrites. A new entry is stored under the present number of entries, and since
completed entries are deleted from the middle that number may be a key in use. -/

namespace N8n.WorkflowExecute

open List Option

abbrev Holding := ℕ × List INodeExecutionData

def slotHeld (index : ℕ) : Slot → Multiset Holding
  | .items data => {(index, data)}
  | .null => 0
  | .undefined => 0

def mainHeld (main : List Slot) : Multiset Holding := weigh slotHeld 0 main

def waitingOf (s : RunExecutionData) (node : String) : SparseArray WaitingEntry :=
  (s.waitingExecution.get node).getD .empty

def waitingHeld (s : RunExecutionData) (node : String) : Multiset Holding :=
  (waitingOf s node).total fun entry => mainHeld entry.main

def itemHeld (node : String) (item : IExecuteData) : Multiset Holding :=
  if item.node.map (·.name) = some node then mainHeld item.main else 0

def stackHeld (node : String) (stack : List IExecuteData) : Multiset Holding :=
  (stack.map (itemHeld node)).sum

def holdings (s : RunExecutionData) (node : String) : Multiset Holding :=
  waitingHeld s node + stackHeld node s.nodeExecutionStack

def delivered (c : Delivery) : Multiset Holding := slotHeld c.connectionData.index c.slot

/-- The input of an entry that starts a node which received nothing. -/
def emptyStart : Multiset Holding := {(0, [emptyItem])}

/-- Every waiting entry of the node already has data for the input, and the number
of these entries is the key of one of them. -/
def OverwritesEntry (s : RunExecutionData) (c : Delivery) : Prop :=
  let waiting := waitingOf s c.connectionData.node
  (∀ key entry, waiting.get key = some entry → (entry.main.getD c.connectionData.index .undefined).truthy) ∧
  (waiting.get waiting.values.length).isSome

def overwritten (s : RunExecutionData) (c : Delivery) : Multiset Holding :=
  let waiting := waitingOf s c.connectionData.node
  if (partialEntry waiting c.connectionData.index).isSome then 0
  else (waiting.get waiting.values.length).elim 0 fun entry => mainHeld entry.main

@[simp] theorem slotHeld_null (index : ℕ) : slotHeld index .null = 0 := rfl

@[simp] theorem slotHeld_undefined (index : ℕ) : slotHeld index .undefined = 0 := rfl

theorem slotHeld_of_not_truthy {index : ℕ} {slot : Slot} (h : slot.truthy = false) : slotHeld index slot = 0 := by
  cases slot <;> first | rfl | cases h

theorem mainHeld_assign (main : List Slot) (index : ℕ) (slot : Slot) :
    mainHeld (assignAt .undefined main index slot) + slotHeld index (main.getD index .undefined) =
      mainHeld main + slotHeld index slot := by
  simpa [mainHeld] using weigh_assignAt slotHeld .undefined slotHeld_undefined 0 main index slot

theorem mainHeld_empty (n : ℕ) : mainHeld (emptyEntry n).main = 0 :=
  weigh_replicate slotHeld .null slotHeld_null 0 n

theorem stackHeld_enqueue (w : Workflow) (node : String) (stack : List IExecuteData) (item : IExecuteData) :
    stackHeld node (enqueueFn w stack item) = stackHeld node stack + itemHeld node item := by
  unfold enqueueFn stackHeld
  split
  · simp [add_comm]
  · simp

theorem sublist_enqueue (w : Workflow) (stack : List IExecuteData) (item : IExecuteData) :
    stack.Sublist (enqueueFn w stack item) := by
  unfold enqueueFn
  split
  · exact sublist_cons_self _ _
  · exact sublist_append_left _ _

/-! ## The nodes started beside a waiting node -/

theorem startItem_held (w : Workflow) (c : Delivery) (node name : String) :
    ∃ k : ℕ, itemHeld node (startItem w c name) = k • emptyStart := by
  unfold itemHeld
  split
  · refine ⟨1, ?_⟩
    rw [one_nsmul]
    simp [startItem, mainHeld, weigh, slotHeld, emptyStart]
  · exact ⟨0, (zero_nsmul _).symm⟩

/-- `stack'` is `stack` with nodes started beside it. -/
def StartsBeside (node : String) (stack stack' : List IExecuteData) : Prop :=
  (∃ k : ℕ, stackHeld node stack' = stackHeld node stack + k • emptyStart) ∧ stack.Sublist stack'

theorem StartsBeside.refl (node : String) (stack : List IExecuteData) : StartsBeside node stack stack :=
  ⟨⟨0, by rw [zero_nsmul, add_zero]⟩, Sublist.refl _⟩

theorem StartsBeside.trans {node : String} {first second third : List IExecuteData}
    (h : StartsBeside node first second) (g : StartsBeside node second third) : StartsBeside node first third := by
  obtain ⟨⟨k, hk⟩, hs⟩ := h
  obtain ⟨⟨l, hl⟩, gs⟩ := g
  exact ⟨⟨k + l, by rw [hl, hk, add_nsmul, add_assoc]⟩, hs.trans gs⟩

theorem checkInput_starts {w : Workflow} {runData : IRunData} {c : Delivery}
    {outputNodes : List String} {stack stack' : List IExecuteData} {inputData : IConnection}
    (h : checkInput w runData c outputNodes stack inputData = some stack') (node : String) :
    StartsBeside node stack stack' := by
  simp only [checkInput, map_eq_some_iff] at h
  obtain ⟨nodeToAdd, _, rfl⟩ := h
  cases nodeToAdd with
  | none => exact .refl node stack
  | some name =>
    obtain ⟨k, hk⟩ := startItem_held w c node name
    exact ⟨⟨k, by simp only [elim_some, stackHeld_enqueue, hk]⟩, sublist_enqueue ..⟩

theorem checkInputs_starts (w : Workflow) (runData : IRunData) (c : Delivery)
    (outputNodes : List String) (inputs : List IConnection) (stack : List IExecuteData) (node : String) :
    StartsBeside node stack (checkInputs w runData c outputNodes inputs stack).1 := by
  induction inputs generalizing stack with
  | nil => exact .refl node stack
  | cons inputData rest ih =>
    simp only [checkInputs]
    split
    · exact .refl node stack
    · rename_i stack' started
      exact (checkInput_starts started node).trans (ih stack')

theorem checkSiblings_starts (w : Workflow) (runData : IRunData) (c : Delivery)
    (stack : List IExecuteData) (node : String) : StartsBeside node stack (checkSiblings w runData c stack).1 := by
  unfold checkSiblings
  split
  · exact .refl node stack
  · exact checkInputs_starts ..

/-! ## The balance of a call -/

theorem partialEntry_eq_none_iff (waiting : SparseArray WaitingEntry) (index : ℕ) :
    partialEntry waiting index = none ↔ ∀ key entry, waiting.get key = some entry →
      (entry.main.getD index .undefined).truthy := by
  constructor
  · intro none key entry filled
    simpa using SparseArray.findKey_none none filled
  · intro all
    by_contra found
    obtain ⟨key, hkey⟩ := ne_none_iff_exists'.mp found
    obtain ⟨entry, filled, lacks⟩ := SparseArray.findKey_some hkey
    rw [all key entry filled] at lacks
    cases lacks

theorem mainHeld_pos_of_truthy {main : List Slot} {index : ℕ}
    (h : (main.getD index .undefined).truthy) : mainHeld main ≠ 0 := by
  intro zero
  have balance := congrArg Multiset.card (mainHeld_assign main index .null)
  rw [zero, slotHeld_null] at balance
  cases slot : main.getD index .undefined with
  | items data =>
    rw [slot] at balance
    simp [slotHeld] at balance
  | null => rw [slot] at h; cases h
  | undefined => rw [slot] at h; cases h

/-- Nothing is overwritten exactly when the condition on the state says so. -/
theorem overwritten_eq_zero_iff (s : RunExecutionData) (c : Delivery) :
    overwritten s c = 0 ↔ ¬ OverwritesEntry s c := by
  simp only [overwritten, OverwritesEntry]
  rw [← partialEntry_eq_none_iff]
  set waiting := waitingOf s c.connectionData.node
  cases found : partialEntry waiting c.connectionData.index with
  | some key => simp
  | none =>
    cases here : waiting.get waiting.values.length with
    | none => simp
    | some entry =>
      have full := (partialEntry_eq_none_iff ..).mp found _ entry here
      simpa using mainHeld_pos_of_truthy full

/-- The waiting entries after the new data is added, before a complete one leaves. -/
def writtenWaiting (w : Workflow) (s : RunExecutionData) (c : Delivery) :
    SparseArray WaitingEntry :=
  let waiting := waitingOf s c.connectionData.node
  let prepared := preparedWaiting waiting (numberOfInputs w c.connectionData.node) c.connectionData.index
  let key := waitingNodeIndex waiting c.connectionData.index
  prepared.set key (addData ((prepared.get key).getD ⟨[], []⟩) c)

theorem addData_held (entry : WaitingEntry) (c : Delivery)
    (lacks : (entry.main.getD c.connectionData.index .undefined).truthy = false) :
    mainHeld (addData entry c).main = mainHeld entry.main + delivered c := by
  have assigned := mainHeld_assign entry.main c.connectionData.index c.slot
  rwa [slotHeld_of_not_truthy lacks, add_zero] at assigned

theorem emptyEntry_lacks (n index : ℕ) : ((emptyEntry n).main.getD index .undefined).truthy = false := by
  by_cases inside : index < n
  · simp [emptyEntry, inside, Slot.truthy]
  · simp [emptyEntry, inside, Slot.truthy]

/-- Adding the data changes what the waiting entries hold by the new data and by the
entry that is overwritten. -/
theorem writtenWaiting_held (w : Workflow) (s : RunExecutionData) (c : Delivery) :
    (writtenWaiting w s c).total (fun entry => mainHeld entry.main) + overwritten s c =
      waitingHeld s c.connectionData.node + delivered c := by
  simp only [writtenWaiting, waitingHeld, overwritten, preparedWaiting, waitingNodeIndex]
  set waiting := waitingOf s c.connectionData.node
  cases found : partialEntry waiting c.connectionData.index with
  | some key =>
    obtain ⟨old, filled, lacks⟩ := SparseArray.findKey_some found
    have written := SparseArray.total_set (fun entry => mainHeld entry.main) waiting key (addData old c)
    rw [filled, elim_some, addData_held old c (by simpa using lacks),
      add_comm (mainHeld old.main), ← add_assoc] at written
    simpa [filled] using add_right_cancel written
  | none =>
    set n := numberOfInputs w c.connectionData.node
    have written := SparseArray.total_set (fun entry => mainHeld entry.main) waiting
      waiting.values.length (addData (emptyEntry n) c)
    rw [addData_held (emptyEntry n) c (emptyEntry_lacks n _), mainHeld_empty, zero_add] at written
    simpa [prepareWaitingToExecution] using written

/-- The entry that takes the data before it is written, and its key. -/
def chosenEntry (w : Workflow) (s : RunExecutionData) (c : Delivery) : WaitingEntry :=
  let waiting := waitingOf s c.connectionData.node
  let index := c.connectionData.index
  ((preparedWaiting waiting (numberOfInputs w c.connectionData.node) index).get
    (waitingNodeIndex waiting index)).getD ⟨[], []⟩

theorem writtenWaiting_get (w : Workflow) (s : RunExecutionData) (c : Delivery) (key : ℕ) :
    (writtenWaiting w s c).get key =
      if key = waitingNodeIndex (waitingOf s c.connectionData.node) c.connectionData.index
      then some (addData (chosenEntry w s c) c)
      else (waitingOf s c.connectionData.node).get key := by
  unfold writtenWaiting chosenEntry
  split
  · rename_i same
    rw [same, SparseArray.get_set_self]
  · rename_i different
    rw [SparseArray.get_set_ne _ _ different]
    unfold preparedWaiting
    split
    · rfl
    · exact SparseArray.get_set_ne _ _ different

section

variable (w : Workflow) (s : RunExecutionData) (c : Delivery) (several : 1 < numberOfInputs w c.connectionData.node)
include w s c several

/-- A call for a node with several inputs: the entry has no `null` and moves to the
stack, or it stays and nodes may be started beside it. -/
theorem add_several :
    let node := c.connectionData.node
    let key := waitingNodeIndex (waitingOf s node) c.connectionData.index
    let entry := addData (chosenEntry w s c) c
    let after := (addNodeToBeExecuted w s c).after
    (entry.main.all (· ≠ .null) = true ∧ after.nodeExecutionStack = enqueueFn w s.nodeExecutionStack
        ⟨w.nodes.get node, entry.main, entry.source, none, none⟩ ∧
      after.waitingExecution = if ((writtenWaiting w s c).delete key).values.isEmpty
        then s.waitingExecution.delete node
        else s.waitingExecution.set node ((writtenWaiting w s c).delete key)) ∨
    (entry.main.all (· ≠ .null) = false ∧ after.waitingExecution = s.waitingExecution.set node (writtenWaiting w s c) ∧
      (after.nodeExecutionStack = s.nodeExecutionStack ∨ s.waitingExecution.has node = false ∧
          after.nodeExecutionStack = (checkSiblings w s.runData c s.nodeExecutionStack).1)) := by
  intro node key entry after
  cases complete : entry.main.all (· ≠ .null) with
  | true =>
    refine .inl ⟨rfl, ?_⟩
    simp only [after, addNodeToBeExecuted, several, if_true]
    rw [if_pos]
    · exact ⟨rfl, rfl⟩
    · exact complete
  | false =>
    refine .inr ⟨rfl, ?_⟩
    have incomplete : ¬entry.main.all (· ≠ .null) = true := by
      rw [complete]
      exact Bool.false_ne_true
    simp only [after, addNodeToBeExecuted, several, if_true]
    rw [if_neg]
    · cases was : s.waitingExecution.has node with
      | true =>
        refine ⟨?_, .inl rfl⟩
        simp only [if_true, Bool.false_eq_true, if_false, prepareWaitingToExecution,
          SparseArray.set_set, addData, assignAt_assignAt]
        rfl
      | false =>
        simp only [Bool.false_eq_true, if_false]
        split
        · exact ⟨rfl, .inr ⟨trivial, rfl⟩⟩
        · refine ⟨?_, .inr ⟨trivial, rfl⟩⟩
          simp only [prepareWaitingToExecution, SparseArray.set_set, addData, assignAt_assignAt]
          rfl
    · exact incomplete

theorem add_balance (known : w.nodes.has c.connectionData.node) :
    ∃ k : ℕ, holdings (addNodeToBeExecuted w s c).after c.connectionData.node + overwritten s c =
        holdings s c.connectionData.node + delivered c + k • emptyStart ∧
      (s.waitingExecution.has c.connectionData.node → k = 0) := by
  have written := writtenWaiting_held w s c
  obtain ⟨_, stack, waiting⟩ | ⟨_, waiting, stack⟩ := add_several w s c several
  · set key := waitingNodeIndex (waitingOf s c.connectionData.node) c.connectionData.index
    set entry := addData (chosenEntry w s c) c
    refine ⟨0, ?_, fun _ => rfl⟩
    obtain ⟨target, htarget⟩ := isSome_iff_exists.mp known
    have own : itemHeld c.connectionData.node ⟨w.nodes.get c.connectionData.node, entry.main,
        entry.source, none, none⟩ = mainHeld entry.main := by
      simp [itemHeld, htarget, w.named _ _ htarget]
    have deleted := SparseArray.total_delete (fun entry => mainHeld entry.main) (writtenWaiting w s c) key
    rw [writtenWaiting_get, if_pos rfl, elim_some] at deleted
    have rest : waitingHeld (addNodeToBeExecuted w s c).after c.connectionData.node =
        ((writtenWaiting w s c).delete key).total fun entry => mainHeld entry.main := by
      simp only [waitingHeld, waitingOf, waiting]
      split
      · rename_i vacant
        rw [SparseArray.total_of_values_nil _ (List.isEmpty_iff.mp vacant)]
        simp
      · simp
    rw [zero_nsmul, add_zero, holdings, holdings, rest, stack, stackHeld_enqueue, own]
    calc
      _ = (((writtenWaiting w s c).delete key).total (fun entry => mainHeld entry.main) +
            mainHeld entry.main + overwritten s c) +
          stackHeld c.connectionData.node s.nodeExecutionStack := by abel
      _ = _ := by rw [deleted, written]; abel
  · have held : waitingHeld (addNodeToBeExecuted w s c).after c.connectionData.node =
        (writtenWaiting w s c).total fun entry => mainHeld entry.main := by
      simp [waitingHeld, waitingOf, waiting]
    have started : ∃ k : ℕ, stackHeld c.connectionData.node (addNodeToBeExecuted w s c).after.nodeExecutionStack =
          stackHeld c.connectionData.node s.nodeExecutionStack + k • emptyStart ∧
        (s.waitingExecution.has c.connectionData.node → k = 0) := by
      rcases stack with same | ⟨first, siblings⟩
      · exact ⟨0, by rw [same, zero_nsmul, add_zero], fun _ => rfl⟩
      · obtain ⟨⟨k, hk⟩, _⟩ := checkSiblings_starts w s.runData c s.nodeExecutionStack c.connectionData.node
        exact ⟨k, by rw [siblings, hk], fun was => by simp [first] at was⟩
    obtain ⟨k, hk, none⟩ := started
    refine ⟨k, ?_, none⟩
    rw [holdings, holdings, held, hk]
    calc
      _ = ((writtenWaiting w s c).total (fun entry => mainHeld entry.main) + overwritten s c) +
          (stackHeld c.connectionData.node s.nodeExecutionStack + k • emptyStart) := by abel
      _ = _ := by rw [written]; abel

/-- Calls for one node leave the holdings of the others alone, but for nodes that
are started with an empty item. -/
theorem add_frame {node : String} (other : node ≠ c.connectionData.node) :
    ∃ k : ℕ, holdings (addNodeToBeExecuted w s c).after node = holdings s node + k • emptyStart := by
  have waits : waitingHeld (addNodeToBeExecuted w s c).after node = waitingHeld s node := by
    simp only [waitingHeld, waitingOf]
    obtain ⟨_, _, waiting⟩ | ⟨_, waiting, _⟩ := add_several w s c several
    · rw [waiting]
      split
      · rw [OrderedMap.get_delete_ne _ other]
      · rw [OrderedMap.get_set_ne _ _ other]
    · rw [waiting, OrderedMap.get_set_ne _ _ other]
  obtain ⟨_, stack, _⟩ | ⟨_, _, same | ⟨_, siblings⟩⟩ := add_several w s c several
  · refine ⟨0, ?_⟩
    set entry := addData (chosenEntry w s c) c
    have foreign : itemHeld node ⟨w.nodes.get c.connectionData.node, entry.main, entry.source, none, none⟩ = 0 := by
      cases target : w.nodes.get c.connectionData.node with
      | none => simp [itemHeld]
      | some found => simp [itemHeld, w.named _ _ target, Ne.symm other]
    rw [holdings, holdings, waits, stack, stackHeld_enqueue, foreign]
    simp
  · exact ⟨0, by rw [holdings, holdings, waits, same]; simp⟩
  · obtain ⟨⟨k, hk⟩, _⟩ := checkSiblings_starts w s.runData c s.nodeExecutionStack node
    exact ⟨k, by rw [holdings, holdings, waits, siblings, hk, add_assoc]⟩

theorem add_keeps_stack : s.nodeExecutionStack.Sublist (addNodeToBeExecuted w s c).after.nodeExecutionStack := by
  obtain ⟨_, stack, _⟩ | ⟨_, _, same | ⟨_, siblings⟩⟩ := add_several w s c several
  · rw [stack]
    exact sublist_enqueue ..
  · rw [same]
  · rw [siblings]
    exact (checkSiblings_starts w s.runData c s.nodeExecutionStack c.connectionData.node).2

end

/-! ## Runs -/

/-- After the call every list held before is still held by the same number of places,
the delivered list by one more, and the stack has lost no entry. Nodes that were
started with an empty item come on top. -/
def KeepsInputs (w : Workflow) (s : RunExecutionData) (c : Delivery) : Prop :=
  let node := c.connectionData.node
  let after := (addNodeToBeExecuted w s c).after
  s.nodeExecutionStack.Sublist after.nodeExecutionStack ∧
  ∃ k : ℕ, holdings after node = holdings s node + delivered c + k • emptyStart

theorem keepsInputs_iff (w : Workflow) (s : RunExecutionData) (c : Delivery)
    (several : 1 < numberOfInputs w c.connectionData.node) (known : w.nodes.has c.connectionData.node) :
    KeepsInputs w s c ↔ ¬ OverwritesEntry s c := by
  rw [← overwritten_eq_zero_iff]
  obtain ⟨k, balance, first⟩ := add_balance w s c several known
  constructor
  · rintro ⟨_, l, kept⟩
    by_cases was : s.waitingExecution.has c.connectionData.node
    · rw [first was, zero_nsmul, add_zero, kept] at balance
      have size := congrArg Multiset.card balance
      simp only [Multiset.card_add] at size
      rw [← Multiset.card_eq_zero]
      omega
    · -- without waiting entries there is nothing to overwrite
      have vacant : waitingOf s c.connectionData.node = .empty := by
        simp only [OrderedMap.has, not_isSome_iff_eq_none] at was
        simp [waitingOf, was]
      simp [overwritten, vacant, SparseArray.get, SparseArray.empty]
  · intro safe
    rw [safe, add_zero] at balance
    exact ⟨add_keeps_stack w s c several, k, balance⟩

/-- Any sequence of calls for known nodes with several connected inputs. -/
def system (w : Workflow) (start : RunExecutionData) : TransitionSystem RunExecutionData Delivery where
  init := start
  step s c :=
    if w.nodes.has c.connectionData.node ∧ 1 < numberOfInputs w c.connectionData.node then
      some (addNodeToBeExecuted w s c).after
    else none

def deliveredTo (node : String) (calls : List Delivery) : Multiset Holding :=
  ((calls.filter (·.connectionData.node = node)).map delivered).sum

theorem run_balance (w : Workflow) (start : RunExecutionData) (node : String)
    (calls : List Delivery) {s t : RunExecutionData}
    (safe : (system w start).AllSteps (fun s c => ¬ OverwritesEntry s c) s calls)
    (done : (system w start).runFrom s calls = some t) :
    ∃ k : ℕ, holdings t node = holdings s node + deliveredTo node calls + k • emptyStart := by
  induction calls generalizing s with
  | nil =>
    simp only [TransitionSystem.runFrom, some.injEq] at done
    exact ⟨0, by simp [done, deliveredTo]⟩
  | cons c calls ih =>
    simp only [TransitionSystem.runFrom, bind_eq_some_iff] at done
    obtain ⟨s', taken, rest⟩ := done
    obtain ⟨free, later⟩ := safe s' taken
    obtain ⟨l, tail⟩ := ih later rest
    simp only [system, ite_none_right_eq_some, some.injEq] at taken
    obtain ⟨⟨known, several⟩, rfl⟩ := taken
    by_cases own : c.connectionData.node = node
    · subst own
      obtain ⟨_, k, head⟩ := (keepsInputs_iff w s c several known).mpr free
      refine ⟨k + l, ?_⟩
      rw [tail, head, add_nsmul]
      simp only [deliveredTo, filter_cons, decide_true, if_true, map_cons, sum_cons]
      abel
    · obtain ⟨k, head⟩ := add_frame w s c several (Ne.symm own)
      refine ⟨k + l, ?_⟩
      rw [tail, head, add_nsmul]
      simp only [deliveredTo, filter_cons, own, decide_false, Bool.false_eq_true, if_false]
      abel

/-- In every state that a sequence of calls reaches, the next call keeps all inputs
exactly when it overwrites no entry. A run of such calls ends with everything that
was delivered to a node still waiting for it or handed to it. -/
theorem inputs_kept_iff_no_overwrite (w : Workflow) (start s : RunExecutionData)
    (calls : List Delivery) (done : (system w start).run calls = some s) :
    (∀ c s', (system w start).step s c = some s' → (KeepsInputs w s c ↔ ¬ OverwritesEntry s c)) ∧
    ((system w start).AllSteps (fun s c => ¬ OverwritesEntry s c) start calls → ∀ node, ∃ k : ℕ,
        holdings s node = holdings start node + deliveredTo node calls + k • emptyStart) := by
  constructor
  · intro c s' taken
    simp only [system, ite_none_right_eq_some] at taken
    exact keepsInputs_iff w s c taken.1.2 taken.1.1
  · intro safe node
    exact run_balance w start node calls safe done

/-! ## A merge of two branches -/

theorem names_apart : ["A", "B", "Merge"].Nodup := by decide

/-- `A` feeds the first and `B` the second input of `Merge`. -/
def mergeWorkflow : Workflow where
  nodes := ⟨[("A", ⟨"A"⟩), ("B", ⟨"B"⟩), ("Merge", ⟨"Merge"⟩)], names_apart⟩
  named := Workflow.named_of_entries (by decide)
  connectionsBySourceNode := ⟨[
    ("A", ⟨[(.main, [some [⟨"Merge", .main, 0⟩]])], main_alone⟩),
    ("B", ⟨[(.main, [some [⟨"Merge", .main, 1⟩]])], main_alone⟩)], by decide⟩
  connectionsByDestinationNode := ⟨[
    ("Merge", ⟨[(.main, [some [⟨"A", .main, 0⟩], some [⟨"B", .main, 0⟩]])], main_alone⟩)], by decide⟩
  executionOrder := some .v1

def startState : RunExecutionData := ⟨.empty, [], .empty⟩

/-- One item from the first output of `parent` for the given input of `Merge`. -/
def toMerge (parent : String) (input : ℕ) (json : String) : Delivery :=
  ⟨⟨"Merge", .main, input⟩, 0, parent, some [.items [⟨json⟩]], 0, none, none⟩

theorem inputs_kept_on_merge : ∃ s, (system mergeWorkflow startState).run [toMerge "A" 0 "1"] = some s ∧
      KeepsInputs mergeWorkflow s (toMerge "B" 1 "2") := by
  have done : (system mergeWorkflow startState).run [toMerge "A" 0 "1"] =
      some (addNodeToBeExecuted mergeWorkflow startState (toMerge "A" 0 "1")).after := by rfl
  refine ⟨_, done, ?_⟩
  refine ((inputs_kept_iff_no_overwrite _ _ _ _ done).1 (toMerge "B" 1 "2") _ rfl).mpr ?_
  rw [← overwritten_eq_zero_iff]
  rfl

/-- `A` runs twice, `B` once and completes the first entry, so that the only entry
left has key 1. The third output of `A` is stored over it. -/
theorem input_lost_by_overwrite : ∃ s, (system mergeWorkflow startState).run
        [toMerge "A" 0 "1", toMerge "A" 0 "2", toMerge "B" 1 "3"] = some s ∧
      (0, [⟨"2"⟩]) ∈ waitingHeld s "Merge" ∧
      (0, [⟨"2"⟩]) ∉ holdings (addNodeToBeExecuted mergeWorkflow s (toMerge "A" 0 "4")).after "Merge" := by
  refine ⟨_, rfl, ?_, ?_⟩
  · decide
  · decide

end N8n.WorkflowExecute
