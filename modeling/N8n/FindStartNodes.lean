import N8n.AddNodeToBeExecuted
import N8n.ExceptFold
import N8n.GraphTraversal

/-! Where a partial execution starts: the traversal from the trigger along outputs that have
data, up to nodes that have to run again. It copies the set of nodes it has seen at every
branch, so it goes along all paths without repetitions, and those reach whatever is reached
at all. Reading data of a run by a connection type that the run does not have throws. -/

namespace N8n.PartialExecution

open PartialExecution.DirectedGraph PartialExecution.GraphConnection List
open Option hiding or_assoc

abbrev Items := List WorkflowExecute.INodeExecutionData

/-- What is thrown: by `assert`, or by the engine of the language. -/
inductive Failure
  | assertion
  | typeError
  deriving DecidableEq

def asserted {α : Type*} : Option α → Except Failure α
  | none => .error .assertion
  | some result => .ok result

@[simp] theorem asserted_some_bind {α β : Type} {value : α} {f : α → Except Failure β} :
    (asserted (some value) >>= f) = f value := rfl

@[simp] theorem asserted_none_bind {α β : Type} {f : α → Except Failure β} :
    (asserted none >>= f) = .error .assertion := rfl

/-- Whether a run of a node failed, and its outputs by connection type; one may be `null`. -/
structure TaskData where
  error : Bool
  data : Option (OrderedMap NodeConnectionType (List (Option Items)))
  deriving DecidableEq

abbrev RunData := OrderedMap String (List TaskData)

abbrev PinData := OrderedMap String Items

/-- `Array.prototype.at`: a negative index counts from the end. -/
def arrayAt {α : Type*} (xs : List α) (index : ℤ) : Option α :=
  if 0 ≤ index then xs[index.toNat]?
  else if (-index).toNat ≤ xs.length then xs[xs.length - (-index).toNat]? else none

/-- `runData[nodeName]?.at(runIndex)?.data?.[connectionType].at(outputIndex) ?? null`, which
throws where there are data but none of the type. -/
def getIncomingData (runData : RunData) (nodeName : String) (runIndex : ℤ)
    (connectionType : NodeConnectionType) (outputIndex : ℕ) : Except Failure (Option Items) :=
  match ((runData.get nodeName).bind (arrayAt · runIndex)).bind (·.data) with
  | none => .ok none
  | some data =>
    match data.get connectionType with
    | none => .error .typeError
    | some outputs => .ok outputs[outputIndex]?.join

def getRunIndexLength (runData : RunData) (nodeName : String) : ℕ := (runData.get nodeName).elim 0 List.length

/-- The loop over the runs that are left from `runIndex` on. -/
def firstRunWithData (runData : RunData) (nodeName : String) (connectionType : NodeConnectionType)
    (outputIndex : ℕ) : (left runIndex : ℕ) → Except Failure (Option (Items × ℕ))
  | 0, _ => .ok none
  | left + 1, runIndex => do
    match ← getIncomingData runData nodeName runIndex connectionType outputIndex with
    | some (item :: items) => .ok (some (item :: items, runIndex))
    | _ => firstRunWithData runData nodeName connectionType outputIndex left (runIndex + 1)

def getIncomingDataFromAnyRun (runData : RunData) (nodeName : String)
    (connectionType : NodeConnectionType) (outputIndex : ℕ) : Except Failure (Option (Items × ℕ)) :=
  firstRunWithData runData nodeName connectionType outputIndex (getRunIndexLength runData nodeName) 0

/-- Changed properties and disabled parents are not looked at yet. -/
def isDirty (node : GraphNode) (runData : RunData) (pinData : PinData) : Bool :=
  let hasAnError := (runData.get node.name).elim false (·.any (·.error))
  if hasAnError then true
  else
    let hasPinnedData := pinData.has node.name
    if hasPinnedData then false
    else
      let hasRunData := runData.has node.name
      if hasRunData then false else true

def isALoop (graph : DirectedGraph) (node : GraphNode) : Except Failure Bool := do
  let children ← asserted (graph.getChildren node)
  return decide (node ∈ children)

def splitInBatches : String := "n8n-nodes-base.splitInBatches"

/-- Whether the current node is a loop node whose `done` output has no data on the last run. -/
def loopNotDone (graph : DirectedGraph) (runData : RunData) (current : GraphNode) : Except Failure Bool :=
  if current.type = splitInBatches then do
    let aLoop ← isALoop graph current
    let nodeRunData ← getIncomingData runData current.name (-1) .main (if aLoop then 0 else 1)
    return nodeRunData = none || (nodeRunData.getD []).length = 0
  else .ok false

/-- `Set.prototype.add`. -/
def addToSet (nodes : List GraphNode) (node : GraphNode) : List GraphNode :=
  if node ∈ nodes then nodes else nodes ++ [node]

/-- A call below a node seen before ends, so `fuel` does not run out when it exceeds the
number of nodes. -/
def findStartNodesRecursive (graph : DirectedGraph) (destination : GraphNode) (runData : RunData)
    (pinData : PinData) : (fuel : ℕ) → (current : GraphNode) → (startNodes seen : List GraphNode) →
    Except Failure (List GraphNode)
  | 0, _, startNodes, _ => .ok startNodes
  | fuel + 1, current, startNodes, seen =>
    if isDirty current runData pinData then .ok (addToSet startNodes current)
    else if current = destination then .ok (addToSet startNodes current)
    else do
      if ← loopNotDone graph runData current then .ok (addToSet startNodes current)
      else if current ∈ seen then .ok startNodes
      else do
        let outGoingConnections ← asserted (graph.getDirectChildConnections current)
        outGoingConnections.foldlM (fun startNodes outGoingConnection => do
          let nodeRunData ← getIncomingDataFromAnyRun runData outGoingConnection.fromNode.name
            outGoingConnection.type outGoingConnection.outputIndex
          let hasNoRunData := nodeRunData.all (·.1.length = 0)
          let hasNoPinnedData := !pinData.has outGoingConnection.fromNode.name
          if hasNoRunData && hasNoPinnedData then .ok startNodes
          else
            findStartNodesRecursive graph destination runData pinData fuel outGoingConnection.toNode startNodes
              (addToSet seen current)) startNodes

def findStartNodes (graph : DirectedGraph) (trigger destination : GraphNode) (pinData : PinData)
    (runData : RunData) : Except Failure (List GraphNode) :=
  findStartNodesRecursive graph destination runData pinData (graph.getNodes.length + 1) trigger [] []

/-! ## Reading run data -/

section Reading

variable {task : TaskData} {type : NodeConnectionType} {output : ℕ} {runData : RunData} {name : String}
  {runs : List TaskData}

def TaskData.HasData (task : TaskData) (type : NodeConnectionType) (output : ℕ) : Prop :=
  ∃ data outputs item items, task.data = some data ∧ data.get type = some outputs ∧
    outputs[output]? = some (some (item :: items))

def TaskData.HasType (task : TaskData) (type : NodeConnectionType) : Prop :=
  ∀ data, task.data = some data → (data.get type).isSome

def TaskData.read (task : TaskData) (type : NodeConnectionType) (output : ℕ) : Except Failure (Option Items) :=
  match task.data with
  | none => .ok none
  | some data =>
    match data.get type with
    | none => .error .typeError
    | some outputs => .ok outputs[output]?.join

theorem read_ok : (∃ items, task.read type output = .ok items) ↔ task.HasType type := by
  rw [TaskData.read, TaskData.HasType]
  cases task.data with
  | none => simp
  | some data => cases found : data.get type <;> simp [found]

theorem read_hasData {items : Option Items} (done : task.read type output = .ok items) :
    task.HasData type output ↔ ∃ first rest, items = some (first :: rest) := by
  rw [TaskData.read] at done
  cases found : task.data with
  | none =>
    rw [found] at done
    obtain rfl := Except.ok.inj done
    simp [TaskData.HasData, found]
  | some data =>
    cases ofType : data.get type with
    | none => simp [found, ofType] at done
    | some outputs =>
      simp only [found, ofType, Except.ok.injEq] at done
      subst done
      simp [TaskData.HasData, found, ofType, join_eq_some_iff]

def HasRunData (runData : RunData) (name : String) (type : NodeConnectionType) (output : ℕ) : Prop :=
  ∃ runs, runData.get name = some runs ∧ ∃ task ∈ runs, task.HasData type output

/-- Up to the first run in which the output has items, the runs with data have the type. -/
def Searchable (type : NodeConnectionType) (output : ℕ) : List TaskData → Prop
  | [] => True
  | task :: rest => task.HasType type ∧ (¬task.HasData type output → Searchable type output rest)

theorem getIncomingData_eq (found : runData.get name = some runs) {index : ℕ} (inside : index < runs.length) :
    getIncomingData runData name index type output = runs[index].read type output := by
  have here : arrayAt runs index = some runs[index] := by simp [arrayAt, inside]
  rw [getIncomingData, found, bind_some, here]
  rfl

theorem firstRunWithData_spec (found : runData.get name = some runs) (left index : ℕ)
    (all : runs.length = index + left) :
    ((∃ first, firstRunWithData runData name type output left index = .ok first) ↔
        Searchable type output (runs.drop index)) ∧
      ∀ first, firstRunWithData runData name type output left index = .ok first →
        (first.all (·.1.length = 0) = false ↔ ∃ task ∈ runs.drop index, task.HasData type output) := by
  induction left generalizing index with
  | zero =>
    have nothing : runs.drop index = [] := drop_eq_nil_of_le (by omega)
    rw [nothing]
    simp [firstRunWithData, Searchable]
  | succ left ih =>
    have inside : index < runs.length := by omega
    obtain ⟨searched, exactly⟩ := ih (index + 1) (by omega)
    have hasType : (∃ items, runs[index].read type output = .ok items) ↔ runs[index].HasType type := read_ok
    simp only [drop_eq_getElem_cons inside, firstRunWithData, getIncomingData_eq found inside, Searchable,
      exists_mem_cons_iff, bind_eq_ok]
    cases done : runs[index].read type output with
    | error thrown =>
      rw [done] at hasType
      simp [← hasType]
    | ok items =>
      have typed : runs[index].HasType type := hasType.mp ⟨items, done⟩
      have hasData := read_hasData done
      match items with
      | none | some [] =>
        have noData : ¬runs[index].HasData type output := by simp [hasData]
        simp only [Except.ok.injEq, exists_eq_left', searched, typed, noData, not_false_eq_true, forall_const,
          true_and, false_or]
        exact exactly
      | some (item :: items) =>
        have data : runs[index].HasData type output := hasData.mpr ⟨item, items, rfl⟩
        simp only [Except.ok.injEq, exists_eq_left', exists_eq', typed, data, not_true_eq_false, false_implies, and_self,
          true_or, iff_true, true_and]
        rintro first rfl
        simp

/-- Whether the search through the runs of an output succeeds, and what it says. -/
theorem getIncomingDataFromAnyRun_spec : ((∃ first, getIncomingDataFromAnyRun runData name type output = .ok first) ↔
        ∀ runs, runData.get name = some runs → Searchable type output runs) ∧
      ∀ first, getIncomingDataFromAnyRun runData name type output = .ok first →
        (first.all (·.1.length = 0) = false ↔ HasRunData runData name type output) := by
  cases found : runData.get name with
  | none => simp [getIncomingDataFromAnyRun, getRunIndexLength, found, firstRunWithData, HasRunData]
  | some runs =>
    have spec : (_ ↔ Searchable type output (runs.drop 0)) ∧ _ := firstRunWithData_spec found runs.length 0 (by omega)
    rw [drop_zero] at spec
    simpa [getIncomingDataFromAnyRun, getRunIndexLength, found, HasRunData] using spec

def LastRunHasData (runData : RunData) (name : String) (output : ℕ) : Prop :=
  ∃ runs task, runData.get name = some runs ∧ runs.getLast? = some task ∧ task.HasData .main output

theorem arrayAt_last {α : Type*} (xs : List α) : arrayAt xs (-1) = xs.getLast? := by
  cases xs with
  | nil => rfl
  | cons x xs => simp [arrayAt, getLast?_eq_getElem?]

theorem getIncomingData_last : ((∃ items, getIncomingData runData name (-1) .main output = .ok items) ↔
        ∀ runs, runData.get name = some runs → ∀ task, runs.getLast? = some task → task.HasType .main) ∧
      ∀ items, getIncomingData runData name (-1) .main output = .ok items →
        ((items = none || (items.getD []).length = 0) = true ↔ ¬LastRunHasData runData name output) := by
  cases found : runData.get name with
  | none => simp [getIncomingData, found, LastRunHasData]
  | some runs =>
    cases last : runs.getLast? with
    | none => simp [getIncomingData, found, arrayAt_last, last, LastRunHasData]
    | some task =>
      have same : getIncomingData runData name (-1) .main output = task.read .main output := by
        simp only [getIncomingData, found, arrayAt_last, last, TaskData.read, bind_some]
      rw [same, read_ok]
      refine ⟨by simp [last], fun items done => ?_⟩
      have hasData : LastRunHasData runData name output ↔ task.HasData .main output := by
        simp [LastRunHasData, found, last]
      rw [hasData, read_hasData done]
      match items with
      | none => simp
      | some [] => simp
      | some (item :: items) => simp

end Reading

/-! ## The frontier -/

section Frontier

variable {graph : DirectedGraph} {trigger destination current n : GraphNode} {runData : RunData} {pinData : PinData}
  {startNodes seen result : List GraphNode} {cs : List GraphConnection} {c : GraphConnection} {fuel : ℕ}

/-- The output of a loop node that tells whether the loop is done: the first one, or the
second one where nothing leads back to the node. -/
def DoneOutput (graph : DirectedGraph) (n : GraphNode) (output : ℕ) : Prop :=
  Descends graph n n ∧ output = 0 ∨ ¬Descends graph n n ∧ output = 1

def LoopNotDone (graph : DirectedGraph) (runData : RunData) (n : GraphNode) : Prop :=
  n.type = splitInBatches ∧ ∃ output, DoneOutput graph n output ∧ ¬LastRunHasData runData n.name output

def Stopping (graph : DirectedGraph) (destination : GraphNode) (runData : RunData) (pinData : PinData)
    (n : GraphNode) : Prop :=
  isDirty n runData pinData = true ∨ n = destination ∨ LoopNotDone graph runData n

def Live (runData : RunData) (pinData : PinData) (c : GraphConnection) : Prop :=
  HasRunData runData c.fromNode.name c.type c.outputIndex ∨ pinData.has c.fromNode.name = true

/-- A path of live connections whose earlier nodes do not have to run again. -/
structure Reusable (graph : DirectedGraph) (destination : GraphNode) (runData : RunData) (pinData : PinData)
    (current : GraphNode) (cs : List GraphConnection) (n : GraphNode) : Prop where
  trail : ConnectionTrail graph current cs n
  live : ∀ c ∈ cs, Live runData pinData c
  passes : ∀ c ∈ cs, ¬Stopping graph destination runData pinData c.fromNode

/-- Nodes the traversal looks at are stored, and what it reads at a node has the connection
type that is asked for. -/
structure Readable (graph : DirectedGraph) (destination : GraphNode) (runData : RunData) (pinData : PinData)
    (n : GraphNode) : Prop where
  loop : isDirty n runData pinData = false → n ≠ destination → n.type = splitInBatches → StoresBelow graph n ∧
    ∀ runs, runData.get n.name = some runs → ∀ task, runs.getLast? = some task → task.HasType .main
  stored : ¬Stopping graph destination runData pinData n → graph.Stores n
  outputs : ¬Stopping graph destination runData pinData n → ∀ c ∈ graph.getConnections, c.fromNode = n →
    ∀ runs, runData.get n.name = some runs → Searchable c.type c.outputIndex runs

theorem asserted_eq_ok {α : Type*} {returned : Option α} {value : α} :
    asserted returned = .ok value ↔ returned = some value := by
  cases returned <;> simp [asserted]

theorem loopNotDone_spec {answer : Bool} (done : loopNotDone graph runData n = .ok answer) :
    answer = true ↔ LoopNotDone graph runData n := by
  rw [loopNotDone] at done
  split at done
  · rename_i isLoop
    obtain ⟨aLoop, asked, done⟩ := bind_eq_ok.mp done
    obtain ⟨items, read, same⟩ := bind_eq_ok.mp done
    obtain ⟨children, found, isChild⟩ := bind_eq_ok.mp asked
    obtain rfl := Except.ok.inj isChild
    obtain rfl := Except.ok.inj same
    rw [getIncomingData_last.2 items read, LoopNotDone, and_iff_right isLoop]
    have descends := mem_getChildren (asserted_eq_ok.mp found) (x := n)
    by_cases back : Descends graph n n
    · simp [DoneOutput, back, descends]
    · simp [DoneOutput, back, descends]
  · rename_i isOther
    obtain rfl := Except.ok.inj done
    simp [LoopNotDone, isOther]

theorem mem_addToSet {nodes : List GraphNode} {x : GraphNode} : x ∈ addToSet nodes n ↔ x ∈ nodes ∨ x = n := by
  rw [addToSet]
  split
  · rename_i old
    exact ⟨.inl, fun either => either.elim id fun same => same ▸ old⟩
  · simp

def followConnection (graph : DirectedGraph) (destination : GraphNode) (runData : RunData) (pinData : PinData)
    (fuel : ℕ) (seen : List GraphNode) (startNodes : List GraphNode) (c : GraphConnection) :
    Except Failure (List GraphNode) := do
  let nodeRunData ← getIncomingDataFromAnyRun runData c.fromNode.name c.type c.outputIndex
  if nodeRunData.all (·.1.length = 0) && !pinData.has c.fromNode.name then .ok startNodes
  else findStartNodesRecursive graph destination runData pinData fuel c.toNode startNodes seen

/-- A call adds a node that has to run again, and goes on from any other node not seen yet. -/
theorem findStartNodesRecursive_cases
    (done : findStartNodesRecursive graph destination runData pinData (fuel + 1) current startNodes seen = .ok result) :
    Stopping graph destination runData pinData current ∧ result = addToSet startNodes current ∨
      ¬Stopping graph destination runData pinData current ∧ current ∈ seen ∧ result = startNodes ∨
      ¬Stopping graph destination runData pinData current ∧ current ∉ seen ∧ graph.Stores current ∧
        (graph.getConnections.filter (·.fromNode = current)).foldlM
          (followConnection graph destination runData pinData fuel (addToSet seen current)) startNodes = .ok result := by
  rw [findStartNodesRecursive] at done
  split at done
  · rename_i dirty
    exact .inl ⟨.inl dirty, (Except.ok.inj done).symm⟩
  split at done
  · rename_i isEnd
    exact .inl ⟨.inr (.inl isEnd), (Except.ok.inj done).symm⟩
  rename_i clean notEnd
  obtain ⟨answer, asked, done⟩ := bind_eq_ok.mp done
  have meaning := loopNotDone_spec asked
  split at done
  · rename_i again
    exact .inl ⟨.inr (.inr (meaning.mp again)), (Except.ok.inj done).symm⟩
  rename_i finished
  have passes : ¬Stopping graph destination runData pinData current := by
    rintro (dirty | isEnd | again)
    · exact clean dirty
    · exact notEnd isEnd
    · exact finished (meaning.mpr again)
  split at done
  · rename_i old
    exact .inr (.inl ⟨passes, old, (Except.ok.inj done).symm⟩)
  · rename_i new
    obtain ⟨connections, same, done⟩ := bind_eq_ok.mp done
    rw [asserted_eq_ok, getDirectChildConnections, ite_none_right_eq_some] at same
    obtain ⟨stored, same⟩ := same
    obtain rfl := some.inj same
    exact .inr (.inr ⟨passes, new, stored, done⟩)

theorem live_iff {first : Option (Items × ℕ)}
    (found : getIncomingDataFromAnyRun runData c.fromNode.name c.type c.outputIndex = .ok first) :
    Live runData pinData c ↔ ¬(first.all (·.1.length = 0) && !pinData.has c.fromNode.name) = true := by
  rw [Live, ← getIncomingDataFromAnyRun_spec.2 first found]
  cases first.all (·.1.length = 0) <;> cases pinData.has c.fromNode.name <;> simp

theorem followConnection_cases
    (done : followConnection graph destination runData pinData fuel seen startNodes c = .ok result) :
    ¬Live runData pinData c ∧ result = startNodes ∨ Live runData pinData c ∧
      findStartNodesRecursive graph destination runData pinData fuel c.toNode startNodes seen = .ok result := by
  rw [followConnection, bind_eq_ok] at done
  obtain ⟨first, found, done⟩ := done
  split at done
  · rename_i neither
    exact .inl ⟨fun live => (live_iff found).mp live neither, (Except.ok.inj done).symm⟩
  · rename_i some
    exact .inr ⟨(live_iff found).mpr some, done⟩

theorem findStartNodesRecursive_grows
    (done : findStartNodesRecursive graph destination runData pinData fuel current startNodes seen = .ok result) :
    startNodes ⊆ result := by
  induction fuel generalizing current startNodes seen result with
  | zero =>
    obtain rfl := Except.ok.inj done
    exact fun _ => id
  | succ fuel ih =>
    rcases findStartNodesRecursive_cases done with ⟨_, rfl⟩ | ⟨_, _, rfl⟩ | ⟨_, _, _, rest⟩
    · exact fun x member => mem_addToSet.mpr (.inl member)
    · exact fun _ => id
    · refine foldlM_ok_invariant (I := (startNodes ⊆ ·)) (fun c _ s next part step => ?_) (fun _ => id) rest
      rcases followConnection_cases step with ⟨_, rfl⟩ | ⟨_, below⟩
      · exact part
      · exact fun x member => ih below (part member)

theorem Reusable.cons (member : c ∈ graph.getConnections) (live : Live runData pinData c)
    (passes : ¬Stopping graph destination runData pinData c.fromNode)
    (rest : Reusable graph destination runData pinData c.toNode cs n) :
    Reusable graph destination runData pinData c.fromNode (c :: cs) n where
  trail := ⟨⟨rfl, rest.trail.1⟩, forall_mem_cons.mpr ⟨member, rest.trail.2⟩⟩
  live := forall_mem_cons.mpr ⟨live, rest.live⟩
  passes := forall_mem_cons.mpr ⟨passes, rest.passes⟩

theorem findStartNodesRecursive_sound
    (done : findStartNodesRecursive graph destination runData pinData fuel current startNodes seen = .ok result)
    (member : n ∈ result) : n ∈ startNodes ∨ Stopping graph destination runData pinData n ∧
      ∃ cs, Reusable graph destination runData pinData current cs n := by
  induction fuel generalizing current startNodes seen result n with
  | zero =>
    obtain rfl := Except.ok.inj done
    exact .inl member
  | succ fuel ih =>
    rcases findStartNodesRecursive_cases done with ⟨stops, rfl⟩ | ⟨_, _, rfl⟩ | ⟨passes, _, _, rest⟩
    · rcases mem_addToSet.mp member with old | rfl
      · exact .inl old
      · exact .inr ⟨stops, [], ⟨rfl, by simp⟩, by simp, by simp⟩
    · exact .inl member
    · refine foldlM_ok_invariant (I := fun s => ∀ n ∈ s, n ∈ startNodes ∨ Stopping graph destination runData pinData n ∧
        ∃ cs, Reusable graph destination runData pinData current cs n) (fun c isChild s next inv step n member => ?_)
        (fun n => .inl) rest n member
      simp only [mem_filter, decide_eq_true_eq] at isChild
      obtain ⟨inGraph, rfl⟩ := isChild
      rcases followConnection_cases step with ⟨_, rfl⟩ | ⟨live, below⟩
      · exact inv n member
      · rcases ih below member with old | ⟨stops, cs, reusable⟩
        · exact inv n old
        · exact .inr ⟨stops, c :: cs, reusable.cons inGraph live passes⟩

theorem findStartNodesRecursive_visits
    (done : findStartNodesRecursive graph destination runData pinData fuel current startNodes seen = .ok result)
    (reusable : Reusable graph destination runData pinData current cs n)
    (fresh : (seen ++ cs.map fromNode).Nodup) (short : cs.length < fuel) :
    ∃ before seenThere after,
      findStartNodesRecursive graph destination runData pinData (fuel - cs.length) n before seenThere = .ok after ∧
        (∀ x, x ∈ seenThere ↔ x ∈ seen ∨ x ∈ cs.map fromNode) ∧ after ⊆ result ∧ ∀ c ∈ cs, graph.Stores c.fromNode := by
  induction cs generalizing fuel current startNodes seen result with
  | nil =>
    obtain rfl : current = n := reusable.trail.1
    exact ⟨startNodes, seen, result, done, by simp, fun _ => id, by simp⟩
  | cons c cs ih =>
    obtain ⟨fuel, rfl⟩ : ∃ m, fuel = m + 1 := ⟨fuel - 1, by rw [length_cons] at short; omega⟩
    obtain rfl : c.fromNode = current := reusable.trail.1.1
    have passes := reusable.passes c mem_cons_self
    have move : (seen ++ (c :: cs).map fromNode).Perm (addToSet seen c.fromNode ++ cs.map fromNode) ∧
        c.fromNode ∉ seen := by
      have new : c.fromNode ∉ seen := fun old =>
        (nodup_append.mp fresh).2.2 c.fromNode old c.fromNode mem_cons_self rfl
      refine ⟨?_, new⟩
      rw [addToSet, if_neg new]
      simp
    rcases findStartNodesRecursive_cases done with ⟨stops, _⟩ | ⟨_, old, _⟩ | ⟨_, _, stored, rest⟩
    · exact absurd stops passes
    · exact absurd old move.2
    · have isChild : c ∈ graph.getConnections.filter (·.fromNode = c.fromNode) :=
        mem_filter.mpr ⟨reusable.trail.2 c mem_cons_self, by simp⟩
      have grows : ∀ d ∈ graph.getConnections.filter (·.fromNode = c.fromNode), ∀ s next,
          followConnection graph destination runData pinData fuel (addToSet seen c.fromNode) s d = .ok next →
            s ⊆ next := by
        intro d _ s next step
        rcases followConnection_cases step with ⟨_, rfl⟩ | ⟨_, below⟩
        · exact fun _ => id
        · exact findStartNodesRecursive_grows below
      obtain ⟨here, next, step, part⟩ := foldlM_ok_step (R := (· ⊆ ·)) (fun _ _ => id) List.Subset.trans grows isChild rest
      rcases followConnection_cases step with ⟨dead, _⟩ | ⟨_, below⟩
      · exact absurd (reusable.live c mem_cons_self) dead
      · have tail : Reusable graph destination runData pinData c.toNode cs n :=
          ⟨⟨reusable.trail.1.2, fun d inside => reusable.trail.2 d (mem_cons_of_mem _ inside)⟩,
            fun d inside => reusable.live d (mem_cons_of_mem _ inside),
            fun d inside => reusable.passes d (mem_cons_of_mem _ inside)⟩
        rw [length_cons] at short
        obtain ⟨before, seenThere, after, there, same, grew, storedRest⟩ := ih below tail
          (move.1.nodup_iff.mp fresh) (by omega)
        refine ⟨before, seenThere, after, ?_, fun x => ?_, List.Subset.trans grew part,
          forall_mem_cons.mpr ⟨stored, storedRest⟩⟩
        · rw [length_cons, Nat.add_sub_add_right]
          exact there
        · rw [same, mem_addToSet, map_cons, mem_cons, or_assoc]

theorem Reusable.upTo {more : List GraphConnection}
    (whole : Reusable graph destination runData pinData current (cs ++ c :: more) n) :
    Reusable graph destination runData pinData current cs c.fromNode := by
  obtain ⟨m, one, two⟩ := Trail.append_iff.mp whole.trail.1
  obtain rfl : c.fromNode = m := two.1
  exact ⟨⟨one, (forall_mem_append.mp whole.trail.2).1⟩, (forall_mem_append.mp whole.live).1,
    (forall_mem_append.mp whole.passes).1⟩

theorem Reusable.simple (path : Reusable graph destination runData pinData current cs n) :
    ∃ short, Reusable graph destination runData pinData current short n ∧ (short.map fromNode ++ [n]).Nodup := by
  obtain ⟨short, trail, distinct, part⟩ := path.trail.1.exists_simple
  refine ⟨short, ⟨⟨trail, fun c member => path.trail.2 c (part member)⟩, fun c member => path.live c (part member),
    fun c member => path.passes c (part member)⟩, ?_⟩
  rw [trail.sources_concat]
  exact distinct

theorem findStartNodes_visits (done : findStartNodes graph trigger destination pinData runData = .ok result)
    (path : Reusable graph destination runData pinData trigger cs n) :
    ∃ fuel before seenThere after,
      findStartNodesRecursive graph destination runData pinData (fuel + 1) n before seenThere = .ok after ∧
        n ∉ seenThere ∧ after ⊆ result := by
  obtain ⟨short, reusable, distinct⟩ := path.simple
  have froms : (short.map fromNode).Nodup := (nodup_append.mp distinct).1
  have enough : short.length < graph.getNodes.length + 1 := by
    by_contra tooLong
    have inside : graph.getNodes.length < short.length := by omega
    obtain ⟨pre, d, post, same, length⟩ : ∃ pre d post, short = pre ++ d :: post ∧ pre.length = graph.getNodes.length :=
      ⟨short.take graph.getNodes.length, short[graph.getNodes.length], short.drop (graph.getNodes.length + 1),
        by rw [cons_getElem_drop_succ, take_append_drop], by rw [length_take]; omega⟩
    subst same
    have distinctPre : (pre.map fromNode ++ [d.fromNode]).Nodup := by
      refine froms.sublist ?_
      rw [map_append, map_cons]
      exact (singleton_sublist.mpr mem_cons_self).append_left _
    obtain ⟨before, seenThere, after, there, met, _, stored⟩ := findStartNodesRecursive_visits done reusable.upTo
      (by simpa using (nodup_append.mp distinctPre).1) (by omega)
    rw [length, Nat.add_sub_cancel_left] at there
    have new : d.fromNode ∉ seenThere := by
      rw [met]
      rintro (old | old)
      · exact not_mem_nil old
      · exact (nodup_append.mp distinctPre).2.2 _ old _ mem_cons_self rfl
    have storedLast : graph.Stores d.fromNode := by
      rcases findStartNodesRecursive_cases there with ⟨stops, _⟩ | ⟨_, old, _⟩ | ⟨_, _, stored, _⟩
      · exact absurd stops (reusable.passes d (by simp))
      · exact absurd old new
      · exact stored
    have part : pre.map fromNode ++ [d.fromNode] ⊆ graph.getNodes := by
      refine append_subset.mpr ⟨fun x member => ?_, by simpa using mem_getNodes.mpr storedLast⟩
      obtain ⟨c, hc, rfl⟩ := List.mem_map.mp member
      exact mem_getNodes.mpr (stored c hc)
    have bound := (subperm_of_subset distinctPre part).length_le
    simp only [length_append, length_map, length_singleton] at bound
    omega
  obtain ⟨before, seenThere, after, there, met, grew, _⟩ := findStartNodesRecursive_visits done reusable
    (by simpa using froms) enough
  have left : graph.getNodes.length + 1 - short.length = graph.getNodes.length - short.length + 1 := by omega
  refine ⟨graph.getNodes.length - short.length, before, seenThere, after, left ▸ there, ?_, grew⟩
  rw [met]
  rintro (old | old)
  · exact not_mem_nil old
  · exact (nodup_append.mp distinct).2.2 n old n mem_cons_self rfl

theorem mem_findStartNodes (done : findStartNodes graph trigger destination pinData runData = .ok result) :
    n ∈ result ↔ Stopping graph destination runData pinData n ∧
      ∃ cs, Reusable graph destination runData pinData trigger cs n := by
  constructor
  · intro member
    exact (findStartNodesRecursive_sound done member).resolve_left not_mem_nil
  · rintro ⟨stops, cs, path⟩
    obtain ⟨fuel, before, seenThere, after, there, _, grew⟩ := findStartNodes_visits done path
    rcases findStartNodesRecursive_cases there with ⟨_, rfl⟩ | ⟨passes, _⟩ | ⟨passes, _⟩
    · exact grew (mem_addToSet.mpr (.inr rfl))
    · exact absurd stops passes
    · exact absurd stops passes

theorem loopNotDone_ok :
    (∃ answer, loopNotDone graph runData n = .ok answer) ↔ (n.type = splitInBatches → StoresBelow graph n ∧
      ∀ runs, runData.get n.name = some runs → ∀ task, runs.getLast? = some task → task.HasType .main) := by
  rw [loopNotDone, ← getChildren_isSome]
  split
  · rename_i isLoop
    simp only [isALoop, bind_eq_ok, isLoop, forall_const]
    cases found : graph.getChildren n with
    | none => simp [asserted]
    | some children =>
      simp only [asserted, Except.ok.injEq, exists_eq_left', pure, Except.pure, isSome_some, true_and]
      generalize (if decide (n ∈ children) = true then 0 else 1) = output
      have lastRun : (∃ items, getIncomingData runData n.name (-1) .main output = .ok items) ↔ _ :=
        getIncomingData_last.1
      rw [← lastRun]
      cases getIncomingData runData n.name (-1) .main output <;> simp
  · rename_i isOther
    simp [isOther]

theorem findStartNodesRecursive_readable
    (done : findStartNodesRecursive graph destination runData pinData (fuel + 1) n startNodes seen = .ok result)
    (new : n ∉ seen) : Readable graph destination runData pinData n where
  loop := fun clean notEnd => by
    rw [findStartNodesRecursive, clean, if_neg Bool.false_ne_true, if_neg notEnd, bind_eq_ok] at done
    obtain ⟨answer, asked, _⟩ := done
    exact loopNotDone_ok.mp ⟨answer, asked⟩
  stored := fun passes => by
    rcases findStartNodesRecursive_cases done with ⟨stops, _⟩ | ⟨_, old, _⟩ | ⟨_, _, stored, _⟩
    · exact absurd stops passes
    · exact absurd old new
    · exact stored
  outputs := fun passes c member leaves runs found => by
    rcases findStartNodesRecursive_cases done with ⟨stops, _⟩ | ⟨_, old, _⟩ | ⟨_, _, _, rest⟩
    · exact absurd stops passes
    · exact absurd old new
    · obtain ⟨here, next, step⟩ := foldlM_ok_taken (mem_filter.mpr ⟨member, by simpa using leaves⟩) rest
      rw [followConnection, bind_eq_ok] at step
      obtain ⟨first, read, _⟩ := step
      refine getIncomingDataFromAnyRun_spec.1.mp ⟨first, read⟩ runs ?_
      rw [leaves]
      exact found

theorem findStartNodesRecursive_ok (readable : ∀ n cs, Reusable graph destination runData pinData current cs n →
      Readable graph destination runData pinData n) :
    ∃ result, findStartNodesRecursive graph destination runData pinData fuel current startNodes seen = .ok result := by
  induction fuel generalizing current startNodes seen with
  | zero => exact ⟨startNodes, rfl⟩
  | succ fuel ih =>
    have here := readable current [] ⟨⟨rfl, by simp⟩, by simp, by simp⟩
    rw [findStartNodesRecursive]
    split
    · exact ⟨_, rfl⟩
    rename_i clean
    split
    · exact ⟨_, rfl⟩
    rename_i notEnd
    obtain ⟨answer, asked⟩ := loopNotDone_ok.mpr (here.loop (Bool.eq_false_iff.mpr clean) notEnd)
    have meaning := loopNotDone_spec asked
    simp only [asked, ok_bind]
    split
    · exact ⟨_, rfl⟩
    rename_i finished
    split
    · exact ⟨_, rfl⟩
    have passes : ¬Stopping graph destination runData pinData current := by
      rintro (dirty | isEnd | again)
      · exact clean dirty
      · exact notEnd isEnd
      · exact finished (meaning.mpr again)
    simp only [getDirectChildConnections, if_pos (here.stored passes), asserted, ok_bind]
    have each : ∀ c ∈ graph.getConnections.filter (·.fromNode = current), ∀ s : List GraphNode, True →
        ∃ next, followConnection graph destination runData pinData fuel (addToSet seen current) s c = .ok next ∧
          True := by
      intro c isChild s _
      simp only [mem_filter, decide_eq_true_eq] at isChild
      obtain ⟨member, rfl⟩ := isChild
      obtain ⟨first, read⟩ := getIncomingDataFromAnyRun_spec.1.mpr (here.outputs passes c member rfl)
      simp only [followConnection, read, ok_bind]
      split
      · exact ⟨s, rfl, trivial⟩
      · rename_i either
        have live : Live runData pinData c := (live_iff read).mpr either
        obtain ⟨next, below⟩ : ∃ next, findStartNodesRecursive graph destination runData pinData fuel c.toNode s
            (addToSet seen c.fromNode) = .ok next :=
          ih fun n cs path => readable n (c :: cs) (path.cons member live passes)
        exact ⟨next, below, trivial⟩
    obtain ⟨result, done, _⟩ := foldlM_ok each trivial
    exact ⟨result, done⟩

/-- The traversal returns the frontier exactly when whatever it comes to can be read. -/
theorem findStartNodes_frontier_iff :
    (∃ startNodes, findStartNodes graph trigger destination pinData runData = .ok startNodes ∧
        ∀ n, n ∈ startNodes ↔ Stopping graph destination runData pinData n ∧
          ∃ cs, Reusable graph destination runData pinData trigger cs n) ↔
      ∀ n cs, Reusable graph destination runData pinData trigger cs n →
        Readable graph destination runData pinData n := by
  constructor
  · rintro ⟨startNodes, done, _⟩ n cs path
    obtain ⟨fuel, before, seenThere, after, there, new, _⟩ := findStartNodes_visits done path
    exact findStartNodesRecursive_readable there new
  · intro readable
    obtain ⟨startNodes, done⟩ : ∃ startNodes, findStartNodes graph trigger destination pinData runData = .ok startNodes :=
      findStartNodesRecursive_ok readable
    exact ⟨startNodes, done, fun n => mem_findStartNodes done⟩

end Frontier

/-- A node that is connected to the destination as a tool too, and ran as an ordinary node. -/
def toolGraph : DirectedGraph :=
  let t := plainNode 0 "t"
  let d := plainNode 1 "d"
  [⟨t, d, .main, 0, 0⟩, ⟨t, d, .aiTool, 0, 0⟩].foldl setConnection (empty.addNodes [t, d])

def mainRunData (name : String) : RunData := OrderedMap.empty.set name
  [{ error := false, data := some (OrderedMap.empty.set .main [some [WorkflowExecute.emptyItem]]) }]

theorem toolGraph_throws : toolGraph.Closed ∧ toolGraph.Stores (plainNode 0 "t") ∧
    ¬∃ startNodes, findStartNodes toolGraph (plainNode 0 "t") (plainNode 1 "d") .empty (mainRunData "t") =
        .ok startNodes ∧
      ∀ n, n ∈ startNodes ↔ Stopping toolGraph (plainNode 1 "d") (mainRunData "t") .empty n ∧
        ∃ cs, Reusable toolGraph (plainNode 1 "d") (mainRunData "t") .empty (plainNode 0 "t") cs n := by
  refine ⟨by decide, by decide, ?_⟩
  rintro ⟨startNodes, done, _⟩
  have throws : findStartNodes toolGraph (plainNode 0 "t") (plainNode 1 "d") .empty (mainRunData "t") =
      .error .typeError := by decide
  rw [throws] at done
  cases done

end N8n.PartialExecution
