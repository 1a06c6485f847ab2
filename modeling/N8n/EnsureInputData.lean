import N8n.HighestNodes

/-! What `ensureInputData` lets through in the legacy execution order. The inputs are checked one
after the other, and the check ends with the first input that nothing leads to. An input counts as
missing where its data are `null` or the list of inputs is shorter than its index: one that stands
just behind the end of the list, or in a hole, is not noticed. -/

namespace N8n.WorkflowExecute

/-- An entry with its data as they are on the stack: by input type, and `main` need not be one. -/
structure StackEntry where
  data : OrderedMap NodeConnectionType (List Slot)
  node : Option INode
  source : Option (OrderedMap NodeConnectionType (List (Option ISourceData)))
  runIndex : Option ℕ
  metadata : Option ITaskMetadata
  deriving DecidableEq

namespace StackEntry

def highestNodesOf (x : Execution) (nodeName : String) (connectionIndex : ℕ) : List String :=
  (getHighestNode x (x.workflow.nodes.entries.length + 1) nodeName (some connectionIndex) []).1

/-- The inputs from here on; the entry is put back on the stack where one is missing. -/
def ensureInputsFrom (x : Execution) (nodeName : String) (executionData : StackEntry)
    (nodeExecutionStack : List StackEntry) : (connectionIndexes : List ℕ) → Bool × List StackEntry
  | [] => (true, nodeExecutionStack)
  | connectionIndex :: rest =>
    if (highestNodesOf x nodeName connectionIndex).isEmpty then (true, nodeExecutionStack)
    else match executionData.data.get .main with
      | none => (false, nodeExecutionStack ++ [executionData])
      | some main =>
        if x.workflow.isLegacyExecutionOrder ∧
            (main.length < connectionIndex ∨ main[connectionIndex]? = some .null) then
          (false, nodeExecutionStack ++ [executionData])
        else ensureInputsFrom x nodeName executionData nodeExecutionStack rest

def ensureInputData (x : Execution) (nodeName : String) (executionData : StackEntry)
    (nodeExecutionStack : List StackEntry) : Bool × List StackEntry :=
  ensureInputsFrom x nodeName executionData nodeExecutionStack (List.range (numberOfInputs x.workflow nodeName))

variable {x : Execution} {nodeName : String} {executionData : StackEntry} {stack : List StackEntry}
  {connectionIndex : ℕ}

theorem ensureInputData_fst {entry : IExecuteData} (main : executionData.data.get .main = some entry.main) :
    (ensureInputData x nodeName executionData stack).1 = WorkflowExecute.ensureInputData x nodeName entry := by
  rw [ensureInputData, WorkflowExecute.ensureInputData]
  induction List.range (numberOfInputs x.workflow nodeName) with
  | nil => rfl
  | cons connectionIndex rest ih =>
    rw [ensureInputsFrom, ensureInputs, highestNodesOf]
    split_ifs with top missing
    · rfl
    · simp only [main, if_pos missing]
    · simp only [main, if_neg missing]
      exact ih

/-- Only in the legacy order is an entry with main data turned down. -/
theorem ensureInputData_current {main : List Slot} (current : x.workflow.isLegacyExecutionOrder = false)
    (found : executionData.data.get .main = some main) : (ensureInputData x nodeName executionData stack).1 = true := by
  rw [ensureInputData]
  induction List.range (numberOfInputs x.workflow nodeName) with
  | nil => rfl
  | cons connectionIndex rest ih =>
    simp only [ensureInputsFrom, found, current, Bool.false_eq_true, false_and, if_false]
    split_ifs
    · rfl
    · exact ih

theorem ensureInputsFrom_stack (connectionIndexes : List ℕ) :
    (ensureInputsFrom x nodeName executionData stack connectionIndexes).2 =
      if (ensureInputsFrom x nodeName executionData stack connectionIndexes).1 then stack
      else stack ++ [executionData] := by
  induction connectionIndexes with
  | nil => rfl
  | cons connectionIndex rest ih =>
    rw [ensureInputsFrom]
    by_cases top : (highestNodesOf x nodeName connectionIndex).isEmpty = true
    · rw [if_pos top, if_pos rfl]
    rw [if_neg top]
    cases executionData.data.get .main with
    | none => rfl
    | some main =>
      by_cases missing : x.workflow.isLegacyExecutionOrder ∧
          (main.length < connectionIndex ∨ main[connectionIndex]? = some .null)
      · simp only [if_pos missing, Bool.false_eq_true, if_false]
      · simp only [if_neg missing]
        exact ih

/-! ## The inputs that are noticed -/

def inputConnections (x : Execution) (nodeName : String) (connectionIndex : ℕ) : List IConnection :=
  ((((mainInputs x.workflow nodeName).getD [])[connectionIndex]?).join).getD []

def Connected (x : Execution) (nodeName : String) (connectionIndex : ℕ) : Prop :=
  inputConnections x nodeName connectionIndex ≠ []

instance (x : Execution) (nodeName : String) (connectionIndex : ℕ) : Decidable (Connected x nodeName connectionIndex) :=
  inferInstanceAs (Decidable (_ ≠ _))

def HasData (executionData : StackEntry) (connectionIndex : ℕ) : Prop :=
  ∃ main items, executionData.data.get .main = some main ∧ main[connectionIndex]? = some (.items items)

def NoticedMissing (executionData : StackEntry) (connectionIndex : ℕ) : Prop :=
  ∀ main, executionData.data.get .main = some main → main.length < connectionIndex ∨ main[connectionIndex]? = some .null

theorem numberOfInputs_of_connected (connected : Connected x nodeName connectionIndex) :
    connectionIndex < numberOfInputs x.workflow nodeName := by
  rw [Connected, inputConnections] at connected
  rw [numberOfInputs]
  cases found : mainInputs x.workflow nodeName with
  | none => simp [found] at connected
  | some main =>
    by_contra outside
    have beyond : main[connectionIndex]? = none := by simpa using outside
    simp [found, beyond] at connected

theorem highestNodesOf_unconnected (inside : connectionIndex < numberOfInputs x.workflow nodeName)
    (unconnected : ¬Connected x nodeName connectionIndex) : highestNodesOf x nodeName connectionIndex = [] := by
  rw [highestNodesOf]
  by_cases isNode : x.workflow.nodes.has nodeName = true
  · cases found : mainInputs x.workflow nodeName with
    | none => simp [numberOfInputs, found] at inside
    | some main =>
      rw [getHighestNode_succ _ (some connectionIndex) isNode found List.not_mem_nil]
      have empty : (main[connectionIndex]?).join.getD [] = [] := by
        simpa [Connected, inputConnections, found] using unconnected
      simp [searchedInputs, empty]
  · rw [getHighestNode, if_pos (by simpa using isNode)]

theorem forall_while_succ {p q : ℕ → Prop} (start count : ℕ) :
    (∀ i, start ≤ i → i < start + (count + 1) → (∀ j, start ≤ j → j ≤ i → p j) → q i) ↔ (p start → q start ∧
        ∀ i, start + 1 ≤ i → i < start + 1 + count → (∀ j, start + 1 ≤ j → j ≤ i → p j) → q i) := by
  constructor
  · intro all first
    refine ⟨all start (by omega) (by omega) fun j after before => ?_, fun i after before further => ?_⟩
    · obtain rfl : j = start := by omega
      exact first
    · refine all i (by omega) (by omega) fun j from_ upTo => ?_
      rcases Nat.eq_or_lt_of_le from_ with rfl | later
      · exact first
      · exact further j later upTo
  · intro rest i after before all
    obtain ⟨first, later⟩ := rest (all start (Nat.le_refl _) after)
    rcases Nat.eq_or_lt_of_le after with rfl | further
    · exact first
    · exact later i further (by omega) fun j from_ upTo => all j (by omega) upTo

theorem ensureInputsFrom_fst (legacy : x.workflow.isLegacyExecutionOrder = true) (start count : ℕ) :
    (ensureInputsFrom x nodeName executionData stack (List.range' start count)).1 = true ↔
      ∀ i, start ≤ i → i < start + count → (∀ j, start ≤ j → j ≤ i → highestNodesOf x nodeName j ≠ []) →
        ¬NoticedMissing executionData i := by
  induction count generalizing start with
  | zero =>
    refine ⟨fun _ i after before => ?_, fun _ => rfl⟩
    omega
  | succ count ih =>
    rw [forall_while_succ, ← ih (start + 1), List.range'_succ, ensureInputsFrom]
    by_cases top : highestNodesOf x nodeName start = []
    · simp [top]
    rw [if_neg (by simpa using top)]
    simp only [ne_eq, top, not_false_eq_true, forall_const]
    cases found : executionData.data.get .main with
    | none => simp [NoticedMissing, found]
    | some main =>
      simp only [NoticedMissing, found, Option.some.injEq, forall_eq', legacy, true_and]
      by_cases missing : main.length < start ∨ main[start]? = some .null
      · rw [if_pos missing]
        simp [missing]
      · rw [if_neg missing]
        simp [missing]

def AdmitsComplete (x : Execution) (nodeName : String) (executionData : StackEntry) (stack : List StackEntry) : Prop :=
  ((ensureInputData x nodeName executionData stack).1 = true → ∀ i, Connected x nodeName i → HasData executionData i) ∧
    ((ensureInputData x nodeName executionData stack).1 = false →
      (ensureInputData x nodeName executionData stack).2 = stack ++ [executionData])

/-- An entry without the data of all the inputs is turned down exactly when one of the inputs before the first that is
not connected is noticed to be missing. -/
theorem ensureInputData_complete_iff (legacy : x.workflow.isLegacyExecutionOrder = true)
    (led : ∀ i, Connected x nodeName i → highestNodesOf x nodeName i ≠ []) :
    AdmitsComplete x nodeName executionData stack ↔ (∀ i, Connected x nodeName i → HasData executionData i) ∨
      ∃ i, (∀ j, j ≤ i → Connected x nodeName j) ∧ NoticedMissing executionData i := by
  have back : (ensureInputData x nodeName executionData stack).1 = false →
      (ensureInputData x nodeName executionData stack).2 = stack ++ [executionData] := by
    intro turnedDown
    rw [ensureInputData] at turnedDown ⊢
    rw [ensureInputsFrom_stack, turnedDown, if_neg Bool.false_ne_true]
  have admits : (ensureInputData x nodeName executionData stack).1 = true ↔
      ∀ i, (∀ j, j ≤ i → Connected x nodeName j) → ¬NoticedMissing executionData i := by
    rw [ensureInputData, List.range_eq_range', ensureInputsFrom_fst legacy]
    constructor
    · intro all i connected
      have inside := numberOfInputs_of_connected (connected i (Nat.le_refl i))
      exact all i (Nat.zero_le i) (by omega) fun j _ upTo => led j (connected j upTo)
    · intro all i _ inside leds
      refine all i fun j upTo => ?_
      by_contra unconnected
      exact leds j (Nat.zero_le j) upTo (highestNodesOf_unconnected (by omega) unconnected)
  rw [AdmitsComplete, and_iff_left back, admits]
  constructor
  · intro complete
    by_cases noticed : ∃ i, (∀ j, j ≤ i → Connected x nodeName j) ∧ NoticedMissing executionData i
    · exact .inr noticed
    · exact .inl (complete fun i connected missing => noticed ⟨i, connected, missing⟩)
  · rintro (complete | ⟨i, connected, missing⟩) unnoticed
    · exact complete
    · exact absurd missing (unnoticed i connected)

def mergeExecution (main : NodeInputConnections) : Execution := enabledExecution
  { nodes := ⟨[("A", ⟨"A"⟩), ("B", ⟨"B"⟩), ("Merge", ⟨"Merge"⟩)], by decide⟩
    named := Workflow.named_of_entries (by decide)
    connectionsBySourceNode := .empty
    connectionsByDestinationNode :=
      ⟨[("Merge", ⟨[(.main, main)], List.nodup_singleton _⟩)], List.nodup_singleton _⟩
    executionOrder := some .v0 }

def mergeEntry (main : List Slot) : StackEntry :=
  ⟨⟨[(.main, main)], List.nodup_singleton _⟩, some ⟨"Merge"⟩, none, none, none⟩

/-- `A` and `B` lead to the two inputs of `Merge`. -/
def bothConnected : Execution := mergeExecution [some [⟨"A", .main, 0⟩], some [⟨"B", .main, 0⟩]]

theorem bothConnected_led : ∀ i, Connected bothConnected "Merge" i → highestNodesOf bothConnected "Merge" i ≠ [] := by
  intro i connected
  have inside : i < 2 := numberOfInputs_of_connected connected
  obtain rfl | rfl : i = 0 ∨ i = 1 := by omega
  · decide
  · decide

/-- The second input is `null`. -/
theorem null_turnedDown : AdmitsComplete bothConnected "Merge" (mergeEntry [.items [⟨"1"⟩], .null]) [] := by
  refine (ensureInputData_complete_iff rfl bothConnected_led).mpr (.inr ⟨1, fun j upTo => ?_, fun main found => ?_⟩)
  · obtain rfl | rfl : j = 0 ∨ j = 1 := by omega
    · decide
    · decide
  · obtain rfl := Option.some.inj found
    exact .inr rfl

/-- The data end before the second input. -/
theorem short_admitted : ¬ ∀ x nodeName executionData stack, x.workflow.isLegacyExecutionOrder = true →
    (∀ i, Connected x nodeName i → highestNodesOf x nodeName i ≠ []) →
      AdmitsComplete x nodeName executionData stack := by
  intro complete
  have all := (complete bothConnected "Merge" (mergeEntry [.items [⟨"1"⟩]]) [] rfl bothConnected_led).1 (by decide)
  obtain ⟨main, items, found, data⟩ := all 1 (by decide)
  obtain rfl := Option.some.inj found
  cases data

/-- The second input is not looked at when nothing is connected to the first. -/
example : (ensureInputData (mergeExecution [some [], some [⟨"B", .main, 0⟩]]) "Merge"
    (mergeEntry [.null, .null]) []).1 = true := by decide

end StackEntry

end N8n.WorkflowExecute
