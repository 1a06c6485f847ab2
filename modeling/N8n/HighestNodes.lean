import N8n.ProcessRunExecutionData
import N8n.TopSearch

/-! `getHighestNode` returns the tops of the branches that lead to a node, as long as no branch runs
into a node that another branch has been through. Where all the parents of a node have been checked
already it is taken for the top of its branch. -/

namespace N8n.WorkflowExecute

open TopSearch
open List Option

def isEnabled (x : Execution) (nodeName : String) : Bool := (x.info nodeName).disabled ≠ some true

def connectedNodes (x : Execution) (main : NodeInputConnections) : List String :=
  ((main.flatMap (·.getD [])).map (·.node)).filter x.workflow.nodes.has

/-- `none` is a node without main inputs on record. -/
def mainParents (x : Execution) (nodeName : String) : Option (List String) :=
  if x.workflow.nodes.has nodeName then (mainInputs x.workflow nodeName).map (connectedNodes x)
  else none

def searchedInputs (nodeConnectionIndex : Option ℕ) (main : NodeInputConnections) : NodeInputConnections :=
  nodeConnectionIndex.elim main fun index => [(main[index]?).join]

variable {x : Execution} {nodeName : String} {main : NodeInputConnections} {checkedNodes : List String}

/-- A node without main inputs on record is put on the list by the caller if not by itself. -/
theorem getHighestNode_leaf (fuel : ℕ) (checkedNodes : List String) (leaf : mainInputs x.workflow nodeName = none) :
    ∃ own, getHighestNode x fuel nodeName none checkedNodes = (own, checkedNodes) ∧
      (own = [] ∨ own = [nodeName] ∧ isEnabled x nodeName = true) := by
  cases fuel with
  | zero => exact ⟨[], rfl, .inl rfl⟩
  | succ fuel =>
    rw [getHighestNode]
    by_cases absent : (!x.workflow.nodes.has nodeName) = true
    · exact ⟨[], if_pos absent, .inl rfl⟩
    rw [if_neg absent]
    simp only [leaf]
    by_cases on : (x.info nodeName).disabled = some false
    · exact ⟨[nodeName], by rw [if_pos on], .inr ⟨rfl, by simp [isEnabled, on]⟩⟩
    · exact ⟨[], by rw [if_neg on], .inl rfl⟩

def addConnected (x : Execution) (find : String → List String → List String × List String)
    (state : List String × List String) (connection : IConnection) : List String × List String :=
  if connection.node ∈ state.2 then state
  else if !x.workflow.nodes.has connection.node then state
  else
    let found := find connection.node state.2
    let addNodes := if found.1.isEmpty ∧ (x.info connection.node).disabled ≠ some true
      then [connection.node] else found.1
    (addNodes.foldl TopSearch.addNew state.1, found.2)

theorem getHighestNode_succ (fuel : ℕ) (index : Option ℕ) (isNode : x.workflow.nodes.has nodeName = true)
    (found : mainInputs x.workflow nodeName = some main) (fresh : nodeName ∉ checkedNodes) :
    getHighestNode x (fuel + 1) nodeName index checkedNodes =
      ((searchedInputs index main).flatMap (·.getD [])).foldl
        (addConnected x fun name checked => getHighestNode x fuel name none checked)
          ([], checkedNodes ++ [nodeName]) := by
  rw [getHighestNode, isNode]
  simp only [found, if_neg fresh]
  cases index with
  | none => rfl
  | some index =>
    simp only [searchedInputs, elim_some, flatMap_cons, flatMap_nil, append_nil]
    rfl

theorem mainParents_of_node (isNode : x.workflow.nodes.has nodeName = true) :
    mainParents x nodeName = (mainInputs x.workflow nodeName).map (connectedNodes x) := by
  rw [mainParents, if_pos isNode]

theorem addConnected_eq_visit {fuel : ℕ} (isNode : x.workflow.nodes.has nodeName = true)
    (fresh : nodeName ∉ checkedNodes) (inner : ∀ main, mainInputs x.workflow nodeName = some main →
      getHighestNode x fuel nodeName none checkedNodes =
        search (mainParents x) (isEnabled x) fuel nodeName checkedNodes) (nodes : List String) :
    addConnected x (fun name checked => getHighestNode x fuel name none checked) (nodes, checkedNodes)
        ⟨nodeName, .main, 0⟩ =
      visit (isEnabled x) (search (mainParents x) (isEnabled x) fuel) (nodes, checkedNodes)
        nodeName := by
  simp only [addConnected, visit, if_neg fresh, isNode, Bool.not_true, Bool.false_eq_true, if_false]
  cases found : mainInputs x.workflow nodeName with
  | some main =>
    rw [inner main found]
    simp [isEnabled]
  | none =>
    obtain ⟨own, eq, kind⟩ := getHighestNode_leaf fuel checkedNodes found
    have top : ¬Internal (mainParents x) nodeName := by simp [Internal, mainParents_of_node isNode, found]
    rw [eq, search_of_not_inner fuel top]
    rcases kind with rfl | ⟨rfl, on⟩
    · simp [isEnabled]
    · simp [on]

theorem foldl_addConnected {fuel : ℕ}
    (inner : ∀ name checked main, x.workflow.nodes.has name = true → mainInputs x.workflow name = some main →
      name ∉ checked → getHighestNode x fuel name none checked =
        search (mainParents x) (isEnabled x) fuel name checked)
    (connections : List IConnection) (state : List String × List String) :
    connections.foldl (addConnected x fun name checked => getHighestNode x fuel name none checked) state =
      ((connections.map (·.node)).filter x.workflow.nodes.has).foldl
        (visit (isEnabled x) (search (mainParents x) (isEnabled x) fuel)) state := by
  induction connections generalizing state with
  | nil => rfl
  | cons connection rest ih =>
    rw [foldl_cons, map_cons, ih]
    by_cases isNode : x.workflow.nodes.has connection.node = true
    · rw [filter_cons_of_pos isNode, foldl_cons]
      by_cases met : connection.node ∈ state.2
      · simp only [addConnected, visit, if_pos met]
      · rw [← addConnected_eq_visit isNode met fun main found => inner _ _ main isNode found met]
        rfl
    · rw [filter_cons_of_neg isNode]
      have skipped : addConnected x (fun name checked => getHighestNode x fuel name none checked) state connection =
          state := by
        simp [addConnected, isNode]
      rw [skipped]

theorem getHighestNode_eq_search (fuel : ℕ) (isNode : x.workflow.nodes.has nodeName = true)
    (found : mainInputs x.workflow nodeName = some main) (fresh : nodeName ∉ checkedNodes) :
    getHighestNode x fuel nodeName none checkedNodes =
      search (mainParents x) (isEnabled x) fuel nodeName checkedNodes := by
  induction fuel generalizing nodeName checkedNodes main with
  | zero => rfl
  | succ fuel ih =>
    rw [getHighestNode_succ fuel none isNode found fresh,
      foldl_addConnected fun name checked main isNode' found' fresh' => ih isNode' found' fresh']
    rw [search, mainParents_of_node isNode, found]
    rfl

/-! ## The tops -/

theorem fuel_enough (nodeName : String) (inner : Internal (mainParents x) nodeName) :
    nodeName ∈ x.workflow.nodes.entries.map Prod.fst := by
  by_contra absent
  have none := x.workflow.nodes.get_eq_none_iff.mpr absent
  simp [Internal, mainParents, OrderedMap.has, none] at inner

theorem getHighestNode_spec (isNode : x.workflow.nodes.has nodeName = true)
    (found : mainInputs x.workflow nodeName = some main) (nodeConnectionIndex : Option ℕ) :
    TopSearch.Spec (mainParents x) (isEnabled x) [nodeName] [nodeName]
      (connectedNodes x (searchedInputs nodeConnectionIndex main))
      (getHighestNode x (x.workflow.nodes.entries.length + 1) nodeName nodeConnectionIndex []) := by
  have inner : Internal (mainParents x) nodeName := by simp [Internal, mainParents_of_node isNode, found]
  have start : TopSearch.Met (mainParents x) [] [] := ⟨by simp, by simp, by simp⟩
  rw [getHighestNode_succ _ nodeConnectionIndex isNode found not_mem_nil,
    foldl_addConnected fun name checked main isNode' found' fresh' => getHighestNode_eq_search _ isNode' found' fresh']
  refine fold_spec (start.push inner) (fun name more top => search_of_not_inner _ top) ?_
  intro name more met _ inner' fresh'
  refine search_spec fuel_enough _ met inner' fresh' ?_
  have fewer := length_filter_le (· ∉ more) (x.workflow.nodes.entries.map Prod.fst)
  simpa using fewer

def highestNodes (x : Execution) (nodeName : String) : List String :=
  (getHighestNode x (x.workflow.nodes.entries.length + 1) nodeName none []).1

def Ancestor (x : Execution) (a b : String) : Prop := Above (mainParents x) a b

def ReturnsTops (x : Execution) (nodeName : String) : Prop :=
  (∀ name ∈ highestNodes x nodeName, isEnabled x name = true ∧ Ancestor x name nodeName ∧ ¬Ancestor x name name ∧
    ∀ a, Ancestor x a name → isEnabled x a = false) ∧
  ∀ a, Ancestor x a nodeName → isEnabled x a = true → (∀ b, Ancestor x b a → isEnabled x b = false) →
    a ∈ highestNodes x nodeName

/-- Going up from the node, the first path to the second node goes by the first one; where the second node has no
main inputs, the first path to some node it is connected to. -/
def FoundThrough (x : Execution) (nodeName : String) : String → String → Prop :=
  Through (mainParents x) [nodeName] [nodeName] (TopSearch.above (mainParents x) nodeName)

theorem main_of_ancestor {a : String} (up : Ancestor x a nodeName) :
    x.workflow.nodes.has nodeName = true ∧ ∃ main, mainInputs x.workflow nodeName = some main := by
  obtain ⟨_, _, step⟩ := Relation.TransGen.tail'_iff.mp up
  have inner := inner_of_above step
  rw [Internal, mainParents] at inner
  split_ifs at inner with isNode
  · rw [isSome_map] at inner
    exact ⟨isNode, isSome_iff_exists.mp inner⟩
  · cases inner

/-- With something enabled above the node, what is returned is right exactly when each enabled node above that is not
a top has an enabled node found through it. -/
theorem highestNodes_tops_iff (some_ : ∃ a, Ancestor x a nodeName ∧ isEnabled x a = true) :
    ReturnsTops x nodeName ↔ ∀ a, a ≠ nodeName → Ancestor x a nodeName → isEnabled x a = true →
      (∃ b, Ancestor x b a ∧ isEnabled x b = true) →
        ∃ b, isEnabled x b = true ∧ FoundThrough x nodeName a b := by
  obtain ⟨_, up, _⟩ := some_
  obtain ⟨isNode, main, found⟩ := main_of_ancestor up
  have parents : mainParents x nodeName = some (connectedNodes x main) := by
    rw [mainParents_of_node isNode, found, map_some]
  have spec := getHighestNode_spec isNode found none
  rw [show connectedNodes x (searchedInputs none main) = TopSearch.above (mainParents x) nodeName by
    rw [TopSearch.above, parents, getD_some, searchedInputs, elim_none]] at spec
  rw [FoundThrough]
  refine Iff.trans ?_ (spec.tops_iff (by rw [Internal, parents, isSome_some]))
  constructor
  · rintro ⟨returned, complete⟩ a
    constructor
    · intro member
      obtain ⟨on, above, _, top⟩ := returned a member
      exact ⟨above, on, top⟩
    · rintro ⟨above, on, top⟩
      exact complete a above on top
  · intro tops
    refine ⟨fun name member => ?_, fun a above on top => (tops a).mpr ⟨above, on, top⟩⟩
    obtain ⟨above, on, top⟩ := (tops name).mp member
    refine ⟨on, above, fun cycle => ?_, top⟩
    simp [top name cycle] at on

def enabledExecution (workflow : Workflow) : Execution where
  workflow
  info := fun _ => ⟨none, (0, 0), 1, none, false, none⟩
  runNodeFilter := none
  destinationNode := none
  mergedJson := fun _ _ => "{}"

/-- `S` leads to `A`, and `A` to `X`. -/
def rowExecution : Execution := enabledExecution
  { nodes := ⟨[("S", ⟨"S"⟩), ("A", ⟨"A"⟩), ("X", ⟨"X"⟩)], by decide⟩
    named := Workflow.named_of_entries (by decide)
    connectionsBySourceNode := .empty
    connectionsByDestinationNode := ⟨[
      ("A", ⟨[(.main, [some [⟨"S", .main, 0⟩]])], by decide⟩),
      ("X", ⟨[(.main, [some [⟨"A", .main, 0⟩]])], by decide⟩)], by decide⟩
    executionOrder := some .v1 }

theorem row_parents {a b : String} (step : a ∈ above (mainParents rowExecution) b) :
    a = "S" ∧ b = "A" ∨ a = "A" ∧ b = "X" := by
  have isNode : b ∈ ["S", "A", "X"] := fuel_enough b (inner_of_above step)
  simp only [mem_cons, not_mem_nil, or_false] at isNode
  rcases isNode with rfl | rfl | rfl
  · cases step
  · exact .inl ⟨mem_singleton.mp step, rfl⟩
  · exact .inr ⟨mem_singleton.mp step, rfl⟩

theorem row_tops : ReturnsTops rowExecution "X" := by
  have second : Ancestor rowExecution "A" "X" := .single (by decide)
  refine (highestNodes_tops_iff ⟨"A", second, rfl⟩).mpr fun a other _ _ ⟨b, above, _⟩ => ⟨"S", rfl, ?_⟩
  obtain ⟨_, _, step⟩ := Relation.TransGen.tail'_iff.mp above
  rcases row_parents step with ⟨_, rfl⟩ | ⟨_, rfl⟩
  · have leads : TopSearch.Leads (mainParents rowExecution) ["X"] "A" "A" := ⟨by decide, .refl⟩
    refine ⟨"A", ["A"], ⟨rfl, by decide, "A", by decide, leads⟩, ⟨.inl ⟨leads, rfl⟩, .inl ⟨rfl, rfl⟩⟩, by decide, ?_⟩
    exact .inr ⟨by decide, by decide⟩
  · exact absurd rfl other

/-- The parents of `B` have been checked from `A`. -/
def diamondExecution : Execution := enabledExecution
  { nodes := ⟨[("S", ⟨"S"⟩), ("T", ⟨"T"⟩), ("A", ⟨"A"⟩), ("B", ⟨"B"⟩), ("X", ⟨"X"⟩)], by decide⟩
    named := Workflow.named_of_entries (by decide)
    connectionsBySourceNode := .empty
    connectionsByDestinationNode := ⟨[
      ("T", ⟨[(.main, [some [⟨"S", .main, 0⟩]])], main_alone⟩),
      ("A", ⟨[(.main, [some [⟨"T", .main, 0⟩]])], main_alone⟩),
      ("B", ⟨[(.main, [some [⟨"T", .main, 0⟩]])], main_alone⟩),
      ("X", ⟨[(.main, [some [⟨"A", .main, 0⟩, ⟨"B", .main, 0⟩]])], main_alone⟩)], by decide⟩
    executionOrder := some .v1 }

theorem parents_checked_not_tops : ¬ ∀ x nodeName, (∃ a, Ancestor x a nodeName ∧ isEnabled x a = true) →
    ReturnsTops x nodeName := by
  intro tops
  have up : Ancestor diamondExecution "A" "X" := .single (by decide)
  have returned : "B" ∈ highestNodes diamondExecution "X" := by decide
  obtain ⟨_, _, _, top⟩ := (tops diamondExecution "X" ⟨"A", up, rfl⟩).1 "B" returned
  exact absurd (top "T" (.single (by decide))) (by decide)

end N8n.WorkflowExecute
