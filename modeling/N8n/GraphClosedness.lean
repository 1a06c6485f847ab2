import N8n.EditableGraph
import N8n.TransitionSystem

/-! Which runs of operations keep the graph closed. A removal that reconnects leads the
incoming connections on by the outgoing ones, and a connection of the node to itself is
both: what is led on by it ends at the node that is removed. -/

namespace N8n.PartialExecution

open PartialExecution.DirectedGraph Option

inductive GraphOperation
  | addNode (node : GraphNode)
  | addConnection (input : ConnectionInput)
  | removeNode (node : GraphNode) (options : RemoveNodeOptions)
  | clone

/-- A node is added under a name that no other object uses. Where an assertion fails the
graph is as before, so nothing is reached. -/
def graphSystem : TransitionSystem DirectedGraph GraphOperation where
  init := .empty
  step graph
    | .addNode node =>
      if graph.nodes.get node.name = none ∨ graph.Stores node then some (graph.addNode node) else none
    | .addConnection input => graph.addConnection input
    | .removeNode node options => (graph.removeNode node options).map Prod.fst
    | .clone => graph.clone

/-- A removal that reconnects skips the connections of the node to itself. A plain removal
is given the stored object or a name that no connection uses. -/
def KeepsClosed (graph : DirectedGraph) : GraphOperation → Prop
  | .removeNode node options =>
    if options.reconnectConnections then
      ∀ c ∈ graph.getConnections, c.fromNode = node → c.toNode = node → options.skips c = true
    else
      graph.Stores node ∨ ∀ c ∈ graph.getConnections, c.fromNode.name ≠ node.name ∧ c.toNode.name ≠ node.name
  | _ => True

instance (graph : DirectedGraph) (operation : GraphOperation) : Decidable (KeepsClosed graph operation) :=
  match operation with
  | .addNode _ | .addConnection _ | .clone => isTrue trivial
  | .removeNode _ _ => inferInstanceAs (Decidable (ite _ _ _))

namespace DirectedGraph

variable {graph : DirectedGraph} {node : GraphNode}

theorem Closed.addNode (closed : graph.Closed) (unused : graph.nodes.get node.name = none ∨ graph.Stores node) :
    (graph.addNode node).Closed := by
  have kept : ∀ other, graph.Stores other → (graph.addNode node).Stores other := by
    intro other stored
    refine stores_addNode.mpr ?_
    by_cases same : other.name = node.name
    · rcases unused with free | present
      · rw [Stores, same, free] at stored
        cases stored
      · exact .inl (stored.eq_of_name present same)
    · exact .inr ⟨same, stored⟩
  intro c member
  have ends := closed c member
  exact ⟨kept _ ends.1, kept _ ends.2⟩

theorem Closed.setConnection (closed : graph.Closed) {c : GraphConnection}
    (ends : graph.Stores c.fromNode ∧ graph.Stores c.toNode) : (graph.setConnection c).Closed := by
  intro d member
  rcases mem_setConnection.mp member with rfl | ⟨_, old⟩
  · exact ends
  · exact closed d old

theorem Closed.removeNode_reconnect (closed : graph.Closed) {options : RemoveNodeOptions}
    (reconnect : options.reconnectConnections = true)
    (skipped : ∀ c ∈ graph.getConnections, c.fromNode = node → c.toNode = node → options.skips c = true)
    {result : DirectedGraph × Option (List GraphConnection)} (removed : graph.removeNode node options = some result) :
    result.1.Closed := by
  have stored := stores_of_removeNode reconnect removed
  rw [DirectedGraph.removeNode_reconnect reconnect stored, some.injEq] at removed
  subst removed
  generalize made : reconnections options (graph.getConnections.filter (·.toNode = node))
    (graph.getConnections.filter (·.fromNode = node)) = newConnections
  have elsewhere : ∀ other, graph.Stores other → other ≠ node →
      ((newConnections.foldl DirectedGraph.setConnection (graph.deleteConnectionsOf node)).deleteName
        node.name).Stores other := by
    intro other present different
    rw [stores_deleteName, stores_foldl_setConnection]
    exact ⟨fun same => different (present.eq_of_name stored same), present⟩
  intro c member
  rcases mem_foldl_setConnection member with new | old
  · obtain ⟨i, hi, o, ho, keptIn, keptOut, rfl⟩ := mem_reconnections.mp (made ▸ new)
    simp only [List.mem_filter, decide_eq_true_eq] at hi ho
    have fromElsewhere : i.fromNode ≠ node := fun back => by simp [skipped i hi.1 back hi.2] at keptIn
    have toElsewhere : o.toNode ≠ node := fun back => by simp [skipped o ho.1 ho.2 back] at keptOut
    exact ⟨elsewhere _ (closed i hi.1).1 fromElsewhere, elsewhere _ (closed o ho.1).2 toElsewhere⟩
  · obtain ⟨before, toElsewhere, fromElsewhere⟩ := mem_deleteConnectionsOf.mp old
    exact ⟨elsewhere _ (closed c before).1 fromElsewhere, elsewhere _ (closed c before).2 toElsewhere⟩

theorem closed_deleteName_iff (closed : graph.Closed) : ((graph.deleteConnectionsOf node).deleteName node.name).Closed ↔
      graph.Stores node ∨ ∀ c ∈ graph.getConnections, c.fromNode.name ≠ node.name ∧ c.toNode.name ≠ node.name := by
  have ends : ∀ c ∈ graph.getConnections, ∀ other, graph.Stores other → graph.Stores node →
      other ≠ node → other.name ≠ node.name := by
    intro c _ other present stored different same
    exact different (present.eq_of_name stored same)
  simp only [Closed, stores_deleteName, getConnections_deleteName, mem_deleteConnectionsOf, stores_deleteConnectionsOf]
  constructor
  · intro closedAfter
    by_cases stored : graph.Stores node
    · exact .inl stored
    · refine .inr fun c member => ?_
      have notTo : c.toNode ≠ node := fun same => stored (same ▸ (closed c member).2)
      have notFrom : c.fromNode ≠ node := fun same => stored (same ▸ (closed c member).1)
      have after := closedAfter c ⟨member, notTo, notFrom⟩
      exact ⟨after.1.1, after.2.1⟩
  · rintro (stored | unused) c ⟨member, notTo, notFrom⟩
    · have before := closed c member
      exact ⟨⟨ends c member _ before.1 stored notFrom, before.1⟩, ⟨ends c member _ before.2 stored notTo, before.2⟩⟩
    · have before := closed c member
      exact ⟨⟨(unused c member).1, before.1⟩, ⟨(unused c member).2, before.2⟩⟩

end DirectedGraph

theorem graphSystem_step {graph next : DirectedGraph} {operation : GraphOperation} (closed : graph.Closed)
    (keeps : KeepsClosed graph operation) (taken : graphSystem.step graph operation = some next) : next.Closed := by
  cases operation with
  | addNode node =>
    simp only [graphSystem] at taken
    split at taken
    · rename_i unused
      simp only [some.injEq] at taken
      exact taken ▸ closed.addNode unused
    · cases taken
  | addConnection input =>
    simp only [graphSystem, DirectedGraph.addConnection] at taken
    split at taken
    · rename_i ends
      simp only [some.injEq] at taken
      exact taken ▸ closed.setConnection ends
    · cases taken
  | removeNode node options =>
    simp only [graphSystem, map_eq_some_iff] at taken
    obtain ⟨result, removed, rfl⟩ := taken
    cases reconnect : options.reconnectConnections with
    | true =>
      simp only [KeepsClosed, reconnect, if_true] at keeps
      exact closed.removeNode_reconnect reconnect keeps removed
    | false =>
      simp only [KeepsClosed, reconnect, Bool.false_eq_true, if_false] at keeps
      rw [removeNode_plain reconnect, some.injEq] at removed
      exact removed ▸ (closed_deleteName_iff closed).mpr keeps
  | clone =>
    simp only [graphSystem, closed.clone, some.injEq] at taken
    exact taken ▸ closed

/-- Every run of operations that keep the graph closed ends in a closed graph. -/
theorem graphSystem_closed {graph : DirectedGraph} (reached : graphSystem.ReachableVia KeepsClosed graph) :
    graph.Closed := by
  have start : graphSystem.init.Closed := by decide
  exact reached.invariant start fun _ _ _ closed keeps taken => graphSystem_step closed keeps taken

/-! ## Two runs -/

def connect (one two : GraphNode) (type : NodeConnectionType) : GraphOperation :=
  .addConnection ⟨one, two, some type, none, none⟩

def bypass : RemoveNodeOptions where
  reconnectConnections := true
  skipConnectionFn := some fun c => c.type ≠ .main

/-- The middle node of three has a connection to itself that is not of the main type. -/
def bypassedMiddle : List GraphOperation :=
  let a := plainNode 0 "a"
  let b := plainNode 1 "b"
  let c := plainNode 2 "c"
  [.addNode a, .addNode b, .addNode c, connect a b .main, connect b c .main, connect b b .aiTool,
    .removeNode b bypass, .clone]

theorem bypassedMiddle_closed : ∃ graph, graphSystem.ReachableVia KeepsClosed graph ∧
    graph.getConnections = [⟨plainNode 0 "a", plainNode 2 "c", .main, 0, 0⟩] ∧ graph.Closed := by
  let check := fun graph operation => decide (KeepsClosed graph operation)
  let expected := fun graph : DirectedGraph =>
    decide (graph.getConnections = [⟨plainNode 0 "a", plainNode 2 "c", .main, 0, 0⟩])
  have passed : (graphSystem.runChecked check graphSystem.init bypassedMiddle).any expected = true := by decide
  have sound : ∀ graph operation, check graph operation = true → KeepsClosed graph operation :=
    fun _ _ checked => of_decide_eq_true checked
  obtain ⟨graph, reached, connections⟩ :=
    TransitionSystem.reachableVia_runChecked check sound .init bypassedMiddle expected passed
  exact ⟨graph, reached, of_decide_eq_true connections, graphSystem_closed reached⟩

def bypassedLoop : List GraphOperation :=
  let a := plainNode 0 "a"
  [.addNode a, connect a a .main, .removeNode a bypass]

theorem bypassedLoop_not_closed : ¬∀ graph, graphSystem.Reachable graph → graph.Closed := by
  intro closed
  have left : (graphSystem.run bypassedLoop).any (fun graph => decide ¬graph.Closed) = true := by decide
  obtain ⟨graph, done, open'⟩ := (any_eq_true _ _).mp left
  exact of_decide_eq_true open' (closed graph (TransitionSystem.reachable_run done))

/-- So does a plain removal of another object with the name of a connected node. -/
example : (graphSystem.run [.addNode (plainNode 0 "a"), connect (plainNode 0 "a") (plainNode 0 "a") .main,
    .removeNode (plainNode 1 "a") ⟨false, none⟩]).any (fun graph => decide ¬graph.Closed) = true := by
  decide

end N8n.PartialExecution
