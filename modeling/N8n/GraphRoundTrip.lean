import N8n.EditableGraph
import N8n.MapConnections

/-! The graph written as a workflow and read back. Writing creates the connections of a
node with the bucket of the first connection only, so it throws at a connection of another
type; where it does not throw, the edges of what is written are those of the graph. -/

namespace N8n.PartialExecution

open List Option

structure Workflow where
  nodes : OrderedMap String GraphNode
  connectionsBySourceNode : IConnections

def Workflow.getNode (workflow : Workflow) (nodeName : String) : Option GraphNode := workflow.nodes.get nodeName

def pushSparse (outputs : NodeInputConnections) (index : ℕ) (connection : IConnection) : NodeInputConnections :=
  (outputs ++ List.replicate (index + 1 - outputs.length) none).modify index
    fun group => some (group.getD [] ++ [connection])

/-- One connection written; the index into a bucket that does not exist throws. -/
def fileOutput (result : IConnections) (c : GraphConnection) : Option IConnections :=
  let byType := (result.get c.fromNode.name).getD (OrderedMap.empty.set c.type [])
  (byType.get c.type).map fun outputs =>
    result.set c.fromNode.name
      (byType.set c.type (pushSparse outputs c.outputIndex ⟨c.toNode.name, c.type, c.inputIndex⟩))

namespace DirectedGraph

def toIConnections (graph : DirectedGraph) : Option IConnections := graph.getConnections.foldlM fileOutput .empty

/-- `setNodes` and `setConnections` of the new workflow. -/
def toWorkflow (graph : DirectedGraph) : Option Workflow :=
  graph.toIConnections.map fun connections =>
    { nodes := graph.getNodes.foldl (fun nodes node => nodes.set node.name node) .empty
      connectionsBySourceNode := connections }

def fromWorkflow (workflow : Workflow) : Option DirectedGraph :=
  workflow.connectionsBySourceNode.entries.foldlM (fun graph source => do
    let fromNode ← workflow.getNode source.1
    source.2.entries.foldlM (fun graph ofType =>
      ofType.2.zipIdx.foldlM (fun graph atIndex =>
        (atIndex.1.getD []).foldlM (fun graph conn => do
          let toNode ← workflow.getNode conn.node
          graph.addConnection ⟨fromNode, toNode, some ofType.1, some atIndex.2, some conn.index⟩) graph) graph) graph)
    (empty.addNodes workflow.nodes.values)

end DirectedGraph

/-! ## Writing -/

def GraphConnection.edge (c : GraphConnection) : ConnectionEdge :=
  ⟨c.fromNode.name, c.type, c.outputIndex, c.toNode.name, c.type, c.inputIndex⟩

theorem edgesOfType_pushSparse (node : String) (type : NodeConnectionType) (outputs : NodeInputConnections)
    (index : ℕ) (connection : IConnection) :
    (edgesOfType node (type, pushSparse outputs index connection)).Perm (edgesOfType node (type, outputs) ++
        [⟨node, type, index, connection.node, connection.type, connection.index⟩]) :=
  edgesOfType_push node type rfl index fun _ _ => rfl

section Writing

variable {result next : IConnections} {c d : GraphConnection} {done cs : List GraphConnection}

theorem connectionEdges_fileOutput (filed : fileOutput result c = some next) :
    (connectionEdges next).Perm (connectionEdges result ++ [c.edge]) := by
  simp only [fileOutput, map_eq_some_iff] at filed
  obtain ⟨outputs, ofType, rfl⟩ := filed
  let byType := (result.get c.fromNode.name).getD (OrderedMap.empty.set c.type [])
  let pushed := pushSparse outputs c.outputIndex ⟨c.toNode.name, c.type, c.inputIndex⟩
  have atType : (edgesOfType c.fromNode.name (c.type, pushed)).Perm
      ((byType.get c.type).elim [] (fun old => edgesOfType c.fromNode.name (c.type, old)) ++ [c.edge]) := by
    rw [ofType]
    exact edgesOfType_pushSparse _ _ _ _ _
  have atNode := byType.flatMap_set_perm (edgesOfType c.fromNode.name) atType
  refine result.flatMap_set_perm edgesOfNode (atNode.trans ?_)
  cases found : result.get c.fromNode.name with
  | none => simp [byType, found, edgesOfType, OrderedMap.set, OrderedMap.empty, OrderedMap.setEntry]
  | some old => simp [byType, found, edgesOfNode]

structure Buckets (result : IConnections) (done : List GraphConnection) : Prop where
  written : ∀ name byType, result.get name = some byType → ∃ c ∈ done, c.fromNode.name = name
  single : ∀ c ∈ done, ∃ byType, result.get c.fromNode.name = some byType ∧ byType.entries.map Prod.fst = [c.type]

theorem Buckets.empty : Buckets .empty [] where
  written := fun _ _ found => by cases found
  single := fun _ member => by cases member

def Uniform (cs : List GraphConnection) : Prop :=
  ∀ c ∈ cs, ∀ d ∈ cs, c.fromNode.name = d.fromNode.name → c.type = d.type

theorem Buckets.uniform (buckets : Buckets result done) : Uniform done := by
  intro c hc d hd same
  obtain ⟨byType, found, ofC⟩ := buckets.single c hc
  obtain ⟨other, foundD, ofD⟩ := buckets.single d hd
  rw [same, foundD, some.injEq] at found
  subst found
  rw [ofC] at ofD
  exact (List.cons.inj ofD).1

theorem keys_set_single {byType : INodeConnections} {type : NodeConnectionType} {outputs : NodeInputConnections}
    (single : byType.entries.map Prod.fst = [type]) : (byType.set type outputs).entries.map Prod.fst = [type] := by
  obtain ⟨entries, distinct⟩ := byType
  simp only at single
  obtain ⟨entry, rfl⟩ : ∃ entry, entries = [entry] :=
    length_eq_one_iff.mp (by simpa using congrArg List.length single)
  simp only [map_cons, map_nil, List.cons.injEq, and_true] at single
  simp [OrderedMap.set, OrderedMap.setEntry, single]

theorem fileOutput_isSome (buckets : Buckets result done) :
    (fileOutput result c).isSome ↔ ∀ d ∈ done, d.fromNode.name = c.fromNode.name → d.type = c.type := by
  simp only [fileOutput, isSome_map]
  cases found : result.get c.fromNode.name with
  | none =>
    simp only [getD_none, OrderedMap.get_set_self, isSome_some, true_iff]
    intro d member same
    obtain ⟨byType, present, _⟩ := buckets.single d member
    rw [same, found] at present
    cases present
  | some byType =>
    obtain ⟨e, he, sameE⟩ := buckets.written _ byType found
    obtain ⟨other, foundE, single⟩ := buckets.single e he
    rw [sameE, found, some.injEq] at foundE
    subst foundE
    have present : (byType.get c.type).isSome ↔ c.type = e.type := by
      rw [← ne_none_iff_isSome, ne_eq, byType.get_eq_none_iff, single]
      simp
    rw [getD_some, present]
    constructor
    · intro same d member name
      rw [same]
      exact buckets.uniform d member e he (name.trans sameE.symm)
    · intro all
      exact (all e he sameE).symm

theorem Buckets.fileOutput (buckets : Buckets result done) (filed : fileOutput result c = some next) :
    Buckets next (done ++ [c]) := by
  have agree := (fileOutput_isSome buckets).mp (by rw [filed]; rfl)
  simp only [PartialExecution.fileOutput, map_eq_some_iff] at filed
  obtain ⟨outputs, ofType, rfl⟩ := filed
  refine ⟨fun name byType found => ?_, fun d member => ?_⟩
  · rw [OrderedMap.get_set] at found
    split at found
    · rename_i same
      exact ⟨c, by simp, same.symm⟩
    · obtain ⟨d, old, same⟩ := buckets.written name byType found
      exact ⟨d, mem_append_left _ old, same⟩
  · by_cases same : d.fromNode.name = c.fromNode.name
    · have sameType : d.type = c.type := by
        rcases mem_append.mp member with old | new
        · exact agree d old same
        · rw [mem_singleton.mp new]
      refine ⟨_, by rw [same]; exact result.get_set_self _ _, ?_⟩
      rw [sameType]
      refine keys_set_single ?_
      cases found : result.get c.fromNode.name with
      | none => rfl
      | some byType =>
        obtain ⟨e, he, sameE⟩ := buckets.written _ byType found
        obtain ⟨other, foundE, single⟩ := buckets.single e he
        rw [sameE, found, some.injEq] at foundE
        rw [getD_some, foundE, single, agree e he sameE]
    · have old : d ∈ done := by
        rcases mem_append.mp member with old | new
        · exact old
        · exact absurd (congrArg (·.fromNode.name) (mem_singleton.mp new)) same
      obtain ⟨byType, found, single⟩ := buckets.single d old
      exact ⟨byType, by rw [result.get_set_ne _ same, found], single⟩

theorem foldlM_fileOutput (buckets : Buckets result done) :
    ((cs.foldlM fileOutput result).isSome ↔ Uniform (done ++ cs)) ∧ ∀ final, cs.foldlM fileOutput result = some final →
        Buckets final (done ++ cs) ∧ (connectionEdges final).Perm (connectionEdges result ++ cs.map (·.edge)) := by
  induction cs generalizing result done with
  | nil =>
    simp only [foldlM_nil, append_nil, map_nil]
    refine ⟨⟨fun _ => buckets.uniform, fun _ => rfl⟩, fun final same => ?_⟩
    obtain rfl := some.inj same
    exact ⟨buckets, Perm.refl _⟩
  | cons c cs ih =>
    rw [foldlM_cons]
    cases filed : fileOutput result c with
    | none =>
      refine ⟨⟨fun some => (by cases some), fun uniform => ?_⟩, fun final same => by cases same⟩
      have agree : ∀ d ∈ done, d.fromNode.name = c.fromNode.name → d.type = c.type := fun d member =>
        uniform d (mem_append_left _ member) c (by simp)
      have filedSome := (fileOutput_isSome buckets).mpr agree
      rw [filed] at filedSome
      cases filedSome
    | some next =>
      have rest := ih (buckets.fileOutput filed)
      rw [append_assoc, singleton_append] at rest
      refine ⟨rest.1, fun final same => ?_⟩
      obtain ⟨bucketsFinal, edges⟩ := rest.2 final same
      refine ⟨bucketsFinal, edges.trans ?_⟩
      have one := (connectionEdges_fileOutput filed).append_right (cs.map (·.edge))
      rwa [append_assoc, singleton_append] at one

end Writing

/-! ## Reading -/

section Reading

/-- The connection that is added for an edge, where `find` is the lookup of nodes. -/
def connectionOf (find : String → GraphNode) (edge : ConnectionEdge) : GraphConnection :=
  ⟨find edge.node, find edge.toNode, edge.type, edge.index, edge.toIndex⟩

variable {workflow : Workflow} {find : String → GraphNode}

theorem fromWorkflow_eq (named : ∀ name node, workflow.nodes.get name = some node → node.name = name)
    (sources : ∀ entry ∈ workflow.connectionsBySourceNode.entries, workflow.getNode entry.1 = some (find entry.1))
    (targets : ∀ edge ∈ connectionEdges workflow.connectionsBySourceNode,
      workflow.getNode edge.toNode = some (find edge.toNode)) :
    DirectedGraph.fromWorkflow workflow =
      some (((connectionEdges workflow.connectionsBySourceNode).map (connectionOf find)).foldl
        DirectedGraph.setConnection (DirectedGraph.empty.addNodes workflow.nodes.values)) := by
  let kept := fun graph : DirectedGraph => graph.nodes = workflow.nodes
  have stored : ∀ graph, kept graph → ∀ name, workflow.getNode name = some (find name) → graph.Stores (find name) := by
    intro graph same name found
    rw [DirectedGraph.Stores, show graph.nodes = workflow.nodes from same, named name (find name) found]
    exact found
  have start : kept (DirectedGraph.empty.addNodes workflow.nodes.values) := by
    simp only [kept, DirectedGraph.nodes_addNodes]
    exact workflow.nodes.foldl_set_values named
  have whole : DirectedGraph.fromWorkflow workflow =
      some (workflow.connectionsBySourceNode.entries.foldl (fun graph source =>
        source.2.entries.foldl (fun graph ofType =>
          ofType.2.zipIdx.foldl (fun graph atIndex =>
            (atIndex.1.getD []).foldl (fun graph conn => graph.setConnection
              (connectionOf find ⟨source.1, ofType.1, atIndex.2, conn.node, conn.type, conn.index⟩))
              graph) graph) graph) (DirectedGraph.empty.addNodes workflow.nodes.values)) := by
    refine (foldlM_eq_foldl (I := kept) (fun source hs graph same => ?_) start).1
    rw [sources source hs]
    refine foldlM_eq_foldl (fun ofType ht graph same => ?_) same
    refine foldlM_eq_foldl (fun atIndex hi graph same => ?_) same
    refine foldlM_eq_foldl (fun conn hc graph same => ?_) same
    have edge : (⟨source.1, ofType.1, atIndex.2, conn.node, conn.type, conn.index⟩ : ConnectionEdge) ∈
        connectionEdges workflow.connectionsBySourceNode :=
      mem_flatMap.mpr ⟨source, hs, mem_flatMap.mpr ⟨ofType, ht,
        mem_flatMap.mpr ⟨atIndex, hi, List.mem_map.mpr ⟨conn, hc, rfl⟩⟩⟩⟩
    have found := targets _ edge
    have ends := And.intro (stored graph same _ (sources source hs)) (stored graph same _ found)
    simp only at found
    rw [found]
    exact ⟨if_pos ends, same⟩
  rw [whole]
  simp only [connectionEdges, edgesOfNode, edgesOfType, edgesOfIndex, foldl_flatMap, foldl_map]

end Reading

namespace DirectedGraph

variable {graph : DirectedGraph}

def OneTypePerNode (graph : DirectedGraph) : Prop :=
  ∀ c ∈ graph.getConnections, ∀ d ∈ graph.getConnections, c.fromNode = d.fromNode → c.type = d.type

instance (graph : DirectedGraph) : Decidable graph.OneTypePerNode :=
  inferInstanceAs (Decidable (∀ c ∈ graph.getConnections, ∀ d ∈ graph.getConnections, _))

theorem Closed.uniform_iff (closed : graph.Closed) : Uniform graph.getConnections ↔ graph.OneTypePerNode := by
  refine ⟨fun uniform c hc d hd same => uniform c hc d hd (congrArg _ same), fun one c hc d hd same => ?_⟩
  exact one c hc d hd ((closed c hc).1.eq_of_name (closed d hd).1 same)

theorem toIConnections_isSome (closed : graph.Closed) : graph.toIConnections.isSome ↔ graph.OneTypePerNode := by
  rw [← closed.uniform_iff]
  exact (foldlM_fileOutput Buckets.empty).1

theorem fromWorkflow_toWorkflow (closed : graph.Closed) {workflow : Workflow}
    (written : graph.toWorkflow = some workflow) :
    ∃ again, fromWorkflow workflow = some again ∧ again.nodes = graph.nodes ∧
      ∀ c, c ∈ again.getConnections ↔ c ∈ graph.getConnections := by
  simp only [toWorkflow, map_eq_some_iff] at written
  obtain ⟨connections, filed, rfl⟩ := written
  obtain ⟨buckets, edges⟩ := (foldlM_fileOutput Buckets.empty).2 connections filed
  have nodes : graph.getNodes.foldl (fun nodes node => nodes.set node.name node) .empty = graph.nodes :=
    graph.nodes.foldl_set_values graph.named
  let find := fun name => (graph.nodes.get name).getD ⟨0, name, "", false⟩
  have found : ∀ node, graph.Stores node → graph.nodes.get node.name = some (find node.name) ∧
      find node.name = node := by
    intro node stored
    have get : graph.nodes.get node.name = some node := stored
    simp only [find, get, getD_some, and_self]
  have isEdge : ∀ edge, edge ∈ connectionEdges connections ↔ ∃ c ∈ graph.getConnections, c.edge = edge := by
    intro edge
    rw [edges.mem_iff]
    simp [connectionEdges, OrderedMap.empty]
  have sources : ∀ entry ∈ connections.entries, graph.nodes.get entry.1 = some (find entry.1) := by
    intro entry member
    obtain ⟨c, hc, same⟩ := buckets.written _ _ (connections.mem_entries_iff.mp member)
    rw [← same]
    exact (found _ (closed c hc).1).1
  have targets : ∀ edge ∈ connectionEdges connections, graph.nodes.get edge.toNode = some (find edge.toNode) := by
    intro edge member
    obtain ⟨c, hc, rfl⟩ := (isEdge edge).mp member
    exact (found _ (closed c hc).2).1
  have back : ∀ c ∈ graph.getConnections, connectionOf find c.edge = c := by
    intro c hc
    simp only [connectionOf, GraphConnection.edge, (found _ (closed c hc).1).2, (found _ (closed c hc).2).2]
  have added : ∀ c, c ∈ (connectionEdges connections).map (connectionOf find) ↔ c ∈ graph.getConnections := by
    intro c
    rw [List.mem_map]
    constructor
    · rintro ⟨edge, member, rfl⟩
      obtain ⟨d, hd, rfl⟩ := (isEdge edge).mp member
      exact (back d hd).symm ▸ hd
    · intro hc
      exact ⟨c.edge, (isEdge c.edge).mpr ⟨c, hc, rfl⟩, back c hc⟩
  rw [nodes, fromWorkflow_eq graph.named sources targets]
  have empty : (DirectedGraph.empty.addNodes graph.nodes.values).getConnections = [] := by
    rw [getConnections, connections_addNodes]
    rfl
  refine ⟨_, rfl, ?_, fun c => ?_⟩
  · rw [nodes_foldl_setConnection, nodes_addNodes]
    exact nodes
  · rw [mem_foldl_setConnection_iff, empty, added]
    · simp
    · simp only [empty, added, not_mem_nil, or_false]
      exact fun c hc e he same => eq_of_makeKey hc he same

/-- Writing a graph and reading it back gives the same graph exactly when the connections
that leave one node have one type; otherwise writing throws. -/
theorem roundTrip_iff (closed : graph.Closed) :
    (∃ workflow again, graph.toWorkflow = some workflow ∧ fromWorkflow workflow = some again ∧
        again.nodes = graph.nodes ∧ ∀ c, c ∈ again.getConnections ↔ c ∈ graph.getConnections) ↔
      graph.OneTypePerNode := by
  have written : graph.toWorkflow.isSome = graph.toIConnections.isSome := isSome_map
  constructor
  · rintro ⟨workflow, _, done, _⟩
    rw [← toIConnections_isSome closed, ← written, done]
    rfl
  · intro one
    rw [← toIConnections_isSome closed, ← written] at one
    obtain ⟨workflow, done⟩ := isSome_iff_exists.mp one
    obtain ⟨again, read, same⟩ := fromWorkflow_toWorkflow closed done
    exact ⟨workflow, again, done, read, same⟩

/-! ## Two graphs -/

/-- Four connections, with gaps between the outputs and a model that is used by an agent. -/
def sparseGraph : DirectedGraph :=
  let a := plainNode 0 "a"
  let b := plainNode 1 "b"
  let model := plainNode 2 "model"
  [⟨a, b, .main, 3, 0⟩, ⟨a, b, .main, 1, 2⟩, ⟨b, a, .main, 0, 0⟩, ⟨model, b, .aiLanguageModel, 0, 0⟩].foldl
    setConnection (empty.addNodes [a, b, model])

theorem sparseGraph_roundTrip : ∃ workflow again, sparseGraph.toWorkflow = some workflow ∧
    fromWorkflow workflow = some again ∧ again.nodes = sparseGraph.nodes ∧
      ∀ c, c ∈ again.getConnections ↔ c ∈ sparseGraph.getConnections :=
  (roundTrip_iff (by decide)).mpr (by decide)

/-- A model that also passes its output on. -/
def mixedGraph : DirectedGraph :=
  let a := plainNode 0 "a"
  let b := plainNode 1 "b"
  [⟨a, b, .main, 0, 0⟩, ⟨a, b, .aiTool, 0, 0⟩].foldl setConnection (empty.addNodes [a, b])

theorem mixedGraph_not_written : mixedGraph.Closed ∧ mixedGraph.toWorkflow.isSome = false := by decide

end DirectedGraph

end N8n.PartialExecution
