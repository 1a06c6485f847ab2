import N8n.Workflow

/-! The graph class of partial executions with its two maps: nodes under their names and
connections under keys that are made from their ends. Nodes are compared by identity. An
operation whose assertion fails is `none`. -/

namespace N8n

open List OrderedMap

def NodeConnectionType.text : NodeConnectionType → String
  | aiAgent => "ai_agent"
  | aiChain => "ai_chain"
  | aiDocument => "ai_document"
  | aiEmbedding => "ai_embedding"
  | aiLanguageModel => "ai_languageModel"
  | aiMemory => "ai_memory"
  | aiOutputParser => "ai_outputParser"
  | aiRetriever => "ai_retriever"
  | aiReranker => "ai_reranker"
  | aiTextSplitter => "ai_textSplitter"
  | aiTool => "ai_tool"
  | aiVectorStore => "ai_vectorStore"
  | main => "main"

namespace PartialExecution

/-- What is read of a node object. Two objects may carry the same name. -/
structure GraphNode where
  identity : ℕ
  name : String
  type : String
  disabled : Bool
  deriving DecidableEq

def plainNode (identity : ℕ) (name : String) : GraphNode := ⟨identity, name, "n8n-nodes-base.noOp", false⟩

structure GraphConnection where
  fromNode : GraphNode
  toNode : GraphNode
  type : NodeConnectionType
  outputIndex : ℕ
  inputIndex : ℕ
  deriving DecidableEq

/-- The argument of `addConnection`. -/
structure ConnectionInput where
  fromNode : GraphNode
  toNode : GraphNode
  type : Option NodeConnectionType
  outputIndex : Option ℕ
  inputIndex : Option ℕ
  deriving DecidableEq

def ConnectionInput.connection (input : ConnectionInput) : GraphConnection where
  fromNode := input.fromNode
  toNode := input.toNode
  type := input.type.getD .main
  outputIndex := input.outputIndex.getD 0
  inputIndex := input.inputIndex.getD 0

def GraphConnection.input (c : GraphConnection) : ConnectionInput where
  fromNode := c.fromNode
  toNode := c.toNode
  type := some c.type
  outputIndex := some c.outputIndex
  inputIndex := some c.inputIndex

def makeKey (c : GraphConnection) : String :=
  c.fromNode.name ++ "-" ++ c.type.text ++ "-" ++ toString c.outputIndex ++ "-" ++
    toString c.inputIndex ++ "-" ++ c.toNode.name

structure RemoveNodeOptions where
  reconnectConnections : Bool
  skipConnectionFn : Option (GraphConnection → Bool)

def RemoveNodeOptions.skips (options : RemoveNodeOptions) (c : GraphConnection) : Bool :=
  match options.skipConnectionFn with
  | none => false
  | some skip => skip c

/-- Nodes and connections are stored under their own names and keys. -/
structure DirectedGraph where
  nodes : OrderedMap String GraphNode
  connections : OrderedMap String GraphConnection
  named : ∀ name node, nodes.get name = some node → node.name = name
  keyed : ∀ key c, connections.get key = some c → makeKey c = key
  deriving DecidableEq

namespace DirectedGraph

def empty : DirectedGraph where
  nodes := .empty
  connections := .empty
  named := fun _ _ found => by cases found
  keyed := fun _ _ found => by cases found

def hasNode (graph : DirectedGraph) (nodeName : String) : Bool := graph.nodes.has nodeName

def getNodes (graph : DirectedGraph) : List GraphNode := graph.nodes.values

def getConnections (graph : DirectedGraph) : List GraphConnection := graph.connections.values

def Stores (graph : DirectedGraph) (node : GraphNode) : Prop := graph.nodes.get node.name = some node

instance (graph : DirectedGraph) (node : GraphNode) : Decidable (graph.Stores node) :=
  inferInstanceAs (Decidable (_ = _))

def addNode (graph : DirectedGraph) (node : GraphNode) : DirectedGraph where
  nodes := graph.nodes.set node.name node
  connections := graph.connections
  named := fun name other found => by
    rw [get_set] at found
    split at found
    · rename_i same
      simp only [Option.some.injEq] at found
      rw [← found, same]
    · exact graph.named name other found
  keyed := graph.keyed

def addNodes (graph : DirectedGraph) (nodes : List GraphNode) : DirectedGraph := nodes.foldl addNode graph

/-- `connections.set(makeKey(c), c)`. -/
def setConnection (graph : DirectedGraph) (c : GraphConnection) : DirectedGraph where
  nodes := graph.nodes
  connections := graph.connections.set (makeKey c) c
  named := graph.named
  keyed := fun key other found => by
    rw [get_set] at found
    split at found
    · rename_i same
      simp only [Option.some.injEq] at found
      rw [← found, same]
    · exact graph.keyed key other found

def addConnection (graph : DirectedGraph) (input : ConnectionInput) : Option DirectedGraph :=
  if graph.Stores input.fromNode ∧ graph.Stores input.toNode then
    some (graph.setConnection input.connection)
  else none

def addConnections (graph : DirectedGraph) (inputs : List ConnectionInput) : Option DirectedGraph :=
  inputs.foldlM addConnection graph

def getDirectChildConnections (graph : DirectedGraph) (node : GraphNode) : Option (List GraphConnection) :=
  if graph.Stores node then some (graph.getConnections.filter (·.fromNode = node)) else none

def getDirectParentConnections (graph : DirectedGraph) (node : GraphNode) : Option (List GraphConnection) :=
  if graph.Stores node then some (graph.getConnections.filter (·.toNode = node)) else none

def deleteConnectionsOf (graph : DirectedGraph) (node : GraphNode) : DirectedGraph where
  nodes := graph.nodes
  connections := graph.connections.filter fun c => ¬(c.toNode = node ∨ c.fromNode = node)
  named := graph.named
  keyed := fun key c found => graph.keyed key c ((graph.connections.get_filter _).mp found).1

/-- `nodes.delete(name)`. -/
def deleteName (graph : DirectedGraph) (name : String) : DirectedGraph where
  nodes := graph.nodes.delete name
  connections := graph.connections
  named := fun other node found => graph.named other node (graph.nodes.get_delete_some found)
  keyed := graph.keyed

def reconnections (options : RemoveNodeOptions) (incoming outgoing : List GraphConnection) :
    List GraphConnection :=
  (incoming.filter (!options.skips ·)).flatMap fun incomingConnection =>
    (outgoing.filter (!options.skips ·)).map fun outgoingConnection =>
      { incomingConnection with
        toNode := outgoingConnection.toNode
        inputIndex := outgoingConnection.inputIndex }

/-- The graph afterwards and the new connections, which are `undefined` without reconnection. -/
def removeNode (graph : DirectedGraph) (node : GraphNode) (options : RemoveNodeOptions) :
    Option (DirectedGraph × Option (List GraphConnection)) :=
  if options.reconnectConnections then do
    let incomingConnections ← graph.getDirectParentConnections node
    let outgoingConnections ← graph.getDirectChildConnections node
    let newConnections := reconnections options incomingConnections outgoingConnections
    let rewired := newConnections.foldl setConnection (graph.deleteConnectionsOf node)
    some (rewired.deleteName node.name, some newConnections)
  else some ((graph.deleteConnectionsOf node).deleteName node.name, none)

def clone (graph : DirectedGraph) : Option DirectedGraph :=
  (empty.addNodes graph.getNodes).addConnections (graph.getConnections.map (·.input))

/-! ## What the maps hold -/

variable {graph : DirectedGraph} {node other : GraphNode} {c d : GraphConnection}

theorem mem_getConnections : c ∈ graph.getConnections ↔ graph.connections.get (makeKey c) = some c :=
  get_of_values_key graph.keyed

theorem mem_getNodes : node ∈ graph.getNodes ↔ graph.Stores node := get_of_values_key graph.named

theorem eq_of_makeKey (hc : c ∈ graph.getConnections) (hd : d ∈ graph.getConnections)
    (same : makeKey c = makeKey d) : c = d := by
  have first := mem_getConnections.mp hc
  rw [same, mem_getConnections.mp hd] at first
  exact (Option.some.inj first).symm

theorem Stores.eq_of_name (one : graph.Stores node) (two : graph.Stores other)
    (same : node.name = other.name) : node = other := by
  have first : graph.nodes.get node.name = some node := one
  rw [same, show graph.nodes.get other.name = some other from two] at first
  exact (Option.some.inj first).symm

theorem stores_addNode :
    (graph.addNode node).Stores other ↔ other = node ∨ other.name ≠ node.name ∧ graph.Stores other := by
  simp only [Stores, addNode, get_set]
  by_cases same : other.name = node.name
  · simp [same, eq_comm]
  · have different : other ≠ node := fun h => same (congrArg GraphNode.name h)
    simp [same, different]

@[simp] theorem getConnections_addNode : (graph.addNode node).getConnections = graph.getConnections := rfl

@[simp] theorem stores_setConnection : (graph.setConnection c).Stores node ↔ graph.Stores node := Iff.rfl

theorem mem_setConnection :
    d ∈ (graph.setConnection c).getConnections ↔ d = c ∨ makeKey d ≠ makeKey c ∧ d ∈ graph.getConnections := by
  rw [mem_getConnections, mem_getConnections, setConnection, get_set]
  by_cases same : makeKey d = makeKey c
  · simp [same, eq_comm]
  · have different : d ≠ c := fun h => same (congrArg makeKey h)
    simp [same, different]

variable {cs : List GraphConnection} {name : String} {nodes : List GraphNode}

@[simp] theorem stores_foldl_setConnection : (cs.foldl setConnection graph).Stores node ↔ graph.Stores node := by
  induction cs generalizing graph with
  | nil => exact Iff.rfl
  | cons c cs ih => exact ih.trans stores_setConnection

theorem mem_foldl_setConnection
    (member : d ∈ (cs.foldl setConnection graph).getConnections) : d ∈ cs ∨ d ∈ graph.getConnections := by
  induction cs generalizing graph with
  | nil => exact .inr member
  | cons c cs ih =>
    rcases ih member with new | old
    · exact .inl (mem_cons_of_mem _ new)
    · rcases mem_setConnection.mp old with rfl | ⟨_, before⟩
      · exact .inl mem_cons_self
      · exact .inr before

theorem mem_foldl_setConnection_iff
    (distinct : ∀ c ∈ cs, ∀ e, e ∈ cs ∨ e ∈ graph.getConnections → makeKey c = makeKey e → c = e) :
    d ∈ (cs.foldl setConnection graph).getConnections ↔ d ∈ cs ∨ d ∈ graph.getConnections := by
  induction cs generalizing graph with
  | nil => simp
  | cons c cs ih =>
    have later : ∀ a ∈ cs, ∀ e, e ∈ cs ∨ e ∈ (graph.setConnection c).getConnections →
        makeKey a = makeKey e → a = e := by
      intro a ha e he
      refine distinct a (mem_cons_of_mem _ ha) e ?_
      rw [mem_setConnection] at he
      rcases he with new | rfl | ⟨_, old⟩
      · exact .inl (mem_cons_of_mem _ new)
      · exact .inl mem_cons_self
      · exact .inr old
    have shared : d ∈ graph.getConnections → makeKey d = makeKey c → d = c := fun old same =>
      (distinct c mem_cons_self d (.inr old) same.symm).symm
    rw [foldl_cons, ih later, mem_setConnection, mem_cons]
    by_cases same : makeKey d = makeKey c
    · constructor
      · rintro (new | rfl | ⟨different, _⟩)
        · exact .inl (.inr new)
        · exact .inl (.inl rfl)
        · exact absurd same different
      · rintro ((here | new) | old)
        · exact .inr (.inl here)
        · exact .inl new
        · exact .inr (.inl (shared old same))
    · simp only [ne_eq, same, not_false_eq_true, true_and]
      exact or_left_comm.trans or_assoc.symm

@[simp] theorem stores_deleteConnectionsOf : (graph.deleteConnectionsOf node).Stores other ↔ graph.Stores other :=
  Iff.rfl

theorem mem_deleteConnectionsOf : c ∈ (graph.deleteConnectionsOf node).getConnections ↔
      c ∈ graph.getConnections ∧ c.toNode ≠ node ∧ c.fromNode ≠ node := by
  rw [mem_getConnections, mem_getConnections, deleteConnectionsOf, get_filter]
  simp

theorem stores_deleteName : (graph.deleteName name).Stores node ↔ node.name ≠ name ∧ graph.Stores node := by
  simp only [Stores, deleteName, get_delete]
  split <;> simp [*]

@[simp] theorem getConnections_deleteName : (graph.deleteName name).getConnections = graph.getConnections := rfl

variable {options : RemoveNodeOptions}

theorem mem_reconnections {incoming outgoing : List GraphConnection} : c ∈ reconnections options incoming outgoing ↔
      ∃ i ∈ incoming, ∃ o ∈ outgoing, options.skips i = false ∧ options.skips o = false ∧
        c = { i with toNode := o.toNode, inputIndex := o.inputIndex } := by
  simp only [reconnections, mem_flatMap, mem_map, mem_filter, Bool.not_eq_eq_eq_not, Bool.not_true]
  constructor
  · rintro ⟨i, ⟨hi, keptIn⟩, o, ⟨ho, keptOut⟩, rfl⟩
    exact ⟨i, hi, o, ho, keptIn, keptOut, rfl⟩
  · rintro ⟨i, hi, o, ho, keptIn, keptOut, rfl⟩
    exact ⟨i, ⟨hi, keptIn⟩, o, ⟨ho, keptOut⟩, rfl⟩

theorem removeNode_reconnect (reconnect : options.reconnectConnections = true) (stored : graph.Stores node) :
    graph.removeNode node options =
      let newConnections := reconnections options (graph.getConnections.filter (·.toNode = node))
        (graph.getConnections.filter (·.fromNode = node))
      some (((newConnections.foldl setConnection (graph.deleteConnectionsOf node)).deleteName node.name),
        some newConnections) := by
  simp [removeNode, reconnect, getDirectParentConnections, getDirectChildConnections, stored]

theorem removeNode_plain (plain : options.reconnectConnections = false) :
    graph.removeNode node options = some ((graph.deleteConnectionsOf node).deleteName node.name, none) := by
  simp [removeNode, plain]

theorem stores_of_removeNode (reconnect : options.reconnectConnections = true)
    {result : DirectedGraph × Option (List GraphConnection)}
    (removed : graph.removeNode node options = some result) : graph.Stores node := by
  by_contra absent
  simp [removeNode, reconnect, getDirectParentConnections, absent] at removed

/-! ## Closed graphs -/

def Closed (graph : DirectedGraph) : Prop :=
  ∀ c ∈ graph.getConnections, graph.Stores c.fromNode ∧ graph.Stores c.toNode

instance (graph : DirectedGraph) : Decidable graph.Closed :=
  inferInstanceAs (Decidable (∀ c ∈ graph.getConnections, _))

theorem addConnections_eq (stored : ∀ c ∈ cs, graph.Stores c.fromNode ∧ graph.Stores c.toNode) :
    graph.addConnections (cs.map (·.input)) = some (cs.foldl setConnection graph) := by
  induction cs generalizing graph with
  | nil => rfl
  | cons c cs ih =>
    have here := stored c mem_cons_self
    have first : graph.addConnection c.input = some (graph.setConnection c) := if_pos here
    rw [addConnections, map_cons, foldlM_cons, first]
    exact ih fun d member => stored d (mem_cons_of_mem _ member)

theorem nodes_addNodes :
    (graph.addNodes nodes).nodes = nodes.foldl (fun copy node => copy.set node.name node) graph.nodes := by
  induction nodes generalizing graph with
  | nil => rfl
  | cons node nodes ih => exact ih

theorem connections_addNodes : (graph.addNodes nodes).connections = graph.connections := by
  induction nodes generalizing graph with
  | nil => rfl
  | cons node nodes ih => exact ih

theorem nodes_foldl_setConnection : (cs.foldl setConnection graph).nodes = graph.nodes := by
  induction cs generalizing graph with
  | nil => rfl
  | cons c cs ih => exact ih

theorem connections_foldl_setConnection : (cs.foldl setConnection graph).connections =
      cs.foldl (fun copy c => copy.set (makeKey c) c) graph.connections := by
  induction cs generalizing graph with
  | nil => rfl
  | cons c cs ih => exact ih

theorem ext_maps {one two : DirectedGraph} (nodes : one.nodes = two.nodes)
    (connections : one.connections = two.connections) : one = two := by
  cases one
  cases two
  simp only at nodes connections
  subst nodes connections
  rfl

theorem Closed.clone (closed : graph.Closed) : graph.clone = some graph := by
  have copied : (empty.addNodes graph.getNodes).nodes = graph.nodes := by
    rw [nodes_addNodes]
    exact graph.nodes.foldl_set_values graph.named
  have stored : ∀ c ∈ graph.getConnections, (empty.addNodes graph.getNodes).Stores c.fromNode ∧
      (empty.addNodes graph.getNodes).Stores c.toNode := by
    simp only [Stores, copied]
    exact closed
  rw [DirectedGraph.clone, addConnections_eq stored]
  refine congrArg some (ext_maps ?_ ?_)
  · rw [nodes_foldl_setConnection, copied]
  · rw [connections_foldl_setConnection, connections_addNodes]
    exact graph.connections.foldl_set_values graph.keyed

end DirectedGraph

end PartialExecution

end N8n
