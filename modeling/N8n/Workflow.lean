import N8n.OrderedMap

/-! The part of a workflow that its graph algorithms and the execution engine
read: nodes by name, connections by source and by destination node, and the
execution order. An output or input without connections is `null` in the source
and `none` here. -/

namespace N8n

inductive NodeConnectionType
  | aiAgent
  | aiChain
  | aiDocument
  | aiEmbedding
  | aiLanguageModel
  | aiMemory
  | aiOutputParser
  | aiRetriever
  | aiReranker
  | aiTextSplitter
  | aiTool
  | aiVectorStore
  | main
  deriving DecidableEq

theorem main_alone : [NodeConnectionType.main].Nodup := by decide

structure IConnection where
  node : String
  type : NodeConnectionType
  index : ℕ
  deriving DecidableEq

abbrev NodeInputConnections := List (Option (List IConnection))

abbrev INodeConnections := OrderedMap NodeConnectionType NodeInputConnections

abbrev IConnections := OrderedMap String INodeConnections

structure INode where
  name : String
  deriving DecidableEq

inductive ExecutionOrder
  | v0
  | v1
  deriving DecidableEq

structure Workflow where
  nodes : OrderedMap String INode
  named : ∀ name node, nodes.get name = some node → node.name = name
  connectionsBySourceNode : IConnections
  connectionsByDestinationNode : IConnections
  executionOrder : Option ExecutionOrder

namespace Workflow

/-- The condition on `nodes`, checked entry by entry. -/
theorem named_of_entries {nodes : OrderedMap String INode} (entries : ∀ entry ∈ nodes.entries, entry.2.name = entry.1) :
    ∀ name node, nodes.get name = some node → node.name = name := fun name node found =>
  entries (name, node) (nodes.mem_entries_iff.mpr found)

def getNode (w : Workflow) (nodeName : String) : Option INode := w.nodes.get nodeName

def isLegacyExecutionOrder (w : Workflow) : Bool := w.executionOrder ≠ some .v1

end Workflow

/-! ## Connected nodes -/

/-- The `connectionType` argument of the graph searches. -/
inductive ConnectionSelector
  | only (type : NodeConnectionType)
  | all
  | allNonMain
  deriving DecidableEq

def ConnectionSelector.types (selector : ConnectionSelector) (connections : INodeConnections) :
    List NodeConnectionType :=
  match selector with
  | .only type => [type]
  | .all => connections.entries.map Prod.fst
  | .allNonMain => (connections.entries.map Prod.fst).filter (· ≠ .main)

/-- Put a node first, taking it out of its present place. -/
def moveToFront (returnNodes : List String) (node : String) : List String :=
  node :: returnNodes.erase node

/-- A search below a node already checked is cut off, so nested calls are at most one
more than the nodes that have connections and `fuel` never runs out. A depth of
`none` is the unlimited `-1` of the source. -/
def searchConnectedNodes (connections : IConnections) (selector : ConnectionSelector) :
    (fuel : ℕ) → (nodeName : String) → (depth : Option ℕ) → (checkedNodesIncoming : List String) →
    List String
  | 0, _, _, _ => []
  | fuel + 1, nodeName, depth, checkedNodesIncoming =>
    if depth = some 0 then [] else
      match connections.get nodeName with
      | none => []
      | some byType =>
        (selector.types byType).foldl (fun returnNodes type =>
          match byType.get type with
          | none => returnNodes
          | some byIndex =>
            if nodeName ∈ checkedNodesIncoming then returnNodes else
              let checkedNodes := checkedNodesIncoming ++ [nodeName]
              (byIndex.flatMap (·.getD [])).foldl (fun returnNodes connection =>
                if connection.node ∈ checkedNodes then returnNodes else
                  (searchConnectedNodes connections selector fuel connection.node
                    (depth.map (· - 1)) checkedNodes).foldr (fun node nodes => moveToFront nodes node)
                    (moveToFront returnNodes connection.node)) returnNodes) []

def getConnectedNodes (connections : IConnections) (nodeName : String)
    (selector : ConnectionSelector) (depth : Option ℕ) : List String :=
  searchConnectedNodes connections selector (connections.entries.length + 1) nodeName depth []

def Workflow.getParentNodes (w : Workflow) (nodeName : String) : List String :=
  getConnectedNodes w.connectionsByDestinationNode nodeName (.only .main) none

end N8n
