import N8n.Workflow

/-! The graph that a partial execution works on: nodes by name and connections, both
in the order in which they were added. A connection refers to its ends by name. -/

namespace N8n

structure GraphConnection where
  fromNode : String
  toNode : String
  type : NodeConnectionType
  outputIndex : ℕ
  inputIndex : ℕ
  deriving DecidableEq

structure DirectedGraph where
  nodes : List String
  connections : List GraphConnection
  deriving DecidableEq

namespace DirectedGraph

def getDirectChildConnections (graph : DirectedGraph) (node : String) : List GraphConnection :=
  graph.connections.filter (·.fromNode = node)

end DirectedGraph

end N8n
