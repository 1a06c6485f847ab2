import Mathlib.Data.List.Infix
import Mathlib.Data.String.Basic
import N8n.Marking
import N8n.OrderedMap

/-! The semantic graph of a workflow: connections under names of outputs and inputs instead of
their indices. -/

namespace N8n.Codegen

section Json

structure Rules where
  rules : Option ℕ := none
  values : Option ℕ := none

structure Parameters where
  rules : Option Rules := none
  numberInputs : Option ℕ := none

structure NodeJSON where
  name : Option String := none
  type : String
  parameters : Option Parameters := none
  onError : Option String := none

structure Connection where
  node : String
  index : Option ℕ := none

/-- An output slot. A flat one is a connection without a list around it. -/
inductive Slot where
  | null
  | flat (node : String) (index : Option ℕ)
  | targets (targets : List Connection)

structure WorkflowJSON where
  nodes : List NodeJSON
  connections : OrderedMap String (OrderedMap String (List Slot))

structure Target where
  node : String
  index : ℕ

def normalizeSlot : Slot → Option (List Target)
  | .null => none
  | .flat node index => some [{ node, index := index.getD 0 }]
  | .targets targets =>
    some (targets.map fun conn => { node := conn.node, index := conn.index.getD 0 })

abbrev Outputs := List (Option (List Target))

def normalizeConnections (connections : OrderedMap String (OrderedMap String (List Slot))) :
    OrderedMap String (OrderedMap String Outputs) :=
  connections.mapValues fun types => types.mapValues fun outputs => outputs.map normalizeSlot

end Json

section Registry

structure NodeSemantics where
  outputs : NodeJSON → List String
  inputs : NodeJSON → List String

def switchOutputs (node : NodeJSON) : List String :=
  let rules := node.parameters.bind Parameters.rules
  let numCases := ((rules.bind Rules.rules).or (rules.bind Rules.values)).getD 4
  ((List.range numCases).map fun i => s!"case{i}") ++ ["fallback"]

def mergeInputs (node : NodeJSON) : List String :=
  (List.range ((node.parameters.bind Parameters.numberInputs).getD 2)).map fun i => s!"branch{i}"

def nodeSemantics : String → Option NodeSemantics
  | "n8n-nodes-base.if" =>
    some { outputs := fun _ => ["trueBranch", "falseBranch"], inputs := fun _ => ["input"] }
  | "n8n-nodes-base.switch" => some { outputs := switchOutputs, inputs := fun _ => ["input"] }
  | "n8n-nodes-base.merge" => some { outputs := fun _ => ["output"], inputs := mergeInputs }
  | "n8n-nodes-base.splitInBatches" =>
    some { outputs := fun _ => ["done", "loop"], inputs := fun _ => ["input"] }
  | _ => none

def hasErrorOutput (node : NodeJSON) : Bool := node.onError == some "continueErrorOutput"

def getErrorOutputIndex (type : String) (node : NodeJSON) : ℕ :=
  match nodeSemantics type with
  | some semantics => (semantics.outputs node).length
  | none => 1

def getOutputName (type : String) (index : ℕ) (node : NodeJSON) : String :=
  if hasErrorOutput node ∧ index = getErrorOutputIndex type node then "error"
  else
    match nodeSemantics type with
    | none => s!"output{index}"
    | some semantics => (semantics.outputs node)[index]?.getD s!"output{index}"

def getInputName (type : String) (index : ℕ) (node : NodeJSON) : String :=
  match nodeSemantics type with
  | none => s!"input{index}"
  | some semantics => (semantics.inputs node)[index]?.getD s!"input{index}"

def TRIGGER_NODE_TYPES : List String :=
  ["n8n-nodes-base.webhook", "n8n-nodes-base.cron", "n8n-nodes-base.emailReadImap",
    "n8n-nodes-base.telegramBot", "n8n-nodes-base.start"]

/-- No other letters have a lower case with the letters of `trigger` in it. -/
def isTriggerNodeType (type : String) : Bool :=
  TRIGGER_NODE_TYPES.contains type ||
    decide ("trigger".toList <:+: type.toList.map Char.toLower)

end Registry

section Nodes

structure SemanticConnection where
  target : String
  targetInputSlot : String
  deriving DecidableEq

structure SourceInfo where
  from_ : String
  outputSlot : String
  deriving DecidableEq

structure SubnodeConnection where
  connectionType : String
  subnodeName : String
  index : ℕ

structure SemanticNode where
  name : String
  type : String
  json : NodeJSON
  outputs : OrderedMap String (List SemanticConnection) := .empty
  inputSources : OrderedMap String (List SourceInfo) := .empty
  subnodes : List SubnodeConnection := []
  isTrigger : Bool

abbrev Nodes := OrderedMap String SemanticNode

structure SemanticGraph where
  nodes : Nodes
  roots : List String

def createSemanticNode (name : String) (json : NodeJSON) : SemanticNode :=
  { name, type := json.type, json, isTrigger := isTriggerNodeType json.type }

def uniqueNames (baseName : String) (nodes : Nodes) : List String :=
  (List.range (nodes.size + 1)).map fun i => s!"{baseName} {i + 2}"

def generateUniqueName (baseName : String) (nodes : Nodes) : String :=
  ((uniqueNames baseName nodes).find? fun name => !nodes.has name).getD baseName

/-- `type.split('.').pop()` -/
def typeSuffix (type : String) : String :=
  String.ofList (type.toList.reverse.takeWhile (· ≠ '.')).reverse

def unnamed (suffix : String) (counter : ℕ) : String := s!"__unnamed_{suffix}_{counter}__"

structure Created where
  nodes : Nodes := .empty
  unnamedCounters : OrderedMap String ℕ := .empty

def isUnnamed (node : NodeJSON) : Bool := node.name.getD "" == ""

def nextCounter (unnamedCounters : OrderedMap String ℕ) (node : NodeJSON) : ℕ :=
  (unnamedCounters.get (typeSuffix node.type)).getD 0 + 1

def nodeName (created : Created) (node : NodeJSON) : String :=
  if isUnnamed node then
    unnamed (typeSuffix node.type) (nextCounter created.unnamedCounters node)
  else
    let name := node.name.getD ""
    if created.nodes.has name then generateUniqueName name created.nodes else name

def createNode (created : Created) (node : NodeJSON) : Created where
  nodes := created.nodes.set (nodeName created node) (createSemanticNode (nodeName created node) node)
  unnamedCounters :=
    if isUnnamed node then
      created.unnamedCounters.set (typeSuffix node.type) (nextCounter created.unnamedCounters node)
    else created.unnamedCounters

def createNodes (nodes : List NodeJSON) : Nodes := (nodes.foldl createNode {}).nodes

end Nodes

section Connections

def AI_CONNECTION_TYPES : List String :=
  ["ai_languageModel", "ai_memory", "ai_tool", "ai_outputParser", "ai_embedding",
    "ai_vectorStore", "ai_retriever", "ai_document", "ai_textSplitter", "ai_reranker"]

variable (nodes : Nodes)

def modify (name : String) (change : SemanticNode → SemanticNode) : Nodes :=
  match nodes.get name with
  | none => nodes
  | some node => nodes.set name (change node)

def addSource (inputSlot : String) (source : SourceInfo) (node : SemanticNode) : SemanticNode :=
  { node with
    inputSources := node.inputSources.set inputSlot ((node.inputSources.get inputSlot).getD [] ++ [source]) }

/-- Records a connection on its target, and for its source behind those collected so far. -/
def parseTarget (sourceName outputSlot : String) (state : Nodes × List SemanticConnection)
    (target : Target) : Nodes × List SemanticConnection :=
  match state.1.get target.node with
  | none => state
  | some targetNode =>
    let inputSlot := getInputName targetNode.type target.index targetNode.json
    (modify state.1 target.node (addSource inputSlot { from_ := sourceName, outputSlot }),
      state.2 ++ [{ target := target.node, targetInputSlot := inputSlot }])

def setOutput (sourceName outputName : String) (connections : List SemanticConnection) : Nodes :=
  if connections = [] then nodes
  else modify nodes sourceName fun node =>
    { node with outputs := node.outputs.set outputName connections }

def parseMainOutput (sourceName : String) (sourceNode : SemanticNode) (nodes : Nodes)
    (output : Option (List Target) × ℕ) : Nodes :=
  match output.1 with
  | none => nodes
  | some targets =>
    let outputName := getOutputName sourceNode.type output.2 sourceNode.json
    let (nodes, connections) := targets.foldl (parseTarget sourceName outputName) (nodes, [])
    setOutput nodes sourceName outputName connections

def parseMainConnections (sourceName : String) (outputs : Outputs) : Nodes :=
  match nodes.get sourceName with
  | none => nodes
  | some sourceNode => outputs.zipIdx.foldl (parseMainOutput sourceName sourceNode) nodes

def parseErrorConnections (sourceName : String) (outputs : Outputs) : Nodes :=
  match nodes.get sourceName with
  | none => nodes
  | some _ =>
    let (nodes, connections) := (outputs.flatMap fun targets => targets.getD []).foldl
      (parseTarget sourceName "error") (nodes, [])
    setOutput nodes sourceName "error" connections

def addSubnode (subnode : SubnodeConnection) (node : SemanticNode) : SemanticNode :=
  { node with subnodes := node.subnodes ++ [subnode] }

def parseAiConnections (sourceName connectionType : String) (outputs : Outputs) : Nodes :=
  match nodes.get sourceName with
  | none => nodes
  | some _ =>
    (outputs.flatMap fun targets => targets.getD []).foldl (fun nodes target =>
      modify nodes target.node (addSubnode { connectionType, subnodeName := sourceName, index := target.index })) nodes

def parseType (sourceName : String) (nodes : Nodes) (entry : String × Outputs) : Nodes :=
  if entry.1 = "main" then parseMainConnections nodes sourceName entry.2
  else if entry.1 = "error" then parseErrorConnections nodes sourceName entry.2
  else if entry.1 ∈ AI_CONNECTION_TYPES then
    parseAiConnections nodes sourceName entry.1 entry.2
  else nodes

def parseConnections (connections : OrderedMap String (OrderedMap String Outputs)) : Nodes :=
  connections.entries.foldl (fun nodes (sourceName, types) =>
    types.entries.foldl (parseType sourceName) nodes) nodes

def sortSubnodes (node : SemanticNode) : SemanticNode :=
  { node with subnodes := node.subnodes.mergeSort fun a b => a.index ≤ b.index }

end Connections

section Roots

variable (nodes : Nodes)

def targets (name : String) : List String :=
  match nodes.get name with
  | none => []
  | some node => node.outputs.entries.flatMap fun (_, connections) =>
      connections.map SemanticConnection.target

def names : List String := nodes.entries.map Prod.fst

def hasIncomingConnections (name : String) : Bool :=
  (names nodes).any fun source => (targets nodes source).contains name

def isSubnode (name : String) : Bool :=
  nodes.values.any fun node => node.subnodes.any fun subnode => subnode.subnodeName == name

def identifyRoots : List String :=
  nodes.entries.filterMap fun (name, node) =>
    if isSubnode nodes name then none
    else if node.isTrigger || !hasIncomingConnections nodes name then some name
    else none

/-- Enough for a vertex to be taken off the stack once for every connection to it. -/
def fuel (start : List String) : ℕ :=
  start.length + ((names nodes).map fun name => (targets nodes name).length).sum + 1

def reachableFrom (roots : List String) : List String :=
  Marking.mark (targets nodes) (fuel nodes roots) [] roots.reverse

def targetsWithin (scope : List String) (name : String) : List String :=
  (targets nodes name).filter (scope.contains ·)

def markReachable (start : String) (scope processed : List String) : List String :=
  Marking.mark (targetsWithin nodes scope) (fuel nodes [start]) processed [start]

def disconnected (roots : List String) : List String :=
  (names nodes).filter fun name =>
    !(reachableFrom nodes roots).contains name && !isSubnode nodes name

def incomingFromDisconnected (disconnected : List String) (name : String) : List String :=
  disconnected.filter fun source => source ≠ name && (targets nodes source).contains name

structure Entries where
  entryPoints : List String := []
  processed : List String := []

def addEntryPoint (scope : List String) (entries : Entries) (name : String) : Entries where
  entryPoints := entries.entryPoints ++ [name]
  processed := markReachable nodes name scope entries.processed

def firstPass (scope : List String) (entries : Entries) (name : String) : Entries :=
  if name ∈ entries.processed then entries
  else if incomingFromDisconnected nodes scope name = [] then addEntryPoint nodes scope entries name
  else entries

/-- What is left forms pure cycles. -/
def secondPass (scope : List String) (entries : Entries) (name : String) : Entries :=
  if name ∈ entries.processed then entries else addEntryPoint nodes scope entries name

def findDisconnectedRoots (roots : List String) : List String :=
  let scope := disconnected nodes roots
  (scope.foldl (secondPass nodes scope) (scope.foldl (firstPass nodes scope) {})).entryPoints

end Roots

def buildSemanticGraph (json : WorkflowJSON) : SemanticGraph :=
  let connections := normalizeConnections json.connections
  let nodes := (parseConnections (createNodes json.nodes) connections).mapValues sortSubnodes
  let roots := identifyRoots nodes
  { nodes, roots := roots ++ findDisconnectedRoots nodes roots }

end N8n.Codegen
