import Mathlib.Data.Multiset.MapFold
import N8n.Workflow

/-! The edges of a connections map and `mapConnectionsByDestination`, which files every
edge under its target. An edge that is added to a nested map is one more edge of it, so
the edges of the result are those of the argument with their ends exchanged. -/

namespace N8n

open List Option

structure ConnectionEdge where
  node : String
  type : NodeConnectionType
  index : ℕ
  toNode : String
  toType : NodeConnectionType
  toIndex : ℕ
  deriving DecidableEq

def ConnectionEdge.transposed (edge : ConnectionEdge) : ConnectionEdge :=
  ⟨edge.toNode, edge.toType, edge.toIndex, edge.node, edge.type, edge.index⟩

def edgesOfIndex (node : String) (type : NodeConnectionType) (entry : Option (List IConnection) × ℕ) :
    List ConnectionEdge :=
  (entry.1.getD []).map fun connection =>
    ⟨node, type, entry.2, connection.node, connection.type, connection.index⟩

def edgesOfType (node : String) (entry : NodeConnectionType × NodeInputConnections) : List ConnectionEdge :=
  entry.2.zipIdx.flatMap (edgesOfIndex node entry.1)

def edgesOfNode (entry : String × INodeConnections) : List ConnectionEdge :=
  entry.2.entries.flatMap (edgesOfType entry.1)

def connectionEdges (connections : IConnections) : List ConnectionEdge :=
  connections.entries.flatMap edgesOfNode

section Map

def pushAt (outputs : NodeInputConnections) (index : ℕ) (connection : IConnection) : NodeInputConnections :=
  (outputs ++ List.replicate (index + 1 - outputs.length) (some [])).modify index (Option.map (· ++ [connection]))

def fileConnection (sourceNode : String) (type : NodeConnectionType) (inputIndex : ℕ)
    (returnConnection : IConnections) (connectionInfo : IConnection) : IConnections :=
  let byType := (returnConnection.get connectionInfo.node).getD .empty
  let outputs := (byType.get connectionInfo.type).getD []
  returnConnection.set connectionInfo.node
    (byType.set connectionInfo.type (pushAt outputs connectionInfo.index ⟨sourceNode, type, inputIndex⟩))

def mapConnectionsByDestination (connections : IConnections) : IConnections :=
  connections.entries.foldl (fun returnConnection source =>
    source.2.entries.foldl (fun returnConnection ofType =>
      ofType.2.zipIdx.foldl (fun returnConnection atIndex =>
        (atIndex.1.getD []).foldl (fileConnection source.1 ofType.1 atIndex.2) returnConnection)
        returnConnection) returnConnection) .empty

/-- `fileConnection` for an edge. -/
def fileEdge (returnConnection : IConnections) (edge : ConnectionEdge) : IConnections :=
  fileConnection edge.node edge.type edge.index returnConnection ⟨edge.toNode, edge.toType, edge.toIndex⟩

theorem mapConnectionsByDestination_eq (connections : IConnections) :
    mapConnectionsByDestination connections = (connectionEdges connections).foldl fileEdge .empty := by
  simp only [mapConnectionsByDestination, connectionEdges, edgesOfNode, edgesOfType, edgesOfIndex,
    foldl_flatMap, foldl_map]
  rfl

end Map

section Edges

theorem OrderedMap.flatMap_set_perm {κ ν β : Type*} [DecidableEq κ] (m : OrderedMap κ ν) (f : κ × ν → List β)
    {key : κ} {value : ν} {more : List β}
    (grown : (f (key, value)).Perm ((m.get key).elim [] (fun old => f (key, old)) ++ more)) :
    ((m.set key value).entries.flatMap f).Perm (m.entries.flatMap f ++ more) := by
  simp only [OrderedMap.get, OrderedMap.set] at grown ⊢
  generalize m.entries = entries at grown
  induction entries with
  | nil => simpa [OrderedMap.setEntry, OrderedMap.getEntry] using grown
  | cons entry rest ih =>
    by_cases same : entry.1 = key
    · subst same
      simp only [OrderedMap.getEntry, if_true, elim_some] at grown
      simp only [OrderedMap.setEntry, if_true, flatMap_cons]
      have moved : (f entry ++ more ++ rest.flatMap f).Perm (f entry ++ rest.flatMap f ++ more) := by
        rw [append_assoc, append_assoc]
        exact perm_append_comm.append_left _
      exact (grown.append_right _).trans moved
    · simp only [OrderedMap.getEntry, same, if_false] at grown
      simp only [OrderedMap.setEntry, same, if_false, flatMap_cons, append_assoc]
      exact (ih grown).append_left _
variable {filler : Option (List IConnection)} {connection : IConnection}
  {push : Option (List IConnection) → Option (List IConnection)}

theorem edgesFrom_replicate (node : String) (type : NodeConnectionType) (outputs : NodeInputConnections)
    (nothing : filler.getD [] = []) (start count : ℕ) :
    ((outputs ++ List.replicate count filler).zipIdx start).flatMap (edgesOfIndex node type) =
      (outputs.zipIdx start).flatMap (edgesOfIndex node type) := by
  have empty : ∀ start, ((List.replicate count filler).zipIdx start).flatMap (edgesOfIndex node type) = [] := by
    induction count with
    | zero => exact fun _ => rfl
    | succ count ih => exact fun start => by simp [replicate_succ, edgesOfIndex, nothing, ih (start + 1)]
  rw [zipIdx_append, flatMap_append, empty, append_nil]

variable {outputs : NodeInputConnections}

theorem edgesFrom_modify (node : String) (type : NodeConnectionType)
    (pushes : ∀ cell ∈ outputs, (push cell).getD [] = cell.getD [] ++ [connection]) {index : ℕ}
    (inside : index < outputs.length) (start : ℕ) :
    (((outputs.modify index push).zipIdx start).flatMap (edgesOfIndex node type)).Perm
      ((outputs.zipIdx start).flatMap (edgesOfIndex node type) ++
        [⟨node, type, start + index, connection.node, connection.type, connection.index⟩]) := by
  induction outputs generalizing index start with
  | nil => cases inside
  | cons cell rest ih =>
    cases index with
    | zero =>
      have here := pushes cell mem_cons_self
      simp only [modify_zero_cons, zipIdx_cons, flatMap_cons, edgesOfIndex, here,
        map_append, map_cons, map_nil, Nat.add_zero, append_assoc]
      exact perm_append_comm.append_left _
    | succ index =>
      have later := ih (fun cell member => pushes cell (mem_cons_of_mem _ member))
        (Nat.lt_of_succ_lt_succ inside) (start + 1)
      rw [Nat.add_right_comm, Nat.add_assoc] at later
      simp only [modify_succ_cons, zipIdx_cons, flatMap_cons, append_assoc]
      exact later.append_left _

theorem edgesOfType_push (node : String) (type : NodeConnectionType) (nothing : filler.getD [] = []) (index : ℕ)
    (pushes : ∀ cell ∈ outputs ++ List.replicate (index + 1 - outputs.length) filler,
      (push cell).getD [] = cell.getD [] ++ [connection]) :
    (edgesOfType node (type, (outputs ++ List.replicate (index + 1 - outputs.length) filler).modify index push)).Perm
      (edgesOfType node (type, outputs) ++
        [⟨node, type, index, connection.node, connection.type, connection.index⟩]) := by
  have inside : index < (outputs ++ List.replicate (index + 1 - outputs.length) filler).length := by
    simp
    omega
  have pushed := edgesFrom_modify node type pushes inside 0
  rw [edgesFrom_replicate _ _ _ nothing, Nat.zero_add] at pushed
  exact pushed

def Filled (outputs : NodeInputConnections) : Prop := ∀ cell ∈ outputs, cell ≠ none

theorem Filled.grow (filled : Filled outputs) (count : ℕ) : Filled (outputs ++ List.replicate count (some [])) := by
  intro cell member
  rcases mem_append.mp member with old | new
  · exact filled cell old
  · rw [eq_of_mem_replicate new]
    simp

theorem Filled.modify (filled : Filled outputs) (index : ℕ)
    (connection : IConnection) : Filled (outputs.modify index (Option.map (· ++ [connection]))) := by
  intro cell member
  obtain ⟨place, inside, found⟩ := getElem_of_mem member
  have before := filled _ (getElem_mem (by simpa using inside))
  rw [getElem_modify] at found
  split at found
  · rw [← found]
    simpa using before
  · exact found ▸ before

theorem edgesOfType_pushAt (node : String) (type : NodeConnectionType)
    (filled : Filled outputs) (index : ℕ) (connection : IConnection) :
    (edgesOfType node (type, pushAt outputs index connection)).Perm (edgesOfType node (type, outputs) ++
        [⟨node, type, index, connection.node, connection.type, connection.index⟩]) := by
  refine edgesOfType_push node type rfl index fun cell member => ?_
  obtain ⟨connections, rfl⟩ := ne_none_iff_exists'.mp (filled.grow _ cell member)
  rfl

def AllFilled (connections : IConnections) : Prop :=
  ∀ name byType, connections.get name = some byType → ∀ type outputs, byType.get type = some outputs → Filled outputs

variable {connections : IConnections}

theorem filled_getD (filled : AllFilled connections) (node : String)
    (type : NodeConnectionType) : Filled ((((connections.get node).getD .empty).get type).getD []) := by
  cases found : connections.get node with
  | none => simp [Filled]
  | some byType =>
    simp only [getD_some]
    cases ofType : byType.get type with
    | none => simp [Filled]
    | some outputs => exact filled node byType found type outputs ofType

theorem fileEdge_filled (filled : AllFilled connections) (edge : ConnectionEdge) :
    AllFilled (fileEdge connections edge) := by
  intro name byType found type outputs ofType
  rw [fileEdge, fileConnection, OrderedMap.get_set] at found
  split at found
  · simp only [some.injEq] at found
    subst found
    rw [OrderedMap.get_set] at ofType
    split at ofType
    · simp only [some.injEq] at ofType
      subst ofType
      exact ((filled_getD filled _ _).grow _).modify _ _
    · cases old : connections.get edge.toNode with
      | none => simp [old] at ofType
      | some before =>
        rw [old, getD_some] at ofType
        exact filled _ before old type outputs ofType
  · exact filled name byType found type outputs ofType

theorem connectionEdges_fileEdge (filled : AllFilled connections) (edge : ConnectionEdge) :
    (connectionEdges (fileEdge connections edge)).Perm (connectionEdges connections ++ [edge.transposed]) := by
  let byType := (connections.get edge.toNode).getD .empty
  let outputs := (byType.get edge.toType).getD []
  let pushed := pushAt outputs edge.toIndex ⟨edge.node, edge.type, edge.index⟩
  have outputsFilled : Filled outputs := filled_getD filled edge.toNode edge.toType
  have atType : (edgesOfType edge.toNode (edge.toType, pushed)).Perm
      ((byType.get edge.toType).elim [] (fun old => edgesOfType edge.toNode (edge.toType, old)) ++
        [edge.transposed]) := by
    have added := edgesOfType_pushAt edge.toNode edge.toType outputsFilled edge.toIndex
      ⟨edge.node, edge.type, edge.index⟩
    cases found : byType.get edge.toType with
    | none => simpa [pushed, outputs, found, edgesOfType, ConnectionEdge.transposed] using added
    | some old => simpa [pushed, outputs, found, ConnectionEdge.transposed] using added
  have atNode : (edgesOfNode (edge.toNode, byType.set edge.toType pushed)).Perm
      ((connections.get edge.toNode).elim [] (fun old => edgesOfNode (edge.toNode, old)) ++ [edge.transposed]) := by
    have added := byType.flatMap_set_perm (edgesOfType edge.toNode) atType
    cases found : connections.get edge.toNode with
    | none => simpa [byType, found, edgesOfNode, OrderedMap.empty] using added
    | some old => simpa [byType, found, edgesOfNode] using added
  exact connections.flatMap_set_perm edgesOfNode atNode

theorem connectionEdges_foldl {edges : List ConnectionEdge} {start : IConnections} (filled : AllFilled start) :
    AllFilled (edges.foldl fileEdge start) ∧ (connectionEdges (edges.foldl fileEdge start)).Perm
        (connectionEdges start ++ edges.map ConnectionEdge.transposed) := by
  induction edges generalizing start with
  | nil => exact ⟨filled, by simp⟩
  | cons edge edges ih =>
    obtain ⟨filledAll, same⟩ := ih (fileEdge_filled filled edge)
    refine ⟨filledAll, same.trans ?_⟩
    rw [map_cons, ← singleton_append, ← append_assoc]
    exact (connectionEdges_fileEdge filled edge).append_right _

theorem connectionEdges_mapConnections (connections : IConnections) :
    (connectionEdges (mapConnectionsByDestination connections)).Perm
      ((connectionEdges connections).map ConnectionEdge.transposed) := by
  rw [mapConnectionsByDestination_eq]
  have start : AllFilled .empty := fun name byType found => by cases found
  exact (connectionEdges_foldl start).2

/-- `mapConnectionsByDestination` transposes the edges, none lost and none more, and twice
it gives them back. -/
theorem mapConnectionsByDestination_transposes (connections : IConnections) :
    (connectionEdges (mapConnectionsByDestination connections) : Multiset ConnectionEdge) =
        (connectionEdges connections : Multiset ConnectionEdge).map ConnectionEdge.transposed ∧
      (connectionEdges (mapConnectionsByDestination (mapConnectionsByDestination connections)) :
          Multiset ConnectionEdge) = connectionEdges connections := by
  have once := connectionEdges_mapConnections connections
  have twice := (connectionEdges_mapConnections (mapConnectionsByDestination connections)).trans (once.map _)
  have back : ConnectionEdge.transposed ∘ ConnectionEdge.transposed = id := by
    funext edge
    rfl
  rw [List.map_map, back, List.map_id] at twice
  exact ⟨Multiset.coe_eq_coe.mpr once, Multiset.coe_eq_coe.mpr twice⟩

end Edges

end N8n
