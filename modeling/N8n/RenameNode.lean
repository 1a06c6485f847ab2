import N8n.MapConnections

/-! `Workflow.renameNode`: the node is filed under its new name and the connections by
source node follow. The connections by destination node are left as they are, so they fit
only if the node has none, and a node that is given its own name is deleted. -/

namespace N8n

open List OrderedMap

structure UserError where
  message : String
  description : String
  deriving DecidableEq

namespace Workflow

def restrictedKeys : List String :=
  ["hasOwnProperty", "isPrototypeOf", "propertyIsEnumerable", "toLocaleString", "toString", "valueOf",
    "constructor", "prototype", "__proto__", "__defineGetter__", "__defineSetter__", "__lookupGetter__",
    "__lookupSetter__"]

/-- `toLowerCase`, as far as the result is a letter from `a` to `z`; the Kelvin sign is one
of them. -/
def lowerCase (text : String) : List Char :=
  text.toList.map fun char => if char = '\u212a' then 'k' else char.toLower

def isRestricted (newName : String) : Bool := (restrictedKeys.map lowerCase).contains (lowerCase newName)

section Rename

variable (currentName newName : String)

def renamed (name : String) : String := if name = currentName then newName else name

def renameTargets (connections : INodeConnections) : INodeConnections :=
  connections.mapValues fun outputs => outputs.map fun output => output.map fun connections =>
    connections.map fun connection => { connection with node := renamed currentName newName connection.node }

/-- `map[newName] = map[currentName]; delete map[currentName];` if there is an entry. -/
def moveKey {ν : Type*} (change : ν → ν) (map : OrderedMap String ν) : OrderedMap String ν :=
  match map.get currentName with
  | some value => (map.set newName (change value)).delete currentName
  | none => map

def renameConnections (connections : IConnections) : IConnections :=
  (moveKey currentName newName id connections).mapValues (renameTargets currentName newName)

variable {currentName newName}

theorem get_moveKey {ν : Type*} {change : ν → ν} {map : OrderedMap String ν} {name : String} {value : ν}
    (found : (moveKey currentName newName change map).get name = some value) :
    map.get name = some value ∨ ∃ old, name = newName ∧ value = change old := by
  rw [moveKey] at found
  split at found
  · have kept := get_delete_some _ found
    rw [get_set] at kept
    split at kept
    · exact .inr ⟨_, by assumption, (Option.some.inj kept).symm⟩
    · exact .inl kept
  · exact .inl found

end Rename

theorem named_moveKey (w : Workflow) (currentName newName : String) :
    ∀ name node, (moveKey currentName newName (fun node => { node with name := newName }) w.nodes).get name =
      some node → node.name = name := by
  intro name node found
  rcases get_moveKey found with before | ⟨old, rfl, rfl⟩
  · exact w.named name node before
  · rfl

def renameNode (w : Workflow) (currentName newName : String) : Except UserError Workflow :=
  if isRestricted newName then
    .error ⟨"Node name \"" ++ newName ++ "\" is a restricted name.",
      "Node names cannot be any of the following: " ++ ", ".intercalate restrictedKeys⟩
  else .ok { w with
    nodes := moveKey currentName newName (fun node => { node with name := newName }) w.nodes
    named := named_moveKey w currentName newName
    connectionsBySourceNode := renameConnections currentName newName w.connectionsBySourceNode }

/-- The graph after a renaming is the graph before with the name replaced, in all three
maps that hold it. The order of keys is left open. -/
structure SameGraph (w after : Workflow) (currentName newName : String) : Prop where
  nodes : after.nodes.entries.Perm (w.nodes.entries.map fun entry =>
    (renamed currentName newName entry.1, { entry.2 with name := renamed currentName newName entry.2.name }))
  bySource : after.connectionsBySourceNode.entries.Perm (w.connectionsBySourceNode.entries.map fun entry =>
    (renamed currentName newName entry.1, renameTargets currentName newName entry.2))
  byDestination : after.connectionsByDestinationNode = mapConnectionsByDestination after.connectionsBySourceNode

section Keys

variable {ν : Type*} {currentName newName : String} {change : ν → ν} {map : OrderedMap String ν} {value : ν}

theorem get_moveKey_self : (moveKey currentName newName change map).get currentName = none := by
  cases found : map.get currentName with
  | none => simp [moveKey, found]
  | some value => simp [moveKey, found]

def moveEntry (currentName newName : String) (change : ν → ν) (entry : String × ν) : String × ν :=
  if entry.1 = currentName then (newName, change entry.2) else entry

theorem map_moveEntry_of_ne {entries : List (String × ν)} (others : ∀ entry ∈ entries, entry.1 ≠ currentName) :
    entries.map (moveEntry currentName newName change) = entries := by
  have same : entries.map (moveEntry currentName newName change) = entries.map id :=
    map_congr_left fun entry member => if_neg (others entry member)
  rw [same, List.map_id]

theorem ne_of_absent (absent : map.get currentName = none) : ∀ entry ∈ map.entries, entry.1 ≠ currentName := by
  rintro entry member same
  exact map.get_eq_none_iff.mp absent (List.mem_map.mpr ⟨entry, member, same⟩)

theorem entries_moveKey (found : map.get currentName = some value) (free : map.get newName = none) :
    (moveKey currentName newName change map).entries =
      map.entries.filter (·.1 ≠ currentName) ++ [(newName, change value)] := by
  have different : newName ≠ currentName := by
    rintro rfl
    rw [found] at free
    cases free
  simp only [moveKey, found, OrderedMap.delete, entries_set_new _ _ free, filter_append]
  simp [different]

theorem split_entries (found : map.get currentName = some value) :
    ∃ before after, map.entries = before ++ (currentName, value) :: after ∧
      map.entries.filter (·.1 ≠ currentName) = before ++ after ∧
      (∀ entry ∈ before, entry.1 ≠ currentName) ∧ ∀ entry ∈ after, entry.1 ≠ currentName := by
  obtain ⟨before, after, whole⟩ := append_of_mem (map.mem_entries_iff.mpr found)
  have distinct := map.nodup
  rw [whole, map_append, map_cons, nodup_middle, nodup_cons, mem_append, not_or]
    at distinct
  have early : ∀ entry ∈ before, entry.1 ≠ currentName := fun entry member same =>
    distinct.1.1 (List.mem_map.mpr ⟨entry, member, same⟩)
  have late : ∀ entry ∈ after, entry.1 ≠ currentName := fun entry member same =>
    distinct.1.2 (List.mem_map.mpr ⟨entry, member, same⟩)
  refine ⟨before, after, whole, ?_, early, late⟩
  rw [whole, filter_append, filter_cons_of_neg (by simp)]
  rw [filter_eq_self.mpr fun entry member => by simpa using early entry member,
    filter_eq_self.mpr fun entry member => by simpa using late entry member]

theorem perm_moveKey (free : map.get currentName = none ∨ map.get newName = none) :
    (moveKey currentName newName change map).entries.Perm (map.entries.map (moveEntry currentName newName change)) := by
  cases found : map.get currentName with
  | none =>
    rw [map_moveEntry_of_ne (ne_of_absent found), moveKey, found]
  | some value =>
    have freeNew : map.get newName = none := free.resolve_left (by simp [found])
    obtain ⟨before, after, whole, kept, early, late⟩ := split_entries found
    rw [entries_moveKey found freeNew, kept, whole, map_append, map_cons,
      map_moveEntry_of_ne early, map_moveEntry_of_ne late, moveEntry, if_pos rfl]
    exact perm_append_comm.trans (by simpa using perm_middle.symm)

theorem length_set {key : String} {old : ν} (found : map.get key = some old) (value : ν) :
    (map.set key value).entries.length = map.entries.length := by
  simp only [OrderedMap.get, OrderedMap.set] at found ⊢
  generalize map.entries = entries at found
  induction entries with
  | nil => cases found
  | cons entry rest ih =>
    by_cases same : entry.1 = key
    · simp [OrderedMap.setEntry, same]
    · simp only [OrderedMap.getEntry, same, if_false] at found
      simp [OrderedMap.setEntry, same, ih found]

theorem length_moveKey (change : ν → ν) {other : ν} (found : map.get currentName = some value)
    (taken : map.get newName = some other) :
    (moveKey currentName newName change map).entries.length < map.entries.length := by
  simp only [moveKey, found, OrderedMap.delete]
  rw [← length_set taken (change value)]
  have present : ∃ kept, (map.set newName (change value)).get currentName = some kept := by
    rw [get_set]
    split
    · exact ⟨_, rfl⟩
    · exact ⟨_, found⟩
  obtain ⟨kept, isKept⟩ := present
  refine length_filter_lt_length_iff_exists.mpr ⟨(currentName, kept), ?_, by simp⟩
  exact mem_entries_iff _ |>.mpr isKept

end Keys

section Edges

variable {currentName newName : String} {connections : IConnections}

theorem edgesOfNode_rename (name other : String) (byType : INodeConnections) : edgesOfNode (other, byType) =
      (edgesOfNode (name, byType)).map fun edge => { edge with node := other } := by
  simp only [edgesOfNode, map_flatMap]
  congr 1
  funext entry
  simp only [edgesOfType, map_flatMap]
  congr 1
  funext cell
  simp [edgesOfIndex]

def retarget (currentName newName name : String) (edge : ConnectionEdge) : ConnectionEdge :=
  { edge with node := name, toNode := renamed currentName newName edge.toNode }

theorem edgesOfNode_renameTargets (name other : String) (byType : INodeConnections) :
    edgesOfNode (other, renameTargets currentName newName byType) =
      (edgesOfNode (name, byType)).map (retarget currentName newName other) := by
  simp only [edgesOfNode, renameTargets, OrderedMap.mapValues, flatMap_map, map_flatMap]
  congr 1
  funext entry
  simp only [edgesOfType, zipIdx_map, flatMap_map, map_flatMap]
  congr 1
  funext place
  obtain ⟨connections, index⟩ := place
  cases connections <;> simp [edgesOfIndex, retarget, Function.comp_def]

theorem connectionEdges_renameConnections (connections : IConnections) :
    connectionEdges (renameConnections currentName newName connections) =
      (moveKey currentName newName id connections).entries.flatMap fun entry =>
        (edgesOfNode entry).map (retarget currentName newName entry.1) := by
  simp only [connectionEdges, renameConnections, OrderedMap.mapValues, flatMap_map]
  congr 1
  funext entry
  exact edgesOfNode_renameTargets entry.1 entry.1 entry.2

theorem renamed_edges_apart (different : newName ≠ currentName) :
    ∀ edge ∈ connectionEdges (renameConnections currentName newName connections),
      edge.node ≠ currentName ∧ edge.toNode ≠ currentName := by
  intro edge member
  rw [connectionEdges_renameConnections] at member
  obtain ⟨entry, isEntry, inside⟩ := mem_flatMap.mp member
  obtain ⟨old, isOld, rfl⟩ := List.mem_map.mp inside
  constructor
  · intro same
    have isKey : entry.1 = currentName := same
    have kept : (moveKey currentName newName id connections).get entry.1 = some entry.2 :=
      (mem_entries_iff _).mp isEntry
    rw [isKey, get_moveKey_self] at kept
    cases kept
  · simp only [retarget, renamed]
    split
    · exact different
    · assumption

theorem node_of_mem_edgesOfNode {entry : String × INodeConnections} {edge : ConnectionEdge}
    (member : edge ∈ edgesOfNode entry) : edge.node = entry.1 := by
  obtain ⟨ofType, _, inType⟩ := mem_flatMap.mp member
  obtain ⟨cell, _, inCell⟩ := mem_flatMap.mp inType
  obtain ⟨connection, _, rfl⟩ := List.mem_map.mp inCell
  rfl

theorem flatMap_retarget {entries : List (String × INodeConnections)}
    (apart : ∀ entry ∈ entries, ∀ edge ∈ edgesOfNode entry, edge.toNode ≠ currentName) :
    (entries.flatMap fun entry => (edgesOfNode entry).map (retarget currentName newName entry.1)) =
      entries.flatMap edgesOfNode := by
  induction entries with
  | nil => rfl
  | cons entry entries ih =>
    rw [forall_mem_cons] at apart
    have same : (edgesOfNode entry).map (retarget currentName newName entry.1) = (edgesOfNode entry).map id := by
      refine map_congr_left fun edge member => ?_
      simp only [retarget, renamed, apart.1 edge member, if_false, ← node_of_mem_edgesOfNode member, id]
    rw [flatMap_cons, flatMap_cons, ih apart.2, same, List.map_id]

theorem connectionEdges_unchanged (free : connections.get currentName = none ∨ connections.get newName = none)
    (apart : ∀ edge ∈ connectionEdges connections, edge.node ≠ currentName ∧ edge.toNode ≠ currentName) :
    connectionEdges (renameConnections currentName newName connections) = connectionEdges connections := by
  have targets : ∀ entry ∈ connections.entries, ∀ edge ∈ edgesOfNode entry, edge.toNode ≠ currentName :=
    fun entry member edge inside => (apart edge (mem_flatMap.mpr ⟨entry, member, inside⟩)).2
  rw [connectionEdges_renameConnections]
  cases found : connections.get currentName with
  | none =>
    simp only [moveKey, found]
    exact flatMap_retarget targets
  | some value =>
    have freeNew : connections.get newName = none := free.resolve_left (by simp [found])
    obtain ⟨before, after, whole, kept, early, late⟩ := split_entries found
    have noEdge : edgesOfNode (currentName, value) = [] := by
      refine eq_nil_iff_forall_not_mem.mpr fun edge inside => ?_
      have member : edge ∈ connectionEdges connections :=
        mem_flatMap.mpr ⟨_, connections.mem_entries_iff.mpr found, inside⟩
      exact (apart edge member).1 (node_of_mem_edgesOfNode inside)
    have noEdgeNew : edgesOfNode (newName, value) = [] := by
      rw [edgesOfNode_rename currentName newName value, noEdge, map_nil]
    have others : connectionEdges connections = (before ++ after).flatMap edgesOfNode := by
      rw [connectionEdges, whole, flatMap_append, flatMap_cons, noEdge, nil_append, flatMap_append]
    rw [entries_moveKey found freeNew, kept, flatMap_append, flatMap_singleton, id, noEdgeNew,
      map_nil, append_nil, others]
    refine flatMap_retarget fun entry member => targets entry ?_
    rw [whole]
    refine mem_append.mpr ((mem_append.mp member).imp_right ?_)
    exact mem_cons_of_mem _

end Edges

section Theorem

variable {w : Workflow} {currentName newName : String}

/-- After `renameNode` with a name that no other node has, the three maps hold the old
graph under the new name exactly if the name is another one, no connections are left under
it and the node has no connection. -/
theorem renameNode_sameGraph_iff {node : INode} (isNode : w.nodes.get currentName = some node)
    (free : newName = currentName ∨ w.nodes.get newName = none) (allowed : isRestricted newName = false)
    (before : w.connectionsByDestinationNode = mapConnectionsByDestination w.connectionsBySourceNode) :
    ∃ after, w.renameNode currentName newName = .ok after ∧ (SameGraph w after currentName newName ↔
      newName ≠ currentName ∧
        (w.connectionsBySourceNode.get currentName = none ∨ w.connectionsBySourceNode.get newName = none) ∧
        ∀ edge ∈ connectionEdges w.connectionsBySourceNode, edge.node ≠ currentName ∧ edge.toNode ≠ currentName) := by
  rw [renameNode, allowed]
  refine ⟨_, rfl, ?_, ?_⟩
  · intro same
    have different : newName ≠ currentName := by
      rintro rfl
      have shorter := length_moveKey (fun node => { node with name := newName }) isNode isNode
      have equal := same.nodes.length_eq
      rw [length_map] at equal
      exact absurd equal shorter.ne
    refine ⟨different, ?_, fun edge member => ?_⟩
    · by_contra both
      rw [not_or] at both
      obtain ⟨value, found⟩ := Option.ne_none_iff_exists'.mp both.1
      obtain ⟨other, taken⟩ := Option.ne_none_iff_exists'.mp both.2
      have shorter := length_moveKey id found taken
      have equal := same.bySource.length_eq
      simp only [renameConnections, OrderedMap.mapValues, length_map] at equal
      exact absurd equal shorter.ne
    · have unchanged := before.symm.trans same.byDestination
      have filed : edge.transposed ∈ connectionEdges (mapConnectionsByDestination w.connectionsBySourceNode) :=
        (connectionEdges_mapConnections _).mem_iff.mpr (mem_map_of_mem member)
      rw [unchanged] at filed
      obtain ⟨other, isOther, sameEdge⟩ := List.mem_map.mp ((connectionEdges_mapConnections _).mem_iff.mp filed)
      have equal : other = edge := congrArg ConnectionEdge.transposed sameEdge
      exact renamed_edges_apart different edge (equal ▸ isOther)
  · rintro ⟨different, freeKey, apart⟩
    have freeNode := free.resolve_left different
    refine ⟨?_, ?_, ?_⟩
    · refine (perm_moveKey (.inr freeNode)).trans (.of_eq (map_congr_left fun entry member => ?_))
      have own : entry.2.name = entry.1 := w.named entry.1 entry.2 (w.nodes.mem_entries_iff.mp member)
      simp only [moveEntry, renamed, own]
      split
      · rfl
      · exact Prod.ext rfl (congrArg INode.mk own)
    · refine ((perm_moveKey freeKey).map _).trans (.of_eq ?_)
      rw [List.map_map]
      refine map_congr_left fun entry member => ?_
      simp only [Function.comp_apply, moveEntry, renamed]
      split <;> rfl
    · rw [mapConnectionsByDestination_eq] at before ⊢
      rw [connectionEdges_unchanged freeKey apart]
      exact before

def threeNodes : Workflow where
  nodes := .set (.set (.set .empty "A" ⟨"A"⟩) "B" ⟨"B"⟩) "C" ⟨"C"⟩
  named := named_of_entries (by decide)
  connectionsBySourceNode := .set .empty "A" (.set .empty .main [some [⟨"B", .main, 0⟩]])
  connectionsByDestinationNode :=
    mapConnectionsByDestination (.set .empty "A" (.set .empty .main [some [⟨"B", .main, 0⟩]]))
  executionOrder := none

theorem threeNodes_rename_unconnected :
    ∃ after, threeNodes.renameNode "C" "D" = .ok after ∧ SameGraph threeNodes after "C" "D" := by
  obtain ⟨after, isOk, same⟩ := @renameNode_sameGraph_iff threeNodes "C" "D" ⟨"C"⟩ (by decide)
    (.inr (by decide)) (by decide) rfl
  exact ⟨after, isOk, same.mpr (by decide)⟩

/-- The destinations still name `A` after it is renamed, and `A` is gone after it is given
its own name. -/
theorem threeNodes_rename_connected :
    (∃ after, threeNodes.renameNode "A" "D" = .ok after ∧ ¬SameGraph threeNodes after "A" "D") ∧
      ∃ after, threeNodes.renameNode "A" "A" = .ok after ∧ after.nodes.get "A" = none ∧
        ¬SameGraph threeNodes after "A" "A" := by
  refine ⟨⟨_, rfl, fun same => ?_⟩, ⟨_, rfl, by decide, fun same => ?_⟩⟩
  · exact absurd same.byDestination (by decide)
  · exact absurd same.nodes.length_eq (by decide)

end Theorem

end Workflow

end N8n
