import N8n.ConnectedNodes
import N8n.RenameNode
import N8n.SearchNodesBFS

/-! The two maps of the connections of a workflow. Searches along them are converse to each other, and to name
a node back undoes its renaming. -/

namespace N8n

open List

variable {connections : IConnections} {type : NodeConnectionType} {edge : ConnectionEdge} {a b : String}

theorem mem_connectionEdges : edge ∈ connectionEdges connections ↔ ∃ byType outputs cell,
    connections.get edge.node = some byType ∧ byType.get edge.type = some outputs ∧
      outputs[edge.index]? = some (some cell) ∧ ⟨edge.toNode, edge.toType, edge.toIndex⟩ ∈ cell := by
  simp only [connectionEdges, edgesOfNode, edgesOfType, edgesOfIndex, mem_flatMap, mem_map]
  constructor
  · rintro ⟨⟨node, byType⟩, source, ⟨type, outputs⟩, ofType, ⟨cell, index⟩, place, connection, listed, rfl⟩
    cases cell with
    | none => cases listed
    | some cell =>
      exact ⟨byType, outputs, cell, connections.mem_entries_iff.mp source, byType.mem_entries_iff.mp ofType,
        mem_zipIdx_iff_getElem?.mp place, listed⟩
  · rintro ⟨byType, outputs, cell, source, ofType, place, listed⟩
    exact ⟨(edge.node, byType), connections.mem_entries_iff.mpr source, (edge.type, outputs),
      byType.mem_entries_iff.mpr ofType, (some cell, edge.index), mem_zipIdx_iff_getElem?.mpr place, _, listed, rfl⟩

theorem follows_iff : Follows connections (.only type) a b ↔
    ∃ edge ∈ connectionEdges connections, edge.node = a ∧ edge.type = type ∧ edge.toNode = b := by
  rw [Follows, connectedTo]
  constructor
  · intro follows
    cases source : connections.get a with
    | none => simp [source] at follows
    | some byType =>
      simp only [source, ConnectionSelector.types, flatMap_singleton, mem_map, mem_flatMap] at follows
      obtain ⟨connection, ⟨cell, inOutputs, listed⟩, rfl⟩ := follows
      cases ofType : byType.get type with
      | none => simp [ofType] at inOutputs
      | some outputs =>
        cases cell with
        | none => cases listed
        | some cell =>
          obtain ⟨index, place⟩ := mem_iff_getElem?.mp (ofType ▸ inOutputs)
          exact ⟨⟨a, type, index, connection.node, connection.type, connection.index⟩,
            mem_connectionEdges.mpr ⟨byType, outputs, cell, source, ofType, place, listed⟩, rfl, rfl, rfl⟩
  · rintro ⟨edge, member, rfl, rfl, rfl⟩
    obtain ⟨byType, outputs, cell, source, ofType, place, listed⟩ := mem_connectionEdges.mp member
    simp only [source, ConnectionSelector.types, flatMap_singleton, ofType, Option.getD_some]
    exact List.mem_map.mpr ⟨_, mem_flatMap.mpr ⟨some cell, mem_of_getElem? place, listed⟩, rfl⟩

/-- Whatever the depth, a node is found above another one exactly when that is found below it. -/
theorem getConnectedNodes_converse (typed : ∀ edge ∈ connectionEdges connections, edge.toType = edge.type)
    (type : NodeConnectionType) (depth : Option ℕ) (a b : String) :
    a ∈ getConnectedNodes (mapConnectionsByDestination connections) b (.only type) depth ↔
      b ∈ getConnectedNodes connections a (.only type) depth := by
  have flip : Follows (mapConnectionsByDestination connections) (.only type) =
      fun a b => Follows connections (.only type) b a := by
    funext a b
    simp only [follows_iff, (connectionEdges_mapConnections connections).mem_iff, mem_map, eq_iff_iff]
    constructor
    · rintro ⟨_, ⟨edge, member, rfl⟩, source, rfl, target⟩
      exact ⟨edge, member, target, (typed edge member).symm, source⟩
    · rintro ⟨edge, member, target, rfl, source⟩
      exact ⟨_, ⟨edge, member, rfl⟩, source, typed edge member, target⟩
  rw [mem_getConnectedNodes, mem_getConnectedNodes, flip]
  refine and_congr ne_comm ⟨?_, ?_⟩
  all_goals
    rintro ⟨path, nonempty, walk, within⟩
    obtain ⟨back, walkBack, same⟩ := walk.converse
    exact ⟨back, by rwa [ne_eq, ← length_eq_zero_iff, same, length_eq_zero_iff], walkBack, same ▸ within⟩

def agentWithModel : IConnections :=
  .set (.set .empty "model" (.set .empty .aiLanguageModel [some [⟨"agent", .aiLanguageModel, 0⟩]]))
    "start" (.set .empty .main [none, some [⟨"agent", .main, 0⟩]])

theorem agentWithModel_converse :
    "start" ∈ getConnectedNodes (mapConnectionsByDestination agentWithModel) "agent" (.only .main) none ↔
      "agent" ∈ getConnectedNodes agentWithModel "start" (.only .main) none :=
  getConnectedNodes_converse (by decide) _ _ _ _

variable {sourceNode name : String} {limit : Option ℕ}

theorem mem_getConnectedNodes_iff_distance : name ∈ getConnectedNodes connections sourceNode (.only .main) limit ↔
    name ≠ sourceNode ∧ ∃ n, IsDistance (SearchNodesBFS.Leads connections) sourceNode name n ∧
      SearchNodesBFS.Within (limit.elim (-1) (↑)) n := by
  have same : Follows connections (.only .main) = SearchNodesBFS.Leads connections := by
    funext a b
    rw [Follows, connectedTo, SearchNodesBFS.Leads, SearchNodesBFS.mainConnections]
    cases connections.get a <;> simp [ConnectionSelector.types]
  have within : ∀ n, Within limit n ↔ SearchNodesBFS.Within (limit.elim (-1) (↑)) n := by
    cases limit <;> simp [Within, SearchNodesBFS.Within]
  rw [mem_getConnectedNodes, same]
  refine and_congr_right fun other => ⟨?_, ?_⟩
  · rintro ⟨path, _, walk, short⟩
    obtain ⟨n, upTo, distance⟩ := IsDistance.of_walk walk
    exact ⟨n, distance, (within n).mp fun bound isBound => upTo.trans (short bound isBound)⟩
  · rintro ⟨_, ⟨⟨path, walk, rfl⟩, _⟩, short⟩
    refine ⟨path, ?_, walk, (within _).mpr short⟩
    rintro rfl
    exact other (Eq.symm walk)

/-- The two searches find the same nodes along main connections, as long as none of these has the name of an
inherited member. -/
theorem searchNodesBFS_finds (own : connections.has "hasOwnProperty" = false)
    (plain : ∀ name ∈ sourceNode :: getConnectedNodes connections sourceNode (.only .main) limit,
      name ∉ PlainData.objectPrototype) :
    ∃ returnConns, SearchNodesBFS.searchNodesBFS connections sourceNode (limit.elim (-1) (↑)) = some returnConns ∧
      ∀ name, name ∈ returnConns.map (·.name) ↔ name ∈ getConnectedNodes connections sourceNode (.only .main) limit := by
  obtain ⟨_, _, _, run, stop⟩ := SearchNodesBFS.levels_stopped own (fun name n distance within => plain name (by
    by_cases same : name = sourceNode
    · exact same ▸ mem_cons_self
    · exact mem_cons_of_mem _ (mem_getConnectedNodes_iff_distance.mpr ⟨same, n, distance, within⟩)))
    (Nat.zero_add _) (.inl rfl) (.start connections sourceNode)
  refine ⟨_, by rw [SearchNodesBFS.searchNodesBFS, run, Option.map_some], fun name => ?_⟩
  rw [mem_getConnectedNodes_iff_distance, ← exists_and_left, mem_map]
  simp only [← stop.listsDistances.listed]
  simp

theorem triangle_finds : ∃ returnConns, SearchNodesBFS.searchNodesBFS SearchNodesBFS.triangle "s" (-1) =
      some returnConns ∧ ∀ name, name ∈ returnConns.map (·.name) ↔
        name ∈ getConnectedNodes SearchNodesBFS.triangle "s" (.only .main) none :=
  @searchNodesBFS_finds SearchNodesBFS.triangle "s" none (by decide) (by decide)

namespace Workflow

variable {currentName newName : String}

def renameEdge (currentName newName : String) (edge : ConnectionEdge) : ConnectionEdge :=
  { edge with node := renamed currentName newName edge.node, toNode := renamed currentName newName edge.toNode }

theorem renamed_back {name : String} (other : name ≠ newName) :
    renamed newName currentName (renamed currentName newName name) = name := by
  unfold renamed
  split_ifs with here <;> simp_all

theorem edges_rename (free : connections.get currentName = none ∨ connections.get newName = none) :
    (connectionEdges (renameConnections currentName newName connections)).Perm
      ((connectionEdges connections).map (renameEdge currentName newName)) := by
  rw [connectionEdges_renameConnections]
  refine ((perm_moveKey free).flatMap_right _).trans (.of_eq ?_)
  rw [connectionEdges, map_flatMap, flatMap_map]
  congr 1
  funext entry
  have moved : moveEntry currentName newName id entry = (renamed currentName newName entry.1, entry.2) := by
    unfold moveEntry renamed
    split_ifs <;> rfl
  rw [moved, edgesOfNode_rename entry.1, List.map_map]
  refine map_congr_left fun edge member => ?_
  simp only [Function.comp_apply, retarget, renameEdge, node_of_mem_edgesOfNode member]

theorem source_ne (free : connections.get newName = none) (member : edge ∈ connectionEdges connections) :
    edge.node ≠ newName := by
  rintro rfl
  obtain ⟨_, _, _, source, _⟩ := mem_connectionEdges.mp member
  cases free ▸ source

/-- The searches find the same nodes, the renamed one under its new name. -/
theorem getConnectedNodes_rename (free : connections.get newName = none)
    (freshTargets : ∀ edge ∈ connectionEdges connections, edge.toNode ≠ newName) (type : NodeConnectionType)
    (depth : Option ℕ) (notA : a ≠ newName) (notB : b ≠ newName) :
    renamed currentName newName b ∈ getConnectedNodes (renameConnections currentName newName connections)
        (renamed currentName newName a) (.only type) depth ↔
      b ∈ getConnectedNodes connections a (.only type) depth := by
  have edges : ∀ {c d}, Follows (renameConnections currentName newName connections) (.only type) c d ↔
      ∃ edge ∈ connectionEdges connections, renamed currentName newName edge.node = c ∧ edge.type = type ∧
        renamed currentName newName edge.toNode = d := by
    simp [follows_iff, (edges_rename (.inr free)).mem_iff, renameEdge]
  rw [mem_getConnectedNodes, mem_getConnectedNodes]
  refine and_congr (not_congr ⟨fun same => ?_, congrArg _⟩) ⟨?_, ?_⟩
  · rw [← renamed_back notB, same, renamed_back notA]
  all_goals rintro ⟨path, nonempty, walk, within⟩
  · have back := walk.map (f := renamed newName currentName) fun c d follows => by
      obtain ⟨edge, member, rfl, ofType, rfl⟩ := edges.mp follows
      rw [renamed_back (source_ne free member), renamed_back (freshTargets edge member)]
      exact follows_iff.mpr ⟨edge, member, rfl, ofType, rfl⟩
    rw [renamed_back notA, renamed_back notB] at back
    exact ⟨_, by simpa using nonempty, back, by simpa using within⟩
  · refine ⟨_, by simpa using nonempty, walk.map fun c d follows => ?_, by simpa using within⟩
    obtain ⟨edge, member, rfl, ofType, rfl⟩ := follows_iff.mp follows
    exact edges.mpr ⟨edge, member, rfl, ofType, rfl⟩

theorem threeNodes_search : renamed "B" "D" "B" ∈ getConnectedNodes
      (renameConnections "B" "D" threeNodes.connectionsBySourceNode) (renamed "B" "D" "A") (.only .main) none ↔
    "B" ∈ getConnectedNodes threeNodes.connectionsBySourceNode "A" (.only .main) none :=
  getConnectedNodes_rename (by decide) (by decide) _ _ (by decide) (by decide)

/-- To name a node back undoes its renaming, up to the order of the entries. -/
theorem renameNode_back {w : Workflow} (allowed : isRestricted newName = false)
    (allowedBack : isRestricted currentName = false)
    (freshNode : w.nodes.get newName = none) (freshKey : w.connectionsBySourceNode.get newName = none)
    (freshTargets : ∀ edge ∈ connectionEdges w.connectionsBySourceNode, edge.toNode ≠ newName) :
    ∃ after restored, w.renameNode currentName newName = .ok after ∧ after.renameNode newName currentName = .ok restored ∧
      restored.nodes.entries.Perm w.nodes.entries ∧
      (connectionEdges restored.connectionsBySourceNode).Perm (connectionEdges w.connectionsBySourceNode) ∧
      restored.connectionsByDestinationNode = w.connectionsByDestinationNode := by
  simp only [renameNode, allowed, allowedBack]
  refine ⟨_, _, rfl, rfl, ?_, ?_, rfl⟩
  · refine ((perm_moveKey (.inr get_moveKey_self)).trans ((perm_moveKey (.inr freshNode)).map _)).trans (.of_eq ?_)
    rw [List.map_map]
    refine (map_congr_left fun entry member => ?_).trans (List.map_id _)
    have own : entry.2.name = entry.1 := w.named entry.1 entry.2 (w.nodes.mem_entries_iff.mp member)
    rw [Function.comp_apply, moveEntry, moveEntry]
    by_cases here : entry.1 = currentName
    · rw [if_pos here, if_pos rfl]
      exact Prod.ext here.symm (congrArg INode.mk (own.trans here).symm)
    · rw [if_neg here, if_neg (ne_of_absent freshNode entry member), id]
  · have gone : (renameConnections currentName newName w.connectionsBySourceNode).get currentName = none := by
      rw [renameConnections, OrderedMap.get_mapValues, get_moveKey_self]
      rfl
    refine ((edges_rename (.inr gone)).trans ((edges_rename (.inr freshKey)).map _)).trans (.of_eq ?_)
    rw [List.map_map]
    refine (map_congr_left fun edge member => ?_).trans (List.map_id _)
    simp only [Function.comp_apply, renameEdge, renamed_back (source_ne freshKey member),
      renamed_back (freshTargets edge member), id]

theorem threeNodes_back : ∃ after restored, threeNodes.renameNode "A" "D" = .ok after ∧
    after.renameNode "D" "A" = .ok restored ∧ restored.nodes.entries.Perm threeNodes.nodes.entries ∧
      (connectionEdges restored.connectionsBySourceNode).Perm (connectionEdges threeNodes.connectionsBySourceNode) ∧
      restored.connectionsByDestinationNode = threeNodes.connectionsByDestinationNode :=
  renameNode_back (by decide) (by decide) (by decide) (by decide) (by decide)

end Workflow

end N8n
