import N8n.FindStartNodes
import N8n.FindSubgraph

/-! The run data without those of some nodes, of what comes after them, of the sub-nodes of
both and of nodes outside the graph. What comes after a node is looked up in the graph, so the
nodes have to be stored in it. -/

namespace N8n.PartialExecution

open PartialExecution.DirectedGraph List Option OrderedMap

def cleanNode (graph : DirectedGraph) (newRunData : RunData) (node : GraphNode) : Option RunData := do
  let newRunData := newRunData.delete node.name
  let subNodeConnections ← graph.getParentConnections node
  return subNodeConnections.foldl (fun newRunData subNodeConnection =>
    if subNodeConnection.type = .main then newRunData
    else newRunData.delete subNodeConnection.fromNode.name) newRunData

def cleanNodeWithChildren (graph : DirectedGraph) (newRunData : RunData) (nodeToClean : GraphNode) : Option RunData := do
  let newRunData := newRunData.delete nodeToClean.name
  let children ← graph.getChildren nodeToClean
  (nodeToClean :: children).foldlM (cleanNode graph) newRunData

def cleanRunData (runData : RunData) (graph : DirectedGraph) (nodesToClean : List GraphNode) : Option RunData := do
  let newRunData ← nodesToClean.foldlM (cleanNodeWithChildren graph) runData
  return (newRunData.entries.map Prod.fst).foldl (fun newRunData nodeName =>
    if graph.hasNode nodeName then newRunData else newRunData.delete nodeName) newRunData

variable {graph : DirectedGraph} {nodes : List GraphNode} {node : GraphNode} {runData result : RunData}

theorem cleanNodeWithChildren_isSome (closed : graph.Closed) (stored : graph.Stores node) :
    ∃ next, cleanNodeWithChildren graph runData node = some next := by
  obtain ⟨children, found⟩ := isSome_iff_exists.mp (getChildren_isSome.mpr (closed.storesBelow stored))
  have each : ∀ n ∈ node :: children, graph.Stores n := by
    refine forall_mem_cons.mpr ⟨stored, fun n member => ?_⟩
    obtain ⟨cs, _, trail⟩ := (mem_getChildren found).mp member
    exact closed.storesBelow stored cs n trail
  have cleaned : ∀ n ∈ node :: children, ∀ data : RunData, True →
      ∃ next, cleanNode graph data n = some next ∧ True := by
    intro n member data _
    obtain ⟨cs, behind⟩ := isSome_iff_exists.mp
      (getParentConnections_isSome.mpr (closed.storesAbove (each n member)))
    rw [cleanNode, behind]
    exact ⟨_, rfl, trivial⟩
  obtain ⟨next, done, _⟩ := foldlM_isSome cleaned (s := runData.delete node.name) trivial
  refine ⟨next, ?_⟩
  rw [cleanNodeWithChildren, found]
  exact done

theorem cleanRunData_isSome (closed : graph.Closed) (stored : ∀ n ∈ nodes, graph.Stores n) :
    ∃ result, cleanRunData runData graph nodes = some result := by
  have each : ∀ n ∈ nodes, ∀ data : RunData, True → ∃ next, cleanNodeWithChildren graph data n = some next ∧ True := by
    intro n member data _
    obtain ⟨next, done⟩ := cleanNodeWithChildren_isSome closed (stored n member)
    exact ⟨next, done, trivial⟩
  obtain ⟨data, done, _⟩ := foldlM_isSome each (s := runData) trivial
  rw [cleanRunData, done]
  exact ⟨_, rfl⟩

theorem stores_of_cleanRunData (done : cleanRunData runData graph nodes = some result) (member : node ∈ nodes) :
    graph.Stores node := by
  rw [cleanRunData, bind_eq_bind, bind_eq_some_iff] at done
  obtain ⟨data, cleaned, _⟩ := done
  obtain ⟨here, next, step⟩ := foldlM_step member cleaned
  rw [cleanNodeWithChildren, bind_eq_bind, bind_eq_some_iff] at step
  obtain ⟨children, found, _⟩ := step
  exact getChildren_isSome.mp (isSome_iff_exists.mpr ⟨children, found⟩) [] node (.nil graph node)

/-! ## What is removed -/

def Cleaned (graph : DirectedGraph) (nodes : List GraphNode) (x : GraphNode) : Prop :=
  ∃ node ∈ nodes, x = node ∨ Descends graph node x

def MustGo (graph : DirectedGraph) (nodes : List GraphNode) (name : String) : Prop :=
  graph.hasNode name = false ∨ ∃ x, x.name = name ∧ (Cleaned graph nodes x ∨ Feeds graph (Cleaned graph nodes) x)

def GoesWith (graph : DirectedGraph) (node x : GraphNode) : Prop :=
  x = node ∨ ∃ c ∈ graph.getConnections, c.type ≠ .main ∧ (∃ ds, ConnectionTrail graph c.toNode ds node) ∧
    x = c.fromNode

section Removed

variable {data next : RunData} {x : GraphNode}

theorem cleanNode_without (done : cleanNode graph data node = some next) :
    data.Without (fun name => ∃ x, x.name = name ∧ GoesWith graph node x) next := by
  rw [cleanNode, bind_eq_bind, bind_eq_some_iff] at done
  obtain ⟨cs, found, kept⟩ := done
  obtain rfl := some.inj kept
  have each : ∀ c ∈ cs, ∀ data : RunData, data.Without (fun name => c.type ≠ .main ∧ name = c.fromNode.name)
      (if c.type = .main then data else data.delete c.fromNode.name) := by
    intro c _ data
    split
    · next isMain => exact (Without.refl data).congr (by simp [isMain])
    · next other => exact (data.without_delete c.fromNode.name).congr (by simp [other])
  refine ((data.without_delete node.name).trans (without_foldl each _)).congr fun name _ => ?_
  constructor
  · rintro (rfl | ⟨c, member, other, rfl⟩)
    · exact ⟨node, rfl, .inl rfl⟩
    · obtain ⟨inGraph, behind⟩ := (mem_getParentConnections found).mp member
      exact ⟨c.fromNode, rfl, .inr ⟨c, inGraph, other, behind, rfl⟩⟩
  · rintro ⟨x, rfl, rfl | ⟨c, inGraph, other, behind, rfl⟩⟩
    · exact .inl rfl
    · exact .inr ⟨c, (mem_getParentConnections found).mpr ⟨inGraph, behind⟩, other, rfl⟩

theorem cleanNodeWithChildren_without (done : cleanNodeWithChildren graph data node = some next) :
    data.Without (fun name => ∃ x, x.name = name ∧ ∃ n, (n = node ∨ Descends graph node n) ∧ GoesWith graph n x)
      next := by
  rw [cleanNodeWithChildren, bind_eq_bind, bind_eq_some_iff] at done
  obtain ⟨children, found, cleaned⟩ := done
  have rest := without_foldlM (fun n _ data next done => cleanNode_without done) cleaned
  refine ((data.without_delete node.name).trans rest).congr fun name _ => ?_
  constructor
  · rintro (rfl | ⟨n, member, x, rfl, goes⟩)
    · exact ⟨node, rfl, node, .inl rfl, .inl rfl⟩
    · exact ⟨x, rfl, n, (mem_cons.mp member).imp_right (mem_getChildren found).mp, goes⟩
  · rintro ⟨x, rfl, n, after, goes⟩
    exact .inr ⟨n, mem_cons.mpr (after.imp_right (mem_getChildren found).mpr), x, rfl, goes⟩

theorem cleanRunData_without (done : cleanRunData runData graph nodes = some result) :
    runData.Without (fun name => graph.hasNode name = false ∨ ∃ x, x.name = name ∧ (Cleaned graph nodes x ∨
      ∃ c ∈ graph.getConnections, c.type ≠ .main ∧ LeadsTo graph (Cleaned graph nodes) c.toNode ∧ x = c.fromNode))
      result := by
  rw [cleanRunData, bind_eq_bind, bind_eq_some_iff] at done
  obtain ⟨data, cleaned, kept⟩ := done
  obtain rfl := some.inj kept
  have outside : ∀ nodeName ∈ data.entries.map Prod.fst, ∀ data : RunData,
      data.Without (fun name => graph.hasNode nodeName = false ∧ name = nodeName)
        (if graph.hasNode nodeName then data else data.delete nodeName) := by
    intro nodeName _ data
    split
    · next inside => exact (Without.refl data).congr (by simp [inside])
    · next absent => exact (data.without_delete nodeName).congr (by simp [absent])
  have last : data.Without (fun name => graph.hasNode name = false) _ :=
    (without_foldl outside data).congr fun name has => by
      obtain ⟨value, present⟩ := isSome_iff_exists.mp has
      have key : name ∈ data.entries.map Prod.fst :=
        List.mem_map.mpr ⟨_, (data.mem_entries_iff).mpr present, rfl⟩
      constructor
      · rintro ⟨nodeName, _, absent, rfl⟩
        exact absent
      · exact fun absent => ⟨name, key, absent, rfl⟩
  have first := without_foldlM (fun n _ data next done => cleanNodeWithChildren_without done) cleaned
  refine (first.trans last).congr fun name _ => ?_
  rw [or_comm]
  refine or_congr_right ⟨?_, ?_⟩
  · rintro ⟨node, member, x, rfl, n, after, rfl | ⟨c, inGraph, other, ⟨ds, behind⟩, rfl⟩⟩
    · exact ⟨x, rfl, .inl ⟨node, member, after⟩⟩
    · exact ⟨c.fromNode, rfl, .inr ⟨c, inGraph, other, ⟨ds, n, behind, node, member, after⟩, rfl⟩⟩
  · rintro ⟨x, rfl, ⟨node, member, after⟩ | ⟨c, inGraph, other, ⟨ds, n, behind, node, member, after⟩, rfl⟩⟩
    · exact ⟨node, member, x, rfl, x, after, .inl rfl⟩
    · exact ⟨node, member, c.fromNode, rfl, n, after, .inr ⟨c, inGraph, other, ⟨ds, behind⟩, rfl⟩⟩

theorem stores_of_leadsTo (done : cleanRunData runData graph nodes = some result)
    (leads : LeadsTo graph (Cleaned graph nodes) x) : graph.Stores x := by
  obtain ⟨cs, n, trail, node, member, after⟩ := leads
  rw [cleanRunData, bind_eq_bind, bind_eq_some_iff] at done
  obtain ⟨data, cleaned, _⟩ := done
  obtain ⟨here, next, step⟩ := foldlM_step member cleaned
  rw [cleanNodeWithChildren, bind_eq_bind, bind_eq_some_iff] at step
  obtain ⟨children, found, each⟩ := step
  obtain ⟨_, _, behind⟩ := foldlM_step (mem_cons.mpr (after.imp_right (mem_getChildren found).mpr)) each
  rw [cleanNode, bind_eq_bind, bind_eq_some_iff] at behind
  obtain ⟨connections, above, _⟩ := behind
  exact getParentConnections_isSome.mp (isSome_iff_exists.mpr ⟨connections, above⟩) cs x trail

end Removed

/-! ## The objects -/

abbrev RunDataObjects := List RunData

def deleteKey (ref : ℕ) (objects : RunDataObjects) (nodeName : String) : RunDataObjects :=
  objects.modify ref (·.delete nodeName)

def cleanNodeIn (graph : DirectedGraph) (newRunData : ℕ) (objects : RunDataObjects) (node : GraphNode) :
    Option RunDataObjects := do
  let objects := deleteKey newRunData objects node.name
  let subNodeConnections ← graph.getParentConnections node
  return subNodeConnections.foldl (fun objects subNodeConnection =>
    if subNodeConnection.type = .main then objects
    else deleteKey newRunData objects subNodeConnection.fromNode.name) objects

def cleanNodeWithChildrenIn (graph : DirectedGraph) (newRunData : ℕ) (objects : RunDataObjects)
    (nodeToClean : GraphNode) : Option RunDataObjects := do
  let objects := deleteKey newRunData objects nodeToClean.name
  let children ← graph.getChildren nodeToClean
  (nodeToClean :: children).foldlM (cleanNodeIn graph newRunData) objects

/-- What the references lead to afterwards and the reference that is returned: `{ ...runData }` is
a new object with the entries of the old one. -/
def cleanRunDataIn (objects : RunDataObjects) (runData : ℕ) (graph : DirectedGraph) (nodesToClean : List GraphNode) :
    Option (RunDataObjects × ℕ) := do
  let source ← objects[runData]?
  let newRunData := objects.length
  let objects ← nodesToClean.foldlM (cleanNodeWithChildrenIn graph newRunData) (objects ++ [source])
  let cleaned ← objects[newRunData]?
  let objects := (cleaned.entries.map Prod.fst).foldl (fun objects nodeName =>
    if graph.hasNode nodeName then objects else deleteKey newRunData objects nodeName) objects
  return (objects, newRunData)

section Objects

variable {objects after : RunDataObjects} {ref out : ℕ}

theorem deleteKey_concat (objects : RunDataObjects) (data : RunData) (name : String) :
    deleteKey objects.length (objects ++ [data]) name = objects ++ [data.delete name] := by
  rw [deleteKey, modify_eq_take_cons_drop (by simp)]
  simp

theorem cleanNodeIn_concat (objects : RunDataObjects) (node : GraphNode) (data : RunData) :
    cleanNodeIn graph objects.length (objects ++ [data]) node = (cleanNode graph data node).map (objects ++ [·]) := by
  rw [cleanNodeIn, cleanNode]
  cases graph.getParentConnections node with
  | none => rfl
  | some cs =>
    refine congrArg some ?_
    rw [deleteKey_concat]
    refine foldl_hom (objects ++ [·]) fun data c => ?_
    split
    · rfl
    · exact deleteKey_concat objects data _

theorem cleanNodeWithChildrenIn_concat (objects : RunDataObjects) (node : GraphNode) (data : RunData) :
    cleanNodeWithChildrenIn graph objects.length (objects ++ [data]) node =
      (cleanNodeWithChildren graph data node).map (objects ++ [·]) := by
  rw [cleanNodeWithChildrenIn, cleanNodeWithChildren]
  cases graph.getChildren node with
  | none => rfl
  | some children =>
    rw [bind_eq_bind, bind_some, deleteKey_concat]
    exact foldlM_hom (cleanNodeIn_concat objects) (data.delete node.name)

theorem deleteOutsideIn_concat (objects : RunDataObjects) (names : List String) (data : RunData) :
    names.foldl (fun (all : RunDataObjects) nodeName =>
        if graph.hasNode nodeName then all else deleteKey objects.length all nodeName) (objects ++ [data]) =
      objects ++ [names.foldl (fun data nodeName =>
        if graph.hasNode nodeName then data else data.delete nodeName) data] := by
  refine foldl_hom (objects ++ [·]) fun data name => ?_
  split
  · rfl
  · exact deleteKey_concat objects data name

theorem cleanRunDataIn_eq (read : objects[ref]? = some runData) : cleanRunDataIn objects ref graph nodes =
      (cleanRunData runData graph nodes).map fun result => (objects ++ [result], objects.length) := by
  have each : nodes.foldlM (cleanNodeWithChildrenIn graph objects.length) (objects ++ [runData]) =
      (nodes.foldlM (cleanNodeWithChildren graph) runData).map (objects ++ [·]) :=
    foldlM_hom (cleanNodeWithChildrenIn_concat objects) runData
  simp only [cleanRunDataIn, read, bind_eq_bind, bind_some, each, cleanRunData]
  cases nodes.foldlM (cleanNodeWithChildren graph) runData with
  | none => rfl
  | some data =>
    have fresh : (objects ++ [data])[objects.length]? = some data := by simp
    simp only [map_some, bind_some, fresh, deleteOutsideIn_concat]
    rfl

/-- The result lacks what must go and nothing else, and the object passed in is left alone, exactly when
every sub-node with run data of a node that leads to a cleaned one is a sub-node of a cleaned one. -/
theorem cleanRunDataIn_exact_iff (read : objects[ref]? = some runData)
    (done : cleanRunDataIn objects ref graph nodes = some (after, out)) :
    (after[ref]? = some runData ∧ ∃ result, after[out]? = some result ∧ runData.Without (MustGo graph nodes) result) ↔
      ∀ c ∈ graph.getConnections, c.type ≠ .main → runData.has c.fromNode.name = true →
        LeadsTo graph (Cleaned graph nodes) c.toNode →
          Cleaned graph nodes c.fromNode ∨ Feeds graph (Cleaned graph nodes) c.fromNode := by
  rw [cleanRunDataIn_eq read, map_eq_some_iff] at done
  obtain ⟨result, cleaned, same⟩ := done
  obtain ⟨rfl, rfl⟩ := Prod.mk.inj same
  have without := cleanRunData_without cleaned
  have inside : ref < objects.length := (List.getElem?_eq_some_iff.mp read).1
  have untouched : (objects ++ [result])[ref]? = some runData := by rw [getElem?_append_left inside, read]
  have fresh : (objects ++ [result])[objects.length]? = some result := by simp
  have sameName : ∀ {x y : GraphNode}, LeadsTo graph (Cleaned graph nodes) x →
      LeadsTo graph (Cleaned graph nodes) y → x.name = y.name → x = y := fun leadsX leadsY =>
    (stores_of_leadsTo cleaned leadsX).eq_of_name (stores_of_leadsTo cleaned leadsY)
  constructor
  · rintro ⟨_, _, read, exactly⟩ c member other hasData leads
    obtain rfl := some.inj (fresh.symm.trans read)
    obtain ⟨value, present⟩ := isSome_iff_exists.mp hasData
    have gone : ¬result.get c.fromNode.name = some value := fun left =>
      ((without _ _).mp left).2 (.inr ⟨c.fromNode, rfl, .inr ⟨c, member, other, leads, rfl⟩⟩)
    have must : MustGo graph nodes c.fromNode.name := by
      by_contra stays
      exact gone ((exactly _ _).mpr ⟨present, stays⟩)
    have leadsFrom : LeadsTo graph (Cleaned graph nodes) c.fromNode := leads.cons member
    rcases must with outside | ⟨x, same, goes⟩
    · have stored : graph.nodes.get c.fromNode.name = some c.fromNode := stores_of_leadsTo cleaned leadsFrom
      rw [hasNode, OrderedMap.has, stored] at outside
      cases outside
    · have leadsX : LeadsTo graph (Cleaned graph nodes) x := goes.elim .here Feeds.leadsTo
      exact sameName leadsX leadsFrom same ▸ goes
  · intro fed
    refine ⟨untouched, result, fresh, without.congr fun name hasData => or_congr_right ⟨?_, ?_⟩⟩
    · rintro ⟨x, rfl, isCleaned | ⟨c, member, other, leads, rfl⟩⟩
      · exact ⟨x, rfl, .inl isCleaned⟩
      · exact ⟨c.fromNode, rfl, fed c member other hasData leads⟩
    · rintro ⟨x, rfl, isCleaned | feeds⟩
      · exact ⟨x, rfl, .inl isCleaned⟩
      · obtain ⟨c, member, other, rfl, leads⟩ := feeds.first
        exact ⟨c.fromNode, rfl, .inr ⟨c, member, other, leads, rfl⟩⟩

end Objects

/-- `a` before `b`, and the model `m` of one of them. -/
def modelOf (agent : GraphNode) : DirectedGraph :=
  let a := plainNode 0 "a"
  let b := plainNode 1 "b"
  let m := plainNode 2 "m"
  [⟨a, b, .main, 0, 0⟩, ⟨m, agent, .aiLanguageModel, 0, 0⟩].foldl setConnection (empty.addNodes [a, b, m])

def allRan : RunData := ⟨[("a", []), ("b", []), ("m", [])], by decide⟩

/-- The model of the node to clean goes with it. -/
theorem modelOf_cleaned : ∃ after out, cleanRunDataIn [allRan] 0 (modelOf (plainNode 1 "b")) [plainNode 1 "b"] =
      some (after, out) ∧ after[0]? = some allRan ∧
    ∃ result, after[out]? = some result ∧
      allRan.Without (MustGo (modelOf (plainNode 1 "b")) [plainNode 1 "b"]) result := by
  have done : (cleanRunDataIn [allRan] 0 (modelOf (plainNode 1 "b")) [plainNode 1 "b"]).isSome = true := by decide
  obtain ⟨⟨after, out⟩, done⟩ := isSome_iff_exists.mp done
  refine ⟨after, out, done, (cleanRunDataIn_exact_iff rfl done).mpr fun c member other _ _ => .inr ?_⟩
  have enters : ∀ c ∈ (modelOf (plainNode 1 "b")).getConnections, c.type ≠ .main → c.toNode = plainNode 1 "b" := by
    decide
  exact .cons member other (.inl ⟨plainNode 1 "b", mem_singleton_self _, .inl (enters c member other)⟩)

/-- The model of the node before it goes as well, though it is no sub-node of a cleaned node. -/
theorem modelOf_upstream_removed :
    ∃ after out, cleanRunDataIn [allRan] 0 (modelOf (plainNode 0 "a")) [plainNode 1 "b"] = some (after, out) ∧
      ¬∃ result, after[out]? = some result ∧
        allRan.Without (MustGo (modelOf (plainNode 0 "a")) [plainNode 1 "b"]) result := by
  have removed : (cleanRunDataIn [allRan] 0 (modelOf (plainNode 0 "a")) [plainNode 1 "b"]).any (fun returned =>
      decide ((returned.1[returned.2]?.bind (·.get "m")) = none)) = true := by decide
  obtain ⟨⟨after, out⟩, done, gone⟩ := (any_eq_true _ _).mp removed
  refine ⟨after, out, done, ?_⟩
  rintro ⟨result, read, exactly⟩
  have lost := of_decide_eq_true gone
  simp only [read, bind_some] at lost
  have onlyCleaned : ∀ x, Cleaned (modelOf (plainNode 0 "a")) [plainNode 1 "b"] x → x = plainNode 1 "b" := by
    rintro x ⟨node, member, here | ⟨cs, some, trail, inside⟩⟩
    · exact here.trans (mem_singleton.mp member)
    · obtain rfl := mem_singleton.mp member
      cases cs with
      | nil => exact absurd rfl some
      | cons c cs =>
        have last : ∀ c ∈ (modelOf (plainNode 0 "a")).getConnections, c.fromNode ≠ plainNode 1 "b" := by decide
        exact absurd trail.1 (last c (inside c mem_cons_self))
  have stays : ¬MustGo (modelOf (plainNode 0 "a")) [plainNode 1 "b"] "m" := by
    rintro (outside | ⟨x, name, isCleaned | ⟨cs, y, some, ⟨⟨trail, inside⟩, others⟩, isCleaned⟩⟩)
    · exact absurd outside (by decide)
    · exact absurd (onlyCleaned x isCleaned ▸ name) (by decide)
    · rcases trail.last_cases with ⟨none, _⟩ | ⟨c, member, enters⟩
      · exact some none
      · have entersFirst : ∀ c ∈ (modelOf (plainNode 0 "a")).getConnections, c.type ≠ .main →
            c.toNode ≠ plainNode 1 "b" := by decide
        exact entersFirst c (inside c member) (others c member) (enters.trans (onlyCleaned y isCleaned))
  have kept := (exactly "m" []).mpr ⟨by decide, stays⟩
  rw [lost] at kept
  cases kept

end N8n.PartialExecution
