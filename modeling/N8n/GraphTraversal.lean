import N8n.EditableGraph
import N8n.Gathering

/-! `getChildren` returns the nodes that connections lead to. A call returns a set that holds
the direct children of its node and, with every node it adds, the direct children of that. -/

namespace N8n.PartialExecution

open List

namespace DirectedGraph

/-- Nested calls add a child each, so `fuel` does not run out when it exceeds the number of
connections. -/
def getChildrenRecursive (graph : DirectedGraph) :
    (fuel : ℕ) → (node : GraphNode) → (children : List GraphNode) → Option (List GraphNode)
  | 0, _, children => some children
  | fuel + 1, node, children => do
    let directChildren ← graph.getDirectChildConnections node
    directChildren.foldlM (fun children directChild =>
      if directChild.toNode ∈ children then some children
      else getChildrenRecursive graph fuel directChild.toNode (children ++ [directChild.toNode])) children

def getChildren (graph : DirectedGraph) (node : GraphNode) : Option (List GraphNode) :=
  graph.getChildrenRecursive (graph.getConnections.length + 1) node []

end DirectedGraph

open PartialExecution.DirectedGraph PartialExecution.GraphConnection

def ConnectionTrail (graph : DirectedGraph) (a : GraphNode) (cs : List GraphConnection) (b : GraphNode) : Prop :=
  Trail fromNode toNode a cs b ∧ ∀ c ∈ cs, c ∈ graph.getConnections

instance (graph : DirectedGraph) (a : GraphNode) (cs : List GraphConnection) (b : GraphNode) :
    Decidable (ConnectionTrail graph a cs b) := inferInstanceAs (Decidable (_ ∧ _))

def Descends (graph : DirectedGraph) (a b : GraphNode) : Prop := ∃ cs, cs ≠ [] ∧ ConnectionTrail graph a cs b

def StoresBelow (graph : DirectedGraph) (node : GraphNode) : Prop :=
  ∀ cs x, ConnectionTrail graph node cs x → graph.Stores x

def StoresAbove (graph : DirectedGraph) (node : GraphNode) : Prop :=
  ∀ cs x, ConnectionTrail graph x cs node → graph.Stores x

def UtilityTrail (graph : DirectedGraph) (a : GraphNode) (cs : List GraphConnection) (b : GraphNode) : Prop :=
  ConnectionTrail graph a cs b ∧ ∀ c ∈ cs, c.type ≠ .main

def Feeds (graph : DirectedGraph) (nodes : GraphNode → Prop) (x : GraphNode) : Prop :=
  ∃ cs y, cs ≠ [] ∧ UtilityTrail graph x cs y ∧ nodes y

def LeadsTo (graph : DirectedGraph) (nodes : GraphNode → Prop) (x : GraphNode) : Prop :=
  ∃ cs y, ConnectionTrail graph x cs y ∧ nodes y

variable {graph : DirectedGraph} {node a b : GraphNode} {before after : List GraphNode} {c : GraphConnection}
  {nodes : GraphNode → Prop} {x : GraphNode}

theorem ConnectionTrail.nil (graph : DirectedGraph) (a : GraphNode) : ConnectionTrail graph a [] a := ⟨rfl, by simp⟩

theorem ConnectionTrail.cons {cs : List GraphConnection} (member : c ∈ graph.getConnections)
    (rest : ConnectionTrail graph c.toNode cs b) : ConnectionTrail graph c.fromNode (c :: cs) b :=
  ⟨⟨rfl, rest.1⟩, forall_mem_cons.mpr ⟨member, rest.2⟩⟩

theorem ConnectionTrail.append {cs ds : List GraphConnection} (one : ConnectionTrail graph a cs node)
    (two : ConnectionTrail graph node ds b) : ConnectionTrail graph a (cs ++ ds) b :=
  ⟨one.1.append two.1, forall_mem_append.mpr ⟨one.2, two.2⟩⟩

theorem Feeds.cons {nodes : GraphNode → Prop} (member : c ∈ graph.getConnections) (other : c.type ≠ .main)
    (feeds : nodes c.toNode ∨ Feeds graph nodes c.toNode) : Feeds graph nodes c.fromNode := by
  rcases feeds with there | ⟨cs, y, _, ⟨trail, others⟩, there⟩
  · exact ⟨[c], c.toNode, by simp, ⟨.cons member (.nil graph _), by simpa using other⟩, there⟩
  · exact ⟨c :: cs, y, by simp, ⟨.cons member trail, forall_mem_cons.mpr ⟨other, others⟩⟩, there⟩

theorem LeadsTo.here (there : nodes a) : LeadsTo graph nodes a :=
  ⟨[], a, .nil graph a, there⟩

theorem LeadsTo.cons {nodes : GraphNode → Prop} (leads : LeadsTo graph nodes c.toNode)
    (member : c ∈ graph.getConnections) : LeadsTo graph nodes c.fromNode := by
  obtain ⟨cs, y, trail, there⟩ := leads
  exact ⟨c :: cs, y, .cons member trail, there⟩

theorem Feeds.leadsTo (feeds : Feeds graph nodes a) : LeadsTo graph nodes a := by
  obtain ⟨cs, y, _, ⟨trail, _⟩, there⟩ := feeds
  exact ⟨cs, y, trail, there⟩

theorem Feeds.first (feeds : Feeds graph nodes a) :
    ∃ c ∈ graph.getConnections, c.type ≠ .main ∧ c.fromNode = a ∧ LeadsTo graph nodes c.toNode := by
  obtain ⟨cs, y, some, ⟨trail, others⟩, there⟩ := feeds
  cases cs with
  | nil => exact absurd rfl some
  | cons c cs =>
    have rest := forall_mem_cons.mp trail.2
    exact ⟨c, rest.1, others c mem_cons_self, trail.1.1, cs, y, ⟨trail.1.2, rest.2⟩, there⟩

theorem DirectedGraph.Closed.storesBelow (closed : graph.Closed) (stored : graph.Stores node) :
    StoresBelow graph node := by
  intro cs x trail
  exact trail.1.stays stored fun c member _ => (closed c (trail.2 c member)).2

theorem DirectedGraph.Closed.storesAbove (closed : graph.Closed) (stored : graph.Stores node) :
    StoresAbove graph node := by
  intro cs x trail
  cases cs with
  | nil => exact (show x = node from trail.1) ▸ stored
  | cons c cs => exact trail.1.1 ▸ (closed c (trail.2 c mem_cons_self)).1

theorem gathers_children (graph : DirectedGraph) :
    Gathers toNode fromNode toNode graph.getConnections graph.Stores graph.getDirectChildConnections where
  known _ stored := if_pos stored
  unknown _ absent := if_neg absent
  behind _ _ := id

theorem getChildrenRecursive_eq (fuel : ℕ) (children : List GraphNode) : graph.getChildrenRecursive fuel node children =
      gather toNode toNode graph.getDirectChildConnections fuel node children := by
  induction fuel generalizing node children with
  | zero => rfl
  | succ fuel ih => simp only [getChildrenRecursive, gather, ih]

theorem descends_iff :
    Descends graph node x ↔ ∃ c, LeadingEdge fromNode toNode graph.getConnections node c ∧ c.toNode = x := by
  constructor
  · rintro ⟨cs, nonempty, trail, inside⟩
    obtain ⟨before, c, rfl⟩ := eq_nil_or_concat' cs |>.resolve_left nonempty
    obtain ⟨mid, one, starts, ends⟩ := Trail.append_iff.mp trail
    obtain ⟨all, member⟩ := forall_mem_append.mp inside
    exact ⟨c, ⟨member c mem_cons_self, before, starts ▸ one, all⟩, ends⟩
  · rintro ⟨c, ⟨member, before, trail, all⟩, rfl⟩
    exact ⟨before ++ [c], by simp, trail.concat rfl, forall_mem_append.mpr ⟨all, by simpa using member⟩⟩

theorem mem_getChildren {children : List GraphNode} (done : graph.getChildren node = some children) :
    x ∈ children ↔ Descends graph node x := by
  rw [getChildren, getChildrenRecursive_eq] at done
  exact ((gathers_children graph).spec done).1 x |>.trans descends_iff.symm

theorem getChildren_isSome : (graph.getChildren node).isSome ↔ StoresBelow graph node := by
  rw [getChildren, getChildrenRecursive_eq, Option.isSome_iff_exists]
  constructor
  · rintro ⟨children, done⟩ cs x trail
    obtain ⟨_, here, below⟩ := (gathers_children graph).spec done
    cases cs with
    | nil => exact (show node = x from trail.1) ▸ here
    | cons c cs =>
      obtain ⟨last, leads, rfl⟩ := descends_iff.mp ⟨c :: cs, by simp, trail⟩
      exact below last leads
  · intro below
    refine (gathers_children graph).returns (below [] node (.nil graph node)) (fun c leads => ?_) []
    obtain ⟨cs, _, trail⟩ := descends_iff.mpr ⟨c, leads, rfl⟩
    exact below cs c.toNode trail

end N8n.PartialExecution
