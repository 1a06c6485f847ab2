import N8n.FindStartNodes
import N8n.StronglyConnectedComponents

/-! Start nodes on a cycle are replaced by the first node of the cycle that a depth-first search
from the trigger comes to. The search finds one for every start node that the trigger leads
to, whatever sets of nodes count as cycles. -/

namespace N8n.PartialExecution

open List Option

namespace DirectedGraph

def names (graph : DirectedGraph) : N8n.DirectedGraph where
  nodes := graph.getNodes.map (·.name)
  connections := (graph.getConnections.filter (graph.Stores ·.fromNode)).map fun c =>
    ⟨c.fromNode.name, c.toNode.name, c.type, c.outputIndex, c.inputIndex⟩

/-- Every stored node is followed along its connections, and an assertion fails at one that is not
stored. Elsewhere a node is known by its name, and the search goes by names; the values that it
asserts exist for every node on its stack. -/
def getStronglyConnectedComponents (graph : DirectedGraph) : Option (List (List GraphNode)) :=
  if ∀ c ∈ graph.getConnections, graph.Stores c.fromNode → graph.Stores c.toNode then
    some (graph.names.getStronglyConnectedComponents.map (·.filterMap graph.nodes.get))
  else none

/-- The node found and the nodes seen. Every nested call that is not cut off sees a node more, so
`fuel` does not run out when it exceeds the number of nodes. -/
def depthFirstSearchRecursive (graph : DirectedGraph) (fn : GraphNode → Bool) :
    (fuel : ℕ) → (node : GraphNode) → (seen : List GraphNode) → Option (Option GraphNode × List GraphNode)
  | 0, _, seen => some (none, seen)
  | fuel + 1, node, seen =>
    if node ∈ seen then some (none, seen)
    else if fn node then some (some node, seen ++ [node])
    else do
      let childConnections ← graph.getDirectChildConnections node
      childConnections.foldlM (fun state childConnection =>
        if state.1.isSome then some state
        else depthFirstSearchRecursive graph fn fuel childConnection.toNode state.2) (none, seen ++ [node])

def depthFirstSearch (graph : DirectedGraph) (node : GraphNode) (fn : GraphNode → Bool) : Option (Option GraphNode) :=
  (graph.depthFirstSearchRecursive fn (graph.getNodes.length + 1) node []).map Prod.fst

end DirectedGraph

/-- A cycle that the search does not come to fails an assertion. -/
def replaceStartNode (graph : DirectedGraph) (trigger startNode : GraphNode) (newStartNodes cycle : List GraphNode) :
    Option (List GraphNode) :=
  if startNode ∈ cycle then do
    let firstNode ← graph.depthFirstSearch trigger (· ∈ cycle)
    let firstNode ← firstNode
    return addToSet (newStartNodes.erase startNode) firstNode
  else some newStartNodes

def handleCycles (graph : DirectedGraph) (startNodes : List GraphNode) (trigger : GraphNode) :
    Option (List GraphNode) := do
  let components ← graph.getStronglyConnectedComponents
  let cycles := components.filter (1 ≤ ·.length)
  if cycles.length = 0 then some startNodes
  else startNodes.foldlM (fun newStartNodes startNode =>
    cycles.foldlM (replaceStartNode graph trigger startNode) newStartNodes) startNodes

open PartialExecution.DirectedGraph PartialExecution.GraphConnection

variable {graph : DirectedGraph} {trigger node x : GraphNode} {fn : GraphNode → Bool} {seen before after : List GraphNode}
  {found : Option GraphNode} {startNodes result cycle : List GraphNode}

/-! ## The search -/

structure Seen (graph : DirectedGraph) (seen : List GraphNode) : Prop where
  distinct : seen.Nodup
  stored : ∀ x ∈ seen, graph.Stores x

theorem Seen.length_le (all : Seen graph seen) : seen.length ≤ graph.getNodes.length :=
  (subperm_of_subset all.distinct fun x member => mem_getNodes.mpr (all.stored x member)).length_le

theorem Seen.concat (all : Seen graph seen) (stored : graph.Stores node) (new : node ∉ seen) :
    Seen graph (seen ++ [node]) where
  distinct := (perm_append_singleton node seen).nodup_iff.mpr (nodup_cons.mpr ⟨new, all.distinct⟩)
  stored := forall_mem_append.mpr ⟨all.stored, forall_mem_singleton.mpr stored⟩

/-- What a search by way of some connections finds, or else sees. -/
structure Looked (graph : DirectedGraph) (fn : GraphNode → Bool) (node : GraphNode) (cs : List GraphConnection)
    (before after : List GraphNode) (found : Option GraphNode) : Prop where
  all : Seen graph after
  grows : before ⊆ after
  finds : ∀ n, found = some n → fn n = true ∧ ∃ ds, ConnectionTrail graph node ds n
  exhausted : found = none → (∀ c ∈ cs, c.toNode ∈ after) ∧ ∀ x ∈ after, x ∉ before → fn x = false ∧
    ∀ c ∈ graph.getConnections, c.fromNode = x → c.toNode ∈ after

theorem foldlM_found (step : List GraphNode → GraphConnection → Option (Option GraphNode × List GraphNode))
    {cs : List GraphConnection} (isFound : found.isSome) :
    cs.foldlM (fun state c => if state.1.isSome then some state else step state.2 c) (found, seen) =
      some (found, seen) := by
  induction cs with
  | nil => rfl
  | cons c cs ih =>
    rw [foldlM_cons]
    simp only [isFound, if_true, bind_eq_bind, bind_some]
    exact ih

theorem depthFirstSearchRecursive_looked {fuel : ℕ} (below : StoresBelow graph node) (all : Seen graph before)
    (enough : graph.getNodes.length < fuel + before.length) :
    ∃ found after, graph.depthFirstSearchRecursive fn fuel node before = some (found, after) ∧
      Looked graph fn node [] before after found ∧ (found = none → node ∈ after) := by
  induction fuel generalizing node before with
  | zero =>
    have bound := all.length_le
    omega
  | succ fuel ih =>
    have stored : graph.Stores node := below [] node (.nil graph node)
    rw [depthFirstSearchRecursive]
    by_cases old : node ∈ before
    · rw [if_pos old]
      exact ⟨none, before, rfl, ⟨all, fun _ => id, by simp, fun _ => ⟨by simp, fun x member new => absurd member new⟩⟩,
        fun _ => old⟩
    rw [if_neg old]
    have allHere := all.concat stored old
    have grows : before ⊆ before ++ [node] := subset_append_left _ _
    by_cases isFound : fn node = true
    · rw [if_pos isFound]
      refine ⟨some node, before ++ [node], rfl, ⟨allHere, grows, fun n same => ?_, by simp⟩, by simp⟩
      obtain rfl := some.inj same
      exact ⟨isFound, [], .nil graph _⟩
    rw [if_neg isFound, getDirectChildConnections, if_pos stored, bind_eq_bind, bind_some]
    have each : ∀ cs : List GraphConnection, (∀ c ∈ cs, c ∈ graph.getConnections ∧ c.fromNode = node) →
        ∀ start, Seen graph start → before.length < start.length → ∃ found after,
          cs.foldlM (fun state c => if state.1.isSome then some state
            else graph.depthFirstSearchRecursive fn fuel c.toNode state.2) (none, start) = some (found, after) ∧
          Looked graph fn node cs start after found := by
      intro cs
      induction cs with
      | nil =>
        exact fun _ start allStart _ => ⟨none, start, rfl, allStart, fun _ => id, by simp,
          fun _ => ⟨by simp, fun x member new => absurd member new⟩⟩
      | cons c cs inner =>
        intro inside start allStart longer
        obtain ⟨inGraph, leaves⟩ := inside c mem_cons_self
        have belowChild : StoresBelow graph c.toNode := fun cs x trail =>
          below (c :: cs) x (leaves ▸ ConnectionTrail.cons inGraph trail)
        obtain ⟨foundFirst, mid, first, looked, met⟩ := ih belowChild allStart (by omega)
        have reach : ∀ n, foundFirst = some n → fn n = true ∧ ∃ ds, ConnectionTrail graph node ds n := by
          intro n same
          obtain ⟨isFound, ds, trail⟩ := looked.finds n same
          exact ⟨isFound, c :: ds, leaves ▸ ConnectionTrail.cons inGraph trail⟩
        rw [foldlM_cons]
        simp only [isSome_none, Bool.false_eq_true, if_false, first, bind_eq_bind, bind_some]
        cases foundFirst with
        | some n =>
          refine ⟨some n, mid, ?_, looked.all, looked.grows, reach, by simp⟩
          exact foldlM_found (fun seen c => graph.depthFirstSearchRecursive fn fuel c.toNode seen) rfl
        | none =>
          have wider : start.length ≤ mid.length :=
            (subperm_of_subset allStart.distinct looked.grows).length_le
          obtain ⟨found, after, rest, later⟩ := inner (fun d member => inside d (mem_cons_of_mem _ member)) mid
            looked.all (by omega)
          refine ⟨found, after, rest, later.all, List.Subset.trans looked.grows later.grows, later.finds, fun nothing => ?_⟩
          obtain ⟨entered, expanded⟩ := later.exhausted nothing
          refine ⟨forall_mem_cons.mpr ⟨later.grows (met rfl), entered⟩, fun x member new => ?_⟩
          by_cases inMid : x ∈ mid
          · obtain ⟨notFn, children⟩ := (looked.exhausted rfl).2 x inMid new
            exact ⟨notFn, fun d hd from_ => later.grows (children d hd from_)⟩
          · exact expanded x member inMid
    obtain ⟨found, after, done, looked⟩ := each (graph.getConnections.filter (·.fromNode = node))
      (fun c member => by simpa using member) (before ++ [node]) allHere (by simp)
    have here : node ∈ after := looked.grows (mem_append_right _ mem_cons_self)
    refine ⟨found, after, done, ⟨looked.all, List.Subset.trans grows looked.grows, looked.finds, fun nothing => ?_⟩,
      fun _ => here⟩
    obtain ⟨entered, expanded⟩ := looked.exhausted nothing
    refine ⟨by simp, fun x member new => ?_⟩
    by_cases isHere : x = node
    · subst isHere
      exact ⟨Bool.eq_false_iff.mpr isFound, fun c hc leaves =>
        entered c (mem_filter.mpr ⟨hc, by simpa using leaves⟩)⟩
    · exact expanded x member (by simp [new, isHere])

theorem depthFirstSearch_spec (below : StoresBelow graph node) : ∃ found, graph.depthFirstSearch node fn = some found ∧
      (∀ n, found = some n → fn n = true ∧ ∃ ds, ConnectionTrail graph node ds n) ∧
      (∀ cs n, ConnectionTrail graph node cs n → fn n = true → found ≠ none) := by
  have start : Seen graph [] := ⟨nodup_nil, by simp⟩
  obtain ⟨found, after, done, looked, met⟩ : ∃ found after, graph.depthFirstSearchRecursive fn
      (graph.getNodes.length + 1) node [] = some (found, after) ∧ Looked graph fn node [] [] after found ∧
        (found = none → node ∈ after) := depthFirstSearchRecursive_looked below start (by simp)
  refine ⟨found, by rw [depthFirstSearch, done]; rfl, looked.finds, fun cs n trail isFound nothing => ?_⟩
  have expanded := (looked.exhausted nothing).2
  have inside : n ∈ after := by
    refine trail.1.stays (p := (· ∈ after)) (met nothing) fun c member leaves => ?_
    exact (expanded c.fromNode leaves not_mem_nil).2 c (trail.2 c member) rfl
  exact Bool.false_ne_true ((expanded n inside not_mem_nil).1.symm.trans isFound)

/-! ## Cycles -/

theorem mem_addToSet_erase {nodes : List GraphNode} {first : GraphNode} (member : x ∈ addToSet (nodes.erase node) first) :
    x ∈ nodes ∨ x = first :=
  (mem_addToSet.mp member).imp_left mem_of_mem_erase

/-- No assertion fails for start nodes that the trigger leads to, and the new start nodes are
stored. -/
theorem handleCycles_isSome (closed : graph.Closed) (triggerStored : graph.Stores trigger)
    (reached : ∀ n ∈ startNodes, ∃ cs, ConnectionTrail graph trigger cs n) :
    ∃ result, handleCycles graph startNodes trigger = some result ∧ ∀ n ∈ result, graph.Stores n := by
  have below := closed.storesBelow triggerStored
  have stored : ∀ n ∈ startNodes, graph.Stores n := fun n member =>
    have ⟨cs, trail⟩ := reached n member
    below cs n trail
  have followed : ∀ c ∈ graph.getConnections, graph.Stores c.fromNode → graph.Stores c.toNode :=
    fun c member _ => (closed c member).2
  rw [handleCycles, getStronglyConnectedComponents, if_pos followed, bind_eq_bind, bind_some]
  dsimp only
  split
  · exact ⟨startNodes, rfl, stored⟩
  have step : ∀ startNode ∈ startNodes, ∀ cycle : List GraphNode, ∀ nodes : List GraphNode,
      (∀ n ∈ nodes, graph.Stores n) → ∃ next, replaceStartNode graph trigger startNode nodes cycle = some next ∧
        ∀ n ∈ next, graph.Stores n := by
    intro startNode member cycle nodes storedNodes
    rw [replaceStartNode]
    split
    · rename_i inCycle
      obtain ⟨found, done, finds, some⟩ : ∃ found, graph.depthFirstSearch trigger (fun n => decide (n ∈ cycle)) =
        some found ∧ _ ∧ _ := depthFirstSearch_spec below
      obtain ⟨cs, trail⟩ := reached startNode member
      obtain ⟨first, rfl⟩ := ne_none_iff_exists'.mp (some cs startNode trail (by simpa using inCycle))
      obtain ⟨_, ds, trailFirst⟩ := finds first rfl
      rw [done]
      refine ⟨_, rfl, fun n inNext => ?_⟩
      rcases mem_addToSet_erase inNext with old | rfl
      · exact storedNodes n old
      · exact below ds n trailFirst
    · exact ⟨nodes, rfl, storedNodes⟩
  exact foldlM_isSome (fun startNode member nodes storedNodes =>
    foldlM_isSome (fun cycle _ nodes storedNodes => step startNode member cycle nodes storedNodes) storedNodes) stored

theorem handleCycles_absent (absent : ¬graph.Stores node) (done : handleCycles graph [node] trigger = some result) :
    result = [node] := by
  rw [handleCycles, bind_eq_bind, bind_eq_some_iff] at done
  obtain ⟨components, found, done⟩ := done
  have outside : ∀ cycle ∈ components, node ∉ cycle := by
    rw [getStronglyConnectedComponents, ite_none_right_eq_some] at found
    obtain rfl := some.inj found.2
    intro cycle member inside
    obtain ⟨scc, _, rfl⟩ := List.mem_map.mp member
    obtain ⟨name, _, stored⟩ := mem_filterMap.mp inside
    obtain rfl := graph.named name node stored
    exact absent stored
  dsimp only at done
  split at done
  · exact (some.inj done).symm
  · rw [foldlM_cons, bind_eq_bind, bind_eq_some_iff] at done
    obtain ⟨nodes, step, last⟩ := done
    obtain rfl := some.inj last
    refine foldlM_invariant (I := (· = [node])) (fun cycle member nodes next same step => ?_) rfl step
    rw [replaceStartNode, if_neg (outside cycle (mem_filter.mp member).1)] at step
    exact (some.inj step).symm.trans same

end N8n.PartialExecution
