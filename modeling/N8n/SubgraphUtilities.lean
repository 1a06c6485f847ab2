import N8n.SubgraphNodes

/-! Which utility nodes the search for a subgraph re-adds. It takes every connection that is not of the
main type behind a kept node, over connections of all types: also those that feed a node which only
main connections lead on from to the kept branches, like the agents of a branch that was not kept. -/

namespace N8n.PartialExecution

open PartialExecution.DirectedGraph PartialExecution.GraphConnection

section Utilities

variable {graph sub first : DirectedGraph} {destination trigger x y : GraphNode} {c : GraphConnection}

def OnBranch (graph : DirectedGraph) (destination trigger x : GraphNode) : Prop :=
  ∃ ext last, Kept graph destination trigger destination [] ext last ∧ (x = destination ∨ ∃ c ∈ ext, x = c.fromNode)

theorem onBranch_of_target {ext : List GraphConnection} {last : GraphNode}
    (kept : Kept graph destination trigger destination [] ext last) (member : c ∈ ext) :
    OnBranch graph destination trigger c.toNode := by
  obtain ⟨pre, post, rfl⟩ := List.append_of_mem member
  obtain ⟨m, before, after⟩ := Trail.append_iff.mp kept.trail
  obtain rfl : c.toNode = m := after.1
  rcases before.last_cases with ⟨_, same⟩ | ⟨d, inside, enters⟩
  · exact ⟨_, last, kept, .inl same.symm⟩
  · exact ⟨_, last, kept, .inr ⟨d, List.mem_append_left _ inside, enters.symm⟩⟩

theorem Searched.stores_iff (searched : Searched graph destination trigger first)
    (alone : trigger = destination → first.Stores trigger) : first.Stores x ↔ OnBranch graph destination trigger x := by
  constructor
  · intro inside
    rcases searched.joined x inside with ⟨same, isTrigger⟩ | ⟨c, member, isEnd⟩
    · exact ⟨[], destination, (kept_nil (by simp)).mpr ⟨rfl, .inl isTrigger.symm⟩, .inl same⟩
    · obtain ⟨ext, last, kept, onBranch⟩ := (searched.connections c).mp member
      rcases isEnd with rfl | rfl
      · exact ⟨ext, last, kept, .inr ⟨c, onBranch, rfl⟩⟩
      · exact onBranch_of_target kept onBranch
  · rintro ⟨ext, last, kept, isDestination | ⟨c, member, rfl⟩⟩
    · subst isDestination
      cases ext with
      | nil =>
        obtain ⟨same, isTrigger | ⟨notEnd, _⟩⟩ := (kept_nil (by simp)).mp kept
        · have both : trigger = x := isTrigger.symm.trans same.symm
          exact both ▸ alone both
        · exact absurd same.symm notEnd
      | cons c ext =>
        exact searched.root_of_connection ((searched.connections c).mpr ⟨_, last, kept, List.mem_cons_self⟩)
    · exact (searched.part.closed c ((searched.connections c).mpr ⟨ext, last, kept, member⟩)).1

theorem stores_findSubgraph_iff (triggerStored : graph.Stores trigger)
    (found : findSubgraph graph destination trigger = some sub) :
    sub.Stores x ↔ OnBranch graph destination trigger x ∨ ∃ c ∈ graph.getConnections, c.type ≠ .main ∧
      LeadsTo graph (OnBranch graph destination trigger) c.toNode ∧ (x = c.fromNode ∨ x = c.toNode) := by
  obtain ⟨first, searched, alone, readded⟩ := findSubgraph_stages triggerStored found
  have grown := readded_grown searched.part readded
  constructor
  · intro inside
    refine foldlM_invariant (I := fun s : DirectedGraph => s.Stores x → OnBranch graph destination trigger x ∨
      ∃ c ∈ graph.getConnections, c.type ≠ .main ∧ LeadsTo graph (OnBranch graph destination trigger) c.toNode ∧
        (x = c.fromNode ∨ x = c.toNode)) (fun node member s next before step inNext => ?_)
      (fun inFirst => .inl ((searched.stores_iff alone).mp inFirst)) readded inside
    rcases readdUtilities_stores step inNext with old | ⟨_, c, inGraph, other, ⟨ds, behind⟩, isEnd⟩
    · exact before old
    · exact .inr ⟨c, inGraph, other, ⟨ds, node, behind, (searched.stores_iff alone).mp (mem_getNodes.mp member)⟩, isEnd⟩
  · rintro (onBranch | ⟨c, inGraph, other, ⟨ds, node, behind, onBranch⟩, isEnd⟩)
    · exact grown.kept x ((searched.stores_iff alone).mpr onBranch)
    · have member := mem_getNodes.mpr ((searched.stores_iff alone).mpr onBranch)
      have ends := grown.part.closed c ((grown.connections c).mpr (.inr ⟨node, member, other, inGraph, ds, behind⟩))
      rcases isEnd with rfl | rfl
      · exact ends.1
      · exact ends.2

/-- Only kept nodes and their utilities are in the result exactly when no utility of another node
leads to a kept one. -/
theorem utilities_belong_iff (triggerStored : graph.Stores trigger)
    (found : findSubgraph graph destination trigger = some sub) :
    let kept := OnBranch graph destination trigger
    (∀ x, sub.Stores x → kept x ∨ Feeds graph kept x) ↔
      ∀ c ∈ graph.getConnections, c.type ≠ .main → LeadsTo graph kept c.toNode →
        kept c.toNode ∨ Feeds graph kept c.toNode := by
  intro kept
  constructor
  · intro belong c member other leads
    exact belong c.toNode ((stores_findSubgraph_iff triggerStored found).mpr (.inr ⟨c, member, other, leads, .inr rfl⟩))
  · intro fed x inside
    rcases (stores_findSubgraph_iff triggerStored found).mp inside with onBranch | ⟨c, member, other, leads, rfl | rfl⟩
    · exact .inl onBranch
    · exact .inr (.cons member other (fed c member other leads))
    · exact fed c member other leads

end Utilities

/-- The agent `d` with its model `m`, behind the trigger. -/
def agentGraph : DirectedGraph :=
  let t := plainNode 0 "t"
  let d := plainNode 1 "d"
  let m := plainNode 2 "m"
  [⟨t, d, .main, 0, 0⟩, ⟨m, d, .aiLanguageModel, 0, 0⟩].foldl setConnection (empty.addNodes [t, d, m])

theorem agentGraph_utilities : ∃ sub, findSubgraph agentGraph (plainNode 1 "d") (plainNode 0 "t") = some sub ∧
    ∀ x, sub.Stores x → OnBranch agentGraph (plainNode 1 "d") (plainNode 0 "t") x ∨
      Feeds agentGraph (OnBranch agentGraph (plainNode 1 "d") (plainNode 0 "t")) x := by
  have found : (findSubgraph agentGraph (plainNode 1 "d") (plainNode 0 "t")).isSome = true := by decide
  obtain ⟨sub, found⟩ := Option.isSome_iff_exists.mp found
  refine ⟨sub, found, (utilities_belong_iff (by decide) found).mpr fun c member other _ => .inl ?_⟩
  have enters : ∀ c ∈ agentGraph.getConnections, c.type ≠ .main → c.toNode = plainNode 1 "d" := by decide
  have branch : Kept agentGraph (plainNode 1 "d") (plainNode 0 "t") (plainNode 1 "d") []
      [⟨plainNode 0 "t", plainNode 1 "d", .main, 0, 0⟩] (plainNode 0 "t") :=
    ⟨by decide, by decide, by decide, by decide, .inl rfl⟩
  exact ⟨_, _, branch, .inl (enters c member other)⟩

/-- The agent `b` with its model `m`, on a branch to `d` that the trigger does not lead to. -/
def otherBranch : DirectedGraph :=
  let t := plainNode 0 "t"
  let d := plainNode 1 "d"
  let b := plainNode 2 "b"
  let m := plainNode 3 "m"
  [⟨t, d, .main, 0, 0⟩, ⟨b, d, .main, 0, 0⟩, ⟨m, b, .aiLanguageModel, 0, 0⟩].foldl setConnection
    (empty.addNodes [t, d, b, m])

theorem otherBranch_leaks : ∃ sub, findSubgraph otherBranch (plainNode 1 "d") (plainNode 0 "t") = some sub ∧
    sub.Stores (plainNode 2 "b") ∧ ¬(OnBranch otherBranch (plainNode 1 "d") (plainNode 0 "t") (plainNode 2 "b") ∨
      Feeds otherBranch (OnBranch otherBranch (plainNode 1 "d") (plainNode 0 "t")) (plainNode 2 "b")) := by
  have kept : (findSubgraph otherBranch (plainNode 1 "d") (plainNode 0 "t")).any (fun sub =>
      decide (sub.Stores (plainNode 2 "b"))) = true := by decide
  obtain ⟨sub, found, stored⟩ := (Option.any_eq_true _ _).mp kept
  refine ⟨sub, found, of_decide_eq_true stored, ?_⟩
  have started : (findSubgraphRecursive otherBranch (plainNode 1 "d") (plainNode 0 "t")
      (otherBranch.getNodes.length + 1) (plainNode 1 "d") .empty []).any (fun first =>
        decide (first.Stores (plainNode 0 "t") ∧ ¬first.Stores (plainNode 2 "b"))) = true := by decide
  obtain ⟨first, searched, apart⟩ := (Option.any_eq_true _ _).mp started
  obtain ⟨triggerKept, absent⟩ := of_decide_eq_true apart
  rintro (onBranch | ⟨cs, y, some, ⟨⟨trail, inside⟩, others⟩, _⟩)
  · exact absent (((findSubgraphRecursive_searched (by decide) searched).stores_iff fun _ => triggerKept).mpr onBranch)
  · cases cs with
    | nil => exact some rfl
    | cons c cs =>
      have onlyMain : ∀ c ∈ otherBranch.getConnections, c.fromNode = plainNode 2 "b" → c.type = .main := by decide
      exact others c List.mem_cons_self (onlyMain c (inside c List.mem_cons_self) trail.1)

end N8n.PartialExecution
