import N8n.SubgraphReach

/-! Which assertions the search for a subgraph passes, and whether it keeps the trigger. As soon
as a node is kept the destination is, and with its utilities all that leads to it is looked
at. The trigger is kept at the start of a main trail to the destination; otherwise it has to be
a utility or to have one, beside a loop that is kept. -/

namespace N8n.PartialExecution

open PartialExecution.DirectedGraph PartialExecution.GraphConnection List Option

section Nodes

variable {graph sub first : DirectedGraph} {destination trigger x : GraphNode} {cs : List GraphConnection}

def OnUtility (graph : DirectedGraph) (destination x : GraphNode) : Prop :=
  ∃ c ∈ graph.getConnections, c.type ≠ .main ∧ (∃ ds, ConnectionTrail graph c.toNode ds destination) ∧
    (x = c.fromNode ∨ x = c.toNode)

def TriggerKept (graph : DirectedGraph) (trigger destination : GraphNode) : Prop :=
  (∃ cs, MainTrail graph trigger cs destination) ∨
    (∃ n, OnSideLoop graph trigger destination n) ∧ OnUtility graph destination trigger

theorem MainTrail.connections {a b : GraphNode} (trail : MainTrail graph a cs b) : ConnectionTrail graph a cs b :=
  ⟨trail.1, fun c member => (trail.2 c member).1⟩

theorem MainTrail.between (trail : MainTrail graph trigger cs destination) :
    ∃ short, Between graph trigger destination trigger short destination := by
  obtain ⟨short, shortTrail, distinct, part⟩ := trail.1.exists_simple
  refine ⟨short, ⟨shortTrail, fun c member => trail.2 c (part member)⟩, fun c member back => ?_, fun c member back => ?_⟩
  · exact (nodup_cons.mp distinct).1 (List.mem_map.mpr ⟨c, member, back⟩)
  · rw [← shortTrail.sources_concat, nodup_append] at distinct
    exact distinct.2.2 c.fromNode (List.mem_map.mpr ⟨c, member, rfl⟩) destination mem_cons_self back

namespace Searched

section

variable (searched : Searched graph destination trigger first)
include searched

theorem root_of_connection {c : GraphConnection} (member : c ∈ first.getConnections) : first.Stores destination := by
  obtain ⟨ext, last, kept, onBranch⟩ := (searched.connections c).mp member
  cases ext with
  | nil => cases onBranch
  | cons d ext =>
    have inFirst := (searched.connections d).mpr ⟨d :: ext, last, kept, mem_cons_self⟩
    have enters : d.toNode = destination := kept.trail.1
    exact enters ▸ (searched.part.closed d inFirst).2

theorem root (inside : first.Stores x) : first.Stores destination := by
  rcases searched.joined x inside with ⟨rfl, _⟩ | ⟨c, member, _⟩
  · exact inside
  · exact searched.root_of_connection member

theorem branch_cases (inside : first.Stores x) :
    (∃ cs, MainTrail graph trigger cs destination) ∨ ∃ n, OnSideLoop graph trigger destination n := by
  rcases searched.joined x inside with ⟨_, same⟩ | ⟨c, member, _⟩
  · exact .inl ⟨[], same, by simp⟩
  · obtain ⟨ext, last, kept, _⟩ := (searched.connections c).mp member
    by_cases isTrigger : last = trigger
    · subst isTrigger
      exact .inl ⟨ext.reverse, kept.trail.reverse, fun d inside => kept.main d (mem_reverse.mp inside)⟩
    · exact .inr ⟨last, kept.onSideLoop isTrigger⟩

theorem stores_trigger (different : trigger ≠ destination) (trail : MainTrail graph trigger cs destination) :
    first.Stores trigger := by
  obtain ⟨short, between⟩ := trail.between
  cases short with
  | nil => exact absurd between.trail.1 different
  | cons c short =>
    have inFirst := (searched.connections c).mpr (kept_of_between between mem_cons_self)
    have leaves : c.fromNode = trigger := between.trail.1.1
    exact leaves ▸ (searched.part.closed c inFirst).1

theorem stores_destination (side : OnSideLoop graph trigger destination x) : first.Stores destination := by
  obtain ⟨ext, last, c, kept, member, _⟩ := side.kept
  exact searched.root_of_connection ((searched.connections c).mpr ⟨ext, last, kept, member⟩)

end

end Searched

section

variable (triggerStored : graph.Stores trigger) (found : findSubgraph graph destination trigger = some sub)
include triggerStored found

theorem findSubgraph_stages :
    ∃ first, Searched graph destination trigger first ∧ (trigger = destination → first.Stores trigger) ∧
      first.getNodes.foldlM (readdUtilities graph) first = some sub := by
  rw [findSubgraph, bind_eq_bind, bind_eq_some_iff] at found
  obtain ⟨first, done, readded⟩ := found
  refine ⟨first, findSubgraphRecursive_searched triggerStored done, fun same => ?_, readded⟩
  subst same
  rw [findSubgraphRecursive, if_pos rfl] at done
  obtain rfl := some.inj done
  exact stores_addNode.mpr (.inl rfl)

omit triggerStored found in
theorem readded_grown (part : Part graph first)
    (readded : first.getNodes.foldlM (readdUtilities graph) first = some sub) :
    Grown graph first (fun c => ∃ node ∈ first.getNodes, c.type ≠ .main ∧ c ∈ graph.getConnections ∧
      ∃ ds, ConnectionTrail graph c.toNode ds node) sub :=
  grown_foldlM (fun _ _ _ _ part step => readdUtilities_grown part step) part readded

omit triggerStored found in
theorem stores_of_findSubgraph (found : findSubgraph graph destination trigger = some sub) (inside : sub.Stores x) :
    graph.Stores x := by
  rw [findSubgraph, bind_eq_bind, bind_eq_some_iff] at found
  obtain ⟨first, _, readded⟩ := found
  have each : ∀ node ∈ first.getNodes, graph.Stores node := fun node member => by
    obtain ⟨here, next, step⟩ := foldlM_step member readded
    exact storesAbove_of_readd step [] node (.nil graph node)
  refine foldlM_invariant (I := fun s : DirectedGraph => s.Stores x → graph.Stores x)
    (fun node _ s next before step inNext => ?_) (fun inFirst => each x (mem_getNodes.mpr inFirst)) readded inside
  rcases readdUtilities_stores step inNext with old | new
  · exact before old
  · exact new.1

theorem storesAbove_of_findSubgraph (inside : sub.Stores x) : StoresAbove graph destination := by
  obtain ⟨first, searched, _, readded⟩ := findSubgraph_stages triggerStored found
  have some : ∃ y, first.Stores y := by
    cases nodes : first.getNodes with
    | nil =>
      rw [nodes] at readded
      exact ⟨x, some.inj readded ▸ inside⟩
    | cons y nodes => exact ⟨y, mem_getNodes.mp (nodes ▸ mem_cons_self)⟩
  obtain ⟨y, inFirst⟩ := some
  obtain ⟨here, next, step⟩ := foldlM_step (mem_getNodes.mpr (searched.root inFirst)) readded
  exact storesAbove_of_readd step

theorem stores_trigger_iff : sub.Stores trigger ↔ TriggerKept graph trigger destination := by
  obtain ⟨first, searched, alone, readded⟩ := findSubgraph_stages triggerStored found
  have grown := readded_grown searched.part readded
  constructor
  · intro inside
    have cases : first.Stores trigger ∨ ∃ node ∈ first.getNodes, ∃ c ∈ graph.getConnections, c.type ≠ .main ∧
        (∃ ds, ConnectionTrail graph c.toNode ds node) ∧ (trigger = c.fromNode ∨ trigger = c.toNode) := by
      refine foldlM_invariant (I := fun s : DirectedGraph => s.Stores trigger → first.Stores trigger ∨
        ∃ node ∈ first.getNodes, ∃ c ∈ graph.getConnections, c.type ≠ .main ∧
          (∃ ds, ConnectionTrail graph c.toNode ds node) ∧ (trigger = c.fromNode ∨ trigger = c.toNode))
        (fun node member s next before step inNext => ?_) .inl readded inside
      rcases readdUtilities_stores step inNext with old | ⟨_, c, inGraph, other, behind, isEnd⟩
      · exact before old
      · exact .inr ⟨node, member, c, inGraph, other, behind, isEnd⟩
    rcases cases with inFirst | ⟨node, member, c, inGraph, other, ⟨ds, behind⟩, isEnd⟩
    · obtain ⟨ds, trail, main⟩ := searched.leads inFirst
      exact .inl ⟨ds, trail, main⟩
    · have inFirst := mem_getNodes.mp member
      obtain ⟨es, trail, main⟩ := searched.leads inFirst
      have ahead : ConnectionTrail graph node es destination := ⟨trail, fun d hd => (main d hd).1⟩
      rcases searched.branch_cases inFirst with direct | loop
      · exact .inl direct
      · exact .inr ⟨loop, c, inGraph, other, ⟨ds ++ es, behind.append ahead⟩, isEnd⟩
  · intro kept
    by_cases same : trigger = destination
    · exact grown.kept trigger (alone same)
    rcases kept with ⟨cs, trail⟩ | ⟨⟨n, side⟩, c, inGraph, other, behind, isEnd⟩
    · exact grown.kept trigger (searched.stores_trigger same trail)
    · have member := mem_getNodes.mpr (searched.stores_destination side)
      have inSub := (grown.connections c).mpr (.inr ⟨destination, member, other, inGraph, behind⟩)
      have ends := grown.part.closed c inSub
      rcases isEnd with rfl | rfl
      · exact ends.1
      · exact ends.2

end

end Nodes

end N8n.PartialExecution
