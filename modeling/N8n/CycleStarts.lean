import Mathlib.Data.List.Flatten
import Mathlib.Data.List.Pairwise
import N8n.FilterDisabledNodes
import N8n.PoppedComponents
import N8n.SearchOrder

/-! What becomes of the start nodes on cycles. Whatever sets the component search returns, they are
disjoint and each lies within one strongly connected component, so every start node moves to the
first node of the set that it is in. That is the first node of its component exactly when the
set has it. -/

namespace N8n.PartialExecution

open PartialExecution.DirectedGraph PartialExecution.GraphConnection DepthFirst List Option

def OneCycle (graph : DirectedGraph) (a b : GraphNode) : Prop :=
  (∃ cs, ConnectionTrail graph a cs b) ∧ ∃ cs, ConnectionTrail graph b cs a

/-- The node of the component of `a` that a depth-first search from the trigger meets first. -/
def CycleStart (graph : DirectedGraph) (trigger a first : GraphNode) : Prop :=
  OneCycle graph a first ∧
    ∀ b, OneCycle graph a b → (graph.searchOrder trigger).idxOf first ≤ (graph.searchOrder trigger).idxOf b

def StoresTargets (graph : DirectedGraph) : Prop :=
  ∀ c ∈ graph.getConnections, graph.Stores c.fromNode → graph.Stores c.toNode

instance (graph : DirectedGraph) : Decidable (StoresTargets graph) :=
  inferInstanceAs (Decidable (∀ c ∈ graph.getConnections, _))

structure HandlesCycles (graph : DirectedGraph) (trigger : GraphNode) (startNodes result : List GraphNode) : Prop where
  kept : ∀ s ∈ startNodes, (∀ other, OneCycle graph s other → other = s) → s ∈ result
  replaced : ∀ s ∈ startNodes, ∀ other, OneCycle graph s other → other ≠ s →
    ∀ x, OneCycle graph s x → (x ∈ result ↔ CycleStart graph trigger s x)
  only : ∀ x ∈ result, ∃ s ∈ startNodes, OneCycle graph s x
  idempotent : ∃ again, handleCycles graph result trigger = some again ∧ ∀ x, x ∈ again ↔ x ∈ result

variable {graph : DirectedGraph} {trigger a b s x first : GraphNode} {cycle startNodes nodes result : List GraphNode}
  {cycles : List (List GraphNode)}

namespace OneCycle

theorem refl (graph : DirectedGraph) (a : GraphNode) : OneCycle graph a a := ⟨⟨[], .nil graph a⟩, ⟨[], .nil graph a⟩⟩

theorem symm (one : OneCycle graph a b) : OneCycle graph b a := ⟨one.2, one.1⟩

theorem trans (one : OneCycle graph a b) (two : OneCycle graph b x) : OneCycle graph a x := by
  obtain ⟨⟨cs, there⟩, ⟨ds, back⟩⟩ := one
  obtain ⟨⟨es, on⟩, ⟨fs, return_⟩⟩ := two
  exact ⟨⟨cs ++ es, there.append on⟩, ⟨fs ++ ds, return_.append back⟩⟩

end OneCycle

theorem storesBelow (targets : StoresTargets graph) (stored : graph.Stores a) : StoresBelow graph a := by
  intro cs x trail
  exact trail.1.stays (p := graph.Stores) stored fun c member => targets c (trail.2 c member)

/-! ## The components by name -/

section Names

theorem mem_childrenOf_names {name : String} (stored : graph.Stores a) :
    name ∈ graph.names.childrenOf a.name ↔ ∃ c ∈ graph.getConnections, c.fromNode = a ∧ c.toNode.name = name := by
  simp only [N8n.DirectedGraph.childrenOf, N8n.DirectedGraph.getDirectChildConnections, names, List.mem_map,
    mem_filter, decide_eq_true_eq]
  constructor
  · rintro ⟨_, ⟨⟨c, ⟨member, fromStored⟩, rfl⟩, leaves⟩, rfl⟩
    exact ⟨c, member, fromStored.eq_of_name stored leaves, rfl⟩
  · rintro ⟨c, member, rfl, rfl⟩
    exact ⟨_, ⟨⟨c, ⟨member, stored⟩, rfl⟩, rfl⟩, rfl⟩

theorem reaches_names_iff (targets : StoresTargets graph) (stored : graph.Stores a) {name : String} :
    Reaches graph.names.childrenOf a.name name ↔
      ∃ b, b.name = name ∧ graph.Stores b ∧ ∃ cs, ConnectionTrail graph a cs b := by
  constructor
  · intro reaches
    induction reaches with
    | refl => exact ⟨a, rfl, stored, [], .nil graph a⟩
    | tail _ edge ih =>
      obtain ⟨b, rfl, storedB, cs, trail⟩ := ih
      obtain ⟨c, member, rfl, rfl⟩ := (mem_childrenOf_names storedB).mp edge
      exact ⟨c.toNode, rfl, targets c member storedB, cs ++ [c], trail.append (.cons member (.nil graph _))⟩
  · rintro ⟨b, rfl, _, cs, trail⟩
    induction cs generalizing a with
    | nil => exact (show a = b from trail.1) ▸ .refl
    | cons c cs ih =>
      obtain rfl : c.fromNode = a := trail.1.1
      have rest := forall_mem_cons.mp trail.2
      have edge : c.toNode.name ∈ graph.names.childrenOf c.fromNode.name :=
        (mem_childrenOf_names stored).mpr ⟨c, rest.1, rfl, rfl⟩
      exact .head edge (ih (targets c rest.1 stored) ⟨trail.1.2, rest.2⟩)

theorem linked_names_iff (targets : StoresTargets graph) (storedA : graph.Stores a) (storedB : graph.Stores b) :
    Linked graph.names.childrenOf a.name b.name ↔ OneCycle graph a b := by
  have leads : ∀ {a b : GraphNode}, graph.Stores a → graph.Stores b →
      (Reaches graph.names.childrenOf a.name b.name ↔ ∃ cs, ConnectionTrail graph a cs b) := by
    intro a b storedA storedB
    rw [reaches_names_iff targets storedA]
    constructor
    · rintro ⟨c, same, storedC, trail⟩
      exact storedC.eq_of_name storedB same ▸ trail
    · exact fun trail => ⟨b, rfl, storedB, trail⟩
  rw [Linked, leads storedA storedB, leads storedB storedA, OneCycle]

/-- The sets are disjoint, and each lies within one component. -/
structure Apart (graph : DirectedGraph) (cycles : List (List GraphNode)) : Prop where
  distinct : cycles.flatten.Nodup
  within : ∀ cycle ∈ cycles, ∀ a ∈ cycle, ∀ b ∈ cycle, OneCycle graph a b

theorem Apart.filter (apart : Apart graph cycles) (p : List GraphNode → Bool) : Apart graph (cycles.filter p) where
  distinct := apart.distinct.sublist filter_sublist.flatten
  within := fun cycle member => apart.within cycle (mem_filter.mp member).1

theorem storesTargets_of_found (found : graph.getStronglyConnectedComponents = some cycles) : StoresTargets graph := by
  rw [getStronglyConnectedComponents, ite_none_right_eq_some] at found
  exact found.1

theorem getStronglyConnectedComponents_apart
    (found : graph.getStronglyConnectedComponents = some cycles) : Apart graph cycles := by
  rw [getStronglyConnectedComponents, ite_none_right_eq_some] at found
  obtain ⟨targets, same⟩ := found
  obtain rfl := some.inj same
  obtain ⟨distinct, linked⟩ := graph.names.getStronglyConnectedComponents_linked
  have name_of_get : ∀ {name : String} {node : GraphNode}, graph.nodes.get name = some node → node.name = name :=
    fun found => graph.named _ _ found
  constructor
  · have flat : (graph.names.getStronglyConnectedComponents.map (·.filterMap graph.nodes.get)).flatten =
        graph.names.getStronglyConnectedComponents.flatten.filterMap graph.nodes.get := by
      rw [filterMap_flatten]
    rw [flat]
    refine distinct.filterMap fun one two node first second => ?_
    exact (name_of_get first).symm.trans (name_of_get second)
  · rintro _ member a inA b inB
    obtain ⟨scc, inside, rfl⟩ := List.mem_map.mp member
    obtain ⟨nameA, memberA, getA⟩ := mem_filterMap.mp inA
    obtain ⟨nameB, memberB, getB⟩ := mem_filterMap.mp inB
    obtain rfl := name_of_get getA
    obtain rfl := name_of_get getB
    exact (linked_names_iff targets getA getB).mp (linked scc inside _ memberA _ memberB)

end Names

/-! ## Where the start nodes move -/

def startOf (graph : DirectedGraph) (trigger : GraphNode) (cycles : List (List GraphNode)) (s : GraphNode) :
    GraphNode :=
  match cycles.find? (s ∈ ·) with
  | none => s
  | some cycle => ((graph.searchOrder trigger).find? (· ∈ cycle)).getD s

theorem foldlM_replaceStartNode (distinct : cycles.flatten.Nodup) :
    cycles.foldlM (replaceStartNode graph trigger s) nodes = match cycles.find? (s ∈ ·) with
      | none => some nodes
      | some cycle => replaceStartNode graph trigger s nodes cycle := by
  induction cycles generalizing nodes with
  | nil => rfl
  | cons cycle cycles ih =>
    rw [flatten_cons, nodup_append] at distinct
    rw [foldlM_cons, find?_cons]
    by_cases inside : s ∈ cycle
    · have outside : cycles.find? (s ∈ ·) = none :=
        find?_eq_none.mpr fun other member => by
          simpa using fun inOther => distinct.2.2 s inside s (mem_flatten.mpr ⟨other, member, inOther⟩) rfl
      simp only [inside, decide_true]
      cases replaceStartNode graph trigger s nodes cycle with
      | none => rfl
      | some next => exact (ih distinct.2.1).trans (by rw [outside])
    · simp only [inside, decide_false, replaceStartNode, if_false]
      exact ih distinct.2.1

/-- What is left of the start nodes to be moved, and where the others have moved. -/
structure Moved (f : GraphNode → GraphNode) (done todo nodes : List GraphNode) : Prop where
  distinct : nodes.Nodup
  members : ∀ x, x ∈ nodes ↔ x ∈ todo ∨ ∃ s ∈ done, f s = x

theorem nodup_addToSet (distinct : nodes.Nodup) : (addToSet nodes x).Nodup := by
  rw [addToSet]
  split
  · exact distinct
  · next new => exact (perm_append_singleton x nodes).nodup_iff.mpr (nodup_cons.mpr ⟨new, distinct⟩)

section Moves

variable {f : GraphNode → GraphNode} {done todo : List GraphNode}

theorem Moved.stay (moved : Moved f done (s :: todo) nodes) (same : f s = s) : Moved f (done ++ [s]) todo nodes where
  distinct := moved.distinct
  members := fun x => by
    rw [moved.members]
    constructor
    · rintro (member | ⟨t, member, rfl⟩)
      · rcases mem_cons.mp member with rfl | later
        · exact .inr ⟨x, by simp, same⟩
        · exact .inl later
      · exact .inr ⟨t, mem_append_left _ member, rfl⟩
    · rintro (later | ⟨t, member, rfl⟩)
      · exact .inl (mem_cons_of_mem _ later)
      · rcases mem_append.mp member with old | new
        · exact .inr ⟨t, old, rfl⟩
        · obtain rfl := mem_singleton.mp new
          rw [same]
          exact .inl mem_cons_self

theorem Moved.move (moved : Moved f done (s :: todo) nodes) (fixed : ∀ t ∈ done, f t = s → f s = s)
    (new : s ∉ todo) : Moved f (done ++ [s]) todo (addToSet (nodes.erase s) (f s)) where
  distinct := nodup_addToSet (moved.distinct.erase s)
  members := fun x => by
    rw [mem_addToSet, moved.distinct.mem_erase_iff, moved.members]
    constructor
    · rintro (⟨different, member | ⟨t, member, rfl⟩⟩ | rfl)
      · exact .inl ((mem_cons.mp member).resolve_left different)
      · exact .inr ⟨t, mem_append_left _ member, rfl⟩
      · exact .inr ⟨s, by simp, rfl⟩
    · rintro (later | ⟨t, member, rfl⟩)
      · exact .inl ⟨fun same => new (same ▸ later), .inl (mem_cons_of_mem _ later)⟩
      · rcases mem_append.mp member with old | last
        · by_cases same : f t = s
          · exact .inr (same.trans (fixed t old same).symm)
          · exact .inl ⟨same, .inr ⟨t, old, rfl⟩⟩
        · obtain rfl := mem_singleton.mp last
          exact .inr rfl

end Moves

theorem foldlM_moved {f : GraphNode → GraphNode} {step : List GraphNode → GraphNode → Option (List GraphNode)}
    {done todo : List GraphNode} (each : ∀ s ∈ todo, ∀ nodes, step nodes s = some nodes ∧ f s = s ∨
      step nodes s = some (addToSet (nodes.erase s) (f s)))
    (fixed : ∀ t ∈ done ++ todo, f (f t) = f t) (distinct : todo.Nodup) (moved : Moved f done todo nodes) :
    ∃ result, todo.foldlM step nodes = some result ∧ Moved f (done ++ todo) [] result := by
  induction todo generalizing done nodes with
  | nil => exact ⟨nodes, rfl, by rwa [append_nil]⟩
  | cons s todo ih =>
    obtain ⟨new, distinctRest⟩ := nodup_cons.mp distinct
    have split : done ++ s :: todo = done ++ [s] ++ todo := by simp
    have fixedHere : ∀ t ∈ done, f t = s → f s = s := fun t member same =>
      same ▸ fixed t (mem_append_left _ member)
    have later : ∀ next, step nodes s = some next → Moved f (done ++ [s]) todo next →
        ∃ result, (s :: todo).foldlM step nodes = some result ∧ Moved f (done ++ s :: todo) [] result := by
      intro next taken movedNext
      obtain ⟨result, rest, whole⟩ := ih (fun t member => each t (mem_cons_of_mem _ member)) (split ▸ fixed)
        distinctRest movedNext
      exact ⟨result, foldlM_cons_eq_some.mpr ⟨next, taken, rest⟩, split ▸ whole⟩
    rcases each s mem_cons_self nodes with ⟨taken, same⟩ | taken
    · exact later nodes taken (moved.stay same)
    · exact later _ taken (moved.move fixedHere new)

theorem idxOf_le_of_find? {α : Type*} [DecidableEq α] {xs : List α} {p : α → Bool} {found other : α}
    (isFirst : xs.find? p = some found) (holds : p other = true) : xs.idxOf found ≤ xs.idxOf other := by
  induction xs with
  | nil => cases isFirst
  | cons y ys ih =>
    rw [find?_cons] at isFirst
    cases here : p y with
    | true =>
      rw [here] at isFirst
      obtain rfl := some.inj isFirst
      simp
    | false =>
      rw [here] at isFirst
      have notFound : y ≠ found := fun same =>
        Bool.false_ne_true (here.symm.trans (same ▸ find?_some isFirst))
      have notOther : y ≠ other := fun same => Bool.false_ne_true (here.symm.trans (same ▸ holds))
      rw [idxOf_cons_ne _ notFound, idxOf_cons_ne _ notOther]
      exact Nat.succ_le_succ (ih isFirst)

theorem Apart.eq_of_mem (apart : Apart graph cycles) {one two : List GraphNode} (memberOne : one ∈ cycles)
    (memberTwo : two ∈ cycles) (inOne : x ∈ one) (inTwo : x ∈ two) : one = two := by
  by_contra different
  have : Std.Symm (List.Disjoint : List GraphNode → List GraphNode → Prop) := 
    ⟨fun _ _ disjoint _ inTwo inOne => disjoint inOne inTwo⟩
  have disjoint := (nodup_flatten.mp apart.distinct).2.forall memberOne memberTwo different
  exact disjoint inOne inTwo

section Starts

variable (below : StoresBelow graph trigger)

include below

theorem mem_order_of_oneCycle (reached : ∃ cs, ConnectionTrail graph trigger cs a) (one : OneCycle graph a b) :
    b ∈ graph.searchOrder trigger := by
  obtain ⟨cs, trail⟩ := reached
  obtain ⟨ds, on⟩ := one.1
  exact (mem_searchOrder below).mpr ⟨cs ++ ds, trail.append on⟩

section

variable (reached : ∃ cs, ConnectionTrail graph trigger cs s)
include reached

theorem CycleStart.unique (one : CycleStart graph trigger s a) (two : CycleStart graph trigger s b) : a = b := by
  have same := le_antisymm (one.2 b two.1) (two.2 a one.1)
  exact (idxOf_inj (mem_order_of_oneCycle below reached one.1)).mp same

theorem exists_cycleStart : ∃ first, CycleStart graph trigger s first := by
  classical
  have here := mem_order_of_oneCycle below reached (.refl graph s)
  have isSome : ((graph.searchOrder trigger).find? fun n => decide (OneCycle graph s n)).isSome :=
    find?_isSome.mpr ⟨s, here, decide_eq_true (.refl graph s)⟩
  obtain ⟨first, found⟩ := isSome_iff_exists.mp isSome
  exact ⟨first, by simpa using find?_some found, fun b one => idxOf_le_of_find? found (decide_eq_true one)⟩

theorem startOf_cases :
    (∀ cycle ∈ cycles, s ∉ cycle) ∧ startOf graph trigger cycles s = s ∧ cycles.find? (s ∈ ·) = none ∨
      ∃ cycle ∈ cycles, s ∈ cycle ∧ cycles.find? (s ∈ ·) = some cycle ∧
        (graph.searchOrder trigger).find? (· ∈ cycle) = some (startOf graph trigger cycles s) := by
  rw [startOf]
  cases found : cycles.find? (s ∈ ·) with
  | none =>
    refine .inl ⟨fun cycle member inside => ?_, rfl, rfl⟩
    exact find?_eq_none.mp found cycle member (decide_eq_true inside)
  | some cycle =>
    have inside : s ∈ cycle := by simpa using find?_some found
    have here := mem_order_of_oneCycle below reached (.refl graph s)
    have isSome : ((graph.searchOrder trigger).find? (· ∈ cycle)).isSome :=
      find?_isSome.mpr ⟨s, here, decide_eq_true inside⟩
    obtain ⟨first, firstFound⟩ := isSome_iff_exists.mp isSome
    refine .inr ⟨cycle, mem_of_find?_eq_some found, inside, rfl, ?_⟩
    simp only [firstFound, getD_some]

end

section

variable (apart : Apart graph cycles) (reached : ∃ cs, ConnectionTrail graph trigger cs s)
include apart reached

theorem startOf_oneCycle : OneCycle graph s (startOf graph trigger cycles s) := by
  rcases startOf_cases below reached with ⟨_, same, _⟩ | ⟨cycle, member, inside, _, isFirst⟩
  · rw [same]
    exact .refl graph s
  · have inCycle : startOf graph trigger cycles s ∈ cycle := by simpa using find?_some isFirst
    exact apart.within cycle member s inside _ inCycle

theorem startOf_startOf :
    startOf graph trigger cycles (startOf graph trigger cycles s) = startOf graph trigger cycles s := by
  have one := startOf_oneCycle below apart reached
  have reachedFirst : ∃ cs, ConnectionTrail graph trigger cs (startOf graph trigger cycles s) :=
    (mem_searchOrder below).mp (mem_order_of_oneCycle below reached one)
  rcases startOf_cases below reached with ⟨_, same, _⟩ | ⟨cycle, member, inside, _, isFirst⟩
  · rw [same, same]
  · have inCycle : startOf graph trigger cycles s ∈ cycle := by simpa using find?_some isFirst
    rcases startOf_cases below reachedFirst with ⟨outside, _⟩ | ⟨other, memberOther, insideOther, _, isFirstOther⟩
    · exact absurd inCycle (outside cycle member)
    · obtain rfl := apart.eq_of_mem member memberOther inCycle insideOther
      exact some.inj (isFirstOther.symm.trans isFirst)

theorem startOf_eq_iff (start : CycleStart graph trigger s first) :
    startOf graph trigger cycles s = first ↔ s = first ∨ ∃ cycle ∈ cycles, s ∈ cycle ∧ first ∈ cycle := by
  rcases startOf_cases below reached with ⟨outside, same, _⟩ | ⟨cycle, member, inside, _, isFirst⟩
  · rw [same]
    exact ⟨.inl, fun either => either.resolve_right fun ⟨cycle, member, inside, _⟩ => outside cycle member inside⟩
  · have inCycle : startOf graph trigger cycles s ∈ cycle := by simpa using find?_some isFirst
    have one := apart.within cycle member s inside _ inCycle
    have meets : first ∈ cycle → startOf graph trigger cycles s = first := fun firstInside => by
      have earlier := idxOf_le_of_find? isFirst (decide_eq_true firstInside)
      have same := le_antisymm earlier (start.2 _ one)
      exact (idxOf_inj (mem_order_of_oneCycle below reached one)).mp same
    constructor
    · exact fun same => .inr ⟨cycle, member, inside, same ▸ inCycle⟩
    · rintro (same | ⟨other, memberOther, insideOther, firstInside⟩)
      · exact meets (same ▸ inside)
      · exact meets (apart.eq_of_mem member memberOther inside insideOther ▸ firstInside)

end

theorem handleCycles_moves {components : List (List GraphNode)} (distinct : startNodes.Nodup)
    (reached : ∀ s ∈ startNodes, ∃ cs, ConnectionTrail graph trigger cs s)
    (found : graph.getStronglyConnectedComponents = some components) :
    ∃ result, handleCycles graph startNodes trigger = some result ∧ result.Nodup ∧
      ∀ x, x ∈ result ↔ ∃ s ∈ startNodes, startOf graph trigger (components.filter (1 ≤ ·.length)) s = x := by
  have apart := (getStronglyConnectedComponents_apart found).filter (1 ≤ ·.length)
  have each : ∀ s ∈ startNodes, ∀ nodes,
      (components.filter (1 ≤ ·.length)).foldlM (replaceStartNode graph trigger s) nodes = some nodes ∧
          startOf graph trigger (components.filter (1 ≤ ·.length)) s = s ∨
        (components.filter (1 ≤ ·.length)).foldlM (replaceStartNode graph trigger s) nodes =
          some (addToSet (nodes.erase s) (startOf graph trigger (components.filter (1 ≤ ·.length)) s)) := by
    intro s member nodes
    rw [foldlM_replaceStartNode apart.distinct]
    rcases startOf_cases below (reached s member) with ⟨_, same, none⟩ | ⟨cycle, _, inside, isIn, isFirst⟩
    · rw [none]
      exact .inl ⟨rfl, same⟩
    · rw [isIn]
      refine .inr ?_
      simp only [replaceStartNode, inside, if_true, depthFirstSearch_eq below, isFirst]
      rfl
  rw [handleCycles, found, bind_eq_bind, bind_some]
  dsimp only
  split
  · next none =>
    have empty := length_eq_zero_iff.mp none
    refine ⟨startNodes, rfl, distinct, fun x => ?_⟩
    rw [empty]
    simp [startOf]
  · have fixed : ∀ t ∈ [] ++ startNodes, _ := fun t member => startOf_startOf below apart (reached t member)
    obtain ⟨result, done, moved⟩ := foldlM_moved each fixed distinct ⟨distinct, by simp⟩
    exact ⟨result, done, moved.distinct, fun x => by simpa using moved.members x⟩

end Starts

theorem CycleStart.congr (start : CycleStart graph trigger a first) (one : OneCycle graph b a) :
    CycleStart graph trigger b first :=
  ⟨one.trans start.1, fun c other => start.2 c (one.symm.trans other)⟩

/-- Wherever the start nodes move, doing it again changes nothing, and only the first nodes of the
components count. -/
theorem handlesCycles_iff_starts (triggerStored : graph.Stores trigger) (distinct : startNodes.Nodup)
    (reached : ∀ s ∈ startNodes, ∃ cs, ConnectionTrail graph trigger cs s)
    (found : graph.getStronglyConnectedComponents = some cycles)
    (done : handleCycles graph startNodes trigger = some result) :
    HandlesCycles graph trigger startNodes result ↔ ∀ s ∈ startNodes, ∀ first, CycleStart graph trigger s first →
      startOf graph trigger (cycles.filter (1 ≤ ·.length)) s = first := by
  have below := storesBelow (storesTargets_of_found found) triggerStored
  have apart := (getStronglyConnectedComponents_apart found).filter (1 ≤ ·.length)
  obtain ⟨moved, again, nodup, members⟩ := handleCycles_moves below distinct reached found
  obtain rfl := some.inj (done.symm.trans again)
  have one : ∀ s ∈ startNodes, OneCycle graph s (startOf graph trigger (cycles.filter (1 ≤ ·.length)) s) :=
    fun s member => startOf_oneCycle below apart (reached s member)
  constructor
  · intro handles s member first start
    have inResult := (members _).mpr ⟨s, member, rfl⟩
    by_cases alone : ∀ other, OneCycle graph s other → other = s
    · rw [alone _ (one s member), alone first start.1]
    · push Not at alone
      obtain ⟨other, oneOther, different⟩ := alone
      have isStart := (handles.replaced s member other oneOther different _ (one s member)).mp inResult
      exact isStart.unique below (reached s member) start
  · intro moves
    have isStart : ∀ s ∈ startNodes,
        CycleStart graph trigger s (startOf graph trigger (cycles.filter (1 ≤ ·.length)) s) := fun s member => by
      obtain ⟨first, start⟩ := exists_cycleStart below (reached s member)
      exact moves s member first start ▸ start
    have reachedResult : ∀ x ∈ result, ∃ cs, ConnectionTrail graph trigger cs x := by
      intro x inside
      obtain ⟨s, member, rfl⟩ := (members x).mp inside
      exact (mem_searchOrder below).mp (mem_order_of_oneCycle below (reached s member) (one s member))
    constructor
    case kept =>
      intro s member alone
      exact (members s).mpr ⟨s, member, alone _ (one s member)⟩
    case replaced =>
      intro s member _ _ _ x oneX
      constructor
      · intro inside
        obtain ⟨t, memberT, rfl⟩ := (members x).mp inside
        exact (isStart t memberT).congr (oneX.trans (one t memberT).symm)
      · exact fun start => (members x).mpr ⟨s, member, moves s member x start⟩
    case only =>
      intro x inside
      obtain ⟨s, member, rfl⟩ := (members x).mp inside
      exact ⟨s, member, one s member⟩
    case idempotent =>
      obtain ⟨next, doneNext, _, membersNext⟩ := handleCycles_moves below nodup reachedResult found
      refine ⟨next, doneNext, fun x => ?_⟩
      rw [membersNext]
      constructor
      · rintro ⟨y, inside, rfl⟩
        obtain ⟨s, member, rfl⟩ := (members y).mp inside
        rw [startOf_startOf below apart (reached s member)]
        exact inside
      · intro inside
        obtain ⟨s, member, rfl⟩ := (members x).mp inside
        exact ⟨_, inside, startOf_startOf below apart (reached s member)⟩

/-- Cycles are handled as they should exactly when no assertion fails and every start node is in one
of the sets with the first node of its component, unless it is that node. -/
theorem handleCycles_iff (triggerStored : graph.Stores trigger) (distinct : startNodes.Nodup)
    (reached : ∀ s ∈ startNodes, ∃ cs, ConnectionTrail graph trigger cs s) :
    (∃ result, handleCycles graph startNodes trigger = some result ∧ HandlesCycles graph trigger startNodes result) ↔
      StoresTargets graph ∧ ∀ s ∈ startNodes, ∀ first, CycleStart graph trigger s first → s = first ∨
        ∃ cycles, graph.getStronglyConnectedComponents = some cycles ∧ ∃ cycle ∈ cycles, s ∈ cycle ∧ first ∈ cycle := by
  have within : ∀ {components : List (List GraphNode)} {s first : GraphNode},
      (∃ cycle ∈ components.filter (1 ≤ ·.length), s ∈ cycle ∧ first ∈ cycle) ↔
        ∃ cycle ∈ components, s ∈ cycle ∧ first ∈ cycle := by
    intro components s first
    constructor
    · rintro ⟨cycle, member, both⟩
      exact ⟨cycle, (mem_filter.mp member).1, both⟩
    · rintro ⟨cycle, member, inside, both⟩
      have some := length_pos_of_mem inside
      exact ⟨cycle, mem_filter.mpr ⟨member, decide_eq_true some⟩, inside, both⟩
  by_cases targets : StoresTargets graph
  · have below := storesBelow targets triggerStored
    obtain ⟨components, found⟩ : ∃ components, graph.getStronglyConnectedComponents = some components :=
      ⟨_, if_pos targets⟩
    have apart := (getStronglyConnectedComponents_apart found).filter (1 ≤ ·.length)
    obtain ⟨result, done, _⟩ := handleCycles_moves below distinct reached found
    have handles := handlesCycles_iff_starts triggerStored distinct reached found done
    simp only [done, some.injEq, exists_eq_left', handles, targets, true_and, found]
    refine forall₂_congr fun s member => forall₂_congr fun first start => ?_
    rw [startOf_eq_iff below apart (reached s member) start, within]
  · refine iff_of_false (fun ⟨result, done, _⟩ => ?_) fun both => targets both.1
    rw [handleCycles, bind_eq_bind, bind_eq_some_iff] at done
    obtain ⟨components, found, _⟩ := done
    exact targets (storesTargets_of_found found)

def loopBehind : DirectedGraph :=
  let t := plainNode 0 "t"
  let a := plainNode 1 "a"
  let b := plainNode 2 "b"
  [⟨t, a, .main, 0, 0⟩, ⟨a, b, .main, 0, 0⟩, ⟨b, a, .main, 0, 0⟩].foldl setConnection (empty.addNodes [t, a, b])

theorem loopBehind_handled : ∃ result, handleCycles loopBehind [plainNode 2 "b"] (plainNode 0 "t") = some result ∧
    HandlesCycles loopBehind (plainNode 0 "t") [plainNode 2 "b"] result := by
  have reached : ∀ s ∈ [plainNode 2 "b"], ∃ cs, ConnectionTrail loopBehind (plainNode 0 "t") cs s :=
    forall_mem_singleton.mpr ⟨loopBehind.getConnections.take 2, by decide⟩
  refine (handleCycles_iff (by decide) (by decide) reached).mpr ⟨by decide, ?_⟩
  have found : loopBehind.getStronglyConnectedComponents =
      some [[plainNode 2 "b", plainNode 1 "a"], [plainNode 0 "t"]] := by decide
  refine forall_mem_singleton.mpr fun first start => .inr ⟨_, found, _, mem_cons_self, by decide, ?_⟩
  obtain ⟨cs, trail⟩ := start.1.1
  have closed : ∀ c ∈ loopBehind.getConnections, c.fromNode ∈ [plainNode 2 "b", plainNode 1 "a"] →
      c.toNode ∈ [plainNode 2 "b", plainNode 1 "a"] := by decide
  exact trail.1.stays (p := (· ∈ [plainNode 2 "b", plainNode 1 "a"])) (by decide) fun c inside =>
    closed c (trail.2 c inside)

/-- Two loops that share a node, behind the trigger: the component search returns nothing. -/
def loopsBehind : DirectedGraph :=
  let t := plainNode 0 "t"
  let node1 := plainNode 1 "node1"
  let node2 := plainNode 2 "node2"
  let node3 := plainNode 3 "node3"
  [⟨t, node1, .main, 0, 0⟩, ⟨node1, node2, .main, 0, 0⟩, ⟨node2, node3, .main, 0, 0⟩, ⟨node3, node2, .main, 0, 0⟩,
    ⟨node2, node1, .main, 0, 0⟩].foldl setConnection (empty.addNodes [t, node1, node2, node3])

theorem loopsBehind_start_inside :
    handleCycles loopsBehind [plainNode 3 "node3"] (plainNode 0 "t") = some [plainNode 3 "node3"] ∧
      ¬HandlesCycles loopsBehind (plainNode 0 "t") [plainNode 3 "node3"] [plainNode 3 "node3"] := by
  refine ⟨by decide, fun handles => ?_⟩
  have one : OneCycle loopsBehind (plainNode 3 "node3") (plainNode 1 "node1") :=
    ⟨⟨loopsBehind.getConnections.drop 3, by decide⟩, ⟨(loopsBehind.getConnections.drop 1).take 2, by decide⟩⟩
  have start := (handles.replaced _ mem_cons_self _ one (by decide) _ (.refl _ _)).mp mem_cons_self
  exact absurd (start.2 _ one) (by decide)

end N8n.PartialExecution
