import N8n.LowLinkComponents

/-! What holds of the sets that `getStronglyConnectedComponents` returns on every graph, also where it
loses components. A node is put on the stack when it is met and popped at most once, and the
low-link value of a popped node is the id of the node that is closed, which it therefore leads back to. -/

namespace N8n.DirectedGraph.Search

open DepthFirst List

/-- An invariant of the search; the nodes that are being followed are active. -/
structure Held (graph : DirectedGraph) (active : List String) (run : Search) : Prop where
  parts : (run.state.stack ++ run.state.stronglyConnectedComponents.flatten).Perm run.trace.visited
  stacked : ∀ node ∈ active, node ∈ run.state.stack
  descends : ∀ node ∈ active, ∀ other ∈ run.trace.visited, run.index node ≤ run.index other →
    Reaches graph.childrenOf node other
  low : ∀ node ∈ run.trace.visited, ∃ target ∈ run.trace.visited, run.low node = some (run.index target) ∧
    run.index target ≤ run.index node ∧ Reaches graph.childrenOf node target
  linked : ∀ scc ∈ run.state.stronglyConnectedComponents, ∀ a ∈ scc, ∀ b ∈ scc, Linked graph.childrenOf a b

namespace Held

variable {graph : DirectedGraph} {fuel : ℕ} {node child : String} {run before after : Search} {active : List String}

theorem met (held : Held graph active run) (isActive : node ∈ active) : node ∈ run.trace.visited :=
  held.parts.mem_iff.mp (mem_append_left _ (held.stacked node isActive))

theorem initial (graph : DirectedGraph) : Held graph [] ⟨⟨0, [], .empty, .empty, [], []⟩, ⟨[], []⟩⟩ := by
  constructor <;> simp

theorem enter (held : Held graph active run) (numbered : Numbered run) (unmet : node ∉ run.trace.visited)
    (reached : ∀ other ∈ active, Reaches graph.childrenOf other node) :
    Held graph (node :: active) (enter node run) := by
  have grown := extends_enter unmet
  have own : (Search.enter node run).index node = run.trace.visited.length := by
    simp [Search.index, Search.enter, idxOf_append_of_notMem unmet]
  have ownLow : (Search.enter node run).low node = some (run.trace.visited.length) := by
    simp [Search.low, Search.enter, openNode, numbered.next]
  have split : ∀ other, other ∈ (Search.enter node run).trace.visited ↔ other ∈ run.trace.visited ∨ other = node := by
    intro other
    simp [Search.enter]
  constructor
  case parts => exact (held.parts.cons node).trans (perm_append_singleton node _).symm
  case stacked =>
    refine forall_mem_cons.mpr ⟨mem_cons_self, fun other member => ?_⟩
    exact mem_cons_of_mem _ (held.stacked other member)
  case descends =>
    refine forall_mem_cons.mpr ⟨fun other met later => ?_, fun other member target met later => ?_⟩
    · rcases (split other).mp met with old | rfl
      · have earlier := numbered.index_lt old
        rw [own, grown.index old] at later
        omega
      · exact .refl
    · rcases (split target).mp met with old | rfl
      · rw [grown.index (held.met member), grown.index old] at later
        exact held.descends other member target old later
      · exact reached other member
  case low =>
    intro other met
    rcases (split other).mp met with old | rfl
    · obtain ⟨target, metTarget, value, earlier, reaches⟩ := held.low other old
      refine ⟨target, grown.mem metTarget, ?_, ?_, reaches⟩
      · rw [grown.low other old, value, grown.index metTarget]
      · rw [grown.index metTarget, grown.index old]
        exact earlier
    · exact ⟨other, met, by rw [ownLow, own], le_rfl, .refl⟩
  case linked => exact held.linked

theorem leave (held : Held graph active run) (isActive : node ∈ active) (isChild : child ∈ graph.childrenOf node) :
    Held graph active (leave node child run) := by
  have sameStack : (Search.leave node child run).state.stack = run.state.stack := by simp [Search.leave]
  have sameComponents : (Search.leave node child run).state.stronglyConnectedComponents =
      run.state.stronglyConnectedComponents := by simp [Search.leave]
  obtain ⟨ownTarget, ownMet, ownLow, ownEarlier, ownReaches⟩ := held.low node (held.met isActive)
  constructor
  case parts =>
    rw [sameStack, sameComponents]
    exact held.parts
  case stacked =>
    rw [sameStack]
    exact held.stacked
  case descends => exact held.descends
  case low =>
    intro other met
    by_cases same : other = node
    · subst same
      by_cases onStack : child ∈ run.state.stack
      · obtain ⟨target, metTarget, value, earlier, reaches⟩ :=
          held.low child (held.parts.mem_iff.mp (mem_append_left _ onStack))
        have lowered : (Search.leave other child run).low other =
            some (min (run.index target) (run.index ownTarget)) := lowerLink_get onStack value ownLow
        -- the smaller value is that of the child or the own one
        rcases le_total (run.index target) (run.index ownTarget) with smaller | larger
        · refine ⟨target, metTarget, ?_, smaller.trans ownEarlier, .head isChild reaches⟩
          rw [lowered, min_eq_left smaller]
          rfl
        · refine ⟨ownTarget, ownMet, ?_, ownEarlier, ownReaches⟩
          rw [lowered, min_eq_right larger]
          rfl
      · refine ⟨ownTarget, ownMet, ?_, ownEarlier, ownReaches⟩
        rw [Search.low, Search.leave, lowerLink_off_stack onStack]
        exact ownLow
    · obtain ⟨target, metTarget, value, earlier, reaches⟩ := held.low other met
      exact ⟨target, metTarget, (lowerLink_get_ne _ _ _ same).trans value, earlier, reaches⟩
  case linked =>
    rw [sameComponents]
    exact held.linked

/-- The nodes popped at the end of following `node` lead back to it and are led to by it. -/
theorem linked_of_low (held : Held graph (node :: active) run) (met : child ∈ run.trace.visited)
    (value : run.low child = some (run.index node)) : Linked graph.childrenOf child node := by
  obtain ⟨target, metTarget, valueTarget, earlier, reaches⟩ := held.low child met
  have sameIndex : run.index target = run.index node := Option.some.inj (valueTarget.symm.trans value)
  obtain rfl : target = node := (idxOf_inj metTarget).mp sameIndex
  exact ⟨reaches, held.descends target mem_cons_self child met earlier⟩

theorem close (held : Held graph (node :: active) run) (numbered : Numbered run)
    (older : ∀ other ∈ active, run.index other < run.index node) : Held graph active (close node run) := by
  have ids := numbered.ids node (held.met mem_cons_self)
  by_cases isFirst : run.state.ids.get node = run.state.lowLinkValues.get node
  · let pops : String → Bool := fun next => run.state.lowLinkValues.get next = run.state.ids.get node
    have closed : Search.close node run = ⟨{ run.state with
        stack := run.state.stack.dropWhile pops
        stronglyConnectedComponents := if (run.state.stack.takeWhile pops).isEmpty
          then run.state.stronglyConnectedComponents
          else run.state.stronglyConnectedComponents ++ [run.state.stack.takeWhile pops] }, run.trace⟩ := by
      rw [Search.close, closeNode, if_pos isFirst]
    have popped : ∀ next ∈ run.state.stack.takeWhile pops, Linked graph.childrenOf next node := by
      intro next member
      have onStack := (List.takeWhile_prefix pops).subset member
      have value := mem_takeWhile_imp member
      simp only [pops, decide_eq_true_eq, ids] at value
      exact held.linked_of_low (held.parts.mem_iff.mp (mem_append_left _ onStack)) value
    rw [closed]
    constructor
    case parts =>
      refine Perm.trans ?_ held.parts
      have moved : (run.state.stack.dropWhile pops ++ (run.state.stronglyConnectedComponents.flatten ++
          run.state.stack.takeWhile pops)).Perm (run.state.stack ++ run.state.stronglyConnectedComponents.flatten) := by
        conv_rhs => rw [← takeWhile_append_dropWhile (p := pops) (l := run.state.stack)]
        rw [append_assoc, ← append_assoc (List.dropWhile _ _)]
        exact perm_append_comm
      dsimp only
      split
      · next empty => simpa [List.isEmpty_iff.mp empty] using moved
      · simpa using moved
    case stacked =>
      intro other member
      have onStack := held.stacked other (mem_cons_of_mem _ member)
      rw [← takeWhile_append_dropWhile (p := pops) (l := run.state.stack), mem_append] at onStack
      refine onStack.resolve_left fun inside => ?_
      -- the value of an older node is not the id of `node`
      have value := mem_takeWhile_imp inside
      simp only [pops, decide_eq_true_eq, ids] at value
      obtain ⟨target, _, valueTarget, earlier, _⟩ := held.low other (held.met (mem_cons_of_mem _ member))
      have sameIndex : run.index target = run.index node := Option.some.inj (valueTarget.symm.trans value)
      have before := older other member
      omega
    case descends => exact fun other member => held.descends other (mem_cons_of_mem _ member)
    case low => exact held.low
    case linked =>
      intro scc member a inA b inB
      dsimp only at member
      split at member
      · exact held.linked scc member a inA b inB
      · rcases mem_append.mp member with old | new
        · exact held.linked scc old a inA b inB
        · obtain rfl := mem_singleton.mp new
          exact (popped a inA).trans (popped b inB).symm
  · have unchanged : Search.close node run = run := by rw [Search.close, closeNode, if_neg isFirst]
    rw [unchanged]
    exact { held with
      stacked := fun other member => held.stacked other (mem_cons_of_mem _ member)
      descends := fun other member => held.descends other (mem_cons_of_mem _ member) }

theorem follow (held : Held graph active run) (numbered : Numbered run)
    (reached : ∀ other ∈ active, Reaches graph.childrenOf other node) :
    Held graph active (follow graph fuel node run) := by
  induction fuel generalizing node run active with
  | zero => exact held
  | succ fuel ih =>
    by_cases met : node ∈ run.trace.visited
    · rw [follow_visited numbered.agrees met]
      exact held
    · have own : (Search.enter node run).index node = run.trace.visited.length := by
        simp [Search.index, Search.enter, idxOf_append_of_notMem met]
      -- over the children that remain, from a search that extends the one before `node`
      have all : ∀ (rest : List String) (after : Search), Numbered after → Extends run after →
          after.index node = run.trace.visited.length → Held graph (node :: active) after →
          (∀ child ∈ rest, child ∈ graph.childrenOf node) →
          Held graph active (Search.close node (followAll graph fuel node after rest)) := by
        intro rest
        induction rest with
        | nil =>
          intro after numberedAfter grown ownAfter heldAfter _
          refine heldAfter.close numberedAfter fun other member => ?_
          have old := held.met member
          have earlier := numbered.index_lt old
          have same : after.index other = run.index other := grown.index old
          have ownIndex : after.index node = run.trace.visited.length := ownAfter
          show after.index other < after.index node
          omega
        | cons child rest ihRest =>
          intro after numberedAfter grown ownAfter heldAfter children
          have isChild := children child mem_cons_self
          have below := follow_extends graph fuel child numberedAfter
          have reachedChild : ∀ other ∈ node :: active, Reaches graph.childrenOf other child := by
            refine forall_mem_cons.mpr ⟨.single isChild, fun other member => ?_⟩
            exact (reached other member).tail isChild
          have heldBelow := ih heldAfter numberedAfter reachedChild
          refine ihRest _ below.1.leave ((grown.trans below.2).leave met) ?_ ?_ ?_
          · exact (below.2.index (heldAfter.met mem_cons_self)).trans ownAfter
          · exact heldBelow.leave mem_cons_self isChild
          · exact fun other member => children other (mem_cons_of_mem _ member)
      rw [follow_unvisited numbered.agrees met]
      exact all (graph.childrenOf node) _ (numbered.enter met) (extends_enter met) own
        (held.enter numbered met reached) fun _ => id

theorem followEach (held : Held graph [] run) (numbered : Numbered run) (nodes : List String) :
    Held graph [] (followEach graph fuel nodes run) := by
  induction nodes generalizing run with
  | nil => exact held
  | cons node rest ih => exact ih (held.follow numbered (by simp)) (follow_extends graph fuel node numbered).1

end Held

end N8n.DirectedGraph.Search

namespace N8n.DirectedGraph

open DepthFirst Search List

theorem getStronglyConnectedComponents_linked (graph : DirectedGraph) :
    graph.getStronglyConnectedComponents.flatten.Nodup ∧
      ∀ scc ∈ graph.getStronglyConnectedComponents, ∀ a ∈ scc, ∀ b ∈ scc, Linked graph.childrenOf a b := by
  let start : Search := ⟨⟨0, [], .empty, .empty, [], []⟩, ⟨[], []⟩⟩
  let done := followEach graph (graph.nodes.length + 1) graph.nodes start
  have numbered : Numbered start := ⟨rfl, nodup_nil, rfl, by simp [start]⟩
  have numberedDone : Numbered done := (followEach_extends numbered graph.nodes).1
  have components : graph.getStronglyConnectedComponents = done.state.stronglyConnectedComponents :=
    congrArg (·.state.stronglyConnectedComponents) (followEach_eq graph _ start graph.nodes).symm
  have held : Held graph [] done := (Held.initial graph).followEach numbered graph.nodes
  rw [components]
  exact ⟨(nodup_append.mp (held.parts.nodup_iff.mpr numberedDone.distinct)).2.1, held.linked⟩

end N8n.DirectedGraph
