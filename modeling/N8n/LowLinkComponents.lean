import N8n.StronglyConnectedComponents

/-! When the components found by `getStronglyConnectedComponents` are the strongly
connected components of the graph. A node is recognised as the first node of its
component in every case. The pop that follows takes only the nodes on top whose
low-link value has come down to the first node's id, and the value of a node comes
down along connections in the order in which the search leaves them behind. -/

namespace N8n.DirectedGraph

open DepthFirst List Option

/-- The connections join nodes of the graph, and a map of nodes has each name once. -/
structure JoinsNodes (graph : DirectedGraph) : Prop where
  distinct : graph.nodes.Nodup
  ends : ∀ connection ∈ graph.connections, connection.fromNode ∈ graph.nodes ∧ connection.toNode ∈ graph.nodes

structure PartitionsComponents (graph : DirectedGraph) (sets : List (List String)) : Prop where
  nonempty : [] ∉ sets
  covers : sets.flatten.Perm graph.nodes
  linked : ∀ u ∈ graph.nodes, ∀ v ∈ graph.nodes, (∃ scc ∈ sets, u ∈ scc ∧ v ∈ scc) ↔ Linked graph.childrenOf u v

/-- The low-link value of every node comes down to the id of the first node of its component. -/
def ValuesComeDown (graph : DirectedGraph) : Prop :=
  ∀ node ∈ graph.nodes, ∀ first, MetFirst graph.childrenOf (exploreAll graph.childrenOf graph.nodes) node first →
      Leads (exploreAll graph.childrenOf graph.nodes).edges node first

/-- The search beside the exploration that it makes. -/
structure Search where
  state : SccState
  trace : Trace String

namespace Search

def index (run : Search) (node : String) : ℕ := run.trace.visited.idxOf node

def low (run : Search) (node : String) : Option ℕ := run.state.lowLinkValues.get node

def enter (node : String) (run : Search) : Search :=
  ⟨openNode node run.state, ⟨run.trace.visited ++ [node], run.trace.edges⟩⟩

def leave (node child : String) (run : Search) : Search :=
  ⟨lowerLink node child run.state, ⟨run.trace.visited, (node, child) :: run.trace.edges⟩⟩

def close (node : String) (run : Search) : Search :=
  ⟨closeNode node run.state, run.trace⟩

def follow (graph : DirectedGraph) (fuel : ℕ) (node : String) (run : Search) : Search :=
  ⟨followNode graph fuel node run.state, explore graph.childrenOf fuel node run.trace⟩

def followAll (graph : DirectedGraph) (fuel : ℕ) (node : String) (run : Search) (children : List String) : Search :=
  children.foldl (fun run child => leave node child (follow graph fuel child run)) run

/-- Ids count the nodes in the order in which they are met. -/
structure Numbered (run : Search) : Prop where
  agrees : run.state.visited = run.trace.visited
  distinct : run.trace.visited.Nodup
  next : run.state.id = run.trace.visited.length
  ids : ∀ node ∈ run.trace.visited, run.state.ids.get node = some (run.index node)

/-- What following a node leaves alone. -/
structure Extends (before after : Search) : Prop where
  visited : ∃ new, after.trace.visited = before.trace.visited ++ new
  edges : ∃ later, after.trace.edges = later ++ before.trace.edges ∧ ∀ edge ∈ later, edge.1 ∉ before.trace.visited
  low : ∀ node ∈ before.trace.visited, after.low node = before.low node

variable {graph : DirectedGraph} {fuel : ℕ} {node child : String} {run before after : Search}

theorem follow_visited (agrees : run.state.visited = run.trace.visited)
    (met : node ∈ run.trace.visited) : follow graph fuel node run = run := by
  cases fuel with
  | zero => rfl
  | succ fuel => simp only [follow, followNode, explore, agrees, met, if_true]

theorem follow_unvisited (agrees : run.state.visited = run.trace.visited)
    (unmet : node ∉ run.trace.visited) : follow graph (fuel + 1) node run =
      close node (followAll graph fuel node (enter node run) (graph.childrenOf node)) := by
  have parallel : ∀ (children : List String) (start : Search), followAll graph fuel node start children =
        ⟨children.foldl (fun s child => lowerLink node child (followNode graph fuel child s)) start.state,
        children.foldl (fun t child =>
          ⟨(explore graph.childrenOf fuel child t).visited,
            (node, child) :: (explore graph.childrenOf fuel child t).edges⟩) start.trace⟩ := by
    intro children
    induction children with
    | nil => intro start; rfl
    | cons child rest ih => intro start; exact ih _
  simp only [follow, followNode, explore, agrees, unmet, if_false, close, parallel, enter]

theorem Extends.refl (run : Search) : Extends run run :=
  ⟨⟨[], by simp⟩, ⟨[], by simp, by simp⟩, fun _ _ => rfl⟩

section

variable (extends_ : Extends before after) (met : node ∈ before.trace.visited)
include extends_ met

theorem Extends.mem : node ∈ after.trace.visited := by
  obtain ⟨new, grows⟩ := extends_.visited
  rw [grows]
  exact mem_append_left _ met

theorem Extends.index : after.index node = before.index node := by
  obtain ⟨new, grows⟩ := extends_.visited
  rw [Search.index, grows, idxOf_append_of_mem met, Search.index]

theorem Extends.mem_edges (edge : (node, child) ∈ after.trace.edges) : (node, child) ∈ before.trace.edges := by
  obtain ⟨later, grows, elsewhere⟩ := extends_.edges
  rw [grows, mem_append] at edge
  exact edge.resolve_left fun new => elsewhere _ new met

end

theorem Extends.trans {middle : Search} (first : Extends before middle)
    (second : Extends middle after) : Extends before after := by
  obtain ⟨new₁, visited₁⟩ := first.visited
  obtain ⟨new₂, visited₂⟩ := second.visited
  obtain ⟨later₁, edges₁, elsewhere₁⟩ := first.edges
  obtain ⟨later₂, edges₂, elsewhere₂⟩ := second.edges
  refine ⟨⟨new₁ ++ new₂, ?_⟩, ⟨later₂ ++ later₁, ?_, ?_⟩, ?_⟩
  · rw [visited₂, visited₁, append_assoc]
  · rw [edges₂, edges₁, append_assoc]
  · intro edge member
    rcases mem_append.mp member with late | early
    · exact fun met => elsewhere₂ edge late (first.mem met)
    · exact elsewhere₁ edge early
  · intro node met
    rw [second.low node (first.mem met), first.low node met]

theorem extends_enter (unmet : node ∉ run.trace.visited) : Extends run (enter node run) := by
  refine ⟨⟨[node], rfl⟩, ⟨[], rfl, by simp⟩, fun other met => ?_⟩
  exact run.state.lowLinkValues.get_set_ne _ fun same => unmet (same ▸ met)

theorem Extends.leave (extends_ : Extends before after) (new : node ∉ before.trace.visited) :
    Extends before (leave node child after) := by
  obtain ⟨later, edges, elsewhere⟩ := extends_.edges
  refine ⟨extends_.visited, ⟨(node, child) :: later, ?_, ?_⟩, fun other met => ?_⟩
  · simp only [Search.leave, edges, cons_append]
  · intro edge member
    rcases mem_cons.mp member with rfl | member
    · exact new
    · exact elsewhere edge member
  · rw [← extends_.low other met]
    exact lowerLink_get_ne _ _ _ fun same => new (same ▸ met)

theorem Extends.close (extends_ : Extends before after) : Extends before (close node after) :=
  ⟨extends_.visited, extends_.edges, fun other met => by
    rw [← extends_.low other met, Search.low, Search.low, Search.close, closeNode_lowLinkValues]⟩

namespace Numbered

theorem enter (numbered : Numbered run) (unmet : node ∉ run.trace.visited) : Numbered (enter node run) where
  agrees := congrArg (· ++ [node]) numbered.agrees
  distinct := numbered.distinct.append (nodup_singleton node) (by simpa using unmet)
  next := by simp [Search.enter, openNode, numbered.next]
  ids := by
    intro other met
    by_cases same : other = node
    · subst same
      simp [Search.enter, openNode, index, numbered.next, idxOf_append_of_notMem unmet]
    · have old : other ∈ run.trace.visited := by simpa [Search.enter, same] using met
      simp only [Search.enter, openNode, run.state.ids.get_set_ne _ same, numbered.ids other old]
      rw [index, index, idxOf_append_of_mem old]

theorem leave (numbered : Numbered run) : Numbered (leave node child run) where
  agrees := by simpa [Search.leave] using numbered.agrees
  distinct := numbered.distinct
  next := by simpa [Search.leave] using numbered.next
  ids := by simpa [Search.leave, index] using numbered.ids

theorem close (numbered : Numbered run) : Numbered (close node run) where
  agrees := by simpa [Search.close] using numbered.agrees
  distinct := numbered.distinct
  next := by simpa [Search.close] using numbered.next
  ids := by simpa [Search.close, index] using numbered.ids

theorem index_lt (_ : Numbered run) (met : node ∈ run.trace.visited) : run.index node < run.trace.visited.length :=
  idxOf_lt_length_of_mem met

end Numbered

variable (graph fuel node) in
theorem follow_extends (numbered : Numbered run) :
    Numbered (follow graph fuel node run) ∧ Extends run (follow graph fuel node run) := by
  induction fuel generalizing node run with
  | zero => exact ⟨numbered, .refl run⟩
  | succ fuel ih =>
    by_cases met : node ∈ run.trace.visited
    · rw [follow_visited numbered.agrees met]
      exact ⟨numbered, .refl run⟩
    · -- The children are followed from a search that extends the one before `node`.
      have all : ∀ (children : List String) (after : Search), Numbered after → Extends run after →
          Numbered (followAll graph fuel node after children) ∧
            Extends run (followAll graph fuel node after children) := by
        intro children
        induction children with
        | nil => exact fun after numbered grown => ⟨numbered, grown⟩
        | cons child rest ihRest =>
          intro after numberedAfter grown
          have below := ih child numberedAfter
          exact ihRest _ below.1.leave ((grown.trans below.2).leave met)
      rw [follow_unvisited numbered.agrees met]
      have done := all (graph.childrenOf node) _ (numbered.enter met) (extends_enter met)
      exact ⟨done.1.close, done.2.close⟩

/-- A component that has been left on the stack for good: its first node is closed and
the value of one of its nodes did not come down. -/
structure Lost (graph : DirectedGraph) (first stuck : String) (run : Search) : Prop where
  known : first ∈ graph.nodes ∧ stuck ∈ graph.nodes
  linked : Linked graph.childrenOf stuck first
  met : ∀ other, Linked graph.childrenOf stuck other → other ∈ run.trace.visited
  least : ∀ other, Linked graph.childrenOf stuck other → run.index first ≤ run.index other
  low : run.low first = some (run.index first)
  unpopped : first ∉ run.state.stronglyConnectedComponents.flatten
  stays : ¬Leads run.trace.edges stuck first

namespace Lost

variable {first stuck : String}

section

variable (lost : Lost graph first stuck run)
include lost

theorem first_met : first ∈ run.trace.visited :=
  lost.met first lost.linked

theorem stuck_met : stuck ∈ run.trace.visited :=
  lost.met stuck (.refl stuck)

omit lost in
theorem of_extends (lost : Lost graph first stuck before) (grown : Extends before after)
    (unpopped : first ∉ after.state.stronglyConnectedComponents.flatten) :
    Lost graph first stuck after where
  known := lost.known
  linked := lost.linked
  met other linked := grown.mem (lost.met other linked)
  least other linked := by
    rw [grown.index lost.first_met, grown.index (lost.met other linked)]
    exact lost.least other linked
  low := by rw [grown.low first lost.first_met, grown.index lost.first_met, lost.low]
  unpopped := unpopped
  stays leads := by
    obtain ⟨later, edges, elsewhere⟩ := grown.edges
    rw [edges] at leads
    exact lost.stays (leads.of_append fun edge member same =>
      elsewhere edge member (same ▸ lost.stuck_met))

theorem leave (notFirst : node ≠ first)
    (notStuck : node ≠ stuck) : Lost graph first stuck (leave node child run) where
  known := lost.known
  linked := lost.linked
  met := lost.met
  least := lost.least
  low := by
    rw [Search.low, Search.leave, lowerLink_get_ne _ _ _ notFirst.symm]
    exact lost.low
  unpopped := by simpa [Search.leave] using lost.unpopped
  stays leads := by
    rcases leads with before | ⟨here, _⟩
    · exact lost.stays before
    · exact notStuck here.symm

theorem close (numbered : Numbered run)
    (met : node ∈ run.trace.visited) (notFirst : node ≠ first) :
    Lost graph first stuck (close node run) where
  known := lost.known
  linked := lost.linked
  met := lost.met
  least := lost.least
  low := by simpa [Search.low, Search.close, index] using lost.low
  unpopped popped := by
    rcases mem_closeNode_components node run.state popped with before | own
    · exact lost.unpopped before
    · -- The pop compares with the id of another node.
      have same : run.index first = run.index node := by
        have values := lost.low.symm.trans (own.trans (numbered.ids node met))
        exact some.inj values
      exact notFirst ((idxOf_inj lost.first_met).mp same).symm
  stays := lost.stays

omit lost in
theorem followAll_of (children : List String) (notFirst : node ≠ first) (notStuck : node ≠ stuck)
    (each : ∀ child after, Numbered after → Lost graph first stuck after →
      Lost graph first stuck (follow graph fuel child after))
    (numbered : Numbered run) (met : node ∈ run.trace.visited) (lost : Lost graph first stuck run) :
    Numbered (followAll graph fuel node run children) ∧ node ∈ (followAll graph fuel node run children).trace.visited ∧
      Lost graph first stuck (followAll graph fuel node run children) := by
  induction children generalizing run with
  | nil => exact ⟨numbered, met, lost⟩
  | cons child rest ih =>
    have below := follow_extends graph fuel child numbered
    exact ih below.1.leave (below.2.mem met) ((each child run numbered lost).leave notFirst notStuck)

theorem follow (numbered : Numbered run) : Lost graph first stuck (follow graph fuel node run) := by
  induction fuel generalizing node run with
  | zero => exact lost
  | succ fuel ih =>
    by_cases met : node ∈ run.trace.visited
    · rw [follow_visited numbered.agrees met]
      exact lost
    · have notFirst : node ≠ first := fun same => met (same ▸ lost.first_met)
      have notStuck : node ≠ stuck := fun same => met (same ▸ lost.stuck_met)
      have entered : Lost graph first stuck (enter node run) :=
        lost.of_extends (extends_enter met) lost.unpopped
      obtain ⟨numberedDone, metDone, lostDone⟩ := followAll_of (graph.childrenOf node)
        notFirst notStuck (fun _ _ numbered lost => ih lost numbered) (numbered.enter met)
        (by simp [enter]) entered
      rw [follow_unvisited numbered.agrees met]
      exact lostDone.close numberedDone metDone notFirst

theorem followAll {children : List String} (notFirst : node ≠ first) (notStuck : node ≠ stuck) (numbered : Numbered run)
    (met : node ∈ run.trace.visited) : Lost graph first stuck
      (Search.close node (followAll graph fuel node run children)) := by
  obtain ⟨numberedDone, metDone, lostDone⟩ := followAll_of children notFirst notStuck
    (fun _ _ numbered lost => lost.follow numbered) numbered met lost
  exact lostDone.close numberedDone metDone notFirst

end

end Lost

/-- A returned set: the nodes linked to its first node, whose values came down. -/
def Settled (graph : DirectedGraph) (run : Search) (scc : List String) : Prop :=
  ∃ first ∈ scc, (∀ node, node ∈ scc ↔ Linked graph.childrenOf node first) ∧
    ∀ node ∈ scc, Leads run.trace.edges node first ∧ run.index first ≤ run.index node

/-- The nodes in `active` are those whose children are being followed. -/
structure Clean (graph : DirectedGraph) (active : List String) (run : Search) : Prop where
  parts : (run.state.stack ++ run.state.stronglyConnectedComponents.flatten).Perm run.trace.visited
  sorted : run.state.stack.Pairwise fun newer older => run.index older < run.index newer
  inside : ∀ node ∈ run.trace.visited, node ∈ graph.nodes
  stacked : ∀ node ∈ active, node ∈ run.state.stack
  real : ∀ edge ∈ run.trace.edges, edge.2 ∈ graph.childrenOf edge.1
  between : ∀ edge ∈ run.trace.edges, edge.1 ∈ run.trace.visited ∧ edge.2 ∈ run.trace.visited
  followed : ∀ node ∈ run.trace.visited, node ∉ active →
    ∀ child ∈ graph.childrenOf node, (node, child) ∈ run.trace.edges
  closed : ∀ node ∈ run.state.stronglyConnectedComponents.flatten,
    ∀ child ∈ graph.childrenOf node, child ∈ run.state.stronglyConnectedComponents.flatten
  settled : ∀ scc ∈ run.state.stronglyConnectedComponents, Settled graph run scc
  descends : ∀ node ∈ active, ∀ other ∈ run.trace.visited, run.index node ≤ run.index other →
    Reaches graph.childrenOf node other
  returns : ∀ node ∈ run.state.stack, ∃ other ∈ active, run.index other ≤ run.index node ∧
    Reaches graph.childrenOf node other
  low : ∀ node ∈ run.state.stack, ∃ target ∈ run.state.stack,
    run.low node = some (run.index target) ∧ run.index target ≤ run.index node ∧ Leads run.trace.edges node target
  least : ∀ node ∈ run.state.stack, ∀ target ∈ run.state.stack, Leads run.trace.edges node target →
    ∀ value, run.low node = some value → value ≤ run.index target

namespace Clean

variable {active : List String}

section

variable (clean : Clean graph active run)
include clean

theorem visited_of_stack (onStack : node ∈ run.state.stack) : node ∈ run.trace.visited :=
  clean.parts.mem_iff.mp (mem_append_left _ onStack)

theorem visited_of_component (popped : node ∈ run.state.stronglyConnectedComponents.flatten) :
    node ∈ run.trace.visited :=
  clean.parts.mem_iff.mp (mem_append_right _ popped)

theorem stack_or_component (met : node ∈ run.trace.visited) :
    node ∈ run.state.stack ∨ node ∈ run.state.stronglyConnectedComponents.flatten :=
  mem_append.mp (clean.parts.mem_iff.mpr met)

theorem not_component (numbered : Numbered run) (onStack : node ∈ run.state.stack) :
    node ∉ run.state.stronglyConnectedComponents.flatten := fun popped =>
  (nodup_append.mp (clean.parts.nodup_iff.mpr numbered.distinct)).2.2 _ onStack _ popped rfl

theorem not_reached (numbered : Numbered run) (popped : node ∈ run.state.stronglyConnectedComponents.flatten)
    (onStack : child ∈ run.state.stack) : ¬Reaches graph.childrenOf node child := fun reaches =>
  clean.not_component numbered onStack (reaches.mem_of_closed clean.closed popped)

theorem index_inj (onStack : node ∈ run.state.stack) (same : run.index node = run.index child) : node = child :=
  (idxOf_inj (clean.visited_of_stack onStack)).mp same

end

theorem initial : Clean graph [] ⟨⟨0, [], .empty, .empty, [], []⟩, ⟨[], []⟩⟩ := by
  constructor <;> simp

theorem enter (clean : Clean graph active run) (numbered : Numbered run)
    (unmet : node ∉ run.trace.visited) (known : node ∈ graph.nodes)
    (reached : ∀ other ∈ active, Reaches graph.childrenOf other node) :
    Clean graph (node :: active) (enter node run) := by
  have grown := extends_enter unmet
  have own : (Search.enter node run).index node = run.trace.visited.length := by
    simp [Search.index, Search.enter, idxOf_append_of_notMem unmet]
  have ownLow : (Search.enter node run).low node = some (run.trace.visited.length) := by
    simp [Search.low, Search.enter, openNode, numbered.next]
  have indexOld : ∀ other ∈ run.trace.visited,
      (Search.enter node run).index other = run.index other := fun other met => grown.index met
  have lowOld : ∀ other ∈ run.trace.visited, (Search.enter node run).low other = run.low other :=
    grown.low
  have newer : ∀ other ∈ run.trace.visited, run.index other < run.trace.visited.length :=
    fun other met => numbered.index_lt met
  have split : ∀ other, other ∈ (Search.enter node run).trace.visited ↔ other ∈ run.trace.visited ∨ other = node := by
    intro other
    simp [Search.enter]
  have noEdge : ∀ edge ∈ run.trace.edges, edge.1 ≠ node := fun edge member same =>
    unmet (same ▸ (clean.between edge member).1)
  constructor
  case parts =>
    have moved := (clean.parts.cons node).trans (perm_append_singleton node _).symm
    exact moved
  case sorted =>
    refine pairwise_cons.mpr ⟨fun older member => ?_, ?_⟩
    · rw [own, indexOld older (clean.visited_of_stack member)]
      exact newer older (clean.visited_of_stack member)
    · refine clean.sorted.imp_of_mem fun {a b} memberA memberB below => ?_
      rw [indexOld a (clean.visited_of_stack memberA), indexOld b (clean.visited_of_stack memberB)]
      exact below
  case inside =>
    intro other met
    rcases (split other).mp met with old | rfl
    · exact clean.inside other old
    · exact known
  case stacked =>
    intro other member
    exact mem_cons.mpr ((mem_cons.mp member).imp_right (clean.stacked other))
  case real => exact clean.real
  case between =>
    intro edge member
    have ends := clean.between edge member
    exact ⟨(split _).mpr (.inl ends.1), (split _).mpr (.inl ends.2)⟩
  case followed =>
    intro other met inactive child isChild
    rw [mem_cons, not_or] at inactive
    exact clean.followed other (((split other).mp met).resolve_right inactive.1) inactive.2 child isChild
  case closed => exact clean.closed
  case settled =>
    intro scc member
    obtain ⟨first, inside, class_, down⟩ := clean.settled scc member
    have met : ∀ other ∈ scc, other ∈ run.trace.visited := fun other inner =>
      clean.visited_of_component (mem_flatten.mpr ⟨scc, member, inner⟩)
    refine ⟨first, inside, class_, fun other inner => ⟨(down other inner).1, ?_⟩⟩
    rw [indexOld first (met first inside), indexOld other (met other inner)]
    exact (down other inner).2
  case descends =>
    intro other member target met older
    rcases mem_cons.mp member with rfl | inactive
    · -- Nothing has been met after the new node.
      rcases (split target).mp met with old | rfl
      · rw [own, indexOld target old] at older
        exact absurd (newer target old) (by omega)
      · exact .refl
    · rcases (split target).mp met with old | rfl
      · rw [indexOld other (clean.visited_of_stack (clean.stacked other inactive)), indexOld target old] at older
        exact clean.descends other inactive target old older
      · exact reached other inactive
  case returns =>
    intro other member
    rcases mem_cons.mp member with rfl | old
    · exact ⟨other, mem_cons_self, le_refl _, .refl⟩
    · obtain ⟨back, inactive, older, reaches⟩ := clean.returns other old
      refine ⟨back, mem_cons_of_mem _ inactive, ?_, reaches⟩
      rw [indexOld back (clean.visited_of_stack (clean.stacked back inactive)),
        indexOld other (clean.visited_of_stack old)]
      exact older
  case low =>
    intro other member
    rcases mem_cons.mp member with rfl | old
    · exact ⟨other, mem_cons_self, by rw [ownLow, own], le_refl _, .refl _ other⟩
    · obtain ⟨target, onStack, value, older, leads⟩ := clean.low other old
      refine ⟨target, mem_cons_of_mem _ onStack, ?_, ?_, leads⟩
      · rw [lowOld other (clean.visited_of_stack old), indexOld target (clean.visited_of_stack onStack), value]
      · rw [indexOld other (clean.visited_of_stack old), indexOld target (clean.visited_of_stack onStack)]
        exact older
  case least =>
    intro other member target onStack leads value lowValue
    rcases mem_cons.mp member with rfl | old
    · -- No connection of the new node has been left behind.
      have same : other = target := leads.eq_of_no_edge noEdge
      rw [ownLow, some.injEq] at lowValue
      rw [← same, own, lowValue]
    · rcases mem_cons.mp onStack with rfl | oldTarget
      · rcases leads.eq_or_target with rfl | ⟨edge, left, rfl⟩
        · exact absurd (clean.visited_of_stack old) unmet
        · exact absurd (clean.between edge left).2 unmet
      · rw [lowOld other (clean.visited_of_stack old)] at lowValue
        rw [indexOld target (clean.visited_of_stack oldTarget)]
        exact clean.least other old target oldTarget leads value lowValue

variable (child) in
/-- The value of `node` is lowered to that of a child on the stack, and not raised. -/
theorem leave_low (clean : Clean graph active run) {ownValue : ℕ} (own : run.low node = some ownValue) :
    ∃ value ≤ ownValue, (leave node child run).low node = some value ∧
      (child ∈ run.state.stack → ∃ childValue, run.low child = some childValue ∧ value = min childValue ownValue) ∧
      (child ∉ run.state.stack → value = ownValue) := by
  by_cases below : child ∈ run.state.stack
  · obtain ⟨target, _, childLow, _⟩ := clean.low child below
    refine ⟨min (run.index target) ownValue, Nat.min_le_right _ _, ?_, ?_, ?_⟩
    · exact lowerLink_get below childLow own
    · exact fun _ => ⟨_, childLow, rfl⟩
    · exact fun popped => absurd below popped
  · refine ⟨ownValue, Nat.le_refl _, ?_, fun member => absurd member below, fun _ => rfl⟩
    rw [Search.low, leave, lowerLink_off_stack below]
    exact own

theorem leave (clean : Clean graph active run) (numbered : Numbered run) (isActive : node ∈ active)
    (isChild : child ∈ graph.childrenOf node) (met : child ∈ run.trace.visited) :
    Clean graph active (leave node child run) := by
  have onStack := clean.stacked node isActive
  obtain ⟨ownTarget, ownOn, ownLow, ownOlder, ownLeads⟩ := clean.low node onStack
  obtain ⟨value, lower, nowLow, fromChild, unchanged⟩ :=
    clean.leave_low child ownLow
  have lowOther : ∀ other, other ≠ node → (Search.leave node child run).low other = run.low other :=
    fun other different => lowerLink_get_ne _ _ _ different
  have sameStack : (Search.leave node child run).state.stack = run.state.stack := by
    simp [Search.leave]
  have sameComponents : (Search.leave node child run).state.stronglyConnectedComponents =
      run.state.stronglyConnectedComponents := by simp [Search.leave]
  constructor
  case parts =>
    rw [sameStack, sameComponents]
    exact clean.parts
  case sorted =>
    rw [sameStack]
    exact clean.sorted
  case inside => exact clean.inside
  case stacked =>
    rw [sameStack]
    exact clean.stacked
  case real =>
    intro edge member
    rcases mem_cons.mp member with rfl | earlier
    · exact isChild
    · exact clean.real edge earlier
  case between =>
    intro edge member
    rcases mem_cons.mp member with rfl | earlier
    · exact ⟨clean.visited_of_stack onStack, met⟩
    · exact clean.between edge earlier
  case followed =>
    intro other metOther inactive target isTarget
    exact mem_cons_of_mem _ (clean.followed other metOther inactive target isTarget)
  case closed =>
    rw [sameComponents]
    exact clean.closed
  case settled =>
    rw [sameComponents]
    intro scc member
    obtain ⟨first, inside, class_, down⟩ := clean.settled scc member
    exact ⟨first, inside, class_, fun other inner => ⟨.inl (down other inner).1, (down other inner).2⟩⟩
  case descends => exact clean.descends
  case returns =>
    rw [sameStack]
    exact clean.returns
  case low =>
    rw [sameStack]
    intro other member
    by_cases same : other = node
    · subst same
      by_cases below : child ∈ run.state.stack
      · obtain ⟨childValue, childLow, minimum⟩ := fromChild below
        obtain ⟨target, targetOn, targetLow, targetOlder, targetLeads⟩ := clean.low child below
        have values : childValue = run.index target := by
          rw [targetLow, some.injEq] at childLow
          exact childLow.symm
        subst values
        by_cases smaller : run.index target ≤ run.index ownTarget
        · refine ⟨target, targetOn, ?_, Nat.le_trans smaller ownOlder, .inr ⟨rfl, targetLeads⟩⟩
          rw [nowLow, minimum, Nat.min_eq_left smaller]
          rfl
        · refine ⟨ownTarget, ownOn, ?_, ownOlder, .inl ownLeads⟩
          rw [nowLow, minimum, Nat.min_eq_right (by omega)]
          rfl
      · refine ⟨ownTarget, ownOn, ?_, ownOlder, .inl ownLeads⟩
        rw [nowLow, unchanged below]
        rfl
    · obtain ⟨target, targetOn, targetLow, older, leads⟩ := clean.low other member
      exact ⟨target, targetOn, (lowOther other same).trans targetLow, older, .inl leads⟩
  case least =>
    rw [sameStack]
    intro other member target targetOn leads bound lowValue
    by_cases same : other = node
    · subst same
      rw [nowLow, some.injEq] at lowValue
      subst lowValue
      rcases leads with before | ⟨_, rest⟩
      · exact Nat.le_trans lower (clean.least other member target targetOn before _ ownLow)
      · rcases clean.stack_or_component met with below | popped
        · obtain ⟨childValue, childLow, minimum⟩ := fromChild below
          have := clean.least child below target targetOn rest _ childLow
          show value ≤ run.index target
          omega
        · exact absurd (rest.reaches clean.real) (clean.not_reached numbered popped targetOn)
    · rw [lowOther other same] at lowValue
      rcases leads with before | ⟨here, _⟩
      · exact clean.least other member target targetOn before bound lowValue
      · exact absurd here same

end Clean

structure Followed (before : Search) (node : String) (after : Search) : Prop where
  met : node ∈ after.trace.visited
  kept : ∀ other ∈ before.trace.visited, other ∈ after.state.stack ↔ other ∈ before.state.stack
  stacked : ∀ newer ∈ after.state.stack, newer ∉ before.trace.visited → node ∈ after.state.stack
  lowered : ∀ newer ∈ after.state.stack, newer ∉ before.trace.visited →
    ∀ target ∈ before.state.stack, (newer, target) ∈ after.trace.edges →
      ∀ value, after.low node = some value → value ≤ before.index target

structure Following (graph : DirectedGraph) (active : List String) (before : Search) (node : String)
    (run : Search) : Prop where
  started : Clean graph active before
  unmet : node ∉ before.trace.visited
  numbered : Numbered run
  grown : Extends before run
  own : run.index node = before.trace.visited.length
  clean : Clean graph (node :: active) run
  so_far : Followed before node run

namespace Following

variable {active : List String}

theorem enter (clean : Clean graph active before) (numbered : Numbered before)
    (unmet : node ∉ before.trace.visited) (known : node ∈ graph.nodes)
    (reached : ∀ other ∈ active, Reaches graph.childrenOf other node) :
    Following graph active before node (enter node before) where
  started := clean
  unmet := unmet
  numbered := numbered.enter unmet
  grown := extends_enter unmet
  own := by simp [index, Search.enter, idxOf_append_of_notMem unmet]
  clean := clean.enter numbered unmet known reached
  so_far :=
    { met := by simp [Search.enter]
      kept := by
        intro other met
        have different : other ≠ node := fun same => unmet (same ▸ met)
        simp [Search.enter, openNode, different]
      stacked := fun _ _ _ => mem_cons_self
      lowered := by
        intro newer member new target _ edge
        exact absurd (clean.between _ edge).1 new }

theorem index_lt_iff (state : Following graph active before node run) (other : String) :
    run.index other < run.index node ↔ other ∈ before.trace.visited := by
  rw [state.own]
  by_cases old : other ∈ before.trace.visited
  · rw [state.grown.index old]
    exact iff_of_true (idxOf_lt_length_of_mem old) old
  · obtain ⟨new, visited⟩ := state.grown.visited
    have later : before.trace.visited.length ≤ run.index other := by
      rw [index, visited, idxOf_append_of_notMem old]
      omega
    exact iff_of_false (by omega) old

theorem step (state : Following graph active before node run)
    (isChild : child ∈ graph.childrenOf node) (numbered : Numbered after) (grown : Extends run after)
    (clean : Clean graph (node :: active) after) (followed : Followed run child after) :
    Following graph active before node (leave node child after) := by
  obtain ⟨started, unmet, -, grownBefore, own, _, soFar⟩ := state
  have ownMet : node ∈ run.trace.visited := soFar.met
  refine ⟨started, unmet, numbered.leave, (grownBefore.trans grown).leave unmet, ?_,
    clean.leave numbered mem_cons_self isChild followed.met, ?_⟩
  · exact (grown.index ownMet).trans own
  have sameStack : (leave node child after).state.stack = after.state.stack := by
    simp [leave]
  have onStack : node ∈ after.state.stack := clean.stacked node mem_cons_self
  obtain ⟨_, _, ownLow, _⟩ := clean.low node onStack
  obtain ⟨value, lower, nowLow, fromChild, _⟩ := clean.leave_low child ownLow
  constructor
  case met => exact grown.mem ownMet
  case kept =>
    intro other met
    rw [sameStack, followed.kept other (grownBefore.mem met), soFar.kept other met]
  case stacked =>
    intro _ _ _
    rw [sameStack]
    exact onStack
  case lowered =>
    rw [sameStack]
    intro newer member new target targetOn edge bound lowValue
    rw [nowLow, some.injEq] at lowValue
    subst lowValue
    have targetMet := started.visited_of_stack targetOn
    have targetNow : target ∈ run.state.stack := (soFar.kept target targetMet).mpr targetOn
    have index₁ : run.index target = before.index target := grownBefore.index targetMet
    have index₂ : after.index target = run.index target := grown.index (grownBefore.mem targetMet)
    rcases mem_cons.mp edge with here | earlier
    · -- The connection that is left behind now.
      obtain ⟨rfl, rfl⟩ := Prod.mk.inj here
      have below : target ∈ after.state.stack := (followed.kept target (grownBefore.mem targetMet)).mpr targetNow
      obtain ⟨childValue, childLow, minimum⟩ := fromChild below
      have := clean.least target below target below (.refl _ _) childValue childLow
      omega
    · by_cases old : newer ∈ run.trace.visited
      · have early := soFar.lowered newer ((followed.kept newer old).mp member) new target targetOn
          (grown.mem_edges old earlier) _ ((grown.low node ownMet).symm.trans ownLow)
        omega
      · have below := followed.stacked newer member old
        obtain ⟨childValue, childLow, minimum⟩ := fromChild below
        have := followed.lowered newer member old target targetNow earlier childValue childLow
        omega

section Close

variable (state : Following graph active before node run)
  (allLeft : ∀ child ∈ graph.childrenOf node, (node, child) ∈ run.trace.edges)

include state

theorem onStack : node ∈ run.state.stack := state.clean.stacked node mem_cons_self

theorem active_met {other : String} (member : other ∈ active) : other ∈ before.trace.visited :=
  state.started.visited_of_stack (state.started.stacked other member)

include allLeft

theorem left {other target : String} (met : other ∈ run.trace.visited)
    (new : other ∉ before.trace.visited) (isChild : target ∈ graph.childrenOf other) :
    (other, target) ∈ run.trace.edges := by
  by_cases same : other = node
  · subst same
    exact allLeft target isChild
  · refine state.clean.followed other met (fun member => ?_) target isChild
    rcases mem_cons.mp member with here | earlier
    · exact same here
    · exact new (state.active_met earlier)

section First

variable (isFirst : run.low node = some (run.index node)) {other : String}

include isFirst

/-- No connection leads from above `node` to below it on the stack. -/
theorem confined {target : String} (onStack : other ∈ run.state.stack)
    (new : other ∉ before.trace.visited) (reaches : Reaches graph.childrenOf other target) :
    target ∈ run.state.stack ∧ target ∉ before.trace.visited ∨
      target ∈ run.state.stronglyConnectedComponents.flatten := by
  refine reaches.mem_of_closed (p := fun target => target ∈ run.state.stack ∧
    target ∉ before.trace.visited ∨ target ∈ run.state.stronglyConnectedComponents.flatten)
    (fun source inside next isNext => ?_) (.inl ⟨onStack, new⟩)
  rcases inside with ⟨sourceOn, sourceNew⟩ | popped
  · have edge := state.left allLeft (state.clean.visited_of_stack sourceOn) sourceNew isNext
    rcases state.clean.stack_or_component (state.clean.between _ edge).2 with nextOn | nextPopped
    · refine .inl ⟨nextOn, fun old => ?_⟩
      have bound := state.so_far.lowered source sourceOn sourceNew next
        ((state.so_far.kept next old).mp nextOn) edge _ isFirst
      have older := (state.index_lt_iff next).mpr old
      rw [state.grown.index old] at older
      omega
    · exact .inr nextPopped
  · exact .inr (state.clean.closed source popped next isNext)

theorem linked_of_newer (onStack : other ∈ run.state.stack) (new : other ∉ before.trace.visited) :
    Linked graph.childrenOf other node := by
  have met := state.clean.visited_of_stack onStack
  constructor
  · obtain ⟨back, member, _, reaches⟩ := state.clean.returns other onStack
    rcases mem_cons.mp member with rfl | earlier
    · exact reaches
    · rcases state.confined allLeft isFirst onStack new reaches with ⟨_, backNew⟩ | popped
      · exact absurd (state.active_met earlier) backNew
      · exact absurd popped (state.clean.not_component state.numbered (state.clean.stacked back member))
  · refine state.clean.descends node mem_cons_self other met ?_
    exact Nat.le_of_not_lt fun older => new ((state.index_lt_iff other).mp older)

theorem newer_of_linked (linked : Linked graph.childrenOf other node) :
    other ∈ run.state.stack ∧ other ∉ before.trace.visited := by
  rcases state.confined allLeft isFirst state.onStack state.unmet linked.2 with newer | popped
  · exact newer
  · exact absurd linked.1 (state.clean.not_reached state.numbered popped state.onStack)

/-- The value has come down exactly when the search leads to `node`. -/
theorem low_eq_iff (onStack : other ∈ run.state.stack) (new : other ∉ before.trace.visited) :
    run.low other = some (run.index node) ↔ Leads run.trace.edges other node := by
  obtain ⟨target, targetOn, value, _, leads⟩ := state.clean.low other onStack
  constructor
  · intro down
    have same : target = node :=
      state.clean.index_inj targetOn (some.inj (value.symm.trans down))
    exact same ▸ leads
  · intro toNode
    have bound := state.clean.least other onStack node state.onStack toNode _ value
    have later : ¬run.index target < run.index node := by
      rw [state.index_lt_iff target]
      rcases state.confined allLeft isFirst onStack new (leads.reaches state.clean.real) with
        ⟨_, targetNew⟩ | popped
      · exact targetNew
      · exact absurd popped (state.clean.not_component state.numbered targetOn)
    have same : run.index target = run.index node := by omega
    rw [value, same]

end First

theorem close_of_not_first (notFirst : run.low node ≠ some (run.index node)) :
    Clean graph active (close node run) ∧ Followed before node (close node run) := by
  have unchanged : close node run = run := by
    have ids := state.numbered.ids node state.so_far.met
    have differ : ¬run.state.ids.get node = run.state.lowLinkValues.get node := fun same =>
      notFirst (same.symm.trans ids)
    rw [close, closeNode, if_neg differ]
  rw [unchanged]
  refine ⟨?_, state.so_far⟩
  have clean := state.clean
  refine { clean with stacked := ?_, followed := ?_, descends := ?_, returns := ?_ }
  · exact fun other member => clean.stacked other (mem_cons_of_mem _ member)
  · intro other met inactive
    by_cases same : other = node
    · subst same
      exact allLeft
    · exact clean.followed other met (by simp [same, inactive])
  · exact fun other member => clean.descends other (mem_cons_of_mem _ member)
  · intro other onStack
    obtain ⟨back, member, older, reaches⟩ := clean.returns other onStack
    rcases mem_cons.mp member with rfl | earlier
    · -- The value of `node` is the id of an older node on the stack, which returns further.
      obtain ⟨target, targetOn, value, targetOlder, leads⟩ := clean.low back state.onStack
      have smaller : run.index target ≠ run.index back := fun same => notFirst (same ▸ value)
      obtain ⟨further, furtherMember, furtherOlder, onward⟩ := clean.returns target targetOn
      rcases mem_cons.mp furtherMember with rfl | furtherActive
      · omega
      · exact ⟨further, furtherActive, by omega, (reaches.trans (leads.reaches clean.real)).trans onward⟩
    · exact ⟨back, earlier, older, reaches⟩

omit allLeft in
theorem stack_split : ∃ newer older, run.state.stack = newer ++ node :: older ∧
    (∀ other ∈ newer, other ∉ before.trace.visited) ∧
    ∀ other ∈ older, other ∈ before.trace.visited ∧ run.low other ≠ some (run.index node) := by
  obtain ⟨newer, older, stack⟩ := append_of_mem state.onStack
  have sorted := state.clean.sorted
  rw [stack, pairwise_append, pairwise_cons] at sorted
  refine ⟨newer, older, stack, fun other member old => ?_, fun other member => ?_⟩
  · have above := sorted.2.2 other member node mem_cons_self
    have below := (state.index_lt_iff other).mpr old
    omega
  · have below := sorted.2.1.1 other member
    refine ⟨(state.index_lt_iff other).mp below, fun same => ?_⟩
    obtain ⟨target, _, value, older, _⟩ := state.clean.low other (by simp [stack, member])
    have := some.inj (value.symm.trans same)
    omega

theorem close_of_down (isFirst : run.low node = some (run.index node))
    (down : ∀ other ∈ run.state.stack, other ∉ before.trace.visited → Leads run.trace.edges other node) :
    Clean graph active (close node run) ∧ Followed before node (close node run) := by
  obtain ⟨newer, older, stack, above, below⟩ := state.stack_split
  have clean := state.clean
  have ids := state.numbered.ids node state.so_far.met
  have newerOn : ∀ other ∈ newer ++ [node], other ∈ run.state.stack ∧ other ∉ before.trace.visited := by
    intro other member
    rcases mem_append.mp member with inNewer | own
    · exact ⟨by simp [stack, inNewer], above other inNewer⟩
    · rw [mem_singleton.mp own]
      exact ⟨state.onStack, state.unmet⟩
  have olderOn : ∀ other ∈ older, other ∈ run.state.stack := fun other member => by
    simp [stack, member]
  have older_iff : ∀ other ∈ before.trace.visited, other ∈ older ↔ other ∈ run.state.stack := by
    intro other met
    have notNewer : other ∉ newer := fun member => above other member met
    have notNode : other ≠ node := fun same => state.unmet (same ▸ met)
    simp [stack, notNewer, notNode]
  have popped : closeNode node run.state = { run.state with
      stack := older
      stronglyConnectedComponents :=
        run.state.stronglyConnectedComponents ++ [newer ++ [node]] } := by
    refine closeNode_pop stack (ids.trans isFirst.symm) (fun other member => ?_) fun other member => ?_
    · have on := newerOn other (mem_append_left _ member)
      exact ((state.low_eq_iff allLeft isFirst on.1 on.2).mpr (down other on.1 on.2)).trans ids.symm
    · rw [ids]
      exact (below other member).2
  have newStack : (close node run).state.stack = older := by rw [close, popped]
  have newComponents : (close node run).state.stronglyConnectedComponents =
      run.state.stronglyConnectedComponents ++ [newer ++ [node]] := by rw [close, popped]
  have sameLow : (close node run).low = run.low := by
    funext other
    rw [low, close, popped]
    rfl
  have sub : older.Sublist run.state.stack := by
    rw [stack]
    exact (sublist_cons_self node older).trans (sublist_append_right newer _)
  refine ⟨?_, ?_⟩
  · constructor
    case parts =>
      rw [newStack, newComponents]
      refine Perm.trans ?_ clean.parts
      rw [stack, perm_iff_count]
      intro other
      simp only [flatten_append, flatten_singleton, count_append, count_cons, count_nil]
      omega
    case sorted =>
      rw [newStack]
      exact clean.sorted.sublist sub
    case inside => exact clean.inside
    case stacked =>
      rw [newStack]
      intro other member
      exact (older_iff other (state.active_met member)).mpr (clean.stacked other (mem_cons_of_mem _ member))
    case real => exact clean.real
    case between => exact clean.between
    case followed =>
      intro other met inactive target isTarget
      by_cases same : other = node
      · subst same
        exact allLeft target isTarget
      · exact clean.followed other met (by simp [same, inactive]) target isTarget
    case closed =>
      rw [newComponents, flatten_append, flatten_singleton]
      intro other member target isTarget
      rw [mem_append] at member ⊢
      rcases member with before | now
      · exact .inl (clean.closed other before target isTarget)
      · have on := newerOn other now
        rcases state.confined allLeft isFirst on.1 on.2 (.single isTarget) with
          ⟨targetOn, targetNew⟩ | before
        · refine .inr ?_
          rw [stack] at targetOn
          have notOlder : target ∉ older := fun old => targetNew (below target old).1
          simpa [notOlder] using targetOn
        · exact .inl before
    case settled =>
      rw [newComponents]
      intro scc member
      rcases mem_append.mp member with before | now
      · exact clean.settled scc before
      · rw [mem_singleton.mp now]
        refine ⟨node, by simp, fun other => ⟨fun inner => ?_, fun linked => ?_⟩, fun other inner => ?_⟩
        · exact state.linked_of_newer allLeft isFirst (newerOn other inner).1 (newerOn other inner).2
        · obtain ⟨on, new⟩ := state.newer_of_linked allLeft isFirst linked
          rw [stack] at on
          have notOlder : other ∉ older := fun old => new (below other old).1
          simpa [notOlder] using on
        · refine ⟨down other (newerOn other inner).1 (newerOn other inner).2, Nat.le_of_not_lt ?_⟩
          exact fun smaller => (newerOn other inner).2 ((state.index_lt_iff other).mp smaller)
    case descends => exact fun other member => clean.descends other (mem_cons_of_mem _ member)
    case returns =>
      rw [newStack]
      intro other member
      obtain ⟨back, backMember, backOlder, reaches⟩ := clean.returns other (olderOn other member)
      rcases mem_cons.mp backMember with rfl | earlier
      · have smaller := (state.index_lt_iff other).mpr (below other member).1
        omega
      · exact ⟨back, earlier, backOlder, reaches⟩
    case low =>
      rw [newStack, sameLow]
      intro other member
      obtain ⟨target, targetOn, value, targetOlder, leads⟩ := clean.low other (olderOn other member)
      have smaller := (state.index_lt_iff other).mpr (below other member).1
      have old : target ∈ before.trace.visited := (state.index_lt_iff target).mp (by omega)
      exact ⟨target, (older_iff target old).mpr targetOn, value, targetOlder, leads⟩
    case least =>
      rw [newStack, sameLow]
      exact fun other member target targetOn =>
        clean.least other (olderOn other member) target (olderOn target targetOn)
  · have gone : ∀ other ∈ (close node run).state.stack, other ∈ before.trace.visited := by
      rw [newStack]
      exact fun other member => (below other member).1
    refine ⟨state.so_far.met, fun other met => ?_, fun other member new => ?_, fun other member new => ?_⟩
    · rw [newStack, older_iff other met, state.so_far.kept other met]
    · exact absurd (gone other member) new
    · exact absurd (gone other member) new

theorem close_of_stuck {stuck : String} (isFirst : run.low node = some (run.index node))
    (onStack : stuck ∈ run.state.stack) (new : stuck ∉ before.trace.visited)
    (stays : ¬Leads run.trace.edges stuck node) : Lost graph node stuck (close node run) := by
  obtain ⟨newer, older, stack, above, below⟩ := state.stack_split
  have linked := state.linked_of_newer allLeft isFirst onStack new
  have ids := state.numbered.ids node state.so_far.met
  have inNewer : stuck ∈ newer := by
    have notNode : stuck ≠ node := fun same => stays (same ▸ .refl _ stuck)
    have notOlder : stuck ∉ older := fun old => new (below stuck old).1
    simpa [stack, notNode, notOlder] using onStack
  have single : node ∉ newer := by
    have distinct := (nodup_append.mp (state.clean.parts.nodup_iff.mpr state.numbered.distinct)).1
    rw [stack, nodup_append] at distinct
    exact fun member => distinct.2.2 node member node mem_cons_self rfl
  have newerOf : ∀ other, Linked graph.childrenOf stuck other →
      other ∈ run.state.stack ∧ other ∉ before.trace.visited := fun other toOther =>
    state.newer_of_linked allLeft isFirst (toOther.symm.trans linked)
  constructor
  case known => exact ⟨state.clean.inside node state.so_far.met,
    state.clean.inside stuck (state.clean.visited_of_stack onStack)⟩
  case linked => exact linked
  case met => exact fun other toOther => state.clean.visited_of_stack (newerOf other toOther).1
  case least =>
    intro other toOther
    exact Nat.le_of_not_lt fun smaller =>
      (newerOf other toOther).2 ((state.index_lt_iff other).mp smaller)
  case low => simpa [low, close, index] using isFirst
  case unpopped =>
    refine closeNode_keeps stack single inNewer (fun same => stays ?_)
      (state.clean.not_component state.numbered state.onStack)
    exact (state.low_eq_iff allLeft isFirst onStack new).mp (same.trans ids)
  case stays => exact stays

/-- The end of following `node`: the component of `node` is returned as a whole, or lost. -/
theorem close_cases : Clean graph active (close node run) ∧ Followed before node (close node run) ∨
      ∃ first stuck, Lost graph first stuck (close node run) ∧ first ∉ active ∧ stuck ∉ active := by
  by_cases isFirst : run.low node = some (run.index node)
  · by_cases down : ∀ other ∈ run.state.stack, other ∉ before.trace.visited → Leads run.trace.edges other node
    · exact .inl (state.close_of_down allLeft isFirst down)
    · push Not at down
      obtain ⟨stuck, onStack, new, stays⟩ := down
      exact .inr ⟨node, stuck, state.close_of_stuck allLeft isFirst onStack new stays,
        fun member => state.unmet (state.active_met member),
        fun member => new (state.active_met member)⟩
  · exact .inl (state.close_of_not_first allLeft isFirst)

end Close

end Following

theorem Extends.length_le (grown : Extends before after) :
    before.trace.visited.length ≤ after.trace.visited.length := by
  obtain ⟨new, visited⟩ := grown.visited
  rw [visited, length_append]
  omega

theorem child_mem_nodes (joins : JoinsNodes graph) (isChild : child ∈ graph.childrenOf node) : child ∈ graph.nodes := by
  obtain ⟨connection, member, rfl⟩ := List.mem_map.mp isChild
  exact (joins.ends connection (mem_filter.mp member).1).2

/-- Following a node ends well, or with a lost component that no active node belongs to. -/
theorem follow_clean {active : List String} (joins : JoinsNodes graph) (numbered : Numbered run)
    (clean : Clean graph active run) (known : node ∈ graph.nodes)
    (reached : ∀ other ∈ active, Reaches graph.childrenOf other node)
    (enough : graph.nodes.length < fuel + run.trace.visited.length) :
    Clean graph active (follow graph fuel node run) ∧ Followed run node (follow graph fuel node run) ∨
      ∃ first stuck, Lost graph first stuck (follow graph fuel node run) ∧
        first ∉ active ∧ stuck ∉ active := by
  induction fuel generalizing node run active with
  | zero =>
    have bound := Nodup.length_le_of_subset numbered.distinct clean.inside
    omega
  | succ fuel ih =>
    by_cases met : node ∈ run.trace.visited
    · rw [follow_visited numbered.agrees met]
      refine .inl ⟨clean, met, fun _ _ => Iff.rfl, fun other member new => ?_,
        fun other member new => ?_⟩
      · exact absurd (clean.visited_of_stack member) new
      · exact absurd (clean.visited_of_stack member) new
    · rw [follow_unvisited numbered.agrees met]
      -- Over the children that remain; a connection that does not remain has been left behind.
      have all : ∀ (rest : List String) (after : Search), Following graph active run node after →
          (∀ child ∈ rest, child ∈ graph.childrenOf node) →
          (∀ child ∈ graph.childrenOf node, child ∈ rest ∨ (node, child) ∈ after.trace.edges) →
          graph.nodes.length < fuel + after.trace.visited.length →
          Clean graph active (close node (followAll graph fuel node after rest)) ∧
              Followed run node (close node (followAll graph fuel node after rest)) ∨
            ∃ first stuck, Lost graph first stuck (close node (followAll graph fuel node after rest)) ∧
              first ∉ active ∧ stuck ∉ active := by
        intro rest
        induction rest with
        | nil =>
          intro after state _ left _
          exact state.close_cases fun child isChild =>
            (left child isChild).resolve_left not_mem_nil
        | cons child rest ihRest =>
          intro after state children left enoughAfter
          have isChild := children child mem_cons_self
          have below := follow_extends graph fuel child state.numbered
          have reachedChild : ∀ other ∈ node :: active, Reaches graph.childrenOf other child := by
            intro other member
            rcases mem_cons.mp member with rfl | earlier
            · exact .single isChild
            · exact (reached other earlier).tail isChild
          rcases ih state.numbered state.clean (child_mem_nodes joins isChild) reachedChild enoughAfter with
            ⟨cleanBelow, followed⟩ | ⟨first, stuck, lost, notFirst, notStuck⟩
          · refine ihRest _ (state.step isChild below.1 below.2 cleanBelow followed) ?_ ?_ ?_
            · exact fun other member => children other (mem_cons_of_mem _ member)
            · intro other isOther
              rcases left other isOther with remaining | done
              · rcases mem_cons.mp remaining with rfl | later
                · exact .inr mem_cons_self
                · exact .inl later
              · obtain ⟨later, edges, _⟩ := below.2.edges
                refine .inr (mem_cons_of_mem _ ?_)
                rw [edges]
                exact mem_append_right _ done
            · have grows := below.2.length_le
              simp only [leave]
              omega
          · rw [mem_cons, not_or] at notFirst notStuck
            refine .inr ⟨first, stuck, ?_, notFirst.2, notStuck.2⟩
            exact (lost.leave (Ne.symm notFirst.1) (Ne.symm notStuck.1)).followAll (Ne.symm notFirst.1)
              (Ne.symm notStuck.1) below.1.leave (below.2.mem state.so_far.met)
      refine all _ _ (.enter clean numbered met known reached) (fun _ => id) (fun _ => .inl) ?_
      simp only [enter, length_append, length_singleton]
      omega

def followEach (graph : DirectedGraph) (fuel : ℕ) (nodes : List String) (run : Search) : Search :=
  nodes.foldl (fun run node => follow graph fuel node run) run

variable (graph fuel run) in
theorem followEach_eq (nodes : List String) : followEach graph fuel nodes run =
    ⟨nodes.foldl (fun s node => followNode graph fuel node s) run.state,
      nodes.foldl (fun t node => explore graph.childrenOf fuel node t) run.trace⟩ := by
  induction nodes generalizing run with
  | nil => rfl
  | cons node rest ih => exact ih _

theorem followEach_extends (numbered : Numbered run) (nodes : List String) :
    Numbered (followEach graph fuel nodes run) ∧ Extends run (followEach graph fuel nodes run) := by
  induction nodes generalizing run with
  | nil => exact ⟨numbered, .refl run⟩
  | cons node rest ih =>
    have below := follow_extends graph fuel node numbered
    have rest := ih below.1
    exact ⟨rest.1, below.2.trans rest.2⟩

theorem Lost.followEach {first stuck : String} (lost : Lost graph first stuck run)
    (numbered : Numbered run) (nodes : List String) : Lost graph first stuck (followEach graph fuel nodes run) := by
  induction nodes generalizing run with
  | nil => exact lost
  | cons node rest ih =>
    exact ih (lost.follow numbered) (follow_extends graph fuel node numbered).1

theorem followEach_clean (joins : JoinsNodes graph) (enough : graph.nodes.length < fuel)
    {nodes : List String} (known : ∀ node ∈ nodes, node ∈ graph.nodes) (numbered : Numbered run)
    (clean : Clean graph [] run) :
    Clean graph [] (followEach graph fuel nodes run) ∧
        (∀ node ∈ nodes, node ∈ (followEach graph fuel nodes run).trace.visited) ∨
      ∃ first stuck, Lost graph first stuck (followEach graph fuel nodes run) := by
  induction nodes generalizing run with
  | nil => exact .inl ⟨clean, by simp⟩
  | cons node rest ih =>
    have below := follow_extends graph fuel node numbered
    rcases follow_clean joins numbered clean (known node mem_cons_self) (by simp)
      (Nat.lt_add_right _ enough) with ⟨cleanBelow, followed⟩ | ⟨first, stuck, lost, _⟩
    · rcases ih (fun other member => known other (mem_cons_of_mem _ member)) below.1
        cleanBelow with ⟨cleanAfter, met⟩ | lost
      · refine .inl ⟨cleanAfter, fun other member => ?_⟩
        rcases mem_cons.mp member with rfl | later
        · exact (followEach_extends below.1 rest).2.mem followed.met
        · exact met other later
      · exact .inr lost
    · exact .inr ⟨first, stuck, lost.followEach below.1 rest⟩

theorem Clean.partitions (joins : JoinsNodes graph) (numbered : Numbered run)
    (clean : Clean graph [] run) (met : ∀ node ∈ graph.nodes, node ∈ run.trace.visited) :
    PartitionsComponents graph run.state.stronglyConnectedComponents := by
  have popped : ∀ node ∈ graph.nodes, ∃ scc ∈ run.state.stronglyConnectedComponents, node ∈ scc :=
    fun node known => by
      rcases clean.stack_or_component (met node known) with onStack | inside
      · obtain ⟨_, member, _⟩ := clean.returns node onStack
        cases member
      · exact mem_flatten.mp inside
  constructor
  case nonempty =>
    intro member
    obtain ⟨_, inside, _⟩ := clean.settled [] member
    cases inside
  case covers =>
    have distinct := (nodup_append.mp (clean.parts.nodup_iff.mpr numbered.distinct)).2.1
    refine (perm_ext_iff_of_nodup distinct joins.distinct).mpr fun node => ⟨fun inside => ?_, ?_⟩
    · exact clean.inside node (clean.visited_of_component inside)
    · exact fun known => mem_flatten.mpr (popped node known)
  case linked =>
    intro u knownU v _
    constructor
    · rintro ⟨scc, member, insideU, insideV⟩
      obtain ⟨first, _, class_, _⟩ := clean.settled scc member
      exact ((class_ u).mp insideU).trans ((class_ v).mp insideV).symm
    · intro linked
      obtain ⟨scc, member, insideU⟩ := popped u knownU
      obtain ⟨first, _, class_, _⟩ := clean.settled scc member
      exact ⟨scc, member, insideU, (class_ v).mpr (linked.symm.trans ((class_ u).mp insideU))⟩

theorem Clean.leads_to_first {first : String} (clean : Clean graph [] run)
    (met : node ∈ run.trace.visited) (isFirst : MetFirst graph.childrenOf run.trace node first) :
    Leads run.trace.edges node first := by
  rcases clean.stack_or_component met with onStack | inside
  · obtain ⟨_, member, _⟩ := clean.returns node onStack
    cases member
  · obtain ⟨scc, member, inner⟩ := mem_flatten.mp inside
    obtain ⟨root, rootInner, class_, down⟩ := clean.settled scc member
    have firstInner : first ∈ scc :=
      (class_ first).mpr (isFirst.1.symm.trans ((class_ node).mp inner))
    have below := isFirst.2 root ((class_ node).mp inner)
    have above : run.trace.visited.idxOf root ≤ run.trace.visited.idxOf first := (down first firstInner).2
    have rootMet := clean.visited_of_component (mem_flatten.mpr ⟨scc, member, rootInner⟩)
    have same : root = first := (idxOf_inj rootMet).mp (by omega)
    exact same ▸ (down node inner).1

end Search

open Search

/-- The components are right exactly when the value of every node comes down to the id of
the first node of its component. -/
theorem partitions_iff_values_come_down (graph : DirectedGraph) (joins : JoinsNodes graph) :
    PartitionsComponents graph graph.getStronglyConnectedComponents ↔ ValuesComeDown graph := by
  let start : Search := ⟨⟨0, [], .empty, .empty, [], []⟩, ⟨[], []⟩⟩
  let done := followEach graph (graph.nodes.length + 1) graph.nodes start
  have numbered : Numbered start := ⟨rfl, nodup_nil, rfl, by simp [start]⟩
  have numberedDone : Numbered done := (followEach_extends numbered graph.nodes).1
  have components : graph.getStronglyConnectedComponents = done.state.stronglyConnectedComponents :=
    congrArg (·.state.stronglyConnectedComponents) (followEach_eq graph _ start graph.nodes).symm
  have trace : exploreAll graph.childrenOf graph.nodes = done.trace :=
    congrArg (·.trace) (followEach_eq graph _ start graph.nodes).symm
  rw [ValuesComeDown, components, trace]
  rcases followEach_clean joins (Nat.lt_succ_self _) (fun _ => id) numbered Clean.initial with
    ⟨clean, met⟩ | ⟨first, stuck, lost⟩
  · refine iff_of_true (clean.partitions joins numberedDone met) fun node known first isFirst => ?_
    exact clean.leads_to_first (met node known) isFirst
  · refine iff_of_false (fun partitions => ?_) fun down => ?_
    · exact lost.unpopped (partitions.covers.mem_iff.mpr lost.known.1)
    · exact lost.stays (down stuck lost.known.2 first ⟨lost.linked, lost.least⟩)

/-- Two cycles that share `node2`, with the connections in the given order. -/
def twoCycles (order : List (String × String)) : DirectedGraph :=
  ⟨["node1", "node2", "node3"], order.map fun ends => ⟨ends.1, ends.2, .main, 0, 0⟩⟩

/-- The value of `node3` comes down before that of `node2` does. -/
theorem inner_cycle_first_returns_nothing :
    let graph := twoCycles [("node1", "node2"), ("node2", "node3"), ("node3", "node2"), ("node2", "node1")]
    JoinsNodes graph ∧ graph.getStronglyConnectedComponents = [] ∧
      ¬PartitionsComponents graph graph.getStronglyConnectedComponents := by
  intro graph
  have nothing : graph.getStronglyConnectedComponents = [] := by decide
  refine ⟨⟨by decide, by decide⟩, nothing, fun partitions => ?_⟩
  have covers := partitions.covers
  rw [nothing] at covers
  exact absurd covers.length_eq (by decide)

theorem outer_cycle_first_partitions_iff :
    let graph := twoCycles [("node1", "node2"), ("node2", "node1"), ("node2", "node3"), ("node3", "node2")]
    graph.getStronglyConnectedComponents = [["node3", "node2", "node1"]] ∧
      (PartitionsComponents graph graph.getStronglyConnectedComponents ↔ ValuesComeDown graph) :=
  ⟨by decide, partitions_iff_values_come_down _ ⟨by decide, by decide⟩⟩

end N8n.DirectedGraph
