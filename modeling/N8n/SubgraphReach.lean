import Mathlib.Data.List.Induction
import N8n.FindSubgraph

/-! Which main connections the search for a subgraph keeps. Nothing between the trigger and
the destination is lost: the way from a connection to the destination is made simple, and
the way to it is followed back until it comes to the trigger or to a node met before. By the
same argument loops are kept that lead to the destination, whether the trigger feeds them
or not. -/

namespace N8n.PartialExecution

open PartialExecution.DirectedGraph PartialExecution.GraphConnection List

section Reach

variable {graph sub : DirectedGraph} {destination trigger a b n last : GraphNode}
  {cs ext path : List GraphConnection} {c : GraphConnection} {more : List GraphConnection}

def MainTrail (graph : DirectedGraph) (a : GraphNode) (cs : List GraphConnection) (b : GraphNode) : Prop :=
  Trail fromNode toNode a cs b ∧ ∀ c ∈ cs, c ∈ graph.getConnections ∧ c.type = .main

instance (graph : DirectedGraph) (a : GraphNode) (cs : List GraphConnection) (b : GraphNode) :
    Decidable (MainTrail graph a cs b) :=
  inferInstanceAs (Decidable (_ ∧ ∀ c ∈ cs, _))

structure Between (graph : DirectedGraph) (trigger destination a : GraphNode) (cs : List GraphConnection)
    (b : GraphNode) : Prop where
  trail : MainTrail graph a cs b
  notToTrigger : ∀ c ∈ cs, c.toNode ≠ trigger
  notFromDestination : ∀ c ∈ cs, c.fromNode ≠ destination

theorem MainTrail.append (one : MainTrail graph a cs n) (two : MainTrail graph n more b) :
    MainTrail graph a (cs ++ more) b :=
  ⟨one.1.append two.1, forall_mem_append.mpr ⟨one.2, two.2⟩⟩

theorem Between.append (one : Between graph trigger destination a cs n)
    (two : Between graph trigger destination n more b) : Between graph trigger destination a (cs ++ more) b where
  trail := one.trail.append two.trail
  notToTrigger := forall_mem_append.mpr ⟨one.notToTrigger, two.notToTrigger⟩
  notFromDestination := forall_mem_append.mpr ⟨one.notFromDestination, two.notFromDestination⟩

theorem Between.split (whole : Between graph trigger destination a (cs ++ more) b) :
    ∃ m, Between graph trigger destination a cs m ∧ Between graph trigger destination m more b := by
  obtain ⟨m, one, two⟩ := Trail.append_iff.mp whole.trail.1
  have mains := forall_mem_append.mp whole.trail.2
  have enters := forall_mem_append.mp whole.notToTrigger
  have leaves := forall_mem_append.mp whole.notFromDestination
  exact ⟨m, ⟨⟨one, mains.1⟩, enters.1, leaves.1⟩, ⟨⟨two, mains.2⟩, enters.2, leaves.2⟩⟩

/-- A branch that has not met a node twice is followed back along a trail that comes from
the trigger or from a node that is met. -/
theorem prolong {pre : List GraphConnection} (back : Between graph trigger destination a pre b)
    (trail : Trail toNode fromNode destination ext b) (main : ∀ c ∈ ext, c ∈ graph.getConnections ∧ c.type = .main)
    (distinct : (ext.map toNode).Nodup) (before : ∀ c ∈ ext, c.toNode ≠ trigger) (notEnd : b ≠ destination)
    (stops : a = trigger ∨ a ∈ (ext ++ pre).map toNode) :
    ∃ more last, Kept graph destination trigger destination [] (ext ++ more) last := by
  induction pre using List.reverseRecOn generalizing b ext with
  | nil =>
    obtain rfl : a = b := back.trail.1
    rw [append_nil] at stops
    refine ⟨[], a, ?_⟩
    rw [append_nil]
    exact ⟨trail, main, distinct, before, stops.imp id fun met => ⟨notEnd, met⟩⟩
  | append_singleton pre d ih =>
    obtain ⟨m, earlier, only⟩ := back.split
    obtain ⟨leaves, enters⟩ : d.fromNode = m ∧ d.toNode = b := only.trail.1
    subst leaves enters
    by_cases met : d.toNode ∈ ext.map toNode
    · refine ⟨[], d.toNode, ?_⟩
      rw [append_nil]
      exact ⟨trail, main, distinct, before, .inr ⟨notEnd, met⟩⟩
    · have distinctNext : ((ext ++ [d]).map toNode).Nodup := by
        rw [map_append, nodup_append]
        refine ⟨distinct, by simp, ?_⟩
        rintro x hx y hy rfl
        exact met (mem_singleton.mp hy ▸ hx)
      obtain ⟨more, last, kept⟩ := ih earlier (trail.concat rfl)
        (forall_mem_append.mpr ⟨main, only.trail.2⟩) distinctNext
        (forall_mem_append.mpr ⟨before, only.notToTrigger⟩)
        (only.notFromDestination d mem_cons_self) (by simpa [or_comm, or_left_comm] using stops)
      exact ⟨d :: more, last, by simpa using kept⟩

theorem Between.back (path : Between graph trigger destination a cs destination) :
    ∃ ext, Trail toNode fromNode destination ext a ∧ (∀ c ∈ ext, c ∈ cs) ∧ (a :: ext.map toNode).Nodup := by
  obtain ⟨short, trail, distinct, part⟩ := path.trail.1.exists_simple
  refine ⟨short.reverse, trail.reverse, fun c member => part (mem_reverse.mp member), ?_⟩
  rw [map_reverse]
  exact (reverse_perm _).cons a |>.nodup_iff.mpr distinct

theorem kept_of_between (whole : Between graph trigger destination trigger cs destination) (member : c ∈ cs) :
    ∃ ext last, Kept graph destination trigger destination [] ext last ∧ c ∈ ext := by
  obtain ⟨pre, post, rfl⟩ := append_of_mem member
  obtain ⟨m, before, after⟩ := whole.split
  rw [← singleton_append] at after
  obtain ⟨k, only, rest⟩ := after.split
  obtain ⟨leaves, enters⟩ : c.fromNode = m ∧ c.toNode = k := only.trail.1
  subst leaves enters
  obtain ⟨ext, trail, part, distinct⟩ := rest.back
  have distinctNext : ((ext ++ [c]).map toNode).Nodup := by
    rw [map_append]
    exact (perm_append_singleton _ _).nodup_iff.mpr distinct
  obtain ⟨more, last, kept⟩ := prolong before (trail.concat rfl)
    (forall_mem_append.mpr ⟨fun d inside => rest.trail.2 d (part d inside), only.trail.2⟩) distinctNext
    (forall_mem_append.mpr ⟨fun d inside => rest.notToTrigger d (part d inside), only.notToTrigger⟩)
    (only.notFromDestination c mem_cons_self) (.inl rfl)
  exact ⟨ext ++ [c] ++ more, last, kept, by simp⟩

/-- Nothing is lost on the way from the trigger to the destination, and a closed graph is
searched without failure. -/
theorem findSubgraph_complete (triggerStored : graph.Stores trigger) (destinationStored : graph.Stores destination) :
    (graph.Closed → (findSubgraph graph destination trigger).isSome) ∧
      ∀ sub, findSubgraph graph destination trigger = some sub → ∀ cs, MainTrail graph trigger cs destination →
          (∀ c ∈ cs, c.toNode ≠ trigger) → (∀ c ∈ cs, c.fromNode ≠ destination) →
            ∀ c ∈ cs, c ∈ sub.getConnections ∧ sub.Stores c.fromNode ∧ sub.Stores c.toNode := by
  refine ⟨fun closed => ?_, fun sub found cs trail onlyStart onlyEnd c member => ?_⟩
  · obtain ⟨sub, found, _⟩ := findSubgraph_isSome triggerStored (closed.storesAbove destinationStored)
    rw [found]
    rfl
  · obtain ⟨part, main⟩ := findSubgraph_main triggerStored found
    have inside := ((main c).mpr (kept_of_between ⟨trail, onlyStart, onlyEnd⟩ member)).1
    exact ⟨inside, part.closed c inside⟩

def loopGraph : DirectedGraph :=
  let t := plainNode 0 "t"
  let a := plainNode 1 "a"
  let b := plainNode 2 "b"
  let d := plainNode 3 "d"
  [⟨t, a, .main, 0, 0⟩, ⟨a, b, .main, 0, 0⟩, ⟨b, a, .main, 0, 0⟩, ⟨b, d, .main, 1, 0⟩].foldl setConnection
    (empty.addNodes [t, a, b, d])

theorem loopGraph_complete : ∃ sub, findSubgraph loopGraph (plainNode 3 "d") (plainNode 0 "t") = some sub ∧
    ∀ c ∈ loopGraph.getConnections, c ∈ sub.getConnections ∧ sub.Stores c.fromNode ∧ sub.Stores c.toNode := by
  have triggerStored : loopGraph.Stores (plainNode 0 "t") := by decide
  have destinationStored : loopGraph.Stores (plainNode 3 "d") := by decide
  have complete := findSubgraph_complete triggerStored destinationStored
  obtain ⟨sub, found⟩ := Option.isSome_iff_exists.mp (complete.1 (by decide))
  refine ⟨sub, found, fun c member => ?_⟩
  -- once around the loop
  let walk := [0, 1, 2, 1, 3].filterMap (loopGraph.getConnections[·]?)
  have around : ∀ c ∈ loopGraph.getConnections, c ∈ walk := by decide
  exact complete.2 sub found walk (by decide) (by decide) (by decide) c (around c member)

/-! ## What else is kept -/

/-- The nodes with main connections of a graph lie between the trigger and the destination,
along main connections of `within`. -/
def OnTheWay (within sub : DirectedGraph) (trigger destination : GraphNode) : Prop :=
  ∀ c ∈ sub.getConnections, c.type = .main → ∀ n, n = c.fromNode ∨ n = c.toNode →
    (∃ cs, MainTrail within trigger cs n) ∧ ∃ cs, MainTrail within n cs destination

/-- A node on a loop of main connections that leads to the destination, neither of them through
the trigger or beyond the destination. -/
def OnSideLoop (graph : DirectedGraph) (trigger destination n : GraphNode) : Prop :=
  ∃ loop path, loop ≠ [] ∧ Between graph trigger destination n loop n ∧
    Between graph trigger destination n path destination

/-- A branch that is kept without coming to the trigger does not leave the destination. -/
theorem Kept.notFromDestination (kept : Kept graph destination trigger destination [] ext last)
    (notEnd : last ≠ destination) : ∀ c ∈ ext, c.fromNode ≠ destination := by
  intro c member back
  obtain ⟨pre, post, rfl⟩ := append_of_mem member
  obtain ⟨m, before, after⟩ := Trail.append_iff.mp kept.trail
  have distinct := kept.distinct
  rw [nil_append, map_append, nodup_append] at distinct
  cases post with
  | nil => exact notEnd ((show c.fromNode = last from after.2).symm.trans back)
  | cons d post =>
    -- the first connection and the one behind `c` both enter the destination
    have entersLater : d.toNode = destination := after.2.1.trans back
    cases pre with
    | nil =>
      have entersFirst : c.toNode = destination := kept.trail.1
      have apart := (nodup_cons.mp distinct.2.1).1
      exact apart (by simp [entersFirst, entersLater])
    | cons first pre =>
      have entersFirst : first.toNode = destination := kept.trail.1
      exact distinct.2.2 destination (by simp [entersFirst]) destination (by simp [entersLater]) rfl

theorem Kept.onSideLoop (kept : Kept graph destination trigger destination [] ext last) (notTrigger : last ≠ trigger) :
    OnSideLoop graph trigger destination last := by
  obtain ⟨notEnd, met⟩ := kept.stop.resolve_left notTrigger
  obtain ⟨c, member, enters⟩ := List.mem_map.mp met
  obtain ⟨pre, post, rfl⟩ := append_of_mem (show c ∈ ext from member)
  obtain ⟨m, before, after⟩ := Trail.append_iff.mp kept.trail
  obtain rfl : m = last := after.1.symm.trans enters
  have leaves := kept.notFromDestination notEnd
  rw [forall_mem_append] at leaves
  have mains := forall_mem_append.mp kept.main
  have avoids := forall_mem_append.mp kept.before
  refine ⟨(c :: post).reverse, pre.reverse, by simp, ?_, ?_⟩
  · exact ⟨⟨after.reverse, fun d inside => mains.2 d (mem_reverse.mp inside)⟩,
      fun d inside => avoids.2 d (mem_reverse.mp inside), fun d inside => leaves.2 d (mem_reverse.mp inside)⟩
  · exact ⟨⟨before.reverse, fun d inside => mains.1 d (mem_reverse.mp inside)⟩,
      fun d inside => avoids.1 d (mem_reverse.mp inside), fun d inside => leaves.1 d (mem_reverse.mp inside)⟩

theorem OnSideLoop.notEnd (side : OnSideLoop graph trigger destination n) :
    n ≠ destination ∧ trigger ≠ destination := by
  obtain ⟨loop, path, nonempty, around, leads⟩ := side
  have notEnd : n ≠ destination := by
    cases loop with
    | nil => exact absurd rfl nonempty
    | cons c loop => exact around.trail.1.1 ▸ around.notFromDestination c mem_cons_self
  refine ⟨notEnd, ?_⟩
  rcases leads.trail.1.last_cases with ⟨_, same⟩ | ⟨c, member, enters⟩
  · exact absurd same notEnd
  · rintro rfl
    exact leads.notToTrigger c member enters

theorem OnSideLoop.kept (side : OnSideLoop graph trigger destination n) :
    ∃ ext last c, Kept graph destination trigger destination [] ext last ∧ c ∈ ext ∧ c.fromNode = n := by
  have notEnd := side.notEnd.1
  obtain ⟨loop, path, nonempty, around, leads⟩ := side
  have met : n ∈ loop.map toNode := by
    rcases around.trail.1.last_cases with ⟨none, _⟩ | ⟨c, member, ends⟩
    · exact absurd none nonempty
    · exact List.mem_map.mpr ⟨c, member, ends⟩
  obtain ⟨ext, trail, part, distinct⟩ := leads.back
  obtain ⟨more, last, kept⟩ := prolong around trail (fun c member => leads.trail.2 c (part c member))
    (nodup_cons.mp distinct).2 (fun c member => leads.notToTrigger c (part c member)) notEnd
    (.inr (by rw [map_append]; exact mem_append_right _ met))
  rcases trail.last_cases with ⟨_, same⟩ | ⟨c, member, leaves⟩
  · exact absurd same.symm notEnd
  · exact ⟨ext ++ more, last, c, kept, mem_append_left _ member, leaves⟩

/-- On a branch that is kept, a connection leads to the destination and is led to from where
the branch stops. -/
theorem Kept.around (kept : Kept graph destination trigger destination [] ext last)
    (inside : ∀ c ∈ ext, c ∈ sub.getConnections ∧ c.type = .main) (member : c ∈ ext)
    (isEnd : n = c.fromNode ∨ n = c.toNode) :
    (∃ cs, MainTrail sub last cs n) ∧ ∃ cs, MainTrail sub n cs destination := by
  obtain ⟨pre, post, rfl⟩ := append_of_mem member
  obtain ⟨m, before, after⟩ := Trail.append_iff.mp kept.trail
  obtain rfl : c.toNode = m := after.1
  have mains := forall_mem_append.mp inside
  have behind : MainTrail sub last post.reverse c.fromNode :=
    ⟨after.2.reverse, fun d hd => mains.2 d (mem_cons_of_mem _ (mem_reverse.mp hd))⟩
  have ahead : MainTrail sub c.toNode pre.reverse destination :=
    ⟨before.reverse, fun d hd => mains.1 d (mem_reverse.mp hd)⟩
  have only : MainTrail sub c.fromNode [c] c.toNode :=
    ⟨⟨rfl, rfl⟩, forall_mem_singleton.mpr (inside c member)⟩
  rcases isEnd with rfl | rfl
  · exact ⟨⟨_, behind⟩, ⟨_, only.append ahead⟩⟩
  · exact ⟨⟨_, behind.append only⟩, ⟨_, ahead⟩⟩

theorem Part.mainTrail (part : Part graph sub) (trail : MainTrail sub a cs b) : MainTrail graph a cs b :=
  ⟨trail.1, fun c member => ⟨part.connections c (trail.2 c member).1, (trail.2 c member).2⟩⟩

/-- The subgraph keeps only what lies between the trigger and the destination exactly when the
trigger feeds the side loops: not through the destination, for the connections of the
subgraph, and at all, for those of the graph. -/
theorem findSubgraph_onTheWay_iff (triggerStored : graph.Stores trigger)
    (found : findSubgraph graph destination trigger = some sub) :
    (OnTheWay sub sub trigger destination ↔ ∀ n, OnSideLoop graph trigger destination n →
        ∃ cs, MainTrail graph trigger cs n ∧ ∀ c ∈ cs, c.fromNode ≠ destination) ∧
      (OnTheWay graph sub trigger destination ↔ ∀ n, OnSideLoop graph trigger destination n →
        ∃ cs, MainTrail graph trigger cs n) := by
  obtain ⟨part, main⟩ := findSubgraph_main triggerStored found
  have inSub : ∀ {ext last}, Kept graph destination trigger destination [] ext last → ∀ c ∈ ext,
      c ∈ sub.getConnections ∧ c.type = .main := fun kept c member => (main c).mpr ⟨_, _, kept, member⟩
  refine ⟨⟨fun onTheWay n side => ?_, fun fed c member isMain n isEnd => ?_⟩,
    ⟨fun onTheWay n side => ?_, fun fed c member isMain n isEnd => ?_⟩⟩
  · obtain ⟨ext, last, c, kept, member, leaves⟩ := side.kept
    have keptMain := inSub kept c member
    obtain ⟨⟨cs, trail⟩, _⟩ := onTheWay c keptMain.1 keptMain.2 n (.inl leaves.symm)
    refine ⟨cs, part.mainTrail trail, fun d hd => ?_⟩
    obtain ⟨extD, lastD, keptD, onBranch⟩ := (main d).mp (trail.2 d hd)
    refine keptD.notFromDestination (fun atEnd => ?_) d onBranch
    rcases keptD.stop with isTrigger | ⟨notEnd, _⟩
    · exact side.notEnd.2 (isTrigger.symm.trans atEnd)
    · exact notEnd atEnd
  · obtain ⟨ext, last, kept, onBranch⟩ := (main c).mp ⟨member, isMain⟩
    obtain ⟨⟨behind, trailBehind⟩, ahead⟩ := kept.around (inSub kept) onBranch isEnd
    refine ⟨?_, ahead⟩
    by_cases isTrigger : last = trigger
    · exact ⟨behind, isTrigger ▸ trailBehind⟩
    · have side := kept.onSideLoop isTrigger
      obtain ⟨cs, trail, leaves⟩ := fed last side
      obtain ⟨short, trailShort, distinct, shorter⟩ := trail.1.exists_simple
      have first : Between graph trigger destination trigger short last :=
        ⟨⟨trailShort, fun d hd => trail.2 d (shorter hd)⟩,
          fun d hd back => (nodup_cons.mp distinct).1 (List.mem_map.mpr ⟨d, hd, back⟩),
          fun d hd => leaves d (shorter hd)⟩
      obtain ⟨_, path, _, _, leads⟩ := side
      have whole := first.append leads
      have kept : MainTrail sub trigger short last := ⟨trailShort, fun d hd =>
        (main d).mpr (kept_of_between whole (mem_append_left _ hd))⟩
      exact ⟨short ++ behind, kept.append trailBehind⟩
  · obtain ⟨ext, last, c, kept, member, leaves⟩ := side.kept
    have keptMain := inSub kept c member
    exact (onTheWay c keptMain.1 keptMain.2 n (.inl leaves.symm)).1
  · obtain ⟨ext, last, kept, onBranch⟩ := (main c).mp ⟨member, isMain⟩
    obtain ⟨⟨behind, trailBehind⟩, ahead⟩ := kept.around kept.main onBranch isEnd
    refine ⟨?_, ahead⟩
    by_cases isTrigger : last = trigger
    · exact ⟨behind, isTrigger ▸ trailBehind⟩
    · obtain ⟨cs, trail⟩ := fed last (kept.onSideLoop isTrigger)
      exact ⟨cs ++ behind, trail.append trailBehind⟩

end Reach

/-- A loop beside the way that nothing leads to. -/
def sideLoopGraph : DirectedGraph :=
  let t := plainNode 0 "t"
  let d := plainNode 1 "d"
  let x := plainNode 2 "x"
  let y := plainNode 3 "y"
  [⟨t, d, .main, 0, 0⟩, ⟨x, y, .main, 0, 0⟩, ⟨y, x, .main, 0, 0⟩, ⟨y, d, .main, 1, 0⟩].foldl setConnection
    (empty.addNodes [t, d, x, y])

theorem sideLoopGraph_kept : ∃ sub, findSubgraph sideLoopGraph (plainNode 1 "d") (plainNode 0 "t") = some sub ∧
    ¬OnTheWay sideLoopGraph sub (plainNode 0 "t") (plainNode 1 "d") := by
  have kept : (findSubgraph sideLoopGraph (plainNode 1 "d") (plainNode 0 "t")).any (fun sub =>
      decide (⟨plainNode 2 "x", plainNode 3 "y", .main, 0, 0⟩ ∈ sub.getConnections)) = true := by decide
  obtain ⟨sub, found, member⟩ := (Option.any_eq_true _ _).mp kept
  refine ⟨sub, found, fun onTheWay => ?_⟩
  obtain ⟨⟨cs, trail⟩, _⟩ := onTheWay _ (of_decide_eq_true member) rfl (plainNode 2 "x") (.inl rfl)
  have closed : ∀ c ∈ sideLoopGraph.getConnections, c.fromNode.identity ≤ 1 → c.toNode.identity ≤ 1 := by decide
  have outside : ¬(plainNode 2 "x").identity ≤ 1 := by decide
  exact outside (trail.1.stays (p := fun n => n.identity ≤ 1) (by decide)
    fun c inside => closed c (trail.2 c inside).1)

theorem loopGraph_onTheWay : ∃ sub, findSubgraph loopGraph (plainNode 3 "d") (plainNode 0 "t") = some sub ∧
    OnTheWay sub sub (plainNode 0 "t") (plainNode 3 "d") := by
  have found : (findSubgraph loopGraph (plainNode 3 "d") (plainNode 0 "t")).isSome = true := by decide
  obtain ⟨sub, found⟩ := Option.isSome_iff_exists.mp found
  refine ⟨sub, found, (findSubgraph_onTheWay_iff (by decide) found).1.mpr fun n side => ?_⟩
  obtain ⟨loop, path, nonempty, around, _⟩ := side
  have fed : ∀ c ∈ loopGraph.getConnections, ∃ k < 3,
      MainTrail loopGraph (plainNode 0 "t") (loopGraph.getConnections.take k) c.fromNode := by decide
  have leaves : ∀ k < 3, ∀ c ∈ loopGraph.getConnections.take k, c.fromNode ≠ plainNode 3 "d" := by decide
  cases loop with
  | nil => exact absurd rfl nonempty
  | cons c loop =>
    obtain ⟨k, small, trail⟩ := fed c (around.trail.2 c mem_cons_self).1
    exact ⟨_, around.trail.1.1 ▸ trail, leaves k small⟩

end N8n.PartialExecution
