import N8n.ConnectedNodes
import N8n.CleanRunData
import N8n.FilteredSubgraph
import N8n.GraphExecutionStack
import N8n.GraphRoundTrip
import N8n.HandleCycles

/-! A partial execution is prepared by several passes over the graph, each of which asserts what
the passes before it should have established. The subgraph is closed, has no disabled nodes, and
what is found from its trigger is stored in it, so after the search for the subgraph nothing
fails if the trigger is in it; and the trigger is looked up there by the next passes. -/

namespace N8n.PartialExecution

open PartialExecution.DirectedGraph PartialExecution.GraphConnection

/-! ## The starting trigger -/

def Workflow.getParentNodes (workflow : Workflow) (nodeName : String) : List String :=
  getConnectedNodes (mapConnectionsByDestination workflow.connectionsBySourceNode) nodeName (.only .main) none

/-- What the trigger search asks of things outside the workflow: the groups of node types, the
pinned data of the workflow, and the order in which the engine leaves webhooks and others. -/
structure TriggerSearch where
  isTriggerNode : GraphNode → Bool
  pinData : PinData
  webhooksFirst : List GraphNode → List GraphNode

def findAllParentTriggers (search : TriggerSearch) (workflow : Workflow) (destinationNodeName : String) :
    Option (List GraphNode) := do
  let parentNodes ← (workflow.getParentNodes destinationNodeName).mapM workflow.getNode
  return parentNodes.filter search.isTriggerNode

def isWebhook (node : GraphNode) : Bool := "webhook".toList.isSuffixOf node.type.toList

/-- `undefined` where there is no trigger; a parent that is not in the workflow fails an assertion. -/
def findTriggerForPartialExecution (search : TriggerSearch) (workflow : Workflow) (destinationNodeName : String)
    (runData : RunData) : Option (Option GraphNode) :=
  match workflow.getNode destinationNodeName with
  | none => some none
  | some destinationNode =>
    if search.isTriggerNode destinationNode && !destinationNode.disabled then some (some destinationNode)
    else do
      let parentTriggers := (← findAllParentTriggers search workflow destinationNodeName).filter (!·.disabled)
      match parentTriggers.find? (runData.has ·.name) with
      | some trigger => return some trigger
      | none =>
        let pinnedTriggers := search.webhooksFirst (parentTriggers.filter (search.pinData.has ·.name))
        if pinnedTriggers.length ≠ 0 then return pinnedTriggers.head?
        else
          let webhookTriggers := parentTriggers.filter isWebhook
          return if 0 < webhookTriggers.length then webhookTriggers.head? else parentTriggers.head?

def findStartingTrigger (search : TriggerSearch) (workflow : Workflow) (destinationNodeName : String)
    (runData : RunData) : Option (Option GraphNode) := do
  match ← findTriggerForPartialExecution search workflow destinationNodeName runData with
  | some trigger => return some trigger
  | none => return ((workflow.getParentNodes destinationNodeName).find? (runData.has ·)).bind workflow.getNode

/-! ## The passes -/

def DirectedGraph.getNodesByNames (graph : DirectedGraph) (names : List String) : List GraphNode :=
  names.foldl (fun nodes name => (graph.nodes.get name).elim nodes (addToSet nodes)) []

def restartSubgraph (localeLE : String → String → Bool) (graph : DirectedGraph) (trigger destination : GraphNode)
    (runData : RunData) (pinData : PinData) (dirtyNodeNames : List String) : Except Failure RecreatedStack := do
  let dirtyNodes := graph.getNodesByNames dirtyNodeNames
  let runData ← asserted (cleanRunData runData graph dirtyNodes)
  let startNodes ← findStartNodes graph trigger destination pinData runData
  let startNodes ← asserted (handleCycles graph startNodes trigger)
  let runData ← asserted (cleanRunData runData graph startNodes)
  recreateNodeExecutionStack localeLE graph startNodes runData pinData

/-- The passes of `runPartialWorkflow2` on the graph of the workflow. -/
def runPartialWorkflow2 (localeLE : String → String → Bool) (graph : DirectedGraph) (trigger destination : GraphNode)
    (runData : RunData) (pinData : PinData) (dirtyNodeNames : List String) : Except Failure RecreatedStack := do
  let filteredGraph ← asserted (filterDisabledNodes graph)
  let graph ← asserted (findSubgraph filteredGraph destination trigger)
  restartSubgraph localeLE graph trigger destination runData pinData dirtyNodeNames

section Assertions

variable {graph sub : DirectedGraph} {trigger destination current : GraphNode} {runData : RunData} {pinData : PinData}
  {dirtyNodeNames : List String} {localeLE : String → String → Bool} {startNodes seen : List GraphNode}

theorem getNodesByNames_stores (graph : DirectedGraph) (names : List String) :
    ∀ n ∈ graph.getNodesByNames names, graph.Stores n := by
  rw [getNodesByNames]
  have each : ∀ nodes : List GraphNode, (∀ n ∈ nodes, graph.Stores n) →
      ∀ n ∈ names.foldl (fun nodes name => (graph.nodes.get name).elim nodes (addToSet nodes)) nodes, graph.Stores n := by
    induction names with
    | nil => exact fun nodes stored => stored
    | cons name names ih =>
      intro nodes stored
      refine ih _ fun n member => ?_
      dsimp only at member
      cases found : graph.nodes.get name with
      | none =>
        rw [found] at member
        exact stored n member
      | some node =>
        rw [found] at member
        rcases mem_addToSet.mp member with old | rfl
        · exact stored n old
        · obtain rfl := graph.named name n found
          exact found
  exact each [] (by simp)

theorem findStartNodesRecursive_ne_assertion {fuel : ℕ} (closed : graph.Closed) (stored : graph.Stores current) :
    findStartNodesRecursive graph destination runData pinData fuel current startNodes seen ≠ .error .assertion := by
  induction fuel generalizing current startNodes seen with
  | zero => simp [findStartNodesRecursive]
  | succ fuel ih =>
    obtain ⟨children, found⟩ := Option.isSome_iff_exists.mp (getChildren_isSome.mpr (closed.storesBelow stored))
    have asks : loopNotDone graph runData current ≠ .error .assertion := by
      rw [loopNotDone, isALoop, found]
      split
      · exact bind_ne_error (ok_ne_error _) fun aLoop _ =>
          bind_ne_error getIncomingData_ne_assertion fun items _ => ok_ne_error _
      · exact ok_ne_error _
    rw [findStartNodesRecursive]
    split
    · exact ok_ne_error _
    split
    · exact ok_ne_error _
    refine bind_ne_error asks fun answer _ => ?_
    split
    · exact ok_ne_error _
    split
    · exact ok_ne_error _
    rw [getDirectChildConnections, if_pos stored]
    refine bind_ne_error (ok_ne_error _) fun connections isChildren => ?_
    obtain rfl := Except.ok.inj isChildren
    refine foldlM_ne_error fun c member s => ?_
    refine bind_ne_error getIncomingDataFromAnyRun_ne_assertion fun data _ => ?_
    dsimp only
    split
    · exact ok_ne_error _
    · exact ih (closed c (List.mem_filter.mp member).1).2

theorem findStartNodes_absent (absent : ¬graph.Stores trigger) :
    findStartNodes graph trigger destination pinData runData = .ok [trigger] ∨
      findStartNodes graph trigger destination pinData runData = .error .assertion := by
  have noChildren : graph.getChildren trigger = none := by
    rw [← Option.not_isSome_iff_eq_none, getChildren_isSome]
    exact fun below => absent (below [] trigger (.nil graph trigger))
  rw [findStartNodes, findStartNodesRecursive]
  split
  · exact .inl rfl
  split
  · exact .inl rfl
  rw [loopNotDone]
  split
  · rw [isALoop, noChildren]
    exact .inr rfl
  · rw [getDirectChildConnections, if_neg absent]
    exact .inr rfl

theorem restartSubgraph_absent (absent : ¬sub.Stores trigger) :
    restartSubgraph localeLE sub trigger destination runData pinData dirtyNodeNames = .error .assertion := by
  rw [restartSubgraph]
  cases cleaned : cleanRunData runData sub (sub.getNodesByNames dirtyNodeNames) with
  | none => rfl
  | some cleanedData =>
    rw [asserted_some_bind]
    have start : findStartNodes sub trigger destination pinData cleanedData = .ok [trigger] ∨ _ :=
      findStartNodes_absent absent
    rcases start with only | thrown
    · rw [only, ok_bind]
      cases handled : handleCycles sub [trigger] trigger with
      | none => rfl
      | some nodes =>
        obtain rfl := handleCycles_absent absent handled
        have fails : cleanRunData cleanedData sub [trigger] = none := by
          rw [Option.eq_none_iff_forall_ne_some]
          exact fun result done => absent (stores_of_cleanRunData done List.mem_cons_self)
        rw [asserted_some_bind, fails, asserted_none_bind]
    · rw [thrown]
      rfl

theorem restartSubgraph_ne_assertion (closed : sub.Closed) (enabled : ∀ n, sub.Stores n → n.disabled = false)
    (stored : sub.Stores trigger) :
    restartSubgraph localeLE sub trigger destination runData pinData dirtyNodeNames ≠ .error .assertion := by
  obtain ⟨cleanedData, cleaned⟩ : ∃ result, cleanRunData runData sub (sub.getNodesByNames dirtyNodeNames) =
      some result := cleanRunData_isSome closed (getNodesByNames_stores sub dirtyNodeNames)
  rw [restartSubgraph, cleaned, asserted_some_bind]
  refine bind_ne_error (findStartNodesRecursive_ne_assertion closed stored) fun startNodes found => ?_
  have reached : ∀ n ∈ startNodes, ∃ cs, ConnectionTrail sub trigger cs n := by
    intro n member
    obtain ⟨_, cs, reusable⟩ := (mem_findStartNodes found).mp member
    exact ⟨cs, reusable.trail⟩
  obtain ⟨newStartNodes, handled, storedNew⟩ := handleCycles_isSome closed stored reached
  obtain ⟨finalData, cleanedAgain⟩ : ∃ result, cleanRunData cleanedData sub newStartNodes = some result :=
    cleanRunData_isSome closed storedNew
  rw [handled, asserted_some_bind, cleanedAgain, asserted_some_bind]
  exact recreateNodeExecutionStack_ne_assertion enabled storedNew

/-- The passes fail none of their assertions exactly when the trigger is enabled, no cycle of
disabled nodes goes on to the destination, and the trigger reaches the destination. -/
theorem runPartialWorkflow2_asserts_iff (closed : graph.Closed) (unambiguous : Unambiguous graph)
    (triggerStored : graph.Stores trigger) (destinationStored : graph.Stores destination)
    (destinationEnabled : destination.disabled = false) :
    runPartialWorkflow2 localeLE graph trigger destination runData pinData dirtyNodeNames ≠ .error .assertion ↔
      trigger.disabled = false ∧ Intact graph destination ∧ Reached graph trigger destination := by
  obtain ⟨filtered, done, removed⟩ := filterDisabledNodes_removed closed unambiguous
  have destinationLeft : filtered.Stores destination := removed.stores_iff.mpr ⟨destinationStored, destinationEnabled⟩
  rw [runPartialWorkflow2, done, asserted_some_bind]
  constructor
  · intro passes
    cases found : findSubgraph filtered destination trigger with
    | none =>
      rw [found] at passes
      exact absurd rfl passes
    | some sub =>
      rw [found, asserted_some_bind] at passes
      have inside : sub.Stores trigger := by
        by_contra absent
        exact passes (restartSubgraph_absent absent)
      have triggerLeft := stores_of_findSubgraph found inside
      have triggerEnabled := (removed.stores_iff.mp triggerLeft).2
      have above := storesAbove_of_findSubgraph triggerLeft found inside
      exact ⟨triggerEnabled, (removed.storesAbove_iff closed destinationLeft).mp above,
        (removed.triggerKept_iff closed triggerEnabled destinationEnabled above).mp
          ((stores_trigger_iff triggerLeft found).mp inside)⟩
  · rintro ⟨triggerEnabled, intact, reached⟩
    have triggerLeft : filtered.Stores trigger := removed.stores_iff.mpr ⟨triggerStored, triggerEnabled⟩
    have above := (removed.storesAbove_iff closed destinationLeft).mpr intact
    obtain ⟨sub, found, part⟩ := findSubgraph_isSome triggerLeft above
    have inside : sub.Stores trigger := (stores_trigger_iff triggerLeft found).mpr
      ((removed.triggerKept_iff closed triggerEnabled destinationEnabled above).mpr reached)
    rw [found, asserted_some_bind]
    exact restartSubgraph_ne_assertion part.closed
      (fun n storedN => (removed.stores_iff.mp (part.stores n storedN)).2) inside

end Assertions

/-- A row of disabled nodes from the trigger to the destination. -/
theorem disabledRow_passes : runPartialWorkflow2 (fun _ _ => true) disabledRow (plainNode 0 "a") (plainNode 3 "d")
    .empty .empty [] ≠ .error .assertion := by
  have closed : disabledRow.Closed := by decide
  have dashFree : ∀ node ∈ disabledRow.getNodes, '-' ∉ node.name.toList := by decide
  have increases : ∀ c ∈ disabledRow.getConnections, c.fromNode.identity < c.toNode.identity := by decide
  refine (runPartialWorkflow2_asserts_iff closed (unambiguous_of_names closed dashFree) (by decide) (by decide)
    rfl).mpr ⟨rfl, fun n o i _ back => ?_, .inl ⟨disabledRow.getConnections, by decide⟩⟩
  exact absurd (back.rank_lt (·.identity) fun u o v i edge => increases _ edge) (Nat.lt_irrefl _)

def disabledParent : Workflow where
  nodes := (OrderedMap.empty.set "p" (disabledNode 0 "p")).set "d" (plainNode 1 "d")
  connectionsBySourceNode := OrderedMap.empty.set "p" (OrderedMap.empty.set .main [some [⟨"d", .main, 0⟩]])

def noTriggers : TriggerSearch where
  isTriggerNode := fun _ => false
  pinData := .empty
  webhooksFirst := id

theorem disabledParent_asserts :
    findStartingTrigger noTriggers disabledParent "d" (mainRunData "p") = some (some (disabledNode 0 "p")) ∧
      disabledParent.getNode "d" = some (plainNode 1 "d") ∧
        (fromWorkflow disabledParent).map (fun graph => runPartialWorkflow2 (fun _ _ => true) graph (disabledNode 0 "p")
          (plainNode 1 "d") (mainRunData "p") .empty []) = some (.error .assertion) := by
  refine ⟨by decide, by decide, ?_⟩
  rfl

end N8n.PartialExecution
