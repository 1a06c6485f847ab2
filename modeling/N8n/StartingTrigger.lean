import N8n.PartialExecution

/-! The trigger a partial execution starts from is one of the highest rank above its destination, and the
execution is partial only if a root above the destination has run. -/

namespace N8n.PartialExecution

open PartialExecution.DirectedGraph List

/-! ## The choice of the trigger -/

section Choice

variable {α : Type*} {rank : α → ℕ} {Eligible : α → Prop} {choice : Option α}

/-- There is a choice unless there is nothing to choose from, and it is one of the highest rank. -/
def Best (rank : α → ℕ) (Eligible : α → Prop) (choice : Option α) : Prop :=
  (∀ n, choice = some n → Eligible n) ∧ ∀ m, Eligible m → ∃ n, choice = some n ∧ rank m ≤ rank n

theorem Best.prefer (best : Best rank Eligible choice) (top : ℕ) (below : ∀ m, rank m ≤ top) {p : α → Bool}
    {preferred : List α} (mem : ∀ m, m ∈ preferred ↔ Eligible m ∧ p m = true) :
    Best (fun m => if p m then top else rank m) Eligible (preferred.head?.or choice) := by
  cases preferred with
  | nil =>
    have none : ∀ m, Eligible m → p m ≠ true := fun m eligible holds => not_mem_nil ((mem m).mpr ⟨eligible, holds⟩)
    refine ⟨best.1, fun m eligible => ?_⟩
    obtain ⟨n, chosen, higher⟩ := best.2 m eligible
    refine ⟨n, chosen, ?_⟩
    dsimp only
    rwa [if_neg (none m eligible), if_neg (none n (best.1 n chosen))]
  | cons first preferred =>
    obtain ⟨eligible, holds⟩ := (mem first).mp mem_cons_self
    refine ⟨fun n same => Option.some_inj.mp same ▸ eligible, fun m _ => ⟨first, rfl, ?_⟩⟩
    dsimp only
    rw [if_pos holds]
    split_ifs
    exacts [le_rfl, below m]

end Choice

section Trigger

open Option

variable (search : TriggerSearch) (workflow : Workflow) (destinationNodeName : String) (runData : RunData)

/-- An enabled trigger above the destination. -/
def ParentTrigger (trigger : GraphNode) : Prop :=
  (∃ name ∈ workflow.getParentNodes destinationNodeName, workflow.getNode name = some trigger) ∧
    search.isTriggerNode trigger = true ∧ trigger.disabled = false

def rank (trigger : GraphNode) : ℕ :=
  if runData.has trigger.name then 3 else if search.pinData.has trigger.name then 2
  else if isWebhook trigger then 1 else 0

variable {search workflow destinationNodeName runData} {destinationNode : GraphNode}

theorem exists_mapM {α β : Type*} {f : α → Option β} {xs : List α} (all : ∀ x ∈ xs, (f x).isSome = true) :
    ∃ ys, xs.mapM f = some ys ∧ ∀ y, y ∈ ys ↔ ∃ x ∈ xs, f x = some y := by
  induction xs with
  | nil => exact ⟨[], rfl, by simp⟩
  | cons x xs ih =>
    obtain ⟨⟨z, first⟩, rest⟩ := (forall_mem_cons.mp all).imp_left isSome_iff_exists.mp
    obtain ⟨ys, done, mem⟩ := ih rest
    refine ⟨z :: ys, by simp [mapM_cons, first, done], fun y => ?_⟩
    rw [mem_cons, mem, exists_mem_cons_iff, first, some.injEq, eq_comm]

/-- An enabled trigger is chosen for itself, and otherwise one above it of the highest rank: one that has run
comes before one with pinned data, then a webhook, then any other. -/
theorem findTriggerForPartialExecution_best (sorts : ∀ nodes, (search.webhooksFirst nodes).Perm nodes)
    (present : workflow.getNode destinationNodeName = some destinationNode)
    (stored : ∀ name ∈ workflow.getParentNodes destinationNodeName, (workflow.getNode name).isSome = true) :
    ∃ result, findTriggerForPartialExecution search workflow destinationNodeName runData = some result ∧
      if search.isTriggerNode destinationNode = true ∧ destinationNode.disabled = false then
        result = some destinationNode
      else Best (rank search runData) (ParentTrigger search workflow destinationNodeName) result := by
  obtain ⟨nodes, read, isParent⟩ := exists_mapM stored
  rw [findTriggerForPartialExecution, present, findAllParentTriggers, read]
  dsimp only
  simp only [Bool.and_eq_true, Bool.not_eq_true']
  split_ifs
  · exact ⟨_, rfl, rfl⟩
  simp only [Option.bind_eq_bind, Option.pure_def, bind_some]
  have mem : ∀ m, m ∈ (nodes.filter search.isTriggerNode).filter (!·.disabled) ↔
      ParentTrigger search workflow destinationNodeName m := by
    simp [ParentTrigger, isParent, and_comm]
  generalize (nodes.filter search.isTriggerNode).filter (!·.disabled) = parents at mem
  have filtered : ∀ (p : GraphNode → Bool) m,
      m ∈ parents.filter p ↔ ParentTrigger search workflow destinationNodeName m ∧ p m = true := by
    simp [mem]
  have any : Best (fun _ => 0) (ParentTrigger search workflow destinationNodeName) parents.head? := by
    refine ⟨fun n first => (mem n).mp (mem_of_head? first), fun m parent => ?_⟩
    obtain ⟨n, first⟩ := isSome_iff_exists.mp (isSome_head?.mpr (ne_nil_of_mem ((mem m).mpr parent)))
    exact ⟨n, first, le_rfl⟩
  have pinned := fun m => ((sorts (parents.filter (search.pinData.has ·.name))).mem_iff (a := m)).trans (filtered _ m)
  have best : Best (rank search runData) _ _ := ((any.prefer 1 (by simp) (filtered isWebhook)).prefer 2
    (fun m => by split_ifs <;> simp) pinned).prefer 3 (fun m => by split_ifs <;> simp) (filtered (runData.has ·.name))
  rw [head?_filter] at best
  refine ⟨_, ?_, best⟩
  cases parents.find? (runData.has ·.name) with
  | some trigger => rfl
  | none =>
    cases search.webhooksFirst (parents.filter (search.pinData.has ·.name)) with
    | cons trigger pinned => rfl
    | nil => cases parents.filter isWebhook <;> rfl

def enabledParent : Workflow :=
  { disabledParent with nodes := .set (.set .empty "p" (plainNode 0 "p")) "d" (plainNode 1 "d") }

def onlyTrigger : TriggerSearch := { noTriggers with isTriggerNode := (·.name = "p") }

theorem enabledParent_best : ∃ result, findTriggerForPartialExecution onlyTrigger enabledParent "d" .empty = some result ∧
    if onlyTrigger.isTriggerNode (plainNode 1 "d") = true ∧ (plainNode 1 "d").disabled = false then
      result = some (plainNode 1 "d")
    else Best (rank onlyTrigger .empty) (ParentTrigger onlyTrigger enabledParent "d") result :=
  @findTriggerForPartialExecution_best onlyTrigger enabledParent "d" .empty (plainNode 1 "d") (fun _ => .refl _)
    (by decide) (by decide)

end Trigger

/-! ## The reachable roots -/

def anyReachableRootHasRunData (graph : DirectedGraph) (destinationNodeName : String) (runData : RunData) :
    Option Bool :=
  match graph.nodes.get destinationNodeName with
  | none => some false
  | some destinationNode => do
    let parentConnections ← graph.getParentConnections destinationNode
    let parentNodes := parentConnections.foldl (fun nodes connection => addToSet nodes connection.fromNode) []
    let rootNodes ← parentNodes.foldlM (fun roots parentNode => do
      let connections ← graph.getDirectParentConnections parentNode
      return if connections.any (·.type = .main) then roots else addToSet roots parentNode) []
    return rootNodes.any (runData.has ·.name)

variable {graph : DirectedGraph} {destination n : GraphNode}

theorem mem_foldl_addToSet {α : Type*} {node : α → GraphNode} {keep : α → Prop} {xs : List α} {nodes : List GraphNode}
    {add : List GraphNode → α → List GraphNode} (adds : ∀ nodes x, n ∈ add nodes x ↔ n ∈ nodes ∨ keep x ∧ n = node x) :
    n ∈ xs.foldl add nodes ↔ n ∈ nodes ∨ ∃ x ∈ xs, keep x ∧ n = node x := by
  induction xs generalizing nodes with
  | nil => simp
  | cons x xs ih => rw [foldl_cons, ih, adds, exists_mem_cons_iff, or_assoc]

/-- The answer says whether a root has run from which any connections lead to the destination. -/
theorem anyReachableRootHasRunData_iff (closed : graph.Closed) (stored : graph.Stores destination) (runData : RunData) :
    ∃ answer, anyReachableRootHasRunData graph destination.name runData = some answer ∧
      (answer = true ↔ ∃ root, Descends graph root destination ∧ runData.has root.name = true ∧
        ∀ c ∈ graph.getConnections, c.type = .main → c.toNode ≠ root) := by
  obtain ⟨connections, found⟩ := Option.isSome_iff_exists.mp (getParentConnections_isSome.mpr (closed.storesAbove stored))
  rw [anyReachableRootHasRunData, show graph.nodes.get destination.name = some destination from stored]
  simp only [found, Option.bind_eq_bind, Option.bind_some]
  generalize parents : connections.foldl (fun nodes connection => addToSet nodes connection.fromNode) [] = parentNodes
  have mem (n : GraphNode) : n ∈ parentNodes ↔ Descends graph n destination := by
    have from_ : n ∈ parentNodes ↔ n ∈ [] ∨ ∃ c ∈ connections, True ∧ n = c.fromNode :=
      parents ▸ mem_foldl_addToSet fun nodes c => by rw [mem_addToSet, true_and]
    rw [from_]
    constructor
    · rintro (none | ⟨c, listed, _, rfl⟩)
      · cases none
      · obtain ⟨member, cs, trail⟩ := (mem_getParentConnections found).mp listed
        exact ⟨c :: cs, by simp, trail.cons member⟩
    · rintro ⟨cs, nonempty, trail⟩
      obtain ⟨c, cs, rfl⟩ := exists_cons_of_ne_nil nonempty
      have inside := forall_mem_cons.mp trail.2
      exact .inr ⟨c, (mem_getParentConnections found).mpr ⟨inside.1, cs, trail.1.2, inside.2⟩, trivial, trail.1.1.symm⟩
  have each : ∀ n ∈ parentNodes, ∀ roots : List GraphNode, True → (do
      let connections ← graph.getDirectParentConnections n
      return if connections.any (·.type = .main) then roots else addToSet roots n) =
        some (if (graph.getConnections.filter (·.toNode = n)).any (·.type = .main) then roots else addToSet roots n) ∧
          True := by
    intro n inside roots _
    obtain ⟨cs, _, trail⟩ := (mem n).mp inside
    rw [getDirectParentConnections, if_pos (closed.storesAbove stored cs n trail)]
    exact ⟨rfl, trivial⟩
  simp only [Option.bind_eq_bind] at each
  rw [(foldlM_eq_foldl each trivial).1]
  refine ⟨_, rfl, List.any_eq_true.trans (exists_congr fun n => ?_)⟩
  have adds : ∀ (roots : List GraphNode) (x : GraphNode),
      n ∈ (if (graph.getConnections.filter (·.toNode = x)).any (·.type = .main) then roots else addToSet roots x) ↔
        n ∈ roots ∨ (∀ c ∈ graph.getConnections, c.type = .main → c.toNode ≠ x) ∧ n = x := by
    intro roots x
    have root : (∀ c ∈ graph.getConnections, c.type = .main → c.toNode ≠ x) ↔
        ¬(graph.getConnections.filter (·.toNode = x)).any (·.type = .main) = true := by
      simp [imp_not_comm]
    rw [root]
    split_ifs with main <;> simp [main, mem_addToSet]
  rw [mem_foldl_addToSet adds, ← mem]
  simp [and_comm, and_left_comm]

theorem modelOf_ran : ∃ answer, anyReachableRootHasRunData (modelOf (plainNode 1 "b")) "b" allRan = some answer ∧
    (answer = true ↔ ∃ root, Descends (modelOf (plainNode 1 "b")) root (plainNode 1 "b") ∧
      allRan.has root.name = true ∧
        ∀ c ∈ (modelOf (plainNode 1 "b")).getConnections, c.type = .main → c.toNode ≠ root) :=
  @anyReachableRootHasRunData_iff (modelOf (plainNode 1 "b")) (plainNode 1 "b") (by decide) (by decide) allRan

end N8n.PartialExecution
