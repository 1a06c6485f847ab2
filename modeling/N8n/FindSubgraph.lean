import N8n.GraphTraversal

/-! The search for the part of a graph between a trigger and a destination. It goes from the
destination against the main connections and keeps a branch that gets to the trigger or
back to a node on the branch other than the destination. The connections kept are those of
such branches, which are trails that meet every node once before they stop. -/

namespace N8n.PartialExecution

open PartialExecution.DirectedGraph PartialExecution.GraphConnection List
open Option hiding or_assoc or_self

/-- `addNodes(connection.from, connection.to)` and `addConnection(connection)`. -/
def keepConnection (newGraph : DirectedGraph) (c : GraphConnection) : Option DirectedGraph :=
  (newGraph.addNodes [c.fromNode, c.toNode]).addConnection c.input

def keepBranch (newGraph : DirectedGraph) (currentBranch : List GraphConnection) : Option DirectedGraph :=
  currentBranch.foldlM keepConnection newGraph

/-- The nodes that the connections of a branch enter differ, so `fuel` does not run out when
it exceeds the number of nodes. -/
def findSubgraphRecursive (graph : DirectedGraph) (destinationNode trigger : GraphNode) :
    (fuel : ℕ) → (current : GraphNode) → (newGraph : DirectedGraph) →
    (currentBranch : List GraphConnection) → Option DirectedGraph
  | 0, _, newGraph, _ => some newGraph
  | fuel + 1, current, newGraph, currentBranch =>
    if current = trigger then keepBranch (newGraph.addNode trigger) currentBranch
    else do
      let parentConnections ← graph.getDirectParentConnections current
      if parentConnections.length = 0 then some newGraph
      else if current = destinationNode ∧ currentBranch.any (·.toNode = destinationNode) then some newGraph
      else if currentBranch.any (·.toNode = current) then keepBranch newGraph currentBranch
      else parentConnections.foldlM (fun newGraph parentConnection =>
        if parentConnection.type ≠ .main then some newGraph
        else findSubgraphRecursive graph destinationNode trigger fuel parentConnection.fromNode newGraph
          (currentBranch ++ [parentConnection])) newGraph

namespace DirectedGraph

/-- Nested calls add a connection each, so `fuel` does not run out when it exceeds their number. -/
def getParentConnectionsRecursive (graph : DirectedGraph) :
    (fuel : ℕ) → (node : GraphNode) → (connections : List GraphConnection) → Option (List GraphConnection)
  | 0, _, connections => some connections
  | fuel + 1, node, connections => do
    let parentConnections ← graph.getDirectParentConnections node
    parentConnections.foldlM (fun connections connection =>
      if connection ∈ connections then some connections
      else getParentConnectionsRecursive graph fuel connection.fromNode (connections ++ [connection])) connections

def getParentConnections (graph : DirectedGraph) (node : GraphNode) : Option (List GraphConnection) :=
  graph.getParentConnectionsRecursive (graph.getConnections.length + 1) node []

end DirectedGraph

def readdUtilities (graph subgraph : DirectedGraph) (node : GraphNode) : Option DirectedGraph := do
  let parentConnections ← graph.getParentConnections node
  parentConnections.foldlM (fun subgraph connection =>
    if connection.type = .main then some subgraph else keepConnection subgraph connection) subgraph

def findSubgraph (graph : DirectedGraph) (destination trigger : GraphNode) : Option DirectedGraph := do
  let subgraph ← findSubgraphRecursive graph destination trigger (graph.getNodes.length + 1) destination .empty []
  subgraph.getNodes.foldlM (readdUtilities graph) subgraph

/-! ## Growing a part of the graph -/

structure Part (graph sub : DirectedGraph) : Prop where
  stores : ∀ x, sub.Stores x → graph.Stores x
  connections : ∀ c ∈ sub.getConnections, c ∈ graph.getConnections
  closed : sub.Closed

structure Grown (graph sub : DirectedGraph) (added : GraphConnection → Prop) (next : DirectedGraph) : Prop where
  part : Part graph next
  kept : ∀ x, sub.Stores x → next.Stores x
  connections : ∀ c, c ∈ next.getConnections ↔ c ∈ sub.getConnections ∨ added c

section Growing

variable {graph sub next : DirectedGraph} {node : GraphNode} {c : GraphConnection}

theorem Part.empty (graph : DirectedGraph) : Part graph .empty where
  stores := fun _ stored => by cases stored
  connections := fun _ member => by cases member
  closed := by decide

variable {x : GraphNode} {branch : List GraphConnection}

section

variable (part : Part graph sub) (stored : graph.Stores node)
include part stored

theorem Part.stores_addNode : (sub.addNode node).Stores x ↔ x = node ∨ sub.Stores x := by
  rw [DirectedGraph.stores_addNode]
  constructor
  · rintro (same | ⟨_, old⟩)
    · exact .inl same
    · exact .inr old
  · rintro (same | old)
    · exact .inl same
    · by_cases name : x.name = node.name
      · exact .inl ((part.stores x old).eq_of_name stored name)
      · exact .inr ⟨name, old⟩

theorem Part.addNode : Part graph (sub.addNode node) where
  stores := fun x inside => by
    rcases (part.stores_addNode stored).mp inside with rfl | old
    · exact stored
    · exact part.stores x old
  connections := part.connections
  closed := fun c member => by
    have ends := part.closed c member
    exact ⟨(part.stores_addNode stored).mpr (.inr ends.1), (part.stores_addNode stored).mpr (.inr ends.2)⟩

theorem Grown.addNode : Grown graph sub (fun _ => False) (sub.addNode node) where
  part := part.addNode stored
  kept := fun _ inside => (part.stores_addNode stored).mpr (.inr inside)
  connections := fun c => by simp

end

theorem Grown.trans {last : DirectedGraph} {one two : GraphConnection → Prop} (first : Grown graph sub one next)
    (second : Grown graph next two last) : Grown graph sub (fun c => one c ∨ two c) last where
  part := second.part
  kept := fun x inside => second.kept x (first.kept x inside)
  connections := fun c => by rw [second.connections, first.connections, or_assoc]

theorem Grown.congr {one two : GraphConnection → Prop} (grown : Grown graph sub one next)
    (same : ∀ c, one c ↔ two c) : Grown graph sub two next where
  part := grown.part
  kept := grown.kept
  connections := fun c => by rw [grown.connections, same]

theorem Grown.refl (part : Part graph sub) : Grown graph sub (fun _ => False) sub where
  part := part
  kept := fun _ => id
  connections := fun c => by simp

structure Sound (graph : DirectedGraph) (c : GraphConnection) : Prop where
  member : c ∈ graph.getConnections
  fromStored : graph.Stores c.fromNode
  toStored : graph.Stores c.toNode

theorem keepConnection_grown (part : Part graph sub) (sound : Sound graph c) :
    ∃ next, keepConnection sub c = some next ∧ Grown graph sub (· = c) next := by
  have member := sound.member
  have ends := And.intro sound.fromStored sound.toStored
  let mid := (sub.addNode c.fromNode).addNode c.toNode
  have partMid : Part graph mid := (part.addNode ends.1).addNode ends.2
  have storesMid : ∀ x, mid.Stores x ↔ x = c.toNode ∨ x = c.fromNode ∨ sub.Stores x := fun x => by
    rw [(part.addNode ends.1).stores_addNode ends.2, part.stores_addNode ends.1]
  have stored : mid.Stores c.fromNode ∧ mid.Stores c.toNode := by simp [storesMid]
  have connections : ∀ d, d ∈ (mid.setConnection c).getConnections ↔ d ∈ sub.getConnections ∨ d = c := by
    intro d
    rw [mem_setConnection]
    constructor
    · rintro (same | ⟨_, old⟩)
      · exact .inr same
      · exact .inl old
    · rintro (old | same)
      · by_cases key : makeKey d = makeKey c
        · exact .inl (eq_of_makeKey (part.connections d old) member key)
        · exact .inr ⟨key, old⟩
      · exact .inl same
  have closedNext : (mid.setConnection c).Closed := by
    intro d inside
    rcases (connections d).mp inside with old | rfl
    · exact partMid.closed d old
    · exact stored
  refine ⟨mid.setConnection c, if_pos stored, ⟨⟨partMid.stores, ?_, closedNext⟩, ?_, connections⟩⟩
  · intro d inside
    rcases (connections d).mp inside with old | rfl
    · exact part.connections d old
    · exact member
  · exact fun x old => (storesMid x).mpr (.inr (.inr old))

theorem keepConnection_stores (done : keepConnection sub c = some next) (inside : next.Stores x) :
    x = c.fromNode ∨ x = c.toNode ∨ sub.Stores x := by
  rw [keepConnection, addConnection, ite_none_right_eq_some] at done
  obtain rfl := some.inj done.2
  have added : ((sub.addNode c.fromNode).addNode c.toNode).Stores x := inside
  rw [DirectedGraph.stores_addNode, DirectedGraph.stores_addNode] at added
  rcases added with isTo | ⟨_, isFrom | ⟨_, old⟩⟩
  · exact .inr (.inl isTo)
  · exact .inl isFrom
  · exact .inr (.inr old)

theorem keepBranch_stores (done : keepBranch sub branch = some next) (inside : next.Stores x) :
    sub.Stores x ∨ ∃ c ∈ branch, x = c.fromNode ∨ x = c.toNode := by
  refine foldlM_invariant (I := fun s : DirectedGraph => s.Stores x → sub.Stores x ∨ ∃ c ∈ branch, x = c.fromNode ∨
    x = c.toNode) (fun c member s next before step inNext => ?_) .inl done inside
  rcases keepConnection_stores step inNext with isFrom | isTo | old
  · exact .inr ⟨c, member, .inl isFrom⟩
  · exact .inr ⟨c, member, .inr isTo⟩
  · exact before old

theorem grown_foldlM {β : Type*} {xs : List β} {step : DirectedGraph → β → Option DirectedGraph}
    {added : β → GraphConnection → Prop}
    (each : ∀ x ∈ xs, ∀ sub next, Part graph sub → step sub x = some next → Grown graph sub (added x) next)
    (part : Part graph sub) (done : xs.foldlM step sub = some next) :
    Grown graph sub (fun c => ∃ x ∈ xs, added x c) next := by
  induction xs generalizing sub with
  | nil =>
    obtain rfl := some.inj done
    exact (Grown.refl part).congr (by simp)
  | cons x xs ih =>
    obtain ⟨mid, first, rest⟩ := foldlM_cons_eq_some.mp done
    have grown := each x mem_cons_self sub mid part first
    have grownRest := ih (fun y member => each y (mem_cons_of_mem _ member)) grown.part rest
    exact (grown.trans grownRest).congr (by simp)

theorem keepBranch_grown (part : Part graph sub) (sound : ∀ c ∈ branch, Sound graph c) :
    ∃ next, keepBranch sub branch = some next ∧ Grown graph sub (· ∈ branch) next := by
  have each : ∀ c ∈ branch, ∀ sub, Part graph sub → ∃ next, keepConnection sub c = some next ∧ Part graph next := by
    intro c member sub part
    obtain ⟨next, done, grown⟩ := keepConnection_grown part (sound c member)
    exact ⟨next, done, grown.part⟩
  have exactly : ∀ c ∈ branch, ∀ sub next, Part graph sub → keepConnection sub c = some next →
      Grown graph sub (· = c) next := by
    intro c member sub next part done
    obtain ⟨again, doneAgain, grown⟩ := keepConnection_grown part (sound c member)
    rw [done, some.injEq] at doneAgain
    exact doneAgain ▸ grown
  obtain ⟨next, done, _⟩ := foldlM_isSome each part
  exact ⟨next, done, (grown_foldlM exactly part done).congr (by simp)⟩

end Growing

/-! ## The branches that are kept -/

section Branches

variable {graph sub next : DirectedGraph} {destination trigger current last : GraphNode}
  {branch ext : List GraphConnection} {c : GraphConnection}

/-- How the search goes on from a node that a branch has come to, up to where the branch is kept. -/
structure Kept (graph : DirectedGraph) (destination trigger current : GraphNode)
    (branch ext : List GraphConnection) (last : GraphNode) : Prop where
  trail : Trail GraphConnection.toNode GraphConnection.fromNode current ext last
  main : ∀ c ∈ ext, c ∈ graph.getConnections ∧ c.type = .main
  distinct : ((branch ++ ext).map GraphConnection.toNode).Nodup
  before : ∀ c ∈ ext, c.toNode ≠ trigger
  stop : last = trigger ∨ last ≠ destination ∧ last ∈ (branch ++ ext).map GraphConnection.toNode

theorem kept_nil (distinct : (branch.map toNode).Nodup) :
    Kept graph destination trigger current branch [] last ↔
      current = last ∧ (last = trigger ∨ last ≠ destination ∧ last ∈ branch.map toNode) := by
  constructor
  · intro kept
    have stop := kept.stop
    rw [append_nil] at stop
    exact ⟨kept.trail, stop⟩
  · rintro ⟨same, stop⟩
    exact ⟨same, by simp, by simpa using distinct, by simp, by simpa using stop⟩

theorem kept_cons : Kept graph destination trigger current branch (c :: ext) last ↔
    c.toNode = current ∧ c ∈ graph.getConnections ∧ c.type = .main ∧ current ≠ trigger ∧
      Kept graph destination trigger c.fromNode (branch ++ [c]) ext last := by
  have move : branch ++ c :: ext = branch ++ [c] ++ ext := by simp
  constructor
  · intro kept
    have here := kept.main c mem_cons_self
    refine ⟨kept.trail.1, here.1, here.2, kept.trail.1 ▸ kept.before c mem_cons_self, kept.trail.2,
      fun d member => kept.main d (mem_cons_of_mem _ member), move ▸ kept.distinct,
      fun d member => kept.before d (mem_cons_of_mem _ member), move ▸ kept.stop⟩
  · rintro ⟨enters, member, isMain, notTrigger, kept⟩
    refine ⟨⟨enters, kept.trail⟩, ?_, move ▸ kept.distinct, ?_, move ▸ kept.stop⟩
    · exact forall_mem_cons.mpr ⟨⟨member, isMain⟩, kept.main⟩
    · exact forall_mem_cons.mpr ⟨enters ▸ notTrigger, kept.before⟩

def OnKept (graph : DirectedGraph) (destination trigger current : GraphNode) (branch : List GraphConnection)
    (fuel : ℕ) (c : GraphConnection) : Prop :=
  ∃ ext last, Kept graph destination trigger current branch ext last ∧ ext.length < fuel ∧ c ∈ branch ++ ext

variable {fuel : ℕ}

theorem onKept_of_stop (distinct : (branch.map toNode).Nodup)
    (stops : ∀ p ext last, ¬Kept graph destination trigger current branch (p :: ext) last) :
    OnKept graph destination trigger current branch (fuel + 1) c ↔
      (current = trigger ∨ current ≠ destination ∧ current ∈ branch.map toNode) ∧ c ∈ branch := by
  constructor
  · rintro ⟨ext, last, kept, _, member⟩
    cases ext with
    | nil =>
      obtain ⟨rfl, stop⟩ := (kept_nil distinct).mp kept
      exact ⟨stop, by simpa using member⟩
    | cons p ext => exact absurd kept (stops p ext last)
  · rintro ⟨stop, member⟩
    exact ⟨[], current, (kept_nil distinct).mpr ⟨rfl, stop⟩, Nat.succ_pos fuel, by simpa using member⟩

theorem onKept_of_go (distinct : (branch.map toNode).Nodup) (notTrigger : current ≠ trigger)
    (new : current ∉ branch.map toNode) :
    OnKept graph destination trigger current branch (fuel + 1) c ↔
      ∃ p ∈ graph.getConnections.filter (·.toNode = current),
        p.type = .main ∧ OnKept graph destination trigger p.fromNode (branch ++ [p]) fuel c := by
  constructor
  · rintro ⟨ext, last, kept, short, member⟩
    cases ext with
    | nil =>
      obtain ⟨rfl, stop⟩ := (kept_nil distinct).mp kept
      rcases stop with same | ⟨_, old⟩
      · exact absurd same notTrigger
      · exact absurd old new
    | cons p ext =>
      obtain ⟨enters, inGraph, isMain, _, rest⟩ := kept_cons.mp kept
      refine ⟨p, mem_filter.mpr ⟨inGraph, by simpa using enters⟩, isMain, ext, last, rest,
        Nat.lt_of_succ_lt_succ short, by simpa using member⟩
  · rintro ⟨p, isParent, isMain, ext, last, rest, short, member⟩
    simp only [mem_filter, decide_eq_true_eq] at isParent
    exact ⟨p :: ext, last, kept_cons.mpr ⟨isParent.2, isParent.1, isMain, notTrigger, rest⟩,
      Nat.succ_lt_succ short, by simpa using member⟩

/-- The connections of a branch that has come to a node: all their ends are stored once the
node is. -/
structure Leading (graph : DirectedGraph) (current : GraphNode) (c : GraphConnection) : Prop where
  member : c ∈ graph.getConnections
  toStored : graph.Stores c.toNode
  fromCases : c.fromNode = current ∨ graph.Stores c.fromNode

theorem Leading.sound (leading : Leading graph current c) (stored : graph.Stores current) : Sound graph c where
  member := leading.member
  toStored := leading.toStored
  fromStored := leading.fromCases.elim (fun same => same ▸ stored) id

theorem leading_concat (leading : ∀ c ∈ branch, Leading graph current c) (stored : graph.Stores current)
    (parent : c ∈ graph.getConnections.filter (·.toNode = current)) :
    ∀ d ∈ branch ++ [c], Leading graph c.fromNode d := by
  simp only [mem_filter, decide_eq_true_eq] at parent
  refine forall_mem_append.mpr ⟨fun d member => ?_, forall_mem_singleton.mpr ?_⟩
  · have sound := (leading d member).sound stored
    exact ⟨sound.member, sound.toStored, .inr sound.fromStored⟩
  · exact ⟨parent.1, parent.2 ▸ stored, .inl rfl⟩

theorem distinct_concat (distinct : (branch.map toNode).Nodup)
    (new : current ∉ branch.map toNode)
    (parent : c ∈ graph.getConnections.filter (·.toNode = current)) :
    ((branch ++ [c]).map toNode).Nodup := by
  simp only [mem_filter, decide_eq_true_eq] at parent
  rw [map_append, nodup_append]
  refine ⟨distinct, by simp, ?_⟩
  rintro a ha b hb rfl
  exact new (parent.2 ▸ mem_singleton.mp hb ▸ ha)

/-- What the branches met so far say about prolonging one more. -/
theorem not_kept_of_visited (old : current ∈ branch.map toNode) (p : GraphConnection)
    (ext : List GraphConnection) (last : GraphNode) :
    ¬Kept graph destination trigger current branch (p :: ext) last := by
  intro kept
  have distinctAll := kept.distinct
  rw [map_append, nodup_append] at distinctAll
  exact distinctAll.2.2 current old p.toNode (by simp) (kept_cons.mp kept).1.symm

theorem visited_iff : (∃ x ∈ branch, x.toNode = current) ↔ current ∈ branch.map toNode :=
  List.mem_map.symm

theorem keepBranch_adds (part : Part graph sub) (sound : ∀ c ∈ branch, Sound graph c)
    (done : keepBranch sub branch = some next) : Grown graph sub (· ∈ branch) next := by
  obtain ⟨again, doneAgain, grown⟩ := keepBranch_grown part sound
  rw [done, some.injEq] at doneAgain
  exact doneAgain ▸ grown

/-- What a call does: it keeps the branch at the trigger and where the branch closes, it gives the branch
up where nothing leads on or the destination closes it, and it goes on along the parents otherwise. -/
theorem findSubgraphRecursive_cases
    (done : findSubgraphRecursive graph destination trigger (fuel + 1) current sub branch = some next) :
    current = trigger ∧ keepBranch (sub.addNode trigger) branch = some next ∨
      current ≠ trigger ∧ graph.Stores current ∧
        ((∀ p ∈ graph.getConnections, p.toNode ≠ current) ∧ next = sub ∨
          current = destination ∧ current ∈ branch.map toNode ∧ next = sub ∨
          current ≠ destination ∧ current ∈ branch.map toNode ∧ keepBranch sub branch = some next ∨
          current ∉ branch.map toNode ∧ (graph.getConnections.filter (·.toNode = current)).foldlM (fun sub p =>
            if p.type ≠ .main then some sub
            else findSubgraphRecursive graph destination trigger fuel p.fromNode sub (branch ++ [p])) sub = some next) := by
  rw [findSubgraphRecursive] at done
  by_cases isTrigger : current = trigger
  · rw [if_pos isTrigger] at done
    exact .inl ⟨isTrigger, done⟩
  have stored : graph.Stores current := by
    by_contra absent
    simp [isTrigger, getDirectParentConnections, absent] at done
  rw [if_neg isTrigger, getDirectParentConnections, if_pos stored] at done
  simp only [bind_eq_bind, bind_some, List.any_eq_true, decide_eq_true_eq, visited_iff] at done
  refine .inr ⟨isTrigger, stored, ?_⟩
  split at done
  · rename_i none
    exact .inl ⟨by simpa using length_eq_zero_iff.mp none, (some.inj done).symm⟩
  split at done
  · rename_i cycle
    exact .inr (.inl ⟨cycle.1, cycle.1 ▸ cycle.2, (some.inj done).symm⟩)
  split at done
  · rename_i notDestination old
    exact .inr (.inr (.inl ⟨fun same => notDestination ⟨same, same ▸ old⟩, old, done⟩))
  · rename_i new
    exact .inr (.inr (.inr ⟨new, done⟩))

theorem findSubgraphRecursive_grown (triggerStored : graph.Stores trigger)
    (leading : ∀ c ∈ branch, Leading graph current c)
    (distinct : (branch.map toNode).Nodup) (part : Part graph sub)
    (done : findSubgraphRecursive graph destination trigger fuel current sub branch = some next) :
    Grown graph sub (OnKept graph destination trigger current branch fuel) next := by
  induction fuel generalizing current branch sub next with
  | zero =>
    obtain rfl := some.inj done
    exact (Grown.refl part).congr (by simp [OnKept])
  | succ fuel ih =>
    rcases findSubgraphRecursive_cases done with ⟨isTrigger, done⟩ | ⟨isTrigger, stored, call⟩
    · have grown := keepBranch_adds (part.addNode triggerStored)
        (fun c member => (leading c member).sound (isTrigger ▸ triggerStored)) done
      refine ((Grown.addNode part triggerStored).trans grown).congr fun c => ?_
      rw [onKept_of_stop distinct fun p ext last kept => (kept_cons.mp kept).2.2.2.1 isTrigger]
      simp [isTrigger]
    rcases call with ⟨orphan, rfl⟩ | ⟨same, old, rfl⟩ | ⟨different, old, done⟩ | ⟨new, done⟩
    · refine (Grown.refl part).congr fun c => ?_
      rw [onKept_of_stop distinct fun p ext last kept =>
        orphan p (kept_cons.mp kept).2.1 (kept_cons.mp kept).1]
      have fresh : current ∉ branch.map toNode := by
        rw [← visited_iff]
        rintro ⟨p, member, enters⟩
        exact orphan p (leading p member).member enters
      simp [isTrigger, fresh]
    · refine (Grown.refl part).congr fun c => ?_
      rw [onKept_of_stop distinct (not_kept_of_visited old)]
      simp only [isTrigger, not_not.mpr same, false_and, or_self]
    · refine (keepBranch_adds part (fun c member => (leading c member).sound stored) done).congr fun c => ?_
      rw [onKept_of_stop distinct (not_kept_of_visited old)]
      simp [isTrigger, different, old]
    · have go : ∀ p ∈ graph.getConnections.filter (·.toNode = current), ∀ sub next, Part graph sub →
          (if p.type ≠ .main then some sub
            else findSubgraphRecursive graph destination trigger fuel p.fromNode sub (branch ++ [p])) = some next →
            Grown graph sub (fun c => p.type = .main ∧
              OnKept graph destination trigger p.fromNode (branch ++ [p]) fuel c) next := by
        intro p parent sub next part done
        by_cases isMain : p.type = .main
        · rw [if_neg (not_not.mpr isMain)] at done
          have grown := ih (leading_concat leading stored parent) (distinct_concat distinct new parent) part done
          exact grown.congr (by simp [isMain])
        · rw [if_pos isMain] at done
          obtain rfl := some.inj done
          exact (Grown.refl part).congr (by simp [isMain])
      refine (grown_foldlM go part done).congr fun c => ?_
      rw [onKept_of_go distinct isTrigger new]

theorem kept_stored (done : findSubgraphRecursive graph destination trigger fuel current sub branch = some next)
    (kept : Kept graph destination trigger current branch ext last) : ∀ c ∈ ext.take fuel, graph.Stores c.toNode := by
  induction fuel generalizing current branch sub next ext with
  | zero => simp
  | succ fuel ih =>
    cases ext with
    | nil => simp
    | cons p ext =>
      obtain ⟨enters, member, isMain, notTrigger, rest⟩ := kept_cons.mp kept
      have new : current ∉ branch.map toNode := fun old => not_kept_of_visited old p ext last kept
      rcases findSubgraphRecursive_cases done with ⟨isTrigger, -⟩ | ⟨-, stored, call⟩
      · exact absurd isTrigger notTrigger
      rcases call with ⟨orphan, -⟩ | ⟨-, old, -⟩ | ⟨-, old, -⟩ | ⟨-, done⟩
      · exact absurd enters (orphan p member)
      · exact absurd old new
      · exact absurd old new
      · obtain ⟨here, below, step⟩ := foldlM_step (mem_filter.mpr ⟨member, by simpa using enters⟩) done
        rw [if_neg (not_not.mpr isMain)] at step
        rw [take_succ_cons]
        exact forall_mem_cons.mpr ⟨enters ▸ stored, ih step rest⟩

/-- A branch enters different nodes of the graph, so the search is long enough. -/
theorem Kept.length_le (done : findSubgraphRecursive graph destination trigger (graph.getNodes.length + 1) current
      sub branch = some next) (kept : Kept graph destination trigger current branch ext last) :
    ext.length ≤ graph.getNodes.length := by
  have distinct : (ext.map toNode).Nodup := by
    refine Nodup.sublist ?_ kept.distinct
    rw [map_append]
    exact sublist_append_right _ _
  have inside : (ext.take (graph.getNodes.length + 1)).map toNode ⊆ graph.getNodes := by
    intro node member
    obtain ⟨c, hc, rfl⟩ := List.mem_map.mp member
    exact mem_getNodes.mpr (kept_stored done kept c hc)
  have part : ((ext.take (graph.getNodes.length + 1)).map toNode).Nodup :=
    distinct.sublist ((take_sublist _ _).map _)
  have bound := (subperm_of_subset part inside).length_le
  simp only [length_map, length_take] at bound
  omega

def Joined (destination trigger : GraphNode) (sub : DirectedGraph) : Prop :=
  ∀ x, sub.Stores x → x = destination ∧ trigger = destination ∨ ∃ c ∈ sub.getConnections, x = c.fromNode ∨ x = c.toNode

theorem joined_keepBranch {start : DirectedGraph} (joined : Joined destination trigger sub)
    (grown : Grown graph sub (· ∈ branch) next) (done : keepBranch start branch = some next)
    (fresh : ∀ x, start.Stores x → sub.Stores x ∨ x = destination ∧ trigger = destination ∨
      ∃ c ∈ branch, x = c.fromNode ∨ x = c.toNode) : Joined destination trigger next := by
  have onBranch : ∀ x, (∃ c ∈ branch, x = c.fromNode ∨ x = c.toNode) →
      ∃ c ∈ next.getConnections, x = c.fromNode ∨ x = c.toNode := fun x ⟨c, member, isEnd⟩ =>
    ⟨c, (grown.connections c).mpr (.inr member), isEnd⟩
  intro x inside
  rcases keepBranch_stores done inside with inStart | isEnd
  · rcases fresh x inStart with old | alone | isEnd
    · rcases joined x old with alone | ⟨c, member, isEnd⟩
      · exact .inl alone
      · exact .inr ⟨c, (grown.connections c).mpr (.inl member), isEnd⟩
    · exact .inl alone
    · exact .inr (onBranch x isEnd)
  · exact .inr (onBranch x isEnd)

theorem findSubgraphRecursive_joined (triggerStored : graph.Stores trigger)
    (leading : ∀ c ∈ branch, Leading graph current c) (distinct : (branch.map toNode).Nodup)
    (trail : Trail toNode fromNode destination branch current)
    (part : Part graph sub) (joined : Joined destination trigger sub)
    (done : findSubgraphRecursive graph destination trigger fuel current sub branch = some next) :
    Joined destination trigger next := by
  induction fuel generalizing current branch sub next with
  | zero => exact some.inj done ▸ joined
  | succ fuel ih =>
    rcases findSubgraphRecursive_cases done with ⟨isTrigger, done⟩ | ⟨-, stored, call⟩
    · have grown := keepBranch_adds (part.addNode triggerStored)
        (fun c member => (leading c member).sound (isTrigger ▸ triggerStored)) done
      have whole := ((Grown.addNode part triggerStored).trans grown).congr fun c => by rw [false_or]
      refine joined_keepBranch joined whole done fun x inStart => ?_
      rcases (part.stores_addNode triggerStored).mp inStart with rfl | old
      · rcases trail.last_cases with ⟨_, same⟩ | ⟨c, member, leaves⟩
        · exact .inr (.inl ⟨isTrigger.symm.trans same.symm, isTrigger.symm.trans same.symm⟩)
        · exact .inr (.inr ⟨c, member, .inl (isTrigger.symm.trans leaves.symm)⟩)
      · exact .inl old
    rcases call with ⟨-, rfl⟩ | ⟨-, -, rfl⟩ | ⟨-, -, done⟩ | ⟨new, done⟩
    · exact joined
    · exact joined
    · have grown := keepBranch_adds part (fun c member => (leading c member).sound stored) done
      exact joined_keepBranch joined grown done fun x => .inl
    · have inv : Part graph next ∧ Joined destination trigger next := by
        refine foldlM_invariant (I := fun s => Part graph s ∧ Joined destination trigger s)
          (fun p parent s next before step => ?_) ⟨part, joined⟩ done
        by_cases isMain : p.type = .main
        · rw [if_neg (not_not.mpr isMain)] at step
          have leadingNext := leading_concat leading stored parent
          have distinctNext := distinct_concat distinct new parent
          simp only [mem_filter, decide_eq_true_eq] at parent
          exact ⟨(findSubgraphRecursive_grown triggerStored leadingNext distinctNext before.1 step).part,
            ih leadingNext distinctNext (trail.concat parent.2) before.1 before.2 step⟩
        · rw [if_pos isMain] at step
          exact some.inj step ▸ before
      exact inv.2

theorem findSubgraphRecursive_isSome (triggerStored : graph.Stores trigger)
    (above : StoresAbove graph current) (sound : ∀ c ∈ branch, Sound graph c) (part : Part graph sub) :
    ∃ next, findSubgraphRecursive graph destination trigger fuel current sub branch = some next ∧ Part graph next := by
  induction fuel generalizing current branch sub with
  | zero => exact ⟨sub, rfl, part⟩
  | succ fuel ih =>
    rw [findSubgraphRecursive, getDirectParentConnections, if_pos (above [] current (.nil graph current))]
    simp only [bind_eq_bind, bind_some]
    have keeps : ∀ start, Part graph start → ∃ next, keepBranch start branch = some next ∧ Part graph next := by
      intro start partStart
      obtain ⟨next, done, grown⟩ := keepBranch_grown partStart sound
      exact ⟨next, done, grown.part⟩
    split
    · exact keeps _ (part.addNode triggerStored)
    split
    · exact ⟨sub, rfl, part⟩
    split
    · exact ⟨sub, rfl, part⟩
    split
    · exact keeps sub part
    · refine foldlM_isSome (fun p parent sub part => ?_) part
      split
      · exact ⟨sub, rfl, part⟩
      · simp only [mem_filter, decide_eq_true_eq] at parent
        obtain ⟨member, rfl⟩ := parent
        have only : ConnectionTrail graph p.fromNode [p] p.toNode := ⟨⟨rfl, rfl⟩, by simpa using member⟩
        have aboveNext : StoresAbove graph p.fromNode := fun cs x trail => above (cs ++ [p]) x (trail.append only)
        have ends := And.intro (above [p] p.fromNode only) (above [] p.toNode (.nil graph p.toNode))
        exact ih aboveNext (forall_mem_append.mpr
          ⟨sound, forall_mem_singleton.mpr ⟨member, ends.1, ends.2⟩⟩) part

end Branches

/-! ## Utilities -/

section Utilities

variable {graph sub next : DirectedGraph} {current : GraphNode} {c : GraphConnection}

theorem gathers_parents (graph : DirectedGraph) :
    Gathers id toNode fromNode graph.getConnections graph.Stores graph.getDirectParentConnections where
  known _ stored := if_pos stored
  unknown _ absent := if_neg absent
  behind _ _ := congrArg fromNode

theorem getParentConnectionsRecursive_eq (fuel : ℕ) (connections : List GraphConnection) :
    graph.getParentConnectionsRecursive fuel current connections =
      gather id fromNode graph.getDirectParentConnections fuel current connections := by
  induction fuel generalizing current connections with
  | zero => rfl
  | succ fuel ih => simp only [getParentConnectionsRecursive, gather, ih, id]

theorem leadsUp_iff : LeadingEdge toNode fromNode graph.getConnections current c ↔
    c ∈ graph.getConnections ∧ ∃ ds, ConnectionTrail graph c.toNode ds current := by
  refine and_congr_right fun _ => ⟨?_, ?_⟩
  · rintro ⟨before, trail, all⟩
    exact ⟨before.reverse, trail.reverse, by simpa using all⟩
  · rintro ⟨ds, trail, all⟩
    exact ⟨ds.reverse, trail.reverse, by simpa using all⟩

variable {cs : List GraphConnection}

theorem mem_getParentConnections (done : graph.getParentConnections current = some cs) :
    c ∈ cs ↔ c ∈ graph.getConnections ∧ ∃ ds, ConnectionTrail graph c.toNode ds current := by
  rw [getParentConnections, getParentConnectionsRecursive_eq] at done
  rw [← leadsUp_iff, ((gathers_parents graph).spec done).1]
  simp

theorem getParentConnections_isSome : (graph.getParentConnections current).isSome ↔ StoresAbove graph current := by
  rw [getParentConnections, getParentConnectionsRecursive_eq, isSome_iff_exists]
  constructor
  · rintro ⟨found, done⟩ cs x trail
    obtain ⟨_, here, above⟩ := (gathers_parents graph).spec done
    cases cs with
    | nil => exact (show x = current from trail.1) ▸ here
    | cons c cs =>
      have next := forall_mem_cons.mp trail.2
      exact trail.1.1 ▸ above c (leadsUp_iff.mpr ⟨next.1, cs, trail.1.2, next.2⟩)
  · intro above
    refine (gathers_parents graph).returns (above [] current (.nil graph current)) (fun c leads => ?_) []
    obtain ⟨member, ds, trail⟩ := leadsUp_iff.mp leads
    exact above (c :: ds) c.fromNode (trail.cons member)

theorem getParentConnections_sound (done : graph.getParentConnections current = some cs) : ∀ c ∈ cs, Sound graph c := by
  have above := getParentConnections_isSome.mp (isSome_of_mem done)
  intro c listed
  obtain ⟨member, ds, trail⟩ := (mem_getParentConnections done).mp listed
  exact ⟨member, above (c :: ds) c.fromNode (trail.cons member), above ds c.toNode trail⟩

theorem readdUtilities_grown (part : Part graph sub) (done : readdUtilities graph sub current = some next) :
    Grown graph sub (fun c => c.type ≠ .main ∧ c ∈ graph.getConnections ∧
      ∃ ds, ConnectionTrail graph c.toNode ds current) next := by
  rw [readdUtilities, bind_eq_bind, bind_eq_some_iff] at done
  obtain ⟨cs, found, kept⟩ := done
  have each : ∀ c ∈ cs, ∀ sub next, Part graph sub →
      (if c.type = .main then some sub else keepConnection sub c) = some next →
        Grown graph sub (fun d => c.type ≠ .main ∧ d = c) next := by
    intro c member sub next part step
    by_cases isMain : c.type = .main
    · rw [if_pos isMain] at step
      obtain rfl := some.inj step
      exact (Grown.refl part).congr (by simp [isMain])
    · obtain ⟨again, stepAgain, grown⟩ := keepConnection_grown part (getParentConnections_sound found c member)
      rw [if_neg isMain, stepAgain, some.injEq] at step
      subst step
      exact grown.congr (by simp [isMain])
  refine (grown_foldlM each part kept).congr fun c => ?_
  rw [← mem_getParentConnections found]
  constructor
  · rintro ⟨d, member, other, rfl⟩
    exact ⟨other, member⟩
  · rintro ⟨other, member⟩
    exact ⟨c, member, other, rfl⟩

theorem readdUtilities_stores (done : readdUtilities graph sub current = some next) {x : GraphNode}
    (inside : next.Stores x) : sub.Stores x ∨ graph.Stores x ∧ ∃ c ∈ graph.getConnections, c.type ≠ .main ∧
      (∃ ds, ConnectionTrail graph c.toNode ds current) ∧ (x = c.fromNode ∨ x = c.toNode) := by
  rw [readdUtilities, bind_eq_bind, bind_eq_some_iff] at done
  obtain ⟨cs, found, kept⟩ := done
  refine foldlM_invariant (I := fun s : DirectedGraph => s.Stores x → sub.Stores x ∨ graph.Stores x ∧
    ∃ c ∈ graph.getConnections, c.type ≠ .main ∧ (∃ ds, ConnectionTrail graph c.toNode ds current) ∧
      (x = c.fromNode ∨ x = c.toNode)) (fun c member s next before step inNext => ?_) .inl kept inside
  split at step
  · exact before (some.inj step ▸ inNext)
  · rename_i other
    have sound := getParentConnections_sound found c member
    have behind := (mem_getParentConnections found).mp member
    rcases keepConnection_stores step inNext with rfl | rfl | old
    · exact .inr ⟨sound.fromStored, c, behind.1, other, behind.2, .inl rfl⟩
    · exact .inr ⟨sound.toStored, c, behind.1, other, behind.2, .inr rfl⟩
    · exact before old

theorem storesAbove_of_readd (done : readdUtilities graph sub current = some next) : StoresAbove graph current := by
  rw [readdUtilities, bind_eq_bind, bind_eq_some_iff] at done
  obtain ⟨cs, found, _⟩ := done
  exact getParentConnections_isSome.mp (isSome_iff_exists.mpr ⟨cs, found⟩)

theorem readdUtilities_isSome (above : StoresAbove graph current) (part : Part graph sub) :
    ∃ next, readdUtilities graph sub current = some next ∧ Part graph next := by
  obtain ⟨cs, found⟩ := isSome_iff_exists.mp (getParentConnections_isSome.mpr above)
  rw [readdUtilities, found]
  refine foldlM_isSome (fun c member sub part => ?_) part
  split
  · exact ⟨sub, rfl, part⟩
  · obtain ⟨next, done, grown⟩ := keepConnection_grown part (getParentConnections_sound found c member)
    exact ⟨next, done, grown.part⟩

end Utilities

section Search

variable {graph sub first : DirectedGraph} {destination trigger : GraphNode} {x : GraphNode}

structure Searched (graph : DirectedGraph) (destination trigger : GraphNode) (first : DirectedGraph) : Prop where
  part : Part graph first
  connections : ∀ c, c ∈ first.getConnections ↔
    ∃ ext last, Kept graph destination trigger destination [] ext last ∧ c ∈ ext
  joined : Joined destination trigger first

theorem findSubgraphRecursive_searched (triggerStored : graph.Stores trigger)
    (searched : findSubgraphRecursive graph destination trigger (graph.getNodes.length + 1) destination .empty [] =
      some first) : Searched graph destination trigger first := by
  have grown := findSubgraphRecursive_grown triggerStored (by simp) (by simp) (Part.empty graph) searched
  have start : Trail toNode fromNode destination [] destination := rfl
  have joined := findSubgraphRecursive_joined triggerStored (by simp) (by simp) start (Part.empty graph)
    (fun x stored => by cases stored) searched
  refine ⟨grown.part, fun c => ?_, joined⟩
  have nothing : c ∉ (DirectedGraph.empty).getConnections := not_mem_nil
  rw [grown.connections, or_iff_right nothing]
  constructor
  · rintro ⟨ext, last, kept, _, onBranch⟩
    exact ⟨ext, last, kept, by simpa using onBranch⟩
  · rintro ⟨ext, last, kept, onBranch⟩
    exact ⟨ext, last, kept, Nat.lt_succ_of_le (kept.length_le searched), by simpa using onBranch⟩

theorem Kept.leads {ext : List GraphConnection} {last : GraphNode} {c : GraphConnection}
    (kept : Kept graph destination trigger destination [] ext last) (member : c ∈ ext) :
    ∃ ds, Trail fromNode toNode c.toNode ds destination ∧
      ∀ d ∈ ds, d ∈ graph.getConnections ∧ d.type = .main := by
  obtain ⟨pre, post, rfl⟩ := append_of_mem member
  obtain ⟨m, before, after⟩ := Trail.append_iff.mp kept.trail
  obtain rfl : c.toNode = m := after.1
  refine ⟨pre.reverse, before.reverse, fun d inside => kept.main d (mem_append_left _ (mem_reverse.mp inside))⟩

theorem Searched.leads (searched : Searched graph destination trigger first) (inside : first.Stores x) :
    ∃ ds, Trail fromNode toNode x ds destination ∧
      ∀ d ∈ ds, d ∈ graph.getConnections ∧ d.type = .main := by
  rcases searched.joined x inside with ⟨rfl, _⟩ | ⟨c, member, isEnd⟩
  · exact ⟨[], rfl, by simp⟩
  · obtain ⟨ext, last, kept, onBranch⟩ := (searched.connections c).mp member
    obtain ⟨ds, trail, main⟩ := kept.leads onBranch
    rcases isEnd with rfl | rfl
    · exact ⟨c :: ds, ⟨rfl, trail⟩, forall_mem_cons.mpr ⟨kept.main c onBranch, main⟩⟩
    · exact ⟨ds, trail, main⟩

theorem Searched.storesAbove (searched : Searched graph destination trigger first)
    (above : StoresAbove graph destination) (inside : first.Stores x) : StoresAbove graph x := by
  obtain ⟨ds, trail, main⟩ := searched.leads inside
  exact fun cs y behind => above (cs ++ ds) y (behind.append ⟨trail, fun d member => (main d member).1⟩)

theorem findSubgraph_main (triggerStored : graph.Stores trigger)
    (found : findSubgraph graph destination trigger = some sub) :
    Part graph sub ∧ ∀ c, c ∈ sub.getConnections ∧ c.type = .main ↔
      ∃ ext last, Kept graph destination trigger destination [] ext last ∧ c ∈ ext := by
  rw [findSubgraph, bind_eq_bind, bind_eq_some_iff] at found
  obtain ⟨first, done, readded⟩ := found
  have searched := findSubgraphRecursive_searched triggerStored done
  have inv : Part graph sub ∧ ∀ c, c.type = .main → (c ∈ sub.getConnections ↔ c ∈ first.getConnections) := by
    refine foldlM_invariant (I := fun s => Part graph s ∧ ∀ c, c.type = .main →
      (c ∈ s.getConnections ↔ c ∈ first.getConnections)) (fun node _ s next inv step => ?_)
      ⟨searched.part, fun c _ => Iff.rfl⟩ readded
    have grown := readdUtilities_grown inv.1 step
    refine ⟨grown.part, fun c isMain => ?_⟩
    rw [grown.connections, inv.2 c isMain]
    exact or_iff_left fun new => new.1 isMain
  refine ⟨inv.1, fun c => ?_⟩
  rw [← searched.connections]
  constructor
  · rintro ⟨member, isMain⟩
    exact (inv.2 c isMain).mp member
  · intro member
    obtain ⟨ext, last, kept, onBranch⟩ := (searched.connections c).mp member
    have isMain := (kept.main c onBranch).2
    exact ⟨(inv.2 c isMain).mpr member, isMain⟩

theorem findSubgraph_isSome (triggerStored : graph.Stores trigger) (above : StoresAbove graph destination) :
    ∃ sub, findSubgraph graph destination trigger = some sub ∧ Part graph sub := by
  have search : ∃ first, findSubgraphRecursive graph destination trigger (graph.getNodes.length + 1) destination
      .empty [] = some first ∧ Part graph first :=
    findSubgraphRecursive_isSome triggerStored above (by simp) (Part.empty graph)
  obtain ⟨first, done, part⟩ := search
  have searched := findSubgraphRecursive_searched triggerStored done
  have each : ∀ node ∈ first.getNodes, ∀ sub, Part graph sub →
      ∃ next, readdUtilities graph sub node = some next ∧ Part graph next := fun node member sub partSub =>
    readdUtilities_isSome (searched.storesAbove above (mem_getNodes.mp member)) partSub
  obtain ⟨sub, readded, partSub⟩ := foldlM_isSome each part
  refine ⟨sub, ?_, partSub⟩
  rw [findSubgraph, done]
  exact readded

end Search

end N8n.PartialExecution
