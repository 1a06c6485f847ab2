import N8n.Elimination
import N8n.GraphClosedness
import N8n.ConnectionKeys

/-! Disabled nodes are taken out of a graph one after the other. Where no two connections
that are there at one time have one key, the main connections are those of the elimination of the
disabled nodes, so between enabled nodes they are the walks through disabled nodes. What
stays at the disabled nodes themselves tells the order, unless every closed walk through
disabled nodes is covered by a connection of its node to itself. -/

namespace N8n.PartialExecution

open PartialExecution.DirectedGraph Elimination List

def removeIfDisabled (filteredGraph : DirectedGraph) (node : GraphNode) : Option DirectedGraph :=
  if node.disabled then (filteredGraph.removeNode node bypass).map Prod.fst else some filteredGraph

def filterDisabledNodes (graph : DirectedGraph) : Option DirectedGraph := do
  let filteredGraph ← graph.clone
  filteredGraph.getNodes.foldlM removeIfDisabled filteredGraph

def MainConnection (graph : DirectedGraph) : GraphNode → ℕ → GraphNode → ℕ → Prop := fun u o v i =>
  ⟨u, v, .main, o, i⟩ ∈ graph.getConnections

def DisabledWalk (graph : DirectedGraph) : GraphNode → ℕ → GraphNode → ℕ → Prop :=
  Through (MainConnection graph) fun node => node.disabled = true

/-- The connections that stand in the graph when the nodes were taken out of it in this order. -/
structure Standing (graph : DirectedGraph) (out : List GraphNode) (c : GraphConnection) : Prop where
  main : c.type = .main → eliminateAll (MainConnection graph) out c.fromNode c.outputIndex c.toNode c.inputIndex
  other : c.type ≠ .main → c ∈ graph.getConnections ∧ ∀ n ∈ out, c.toNode ≠ n ∧ c.fromNode ≠ n

def KeysApart (graph : DirectedGraph) (out : List GraphNode) : Prop :=
  ∀ c d, Standing graph out c → Standing graph out d → makeKey c = makeKey d → c = d

/-- At no time while the disabled nodes are removed do two connections share a key. -/
def Unambiguous (graph : DirectedGraph) : Prop :=
  ∀ out, out <+: graph.getNodes.filter (·.disabled) → KeysApart graph out

/-- What is left when the disabled ones among the nodes were removed. -/
structure Removed (graph : DirectedGraph) (nodes : List GraphNode) (result : DirectedGraph) : Prop where
  stores : ∀ x, result.Stores x ↔ graph.Stores x ∧ ∀ n ∈ nodes, n.disabled = true → x.name ≠ n.name
  main : MainConnection result = eliminateAll (MainConnection graph) (nodes.filter (·.disabled))
  other : ∀ c, c.type ≠ .main → (c ∈ result.getConnections ↔
    c ∈ graph.getConnections ∧ ∀ n ∈ nodes, n.disabled = true → c.toNode ≠ n ∧ c.fromNode ≠ n)

variable {graph current : DirectedGraph} {node : GraphNode}

variable {c : GraphConnection}

theorem mem_reconnections_bypass : c ∈ reconnections bypass (current.getConnections.filter (·.toNode = node))
      (current.getConnections.filter (·.fromNode = node)) ↔
      c.type = .main ∧ ∃ j p, MainConnection current c.fromNode c.outputIndex node j ∧
        MainConnection current node p c.toNode c.inputIndex := by
  rw [mem_reconnections]
  simp only [mem_filter, decide_eq_true_eq, RemoveNodeOptions.skips, bypass, ne_eq, decide_not,
    Bool.not_eq_eq_eq_not, Bool.not_false, decide_eq_true_eq]
  constructor
  · rintro ⟨i, ⟨hi, enters⟩, o, ⟨ho, leaves⟩, mainIn, mainOut, rfl⟩
    refine ⟨mainIn, i.inputIndex, o.outputIndex, ?_, ?_⟩
    · rw [MainConnection, ← enters, ← mainIn]
      exact hi
    · rw [MainConnection, ← leaves, ← mainOut]
      exact ho
  · rintro ⟨isMain, j, p, hi, ho⟩
    refine ⟨_, ⟨hi, rfl⟩, _, ⟨ho, rfl⟩, rfl, rfl, ?_⟩
    rw [← isMain]

/-- What `removeNode` keeps and what it sets stands together in the graph that it leaves. -/
theorem standing_singleton : Standing current [node] c ↔
    c ∈ reconnections bypass (current.getConnections.filter (·.toNode = node))
      (current.getConnections.filter (·.fromNode = node)) ∨
      c ∈ current.getConnections ∧ c.toNode ≠ node ∧ c.fromNode ≠ node := by
  rw [mem_reconnections_bypass]
  obtain ⟨u, v, type, o, i⟩ := c
  by_cases isMain : type = .main
  · subst isMain
    have edge : Standing current [node] ⟨u, v, .main, o, i⟩ ↔ eliminate (MainConnection current) node u o v i :=
      ⟨fun standing => standing.main rfl, fun edge => ⟨fun _ => edge, fun other => absurd rfl other⟩⟩
    rw [edge, eliminate, or_comm, and_comm (a := u ≠ node)]
    simp [MainConnection]
  · constructor
    · intro standing
      obtain ⟨member, away⟩ := standing.other isMain
      exact .inr ⟨member, away node mem_cons_self⟩
    · rintro (⟨main, _⟩ | ⟨member, away⟩)
      · exact absurd main isMain
      · exact ⟨fun main => absurd main isMain, fun _ => ⟨member, by simpa using away⟩⟩

theorem removeNode_bypass (apart : KeysApart current [node]) (disabled : node.disabled = true)
    (stored : current.Stores node) :
    ∃ next, removeIfDisabled current node = some next ∧ Removed current [node] next := by
  let new := reconnections bypass (current.getConnections.filter (·.toNode = node))
    (current.getConnections.filter (·.fromNode = node))
  let next := (new.foldl setConnection (current.deleteConnectionsOf node)).deleteName node.name
  have removed : removeIfDisabled current node = some next := by
    rw [removeIfDisabled, if_pos disabled, removeNode_reconnect rfl stored]
    rfl
  have connections : ∀ c, c ∈ next.getConnections ↔ Standing current [node] c := by
    intro c
    rw [getConnections_deleteName, mem_foldl_setConnection_iff, mem_deleteConnectionsOf, standing_singleton]
    intro d hd e he
    refine apart d e (standing_singleton.mpr (.inl hd)) (standing_singleton.mpr ?_)
    exact he.imp_right mem_deleteConnectionsOf.mp
  refine ⟨next, removed, ⟨fun x => ?_, ?_, fun c other => ?_⟩⟩
  · rw [stores_deleteName, stores_foldl_setConnection, stores_deleteConnectionsOf]
    simp [disabled, and_comm]
  · rw [filter_cons_of_pos disabled, filter_nil]
    funext u o v i
    refine propext ((connections _).trans ⟨fun standing => standing.main rfl, fun edge => ?_⟩)
    exact ⟨fun _ => edge, fun other => absurd rfl other⟩
  · rw [connections]
    constructor
    · intro standing
      simpa [disabled] using standing.other other
    · intro left
      exact ⟨fun main => absurd main other, fun _ => by simpa [disabled] using left⟩

variable {result : DirectedGraph} {nodes : List GraphNode}

theorem Removed.trans {middle : DirectedGraph}
    (one : Removed current [node] middle) (rest : Removed middle nodes result) :
    Removed current (node :: nodes) result where
  stores := fun x => by
    rw [rest.stores, one.stores]
    simp [and_assoc]
  main := by
    rw [rest.main, one.main, eliminateAll, eliminateAll, ← foldl_append, ← filter_append]
    rfl
  other := fun c isOther => by
    rw [rest.other c isOther, one.other c isOther]
    simp [and_assoc]

theorem Removed.standing {next : DirectedGraph} (removed : Removed current [node] next)
    (disabled : node.disabled = true) {out : List GraphNode} (standing : Standing next out c) :
    Standing current (node :: out) c where
  main := fun isMain => by
    have edge := standing.main isMain
    rwa [removed.main, filter_cons_of_pos disabled, filter_nil] at edge
  other := fun isOther => by
    obtain ⟨member, away⟩ := standing.other isOther
    obtain ⟨before, here⟩ := (removed.other c isOther).mp member
    exact ⟨before, forall_mem_cons.mpr ⟨here node mem_cons_self disabled, away⟩⟩

theorem foldlM_removeIfDisabled (apart : ∀ out, out <+: nodes.filter (·.disabled) → KeysApart current out)
    (distinct : (nodes.map (·.name)).Nodup) (stored : ∀ n ∈ nodes, current.Stores n) :
    ∃ result, nodes.foldlM removeIfDisabled current = some result ∧ Removed current nodes result := by
  induction nodes generalizing current with
  | nil => exact ⟨current, rfl, ⟨by simp, rfl, by simp⟩⟩
  | cons node nodes ih =>
    rw [map_cons, nodup_cons] at distinct
    have here := stored node mem_cons_self
    have later : ∀ n ∈ nodes, current.Stores n := fun n member => stored n (mem_cons_of_mem _ member)
    cases disabled : node.disabled with
    | true =>
      rw [filter_cons_of_pos disabled] at apart
      obtain ⟨next, removed, first⟩ := removeNode_bypass (apart [node] ⟨_, rfl⟩) disabled here
      have storedNext : ∀ n ∈ nodes, next.Stores n := by
        intro n member
        refine (first.stores n).mpr ⟨later n member, fun m isNode _ same => ?_⟩
        obtain rfl := mem_singleton.mp isNode
        exact distinct.1 (List.mem_map.mpr ⟨n, member, same⟩)
      have apartNext : ∀ out, out <+: nodes.filter (·.disabled) → KeysApart next out := by
        intro out front c d hc hd
        exact apart _ (cons_prefix_cons.mpr ⟨rfl, front⟩) c d (first.standing disabled hc) (first.standing disabled hd)
      obtain ⟨result, done, rest⟩ := ih apartNext distinct.2 storedNext
      refine ⟨result, ?_, first.trans rest⟩
      rw [foldlM_cons, removed]
      exact done
    | false =>
      have first : Removed current [node] current := ⟨by simp [disabled], by simp [disabled, eliminateAll],
        by simp [disabled]⟩
      rw [filter_cons_of_neg (by simp [disabled])] at apart
      obtain ⟨result, done, rest⟩ := ih apart distinct.2 later
      refine ⟨result, ?_, first.trans rest⟩
      rw [foldlM_cons, removeIfDisabled, disabled]
      exact done

theorem getNodes_names_nodup (graph : DirectedGraph) : (graph.getNodes.map (·.name)).Nodup := by
  rw [getNodes, OrderedMap.values_map_key graph.named]
  exact graph.nodes.nodup

theorem getNodes_nodup (graph : DirectedGraph) : graph.getNodes.Nodup := .of_map _ (getNodes_names_nodup graph)

theorem filterDisabledNodes_removed (closed : graph.Closed) (unambiguous : Unambiguous graph) :
    ∃ result, filterDisabledNodes graph = some result ∧ Removed graph graph.getNodes result := by
  obtain ⟨result, done, removed⟩ := foldlM_removeIfDisabled unambiguous (getNodes_names_nodup graph)
    (fun n => mem_getNodes.mp)
  refine ⟨result, ?_, removed⟩
  rw [filterDisabledNodes, closed.clone]
  exact done

/-! ## Keys -/

theorem Standing.stored {out : List GraphNode} (closed : graph.Closed) (standing : Standing graph out c) :
    graph.Stores c.fromNode ∧ graph.Stores c.toNode := by
  by_cases isMain : c.type = .main
  · obtain ⟨⟨_, _, leaves⟩, _, _, enters⟩ := ends_of_eliminateAll (standing.main isMain)
    exact ⟨(closed _ leaves).1, (closed _ enters).2⟩
  · exact closed c (standing.other isMain).1

theorem unambiguous_of_names (closed : graph.Closed)
    (dashFree : ∀ node ∈ graph.getNodes, '-' ∉ node.name.toList) : Unambiguous graph := by
  intro out _ c d hc hd same
  have names : ∀ node, graph.Stores node → '-' ∉ node.name.toList := fun node stored =>
    dashFree node (mem_getNodes.mpr stored)
  exact eq_of_not_collide (not_collide_of_names names (hc.stored closed) (hd.stored closed)) same

/-! ## Main connections of the result -/

/-- Between enabled nodes the main connections are the walks through disabled nodes. -/
def Faithful (graph result : DirectedGraph) : Prop :=
  ∀ u v, graph.Stores u → graph.Stores v → u.disabled = false → v.disabled = false → ∀ o i,
    MainConnection result u o v i ↔ DisabledWalk graph u o v i

theorem disabledWalk_iff (closed : graph.Closed) {u v : GraphNode} {o i : ℕ} : DisabledWalk graph u o v i ↔
      Through (MainConnection graph) (· ∈ graph.getNodes.filter (·.disabled)) u o v i := by
  constructor
  · refine Through.mono fun n p v i leaves disabled => ?_
    exact mem_filter.mpr ⟨mem_getNodes.mpr (closed _ leaves).1, disabled⟩
  · exact Through.mono fun n p v i _ member => (mem_filter.mp member).2

theorem Removed.faithful (closed : graph.Closed)
    (removed : Removed graph graph.getNodes result) : Faithful graph result := by
  intro u v _ _ uEnabled vEnabled o i
  have uStays : u ∉ graph.getNodes.filter (·.disabled) := by simp [uEnabled]
  have vStays : v ∉ graph.getNodes.filter (·.disabled) := by simp [vEnabled]
  rw [removed.main, eliminateAll_iff ((getNodes_nodup graph).filter _) uStays vStays, disabledWalk_iff closed]

/-! ## The order of the nodes -/

structure SameContents (one two : DirectedGraph) : Prop where
  stores : ∀ node, one.Stores node ↔ two.Stores node
  connections : ∀ c, c ∈ one.getConnections ↔ c ∈ two.getConnections

def UnambiguousInAnyOrder (graph : DirectedGraph) : Prop := ∀ other, SameContents graph other → Unambiguous other

def OrderIndependent (graph result : DirectedGraph) : Prop :=
  ∀ other, SameContents graph other →
    ∃ otherResult, filterDisabledNodes other = some otherResult ∧ SameContents result otherResult

/-- Every closed walk of a disabled node through disabled nodes leaves by an output, and
enters by an input, of a connection of the node to itself. -/
def DisabledCyclesCovered (graph : DirectedGraph) : Prop :=
  Covered (MainConnection graph) fun node => node.disabled = true

theorem SameContents.refl (graph : DirectedGraph) : SameContents graph graph := ⟨fun _ => Iff.rfl, fun _ => Iff.rfl⟩

variable {other : DirectedGraph}

section

variable (same : SameContents graph other)
include same

theorem SameContents.main : MainConnection graph = MainConnection other := by
  funext u o v i
  exact propext (same.connections _)

theorem SameContents.closed (closed : graph.Closed) : other.Closed := by
  intro c member
  have ends := closed c ((same.connections c).mpr member)
  exact ⟨(same.stores _).mp ends.1, (same.stores _).mp ends.2⟩

theorem SameContents.disabled_perm :
    (other.getNodes.filter (·.disabled)).Perm (graph.getNodes.filter (·.disabled)) := by
  refine Perm.filter _ ((perm_ext_iff_of_nodup (getNodes_nodup other) (getNodes_nodup graph)).mpr ?_)
  intro node
  rw [mem_getNodes, mem_getNodes, same.stores]

end

theorem unambiguousInAnyOrder_of_names (closed : graph.Closed)
    (dashFree : ∀ node ∈ graph.getNodes, '-' ∉ node.name.toList) : UnambiguousInAnyOrder graph := by
  intro other same
  refine unambiguous_of_names (same.closed closed) fun node member => dashFree node ?_
  rw [mem_getNodes, same.stores, ← mem_getNodes]
  exact member

theorem covered_iff (closed : graph.Closed) : DisabledCyclesCovered graph ↔
    Covered (MainConnection graph) (· ∈ graph.getNodes.filter (·.disabled)) := by
  refine covered_congr fun n p v i leaves => ?_
  rw [mem_filter, mem_getNodes]
  exact (and_iff_right (closed _ leaves).1).symm

theorem SameContents.of_removed {otherResult : DirectedGraph} (same : SameContents graph other)
    (one : Removed graph graph.getNodes result) (two : Removed other other.getNodes otherResult)
    (main : MainConnection result = MainConnection otherResult) : SameContents result otherResult where
  stores := fun x => by
    simp only [one.stores, two.stores, mem_getNodes, same.stores]
  connections := fun c => by
    by_cases isMain : c.type = .main
    · obtain ⟨u, v, type, o, i⟩ := c
      obtain rfl : type = .main := isMain
      exact Iff.of_eq (congrFun (congrFun (congrFun (congrFun main u) o) v) i)
    · simp only [one.other c isMain, two.other c isMain, mem_getNodes, same.stores, same.connections]

def withNodes (graph : DirectedGraph) (nodes : List GraphNode) (perm : nodes.Perm graph.getNodes) : DirectedGraph where
  nodes := ⟨nodes.map fun node => (node.name, node), by
    rw [List.map_map]
    exact (perm.map (·.name)).nodup_iff.mpr (getNodes_names_nodup graph)⟩
  connections := graph.connections
  named := fun name node found => by
    have member := (OrderedMap.mem_entries_iff _).mpr found
    obtain ⟨stored, _, same⟩ := List.mem_map.mp member
    cases same
    rfl
  keyed := graph.keyed

theorem getNodes_withNodes (perm : nodes.Perm graph.getNodes) : (withNodes graph nodes perm).getNodes = nodes := by
  rw [getNodes, OrderedMap.values, withNodes, List.map_map]
  exact List.map_id nodes

theorem withNodes_same (perm : nodes.Perm graph.getNodes) : SameContents graph (withNodes graph nodes perm) where
  stores := fun node => by
    rw [← mem_getNodes, ← mem_getNodes, getNodes_withNodes, perm.mem_iff]
  connections := fun c => Iff.rfl

theorem orderIndependent_iff (closed : graph.Closed) (unambiguous : UnambiguousInAnyOrder graph)
    (removed : Removed graph graph.getNodes result) : OrderIndependent graph result ↔ DisabledCyclesCovered graph := by
  rw [covered_iff closed, ← eliminateAll_order_iff ((getNodes_nodup graph).filter _)]
  constructor
  · intro independent disabled perm
    let enabled := graph.getNodes.filter (!·.disabled)
    have whole : (disabled ++ enabled).Perm graph.getNodes :=
      (perm.append_right enabled).trans (filter_append_perm _ _)
    have same := withNodes_same whole
    obtain ⟨otherResult, done, sameResult⟩ := independent _ same
    obtain ⟨again, doneAgain, removedOther⟩ := filterDisabledNodes_removed (same.closed closed)
      (unambiguous _ same)
    rw [done, Option.some.injEq] at doneAgain
    subst doneAgain
    have order : (disabled ++ enabled).filter (·.disabled) = disabled := by
      rw [filter_append]
      have all : disabled.filter (·.disabled) = disabled :=
        filter_eq_self.mpr fun node member => (mem_filter.mp (perm.mem_iff.mp member)).2
      have none : enabled.filter (·.disabled) = [] := by simp [enabled]
      rw [all, none, append_nil]
    rw [← removed.main, sameResult.main, removedOther.main, getNodes_withNodes, order, ← same.main]
  · intro ordered other same
    obtain ⟨otherResult, done, removedOther⟩ := filterDisabledNodes_removed (same.closed closed)
      (unambiguous _ same)
    refine ⟨otherResult, done, same.of_removed removed removedOther ?_⟩
    rw [removed.main, removedOther.main, ← same.main, ordered _ same.disabled_perm]

/-- Removing the disabled nodes contracts the walks through them, and the order in which
the nodes were inserted is not seen in the result exactly when cycles are covered. -/
theorem filterDisabledNodes_iff (closed : graph.Closed) (unambiguous : UnambiguousInAnyOrder graph) :
    (∃ result, filterDisabledNodes graph = some result ∧ Faithful graph result ∧ OrderIndependent graph result) ↔
      DisabledCyclesCovered graph := by
  obtain ⟨result, done, removed⟩ := filterDisabledNodes_removed closed (unambiguous graph (.refl graph))
  constructor
  · rintro ⟨again, doneAgain, _, independent⟩
    rw [done, Option.some.injEq] at doneAgain
    subst doneAgain
    exact (orderIndependent_iff closed unambiguous removed).mp independent
  · intro covered
    exact ⟨result, done, removed.faithful closed, (orderIndependent_iff closed unambiguous removed).mpr covered⟩

/-! ## Two graphs -/

def disabledNode (identity : ℕ) (name : String) : GraphNode := ⟨identity, name, "n8n-nodes-base.noOp", true⟩

def disabledRow : DirectedGraph :=
  let a := plainNode 0 "a"
  let b := disabledNode 1 "b"
  let c := disabledNode 2 "c"
  let d := plainNode 3 "d"
  [⟨a, b, .main, 1, 0⟩, ⟨b, c, .main, 0, 0⟩, ⟨c, d, .main, 0, 2⟩].foldl setConnection (empty.addNodes [c, a, d, b])

theorem disabledRow_contracted : ∃ result, filterDisabledNodes disabledRow = some result ∧
    Faithful disabledRow result ∧ OrderIndependent disabledRow result := by
  have closed : disabledRow.Closed := by decide
  have dashFree : ∀ node ∈ disabledRow.getNodes, '-' ∉ node.name.toList := by decide
  have increases : ∀ c ∈ disabledRow.getConnections, c.fromNode.identity < c.toNode.identity := by decide
  exact (filterDisabledNodes_iff closed (unambiguousInAnyOrder_of_names closed dashFree)).mpr
    (covered_of_rank (·.identity) fun u o v i edge => increases _ edge)

/-- Two disabled nodes that are connected to each other: the one removed last keeps a
connection to itself. -/
def disabledPair : DirectedGraph :=
  let a := disabledNode 0 "a"
  let b := disabledNode 1 "b"
  [⟨a, b, .main, 0, 0⟩, ⟨b, a, .main, 0, 0⟩].foldl setConnection (empty.addNodes [a, b])

theorem disabledPair_swapped : [disabledNode 1 "b", disabledNode 0 "a"].Perm disabledPair.getNodes := by decide

theorem disabledPair_order_seen : disabledPair.Closed ∧ ¬∃ result, filterDisabledNodes disabledPair = some result ∧
      Faithful disabledPair result ∧ OrderIndependent disabledPair result := by
  refine ⟨by decide, ?_⟩
  rintro ⟨result, done, _, independent⟩
  obtain ⟨otherResult, otherDone, same⟩ := independent _ (withNodes_same disabledPair_swapped)
  have here : (filterDisabledNodes disabledPair).map (·.getConnections) =
      some [⟨disabledNode 1 "b", disabledNode 1 "b", .main, 0, 0⟩] := by decide
  have there : (filterDisabledNodes (withNodes disabledPair _ disabledPair_swapped)).map (·.getConnections) =
      some [⟨disabledNode 0 "a", disabledNode 0 "a", .main, 0, 0⟩] := by decide
  simp only [done, otherDone, Option.map_some, Option.some.injEq] at here there
  have shared := same.connections ⟨disabledNode 1 "b", disabledNode 1 "b", .main, 0, 0⟩
  rw [here, there] at shared
  exact absurd (shared.mp mem_cons_self) (by decide)

/-- Two walks whose connections share a key: one of them is left. -/
example :
    let a := plainNode 0 "a"
    let b := plainNode 1 "b-main-0-0-c"
    let x := plainNode 2 "a-main-0-0-b"
    let y := plainNode 3 "c"
    let p := disabledNode 4 "p"
    let q := disabledNode 5 "q"
    (filterDisabledNodes ([⟨a, p, .main, 0, 0⟩, ⟨p, b, .main, 0, 0⟩, ⟨x, q, .main, 0, 0⟩, ⟨q, y, .main, 0, 0⟩].foldl
      setConnection (empty.addNodes [a, b, x, y, p, q]))).map (·.getConnections) = some [⟨x, y, .main, 0, 0⟩] := by
  decide

end N8n.PartialExecution
