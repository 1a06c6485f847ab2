import N8n.StackSearch
import N8n.Workflow

/-! Which selections of nodes can be extracted as a sub-workflow. Main connections may enter
the selection at one root and leave it at one leaf, and a path leads from the one to the other. -/

namespace N8n.GraphUtils

open DepthFirst (Reaches)
open List

abbrev IConnectionAdjacencyList := OrderedMap String (List IConnection)

inductive ExtractableErrorResult
  | multipleInputNodes (nodes : OrderedSet String)
  | multipleOutputNodes (nodes : OrderedSet String)
  | inputEdgeToNonRootNode (node : String)
  | outputEdgeFromNonLeafNode (node : String)
  | noContinuousPathFromRootToLeaf (start end_ : String)
  deriving DecidableEq

section Sets

variable {α : Type} [DecidableEq α] {x : α}

def intersection (a b : OrderedSet α) : OrderedSet α := a.filter (· ∈ b)

def union (a b : OrderedSet α) : OrderedSet α := (OrderedSet.ofList a.elements).addAll b.elements

def difference (minuend subtrahend : OrderedSet α) : OrderedSet α := minuend.filter (· ∉ subtrahend)

@[simp] theorem mem_intersection {a b : OrderedSet α} : x ∈ intersection a b ↔ x ∈ a ∧ x ∈ b := by
  simp [intersection]

@[simp] theorem mem_union {a b : OrderedSet α} : x ∈ union a b ↔ x ∈ a ∨ x ∈ b := by
  simp [union, ← OrderedSet.mem_def]

@[simp] theorem mem_difference {a b : OrderedSet α} : x ∈ difference a b ↔ x ∈ a ∧ x ∉ b := by
  simp [difference]

end Sets

variable (graphIds : OrderedSet String) (adjacencyList : IConnectionAdjacencyList)

def getInputEdges : List (String × IConnection) :=
  adjacencyList.entries.flatMap fun entry =>
    if entry.1 ∈ graphIds then []
    else (entry.2.filter fun target => target.node ∈ graphIds).map fun target => (entry.1, target)

def getOutputEdges : List (String × IConnection) :=
  adjacencyList.entries.flatMap fun entry =>
    if entry.1 ∉ graphIds then []
    else (entry.2.filter fun target => target.node ∉ graphIds).map fun target => (entry.1, target)

def otherTargets (nodeId : String) : OrderedSet String :=
  .ofList ((((adjacencyList.get nodeId).getD []).filter fun x =>
    x.type = .main ∧ x.node ≠ nodeId).map IConnection.node)

def getRootNodes : OrderedSet String :=
  difference graphIds (graphIds.elements.foldl (fun innerNodes nodeId =>
    union innerNodes (otherTargets adjacencyList nodeId)) .empty)

def getLeafNodes : OrderedSet String :=
  graphIds.elements.foldl (fun result nodeId =>
    if (intersection (otherTargets adjacencyList nodeId) graphIds).size = 0 then result.add nodeId
    else result) .empty

def mainTargets (nodeId : String) : OrderedSet String :=
  .ofList ((((adjacencyList.get nodeId).getD []).filter fun x => x.type = .main).map IConnection.node)

/-- Every node that a search from `start` can meet. -/
def nodesFrom (start : String) : List String :=
  start :: adjacencyList.entries.flatMap fun entry => entry.2.map IConnection.node

/-- The loop runs until it returns; `none` would be a loop that goes on. -/
def hasPath (start end_ : String) : Option Bool :=
  let bound := (nodesFrom adjacencyList start).length
  StackSearch.search (mainTargets adjacencyList) end_ (bound * bound + 2) [] [start]

structure ExtractableSubgraphData where
  start : Option String
  end_ : Option String
  deriving DecidableEq

/-- The input nodes take the place of the roots when there are none and only one node is entered;
so do the output nodes. -/
def orOnly (nodes boundary : OrderedSet String) : OrderedSet String :=
  if nodes.size = 0 ∧ boundary.size = 1 then boundary else nodes

/-- The checks of the nodes that edges cross the boundary at, against the roots or the leaves,
and the first node that passes them. -/
def checkBoundary (nodes boundary : OrderedSet String) (single : String → ExtractableErrorResult)
    (multiple : OrderedSet String → ExtractableErrorResult) :
    List ExtractableErrorResult × Option String :=
  let nodes := orOnly nodes boundary
  let errors := (difference boundary nodes).elements.map single
  let both := intersection nodes boundary
  (if both.size > 1 then errors ++ [multiple both] else errors, both.elements.head?)

def inputNodes : OrderedSet String :=
  .ofList (((getInputEdges graphIds adjacencyList).filter fun x => x.2.type = .main).map fun x => x.2.node)

def outputNodes : OrderedSet String :=
  .ofList (((getOutputEdges graphIds adjacencyList).filter fun x => x.2.type = .main).map Prod.fst)

/-- Only names that are not empty are checked: an empty string is falsy. -/
def checkPath : Option String → Option String → Option (List ExtractableErrorResult)
  | some start, some end_ =>
    if start ≠ "" ∧ end_ ≠ "" then do
      let found ← hasPath adjacencyList start end_
      pure (if found then [] else [.noContinuousPathFromRootToLeaf start end_])
    else pure []
  | _, _ => pure []

def parseExtractableSubgraphSelection : Option (Except (List ExtractableErrorResult) ExtractableSubgraphData) := do
  let (inputErrors, start) := checkBoundary (getRootNodes graphIds adjacencyList)
    (inputNodes graphIds adjacencyList) .inputEdgeToNonRootNode .multipleInputNodes
  let (outputErrors, end_) := checkBoundary (getLeafNodes graphIds adjacencyList)
    (outputNodes graphIds adjacencyList) .outputEdgeFromNonLeafNode .multipleOutputNodes
  let pathErrors ← checkPath adjacencyList start end_
  let errors := inputErrors ++ outputErrors ++ pathErrors
  pure (if errors.length > 0 then .error errors else .ok ⟨start, end_⟩)

/-! ## The graph of the main connections -/

def MainEdge (source target : String) : Prop :=
  ∃ x ∈ (adjacencyList.get source).getD [], x.type = .main ∧ x.node = target

def Entered (node : String) : Prop :=
  node ∈ graphIds ∧ ∃ source, source ∉ graphIds ∧ MainEdge adjacencyList source node

def Left (node : String) : Prop :=
  node ∈ graphIds ∧ ∃ target, target ∉ graphIds ∧ MainEdge adjacencyList node target

def Root (node : String) : Prop :=
  node ∈ graphIds ∧ ¬∃ source ∈ graphIds, source ≠ node ∧ MainEdge adjacencyList source node

def Leaf (node : String) : Prop :=
  node ∈ graphIds ∧ ¬∃ target ∈ graphIds, target ≠ node ∧ MainEdge adjacencyList node target

def MainPath : String → String → Prop := Relation.ReflTransGen (MainEdge adjacencyList)

def InsidePath : String → String → Prop :=
  Relation.ReflTransGen fun a b => a ∈ graphIds ∧ b ∈ graphIds ∧ MainEdge adjacencyList a b

structure WellFormedSelection (data : ExtractableSubgraphData) : Prop where
  start : ∀ node, data.start = some node ↔ Entered graphIds adjacencyList node
  end_ : ∀ node, data.end_ = some node ↔ Left graphIds adjacencyList node
  inside : ∀ start end_, data.start = some start → data.end_ = some end_ → InsidePath graphIds adjacencyList start end_

section Parts

variable {graphIds : OrderedSet String} {adjacencyList : IConnectionAdjacencyList} {a b node : String}
  {l : List String} {s : OrderedSet String}

theorem mem_mainTargets : b ∈ mainTargets adjacencyList a ↔ MainEdge adjacencyList a b := by
  simp [mainTargets, MainEdge, and_assoc]

theorem mem_otherTargets : b ∈ otherTargets adjacencyList a ↔ b ≠ a ∧ MainEdge adjacencyList a b := by
  simp only [otherTargets, MainEdge, OrderedSet.mem_ofList, mem_map, mem_filter, decide_eq_true_eq]
  constructor
  · rintro ⟨x, ⟨member, isMain, other⟩, rfl⟩
    exact ⟨other, x, member, isMain, rfl⟩
  · rintro ⟨other, x, member, isMain, rfl⟩
    exact ⟨x, ⟨member, isMain, other⟩, rfl⟩

theorem mem_entries_of_mainEdge (edge : MainEdge adjacencyList a b) :
    ∃ targets, (a, targets) ∈ adjacencyList.entries ∧ ∃ x ∈ targets, x.type = .main ∧ x.node = b := by
  obtain ⟨x, member, found⟩ := edge
  cases listed : adjacencyList.get a with
  | none =>
    rw [listed] at member
    cases member
  | some targets =>
    rw [listed] at member
    exact ⟨targets, adjacencyList.mem_entries_iff.mpr listed, x, member, found⟩

theorem mainEdge_of_mem_entries {targets : List IConnection} {x : IConnection}
    (listed : (a, targets) ∈ adjacencyList.entries) (member : x ∈ targets) (isMain : x.type = .main) :
    MainEdge adjacencyList a x.node := by
  refine ⟨x, ?_, isMain, rfl⟩
  rw [adjacencyList.mem_entries_iff.mp listed]
  exact member

theorem mem_inputNodes : node ∈ inputNodes graphIds adjacencyList ↔ Entered graphIds adjacencyList node := by
  simp only [inputNodes, getInputEdges, OrderedSet.mem_ofList, mem_map, mem_filter,
    mem_flatMap, decide_eq_true_eq]
  constructor
  · rintro ⟨_, ⟨⟨⟨source, targets⟩, listed, inside⟩, isMain⟩, rfl⟩
    split at inside
    · cases inside
    · rename_i outside
      obtain ⟨x, member, rfl⟩ := List.mem_map.mp inside
      obtain ⟨member, inside⟩ := mem_filter.mp member
      exact ⟨by simpa using inside, source, outside, mainEdge_of_mem_entries listed member isMain⟩
  · rintro ⟨inside, source, outside, edge⟩
    obtain ⟨targets, listed, x, member, isMain, rfl⟩ := mem_entries_of_mainEdge edge
    refine ⟨(source, x), ⟨⟨(source, targets), listed, ?_⟩, isMain⟩, rfl⟩
    rw [if_neg outside]
    exact List.mem_map.mpr ⟨x, mem_filter.mpr ⟨member, by simpa using inside⟩, rfl⟩

theorem mem_outputNodes : node ∈ outputNodes graphIds adjacencyList ↔ Left graphIds adjacencyList node := by
  simp only [outputNodes, getOutputEdges, OrderedSet.mem_ofList, mem_map, mem_filter,
    mem_flatMap, decide_eq_true_eq]
  constructor
  · rintro ⟨_, ⟨⟨⟨source, targets⟩, listed, inside⟩, isMain⟩, rfl⟩
    split at inside
    · cases inside
    · rename_i within
      obtain ⟨x, member, rfl⟩ := List.mem_map.mp inside
      obtain ⟨member, outside⟩ := mem_filter.mp member
      exact ⟨not_not.mp within, x.node, by simpa using outside, mainEdge_of_mem_entries listed member isMain⟩
  · rintro ⟨inside, target, outside, edge⟩
    obtain ⟨targets, listed, x, member, isMain, rfl⟩ := mem_entries_of_mainEdge edge
    refine ⟨(node, x), ⟨⟨(node, targets), listed, ?_⟩, isMain⟩, rfl⟩
    rw [if_neg (not_not.mpr inside)]
    exact List.mem_map.mpr ⟨x, mem_filter.mpr ⟨member, by simpa using outside⟩, rfl⟩

theorem mem_foldl_union {f : String → OrderedSet String} :
    node ∈ l.foldl (fun s x => union s (f x)) s ↔ node ∈ s ∨ ∃ x ∈ l, node ∈ f x := by
  induction l generalizing s with
  | nil => simp
  | cons x rest ih => rw [foldl_cons, ih, mem_union, exists_mem_cons_iff, or_assoc]

theorem mem_getRootNodes : node ∈ getRootNodes graphIds adjacencyList ↔ Root graphIds adjacencyList node := by
  simp only [getRootNodes, mem_difference, mem_foldl_union, OrderedSet.not_mem_empty, false_or, Root,
    mem_otherTargets, ← OrderedSet.mem_def, ne_comm]

theorem size_eq_zero_iff : s.size = 0 ↔ ∀ x, x ∉ s := by
  rw [OrderedSet.size, length_eq_zero_iff, eq_nil_iff_forall_not_mem]
  rfl

theorem mem_foldl_add {keep : String → Prop} [DecidablePred keep] :
    node ∈ l.foldl (fun s x => if keep x then s.add x else s) s ↔ node ∈ s ∨ node ∈ l ∧ keep node := by
  induction l generalizing s with
  | nil => simp
  | cons x rest ih =>
    rw [foldl_cons, ih]
    by_cases same : node = x
    · subst same
      by_cases kept : keep node <;> simp [kept]
    · by_cases kept : keep x <;> simp [kept, same]

theorem mem_getLeafNodes : node ∈ getLeafNodes graphIds adjacencyList ↔ Leaf graphIds adjacencyList node := by
  simp only [getLeafNodes, mem_foldl_add, OrderedSet.not_mem_empty, false_or, Leaf, size_eq_zero_iff,
    mem_intersection, mem_otherTargets, ← OrderedSet.mem_def]
  refine and_congr_right fun _ => ?_
  constructor
  · rintro none ⟨target, inside, other, edge⟩
    exact none target ⟨⟨other, edge⟩, inside⟩
  · rintro none target ⟨⟨other, edge⟩, inside⟩
    exact none ⟨target, inside, other, edge⟩

/-! ## The path check -/

theorem reaches_iff : Reaches (fun a => (mainTargets adjacencyList a).elements) a b ↔
    MainPath adjacencyList a b := by
  simp only [Reaches, MainPath, ← OrderedSet.mem_def, mem_mainTargets]

/-- The search ends and decides reachability, on cyclic graphs as well. -/
theorem hasPath_decides (adjacencyList : IConnectionAdjacencyList) (start end_ : String) :
    ∃ found, hasPath adjacencyList start end_ = some found ∧ (found = true ↔ MainPath adjacencyList start end_) := by
  let vertices := (nodesFrom adjacencyList start).toFinset
  have closed : ∀ a ∈ vertices, ∀ b ∈ mainTargets adjacencyList a, b ∈ vertices := by
    intro a _ b target
    obtain ⟨targets, listed, x, member, _, rfl⟩ := mem_entries_of_mainEdge (mem_mainTargets.mp target)
    simp only [vertices, nodesFrom, mem_toFinset, mem_cons, mem_flatMap, mem_map]
    exact .inr ⟨_, listed, x, member, rfl⟩
  have size : vertices.card ≤ (nodesFrom adjacencyList start).length := toFinset_card_le _
  have enough : vertices.card * vertices.card + 1 <
      (nodesFrom adjacencyList start).length * (nodesFrom adjacencyList start).length + 2 := by
    have := Nat.mul_le_mul size size
    omega
  obtain ⟨found, result, meaning⟩ := StackSearch.search_decides start end_ (by simp [vertices, nodesFrom]) closed enough
  exact ⟨found, result, meaning.trans reaches_iff⟩

theorem InsidePath.of_path (exits : ∀ node, Left graphIds adjacencyList node → node = b)
    (inside : a ∈ graphIds) (path : MainPath adjacencyList a b) : InsidePath graphIds adjacencyList a b := by
  induction path using Relation.ReflTransGen.head_induction_on with
  | refl => exact .refl
  | @head x y edge _ ih =>
    by_cases within : y ∈ graphIds
    · exact .head ⟨inside, within, edge⟩ (ih within)
    · -- the selection is left at its end only
      obtain rfl := exits x ⟨inside, y, within, edge⟩
      exact .refl

theorem InsidePath.path (path : InsidePath graphIds adjacencyList a b) : MainPath adjacencyList a b :=
  Relation.ReflTransGen.mono (fun _ _ step => step.2.2) a b path

end Parts

/-! ## The checks at the boundary -/

section Boundary

variable {nodes boundary : OrderedSet String} {single : String → ExtractableErrorResult}
  {multiple : OrderedSet String → ExtractableErrorResult} {node : String} {s : OrderedSet String}

theorem size_le_one_iff : s.size ≤ 1 ↔ ∀ a ∈ s, ∀ b ∈ s, a = b := by
  obtain ⟨l, distinct⟩ := s
  match l with
  | [] => simp [OrderedSet.size, OrderedSet.mem_def]
  | [_] => simp [OrderedSet.size, OrderedSet.mem_def]
  | a :: b :: rest =>
    simp only [OrderedSet.size, OrderedSet.mem_def, length_cons]
    refine iff_of_false (by omega) fun same => ?_
    have equal : a = b := same a (by simp) b (by simp)
    simp [equal] at distinct

theorem head?_iff (only : s.size ≤ 1) : s.elements.head? = some node ↔ node ∈ s := by
  constructor
  · exact mem_of_head?
  · intro member
    obtain ⟨first, rest, split⟩ := exists_cons_of_ne_nil (ne_nil_of_mem member)
    have here : first ∈ s := by simp [OrderedSet.mem_def, split]
    rw [split, head?_cons, size_le_one_iff.mp only first here node member]

theorem checkBoundary_nil : (checkBoundary nodes boundary single multiple).1 = [] ↔
    (∀ n ∈ boundary, n ∈ orOnly nodes boundary) ∧ boundary.size ≤ 1 := by
  have none : (difference boundary (orOnly nodes boundary)).elements.map single = [] ↔
      ∀ n ∈ boundary, n ∈ orOnly nodes boundary := by
    rw [map_eq_nil_iff, eq_nil_iff_forall_not_mem]
    simp only [← OrderedSet.mem_def, mem_difference, not_and, not_not]
  have both : (∀ n ∈ boundary, n ∈ orOnly nodes boundary) →
      ((intersection (orOnly nodes boundary) boundary).size ≤ 1 ↔ boundary.size ≤ 1) := fun inside => by
    rw [size_le_one_iff, size_le_one_iff]
    simp only [mem_intersection]
    exact ⟨fun same a ha b hb => same a ⟨inside a ha, ha⟩ b ⟨inside b hb, hb⟩,
      fun same a ha b hb => same a ha.2 b hb.2⟩
  simp only [checkBoundary]
  split
  · rename_i several
    refine iff_of_false (by simp) fun ⟨inside, only⟩ => ?_
    have := (both inside).mpr only
    omega
  · rename_i few
    rw [none]
    exact ⟨fun inside => ⟨inside, (both inside).mp (by omega)⟩, And.left⟩

theorem checkBoundary_head (passed : (checkBoundary nodes boundary single multiple).1 = []) :
    (checkBoundary nodes boundary single multiple).2 = some node ↔ node ∈ boundary := by
  obtain ⟨inside, only⟩ := checkBoundary_nil.mp passed
  have few : (intersection (orOnly nodes boundary) boundary).size ≤ 1 := by
    rw [size_le_one_iff] at only ⊢
    exact fun a ha b hb => only a (mem_intersection.mp ha).2 b (mem_intersection.mp hb).2
  rw [checkBoundary, head?_iff few, mem_intersection]
  exact ⟨And.right, fun member => ⟨inside node member, member⟩⟩

theorem checkBoundary_some : (checkBoundary nodes boundary single multiple).1 = [] ∧
      (checkBoundary nodes boundary single multiple).2 = some node ↔
    (∀ n, n ∈ boundary ↔ n = node) ∧ (node ∈ nodes ∨ ∀ n, n ∉ nodes) := by
  have orOnly_iff (alone : ∀ n, n ∈ boundary ↔ n = node) :
      node ∈ orOnly nodes boundary ↔ node ∈ nodes ∨ ∀ n, n ∉ nodes := by
    have one : boundary.size = 1 := by
      have few : boundary.size ≤ 1 := size_le_one_iff.mpr fun a ha b hb =>
        ((alone a).mp ha).trans ((alone b).mp hb).symm
      have some_ : boundary.size ≠ 0 := fun none =>
        size_eq_zero_iff.mp none node ((alone node).mpr rfl)
      omega
    unfold orOnly
    split
    · rename_i empty
      simp [(alone node).mpr rfl, size_eq_zero_iff.mp empty.1]
    · rename_i not
      have some_ : ¬∀ n, n ∉ nodes := fun none => not ⟨size_eq_zero_iff.mpr none, one⟩
      simp [some_]
  constructor
  · rintro ⟨passed, found⟩
    obtain ⟨inside, only⟩ := checkBoundary_nil.mp passed
    have member := (checkBoundary_head passed).mp found
    have alone : ∀ n, n ∈ boundary ↔ n = node := fun n =>
      ⟨fun there => size_le_one_iff.mp only n there node member, fun same => same ▸ member⟩
    exact ⟨alone, (orOnly_iff alone).mp (inside node member)⟩
  · rintro ⟨alone, able⟩
    have passed : (checkBoundary nodes boundary single multiple).1 = [] := by
      refine checkBoundary_nil.mpr ⟨fun n there => ?_, size_le_one_iff.mpr fun a ha b hb => ?_⟩
      · obtain rfl := (alone n).mp there
        exact (orOnly_iff alone).mpr able
      · exact ((alone a).mp ha).trans ((alone b).mp hb).symm
    exact ⟨passed, (checkBoundary_head passed).mpr ((alone node).mpr rfl)⟩

end Boundary

/-! ## Accepted selections -/

section Accepted

variable {graphIds : OrderedSet String} {adjacencyList : IConnectionAdjacencyList} {data : ExtractableSubgraphData}

/-- What the checks at the boundary accept with an entry and an exit. -/
structure Crossed (graphIds : OrderedSet String) (adjacencyList : IConnectionAdjacencyList)
    (start end_ : String) : Prop where
  entry : ∀ node, Entered graphIds adjacencyList node ↔ node = start
  exit : ∀ node, Left graphIds adjacencyList node ↔ node = end_
  root : Root graphIds adjacencyList start ∨ ∀ node, ¬Root graphIds adjacencyList node
  leaf : Leaf graphIds adjacencyList end_ ∨ ∀ node, ¬Leaf graphIds adjacencyList node

abbrev entrance (graphIds : OrderedSet String) (adjacencyList : IConnectionAdjacencyList) :=
  checkBoundary (getRootNodes graphIds adjacencyList) (inputNodes graphIds adjacencyList)
    .inputEdgeToNonRootNode .multipleInputNodes

abbrev wayOut (graphIds : OrderedSet String) (adjacencyList : IConnectionAdjacencyList) :=
  checkBoundary (getLeafNodes graphIds adjacencyList) (outputNodes graphIds adjacencyList)
    .outputEdgeFromNonLeafNode .multipleOutputNodes

theorem crossed_iff {start end_ : String} : Crossed graphIds adjacencyList start end_ ↔
    ((entrance graphIds adjacencyList).1 = [] ∧ (entrance graphIds adjacencyList).2 = some start) ∧
      (wayOut graphIds adjacencyList).1 = [] ∧ (wayOut graphIds adjacencyList).2 = some end_ := by
  rw [checkBoundary_some, checkBoundary_some]
  simp only [mem_inputNodes, mem_outputNodes, mem_getRootNodes, mem_getLeafNodes]
  exact ⟨fun h => ⟨⟨h.entry, h.root⟩, h.exit, h.leaf⟩, fun h => ⟨h.1.1, h.2.1, h.1.2, h.2.2⟩⟩

theorem checkPath_returns (adjacencyList : IConnectionAdjacencyList) (start end_ : Option String) : ∃ errors,
    checkPath adjacencyList start end_ = some errors ∧
      (errors = [] ↔ ∀ a b, start = some a → end_ = some b → a ≠ "" → b ≠ "" → MainPath adjacencyList a b) := by
  cases start with
  | none => exact ⟨[], rfl, by simp⟩
  | some a =>
    cases end_ with
    | none => exact ⟨[], rfl, by simp⟩
    | some b =>
      by_cases named : a ≠ "" ∧ b ≠ ""
      · obtain ⟨found, result, meaning⟩ := hasPath_decides adjacencyList a b
        refine ⟨if found then [] else [.noContinuousPathFromRootToLeaf a b], ?_, ?_⟩
        · simp only [checkPath, if_pos named, result]
          rfl
        · cases found <;> simp_all
      · refine ⟨[], by simp only [checkPath, if_neg named]; rfl, ?_⟩
        simp only [true_iff, Option.some.injEq]
        rintro _ _ rfl rfl one two
        exact absurd ⟨one, two⟩ named

theorem parse_eq (graphIds : OrderedSet String) (adjacencyList : IConnectionAdjacencyList) :
    parseExtractableSubgraphSelection graphIds adjacencyList =
      checkPath adjacencyList (entrance graphIds adjacencyList).2 (wayOut graphIds adjacencyList).2 >>=
        fun pathErrors =>
          let errors := (entrance graphIds adjacencyList).1 ++ (wayOut graphIds adjacencyList).1 ++ pathErrors
          pure (if errors.length > 0 then .error errors
            else .ok ⟨(entrance graphIds adjacencyList).2, (wayOut graphIds adjacencyList).2⟩) := rfl

theorem parse_returns (graphIds : OrderedSet String) (adjacencyList : IConnectionAdjacencyList) :
    ∃ verdict, parseExtractableSubgraphSelection graphIds adjacencyList = some verdict ∧ ∀ data, verdict = .ok data ↔
        ((entrance graphIds adjacencyList).1 = [] ∧ (entrance graphIds adjacencyList).2 = data.start) ∧
        ((wayOut graphIds adjacencyList).1 = [] ∧ (wayOut graphIds adjacencyList).2 = data.end_) ∧
        ∀ a b, data.start = some a → data.end_ = some b → a ≠ "" → b ≠ "" → MainPath adjacencyList a b := by
  obtain ⟨pathErrors, result, meaning⟩ := checkPath_returns adjacencyList
    (entrance graphIds adjacencyList).2 (wayOut graphIds adjacencyList).2
  refine ⟨_, by rw [parse_eq, result]; rfl, fun data => ?_⟩
  obtain ⟨start, end_⟩ := data
  have accepted : ∀ errors : List ExtractableErrorResult, ∀ value,
      (if errors.length > 0 then Except.error errors else .ok value) = Except.ok ⟨start, end_⟩ ↔
        errors = [] ∧ value = (⟨start, end_⟩ : ExtractableSubgraphData) := by
    rintro (_ | ⟨error, errors⟩) value <;> simp
  rw [accepted]
  simp only [append_eq_nil_iff, meaning, ExtractableSubgraphData.mk.injEq]
  constructor
  · rintro ⟨⟨⟨inputs, outputs⟩, checked⟩, rfl, rfl⟩
    exact ⟨⟨inputs, rfl⟩, ⟨outputs, rfl⟩, checked⟩
  · rintro ⟨⟨inputs, rfl⟩, ⟨outputs, rfl⟩, checked⟩
    exact ⟨⟨⟨inputs, outputs⟩, checked⟩, rfl, rfl⟩

def AcceptsWellFormed (graphIds : OrderedSet String) (adjacencyList : IConnectionAdjacencyList) : Prop :=
  ∃ verdict, parseExtractableSubgraphSelection graphIds adjacencyList = some verdict ∧
    ∀ data, verdict = .ok data → WellFormedSelection graphIds adjacencyList data

/-- The selection is well formed up to the path between its entry and its exit, there is none,
and one of the two has the empty name. -/
def EmptyNameWithoutPath (graphIds : OrderedSet String) (adjacencyList : IConnectionAdjacencyList) : Prop :=
  ∃ start end_, Crossed graphIds adjacencyList start end_ ∧ (start = "" ∨ end_ = "") ∧
    ¬MainPath adjacencyList start end_

theorem acceptsWellFormed_iff : AcceptsWellFormed graphIds adjacencyList ↔
    ¬EmptyNameWithoutPath graphIds adjacencyList := by
  obtain ⟨verdict, result, meaning⟩ := parse_returns graphIds adjacencyList
  constructor
  · rintro ⟨_, same, formed⟩ ⟨start, end_, crossed, empty, apart⟩
    obtain rfl := Option.some.inj (result.symm.trans same)
    obtain ⟨inputs, outputs⟩ := crossed_iff.mp crossed
    have accepted : verdict = .ok ⟨some start, some end_⟩ := by
      refine (meaning _).mpr ⟨inputs, outputs, ?_⟩
      rintro _ _ ⟨⟩ ⟨⟩ one two
      exact (empty.elim one two).elim
    exact apart ((formed _ accepted).inside start end_ rfl rfl).path
  · intro connected
    refine ⟨verdict, result, fun data accepted => ?_⟩
    obtain ⟨⟨inputs, start⟩, ⟨outputs, end_⟩, checked⟩ := (meaning data).mp accepted
    have entered : ∀ node, data.start = some node ↔ Entered graphIds adjacencyList node := fun node => by
      rw [← start, checkBoundary_head inputs, mem_inputNodes]
    have left : ∀ node, data.end_ = some node ↔ Left graphIds adjacencyList node := fun node => by
      rw [← end_, checkBoundary_head outputs, mem_outputNodes]
    refine ⟨entered, left, fun a b here there => ?_⟩
    have path : MainPath adjacencyList a b := by
      by_contra apart
      have crossed : Crossed graphIds adjacencyList a b :=
        crossed_iff.mpr ⟨⟨inputs, start.trans here⟩, outputs, end_.trans there⟩
      refine connected ⟨a, b, crossed, ?_, apart⟩
      by_contra named
      obtain ⟨one, two⟩ := not_or.mp named
      exact apart (checked a b here there one two)
    refine InsidePath.of_path (fun node exits => ?_) ((entered a).mp here).1 path
    exact Option.some.inj (((left node).mpr exits).symm.trans there)

/-- The path check decides reachability, and what the parser accepts is well formed, unless an
entry or an exit with the empty name keeps it from looking for the path. -/
theorem selection_wellFormed_iff (graphIds : OrderedSet String) (adjacencyList : IConnectionAdjacencyList) :
    ((∀ start end_, ∃ found, hasPath adjacencyList start end_ = some found ∧
        (found = true ↔ MainPath adjacencyList start end_)) ∧
      AcceptsWellFormed graphIds adjacencyList) ↔ ¬EmptyNameWithoutPath graphIds adjacencyList :=
  ⟨fun h => acceptsWellFormed_iff.mp h.2, fun h => ⟨hasPath_decides adjacencyList, acceptsWellFormed_iff.mpr h⟩⟩

/-- The selected nodes are not connected; the one that is entered has the empty name. -/
def unnamedEntry : IConnectionAdjacencyList :=
  ⟨[("before", [⟨"", .main, 0⟩]), ("last", [⟨"after", .main, 0⟩])], by decide⟩

theorem unnamedEntry_accepted : parseExtractableSubgraphSelection ⟨["", "last"], by decide⟩ unnamedEntry =
        some (.ok ⟨some "", some "last"⟩) ∧
      ¬WellFormedSelection ⟨["", "last"], by decide⟩ unnamedEntry ⟨some "", some "last"⟩ := by
  refine ⟨rfl, fun formed => ?_⟩
  have path := formed.inside "" "last" rfl rfl
  rcases Relation.ReflTransGen.cases_head path with same | ⟨next, ⟨_, _, x, member, _⟩, _⟩
  · exact absurd same (by decide)
  · cases member

end Accepted

end N8n.GraphUtils
