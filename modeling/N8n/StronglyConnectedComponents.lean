import N8n.DepthFirst
import N8n.DirectedGraph
import Mathlib.Data.List.TakeWhile

/-! `getStronglyConnectedComponents`. The top of the stack is the head of the list. The
low-link value of a node is lowered to that of each child that is on the stack once
the child has been followed, and a node whose value is its own id pops the stack as
long as the value on top is that id. -/

namespace N8n.DirectedGraph

open List

def childrenOf (graph : DirectedGraph) (node : String) : List String :=
  (graph.getDirectChildConnections node).map (·.toNode)

structure SccState where
  id : ℕ
  visited : List String
  ids : OrderedMap String ℕ
  lowLinkValues : OrderedMap String ℕ
  stack : List String
  stronglyConnectedComponents : List (List String)
  deriving DecidableEq

def openNode (node : String) (s : SccState) : SccState :=
  { s with
    id := s.id + 1
    visited := s.visited ++ [node]
    ids := s.ids.set node s.id
    lowLinkValues := s.lowLinkValues.set node s.id
    stack := node :: s.stack }

/-- After a child has been followed; both values are asserted to exist. -/
def lowerLink (node child : String) (s : SccState) : SccState :=
  if child ∈ s.stack then
    match s.lowLinkValues.get child, s.lowLinkValues.get node with
    | some childLowLinkValue, some ownLowLinkValue =>
      { s with lowLinkValues := s.lowLinkValues.set node (min childLowLinkValue ownLowLinkValue) }
    | _, _ => s
  else s

section LowerLink

variable (node child : String) (s : SccState)

@[simp] theorem lowerLink_id : (lowerLink node child s).id = s.id := by
  grind [lowerLink]

@[simp] theorem lowerLink_visited : (lowerLink node child s).visited = s.visited := by
  grind [lowerLink]

@[simp] theorem lowerLink_ids : (lowerLink node child s).ids = s.ids := by
  grind [lowerLink]

@[simp] theorem lowerLink_stack : (lowerLink node child s).stack = s.stack := by
  grind [lowerLink]

@[simp] theorem lowerLink_components : (lowerLink node child s).stronglyConnectedComponents =
    s.stronglyConnectedComponents := by
  grind [lowerLink]

theorem lowerLink_get_ne {other : String} (different : other ≠ node) :
    (lowerLink node child s).lowLinkValues.get other = s.lowLinkValues.get other := by
  unfold lowerLink
  split
  · split
    · exact s.lowLinkValues.get_set_ne _ different
    · rfl
  · rfl

variable {node child s}

theorem lowerLink_get {childValue ownValue : ℕ} (onStack : child ∈ s.stack)
    (below : s.lowLinkValues.get child = some childValue) (own : s.lowLinkValues.get node = some ownValue) :
    (lowerLink node child s).lowLinkValues.get node = some (min childValue ownValue) := by
  simp only [lowerLink, onStack, if_true, below, own, OrderedMap.get_set_self]

theorem lowerLink_off_stack (popped : child ∉ s.stack) : lowerLink node child s = s := by
  simp only [lowerLink, popped, if_false]

end LowerLink

def closeNode (node : String) (s : SccState) : SccState :=
  if s.ids.get node = s.lowLinkValues.get node then
    let scc := s.stack.takeWhile fun next => s.lowLinkValues.get next = s.ids.get node
    { s with
      stack := s.stack.dropWhile fun next => s.lowLinkValues.get next = s.ids.get node
      stronglyConnectedComponents :=
        if scc.isEmpty then s.stronglyConnectedComponents else s.stronglyConnectedComponents ++ [scc] }
  else s

section CloseNode

variable (node : String) (s : SccState)

@[simp] theorem closeNode_id : (closeNode node s).id = s.id := by
  grind [closeNode]

@[simp] theorem closeNode_visited : (closeNode node s).visited = s.visited := by
  grind [closeNode]

@[simp] theorem closeNode_ids : (closeNode node s).ids = s.ids := by
  grind [closeNode]

@[simp] theorem closeNode_lowLinkValues : (closeNode node s).lowLinkValues = s.lowLinkValues := by
  grind [closeNode]

theorem mem_closeNode_components {other : String}
    (member : other ∈ (closeNode node s).stronglyConnectedComponents.flatten) :
    other ∈ s.stronglyConnectedComponents.flatten ∨ s.lowLinkValues.get other = s.ids.get node := by
  unfold closeNode at member
  split at member
  · dsimp only at member
    split at member
    · exact .inl member
    · rw [flatten_append, mem_append] at member
      refine member.imp id fun popped => ?_
      rw [flatten_singleton] at popped
      simpa using mem_takeWhile_imp popped
  · exact .inl member

variable {node s} {newer older : List String}

theorem closeNode_pop (stack : s.stack = newer ++ node :: older) (own : s.ids.get node = s.lowLinkValues.get node)
    (down : ∀ other ∈ newer, s.lowLinkValues.get other = s.ids.get node)
    (below : ∀ other ∈ older, s.lowLinkValues.get other ≠ s.ids.get node) :
    closeNode node s = { s with
      stack := older
      stronglyConnectedComponents := s.stronglyConnectedComponents ++ [newer ++ [node]] } := by
  rw [closeNode, if_pos own]
  simp only [stack]
  generalize popped : (fun next => decide (s.lowLinkValues.get next = s.ids.get node)) = pops
  have newerPops : ∀ other ∈ newer, pops other = true := by simpa [← popped] using down
  have nodePops : pops node = true := by simp [← popped, own]
  have taken : older.takeWhile pops = [] :=
    takeWhile_eq_nil_iff.mpr fun _ => by
      simpa [← popped] using below _ (getElem_mem ..)
  have dropped : older.dropWhile pops = older :=
    dropWhile_eq_self_iff.mpr fun _ => by
      simpa [← popped] using below _ (getElem_mem ..)
  rw [takeWhile_append_of_pos newerPops, dropWhile_append_of_pos newerPops,
    takeWhile_cons_of_pos nodePops, dropWhile_cons_of_pos nodePops, taken, dropped]
  simp

/-- A node above that is not popped keeps `node` on the stack. -/
theorem closeNode_keeps {stuck : String} (stack : s.stack = newer ++ node :: older)
    (above : node ∉ newer) (member : stuck ∈ newer) (stays : s.lowLinkValues.get stuck ≠ s.ids.get node)
    (unpopped : node ∉ s.stronglyConnectedComponents.flatten) :
    node ∉ (closeNode node s).stronglyConnectedComponents.flatten := by
  have short : s.stack.takeWhile (fun next => s.lowLinkValues.get next = s.ids.get node) =
      newer.takeWhile fun next => s.lowLinkValues.get next = s.ids.get node := by
    rw [stack, takeWhile_append, if_neg]
    intro whole
    have all := takeWhile_eq_self_iff.mp ((List.takeWhile_prefix _).eq_of_length whole) stuck member
    exact stays (by simpa using all)
  rw [closeNode]
  split
  · dsimp only
    split
    · exact unpopped
    · rw [flatten_append, mem_append, flatten_singleton, short]
      rintro (before | popped)
      · exact unpopped before
      · exact above ((List.takeWhile_prefix _).subset popped)
  · exact unpopped

end CloseNode

/-- Nested calls visit a new node each, so `fuel` never runs out when it exceeds the
number of nodes. -/
def followNode (graph : DirectedGraph) : (fuel : ℕ) → String → SccState → SccState
  | 0, _, s => s
  | fuel + 1, node, s =>
    if node ∈ s.visited then s
    else closeNode node ((graph.childrenOf node).foldl
      (fun s child => lowerLink node child (followNode graph fuel child s)) (openNode node s))

def getStronglyConnectedComponents (graph : DirectedGraph) : List (List String) :=
  (graph.nodes.foldl (fun s node => followNode graph (graph.nodes.length + 1) node s)
    ⟨0, [], .empty, .empty, [], []⟩).stronglyConnectedComponents

end N8n.DirectedGraph
