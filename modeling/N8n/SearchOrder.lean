import N8n.HandleCycles

/-! The depth-first search for a node with a property looks through the nodes in one order, whatever
the property is, and stops at the first that has it. -/

namespace N8n.PartialExecution

open PartialExecution.DirectedGraph PartialExecution.GraphConnection List Option

namespace DirectedGraph

/-- The nodes in the order in which the search from a node meets them when it finds nothing. -/
def searchOrder (graph : DirectedGraph) (node : GraphNode) : List GraphNode :=
  ((graph.depthFirstSearchRecursive (fun _ => false) (graph.getNodes.length + 1) node []).map Prod.snd).getD []

end DirectedGraph

variable {graph : DirectedGraph} {node x : GraphNode} {fn : GraphNode → Bool} {seen after : List GraphNode}
  {found : Option GraphNode}

structure FindsIn (search : Option (Option GraphNode × List GraphNode)) (fn : GraphNode → Bool)
    (seen after : List GraphNode) : Prop where
  all : ∃ new, after = seen ++ new ∧ (new.find? fn = none → search = some (none, after)) ∧
    ∀ n, new.find? fn = some n → ∃ mid, search = some (some n, mid)

/-- The search without a property goes on behind every node at which the other may stop. -/
theorem depthFirstSearchRecursive_find {fuel : ℕ}
    (full : graph.depthFirstSearchRecursive (fun _ => false) fuel node seen = some (found, after)) :
    found = none ∧ FindsIn (graph.depthFirstSearchRecursive fn fuel node seen) fn seen after := by
  induction fuel generalizing node seen found after with
  | zero =>
    obtain ⟨rfl, rfl⟩ := Prod.mk.inj (some.inj full)
    exact ⟨rfl, [], by simp, by simp [depthFirstSearchRecursive], by simp⟩
  | succ fuel ih =>
    rw [depthFirstSearchRecursive] at full ⊢
    by_cases old : node ∈ seen
    · rw [if_pos old] at full ⊢
      obtain ⟨rfl, rfl⟩ := Prod.mk.inj (some.inj full)
      exact ⟨rfl, [], by simp, by simp, by simp⟩
    rw [if_neg old, if_neg Bool.false_ne_true, bind_eq_bind, bind_eq_some_iff] at full
    obtain ⟨cs, children, rest⟩ := full
    rw [if_neg old]
    -- over the connections that remain
    have each : ∀ (cs : List GraphConnection) (start : List GraphNode) (found : Option GraphNode)
        (after : List GraphNode), cs.foldlM (fun state c => if state.1.isSome then some state
          else graph.depthFirstSearchRecursive (fun _ => false) fuel c.toNode state.2) (none, start) =
            some (found, after) →
        found = none ∧ FindsIn (cs.foldlM (fun state c => if state.1.isSome then some state
          else graph.depthFirstSearchRecursive fn fuel c.toNode state.2) (none, start)) fn start after := by
      intro cs
      induction cs with
      | nil =>
        intro start found after full
        obtain ⟨rfl, rfl⟩ := Prod.mk.inj (some.inj full)
        exact ⟨rfl, [], by simp, by simp, by simp⟩
      | cons c cs inner =>
        intro start found after full
        obtain ⟨⟨foundFirst, mid⟩, first, rest⟩ := foldlM_cons_eq_some.mp full
        simp only [isSome_none, Bool.false_eq_true, if_false] at first
        obtain ⟨rfl, ⟨new, rfl, passes, stops⟩⟩ := ih first
        obtain ⟨rfl, ⟨later, rfl, passesLater, stopsLater⟩⟩ := inner _ _ _ rest
        refine ⟨rfl, new ++ later, by simp, fun nothing => ?_, fun n finds => ?_⟩
        · rw [find?_append, or_eq_none_iff] at nothing
          rw [foldlM_cons]
          simp only [isSome_none, Bool.false_eq_true, if_false, passes nothing.1]
          exact passesLater nothing.2
        · rw [foldlM_cons]
          simp only [isSome_none, Bool.false_eq_true, if_false]
          rw [find?_append] at finds
          cases here : new.find? fn with
          | none =>
            rw [here, none_or] at finds
            rw [passes here]
            exact stopsLater n finds
          | some m =>
            rw [here, some_or] at finds
            obtain rfl := some.inj finds
            obtain ⟨mid, stopped⟩ := stops m here
            rw [stopped]
            exact ⟨mid, foldlM_found (fun seen c => graph.depthFirstSearchRecursive fn fuel c.toNode seen) rfl⟩
    obtain ⟨rfl, ⟨new, rfl, passes, stops⟩⟩ := each cs _ _ _ rest
    refine ⟨rfl, node :: new, by simp, fun nothing => ?_, fun n finds => ?_⟩
    · rw [find?_cons] at nothing
      cases isFound : fn node with
      | true => simp [isFound] at nothing
      | false =>
        rw [isFound] at nothing
        rw [if_neg Bool.false_ne_true, children]
        exact passes nothing
    · rw [find?_cons] at finds
      cases isFound : fn node with
      | true =>
        rw [isFound] at finds
        obtain rfl := some.inj finds
        exact ⟨seen ++ [node], if_pos rfl⟩
      | false =>
        rw [isFound] at finds
        rw [if_neg Bool.false_ne_true, children]
        exact stops n finds

section Order

variable (below : StoresBelow graph node)

include below

theorem searchOrder_done : graph.depthFirstSearchRecursive (fun _ => false) (graph.getNodes.length + 1) node [] =
    some (none, graph.searchOrder node) ∧ Looked graph (fun _ => false) node [] [] (graph.searchOrder node) none ∧
      node ∈ graph.searchOrder node := by
  have start : Seen graph [] := ⟨nodup_nil, by simp⟩
  obtain ⟨found, after, done, looked, met⟩ : ∃ found after,
      graph.depthFirstSearchRecursive (fun _ => false) (graph.getNodes.length + 1) node [] = some (found, after) ∧
        Looked graph (fun _ => false) node [] [] after found ∧ (found = none → node ∈ after) :=
    depthFirstSearchRecursive_looked below start (by simp)
  have same : graph.searchOrder node = after := by rw [searchOrder, done]; rfl
  cases found with
  | none => exact ⟨same ▸ done, same ▸ looked, same ▸ met rfl⟩
  | some n => exact absurd (looked.finds n rfl).1 Bool.false_ne_true

theorem depthFirstSearch_eq (fn : GraphNode → Bool) :
    graph.depthFirstSearch node fn = some ((graph.searchOrder node).find? fn) := by
  have full : none = none ∧ FindsIn (graph.depthFirstSearchRecursive fn (graph.getNodes.length + 1) node []) fn []
      (graph.searchOrder node) := depthFirstSearchRecursive_find (searchOrder_done below).1
  obtain ⟨new, same, passes, stops⟩ := full.2
  rw [nil_append] at same
  subst same
  rw [depthFirstSearch]
  cases finds : (graph.searchOrder node).find? fn with
  | none => rw [passes finds]; rfl
  | some n =>
    obtain ⟨mid, stopped⟩ := stops n finds
    rw [stopped]
    rfl

theorem mem_searchOrder : x ∈ graph.searchOrder node ↔ ∃ cs, ConnectionTrail graph node cs x := by
  obtain ⟨found, done, finds, notNone⟩ : ∃ found, graph.depthFirstSearch node (fun n => decide (n = x)) = some found ∧
      _ ∧ _ := depthFirstSearch_spec below
  rw [depthFirstSearch_eq below, some.injEq] at done
  subst done
  constructor
  · intro member
    have here : (graph.searchOrder node).find? (· = x) = some x := by
      cases first : (graph.searchOrder node).find? (· = x) with
      | none => exact absurd (find?_eq_none.mp first x member) (by simp)
      | some y =>
        have same : y = x := by simpa using find?_some first
        rw [same]
    exact (finds x here).2
  · rintro ⟨cs, trail⟩
    obtain ⟨y, member, same⟩ := find?_isSome.mp (ne_none_iff_isSome.mp (notNone cs x trail (by simp)))
    exact (of_decide_eq_true same) ▸ member

end Order

end N8n.PartialExecution
