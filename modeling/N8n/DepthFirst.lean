import Mathlib.Data.List.Nodup
import Mathlib.Logic.Relation

/-! Depth-first exploration of a graph that is given by the successors of each vertex.
The trace of an exploration is the order in which vertices are first met and the
order in which edges are left behind: an edge is left behind once everything below
its target has been explored.
`Leads` follows edges back in time. A value that is handed from the target of an edge
to its source when the edge is left behind gets exactly that far. -/

namespace N8n.DepthFirst

open List

variable {α : Type*}

def Reaches (children : α → List α) : α → α → Prop :=
  Relation.ReflTransGen fun a b => b ∈ children a

/-- Two vertices of one strongly connected component. -/
def Linked (children : α → List α) (a b : α) : Prop :=
  Reaches children a b ∧ Reaches children b a

structure Trace (α : Type*) where
  visited : List α
  edges : List (α × α)

section Explore

variable [DecidableEq α] (children : α → List α)

/-- Nested calls meet a new vertex each, so `fuel` never runs out when it exceeds the
number of vertices not met. -/
def explore : (fuel : ℕ) → α → Trace α → Trace α
  | 0, _, t => t
  | fuel + 1, vertex, t =>
    if vertex ∈ t.visited then t
    else (children vertex).foldl (fun t child =>
      let below := explore fuel child t
      ⟨below.visited, (vertex, child) :: below.edges⟩) ⟨t.visited ++ [vertex], t.edges⟩

def exploreAll (vertices : List α) : Trace α :=
  vertices.foldl (fun t vertex => explore children (vertices.length + 1) vertex t) ⟨[], []⟩

/-- The vertex of the component of `a` that is met first. -/
def MetFirst (t : Trace α) (a first : α) : Prop :=
  Linked children a first ∧ ∀ b, Linked children a b → t.visited.idxOf first ≤ t.visited.idxOf b

end Explore

/-- There is a path from `a` to `b` whose edges were left behind in the reverse order. -/
def Leads : List (α × α) → α → α → Prop
  | [], a, b => a = b
  | edge :: earlier, a, b => Leads earlier a b ∨ a = edge.1 ∧ Leads earlier edge.2 b

instance Leads.decidable [DecidableEq α] : (edges : List (α × α)) → (a b : α) → Decidable (Leads edges a b)
  | [], a, b => inferInstanceAs (Decidable (a = b))
  | edge :: earlier, a, b =>
    have := Leads.decidable earlier a b
    have := Leads.decidable earlier edge.2 b
    inferInstanceAs (Decidable (Leads earlier a b ∨ a = edge.1 ∧ Leads earlier edge.2 b))

namespace Leads

variable {children : α → List α} {edges later : List (α × α)} {a b : α}

theorem refl (edges : List (α × α)) (a : α) : Leads edges a a := by
  induction edges with
  | nil => rfl
  | cons edge earlier ih => exact .inl ih

theorem reaches (real : ∀ edge ∈ edges, edge.2 ∈ children edge.1) (h : Leads edges a b) : Reaches children a b := by
  induction edges generalizing a with
  | nil => exact h ▸ .refl
  | cons edge earlier ih =>
    have tail : ∀ e ∈ earlier, e.2 ∈ children e.1 := fun e member =>
      real e (mem_cons_of_mem _ member)
    rcases h with before | ⟨rfl, rest⟩
    · exact ih tail before
    · exact .head (real edge mem_cons_self) (ih tail rest)

theorem of_append (elsewhere : ∀ edge ∈ later, edge.1 ≠ a) (h : Leads (later ++ edges) a b) : Leads edges a b := by
  induction later with
  | nil => exact h
  | cons edge later ih =>
    rcases h with before | ⟨here, _⟩
    · exact ih (fun e member => elsewhere e (mem_cons_of_mem _ member)) before
    · exact absurd here.symm (elsewhere edge mem_cons_self)

theorem eq_of_no_edge (elsewhere : ∀ edge ∈ edges, edge.1 ≠ a) (h : Leads edges a b) : a = b :=
  have whole : Leads (edges ++ []) a b := by rwa [append_nil]
  whole.of_append elsewhere

theorem eq_or_target (h : Leads edges a b) : a = b ∨ ∃ edge ∈ edges, edge.2 = b := by
  induction edges generalizing a with
  | nil => exact .inl h
  | cons edge earlier ih =>
    rcases h with before | ⟨_, rest⟩
    · rcases ih before with same | ⟨other, member, target⟩
      · exact .inl same
      · exact .inr ⟨other, mem_cons_of_mem _ member, target⟩
    · rcases ih rest with same | ⟨other, member, target⟩
      · exact .inr ⟨edge, mem_cons_self, same⟩
      · exact .inr ⟨other, mem_cons_of_mem _ member, target⟩

end Leads

namespace Linked

variable {children : α → List α} {a b c : α}

theorem refl (a : α) : Linked children a a := ⟨.refl, .refl⟩

theorem symm (h : Linked children a b) : Linked children b a := ⟨h.2, h.1⟩

theorem trans (h : Linked children a b) (g : Linked children b c) : Linked children a c :=
  ⟨h.1.trans g.1, g.2.trans h.2⟩

end Linked

/-- A set that is closed under edges contains everything it reaches. -/
theorem Reaches.mem_of_closed {children : α → List α} {p : α → Prop}
    (closed : ∀ a, p a → ∀ b ∈ children a, p b) {a b : α} (h : Reaches children a b) (start : p a) : p b := by
  induction h with
  | refl => exact start
  | tail _ edge ih => exact closed _ ih _ edge

end N8n.DepthFirst
