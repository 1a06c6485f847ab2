import Mathlib.Data.Finset.Card
import N8n.DepthFirst
import N8n.OrderedSet

/-! A search through a finite graph with a stack that may hold a vertex several times: a vertex
is marked when it is taken off, and its unmarked children are pushed. Whatever is marked has
its unmarked children above every copy of itself, so a copy that is taken off later pushes
nothing, and the search ends. -/

namespace N8n.StackSearch

open DepthFirst (Reaches)
open List

variable {α : Type*} [DecidableEq α]

/-- What the visit of a vertex pushes. -/
def unseen (children : α → OrderedSet α) (seen : List α) (a : α) : List α :=
  ((children a).filter (· ∉ seen)).elements

def search (children : α → OrderedSet α) (target : α) : (fuel : ℕ) → (seen stack : List α) → Option Bool
  | 0, _, _ => none
  | _ + 1, _, [] => some false
  | fuel + 1, seen, a :: stack =>
    if a = target then some true
    else search children target fuel (a :: seen) ((unseen children (a :: seen) a).reverse ++ stack)

structure Searching (children : α → OrderedSet α) (source target : α) (seen stack : List α) : Prop where
  reached : ∀ a ∈ seen ++ stack, Reaches (fun a => (children a).elements) source a
  started : source ∈ seen ++ stack
  missed : target ∉ seen
  closed : ∀ a ∈ seen, ∀ b ∈ children a, b ∈ seen ++ stack
  above : ∀ pre a post, stack = pre ++ a :: post → a ∈ seen → ∀ b ∈ children a, b ∈ seen ++ pre

section Search

variable {children : α → OrderedSet α} {source target a : α} {seen stack : List α} {vertices : Finset α} {fuel : ℕ}

theorem mem_unseen {b : α} : b ∈ unseen children seen a ↔ b ∈ children a ∧ b ∉ seen := by
  simp [unseen, ← OrderedSet.mem_def]

omit [DecidableEq α] in
theorem Searching.start (children : α → OrderedSet α) (source target : α) :
    Searching children source target [] [source] where
  reached := by simp [Reaches, Relation.ReflTransGen.refl]
  started := by simp
  missed := by simp
  closed := by simp
  above := by simp

theorem Searching.step (h : Searching children source target seen (a :: stack)) (other : a ≠ target) :
    Searching children source target (a :: seen) ((unseen children (a :: seen) a).reverse ++ stack) where
  reached := by
    have here := h.reached a (by simp)
    intro b member
    simp only [cons_append, mem_cons, mem_append, mem_reverse, mem_unseen] at member
    rcases member with rfl | old | ⟨child, _⟩ | below
    · exact here
    · exact h.reached b (by simp [old])
    · exact here.tail child
    · exact h.reached b (by simp [below])
  started := by
    have := h.started
    simp only [mem_append, mem_cons] at this ⊢
    tauto
  missed := by
    simp [other.symm, h.missed]
  closed := by
    intro b member c child
    simp only [mem_append, mem_cons, mem_reverse, mem_unseen] at member ⊢
    rcases member with rfl | old
    · by_cases seenC : c = b ∨ c ∈ seen
      · exact .inl seenC
      · exact .inr (.inl ⟨child, seenC⟩)
    · have := h.closed b old c child
      simp only [mem_append, mem_cons] at this
      tauto
  above := by
    intro pre b post split marked c child
    have fresh : ∀ x ∈ (unseen children (a :: seen) a).reverse, x ∉ a :: seen := fun x member =>
      (mem_unseen.mp (mem_reverse.mp member)).2
    rcases append_eq_append_iff.mp split with ⟨between, rfl, below⟩ | ⟨between, pushed, below⟩
    · rcases mem_cons.mp marked with rfl | old
      · simp only [mem_append, mem_reverse, mem_unseen]
        tauto
      · have := h.above (a :: between) b post (by rw [below, cons_append]) old c child
        simp only [mem_append, mem_cons] at this ⊢
        tauto
    · cases between with
      | nil =>
        rw [append_nil] at pushed
        have below : stack = b :: post := below.symm
        rcases mem_cons.mp marked with rfl | old
        · simp only [← pushed, mem_append, mem_reverse, mem_unseen]
          tauto
        · have := h.above [a] b post (by rw [below, cons_append, nil_append]) old c child
          simp only [mem_append, mem_cons] at this ⊢
          tauto
      | cons x between =>
        have same : b = x := (List.cons.inj below).1
        exact absurd marked (fresh b (by simp [pushed, same]))

/-- The steps that are left: each pop of an unmarked vertex pushes at most all vertices. -/
def steps (vertices : Finset α) (seen stack : List α) : ℕ :=
  stack.length + (vertices \ seen.toFinset).card * vertices.card

theorem Searching.steps_lt (h : Searching children source target seen (a :: stack)) (inside : a ∈ vertices)
    (closed : ∀ a ∈ vertices, ∀ b ∈ children a, b ∈ vertices) :
    steps vertices (a :: seen) ((unseen children (a :: seen) a).reverse ++ stack) <
      steps vertices seen (a :: stack) := by
  have distinct : (unseen children (a :: seen) a).Nodup := OrderedSet.nodup _
  by_cases marked : a ∈ seen
  · have nothing : unseen children (a :: seen) a = [] := by
      refine eq_nil_iff_forall_not_mem.mpr fun b member => ?_
      obtain ⟨child, fresh⟩ := mem_unseen.mp member
      have := h.above [] a stack rfl marked b child
      rw [append_nil] at this
      exact fresh (mem_cons_of_mem _ this)
    have same : (a :: seen).toFinset = seen.toFinset := by simp [marked]
    rw [steps, steps, nothing, same]
    simp
  · have pushes : (unseen children (a :: seen) a).length ≤ vertices.card := by
      rw [← toFinset_card_of_nodup distinct]
      refine Finset.card_le_card fun b member => ?_
      exact closed a inside b (mem_unseen.mp (List.mem_toFinset.mp member)).1
    have fewer : (vertices \ (a :: seen).toFinset).card + 1 = (vertices \ seen.toFinset).card := by
      rw [toFinset_cons, Finset.sdiff_insert]
      exact Finset.card_erase_add_one (by simp [inside, marked])
    rw [steps, steps, ← fewer, Nat.add_mul]
    simp only [length_append, length_reverse, length_cons]
    omega

omit [DecidableEq α] in
/-- What is marked when the stack is empty is closed under children. -/
theorem Searching.exhausted (h : Searching children source target seen []) :
    ¬Reaches (fun a => (children a).elements) source target := by
  intro path
  have closed : ∀ a ∈ seen, ∀ b ∈ (children a).elements, b ∈ seen := fun a member b child => by
    simpa using h.closed a member b child
  exact h.missed (path.mem_of_closed closed (by simpa using h.started))

theorem Searching.decides (h : Searching children source target seen stack)
    (inside : ∀ a ∈ stack, a ∈ vertices) (closed : ∀ a ∈ vertices, ∀ b ∈ children a, b ∈ vertices)
    (enough : steps vertices seen stack < fuel) :
    ∃ found, search children target fuel seen stack = some found ∧
      (found = true ↔ Reaches (fun a => (children a).elements) source target) := by
  induction fuel generalizing seen stack with
  | zero => exact absurd enough (Nat.not_lt_zero _)
  | succ fuel ih =>
    cases stack with
    | nil => exact ⟨false, rfl, by simp [h.exhausted]⟩
    | cons a stack =>
      by_cases goal : a = target
      · subst goal
        exact ⟨true, by simp [search], by simpa using h.reached a (by simp)⟩
      · obtain ⟨here, below⟩ := forall_mem_cons.mp inside
        have fewer := h.steps_lt here closed
        have pushed : ∀ b ∈ (unseen children (a :: seen) a).reverse ++ stack, b ∈ vertices := by
          intro b member
          rcases mem_append.mp member with new | old
          · exact closed a here b (mem_unseen.mp (mem_reverse.mp new)).1
          · exact below b old
        obtain ⟨found, result, meaning⟩ := ih (h.step goal) pushed (by omega)
        exact ⟨found, by rw [search, if_neg goal, result], meaning⟩

theorem search_decides (source target : α) (inside : source ∈ vertices)
    (closed : ∀ a ∈ vertices, ∀ b ∈ children a, b ∈ vertices) (enough : vertices.card * vertices.card + 1 < fuel) :
    ∃ found, search children target fuel [] [source] = some found ∧
      (found = true ↔ Reaches (fun a => (children a).elements) source target) := by
  refine (Searching.start children source target).decides (by simpa using inside) closed ?_
  simp only [steps, toFinset_nil, Finset.sdiff_empty, length_singleton]
  omega

end Search

end N8n.StackSearch
