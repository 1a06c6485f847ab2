import Mathlib.Algebra.GroupWithZero.Nat
import Mathlib.Algebra.Order.BigOperators.Group.List
import Mathlib.Algebra.Order.Group.Nat
import N8n.DepthFirst

/-! Marking what a stack of vertices reaches, a vertex being marked when it is taken off. With
enough fuel for all that can be pushed the marked vertices are closed under children. -/

namespace N8n.Marking

open DepthFirst (Reaches)
open List

variable {α : Type*} [DecidableEq α]

def mark (children : α → List α) : (fuel : ℕ) → (seen stack : List α) → List α
  | 0, seen, _ => seen
  | _ + 1, seen, [] => seen
  | fuel + 1, seen, a :: stack =>
    if a ∈ seen then mark children fuel seen stack
    else mark children fuel (a :: seen) (((children a).filter (· ∉ a :: seen)).reverse ++ stack)

def steps (children : α → List α) (vertices seen stack : List α) : ℕ :=
  stack.length + ((vertices.filter (· ∉ seen)).map fun a => (children a).length).sum

variable {children : α → List α} {vertices seen stack : List α} {a : α} {fuel : ℕ}

theorem sum_unseen_le (weight : α → ℕ) (vertices seen : List α) (a : α) :
    ((vertices.filter (· ∉ a :: seen)).map weight).sum ≤ ((vertices.filter (· ∉ seen)).map weight).sum := by
  refine (Sublist.map weight ?_).sum_le_sum fun _ _ => Nat.zero_le _
  refine monotone_filter_right vertices fun b unseen => ?_
  simp only [mem_cons, not_or, decide_eq_true_eq] at unseen ⊢
  exact unseen.2

theorem sum_unseen_lt (weight : α → ℕ) (inside : a ∈ vertices) (fresh : a ∉ seen) :
    weight a + ((vertices.filter (· ∉ a :: seen)).map weight).sum ≤ ((vertices.filter (· ∉ seen)).map weight).sum := by
  induction vertices with
  | nil => cases inside
  | cons b vertices ih =>
    by_cases same : b = a
    · subst same
      have fewer := sum_unseen_le weight vertices seen b
      simpa [filter_cons, fresh] using fewer
    · have later := ih ((mem_cons.mp inside).resolve_left (Ne.symm same))
      by_cases marked : b ∈ seen
      · simpa [filter_cons, marked] using later
      · simp only [filter_cons, mem_cons, same, marked, or_self, not_false_eq_true,
          decide_true, if_true, map_cons, sum_cons] at later ⊢
        omega

theorem steps_lt (outside : ∀ a, a ∉ vertices → children a = []) (fresh : a ∉ seen) :
    steps children vertices (a :: seen) (((children a).filter (· ∉ a :: seen)).reverse ++ stack) <
        steps children vertices seen (a :: stack) := by
  have pushes : ((children a).filter (· ∉ a :: seen)).length ≤ (children a).length :=
    length_filter_le _ _
  simp only [steps, length_append, length_reverse, length_cons]
  by_cases inside : a ∈ vertices
  · have fewer := sum_unseen_lt (fun a => (children a).length) inside fresh
    omega
  · have fewer := sum_unseen_le (fun a => (children a).length) vertices seen a
    simp only [outside a inside, filter_nil, length_nil]
    omega

theorem mark_spec (closed : ∀ a ∈ seen, ∀ b ∈ children a, b ∈ seen ∨ b ∈ stack)
    (outside : ∀ a, a ∉ vertices → children a = []) (enough : steps children vertices seen stack < fuel) :
    (∀ a ∈ seen, a ∈ mark children fuel seen stack) ∧ (∀ a ∈ stack, a ∈ mark children fuel seen stack) ∧
      ∀ a ∈ mark children fuel seen stack, ∀ b ∈ children a, b ∈ mark children fuel seen stack := by
  induction fuel generalizing seen stack with
  | zero => exact absurd enough (Nat.not_lt_zero _)
  | succ fuel ih =>
    cases stack with
    | nil =>
      rw [mark]
      exact ⟨fun _ => id, by simp, fun a marked b child => by simpa using closed a marked b child⟩
    | cons a stack =>
      rw [mark]
      split_ifs with marked
      · have fewer : steps children vertices seen stack < fuel := by
          simp only [steps, length_cons] at enough ⊢
          omega
        obtain ⟨kept, taken, done⟩ := ih (fun b seenB c child => by
          rcases closed b seenB c child with here | pushed
          · exact .inl here
          · rcases mem_cons.mp pushed with rfl | below
            · exact .inl marked
            · exact .inr below) fewer
        exact ⟨kept, forall_mem_cons.mpr ⟨kept a marked, taken⟩, done⟩
      · have fewer : steps children vertices (a :: seen) (((children a).filter (· ∉ a :: seen)).reverse ++ stack) <
              steps children vertices seen (a :: stack) := steps_lt outside marked
        have closed' : ∀ b ∈ a :: seen, ∀ c ∈ children b, c ∈ a :: seen ∨
            c ∈ ((children a).filter (· ∉ a :: seen)).reverse ++ stack := by
          intro b seenB c child
          by_cases seenC : c ∈ a :: seen
          · exact .inl seenC
          refine .inr (mem_append.mpr ?_)
          rcases mem_cons.mp seenB with rfl | old
          · exact .inl (mem_reverse.mpr (mem_filter.mpr ⟨child, by simpa using seenC⟩))
          · rcases closed b old c child with here | pushed
            · exact absurd (mem_cons_of_mem _ here) seenC
            · rcases mem_cons.mp pushed with rfl | below
              · exact absurd mem_cons_self seenC
              · exact .inr below
        obtain ⟨kept, taken, done⟩ := ih closed' (by omega)
        exact ⟨fun b old => kept b (mem_cons_of_mem _ old),
          forall_mem_cons.mpr ⟨kept a mem_cons_self, fun b below =>
            taken b (mem_append_right _ below)⟩, done⟩

theorem mark_reached (marked : a ∈ mark children fuel seen stack) :
    a ∈ seen ∨ ∃ start ∈ stack, Reaches children start a := by
  induction fuel generalizing seen stack with
  | zero => exact .inl marked
  | succ fuel ih =>
    cases stack with
    | nil => exact .inl marked
    | cons b stack =>
      rw [mark] at marked
      split_ifs at marked
      · rcases ih marked with old | ⟨start, below, reached⟩
        · exact .inl old
        · exact .inr ⟨start, mem_cons_of_mem _ below, reached⟩
      · rcases ih marked with old | ⟨start, listed, reached⟩
        · rcases mem_cons.mp old with rfl | old
          · exact .inr ⟨a, mem_cons_self, .refl⟩
          · exact .inl old
        · rcases mem_append.mp listed with pushed | below
          · have child : start ∈ children b := mem_of_mem_filter (mem_reverse.mp pushed)
            exact .inr ⟨b, mem_cons_self, .head child reached⟩
          · exact .inr ⟨start, mem_cons_of_mem _ below, reached⟩

end N8n.Marking
