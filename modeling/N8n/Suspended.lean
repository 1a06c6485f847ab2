import Mathlib.Data.List.Perm.Basic

/-! Lists of suspended computations: a new one goes to the end and one goes on by its
index, which takes it out and leaves the others in place. -/

namespace N8n

open List

variable {α : Type*} {l : List α} {a b : α} {i : ℕ}

theorem mem_suspend (member : a ∈ l ++ [b]) : a ∈ l ∨ a = b := by
  simpa only [mem_append, mem_singleton] using member

theorem perm_resumed (there : l[i]? = some a) : (a :: l.eraseIdx i).Perm l := by
  obtain ⟨bound, same⟩ := List.getElem?_eq_some_iff.mp there
  exact same ▸ getElem_cons_eraseIdx_perm bound

theorem mem_resumed (there : l[i]? = some a) (member : b ∈ l) (different : b ≠ a) : b ∈ l.eraseIdx i := by
  rcases mem_cons.mp ((perm_resumed there).mem_iff.mpr member) with same | rest
  · exact absurd same different
  · exact rest

end N8n
