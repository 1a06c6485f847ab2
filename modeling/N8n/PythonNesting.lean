import N8n.PythonIndentSteps

/-! The stack of indentations, when every line is indented by the same margin. -/

namespace N8n.Python

open List

section Stack

variable {stack next : List (ℕ × ℕ)} {level : ℕ × ℕ} {levels : List (ℕ × ℕ)} {depths : List ℕ}

def Rooted (stack : List (ℕ × ℕ)) : Prop := ∃ above, stack = above ++ [(0, 0)] ∧ ∀ entry ∈ above, 0 < entry.1

theorem rooted_root : Rooted [(0, 0)] := ⟨[], rfl, fun _ member => absurd member not_mem_nil⟩

theorem Rooted.dropWhile (rooted : Rooted stack) (level : ℕ × ℕ) :
    Rooted (stack.dropWhile fun above => level.1 < above.1) := by
  obtain ⟨above, rfl, positive⟩ := rooted
  induction above with
  | nil => exact rooted_root
  | cons entry above ih =>
    rw [cons_append, dropWhile_cons]
    split
    · exact ih fun entry member => positive entry (mem_cons_of_mem _ member)
    · exact ⟨entry :: above, rfl, positive⟩

theorem Rooted.nest (rooted : Rooted stack) (taken : nest stack level = some next) : Rooted next := by
  have below := rooted.dropWhile level
  unfold N8n.Python.nest at taken
  split at taken
  · cases taken
  · split at taken
    · rename_i deeper
      split at taken
      · cases taken
        obtain ⟨above, same, positive⟩ := rooted
        refine ⟨level :: above, congrArg _ same, fun entry member => ?_⟩
        rcases mem_cons.mp member with rfl | member
        · exact Nat.zero_lt_of_lt deeper
        · exact positive entry member
      · cases taken
    · split at taken
      · cases taken
      · rename_i left
        split at taken
        · cases taken
          rwa [← left]
        · cases taken

/-- A line without indentation closes every block. -/
theorem Rooted.nest_root (rooted : Rooted stack) : N8n.Python.nest stack (0, 0) = some [(0, 0)] := by
  obtain ⟨above, rfl, positive⟩ := rooted
  have left : (above ++ [(0, 0)]).dropWhile (fun entry : ℕ × ℕ => (0, 0).1 < entry.1) = [(0, 0)] := by
    induction above with
    | nil => rfl
    | cons entry above ih =>
      rw [cons_append, dropWhile_cons, if_pos (by simpa using positive entry mem_cons_self)]
      exact ih fun entry member => positive entry (mem_cons_of_mem _ member)
  unfold N8n.Python.nest
  rw [left]
  cases above <;> simp

theorem nesting_snoc (rooted : Rooted stack) (levels : List (ℕ × ℕ)) :
    nesting stack (levels ++ [(0, 0)]) = (nesting stack levels).map (· ++ [0]) := by
  induction levels generalizing stack with
  | nil =>
    simp only [nil_append, nesting, rooted.nest_root]
    rfl
  | cons level levels ih =>
    rw [cons_append, nesting, nesting]
    cases taken : nest stack level with
    | none => rfl
    | some next =>
      rw [Option.bind_some, Option.bind_some, ih (rooted.nest taken), Option.map_map, Option.map_map]
      rfl

theorem length_nesting (taken : nesting stack levels = some depths) : depths.length = levels.length := by
  induction levels generalizing stack depths with
  | nil => cases taken; rfl
  | cons level levels ih =>
    simp only [nesting, Option.bind_eq_some_iff, Option.map_eq_some_iff] at taken
    obtain ⟨next, -, rest, later, rfl⟩ := taken
    rw [length_cons, length_cons, ih later]

end Stack

end N8n.Python
