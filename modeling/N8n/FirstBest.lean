import Mathlib.Data.List.Induction

/-! The first of the best: among the eligible elements of a list one with the highest
score, and of several such the one that stands first. `FirstBest` says which element
that is, by its index, without saying how it is found; a scan from the left keeps it up
to date with one comparison for each element. -/

namespace N8n

variable {α : Type*} {eligible : α → Prop} {score : α → ℕ} {l : List α} {i : ℕ} {a b : α}

structure FirstBest (eligible : α → Prop) (score : α → ℕ) (l : List α) (i : ℕ) (a : α) : Prop where
  there : l[i]? = some a
  able : eligible a
  most : ∀ (j : ℕ) b, l[j]? = some b → eligible b → score b ≤ score a
  first : ∀ (j : ℕ) b, l[j]? = some b → eligible b → score b = score a → i ≤ j

namespace FirstBest

theorem index_lt (h : FirstBest eligible score l i a) : i < l.length :=
  (List.getElem?_eq_some_iff.mp h.there).1

/-- An element of the longer list is one of the shorter list or the new one. -/
theorem getElem?_snoc {j : ℕ} (found : (l ++ [b])[j]? = some a) : l[j]? = some a ∨ j = l.length ∧ a = b := by
  rw [List.getElem?_append] at found
  split at found
  · exact .inl found
  · rename_i past
    rw [List.getElem?_singleton] at found
    split at found
    · cases found
      exact .inr ⟨by omega, rfl⟩
    · cases found

theorem keep (h : FirstBest eligible score l i a) (worse : eligible b → score b ≤ score a) :
    FirstBest eligible score (l ++ [b]) i a where
  there := by
    rw [List.getElem?_append_left h.index_lt]
    exact h.there
  able := h.able
  most j c found able := by
    rcases getElem?_snoc found with old | ⟨_, rfl⟩
    · exact h.most j c old able
    · exact worse able
  first j c found able same := by
    rcases getElem?_snoc found with old | ⟨rfl, rfl⟩
    · exact h.first j c old able same
    · exact Nat.le_of_lt h.index_lt

theorem replace (able : eligible b) (better : ∀ (j : ℕ) c, l[j]? = some c → eligible c → score c < score b) :
    FirstBest eligible score (l ++ [b]) l.length b where
  there := by simp
  able := able
  most j c found able' := by
    rcases getElem?_snoc found with old | ⟨_, rfl⟩
    · exact Nat.le_of_lt (better j c old able')
    · exact Nat.le_refl _
  first j c found able' same := by
    rcases getElem?_snoc found with old | ⟨rfl, rfl⟩
    · have less := better j c old able'
      omega
    · exact Nat.le_refl _

end FirstBest

end N8n
