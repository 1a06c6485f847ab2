import Mathlib.Data.List.Basic

/-! Replacing all matches of a pattern, from left to right. A reader takes a match from the front
of a text, if there is one; the text behind a match is read on from its end. -/

namespace N8n.ReplaceAll

open List

variable {α β : Type*}

/-- One element that no match covers, or a match, with the text behind it. -/
inductive Piece (α β : Type*)
  | plain (c : α) (rest : List α)
  | taken (b : β) (rest : List α)

section Pieces

variable (read : List α → Option β) (size : β → ℕ)

/-- The first `n` elements are covered by a match. -/
def pieces : ℕ → List α → List (Piece α β)
  | _, [] => []
  | n + 1, _ :: s => pieces n s
  | 0, c :: s => match read (c :: s) with
    | some b => .taken b (s.drop (size b - 1)) :: pieces (size b - 1) s
    | none => .plain c s :: pieces 0 s

def replaceAll (emit : β → List α → List α) (s : List α) : List α :=
  (pieces read size 0 s).flatMap fun piece => match piece with
    | .plain c _ => [c]
    | .taken b rest => emit b rest

variable {read size} {c : α} {s : List α} {b : β}

theorem pieces_covered (n : ℕ) (s : List α) : pieces read size n s = pieces read size 0 (s.drop n) := by
  induction n generalizing s with
  | zero => rfl
  | succ n ih =>
    cases s with
    | nil => simp [pieces]
    | cons c s => exact ih s

theorem pieces_plain (unread : read (c :: s) = none) :
    pieces read size 0 (c :: s) = .plain c s :: pieces read size 0 s := by
  rw [pieces, unread]

theorem pieces_taken {u : List α} (reads : read (u ++ s) = some b) (length : u.length = size b) (present : u ≠ []) :
    pieces read size 0 (u ++ s) = .taken b s :: pieces read size 0 s := by
  obtain ⟨c, u, rfl⟩ := exists_cons_of_ne_nil present
  have covered : (u ++ s).drop (size b - 1) = s := by
    rw [← length, length_cons, Nat.add_sub_cancel, drop_left]
  rw [cons_append] at reads ⊢
  rw [pieces, reads]
  simp only
  rw [pieces_covered, covered]

variable {emit : β → List α → List α}

@[simp] theorem replaceAll_nil : replaceAll read size emit [] = [] := rfl

theorem replaceAll_plain (unread : read (c :: s) = none) :
    replaceAll read size emit (c :: s) = c :: replaceAll read size emit s := by
  simp only [replaceAll, pieces_plain unread, flatMap_cons, singleton_append]

theorem replaceAll_taken {u : List α} (reads : read (u ++ s) = some b) (length : u.length = size b) (present : u ≠ []) :
    replaceAll read size emit (u ++ s) = emit b s ++ replaceAll read size emit s := by
  simp only [replaceAll, pieces_taken reads length present, flatMap_cons]

/-- No match begins inside `u`. -/
theorem replaceAll_through {u : List α} (unread : ∀ i < u.length, read (u.drop i ++ s) = none) :
    replaceAll read size emit (u ++ s) = u ++ replaceAll read size emit s := by
  induction u with
  | nil => rfl
  | cons c u ih =>
    have first := unread 0 (Nat.zero_lt_succ _)
    have later : ∀ i < u.length, read (u.drop i ++ s) = none := fun i inside => unread (i + 1) (Nat.succ_lt_succ inside)
    rw [drop_zero, cons_append] at first
    rw [cons_append, replaceAll_plain first, ih later, cons_append]

theorem pieces_induction {motive : List α → Prop}
    (sized : ∀ s b, read s = some b → 0 < size b ∧ size b ≤ s.length) (nil : motive [])
    (plain : ∀ c s, read (c :: s) = none → motive s → motive (c :: s))
    (taken : ∀ u s b, read (u ++ s) = some b → u.length = size b → u ≠ [] → motive s → motive (u ++ s))
    (s : List α) : motive s := by
  induction length : s.length using Nat.strongRecOn generalizing s with
  | _ n ih =>
    cases s with
    | nil => exact nil
    | cons c s =>
      cases reads : read (c :: s) with
      | none =>
        refine plain c s reads (ih s.length ?_ s rfl)
        rw [← length, length_cons]
        exact Nat.lt_succ_self _
      | some b =>
        obtain ⟨positive, short⟩ := sized _ b reads
        have split := take_append_drop (size b) (c :: s)
        have covered : ((c :: s).take (size b)).length = size b := length_take_of_le short
        have shorter : ((c :: s).drop (size b)).length < n := by
          rw [length_drop, ← length, length_cons]
          omega
        rw [← split] at reads ⊢
        refine taken _ _ b reads covered ?_ (ih _ shorter _ rfl)
        intro empty
        rw [empty, length_nil] at covered
        omega

end Pieces

end N8n.ReplaceAll
