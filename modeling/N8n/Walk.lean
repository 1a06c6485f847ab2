import Mathlib.Data.List.Nodup
import Mathlib.Logic.Relation

/-! Walks along a relation, as the list of the vertices behind the first one. A walk is cut
short to one without repetitions. What is left to meet bounds the depth of a search. -/

namespace N8n

open List

variable {α : Type*}

/-- From the first vertex the steps go through the list to the last vertex. -/
def Walk (step : α → α → Prop) : α → List α → α → Prop
  | first, [], last => first = last
  | first, next :: rest, last => step first next ∧ Walk step next rest last

namespace Walk

variable {step : α → α → Prop} {a b c : α} {path more : List α}

theorem append (one : Walk step a path b) (two : Walk step b more c) : Walk step a (path ++ more) c := by
  induction path generalizing a with
  | nil => exact (show a = b from one) ▸ two
  | cons next rest ih => exact ⟨one.1, ih one.2⟩

theorem concat (walk : Walk step a path b) (last : step b c) : Walk step a (path ++ [c]) c :=
  walk.append ⟨last, rfl⟩

theorem split {before after : List α} (walk : Walk step a (before ++ c :: after) b) :
    Walk step a (before ++ [c]) c ∧ Walk step c after b := by
  induction before generalizing a with
  | nil => exact ⟨⟨walk.1, rfl⟩, walk.2⟩
  | cons next rest ih => exact ⟨⟨walk.1, (ih walk.2).1⟩, (ih walk.2).2⟩

theorem last_mem (walk : Walk step a path b) (nonempty : path ≠ []) : b ∈ path := by
  induction path generalizing a with
  | nil => exact absurd rfl nonempty
  | cons next rest ih =>
    cases rest with
    | nil => exact mem_singleton.mpr walk.2.symm
    | cons third rest => exact mem_cons_of_mem _ (ih walk.2 (by simp))

theorem reaches (walk : Walk step a path b) : Relation.ReflTransGen step a b := by
  induction path generalizing a with
  | nil => exact (show a = b from walk) ▸ .refl
  | cons next rest ih => exact .head walk.1 (ih walk.2)

theorem transGen (walk : Walk step a path b) (nonempty : path ≠ []) : Relation.TransGen step a b := by
  cases path with
  | nil => exact absurd rfl nonempty
  | cons next rest => exact .head' walk.1 (reaches walk.2)

theorem of_transGen (reaches : Relation.TransGen step a b) : ∃ path, path ≠ [] ∧ Walk step a path b := by
  induction reaches with
  | single first => exact ⟨[_], by simp, first, rfl⟩
  | tail _ last ih =>
    obtain ⟨path, _, walk⟩ := ih
    exact ⟨path ++ [_], by simp, walk.concat last⟩

theorem rank {rank : α → ℕ} (walk : Walk step a path b)
    (falls : ∀ u v, (u, v) ∈ (a :: path).zip path → step u v → v = u ∨ rank v < rank u) :
    ∀ x ∈ a :: path, (x = a ∨ rank x < rank a) ∧ (b = x ∨ rank b < rank x) := by
  induction path generalizing a with
  | nil =>
    intro x member
    obtain rfl := mem_singleton.mp member
    exact ⟨.inl rfl, .inl (show x = b from walk).symm⟩
  | cons next path ih =>
    have below := ih walk.2 fun u v pair => falls u v (mem_cons_of_mem _ pair)
    have first : next = a ∨ rank next < rank a := falls a next mem_cons_self walk.1
    have last := (below next mem_cons_self).2
    intro x member
    rcases mem_cons.mp member with rfl | later
    · refine ⟨.inl rfl, ?_⟩
      rcases first with rfl | less
      · exact last
      · rcases last with rfl | lower
        · exact .inr less
        · exact .inr (Nat.lt_trans lower less)
    · obtain ⟨under, upTo⟩ := below x later
      refine ⟨?_, upTo⟩
      rcases first with rfl | less
      · exact under
      · rcases under with rfl | lower
        · exact .inr less
        · exact .inr (Nat.lt_trans lower less)

theorem map {β : Type*} {stepBy : β → β → Prop} {f : α → β} (steps : ∀ c d, step c d → stepBy (f c) (f d))
    (walk : Walk step a path b) : Walk stepBy (f a) (path.map f) (f b) := by
  induction path generalizing a with
  | nil => exact congrArg f walk
  | cons next rest ih => exact ⟨steps a next walk.1, ih walk.2⟩

theorem converse (walk : Walk step a path b) :
    ∃ back, Walk (fun c d => step d c) b back a ∧ back.length = path.length := by
  induction path generalizing a with
  | nil => exact ⟨[], Eq.symm walk, rfl⟩
  | cons next rest ih =>
    obtain ⟨back, walkBack, same⟩ := ih walk.2
    exact ⟨back ++ [a], walkBack.concat walk.1, by simp [same]⟩

theorem exists_simple (walk : Walk step a path b) :
    ∃ short, Walk step a short b ∧ (a :: short).Nodup ∧ short.Sublist path := by
  classical
  induction path generalizing a with
  | nil => exact ⟨[], walk, nodup_singleton a, Sublist.refl _⟩
  | cons next rest ih =>
    obtain ⟨short, walkShort, distinct, sublist⟩ := ih walk.2
    by_cases repeated : a ∈ next :: short
    · obtain ⟨before, after, whole⟩ := append_of_mem repeated
      have back : Walk step a (before ++ a :: after) b := whole ▸ ⟨walk.1, walkShort⟩
      have tail : Sublist (a :: after) (next :: short) := whole ▸ sublist_append_right _ _
      refine ⟨after, back.split.2, distinct.sublist tail, ?_⟩
      exact (sublist_cons_self a after).trans (tail.trans (sublist.cons_cons next))
    · exact ⟨next :: short, ⟨walk.1, walkShort⟩, nodup_cons.mpr ⟨repeated, distinct⟩, sublist.cons_cons next⟩

end Walk

/-- A search that meets a vertex more has a vertex less to meet. -/
theorem length_unmet_lt [DecidableEq α] {vertices met : List α} {a : α} (inside : a ∈ vertices) (fresh : a ∉ met) :
    (vertices.filter (· ∉ met ++ [a])).length < (vertices.filter (· ∉ met)).length := by
  have twice : vertices.filter (· ∉ met ++ [a]) = (vertices.filter (· ∉ met)).filter (· ≠ a) := by
    rw [filter_filter]
    exact filter_congr fun b _ => by simp [and_comm]
  rw [twice]
  refine length_filter_lt_length_iff_exists.mpr ⟨a, ?_, by simp⟩
  exact mem_filter.mpr ⟨inside, by simpa using fresh⟩

end N8n
