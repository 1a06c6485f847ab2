import Mathlib.Data.List.Perm.Subperm
import Mathlib.Data.List.Range
import Mathlib.Data.Nat.Find
import Mathlib.Tactic.Choose
import N8n.Walk

/-! Distances along a relation: the length of a shortest walk. -/

namespace N8n

open List

variable {α : Type*}

def IsDistance (step : α → α → Prop) (a b : α) (n : ℕ) : Prop :=
  (∃ path, Walk step a path b ∧ path.length = n) ∧ ∀ path, Walk step a path b → n ≤ path.length

namespace IsDistance

variable {step : α → α → Prop} {a b c : α} {n k : ℕ} {path vertices : List α}

theorem unique (one : IsDistance step a b n) (two : IsDistance step a b k) : n = k := by
  obtain ⟨⟨path, walk, length⟩, shortest⟩ := one
  obtain ⟨⟨path', walk', length'⟩, shortest'⟩ := two
  have upper := shortest path' walk'
  have lower := shortest' path walk
  omega

theorem of_walk (walk : Walk step a path b) : ∃ n, n ≤ path.length ∧ IsDistance step a b n := by
  classical
  have some_ : ∃ n path, Walk step a path b ∧ path.length = n := ⟨_, path, walk, rfl⟩
  refine ⟨Nat.find some_, Nat.find_min' some_ ⟨path, walk, rfl⟩, Nat.find_spec some_, ?_⟩
  exact fun other walk' => Nat.find_min' some_ ⟨other, walk', rfl⟩

theorem self (step : α → α → Prop) (a : α) : IsDistance step a a 0 :=
  ⟨⟨[], rfl, rfl⟩, fun _ _ => Nat.zero_le _⟩

theorem zero_iff : IsDistance step a b 0 ↔ b = a := by
  constructor
  · rintro ⟨⟨path, walk, length⟩, _⟩
    obtain rfl := length_eq_zero_iff.mp length
    exact Eq.symm walk
  · rintro rfl
    exact self step b

theorem succ_le (distance : IsDistance step a b n) (last : step b c) : ∃ k, k ≤ n + 1 ∧ IsDistance step a c k := by
  obtain ⟨⟨path, walk, rfl⟩, _⟩ := distance
  obtain ⟨k, upper, found⟩ := of_walk (walk.concat last)
  exact ⟨k, by simpa using upper, found⟩

/-- A shortest walk is one step longer than one to the vertex before its end. -/
theorem pred (distance : IsDistance step a c (n + 1)) : ∃ b, IsDistance step a b n ∧ step b c := by
  obtain ⟨⟨path, walk, length⟩, shortest⟩ := distance
  induction path using List.reverseRecOn with
  | nil => simp at length
  | append_singleton before d _ =>
    cases before using List.reverseRecOn with
    | nil =>
      obtain ⟨first, rfl⟩ := walk
      obtain rfl : n = 0 := by simpa using length.symm
      exact ⟨a, self step a, first⟩
    | append_singleton before b =>
      rw [append_assoc, singleton_append] at walk
      obtain ⟨start, last, rfl⟩ := walk.split
      have same : (before ++ [b]).length = n := by simpa using length
      refine ⟨b, ⟨⟨_, start, same⟩, fun other walk' => ?_⟩, last⟩
      have longer := shortest _ (walk'.concat last)
      simpa using longer

theorem level (distance : IsDistance step a b n) (last : step b c) (below : k ≤ n) :
    ∃ d, IsDistance step a d k ∧ ∃ e, step d e := by
  induction n generalizing b c with
  | zero =>
    obtain rfl : k = 0 := by omega
    exact ⟨b, distance, c, last⟩
  | succ n ih =>
    rcases Nat.eq_or_lt_of_le below with rfl | less
    · exact ⟨b, distance, c, last⟩
    · obtain ⟨d, found, next⟩ := distance.pred
      exact ih found next (by omega)

theorem lt_length (distance : IsDistance step a b n) (last : step b c)
    (all : ∀ d e, step d e → d ∈ vertices) : n < vertices.length := by
  have levels (k : ℕ) : ∃ d, k ≤ n → IsDistance step a d k ∧ d ∈ vertices := by
    by_cases below : k ≤ n
    · obtain ⟨d, found, e, next⟩ := distance.level last below
      exact ⟨d, fun _ => ⟨found, all d e next⟩⟩
    · exact ⟨a, fun h => absurd h below⟩
  choose vertex spec using levels
  have distinct : ((List.range (n + 1)).map vertex).Nodup := by
    refine Nodup.map_on (fun k inK l inL same => ?_) nodup_range
    have atK := (spec k (by simpa [Nat.lt_succ_iff] using inK)).1
    have atL := (spec l (by simpa [Nat.lt_succ_iff] using inL)).1
    exact atK.unique (same ▸ atL)
  have inside : (List.range (n + 1)).map vertex ⊆ vertices := by
    intro d member
    obtain ⟨k, inK, rfl⟩ := List.mem_map.mp member
    exact (spec k (by simpa [Nat.lt_succ_iff] using inK)).2
  have fits := (subperm_of_subset distinct inside).length_le
  rw [length_map, length_range] at fits
  exact fits

end IsDistance

end N8n
