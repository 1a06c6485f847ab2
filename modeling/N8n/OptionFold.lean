import Mathlib.Data.List.Basic

/-! Folds whose steps may fail. -/

namespace N8n

open List

variable {σ β : Type*} {step : σ → β → Option σ} {I : σ → Prop} {xs : List β} {s : σ} {x : β}

theorem foldlM_cons_eq_some {last : σ} :
    (x :: xs).foldlM step s = some last ↔ ∃ mid, step s x = some mid ∧ xs.foldlM step mid = some last := by
  rw [foldlM_cons, Option.bind_eq_bind, Option.bind_eq_some_iff]

/-- What every step keeps holds at the end, when no step fails. -/
theorem foldlM_invariant (each : ∀ x ∈ xs, ∀ s next, I s → step s x = some next → I next) {last : σ}
    (start : I s) (done : xs.foldlM step s = some last) : I last := by
  induction xs generalizing s with
  | nil => exact Option.some.inj done ▸ start
  | cons x xs ih =>
    obtain ⟨mid, first, rest⟩ := foldlM_cons_eq_some.mp done
    exact ih (fun y member => each y (mem_cons_of_mem _ member)) (each x mem_cons_self s mid start first) rest

theorem foldlM_isSome (each : ∀ x ∈ xs, ∀ s, I s → ∃ next, step s x = some next ∧ I next) (start : I s) :
    ∃ last, xs.foldlM step s = some last ∧ I last := by
  induction xs generalizing s with
  | nil => exact ⟨s, rfl, start⟩
  | cons x xs ih =>
    obtain ⟨mid, first, kept⟩ := each x mem_cons_self s start
    obtain ⟨last, rest, holds⟩ := ih (fun y member => each y (mem_cons_of_mem _ member)) kept
    exact ⟨last, foldlM_cons_eq_some.mpr ⟨mid, first, rest⟩, holds⟩

/-- Every step was taken. -/
theorem foldlM_step (member : x ∈ xs) {last : σ} (done : xs.foldlM step s = some last) :
    ∃ here next, step here x = some next := by
  induction xs generalizing s with
  | nil => cases member
  | cons y xs ih =>
    obtain ⟨mid, first, rest⟩ := foldlM_cons_eq_some.mp done
    rcases mem_cons.mp member with rfl | later
    · exact ⟨s, mid, first⟩
    · exact ih later rest

theorem foldlM_eq_foldl {g : σ → β → σ} (each : ∀ x ∈ xs, ∀ s, I s → step s x = some (g s x) ∧ I (g s x))
    (start : I s) : xs.foldlM step s = some (xs.foldl g s) ∧ I (xs.foldl g s) := by
  induction xs generalizing s with
  | nil => exact ⟨rfl, start⟩
  | cons x xs ih =>
    obtain ⟨first, kept⟩ := each x mem_cons_self s start
    obtain ⟨rest, holds⟩ := ih (fun y member => each y (mem_cons_of_mem _ member)) kept
    exact ⟨foldlM_cons_eq_some.mpr ⟨_, first, rest⟩, holds⟩

theorem foldlM_hom {τ : Type*} {f : σ → τ} {simulated : τ → β → Option τ}
    (each : ∀ x s, simulated (f s) x = (step s x).map f) (s : σ) :
    xs.foldlM simulated (f s) = (xs.foldlM step s).map f := by
  induction xs generalizing s with
  | nil => rfl
  | cons x xs ih =>
    rw [foldlM_cons, foldlM_cons, each]
    cases step s x with
    | none => rfl
    | some mid => exact ih mid

/-- A fold that ends does so with steps that give a result more often. -/
theorem foldlM_mono {step' : σ → β → Option σ} (more : ∀ x s next, step s x = some next → step' s x = some next)
    {last : σ} (done : xs.foldlM step s = some last) : xs.foldlM step' s = some last := by
  induction xs generalizing s with
  | nil => exact done
  | cons x xs ih =>
    obtain ⟨mid, first, rest⟩ := foldlM_cons_eq_some.mp done
    exact foldlM_cons_eq_some.mpr ⟨mid, more x s mid first, ih rest⟩

end N8n
