import Mathlib.Data.List.Forall2

/-! Folds whose steps may throw. -/

namespace N8n

open List

universe u

variable {ε β : Type*} {α σ : Type u} {step : σ → β → Except ε σ} {I : σ → Prop} {xs : List β}

variable {x : Except ε α} {f : α → Except ε σ} {b : σ} {ys : List α} {γ : Type*}

theorem bind_eq_ok : (x >>= f) = .ok b ↔ ∃ a, x = .ok a ∧ f a = .ok b := by
  cases x with
  | error thrown => simp [bind, Except.bind]
  | ok a => simp [bind, Except.bind]

variable {a : α}

@[simp] theorem ok_bind : (Except.ok a >>= f) = f a := rfl

theorem map_eq_ok {f : α → σ} : x.map f = .ok b ↔ ∃ a, x = .ok a ∧ f a = b := by
  cases x with
  | error thrown => simp [Except.map]
  | ok a => simp [Except.map]

variable {thrown : ε}

theorem ok_ne_error (a : α) : Except.ok a ≠ .error thrown := by
  intro same
  cases same

theorem ite_error_eq_ok {c : Prop} [Decidable c] : (if c then .error thrown else x) = .ok a ↔ ¬c ∧ x = .ok a := by
  split_ifs with holds
  · simp [holds]
  · simp [holds]

variable {s last : σ}

theorem foldlM_cons_eq_ok {x : β} :
    (x :: xs).foldlM step s = .ok last ↔ ∃ mid, step s x = .ok mid ∧ xs.foldlM step mid = .ok last := by
  rw [foldlM_cons, bind_eq_ok]

/-- What every step keeps holds at the end, when no step throws. -/
theorem foldlM_ok_invariant (each : ∀ x ∈ xs, ∀ s next, I s → step s x = .ok next → I next)
    (start : I s) (done : xs.foldlM step s = .ok last) : I last := by
  induction xs generalizing s with
  | nil => exact Except.ok.inj done ▸ start
  | cons x xs ih =>
    obtain ⟨mid, first, rest⟩ := foldlM_cons_eq_ok.mp done
    exact ih (fun y member => each y (mem_cons_of_mem _ member)) (each x mem_cons_self s mid start first) rest

theorem foldlM_ok (each : ∀ x ∈ xs, ∀ s, I s → ∃ next, step s x = .ok next ∧ I next) (start : I s) :
    ∃ last, xs.foldlM step s = .ok last ∧ I last := by
  induction xs generalizing s with
  | nil => exact ⟨s, rfl, start⟩
  | cons x xs ih =>
    obtain ⟨mid, first, kept⟩ := each x mem_cons_self s start
    obtain ⟨last, rest, holds⟩ := ih (fun y member => each y (mem_cons_of_mem _ member)) kept
    exact ⟨last, foldlM_cons_eq_ok.mpr ⟨mid, first, rest⟩, holds⟩

/-- Every step was taken; what the steps after it keep of its result holds at the end. -/
theorem foldlM_ok_step {R : σ → σ → Prop} (refl : ∀ s, R s s) (trans : ∀ {a b c}, R a b → R b c → R a c)
    (grows : ∀ x ∈ xs, ∀ s next, step s x = .ok next → R s next) {x : β} (member : x ∈ xs)
    (done : xs.foldlM step s = .ok last) : ∃ here next, step here x = .ok next ∧ R next last := by
  induction xs generalizing s with
  | nil => cases member
  | cons y xs ih =>
    obtain ⟨mid, first, rest⟩ := foldlM_cons_eq_ok.mp done
    have growsRest : ∀ x ∈ xs, ∀ s next, step s x = .ok next → R s next := fun z inside =>
      grows z (mem_cons_of_mem _ inside)
    rcases mem_cons.mp member with rfl | later
    · refine ⟨s, mid, first, ?_⟩
      exact foldlM_ok_invariant (I := R mid) (fun z inside s next before taken =>
        trans before (growsRest z inside s next taken)) (refl mid) rest
    · exact ih growsRest later rest

theorem foldlM_ok_taken {x : β} (member : x ∈ xs) (done : xs.foldlM step s = .ok last) :
    ∃ here next, step here x = .ok next := by
  obtain ⟨here, next, taken, _⟩ := foldlM_ok_step (R := fun _ _ => True) (fun _ => trivial) (fun _ _ => trivial)
    (fun _ _ _ _ _ => trivial) member done
  exact ⟨here, next, taken⟩

theorem bind_ne_error (first : x ≠ .error thrown)
    (then_ : ∀ a, x = .ok a → f a ≠ .error thrown) : (x >>= f) ≠ .error thrown := by
  cases x with
  | error other => exact fun same => first (congrArg Except.error (Except.error.inj same))
  | ok a => exact then_ a rfl

theorem foldlM_ne_error (each : ∀ x ∈ xs, ∀ s, step s x ≠ .error thrown) : xs.foldlM step s ≠ .error thrown := by
  induction xs generalizing s with
  | nil => exact fun same => nomatch same
  | cons x xs ih =>
    rw [foldlM_cons]
    exact bind_ne_error (each x mem_cons_self s) fun mid _ =>
      ih fun y member => each y (mem_cons_of_mem _ member)

theorem mapM_ne_error {f : β → Except ε α} (each : ∀ x ∈ xs, f x ≠ .error thrown) : xs.mapM f ≠ .error thrown := by
  induction xs with
  | nil => exact fun same => nomatch same
  | cons x xs ih =>
    rw [mapM_cons]
    refine bind_ne_error (each x mem_cons_self) fun a _ => ?_
    refine bind_ne_error (ih fun y member => each y (mem_cons_of_mem _ member)) fun as _ => ?_
    exact fun same => nomatch same

theorem mapM_eq_ok {f : β → Except ε α} : xs.mapM f = .ok ys ↔ Forall₂ (fun x y => f x = .ok y) xs ys := by
  induction xs generalizing ys with
  | nil =>
    rw [forall₂_nil_left_iff]
    exact ⟨fun same => (Except.ok.inj same).symm, fun same => congrArg Except.ok same.symm⟩
  | cons x xs ih =>
    rw [mapM_cons, forall₂_cons_left_iff, bind_eq_ok]
    refine exists_congr fun y => ?_
    rw [bind_eq_ok]
    constructor
    · rintro ⟨first, rest, done, same⟩
      exact ⟨rest, first, ih.mp done, (Except.ok.inj same).symm⟩
    · rintro ⟨rest, first, done, same⟩
      exact ⟨first, rest, ih.mpr done, congrArg Except.ok same.symm⟩

theorem exists_of_forall₂ {R : β → γ → Prop} {ys : List γ} (each : Forall₂ R xs ys) {x : β} (member : x ∈ xs) :
    ∃ y ∈ ys, R x y := by
  induction each with
  | nil => cases member
  | cons first _ ih =>
    rcases mem_cons.mp member with rfl | later
    · exact ⟨_, mem_cons_self, first⟩
    · obtain ⟨y, inside, related⟩ := ih later
      exact ⟨y, mem_cons_of_mem _ inside, related⟩

theorem ok_of_mapM {f : β → Except ε α} (done : xs.mapM f = .ok ys) {x : β} (member : x ∈ xs) : ∃ y, f x = .ok y := by
  obtain ⟨y, -, here⟩ := exists_of_forall₂ (mapM_eq_ok.mp done) member
  exact ⟨y, here⟩

theorem mem_flatten_of_mapM {f : β → Except ε (List α)} {ys : List (List α)} (done : xs.mapM f = .ok ys) :
    a ∈ ys.flatten ↔ ∃ x ∈ xs, ∃ made, f x = .ok made ∧ a ∈ made := by
  have each := mapM_eq_ok.mp done
  clear done
  induction each with
  | nil => simp
  | cons first _ ih => simp [first, ih]

theorem foldlM_appends {out : σ → List γ} {made : β → Except ε (List α)} {shown : α → γ}
    (each : ∀ x ∈ xs, ∀ s next, step s x = .ok next → ∃ new, made x = .ok new ∧ out next = out s ++ new.map shown)
    (done : xs.foldlM step s = .ok last) :
    ∃ news, xs.mapM made = .ok news ∧ out last = out s ++ news.flatten.map shown := by
  induction xs generalizing s with
  | nil =>
    obtain rfl := Except.ok.inj done
    exact ⟨[], rfl, by simp⟩
  | cons x xs ih =>
    obtain ⟨mid, first, rest⟩ := foldlM_cons_eq_ok.mp done
    obtain ⟨new, makes, here⟩ := each x mem_cons_self s mid first
    obtain ⟨news, makesRest, later⟩ := ih (fun y member => each y (mem_cons_of_mem _ member)) rest
    refine ⟨new :: news, mapM_eq_ok.mpr (.cons makes (mapM_eq_ok.mp makesRest)), ?_⟩
    rw [later, here, flatten_cons, map_append, append_assoc]

end N8n
