import Mathlib.Data.List.Nodup

/-! Finite sets with the iteration order of a JavaScript `Set`: a new element goes to the end.
Elements are distinct by construction. -/

namespace N8n

structure OrderedSet (α : Type*) where
  elements : List α
  nodup : elements.Nodup
  deriving DecidableEq

namespace OrderedSet

variable {α : Type*}

instance : Membership α (OrderedSet α) where
  mem s a := a ∈ s.elements

variable {s : OrderedSet α} {a : α}

theorem mem_def : a ∈ s ↔ a ∈ s.elements := Iff.rfl

instance [DecidableEq α] (s : OrderedSet α) (a : α) : Decidable (a ∈ s) :=
  inferInstanceAs (Decidable (a ∈ s.elements))

def empty : OrderedSet α := ⟨[], List.nodup_nil⟩

@[simp] theorem not_mem_empty (a : α) : a ∉ (empty : OrderedSet α) := List.not_mem_nil

def size (s : OrderedSet α) : ℕ := s.elements.length

def filter (keep : α → Bool) (s : OrderedSet α) : OrderedSet α :=
  ⟨s.elements.filter keep, s.nodup.filter keep⟩

@[simp] theorem mem_filter {keep : α → Bool} : a ∈ s.filter keep ↔ a ∈ s ∧ keep a = true := List.mem_filter

variable [DecidableEq α]

def add (s : OrderedSet α) (a : α) : OrderedSet α :=
  if present : a ∈ s then s
  else ⟨s.elements ++ [a], s.nodup.append (List.nodup_singleton a) (List.disjoint_singleton.mpr present)⟩

@[simp] theorem mem_add {b : α} : b ∈ s.add a ↔ b ∈ s ∨ b = a := by
  unfold add
  split
  · rename_i present
    exact ⟨.inl, fun either => either.elim id fun same => same ▸ present⟩
  · simp [mem_def]

def addAll (s : OrderedSet α) (l : List α) : OrderedSet α := l.foldl add s

variable {l : List α}

@[simp] theorem mem_addAll : a ∈ s.addAll l ↔ a ∈ s ∨ a ∈ l := by
  unfold addAll
  induction l generalizing s with
  | nil => simp
  | cons b rest ih => rw [List.foldl_cons, ih, mem_add, List.mem_cons, or_assoc]

/-- `new Set(l)`. -/
def ofList (l : List α) : OrderedSet α := empty.addAll l

@[simp] theorem mem_ofList : a ∈ ofList l ↔ a ∈ l := by simp [ofList]

end OrderedSet

end N8n
