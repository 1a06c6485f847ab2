import Mathlib.Algebra.BigOperators.Group.List.Basic
import Mathlib.Data.List.Induction
import Mathlib.Data.List.ReduceOption

/-! JavaScript arrays and integer-keyed objects as lists. Assigning past the end
fills the gap, so an array of cells also serves as an object whose keys are
natural numbers: its keys are enumerated in ascending order, a deleted key leaves
an empty cell, and its size is the number of filled cells.
`weigh` adds up a measure of the entries. One assignment changes it by the
measure of the entry written and of the entry it replaces. -/

namespace N8n

open List

/-- `xs[i] = v`; positions between the old end and `i` become `fill`. -/
def assignAt {α : Type*} (fill : α) : List α → ℕ → α → List α
  | [], 0, v => [v]
  | [], i + 1, v => fill :: assignAt fill [] i v
  | _ :: xs, 0, v => v :: xs
  | x :: xs, i + 1, v => x :: assignAt fill xs i v

variable {α : Type*}

theorem getD_assignAt_self (fill : α) (xs : List α) (i : ℕ) (v : α) : (assignAt fill xs i v).getD i fill = v := by
  fun_induction assignAt fill xs i v with
  | case1 => rfl
  | case2 i v ih => simpa using ih
  | case3 => rfl
  | case4 x xs i v ih => simpa using ih

theorem getD_assignAt_ne (fill : α) (xs : List α) {i j : ℕ} (v : α)
    (other : j ≠ i) : (assignAt fill xs i v).getD j fill = xs.getD j fill := by
  fun_induction assignAt fill xs i v generalizing j with
  | case1 v =>
    obtain ⟨k, rfl⟩ : ∃ k, j = k + 1 := ⟨j - 1, by omega⟩
    rfl
  | case2 i v ih =>
    cases j with
    | zero => rfl
    | succ j => simpa using ih (by omega)
  | case3 x xs v =>
    obtain ⟨k, rfl⟩ : ∃ k, j = k + 1 := ⟨j - 1, by omega⟩
    rfl
  | case4 x xs i v ih =>
    cases j with
    | zero => rfl
    | succ j => simpa using ih (by omega)

theorem mem_assignAt {fill : α} {xs : List α} {i : ℕ} {v x : α}
    (member : x ∈ assignAt fill xs i v) : x ∈ xs ∨ x = v ∨ x = fill := by
  fun_induction assignAt fill xs i v with
  | case1 v => simp_all
  | case2 i v ih =>
    rcases mem_cons.mp member with here | later
    · exact .inr (.inr here)
    · exact ih later
  | case3 y xs v =>
    rcases mem_cons.mp member with here | later
    · exact .inr (.inl here)
    · exact .inl (mem_cons_of_mem _ later)
  | case4 y xs i v ih =>
    rcases mem_cons.mp member with here | later
    · exact .inl (here ▸ mem_cons_self)
    · exact (ih later).imp_left (mem_cons_of_mem _)

/-- Writing back what is already there changes nothing. -/
theorem assignAt_assignAt (fill : α) (xs : List α) (i : ℕ) (v w : α) :
    assignAt fill (assignAt fill xs i v) i w = assignAt fill xs i w := by
  fun_induction assignAt fill xs i v with
  | case1 => rfl
  | case2 i v ih => simpa [assignAt] using ih
  | case3 => rfl
  | case4 x xs i v ih => simpa [assignAt] using ih

section Changed

variable {xs : List α} {i j : ℕ} {f : α → α} {x y : α}

theorem getElem?_modified (i : ℕ) (here : xs[j]? = some x) : (xs.modify i f)[j]? = some (if i = j then f x else x) := by
  rw [getElem?_modify, here]
  rfl

theorem of_getElem?_modified (there : (xs.modify i f)[j]? = some y) :
    ∃ x, xs[j]? = some x ∧ y = if i = j then f x else x := by
  rw [getElem?_modify] at there
  obtain ⟨x, before, same⟩ := Option.map_eq_some_iff.mp there
  exact ⟨x, before, same.symm⟩

theorem getElem?_concat (here : xs[i]? = some x) (last : α) : (xs ++ [last])[i]? = some x :=
  (getElem?_append_left (List.getElem?_eq_some_iff.mp here).1).trans here

end Changed

section Weigh

variable {α M : Type*} [AddCommMonoid M]

/-- The sum of `f i x` over the entries `x` at positions `i`, counted from `start`. -/
def weigh (f : ℕ → α → M) : ℕ → List α → M
  | _, [] => 0
  | start, x :: xs => f start x + weigh f (start + 1) xs

theorem weigh_assignAt (f : ℕ → α → M) (fill : α) (empty : ∀ i, f i fill = 0)
    (start : ℕ) (xs : List α) (i : ℕ) (v : α) :
    weigh f start (assignAt fill xs i v) + f (start + i) (xs.getD i fill) = weigh f start xs + f (start + i) v := by
  fun_induction assignAt fill xs i v generalizing start with
  | case1 v => simp [weigh, empty]
  | case2 i v ih =>
    have tail := ih (start + 1)
    rw [show start + 1 + i = start + (i + 1) by omega] at tail
    simpa [weigh, empty] using tail
  | case3 x xs v => simp [weigh, add_comm, add_left_comm]
  | case4 x xs i v ih =>
    have tail := ih (start + 1)
    rw [show start + 1 + i = start + (i + 1) by omega] at tail
    simp only [weigh, getD_cons_succ, add_assoc, tail]

theorem weigh_replicate (f : ℕ → α → M) (fill : α) (empty : ∀ i, f i fill = 0)
    (start n : ℕ) : weigh f start (List.replicate n fill) = 0 := by
  induction n generalizing start with
  | zero => rfl
  | succ n ih => simp [replicate_succ, weigh, empty, ih]

end Weigh

/-- An object with natural-number keys. -/
structure SparseArray (ν : Type*) where
  cells : List (Option ν)
  deriving DecidableEq

namespace SparseArray

variable {ν : Type*}

def empty : SparseArray ν := ⟨[]⟩

def get (a : SparseArray ν) (key : ℕ) : Option ν := a.cells.getD key none

def set (a : SparseArray ν) (key : ℕ) (value : ν) : SparseArray ν :=
  ⟨assignAt none a.cells key (some value)⟩

def delete (a : SparseArray ν) (key : ℕ) : SparseArray ν :=
  ⟨assignAt none a.cells key none⟩

/-- `Object.values`, in ascending order of the keys. -/
def values (a : SparseArray ν) : List ν := a.cells.reduceOption

/-- `Object.keys`, in ascending order. -/
def keys (a : SparseArray ν) : List ℕ :=
  (List.range a.cells.length).filter fun key => (a.get key).isSome

/-- The first key in ascending order whose value satisfies `p`. -/
def findKey (a : SparseArray ν) (p : ν → Bool) : Option ℕ := a.cells.findIdx? (·.any p)

@[simp] theorem get_set_self (a : SparseArray ν) (key : ℕ) (value : ν) :
    (a.set key value).get key = some value := getD_assignAt_self none a.cells key (some value)

def ofEntries (entries : List (ℕ × ν)) : SparseArray ν := entries.foldl (fun a entry => a.set entry.1 entry.2) empty

variable {key : ℕ} {other : ℕ} {p : ν → Bool}

theorem get_set_ne (a : SparseArray ν) (value : ν) (different : other ≠ key) :
    (a.set key value).get other = a.get other := getD_assignAt_ne none a.cells (some value) different

@[simp] theorem get_delete_self (a : SparseArray ν) (key : ℕ) : (a.delete key).get key = none :=
  getD_assignAt_self none a.cells key none

theorem get_delete_ne (a : SparseArray ν) (different : other ≠ key) :
    (a.delete key).get other = a.get other := getD_assignAt_ne none a.cells none different

@[simp] theorem set_set (a : SparseArray ν) (key : ℕ) (v w : ν) : (a.set key v).set key w = a.set key w := by
  simp only [set, assignAt_assignAt]

variable {a : SparseArray ν} {value : ν}

theorem get_eq_some_iff : a.get key = some value ↔ a.cells[key]? = some (some value) := by
  simp only [get, getD_eq_getElem?_getD]
  cases a.cells[key]? <;> simp

theorem mem_of_get_ofEntries {entries : List (ℕ × ν)} (found : (ofEntries entries).get key = some value) :
    ∃ other, (other, value) ∈ entries := by
  induction entries using List.reverseRecOn with
  | nil => simp [ofEntries, empty, get] at found
  | append_singleton entries entry ih =>
    rw [ofEntries, foldl_append, foldl_cons, foldl_nil, ← ofEntries] at found
    by_cases same : key = entry.1
    · rw [same, get_set_self] at found
      exact ⟨entry.1, mem_append_right _ (mem_singleton.mpr (by rw [← Option.some.inj found]))⟩
    · rw [get_set_ne _ _ same] at found
      obtain ⟨other, member⟩ := ih found
      exact ⟨other, mem_append_left _ member⟩

theorem mem_values_of_get (h : a.get key = some value) : value ∈ a.values :=
  reduceOption_mem_iff.mpr (mem_of_getElem? (get_eq_some_iff.mp h))

theorem findKey_some (h : a.findKey p = some key) : ∃ value, a.get key = some value ∧ p value = true := by
  obtain ⟨inside, holds, _⟩ := findIdx?_eq_some_iff_getElem.mp h
  cases filled : a.cells[key] with
  | none => simp [filled] at holds
  | some value =>
    simp only [filled, Option.any_some] at holds
    refine ⟨value, get_eq_some_iff.mpr ?_, holds⟩
    rw [getElem?_eq_getElem inside, filled]

theorem findKey_none (h : a.findKey p = none) (filled : a.get key = some value) : p value = false := by
  have all := findIdx?_eq_none_iff.mp h
  simpa using all (some value) (mem_of_getElem? (get_eq_some_iff.mp filled))

section Weigh

variable {M : Type*} [AddCommMonoid M]

/-- The sum of a measure of the values. -/
def total (f : ν → M) (a : SparseArray ν) : M :=
  weigh (fun _ cell => cell.elim 0 f) 0 a.cells

theorem total_set (f : ν → M) (a : SparseArray ν) (key : ℕ) (value : ν) :
    total f (a.set key value) + (a.get key).elim 0 f = total f a + f value := by
  simpa [total, set, get] using
    weigh_assignAt (fun _ (cell : Option ν) => cell.elim 0 f) none (fun _ => rfl) 0 a.cells key (some value)

theorem total_delete (f : ν → M) (a : SparseArray ν) (key : ℕ) :
    total f (a.delete key) + (a.get key).elim 0 f = total f a := by
  simpa [total, delete, get] using
    weigh_assignAt (fun _ (cell : Option ν) => cell.elim 0 f) none (fun _ => rfl) 0 a.cells key none

theorem total_of_values_nil (f : ν → M) (vacant : a.values = []) : total f a = 0 := by
  have sum : ∀ start (cells : List (Option ν)), cells.reduceOption = [] →
      weigh (fun _ cell => cell.elim 0 f) start cells = 0 := by
    intro start cells
    induction cells generalizing start with
    | nil => intro _; rfl
    | cons cell cells ih =>
      cases cell with
      | none => simpa [weigh, reduceOption_cons_of_none] using ih (start + 1)
      | some value => simp [reduceOption_cons_of_some]
  exact sum 0 a.cells vacant

@[simp] theorem total_empty (f : ν → M) : total f (empty : SparseArray ν) = 0 := rfl

end Weigh

end SparseArray

end N8n
