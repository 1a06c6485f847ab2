import Mathlib.Data.List.Flatten
import N8n.OrderedMap

/-! Maps from keys to lists, read as one list of keyed elements. Pushing an element adds it once.
Writing whole lists keeps all that was written exactly if no key is written twice. -/

namespace N8n.OrderedMap

open List

variable {κ β : Type*} [DecidableEq κ]

omit [DecidableEq κ] in
def flatten (m : OrderedMap κ (List β)) : List (κ × β) :=
  m.entries.flatMap fun entry => entry.2.map fun element => (entry.1, element)

omit [DecidableEq κ] in
theorem flatten_length (m : OrderedMap κ (List β)) : m.flatten.length = (m.values.map List.length).sum := by
  simp only [flatten, values, length_flatMap, length_map, List.map_map]
  rfl

theorem flatten_set_new (m : OrderedMap κ (List β)) {key : κ} (absent : m.get key = none) (elements : List β) :
    (m.set key elements).flatten = m.flatten ++ elements.map fun element => (key, element) := by
  rw [flatten, entries_set_new m elements absent]
  simp [flatten]

theorem flatten_push (m : OrderedMap κ (List β)) (key : κ) (element : β) :
    (m.set key ((m.get key).getD [] ++ [element])).flatten.Perm (m.flatten ++ [(key, element)]) := by
  cases found : m.get key with
  | none =>
    rw [flatten_set_new m found]
    rfl
  | some old =>
    obtain ⟨entries, distinct⟩ := m
    simp only [get, set, flatten] at found ⊢
    clear distinct
    induction entries with
    | nil => simp [getEntry] at found
    | cons entry rest ih =>
      by_cases same : entry.1 = key
      · simp only [getEntry, same, if_true, Option.some.injEq] at found
        simp only [setEntry, same, if_true, flatMap_cons, found, Option.getD_some,
          map_append, map_cons, map_nil, append_assoc]
        exact Perm.append_left _ perm_append_comm
      · simp only [getEntry, same, if_false] at found
        simp only [setEntry, same, if_false, flatMap_cons, append_assoc]
        exact Perm.append_left _ (ih found)

theorem flatMap_entries_key {ν γ : Type*} (m : OrderedMap κ ν) (key : κ) (f : ν → List γ) :
    (m.entries.flatMap fun entry => if entry.1 = key then f entry.2 else []) = ((m.get key).map f).getD [] := by
  obtain ⟨entries, distinct⟩ := m
  simp only [get]
  induction entries with
  | nil => rfl
  | cons entry rest ih =>
    rw [map_cons, nodup_cons] at distinct
    by_cases same : entry.1 = key
    · have nothing : (rest.flatMap fun other => if other.1 = key then f other.2 else []) = [] := by
        refine flatMap_eq_nil_iff.mpr fun other listed => if_neg fun clash => distinct.1 ?_
        exact same ▸ clash ▸ mem_map_of_mem listed
      simp [getEntry, same, nothing]
    · simp [getEntry, same, ih distinct.2]

section Writes

def write (m : OrderedMap κ (List β)) (writes : List (κ × List β)) : OrderedMap κ (List β) :=
  writes.foldl (fun m entry => m.set entry.1 entry.2) m

def written (writes : List (κ × List β)) : List (κ × β) :=
  writes.flatMap fun entry => entry.2.map fun element => (entry.1, element)

variable {writes : List (κ × List β)}

omit [DecidableEq κ] in
theorem mem_keys_iff (nonempty : ∀ entry ∈ writes, entry.2 ≠ []) {key : κ} :
    key ∈ writes.map Prod.fst ↔ ∃ element, (key, element) ∈ written writes := by
  constructor
  · intro listed
    obtain ⟨⟨_, elements⟩, member, rfl⟩ := List.mem_map.mp listed
    obtain ⟨element, inside⟩ := exists_mem_of_ne_nil _ (nonempty _ member)
    exact ⟨element, mem_flatMap.mpr ⟨_, member, mem_map_of_mem inside⟩⟩
  · rintro ⟨element, member⟩
    obtain ⟨entry, listed, inside⟩ := mem_flatMap.mp member
    obtain ⟨_, -, same⟩ := List.mem_map.mp inside
    cases same
    exact mem_map_of_mem listed

theorem write_new (m : OrderedMap κ (List β))
    (absent : ∀ entry ∈ writes, m.get entry.1 = none) (distinct : (writes.map Prod.fst).Nodup) :
    (m.write writes).flatten = m.flatten ++ written writes := by
  induction writes generalizing m with
  | nil => simp [write, written]
  | cons entry writes ih =>
    rw [map_cons, nodup_cons] at distinct
    have absent' : ∀ other ∈ writes, (m.set entry.1 entry.2).get other.1 = none := by
      intro other listed
      have different : other.1 ≠ entry.1 := fun same =>
        distinct.1 (same ▸ mem_map_of_mem listed)
      rw [get_set_ne _ _ different]
      exact absent other (mem_cons_of_mem _ listed)
    have later := ih (m.set entry.1 entry.2) absent' distinct.2
    rw [write] at later
    rw [write, foldl_cons, later, flatten_set_new m (absent entry mem_cons_self)]
    simp [written]

theorem set_flatten_length (m : OrderedMap κ (List β)) (key : κ) (elements : List β) :
    (m.set key elements).flatten.length + ((m.get key).getD []).length = m.flatten.length + elements.length := by
  rw [flatten_length, flatten_length]
  cases found : m.get key with
  | none =>
    have sums := m.sum_set_new List.length elements found
    simpa using sums
  | some old => exact m.sum_set List.length elements found

theorem write_length (m : OrderedMap κ (List β)) (filled : ∀ key elements, m.get key = some elements → elements ≠ [])
    (nonempty : ∀ entry ∈ writes, entry.2 ≠ []) :
    (m.write writes).flatten.length ≤ m.flatten.length + (written writes).length ∧
      ((m.write writes).flatten.length = m.flatten.length + (written writes).length →
        (∀ entry ∈ writes, m.get entry.1 = none) ∧ (writes.map Prod.fst).Nodup) := by
  induction writes generalizing m with
  | nil => simp [write, written]
  | cons entry writes ih =>
    have filled' : ∀ key elements, (m.set entry.1 entry.2).get key = some elements → elements ≠ [] := by
      intro key elements found
      rw [get_set] at found
      split_ifs at found
      · cases found
        exact nonempty entry mem_cons_self
      · exact filled key elements found
    obtain ⟨most, exact_⟩ := ih (m.set entry.1 entry.2) filled' fun other listed =>
      nonempty other (mem_cons_of_mem _ listed)
    have first := set_flatten_length m entry.1 entry.2
    have total : (written (entry :: writes)).length = entry.2.length + (written writes).length := by
      simp [written]
    have same : m.write (entry :: writes) = (m.set entry.1 entry.2).write writes := rfl
    rw [same, total]
    refine ⟨by omega, fun all => ?_⟩
    obtain ⟨new, distinct⟩ := exact_ (by omega)
    have absent : m.get entry.1 = none := by
      cases found : m.get entry.1 with
      | none => rfl
      | some old =>
        have some_ := length_pos_of_ne_nil (filled _ _ found)
        rw [found, Option.getD_some] at first
        omega
    have apart : ∀ other ∈ writes, other.1 ≠ entry.1 := by
      intro other listed clash
      have none_ := new other listed
      rw [clash, get_set_self] at none_
      cases none_
    refine ⟨fun other listed => ?_, nodup_cons.mpr ⟨?_, distinct⟩⟩
    · rcases mem_cons.mp listed with rfl | later
      · exact absent
      · rw [← new other later, get_set_ne _ _ (apart other later)]
    · intro listed
      obtain ⟨other, later, clash⟩ := List.mem_map.mp listed
      exact apart other later clash

theorem write_perm_iff (nonempty : ∀ entry ∈ writes, entry.2 ≠ []) :
    ((empty : OrderedMap κ (List β)).write writes).flatten.Perm (written writes) ↔ (writes.map Prod.fst).Nodup := by
  constructor
  · intro all
    have counted := (write_length empty (by simp) nonempty).2
    rw [all.length_eq] at counted
    exact (counted (by simp [flatten, empty])).2
  · intro distinct
    rw [write_new empty (by simp) distinct]
    exact Perm.refl _

end Writes

end N8n.OrderedMap
