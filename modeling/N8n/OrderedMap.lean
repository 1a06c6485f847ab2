import Mathlib.Algebra.GroupWithZero.Nat
import Mathlib.Data.List.Nodup
import N8n.OptionFold

/-! Finite maps with the iteration order of a JavaScript `Map`: a new key goes to
the end and writing an existing key leaves it where it is. Keys are distinct by
construction. -/

namespace N8n

open List Prod

structure OrderedMap (κ ν : Type*) where
  entries : List (κ × ν)
  nodup : (entries.map fst).Nodup
  deriving DecidableEq

namespace OrderedMap

variable {κ ν : Type*} [DecidableEq κ]

def setEntry (key : κ) (value : ν) : List (κ × ν) → List (κ × ν)
  | [] => [(key, value)]
  | entry :: rest =>
    if entry.1 = key then (key, value) :: rest else entry :: setEntry key value rest

def getEntry (key : κ) : List (κ × ν) → Option ν
  | [] => none
  | entry :: rest => if entry.1 = key then some entry.2 else getEntry key rest

variable {key other : κ} {value : ν} {entries : List (κ × ν)}

theorem mem_setEntry_keys : other ∈ (setEntry key value entries).map fst ↔ other = key ∨ other ∈ entries.map fst := by
  induction entries with
  | nil => simp [setEntry]
  | cons entry rest ih =>
    by_cases same : entry.1 = key
    · simp [setEntry, same]
    · simp only [setEntry, same, if_false, map_cons, mem_cons, ih]
      tauto

theorem setEntry_nodup (distinct : (entries.map fst).Nodup) : ((setEntry key value entries).map fst).Nodup := by
  induction entries with
  | nil => simp [setEntry]
  | cons entry rest ih =>
    simp only [map_cons, nodup_cons] at distinct
    by_cases same : entry.1 = key
    · subst same
      simpa only [setEntry, if_true, map_cons, nodup_cons] using distinct
    · simp only [setEntry, same, if_false, map_cons, nodup_cons]
      refine ⟨fun member => ?_, ih distinct.2⟩
      rcases mem_setEntry_keys.mp member with here | later
      · exact same here
      · exact distinct.1 later

def empty : OrderedMap κ ν := ⟨[], nodup_nil⟩

def get (m : OrderedMap κ ν) (key : κ) : Option ν := getEntry key m.entries

def has (m : OrderedMap κ ν) (key : κ) : Bool := (m.get key).isSome

def set (m : OrderedMap κ ν) (key : κ) (value : ν) : OrderedMap κ ν :=
  ⟨setEntry key value m.entries, setEntry_nodup m.nodup⟩

def delete (m : OrderedMap κ ν) (key : κ) : OrderedMap κ ν :=
  ⟨m.entries.filter (·.1 ≠ key), m.nodup.sublist (filter_sublist.map _)⟩

def deleteMany (m : OrderedMap κ ν) (keys : List κ) : OrderedMap κ ν := keys.foldl delete m

def values (m : OrderedMap κ ν) : List ν := m.entries.map snd

variable {μ : Type*}

omit [DecidableEq κ] in
theorem keys_map_snd (f : κ → ν → μ) (entries : List (κ × ν)) :
    (entries.map fun entry => (entry.1, f entry.1 entry.2)).map fst = entries.map fst := by
  simp

def mapValues {μ : Type*} (f : ν → μ) (m : OrderedMap κ ν) : OrderedMap κ μ :=
  ⟨m.entries.map fun entry => (entry.1, f entry.2), keys_map_snd (fun _ => f) m.entries ▸ m.nodup⟩

/-- The values computed from the keys and the old ones. -/
def mapKeyed {μ : Type*} (f : κ → ν → μ) (m : OrderedMap κ ν) : OrderedMap κ μ :=
  ⟨m.entries.map fun entry => (entry.1, f entry.1 entry.2), keys_map_snd f m.entries ▸ m.nodup⟩

/-- The entries whose values pass a test. -/
def filter (keep : ν → Bool) (m : OrderedMap κ ν) : OrderedMap κ ν :=
  ⟨m.entries.filter fun entry => keep entry.2, m.nodup.sublist (filter_sublist.map _)⟩

@[simp] theorem get_empty (key : κ) : (empty : OrderedMap κ ν).get key = none := rfl

section

variable (m : OrderedMap κ ν)
include m

@[simp] theorem get_set_self (key : κ) (value : ν) : (m.set key value).get key = some value := by
  simp only [get, set]
  induction m.entries with
  | nil => simp [setEntry, getEntry]
  | cons entry rest ih => by_cases same : entry.1 = key <;> simp [setEntry, getEntry, same, ih]

theorem get_set_ne (value : ν) (different : other ≠ key) : (m.set key value).get other = m.get other := by
  simp only [get, set]
  induction m.entries with
  | nil => simp [setEntry, getEntry, different.symm]
  | cons entry rest ih =>
    by_cases same : entry.1 = key
    · simp [setEntry, getEntry, same, different.symm]
    · simp [setEntry, getEntry, same, ih]

theorem get_set (key other : κ) (value : ν) :
    (m.set key value).get other = if other = key then some value else m.get other := by
  split
  · rename_i same
    rw [same, get_set_self]
  · rename_i different
    exact m.get_set_ne value different

theorem get_delete (key other : κ) : (m.delete key).get other = if other = key then none else m.get other := by
  simp only [get, delete]
  induction m.entries with
  | nil => simp [getEntry]
  | cons entry rest ih =>
    by_cases gone : entry.1 = key
    · rw [filter_cons_of_neg (by simpa using gone), ih]
      by_cases same : other = key
      · simp [same]
      · simp [getEntry, gone, same, Ne.symm same]
    · rw [filter_cons_of_pos (by simpa using gone)]
      by_cases same : entry.1 = other
      · subst same
        simp [getEntry, gone]
      · simp only [getEntry, same, if_false, ih]

@[simp] theorem get_delete_self (key : κ) : (m.delete key).get key = none := by
  simp [get_delete]

theorem get_delete_ne (different : other ≠ key) : (m.delete key).get other = m.get other := by
  simp [get_delete, different]

theorem get_delete_some (found : (m.delete key).get other = some value) : m.get other = some value := by
  rw [get_delete] at found
  split at found
  · cases found
  · exact found

theorem get_deleteMany (keys : List κ) (other : κ) :
    (m.deleteMany keys).get other = if other ∈ keys then none else m.get other := by
  unfold deleteMany
  induction keys generalizing m with
  | nil => simp
  | cons key rest ih =>
    rw [foldl_cons, ih, get_delete]
    by_cases here : other = key <;> simp [here]

theorem get_deleteMany_some {keys : List κ} (found : (m.deleteMany keys).get other = some value) :
    other ∉ keys ∧ m.get other = some value := by
  rw [get_deleteMany] at found
  split at found
  · cases found
  · rename_i outside
    exact ⟨outside, found⟩

theorem mem_entries_iff : (key, value) ∈ m.entries ↔ m.get key = some value := by
  obtain ⟨entries, distinct⟩ := m
  simp only [get]
  induction entries with
  | nil => simp [getEntry]
  | cons entry rest ih =>
    simp only [map_cons, nodup_cons] at distinct
    have tail := ih distinct.2
    by_cases same : entry.1 = key
    · subst same
      have outside : (entry.1, value) ∉ rest := fun member =>
        distinct.1 (List.mem_map.mpr ⟨_, member, rfl⟩)
      simp only [mem_cons, outside, or_false, getEntry, if_true, Option.some.injEq]
      exact ⟨fun here => congrArg snd here.symm, fun here => Prod.ext rfl here.symm⟩
    · have different : (key, value) ≠ entry := fun here => same (congrArg fst here).symm
      simp only [mem_cons, different, false_or, getEntry, same, if_false, tail]

theorem get_eq_none_iff : m.get key = none ↔ key ∉ m.entries.map fst := by
  simp only [get]
  induction m.entries with
  | nil => simp [getEntry]
  | cons entry rest ih => by_cases same : entry.1 = key <;> simp_all [getEntry, eq_comm]

theorem entries_set_new (value : ν) (absent : m.get key = none) :
    (m.set key value).entries = m.entries ++ [(key, value)] := by
  simp only [get, set] at absent ⊢
  generalize m.entries = entries at absent
  induction entries with
  | nil => rfl
  | cons entry rest ih =>
    by_cases same : entry.1 = key
    · simp [getEntry, same] at absent
    · simp only [getEntry, same, if_false] at absent
      simp [setEntry, same, ih absent]

end

variable {old : ν}

theorem keys_setEntry_known (value : ν)
    (found : getEntry key entries = some old) : (setEntry key value entries).map fst = entries.map fst := by
  induction entries with
  | nil => cases found
  | cons entry rest ih =>
    by_cases same : entry.1 = key
    · simp [setEntry, same]
    · simp only [getEntry, same, if_false] at found
      simp only [setEntry, same, if_false, map_cons, ih found]

theorem keys_set_known (m : OrderedMap κ ν) (value : ν) (found : m.get key = some old) :
    (m.set key value).entries.map fst = m.entries.map fst :=
  keys_setEntry_known value found

theorem mem_values_iff (m : OrderedMap κ ν) : value ∈ m.values ↔ ∃ key, m.get key = some value := by
  simp [values, ← mem_entries_iff]

theorem get_mapKeyed (f : κ → ν → μ) (m : OrderedMap κ ν) (key : κ) :
    (m.mapKeyed f).get key = (m.get key).map (f key) := by
  simp only [get, mapKeyed]
  induction m.entries with
  | nil => rfl
  | cons entry rest ih =>
    by_cases same : entry.1 = key
    · simp [getEntry, same]
    · simp only [map_cons, getEntry, same, if_false, ih]

theorem get_mapValues (f : ν → μ) (m : OrderedMap κ ν) (key : κ) :
    (m.mapValues f).get key = (m.get key).map f := m.get_mapKeyed (fun _ => f) key

theorem mapValues_set (f : ν → μ) (m : OrderedMap κ ν) (key : κ) (value : ν) :
    (m.set key value).mapValues f = (m.mapValues f).set key (f value) := by
  obtain ⟨entries, distinct⟩ := m
  simp only [mapValues, set, mk.injEq]
  clear distinct
  induction entries with
  | nil => rfl
  | cons entry rest ih =>
    by_cases same : entry.1 = key
    · simp [setEntry, same]
    · simp only [setEntry, same, if_false, map_cons, ih]

theorem get_filter (m : OrderedMap κ ν) (keep : ν → Bool) :
    (m.filter keep).get key = some value ↔ m.get key = some value ∧ keep value = true := by
  rw [← mem_entries_iff, ← mem_entries_iff, filter, mem_filter]

variable {name : ν → κ} {m : OrderedMap κ ν}

theorem get_of_values_key (named : ∀ key value, m.get key = some value → name value = key) :
    value ∈ m.values ↔ m.get (name value) = some value := by
  rw [mem_values_iff]
  constructor
  · rintro ⟨key, found⟩
    rwa [named key value found]
  · intro found
    exact ⟨name value, found⟩

theorem values_map_key (keyed : ∀ key value, m.get key = some value → name value = key) :
    m.values.map name = m.entries.map fst := by
  rw [values, List.map_map]
  exact map_congr_left fun entry member => keyed _ _ (m.mem_entries_iff.mp member)

theorem foldl_set_values (m : OrderedMap κ ν) (named : ∀ key value, m.get key = some value → name value = key) :
    m.values.foldl (fun copy value => copy.set (name value) value) empty = m := by
  have keyed : ∀ entry ∈ m.entries, name entry.2 = entry.1 := fun entry member =>
    named entry.1 entry.2 (m.mem_entries_iff.mp member)
  have grows : ∀ (entries : List (κ × ν)) (start : OrderedMap κ ν), (∀ entry ∈ entries, name entry.2 = entry.1) →
      ((start.entries ++ entries).map fst).Nodup →
      ((entries.map snd).foldl (fun copy value => copy.set (name value) value) start).entries =
        start.entries ++ entries := by
    intro entries
    induction entries with
    | nil => exact fun start _ _ => (append_nil _).symm
    | cons entry rest ih =>
      intro start own distinct
      have absent : start.get entry.1 = none := by
        refine start.get_eq_none_iff.mpr fun present => ?_
        rw [map_append, nodup_append] at distinct
        exact distinct.2.2 entry.1 present entry.1 (by simp) rfl
      have written := start.entries_set_new entry.2 absent
      rw [map_cons, foldl_cons, own entry mem_cons_self]
      rw [ih _ (fun other member => own other (mem_cons_of_mem _ member)), written]
      · simp
      · rw [written]
        simpa using distinct
  have whole := grows m.entries empty keyed (by simpa [empty] using m.nodup)
  cases m
  simp only [values, empty, nil_append] at whole ⊢
  rw [mk.injEq]
  exact whole

/-! ## Maps without some keys -/

def Without (m : OrderedMap κ ν) (gone : κ → Prop) (next : OrderedMap κ ν) : Prop :=
  ∀ key value, next.get key = some value ↔ m.get key = some value ∧ ¬gone key

section Without

variable {m mid next : OrderedMap κ ν} {p q : κ → Prop} {β : Type*} {gone : β → κ → Prop} {xs : List β}

theorem Without.refl (m : OrderedMap κ ν) : m.Without (fun _ => False) m := fun key value => by simp

theorem without_delete (m : OrderedMap κ ν) (key : κ) : m.Without (· = key) (m.delete key) := by
  intro other value
  rw [get_delete]
  by_cases same : other = key <;> simp [same]

theorem Without.trans (one : m.Without p mid) (two : mid.Without q next) :
    m.Without (fun key => p key ∨ q key) next := by
  intro key value
  rw [two, one, not_or, and_assoc]

theorem Without.congr (without : m.Without p next) (same : ∀ key, m.has key = true → (p key ↔ q key)) :
    m.Without q next := by
  intro key value
  rw [without]
  refine and_congr_right fun found => not_congr (same key ?_)
  rw [has, found]
  rfl

theorem without_foldl {step : OrderedMap κ ν → β → OrderedMap κ ν}
    (each : ∀ x ∈ xs, ∀ m : OrderedMap κ ν, m.Without (gone x) (step m x)) (m : OrderedMap κ ν) :
    m.Without (fun key => ∃ x ∈ xs, gone x key) (xs.foldl step m) := by
  induction xs generalizing m with
  | nil => exact (Without.refl m).congr (by simp)
  | cons x xs ih =>
    have first := each x mem_cons_self m
    have rest := ih (fun y member => each y (mem_cons_of_mem _ member)) (step m x)
    exact (first.trans rest).congr (by simp)

theorem without_foldlM {step : OrderedMap κ ν → β → Option (OrderedMap κ ν)}
    (each : ∀ x ∈ xs, ∀ m next : OrderedMap κ ν, step m x = some next → m.Without (gone x) next)
    (done : xs.foldlM step m = some next) : m.Without (fun key => ∃ x ∈ xs, gone x key) next := by
  induction xs generalizing m with
  | nil =>
    obtain rfl := Option.some.inj done
    exact (Without.refl m).congr (by simp)
  | cons x xs ih =>
    obtain ⟨mid, first, rest⟩ := foldlM_cons_eq_some.mp done
    have later := ih (fun y member => each y (mem_cons_of_mem _ member)) rest
    exact ((each x mem_cons_self m mid first).trans later).congr (by simp)

end Without

def size (m : OrderedMap κ ν) : ℕ := m.entries.length

theorem size_set_le (m : OrderedMap κ ν) (key : κ) (value : ν) : (m.set key value).size ≤ m.size + 1 := by
  simp only [size, set]
  induction m.entries with
  | nil => exact Nat.le_refl _
  | cons entry rest ih =>
    by_cases same : entry.1 = key
    · simp [setEntry, same]
    · simp only [setEntry, same, if_false, length_cons]
      omega

theorem size_delete_le (m : OrderedMap κ ν) (key : κ) : (m.delete key).size ≤ m.size :=
  length_filter_le _ _

theorem size_delete_lt (m : OrderedMap κ ν) (found : m.get key = some value) : (m.delete key).size < m.size := by
  simp only [size, delete]
  rw [length_filter_lt_length_iff_exists]
  exact ⟨(key, value), m.mem_entries_iff.mpr found, by simp⟩

omit [DecidableEq κ] in
theorem size_filter_le (m : OrderedMap κ ν) (keep : ν → Bool) : (m.filter keep).size ≤ m.size :=
  length_filter_le _ _

section Sum

variable (f : ν → ℕ)

variable {key : κ}

theorem sum_set (m : OrderedMap κ ν) (value : ν) (found : m.get key = some old) :
    ((m.set key value).values.map f).sum + f old = (m.values.map f).sum + f value := by
  obtain ⟨entries, distinct⟩ := m
  simp only [get, set, values] at found ⊢
  clear distinct
  induction entries with
  | nil => simp [getEntry] at found
  | cons entry rest ih =>
    by_cases same : entry.1 = key
    · simp only [getEntry, same, if_true, Option.some.injEq] at found
      simp only [setEntry, same, if_true, map_cons, sum_cons, found]
      omega
    · simp only [getEntry, same, if_false] at found
      have tail := ih found
      simp only [setEntry, same, if_false, map_cons, sum_cons]
      omega

theorem sum_delete (m : OrderedMap κ ν) (found : m.get key = some old) :
    ((m.delete key).values.map f).sum + f old = (m.values.map f).sum := by
  obtain ⟨entries, distinct⟩ := m
  simp only [get, delete, values] at found ⊢
  induction entries with
  | nil => simp [getEntry] at found
  | cons entry rest ih =>
    simp only [map_cons, nodup_cons] at distinct
    by_cases same : entry.1 = key
    · subst same
      have others : rest.filter (·.1 ≠ entry.1) = rest := by
        refine filter_eq_self.mpr fun other member => ?_
        simp only [ne_eq, decide_not, Bool.not_eq_eq_eq_not, Bool.not_true, decide_eq_false_iff_not]
        exact fun clash => distinct.1 (List.mem_map.mpr ⟨other, member, clash⟩)
      simp only [getEntry, if_true, Option.some.injEq] at found
      rw [filter_cons_of_neg (by simp), others]
      simp only [map_cons, sum_cons, found]
      omega
    · simp only [getEntry, same, if_false] at found
      have tail := ih distinct.2 found
      rw [filter_cons_of_pos (by simpa using same)]
      simp only [map_cons, sum_cons]
      omega

theorem sum_set_new (m : OrderedMap κ ν) (value : ν) (absent : m.get key = none) :
    ((m.set key value).values.map f).sum = (m.values.map f).sum + f value := by
  rw [values, entries_set_new m value absent]
  simp [values]

theorem sum_delete_le (m : OrderedMap κ ν) (key : κ) : ((m.delete key).values.map f).sum ≤ (m.values.map f).sum := by
  match found : m.get key with
  | some old =>
    have sums := m.sum_delete f found
    omega
  | none =>
    have same : (m.delete key).entries = m.entries := by
      refine filter_eq_self.mpr fun entry member => ?_
      have other : entry.1 ≠ key := fun clash =>
        m.get_eq_none_iff.mp found (List.mem_map.mpr ⟨entry, member, clash⟩)
      simpa using other
    simp [values, same]

end Sum

omit [DecidableEq κ] in
theorem size_eq_sum (m : OrderedMap κ ν) : m.size = (m.values.map fun _ => 1).sum := by
  simp only [size, values]
  induction m.entries with
  | nil => rfl
  | cons entry rest ih =>
    simp only [length_cons, map_cons, sum_cons, ih]
    omega

theorem size_set_known (m : OrderedMap κ ν) (value : ν)
    (found : m.get key = some old) : (m.set key value).size = m.size := by
  have sums := m.sum_set (fun _ => 1) value found
  rw [size_eq_sum, size_eq_sum]
  omega

end OrderedMap

end N8n
