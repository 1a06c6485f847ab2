import N8n.OrderedMap
import N8n.Walk

/-! Objects and arrays in a heap. A cell has its fields in the order of enumeration, and a value is a
primitive or the address of a cell, so that cells can be shared and lie on cycles. -/

namespace N8n.ObjectGraph

open List Option Prod

inductive Value (P : Type*) where
  | prim (value : P)
  | ref (addr : ℕ)
  deriving DecidableEq

inductive Primitive (O : Type*) where
  | string (text : String)
  | boolean (value : Bool)
  | other (value : O)
  deriving DecidableEq

inductive Key (N : Type*) where
  | index (i : ℕ)
  | name (text : N)
  deriving DecidableEq

inductive Cell (N P : Type*) where
  | array (elements : List (Value P))
  | object (entries : OrderedMap N (Value P))
  deriving DecidableEq

abbrev Heap (N P : Type*) := List (Cell N P)

variable {N P : Type*}

namespace Cell

def isArray : Cell N P → Bool
  | array _ => true
  | object _ => false

def fields : Cell N P → List (Key N × Value P)
  | array elements => elements.zipIdx.map fun element => (.index element.2, element.1)
  | object entries => entries.entries.map fun entry => (.name entry.1, entry.2)

def blank (isArray : Bool) : Cell N P := if isArray then array [] else object .empty

@[simp] theorem isArray_blank (isArray : Bool) : (blank isArray : Cell N P).isArray = isArray := by
  cases isArray <;> rfl

@[simp] theorem fields_blank (isArray : Bool) : (blank isArray : Cell N P).fields = [] := by
  cases isArray <;> rfl

theorem keys_array (elements : List (Value P)) : (array elements : Cell N P).fields.map fst =
    (List.range elements.length).map .index := by
  have keys : (array elements : Cell N P).fields.map fst = (elements.zipIdx.map snd).map .index := by
    rw [fields, List.map_map, List.map_map]
    rfl
  rw [keys, zipIdx_map_snd, range_eq_range']

theorem keys_object (entries : OrderedMap N (Value P)) : (object entries : Cell N P).fields.map fst =
    (entries.entries.map fst).map .name := by
  rw [fields, List.map_map, List.map_map]
  rfl

theorem nodup_keys (cell : Cell N P) : (cell.fields.map fst).Nodup := by
  cases cell with
  | array elements =>
    rw [keys_array]
    exact nodup_range.map fun _ _ => Key.index.inj
  | object entries =>
    rw [keys_object]
    exact entries.nodup.map fun _ _ => Key.name.inj

variable [DecidableEq N]

def get : Cell N P → Key N → Option (Value P)
  | array elements, .index i => elements[i]?
  | object entries, .name text => entries.get text
  | _, _ => none

def set : Cell N P → Key N → Value P → Cell N P
  | array elements, .index i, v => array (if i < elements.length then elements.set i v else elements ++ [v])
  | object entries, .name text, v => object (entries.set text v)
  | cell, _, _ => cell

variable {cell : Cell N P} {k : Key N} {other : Key N} {old : Value P}

theorem mem_fields_iff {v : Value P} : (k, v) ∈ cell.fields ↔ cell.get k = some v := by
  cases cell with
  | array elements =>
    cases k with
    | index i => simp [fields, get, mem_zipIdx_iff_getElem?]
    | name text => simp [fields, get]
  | object entries =>
    cases k with
    | index i => simp [fields, get]
    | name text => simp [fields, get, ← OrderedMap.mem_entries_iff]

theorem get_blank (isArray : Bool) (k : Key N) : (blank isArray : Cell N P).get k = none := by
  cases isArray <;> cases k <;> rfl

theorem isArray_set (cell : Cell N P) (k : Key N) (v : Value P) : (cell.set k v).isArray = cell.isArray := by
  cases cell <;> cases k <;> rfl

theorem fields_set {source : Cell N P} (v : Value P) (rest : List (Key N)) (kind : cell.isArray = source.isArray)
    (next : source.fields.map fst = cell.fields.map fst ++ k :: rest) :
    (cell.set k v).fields = cell.fields ++ [(k, v)] := by
  cases cell with
  | array elements =>
    cases source with
    | object entries => cases kind
    | array all =>
      rw [keys_array, keys_array] at next
      have here := congrArg (·[elements.length]?) next
      simp only [getElem?_append_right, length_map, length_range, Nat.le_refl, Nat.sub_self,
        getElem?_cons_zero] at here
      obtain ⟨i, position, rfl⟩ : ∃ i, (List.range all.length)[elements.length]? = some i ∧ .index i = k := by
        simpa using here
      obtain rfl : elements.length = i := by simpa using (List.getElem?_eq_some_iff.mp position).2
      simp [set, fields, zipIdx_append]
  | object entries =>
    cases source with
    | array all => cases kind
    | object all =>
      have distinct := nodup_keys (object all)
      rw [next] at distinct
      rw [keys_object] at next
      obtain ⟨text, rfl⟩ : ∃ text, k = .name text := by
        have member : k ∈ (all.entries.map fst).map Key.name := by rw [next]; simp
        obtain ⟨text, -, rfl⟩ := List.mem_map.mp member
        exact ⟨text, rfl⟩
      have absent : entries.get text = none := by
        refine entries.get_eq_none_iff.mpr fun member => ?_
        refine (nodup_append.mp distinct).2.2 (.name text) ?_ (.name text) (by simp) rfl
        rw [keys_object]
        exact mem_map_of_mem member
      simp [set, fields, entries.entries_set_new v absent]

def slot : Cell N P → Key N → Key N
  | array elements, .index i => .index (min i elements.length)
  | _, k => k

omit [DecidableEq N] in
theorem slot_eq_name {text : N} : cell.slot k = .name text ↔ k = .name text := by
  cases cell <;> cases k <;> simp [slot]

theorem get_set {v w : Value P} (found : (cell.set k v).get other = some w) :
    other = cell.slot k ∧ w = v ∨ cell.get other = some w := by
  cases cell with
  | array elements =>
    cases k with
    | name text => exact .inr found
    | index i =>
      cases other with
      | name text => cases found
      | index j =>
        simp only [set, get] at found
        split_ifs at found with inside
        · rw [getElem?_set] at found
          split_ifs at found with same
          · exact .inl ⟨by rw [slot, Nat.min_eq_left (Nat.le_of_lt inside), same], (some.inj found).symm⟩
          · exact .inr found
        · rw [getElem?_append] at found
          split_ifs at found with before
          · exact .inr found
          · obtain ⟨bound, rfl⟩ := List.getElem?_eq_some_iff.mp found
            rw [length_singleton] at bound
            refine .inl ⟨?_, getElem_singleton bound⟩
            rw [slot, Nat.min_eq_right (by omega)]
            exact congrArg Key.index (by omega)
  | object entries =>
    cases k with
    | index i => exact .inr found
    | name text =>
      cases other with
      | index j => cases found
      | name text' =>
        simp only [set, get, OrderedMap.get_set] at found
        split_ifs at found with same
        · exact .inl ⟨same ▸ rfl, (some.inj found).symm⟩
        · exact .inr found

theorem get_set_ne (cell : Cell N P) (v : Value P) (different : other ≠ k) (inside : ∃ old, cell.get k = some old) :
    (cell.set k v).get other = cell.get other := by
  obtain ⟨old, inside⟩ := inside
  cases cell with
  | array elements =>
    cases k with
    | name text => rfl
    | index i =>
      cases other with
      | name text => rfl
      | index j =>
        have bound : i < elements.length := (List.getElem?_eq_some_iff.mp inside).1
        simp only [set, get, if_pos bound]
        exact getElem?_set_ne fun same : i = j => different (same ▸ rfl)
  | object entries =>
    cases k with
    | index i => rfl
    | name text =>
      cases other with
      | index j => rfl
      | name text' => exact entries.get_set_ne v fun same => different (same ▸ rfl)

theorem keys_set_known (cell : Cell N P) (v : Value P) (inside : cell.get k = some old) :
    (cell.set k v).fields.map fst = cell.fields.map fst := by
  cases cell with
  | array elements =>
    cases k with
    | name text => rfl
    | index i =>
      have bound : i < elements.length := (List.getElem?_eq_some_iff.mp inside).1
      simp only [set, if_pos bound, keys_array, length_set]
  | object entries =>
    cases k with
    | index i => rfl
    | name text =>
      simp only [set, keys_object]
      rw [entries.keys_set_known v inside]

theorem get_set_self (cell : Cell N P) (v : Value P) (inside : cell.get k = some old) :
    (cell.set k v).get k = some v := by
  cases cell with
  | array elements =>
    cases k with
    | name text => cases inside
    | index i =>
      have bound : i < elements.length := (List.getElem?_eq_some_iff.mp inside).1
      simp [set, get, bound]
  | object entries =>
    cases k with
    | index i => cases inside
    | name text => exact entries.get_set_self text v

end Cell

/-! ## Values and cells that look alike -/

inductive Value.Alike (R : ℕ → ℕ → Prop) : Value P → Value P → Prop where
  | prim (value : P) : Alike R (.prim value) (.prim value)
  | ref {a b : ℕ} (related : R a b) : Alike R (.ref a) (.ref b)

theorem Value.Alike.mono {R S : ℕ → ℕ → Prop} {v w : Value P} (alike : v.Alike R w) (mono : ∀ a b, R a b → S a b) :
    v.Alike S w := by
  cases alike with
  | prim value => exact .prim value
  | ref related => exact .ref (mono _ _ related)

structure FieldAlike (R : ℕ → ℕ → Prop) (f g : Key N × Value P) : Prop where
  key : f.1 = g.1
  value : f.2.Alike R g.2

theorem FieldAlike.keys {R : ℕ → ℕ → Prop} {fs gs : List (Key N × Value P)} (alike : Forall₂ (FieldAlike R) fs gs) :
    fs.map fst = gs.map fst := by
  induction alike with
  | nil => rfl
  | cons field _ ih => rw [map_cons, map_cons, field.key, ih]

structure Cell.Alike (R : ℕ → ℕ → Prop) (c d : Cell N P) : Prop where
  kind : c.isArray = d.isArray
  fields : Forall₂ (FieldAlike R) c.fields d.fields

namespace Cell.Alike

variable {R S : ℕ → ℕ → Prop} {c d : Cell N P} {k : Key N} {v : Value P}

theorem mono (alike : c.Alike R d) (mono : ∀ a b, R a b → S a b) : c.Alike S d :=
  ⟨alike.kind, alike.fields.imp fun _ _ field => ⟨field.key, field.value.mono mono⟩⟩

variable [DecidableEq N]

theorem get (alike : c.Alike R d) (found : c.get k = some v) : ∃ w, d.get k = some w ∧ v.Alike R w := by
  obtain ⟨i, position⟩ := getElem?_of_mem (mem_fields_iff.mpr found)
  obtain ⟨inside, here⟩ := List.getElem?_eq_some_iff.mp position
  have other : i < d.fields.length := alike.fields.length_eq ▸ inside
  have field := alike.fields.get inside other
  simp only [get_eq_getElem, here] at field
  have same : (k, d.fields[i].2) = d.fields[i] := Prod.ext field.key rfl
  exact ⟨_, mem_fields_iff.mp (by rw [same]; exact getElem_mem other), field.value⟩

theorem get' {w : Value P} (alike : c.Alike R d) (found : d.get k = some w) : ∃ v, c.get k = some v ∧ v.Alike R w := by
  obtain ⟨i, position⟩ := getElem?_of_mem (mem_fields_iff.mpr found)
  obtain ⟨inside, here⟩ := List.getElem?_eq_some_iff.mp position
  have other : i < c.fields.length := alike.fields.length_eq ▸ inside
  have field := alike.fields.get other inside
  simp only [get_eq_getElem, here] at field
  have same : (k, c.fields[i].2) = c.fields[i] := Prod.ext field.key.symm rfl
  exact ⟨_, mem_fields_iff.mp (by rw [same]; exact getElem_mem other), field.value⟩

end Cell.Alike

/-! ## References -/

section References

variable [DecidableEq N]

def read (heap : Heap N P) (a : ℕ) (k : Key N) : Option (Value P) := heap[a]?.bind (·.get k)

def Edge (heap : Heap N P) (a b : ℕ) : Prop := ∃ k, read heap a k = some (.ref b)

def Reaches (heap : Heap N P) (v : Value P) (b : ℕ) : Prop :=
  ∃ a, v = .ref a ∧ Relation.ReflTransGen (Edge heap) a b

variable {heap : Heap N P} {a : ℕ} {k : Key N} {v : Value P} {heap' : Heap N P}

theorem read_eq_some_iff : read heap a k = some v ↔ ∃ cell, heap[a]? = some cell ∧ cell.get k = some v := by
  rw [read, bind_eq_some_iff]

theorem read_congr (same : heap'[a]? = heap[a]?) (k : Key N) : read heap' a k = read heap a k := by
  rw [read, read, same]

theorem read_eq_none (outside : heap.length ≤ a) (k : Key N) : read heap a k = none := by
  rw [read, getElem?_eq_none outside, bind_none]

def references (heap : Heap N P) : List (ℕ × Key N × ℕ) :=
  heap.zipIdx.flatMap fun cell => cell.1.fields.filterMap fun field =>
    match field.2 with
    | .prim _ => none
    | .ref b => some (cell.2, field.1, b)

variable {b : ℕ}

theorem mem_references_iff : (a, k, b) ∈ references heap ↔ read heap a k = some (.ref b) := by
  rw [read_eq_some_iff, references, mem_flatMap]
  constructor
  · rintro ⟨⟨cell, a'⟩, here, member⟩
    obtain ⟨⟨k', v⟩, field, same⟩ := mem_filterMap.mp member
    cases v with
    | prim value => cases same
    | ref b' =>
      cases same
      exact ⟨cell, mem_zipIdx_iff_getElem?.mp here, Cell.mem_fields_iff.mp field⟩
  · rintro ⟨cell, here, found⟩
    exact ⟨(cell, a), mem_zipIdx_iff_getElem?.mpr here,
      mem_filterMap.mpr ⟨(k, .ref b), Cell.mem_fields_iff.mpr found, rfl⟩⟩

theorem read_blank (heap : Heap N P) (isArray : Bool) (a : ℕ) (k : Key N) :
    read (heap ++ [.blank isArray]) a k = read heap a k := by
  rcases Nat.lt_trichotomy a heap.length with inside | rfl | outside
  · exact read_congr (getElem?_append_left inside) k
  · rw [read_eq_none (Nat.le_refl _), read, getElem?_concat_length, bind_some, Cell.get_blank]
  · rw [read_eq_none (Nat.le_of_lt outside), read_eq_none]
    rw [length_append, length_singleton]
    exact outside

theorem read_append (inside : a < heap.length) (cell : Cell N P) (k : Key N) :
    read (heap ++ [cell]) a k = read heap a k :=
  read_congr (getElem?_append_left inside) k

theorem read_modify {other : Key N} {w : Value P} (found : read (heap.modify a (·.set k v)) b other = some w) :
    (b = a ∧ w = v ∧ ∃ cell, heap[a]? = some cell ∧ other = cell.slot k) ∨ read heap b other = some w := by
  obtain ⟨cell, here, value⟩ := read_eq_some_iff.mp found
  rw [getElem?_modify] at here
  obtain ⟨before, there, rfl⟩ := map_eq_some_iff.mp here
  by_cases same : a = b
  · rw [if_pos same] at value
    subst same
    exact (Cell.get_set value).imp (fun ⟨place, same⟩ => ⟨rfl, same, before, there, place⟩)
      fun old => read_eq_some_iff.mpr ⟨before, there, old⟩
  · rw [if_neg same] at value
    exact .inr (read_eq_some_iff.mpr ⟨before, there, value⟩)

/-- There is a cell, an array or object as `kinds` says. -/
def IsCell (kinds : Bool → Bool) (heap : Heap N P) (a : ℕ) : Prop :=
  heap[a]?.map (fun cell => kinds cell.isArray) = some true

abbrev IsArray (heap : Heap N P) (a : ℕ) : Prop := IsCell id heap a

variable {kinds : Bool → Bool}

omit [DecidableEq N] in
theorem isCell_congr (same : heap'[a]? = heap[a]?) : IsCell kinds heap' a ↔ IsCell kinds heap a := by
  rw [IsCell, IsCell, same]

omit [DecidableEq N] in
theorem isCell_iff {cell : Cell N P} (here : heap[a]? = some cell) :
    IsCell kinds heap a ↔ kinds cell.isArray = true := by
  rw [IsCell, here, map_some, some.injEq]

omit [DecidableEq N] in
theorem IsCell.lt (cell : IsCell kinds heap a) : a < heap.length := by
  by_contra outside
  rw [IsCell, getElem?_eq_none (by omega)] at cell
  cases cell

theorem isCell_modify : IsCell kinds (heap.modify a (·.set k v)) b ↔ IsCell kinds heap b := by
  rw [IsCell, IsCell, getElem?_modify]
  cases heap[b]? with
  | none => rfl
  | some cell =>
    simp only [Option.map_eq_map, map_some]
    split_ifs
    · rw [Cell.isArray_set]
    · rfl

theorem reaches_ref (heap : Heap N P) (a : ℕ) : Reaches heap (.ref a) a := ⟨a, rfl, .refl⟩

theorem Reaches.step (reaches : Reaches heap v a) (field : read heap a k = some (.ref b)) : Reaches heap v b := by
  obtain ⟨first, rfl, walk⟩ := reaches
  exact ⟨first, rfl, walk.tail ⟨k, field⟩⟩

def Isomorphic (heap : Heap N P) (v : Value P) (heap' : Heap N P) (v' : Value P) : Prop :=
  ∃ R : ℕ → ℕ → Prop, (∀ a b b', R a b → R a b' → b = b') ∧ (∀ a a' b, R a b → R a' b → a = a') ∧
    v.Alike R v' ∧ ∀ a b, R a b → ∃ c d, heap[a]? = some c ∧ heap'[b]? = some d ∧ c.Alike R d

end References

structure Graph (N P : Type*) [DecidableEq N] where
  heap : Heap N P
  root : Value P
  rooted : ∀ a, root = .ref a → a < heap.length
  closed : ∀ a k b, read heap a k = some (.ref b) → b < heap.length

namespace Graph

variable [DecidableEq N] {g : Graph N P} {a b : ℕ}

def Reachable (g : Graph N P) (a : ℕ) : Prop := Reaches g.heap g.root a

theorem Reachable.lt (reachable : g.Reachable a) : a < g.heap.length := by
  obtain ⟨first, root, walk⟩ := reachable
  rcases walk.cases_tail with rfl | ⟨b, -, k, field⟩
  · exact g.rooted _ root
  · exact g.closed b k a field

theorem Reachable.cell (reachable : g.Reachable a) : ∃ cell, g.heap[a]? = some cell :=
  ⟨_, getElem?_eq_getElem reachable.lt⟩

end Graph

end N8n.ObjectGraph

namespace N8n.Utils

open List Option Prod

export ObjectGraph (Graph)

end N8n.Utils
