import Mathlib.Logic.Function.Basic
import Mathlib.Tactic.Common
import N8n.AugmentObject

/-! What an object, an array or an overlay shows, whatever holds it. The traps of the two
kinds of proxies act on what their overlay shows as plain objects and arrays act on their
properties, with two exceptions: the constructor, and names that are inherited. -/

namespace N8n.PlainData

open Option OrderedMap Function

@[ext]
structure View where
  isArray : Bool
  length : ℕ
  own : Key → Option Value

def Cell.view (c : Cell) : View := ⟨c.isArray, c.length, c.own.get⟩

namespace View

def isLength (v : View) (key : Key) : Bool := v.isArray && key = .name "length"

def getOwn (v : View) (key : Key) : Option Value :=
  if v.isLength key then some (.prim (.number v.length)) else v.own key

def get (v : View) (key : Key) : Value :=
  ((v.getOwn key).or (inherited v.isArray key)).getD .undefined

def has (v : View) (key : Key) : Bool := (v.getOwn key).isSome || (inherited v.isArray key).isSome

def delete (v : View) (key : Key) : View := { v with own := Function.update v.own key none }

def put (v : View) (key : Key) (x : Value) : View :=
  { v with
    own := Function.update v.own key (some x)
    length := match v.isArray, key with
      | true, .index n => max v.length (n + 1)
      | _, _ => v.length }

def setLength (v : View) (length : ℕ) : View :=
  { v with
    own := fun key => match key with
      | .index n => if length ≤ n then none else v.own key
      | .name _ => v.own key
    length }

def set (v : View) (key : Key) (x : Value) (length : Option ℕ) : Option View :=
  if v.isLength key then length.map v.setLength else some (v.put key x)

def Sized (v : View) : Prop := v.isArray = true → ∀ n, v.own (.index n) ≠ none → n < v.length

def map (f : Value → Value) (v : View) : View := { v with own := fun key => (v.own key).map f }

end View

/-! ## Cells -/

namespace Cell

variable (c : Cell) (key : Key) {c' : Cell}

theorem get_view : c.get key = c.view.get key := rfl

theorem has_view : c.has key = c.view.has key := rfl

theorem mem_ownKeys : key ∈ c.ownKeys ↔ c.view.getOwn key ≠ none := by
  unfold View.getOwn View.isLength
  by_cases array : c.isArray = true
  · by_cases length : key = .name "length"
    · simp [ownKeys, view, array, length]
    · simp [ownKeys, view, array, length, get_eq_none_iff]
  · simp [ownKeys, view, array, get_eq_none_iff]

theorem view_delete : ({ c with own := c.own.delete key } : Cell).view = c.view.delete key := by
  ext other
  · rfl
  · rfl
  · simp [view, View.delete, get_delete, update_apply]

theorem view_put (x : Value) : (c.put key x).view = c.view.put key x := by
  have own : (c.own.set key x).get = Function.update c.own.get key (some x) := by
    funext other
    rw [get_set, update_apply]
  unfold put view View.put
  cases c.isArray <;> cases key <;> simp [own]

theorem view_setLength (length : ℕ) : (c.setLength length).view = c.view.setLength length := by
  ext other v
  · rfl
  · rfl
  · simp only [view, setLength, View.setLength, get_deleteMany, List.mem_filter]
    cases other with
    | name text => simp
    | index n =>
      by_cases dropped : length ≤ n
      · by_cases present : c.own.get (.index n) = none
        · simp [dropped, present]
        · simp [dropped, by_contra fun h => present ((c.own.get_eq_none_iff).mpr h)]
      · simp [dropped]

theorem view_set (x : Value) (length : Option ℕ) : (c.set key x length).map view = c.view.set key x length := by
  have same : c.view.isLength key = c.isLength key := rfl
  unfold set View.set
  rw [same]
  split
  · cases length with
    | none => rfl
    | some length => exact congrArg some (view_setLength c length)
  · exact congrArg some (view_put c key x)

theorem view_set_some {x : Value} {length : Option ℕ} (set : c.set key x length = some c') :
    c.view.set key x length = some c'.view := by
  rw [← view_set, set, map_some]

theorem view_delete_some (deleted : c.delete key = some c') :
    c.view.isLength key = false ∧ c'.view = c.view.delete key := by
  unfold delete at deleted
  split at deleted
  · cases deleted
  · rename_i other
    cases deleted
    exact ⟨(Bool.not_eq_true _).mp other, view_delete c key⟩

end Cell

/-! ## Values renamed -/

structure Renaming (f : Value → Value) : Prop where
  undefined : f .undefined = .undefined
  prim : ∀ p, f (.prim p) = .prim p
  builtin : ∀ ofArray name, f (.builtin ofArray name) = .builtin ofArray name

namespace View

variable {f : Value → Value} (v : View) (key : Key) {length : Option ℕ} {x : Value} {y : Value}

theorem getOwn_map (renames : Renaming f) : (v.map f).getOwn key = (v.getOwn key).map f := by
  have same : (v.map f).isLength key = v.isLength key := rfl
  unfold getOwn
  rw [same]
  cases v.isLength key with
  | true => exact congrArg some (renames.prim _).symm
  | false => rfl

theorem get_map (renames : Renaming f) : (v.map f).get key = f (v.get key) := by
  unfold get
  rw [getOwn_map v key renames]
  cases v.getOwn key with
  | some x => rfl
  | none =>
    simp only [map, map_none, none_or]
    cases found : inherited v.isArray key with
    | none => exact renames.undefined.symm
    | some x =>
      unfold inherited at found
      split at found
      · cases found
      split at found
      · cases found
        exact (renames.builtin _ _).symm
      split at found
      · cases found
        exact (renames.builtin _ _).symm
      · cases found

theorem has_map (renames : Renaming f) : (v.map f).has key = v.has key := by
  unfold has
  rw [getOwn_map v key renames, isSome_map]
  rfl

theorem delete_map : (v.delete key).map f = (v.map f).delete key := by
  ext other x
  · rfl
  · rfl
  · by_cases same : other = key <;> simp [map, delete, update_apply, same]

theorem put_map (x : Value) : (v.put key x).map f = (v.map f).put key (f x) := by
  ext other y
  · rfl
  · rfl
  · by_cases same : other = key <;> simp [map, put, update_apply, same]

theorem setLength_map (length : ℕ) : (v.setLength length).map f = (v.map f).setLength length := by
  ext other y
  · rfl
  · rfl
  · cases other with
    | name text => rfl
    | index n =>
      simp only [map, setLength]
      split <;> rfl

theorem Sized.put {v : View} (h : v.Sized) (key : Key) (x : Value) : (v.put key x).Sized := by
  intro array n present
  obtain ⟨isArray, length, own⟩ := v
  obtain rfl : isArray = true := array
  by_cases same : Key.index n = key
  · subst same
    exact Nat.lt_of_lt_of_le (Nat.lt_succ_self n) (Nat.le_max_right _ _)
  · simp only [View.put, update_of_ne same] at present
    have below := h rfl n present
    cases key with
    | index m => exact Nat.lt_of_lt_of_le below (Nat.le_max_left _ _)
    | name text => exact below

theorem Sized.delete {v : View} (h : v.Sized) (key : Key) : (v.delete key).Sized := by
  intro array n present
  refine h array n fun absent => present ?_
  simp only [View.delete, update_apply, absent]
  split <;> rfl

theorem Sized.setLength {v : View} (length : ℕ) : (v.setLength length).Sized := by
  intro array n present
  simp only [View.setLength] at present ⊢
  by_contra long
  exact present (if_pos (by omega))

theorem Sized.set {v v' : View} (h : v.Sized) {key : Key} (set : v.set key x length = some v') : v'.Sized := by
  unfold View.set at set
  split at set
  · obtain ⟨length, _, rfl⟩ := map_eq_some_iff.mp set
    exact Sized.setLength length
  · cases set
    exact h.put key x

/-! What is there afterwards was there before or was written. -/

theorem own_put {v : View} {key other : Key} (own : (v.put key x).own other = some y) :
    y = x ∨ v.own other = some y := by
  simp only [View.put, update_apply] at own
  split at own
  · exact .inl (some.inj own).symm
  · exact .inr own

theorem own_delete {v : View} {key other : Key} (own : (v.delete key).own other = some y) : v.own other = some y := by
  simp only [View.delete, update_apply] at own
  split at own
  · cases own
  · exact own

theorem own_set {v v' : View} {key other : Key} (set : v.set key x length = some v') (own : v'.own other = some y) :
    y = x ∨ v.own other = some y := by
  unfold View.set at set
  split at set
  · obtain ⟨length, _, rfl⟩ := map_eq_some_iff.mp set
    cases other with
    | name text => exact .inr own
    | index n =>
      simp only [setLength] at own
      split at own
      · cases own
      · exact .inr own
  · cases set
    exact own_put own

theorem Sized.map {v : View} (h : v.Sized) (f : Value → Value) : (v.map f).Sized := by
  intro array n present
  refine h array n fun absent => present ?_
  simp [View.map, absent]

/-- Writing again what is there changes nothing. -/
theorem put_same {v : View} {key : Key} (own : v.own key = some x) (sized : v.Sized) : v.put key x = v := by
  have same : Function.update v.own key (some x) = v.own := update_eq_self_iff.mpr own.symm
  ext other y
  · rfl
  · simp only [put]
    cases array : v.isArray with
    | false => rfl
    | true =>
      cases key with
      | name text => rfl
      | index n =>
        have below := sized array n (by simp [own])
        exact Nat.max_eq_left below
  · simp only [put, same]

theorem own_of_get {v : View} {key : Key} {b : Addr} (read : v.get key = .plain b) : v.own key = some (.plain b) := by
  unfold get getOwn at read
  split at read
  · cases read
  · cases own : v.own key with
    | some x => simpa [own] using read
    | none =>
      simp only [own, none_or, inherited] at read
      split at read
      · cases read
      split at read
      · cases read
      split at read <;> cases read

theorem get_constructor {v : View} (absent : v.own (.name "constructor") = none) :
    v.get (.name "constructor") = .builtin v.isArray "constructor" := by
  unfold get getOwn isLength
  cases v.isArray <;> simp [absent, inherited, arrayPrototype, objectPrototype]

theorem isArray_set {v v' : View} {key : Key} (set : v.set key x length = some v') : v'.isArray = v.isArray := by
  unfold View.set at set
  split at set
  · obtain ⟨length, _, rfl⟩ := map_eq_some_iff.mp set
    rfl
  · cases set
    rfl

theorem set_map (x : Value) (length : Option ℕ) :
    (v.set key x length).map (map f) = (v.map f).set key (f x) length := by
  have same : (v.map f).isLength key = v.isLength key := rfl
  unfold set
  rw [same]
  split
  · cases length with
    | none => rfl
    | some length => exact congrArg some (setLength_map v length)
  · exact congrArg some (put_map v key x)

end View

end N8n.PlainData

namespace N8n.AugmentObject

open PlainData Option OrderedMap Function

/-! ## Overlays -/

def Overlay.view (data : Cell) : Overlay → View
  | .object newData deletedProperties =>
    ⟨false, 0, fun key =>
      if key ∈ deletedProperties then none else (newData.get key).or (data.own.get key)⟩
  | .array newData => (newData.getD data).view

section Object

variable (data : Cell) (newData : OrderedMap Key Value) (deletedProperties : Finset Key) (key : Key)

theorem view_put (v : Value) : (Overlay.object (newData.set key v) (deletedProperties.erase key)).view data =
      ((Overlay.object newData deletedProperties).view data).put key v := by
  ext other x
  · rfl
  · rfl
  · by_cases same : other = key <;> simp [Overlay.view, View.put, get_set, same]

theorem view_cache (v : Value) (kept : key ∉ deletedProperties) :
    (Overlay.object (newData.set key v) deletedProperties).view data =
      ((Overlay.object newData deletedProperties).view data).put key v := by
  rw [← view_put, Finset.erase_eq_of_notMem kept]

theorem view_delete {marked : Bool} (marks : marked = (data.own.get key).isSome) : (Overlay.object (newData.delete key)
        (if marked = true then insert key deletedProperties else deletedProperties)).view data =
      ((Overlay.object newData deletedProperties).view data).delete key := by
  ext other x
  · rfl
  · rfl
  · by_cases same : other = key
    · cases absent : data.own.get key <;>
        simp [Overlay.view, View.delete, get_delete, same, marks, absent]
    · cases absent : data.own.get key <;>
        simp [Overlay.view, View.delete, get_delete, same, marks, absent]

variable {data : Cell} {deletedProperties : Finset Key} (object : data.isArray = false)

include object

theorem getOwn_of_object : data.getOwn key = data.own.get key := by
  simp [Cell.getOwn, Cell.isLength, object]

theorem has_object (plain : ∀ key ∈ deletedProperties, inherited false key = none) :
    (if key ∈ deletedProperties then false else newData.has key || data.has key) =
      ((Overlay.object newData deletedProperties).view data).has key := by
  simp only [View.has, View.getOwn, View.isLength, Overlay.view, Cell.has, OrderedMap.has,
    getOwn_of_object key object, object, Bool.false_and, Bool.false_eq_true, if_false]
  split
  · rename_i deleted
    simp [plain key deleted]
  · cases newData.get key <;> simp

theorem mem_keys_object : key ∈ (data.ownKeys ∪ (newData.entries.map Prod.fst).toFinset).filter
        (fun key => key ∉ deletedProperties) ↔
      ((Overlay.object newData deletedProperties).view data).getOwn key ≠ none := by
  simp only [Finset.mem_filter, Finset.mem_union, List.mem_toFinset, View.getOwn, View.isLength,
    Overlay.view, Bool.false_and, Bool.false_eq_true, if_false]
  have own : key ∈ data.ownKeys ↔ data.own.get key ≠ none := by
    rw [Cell.mem_ownKeys, ← getOwn_of_object key object]
    rfl
  have written : key ∈ newData.entries.map Prod.fst ↔ newData.get key ≠ none := by
    rw [ne_eq, newData.get_eq_none_iff, not_not]
  rw [own, written]
  by_cases deleted : key ∈ deletedProperties
  · simp [deleted]
  · cases newData.get key <;> cases data.own.get key <;> simp [deleted]

theorem get_object (plain : ∀ key ∈ deletedProperties, inherited false key = none) :
    ((Overlay.object newData deletedProperties).view data).get key =
      if key ∈ deletedProperties then .undefined else (newData.get key).getD (data.get key) := by
  simp only [View.get, View.getOwn, View.isLength, Overlay.view, Cell.get,
    getOwn_of_object key object, object, Bool.false_and, Bool.false_eq_true, if_false]
  split
  · rename_i deleted
    simp [plain key deleted]
  · cases newData.get key <;> rfl

end Object

/-! ## Cells of JSON values -/

section JsonCell

variable (a : Addr) (json : Json)

theorem own_cell (key : Key) :
    (json.cell a).own.get key = (json.entries.get key).map fun inner => inner.value (a.child key) :=
  get_mapKeyed _ _ _

theorem sized_cell : (json.cell a).view.Sized := by
  intro array n present
  cases json with
  | prim p => cases array
  | object entries => cases array
  | array items =>
    simp only [Cell.view, own_cell, Json.entries, get_indexed, ne_eq, map_eq_none_iff,
      List.getElem?_eq_none_iff, not_le] at present
    exact present

theorem view_spread (array : (json.cell a).isArray = true) : (json.cell a).spread.view = (json.cell a).view := by
  cases json with
  | prim p => cases array
  | object entries => cases array
  | array items =>
    have same (key : Key) : ((Json.array items).cell a).spread.own.get key =
        ((Json.array items).cell a).own.get key := by
      cases key with
      | name text => simp [Cell.spread, own_cell, Json.entries, get_indexed_name]
      | index n =>
        simp only [Cell.spread, get_indexed, own_cell, Json.entries, List.getElem?_map]
        by_cases short : n < items.length
        · simp [Json.cell, Json.length, short]
        · simp [Json.cell, Json.length, short]
    ext key x
    · rfl
    · rfl
    · exact iff_of_eq (congrArg (x ∈ ·) (same key))

end JsonCell

end N8n.AugmentObject
