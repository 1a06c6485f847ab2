import N8n.FirstPlaces
import N8n.ObjectGraph
import N8n.OptionFold

/-! `removeCircularRefs` changes a graph of objects and arrays in place. What has been seen is never
forgotten, so that an object which is met again counts as circular wherever it stands, unless it is
met there first; and the elements of an array are looked at, but no array within it. -/

namespace N8n.Utils

open ObjectGraph FirstPlaces List Option Relation Prod

variable {O : Type*}

def isTraversableObject (heap : Heap String (Primitive O)) (value : ℕ) : Bool :=
  (heap[value]?).any fun cell => !cell.isArray && !cell.fields.isEmpty

def circularReference : Cell String (Primitive O) :=
  .object (OrderedMap.empty.set "circularReference" (.prim (.boolean true)))

structure RemoveState (P : Type*) where
  heap : Heap String P
  seen : List ℕ

namespace RemoveState

def add {P : Type*} (s : RemoveState P) (obj : ℕ) : RemoveState P :=
  { s with seen := if obj ∈ s.seen then s.seen else s.seen ++ [obj] }

def replace (s : RemoveState (Primitive O)) (a : ℕ) (k : Key String) : RemoveState (Primitive O) :=
  { s with heap := (s.heap ++ [circularReference]).modify a (·.set k (.ref s.heap.length)) }

end RemoveState

section Calls

variable (removeCircularRefs : RemoveState (Primitive O) → ℕ → Option (RemoveState (Primitive O)))

def visitElement (array : ℕ) (s : RemoveState (Primitive O)) (index : ℕ) : Option (RemoveState (Primitive O)) :=
  match read s.heap array (.index index) with
  | some (.ref val) =>
    if val ∈ s.seen then some (s.replace array (.index index))
    else if isTraversableObject s.heap val then removeCircularRefs s val
    else some s
  | _ => some s

def visitEntry (obj : ℕ) (s : RemoveState (Primitive O)) (entry : Key String × Value (Primitive O)) :
    Option (RemoveState (Primitive O)) :=
  match entry.2 with
  | .prim _ => some s
  | .ref value =>
    if isTraversableObject s.heap value then
      if value ∈ s.seen then some (s.replace obj entry.1) else removeCircularRefs s value
    else
      match s.heap[value]? with
      | some (.array elements) => (List.range elements.length).foldlM (visitElement removeCircularRefs value) s
      | _ => some s

end Calls

/-- `none` where it is not at its end with `fuel` nested calls. -/
def removeCircularRefs : ℕ → RemoveState (Primitive O) → ℕ → Option (RemoveState (Primitive O))
  | 0, _, _ => none
  | fuel + 1, s, obj =>
    (s.heap[obj]?).bind fun cell => cell.fields.foldlM (visitEntry (removeCircularRefs fuel) obj) (s.add obj)

/-! ## What is looked at -/

/-- An entry that is looked at: one of the object that is gone through, or of an array in its field. -/
structure Place where
  holder : ℕ
  field : Key String
  cell : ℕ
  entry : Key String

section Places

variable (g : Graph String (Primitive O)) (root : ℕ)

def Traversable (a : ℕ) : Prop := isTraversableObject g.heap a = true

def elementPlaces (x : ℕ) (k : Key String) (array index : ℕ) : List (Place × ℕ) :=
  match read g.heap array (.index index) with
  | some (.ref y) => if isTraversableObject g.heap y then [(⟨x, k, array, .index index⟩, y)] else []
  | _ => []

def entryPlaces (x : ℕ) (entry : Key String × Value (Primitive O)) : List (Place × ℕ) :=
  match entry.2 with
  | .prim _ => []
  | .ref y =>
    if isTraversableObject g.heap y then [(⟨x, entry.1, x, entry.1⟩, y)]
    else
      match g.heap[y]? with
      | some (.array elements) => (List.range elements.length).flatMap (elementPlaces g x entry.1 y)
      | _ => []

/-- The non-empty objects that are looked for when `x` is gone through, in their order. -/
def places (x : ℕ) : List (Place × ℕ) := (g.heap[x]?).elim [] fun cell => cell.fields.flatMap (entryPlaces g x)

def LookedAt (p : Place) : Prop := ∃ x, Leads (places g) (fun _ => False) root x ∧ p ∈ (places g x).map fst

/-- The object that stands in the place is come to there first, in the order of the entries. -/
def ComesFirst (p : Place) : Prop := ∃ y, First (places g) (fun _ => False) root p y

def Cyclic {P : Type*} (heap : Heap String P) (a : ℕ) : Prop := TransGen (Edge heap) a a

/-- On no path to the cell an object or array comes twice. -/
def Clean (a : ℕ) : Prop := ∀ x, g.Reachable x → ReflTransGen (Edge g.heap) x a → ¬Cyclic g.heap x

/-- A reference that is never looked at, or only where its object is come to first. -/
def Unrepeated (a b : ℕ) : Prop :=
  ∃ k, read g.heap a k = some (.ref b) ∧ ∀ p, LookedAt g root p → p.cell = a → p.entry = k → ComesFirst g root p

/-- What stands in a cell that no cycle leads to is come to there first. -/
def CleanFirst : Prop := ∀ p, LookedAt g root p → Clean g p.cell → ComesFirst g root p

/-- Every cycle has a reference that is looked at where its object is not come to first. -/
def CyclesRepeat : Prop :=
  ∀ a, ReflTransGen (Unrepeated g root) root a → ¬TransGen (Unrepeated g root) a a

/-- The call ends, no cycle is left, and what no cycle leads to is as it was. -/
def Removes : Prop :=
  ∃ fuel t, removeCircularRefs fuel ⟨g.heap, []⟩ root = some t ∧
    (∀ x, Reaches t.heap (.ref root) x → ¬Cyclic t.heap x) ∧
    ∀ a, g.Reachable a → Clean g a → t.heap[a]? = g.heap[a]?

end Places

variable {g : Graph String (Primitive O)} {root a b x y : ℕ} {k : Key String} {v : Value (Primitive O)} {p : Place}

theorem Traversable.not_isArray (traversable : Traversable g a) : ¬IsArray g.heap a := by
  intro array
  have inside : a < g.heap.length := array.lt
  have here := getElem?_eq_getElem inside
  have kind : g.heap[a].isArray = true := (isCell_iff here).mp array
  rw [Traversable, isTraversableObject, here, any_some, kind] at traversable
  cases traversable

/-- What a place of an object is. -/
structure IsPlace (g : Graph String (Primitive O)) (x : ℕ) (p : Place) (y : ℕ) : Prop where
  holder : p.holder = x
  cell : p.cell = x ∨ IsArray g.heap p.cell ∧ Edge g.heap x p.cell
  entry : read g.heap p.cell p.entry = some (.ref y)
  target : Traversable g y

theorem elementPlaces_spec {array i : ℕ} {e : Place × ℕ} (member : e ∈ elementPlaces g x k array i) :
    e.1 = ⟨x, k, array, .index i⟩ ∧ read g.heap array (.index i) = some (.ref e.2) ∧ Traversable g e.2 := by
  rw [elementPlaces] at member
  split at member
  · next y element =>
    split_ifs at member with target
    · obtain rfl := mem_singleton.mp member
      exact ⟨rfl, element, target⟩
    · cases member
  · cases member

/-- A place is the field itself, or an element of the array in it. -/
theorem entryPlaces_cases {e : Place × ℕ} (member : e ∈ entryPlaces g x (k, v)) :
    e.1 = ⟨x, k, x, k⟩ ∧ v = .ref e.2 ∧ Traversable g e.2 ∨
      ∃ array i, v = .ref array ∧ IsArray g.heap array ∧ e ∈ elementPlaces g x k array i := by
  cases v with
  | prim value => cases member
  | ref y =>
    rw [entryPlaces] at member
    dsimp only at member
    split_ifs at member with target
    · obtain rfl := mem_singleton.mp member
      exact .inl ⟨rfl, rfl, target⟩
    · split at member
      · next elements here =>
        obtain ⟨i, _, inside⟩ := mem_flatMap.mp member
        exact .inr ⟨y, i, rfl, (isCell_iff here).mpr rfl, inside⟩
      · cases member

theorem entryPlaces_isPlace (field : read g.heap x k = some v) : ∀ e ∈ entryPlaces g x (k, v), IsPlace g x e.1 e.2 := by
  rintro ⟨p, y⟩ member
  obtain ⟨rfl, rfl, target⟩ | ⟨array, i, rfl, kind, inside⟩ := entryPlaces_cases member
  · exact ⟨rfl, .inl rfl, field, target⟩
  · obtain ⟨rfl, element, target⟩ := elementPlaces_spec inside
    exact ⟨rfl, .inr ⟨kind, k, field⟩, element, target⟩

theorem places_eq {cell : Cell String (Primitive O)} (here : g.heap[x]? = some cell) :
    places g x = cell.fields.flatMap (entryPlaces g x) := by
  rw [places, here, elim_some]

theorem places_isPlace {e : Place × ℕ} (member : e ∈ places g x) : IsPlace g x e.1 e.2 := by
  cases here : g.heap[x]? with
  | none =>
    rw [places, here] at member
    cases member
  | some cell =>
    rw [places_eq here, mem_flatMap] at member
    obtain ⟨⟨k, v⟩, inCell, inside⟩ := member
    exact entryPlaces_isPlace (read_eq_some_iff.mpr ⟨cell, here, Cell.mem_fields_iff.mp inCell⟩) e inside

theorem elementPlaces_nodup (x : ℕ) (k : Key String) (array n : ℕ) :
    (((List.range n).flatMap (elementPlaces g x k array)).map fst).Nodup := by
  rw [map_flatMap, nodup_flatMap]
  have only : ∀ i, ∀ p ∈ (elementPlaces g x k array i).map fst, p = ⟨x, k, array, .index i⟩ := by
    intro i p member
    obtain ⟨e, inside, rfl⟩ := List.mem_map.mp member
    exact (elementPlaces_spec inside).1
  refine ⟨fun i _ => ?_, nodup_range.imp fun different p one two => different ?_⟩
  · rw [elementPlaces]
    split
    · split_ifs <;> simp
    · simp
  · have same := (only _ p one).symm.trans (only _ p two)
    simpa using same

theorem entryPlaces_field {e : Key String × Value (Primitive O)} :
    ∀ p ∈ (entryPlaces g x e).map fst, p.field = e.1 := by
  intro p member
  obtain ⟨q, inside, rfl⟩ := List.mem_map.mp member
  obtain ⟨same, _⟩ | ⟨array, i, _, _, element⟩ := entryPlaces_cases inside
  · rw [same]
  · rw [(elementPlaces_spec element).1]

theorem places_nodup (g : Graph String (Primitive O)) (x : ℕ) : ((places g x).map fst).Nodup := by
  cases here : g.heap[x]? with
  | none => simp [places, here]
  | some cell =>
    rw [places_eq here, map_flatMap, nodup_flatMap]
    refine ⟨fun e _ => ?_, (pairwise_map.mp cell.nodup_keys).imp fun different p one two => different ?_⟩
    · rw [entryPlaces]
      split
      · simp
      · split_ifs
        · simp
        · split
          · exact elementPlaces_nodup _ _ _ _
          · simp
    · exact (entryPlaces_field p one).symm.trans (entryPlaces_field p two)

/-! ## What holds while the graph is changed -/

/-- The state as it is told by the source: what has been met, the places that have been looked at, and
those where an object was come to first. -/
structure Tracks (g : Graph String (Primitive O)) (met : ℕ → Prop) (looked first : Place → Prop)
    (s : RemoveState (Primitive O)) : Prop where
  length : g.heap.length ≤ s.heap.length
  shape : ∀ (a : ℕ) (c : Cell String (Primitive O)), g.heap[a]? = some c → ∃ d : Cell String (Primitive O),
    s.heap[a]? = some d ∧ d.isArray = c.isArray ∧ d.fields.map fst = c.fields.map fst
  value : ∀ a k v, read g.heap a k = some v → read s.heap a k = some v ∨
    ∃ b y, read s.heap a k = some (.ref b) ∧ g.heap.length ≤ b ∧ b < s.heap.length ∧ v = .ref y ∧ met y
  fresh : ∀ b, g.heap.length ≤ b → b < s.heap.length → s.heap[b]? = some circularReference
  seen : ∀ a < g.heap.length, a ∈ s.seen ↔ met a
  kept : ∀ a k y, read g.heap a k = some (.ref y) →
    (read s.heap a k = some (.ref y) ↔ ∀ p, looked p → p.cell = a → p.entry = k → first p)
  same : ∀ a < g.heap.length, (∀ p, looked p → p.cell = a → first p) → s.heap[a]? = g.heap[a]?
  traversable : ∀ a < g.heap.length, met a → Traversable g a
  held : ∀ p, looked p → met p.holder ∧ (p.cell = p.holder ∨ IsArray g.heap p.cell)
  looked : ∀ p, first p → looked p

variable {met met' : ℕ → Prop} {looked looked' first first' : Place → Prop} {s t : RemoveState (Primitive O)}

theorem Tracks.congr (tracks : Tracks g met looked first s) (sameMet : ∀ a, met a ↔ met' a)
    (sameLooked : ∀ p, looked p ↔ looked' p) (sameFirst : ∀ p, first p ↔ first' p) : Tracks g met' looked' first' s := by
  obtain rfl : met = met' := funext fun a => propext (sameMet a)
  obtain rfl : looked = looked' := funext fun p => propext (sameLooked p)
  obtain rfl : first = first' := funext fun p => propext (sameFirst p)
  exact tracks

theorem isTraversable_congr {heap heap' : Heap String (Primitive O)} {c d : Cell String (Primitive O)}
    (here : heap[a]? = some c) (there : heap'[a]? = some d) (kind : d.isArray = c.isArray)
    (keys : d.fields.map fst = c.fields.map fst) :
    isTraversableObject heap' a = isTraversableObject heap a := by
  have empty : d.fields.isEmpty = c.fields.isEmpty := by
    have same := congrArg List.isEmpty keys
    simpa using same
  rw [isTraversableObject, isTraversableObject, here, there, any_some, any_some, kind, empty]

theorem Tracks.isTraversable (tracks : Tracks g met looked first s) (inside : a < g.heap.length) :
    isTraversableObject s.heap a = true ↔ Traversable g a := by
  obtain ⟨d, there, kind, keys⟩ := tracks.shape a _ (getElem?_eq_getElem inside)
  rw [isTraversable_congr (getElem?_eq_getElem inside) there kind keys]
  rfl

theorem isTraversable_circularReference {heap : Heap String (Primitive O)}
    (here : heap[a]? = some circularReference) : isTraversableObject heap a = true := by
  rw [isTraversableObject, here]
  rfl

/-! ## A reference is replaced -/

theorem replace_heap (s : RemoveState (Primitive O)) {c : Cell String (Primitive O)} (here : s.heap[a]? = some c) :
    (s.replace a k).heap[a]? = some (c.set k (.ref s.heap.length)) := by
  have inside := (List.getElem?_eq_some_iff.mp here).1
  rw [RemoveState.replace, getElem?_modify_eq, getElem?_append_left inside, here]
  rfl

theorem replace_heap_ne (s : RemoveState (Primitive O)) (different : a ≠ b) :
    (s.replace a k).heap[b]? = (s.heap ++ [circularReference])[b]? :=
  getElem?_modify_ne _ _ different

theorem length_replace (s : RemoveState (Primitive O)) (a : ℕ) (k : Key String) :
    (s.replace a k).heap.length = s.heap.length + 1 := by
  rw [RemoveState.replace, length_modify, length_append, length_singleton]

theorem read_replace (s : RemoveState (Primitive O)) {other : Key String} {old : Value (Primitive O)}
    (inside : b < s.heap.length) (known : read s.heap a k = some old) : read (s.replace a k).heap b other =
      if b = a ∧ other = k then some (.ref s.heap.length) else read s.heap b other := by
  obtain ⟨c, here, found⟩ := read_eq_some_iff.mp known
  by_cases place : b = a
  · subst place
    rw [ObjectGraph.read, replace_heap s here, bind_some]
    by_cases key : other = k
    · subst key
      rw [if_pos ⟨rfl, rfl⟩, c.get_set_self _ found]
    · rw [if_neg (fun both => key both.2), c.get_set_ne _ key ⟨old, found⟩, ObjectGraph.read, here, bind_some]
  · rw [if_neg (fun both => place both.1), ← read_append inside circularReference]
    exact read_congr (replace_heap_ne s (Ne.symm place)) other

theorem circularReference_get (k : Key String) (y : ℕ) :
    (circularReference : Cell String (Primitive O)).get k ≠ some (.ref y) := by
  intro found
  cases k with
  | index i => cases found
  | name text =>
    simp only [circularReference, Cell.get, OrderedMap.get_set, OrderedMap.get_empty] at found
    split_ifs at found
    cases some.inj found

theorem Tracks.read_isSome (tracks : Tracks g met looked first s) (field : read g.heap a k = some v) :
    ∃ w, read s.heap a k = some w := by
  rcases tracks.value a k v field with same | ⟨b, -, there, -⟩
  · exact ⟨v, same⟩
  · exact ⟨_, there⟩

/-- An object that is not met yet is as it was. -/
theorem Tracks.unchanged (tracks : Tracks g met looked first s) (inside : a < g.heap.length) (new : ¬met a)
    (object : ¬IsArray g.heap a) : s.heap[a]? = g.heap[a]? := by
  refine tracks.same a inside fun p known cell => ?_
  obtain ⟨holder, own | array⟩ := tracks.held p known
  · exact absurd (own.symm.trans cell ▸ holder) new
  · exact absurd (cell ▸ array) object

section Look

variable (tracks : Tracks g met looked first s) (place : IsPlace g x p y) (known : met x) (new : ¬looked p)
include tracks place known new

theorem Tracks.held_place : ∀ q, looked q ∨ q = p → met q.holder ∧ (q.cell = q.holder ∨ IsArray g.heap q.cell) := by
  rintro q (old | rfl)
  · exact tracks.held q old
  · exact ⟨place.holder ▸ known, place.cell.imp (fun own => own.trans place.holder.symm) And.left⟩

/-- The place has been looked at, and what stood there is gone already. -/
theorem Tracks.look (gone : read s.heap p.cell p.entry ≠ some (.ref y)) :
    Tracks g met (fun q => looked q ∨ q = p) first s :=
  { tracks with
    kept := fun a k z field => by
      rw [tracks.kept a k z field]
      refine ⟨fun each q known cell entry => ?_, fun each q old => each q (.inl old)⟩
      rcases known with old | rfl
      · exact each q old cell entry
      · subst cell entry
        obtain rfl : y = z := Value.ref.inj (some.inj (place.entry.symm.trans field))
        exact absurd ((tracks.kept _ _ _ field).mpr each) gone
    same := fun a inside each => tracks.same a inside fun q old => each q (.inl old)
    held := tracks.held_place place known new
    looked := fun q known => .inl (tracks.looked q known) }

theorem Tracks.replace (metY : met y) : Tracks g met (fun q => looked q ∨ q = p) first (s.replace p.cell p.entry) := by
  obtain ⟨c, here, found⟩ := read_eq_some_iff.mp place.entry
  obtain ⟨w, old⟩ := tracks.read_isSome place.entry
  have inside : p.cell < g.heap.length := (List.getElem?_eq_some_iff.mp here).1
  have above := tracks.length
  have notFirst : ¬first p := fun known => new (tracks.looked p known)
  have other : ∀ b, b < g.heap.length → p.cell ≠ b → (s.replace p.cell p.entry).heap[b]? = s.heap[b]? :=
    fun b below different => (replace_heap_ne s different).trans (getElem?_append_left (by omega))
  exact
    { tracks with
      length := by
        rw [length_replace]
        omega
      shape := fun b e source => by
        obtain ⟨d, there, kind, keys⟩ := tracks.shape b e source
        by_cases same : p.cell = b
        · subst same
          obtain ⟨d', there', found'⟩ := read_eq_some_iff.mp old
          obtain rfl := some.inj (there.symm.trans there')
          exact ⟨_, replace_heap s there, by rw [Cell.isArray_set, kind], by rw [d.keys_set_known _ found', keys]⟩
        · exact ⟨d, (other b (List.getElem?_eq_some_iff.mp source).1 same).trans there, kind, keys⟩
      value := fun b k v source => by
        obtain ⟨_, source', _⟩ := read_eq_some_iff.mp source
        have below := (List.getElem?_eq_some_iff.mp source').1
        rw [read_replace s (by omega) old, length_replace]
        split_ifs with here
        · obtain ⟨rfl, rfl⟩ := here
          obtain rfl := some.inj (place.entry.symm.trans source)
          exact .inr ⟨_, y, rfl, above, Nat.lt_succ_self _, rfl, metY⟩
        · refine (tracks.value b k v source).imp_right fun ⟨b', z, there, from_, upTo, rest⟩ => ?_
          exact ⟨b', z, there, from_, Nat.lt_succ_of_lt upTo, rest⟩
      fresh := fun b from_ upTo => by
        rw [length_replace] at upTo
        rw [replace_heap_ne s (by omega)]
        rcases Nat.eq_or_lt_of_le (Nat.le_of_lt_succ upTo) with rfl | before
        · exact getElem?_concat_length
        · rw [getElem?_append_left before]
          exact tracks.fresh b from_ before
      kept := fun b k z source => by
        obtain ⟨_, source', _⟩ := read_eq_some_iff.mp source
        have below := (List.getElem?_eq_some_iff.mp source').1
        have target := g.closed b k z source
        rw [read_replace s (by omega) old]
        split_ifs with here
        · obtain ⟨rfl, rfl⟩ := here
          refine ⟨fun same => ?_, fun each => absurd (each p (.inr rfl) rfl rfl) notFirst⟩
          cases same
          omega
        · rw [tracks.kept b k z source]
          refine ⟨fun each q known cell entry => ?_, fun each q old => each q (.inl old)⟩
          rcases known with old | rfl
          · exact each q old cell entry
          · exact absurd ⟨cell.symm, entry.symm⟩ here
      same := fun b below each => by
        have different : p.cell ≠ b := fun same => notFirst (each p (.inr rfl) same)
        exact (other b below different).trans (tracks.same b below fun q old => each q (.inl old))
      held := tracks.held_place place known new
      looked := fun q known => .inl (tracks.looked q known) }

/-- The object of the place was come to there, and what is below it has been gone through. -/
theorem Tracks.found : Tracks g met (fun q => looked q ∨ q = p) (fun q => first q ∨ q = p) s := by
  have each_iff : ∀ test : Place → Prop, (∀ q, looked q ∨ q = p → test q → first q ∨ q = p) ↔
      ∀ q, looked q → test q → first q := by
    intro test
    refine ⟨fun each q old here => (each q (.inl old) here).resolve_right fun same => new (same ▸ old), ?_⟩
    exact fun each q known here => known.imp_left fun old => each q old here
  exact
    { tracks with
      kept := fun a k z field => by
        rw [tracks.kept a k z field]
        simpa only [and_imp] using (each_iff fun q => q.cell = a ∧ q.entry = k).symm
      same := fun a inside each => tracks.same a inside ((each_iff (·.cell = a)).mp each)
      held := tracks.held_place place known new
      looked := fun q known => known.imp_left (tracks.looked q) }

end Look

theorem mem_add : x ∈ (s.add y).seen ↔ x ∈ s.seen ∨ x = y := by
  rw [RemoveState.add]
  dsimp only
  split_ifs with old
  · exact ⟨.inl, fun either => either.elim id fun same => same ▸ old⟩
  · rw [mem_append, mem_singleton]

theorem Tracks.enter (tracks : Tracks g met looked first s) (target : Traversable g y) :
    Tracks g (fun a => met a ∨ a = y) looked first (s.add y) :=
  { tracks with
    value := fun a k v field => (tracks.value a k v field).imp_right
      fun ⟨b, z, there, from_, upTo, same, known⟩ => ⟨b, z, there, from_, upTo, same, .inl known⟩
    seen := fun a inside => mem_add.trans (or_congr_left (tracks.seen a inside))
    traversable := fun a inside known => known.elim (tracks.traversable a inside) fun same => same ▸ target
    held := fun p known => (tracks.held p known).imp_left .inl }

theorem Tracks.add_fresh (tracks : Tracks g met looked first s) (fresh : g.heap.length ≤ y) :
    Tracks g met looked first (s.add y) :=
  { tracks with
    seen := fun a inside => by
      rw [mem_add, or_iff_left (by omega)]
      exact tracks.seen a inside }

/-! ## One object after the other -/

section Steps

variable (g : Graph String (Primitive O)) (met : ℕ → Prop) (list : List (Place × ℕ))

def lookedAfter (looked : Place → Prop) (p : Place) : Prop :=
  looked p ∨ p ∈ list.map fst ∨ ∃ z, ¬met z ∧ After (places g) met list z ∧ p ∈ (places g z).map fst

def firstAfter (first : Place → Prop) (p : Place) : Prop := first p ∨ ∃ y, Finds (places g) met list p y

/-- How many objects and arrays of the source are not seen yet. -/
def unmet (s : RemoveState (Primitive O)) : ℕ := ((List.range g.heap.length).filter (· ∉ s.seen)).length

/-- The step goes on from the places of the list, which are in the object `x`. -/
def Searches (fuel x : ℕ) (step : RemoveState (Primitive O) → Option (RemoveState (Primitive O))) : Prop :=
  ∀ met looked first s, Tracks g met looked first s → met x → unmet g s < fuel → (∀ e ∈ list, ¬looked e.1) →
    ∃ t, step s = some t ∧
      Tracks g (After (places g) met list) (lookedAfter g met list looked) (firstAfter g met list first) t

end Steps

variable {fuel : ℕ} {list more : List (Place × ℕ)}
  {step step' : RemoveState (Primitive O) → Option (RemoveState (Primitive O))}

theorem Tracks.unmet_le (tracks : Tracks g met looked first s) (later : Tracks g met' looked' first' t)
    (grown : ∀ a, met a → met' a) : unmet g t ≤ unmet g s := by
  rw [unmet, unmet, ← countP_eq_length_filter, ← countP_eq_length_filter]
  refine countP_mono_left fun a member new => ?_
  have inside := mem_range.mp member
  rw [decide_eq_true_eq, later.seen a inside] at new
  rw [decide_eq_true_eq, tracks.seen a inside]
  exact fun old => new (grown a old)

theorem lookedAfter_append : lookedAfter g (After (places g) met list) more (lookedAfter g met list looked) p ↔
    lookedAfter g met (list ++ more) looked p := by
  simp only [lookedAfter, map_append, mem_append, after_append]
  constructor
  · rintro ((old | here | ⟨z, new, after, inside⟩) | here | ⟨z, new, after, inside⟩)
    · exact .inl old
    · exact .inr (.inl (.inl here))
    · have both : After (places g) met (list ++ more) z := after_append ▸ .inl after
      exact .inr (.inr ⟨z, new, both, inside⟩)
    · exact .inr (.inl (.inr here))
    · exact .inr (.inr ⟨z, fun old => new (.inl old), after, inside⟩)
  · rintro (old | (here | here) | ⟨z, new, after, inside⟩)
    · exact .inl (.inl old)
    · exact .inl (.inr (.inl here))
    · exact .inr (.inl here)
    · by_cases before : After (places g) met list z
      · exact .inl (.inr (.inr ⟨z, new, before, inside⟩))
      · exact .inr (.inr ⟨z, before, after, inside⟩)

theorem firstAfter_append : firstAfter g (After (places g) met list) more (firstAfter g met list first) p ↔
    firstAfter g met (list ++ more) first p := by
  simp only [firstAfter, finds_append, exists_or]
  tauto

theorem searches_nil (fuel x : ℕ) (idle : ∀ met looked first s, Tracks g met looked first s → step s = some s) :
    Searches g [] fuel x step := by
  intro met looked first s tracks _ _ _
  refine ⟨s, idle met looked first s tracks, tracks.congr (fun a => ?_) (fun p => ?_) fun p => ?_⟩
  · rw [after_nil]
  · rw [lookedAfter, after_nil]
    simp +contextual
  · simp [firstAfter, not_finds_nil]

theorem Searches.append (one : Searches g list fuel x step) (two : Searches g more fuel x step')
    (held : ∀ e ∈ more, e.1.holder = x) (apart : ∀ e ∈ more, e.1 ∉ list.map fst) :
    Searches g (list ++ more) fuel x fun s => (step s).bind step' := by
  intro met looked first s tracks known enough new
  obtain ⟨t, done, further⟩ := one met looked first s tracks known enough fun e member =>
    new e (mem_append_left _ member)
  have fewer := tracks.unmet_le further fun a => .inl
  obtain ⟨u, done', last⟩ := two _ _ _ t further (.inl known) (Nat.lt_of_le_of_lt fewer enough) fun e member => by
    rintro (old | here | ⟨z, unmetZ, _, inside⟩)
    · exact new e (mem_append_right _ member) old
    · exact apart e member here
    · obtain ⟨e', inside, same⟩ := List.mem_map.mp inside
      have holder := (places_isPlace inside).holder
      rw [same, held e member] at holder
      exact unmetZ (holder ▸ known)
  refine ⟨u, bind_eq_some_iff.mpr ⟨t, done, done'⟩,
    last.congr (fun a => ?_) (fun p => lookedAfter_append) fun p => firstAfter_append⟩
  rw [after_append]

theorem searches_foldlM {ι : Type*} {step : RemoveState (Primitive O) → ι → Option (RemoveState (Primitive O))}
    {parts : List ι} {own : ι → List (Place × ℕ)} (each : ∀ i ∈ parts, Searches g (own i) fuel x (step · i))
    (held : ∀ i ∈ parts, ∀ e ∈ own i, e.1.holder = x) (nodup : ((parts.flatMap own).map fst).Nodup) :
    Searches g (parts.flatMap own) fuel x fun s => parts.foldlM step s := by
  induction parts with
  | nil => exact searches_nil fuel x fun _ _ _ _ _ => rfl
  | cons i rest ih =>
    rw [flatMap_cons, map_append, nodup_append] at nodup
    rw [forall_mem_cons] at each held
    have later := ih each.2 held.2 nodup.2.1
    have both := each.1.append later (fun e member => ?_) fun e member inside => ?_
    · rw [flatMap_cons]
      exact both
    · obtain ⟨j, listed, inside⟩ := mem_flatMap.mp member
      exact held.2 j listed e inside
    · exact nodup.2.2 e.1 inside e.1 (mem_map_of_mem member) rfl

structure Calls (g : Graph String (Primitive O)) (fuel : ℕ)
    (call : RemoveState (Primitive O) → ℕ → Option (RemoveState (Primitive O))) : Prop where
  visit : ∀ met looked first s y, Tracks g met looked first s → ¬met y → y < g.heap.length → Traversable g y →
    unmet g s < fuel → ∃ t, call s y = some t ∧ Tracks g (fun a => met a ∨ Leads (places g) met y a)
      (fun p => looked p ∨ ∃ z, Leads (places g) met y z ∧ p ∈ (places g z).map fst)
      (fun p => first p ∨ ∃ z, First (places g) met y p z) t
  fresh : ∀ (s : RemoveState (Primitive O)) (y : ℕ), 0 < fuel → s.heap[y]? = some circularReference →
    call s y = some (s.add y)

variable {call : RemoveState (Primitive O) → ℕ → Option (RemoveState (Primitive O))}

/-- What stands in the place has been met, so that the place is looked at only. -/
theorem Tracks.met_again (known : met y) (tracks : Tracks g met (fun q => looked q ∨ q = p) first s) :
    Tracks g (After (places g) met [(p, y)]) (lookedAfter g met [(p, y)] looked) (firstAfter g met [(p, y)] first) s := by
  have noLeads : ∀ z, ¬Leads (places g) met y z := fun z leads => leads.start known
  have noFirst : ∀ q z, ¬First (places g) met y q z := fun q z first => noLeads z first.leads
  refine tracks.congr (fun a => ?_) (fun q => ?_) fun q => ?_
  · simp [after_singleton, noLeads]
  · simp [lookedAfter, after_singleton, noLeads]
    tauto
  · have unfound : ∀ z, ¬(q = p ∧ z = y ∧ ¬met z) := fun z here => here.2.2 (here.2.1 ▸ known)
    simp [firstAfter, finds_singleton, noFirst, unfound]

theorem Calls.visit_place (calls : Calls g fuel call) (tracks : Tracks g met looked first s) (place : IsPlace g x p y)
    (known : met x) (new : ¬looked p) (unmetY : ¬met y) (enough : unmet g s < fuel) : ∃ t, call s y = some t ∧
      Tracks g (After (places g) met [(p, y)]) (lookedAfter g met [(p, y)] looked) (firstAfter g met [(p, y)] first) t := by
  obtain ⟨t, done, further⟩ :=
    calls.visit met looked first s y tracks unmetY (g.closed _ _ y place.entry) place.target enough
  have unlooked : ¬(looked p ∨ ∃ z, Leads (places g) met y z ∧ p ∈ (places g z).map fst) := by
    rintro (old | ⟨z, leads, inside⟩)
    · exact new old
    · obtain ⟨e, inside, same⟩ := List.mem_map.mp inside
      have holder := (places_isPlace inside).holder
      rw [same, place.holder] at holder
      exact leads.stop (holder ▸ known)
  refine ⟨t, done, (further.found place (.inl known) unlooked).congr (fun a => ?_) (fun q => ?_) fun q => ?_⟩
  · rw [after_singleton]
  · simp only [lookedAfter, after_singleton, map_cons, map_nil, mem_singleton]
    constructor
    · rintro ((old | ⟨z, leads, inside⟩) | here)
      · exact .inl old
      · exact .inr (.inr ⟨z, leads.stop, .inr leads, inside⟩)
      · exact .inr (.inl here)
    · rintro (old | here | ⟨z, unmetZ, old | leads, inside⟩)
      · exact .inl (.inl old)
      · exact .inr here
      · exact absurd old unmetZ
      · exact .inl (.inr ⟨z, leads, inside⟩)
  · simp only [firstAfter, finds_singleton]
    constructor
    · rintro ((old | ⟨z, firstZ⟩) | rfl)
      · exact .inl old
      · exact .inr ⟨z, .inr firstZ⟩
      · exact .inr ⟨y, .inl ⟨rfl, rfl, unmetY⟩⟩
    · rintro (old | ⟨z, ⟨rfl, _⟩ | firstZ⟩)
      · exact .inl (.inl old)
      · exact .inr rfl
      · exact .inl (.inr ⟨z, firstZ⟩)

section Visits

variable (calls : Calls g fuel call)
include calls

theorem visitElement_searches {array i : ℕ} (field : read g.heap x k = some (.ref array)) (kind : IsArray g.heap array)
    (element : read g.heap array (.index i) = some v) :
    Searches g (elementPlaces g x k array i) fuel x fun s => visitElement call array s i := by
  rw [elementPlaces, element]
  cases v with
  | prim value =>
    refine searches_nil fuel x fun met looked first s tracks => ?_
    rcases tracks.value array (.index i) _ element with same | ⟨_, _, _, _, _, other, _⟩
    · rw [visitElement, same]
    · cases other
  | ref y =>
    have below := g.closed array (.index i) y element
    dsimp only
    by_cases target : isTraversableObject g.heap y = true
    · have isPlace : IsPlace g x ⟨x, k, array, .index i⟩ y := ⟨rfl, .inr ⟨kind, k, field⟩, element, target⟩
      rw [if_pos target]
      intro met looked first s tracks known enough new
      have new := new _ (mem_singleton_self _)
      dsimp only
      -- the element is the one of the source, or a new object since that had been met
      rcases tracks.value array (.index i) _ element with same | ⟨b, z, there, from_, upTo, sameTarget, metZ⟩
      · rw [visitElement, same]
        dsimp only
        by_cases metY : met y
        · rw [if_pos ((tracks.seen y below).mpr metY)]
          exact ⟨_, rfl, (tracks.replace isPlace known new metY).met_again metY⟩
        · rw [if_neg fun seen => metY ((tracks.seen y below).mp seen), if_pos ((tracks.isTraversable below).mpr target)]
          exact calls.visit_place tracks isPlace known new metY enough
      · obtain rfl := Value.ref.inj sameTarget
        rw [visitElement, there]
        dsimp only
        by_cases again : b ∈ s.seen
        · rw [if_pos again]
          exact ⟨_, rfl, (tracks.replace isPlace known new metZ).met_again metZ⟩
        · have new_object := tracks.fresh b from_ upTo
          have gone : read s.heap array (.index i) ≠ some (.ref y) := by
            rw [there]
            intro same
            cases same
            omega
          rw [if_neg again, if_pos (isTraversable_circularReference new_object), calls.fresh s b (by omega) new_object]
          exact ⟨_, rfl, ((tracks.look isPlace known new gone).add_fresh from_).met_again metZ⟩
    · rw [if_neg target]
      refine searches_nil fuel x fun met looked first s tracks => ?_
      rcases tracks.value array (.index i) _ element with same | ⟨_, z, _, _, _, sameTarget, metZ⟩
      · rw [visitElement, same]
        dsimp only
        rw [if_neg fun seen => target (tracks.traversable y below ((tracks.seen y below).mp seen)),
          if_neg fun yes => target ((tracks.isTraversable below).mp yes)]
      · obtain rfl := Value.ref.inj sameTarget
        exact absurd (tracks.traversable y below metZ) target

theorem visitElements_searches {array : ℕ} {elements : List (Value (Primitive O))}
    (field : read g.heap x k = some (.ref array)) (source : g.heap[array]? = some (.array elements)) :
    Searches g ((List.range elements.length).flatMap (elementPlaces g x k array)) fuel x
      fun s => (List.range elements.length).foldlM (visitElement call array) s := by
  have kind : IsArray g.heap array := (isCell_iff source).mpr rfl
  refine searches_foldlM (fun i member => ?_) (fun i _ e inside => congrArg Place.holder (elementPlaces_spec inside).1)
    (elementPlaces_nodup x k array _)
  have element : read g.heap array (.index i) = elements[i]? := by
    rw [ObjectGraph.read, source]
    rfl
  exact visitElement_searches calls field kind (element.trans (getElem?_eq_getElem (mem_range.mp member)))

theorem visitEntry_searches (field : read g.heap x k = some v) :
    Searches g (entryPlaces g x (k, v)) fuel x fun s => visitEntry call x s (k, v) := by
  cases v with
  | prim value => exact searches_nil fuel x fun _ _ _ _ _ => rfl
  | ref y =>
    have below := g.closed x k y field
    by_cases target : isTraversableObject g.heap y = true
    · have isPlace : IsPlace g x ⟨x, k, x, k⟩ y := ⟨rfl, .inl rfl, field, target⟩
      rw [entryPlaces]
      dsimp only
      rw [if_pos target]
      intro met looked first s tracks known enough new
      have new := new _ (mem_singleton_self _)
      dsimp only [visitEntry]
      rw [if_pos ((tracks.isTraversable below).mpr target)]
      by_cases metY : met y
      · rw [if_pos ((tracks.seen y below).mpr metY)]
        exact ⟨_, rfl, (tracks.replace isPlace known new metY).met_again metY⟩
      · rw [if_neg fun seen => metY ((tracks.seen y below).mp seen)]
        exact calls.visit_place tracks isPlace known new metY enough
    · have source := getElem?_eq_getElem below
      have skip : ∀ {met looked first s}, Tracks g met looked first s → ¬isTraversableObject s.heap y = true :=
        fun tracks yes => target ((tracks.isTraversable below).mp yes)
      rw [entryPlaces]
      dsimp only
      rw [if_neg target, source]
      cases cell : g.heap[y] with
      | object entries =>
        refine searches_nil fuel x fun met looked first s tracks => ?_
        obtain ⟨d, there, kind, _⟩ := tracks.shape y _ source
        rw [cell] at kind
        rw [visitEntry]
        dsimp only
        rw [if_neg (skip tracks), there]
        cases d with
        | array elements => cases kind
        | object entries => rfl
      | array elements =>
        intro met looked first s tracks known enough new
        obtain ⟨d, there, kind, keys⟩ := tracks.shape y _ source
        rw [cell] at kind keys source
        cases d with
        | object entries => cases kind
        | array elements' =>
          have length : elements'.length = elements.length := by
            have same := congrArg List.length keys
            rw [Cell.keys_array, Cell.keys_array] at same
            simpa using same
          dsimp only [visitEntry]
          rw [if_neg (skip tracks), there]
          dsimp only
          rw [length]
          exact visitElements_searches calls field source met looked first s tracks known enough new

theorem visitEntries_searches {cell : Cell String (Primitive O)} (source : g.heap[x]? = some cell) :
    Searches g (places g x) fuel x fun s => cell.fields.foldlM (visitEntry call x) s := by
  have field : ∀ e ∈ cell.fields, read g.heap x e.1 = some e.2 := fun e member =>
    read_eq_some_iff.mpr ⟨cell, source, Cell.mem_fields_iff.mp member⟩
  have nodup := places_nodup g x
  rw [places_eq source] at nodup ⊢
  exact searches_foldlM (fun e member => visitEntry_searches calls (field e member))
    (fun e member p inside => (entryPlaces_isPlace (field e member) p inside).holder) nodup

end Visits

theorem unmet_add_lt (below : y < g.heap.length) (new : y ∉ s.seen) : unmet g (s.add y) < unmet g s := by
  rw [unmet, unmet, show (s.add y).seen = s.seen ++ [y] from if_neg new]
  exact length_unmet_lt (mem_range.mpr below) new

/-- To go through an object is to note it and to go on from its places. -/
theorem Tracks.gone_through (new : ¬met y)
    (tracks : Tracks g (After (places g) (fun a => met a ∨ a = y) (places g y))
      (lookedAfter g (fun a => met a ∨ a = y) (places g y) looked)
      (firstAfter g (fun a => met a ∨ a = y) (places g y) first) s) :
    Tracks g (fun a => met a ∨ Leads (places g) met y a)
      (fun p => looked p ∨ ∃ z, Leads (places g) met y z ∧ p ∈ (places g z).map fst)
      (fun p => first p ∨ ∃ z, First (places g) met y p z) s := by
  have after : (fun a => met a ∨ Leads (places g) met y a) = After (places g) (fun a => met a ∨ a = y) (places g y) :=
    leads_iff_after new
  rw [← after] at tracks
  refine tracks.congr (fun a => Iff.rfl) (fun p => ?_) fun p => ?_
  · rw [lookedAfter, ← after]
    constructor
    · rintro (old | here | ⟨z, unmetZ, old | leads, inside⟩)
      · exact .inl old
      · exact .inr ⟨y, .refl new, here⟩
      · exact absurd (.inl old) unmetZ
      · exact .inr ⟨z, leads, inside⟩
    · rintro (old | ⟨z, leads, inside⟩)
      · exact .inl old
      · by_cases same : z = y
        · exact .inr (.inl (same ▸ inside))
        · exact .inr (.inr ⟨z, not_or.mpr ⟨leads.stop, same⟩, .inr leads, inside⟩)
  · simp only [firstAfter, first_iff, new, not_false_eq_true, true_and]

theorem calls_removeCircularRefs (g : Graph String (Primitive O)) (fuel : ℕ) :
    Calls g fuel (removeCircularRefs fuel) := by
  induction fuel with
  | zero => exact ⟨fun _ _ _ _ _ _ _ _ _ enough => absurd enough (Nat.not_lt_zero _), fun _ _ enough =>
      absurd enough (Nat.not_lt_zero _)⟩
  | succ fuel ih =>
    refine ⟨fun met looked first s y tracks new below target enough => ?_, fun s y _ here => ?_⟩
    · have source := getElem?_eq_getElem below
      have unseen : y ∉ s.seen := fun seen => new ((tracks.seen y below).mp seen)
      have fewer := Nat.lt_of_lt_of_le (unmet_add_lt below unseen) (Nat.le_of_lt_succ enough)
      have unlooked : ∀ e ∈ places g y, ¬looked e.1 := fun e member known => by
        have holder := (tracks.held e.1 known).1
        rw [(places_isPlace member).holder] at holder
        exact new holder
      obtain ⟨t, done, further⟩ :=
        visitEntries_searches ih source _ looked first _ (tracks.enter target) (.inr rfl) fewer unlooked
      refine ⟨t, ?_, further.gone_through new⟩
      rw [removeCircularRefs, (tracks.unchanged below new target.not_isArray).trans source]
      exact done
    · rw [removeCircularRefs, here]
      rfl

/-! ## The whole graph -/

theorem tracks_root (g : Graph String (Primitive O)) :
    Tracks g (fun _ => False) (fun _ => False) (fun _ => False) ⟨g.heap, []⟩ where
  length := Nat.le_refl _
  shape _ c here := ⟨c, here, rfl, rfl⟩
  value _ _ _ field := .inl field
  fresh _ from_ upTo := absurd upTo (Nat.not_lt.mpr from_)
  seen _ _ := by simp
  kept _ _ _ field := by simp [field]
  same _ _ _ := rfl
  traversable _ _ known := known.elim
  held _ known := known.elim
  looked _ known := known

theorem removeCircularRefs_tracks (rooted : g.root = .ref root) (traversable : Traversable g root) :
    ∃ fuel t, removeCircularRefs fuel ⟨g.heap, []⟩ root = some t ∧
      Tracks g (Leads (places g) (fun _ => False) root) (LookedAt g root) (ComesFirst g root) t := by
  obtain ⟨t, done, tracks⟩ := (calls_removeCircularRefs g (unmet g ⟨g.heap, []⟩ + 1)).visit _ _ _ _ root (tracks_root g)
    not_false (g.rooted root rooted) traversable (Nat.lt_succ_self _)
  exact ⟨_, t, done, tracks.congr (fun a => Iff.of_eq (false_or _)) (fun p => Iff.of_eq (false_or _))
    fun p => Iff.of_eq (false_or _)⟩

/-! ## More nested calls give the same -/

section

variable {call' : RemoveState (Primitive O) → ℕ → Option (RemoveState (Primitive O))}
  (further : ∀ s a t, call s a = some t → call' s a = some t)
include further

theorem visitElement_mono (done : visitElement call a s i = some t) : visitElement call' a s i = some t := by
  rw [visitElement] at done ⊢
  split at done
  · split_ifs at done ⊢
    · exact done
    · exact further _ _ _ done
    · exact done
  · exact done

theorem visitEntry_mono (e : Key String × Value (Primitive O)) (done : visitEntry call x s e = some t) :
    visitEntry call' x s e = some t := by
  rw [visitEntry] at done ⊢
  split at done
  · exact done
  · split_ifs at done ⊢
    · exact done
    · exact further _ _ _ done
    · split at done
      · exact foldlM_mono (fun i _ _ => visitElement_mono further) done
      · exact done

end

theorem removeCircularRefs_mono {later : ℕ} (upTo : fuel ≤ later) (done : removeCircularRefs fuel s x = some t) :
    removeCircularRefs later s x = some t := by
  induction fuel generalizing later s x t with
  | zero => cases done
  | succ fuel ih =>
    obtain ⟨later, rfl⟩ := Nat.exists_eq_add_one_of_ne_zero (Nat.ne_zero_of_lt upTo)
    obtain ⟨cell, here, folded⟩ := bind_eq_some_iff.mp done
    refine bind_eq_some_iff.mpr ⟨cell, here, foldlM_mono (fun e _ _ => visitEntry_mono (fun s a t => ?_) e) folded⟩
    exact ih (Nat.le_of_succ_le_succ upTo)

/-- The result is one, however many nested calls there may be. -/
theorem removeCircularRefs_unique {fuel' : ℕ} {t' : RemoveState (Primitive O)}
    (one : removeCircularRefs fuel s x = some t) (two : removeCircularRefs fuel' s x = some t') : t = t' :=
  some.inj ((removeCircularRefs_mono (Nat.le_max_left fuel fuel') one).symm.trans
    (removeCircularRefs_mono (Nat.le_max_right fuel fuel') two))

/-! ## What is left -/

theorem leads_reachable (rooted : g.root = .ref root) (leads : Leads (places g) met root x) : g.Reachable x := by
  refine ⟨root, rooted, ?_⟩
  clear rooted
  induction leads with
  | refl => exact .refl
  | head _ place _ ih =>
    have isPlace := places_isPlace place
    rcases isPlace.cell with own | ⟨_, field⟩
    · exact .head ⟨_, own ▸ isPlace.entry⟩ ih
    · exact .head field (.head ⟨_, isPlace.entry⟩ ih)

theorem LookedAt.isPlace (looked : LookedAt g root p) (rooted : g.root = .ref root) :
    g.Reachable p.cell ∧ ∃ y, read g.heap p.cell p.entry = some (.ref y) := by
  obtain ⟨x, leads, member⟩ := looked
  obtain ⟨e, inside, rfl⟩ := List.mem_map.mp member
  have isPlace := places_isPlace inside
  obtain ⟨first, same, path⟩ := leads_reachable rooted leads
  refine ⟨⟨first, same, ?_⟩, e.2, isPlace.entry⟩
  rcases isPlace.cell with own | ⟨_, field⟩
  · exact own ▸ path
  · exact path.tail field

theorem Unrepeated.lt (edge : Unrepeated g root a b) : b < g.heap.length := by
  obtain ⟨k, source, _⟩ := edge
  exact g.closed a k b source

section Left

variable (tracks : Tracks g met (LookedAt g root) (ComesFirst g root) t)
include tracks

theorem Tracks.field_source (field : read t.heap a k = some (.ref b)) :
    a < g.heap.length ∧ ∃ v, read g.heap a k = some v := by
  obtain ⟨d, there, found⟩ := read_eq_some_iff.mp field
  have inside : a < g.heap.length := by
    by_contra outside
    have fresh := tracks.fresh a (by omega) (List.getElem?_eq_some_iff.mp there).1
    exact circularReference_get k b (some.inj (there.symm.trans fresh) ▸ found)
  have source := getElem?_eq_getElem inside
  obtain ⟨d', there', _, keys⟩ := tracks.shape a _ source
  obtain rfl := some.inj (there.symm.trans there')
  have member : k ∈ (g.heap[a]).fields.map fst :=
    keys ▸ List.mem_map.mpr ⟨_, Cell.mem_fields_iff.mpr found, rfl⟩
  obtain ⟨⟨_, v⟩, inCell, rfl⟩ := List.mem_map.mp member
  exact ⟨inside, v, read_eq_some_iff.mpr ⟨_, source, Cell.mem_fields_iff.mp inCell⟩⟩

theorem Tracks.read_source (below : b < g.heap.length) (field : read t.heap a k = some (.ref b)) :
    read g.heap a k = some (.ref b) := by
  obtain ⟨-, v, known⟩ := tracks.field_source field
  rcases tracks.value a k v known with same | ⟨b', y, other, from_, -⟩
  · exact known.trans (same.symm.trans field)
  · cases other.symm.trans field
    omega

/-- The references that are left are those which nowhere are looked at again. -/
theorem Tracks.edge_iff (below : b < g.heap.length) : Edge t.heap a b ↔ Unrepeated g root a b := by
  constructor
  · rintro ⟨k, field⟩
    have source := tracks.read_source below field
    exact ⟨k, source, (tracks.kept a k b source).mp field⟩
  · rintro ⟨k, source, each⟩
    exact ⟨k, (tracks.kept a k b source).mpr each⟩

theorem Tracks.path_iff (below : b < g.heap.length) :
    ReflTransGen (Edge t.heap) a b ↔ ReflTransGen (Unrepeated g root) a b := by
  constructor <;> intro path
  · induction path with
    | refl => exact .refl
    | tail _ edge ih =>
      obtain ⟨k, field⟩ := edge
      exact (ih (tracks.field_source field).1).tail ((tracks.edge_iff below).mp ⟨k, field⟩)
  · exact Relation.ReflTransGen.mono (fun a b edge => (tracks.edge_iff edge.lt).mpr edge) _ _ path

theorem Tracks.cyclic_iff : Cyclic t.heap a ↔ TransGen (Unrepeated g root) a a := by
  constructor <;> intro cyclic
  · obtain ⟨b, edge, path⟩ := Relation.TransGen.head'_iff.mp cyclic
    obtain ⟨_, ⟨k, field⟩, _⟩ := Relation.TransGen.head'_iff.mp (Relation.TransGen.tail' path edge)
    obtain ⟨k', field'⟩ := edge
    have around := (tracks.path_iff (tracks.field_source field').1).mp path
    exact .head' ((tracks.edge_iff (tracks.field_source field).1).mp ⟨k', field'⟩) around
  · exact Relation.TransGen.mono (fun a b edge => (tracks.edge_iff edge.lt).mpr edge) _ _ cyclic

theorem Tracks.acyclic_iff :
    (∀ x, Reaches t.heap (.ref root) x → ¬Cyclic t.heap x) ↔ CyclesRepeat g root := by
  constructor
  · intro acyclic a path cyclic
    obtain ⟨_, _, last⟩ := Relation.TransGen.tail'_iff.mp cyclic
    have inside := last.lt
    exact acyclic a ⟨root, rfl, (tracks.path_iff inside).mpr path⟩ (tracks.cyclic_iff.mpr cyclic)
  · rintro repeated x ⟨first, same, path⟩ cyclic
    obtain rfl := Value.ref.inj same
    have inside : x < g.heap.length := by
      obtain ⟨_, ⟨k, field⟩, _⟩ := Relation.TransGen.head'_iff.mp cyclic
      exact (tracks.field_source field).1
    exact repeated x ((tracks.path_iff inside).mp path) (tracks.cyclic_iff.mp cyclic)

theorem Tracks.unchanged_iff (rooted : g.root = .ref root) :
    (∀ a, g.Reachable a → Clean g a → t.heap[a]? = g.heap[a]?) ↔ CleanFirst g root := by
  constructor
  · intro same p looked clean
    obtain ⟨reachable, y, source⟩ := looked.isPlace rooted
    have field := (read_congr (same p.cell reachable clean) p.entry).trans source
    exact (tracks.kept _ _ _ source).mp field p looked rfl rfl
  · exact fun first a reachable clean => tracks.same a reachable.lt fun p looked cell => first p looked (cell ▸ clean)

end Left

theorem traversable_of_read (object : ¬IsArray g.heap a) (field : read g.heap a k = some v) : Traversable g a := by
  obtain ⟨cell, here, found⟩ := read_eq_some_iff.mp field
  have kind : cell.isArray = false := by
    rw [← Bool.not_eq_true]
    exact fun array => object ((isCell_iff here).mpr array)
  have entries : cell.fields.isEmpty = false := by
    rw [isEmpty_eq_false_iff]
    exact ne_nil_of_mem (Cell.mem_fields_iff.mpr found)
  rw [Traversable, isTraversableObject, here, any_some, kind, entries]
  rfl

/-- Just where what stands in clean cells is come to there first, and every cycle has a reference that is
looked at again. -/
theorem removes_iff (root : ℕ) (g : Graph String (Primitive O)) (rooted : g.root = .ref root)
    (object : ¬IsArray g.heap root) : Removes g root ↔ CleanFirst g root ∧ CyclesRepeat g root := by
  by_cases traversable : Traversable g root
  · obtain ⟨fuel, t, done, tracks⟩ := removeCircularRefs_tracks rooted traversable
    rw [← tracks.unchanged_iff rooted, ← tracks.acyclic_iff]
    constructor
    · rintro ⟨fuel', t', done', acyclic, unchanged⟩
      obtain rfl := removeCircularRefs_unique done done'
      exact ⟨unchanged, acyclic⟩
    · exact fun ⟨unchanged, acyclic⟩ => ⟨fuel, t, done, acyclic, unchanged⟩
  · have below := g.rooted root rooted
    have source := getElem?_eq_getElem below
    have nothing : ∀ k v, read g.heap root k ≠ some v := fun k v field =>
      traversable (traversable_of_read object field)
    have none : (g.heap[root]).fields = [] := eq_nil_iff_forall_not_mem.mpr fun ⟨k, v⟩ member =>
      nothing k v (read_eq_some_iff.mpr ⟨_, source, Cell.mem_fields_iff.mp member⟩)
    -- an object without entries: nothing is looked at, and nothing can be come to
    refine ⟨fun _ => ⟨?_, ?_⟩, fun _ => ⟨1, ⟨g.heap, [root]⟩, ?_, fun x ⟨first, same, path⟩ cyclic => ?_, fun _ _ _ => rfl⟩⟩
    · rintro p ⟨x, leads, member⟩ _
      have noPlaces : places g root = [] := by rw [places_eq source, none, flatMap_nil]
      cases leads with
      | refl =>
        rw [noPlaces] at member
        cases member
      | head _ place =>
        rw [noPlaces] at place
        cases place
    · intro a path cyclic
      obtain ⟨b, ⟨k, field, _⟩, _⟩ := Relation.TransGen.head'_iff.mp (Relation.TransGen.trans_right path cyclic)
      exact nothing k _ field
    · rw [removeCircularRefs, source, bind_some, none]
      rfl
    · obtain rfl := Value.ref.inj same
      obtain ⟨b, ⟨k, field⟩, -⟩ := Relation.TransGen.head'_iff.mp (Relation.TransGen.trans_right path cyclic)
      exact nothing k _ field

/-- The list stands in the object it lists, and beside it. -/
def listHeld : Graph String (Primitive Unit) where
  heap := [.object ((OrderedMap.empty.set "x" (.ref 1)).set "l" (.ref 2)),
    .object (OrderedMap.empty.set "l" (.ref 2)), .array [.ref 1]]
  root := .ref 0
  rooted a same := by
    cases same
    exact Nat.zero_lt_succ 2
  closed a k b field := (by decide : ∀ r ∈ references _, r.2.2 < 3) _ (mem_references_iff.mpr field)

theorem places_listHeld : places listHeld 0 = [(⟨0, .name "x", 0, .name "x"⟩, 1), (⟨0, .name "l", 2, .index 0⟩, 1)] ∧
    places listHeld 1 = [(⟨1, .name "l", 2, .index 0⟩, 1)] := ⟨rfl, rfl⟩

theorem leads_listHeld (leads : Leads (places listHeld) met x y) (here : x = 0 ∨ x = 1) : y = 0 ∨ y = 1 := by
  induction leads with
  | refl => exact here
  | head _ place _ ih =>
    refine ih (.inr ?_)
    rcases here with rfl | rfl
    · rw [places_listHeld.1, mem_cons, mem_singleton] at place
      rcases place with same | same <;> exact congrArg snd same
    · rw [places_listHeld.2] at place
      exact congrArg snd (mem_singleton.mp place)

theorem lookedAt_listHeld (looked : LookedAt listHeld 0 p) : p = ⟨0, .name "x", 0, .name "x"⟩ ∨ p.cell = 2 := by
  obtain ⟨x, leads, member⟩ := looked
  rcases leads_listHeld leads (.inl rfl) with rfl | rfl
  · rw [places_listHeld.1, map_cons, mem_cons] at member
    exact member.imp_right fun same => congrArg Place.cell (mem_singleton.mp same)
  · rw [places_listHeld.2] at member
    exact .inr (congrArg Place.cell (mem_singleton.mp member))

/-- The field is looked at before the list is, and below it the element of the list. -/
theorem comesFirst_listHeld : ComesFirst listHeld 0 ⟨0, .name "x", 0, .name "x"⟩ ∧
    ¬ComesFirst listHeld 0 ⟨0, .name "l", 2, .index 0⟩ := by
  constructor
  · refine ⟨1, first_iff.mpr ⟨not_false, ?_⟩⟩
    rw [places_listHeld.1]
    exact ⟨[], _, _, _, rfl, by simp, .inl ⟨rfl, rfl, by decide⟩⟩
  · rintro ⟨y, first⟩
    obtain ⟨-, finds⟩ := first_iff.mp first
    have inner : Leads (places listHeld) (fun a => False ∨ a = 0) 1 1 := .refl (by decide)
    rw [places_listHeld.1, ← singleton_append, finds_append, finds_singleton, finds_singleton, after_singleton] at finds
    rcases finds with (⟨same, -⟩ | below) | ⟨-, rfl, new⟩ | again
    · simp at same
    · obtain ⟨-, element⟩ := first_iff.mp below
      rw [places_listHeld.2, finds_singleton] at element
      rcases element with ⟨same, -⟩ | again
      · simp at same
      · exact again.leads.start (.inr rfl)
    · exact new (.inr inner)
    · exact again.leads.start (.inr inner)

theorem listHeld_removed : Removes listHeld 0 := by
  have cyclic : Cyclic listHeld.heap 2 := .head ⟨.index 0, rfl⟩ (.single ⟨.name "l", rfl⟩)
  have upward : ∀ {a b}, Unrepeated listHeld 0 a b → a < b := by
    rintro a b ⟨k, field, first⟩
    have edge : a < b ∨ a = 2 ∧ k = .index 0 :=
      (by decide : ∀ r ∈ references listHeld.heap, r.1 < r.2.2 ∨ r.1 = 2 ∧ r.2.1 = .index 0) _ (mem_references_iff.mpr field)
    refine edge.resolve_right ?_
    rintro ⟨rfl, rfl⟩
    exact comesFirst_listHeld.2 (first ⟨0, .name "l", 2, .index 0⟩ ⟨0, .refl not_false, by simp [places_listHeld.1]⟩ rfl rfl)
  refine (removes_iff 0 listHeld rfl ?_).mpr ⟨fun p looked clean => ?_, fun a _ cycle => ?_⟩
  · exact fun array => by cases (isCell_iff (show listHeld.heap[0]? = some _ from rfl)).mp array
  · rcases lookedAt_listHeld looked with rfl | cell
    · exact comesFirst_listHeld.1
    · exact absurd cyclic (clean 2 ⟨0, rfl, .single ⟨.name "l", rfl⟩⟩ (cell ▸ .refl))
  · have further : ∀ b, TransGen (Unrepeated listHeld 0) a b → a < b := fun b path => by
      induction path with
      | single edge => exact upward edge
      | tail _ edge ih => exact Nat.lt_trans ih (upward edge)
    exact Nat.lt_irrefl a (further a cycle)

def sharedField : Graph String (Primitive Unit) where
  heap := [.object ((OrderedMap.empty.set "a" (.ref 1)).set "b" (.ref 1)),
    .object (OrderedMap.empty.set "c" (.prim (.boolean true)))]
  root := .ref 0
  rooted a same := by
    cases same
    exact Nat.zero_lt_succ 1
  closed a k b field := (by decide : ∀ r ∈ references _, r.2.2 < 2) _ (mem_references_iff.mpr field)

/-- The second of them is changed. -/
theorem sharedField_replaced : ¬Removes sharedField 0 := by
  rintro ⟨fuel, t, done, -, clean⟩
  have edge : ∀ {a b}, Edge sharedField.heap a b → a < b := fun ⟨_, field⟩ =>
    (by decide : ∀ r ∈ references sharedField.heap, r.1 < r.2.2) _ (mem_references_iff.mpr field)
  have upward : ∀ {a b}, TransGen (Edge sharedField.heap) a b → a < b := by
    intro a b path
    induction path with
    | single first => exact edge first
    | tail _ last ih => exact Nat.lt_trans ih (edge last)
  have same := clean 0 (reaches_ref _ 0) fun x _ _ cyclic => Nat.lt_irrefl _ (upward cyclic)
  rcases fuel with _ | _ | fuel
  · cases done
  · cases done
  · cases done
    cases same

end N8n.Utils
