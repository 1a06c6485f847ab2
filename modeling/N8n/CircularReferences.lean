import Mathlib.Data.List.Perm.Subperm
import N8n.CellCopies

/-! `replaceCircularReferences` on a graph of objects and arrays. The set of known objects is the path
from the root: an object is in it while its fields are copied. So what is shared is copied in full each
time, and only what leads back is replaced. -/

namespace N8n.Utils

open ObjectGraph List Option Prod

variable {O : Type*}

structure ReplaceState (P : Type*) extends Store P where
  knownObjects : List ℕ

namespace ReplaceState

variable {P : Type*}

def enter (s : ReplaceState P) (value : ℕ) (isArray : Bool) : ReplaceState P where
  toStore := s.allocate isArray
  knownObjects := value :: s.knownObjects

def assign (s : ReplaceState P) (copy : ℕ) (k : Key String) (v : Value P) : Option (ReplaceState P) :=
  (s.toStore.assign copy k v).map ({ s with toStore := · })

def leave (s : ReplaceState P) (value : ℕ) : ReplaceState P :=
  { s with knownObjects := s.knownObjects.filter (· ≠ value) }

end ReplaceState

/-- `none` where it throws or is not at its end with `fuel` nested calls. -/
def replaceCircularReferences : ℕ → ReplaceState (Primitive O) → Value (Primitive O) →
    Option (ReplaceState (Primitive O) × Value (Primitive O))
  | 0, _, _ => none
  | _ + 1, s, .prim value => some (s, .prim value)
  | fuel + 1, s, .ref value =>
    if value ∈ s.knownObjects then some (s, .prim (.string "[Circular Reference]"))
    else
      let copy := s.heap.length
      (s.heap[value]?).bind fun cell =>
        (cell.fields.foldlM (fun s field =>
          (replaceCircularReferences fuel s field.2).bind fun replaced => replaced.1.assign copy field.1 replaced.2)
          (s.enter value cell.isArray)).map fun done => (done.leave value, .ref copy)

/-! ## The unfolding -/

/-- The second value is the unfolding of the first, with what is on the path replaced. Its cells are at
`low` or behind. -/
inductive Unfolded (heap copies : Heap String (Primitive O)) (low : ℕ) :
    List ℕ → Value (Primitive O) → Value (Primitive O) → Prop where
  | prim (path : List ℕ) (value : Primitive O) : Unfolded heap copies low path (.prim value) (.prim value)
  | circular {path : List ℕ} {a : ℕ} (member : a ∈ path) :
    Unfolded heap copies low path (.ref a) (.prim (.string "[Circular Reference]"))
  | copy {path : List ℕ} {a b : ℕ} {c d : Cell String (Primitive O)} (new : a ∉ path) (above : low ≤ b)
    (here : heap[a]? = some c) (there : copies[b]? = some d) (kind : d.isArray = c.isArray)
    (keys : c.fields.map fst = d.fields.map fst)
    (fields : ∀ k v w, (k, v) ∈ c.fields → (k, w) ∈ d.fields → Unfolded heap copies low (a :: path) v w) :
    Unfolded heap copies low path (.ref a) (.ref b)

structure IsTree {P : Type*} (heap : Heap String P) (v : Value P) : Prop where
  once : ∀ b a k a' k', Reaches heap v a → Reaches heap v a' → read heap a k = some (.ref b) →
    read heap a' k' = some (.ref b) → a = a' ∧ k = k'
  root : ∀ b, v = .ref b → ∀ a k, Reaches heap v a → read heap a k ≠ some (.ref b)
  acyclic : ∀ a, Reaches heap v a → ¬Relation.TransGen (Edge heap) a a

def ReplaceState.initial {P : Type*} (g : Graph String P) : ReplaceState P := ⟨⟨g.heap, .empty⟩, []⟩

def Replaces (g : Graph String (Primitive O)) : Prop :=
  ∃ fuel t w, replaceCircularReferences fuel (.initial g) g.root = some (t, w) ∧ IsTree t.heap w ∧
    Unfolded g.heap t.heap g.heap.length [] g.root w

/-! ## What every run keeps -/

variable {g : Graph String (Primitive O)} {base start low : ℕ} {s t u next : ReplaceState (Primitive O)}
  {v w : Value (Primitive O)} {k : Key String} {path : List ℕ} {P : Type*} {heap : Heap String P}

abbrev anyKind : Bool → Bool := fun _ => true

theorem ReplaceState.assign_eq_some {a : ℕ} (assigned : s.assign a k v = some next) :
    next.knownObjects = s.knownObjects ∧ s.toStore.assign a k v = some next.toStore := by
  obtain ⟨store, stored, rfl⟩ := map_eq_some_iff.mp assigned
  exact ⟨rfl, stored⟩

theorem replaceCircularReferences_made {fuel : ℕ} (apart : Apart base s.heap)
    (done : replaceCircularReferences fuel s v = some (t, w)) : Apart base t.heap ∧
      Made anyKind s.heap.length s.heap.length s.heap t.heap ∧ Loose anyKind base s.heap.length t.heap w := by
  induction fuel generalizing s v t w with
  | zero => cases done
  | succ fuel ih =>
    cases v with
    | prim value =>
      cases done
      exact ⟨apart, .refl s.heap, fun b same => by cases same⟩
    | ref value =>
      rw [replaceCircularReferences] at done
      split_ifs at done with known
      · cases done
        exact ⟨apart, .refl s.heap, fun b same => by cases same⟩
      · obtain ⟨cell, here, done⟩ := bind_eq_some_iff.mp done
        obtain ⟨last, filled, same⟩ := map_eq_some_iff.mp done
        cases same
        have above := apart.length
        obtain ⟨apart', made⟩ := foldlM_invariant
          (I := fun mid => Apart base mid.heap ∧ Made anyKind s.heap.length (s.heap.length + 1) s.heap mid.heap)
          (fun field _ mid next ⟨apart', made⟩ stepped => by
            obtain ⟨⟨u, w⟩, replaced, assigned⟩ := bind_eq_some_iff.mp stepped
            obtain ⟨further, grown, loose⟩ := ih apart' replaced
            have loose' := loose.mono made.length
            have stored := (ReplaceState.assign_eq_some assigned).2
            exact ⟨further.assign above loose' stored, (made.trans apart' above grown).assign loose' stored⟩)
          ⟨apart.blank _, .blank s.heap _⟩ filled
        obtain ⟨all, loose⟩ := made.leave apart
        exact ⟨apart', all, loose⟩

theorem Apart.reaches {v : Value P} {a : ℕ} (apart : Apart base heap)
    (above : ∀ b, v = .ref b → base ≤ b) (reaches : Reaches heap v a) : base ≤ a := by
  obtain ⟨first, rfl, walk⟩ := reaches
  induction walk with
  | refl => exact above first rfl
  | tail _ edge ih =>
    obtain ⟨k, field⟩ := edge
    exact (apart.copies _ k _ ih field).1

/-- Every cell of a cycle is led to from the cycle only, so that the cycle is not reached from its outside. -/
theorem isTree_of_once {v : Value P}
    (once : ∀ b a k a' k', Reaches heap v a → Reaches heap v a' → read heap a k = some (.ref b) →
      read heap a' k' = some (.ref b) → a = a' ∧ k = k')
    (root : ∀ b, v = .ref b → ∀ a k, Reaches heap v a → read heap a k ≠ some (.ref b)) : IsTree heap v := by
  refine ⟨once, root, fun a reaches => ?_⟩
  obtain ⟨first, rfl, walk⟩ := reaches
  induction walk with
  | refl =>
    intro around
    obtain ⟨b, back, k, field⟩ := Relation.TransGen.tail'_iff.mp around
    exact root first rfl b k ⟨first, rfl, back⟩ field
  | tail before edge ih =>
    rename_i b c
    intro around
    obtain ⟨k, field⟩ := edge
    obtain ⟨d, back, k', field'⟩ := Relation.TransGen.tail'_iff.mp around
    have reached : Reaches heap (.ref first) b := ⟨first, rfl, before⟩
    obtain ⟨rfl, -⟩ := once c b k d k' reached ⟨first, rfl, (before.tail ⟨k, field⟩).trans back⟩ field field'
    exact ih (.head' ⟨k, field⟩ back)

theorem Unfolded.walk {heap copies : Heap String (Primitive O)} {walk : List ℕ} {a b : ℕ}
    (unfolded : Unfolded heap copies low path (.ref a) w) (steps : Walk (Edge heap) a walk b)
    (distinct : (a :: walk).Nodup) (apart : ∀ x ∈ a :: walk, x ∉ path) : ∃ c cell copy, low ≤ c ∧
      heap[b]? = some cell ∧ copies[c]? = some copy ∧ cell.fields.map fst = copy.fields.map fst := by
  induction walk generalizing a path w with
  | nil =>
    obtain rfl : a = b := steps
    cases unfolded with
    | circular member => exact (apart a (by simp) member).elim
    | copy new above here there kind keys fields => exact ⟨_, _, _, above, here, there, keys⟩
  | cons next rest ih =>
    obtain ⟨⟨k, field⟩, further⟩ := steps
    cases unfolded with
    | circular member => exact (apart a (by simp) member).elim
    | copy new above here there kind keys fields =>
      obtain ⟨cell, here', found⟩ := read_eq_some_iff.mp field
      obtain rfl := some.inj (here.symm.trans here')
      have member := Cell.mem_fields_iff.mpr found
      have known : k ∈ (Cell.fields _).map fst := keys ▸ mem_map_of_mem (f := fst) member
      obtain ⟨⟨k', value⟩, member', same⟩ := List.mem_map.mp known
      obtain rfl : k' = k := same
      obtain ⟨outside, distinct'⟩ := nodup_cons.mp distinct
      refine ih (fields k' _ value member member') further distinct' fun x inside onPath => ?_
      rcases mem_cons.mp onPath with rfl | earlier
      · exact outside inside
      · exact apart x (mem_cons_of_mem _ inside) earlier

theorem Replaces.noProto (replaces : Replaces g) : NoProto g := by
  obtain ⟨fuel, t, w, done, -, unfolded⟩ := replaces
  obtain ⟨-, made, -⟩ := replaceCircularReferences_made (apart_graph g) done
  rintro a ⟨first, root, reaches⟩
  refine eq_none_iff_forall_ne_some.mpr fun v field => ?_
  have walk : ∃ walk, Walk (Edge g.heap) first walk a := by
    rcases Relation.reflTransGen_iff_eq_or_transGen.mp reaches with rfl | steps
    · exact ⟨[], rfl⟩
    · obtain ⟨walk, -, steps⟩ := Walk.of_transGen steps
      exact ⟨walk, steps⟩
  obtain ⟨walk, steps⟩ := walk
  obtain ⟨short, simple, distinct, -⟩ := steps.exists_simple
  rw [root] at unfolded
  obtain ⟨c, cell, copy, above, here, there, keys⟩ := unfolded.walk simple distinct (by simp)
  obtain ⟨cell', here', found⟩ := read_eq_some_iff.mp field
  obtain rfl := some.inj (here.symm.trans here')
  have known : protoKey ∈ copy.fields.map fst :=
    keys ▸ mem_map_of_mem (f := fst) (Cell.mem_fields_iff.mpr found)
  obtain ⟨⟨k, value⟩, member, same⟩ := List.mem_map.mp known
  obtain rfl : k = protoKey := same
  have field' : read t.heap c protoKey = some value := read_eq_some_iff.mpr ⟨copy, there, Cell.mem_fields_iff.mp member⟩
  exact some_ne_none value (field'.symm.trans (made.plain c above))

/-! ## Without a field `__proto__` the result is the unfolding -/

theorem Unfolded.mono {heap copies copies' : Heap String (Primitive O)} {lower : ℕ}
    (unfolded : Unfolded heap copies low path v w) (le : lower ≤ low)
    (same : ∀ b, low ≤ b → b < copies.length → copies'[b]? = copies[b]?) : Unfolded heap copies' lower path v w := by
  induction unfolded with
  | prim path value => exact .prim path value
  | circular member => exact .circular member
  | copy new above here there kind keys _ ih =>
    exact .copy new (Nat.le_trans le above) here
      ((same _ above (List.getElem?_eq_some_iff.mp there).1).trans there) kind keys ih

/-- What a nested call may rely on: the known objects are the path. -/
structure Replacing (g : Graph String (Primitive O)) (path : List ℕ) (s : ReplaceState (Primitive O))
    (v : Value (Primitive O)) : Prop where
  known : s.knownObjects = path
  above : g.heap.length ≤ s.heap.length
  source : ∀ a, a < g.heap.length → s.heap[a]? = g.heap[a]?
  ancestors : Ancestors g path v
  distinct : path.Nodup
  inside : ∀ a ∈ path, a < g.heap.length

structure Replaced (g : Graph String (Primitive O)) (path : List ℕ) (s t : ReplaceState (Primitive O))
    (v w : Value (Primitive O)) : Prop where
  known : t.knownObjects = path
  length : s.heap.length ≤ t.heap.length
  same : ∀ a, a < s.heap.length → t.heap[a]? = s.heap[a]?
  unfolded : Unfolded g.heap t.heap s.heap.length path v w

/-- While the copy at `start` is filled. -/
structure Unfolding (g : Graph String (Primitive O)) (path : List ℕ) (start : ℕ)
    (cell : Cell String (Primitive O)) (done : List (Key String × Value (Primitive O)))
    (s t : ReplaceState (Primitive O)) : Prop where
  known : t.knownObjects = path
  length : start < t.heap.length
  same : ∀ a, a < start → t.heap[a]? = s.heap[a]?
  here : ∃ d, t.heap[start]? = some d ∧ d.isArray = cell.isArray ∧ done.map fst = d.fields.map fst ∧
    ∀ k v w, (k, v) ∈ done → (k, w) ∈ d.fields → Unfolded g.heap t.heap (start + 1) path v w

theorem Unfolding.step {cell : Cell String (Primitive O)} {done rest : List (Key String × Value (Primitive O))}
    (unfolding : Unfolding g path start cell done s t) (split : cell.fields = done ++ (k, v) :: rest)
    (replaced : Replaced g path t u v w) (proper : k ≠ protoKey) :
    ∃ next, u.assign start k w = some next ∧ Unfolding g path start cell (done ++ [(k, v)]) s next := by
  have assigned : u.assign start k w = some ⟨⟨u.heap.modify start (·.set k w), u.prototypes⟩, u.knownObjects⟩ := by
    rw [ReplaceState.assign, Store.assign_proper _ _ _ proper]
    rfl
  refine ⟨_, assigned, ?_⟩
  obtain ⟨d, here, kind, keys, fields⟩ := unfolding.here
  have length := unfolding.length
  have longer := replaced.length
  have here' : u.heap[start]? = some d := (replaced.same start length).trans here
  have further : (d.set k w).fields = d.fields ++ [(k, w)] := by
    refine Cell.fields_set w (rest.map fst) kind ?_
    rw [split, map_append, keys]
    rfl
  have other : ∀ b, start ≠ b → (u.heap.modify start (·.set k w))[b]? = u.heap[b]? :=
    fun b different => getElem?_modify_ne _ _ different
  have set_ : (u.heap.modify start (·.set k w))[start]? = some (d.set k w) := by
    rw [getElem?_modify_eq, here']
    rfl
  have fresh : ∀ v, (k, v) ∉ done := by
    intro v' member
    have distinct := cell.nodup_keys
    rw [split, map_append] at distinct
    exact (nodup_append.mp distinct).2.2 k (mem_map_of_mem (f := fst) member) k (by simp) rfl
  refine ⟨replaced.known, ?_, fun a below => ?_, d.set k w, set_, by rw [Cell.isArray_set, kind], ?_, ?_⟩
  · rw [length_modify]
    omega
  · rw [other a (by omega), replaced.same a (by omega)]
    exact unfolding.same a below
  · rw [further, map_append, map_append, keys]
    rfl
  · intro k' v' w' member member'
    rw [further] at member'
    rcases mem_append.mp member with old | new
    · rcases mem_append.mp member' with old' | new'
      · refine (fields k' v' w' old old').mono (Nat.le_refl _) fun b above inside => ?_
        rw [other b (by omega)]
        exact replaced.same b inside
      · cases mem_singleton.mp new'
        exact (fresh v' old).elim
    · cases mem_singleton.mp new
      rcases mem_append.mp member' with old' | new'
      · have listed : k ∈ done.map fst := keys ▸ mem_map_of_mem (f := fst) old'
        obtain ⟨⟨key, value⟩, earlier, same⟩ := List.mem_map.mp listed
        obtain rfl : key = k := same
        exact (fresh value earlier).elim
      · cases mem_singleton.mp new'
        exact replaced.unfolded.mono length fun b above inside => other b (by omega)

theorem Unfolding.fold {fuel source : ℕ} {cell : Cell String (Primitive O)} (noProto : NoProto g)
    (here : g.heap[source]? = some cell) (above : g.heap.length ≤ start)
    (sources : ∀ a, a < g.heap.length → s.heap[a]? = g.heap[a]?)
    (call : ∀ s v, Replacing g (source :: path) s v → ∃ t w, replaceCircularReferences fuel s v = some (t, w) ∧
      Replaced g (source :: path) s t v w)
    (calling : ∀ v, (∃ k, read g.heap source k = some v) → Ancestors g (source :: path) v)
    (distinct : (source :: path).Nodup) (inside : ∀ a ∈ source :: path, a < g.heap.length)
    (rest : List (Key String × Value (Primitive O))) {done : List (Key String × Value (Primitive O))}
    (split : cell.fields = done ++ rest) (unfolding : Unfolding g (source :: path) start cell done s t) :
    ∃ last, rest.foldlM (fun s field => (replaceCircularReferences fuel s field.2).bind
        fun replaced => replaced.1.assign start field.1 replaced.2) t = some last ∧
      Unfolding g (source :: path) start cell cell.fields s last := by
  induction rest generalizing t done with
  | nil =>
    rw [append_nil] at split
    exact ⟨t, rfl, split ▸ unfolding⟩
  | cons field rest ih =>
    obtain ⟨k, v⟩ := field
    have found : read g.heap source k = some v :=
      read_eq_some_iff.mpr ⟨cell, here, Cell.mem_fields_iff.mp (by rw [split]; simp)⟩
    have ancestors := calling v ⟨k, found⟩
    have proper : k ≠ protoKey := by
      rintro rfl
      exact some_ne_none v (found.symm.trans (noProto source ancestors.2.reachable))
    have length := unfolding.length
    obtain ⟨u, w, replaced, grown⟩ := call t v ⟨unfolding.known, by omega, fun a below =>
      (unfolding.same a (by omega)).trans (sources a below), ancestors, distinct, inside⟩
    obtain ⟨next, assigned, further⟩ := unfolding.step split grown proper
    obtain ⟨last, folded, unfolded⟩ := ih (by rw [split, append_assoc]; rfl) further
    exact ⟨last, foldlM_cons_eq_some.mpr ⟨next, bind_eq_some_iff.mpr ⟨_, replaced, assigned⟩, folded⟩, unfolded⟩

theorem replaceCircularReferences_replaced (noProto : NoProto g) (fuel : ℕ) (replacing : Replacing g path s v)
    (enough : g.heap.length + 1 ≤ fuel + path.length) :
    ∃ t w, replaceCircularReferences fuel s v = some (t, w) ∧ Replaced g path s t v w := by
  induction fuel generalizing path s v with
  | zero =>
    have bounded : Subperm path (List.range g.heap.length) :=
      subperm_of_subset replacing.distinct fun a member => mem_range.mpr (replacing.inside a member)
    have := bounded.length_le
    rw [length_range] at this
    omega
  | succ fuel ih =>
    cases v with
    | prim value =>
      exact ⟨s, _, rfl, replacing.known, Nat.le_refl _, fun _ _ => rfl, .prim path value⟩
    | ref source =>
      by_cases known : source ∈ path
      · refine ⟨s, .prim (.string "[Circular Reference]"), ?_, replacing.known, Nat.le_refl _, fun _ _ => rfl,
          .circular known⟩
        rw [replaceCircularReferences, if_pos (replacing.known ▸ known)]
      · have reachable := replacing.ancestors.reachable
        obtain ⟨cell, here⟩ := reachable.cell
        have entered : Unfolding g (source :: path) s.heap.length cell [] s (s.enter source cell.isArray) := by
          refine ⟨congrArg (source :: ·) replacing.known, ?_, fun a below => getElem?_append_left below,
            .blank cell.isArray, ?_, Cell.isArray_blank _, ?_, by simp⟩
          · simp [ReplaceState.enter, Store.allocate]
          · simp [ReplaceState.enter, Store.allocate]
          · rw [Cell.fields_blank]
        obtain ⟨last, folded, unfolded⟩ := Unfolding.fold noProto here replacing.above replacing.source
          (fun s v nested => ih nested (by rw [length_cons]; omega)) (fun v field => ⟨field, replacing.ancestors⟩)
          (nodup_cons.mpr ⟨known, replacing.distinct⟩)
          (fun a member => (mem_cons.mp member).elim (fun same => same ▸ reachable.lt) (replacing.inside a))
          cell.fields rfl entered
        refine ⟨last.leave source, .ref s.heap.length, ?_, ?_, Nat.le_of_lt unfolded.length, unfolded.same, ?_⟩
        · rw [replaceCircularReferences, if_neg (replacing.known ▸ known)]
          refine bind_eq_some_iff.mpr ⟨cell, (replacing.source source reachable.lt).trans here, ?_⟩
          rw [folded]
          rfl
        · simp only [ReplaceState.leave, unfolded.known, filter_cons, ne_eq, not_true_eq_false, decide_false,
            Bool.false_eq_true, if_false]
          exact filter_eq_self.mpr fun a member => by simpa using fun same : a = source => known (same ▸ member)
        · obtain ⟨d, there, kind, keys, fields⟩ := unfolded.here
          exact .copy known (Nat.le_refl _) here there kind keys fun k v w member member' =>
            (fields k v w member member').mono (Nat.le_succ _) fun _ _ _ => rfl

/-- What leads back is replaced, and nothing else, exactly when no object has a field `__proto__`. -/
theorem replaces_iff (g : Graph String (Primitive O)) : Replaces g ↔ NoProto g := by
  refine ⟨Replaces.noProto, fun noProto => ?_⟩
  have replacing : Replacing g [] (.initial g) g.root :=
    ⟨rfl, Nat.le_refl _, fun _ _ => rfl, rfl, nodup_nil, by simp⟩
  obtain ⟨t, w, done, replaced⟩ := replaceCircularReferences_replaced noProto (g.heap.length + 1) replacing (by simp)
  obtain ⟨apart, made, loose⟩ := replaceCircularReferences_made (apart_graph g) done
  have above : ∀ a, Reaches t.heap w a → g.heap.length ≤ a := fun a => apart.reaches fun b same => (loose b same).1
  have cell : ∀ b, g.heap.length ≤ b → b < t.heap.length → IsCell anyKind t.heap b := by
    intro b _ inside
    exact (isCell_iff (getElem?_eq_getElem inside)).mpr rfl
  refine ⟨_, t, w, done, isTree_of_once ?_ ?_, replaced.unfolded⟩
  · intro b a k a' k' reaches reaches' field field'
    obtain ⟨low, inside⟩ := apart.copies a k b (above a reaches) field
    have is_cell := cell b low inside
    exact made.once b (made.later a k b (above a reaches) field is_cell) is_cell a k a' k' field field'
  · intro b same a k _
    obtain ⟨low, inside, alone⟩ := loose b same
    exact (alone (cell b low inside)).2 a k

/-- What `JSON.parse` makes of an object whose only member is called `__proto__`. -/
def withProto : Graph String (Primitive O) where
  heap := [.object (OrderedMap.empty.set "__proto__" (.prim (.string "")))]
  root := .ref 0
  rooted a same := by
    cases same
    exact Nat.zero_lt_one
  closed a k b field := by
    obtain ⟨cell, here, value⟩ := read_eq_some_iff.mp field
    rw [mem_singleton.mp (mem_of_getElem? here)] at value
    cases k with
    | index i => cases value
    | name text =>
      simp only [Cell.get, OrderedMap.get_set, OrderedMap.get_empty] at value
      split_ifs at value
      cases some.inj value

/-- The member is missing from the copy. -/
theorem withProto_lost : ¬Replaces (withProto : Graph String (Primitive Unit)) := by
  intro replaces
  have absent := replaces.noProto 0 (reaches_ref _ 0)
  cases absent

end N8n.Utils
