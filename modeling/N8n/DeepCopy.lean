import Mathlib.Data.List.Perm.Subperm
import N8n.CellCopies

/-! `deepCopy` on a graph of objects and arrays. The table of what has been copied knows the objects
only: an array is copied anew wherever it is met, and a cycle of arrays is followed without end. -/

namespace N8n.Utils

open ObjectGraph List Option

variable {P : Type*}

/-- `hash` leads from the objects to their copies. -/
structure CopyState (P : Type*) extends Store P where
  hash : OrderedMap ℕ ℕ

namespace CopyState

/-- The copy is made empty, and only that of an object is put into the table. -/
def enter (s : CopyState P) (source : ℕ) (isArray : Bool) : CopyState P where
  toStore := s.allocate isArray
  hash := if isArray then s.hash else s.hash.set source s.heap.length

def assign (s : CopyState P) (clone : ℕ) (k : Key String) (v : Value P) : Option (CopyState P) :=
  (s.toStore.assign clone k v).map ({ s with toStore := · })

end CopyState

/-- `none` where it throws or is not at its end with `fuel` nested calls. -/
def deepCopy : ℕ → CopyState P → Value P → Option (CopyState P × Value P)
  | 0, _, _ => none
  | _ + 1, s, .prim value => some (s, .prim value)
  | fuel + 1, s, .ref source =>
    match s.hash.get source with
    | some clone => some (s, .ref clone)
    | none =>
      let clone := s.heap.length
      (s.heap[source]?).bind fun cell =>
        (cell.fields.foldlM (fun s field =>
          (deepCopy fuel s field.2).bind fun copied => copied.1.assign clone field.1 copied.2)
          (s.enter source cell.isArray)).map fun done => (done, .ref clone)

/-! ## What every copy keeps -/

variable {base start : ℕ} {s t u next : CopyState P} {v w : Value P} {k : Key String}

variable {a : ℕ} {fuel : ℕ} {origin : List ℕ}

theorem CopyState.assign_eq_some (assigned : s.assign a k v = some next) :
    next.hash = s.hash ∧ s.toStore.assign a k v = some next.toStore := by
  obtain ⟨store, stored, rfl⟩ := map_eq_some_iff.mp assigned
  exact ⟨rfl, stored⟩

def Hashed (base : ℕ) (s : CopyState P) : Prop :=
  ∀ a b, s.hash.get a = some b → base ≤ b ∧ b < s.heap.length ∧ ¬IsArray s.heap b

theorem Hashed.enter (hashed : Hashed base s) (above : base ≤ s.heap.length) (source : ℕ) (isArray : Bool) :
    Hashed base (s.enter source isArray) := by
  intro a b found
  have old : s.hash.get a = some b → base ≤ b ∧ b < (s.heap ++ [Cell.blank isArray]).length ∧
      ¬IsArray (s.heap ++ [Cell.blank isArray]) b := by
    intro found
    obtain ⟨copy, inside, object⟩ := hashed a b found
    refine ⟨copy, by rw [length_append]; omega, ?_⟩
    exact fun array => object ((isCell_congr (getElem?_append_left inside)).mp array)
  cases isArray with
  | true => exact old found
  | false =>
    simp only [CopyState.enter, Bool.false_eq_true, if_false, OrderedMap.get_set] at found
    split_ifs at found with same
    · rw [← some.inj found]
      exact ⟨above, by simp [CopyState.enter, Store.allocate], by simp [CopyState.enter, Store.allocate, IsCell]⟩
    · exact old found

theorem Hashed.assign (hashed : Hashed base s) (assigned : s.assign a k v = some next) : Hashed base next := by
  obtain ⟨hash, stored⟩ := CopyState.assign_eq_some assigned
  intro a b found
  obtain ⟨copy, inside, object⟩ := hashed a b (hash ▸ found)
  exact ⟨copy, Store.length_assign stored ▸ inside, fun array => object ((Store.isCell_assign stored).mp array)⟩

theorem deepCopy_made (apart : Apart base s.heap) (hashed : Hashed base s) (done : deepCopy fuel s v = some (t, w)) :
    Apart base t.heap ∧ Hashed base t ∧
      Made id s.heap.length s.heap.length s.heap t.heap ∧ Loose id base s.heap.length t.heap w := by
  induction fuel generalizing s v t w with
  | zero => cases done
  | succ fuel ih =>
    cases v with
    | prim value =>
      cases done
      exact ⟨apart, hashed, .refl s.heap, fun b same => by cases same⟩
    | ref source =>
      rw [deepCopy] at done
      cases found : s.hash.get source with
      | some clone =>
        rw [found] at done
        cases done
        obtain ⟨copy, inside, object⟩ := hashed source clone found
        refine ⟨apart, hashed, .refl s.heap, fun b same => ?_⟩
        cases same
        exact ⟨copy, inside, fun array => (object array).elim⟩
      | none =>
        rw [found] at done
        obtain ⟨cell, here, done⟩ := bind_eq_some_iff.mp done
        obtain ⟨last, filled, same⟩ := map_eq_some_iff.mp done
        cases same
        have above := apart.length
        obtain ⟨apart', hashed', made⟩ := foldlM_invariant (I := fun mid => Apart base mid.heap ∧ Hashed base mid ∧
            Made id s.heap.length (s.heap.length + 1) s.heap mid.heap)
          (fun field _ mid next ⟨apart', hashed', made⟩ stepped => by
            obtain ⟨⟨u, w⟩, copied, assigned⟩ := bind_eq_some_iff.mp stepped
            obtain ⟨further, table, grown, loose⟩ := ih apart' hashed' copied
            have loose' := loose.mono made.length
            have stored := (CopyState.assign_eq_some assigned).2
            exact ⟨further.assign above loose' stored, table.assign assigned,
              (made.trans apart' above grown).assign loose' stored⟩)
          ⟨apart.blank _, hashed.enter above _ _, .blank s.heap _⟩ filled
        obtain ⟨all, loose⟩ := made.leave apart
        exact ⟨apart', hashed', all, loose⟩

/-! ## A copy of the same shape -/

def initial (g : Graph String P) : CopyState P := ⟨⟨g.heap, .empty⟩, .empty⟩

/-- The call ends, and what it returns is apart from the source and of the same shape. -/
def Copies (g : Graph String P) : Prop :=
  ∃ fuel t w, deepCopy fuel (initial g) g.root = some (t, w) ∧ Isomorphic g.heap g.root t.heap w ∧
    ∀ a, g.Reachable a → ¬Reaches t.heap w a

/-- Every array is referred to once, where the root counts as a reference. -/
structure Unshared (g : Graph String P) : Prop where
  once : ∀ b, IsArray g.heap b → ∀ a k a' k', g.Reachable a → g.Reachable a' → read g.heap a k = some (.ref b) →
    read g.heap a' k' = some (.ref b) → a = a' ∧ k = k'
  root : ∀ b, IsArray g.heap b → g.root = .ref b → ∀ a k, g.Reachable a → read g.heap a k ≠ some (.ref b)

variable {g : Graph String P}

theorem hashed_initial (g : Graph String P) : Hashed g.heap.length (initial g) := fun _ _ found => by cases found

theorem Copies.unshared (copies : Copies g) : NoProto g ∧ Unshared g := by
  obtain ⟨fuel, t, w, done, ⟨R, right, left, root, cells⟩, -⟩ := copies
  obtain ⟨apart, -, made, loose⟩ := deepCopy_made (apart_graph g) (hashed_initial g) done
  have copy : ∀ a, g.Reachable a → ∃ b, R a b ∧ g.heap.length ≤ b := by
    rintro a ⟨first, same, walk⟩
    induction walk with
    | refl =>
      rw [same] at root
      cases found : w with
      | prim value =>
        rw [found] at root
        cases root
      | ref b =>
        rw [found] at root
        cases root with
        | ref related => exact ⟨b, related, (loose b found).1⟩
    | tail _ edge ih =>
      obtain ⟨b, related, above⟩ := ih
      obtain ⟨k, field⟩ := edge
      obtain ⟨c, d, here, there, alike⟩ := cells _ b related
      obtain ⟨cell, here', field⟩ := read_eq_some_iff.mp field
      obtain rfl := some.inj (here.symm.trans here')
      obtain ⟨value, other, both⟩ := alike.get field
      cases both with
      | ref related' => exact ⟨_, related', (apart.copies b k _ above (read_eq_some_iff.mpr ⟨d, there, other⟩)).1⟩
  have field_copy : ∀ a k v b, R a b → read g.heap a k = some v → ∃ w, read t.heap b k = some w ∧ v.Alike R w := by
    intro a k v b related field
    obtain ⟨c, d, here, there, alike⟩ := cells a b related
    obtain ⟨cell, here', field⟩ := read_eq_some_iff.mp field
    obtain rfl := some.inj (here.symm.trans here')
    obtain ⟨value, other, both⟩ := alike.get field
    exact ⟨value, read_eq_some_iff.mpr ⟨d, there, other⟩, both⟩
  have array_copy : ∀ a b, R a b → IsArray g.heap a → IsArray t.heap b := by
    intro a b related array
    obtain ⟨c, d, here, there, alike⟩ := cells a b related
    exact (isCell_iff there).mpr (alike.kind ▸ (isCell_iff here).mp array)
  refine ⟨fun a reachable => ?_, ⟨fun b array a k a' k' reachable reachable' field field' => ?_,
    fun b array same a k reachable field => ?_⟩⟩
  · refine eq_none_iff_forall_ne_some.mpr fun v field => ?_
    obtain ⟨b, related, above⟩ := copy a reachable
    obtain ⟨w, field', -⟩ := field_copy a protoKey v b related field
    exact some_ne_none w (field'.symm.trans (made.plain b above))
  · obtain ⟨c, related, above⟩ := copy a reachable
    obtain ⟨c', related', above'⟩ := copy a' reachable'
    obtain ⟨_, here, alike⟩ := field_copy a k _ c related field
    obtain ⟨_, there, alike'⟩ := field_copy a' k' _ c' related' field'
    cases alike with
    | ref one =>
      cases alike' with
      | ref two =>
        rename_i d d'
        obtain rfl : d = d' := right b d d' one two
        have new := made.later c k d above here (array_copy b d one array)
        obtain ⟨rfl, rfl⟩ := made.once d new (array_copy b d one array) c k c' k' here there
        exact ⟨left a a' c related related', rfl⟩
  · obtain ⟨c, related, above⟩ := copy a reachable
    obtain ⟨_, here, alike⟩ := field_copy a k _ c related field
    rw [same] at root
    cases found : w with
    | prim value =>
      rw [found] at root
      cases root
    | ref d =>
      rw [found] at root
      cases root with
      | ref one =>
        cases alike with
        | ref two =>
          obtain rfl := right b _ _ two one
          exact ((loose _ found).2.2 (array_copy b _ two array)).2 c k here

/-! ## Where every array is referred to once, the copy is complete -/

variable {path : List ℕ} {b : ℕ}

theorem Unshared.not_mem (unshared : Unshared g) (distinct : path.Nodup)
    (ancestors : Ancestors g path (.ref b)) (array : IsArray g.heap b) : b ∉ path := by
  intro member
  obtain ⟨before, after, split⟩ := append_of_mem member
  have earlier : Ancestors g after (.ref b) := Ancestors.drop (split ▸ ancestors)
  cases path with
  | nil => cases member
  | cons a rest =>
    obtain ⟨⟨k, field⟩, further⟩ := ancestors
    cases after with
    | nil => exact unshared.root b array earlier.symm a k further.reachable field
    | cons a' rest' =>
      obtain ⟨⟨k', field'⟩, further'⟩ := earlier
      obtain ⟨rfl, -⟩ := unshared.once b array a k a' k' further.reachable further'.reachable field field'
      refine (nodup_cons.mp distinct).1 ?_
      cases before with
      | nil =>
        obtain ⟨-, rfl⟩ := List.cons.inj split
        exact mem_cons_self
      | cons c before =>
        obtain ⟨-, rfl⟩ := List.cons.inj split
        simp

/-- The copies are numbered in the order in which they are made, and `origin` says of what. -/
def CopyOf (base : ℕ) (origin : List ℕ) (a b : ℕ) : Prop := base ≤ b ∧ origin[b - base]? = some a

theorem CopyOf.mono (copy : CopyOf base origin a b) (more : List ℕ) : CopyOf base (origin ++ more) a b := by
  refine ⟨copy.1, ?_⟩
  rw [getElem?_append_left (List.getElem?_eq_some_iff.mp copy.2).1]
  exact copy.2

variable {source : ℕ}

theorem copyOf_append : CopyOf base (origin ++ [source]) a b ↔
    CopyOf base origin a b ∨ (a = source ∧ b = base + origin.length) := by
  constructor
  · rintro ⟨above, position⟩
    rcases Nat.lt_or_ge (b - base) origin.length with old | new
    · rw [getElem?_append_left old] at position
      exact .inl ⟨above, position⟩
    · have inside := (List.getElem?_eq_some_iff.mp position).1
      rw [length_append, length_singleton] at inside
      have last : b - base = origin.length := by omega
      rw [last, getElem?_concat_length] at position
      exact .inr ⟨(some.inj position).symm, by omega⟩
  · rintro (copy | ⟨rfl, rfl⟩)
    · exact copy.mono _
    · exact ⟨by omega, by simp⟩

structure Copying (g : Graph String P) (origin : List ℕ) (s : CopyState P) : Prop where
  length : s.heap.length = g.heap.length + origin.length
  source : ∀ a, a < g.heap.length → s.heap[a]? = g.heap[a]?
  hash : ∀ a b, s.hash.get a = some b ↔ CopyOf g.heap.length origin a b ∧ ¬IsArray g.heap a
  reached : ∀ a ∈ origin, g.Reachable a

/-- The cell at `b` is a whole copy. -/
def Complete (g : Graph String P) (origin : List ℕ) (t : CopyState P) (b : ℕ) : Prop :=
  ∃ a c d, CopyOf g.heap.length origin a b ∧ g.heap[a]? = some c ∧ t.heap[b]? = some d ∧
    c.Alike (CopyOf g.heap.length origin) d

/-- A copy made after `start` is referred to from an earlier one. -/
def HasParent (start : ℕ) (t : CopyState P) (b : ℕ) : Prop :=
  ∃ a k, start ≤ a ∧ a < b ∧ read t.heap a k = some (.ref b)

structure Copied (g : Graph String P) (origin more : List ℕ) (s t : CopyState P) (v w : Value P) : Prop where
  copying : Copying g (origin ++ more) t
  same : ∀ a, a < s.heap.length → t.heap[a]? = s.heap[a]?
  alike : v.Alike (CopyOf g.heap.length (origin ++ more)) w
  complete : ∀ b, s.heap.length ≤ b → b < t.heap.length → Complete g (origin ++ more) t b
  first : more ≠ [] → w = .ref s.heap.length
  parent : ∀ b, s.heap.length < b → b < t.heap.length → HasParent s.heap.length t b

/-- While the copy at `start` is filled: it has copies of the fields that are done. -/
structure Filling (g : Graph String P) (origin : List ℕ) (start : ℕ) (cell : Cell String P)
    (done : List (Key String × Value P)) (s t : CopyState P) : Prop where
  copying : Copying g origin t
  inside : start < t.heap.length
  same : ∀ a, a < start → t.heap[a]? = s.heap[a]?
  here : ∃ d, t.heap[start]? = some d ∧ d.isArray = cell.isArray ∧
    Forall₂ (FieldAlike (CopyOf g.heap.length origin)) done d.fields
  complete : ∀ b, start < b → b < t.heap.length → Complete g origin t b
  parent : ∀ b, start < b → b < t.heap.length → HasParent start t b

variable {origin more : List ℕ}

theorem Complete.congr (complete : Complete g origin t b) (more : List ℕ)
    (same : u.heap[b]? = t.heap[b]?) : Complete g (origin ++ more) u b := by
  obtain ⟨a, c, d, copy, here, there, alike⟩ := complete
  exact ⟨a, c, d, copy.mono more, here, same ▸ there, alike.mono fun _ _ copy => copy.mono more⟩

theorem CopyState.assign_proper (s : CopyState P) (a : ℕ) (v : Value P) (proper : k ≠ protoKey) :
    s.assign a k v = some ⟨⟨s.heap.modify a (·.set k v), s.prototypes⟩, s.hash⟩ := by
  rw [CopyState.assign, Store.assign_proper _ _ _ proper]
  rfl

variable {cell : Cell String P}

theorem Filling.step {done rest : List (Key String × Value P)} (above : g.heap.length ≤ start)
    (filling : Filling g origin start cell done s t) (split : cell.fields = done ++ (k, v) :: rest)
    (copied : Copied g origin more t u v w) (proper : k ≠ protoKey) :
    ∃ next, u.assign start k w = some next ∧ Filling g (origin ++ more) start cell (done ++ [(k, v)]) s next := by
  refine ⟨_, u.assign_proper start w proper, ?_⟩
  obtain ⟨d, here, kind, fields⟩ := filling.here
  have inside := filling.inside
  have longer : t.heap.length ≤ u.heap.length := by
    rw [copied.copying.length, filling.copying.length, length_append]
    omega
  have here' : u.heap[start]? = some d := (copied.same start inside).trans here
  have further : (d.set k w).fields = d.fields ++ [(k, w)] := by
    refine Cell.fields_set w (rest.map Prod.fst) kind ?_
    rw [split, map_append, FieldAlike.keys fields]
    rfl
  have other : ∀ b, start ≠ b → (u.heap.modify start (·.set k w))[b]? = u.heap[b]? :=
    fun b different => getElem?_modify_ne _ _ different
  have set_ : (u.heap.modify start (·.set k w))[start]? = some (d.set k w) := by
    rw [getElem?_modify_eq, here']
    rfl
  have kept : ∀ a k' b, read u.heap a k' = some (.ref b) →
      read (u.heap.modify start (·.set k w)) a k' = some (.ref b) := by
    intro a k' b field
    by_cases same : start = a
    · subst same
      obtain ⟨_, there, field⟩ := read_eq_some_iff.mp field
      obtain rfl := some.inj (there.symm.trans here')
      refine read_eq_some_iff.mpr ⟨_, set_, Cell.mem_fields_iff.mp ?_⟩
      rw [further]
      exact mem_append_left _ (Cell.mem_fields_iff.mpr field)
    · rw [read_congr (other a same)]
      exact field
  refine ⟨⟨?_, fun a below => ?_, copied.copying.hash, copied.copying.reached⟩, ?_, fun a below => ?_,
    ⟨d.set k w, set_, by rw [Cell.isArray_set, kind], ?_⟩, fun b after upTo => ?_, fun b after upTo => ?_⟩
  · rw [length_modify]
    exact copied.copying.length
  · rw [other a (by omega)]
    exact copied.copying.source a below
  · rw [length_modify]
    omega
  · rw [other a (by omega), copied.same a (by omega)]
    exact filling.same a below
  · rw [further]
    refine rel_append (fields.imp fun _ _ field => ⟨field.key, field.value.mono fun _ _ copy => copy.mono more⟩) ?_
    exact .cons ⟨rfl, copied.alike⟩ .nil
  · rw [length_modify] at upTo
    have untouched := other b (by omega)
    rcases Nat.lt_or_ge b t.heap.length with old | new
    · exact (filling.complete b after old).congr more (untouched.trans (copied.same b old))
    · have complete := (copied.complete b new upTo).congr (u := ⟨⟨_, u.prototypes⟩, u.hash⟩) [] untouched
      rwa [append_nil] at complete
  · rw [length_modify] at upTo
    rcases Nat.lt_or_ge b t.heap.length with old | new
    · obtain ⟨a, k', from_, before, field⟩ := filling.parent b after old
      refine ⟨a, k', from_, before, kept a k' b ?_⟩
      rw [read_congr (copied.same a (by omega))]
      exact field
    · rcases Nat.eq_or_lt_of_le new with rfl | later
      · have some_ : more ≠ [] := by
          rintro rfl
          rw [copied.copying.length, filling.copying.length, append_nil] at upTo
          omega
        refine ⟨start, k, Nat.le_refl _, after, read_eq_some_iff.mpr ⟨_, set_, Cell.mem_fields_iff.mp ?_⟩⟩
        rw [further, copied.first some_]
        simp
      · obtain ⟨a, k', from_, before, field⟩ := copied.parent b later upTo
        exact ⟨a, k', by omega, before, kept a k' b field⟩

structure Calling (g : Graph String P) (path : List ℕ) (origin : List ℕ) (s : CopyState P) (v : Value P) : Prop where
  copying : Copying g origin s
  ancestors : Ancestors g path v
  distinct : path.Nodup
  inside : ∀ a ∈ path, a < g.heap.length
  hashed : ∀ a ∈ path, ¬IsArray g.heap a → s.hash.get a ≠ none

theorem Calling.length_le (calling : Calling g path origin s v) : path.length ≤ g.heap.length := by
  have bounded : Subperm path (List.range g.heap.length) :=
    subperm_of_subset calling.distinct fun a member => mem_range.mpr (calling.inside a member)
  simpa using bounded.length_le

theorem Copying.hashed (copying : Copying g origin s) (further : Copying g (origin ++ more) t)
    (known : s.hash.get a ≠ none) : t.hash.get a ≠ none := by
  obtain ⟨b, found⟩ := ne_none_iff_exists'.mp known
  obtain ⟨copy, object⟩ := (copying.hash a b).mp found
  rw [(further.hash a b).mpr ⟨copy.mono more, object⟩]
  simp

theorem Filling.fold (above : g.heap.length ≤ start) (noProto : NoProto g) (here : g.heap[source]? = some cell)
    (call : ∀ origin s v, Calling g (source :: path) origin s v → ∃ t w more,
      deepCopy fuel s v = some (t, w) ∧ Copied g origin more s t v w)
    (rest : List (Key String × Value P)) {done : List (Key String × Value P)} (split : cell.fields = done ++ rest)
    (calling : ∀ v, (∃ k, read g.heap source k = some v) → Calling g (source :: path) origin t v)
    (filling : Filling g origin start cell done s t) :
    ∃ last more, rest.foldlM (fun s field =>
        (deepCopy fuel s field.2).bind fun copied => copied.1.assign start field.1 copied.2) t = some last ∧
      Filling g (origin ++ more) start cell cell.fields s last := by
  induction rest generalizing origin t done with
  | nil =>
    rw [append_nil] at split
    refine ⟨t, [], rfl, ?_⟩
    rw [append_nil, split]
    exact filling
  | cons field rest ih =>
    obtain ⟨k, v⟩ := field
    have found : read g.heap source k = some v :=
      read_eq_some_iff.mpr ⟨cell, here, Cell.mem_fields_iff.mp (by rw [split]; simp)⟩
    have nested := calling v ⟨k, found⟩
    have proper : k ≠ protoKey := by
      rintro rfl
      exact some_ne_none v (found.symm.trans (noProto source nested.ancestors.2.reachable))
    obtain ⟨u, w, more, copied, grown⟩ := call origin t v nested
    obtain ⟨next, assigned, further⟩ := filling.step above split grown proper
    obtain ⟨last, more', folded, filled⟩ := ih (by rw [split, append_assoc]; rfl) (fun v' field' => by
      have again := calling v' field'
      exact ⟨further.copying, again.ancestors, again.distinct, again.inside, fun a member object =>
        again.copying.hashed further.copying (again.hashed a member object)⟩) further
    refine ⟨last, more ++ more', foldlM_cons_eq_some.mpr ⟨next, ?_, folded⟩, ?_⟩
    · exact bind_eq_some_iff.mpr ⟨_, copied, assigned⟩
    · rw [← append_assoc]
      exact filled

theorem Filling.enter (copying : Copying g origin s) (reachable : g.Reachable source)
    (here : g.heap[source]? = some cell) (unknown : s.hash.get source = none) :
    Filling g (origin ++ [source]) s.heap.length cell [] s (s.enter source cell.isArray) := by
  have self : CopyOf g.heap.length (origin ++ [source]) source s.heap.length := by
    rw [CopyOf, copying.length]
    exact ⟨by omega, by simp⟩
  have kind : IsArray g.heap source ↔ cell.isArray = true := isCell_iff here
  refine ⟨⟨?_, fun a below => ?_, fun a b => ?_, ?_⟩, ?_, fun a below => getElem?_append_left below,
    ⟨.blank cell.isArray, ?_, Cell.isArray_blank _, ?_⟩, fun b after upTo => ?_, fun b after upTo => ?_⟩
  · simp only [CopyState.enter, Store.allocate, length_append, copying.length, length_singleton]
    omega
  · rw [← copying.source a below]
    exact getElem?_append_left (by rw [copying.length]; omega)
  · have old : ∀ a b, IsArray g.heap a ∨ a ≠ source → (s.hash.get a = some b ↔
        CopyOf g.heap.length (origin ++ [source]) a b ∧ ¬IsArray g.heap a) := by
      intro a b other
      rw [copying.hash, copyOf_append]
      refine ⟨fun ⟨copy, object⟩ => ⟨.inl copy, object⟩, fun ⟨copy, object⟩ => ⟨copy.resolve_right ?_, object⟩⟩
      exact fun ⟨same, _⟩ => (other.resolve_left object) same
    simp only [CopyState.enter]
    split_ifs with array
    · refine old a b ?_
      by_cases same : a = source
      · exact .inl (same ▸ kind.mpr array)
      · exact .inr same
    · rw [OrderedMap.get_set]
      split_ifs with same
      · subst same
        have fresh : ¬CopyOf g.heap.length origin a b := fun copy =>
          some_ne_none b (((copying.hash a b).mpr ⟨copy, fun there => array (kind.mp there)⟩).symm.trans unknown)
        rw [copyOf_append, some.injEq, copying.length]
        exact ⟨fun same => ⟨.inr ⟨rfl, same.symm⟩, fun there => array (kind.mp there)⟩,
          fun ⟨copy, _⟩ => (copy.resolve_left fresh).2.symm⟩
      · exact old a b (.inr same)
  · intro a member
    rcases mem_append.mp member with old | new
    · exact copying.reached a old
    · exact mem_singleton.mp new ▸ reachable
  · simp [CopyState.enter, Store.allocate]
  · simp [CopyState.enter, Store.allocate]
  · rw [Cell.fields_blank]
    exact .nil
  · simp only [CopyState.enter, Store.allocate, length_append, length_singleton] at upTo
    omega
  · simp only [CopyState.enter, Store.allocate, length_append, length_singleton] at upTo
    omega

theorem Filling.copied (copying : Copying g origin s) (here : g.heap[source]? = some cell)
    (filling : Filling g (origin ++ source :: more) s.heap.length cell cell.fields s t) :
    Copied g origin (source :: more) s t (.ref source) (.ref s.heap.length) := by
  have self : CopyOf g.heap.length (origin ++ source :: more) source s.heap.length := by
    rw [CopyOf, copying.length]
    exact ⟨by omega, by simp⟩
  refine ⟨filling.copying, filling.same, .ref self, fun b from_ upTo => ?_, fun _ => rfl, filling.parent⟩
  rcases Nat.eq_or_lt_of_le from_ with rfl | after
  · obtain ⟨d, there, kind, fields⟩ := filling.here
    exact ⟨source, cell, d, self, here, there, kind.symm, fields⟩
  · exact filling.complete b after upTo

theorem deepCopy_copied (noProto : NoProto g) (unshared : Unshared g) (fuel : ℕ)
    (calling : Calling g path origin s v) (enough : g.heap.length + 1 ≤ fuel + path.length) :
    ∃ t w more, deepCopy fuel s v = some (t, w) ∧ Copied g origin more s t v w := by
  induction fuel generalizing path origin s v with
  | zero =>
    have := calling.length_le
    omega
  | succ fuel ih =>
    have unchanged : ∀ w, v.Alike (CopyOf g.heap.length origin) w → Copied g origin [] s s v w := by
      intro w alike
      refine ⟨?_, fun _ _ => rfl, ?_, fun b from_ upTo => by omega, fun none => (none rfl).elim,
        fun b after upTo => by omega⟩
      · rw [append_nil]
        exact calling.copying
      · rw [append_nil]
        exact alike
    cases v with
    | prim value => exact ⟨s, _, [], rfl, unchanged _ (.prim value)⟩
    | ref source =>
      have copying := calling.copying
      have reachable := calling.ancestors.reachable
      cases found : s.hash.get source with
      | some clone =>
        refine ⟨s, .ref clone, [], by rw [deepCopy, found], unchanged _ (.ref ((copying.hash _ _).mp found).1)⟩
      | none =>
        obtain ⟨cell, here⟩ := reachable.cell
        have outside : source ∉ path := by
          by_cases array : IsArray g.heap source
          · exact unshared.not_mem calling.distinct calling.ancestors array
          · exact fun member => calling.hashed source member array found
        have above : g.heap.length ≤ s.heap.length := by rw [copying.length]; omega
        have entered := Filling.enter copying reachable here found
        have hashed : ∀ a ∈ source :: path, ¬IsArray g.heap a → (s.enter source cell.isArray).hash.get a ≠ none := by
          intro a member object
          rcases mem_cons.mp member with rfl | earlier
          · have kind : cell.isArray ≠ true := fun array => object ((isCell_iff here).mpr array)
            simp only [CopyState.enter, if_neg kind, OrderedMap.get_set_self]
            simp
          · exact copying.hashed entered.copying (calling.hashed a earlier object)
        obtain ⟨last, more, folded, filled⟩ := Filling.fold above noProto here
          (fun origin s v nested => ih nested (by rw [length_cons]; omega)) cell.fields rfl
          (fun v field => ⟨entered.copying, ⟨field, calling.ancestors⟩, nodup_cons.mpr ⟨outside, calling.distinct⟩,
            fun a member => (mem_cons.mp member).elim (fun same => same ▸ reachable.lt) (calling.inside a),
            hashed⟩) entered
        · refine ⟨last, .ref s.heap.length, source :: more, ?_, ?_⟩
          · rw [deepCopy, found]
            exact bind_eq_some_iff.mpr ⟨cell, (copying.source source reachable.lt).trans here, by rw [folded]; rfl⟩
          · rw [append_assoc] at filled
            exact filled.copied copying here

theorem Copied.parent_copy (copied : Copied g [] more s t v w)
    (copy : CopyOf g.heap.length more a b) (after : s.heap.length < b) : ∃ p c k, CopyOf g.heap.length more p c ∧
      c < b ∧ read g.heap p k = some (.ref a) ∧ read t.heap c k = some (.ref b) := by
  have inside : b < t.heap.length := by
    have position := (List.getElem?_eq_some_iff.mp copy.2).1
    rw [copied.copying.length, nil_append]
    have := copy.1
    omega
  obtain ⟨c, k, from_, before, field⟩ := copied.parent b after inside
  obtain ⟨p, cell, d, source, here, there, alike⟩ := copied.complete c from_ (Nat.lt_trans before inside)
  obtain ⟨d', there', value⟩ := read_eq_some_iff.mp field
  obtain rfl := some.inj (there.symm.trans there')
  obtain ⟨v, value', both⟩ := alike.get' value
  cases both with
  | ref copy' =>
    have same := some.inj (copy'.2.symm.trans copy.2)
    exact ⟨p, c, k, source, before, read_eq_some_iff.mpr ⟨cell, here, by rw [value', same]⟩, field⟩

/-- No two copies are of the same cell: their parents would be copies of one cell, too. -/
theorem Copied.one (unshared : Unshared g) (copied : Copied g [] more s t g.root w)
    (length : s.heap.length = g.heap.length) {b' : ℕ} (copy : CopyOf g.heap.length more a b)
    (copy' : CopyOf g.heap.length more a b') : b = b' := by
  have copying := copied.copying
  have alike := copied.alike
  rw [nil_append] at copying alike
  have reachable : ∀ a b, CopyOf g.heap.length more a b → g.Reachable a :=
    fun a b copy => copying.reached a (mem_of_getElem? copy.2)
  have first : ∀ a, CopyOf g.heap.length more a s.heap.length → g.root = .ref a := by
    intro a copy
    have some_ : more ≠ [] := by
      rintro rfl
      cases copy.2
    rw [copied.first some_] at alike
    cases found : g.root with
    | prim value =>
      rw [found] at alike
      cases alike
    | ref a' =>
      rw [found] at alike
      cases alike with
      | ref copy' => rw [some.inj (copy'.2.symm.trans copy.2)]
  have alone : ∀ a b, IsArray g.heap a → CopyOf g.heap.length more a s.heap.length →
      CopyOf g.heap.length more a b → b = s.heap.length := by
    intro a b array root copy
    by_contra different
    obtain ⟨p, c, k, source, -, field, -⟩ := copied.parent_copy copy (by have := copy.1; omega)
    exact unshared.root a array (first a root) p k (reachable p c source) field
  induction b using Nat.strongRecOn generalizing a b' with
  | ind b ih =>
    by_cases array : IsArray g.heap a
    · by_cases root : b = s.heap.length
      · subst root
        exact (alone a b' array copy copy').symm
      · by_cases root' : b' = s.heap.length
        · subst root'
          exact alone a b array copy' copy
        · obtain ⟨p, c, k, source, before, field, read_⟩ := copied.parent_copy copy (by have := copy.1; omega)
          obtain ⟨p', c', k', source', -, field', read'⟩ := copied.parent_copy copy' (by have := copy'.1; omega)
          obtain ⟨rfl, rfl⟩ := unshared.once a array p k p' k' (reachable p c source) (reachable p' c' source') field field'
          obtain rfl := ih c before source source'
          exact Value.ref.inj (some.inj (read_.symm.trans read'))
    · exact some.inj (((copying.hash a b).mpr ⟨copy, array⟩).symm.trans ((copying.hash a b').mpr ⟨copy', array⟩))

theorem copies_of_unshared (noProto : NoProto g) (unshared : Unshared g) : Copies g := by
  have calling : Calling g [] [] (initial g) g.root :=
    ⟨⟨rfl, fun _ _ => rfl, fun a b => ⟨nofun, fun ⟨copy, _⟩ => nomatch copy.2⟩, by simp⟩, rfl, nodup_nil, by simp,
      by simp⟩
  obtain ⟨t, w, more, done, copied⟩ := deepCopy_copied noProto unshared (g.heap.length + 1) calling (by simp)
  have copying := copied.copying
  have alike := copied.alike
  have complete := copied.complete
  rw [nil_append] at copying alike complete
  have inside : ∀ a b, CopyOf g.heap.length more a b → b < t.heap.length := by
    intro a b copy
    have position := (List.getElem?_eq_some_iff.mp copy.2).1
    rw [copying.length]
    have := copy.1
    omega
  refine ⟨_, t, w, done, ⟨CopyOf g.heap.length more, fun a b b' => copied.one unshared rfl, fun a a' b copy copy' =>
    some.inj (copy.2.symm.trans copy'.2), alike, fun a b copy => ?_⟩, fun a reachable reached => ?_⟩
  · obtain ⟨a', c, d, copy', here, there, both⟩ := complete b copy.1 (inside a b copy)
    obtain rfl := some.inj (copy.2.symm.trans copy'.2)
    exact ⟨c, d, here, there, both⟩
  · obtain ⟨apart, -, made, loose⟩ := deepCopy_made (apart_graph g) (hashed_initial g) done
    have above : ∀ a, Reaches t.heap w a → g.heap.length ≤ a := by
      rintro a ⟨first, rfl, walk⟩
      induction walk with
      | refl => exact (loose first rfl).1
      | tail _ edge ih =>
        obtain ⟨k, field⟩ := edge
        exact (apart.copies _ k _ ih field).1
    exact Nat.not_lt.mpr (above a reached) reachable.lt

/-- The copy is right exactly when every array is referred to once and no object has a field `__proto__`. -/
theorem copies_iff (g : Graph String P) : Copies g ↔ NoProto g ∧ Unshared g :=
  ⟨Copies.unshared, fun ⟨noProto, unshared⟩ => copies_of_unshared noProto unshared⟩

def selfContained : Graph String P where
  heap := [.array [.ref 0]]
  root := .ref 0
  rooted a same := by
    cases same
    exact Nat.zero_lt_one
  closed a k b field := by
    obtain ⟨cell, here, value⟩ := read_eq_some_iff.mp field
    have member := mem_of_getElem? here
    rw [mem_singleton.mp member] at value
    cases k with
    | name text => cases value
    | index i =>
      have inner : Value.ref b ∈ [(.ref 0 : Value P)] := mem_of_getElem? value
      cases mem_singleton.mp inner
      exact Nat.zero_lt_one

/-- Its copy is never at its end. -/
theorem selfContained_not_copied : ¬Copies (selfContained : Graph String Unit) := by
  intro copies
  exact copies.unshared.2.root 0 rfl rfl 0 (.index 0) (reaches_ref _ 0) rfl

end N8n.Utils
