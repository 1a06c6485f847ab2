import N8n.WorkflowChecksum
import Mathlib.Tactic.Common

/-! What the hashed text says of the checked fields. Sorting and writing a value gives a
canonical form, which two values share exactly when the same stands at every path that
does not go through a member `__proto__`. -/

namespace N8n.WorkflowChecksum

open JsonText OrderedMap List Option Prod

/-! ## Contents -/

inductive Step
  | index (i : ℕ)
  | key (key : JsString)
  deriving DecidableEq

/-- What stands at a place of a JSON value. -/
inductive Node
  | null
  | boolean (value : Bool)
  | number (value : NumberText)
  | string (value : JsString)
  | array (length : ℕ)
  | object
  deriving DecidableEq

def Value.node : Value → Option Node
  | .undefined => none
  | .null => some .null
  | .boolean value => some (.boolean value)
  | .number value => some (.number value)
  | .string value => some (.string value)
  | .array items => some (.array items.length)
  | .object _ => some .object

def Value.asItem : Value → Value
  | .undefined => .null
  | value => value

/-- What stands at a path; undefined members are absent. -/
def Value.nodeAt : Value → List Step → Option Node
  | value, [] => value.node
  | .array items, .index i :: path => items[i]?.bind fun item => item.asItem.nodeAt path
  | .object members, .key key :: path => (getEntry key members).bind fun value => value.nodeAt path
  | _, _ :: _ => none

def SameJson (v w : Value) : Prop := ∀ path, v.nodeAt path = w.nodeAt path

/-- Equal as JSON apart from members called `__proto__`. -/
def SameApartFromProto (v w : Value) : Prop :=
  ∀ path, Step.key protoKey ∉ path → v.nodeAt path = w.nodeAt path

/-- Each checked field is absent in both workflows or has the same value in both. -/
def SameFields (same : Value → Value → Prop) (a b : WorkflowSnapshot) : Prop :=
  ∀ field, (a field).isUndefined = true ∧ (b field).isUndefined = true ∨
    (a field).isUndefined = false ∧ (b field).isUndefined = false ∧ same (a field) (b field)

/-! ## Members of objects -/

section Members

variable {α β : Type}

theorem getEntry_map (f : α → β) (key : JsString) (members : List (JsString × α)) :
    getEntry key (members.map fun entry => (entry.1, f entry.2)) = (getEntry key members).map f := by
  induction members with
  | nil => rfl
  | cons entry members ih =>
    simp only [map_cons, getEntry, ih]
    split_ifs <;> rfl

variable {key : JsString} {members : List (JsString × α)}

theorem getEntry_eq_none (absent : key ∉ members.map fst) : getEntry key members = none := by
  induction members with
  | nil => rfl
  | cons entry members ih =>
    rw [map_cons, mem_cons, not_or] at absent
    rw [getEntry, if_neg (Ne.symm absent.1), ih absent.2]

theorem getEntry_mem {value : α} (found : getEntry key members = some value) : (key, value) ∈ members := by
  induction members with
  | nil => cases found
  | cons entry members ih =>
    rw [getEntry] at found
    split_ifs at found with same
    · rw [← same, ← some.inj found]
      exact mem_cons_self
    · exact mem_cons_of_mem _ (ih found)

def membersFor (keys : List JsString) (value : JsString → Option α) : List (JsString × α) :=
  keys.filterMap fun key => (value key).map fun v => (key, v)

theorem getEntry_membersFor (keys : List JsString) (value : JsString → Option α) (key : JsString) :
    getEntry key (membersFor keys value) = if key ∈ keys then value key else none := by
  induction keys with
  | nil => simp [membersFor, getEntry]
  | cons first keys ih =>
    simp only [membersFor, filterMap_cons] at ih ⊢
    by_cases same : first = key
    · subst same
      cases made : value first with
      | none => simp [ih, made]
      | some v => simp [getEntry]
    · cases made : value first with
      | none => simp [ih, Ne.symm same]
      | some v => simp [getEntry, same, ih, Ne.symm same]

theorem membersFor_keys (keys : List JsString) (value : JsString → Option α) :
    ((membersFor keys value).map fst).Sublist keys := by
  induction keys with
  | nil => exact Sublist.refl _
  | cons first keys ih =>
    simp only [membersFor, filterMap_cons] at ih ⊢
    cases value first with
    | none => exact ih.cons first
    | some v => exact ih.cons_cons first

theorem mem_ownKeyOrder {keys : List JsString} : key ∈ ownKeyOrder keys ↔ key ∈ keys := by
  simp only [ownKeyOrder, mem_append, mem_mergeSort, mem_filter]
  cases isIndex key <;> simp

theorem mem_objectKeys : key ∈ objectKeys members ↔ key ∈ members.map fst := by
  rw [objectKeys, mem_ownKeyOrder, memberKeys, mem_dedup]

theorem getEntry_assignMembers (key : JsString) (members : List (JsString × α)) :
    getEntry key (assignMembers (sortKeys (objectKeys members)) members) =
      if key = protoKey then none else getEntry key members := by
  have made := getEntry_membersFor ((sortKeys (objectKeys members)).filter fun key => key ≠ protoKey)
    (fun key => getEntry key members) key
  rw [assignMembers]
  rw [membersFor] at made
  rw [made, sortKeys]
  simp only [mem_filter, mem_mergeSort, mem_objectKeys]
  by_cases proto : key = protoKey
  · simp [proto]
  · by_cases present : key ∈ members.map fst
    · simp [proto, present]
    · simp [proto, present, getEntry_eq_none present]

theorem getEntry_writtenMembers (key : JsString) (members : List (JsString × Option Json)) :
    getEntry key (writtenMembers members) = (getEntry key members).join := by
  have made := getEntry_membersFor (objectKeys members) (fun key => (getEntry key members).join) key
  rw [membersFor] at made
  rw [writtenMembers, made]
  split_ifs with present
  · rfl
  · rw [getEntry_eq_none fun member => present (mem_objectKeys.mpr member)]
    rfl

end Members

theorem sortItems_eq (items : List Value) : sortItems items = items.map sortObjectKeys := by
  induction items with
  | nil => rfl
  | cons item items ih => rw [sortItems, ih, map_cons]

theorem sortMembers_eq (members : List (JsString × Value)) :
    sortMembers members = members.map fun entry => (entry.1, sortObjectKeys entry.2) := by
  induction members with
  | nil => rfl
  | cons entry members ih => rw [sortMembers, ih, map_cons]

theorem writtenItems_eq (items : List Value) :
    writtenItems items = items.map fun item => (written item).getD .null := by
  induction items with
  | nil => rfl
  | cons item items ih => rw [writtenItems, ih, map_cons]

theorem writtenValues_eq (members : List (JsString × Value)) :
    writtenValues members = members.map fun entry => (entry.1, written entry.2) := by
  induction members with
  | nil => rfl
  | cons entry members ih => rw [writtenValues, ih, map_cons]

/-! ## The canonical form -/

def canonical (value : Value) : Option Json := written (sortObjectKeys value)

def canonicalMembers (members : List (JsString × Value)) : List (JsString × Json) :=
  let sorted := sortMembers members
  writtenMembers (writtenValues (assignMembers (sortKeys (objectKeys sorted)) sorted))

theorem canonical_object (members : List (JsString × Value)) :
    canonical (.object members) = some (.object (canonicalMembers members)) := by
  rw [canonical, sortObjectKeys, written]
  rfl

theorem canonical_array (items : List Value) : canonical (.array items) =
      some (.array (items.map fun item => (canonical item).getD .null)) := by
  rw [canonical, sortObjectKeys, written, sortItems_eq, writtenItems_eq, List.map_map]
  rfl

theorem getEntry_canonicalMembers (key : JsString) (members : List (JsString × Value)) :
    getEntry key (canonicalMembers members) =
      if key = protoKey then none else (getEntry key members).bind canonical := by
  rw [canonicalMembers, getEntry_writtenMembers, writtenValues_eq, getEntry_map,
    getEntry_assignMembers, sortMembers_eq, getEntry_map]
  split_ifs
  · rfl
  · cases getEntry key members <;> rfl

def jsonNode : Json → Node
  | .null => .null
  | .boolean value => .boolean value
  | .number value => .number value
  | .string value => .string value
  | .array items => .array items.length
  | .object _ => .object

def jsonNodeAt : Json → List Step → Option Node
  | value, [] => some (jsonNode value)
  | .array items, .index i :: path => items[i]?.bind fun item => jsonNodeAt item path
  | .object members, .key key :: path =>
    (getEntry key members).bind fun value => jsonNodeAt value path
  | _, _ :: _ => none

theorem canonical_asItem (item : Value) : canonical item.asItem = some ((canonical item).getD .null) := by
  cases item with
  | array items => simp only [Value.asItem, canonical_array, getD_some]
  | object members => simp only [Value.asItem, canonical_object, getD_some]
  | undefined => rfl
  | null => rfl
  | boolean value => rfl
  | number value => rfl
  | string value => rfl

/-- The canonical form has the contents of the value, less what stands under `__proto__`. -/
theorem canonical_nodeAt (value : Value) {path : List Step} (apart : Step.key protoKey ∉ path) :
    ((canonical value).bind fun form => jsonNodeAt form path) = value.nodeAt path := by
  induction path generalizing value with
  | nil =>
    cases value with
    | array items => simp [canonical_array, jsonNodeAt, jsonNode, Value.nodeAt, Value.node]
    | object members => simp [canonical_object, jsonNodeAt, jsonNode, Value.nodeAt, Value.node]
    | undefined => rfl
    | null => rfl
    | boolean value => rfl
    | number value => rfl
    | string value => rfl
  | cons step path ih =>
    rw [mem_cons, not_or] at apart
    cases value with
    | array items =>
      rw [canonical_array, bind_some]
      cases step with
      | key key => rfl
      | index i =>
        rw [jsonNodeAt, Value.nodeAt, getElem?_map]
        cases items[i]? with
        | none => rfl
        | some item =>
          rw [map_some, bind_some, bind_some, ← ih _ apart.2, canonical_asItem, bind_some]
    | object members =>
      rw [canonical_object, bind_some]
      cases step with
      | index i => rfl
      | key key =>
        have named : key ≠ protoKey := fun same => apart.1 (congrArg Step.key same.symm)
        rw [jsonNodeAt, Value.nodeAt, getEntry_canonicalMembers, if_neg named]
        cases getEntry key members with
        | none => rfl
        | some value => exact ih value apart.2
    | undefined => cases step <;> rfl
    | null => cases step <;> rfl
    | boolean value => cases step <;> rfl
    | number value => cases step <;> rfl
    | string value => cases step <;> rfl

/-! ## Canonical forms with the same contents -/

/-- The order in which the keys of a sorted object are written. -/
def Before (k l : JsString) : Prop :=
  match arrayIndex k, arrayIndex l with
  | some m, some n => m < n
  | some _, none => True
  | none, some _ => False
  | none, none => k < l

theorem Before.asymm {k l : JsString} (before : Before k l) : ¬Before l k := by
  unfold Before at *
  cases left : arrayIndex k with
  | none =>
    cases right : arrayIndex l with
    | none =>
      simp only [left, right] at before ⊢
      exact lt_asymm before
    | some n => simp only [left, right] at before
  | some m =>
    cases right : arrayIndex l with
    | none => simp only [not_false_iff]
    | some n =>
      simp only [left, right] at before ⊢
      exact lt_asymm before

theorem arrayIndex_injective {k l : JsString} {n : ℕ} (left : arrayIndex k = some n)
    (right : arrayIndex l = some n) : k = l := by
  unfold arrayIndex at left right
  split_ifs at left right with indexed indexed'
  rw [← indexed.2, ← indexed'.2, some.inj left, some.inj right]

/-- Objects throughout have their keys in order, and none of them is `__proto__`. -/
inductive Ordered : Json → Prop
  | null : Ordered .null
  | boolean (value : Bool) : Ordered (.boolean value)
  | number (value : NumberText) : Ordered (.number value)
  | string (value : JsString) : Ordered (.string value)
  | array (items : List Json) : (∀ item ∈ items, Ordered item) → Ordered (.array items)
  | object (members : List (JsString × Json)) : (members.map fst).Pairwise Before →
      protoKey ∉ members.map fst → (∀ entry ∈ members, Ordered entry.2) →
      Ordered (.object members)

variable {keys : List JsString}

theorem sortIndices_before (distinct : keys.Nodup) (indices : ∀ key ∈ keys, isIndex key = true) :
    (keys.mergeSort fun k l => (arrayIndex k).getD 0 ≤ (arrayIndex l).getD 0).Pairwise Before := by
  have sorted : (keys.mergeSort fun k l => (arrayIndex k).getD 0 ≤ (arrayIndex l).getD 0).Pairwise
      fun k l => decide ((arrayIndex k).getD 0 ≤ (arrayIndex l).getD 0) = true :=
    pairwise_mergeSort (fun _ _ _ h h' => decide_eq_true ((of_decide_eq_true h).trans (of_decide_eq_true h')))
      (fun k l => by simpa using Nat.le_total _ _) keys
  have unequal := (mergeSort_perm keys fun k l =>
    (arrayIndex k).getD 0 ≤ (arrayIndex l).getD 0).nodup_iff.mpr distinct
  refine (sorted.and unequal).imp_of_mem fun {k l} left right ⟨le, ne⟩ => ?_
  obtain ⟨m, first⟩ := isSome_iff_exists.mp (indices k (mem_mergeSort.mp left))
  obtain ⟨n, second⟩ := isSome_iff_exists.mp (indices l (mem_mergeSort.mp right))
  have le : m ≤ n := by simpa [first, second] using le
  have ne : m ≠ n := fun same => ne (arrayIndex_injective first (same ▸ second))
  simp only [Before, first, second]
  omega

theorem ownKeyOrder_before (ascending : keys.Pairwise (· < ·)) : (ownKeyOrder keys).Pairwise Before := by
  have named {key : JsString} (member : key ∈ keys.filter fun key => !isIndex key) : arrayIndex key = none := by
    simpa [isIndex] using (mem_filter.mp member).2
  have distinct : keys.Nodup := ascending.imp fun h => ne_of_lt h
  rw [ownKeyOrder, pairwise_append]
  refine ⟨sortIndices_before (distinct.filter _) fun key member => (mem_filter.mp member).2,
    (ascending.filter _).imp_of_mem fun left right less => ?_, fun k indices l others => ?_⟩
  · simpa only [Before, named left, named right] using less
  · have indexed := (mem_filter.mp (mem_mergeSort.mp indices)).2
    obtain ⟨m, first⟩ := isSome_iff_exists.mp indexed
    simp only [Before, first, named others]

variable {α : Type} {members : List (JsString × α)}

theorem assignMembers_keys (keys : List JsString) (members : List (JsString × α)) :
    ((assignMembers keys members).map fst).Sublist keys :=
  (membersFor_keys _ fun key => getEntry key members).trans filter_sublist

theorem sortKeys_ascending (distinct : keys.Nodup) : (sortKeys keys).Pairwise (· < ·) := by
  have sorted : (sortKeys keys).Pairwise fun k l => decide (k ≤ l) = true :=
    pairwise_mergeSort (fun _ _ _ h h' => decide_eq_true ((of_decide_eq_true h).trans (of_decide_eq_true h')))
      (fun k l => by simpa using le_total k l) keys
  have unequal : (sortKeys keys).Nodup := (mergeSort_perm keys _).nodup_iff.mpr distinct
  exact (sorted.and unequal).imp fun ⟨le, ne⟩ => lt_of_le_of_ne (of_decide_eq_true le) ne

theorem ownKeyOrder_nodup (distinct : keys.Nodup) : (ownKeyOrder keys).Nodup := by
  rw [ownKeyOrder, nodup_append]
  refine ⟨(mergeSort_perm _ _).nodup_iff.mpr (distinct.filter _), distinct.filter _, ?_⟩
  rintro k indices l others rfl
  have indexed := (mem_filter.mp (mem_mergeSort.mp indices)).2
  have named := (mem_filter.mp others).2
  rw [indexed] at named
  cases named

theorem canonicalMembers_before (members : List (JsString × Value)) :
    ((canonicalMembers members).map fst).Pairwise Before := by
  rw [canonicalMembers]
  generalize sortMembers members = sorted
  have ascending : ((assignMembers (sortKeys (objectKeys sorted)) sorted).map fst).Pairwise (· < ·) :=
    (sortKeys_ascending (ownKeyOrder_nodup (nodup_dedup _))).sublist (assignMembers_keys _ _)
  generalize assignMembers (sortKeys (objectKeys sorted)) sorted = assigned at ascending ⊢
  have keys : (writtenValues assigned).map fst = assigned.map fst := by
    rw [writtenValues_eq, List.map_map]
    rfl
  have distinct : (assigned.map fst).Nodup := ascending.imp fun h => ne_of_lt h
  have order : objectKeys (writtenValues assigned) = ownKeyOrder (assigned.map fst) := by
    rw [objectKeys, memberKeys, keys, distinct.dedup]
  refine (ownKeyOrder_before ascending).sublist ?_
  rw [← order]
  exact membersFor_keys _ fun key => (getEntry key (writtenValues assigned)).join

theorem nodup_of_before (ordered : keys.Pairwise Before) : keys.Nodup :=
  ordered.imp fun before same => (same ▸ before).asymm (same ▸ before)

theorem getEntry_of_mem (distinct : (members.map fst).Nodup) {entry : JsString × α} (member : entry ∈ members) :
    getEntry entry.1 members = some entry.2 :=
  (mem_entries_iff ⟨members, distinct⟩).mp member

theorem canonical_ordered (value : Value) : ∀ form, canonical value = some form → Ordered form := by
  induction value with
  | undefined => intro form written; cases written
  | null => intro form written; exact some.inj written ▸ .null
  | boolean value => intro form written; exact some.inj written ▸ .boolean value
  | number value => intro form written; exact some.inj written ▸ .number value
  | string value => intro form written; exact some.inj written ▸ .string value
  | array items each =>
    intro form written
    rw [canonical_array] at written
    rw [← some.inj written]
    refine .array _ fun form member => ?_
    obtain ⟨item, among, rfl⟩ := List.mem_map.mp member
    cases made : canonical item with
    | none => exact .null
    | some form => exact each item among form made
  | object members each =>
    intro form written
    rw [canonical_object] at written
    rw [← some.inj written]
    have before := canonicalMembers_before members
    have found (entry : JsString × Json) (member : entry ∈ canonicalMembers members) : entry.1 ≠ protoKey ∧
          ∃ value, (entry.1, value) ∈ members ∧ canonical value = some entry.2 := by
      have here := getEntry_of_mem (nodup_of_before before) member
      rw [getEntry_canonicalMembers] at here
      split_ifs at here with proto
      obtain ⟨value, there, made⟩ := bind_eq_some_iff.mp here
      exact ⟨proto, value, getEntry_mem there, made⟩
    refine .object _ before (fun proto => ?_) fun entry member => ?_
    · obtain ⟨entry, member, same⟩ := List.mem_map.mp proto
      exact (found entry member).1 same
    · obtain ⟨-, value, among, made⟩ := found entry member
      exact each _ among _ made

theorem Ordered.nodeAt_proto {form : Json} (ordered : Ordered form) {path : List Step}
    (through : Step.key protoKey ∈ path) : jsonNodeAt form path = none := by
  induction path generalizing form with
  | nil => cases through
  | cons step path ih =>
    cases ordered with
    | array items each =>
      cases step with
      | key key => rfl
      | index i =>
        rw [jsonNodeAt]
        cases found : items[i]? with
        | none => rfl
        | some item =>
          have later : Step.key protoKey ∈ path := by simpa using through
          exact ih (each item (mem_of_getElem? found)) later
    | object members _ unnamed each =>
      cases step with
      | index i => rfl
      | key key =>
        rw [jsonNodeAt]
        cases found : getEntry key members with
        | none => rfl
        | some value =>
          have member := getEntry_mem found
          have different : protoKey ≠ key := fun same =>
            unnamed (same ▸ mem_map_of_mem member)
          have later : Step.key protoKey ∈ path := by simpa [different] using through
          exact ih (each _ member) later
    | null => cases step <;> rfl
    | boolean value => cases step <;> rfl
    | number value => cases step <;> rfl
    | string value => cases step <;> rfl

theorem mem_keys_iff {key : JsString} : key ∈ members.map fst ↔ (getEntry key members).isSome = true := by
  induction members with
  | nil => simp [getEntry]
  | cons entry members ih =>
    rw [map_cons, mem_cons, ih, getEntry]
    split_ifs with same
    · simp [same]
    · simp [Ne.symm same]

theorem members_ext {members' : List (JsString × α)} (keys : members.map fst = members'.map fst)
    (distinct : (members.map fst).Nodup)
    (same : ∀ key v w, getEntry key members = some v → getEntry key members' = some w → v = w) :
    members = members' := by
  induction members generalizing members' with
  | nil => exact (map_eq_nil_iff.mp keys.symm).symm
  | cons entry members ih =>
    cases members' with
    | nil => cases keys
    | cons entry' members' =>
      obtain ⟨key, value⟩ := entry
      obtain ⟨key', value'⟩ := entry'
      simp only [map_cons, List.cons.injEq] at keys
      rw [map_cons, nodup_cons] at distinct
      obtain ⟨rfl, keys⟩ := keys
      have first : value = value' := same key value value' (by simp [getEntry]) (by simp [getEntry])
      subst first
      rw [ih keys distinct.2 fun other v w found found' => ?_]
      have different : key ≠ other := by
        rintro rfl
        exact distinct.1 (mem_keys_iff.mpr (isSome_iff_exists.mpr ⟨v, found⟩))
      exact same other v w (by simpa [getEntry, different] using found) (by simpa [getEntry, different] using found')

theorem jsonNodeAt_key {members : List (JsString × Json)} (key : JsString) :
    (jsonNodeAt (.object members) [.key key]).isSome = (getEntry key members).isSome := by
  rw [jsonNodeAt]
  cases getEntry key members <;> rfl

theorem Ordered.eq_of_nodeAt {form form' : Json} (ordered : Ordered form)
    (ordered' : Ordered form') (same : ∀ path, jsonNodeAt form path = jsonNodeAt form' path) : form = form' := by
  have top : jsonNode form = jsonNode form' := by
    have := same []
    rwa [jsonNodeAt, jsonNodeAt, some.injEq] at this
  induction form generalizing form' with
  | null => cases form' <;> cases top; rfl
  | boolean value => cases form' <;> cases top; rfl
  | number value => cases form' <;> cases top; rfl
  | string value => cases form' <;> cases top; rfl
  | array items ih =>
    cases form' with
    | array items' =>
      cases ordered with | array _ each =>
      cases ordered' with | array _ each' =>
      have lengths : items.length = items'.length := by
        rwa [jsonNode, jsonNode, Node.array.injEq] at top
      congr 1
      refine ext_getElem lengths fun i inside inside' => ?_
      have below (path : List Step) : jsonNodeAt items[i] path = jsonNodeAt items'[i] path := by
        have := same (.index i :: path)
        rwa [jsonNodeAt, jsonNodeAt, getElem?_eq_getElem inside, getElem?_eq_getElem inside'] at this
      have here := getElem_mem inside
      refine ih _ here (each _ here) (each' _ (getElem_mem inside')) below ?_
      simpa only [jsonNodeAt, some.injEq] using below []
    | _ => cases top
  | object members ih =>
    cases form' with
    | object members' =>
      cases ordered with | object _ before _ each =>
      cases ordered' with | object _ before' _ each' =>
      have present (key : JsString) : key ∈ members.map fst ↔ key ∈ members'.map fst := by
        rw [mem_keys_iff, mem_keys_iff, ← jsonNodeAt_key, ← jsonNodeAt_key, same]
      have perm := (perm_ext_iff_of_nodup (nodup_of_before before) (nodup_of_before before')).mpr present
      have keys := perm.eq_of_pairwise (fun _ _ _ _ h h' => absurd h' h.asymm) before before'
      congr 1
      refine members_ext keys (nodup_of_before before) fun key v w found found' => ?_
      have below (path : List Step) : jsonNodeAt v path = jsonNodeAt w path := by
        have := same (.key key :: path)
        rwa [jsonNodeAt, jsonNodeAt, found, found'] at this
      have here := getEntry_mem found
      refine ih _ here (each _ here) (each' _ (getEntry_mem found')) below ?_
      simpa only [jsonNodeAt, some.injEq] using below []
    | _ => cases top

/-- Two values have one canonical form exactly when they are equal apart from members
called `__proto__`. -/
theorem canonical_eq_iff (v w : Value) : canonical v = canonical w ↔ SameApartFromProto v w := by
  constructor
  · intro same path apart
    rw [← canonical_nodeAt v apart, ← canonical_nodeAt w apart, same]
  · intro same
    have agree (path : List Step) (apart : Step.key protoKey ∉ path) :
        ((canonical v).bind fun form => jsonNodeAt form path) =
          (canonical w).bind fun form => jsonNodeAt form path := by
      rw [canonical_nodeAt v apart, canonical_nodeAt w apart, same path apart]
    have top := agree [] (by simp)
    cases left : canonical v with
    | none =>
      cases right : canonical w with
      | none => rfl
      | some form' => simp [left, right, jsonNodeAt] at top
    | some form =>
      cases right : canonical w with
      | none => simp [left, right, jsonNodeAt] at top
      | some form' =>
        have ordered := canonical_ordered v form left
        have ordered' := canonical_ordered w form' right
        congr 1
        refine ordered.eq_of_nodeAt ordered' fun path => ?_
        by_cases through : Step.key protoKey ∈ path
        · rw [ordered.nodeAt_proto through, ordered'.nodeAt_proto through]
        · simpa only [left, right, bind_some] using agree path through

/-! ## The payload -/

theorem stringify_eq_iff (v w : Value) :
    stringify (sortObjectKeys v) = stringify (sortObjectKeys w) ↔ SameApartFromProto v w := by
  rw [← canonical_eq_iff]
  exact (map_injective Json.text_injective).eq_iff

theorem mem_fields (field : ChecksumField) : field ∈ WORKFLOW_CHECKSUM_FIELDS := by
  cases field <;> decide

theorem key_injective {field field' : ChecksumField} (same : field.key = field'.key) : field = field' := by
  have table : ∀ f ∈ WORKFLOW_CHECKSUM_FIELDS, ∀ g ∈ WORKFLOW_CHECKSUM_FIELDS, f.key = g.key → f = g := by decide
  exact table field (mem_fields field) field' (mem_fields field') same

theorem key_ne_proto (field : ChecksumField) : field.key ≠ protoKey := by
  have table : ∀ f ∈ WORKFLOW_CHECKSUM_FIELDS, f.key ≠ protoKey := by decide
  exact table field (mem_fields field)

theorem nodeAt_undefined {value : Value} (undefined : value.isUndefined = true) (path : List Step) :
    value.nodeAt path = none := by
  cases value with
  | undefined =>
    cases path with
    | nil => rfl
    | cons step path => cases step <;> rfl
  | _ => cases undefined

theorem node_eq_none_iff (value : Value) : value.nodeAt [] = none ↔ value.isUndefined = true := by
  cases value <;> simp [Value.nodeAt, Value.node, Value.isUndefined]

section Payload

variable (workflow : WorkflowSnapshot)

theorem getEntry_fields (fields : List ChecksumField) (key : JsString) : getEntry key (fields.filterMap fun field =>
        if (workflow field).isUndefined then none else some (field.key, workflow field)) =
      ((fields.filter fun field => !(workflow field).isUndefined).find? fun field =>
        field.key = key).map workflow := by
  induction fields with
  | nil => rfl
  | cons field fields ih =>
    cases undefined : (workflow field).isUndefined with
    | true => simpa [undefined] using ih
    | false =>
      simp only [filterMap_cons, undefined, Bool.false_eq_true, if_false, getEntry, ih,
        Bool.not_false, filter_cons_of_pos, find?_cons]
      split_ifs with same <;> simp [same]

theorem payload_nodeAt_field (field : ChecksumField) (path : List Step) :
    (checksumPayload workflow).nodeAt (.key field.key :: path) = (workflow field).nodeAt path := by
  rw [checksumPayload, Value.nodeAt, getEntry_fields]
  cases undefined : (workflow field).isUndefined with
  | true =>
    rw [nodeAt_undefined undefined, find?_eq_none.mpr]
    · rfl
    · intro other member same
      have same : other.key = field.key := by simpa using same
      rw [key_injective same] at member
      simp [undefined] at member
  | false =>
    have among : field ∈ WORKFLOW_CHECKSUM_FIELDS.filter fun field =>
        !(workflow field).isUndefined := by
      rw [mem_filter]
      exact ⟨mem_fields field, by simp [undefined]⟩
    cases found : (WORKFLOW_CHECKSUM_FIELDS.filter fun field =>
        !(workflow field).isUndefined).find? fun other => other.key = field.key with
    | none => exact (find?_eq_none.mp found field among (decide_eq_true rfl)).elim
    | some other =>
      have same : other.key = field.key := by simpa using find?_some found
      rw [key_injective same]
      rfl

theorem payload_nodeAt_other {key : JsString} (other : ∀ field : ChecksumField, field.key ≠ key)
    (path : List Step) : (checksumPayload workflow).nodeAt (.key key :: path) = none := by
  rw [checksumPayload, Value.nodeAt, getEntry_fields, find?_eq_none.mpr]
  · rfl
  · intro field _
    simpa using other field

end Payload

section Snapshots

variable {a b : WorkflowSnapshot}

theorem sameFields_iff {same : Value → Value → Prop} (nodes : ∀ v w, same v w → v.nodeAt [] = w.nodeAt [])
    (absent : ∀ v w, v.isUndefined = true → w.isUndefined = true → same v w) :
    SameFields same a b ↔ ∀ field, same (a field) (b field) := by
  refine forall_congr' fun field => ⟨?_, fun agree => ?_⟩
  · rintro (⟨left, right⟩ | ⟨-, -, agree⟩)
    · exact absent _ _ left right
    · exact agree
  · have top := nodes _ _ agree
    cases left : (a field).isUndefined with
    | true =>
      rw [(node_eq_none_iff _).mpr left] at top
      exact .inl ⟨rfl, (node_eq_none_iff _).mp top.symm⟩
    | false =>
      refine .inr ⟨rfl, ?_, agree⟩
      cases right : (b field).isUndefined with
      | false => rfl
      | true =>
        rw [(node_eq_none_iff _).mpr right, node_eq_none_iff, left] at top
        cases top

theorem sameFields_json : SameFields SameJson a b ↔ ∀ field, SameJson (a field) (b field) :=
  sameFields_iff (fun _ _ same => same []) fun _ _ left right path => by
    rw [nodeAt_undefined left, nodeAt_undefined right]

theorem sameFields_apart : SameFields SameApartFromProto a b ↔ ∀ field, SameApartFromProto (a field) (b field) :=
  sameFields_iff (fun _ _ same => same [] (by simp)) fun _ _ left right path _ => by
    rw [nodeAt_undefined left, nodeAt_undefined right]

theorem serializedPayload_eq_iff : serializedPayload a = serializedPayload b ↔ SameFields SameApartFromProto a b := by
  rw [serializedPayload, serializedPayload, stringify_eq_iff, sameFields_apart]
  constructor
  · intro same field path apart
    have through : Step.key protoKey ∉ Step.key field.key :: path := by
      rw [mem_cons, not_or]
      exact ⟨fun equal => key_ne_proto field (Step.key.inj equal).symm, apart⟩
    rw [← payload_nodeAt_field a, ← payload_nodeAt_field b, same _ through]
  · intro same path apart
    cases path with
    | nil => rfl
    | cons step path =>
      rw [mem_cons, not_or] at apart
      cases step with
      | index i => rfl
      | key key =>
        by_cases known : ∃ field : ChecksumField, field.key = key
        · obtain ⟨field, rfl⟩ := known
          rw [payload_nodeAt_field, payload_nodeAt_field, same field path apart.2]
        · have other : ∀ field : ChecksumField, field.key ≠ key := fun field equal =>
            known ⟨field, equal⟩
          rw [payload_nodeAt_other a other, payload_nodeAt_other b other]

end Snapshots

/-- The hashed text determines the checked content of two workflows exactly when these do
not differ in nothing but members called `__proto__`. -/
theorem checksum_text_determines (a b : WorkflowSnapshot) :
    (serializedPayload a = serializedPayload b ↔ SameFields SameJson a b) ↔
      (SameFields SameApartFromProto a b → SameFields SameJson a b) := by
  rw [serializedPayload_eq_iff]
  refine ⟨fun iff => iff.mp, fun determined => ⟨determined, fun same => ?_⟩⟩
  rw [sameFields_json] at same
  rw [sameFields_apart]
  exact fun field path _ => same field path

section Examples

def workflowWithMeta (value : Value) : WorkflowSnapshot
  | .«meta» => value
  | _ => .undefined

/-- A member `__proto__`, as `JSON.parse` makes it, is not in the hashed text. -/
theorem proto_member_missed : ¬ ∀ a b : WorkflowSnapshot,
      serializedPayload a = serializedPayload b ↔ SameFields SameJson a b := by
  intro determines
  let a := workflowWithMeta (.object [(protoKey, .boolean true)])
  let b := workflowWithMeta (.object [])
  have same : serializedPayload a = serializedPayload b := by decide +kernel
  have content := sameFields_json.mp ((determines a b).mp same) .«meta» [.key protoKey]
  cases content

end Examples

end N8n.WorkflowChecksum
