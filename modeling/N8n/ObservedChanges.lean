import N8n.ObservableObject
import Mathlib.Tactic.Common

/-! Changes of observed data. While the root is not marked nothing has been written and
only proxies have been handed out; once it is marked it stays so, unless the mark itself
is written. -/

namespace N8n.ObservableObject

open PlainData List Option OrderedMap

/-- The root carries the property that `create` defines, with this value. -/
def Marked (value : Value) (s : Observed) : Prop :=
  0 < s.roots ∧ ∃ t, s.targets root = some t ∧ t.dataChanged = some value

abbrev changed : Value := .prim (.boolean true)

/-- A write that leaves the mark alone: under another key, or the mark itself. -/
def KeepsMark (key : Key) (v : Value) : Prop := key = dataChangedKey → v = changed

section Marks

variable {toLength : Value → Option ℕ} {s : Observed} {key : Key} {v value : Value}

theorem Marked.modify (marked : Marked changed s) (a : Addr) {change : Target → Option Target}
    (kept : ∀ t t', t.dataChanged = some changed → change t = some t' → t'.dataChanged = some changed) :
    Marked changed (s.modify a change).1 := by
  obtain ⟨roots, t, found, mark⟩ := marked
  simp only [Observed.modify]
  split
  · rename_i t' taken
    refine ⟨roots, ?_⟩
    by_cases here : a = root
    · subst here
      rw [found, bind_some] at taken
      exact ⟨t', s.update_targets_self root t', kept t t' mark taken⟩
    · exact ⟨t, (s.update_targets_ne t' (Ne.symm here)).trans found, mark⟩
  · exact ⟨roots, t, found, mark⟩

theorem Target.put_marked {t t' : Target} {length : Option ℕ}
    (keeps : KeepsMark key v) (mark : t.dataChanged = some changed) (taken : t.put key v length = some t') :
    t'.dataChanged = some changed := by
  simp only [Target.put] at taken
  split_ifs at taken with hidden
  · have same : key = dataChangedKey := by simpa [Target.isHidden, mark] using hidden
    rw [← some.inj taken, keeps same]
  · obtain ⟨cell, -, rfl⟩ := map_eq_some_iff.mp taken
    exact mark

theorem Target.delete_marked {t t' : Target} (mark : t.dataChanged = some changed) (taken : t.delete key = some t') :
    t'.dataChanged = some changed := by
  simp only [Target.delete] at taken
  split_ifs at taken
  obtain ⟨cell, -, rfl⟩ := map_eq_some_iff.mp taken
  exact mark

theorem Marked.put (marked : Marked changed s) (a : Addr) (keeps : KeepsMark key v) :
    Marked changed (s.put toLength a key v).1 :=
  marked.modify a fun _ _ mark taken => Target.put_marked keeps mark taken

theorem Marked.setPrototype (marked : Marked changed s) (stack : ℕ) (a : Addr) (v : Value) :
    Marked changed (s.setPrototype stack a v).1 := by
  unfold Observed.setPrototype
  split
  · split
    · exact marked
    · exact marked.modify a fun t t' mark taken => some.inj taken ▸ mark
  · exact marked.modify a fun t t' mark taken => some.inj taken ▸ mark
  · exact marked.modify a fun t t' mark taken => some.inj taken ▸ mark
  · exact marked

theorem Marked.assign (marked : Marked changed s) (stack : ℕ) (a receiver : Addr) (keeps : KeepsMark key v) :
    Marked changed (s.assign toLength stack a receiver key v).1 := by
  induction stack generalizing s a receiver key v with
  | zero => exact marked
  | succ stack ih =>
    simp only [Observed.assign]
    cases s.targets a with
    | none => exact marked
    | some t =>
      simp only
      split
      · exact marked.put receiver keeps
      · cases t.prototype with
        | null => exact marked.put receiver keeps
        | builtin ofArray =>
          simp only
          split
          · exact marked.setPrototype stack receiver v
          · exact marked.put receiver keeps
        | object b =>
          simp only
          split
          · cases s.marks stack b key v with
            | none => exact marked
            | some marks =>
              cases marks with
              | false => exact ih marked b b keeps
              | true =>
                have next := ih marked root root (fun _ => rfl : KeepsMark dataChangedKey changed)
                simp only
                split
                · exact ih next b b keeps
                · exact next
          · exact ih marked b receiver keeps

theorem Marked.mark (toLength : Value → Option ℕ) (marked : Marked value s) (stack : ℕ) :
    Marked changed (s.mark toLength stack).1 ∧ (s.mark toLength stack).2 = true := by
  obtain ⟨roots, t, found, mark⟩ := marked
  have hidden : t.isHidden dataChangedKey = true := by simp [Target.isHidden, mark]
  have own : (t.getOwn dataChangedKey).isSome = true := by simp [Target.getOwn, hidden, mark]
  simp only [Observed.mark, Observed.assign, found, own, if_true, Observed.put, Observed.modify,
    bind_some, Target.put, hidden]
  exact ⟨⟨roots, _, s.update_targets_self root _, rfl⟩, trivial⟩

theorem Marked.write (marked : Marked value s) (written : Written) : Marked value (s.write written).2 := by
  obtain ⟨roots, t, found, mark⟩ := marked
  cases written with
  | undefined => exact ⟨roots, t, found, mark⟩
  | held i => exact ⟨roots, t, found, mark⟩
  | json json =>
    refine ⟨Nat.succ_pos _, t, ?_, mark⟩
    have old : root.root ≠ s.roots := roots.ne
    simpa [Observed.write, old] using found

theorem Marked.setTrap (marked : Marked changed s) (stack : ℕ) (a : Addr) (keeps : KeepsMark key v) :
    Marked changed (s.setTrap toLength stack a key v) := by
  unfold Observed.setTrap
  split
  · exact marked
  · exact marked.assign _ a a keeps
  · have next := (marked.mark toLength stack).1
    simp only
    split
    · exact next.assign _ a a keeps
    · exact next

end Marks

/-- The operation sets a property called `__dataChanged`. -/
def Op.setsMark (op : Op) : Bool :=
  match op.action with
  | .set key _ => key = dataChangedKey
  | .get _ => false
  | .delete _ => false

section Steps

variable {toLength : Value → Option ℕ} {stack : ℕ} {s : Observed} {op : Op}

theorem Op.keepsMark {key : Key} {written : Written} (kept : op.setsMark = false)
    (taken : op.action = .set key written) (v : Value) : KeepsMark key v := by
  intro same
  simp [Op.setsMark, taken, same] at kept

theorem Marked.step (marked : Marked changed s) (kept : op.setsMark = false) :
    Marked changed (s.step toLength stack op) := by
  unfold Observed.step
  split
  · rename_i a _
    cases action : op.action with
    | get key =>
      simp only [Observed.act]
      split <;> exact marked
    | set key written =>
      have next := marked.write written
      have keeps := Op.keepsMark kept action (s.write written).1
      simp only [Observed.act]
      split
      · exact next.setTrap stack a keeps
      · exact next.assign _ a a keeps
    | delete key =>
      simp only [Observed.act, Observed.deletePropertyTrap]
      have gone (s : Observed) (marked : Marked changed s) : Marked changed (s.modify a fun t => t.delete key).1 :=
        marked.modify a fun _ _ mark taken => Target.delete_marked mark taken
      split
      · have next := (marked.mark toLength stack).1
        split
        · exact gone _ next
        · exact next
      · exact gone s marked
  · exact marked

theorem Marked.run (marked : Marked changed s) (ops : List Op)
    (kept : ∀ op ∈ ops, op.setsMark = false) : Marked changed (s.run toLength stack ops) := by
  unfold Observed.run
  induction ops generalizing s with
  | nil => exact marked
  | cons op ops ih =>
    rw [forall_mem_cons] at kept
    exact ih (marked.step kept.1) kept.2

end Steps

/-! ## Before the first change -/

/-- No object of the value has a property called `__dataChanged`. -/
def Unreserved (json : Json) : Prop :=
  ∀ path inner, json.valueAt path = some inner → inner.entries.get dataChangedKey = none

theorem valueAt_append (json : Json) (path front : List Key) :
    json.valueAt (path ++ front) = (json.valueAt front).bind fun inner => inner.valueAt path := by
  induction path with
  | nil => simp [Json.valueAt]
  | cons key path ih =>
    rw [cons_append, Json.valueAt, ih, Option.bind_assoc]
    rfl

theorem unreserved_of_entries {json : Json} (here : json.entries.get dataChangedKey = none)
    (inside : ∀ key inner, json.entries.get key = some inner → Unreserved inner) : Unreserved json := by
  intro path inner found
  rcases eq_nil_or_concat path with rfl | ⟨path, key, rfl⟩
  · rw [← some.inj found]
    exact here
  · rw [concat_eq_append, valueAt_append] at found
    obtain ⟨child, entry, below⟩ := bind_eq_some_iff.mp found
    exact inside key child entry path inner below
variable {entries : List (Key × Json)}

theorem mem_of_get_foldl {own : OrderedMap Key Json} {key : Key} {inner : Json}
    (found : (entries.foldl (fun own entry => own.set entry.1 entry.2) own).get key = some inner) :
    own.get key = some inner ∨ (key, inner) ∈ entries := by
  induction entries generalizing own with
  | nil => exact .inl found
  | cons entry entries ih =>
    rcases ih found with before | later
    · rw [get_set] at before
      split_ifs at before with same
      · right
        rw [same, ← some.inj before]
        exact mem_cons_self
      · exact .inl before
    · exact .inr (mem_cons_of_mem _ later)

theorem unreserved_object (clean : ∀ entry ∈ entries, entry.1 ≠ dataChangedKey ∧ Unreserved entry.2) :
    Unreserved (.object entries) := by
  have among {key : Key} {inner : Json}
      (found : (Json.object entries).entries.get key = some inner) : (key, inner) ∈ entries := by
    rcases mem_of_get_foldl found with none_before | member
    · cases none_before
    · exact member
  refine unreserved_of_entries ?_ fun key inner found => (clean _ (among found)).2
  rw [eq_none_iff_forall_ne_some]
  intro inner found
  exact (clean _ (among found)).1 rfl

theorem unreserved_prim (p : Prim) : Unreserved (.prim p) :=
  unreserved_of_entries rfl fun _ _ entry => by cases entry

/-- Nothing has been written, and every object that was read is behind its proxy. -/
structure Untouched (start s : Observed) : Prop where
  targets : s.targets = start.targets
  roots : s.roots = start.roots
  wrapped : s.wrapped = start.wrapped
  ignoreEmptyOnFirstChild : s.ignoreEmptyOnFirstChild = start.ignoreEmptyOnFirstChild
  handed : ∀ a, Value.plain a ∈ s.handles → start.wrapped a = true

section Created

variable {target : List (Key × Json)} {ignoreEmptyOnFirstChild : Bool} {key : Key} {t : Target} {json : Json}

theorem inherited_ne_plain {ofArray : Bool} {v : Value} (found : inherited ofArray key = some v) (b : Addr) :
    v ≠ .plain b := by
  rintro rfl
  cases key with
  | index n => cases found
  | name text =>
    simp only [inherited] at found
    split_ifs at found <;> cases found

theorem defineDataChanged_of_unreserved (unreserved : t.cell.own.get dataChangedKey = none) :
    t.defineDataChanged = { t with dataChanged := some (.prim (.boolean false)) } := by
  simp only [Target.defineDataChanged, unreserved]

/-- What `create` leaves at a wrapped address. -/
theorem createdTarget_wrapped (unreserved : Unreserved json) {a : Addr}
    (found : createdTarget json a = some t) (wrapped : wrappedAt json a.path = true) :
    ∃ inner, json.valueAt a.path = some inner ∧ a.root = 0 ∧
      t = ⟨inner.cell a, some (.prim (.boolean false)), .builtin inner.isArray⟩ := by
  simp only [createdTarget] at found
  split_ifs at found with first
  simp only [Json.cellAt, Option.map_map, map_eq_some_iff, filter_eq_some_iff] at found
  obtain ⟨inner, ⟨there, -⟩, made⟩ := found
  refine ⟨inner, there, first, ?_⟩
  have free : (inner.cell a).own.get dataChangedKey = none := by
    simp [Json.cell, get_mapKeyed, unreserved _ _ there]
  simp only [Function.comp_apply, Target.plain] at made
  rw [← made, defineDataChanged_of_unreserved free]
  rfl

theorem createdTarget_root (unreserved : Unreserved (.object target)) : createdTarget (.object target) root =
      some ⟨(Json.object target).cell root, some (.prim (.boolean false)), .builtin false⟩ := by
  have made : createdTarget (.object target) root =
      some (Target.plain ((Json.object target).cell root)).defineDataChanged := rfl
  have free : ((Json.object target).cell root).own.get dataChangedKey = none := by
    simp [Json.cell, get_mapKeyed, unreserved [] _ rfl]
  rw [made, defineDataChanged_of_unreserved free]
  rfl

theorem create_marked (unreserved : Unreserved (.object target)) :
    Marked (.prim (.boolean false)) (create target ignoreEmptyOnFirstChild) :=
  ⟨Nat.one_pos, _, createdTarget_root unreserved, rfl⟩

theorem create_untouched (target : List (Key × Json)) (ignoreEmptyOnFirstChild : Bool) :
    Untouched (create target ignoreEmptyOnFirstChild) (create target ignoreEmptyOnFirstChild) := by
  refine ⟨rfl, rfl, rfl, rfl, fun a handed => ?_⟩
  rw [Value.plain.inj (mem_singleton.mp handed)]
  rfl

theorem Json.value_eq_plain {a b : Addr} (stored : json.value a = .plain b) : b = a ∧ json.isCompound = true := by
  cases json with
  | prim p => cases stored
  | array items => exact ⟨(Value.plain.inj stored).symm, rfl⟩
  | object entries => exact ⟨(Value.plain.inj stored).symm, rfl⟩

theorem lookup_wrapped (unreserved : Unreserved (.object target)) {s : Observed}
    (untouched : Untouched (create target ignoreEmptyOnFirstChild) s) {a b : Addr}
    (wrapped : (create target ignoreEmptyOnFirstChild).wrapped a = true) {stack : ℕ}
    (read : s.lookup a (stack + 1) a key = some (.plain b)) :
    (create target ignoreEmptyOnFirstChild).wrapped b = true := by
  simp only [Observed.lookup, untouched.targets] at read
  obtain ⟨t, found, read⟩ := bind_eq_some_iff.mp read
  simp only [create, Bool.and_eq_true, decide_eq_true_eq] at wrapped
  obtain ⟨inner, there, first, rfl⟩ := createdTarget_wrapped unreserved found wrapped.2
  simp only [Observed.prototypeOf, untouched.targets, found, map_some] at read
  split at read
  · rename_i v own
    rw [some.inj read] at own
    simp only [Target.getOwn, Cell.getOwn] at own
    split_ifs at own
    · cases own
    · cases own
    · simp only [Json.cell, get_mapKeyed, map_eq_some_iff] at own
      obtain ⟨child, entry, stored⟩ := own
      obtain ⟨rfl, compound⟩ := Json.value_eq_plain stored
      have reached : (Json.object target).valueAt (key :: a.path) = some child := by
        rw [Json.valueAt, there]
        exact entry
      simp only [create, Addr.child, first, decide_true, Bool.true_and, wrappedAt, wrapped.2,
        reached, any_some, compound, unreserved _ _ reached, isNone_none]
  · split_ifs at read
    · cases read
    · cases text : inherited inner.isArray key with
      | none => simp [text] at read
      | some v =>
        simp only [text, getD_some] at read
        exact absurd (some.inj read) (inherited_ne_plain text b)

end Created

section Run

variable {toLength : Value → Option ℕ} {stack : ℕ} {target : List (Key × Json)} {s : Observed}
variable {op : Op}

theorem Untouched.marked (unreserved : Unreserved (.object target))
    (untouched : Untouched (create target false) s) : Marked (.prim (.boolean false)) s := by
  have start : Marked (.prim (.boolean false)) (create target false) := create_marked unreserved
  obtain ⟨roots, t, found, mark⟩ := start
  exact ⟨untouched.roots ▸ roots, t, untouched.targets ▸ found, mark⟩

theorem marks_of_not_ignoring (plain : s.ignoreEmptyOnFirstChild = false) (a : Addr) (key : Key)
    (v : Value) : s.marks stack a key v = some true := by
  simp [Observed.marks, plain]

theorem write_wrapped (written : Written) : (s.write written).2.wrapped = s.wrapped := by
  cases written <;> rfl

theorem write_ignoreEmptyOnFirstChild (written : Written) :
    (s.write written).2.ignoreEmptyOnFirstChild = s.ignoreEmptyOnFirstChild := by
  cases written <;> rfl

theorem Untouched.step (unreserved : Unreserved (.object target))
    (untouched : Untouched (create target false) s) (kept : op.setsMark = false) :
    Untouched (create target false) (s.step toLength stack op) ∨ Marked changed (s.step toLength stack op) := by
  have marked := untouched.marked unreserved
  unfold Observed.step
  split
  · rename_i a held
    have wrapped := untouched.handed a (mem_of_getElem? held)
    have wrapped' : s.wrapped a = true := by rw [untouched.wrapped, wrapped]
    cases action : op.action with
    | get key =>
      left
      simp only [Observed.act]
      split
      · rename_i v read
        refine { untouched with handed := fun b member => ?_ }
        rcases mem_append.mp member with before | now
        · exact untouched.handed b before
        · rw [← mem_singleton.mp now] at read
          exact lookup_wrapped unreserved untouched wrapped read
      · exact untouched
    | set key written =>
      right
      have next := (marked.write written).mark toLength stack
      have ignoring : (s.write written).2.ignoreEmptyOnFirstChild = false := by
        rw [write_ignoreEmptyOnFirstChild, untouched.ignoreEmptyOnFirstChild]
        rfl
      simp only [Observed.act, write_wrapped, wrapped', if_true, Observed.setTrap,
        marks_of_not_ignoring ignoring, next.2]
      exact next.1.assign _ a a (Op.keepsMark kept action _)
    | delete key =>
      right
      have next := marked.mark toLength stack
      simp only [Observed.act, wrapped', if_true, Observed.deletePropertyTrap, next.2]
      exact next.1.modify a fun _ _ mark taken => Target.delete_marked mark taken
  · exact .inl untouched

theorem Untouched.run (unreserved : Unreserved (.object target))
    (untouched : Untouched (create target false) s) (ops : List Op) (kept : ∀ op ∈ ops, op.setsMark = false) :
    Untouched (create target false) (s.run toLength stack ops) ∨ Marked changed (s.run toLength stack ops) := by
  induction ops generalizing s with
  | nil => exact .inl untouched
  | cons op ops ih =>
    rw [forall_mem_cons] at kept
    have moved : Untouched (create target false) (s.step toLength stack op) ∨
        Marked changed (s.step toLength stack op) := untouched.step unreserved kept.1
    rcases moved with same | marked
    · exact ih same kept.2
    · exact .inr (marked.run ops kept.2)

theorem content_congr {s' : Observed} (same : s.targets = s'.targets) : s.content = s'.content := by
  have nodes (v : Value) (path : List Key) : s.nodeAt v path = s'.nodeAt v path := by
    induction path generalizing v with
    | nil => cases v <;> simp only [Observed.nodeAt, Observed.node, same]
    | cons key path ih => cases v <;> simp only [Observed.nodeAt, same, ih]
  exact funext fun path => nodes _ path

theorem Marked.dataChanged {value : Value} (marked : Marked value s) : s.dataChanged = some value := by
  obtain ⟨_, t, found, mark⟩ := marked
  simp [Observed.dataChanged, found, Target.getOwn, Target.isHidden, mark]

theorem run_append (earlier later : List Op) :
    s.run toLength stack (earlier ++ later) = (s.run toLength stack earlier).run toLength stack later :=
  foldl_append

end Run

/-- A change of the content is noticed at once and for good, where the name
`__dataChanged` is left to the observer. -/
theorem observable_changes_noticed (toLength : Value → Option ℕ) (stack : ℕ)
    (target : List (Key × Json)) (unreserved : Unreserved (.object target))
    (earlier later : List Op) (kept : ∀ op ∈ earlier ++ later, op.setsMark = false)
    (differs : ((create target false).run toLength stack earlier).content ≠ (create target false).content) :
    ((create target false).run toLength stack (earlier ++ later)).dataChanged = some changed := by
  rw [run_append]
  have before : ∀ op ∈ earlier, op.setsMark = false := fun op h => kept op (mem_append_left _ h)
  have after : ∀ op ∈ later, op.setsMark = false := fun op h => kept op (mem_append_right _ h)
  rcases (create_untouched target false).run unreserved earlier before with same | marked
  · exact absurd (content_congr same.targets) differs
  · exact (marked.run later after).dataChanged

section Examples

def setNumber (handle : ℕ) (name : String) (n : ℚ) : Op :=
  ⟨handle, .set (.name name) (.json (.prim (.number n)))⟩

def getName (handle : ℕ) (name : String) : Op := ⟨handle, .get (.name name)⟩

/-- `a: 1` at the root, and `b: 1` in the object `c`. -/
def nested : List (Key × Json) :=
  [(.name "a", .prim (.number 1)), (.name "c", .object [(.name "b", .prim (.number 1))])]

/-- The object `c` has a property called `__dataChanged`. -/
def reserved : List (Key × Json) :=
  [(.name "c", .object [(.name "b", .prim (.number 1)), (dataChangedKey, .prim (.boolean true))])]

def writeNested : List Op := [getName 0 "c", setNumber 1 "b" 2]

def run (target : List (Key × Json)) (ops : List Op) : Observed :=
  (create target false).run (fun _ => none) 1 ops

theorem nested_unreserved : Unreserved (.object nested) := by
  have inner : Unreserved (.object [(.name "b", .prim (.number 1))]) := by
    refine unreserved_object fun entry member => ?_
    rw [mem_singleton.mp member]
    exact ⟨by decide, unreserved_prim _⟩
  refine unreserved_object fun entry member => ?_
  rw [nested, mem_cons, mem_singleton] at member
  rcases member with rfl | rfl
  · exact ⟨by decide, unreserved_prim _⟩
  · exact ⟨by decide, inner⟩

theorem nested_change_noticed : (run nested (writeNested ++ [getName 0 "a"])).dataChanged = some changed := by
  refine observable_changes_noticed (fun _ => none) 1 nested nested_unreserved writeNested
    [getName 0 "a"] (by decide) fun same => ?_
  exact absurd (congrFun same [.name "c", .name "b"]) (by decide)

/-- A change goes unnoticed below a key `__dataChanged`, and after the mark is reset. -/
theorem change_unnoticed : ((run reserved writeNested).content ≠ (create reserved false).content ∧
      (run reserved writeNested).dataChanged ≠ some changed) ∧
    ((run nested [setNumber 0 "a" 2]).content ≠ (create nested false).content ∧ (run nested ([setNumber 0 "a" 2] ++
        [⟨0, .set dataChangedKey (.json (.prim (.boolean false)))⟩])).dataChanged ≠ some changed) := by
  refine ⟨⟨fun same => ?_, by decide⟩, fun same => ?_, by decide⟩
  · exact absurd (congrFun same [.name "c", .name "b"]) (by decide)
  · exact absurd (congrFun same [.name "a"]) (by decide)

end Examples

end N8n.ObservableObject
