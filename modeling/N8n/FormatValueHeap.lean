import Mathlib
import N8n.FormatValueSyntax
import N8n.SdkConfinement

/-! Values of the interpreter that stand for JSON values, and the operations of the heap
by which the evaluation of a literal builds them. -/

namespace N8n.FormatValue

open Traced Sdk List Option OrderedMap

section Representation

variable {ν : Type} [JsNumber ν]

mutual

/-- The value is the JSON value, built from objects that `own` says are its own: plain
objects and arrays with nothing but its entries and items. -/
def Represents (host : Host ν) (objects : Addr → Option (Obj ν)) (own : Addr → Prop) : Json ν → Value ν → Prop
  | .null, value => value = .null
  | .boolean expected, value => value = .boolean expected
  | .number expected, value => ∃ number, value = .number number ∧ JsNumber.equal number expected = true
  | .string expected, value => value = .string expected
  | .array items, value => ∃ addr object, value = .object addr ∧ own addr ∧ objects addr = some object ∧
      object.isArray = true ∧ object.prototypes = [host.arrayPrototype, host.objectPrototype] ∧
      ∃ slots, object.properties.entries =
          ("length", ⟨.data (.number (JsNumber.ofNat items.length)) true, false⟩) :: slots ∧
        RepresentsItems host objects own 0 items slots
  | .object entries, value => ∃ addr object, value = .object addr ∧ own addr ∧ objects addr = some object ∧
      object.isArray = false ∧ object.prototypes = [host.objectPrototype] ∧
      RepresentsEntries host objects own entries object.properties.entries

def RepresentsItems (host : Host ν) (objects : Addr → Option (Obj ν)) (own : Addr → Prop) :
    (index : ℕ) → List (Json ν) → List (String × Slot ν) → Prop
  | _, [], slots => slots = []
  | index, item :: items, slots => ∃ value rest, slots = (toString index, ⟨.data value true, true⟩) :: rest ∧
      Represents host objects own item value ∧ RepresentsItems host objects own (index + 1) items rest

def RepresentsEntries (host : Host ν) (objects : Addr → Option (Obj ν)) (own : Addr → Prop) :
    List (String × Json ν) → List (String × Slot ν) → Prop
  | [], slots => slots = []
  | (key, item) :: entries, slots => ∃ value rest, slots = (key, ⟨.data value true, true⟩) :: rest ∧
      Represents host objects own item value ∧ RepresentsEntries host objects own entries rest

end

variable {host : Host ν} {objects others : Addr → Option (Obj ν)} {own wider : Addr → Prop}
  {slots : List (String × Slot ν)}

theorem representsItems_mono {items : List (Json ν)}
    (each : ∀ item ∈ items, ∀ value, Represents host objects own item value →
      Represents host others wider item value) {index : ℕ}
    (represents : RepresentsItems host objects own index items slots) :
    RepresentsItems host others wider index items slots := by
  induction items generalizing index slots with
  | nil => exact represents
  | cons item items ih =>
    simp only [forall_mem_cons] at each
    obtain ⟨value, rest, same, first, later⟩ := represents
    exact ⟨value, rest, same, each.1 value first, ih each.2 later⟩

theorem representsEntries_mono {entries : List (String × Json ν)}
    (each : ∀ entry ∈ entries, ∀ value, Represents host objects own entry.2 value →
      Represents host others wider entry.2 value) (represents : RepresentsEntries host objects own entries slots) :
    RepresentsEntries host others wider entries slots := by
  induction entries generalizing slots with
  | nil => exact represents
  | cons entry entries ih =>
    simp only [forall_mem_cons] at each
    obtain ⟨value, rest, same, first, later⟩ := represents
    exact ⟨value, rest, same, each.1 value first, ih each.2 later⟩

theorem represents_mono (keeps : ∀ addr, own addr → wider addr ∧ others addr = objects addr)
    {json : Json ν} {value : Value ν} (represents : Represents host objects own json value) :
    Represents host others wider json value := by
  induction json generalizing value with
  | null => exact represents
  | boolean expected => exact represents
  | number expected => exact represents
  | string expected => exact represents
  | array items ih =>
    obtain ⟨addr, object, same, isOwn, found, isArray, prototypes, slots, split, inside⟩ := represents
    refine ⟨addr, object, same, (keeps addr isOwn).1, (keeps addr isOwn).2.trans found, isArray, prototypes,
      slots, split, ?_⟩
    exact representsItems_mono (fun item member value => ih item member) inside
  | object entries ih =>
    obtain ⟨addr, object, same, isOwn, found, isArray, prototypes, inside⟩ := represents
    refine ⟨addr, object, same, (keeps addr isOwn).1, (keeps addr isOwn).2.trans found, isArray, prototypes, ?_⟩
    exact representsEntries_mono (fun entry member value => ih entry member) inside

end Representation

section Growth

variable {ν : Type}

structure Grows (before after : Heap ν) : Prop where
  run_eq : after.run = before.run
  next_le : before.next ≤ after.next
  objects : ∀ addr, ¬(addr.run = before.run ∧ before.next ≤ addr.index) → after.objects addr = before.objects addr

def Created (before after : Heap ν) (addr : Addr) : Prop :=
  addr.run = before.run ∧ before.next ≤ addr.index ∧ addr.index < after.next

theorem Grows.refl (heap : Heap ν) : Grows heap heap := ⟨rfl, le_refl _, fun _ _ => rfl⟩

theorem Grows.trans {first second third : Heap ν} (one : Grows first second) (two : Grows second third) :
    Grows first third := by
  refine ⟨two.run_eq.trans one.run_eq, one.next_le.trans two.next_le, fun addr old => ?_⟩
  have older : ¬(addr.run = second.run ∧ second.next ≤ addr.index) := fun new =>
    old ⟨new.1.trans one.run_eq, one.next_le.trans new.2⟩
  exact (two.objects addr older).trans (one.objects addr old)

theorem grows_allocate (heap : Heap ν) (object : Obj ν) : Grows heap (heap.allocate object) := by
  refine ⟨rfl, Nat.le_succ _, fun addr old => ?_⟩
  have different : addr ≠ heap.freshAddr := fun same => old (by simp [same, Heap.freshAddr])
  simp [Heap.allocate, Heap.store, different]

theorem grows_store {before heap : Heap ν} (grows : Grows before heap) {addr : Addr}
    (created : Created before heap addr) (object : Obj ν) : Grows before (heap.store addr object) := by
  refine ⟨grows.run_eq, grows.next_le, fun other old => ?_⟩
  have different : other ≠ addr := fun same => old (same ▸ ⟨created.1, created.2.1⟩)
  simpa [Heap.store, different] using grows.objects other old

theorem represents_later [JsNumber ν] {host : Host ν} {before heap after : Heap ν} {json : Json ν}
    {value : Value ν} (represents : Represents host heap.objects (Created before heap) json value)
    (grows : Grows heap after) : Represents host after.objects (Created before after) json value := by
  refine represents_mono (fun addr created => ?_) represents
  refine ⟨⟨created.1, created.2.1, created.2.2.trans_le grows.next_le⟩, grows.objects addr fun new => ?_⟩
  have below := created.2.2
  omega

end Growth

section Lookup

variable {ν : Type}

/-- The slot that `lookup` finds. -/
def slotIn (heap : Heap ν) (name : String) : List Addr → Option (Addr × Slot ν)
  | [] => none
  | addr :: rest =>
    match (heap.objects addr).bind (·.properties.get name) with
    | some slot => some (addr, slot)
    | none => slotIn heap name rest

def chainIn (heap : Heap ν) (addr : Addr) : List Addr :=
  addr :: ((heap.objects addr).map (·.prototypes)).getD []

theorem lookup_yields (name : String) (chain : List Addr) (s : State ν) :
    Yields (lookup name chain) s (slotIn s.heap name chain) s := by
  induction chain with
  | nil => exact .pure none s
  | cons addr rest ih =>
    refine Yields.bind (.read _ s) ?_
    cases found : (s.heap.objects addr).bind (·.properties.get name) with
    | none => simpa only [slotIn, found] using ih
    | some slot =>
      simp only [slotIn, found]
      exact .pure _ s

theorem chainOf_yields (host : Host ν) (addr : Addr) (s : State ν) :
    Yields (chainOf host (.object addr)) s (chainIn s.heap addr) s :=
  Yields.bind (.read _ s) (.pure _ s)

theorem slotIn_congr {heap other : Heap ν} {name : String} {chain : List Addr}
    (same : ∀ addr ∈ chain, other.objects addr = heap.objects addr) :
    slotIn other name chain = slotIn heap name chain := by
  induction chain with
  | nil => rfl
  | cons addr rest ih =>
    simp only [forall_mem_cons] at same
    simp only [slotIn, same.1, ih same.2]

end Lookup

section Store

variable {ν : Type} [JsNumber ν] {host : Host ν} {addr : Addr} {object : Obj ν} {s : State ν}

/-- What is inherited by a plain object can be overwritten, apart from `__proto__`. -/
structure Assignable (host : Host ν) (heap : Heap ν) : Prop where
  older : host.objectPrototype.run ≠ heap.run
  writable : ∀ object name slot, heap.objects host.objectPrototype = some object →
    object.properties.get name = some slot → name ≠ "__proto__" → ∃ value, slot.content = .data value true

omit [JsNumber ν] in
theorem Assignable.grows {heap after : Heap ν} (assignable : Assignable host heap) (grows : Grows heap after) :
    Assignable host after := by
  refine ⟨grows.run_eq ▸ assignable.older, fun object name slot found => ?_⟩
  rw [grows.objects _ fun new => assignable.older new.1] at found
  exact assignable.writable object name slot found

def withProperty (object : Obj ν) (key : String) (value : Value ν) : Obj ν :=
  { object with properties := object.properties.set key ⟨.data value true, true⟩ }

theorem putOwn_yields (found : s.heap.objects addr = some object)
    (plain : object.isArray = false) (key : String) (value : Value ν) :
    Yields (putOwn addr key ⟨.data value true, true⟩) s ()
      { s with heap := s.heap.store addr (withProperty object key value) } := by
  have put : object.put key ⟨.data value true, true⟩ = withProperty object key value := by
    simp [Obj.put, plain, withProperty]
  refine Yields.bind (.read _ s) ?_
  simp only [found]
  rw [if_neg (by simp [plain]), put]
  exact Yields.bind (.emit _ s) (.update _ s)

theorem putProperty_yields {key : String} (assignable : Assignable host s.heap) (own : addr.run = s.heap.run)
    (found : s.heap.objects addr = some object) (plain : object.isArray = false)
    (prototypes : object.prototypes = [host.objectPrototype]) (absent : object.properties.get key = none)
    (notProto : key ≠ "__proto__") (value : Value ν) :
    Yields (putProperty host addr key value) s ()
      { s with heap := s.heap.store addr (withProperty object key value) } := by
  refine Yields.bind (.read _ s) ?_
  simp only [found, notProto, false_and, if_false, setProperty]
  refine Yields.bind (chainOf_yields host addr s) (Yields.bind (lookup_yields key _ s) ?_)
  have different : host.objectPrototype ≠ addr := fun same => assignable.older (same ▸ own)
  simp only [chainIn, found, prototypes, map_some, getD_some, slotIn, bind_some, absent]
  cases inherited : (s.heap.objects host.objectPrototype).bind (·.properties.get key) with
  | none => exact putOwn_yields found plain key value
  | some slot =>
    obtain ⟨prototype, isPrototype, get⟩ := bind_eq_some_iff.mp inherited
    obtain ⟨old, content⟩ := assignable.writable prototype key slot isPrototype get notProto
    simp only [content, different, if_false]
    exact putOwn_yields found plain key value

end Store

section Objects

variable {ν : Type} [JsNumber ν] {host : Host ν}

structure Building (host : Host ν) (start : Heap ν) (addr : Addr) (entries : List (String × Json ν))
    (heap : Heap ν) : Prop where
  grows : Grows start heap
  created : Created start heap addr
  represents : ∃ object, heap.objects addr = some object ∧ object.isArray = false ∧
    object.prototypes = [host.objectPrototype] ∧
    RepresentsEntries host heap.objects (fun other => Created start heap other ∧ other ≠ addr) entries
      object.properties.entries

theorem building_new (host : Host ν) (heap : Heap ν) :
    Building host heap heap.freshAddr [] (heap.allocate ⟨[host.objectPrototype], false, .empty⟩) := by
  refine ⟨grows_allocate heap _, ⟨rfl, le_refl _, Nat.lt_succ_self _⟩, ?_⟩
  exact ⟨⟨[host.objectPrototype], false, .empty⟩, by simp [Heap.allocate, Heap.store], rfl, rfl, rfl⟩

variable {entries : List (String × Json ν)} {addr : Addr} {objects : Addr → Option (Obj ν)} {own : Addr → Prop}
  {slots : List (String × Slot ν)} {json : Json ν} {key : String} {value : Value ν}

theorem Building.represents_object {start heap : Heap ν} (building : Building host start addr entries heap) :
    Represents host heap.objects (Created start heap) (.object entries) (.object addr) := by
  obtain ⟨object, found, plain, prototypes, inside⟩ := building.represents
  refine ⟨addr, object, rfl, building.created, found, plain, prototypes, ?_⟩
  refine representsEntries_mono (fun entry _ value represents => ?_) inside
  exact represents_mono (fun other own => ⟨own.1, rfl⟩) represents

theorem representsEntries_keys (represents : RepresentsEntries host objects own entries slots) :
    slots.map Prod.fst = entries.map Prod.fst := by
  induction entries generalizing slots with
  | nil => rw [represents]; rfl
  | cons entry entries ih =>
    obtain ⟨value, rest, rfl, _, later⟩ := represents
    simp only [map_cons, ih later]

theorem representsEntries_concat (represents : RepresentsEntries host objects own entries slots)
    (last : Represents host objects own json value) :
    RepresentsEntries host objects own (entries ++ [(key, json)]) (slots ++ [(key, ⟨.data value true, true⟩)]) := by
  induction entries generalizing slots with
  | nil =>
    rw [represents]
    exact ⟨value, [], rfl, last, rfl⟩
  | cons entry entries ih =>
    obtain ⟨first, rest, rfl, represented, later⟩ := represents
    exact ⟨first, _, rfl, represented, ih later⟩

theorem Building.put {start heap later : Heap ν} (building : Building host start addr entries heap)
    (grows : Grows heap later) (represents : Represents host later.objects (Created heap later) json value)
    (absent : key ∉ entries.map Prod.fst) :
    ∃ object, later.objects addr = some object ∧ object.isArray = false ∧
      object.prototypes = [host.objectPrototype] ∧ object.properties.get key = none ∧
      Building host start addr (entries ++ [(key, json)]) (later.store addr (withProperty object key value)) := by
  obtain ⟨object, found, plain, prototypes, inside⟩ := building.represents
  have isRun := building.created.1
  have below := building.created.2.2
  have sameRun := building.grows.run_eq
  have startBelow := building.grows.next_le
  have more := grows.next_le
  have still : later.objects addr = some object :=
    (grows.objects addr fun new => absurd new.2 (by omega)).trans found
  have free : object.properties.get key = none := by
    rw [get_eq_none_iff, representsEntries_keys inside]
    exact absent
  have created : Created start later addr := ⟨isRun, building.created.2.1, below.trans_le more⟩
  refine ⟨object, still, plain, prototypes, free, grows_store (building.grows.trans grows) created _, created,
    withProperty object key value, by simp [Heap.store], plain, prototypes, ?_⟩
  rw [withProperty, entries_set_new _ _ free]
  refine representsEntries_concat (representsEntries_mono (fun entry _ old represented => ?_) inside) ?_
  · refine represents_mono (fun other own => ?_) represented
    have otherBelow := own.1.2.2
    refine ⟨⟨⟨own.1.1, own.1.2.1, otherBelow.trans_le more⟩, own.2⟩, ?_⟩
    simp only [Heap.store, Function.update_of_ne own.2]
    exact grows.objects other fun new => absurd new.2 (by omega)
  · refine represents_mono (fun other own => ?_) represents
    have otherAbove := own.2.1
    have different : other ≠ addr := fun same => absurd (same ▸ otherAbove) (by omega)
    refine ⟨⟨⟨own.1.trans sameRun, startBelow.trans otherAbove, own.2.2⟩, different⟩, ?_⟩
    simp only [Heap.store, Function.update_of_ne different]

end Objects

section Arrays

variable {ν : Type} [JsNumber ν]

def CountsExactly (ν : Type) [JsNumber ν] : Prop :=
  ∀ count < 2 ^ 32, JsNumber.toNat (JsNumber.ofNat count : ν) = some count

def lengthSlot (length : ℕ) : Slot ν := ⟨.data (.number (JsNumber.ofNat length)) true, false⟩

def slotsFrom (index : ℕ) : List (Value ν) → List (String × Slot ν)
  | [] => []
  | value :: values => (toString index, ⟨.data value true, true⟩) :: slotsFrom (index + 1) values

omit [JsNumber ν] in
theorem slotsFrom_concat (index : ℕ) (values : List (Value ν)) (value : Value ν) : slotsFrom index (values ++ [value]) =
      slotsFrom index values ++ [(toString (index + values.length), ⟨.data value true, true⟩)] := by
  induction values generalizing index with
  | nil => rfl
  | cons first values ih =>
    simp only [cons_append, slotsFrom, ih, length_cons]
    rw [Nat.add_right_comm, Nat.add_assoc]

theorem arrayIndex_toString {index : ℕ} (small : index < 2 ^ 32 - 1) : arrayIndex (toString index) = some index := by
  have number : (toString index).toNat? = some index := Nat.toNat?_repr index
  simp only [arrayIndex, number]
  rw [if_pos ⟨trivial, small⟩]

theorem toString_ne_length (index : ℕ) : toString index ≠ "length" := by
  intro same
  have digits : ∀ char ∈ (Nat.repr index).toList, char.isDigit = true := by
    simpa using fun char member => Nat.isDigit_of_mem_toDigits (by omega) (by omega) member
  have letter : 'l' ∈ (Nat.repr index).toList := by
    rw [show Nat.repr index = "length" from same]
    decide
  exact absurd (digits 'l' letter) (by decide)

variable {values : List (Value ν)} {object : Obj ν} {prototypes : List Addr}

omit [JsNumber ν] in
theorem index_not_before {index first : ℕ} (behind : first + values.length ≤ index) :
    toString index ∉ (slotsFrom first values).map Prod.fst := by
  induction values generalizing first with
  | nil => simp [slotsFrom]
  | cons value values ih =>
    rw [length_cons] at behind
    have different : toString index ≠ toString first := fun same => by
      have equal := Nat.repr_injective same
      omega
    simp only [slotsFrom, map_cons, mem_cons, different, false_or]
    exact ih (by omega)

structure IsArray (object : Obj ν) (prototypes : List Addr) (values : List (Value ν)) : Prop where
  isArray : object.isArray = true
  prototypes_eq : object.prototypes = prototypes
  entries : object.properties.entries = ("length", lengthSlot values.length) :: slotsFrom 0 values

theorem IsArray.put (counts : CountsExactly ν)
    (array : IsArray object prototypes values) (small : values.length + 1 < 2 ^ 32) (value : Value ν) :
    IsArray (object.put (toString values.length) ⟨.data value true, true⟩) prototypes (values ++ [value]) := by
  have absent : object.properties.get (toString values.length) = none := by
    rw [get_eq_none_iff, array.entries, map_cons, mem_cons, not_or]
    exact ⟨toString_ne_length _, index_not_before (by simp)⟩
  have appended := entries_set_new object.properties (⟨.data value true, true⟩ : Slot ν) absent
  have length : object.properties.get "length" = some (lengthSlot values.length) := by
    simp [OrderedMap.get, array.entries, OrderedMap.getEntry]
  have count : JsNumber.toNat (JsNumber.ofNat values.length : ν) = some values.length :=
    counts _ (by omega)
  have put : object.put (toString values.length) ⟨.data value true, true⟩ = { object with
        properties := (object.properties.set (toString values.length) ⟨.data value true, true⟩).set "length"
          (lengthSlot (values.length + 1)) } := by
    simp only [Obj.put, array.isArray, if_true, arrayIndex_toString (by omega : values.length < 2 ^ 32 - 1), length,
      lengthSlot, count, getD_some, lt_irrefl, if_false]
  rw [put]
  refine ⟨array.isArray, array.prototypes_eq, ?_⟩
  simp only [OrderedMap.set] at appended ⊢
  rw [appended, array.entries, cons_append, slotsFrom_concat]
  simp [OrderedMap.setEntry]

theorem isArray_foldl (counts : CountsExactly ν) {more : List (Value ν)} (array : IsArray object prototypes values)
    (small : values.length + more.length < 2 ^ 32) :
    IsArray ((more.zipIdx values.length).foldl
      (fun object item => object.put (toString item.2) ⟨.data item.1 true, true⟩) object)
      prototypes (values ++ more) := by
  induction more generalizing object values with
  | nil => simpa using array
  | cons value more ih =>
    rw [length_cons] at small
    have next := array.put counts (by omega) value
    simpa using ih next (by simp; omega)

/-- `newArray` gives an array with the items that it is given. -/
theorem newArray_yields (counts : CountsExactly ν) (host : Host ν) (values : List (Value ν))
    (small : values.length < 2 ^ 32) (s : State ν) :
    ∃ object, IsArray object [host.arrayPrototype, host.objectPrototype] values ∧
      Yields (newArray host values) s s.heap.freshAddr { s with heap := s.heap.allocate object } := by
  have start : IsArray (⟨[host.arrayPrototype, host.objectPrototype], true,
      .set .empty "length" (lengthSlot 0)⟩ : Obj ν) [host.arrayPrototype, host.objectPrototype] [] :=
    ⟨rfl, rfl, rfl⟩
  refine ⟨_, isArray_foldl counts start (by simpa using small), ?_⟩
  exact Yields.bind (.read _ s) (Yields.bind (.update _ s) (.pure _ _))

end Arrays

end N8n.FormatValue
