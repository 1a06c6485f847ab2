import N8n.SdkInterpreter

/-! What SDK code can reach. A boundary relates the heaps of two runs and says which
values the code may hold and which values the objects within its reach may hold. If
the functions of the host respect it, so does every operation of the interpreter. -/

namespace N8n.Sdk

open Traced List OrderedMap

section Boundaries

variable {ν : Type}

def Content.Within (stored : Value ν → Prop) : Content ν → Prop
  | .data value _ => stored value
  | .accessor getter setter =>
    (∀ addr, getter = some addr → stored (.object addr)) ∧ ∀ addr, setter = some addr → stored (.object addr)

theorem Content.Within.mono {stored weaker : Value ν → Prop} {content : Content ν}
    (within : content.Within stored) (weakens : ∀ value, stored value → weaker value) : content.Within weaker := by
  cases content with
  | data value writable => exact weakens value within
  | accessor getter setter =>
    exact ⟨fun addr same => weakens _ (within.1 addr same), fun addr same => weakens _ (within.2 addr same)⟩

structure Obj.Within (seen : Addr → Prop) (stored : Value ν → Prop) (object : Obj ν) : Prop where
  prototypes : ∀ addr ∈ object.prototypes, seen addr
  slots : ∀ name slot, object.properties.get name = some slot → slot.content.Within stored

def Host.prototypes (host : Host ν) : List Addr :=
  [host.objectPrototype, host.functionPrototype, host.arrayPrototype, host.stringPrototype,
    host.numberPrototype, host.booleanPrototype, host.regExpPrototype]

/-- `held` is for values of expressions and variables, `stored` for values of properties
and `seen` for objects that a lookup may pass. -/
structure Boundary (ν : Type) where
  heaps : Heap ν → Heap ν → Prop
  ok : Event ν → Prop
  claim : Event ν → Prop
  held : Value ν → Prop
  stored : Value ν → Prop
  seen : Addr → Prop

namespace Boundary

variable (boundary : Boundary ν)

def setting : Setting (State ν) (Event ν) where
  rel s t := t.declaredVariables = s.declaredVariables ∧ t.renamedVariables = s.renamedVariables ∧
    (∀ name value, s.declaredVariables.get name = some value → boundary.held value) ∧
    boundary.heaps s.heap t.heap
  ok := boundary.ok
  claim := boundary.claim

def Respects {α : Type} (good : α → Prop) (comp : Eval ν α) : Prop :=
  Stable boundary.setting good comp

def Keeps (function : Heap ν → HostOutcome ν) : Prop :=
  ∀ heap other, boundary.heaps heap other → (∀ addr ∈ (function heap).writes, boundary.ok (.write addr)) →
    (function other).result = (function heap).result ∧ (function other).writes = (function heap).writes ∧
      boundary.heaps (function heap).heap (function other).heap ∧
      (∀ addr ∈ (function heap).writes, boundary.claim (.write addr)) ∧
      ∀ value, (function heap).result = .ok value → boundary.held value

def Callee (host : Host ν) (function : Addr) : CallKind → Prop
  | .identifier _ => boundary.held (.object function) ∧ function.callable
  | .method name => isAllowedMethod name
  | .safeTable name => boundary.ok (.found host.objectPrototype name)
  | _ => True

end Boundary

/-- The laws that the interpreter relies on. -/
structure Boundary.Lawful (boundary : Boundary ν) (host : Host ν) : Prop where
  held_stored : ∀ value, boundary.held value → boundary.stored value
  primitive_held : ∀ value : Value ν, value.isObject = false → boundary.held value
  stored_seen : ∀ addr, boundary.stored (.object addr) → boundary.seen addr
  prototypes_seen : ∀ addr ∈ host.prototypes, boundary.seen addr
  function_held : ∀ name function, host.sdkFunctions.get name = some function → boundary.held (.object function)
  seen_object : ∀ heap other addr, boundary.heaps heap other → boundary.seen addr →
    other.objects addr = heap.objects addr ∧ ∀ object, heap.objects addr = some object →
      (∀ next ∈ object.prototypes, boundary.seen next) ∧
      ∀ name slot, object.properties.get name = some slot → boundary.ok (.found addr name) →
        slot.content.Within boundary.stored
  stored_object : ∀ heap other addr object, boundary.heaps heap other →
    boundary.stored (.object addr) → heap.objects addr = some object →
    object.Within boundary.seen boundary.stored
  fresh : ∀ heap other, boundary.heaps heap other →
    other.freshAddr = heap.freshAddr ∧ boundary.held (.object heap.freshAddr)
  allocate_heaps : ∀ heap other object, boundary.heaps heap other → object.Within boundary.seen boundary.stored →
    boundary.heaps (heap.allocate object) (other.allocate object)
  store_heaps : ∀ heap other addr object, boundary.heaps heap other → boundary.stored (.object addr) →
    boundary.ok (.write addr) → object.Within boundary.seen boundary.stored →
    boundary.heaps (heap.store addr object) (other.store addr object)
  found_claim : ∀ addr name, boundary.ok (.found addr name) → boundary.claim (.found addr name)
  read_held : ∀ value, boundary.stored value → boundary.ok (.read value) → boundary.held value
  read_claim : ∀ value, boundary.stored value → boundary.ok (.read value) → boundary.claim (.read value)
  call_claim : ∀ function kind, boundary.stored (.object function) →
    boundary.Callee host function kind → boundary.ok (.call function kind) →
    boundary.claim (.call function kind)
  setter_claim : boundary.ok (.found host.objectPrototype "__proto__") →
    boundary.claim (.call host.prototypeSetter .accessor)
  override_stored : ∀ holder function, (boundary.ok (.found holder "apply") → boundary.stored (.object function)) →
    boundary.ok (.call function .override) → boundary.stored (.object function)
  safe_claim : ∀ name, name ∈ ["stringify", "repeat", "trim"] → boundary.claim (.safeMethod name)
  write_claim : ∀ addr, boundary.stored (.object addr) → boundary.ok (.write addr) → boundary.claim (.write addr)
  call_keeps : ∀ function thisArg args, boundary.stored (.object function) → boundary.stored thisArg →
    (∀ value ∈ args, boundary.stored value) → boundary.Keeps (host.call function thisArg args)
  stringify_keeps : ∀ args, (∀ value ∈ args, boundary.stored value) → boundary.Keeps (host.stringify args)

end Boundaries

section Heaps

variable {ν : Type} {boundary : Boundary ν} {host : Host ν}

namespace Boundary

theorem setting_heap {s t : State ν} {heap other : Heap ν} (related : boundary.setting.rel s t)
    (heaps : boundary.heaps heap other) : boundary.setting.rel { s with heap } { t with heap := other } :=
  ⟨related.1, related.2.1, related.2.2.1, heaps⟩

theorem runHost_respects {function : Heap ν → HostOutcome ν} (keeps : boundary.Keeps function) :
    boundary.Respects boundary.held (runHost function) := by
  intro s t related acceptable
  simp only [runHost, mem_map, forall_exists_index, and_imp, forall_apply_eq_imp_iff₂] at acceptable ⊢
  obtain ⟨result, writes, heaps, claims, held⟩ := keeps s.heap t.heap related.2.2.2 acceptable
  refine ⟨by rw [result], by rw [writes], setting_heap related heaps, claims, ?_⟩
  intro value found
  cases outcome : (function s.heap).result with
  | error thrown => simp [outcome, Except.mapError] at found
  | ok returned =>
    simp only [outcome, Except.mapError, Except.ok.injEq] at found
    exact found ▸ held returned outcome

end Boundary

namespace Boundary.Lawful

variable (lawful : boundary.Lawful host) {addr : Addr} {object : Obj ν}
include lawful

theorem objectAt_respects (seen : boundary.seen addr) :
    boundary.Respects (fun found => ∀ object, found = some object → (∀ next ∈ object.prototypes, boundary.seen next) ∧
      (∀ name slot, object.properties.get name = some slot → boundary.ok (.found addr name) →
        slot.content.Within boundary.stored) ∧
      (boundary.stored (.object addr) → object.Within boundary.seen boundary.stored))
      (objectAt addr : Eval ν (Option (Obj ν))) := by
  refine Stable.read fun s t related => ?_
  obtain ⟨same, inside⟩ := lawful.seen_object _ _ _ related.2.2.2 seen
  refine ⟨same, fun object found => ⟨(inside object found).1, (inside object found).2, fun stored => ?_⟩⟩
  exact lawful.stored_object _ _ _ _ related.2.2.2 stored found

theorem allocate_respects (within : object.Within boundary.seen boundary.stored) :
    boundary.Respects (fun addr => boundary.held (.object addr)) (allocate object) := by
  have fresh : boundary.Respects (fun addr => boundary.held (.object addr))
      (Comp.read fun s => s.heap.freshAddr : Eval ν Addr) :=
    Stable.read fun s t related => lawful.fresh _ _ related.2.2.2
  refine Stable.bind fresh fun addr held => ?_
  refine Stable.bind (Stable.update fun s t related => ?_) fun _ _ => Stable.pure held
  exact setting_heap related (lawful.allocate_heaps _ _ _ related.2.2.2 within)

theorem store_respects (stored : boundary.stored (.object addr))
    (within : object.Within boundary.seen boundary.stored) : boundary.Respects (fun _ => True) (store addr object) := by
  refine Stable.bind (Stable.emit (lawful.write_claim addr stored)) fun _ allowed => ?_
  refine Stable.update fun s t related => ?_
  exact setting_heap related (lawful.store_heaps _ _ _ _ related.2.2.2 stored allowed within)

theorem callHost_respects {kind : CallKind} {function : Addr} {thisArg : Value ν} {args : List (Value ν)}
    (stored : boundary.ok (.call function kind) → boundary.stored (.object function))
    (callee : boundary.Callee host function kind) (receiver : boundary.stored thisArg)
    (arguments : ∀ value ∈ args, boundary.stored value) :
    boundary.Respects boundary.held (callHost host kind function thisArg args) := by
  refine Stable.bind (Stable.emit fun allowed =>
    lawful.call_claim _ _ (stored allowed) callee allowed) fun _ allowed => ?_
  exact runHost_respects (lawful.call_keeps _ _ _ (stored allowed) receiver arguments)

end Boundary.Lawful

end Heaps

section Properties

variable {ν : Type} {seen : Addr → Prop} {stored : Value ν → Prop} {object : Obj ν} {name : String} {slot : Slot ν}

theorem Obj.Within.set_slots (within : object.Within seen stored) (content : slot.content.Within stored) :
    ∀ other found, (object.properties.set name slot).get other = some found →
      found.content.Within stored := by
  intro other found get
  rw [get_set] at get
  split at get
  · cases get
    exact content
  · exact within.slots other found get

variable [JsNumber ν]

theorem Obj.Within.put (within : object.Within seen stored) (numbers : ∀ number, stored (.number number))
    (content : slot.content.Within stored) : (object.put name slot).Within seen stored := by
  have grown : Obj.Within seen stored { object with properties := object.properties.set name slot } :=
    ⟨within.prototypes, within.set_slots content⟩
  simp only [Obj.put]
  split
  · exact grown
  · split_ifs
    · exact grown
    · exact ⟨within.prototypes, grown.set_slots (numbers _)⟩

theorem Obj.Within.truncate (within : object.Within seen stored)
    (numbers : ∀ number, stored (.number number)) (length : ℕ) : (object.truncate length).Within seen stored := by
  refine ⟨within.prototypes, ?_⟩
  intro name slot get
  simp only [Obj.truncate, get_set] at get
  split at get
  · cases get
    exact numbers _
  · exact within.slots name slot (get_deleteMany_some _ get).2

end Properties

section Operations

variable {ν : Type} {boundary : Boundary ν} {host : Host ν}

namespace Boundary.Lawful

variable (lawful : boundary.Lawful host) {receiver : Value ν} {chain : List Addr}
include lawful

theorem primitive_stored (value : Value ν) (primitive : value.isObject = false) : boundary.stored value :=
  lawful.held_stored value (lawful.primitive_held value primitive)

theorem prototype_seen {addr : Addr} (member : addr ∈ host.prototypes) : boundary.seen addr :=
  lawful.prototypes_seen addr member

theorem slotValue_respects {content : Content ν} (stored : boundary.stored receiver)
    (within : content.Within boundary.stored) :
    boundary.Respects boundary.stored (slotValue host receiver content) := by
  match content with
  | .data value _ => exact Stable.pure within
  | .accessor none _ => exact Stable.pure (lawful.primitive_stored _ rfl)
  | .accessor (some getter) _ =>
    refine Stable.mono ?_ lawful.held_stored
    exact lawful.callHost_respects (fun _ => within.1 getter rfl) trivial stored (by simp)

theorem lookup_respects (name : String) (seen : ∀ addr ∈ chain, boundary.seen addr) :
    boundary.Respects (fun found => ∀ holder slot, found = some (holder, slot) → holder ∈ chain ∧
      (boundary.ok (.found holder name) → slot.content.Within boundary.stored))
      (lookup name chain : Eval ν (Option (Addr × Slot ν))) := by
  induction chain with
  | nil => exact Stable.pure (by simp)
  | cons addr rest ih =>
    refine Stable.bind (lawful.objectAt_respects (seen addr mem_cons_self)) fun object inside => ?_
    cases get : object.bind (·.properties.get name) with
    | some slot =>
      refine Stable.pure fun holder other same => ?_
      obtain ⟨present, atObject, here⟩ := Option.bind_eq_some_iff.mp get
      cases same
      exact ⟨mem_cons_self, (inside present atObject).2.1 name slot here⟩
    | none =>
      refine Stable.mono (ih fun other member => seen other (mem_cons_of_mem _ member)) ?_
      intro found later holder slot same
      exact ⟨mem_cons_of_mem _ (later holder slot same).1, (later holder slot same).2⟩

theorem inheritedProperty_respects (name : String)
    (stored : boundary.stored receiver) (seen : ∀ addr ∈ chain, boundary.seen addr) :
    boundary.Respects (fun value => boundary.stored value ∧
      (value = .undefined ∨ ∃ holder ∈ chain, boundary.ok (.found holder name)))
      (inheritedProperty host receiver chain name) := by
  refine Stable.bind (lawful.lookup_respects name seen) fun found inside => ?_
  match found with
  | none => exact Stable.pure ⟨lawful.primitive_stored _ rfl, .inl rfl⟩
  | some (holder, slot) =>
    obtain ⟨member, within⟩ := inside holder slot rfl
    refine Stable.bind (Stable.emit (lawful.found_claim holder name)) fun _ allowed => ?_
    refine Stable.mono (lawful.slotValue_respects stored (within allowed)) fun value isStored => ?_
    exact ⟨isStored, .inr ⟨holder, member, allowed⟩⟩

theorem chainOf_respects {value : Value ν} (stored : boundary.stored value) :
    boundary.Respects (fun chain => ∀ addr ∈ chain, boundary.seen addr) (chainOf host value) := by
  have seen := lawful.prototypes_seen
  simp only [Host.prototypes, forall_mem_cons] at seen
  cases value with
  | undefined => exact Stable.pure (by simp)
  | null => exact Stable.pure (by simp)
  | boolean value => exact Stable.pure (by simp [seen])
  | number value => exact Stable.pure (by simp [seen])
  | string value => exact Stable.pure (by simp [seen])
  | object addr =>
    have here := lawful.stored_seen addr stored
    refine Stable.bind (lawful.objectAt_respects here) fun object inside => Stable.pure ?_
    cases object with
    | none => simpa using here
    | some object => simpa [here] using (inside object rfl).1

section Numbers

variable [JsNumber ν] {value : Value ν} {addr : Addr}

theorem getProperty_respects (name : String) (stored : boundary.stored value) :
    boundary.Respects boundary.stored (getProperty host value name) := by
  unfold getProperty
  split
  · rename_i own found
    refine Stable.pure (lawful.primitive_stored own ?_)
    cases value with
    | string text =>
      simp only [stringProperty] at found
      split at found
      · cases found
        rfl
      · simp only [Option.bind_eq_some_iff, Option.map_eq_some_iff] at found
        obtain ⟨_, _, _, _, rfl⟩ := found
        rfl
    | _ => cases found
  · refine Stable.bind (lawful.chainOf_respects stored) fun chain seen => ?_
    exact Stable.mono (lawful.inheritedProperty_respects name stored seen) fun _ found => found.1

theorem putOwn_respects (name : String) {slot : Slot ν} (stored : boundary.stored (.object addr))
    (content : slot.content.Within boundary.stored) : boundary.Respects (fun _ => True) (putOwn addr name slot) := by
  have numbers (number : ν) : boundary.stored (.number number) := lawful.primitive_stored _ rfl
  refine Stable.bind (lawful.objectAt_respects (lawful.stored_seen addr stored)) fun found inside => ?_
  cases found with
  | none => exact Stable.pure trivial
  | some object =>
    have within := (inside object rfl).2.2 stored
    refine Stable.ite (fun _ => ?_) fun _ => lawful.store_respects stored (within.put numbers content)
    cases slot.content with
    | accessor getter setter => exact Stable.pure trivial
    | data value writable =>
      dsimp only
      split
      · exact lawful.store_respects stored (within.truncate numbers _)
      · exact Stable.throw _

theorem setProperty_respects {newValue : Value ν} (name : String) (stored : boundary.stored value)
    (newStored : boundary.stored newValue) :
    boundary.Respects (fun _ => True) (setProperty host value name newValue) := by
  cases value with
  | object addr =>
    refine Stable.bind (lawful.chainOf_respects stored) fun chain seen => ?_
    refine Stable.bind (lawful.lookup_respects name seen) fun found inside => ?_
    match found with
    | none => exact lawful.putOwn_respects name stored newStored
    | some (holder, slot) =>
      dsimp only
      split
      · exact lawful.putOwn_respects name stored newStored
      · exact Stable.throw _
      · exact Stable.throw _
      · rename_i getter setter content
        refine Stable.bind (Stable.emit (lawful.found_claim holder name)) fun _ allowed => ?_
        have within := (inside holder slot rfl).2 allowed
        rw [content] at within
        refine Stable.bind (lawful.callHost_respects (fun _ => within.2 setter rfl) trivial stored ?_)
          fun _ _ => Stable.pure trivial
        simpa using newStored
  | _ => exact Stable.throw _

theorem putProperty_respects (key : String)
    (stored : boundary.stored (.object addr)) (newStored : boundary.stored value) :
    boundary.Respects (fun _ => True) (putProperty host addr key value) := by
  refine Stable.bind (lawful.objectAt_respects (lawful.stored_seen addr stored)) fun found inside => ?_
  cases found with
  | none => exact Stable.pure trivial
  | some object =>
    have within := (inside object rfl).2.2 stored
    refine Stable.ite (fun isSetter => ?_) fun _ => lawful.setProperty_respects key stored newStored
    rw [isSetter.1]
    refine Stable.bind (Stable.emit (lawful.found_claim _ _)) fun _ allowed => ?_
    refine Stable.bind (Stable.emit fun _ => lawful.setter_claim allowed) fun _ _ => ?_
    cases value with
    | object prototype =>
      refine Stable.bind (lawful.chainOf_respects newStored) fun chain seen => ?_
      exact lawful.store_respects stored ⟨seen, within.slots⟩
    | null => exact lawful.store_respects stored ⟨by simp, within.slots⟩
    | _ => exact Stable.pure trivial

omit [JsNumber ν] in
theorem newObject_respects : boundary.Respects (fun addr => boundary.held (.object addr)) (newObject host) := by
  refine lawful.allocate_respects ⟨?_, by simp⟩
  simpa using lawful.prototype_seen (by simp [Host.prototypes])

theorem newArray_respects {items : List (Value ν)} (stored : ∀ item ∈ items, boundary.stored item) :
    boundary.Respects (fun addr => boundary.held (.object addr)) (newArray host items) := by
  have numbers (number : ν) : boundary.stored (.number number) := lawful.primitive_stored _ rfl
  have seen := lawful.prototypes_seen
  simp only [Host.prototypes, forall_mem_cons] at seen
  have blank : Obj.Within boundary.seen boundary.stored ⟨[host.arrayPrototype, host.objectPrototype], true,
      .set .empty "length" ⟨.data (.number (JsNumber.ofNat 0)) true, false⟩⟩ := by
    refine ⟨by simp [seen], ?_⟩
    intro name slot get
    rw [get_set] at get
    split at get
    · cases get
      exact numbers _
    · cases get
  refine lawful.allocate_respects ?_
  have indexed : ∀ item ∈ items.zipIdx, boundary.stored item.1 := fun item member =>
    stored item.1 (fst_mem_of_mem_zipIdx member)
  generalize items.zipIdx = list at indexed
  generalize Obj.mk _ _ _ = object at blank
  induction list generalizing object with
  | nil => exact blank
  | cons first rest ih =>
    simp only [forall_mem_cons] at indexed
    exact ih indexed.2 _ (blank.put numbers indexed.1)

theorem newRegExp_respects : boundary.Respects (fun addr => boundary.held (.object addr)) (newRegExp host) := by
  have seen := lawful.prototypes_seen
  simp only [Host.prototypes, forall_mem_cons] at seen
  refine lawful.allocate_respects ⟨by simp [seen], ?_⟩
  intro name slot get
  rw [get_set] at get
  split at get
  · cases get
    exact lawful.primitive_stored _ rfl
  · cases get

theorem assign_respects {result source : Addr} (target : boundary.stored (.object result))
    (stored : boundary.stored (.object source)) : boundary.Respects (fun _ => True) (assign host result source) := by
  refine Stable.bind (lawful.objectAt_respects (lawful.stored_seen source stored)) fun object _ => ?_
  have copies (key : String) : boundary.Respects (fun _ => True) (do
      let value ← getProperty host (.object source) key
      putProperty host result key value) :=
    Stable.bind (lawful.getProperty_respects key stored) fun value found =>
      lawful.putProperty_respects key target found
  exact Stable.bind (Stable.mapList copies _) fun _ _ => Stable.pure trivial

theorem arrayItems_respects (stored : boundary.stored value) :
    boundary.Respects (fun items => ∀ item ∈ items.getD [], boundary.stored item) (arrayItems host value) := by
  cases value with
  | object addr =>
    refine Stable.bind (lawful.objectAt_respects (lawful.stored_seen addr stored)) fun found _ => ?_
    cases found with
    | none => exact Stable.pure (by simp)
    | some object =>
      refine Stable.ite (fun _ => ?_) fun _ => Stable.pure (by simp)
      refine Stable.bind (Stable.mapList (fun index => lawful.getProperty_respects _ stored) _)
        fun items inside => Stable.pure (by simpa using inside)
  | _ => exact Stable.pure (by simp)

theorem applyFunction_respects {kind : CallKind} {function : Addr} {thisArg : Value ν}
    {args : List (Value ν)} (stored : boundary.stored (.object function))
    (callee : boundary.Callee host function kind) (receiver : boundary.stored thisArg)
    (arguments : ∀ value ∈ args, boundary.stored value) :
    boundary.Respects boundary.held (applyFunction host kind function thisArg args) := by
  refine Stable.bind (lawful.chainOf_respects stored) fun chain seen => ?_
  refine Stable.bind (lawful.lookup_respects "apply" seen) fun found inside => ?_
  split
  · rename_i holder apply writable enumerable
    refine Stable.ite (fun _ => lawful.callHost_respects (fun _ => stored) callee receiver arguments)
      fun _ => ?_
    refine Stable.ite (fun _ => ?_) fun _ => Stable.throw _
    refine Stable.bind (lawful.newArray_respects arguments) fun list held => ?_
    refine lawful.callHost_respects (lawful.override_stored holder apply (inside holder _ rfl).2) trivial stored ?_
    simpa using ⟨receiver, lawful.held_stored _ held⟩
  · exact Stable.throw _

theorem convertWith_respects (stored : boundary.stored value) (names : List String) :
    boundary.Respects (fun result => result.isObject = false) (convertWith host value names) := by
  induction names with
  | nil => exact Stable.throw _
  | cons name rest ih =>
    refine Stable.bind (lawful.getProperty_respects name stored) fun method found => ?_
    cases method with
    | object function =>
      refine Stable.ite (fun _ => ?_) fun _ => ih
      refine Stable.bind (lawful.callHost_respects (fun _ => found) trivial stored (by simp))
        fun result _ => ?_
      refine Stable.ite (fun _ => ih) fun primitive => Stable.pure ?_
      simpa using primitive
    | _ => exact ih

theorem toPrimitive_respects (preferString : Bool) (stored : boundary.stored value) :
    boundary.Respects (fun result => result.isObject = false) (toPrimitive host preferString value) := by
  refine Stable.ite (fun _ => lawful.convertWith_respects stored _) fun primitive => Stable.pure ?_
  simpa using primitive

theorem toText_respects (stored : boundary.stored value) : boundary.Respects (fun _ => True) (toText host value) :=
  Stable.bind (lawful.toPrimitive_respects true stored) fun _ _ => Stable.pure trivial

end Numbers

end Boundary.Lawful

end Operations

end N8n.Sdk
