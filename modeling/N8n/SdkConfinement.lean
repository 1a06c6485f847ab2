import Mathlib.Algebra.Group.Int.Defs
import N8n.SdkRespects

/-! What SDK code can call, read and change. The interpreter checks names, not where a
property is found or what its value is. As long as no step of a run finds a property on
a built-in object and none takes a method as a value, the code stays among the provided
functions, the allowed methods and the safe methods of its tables. -/

namespace N8n.Sdk

open Traced OrderedMap

section Confinement

variable {ν : Type}

def Host.Provides (host : Host ν) (function : Addr) : Prop :=
  ∃ name, host.sdkFunctions.get name = some function

/-- The objects of the language itself: the prototypes and whatever they hold. No other
object holds one of them and none is an SDK function. -/
structure BuiltIns (host : Host ν) (heap : Heap ν) where
  contains : Addr → Prop
  prototypes : ∀ addr ∈ host.prototypes, contains addr
  members : ∀ addr object name slot, contains addr → heap.objects addr = some object →
    object.properties.get name = some slot →
    slot.content.Within fun value => ∀ member, value = .object member → contains member
  outside : ∀ addr object name slot, ¬contains addr → heap.objects addr = some object →
    object.properties.get name = some slot →
    slot.content.Within fun value => ∀ member, value = .object member → ¬contains member
  provided : ∀ function, host.Provides function → ¬contains function

namespace BuiltIns

variable {host : Host ν} {heap : Heap ν} (builtIns : BuiltIns host heap)

def Stored (value : Value ν) : Prop := ∀ addr, value = .object addr → ¬builtIns.contains addr

/-- A value that SDK code may hold: the functions among them are provided. -/
def Held (value : Value ν) : Prop :=
  ∀ addr, value = .object addr → ¬builtIns.contains addr ∧ (addr.callable → host.Provides addr)

/-- A heap with the built-in objects as they were, none of them among the others. -/
structure Clean (run : ℕ) (later : Heap ν) : Prop where
  run_eq : later.run = run
  unchanged : ∀ addr, builtIns.contains addr → later.objects addr = heap.objects addr
  outside : ∀ addr object, ¬builtIns.contains addr → later.objects addr = some object →
    object.Within (fun _ => True) builtIns.Stored

/-- The step meets no built-in object on its way and takes no method as a value. -/
def Steers : Event ν → Prop
  | .found holder _ => ¬builtIns.contains holder
  | .read value => ∀ addr, value = .object addr → addr.callable → host.Provides addr
  | .call function .override => host.Provides function
  | _ => True

/-- What the interpreter is meant to allow. Accessors and conversions run functions of
the object itself. -/
def Confined : Event ν → Prop
  | .found _ _ => True
  | .read value => ∀ addr, value = .object addr → ¬builtIns.contains addr
  | .call function kind => ¬builtIns.contains function ∧
    match kind with
    | .identifier _ => host.Provides function
    | .override => host.Provides function
    | .method name => isAllowedMethod name
    | .safeTable _ => False
    | .accessor => True
    | .conversion => True
  | .safeMethod name => name ∈ ["stringify", "repeat", "trim"]
  | .write target => ¬builtIns.contains target

/-- A function of the host does not touch the built-in objects, lets no other object
hold one of them and returns no method. -/
def LeftAlone (run : ℕ) (function : Heap ν → HostOutcome ν) : Prop :=
  ∀ later, builtIns.Clean run later → builtIns.Clean run (function later).heap ∧
      (∀ addr ∈ (function later).writes, ¬builtIns.contains addr) ∧
      ∀ value, (function later).result = .ok value → builtIns.Held value

/-- What is relied on of the SDK functions and their methods. -/
structure Trusted (run : ℕ) : Prop where
  call : ∀ function thisArg args, ¬builtIns.contains function → builtIns.Stored thisArg →
    (∀ value ∈ args, builtIns.Stored value) → builtIns.LeftAlone run (host.call function thisArg args)
  stringify : ∀ args, (∀ value ∈ args, builtIns.Stored value) → builtIns.LeftAlone run (host.stringify args)

def boundary (run : ℕ) : Boundary ν where
  heaps here there := there = here ∧ builtIns.Clean run here
  ok := builtIns.Steers
  claim := builtIns.Confined
  held := builtIns.Held
  stored := builtIns.Stored
  seen _ := True

end BuiltIns

end Confinement

section Heaps

variable {ν : Type} {host : Host ν} {heap : Heap ν} {builtIns : BuiltIns host heap} {run : ℕ} {later : Heap ν}

namespace BuiltIns.Clean
variable {object : Obj ν}

theorem store (clean : builtIns.Clean run later) {addr : Addr}
    (outside : ¬builtIns.contains addr) (within : object.Within (fun _ => True) builtIns.Stored) :
    builtIns.Clean run (later.store addr object) := by
  refine ⟨clean.run_eq, ?_, ?_⟩
  · intro other inside
    have different : other ≠ addr := fun same => outside (same ▸ inside)
    simpa [Heap.store, different] using clean.unchanged other inside
  · intro other found elsewhere at_
    by_cases same : other = addr
    · subst same
      simp only [Heap.store, Function.update_self, Option.some.injEq] at at_
      exact at_ ▸ within
    · simp only [Heap.store, Function.update_of_ne same] at at_
      exact clean.outside other found elsewhere at_

theorem fresh_outside (clean : builtIns.Clean run later) (earlier : ∀ addr, builtIns.contains addr → addr.run ≠ run) :
    ¬builtIns.contains later.freshAddr :=
  fun inside => earlier _ inside clean.run_eq

theorem allocate (clean : builtIns.Clean run later) (earlier : ∀ addr, builtIns.contains addr → addr.run ≠ run)
    (within : object.Within (fun _ => True) builtIns.Stored) : builtIns.Clean run (later.allocate object) :=
  let stored := clean.store (clean.fresh_outside earlier) within
  ⟨stored.run_eq, stored.unchanged, stored.outside⟩

end BuiltIns.Clean

theorem BuiltIns.LeftAlone.keeps {function : Heap ν → HostOutcome ν}
    (alone : builtIns.LeftAlone run function) : (builtIns.boundary run).Keeps function := by
  rintro here there ⟨rfl, clean⟩ _
  obtain ⟨after, writes, held⟩ := alone there clean
  exact ⟨rfl, rfl, ⟨rfl, after⟩, writes, held⟩

theorem BuiltIns.call_confined {function : Addr} {kind : CallKind}
    (stored : ¬builtIns.contains function) (callee : (builtIns.boundary run).Callee host function kind)
    (allowed : builtIns.Steers (.call function kind)) : builtIns.Confined (.call function kind) := by
  refine ⟨stored, ?_⟩
  cases kind with
  | identifier name => exact (callee.1 function rfl).2 callee.2
  | method name => exact callee
  | safeTable name => exact callee (builtIns.prototypes _ (by simp [Host.prototypes]))
  | accessor => trivial
  | conversion => trivial
  | override => exact allowed

theorem BuiltIns.boundary_lawful (earlier : ∀ addr, builtIns.contains addr → addr.run ≠ run)
    (trusted : builtIns.Trusted run) : (builtIns.boundary run).Lawful host where
  held_stored value held addr same := (held addr same).1
  primitive_held := by
    rintro value primitive addr rfl
    cases primitive
  stored_seen _ _ := trivial
  prototypes_seen _ _ := trivial
  function_held name function provided := by
    rintro addr ⟨⟩
    exact ⟨builtIns.provided function ⟨name, provided⟩, fun _ => ⟨name, provided⟩⟩
  seen_object := by
    rintro here there addr ⟨rfl, clean⟩ _
    refine ⟨rfl, fun object found => ⟨fun _ _ => trivial, fun name slot get outside => ?_⟩⟩
    exact (clean.outside addr object outside found).slots name slot get
  stored_object := by
    rintro here there addr object ⟨rfl, clean⟩ stored found
    exact clean.outside addr object (stored addr rfl) found
  fresh := by
    rintro here there ⟨rfl, clean⟩
    refine ⟨rfl, ?_⟩
    rintro addr ⟨⟩
    exact ⟨clean.fresh_outside earlier, fun callable => nomatch callable⟩
  allocate_heaps := by
    rintro here there object ⟨rfl, clean⟩ within
    exact ⟨rfl, clean.allocate earlier within⟩
  store_heaps := by
    rintro here there addr object ⟨rfl, clean⟩ stored _ within
    exact ⟨rfl, clean.store (stored addr rfl) within⟩
  found_claim _ _ _ := trivial
  read_held value stored allowed addr same := ⟨stored addr same, allowed addr same⟩
  read_claim value stored _ := stored
  call_claim function kind stored callee allowed := call_confined (stored function rfl) callee allowed
  setter_claim outside := absurd (builtIns.prototypes _ (by simp [Host.prototypes])) outside
  override_stored := by
    rintro holder function _ provided addr ⟨⟩
    exact builtIns.provided function provided
  safe_claim name member := member
  write_claim addr stored _ := stored addr rfl
  call_keeps function thisArg args stored receiver arguments :=
    (trusted.call function thisArg args (stored function rfl) receiver arguments).keeps
  stringify_keeps args stored := (trusted.stringify args stored).keeps

end Heaps

section Programs

variable {ν : Type} [JsNumber ν] {interpreter : Interpreter ν} {heap : Heap ν}

omit [JsNumber ν] in
theorem BuiltIns.start_clean (builtIns : BuiltIns interpreter.host heap) (run : ℕ) :
    builtIns.Clean run (startState run heap).heap :=
  ⟨rfl, fun _ _ => rfl, fun addr object outside found =>
    ⟨fun _ _ => trivial, fun name slot get => builtIns.outside addr object name slot outside found get⟩⟩

/-- Every call, read and write of a run is confined and the built-in objects are as they
were, if no step of the run strays to a built-in object or takes a method as a value. -/
theorem interpretSDKCode_confined (builtIns : BuiltIns interpreter.host heap) {run : ℕ}
    (earlier : ∀ addr, builtIns.contains addr → addr.run ≠ run) (trusted : builtIns.Trusted run)
    (program : Program ν)
    (steers : ∀ event ∈ (interpretSDKCode interpreter run heap program).events, builtIns.Steers event) :
    (∀ event ∈ (interpretSDKCode interpreter run heap program).events, builtIns.Confined event) ∧
      ∀ addr, builtIns.contains addr →
        (interpretSDKCode interpreter run heap program).state.heap.objects addr = heap.objects addr := by
  have lawful := BuiltIns.boundary_lawful earlier trusted
  obtain ⟨_, _, heaps, confined, _⟩ := lawful.interpretSDKCode_respects program ⟨rfl, builtIns.start_clean run⟩ steers
  exact ⟨confined, heaps.2.unchanged⟩

/-- Integers stand for the numbers of concrete programs. -/
instance : JsNumber Int where
  ofNat count := count
  toNat number := if 0 ≤ number then some number.toNat else none
  toCount number := if 0 ≤ number then some number.toNat else none
  nan := 0
  infinity := 0
  ofText text := text.toInt?.getD 0
  toText := toString
  typeOf _ := "number"
  truthy number := number ≠ 0
  plus := some
  minus number := some (-number)
  add left right := some (left + right)
  subtract left right := some (left - right)
  multiply left right := some (left * right)
  divide left right := some (left / right)
  remainder left right := some (left % right)
  power left right := some (left ^ right.toNat)
  less left right := left < right
  lessEqual left right := left ≤ right
  equal left right := left = right

/-- A host with a few members of the built-in prototypes and two SDK functions. -/
def smallHost : Host Int where
  objectPrototype := ⟨0, 0, false⟩
  functionPrototype := ⟨0, 1, true⟩
  arrayPrototype := ⟨0, 2, false⟩
  stringPrototype := ⟨0, 3, false⟩
  numberPrototype := ⟨0, 4, false⟩
  booleanPrototype := ⟨0, 5, false⟩
  regExpPrototype := ⟨0, 6, false⟩
  functionApply := ⟨0, 7, true⟩
  prototypeSetter := ⟨0, 8, true⟩
  call function _ args heap :=
    if function = ⟨1, 1, true⟩ then
      ⟨.ok (.string ("<__PLACEHOLDER_VALUE__" ++ (args.head?.getD .undefined).primitiveText ++ "__>")), heap, []⟩
    else if function = ⟨0, 9, true⟩ then ⟨.ok (.string "[object Undefined]"), heap, []⟩
    else ⟨.ok .undefined, heap, []⟩
  stringify _ heap := ⟨.ok .undefined, heap, []⟩
  sdkFunctions := .set (.set .empty "workflow" ⟨1, 0, true⟩) "placeholder" ⟨1, 1, true⟩

def smallHeap : Heap Int where
  objects addr :=
    if addr = ⟨0, 0, false⟩ then
      some ⟨[], false, .set .empty "toString" ⟨.data (.object ⟨0, 9, true⟩) true, false⟩⟩
    else if addr = ⟨0, 1, true⟩ then
      some ⟨[⟨0, 0, false⟩], false, .set .empty "apply" ⟨.data (.object ⟨0, 7, true⟩) true, false⟩⟩
    else if addr.run = 0 then some ⟨[⟨0, 1, true⟩, ⟨0, 0, false⟩], false, .empty⟩
    else if addr = ⟨1, 0, true⟩ ∨ addr = ⟨1, 1, true⟩ then
      some ⟨[⟨0, 1, true⟩, ⟨0, 0, false⟩], false, .empty⟩
    else none
  run := 1
  next := 2

def smallInterpreter : Interpreter Int := ⟨smallHost, id, fun _ => ""⟩

/-- `const o = { name: placeholder('a') }; o.flag = true; export default o.name;` -/
def placeholderProgram : Program Int :=
  [.variableDeclaration .const [⟨some "o", some (.object [(some (.identifier "name"),
      .call (.identifier "placeholder") [.literal (.string "a")])])⟩],
    .expressionStatement (.assignment .assign (.member (.identifier "o") (.identifier "flag") false)
      (.literal (.boolean true))),
    .exportDefaultDeclaration (.member (.identifier "o") (.identifier "name") false)]

theorem smallHeap_run {addr : Addr} {object : Obj Int} {name : String} {slot : Slot Int}
    (found : smallHeap.objects addr = some object) (get : object.properties.get name = some slot) :
    addr.run = 0 ∧ slot.content.Within fun value => ∀ member, value = .object member → member.run = 0 := by
  simp only [smallHeap] at found
  split_ifs at found with first second third fourth
  all_goals
    cases found
    simp only [get_set, get_empty] at get
  · split at get
    · cases get
      exact ⟨first ▸ rfl, by simp [Content.Within]⟩
    · cases get
  · split at get
    · cases get
      exact ⟨second ▸ rfl, by simp [Content.Within]⟩
    · cases get
  · cases get
  · cases get

def smallBuiltIns : BuiltIns smallInterpreter.host smallHeap where
  contains addr := addr.run = 0
  prototypes := by simp [Host.prototypes, smallInterpreter, smallHost]
  members addr object name slot _ found get := (smallHeap_run found get).2
  outside addr object name slot outside found get := absurd (smallHeap_run found get).1 outside
  provided := by
    rintro function ⟨name, provided⟩
    simp only [smallInterpreter, smallHost, get_set, get_empty] at provided
    split_ifs at provided
    all_goals
      cases provided
      decide

theorem smallBuiltIns_trusted (run : ℕ) : smallBuiltIns.Trusted run := by
  refine ⟨fun function thisArg args _ _ _ later clean => ?_, fun args _ later clean => ?_⟩
  · simp only [smallInterpreter, smallHost]
    split_ifs
    all_goals exact ⟨clean, by simp, by simp [BuiltIns.Held]⟩
  · exact ⟨clean, by simp [smallInterpreter, smallHost], by simp [smallInterpreter, smallHost, BuiltIns.Held]⟩

theorem placeholderProgram_events : (interpretSDKCode smallInterpreter 2 smallHeap placeholderProgram).events =
    [.call ⟨1, 1, true⟩ (.identifier "placeholder"), .write ⟨2, 0, false⟩, .write ⟨2, 0, false⟩,
      .found ⟨2, 0, false⟩ "name", .read (.string "<__PLACEHOLDER_VALUE__a__>")] := by
  decide

theorem placeholderProgram_confined : .call ⟨1, 1, true⟩ (.identifier "placeholder") ∈
        (interpretSDKCode smallInterpreter 2 smallHeap placeholderProgram).events ∧
      ∀ event ∈ (interpretSDKCode smallInterpreter 2 smallHeap placeholderProgram).events,
        smallBuiltIns.Confined event := by
  refine ⟨by simp [placeholderProgram_events], ?_⟩
  refine (interpretSDKCode_confined smallBuiltIns (by simp [smallBuiltIns]; omega) (smallBuiltIns_trusted 2)
    placeholderProgram ?_).1
  rw [placeholderProgram_events]
  simp [BuiltIns.Steers, smallBuiltIns]

/-- `export default JSON.toString();` calls what the table of safe methods inherits, and
`const f = {}.toString; export default f();` a function that was read as a value. -/
theorem inherited_function_is_called : (∃ event ∈ (interpretSDKCode smallInterpreter 2 smallHeap
        [.exportDefaultDeclaration (.call (.member (.identifier "JSON") (.identifier "toString") false) [])]).events,
      ¬smallBuiltIns.Confined event) ∧
    ∃ event ∈ (interpretSDKCode smallInterpreter 2 smallHeap
        [.variableDeclaration .const [⟨some "f", some (.member (.object []) (.identifier "toString") false)⟩],
          .exportDefaultDeclaration (.call (.identifier "f") [])]).events,
      ¬smallBuiltIns.Confined event := by
  refine ⟨⟨.call ⟨0, 9, true⟩ (.safeTable "toString"), by decide, fun confined => confined.1 rfl⟩,
    ⟨.call ⟨0, 9, true⟩ (.identifier "f"), by decide, fun confined => confined.1 rfl⟩⟩

end Programs

end N8n.Sdk
