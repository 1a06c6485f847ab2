import N8n.SdkConfinement

/-! One interpretation after another. The SDK functions are objects that all
interpretations share, and an assignment may write to them. As long as an interpretation
writes to no object but its own, it leaves the others as they were and the next
interpretation, which cannot reach what it has created, goes the same way. -/

namespace N8n.Sdk

open Traced

section Boundaries

variable {ν : Type}

/-- What a function of the host reports as written is all that it changes, apart from
objects of the run that it is called in. -/
def ReportsWrites (function : Heap ν → HostOutcome ν) : Prop :=
  ∀ heap, (function heap).heap.run = heap.run ∧ ∀ addr, addr.run ≠ heap.run →
    addr ∉ (function heap).writes → (function heap).heap.objects addr = heap.objects addr

def Apart (run : ℕ) (value : Value ν) : Prop := ∀ addr, value = .object addr → addr.run ≠ run

def Unreferenced (run : ℕ) (heap : Heap ν) : Prop :=
  ∀ addr object, addr.run ≠ run → heap.objects addr = some object →
    object.Within (fun next => next.run ≠ run) (Apart run)

structure Alike (past : ℕ) (here there : Heap ν) : Prop where
  run_eq : there.run = here.run
  next_eq : there.next = here.next
  current : here.run ≠ past
  objects : ∀ addr, addr.run ≠ past → there.objects addr = here.objects addr
  unreferenced : Unreferenced past here

def Blind (past : ℕ) (function : Heap ν → HostOutcome ν) : Prop :=
  ∀ here there, Alike past here there →
    (function there).result = (function here).result ∧ (function there).writes = (function here).writes ∧
      Alike past (function here).heap (function there).heap ∧
      ∀ value, (function here).result = .ok value → Apart past value

/-- What is relied on of the functions of the host: they report what they write to, and
what they do depends on what can be reached from their arguments. -/
structure Host.WellBehaved (host : Host ν) (past : ℕ) : Prop where
  prototypes : ∀ addr ∈ host.prototypes, addr.run ≠ past
  provided : ∀ function, host.Provides function → function.run ≠ past
  call_reports : ∀ function thisArg args, ReportsWrites (host.call function thisArg args)
  stringify_reports : ∀ args, ReportsWrites (host.stringify args)
  call_blind : ∀ function thisArg args, function.run ≠ past → Apart past thisArg →
    (∀ value ∈ args, Apart past value) → Blind past (host.call function thisArg args)
  stringify_blind : ∀ args, (∀ value ∈ args, Apart past value) → Blind past (host.stringify args)

def OwnWrite (run : ℕ) : Event ν → Prop
  | .write target => target.run = run
  | _ => True

def ownWrites (heap : Heap ν) (run : ℕ) : Boundary ν where
  heaps here there := there = here ∧ here.run = run ∧ ∀ addr, addr.run ≠ run → here.objects addr = heap.objects addr
  ok := OwnWrite run
  claim _ := True
  held _ := True
  stored _ := True
  seen _ := True

def isolation (past : ℕ) : Boundary ν where
  heaps := Alike past
  ok _ := True
  claim _ := True
  held := Apart past
  stored := Apart past
  seen addr := addr.run ≠ past

end Boundaries

section Laws

variable {ν : Type} {host : Host ν} {function : Heap ν → HostOutcome ν} {past : ℕ} {object : Obj ν}

theorem Content.within_true (content : Content ν) : content.Within fun _ => True := by
  cases content with
  | data value writable => trivial
  | accessor getter setter => exact ⟨fun _ _ => trivial, fun _ _ => trivial⟩

theorem ReportsWrites.keeps (reports : ReportsWrites function) (heap : Heap ν) (run : ℕ) :
    (ownWrites heap run).Keeps function := by
  rintro here there ⟨rfl, sameRun, unchanged⟩ own
  obtain ⟨keepsRun, keepsObjects⟩ := reports there
  refine ⟨rfl, rfl, ⟨rfl, keepsRun.trans sameRun, fun addr outside => ?_⟩, fun _ _ => trivial, fun _ _ => trivial⟩
  rw [← unchanged addr outside]
  exact keepsObjects addr (sameRun ▸ outside) fun written => outside (own addr written)

theorem ownWrites_lawful (behaved : host.WellBehaved past) (heap : Heap ν) (run : ℕ) :
    (ownWrites heap run).Lawful host where
  held_stored _ _ := trivial
  primitive_held _ _ := trivial
  stored_seen _ _ := trivial
  prototypes_seen _ _ := trivial
  function_held _ _ _ := trivial
  seen_object := by
    rintro here there addr ⟨rfl, _, _⟩ _
    exact ⟨rfl, fun _ _ => ⟨fun _ _ => trivial, fun _ slot _ _ => slot.content.within_true⟩⟩
  stored_object _ _ _ _ _ _ _ := ⟨fun _ _ => trivial, fun _ slot _ => slot.content.within_true⟩
  fresh := by
    rintro here there ⟨rfl, _, _⟩
    exact ⟨rfl, trivial⟩
  allocate_heaps := by
    rintro here there object ⟨rfl, sameRun, unchanged⟩ _
    refine ⟨rfl, sameRun, fun addr outside => ?_⟩
    have different : addr ≠ there.freshAddr := fun same => outside (same ▸ sameRun)
    simpa [Heap.allocate, Heap.store, different] using unchanged addr outside
  store_heaps := by
    rintro here there addr object ⟨rfl, sameRun, unchanged⟩ _ own _
    refine ⟨rfl, sameRun, fun other outside => ?_⟩
    have different : other ≠ addr := fun same => outside (same ▸ own)
    simpa [Heap.store, different] using unchanged other outside
  found_claim _ _ _ := trivial
  read_held _ _ _ := trivial
  read_claim _ _ _ := trivial
  call_claim _ _ _ _ _ := trivial
  setter_claim _ := trivial
  override_stored _ _ _ _ := trivial
  safe_claim _ _ := trivial
  write_claim _ _ _ := trivial
  call_keeps function thisArg args _ _ _ := (behaved.call_reports function thisArg args).keeps heap run
  stringify_keeps args _ := (behaved.stringify_reports args).keeps heap run

theorem Alike.store {here there : Heap ν} (alike : Alike past here there) (addr : Addr)
    (within : object.Within (fun next => next.run ≠ past) (Apart past)) :
    Alike past (here.store addr object) (there.store addr object) := by
  refine ⟨alike.run_eq, alike.next_eq, alike.current, ?_, ?_⟩
  · intro other outside
    simp only [Heap.store, Function.update_apply]
    split
    · rfl
    · exact alike.objects other outside
  · intro other found outside get
    simp only [Heap.store, Function.update_apply] at get
    split at get
    · cases get
      exact within
    · exact alike.unreferenced other found outside get

theorem Alike.freshAddr_eq {here there : Heap ν} (alike : Alike past here there) :
    there.freshAddr = here.freshAddr := by
  simp [Heap.freshAddr, alike.run_eq, alike.next_eq]

theorem Alike.allocate {here there : Heap ν} (alike : Alike past here there)
    (within : object.Within (fun next => next.run ≠ past) (Apart past)) :
    Alike past (here.allocate object) (there.allocate object) := by
  have stored := alike.store here.freshAddr within
  refine ⟨stored.run_eq, ?_, stored.current, ?_, stored.unreferenced⟩
  · exact congrArg (· + 1) alike.next_eq
  · simpa [Heap.allocate, alike.freshAddr_eq] using stored.objects

theorem Blind.keeps (blind : Blind past function) : (isolation past).Keeps function := by
  intro here there alike _
  obtain ⟨result, writes, after, apart⟩ := blind here there alike
  exact ⟨result, writes, after, fun _ _ => trivial, apart⟩

theorem isolation_lawful (behaved : host.WellBehaved past) : (isolation past).Lawful host where
  held_stored _ held := held
  primitive_held := by
    rintro value primitive addr rfl
    cases primitive
  stored_seen addr stored := stored addr rfl
  prototypes_seen := behaved.prototypes
  function_held name function provided := by
    rintro addr ⟨⟩
    exact behaved.provided function ⟨name, provided⟩
  seen_object here there addr alike outside := by
    refine ⟨alike.objects addr outside, fun object found => ?_⟩
    have within := alike.unreferenced addr object outside found
    exact ⟨within.prototypes, fun name slot get _ => within.slots name slot get⟩
  stored_object here there addr object alike stored found :=
    alike.unreferenced addr object (stored addr rfl) found
  fresh here there alike := by
    refine ⟨alike.freshAddr_eq, ?_⟩
    rintro addr ⟨⟩
    exact alike.current
  allocate_heaps here there object alike within := alike.allocate within
  store_heaps here there addr object alike _ _ within := alike.store addr within
  found_claim _ _ _ := trivial
  read_held _ stored _ := stored
  read_claim _ _ _ := trivial
  call_claim _ _ _ _ _ := trivial
  setter_claim _ := trivial
  override_stored _ _ stored _ := stored trivial
  safe_claim _ _ := trivial
  write_claim _ _ _ := trivial
  call_keeps function thisArg args stored receiver arguments :=
    (behaved.call_blind function thisArg args (stored function rfl) receiver arguments).keeps
  stringify_keeps args stored := (behaved.stringify_blind args stored).keeps

end Laws

section Programs

variable {ν : Type} [JsNumber ν] {interpreter : Interpreter ν} {heap : Heap ν} {first second : ℕ}

theorem interpretSDKCode_unchanged (behaved : interpreter.host.WellBehaved first) (program : Program ν)
    (own : ∀ target, .write target ∈ (interpretSDKCode interpreter first heap program).events → target.run = first) :
    ∀ addr, addr.run ≠ first →
      (interpretSDKCode interpreter first heap program).state.heap.objects addr = heap.objects addr := by
  have acceptable : ∀ event ∈ (interpretSDKCode interpreter first heap program).events,
      OwnWrite first event := by
    intro event member
    cases event with
    | write target => exact own target member
    | _ => trivial
  have lawful := ownWrites_lawful behaved heap first
  obtain ⟨_, _, heaps, _⟩ := lawful.interpretSDKCode_respects program ⟨rfl, rfl, fun _ _ => rfl⟩ acceptable
  exact heaps.2.2

/-- If a run writes to its own objects only, all others are as they were behind it and
the next run gives the same result, with the same objects, as without it. -/
theorem interpretSDKCode_isolated (distinct : second ≠ first)
    (behaved : interpreter.host.WellBehaved first) (fresh : Unreferenced first heap) (p q : Program ν)
    (own : ∀ target, .write target ∈ (interpretSDKCode interpreter first heap p).events → target.run = first) :
    let after := (interpretSDKCode interpreter first heap p).state.heap
    let alone := interpretSDKCode interpreter second heap q
    let later := interpretSDKCode interpreter second after q
    (∀ addr, addr.run ≠ first → after.objects addr = heap.objects addr) ∧
      later.result = alone.result ∧ later.events = alone.events ∧
      (∀ value, alone.result = .ok value → Apart first value) ∧
      ∀ addr, addr.run ≠ first → later.state.heap.objects addr = alone.state.heap.objects addr := by
  intro after alone later
  have unchanged := interpretSDKCode_unchanged behaved p own
  have alike : Alike first (startState second heap).heap (startState second after).heap :=
    ⟨rfl, rfl, distinct, unchanged, fresh⟩
  obtain ⟨result, events, heaps, _, apart⟩ :=
    (isolation_lawful behaved).interpretSDKCode_respects q alike fun _ _ => trivial
  exact ⟨unchanged, result, events, apart, heaps.objects⟩

theorem smallHost_wellBehaved : smallInterpreter.host.WellBehaved 2 where
  prototypes := by simp [Host.prototypes, smallInterpreter, smallHost]
  provided := by
    rintro function ⟨name, provided⟩
    simp only [smallInterpreter, smallHost, OrderedMap.get_set, OrderedMap.get_empty] at provided
    split_ifs at provided
    all_goals
      cases provided
      decide
  call_reports function thisArg args heap := by
    simp only [smallInterpreter, smallHost]
    split_ifs
    all_goals exact ⟨rfl, fun _ _ _ => rfl⟩
  stringify_reports args heap := ⟨rfl, fun _ _ _ => rfl⟩
  call_blind function thisArg args _ _ _ here there alike := by
    simp only [smallInterpreter, smallHost]
    split_ifs
    all_goals exact ⟨rfl, rfl, alike, by simp [Apart]⟩
  stringify_blind args _ here there alike := ⟨rfl, rfl, alike, by simp [smallInterpreter, smallHost, Apart]⟩

theorem smallHeap_unreferenced : Unreferenced 2 smallHeap := by
  intro addr object _ found
  refine ⟨?_, fun name slot get => ?_⟩
  · simp only [smallHeap] at found
    split_ifs at found
    all_goals
      cases found
      decide
  · refine (smallHeap_run found get).2.mono fun value inside member same => ?_
    rw [inside member same]
    decide

/-- `export default workflow.x;` -/
def readsWorkflow : Program Int :=
  [.exportDefaultDeclaration (.member (.identifier "workflow") (.identifier "x") false)]

theorem readsWorkflow_after_placeholderProgram : (interpretSDKCode smallInterpreter 3
        (interpretSDKCode smallInterpreter 2 smallHeap placeholderProgram).state.heap readsWorkflow).result =
      (interpretSDKCode smallInterpreter 3 smallHeap readsWorkflow).result := by
  refine (interpretSDKCode_isolated (by decide) smallHost_wellBehaved smallHeap_unreferenced
    placeholderProgram readsWorkflow ?_).2.1
  rw [placeholderProgram_events]
  simp

/-- `workflow.x = 1;` is still there for the next program. -/
theorem assignment_outlives_run : (interpretSDKCode smallInterpreter 3 (interpretSDKCode smallInterpreter 2 smallHeap
          [.expressionStatement (.assignment .assign
            (.member (.identifier "workflow") (.identifier "x") false) (.literal (.number 1)))]).state.heap
        readsWorkflow).result = .ok (.number 1) ∧
      (interpretSDKCode smallInterpreter 3 smallHeap readsWorkflow).result = .ok .undefined := by
  decide

end Programs

end N8n.Sdk
