import Mathlib.Data.List.Perm.Basic
import Mathlib.Data.List.Dedup
import N8n.ExceptFold
import N8n.SparseArray
import N8n.Workflow

/-! The routing of failed items to the error output. The outputs of a node are arrays that the
loop drains in place, and a node may return one array for several outputs, so that an output is
the place of its array. `V` are values and `E` is what may be thrown. The error output is the
last main output and gets its array without a look at what was there. -/

namespace N8n.NodeErrorOutput

open List Option

/-! ## The outputs of the node -/

def getNodeOutputs (outputs : List NodeConnectionType) (continueErrorOutput : Bool) :
    List NodeConnectionType :=
  if continueErrorOutput then outputs ++ [.main] else outputs

def mainOutputTypes (outputs : List NodeConnectionType) : List NodeConnectionType :=
  (getNodeOutputs outputs true).filter (· = .main)

theorem mainOutputTypes_length (outputs : List NodeConnectionType) :
    (mainOutputTypes outputs).length = (outputs.filter (· = .main)).length + 1 := by
  simp [mainOutputTypes, getNodeOutputs]

/-! ## Items -/

structure ISourceData where
  previousNode : String
  previousNodeOutput : Option ℕ
  previousNodeRun : Option ℕ
  deriving DecidableEq

structure IPairedItemData where
  item : ℕ
  input : Option ℕ
  sourceOverwrite : Option ISourceData
  deriving DecidableEq

inductive PairedItem where
  | number (item : ℕ)
  | one (data : IPairedItemData)
  | many (data : List IPairedItemData)
  deriving DecidableEq

structure INodeExecutionData (V : Type*) where
  json : OrderedMap String V
  error : Option V
  pairedItem : Option PairedItem
  deriving DecidableEq

/-- What is read besides the outputs: which values are truthy, the sources of the execution, and
the items that `$getPairedItem` finds, `null` among them. -/
structure Context (V E : Type*) where
  truthy : V → Bool
  source : Option (OrderedMap NodeConnectionType (List (Option ISourceData)))
  getPairedItem : String → ISourceData → IPairedItemData → Except E (Option (INodeExecutionData V))
  typeError : E

section Items

variable {V E : Type*} (x : Context V E)

def isTruthy (value : Option V) : Bool := value.any x.truthy

def errorData (item : INodeExecutionData V) : Option V :=
  if isTruthy x item.error then item.error
  else if isTruthy x (item.json.get "error") && item.json.size == 1 then item.json.get "error"
  else if isTruthy x (item.json.get "error") && isTruthy x (item.json.get "message") &&
      item.json.size == 2 then item.json.get "error"
  else none

def Failed (item : INodeExecutionData V) : Bool := isTruthy x (errorData x item)

def pairedItemData (item : INodeExecutionData V) : Option IPairedItemData :=
  match item.pairedItem with
  | none | some (.number _) => none
  | some (.one data) => some data
  | some (.many data) => data[0]?

/-- `{...first, ...second}`. -/
def spread (first second : OrderedMap String V) : OrderedMap String V :=
  second.entries.foldl (fun members entry => members.set entry.1 entry.2) first

/-- What goes to the error output for a failed item. -/
def errorItem (item : INodeExecutionData V) : Except E (INodeExecutionData V) :=
  match x.source, pairedItemData item with
  | some source, some pairedItemData =>
    match source.get .main with
    | none => .error x.typeError
    | some sources =>
      match (sources[pairedItemData.input.getD 0]?).join with
      | none => .error x.typeError
      | some sourceData => do
        match ← x.getPairedItem sourceData.previousNode sourceData pairedItemData with
        | none => return item
        | some constPairedItem => return { item with json := spread constPairedItem.json item.json }
  | _, _ => .ok item

/-- The successful items and the error items; nothing else is left of an array. -/
def drain : List (Option (INodeExecutionData V)) → Except E (List (INodeExecutionData V) × List (INodeExecutionData V))
  | [] => .ok ([], [])
  | none :: items => drain items
  | some item :: items =>
    if Failed x item then do
      let errorItem ← errorItem x item
      let rest ← drain items
      return (rest.1, errorItem :: rest.2)
    else do
      let rest ← drain items
      return (item :: rest.1, rest.2)

end Items

/-! ## The loop -/

inductive Output (V : Type*) where
  | returned (array : ℕ)
  | rebuilt (items : List (INodeExecutionData V))

structure OutputData (V : Type*) where
  arrays : ℕ → List (Option (INodeExecutionData V))
  outputs : List (Option (Output V))

section Loop

variable {V E : Type*} (x : Context V E)

def OutputData.contents (data : OutputData V) (outputIndex : ℕ) : List (Option (INodeExecutionData V)) :=
  match (data.outputs[outputIndex]?).join with
  | none => []
  | some (.returned array) => data.arrays array
  | some (.rebuilt items) => items.map some

def OutputData.items (data : OutputData V) (outputIndex : ℕ) : List (INodeExecutionData V) :=
  (data.contents outputIndex).reduceOption

def OutputData.emptied (data : OutputData V) (outputIndex : ℕ) : ℕ → List (Option (INodeExecutionData V)) :=
  match (data.outputs[outputIndex]?).join with
  | some (.returned array) => Function.update data.arrays array []
  | _ => data.arrays

def OutputData.assign (data : OutputData V) (outputIndex : ℕ) (items : List (INodeExecutionData V)) :
    OutputData V :=
  { data with outputs := assignAt none data.outputs outputIndex (some (.rebuilt items)) }

/-- One pass of the loop, with the error items so far. -/
def routeOutput (state : OutputData V × List (INodeExecutionData V)) (outputIndex : ℕ) :
    Except E (OutputData V × List (INodeExecutionData V)) := do
  let drained ← drain x (state.1.contents outputIndex)
  return ({ state.1 with arrays := state.1.emptied outputIndex }.assign outputIndex drained.1, state.2 ++ drained.2)

/-- The outputs as a node returns them: in places of arrays, or none. -/
structure NodeOutputs (V : Type*) where
  arrays : ℕ → List (Option (INodeExecutionData V))
  outputs : List (Option ℕ)

def NodeOutputs.data (node : NodeOutputs V) : OutputData V :=
  ⟨node.arrays, node.outputs.map (Option.map .returned)⟩

def handleNodeErrorOutput (outputs : List NodeConnectionType) (nodeSuccessData : NodeOutputs V) :
    Except E (OutputData V) := do
  let last := (mainOutputTypes outputs).length - 1
  let state ← (List.range last).foldlM (routeOutput x) (nodeSuccessData.data, [])
  return state.1.assign last state.2

end Loop

/-! ## What is drained -/

section Drained

variable {V E : Type*} (x : Context V E)

def enriched (item : INodeExecutionData V) : INodeExecutionData V :=
  match errorItem x item with
  | .ok errorItem => errorItem
  | .error _ => item

def Reads (items : List (INodeExecutionData V)) : Prop :=
  ∀ item ∈ items, Failed x item = true → errorItem x item = .ok (enriched x item)

def errorItems (items : List (INodeExecutionData V)) : List (INodeExecutionData V) :=
  (items.filter (Failed x)).map (enriched x)

def successItems (items : List (INodeExecutionData V)) : List (INodeExecutionData V) :=
  items.filter fun item => !Failed x item

variable {x}

theorem enriched_of_ok {item found : INodeExecutionData V} (read : errorItem x item = .ok found) :
    enriched x item = found := by
  rw [enriched, read]

theorem drain_eq_ok {items : List (Option (INodeExecutionData V))}
    {result : List (INodeExecutionData V) × List (INodeExecutionData V)} :
    drain x items = .ok result ↔ Reads x items.reduceOption ∧
      result = (successItems x items.reduceOption, errorItems x items.reduceOption) := by
  induction items generalizing result with
  | nil =>
    rw [drain, Except.ok.injEq]
    exact ⟨fun same => ⟨by simp [Reads], same.symm⟩, fun both => both.2.symm⟩
  | cons item items ih =>
    cases item with
    | none => rw [drain, ih, reduceOption_cons_of_none]
    | some item =>
      rw [drain, reduceOption_cons_of_some]
      by_cases failed : Failed x item = true
      · rw [if_pos failed, bind_eq_ok]
        simp only [bind_eq_ok, ih, Reads, forall_mem_cons, successItems, errorItems, failed,
          filter_cons_of_pos, filter_cons_of_neg, map_cons, Bool.not_true,
          Bool.false_eq_true, not_false_eq_true, forall_const]
        constructor
        · rintro ⟨found, read, rest, ⟨reads, rfl⟩, same⟩
          rw [enriched_of_ok read]
          exact ⟨⟨read, reads⟩, (Except.ok.inj same).symm⟩
        · rintro ⟨⟨read, reads⟩, rfl⟩
          exact ⟨_, read, _, ⟨reads, rfl⟩, rfl⟩
      · have vacuous : Reads x (item :: items.reduceOption) ↔ Reads x items.reduceOption := by
          rw [Reads, forall_mem_cons]
          exact and_iff_right fun holds => absurd holds failed
        rw [if_neg failed, bind_eq_ok, vacuous]
        simp only [ih, successItems, errorItems, failed, filter_cons_of_pos,
          filter_cons_of_neg, Bool.not_false, Bool.false_eq_true, not_false_eq_true]
        constructor
        · rintro ⟨rest, ⟨reads, rfl⟩, same⟩
          exact ⟨reads, (Except.ok.inj same).symm⟩
        · rintro ⟨reads, rfl⟩
          exact ⟨_, ⟨reads, rfl⟩, rfl⟩

end Drained

/-! ## What the loop leaves -/

section Passes

variable {V E : Type*} (x : Context V E) (node : NodeOutputs V)

def NodeOutputs.place (outputIndex : ℕ) : Option ℕ := (node.outputs[outputIndex]?).join

def NodeOutputs.items (outputIndex : ℕ) : List (INodeExecutionData V) := node.data.items outputIndex

def NodeOutputs.Drained (outputIndex : ℕ) : Prop :=
  ∃ earlier < outputIndex, node.place earlier = node.place outputIndex

open Classical in
noncomputable def NodeOutputs.found (outputIndex : ℕ) : List (INodeExecutionData V) :=
  if node.Drained outputIndex then [] else node.items outputIndex

theorem slot_data (outputIndex : ℕ) :
    (node.data.outputs[outputIndex]?).join = (node.place outputIndex).map .returned := by
  rw [NodeOutputs.data, getElem?_map, NodeOutputs.place]
  cases node.outputs[outputIndex]? <;> rfl

theorem items_eq (outputIndex : ℕ) :
    node.items outputIndex = (node.place outputIndex).elim [] fun array => (node.arrays array).reduceOption := by
  rw [NodeOutputs.items, OutputData.items, OutputData.contents, slot_data]
  cases node.place outputIndex <;> rfl

/-- The state after `count` passes. -/
structure Passed (count : ℕ) (state : OutputData V × List (INodeExecutionData V)) : Prop where
  slots : ∀ i, (state.1.outputs[i]?).join = if i < count then
    some (.rebuilt (successItems x (node.found i))) else (node.place i).map .returned
  arrays : ∀ array, state.1.arrays array = [] ∧ (∃ i < count, node.place i = some array) ∨
    state.1.arrays array = node.arrays array ∧ ∀ i < count, node.place i ≠ some array
  errors : state.2 = (List.range count).flatMap fun i => errorItems x (node.found i)

variable {x node} {count : ℕ} {state : OutputData V × List (INodeExecutionData V)}

theorem Passed.start : Passed x node 0 (node.data, []) :=
  ⟨fun i => by rw [slot_data]; simp, fun array => .inr ⟨rfl, by simp⟩, rfl⟩

theorem Passed.contents (passed : Passed x node count state) :
    (state.1.contents count).reduceOption = node.found count := by
  have slot := passed.slots count
  rw [if_neg (Nat.lt_irrefl count)] at slot
  rw [OutputData.contents, slot, NodeOutputs.found, items_eq]
  cases placed : node.place count with
  | none =>
    simp only [map_none, elim_none, ite_self]
    rfl
  | some array =>
    simp only [map_some, elim_some]
    rcases passed.arrays array with ⟨empty, earlier⟩ | ⟨same, never⟩
    · rw [empty, if_pos (by rw [NodeOutputs.Drained, placed]; exact earlier)]
      rfl
    · rw [same, if_neg]
      rintro ⟨earlier, before, shared⟩
      exact never earlier before (shared.trans placed)

theorem getElem?_join_assignAt {α : Type*} (xs : List (Option α)) (i j : ℕ) (value : Option α) :
    ((assignAt none xs i value)[j]?).join = if j = i then value else (xs[j]?).join := by
  have getD : ∀ ys : List (Option α), (ys[j]?).join = ys.getD j none := fun ys => by
    rw [getD_eq_getElem?_getD]
    cases ys[j]? <;> rfl
  rw [getD, getD]
  split
  · next same => rw [same, getD_assignAt_self]
  · next other => rw [getD_assignAt_ne _ _ _ other]

theorem Passed.pass (passed : Passed x node count state) {next : OutputData V × List (INodeExecutionData V)} :
    routeOutput x state count = .ok next ↔ Reads x (node.found count) ∧
      next = ({ state.1 with arrays := state.1.emptied count }.assign count
        (successItems x (node.found count)), state.2 ++ errorItems x (node.found count)) := by
  simp only [routeOutput, bind_eq_ok, drain_eq_ok, passed.contents]
  constructor
  · rintro ⟨_, ⟨reads, rfl⟩, same⟩
    exact ⟨reads, (Except.ok.inj same).symm⟩
  · rintro ⟨reads, rfl⟩
    exact ⟨_, ⟨reads, rfl⟩, rfl⟩

theorem Passed.next (passed : Passed x node count state) :
    Passed x node (count + 1) ({ state.1 with arrays := state.1.emptied count }.assign count
      (successItems x (node.found count)), state.2 ++ errorItems x (node.found count)) := by
  refine ⟨fun i => ?_, fun array => ?_, ?_⟩
  · simp only [OutputData.assign, getElem?_join_assignAt, passed.slots]
    by_cases here : i = count
    · rw [here, if_pos rfl, if_pos (Nat.lt_succ_self _)]
    · rw [if_neg here]
      exact if_congr (by omega) rfl rfl
  · have placed := passed.slots count
    rw [if_neg (Nat.lt_irrefl count)] at placed
    have before := passed.arrays array
    simp only [OutputData.assign, OutputData.emptied, placed]
    cases place : node.place count with
    | none =>
      refine before.imp (And.imp_right fun ⟨i, lt, same⟩ => ⟨i, by omega, same⟩) (And.imp_right fun never i lt => ?_)
      rcases Nat.lt_succ_iff_lt_or_eq.mp lt with earlier | rfl
      · exact never i earlier
      · rw [place]
        exact some_ne_none array ∘ Eq.symm
    | some own =>
      simp only [map_some]
      by_cases same : array = own
      · subst same
        exact .inl ⟨Function.update_self .., count, Nat.lt_succ_self _, place⟩
      · rw [Function.update_of_ne same]
        refine before.imp (And.imp_right fun ⟨i, lt, same⟩ => ⟨i, by omega, same⟩) (And.imp_right fun never i lt => ?_)
        rcases Nat.lt_succ_iff_lt_or_eq.mp lt with earlier | rfl
        · exact never i earlier
        · rw [place]
          exact fun both => same (some.inj both).symm
  · rw [range_succ, flatMap_append, ← passed.errors, flatMap_singleton]

theorem passes (count : ℕ) : ∀ state, (List.range count).foldlM (routeOutput x) (node.data, []) = .ok state →
      Passed x node count state ∧ ∀ i < count, Reads x (node.found i) := by
  induction count with
  | zero =>
    intro state done
    obtain rfl := Except.ok.inj done
    exact ⟨.start, by simp⟩
  | succ count ih =>
    intro state done
    rw [range_succ, foldlM_append, bind_eq_ok] at done
    obtain ⟨mid, earlier, last⟩ := done
    obtain ⟨passed, reads⟩ := ih mid earlier
    obtain ⟨_, taken, done⟩ := foldlM_cons_eq_ok.mp last
    obtain rfl := Except.ok.inj done
    obtain ⟨readsLast, rfl⟩ := passed.pass.mp taken
    refine ⟨passed.next, fun i lt => ?_⟩
    rcases Nat.lt_succ_iff_lt_or_eq.mp lt with before | rfl
    · exact reads i before
    · exact readsLast

theorem passes_of_reads (count : ℕ) (reads : ∀ i < count, Reads x (node.found i)) :
    ∃ state, (List.range count).foldlM (routeOutput x) (node.data, []) = .ok state := by
  induction count with
  | zero => exact ⟨_, rfl⟩
  | succ count ih =>
    obtain ⟨mid, earlier⟩ := ih fun i lt => reads i (by omega)
    have passed := (passes count mid earlier).1
    obtain ⟨next, taken⟩ : ∃ next, routeOutput x mid count = .ok next :=
      ⟨_, passed.pass.mpr ⟨reads count (Nat.lt_succ_self _), rfl⟩⟩
    refine ⟨next, ?_⟩
    rw [range_succ, foldlM_append, bind_eq_ok]
    exact ⟨mid, earlier, foldlM_cons_eq_ok.mpr ⟨next, taken, rfl⟩⟩

end Passes

/-! ## Which items are kept -/

section Kept

variable {V E : Type*} (x : Context V E)

def routed (item : INodeExecutionData V) : INodeExecutionData V :=
  if Failed x item then enriched x item else item

def itemsOn (items : ℕ → List (INodeExecutionData V)) (count : ℕ) : List (INodeExecutionData V) :=
  (List.range count).flatMap items

/-- Each item is on exactly one main output, a failed one with the error items, where those of one
output keep their order, any other where it was. -/
structure KeepsItems (count : ℕ) (before after : ℕ → List (INodeExecutionData V)) : Prop where
  conserved : (itemsOn after count).Perm ((itemsOn before count).map (routed x))
  errors : (after (count - 1)).Perm (errorItems x (itemsOn before count))
  stay : ∀ i < count - 1, after i = successItems x (before i)
  order : ∀ i < count, (errorItems x (before i)).Sublist (after (count - 1))

variable {x} {node : NodeOutputs V} {outputs : List NodeConnectionType} {after : OutputData V}

theorem itemsOn_succ (items : ℕ → List (INodeExecutionData V)) (count : ℕ) :
    itemsOn items (count + 1) = itemsOn items count ++ items count := by
  rw [itemsOn, range_succ, flatMap_append, flatMap_singleton, itemsOn]

theorem itemsOn_congr {items others : ℕ → List (INodeExecutionData V)} {count : ℕ}
    (same : ∀ i < count, items i = others i) : itemsOn items count = itemsOn others count :=
  flatMap_congr fun i member => same i (mem_range.mp member)

theorem errorItems_append (items others : List (INodeExecutionData V)) :
    errorItems x (items ++ others) = errorItems x items ++ errorItems x others := by
  simp [errorItems]

theorem errorItems_itemsOn (items : ℕ → List (INodeExecutionData V)) (count : ℕ) :
    errorItems x (itemsOn items count) = itemsOn (fun i => errorItems x (items i)) count := by
  induction count with
  | zero => rfl
  | succ count ih => rw [itemsOn_succ, itemsOn_succ, errorItems_append, ih]

theorem success_error_perm (items : List (INodeExecutionData V)) :
    (successItems x items ++ errorItems x items).Perm (items.map (routed x)) := by
  have apart := (filter_append_perm (Failed x) items).symm.map (routed x)
  rw [map_append] at apart
  refine (perm_append_comm.trans ?_).trans apart.symm
  have failed : (items.filter (Failed x)).map (routed x) = errorItems x items :=
    map_congr_left fun item member => if_pos (mem_filter.mp member).2
  have succeeded : (items.filter fun item => !Failed x item).map (routed x) = successItems x items := by
    refine (map_congr_left fun item member => ?_).trans (List.map_id _)
    have kept := (mem_filter.mp member).2
    exact if_neg (by simpa using kept)
  rw [failed, succeeded]

theorem success_error_itemsOn (items : ℕ → List (INodeExecutionData V)) (count : ℕ) :
    (itemsOn (fun i => successItems x (items i)) count ++
      itemsOn (fun i => errorItems x (items i)) count).Perm ((itemsOn items count).map (routed x)) := by
  induction count with
  | zero => exact .refl _
  | succ count ih =>
    rw [itemsOn_succ, itemsOn_succ, itemsOn_succ, map_append]
    refine Perm.trans ?_ (ih.append (success_error_perm (items count)))
    rw [append_assoc, append_assoc]
    refine Perm.append_left _ ?_
    rw [← append_assoc, ← append_assoc]
    exact perm_append_comm.append_right _

theorem reduceOption_map_some {α : Type*} (xs : List α) : (xs.map some).reduceOption = xs := by
  simp [List.reduceOption]

theorem items_after (done : handleNodeErrorOutput x outputs node = .ok after) :
    (∀ i < (mainOutputTypes outputs).length - 1, Reads x (node.found i)) ∧
      (∀ i < (mainOutputTypes outputs).length - 1, after.items i = successItems x (node.found i)) ∧
      after.items ((mainOutputTypes outputs).length - 1) =
        itemsOn (fun i => errorItems x (node.found i)) ((mainOutputTypes outputs).length - 1) := by
  obtain ⟨state, looped, same⟩ := bind_eq_ok.mp done
  obtain rfl := Except.ok.inj same
  obtain ⟨passed, reads⟩ := passes _ state looped
  refine ⟨reads, fun i lt => ?_, ?_⟩
  · rw [OutputData.items, OutputData.contents, OutputData.assign, getElem?_join_assignAt, if_neg (Nat.ne_of_lt lt),
      passed.slots, if_pos lt]
    exact reduceOption_map_some _
  · rw [OutputData.items, OutputData.contents, OutputData.assign, getElem?_join_assignAt, if_pos rfl]
    exact (reduceOption_map_some _).trans passed.errors

theorem found_or_empty (node : NodeOutputs V) (i : ℕ) : node.found i = [] ∨ node.found i = node.items i := by
  rw [NodeOutputs.found]
  split
  · exact .inl rfl
  · exact .inr rfl

theorem itemsOn_found_le (node : NodeOutputs V) (count : ℕ) :
    (itemsOn node.found count).length ≤ (itemsOn node.items count).length ∧
      ((itemsOn node.items count).length ≤ (itemsOn node.found count).length →
        ∀ i < count, node.found i = node.items i) := by
  induction count with
  | zero => exact ⟨Nat.le_refl _, by simp⟩
  | succ count ih =>
    rw [itemsOn_succ, itemsOn_succ, length_append, length_append]
    rcases found_or_empty node count with none | all
    · rw [none, length_nil]
      refine ⟨by omega, fun le i lt => ?_⟩
      have empty : node.items count = [] := eq_nil_of_length_eq_zero (by omega)
      rcases Nat.lt_succ_iff_lt_or_eq.mp lt with before | rfl
      · exact ih.2 (by omega) i before
      · rw [none, empty]
    · rw [all]
      refine ⟨by omega, fun le i lt => ?_⟩
      rcases Nat.lt_succ_iff_lt_or_eq.mp lt with before | rfl
      · exact ih.2 (by omega) i before
      · exact all

theorem found_eq_iff (node : NodeOutputs V) (count : ℕ) : (∀ i < count, node.found i = node.items i) ↔
    ∀ i < count, ∀ earlier < i, node.place earlier = node.place i → node.items i = [] := by
  refine forall₂_congr fun i _ => ⟨fun same earlier before shared => ?_, fun apart => ?_⟩
  · rw [← same, NodeOutputs.found, if_pos ⟨earlier, before, shared⟩]
  · rw [NodeOutputs.found]
    split
    · next drained =>
      obtain ⟨earlier, before, shared⟩ := drained
      exact (apart earlier before shared).symm
    · rfl

/-- A call keeps the items exactly when the error items can be made, nothing is on the error output
before it, and no array with items is returned for two of the other main outputs. -/
theorem handleNodeErrorOutput_keeps_iff (x : Context V E) (outputs : List NodeConnectionType) (node : NodeOutputs V) :
    (∃ after, handleNodeErrorOutput x outputs node = .ok after ∧
        KeepsItems x (mainOutputTypes outputs).length node.items after.items) ↔
      (∀ i < (mainOutputTypes outputs).length - 1, Reads x (node.items i)) ∧
        node.items ((mainOutputTypes outputs).length - 1) = [] ∧
        ∀ i < (mainOutputTypes outputs).length - 1, ∀ earlier < i,
          node.place earlier = node.place i → node.items i = [] := by
  obtain ⟨last, count⟩ : ∃ last, (mainOutputTypes outputs).length = last + 1 := ⟨_, mainOutputTypes_length outputs⟩
  have split := success_error_itemsOn (x := x) node.found last
  rw [count, Nat.add_sub_cancel, ← found_eq_iff]
  constructor
  · rintro ⟨after, done, keeps⟩
    obtain ⟨reads, success, errors⟩ := items_after done
    rw [count, Nat.add_sub_cancel] at reads success errors
    -- what is on the outputs now was found on those before the last
    have conserved := keeps.conserved.length_eq
    rw [itemsOn_succ, errors, itemsOn_congr success, split.length_eq, itemsOn_succ] at conserved
    simp only [length_map, length_append] at conserved
    obtain ⟨le, all⟩ := itemsOn_found_le node last
    have same := all (by omega)
    refine ⟨fun i lt => same i lt ▸ reads i lt, eq_nil_of_length_eq_zero (by omega), same⟩
  · rintro ⟨reads, empty, same⟩
    have foundReads : ∀ i < (mainOutputTypes outputs).length - 1, Reads x (node.found i) := by
      rw [count, Nat.add_sub_cancel]
      exact fun i lt => same i lt ▸ reads i lt
    obtain ⟨state, looped⟩ := passes_of_reads _ foundReads
    obtain ⟨after, done⟩ : ∃ after, handleNodeErrorOutput x outputs node = .ok after :=
      ⟨_, bind_eq_ok.mpr ⟨state, looped, rfl⟩⟩
    obtain ⟨_, success, errors⟩ := items_after done
    rw [count, Nat.add_sub_cancel] at success errors
    have sameErrors : itemsOn (fun i => errorItems x (node.found i)) last =
        itemsOn (fun i => errorItems x (node.items i)) last :=
      itemsOn_congr fun i lt => congrArg (errorItems x) (same i lt)
    refine ⟨after, done, ?_, ?_, ?_, ?_⟩
    · rw [itemsOn_succ, errors, itemsOn_congr success, itemsOn_succ, empty, append_nil, ← itemsOn_congr same]
      exact split
    · rw [Nat.add_sub_cancel, errors, sameErrors, itemsOn_succ, empty, append_nil, errorItems_itemsOn]
    · rw [Nat.add_sub_cancel]
      exact fun i lt => (success i lt).trans (congrArg _ (same i lt))
    · rw [Nat.add_sub_cancel, errors, sameErrors]
      intro i lt
      rcases Nat.lt_succ_iff_lt_or_eq.mp lt with before | rfl
      · rw [itemsOn, flatMap_def]
        exact sublist_flatten_of_mem (List.mem_map.mpr ⟨i, mem_range.mpr before, rfl⟩)
      · rw [empty]
        exact nil_sublist _

end Kept

def plainItem : INodeExecutionData Bool := ⟨.empty, none, none⟩

def noSource : Context Bool Unit := ⟨id, none, fun _ _ _ => .error (), ()⟩

def onErrorOutput : NodeOutputs Bool := ⟨fun array => if array = 1 then [some plainItem] else [], [some 0, some 1]⟩

theorem onErrorOutput_lost : ¬ ∀ (x : Context Bool Unit) (outputs : List NodeConnectionType) (node : NodeOutputs Bool),
      ∃ after, handleNodeErrorOutput x outputs node = .ok after ∧
        KeepsItems x (mainOutputTypes outputs).length node.items after.items := by
  intro keeps
  obtain ⟨after, done, kept⟩ := keeps noSource [.main] onErrorOutput
  obtain ⟨_, success, errors⟩ := items_after done
  have none : onErrorOutput.found 0 = [] := (found_or_empty onErrorOutput 0).elim id fun same => same.trans rfl
  have first : after.items 0 = [] := by rw [success 0 (by decide), none]; rfl
  have last : after.items 1 = [] := by
    refine errors.trans ?_
    change itemsOn _ 1 = []
    rw [itemsOn_succ, none]
    rfl
  have length := kept.conserved.length_eq
  have before : ((itemsOn onErrorOutput.items 2).map (routed noSource)).length = 1 := rfl
  have now : itemsOn after.items 2 = [] := by
    rw [itemsOn_succ, itemsOn_succ, first, last]
    rfl
  exact absurd ((congrArg List.length now).symm.trans (length.trans before)) (by decide)

end N8n.NodeErrorOutput
