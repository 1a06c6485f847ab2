import N8n.ParametersSuperset
import N8n.PlainData

/-! The connections that one version of a workflow has and another lacks, by node, input name and
output. Connections are told apart by their JSON text. Input names are any names that no
built-in object has as a property; names of nodes can also be those of inherited members. -/

namespace N8n.WorkflowDiff

open JsonText WorkflowChecksum List Option
open OrderedMap (get_set get_set_self)

/-! ## The comparison -/

/-- By output; slots may be null. -/
abbrev NodeInputConnections := List (Option (List Value))

abbrev INodeConnections (T : Type) := OrderedMap T NodeInputConnections

abbrev IConnections (T : Type) := OrderedMap String (INodeConnections T)

structure ConnectionEntry where
  sourceIndex : ℕ
  index : ℕ
  connection : Value

abbrev INodeConnectionsDiff (T : Type) := OrderedMap T (List ConnectionEntry)

abbrev ConnectionsSide (T : Type) := OrderedMap String (INodeConnectionsDiff T)

structure ConnectionsDiff (T : Type) where
  added : ConnectionsSide T
  removed : ConnectionsSide T

/-- The connections of one output by their text, with the index of the last of equal ones. -/
def connectionMap (connections : List Value) : OrderedMap (Option JsString) (ℕ × Value) :=
  connections.zipIdx.foldl (fun m entry => m.set (stringify entry.1) (entry.2, entry.1)) .empty

section Comparison

variable {T : Type} [DecidableEq T]

/-- Under the name of an inherited member there is something already, so no object is made for the node and
the entry is put on what all objects share. -/
def pushEntry (nodeName : String) (inputName : T) (side : ConnectionsSide T) (entry : ConnectionEntry) :
    ConnectionsSide T :=
  if nodeName ∈ PlainData.objectPrototype then side
  else
    let byInput := (side.get nodeName).getD .empty
    side.set nodeName (byInput.set inputName ((byInput.get inputName).getD [] ++ [entry]))

/-- The entries of `one` that `two` lacks. -/
def pushMissing (nodeName : String) (inputName : T) (sourceIndex : ℕ)
    (one two : OrderedMap (Option JsString) (ℕ × Value)) (side : ConnectionsSide T) : ConnectionsSide T :=
  one.entries.foldl (fun side entry =>
    if two.has entry.1 then side
    else pushEntry nodeName inputName side ⟨sourceIndex, entry.2.1, entry.2.2⟩) side

def slot (input : NodeInputConnections) (sourceIndex : ℕ) : List Value := (input.getD sourceIndex none).getD []

def compareOutput (nodeName : String) (inputName : T) (prevInput nextInput : NodeInputConnections)
    (diff : ConnectionsDiff T) (sourceIndex : ℕ) : ConnectionsDiff T :=
  let prevMap := connectionMap (slot prevInput sourceIndex)
  let nextMap := connectionMap (slot nextInput sourceIndex)
  ⟨pushMissing nodeName inputName sourceIndex nextMap prevMap diff.added,
    pushMissing nodeName inputName sourceIndex prevMap nextMap diff.removed⟩

def compareInput (nodeName : String) (prevNode nextNode : INodeConnections T) (diff : ConnectionsDiff T)
    (inputName : T) : ConnectionsDiff T :=
  let prevInput := (prevNode.get inputName).getD []
  let nextInput := (nextNode.get inputName).getD []
  (List.range (max prevInput.length nextInput.length)).foldl (compareOutput nodeName inputName prevInput nextInput) diff

/-- `new Set([...one, ...two])`. -/
def union {α : Type} [DecidableEq α] (one two : List α) : List α := (one ++ two).reverse.dedup.reverse

/-- A node that a map has no connections of is read as one without any, also where a member is inherited. -/
def compareNode (prev next : IConnections T) (diff : ConnectionsDiff T) (nodeName : String) : ConnectionsDiff T :=
  let prevNode := (prev.get nodeName).getD .empty
  let nextNode := (next.get nodeName).getD .empty
  (union (prevNode.entries.map Prod.fst) (nextNode.entries.map Prod.fst)).foldl
    (compareInput nodeName prevNode nextNode) diff

def compareConnections (prev next : IConnections T) : ConnectionsDiff T :=
  (union (prev.entries.map Prod.fst) (next.entries.map Prod.fst)).foldl (compareNode prev next) ⟨.empty, .empty⟩

/-! ## What is listed -/

def connectionsAt (connections : IConnections T) (nodeName : String) (inputName : T) (sourceIndex : ℕ) : List Value :=
  slot ((((connections.get nodeName).getD .empty).get inputName).getD []) sourceIndex

def listedAt (side : ConnectionsSide T) (nodeName : String) (inputName : T) (sourceIndex : ℕ) : List Value :=
  ((((side.get nodeName).getD .empty).get inputName).getD []).filterMap fun entry =>
    if entry.sourceIndex = sourceIndex then some entry.connection else none

/-- The connections of `one` whose text no connection of `two` has. -/
def missing (one two : List Value) : List Value :=
  (connectionMap one).entries.filterMap fun entry =>
    if (connectionMap two).has entry.1 then none else some entry.2.2

variable {nodeName : String} {inputName : T} {sourceIndex : ℕ} {α : Type}

theorem listedAt_pushEntry (node : String) (input : T) (side : ConnectionsSide T) (entry : ConnectionEntry) :
    listedAt (pushEntry node input side entry) nodeName inputName sourceIndex =
      listedAt side nodeName inputName sourceIndex ++
        if node ∉ PlainData.objectPrototype ∧ node = nodeName ∧ input = inputName ∧ entry.sourceIndex = sourceIndex then
          [entry.connection]
        else [] := by
  rw [pushEntry]
  by_cases shared : node ∈ PlainData.objectPrototype
  · simp [shared]
  · rw [if_neg shared, listedAt, listedAt, get_set]
    by_cases sameNode : nodeName = node
    · subst sameNode
      rw [if_pos rfl, getD_some, get_set]
      by_cases sameInput : inputName = input
      · subst sameInput
        rw [if_pos rfl, getD_some, filterMap_append]
        by_cases sameIndex : entry.sourceIndex = sourceIndex <;> simp [shared, sameIndex]
      · simp [sameInput, Ne.symm sameInput]
    · simp [sameNode, Ne.symm sameNode]

/-- A loop whose steps add to a place only for one element adds there once. -/
theorem foldl_once {S : Type} [DecidableEq α] (seen : S → List Value) {step : S → α → S} {place : α}
    {new : List Value} {xs : List α} (distinct : xs.Nodup)
    (steps : ∀ s x, seen (step s x) = seen s ++ if x = place then new else []) (outside : place ∉ xs → new = [])
    (s : S) : seen (xs.foldl step s) = seen s ++ new := by
  have once : seen (xs.foldl step s) = seen s ++ if place ∈ xs then new else [] := by
    clear outside
    induction xs generalizing s with
    | nil => simp
    | cons x xs ih =>
      rw [nodup_cons] at distinct
      rw [foldl_cons, ih distinct.2, steps s x, append_assoc]
      by_cases here : x = place
      · subst here
        simp [distinct.1]
      · simp [here, Ne.symm here]
  rw [once]
  split
  · rfl
  · next notInside => rw [outside notInside]

theorem listedAt_pushMissing (node : String) (input : T) (index : ℕ) (one two : List Value) (side : ConnectionsSide T) :
    listedAt (pushMissing node input index (connectionMap one) (connectionMap two) side)
        nodeName inputName sourceIndex =
      listedAt side nodeName inputName sourceIndex ++
        if node ∉ PlainData.objectPrototype ∧ node = nodeName ∧ input = inputName ∧ index = sourceIndex then
          missing one two
        else [] := by
  rw [pushMissing, missing]
  induction (connectionMap one).entries generalizing side with
  | nil => simp
  | cons entry entries ih =>
    rw [foldl_cons, ih, filterMap_cons]
    by_cases had : (connectionMap two).has entry.1 = true
    · simp [had]
    · rw [if_neg had, if_neg had, listedAt_pushEntry]
      split <;> simp

def listing (nodeName : String) (new : List Value) : List Value :=
  if nodeName ∉ PlainData.objectPrototype then new else []

theorem slot_beyond {input : NodeInputConnections} (beyond : input.length ≤ sourceIndex) :
    slot input sourceIndex = [] := by
  rw [slot, getD_eq_getElem?_getD, getElem?_eq_none beyond]
  rfl

theorem listing_missing_nil (two : List Value) : listing nodeName (missing [] two) = [] := by
  rw [listing]
  split <;> rfl

def ConnectionsDiff.side (diff : ConnectionsDiff T) : (added : Bool) → ConnectionsSide T
  | true => diff.added
  | false => diff.removed

variable {added : Bool} {prevNode nextNode : INodeConnections T} {prev next : IConnections T} {x : α}

theorem listedAt_compareOutput (node : String) (input : T) (prevInput nextInput : NodeInputConnections)
    (diff : ConnectionsDiff T) (index : ℕ) :
    listedAt ((compareOutput node input prevInput nextInput diff index).side added) nodeName inputName sourceIndex =
      listedAt (diff.side added) nodeName inputName sourceIndex ++
        if index = sourceIndex then
          if node = nodeName ∧ input = inputName then
            listing nodeName (missing (slot (bif added then nextInput else prevInput) sourceIndex)
              (slot (bif added then prevInput else nextInput) sourceIndex))
          else []
        else [] := by
  have pushed : (compareOutput node input prevInput nextInput diff index).side added =
      pushMissing node input index (connectionMap (slot (bif added then nextInput else prevInput) index))
        (connectionMap (slot (bif added then prevInput else nextInput) index)) (diff.side added) := by
    cases added <;> rfl
  rw [pushed, listedAt_pushMissing, listing]
  by_cases sameIndex : index = sourceIndex
  · subst sameIndex
    by_cases same : node = nodeName ∧ input = inputName
    · obtain ⟨rfl, rfl⟩ := same
      simp
    · rw [if_neg fun all => same ⟨all.2.1, all.2.2.1⟩, if_neg same, if_pos rfl]
  · rw [if_neg fun all => sameIndex all.2.2.2, if_neg sameIndex]

theorem listedAt_compareInput (node : String) (diff : ConnectionsDiff T) (input : T) :
    listedAt ((compareInput node prevNode nextNode diff input).side added) nodeName inputName sourceIndex =
      listedAt (diff.side added) nodeName inputName sourceIndex ++
        if input = inputName then
          if node = nodeName then
            listing nodeName (missing
              (slot (((bif added then nextNode else prevNode).get inputName).getD []) sourceIndex)
              (slot (((bif added then prevNode else nextNode).get inputName).getD []) sourceIndex))
          else []
        else [] := by
  rw [compareInput]
  refine (foldl_once (fun diff => listedAt (diff.side added) nodeName inputName sourceIndex) nodup_range
    (fun diff index => listedAt_compareOutput node input _ _ diff index) (fun outside => ?_) diff).trans ?_
  · rw [mem_range, not_lt, Nat.max_le] at outside
    split
    · cases added
      · rw [cond_false, slot_beyond outside.1, listing_missing_nil]
      · rw [cond_true, slot_beyond outside.2, listing_missing_nil]
    · rfl
  · by_cases sameInput : input = inputName
    · subst sameInput
      cases added <;> simp
    · rw [if_neg fun both => sameInput both.2, if_neg sameInput]

theorem mem_union [DecidableEq α] {one two : List α} : x ∈ union one two ↔ x ∈ one ∨ x ∈ two := by
  rw [union, mem_reverse, mem_dedup, mem_reverse, mem_append]

theorem nodup_union [DecidableEq α] (one two : List α) : (union one two).Nodup :=
  nodup_reverse.mpr (nodup_dedup _)

theorem get_of_not_mem_union {ν : Type} [DecidableEq α] {one two : OrderedMap α ν}
    (outside : x ∉ union (one.entries.map Prod.fst) (two.entries.map Prod.fst)) :
    one.get x = none ∧ two.get x = none := by
  rw [mem_union, not_or] at outside
  exact ⟨(one.get_eq_none_iff).mpr outside.1, (two.get_eq_none_iff).mpr outside.2⟩

theorem listedAt_compareNode (diff : ConnectionsDiff T) (node : String) :
    listedAt ((compareNode prev next diff node).side added) nodeName inputName sourceIndex =
      listedAt (diff.side added) nodeName inputName sourceIndex ++
        if node = nodeName then
          listing nodeName (missing (connectionsAt (bif added then next else prev) nodeName inputName sourceIndex)
            (connectionsAt (bif added then prev else next) nodeName inputName sourceIndex))
        else [] := by
  rw [compareNode]
  refine (foldl_once (fun diff => listedAt (diff.side added) nodeName inputName sourceIndex) (nodup_union _ _)
    (fun diff input => listedAt_compareInput node diff input) (fun outside => ?_) diff).trans ?_
  · obtain ⟨noPrev, noNext⟩ := get_of_not_mem_union outside
    split
    · cases added
      · rw [cond_false, noPrev]
        exact listing_missing_nil _
      · rw [cond_true, noNext]
        exact listing_missing_nil _
    · rfl
  · by_cases sameNode : node = nodeName
    · subst sameNode
      cases added <;> rfl
    · rw [if_neg sameNode, if_neg sameNode]

theorem listedAt_compareConnections (prev next : IConnections T) (added : Bool) :
    listedAt ((compareConnections prev next).side added) nodeName inputName sourceIndex = listing nodeName (missing
        (connectionsAt (bif added then next else prev) nodeName inputName sourceIndex)
        (connectionsAt (bif added then prev else next) nodeName inputName sourceIndex)) := by
  rw [compareConnections]
  refine (foldl_once (fun diff => listedAt (diff.side added) nodeName inputName sourceIndex) (nodup_union _ _)
    (fun diff node => listedAt_compareNode diff node) (fun outside => ?_) _).trans ?_
  · obtain ⟨noPrev, noNext⟩ := get_of_not_mem_union outside
    cases added
    · rw [cond_false, connectionsAt, noPrev]
      exact listing_missing_nil _
    · rw [cond_true, connectionsAt, noNext]
      exact listing_missing_nil _
  · cases added <;> rfl

end Comparison

/-! ## Sets of connections -/
variable {key : Option JsString} {connection : Value}

theorem get_foldl_texts (entries : List (Value × ℕ)) (m : OrderedMap (Option JsString) (ℕ × Value)) {found : ℕ × Value}
    (here : (entries.foldl (fun m entry => m.set (stringify entry.1) (entry.2, entry.1)) m).get key = some found) :
    m.get key = some found ∨ (found.2, found.1) ∈ entries ∧ stringify found.2 = key := by
  induction entries generalizing m with
  | nil => exact .inl here
  | cons entry entries ih =>
    rcases ih _ here with before | ⟨member, text⟩
    · rw [get_set] at before
      split at before
      · next same =>
        obtain rfl := some.inj before
        exact .inr ⟨mem_cons_self, same.symm⟩
      · exact .inl before
    · exact .inr ⟨mem_cons_of_mem _ member, text⟩

theorem get_foldl_texts_isSome (entries : List (Value × ℕ)) (m : OrderedMap (Option JsString) (ℕ × Value))
    (known : (m.get key).isSome ∨ ∃ entry ∈ entries, stringify entry.1 = key) :
    ((entries.foldl (fun m entry => m.set (stringify entry.1) (entry.2, entry.1)) m).get key).isSome := by
  induction entries generalizing m with
  | nil => exact known.resolve_right (by simp)
  | cons entry entries ih =>
    refine ih _ ?_
    rw [get_set]
    by_cases same : key = stringify entry.1
    · exact .inl (by simp [same])
    · rw [if_neg same]
      refine known.imp_right fun ⟨other, member, text⟩ => ⟨other, (mem_cons.mp member).resolve_left ?_, text⟩
      rintro rfl
      exact same text.symm

theorem has_connectionMap {connections : List Value} :
    (connectionMap connections).has key = true ↔ ∃ connection ∈ connections, stringify connection = key := by
  rw [OrderedMap.has, connectionMap]
  constructor
  · intro known
    obtain ⟨found, here⟩ := isSome_iff_exists.mp known
    obtain ⟨member, text⟩ := (get_foldl_texts _ _ here).resolve_left (by simp)
    exact ⟨found.2, fst_mem_of_mem_zipIdx member, text⟩
  · rintro ⟨connection, member, text⟩
    obtain ⟨i, here⟩ := mem_iff_getElem?.mp member
    exact get_foldl_texts_isSome _ _ (.inr ⟨(connection, i), mem_zipIdx_iff_getElem?.mpr here, text⟩)

def SameText (connection other : Value) : Prop := stringify connection = stringify other

def Has (same : Value → Value → Prop) (connections : List Value) (connection : Value) : Prop :=
  ∃ other ∈ connections, same connection other

theorem of_mem_missing {one two : List Value} (member : connection ∈ missing one two) :
    connection ∈ one ∧ ¬Has SameText two connection := by
  obtain ⟨entry, inMap, given⟩ := mem_filterMap.mp member
  split at given
  · cases given
  · next lacking =>
    obtain rfl := some.inj given
    obtain ⟨inOne, text⟩ := (get_foldl_texts _ _ ((connectionMap one).mem_entries_iff.mp inMap)).resolve_left (by simp)
    refine ⟨fst_mem_of_mem_zipIdx inOne, ?_⟩
    rintro ⟨other, inTwo, same⟩
    apply lacking
    exact has_connectionMap.mpr ⟨other, inTwo, same.symm.trans text⟩

theorem has_missing {one two : List Value} (member : connection ∈ one) (lacking : ¬Has SameText two connection) :
    Has SameText (missing one two) connection := by
  have known : (connectionMap one).has (stringify connection) = true := has_connectionMap.mpr ⟨_, member, rfl⟩
  obtain ⟨found, here⟩ := isSome_iff_exists.mp known
  obtain ⟨-, text⟩ := (get_foldl_texts _ _ here).resolve_left (by simp)
  refine ⟨found.2, mem_filterMap.mpr ⟨_, (connectionMap one).mem_entries_iff.mpr here, ?_⟩, text.symm⟩
  refine if_neg fun has => lacking ?_
  obtain ⟨other, inTwo, same⟩ := has_connectionMap.mp has
  exact ⟨other, inTwo, same.symm⟩

/-! ## Texts and contents -/

theorem written_asItem (item : Value) : written item.asItem = some ((written item).getD .null) := by
  cases item <;> simp [Value.asItem, written]

theorem written_nodeAt (value : Value) (path : List Step) :
    ((written value).bind fun form => jsonNodeAt form path) = value.nodeAt path := by
  induction path generalizing value with
  | nil => cases value <;> simp [written, jsonNodeAt, jsonNode, Value.nodeAt, Value.node, writtenItems_eq]
  | cons step path ih =>
    cases value with
    | array items =>
      rw [written, bind_some]
      cases step with
      | key key => rfl
      | index i =>
        rw [jsonNodeAt, Value.nodeAt, writtenItems_eq, getElem?_map]
        cases items[i]? with
        | none => rfl
        | some item =>
          rw [map_some, bind_some, bind_some, ← ih, written_asItem, bind_some]
    | object members =>
      rw [written, bind_some]
      cases step with
      | index i => rfl
      | key key =>
        rw [jsonNodeAt, Value.nodeAt, getEntry_writtenMembers, writtenValues_eq, getEntry_map]
        cases OrderedMap.getEntry key members with
        | none => rfl
        | some value => exact ih value
    | _ => cases step <;> rfl

theorem SameText.sameJson {other : Value} (same : SameText connection other) : SameJson connection other := by
  have written_ : written connection = written other := map_injective Json.text_injective same
  intro path
  rw [← written_nodeAt, ← written_nodeAt, written_]

/-! ## The difference -/

section Difference

variable {T : Type} [DecidableEq T] {prev next : List Value} {connections : List Value}

theorem Has.of_sameText {other : Value} (same : SameJson connection other) (has : Has SameText connections other) :
    Has SameJson connections connection := by
  obtain ⟨found, member, text⟩ := has
  exact ⟨found, member, fun path => (same path).trans (text.sameJson path)⟩

theorem Has.congr {other : Value} (same : SameJson connection other) (has : Has SameJson connections other) :
    Has SameJson connections connection := by
  obtain ⟨found, member, content⟩ := has
  exact ⟨found, member, fun path => (same path).trans (content path)⟩

structure Difference (prev next removed added : List Value) : Prop where
  next_iff : ∀ connection, Has SameJson next connection ↔
    Has SameJson prev connection ∧ ¬Has SameJson removed connection ∨ Has SameJson added connection
  disjoint : ∀ connection, ¬(Has SameJson added connection ∧ Has SameJson removed connection)

/-- A connection that the later list has too stands there with its properties in the same order. -/
def NotReordered (prev next : List Value) : Prop :=
  ∀ connection ∈ prev, Has SameJson next connection → Has SameText next connection

theorem difference_missing_iff :
    Difference prev next (missing prev next) (missing next prev) ↔ NotReordered prev next := by
  constructor
  · intro difference connection member has
    by_contra lacking
    have removed : Has SameJson (missing prev next) connection :=
      (has_missing member lacking).of_sameText fun _ => rfl
    rcases (difference.next_iff connection).mp has with ⟨-, kept⟩ | added
    · exact kept removed
    · exact difference.disjoint connection ⟨added, removed⟩
  · intro ordered
    have gone : ∀ connection, Has SameJson (missing prev next) connection → ¬Has SameJson next connection := by
      rintro connection ⟨removed, member, same⟩ has
      obtain ⟨inPrev, lacking⟩ := of_mem_missing member
      exact lacking (ordered removed inPrev (has.congr fun path => (same path).symm))
    refine ⟨fun connection => ⟨fun has => ?_, ?_⟩, ?_⟩
    · obtain ⟨other, member, same⟩ := has
      by_cases before : Has SameText prev other
      · exact .inl ⟨before.of_sameText same, fun removed => gone connection removed ⟨other, member, same⟩⟩
      · exact .inr ((has_missing member before).of_sameText same)
    · rintro (⟨⟨other, member, same⟩, kept⟩ | ⟨added, member, same⟩)
      · by_contra lacking
        refine kept ((has_missing member fun text => lacking ?_).of_sameText same)
        exact text.of_sameText same
      · exact ⟨added, (of_mem_missing member).1, same⟩
    · rintro connection ⟨⟨added, member, same⟩, removed⟩
      exact gone connection removed ⟨added, (of_mem_missing member).1, same⟩

theorem difference_nil_iff : Difference prev next [] [] ↔
    ∀ connection, Has SameJson prev connection ↔ Has SameJson next connection := by
  have none : ∀ connection, ¬Has SameJson [] connection := fun connection ⟨_, member, _⟩ => not_mem_nil member
  constructor
  · intro difference connection
    rw [difference.next_iff]
    exact ⟨fun has => .inl ⟨has, none connection⟩, fun has => (has.resolve_right (none connection)).1⟩
  · intro same
    refine ⟨fun connection => ?_, fun connection both => none connection both.1⟩
    rw [← same]
    exact ⟨fun has => .inl ⟨has, none connection⟩, fun has => (has.resolve_right (none connection)).1⟩

/-- The comparison lists the difference at every place, and the comparison the other way lists it the other way. -/
def IsSetDifference (prev next : IConnections T) : Prop :=
  ∀ nodeName inputName sourceIndex,
    let at_ := fun connections : IConnections T => connectionsAt connections nodeName inputName sourceIndex
    let listed := fun side : ConnectionsSide T => listedAt side nodeName inputName sourceIndex
    Difference (at_ prev) (at_ next) (listed (compareConnections prev next).removed)
        (listed (compareConnections prev next).added) ∧
      listed (compareConnections next prev).added = listed (compareConnections prev next).removed ∧
      listed (compareConnections next prev).removed = listed (compareConnections prev next).added

/-- Under the names of inherited members nothing differs, and elsewhere no connection is only reordered. -/
def Comparable (prev next : IConnections T) : Prop :=
  ∀ nodeName inputName sourceIndex,
    let at_ := fun connections : IConnections T => connectionsAt connections nodeName inputName sourceIndex
    if nodeName ∈ PlainData.objectPrototype then
      ∀ connection, Has SameJson (at_ prev) connection ↔ Has SameJson (at_ next) connection
    else NotReordered (at_ prev) (at_ next)

/-- The comparison is a set difference exactly when no node with the name of an inherited member has other
connections and no connection comes back with its properties in another order. -/
theorem compareConnections_isSetDifference_iff (prev next : IConnections T) :
    IsSetDifference prev next ↔ Comparable prev next := by
  refine forall_congr' fun nodeName => forall_congr' fun inputName => forall_congr' fun sourceIndex => ?_
  have added : ∀ prev next : IConnections T,
      listedAt (compareConnections prev next).added nodeName inputName sourceIndex =
      listing nodeName (missing (connectionsAt next nodeName inputName sourceIndex)
        (connectionsAt prev nodeName inputName sourceIndex)) :=
    fun prev next => listedAt_compareConnections prev next true
  have removed : ∀ prev next : IConnections T,
      listedAt (compareConnections prev next).removed nodeName inputName sourceIndex =
      listing nodeName (missing (connectionsAt prev nodeName inputName sourceIndex)
        (connectionsAt next nodeName inputName sourceIndex)) :=
    fun prev next => listedAt_compareConnections prev next false
  simp only [added, removed, and_true, listing]
  by_cases shared : nodeName ∈ PlainData.objectPrototype
  · simp only [shared, not_true_eq_false, if_false, if_true]
    exact difference_nil_iff
  · simp only [shared, not_false_eq_true, if_true, if_false]
    exact difference_missing_iff

/-- The connection to input 0 of `a`. -/
def toA : Value :=
  .object [(asciiUnits "node", .string (asciiUnits "a")), (asciiUnits "type", .string (asciiUnits "main")),
    (asciiUnits "index", .number (countText 0))]

def connectsA (nodeName : String) (connections : List Value) : IConnections String :=
  OrderedMap.empty.set nodeName (OrderedMap.empty.set "main" [some connections])

theorem connectionsAt_connectsA (nodeName : String) (connections : List Value) :
    connectionsAt (connectsA nodeName connections) nodeName "main" 0 = connections := by
  rw [connectionsAt, connectsA, get_set_self, getD_some, get_set_self]
  rfl

/-- The new connection of a node called `constructor` is not listed. -/
theorem constructor_unlisted : ¬IsSetDifference .empty (connectsA "constructor" [toA]) := by
  rw [compareConnections_isSetDifference_iff]
  intro comparable
  have same := comparable "constructor" "main" 0
  rw [if_pos (by decide)] at same
  have after : Has SameJson (connectionsAt (connectsA "constructor" [toA]) "constructor" "main" 0) toA := by
    rw [connectionsAt_connectsA]
    exact ⟨toA, mem_cons_self, fun _ => rfl⟩
  obtain ⟨_, member, _⟩ := (same toA).mpr after
  exact not_mem_nil member

end Difference

end N8n.WorkflowDiff
