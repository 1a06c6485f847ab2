import N8n.WorkflowDiff

/-! Whether two versions of a workflow differ in more than the positions of nodes. Nodes are
matched by id and compared in six of their properties, and connections as a whole. -/

namespace N8n.WorkflowDiff

open JsonText WorkflowChecksum OrderedMap List Option

/-! ## Equality of values -/

def childAt : Step → Value → Option Value
  | .index i, .array items => items[i]?
  | .key key, .object members => getEntry key members
  | _, _ => none

def placeAt : List Step → Value → Option Value
  | [], value => some value
  | step :: path, value => (childAt step value).bind (placeAt path)

def SameContent (value other : Value) : Prop :=
  ∀ path, (placeAt path value).map Value.node = (placeAt path other).map Value.node

section Equality

variable {value other : Value} {members others : List (JsString × Value)}

theorem sameContent_iff : SameContent value other ↔ value.node = other.node ∧
    ∀ step, Option.Rel SameContent (childAt step value) (childAt step other) := by
  constructor
  · intro same
    refine ⟨some.inj (same []), fun step => ?_⟩
    have below : ∀ path, ((childAt step value).bind (placeAt path)).map Value.node =
        ((childAt step other).bind (placeAt path)).map Value.node := fun path => same (step :: path)
    cases left : childAt step value with
    | none =>
      cases right : childAt step other with
      | none => exact .none
      | some inner =>
        have here := below []
        rw [left, right] at here
        cases here
    | some inner =>
      cases right : childAt step other with
      | none =>
        have here := below []
        rw [left, right] at here
        cases here
      | some innerToo =>
        refine .some fun path => ?_
        have here := below path
        rw [left, right] at here
        exact here
  · rintro ⟨node, children⟩ path
    cases path with
    | nil => exact congrArg some node
    | cons step path =>
      have here := children step
      rw [placeAt, placeAt]
      generalize childAt step value = left at here
      generalize childAt step other = right at here
      cases here with
      | none => rfl
      | some same => exact same path

theorem sameContent_object : SameContent (.object members) (.object others) ↔
    ∀ key, Option.Rel SameContent (getEntry key members) (getEntry key others) := by
  rw [sameContent_iff]
  constructor
  · exact fun both key => both.2 (.key key)
  · refine fun each => ⟨rfl, fun step => ?_⟩
    cases step with
    | index => exact .none
    | key key => exact each key

end Equality

/-! ## The comparison of nodes -/

structure INode where
  id : String
  properties : List (JsString × Value)

def INode.property (node : INode) (name : JsString) : Option Value := getEntry name node.properties

def propsToCompare : List JsString :=
  ["name", "type", "typeVersion", "webhookId", "credentials", "parameters"].map asciiUnits

/-- What the comparisons use of lodash. -/
structure Lodash where
  isEqual : Value → Value → Bool
  pick : List (JsString × Value) → List JsString → List (JsString × Value)

/-- Values are equal when they have the same content, and the picked properties keep their values. -/
structure Lodash.Lawful (lodash : Lodash) : Prop where
  isEqual_iff : ∀ value other, lodash.isEqual value other = true ↔ SameContent value other
  getEntry_pick : ∀ object name, getEntry name (lodash.pick object propsToCompare) =
    if name ∈ propsToCompare then getEntry name object else none

variable (lodash : Lodash)

def compareNodes (base target : INode) : Bool :=
  let baseNode := lodash.pick base.properties propsToCompare
  let targetNode := lodash.pick target.properties propsToCompare
  lodash.isEqual (.object baseNode) (.object targetNode)

def hasNonPositionalChanges (oldNodes newNodes : List INode) (oldConnections newConnections : Value) : Bool :=
  let nodesDiff := compareWorkflowsNodes INode.id (compareNodes lodash) oldNodes newNodes
  nodesDiff.values.any (fun diff => diff.status ≠ .eq) || !lodash.isEqual oldConnections newConnections

variable {lodash}

/-- The two have the property with the same value, or both lack it. -/
def SameProperty (name : JsString) (node other : INode) : Prop :=
  Option.Rel SameContent (node.property name) (other.property name)

theorem compareNodes_iff (lawful : lodash.Lawful) {node other : INode} :
    compareNodes lodash node other = true ↔ ∀ name ∈ propsToCompare, SameProperty name node other := by
  rw [compareNodes, lawful.isEqual_iff, sameContent_object]
  simp only [lawful.getEntry_pick]
  refine forall_congr' fun name => ?_
  split
  · next listed => exact ⟨fun same _ => same, fun same => same listed⟩
  · next unlisted => exact ⟨fun _ listed => absurd listed unlisted, fun _ => .none⟩

section Diff

variable {N : Type} {id : N → String} {nodesEqual : N → N → Bool} {key : String}

theorem get_nodesById {nodes : List N} (distinct : (nodes.map id).Nodup) {node : N} :
    (nodesById id nodes).get key = some node ↔ node ∈ nodes ∧ id node = key := by
  induction nodes using List.reverseRecOn with
  | nil => simp [nodesById]
  | append_singleton nodes last ih =>
    rw [map_append, map_singleton, nodup_append] at distinct
    have step : nodesById id (nodes ++ [last]) = (nodesById id nodes).set (id last) last := by
      rw [nodesById, foldl_append]
      rfl
    rw [step, get_set, mem_append, mem_singleton]
    split
    · next same =>
      constructor
      · intro found
        obtain rfl := some.inj found
        exact ⟨.inr rfl, same.symm⟩
      · rintro ⟨old | rfl, named⟩
        · exact absurd (named.trans same) (distinct.2.2 _ (mem_map_of_mem old) _ mem_cons_self)
        · rfl
    · next different =>
      rw [ih distinct.1]
      refine and_congr_left fun named => ⟨.inl, fun member => member.resolve_right ?_⟩
      rintro rfl
      exact different named.symm

theorem getEntry_foldl {α β : Type} {entries : List (String × α)} (distinct : (entries.map Prod.fst).Nodup)
    {step : OrderedMap String β → String × α → OrderedMap String β} {made : String × α → Option β}
    (steps : ∀ acc entry key, (step acc entry).get key =
      if key = entry.1 then (made entry).or (acc.get key) else acc.get key) (acc : OrderedMap String β) (key : String) :
    (entries.foldl step acc).get key =
      ((getEntry key entries).bind fun value => made (key, value)).or (acc.get key) := by
  induction entries generalizing acc with
  | nil => rfl
  | cons entry entries ih =>
    rw [map_cons, nodup_cons] at distinct
    rw [foldl_cons, ih distinct.2, steps, getEntry.eq_def key (entry :: entries)]
    by_cases here : entry.1 = key
    · subst here
      have later : getEntry entry.1 entries = none := by
        by_contra found
        obtain ⟨value, found⟩ := ne_none_iff_exists'.mp found
        exact distinct.1 (List.mem_map.mpr ⟨(entry.1, value),
          (mem_entries_iff ⟨entries, distinct.2⟩).mpr found, rfl⟩)
      simp [later]
    · simp [here, Ne.symm here]

theorem get_foldl_entries {α β : Type} (m : OrderedMap String α)
    {step : OrderedMap String β → String × α → OrderedMap String β} (made : String × α → Option β)
    (steps : ∀ acc entry key, (step acc entry).get key =
      if key = entry.1 then (made entry).or (acc.get key) else acc.get key) (acc : OrderedMap String β) (key : String) :
    (m.entries.foldl step acc).get key = ((m.get key).bind fun value => made (key, value)).or (acc.get key) :=
  getEntry_foldl m.nodup steps acc key

theorem get_compareWorkflowsNodes (base target : List N) : (compareWorkflowsNodes id nodesEqual base target).get key =
      match (nodesById id base).get key, (nodesById id target).get key with
      | none, none => none
      | none, some node => some ⟨.added, node⟩
      | some node, none => some ⟨.deleted, node⟩
      | some node, some other => some ⟨if nodesEqual node other then .eq else .modified, node⟩ := by
  rw [compareWorkflowsNodes,
    get_foldl_entries _ fun entry => if (nodesById id base).has entry.1 then none else some ⟨.added, entry.2⟩,
    get_foldl_entries _ fun entry => some (((nodesById id target).get entry.1).elim ⟨.deleted, entry.2⟩
      fun other => ⟨if nodesEqual entry.2 other then .eq else .modified, entry.2⟩)]
  · cases inBase : (nodesById id base).get key with
    | none => cases (nodesById id target).get key <;> simp [OrderedMap.has, inBase]
    | some node => cases inTarget : (nodesById id target).get key <;> simp [OrderedMap.has, inBase, inTarget]
  · intro acc entry key
    split <;> simp [get_set, *]
  · intro acc entry key
    by_cases has : (nodesById id base).has entry.1 = true <;> simp [has, get_set]

theorem statuses_eq_iff (base target : List N) (key : String) :
    (∀ diff ∈ (compareWorkflowsNodes id nodesEqual base target).get key, diff.status = .eq) ↔
      Option.Rel (nodesEqual · · = true) ((nodesById id base).get key) ((nodesById id target).get key) := by
  rw [get_compareWorkflowsNodes]
  cases (nodesById id base).get key <;> cases (nodesById id target).get key <;> simp [Option.rel_some_some]

end Diff

/-! ## What counts as a move -/

def positionKey : JsString := asciiUnits "position"

section Moves

variable {oldNodes newNodes : List INode} {oldConnections newConnections : Value}

structure SameBut (free : JsString → Prop) (oldNodes newNodes : List INode) (oldConnections newConnections : Value) :
    Prop where
  ids : ∀ id, (∃ node ∈ oldNodes, node.id = id) ↔ ∃ node ∈ newNodes, node.id = id
  properties : ∀ node ∈ oldNodes, ∀ other ∈ newNodes, node.id = other.id →
    ∀ name, ¬free name → SameProperty name node other
  connections : SameContent oldConnections newConnections

def PureMove : List INode → List INode → Value → Value → Prop := SameBut (· = positionKey)

def ComparedSame : List INode → List INode → Value → Value → Prop := SameBut (· ∉ propsToCompare)

def PropertyDiffers (oldNodes newNodes : List INode) : Prop :=
  ∃ node ∈ oldNodes, ∃ other ∈ newNodes, node.id = other.id ∧ ∃ name ≠ positionKey, ¬SameProperty name node other

/-- A node is in one list only, a property that is listed differs, or the connections do. -/
def ListedDiffers (oldNodes newNodes : List INode) (oldConnections newConnections : Value) : Prop :=
  (∃ id, ¬((∃ node ∈ oldNodes, node.id = id) ↔ ∃ node ∈ newNodes, node.id = id)) ∨
    (∃ node ∈ oldNodes, ∃ other ∈ newNodes, node.id = other.id ∧
      ∃ name ∈ propsToCompare, ¬SameProperty name node other) ∨ ¬SameContent oldConnections newConnections

def UnlistedSame (oldNodes newNodes : List INode) : Prop :=
  ∀ node ∈ oldNodes, ∀ other ∈ newNodes, node.id = other.id →
    ∀ name ∉ propsToCompare, name ≠ positionKey → SameProperty name node other

theorem listedDiffers_iff : ListedDiffers oldNodes newNodes oldConnections newConnections ↔
    ¬ComparedSame oldNodes newNodes oldConnections newConnections := by
  constructor
  · rintro (⟨id, elsewhere⟩ | ⟨node, member, other, memberToo, sameId, name, listed, differs⟩ | connections) same
    · exact elsewhere (same.ids id)
    · exact differs (same.properties node member other memberToo sameId name (not_not.mpr listed))
    · exact connections same.connections
  · intro different
    by_contra none
    rw [ListedDiffers, not_or, not_or, not_exists] at none
    refine different ⟨fun id => not_not.mp (none.1 id), ?_, not_not.mp none.2.2⟩
    intro node member other memberToo sameId name listed
    by_contra differs
    exact none.2.1 ⟨node, member, other, memberToo, sameId, name, not_not.mp listed, differs⟩

theorem unchanged_iff (distinctOld : (oldNodes.map INode.id).Nodup) (distinctNew : (newNodes.map INode.id).Nodup) :
    (compareWorkflowsNodes INode.id (compareNodes lodash) oldNodes newNodes).values.any
        (fun diff => diff.status ≠ .eq) = false ↔
      (∀ id, (∃ node ∈ oldNodes, node.id = id) ↔ ∃ node ∈ newNodes, node.id = id) ∧
        ∀ node ∈ oldNodes, ∀ other ∈ newNodes, node.id = other.id → compareNodes lodash node other = true := by
  have old : ∀ {key node}, (nodesById INode.id oldNodes).get key = some node ↔ node ∈ oldNodes ∧ node.id = key :=
    get_nodesById distinctOld
  have new : ∀ {key node}, (nodesById INode.id newNodes).get key = some node ↔ node ∈ newNodes ∧ node.id = key :=
    get_nodesById distinctNew
  have statuses : (compareWorkflowsNodes INode.id (compareNodes lodash) oldNodes newNodes).values.any
      (fun diff => diff.status ≠ .eq) = false ↔ ∀ key, Option.Rel (compareNodes lodash · · = true)
        ((nodesById INode.id oldNodes).get key) ((nodesById INode.id newNodes).get key) := by
    simp only [← statuses_eq_iff, List.any_eq_false, mem_values_iff, decide_eq_true_eq, not_not]
    exact ⟨fun each key diff found => each diff ⟨key, found⟩, fun each diff ⟨key, found⟩ => each key diff found⟩
  rw [statuses]
  constructor
  · intro each
    refine ⟨fun id => ⟨?_, ?_⟩, fun node member other memberToo sameId => ?_⟩
    · rintro ⟨node, member⟩
      have here := each id
      rw [old.mpr member] at here
      cases found : (nodesById INode.id newNodes).get id with
      | some other => exact ⟨other, new.mp found⟩
      | none =>
        rw [found] at here
        cases here
    · rintro ⟨other, member⟩
      have here := each id
      rw [new.mpr member] at here
      cases found : (nodesById INode.id oldNodes).get id with
      | some node => exact ⟨node, old.mp found⟩
      | none =>
        rw [found] at here
        cases here
    · have here := each other.id
      rw [old.mpr ⟨member, sameId⟩, new.mpr ⟨memberToo, rfl⟩] at here
      cases here with
      | some equal => exact equal
  · rintro ⟨ids, same⟩ key
    cases before : (nodesById INode.id oldNodes).get key with
    | none =>
      cases after : (nodesById INode.id newNodes).get key with
      | none => exact .none
      | some other =>
        obtain ⟨node, here⟩ := (ids key).mpr ⟨other, new.mp after⟩
        cases before.symm.trans (old.mpr here)
    | some node =>
      obtain ⟨other, here⟩ := (ids key).mp ⟨node, old.mp before⟩
      rw [new.mpr here]
      obtain ⟨inOld, named⟩ := old.mp before
      exact .some (same node inOld other here.1 (named.trans here.2.symm))

section

variable (lawful : lodash.Lawful) (distinctOld : (oldNodes.map INode.id).Nodup)
  (distinctNew : (newNodes.map INode.id).Nodup)
include lawful distinctOld distinctNew

/-- The function answers whether anything that it compares differs. -/
theorem hasNonPositionalChanges_eq_false_iff :
    hasNonPositionalChanges lodash oldNodes newNodes oldConnections newConnections = false ↔
      ComparedSame oldNodes newNodes oldConnections newConnections := by
  rw [hasNonPositionalChanges, Bool.or_eq_false_iff, unchanged_iff distinctOld distinctNew, Bool.not_eq_false',
    lawful.isEqual_iff]
  simp only [compareNodes_iff lawful]
  constructor
  · rintro ⟨⟨ids, properties⟩, connections⟩
    exact ⟨ids, fun node member other memberToo sameId name compared =>
      properties node member other memberToo sameId name (not_not.mp compared), connections⟩
  · rintro ⟨ids, properties, connections⟩
    exact ⟨⟨ids, fun node member other memberToo sameId name compared =>
      properties node member other memberToo sameId name (not_not.mpr compared)⟩, connections⟩

/-- It tells moves from other changes exactly when something that is listed differs, or nothing does that is not
listed but the position. -/
theorem hasNonPositionalChanges_moves_iff :
    ((hasNonPositionalChanges lodash oldNodes newNodes oldConnections newConnections = false →
        PureMove oldNodes newNodes oldConnections newConnections) ∧
      (PropertyDiffers oldNodes newNodes →
        hasNonPositionalChanges lodash oldNodes newNodes oldConnections newConnections = true)) ↔
      ListedDiffers oldNodes newNodes oldConnections newConnections ∨ UnlistedSame oldNodes newNodes := by
  have answer : hasNonPositionalChanges lodash oldNodes newNodes oldConnections newConnections = false ↔
      ComparedSame oldNodes newNodes oldConnections newConnections :=
    hasNonPositionalChanges_eq_false_iff lawful distinctOld distinctNew
  rw [listedDiffers_iff]
  constructor
  · rintro ⟨moves, _⟩
    refine or_iff_not_imp_left.mpr fun compared node member other memberToo sameId name _ notPosition => ?_
    exact (moves (answer.mpr (not_not.mp compared))).properties node member other memberToo sameId name notPosition
  · intro condition
    have moves : hasNonPositionalChanges lodash oldNodes newNodes oldConnections newConnections = false →
        PureMove oldNodes newNodes oldConnections newConnections := by
      intro unchanged
      have compared := answer.mp unchanged
      have others := condition.resolve_left (not_not.mpr compared)
      refine ⟨compared.ids, fun node member other memberToo sameId name notPosition => ?_, compared.connections⟩
      by_cases listed : name ∈ propsToCompare
      · exact compared.properties node member other memberToo sameId name (not_not.mpr listed)
      · exact others node member other memberToo sameId name listed notPosition
    refine ⟨moves, ?_⟩
    rintro ⟨node, member, other, memberToo, sameId, name, notPosition, differs⟩
    by_contra unchanged
    rw [Bool.not_eq_true] at unchanged
    exact differs ((moves unchanged).properties node member other memberToo sameId name notPosition)

end

open Classical in
/-- Equality and picking just as the laws say. -/
noncomputable def byContent : Lodash where
  isEqual := fun value other => decide (SameContent value other)
  pick := fun object props => membersFor props (getEntry · object)

open Classical in
theorem byContent_lawful : byContent.Lawful :=
  ⟨fun _ _ => decide_eq_true_iff, fun object _ => getEntry_membersFor propsToCompare (getEntry · object) _⟩

def nodeWith (name : JsString) (value : Value) : INode := ⟨"1", [(name, value)]⟩

theorem property_nodeWith {name other : JsString} {value : Value} (different : other ≠ name) :
    (nodeWith name value).property other = none :=
  if_neg (Ne.symm different)

theorem nodup_nodeWith (name : JsString) (value : Value) : ([nodeWith name value].map INode.id).Nodup :=
  nodup_singleton _

/-- A node that is moved. -/
theorem moved_unseen :
    (hasNonPositionalChanges byContent [nodeWith positionKey .null] [nodeWith positionKey (.array [])] .null .null =
        false →
        PureMove [nodeWith positionKey .null] [nodeWith positionKey (.array [])] .null .null) ∧
      (PropertyDiffers [nodeWith positionKey .null] [nodeWith positionKey (.array [])] →
        hasNonPositionalChanges byContent [nodeWith positionKey .null] [nodeWith positionKey (.array [])] .null .null =
          true) := by
  refine (hasNonPositionalChanges_moves_iff byContent_lawful (nodup_nodeWith _ _) (nodup_nodeWith _ _)).mpr (.inr ?_)
  intro node member other memberToo _ name _ notPosition
  obtain rfl := mem_singleton.mp member
  obtain rfl := mem_singleton.mp memberToo
  rw [SameProperty, property_nodeWith notPosition, property_nodeWith notPosition]
  exact .none

def disabledKey : JsString := asciiUnits "disabled"

/-- That a node is disabled or not is not compared. -/
theorem disabled_unseen :
    hasNonPositionalChanges byContent [nodeWith disabledKey (.boolean true)] [nodeWith disabledKey (.boolean false)]
        .null .null = false ∧
      PropertyDiffers [nodeWith disabledKey (.boolean true)] [nodeWith disabledKey (.boolean false)] ∧
      ¬PureMove [nodeWith disabledKey (.boolean true)] [nodeWith disabledKey (.boolean false)] .null .null := by
  have notPosition : disabledKey ≠ positionKey := by decide
  have differs : ¬SameProperty disabledKey (nodeWith disabledKey (.boolean true))
      (nodeWith disabledKey (.boolean false)) := by
    intro same
    cases same with
    | some same => cases same []
  refine ⟨?_, ?_, fun move => differs (move.properties _ mem_cons_self _ mem_cons_self rfl _ notPosition)⟩
  · rw [hasNonPositionalChanges_eq_false_iff byContent_lawful (nodup_nodeWith _ _) (nodup_nodeWith _ _)]
    refine ⟨fun id => by simp [nodeWith], fun node member other memberToo _ name compared => ?_, fun _ => rfl⟩
    obtain rfl := mem_singleton.mp member
    obtain rfl := mem_singleton.mp memberToo
    have uncompared : disabledKey ∉ propsToCompare := by decide
    have different : name ≠ disabledKey := fun same => uncompared (same ▸ not_not.mp compared)
    rw [SameProperty, property_nodeWith different, property_nodeWith different]
    exact .none
  · exact ⟨_, mem_cons_self, _, mem_cons_self, rfl, _, notPosition, differs⟩

end Moves

/-! ## Changes read backwards -/

def NodeDiffStatus.reversed : NodeDiffStatus → NodeDiffStatus
  | .added => .deleted
  | .deleted => .added
  | status => status

theorem SameProperty.symm {name : JsString} {node other : INode} (same : SameProperty name node other) :
    SameProperty name other node := by
  unfold SameProperty at same ⊢
  generalize node.property name = value, other.property name = otherValue at same ⊢
  cases same with
  | some content => exact .some fun path => (content path).symm
  | none => exact .none

theorem compareNodes_comm (lawful : lodash.Lawful) (node other : INode) :
    compareNodes lodash node other = compareNodes lodash other node := by
  rw [Bool.eq_iff_iff, compareNodes_iff lawful, compareNodes_iff lawful]
  exact forall₂_congr fun _ _ => ⟨.symm, .symm⟩

/-- Compared the other way around, what was added is gone, and what was gone is added. -/
theorem changes_reversed {T : Type} [DecidableEq T] (lawful : lodash.Lawful) (base target : List INode)
    (prev next : IConnections T) :
    (∀ id, ((compareWorkflowsNodes INode.id (compareNodes lodash) target base).get id).map NodeDiff.status =
      ((compareWorkflowsNodes INode.id (compareNodes lodash) base target).get id).map (·.status.reversed)) ∧
    ∀ nodeName inputName sourceIndex added,
      listedAt ((compareConnections next prev).side added) nodeName inputName sourceIndex =
        listedAt ((compareConnections prev next).side !added) nodeName inputName sourceIndex := by
  refine ⟨fun id => ?_, fun nodeName inputName sourceIndex added => ?_⟩
  · rw [get_compareWorkflowsNodes, get_compareWorkflowsNodes]
    cases (nodesById INode.id base).get id <;> cases (nodesById INode.id target).get id
    case some.some node other =>
      rw [map_some, map_some, compareNodes_comm lawful other node]
      split_ifs <;> rfl
    all_goals rfl
  · rw [listedAt_compareConnections, listedAt_compareConnections]
    cases added <;> rfl

/-- A node that was deleted is added on the way back. -/
theorem deleted_reversed : ((compareWorkflowsNodes INode.id (compareNodes byContent) []
    [nodeWith positionKey .null]).get "1").map NodeDiff.status = some .added :=
  (changes_reversed byContent_lawful [nodeWith positionKey .null] [] (T := String) .empty .empty).1 "1"

end N8n.WorkflowDiff
