import Mathlib.Data.List.Induction
import Mathlib.Data.List.Perm.Basic
import N8n.ConnectionsDiff
import N8n.FormatValue
import N8n.Workflow

/-! The differences between two versions of a workflow, and the grouping of a history of
versions by rules that say which version supersedes the one before it. -/

namespace N8n.WorkflowDiff

open FormatValue (Json)
open List Option

/-! ## Differences -/

inductive NodeDiffStatus
  | eq
  | modified
  | added
  | deleted
  deriving DecidableEq

structure NodeDiff (N : Type) where
  status : NodeDiffStatus
  node : N

def nodesById {N : Type} (id : N → String) (nodes : List N) : OrderedMap String N :=
  nodes.foldl (fun acc node => acc.set (id node) node) .empty

def compareWorkflowsNodes {N : Type} (id : N → String) (nodesEqual : N → N → Bool) (base target : List N) :
    OrderedMap String (NodeDiff N) :=
  let baseNodes := nodesById id base
  let targetNodes := nodesById id target
  let diff : OrderedMap String (NodeDiff N) := baseNodes.entries.foldl (fun diff entry =>
    match targetNodes.get entry.1 with
    | none => diff.set entry.1 ⟨.deleted, entry.2⟩
    | some other => diff.set entry.1 ⟨if nodesEqual entry.2 other then .eq else .modified, entry.2⟩) .empty
  targetNodes.entries.foldl (fun diff entry =>
    if baseNodes.has entry.1 then diff else diff.set entry.1 ⟨.added, entry.2⟩) diff

/-! ## Versions -/

/-- What the type parameters `W` and `N` extend: the fields of a version and of a node that the
grouping reads, and the comparison of the picked properties of two nodes. -/
structure Versions (W N ν : Type) where
  nodes : W → List N
  connections : W → IConnections NodeConnectionType
  id : N → String
  parameters : N → Json ν
  compareNodes : N → N → Bool

structure WorkflowChangeSet (N : Type) where
  nodes : OrderedMap String (NodeDiff N)
  connections : ConnectionsDiff NodeConnectionType

structure DiffMetaData where
  workflowSizeScore : Option ℕ
  deriving DecidableEq

/-- `none` is a rule that throws. -/
abbrev DiffRule (W N : Type) := W → W → WorkflowChangeSet N → DiffMetaData → Option Bool

structure Grouping (W : Type) where
  removed : List W
  remaining : List W
  deriving DecidableEq

section Sizes

variable {ν : Type}

/-- `text.length`, in code units. -/
def codeUnits (text : String) : ℕ := (text.toList.map fun char => if char.val < 0x10000 then 1 else 2).sum

mutual

/-- The falsy values count one, as the other scalars do. -/
def determineNodeSize : Json ν → ℕ
  | .null => 1
  | .boolean _ => 1
  | .number _ => 1
  | .string value => if value = "" then 1 else codeUnits value
  | .array items => 1 + determineItemsSize items
  | .object entries => 1 + determineEntriesSize entries

def determineItemsSize : List (Json ν) → ℕ
  | [] => 0
  | item :: items => determineNodeSize item + determineItemsSize items

def determineEntriesSize : List (String × Json ν) → ℕ
  | [] => 0
  | (_, value) :: entries => determineNodeSize value + determineEntriesSize entries

end

end Sizes

section Group

variable {W N ν : Type} (versions : Versions W N ν)

/-- The shortcut for one and the same version gives what the comparison gives. -/
def Versions.changeSet (source target : W) : WorkflowChangeSet N where
  nodes := compareWorkflowsNodes versions.id versions.compareNodes (versions.nodes source) (versions.nodes target)
  connections := compareConnections (versions.connections source) (versions.connections target)

def Versions.determineNodeParametersSize (workflow : W) : ℕ :=
  (versions.nodes workflow).foldl (fun acc node => acc + determineNodeSize (versions.parameters node)) 0

def Versions.metaData (workflows : List W) (workflowSizeScore : Bool) : DiffMetaData where
  workflowSizeScore :=
    if workflowSizeScore then do
      let average ← workflows[workflows.length / 2]?
      let latest ← workflows.getLast?
      pure (max (versions.determineNodeParametersSize average) (versions.determineNodeParametersSize latest))
    else none

variable (rules skipRules : List (DiffRule W N)) (metaData : DiffMetaData)

/-- The loop with index `i` down to one. The version before the one at the index is skipped,
merged into it, or stays. -/
def Versions.diffLoop : ℕ → Grouping W → Option (Grouping W)
  | 0, grouping => some grouping
  | i + 1, grouping => do
    let prev ← grouping.remaining[i]?
    let next ← grouping.remaining[i + 1]?
    let wcs := versions.changeSet prev next
    if ← skipRules.anyM fun shouldSkip => shouldSkip prev next wcs metaData then
      diffLoop i grouping
    else if ← rules.anyM fun rule => rule prev next wcs metaData then
      diffLoop i ⟨grouping.removed ++ [prev], grouping.remaining.eraseIdx i⟩
    else diffLoop i grouping

/-- `none` where a rule throws. -/
def Versions.groupWorkflows (workflows : List W) (workflowSizeScore : Bool) : Option (Grouping W) :=
  match workflows with
  | [] => some ⟨[], []⟩
  | [workflow] => some ⟨[], [workflow]⟩
  | _ =>
    versions.diffLoop rules skipRules (versions.metaData workflows workflowSizeScore)
      (workflows.length - 1) ⟨[], workflows⟩

/-! ## What the grouping removes -/

/-- Some rule merges the one version into the other, and no skip rule holds them apart. -/
def Versions.Supersedes (w r : W) : Prop :=
  (∃ rule ∈ rules, rule w r (versions.changeSet w r) metaData = some true) ∧
    ∀ shouldSkip ∈ skipRules, shouldSkip w r (versions.changeSet w r) metaData ≠ some true

/-- Consecutive versions of which the last one remains. -/
structure Group (W : Type) where
  superseded : List W
  kept : W

def Group.members (group : Group W) : List W := group.superseded ++ [group.kept]

end Group

section Monadic

variable {α : Type} {p : α → Option Bool} {l : List α}

theorem anyM_true (h : l.anyM p = some true) : ∃ x ∈ l, p x = some true := by
  induction l with
  | nil => cases h
  | cons x rest ih =>
    simp only [List.anyM, bind_eq_bind, bind_eq_some_iff] at h
    obtain ⟨answer, here, later⟩ := h
    cases answer with
    | true => exact ⟨x, mem_cons_self, here⟩
    | false =>
      obtain ⟨y, member, holds⟩ := ih later
      exact ⟨y, mem_cons_of_mem _ member, holds⟩

theorem anyM_false (h : l.anyM p = some false) : ∀ x ∈ l, p x = some false := by
  induction l with
  | nil => simp
  | cons x rest ih =>
    simp only [List.anyM, bind_eq_bind, bind_eq_some_iff] at h
    obtain ⟨answer, here, later⟩ := h
    cases answer with
    | true => cases later
    | false => exact forall_mem_cons.mpr ⟨here, ih later⟩

theorem anyM_isSome (answers : ∀ x ∈ l, (p x).isSome) : (l.anyM p).isSome := by
  induction l with
  | nil => rfl
  | cons x rest ih =>
    obtain ⟨first, others⟩ := forall_mem_cons.mp answers
    obtain ⟨answer, here⟩ := isSome_iff_exists.mp first
    simp only [List.anyM, here, bind_eq_bind, bind_some]
    cases answer with
    | true => rfl
    | false => exact ih others

end Monadic

section Loop

variable {W N ν : Type} {versions : Versions W N ν} {rules skipRules : List (DiffRule W N)}
  {metaData : DiffMetaData} {grouping result : Grouping W}

/-- The groups that are complete, and the block of superseded versions before the version at
the index. -/
structure Grouped (versions : Versions W N ν) (rules skipRules : List (DiffRule W N))
    (metaData : DiffMetaData) (workflows pre : List W) (groups : List (Group W))
    (grouping : Grouping W) : Prop where
  all : workflows = pre ++ groups.flatMap Group.members
  remaining : grouping.remaining = pre ++ groups.map Group.kept
  removed : grouping.removed.Perm (groups.flatMap Group.superseded)
  supersedes : ∀ group ∈ groups, ∀ w ∈ group.superseded, versions.Supersedes rules skipRules metaData w group.kept

variable {workflows pre : List W} {w : W} {group : Group W} {groups : List (Group W)} {i : ℕ}
  {workflowSizeScore : Bool}

theorem Grouped.keep (h : Grouped versions rules skipRules metaData workflows (pre ++ [w]) groups grouping) :
    Grouped versions rules skipRules metaData workflows pre (⟨[], w⟩ :: groups) grouping where
  all := by simpa [Group.members] using h.all
  remaining := by simpa using h.remaining
  removed := by simpa using h.removed
  supersedes := by
    refine forall_mem_cons.mpr ⟨?_, h.supersedes⟩
    simp

theorem Grouped.merge (h : Grouped versions rules skipRules metaData workflows (pre ++ [w]) (group :: groups) grouping)
    (superseded : versions.Supersedes rules skipRules metaData w group.kept) :
    Grouped versions rules skipRules metaData workflows pre (⟨w :: group.superseded, group.kept⟩ :: groups)
      ⟨grouping.removed ++ [w], grouping.remaining.eraseIdx pre.length⟩ where
  all := by simpa [Group.members] using h.all
  remaining := by
    rw [h.remaining, append_assoc, eraseIdx_append_of_length_le (Nat.le_refl _)]
    simp
  removed := by
    have moved : (grouping.removed ++ [w]).Perm (w :: grouping.removed) := perm_append_singleton _ _
    simpa using moved.trans (h.removed.cons w)
  supersedes := by
    have old := forall_mem_cons.mp h.supersedes
    exact forall_mem_cons.mpr ⟨forall_mem_cons.mpr ⟨superseded, old.1⟩, old.2⟩

theorem diffLoop_step (length : pre.length = i)
    (h : Grouped versions rules skipRules metaData workflows (pre ++ [w]) (group :: groups) grouping)
    (done : versions.diffLoop rules skipRules metaData (i + 1) grouping = some result) :
    ∃ next groups', Grouped versions rules skipRules metaData workflows pre groups' next ∧ groups' ≠ [] ∧
      versions.diffLoop rules skipRules metaData i next = some result := by
  have prev : grouping.remaining[i]? = some w := by
    rw [h.remaining, ← length]
    simp
  have next : grouping.remaining[i + 1]? = some group.kept := by
    rw [h.remaining, ← length]
    simp
  simp only [Versions.diffLoop, prev, next, bind_eq_bind, bind_some, bind_eq_some_iff] at done
  obtain ⟨skipped, skips, done⟩ := done
  cases skipped with
  | true => exact ⟨grouping, _, h.keep, cons_ne_nil _ _, done⟩
  | false =>
    obtain ⟨merged, merges, done⟩ := bind_eq_some_iff.mp done
    cases merged with
    | false => exact ⟨grouping, _, h.keep, cons_ne_nil _ _, done⟩
    | true =>
      have superseded : versions.Supersedes rules skipRules metaData w group.kept :=
        ⟨anyM_true merges, fun shouldSkip member => by simp [anyM_false skips shouldSkip member]⟩
      exact ⟨_, _, length ▸ h.merge superseded, cons_ne_nil _ _, done⟩

theorem diffLoop_groups (length : pre.length = i) (some_ : groups ≠ [])
    (h : Grouped versions rules skipRules metaData workflows pre groups grouping)
    (done : versions.diffLoop rules skipRules metaData i grouping = some result) :
    ∃ groups', Grouped versions rules skipRules metaData workflows [] groups' result := by
  induction i generalizing pre groups grouping with
  | zero =>
    obtain rfl := length_eq_zero_iff.mp length
    cases done
    exact ⟨groups, h⟩
  | succ i ih =>
    obtain ⟨before, w, rfl⟩ : ∃ before w, pre = before ++ [w] := by
      refine ⟨pre.dropLast, pre.getLast ?_, (dropLast_append_getLast ?_).symm⟩
      all_goals exact ne_nil_of_length_eq_add_one length
    have shorter : before.length = i := by simpa using length
    obtain ⟨group, groups, rfl⟩ := exists_cons_of_ne_nil some_
    obtain ⟨next, groups', grouped, nonempty, rest⟩ := diffLoop_step shorter h done
    exact ih shorter nonempty grouped rest

theorem groupWorkflows_groups
    (done : versions.groupWorkflows rules skipRules workflows workflowSizeScore = some result) :
    ∃ groups, Grouped versions rules skipRules (versions.metaData workflows workflowSizeScore) workflows []
      groups result := by
  match workflows with
  | [] =>
    cases done
    exact ⟨[], rfl, rfl, .nil, by simp⟩
  | [workflow] =>
    cases done
    exact ⟨[⟨[], workflow⟩], rfl, rfl, .nil, by simp⟩
  | first :: second :: rest =>
    have split : first :: second :: rest =
        (first :: second :: rest).dropLast ++ [(first :: second :: rest).getLast (cons_ne_nil _ _)] :=
      (dropLast_append_getLast _).symm
    have start : Grouped versions rules skipRules
        (versions.metaData (first :: second :: rest) workflowSizeScore) (first :: second :: rest)
        (first :: second :: rest).dropLast [⟨[], (first :: second :: rest).getLast (cons_ne_nil _ _)⟩]
        ⟨[], first :: second :: rest⟩ :=
      ⟨split, split, .nil, by simp⟩
    exact diffLoop_groups (by simp) (cons_ne_nil _ _) start done

theorem diffLoop_isSome (inside : i < grouping.remaining.length)
    (answers : ∀ rule ∈ rules ++ skipRules, ∀ prev next wcs, (rule prev next wcs metaData).isSome) :
    (versions.diffLoop rules skipRules metaData i grouping).isSome := by
  induction i generalizing grouping with
  | zero => rfl
  | succ i ih =>
    have before : i < grouping.remaining.length := Nat.lt_of_succ_lt inside
    let prev := grouping.remaining[i]
    let next := grouping.remaining[i + 1]
    let wcs := versions.changeSet prev next
    obtain ⟨skipped, skips⟩ := isSome_iff_exists.mp
      (anyM_isSome fun rule member => answers rule (mem_append_right rules member) prev next wcs)
    obtain ⟨merged, merges⟩ := isSome_iff_exists.mp
      (anyM_isSome fun rule member => answers rule (mem_append_left skipRules member) prev next wcs)
    simp only [Versions.diffLoop, getElem?_eq_getElem before, getElem?_eq_getElem inside,
      bind_eq_bind, bind_some]
    rw [skips, bind_some]
    split
    · exact ih before
    · rw [merges, bind_some]
      split
      · refine ih ?_
        rw [length_eraseIdx_of_lt before]
        omega
      · exact ih before

theorem groupWorkflows_isSome
    (answers : ∀ rule ∈ rules ++ skipRules, ∀ prev next wcs metaData, (rule prev next wcs metaData).isSome) :
    (versions.groupWorkflows rules skipRules workflows workflowSizeScore).isSome := by
  match workflows with
  | [] => rfl
  | [_] => rfl
  | first :: second :: rest =>
    exact diffLoop_isSome (by simp) fun rule member prev next wcs => answers rule member prev next wcs _

theorem Group.members_perm (groups : List (Group W)) :
    (groups.flatMap Group.superseded ++ groups.map Group.kept).Perm (groups.flatMap Group.members) := by
  induction groups with
  | nil => exact .nil
  | cons group groups ih =>
    have moved : (groups.flatMap Group.superseded ++ group.kept :: groups.map Group.kept).Perm
        (group.kept :: groups.flatMap Group.members) := perm_middle.trans (ih.cons _)
    simpa [Group.members] using moved.append_left group.superseded

theorem Group.kept_sublist (groups : List (Group W)) :
    (groups.map Group.kept).Sublist (groups.flatMap Group.members) := by
  induction groups with
  | nil => exact .slnil
  | cons group groups ih =>
    have last : [group.kept].Sublist group.members := sublist_append_right _ _
    exact last.append ih

theorem Group.getLast?_kept (groups : List (Group W)) :
    (groups.map Group.kept).getLast? = (groups.flatMap Group.members).getLast? := by
  induction groups using List.reverseRecOn with
  | nil => rfl
  | append_singleton groups group _ => simp [Group.members]

/-- The grouping returns when the rules do, and splits the versions into blocks: the last
version of a block remains and supersedes each version that is removed from the block. -/
theorem groupWorkflows_keeps_superseding (versions : Versions W N ν)
    (rules skipRules : List (DiffRule W N)) (workflows : List W) (workflowSizeScore : Bool) :
    ((∀ rule ∈ rules ++ skipRules, ∀ prev next wcs metaData, (rule prev next wcs metaData).isSome) →
      (versions.groupWorkflows rules skipRules workflows workflowSizeScore).isSome) ∧
    ∀ result, versions.groupWorkflows rules skipRules workflows workflowSizeScore = some result →
      (result.removed ++ result.remaining).Perm workflows ∧
      result.remaining.Sublist workflows ∧
      result.remaining.getLast? = workflows.getLast? ∧
      ∃ groups : List (Group W), workflows = groups.flatMap Group.members ∧ result.remaining = groups.map Group.kept ∧
        result.removed.Perm (groups.flatMap Group.superseded) ∧
        ∀ group ∈ groups, ∀ w ∈ group.superseded, versions.Supersedes rules skipRules
          (versions.metaData workflows workflowSizeScore) w group.kept := by
  refine ⟨groupWorkflows_isSome, fun result done => ?_⟩
  obtain ⟨groups, grouped⟩ := groupWorkflows_groups done
  have all : workflows = groups.flatMap Group.members := grouped.all
  have remaining : result.remaining = groups.map Group.kept := grouped.remaining
  refine ⟨?_, ?_, ?_, groups, all, remaining, grouped.removed, grouped.supersedes⟩
  · rw [remaining]
    exact (grouped.removed.append_right _).trans ((Group.members_perm groups).trans (.of_eq all.symm))
  · rw [remaining, all]
    exact Group.kept_sublist groups
  · rw [remaining, all]
    exact Group.getLast?_kept groups

/-- A rule that merges even versions, and a skip rule that holds four and five apart. -/
example : (⟨fun _ => [], fun _ => .empty, fun _ => "", fun _ => .null, fun _ _ => true⟩ :
      Versions ℕ Unit Unit).groupWorkflows [fun prev _ _ _ => some (prev % 2 = 0)]
        [fun prev next _ _ => some (prev = 4 ∧ next = 5)] [0, 1, 2, 6, 3, 4, 5] false =
      some ⟨[6, 2, 0], [1, 3, 4, 5]⟩ := by
  decide

end Loop

end N8n.WorkflowDiff
