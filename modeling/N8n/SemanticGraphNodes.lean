import Mathlib.Data.List.Forall2
import Mathlib.Data.List.Perm.Subperm
import N8n.DecimalOrder
import N8n.SemanticGraph

/-! The names under which a semantic graph holds the nodes of a workflow. -/

namespace N8n.Codegen

open List Option OrderedMap

def generatedFrom (unnamedCounters : OrderedMap String ℕ) : List NodeJSON → List String
  | [] => []
  | node :: nodes =>
    if isUnnamed node then
      unnamed (typeSuffix node.type) (nextCounter unnamedCounters node) ::
        generatedFrom (unnamedCounters.set (typeSuffix node.type) (nextCounter unnamedCounters node)) nodes
    else generatedFrom unnamedCounters nodes

def generatedNames (nodes : List NodeJSON) : List String := generatedFrom .empty nodes

def DistinctNames (nodes : List NodeJSON) : Prop := (nodes.filterMap NodeJSON.name).Nodup

instance : DecidablePred DistinctNames := fun nodes =>
  inferInstanceAs (Decidable (nodes.filterMap NodeJSON.name).Nodup)

def IsKey (node : NodeJSON) (key : String) : Prop := ∀ name, node.name = some name → name ≠ "" → key = name

def Held (nodes : List NodeJSON) (held : Nodes) : Prop :=
  ∃ keys : List String, keys.Nodup ∧
    Forall₂ (fun node key => (held.get key).map SemanticNode.json = some node ∧ IsKey node key) nodes keys

section Unique

theorem append_toString_injective (text : String) {i j : ℕ}
    (same : text ++ toString i = text ++ toString j) : i = j := by
  have chars := congrArg String.toList same
  rw [String.toList_append, String.toList_append] at chars
  exact DecimalOrder.toString_injective (String.toList_inj.mp (append_cancel_left chars))

theorem uniqueNames_nodup (baseName : String) (nodes : Nodes) : (uniqueNames baseName nodes).Nodup := by
  refine Nodup.map_on (fun i _ j _ same => ?_) nodup_range
  have counters := append_toString_injective _ same
  omega

theorem generateUniqueName_spec (baseName : String) (nodes : Nodes) :
    nodes.get (generateUniqueName baseName nodes) = none ∧ generateUniqueName baseName nodes ≠ "" := by
  cases found : (uniqueNames baseName nodes).find? fun name => !nodes.has name with
  | none =>
    have taken : uniqueNames baseName nodes ⊆ names nodes := by
      intro name tried
      have has := find?_eq_none.mp found name tried
      by_contra absent
      rw [names, ← get_eq_none_iff] at absent
      simp [OrderedMap.has, absent] at has
    have fewer := ((uniqueNames_nodup baseName nodes).subperm taken).length_le
    simp only [uniqueNames, names, length_map, length_range, OrderedMap.size] at fewer
    omega
  | some name =>
    have free := find?_some found
    have tried := mem_of_find?_eq_some found
    rw [generateUniqueName, found]
    obtain ⟨i, -, rfl⟩ := List.mem_map.mp tried
    refine ⟨by simpa [OrderedMap.has] using free, fun empty => ?_⟩
    have chars := congrArg String.toList empty
    simp [String.toList_append] at chars

end Unique

section Generated

theorem unnamed_injective {suffix suffix' : String} {counter counter' : ℕ}
    (same : unnamed suffix counter = unnamed suffix' counter') : suffix = suffix' ∧ counter = counter' := by
  have parts : ∀ (suffix : String) (counter : ℕ), (unnamed suffix counter).toList = "__unnamed_".toList ++
      (suffix.toList ++ ('_' :: (toString counter).toList ++ "__".toList)) := by
    intro suffix counter
    simp only [unnamed, String.toList_append, append_assoc]
    rfl
  have chars := congrArg String.toList same
  rw [parts, parts, ← append_assoc suffix.toList, ← append_assoc suffix'.toList] at chars
  have middle := congrArg List.reverse (append_cancel_right (append_cancel_left chars))
  simp only [reverse_append, reverse_cons, append_assoc, singleton_append] at middle
  have noSeparator : ∀ n : ℕ, '_' ∉ (toString n).toList.reverse := fun n member =>
    DecimalOrder.notMem_toString (by decide) n (mem_reverse.mp member)
  obtain ⟨digits, rest⟩ := DecimalOrder.eq_of_separated (noSeparator _) (noSeparator _) middle
  exact ⟨String.toList_inj.mp (reverse_injective rest),
    DecimalOrder.toString_injective (String.toList_inj.mp (reverse_injective digits))⟩

theorem counter_of_generated {unnamedCounters : OrderedMap String ℕ} {nodes : List NodeJSON} {name : String}
    (generated : name ∈ generatedFrom unnamedCounters nodes) :
    ∃ suffix counter, name = unnamed suffix counter ∧ (unnamedCounters.get suffix).getD 0 < counter := by
  induction nodes generalizing unnamedCounters with
  | nil => cases generated
  | cons node nodes ih =>
    rw [generatedFrom] at generated
    split_ifs at generated
    · rcases mem_cons.mp generated with rfl | later
      · exact ⟨_, _, rfl, Nat.lt_succ_self _⟩
      · obtain ⟨suffix, counter, rfl, more⟩ := ih later
        refine ⟨suffix, counter, rfl, ?_⟩
        rw [get_set] at more
        split_ifs at more with same
        · subst same
          rw [getD_some, nextCounter] at more
          omega
        · exact more
    · exact ih generated

theorem generatedFrom_nodup (unnamedCounters : OrderedMap String ℕ) (nodes : List NodeJSON) :
    (generatedFrom unnamedCounters nodes).Nodup := by
  induction nodes generalizing unnamedCounters with
  | nil => exact nodup_nil
  | cons node nodes ih =>
    rw [generatedFrom]
    split_ifs
    · refine nodup_cons.mpr ⟨fun again => ?_, ih _⟩
      obtain ⟨suffix, counter, same, more⟩ := counter_of_generated again
      obtain ⟨rfl, rfl⟩ := unnamed_injective same
      rw [get_set_self, getD_some] at more
      exact Nat.lt_irrefl _ more
    · exact ih unnamedCounters

end Generated

section Create

variable {created : Created} {node : NodeJSON} {name : String} {nodes : List NodeJSON}

theorem unnamed_ne_empty (suffix : String) (counter : ℕ) : unnamed suffix counter ≠ "" := by
  intro empty
  have chars := congrArg String.toList empty
  simp [unnamed, String.toList_append] at chars

theorem isUnnamed_eq_false (named : node.name = some name) (nonempty : name ≠ "") : isUnnamed node = false := by
  simpa [isUnnamed, named] using nonempty

theorem nodeName_ne_empty : nodeName created node ≠ "" := by
  rw [nodeName]
  split_ifs with anonymous
  · exact unnamed_ne_empty _ _
  · dsimp only
    split_ifs
    · exact (generateUniqueName_spec _ _).2
    · simpa [isUnnamed] using anonymous

theorem nodeName_named (named : node.name = some name) (nonempty : name ≠ "") : nodeName created node =
      if created.nodes.has name then generateUniqueName name created.nodes else name := by
  rw [nodeName, isUnnamed_eq_false named nonempty, named]
  rfl

theorem nodeName_free (named : isUnnamed node = false) : created.nodes.get (nodeName created node) = none := by
  rw [nodeName, named]
  simp only [Bool.false_eq_true, if_false]
  split_ifs with taken
  · exact (generateUniqueName_spec _ _).1
  · simpa [OrderedMap.has] using taken

theorem get_createNode (name : String) : (createNode created node).nodes.get name =
    if name = nodeName created node then some (createSemanticNode name node)
    else created.nodes.get name := by
  rw [createNode, get_set]
  split_ifs with same
  · rw [same]
  · rfl

theorem taken_persists (taken : ∃ semantic, created.nodes.get name = some semantic ∧ isUnnamed semantic.json = true)
    (nodes : List NodeJSON) :
    ∃ semantic, (nodes.foldl createNode created).nodes.get name = some semantic ∧ isUnnamed semantic.json = true := by
  induction nodes generalizing created with
  | nil => exact taken
  | cons node nodes ih =>
    refine ih ?_
    rw [get_createNode]
    split_ifs with same
    · refine ⟨_, rfl, ?_⟩
      by_contra named
      obtain ⟨semantic, found, -⟩ := taken
      rw [same, nodeName_free (by simpa [createSemanticNode] using named)] at found
      cases found
    · exact taken

theorem created_blank (blank : ∀ name semantic, created.nodes.get name = some semantic →
      semantic = createSemanticNode name semantic.json) (nodes : List NodeJSON) :
    ∀ name semantic, (nodes.foldl createNode created).nodes.get name = some semantic →
      semantic = createSemanticNode name semantic.json := by
  induction nodes generalizing created with
  | nil => exact blank
  | cons node nodes ih =>
    refine ih fun name semantic found => ?_
    rw [get_createNode] at found
    split_ifs at found with same
    · cases found
      rfl
    · exact blank name semantic found

theorem mem_generatedFrom (generated : name ∈ generatedFrom created.unnamedCounters nodes) :
    ∃ before node after, nodes = before ++ node :: after ∧ isUnnamed node = true ∧
      nodeName (before.foldl createNode created) node = name := by
  induction nodes generalizing created with
  | nil => cases generated
  | cons first nodes ih =>
    rw [generatedFrom] at generated
    by_cases anonymous : isUnnamed first = true
    · rw [if_pos anonymous] at generated
      rcases mem_cons.mp generated with rfl | later
      · exact ⟨[], first, nodes, rfl, anonymous, by simp [nodeName, anonymous]⟩
      · have counters : (createNode created first).unnamedCounters = created.unnamedCounters.set (typeSuffix first.type)
              (nextCounter created.unnamedCounters first) := if_pos anonymous
        obtain ⟨before, node, after, rfl, unnamed, same⟩ := ih (counters ▸ later)
        exact ⟨first :: before, node, after, rfl, unnamed, same⟩
    · rw [if_neg anonymous] at generated
      have counters : (createNode created first).unnamedCounters = created.unnamedCounters :=
        if_neg anonymous
      obtain ⟨before, node, after, rfl, unnamed, same⟩ := ih (counters.symm ▸ generated)
      exact ⟨first :: before, node, after, rfl, unnamed, same⟩

def keysFrom (created : Created) : List NodeJSON → List String
  | [] => []
  | node :: nodes => nodeName created node :: keysFrom (createNode created node) nodes

theorem held_keysFrom (distinct : (keysFrom created nodes).Nodup) :
    Forall₂ (fun node key =>
        (nodes.foldl createNode created).nodes.get key = some (createSemanticNode key node))
        nodes (keysFrom created nodes) ∧
      ∀ key ∉ keysFrom created nodes, (nodes.foldl createNode created).nodes.get key = created.nodes.get key := by
  induction nodes generalizing created with
  | nil => exact ⟨.nil, fun _ _ => rfl⟩
  | cons first nodes ih =>
    obtain ⟨fresh, distinct'⟩ := nodup_cons.mp distinct
    obtain ⟨held, kept⟩ := ih distinct'
    refine ⟨.cons ?_ held, fun key other => ?_⟩
    · rw [foldl_cons, kept _ fresh, get_createNode, if_pos rfl]
    · have different := ne_of_not_mem_cons other
      rw [foldl_cons, kept key (not_mem_of_not_mem_cons other), get_createNode, if_neg different]

theorem unnamedCounters_createNode : (createNode created node).unnamedCounters =
    if isUnnamed node then created.unnamedCounters.set (typeSuffix node.type)
      (nextCounter created.unnamedCounters node) else created.unnamedCounters := rfl

theorem generatedFrom_cons (created : Created) (first : NodeJSON) (nodes : List NodeJSON) :
    generatedFrom created.unnamedCounters (first :: nodes) =
      (if isUnnamed first then [nodeName created first] else []) ++
        generatedFrom (createNode created first).unnamedCounters nodes := by
  rw [generatedFrom, unnamedCounters_createNode]
  split_ifs with anonymous
  · rw [nodeName, if_pos anonymous]
    rfl
  · rfl

theorem keysFrom_of_free (distinct : DistinctNames nodes)
    (free : ∀ node ∈ nodes, ∀ name, node.name = some name → name ≠ "" → created.nodes.get name = none)
    (apart : ∀ name ∈ generatedFrom created.unnamedCounters nodes, ∀ node ∈ nodes, node.name ≠ some name) :
    (keysFrom created nodes).Nodup ∧ Forall₂ IsKey nodes (keysFrom created nodes) ∧
      ∀ key ∈ keysFrom created nodes, key ∈ generatedFrom created.unnamedCounters nodes ∨
        ∃ node ∈ nodes, node.name = some key := by
  induction nodes generalizing created with
  | nil => exact ⟨nodup_nil, .nil, by simp [keysFrom]⟩
  | cons first nodes ih =>
    have generatedNodup := generatedFrom_nodup created.unnamedCounters (first :: nodes)
    rw [generatedFrom_cons] at apart generatedNodup ⊢
    obtain ⟨-, laterNodup, laterApart⟩ := nodup_append.mp generatedNodup
    have distinct' : DistinctNames nodes := distinct.sublist ((sublist_cons_self _ _).filterMap _)
    have apart' : ∀ name ∈ generatedFrom (createNode created first).unnamedCounters nodes, ∀ node ∈ nodes,
        node.name ≠ some name := fun name later node listed =>
      apart name (mem_append_right _ later) node (mem_cons_of_mem _ listed)
    by_cases anonymous : isUnnamed first = true
    · rw [if_pos anonymous] at apart laterApart ⊢
      have notNamed : ∀ node ∈ nodes, node.name ≠ some (nodeName created first) := fun node listed =>
        apart _ mem_cons_self node (mem_cons_of_mem _ listed)
      have free' : ∀ node ∈ nodes, ∀ name, node.name = some name → name ≠ "" →
          (createNode created first).nodes.get name = none := by
        intro node listed name named nonempty
        have other : name ≠ nodeName created first := fun same => notNamed node listed (same ▸ named)
        rw [get_createNode, if_neg other]
        exact free node (mem_cons_of_mem _ listed) name named nonempty
      obtain ⟨keysNodup, isKeys, keys⟩ := ih distinct' free' apart'
      refine ⟨nodup_cons.mpr ⟨fun again => ?_, keysNodup⟩, .cons ?_ isKeys, ?_⟩
      · rcases keys _ again with generated | ⟨node, listed, named⟩
        · exact laterApart _ (mem_singleton_self _) _ generated rfl
        · exact notNamed node listed named
      · intro name named nonempty
        rw [isUnnamed_eq_false named nonempty] at anonymous
        cases anonymous
      · refine forall_mem_cons.mpr ⟨.inl mem_cons_self, fun key later => ?_⟩
        refine (keys key later).imp (mem_append_right _) fun ⟨node, listed, named⟩ => ?_
        exact ⟨node, mem_cons_of_mem _ listed, named⟩
    · rw [if_neg anonymous] at apart ⊢
      obtain ⟨own, named, nonempty⟩ : ∃ own, first.name = some own ∧ own ≠ "" := by
        cases named : first.name with
        | none => simp [isUnnamed, named] at anonymous
        | some own => exact ⟨own, rfl, by simpa [isUnnamed, named] using anonymous⟩
      have key : nodeName created first = own := by
        have absent := free first mem_cons_self own named nonempty
        rw [nodeName_named named nonempty, OrderedMap.has, absent]
        rfl
      have others : ∀ node ∈ nodes, node.name ≠ some own := by
        rw [DistinctNames, filterMap_cons, named] at distinct
        exact fun node listed same => (nodup_cons.mp distinct).1 (mem_filterMap.mpr ⟨node, listed, same⟩)
      have free' : ∀ node ∈ nodes, ∀ name, node.name = some name → name ≠ "" →
          (createNode created first).nodes.get name = none := by
        intro node listed name named' nonempty'
        have other : name ≠ own := fun same => others node listed (same ▸ named')
        rw [get_createNode, key, if_neg other]
        exact free node (mem_cons_of_mem _ listed) name named' nonempty'
      obtain ⟨keysNodup, isKeys, keys⟩ := ih distinct' free' apart'
      rw [keysFrom, key]
      refine ⟨nodup_cons.mpr ⟨fun again => ?_, keysNodup⟩, .cons ?_ isKeys, ?_⟩
      · rcases keys _ again with generated | ⟨node, listed, same⟩
        · exact apart own generated first mem_cons_self named
        · exact others node listed same
      · exact fun name named' _ => some.inj (named.symm.trans named')
      · refine forall_mem_cons.mpr ⟨.inr ⟨first, mem_cons_self, named⟩, fun key later => ?_⟩
        refine (keys key later).imp_right fun ⟨node, listed, named⟩ => ?_
        exact ⟨node, mem_cons_of_mem _ listed, named⟩

end Create

theorem held_iff {nodes : List NodeJSON} (distinct : DistinctNames nodes) : Held nodes (createNodes nodes) ↔
      ∀ name ∈ generatedNames nodes, ∀ node ∈ nodes, node.name ≠ some name := by
  constructor
  · rintro ⟨keys, -, held⟩ name generated node listed named
    obtain ⟨before, other, after, rfl, anonymous, same⟩ :=
      mem_generatedFrom (show name ∈ generatedFrom ({} : Created).unnamedCounters nodes from
        generated)
    have nonempty : name ≠ "" := same ▸ nodeName_ne_empty
    obtain ⟨⟨i, inside⟩, rfl⟩ := mem_iff_get.mp listed
    obtain ⟨found, isKey⟩ := (forall₂_iff_get.mp held).2 i inside ((held.length_eq) ▸ inside)
    rw [isKey name named nonempty] at found
    obtain ⟨semantic, found', unnamed⟩ : ∃ semantic, (createNodes (before ++ other :: after)).get name = some semantic ∧
          isUnnamed semantic.json = true := by
      rw [createNodes, foldl_append, foldl_cons]
      refine taken_persists ⟨createSemanticNode name other, ?_, anonymous⟩ after
      rw [get_createNode, if_pos same.symm]
    rw [found', map_some, some.injEq] at found
    rw [found, isUnnamed_eq_false named nonempty] at unnamed
    cases unnamed
  · intro apart
    obtain ⟨keysNodup, isKeys, -⟩ : (keysFrom {} nodes).Nodup ∧ Forall₂ IsKey nodes (keysFrom {} nodes) ∧ _ :=
      keysFrom_of_free distinct (fun _ _ _ _ _ => rfl) apart
    have held := forall₂_iff_zip.mp (held_keysFrom keysNodup).1
    refine ⟨keysFrom {} nodes, keysNodup, forall₂_iff_zip.mpr ⟨held.1, fun pair => ⟨?_, ?_⟩⟩⟩
    · rw [createNodes, held.2 pair]
      rfl
    · exact (forall₂_iff_zip.mp isKeys).2 pair

end N8n.Codegen
