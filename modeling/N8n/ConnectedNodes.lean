import Mathlib.Data.List.Perm.Subperm
import N8n.Walk
import N8n.Workflow

/-! `getConnectedNodes` finds what can be reached. A search from a node collects, for each
child that is not on the way, the child and what the search from there collects, each of
them put first; so whatever a node leads to ends up before it. -/

namespace N8n

open List Relation Prod

section Search

variable (connections : IConnections) (selector : ConnectionSelector)

/-- The targets of the connections of the selected types, in the order of the search. -/
def connectedTo (node : String) : List String :=
  match connections.get node with
  | none => []
  | some byType => (selector.types byType).flatMap fun type =>
    (((byType.get type).getD []).flatMap (·.getD [])).map (·.node)

def Follows (node next : String) : Prop := next ∈ connectedTo connections selector node

variable {connections selector}

def visitChild (search : String → List String) (checked : List String) (returnNodes : List String)
    (child : String) : List String :=
  if child ∈ checked then returnNodes
  else (search child).foldr (fun node nodes => moveToFront nodes node) (moveToFront returnNodes child)

theorem foldl_types {β : Type*} (visit : β → String → β) (types : List NodeConnectionType)
    (byType : INodeConnections) (start : β) :
    types.foldl (fun result type =>
      match byType.get type with
      | none => result
      | some byIndex => (byIndex.flatMap (·.getD [])).foldl
        (fun result connection => visit result connection.node) result) start =
      (types.flatMap fun type => (((byType.get type).getD []).flatMap (·.getD [])).map (·.node)).foldl
        visit start := by
  induction types generalizing start with
  | nil => rfl
  | cons type types ih =>
    rw [foldl_cons, flatMap_cons, foldl_append, ih, foldl_map]
    cases byType.get type <;> rfl

theorem searchConnectedNodes_eq (fuel : ℕ) (nodeName : String) (depth : Option ℕ) (checked : List String) :
    searchConnectedNodes connections selector (fuel + 1) nodeName depth checked =
      if depth = some 0 ∨ nodeName ∈ checked then []
      else (connectedTo connections selector nodeName).foldl
        (visitChild (fun child => searchConnectedNodes connections selector fuel child (depth.map (· - 1))
          (checked ++ [nodeName])) (checked ++ [nodeName])) [] := by
  rw [searchConnectedNodes]
  by_cases ended : depth = some 0
  · simp [ended]
  by_cases seen : nodeName ∈ checked
  · simp only [ended, if_false, seen, if_true, or_true]
    cases connections.get nodeName with
    | none => rfl
    | some byType =>
      simp only
      generalize selector.types byType = types
      induction types with
      | nil => rfl
      | cons type types ih =>
        rw [foldl_cons]
        cases byType.get type <;> exact ih
  · simp only [ended, seen, if_false, or_self, connectedTo]
    cases connections.get nodeName with
    | none => rfl
    | some byType =>
      let search := fun child => searchConnectedNodes connections selector fuel child (depth.map (· - 1))
        (checked ++ [nodeName])
      exact foldl_types (visitChild search (checked ++ [nodeName])) (selector.types byType) byType []

/-! ## Collecting -/

variable {returnNodes : List String} {x : String} {node : String}

theorem mem_moveToFront : x ∈ moveToFront returnNodes node ↔ x = node ∨ x ∈ returnNodes := by
  rw [moveToFront, mem_cons]
  by_cases same : x = node
  · simp [same]
  · simp [same, mem_erase_of_ne same]

theorem foldr_moveToFront {found : List String} (distinct : found.Nodup) (distinctNodes : returnNodes.Nodup) :
    found.foldr (fun node nodes => moveToFront nodes node) returnNodes = found ++ returnNodes.filter (· ∉ found) := by
  induction found with
  | nil => simp
  | cons node found ih =>
    have outside := (nodup_cons.mp distinct).1
    have rest : (returnNodes.filter (· ∉ found)).erase node = returnNodes.filter (· ∉ node :: found) := by
      rw [(distinctNodes.filter _).erase_eq_filter, filter_filter]
      refine filter_congr fun x _ => ?_
      by_cases same : x = node <;> simp [same]
    rw [foldr_cons, ih (nodup_cons.mp distinct).2, moveToFront, erase_append_right _ outside, rest,
      cons_append]

variable {search : String → List String} {checked : List String} {child : String}

theorem mem_visitChild : x ∈ visitChild search checked returnNodes child ↔
      x ∈ returnNodes ∨ child ∉ checked ∧ (x = child ∨ x ∈ search child) := by
  rw [visitChild]
  split
  · simp [*]
  · have collected : ∀ found : List String,
        x ∈ found.foldr (fun node nodes => moveToFront nodes node) (moveToFront returnNodes child) ↔
          x ∈ found ∨ x = child ∨ x ∈ returnNodes := by
      intro found
      induction found with
      | nil => simp [mem_moveToFront]
      | cons node found ih => rw [foldr_cons, mem_moveToFront, ih, mem_cons, or_assoc]
    rw [collected]
    tauto

theorem mem_foldl_visitChild {children : List String} : x ∈ children.foldl (visitChild search checked) returnNodes ↔
      x ∈ returnNodes ∨ ∃ child ∈ children, child ∉ checked ∧ (x = child ∨ x ∈ search child) := by
  induction children generalizing returnNodes with
  | nil => simp
  | cons child children ih =>
    rw [foldl_cons, ih, mem_visitChild, or_assoc]
    simp

theorem visitChild_nodup (distinct : returnNodes.Nodup) (found : (search child).Nodup) :
    (visitChild search checked returnNodes child).Nodup := by
  rw [visitChild]
  split
  · exact distinct
  · have front : (moveToFront returnNodes child).Nodup :=
      nodup_cons.mpr ⟨distinct.not_mem_erase, distinct.erase child⟩
    rw [foldr_moveToFront found front, nodup_append]
    refine ⟨found, front.filter _, ?_⟩
    rintro x inside y member rfl
    simp [inside] at member

theorem searchConnectedNodes_nodup (fuel : ℕ) (nodeName : String) (depth : Option ℕ) (checked : List String) :
    (searchConnectedNodes connections selector fuel nodeName depth checked).Nodup := by
  induction fuel generalizing nodeName depth checked with
  | zero => exact nodup_nil
  | succ fuel ih =>
    rw [searchConnectedNodes_eq]
    split
    · exact nodup_nil
    · have each : ∀ (children returnNodes : List String), returnNodes.Nodup →
          (children.foldl (visitChild (fun child => searchConnectedNodes connections selector fuel child
            (depth.map (· - 1)) (checked ++ [nodeName])) (checked ++ [nodeName])) returnNodes).Nodup := by
        intro children
        induction children with
        | nil => exact fun _ distinct => distinct
        | cons child children inner =>
          exact fun returnNodes distinct => inner _ (visitChild_nodup distinct (ih child _ _))
      exact each _ [] nodup_nil

/-! ## What is found -/

def Within (depth : Option ℕ) (steps : ℕ) : Prop := ∀ bound, depth = some bound → steps ≤ bound

variable {depth : Option ℕ}

theorem within_pred (positive : depth ≠ some 0) {steps : ℕ} :
    Within depth (steps + 1) ↔ Within (depth.map (· - 1)) steps := by
  cases depth with
  | none => simp [Within]
  | some bound =>
    have nonzero : bound ≠ 0 := fun zero => positive (zero ▸ rfl)
    simp only [Within, Option.some.injEq, Option.map_some, forall_eq']
    omega

variable {fuel : ℕ} {nodeName : String}

/-- A search finds the ends of the walks without repetitions that avoid the nodes on the
way and are not longer than its depth. -/
theorem mem_searchConnectedNodes : x ∈ searchConnectedNodes connections selector fuel nodeName depth checked ↔
      ∃ path, path ≠ [] ∧ Walk (Follows connections selector) nodeName path x ∧ (nodeName :: path).Nodup ∧
        (∀ y ∈ nodeName :: path, y ∉ checked) ∧ path.length ≤ fuel ∧ Within depth path.length := by
  induction fuel generalizing nodeName depth checked with
  | zero =>
    simp only [searchConnectedNodes, not_mem_nil, false_iff]
    rintro ⟨path, nonempty, _, _, _, short, _⟩
    exact nonempty (length_eq_zero_iff.mp (Nat.le_zero.mp short))
  | succ fuel ih =>
    rw [searchConnectedNodes_eq]
    split
    · rename_i ended
      simp only [not_mem_nil, false_iff]
      rintro ⟨path, nonempty, _, _, outside, _, within⟩
      cases ended with
      | inl zero => exact nonempty (length_eq_zero_iff.mp (Nat.le_zero.mp (within 0 zero)))
      | inr seen => exact outside nodeName mem_cons_self seen
    · rename_i going
      rw [not_or] at going
      rw [mem_foldl_visitChild]
      simp only [not_mem_nil, false_or]
      constructor
      · rintro ⟨child, isChild, fresh, found⟩
        simp only [mem_append, mem_singleton, not_or] at fresh
        cases found with
        | inl same =>
          subst same
          refine ⟨[x], by simp, ⟨isChild, rfl⟩, by simpa using Ne.symm fresh.2, ?_, by simp, ?_⟩
          · simpa using ⟨going.2, fresh.1⟩
          · exact (within_pred going.1).mpr fun _ _ => Nat.zero_le _
        | inr below =>
          obtain ⟨path, nonempty, walk, distinct, outside, short, within⟩ := ih.mp below
          have apart : nodeName ∉ child :: path := fun member => outside nodeName member (by simp)
          refine ⟨child :: path, by simp, ⟨isChild, walk⟩, nodup_cons.mpr ⟨apart, distinct⟩, ?_,
            Nat.succ_le_succ short, (within_pred going.1).mpr within⟩
          refine forall_mem_cons.mpr ⟨going.2, fun y member seen => ?_⟩
          exact outside y member (mem_append_left _ seen)
      · rintro ⟨path, nonempty, walk, distinct, outside, short, within⟩
        cases path with
        | nil => exact absurd rfl nonempty
        | cons child path =>
          obtain ⟨apart, distinctRest⟩ := nodup_cons.mp distinct
          have fresh : ∀ y ∈ child :: path, y ∉ checked ++ [nodeName] := by
            intro y member seen
            rcases mem_append.mp seen with before | last
            · exact outside y (mem_cons_of_mem _ member) before
            · exact apart (mem_singleton.mp last ▸ member)
          refine ⟨child, walk.1, fresh child mem_cons_self, ?_⟩
          by_cases ends : path = []
          · subst ends
            exact .inl walk.2.symm
          · refine .inr (ih.mpr ⟨path, ends, walk.2, distinctRest, fresh, Nat.le_of_succ_le_succ short, ?_⟩)
            exact (within_pred going.1).mp within

/-- Nodes without connections end a walk, so one without repetitions is not longer than
there are entries off the way. -/
theorem length_le_entries {path : List String}
    (walk : Walk (Follows connections selector) node path x) (distinct : (node :: path).Nodup)
    (outside : ∀ y ∈ node :: path, y ∉ checked) :
    path.length ≤ ((connections.entries.map fst).filter (· ∉ checked)).length := by
  have starts : ∀ y ∈ (node :: path).dropLast, y ∈ (connections.entries.map fst).filter (· ∉ checked) := by
    clear distinct
    induction path generalizing node with
    | nil => simp
    | cons next path ih =>
      have here : node ∈ connections.entries.map fst := by
        by_contra absent
        have none := connections.get_eq_none_iff.mpr absent
        have step : next ∈ connectedTo connections selector node := walk.1
        simp [connectedTo, none] at step
      rw [forall_mem_cons] at outside
      rw [dropLast_cons_of_ne_nil (by simp)]
      exact forall_mem_cons.mpr ⟨mem_filter.mpr ⟨here, by simpa using outside.1⟩, ih walk.2 outside.2⟩
  have distinctStarts := distinct.sublist (dropLast_sublist (node :: path))
  have bound := (subperm_of_subset distinctStarts starts).length_le
  simpa using bound

theorem mem_getConnectedNodes : x ∈ getConnectedNodes connections nodeName selector depth ↔
      x ≠ nodeName ∧ ∃ path, path ≠ [] ∧ Walk (Follows connections selector) nodeName path x ∧
        Within depth path.length := by
  rw [getConnectedNodes, mem_searchConnectedNodes]
  constructor
  · rintro ⟨path, nonempty, walk, distinct, _, _, within⟩
    refine ⟨?_, path, nonempty, walk, within⟩
    rintro rfl
    exact (nodup_cons.mp distinct).1 (walk.last_mem nonempty)
  · rintro ⟨different, path, _, walk, within⟩
    obtain ⟨short, walkShort, distinct, sublist⟩ := walk.exists_simple
    have nonempty : short ≠ [] := by
      rintro rfl
      exact different (show nodeName = x from walkShort).symm
    have bound := length_le_entries walkShort distinct (fun y _ => not_mem_nil)
    refine ⟨short, nonempty, walkShort, distinct, by simp, ?_, fun limit isLimit => ?_⟩
    · have all := length_filter_le (fun y => decide (y ∉ ([] : List String))) (connections.entries.map fst)
      rw [length_map] at all
      omega
    · exact Nat.le_trans sublist.length_le (within limit isLimit)

/-! ## The order -/

def Acyclic (connections : IConnections) (selector : ConnectionSelector) : Prop :=
  ∀ node, ¬TransGen (Follows connections selector) node node

theorem mem_searchConnectedNodes_of_acyclic (acyclic : Acyclic connections selector)
    (behind : ∀ y ∈ checked, TransGen (Follows connections selector) y nodeName)
    (enough : ((connections.entries.map fst).filter (· ∉ checked)).length ≤ fuel) :
    x ∈ searchConnectedNodes connections selector fuel nodeName none checked ↔
      TransGen (Follows connections selector) nodeName x := by
  rw [mem_searchConnectedNodes]
  constructor
  · rintro ⟨path, nonempty, walk, _⟩
    exact walk.transGen nonempty
  · intro reaches
    obtain ⟨path, _, walk⟩ := Walk.of_transGen reaches
    obtain ⟨short, walkShort, distinct, _⟩ := walk.exists_simple
    have nonempty : short ≠ [] := by
      rintro rfl
      obtain rfl : nodeName = x := walkShort
      exact acyclic nodeName reaches
    have outside : ∀ y ∈ nodeName :: short, y ∉ checked := by
      intro y member seen
      refine acyclic y ((behind y seen).trans_left ?_)
      rcases mem_cons.mp member with rfl | later
      · exact .refl
      · obtain ⟨before, after, rfl⟩ := append_of_mem later
        exact walkShort.split.1.reaches
    exact ⟨short, nonempty, walkShort, distinct, outside,
      Nat.le_trans (length_le_entries walkShort distinct outside) enough, by simp [Within]⟩

def Ordered (connections : IConnections) (selector : ConnectionSelector) (nodes : List String) : Prop :=
  nodes.Pairwise fun earlier later => ¬TransGen (Follows connections selector) earlier later

theorem visitChild_ordered (distinct : returnNodes.Nodup) (ordered : Ordered connections selector returnNodes)
    (found : (search child).Nodup) (foundOrdered : Ordered connections selector (search child))
    (exact_ : ∀ x, x ∈ search child ↔ TransGen (Follows connections selector) child x) :
    Ordered connections selector (visitChild search checked returnNodes child) := by
  rw [visitChild]
  split
  · exact ordered
  · have front : (moveToFront returnNodes child).Nodup :=
      nodup_cons.mpr ⟨distinct.not_mem_erase, distinct.erase child⟩
    rw [foldr_moveToFront found front, Ordered, pairwise_append]
    refine ⟨foundOrdered, pairwise_filter.mpr (pairwise_cons.mpr ⟨?_, ?_⟩), ?_⟩
    · intro later _ _ missing reaches
      simp only [decide_eq_true_eq] at missing
      exact missing ((exact_ later).mpr reaches)
    · exact (List.Pairwise.sublist erase_sublist ordered).imp fun apart _ _ => apart
    · intro earlier inside later member reaches
      have missing : later ∉ search child := by simpa using (mem_filter.mp member).2
      exact missing ((exact_ later).mpr (((exact_ earlier).mp inside).trans reaches))

theorem fewer_entries (follows : Follows connections selector nodeName child) (fresh : nodeName ∉ checked) :
    ((connections.entries.map fst).filter (· ∉ checked ++ [nodeName])).length <
      ((connections.entries.map fst).filter (· ∉ checked)).length := by
  have isKey : nodeName ∈ connections.entries.map fst := by
    by_contra absent
    have none := connections.get_eq_none_iff.mpr absent
    have step : child ∈ connectedTo connections selector nodeName := follows
    simp [connectedTo, none] at step
  exact length_unmet_lt isKey fresh

theorem reaches_child (behind : ∀ y ∈ checked, TransGen (Follows connections selector) y nodeName)
    (follows : Follows connections selector nodeName child) :
    ∀ y ∈ checked ++ [nodeName], TransGen (Follows connections selector) y child := by
  intro y member
  rcases mem_append.mp member with before | last
  · exact (behind y before).tail follows
  · exact mem_singleton.mp last ▸ .single follows

theorem searchConnectedNodes_ordered (acyclic : Acyclic connections selector)
    (behind : ∀ y ∈ checked, TransGen (Follows connections selector) y nodeName)
    (enough : ((connections.entries.map fst).filter (· ∉ checked)).length ≤ fuel) :
    Ordered connections selector (searchConnectedNodes connections selector fuel nodeName none checked) := by
  induction fuel generalizing nodeName checked with
  | zero => exact List.Pairwise.nil
  | succ fuel ih =>
    rw [searchConnectedNodes_eq]
    split
    · exact List.Pairwise.nil
    · rename_i going
      rw [not_or] at going
      have each : ∀ children : List String, (∀ child ∈ children, Follows connections selector nodeName child) →
          ∀ returnNodes : List String, returnNodes.Nodup → Ordered connections selector returnNodes →
            Ordered connections selector (children.foldl (visitChild (fun child =>
              searchConnectedNodes connections selector fuel child (Option.map (· - 1) none)
                (checked ++ [nodeName])) (checked ++ [nodeName])) returnNodes) := by
        intro children
        induction children with
        | nil => exact fun _ _ _ ordered => ordered
        | cons child children inner =>
          intro follows returnNodes distinct ordered
          rw [forall_mem_cons] at follows
          have fewer := fewer_entries follows.1 going.2
          have behindChild := reaches_child behind follows.1
          have found : (searchConnectedNodes connections selector fuel child none (checked ++ [nodeName])).Nodup :=
            searchConnectedNodes_nodup _ _ _ _
          refine inner follows.2 _ (visitChild_nodup distinct found) ?_
          refine visitChild_ordered distinct ordered found (ih behindChild (by omega)) fun x => ?_
          exact mem_searchConnectedNodes_of_acyclic acyclic behindChild (by omega)
      exact each _ (fun _ member => member) [] nodup_nil List.Pairwise.nil

/-- The result of the search has exactly the nodes, apart from the start, that are reached
in at least one step and no more than the depth allows, each of them once; and without a
depth and without cycles a node stands behind all that it leads to. -/
theorem getConnectedNodes_exact (connections : IConnections) (nodeName : String)
    (selector : ConnectionSelector) (depth : Option ℕ) :
    let nodes := getConnectedNodes connections nodeName selector depth
    nodes.Nodup ∧ (∀ x, x ∈ nodes ↔ x ≠ nodeName ∧
        ∃ path, 1 ≤ path.length ∧ Walk (Follows connections selector) nodeName path x ∧ Within depth path.length) ∧
      (depth = none → Acyclic connections selector → ∀ x ∈ nodes, ∀ y ∈ nodes,
        TransGen (Follows connections selector) x y → nodes.idxOf y < nodes.idxOf x) := by
  refine ⟨searchConnectedNodes_nodup _ _ _ _, fun x => ?_, ?_⟩
  · simpa only [length_pos_iff, Nat.one_le_iff_ne_zero, ne_eq, length_eq_zero_iff] using mem_getConnectedNodes
  · rintro rfl acyclic x isX y isY reaches
    have ordered : Ordered connections selector (getConnectedNodes connections nodeName selector none) :=
      searchConnectedNodes_ordered acyclic (by simp) (by simp)
    have insideX := idxOf_lt_length_of_mem isX
    have insideY := idxOf_lt_length_of_mem isY
    have different : (getConnectedNodes connections nodeName selector none).idxOf x ≠
        (getConnectedNodes connections nodeName selector none).idxOf y := by
      intro same
      exact acyclic x (((idxOf_inj isX).mp same).symm ▸ reaches)
    by_contra notBefore
    have apart := pairwise_iff_getElem.mp ordered _ _ insideX insideY (by omega)
    rw [getElem_idxOf, getElem_idxOf] at apart
    exact apart reaches

end Search

end N8n
