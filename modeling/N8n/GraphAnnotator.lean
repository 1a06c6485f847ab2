import N8n.OrderedSet
import N8n.SemanticGraph
import N8n.Walk

/-! The annotation of a semantic graph. A depth-first search records the edges that lead back to an
ancestor, and what is reachable from two outputs of a node is a convergence point. Every edge that is
not recorded leads to a node that the search is done with earlier, or back to its own source. -/

namespace N8n.Codegen

open DepthFirst (Reaches)
open List OrderedMap

structure NodeAnnotations where
  isTrigger : Bool
  isCycleTarget : Bool := false
  isConvergencePoint : Bool := false

/-- What is written to a graph: annotations under the names of its nodes, and the cycle edges. -/
structure Annotated where
  annotations : OrderedMap String NodeAnnotations
  cycleEdges : OrderedMap String (List String) := .empty

structure Detection extends Annotated where
  visiting : List String := []
  visited : List String := []

section Annotate

variable (nodes : Nodes)

def unannotated : Annotated where
  annotations := nodes.mapValues fun node => { isTrigger := node.isTrigger }

def Annotated.annotate (written : Annotated) (name : String) (change : NodeAnnotations → NodeAnnotations) :
    Annotated :=
  match written.annotations.get name with
  | none => written
  | some old => { written with annotations := written.annotations.set name (change old) }

def recordCycleEdge (s : Detection) (nodeName target : String) : Detection :=
  let marked := s.annotate target fun a => { a with isCycleTarget := true }
  { s with
    annotations := marked.annotations
    cycleEdges := s.cycleEdges.set nodeName ((s.cycleEdges.get nodeName).getD [] ++ [target]) }

def vertices : List String := names nodes ++ (names nodes).flatMap (targets nodes)

def dfs : (fuel : ℕ) → (nodeName : String) → (ancestors : List String) → Detection → Detection
  | 0, _, _, s => s
  | fuel + 1, nodeName, ancestors, s =>
    if nodeName ∈ s.visited ∨ nodeName ∈ s.visiting then s
    else
      let done := (targets nodes nodeName).foldl (fun s target =>
        if target ∈ ancestors then recordCycleEdge s nodeName target
        else if target ∈ s.visited then s
        else dfs fuel target (nodeName :: ancestors) s) { s with visiting := nodeName :: s.visiting }
      { done with
        visiting := done.visiting.filter (· ≠ nodeName)
        visited := done.visited ++ [nodeName] }

def detectCycles (roots : List String) : Detection :=
  let fuel := (vertices nodes).length + 1
  let s := roots.foldl (fun s rootName => dfs nodes fuel rootName [] s) { unannotated nodes with }
  (names nodes).foldl (fun s nodeName => if nodeName ∈ s.visited then s else dfs nodes fuel nodeName [] s) s

def collectReachable : (fuel : ℕ) → (startName : String) → (visited : List String) → List String
  | 0, _, visited => visited
  | fuel + 1, startName, visited =>
    if startName ∈ visited then visited
    else (targets nodes startName).foldl (fun visited target => collectReachable fuel target visited)
      (visited ++ [startName])

def branchReachable (node : SemanticNode) : List (List String) :=
  (node.outputs.values.filter (· ≠ [])).map fun connections =>
    (connections.map SemanticConnection.target).foldl
      (fun reachable target => collectReachable nodes ((vertices nodes).length + 1) target reachable) []

def markConvergence (written : Annotated) (node : SemanticNode) : Annotated :=
  let branches := branchReachable nodes node
  if node.outputs.size ≤ 1 ∨ branches.length < 2 then written
  else (OrderedSet.ofList branches.flatten).elements.foldl (fun written nodeName =>
    if 2 ≤ (branches.filter (nodeName ∈ ·)).length then
      written.annotate nodeName fun a => { a with isConvergencePoint := true }
    else written) written

def findConvergenceNodes (written : Annotated) : Annotated := nodes.values.foldl (markConvergence nodes) written

/-- The graph has no annotations yet, as `buildSemanticGraph` leaves it. -/
def annotateGraph (graph : SemanticGraph) : Annotated :=
  findConvergenceNodes graph.nodes (detectCycles graph.nodes graph.roots).toAnnotated

end Annotate

namespace Annotated

variable (written : Annotated)

def Recorded (a b : String) : Prop := b ∈ (written.cycleEdges.get a).getD []

def Marked (flag : NodeAnnotations → Bool) (name : String) : Prop :=
  (written.annotations.get name).any flag = true

def Known (name : String) : Prop := (written.annotations.get name).isSome = true

end Annotated

/-! ## What is written -/

section Written

variable {written : Annotated} {name x : String} {change : NodeAnnotations → NodeAnnotations}
  {flag : NodeAnnotations → Bool} {sets : Bool}

theorem known_annotate : (written.annotate name change).Known x ↔ written.Known x := by
  unfold Annotated.annotate Annotated.Known
  split
  · rfl
  · rename_i old found
    rw [get_set]
    split_ifs with same
    · simp [same, found]
    · rfl

theorem marked_annotate (flags : ∀ a, flag (change a) = (flag a || sets)) :
    (written.annotate name change).Marked flag x ↔
      written.Marked flag x ∨ sets = true ∧ x = name ∧ written.Known x := by
  unfold Annotated.annotate Annotated.Marked Annotated.Known
  split
  · rename_i missing
    refine ⟨.inl, fun either => either.elim id fun ⟨_, same, known⟩ => ?_⟩
    rw [same, missing] at known
    cases known
  · rename_i old found
    rw [get_set]
    split_ifs with same
    · simp [same, found, flags]
    · simp [same]

theorem marked_foldl (flags : ∀ a, flag (change a) = (flag a || sets)) {p : String → Prop} [DecidablePred p]
    {xs : List String} :
    ((xs.foldl (fun w n => if p n then w.annotate n change else w) written).Marked flag x ↔
      written.Marked flag x ∨ sets = true ∧ (x ∈ xs ∧ p x) ∧ written.Known x) ∧
    ((xs.foldl (fun w n => if p n then w.annotate n change else w) written).Known x ↔ written.Known x) := by
  induction xs generalizing written with
  | nil => simp
  | cons n xs ih =>
    rw [foldl_cons]
    split_ifs with here
    · rw [ih.1, ih.2, known_annotate, marked_annotate flags, mem_cons]
      refine ⟨?_, Iff.rfl⟩
      constructor
      · rintro ((old | ⟨set, rfl, known⟩) | ⟨set, ⟨later, holds⟩, known⟩)
        · exact .inl old
        · exact .inr ⟨set, ⟨.inl rfl, here⟩, known⟩
        · exact .inr ⟨set, ⟨.inr later, holds⟩, known⟩
      · rintro (old | ⟨set, ⟨rfl | later, holds⟩, known⟩)
        · exact .inl (.inl old)
        · exact .inl (.inr ⟨set, rfl, known⟩)
        · exact .inr ⟨set, ⟨later, holds⟩, known⟩
    · rw [ih.1, ih.2, mem_cons]
      refine ⟨or_congr_right (and_congr_right fun _ => and_congr_left fun _ => and_congr_left fun holds => ?_), Iff.rfl⟩
      exact ⟨.inr, fun either => either.resolve_left fun same => here (same ▸ holds)⟩

end Written

/-! ## Cycles -/

section Cycles

variable {nodes : Nodes} {s t : Detection} {a b nodeName target : String} {ancestors : List String}

structure Searched (nodes : Nodes) (s : Detection) : Prop where
  finished : ∀ before a after, s.visited = before ++ a :: after → ∀ b ∈ targets nodes a,
    b = a ∨ b ∈ before ∨ s.Recorded a b
  onCycle : ∀ a b, s.Recorded a b → b ∈ targets nodes a ∧ Reaches (targets nodes) b a
  marked : ∀ a b, s.Recorded a b → s.Marked NodeAnnotations.isCycleTarget b
  known : ∀ name, name ∈ names nodes → s.Known name
  unmarked : ∀ name, ¬s.Marked NodeAnnotations.isConvergencePoint name

structure Goes (s t : Detection) : Prop where
  visiting : ∀ x, x ∈ t.visiting ↔ x ∈ s.visiting
  visited : s.visited ⊆ t.visited
  recorded : ∀ a b, s.Recorded a b → t.Recorded a b

theorem Goes.refl (s : Detection) : Goes s s := ⟨fun _ => Iff.rfl, fun _ => id, fun _ _ => id⟩

theorem Goes.trans {u : Detection} (one : Goes s t) (two : Goes t u) : Goes s u :=
  ⟨fun x => (two.visiting x).trans (one.visiting x), fun _ member => two.visited (one.visited member),
    fun a b recorded => two.recorded a b (one.recorded a b recorded)⟩

theorem recorded_recordCycleEdge :
    (recordCycleEdge s nodeName target).Recorded a b ↔ s.Recorded a b ∨ a = nodeName ∧ b = target := by
  simp only [recordCycleEdge, Annotated.Recorded, get_set]
  split_ifs with same
  · simp [same]
  · simp [same]

theorem Searched.recordCycleEdge (searched : Searched nodes s) (edge : target ∈ targets nodes nodeName)
    (back : Reaches (targets nodes) target nodeName) (there : target ∈ names nodes) :
    Searched nodes (recordCycleEdge s nodeName target) ∧ Goes s (recordCycleEdge s nodeName target) := by
  have flags : ∀ a : NodeAnnotations, ({ a with isCycleTarget := true } : NodeAnnotations).isCycleTarget =
      (a.isCycleTarget || true) := fun a => (Bool.or_true _).symm
  have others : ∀ a : NodeAnnotations, ({ a with isCycleTarget := true } : NodeAnnotations).isConvergencePoint =
      (a.isConvergencePoint || false) := fun a => (Bool.or_false _).symm
  refine ⟨⟨fun before a after split b edge => ?_, fun a b recorded => ?_, fun a b recorded => ?_, fun name member => ?_,
    fun name marked => ?_⟩, ⟨fun _ => Iff.rfl, fun _ => id,
      fun a b recorded => recorded_recordCycleEdge.mpr (.inl recorded)⟩⟩
  · exact (searched.finished before a after split b edge).imp id
      (.imp id fun recorded => recorded_recordCycleEdge.mpr (.inl recorded))
  · rcases recorded_recordCycleEdge.mp recorded with old | ⟨rfl, rfl⟩
    · exact searched.onCycle a b old
    · exact ⟨edge, back⟩
  · refine (marked_annotate flags).mpr ?_
    rcases recorded_recordCycleEdge.mp recorded with old | ⟨_, rfl⟩
    · exact .inl (searched.marked a b old)
    · exact .inr ⟨rfl, rfl, searched.known b there⟩
  · exact known_annotate.mpr (searched.known name member)
  · rcases (marked_annotate others).mp marked with old | ⟨no, _⟩
    · exact searched.unmarked name old
    · cases no

theorem mem_names_of_target (edge : target ∈ targets nodes nodeName) : nodeName ∈ names nodes := by
  by_contra missing
  simp [targets, nodes.get_eq_none_iff.mpr missing] at edge

theorem Searched.leave (searched : Searched nodes s)
    (done : ∀ b ∈ targets nodes nodeName, b = nodeName ∨ b ∈ s.visited ∨ s.Recorded nodeName b) (visiting : List String) :
    Searched nodes { s with visiting, visited := s.visited ++ [nodeName] } where
  finished before a after split := by
    rcases eq_nil_or_concat' after with rfl | ⟨after, last, rfl⟩
    · obtain ⟨rfl, same⟩ := append_inj' split rfl
      obtain rfl := (List.cons.inj same).1
      exact done
    · rw [← cons_append, ← append_assoc] at split
      exact searched.finished before a after (append_inj' split rfl).1
  onCycle := searched.onCycle
  marked := searched.marked
  known := searched.known
  unmarked := searched.unmarked

theorem dfs_searched {fuel : ℕ} (searched : Searched nodes s) (onPath : ∀ x, x ∈ s.visiting ↔ x ∈ ancestors)
    (above : ∀ a ∈ ancestors, a ∈ names nodes ∧ Reaches (targets nodes) a nodeName)
    (enough : ((vertices nodes).filter (· ∉ ancestors)).length < fuel) :
    Searched nodes (dfs nodes fuel nodeName ancestors s) ∧ Goes s (dfs nodes fuel nodeName ancestors s) ∧
      (nodeName ∈ ancestors ∨ nodeName ∈ (dfs nodes fuel nodeName ancestors s).visited) := by
  induction fuel generalizing nodeName ancestors s with
  | zero => exact absurd enough (Nat.not_lt_zero _)
  | succ fuel ih =>
    rw [dfs]
    split_ifs with known
    · exact ⟨searched, .refl s, known.symm.imp (onPath nodeName).mp id⟩
    have fresh : nodeName ∉ ancestors := fun member => known (.inr ((onPath nodeName).mpr member))
    have each : ∀ left : List String, left ⊆ targets nodes nodeName → ∀ u : Detection, Searched nodes u →
        (∀ x, x ∈ u.visiting ↔ x ∈ nodeName :: ancestors) →
        ∃ done, left.foldl (fun s target => if target ∈ ancestors then Codegen.recordCycleEdge s nodeName target
          else if target ∈ s.visited then s else dfs nodes fuel target (nodeName :: ancestors) s) u = done ∧
          Searched nodes done ∧ Goes u done ∧
          ∀ b ∈ left, b = nodeName ∨ b ∈ done.visited ∨ done.Recorded nodeName b := by
      intro left
      induction left with
      | nil => exact fun _ u searched _ => ⟨u, rfl, searched, .refl u, by simp⟩
      | cons target left inner =>
        intro inside u searched onPath
        obtain ⟨edge, rest⟩ := cons_subset.mp inside
        have step : ∃ next, (if target ∈ ancestors then Codegen.recordCycleEdge u nodeName target
            else if target ∈ u.visited then u else dfs nodes fuel target (nodeName :: ancestors) u) = next ∧
            Searched nodes next ∧ Goes u next ∧
            (target = nodeName ∨ target ∈ next.visited ∨ next.Recorded nodeName target) := by
          refine ⟨_, rfl, ?_⟩
          split_ifs with ancestor visited
          · obtain ⟨there, back⟩ := above target ancestor
            obtain ⟨next, goes⟩ := searched.recordCycleEdge edge back there
            exact ⟨next, goes, .inr (.inr (recorded_recordCycleEdge.mpr (.inr ⟨rfl, rfl⟩)))⟩
          · exact ⟨searched, .refl u, .inr (.inl visited)⟩
          · have there := mem_names_of_target edge
            have inside : nodeName ∈ vertices nodes := mem_append_left _ there
            have fewer := length_unmet_lt inside fresh
            have same : (vertices nodes).filter (· ∉ nodeName :: ancestors) =
                (vertices nodes).filter (· ∉ ancestors ++ [nodeName]) :=
              filter_congr fun x _ => by simp [or_comm]
            obtain ⟨next, goes, met⟩ := ih searched onPath (forall_mem_cons.mpr
              ⟨⟨there, .single edge⟩, fun a member => ⟨(above a member).1, (above a member).2.tail edge⟩⟩)
              (by rw [same]; omega)
            exact ⟨next, goes, met.imp (fun member => (mem_cons.mp member).resolve_right ancestor) .inl⟩
        obtain ⟨next, stepped, searchedNext, goes, here⟩ := step
        obtain ⟨done, folded, searchedDone, later, all⟩ := inner rest next searchedNext
          fun x => (goes.visiting x).trans (onPath x)
        refine ⟨done, by rw [foldl_cons, stepped, folded], searchedDone, goes.trans later,
          forall_mem_cons.mpr ⟨here.imp id (.imp (fun member => later.visited member) (later.recorded _ _)), all⟩⟩
    obtain ⟨done, folded, searchedDone, goes, all⟩ := each _ (List.Subset.refl _)
      { s with visiting := nodeName :: s.visiting } { searched with }
      (fun x => by rw [mem_cons, mem_cons, onPath])
    simp only [folded]
    refine ⟨searchedDone.leave all _, ⟨fun x => ?_, fun x member => mem_append_left _ (goes.visited member),
      goes.recorded⟩, .inr (by simp)⟩
    have path := goes.visiting x
    simp only [mem_filter, path, mem_cons, decide_eq_true_eq]
    constructor
    · exact fun ⟨either, other⟩ => either.resolve_left other
    · exact fun member => ⟨.inr member, fun same => known (.inr (same ▸ member))⟩

theorem dfs_of_visited {fuel : ℕ} (visited : nodeName ∈ s.visited) : dfs nodes fuel nodeName ancestors s = s := by
  cases fuel with
  | zero => rfl
  | succ fuel => rw [dfs, if_pos (.inl visited)]

theorem foldl_dfs_searched {xs : List String} (searched : Searched nodes s) (idle : ∀ x, x ∉ s.visiting) :
    ∃ t, xs.foldl (fun s name => dfs nodes ((vertices nodes).length + 1) name [] s) s = t ∧
      Searched nodes t ∧ Goes s t ∧ ∀ name ∈ xs, name ∈ t.visited := by
  induction xs generalizing s with
  | nil => exact ⟨s, rfl, searched, .refl s, by simp⟩
  | cons name xs ih =>
    obtain ⟨next, goes, met⟩ := @dfs_searched nodes s name [] _ searched (by simpa using idle) (by simp)
      (Nat.lt_succ_of_le (length_filter_le _ _))
    obtain ⟨t, folded, searchedAll, later, all⟩ := ih next fun x => mt (goes.visiting x).mp (idle x)
    exact ⟨t, folded, searchedAll, goes.trans later, forall_mem_cons.mpr
      ⟨later.visited (met.resolve_left not_mem_nil), all⟩⟩

theorem detectCycles_searched (nodes : Nodes) (roots : List String) :
    Searched nodes (detectCycles nodes roots) ∧ ∀ name ∈ names nodes, name ∈ (detectCycles nodes roots).visited := by
  have unguarded : (fun (s : Detection) nodeName => if nodeName ∈ s.visited then s
      else dfs nodes ((vertices nodes).length + 1) nodeName [] s) =
      fun s nodeName => dfs nodes ((vertices nodes).length + 1) nodeName [] s := by
    funext s nodeName
    split_ifs with visited
    · exact (dfs_of_visited visited).symm
    · rfl
  have start : Searched nodes { unannotated nodes with } := by
    refine ⟨by simp, by simp [Annotated.Recorded, unannotated], by simp [Annotated.Recorded, unannotated],
      fun name member => ?_, fun name => ?_⟩
    swap
    · simp only [Annotated.Marked, unannotated, get_mapValues, Option.any_map]
      cases nodes.get name <;> simp
    rw [Annotated.Known, unannotated, get_mapValues, Option.isSome_map, Option.isSome_iff_ne_none]
    exact fun missing => nodes.get_eq_none_iff.mp missing member
  obtain ⟨t, folded, searched, _, all⟩ := @foldl_dfs_searched nodes _ (roots ++ names nodes) start (by simp)
  rw [foldl_append] at folded
  rw [detectCycles, unguarded]
  dsimp only
  rw [folded]
  exact ⟨searched, fun name member => all name (mem_append_right _ member)⟩

theorem Searched.exists_recorded (searched : Searched nodes s) (all : ∀ name ∈ names nodes, name ∈ s.visited)
    {path : List String} (walk : Walk (fun a b => b ∈ targets nodes a) a path a) (two : ∃ b ∈ path, b ≠ a) :
    ∃ u v, (u, v) ∈ (a :: path).zip path ∧ s.Recorded u v := by
  by_contra none
  push Not at none
  have falls : ∀ u v, (u, v) ∈ (a :: path).zip path → v ∈ targets nodes u →
      v = u ∨ s.visited.idxOf v < s.visited.idxOf u := by
    intro u v pair edge
    obtain ⟨before, after, split, new⟩ := eq_append_cons_of_mem (all u (mem_names_of_target edge))
    rcases searched.finished before u after split v edge with same | earlier | recorded
    · exact .inl same
    · rw [split, idxOf_append_of_mem earlier, idxOf_append_of_notMem new, idxOf_cons_self]
      exact .inr (idxOf_lt_length_of_mem earlier)
    · exact absurd recorded (none u v pair)
  obtain ⟨b, member, other⟩ := two
  obtain ⟨under, upTo⟩ := walk.rank falls b (mem_cons_of_mem _ member)
  have lower := under.resolve_left other
  have higher := upTo.resolve_left (Ne.symm other)
  omega

end Cycles

/-! ## Convergence -/

section Convergence

variable {nodes : Nodes} {name x : String} {starts before after visited : List String} {written : Annotated}

/-- What calls from some names add to the visited ones. -/
structure Collected (nodes : Nodes) (starts before after : List String) : Prop where
  grows : before ⊆ after
  taken : starts ⊆ after
  reached : ∀ x ∈ after, x ∈ before ∨ ∃ start ∈ starts, Reaches (targets nodes) start x
  closed : ∀ x ∈ after, x ∉ before → targets nodes x ⊆ after

theorem foldl_collected {call : String → List String → List String} {base : List String}
    (each : ∀ start ∈ starts, ∀ v, base ⊆ v → Collected nodes [start] v (call start v)) (from_ : base ⊆ before) :
    Collected nodes starts before (starts.foldl (fun v start => call start v) before) := by
  induction starts generalizing before with
  | nil => exact ⟨fun _ => id, nil_subset _, fun x member => .inl member, fun x member new => absurd member new⟩
  | cons start starts ih =>
    have first := each start mem_cons_self before from_
    have later := ih (fun s member => each s (mem_cons_of_mem _ member)) (List.Subset.trans from_ first.grows)
    rw [foldl_cons]
    refine ⟨List.Subset.trans first.grows later.grows,
      cons_subset.mpr ⟨later.grows (first.taken mem_cons_self), later.taken⟩, fun x member => ?_,
      fun x member new => ?_⟩
    · rcases later.reached x member with mid | ⟨s, listed, reaches⟩
      · rcases first.reached x mid with old | ⟨s, listed, reaches⟩
        · exact .inl old
        · obtain rfl := mem_singleton.mp listed
          exact .inr ⟨s, mem_cons_self, reaches⟩
      · exact .inr ⟨s, mem_cons_of_mem _ listed, reaches⟩
    · by_cases mid : x ∈ call start before
      · exact List.Subset.trans (first.closed x mid new) later.grows
      · exact later.closed x member mid

theorem collectReachable_collected {fuel : ℕ} (enough : ((vertices nodes).filter (· ∉ visited)).length < fuel) :
    Collected nodes [name] visited (collectReachable nodes fuel name visited) := by
  induction fuel generalizing name visited with
  | zero => exact absurd enough (Nat.not_lt_zero _)
  | succ fuel ih =>
    rw [collectReachable]
    split_ifs with known
    · exact ⟨fun _ => id, by simpa using known, fun x member => .inl member, fun x member new => absurd member new⟩
    have below : Collected nodes (targets nodes name) (visited ++ [name]) ((targets nodes name).foldl
        (fun visited target => collectReachable nodes fuel target visited) (visited ++ [name])) := by
      refine foldl_collected (fun target edge v wider => ih ?_) (List.Subset.refl (visited ++ [name]))
      have inside : name ∈ vertices nodes := mem_append_left _ (mem_names_of_target edge)
      have fewer := length_unmet_lt inside known
      have part : ((vertices nodes).filter (· ∉ v)).length ≤ ((vertices nodes).filter (· ∉ visited ++ [name])).length :=
        (monotone_filter_right _ fun b unmet => by
          simp only [decide_eq_true_eq] at unmet ⊢
          exact fun member => unmet (wider member)).length_le
      omega
    have here := below.grows (mem_append_right _ mem_cons_self)
    refine ⟨fun x old => below.grows (mem_append_left _ old), by simpa using here, fun x member => ?_,
      fun x member new => ?_⟩
    · rcases below.reached x member with old | ⟨target, edge, reaches⟩
      · rcases mem_append.mp old with old | same
        · exact .inl old
        · obtain rfl := mem_singleton.mp same
          exact .inr ⟨x, mem_cons_self, .refl⟩
      · exact .inr ⟨name, mem_cons_self, .head edge reaches⟩
    · by_cases same : x = name
      · exact same ▸ below.taken
      · exact below.closed x member (by simp [new, same])

def ReachedFrom (nodes : Nodes) (connections : List SemanticConnection) (name : String) : Prop :=
  ∃ c ∈ connections, Reaches (targets nodes) c.target name

/-- Two different outputs of a node, which are not empty, lead there. -/
def ReachedTwice (nodes : Nodes) (name : String) : Prop :=
  ∃ source node, nodes.get source = some node ∧ ∃ one two, one ∈ node.outputs.entries ∧ two ∈ node.outputs.entries ∧
    one.1 ≠ two.1 ∧ ReachedFrom nodes one.2 name ∧ ReachedFrom nodes two.2 name

theorem mem_collected (connections : List SemanticConnection) :
    name ∈ (connections.map SemanticConnection.target).foldl (fun reachable target =>
      collectReachable nodes ((vertices nodes).length + 1) target reachable) [] ↔ ReachedFrom nodes connections name := by
  have collected : Collected nodes (connections.map SemanticConnection.target) []
      ((connections.map SemanticConnection.target).foldl (fun reachable target =>
        collectReachable nodes ((vertices nodes).length + 1) target reachable) []) :=
    foldl_collected (fun start _ v _ => collectReachable_collected
      (Nat.lt_succ_of_le (length_filter_le _ _))) (List.Subset.refl [])
  constructor
  · intro member
    obtain ⟨start, listed, reaches⟩ := (collected.reached name member).resolve_left not_mem_nil
    obtain ⟨c, inside, rfl⟩ := List.mem_map.mp listed
    exact ⟨c, inside, reaches⟩
  · rintro ⟨c, inside, reaches⟩
    exact reaches.mem_of_closed (fun x member y edge => collected.closed x member not_mem_nil edge)
      (collected.taken (mem_map_of_mem inside))

theorem two_le_length_filter_iff {κ ν : Type} {entries : List (κ × ν)} (distinct : (entries.map Prod.fst).Nodup)
    (p : κ × ν → Bool) : 2 ≤ (entries.filter p).length ↔
      ∃ one two, one ∈ entries ∧ two ∈ entries ∧ one.1 ≠ two.1 ∧ p one = true ∧ p two = true := by
  constructor
  · intro two
    obtain ⟨one, other, rest, found⟩ : ∃ one other rest, entries.filter p = one :: other :: rest := by
      match entries.filter p, two with
      | one :: other :: rest, _ => exact ⟨one, other, rest, rfl⟩
    have apart := (distinct.sublist (filter_sublist.map Prod.fst) : ((entries.filter p).map Prod.fst).Nodup)
    have inside : ∀ e ∈ [one, other], e ∈ entries ∧ p e = true := fun e listed =>
      mem_filter.mp (found ▸ mem_append_left rest listed)
    rw [found] at apart
    have first := inside one mem_cons_self
    have second := inside other (by simp)
    exact ⟨one, other, first.1, second.1, by simp_all, first.2, second.2⟩
  · rintro ⟨one, other, first, second, apart, holdsFirst, holdsSecond⟩
    have pair : [one, other].Nodup := by
      simpa using fun same : one = other => apart (congrArg Prod.fst same)
    have part : [one, other] ⊆ entries.filter p := by
      simpa using ⟨⟨first, holdsFirst⟩, second, holdsSecond⟩
    exact (subperm_of_subset pair part).length_le

theorem length_branches (node : SemanticNode) : 2 ≤ ((branchReachable nodes node).filter (name ∈ ·)).length ↔
    ∃ one two, one ∈ node.outputs.entries ∧ two ∈ node.outputs.entries ∧ one.1 ≠ two.1 ∧
      ReachedFrom nodes one.2 name ∧ ReachedFrom nodes two.2 name := by
  have split : ((branchReachable nodes node).filter (name ∈ ·)).length =
      (node.outputs.entries.filter fun e => e.2 ≠ [] ∧ name ∈ (e.2.map SemanticConnection.target).foldl
        (fun reachable target => collectReachable nodes ((vertices nodes).length + 1) target reachable) []).length := by
    simp only [branchReachable, OrderedMap.values, filter_map, filter_filter, length_map]
    refine congrArg List.length (filter_congr fun e _ => ?_)
    simp [Bool.and_comm]
  rw [split, two_le_length_filter_iff node.outputs.nodup]
  refine exists_congr fun one => exists_congr fun two => and_congr_right fun _ => and_congr_right fun _ =>
    and_congr_right fun _ => ?_
  have leads : ∀ connections : List SemanticConnection, ReachedFrom nodes connections name → connections ≠ [] := by
    rintro _ ⟨c, listed, _⟩ rfl
    cases listed
  simp only [mem_collected, decide_eq_true_eq]
  exact and_congr (and_iff_right_of_imp (leads _)) (and_iff_right_of_imp (leads _))

theorem marked_markConvergence {node : SemanticNode} {flag : NodeAnnotations → Bool} {sets : Bool}
    (flags : ∀ a : NodeAnnotations, flag { a with isConvergencePoint := true } = (flag a || sets)) :
    ((markConvergence nodes written node).Marked flag name ↔ written.Marked flag name ∨ sets = true ∧
      2 ≤ ((branchReachable nodes node).filter (name ∈ ·)).length ∧ written.Known name) ∧
    ((markConvergence nodes written node).Known name ↔ written.Known name) := by
  have few : 2 ≤ ((branchReachable nodes node).filter (name ∈ ·)).length →
      ¬(node.outputs.size ≤ 1 ∨ (branchReachable nodes node).length < 2) := by
    intro two
    have one := length_filter_le (name ∈ ·) (branchReachable nodes node)
    have all : (branchReachable nodes node).length ≤ node.outputs.size := by
      simpa [branchReachable, OrderedMap.values, OrderedMap.size] using
        length_filter_le (· ≠ []) (node.outputs.entries.map Prod.snd)
    omega
  unfold markConvergence
  dsimp only
  split_ifs with skipped
  · exact ⟨⟨.inl, fun either => either.resolve_right fun both => few both.2.1 skipped⟩, Iff.rfl⟩
  · obtain ⟨marks, knows⟩ := @marked_foldl written name _ _ _ flags
      (fun n => 2 ≤ ((branchReachable nodes node).filter (n ∈ ·)).length) _
      (OrderedSet.ofList (branchReachable nodes node).flatten).elements
    refine ⟨marks.trans (or_congr_right (and_congr_right fun _ => and_congr_left fun _ => ⟨And.right, fun two =>
      ⟨?_, two⟩⟩)), knows⟩
    obtain ⟨branch, rest⟩ := exists_mem_of_length_pos (Nat.lt_of_lt_of_le Nat.zero_lt_two two)
    obtain ⟨listed, inside⟩ := mem_filter.mp rest
    exact OrderedSet.mem_def.mp (OrderedSet.mem_ofList.mpr
      (mem_flatten.mpr ⟨branch, listed, of_decide_eq_true inside⟩))

theorem marked_findConvergenceNodes {flag : NodeAnnotations → Bool} {sets : Bool}
    (flags : ∀ a : NodeAnnotations, flag { a with isConvergencePoint := true } = (flag a || sets)) :
    (findConvergenceNodes nodes written).Marked flag name ↔
      written.Marked flag name ∨ sets = true ∧ ReachedTwice nodes name ∧ written.Known name := by
  have each : ∀ (left : List SemanticNode) (w : Annotated),
      ((left.foldl (markConvergence nodes) w).Marked flag name ↔ w.Marked flag name ∨ sets = true ∧
        (∃ node ∈ left, 2 ≤ ((branchReachable nodes node).filter (name ∈ ·)).length) ∧ w.Known name) := by
    intro left
    induction left with
    | nil => simp
    | cons node left ih =>
      intro w
      obtain ⟨marks, knows⟩ := @marked_markConvergence nodes name w node _ _ flags
      rw [foldl_cons, ih, marks, knows, exists_mem_cons_iff]
      tauto
  rw [findConvergenceNodes, each]
  simp only [nodes.mem_values_iff, length_branches, ReachedTwice]
  refine or_congr_right (and_congr_right fun _ => and_congr_left fun _ => ?_)
  exact ⟨fun ⟨node, ⟨source, found⟩, rest⟩ => ⟨source, node, found, rest⟩,
    fun ⟨source, node, found, rest⟩ => ⟨node, ⟨source, found⟩, rest⟩⟩

end Convergence

theorem cycleEdges_findConvergenceNodes (nodes : Nodes) (written : Annotated) :
    (findConvergenceNodes nodes written).cycleEdges = written.cycleEdges := by
  refine List.foldlRecOn (motive := fun w : Annotated => w.cycleEdges = written.cycleEdges) nodes.values _ rfl
    fun w kept node _ => ?_
  unfold markConvergence
  dsimp only
  split_ifs
  · exact kept
  · refine List.foldlRecOn (motive := fun w : Annotated => w.cycleEdges = written.cycleEdges) _ _ kept
      fun v kept name _ => ?_
    split_ifs
    · unfold Annotated.annotate
      split <;> exact kept
    · exact kept

/-- Every cycle through two nodes has a recorded edge with a marked target, every recorded edge lies on a
cycle, and the convergence points are the nodes that two outputs of some node lead to. -/
theorem annotateGraph_spec (graph : SemanticGraph) :
    (∀ (a : String) (path : List String), Walk (fun a b => b ∈ targets graph.nodes a) a path a → (∃ b ∈ path, b ≠ a) →
      ∃ u v, (u, v) ∈ (a :: path).zip path ∧ (annotateGraph graph).Recorded u v ∧
        (annotateGraph graph).Marked NodeAnnotations.isCycleTarget v) ∧
    (∀ u v, (annotateGraph graph).Recorded u v → v ∈ targets graph.nodes u ∧ Reaches (targets graph.nodes) v u) ∧
    ∀ name, graph.nodes.has name = true →
      ((annotateGraph graph).Marked NodeAnnotations.isConvergencePoint name ↔ ReachedTwice graph.nodes name) := by
  obtain ⟨searched, all⟩ := detectCycles_searched graph.nodes graph.roots
  have same : ∀ u v, (annotateGraph graph).Recorded u v ↔ (detectCycles graph.nodes graph.roots).Recorded u v := by
    intro u v
    rw [Annotated.Recorded, annotateGraph, cycleEdges_findConvergenceNodes, Annotated.Recorded]
  refine ⟨fun a path walk two => ?_, fun u v recorded => searched.onCycle u v ((same u v).mp recorded),
    fun name there => ?_⟩
  · obtain ⟨u, v, pair, recorded⟩ := searched.exists_recorded all walk two
    refine ⟨u, v, pair, (same u v).mpr recorded, ?_⟩
    exact (marked_findConvergenceNodes fun a => (Bool.or_false _).symm).mpr (.inl (searched.marked u v recorded))
  · have known : (detectCycles graph.nodes graph.roots).Known name := by
      refine searched.known name (by_contra fun missing => ?_)
      simp [OrderedMap.has, graph.nodes.get_eq_none_iff.mpr missing] at there
    rw [annotateGraph, marked_findConvergenceNodes fun a => (Bool.or_true _).symm]
    exact ⟨fun either => (either.resolve_left (searched.unmarked name)).2.1, fun twice => .inr ⟨rfl, twice, known⟩⟩

end N8n.Codegen
