import Mathlib.Logic.Relation
import N8n.FilterDisabledNodes
import N8n.SubgraphNodes

/-! The search for a subgraph after the disabled nodes were removed, in terms of the graph before.
Trails of main connections between enabled nodes are contracted and expanded. A connection of
a removed node stays behind exactly where main connections lead through disabled nodes back to
a disabled node and on from it, and it fails an assertion when it leads to the destination. -/

namespace N8n.PartialExecution

open PartialExecution.DirectedGraph PartialExecution.GraphConnection Elimination List

def EnabledStep (graph : DirectedGraph) (a b : GraphNode) : Prop :=
  a.disabled = false ∧ b.disabled = false ∧ ((∃ o i, DisabledWalk graph a o b i) ∨
    ∃ c ∈ graph.getConnections, c.type ≠ .main ∧ c.fromNode = a ∧ c.toNode = b)

def EnabledPath (graph : DirectedGraph) : GraphNode → GraphNode → Prop := Relation.ReflTransGen (EnabledStep graph)

/-- No main connections that lead through disabled nodes back to a disabled node go on to the destination. -/
def Intact (graph : DirectedGraph) (destination : GraphNode) : Prop :=
  ∀ n o i, n.disabled = true → DisabledWalk graph n o n i →
    ∀ p v j, DisabledWalk graph n p v j → v.disabled = false → ¬EnabledPath graph v destination

def OnEnabledUtility (graph : DirectedGraph) (destination x : GraphNode) : Prop :=
  ∃ c ∈ graph.getConnections, c.type ≠ .main ∧ c.fromNode.disabled = false ∧ c.toNode.disabled = false ∧
    EnabledPath graph c.toNode destination ∧ (x = c.fromNode ∨ x = c.toNode)

/-- Main connections lead from the trigger to the destination, or else the trigger belongs to a
utility beside a loop that leads there. -/
def Reached (graph : DirectedGraph) (trigger destination : GraphNode) : Prop :=
  (∃ cs, MainTrail graph trigger cs destination) ∨
    (∃ n, n.disabled = false ∧ OnSideLoop graph trigger destination n) ∧ OnEnabledUtility graph destination trigger

section Filtered

variable {graph filtered : DirectedGraph} {a b x destination trigger : GraphNode} {o i : ℕ} {c : GraphConnection}
  {cs ds : List GraphConnection}

theorem expand_walk (walk : DisabledWalk graph a o b i) : ∃ ds, MainTrail graph a ds b ∧ ds ≠ [] ∧
    ∀ d ∈ ds, (d.fromNode = a ∨ d.fromNode.disabled = true) ∧ (d.toNode = b ∨ d.toNode.disabled = true) := by
  have through : Through (MainConnection graph) (fun node => node.disabled = true) a o b i := walk
  induction through with
  | @edge v i only =>
    exact ⟨[⟨a, v, .main, o, i⟩], ⟨⟨rfl, rfl⟩, forall_mem_singleton.mpr ⟨only, rfl⟩⟩, by simp, by simp⟩
  | @step n j p v i before disabled last ih =>
    obtain ⟨ds, trail, _, places⟩ := ih before
    have only : MainTrail graph n [⟨n, v, .main, p, i⟩] v := ⟨⟨rfl, rfl⟩, forall_mem_singleton.mpr ⟨last, rfl⟩⟩
    refine ⟨ds ++ [⟨n, v, .main, p, i⟩], trail.append only, by simp, forall_mem_append.mpr ⟨fun d member => ?_, ?_⟩⟩
    · obtain ⟨leaves, enters⟩ := places d member
      exact ⟨leaves, .inr (enters.elim (fun same => same ▸ disabled) id)⟩
    · exact forall_mem_singleton.mpr ⟨.inr disabled, .inl rfl⟩

namespace Removed

theorem stores_iff (removed : Removed graph graph.getNodes filtered) :
    filtered.Stores x ↔ graph.Stores x ∧ x.disabled = false := by
  rw [removed.stores]
  constructor
  · rintro ⟨stored, apart⟩
    refine ⟨stored, Bool.eq_false_iff.mpr fun disabled => ?_⟩
    exact apart x (mem_getNodes.mpr stored) disabled rfl
  · rintro ⟨stored, enabled⟩
    refine ⟨stored, fun n member disabled same => ?_⟩
    obtain rfl := stored.eq_of_name (mem_getNodes.mp member) same
    exact Bool.false_ne_true (enabled.symm.trans disabled)

section

variable (removed : Removed graph graph.getNodes filtered) (closed : graph.Closed)
include removed closed

theorem main_iff (enabledA : a.disabled = false) (enabledB : b.disabled = false) :
    MainConnection filtered a o b i ↔ DisabledWalk graph a o b i := by
  have stays : ∀ x : GraphNode, x.disabled = false → x ∉ graph.getNodes.filter (·.disabled) := fun x enabled => by
    simp [enabled]
  rw [removed.main, eliminateAll_iff ((getNodes_nodup graph).filter _) (stays a enabledA) (stays b enabledB),
    disabledWalk_iff closed]

theorem other_iff (other : c.type ≠ .main) : c ∈ filtered.getConnections ↔
      c ∈ graph.getConnections ∧ c.fromNode.disabled = false ∧ c.toNode.disabled = false := by
  rw [removed.other c other]
  refine and_congr_right fun member => ⟨fun apart => ⟨?_, ?_⟩, fun enabled n _ disabled => ⟨?_, ?_⟩⟩
  · refine Bool.eq_false_iff.mpr fun disabled => ?_
    exact (apart _ (mem_getNodes.mpr (closed c member).1) disabled).2 rfl
  · refine Bool.eq_false_iff.mpr fun disabled => ?_
    exact (apart _ (mem_getNodes.mpr (closed c member).2) disabled).1 rfl
  · rintro rfl
    exact Bool.false_ne_true (enabled.2.symm.trans disabled)
  · rintro rfl
    exact Bool.false_ne_true (enabled.1.symm.trans disabled)

theorem step_iff (enabledA : a.disabled = false) (enabledB : b.disabled = false) :
    (∃ c ∈ filtered.getConnections, c.fromNode = a ∧ c.toNode = b) ↔ EnabledStep graph a b := by
  constructor
  · rintro ⟨c, member, rfl, rfl⟩
    refine ⟨enabledA, enabledB, ?_⟩
    by_cases isMain : c.type = .main
    · refine .inl ⟨c.outputIndex, c.inputIndex, (removed.main_iff closed enabledA enabledB).mp ?_⟩
      rw [MainConnection, ← isMain]
      exact member
    · exact .inr ⟨c, ((removed.other_iff closed isMain).mp member).1, isMain, rfl, rfl⟩
  · rintro ⟨_, _, ⟨o, i, walk⟩ | ⟨c, member, other, rfl, rfl⟩⟩
    · exact ⟨_, (removed.main_iff closed enabledA enabledB).mpr walk, rfl, rfl⟩
    · exact ⟨c, (removed.other_iff closed other).mpr ⟨member, enabledA, enabledB⟩, rfl, rfl⟩

theorem trail_of_path (path : EnabledPath graph a b) : ∃ cs, ConnectionTrail filtered a cs b := by
  induction path using Relation.ReflTransGen.head_induction_on with
  | refl => exact ⟨[], .nil filtered b⟩
  | head step _ ih =>
    obtain ⟨cs, trail⟩ := ih
    obtain ⟨c, member, rfl, rfl⟩ := (removed.step_iff closed step.1 step.2.1).mpr step
    exact ⟨c :: cs, .cons member trail⟩

theorem path_of_trail (above : StoresAbove filtered b) (trail : ConnectionTrail filtered a cs b) :
    EnabledPath graph a b := by
  induction cs generalizing a with
  | nil => exact (show a = b from trail.1) ▸ .refl
  | cons c cs ih =>
    obtain rfl : c.fromNode = a := trail.1.1
    have next := forall_mem_cons.mp trail.2
    have rest : ConnectionTrail filtered c.toNode cs b := ⟨trail.1.2, next.2⟩
    have enabledA := (removed.stores_iff.mp (above _ _ trail)).2
    have enabledB := (removed.stores_iff.mp (above _ _ rest)).2
    exact .head ((removed.step_iff closed enabledA enabledB).mp ⟨c, next.1, rfl, rfl⟩) (ih rest)

theorem storesAbove_iff (stored : filtered.Stores destination) :
    StoresAbove filtered destination ↔ Intact graph destination := by
  have distinct := (getNodes_nodup graph).filter (·.disabled)
  constructor
  · intro above n o i disabled back p v j on enabled path
    obtain ⟨_, _, leaves⟩ := back.first
    have inside : n ∈ graph.getNodes.filter (·.disabled) :=
      mem_filter.mpr ⟨mem_getNodes.mpr (closed _ leaves).1, disabled⟩
    obtain ⟨u, member, q, edge⟩ := exists_left distinct inside (by simp [enabled])
      ((disabledWalk_iff closed).mp back) ((disabledWalk_iff closed).mp on)
    rw [← removed.main] at edge
    obtain ⟨ds, trail⟩ := removed.trail_of_path closed path
    have storedU : filtered.Stores u := above _ _ (ConnectionTrail.cons edge trail)
    exact Bool.false_ne_true ((removed.stores_iff.mp storedU).2.symm.trans (mem_filter.mp member).2)
  · intro intact cs x trail
    have both : filtered.Stores x ∧ EnabledPath graph x destination := by
      induction cs generalizing x with
      | nil =>
        obtain rfl : x = destination := trail.1
        exact ⟨stored, .refl⟩
      | cons c cs ih =>
        obtain rfl : c.fromNode = x := trail.1.1
        have next := forall_mem_cons.mp trail.2
        obtain ⟨storedTo, path⟩ := ih c.toNode ⟨trail.1.2, next.2⟩
        have enabledTo := (removed.stores_iff.mp storedTo).2
        have storedFrom : filtered.Stores c.fromNode := by
          rw [removed.stores_iff]
          by_cases isMain : c.type = .main
          · have edge : MainConnection filtered c.fromNode c.outputIndex c.toNode c.inputIndex := by
              rw [MainConnection, ← isMain]
              exact next.1
            rw [removed.main] at edge
            have toStays : c.toNode ∉ graph.getNodes.filter (·.disabled) := by simp [enabledTo]
            by_cases inside : c.fromNode ∈ graph.getNodes.filter (·.disabled)
            · obtain ⟨⟨q, j, back⟩, p, on⟩ := walks_of_left distinct inside toStays edge
              exact absurd path (intact _ q j (mem_filter.mp inside).2 ((disabledWalk_iff closed).mpr back)
                p _ _ ((disabledWalk_iff closed).mpr on) enabledTo)
            · have walk := (eliminateAll_iff distinct inside toStays).mp edge
              obtain ⟨_, _, leaves⟩ := walk.first
              have storedFrom := (closed _ leaves).1
              refine ⟨storedFrom, Bool.eq_false_iff.mpr fun disabled => ?_⟩
              exact inside (mem_filter.mpr ⟨mem_getNodes.mpr storedFrom, disabled⟩)
          · obtain ⟨member, enabledFrom, _⟩ := (removed.other_iff closed isMain).mp next.1
            exact ⟨(closed c member).1, enabledFrom⟩
        have enabledFrom := (removed.stores_iff.mp storedFrom).2
        exact ⟨storedFrom, .head ((removed.step_iff closed enabledFrom enabledTo).mp ⟨c, next.1, rfl, rfl⟩) path⟩
    exact both.1

end

/-! ## Trails -/

section

variable (removed : Removed graph graph.getNodes filtered)
include removed

theorem enabled_of_above (above : StoresAbove filtered b)
    (trail : ConnectionTrail filtered a cs b) : ∀ c ∈ cs, c.fromNode.disabled = false ∧ c.toNode.disabled = false := by
  intro c member
  obtain ⟨pre, post, rfl⟩ := append_of_mem member
  obtain ⟨m, _, after⟩ := Trail.append_iff.mp trail.1
  have next := forall_mem_cons.mp (forall_mem_append.mp trail.2).2
  have rest : ConnectionTrail filtered c.toNode post b := ⟨after.2, next.2⟩
  exact ⟨(removed.stores_iff.mp (above _ _ (.cons next.1 rest))).2, (removed.stores_iff.mp (above _ _ rest)).2⟩

theorem expand (closed : graph.Closed)
    (enabled : ∀ c ∈ cs, c.fromNode.disabled = false ∧ c.toNode.disabled = false) (trail : MainTrail filtered a cs b) :
    ∃ ds, MainTrail graph a ds b ∧ (cs ≠ [] → ds ≠ []) ∧
      ∀ d ∈ ds, (d.fromNode.disabled = true ∨ ∃ c ∈ cs, c.fromNode = d.fromNode) ∧
        (d.toNode.disabled = true ∨ ∃ c ∈ cs, c.toNode = d.toNode) := by
  induction cs generalizing a with
  | nil => exact ⟨[], ⟨trail.1, by simp⟩, fun some => some, by simp⟩
  | cons c cs ih =>
    obtain rfl : c.fromNode = a := trail.1.1
    have main := forall_mem_cons.mp trail.2
    have ends := forall_mem_cons.mp enabled
    obtain ⟨ds, rest, _, places⟩ := ih ends.2 ⟨trail.1.2, main.2⟩
    have edge : MainConnection filtered c.fromNode c.outputIndex c.toNode c.inputIndex := by
      rw [MainConnection, ← main.1.2]
      exact main.1.1
    obtain ⟨walk, whole, some, between⟩ := expand_walk ((removed.main_iff closed ends.1.1 ends.1.2).mp edge)
    refine ⟨walk ++ ds, whole.append rest, fun _ => by simp [some], forall_mem_append.mpr ⟨?_, ?_⟩⟩
    · intro d member
      obtain ⟨leaves, enters⟩ := between d member
      exact ⟨leaves.symm.imp_right fun same => exists_mem_cons_of _ same.symm,
        enters.symm.imp_right fun same => exists_mem_cons_of _ same.symm⟩
    · intro d member
      obtain ⟨leaves, enters⟩ := places d member
      exact ⟨leaves.imp_right exists_mem_cons_of_exists,
        enters.imp_right exists_mem_cons_of_exists⟩

theorem contract_walk (closed : graph.Closed)
    (enabledA : a.disabled = false) (enabledB : b.disabled = false) (walk : DisabledWalk graph a o x i)
    (rest : MainTrail graph x ds b) :
    ∃ cs, MainTrail filtered a cs b ∧ cs ≠ [] ∧ ∀ c ∈ cs, (c.fromNode = a ∨ ∃ d ∈ ds, d.fromNode = c.fromNode) ∧
        (c.toNode = x ∨ ∃ d ∈ ds, d.toNode = c.toNode) := by
  induction ds generalizing a x o i with
  | nil =>
    obtain rfl : x = b := rest.1
    have edge := (removed.main_iff closed enabledA enabledB).mpr walk
    exact ⟨[⟨a, x, .main, o, i⟩], ⟨⟨rfl, rfl⟩, forall_mem_singleton.mpr ⟨edge, rfl⟩⟩, by simp, by simp⟩
  | cons d ds ih =>
    obtain rfl : d.fromNode = x := rest.1.1
    have main := forall_mem_cons.mp rest.2
    have edge : MainConnection graph d.fromNode d.outputIndex d.toNode d.inputIndex := by
      rw [MainConnection, ← main.1.2]
      exact main.1.1
    have tail : MainTrail graph d.toNode ds b := ⟨rest.1.2, main.2⟩
    cases here : d.fromNode.disabled with
    | true =>
      obtain ⟨cs, trail, some, places⟩ := ih enabledA (Through.step walk here edge) tail
      refine ⟨cs, trail, some, fun c member => ?_⟩
      obtain ⟨leaves, enters⟩ := places c member
      exact ⟨leaves.imp_right exists_mem_cons_of_exists,
        .inr (enters.elim (fun same => exists_mem_cons_of _ same.symm) exists_mem_cons_of_exists)⟩
    | false =>
      obtain ⟨cs, trail, _, places⟩ := ih here (Through.edge edge) tail
      have first := (removed.main_iff closed enabledA here).mpr walk
      refine ⟨⟨a, d.fromNode, .main, o, i⟩ :: cs, ⟨⟨rfl, trail.1⟩, forall_mem_cons.mpr ⟨⟨first, rfl⟩, trail.2⟩⟩,
        by simp, forall_mem_cons.mpr ⟨⟨.inl rfl, .inl rfl⟩, fun c member => ?_⟩⟩
      obtain ⟨leaves, enters⟩ := places c member
      exact ⟨.inr (leaves.elim (fun same => exists_mem_cons_of _ same.symm) exists_mem_cons_of_exists),
        .inr (enters.elim (fun same => exists_mem_cons_of _ same.symm) exists_mem_cons_of_exists)⟩

theorem contract (closed : graph.Closed)
    (enabledA : a.disabled = false) (enabledB : b.disabled = false) (trail : MainTrail graph a ds b) :
    ∃ cs, MainTrail filtered a cs b ∧ (ds ≠ [] → cs ≠ []) ∧
      ∀ c ∈ cs, (∃ d ∈ ds, d.fromNode = c.fromNode) ∧ ∃ d ∈ ds, d.toNode = c.toNode := by
  cases ds with
  | nil => exact ⟨[], ⟨trail.1, by simp⟩, fun some => some, by simp⟩
  | cons d ds =>
    obtain rfl : d.fromNode = a := trail.1.1
    have main := forall_mem_cons.mp trail.2
    have edge : MainConnection graph d.fromNode d.outputIndex d.toNode d.inputIndex := by
      rw [MainConnection, ← main.1.2]
      exact main.1.1
    obtain ⟨cs, whole, some, places⟩ := removed.contract_walk closed enabledA enabledB (.edge edge) ⟨trail.1.2, main.2⟩
    refine ⟨cs, whole, fun _ => some, fun c member => ?_⟩
    obtain ⟨leaves, enters⟩ := places c member
    exact ⟨leaves.elim (fun same => exists_mem_cons_of _ same.symm) exists_mem_cons_of_exists,
      enters.elim (fun same => exists_mem_cons_of _ same.symm) exists_mem_cons_of_exists⟩

end

section Between

variable (removed : Removed graph graph.getNodes filtered) (closed : graph.Closed)
  (enabledTrigger : trigger.disabled = false) (enabledDestination : destination.disabled = false)

include removed closed enabledTrigger enabledDestination

theorem expand_between (above : StoresAbove filtered b) (between : Between filtered trigger destination a cs b) :
    ∃ ds, (cs ≠ [] → ds ≠ []) ∧ Between graph trigger destination a ds b := by
  obtain ⟨ds, trail, some, places⟩ := removed.expand closed
    (removed.enabled_of_above above between.trail.connections) between.trail
  refine ⟨ds, some, trail, fun d member same => ?_, fun d member same => ?_⟩
  · rcases (places d member).2 with disabled | ⟨c, inside, ends⟩
    · exact Bool.false_ne_true (enabledTrigger.symm.trans (same ▸ disabled))
    · exact between.notToTrigger c inside (ends.trans same)
  · rcases (places d member).1 with disabled | ⟨c, inside, ends⟩
    · exact Bool.false_ne_true (enabledDestination.symm.trans (same ▸ disabled))
    · exact between.notFromDestination c inside (ends.trans same)

omit enabledTrigger enabledDestination in
theorem contract_between (enabledA : a.disabled = false) (enabledB : b.disabled = false)
    (between : Between graph trigger destination a ds b) :
    ∃ cs, (ds ≠ [] → cs ≠ []) ∧ Between filtered trigger destination a cs b := by
  obtain ⟨cs, trail, some, places⟩ := removed.contract closed enabledA enabledB between.trail
  refine ⟨cs, some, trail, fun c member same => ?_, fun c member same => ?_⟩
  · obtain ⟨_, d, inside, ends⟩ := places c member
    exact between.notToTrigger d inside (ends.trans same)
  · obtain ⟨⟨d, inside, ends⟩, _⟩ := places c member
    exact between.notFromDestination d inside (ends.trans same)

theorem triggerKept_iff (above : StoresAbove filtered destination) :
    TriggerKept filtered trigger destination ↔ Reached graph trigger destination := by
  have direct : (∃ cs, MainTrail filtered trigger cs destination) ↔ ∃ cs, MainTrail graph trigger cs destination := by
    constructor
    · rintro ⟨cs, trail⟩
      obtain ⟨ds, whole, _⟩ := removed.expand closed (removed.enabled_of_above above trail.connections) trail
      exact ⟨ds, whole⟩
    · rintro ⟨ds, trail⟩
      obtain ⟨cs, whole, _⟩ := removed.contract closed enabledTrigger enabledDestination trail
      exact ⟨cs, whole⟩
  have loops : (∃ n, OnSideLoop filtered trigger destination n) ↔
      ∃ n, n.disabled = false ∧ OnSideLoop graph trigger destination n := by
    constructor
    · rintro ⟨n, loop, path, some, around, leads⟩
      have aboveN : StoresAbove filtered n := fun cs y trail =>
        above (cs ++ path) y (trail.append leads.trail.connections)
      obtain ⟨loop, someG, aroundG⟩ := removed.expand_between closed enabledTrigger enabledDestination aboveN around
      obtain ⟨path, _, leadsG⟩ := removed.expand_between closed enabledTrigger enabledDestination above leads
      exact ⟨n, (removed.stores_iff.mp (aboveN [] n (.nil filtered n))).2, loop, path, someG some, aroundG, leadsG⟩
    · rintro ⟨n, enabledN, loop, path, some, around, leads⟩
      obtain ⟨loop, someF, aroundF⟩ := removed.contract_between closed enabledN enabledN around
      obtain ⟨path, _, leadsF⟩ := removed.contract_between closed enabledN enabledDestination leads
      exact ⟨n, loop, path, someF some, aroundF, leadsF⟩
  have utilities : OnUtility filtered destination trigger ↔ OnEnabledUtility graph destination trigger := by
    constructor
    · rintro ⟨c, member, other, ⟨ds, behind⟩, isEnd⟩
      obtain ⟨inGraph, enabledFrom, enabledTo⟩ := (removed.other_iff closed other).mp member
      exact ⟨c, inGraph, other, enabledFrom, enabledTo, removed.path_of_trail closed above behind, isEnd⟩
    · rintro ⟨c, inGraph, other, enabledFrom, enabledTo, path, isEnd⟩
      exact ⟨c, (removed.other_iff closed other).mpr ⟨inGraph, enabledFrom, enabledTo⟩, other,
        removed.trail_of_path closed path, isEnd⟩
  rw [TriggerKept, Reached, direct, loops, utilities]

end Between

end Removed

end Filtered

end N8n.PartialExecution
