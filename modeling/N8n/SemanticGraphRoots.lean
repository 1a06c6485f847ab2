import N8n.SemanticGraphConnections

/-! The roots of a semantic graph reach all nodes that are not part of another one. -/

namespace N8n.Codegen

open DepthFirst (Reaches)
open List

section Reach

variable {nodes : Nodes} {scope : List String} {name : String} {roots : List String} {entries : Entries}

theorem targets_outside (outside : name ∉ names nodes) : targets nodes name = [] := by
  rw [targets, nodes.get_eq_none_iff.mpr outside]

theorem targetsWithin_length (name : String) : (targetsWithin nodes scope name).length ≤ (targets nodes name).length :=
  length_filter_le _ _

theorem sum_unseen_le_fuel {children : String → List String}
    (fewer : ∀ name, (children name).length ≤ (targets nodes name).length) (seen : List String)
    (start : List String) : Marking.steps children (names nodes) seen start < fuel nodes start := by
  have unseen : (((names nodes).filter (· ∉ seen)).map fun name => (children name).length).sum ≤
      ((names nodes).map fun name => (targets nodes name).length).sum := by
    induction names nodes with
    | nil => exact le_rfl
    | cons name rest ih =>
      have here := fewer name
      rw [filter_cons]
      split_ifs
      · simp only [map_cons, sum_cons]
        omega
      · simp only [map_cons, sum_cons]
        omega
  rw [Marking.steps, fuel]
  omega

theorem reached_of_mem (reached : name ∈ reachableFrom nodes roots) :
    ∃ root ∈ roots, Reaches (targets nodes) root name := by
  rcases Marking.mark_reached reached with nothing | ⟨root, listed, path⟩
  · cases nothing
  · exact ⟨root, mem_reverse.mp listed, path⟩

structure Sound (nodes : Nodes) (scope : List String) (entries : Entries) : Prop where
  reached : ∀ name ∈ entries.processed, ∃ entry ∈ entries.entryPoints, Reaches (targets nodes) entry name
  closed : ∀ name ∈ entries.processed, ∀ target ∈ targetsWithin nodes scope name, target ∈ entries.processed

theorem addEntryPoint_spec (sound : Sound nodes scope entries) (name : String) :
    Sound nodes scope (addEntryPoint nodes scope entries name) ∧ (∀ other ∈ entries.processed,
        other ∈ (addEntryPoint nodes scope entries name).processed) ∧
      name ∈ (addEntryPoint nodes scope entries name).processed := by
  obtain ⟨kept, taken, closed⟩ := Marking.mark_spec
    (fun other listed target child => Or.inl (sound.closed other listed target child))
    (fun other outside => by rw [targetsWithin, targets_outside outside]; rfl)
    (sum_unseen_le_fuel targetsWithin_length entries.processed [name])
  refine ⟨⟨fun other listed => ?_, closed⟩, kept, taken name (mem_singleton_self _)⟩
  rcases Marking.mark_reached listed with old | ⟨start, here, path⟩
  · obtain ⟨entry, member, path⟩ := sound.reached other old
    exact ⟨entry, mem_append_left _ member, path⟩
  · rw [mem_singleton.mp here] at path
    refine ⟨name, mem_append_right _ (mem_singleton_self _), ?_⟩
    exact Relation.ReflTransGen.mono (fun _ _ step => mem_of_mem_filter step) _ _ path

theorem pass_spec {step : Entries → String → Entries} (adds : ∀ entries name, step entries name = entries ∨
      step entries name = addEntryPoint nodes scope entries name)
    (list : List String) (sound : Sound nodes scope entries) :
    Sound nodes scope (list.foldl step entries) ∧
      ∀ other ∈ entries.processed, other ∈ (list.foldl step entries).processed := by
  induction list generalizing entries with
  | nil => exact ⟨sound, fun _ => id⟩
  | cons name list ih =>
    rw [foldl_cons]
    rcases adds entries name with same | added
    · rw [same]
      exact ih sound
    · rw [added]
      obtain ⟨sound', kept, -⟩ := addEntryPoint_spec sound name
      obtain ⟨sound'', kept'⟩ := ih sound'
      exact ⟨sound'', fun other listed => kept' other (kept other listed)⟩

theorem firstPass_adds (entries : Entries) (name : String) :
    firstPass nodes scope entries name = entries ∨
      firstPass nodes scope entries name = addEntryPoint nodes scope entries name := by
  rw [firstPass]
  split_ifs
  · exact .inl rfl
  · exact .inr rfl
  · exact .inl rfl

theorem secondPass_adds (entries : Entries) (name : String) : secondPass nodes scope entries name = entries ∨
      secondPass nodes scope entries name = addEntryPoint nodes scope entries name := by
  rw [secondPass]
  split_ifs
  · exact .inl rfl
  · exact .inr rfl

theorem secondPass_processes (sound : Sound nodes scope entries) (name : String) :
    name ∈ (secondPass nodes scope entries name).processed := by
  rw [secondPass]
  split_ifs with processed
  · exact processed
  · exact (addEntryPoint_spec sound name).2.2

theorem reached_of_disconnected (apart : name ∈ disconnected nodes roots) :
    ∃ entry ∈ findDisconnectedRoots nodes roots, Reaches (targets nodes) entry name := by
  have start : Sound nodes (disconnected nodes roots) {} := ⟨by simp, by simp⟩
  have first := (pass_spec firstPass_adds (disconnected nodes roots) start).1
  have second := (pass_spec secondPass_adds (disconnected nodes roots) first).1
  refine second.reached name ?_
  -- The second pass leaves out no node.
  obtain ⟨before, after, split⟩ := append_of_mem apart
  have front := (pass_spec secondPass_adds before first).1
  rw [split, foldl_append, foldl_cons, ← split]
  have added : Sound nodes (disconnected nodes roots) _ :=
    (pass_spec secondPass_adds [name] front).1
  exact (pass_spec secondPass_adds after added).2 name (secondPass_processes front name)

theorem reached_of_not_subnode (held : name ∈ names nodes) (free : isSubnode nodes name = false) (roots : List String) :
    ∃ root ∈ roots ++ findDisconnectedRoots nodes roots, Reaches (targets nodes) root name := by
  by_cases reached : name ∈ reachableFrom nodes roots
  · obtain ⟨root, listed, path⟩ := reached_of_mem reached
    exact ⟨root, mem_append_left _ listed, path⟩
  · have apart : name ∈ disconnected nodes roots :=
      mem_filter.mpr ⟨held, by simp [reached, free]⟩
    obtain ⟨entry, listed, path⟩ := reached_of_disconnected apart
    exact ⟨entry, mem_append_right _ listed, path⟩

end Reach

end N8n.Codegen
