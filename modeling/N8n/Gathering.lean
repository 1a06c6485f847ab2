import Mathlib.Data.List.Perm.Subperm
import N8n.OptionFold
import N8n.Trail

/-! A recursion that gathers the keys of edges. A call goes through the edges that leave its
vertex; for each whose key is new it adds the key and makes a call for the vertex behind. -/

namespace N8n

open List

variable {ν ε κ : Type} [DecidableEq ν] [DecidableEq κ]

/-- Nested calls add a key each, so `fuel` does not run out when it exceeds the number of edges. -/
def gather (key : ε → κ) (target : ε → ν) (edgesOf : ν → Option (List ε)) :
    (fuel : ℕ) → (vertex : ν) → (keys : List κ) → Option (List κ)
  | 0, _, keys => some keys
  | fuel + 1, vertex, keys => do
    let leaving ← edgesOf vertex
    leaving.foldlM (fun keys edge => if key edge ∈ keys then some keys
      else gather key target edgesOf fuel (target edge) (keys ++ [key edge])) keys

/-- The edges that leave a vertex are known if the vertex is stored, and the key of an edge tells
where it leads. -/
structure Gathers (key : ε → κ) (source target : ε → ν) (edges : List ε) (stored : ν → Prop)
    (edgesOf : ν → Option (List ε)) : Prop where
  known : ∀ vertex, stored vertex → edgesOf vertex = some (edges.filter (source · = vertex))
  unknown : ∀ vertex, ¬stored vertex → edgesOf vertex = none
  behind : ∀ edge other, key edge = key other → target edge = target other

def LeadingEdge (source target : ε → ν) (edges : List ε) (vertex : ν) (edge : ε) : Prop :=
  edge ∈ edges ∧ ∃ before, Trail source target vertex before (source edge) ∧ ∀ passed ∈ before, passed ∈ edges

structure Keys (key : ε → κ) (edges : List ε) (keys : List κ) : Prop where
  distinct : keys.Nodup
  inside : keys ⊆ edges.map key

structure Gathered (key : ε → κ) (source target : ε → ν) (edges : List ε) (stored : ν → Prop) (vertex : ν)
    (leaving : List ε) (before after : List κ) : Prop where
  here : stored vertex
  keys : Keys key edges after
  grows : before ⊆ after
  taken : ∀ edge ∈ leaving, key edge ∈ after
  leading : ∀ k ∈ after, k ∈ before ∨ ∃ edge, LeadingEdge source target edges vertex edge ∧ key edge = k
  stored : ∀ edge, key edge ∈ after → key edge ∉ before → stored (target edge)
  expanded : ∀ edge, key edge ∈ after → key edge ∉ before → ∀ next ∈ edges, source next = target edge → key next ∈ after

variable {key : ε → κ} {source target : ε → ν} {edges : List ε} {stored : ν → Prop} {edgesOf : ν → Option (List ε)}
  {vertex : ν} {before after keys : List κ} {edge : ε}

omit [DecidableEq ν] in
theorem LeadingEdge.single (member : edge ∈ edges) : LeadingEdge source target edges (source edge) edge :=
  ⟨member, [], rfl, by simp⟩

omit [DecidableEq ν] in
theorem LeadingEdge.cons {last : ε} (member : edge ∈ edges) (rest : LeadingEdge source target edges (target edge) last) :
    LeadingEdge source target edges (source edge) last := by
  obtain ⟨inside, passed, trail, all⟩ := rest
  exact ⟨inside, edge :: passed, ⟨rfl, trail⟩, forall_mem_cons.mpr ⟨member, all⟩⟩

omit [DecidableEq κ] in
theorem Keys.length_le (keys : Keys key edges before) : before.length ≤ edges.length := by
  simpa using (subperm_of_subset keys.distinct keys.inside).length_le

omit [DecidableEq κ] in
theorem Keys.concat (keys : Keys key edges before) (member : edge ∈ edges) (new : key edge ∉ before) :
    Keys key edges (before ++ [key edge]) where
  distinct := (perm_append_singleton _ _).nodup_iff.mpr (nodup_cons.mpr ⟨new, keys.distinct⟩)
  inside := append_subset.mpr ⟨keys.inside, by simpa using ⟨edge, member, rfl⟩⟩

namespace Gathers

variable (gathers : Gathers key source target edges stored edgesOf)
include gathers

theorem gathered {fuel : ℕ} (start : Keys key edges before) (enough : edges.length < fuel + before.length)
    (done : gather key target edgesOf fuel vertex before = some after) :
    Gathered key source target edges stored vertex (edges.filter (source · = vertex)) before after := by
  induction fuel generalizing vertex before after with
  | zero =>
    have bound := start.length_le
    omega
  | succ fuel ih =>
    have here : stored vertex := by
      by_contra absent
      simp [gather, gathers.unknown vertex absent] at done
    rw [gather, gathers.known vertex here, Option.bind_eq_bind, Option.bind_some] at done
    have each : ∀ leaving : List ε, (∀ edge ∈ leaving, edge ∈ edges ∧ source edge = vertex) →
        ∀ first, Keys key edges first → before.length ≤ first.length →
        leaving.foldlM (fun keys edge => if key edge ∈ keys then some keys
          else gather key target edgesOf fuel (target edge) (keys ++ [key edge])) first = some after →
        Gathered key source target edges stored vertex leaving first after := by
      intro leaving
      induction leaving with
      | nil =>
        intro _ first keys _ done
        obtain rfl := Option.some.inj done
        exact ⟨here, keys, fun _ => id, by simp, fun k member => .inl member,
          fun edge member new => absurd member new, fun edge member new => absurd member new⟩
      | cons edge leaving inner =>
        intro inside first keys longer done
        obtain ⟨member, leaves⟩ := inside edge mem_cons_self
        obtain ⟨mid, called, rest⟩ := foldlM_cons_eq_some.mp done
        have insideRest : ∀ edge ∈ leaving, edge ∈ edges ∧ source edge = vertex := fun other listed =>
          inside other (mem_cons_of_mem _ listed)
        split at called
        · rename_i old
          obtain rfl := Option.some.inj called
          have later := inner insideRest first keys longer rest
          exact { later with taken := forall_mem_cons.mpr ⟨later.grows old, later.taken⟩ }
        · rename_i new
          have bound : edges.length < fuel + (first ++ [key edge]).length := by
            rw [length_append, length_singleton]
            omega
          have below := ih (keys.concat member new) bound called
          have wider : before.length ≤ mid.length := by
            have part := (subperm_of_subset keys.distinct
              (List.Subset.trans (subset_append_left _ _) below.grows)).length_le
            omega
          have later := inner insideRest mid below.keys wider rest
          have added : key edge ∈ mid := below.grows (mem_append_right _ mem_cons_self)
          refine ⟨here, later.keys, fun k listed => later.grows (below.grows (mem_append_left _ listed)),
            forall_mem_cons.mpr ⟨later.grows added, later.taken⟩, fun k listed => ?_,
            fun other listed unlisted => ?_, fun other listed unlisted => ?_⟩
          · rcases later.leading k listed with inMid | leads
            · rcases below.leading k inMid with inFirst | ⟨last, leads, same⟩
              · rcases mem_append.mp inFirst with old | isKey
                · exact .inl old
                · exact .inr ⟨edge, leaves ▸ .single member, (mem_singleton.mp isKey).symm⟩
              · exact .inr ⟨last, leaves ▸ leads.cons member, same⟩
            · exact .inr leads
          · by_cases inMid : key other ∈ mid
            · by_cases isKey : key other = key edge
              · exact gathers.behind _ _ isKey ▸ below.here
              · exact below.stored other inMid (by simp [unlisted, isKey])
            · exact later.stored other listed inMid
          · by_cases inMid : key other ∈ mid
            · intro next inEdges leavesNext
              refine later.grows ?_
              by_cases isKey : key other = key edge
              · rw [gathers.behind _ _ isKey] at leavesNext
                exact below.taken next (mem_filter.mpr ⟨inEdges, by simpa using leavesNext⟩)
              · exact below.expanded other inMid (by simp [unlisted, isKey]) next inEdges leavesNext
            · exact later.expanded other listed inMid
    exact each _ (fun edge listed => by simpa using listed) before start (Nat.le_refl _) done

/-- A call that returns has gathered the keys of the edges that trails lead to, and has come to stored vertices. -/
theorem spec (done : gather key target edgesOf (edges.length + 1) vertex [] = some keys) :
    (∀ k, k ∈ keys ↔ ∃ edge, LeadingEdge source target edges vertex edge ∧ key edge = k) ∧ stored vertex ∧
      ∀ edge, LeadingEdge source target edges vertex edge → stored (target edge) := by
  have explored := gathers.gathered ⟨nodup_nil, by simp⟩ (by simp) done
  have found : ∀ edge, LeadingEdge source target edges vertex edge → key edge ∈ keys := by
    rintro edge ⟨member, passed, trail, inside⟩
    have leaving := trail.stays (p := fun v => ∀ next ∈ edges, source next = v → key next ∈ keys)
      (fun next inEdges leaves => explored.taken next (mem_filter.mpr ⟨inEdges, by simpa using leaves⟩))
      fun other listed all => explored.expanded other (all other (inside other listed) rfl) not_mem_nil
    exact leaving edge member rfl
  refine ⟨fun k => ⟨fun listed => (explored.leading k listed).resolve_left not_mem_nil, ?_⟩, explored.here,
    fun edge leads => explored.stored edge (found edge leads) not_mem_nil⟩
  rintro ⟨edge, leads, rfl⟩
  exact found edge leads

theorem returns {fuel : ℕ} (here : stored vertex)
    (below : ∀ edge, LeadingEdge source target edges vertex edge → stored (target edge)) (keys : List κ) :
    ∃ found, gather key target edgesOf fuel vertex keys = some found := by
  induction fuel generalizing vertex keys with
  | zero => exact ⟨keys, rfl⟩
  | succ fuel ih =>
    suffices each : ∃ found, gather key target edgesOf (fuel + 1) vertex keys = some found ∧ True from
      each.imp fun _ => And.left
    rw [gather, gathers.known vertex here]
    refine foldlM_isSome (fun edge member keys _ => ?_) trivial
    split
    · exact ⟨keys, rfl, trivial⟩
    · simp only [mem_filter, decide_eq_true_eq] at member
      obtain ⟨inEdges, rfl⟩ := member
      obtain ⟨found, done⟩ := ih (below edge (.single inEdges)) (fun last leads => below last (leads.cons inEdges)) _
      exact ⟨found, done, trivial⟩

end Gathers

end N8n
