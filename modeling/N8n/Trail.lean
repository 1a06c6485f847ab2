import Mathlib.Data.List.Nodup

/-! Trails along edges that are objects with two ends: lists of edges, each of which starts
where the one before ended. With the ends exchanged a trail is read backwards. -/

namespace N8n

open List

variable {α ε : Type*}

def Trail (source target : ε → α) : α → List ε → α → Prop
  | first, [], last => first = last
  | first, edge :: rest, last => source edge = first ∧ Trail source target (target edge) rest last

instance Trail.decidable [DecidableEq α] (source target : ε → α) :
    (first : α) → (edges : List ε) → (last : α) → Decidable (Trail source target first edges last)
  | first, [], last => inferInstanceAs (Decidable (first = last))
  | first, edge :: rest, last =>
    have := Trail.decidable source target (target edge) rest last
    inferInstanceAs (Decidable (source edge = first ∧ Trail source target (target edge) rest last))

namespace Trail

variable {source target : ε → α} {a b c : α} {edges more : List ε} {edge : ε}

theorem append_iff :
    Trail source target a (edges ++ more) b ↔ ∃ m, Trail source target a edges m ∧ Trail source target m more b := by
  induction edges generalizing a with
  | nil => exact ⟨fun rest => ⟨a, rfl, rest⟩, fun ⟨_, same, rest⟩ => (show a = _ from same) ▸ rest⟩
  | cons first rest ih =>
    rw [cons_append]
    exact ⟨fun ⟨starts, whole⟩ => have ⟨m, one, two⟩ := ih.mp whole; ⟨m, ⟨starts, one⟩, two⟩,
      fun ⟨m, ⟨starts, one⟩, two⟩ => ⟨starts, ih.mpr ⟨m, one, two⟩⟩⟩

theorem append (one : Trail source target a edges b) (two : Trail source target b more c) :
    Trail source target a (edges ++ more) c :=
  append_iff.mpr ⟨b, one, two⟩

section

variable (trail : Trail source target a edges b)
include trail

theorem concat (starts : source edge = b) : Trail source target a (edges ++ [edge]) (target edge) :=
  trail.append ⟨starts, rfl⟩

theorem reverse : Trail target source b edges.reverse a := by
  induction edges generalizing a with
  | nil => exact (show a = b from trail).symm
  | cons first rest ih =>
    rw [reverse_cons, ← trail.1]
    exact (ih trail.2).concat rfl

/-- A trail ends where it starts or where one of its edges ends. -/
theorem last_cases : edges = [] ∧ a = b ∨ ∃ edge ∈ edges, target edge = b := by
  induction edges generalizing a with
  | nil => exact .inl ⟨rfl, trail⟩
  | cons first rest ih =>
    rcases ih trail.2 with ⟨_, same⟩ | ⟨edge, member, ends⟩
    · exact .inr ⟨first, mem_cons_self, same⟩
    · exact .inr ⟨edge, mem_cons_of_mem _ member, ends⟩

/-- The places of a trail, by the starts and by the ends of its edges. -/
theorem sources_concat : edges.map source ++ [b] = a :: edges.map target := by
  induction edges generalizing a with
  | nil => exact congrArg (fun x => [x]) (show a = b from trail).symm
  | cons first rest ih => rw [map_cons, cons_append, ih trail.2, trail.1, map_cons]

theorem stays {p : α → Prop} (start : p a) (closed : ∀ edge ∈ edges, p (source edge) → p (target edge)) : p b := by
  induction edges generalizing a with
  | nil => exact (show a = b from trail) ▸ start
  | cons first rest ih =>
    have next := closed first mem_cons_self (trail.1.symm ▸ start)
    exact ih trail.2 next fun edge member => closed edge (mem_cons_of_mem _ member)

theorem cut (member : c ∈ edges.map target) : ∃ before edge after, edges = before ++ edge :: after ∧ target edge = c ∧
      Trail source target a (before ++ [edge]) c ∧ Trail source target c after b := by
  obtain ⟨edge, inside, rfl⟩ := List.mem_map.mp member
  obtain ⟨before, after, rfl⟩ := append_of_mem inside
  obtain ⟨m, one, two⟩ := append_iff.mp trail
  exact ⟨before, edge, after, rfl, rfl, one.concat two.1, two.2⟩

theorem exists_simple : ∃ short, Trail source target a short b ∧ (a :: short.map target).Nodup ∧ short ⊆ edges := by
  classical
  induction edges generalizing a with
  | nil => exact ⟨[], trail, nodup_singleton a, fun _ => id⟩
  | cons first rest ih =>
    obtain ⟨short, shortTrail, distinct, part⟩ := ih trail.2
    have whole : Trail source target a (first :: short) b := ⟨trail.1, shortTrail⟩
    have inside : first :: short ⊆ first :: rest := cons_subset_cons first part
    by_cases repeated : a ∈ (first :: short).map target
    · obtain ⟨before, edge, after, same, ends, _, back⟩ := whole.cut repeated
      have tail : (edge :: after).Sublist (first :: short) := same ▸ sublist_append_right _ _
      refine ⟨after, back, ?_, fun e member => inside (tail.subset (mem_cons_of_mem _ member))⟩
      rw [← ends, ← map_cons]
      exact Nodup.sublist (tail.map target) distinct
    · exact ⟨first :: short, whole, nodup_cons.mpr ⟨repeated, distinct⟩, inside⟩

end

end Trail

end N8n
