import Mathlib.Data.List.Basic

/-! A depth-first search that takes the places at a vertex in their order and goes on only where it
has not been. Which vertices are met is told by paths that avoid the ones met before; at which
place a vertex is met first, by the order of the places. -/

namespace N8n.FirstPlaces

open List

variable {α π : Type*} (out : α → List (π × α))

/-- There is a path on which no vertex was met. -/
inductive Leads (met : α → Prop) : α → α → Prop
  | refl {x} (new : ¬met x) : Leads met x x
  | head {x y z p} (new : ¬met x) (place : (p, y) ∈ out x) (rest : Leads met y z) : Leads met x z

/-- What is met once the search went on from the places. -/
def After (met : α → Prop) (places : List (π × α)) (a : α) : Prop := met a ∨ ∃ e ∈ places, Leads out met e.2 a

/-- The search that goes on from `x` meets `y` first at the place. -/
inductive First : (α → Prop) → α → π → α → Prop
  | direct {met x p y before after} (new : ¬met x) (split : out x = before ++ (p, y) :: after) (unmet : ¬(met y ∨ y = x))
      (first : ∀ e ∈ before, ¬Leads out (fun a => met a ∨ a = x) e.2 y) : First met x p y
  | onward {met x p y q w before after} (new : ¬met x) (split : out x = before ++ (q, w) :: after)
      (first : ∀ e ∈ before, ¬Leads out (fun a => met a ∨ a = x) e.2 y)
      (inner : First (fun a => met a ∨ a = x) w p y) : First met x p y

/-- Going on from the places in their order, the search meets `y` first at `p`. -/
def Finds (met : α → Prop) (places : List (π × α)) (p : π) (y : α) : Prop :=
  ∃ before q w after, places = before ++ (q, w) :: after ∧ (∀ e ∈ before, ¬Leads out met e.2 y) ∧
    (p = q ∧ y = w ∧ ¬met y ∨ First out met w p y)

variable {out} {met met' : α → Prop} {x y z w : α} {p : π} {places more : List (π × α)}

namespace Leads

theorem start (leads : Leads out met x y) : ¬met x := by
  cases leads with
  | refl new => exact new
  | head new => exact new

theorem stop (leads : Leads out met x y) : ¬met y := by
  induction leads with
  | refl new => exact new
  | head _ _ _ ih => exact ih

theorem trans (one : Leads out met x y) (two : Leads out met y z) : Leads out met x z := by
  induction one with
  | refl => exact two
  | head new place _ ih => exact .head new place (ih two)

theorem mono (leads : Leads out met' x y) (fewer : ∀ a, met a → met' a) : Leads out met x y := by
  induction leads with
  | refl new => exact .refl fun old => new (fewer _ old)
  | head new place _ ih => exact .head (fun old => new (fewer _ old)) place ih

/-- A path to `y` stays a path where more is met of which none leads to `y`. -/
theorem avoid (leads : Leads out met x y) (apart : ∀ a, Leads out met a y → ¬met' a) : Leads out met' x y := by
  induction leads with
  | refl new => exact .refl (apart _ (.refl new))
  | head new place rest ih => exact .head (apart _ (.head new place rest)) place (ih apart)

/-- The path starts anew where it passes `w` last. -/
theorem cut (leads : Leads out met x z) (w : α) : Leads out (fun a => met a ∨ a = w) x z ∨
    z = w ∨ ∃ e ∈ out w, Leads out (fun a => met a ∨ a = w) e.2 z := by
  induction leads with
  | @refl x new =>
    by_cases here : x = w
    · exact .inr (.inl here)
    · exact .inl (.refl fun old => old.elim new here)
  | @head x y z p new place _ ih =>
    rcases ih with away | passes
    · by_cases here : x = w
      · exact .inr (.inr ⟨(p, y), here ▸ place, away⟩)
      · exact .inl (.head (fun old => old.elim new here) place away)
    · exact .inr passes

end Leads

theorem First.leads (first : First out met x p y) : Leads out met x y := by
  induction first with
  | direct new split unmet =>
    exact .head new (split ▸ mem_append_right _ mem_cons_self) (.refl fun old => unmet (.inl old))
  | onward new split _ _ ih =>
    exact .head new (split ▸ mem_append_right _ mem_cons_self) (ih.mono fun _ => .inl)

theorem first_iff : First out met x p y ↔ ¬met x ∧ Finds out (fun a => met a ∨ a = x) (out x) p y := by
  constructor
  · intro first
    cases first with
    | direct new split unmet before => exact ⟨new, _, _, _, _, split, before, .inl ⟨rfl, rfl, unmet⟩⟩
    | onward new split before inner => exact ⟨new, _, _, _, _, split, before, .inr inner⟩
  · rintro ⟨new, _, _, _, _, split, before, ⟨rfl, rfl, unmet⟩ | inner⟩
    · exact .direct new split unmet before
    · exact .onward new split before inner

/-- More may be met, if none of it leads to the vertex. -/
theorem First.congr (fewer : ∀ a, met a → met' a) (apart : ∀ a, Leads out met a y → ¬met' a) :
    First out met x p y ↔ First out met' x p y := by
  constructor
  · intro first
    induction first generalizing met' with
    | @direct met x p y before after new split unmet first =>
      have start : Leads out met x y :=
        .head new (split ▸ mem_append_right _ mem_cons_self) (.refl fun old => unmet (.inl old))
      refine .direct (apart x start) split (fun old => ?_) fun e member leads => first e member (leads.mono ?_)
      · exact old.elim (apart y (.refl fun old => unmet (.inl old))) fun same => unmet (.inr same)
      · exact fun a => Or.imp_left (fewer a)
    | @onward met x p y q w before after new split first inner ih =>
      have start : Leads out met x y := (First.onward new split first inner).leads
      refine .onward (apart x start) split (fun e member leads => first e member (leads.mono ?_)) (ih ?_ ?_)
      · exact fun a => Or.imp_left (fewer a)
      · exact fun a => Or.imp_left (fewer a)
      · exact fun a leads => not_or.mpr ⟨apart a (leads.mono fun _ => .inl), fun same => leads.start (.inr same)⟩
  · intro first
    induction first generalizing met with
    | @direct met' x p y before after new split unmet first =>
      refine .direct (fun old => new (fewer x old)) split (fun old => unmet (old.imp_left (fewer y))) ?_
      refine fun e member leads => first e member (leads.avoid fun a onward => ?_)
      exact not_or.mpr ⟨apart a (onward.mono fun _ => .inl), fun same => onward.start (.inr same)⟩
    | @onward met' x p y q w before after new split first inner ih =>
      have apart' : ∀ a, Leads out (fun a => met a ∨ a = x) a y → ¬(met' a ∨ a = x) := fun a leads =>
        not_or.mpr ⟨apart a (leads.mono fun _ => .inl), fun same => leads.start (.inr same)⟩
      refine .onward (fun old => new (fewer x old)) split (fun e member leads => first e member (leads.avoid apart')) ?_
      exact ih (fun a => Or.imp_left (fewer a)) apart'

/-! ## One list of places after the other -/

theorem leads_after (unmet : ¬After out met places y) : Leads out (After out met places) x y ↔ Leads out met x y := by
  refine ⟨fun leads => leads.mono fun _ => .inl, fun leads => leads.avoid fun a onward => ?_⟩
  rintro (old | ⟨e, member, back⟩)
  · exact onward.start old
  · exact unmet (.inr ⟨e, member, back.trans onward⟩)

theorem first_after (unmet : ¬After out met places y) :
    First out (After out met places) x p y ↔ First out met x p y := by
  refine (First.congr (fun _ => .inl) fun a onward => ?_).symm
  exact ((leads_after unmet).mpr onward).start

theorem after_append : After out (After out met places) more = After out met (places ++ more) := by
  funext a
  refine propext ⟨?_, ?_⟩
  · rintro ((old | ⟨e, member, leads⟩) | ⟨e, member, leads⟩)
    · exact .inl old
    · exact .inr ⟨e, mem_append_left _ member, leads⟩
    · exact .inr ⟨e, mem_append_right _ member, leads.mono fun _ => .inl⟩
  · rintro (old | ⟨e, member, leads⟩)
    · exact .inl (.inl old)
    by_cases before : After out met places a
    · exact .inl before
    rcases mem_append.mp member with first | second
    · exact absurd (.inr ⟨e, first, leads⟩) before
    · exact .inr ⟨e, second, (leads_after before).mpr leads⟩

theorem Finds.unmet (finds : Finds out met places p y) : ¬met y := by
  obtain ⟨_, _, _, _, _, _, ⟨_, _, unmet⟩ | first⟩ := finds
  · exact unmet
  · exact first.leads.stop

theorem finds_append : Finds out met (places ++ more) p y ↔
    Finds out met places p y ∨ Finds out (After out met places) more p y := by
  constructor
  · intro finds
    have unmet := finds.unmet
    obtain ⟨before, q, w, after, split, first, here⟩ := finds
    rcases append_eq_append_iff.mp split with ⟨between, rfl, rest⟩ | ⟨between, rfl, rest⟩
    · have new : ¬After out met places y := by
        rintro (old | ⟨e, member, leads⟩)
        · exact unmet old
        · exact first e (mem_append_left _ member) leads
      refine .inr ⟨between, q, w, after, rest, fun e member leads => ?_, ?_⟩
      · exact first e (mem_append_right _ member) ((leads_after new).mp leads)
      · exact here.imp (fun ⟨same, target, _⟩ => ⟨same, target, new⟩) (first_after new).mpr
    · cases between with
      | nil =>
        have new : ¬After out met before y := by
          rintro (old | ⟨e, member, leads⟩)
          · exact unmet old
          · exact first e member leads
        rw [append_nil]
        refine .inr ⟨[], q, w, after, rest.symm, by simp, ?_⟩
        exact here.imp (fun ⟨same, target, _⟩ => ⟨same, target, new⟩) (first_after new).mpr
      | cons e between =>
        obtain ⟨rfl, rfl⟩ := List.cons.inj rest
        exact .inl ⟨before, q, w, between, rfl, first, here⟩
  · rintro (⟨before, q, w, after, rfl, first, here⟩ | finds)
    · exact ⟨before, q, w, after ++ more, by simp, first, here⟩
    · have new := finds.unmet
      obtain ⟨before, q, w, after, rfl, first, here⟩ := finds
      refine ⟨places ++ before, q, w, after, by simp, fun e member leads => ?_, ?_⟩
      · rcases mem_append.mp member with early | late
        · exact new (.inr ⟨e, early, leads⟩)
        · exact first e late ((leads_after new).mpr leads)
      · exact here.imp (fun ⟨same, target, unmet⟩ => ⟨same, target, fun old => unmet (.inl old)⟩) (first_after new).mp

theorem not_finds_nil : ¬Finds out met [] p y := by
  rintro ⟨before, _, _, _, split, _⟩
  exact absurd split (by simp)

theorem after_nil : After out met ([] : List (π × α)) = met := by
  funext a
  simp [After]

theorem after_singleton : After out met [(p, w)] = fun a => met a ∨ Leads out met w a := by
  funext a
  simp [After]

theorem finds_singleton {q : π} : Finds out met [(q, w)] p y ↔ p = q ∧ y = w ∧ ¬met y ∨ First out met w p y := by
  constructor
  · rintro ⟨before, q', w', after, split, _, here⟩
    cases before with
    | nil =>
      cases split
      exact here
    | cons e before => simp at split
  · exact fun here => ⟨[], q, w, [], rfl, by simp, here⟩

/-- To search a vertex is to note it and to go on from its places. -/
theorem leads_iff_after (new : ¬met w) :
    (fun a => met a ∨ Leads out met w a) = After out (fun a => met a ∨ a = w) (out w) := by
  funext a
  refine propext ⟨?_, ?_⟩
  · rintro (old | leads)
    · exact .inl (.inl old)
    rcases leads.cut w with away | rfl | onward
    · exact absurd (.inr rfl) away.start
    · exact .inl (.inr rfl)
    · exact .inr onward
  · rintro ((old | rfl) | ⟨e, member, leads⟩)
    · exact .inl old
    · exact .inr (.refl new)
    · exact .inr (.head new member (leads.mono fun _ => .inl))

end N8n.FirstPlaces
