import Mathlib.Data.List.Basic

/-! Texts with sections between doubled brackets. A reading goes through a text from the left and
looks for the opening and the closing pair in turn; a pair may be escaped by what stands before
it, and then it belongs to the section it stands in. Which texts escape a pair is a parameter. -/

namespace N8n.DoubledBrackets

open List Option

variable {α : Type*}

inductive Side
  | opening
  | closing
  deriving DecidableEq

def Side.other : Side → Side
  | .opening => .closing
  | .closing => .opening

/-- One section: the pieces in front of its escaped pairs, and what follows the last of them. It
is closed when an unescaped pair follows. -/
structure Section (α : Type*) where
  side : Side
  escaped : List (List α)
  tail : List α
  closed : Bool
  deriving DecidableEq

section Cut

variable [DecidableEq α] {b : α} {l before after : List α}

def cutPair (b : α) : List α → Option (List α × List α)
  | x :: y :: rest =>
    if x = b ∧ y = b then some ([], rest)
    else (cutPair b (y :: rest)).map fun parts => (x :: parts.1, parts.2)
  | _ => none

theorem cutPair_some (cut : cutPair b l = some (before, after)) : l = before ++ b :: b :: after := by
  fun_induction cutPair b l generalizing before with
  | case1 x y rest here =>
    cases cut
    rw [here.1, here.2, nil_append]
  | case2 x y rest apart ih =>
    obtain ⟨⟨before, after⟩, later, same⟩ := map_eq_some_iff.mp cut
    cases same
    rw [ih later, cons_append]
  | case3 => cases cut

theorem cutPair_length (cut : cutPair b l = some (before, after)) : after.length + 2 ≤ l.length := by
  rw [cutPair_some cut]
  simp only [length_append, length_cons]
  omega

/-- A piece without a pair that does not end with half of one. -/
def Clean (b : α) (l : List α) : Prop := cutPair b l = none ∧ l.getLast? ≠ some b

theorem cutPair_append (clean : Clean b before) (after : List α) :
    cutPair b (before ++ b :: b :: after) = some (before, after) := by
  obtain ⟨clean, last⟩ := clean
  induction before with
  | nil => simp [cutPair]
  | cons x rest ih =>
    cases rest with
    | nil =>
      have other : x ≠ b := fun same => last (by simp [same])
      simp [cutPair, other]
    | cons y rest =>
      rw [cutPair] at clean
      split at clean
      · cases clean
      · rename_i apart
        have later := ih (map_eq_none_iff.mp clean) (by simpa using last)
        rw [cons_append, cons_append, cutPair, if_neg apart, ← cons_append, later]
        rfl

theorem cutPair_before (cut : cutPair b l = some (before, after)) : Clean b before := by
  unfold Clean
  fun_induction cutPair b l generalizing before with
  | case1 =>
    cases cut
    simp [cutPair]
  | case2 x y rest apart ih =>
    obtain ⟨⟨before, after⟩, later, same⟩ := map_eq_some_iff.mp cut
    cases same
    obtain ⟨clean, last⟩ := ih later
    have split := cutPair_some later
    cases before with
    | nil =>
      have other : x ≠ b := fun same => apart ⟨same, (List.cons.inj split).1⟩
      simp [cutPair, other]
    | cons z before =>
      obtain rfl := (List.cons.inj split).1
      refine ⟨?_, by simpa using last⟩
      rw [cutPair, if_neg apart, clean]
      rfl
  | case3 => cases cut

theorem cutPair_isSome (before after : List α) : (cutPair b (before ++ b :: b :: after)).isSome := by
  induction before with
  | nil => simp [cutPair]
  | cons x rest ih =>
    obtain ⟨y, tail, split⟩ : ∃ y tail, rest ++ b :: b :: after = y :: tail := by cases rest <;> simp
    rw [cons_append, split, cutPair]
    split
    · rfl
    · rw [← split, isSome_map]
      exact ih

theorem cutPair_none_iff : cutPair b l = none ↔ ∀ before after, l ≠ before ++ b :: b :: after := by
  constructor
  · rintro none before after rfl
    exact isSome_iff_ne_none.mp (cutPair_isSome before after) none
  · intro apart
    by_contra some_
    obtain ⟨⟨before, after⟩, cut⟩ := ne_none_iff_exists'.mp some_
    exact apart before after (cutPair_some cut)

theorem cutPair_append_half (clean : cutPair b (before ++ [b]) = none) (after : List α) :
    cutPair b (before ++ [b] ++ b :: b :: after) = some (before, b :: after) := by
  rw [cutPair_none_iff] at clean
  have empty : cutPair b before = none := by
    rw [cutPair_none_iff]
    rintro x y rfl
    exact clean x (y ++ [b]) (by simp)
  have last : before.getLast? ≠ some b := fun last => by
    obtain ⟨rest, rfl⟩ := getLast?_eq_some_iff.mp last
    exact clean rest [] (by simp)
  rw [append_assoc, singleton_append]
  exact cutPair_append ⟨empty, last⟩ (b :: after)

theorem nil_of_pair (clean : Clean b before) (here : [b, b] <+: before ++ b :: b :: after) : before = [] := by
  obtain ⟨rest, split⟩ := here
  match before with
  | [] => rfl
  | [x] =>
    have same : b = x := (List.cons.inj split).1
    exact (clean.2 (by simp [same])).elim
  | x :: y :: before =>
    have first : b = x := (List.cons.inj split).1
    have second : b = y := (List.cons.inj (List.cons.inj split).2).1
    exact absurd (by simp [← first, ← second]) (cutPair_none_iff.mp clean.1 [] before)

theorem Clean.tail {c : α} {rest : List α} (clean : Clean b (c :: rest)) : Clean b rest := by
  refine ⟨cutPair_none_iff.mpr fun x y split => ?_, fun last => ?_⟩
  · exact cutPair_none_iff.mp clean.1 (c :: x) y (by rw [split]; rfl)
  · obtain ⟨before, rfl⟩ := getLast?_eq_some_iff.mp last
    exact clean.2 (getLast?_concat (l := c :: before))

end Cut

section Read

variable [DecidableEq α] (symbol : Side → α) (escapes : List α → Bool)

/-- The pieces before escaped pairs, the rest of the section, and what follows its pair. -/
def readSection (b : α) (l : List α) : List (List α) × List α × Option (List α) :=
  match _cut : cutPair b l with
  | none => ([], l, none)
  | some (before, after) =>
    if escapes before then
      let later := readSection b after
      (before :: later.1, later.2)
    else ([], before, some after)
termination_by l.length
decreasing_by
  have := cutPair_length _cut
  omega

def content (b : α) (escaped : List (List α)) (tail : List α) : List α :=
  escaped.flatMap (· ++ [b, b]) ++ tail

variable {symbol escapes} {b : α} {l : List α} {escaped : List (List α)} {tail : List α} {rest : Option (List α)}

theorem readSection_last (clean : cutPair b l = none) : readSection escapes b l = ([], l, none) := by
  rw [readSection]
  split
  · rfl
  · simp_all

theorem readSection_escape {before after : List α} (cut : cutPair b l = some (before, after))
    (guarded : escapes before = true) : readSection escapes b l =
      (before :: (readSection escapes b after).1, (readSection escapes b after).2) := by
  rw [readSection]
  split
  · simp_all
  · rename_i same
    obtain ⟨rfl, rfl⟩ := Prod.mk.inj (some.inj (cut.symm.trans same))
    rw [if_pos guarded]

theorem readSection_close {before after : List α} (cut : cutPair b l = some (before, after))
    (free : escapes before = false) : readSection escapes b l = ([], before, some after) := by
  rw [readSection]
  split
  · simp_all
  · rename_i same
    obtain ⟨rfl, rfl⟩ := Prod.mk.inj (some.inj (cut.symm.trans same))
    rw [if_neg (by simp [free])]

/-- The cases of a reading: it ends with the text or at a pair that is not escaped, or goes on
behind one that is. -/
theorem readSection_induction (escapes : List α → Bool) (b : α)
    {motive : List α → List (List α) × List α × Option (List α) → Prop}
    (last : ∀ l, cutPair b l = none → motive l ([], l, none))
    (close : ∀ l before after, cutPair b l = some (before, after) → escapes before = false →
      motive l ([], before, some after))
    (escape : ∀ l before after, cutPair b l = some (before, after) → escapes before = true →
      motive after (readSection escapes b after) →
      motive l (before :: (readSection escapes b after).1, (readSection escapes b after).2))
    (l : List α) : motive l (readSection escapes b l) := by
  induction size : l.length using Nat.strongRecOn generalizing l with
  | _ n ih =>
    cases cut : cutPair b l with
    | none =>
      rw [readSection_last cut]
      exact last l cut
    | some parts =>
      obtain ⟨before, after⟩ := parts
      have shorter := cutPair_length cut
      cases guarded : escapes before with
      | false =>
        rw [readSection_close cut guarded]
        exact close l before after cut guarded
      | true =>
        rw [readSection_escape cut guarded]
        exact escape l before after cut guarded (ih after.length (by omega) after rfl)

def behind (b : α) : Option (List α) → List α
  | none => []
  | some rest => b :: b :: rest

theorem readSection_source (escapes : List α → Bool) (b : α) (l : List α) : l =
    content b (readSection escapes b l).1 (readSection escapes b l).2.1 ++ behind b (readSection escapes b l).2.2 := by
  induction l using readSection_induction escapes b with
  | last l clean => simp [content, behind]
  | close l before after cut free => simpa [content, behind] using cutPair_some cut
  | escape l before after cut guarded ih =>
    have split := cutPair_some cut
    rw [ih] at split
    simpa [content] using split

theorem readSection_escaped (l : List α) : ∀ piece ∈ (readSection escapes b l).1,
    escapes piece = true ∧ Clean b piece := by
  induction l using readSection_induction escapes b with
  | last l clean => simp
  | close l before after cut free => simp
  | escape l before after cut guarded ih =>
    exact forall_mem_cons.mpr ⟨⟨guarded, cutPair_before cut⟩, ih⟩

theorem readSection_tail (l : List α) : cutPair b (readSection escapes b l).2.1 = none ∧
    ((readSection escapes b l).2.2.isSome →
      escapes (readSection escapes b l).2.1 = false ∧ Clean b (readSection escapes b l).2.1) := by
  induction l using readSection_induction escapes b with
  | last l clean => exact ⟨clean, by simp⟩
  | close l before after cut free => exact ⟨(cutPair_before cut).1, fun _ => ⟨free, cutPair_before cut⟩⟩
  | escape l before after cut guarded ih => exact ih

theorem readSection_length {rest : List α} (closed : (readSection escapes b l).2.2 = some rest) :
    rest.length < l.length := by
  have source := congrArg List.length (readSection_source escapes b l)
  rw [closed] at source
  simp only [behind, length_append, length_cons] at source
  omega

variable (symbol escapes)

def readSections (side : Side) (l : List α) : List (Section α) :=
  match _closed : (readSection escapes (symbol side) l).2.2 with
  | none =>
    [⟨side, (readSection escapes (symbol side) l).1, (readSection escapes (symbol side) l).2.1, false⟩]
  | some rest =>
    ⟨side, (readSection escapes (symbol side) l).1, (readSection escapes (symbol side) l).2.1, true⟩ ::
      readSections side.other rest
termination_by l.length
decreasing_by exact readSection_length _closed

variable {symbol escapes} {side : Side} {s : Section α}

theorem readSections_last (unclosed : (readSection escapes (symbol side) l).2.2 = none) :
    readSections symbol escapes side l =
      [⟨side, (readSection escapes (symbol side) l).1, (readSection escapes (symbol side) l).2.1, false⟩] := by
  rw [readSections]
  split
  · rfl
  · simp_all

theorem readSections_more {rest : List α} (closed : (readSection escapes (symbol side) l).2.2 = some rest) :
    readSections symbol escapes side l =
      ⟨side, (readSection escapes (symbol side) l).1, (readSection escapes (symbol side) l).2.1, true⟩ ::
        readSections symbol escapes side.other rest := by
  rw [readSections]
  split
  · simp_all
  · rename_i same
    obtain rfl := some.inj (closed.symm.trans same)
    rfl

theorem readSections_induction (symbol : Side → α) (escapes : List α → Bool) {motive : Side → List α → Prop}
    (last : ∀ side l, (readSection escapes (symbol side) l).2.2 = none → motive side l)
    (more : ∀ side l rest, (readSection escapes (symbol side) l).2.2 = some rest →
      motive side.other rest → motive side l) (side : Side) (l : List α) : motive side l := by
  induction size : l.length using Nat.strongRecOn generalizing side l with
  | _ n ih =>
    cases closed : (readSection escapes (symbol side) l).2.2 with
    | none => exact last side l closed
    | some rest =>
      have shorter := readSection_length closed
      exact more side l rest closed (ih rest.length (by omega) side.other rest rfl)

namespace Section

def text (symbol : Side → α) (s : Section α) : List α := content (symbol s.side) s.escaped s.tail

def source (symbol : Side → α) (s : Section α) : List α :=
  match s.side with
  | .opening => s.text symbol
  | .closing =>
    symbol .opening :: symbol .opening :: s.text symbol ++
      if s.closed then [symbol .closing, symbol .closing] else []

/-- The text ends right behind the brackets that open the section or were escaped in it. -/
def Cut (s : Section α) : Prop := s.tail = [] ∧ s.closed = false

instance (s : Section α) : Decidable s.Cut := inferInstanceAs (Decidable (_ ∧ _))

end Section

omit [DecidableEq α] in
/-- A section that is cut has no text of its own only at the very start of a text or behind a
closing pair. -/
theorem Section.Cut.source_eq_nil (cut : s.Cut) (symbol : Side → α) :
    s.source symbol = [] ↔ s.side = .opening ∧ s.escaped = [] := by
  cases side : s.side with
  | closing => simp [Section.source, side]
  | opening =>
    simp only [Section.source, side, Section.text, content, cut.1, append_nil, flatMap_eq_nil_iff, true_and]
    constructor
    · intro none
      exact eq_nil_iff_forall_not_mem.mpr fun piece there => absurd (none piece there) (by simp)
    · intro none
      simp [none]

theorem readSections_source (side : Side) (l : List α) :
    (readSections symbol escapes side l).flatMap (Section.source symbol) =
      match side with
      | .opening => l
      | .closing => symbol .opening :: symbol .opening :: l := by
  induction side, l using readSections_induction symbol escapes with
  | last side l unclosed =>
    have whole := readSection_source escapes (symbol side) l
    rw [unclosed, behind, append_nil] at whole
    rw [readSections_last unclosed]
    cases side <;> simpa [Section.source, Section.text] using whole.symm
  | more side l rest closed ih =>
    have whole := readSection_source escapes (symbol side) l
    rw [closed, behind] at whole
    rw [readSections_more closed, flatMap_cons, ih]
    cases side <;> simpa [Section.source, Section.text, Side.other] using whole.symm

theorem readSections_nil (side : Side) : readSections symbol escapes side [] = [⟨side, [], [], false⟩] := by
  have empty : readSection escapes (symbol side) [] = ([], [], none) := readSection_last rfl
  rw [readSections_last (by rw [empty]), empty]

theorem mem_readSections (side : Side) (l : List α) (member : s ∈ readSections symbol escapes side l) :
    (∀ piece ∈ s.escaped, escapes piece = true ∧ Clean (symbol s.side) piece) ∧ cutPair (symbol s.side) s.tail = none ∧
      (s.closed = true → escapes s.tail = false ∧ Clean (symbol s.side) s.tail) := by
  induction side, l using readSections_induction symbol escapes with
  | last side l unclosed =>
    rw [readSections_last unclosed, mem_singleton] at member
    subst member
    exact ⟨readSection_escaped l, (readSection_tail l).1, by simp⟩
  | more side l rest closed ih =>
    rw [readSections_more closed] at member
    rcases mem_cons.mp member with rfl | later
    · exact ⟨readSection_escaped l, (readSection_tail l).1,
        fun _ => (readSection_tail l).2 (by rw [closed]; rfl)⟩
    · exact ih later

/-- A loop that collects a buffer up to a pair that is not escaped, and leaves it behind where the
text ends right after an escaped pair, emits the sections of the reading that are not cut. -/
theorem loop_eq_readSections {β : Type*} (emit : Side → Bool → List α → β)
    (loop : Side → List α → List α → List β) (done : ∀ side buffer, loop side buffer [] = [])
    (last : ∀ side buffer l, l ≠ [] → cutPair (symbol side) l = none →
      loop side buffer l = [emit side false (buffer ++ l)])
    (escape : ∀ side buffer l before after, cutPair (symbol side) l = some (before, after) → escapes before = true →
      loop side buffer l = loop side (buffer ++ before ++ [symbol side, symbol side]) after)
    (close : ∀ side buffer l before after, cutPair (symbol side) l = some (before, after) → escapes before = false →
      loop side buffer l = emit side true (buffer ++ before) :: loop side.other [] after)
    (side : Side) (l : List α) : loop side [] l = (readSections symbol escapes side l).filterMap fun s =>
      if s.Cut then none else some (emit s.side s.closed (s.text symbol)) := by
  -- one section of the loop, with what was collected before
  have one : ∀ side l buffer, loop side buffer l =
      match (readSection escapes (symbol side) l).2.2 with
      | none =>
        if (readSection escapes (symbol side) l).2.1 = [] then []
        else [emit side false (buffer ++ content (symbol side) (readSection escapes (symbol side) l).1
          (readSection escapes (symbol side) l).2.1)]
      | some rest =>
        emit side true (buffer ++ content (symbol side) (readSection escapes (symbol side) l).1
          (readSection escapes (symbol side) l).2.1) :: loop side.other [] rest := by
    intro side l
    induction l using readSection_induction escapes (symbol side) with
    | last l clean =>
      intro buffer
      cases l with
      | nil => exact done side buffer
      | cons x l => simpa [content] using last side buffer (x :: l) (cons_ne_nil _ _) clean
    | close l before after cut free =>
      intro buffer
      simpa [content] using close side buffer l before after cut free
    | escape l before after cut guarded ih =>
      intro buffer
      rw [escape side buffer l before after cut guarded, ih]
      simp only [content, flatMap_cons, append_assoc]
  induction side, l using readSections_induction symbol escapes with
  | last side l unclosed =>
    rw [one, readSections_last unclosed, unclosed]
    by_cases empty : (readSection escapes (symbol side) l).2.1 = []
    · simp [Section.Cut, empty]
    · simp [Section.Cut, Section.text, empty]
  | more side l rest closed ih =>
    rw [one, readSections_more closed, closed]
    simp [Section.Cut, Section.text, ih]

end Read

theorem flatMap_eq_iff {γ : Type*} {f g : γ → List α} {xs : List γ} (shorter : ∀ x ∈ xs, (f x).length ≤ (g x).length) :
    xs.flatMap f = xs.flatMap g ↔ ∀ x ∈ xs, f x = g x := by
  have total : ∀ ys : List γ, (∀ x ∈ ys, (f x).length ≤ (g x).length) →
      (ys.flatMap f).length ≤ (ys.flatMap g).length := by
    intro ys all
    induction ys with
    | nil => simp
    | cons y ys ih =>
      obtain ⟨here, later⟩ := forall_mem_cons.mp all
      simpa using Nat.add_le_add here (ih later)
  induction xs with
  | nil => simp
  | cons x xs ih =>
    obtain ⟨here, later⟩ := forall_mem_cons.mp shorter
    rw [flatMap_cons, flatMap_cons, forall_mem_cons]
    constructor
    · intro same
      have lengths := congrArg List.length same
      rw [length_append, length_append] at lengths
      have := total xs later
      obtain ⟨first, others⟩ := append_inj same (by omega)
      exact ⟨first, (ih later).mp others⟩
    · rintro ⟨first, others⟩
      rw [first, (ih later).mpr others]

end N8n.DoubledBrackets
