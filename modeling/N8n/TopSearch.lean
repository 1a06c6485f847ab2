import Mathlib.Data.List.Basic
import Mathlib.Data.List.Induction
import N8n.Walk

/-! A depth-first search for the tops of a graph that is given by what is above each vertex. All
nested searches share one list of the vertices met. A vertex with nothing above it on record is
never put on that list, so that it is found again from each vertex below it. Any other vertex is
met once, along the first path to it: at each vertex the first way on that leads there without
coming back to the path. A vertex is found where nothing enabled is found through it. -/

namespace N8n.TopSearch

open List Relation

variable {α : Type*} (parents : α → Option (List α)) (enabled : α → Bool)

section Search

variable [DecidableEq α]

def addNew (nodes : List α) (name : α) : List α := if name ∈ nodes then nodes else nodes ++ [name]

def visit (find : α → List α → List α × List α) (state : List α × List α) (a : α) : List α × List α :=
  if a ∈ state.2 then state
  else
    let found := find a state.2
    let tops := if found.1.isEmpty && enabled a then [a] else found.1
    (tops.foldl addNew state.1, found.2)

/-- The tops found above a vertex, and the vertices met by then. Nested calls meet a new vertex
each, so `fuel` never runs out when it exceeds the number of vertices not met. -/
def search : (fuel : ℕ) → α → (met : List α) → List α × List α
  | 0, _, met => ([], met)
  | fuel + 1, a, met =>
    match parents a with
    | none => ([], met)
    | some above => above.foldl (visit enabled (search fuel)) ([], met ++ [a])

end Search

/-! ## Paths -/

def above (a : α) : List α := (parents a).getD []

def Internal (a : α) : Prop := (parents a).isSome = true

instance (a : α) : Decidable (Internal parents a) := inferInstanceAs (Decidable (_ = true))

/-- A path up whose vertices are not in `avoid`. -/
def Leads (avoid : List α) (a b : α) : Prop :=
  a ∉ avoid ∧ ReflTransGen (fun c d => d ∈ above parents c ∧ d ∉ avoid) a b

def From (avoid starts : List α) (b : α) : Prop := ∃ a ∈ starts, Leads parents avoid a b

def FirstStart (avoid : List α) : (starts : List α) → α → α → Prop
  | [], _, _ => False
  | c :: starts, a, b =>
    Leads parents avoid c b ∧ a = c ∨ ¬Leads parents avoid c b ∧ FirstStart avoid starts a b

/-- The path goes on at the first vertex that leads to its end without coming back to it. -/
def FirstPath (avoid starts : List α) : (path : List α) → α → Prop
  | [], _ => False
  | a :: path, b =>
    FirstStart parents avoid starts a b ∧ (a = b ∧ path = [] ∨ a ≠ b ∧ FirstPath (a :: avoid) (above parents a) path b)

def New (avoid met starts : List α) (a : α) : Prop :=
  Internal parents a ∧ a ∉ met ∧ From parents avoid starts a

def Below (avoid met starts : List α) (a : α) : Prop :=
  New parents avoid met starts a ∨
    ¬Internal parents a ∧ (a ∈ starts ∨ ∃ b, New parents avoid met starts b ∧ a ∈ above parents b)

/-- The second vertex is found through the first one: that is on the first path to it or, where it
is found again and again, to a vertex that it is above of. -/
def Through (avoid met starts : List α) (a b : α) : Prop :=
  ∃ c path, New parents avoid met starts c ∧ FirstPath parents avoid starts path c ∧ a ∈ path ∧
    (c = b ∧ a ≠ b ∨ ¬Internal parents b ∧ b ∈ above parents c)

/-- The first vertex is found somewhere on the way up from the second one. -/
def Above : α → α → Prop := TransGen fun a b => a ∈ above parents b

variable {parents} {avoid met starts before after path : List α} {a b c : α} {more : List α}

theorem inner_of_above (up : b ∈ above parents a) : Internal parents a := by
  rw [Internal]
  cases found : parents a with
  | none => simp [above, found] at up
  | some _ => rfl

theorem Leads.head (h : Leads parents avoid b c) (up : b ∈ above parents a) (outside : a ∉ avoid) :
    Leads parents avoid a c :=
  ⟨outside, ReflTransGen.head ⟨up, h.1⟩ h.2⟩

section

variable (h : Leads parents avoid a b)
include h

theorem Leads.trans (g : Leads parents avoid b c) : Leads parents avoid a c :=
  ⟨h.1, ReflTransGen.trans h.2 g.2⟩

theorem Leads.outside : b ∉ avoid := by
  rcases ReflTransGen.cases_tail h.2 with rfl | ⟨_, _, step⟩
  · exact h.1
  · exact step.2

omit h in
theorem Leads.of_cons (h : Leads parents (c :: avoid) a b) : Leads parents avoid a b := by
  obtain ⟨outside, path⟩ := h
  refine ⟨fun inside => outside (mem_cons_of_mem _ inside), ?_⟩
  induction path with
  | refl => exact .refl
  | tail _ step ih =>
    exact ih.tail ⟨step.1, fun inside => step.2 (mem_cons_of_mem _ inside)⟩

/-- Nothing is reached from a vertex with nothing above it. -/
theorem Leads.eq_of_not_inner (top : ¬Internal parents a) : b = a := by
  rcases ReflTransGen.cases_head h.2 with same | ⟨_, step, _⟩
  · exact same.symm
  · exact absurd (inner_of_above step.1) top

theorem Leads.inner (inner : Internal parents b) : Internal parents a := by
  by_contra top
  exact top (h.eq_of_not_inner top ▸ inner)

theorem Leads.cut : b = a ∨ From parents (a :: avoid) (above parents a) b := by
  obtain ⟨_, path⟩ := h
  induction path with
  | refl => exact .inl rfl
  | @tail b c _ step ih =>
    by_cases back : c = a
    · exact .inl back
    have outside : c ∉ a :: avoid := fun inside => (mem_cons.mp inside).elim back step.2
    rcases ih with rfl | ⟨d, starts, fresh, reach⟩
    · exact .inr ⟨c, step.1, outside, .refl⟩
    · exact .inr ⟨d, starts, fresh, reach.tail ⟨step.1, outside⟩⟩

end

theorem From.leads (h : From parents (a :: avoid) (above parents a) b) (outside : a ∉ avoid) :
    Leads parents avoid a b := by
  obtain ⟨c, up, reach⟩ := h
  exact reach.of_cons.head up outside

theorem From.trans (h : From parents avoid starts a) (reach : Leads parents avoid a b) :
    From parents avoid starts b := by
  obtain ⟨c, member, first⟩ := h
  exact ⟨c, member, first.trans reach⟩

theorem From.outside (h : From parents avoid starts a) : a ∉ avoid := by
  obtain ⟨_, _, reach⟩ := h
  exact reach.outside

theorem from_append : From parents avoid (before ++ after) a ↔
    From parents avoid before a ∨ From parents avoid after a := by
  simp only [From, mem_append, or_and_right, exists_or]

theorem from_singleton : From parents avoid [a] b ↔ Leads parents avoid a b := by
  simp only [From, mem_singleton, exists_eq_left]

/-! ## First paths -/

theorem FirstStart.leads (h : FirstStart parents avoid starts a b) : a ∈ starts ∧ Leads parents avoid a b := by
  induction starts with
  | nil => cases h
  | cons c starts ih =>
    rcases h with ⟨reach, rfl⟩ | ⟨_, later⟩
    · exact ⟨mem_cons_self, reach⟩
    · exact ⟨mem_cons_of_mem _ (ih later).1, (ih later).2⟩

theorem firstStart_singleton : FirstStart parents avoid [c] a b ↔ Leads parents avoid c b ∧ a = c := by
  simp only [FirstStart, and_false, or_false]

theorem firstStart_append : FirstStart parents avoid (before ++ after) a b ↔ FirstStart parents avoid before a b ∨
      ¬From parents avoid before b ∧ FirstStart parents avoid after a b := by
  induction before with
  | nil => simp [FirstStart, From]
  | cons c before ih =>
    simp only [cons_append, FirstStart, ih]
    have split : From parents avoid (c :: before) b ↔ Leads parents avoid c b ∨ From parents avoid before b := by
      simp [From]
    rw [split]
    by_cases reach : Leads parents avoid c b
    · simp [reach]
    · simp [reach]

theorem firstPath_append_left (reached : From parents avoid before b) :
    FirstPath parents avoid (before ++ after) path b ↔ FirstPath parents avoid before path b := by
  cases path with
  | nil => exact Iff.rfl
  | cons a path =>
    simp only [FirstPath, firstStart_append]
    tauto

theorem firstPath_append_right (missed : ¬From parents avoid before b) :
    FirstPath parents avoid (before ++ after) path b ↔ FirstPath parents avoid after path b := by
  cases path with
  | nil => exact Iff.rfl
  | cons a path =>
    have none : ¬FirstStart parents avoid before a b := fun first => missed ⟨a, first.leads⟩
    simp only [FirstPath, firstStart_append]
    tauto

theorem firstPath_singleton : FirstPath parents avoid [c] path b ↔ Leads parents avoid c b ∧
    (c = b ∧ path = [c] ∨ c ≠ b ∧ ∃ rest, path = c :: rest ∧
      FirstPath parents (c :: avoid) (above parents c) rest b) := by
  cases path with
  | nil => simp [FirstPath]
  | cons a path =>
    simp only [FirstPath, firstStart_singleton, List.cons.injEq]
    constructor
    · rintro ⟨⟨reach, rfl⟩, ⟨same, last⟩ | ⟨other, rest⟩⟩
      · exact ⟨reach, .inl ⟨same, rfl, last⟩⟩
      · exact ⟨reach, .inr ⟨other, path, ⟨rfl, rfl⟩, rest⟩⟩
    · rintro ⟨reach, ⟨same, rfl, last⟩ | ⟨other, _, ⟨rfl, rfl⟩, rest⟩⟩
      · exact ⟨⟨reach, rfl⟩, .inl ⟨same, last⟩⟩
      · exact ⟨⟨reach, rfl⟩, .inr ⟨other, rest⟩⟩

theorem FirstPath.on (h : FirstPath parents avoid starts path b) (member : a ∈ path) :
    From parents avoid starts a ∧ Leads parents avoid a b := by
  induction path generalizing avoid starts with
  | nil => cases h
  | cons c path ih =>
    obtain ⟨first, rest⟩ := h
    obtain ⟨inside, reach⟩ := first.leads
    rcases mem_cons.mp member with rfl | later
    · exact ⟨⟨a, inside, reach.1, .refl⟩, reach⟩
    · rcases rest with ⟨_, rfl⟩ | ⟨_, rest⟩
      · cases later
      · obtain ⟨further, onward⟩ := ih rest later
        exact ⟨⟨c, inside, further.leads reach.1⟩, onward.of_cons⟩

/-! ## What is met -/

structure Met (parents : α → Option (List α)) (avoid met : List α) : Prop where
  path : ∀ a, a ∈ avoid → a ∈ met
  inner : ∀ a, a ∈ met → Internal parents a
  closed : ∀ a, a ∈ met → a ∉ avoid → ∀ b, b ∈ above parents a → Internal parents b → b ∈ met

theorem Met.leads (h : Met parents avoid met) (reach : Leads parents avoid a b)
    (inside : a ∈ met) (inner : Internal parents b) : b ∈ met := by
  obtain ⟨outside, path⟩ := reach
  induction path with
  | refl => exact inside
  | @tail b c path step ih =>
    have member := ih (inner_of_above step.1)
    have off : b ∉ avoid := Leads.outside ⟨outside, path⟩
    exact h.closed b member off c step.1 inner

theorem New.outside (h : New parents avoid met starts a) : a ∉ avoid := h.2.2.outside

theorem Through.new (h : Met parents avoid met) (through : Through parents avoid met starts a b) :
    New parents avoid met starts a := by
  obtain ⟨c, path, new, first, member, _⟩ := through
  obtain ⟨reached, onward⟩ := first.on member
  exact ⟨onward.inner new.1, fun inside => new.2.1 (h.leads onward inside new.1), reached⟩

theorem Met.extend (h : Met parents avoid met) (checked : ∀ a, a ∈ more ↔ a ∈ met ∨ New parents avoid met starts a) :
    Met parents avoid more where
  path a inside := (checked a).mpr (.inl (h.path a inside))
  inner a inside := by
    rcases (checked a).mp inside with old | new
    · exact h.inner a old
    · exact new.1
  closed a inside outside b up inner := by
    refine (checked b).mpr ?_
    by_cases member : b ∈ met
    · exact .inl member
    rcases (checked a).mp inside with old | new
    · exact .inl (h.closed a old outside b up inner)
    · have off : b ∉ avoid := fun on => member (h.path b on)
      have here : Leads parents avoid b b := ⟨off, .refl⟩
      exact .inr ⟨inner, member, new.2.2.trans (here.head up outside)⟩

theorem Met.push (h : Met parents avoid met) (inner : Internal parents c) : Met parents (c :: avoid) (met ++ [c]) where
  path a inside := by
    rcases mem_cons.mp inside with rfl | old
    · simp
    · exact mem_append_left _ (h.path a old)
  inner a inside := by
    rcases mem_append.mp inside with old | last
    · exact h.inner a old
    · exact mem_singleton.mp last ▸ inner
  closed a inside outside b up inner := by
    have off : a ∉ avoid := fun on => outside (mem_cons_of_mem _ on)
    rcases mem_append.mp inside with old | last
    · exact mem_append_left _ (h.closed a old off b up inner)
    · exact absurd (mem_singleton.mp last ▸ mem_cons_self) outside

/-! ## What the search finds -/

structure Spec (parents : α → Option (List α)) (enabled : α → Bool) (avoid met starts : List α)
    (found : List α × List α) : Prop where
  checked : ∀ a, a ∈ found.2 ↔ a ∈ met ∨ New parents avoid met starts a
  paths : ∀ a, New parents avoid met starts a → ∃ path, FirstPath parents avoid starts path a
  tops : ∀ a, a ∈ found.1 ↔ Below parents avoid met starts a ∧ enabled a = true ∧
    ∀ b, enabled b = true → ¬Through parents avoid met starts a b
  none : found.1 = [] ↔ ∀ a, Below parents avoid met starts a → enabled a = false

theorem Below.new (h : Below parents avoid met starts a) (inner : Internal parents a) :
    New parents avoid met starts a :=
  h.resolve_right fun leaf => leaf.1 inner

section Known

variable (known : ∀ a, Internal parents a → a ∉ met → Leads parents avoid c a → From parents avoid before a)
include known

theorem new_append_known : New parents avoid met (before ++ [c]) a ↔ New parents avoid met before a := by
  simp only [New, from_append, from_singleton]
  have leads := known a
  tauto

theorem through_append_known :
    Through parents avoid met (before ++ [c]) a b ↔ Through parents avoid met before a b := by
  simp only [Through, new_append_known known]
  refine exists_congr fun d => exists_congr fun path => and_congr_right fun new => ?_
  rw [firstPath_append_left new.2.2]

theorem below_append_known : Below parents avoid met (before ++ [c]) a ↔
    Below parents avoid met before a ∨ ¬Internal parents a ∧ a = c := by
  simp only [Below, new_append_known known, mem_append, mem_singleton]
  grind only

theorem paths_append_known (new : New parents avoid met (before ++ [c]) a)
    (paths : ∀ a, New parents avoid met before a → ∃ path, FirstPath parents avoid before path a) :
    ∃ path, FirstPath parents avoid (before ++ [c]) path a := by
  have old := (new_append_known known).mp new
  obtain ⟨path, first⟩ := paths a old
  exact ⟨path, (firstPath_append_left old.2.2).mpr first⟩

end Known

section Fresh

variable {more : List α} (checked : ∀ a, a ∈ more ↔ a ∈ met ∨ New parents avoid met before a)
  (inner : Internal parents c) (fresh : c ∉ more) (outside : c ∉ avoid)
include checked inner fresh outside

theorem new_append_fresh : New parents avoid met (before ++ [c]) a ↔ New parents avoid met before a ∨ a = c ∨
      New parents (c :: avoid) (more ++ [c]) (above parents c) a := by
  have old := checked a
  constructor
  · rintro ⟨top, unmet, reached⟩
    by_cases known : a ∈ more
    · exact .inl ((old.mp known).resolve_left unmet)
    rcases from_append.mp reached with before_ | last
    · exact absurd (old.mpr (.inr ⟨top, unmet, before_⟩)) known
    rcases (from_singleton.mp last).cut with same | further
    · exact .inr (.inl same)
    by_cases same : a = c
    · exact .inr (.inl same)
    · exact .inr (.inr ⟨top, by simp [known, same], further⟩)
  · rintro (⟨top, unmet, reached⟩ | rfl | ⟨top, unmet, reached⟩)
    · exact ⟨top, unmet, from_append.mpr (.inl reached)⟩
    · have here : Leads parents avoid a a := ⟨outside, .refl⟩
      exact ⟨inner, fun inside => fresh (old.mpr (.inl inside)), from_append.mpr (.inr (from_singleton.mpr here))⟩
    · have unknown : a ∉ more := fun inside => unmet (mem_append_left _ inside)
      exact ⟨top, fun inside => unknown (old.mpr (.inl inside)),
        from_append.mpr (.inr (from_singleton.mpr (reached.leads outside)))⟩

/-- What the last start adds is not reached from the others. -/
theorem missed_of_fresh (added : a = c ∨ New parents (c :: avoid) (more ++ [c]) (above parents c) a) :
    ¬From parents avoid before a := by
  intro reached
  have known : a ∉ more := by
    rcases added with rfl | new
    · exact fresh
    · exact fun inside => new.2.1 (mem_append_left _ inside)
  have top : Internal parents a := by
    rcases added with rfl | new
    · exact inner
    · exact new.1
  exact known ((checked a).mpr (.inr ⟨top, fun inside => known ((checked a).mpr (.inl inside)), reached⟩))

theorem below_append_fresh : Below parents avoid met (before ++ [c]) a ↔ Below parents avoid met before a ∨ a = c ∨
      Below parents (c :: avoid) (more ++ [c]) (above parents c) a := by
  have split (b : α) := new_append_fresh (a := b) checked inner fresh outside
  simp only [Below, split, mem_append, mem_singleton]
  by_cases same : a = c
  · simp [same]
  · simp only [same, or_false, false_or, or_and_right, exists_or, exists_eq_left]
    simp only [and_or_left]
    grind only

theorem through_append_fresh (paths : ∀ a, New parents (c :: avoid) (more ++ [c]) (above parents c) a →
      ∃ path, FirstPath parents (c :: avoid) (above parents c) path a) :
    Through parents avoid met (before ++ [c]) a b ↔ Through parents avoid met before a b ∨
        a = c ∧ Below parents (c :: avoid) (more ++ [c]) (above parents c) b ∨
        Through parents (c :: avoid) (more ++ [c]) (above parents c) a b := by
  have split (d : α) := new_append_fresh (a := d) checked inner fresh outside
  have missed (d : α) := missed_of_fresh (a := d) checked inner fresh outside
  have here : Leads parents avoid c c := ⟨outside, .refl⟩
  constructor
  · rintro ⟨d, path, new, first, member, found⟩
    rcases (split d).mp new with old | added
    · rw [firstPath_append_left old.2.2] at first
      exact .inl ⟨d, path, old, first, member, found⟩
    rw [firstPath_append_right (missed d added), firstPath_singleton] at first
    rcases added with rfl | added
    · obtain ⟨_, ⟨_, rfl⟩ | ⟨other, _⟩⟩ := first
      · obtain rfl := mem_singleton.mp member
        rcases found with ⟨same, other⟩ | ⟨top, up⟩
        · exact absurd same other
        · exact .inr (.inl ⟨rfl, .inr ⟨top, .inl up⟩⟩)
      · exact absurd rfl other
    · obtain ⟨_, ⟨rfl, _⟩ | ⟨_, rest, rfl, onward⟩⟩ := first
      · exact absurd mem_cons_self added.outside
      · rcases mem_cons.mp member with rfl | later
        · rcases found with ⟨rfl, _⟩ | ⟨top, up⟩
          · exact .inr (.inl ⟨rfl, .inl added⟩)
          · exact .inr (.inl ⟨rfl, .inr ⟨top, .inr ⟨d, added, up⟩⟩⟩)
        · exact .inr (.inr ⟨d, rest, added, onward, later, found⟩)
  · have extend {d : α} {path : List α} (added : New parents (c :: avoid) (more ++ [c]) (above parents c) d)
        (first : FirstPath parents (c :: avoid) (above parents c) path d) :
        New parents avoid met (before ++ [c]) d ∧ FirstPath parents avoid (before ++ [c]) (c :: path) d := by
      refine ⟨(split d).mpr (.inr (.inr added)), ?_⟩
      rw [firstPath_append_right (missed d (.inr added)), firstPath_singleton]
      have other : c ≠ d := fun same => added.outside (same ▸ mem_cons_self)
      exact ⟨added.2.2.leads outside, .inr ⟨other, path, rfl, first⟩⟩
    rintro (⟨d, path, old, first, member, found⟩ | ⟨rfl, below⟩ | ⟨d, path, added, first, member, found⟩)
    · exact ⟨d, path, (split d).mpr (.inl old), (firstPath_append_left old.2.2).mpr first, member, found⟩
    · rcases below with added | ⟨top, up | ⟨d, added, up⟩⟩
      · obtain ⟨path, first⟩ := paths b added
        obtain ⟨new, whole⟩ := extend added first
        have other : a ≠ b := fun same => added.outside (same ▸ mem_cons_self)
        exact ⟨b, a :: path, new, whole, mem_cons_self, .inl ⟨rfl, other⟩⟩
      · refine ⟨a, [a], (split a).mpr (.inr (.inl rfl)), ?_, mem_cons_self, .inr ⟨top, up⟩⟩
        rw [firstPath_append_right (missed a (.inl rfl)), firstPath_singleton]
        exact ⟨here, .inl ⟨rfl, rfl⟩⟩
      · obtain ⟨path, first⟩ := paths d added
        obtain ⟨new, whole⟩ := extend added first
        exact ⟨d, a :: path, new, whole, mem_cons_self, .inr ⟨top, up⟩⟩
    · obtain ⟨new, whole⟩ := extend added first
      exact ⟨d, c :: path, new, whole, mem_cons_of_mem _ member, found⟩

end Fresh

/-- What is found through a vertex of the one part is not found through a vertex of the other. -/
theorem through_apart (m : Met parents avoid met) (m' : Met parents (c :: avoid) (more ++ [c]))
    (checked : ∀ a, a ∈ more ↔ a ∈ met ∨ New parents avoid met before a) (fresh : c ∉ more) :
    (Through parents avoid met before a b → a ≠ c ∧ ¬Below parents (c :: avoid) (more ++ [c]) (above parents c) a) ∧
    (Through parents (c :: avoid) (more ++ [c]) (above parents c) a b → a ≠ c ∧ ¬Below parents avoid met before a) := by
  constructor
  · intro through
    have new := through.new m
    have member : a ∈ more := (checked a).mpr (.inr new)
    exact ⟨fun same => fresh (same ▸ member),
      fun below => (below.new new.1).2.1 (mem_append_left _ member)⟩
  · intro through
    have new := through.new m'
    refine ⟨fun same => new.2.1 (same ▸ by simp), fun below => ?_⟩
    exact new.2.1 (mem_append_left _ ((checked a).mpr (.inr (below.new new.1))))

section Steps

variable {enabled : α → Bool} {state found : List α × List α}

theorem Spec.append_met (m : Met parents avoid met) (spec : Spec parents enabled avoid met before state)
    (inside : c ∈ state.2) : Spec parents enabled avoid met (before ++ [c]) state := by
  have inner : Internal parents c := (m.extend spec.checked).inner c inside
  have known (a : α) (top : Internal parents a) (unmet : a ∉ met) (reach : Leads parents avoid c a) :
      From parents avoid before a := by
    rcases (spec.checked c).mp inside with old | new
    · exact absurd (m.leads reach old top) unmet
    · exact new.2.2.trans reach
  have below (a : α) : Below parents avoid met (before ++ [c]) a ↔ Below parents avoid met before a := by
    rw [below_append_known known, or_iff_left]
    rintro ⟨top, rfl⟩
    exact top inner
  constructor
  · intro a
    rw [spec.checked, new_append_known known]
  · exact fun a new => paths_append_known known new spec.paths
  · intro a
    simp only [spec.tops, below, through_append_known known]
  · simp only [spec.none, below]

variable [DecidableEq α]

theorem mem_addAll (names nodes : List α) : a ∈ names.foldl addNew nodes ↔ a ∈ nodes ∨ a ∈ names := by
  induction names generalizing nodes with
  | nil => simp
  | cons name names ih =>
    have first : a ∈ addNew nodes name ↔ a ∈ nodes ∨ a = name := by
      rw [addNew]
      split_ifs with inside
      · exact ⟨.inl, fun h => h.elim id fun same => same ▸ inside⟩
      · simp
    rw [foldl_cons, ih, first, mem_cons, or_assoc]

theorem addAll_eq_nil (names nodes : List α) : names.foldl addNew nodes = [] ↔ nodes = [] ∧ names = [] := by
  simp only [eq_nil_iff_forall_not_mem, mem_addAll, not_or, forall_and]

theorem Spec.append_top (m : Met parents avoid met) (spec : Spec parents enabled avoid met before state)
    (top : ¬Internal parents c) :
    Spec parents enabled avoid met (before ++ [c]) ((if enabled c then [c] else []).foldl addNew state.1, state.2) := by
  have known (a : α) (inner : Internal parents a) (_ : a ∉ met) (reach : Leads parents avoid c a) :
      From parents avoid before a :=
    absurd (reach.inner inner) top
  have below (a : α) : Below parents avoid met (before ++ [c]) a ↔ Below parents avoid met before a ∨ a = c := by
    rw [below_append_known known, and_iff_right_of_imp]
    exact fun same => same ▸ top
  have member (a : α) : a ∈ (if enabled c then [c] else []) ↔ a = c ∧ enabled c = true := by
    split_ifs with on <;> simp [on]
  constructor
  · intro a
    rw [spec.checked, new_append_known known]
  · exact fun a new => paths_append_known known new spec.paths
  · intro a
    simp only [mem_addAll, member, spec.tops, below, through_append_known known]
    by_cases same : a = c
    · have free (b : α) : ¬Through parents avoid met before a b :=
        fun through => top (same ▸ (through.new m).1)
      simp [same ▸ free, same]
    · simp [same]
  · have alone : (if enabled c then [c] else []) = [] ↔ enabled c = false := by
      split_ifs with on <;> simp [on]
    refine (addAll_eq_nil _ _).trans ?_
    simp only [spec.none, alone, below, or_imp, forall_and, forall_eq]

theorem Spec.append_fresh (m : Met parents avoid met) (spec : Spec parents enabled avoid met before state)
    (inner : Internal parents c) (fresh : c ∉ state.2)
    (sub : Spec parents enabled (c :: avoid) (state.2 ++ [c]) (above parents c) found) :
    Spec parents enabled avoid met (before ++ [c])
      ((if found.1.isEmpty && enabled c then [c] else found.1).foldl addNew state.1, found.2) := by
  have checked := spec.checked
  have outside : c ∉ avoid := fun on => fresh ((checked c).mpr (.inl (m.path c on)))
  have m' : Met parents (c :: avoid) (state.2 ++ [c]) := (m.extend checked).push inner
  have member (a : α) : a ∈ (if found.1.isEmpty && enabled c then [c] else found.1) ↔
      a ∈ found.1 ∨ a = c ∧ enabled c = true ∧ found.1 = [] := by
    split_ifs with alone
    · simp only [Bool.and_eq_true, List.isEmpty_iff] at alone
      simp [alone]
    · simp only [Bool.and_eq_true, List.isEmpty_iff] at alone
      tauto
  constructor
  · intro a
    rw [sub.checked, mem_append, mem_singleton, checked,
      new_append_fresh checked inner fresh outside, or_assoc, or_assoc]
  · intro a new
    rcases (new_append_fresh checked inner fresh outside).mp new with old | added
    · obtain ⟨path, first⟩ := spec.paths a old
      exact ⟨path, (firstPath_append_left old.2.2).mpr first⟩
    · have missed := missed_of_fresh checked inner fresh outside added
      simp only [firstPath_append_right missed, firstPath_singleton]
      have here : Leads parents avoid c c := ⟨outside, .refl⟩
      rcases added with rfl | added
      · exact ⟨[a], here, .inl ⟨rfl, rfl⟩⟩
      · obtain ⟨path, first⟩ := sub.paths a added
        have other : c ≠ a := fun same => added.outside (same ▸ mem_cons_self)
        exact ⟨c :: path, added.2.2.leads outside, .inr ⟨other, path, rfl, first⟩⟩
  · intro a
    simp only [mem_addAll, member, spec.tops, sub.tops, sub.none, below_append_fresh checked inner fresh outside,
      through_append_fresh checked inner fresh outside sub.paths]
    have apart (b : α) := through_apart (a := a) (b := b) m m' checked fresh
    by_cases same : a = c
    · subst same
      have before_ : ¬Below parents avoid met before a := fun below =>
        fresh ((checked a).mpr (.inr (below.new inner)))
      have after_ : ¬Below parents (a :: avoid) (state.2 ++ [a]) (above parents a) a := fun below =>
        (below.new inner).2.1 (by simp)
      simp only [before_, after_, false_and, false_or, or_false, true_and]
      grind only
    · grind only
  · have alone : (if found.1.isEmpty && enabled c then [c] else found.1) = [] ↔ found.1 = [] ∧ enabled c = false := by
      split_ifs with both
      · simp only [Bool.and_eq_true] at both
        simp [both]
      · simp only [Bool.and_eq_true, List.isEmpty_iff, not_and, Bool.not_eq_true] at both
        exact ⟨fun empty => ⟨empty, both empty⟩, fun h => h.1⟩
    refine (addAll_eq_nil _ _).trans ?_
    simp only [spec.none, alone, sub.none, below_append_fresh checked inner fresh outside, or_imp, forall_and,
      forall_eq]
    exact and_congr_right fun _ => and_comm

theorem fold_spec {find : α → List α → List α × List α} (m : Met parents avoid met)
    (leaf : ∀ c more, ¬Internal parents c → find c more = ([], more))
    (sub : ∀ c more, Met parents avoid more → met ⊆ more → Internal parents c → c ∉ more →
      Spec parents enabled (c :: avoid) (more ++ [c]) (above parents c) (find c more)) :
    Spec parents enabled avoid met starts (starts.foldl (visit enabled find) ([], met)) := by
  induction starts using List.reverseRecOn with
  | nil =>
    have new (a : α) : ¬New parents avoid met [] a := by simp [New, From]
    have below (a : α) : ¬Below parents avoid met [] a := by simp [Below, new]
    constructor
    · simp [new]
    · exact fun a h => absurd h (new a)
    · simp [below]
    · simp [below]
  | append_singleton before c ih =>
    rw [foldl_append, foldl_cons, foldl_nil, visit]
    generalize before.foldl (visit enabled find) ([], met) = state at ih ⊢
    split_ifs with inside
    · exact ih.append_met m inside
    by_cases inner : Internal parents c
    · have kept : met ⊆ state.2 := fun a old => (ih.checked a).mpr (.inl old)
      exact ih.append_fresh m inner inside (sub c state.2 (m.extend ih.checked) kept inner inside)
    · rw [leaf c _ inner]
      exact ih.append_top m inner

theorem search_of_not_inner (fuel : ℕ) (top : ¬Internal parents c) : search parents enabled fuel c met = ([], met) := by
  cases fuel with
  | zero => rfl
  | succ fuel =>
    have none : parents c = none := by simpa [Internal] using top
    rw [search, none]

theorem search_spec {vertices : List α} (all : ∀ a, Internal parents a → a ∈ vertices) (fuel : ℕ)
    (m : Met parents avoid met) (inner : Internal parents c) (fresh : c ∉ met)
    (enough : (vertices.filter (· ∉ met)).length ≤ fuel) :
    Spec parents enabled (c :: avoid) (met ++ [c]) (above parents c) (search parents enabled fuel c met) := by
  induction fuel generalizing avoid met c with
  | zero =>
    have fewer := length_unmet_lt (all c inner) fresh
    omega
  | succ fuel ih =>
    obtain ⟨up, found⟩ := Option.isSome_iff_exists.mp inner
    have step : search parents enabled (fuel + 1) c met =
        (above parents c).foldl (visit enabled (search parents enabled fuel)) ([], met ++ [c]) := by
      rw [search, above, found, Option.getD_some]
    rw [step]
    refine fold_spec (m.push inner) (fun d more top => search_of_not_inner fuel top) ?_
    intro d more m' kept inner' fresh'
    refine ih m' inner' fresh' ?_
    have less : (vertices.filter (· ∉ more)).length ≤ (vertices.filter (· ∉ met ++ [c])).length := by
      refine (monotone_filter_right vertices fun a missing => ?_).length_le
      simp only [decide_eq_true_eq] at missing ⊢
      exact fun old => missing (kept old)
    have fewer := length_unmet_lt (all c inner) fresh
    omega

end Steps

/-! ## What is above the root -/

theorem Leads.above (h : Leads parents avoid a b) : b = a ∨ Above parents b a := by
  obtain ⟨_, path⟩ := h
  induction path with
  | refl => exact .inl rfl
  | tail _ step ih =>
    rcases ih with rfl | further
    · exact .inr (.single step.1)
    · exact .inr (.head step.1 further)

theorem Above.leads (h : Above parents a b) : Leads parents [] b a := by
  induction h using TransGen.head_induction_on with
  | single up => exact ⟨not_mem_nil, .single ⟨up, not_mem_nil⟩⟩
  | head up _ ih => exact ⟨not_mem_nil, ih.2.tail ⟨up, not_mem_nil⟩⟩

theorem Through.above (h : Through parents avoid met starts a b) : Above parents b a := by
  obtain ⟨c, path, _, first, member, found⟩ := h
  rcases (first.on member).2.above with rfl | further
  · rcases found with ⟨rfl, other⟩ | ⟨_, up⟩
    · exact absurd rfl other
    · exact .single up
  · rcases found with ⟨rfl, _⟩ | ⟨_, up⟩
    · exact further
    · exact .head up further

theorem From.above (h : From parents [c] (above parents c) a) : Above parents a c := by
  obtain ⟨b, up, reach⟩ := h
  rcases reach.above with rfl | further
  · exact .single up
  · exact further.tail up

theorem below_root (inner : Internal parents c) :
    Below parents [c] [c] (above parents c) a ↔ a ≠ c ∧ Above parents a c := by
  have new (b : α) (top : Internal parents b) :
      New parents [c] [c] (above parents c) b ↔ b ≠ c ∧ Above parents b c := by
    constructor
    · rintro ⟨_, unmet, reached⟩
      exact ⟨fun same => unmet (mem_singleton.mpr same), reached.above⟩
    · rintro ⟨other, up⟩
      exact ⟨top, fun same => other (mem_singleton.mp same), up.leads.cut.resolve_left other⟩
  by_cases top : Internal parents a
  · rw [← new a top]
    exact ⟨fun below => below.new top, .inl⟩
  have other : a ≠ c := fun same => top (same ▸ inner)
  constructor
  · rintro (found | ⟨_, up | ⟨b, found, up⟩⟩)
    · exact absurd found.1 top
    · exact ⟨other, .single up⟩
    · exact ⟨other, .head up ((new b found.1).mp found).2⟩
  · rintro ⟨_, up⟩
    refine .inr ⟨top, ?_⟩
    rcases TransGen.head'_iff.mp up with ⟨b, step, rest⟩
    rcases reflTransGen_iff_eq_or_transGen.mp rest with rfl | further
    · exact .inl step
    by_cases same : b = c
    · exact .inl (same ▸ step)
    · have innerB := inner_of_above step
      exact .inr ⟨b, (new b innerB).mpr ⟨same, further⟩, step⟩

def Top (parents : α → Option (List α)) (enabled : α → Bool) (a : α) : Prop :=
  enabled a = true ∧ ∀ b, Above parents b a → enabled b = false

theorem Spec.tops_iff {enabled : α → Bool} {found : List α × List α} (inner : Internal parents c)
    (spec : Spec parents enabled [c] [c] (above parents c) found) :
    (∀ a, a ∈ found.1 ↔ Above parents a c ∧ Top parents enabled a) ↔ ∀ a, a ≠ c → Above parents a c → enabled a = true →
        (∃ b, Above parents b a ∧ enabled b = true) →
          ∃ b, enabled b = true ∧ Through parents [c] [c] (above parents c) a b := by
  simp only [spec.tops, below_root inner]
  constructor
  · intro tops a other up on ⟨b, further, on'⟩
    by_contra none
    have found_ := (tops a).mp ⟨⟨other, up⟩, on, fun d on'' through => none ⟨d, on'', through⟩⟩
    simp [found_.2.2 b further] at on'
  · intro through a
    constructor
    · rintro ⟨⟨other, up⟩, on, none⟩
      refine ⟨up, on, fun b further => ?_⟩
      by_contra on'
      obtain ⟨d, on'', onward⟩ := through a other up on ⟨b, further, by simpa using on'⟩
      exact none d on'' onward
    · rintro ⟨up, on, top⟩
      refine ⟨⟨?_, up⟩, on, fun b on' onward => ?_⟩
      · rintro rfl
        simp [top a up] at on
      · simp [top b onward.above] at on'

end N8n.TopSearch
