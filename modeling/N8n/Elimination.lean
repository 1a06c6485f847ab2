import Mathlib.Data.List.Induction
import Mathlib.Data.List.Nodup

/-! Vertices taken out of a graph whose edges leave by ports and enter by ports, one after
the other: what enters a vertex is led on by what leaves it. An edge from the vertex to
itself is both, so it leads edges on to the vertex that is being taken out, and those stay.
Away from the vertices taken out the edges are the walks through them, in whatever order
they went. At a vertex taken out the order is seen where a closed walk leaves or enters by
a port at which no edge leads back at once. -/

namespace N8n.Elimination

open List

variable {α ο ι : Type*}

/-- A walk whose vertices in between are inner ones; it leaves and enters by the ports given. -/
inductive Through (E : α → ο → α → ι → Prop) (inner : α → Prop) : α → ο → α → ι → Prop
  | edge {u o v i} : E u o v i → Through E inner u o v i
  | step {u o n j p v i} : Through E inner u o n j → inner n → E n p v i → Through E inner u o v i

namespace Through

variable {E : α → ο → α → ι → Prop} {inner more : α → Prop} {u v n : α} {o p : ο} {i j : ι}

theorem append (one : Through E inner u o n j) (through : inner n) (two : Through E inner n p v i) :
    Through E inner u o v i := by
  induction two with
  | edge last => exact one.step through last
  | step _ innerLast last ih => exact ih.step innerLast last

/-- Only vertices that an edge leaves matter. -/
theorem mono (weaker : ∀ n p v i, E n p v i → inner n → more n) (walk : Through E inner u o v i) :
    Through E more u o v i := by
  induction walk with
  | edge only => exact .edge only
  | step _ through last ih => exact ih.step (weaker _ _ _ _ last through) last

theorem cut (walk : Through E (fun x => inner x ∨ x = n) u o v i) :
    Through E inner u o v i ∨ ∃ j p, Through E inner u o n j ∧ Through E inner n p v i := by
  induction walk with
  | edge only => exact .inl (.edge only)
  | step _ through last ih =>
    rcases through with old | rfl
    · rcases ih with direct | ⟨j, p, before, after⟩
      · exact .inl (direct.step old last)
      · exact .inr ⟨j, p, before, after.step old last⟩
    · rcases ih with direct | ⟨j, _, before, _⟩
      · exact .inr ⟨_, _, direct, .edge last⟩
      · exact .inr ⟨j, _, before, .edge last⟩

theorem cut_iff : Through E (fun x => inner x ∨ x = n) u o v i ↔
    Through E inner u o v i ∨ ∃ j p, Through E inner u o n j ∧ Through E inner n p v i := by
  refine ⟨cut, ?_⟩
  have wider : ∀ {a b : α} {q : ο} {k : ι}, Through E inner a q b k → Through E (fun x => inner x ∨ x = n) a q b k :=
    fun walk => walk.mono fun _ _ _ _ _ => Or.inl
  rintro (direct | ⟨j, p, before, after⟩)
  · exact wider direct
  · exact (wider before).append (.inr rfl) (wider after)

theorem edge_of_none (walk : Through E (fun _ => False) u o v i) : E u o v i := by
  cases walk with
  | edge only => exact only
  | step _ impossible _ => exact impossible.elim

end Through

def eliminate (E : α → ο → α → ι → Prop) (n : α) : α → ο → α → ι → Prop := fun u o v i =>
  E u o v i ∧ u ≠ n ∧ v ≠ n ∨ ∃ j p, E u o n j ∧ E n p v i

def eliminateAll (E : α → ο → α → ι → Prop) (ns : List α) : α → ο → α → ι → Prop := ns.foldl eliminate E

theorem eliminateAll_append (E : α → ο → α → ι → Prop) (ns : List α) (n : α) :
    eliminateAll E (ns ++ [n]) = eliminate (eliminateAll E ns) n := by
  simp [eliminateAll]

variable {E : α → ο → α → ι → Prop} {inner : α → Prop} {ns ms : List α} {u v n : α} {o : ο} {i : ι}

theorem through_append : Through E (· ∈ ns ++ [n]) u o v i ↔
    Through E (· ∈ ns) u o v i ∨ ∃ j p, Through E (· ∈ ns) u o n j ∧ Through E (· ∈ ns) n p v i := by
  simp only [mem_append, mem_singleton, Through.cut_iff]

theorem ends_of_eliminateAll (edge : eliminateAll E ns u o v i) : (∃ w k, E u o w k) ∧ ∃ w p, E w p v i := by
  induction ns using List.reverseRecOn generalizing u o v i with
  | nil => exact ⟨⟨v, i, edge⟩, ⟨u, o, edge⟩⟩
  | append_singleton ns n ih =>
    rw [eliminateAll_append] at edge
    rcases edge with ⟨before, _, _⟩ | ⟨_, _, first, last⟩
    · exact ih before
    · exact ⟨(ih first).1, (ih last).2⟩

/-- Every port by which a closed walk leaves, or enters, is that of an edge back at once. -/
def Covered (E : α → ο → α → ι → Prop) (inner : α → Prop) : Prop :=
  ∀ n, inner n → ∀ o i, Through E inner n o n i → (∃ j, E n o n j) ∧ ∃ p, E n p n i

theorem Through.first (walk : Through E inner u o v i) : ∃ w k, E u o w k := by
  induction walk with
  | edge only => exact ⟨_, _, only⟩
  | step _ _ _ ih => exact ih

theorem Through.rank_lt (rank : α → ℕ) (increases : ∀ u o v i, E u o v i → rank u < rank v)
    (walk : Through E inner u o v i) : rank u < rank v := by
  induction walk with
  | edge only => exact increases _ _ _ _ only
  | step _ _ edge ih => exact Nat.lt_trans ih (increases _ _ _ _ edge)

/-- Edges that go up a rank make no closed walk. -/
theorem covered_of_rank (rank : α → ℕ) (increases : ∀ u o v i, E u o v i → rank u < rank v) : Covered E inner := by
  intro n _ o i walk
  exact absurd (walk.rank_lt rank increases) (Nat.lt_irrefl _)

/-- Only vertices that an edge leaves matter. -/
theorem covered_congr {more : α → Prop} (same : ∀ n p v i, E n p v i → (inner n ↔ more n)) :
    Covered E inner ↔ Covered E more := by
  constructor
  · intro covered n through o i walk
    obtain ⟨_, _, leaves⟩ := walk.first
    exact covered n ((same _ _ _ _ leaves).mpr through) o i (walk.mono fun m p v i edge => (same m p v i edge).mpr)
  · intro covered n through o i walk
    obtain ⟨_, _, leaves⟩ := walk.first
    exact covered n ((same _ _ _ _ leaves).mp through) o i (walk.mono fun m p v i edge => (same m p v i edge).mp)

/-- The port by which a walk starts is the one of the edge, unless the vertex is taken out. -/
def Leaves (E : α → ο → α → ι → Prop) (ns : List α) (u : α) (o start : ο) : Prop :=
  (u ∈ ns → ∃ j, E u o u j) ∧ (u ∉ ns → start = o)

def Enters (E : α → ο → α → ι → Prop) (ns : List α) (v : α) (i stop : ι) : Prop :=
  (v ∈ ns → ∃ p, E v p v i) ∧ (v ∉ ns → stop = i)

theorem leaves_append (other : u ≠ n) {start : ο} : Leaves E (ns ++ [n]) u o start ↔ Leaves E ns u o start := by
  simp [Leaves, other]

theorem enters_append (other : v ≠ n) {stop : ι} : Enters E (ns ++ [n]) v i stop ↔ Enters E ns v i stop := by
  simp [Enters, other]

/-- The edges that are there after vertices were taken out, where closed walks are covered. -/
def Left (E : α → ο → α → ι → Prop) (ns : List α) : α → ο → α → ι → Prop := fun u o v i =>
  ∃ start stop, Leaves E ns u o start ∧ Enters E ns v i stop ∧ Through E (· ∈ ns) u start v stop

theorem left_iff (us : u ∉ ns) (vs : v ∉ ns) : Left E ns u o v i ↔ Through E (· ∈ ns) u o v i := by
  simp [Left, Leaves, Enters, us, vs]

section

variable (covered : Covered E inner) (part : ∀ x ∈ ns, inner x)
include covered part

/-- A vertex that is not taken out yet has an edge to itself by a port exactly when it is covered. -/
theorem left_loop_out (through : inner n) (new : n ∉ ns) : (∃ j, Left E ns n o n j) ↔ ∃ j, E n o n j := by
  simp only [left_iff new new]
  constructor
  · rintro ⟨j, walk⟩
    exact (covered n through o j (walk.mono fun m _ _ _ _ => part m)).1
  · rintro ⟨j, loop⟩
    exact ⟨j, .edge loop⟩

theorem left_loop_in (through : inner n) (new : n ∉ ns) : (∃ p, Left E ns n p n i) ↔ ∃ p, E n p n i := by
  simp only [left_iff new new]
  constructor
  · rintro ⟨p, walk⟩
    exact (covered n through p i (walk.mono fun m _ _ _ _ => part m)).2
  · rintro ⟨p, loop⟩
    exact ⟨p, .edge loop⟩

omit covered part in
theorem left_to_new (new : n ∉ ns) {j : ι} :
    Left E ns u o n j ↔ ∃ start, Leaves E ns u o start ∧ Through E (· ∈ ns) u start n j := by
  simp [Left, Enters, new]

omit covered part in
theorem left_from_new (new : n ∉ ns) {p : ο} :
    Left E ns n p v i ↔ ∃ stop, Enters E ns v i stop ∧ Through E (· ∈ ns) n p v stop := by
  simp [Left, Leaves, new]

/-- One vertex more. At the vertex itself the edges back, led on by what leaves it or what
enters it, are the ones that stay. -/
theorem left_append (through : inner n) (new : n ∉ ns) :
    Left E (ns ++ [n]) u o v i ↔ eliminate (Left E ns) n u o v i := by
  have out := left_loop_out (o := o) covered part through new
  have back := left_loop_in (i := i) covered part through new
  have last : n ∈ ns ++ [n] := by simp
  by_cases leavesNew : u = n
  · subst leavesNew
    have leaves : ∀ start, Leaves E (ns ++ [u]) u o start ↔ ∃ j, E u o u j := by simp [Leaves]
    by_cases entersNew : v = u
    · subst entersNew
      have enters : ∀ stop, Enters E (ns ++ [v]) v i stop ↔ ∃ p, E v p v i := by simp [Enters]
      simp only [Left, leaves, enters, eliminate, ne_eq, not_true_eq_false, and_false, false_or]
      constructor
      · rintro ⟨_, _, loopOut, loopIn, _⟩
        obtain ⟨j, first⟩ := out.mpr loopOut
        obtain ⟨p, second⟩ := back.mpr loopIn
        exact ⟨j, p, first, second⟩
      · rintro ⟨j, p, first, second⟩
        obtain ⟨k, loop⟩ := out.mp ⟨j, first⟩
        exact ⟨o, k, ⟨k, loop⟩, back.mp ⟨p, second⟩, .edge loop⟩
    · simp only [eliminate, ne_eq, not_true_eq_false, false_and, and_false, false_or, left_from_new new]
      simp only [Left, leaves, enters_append entersNew, through_append]
      constructor
      · rintro ⟨start, stop, loopOut, enters, direct | ⟨j, p, _, after⟩⟩
        · obtain ⟨k, first⟩ := out.mpr loopOut
          exact ⟨k, start, (left_from_new new).mp first, stop, enters, direct⟩
        · obtain ⟨k, first⟩ := out.mpr loopOut
          exact ⟨k, p, (left_from_new new).mp first, stop, enters, after⟩
      · rintro ⟨j, p, first, stop, enters, walk⟩
        exact ⟨p, stop, out.mp ⟨j, (left_from_new new).mpr first⟩, enters, .inl walk⟩
  · by_cases entersNew : v = n
    · subst entersNew
      have enters : ∀ stop, Enters E (ns ++ [v]) v i stop ↔ ∃ p, E v p v i := by simp [Enters]
      simp only [eliminate, ne_eq, not_true_eq_false, and_false, false_or, left_to_new new]
      simp only [Left, enters, leaves_append leavesNew, through_append]
      constructor
      · rintro ⟨start, stop, leaves, loopIn, direct | ⟨j, p, before, _⟩⟩
        · obtain ⟨p, second⟩ := back.mpr loopIn
          exact ⟨stop, p, ⟨start, leaves, direct⟩, (left_to_new new).mp second⟩
        · obtain ⟨q, second⟩ := back.mpr loopIn
          exact ⟨j, q, ⟨start, leaves, before⟩, (left_to_new new).mp second⟩
      · rintro ⟨j, p, ⟨start, leaves, walk⟩, second⟩
        exact ⟨start, j, leaves, back.mp ⟨p, (left_to_new new).mpr second⟩, .inl walk⟩
    · simp only [eliminate, ne_eq, leavesNew, entersNew, not_false_eq_true, and_self, and_true,
        left_to_new new, left_from_new new]
      simp only [Left, leaves_append leavesNew, enters_append entersNew, through_append]
      constructor
      · rintro ⟨start, stop, leaves, enters, direct | ⟨j, p, before, after⟩⟩
        · exact .inl ⟨start, stop, leaves, enters, direct⟩
        · exact .inr ⟨j, p, ⟨start, leaves, before⟩, stop, enters, after⟩
      · rintro (⟨start, stop, leaves, enters, direct⟩ | ⟨j, p, ⟨start, leaves, before⟩, stop, enters, after⟩)
        · exact ⟨start, stop, leaves, enters, .inl direct⟩
        · exact ⟨start, stop, leaves, enters, .inr ⟨j, p, before, after⟩⟩

/-- Where closed walks are covered it is known which edges there are, at every vertex. -/
theorem eliminateAll_of_covered (distinct : ns.Nodup) : eliminateAll E ns u o v i ↔ Left E ns u o v i := by
  induction ns using List.reverseRecOn generalizing u o v i with
  | nil =>
    simp only [left_iff not_mem_nil not_mem_nil, not_mem_nil]
    exact ⟨.edge, Through.edge_of_none⟩
  | append_singleton ns n ih =>
    rw [nodup_append] at distinct
    have new : n ∉ ns := fun member => distinct.2.2 n member n mem_cons_self rfl
    have before : ∀ x ∈ ns, inner x := fun x member => part x (mem_append_left _ member)
    have same : eliminateAll E ns = Left E ns := by
      funext u o v i
      exact propext (ih before distinct.1)
    rw [left_append covered before (part n (by simp)) new, eliminateAll_append, same]

end

/-- Between vertices that stay the edges are the walks through those taken out. -/
theorem eliminateAll_iff (distinct : ns.Nodup) (us : u ∉ ns) (vs : v ∉ ns) :
    eliminateAll E ns u o v i ↔ Through E (· ∈ ns) u o v i := by
  induction ns using List.reverseRecOn generalizing u v o i with
  | nil =>
    simp only [not_mem_nil]
    exact ⟨.edge, Through.edge_of_none⟩
  | append_singleton ns n ih =>
    simp only [mem_append, mem_singleton, not_or] at us vs
    rw [nodup_append] at distinct
    have new : n ∉ ns := fun member => distinct.2.2 n member n mem_cons_self rfl
    rw [eliminateAll_append, through_append]
    simp only [eliminate, ih distinct.1 us.1 vs.1, ih distinct.1 us.1 new, ih distinct.1 new vs.1, ne_eq, us.2,
      vs.2, not_false_eq_true, and_self, and_true]

/-- An edge that is left at a vertex taken out tells that a walk leads back there and one on. -/
theorem walks_of_left (distinct : ns.Nodup) (us : u ∈ ns) (vs : v ∉ ns) (edge : eliminateAll E ns u o v i) :
    (∃ q j, Through E (· ∈ ns) u q u j) ∧ ∃ p, Through E (· ∈ ns) u p v i := by
  induction ns using List.reverseRecOn generalizing v i with
  | nil => cases us
  | append_singleton ns n ih =>
    simp only [mem_append, mem_singleton, not_or] at us vs
    rw [nodup_append] at distinct
    have new : n ∉ ns := fun member => distinct.2.2 n member n mem_cons_self rfl
    rw [eliminateAll_append] at edge
    have wider : ∀ {a b : α} {q : ο} {k : ι}, Through E (· ∈ ns) a q b k → Through E (· ∈ ns ++ [n]) a q b k :=
      fun walk => through_append.mpr (.inl walk)
    rcases edge with ⟨before, other, _⟩ | ⟨j, p, first, second⟩
    · obtain ⟨⟨q, k, back⟩, r, on⟩ := ih distinct.1 (us.resolve_right other) vs.1 before
      exact ⟨⟨q, k, wider back⟩, r, wider on⟩
    · have last := (eliminateAll_iff distinct.1 new vs.1).mp second
      by_cases same : u = n
      · subst same
        have loop := (eliminateAll_iff distinct.1 new new).mp first
        exact ⟨⟨o, j, wider loop⟩, p, wider last⟩
      · obtain ⟨⟨q, k, back⟩, r, on⟩ := ih distinct.1 (us.resolve_right same) new first
        exact ⟨⟨q, k, wider back⟩, r, through_append.mpr (.inr ⟨j, p, on, last⟩)⟩

/-- Where a walk leads back to a vertex taken out and one on to a vertex that stays, an edge to
the latter is left at one of the vertices taken out. -/
theorem exists_left (distinct : ns.Nodup) (inside : n ∈ ns) (vs : v ∉ ns) {q p : ο} {j : ι}
    (back : Through E (· ∈ ns) n q n j) (on : Through E (· ∈ ns) n p v i) :
    ∃ u ∈ ns, ∃ o, eliminateAll E ns u o v i := by
  induction ns using List.reverseRecOn generalizing n v q j p i with
  | nil => cases inside
  | append_singleton ns m ih =>
    simp only [mem_append, mem_singleton, not_or] at inside vs
    rw [nodup_append] at distinct
    have new : m ∉ ns := fun member => distinct.2.2 m member m mem_cons_self rfl
    rw [eliminateAll_append]
    -- the last vertex is on the closed walk or it is not
    by_cases onWalk : ∃ a b r, Through E (· ∈ ns) m a m b ∧ Through E (· ∈ ns) m r v i
    · obtain ⟨a, b, r, loop, last⟩ := onWalk
      exact ⟨m, by simp, a, .inr ⟨b, r, (eliminateAll_iff distinct.1 new new).mpr loop,
        (eliminateAll_iff distinct.1 new vs.1).mpr last⟩⟩
    rcases through_append.mp back with direct | ⟨b, a, into, outOf⟩
    · rcases inside with old | rfl
      · rcases through_append.mp on with straight | ⟨k, r, before, after⟩
        · obtain ⟨u, member, o, edge⟩ := ih distinct.1 old vs.1 direct straight
          have other : u ≠ m := fun same => new (same ▸ member)
          exact ⟨u, by simp [member], o, .inl ⟨edge, other, vs.2⟩⟩
        · obtain ⟨u, member, o, edge⟩ := ih distinct.1 old new direct before
          exact ⟨u, by simp [member], o, .inr ⟨k, r, edge, (eliminateAll_iff distinct.1 new vs.1).mpr after⟩⟩
      · refine absurd ?_ onWalk
        rcases through_append.mp on with straight | ⟨_, r, _, after⟩
        · exact ⟨q, j, p, direct, straight⟩
        · exact ⟨q, j, r, direct, after⟩
    · refine absurd ?_ onWalk
      have loop : ∃ c d, Through E (· ∈ ns) m c m d := by
        rcases inside with old | rfl
        · exact ⟨a, b, outOf.append old into⟩
        · exact ⟨q, b, into⟩
      obtain ⟨c, d, loop⟩ := loop
      rcases through_append.mp on with straight | ⟨_, r, _, after⟩
      · rcases inside with old | rfl
        · exact ⟨c, d, a, loop, outOf.append old straight⟩
        · exact ⟨c, d, p, loop, straight⟩
      · exact ⟨c, d, r, loop, after⟩

/-! ## The order -/

/-- What leaves the vertex that is taken out first leaves by a port of an edge back. -/
theorem leaves_first (edge : eliminateAll E (n :: ms) n o v i) : ∃ j, E n o n j := by
  induction ms using List.reverseRecOn generalizing v i with
  | nil =>
    rcases edge with ⟨_, elsewhere, _⟩ | ⟨j, _, loop, _⟩
    · exact absurd rfl elsewhere
    · exact ⟨j, loop⟩
  | append_singleton ms m ih =>
    rw [← cons_append, eliminateAll_append] at edge
    rcases edge with ⟨before, _, _⟩ | ⟨j, _, before, _⟩
    · exact ih before
    · exact ih before

theorem enters_first (edge : eliminateAll E (n :: ms) u o n i) : ∃ p, E n p n i := by
  induction ms using List.reverseRecOn generalizing u o with
  | nil =>
    rcases edge with ⟨_, _, elsewhere⟩ | ⟨_, p, _, loop⟩
    · exact absurd rfl elsewhere
    · exact ⟨p, loop⟩
  | append_singleton ms m ih =>
    rw [← cons_append, eliminateAll_append] at edge
    rcases edge with ⟨before, _, _⟩ | ⟨_, p, _, before⟩
    · exact ih before
    · exact ih before

/-- At the vertex that is taken out last every closed walk leaves an edge by its port. -/
theorem stays_last (distinct : ms.Nodup) (new : n ∉ ms) (walk : Through E (· ∈ ms ++ [n]) n o n i) :
    (∃ j, eliminateAll E (ms ++ [n]) n o n j) ∧ ∃ p, eliminateAll E (ms ++ [n]) n p n i := by
  have cut : (∃ j, Through E (· ∈ ms) n o n j) ∧ ∃ p, Through E (· ∈ ms) n p n i := by
    rcases through_append.mp walk with direct | ⟨j, p, before, after⟩
    · exact ⟨⟨i, direct⟩, ⟨o, direct⟩⟩
    · exact ⟨⟨j, before⟩, ⟨p, after⟩⟩
  obtain ⟨⟨j, out⟩, ⟨p, back⟩⟩ := cut
  rw [eliminateAll_append]
  have first := (eliminateAll_iff distinct new new).mpr out
  have last := (eliminateAll_iff distinct new new).mpr back
  exact ⟨⟨j, .inr ⟨j, o, first, first⟩⟩, ⟨p, .inr ⟨i, p, last, last⟩⟩⟩

theorem left_perm (perm : ms.Perm ns) : Left E ms = Left E ns := by
  funext u o v i
  simp only [Left, Leaves, Enters, perm.mem_iff]

/-- The order does not matter exactly when closed walks through the vertices are covered. -/
theorem eliminateAll_order_iff (distinct : ns.Nodup) :
    (∀ ms, ms.Perm ns → eliminateAll E ms = eliminateAll E ns) ↔ Covered E (· ∈ ns) := by
  constructor
  · intro same n member o i walk
    obtain ⟨before, after, rfl⟩ := append_of_mem member
    have first : (n :: (before ++ after)).Perm (before ++ n :: after) := perm_middle.symm
    have last : (before ++ after ++ [n]).Perm (before ++ n :: after) :=
      (perm_append_singleton n _).trans first
    obtain ⟨new, rest⟩ := nodup_cons.mp (first.nodup_iff.mpr distinct)
    have equal := (same _ last).trans (same _ first).symm
    have kept : Through E (· ∈ before ++ after ++ [n]) n o n i := by
      simpa only [last.mem_iff] using walk
    obtain ⟨⟨j, out⟩, ⟨p, back⟩⟩ := stays_last rest new kept
    rw [equal] at out back
    exact ⟨leaves_first out, enters_first back⟩
  · intro covered ms perm
    funext u o v i
    rw [eliminateAll_of_covered covered (fun _ => perm.mem_iff.mp) (perm.nodup_iff.mpr distinct),
      eliminateAll_of_covered covered (fun _ => id) distinct, left_perm perm]

end N8n.Elimination
