import N8n.ObjectGraph

/-! Copies that are made cell after cell behind the source in one heap. A copy is made empty and its
fields are put into it one after the other; what the copies are like at the end follows from what
each of these steps adds. -/

namespace N8n.Utils

open ObjectGraph List Option

variable {P : Type*}

structure Store (P : Type*) where
  heap : Heap String P
  prototypes : OrderedMap ℕ ℕ

namespace Store

def chain (prototypes : OrderedMap ℕ ℕ) : ℕ → ℕ → List ℕ
  | 0, _ => []
  | fuel + 1, a => a :: ((prototypes.get a).map (chain prototypes fuel)).getD []

def allocate (store : Store P) (isArray : Bool) : Store P :=
  { store with heap := store.heap ++ [.blank isArray] }

/-- An assignment to `__proto__` makes no field but sets the prototype, unless that is a primitive;
`none` where the prototypes would run into a cycle. -/
def assign (store : Store P) (a : ℕ) (k : Key String) (v : Value P) : Option (Store P) :=
  if k = .name "__proto__" then
    match v with
    | .prim _ => some store
    | .ref prototype =>
      if a ∈ chain store.prototypes store.heap.length prototype then none
      else some { store with prototypes := store.prototypes.set a prototype }
  else some { store with heap := store.heap.modify a (·.set k v) }

end Store

def protoKey : Key String := .name "__proto__"

def NoProto (g : Graph String P) : Prop := ∀ a, g.Reachable a → read g.heap a protoKey = none

namespace Store

variable {store next : Store P} {a : ℕ} {k : Key String} {v : Value P}

theorem assign_eq_some (assigned : store.assign a k v = some next) :
    (k = protoKey ∧ next.heap = store.heap) ∨ (k ≠ protoKey ∧ next.heap = store.heap.modify a (·.set k v)) := by
  unfold Store.assign at assigned
  split_ifs at assigned with proto
  · refine .inl ⟨proto, ?_⟩
    cases v with
    | prim value => rw [← some.inj assigned]
    | ref prototype =>
      dsimp only at assigned
      split_ifs at assigned
      rw [← some.inj assigned]
  · exact .inr ⟨proto, by rw [← some.inj assigned]⟩

theorem assign_proper (store : Store P) (a : ℕ) (v : Value P) (proper : k ≠ protoKey) :
    store.assign a k v = some ⟨store.heap.modify a (·.set k v), store.prototypes⟩ := by
  unfold Store.assign
  rw [if_neg (show ¬k = .name "__proto__" from proper)]

theorem length_assign (assigned : store.assign a k v = some next) : next.heap.length = store.heap.length := by
  rcases assign_eq_some assigned with ⟨-, same⟩ | ⟨-, set_⟩
  · rw [same]
  · rw [set_, length_modify]

theorem isCell_assign {kinds : Bool → Bool} {b : ℕ} (assigned : store.assign a k v = some next) :
    IsCell kinds next.heap b ↔ IsCell kinds store.heap b := by
  rcases assign_eq_some assigned with ⟨-, same⟩ | ⟨-, set_⟩
  · rw [same]
  · rw [set_, isCell_modify]

end Store

/-- The source lies below `base` and refers to itself; the copies refer to copies. -/
structure Apart (base : ℕ) (heap : Heap String P) : Prop where
  length : base ≤ heap.length
  source : ∀ a k b, a < base → read heap a k = some (.ref b) → b < base
  copies : ∀ a k b, base ≤ a → read heap a k = some (.ref b) → base ≤ b ∧ b < heap.length

/-- The cells from `start` on are new. They have no field `__proto__`, and each cell of these kinds from
`first` on is referred to in one place at most. -/
structure Made (kinds : Bool → Bool) (start first : ℕ) (old new : Heap String P) : Prop where
  same : ∀ a, a < start → new[a]? = old[a]?
  length : first ≤ new.length
  plain : ∀ a, start ≤ a → read new a protoKey = none
  later : ∀ a k b, start ≤ a → read new a k = some (.ref b) → IsCell kinds new b → first ≤ b
  once : ∀ b, first ≤ b → IsCell kinds new b → ∀ a k a' k', read new a k = some (.ref b) →
    read new a' k' = some (.ref b) → a = a' ∧ k = k'

/-- A copy that is still to be put into its place. -/
def Loose (kinds : Bool → Bool) (base first : ℕ) (heap : Heap String P) (w : Value P) : Prop :=
  ∀ b, w = .ref b → base ≤ b ∧ b < heap.length ∧
    (IsCell kinds heap b → first ≤ b ∧ ∀ a k, read heap a k ≠ some (.ref b))

section Copies

variable {kinds : Bool → Bool} {base start first : ℕ} {source heap heap' : Heap String P} {store next : Store P}
  {w : Value P} {k : Key String}

theorem Loose.mono {lower : ℕ} (loose : Loose kinds base first heap w) (le : lower ≤ first) :
    Loose kinds base lower heap w := fun b same =>
  ⟨(loose b same).1, (loose b same).2.1, fun cell =>
    ⟨Nat.le_trans le ((loose b same).2.2 cell).1, ((loose b same).2.2 cell).2⟩⟩

theorem Made.trans (apart : Apart base heap) (above : base ≤ start) (one : Made kinds start (start + 1) source heap)
    (two : Made kinds heap.length heap.length heap heap') : Made kinds start (start + 1) source heap' where
  same a before := (two.same a (by have := one.length; omega)).trans (one.same a before)
  length := Nat.le_trans one.length two.length
  plain a from_ := by
    rcases Nat.lt_or_ge a heap.length with old | new
    · rw [read_congr (two.same a old)]
      exact one.plain a from_
    · exact two.plain a new
  later a k b from_ field cell := by
    rcases Nat.lt_or_ge a heap.length with old | new
    · rw [read_congr (two.same a old)] at field
      have inside := (apart.copies a k b (by omega) field).2
      exact one.later a k b from_ field ((isCell_congr (two.same b inside)).mp cell)
    · exact Nat.le_trans one.length (two.later a k b new field cell)
  once b from_ cell a k a' k' field field' := by
    rcases Nat.lt_or_ge b heap.length with old | new
    · have before : ∀ a k, read heap' a k = some (.ref b) → read heap a k = some (.ref b) := by
        intro a k field
        rcases Nat.lt_or_ge a heap.length with inside | outside
        · rwa [read_congr (two.same a inside)] at field
        · have := two.later a k b outside field cell
          omega
      exact one.once b from_ ((isCell_congr (two.same b old)).mp cell) a k a' k' (before a k field) (before a' k' field')
    · exact two.once b new cell a k a' k' field field'

theorem Apart.assign (apart : Apart base store.heap) (above : base ≤ start)
    (loose : Loose kinds base first store.heap w) (assigned : store.assign start k w = some next) :
    Apart base next.heap := by
  have length := Store.length_assign assigned
  rcases Store.assign_eq_some assigned with ⟨-, same⟩ | ⟨-, set_⟩
  · rwa [same]
  · refine ⟨length ▸ apart.length, fun a k b below field => ?_, fun a k b copy field => ?_⟩
    · rw [set_] at field
      rcases read_modify field with ⟨rfl, -⟩ | old
      · omega
      · exact apart.source a k b below old
    · rw [length]
      rw [set_] at field
      rcases read_modify field with ⟨rfl, same, -⟩ | old
      · exact ⟨(loose b same.symm).1, (loose b same.symm).2.1⟩
      · exact apart.copies a k b copy old

theorem Made.assign (made : Made kinds start (start + 1) source store.heap)
    (loose : Loose kinds base (start + 1) store.heap w) (assigned : store.assign start k w = some next) :
    Made kinds start (start + 1) source next.heap := by
  have cells : ∀ b, IsCell kinds next.heap b ↔ IsCell kinds store.heap b := fun b => Store.isCell_assign assigned
  rcases Store.assign_eq_some assigned with ⟨-, same⟩ | ⟨proper, set_⟩
  · rwa [same]
  · have cases_ : ∀ {a k' b}, read next.heap a k' = some (.ref b) →
        (a = start ∧ w = .ref b ∧ ∃ cell, store.heap[start]? = some cell ∧ k' = cell.slot k) ∨
          read store.heap a k' = some (.ref b) := by
      intro a k' b field
      rw [set_] at field
      exact (read_modify field).imp_left fun ⟨here, same, place⟩ => ⟨here, same.symm, place⟩
    refine ⟨fun a before => ?_, ?_, fun a from_ => ?_, fun a k' b from_ field cell => ?_,
      fun b from_ cell a k' a' k'' field field' => ?_⟩
    · have different : start ≠ a := by omega
      rw [set_, getElem?_modify_ne _ _ different]
      exact made.same a before
    · rw [set_, length_modify]
      exact made.length
    · refine eq_none_iff_forall_ne_some.mpr fun v found => ?_
      rw [set_] at found
      rcases read_modify found with ⟨-, -, cell, -, place⟩ | old
      · exact proper (Cell.slot_eq_name.mp place.symm)
      · exact some_ne_none _ (old.symm.trans (made.plain a from_))
    · rcases cases_ field with ⟨-, same, -⟩ | old
      · exact ((loose b same).2.2 ((cells b).mp cell)).1
      · exact made.later a k' b from_ old ((cells b).mp cell)
    · have alone : w = .ref b → ∀ a k, read store.heap a k ≠ some (.ref b) :=
        fun same => ((loose b same).2.2 ((cells b).mp cell)).2
      rcases cases_ field with ⟨rfl, same, here, found, place⟩ | old
      · rcases cases_ field' with ⟨rfl, -, here', found', place'⟩ | old'
        · obtain rfl : here = here' := some.inj (found.symm.trans found')
          exact ⟨rfl, place.trans place'.symm⟩
        · exact (alone same a' k'' old').elim
      · rcases cases_ field' with ⟨-, same, -⟩ | old'
        · exact (alone same a k' old).elim
        · exact made.once b from_ ((cells b).mp cell) a k' a' k'' old old'

theorem Apart.blank (apart : Apart base heap) (isArray : Bool) : Apart base (heap ++ [.blank isArray]) where
  length := by
    have := apart.length
    rw [length_append]
    omega
  source a k b below field := by
    rw [read_blank] at field
    exact apart.source a k b below field
  copies a k b copy field := by
    rw [read_blank] at field
    obtain ⟨copy', inside⟩ := apart.copies a k b copy field
    rw [length_append]
    exact ⟨copy', by omega⟩

theorem Made.refl (heap : Heap String P) : Made kinds heap.length heap.length heap heap where
  same _ _ := rfl
  length := Nat.le_refl _
  plain _ from_ := read_eq_none from_ _
  later _ _ _ from_ field := by
    rw [read_eq_none from_] at field
    cases field
  once _ from_ cell := absurd cell.lt (by omega)

theorem Made.blank (heap : Heap String P) (isArray : Bool) :
    Made kinds heap.length (heap.length + 1) heap (heap ++ [.blank isArray]) where
  same _ before := getElem?_append_left before
  length := by simp
  plain _ from_ := (read_blank _ _ _ _).trans (read_eq_none from_ _)
  later a k b from_ field := by
    rw [read_blank, read_eq_none from_] at field
    cases field
  once b from_ cell := by
    have inside := cell.lt
    rw [length_append, length_singleton] at inside
    omega

/-- Nothing refers to the copy before it is returned. -/
theorem Made.leave (apart : Apart base heap) (made : Made kinds heap.length (heap.length + 1) heap heap') :
    Made kinds heap.length heap.length heap heap' ∧ Loose kinds base heap.length heap' (.ref heap.length) := by
  have above := apart.length
  have alone : IsCell kinds heap' heap.length → ∀ a k, read heap' a k ≠ some (.ref heap.length) := by
    intro cell a k field
    rcases Nat.lt_or_ge a heap.length with old | new
    · rw [read_congr (made.same a old)] at field
      rcases Nat.lt_or_ge a base with below | copy
      · have := apart.source a k _ below field
        omega
      · exact Nat.lt_irrefl _ (apart.copies a k _ copy field).2
    · have := made.later a k _ new field cell
      omega
  refine ⟨⟨made.same, Nat.le_trans (Nat.le_succ _) made.length, made.plain, fun a k b from_ field cell =>
    Nat.le_trans (Nat.le_succ _) (made.later a k b from_ field cell), fun b from_ cell a k a' k' field field' => ?_⟩,
    fun b same => ?_⟩
  · rcases Nat.eq_or_lt_of_le from_ with rfl | later
    · exact (alone cell a k field).elim
    · exact made.once b later cell a k a' k' field field'
  · cases same
    exact ⟨above, made.length, fun cell => ⟨Nat.le_refl _, alone cell⟩⟩

end Copies

/-! ## The source -/

variable {g : Graph String P} {v : Value P}

/-- The cells that a nested call came through, the innermost first. -/
def Ancestors (g : Graph String P) : List ℕ → Value P → Prop
  | [], v => v = g.root
  | a :: rest, v => (∃ k, read g.heap a k = some v) ∧ Ancestors g rest (.ref a)

theorem Ancestors.reachable {path : List ℕ} {a : ℕ} (ancestors : Ancestors g path (.ref a)) : g.Reachable a := by
  induction path generalizing a with
  | nil => exact ⟨a, ancestors.symm, .refl⟩
  | cons b rest ih =>
    obtain ⟨⟨k, field⟩, further⟩ := ancestors
    exact (ih further).step field

theorem Ancestors.drop {path rest : List ℕ} {a : ℕ} (ancestors : Ancestors g (path ++ a :: rest) v) :
    Ancestors g rest (.ref a) := by
  induction path generalizing v with
  | nil => exact ancestors.2
  | cons b path ih => exact ih ancestors.2

theorem apart_graph (g : Graph String P) : Apart g.heap.length g.heap where
  length := Nat.le_refl _
  source a k b _ field := g.closed a k b field
  copies a k b copy field := by
    rw [read_eq_none copy] at field
    cases field

end N8n.Utils
