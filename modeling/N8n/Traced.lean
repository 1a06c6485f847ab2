import Mathlib.Data.List.Basic

/-! Computations that carry a state, may fail and leave a trace of events. A failed
computation keeps the state it has reached. The rules below compare two runs of one
computation from related states, as long as the events of the run are acceptable. -/

namespace N8n.Traced

structure Outcome (σ ω ε α : Type*) where
  result : Except ε α
  state : σ
  events : List ω

def Comp (σ ω ε α : Type*) := σ → Outcome σ ω ε α

namespace Comp

variable {σ ω ε : Type*} {α β : Type}

protected def pure (value : α) : Comp σ ω ε α := fun s => ⟨.ok value, s, []⟩

protected def bind (first : Comp σ ω ε α) (next : α → Comp σ ω ε β) : Comp σ ω ε β := fun s =>
  let before := first s
  match before.result with
  | .error error => ⟨.error error, before.state, before.events⟩
  | .ok value =>
    let after := next value before.state
    ⟨after.result, after.state, before.events ++ after.events⟩

instance : Monad (Comp σ ω ε) where
  pure := Comp.pure
  bind := Comp.bind

def throw (error : ε) : Comp σ ω ε α := fun s => ⟨.error error, s, []⟩

def reject (condition : Prop) [Decidable condition] (error : ε) : Comp σ ω ε Unit :=
  if condition then throw error else pure ()

def emit (event : ω) : Comp σ ω ε Unit := fun s => ⟨.ok (), s, [event]⟩

/-- A value that depends on the state. -/
def read (view : σ → α) : Comp σ ω ε α := fun s => ⟨.ok (view s), s, []⟩

def update (change : σ → σ) : Comp σ ω ε Unit := fun s => ⟨.ok (), change s, []⟩

def mapList (each : α → Comp σ ω ε β) : List α → Comp σ ω ε (List β)
  | [] => pure []
  | first :: rest => do
    let value ← each first
    let values ← mapList each rest
    pure (value :: values)

theorem pure_def (value : α) (s : σ) : (pure value : Comp σ ω ε α) s = ⟨.ok value, s, []⟩ := rfl

theorem bind_def (first : Comp σ ω ε α) (next : α → Comp σ ω ε β) :
    first >>= next = Comp.bind first next := rfl

end Comp

/-- How two runs are compared: the relation of their states, which events are acceptable
and what acceptable events have to satisfy. -/
structure Setting (σ ω : Type*) where
  rel : σ → σ → Prop
  ok : ω → Prop
  claim : ω → Prop

/-- From related states the computation goes the same way. -/
def Stable {σ ω ε α : Type*} (setting : Setting σ ω) (good : α → Prop) (comp : Comp σ ω ε α) : Prop :=
  ∀ s t, setting.rel s t → (∀ event ∈ (comp s).events, setting.ok event) →
    (comp t).result = (comp s).result ∧ (comp t).events = (comp s).events ∧
      setting.rel (comp s).state (comp t).state ∧ (∀ event ∈ (comp s).events, setting.claim event) ∧
      ∀ value, (comp s).result = .ok value → good value

namespace Stable

variable {σ ω ε : Type*} {α β : Type} {setting : Setting σ ω} {good : α → Prop} {better : β → Prop}

theorem pure {value : α} (isGood : good value) : Stable setting good (Pure.pure value : Comp σ ω ε α) := by
  intro s t related _
  refine ⟨rfl, rfl, related, by simp [Comp.pure_def], ?_⟩
  intro other same
  cases same
  exact isGood

theorem throw (error : ε) : Stable setting good (Comp.throw error : Comp σ ω ε α) :=
  fun _ _ related _ => ⟨rfl, rfl, related, by simp [Comp.throw], by simp [Comp.throw]⟩

theorem reject (condition : Prop) [Decidable condition] (error : ε) :
    Stable setting (fun _ => ¬condition) (Comp.reject condition error : Comp σ ω ε Unit) := by
  unfold Comp.reject
  split
  · exact .throw error
  · exact .pure ‹_›

theorem emit {event : ω} (claimed : setting.ok event → setting.claim event) :
    Stable setting (fun _ => setting.ok event) (Comp.emit event : Comp σ ω ε Unit) := by
  intro s t related acceptable
  have isOk : setting.ok event := acceptable event List.mem_cons_self
  refine ⟨rfl, rfl, related, ?_, fun _ _ => isOk⟩
  intro other member
  rw [List.mem_singleton.mp member]
  exact claimed isOk

theorem read {view : σ → α} (same : ∀ s t, setting.rel s t → view t = view s ∧ good (view s)) :
    Stable setting good (Comp.read view : Comp σ ω ε α) := by
  intro s t related _
  refine ⟨congrArg Except.ok (same s t related).1, rfl, related, by simp [Comp.read], ?_⟩
  intro value found
  cases found
  exact (same s t related).2

theorem update {change : σ → σ} (keeps : ∀ s t, setting.rel s t → setting.rel (change s) (change t)) :
    Stable setting (fun _ => True) (Comp.update change : Comp σ ω ε Unit) :=
  fun s t related _ => ⟨rfl, rfl, keeps s t related, by simp [Comp.update], fun _ _ => trivial⟩

theorem mono {other : α → Prop} {comp : Comp σ ω ε α} (stable : Stable setting good comp)
    (weaker : ∀ value, good value → other value) : Stable setting other comp := by
  intro s t related acceptable
  obtain ⟨result, events, states, claims, isGood⟩ := stable s t related acceptable
  exact ⟨result, events, states, claims, fun value found => weaker value (isGood value found)⟩

theorem bind {first : Comp σ ω ε α} {next : α → Comp σ ω ε β} (stable : Stable setting good first)
    (stableNext : ∀ value, good value → Stable setting better (next value)) :
    Stable setting better (first >>= next) := by
  intro s t related acceptable
  simp only [Comp.bind_def, Comp.bind] at acceptable ⊢
  cases result : (first s).result with
  | error error =>
    simp only [result] at acceptable ⊢
    obtain ⟨sameResult, sameEvents, states, claims, _⟩ := stable s t related acceptable
    rw [result] at sameResult
    simp only [sameResult]
    exact ⟨trivial, sameEvents, states, claims, by simp⟩
  | ok value =>
    simp only [result] at acceptable ⊢
    obtain ⟨sameResult, sameEvents, states, claims, isGood⟩ := stable s t related fun event member =>
      acceptable event (List.mem_append_left _ member)
    rw [result] at sameResult
    obtain ⟨result₂, events₂, states₂, claims₂, isBetter⟩ :=
      stableNext value (isGood value result) _ _ states fun event member =>
        acceptable event (List.mem_append_right _ member)
    simp only [sameResult]
    refine ⟨result₂, by rw [sameEvents, events₂], states₂, ?_, isBetter⟩
    intro event member
    rcases List.mem_append.mp member with early | late
    · exact claims event early
    · exact claims₂ event late

theorem ite {condition : Prop} [Decidable condition] {yes no : Comp σ ω ε α}
    (stableYes : condition → Stable setting good yes) (stableNo : ¬condition → Stable setting good no) :
    Stable setting good (if condition then yes else no) := by
  split
  · exact stableYes ‹_›
  · exact stableNo ‹_›

theorem mapList {each : α → Comp σ ω ε β} (stable : ∀ value, Stable setting better (each value)) (list : List α) :
    Stable setting (fun values => ∀ value ∈ values, better value) (Comp.mapList each list) := by
  induction list with
  | nil => exact .pure (by simp)
  | cons first rest ih =>
    refine (stable first).bind fun value isGood => ih.bind fun values areGood => .pure ?_
    simpa using ⟨isGood, areGood⟩

end Stable

def Yields {σ ω ε α : Type*} (comp : Comp σ ω ε α) (s : σ) (value : α) (t : σ) : Prop :=
  (comp s).result = .ok value ∧ (comp s).state = t

namespace Yields

variable {σ ω ε : Type*} {α β : Type} {s t u : σ}

theorem pure (value : α) (s : σ) : Yields (Pure.pure value : Comp σ ω ε α) s value s := ⟨rfl, rfl⟩

theorem bind {first : Comp σ ω ε α} {next : α → Comp σ ω ε β} {value : α} {result : β}
    (yields : Yields first s value t) (yieldsNext : Yields (next value) t result u) :
    Yields (first >>= next) s result u := by
  obtain ⟨found, reached⟩ := yields
  simp only [Yields, Comp.bind_def, Comp.bind, found, reached]
  exact yieldsNext

theorem emit (event : ω) (s : σ) : Yields (Comp.emit event : Comp σ ω ε Unit) s () s := ⟨rfl, rfl⟩

theorem read (view : σ → α) (s : σ) : Yields (Comp.read view : Comp σ ω ε α) s (view s) s := ⟨rfl, rfl⟩

theorem update (change : σ → σ) (s : σ) : Yields (Comp.update change : Comp σ ω ε Unit) s () (change s) := ⟨rfl, rfl⟩

theorem reject {condition : Prop} [Decidable condition] (error : ε) (passes : ¬condition) (s : σ) :
    Yields (Comp.reject condition error : Comp σ ω ε Unit) s () s := by
  rw [Comp.reject, if_neg passes]
  exact .pure () s

theorem mapList_cons {each : α → Comp σ ω ε β} {first : α} {rest : List α} {value : β} {values : List β}
    (yields : Yields (each first) s value t) (yieldsRest : Yields (Comp.mapList each rest) t values u) :
    Yields (Comp.mapList each (first :: rest)) s (value :: values) u :=
  yields.bind (yieldsRest.bind (.pure _ u))

end Yields

def Fails {σ ω ε α : Type*} (comp : Comp σ ω ε α) (s : σ) : Prop := ∃ error, (comp s).result = .error error

namespace Fails

variable {σ ω ε : Type*} {α β : Type} {s t : σ} {first : Comp σ ω ε α}

theorem throw (error : ε) (s : σ) : Fails (Comp.throw error : Comp σ ω ε α) s := ⟨error, rfl⟩

theorem bind (fails : Fails first s) (next : α → Comp σ ω ε β) : Fails (first >>= next) s := by
  obtain ⟨error, failed⟩ := fails
  refine ⟨error, ?_⟩
  simp only [Comp.bind_def, Comp.bind, failed]

theorem bind_next {next : α → Comp σ ω ε β} {value : α}
    (yields : Yields first s value t) (fails : Fails (next value) t) : Fails (first >>= next) s := by
  obtain ⟨found, reached⟩ := yields
  simpa only [Fails, Comp.bind_def, Comp.bind, found, reached] using fails

end Fails

end N8n.Traced
