import N8n.TransitionSystem

/-! The subscriptions of a sync provider. `start` is suspended while `transport.connect()` is pending,
so that any number of its calls may wait, and each of them goes on for itself. -/

namespace N8n.SyncSubscriptions

open Option

/-- A subscription is known by the handle that ends it. `onUpdate` and `onReceive` are the subscriptions
of the provider that the document and the transport have. -/
structure Provider where
  syncing : Bool
  unsubscribeDoc : Option ℕ
  unsubscribeTransport : Option ℕ
  onUpdate : List ℕ
  onReceive : List ℕ
  handles : ℕ
  pending : ℕ
  deriving DecidableEq

inductive Event where
  | start
  /-- A `start` goes on. The initial state is encoded and sent, or this fails. -/
  | connected (sent : Bool)
  /-- The `connect` of a `start` fails. -/
  | rejected
  | stop
  deriving DecidableEq

namespace Provider

def initial : Provider := ⟨false, none, none, [], [], 0, 0⟩

def start (p : Provider) : Provider := if p.syncing then p else { p with pending := p.pending + 1 }

/-- What `start` does behind the await. -/
def connected (p : Provider) (sent : Bool) : Provider :=
  { syncing := p.syncing || sent
    unsubscribeDoc := some p.handles
    unsubscribeTransport := some p.handles
    onUpdate := p.onUpdate ++ [p.handles]
    onReceive := p.onReceive ++ [p.handles]
    handles := p.handles + 1
    pending := p.pending - 1 }

/-- `unsubscribe` is called if there is one. -/
def unsubscribed (subscriptions : List ℕ) : Option ℕ → List ℕ
  | none => subscriptions
  | some handle => subscriptions.filter (· ≠ handle)

def stop (p : Provider) : Provider :=
  if p.syncing then
    { p with
      syncing := false
      unsubscribeDoc := none
      unsubscribeTransport := none
      onUpdate := unsubscribed p.onUpdate p.unsubscribeDoc
      onReceive := unsubscribed p.onReceive p.unsubscribeTransport }
  else p

end Provider

/-- `stopped` is kept beside the provider: the last call has been `stop`. -/
structure Session where
  provider : Provider
  stopped : Bool
  deriving DecidableEq

def step (s : Session) : Event → Option Session
  | .start => some ⟨s.provider.start, false⟩
  | .connected sent => if s.provider.pending = 0 then none else some { s with provider := s.provider.connected sent }
  | .rejected =>
    if s.provider.pending = 0 then none
    else some { s with provider := { s.provider with pending := s.provider.pending - 1 } }
  | .stop => some ⟨s.provider.stop, true⟩

def system : TransitionSystem Session Event := ⟨⟨.initial, false⟩, step⟩

/-- One subscription of each kind at most, and none once `stop` has been called and `start` not again. -/
structure AtMostOne (s : Session) : Prop where
  doc : s.provider.onUpdate.length ≤ 1
  transport : s.provider.onReceive.length ≤ 1
  stopped : s.stopped = true → s.provider.onUpdate = [] ∧ s.provider.onReceive = []

def NoHandle (p : Provider) : Prop := p.unsubscribeDoc = none ∧ p.unsubscribeTransport = none

/-- A `start` goes on where no handle is held and no `stop` has come since the last `start`. `stop` is
called while syncing, or where there is nothing to stop. -/
def OneAtATime (s : Session) : Event → Prop
  | .start => True
  | .connected _ => NoHandle s.provider ∧ s.stopped = false
  | .rejected => True
  | .stop => s.provider.syncing = true ∨ NoHandle s.provider

structure Held (p : Provider) : Prop where
  doc : p.onUpdate = p.unsubscribeDoc.toList
  transport : p.onReceive = p.unsubscribeTransport.toList

namespace Held

variable {p : Provider}

theorem initial : Held .initial := ⟨rfl, rfl⟩

theorem noHandle_iff (held : Held p) : NoHandle p ↔ p.onUpdate = [] ∧ p.onReceive = [] := by
  rw [NoHandle, held.doc, held.transport, toList_eq_nil_iff, toList_eq_nil_iff]

theorem unsubscribed_eq_nil (handle : Option ℕ) : Provider.unsubscribed handle.toList handle = [] := by
  cases handle with
  | none => rfl
  | some handle => simp [Provider.unsubscribed]

theorem start (held : Held p) : Held p.start := by
  rw [Provider.start]
  split_ifs
  · exact held
  · exact ⟨held.doc, held.transport⟩

theorem connected (held : Held p) (free : NoHandle p) (sent : Bool) : Held (p.connected sent) := by
  obtain ⟨doc, transport⟩ := held.noHandle_iff.mp free
  exact ⟨by rw [Provider.connected, doc]; rfl, by rw [Provider.connected, transport]; rfl⟩

theorem stop_syncing (held : Held p) (syncing : p.syncing = true) :
    p.stop.onUpdate = [] ∧ p.stop.onReceive = [] ∧ NoHandle p.stop := by
  rw [Provider.stop, if_pos syncing]
  refine ⟨?_, ?_, rfl, rfl⟩
  · rw [held.doc]
    exact unsubscribed_eq_nil _
  · rw [held.transport]
    exact unsubscribed_eq_nil _

theorem stop (held : Held p) : Held p.stop := by
  by_cases syncing : p.syncing = true
  · obtain ⟨doc, transport, handleDoc, handleTransport⟩ := held.stop_syncing syncing
    exact ⟨by rw [doc, handleDoc]; rfl, by rw [transport, handleTransport]; rfl⟩
  · rw [Provider.stop, if_neg syncing]
    exact held

end Held

variable {s s' : Session} {e : Event}

theorem atMostOne_start (one : AtMostOne s) : AtMostOne ⟨s.provider.start, false⟩ := by
  refine ⟨?_, ?_, nofun⟩
  · rw [Provider.start]
    split_ifs
    · exact one.doc
    · exact one.doc
  · rw [Provider.start]
    split_ifs
    · exact one.transport
    · exact one.transport

section

variable (held : Held s.provider)
include held

theorem atMostOne_connected_iff (sent : Bool) :
    AtMostOne { s with provider := s.provider.connected sent } ↔ NoHandle s.provider ∧ s.stopped = false := by
  rw [held.noHandle_iff]
  constructor
  · intro one
    have doc := one.doc
    have transport := one.transport
    simp only [Provider.connected, List.length_append, List.length_singleton] at doc transport
    refine ⟨⟨List.eq_nil_of_length_eq_zero (by omega), List.eq_nil_of_length_eq_zero (by omega)⟩, ?_⟩
    refine Bool.eq_false_iff.mpr fun stopped => ?_
    exact List.append_ne_nil_of_right_ne_nil _ (List.cons_ne_nil _ _) (one.stopped stopped).1
  · rintro ⟨⟨doc, transport⟩, running⟩
    refine ⟨?_, ?_, fun stopped => absurd (running.symm.trans stopped) Bool.false_ne_true⟩
    · rw [Provider.connected, doc]
      exact Nat.le_refl 1
    · rw [Provider.connected, transport]
      exact Nat.le_refl 1

theorem atMostOne_stop_iff : AtMostOne ⟨s.provider.stop, true⟩ ↔ s.provider.syncing = true ∨ NoHandle s.provider := by
  by_cases syncing : s.provider.syncing = true
  · obtain ⟨doc, transport, -⟩ := held.stop_syncing syncing
    refine iff_of_true ⟨?_, ?_, fun _ => ⟨doc, transport⟩⟩ (.inl syncing)
    · rw [doc]
      exact Nat.zero_le 1
    · rw [transport]
      exact Nat.zero_le 1
  · rw [Provider.stop, if_neg syncing, or_iff_right syncing, held.noHandle_iff]
    refine ⟨fun one => one.stopped rfl, fun nothing => ⟨?_, ?_, fun _ => nothing⟩⟩
    · rw [nothing.1]
      exact Nat.zero_le 1
    · rw [nothing.2]
      exact Nat.zero_le 1

theorem atMostOne_step_iff (one : AtMostOne s) (taken : system.step s e = some s') : AtMostOne s' ↔ OneAtATime s e := by
  cases e with
  | start =>
    cases taken
    exact iff_of_true (atMostOne_start one) trivial
  | connected sent =>
    obtain ⟨-, same⟩ := ite_none_left_eq_some.mp taken
    cases same
    exact atMostOne_connected_iff held sent
  | rejected =>
    obtain ⟨-, same⟩ := ite_none_left_eq_some.mp taken
    cases same
    exact iff_of_true ⟨one.doc, one.transport, one.stopped⟩ trivial
  | stop =>
    cases taken
    exact atMostOne_stop_iff held

theorem Held.step (one : AtMostOne s') (taken : system.step s e = some s') : Held s'.provider := by
  cases e with
  | start =>
    cases taken
    exact held.start
  | connected sent =>
    obtain ⟨-, same⟩ := ite_none_left_eq_some.mp taken
    cases same
    exact held.connected ((atMostOne_connected_iff held sent).mp one).1 sent
  | rejected =>
    obtain ⟨-, same⟩ := ite_none_left_eq_some.mp taken
    cases same
    exact ⟨held.doc, held.transport⟩
  | stop =>
    cases taken
    exact held.stop

end

theorem atMostOne_init : AtMostOne system.init := ⟨Nat.zero_le 1, Nat.zero_le 1, fun _ => ⟨rfl, rfl⟩⟩

/-- Through a run there is at most one subscription, and none is left after `stop`, exactly when its
steps are one at a time. -/
theorem atMostOne_iff (events : List Event) :
    system.AllStates AtMostOne system.init events ↔ system.AllSteps OneAtATime system.init events :=
  TransitionSystem.allStates_iff_allSteps (I := fun s => Held s.provider)
    (fun _ _ _ held _ one taken => held.step one taken) (fun _ _ _ held one taken => atMostOne_step_iff held one taken)
    atMostOne_init .initial events

/-- Two calls of `start` are pending at once: both subscribe. -/
theorem twice_started : ¬system.AllStates AtMostOne system.init [.start, .start, .connected true, .connected true] := by
  intro all
  have last := ((((all.2 _ rfl).2 _ rfl).2 _ rfl).2 _ rfl).doc
  exact absurd last (by decide)

/-- `stop` while `start` is pending does nothing. -/
example : (system.run [.start, .stop, .connected true]).map (fun s => (s.stopped, s.provider.onUpdate)) =
    some (true, [0]) := rfl

end N8n.SyncSubscriptions
