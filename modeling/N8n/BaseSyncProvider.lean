import N8n.UpdateEngine
import N8n.TransitionSystem
import Mathlib.Logic.Function.Basic
import Mathlib.Data.Finset.Insert
import Mathlib.Data.Finset.Lattice.Basic

/-! Two sync providers joined by a transport. Each side holds a document, the state
of its transport and the messages on their way to it; a message is given to the
handlers that are subscribed when it is delivered. `start` suspends at the await of
`connect`, so it is two steps. -/

namespace N8n.BaseSyncProvider

open Option Function

inductive Side
  | first
  | second
  deriving DecidableEq

def Side.peer : Side → Side
  | .first => .second
  | .second => .first

@[simp] theorem Side.peer_peer (side : Side) : side.peer.peer = side := by cases side <;> rfl

@[simp] theorem Side.peer_ne (side : Side) : side.peer ≠ side := by cases side <;> decide

@[simp] theorem Side.ne_peer (side : Side) : side ≠ side.peer := side.peer_ne.symm

theorem Side.eq_or_peer (side other : Side) : other = side ∨ other = side.peer := by
  cases side <;> cases other <;> decide

/-- A provider with its document and its end of the transport. `syncing` says that the
handlers of `start` are subscribed. -/
structure Peer (Doc Update : Type*) where
  doc : Doc
  connected : Bool
  syncing : Bool
  inbox : List Update

abbrev Network (Doc Update : Type*) := Side → Peer Doc Update

inductive Event (Update : Type*)
  /-- `start` is called and waits for `connect` -/
  | connect (side : Side)
  /-- `start` goes on: subscribe, then send the initial state -/
  | resume (side : Side)
  | edit (side : Side) (update : Update)
  | deliver (side : Side)
  deriving DecidableEq

variable {Doc Update : Type*} [SemilatticeSup Doc] (engine : UpdateEngine Doc Update)

/-- `transport.send` of each update, queued for the peer. -/
def send (network : Network Doc Update) (side : Side) (updates : List Update) :
    Network Doc Update :=
  update network side.peer { network side.peer with inbox := (network side.peer).inbox ++ updates }

/-- The handler of `doc.onUpdate` for each update that the document emits. -/
def emit (network : Network Doc Update) (side : Side) (updates : List Update) :
    Network Doc Update :=
  if (network side).syncing && (network side).connected then send network side updates
  else network

def connect (network : Network Doc Update) (side : Side) : Network Doc Update :=
  update network side { network side with connected := true }

def resume (network : Network Doc Update) (side : Side) : Network Doc Update :=
  send (update network side { network side with syncing := true }) side [engine.encodeState (network side).doc]

def edit (network : Network Doc Update) (side : Side) (update : Update) : Network Doc Update :=
  emit (Function.update network side { network side with doc := engine.applyUpdate (network side).doc update })
    side [update]

/-- The transport hands `update` to the receive handler, if there is one by now. -/
def receive (network : Network Doc Update) (side : Side) (update : Update) (inbox : List Update) : Network Doc Update :=
  if (network side).syncing then
    emit (Function.update network side { network side with
          doc := engine.applyUpdate (network side).doc update
          inbox := inbox })
      side (engine.relayed (network side).doc update)
  else Function.update network side { network side with inbox := inbox }

def step (network : Network Doc Update) : Event Update → Option (Network Doc Update)
  | .connect side =>
    if (network side).connected then none else some (connect network side)
  | .resume side =>
    if (network side).connected && !(network side).syncing then some (resume engine network side)
    else none
  | .edit side update => some (edit engine network side update)
  | .deliver side =>
    match (network side).inbox with
    | [] => none
    | update :: inbox => some (receive engine network side update inbox)

/-- Two documents with any contents, neither provider started. -/
def initial (docs : Side → Doc) : Network Doc Update := fun side => ⟨docs side, false, false, []⟩

def system (docs : Side → Doc) : TransitionSystem (Network Doc Update) (Event Update) :=
  ⟨initial docs, step engine⟩

/-- Both providers have started and nothing is in flight. -/
structure Quiescent (network : Network Doc Update) : Prop where
  syncing : ∀ side, (network side).syncing = true
  delivered : ∀ side, (network side).inbox = []

/-- A message that reaches a provider before its handlers are subscribed carries
nothing that the document lacks. -/
def NothingMissed (network : Network Doc Update) : Event Update → Prop
  | .deliver side => (network side).syncing = false →
      ∀ update ∈ (network side).inbox.head?, engine.content update ≤ (network side).doc
  | .connect _ => True
  | .resume _ => True
  | .edit _ _ => True

/-- What is in flight comes from the document of the sender, and with what is in
flight the peer of a started provider has all that the provider has. -/
structure Covered (network : Network Doc Update) : Prop where
  connected : ∀ side, (network side).syncing = true → (network side).connected = true
  owned : ∀ side, ∀ update ∈ (network side).inbox, engine.content update ≤ (network side.peer).doc
  covered : ∀ side, (network side).syncing = true →
    (network side).doc ≤ engine.merged (network side.peer).doc (network side.peer).inbox

section Sending

omit [SemilatticeSup Doc]

variable (network : Network Doc Update) (side : Side)

@[simp] theorem send_same (updates : List Update) : send network side updates side = network side := by
  simp [send]

@[simp] theorem send_peer (updates : List Update) : send network side updates side.peer =
      { network side.peer with inbox := (network side.peer).inbox ++ updates } := by
  simp [send]

theorem send_nil : send network side [] = network := by
  simp [send]

theorem emit_eq_send (updates : List Update) : emit network side updates = send network side
        (if (network side).syncing && (network side).connected then updates else []) := by
  rw [emit]
  split_ifs
  · rfl
  · rw [send_nil]

end Sending

variable {engine} {network : Network Doc Update} {side : Side}

theorem forall_sides {P : Side → Prop} (side : Side) : (∀ other, P other) ↔ P side ∧ P side.peer := by
  refine ⟨fun h => ⟨h side, h side.peer⟩, fun ⟨here, there⟩ other => ?_⟩
  rcases side.eq_or_peer other with rfl | rfl
  · exact here
  · exact there

theorem Covered.initial (docs : Side → Doc) : Covered engine (initial docs) where
  connected _ h := by cases h
  owned _ _ h := by cases h
  covered _ h := by cases h

variable (side) in
/-- A side takes on `here` and sends `updates`: what that needs to stay covered. -/
theorem Covered.move (inv : Covered engine network) (here : Peer Doc Update) (updates : List Update)
    (connected : here.syncing = true → here.connected = true)
    (inbox : ∀ update ∈ here.inbox, update ∈ (network side).inbox) (grown : (network side).doc ≤ here.doc)
    (arriving : engine.merged (network side).doc (network side).inbox ≤ engine.merged here.doc here.inbox)
    (sent : ∀ update ∈ updates, engine.content update ≤ here.doc) (covered : here.syncing = true → here.doc ≤
      engine.merged (network side.peer).doc ((network side.peer).inbox ++ updates)) :
    Covered engine (send (update network side here) side updates) := by
  constructor
  · rw [forall_sides side]
    simp only [send_same, send_peer, update_self, ne_eq, Side.peer_ne, not_false_eq_true,
      update_of_ne]
    exact ⟨connected, inv.connected side.peer⟩
  · rw [forall_sides side]
    simp only [send_same, send_peer, update_self, ne_eq, Side.peer_ne, not_false_eq_true,
      update_of_ne, Side.peer_peer, List.mem_append]
    refine ⟨fun update queued => inv.owned side update (inbox update queued), ?_⟩
    rintro update (queued | new)
    · have before := inv.owned side.peer update queued
      rw [Side.peer_peer] at before
      exact before.trans grown
    · exact sent update new
  · rw [forall_sides side]
    simp only [send_same, send_peer, update_self, ne_eq, Side.peer_ne, not_false_eq_true,
      update_of_ne, Side.peer_peer]
    refine ⟨covered, fun started => ?_⟩
    have before := inv.covered side.peer started
    rw [Side.peer_peer] at before
    exact before.trans arriving

section

variable (inv : Covered engine network)
include inv

theorem Covered.connect : Covered engine (connect network side) := by
  have := inv.move side { network side with connected := true } [] (fun _ => rfl) (fun _ h => h) le_rfl le_rfl (by simp)
    (by simpa using inv.covered side)
  rwa [send_nil] at this

theorem Covered.resume (connected : (network side).connected = true) : Covered engine (resume engine network side) := by
  refine inv.move side _ _ (fun _ => connected) (fun _ h => h) le_rfl le_rfl ?_ fun _ => ?_
  · simp [engine.content_encodeState]
  · calc (network side).doc = engine.content (engine.encodeState (network side).doc) :=
          (engine.content_encodeState _).symm
      _ ≤ _ := engine.content_le_merged_append _ _ _

theorem Covered.edit (update : Update) : Covered engine (edit engine network side update) := by
  rw [BaseSyncProvider.edit, emit_eq_send]
  refine inv.move side _ _ (inv.connected side) (fun _ h => h) (engine.le_applyUpdate _ _)
    (engine.merged_mono (engine.le_applyUpdate _ _) _) ?_ fun syncing => ?_
  · intro sent emitted
    split_ifs at emitted
    · rw [List.mem_singleton.mp emitted]
      exact engine.content_le_applyUpdate _ _
    · cases emitted
  · have syncing : (network side).syncing = true := syncing
    simp only [Function.update_self, syncing, inv.connected side syncing, Bool.and_self, if_true]
    refine engine.applyUpdate_le ?_ (engine.content_le_merged_append _ _ _)
    exact (inv.covered side syncing).trans (engine.merged_le_append _ _ _)

theorem Covered.receive {update : Update} {inbox : List Update} (queued : (network side).inbox = update :: inbox)
    (known : (network side).syncing = false → engine.content update ≤ (network side).doc) :
    Covered engine (receive engine network side update inbox) := by
  have behind : ∀ other ∈ inbox, other ∈ (network side).inbox := fun other h => by
    rw [queued]
    exact List.mem_cons_of_mem _ h
  cases syncing : (network side).syncing with
  | false =>
    have := inv.move side { network side with inbox := inbox } [] (inv.connected side) behind le_rfl
      (by rw [queued, engine.merged_cons, engine.applyUpdate_of_le (known syncing)])
      (by simp) (by simpa using inv.covered side)
    rw [send_nil] at this
    rwa [BaseSyncProvider.receive, if_neg (by simp [syncing])]
  | true =>
    rw [BaseSyncProvider.receive, if_pos syncing, emit_eq_send]
    refine inv.move side _ _ (inv.connected side) behind (engine.le_applyUpdate _ _)
      (by rw [queued, engine.merged_cons]) ?_ fun _ => ?_
    · intro relay emitted
      split_ifs at emitted
      · rw [engine.applyUpdate_eq]
        exact engine.relayed_le _ _ relay emitted
      · cases emitted
    · refine le_trans ?_ (engine.merged_le_append _ _ _)
      refine engine.applyUpdate_le (inv.covered side syncing) ?_
      exact (inv.owned side update (by simp [queued])).trans (engine.le_merged _ _)

theorem Covered.step {network' : Network Doc Update} {event : Event Update} (meets : NothingMissed engine network event)
    (taken : step engine network event = some network') : Covered engine network' := by
  cases event with
  | connect side =>
    simp only [BaseSyncProvider.step] at taken
    split_ifs at taken
    exact some.inj taken ▸ inv.connect
  | resume side =>
    simp only [BaseSyncProvider.step] at taken
    split_ifs at taken with waiting
    rw [Bool.and_eq_true] at waiting
    exact some.inj taken ▸ inv.resume waiting.1
  | edit side update =>
    simp only [BaseSyncProvider.step] at taken
    exact some.inj taken ▸ inv.edit update
  | deliver side =>
    simp only [BaseSyncProvider.step] at taken
    split at taken
    · cases taken
    · rename_i update inbox queued
      refine some.inj taken ▸ inv.receive queued fun waiting => ?_
      exact meets waiting update (by simp [queued])

end

theorem Covered.reachable {docs : Side → Doc}
    (reached : (system engine docs).ReachableVia (NothingMissed engine) network) : Covered engine network :=
  reached.invariant (Covered.initial docs) fun _ _ _ inv meets taken => inv.step meets taken

theorem Covered.docs_eq (inv : Covered engine network) (quiet : Quiescent network) :
    (network side).doc = (network side.peer).doc := by
  have within (side : Side) : (network side).doc ≤ (network side.peer).doc := by
    have covered := inv.covered side (quiet.syncing side)
    rwa [quiet.delivered side.peer, engine.merged_nil] at covered
  refine le_antisymm (within side) ?_
  simpa using within side.peer

/-- Two providers converge in every run in which no message that carries something
new comes before the handlers that should receive it. -/
theorem syncProviders_converge (docs : Side → Doc)
    (reached : (system engine docs).ReachableVia (NothingMissed engine) network)
    (quiet : Quiescent network) : (network .first).doc = (network .second).doc :=
  (Covered.reachable reached).docs_eq quiet

section Examples

/-- Documents as sets of edits. Applying an update that adds something emits it again. -/
def setEngine : UpdateEngine (Finset ℕ) (Finset ℕ) where
  content := id
  encodeState := id
  applyUpdate doc update := doc ⊔ update
  relayed doc update := if update ⊆ doc then [] else [update]
  applyUpdate_eq _ _ := rfl
  content_encodeState _ := rfl
  relayed_le doc update relay emitted := by
    split_ifs at emitted
    · cases emitted
    · exact List.mem_singleton.mp emitted ▸ le_sup_right

instance (network : Network (Finset ℕ) (Finset ℕ)) : Decidable (Quiescent network) :=
  decidable_of_iff (((network .first).syncing ∧ (network .second).syncing) ∧
      (network .first).inbox = [] ∧ (network .second).inbox = [])
    ⟨fun h => ⟨fun side => by cases side <;> simp [h.1], fun side => by cases side <;> simp [h.2]⟩,
      fun h => ⟨⟨h.syncing _, h.syncing _⟩, h.delivered _, h.delivered _⟩⟩

/-- The side with data starts first and its initial state arrives before the peer starts. -/
def earlyState : List (Event (Finset ℕ)) :=
  [.edit .first {1}, .connect .first, .resume .first, .deliver .second, .connect .second,
    .resume .second, .deliver .first]

def lateState : List (Event (Finset ℕ)) :=
  [.connect .second, .resume .second, .deliver .first, .edit .first {1}, .connect .first,
    .resume .first, .deliver .second, .deliver .first, .edit .second {2}, .deliver .first,
    .deliver .second]

def nothingMissed (network : Network (Finset ℕ) (Finset ℕ)) : Event (Finset ℕ) → Bool
  | .deliver side => (network side).syncing || (network side).inbox.head?.all fun update => update ⊆ (network side).doc
  | _ => true

theorem nothingMissed_sound (network : Network (Finset ℕ) (Finset ℕ)) (event : Event (Finset ℕ))
    (passed : nothingMissed network event = true) : NothingMissed setEngine network event := by
  cases event with
  | deliver side =>
    intro waiting update queued
    simp only [nothingMissed, waiting, Bool.false_or] at passed
    rw [mem_def.mp queued] at passed
    exact of_decide_eq_true passed
  | connect _ => trivial
  | resume _ => trivial
  | edit _ _ => trivial

def blank : TransitionSystem (Network (Finset ℕ) (Finset ℕ)) (Event (Finset ℕ)) :=
  system setEngine fun _ => ∅

theorem syncProviders_converge_late : ∃ network, blank.ReachableVia (NothingMissed setEngine) network ∧
      (network .first).doc = {1, 2} ∧ (network .first).doc = (network .second).doc := by
  obtain ⟨network, reached, seen⟩ := TransitionSystem.reachableVia_runChecked nothingMissed
    nothingMissed_sound (TransitionSystem.ReachableVia.init : blank.ReachableVia _ _) lateState
    (fun network => decide (Quiescent network ∧ (network .first).doc = {1, 2})) (by decide)
  obtain ⟨quiet, doc⟩ := of_decide_eq_true seen
  exact ⟨network, reached, doc, syncProviders_converge _ reached quiet⟩

theorem early_state_lost : ¬ ∀ network, blank.Reachable network → Quiescent network →
      (network .first).doc = (network .second).doc := by
  intro converge
  obtain ⟨network, reached, seen⟩ := TransitionSystem.reachableVia_runChecked (C := fun _ _ => True) (fun _ _ => true)
    (fun _ _ _ => trivial) (TransitionSystem.ReachableVia.init : blank.ReachableVia _ _) earlyState
    (fun network =>
      decide (Quiescent network ∧ (network .first).doc ≠ (network .second).doc)) (by decide)
  obtain ⟨quiet, different⟩ := of_decide_eq_true seen
  exact different (converge network reached quiet)

end Examples

end N8n.BaseSyncProvider
