import N8n.SparseArray
import N8n.TransitionSystem

/-! A transport over a web socket that connects again by itself. Every `doConnect` makes a socket whose
handlers, timeout and promise belong to this attempt, while the fields of the transport belong to all. -/

namespace N8n.WebSocketTransport

open List Option

inductive ReadyState where
  | connecting
  | opened
  | closing
  | closed
  deriving DecidableEq

inductive Settlement where
  | pending
  | resolved
  | rejected (message : String)
  deriving DecidableEq

/-- One `doConnect`: its socket and whether the handlers are on it, whether its timeout is set, its promise
with the calls of `connect` that wait for it, and whether its rejection is caught for the error handlers. -/
structure Attempt where
  readyState : ReadyState
  handlers : Bool
  timeout : Bool
  promise : Settlement
  awaiting : ℕ
  caught : Bool
  deriving DecidableEq

inductive Notice where
  | connectionChange (connected : Bool)
  | error (message : String)
  deriving DecidableEq

/-- `none` is `Infinity`. The delays are left out: a timer may fire at any time. -/
structure Config where
  reconnect : Bool
  maxReconnectAttempts : Option ℕ

/-- The fields of the transport, with sockets and promises known by their attempt; the attempts, the pending
reconnect timers and what the handlers are told; and a record: whether the last call has been `disconnect`,
what `connected` was whenever a call of `connect` was resolved, and what the former was whenever a socket
was created. -/
structure Transport where
  ws : Option ℕ
  connected : Bool
  reconnectAttempts : ℕ
  reconnectTimeout : Option ℕ
  shouldReconnect : Bool
  isConnecting : Bool
  connectionPromise : Option ℕ
  attempts : List Attempt
  timers : List ℕ
  timersSet : ℕ
  notices : List Notice
  disconnected : Bool
  resolutions : List Bool
  created : List Bool
  deriving DecidableEq

/-- `thrown` is what the constructor of the socket throws, if it does. -/
inductive Event where
  | connect (thrown : Option String)
  | disconnect
  | onopen (n : ℕ)
  | onerror (n : ℕ)
  | onclose (n : ℕ)
  | timeout (n : ℕ)
  | reconnect (timer : ℕ) (thrown : Option String)
  deriving DecidableEq

namespace ReadyState

/-- `open` or `connecting` -/
def isLive : ReadyState → Bool
  | connecting => true
  | opened => true
  | closing => false
  | closed => false

def close (state : ReadyState) : ReadyState := if state.isLive then closing else state

@[simp] theorem isLive_close (state : ReadyState) : state.close.isLive = false := by cases state <;> rfl

end ReadyState

def Attempt.settle (promise : Settlement) (a : Attempt) : Attempt := { a with promise := promise }

namespace Transport

def initial : Transport :=
  { ws := none, connected := false, reconnectAttempts := 0, reconnectTimeout := none, shouldReconnect := false
    isConnecting := false, connectionPromise := none, attempts := [], timers := [], timersSet := 0, notices := []
    disconnected := false, resolutions := [], created := [] }

def clearReconnectTimeout (t : Transport) : Transport :=
  { t with
    reconnectTimeout := none
    timers := t.reconnectTimeout.elim t.timers t.timers.erase }

def notify (t : Transport) (notice : Notice) : Transport := { t with notices := t.notices ++ [notice] }

def resolve (t : Transport) (n : ℕ) (a : Attempt) : Transport :=
  if a.promise = .pending then
    { t with
      attempts := t.attempts.modify n (.settle .resolved)
      resolutions := t.resolutions ++ List.replicate a.awaiting t.connected }
  else t

def reject (t : Transport) (n : ℕ) (a : Attempt) (message : String) : Transport :=
  if a.promise = .pending then
    { t with
      attempts := t.attempts.modify n (.settle (.rejected message))
      notices := if a.caught then t.notices ++ [.error message] else t.notices }
  else t

def doConnect (t : Transport) (awaiting : ℕ) (caught : Bool) : Option String → Transport
  | none =>
    { t with
      isConnecting := true
      ws := some t.attempts.length
      attempts := t.attempts ++ [⟨.connecting, true, true, .pending, awaiting, caught⟩]
      created := t.created ++ [t.disconnected] }
  | some message =>
    { t with
      isConnecting := false
      attempts := t.attempts ++ [⟨.closed, false, false, .rejected message, awaiting, caught⟩]
      notices := if caught then t.notices ++ [.error message] else t.notices }

/-- A call of `connect` waits for the promise that is stored. -/
def await (t : Transport) (p : ℕ) : Transport :=
  match (t.attempts[p]?).map Attempt.promise with
  | some .pending => { t with attempts := t.attempts.modify p fun a => { a with awaiting := a.awaiting + 1 } }
  | some .resolved => { t with resolutions := t.resolutions ++ [t.connected] }
  | some (.rejected _) => t
  | none => t

def connect (config : Config) (t : Transport) (thrown : Option String) : Transport :=
  let t := { t.clearReconnectTimeout with disconnected := false }
  if t.connected then { t with resolutions := t.resolutions ++ [t.connected] }
  else
    match (if t.isConnecting then t.connectionPromise else none) with
    | some p => t.await p
    | none =>
      { t with
        shouldReconnect := config.reconnect
        connectionPromise := some t.attempts.length }.doConnect 1 false thrown

def disconnect (t : Transport) : Transport :=
  let t := { t.clearReconnectTimeout with shouldReconnect := false, disconnected := true }
  { t with
    attempts := t.ws.elim t.attempts fun n => t.attempts.modify n fun a =>
      { a with handlers := false, readyState := a.readyState.close }
    ws := none
    connected := false
    notices := if t.connected then t.notices ++ [.connectionChange false] else t.notices
    isConnecting := false
    connectionPromise := none }

def scheduleReconnect (config : Config) (t : Transport) : Transport :=
  if t.shouldReconnect then
    if config.maxReconnectAttempts.any (· ≤ t.reconnectAttempts) then
      t.notify (.error "Max reconnection attempts reached")
    else
      { t with
        reconnectAttempts := t.reconnectAttempts + 1
        reconnectTimeout := some t.timersSet
        timers := t.timers ++ [t.timersSet]
        timersSet := t.timersSet + 1 }
  else t

/-- Without handlers an event changes the socket only. -/
def setReadyState (t : Transport) (n : ℕ) (state : ReadyState → ReadyState) : Transport :=
  { t with attempts := t.attempts.modify n fun a => { a with readyState := state a.readyState } }

def clearTimeout (t : Transport) (n : ℕ) : Transport :=
  { t with attempts := t.attempts.modify n ({ · with timeout := false }) }

/-- `onopen` before the promise is resolved. -/
def opened (t : Transport) : Transport :=
  { t with
    connected := true
    isConnecting := false
    reconnectAttempts := 0
    notices := t.notices ++ [.connectionChange true] }

def onopen (t : Transport) (n : ℕ) (a : Attempt) : Transport :=
  if a.handlers then (((t.setReadyState n fun _ => .opened).clearTimeout n).opened).resolve n a
  else t.setReadyState n fun _ => .opened

/-- `onclose` before it connects again. -/
def closed (t : Transport) : Transport :=
  { t with
    connected := false
    isConnecting := false
    notices := if t.connected then t.notices ++ [.connectionChange false] else t.notices }

def onclose (config : Config) (t : Transport) (n : ℕ) (a : Attempt) : Transport :=
  if a.handlers then (((t.setReadyState n fun _ => .closed).clearTimeout n).closed).scheduleReconnect config
  else t.setReadyState n fun _ => .closed

/-- While an attempt is being made, an error rejects the promise. -/
def rejectConnecting (t : Transport) (n : ℕ) (a : Attempt) : Transport :=
  if t.isConnecting then { t with isConnecting := false }.reject n a "WebSocket error" else t

def onerror (t : Transport) (n : ℕ) (a : Attempt) : Transport :=
  if a.handlers then
    (((t.setReadyState n .close).clearTimeout n).notify (.error "WebSocket error")).rejectConnecting n a
  else t.setReadyState n .close

def timeout (t : Transport) (n : ℕ) (a : Attempt) : Transport :=
  (t.ws.elim (t.clearTimeout n) fun m => (t.clearTimeout n).setReadyState m .close).reject n a "Connection timeout"

def reconnect (t : Transport) (timer : ℕ) (thrown : Option String) : Transport :=
  { t with reconnectTimeout := none, timers := t.timers.erase timer }.doConnect 0 true thrown

end Transport

def step (config : Config) (t : Transport) : Event → Option Transport
  | .connect thrown => some (t.connect config thrown)
  | .disconnect => some t.disconnect
  | .onopen n => (t.attempts[n]?).bind fun a => if a.readyState = .connecting then some (t.onopen n a) else none
  | .onerror n => (t.attempts[n]?).bind fun a => if a.readyState = .closed then none else some (t.onerror n a)
  | .onclose n => (t.attempts[n]?).bind fun a => if a.readyState = .closed then none else some (t.onclose config n a)
  | .timeout n => (t.attempts[n]?).bind fun a => if a.timeout then some (t.timeout n a) else none
  | .reconnect timer thrown => if timer ∈ t.timers then some (t.reconnect timer thrown) else none

def system (config : Config) : TransitionSystem Transport Event := ⟨.initial, step config⟩

/-! ## What is claimed of every state, and of the steps that keep it -/

def Live (attempts : List Attempt) (n : ℕ) : Prop := ∃ a, attempts[n]? = some a ∧ a.readyState.isLive = true

def IsOpen (attempts : List Attempt) (n : ℕ) : Prop := ∃ a, attempts[n]? = some a ∧ a.readyState = .opened

structure Honest (t : Transport) : Prop where
  single : ∀ m n, Live t.attempts m → Live t.attempts n → m = n
  connected : t.connected = true → ∃ n, t.ws = some n ∧ IsOpen t.attempts n
  resolutions : ∀ connected ∈ t.resolutions, connected = true
  created : ∀ disconnected ∈ t.created, disconnected = false

/-- The promise that a call of `connect` waits for instead of connecting. -/
def stored (t : Transport) : Option ℕ := if t.isConnecting then t.connectionPromise else none

/-- The socket of the transport is there, and not closing or closed. -/
def Busy (t : Transport) : Prop := ∃ n, t.ws = some n ∧ Live t.attempts n

/-- `connect` finds the transport connected, or waits for a promise that is not resolved yet, or connects
where no socket is alive; a reconnect timer fires where none is alive and `disconnect` was not the last
call; and neither an error nor a timeout comes to the socket while it is connected. -/
def Orderly (t : Transport) : Event → Prop
  | .connect thrown => t.connected = true ∨
      match stored t with
      | some p => (t.attempts[p]?).map Attempt.promise ≠ some .resolved
      | none => thrown = none → ¬Busy t
  | .disconnect => True
  | .onopen _ => True
  | .onerror n => ¬(t.connected = true ∧ t.ws = some n)
  | .onclose _ => True
  | .timeout _ => t.connected = false
  | .reconnect _ thrown => thrown = none → ¬Busy t ∧ t.disconnected = false

/-! ## How the sockets change -/

def Handled (attempts : List Attempt) (n : ℕ) : Prop := ∃ a, attempts[n]? = some a ∧ a.handlers = true

/-- No socket comes to life, and none loses its handlers. -/
structure Keeps (before after : List Attempt) : Prop where
  live : ∀ n, Live after n → Live before n
  handled : ∀ n, Handled before n → Handled after n

structure Owned (t : Transport) : Prop where
  live : ∀ n, Live t.attempts n → t.ws = some n
  handled : ∀ n, t.ws = some n → Handled t.attempts n

section Attempts

variable {attempts later : List Attempt} {n m : ℕ} {f : Attempt → Attempt} {a : Attempt}

theorem Keeps.refl (attempts : List Attempt) : Keeps attempts attempts := ⟨fun _ h => h, fun _ h => h⟩

theorem Keeps.trans {last : List Attempt} (one : Keeps attempts later) (two : Keeps later last) : Keeps attempts last :=
  ⟨fun n alive => one.live n (two.live n alive), fun n handled => two.handled n (one.handled n handled)⟩

theorem live_modify (calmer : ∀ a, (f a).readyState.isLive = true → a.readyState.isLive = true)
    (alive : Live (attempts.modify n f) m) : Live attempts m := by
  obtain ⟨a, there, state⟩ := alive
  obtain ⟨b, before, rfl⟩ := of_getElem?_modified there
  refine ⟨b, before, ?_⟩
  split_ifs at state
  · exact calmer b state
  · exact state

theorem Keeps.modify (attempts : List Attempt) (n : ℕ)
    (calmer : ∀ a, (f a).readyState.isLive = true → a.readyState.isLive = true)
    (handled : ∀ a, a.handlers = true → (f a).handlers = true) : Keeps attempts (attempts.modify n f) := by
  refine ⟨fun m alive => live_modify calmer alive, fun m ⟨a, here, on⟩ => ⟨_, getElem?_modified _ here, ?_⟩⟩
  split_ifs
  · exact handled a on
  · exact on

theorem isOpen_modify_ne (isOpen : IsOpen attempts m) (other : n ≠ m) : IsOpen (attempts.modify n f) m := by
  obtain ⟨a, here, state⟩ := isOpen
  exact ⟨a, by rw [getElem?_modified _ here, if_neg other], state⟩

theorem IsOpen.live (isOpen : IsOpen attempts m) : Live attempts m := by
  obtain ⟨a, here, state⟩ := isOpen
  exact ⟨a, here, state ▸ rfl⟩

theorem calmer_of_calm (calm : ∀ a, (f a).readyState.isLive = false) (a : Attempt)
    (alive : (f a).readyState.isLive = true) : a.readyState.isLive = true := by
  cases (calm a).symm.trans alive

theorem not_live_modify (calm : ∀ a, (f a).readyState.isLive = false) : ¬Live (attempts.modify n f) n := by
  rintro ⟨a, there, state⟩
  obtain ⟨b, -, rfl⟩ := of_getElem?_modified there
  rw [if_pos rfl, calm b] at state
  cases state

theorem Live.lt (alive : Live attempts n) : n < attempts.length := by
  obtain ⟨a, here, -⟩ := alive
  exact (List.getElem?_eq_some_iff.mp here).1

theorem live_append : Live (attempts ++ [a]) m ↔
    Live attempts m ∨ m = attempts.length ∧ a.readyState.isLive = true := by
  constructor
  · rintro ⟨b, there, state⟩
    rcases Nat.lt_trichotomy m attempts.length with before | rfl | after
    · exact .inl ⟨b, (getElem?_append_left before).symm.trans there, state⟩
    · rw [getElem?_concat_length] at there
      exact .inr ⟨rfl, some.inj there ▸ state⟩
    · rw [getElem?_eq_none (by rw [length_append]; exact after)] at there
      cases there
  · rintro (alive | ⟨rfl, state⟩)
    · obtain ⟨b, here, state⟩ := alive
      exact ⟨b, (getElem?_append_left (Live.lt ⟨b, here, state⟩)).trans here, state⟩
    · exact ⟨a, getElem?_concat_length, state⟩

theorem handled_append (handled : Handled attempts m) : Handled (attempts ++ [a]) m := by
  obtain ⟨b, here, on⟩ := handled
  exact ⟨b, getElem?_concat here _, on⟩

theorem isOpen_append (isOpen : IsOpen attempts m) : IsOpen (attempts ++ [a]) m := by
  obtain ⟨b, here, state⟩ := isOpen
  exact ⟨b, getElem?_concat here _, state⟩

end Attempts

variable {config : Config} {t t' : Transport} {n : ℕ} {a : Attempt} {thrown : Option String}

theorem Owned.keeps (owned : Owned t) (keeps : Keeps t.attempts t'.attempts) (same : t'.ws = t.ws) : Owned t' :=
  ⟨fun n alive => same.trans (owned.live n (keeps.live n alive)), fun n current =>
    keeps.handled n (owned.handled n (same.symm.trans current))⟩

theorem Owned.busy_iff (owned : Owned t) : Busy t ↔ ∃ n, Live t.attempts n :=
  ⟨fun ⟨n, _, alive⟩ => ⟨n, alive⟩, fun ⟨n, alive⟩ => ⟨n, owned.live n alive, alive⟩⟩

theorem Honest.keeps (honest : Honest t) (keeps : Keeps t.attempts t'.attempts)
    (connected : t'.connected = true → ∃ n, t'.ws = some n ∧ IsOpen t'.attempts n)
    (resolutions : ∀ connected ∈ t'.resolutions, connected = true) (created : t'.created = t.created) : Honest t' :=
  ⟨fun m n one two => honest.single m n (keeps.live m one) (keeps.live n two), connected, resolutions, fun d member =>
    honest.created d (created ▸ member)⟩

/-! ## What each step does to them -/

/-- What is claimed does not see the change: sockets and their handlers stay as they are. -/
structure Beside (t t' : Transport) : Prop where
  socket : ∀ (n : ℕ) (a : Attempt), t.attempts[n]? = some a →
    ∃ b, t'.attempts[n]? = some b ∧ b.readyState = a.readyState ∧ b.handlers = a.handlers
  length : t'.attempts.length = t.attempts.length
  ws : t'.ws = t.ws
  connected : t'.connected = t.connected
  resolutions : t'.resolutions = t.resolutions
  created : t'.created = t.created

theorem Beside.refl (t : Transport) : Beside t t := ⟨fun _ a here => ⟨a, here, rfl, rfl⟩, rfl, rfl, rfl, rfl, rfl⟩

section

variable (beside : Beside t t')
include beside

theorem Beside.symm : Beside t' t where
  socket n a there := by
    have inside : n < t.attempts.length := beside.length ▸ (List.getElem?_eq_some_iff.mp there).1
    have here := getElem?_eq_getElem inside
    obtain ⟨b, there', state, handlers⟩ := beside.socket n _ here
    obtain rfl := some.inj (there.symm.trans there')
    exact ⟨_, here, state.symm, handlers.symm⟩
  length := beside.length.symm
  ws := beside.ws.symm
  connected := beside.connected.symm
  resolutions := beside.resolutions.symm
  created := beside.created.symm

theorem Beside.isOpen (isOpen : IsOpen t.attempts n) : IsOpen t'.attempts n := by
  obtain ⟨a, here, state⟩ := isOpen
  obtain ⟨b, there, same, -⟩ := beside.socket n a here
  exact ⟨b, there, same.trans state⟩

theorem Beside.keeps : Keeps t.attempts t'.attempts := by
  refine ⟨fun n ⟨a, there, state⟩ => ?_, fun n ⟨a, here, on⟩ => ?_⟩
  · obtain ⟨b, here, same, -⟩ := beside.symm.socket n a there
    exact ⟨b, here, same ▸ state⟩
  · obtain ⟨b, there, -, same⟩ := beside.socket n a here
    exact ⟨b, there, same.trans on⟩

theorem Beside.owned (owned : Owned t) : Owned t' := owned.keeps beside.keeps beside.ws

theorem Beside.honest (honest : Honest t) : Honest t' := by
  refine honest.keeps beside.keeps (fun connected => ?_) ?_ beside.created
  · obtain ⟨n, current, isOpen⟩ := honest.connected (beside.connected.symm.trans connected)
    exact ⟨n, beside.ws.trans current, beside.isOpen isOpen⟩
  · rw [beside.resolutions]
    exact honest.resolutions

theorem Beside.honest_iff : Honest t' ↔ Honest t := ⟨beside.symm.honest, beside.honest⟩

end

/-- Only the promise or the timeout of an attempt changes, or who waits for it. -/
theorem beside_modify (t : Transport) (n : ℕ) (f : Attempt → Attempt) (state : ∀ a, (f a).readyState = a.readyState)
    (handlers : ∀ a, (f a).handlers = a.handlers) : Beside t { t with attempts := t.attempts.modify n f } where
  socket m a here := by
    refine ⟨_, getElem?_modified _ here, ?_⟩
    split_ifs
    · exact ⟨state a, handlers a⟩
    · exact ⟨rfl, rfl⟩
  length := length_modify _ _ _
  ws := rfl
  connected := rfl
  resolutions := rfl
  created := rfl

theorem reject_beside (t : Transport) (n : ℕ) (a : Attempt) (message : String) : Beside t (t.reject n a message) := by
  rw [Transport.reject]
  split_ifs
  · exact { beside_modify t n (.settle (.rejected message)) (fun _ => rfl) (fun _ => rfl) with }
  · exact { beside_modify t n (.settle (.rejected message)) (fun _ => rfl) (fun _ => rfl) with }
  · exact .refl t

theorem scheduleReconnect_beside (config : Config) (t : Transport) : Beside t (t.scheduleReconnect config) := by
  rw [Transport.scheduleReconnect]
  split_ifs
  · exact { Beside.refl t with }
  · exact { Beside.refl t with }
  · exact .refl t

theorem owned_resolve (owned : Owned t) (n : ℕ) (a : Attempt) : Owned (t.resolve n a) := by
  rw [Transport.resolve]
  split_ifs
  · exact owned.keeps (beside_modify t n (.settle .resolved) (fun _ => rfl) fun _ => rfl).keeps rfl
  · exact owned

theorem honest_resolve (honest : Honest t) (connected : t.connected = true) (n : ℕ) (a : Attempt) :
    Honest (t.resolve n a) := by
  rw [Transport.resolve]
  split_ifs
  · have beside := beside_modify t n (.settle .resolved) (fun _ => rfl) fun _ => rfl
    refine (beside.honest honest).keeps (.refl _) (beside.honest honest).connected ?_ rfl
    intro c member
    rcases mem_append.mp member with old | new
    · exact honest.resolutions c old
    · exact (eq_of_mem_replicate new).trans connected
  · exact honest

theorem owned_doConnect (owned : Owned t) {awaiting : ℕ} {caught : Bool}
    (honest : Honest (t.doConnect awaiting caught thrown)) : Owned (t.doConnect awaiting caught thrown) := by
  cases thrown with
  | none =>
    refine ⟨fun n alive => ?_, fun n current => ?_⟩
    · exact congrArg some (honest.single _ _ (live_append.mpr (.inr ⟨rfl, rfl⟩)) alive)
    · obtain rfl := some.inj current
      exact ⟨_, getElem?_concat_length, rfl⟩
  | some message =>
    refine ⟨fun n alive => ?_, fun n current => handled_append (owned.handled n current)⟩
    rcases live_append.mp alive with old | ⟨-, state⟩
    · exact owned.live n old
    · cases state

theorem honest_doConnect_iff (owned : Owned t) (honest : Honest t) (awaiting : ℕ) (caught : Bool)
    (thrown : Option String) : Honest (t.doConnect awaiting caught thrown) ↔
      (thrown = none → ¬Busy t ∧ t.disconnected = false) := by
  cases thrown with
  | none =>
    have new : Live (t.attempts ++ [⟨.connecting, true, true, .pending, awaiting, caught⟩]) t.attempts.length :=
      live_append.mpr (.inr ⟨rfl, rfl⟩)
    rw [owned.busy_iff]
    constructor
    · intro after _
      refine ⟨fun ⟨n, alive⟩ => ?_, after.created _ (mem_append_right _ (mem_singleton_self _))⟩
      exact Nat.ne_of_lt alive.lt (after.single n _ (live_append.mpr (.inl alive)) new)
    · intro quiet
      obtain ⟨free, called⟩ := quiet rfl
      have only : ∀ n, Live (t.doConnect awaiting caught none).attempts n → n = t.attempts.length := fun n alive =>
        (live_append.mp alive).elim (fun old => (free ⟨n, old⟩).elim) And.left
      refine ⟨fun m n one two => (only m one).trans (only n two).symm, fun connected => ?_, honest.resolutions, ?_⟩
      · obtain ⟨n, -, isOpen⟩ := honest.connected connected
        exact (free ⟨n, isOpen.live⟩).elim
      · intro d member
        rcases mem_append.mp member with old | last
        · exact honest.created d old
        · exact (mem_singleton.mp last).trans called
  | some message =>
    refine iff_of_true ⟨fun m n one two => ?_, fun connected => ?_, honest.resolutions, honest.created⟩ nofun
    · have old : ∀ k, Live (t.doConnect awaiting caught (some message)).attempts k → Live t.attempts k := fun k alive =>
        (live_append.mp alive).elim id fun last => nomatch last.2
      exact honest.single m n (old m one) (old n two)
    · obtain ⟨n, current, isOpen⟩ := honest.connected connected
      exact ⟨n, current, isOpen_append isOpen⟩

/-! ## The calls and the events -/

theorem honest_await_iff (honest : Honest t) (apart : t.connected = false) (p : ℕ) :
    Honest (t.await p) ↔ (t.attempts[p]?).map Attempt.promise ≠ some .resolved := by
  rw [Transport.await]
  split
  · rename_i pending
    have beside := beside_modify t p (fun a => { a with awaiting := a.awaiting + 1 }) (fun _ => rfl) fun _ => rfl
    exact iff_of_true (beside.honest honest) (by rw [pending]; nofun)
  · rename_i resolved
    refine iff_of_false (fun after => ?_) (fun other => other resolved)
    have known := after.resolutions _ (mem_append_right _ (mem_singleton_self _))
    cases apart.symm.trans known
  · rename_i rejected
    exact iff_of_true honest (by rw [rejected]; nofun)
  · rename_i missing
    exact iff_of_true honest (by rw [missing]; nofun)

theorem owned_await (owned : Owned t) (p : ℕ) : Owned (t.await p) := by
  rw [Transport.await]
  split
  · exact (beside_modify t p (fun a => { a with awaiting := a.awaiting + 1 }) (fun _ => rfl) fun _ => rfl).owned owned
  · exact owned.keeps (.refl _) rfl
  · exact owned
  · exact owned

/-- `connect` before it asks whether it is connected. -/
def called (t : Transport) : Transport := { t.clearReconnectTimeout with disconnected := false }

/-- `connect` before it connects. -/
def starting (config : Config) (t : Transport) : Transport :=
  { called t with shouldReconnect := config.reconnect, connectionPromise := some t.attempts.length }

theorem called_beside (t : Transport) : Beside t (called t) := { Beside.refl t with }

theorem starting_beside (config : Config) (t : Transport) : Beside t (starting config t) := { called_beside t with }

theorem connect_eq (config : Config) (t : Transport) (thrown : Option String) : t.connect config thrown =
    if t.connected = true then { called t with resolutions := t.resolutions ++ [t.connected] }
    else match stored t with
      | some p => (called t).await p
      | none => (starting config t).doConnect 1 false thrown :=
  rfl

theorem honest_connect_iff (owned : Owned t) (honest : Honest t) (thrown : Option String) :
    Honest (t.connect config thrown) ↔ Orderly t (.connect thrown) := by
  have beside := called_beside t
  rw [connect_eq, Orderly]
  split_ifs with connected
  · refine iff_of_true ((beside.honest honest).keeps (.refl _) (beside.honest honest).connected ?_ rfl) (.inl connected)
    intro c member
    rcases mem_append.mp member with old | last
    · exact honest.resolutions c old
    · exact (mem_singleton.mp last).trans connected
  · rw [or_iff_right connected]
    cases stored t with
    | some p => exact honest_await_iff (beside.honest honest) (Bool.eq_false_iff.mpr connected) p
    | none =>
      have unseen := starting_beside config t
      refine (honest_doConnect_iff (unseen.owned owned) (unseen.honest honest) 1 false thrown).trans ?_
      exact imp_congr_right fun _ => and_iff_left rfl

theorem owned_connect (owned : Owned t) (after : Honest (t.connect config thrown)) :
    Owned (t.connect config thrown) := by
  have beside := called_beside t
  rw [connect_eq] at after ⊢
  split_ifs at after ⊢ with connected
  · exact (beside.owned owned).keeps (.refl _) rfl
  · cases kept : stored t with
    | some p => exact owned_await (beside.owned owned) p
    | none =>
      rw [kept] at after
      exact owned_doConnect ((starting_beside config t).owned owned) after

theorem not_live_disconnect (owned : Owned t) (n : ℕ) : ¬Live t.disconnect.attempts n := by
  intro alive
  cases current : t.ws with
  | none =>
    simp only [Transport.disconnect, Transport.clearReconnectTimeout, current, elim_none] at alive
    cases current.symm.trans (owned.live n alive)
  | some m =>
    simp only [Transport.disconnect, Transport.clearReconnectTimeout, current, elim_some] at alive
    have calm : ∀ a : Attempt, a.readyState.close.isLive = false := fun a => a.readyState.isLive_close
    have before := live_modify (calmer_of_calm calm) alive
    obtain rfl := some.inj (current.symm.trans (owned.live n before))
    exact not_live_modify calm alive

theorem honest_disconnect (owned : Owned t) (honest : Honest t) : Honest t.disconnect :=
  ⟨fun m _ alive => (not_live_disconnect owned m alive).elim, nofun, honest.resolutions, honest.created⟩

theorem owned_disconnect (owned : Owned t) : Owned t.disconnect :=
  ⟨fun n alive => (not_live_disconnect owned n alive).elim, nofun⟩

theorem clearTimeout_beside (t : Transport) (n : ℕ) : Beside t (t.clearTimeout n) :=
  beside_modify t n _ (fun _ => rfl) fun _ => rfl

theorem keeps_setReadyState (t : Transport) (n : ℕ) (state : ReadyState → ReadyState)
    (calm : ∀ s, (state s).isLive = false) : Keeps t.attempts (t.setReadyState n state).attempts :=
  .modify t.attempts n (calmer_of_calm fun a => calm a.readyState) fun _ on => on

theorem keeps_opened (here : t.attempts[n]? = some a) (connecting : a.readyState = .connecting) :
    Keeps t.attempts (t.setReadyState n fun _ => .opened).attempts := by
  refine ⟨fun m ⟨b, there, state⟩ => ?_, fun m ⟨b, before, on⟩ => ⟨_, getElem?_modified _ before, ?_⟩⟩
  · obtain ⟨c, before, rfl⟩ := of_getElem?_modified there
    by_cases same : n = m
    · exact ⟨a, same ▸ here, connecting ▸ rfl⟩
    · exact ⟨c, before, by rwa [if_neg same] at state⟩
  · split_ifs
    · exact on
    · exact on

theorem onopen_kept (owned : Owned t) (honest : Honest t) (here : t.attempts[n]? = some a)
    (connecting : a.readyState = .connecting) : Owned (t.onopen n a) ∧ Honest (t.onopen n a) := by
  have current : t.ws = some n := owned.live n ⟨a, here, connecting ▸ rfl⟩
  have keeps := keeps_opened here connecting
  have isOpen : IsOpen (t.setReadyState n fun _ => .opened).attempts n :=
    ⟨_, getElem?_modified _ here, by rw [if_pos rfl]⟩
  by_cases handlers : a.handlers = true
  · rw [Transport.onopen, if_pos handlers]
    have beside := clearTimeout_beside (t.setReadyState n fun _ => .opened) n
    have all := keeps.trans beside.keeps
    have opened : Honest ((t.setReadyState n fun _ => .opened).clearTimeout n).opened :=
      honest.keeps all (fun _ => ⟨n, current, beside.isOpen isOpen⟩) honest.resolutions rfl
    have same : Owned ((t.setReadyState n fun _ => .opened).clearTimeout n).opened := owned.keeps all rfl
    exact ⟨owned_resolve same n a, honest_resolve opened rfl n a⟩
  · rw [Transport.onopen, if_neg handlers]
    exact ⟨owned.keeps keeps rfl, honest.keeps keeps (fun _ => ⟨n, current, isOpen⟩) honest.resolutions rfl⟩

theorem honest_without_handlers (owned : Owned t) (honest : Honest t) (here : t.attempts[n]? = some a)
    (handlers : ¬a.handlers = true) {state : ReadyState → ReadyState} (calm : ∀ s, (state s).isLive = false) :
    Honest (t.setReadyState n state) := by
  refine honest.keeps (keeps_setReadyState t n _ calm) (fun connected => ?_) honest.resolutions rfl
  obtain ⟨m, current, isOpen⟩ := honest.connected connected
  refine ⟨m, current, isOpen_modify_ne isOpen ?_⟩
  rintro rfl
  obtain ⟨b, there, on⟩ := owned.handled n current
  exact handlers (some.inj (here.symm.trans there) ▸ on)

theorem onclose_kept (config : Config) (owned : Owned t) (honest : Honest t) (here : t.attempts[n]? = some a) :
    Owned (t.onclose config n a) ∧ Honest (t.onclose config n a) := by
  have keeps := keeps_setReadyState t n (fun _ => .closed) fun _ => rfl
  by_cases handlers : a.handlers = true
  · rw [Transport.onclose, if_pos handlers]
    have beside := clearTimeout_beside (t.setReadyState n fun _ => .closed) n
    have all := keeps.trans beside.keeps
    have scheduled := scheduleReconnect_beside config (((t.setReadyState n fun _ => .closed).clearTimeout n).closed)
    exact ⟨scheduled.owned (owned.keeps all rfl), scheduled.honest (honest.keeps all nofun honest.resolutions rfl)⟩
  · rw [Transport.onclose, if_neg handlers]
    exact ⟨owned.keeps keeps rfl, honest_without_handlers owned honest here handlers fun _ => rfl⟩

theorem honest_close_iff (honest : Honest t) (n : ℕ) :
    Honest (t.setReadyState n .close) ↔ ¬(t.connected = true ∧ t.ws = some n) := by
  have calm : ∀ s : ReadyState, s.close.isLive = false := ReadyState.isLive_close
  constructor
  · rintro after ⟨connected, current⟩
    obtain ⟨m, same, isOpen⟩ := after.connected connected
    obtain rfl := some.inj (current.symm.trans same)
    exact not_live_modify (fun a => calm a.readyState) isOpen.live
  · intro apart
    refine honest.keeps (keeps_setReadyState t n _ calm) (fun connected => ?_) honest.resolutions rfl
    obtain ⟨m, current, isOpen⟩ := honest.connected connected
    refine ⟨m, current, isOpen_modify_ne isOpen ?_⟩
    rintro rfl
    exact apart ⟨connected, current⟩

theorem rejectConnecting_beside (t : Transport) (n : ℕ) (a : Attempt) : Beside t (t.rejectConnecting n a) := by
  rw [Transport.rejectConnecting]
  split_ifs
  · exact { reject_beside { t with isConnecting := false } n a "WebSocket error" with }
  · exact .refl t

theorem onerror_kept (owned : Owned t) (honest : Honest t) :
    Owned (t.onerror n a) ∧ (Honest (t.onerror n a) ↔ ¬(t.connected = true ∧ t.ws = some n)) := by
  have closing : Owned (t.setReadyState n .close) := owned.keeps
    (keeps_setReadyState t n .close ReadyState.isLive_close) rfl
  have after := honest_close_iff honest n
  by_cases handlers : a.handlers = true
  · rw [Transport.onerror, if_pos handlers]
    have told : Beside (t.setReadyState n .close)
        (((t.setReadyState n .close).clearTimeout n).notify (.error "WebSocket error")) :=
      { clearTimeout_beside (t.setReadyState n .close) n with }
    have rejected := rejectConnecting_beside
      (((t.setReadyState n .close).clearTimeout n).notify (.error "WebSocket error")) n a
    exact ⟨rejected.owned (told.owned closing), rejected.honest_iff.trans (told.honest_iff.trans after)⟩
  · rw [Transport.onerror, if_neg handlers]
    exact ⟨closing, after⟩

theorem timeout_kept (owned : Owned t) (honest : Honest t) :
    Owned (t.timeout n a) ∧ (Honest (t.timeout n a) ↔ t.connected = false) := by
  have cleared := clearTimeout_beside t n
  have rejected := reject_beside (t.ws.elim (t.clearTimeout n) fun m => (t.clearTimeout n).setReadyState m .close) n a
    "Connection timeout"
  rw [Transport.timeout, rejected.honest_iff]
  cases current : t.ws with
  | none =>
    rw [current] at rejected
    refine ⟨rejected.owned (cleared.owned owned), iff_of_true (cleared.honest honest) (Bool.eq_false_iff.mpr ?_)⟩
    intro connected
    obtain ⟨m, same, -⟩ := honest.connected connected
    cases current.symm.trans same
  | some m =>
    rw [current] at rejected
    have closing : Owned ((t.clearTimeout n).setReadyState m .close) :=
      (cleared.owned owned).keeps (keeps_setReadyState _ m .close ReadyState.isLive_close) rfl
    refine ⟨rejected.owned closing, (honest_close_iff (cleared.honest honest) m).trans ?_⟩
    rw [and_iff_left (show (t.clearTimeout n).ws = some m from current), Bool.not_eq_true]
    rfl

/-! ## Runs -/

theorem step_kept {e : Event} (owned : Owned t) (honest : Honest t) (taken : step config t e = some t') :
    (Honest t' → Owned t') ∧ (Honest t' ↔ Orderly t e) := by
  cases e with
  | connect thrown =>
    cases taken
    exact ⟨owned_connect owned, honest_connect_iff owned honest thrown⟩
  | disconnect =>
    cases taken
    exact ⟨fun _ => owned_disconnect owned, iff_of_true (honest_disconnect owned honest) trivial⟩
  | onopen n =>
    obtain ⟨a, here, same⟩ := bind_eq_some_iff.mp taken
    obtain ⟨connecting, same⟩ := ite_none_right_eq_some.mp same
    cases same
    have kept := onopen_kept owned honest here connecting
    exact ⟨fun _ => kept.1, iff_of_true kept.2 trivial⟩
  | onerror n =>
    obtain ⟨a, here, same⟩ := bind_eq_some_iff.mp taken
    obtain ⟨-, same⟩ := ite_none_left_eq_some.mp same
    cases same
    exact (onerror_kept owned honest).imp (fun kept _ => kept) id
  | onclose n =>
    obtain ⟨a, here, same⟩ := bind_eq_some_iff.mp taken
    obtain ⟨-, same⟩ := ite_none_left_eq_some.mp same
    cases same
    have kept := onclose_kept config owned honest here
    exact ⟨fun _ => kept.1, iff_of_true kept.2 trivial⟩
  | timeout n =>
    obtain ⟨a, here, same⟩ := bind_eq_some_iff.mp taken
    obtain ⟨-, same⟩ := ite_none_right_eq_some.mp same
    cases same
    exact (timeout_kept owned honest).imp (fun kept _ => kept) id
  | reconnect timer thrown =>
    obtain ⟨-, same⟩ := ite_none_right_eq_some.mp taken
    cases same
    have fired : Beside t { t with reconnectTimeout := none, timers := t.timers.erase timer } := { Beside.refl t with }
    exact ⟨owned_doConnect (fired.owned owned), honest_doConnect_iff (fired.owned owned) (fired.honest honest) 0 true
      thrown⟩

theorem honest_initial : Honest .initial where
  single _ _ one := nomatch one
  connected := nofun
  resolutions := nofun
  created := nofun

theorem owned_initial : Owned .initial := ⟨fun _ alive => (nomatch alive), nofun⟩

/-- The timeout of an attempt that was given up closes the socket of the next. -/
example : ((system ⟨true, none⟩).run [.connect none, .disconnect, .connect none, .onopen 1, .timeout 0]).map
    (fun t => (t.connected, t.ws, t.attempts.map (·.readyState))) = some (true, some 1, [.closing, .closing]) := rfl

end N8n.WebSocketTransport
