import N8n.TaskBrokerInvariant

/-! How offers and requests are matched. An offer leaves the list of pending offers when
it is taken, but a request stays on its list, under a flag, until the runner has
accepted; the request timeout takes it off at any time and three exits of `acceptOffer`
reset the flag. The invariant counts, for every offer and every request, what has been
sent for it together with what is still on the lists, and ties each running call of
`acceptOffer` to the request it was started for. Ids are unique by assumption: an id
is not used for a second offer, or a second request. -/

namespace N8n.TaskBroker

open BrokerMessage List

def Entry.acceptsOffer (offerId : String) : Entry → Bool
  | .toRunner _ (.taskOfferAccept _ id) => id = offerId
  | _ => false

def Entry.concludes (requestId : String) : Entry → Bool
  | .toRequester _ (.taskReady id _) => id = requestId
  | .toRequester _ (.requestExpired id _) => id = requestId
  | _ => false

def offerAccepts (log : List Entry) (offerId : String) : ℕ := log.countP (Entry.acceptsOffer offerId)

def outcomes (log : List Entry) (requestId : String) : ℕ := log.countP (Entry.concludes requestId)

def OfferSeen (log : List Entry) (offerId : String) : Prop :=
  ∃ runnerId taskType validFor, .received (.runnerMessage runnerId (.taskOffer offerId taskType validFor)) ∈ log

def RequestSeen (log : List Entry) (requestId : String) : Prop :=
  ∃ requesterId taskType, .received (.requesterMessage requesterId (.taskRequest requestId taskType)) ∈ log

def UniqueIds (s : Broker) : Event → Prop
  | .runnerMessage _ (.taskOffer offerId _ _) => ¬ OfferSeen s.log offerId
  | .requesterMessage _ (.taskRequest requestId _) => ¬ RequestSeen s.log requestId
  | _ => True

theorem countP_note {entry : Entry} (log : List Entry) (p : Entry → Bool) (other : p entry = false) :
    (entry :: log).countP p = log.countP p :=
  countP_cons_of_neg (by simp [other])
variable {log : List Entry} {α : Type*} {a : α} {l : List α} {p : α → Bool}

theorem OfferSeen.note {offerId : String} (h : OfferSeen log offerId) (entry : Entry) :
    OfferSeen (entry :: log) offerId := by
  obtain ⟨runnerId, taskType, validFor, member⟩ := h
  exact ⟨runnerId, taskType, validFor, mem_cons_of_mem _ member⟩

theorem RequestSeen.note {requestId : String} (h : RequestSeen log requestId) (entry : Entry) :
    RequestSeen (entry :: log) requestId := by
  obtain ⟨requesterId, taskType, member⟩ := h
  exact ⟨requesterId, taskType, mem_cons_of_mem _ member⟩

/-! ## Once

What is used and what is held of a key amount to one at most, and to nothing for a key
that was not seen. -/

structure Once (used held : String → ℕ) (Seen : String → Prop) : Prop where
  once : ∀ key, used key + held key ≤ 1
  seen : ∀ key, 0 < used key + held key → Seen key

namespace Once

variable {used held used' held' : String → ℕ} {Seen Seen' : String → Prop} {key : String}

theorem fresh (h : Once used held Seen) (unseen : ¬ Seen key) : used key + held key = 0 := by
  by_contra some
  exact unseen (h.seen key (Nat.pos_of_ne_zero some))

theorem mono (h : Once used held Seen) (seen : ∀ key, Seen key → Seen' key)
    (less : ∀ key, used' key + held' key ≤ used key + held key) : Once used' held' Seen' where
  once key := Nat.le_trans (less key) (h.once key)
  seen key some := seen key (h.seen key (Nat.lt_of_lt_of_le some (less key)))

theorem add (h : Once used held Seen) (unseen : ¬ Seen key)
    (seen : ∀ other, Seen other → Seen' other) (here : Seen' key) (less : ∀ other, used' other + held' other ≤
      used other + held other + if key = other then 1 else 0) : Once used' held' Seen' where
  once other := by
    have bound := less other
    have before := h.once other
    split at bound
    · rename_i same
      have zero := h.fresh unseen
      rw [← same] at bound ⊢
      omega
    · omega
  seen other some := by
    have bound := less other
    split at bound
    · rename_i same
      exact same ▸ here
    · exact seen other (h.seen other (by omega))

end Once

/-- What `find?` finds is what `eraseP` takes out. -/
theorem perm_eraseP (found : l.find? p = some a) : (a :: l.eraseP p).Perm l := by
  induction l with
  | nil => cases found
  | cons b l ih =>
    by_cases here : p b
    · simp only [find?_cons_of_pos here, Option.some.injEq] at found
      rw [eraseP_cons_of_pos here, found]
    · rw [find?_cons_of_neg here] at found
      rw [eraseP_cons_of_neg here]
      exact (Perm.swap b a _).trans ((ih found).cons b)

theorem countP_eraseP (found : l.find? p = some a) (q : α → Bool) :
    (l.eraseP p).countP q + (if q a then 1 else 0) = l.countP q := by
  rw [← (perm_eraseP found).countP_eq, countP_cons]

theorem eq_of_countP_le_one (once : l.countP p ≤ 1) {b : α} (ha : a ∈ l) (hb : b ∈ l) (pa : p a) (pb : p b) :
    a = b := by
  rw [countP_eq_length_filter] at once
  have ha' : a ∈ l.filter p := mem_filter.mpr ⟨ha, pa⟩
  have hb' : b ∈ l.filter p := mem_filter.mpr ⟨hb, pb⟩
  match kept : l.filter p, once with
  | [], _ =>
    rw [kept] at ha'
    cases ha'
  | [c], _ =>
    rw [kept, mem_singleton] at ha' hb'
    exact ha'.trans hb'.symm

/-! ## Exclusive -/

def Frame.requestId : Frame → Option String
  | .accepting call _ => some call.request.requestId
  | _ => none

def requestIds (frames : List Frame) : List String := frames.filterMap Frame.requestId

theorem mem_requestIds {frames : List Frame} {call : Accept} {phase : Phase}
    (member : .accepting call phase ∈ frames) : call.request.requestId ∈ requestIds frames :=
  mem_filterMap.mpr ⟨_, member, rfl⟩

theorem requestIds_append (frames : List Frame) (frame : Frame) :
    requestIds (frames ++ [frame]) = requestIds frames ++ frame.requestId.toList := by
  simp only [requestIds, filterMap_append]
  cases same : frame.requestId <;> simp [same]

theorem requestIds_settle (taskId : String) (change : Phase → Phase) (frames : List Frame) :
    requestIds (frames.map (Broker.Frame.settle taskId change)) = requestIds frames := by
  rw [requestIds, filterMap_map]
  congr 1
  funext frame
  cases frame with
  | accepting accept phase =>
    simp only [Function.comp_apply, Broker.Frame.settle]
    split <;> rfl
  | _ => rfl

namespace Broker

/-- A request has one running call at most. While a request with a running call is
pending, its runner has not accepted and the flag is set. -/
structure Exclusive (pending : List TaskRequest) (frames : List Frame) (nextRef : ℕ) (Seen : String → Prop) : Prop where
  fresh : ∀ request ∈ pending, request.ref < nextRef
  single : (requestIds frames).Nodup
  seen : ∀ id ∈ requestIds frames, Seen id
  flag : ∀ call phase, .accepting call phase ∈ frames → ∀ request ∈ pending,
    request.requestId = call.request.requestId → phase.early ∧ request.acceptInProgress
  ref : ∀ call phase, .accepting call phase ∈ frames → ∀ request ∈ pending,
    request.ref = call.request.ref → request.requestId = call.request.requestId
  bound : ∀ call phase, .accepting call phase ∈ frames → call.request.ref < nextRef
  types : ∀ call phase, .accepting call phase ∈ frames → call.offer.taskType = call.request.taskType

section Exclusive

variable {pending pending' : List TaskRequest} {frames frames' : List Frame} {nextRef i : ℕ}
  {Seen Seen' : String → Prop} {call : Accept} {phase : Phase}

section

variable (h : Exclusive pending frames nextRef Seen)
include h

theorem Exclusive.widen (seen : ∀ id, Seen id → Seen' id) : Exclusive pending frames nextRef Seen' :=
  { h with seen := fun id member => seen id (h.seen id member) }

theorem Exclusive.framed (ids : (requestIds frames').Sublist (requestIds frames))
    (older : ∀ call phase, .accepting call phase ∈ frames' →
      ∃ before, .accepting call before ∈ frames ∧ (before.early → phase.early)) :
    Exclusive pending frames' nextRef Seen where
  fresh := h.fresh
  single := h.single.sublist ids
  seen id member := h.seen id (ids.subset member)
  flag call phase member request there same := by
    obtain ⟨before, was, kept⟩ := older call phase member
    exact (h.flag call before was request there same).imp_left kept
  ref call phase member := by
    obtain ⟨before, was, _⟩ := older call phase member
    exact h.ref call before was
  bound call phase member := by
    obtain ⟨before, was, _⟩ := older call phase member
    exact h.bound call before was
  types call phase member := by
    obtain ⟨before, was, _⟩ := older call phase member
    exact h.types call before was

theorem Exclusive.suspend (frame : Frame) (other : ∀ call phase, frame ≠ .accepting call phase) :
    Exclusive pending (frames ++ [frame]) nextRef Seen := by
  apply h.framed
  · have none : frame.requestId = none := by
      cases frame with
      | accepting call phase => exact absurd rfl (other _ _)
      | _ => rfl
    rw [requestIds_append, none]
    simp
  · exact fun call phase member => ⟨phase, (mem_suspend member).resolve_right fun new => other _ _ new.symm, id⟩

theorem Exclusive.resumed (i : ℕ) : Exclusive pending (frames.eraseIdx i) nextRef Seen := by
  apply h.framed
  · exact Sublist.filterMap _ (eraseIdx_sublist _ _)
  · exact fun call phase member => ⟨phase, mem_of_mem_eraseIdx member, id⟩

theorem Exclusive.settle (taskId : String)
    (change : Phase → Phase) (kept : ∀ phase, (change phase).early = phase.early) :
    Exclusive pending (frames.map (Frame.settle taskId change)) nextRef Seen := by
  apply h.framed
  · rw [requestIds_settle]
  · intro call phase member
    obtain ⟨before, there, rfl⟩ := mem_settle member
    refine ⟨before, there, fun early => ?_⟩
    split
    · rw [kept]
      exact early
    · exact early

theorem Exclusive.alone (there : frames[i]? = some (.accepting call phase)) :
    call.request.requestId ∉ requestIds (frames.eraseIdx i) := by
  have perm : (call.request.requestId :: requestIds (frames.eraseIdx i)).Perm (requestIds frames) :=
    (perm_resumed there).filterMap Frame.requestId
  exact (nodup_cons.mp (perm.nodup_iff.mpr h.single)).1

theorem Exclusive.again (there : frames[i]? = some (.accepting call phase)) (phase' : Phase)
    (kept : phase.early → phase'.early) :
    Exclusive pending (frames.eraseIdx i ++ [.accepting call phase']) nextRef Seen := by
  have member := mem_of_getElem? there
  have rest := h.resumed i
  have ids : requestIds (frames.eraseIdx i ++ [.accepting call phase']) =
      requestIds (frames.eraseIdx i) ++ [call.request.requestId] := requestIds_append _ _
  have older : ∀ other after, .accepting other after ∈ frames.eraseIdx i ++ [.accepting call phase'] →
      ∃ before, .accepting other before ∈ frames ∧ (before.early → after.early) := by
    intro other after inside
    rcases mem_suspend inside with old | new
    · exact ⟨after, mem_of_mem_eraseIdx old, id⟩
    · cases new
      exact ⟨phase, member, kept⟩
  constructor
  · exact h.fresh
  · rw [ids]
    exact Nodup.append rest.single (nodup_singleton _) (disjoint_singleton.mpr (h.alone there))
  · intro id inside
    rcases mem_append.mp (ids ▸ inside) with old | new
    · exact rest.seen id old
    · exact h.seen id (mem_singleton.mp new ▸ mem_requestIds member)
  · intro other after inside request pending same
    obtain ⟨before, was, early⟩ := older other after inside
    exact (h.flag other before was request pending same).imp_left early
  · intro other after inside
    obtain ⟨before, was, _⟩ := older other after inside
    exact h.ref other before was
  · intro other after inside
    obtain ⟨before, was, _⟩ := older other after inside
    exact h.bound other before was
  · intro other after inside
    obtain ⟨before, was, _⟩ := older other after inside
    exact h.types other before was

theorem Exclusive.fewer (fewer : ∀ request ∈ pending', request ∈ pending) : Exclusive pending' frames nextRef Seen :=
  { h with
    fresh := fun request there => h.fresh request (fewer request there)
    flag := fun call phase member request there => h.flag call phase member request (fewer request there)
    ref := fun call phase member request there => h.ref call phase member request (fewer request there) }

theorem Exclusive.relabel (same : ∀ request ∈ pending', ∃ before ∈ pending, before.requestId = request.requestId ∧
      before.ref = request.ref ∧ (before.acceptInProgress → request.acceptInProgress)) :
    Exclusive pending' frames nextRef Seen := by
  refine { h with
    fresh := fun request there => ?_
    flag := fun call phase member request there named => ?_
    ref := fun call phase member request there named => ?_ }
  · obtain ⟨before, was, _, ref, _⟩ := same request there
    exact ref ▸ h.fresh before was
  · obtain ⟨before, was, id, _, kept⟩ := same request there
    exact (h.flag call phase member before was (id.trans named)).imp_right kept
  · obtain ⟨before, was, id, ref, _⟩ := same request there
    exact id ▸ h.ref call phase member before was (ref.trans named)

theorem Exclusive.addRequest {request : TaskRequest} (unseen : ¬ Seen request.requestId) (ref : request.ref = nextRef) :
    Exclusive (pending ++ [request]) frames (nextRef + 1) Seen where
  fresh other there := by
    rcases mem_append.mp there with old | new
    · exact Nat.lt_succ_of_lt (h.fresh other old)
    · rw [mem_singleton.mp new]
      omega
  single := h.single
  seen := h.seen
  flag call phase member other there same := by
    rcases mem_append.mp there with old | new
    · exact h.flag call phase member other old same
    · rw [mem_singleton.mp new] at same
      exact absurd (h.seen _ (same ▸ mem_requestIds member)) unseen
  ref call phase member other there same := by
    rcases mem_append.mp there with old | new
    · exact h.ref call phase member other old same
    · have bound := h.bound call phase member
      rw [mem_singleton.mp new] at same
      omega
  bound call phase member := Nat.lt_succ_of_lt (h.bound call phase member)
  types := h.types

theorem Exclusive.raise : Exclusive pending frames (nextRef + 1) Seen :=
  { h with
    fresh := fun request there => Nat.lt_succ_of_lt (h.fresh request there)
    bound := fun call phase member => Nat.lt_succ_of_lt (h.bound call phase member) }

end

theorem mem_setAcceptInProgress {ref : ℕ} {value : Bool} {request : TaskRequest}
    (member : request ∈ setAcceptInProgress pending ref value) :
    ∃ before ∈ pending, before.requestId = request.requestId ∧ before.ref = request.ref ∧
      request.acceptInProgress = if before.ref = ref then value else before.acceptInProgress := by
  obtain ⟨before, there, rfl⟩ := List.mem_map.mp member
  refine ⟨before, there, ?_⟩
  split <;> simp

section

variable (h : Exclusive pending frames nextRef Seen)
include h

theorem Exclusive.openAccept {request : TaskRequest}
    (member : request ∈ pending) (idle : request.acceptInProgress = false)
    (byId : ∀ other ∈ pending, other.requestId = request.requestId → other.ref = request.ref)
    (byRef : ∀ other ∈ pending, other.ref = request.ref → other.requestId = request.requestId)
    (seen : Seen request.requestId) (call : Accept) (started : call.request = { request with acceptInProgress := true })
    (types : call.offer.taskType = request.taskType) :
    Exclusive (setAcceptInProgress pending request.ref true)
      (frames ++ [.accepting call (.offerSent none)]) nextRef Seen := by
  have id : call.request.requestId = request.requestId := by rw [started]
  have ref : call.request.ref = request.ref := by rw [started]
  have new : request.requestId ∉ requestIds frames := by
    intro inside
    obtain ⟨frame, there, same⟩ := mem_filterMap.mp inside
    cases frame with
    | accepting other phase =>
      have flag := (h.flag other phase there request member (Option.some.inj same).symm).2
      simp [idle] at flag
    | _ => cases same
  have flagged : Exclusive (setAcceptInProgress pending request.ref true) frames nextRef Seen := by
    refine h.relabel fun other there => ?_
    obtain ⟨before, was, named, same, value⟩ := mem_setAcceptInProgress there
    refine ⟨before, was, named, same, fun set => ?_⟩
    rw [value]
    split
    · rfl
    · exact set
  have ids : requestIds (frames ++ [.accepting call (.offerSent none)]) =
      requestIds frames ++ [call.request.requestId] := requestIds_append _ _
  constructor
  · exact flagged.fresh
  · rw [ids, id]
    exact Nodup.append h.single (nodup_singleton _) (disjoint_singleton.mpr new)
  · intro other inside
    rcases mem_append.mp (ids ▸ inside) with old | last
    · exact h.seen other old
    · rw [mem_singleton.mp last, id]
      exact seen
  · intro other phase inside pended there same
    rcases mem_suspend inside with old | last
    · exact flagged.flag other phase old pended there same
    · cases last
      obtain ⟨before, was, named, _, value⟩ := mem_setAcceptInProgress there
      have own := byId before was (named.trans (same.trans id))
      rw [value, if_pos own]
      exact ⟨rfl, rfl⟩
  · intro other phase inside pended there same
    rcases mem_suspend inside with old | last
    · exact flagged.ref other phase old pended there same
    · cases last
      obtain ⟨before, was, named, equal, _⟩ := mem_setAcceptInProgress there
      rw [← named, id]
      exact byRef before was (equal.trans (same.trans ref))
  · intro other phase inside
    rcases mem_suspend inside with old | last
    · exact h.bound other phase old
    · cases last
      exact ref ▸ h.fresh request member
  · intro other phase inside
    rcases mem_suspend inside with old | last
    · exact h.types other phase old
    · cases last
      rw [types, started]

theorem Exclusive.giveUp (there : frames[i]? = some (.accepting call phase)) :
    Exclusive (setAcceptInProgress pending call.request.ref false) (frames.eraseIdx i) nextRef Seen := by
  have rest := h.resumed i
  refine { rest with
    fresh := fun request inside => ?_
    flag := fun other after member request inside same => ?_
    ref := fun other after member request inside same => ?_ }
  · obtain ⟨before, was, _, equal, _⟩ := mem_setAcceptInProgress inside
    exact equal ▸ h.fresh before was
  · obtain ⟨before, was, named, _, value⟩ := mem_setAcceptInProgress inside
    have different : before.ref ≠ call.request.ref := by
      intro own
      have mine := h.ref call phase (mem_of_getElem? there) before was own
      exact h.alone there (mine ▸ named ▸ same ▸ mem_requestIds member)
    rw [value, if_neg different]
    exact rest.flag other after member before was (named.trans same)
  · obtain ⟨before, was, named, equal, _⟩ := mem_setAcceptInProgress inside
    exact named ▸ rest.ref other after member before was (equal.trans same)

/-- The request of the call leaves the list, so that the call may go past the answer of
its runner. -/
theorem Exclusive.announce (there : frames[i]? = some (.accepting call phase)) (phase' : Phase)
    (fewer : ∀ request ∈ pending', request ∈ pending)
    (gone : ∀ request ∈ pending', request.requestId ≠ call.request.requestId) :
    Exclusive pending' (frames.eraseIdx i ++ [.accepting call phase']) nextRef Seen := by
  have rest := (h.resumed i).fewer fewer
  have early := h.again there (.awaitingRunner none) (fun _ => rfl)
  have ids : requestIds (frames.eraseIdx i ++ [.accepting call phase']) =
      requestIds (frames.eraseIdx i ++ [.accepting call (.awaitingRunner none)]) := by
    rw [requestIds_append, requestIds_append]
    rfl
  have older : ∀ other after, .accepting other after ∈ frames.eraseIdx i ++ [.accepting call phase'] →
      ∃ before, .accepting other before ∈ frames := by
    intro other after inside
    rcases mem_suspend inside with old | new
    · exact ⟨after, mem_of_mem_eraseIdx old⟩
    · cases new
      exact ⟨phase, mem_of_getElem? there⟩
  constructor
  · exact rest.fresh
  · rw [ids]
    exact early.single
  · rw [ids]
    exact early.seen
  · intro other after inside request pended same
    rcases mem_suspend inside with old | new
    · exact rest.flag other after old request pended same
    · cases new
      exact absurd same (gone request pended)
  · intro other after inside request pended
    obtain ⟨before, was⟩ := older other after inside
    exact h.ref other before was request (fewer request pended)
  · intro other after inside
    obtain ⟨before, was⟩ := older other after inside
    exact h.bound other before was
  · intro other after inside
    obtain ⟨before, was⟩ := older other after inside
    exact h.types other before was

end

end Exclusive

/-! ## Matching -/

structure Matching (offers : List TaskOffer) (pending : List TaskRequest) (frames : List Frame)
    (nextRef : ℕ) (log : List Entry) : Prop where
  offers : Once (offerAccepts log) (fun id => offers.countP (·.offerId = id)) (OfferSeen log)
  requests : Once (outcomes log) (fun id => pending.countP (·.requestId = id)) (RequestSeen log)
  calls : Exclusive pending frames nextRef (RequestSeen log)

def Matched (s : Broker) : Prop :=
  Matching s.pendingTaskOffers s.pendingTaskRequests s.frames s.nextRef s.log

section Matching

variable {offers offers' : List TaskOffer} {pending : List TaskRequest} {frames : List Frame}
  {nextRef i : ℕ} {log : List Entry} {call : Accept} {phase : Phase}

section

variable (h : Matching offers pending frames nextRef log) {request : TaskRequest} {requestId : String}
include h

theorem Matching.note (entry : Entry) (noOffer : ∀ id, Entry.acceptsOffer id entry = false)
    (noRequest : ∀ id, Entry.concludes id entry = false) :
    Matching offers pending frames nextRef (entry :: log) where
  offers := h.offers.mono (fun _ seen => seen.note entry) fun id =>
    Nat.add_le_add_right (Nat.le_of_eq (countP_note log _ (noOffer id))) _
  requests := h.requests.mono (fun _ seen => seen.note entry) fun id =>
    Nat.add_le_add_right (Nat.le_of_eq (countP_note log _ (noRequest id))) _
  calls := h.calls.widen fun _ seen => seen.note entry

theorem Matching.fewerOffers (fewer : offers'.Sublist offers) : Matching offers' pending frames nextRef log :=
  { h with offers := h.offers.mono (fun _ seen => seen) fun _ =>
      Nat.add_le_add_left (fewer.countP_le) _ }

/-- A pending request leaves the list, and its requester is told unless it is gone. -/
theorem Matching.conclude (found : pending.find? (·.requestId = requestId) = some request)
    (sent : Prop) [Decidable sent] (entry : Entry) (noOffer : ∀ id, Entry.acceptsOffer id entry = false)
    (own : ∀ id, Entry.concludes id entry = decide (requestId = id)) :
    Matching offers (pending.eraseP (·.requestId = requestId)) frames nextRef (if sent then entry :: log else log) := by
  have same : request.requestId = requestId := by simpa using find?_some found
  have rest : Matching offers (pending.eraseP (·.requestId = requestId)) frames nextRef log :=
    { h with
      requests := h.requests.mono (fun _ seen => seen) fun _ =>
        Nat.add_le_add_left (eraseP_sublist.countP_le) _
      calls := h.calls.fewer fun _ member => mem_of_mem_eraseP member }
  split
  · refine ⟨?_, ?_, rest.calls.widen fun _ seen => seen.note entry⟩
    · exact h.offers.mono (fun _ seen => seen.note entry) fun id =>
        Nat.add_le_add_right (Nat.le_of_eq (countP_note log _ (noOffer id))) _
    · refine h.requests.mono (fun _ seen => seen.note entry) fun id => ?_
      have counted := countP_eraseP found fun other : TaskRequest => decide (other.requestId = id)
      have told : outcomes (entry :: log) id = outcomes log id + if requestId = id then 1 else 0 := by
        simp only [outcomes, countP_cons, own, decide_eq_true_eq]
      rw [same] at counted
      simp only [decide_eq_true_eq] at counted
      omega
  · exact rest

theorem Matching.gone (found : pending.find? (·.requestId = requestId) = some request) :
    ∀ other ∈ pending.eraseP (·.requestId = requestId), other.requestId ≠ requestId := by
  have same : request.requestId = requestId := by simpa using find?_some found
  have counted := countP_eraseP found fun other : TaskRequest => decide (other.requestId = requestId)
  have once := h.requests.once requestId
  simp only [same, decide_true, if_true] at counted
  have none : (pending.eraseP (·.requestId = requestId)).countP (·.requestId = requestId) = 0 := by
    omega
  intro other member
  simpa using countP_eq_zero.mp none other member

theorem Matching.unique {other : TaskRequest} (member : request ∈ pending) (member' : other ∈ pending)
    (same : other.requestId = request.requestId) : other = request := by
  have once := h.requests.once request.requestId
  refine eq_of_countP_le_one (p := fun r => decide (r.requestId = request.requestId)) (by omega)
    member' member (by simpa using same) (by simp)

end

end Matching

section Step

variable {cfg : Config} {s₀ s s' : Broker} {e : Event} {offer : TaskOffer} {call : Accept} {phase : Phase} {i : ℕ}

section

variable (h : s.Matched)
include h

theorem Matched.messageRunner (id : String) (message : ToRunner)
    (other : ∀ offerId, Entry.acceptsOffer offerId (.toRunner id message) = false) :
    (s.messageRunner id message).Matched := by
  unfold Broker.messageRunner
  split
  · exact h.note _ other fun _ => rfl
  · exact h

theorem Matched.messageRequester (id : String) (message : ToRequester)
    (other : ∀ requestId, Entry.concludes requestId (.toRequester id message) = false) :
    (s.messageRequester id message).Matched := by
  unfold Broker.messageRequester
  split
  · exact h.note _ (fun _ => rfl) other
  · exact h

theorem Matched.cancelTask (taskId reason : String) : (s.cancelTask taskId reason).Matched := by
  unfold Broker.cancelTask
  split
  · exact h
  · rename_i task _
    exact Matched.messageRunner (s := { s with tasks := s.tasks.delete taskId }) h _ _ fun _ => rfl

theorem Matched.failTask (taskId : String) (error : BrokerError) : (s.failTask taskId error).Matched := by
  unfold Broker.failTask
  split
  · exact h
  · exact Matched.messageRequester (s := { s with tasks := s.tasks.delete taskId }) h _ _ fun _ => rfl

theorem Matched.finishTask (taskId : String) (message : String → ToRequester)
    (other : ∀ id requesterId requestId, Entry.concludes requestId (.toRequester requesterId (message id)) = false) :
    (s.finishTask taskId message).Matched := by
  unfold Broker.finishTask
  split
  · exact h
  · rename_i task _
    have sent := Matched.messageRequester (s := s.clearTimeout task.timeout) h task.requesterId
      (message task.id) (other _ _)
    exact { sent with calls := sent.calls.suspend (.terminalSent task.id) (by simp) }

theorem Matched.settle (taskId : String) (change : Phase → Phase) (kept : ∀ phase, (change phase).early = phase.early) :
    Matching s.pendingTaskOffers s.pendingTaskRequests (s.frames.map (Frame.settle taskId change)) s.nextRef s.log :=
  { h with calls := h.calls.settle taskId change kept }

theorem Matched.answerRunner (taskId : String) (answer : RunnerAnswer) : (s.answerRunner taskId answer).Matched := by
  unfold Broker.answerRunner
  split
  · exact h.settle taskId _ (early_settleRunner answer)
  · exact h

theorem Matched.addOffer (unseen : ¬ OfferSeen s.log offer.offerId) {runnerId taskType : String} {validFor : Int} :
    Matching (s.pendingTaskOffers ++ [offer]) s.pendingTaskRequests s.frames s.nextRef
      (.received (.runnerMessage runnerId (.taskOffer offer.offerId taskType validFor)) :: s.log) where
  offers := by
    refine h.offers.add unseen (fun _ seen => seen.note _) ⟨_, _, _, mem_cons_self⟩ fun other => ?_
    rw [offerAccepts, countP_note _ _ rfl, countP_append, countP_singleton]
    simp only [decide_eq_true_eq, offerAccepts]
    omega
  requests := (h.note (.received _) (fun _ => rfl) (fun _ => rfl)).requests
  calls := (h.note (.received _) (fun _ => rfl) (fun _ => rfl)).calls

theorem Matched.addRequest (request : TaskRequest)
    (unseen : ¬ RequestSeen s.log request.requestId) (ref : request.ref = s.nextRef)
    {requesterId taskType : String} :
    Matching s.pendingTaskOffers (s.pendingTaskRequests ++ [request]) s.frames (s.nextRef + 1)
      (.received (.requesterMessage requesterId (.taskRequest request.requestId taskType)) :: s.log) where
  offers := (h.note (.received _) (fun _ => rfl) (fun _ => rfl)).offers
  requests := by
    refine h.requests.add unseen (fun _ seen => seen.note _) ⟨_, _, mem_cons_self⟩ fun other => ?_
    rw [outcomes, countP_note _ _ rfl, countP_append, countP_singleton]
    simp only [decide_eq_true_eq, outcomes]
    omega
  calls := (h.calls.addRequest unseen ref).widen fun _ seen => seen.note _

theorem Matched.drain {requestId : String} (unseen : ¬ RequestSeen s.log requestId) (requesterId taskType : String) :
    Matching s.pendingTaskOffers s.pendingTaskRequests s.frames (s.nextRef + 1)
      (.toRequester requesterId (.requestExpired requestId .draining) ::
        .received (.requesterMessage requesterId (.taskRequest requestId taskType)) :: s.log) where
  offers := ((h.note (.received _) (fun _ => rfl) (fun _ => rfl)).offers.mono (fun _ seen => seen.note _) fun other =>
      Nat.add_le_add_right (Nat.le_of_eq (countP_note _ _ rfl)) _)
  requests := by
    refine h.requests.add unseen (fun _ seen => (seen.note _).note _)
      ⟨_, _, mem_cons_of_mem _ mem_cons_self⟩ fun other => ?_
    rw [outcomes, countP_cons, countP_note _ _ rfl]
    simp only [Entry.concludes, decide_eq_true_eq, outcomes]
    omega
  calls := h.calls.raise.widen fun _ seen => (seen.note _).note _

theorem Matched.handleRequestTimeout (requestId : String) : (s.handleRequestTimeout requestId).Matched := by
  unfold Broker.handleRequestTimeout
  split
  · exact h
  · rename_i request found
    have same : request.requestId = requestId := by simpa using find?_some found
    refine h.conclude found (request.requesterId ∈ s.requesters) _ (fun _ => rfl) fun id => ?_
    rw [Entry.concludes, same]

end

theorem countP_setAcceptInProgress (requests : List TaskRequest) (ref : ℕ) (value : Bool)
    (requestId : String) : (setAcceptInProgress requests ref value).countP (·.requestId = requestId) =
      requests.countP (·.requestId = requestId) := by
  rw [setAcceptInProgress, countP_map]
  congr 1
  funext request
  simp only [Function.comp_apply]
  split <;> rfl

theorem countP_setRequestTimeout (requests : List TaskRequest) (ref timeout : ℕ)
    (requestId : String) : (setRequestTimeout requests ref timeout).countP (·.requestId = requestId) =
      requests.countP (·.requestId = requestId) := by
  rw [setRequestTimeout, countP_map]
  congr 1
  funext request
  simp only [Function.comp_apply]
  split <;> rfl

theorem Matched.openAccept (h : s.Matched) {request : TaskRequest} (taskId : String)
    (pending : request ∈ s.pendingTaskRequests) (nodup : (s.pendingTaskRequests.map (·.ref)).Nodup)
    (idle : request.acceptInProgress = false)
    (found : s.pendingTaskOffers.find? (·.taskType = request.taskType) = some offer) :
    ((s.claimOffer request).openAccept ⟨taskId, offer, { request with acceptInProgress := true }⟩).Matched := by
  have seen : RequestSeen s.log request.requestId := by
    refine h.requests.seen _ (Nat.add_pos_right _ (countP_pos_iff.mpr ⟨request, pending, ?_⟩))
    simp
  have calls := h.calls.openAccept pending idle (fun other member same => by rw [h.unique pending member same])
    (fun other member same => by rw [inj_on_of_nodup_map nodup member pending same])
    seen ⟨taskId, offer, { request with acceptInProgress := true }⟩ rfl
    (by simpa using find?_some found)
  have requests : Once (outcomes s.log) (fun id => (setAcceptInProgress s.pendingTaskRequests
      request.ref true).countP (·.requestId = id)) (RequestSeen s.log) := by
    refine h.requests.mono (fun _ seen => seen) fun id => ?_
    exact Nat.add_le_add_left (Nat.le_of_eq (countP_setAcceptInProgress _ _ _ id)) _
  have counted := fun id => countP_eraseP found fun other : TaskOffer => decide (other.offerId = id)
  unfold Broker.openAccept Broker.messageRunner
  split
  · refine ⟨?_, ?_, calls.widen fun _ seen => seen.note _⟩
    · refine h.offers.mono (fun _ seen => seen.note _) fun id => ?_
      have before := counted id
      dsimp only [suspend, setTimeout, claimOffer]
      rw [offerAccepts, countP_cons]
      simp only [offerAccepts, Entry.acceptsOffer, decide_eq_true_eq] at before ⊢
      omega
    · exact requests.mono (fun _ seen => seen.note _) fun id =>
        Nat.add_le_add_right (Nat.le_of_eq (countP_note _ _ rfl)) _
  · exact ⟨h.offers.mono (fun _ seen => seen) fun id =>
      Nat.add_le_add_left (eraseP_sublist.countP_le) _, requests, calls⟩

theorem Matched.acceptFailed (h : s.Matched)
    (there : s.frames[i]? = some (.accepting call phase)) (error : BrokerError) :
    ((s.resumed i).acceptFailed call error).Matched := by
  have freed : ((s.resumed i).freeRequest call).Matched := by
    refine { h with requests := ?_, calls := h.calls.giveUp there }
    refine h.requests.mono (fun _ seen => seen) fun id => ?_
    exact Nat.add_le_add_left (Nat.le_of_eq (countP_setAcceptInProgress _ _ _ id)) _
  unfold Broker.acceptFailed
  split
  · refine { freed with requests := ?_, calls := freed.calls.relabel fun request member => ?_ }
    · refine freed.requests.mono (fun _ seen => seen) fun id => ?_
      exact Nat.add_le_add_left (Nat.le_of_eq (countP_setRequestTimeout _ _ _ id)) _
    · obtain ⟨before, was, rfl⟩ := List.mem_map.mp member
      refine ⟨before, was, ?_⟩
      split <;> simp
  · exact freed

theorem Matched.announceTask (h : s.Matched) (there : s.frames[i]? = some (.accepting call phase))
    (pending : ∃ request ∈ s.pendingTaskRequests, request.requestId = call.request.requestId) :
    (((s.resumed i).storeTask call).announceTask call).Matched := by
  obtain ⟨request, found⟩ : ∃ request, s.pendingTaskRequests.find?
      (·.requestId = call.request.requestId) = some request := by
    rw [← Option.isSome_iff_exists, find?_isSome]
    simpa using pending
  have told := h.conclude found (call.request.requesterId ∈ s.requesters)
    (.toRequester call.request.requesterId (.taskReady call.request.requestId call.taskId))
    (fun _ => rfl) (fun _ => rfl)
  have calls := told.calls.announce there (.readySent none) (fun _ member => member) (h.gone found)
  dsimp only [Broker.announceTask, storeTask, Matched, suspend, Broker.messageRequester, setTimeout, clearTimeout]
  exact { told with calls := calls }

theorem matched_closed (before : s₀.Matched) (unique : UniqueIds s₀ e) : Closed cfg s₀ e Matched Matched where
  deleteRunner runnerId error _ hs := hs.fewerOffers filter_sublist
  entry entry neutral _ hs := by
    refine hs.note entry (fun id => ?_) fun id => ?_
    · revert neutral
      unfold Entry.acceptsOffer
      split <;> simp [Entry.neutral]
    · revert neutral
      unfold Entry.concludes
      split <;> simp [Entry.neutral]
  frame frame neutral _ hs := by
    refine { hs with calls := hs.calls.suspend frame fun call phase same => ?_ }
    subst same
    cases neutral
  settleRunner taskId error hs := hs.settle _ _ (early_settleRunner _)
  answerRunner taskId error hs := hs.answerRunner taskId _
  accepted runnerId taskId _ _ hs := hs.answerRunner taskId _
  rejectRequester taskId error hs := hs.settle _ _ (early_settleRequester _)
  settings _ taskId _ _ hs := hs.settle _ _ (early_settleRequester _)
  cancel taskId reason hs := hs.cancelTask taskId reason
  fail taskId error _ _ hs := hs.failTask taskId error
  finish taskId data error _ _ _ _ _ hs :=
    ⟨hs.finishTask taskId _ fun _ _ _ => rfl, hs.finishTask taskId _ fun _ _ _ => rfl⟩
  timeoutFrame _ _ _ _ _ _ hs := { hs with calls := hs.calls.suspend _ (by simp) }
  expireOffers hs := hs.fewerOffers filter_sublist
  addOffer runnerId taskType validFor offer same _ _ hs := by
    subst same
    exact before.addOffer unique
  addRequest requestId requesterId taskType timeout same hs := by
    subst same
    exact before.addRequest ⟨s₀.nextRef, requestId, requesterId, taskType, timeout, false⟩ unique rfl
  drain requestId requesterId taskType same hs := by
    subst same
    exact before.drain unique requesterId taskType
  skipRef hs := { hs with calls := hs.calls.raise }
  expire requestId hs := hs.handleRequestTimeout requestId
  settle request offer _ pending nodup idle found hs := hs.openAccept _ pending nodup idle found
  resumeNeutral i _ _ _ _ hs := { hs with calls := hs.calls.resumed i }
  resumeTerminal i taskId _ _ hs := { hs with calls := hs.calls.resumed i }
  resumeTimeout i taskId _ _ hs :=
    Matched.finishTask (s := (s₀.record e).resumed i) { hs with calls := hs.calls.resumed i } taskId _
      fun _ _ _ => rfl
  advance i accept _ phase' _ there sent hs := by
    refine { hs with calls := hs.calls.again there phase' fun early => ?_ }
    cases sent with
    | offer answer => rfl
    | ready answer => exact early
  giveUp i accept error _ there hs := hs.acceptFailed there error
  announce i accept _ there pending hs := hs.announceTask there pending
  orphan i accept _ _ _ hs := { hs with calls := hs.calls.resumed i }
  foundRunner i accept settings task runner _ there _ _ hs :=
    { hs with calls := hs.calls.again there _ fun early => early }
  lostRunner i accept settings task error _ there _ _ hs :=
    Matched.failTask (s := ((s₀.record e).resumed i).suspend (.accepting accept .runnerMissing))
      { hs with calls := hs.calls.again there _ fun early => early } _ _
  cancelled i accept phase reason _ there cancels hs := by
    refine Matched.cancelTask (s := ((s₀.record e).resumed i).suspend (.accepting accept .cancelSent))
      { hs with calls := hs.calls.again there _ fun early => ?_ } _ _
    cases cancels <;> exact early
  started i accept runnerId settings task _ there found hs := by
    rw [startTask_known (s := (s₀.record e).resumed i) found]
    have again : (((s₀.record e).resumed i).suspend (.accepting accept .settingsSent)).Matched :=
      { hs with calls := hs.calls.again there _ fun early => early }
    exact again.messageRunner runnerId (.taskSettings accept.taskId settings) fun _ => rfl
  ended i accept phase _ _ _ hs := { hs with calls := hs.calls.resumed i }

theorem step_matched (coherent : s.Coherent) (h : s.Matched) (unique : UniqueIds s e)
    (taken : step cfg s e = some s') : s'.Matched :=
  step_closed (matched_closed h unique) coherent (h.note (.received e) (fun _ => rfl) (fun _ => rfl)) taken

theorem matched_start : Broker.start.Matched where
  offers := ⟨by simp [start, offerAccepts], by simp [start, offerAccepts]⟩
  requests := ⟨by simp [start, outcomes], by simp [start, outcomes]⟩
  calls := ⟨by simp [start], by simp [start, requestIds], by simp [start, requestIds],
    by simp [start], by simp [start], by simp [start], by simp [start]⟩

end Step

/-- Whatever the order of events, an offer is accepted at most once, a request has one
accept attempt at a time, of an offer of its own type, and its requester hears one
outcome at most. -/
theorem matched_at_most_once {cfg : Config} {s : Broker} (h : (system cfg).ReachableVia UniqueIds s) :
    (∀ offerId, offerAccepts s.log offerId ≤ 1) ∧ (requestIds s.frames).Nodup ∧
      (∀ call phase, .accepting call phase ∈ s.frames → call.offer.taskType = call.request.taskType) ∧
      ∀ requestId, outcomes s.log requestId ≤ 1 := by
  have inv : s.Coherent ∧ s.Matched := by
    refine h.invariant (P := fun s => s.Coherent ∧ s.Matched) ⟨(wf_start cfg).coherent, matched_start⟩ ?_
    intro s e s' inv unique taken
    exact ⟨step_coherent inv.1 taken, step_matched inv.1 inv.2 unique taken⟩
  have offers := inv.2.offers.once
  have requests := inv.2.requests.once
  exact ⟨fun id => Nat.le_trans (Nat.le_add_right _ _) (offers id), inv.2.calls.single,
    inv.2.calls.types, fun id => Nat.le_trans (Nat.le_add_right _ _) (requests id)⟩

/-- `UniqueIds`, in a form that runs. -/
def uniqueIds (s : Broker) : Event → Bool
  | .runnerMessage _ (.taskOffer offerId _ _) => s.log.all fun
    | .received (.runnerMessage _ (.taskOffer other _ _)) => other ≠ offerId
    | _ => true
  | .requesterMessage _ (.taskRequest requestId _) => s.log.all fun
    | .received (.requesterMessage _ (.taskRequest other _)) => other ≠ requestId
    | _ => true
  | _ => true

theorem uniqueIds_sound (s : Broker) (e : Event) (checked : s.uniqueIds e = true) : UniqueIds s e := by
  unfold UniqueIds
  split
  · rintro ⟨runnerId, taskType, validFor, member⟩
    simpa using List.all_eq_true.mp checked _ member
  · rintro ⟨requesterId, taskType, member⟩
    simpa using List.all_eq_true.mp checked _ member
  · trivial

/-- A request that is matched a second time, after its first runner turned it down. -/
def matchedAgain : List Event :=
  [.registerRunner ⟨"r", ["javascript"]⟩, .registerRequester "q",
    .requesterMessage "q" (.taskRequest "request" "javascript"),
    .runnerMessage "r" (.taskOffer "first" "javascript" (-1)), .resume 0,
    .runnerMessage "r" (.taskRejected "" "busy"), .resume 0,
    .runnerMessage "r" (.taskOffer "second" "javascript" (-1)), .resume 0,
    .runnerMessage "r" (.taskAccepted "|"), .resume 0]

theorem matched_at_most_once_when_rejected :
    ∃ s, (system .sample).ReachableVia UniqueIds s ∧ offerAccepts s.log "first" = 1 ∧
      offerAccepts s.log "second" = 1 ∧ outcomes s.log "request" = 1 ∧
      ∀ requestId, outcomes s.log requestId ≤ 1 := by
  have start : (system .sample).ReachableVia UniqueIds _ := .init
  obtain ⟨s, reached, seen⟩ := TransitionSystem.reachableVia_runChecked uniqueIds uniqueIds_sound
    start matchedAgain (fun s => offerAccepts s.log "first" = 1 ∧ offerAccepts s.log "second" = 1 ∧
      outcomes s.log "request" = 1) (by decide)
  have seen := of_decide_eq_true seen
  exact ⟨s, reached, seen.1, seen.2.1, seen.2.2, (matched_at_most_once reached).2.2.2⟩

end Broker

end N8n.TaskBroker
