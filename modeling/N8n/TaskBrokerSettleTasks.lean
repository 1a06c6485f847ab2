import N8n.TaskBrokerInvariant

/-! Whether a match is left unmade. `settleTasks` runs when a request or an offer
arrives, and after it no request without the flag has an offer of its type. Offers and
requests only go away otherwise, and the clock only lets offers expire, with one
exception: `acceptOffer` resets the flag of its request when the runner turns the offer
down, puts it off or does not answer, and does not look at the offers that came in
meanwhile. The request then waits next to them until another one arrives. -/

namespace N8n.TaskBroker

open List

namespace Broker

def Offered (offers : List TaskOffer) (now : Int) (taskType : String) : Prop :=
  ∃ offer ∈ offers, offer.taskType = taskType ∧ TaskOffer.expired now offer = false

def AllMatched (offers : List TaskOffer) (requests : List TaskRequest) (now : Int) : Prop :=
  ∀ request ∈ requests, request.acceptInProgress = false → ¬ Offered offers now request.taskType

def NoMatchLeft (s : Broker) : Prop := AllMatched s.pendingTaskOffers s.pendingTaskRequests s.now

instance (offers : List TaskOffer) (now : Int) (taskType : String) : Decidable (Offered offers now taskType) :=
  inferInstanceAs (Decidable (∃ offer ∈ offers, offer.taskType = taskType ∧ TaskOffer.expired now offer = false))

instance (s : Broker) : Decidable s.NoMatchLeft :=
  inferInstanceAs (Decidable (∀ request ∈ s.pendingTaskRequests,
    request.acceptInProgress = false → ¬ Offered s.pendingTaskOffers s.now request.taskType))

/-- `acceptOffer` is about to reset the flag of a request that an offer waits for. -/
def Strands (s : Broker) : Event → Prop
  | .resume i => ∃ accept error, s.frames[i]? = some (.accepting accept (.awaitingRunner (some (.rejected error)))) ∧
      ∃ request ∈ s.pendingTaskRequests, request.ref = accept.request.ref ∧
        Offered s.pendingTaskOffers s.now request.taskType
  | _ => False

/-! ## After `settleTasks` -/

section Settle

variable {cfg : Config} {s : Broker}

def Served (s : Broker) (request : TaskRequest) : Prop :=
  request.acceptInProgress ∨ ∀ offer ∈ s.pendingTaskOffers, offer.taskType ≠ request.taskType

theorem settleRequest_served {request : TaskRequest} {rest : List TaskRequest}
    (h : ∀ other ∈ s.pendingTaskRequests, s.Served other ∨ other ∈ request :: rest) :
    ∀ other ∈ (settleRequest cfg s request).pendingTaskRequests,
      (settleRequest cfg s request).Served other ∨ other ∈ rest := by
  unfold settleRequest
  split
  · rename_i flagged
    intro other member
    rcases h other member with served | listed
    · exact .inl served
    · rcases mem_cons.mp listed with same | later
      · exact .inl (.inl (same ▸ flagged))
      · exact .inr later
  · split
    · rename_i missing
      have none := find?_eq_none.mp missing
      intro other member
      rcases h other member with served | listed
      · exact .inl served
      · rcases mem_cons.mp listed with same | later
        · refine .inl (.inr fun offer waiting => ?_)
          simpa [same] using none offer waiting
        · exact .inr later
    · intro other member
      obtain ⟨before, there, rfl⟩ := List.mem_map.mp member
      -- the offers shrink and flags are only set, so what was served stays served
      split
      · exact .inl (.inl rfl)
      · rename_i different
        rcases h before there with served | listed
        · refine .inl (served.imp_right fun apart offer waiting => apart offer ?_)
          exact mem_of_mem_eraseP waiting
        · rcases mem_cons.mp listed with same | later
          · exact absurd (congrArg TaskRequest.ref same) different
          · exact .inr later

theorem settleFold_served (requests : List TaskRequest)
    (h : ∀ other ∈ s.pendingTaskRequests, s.Served other ∨ other ∈ requests) :
    ∀ other ∈ (requests.foldl (settleRequest cfg) s).pendingTaskRequests,
      (requests.foldl (settleRequest cfg) s).Served other := by
  induction requests generalizing s with
  | nil => exact fun other member => (h other member).resolve_right (by simp)
  | cons request rest ih => exact ih (settleRequest_served h)

theorem settleTasks_noMatchLeft (cfg : Config) (s : Broker) : (settleTasks cfg s).NoMatchLeft := by
  intro request member idle
  rintro ⟨offer, waiting, same, _⟩
  have served : (settleTasks cfg s).Served request :=
    settleFold_served s.expireTasks.pendingTaskRequests (fun _ listed => .inr listed) request member
  rcases served with flagged | apart
  · simp [idle] at flagged
  · exact apart offer waiting same

end Settle

/-! ## One event -/

section Step

variable {cfg : Config} {s₀ s s' : Broker} {e : Event}

theorem expired_later {now : Int} {offer : TaskOffer} (elapsed : ℕ)
    (h : TaskOffer.expired (now + elapsed) offer = false) : TaskOffer.expired now offer = false := by
  simp only [TaskOffer.expired, decide_eq_false_iff_not] at h ⊢
  omega

section AllMatched

variable {offers offers' : List TaskOffer} {requests requests' : List TaskRequest} {now : Int}

section

variable (h : AllMatched offers requests now)
include h

theorem AllMatched.later (elapsed : ℕ) : AllMatched offers requests (now + elapsed) := by
  intro request member idle
  rintro ⟨offer, waiting, same, valid⟩
  exact h request member idle ⟨offer, waiting, same, expired_later elapsed valid⟩

theorem AllMatched.fewerOffers (fewer : ∀ offer ∈ offers', offer ∈ offers) : AllMatched offers' requests now := by
  intro request member idle
  rintro ⟨offer, waiting, rest⟩
  exact h request member idle ⟨offer, fewer offer waiting, rest⟩

theorem AllMatched.fewerRequests (fewer : ∀ request ∈ requests', request ∈ requests) :
    AllMatched offers requests' now :=
  fun request member => h request (fewer request member)

end

end AllMatched

theorem acceptFailed_offers (s : Broker) (accept : Accept) (error : BrokerError) :
    (s.acceptFailed accept error).pendingTaskOffers = s.pendingTaskOffers ∧
      (s.acceptFailed accept error).now = s.now := by
  unfold acceptFailed
  split <;> exact ⟨rfl, rfl⟩

/-- The flag is reset for the object of the call, in every failure exit. -/
theorem mem_acceptFailed {accept : Accept} {error : BrokerError} {request : TaskRequest} :
    request ∈ (s.acceptFailed accept error).pendingTaskRequests →
      ∃ before ∈ s.pendingTaskRequests, before.taskType = request.taskType ∧
        if before.ref = accept.request.ref then request.acceptInProgress = false
        else request.acceptInProgress = before.acceptInProgress := by
  intro member
  unfold acceptFailed at member
  split at member
  · obtain ⟨freed, there, rfl⟩ := List.mem_map.mp member
    obtain ⟨before, was, rfl⟩ := List.mem_map.mp there
    refine ⟨before, was, ?_⟩
    by_cases own : before.ref = accept.request.ref <;> simp [own]
  · obtain ⟨before, was, rfl⟩ := List.mem_map.mp member
    refine ⟨before, was, ?_⟩
    by_cases own : before.ref = accept.request.ref <;> simp [own]

theorem noMatchLeft_closed (other : ¬ e.Matches) (kept : ¬ Strands s₀ e) : Closed cfg s₀ e NoMatchLeft NoMatchLeft where
  tick elapsed hs := hs.later elapsed
  deleteRunner runnerId error _ hs := hs.fewerOffers fun _ => mem_of_mem_filter
  frame _ _ _ hs := hs
  settleRunner _ _ hs := hs
  answerRunner taskId error hs := by
    unfold answerRunner
    split <;> exact hs
  accepted runnerId taskId _ _ hs := by
    unfold handleRunnerAccept answerRunner
    split <;> exact hs
  rejectRequester _ _ hs := hs
  settings _ _ _ _ hs := hs
  cancel taskId reason hs := by
    unfold cancelTask
    split <;> exact hs
  fail taskId error _ _ hs := by
    unfold failTask
    split <;> exact hs
  finish taskId data error _ _ _ _ _ hs := by
    unfold taskDoneHandler taskErrorHandler finishTask
    split <;> exact ⟨hs, hs⟩
  timeoutFrame _ _ _ _ _ _ hs := hs
  expireOffers hs := hs.fewerOffers fun _ => mem_of_mem_filter
  addOffer _ _ _ _ same _ _ _ := by
    subst same
    exact absurd trivial other
  addRequest _ _ _ _ same _ := by
    subst same
    exact absurd trivial other
  expire requestId hs := by
    unfold handleRequestTimeout
    split
    · exact hs
    · exact hs.fewerRequests fun _ => mem_of_mem_eraseP
  settle _ _ matching _ _ _ _ _ := absurd matching other
  resumeNeutral _ _ _ _ _ hs := hs
  resumeTerminal _ _ _ _ hs := hs
  resumeTimeout i taskId _ _ hs := by
    unfold taskErrorHandler finishTask
    split <;> exact hs
  advance _ _ _ _ _ _ _ hs := hs
  giveUp i accept error same there hs := by
    intro request member idle offered
    obtain ⟨before, was, typed, flag⟩ := mem_acceptFailed member
    obtain ⟨sameOffers, sameNow⟩ := acceptFailed_offers ((s₀.record e).resumed i) accept error
    rw [sameOffers, sameNow, ← typed] at offered
    split at flag
    · rename_i own
      subst same
      exact kept ⟨accept, error, there, before, was, own, offered⟩
    · exact hs before was (flag ▸ idle) offered
  announce i accept _ _ _ hs := by
    dsimp only [announceTask, storeTask, suspend, messageRequester, setTimeout, clearTimeout]
    exact hs.fewerRequests fun _ => mem_of_mem_eraseP
  orphan _ _ _ _ _ hs := hs
  foundRunner _ _ _ _ _ _ _ _ _ hs := hs
  lostRunner i accept settings task error _ _ found _ hs := by
    unfold failTask
    split <;> exact hs
  cancelled i accept phase reason _ _ _ hs := by
    unfold cancelTask
    split <;> exact hs
  started i accept runnerId settings task _ _ found hs := by
    rw [startTask_known (s := (s₀.record e).resumed i) found]
    exact hs
  ended _ _ _ _ _ _ hs := hs

theorem step_noMatchLeft_of_matches (h : s.NoMatchLeft) (matching : e.Matches)
    (taken : step cfg s e = some s') : s'.NoMatchLeft := by
  cases e with
  | runnerMessage runnerId message =>
    cases message with
    | taskOffer offerId taskType validFor =>
      cases taken
      unfold onRunnerMessage
      split
      · exact settleTasks_noMatchLeft cfg _
      · exact h
    | _ => exact matching.elim
  | requesterMessage requesterId message =>
    cases message with
    | taskRequest requestId taskType =>
      cases taken
      show (taskRequested _ _ _).NoMatchLeft
      unfold taskRequested
      split
      · exact h
      · exact settleTasks_noMatchLeft cfg _
    | _ => exact matching.elim
  | _ => exact matching.elim

theorem not_noMatchLeft_of_strands (strands : Strands s e) (taken : step cfg s e = some s') : ¬ s'.NoMatchLeft := by
  cases e with
  | resume i =>
    obtain ⟨accept, error, there, request, member, own, offered⟩ := strands
    have after : s' = ((s.record (.resume i)).resumed i).acceptFailed accept error := by
      have taken : (s.frames[i]?).bind (fun frame =>
        resumeFrame cfg ((s.record (.resume i)).resumed i) frame) = some s' := taken
      rw [there] at taken
      exact (Option.some.inj taken).symm
    intro settled
    have freed : ∃ after ∈ s'.pendingTaskRequests, after.taskType = request.taskType ∧
        after.acceptInProgress = false := by
      rw [after]
      unfold acceptFailed
      split
      · refine ⟨_, List.mem_map.mpr ⟨_, List.mem_map.mpr ⟨request, member, rfl⟩, rfl⟩, ?_⟩
        simp [own]
      · refine ⟨_, List.mem_map.mpr ⟨request, member, rfl⟩, ?_⟩
        simp [own]
    obtain ⟨request', member', typed, idle⟩ := freed
    refine settled request' member' idle ?_
    obtain ⟨sameOffers, sameNow⟩ := acceptFailed_offers ((s.record (.resume i)).resumed i) accept error
    rw [typed, after, sameOffers, sameNow]
    exact offered
  | _ => exact strands.elim

theorem step_noMatchLeft_iff (coherent : s.Coherent) (h : s.NoMatchLeft) (taken : step cfg s e = some s') :
    s'.NoMatchLeft ↔ ¬ Strands s e := by
  constructor
  · exact fun settled strands => not_noMatchLeft_of_strands strands taken settled
  · intro kept
    by_cases matching : e.Matches
    · exact step_noMatchLeft_of_matches h matching taken
    · exact step_closed (noMatchLeft_closed matching kept) coherent h taken

end Step

/-- In a run, no match is left unmade exactly when no call of `acceptOffer` gives up
while its request is pending and an offer of its type waits. -/
theorem noMatchLeft_iff_no_strands (cfg : Config) (es : List Event) :
    (system cfg).AllStates NoMatchLeft Broker.start es ↔
      (system cfg).AllSteps (fun s e => ¬ Strands s e) Broker.start es := by
  apply TransitionSystem.allStates_iff_allSteps (I := Coherent)
  · exact fun s e s' coherent _ _ taken => step_coherent coherent taken
  · exact fun s e s' coherent settled taken => step_noMatchLeft_iff coherent settled taken
  · simp [NoMatchLeft, AllMatched, start]
  · exact (wf_start cfg).coherent

/-- A runner makes two offers and turns the first one down: the request and the second
offer are both left, and no handler is even suspended. -/
def offersTwice : List Event :=
  [.registerRunner ⟨"r", ["javascript"]⟩, .registerRequester "q",
    .requesterMessage "q" (.taskRequest "request" "javascript"),
    .runnerMessage "r" (.taskOffer "first" "javascript" (-1)),
    .runnerMessage "r" (.taskOffer "second" "javascript" (-1)), .resume 0,
    .runnerMessage "r" (.taskRejected "" "busy"), .resume 0]

theorem match_left_unmade :
    ¬ ∀ (cfg : Config) (s : Broker), (system cfg).Reachable s → s.frames = [] → s.NoMatchLeft := by
  intro settled
  have start : (system .sample).Reachable Broker.start := .initial
  obtain ⟨s, reached, unmade⟩ := TransitionSystem.reachableVia_runChecked (fun _ _ => true)
    (fun _ _ _ => trivial) start offersTwice (fun s => s.frames = [] ∧ ¬ s.NoMatchLeft) (by decide)
  have unmade := of_decide_eq_true unmade
  exact unmade.2 (settled .sample s reached unmade.1)

end Broker

end N8n.TaskBroker
