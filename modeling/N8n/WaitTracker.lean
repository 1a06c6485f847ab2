import Mathlib.Data.Int.Notation
import Mathlib.Tactic.Common
import N8n.OrderedMap
import N8n.TransitionSystem

/-! The tracker that resumes waiting executions. While the instance leads, an interval
polls the database, and each waiting execution gets a timer and an entry, which is also
the mark that it has one. Stepping down clears the timers and keeps the entries, and a
poll may be answered at any time after. A run keeps entries and timers together exactly
when no stepdown leaves a timer without its entry, no poll finds new executions while
another instance leads, and no takeover meets entries from an earlier term. -/

namespace N8n

open List Option OrderedMap

structure Timeout where
  executionId : String
  triggerTime : ℤ
  deriving DecidableEq

structure WaitingExecution where
  executionId : String
  timer : ℕ
  deriving DecidableEq

/-- What the database returns of an execution. The query compares `waitTill` with a
date, so it is never null. -/
structure WaitingRow where
  id : String
  waitTill : ℤ

/-- The fields of the tracker, whether the instance leads, and what the runtime holds
for the tracker: pending timers under their handles and queries without an answer. -/
structure WaitTracker where
  isLeader : Bool
  waitingExecutions : OrderedMap String WaitingExecution
  mainTimer : Option ℕ
  intervals : List ℕ
  timeouts : OrderedMap ℕ Timeout
  nextTimer : ℕ
  queries : ℕ
  deriving DecidableEq

namespace WaitTracker

/-- The query is sent here; its answer is an event of its own. -/
def getWaitingExecutions (s : WaitTracker) : WaitTracker := { s with queries := s.queries + 1 }

def startTracking (s : WaitTracker) : WaitTracker :=
  getWaitingExecutions
    { s with mainTimer := some s.nextTimer, intervals := s.intervals ++ [s.nextTimer],
             nextTimer := s.nextTimer + 1 }

def addTimer (now : ℤ) (s : WaitTracker) (execution : WaitingRow) : WaitTracker :=
  if s.waitingExecutions.has execution.id then s
  else
    let triggerTime := execution.waitTill - now
    { s with
      waitingExecutions := s.waitingExecutions.set execution.id ⟨execution.id, s.nextTimer⟩
      timeouts := s.timeouts.set s.nextTimer ⟨execution.id, triggerTime⟩
      nextTimer := s.nextTimer + 1 }

/-- The part of `getWaitingExecutions` behind its `await`. -/
def addTimers (now : ℤ) (executions : List WaitingRow) (s : WaitTracker) : WaitTracker :=
  executions.foldl (addTimer now) { s with queries := s.queries - 1 }

def stopExecution (executionId : String) (s : WaitTracker) : WaitTracker :=
  match s.waitingExecutions.get executionId with
  | none => s
  | some entry =>
    { s with
      timeouts := s.timeouts.delete entry.timer
      waitingExecutions := s.waitingExecutions.delete executionId }

/-- What follows the deletion leaves the tracker alone, except for starting the parent
execution, which is a call of its own. -/
def startExecution (executionId : String) (s : WaitTracker) : WaitTracker :=
  { s with waitingExecutions := s.waitingExecutions.delete executionId }

def stopTracking (s : WaitTracker) : WaitTracker :=
  match s.mainTimer with
  | none => s
  | some mainTimer =>
    { s with
      intervals := s.intervals.filter (· ≠ mainTimer)
      timeouts := s.timeouts.deleteMany (s.waitingExecutions.values.map WaitingExecution.timer) }

def init (s : WaitTracker) : WaitTracker := if s.isLeader then s.startTracking else s

def created (isLeader : Bool) : WaitTracker := ⟨isLeader, .empty, none, [], .empty, 0, 0⟩

inductive Event where
  | leaderTakeover
  | leaderStepdown
  | queryAnswered (now : ℤ) (executions : List WaitingRow)
  | queryFailed
  | intervalFired (timer : ℕ)
  | timeoutFired (timer : ℕ)
  | startExecution (executionId : String)
  | stopExecution (executionId : String)

/-- Leadership changes are asserted to be changes; the others need the timer or query
that they come from. -/
def step (s : WaitTracker) : Event → Option WaitTracker
  | .leaderTakeover => if s.isLeader then none else some { s with isLeader := true }.startTracking
  | .leaderStepdown => if s.isLeader then some { s with isLeader := false }.stopTracking else none
  | .queryAnswered now executions => if s.queries = 0 then none else some (s.addTimers now executions)
  | .queryFailed => if s.queries = 0 then none else some { s with queries := s.queries - 1 }
  | .intervalFired timer => if timer ∈ s.intervals then some s.getWaitingExecutions else none
  | .timeoutFired timer => (s.timeouts.get timer).map fun timeout =>
      { s with timeouts := s.timeouts.delete timer }.startExecution timeout.executionId
  | .startExecution executionId => some (s.startExecution executionId)
  | .stopExecution executionId => some (s.stopExecution executionId)

/-- A started process: leadership is settled before `init` is called. -/
def system (isLeader : Bool) : TransitionSystem WaitTracker Event := ⟨(created isLeader).init, step⟩

/-- Every entry has its own timer while the instance leads; no timer is left otherwise. -/
structure KeepsTimers (s : WaitTracker) : Prop where
  leading : s.isLeader = true → ∀ executionId entry,
    s.waitingExecutions.get executionId = some entry →
      ∃ timeout, s.timeouts.get entry.timer = some timeout ∧ timeout.executionId = executionId
  following : s.isLeader = false → s.intervals = [] ∧ ∀ timer, s.timeouts.get timer = none

def Safe (s : WaitTracker) : Event → Prop
  | .leaderTakeover => ∀ executionId, s.waitingExecutions.get executionId = none
  | .leaderStepdown => ∀ timer timeout, s.timeouts.get timer = some timeout →
      ∃ executionId entry, s.waitingExecutions.get executionId = some entry ∧ entry.timer = timer
  | .queryAnswered _ executions => s.isLeader = true ∨
      ∀ execution ∈ executions, s.waitingExecutions.has execution.id
  | _ => True

/-- What holds in every reachable state, whatever the steps. -/
structure Wired (s : WaitTracker) : Prop where
  intervals : ∀ timer ∈ s.intervals, s.mainTimer = some timer
  idle : s.mainTimer = none → s.queries = 0 ∧ ∀ timer, s.timeouts.get timer = none
  fresh : ∀ timer timeout, s.timeouts.get timer = some timeout → timer < s.nextTimer
  following : s.isLeader = false → s.intervals = []

variable {s s' : WaitTracker} {e : Event}

theorem wired_startTracking (wired : s.Wired) (none_left : s.intervals = []) (isLeader : Bool)
    (leads : isLeader = true) : { s with isLeader }.startTracking.Wired where
  intervals timer member := by
    simp only [startTracking, getWaitingExecutions, none_left, nil_append,
      mem_singleton] at member
    simp [startTracking, getWaitingExecutions, member]
  idle h := by simp [startTracking, getWaitingExecutions] at h
  fresh timer timeout found := Nat.lt_succ_of_lt (wired.fresh timer timeout found)
  following h := by
    have : isLeader = false := h
    simp [leads] at this

theorem wired_init (isLeader : Bool) : (created isLeader).init.Wired := by
  have wired : (created isLeader).Wired :=
    ⟨by simp [created], fun _ => ⟨rfl, by simp [created]⟩, by simp [created], fun _ => rfl⟩
  unfold init
  split
  · rename_i leads
    exact wired_startTracking wired rfl isLeader leads
  · exact wired

theorem wired_addTimer (h : s.Wired ∧ s.mainTimer ≠ none) (now : ℤ) (execution : WaitingRow) :
    (addTimer now s execution).Wired ∧ (addTimer now s execution).mainTimer ≠ none := by
  obtain ⟨wired, tracking⟩ := h
  unfold addTimer
  split
  · exact ⟨wired, tracking⟩
  · refine ⟨⟨wired.intervals, fun unset => absurd unset tracking, ?_, wired.following⟩, tracking⟩
    intro timer timeout found
    simp only [get_set] at found ⊢
    split at found
    · omega
    · have := wired.fresh timer timeout found
      omega

theorem isLeader_addTimer (s : WaitTracker) (now : ℤ) (execution : WaitingRow) :
    (addTimer now s execution).isLeader = s.isLeader := by
  unfold addTimer
  split <;> rfl

theorem intervals_addTimer (s : WaitTracker) (now : ℤ) (execution : WaitingRow) :
    (addTimer now s execution).intervals = s.intervals := by
  unfold addTimer
  split <;> rfl

theorem foldl_addTimer (P : WaitTracker → Prop) (now : ℤ)
    (kept : ∀ s execution, P s → P (addTimer now s execution)) (executions : List WaitingRow) (holds : P s) :
    P (executions.foldl (addTimer now) s) := by
  induction executions generalizing s with
  | nil => exact holds
  | cons execution executions ih => exact ih (kept s execution holds)

theorem step_wired (wired : s.Wired) (taken : step s e = some s') : s'.Wired := by
  cases e with
  | leaderTakeover =>
    simp only [step] at taken
    split at taken
    · cases taken
    · rename_i follows
      cases taken
      exact wired_startTracking wired (wired.following (by simpa using follows)) true rfl
  | leaderStepdown =>
    simp only [step] at taken
    split at taken
    · cases taken
      have only_main (timer : ℕ) (member : timer ∈ s.intervals) := wired.intervals timer member
      unfold stopTracking
      split
      · rename_i unset
        simp only at unset
        refine ⟨wired.intervals, wired.idle, wired.fresh, fun _ => ?_⟩
        apply eq_nil_iff_forall_not_mem.mpr
        intro timer member
        simp [unset] at only_main
        exact only_main timer member
      · rename_i mainTimer set
        simp only at set
        have cleared : s.intervals.filter (· ≠ mainTimer) = [] := by
          apply filter_eq_nil_iff.mpr
          intro timer member
          have := only_main timer member
          rw [set, some.injEq] at this
          simp [this]
        refine ⟨fun timer member => ?_, ?_, ?_, fun _ => cleared⟩
        · exact only_main timer (mem_filter.mp member).1
        · simp [set]
        · intro timer timeout found
          exact wired.fresh timer timeout (get_deleteMany_some _ found).2
    · cases taken
  | queryAnswered now executions =>
    simp only [step] at taken
    split at taken
    · cases taken
    · rename_i sent
      cases taken
      have tracking : s.mainTimer ≠ none := fun unset => sent (wired.idle unset).1
      have start : ({ s with queries := s.queries - 1 } : WaitTracker).Wired :=
        ⟨wired.intervals, fun unset => absurd unset tracking, wired.fresh, wired.following⟩
      exact (foldl_addTimer (fun s => s.Wired ∧ s.mainTimer ≠ none) now
        (fun _ execution h => wired_addTimer h now execution) executions ⟨start, tracking⟩).1
  | queryFailed =>
    simp only [step] at taken
    split at taken
    · cases taken
    · rename_i sent
      cases taken
      exact ⟨wired.intervals, fun unset => absurd (wired.idle unset).1 sent, wired.fresh,
        wired.following⟩
  | intervalFired timer =>
    simp only [step] at taken
    split at taken
    · rename_i pending
      cases taken
      have set := wired.intervals timer pending
      exact ⟨wired.intervals, fun unset => by simp [getWaitingExecutions, set] at unset, wired.fresh,
        wired.following⟩
    · cases taken
  | timeoutFired timer =>
    simp only [step, map_eq_some_iff] at taken
    obtain ⟨timeout, found, rfl⟩ := taken
    refine ⟨wired.intervals, fun unset => ?_, fun other timeout' found' => ?_, wired.following⟩
    · simp [(wired.idle unset).2 timer] at found
    · exact wired.fresh other timeout' (get_delete_some _ found')
  | startExecution executionId =>
    cases taken
    exact ⟨wired.intervals, wired.idle, wired.fresh, wired.following⟩
  | stopExecution executionId =>
    cases taken
    unfold stopExecution
    split
    · exact wired
    · rename_i entry found
      refine ⟨wired.intervals, fun unset => ?_, fun timer timeout found' => ?_, wired.following⟩
      · refine ⟨(wired.idle unset).1, fun timer => ?_⟩
        simp [get_delete, (wired.idle unset).2 timer]
      · exact wired.fresh timer timeout (get_delete_some _ found')

/-! ## Which steps keep entries and timers together -/

theorem keepsTimers_takeover (keeps : s.KeepsTimers) (follows : s.isLeader = false) :
    { s with isLeader := true }.startTracking.KeepsTimers ↔ s.Safe .leaderTakeover := by
  have silent := (keeps.following follows).2
  constructor
  · intro keeps' executionId
    by_contra tracked
    obtain ⟨entry, found⟩ := ne_none_iff_exists'.mp tracked
    obtain ⟨timeout, pending, _⟩ := keeps'.leading rfl executionId entry found
    exact absurd pending (by simp [startTracking, getWaitingExecutions, silent])
  · intro vacant
    refine ⟨fun _ executionId entry found => ?_, fun follows' => by cases follows'⟩
    exact absurd found (by simp [startTracking, getWaitingExecutions, vacant executionId])

theorem keepsTimers_of_following (follows : s.isLeader = false) :
    s.KeepsTimers ↔ s.intervals = [] ∧ ∀ timer, s.timeouts.get timer = none :=
  ⟨fun keeps => keeps.following follows, fun quiet => ⟨by simp [follows], fun _ => quiet⟩⟩

theorem clearedTimer_iff {timer : ℕ} :
    (s.timeouts.deleteMany (s.waitingExecutions.values.map WaitingExecution.timer)).get timer = none ↔
      (∃ executionId entry, s.waitingExecutions.get executionId = some entry ∧ entry.timer = timer) ∨
        s.timeouts.get timer = none := by
  rw [get_deleteMany]
  split
  · rename_i owned
    obtain ⟨entry, member, same⟩ := List.mem_map.mp owned
    obtain ⟨executionId, found⟩ := (mem_values_iff _).mp member
    exact iff_of_true rfl (.inl ⟨executionId, entry, found, same⟩)
  · rename_i orphan
    refine ⟨.inr, fun h => h.resolve_left ?_⟩
    rintro ⟨executionId, entry, found, same⟩
    exact orphan (List.mem_map.mpr ⟨entry, (mem_values_iff _).mpr ⟨_, found⟩, same⟩)

theorem keepsTimers_stepdown (wired : s.Wired) (leads : s.isLeader = true) :
    { s with isLeader := false }.stopTracking.KeepsTimers ↔ s.Safe .leaderStepdown := by
  have wired' : { s with isLeader := false }.stopTracking.Wired :=
    step_wired wired (e := .leaderStepdown) (by simp [step, leads])
  have follows : { s with isLeader := false }.stopTracking.isLeader = false := by
    unfold stopTracking
    split <;> rfl
  rw [keepsTimers_of_following follows]
  simp only [wired'.following follows, true_and, Safe]
  cases set : s.mainTimer with
  | none =>
    have silent := (wired.idle set).2
    simp [stopTracking, silent]
  | some mainTimer =>
    simp only [stopTracking, clearedTimer_iff]
    constructor
    · intro quiet timer timeout pending
      exact (quiet timer).resolve_right (by simp [pending])
    · intro owned timer
      cases pending : s.timeouts.get timer with
      | none => exact .inr rfl
      | some timeout => exact .inl (owned timer timeout pending)

theorem keepsTimers_addTimer (wired : s.Wired) (keeps : s.KeepsTimers) (leads : s.isLeader = true)
    (now : ℤ) (execution : WaitingRow) : (addTimer now s execution).KeepsTimers := by
  refine ⟨fun _ executionId entry found => ?_, fun follows => ?_⟩
  · unfold addTimer at found ⊢
    split at found
    · rename_i tracked
      rw [if_pos tracked]
      exact keeps.leading leads executionId entry found
    · rename_i untracked
      rw [if_neg untracked]
      simp only [get_set] at found ⊢
      split at found
      · rename_i same
        cases found
        exact ⟨_, if_pos rfl, same.symm⟩
      · obtain ⟨timeout, pending, same⟩ := keeps.leading leads executionId entry found
        have older := wired.fresh entry.timer timeout pending
        exact ⟨timeout, by rw [if_neg (by omega)]; exact pending, same⟩
  · rw [isLeader_addTimer, leads] at follows
    cases follows

/-- While another instance leads, an answer is harmless exactly when it holds no news. -/
theorem silent_addTimers_iff (now : ℤ) (executions : List WaitingRow) :
    (∀ timer, (executions.foldl (addTimer now) s).timeouts.get timer = none) ↔
      (∀ timer, s.timeouts.get timer = none) ∧
        ∀ execution ∈ executions, s.waitingExecutions.has execution.id := by
  induction executions generalizing s with
  | nil => simp
  | cons execution executions ih =>
    rw [foldl_cons, ih, forall_mem_cons]
    by_cases tracked : s.waitingExecutions.has execution.id
    · simp [addTimer, tracked]
    · have pending : ∃ timeout, (addTimer now s execution).timeouts.get s.nextTimer = some timeout := by
        simp [addTimer, tracked]
      obtain ⟨timeout, pending⟩ := pending
      refine iff_of_false (fun quiet => ?_) (fun quiet => tracked quiet.2.1)
      simp [quiet.1 s.nextTimer] at pending

theorem keepsTimers_addTimers (wired : s.Wired) (keeps : s.KeepsTimers) (sent : s.queries ≠ 0)
    (now : ℤ) (executions : List WaitingRow) :
    (s.addTimers now executions).KeepsTimers ↔ s.Safe (.queryAnswered now executions) := by
  have tracking : s.mainTimer ≠ none := fun unset => sent (wired.idle unset).1
  have wired : ({ s with queries := s.queries - 1 } : WaitTracker).Wired :=
    ⟨wired.intervals, fun unset => absurd unset tracking, wired.fresh, wired.following⟩
  have keeps : ({ s with queries := s.queries - 1 } : WaitTracker).KeepsTimers :=
    ⟨keeps.leading, keeps.following⟩
  cases leads : s.isLeader with
  | true =>
    refine iff_of_true ?_ (.inl leads)
    have kept := foldl_addTimer
      (fun s => (s.Wired ∧ s.mainTimer ≠ none) ∧ s.KeepsTimers ∧ s.isLeader = true) now
      (fun s execution h => ⟨wired_addTimer h.1 now execution,
        keepsTimers_addTimer h.1.1 h.2.1 h.2.2 now execution, by rw [isLeader_addTimer, h.2.2]⟩)
      executions ⟨⟨wired, tracking⟩, keeps, leads⟩
    exact kept.2.1
  | false =>
    have kept := foldl_addTimer (fun s => s.isLeader = false ∧ s.intervals = []) now
      (fun s execution h => ⟨by rw [isLeader_addTimer, h.1], by rw [intervals_addTimer, h.2]⟩)
      executions (s := { s with queries := s.queries - 1 }) ⟨leads, wired.following leads⟩
    unfold addTimers
    rw [keepsTimers_of_following kept.1, silent_addTimers_iff, kept.2]
    have silent : ∀ timer, s.timeouts.get timer = none := (keeps.following leads).2
    simp [Safe, leads, silent]

theorem keepsTimers_delete (keeps : s.KeepsTimers) (executionId : String) {timeouts : OrderedMap ℕ Timeout}
    (others : ∀ timer timeout, s.timeouts.get timer = some timeout → timeout.executionId ≠ executionId →
      timeouts.get timer = some timeout) (fewer : ∀ timer, s.timeouts.get timer = none → timeouts.get timer = none) :
    KeepsTimers { s with
      timeouts, waitingExecutions := s.waitingExecutions.delete executionId } := by
  refine ⟨fun leads other entry found => ?_, fun follows => ?_⟩
  · simp only [get_delete] at found
    split at found
    · cases found
    · rename_i different
      obtain ⟨timeout, pending, same⟩ := keeps.leading leads other entry found
      exact ⟨timeout, others entry.timer timeout pending (same ▸ different), same⟩
  · obtain ⟨no_intervals, silent⟩ := keeps.following follows
    exact ⟨no_intervals, fun timer => fewer timer (silent timer)⟩

theorem step_keepsTimers_iff (wired : s.Wired) (keeps : s.KeepsTimers) (taken : step s e = some s') :
    s'.KeepsTimers ↔ s.Safe e := by
  cases e with
  | leaderTakeover =>
    simp only [step] at taken
    split at taken
    · cases taken
    · rename_i follows
      cases taken
      exact keepsTimers_takeover keeps (by simpa using follows)
  | leaderStepdown =>
    simp only [step] at taken
    split at taken
    · rename_i leads
      cases taken
      exact keepsTimers_stepdown wired leads
    · cases taken
  | queryAnswered now executions =>
    simp only [step] at taken
    split at taken
    · cases taken
    · rename_i sent
      cases taken
      exact keepsTimers_addTimers wired keeps sent now executions
  | queryFailed =>
    simp only [step] at taken
    split at taken
    · cases taken
    · cases taken
      exact iff_of_true ⟨keeps.leading, keeps.following⟩ trivial
  | intervalFired timer =>
    simp only [step] at taken
    split at taken
    · cases taken
      exact iff_of_true ⟨keeps.leading, keeps.following⟩ trivial
    · cases taken
  | timeoutFired timer =>
    simp only [step, map_eq_some_iff] at taken
    obtain ⟨timeout, fired, rfl⟩ := taken
    refine iff_of_true (keepsTimers_delete keeps timeout.executionId ?_ ?_) trivial
    · intro other timeout' pending different
      have : other ≠ timer := fun same => by
        rw [same, fired, some.injEq] at pending
        exact different (pending ▸ rfl)
      rw [get_delete_ne _ this, pending]
    · intro other absent
      simp [get_delete, absent]
  | startExecution executionId =>
    cases taken
    exact iff_of_true (keepsTimers_delete keeps executionId (fun _ _ pending _ => pending)
      fun _ absent => absent) trivial
  | stopExecution executionId =>
    cases taken
    refine iff_of_true ?_ trivial
    unfold stopExecution
    split
    · exact keeps
    · rename_i entry found
      apply keepsTimers_delete keeps executionId
      · intro timer timeout pending different
        have other : timer ≠ entry.timer := by
          rintro rfl
          cases leads : s.isLeader with
          | true =>
            obtain ⟨own, pending', same⟩ := keeps.leading leads executionId entry found
            rw [pending, some.injEq] at pending'
            exact different (pending' ▸ same)
          | false => simp [(keeps.following leads).2] at pending
        rw [get_delete_ne _ other, pending]
      · intro timer absent
        simp [get_delete, absent]

theorem keepsTimers_init (isLeader : Bool) : (created isLeader).init.KeepsTimers := by
  unfold init
  split
  · rename_i leads
    refine ⟨fun _ executionId entry found => ?_, fun follows => ?_⟩
    · simp [startTracking, getWaitingExecutions, created] at found
    · exact absurd (leads.symm.trans follows) (by decide)
  · exact ⟨fun _ _ _ found => by simp [created] at found, fun _ => ⟨rfl, by simp [created]⟩⟩

/-- In a run, entries and timers stay together in every state exactly when every step is safe. -/
theorem keepsTimers_iff_safe (isLeader : Bool) (es : List Event) :
    (system isLeader).AllStates KeepsTimers (created isLeader).init es ↔
      (system isLeader).AllSteps Safe (created isLeader).init es := by
  apply TransitionSystem.allStates_iff_allSteps (I := Wired)
  · exact fun s e s' wired _ _ taken => step_wired wired taken
  · exact fun s e s' wired keeps taken => step_keepsTimers_iff wired keeps taken
  · exact keepsTimers_init isLeader
  · exact wired_init isLeader

def secondTerm : List Event :=
  [.queryAnswered 0 [⟨"waiting", 60000⟩], .leaderStepdown, .leaderTakeover]

theorem entry_without_timer :
    ¬ ∀ (isLeader : Bool) (s : WaitTracker), (system isLeader).Reachable s → s.KeepsTimers := by
  intro keeps
  have reached : ∃ s, (system true).run secondTerm = some s ∧ s.isLeader = true ∧
      s.waitingExecutions.get "waiting" = some ⟨"waiting", 1⟩ ∧ s.timeouts.get 1 = none := by
    exact ⟨_, rfl, rfl, by decide, by decide⟩
  obtain ⟨s, done, leads, found, gone⟩ := reached
  obtain ⟨timeout, pending, _⟩ := (keeps true s (TransitionSystem.reachable_run done)).leading leads
    "waiting" ⟨"waiting", 1⟩ found
  simp [gone] at pending

end WaitTracker

end N8n
