import N8n.LeaderElection

/-! What every run of the leader election keeps, and the deletion that it does not guard. -/

namespace N8n.LeaderElection

open MultiMainSetup

section Properties

variable {Instance : Type} [DecidableEq Instance] (hostId : Instance → String)

/-- With this reply, the key holds the own `hostId`, whatever it held before. -/
def Shows (hostId : String) (command : Command) (reply : Reply) : Prop :=
  ∀ leaderKey, (execute hostId leaderKey command).2 = reply → (execute hostId leaderKey command).1 = some hostId

/-- The key disappears, or changes, only by expiry or by a deletion of its holder. -/
def GivesUpAsHolder (state : State Instance) (event : Event Instance) : Prop :=
  ∀ state', step hostId state event = some state' →
    ∀ holder, state.leaderKey = some holder → state'.leaderKey ≠ some holder → event = .expire ∨
        ∃ host, performs state event = some (host, .del) ∧ holder = hostId host

/-- No deletion reaches Redis while the renewal script would tell its sender that another host is
the leader. -/
def DeletesAsLeader (state : State Instance) (event : Event Instance) : Prop :=
  ∀ host, performs state event = some (host, .del) → ∀ other, tryRenewLeaderTtl
      (some (execute (hostId host) state.leaderKey .increaseTtlIfLeader).2) ≠ some (.otherHostIsLeader other)

/-- Whatever the reply, the call that goes on fails no assertion. -/
def AssertionsHold (state : State Instance) : Prop :=
  ∀ host id task, state.task host id = some task →
    ∀ reply, (state.instances host).resume (hostId host) reply task.point ≠ none

/-- A check that an answer ends leaves the flag as the answer shows the key. -/
def ChecksShow (state : State Instance) : Prop :=
  ∀ host id state', step hostId state (.answer host id) = some state' →
    ∀ point reply, state.task host id = some { point, reply := some reply } →
      point.isCheck = true → state'.task host id = none →
        ((state'.instances host).isLeader = true ↔ Shows (hostId host) point.command reply)

end Properties

section Commands

variable {hostId : String} {leaderKey : Option String}

theorem execute_keeps {holder : String} (held : leaderKey = some holder) {command : Command}
    (keeps : command ≠ .del) : (execute hostId leaderKey command).1 = some holder := by
  subst held
  cases command with
  | del => exact absurd rfl keeps
  | get | setIfNotExists | increaseTtlIfLeader => rfl

theorem renewal_other_iff {other : String} :
    tryRenewLeaderTtl (some (execute hostId leaderKey .increaseTtlIfLeader).2) = some (.otherHostIsLeader other) ↔
      leaderKey = some other ∧ other ≠ hostId := by
  cases leaderKey with
  | none => simp [execute, tryRenewLeaderTtl]
  | some holder =>
    by_cases own : holder = hostId
    · simp only [execute, own, tryRenewLeaderTtl]
      grind
    · simp only [execute, ne_eq, own, not_false_iff, if_true, tryRenewLeaderTtl]
      grind

theorem exists_other (host : String) : ∃ other : String, other ≠ host := by
  by_cases empty : host = ""
  · exact ⟨"other", by simp [empty]⟩
  · exact ⟨"", Ne.symm empty⟩

end Commands

section Instances

/-- What is known of an instance at the awaits of its calls. -/
def Fits (setup : MultiMainSetup) : Point → Prop
  | .init => setup.started = true ∧ setup.leaderCheckInterval = false ∧ setup.isLeader = false
  | .renew | .reclaim => setup.leaderCheckInProgress = true ∧ setup.isLeader = true
  | .look | .claim => setup.leaderCheckInProgress = true ∧ setup.isLeader = false
  | .clear => True

structure Consistent (hostId : String) (setup : MultiMainSetup) : Prop where
  /-- Of `init` and the checks at most one is under way. -/
  single : ∀ a b first second, setup.tasks a = some first → setup.tasks b = some second →
    first.point ≠ .clear → second.point ≠ .clear → a = b
  fits : ∀ id task, setup.tasks id = some task → Fits setup task.point
  /-- Replies are those that Redis gives. -/
  genuine : ∀ id task reply, setup.tasks id = some task → task.reply = some reply →
    ∃ leaderKey, (execute hostId leaderKey task.point.command).2 = reply
  fresh : setup.started = false → setup.leaderCheckInterval = false ∧ setup.isLeader = false ∧
    ∀ id task, setup.tasks id = some task → task.point = .clear

variable {hostId : String} {setup : MultiMainSetup}

variable (hostId) in
/-- No assertion fails at an await that fits, and the next await fits again. -/
theorem resume_fits {point : Point} (fits : Fits setup point) (reply : Option Reply) :
    ∃ setup' next, setup.resume hostId reply point = some (setup', next) ∧
      setup'.tasks = setup.tasks ∧ setup'.started = setup.started ∧
      setup'.leaderCheckInProgress = setup.leaderCheckInProgress ∧
      (point = .clear → next = none ∧ setup'.leaderCheckInterval = setup.leaderCheckInterval ∧
        setup'.isLeader = setup.isLeader) ∧
      ∀ point', next = some point' → Fits setup' point' ∧ point ≠ .clear ∧ point' ≠ .clear := by
  cases point with
  | init =>
    obtain ⟨started, interval, follower⟩ := fits
    rcases reply : setLeaderIfNotExists reply with _ | _ | _
    · simp [resume, reply, markAsFollower]
    · simp [resume, reply, markAsFollower]
    · simp [resume, reply, takeOverAsLeader, follower, markAsLeader]
  | renew =>
    obtain ⟨progress, leader⟩ := fits
    rcases result : tryRenewLeaderTtl reply with _ | _ | _ | _
    · simp [resume, result]
    · simp [resume, result, Fits, progress, leader]
    · simp [resume, result, stepDownToFollower, leader, markAsFollower]
    · simp [resume, result]
  | reclaim =>
    obtain ⟨progress, leader⟩ := fits
    rcases result : setLeaderIfNotExists reply with _ | _ | _
    · simp [resume, result, stepDownToFollower, leader, markAsFollower]
    · simp [resume, result, stepDownToFollower, leader, markAsFollower]
    · simp [resume, result]
  | look =>
    obtain ⟨progress, follower⟩ := fits
    rcases result : getLeader reply with _ | leaderId
    · simp [resume, result]
    · rcases named : leaderId.filter (· ≠ "") with _ | leaderId
      · simp only [resume, result, named]
        simp [Fits, progress, follower]
      · by_cases own : leaderId = hostId
        · simp only [resume, result, named]
          simp [own, takeOverAsLeader, follower, markAsLeader]
        · simp only [resume, result, named]
          simp [own]
  | claim =>
    obtain ⟨progress, follower⟩ := fits
    rcases result : setLeaderIfNotExists reply with _ | _ | _
    · simp [resume, result]
    · simp [resume, result]
    · simp [resume, result, takeOverAsLeader, follower, markAsLeader]
  | clear => simp [resume, isLeader]

theorem shows_set (hostId : String) : Shows hostId .setIfNotExists (execute hostId none .setIfNotExists).2 := by
  rintro (_ | holder) shown
  · rfl
  · simp [execute] at shown

theorem not_shows_set (hostId : String) : ¬ Shows hostId .setIfNotExists .nil := by
  intro shows_
  obtain ⟨other, different⟩ := exists_other hostId
  exact different (Option.some.inj (shows_ (some other) rfl))

theorem resume_shows {point : Point} (fits : Fits setup point) (check : point.isCheck = true)
    {reply : Reply} (genuine : ∃ leaderKey, (execute hostId leaderKey point.command).2 = reply)
    {setup' : MultiMainSetup} (ended : setup.resume hostId (some reply) point = some (setup', none)) :
    setup'.isLeader = true ↔ Shows hostId point.command reply := by
  obtain ⟨leaderKey, rfl⟩ := genuine
  cases point with
  | init | clear => cases check
  | renew =>
    obtain ⟨-, leader⟩ := fits
    match leaderKey with
    | none => simp [resume, execute, Point.command, tryRenewLeaderTtl] at ended
    | some holder =>
      by_cases own : holder = hostId
      · have kept : setup' = setup := by
          simp [resume, execute, Point.command, tryRenewLeaderTtl, own] at ended
          exact ended.symm
        refine ⟨fun _ leaderKey shown => ?_, fun _ => kept ▸ leader⟩
        match leaderKey with
        | none => simp [execute, Point.command, own] at shown
        | some other =>
          simp only [execute, Point.command, own] at shown ⊢
          by_cases same : other = hostId
          · rw [same]
          · simp [same] at shown
      · have down : setup'.isLeader = false := by
          simp [resume, execute, Point.command, tryRenewLeaderTtl, own,
            stepDownToFollower, leader] at ended
          rw [← ended]
          rfl
        simp only [down, Shows, Point.command, false_iff, not_forall, Bool.false_eq_true]
        exact ⟨some holder, rfl, by simpa [execute] using own⟩
  | reclaim =>
    obtain ⟨-, leader⟩ := fits
    match leaderKey with
    | none =>
      have kept : setup' = setup := by
        simp [resume, execute, Point.command, setLeaderIfNotExists] at ended
        exact ended.symm
      exact ⟨fun _ => shows_set hostId, fun _ => kept ▸ leader⟩
    | some holder =>
      have down : setup'.isLeader = false := by
        simp [resume, execute, Point.command, setLeaderIfNotExists,
          stepDownToFollower, leader] at ended
        rw [← ended]
        rfl
      simp only [down, Bool.false_eq_true, false_iff]
      exact not_shows_set hostId
  | look =>
    obtain ⟨-, follower⟩ := fits
    match leaderKey with
    | none => simp [resume, execute, Point.command, getLeader] at ended
    | some holder =>
      by_cases empty : holder = ""
      · have unnamed : Option.filter (· ≠ "") (some holder) = none := by
          simp [Option.filter, empty]
        simp only [resume, execute, Point.command, getLeader, Option.elim, unnamed] at ended
        simp at ended
      · have named : Option.filter (· ≠ "") (some holder) = some holder := by
          simp [Option.filter, empty]
        simp only [resume, execute, Point.command, getLeader, Option.elim, named] at ended
        by_cases own : holder = hostId
        · have up : setup'.isLeader = true := by
            simp [own, takeOverAsLeader, follower] at ended
            rw [← ended]
            rfl
          refine ⟨fun _ leaderKey shown => ?_, fun _ => up⟩
          match leaderKey with
          | none => simp [execute, Point.command] at shown
          | some other =>
            rw [← own]
            simpa [execute, Point.command] using shown
        · have kept : setup' = setup := by
            simp [own] at ended
            exact ended.symm
          simp only [kept, follower, Bool.false_eq_true, false_iff]
          intro shows_
          exact own (Option.some.inj (shows_ (some holder) rfl))
  | claim =>
    obtain ⟨-, follower⟩ := fits
    match leaderKey with
    | none =>
      have up : setup'.isLeader = true := by
        simp [resume, execute, Point.command, setLeaderIfNotExists,
          takeOverAsLeader, follower] at ended
        rw [← ended]
        rfl
      exact ⟨fun _ => shows_set hostId, fun _ => up⟩
    | some holder =>
      have kept : setup' = setup := by
        simp [resume, execute, Point.command, setLeaderIfNotExists] at ended
        exact ended.symm
      simp only [kept, follower, Bool.false_eq_true, false_iff]
      exact not_shows_set hostId

theorem consistent_initial : Consistent hostId {} where
  single := by simp
  fits := by simp
  genuine := by simp
  fresh _ := ⟨rfl, rfl, by simp⟩

variable {setup' : MultiMainSetup}

section

variable (consistent : Consistent hostId setup) {id : ℕ} {task : Task}
include consistent

theorem Consistent.change (next : Option Point)
    (others : ∀ other task, other ≠ id → setup.tasks other = some task → task.point = .clear)
    (tasks : setup'.tasks = Function.update setup.tasks id (next.map fun point => { point }))
    (fits : ∀ point, next = some point → Fits setup' point) (started : setup'.started = true) :
    Consistent hostId setup' := by
  have cases_ : ∀ other task, setup'.tasks other = some task →
      (other = id ∧ ∃ point, next = some point ∧ task = { point }) ∨
      (other ≠ id ∧ setup.tasks other = some task ∧ task.point = .clear) := by
    intro other task listed
    rw [tasks, Function.update_apply] at listed
    split_ifs at listed with same
    · obtain ⟨point, next, rfl⟩ := Option.map_eq_some_iff.mp listed
      exact .inl ⟨same, point, next, rfl⟩
    · exact .inr ⟨same, listed, others other task same listed⟩
  refine ⟨?_, ?_, ?_, ?_⟩
  · intro a b first second listed listed' role role'
    obtain ⟨rfl, -⟩ | ⟨-, -, clear⟩ := cases_ a first listed
    · obtain ⟨rfl, -⟩ | ⟨-, -, clear⟩ := cases_ b second listed'
      · rfl
      · exact absurd clear role'
    · exact absurd clear role
  · intro other task listed
    obtain ⟨-, point, next, rfl⟩ | ⟨-, -, clear⟩ := cases_ other task listed
    · exact fits point next
    · rw [clear]
      trivial
  · intro other task reply listed replied
    obtain ⟨-, point, -, rfl⟩ | ⟨-, old, -⟩ := cases_ other task listed
    · cases replied
    · exact consistent.genuine other task reply old replied
  · intro fresh
    simp [started] at fresh

theorem Consistent.keep (tasks : ∀ id task, setup'.tasks id = some task →
      (task.point = .clear ∨ ∃ before, setup.tasks id = some before ∧ before.point = task.point) ∧
      ∀ reply, task.reply = some reply → ∃ leaderKey, (execute hostId leaderKey task.point.command).2 = reply)
    (fits : ∀ point, Fits setup point → Fits setup' point)
    (started : setup'.started = setup.started) (role : setup'.isLeader = setup.isLeader)
    (interval : setup.leaderCheckInterval = false → setup'.leaderCheckInterval = false) : Consistent hostId setup' := by
  have old : ∀ id task, setup'.tasks id = some task → task.point ≠ .clear →
      ∃ before, setup.tasks id = some before ∧ before.point = task.point :=
    fun id task listed other => (tasks id task listed).1.resolve_left other
  refine ⟨?_, ?_, ?_, ?_⟩
  · intro a b first second listed listed' other other'
    obtain ⟨before, found, same⟩ := old a first listed other
    obtain ⟨before', found', same'⟩ := old b second listed' other'
    exact consistent.single a b before before' found found' (same ▸ other) (same' ▸ other')
  · intro id task listed
    by_cases clear : task.point = .clear
    · rw [clear]
      trivial
    · obtain ⟨before, found, same⟩ := old id task listed clear
      exact same ▸ fits _ (consistent.fits id before found)
  · exact fun id task reply listed => (tasks id task listed).2 reply
  · intro fresh
    obtain ⟨off, follower, deletions⟩ := consistent.fresh (started ▸ fresh)
    refine ⟨interval off, role.trans follower, fun id task listed => ?_⟩
    by_contra other
    obtain ⟨before, found, same⟩ := old id task listed other
    exact other (same ▸ deletions id before found)

theorem Consistent.others (listed : setup.tasks id = some task) (role : task.point ≠ .clear) (other : ℕ) (task' : Task)
    (different : other ≠ id) (listed' : setup.tasks other = some task') : task'.point = .clear := by
  by_contra role'
  exact different (consistent.single other id task' task listed' listed role' role)

theorem consistent_init (fresh : setup.started = false) :
    Consistent hostId ({ setup with started := true }.await id .init) := by
  obtain ⟨off, follower, deletions⟩ := consistent.fresh fresh
  refine consistent.change (some .init) (fun other task _ listed => deletions other task listed) rfl ?_ rfl
  rintro point ⟨⟩
  exact ⟨rfl, off, follower⟩

section

variable (on : setup.leaderCheckInterval = true)
include on

theorem Consistent.started : setup.started = true := by
  by_contra fresh
  have off := (consistent.fresh (Bool.eq_false_iff.mpr fresh)).1
  simp [on] at off

theorem Consistent.idle (idle : setup.leaderCheckInProgress ≠ true) (id : ℕ)
    (task : Task) (listed : setup.tasks id = some task) : task.point = .clear := by
  have fits := consistent.fits id task listed
  match point : task.point with
  | .clear => rfl
  | .init =>
    rw [point] at fits
    exact absurd (on.symm.trans fits.2.1) (by simp)
  | .renew | .reclaim | .look | .claim =>
    rw [point] at fits
    exact absurd fits.1 idle

theorem consistent_check {id : ℕ} : Consistent hostId (setup.checkLeader id) := by
  rw [checkLeader]
  split_ifs with progress role
  · exact consistent
  · refine consistent.change (some .renew)
      (fun other task _ listed => consistent.idle on progress other task listed) rfl ?_
      (consistent.started on)
    rintro point ⟨⟩
    exact ⟨rfl, role⟩
  · refine consistent.change (some .look)
      (fun other task _ listed => consistent.idle on progress other task listed) rfl ?_
      (consistent.started on)
    rintro point ⟨⟩
    exact ⟨rfl, Bool.eq_false_iff.mpr role⟩

end

theorem consistent_shutdown : Consistent hostId (setup.shutdown id) := by
  have fits : ∀ setup' : MultiMainSetup, setup'.started = setup.started →
      setup'.leaderCheckInterval = false → setup'.leaderCheckInProgress =
        setup.leaderCheckInProgress → setup'.isLeader = setup.isLeader →
      ∀ point, Fits setup point → Fits setup' point := by
    intro setup' started off progress role point fits
    cases point <;> simp_all [Fits]
  rw [shutdown]
  split_ifs with role
  · refine consistent.keep (fun other task listed => ?_) (fits _ rfl rfl rfl rfl) rfl rfl
      fun _ => rfl
    simp only [await, Function.update_apply] at listed
    split_ifs at listed
    · cases listed
      simp
    · exact ⟨.inr ⟨task, listed, rfl⟩, fun reply => consistent.genuine other task reply listed⟩
  · refine consistent.keep (fun other task listed => ?_) (fits _ rfl rfl rfl rfl) rfl rfl
      fun _ => rfl
    exact ⟨.inr ⟨task, listed, rfl⟩, fun reply => consistent.genuine other task reply listed⟩

theorem consistent_execute {point : Point} (listed : setup.tasks id = some { point }) (leaderKey : Option String) :
    Consistent hostId { setup with
      tasks := Function.update setup.tasks id
        (some { point, reply := some (execute hostId leaderKey point.command).2 }) } := by
  refine consistent.keep (fun other task listed' => ?_) (fun point fits => ?_) rfl rfl
    fun off => off
  · simp only [Function.update_apply] at listed'
    split_ifs at listed' with same
    · cases listed'
      subst same
      refine ⟨.inr ⟨_, listed, rfl⟩, ?_⟩
      rintro reply ⟨⟩
      exact ⟨leaderKey, rfl⟩
    · exact ⟨.inr ⟨task, listed', rfl⟩, fun reply => consistent.genuine other task reply listed'⟩
  · cases point <;> exact fits

theorem consistent_proceed (listed : setup.tasks id = some task) (reply : Option Reply) :
    Consistent hostId (setup.proceed hostId id task.point reply) := by
  obtain ⟨setup', next, resumed, tasks, started, progress, deletion, goes⟩ :=
    resume_fits hostId (consistent.fits id task listed) reply
  have isStarted : task.point ≠ .clear → setup.started = true := by
    intro role
    by_contra fresh
    exact role ((consistent.fresh (Bool.eq_false_iff.mpr fresh)).2.2 id task listed)
  rw [proceed, resumed]
  by_cases role : task.point = .clear
  · obtain ⟨rfl, interval, same⟩ := deletion role
    refine consistent.keep (fun other task' listed' => ?_) (fun point fits => ?_) started same
      (fun off => interval.trans off)
    · simp only [finish, tasks, Function.update_apply] at listed'
      split_ifs at listed'
      exact ⟨.inr ⟨task', listed', rfl⟩, fun reply => consistent.genuine other task' reply listed'⟩
    · have kept : (setup'.finish id task.point).leaderCheckInProgress =
          setup.leaderCheckInProgress := by
        simp [finish, role, Point.isCheck, progress]
      have sameRole : (setup'.finish id task.point).isLeader = setup.isLeader := same
      have sameInterval : (setup'.finish id task.point).leaderCheckInterval =
          setup.leaderCheckInterval := interval
      have sameStarted : (setup'.finish id task.point).started = setup.started := started
      cases point <;> simp_all [Fits]
  · have others := consistent.others listed role
    match next with
    | none =>
      exact consistent.change none others
        (by simp [finish, tasks]) (by simp) (started.trans (isStarted role))
    | some point =>
      refine consistent.change (some point) others
        (by simp [await, tasks]) ?_ (started.trans (isStarted role))
      rintro _ ⟨⟩
      have fits := (goes point rfl).1
      cases point <;> exact fits

end

end Instances

section Runs

variable {Instance : Type} [DecidableEq Instance] {hostId : Instance → String}
variable {leaderKey : Option String} {state state' : State Instance} {event : Event Instance}

def AllConsistent (hostId : Instance → String) (state : State Instance) : Prop :=
  ∀ host, Consistent (hostId host) (state.instances host)

theorem AllConsistent.update (consistent : AllConsistent hostId state) {host : Instance}
    {setup : MultiMainSetup} (setupConsistent : Consistent (hostId host) setup) :
    AllConsistent hostId (state.update host setup) := by
  intro other
  by_cases same : other = host
  · subst same
    simpa [State.update] using setupConsistent
  · simpa [State.update, same] using consistent other

theorem step_consistent (consistent : AllConsistent hostId state) (stepped : step hostId state event = some state') :
    AllConsistent hostId state' := by
  cases event with
  | init host id =>
    simp only [step] at stepped
    split_ifs at stepped with busy
    cases stepped
    exact consistent.update (consistent_init (consistent host) (by simp_all))
  | check host id =>
    simp only [step] at stepped
    split_ifs at stepped with busy
    cases stepped
    exact consistent.update (consistent_check (consistent host) (by simp_all))
  | shutdown host id =>
    simp only [step] at stepped
    split_ifs at stepped with busy
    cases stepped
    exact consistent.update (consistent_shutdown (consistent host))
  | execute host id =>
    simp only [step] at stepped
    split at stepped
    · rename_i point listed
      cases stepped
      exact AllConsistent.update (fun other => consistent other)
        (consistent_execute (consistent host) listed state.leaderKey)
    · cases stepped
  | executeLate index =>
    simp only [step] at stepped
    split at stepped
    · cases stepped
      exact consistent
    · cases stepped
  | answer host id =>
    simp only [step] at stepped
    split at stepped
    · rename_i point reply listed
      split_ifs at stepped
      cases stepped
      exact consistent.update (consistent_proceed (consistent host) listed (some reply))
    · cases stepped
  | fail host id =>
    simp only [step] at stepped
    split at stepped
    · rename_i point reply listed
      cases stepped
      exact AllConsistent.update (fun other => consistent other) (consistent_proceed (consistent host) listed none)
    · cases stepped
  | expire =>
    cases stepped
    exact consistent

theorem reachable_consistent (reachable : (system hostId leaderKey).Reachable state) : AllConsistent hostId state :=
  reachable.invariant (P := AllConsistent hostId) (fun _ => consistent_initial)
    fun _ _ _ consistent stepped => step_consistent consistent stepped

theorem step_leaderKey (stepped : step hostId state event = some state') :
    (event = .expire ∧ state'.leaderKey = none) ∨
    (performs state event = none ∧ state'.leaderKey = state.leaderKey) ∨
    ∃ host command, performs state event = some (host, command) ∧
      state'.leaderKey = (execute (hostId host) state.leaderKey command).1 := by
  cases event with
  | init host id | check host id | shutdown host id =>
    simp only [step] at stepped
    split_ifs at stepped
    cases stepped
    exact .inr (.inl ⟨rfl, rfl⟩)
  | execute host id =>
    simp only [step] at stepped
    split at stepped
    · rename_i point listed
      cases stepped
      exact .inr (.inr ⟨host, point.command, by rw [performs, listed]; rfl, rfl⟩)
    · cases stepped
  | executeLate index =>
    simp only [step] at stepped
    split at stepped
    · rename_i host command listed
      cases stepped
      exact .inr (.inr ⟨host, command, listed, rfl⟩)
    · cases stepped
  | answer host id =>
    simp only [step] at stepped
    split at stepped
    · split_ifs at stepped
      cases stepped
      exact .inr (.inl ⟨rfl, rfl⟩)
    · cases stepped
  | fail host id =>
    simp only [step] at stepped
    split at stepped
    · cases stepped
      exact .inr (.inl ⟨rfl, rfl⟩)
    · cases stepped
  | expire =>
    cases stepped
    exact .inl ⟨rfl, rfl⟩

theorem givesUp_iff_deletes (stepped : step hostId state event = some state') :
    GivesUpAsHolder hostId state event ↔ DeletesAsLeader hostId state event := by
  constructor
  · intro givesUp host deletes other renewal
    obtain ⟨held, different⟩ := renewal_other_iff.mp renewal
    obtain ⟨rfl, -⟩ | ⟨none, -⟩ | ⟨sender, command, performed, after⟩ := step_leaderKey stepped
    · cases deletes
    · rw [none] at deletes
      cases deletes
    · rw [deletes] at performed
      cases performed
      have lost : state'.leaderKey ≠ some other := by simp [after, execute]
      obtain rfl | ⟨owner, performed, own⟩ := givesUp state' stepped other held lost
      · cases deletes
      · rw [deletes] at performed
        cases performed
        exact different own
  · intro deletes after taken holder held lost
    rw [stepped] at taken
    cases taken
    obtain ⟨rfl, -⟩ | ⟨-, same⟩ | ⟨host, command, performed, after⟩ := step_leaderKey stepped
    · exact .inl rfl
    · exact absurd (same.trans held) lost
    · have deletion : command = .del := by
        by_contra keeps
        exact lost (after.trans (execute_keeps held keeps))
      subst deletion
      refine .inr ⟨host, performed, ?_⟩
      by_contra different
      exact deletes host performed holder (renewal_other_iff.mpr ⟨held, different⟩)

omit [DecidableEq Instance] in
theorem AllConsistent.assertionsHold (consistent : AllConsistent hostId state) : AssertionsHold hostId state := by
  intro host id task listed reply
  obtain ⟨setup', next, resumed, -⟩ :=
    resume_fits (hostId host) ((consistent host).fits id task listed) reply
  simp [resumed]

theorem AllConsistent.checksShow (consistent : AllConsistent hostId state) : ChecksShow hostId state := by
  intro host id state' stepped point reply listed check ended
  have fits := (consistent host).fits id _ listed
  obtain ⟨setup', next, resumed, -⟩ := resume_fits (hostId host) fits (some reply)
  simp only [step, listed] at stepped
  split_ifs at stepped
  cases stepped
  rw [proceed, resumed] at ended ⊢
  match next with
  | some point' => simp [State.task, State.update, await] at ended
  | none =>
    have shown := resume_shows fits check ((consistent host).genuine id _ reply listed rfl) resumed
    simpa [State.update, finish, isLeader] using shown

/-- In every run no role assertion fails and the flag follows the last reply of a check; the key is
only given up by its holder if and only if no deletion reaches Redis while another host holds the
key. -/
theorem leadership (hostId : Instance → String) (leaderKey : Option String) :
    (∀ events, (system hostId leaderKey).AllSteps (GivesUpAsHolder hostId) { leaderKey } events ↔
      (system hostId leaderKey).AllSteps (DeletesAsLeader hostId) { leaderKey } events) ∧
    ∀ state, (system hostId leaderKey).Reachable state → AssertionsHold hostId state ∧ ChecksShow hostId state := by
  refine ⟨fun events => ?_, fun state reachable => ?_⟩
  · exact TransitionSystem.allSteps_congr (fun _ _ _ stepped => givesUp_iff_deletes stepped) _ _
  · have consistent := reachable_consistent reachable
    exact ⟨consistent.assertionsHold, consistent.checksShow⟩

/-- The leader key of the first instance expires and the second one takes it over; the first one,
whose flag is stale, deletes it when it shuts down. -/
theorem not_givesUpAsHolder : ¬ (system (fun host : ℕ => if host = 0 then "main-a" else "main-b") none).AllSteps
      (GivesUpAsHolder fun host : ℕ => if host = 0 then "main-a" else "main-b")
      { leaderKey := none }
      [.init 0 0, .execute 0 0, .answer 0 0, .expire, .init 1 0, .execute 1 0, .answer 1 0,
        .shutdown 0 0, .execute 0 0] := by
  intro all
  have last := (all _ rfl).2 _ rfl |>.2 _ rfl |>.2 _ rfl |>.2 _ rfl |>.2 _ rfl |>.2 _ rfl |>.2 _ rfl
    |>.2 _ rfl |>.1
  rcases last _ rfl "main-b" rfl (by simp [State.update]) with expired | ⟨host, performed, own⟩
  · cases expired
  · cases performed
    simp at own

end Runs

end N8n.LeaderElection
