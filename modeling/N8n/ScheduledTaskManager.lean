import N8n.TransitionSystem
import Mathlib.Logic.Function.Basic

/-! Crons on several instances that may be leader or follower. The time that a firing is labelled with is
computed when the one before it is handled, and a follower handles none. -/

namespace N8n.ScheduledTaskManager

open List Option Function

inductive CronRecurrenceRule where
  | inactive
  | active (index intervalSize : ℕ) (typeInterval : String)
  deriving DecidableEq

/-- It is also the key of the cron, which has all of its fields. -/
structure CronContext where
  nodeId : String
  workflowId : String
  timezone : String
  expression : String
  recurrence : Option CronRecurrenceRule
  deriving DecidableEq

/-- The schedule of an expression in a timezone: `sendAt` is the next tick, strictly later than now. -/
structure CronTime where
  sendAt : ℕ → ℕ
  lt_sendAt : ∀ now, now < sendAt now

/-- A call of `onTick`, and the tick at which it was made. -/
structure Call where
  tick : ℕ
  scheduledTime : ℕ
  deriving DecidableEq

/-- The job is due at the next tick of the schedule since it was started or has fired. `skipped` is kept
beside the variables of the source: the last tick has been none of a leader. -/
structure Cron where
  cronTime : CronTime
  scheduledTime : ℕ
  due : ℕ
  skipped : Bool
  calls : List Call

structure Manager where
  isLeader : Bool
  crons : CronContext → Option Cron
  duplicates : List CronContext

inductive Event (ι : Type*) where
  | registerCron (i : ι) (ctx : CronContext) (now : ℕ)
  | deregisterCrons (i : ι) (workflowId : String)
  | takeover (i : ι)
  | stepdown (i : ι)
  /-- The job fires, at the tick that it is due or later. -/
  | tick (i : ι) (ctx : CronContext) (now : ℕ)

def Cron.handleTick (c : Cron) (isLeader : Bool) (now : ℕ) : Cron :=
  if isLeader then
    { c with
      scheduledTime := c.cronTime.sendAt now
      due := c.cronTime.sendAt now
      skipped := false
      calls := c.calls ++ [⟨c.due, c.scheduledTime⟩] }
  else { c with due := c.cronTime.sendAt now, skipped := true }

def Cron.start (cronTime : CronTime) (now : ℕ) : Cron :=
  ⟨cronTime, cronTime.sendAt now, cronTime.sendAt now, false, []⟩

/-- `cronTime` throws where the expression or the timezone is invalid. -/
def Manager.registerCron (cronTime : String → String → Option CronTime) (m : Manager) (ctx : CronContext) (now : ℕ) :
    Manager :=
  if (m.crons ctx).isSome then { m with duplicates := m.duplicates ++ [ctx] }
  else
    match cronTime ctx.expression ctx.timezone with
    | none => m
    | some time => { m with crons := Function.update m.crons ctx (some (.start time now)) }

def Manager.deregisterCrons (m : Manager) (workflowId : String) : Manager :=
  { m with crons := fun ctx => if ctx.workflowId = workflowId then none else m.crons ctx }

def Manager.tick (m : Manager) (ctx : CronContext) (c : Cron) (now : ℕ) : Manager :=
  { m with crons := Function.update m.crons ctx (some (c.handleTick m.isLeader now)) }

variable {ι : Type*} [DecidableEq ι] (cronTime : String → String → Option CronTime)

def step (s : ι → Manager) : Event ι → Option (ι → Manager)
  | .registerCron i ctx now => some (Function.update s i ((s i).registerCron cronTime ctx now))
  | .deregisterCrons i workflowId => some (Function.update s i ((s i).deregisterCrons workflowId))
  | .takeover i => some (Function.update s i { s i with isLeader := true })
  | .stepdown i => some (Function.update s i { s i with isLeader := false })
  | .tick i ctx now =>
    ((s i).crons ctx).bind fun c => if c.due ≤ now then some (Function.update s i ((s i).tick ctx c now)) else none

def initial (isLeader : ι → Bool) : ι → Manager := fun i => ⟨isLeader i, fun _ => none, []⟩

def system (isLeader : ι → Bool) : TransitionSystem (ι → Manager) (Event ι) := ⟨initial isLeader, step cronTime⟩

/-! ## What is claimed, and of which steps -/

def Registered (s : ι → Manager) (c : Cron) : Prop := ∃ i ctx, (s i).crons ctx = some c

structure OwnTimes (s : ι → Manager) : Prop where
  own : ∀ c, Registered s c → ∀ call ∈ c.calls, call.scheduledTime = call.tick
  increasing : ∀ c, Registered s c → c.calls.Pairwise (·.scheduledTime < ·.scheduledTime)
  apart : ∀ c d, Registered s c → Registered s d → ∀ call ∈ c.calls, ∀ other ∈ d.calls,
    call.scheduledTime = other.scheduledTime → call.tick = other.tick

def NoneSkipped (s : ι → Manager) : Event ι → Prop
  | .registerCron _ _ _ => True
  | .deregisterCrons _ _ => True
  | .takeover _ => True
  | .stepdown _ => True
  | .tick i ctx _ => (s i).isLeader = true → ∀ c, (s i).crons ctx = some c → c.skipped = false

/-! ## One cron -/

structure Cron.Timed (c : Cron) : Prop where
  behind : c.skipped = true → c.scheduledTime < c.due
  level : c.skipped = false → c.scheduledTime = c.due
  past : ∀ call ∈ c.calls, call.tick < c.due
  ticks : c.calls.Pairwise (·.tick < ·.tick)

def Cron.Own (c : Cron) : Prop := ∀ call ∈ c.calls, call.scheduledTime = call.tick

namespace Cron.Timed

variable {c : Cron} {now : ℕ}

theorem start (time : CronTime) (now : ℕ) : (Cron.start time now).Timed := ⟨nofun, fun _ => rfl, nofun, .nil⟩

theorem scheduledTime_le (timed : c.Timed) : c.scheduledTime ≤ c.due := by
  cases skipped : c.skipped with
  | true => exact Nat.le_of_lt (timed.behind skipped)
  | false => exact Nat.le_of_eq (timed.level skipped)

theorem handleTick (timed : c.Timed) (due : c.due ≤ now) (isLeader : Bool) : (c.handleTick isLeader now).Timed := by
  have further : c.due < c.cronTime.sendAt now := Nat.lt_of_le_of_lt due (c.cronTime.lt_sendAt now)
  rw [Cron.handleTick]
  split_ifs
  · refine ⟨nofun, fun _ => rfl, fun call member => ?_, ?_⟩
    · rcases mem_append.mp member with old | last
      · exact Nat.lt_trans (timed.past call old) further
      · rw [mem_singleton.mp last]
        exact further
    · refine pairwise_append.mpr ⟨timed.ticks, pairwise_singleton _ _, fun call old last member => ?_⟩
      exact mem_singleton.mp member ▸ timed.past call old
  · exact ⟨fun _ => Nat.lt_of_le_of_lt timed.scheduledTime_le further, nofun, fun call member =>
      Nat.lt_trans (timed.past call member) further, timed.ticks⟩

theorem skipped_eq_false_iff (timed : c.Timed) : c.skipped = false ↔ c.scheduledTime = c.due := by
  refine ⟨timed.level, fun level => Bool.eq_false_iff.mpr fun skipped => ?_⟩
  exact Nat.ne_of_lt (timed.behind skipped) level

theorem handleTick_own_iff (timed : c.Timed) (own : c.Own) (isLeader : Bool) :
    (c.handleTick isLeader now).Own ↔ (isLeader = true → c.skipped = false) := by
  rw [timed.skipped_eq_false_iff, Cron.handleTick]
  split_ifs with leader
  · refine ⟨fun after _ => after ⟨c.due, c.scheduledTime⟩ (mem_append_right _ (mem_singleton_self _)),
      fun level call member => ?_⟩
    rcases mem_append.mp member with old | last
    · exact own call old
    · exact mem_singleton.mp last ▸ level leader
  · exact iff_of_true own fun yes => (leader yes).elim

theorem increasing (timed : c.Timed) (own : c.Own) : c.calls.Pairwise (·.scheduledTime < ·.scheduledTime) :=
  timed.ticks.imp_of_mem fun one two earlier => by rwa [own _ one, own _ two]

end Cron.Timed

/-! ## All instances -/

variable {cronTime} {s s' : ι → Manager} {e : Event ι}

def AllTimed (s : ι → Manager) : Prop := ∀ c, Registered s c → c.Timed

omit [DecidableEq ι] in
theorem ownTimes_iff (timed : AllTimed s) : OwnTimes s ↔ ∀ c, Registered s c → c.Own := by
  refine ⟨OwnTimes.own, fun own => ⟨own, fun c there => (timed c there).increasing (own c there), ?_⟩⟩
  intro c d there there' call one other two same
  rw [← own c there call one, ← own d there' other two, same]

theorem eq_or_of_update {crons : CronContext → Option Cron} {ctx key : CronContext} {new c : Cron}
    (known : update crons ctx (some new) key = some c) : c = new ∨ crons key = some c := by
  by_cases same : key = ctx
  · subst same
    rw [update_self] at known
    exact .inl (some.inj known).symm
  · rw [update_of_ne same] at known
    exact .inr known

theorem registered_update {i : ι} {m : Manager} {c : Cron} (there : Registered (update s i m) c) :
    (∃ ctx, m.crons ctx = some c) ∨ Registered s c := by
  obtain ⟨j, ctx, known⟩ := there
  by_cases same : j = i
  · subst same
    rw [update_self] at known
    exact .inl ⟨ctx, known⟩
  · rw [update_of_ne same] at known
    exact .inr ⟨j, ctx, known⟩

theorem registered_step {c : Cron} (taken : step cronTime s e = some s') (there : Registered s' c) :
    Registered s c ∨ (∃ time now, c = .start time now) ∨
      ∃ i ctx now before, e = .tick i ctx now ∧ (s i).crons ctx = some before ∧ before.due ≤ now ∧
        c = before.handleTick (s i).isLeader now := by
  cases e with
  | registerCron i ctx now =>
    cases taken
    refine (registered_update there).elim (fun ⟨key, known⟩ => ?_) .inl
    rw [Manager.registerCron] at known
    split_ifs at known
    · exact .inl ⟨i, key, known⟩
    · split at known
      · exact .inl ⟨i, key, known⟩
      · rcases eq_or_of_update known with same | old
        · exact .inr (.inl ⟨_, now, same⟩)
        · exact .inl ⟨i, key, old⟩
  | deregisterCrons i workflowId =>
    cases taken
    refine (registered_update there).elim (fun ⟨key, known⟩ => ?_) .inl
    exact .inl ⟨i, key, (ite_none_left_eq_some.mp known).2⟩
  | takeover i =>
    cases taken
    exact .inl ((registered_update there).elim (fun ⟨key, known⟩ => ⟨i, key, known⟩) id)
  | stepdown i =>
    cases taken
    exact .inl ((registered_update there).elim (fun ⟨key, known⟩ => ⟨i, key, known⟩) id)
  | tick i ctx now =>
    obtain ⟨before, here, same⟩ := bind_eq_some_iff.mp taken
    obtain ⟨due, same⟩ := ite_none_right_eq_some.mp same
    cases same
    refine (registered_update there).elim (fun ⟨key, known⟩ => ?_) .inl
    rcases eq_or_of_update known with same | old
    · exact .inr (.inr ⟨i, ctx, now, before, rfl, here, due, same⟩)
    · exact .inl ⟨i, key, old⟩

theorem AllTimed.step (timed : AllTimed s) (taken : step cronTime s e = some s') : AllTimed s' := by
  intro c there
  rcases registered_step taken there with old | ⟨time, now, rfl⟩ | ⟨i, ctx, now, before, -, here, due, rfl⟩
  · exact timed c old
  · exact .start time now
  · exact (timed before ⟨i, ctx, here⟩).handleTick due _

theorem ownTimes_step_iff (timed : AllTimed s) (own : OwnTimes s) (taken : step cronTime s e = some s') :
    OwnTimes s' ↔ NoneSkipped s e := by
  rw [ownTimes_iff (timed.step taken)]
  constructor
  · intro after
    cases e with
    | registerCron i ctx now => trivial
    | deregisterCrons i workflowId => trivial
    | takeover i => trivial
    | stepdown i => trivial
    | tick i ctx now =>
      intro leader c here
      obtain ⟨before, here', same⟩ := bind_eq_some_iff.mp taken
      obtain rfl := some.inj (here.symm.trans here')
      obtain ⟨-, same⟩ := ite_none_right_eq_some.mp same
      cases same
      have fired := after (c.handleTick (s i).isLeader now)
        ⟨i, ctx, by rw [update_self]; exact update_self _ _ _⟩
      exact ((timed c ⟨i, ctx, here⟩).handleTick_own_iff (own.own c ⟨i, ctx, here⟩) _).mp fired leader
  · intro meets c there
    rcases registered_step taken there with old | ⟨time, now, rfl⟩ | ⟨i, ctx, now, before, rfl, here, -, rfl⟩
    · exact own.own c old
    · nofun
    · exact ((timed before ⟨i, ctx, here⟩).handleTick_own_iff (own.own before ⟨i, ctx, here⟩) _).mpr fun leader =>
        meets leader before here

/-- Through a run every call is made with the time of its own tick exactly when no leader handles a tick
that comes after a skipped one. -/
theorem ownTimes_iff_noneSkipped (cronTime : String → String → Option CronTime) (isLeader : ι → Bool)
    (events : List (Event ι)) : (system cronTime isLeader).AllStates OwnTimes (initial isLeader) events ↔
      (system cronTime isLeader).AllSteps NoneSkipped (initial isLeader) events := by
  have nothing : ∀ c, ¬Registered (initial isLeader) c := fun c ⟨_, _, known⟩ => nomatch known
  have timed : AllTimed (initial isLeader) := fun c there => (nothing c there).elim
  exact TransitionSystem.allStates_iff_allSteps (I := AllTimed) (fun _ _ _ timed _ _ taken => timed.step taken)
    (fun _ _ _ timed own taken => ownTimes_step_iff timed own taken)
    ((ownTimes_iff timed).mpr fun c there => (nothing c there).elim) timed events

def everyMinute : CronTime where
  sendAt now := (now / 60 + 1) * 60
  lt_sendAt now := by omega

def minutely : CronContext := ⟨"node", "workflow", "GMT", "0 * * * * *", none⟩

/-- A follower skips the tick at 60 and takes over: at 120 it passes 60. -/
theorem skipped_time_passed :
    ¬(system (fun _ _ => some everyMinute) fun _ : Unit => false).AllStates OwnTimes (initial fun _ => false)
      [.registerCron () minutely 0, .tick () minutely 60, .takeover (), .tick () minutely 120] := by
  intro all
  have last := ((((all.2 _ rfl).2 _ rfl).2 _ rfl).2 _ rfl).own
  exact absurd (last _ ⟨(), minutely, rfl⟩ ⟨120, 60⟩ (by decide)) (by decide)

end N8n.ScheduledTaskManager
