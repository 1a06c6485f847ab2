import N8n.OrderedMap
import N8n.ScheduledTaskManager

/-! The crons of an instance, by workflow and key. Each has a job that fires until it is stopped, so one that is
dropped from the maps without that would fire for ever. -/

namespace N8n.ScheduledTaskManager

open List Option Function

/-- `jobs` are those that run, each told by the context it was made for. -/
structure Registry where
  cronsByWorkflow : OrderedMap String (OrderedMap CronContext CronContext)
  jobs : List CronContext

inductive RegistryCall where
  | registerCron (ctx : CronContext)
  | deregisterCrons (workflowId : String)
  | deregisterAllCrons

namespace Registry

def empty : Registry := ⟨.empty, []⟩

def getWorkflowIdsWithCrons (r : Registry) : List String := r.cronsByWorkflow.entries.map Prod.fst

def cron (r : Registry) (workflowId : String) (key : CronContext) : Option CronContext :=
  (r.cronsByWorkflow.get workflowId).bind (·.get key)

def has (r : Registry) (ctx : CronContext) : Bool := (r.cron ctx.workflowId ctx).isSome

variable (cronTime : String → String → Option CronTime)

def registerCron (r : Registry) (ctx : CronContext) : Registry :=
  if r.has ctx then r
  else
    match cronTime ctx.expression ctx.timezone with
    | none => r
    | some _ =>
      let workflowCrons := (r.cronsByWorkflow.get ctx.workflowId).getD .empty
      ⟨r.cronsByWorkflow.set ctx.workflowId (workflowCrons.set ctx ctx), r.jobs ++ [ctx]⟩

def deregisterCrons (r : Registry) (workflowId : String) : Registry :=
  match r.cronsByWorkflow.get workflowId with
  | none => r
  | some workflowCrons =>
    if workflowCrons.size = 0 then r
    else ⟨r.cronsByWorkflow.delete workflowId, r.jobs.diff workflowCrons.values⟩

def apply (r : Registry) : RegistryCall → Registry
  | .registerCron ctx => r.registerCron cronTime ctx
  | .deregisterCrons workflowId => r.deregisterCrons workflowId
  | .deregisterAllCrons => r.getWorkflowIdsWithCrons.foldl deregisterCrons r

/-- Exactly the crons in the maps have a job that runs, and each has one. -/
structure Tidy (r : Registry) : Prop where
  own : ∀ workflowId key ctx, r.cron workflowId key = some ctx → key = ctx ∧ ctx.workflowId = workflowId
  running : ∀ ctx, ctx ∈ r.jobs ↔ r.has ctx = true
  once : r.jobs.Nodup

/-- What a call makes of whether a context has a cron. -/
def registered (ctx : CronContext) (before : Bool) : RegistryCall → Bool
  | .registerCron other => before || decide (ctx = other) && (cronTime ctx.expression ctx.timezone).isSome
  | .deregisterCrons workflowId => before && decide (ctx.workflowId ≠ workflowId)
  | .deregisterAllCrons => false

variable {cronTime} {r : Registry} {ctx key : CronContext} {workflowId other : String}

theorem cron_deregisterCrons : (r.deregisterCrons workflowId).cron other key =
    if other = workflowId then none else r.cron other key := by
  rw [deregisterCrons]
  split
  · rename_i absent
    split_ifs with same
    · rw [cron, same, absent, bind_none]
    · rfl
  · rename_i crons found
    split_ifs with none same same
    · rw [cron, same, found, bind_some, OrderedMap.get, length_eq_zero_iff.mp none]
      rfl
    · rfl
    · rw [cron, OrderedMap.get_delete, if_pos same, bind_none]
    · rw [cron, OrderedMap.get_delete, if_neg same, cron]

theorem tidy_registerCron (tidy : r.Tidy) (ctx : CronContext) : (r.registerCron cronTime ctx).Tidy ∧
    ∀ other, (r.registerCron cronTime ctx).has other = registered cronTime other (r.has other) (.registerCron ctx) := by
  rw [registerCron]
  split_ifs with old
  · exact ⟨tidy, fun other => by by_cases same : other = ctx <;> simp [registered, same, old]⟩
  split
  · rename_i invalid
    exact ⟨tidy, fun other => by by_cases same : other = ctx <;> simp [registered, same, invalid]⟩
  rename_i valid
  generalize next : Registry.mk _ _ = after
  have crons : ∀ workflowId key, after.cron workflowId key =
      if workflowId = ctx.workflowId ∧ key = ctx then some ctx else r.cron workflowId key := by
    intro workflowId key
    rw [← next, cron, OrderedMap.get_set]
    by_cases same : workflowId = ctx.workflowId
    · rw [if_pos same, bind_some, OrderedMap.get_set, cron, same]
      cases r.cronsByWorkflow.get ctx.workflowId <;> simp
    · simp [same, cron]
  have present : ∀ other, after.has other = registered cronTime other (r.has other) (.registerCron ctx) := by
    intro other
    rw [has, crons, registered, has]
    by_cases same : other = ctx <;> simp [same, valid]
  refine ⟨⟨fun workflowId key other found => ?_, fun other => ?_, ?_⟩, present⟩
  · rw [crons] at found
    split_ifs at found with same
    · cases found
      exact ⟨same.2, same.1.symm⟩
    · exact tidy.own workflowId key other found
  · rw [present, ← next, registered, mem_append, tidy.running, mem_singleton]
    by_cases same : other = ctx <;> simp [same, valid]
  · rw [← next]
    exact tidy.once.append (nodup_singleton _) (by simpa [tidy.running] using old)

theorem tidy_deregisterCrons (tidy : r.Tidy) (workflowId : String) : (r.deregisterCrons workflowId).Tidy := by
  have crons : ∀ other key, (r.deregisterCrons workflowId).cron other key = _ := fun _ _ => cron_deregisterCrons
  rw [deregisterCrons] at crons ⊢
  cases found : r.cronsByWorkflow.get workflowId with
  | none => exact tidy
  | some workflowCrons =>
    simp only [found] at crons ⊢
    split_ifs at crons ⊢
    · exact tidy
    refine ⟨fun other key ctx listed => ?_, fun ctx => ?_, tidy.once.diff⟩
    · rw [crons] at listed
      split_ifs at listed
      exact tidy.own other key ctx listed
    · rw [tidy.once.mem_sdiff_iff, tidy.running, has, has, crons]
      split_ifs with same
      · refine iff_of_false (fun ⟨present, absent⟩ => absent ?_) Bool.false_ne_true
        obtain ⟨value, inside⟩ := Option.isSome_iff_exists.mp present
        obtain ⟨rfl, _⟩ := tidy.own _ _ _ inside
        rw [cron, same, found] at inside
        exact workflowCrons.mem_values_iff.mpr ⟨_, inside⟩
      · refine and_iff_left fun listed => same ?_
        obtain ⟨key, inside⟩ := workflowCrons.mem_values_iff.mp listed
        exact (tidy.own workflowId key ctx (by rw [cron, found]; exact inside)).2

theorem tidy_deregisterAll (tidy : r.Tidy) (workflowIds : List String) : (workflowIds.foldl deregisterCrons r).Tidy ∧
    ∀ workflowId key, (workflowIds.foldl deregisterCrons r).cron workflowId key =
      if workflowId ∈ workflowIds then none else r.cron workflowId key := by
  induction workflowIds generalizing r with
  | nil => exact ⟨tidy, fun _ _ => rfl⟩
  | cons first workflowIds ih =>
    obtain ⟨after, crons⟩ := ih (tidy_deregisterCrons tidy first)
    refine ⟨after, fun workflowId key => (crons workflowId key).trans ?_⟩
    rw [cron_deregisterCrons]
    by_cases same : workflowId = first <;> simp [same]

theorem tidy_apply (tidy : r.Tidy) (call : RegistryCall) : (r.apply cronTime call).Tidy ∧
    ∀ ctx, (r.apply cronTime call).has ctx = registered cronTime ctx (r.has ctx) call := by
  cases call with
  | registerCron ctx => exact tidy_registerCron tidy ctx
  | deregisterCrons workflowId =>
    refine ⟨tidy_deregisterCrons tidy workflowId, fun ctx => ?_⟩
    rw [apply, has, cron_deregisterCrons, registered, has]
    split_ifs with same <;> simp [same]
  | deregisterAllCrons =>
    obtain ⟨after, crons⟩ := tidy_deregisterAll tidy r.getWorkflowIdsWithCrons
    refine ⟨after, fun ctx => ?_⟩
    rw [apply, has, crons, registered]
    split_ifs with listed
    · rfl
    · rw [cron, r.cronsByWorkflow.get_eq_none_iff.mpr listed]
      rfl

theorem tidy_calls (tidy : r.Tidy) (calls : List RegistryCall) : (calls.foldl (apply cronTime) r).Tidy ∧
    ∀ ctx, (calls.foldl (apply cronTime) r).has ctx = calls.foldl (registered cronTime ctx) (r.has ctx) := by
  induction calls generalizing r with
  | nil => exact ⟨tidy, fun _ => rfl⟩
  | cons call calls ih =>
    obtain ⟨after, left⟩ := tidy_apply tidy call
    obtain ⟨final, all⟩ := ih after
    exact ⟨final, fun ctx => by rw [foldl_cons, all, left, foldl_cons]⟩

theorem tidy_empty : empty.Tidy where
  own workflowId key ctx found := by
    have nothing : empty.cron workflowId key = none := rfl
    cases nothing.symm.trans found
  running _ := iff_of_false not_mem_nil Bool.false_ne_true
  once := .nil

/-- After any calls the jobs that run are those of the crons in the maps, and a context has a cron exactly when
it was registered, with a valid schedule, and not deregistered since. -/
theorem calls_tidy (cronTime : String → String → Option CronTime) (calls : List RegistryCall) :
    let r := calls.foldl (apply cronTime) empty
    r.Tidy ∧ ∀ ctx, r.has ctx = calls.foldl (registered cronTime ctx) false :=
  tidy_calls tidy_empty calls

/-! ## The crons with their times -/

section Timed

variable {ι : Type*} [DecidableEq ι] {i : ι} {s s' : ι → Manager} {e : Event ι}

/-- What an event is for the maps of an instance; they stay as they are when a job fires or the role changes. -/
def callOf (i : ι) : Event ι → Option RegistryCall
  | .registerCron j ctx _ => if i = j then some (.registerCron ctx) else none
  | .deregisterCrons j workflowId => if i = j then some (.deregisterCrons workflowId) else none
  | .takeover _ | .stepdown _ | .tick _ _ _ => none

theorem crons_step (taken : step cronTime s e = some s') (ctx : CronContext) : ((s' i).crons ctx).isSome =
    (callOf i e).elim ((s i).crons ctx).isSome (registered cronTime ctx ((s i).crons ctx).isSome) := by
  cases e with
  | registerCron j other now =>
    cases taken
    rw [callOf]
    split_ifs with same
    · subst same
      rw [update_self, Manager.registerCron, elim_some, registered]
      split_ifs with old
      · by_cases here : ctx = other <;> simp [here, old]
      · by_cases here : ctx = other
        · subst here
          cases cronTime ctx.expression ctx.timezone <;> simp
        · cases cronTime other.expression other.timezone <;> simp [here]
    · rw [update_of_ne same, elim_none]
  | deregisterCrons j workflowId =>
    cases taken
    rw [callOf]
    split_ifs with same
    · subst same
      rw [update_self, Manager.deregisterCrons, elim_some, registered]
      by_cases here : ctx.workflowId = workflowId <;> simp [here]
    · rw [update_of_ne same, elim_none]
  | takeover j | stepdown j =>
    cases taken
    by_cases same : i = j
    · subst same
      rw [update_self]
      rfl
    · rw [update_of_ne same]
      rfl
  | tick j other now =>
    obtain ⟨c, here, same⟩ := Option.bind_eq_some_iff.mp taken
    obtain ⟨-, same⟩ := Option.ite_none_right_eq_some.mp same
    cases same
    by_cases same : i = j
    · subst same
      rw [update_self, Manager.tick, callOf, elim_none]
      by_cases own : ctx = other
      · subst own
        simp [here]
      · simp [own]
    · rw [update_of_ne same]
      rfl

/-- The instances with times have the crons of the maps, after every run. -/
theorem crons_iff_registry {isLeader : ι → Bool} {events : List (Event ι)}
    (done : (system cronTime isLeader).run events = some s) (ctx : CronContext) :
    ((s i).crons ctx).isSome = ((events.filterMap (callOf i)).foldl (apply cronTime) empty).has ctx := by
  have each : ∀ before : ι → Manager, (system cronTime isLeader).runFrom before events = some s →
      ((s i).crons ctx).isSome =
        (events.filterMap (callOf i)).foldl (registered cronTime ctx) ((before i).crons ctx).isSome := by
    clear done
    induction events with
    | nil =>
      intro before done
      cases done
      rfl
    | cons e events ih =>
      intro before done
      obtain ⟨mid, taken, rest⟩ := Option.bind_eq_some_iff.mp done
      rw [ih mid rest, crons_step taken]
      cases called : callOf i e <;> simp [called]
  exact (each (initial isLeader) done).trans ((tidy_calls tidy_empty _).2 ctx).symm

end Timed

end Registry

end N8n.ScheduledTaskManager
