import N8n.Suspended
import N8n.TransitionSystem
import N8n.Webhook

/-! The webhook service over its two stores, the cache and the table of webhooks, both
atomic maps. A call of `findWebhook`, `storeWebhook` or `deleteWorkflowWebhooks` stands
at one of its awaits; what it awaits takes effect, and the call goes on from there, when
the scheduler picks it. The two cache operations that are not awaited are suspended in
the same list and may take effect at any later time. Cached values may expire.

Calls are numbered in the order in which they begin. The numbers and the three records
`stores`, `deletions` and `answers` are a history that no call reads. -/

namespace N8n.Webhooks

inductive Await
  /-- `findCached`, at `cacheService.get` -/
  | cacheGet (method : Method) (path : String)
  /-- `findStaticWebhook`, at `findOneBy` -/
  | findOneBy (method : Method) (path : String)
  /-- `findDynamicWebhook`, at `findBy` -/
  | findBy (method : Method) (path : String)
  /-- `storeWebhook`, at `cacheService.set` -/
  | cacheSet (webhook : WebhookEntity)
  /-- `storeWebhook`, at `upsert` -/
  | upsert (webhook : WebhookEntity)
  /-- `deleteWorkflowWebhooks`, at `findBy` -/
  | findRows (workflowId : String)
  /-- `deleteWebhooks`, at `remove` -/
  | remove (workflowId : String) (webhooks : List WebhookEntity)
  /-- the `set` that `findCached` does not wait for -/
  | fill (key : String) (webhook : WebhookEntity)
  /-- the `deleteMany` that `deleteWebhooks` does not wait for -/
  | forget (keys : List String)
  deriving DecidableEq

/-- `oldest` is the lowest number of a call that was under way when this one began. -/
structure Pending where
  op : ℕ
  oldest : ℕ
  await : Await
  deriving DecidableEq

/-- A deletion that is over. Calls with a number below `ended` began before its end. -/
structure Deletion where
  op : ℕ
  workflowId : String
  ended : ℕ
  deriving DecidableEq

structure Answer where
  op : ℕ
  oldest : ℕ
  webhook : Option WebhookEntity
  deriving DecidableEq

structure Service where
  cache : OrderedMap String WebhookEntity
  rows : OrderedMap (Method × String) WebhookEntity
  pending : List Pending
  nextOp : ℕ
  stores : List (ℕ × WebhookEntity)
  deletions : List Deletion
  answers : List Answer
  deriving DecidableEq

inductive Event
  | findWebhook (method : Method) (path : String)
  | storeWebhook (data : WebhookData)
  | deleteWorkflowWebhooks (workflowId : String)
  | resume (index : ℕ)
  | expire (key : String)
  deriving DecidableEq

namespace Service

def start : Service where
  cache := .empty
  rows := .empty
  pending := []
  nextOp := 0
  stores := []
  deletions := []
  answers := []

/-! ## The lookup, read by read -/

def findStaticWebhook (s : Service) (method : Method) (path : String) : Option WebhookEntity :=
  s.rows.get (method, path)

/-- `findWebhook` when nothing happens in between. -/
def findWebhook (s : Service) (method : Method) (path : String) : Option WebhookEntity :=
  match s.cache.get (requestKey method path) with
  | some cached => some cached
  | none =>
    match s.findStaticWebhook method path with
    | some stored => some stored
    | none => findDynamicWebhook s.rows.values path (some method)

/-! ## Calls -/

def oldest (s : Service) : ℕ := (s.pending.map (·.op)).foldr min s.nextOp

def begin (s : Service) (await : Await) : Service :=
  { s with pending := s.pending ++ [⟨s.nextOp, s.oldest, await⟩], nextOp := s.nextOp + 1 }

def await (s : Service) (call : Pending) (await : Await) : Service :=
  { s with pending := s.pending ++ [{ call with await := await }] }

def answer (s : Service) (call : Pending) (webhook : Option WebhookEntity) : Service :=
  { s with answers := ⟨call.op, call.oldest, webhook⟩ :: s.answers }

def rowsOf (s : Service) (workflowId : String) : List WebhookEntity :=
  s.rows.values.filter (·.workflowId = workflowId)

/-- What a call awaits takes effect and the call goes on. -/
def proceed (s : Service) (call : Pending) : Service :=
  match call.await with
  | .cacheGet method path =>
    match s.cache.get (requestKey method path) with
    | some cached => s.answer call (some cached)
    | none => s.await call (.findOneBy method path)
  | .findOneBy method path =>
    match s.findStaticWebhook method path with
    | some stored => (s.await call (.fill (requestKey method path) stored)).answer call (some stored)
    | none => s.await call (.findBy method path)
  | .findBy method path => s.answer call (findDynamicWebhook s.rows.values path (some method))
  | .cacheSet webhook =>
    { s with cache := s.cache.set webhook.cacheKey webhook }.await call (.upsert webhook)
  | .upsert webhook => { s with rows := s.rows.set webhook.id webhook }
  | .findRows workflowId =>
    (s.await call (.forget ((s.rowsOf workflowId).map (·.cacheKey)))).await call
      (.remove workflowId (s.rowsOf workflowId))
  | .remove workflowId webhooks =>
    { s with
      rows := s.rows.deleteMany (webhooks.map (·.id))
      deletions := ⟨call.op, workflowId, s.nextOp⟩ :: s.deletions }
  | .fill key webhook => { s with cache := s.cache.set key webhook }
  | .forget keys => { s with cache := s.cache.deleteMany keys }

def resumed (s : Service) (i : ℕ) : Service := { s with pending := s.pending.eraseIdx i }

def step (s : Service) : Event → Option Service
  | .findWebhook method path => some (s.begin (.cacheGet method path))
  | .storeWebhook data =>
    some ({ s with stores := (s.nextOp, createWebhook data) :: s.stores }.begin (.cacheSet (createWebhook data)))
  | .deleteWorkflowWebhooks workflowId => some (s.begin (.findRows workflowId))
  | .resume i => (s.pending[i]?).map (s.resumed i).proceed
  | .expire key => some { s with cache := s.cache.delete key }

/-! ## What every state satisfies -/

def Registered (webhook : WebhookEntity) : Prop := ∃ data, createWebhook data = webhook

/-- A webhook is cached under its own key or under the request path that found its row. -/
def Keyed (key : String) (webhook : WebhookEntity) : Prop :=
  key = webhook.cacheKey ∨ key = requestKey webhook.method webhook.webhookPath

def WellKept : Await → Prop
  | .cacheSet webhook => Registered webhook
  | .upsert webhook => Registered webhook
  | .fill key webhook => Keyed key webhook ∧ Registered webhook
  | _ => True

structure Keeping (cache : OrderedMap String WebhookEntity)
    (rows : OrderedMap (Method × String) WebhookEntity) (pending : List Pending) : Prop where
  cache : ∀ key webhook, cache.get key = some webhook → Keyed key webhook ∧ Registered webhook
  rows : ∀ key webhook, rows.get key = some webhook → webhook.id = key ∧ Registered webhook
  pending : ∀ call ∈ pending, WellKept call.await

def Wf (s : Service) : Prop := Keeping s.cache s.rows s.pending

section Keeping

variable {cache : OrderedMap String WebhookEntity} {rows : OrderedMap (Method × String) WebhookEntity}
  {pending : List Pending} {webhook : WebhookEntity}

section

variable (h : Keeping cache rows pending)
include h

theorem Keeping.suspend (call : Pending) (kept : WellKept call.await) : Keeping cache rows (pending ++ [call]) := by
  refine { h with pending := fun other member => ?_ }
  rcases List.mem_append.mp member with old | new
  · exact h.pending other old
  · rw [List.mem_singleton.mp new]
    exact kept

theorem Keeping.resumed (i : ℕ) : Keeping cache rows (pending.eraseIdx i) :=
  { h with pending := fun call member => h.pending call (List.mem_of_mem_eraseIdx member) }

theorem Keeping.setCache {key : String} (keyed : Keyed key webhook)
    (registered : Registered webhook) : Keeping (cache.set key webhook) rows pending := by
  refine { h with cache := fun other stored found => ?_ }
  rw [OrderedMap.get_set] at found
  split at found
  · rename_i same
    cases found
    exact ⟨same ▸ keyed, registered⟩
  · exact h.cache other stored found

theorem Keeping.setRow (registered : Registered webhook) : Keeping cache (rows.set webhook.id webhook) pending := by
  refine { h with rows := fun other stored found => ?_ }
  rw [OrderedMap.get_set] at found
  split at found
  · rename_i same
    cases found
    exact ⟨same.symm, registered⟩
  · exact h.rows other stored found

end

end Keeping

section Wf

variable {s s' : Service} {e : Event}

theorem Wf.proceed (h : s.Wf) {call : Pending} (kept : WellKept call.await) : (s.proceed call).Wf := by
  unfold Service.proceed
  split
  case h_1 =>
    split
    · exact h
    · exact h.suspend _ trivial
  case h_2 method path _ =>
    split
    · rename_i stored found
      obtain ⟨same, registered⟩ := h.rows _ _ found
      obtain ⟨rfl, rfl⟩ := Prod.mk.inj same
      exact h.suspend _ ⟨.inr rfl, registered⟩
    · exact h.suspend _ trivial
  case h_3 => exact h
  case h_4 webhook same =>
    rw [same] at kept
    exact (h.setCache (.inl rfl) kept).suspend _ kept
  case h_5 webhook same =>
    rw [same] at kept
    exact h.setRow kept
  case h_6 workflowId _ =>
    have forgets := h.suspend { call with await := .forget ((s.rowsOf workflowId).map (·.cacheKey)) } trivial
    exact forgets.suspend _ trivial
  case h_7 =>
    exact { h with rows := fun key webhook found => h.rows key webhook (s.rows.get_deleteMany_some found).2 }
  case h_8 key webhook same =>
    rw [same] at kept
    exact h.setCache kept.1 kept.2
  case h_9 =>
    exact { h with
      cache := fun key webhook found => h.cache key webhook (s.cache.get_deleteMany_some found).2 }

theorem wf_start : Service.start.Wf :=
  ⟨by simp [start], by simp [start], by simp [start]⟩

theorem step_wf (h : s.Wf) (taken : s.step e = some s') : s'.Wf := by
  cases e with
  | findWebhook method path =>
    cases taken
    exact h.suspend _ trivial
  | storeWebhook data =>
    cases taken
    exact h.suspend _ ⟨data, rfl⟩
  | deleteWorkflowWebhooks workflowId =>
    cases taken
    exact h.suspend _ trivial
  | resume i =>
    obtain ⟨call, there, rfl⟩ := Option.map_eq_some_iff.mp taken
    exact Wf.proceed (s := s.resumed i) (h.resumed i) (h.pending call (List.mem_of_getElem? there))
  | expire key =>
    cases taken
    exact { h with
      cache := fun other webhook found => h.cache other webhook (s.cache.get_delete_some found) }

end Wf

end Service

def service : TransitionSystem Service Event := ⟨.start, Service.step⟩

theorem Service.wf_of_reachable {s : Service} (h : service.Reachable s) : s.Wf :=
  h.invariant Service.wf_start fun _ _ _ => Service.step_wf

end N8n.Webhooks
