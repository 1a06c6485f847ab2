import N8n.OrderedMap

/-! Test webhooks of a manual execution. They are registered one after the other; a webhook that ends the
listening early leaves those before it registered, and the clean-up of a failed one may fail itself. -/

namespace N8n.TestWebhooks

structure Webhook where
  node : String
  httpMethod : String
  path : String
  webhookId : String
  restartWebhook : Bool
  isTest : Bool := false
  userId : String := ""
  workflowId : String
  deriving DecidableEq

/-- `made` tells the registrations of the call from those that were there before it. -/
structure Registration where
  webhook : Webhook
  made : Bool
  deriving DecidableEq

inductive Thrown (E : Type) where
  | workflowMissingId
  | singleWebhookTrigger (node : String)
  | webhookPathTaken (node : String)
  | service (error : E)
  deriving DecidableEq

/-- What is called here. The cache may fail at every access; `settled` is the check that it holds what was set,
with the expiry. The static data of a workflow is part of the state. -/
structure Services (σ E : Type) where
  access : EStateM E σ Unit
  settled : EStateM E σ Unit
  createWebhookIfNotExists : Webhook → EStateM E σ Unit
  getBase : String → EStateM E σ Unit
  deleteWebhook : Webhook → EStateM E σ Unit

structure Options where
  userId : String
  workflowId : String
  nodeType : String → Option String
  runData : List String
  /-- The preferred trigger, and whether it has data. -/
  triggerToStartFrom : Option (String × Bool)
  chatSessionId : String
  workflowIsActive : Bool

structure State (σ : Type) where
  registrations : OrderedMap String Registration
  world : σ

def SINGLE_WEBHOOK_TRIGGERS : List String :=
  ["n8n-nodes-base.telegramTrigger", "n8n-nodes-base.slackTrigger", "n8n-nodes-base.facebookLeadAdsTrigger"]

def removeTrailingSlash (path : String) : String :=
  if path.toList.getLast? = some '/' then String.ofList path.toList.dropLast else path

/-- An empty id is falsy. -/
def toKey (webhook : Webhook) : String :=
  if webhook.webhookId = "" then webhook.httpMethod ++ "|" ++ webhook.path
  else
    let path := webhook.path.toList
    let path := if webhook.webhookId.toList.isPrefixOf path ∧ '/' ∈ path then (path.dropWhile (· ≠ '/')).tail else path
    webhook.httpMethod ++ "|" ++ webhook.webhookId ++ "|" ++ toString (path.count '/' + 1)

section Calls

variable {σ E : Type} (services : Services σ E) (options : Options)

/-- The path that a webhook is registered under. -/
def listenedTo (webhook : Webhook) : Webhook :=
  { webhook with
    path :=
      if options.chatSessionId ≠ "" ∧ webhook.node ≠ "" ∧
          options.nodeType webhook.node = some "@n8n/n8n-nodes-langchain.chatTrigger" then
        options.workflowId ++ "/" ++ options.chatSessionId
      else removeTrailingSlash webhook.path }

/-- As it is stored in its registration. -/
def cacheable (webhook : Webhook) : Webhook := { webhook with isTest := true, userId := options.userId }

def remove (webhook : Webhook) : EStateM E σ Unit := do
  if webhook.userId ≠ "" then services.getBase webhook.userId
  services.deleteWebhook webhook
  services.access

def deactivateAll : List Webhook → State σ → Except E Unit × State σ
  | [], s => (.ok (), s)
  | webhook :: rest, s =>
    match remove services webhook s.world with
    | .error error world => (.error error, { s with world })
    | .ok _ world => deactivateAll rest ⟨s.registrations.delete (toKey webhook), world⟩

def registered (s : State σ) : List Webhook :=
  (s.registrations.values.map Registration.webhook).filter (·.workflowId = options.workflowId)

def deactivateWebhooks (s : State σ) : Except E Unit × State σ :=
  match services.access s.world with
  | .error error world => (.error error, { s with world })
  | .ok _ world => deactivateAll services (registered options s) { s with world }

/-- The registration and the creation of a webhook, with its second registration. -/
def register (webhook : Webhook) (s : State σ) : Except E Unit × State σ :=
  let stored := s.registrations.set (toKey webhook) ⟨cacheable options webhook, true⟩
  match services.access s.world with
  | .error error world => (.error error, { s with world })
  | .ok _ world =>
    match (do services.settled; services.createWebhookIfNotExists webhook; services.access; services.settled) world with
    | .error error world => (.error error, ⟨stored, world⟩)
    | .ok _ world => (.ok (), ⟨stored, world⟩)

/-- What becomes of a webhook of the list. -/
inductive Attended (σ E : Type) where
  | stopped (result : Except (Thrown E) Bool) (s : State σ)
  | failed (error : E) (s : State σ)
  | registered (s : State σ)

def attend (webhook : Webhook) (s : State σ) : Attended σ E :=
  match services.access s.world with
  | .error error world => .stopped (.error (.service error)) { s with world }
  | .ok _ world =>
    if webhook.node ∈ options.runData then .stopped (.ok false) { s with world }
    else if webhook.webhookId = "" ∧ (s.registrations.get (toKey webhook)).any fun r =>
        !r.webhook.isTest && r.webhook.userId ≠ options.userId && r.webhook.workflowId ≠ options.workflowId then
      .stopped (.error (.webhookPathTaken webhook.node)) { s with world }
    else
      match register services options webhook { s with world } with
      | (.error error, s) => .failed error s
      | (.ok _, s) => .registered s

def listen : List Webhook → State σ → Except (Thrown E) Bool × State σ
  | [], s => (.ok true, s)
  | webhook :: rest, s =>
    match attend services options webhook s with
    | .stopped result s => (result, s)
    | .failed error s =>
      match deactivateWebhooks services options s with
      | (.error error, s) => (.error (.service error), s)
      | (.ok _, s) => (.error (.service error), s)
    | .registered s => listen rest s

/-- The webhooks to listen for. -/
def preferred (webhooks : List Webhook) : List Webhook :=
  match options.triggerToStartFrom with
  | none => webhooks
  | some (name, _) => webhooks.filter (·.node = name)

/-- What is returned or thrown before the first webhook. -/
def settledBefore (webhooks : List Webhook) : Option (Except (Thrown E) Bool) :=
  if options.workflowId = "" then some (.error .workflowMissingId)
  else if options.triggerToStartFrom.any Prod.snd then some (.ok false)
  else if (preferred options webhooks).all Webhook.restartWebhook then some (.ok false)
  else if options.workflowIsActive then
    ((preferred options webhooks).find? fun webhook =>
      SINGLE_WEBHOOK_TRIGGERS.contains ((options.nodeType webhook.node).getD "")).map fun webhook =>
        .error (.singleWebhookTrigger webhook.node)
  else none

/-- `webhooks` are those of the workflow, which `getWorkflowWebhooks` gives. -/
def needsWebhook (webhooks : List Webhook) (s : State σ) : Except (Thrown E) Bool × State σ :=
  match settledBefore options webhooks with
  | some result => (result, s)
  | none => listen services options ((preferred options webhooks).map (listenedTo options)) s

/-- The keys that the clean-up deregisters: those in front of the first webhook that it cannot remove. -/
def deregistered : List Webhook → σ → List String
  | [], _ => []
  | webhook :: rest, world =>
    match remove services webhook world with
    | .error _ _ => []
    | .ok _ world => toKey webhook :: deregistered rest world

def cleanedUp (s : State σ) : List String :=
  match services.access s.world with
  | .error _ _ => []
  | .ok _ world => deregistered services (registered options s) world

def NoneMade (s : State σ) : Prop := ∀ key r, s.registrations.get key = some r → r.made = false

def AllOrNothing (webhooks : List Webhook) (outcome : Except (Thrown E) Bool × State σ) : Prop :=
  match outcome.1 with
  | .ok true => ∀ webhook ∈ webhooks,
      outcome.2.registrations.get (toKey webhook) = some ⟨cacheable options webhook, true⟩
  | _ => NoneMade outcome.2

/-- What comes to the webhooks, once these before them are registered, leaves nothing behind: only the first
ends the listening, a clean-up reaches whatever the call has made, and webhooks with one key are stored alike. -/
def Undone (before : List Webhook) : List Webhook → State σ → Prop
  | [], _ => ∀ a ∈ before, ∀ b ∈ before, toKey a = toKey b → cacheable options a = cacheable options b
  | webhook :: rest, s =>
    match attend services options webhook s with
    | .stopped _ _ => before = []
    | .failed _ s => ∀ key r, s.registrations.get key = some r → r.made = true → key ∈ cleanedUp services options s
    | .registered s => Undone (before ++ [webhook]) rest s

/-- What holds once these webhooks are registered. -/
structure Listening (before : List Webhook) (s : State σ) : Prop where
  none : before = [] → NoneMade s
  stored : ∀ webhook ∈ before, ∃ last ∈ before, toKey last = toKey webhook ∧
    s.registrations.get (toKey webhook) = some ⟨cacheable options last, true⟩

end Calls

section Results

variable {σ E : Type} {services : Services σ E} {options : Options} {webhooks before : List Webhook} {s t : State σ}

theorem settledBefore_ne {result : Except (Thrown E) Bool} (early : settledBefore options webhooks = some result) :
    result ≠ .ok true := by
  unfold settledBefore at early
  split_ifs at early
  · exact Option.some.inj early ▸ nofun
  · exact Option.some.inj early ▸ nofun
  · exact Option.some.inj early ▸ nofun
  · obtain ⟨_, _, rfl⟩ := Option.map_eq_some_iff.mp early
    exact nofun

theorem allOrNothing_of_ne {outcome : Except (Thrown E) Bool × State σ} (failed : outcome.1 ≠ .ok true) :
    AllOrNothing options webhooks outcome ↔ NoneMade outcome.2 := by
  unfold AllOrNothing
  split
  · rename_i done
    exact absurd done failed
  · exact Iff.rfl

variable (services options)

theorem deactivateWebhooks_registrations (s : State σ) : (deactivateWebhooks services options s).2.registrations =
    s.registrations.deleteMany (cleanedUp services options s) := by
  have each : ∀ (left : List Webhook) (s : State σ), (deactivateAll services left s).2.registrations =
      s.registrations.deleteMany (deregistered services left s.world) := by
    intro left
    induction left with
    | nil => exact fun _ => rfl
    | cons webhook left ih =>
      intro s
      rw [deactivateAll, deregistered]
      split
      · rfl
      · exact ih _
  unfold deactivateWebhooks cleanedUp
  split
  · rfl
  · exact each _ _

/-- What can become of a webhook. -/
theorem attend_spec (webhook : Webhook) (s : State σ) :
    (∃ result t, attend services options webhook s = .stopped result t ∧ result ≠ .ok true ∧
      t.registrations = s.registrations) ∨
    (∃ error t, attend services options webhook s = .failed error t) ∨
    ∃ t, attend services options webhook s = .registered t ∧
      t.registrations = s.registrations.set (toKey webhook) ⟨cacheable options webhook, true⟩ := by
  unfold attend
  split
  · exact .inl ⟨_, _, rfl, by simp, rfl⟩
  split_ifs
  · exact .inl ⟨_, _, rfl, by simp, rfl⟩
  · exact .inl ⟨_, _, rfl, by simp, rfl⟩
  unfold register
  dsimp only
  split
  · exact .inr (.inl ⟨_, _, rfl⟩)
  · rename_i done
    split at done
    · cases done
    · split at done
      · cases done
      · cases done
        exact .inr (.inr ⟨_, rfl, rfl⟩)

theorem cleanUp_noneMade_iff (s : State σ) : NoneMade (deactivateWebhooks services options s).2 ↔
    ∀ key r, s.registrations.get key = some r → r.made = true → key ∈ cleanedUp services options s := by
  rw [NoneMade, deactivateWebhooks_registrations]
  constructor
  · intro none key r found made
    by_contra missed
    have left := none key r
    rw [OrderedMap.get_deleteMany, if_neg missed] at left
    exact Bool.false_ne_true ((left found).symm.trans made)
  · intro reached key r found
    obtain ⟨missed, found⟩ := s.registrations.get_deleteMany_some found
    exact Bool.eq_false_iff.mpr fun made => missed (reached key r found made)

variable {services options}

theorem Listening.noneMade_iff (listening : Listening options before s) : NoneMade s ↔ before = [] := by
  refine ⟨fun none => ?_, listening.none⟩
  cases before with
  | nil => rfl
  | cons first before =>
    obtain ⟨_, _, _, found⟩ := listening.stored first List.mem_cons_self
    cases none _ _ found

theorem Listening.register (listening : Listening options before s) {webhook : Webhook}
    (set : t.registrations = s.registrations.set (toKey webhook) ⟨cacheable options webhook, true⟩) :
    Listening options (before ++ [webhook]) t := by
  refine ⟨by simp, fun other listed => ?_⟩
  rw [set, OrderedMap.get_set]
  split_ifs with same
  · exact ⟨webhook, by simp, same.symm, rfl⟩
  · obtain ⟨last, inside, key, found⟩ := listening.stored other
      ((List.mem_append.mp listed).resolve_right fun here => same (List.mem_singleton.mp here ▸ rfl))
    exact ⟨last, List.mem_append_left _ inside, key, found⟩

theorem listen_iff (webhooks : List Webhook) (listening : Listening options before s) :
    AllOrNothing options (before ++ webhooks) (listen services options webhooks s) ↔
      Undone services options before webhooks s := by
  induction webhooks generalizing before s with
  | nil =>
    rw [List.append_nil, listen, Undone]
    constructor
    · intro each a inA b inB same
      have taken := (each a inA).symm.trans (same ▸ each b inB)
      exact congrArg Registration.webhook (Option.some.inj taken)
    · intro alike webhook listed
      obtain ⟨last, inside, same, found⟩ := listening.stored webhook listed
      rw [alike webhook listed last inside same.symm]
      exact found
  | cons webhook rest ih =>
    rw [listen, Undone]
    obtain ⟨result, t, stopped, notAll, kept⟩ | ⟨error, t, failed⟩ | ⟨t, registered, set⟩ :=
      attend_spec services options webhook s
    · rw [stopped]
      refine (allOrNothing_of_ne notAll).trans (Iff.trans ?_ listening.noneMade_iff)
      rw [NoneMade, kept, NoneMade]
    · rw [failed]
      refine Iff.trans ?_ (cleanUp_noneMade_iff services options t)
      dsimp only
      split
      · rename_i cleaned
        rw [cleaned]
        exact allOrNothing_of_ne nofun
      · rename_i cleaned
        rw [cleaned]
        exact allOrNothing_of_ne nofun
    · rw [registered, List.append_cons]
      exact ih (listening.register set)

end Results

def quiet : Services Unit Unit := ⟨pure (), pure (), fun _ => pure (), fun _ => pure (), fun _ => pure ()⟩

def hook (node path : String) : Webhook := ⟨node, "GET", path, "", false, false, "", "w"⟩

end N8n.TestWebhooks
