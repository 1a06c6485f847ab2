import N8n.WebhookRouting

/-! The methods that a path is said to be registered for, and those of the requests for it that
find a webhook. The first come from one lookup, of the stored paths or of the best dynamic webhook
of any method, and the second from a lookup for each method. -/

namespace N8n.Webhooks

open List Option

/-- The dynamic webhook is one for the path, as far as the search can tell. -/
def WebhookEntity.Matches (webhook : WebhookEntity) (path : String) : Prop :=
  ∃ id rest, segments path = id :: rest ∧ webhook.webhookId = some id ∧ webhook.pathLength = some rest.length ∧
    allStaticSegmentsMatch rest webhook
variable {method : Option Method} {path : String} {rows : List WebhookEntity}

theorem findDynamicWebhook_matches
    {webhook : WebhookEntity} (found : findDynamicWebhook rows path method = some webhook) :
    webhook ∈ rows ∧ webhook.Matches path ∧ ∀ m ∈ method, webhook.method = m := by
  obtain ⟨id, rest, split⟩ := exists_cons_of_ne_nil (segments_ne_nil path)
  have scanned := scan_spec rest (dynamicWebhooks rows id rest method)
  simp only [findDynamicWebhook, split] at found
  simp only [ScanOf, found] at scanned
  obtain ⟨-, i, first⟩ := scanned
  have listed := mem_of_getElem? first.there
  simp only [dynamicWebhooks, mem_filter, decide_eq_true_eq] at listed
  obtain ⟨stored, known, same, long⟩ := listed
  exact ⟨stored, ⟨id, rest, split, known, long, first.able⟩, same⟩

theorem findDynamicWebhook_isSome :
    (findDynamicWebhook rows path method).isSome ↔
      ∃ webhook ∈ rows, webhook.Matches path ∧ ∀ m ∈ method, webhook.method = m := by
  constructor
  · intro some
    obtain ⟨webhook, found⟩ := isSome_iff_exists.mp some
    exact ⟨webhook, findDynamicWebhook_matches found⟩
  · rintro ⟨webhook, stored, ⟨id, rest, split, known, long, covers⟩, same⟩
    have scanned := scan_spec rest (dynamicWebhooks rows id rest method)
    by_contra missing
    have nothing := not_isSome_iff_eq_none.mp missing
    simp only [findDynamicWebhook, split] at nothing
    simp only [ScanOf, nothing] at scanned
    refine scanned.2 webhook ?_ covers
    simp only [dynamicWebhooks, mem_filter, decide_eq_true_eq]
    exact ⟨stored, known, same, long⟩

namespace Service

variable {s : Service} {method other : Method} {path : String}

/-- The webhooks stored under the path itself come first. -/
def getWebhookMethods (s : Service) (rawPath : String) : List Method :=
  let staticMethods := (s.rows.values.filter (·.webhookPath = rawPath)).map (·.method)
  if 0 < staticMethods.length then staticMethods
  else
    match findDynamicWebhook s.rows.values rawPath none with
    | some dynamicWebhook => [dynamicWebhook.method]
    | none => []

def TellsMethods (s : Service) (path : String) : Prop :=
  ∀ method, method ∈ s.getWebhookMethods path ↔ (s.findWebhook method path).isSome

/-! ## Where a webhook is found -/

def StoredAt (s : Service) (path : String) (method : Method) : Prop :=
  ∃ webhook ∈ s.rows.values, webhook.webhookPath = path ∧ webhook.method = method

def CachedAt (s : Service) (path : String) (method : Method) : Prop :=
  (s.cache.get (requestKey method path)).isSome

def MatchedAt (s : Service) (path : String) (method : Method) : Prop :=
  ∃ webhook ∈ s.rows.values, webhook.Matches path ∧ webhook.method = method

theorem findStaticWebhook_isSome (wf : s.Wf) : (s.findStaticWebhook method path).isSome ↔ s.StoredAt path method := by
  constructor
  · intro some
    obtain ⟨webhook, found⟩ := isSome_iff_exists.mp some
    obtain ⟨rfl, rfl⟩ := Prod.mk.inj (wf.rows _ _ found).1
    exact ⟨webhook, s.rows.mem_values_iff.mpr ⟨_, found⟩, rfl, rfl⟩
  · rintro ⟨webhook, stored, rfl, rfl⟩
    obtain ⟨key, found⟩ := s.rows.mem_values_iff.mp stored
    rw [← (wf.rows key webhook found).1] at found
    exact isSome_iff_exists.mpr ⟨webhook, found⟩

theorem findWebhook_isSome (wf : s.Wf) : (s.findWebhook method path).isSome ↔
    s.CachedAt path method ∨ s.StoredAt path method ∨ s.MatchedAt path method := by
  rw [← findStaticWebhook_isSome wf, CachedAt, findWebhook]
  cases s.cache.get (requestKey method path) with
  | some cached => simp
  | none =>
    cases s.findStaticWebhook method path with
    | some stored => simp
    | none =>
      rw [findDynamicWebhook_isSome]
      simp [MatchedAt]

theorem mem_getWebhookMethods_of_stored (stored : s.StoredAt path other) :
    method ∈ s.getWebhookMethods path ↔ s.StoredAt path method := by
  obtain ⟨webhook, listed, at_path, -⟩ := stored
  have filled : 0 < ((s.rows.values.filter (·.webhookPath = path)).map (·.method)).length := by
    refine length_pos_of_mem (List.mem_map.mpr ⟨webhook, ?_, rfl⟩)
    exact mem_filter.mpr ⟨listed, by simpa using at_path⟩
  rw [getWebhookMethods, if_pos filled]
  simp [StoredAt, and_assoc]

theorem mem_getWebhookMethods_of_not_stored (unstored : ∀ other, ¬s.StoredAt path other) :
    method ∈ s.getWebhookMethods path ↔
      ∃ webhook, findDynamicWebhook s.rows.values path none = some webhook ∧ webhook.method = method := by
  have empty : (s.rows.values.filter (·.webhookPath = path)).map (·.method) = [] := by
    rw [map_eq_nil_iff, filter_eq_nil_iff]
    intro webhook listed at_path
    exact unstored webhook.method ⟨webhook, listed, by simpa using at_path, rfl⟩
  rw [getWebhookMethods, empty, if_neg (by simp)]
  cases findDynamicWebhook s.rows.values path none with
  | some webhook => simp [eq_comm]
  | none => simp

/-- Where webhooks are stored under the path, no other method is served by the cache or by a
dynamic webhook. Where none is, the dynamic webhooks for it have one method, and only that is
cached. -/
structure OneLookup (s : Service) (path : String) : Prop where
  stored : ∀ other, s.StoredAt path other → ∀ method, s.CachedAt path method ∨ s.MatchedAt path method →
    s.StoredAt path method
  cached : (∀ other, ¬s.StoredAt path other) → ∀ method, s.CachedAt path method → s.MatchedAt path method
  single : (∀ other, ¬s.StoredAt path other) → ∀ method other, s.MatchedAt path method → s.MatchedAt path other →
    method = other

theorem TellsMethods.oneLookup (wf : s.Wf) (tells : s.TellsMethods path) : s.OneLookup path := by
  have told : ∀ method, s.CachedAt path method ∨ s.StoredAt path method ∨ s.MatchedAt path method →
      method ∈ s.getWebhookMethods path := fun method found => (tells method).mpr ((findWebhook_isSome wf).mpr found)
  refine ⟨fun other stored method found => ?_, fun unstored method cached => ?_, fun unstored method other one two => ?_⟩
  · exact (mem_getWebhookMethods_of_stored stored).mp (told method (found.imp_right .inr))
  · obtain ⟨webhook, found, rfl⟩ := (mem_getWebhookMethods_of_not_stored unstored).mp (told method (.inl cached))
    obtain ⟨listed, fits, -⟩ := findDynamicWebhook_matches found
    exact ⟨webhook, listed, fits, rfl⟩
  · obtain ⟨webhook, found, rfl⟩ := (mem_getWebhookMethods_of_not_stored unstored).mp (told method (.inr (.inr one)))
    obtain ⟨again, found', rfl⟩ := (mem_getWebhookMethods_of_not_stored unstored).mp (told other (.inr (.inr two)))
    rw [some.inj (found.symm.trans found')]

theorem OneLookup.tellsMethods (wf : s.Wf) (one : s.OneLookup path) : s.TellsMethods path := by
  intro method
  rw [findWebhook_isSome wf]
  by_cases stored : ∃ other, s.StoredAt path other
  · obtain ⟨other, stored⟩ := stored
    rw [mem_getWebhookMethods_of_stored stored]
    constructor
    · exact fun here => .inr (.inl here)
    · rintro (cached | here | fits)
      · exact one.stored other stored method (.inl cached)
      · exact here
      · exact one.stored other stored method (.inr fits)
  · have unstored := not_exists.mp stored
    rw [mem_getWebhookMethods_of_not_stored unstored]
    constructor
    · rintro ⟨webhook, found, rfl⟩
      obtain ⟨listed, fits, -⟩ := findDynamicWebhook_matches found
      exact .inr (.inr ⟨webhook, listed, fits, rfl⟩)
    · intro served
      have matched : s.MatchedAt path method := by
        rcases served with cached | here | fits
        · exact one.cached unstored method cached
        · exact absurd here (unstored method)
        · exact fits
      obtain ⟨webhook, listed, fits, same⟩ := matched
      have some := findDynamicWebhook_isSome.mpr ⟨webhook, listed, fits, show ∀ m ∈ none, _ from nofun⟩
      obtain ⟨best, found⟩ := isSome_iff_exists.mp some
      obtain ⟨listed', fits', -⟩ := findDynamicWebhook_matches found
      exact ⟨best, found, one.single unstored _ _ ⟨best, listed', fits', rfl⟩ ⟨webhook, listed, fits, same⟩⟩

/-- In every state of the service and for every path, the methods that are returned are those of
the requests that find a webhook exactly when the two lookups see the same. -/
theorem tellsMethods_iff_oneLookup (h : service.Reachable s) (path : String) : s.TellsMethods path ↔ s.OneLookup path :=
  ⟨TellsMethods.oneLookup (wf_of_reachable h), OneLookup.tellsMethods (wf_of_reachable h)⟩

def userById (method : Method) : WebhookData := ⟨"workflow", ":id", "Webhook", method, some "uuid"⟩

def store (method : Method) : List Event := [.storeWebhook (userById method), .resume 0, .resume 0]

theorem tellsMethods_iff_oneLookup_userById : ∃ s, service.Reachable s ∧
    s.getWebhookMethods "uuid/7" = [.get] ∧ (s.TellsMethods "uuid/7" ↔ s.OneLookup "uuid/7") := by
  obtain ⟨s, reached, told⟩ := TransitionSystem.reachableVia_runChecked (fun _ _ => true)
    (fun _ _ _ => trivial) (.initial : service.Reachable Service.start) (store .get)
    (fun s => s.getWebhookMethods "uuid/7" = [.get]) (by decide +kernel)
  exact ⟨s, reached, of_decide_eq_true told, tellsMethods_iff_oneLookup reached _⟩

/-- A node with two methods and a parameter in its path is said to have the first one only. -/
theorem second_method_untold : ¬ ∀ s, service.Reachable s → ∀ path, s.TellsMethods path := by
  intro tells
  obtain ⟨s, reached, served⟩ := TransitionSystem.reachableVia_runChecked (fun _ _ => true)
    (fun _ _ _ => trivial) (.initial : service.Reachable Service.start) (store .get ++ store .post)
    (fun s => s.getWebhookMethods "uuid/7" = [.get] ∧ (s.findWebhook .post "uuid/7").isSome) (by decide +kernel)
  obtain ⟨told, found⟩ := of_decide_eq_true served
  have listed := (tells s reached "uuid/7" .post).mpr found
  rw [told, mem_singleton] at listed
  cases listed

end Service

end N8n.Webhooks
