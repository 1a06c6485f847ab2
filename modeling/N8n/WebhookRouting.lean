import Mathlib.Data.List.Forall2
import N8n.FirstBest
import N8n.WebhookService

/-! How requests are routed to dynamic webhooks. The service compares the static segments
of a webhook with the set of segments of the request; routing by position would compare
them one by one, as the extraction of the path parameters does. -/

namespace N8n.Webhooks

open List Option

/-! ## Paths -/

section Paths

variable {path : String} {l : List Char}

theorem segments_join (a b : String) : segments (a ++ "/" ++ b) = segments a ++ segments b := by
  have slash : "/".toList = ['/'] := rfl
  simp only [segments, String.toList_append, slash, append_assoc, singleton_append,
    splitOn_append_cons_self, map_append]

theorem segments_ne_nil (path : String) : segments path ≠ [] := by
  simp [segments, splitOn_ne_nil]

theorem mem_of_mem_splitOn {segment : List Char} {c : Char} (member : segment ∈ l.splitOn '/')
    (inside : c ∈ segment) : c ∈ l := by
  induction l generalizing segment with
  | nil =>
    rw [splitOn_nil, mem_singleton] at member
    simp [member] at inside
  | cons x xs ih =>
    rw [splitOn_cons_eq_if_modifyHead] at member
    split at member
    · rcases mem_cons.mp member with empty | later
      · simp [empty] at inside
      · exact mem_cons_of_mem x (ih later inside)
    · obtain ⟨head, others, same⟩ := exists_cons_of_ne_nil (splitOn_ne_nil '/' xs)
      rw [same, modifyHead_cons] at member
      rcases mem_cons.mp member with rfl | later
      · rcases mem_cons.mp inside with rfl | rest
        · exact mem_cons_self
        · exact mem_cons_of_mem x (ih (same ▸ mem_cons_self) rest)
      · exact mem_cons_of_mem x (ih (same ▸ mem_cons_of_mem _ later) inside)

/-- A colon stands at the start or after a slash. -/
def ParamStart (l : List Char) : Prop :=
  (∃ rest, l = ':' :: rest) ∨ ∃ before rest, l = before ++ '/' :: ':' :: rest

theorem ParamStart.of_hasParams (h : hasParams path) : ParamStart path.toList := by
  simp only [hasParams, isParam, Bool.or_eq_true, decide_eq_true_eq] at h
  rcases h with first | inner
  · exact .inl ⟨_, eq_cons_of_mem_head? first⟩
  · obtain ⟨before, rest, same⟩ := inner
    exact .inr ⟨before, rest, by simp [← same]⟩

theorem ParamStart.tail (h : ParamStart l) (slash : l.head? = some '/') : ParamStart l.tail := by
  rcases h with ⟨rest, rfl⟩ | ⟨before, rest, rfl⟩
  · simp at slash
  · cases before with
    | nil => exact .inl ⟨rest, rfl⟩
    | cons c before => exact .inr ⟨before, rest, rfl⟩

theorem ParamStart.dropLast (h : ParamStart l) (slash : l.getLast? = some '/') : ParamStart l.dropLast := by
  rcases h with ⟨rest, rfl⟩ | ⟨before, rest, rfl⟩
  · cases rest with
    | nil => simp at slash
    | cons c rest => exact .inl ⟨(c :: rest).dropLast, rfl⟩
  · cases rest with
    | nil => simp at slash
    | cons c rest =>
      refine .inr ⟨before, (c :: rest).dropLast, ?_⟩
      rw [dropLast_append_of_ne_nil (by simp)]
      rfl

theorem ParamStart.segment (h : ParamStart l) : ∃ segment ∈ l.splitOn '/', segment.head? = some ':' := by
  have first : ∀ rest : List Char, ∃ segment ∈ (':' :: rest).splitOn '/', segment.head? = some ':' := by
    intro rest
    rw [splitOn_cons_eq_if_modifyHead, if_neg (by decide)]
    obtain ⟨head, others, same⟩ := exists_cons_of_ne_nil (splitOn_ne_nil '/' rest)
    rw [same]
    exact ⟨':' :: head, by simp, rfl⟩
  rcases h with ⟨rest, rfl⟩ | ⟨before, rest, rfl⟩
  · exact first rest
  · obtain ⟨segment, member, colon⟩ := first rest
    rw [splitOn_append_cons_self]
    exact ⟨segment, mem_append_right _ member, colon⟩

theorem ParamStart.any_isParam (h : ParamStart path.toList) : (segments path).any isParam := by
  obtain ⟨segment, member, colon⟩ := h.segment
  refine List.any_eq_true.mpr ⟨String.ofList segment, List.mem_map.mpr ⟨segment, member, rfl⟩, ?_⟩
  simpa [isParam] using colon

theorem ParamStart.trim (h : ParamStart path.toList) :
    ParamStart (trimTrailingSlash (trimLeadingSlash path)).toList := by
  have led : ParamStart (trimLeadingSlash path).toList := by
    unfold trimLeadingSlash
    split
    · rename_i slash
      simpa using h.tail slash
    · exact h
  unfold trimTrailingSlash
  split
  · rename_i slash
    simpa using led.dropLast slash
  · exact led

end Paths

theorem requestKey_injective {m m' : Method} {path path' : String}
    (same : requestKey m path = requestKey m' path') : m = m' ∧ path = path' := by
  have chars := congrArg String.toList same
  simp only [requestKey, String.toList_append, append_assoc] at chars
  have rest := append_cancel_left chars
  cases m <;> cases m' <;> simp [Method.text, String.toList_inj] at rest ⊢ <;> exact rest

section Registered

variable {webhook : WebhookEntity}

theorem pathLength_of_registered (h : Service.Registered webhook) :
    webhook.pathLength = webhook.webhookId.map fun _ => (segments webhook.webhookPath).length := by
  obtain ⟨data, rfl⟩ := h
  rfl

theorem isDynamic_of_registered (h : Service.Registered webhook) {id : String}
    (known : webhook.webhookId = some id) : webhook.isDynamic := by
  obtain ⟨data, rfl⟩ := h
  have params : hasParams data.path := by
    by_contra static
    simp [createWebhook, static] at known
  exact (ParamStart.of_hasParams params).trim.any_isParam

theorem segments_uniquePath (dynamic : webhook.isDynamic) : segments webhook.uniquePath =
      segments (webhook.webhookId.getD "") ++ segments webhook.webhookPath := by
  have colon : ':' ∈ webhook.webhookPath.toList := by
    obtain ⟨segment, member, param⟩ := List.any_eq_true.mp dynamic
    obtain ⟨chars, inside, rfl⟩ := List.mem_map.mp member
    simp only [isParam, String.toList_ofList, decide_eq_true_eq] at param
    exact mem_of_mem_splitOn inside (mem_of_mem_head? param)
  rw [WebhookEntity.uniquePath, if_pos colon, segments_join]

end Registered

/-! ## By position -/

def Fits (pattern segment : String) : Prop := isParam pattern ∨ pattern = segment

instance : DecidableRel Fits := fun pattern segment =>
  inferInstanceAs (Decidable (isParam pattern ∨ pattern = segment))

def WebhookEntity.Routes (webhook : WebhookEntity) (path : String) : Prop :=
  ∃ id rest, webhook.webhookId = some id ∧ segments path = id :: rest ∧
    Forall₂ Fits (segments webhook.webhookPath) rest

/-- Each parameter is bound to the segment at its position; of two parameters with one
name the later one counts. -/
def bindParams : List String → List String → OrderedMap String (Option String) → OrderedMap String (Option String)
  | pattern :: patterns, segment :: rest, params => bindParams patterns rest
      (if isParam pattern then params.set (String.ofList pattern.toList.tail) (some segment)
        else params)
  | _, _, params => params

section Fits

variable {patterns rest : List String}

theorem allStatic_of_fits (fits : Forall₂ Fits patterns rest) :
    (patterns.filter fun segment => !isParam segment).all (· ∈ rest) := by
  induction fits with
  | nil => rfl
  | @cons pattern segment patterns rest fit _ ih =>
    rw [List.all_eq_true] at ih ⊢
    intro static member
    rcases mem_filter.mp member with ⟨inside, fixed⟩
    rcases mem_cons.mp inside with rfl | later
    · have same := fit.resolve_left (by simpa using fixed)
      simp [same]
    · have found := ih static (mem_filter.mpr ⟨later, fixed⟩)
      simp only [decide_eq_true_eq] at found ⊢
      exact mem_cons_of_mem _ found

theorem static_le_of_fits (fits : Forall₂ Fits patterns rest) :
    (patterns.filter fun segment => !isParam segment).length ≤
      (rest.filter fun segment => !isParam segment).length := by
  induction fits with
  | nil => exact Nat.le_refl _
  | @cons pattern segment patterns rest fit _ ih =>
    by_cases param : isParam pattern
    · rw [filter_cons_of_neg (by simpa using param)]
      exact Nat.le_trans ih (Sublist.length_le (Sublist.filter _ (sublist_cons_self _ _)))
    · have same := fit.resolve_left param
      rw [filter_cons_of_pos (by simpa using param), filter_cons_of_pos (by simpa [← same] using param)]
      exact Nat.succ_le_succ ih

theorem fits_refl (patterns : List String) : Forall₂ Fits patterns patterns := by
  induction patterns with
  | nil => exact .nil
  | cons pattern patterns ih => exact .cons (.inr rfl) ih

theorem writeParams_eq (elements extra : List String) (k : ℕ)
    (params : OrderedMap String (Option String)) (long : patterns.length = rest.length)
    (from_k : elements.drop k = rest ++ extra) :
    (patterns.zipIdx k).foldl (writeParam elements) params = bindParams patterns rest params := by
  induction patterns generalizing rest k params with
  | nil => rfl
  | cons pattern patterns ih =>
    cases rest with
    | nil => cases long
    | cons segment rest =>
      have here : elements[k]? = some segment := by
        rw [← head?_drop, from_k]
        rfl
      have next : elements.drop (k + 1) = rest ++ extra := by
        rw [← tail_drop, from_k]
        rfl
      rw [zipIdx_cons, foldl_cons, bindParams, ih _ _ (Nat.succ.inj long) next]
      simp only [writeParam, here]

theorem segments_trimTrailingSlash (path : String) :
    ∃ extra, segments path = segments (trimTrailingSlash path) ++ extra := by
  unfold trimTrailingSlash
  split
  · rename_i slash
    refine ⟨[""], ?_⟩
    obtain ⟨before, same⟩ : ∃ before, path.toList = before ++ ['/'] :=
      ⟨_, (dropLast_append_getLast? _ slash).symm⟩
    simp [segments, same, splitOn_append_cons_self]
  · exact ⟨[], (append_nil _).symm⟩

end Fits

theorem requestParams_of_routes {webhook : WebhookEntity} {path requested : String}
    (routes : webhook.Routes path) (same : trimTrailingSlash requested = path) :
    requestParams webhook requested = bindParams (segments webhook.webhookPath) (segments path).tail .empty := by
  obtain ⟨id, rest, _, split, fits⟩ := routes
  obtain ⟨extra, whole⟩ := segments_trimTrailingSlash requested
  rw [same, split] at whole
  rw [requestParams, whole, split]
  exact writeParams_eq (rest ++ extra) extra 0 .empty fits.length_eq rfl

/-! ## The scan -/

section Scan

variable {rest : List String} {l : List WebhookEntity} {acc : Scan}

def staticCount (webhook : WebhookEntity) : ℕ := webhook.staticSegments.length

/-- What the scan knows after `l`: the first of the best, or that nothing matches. -/
def ScanOf (rest : List String) (l : List WebhookEntity) (acc : Scan) : Prop :=
  match acc.webhook with
  | none => acc.maxMatches = 0 ∧ ∀ webhook ∈ l, ¬ allStaticSegmentsMatch rest webhook
  | some best => acc.maxMatches = staticCount best ∧
    ∃ i, FirstBest (fun webhook => allStaticSegmentsMatch rest webhook) staticCount l i best

theorem allStatic_of_count_zero {webhook : WebhookEntity} (zero : webhook.staticSegments.length = 0) :
    allStaticSegmentsMatch rest webhook := by
  simp [allStaticSegmentsMatch, length_eq_zero_iff.mp zero]

theorem scanStep_spec (h : ScanOf rest l acc) (webhook : WebhookEntity) :
    ScanOf rest (l ++ [webhook]) (scanStep rest acc webhook) := by
  obtain ⟨found, maxMatches⟩ := acc
  unfold scanStep
  cases found with
  | none =>
    obtain ⟨rfl, unmatched⟩ := h
    have best : allStaticSegmentsMatch rest webhook →
        FirstBest (fun webhook => allStaticSegmentsMatch rest webhook) staticCount (l ++ [webhook])
          l.length webhook := fun covers =>
      .replace covers fun j other there able => absurd able (unmatched other (mem_of_getElem? there))
    split
    · rename_i more
      exact ⟨rfl, _, best more.1⟩
    · rename_i fewer
      split
      · rename_i empty
        exact ⟨empty.1.symm, _, best (allStatic_of_count_zero empty.1)⟩
      · rename_i some
        refine ⟨rfl, fun other member => ?_⟩
        rcases mem_append.mp member with old | new
        · exact unmatched other old
        · rw [mem_singleton.mp new]
          intro covers
          simp only [covers, true_and, and_true] at fewer some
          omega
  | some best =>
    obtain ⟨counted, i, first⟩ := h
    split
    · rename_i more
      refine ⟨rfl, l.length, .replace more.1 fun j other there able => ?_⟩
      exact Nat.lt_of_le_of_lt (first.most j other there able) (counted ▸ more.2)
    · rename_i fewer
      rw [if_neg (by simp)]
      refine ⟨counted, i, first.keep fun covers => ?_⟩
      simp only [covers, true_and] at fewer
      rw [← counted]
      exact Nat.le_of_not_lt fewer

theorem scan_spec (rest : List String) (l : List WebhookEntity) :
    ScanOf rest l (l.foldl (scanStep rest) ⟨none, 0⟩) := by
  induction l using List.reverseRecOn with
  | nil => exact ⟨rfl, by simp⟩
  | append_singleton l webhook ih =>
    rw [foldl_append]
    exact scanStep_spec ih webhook

end Scan

namespace Service

variable {s : Service} {method : Method} {path id : String} {rest : List String} {webhook : WebhookEntity}

def candidates (s : Service) (method : Method) (id : String) (rest : List String) :
    List WebhookEntity := dynamicWebhooks s.rows.values id rest (some method)

theorem mem_candidates : webhook ∈ s.candidates method id rest ↔
    webhook ∈ s.rows.values ∧ webhook.webhookId = some id ∧ webhook.method = method ∧
      webhook.pathLength = some rest.length := by
  simp [candidates, dynamicWebhooks]

theorem findDynamicWebhook_eq_some (split : segments path = id :: rest)
    (found : findDynamicWebhook s.rows.values path (some method) = some webhook) :
    ∃ i, FirstBest (fun webhook => allStaticSegmentsMatch rest webhook) staticCount
      (s.candidates method id rest) i webhook := by
  have scanned := scan_spec rest (s.candidates method id rest)
  simp only [findDynamicWebhook, split] at found
  simp only [ScanOf, candidates, found] at scanned
  exact scanned.2

theorem findDynamicWebhook_eq_none (split : segments path = id :: rest)
    (missing : findDynamicWebhook s.rows.values path (some method) = none) :
    ∀ webhook ∈ s.candidates method id rest, ¬ allStaticSegmentsMatch rest webhook := by
  have scanned := scan_spec rest (s.candidates method id rest)
  simp only [findDynamicWebhook, split] at missing
  simp only [ScanOf, candidates, missing] at scanned
  exact scanned.2

theorem mem_candidates_of_routes (wf : s.Wf) (stored : webhook ∈ s.rows.values)
    (same : webhook.method = method) (routes : webhook.Routes path) (split : segments path = id :: rest) :
    webhook ∈ s.candidates method id rest ∧ allStaticSegmentsMatch rest webhook := by
  obtain ⟨key, found⟩ := s.rows.mem_values_iff.mp stored
  obtain ⟨id', rest', known, split', fits⟩ := routes
  rw [split, List.cons.injEq] at split'
  obtain ⟨rfl, rfl⟩ := split'
  refine ⟨mem_candidates.mpr ⟨stored, known, same, ?_⟩, allStatic_of_fits fits⟩
  rw [pathLength_of_registered (wf.rows key webhook found).2, known, map_some, fits.length_eq]

/-! ## Requests for the path of a webhook itself -/

def IsCandidate (webhook : WebhookEntity) (path : String) : Prop :=
  ∃ id rest, segments path = id :: rest ∧ webhook.webhookId = some id ∧ webhook.pathLength = some rest.length

def FoundAt (s : Service) (method : Method) (path : String) (webhook : WebhookEntity) : Prop :=
  s.cache.get (requestKey method path) = some webhook ∨
    s.cache.get (requestKey method path) = none ∧ s.findStaticWebhook method path = some webhook

theorem FoundAt.findWebhook (h : s.FoundAt method path webhook) : s.findWebhook method path = some webhook := by
  rcases h with cached | ⟨missing, stored⟩
  · simp only [Service.findWebhook, cached]
  · simp only [Service.findWebhook, missing, stored]

theorem FoundAt.kept (h : s.FoundAt method path webhook) (wf : s.Wf) :
    Keyed (requestKey method path) webhook ∧ Registered webhook := by
  rcases h with cached | ⟨_, stored⟩
  · exact wf.cache _ _ cached
  · obtain ⟨same, registered⟩ := wf.rows _ _ stored
    obtain ⟨rfl, rfl⟩ := Prod.mk.inj same
    exact ⟨.inr rfl, registered⟩

theorem isCandidate_of_routes (registered : Registered webhook) (routes : webhook.Routes path) :
    IsCandidate webhook path := by
  obtain ⟨id, rest, known, split, fits⟩ := routes
  refine ⟨id, rest, split, known, ?_⟩
  rw [pathLength_of_registered registered, known, map_some, fits.length_eq]

theorem segments_of_candidate (keyed : Keyed (requestKey method path) webhook)
    (registered : Registered webhook) (dynamic : webhook.isDynamic) (split : segments path = id :: rest)
    (known : webhook.webhookId = some id) (long : webhook.pathLength = some rest.length) :
    segments webhook.webhookPath = rest := by
  rw [pathLength_of_registered registered, known, map_some, some.injEq] at long
  rcases keyed with unique | literal
  · obtain ⟨_, rfl⟩ := requestKey_injective unique
    rw [segments_uniquePath dynamic, known, getD_some] at split
    have count := congrArg List.length split
    rw [length_append, length_cons] at count
    obtain ⟨single, one⟩ := length_eq_one_iff.mp (show (segments id).length = 1 by omega)
    rw [one, singleton_append, List.cons.injEq] at split
    exact split.2
  · obtain ⟨_, rfl⟩ := requestKey_injective literal
    rw [split, length_cons] at long
    omega

/-! ## Routing -/

/-- A dynamic webhook is returned for request paths that fit it position by position, and
then its parameters are bound by position; a webhook that fits is not missed; and no
other webhook that fits has more static segments than the dynamic one returned. -/
structure RoutedByPosition (s : Service) (method : Method) (path : String) : Prop where
  sound : ∀ webhook, s.findWebhook method path = some webhook → webhook.isDynamic →
    webhook.Routes path ∧ ∀ requested, trimTrailingSlash requested = path → requestParams webhook requested =
        bindParams (segments webhook.webhookPath) (segments path).tail .empty
  complete : ∀ webhook ∈ s.rows.values, webhook.method = method →
    webhook.Routes path ∨ webhook.webhookPath = path → ∃ found, s.findWebhook method path = some found
  best : ∀ webhook, s.findWebhook method path = some webhook → webhook.isDynamic →
    ∀ other ∈ s.rows.values, other.method = method → other.Routes path →
      other.staticSegments.length ≤ webhook.staticSegments.length

/-- All static segments occur in the request, but not at their positions. -/
def Misplaced (rest : List String) (webhook : WebhookEntity) : Prop :=
  allStaticSegmentsMatch rest webhook ∧ ¬ Forall₂ Fits (segments webhook.webhookPath) rest

/-- A dynamic webhook kept under the request path itself has its id and length, and a
misplaced candidate stands behind another one whose static segments occur: one with
more of them, or with as many and earlier in the table. -/
structure InPlace (s : Service) (method : Method) (path : String) : Prop where
  literal : ∀ webhook, s.FoundAt method path webhook → webhook.isDynamic → IsCandidate webhook path
  ranked : (∀ webhook, ¬ s.FoundAt method path webhook) → ∀ id rest, segments path = id :: rest →
    ∀ i webhook, (s.candidates method id rest)[i]? = some webhook → Misplaced rest webhook →
      ∃ (j : ℕ) (other : WebhookEntity), (s.candidates method id rest)[j]? = some other ∧
        allStaticSegmentsMatch rest other ∧
        (webhook.staticSegments.length < other.staticSegments.length ∨
          webhook.staticSegments.length = other.staticSegments.length ∧ j < i)

/-- Nothing is kept under the request path, so the search decides. -/
theorem findWebhook_of_not_found (none : ∀ webhook, ¬ s.FoundAt method path webhook) :
    s.findWebhook method path = findDynamicWebhook s.rows.values path (some method) := by
  cases cached : s.cache.get (requestKey method path) with
  | some webhook => exact absurd (.inl cached) (none webhook)
  | none =>
    cases stored : s.findStaticWebhook method path with
    | some webhook => exact absurd (.inr ⟨cached, stored⟩) (none webhook)
    | none => simp only [findWebhook, cached, stored]

theorem foundAt_or_searched (s : Service) (method : Method) (path : String) :
    (∃ webhook, s.FoundAt method path webhook) ∨ ∀ webhook, ¬ s.FoundAt method path webhook := by
  by_cases found : ∃ webhook, s.FoundAt method path webhook
  · exact .inl found
  · exact .inr (not_exists.mp found)

theorem InPlace.routes (h : s.InPlace method path) (wf : s.Wf)
    (found : s.findWebhook method path = some webhook) (dynamic : webhook.isDynamic) : webhook.Routes path := by
  rcases foundAt_or_searched s method path with ⟨kept, at_path⟩ | searched
  · have same := at_path.findWebhook.symm.trans found
    cases same
    obtain ⟨keyed, registered⟩ := at_path.kept wf
    obtain ⟨id, rest, split, known, long⟩ := h.literal webhook at_path dynamic
    refine ⟨id, rest, known, split, ?_⟩
    rw [segments_of_candidate keyed registered dynamic split known long]
    exact fits_refl rest
  · obtain ⟨id, rest, split⟩ := exists_cons_of_ne_nil (segments_ne_nil path)
    rw [findWebhook_of_not_found searched] at found
    obtain ⟨i, first⟩ := findDynamicWebhook_eq_some split found
    have listed := mem_candidates.mp (mem_of_getElem? first.there)
    refine ⟨id, rest, listed.2.1, split, ?_⟩
    by_contra misfit
    -- nothing outranks the webhook that was returned
    obtain ⟨j, other, there, covers, more | ⟨same, earlier⟩⟩ :=
      h.ranked searched id rest split i webhook first.there ⟨first.able, misfit⟩
    · exact absurd (first.most j other there covers) (Nat.not_le_of_lt more)
    · exact absurd (first.first j other there covers same.symm) (Nat.not_le_of_lt earlier)

theorem RoutedByPosition.inPlace (h : s.RoutedByPosition method path) (wf : s.Wf) : s.InPlace method path where
  literal webhook at_path dynamic :=
    isCandidate_of_routes (at_path.kept wf).2 (h.sound webhook at_path.findWebhook dynamic).1
  ranked searched id rest split i webhook there misplaced := by
    have search := findWebhook_of_not_found searched
    cases found : findDynamicWebhook s.rows.values path (some method) with
    | none =>
      exact absurd misplaced.1 (findDynamicWebhook_eq_none split found webhook (mem_of_getElem? there))
    | some best =>
      obtain ⟨j, first⟩ := findDynamicWebhook_eq_some split found
      have listed := mem_candidates.mp (mem_of_getElem? first.there)
      obtain ⟨key, stored⟩ := s.rows.mem_values_iff.mp listed.1
      have dynamic := isDynamic_of_registered (wf.rows key best stored).2 listed.2.1
      obtain ⟨id', rest', _, split', fits⟩ := (h.sound best (search.trans found) dynamic).1
      rw [split, List.cons.injEq] at split'
      refine ⟨j, best, first.there, first.able, ?_⟩
      rcases Nat.lt_or_eq_of_le (first.most i webhook there misplaced.1) with less | same
      · exact .inl less
      · refine .inr ⟨same, Nat.lt_of_le_of_ne (first.first i webhook there misplaced.1 same) ?_⟩
        rintro rfl
        -- the one that was returned fits
        have equal := some.inj (there.symm.trans first.there)
        exact misplaced.2 (equal ▸ split'.2 ▸ fits)

theorem findWebhook_complete (wf : s.Wf) (stored : webhook ∈ s.rows.values)
    (same : webhook.method = method) (fits : webhook.Routes path ∨ webhook.webhookPath = path) :
    ∃ found, s.findWebhook method path = some found := by
  rcases foundAt_or_searched s method path with ⟨kept, at_path⟩ | searched
  · exact ⟨kept, at_path.findWebhook⟩
  · rcases fits with routes | literal
    · obtain ⟨id, rest, split⟩ := exists_cons_of_ne_nil (segments_ne_nil path)
      obtain ⟨listed, covers⟩ := mem_candidates_of_routes wf stored same routes split
      rw [findWebhook_of_not_found searched]
      cases found : findDynamicWebhook s.rows.values path (some method) with
      | some best => exact ⟨best, rfl⟩
      | none => exact absurd covers (findDynamicWebhook_eq_none split found webhook listed)
    · obtain ⟨key, there⟩ := s.rows.mem_values_iff.mp stored
      have row : s.findStaticWebhook method path = some webhook := by
        rw [← (wf.rows key webhook there).1] at there
        rw [findStaticWebhook, ← same, ← literal]
        exact there
      cases cached : s.cache.get (requestKey method path) with
      | some other => exact absurd (.inl cached) (searched other)
      | none => exact absurd (.inr ⟨cached, row⟩) (searched webhook)

/-- A request that fits the returned webhook in its own words has the most static
segments, and the search takes the most among the candidates. -/
theorem findWebhook_best (wf : s.Wf) (found : s.findWebhook method path = some webhook)
    (dynamic : webhook.isDynamic) (routes : webhook.Routes path) {other : WebhookEntity}
    (stored : other ∈ s.rows.values) (same : other.method = method) (fits : other.Routes path) :
    other.staticSegments.length ≤ webhook.staticSegments.length := by
  rcases foundAt_or_searched s method path with ⟨kept, at_path⟩ | searched
  · have equal := at_path.findWebhook.symm.trans found
    cases equal
    obtain ⟨keyed, registered⟩ := at_path.kept wf
    obtain ⟨id, rest, split, known, long⟩ := isCandidate_of_routes registered routes
    have own := segments_of_candidate keyed registered dynamic split known long
    obtain ⟨id', rest', _, split', others⟩ := fits
    rw [split, List.cons.injEq] at split'
    rw [WebhookEntity.staticSegments, WebhookEntity.staticSegments, own, split'.2]
    exact static_le_of_fits others
  · obtain ⟨id, rest, split⟩ := exists_cons_of_ne_nil (segments_ne_nil path)
    rw [findWebhook_of_not_found searched] at found
    obtain ⟨i, first⟩ := findDynamicWebhook_eq_some split found
    obtain ⟨listed, covers⟩ := mem_candidates_of_routes wf stored same fits split
    obtain ⟨j, there⟩ := getElem?_of_mem listed
    exact first.most j other there covers

/-- In every state of the service and for every request, webhooks are routed by position
exactly when none is found under its own path by accident and no misplaced candidate
comes out first. -/
theorem routedByPosition_iff_inPlace (h : service.Reachable s) (method : Method) (path : String) :
    s.RoutedByPosition method path ↔ s.InPlace method path := by
  have wf := wf_of_reachable h
  constructor
  · exact fun routed => routed.inPlace wf
  · intro placed
    have routes : ∀ webhook, s.findWebhook method path = some webhook → webhook.isDynamic →
        webhook.Routes path := fun webhook => placed.routes wf
    refine ⟨fun webhook found dynamic => ?_, fun webhook stored same fits => ?_,
      fun webhook found dynamic other stored same fits => ?_⟩
    · have fits := routes webhook found dynamic
      exact ⟨fits, fun requested same => requestParams_of_routes fits same⟩
    · exact findWebhook_complete wf stored same fits
    · exact findWebhook_best wf found dynamic (routes webhook found dynamic) stored same fits

def userPosts : WebhookData := ⟨"workflow", "user/:id/posts", "Webhook", .get, some "uuid"⟩

def userPostsStored : List Event := [.storeWebhook userPosts, .resume 0, .resume 0]

theorem routedByPosition_iff_inPlace_userPosts : ∃ s, service.Reachable s ∧
      s.findWebhook .get "uuid/user/123/posts" = some (createWebhook userPosts) ∧
      (s.RoutedByPosition .get "uuid/user/123/posts" ↔ s.InPlace .get "uuid/user/123/posts") := by
  have start : service.Reachable Service.start := .initial
  obtain ⟨s, reached, found⟩ := TransitionSystem.reachableVia_runChecked (fun _ _ => true)
    (fun _ _ _ => trivial) start userPostsStored
    (fun s => s.findWebhook .get "uuid/user/123/posts" = some (createWebhook userPosts)) (by decide +kernel)
  exact ⟨s, reached, of_decide_eq_true found, routedByPosition_iff_inPlace reached _ _⟩

/-- The static segments of the request change places, and the webhook is served. -/
theorem routed_against_position : ¬ ∀ s, service.Reachable s → ∀ method path, s.RoutedByPosition method path := by
  intro routed
  have start : service.Reachable Service.start := .initial
  obtain ⟨s, reached, found⟩ := TransitionSystem.reachableVia_runChecked (fun _ _ => true)
    (fun _ _ _ => trivial) start userPostsStored
    (fun s => s.findWebhook .get "uuid/posts/123/user" = some (createWebhook userPosts)) (by decide +kernel)
  obtain ⟨⟨id, rest, _, split, fits⟩, _⟩ := (routed s reached .get "uuid/posts/123/user").sound _
    (of_decide_eq_true found) (by decide)
  have tail : (segments "uuid/posts/123/user").tail = rest := congrArg List.tail split
  rw [← tail] at fits
  exact absurd fits (by decide)

end Service

end N8n.Webhooks
