import N8n.WebhookRouting

/-! Whether a deleted webhook is served again. `deleteWorkflowWebhooks` reads the rows of
the workflow, lets the cache forget their keys without waiting for it, and removes the
rows. What other calls write meanwhile is not held back: a lookup that read a row before
it was removed fills the cache after the cache has forgotten it, and a webhook that is
cached under another key than its own, or stored after the rows were read, is not among
what the deletion takes away.

A deletion that has read its rows is a `Purge`, until and after it is over. The
invariant says of every cached webhook of a purged workflow that the cache is still to
forget its key, and of every row that it is still to be removed, unless a call of
`storeWebhook` that began after the end stored it. -/

namespace N8n.Webhooks

open List Nat

/-- A deletion whose rows were read. `ended` is missing while it is under way, and
`removing` are the rows it is still to remove. -/
structure Purge where
  op : ℕ
  workflowId : String
  ended : Option ℕ
  removing : List (Method × String)
  deriving DecidableEq

def Purge.Older (purge : Purge) (op : ℕ) : Prop := ∀ n ∈ purge.ended, op < n

instance (purge : Purge) (op : ℕ) : Decidable (purge.Older op) :=
  inferInstanceAs (Decidable (∀ n ∈ purge.ended, op < n))

def Deletion.purge (deletion : Deletion) : Purge :=
  ⟨deletion.op, deletion.workflowId, some deletion.ended, []⟩

def Pending.purge (call : Pending) : Option Purge :=
  match call.await with
  | .remove workflowId webhooks => some ⟨call.op, workflowId, none, webhooks.map (·.id)⟩
  | _ => none

def purges (pending : List Pending) (deletions : List Deletion) : List Purge :=
  deletions.map Deletion.purge ++ pending.filterMap Pending.purge

/-- The deletion with this number is still to delete the key from the cache. -/
def Pending.forgets (op : ℕ) (key : String) (call : Pending) : Bool :=
  match call.await with
  | .forget keys => call.op = op ∧ key ∈ keys
  | _ => false

def Forgets (pending : List Pending) (op : ℕ) (key : String) : Prop :=
  ∃ call ∈ pending, call.forgets op key

instance (pending : List Pending) (op : ℕ) (key : String) : Decidable (Forgets pending op key) :=
  inferInstanceAs (Decidable (∃ call ∈ pending, call.forgets op key))

namespace Service

/-! ## The property -/

/-- A lookup that begins after a deletion is over, and after all that began before its
end is over too, returns no webhook of the workflow, unless a call of `storeWebhook`
that began after the end stored it. -/
def NeverServedAgain (s : Service) : Prop :=
  ∀ answer ∈ s.answers, ∀ webhook, answer.webhook = some webhook →
    ∀ deletion ∈ s.deletions, deletion.workflowId = webhook.workflowId →
      deletion.ended ≤ answer.oldest → ∃ op, (op, webhook) ∈ s.stores ∧ deletion.ended ≤ op

/-! ## The condition -/

/-- A call that began before the end of a deletion writes the cache before the deletion
deletes that key. -/
def cacheInTime (s : Service) (op : ℕ) (key : String) (webhook : WebhookEntity) : Bool :=
  ∀ purge ∈ purges s.pending s.deletions, purge.workflowId = webhook.workflowId →
    purge.Older op → Forgets s.pending purge.op key

def rowInTime (s : Service) (op : ℕ) (webhook : WebhookEntity) : Bool :=
  ∀ purge ∈ purges s.pending s.deletions, purge.workflowId = webhook.workflowId →
    purge.Older op → webhook.id ∈ purge.removing

def cacheCovered (s : Service) (workflowId : String) : Bool :=
  ∀ entry ∈ s.cache.entries, entry.2.workflowId = workflowId → entry.1 ∈ (s.rowsOf workflowId).map (·.cacheKey)

def inTime (s : Service) (call : Pending) : Bool :=
  match call.await with
  | .cacheSet webhook => s.cacheInTime call.op webhook.cacheKey webhook
  | .fill key webhook => s.cacheInTime call.op key webhook
  | .upsert webhook => s.rowInTime call.op webhook
  | .findRows workflowId => s.cacheCovered workflowId
  | _ => true

def orderly (s : Service) : Event → Bool
  | .resume i => (s.pending[i]?).all s.inTime
  | _ => true

end Service

/-! ## Purges and keys to forget -/

section Purges

variable {pending : List Pending} {deletions : List Deletion} {purge : Purge} {call : Pending} {i : ℕ}
  {op : ℕ} {key : String}

theorem mem_purges : purge ∈ purges pending deletions ↔
    (∃ deletion ∈ deletions, deletion.purge = purge) ∨ ∃ call ∈ pending, call.purge = some purge := by
  simp [purges]

theorem removing_of_ended {n : ℕ} (member : purge ∈ purges pending deletions)
    (ended : purge.ended = some n) : purge.removing = [] := by
  rcases mem_purges.mp member with ⟨deletion, _, rfl⟩ | ⟨call, _, same⟩
  · rfl
  · unfold Pending.purge at same
    split at same
    · cases same
      cases ended
    · cases same

theorem purges_resumed (member : purge ∈ purges (pending.eraseIdx i) deletions) : purge ∈ purges pending deletions := by
  rcases mem_purges.mp member with ended | ⟨call, inside, same⟩
  · exact mem_purges.mpr (.inl ended)
  · exact mem_purges.mpr (.inr ⟨call, mem_of_mem_eraseIdx inside, same⟩)

theorem purges_suspend (member : purge ∈ purges (pending ++ [call]) deletions) :
    purge ∈ purges pending deletions ∨ call.purge = some purge := by
  rcases mem_purges.mp member with ended | ⟨other, inside, same⟩
  · exact .inl (mem_purges.mpr (.inl ended))
  · rcases mem_suspend inside with old | new
    · exact .inl (mem_purges.mpr (.inr ⟨other, old, same⟩))
    · exact .inr (new ▸ same)

theorem Forgets.suspend (h : Forgets pending op key) (call : Pending) : Forgets (pending ++ [call]) op key := by
  obtain ⟨other, member, forgets⟩ := h
  exact ⟨other, mem_append_left _ member, forgets⟩

theorem Forgets.resumed (h : Forgets pending op key) (there : pending[i]? = some call)
    (other : call.forgets op key = false) : Forgets (pending.eraseIdx i) op key := by
  obtain ⟨found, member, forgets⟩ := h
  refine ⟨found, mem_resumed there member fun same => ?_, forgets⟩
  rw [same, other] at forgets
  cases forgets

end Purges

/-! ## The invariant -/

/-- A call of `storeWebhook` that began after the end stored the webhook. -/
def Purge.StoredSince (purge : Purge) (stores : List (ℕ × WebhookEntity)) (webhook : WebhookEntity) :
    Prop := ∃ n ∈ purge.ended, ∃ op, (op, webhook) ∈ stores ∧ n ≤ op

structure Guarded (cache : OrderedMap String WebhookEntity)
    (rows : OrderedMap (Method × String) WebhookEntity) (pending : List Pending)
    (stores : List (ℕ × WebhookEntity)) (deletions : List Deletion) : Prop where
  cache : ∀ key webhook, cache.get key = some webhook → ∀ purge ∈ purges pending deletions,
    purge.workflowId = webhook.workflowId → Forgets pending purge.op key ∨ purge.StoredSince stores webhook
  rows : ∀ key webhook, rows.get key = some webhook → ∀ purge ∈ purges pending deletions,
    purge.workflowId = webhook.workflowId → key ∈ purge.removing ∨ purge.StoredSince stores webhook
  fills : ∀ call ∈ pending, ∀ key webhook, call.await = .fill key webhook →
    ∀ purge ∈ purges pending deletions, purge.workflowId = webhook.workflowId →
      ¬ purge.Older call.op → purge.StoredSince stores webhook
  storing : ∀ call ∈ pending, ∀ webhook, call.await = .cacheSet webhook ∨ call.await = .upsert webhook →
    (call.op, webhook) ∈ stores

section Guarded

variable {cache cache' : OrderedMap String WebhookEntity}
  {rows rows' : OrderedMap (Method × String) WebhookEntity} {pending : List Pending}
  {stores : List (ℕ × WebhookEntity)} {deletions : List Deletion} {call : Pending} {i : ℕ}
  {webhook : WebhookEntity} {key : String}

section

variable (h : Guarded cache rows pending stores deletions)
include h

theorem Guarded.fewerCached (fewer : ∀ key webhook, cache'.get key = some webhook → cache.get key = some webhook) :
    Guarded cache' rows pending stores deletions :=
  { h with cache := fun key webhook found => h.cache key webhook (fewer key webhook found) }

theorem Guarded.suspend (call : Pending) (other : call.purge = none)
    (fills : ∀ key webhook, call.await = .fill key webhook → ∀ purge ∈ purges pending deletions,
      purge.workflowId = webhook.workflowId → ¬ purge.Older call.op → purge.StoredSince stores webhook)
    (storing : ∀ webhook, call.await = .cacheSet webhook ∨ call.await = .upsert webhook → (call.op, webhook) ∈ stores) :
    Guarded cache rows (pending ++ [call]) stores deletions := by
  have older : ∀ purge ∈ purges (pending ++ [call]) deletions, purge ∈ purges pending deletions := by
    intro purge member
    exact (purges_suspend member).resolve_right (by simp [other])
  constructor
  · intro key webhook found purge member same
    exact (h.cache key webhook found purge (older purge member) same).imp_left (·.suspend call)
  · exact fun key webhook found purge member => h.rows key webhook found purge (older purge member)
  · intro new inside key webhook filling purge member
    rcases mem_suspend inside with old | rfl
    · exact h.fills new old key webhook filling purge (older purge member)
    · exact fills key webhook filling purge (older purge member)
  · intro new inside webhook stored
    rcases mem_suspend inside with old | rfl
    · exact h.storing new old webhook stored
    · exact storing webhook stored

theorem Guarded.resumed (there : pending[i]? = some call) (other : ∀ op key, call.forgets op key = false) :
    Guarded cache rows (pending.eraseIdx i) stores deletions where
  cache key webhook found purge member same :=
    (h.cache key webhook found purge (purges_resumed member) same).imp_left (·.resumed there (other _ _))
  rows key webhook found purge member := h.rows key webhook found purge (purges_resumed member)
  fills call inside key webhook filling purge member :=
    h.fills call (mem_of_mem_eraseIdx inside) key webhook filling purge (purges_resumed member)
  storing call inside := h.storing call (mem_of_mem_eraseIdx inside)

theorem Guarded.setCache (written : ∀ purge ∈ purges pending deletions, purge.workflowId = webhook.workflowId →
      Forgets pending purge.op key ∨ purge.StoredSince stores webhook) :
    Guarded (cache.set key webhook) rows pending stores deletions := by
  refine { h with cache := fun other stored found => ?_ }
  rw [OrderedMap.get_set] at found
  split at found
  · rename_i same
    cases found
    exact same ▸ written
  · exact h.cache other stored found

theorem Guarded.setRow (written : ∀ purge ∈ purges pending deletions, purge.workflowId = webhook.workflowId →
      webhook.id ∈ purge.removing ∨ purge.StoredSince stores webhook) :
    Guarded cache (rows.set webhook.id webhook) pending stores deletions := by
  refine { h with rows := fun other stored found => ?_ }
  rw [OrderedMap.get_set] at found
  split at found
  · rename_i same
    cases found
    exact same ▸ written
  · exact h.rows other stored found

theorem Guarded.stored (op : ℕ)
    (webhook : WebhookEntity) : Guarded cache rows pending ((op, webhook) :: stores) deletions := by
  have grown : ∀ (purge : Purge) (other : WebhookEntity), purge.StoredSince stores other →
      purge.StoredSince ((op, webhook) :: stores) other := by
    rintro purge other ⟨n, ended, number, stored, later⟩
    exact ⟨n, ended, number, mem_cons_of_mem _ stored, later⟩
  constructor
  · intro key other found purge member same
    exact (h.cache key other found purge member same).imp_right (grown purge other)
  · intro key other found purge member same
    exact (h.rows key other found purge member same).imp_right (grown purge other)
  · intro call inside key other filling purge member same younger
    exact grown purge other (h.fills call inside key other filling purge member same younger)
  · exact fun call inside other storing => mem_cons_of_mem _ (h.storing call inside other storing)

theorem Guarded.row_stored {id : Method × String}
    (found : rows.get id = some webhook) {purge : Purge} (member : purge ∈ purges pending deletions)
    (same : purge.workflowId = webhook.workflowId) (op : ℕ) (younger : ¬ purge.Older op) :
    purge.StoredSince stores webhook := by
  obtain ⟨n, ended⟩ : ∃ n, purge.ended = some n := by
    by_contra under_way
    refine younger fun n ended => absurd ⟨n, ended⟩ under_way
  refine (h.rows id webhook found purge member same).resolve_left ?_
  simp [removing_of_ended member ended]

theorem Guarded.forget (there : pending[i]? = some call) {keys : List String} (forget : call.await = .forget keys) :
    Guarded (cache.deleteMany keys) rows (pending.eraseIdx i) stores deletions where
  cache key webhook found purge member same := by
    obtain ⟨outside, before⟩ := cache.get_deleteMany_some found
    refine (h.cache key webhook before purge (purges_resumed member) same).imp_left fun forgets => ?_
    exact forgets.resumed there (by simp [Pending.forgets, forget, outside])
  rows key webhook found purge member := h.rows key webhook found purge (purges_resumed member)
  fills call inside key webhook filling purge member :=
    h.fills call (mem_of_mem_eraseIdx inside) key webhook filling purge (purges_resumed member)
  storing call inside := h.storing call (mem_of_mem_eraseIdx inside)

theorem Guarded.read (call : Pending) (workflowId : String) (webhooks : List WebhookEntity)
    (covered : ∀ key webhook, cache.get key = some webhook → webhook.workflowId = workflowId →
      key ∈ webhooks.map (·.cacheKey))
    (all : ∀ id webhook, rows.get id = some webhook → webhook.workflowId = workflowId → id ∈ webhooks.map (·.id)) :
    Guarded cache rows (pending ++ [{ call with await := .forget (webhooks.map (·.cacheKey)) }] ++
      [{ call with await := .remove workflowId webhooks }]) stores deletions := by
  have rest := h.suspend { call with await := .forget (webhooks.map (·.cacheKey)) } rfl (by simp) (by simp)
  constructor
  · intro key webhook found purge member same
    rcases purges_suspend member with old | new
    · exact (rest.cache key webhook found purge old same).imp_left (·.suspend _)
    · cases new
      refine .inl (Forgets.suspend ⟨_, mem_append_right _ mem_cons_self, ?_⟩ _)
      simpa [Pending.forgets] using covered key webhook found same.symm
  · intro id webhook found purge member same
    rcases purges_suspend member with old | new
    · exact rest.rows id webhook found purge old same
    · cases new
      exact .inl (all id webhook found same.symm)
  · intro other inside key webhook filling purge member same younger
    rcases purges_suspend member with old | new
    · rcases mem_suspend inside with before | rfl
      · exact rest.fills other before key webhook filling purge old same younger
      · cases filling
    · cases new
      exact absurd (fun n none => nomatch none) younger
  · intro other inside webhook storing
    rcases mem_suspend inside with before | rfl
    · exact rest.storing other before webhook storing
    · rcases storing with cached | stored
      · cases cached
      · cases stored

theorem Guarded.remove (there : pending[i]? = some call) {workflowId : String} {webhooks : List WebhookEntity}
    (remove : call.await = .remove workflowId webhooks) {nextOp : ℕ} (bound : ∀ call ∈ pending, call.op < nextOp) :
    Guarded cache (rows.deleteMany (webhooks.map (·.id))) (pending.eraseIdx i) stores
      (⟨call.op, workflowId, nextOp⟩ :: deletions) := by
  have rest := h.resumed there (fun op key => by simp [Pending.forgets, remove])
  have before : (⟨call.op, workflowId, none, webhooks.map (·.id)⟩ : Purge) ∈ purges pending deletions :=
    mem_purges.mpr (.inr ⟨call, mem_of_getElem? there, by simp [Pending.purge, remove]⟩)
  have split : ∀ purge ∈ purges (pending.eraseIdx i) (⟨call.op, workflowId, nextOp⟩ :: deletions),
      purge ∈ purges (pending.eraseIdx i) deletions ∨ purge = ⟨call.op, workflowId, some nextOp, []⟩ := by
    intro purge member
    rcases mem_cons.mp member with new | old
    · exact .inr new
    · exact .inl old
  constructor
  · intro key webhook found purge member same
    rcases split purge member with old | rfl
    · exact rest.cache key webhook found purge old same
    · have forgets := (h.cache key webhook found _ before same).resolve_right
        (fun stored => by simp [Purge.StoredSince] at stored)
      exact .inl (forgets.resumed there (by simp [Pending.forgets, remove]))
  · intro id webhook found purge member same
    obtain ⟨outside, kept⟩ := rows.get_deleteMany_some found
    rcases split purge member with old | rfl
    · exact rest.rows id webhook kept purge old same
    · refine absurd ((h.rows id webhook kept _ before same).resolve_right fun stored => ?_) outside
      simp [Purge.StoredSince] at stored
  · intro other inside key webhook filling purge member same younger
    rcases split purge member with old | rfl
    · exact rest.fills other inside key webhook filling purge old same younger
    · refine absurd (fun n ended => ?_) younger
      cases ended
      exact bound other (mem_of_mem_eraseIdx inside)
  · exact rest.storing

end

end Guarded

/-! ## Numbers -/

/-- Numbers grow, and no call under way is older than what a later one noted as the
oldest. -/
structure Numbered (pending : List Pending) (nextOp : ℕ) (deletions : List Deletion)
    (answers : List Answer) : Prop where
  op : ∀ call ∈ pending, call.op < nextOp
  oldest : ∀ call ∈ pending, ∀ other ∈ pending, call.oldest ≤ other.op
  ended : ∀ deletion ∈ deletions, deletion.op < deletion.ended ∧ deletion.ended ≤ nextOp
  answer : ∀ answer ∈ answers, answer.oldest < nextOp

section Numbered

variable {pending : List Pending} {nextOp i : ℕ} {deletions : List Deletion} {answers : List Answer} {call : Pending}

theorem foldr_min_le (l : List ℕ) (n : ℕ) : l.foldr min n ≤ n ∧ ∀ m ∈ l, l.foldr min n ≤ m := by
  induction l with
  | nil => simp
  | cons a l ih =>
    simp only [foldr_cons, mem_cons, forall_eq_or_imp]
    refine ⟨le_trans (min_le_right _ _) ih.1, min_le_left _ _, fun m member => ?_⟩
    exact le_trans (min_le_right _ _) (ih.2 m member)

section

variable (h : Numbered pending nextOp deletions answers)
include h

theorem Numbered.begin (await : Await) :
    Numbered (pending ++ [⟨nextOp, (pending.map (·.op)).foldr min nextOp, await⟩]) (nextOp + 1)
      deletions answers := by
  obtain ⟨self, others⟩ := foldr_min_le (pending.map (·.op)) nextOp
  constructor
  · intro call inside
    rcases mem_suspend inside with old | rfl
    · exact lt_succ_of_lt (h.op call old)
    · exact lt_succ_self _
  · intro call inside other there
    rcases mem_suspend inside with old | rfl
    · rcases mem_suspend there with old' | rfl
      · exact h.oldest call old other old'
      · exact le_of_lt (lt_of_le_of_lt (h.oldest call old call old) (h.op call old))
    · rcases mem_suspend there with old' | rfl
      · exact others other.op (List.mem_map.mpr ⟨other, old', rfl⟩)
      · exact self
  · exact fun deletion inside => (h.ended deletion inside).imp_right le_succ_of_le
  · exact fun answer inside => lt_succ_of_lt (h.answer answer inside)

theorem Numbered.resumed (i : ℕ) : Numbered (pending.eraseIdx i) nextOp deletions answers :=
  { h with
    op := fun call inside => h.op call (mem_of_mem_eraseIdx inside)
    oldest := fun call inside other there =>
      h.oldest call (mem_of_mem_eraseIdx inside) other (mem_of_mem_eraseIdx there) }

theorem Numbered.again (awaits : List Await) (there : pending[i]? = some call) :
    Numbered (pending.eraseIdx i ++ awaits.map fun await => { call with await := await }) nextOp
      deletions answers := by
  have member := mem_of_getElem? there
  have older : ∀ other ∈ pending.eraseIdx i ++ awaits.map fun await => { call with await := await },
      ∃ before ∈ pending, before.op = other.op ∧ before.oldest = other.oldest := by
    intro other inside
    rcases mem_append.mp inside with old | new
    · exact ⟨other, mem_of_mem_eraseIdx old, rfl, rfl⟩
    · obtain ⟨await, _, rfl⟩ := List.mem_map.mp new
      exact ⟨call, member, rfl, rfl⟩
  refine { h with op := fun other inside => ?_, oldest := fun first inside second there => ?_ }
  · obtain ⟨before, was, same, _⟩ := older other inside
    exact same ▸ h.op before was
  · obtain ⟨before, was, _, same⟩ := older first inside
    obtain ⟨before', was', same', _⟩ := older second there
    exact same ▸ same' ▸ h.oldest before was before' was'

theorem Numbered.answered (there : pending[i]? = some call) (webhook : Option WebhookEntity) :
    Numbered pending nextOp deletions (⟨call.op, call.oldest, webhook⟩ :: answers) := by
  have member := mem_of_getElem? there
  refine { h with answer := fun answer inside => ?_ }
  rcases mem_cons.mp inside with rfl | old
  · exact lt_of_le_of_lt (h.oldest call member call member) (h.op call member)
  · exact h.answer answer old

theorem Numbered.finished (there : pending[i]? = some call) (workflowId : String) :
    Numbered pending nextOp (⟨call.op, workflowId, nextOp⟩ :: deletions) answers := by
  refine { h with ended := fun deletion inside => ?_ }
  rcases mem_cons.mp inside with rfl | old
  · exact ⟨h.op call (mem_of_getElem? there), le_refl _⟩
  · exact h.ended deletion old

end

end Numbered

/-! ## One event -/

namespace Service

structure Cleaned (s : Service) : Prop where
  wf : s.Wf
  numbered : Numbered s.pending s.nextOp s.deletions s.answers
  guarded : Guarded s.cache s.rows s.pending s.stores s.deletions
  served : s.NeverServedAgain

section Step

variable {s s' : Service} {e : Event} {i : ℕ} {call : Pending} {webhook : WebhookEntity} {key : String}

theorem mem_of_findDynamicWebhook {method : Method} {path : String}
    (found : findDynamicWebhook s.rows.values path (some method) = some webhook) : webhook ∈ s.rows.values := by
  obtain ⟨id, rest, split⟩ := exists_cons_of_ne_nil (segments_ne_nil path)
  obtain ⟨i, first⟩ := findDynamicWebhook_eq_some split found
  exact (mem_candidates.mp (mem_of_getElem? first.there)).1

/-- An answer is added, and what it returns was stored since the deletions it is younger
than. -/
theorem NeverServedAgain.answered (h : s.NeverServedAgain) (call : Pending) (found : Option WebhookEntity)
    (stored : ∀ webhook, found = some webhook → ∀ deletion ∈ s.deletions,
      deletion.workflowId = webhook.workflowId → deletion.ended ≤ call.oldest →
        ∃ op, (op, webhook) ∈ s.stores ∧ deletion.ended ≤ op) : (s.answer call found).NeverServedAgain := by
  intro answer inside webhook returned
  rcases mem_cons.mp inside with rfl | old
  · exact stored webhook returned
  · exact h answer old webhook returned

theorem Cleaned.row_stored (h : s.Cleaned) (stored : webhook ∈ s.rows.values) (deletion : Deletion)
    (past : deletion ∈ s.deletions) (same : deletion.workflowId = webhook.workflowId) :
    ∃ op, (op, webhook) ∈ s.stores ∧ deletion.ended ≤ op := by
  obtain ⟨id, found⟩ := s.rows.mem_values_iff.mp stored
  have member : deletion.purge ∈ purges s.pending s.deletions := mem_purges.mpr (.inl ⟨_, past, rfl⟩)
  obtain ⟨n, ended, op, again, later⟩ := h.guarded.row_stored found member same deletion.ended
    (fun older => lt_irrefl _ (older _ rfl))
  cases ended
  exact ⟨op, again, later⟩

theorem Cleaned.cached_stored (h : s.Cleaned) (there : s.pending[i]? = some call)
    (found : s.cache.get key = some webhook) (deletion : Deletion) (past : deletion ∈ s.deletions)
    (same : deletion.workflowId = webhook.workflowId) (after : deletion.ended ≤ call.oldest) :
    ∃ op, (op, webhook) ∈ s.stores ∧ deletion.ended ≤ op := by
  have member : deletion.purge ∈ purges s.pending s.deletions := mem_purges.mpr (.inl ⟨_, past, rfl⟩)
  rcases h.guarded.cache key webhook found _ member same with ⟨other, inside, forgets⟩ | stored
  · -- the call that forgets the key would be older than the oldest one
    have number : other.op = deletion.op := by
      unfold Pending.forgets at forgets
      split at forgets
      · exact (of_decide_eq_true forgets).1
      · cases forgets
    have bound := h.numbered.oldest call (mem_of_getElem? there) other inside
    have began := (h.numbered.ended deletion past).1
    omega
  · obtain ⟨n, ended, op, again, later⟩ := stored
    cases ended
    exact ⟨op, again, later⟩

theorem written_in_time (inTime : s.cacheInTime call.op key webhook)
    (stored : ∀ purge ∈ purges s.pending s.deletions, purge.workflowId = webhook.workflowId →
      ¬ purge.Older call.op → purge.StoredSince s.stores webhook) :
    ∀ purge ∈ purges s.pending s.deletions, purge.workflowId = webhook.workflowId →
      Forgets s.pending purge.op key ∨ purge.StoredSince s.stores webhook := by
  intro purge member same
  by_cases older : purge.Older call.op
  · exact .inl (of_decide_eq_true inTime purge member same older)
  · exact .inr (stored purge member same older)

theorem Cleaned.storing (h : s.Cleaned) (there : s.pending[i]? = some call)
    (storing : call.await = .cacheSet webhook ∨ call.await = .upsert webhook) (purge : Purge)
    (younger : ¬ purge.Older call.op) : purge.StoredSince s.stores webhook := by
  have recorded := h.guarded.storing call (mem_of_getElem? there) webhook storing
  obtain ⟨n, ended, later⟩ : ∃ n ∈ purge.ended, n ≤ call.op := by
    by_contra none
    exact younger fun n ended => Nat.lt_of_not_le fun later => none ⟨n, ended, later⟩
  exact ⟨n, ended, call.op, recorded, later⟩

theorem step_cleaned_resume (h : s.Cleaned) (there : s.pending[i]? = some call)
    (inTime : s.inTime call) : ((s.resumed i).proceed call).Cleaned := by
  have wf : ((s.resumed i).proceed call).Wf :=
    Wf.proceed (s := s.resumed i) (h.wf.resumed i) (h.wf.pending call (mem_of_getElem? there))
  obtain ⟨op, oldest, await⟩ := call
  have numbers := h.numbered.resumed i
  cases await with
  | cacheGet method path =>
    have rest := h.guarded.resumed there (fun _ _ => rfl)
    revert wf
    simp only [proceed]
    split
    · rename_i cached found
      intro wf
      have answered := (h.numbered.answered there (some cached)).resumed i
      refine ⟨wf, answered, rest, h.served.answered _ _ fun webhook same => ?_⟩
      cases same
      exact h.cached_stored there found
    · intro wf
      exact ⟨wf, h.numbered.again [.findOneBy method path] there, rest.suspend _ rfl (by simp) (by simp), h.served⟩
  | findOneBy method path =>
    have rest := h.guarded.resumed there (fun _ _ => rfl)
    revert wf
    simp only [proceed]
    split
    · rename_i stored found
      intro wf
      refine ⟨wf, ((h.numbered.answered there (some stored)).again [.fill _ stored] there), ?_, ?_⟩
      · refine rest.suspend _ rfl (fun key webhook same purge member equal younger => ?_) (by simp)
        cases same
        exact rest.row_stored found member equal op younger
      · refine h.served.answered _ _ fun webhook same deletion past equal after => ?_
        cases same
        exact h.row_stored (s.rows.mem_values_iff.mpr ⟨_, found⟩) deletion past equal
    · intro wf
      exact ⟨wf, h.numbered.again [.findBy method path] there, rest.suspend _ rfl (by simp) (by simp), h.served⟩
  | findBy method path =>
    have rest := h.guarded.resumed there (fun _ _ => rfl)
    refine ⟨wf, (h.numbered.answered there _).resumed i, rest, h.served.answered _ _ ?_⟩
    intro webhook found deletion past equal after
    exact h.row_stored (mem_of_findDynamicWebhook found) deletion past equal
  | cacheSet webhook =>
    have rest := h.guarded.resumed there (fun _ _ => rfl)
    have written := written_in_time inTime fun purge _ _ => h.storing there (.inl rfl) purge
    refine ⟨wf, h.numbered.again [.upsert webhook] there, ?_, h.served⟩
    refine Guarded.suspend (rest.setCache fun purge member same => ?_) _ rfl (by simp) ?_
    · exact (written purge (purges_resumed member) same).imp_left (·.resumed there rfl)
    · rintro other (cached | stored)
      · cases cached
      · cases stored
        exact h.guarded.storing _ (mem_of_getElem? there) webhook (.inl rfl)
  | upsert webhook =>
    have rest := h.guarded.resumed there (fun _ _ => rfl)
    refine ⟨wf, numbers, rest.setRow fun purge member same => ?_, h.served⟩
    by_cases older : purge.Older op
    · exact .inl (of_decide_eq_true inTime purge (purges_resumed member) same older)
    · exact .inr (h.storing there (.inr rfl) purge older)
  | findRows workflowId =>
    have rest := h.guarded.resumed there (fun _ _ => rfl)
    have numbered := h.numbered.again
      [.forget ((s.rowsOf workflowId).map (·.cacheKey)), .remove workflowId (s.rowsOf workflowId)] there
    refine ⟨wf, ?_, rest.read ⟨op, oldest, .findRows workflowId⟩ workflowId (s.rowsOf workflowId)
      (fun key webhook found same => ?_) (fun id webhook found same => ?_), h.served⟩
    · rw [map_cons, map_singleton, append_cons] at numbered
      exact numbered
    · exact of_decide_eq_true inTime (key, webhook) (s.cache.mem_entries_iff.mpr found) same
    · have listed : webhook ∈ s.rowsOf workflowId := by
        simp [rowsOf, same, s.rows.mem_values_iff.mpr ⟨id, found⟩]
      exact List.mem_map.mpr ⟨webhook, listed, (h.wf.rows id webhook found).1⟩
  | remove workflowId webhooks =>
    refine ⟨wf, (h.numbered.finished there workflowId).resumed i, h.guarded.remove there rfl h.numbered.op, ?_⟩
    intro answer inside webhook returned deletion past same after
    rcases mem_cons.mp past with rfl | old
    · exact absurd after (Nat.not_le_of_lt (h.numbered.answer answer inside))
    · exact h.served answer inside webhook returned deletion old same after
  | fill key webhook =>
    have rest := h.guarded.resumed there (fun _ _ => rfl)
    have written := written_in_time inTime (h.guarded.fills _ (mem_of_getElem? there) key webhook rfl)
    refine ⟨wf, numbers, rest.setCache fun purge member same => ?_, h.served⟩
    exact (written purge (purges_resumed member) same).imp_left (·.resumed there rfl)
  | forget keys => exact ⟨wf, numbers, h.guarded.forget there rfl, h.served⟩

theorem step_cleaned (h : s.Cleaned) (orderly : s.orderly e) (taken : s.step e = some s') : s'.Cleaned := by
  have wf := step_wf h.wf taken
  cases e with
  | findWebhook method path =>
    cases taken
    exact ⟨wf, h.numbered.begin _, h.guarded.suspend _ rfl (by simp) (by simp), h.served⟩
  | storeWebhook data =>
    cases taken
    have recorded := h.guarded.stored s.nextOp (createWebhook data)
    refine ⟨wf, h.numbered.begin _, recorded.suspend _ rfl (by simp) (by simp), ?_⟩
    intro answer inside webhook returned deletion past same after
    obtain ⟨op, stored, later⟩ := h.served answer inside webhook returned deletion past same after
    exact ⟨op, mem_cons_of_mem _ stored, later⟩
  | deleteWorkflowWebhooks workflowId =>
    cases taken
    exact ⟨wf, h.numbered.begin _, h.guarded.suspend _ rfl (by simp) (by simp), h.served⟩
  | resume i =>
    obtain ⟨call, there, rfl⟩ := Option.map_eq_some_iff.mp taken
    rw [Service.orderly, there] at orderly
    exact step_cleaned_resume h there orderly
  | expire key =>
    cases taken
    exact ⟨wf, h.numbered, h.guarded.fewerCached fun _ _ => s.cache.get_delete_some, h.served⟩

theorem cleaned_start : Service.start.Cleaned where
  wf := wf_start
  numbered := ⟨by simp [start], by simp [start], by simp [start], by simp [start]⟩
  guarded := ⟨by simp [start], by simp [start], by simp [start], by simp [start]⟩
  served := by simp [NeverServedAgain, start]

end Step

/-- In every run in which the writes of older calls come in time, a deleted webhook is
not served again. -/
theorem neverServedAgain_of_orderly {s : Service}
    (h : service.ReachableVia (fun s e => s.orderly e) s) : s.NeverServedAgain :=
  (h.invariant (P := Cleaned) cleaned_start fun _ _ _ => step_cleaned).served

def orders : WebhookData := ⟨"workflow", "orders", "Webhook", .get, none⟩

def storedAgain : List Event :=
  [.storeWebhook orders, .resume 0, .resume 0, .deleteWorkflowWebhooks "workflow", .resume 0, .resume 0,
    .resume 0, .storeWebhook orders, .resume 0, .resume 0, .findWebhook .get "orders", .resume 0]

theorem neverServedAgain_of_orderly_storedAgain : ∃ s, service.ReachableVia (fun s e => s.orderly e) s ∧
      s.answers = [⟨3, 3, some (createWebhook orders)⟩] ∧ s.deletions = [⟨1, "workflow", 2⟩] ∧
      s.NeverServedAgain := by
  have start : service.ReachableVia (fun s e => s.orderly e) _ := .init
  obtain ⟨s, reached, seen⟩ := TransitionSystem.reachableVia_runChecked orderly (fun _ _ => id) start
    storedAgain (fun s => s.answers = [⟨3, 3, some (createWebhook orders)⟩] ∧
      s.deletions = [⟨1, "workflow", 2⟩]) (by decide +kernel)
  have seen := of_decide_eq_true seen
  exact ⟨s, reached, seen.1, seen.2, neverServedAgain_of_orderly reached⟩

/-- A lookup misses the cache, reads the row once the webhook is stored, and fills the
cache when the deletion is over. The next lookup finds the webhook there. -/
def filledLate : List Event :=
  [.findWebhook .get "orders", .resume 0, .storeWebhook orders, .resume 1, .resume 1, .resume 0,
    .deleteWorkflowWebhooks "workflow", .resume 1, .resume 1, .resume 1, .resume 0,
    .findWebhook .get "orders", .resume 0]

theorem deleted_served_again : ¬ ∀ s, service.Reachable s → s.NeverServedAgain := by
  intro never
  have start : service.Reachable Service.start := .initial
  obtain ⟨s, reached, seen⟩ := TransitionSystem.reachableVia_runChecked (fun _ _ => true)
    (fun _ _ _ => trivial) start filledLate
    (fun s => ⟨3, 3, some (createWebhook orders)⟩ ∈ s.answers ∧ ⟨2, "workflow", 3⟩ ∈ s.deletions ∧
      s.stores = [(1, createWebhook orders)]) (by decide +kernel)
  obtain ⟨answered, deleted, stores⟩ := of_decide_eq_true seen
  obtain ⟨op, stored, later⟩ := never s reached _ answered _ rfl _ deleted rfl (le_refl _)
  rw [stores, mem_singleton, Prod.mk.injEq] at stored
  have bound : 3 ≤ op := later
  omega

end Service

end N8n.Webhooks
