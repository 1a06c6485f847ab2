import Mathlib.Data.List.Count
import N8n.ConcurrencyQueue

/-! The accounts of the concurrency queue over whole runs. The counter, the array
and the set of pending promises are three views of one state: the equation that
ties them is found once and every operation is shown to keep it.
The equation does not bound the number of running executions. Removing a queued
execution frees no slot, yet it resolves the next promise. -/

namespace N8n.ConcurrencyQueue

open List

/-- The equations kept by every operation. An id is counted once on the left, so
it is counted in exactly one of the four lists on the right of `partition`. -/
structure Accounts (limit : Int) (s : Ledger) : Prop where
  capacity : s.queue.capacity = limit - s.running.length - s.queue.queue.length
  distinct : s.enqueued.Nodup
  partition : ∀ id, s.enqueued.count id = s.queue.queue.count id + s.running.count id +
    s.removed.count id + s.dequeued.count id
  through : ∀ id, s.letThrough.count id = s.running.count id + s.dequeued.count id
  fifo : s.throttled.filter (· ∉ s.removed) = s.released ++ s.queue.queue
  order : s.throttled.Sublist s.enqueued
  released : s.released ⊆ s.letThrough

theorem Accounts.start (limit : Int) : Accounts limit (.start limit) := by
  constructor <;> simp [Ledger.start, Ledger.running]

variable {limit : Int} {s : Ledger}

theorem Accounts.count_le_one (h : Accounts limit s) (id : String) :
    s.queue.queue.count id + s.running.count id + s.removed.count id + s.dequeued.count id ≤ 1 := by
  have once := nodup_iff_count_le_one.mp h.distinct id
  rw [h.partition id] at once
  exact once

theorem Accounts.letThrough_nodup (h : Accounts limit s) : s.letThrough.Nodup := by
  rw [nodup_iff_count_le_one]
  intro id
  have once := h.count_le_one id
  have split := h.through id
  omega

variable {id : String}

theorem Accounts.queued_not_letThrough (h : Accounts limit s) (queued : id ∈ s.queue.queue) : id ∉ s.letThrough := by
  have once := h.count_le_one id
  have split := h.through id
  have here := count_pos_iff.mpr queued
  rw [← count_eq_zero]
  omega

theorem Accounts.dequeued_letThrough (h : Accounts limit s) (dequeued : id ∈ s.dequeued) : id ∈ s.letThrough := by
  have split := h.through id
  have here := count_pos_iff.mpr dequeued
  rw [← count_pos_iff]
  omega

theorem running_letThrough (s : Ledger) (ids : List String) (fresh : ∀ id ∈ ids, id ∉ s.dequeued) :
    { s with letThrough := s.letThrough ++ ids }.running = s.running ++ ids := by
  simp only [Ledger.running, filter_append]
  congr 1
  exact filter_eq_self.mpr (by simpa using fresh)

theorem running_dequeued (s : Ledger) (distinct : s.letThrough.Nodup) (id : String) :
    { s with dequeued := s.dequeued ++ [id] }.running = s.running.erase id := by
  unfold Ledger.running
  rw [(distinct.filter _).erase_eq_filter, filter_filter]
  refine filter_congr fun other _ => ?_
  by_cases same : other = id <;> by_cases gone : other ∈ s.dequeued <;> simp [same, gone]

/-- Resolving the head of the queue moves it from the queued to the running
executions and leaves the counter alone. -/
theorem Accounts.resolveNext (h : Accounts limit s) : Accounts limit s.resolveNext := by
  have split := resolveNext_split s.queue
  have running : s.resolveNext.running = s.running ++ s.queue.resolveNext.letThrough := by
    refine running_letThrough s _ fun id member dequeued => ?_
    have queued : id ∈ s.queue.queue := by rw [split]; exact mem_append_left _ member
    exact h.queued_not_letThrough queued (h.dequeued_letThrough dequeued)
  have h1 := h.capacity
  have lengths := congrArg List.length split
  have counts := fun id => congrArg (List.count id) split
  simp only [length_append] at lengths
  simp only [count_append] at counts
  refine ⟨?_, h.distinct, fun id => ?_, fun id => ?_, ?_, h.order, ?_⟩
  · rw [running]
    simp only [Ledger.resolveNext, resolveNext_capacity, length_append]
    omega
  · have whole := h.partition id
    have part := counts id
    rw [running]
    simp only [Ledger.resolveNext, count_append]
    omega
  · have whole := h.through id
    rw [running]
    simp only [Ledger.resolveNext, count_append]
    omega
  · refine h.fifo.trans ?_
    rw [split]
    simp [Ledger.resolveNext]
  · exact append_subset.mpr ⟨subset_append_of_subset_left _ h.released, subset_append_right _ _⟩

variable {s' : Ledger}

theorem Accounts.enqueue (h : Accounts limit s) (taken : s.step (.enqueue id) = some s') : Accounts limit s' := by
  simp only [Ledger.step] at taken
  split at taken
  · cases taken
  rename_i fresh
  have none := count_eq_zero.mpr fresh
  rw [h.partition id] at none
  have distinct : (s.enqueued ++ [id]).Nodup :=
    nodup_append'.mpr ⟨h.distinct, nodup_singleton id, by simpa using fresh⟩
  have h1 := h.capacity
  by_cases full : s.queue.capacity - 1 < 0
  · simp only [ConcurrencyQueue.enqueue, full, if_true, append_nil, Option.some.injEq] at taken
    subst taken
    have unremoved : id ∉ s.removed := by rw [← count_eq_zero]; omega
    refine ⟨?_, distinct, fun other => ?_, h.through, ?_, h.order.append (.refl _), h.released⟩
    · change s.queue.capacity - 1 = limit - s.running.length - (s.queue.queue ++ [id]).length
      simp only [length_append, length_singleton]
      omega
    · have whole := h.partition other
      change (s.enqueued ++ [id]).count other = (s.queue.queue ++ [id]).count other +
        s.running.count other + s.removed.count other + s.dequeued.count other
      simp only [count_append]
      omega
    · simp only [filter_append, h.fifo, append_assoc]
      simp [unremoved]
  · simp only [ConcurrencyQueue.enqueue, full, if_false, cons_ne_nil, Option.some.injEq] at taken
    subst taken
    have running := running_letThrough s [id] (by
      simp only [mem_singleton, forall_eq]
      rw [← count_eq_zero]
      omega)
    set s' := { s with letThrough := s.letThrough ++ [id] } with added
    refine ⟨?_, distinct, fun other => ?_, fun other => ?_, h.fifo,
      h.order.trans (sublist_append_left _ _), subset_append_of_subset_left _ h.released⟩
    · change s.queue.capacity - 1 = limit - s'.running.length - s.queue.queue.length
      rw [running]
      simp only [length_append, length_singleton]
      omega
    · have whole := h.partition other
      change (s.enqueued ++ [id]).count other = s.queue.queue.count other +
        s'.running.count other + s.removed.count other + s.dequeued.count other
      rw [running]
      simp only [count_append]
      omega
    · have whole := h.through other
      change (s.letThrough ++ [id]).count other = s'.running.count other + s.dequeued.count other
      rw [running]
      simp only [count_append]
      omega

theorem Accounts.dequeue (h : Accounts limit s) (taken : s.step (.dequeue id) = some s') : Accounts limit s' := by
  simp only [Ledger.step] at taken
  split at taken
  swap
  · cases taken
  rename_i active
  set freed : Ledger := { s with
    queue := { s.queue with capacity := s.queue.capacity + 1 }
    dequeued := s.dequeued ++ [id] } with slot
  have running : freed.running = s.running.erase id := running_dequeued s h.letThrough_nodup id
  have accounts : Accounts limit freed := by
    have h1 := h.capacity
    have length := length_erase_add_one active
    have erased := fun other => (perm_cons_erase active).count_eq other
    refine ⟨?_, h.distinct, fun other => ?_, fun other => ?_, h.fifo, h.order, h.released⟩
    · change s.queue.capacity + 1 = limit - freed.running.length - s.queue.queue.length
      rw [running]
      omega
    · have whole := h.partition other
      have part := erased other
      change s.enqueued.count other = s.queue.queue.count other + freed.running.count other +
        s.removed.count other + (s.dequeued ++ [id]).count other
      rw [running]
      simp only [count_append, count_cons, count_nil] at part ⊢
      omega
    · have whole := h.through other
      have part := erased other
      change s.letThrough.count other = freed.running.count other + (s.dequeued ++ [id]).count other
      rw [running]
      simp only [count_append, count_cons, count_nil] at part ⊢
      omega
  cases taken
  exact accounts.resolveNext

theorem Accounts.remove (h : Accounts limit s) (taken : s.step (.remove id) = some s') : Accounts limit s' := by
  simp only [Ledger.step, Option.some.injEq] at taken
  by_cases queued : id ∈ s.queue.queue
  swap
  · simp only [remove_of_not_mem _ _ queued, queued, if_false, append_nil] at taken
    exact taken ▸ h
  simp only [remove_of_mem _ _ queued, queued, if_true] at taken
  set freed : Ledger := { s with
    queue := ⟨s.queue.capacity + 1, s.queue.queue.erase id⟩
    removed := s.removed ++ [id] } with slot
  have accounts : Accounts limit freed := by
    have h1 := h.capacity
    have length := length_erase_add_one queued
    have outside : id ∉ s.released := fun member =>
      h.queued_not_letThrough queued (h.released member)
    refine ⟨?_, h.distinct, fun other => ?_, h.through, ?_, h.order, h.released⟩
    · change s.queue.capacity + 1 = limit - s.running.length - (s.queue.queue.erase id).length
      omega
    · have whole := h.partition other
      have part := (perm_cons_erase queued).count_eq other
      change s.enqueued.count other = (s.queue.queue.erase id).count other +
        s.running.count other + (s.removed ++ [id]).count other + s.dequeued.count other
      simp only [count_append, count_cons, count_nil] at part ⊢
      omega
    · -- what is removed leaves the queue and was never released, so the order is kept
      have distinct : s.queue.queue.Nodup := nodup_iff_count_le_one.mpr fun other => by
        have once := h.count_le_one other
        omega
      change s.throttled.filter (· ∉ s.removed ++ [id]) = s.released ++ s.queue.queue.erase id
      calc
        _ = (s.throttled.filter (· ∉ s.removed)).filter (· ≠ id) := by
          rw [filter_filter]
          refine filter_congr fun other _ => ?_
          by_cases same : other = id <;> simp [same]
        _ = s.released.filter (· ≠ id) ++ s.queue.queue.filter (· ≠ id) := by
          rw [h.fifo, filter_append]
        _ = _ := by
          rw [Nodup.erase_eq_filter distinct]
          congr 1
          · refine filter_eq_self.mpr fun other member => ?_
            simp only [decide_eq_true_eq]
            rintro rfl
            exact outside member
          · exact filter_congr fun other _ => by
              by_cases same : other = id <;> simp [same]
  subst taken
  exact accounts.resolveNext

theorem Accounts.step (s : Ledger) (op : Op) (s' : Ledger) (h : Accounts limit s)
    (taken : s.step op = some s') : Accounts limit s' := by
  cases op with
  | enqueue id => exact h.enqueue taken
  | dequeue id => exact h.dequeue taken
  | remove id => exact h.remove taken

theorem Accounts.reachable (h : (system limit).Reachable s) : Accounts limit s :=
  h.invariant (Accounts.start limit) Accounts.step

/-! ## Exact accounts and order of release -/

inductive Status
  | queued
  | letThrough
  | removed
  | dequeued
  deriving DecidableEq

def Ledger.HasStatus (s : Ledger) (id : String) : Status → Prop
  | .queued => id ∈ s.queue.queue
  | .letThrough => id ∈ s.running
  | .removed => id ∈ s.removed
  | .dequeued => id ∈ s.dequeued

theorem Accounts.status_unique (h : Accounts limit s) (known : id ∈ s.enqueued) : ∃! status, s.HasStatus id status := by
  have whole := h.partition id
  have once := h.count_le_one id
  have here := count_pos_iff.mpr known
  have some : ∃ status, s.HasStatus id status := by
    by_contra none
    push Not at none
    have n1 := count_eq_zero.mpr (none .queued)
    have n2 := count_eq_zero.mpr (none .letThrough)
    have n3 := count_eq_zero.mpr (none .removed)
    have n4 := count_eq_zero.mpr (none .dequeued)
    omega
  obtain ⟨status, has⟩ := some
  refine ⟨status, has, fun other also => ?_⟩
  -- two different states would count the id twice
  by_contra different
  cases status <;> cases other <;> first
    | exact different rfl
    | have c1 := count_pos_iff.mpr has
      have c2 := count_pos_iff.mpr also
      omega

/-- In every reachable state the counter is the limit less the running and the
queued executions, each enqueued execution has exactly one status, none is let
through twice, and those throttled and not removed leave in order of arrival. -/
theorem accounts_exact_and_fifo (limit : Int) (ops : List Op) (s : Ledger) (done : (system limit).run ops = some s) :
    s.queue.capacity = limit - s.running.length - s.queue.queue.length ∧
    (∀ id ∈ s.enqueued, ∃! status, s.HasStatus id status) ∧
    s.letThrough.Nodup ∧
    s.throttled.filter (· ∉ s.removed) = s.released ++ s.queue.queue ∧
    s.throttled.Sublist s.enqueued := by
  have accounts := Accounts.reachable (TransitionSystem.reachable_run done)
  exact ⟨accounts.capacity, fun _ known => accounts.status_unique known,
    accounts.letThrough_nodup, accounts.fifo, accounts.order⟩

/-- Two slots and four executions: the third is removed from the queue while the
first two run, which lets the fourth through. -/
theorem accounts_exact_and_fifo_after_removal :
    let s : Ledger := ⟨⟨0, []⟩, ["1", "2", "3", "4"], ["3", "4"], ["4"], ["1", "2", "4"], ["1"], ["3"]⟩
    (system 2).run [.enqueue "1", .enqueue "2", .enqueue "3", .enqueue "4", .remove "3", .dequeue "1"] = some s ∧
      s.queue.capacity = 2 - s.running.length - s.queue.queue.length := by
  intro s
  have done : (system 2).run [.enqueue "1", .enqueue "2", .enqueue "3", .enqueue "4",
      .remove "3", .dequeue "1"] = some s := by decide
  exact ⟨done, (accounts_exact_and_fifo 2 _ _ done).1⟩

/-! ## The limit -/

/-- Executions wait only while all slots are taken. -/
def Full (limit : ℕ) (s : Ledger) : Prop := s.queue.queue ≠ [] → limit ≤ s.running.length

def WithinLimit (limit : ℕ) (s : Ledger) : Prop := s.running.length ≤ limit

/-- The operation removes a queued execution while another one is queued. -/
def RemovesBesideQueued (s : Ledger) : Op → Prop
  | .enqueue _ => False
  | .dequeue _ => False
  | .remove id => id ∈ s.queue.queue ∧ 2 ≤ s.queue.queue.length

theorem resolveNext_length (q : ConcurrencyQueue) : (resolveNext q).after.queue.length = q.queue.length - 1 := by
  unfold resolveNext
  split <;> simp_all

variable {op : Op}

/-- The counter and the queue length after a step. With the accounts they fix the
number of running executions. -/
theorem step_counts (taken : s.step op = some s') :
    match op with
    | .enqueue _ => s'.queue.capacity = s.queue.capacity - 1 ∧
        s'.queue.queue.length = s.queue.queue.length + if s.queue.capacity ≤ 0 then 1 else 0
    | .dequeue _ => s'.queue.capacity = s.queue.capacity + 1 ∧
        s'.queue.queue.length = s.queue.queue.length - 1 ∧ 0 < s.running.length
    | .remove id =>
        if id ∈ s.queue.queue then s'.queue.capacity = s.queue.capacity + 1 ∧
          s'.queue.queue.length = s.queue.queue.length - 2
        else s' = s := by
  cases op with
  | enqueue id =>
    simp only [Ledger.step] at taken
    split at taken
    · cases taken
    cases taken
    by_cases full : s.queue.capacity ≤ 0
    · have below : s.queue.capacity - 1 < 0 := by omega
      simp [ConcurrencyQueue.enqueue, full, below]
    · have free : ¬ s.queue.capacity - 1 < 0 := by omega
      simp [ConcurrencyQueue.enqueue, full, free]
  | dequeue id =>
    simp only [Ledger.step] at taken
    split at taken
    swap
    · cases taken
    rename_i active
    cases taken
    refine ⟨?_, ?_, length_pos_of_mem active⟩
    · simp [ConcurrencyQueue.dequeue, resolveNext_capacity]
    · simp [ConcurrencyQueue.dequeue, resolveNext_length]
  | remove id =>
    simp only [Ledger.step, Option.some.injEq] at taken
    subst taken
    by_cases queued : id ∈ s.queue.queue
    · simp only [remove_of_mem _ _ queued, resolveNext_capacity, resolveNext_length, queued,
        if_true, length_erase_of_mem, true_and]
      omega
    · simp [remove_of_not_mem _ _ queued, queued]

theorem Full.step {limit : ℕ} (accounts : Accounts limit s)
    (full : Full limit s) (taken : s.step op = some s') : Full limit s' := by
  have counts := step_counts taken
  have before := accounts.capacity
  have after := (accounts.step _ _ _ taken).capacity
  unfold Full at full ⊢
  rw [← length_pos_iff] at full ⊢
  cases op with
  | enqueue id =>
    simp only at counts
    split at counts <;> omega
  | dequeue id =>
    simp only at counts
    omega
  | remove id =>
    simp only at counts
    split at counts
    · omega
    · exact counts ▸ full

/-- One step keeps the number of running executions within the limit exactly when
it does not remove a queued execution beside another one. -/
theorem withinLimit_step {limit : ℕ} (accounts : Accounts limit s)
    (full : Full limit s) (within : WithinLimit limit s) (taken : s.step op = some s') :
    WithinLimit limit s' ↔ ¬ RemovesBesideQueued s op := by
  have counts := step_counts taken
  have before := accounts.capacity
  have after := (accounts.step _ _ _ taken).capacity
  unfold Full at full
  unfold WithinLimit at within ⊢
  rw [← length_pos_iff] at full
  cases op with
  | enqueue id =>
    simp only [RemovesBesideQueued, not_false_eq_true, iff_true] at counts ⊢
    split at counts <;> omega
  | dequeue id =>
    simp only [RemovesBesideQueued, not_false_eq_true, iff_true] at counts ⊢
    omega
  | remove id =>
    simp only [RemovesBesideQueued] at counts ⊢
    split at counts
    · rename_i queued
      have waiting := length_pos_of_mem queued
      simp only [queued, true_and]
      omega
    · rename_i absent
      simp only [absent, false_and, not_false_eq_true, iff_true]
      exact counts ▸ within

/-- The limit is respected in every state of a run exactly when no step of the run
removes a queued execution while another one is queued. -/
theorem limit_respected_iff (limit : ℕ) (ops : List Op) :
    (system limit).AllStates (WithinLimit limit) (.start limit) ops ↔
      (system limit).AllSteps (fun s op => ¬ RemovesBesideQueued s op) (.start limit) ops := by
  refine TransitionSystem.allStates_iff_allSteps (I := fun s => Accounts limit s ∧ Full limit s)
    (fun s op s' inv _ _ taken => ⟨inv.1.step _ _ _ taken, inv.2.step inv.1 taken⟩)
    (fun s op s' inv within taken => withinLimit_step inv.1 inv.2 within taken)
    ?_ ⟨.start limit, ?_⟩ ops
  · simp [WithinLimit, Ledger.running, Ledger.start]
  · simp [Full, Ledger.start]

/-- One slot: the second of three executions is removed from the queue while the
first runs, and the third is let through beside it. -/
theorem limit_exceeded_by_removal :
    ∃ s, (system 1).run [.enqueue "1", .enqueue "2", .enqueue "3", .remove "2"] = some s ∧
      s.running = ["1", "3"] ∧ ¬ WithinLimit 1 s := by
  refine ⟨⟨⟨-1, []⟩, ["1", "2", "3"], ["2", "3"], ["3"], ["1", "3"], [], ["2"]⟩, ?_, ?_, ?_⟩
  · decide
  · decide
  · unfold WithinLimit
    decide

end N8n.ConcurrencyQueue
