import Mathlib.Data.List.Perm.Basic
import Mathlib.Data.List.Nodup
import N8n.TransitionSystem

/-! The execution throttle of the regular mode. One signed counter stands for the
free slots and, below zero, for the length of the queue.
A method returns the queue it leaves behind, the events it emits and the
executions it lets through: `enqueue` by returning at once, the others by
resolving the promise that a throttled `enqueue` returned. The debounce of
`concurrency-check` is timing and is left out, only the request to emit is kept. -/

namespace N8n

inductive ConcurrencyEvent
  | executionThrottled (executionId : String)
  | executionReleased (executionId : String)
  | concurrencyCheck (capacity : Int)
  deriving DecidableEq

structure ConcurrencyQueue where
  capacity : Int
  queue : List String
  deriving DecidableEq

namespace ConcurrencyQueue

structure Outcome where
  after : ConcurrencyQueue
  emitted : List ConcurrencyEvent
  letThrough : List String

def resolveNext (q : ConcurrencyQueue) : Outcome :=
  match q.queue with
  | [] => ⟨q, [], []⟩
  | executionId :: rest =>
    ⟨{ q with queue := rest }, [.executionReleased executionId], [executionId]⟩

def enqueue (q : ConcurrencyQueue) (executionId : String) : Outcome :=
  let capacity := q.capacity - 1
  if capacity < 0 then
    ⟨⟨capacity, q.queue ++ [executionId]⟩, [.concurrencyCheck capacity, .executionThrottled executionId], []⟩
  else
    ⟨⟨capacity, q.queue⟩, [.concurrencyCheck capacity], [executionId]⟩

def dequeue (q : ConcurrencyQueue) : Outcome :=
  resolveNext { q with capacity := q.capacity + 1 }

/-- A queued execution is spliced out and the head of what is left is resolved. -/
def remove (q : ConcurrencyQueue) (executionId : String) : Outcome :=
  match q.queue.findIdx? (· == executionId) with
  | some index => resolveNext ⟨q.capacity + 1, q.queue.eraseIdx index⟩
  | none => ⟨q, [], []⟩

theorem resolveNext_split (q : ConcurrencyQueue) :
    q.queue = (resolveNext q).letThrough ++ (resolveNext q).after.queue := by
  unfold resolveNext
  split <;> simp_all

theorem resolveNext_capacity (q : ConcurrencyQueue) : (resolveNext q).after.capacity = q.capacity := by
  unfold resolveNext
  split <;> rfl

theorem remove_of_mem (q : ConcurrencyQueue) (executionId : String) (queued : executionId ∈ q.queue) :
    remove q executionId = resolveNext ⟨q.capacity + 1, q.queue.erase executionId⟩ := by
  have found : q.queue.findIdx? (· == executionId) = some (q.queue.idxOf executionId) := by
    rw [List.findIdx?_eq_some_iff_findIdx_eq]
    exact ⟨List.idxOf_lt_length_iff.mpr queued, rfl⟩
  simp only [remove, found, List.eraseIdx_idxOf_eq_erase]

theorem remove_of_not_mem (q : ConcurrencyQueue) (executionId : String)
    (absent : executionId ∉ q.queue) : remove q executionId = ⟨q, [], []⟩ := by
  have missing : q.queue.findIdx? (· == executionId) = none := by
    rw [List.findIdx?_eq_none_iff]
    intro other member
    simp only [beq_eq_false_iff_ne]
    rintro rfl
    exact absent member
  simp only [remove, missing]

/-! ## Runs -/

inductive Op
  | enqueue (executionId : String)
  | dequeue (executionId : String)
  | remove (executionId : String)
  deriving DecidableEq

/-- The queue with the history of a run. `throttled` and `released` list the
executions that entered and left the queue, in the order in which they did. -/
structure Ledger where
  queue : ConcurrencyQueue
  enqueued : List String
  throttled : List String
  released : List String
  letThrough : List String
  dequeued : List String
  removed : List String
  deriving DecidableEq

def Ledger.running (s : Ledger) : List String := s.letThrough.filter (· ∉ s.dequeued)

def Ledger.start (limit : Int) : Ledger := ⟨⟨limit, []⟩, [], [], [], [], [], []⟩

/-- What `resolveNext` does to the history. -/
def Ledger.resolveNext (s : Ledger) : Ledger :=
  let r := s.queue.resolveNext
  { s with
    queue := r.after
    released := s.released ++ r.letThrough
    letThrough := s.letThrough ++ r.letThrough }

/-- Ids are enqueued once, and only an execution that was let through and has not
dequeued yet may dequeue. Any id may be removed at any time. -/
def Ledger.step (s : Ledger) : Op → Option Ledger
  | .enqueue id =>
    if id ∈ s.enqueued then none else
      let r := s.queue.enqueue id
      some { s with
        queue := r.after
        enqueued := s.enqueued ++ [id]
        throttled := if r.letThrough = [] then s.throttled ++ [id] else s.throttled
        letThrough := s.letThrough ++ r.letThrough }
  | .dequeue id =>
    if id ∈ s.running then
      let r := s.queue.dequeue
      some { s with
        queue := r.after
        released := s.released ++ r.letThrough
        letThrough := s.letThrough ++ r.letThrough
        dequeued := s.dequeued ++ [id] }
    else none
  | .remove id =>
    let r := s.queue.remove id
    some { s with
      queue := r.after
      released := s.released ++ r.letThrough
      letThrough := s.letThrough ++ r.letThrough
      removed := if id ∈ s.queue.queue then s.removed ++ [id] else s.removed }

def system (limit : Int) : TransitionSystem Ledger Op := ⟨.start limit, Ledger.step⟩

end ConcurrencyQueue

end N8n
