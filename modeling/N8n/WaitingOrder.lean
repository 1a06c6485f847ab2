import Mathlib.Data.String.Basic
import N8n.AbandonedWaiting
import N8n.DecimalOrder

/-! Which run of a waiting node the scan releases. The run indexes are the keys of an object and
are sorted as strings, so the one that is taken for "the earliest outstanding one" need not be
the smallest. -/

namespace N8n.WorkflowExecute

open DecimalOrder List Option

/-- An entry that the scan puts on the stack, and what waits when it does. -/
structure Release where
  waitingExecution : OrderedMap String (SparseArray WaitingEntry)
  nodeName : String
  runIndex : ℕ
  entry : WaitingEntry

namespace Release

def waiting (r : Release) : SparseArray WaitingEntry := (r.waitingExecution.get r.nodeName).getD .empty

def item (x : Execution) (r : Release) : IExecuteData :=
  ⟨x.workflow.nodes.get r.nodeName, padInputs (x.info r.nodeName).inputs (taskDataMain r.entry.main),
    r.entry.source, none, none⟩

def Oldest (r : Release) : Prop := ∀ key ∈ r.waiting.keys, r.runIndex ≤ key

/-- No waiting run begins with a smaller number of as many digits as the smallest run index has. -/
def NoneSortsBefore (r : Release) : Prop :=
  ∀ least ∈ r.waiting.keys, (∀ key ∈ r.waiting.keys, least ≤ key) →
    ∀ key ∈ r.waiting.keys, least ≤ leadingDigits (digitCount least) key

end Release

def releaseFrom (x : Execution) : (fuel : ℕ) → OrderedMap String (SparseArray WaitingEntry) → Option Release
  | 0, _ => none
  | fuel + 1, waitingExecution =>
    let waitingNodes := waitingExecution.entries.map Prod.fst
    match firstCandidate x waitingExecution waitingNodes waitingNodes with
    | none => none
    | some (_, .skipped) => none
    | some (_, .threw) => none
    | some (nodeName, .taken runIndex entry) =>
      if hasItems (taskDataMain entry.main) then some ⟨waitingExecution, nodeName, runIndex, entry⟩
      else releaseFrom x fuel (removeWaiting waitingExecution nodeName runIndex)

def release (x : Execution) (s : RunExecutionData) : Option Release :=
  releaseFrom x (waitingEntries s.waitingExecution + 1) s.waitingExecution

variable {x : Execution} {s scanned : RunExecutionData} {r : Release} {fuel first : ℕ} {keys : List ℕ}

theorem scanWaiting_release (done : scanWaiting x fuel s = some scanned) : scanned.nodeExecutionStack =
      s.nodeExecutionStack ++ ((releaseFrom x fuel s.waitingExecution).map (·.item x)).toList := by
  induction fuel generalizing s with
  | zero =>
    obtain rfl := some.inj done
    simp [releaseFrom]
  | succ fuel ih =>
    rw [scanWaiting] at done
    rw [releaseFrom]
    dsimp only at done ⊢
    generalize firstCandidate x s.waitingExecution _ _ = candidate at done ⊢
    rcases candidate with _ | ⟨nodeName, _ | _ | ⟨runIndex, entry⟩⟩
    · obtain rfl := some.inj done
      simp
    · obtain rfl := some.inj done
      simp
    · cases done
    · dsimp only at done ⊢
      by_cases items : hasItems (taskDataMain entry.main) = true
      · rw [if_pos items] at done ⊢
        obtain rfl := some.inj done
        rfl
      · rw [if_neg items] at done ⊢
        exact ih done

/-! ## The first key -/

theorem firstRunIndex_le (found : firstRunIndex keys = some first) : ∀ key ∈ keys, toString first ≤ toString key := by
  cases keys with
  | nil => cases found
  | cons start keys =>
    obtain rfl := some.inj found
    clear found
    induction keys generalizing start with
    | nil =>
      intro key member
      rw [mem_singleton.mp member]
      exact le_refl _
    | cons next keys ih =>
      rw [foldl_cons]
      split
      · rename_i before
        have rest := ih next
        refine forall_mem_cons.mpr ⟨?_, rest⟩
        exact (rest next mem_cons_self).trans before.le
      · rename_i notBefore
        have rest := forall_mem_cons.mp (ih start)
        refine forall_mem_cons.mpr ⟨rest.1, forall_mem_cons.mpr ⟨?_, rest.2⟩⟩
        exact rest.1.trans (not_lt.mp notBefore)

theorem firstRunIndex_least_iff (found : firstRunIndex keys = some first) :
    (∀ key ∈ keys, first ≤ key) ↔
      ∀ least ∈ keys, (∀ key ∈ keys, least ≤ key) → ∀ key ∈ keys, least ≤ leadingDigits (digitCount least) key := by
  have before := firstRunIndex_le found
  have member := firstRunIndex_mem found
  constructor
  · intro smallest least memberLeast isLeast key memberKey
    obtain rfl : least = first := Nat.le_antisymm (isLeast first member) (smallest least memberLeast)
    rw [← Nat.not_lt, ← toString_lt_iff (isLeast key memberKey)]
    exact not_lt.mpr (before key memberKey)
  · intro noneBefore
    obtain ⟨least, memberLeast, isLeast⟩ : ∃ least, least ∈ keys ∧ ∀ key ∈ keys, least ≤ key :=
      have inhabited : ∃ key, key ∈ keys := ⟨first, member⟩
      ⟨Nat.find inhabited, Nat.find_spec inhabited, fun key memberKey => Nat.find_min' inhabited memberKey⟩
    have notBefore := noneBefore least memberLeast isLeast first member
    rw [← Nat.not_lt, ← toString_lt_iff (isLeast first member)] at notBefore
    obtain rfl := toString_injective (le_antisymm (before least memberLeast) (not_lt.mp notBefore))
    exact isLeast

/-! ## Released entries -/

theorem releaseFrom_first {waitingExecution : OrderedMap String (SparseArray WaitingEntry)}
    (released : releaseFrom x fuel waitingExecution = some r) : firstRunIndex r.waiting.keys = some r.runIndex := by
  induction fuel generalizing waitingExecution with
  | zero => cases released
  | succ fuel ih =>
    rw [releaseFrom] at released
    split at released
    · cases released
    · cases released
    · cases released
    · rename_i taken
      split at released
      · obtain rfl := some.inj released
        exact (candidate_first (firstCandidate_some taken).1).1
      · exact ih released

/-- Over every scan of every state: what it puts on the stack, and when that is the oldest run. -/
theorem releases_oldest_iff (x : Execution) (s : RunExecutionData) : (∀ scanned, scan x s = some scanned →
      scanned.nodeExecutionStack = s.nodeExecutionStack ++ ((release x s).map (·.item x)).toList) ∧
    ((∀ r, release x s = some r → r.Oldest) ↔ ∀ r, release x s = some r → r.NoneSortsBefore) := by
  refine ⟨fun scanned done => scanWaiting_release done, forall_congr' fun r => ?_⟩
  refine forall_congr' fun released => ?_
  exact firstRunIndex_least_iff (releaseFrom_first released)

/-- Runs 2 and 10 of `Merge` wait, each with an item from `A`. -/
def runsWaiting : RunExecutionData where
  runData := .empty
  nodeExecutionStack := []
  waitingExecution := ⟨[("Merge", ((SparseArray.empty.set 2 ⟨[.items [⟨"2"⟩], .null], [some ⟨"A", 0, 2⟩, none]⟩).set 10
    ⟨[.items [⟨"10"⟩], .null], [some ⟨"A", 0, 10⟩, none]⟩))], by decide⟩

/-- Run 10 is released while run 2 waits. -/
theorem later_run_released_first :
    (scan branchesExecution runsWaiting).map (fun scanned => scanned.nodeExecutionStack.map (·.main)) =
        some [[.items [⟨"10"⟩], .items []]] ∧
      ¬∀ r, release branchesExecution runsWaiting = some r → r.Oldest := by
  refine ⟨by decide, fun oldest => ?_⟩
  have found : ((release branchesExecution runsWaiting).any fun r =>
      r.runIndex = 10 ∧ 2 ∈ r.waiting.keys) = true := by decide
  obtain ⟨r, released, holds⟩ := (any_eq_true _ _).mp found
  obtain ⟨late, waits⟩ := of_decide_eq_true holds
  have bound := oldest r released 2 waits
  omega

end N8n.WorkflowExecute
