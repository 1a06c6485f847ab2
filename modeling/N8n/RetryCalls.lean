import N8n.RetryLoop

/-! Which calls of `runNode` the retry loops make. The counter misses a call that
throws right after a soft failure, because the exception leaves the inner loop
before the increment, and the response object of an entry is filled again in every
round of the outer loop. Both are functions of the outcomes alone, so the number
of calls and their arguments are given in closed form. -/

namespace N8n.WorkflowExecute.TriesInput

open List

variable (input : TriesInput)

def softAt (i : ℕ) : Bool := input.checkFailure (input.outcome i)

/-- The call ends the loops wherever it is made. -/
def settlesAt (i : ℕ) : Bool :=
  match input.outcome i with
  | .throws => false
  | .request _ handled => handled
  | .response _ processed => !input.softAt i && processed.isSome

/-- Calls among the first `n` that throw right after a soft failure. -/
def lost : ℕ → ℕ
  | 0 => 0
  | 1 => 0
  | n + 2 => lost (n + 1) +
      if input.softAt n ∧ input.outcome (n + 1) = .throws then 1 else 0

def startsRound : ℕ → Bool
  | 0 => true
  | i + 1 => !input.softAt i

/-- Rounds of the outer loop within the first `n` calls. -/
def rounds : ℕ → ℕ
  | 0 => 0
  | n + 1 => rounds n + if input.startsRound n then 1 else 0

/-- The response object after it has been filled `k` times. -/
def filled : ℕ → EngineResponse
  | 0 => makeEngineResponse
  | k + 1 => collectResponses input.runData input.metadata (filled k)

/-- What the call number `i` receives. -/
def argument (i : ℕ) : Option EngineResponse :=
  if input.startsRound i then some (input.filled (input.rounds (i + 1))) else none

theorem lost_eq_zero_iff (n : ℕ) : input.lost n = 0 ↔
    ∀ i, i + 1 < n → input.softAt i = true → input.outcome (i + 1) ≠ .throws := by
  induction n with
  | zero => simp [lost]
  | succ n ih =>
    cases n with
    | zero => simp [lost]
    | succ n =>
      simp only [lost, Nat.add_eq_zero_iff, ih]
      constructor
      · rintro ⟨before, last⟩ i bound soft threw
        by_cases same : i = n
        · subst same
          simp [soft, threw] at last
        · exact before i (by omega) soft threw
      · intro all
        refine ⟨fun i bound => all i (by omega), ?_⟩
        by_cases bad : input.softAt n = true ∧ input.outcome (n + 1) = .throws
        · exact absurd bad.2 (all n (by omega) bad.1)
        · simp [bad]

variable {n : ℕ}

theorem lost_after_soft (soft : input.softAt n = true)
    (threw : input.outcome (n + 1) = .throws) : input.lost (n + 2) = input.lost (n + 1) + 1 := by
  simp [lost, soft, threw]

theorem lost_of_returns (returned : input.outcome (n + 1) ≠ .throws) : input.lost (n + 2) = input.lost (n + 1) := by
  simp [lost, returned]

theorem lost_of_startsRound (first : input.startsRound n = true) : input.lost (n + 1) = input.lost n := by
  cases n with
  | zero => rfl
  | succ n =>
    simp only [startsRound, Bool.not_eq_true'] at first
    simp [lost, first]

variable {i : ℕ}

theorem not_settlesAt_of_softAt (soft : input.softAt i = true) : input.settlesAt i = false := by
  unfold settlesAt
  cases outcome : input.outcome i with
  | throws => rfl
  | request _ _ => simp [softAt, outcome, checkFailure] at soft
  | response _ _ => simp [soft]

/-! ## One round -/

/-- The loops after some calls, `inRound` being one between a call and the end of
its round and zero between rounds. -/
structure Progress (t : Tries) (inRound : ℕ) : Prop where
  count : t.tryIndex + input.lost t.calls.length + inRound = t.calls.length
  calls : t.calls = (List.range t.calls.length).map input.argument
  results : t.subNodeExecutionResults = input.filled (input.rounds t.calls.length)
  unsettled : ∀ i, i + inRound < t.calls.length → input.settlesAt i = false
  within : t.calls.length ≤ input.node.tries ∨ 0 < input.lost input.node.tries

variable {input}

theorem Progress.start : input.Progress ⟨0, makeEngineResponse, [], none, false⟩ 0 where
  count := rfl
  calls := rfl
  results := rfl
  unsettled := fun i bound => absurd bound (by simp)
  within := .inl (Nat.zero_le _)

variable {t : Tries} {inRound : ℕ}

theorem Progress.calls_append (p : input.Progress t inRound)
    (arg : Option EngineResponse) (same : arg = input.argument t.calls.length) :
    t.calls ++ [arg] = (List.range (t.calls ++ [arg]).length).map input.argument := by
  rw [length_append, length_singleton, range_succ, map_append, ← p.calls, same]
  rfl

theorem Progress.retry (p : input.Progress t 1)
    (soft : input.softAt (t.calls.length - 1) = true) (left : t.tryIndex + 1 < input.node.tries) (tryIndex : ℕ)
    (next : tryIndex = if input.outcome t.calls.length = .throws then t.tryIndex else t.tryIndex + 1) :
    input.Progress { t with calls := t.calls ++ [none], tryIndex := tryIndex } 1 := by
  have count := p.count
  obtain ⟨n, length⟩ : ∃ n, t.calls.length = n + 1 := ⟨t.calls.length - 1, by omega⟩
  rw [length, Nat.add_sub_cancel] at soft
  rw [length] at next count
  have inner : input.startsRound (n + 1) = false := by simp [startsRound, soft]
  have lost_step : tryIndex + input.lost (n + 2) = t.tryIndex + input.lost (n + 1) + 1 := by
    by_cases threw : input.outcome (n + 1) = .throws
    · rw [next, if_pos threw, input.lost_after_soft soft threw]
      omega
    · rw [next, if_neg threw, input.lost_of_returns threw]
      omega
  have grown : (t.calls ++ [none]).length = n + 2 := by simp [length]
  refine ⟨?_, p.calls_append none ?_, ?_, ?_, ?_⟩
  · show tryIndex + input.lost (t.calls ++ [none]).length + 1 = (t.calls ++ [none]).length
    rw [grown]
    omega
  · simp [argument, length, inner]
  · show t.subNodeExecutionResults = input.filled (input.rounds (t.calls ++ [none]).length)
    rw [grown, p.results, length]
    simp [rounds, inner]
  · intro i bound
    change i + 1 < (t.calls ++ [none]).length at bound
    rw [grown] at bound
    by_cases last : i = n
    · subst last
      exact input.not_settlesAt_of_softAt soft
    · exact p.unsettled i (by omega)
  · show (t.calls ++ [none]).length ≤ input.node.tries ∨ _
    rw [grown]
    have within := p.within
    rw [length] at within
    -- the call that goes past the limit finds a counter that lags behind
    by_cases full : n + 1 = input.node.tries
    · right
      rw [← full]
      omega
    · omega

theorem retrySoftFailures_progress (left : ℕ) (t : Tries) (runNodeData : Attempt)
    (p : input.Progress t 1) (tries : t.tryIndex + left + 1 = input.node.tries)
    (last : runNodeData = input.outcome (t.calls.length - 1)) :
    input.Progress (input.retrySoftFailures left t runNodeData).1 1 ∧ (input.retrySoftFailures left t runNodeData).2 =
        input.outcome ((input.retrySoftFailures left t runNodeData).1.calls.length - 1) ∧
      (input.retrySoftFailures left t runNodeData).1.tryIndex < input.node.tries ∧
      (input.checkFailure (input.retrySoftFailures left t runNodeData).2 = true →
        (input.retrySoftFailures left t runNodeData).1.tryIndex + 1 = input.node.tries) := by
  induction left generalizing t runNodeData with
  | zero => exact ⟨p, last, by show t.tryIndex < _; omega, fun _ => tries⟩
  | succ left ih =>
    by_cases failed : input.checkFailure runNodeData = true
    · have soft : input.softAt (t.calls.length - 1) = true := by rw [softAt, ← last]; exact failed
      have retried := fun tryIndex next => p.retry soft (by omega) tryIndex next
      have now : (t.calls ++ [none]).length - 1 = t.calls.length := by simp
      cases outcome : input.outcome t.calls.length with
      | throws =>
        simp only [retrySoftFailures, failed, if_true, outcome]
        refine ⟨retried t.tryIndex (by simp [outcome]), ?_, by omega, fun impossible => ?_⟩
        · rw [now, outcome]
        · simp [checkFailure] at impossible
      | request request handled =>
        simp only [retrySoftFailures, failed, if_true, outcome]
        exact ih _ _ (retried (t.tryIndex + 1) (by simp [outcome]))
          (by show t.tryIndex + 1 + left + 1 = _; omega) (by rw [now, outcome])
      | response data processed =>
        simp only [retrySoftFailures, failed, if_true, outcome]
        exact ih _ _ (retried (t.tryIndex + 1) (by simp [outcome]))
          (by show t.tryIndex + 1 + left + 1 = _; omega) (by rw [now, outcome])
    · simp only [retrySoftFailures, failed]
      exact ⟨p, last, by show t.tryIndex < _; omega, fun soft => absurd soft failed⟩

variable (input) in
theorem retrySoftFailures_tryIndex_le (left : ℕ) (t : Tries) (runNodeData : Attempt) :
    t.tryIndex ≤ (input.retrySoftFailures left t runNodeData).1.tryIndex := by
  induction left generalizing t runNodeData with
  | zero => exact Nat.le_refl _
  | succ left ih =>
    simp only [retrySoftFailures]
    split
    · split
      · exact Nat.le_refl _
      · have more := ih { t with calls := t.calls ++ [none], tryIndex := t.tryIndex + 1 } (input.outcome t.calls.length)
        exact Nat.le_trans (Nat.le_succ _) more
    · exact Nat.le_refl _

theorem Progress.call (p : input.Progress t 0) (left : t.tryIndex < input.node.tries)
    (first : input.startsRound t.calls.length = true) :
    input.Progress { t with
      subNodeExecutionResults := collectResponses input.runData input.metadata t.subNodeExecutionResults
      calls := t.calls ++ [some (collectResponses input.runData input.metadata t.subNodeExecutionResults)] } 1 := by
  have count := p.count
  have results : collectResponses input.runData input.metadata t.subNodeExecutionResults =
      input.filled (input.rounds (t.calls.length + 1)) := by
    simp [rounds, first, filled, p.results]
  refine ⟨?_, p.calls_append _ ?_, ?_, ?_, ?_⟩
  · simp only [length_append, length_singleton, input.lost_of_startsRound first]
    omega
  · simp [argument, first, results]
  · simpa using results
  · intro i bound
    simp only [length_append, length_singleton] at bound
    exact p.unsettled i (by omega)
  · simp only [length_append, length_singleton]
    have within := p.within
    by_cases full : t.calls.length = input.node.tries
    · right
      rw [← full]
      omega
    · omega

@[simp] theorem finishTry_calls (t : Tries) : (input.finishTry t).1.calls = t.calls := by
  simp only [finishTry]
  split_ifs <;> rfl

theorem settle_calls (t : Tries) (last : Attempt) : (input.settle t last).1.calls = t.calls := by
  cases last with
  | throws => rfl
  | request _ _ => rfl
  | response _ processed => cases processed <;> simp [settle]

theorem settle_of_none (t : Tries) (last : Attempt) (threw : (input.settle t last).2 = none) :
    (input.settle t last).1 = t := by
  cases last with
  | throws => rfl
  | request _ _ => rfl
  | response _ processed =>
    cases processed with
    | none => rfl
    | some _ => simp [settle] at threw

theorem settle_isSome (t : Tries) (i : ℕ) : (input.settle t (input.outcome i)).2.isSome = true →
      input.settlesAt i = true ∨ input.softAt i = true := by
  intro ended
  cases outcome : input.outcome i with
  | throws => simp [outcome, settle] at ended
  | request _ handled =>
    left
    cases handled with
    | false => simp [outcome, settle] at ended
    | true => simp [settlesAt, outcome]
  | response _ processed =>
    cases processed with
    | none => simp [outcome, settle] at ended
    | some _ => cases soft : input.softAt i <;> simp [settlesAt, outcome, soft]

theorem settlesAt_of_settle_none (threw : (input.settle t (input.outcome i)).2 = none) : input.settlesAt i = false := by
  cases outcome : input.outcome i with
  | throws => simp [settlesAt, outcome]
  | request _ handled =>
    cases handled with
    | false => simp [settlesAt, outcome]
    | true => simp [outcome, settle] at threw
  | response _ processed =>
    cases processed with
    | none => simp [settlesAt, outcome]
    | some _ => simp [outcome, settle] at threw

/-! ## All rounds -/

/-- The calls that were made when the loops are left: the last one settled the node
and no earlier one did, or none did and the counter reached the limit. -/
structure Made (input : TriesInput) (t : Tries) : Prop where
  calls : t.calls = (List.range t.calls.length).map input.argument
  within : t.calls.length ≤ input.node.tries ∨ 0 < input.lost input.node.tries
  unsettled : ∀ i, i + 1 < t.calls.length → input.settlesAt i = false
  ended : (∃ i, t.calls.length = i + 1 ∧ input.settlesAt i = true) ∨
    input.node.tries + input.lost t.calls.length = t.calls.length ∧ ∀ i < t.calls.length, input.settlesAt i = false

theorem Progress.exhausted (p : input.Progress t 0) (full : t.tryIndex = input.node.tries) : Made input t where
  calls := p.calls
  within := p.within
  unsettled := fun i bound => p.unsettled i (by omega)
  ended := .inr ⟨by have := p.count; omega, fun i bound => p.unsettled i (by omega)⟩

structure Handover (input : TriesInput) (before after : Tries) : Prop where
  progress : input.Progress { after with tryIndex := after.tryIndex + 1 } 0
  bound : after.tryIndex < input.node.tries
  advanced : before.tryIndex ≤ after.tryIndex
  first : after.tryIndex + 1 < input.node.tries → input.startsRound after.calls.length = true

theorem tryNode_progress (notPinned : input.pinData = none) (p : input.Progress t 0)
    (left : t.tryIndex < input.node.tries) (first : input.startsRound t.calls.length = true) :
    ((input.tryNode t).2.isSome = true → Made input (input.tryNode t).1) ∧
      ((input.tryNode t).2 = none → Handover input t (input.tryNode t).1) := by
  have retried := retrySoftFailures_progress (input.node.tries - 1 - t.tryIndex) _
    (input.outcome t.calls.length) (p.call left first)
    (by show t.tryIndex + _ + 1 = _; omega) (by simp)
  have advanced := input.retrySoftFailures_tryIndex_le (input.node.tries - 1 - t.tryIndex) { t with
      subNodeExecutionResults := collectResponses input.runData input.metadata t.subNodeExecutionResults
      calls := t.calls ++ [some (collectResponses input.runData input.metadata t.subNodeExecutionResults)] }
    (input.outcome t.calls.length)
  simp only [tryNode, notPinned]
  generalize input.retrySoftFailures (input.node.tries - 1 - t.tryIndex) _ _ = after at retried advanced ⊢
  obtain ⟨progress, last, bound, softLast⟩ := retried
  rw [last] at softLast ⊢
  have count := progress.count
  obtain ⟨n, length⟩ : ∃ n, after.1.calls.length = n + 1 := ⟨after.1.calls.length - 1, by omega⟩
  rw [length, Nat.add_sub_cancel] at softLast ⊢
  rw [length] at count
  constructor
  · intro ended
    have made : (input.settle after.1 (input.outcome n)).1.calls = after.1.calls := settle_calls _ _
    refine ⟨by rw [made]; exact progress.calls, by rw [made]; exact progress.within,
      by rw [made]; exact progress.unsettled, ?_⟩
    rw [made, length]
    cases settled : input.settlesAt n with
    | true => exact .inl ⟨n, rfl, settled⟩
    | false =>
      have soft := (settle_isSome _ n ended).resolve_left (by simp [settled])
      have lastTry := softLast soft
      refine .inr ⟨by omega, fun i bound => ?_⟩
      by_cases same : i = n
      · exact same ▸ settled
      · exact progress.unsettled i (by omega)
  · intro threw
    have unsettled := settlesAt_of_settle_none threw
    rw [settle_of_none _ _ threw]
    refine ⟨⟨?_, progress.calls, progress.results, fun i bound => ?_, progress.within⟩, bound, advanced, fun more => ?_⟩
    · show after.1.tryIndex + 1 + input.lost after.1.calls.length + 0 = after.1.calls.length
      rw [length]
      omega
    · change i + 0 < after.1.calls.length at bound
      by_cases same : i = n
      · exact same ▸ unsettled
      · exact progress.unsettled i (by omega)
    · rw [length]
      cases soft : input.softAt n with
      | true => exact absurd (softLast soft) (by omega)
      | false => simp [startsRound, soft]

theorem Progress.congr {t' : Tries} (p : input.Progress t inRound)
    (tryIndex : t'.tryIndex = t.tryIndex) (calls : t'.calls = t.calls)
    (results : t'.subNodeExecutionResults = t.subNodeExecutionResults) : input.Progress t' inRound := by
  obtain ⟨a, b, c, d, e⟩ := p
  rw [← calls] at a b c d e
  exact ⟨tryIndex ▸ a, b, results ▸ c, d, e⟩

theorem tryLoop_made (notPinned : input.pinData = none) (rounds : ℕ) (t : Tries)
    (p : input.Progress t 0) (bound : t.tryIndex ≤ input.node.tries) (enough : input.node.tries ≤ t.tryIndex + rounds)
    (first : t.tryIndex < input.node.tries → input.startsRound t.calls.length = true) :
    Made input (input.tryLoop rounds t).1 := by
  induction rounds generalizing t with
  | zero => exact p.exhausted (by omega)
  | succ rounds ih =>
    by_cases left : t.tryIndex < input.node.tries
    · simp only [tryLoop, left, if_true]
      have round := tryNode_progress (t := { t with executionError := false }) notPinned
        (p.congr rfl rfl rfl) left (first left)
      cases result : (input.tryNode { t with executionError := false }).2 with
      | some r => exact round.1 (by simp [result])
      | none =>
        have handover := round.2 result
        have advanced := handover.advanced
        refine ih _ (handover.progress.congr rfl rfl rfl) handover.bound ?_ handover.first
        show _ ≤ _ + 1 + rounds
        simp only at advanced
        omega
    · simp only [tryLoop, left, if_false]
      exact p.exhausted (by omega)

variable (input)

theorem runTries_made (notPinned : input.pinData = none) : Made input input.runTries.1 :=
  tryLoop_made notPinned _ _ .start (Nat.zero_le _) (Nat.le_add_left _ _) fun _ => rfl

theorem tries_eq (node : RetrySettings) :
    if node.retryOnFail then 2 ≤ node.tries ∧ node.tries ≤ 5 else node.tries = 1 := by
  unfold RetrySettings.tries
  split
  · simp only
    omega
  · rfl

theorem tries_pos : 0 < input.node.tries := by
  have tries := tries_eq input.node
  split at tries <;> omega

theorem runTries_pinned (pinned : input.pinData.isSome = true) : input.runTries.1.calls = [] := by
  obtain ⟨data, pinned⟩ := Option.isSome_iff_exists.mp pinned
  obtain ⟨rounds, tries⟩ : ∃ rounds, input.node.tries = rounds + 1 :=
    ⟨input.node.tries - 1, by have := input.tries_pos; omega⟩
  simp [runTries, tries, tryLoop, tryNode, pinned]

theorem Made.not_settlesAt (made : Made input t) (bound : i + 1 < t.calls.length) : ¬input.settlesAt i = true := by
  simp [made.unsettled i bound]

theorem Made.exists_settlesAt (made : Made input t) (early : t.calls.length < input.node.tries) :
    ∃ i, t.calls.length = i + 1 ∧ input.settlesAt i = true := by
  rcases made.ended with settled | ⟨exhausted, _⟩
  · exact settled
  · omega

/-! ## The number of calls -/

/-- The first call of a node with two tries returns an error item and the repeated
call throws, twice over. -/
def alternating : TriesInput where
  node := ⟨true, some 2, false⟩
  pinData := none
  metadata := none
  runData := .empty
  jsonError := fun item => .value item.json
  outcome := fun i => if i % 2 = 0 then .response (some [.items [⟨"failed"⟩]]) none else .throws
  waitTill := false

/-- Every call receives the responses to the actions whose run slot exists, in
their order and once each. -/
def RespondsExactly (subNodeExecutionData : SubNodeExecutionData) : Prop :=
  ∀ arg ∈ input.runTries.1.calls, arg = some ⟨subNodeExecutionData.actions.filterMap (actionResponse input.runData),
      subNodeExecutionData.metadata⟩

variable {input} {subNodeExecutionData : SubNodeExecutionData}

theorem filled_actionResponses (k : ℕ)
    (resumed : input.metadata.bind (·.subNodeExecutionData) = some subNodeExecutionData) :
    input.filled (k + 1) = ⟨(input.filled k).actionResponses ++
        subNodeExecutionData.actions.filterMap (actionResponse input.runData),
      subNodeExecutionData.metadata⟩ := by
  simp [filled, collectResponses, resumed]

theorem filled_of_no_responses (k : ℕ)
    (resumed : input.metadata.bind (·.subNodeExecutionData) = some subNodeExecutionData)
    (empty : subNodeExecutionData.actions.filterMap (actionResponse input.runData) = []) :
    (input.filled k).actionResponses = [] := by
  induction k with
  | zero => rfl
  | succ k ih =>
    rw [filled_actionResponses k resumed]
    simp only [ih, empty, append_nil]

variable (input) in
theorem rounds_succ_pos (i : ℕ) : ∃ k, input.rounds (i + 1) = k + 1 := by
  induction i with
  | zero => exact ⟨0, rfl⟩
  | succ i ih =>
    obtain ⟨k, eq⟩ := ih
    exact ⟨k + if input.startsRound (i + 1) then 1 else 0, by rw [rounds, eq]; omega⟩

theorem respondsExactly_iff_argument (notPinned : input.pinData = none) : input.RespondsExactly subNodeExecutionData ↔
      ∀ i < input.runTries.1.calls.length, input.argument i = some
        ⟨subNodeExecutionData.actions.filterMap (actionResponse input.runData), subNodeExecutionData.metadata⟩ := by
  have calls := (input.runTries_made notPinned).calls
  unfold RespondsExactly
  constructor
  · intro exactly i bound
    refine exactly _ ?_
    rw [calls]
    exact List.mem_map.mpr ⟨i, mem_range.mpr bound, rfl⟩
  · intro all arg member
    rw [calls] at member
    obtain ⟨i, bound, rfl⟩ := List.mem_map.mp member
    exact all i (mem_range.mp bound)

section

variable (resumed : input.metadata.bind (·.subNodeExecutionData) = some subNodeExecutionData)
include resumed

/-- The first call always receives what it should. -/
theorem argument_zero :
    input.argument 0 = some ⟨subNodeExecutionData.actions.filterMap (actionResponse input.runData),
        subNodeExecutionData.metadata⟩ := by
  have first : input.filled (input.rounds (0 + 1)) = input.filled (0 + 1) := rfl
  simp only [argument, startsRound, if_true, first, filled_actionResponses 0 resumed]
  rfl

omit resumed in
/-- A call whose number is below the limit is made unless an earlier one settled. -/
theorem Made.reached (made : Made input t) (bound : i + 1 < input.node.tries)
    (unsettled : ∀ j ≤ i, ¬input.settlesAt j = true) : i + 1 < t.calls.length := by
  by_contra short
  obtain ⟨j, length, last⟩ := made.exists_settlesAt input (by omega)
  exact unsettled j (by omega) last

theorem no_responses_of_argument_one (second : input.argument 1 =
    some ⟨subNodeExecutionData.actions.filterMap (actionResponse input.runData),
        subNodeExecutionData.metadata⟩) :
    subNodeExecutionData.actions.filterMap (actionResponse input.runData) = [] := by
  cases soft : input.softAt 0 with
  | true => simp [argument, startsRound, soft] at second
  | false =>
    have nothing : (input.filled 0).actionResponses = [] := rfl
    have two : input.rounds (1 + 1) = 1 + 1 := by simp [rounds, startsRound, soft]
    rw [argument, two, filled_actionResponses 1 resumed, filled_actionResponses 0 resumed] at second
    simpa [startsRound, soft, nothing] using second

theorem argument_of_no_responses (empty : subNodeExecutionData.actions.filterMap (actionResponse input.runData) = [])
    (first : input.startsRound i = true) :
    input.argument i = some ⟨subNodeExecutionData.actions.filterMap (actionResponse input.runData),
        subNodeExecutionData.metadata⟩ := by
  obtain ⟨k, rounds⟩ := input.rounds_succ_pos i
  have before := filled_of_no_responses k resumed empty
  simp [argument, first, rounds, filled_actionResponses k resumed, before]

omit resumed in
theorem Made.startsRound (made : Made input t) (notRetried : ∀ i, i + 1 < input.node.tries → input.softAt i = true →
      ∃ j < i, input.settlesAt j = true) (bound : i < t.calls.length) : input.startsRound i = true := by
  have unsettled : ∀ k, k < t.calls.length → ¬∃ j < k, input.settlesAt j = true := by
    rintro k inside ⟨j, below, settled⟩
    exact made.not_settlesAt input (i := j) (by omega) settled
  have none_lost : input.lost input.node.tries = 0 ∨ t.calls.length ≤ input.node.tries := by
    by_contra both
    have lost : ¬input.lost input.node.tries = 0 := fun zero => both (.inl zero)
    rw [input.lost_eq_zero_iff] at lost
    refine lost fun k below soft _ => ?_
    exact unsettled k (by omega) (notRetried k below soft)
  cases i with
  | zero => rfl
  | succ k =>
    cases soft : input.softAt k with
    | false => simp [TriesInput.startsRound, soft]
    | true =>
      have within := made.within
      exact absurd (notRetried k (by omega) soft) (unsettled k (by omega))

theorem respondsExactly_iff :
    input.RespondsExactly subNodeExecutionData ↔
      input.pinData.isSome = true ∨ input.node.tries = 1 ∨ input.settlesAt 0 = true ∨
        subNodeExecutionData.actions.filterMap (actionResponse input.runData) = [] ∧
          ∀ i, i + 1 < input.node.tries → input.softAt i = true → ∃ j < i, input.settlesAt j = true := by
  by_cases pinned : input.pinData.isSome = true
  · simp [RespondsExactly, input.runTries_pinned pinned, pinned]
  have notPinned : input.pinData = none := by simpa using pinned
  have made := input.runTries_made notPinned
  rw [respondsExactly_iff_argument notPinned]
  simp only [pinned, Bool.false_eq_true, false_or]
  constructor
  · intro all
    by_cases one : input.node.tries = 1
    · exact .inl one
    by_cases settled : input.settlesAt 0 = true
    · exact .inr (.inl settled)
    refine .inr (.inr ⟨?_, fun i bound soft => ?_⟩)
    · have tries := input.tries_pos
      refine no_responses_of_argument_one resumed (all 1 (made.reached (i := 0) (by omega) ?_))
      intro j low
      rw [Nat.le_zero.mp low]
      exact settled
    · by_contra unsettled
      have next := all (i + 1) (made.reached bound fun j low isSettled => by
        by_cases same : j = i
        · rw [same, input.not_settlesAt_of_softAt soft] at isSettled
          cases isSettled
        · exact unsettled ⟨j, by omega, isSettled⟩)
      simp [argument, startsRound, soft] at next
  · rintro (one | settled | ⟨empty, notRetried⟩) i bound
    · have none_lost : input.lost input.node.tries = 0 := by rw [one]; rfl
      have within := made.within
      have zero : i = 0 := by omega
      exact zero ▸ argument_zero resumed
    · have zero : i = 0 := by
        by_contra more
        exact made.not_settlesAt input (i := 0) (by omega) settled
      exact zero ▸ argument_zero resumed
    · exact argument_of_no_responses resumed empty (made.startsRound notRetried bound)

end

/-- The entry that resumes `Agent` after one run of `Tool`, with the given outcomes. -/
def resumedAgent (outcome : ℕ → Attempt) : TriesInput where
  node := ⟨true, some 2, false⟩
  pinData := none
  metadata := some ⟨true, some ⟨[⟨callTool "call", "Tool", 0⟩], "{}"⟩, false, none⟩
  runData := OrderedMap.empty.set "Tool" [⟨some (OrderedMap.empty.set .aiTool [[⟨"{}"⟩]])⟩]
  jsonError := fun _ => .undefined
  outcome := outcome
  waitTill := false

def answer : Attempt := .response (some [.items [⟨"done"⟩]]) (some (some [.items [⟨"done"⟩]]))

end N8n.WorkflowExecute.TriesInput
