import N8n.WorkflowLoopController
import Mathlib.Tactic.Common

/-! The retry policy of the workflow loop over whole runs. A failure signature is
repaired at most once, the post-submit counter counts the outcomes after the first
submit, and an exhausted counter stops all editing. -/

namespace N8n.WorkflowLoop

open List Option

variable {Patch : Type}

namespace WorkflowLoopAction

def repairs : WorkflowLoopAction Patch → Bool
  | .patch .. => true
  | .rebuild .. => true
  | .ignored _ => false
  | .continueBuilding _ => false
  | .verify _ => false
  | .done .. => false
  | .blocked _ => false

def edits : WorkflowLoopAction Patch → Bool
  | .continueBuilding _ => true
  | action => action.repairs

end WorkflowLoopAction

def Turn.repairsFor (signature : String) (turn : Turn Patch) : Bool :=
  turn.result.action.repairs &&
    match turn.report with
    | .verification verdict => verdict.failureSignature == some signature
    | .build _ => false

/-- The build outcomes among the reports that are not stale for the run of `state`. -/
def freshOutcomes (state : WorkflowLoopState) (reports : List (Report Patch)) :
    List WorkflowBuildOutcome :=
  reports.filterMap fun
    | .build outcome => if isStaleRunReport state outcome.runId then none else some outcome
    | .verification _ => none

def afterFirstSubmit (outcomes : List WorkflowBuildOutcome) : ℕ :=
  (outcomes.dropWhile fun outcome => !outcome.submitted).tail.length

section Attempts

variable (attempts : List AttemptRecord) (attempt : AttemptRecord) (signature : String)

theorem hasRepeatedRepair_append :
    hasRepeatedRepair (attempts ++ [attempt]) signature =
      (hasRepeatedRepair attempts signature || hasRepeatedRepair [attempt] signature) := by
  simp [hasRepeatedRepair]

@[simp] theorem applyRemediationToAttempt_action (remediation : Option RemediationMetadata) :
    (applyRemediationToAttempt attempt remediation).action = attempt.action := by
  cases remediation <;> rfl

@[simp] theorem applyRemediationToAttempt_failureSignature
    (remediation : Option RemediationMetadata) :
    (applyRemediationToAttempt attempt remediation).failureSignature =
      attempt.failureSignature := by
  cases remediation <;> rfl

end Attempts

/-- What a transition may do to the fields that the retry policy rests on: nothing,
or count one more build outcome. -/
structure Kept (state state' : WorkflowLoopState) : Prop where
  runId : state'.runId = state.runId
  seen : state'.successfulSubmitSeen = state.successfulSubmitSeen
  used : state'.postSubmitRemediationSubmitsUsed = state.postSubmitRemediationSubmitsUsed

theorem Kept.refl (state : WorkflowLoopState) : Kept state state := ⟨rfl, rfl, rfl⟩

section Verdicts

variable (state : WorkflowLoopState) (attempts : List AttemptRecord)
variable (verdict : VerificationResult Patch) (attempt : AttemptRecord)
variable (remediation : Option RemediationMetadata)

theorem escalateToRepair_kept (action : WorkflowLoopAction Patch) :
    Kept state (escalateToRepair state attempts verdict attempt remediation action).state := by
  simp only [escalateToRepair]
  split_ifs <;> exact ⟨rfl, rfl, rfl⟩

theorem handleVerdict_kept :
    Kept state (handleVerdict state attempts verdict attempt remediation).state := by
  simp only [handleVerdict]
  cases verdict.verdict with
  | needsPatch => exact escalateToRepair_kept ..
  | needsRebuild => exact escalateToRepair_kept ..
  | verified => exact ⟨rfl, rfl, rfl⟩
  | triggerOnly => exact ⟨rfl, rfl, rfl⟩
  | needsUserInput => exact ⟨rfl, rfl, rfl⟩
  | failedTerminal => exact ⟨rfl, rfl, rfl⟩

theorem handleVerificationVerdict_kept :
    Kept state (handleVerificationVerdict state attempts verdict).state := by
  simp only [handleVerificationVerdict]
  split_ifs
  · exact .refl state
  · split
    · exact ⟨rfl, rfl, rfl⟩
    · exact handleVerdict_kept ..

theorem escalateToRepair_edits (action : WorkflowLoopAction Patch)
    (edits : (escalateToRepair state attempts verdict attempt remediation action).action.edits =
      true) :
    (truthy verdict.failureSignature = true →
        hasRepeatedRepair attempts (verdict.failureSignature.getD "") = false) ∧
      state.postSubmitRemediationSubmitsUsed.getD 0 < MAX_POST_SUBMIT_REMEDIATION_SUBMITS ∧
      (escalateToRepair state attempts verdict attempt remediation action).attempt = attempt := by
  by_cases repeated : (truthy verdict.failureSignature &&
      hasRepeatedRepair attempts (verdict.failureSignature.getD "")) = true
  · simp [escalateToRepair, repeated, blockRepair, WorkflowLoopAction.edits,
      WorkflowLoopAction.repairs] at edits
  by_cases exhausted : MAX_POST_SUBMIT_REMEDIATION_SUBMITS ≤
      state.postSubmitRemediationSubmitsUsed.getD 0
  · simp [escalateToRepair, repeated, exhausted, blockRepair, WorkflowLoopAction.edits,
      WorkflowLoopAction.repairs] at edits
  refine ⟨fun signed => ?_, Nat.lt_of_not_le exhausted, ?_⟩
  · simpa [signed] using repeated
  · simp only [escalateToRepair, if_neg repeated, if_neg exhausted]

theorem handleVerificationVerdict_edits
    (edits : (handleVerificationVerdict state attempts verdict).action.edits = true) :
    (truthy verdict.failureSignature = true →
        hasRepeatedRepair attempts (verdict.failureSignature.getD "") = false) ∧
      state.postSubmitRemediationSubmitsUsed.getD 0 < MAX_POST_SUBMIT_REMEDIATION_SUBMITS ∧
      ((handleVerificationVerdict state attempts verdict).attempt.action = .patch ∨
        (handleVerificationVerdict state attempts verdict).attempt.action = .rebuild) ∧
      (handleVerificationVerdict state attempts verdict).attempt.failureSignature =
        verdict.failureSignature := by
  simp only [handleVerificationVerdict] at edits ⊢
  split_ifs at edits ⊢
  · cases edits
  · split at edits
    · cases edits
    · simp only [handleVerdict] at edits ⊢
      cases kind : verdict.verdict with
      | verified => simp [kind, WorkflowLoopAction.edits, WorkflowLoopAction.repairs] at edits
      | triggerOnly => simp [kind, WorkflowLoopAction.edits, WorkflowLoopAction.repairs] at edits
      | needsUserInput =>
        simp [kind, WorkflowLoopAction.edits, WorkflowLoopAction.repairs] at edits
      | failedTerminal =>
        simp [kind, WorkflowLoopAction.edits, WorkflowLoopAction.repairs] at edits
      | needsPatch =>
        simp only [kind] at edits
        obtain ⟨fresh, budget, same⟩ := escalateToRepair_edits _ _ _ _ _ _ edits
        refine ⟨fresh, budget, ?_⟩
        rw [same]
        simp
      | needsRebuild =>
        simp only [kind] at edits
        obtain ⟨fresh, budget, same⟩ := escalateToRepair_edits _ _ _ _ _ _ edits
        refine ⟨fresh, budget, ?_⟩
        rw [same]
        simp

end Verdicts

section Outcomes

variable (state : WorkflowLoopState) (attempts : List AttemptRecord)
variable (outcome : WorkflowBuildOutcome) (attempt : AttemptRecord)
variable (remediation : Option RemediationMetadata) (used : ℕ)

def countSubmit : ℕ :=
  if state.successfulSubmitSeen.getD false then state.postSubmitRemediationSubmitsUsed.getD 0 + 1
  else state.postSubmitRemediationSubmitsUsed.getD 0

/-- What an outcome that is not stale may do to the fields of the retry policy. -/
structure Counted (state' : WorkflowLoopState) (seen : Bool) : Prop where
  runId : state'.runId = state.runId
  seen : state'.successfulSubmitSeen.getD false = seen
  used : state'.postSubmitRemediationSubmitsUsed = some used

theorem handleFailedSubmit_counted :
    Counted state used
      (handleFailedSubmit state outcome attempt remediation used : TransitionResult Patch).state
      (state.successfulSubmitSeen.getD false) := by
  simp only [handleFailedSubmit]
  split_ifs <;> exact ⟨rfl, rfl, rfl⟩

theorem handleSubmit_counted :
    Counted state used
      (handleSubmit state outcome attempt remediation used : TransitionResult Patch).state true := by
  simp only [handleSubmit]
  split_ifs <;> exact ⟨rfl, rfl, rfl⟩

theorem handleSubmit_edits :
    (handleSubmit state outcome attempt remediation used :
      TransitionResult Patch).action.edits = false := by
  simp only [handleSubmit]
  split_ifs <;> rfl

@[simp] theorem allowsEdits_exhausted (reason guidance : String) (attemptCount : ℕ) :
    allowsEdits (some (exhaustedRemediation reason guidance attemptCount)) = false := rfl

theorem handleFailedSubmit_edits (seen : state.successfulSubmitSeen.getD false = true)
    (exhausted : MAX_POST_SUBMIT_REMEDIATION_SUBMITS ≤ used) :
    (handleFailedSubmit state outcome attempt remediation used :
      TransitionResult Patch).action.edits = false := by
  cases allowed : allowsEdits remediation <;>
    simp [handleFailedSubmit, seen, exhausted, allowed, WorkflowLoopAction.edits,
      WorkflowLoopAction.repairs]

variable (Patch) in
theorem handleBuildOutcome_fresh (fresh : isStaleRunReport state outcome.runId = false) :
    ∃ attempt remediation,
      (handleBuildOutcome state attempts outcome : TransitionResult Patch) =
        if outcome.submitted then
          handleSubmit state outcome attempt remediation (countSubmit state)
        else handleFailedSubmit state outcome attempt remediation (countSubmit state) := by
  let remediation := withRemainingSubmitFixes outcome.remediation
    (MAX_POST_SUBMIT_REMEDIATION_SUBMITS - countSubmit state)
  refine ⟨applyRemediationToAttempt (makeAttempt state .build attempts) remediation,
    remediation, ?_⟩
  cases submitted : outcome.submitted <;>
    simp [handleBuildOutcome, fresh, submitted, countSubmit, remediation]

theorem handleBuildOutcome_stale (stale : isStaleRunReport state outcome.runId = true) :
    (handleBuildOutcome state attempts outcome : TransitionResult Patch) =
      ignoreStaleReport state attempts .build outcome.runId := by
  simp [handleBuildOutcome, stale]

variable (Patch) in
theorem handleBuildOutcome_counted (fresh : isStaleRunReport state outcome.runId = false) :
    Counted state (countSubmit state)
      (handleBuildOutcome state attempts outcome : TransitionResult Patch).state
      (state.successfulSubmitSeen.getD false || outcome.submitted) := by
  obtain ⟨attempt, remediation, taken⟩ :=
    handleBuildOutcome_fresh Patch state attempts outcome fresh
  rw [taken]
  cases outcome.submitted with
  | true => simpa using handleSubmit_counted state outcome attempt remediation (countSubmit state)
  | false =>
    simpa using handleFailedSubmit_counted state outcome attempt remediation (countSubmit state)

end Outcomes

section Runs

variable (state : WorkflowLoopState) (attempts : List AttemptRecord) {used : ℕ} {signature : String}

def counted (seen : Bool) (used : ℕ) (outcomes : List WorkflowBuildOutcome) : ℕ :=
  if seen then used + outcomes.length else used + afterFirstSubmit outcomes

theorem counted_nil (seen : Bool) (used : ℕ) : counted seen used [] = used := by
  cases seen <;> simp [counted, afterFirstSubmit]

theorem counted_cons (seen : Bool) (used : ℕ) (outcome : WorkflowBuildOutcome)
    (outcomes : List WorkflowBuildOutcome) :
    counted seen used (outcome :: outcomes) =
      counted (seen || outcome.submitted) (if seen then used + 1 else used) outcomes := by
  cases seen with
  | true => simp [counted]; omega
  | false => cases submitted : outcome.submitted <;> simp [counted, afterFirstSubmit, submitted]

theorem le_counted (seen : Bool) (used : ℕ) (outcomes : List WorkflowBuildOutcome) :
    used ≤ counted seen used outcomes := by
  simp only [counted]
  split_ifs <;> omega

theorem freshOutcomes_congr {state' : WorkflowLoopState} (same : state'.runId = state.runId)
    (reports : List (Report Patch)) :
    freshOutcomes state' reports = freshOutcomes state reports := by
  unfold freshOutcomes isStaleRunReport
  rw [same]

theorem freshOutcomes_cons (report : Report Patch) (reports : List (Report Patch)) :
    freshOutcomes state (report :: reports) =
      freshOutcomes state [report] ++ freshOutcomes state reports := by
  simp only [freshOutcomes, ← filterMap_append, singleton_append]

theorem handleReport_counted (report : Report Patch) (start : state.postSubmitRemediationSubmitsUsed = some used) :
    let state' := (handleReport state attempts report).state
    state'.runId = state.runId ∧
      ∃ used', state'.postSubmitRemediationSubmitsUsed = some used' ∧
        ∀ outcomes, counted (state'.successfulSubmitSeen.getD false) used' outcomes =
          counted (state.successfulSubmitSeen.getD false) used
            (freshOutcomes state [report] ++ outcomes) := by
  cases report with
  | verification verdict =>
    obtain ⟨runId, seen, kept⟩ := handleVerificationVerdict_kept state attempts verdict
    refine ⟨runId, used, kept.trans start, fun outcomes => ?_⟩
    simp only [handleReport, seen]
    rfl
  | build outcome =>
    cases stale : isStaleRunReport state outcome.runId with
    | true =>
      simp only [handleReport, handleBuildOutcome_stale state attempts outcome stale,
        ignoreStaleReport]
      exact ⟨trivial, used, start, fun outcomes => by simp [freshOutcomes, stale]⟩
    | false =>
      obtain ⟨runId, seen, count⟩ :=
        handleBuildOutcome_counted Patch state attempts outcome stale
      refine ⟨runId, _, count, fun outcomes => ?_⟩
      simp only [handleReport, seen]
      simp [freshOutcomes, stale, counted_cons, countSubmit, start]

theorem run_counted (reports : List (Report Patch))
    (start : state.postSubmitRemediationSubmitsUsed = some used) {i : ℕ} {turn : Turn Patch}
    (found : (run state attempts reports)[i]? = some turn) :
    turn.result.state.postSubmitRemediationSubmitsUsed =
      some (counted (state.successfulSubmitSeen.getD false) used
        (freshOutcomes state (reports.take (i + 1)))) := by
  induction reports generalizing state attempts used i with
  | nil => simp [run] at found
  | cons report reports ih =>
    obtain ⟨runId, used', next, count⟩ := handleReport_counted state attempts report start
    rw [take_succ_cons, freshOutcomes_cons, ← count]
    cases i with
    | zero =>
      simp only [run, getElem?_cons_zero, some.injEq] at found
      subst found
      simpa [freshOutcomes, counted_nil] using next
    | succ i =>
      rw [run, getElem?_cons_succ] at found
      rw [ih _ _ next found, freshOutcomes_congr state runId]

def BudgetUntouched : Prop :=
  state.successfulSubmitSeen.getD false = false →
    state.postSubmitRemediationSubmitsUsed.getD 0 < MAX_POST_SUBMIT_REMEDIATION_SUBMITS

theorem handleReport_budgetUntouched (report : Report Patch) (h : BudgetUntouched state) :
    BudgetUntouched (handleReport state attempts report).state := by
  cases report with
  | verification verdict =>
    obtain ⟨_, seen, used⟩ := handleVerificationVerdict_kept state attempts verdict
    simpa only [BudgetUntouched, handleReport, seen, used] using h
  | build outcome =>
    cases stale : isStaleRunReport state outcome.runId with
    | true =>
      rw [handleReport, handleBuildOutcome_stale state attempts outcome stale]
      exact h
    | false =>
      obtain ⟨_, seen, used⟩ :=
        handleBuildOutcome_counted Patch state attempts outcome stale
      simp only [BudgetUntouched, handleReport, seen, used, Bool.or_eq_false_iff]
      rintro ⟨unseen, _⟩
      simpa [countSubmit, unseen] using h unseen

theorem handleReport_edits (report : Report Patch) (h : BudgetUntouched state)
    (edits : (handleReport state attempts report).action.edits = true) :
    (handleReport state attempts report).state.postSubmitRemediationSubmitsUsed.getD 0 <
      MAX_POST_SUBMIT_REMEDIATION_SUBMITS := by
  cases report with
  | verification verdict =>
    simp only [handleReport] at edits ⊢
    rw [(handleVerificationVerdict_kept state attempts verdict).used]
    exact (handleVerificationVerdict_edits state attempts verdict edits).2.1
  | build outcome =>
    simp only [handleReport] at edits ⊢
    cases stale : isStaleRunReport state outcome.runId with
    | true =>
      rw [handleBuildOutcome_stale state attempts outcome stale] at edits
      cases edits
    | false =>
      rw [(handleBuildOutcome_counted Patch state attempts outcome stale).used]
      obtain ⟨attempt, remediation, taken⟩ :=
        handleBuildOutcome_fresh Patch state attempts outcome stale
      rw [taken] at edits
      change countSubmit state < MAX_POST_SUBMIT_REMEDIATION_SUBMITS
      cases seen : state.successfulSubmitSeen.getD false with
      | false => simpa [countSubmit, seen] using h seen
      | true =>
        by_contra exhausted
        split_ifs at edits
        · rw [handleSubmit_edits] at edits
          cases edits
        · rw [handleFailedSubmit_edits _ _ _ _ _ seen (Nat.le_of_not_lt exhausted)] at edits
          cases edits

theorem run_exhausted (reports : List (Report Patch)) (h : BudgetUntouched state)
    (start : state.postSubmitRemediationSubmitsUsed = some used)
    (exhausted : MAX_POST_SUBMIT_REMEDIATION_SUBMITS ≤ used) :
    ∀ turn ∈ run state attempts reports, turn.result.action.edits = false := by
  induction reports generalizing state attempts used with
  | nil => simp [run]
  | cons report reports ih =>
    obtain ⟨_, used', next, count⟩ := handleReport_counted state attempts report start
    have grown : used ≤ used' := by
      have := count []
      rw [counted_nil, append_nil] at this
      exact this ▸ le_counted _ _ _
    rw [run, forall_mem_cons]
    refine ⟨?_, ih _ _ (handleReport_budgetUntouched state attempts report h) next
      (Nat.le_trans exhausted grown)⟩
    by_contra edits
    have within := handleReport_edits state attempts report h (by simpa using edits)
    rw [next, getD_some] at within
    omega

theorem run_edits (reports : List (Report Patch)) (h : BudgetUntouched state)
    (start : state.postSubmitRemediationSubmitsUsed = some used) {i j : ℕ} (le : i ≤ j)
    {turn later : Turn Patch} (found : (run state attempts reports)[i]? = some turn)
    (exhausted : MAX_POST_SUBMIT_REMEDIATION_SUBMITS ≤ turn.result.state.postSubmitRemediationSubmitsUsed.getD 0)
    (foundLater : (run state attempts reports)[j]? = some later) : later.result.action.edits = false := by
  induction reports generalizing state attempts used i j with
  | nil => simp [run] at found
  | cons report reports ih =>
    obtain ⟨_, used', next, _⟩ := handleReport_counted state attempts report start
    have untouched := handleReport_budgetUntouched state attempts report h
    rw [run] at found foundLater
    cases i with
    | succ i =>
      obtain ⟨j, rfl⟩ : ∃ k, j = k + 1 := ⟨j - 1, by omega⟩
      exact ih _ _ untouched next (Nat.le_of_succ_le_succ le) found foundLater
    | zero =>
      simp only [getElem?_cons_zero, some.injEq] at found
      subst found
      cases j with
      | zero =>
        simp only [getElem?_cons_zero, some.injEq] at foundLater
        subst foundLater
        by_contra edits
        have within := handleReport_edits state attempts report h (by simpa using edits)
        exact absurd within (Nat.not_lt.mpr exhausted)
      | succ j =>
        rw [next, getD_some] at exhausted
        exact run_exhausted _ _ reports untouched next exhausted later
          (mem_of_getElem? foundLater)

theorem handleReport_repairsFor (report : Report Patch) (named : signature ≠ "")
    (repaired : Turn.repairsFor signature ⟨report, handleReport state attempts report⟩ = true) :
    hasRepeatedRepair attempts signature = false ∧
      hasRepeatedRepair (attempts ++ [(handleReport state attempts report).attempt]) signature =
        true := by
  simp only [Turn.repairsFor, Bool.and_eq_true] at repaired
  obtain ⟨repairs, signed⟩ := repaired
  cases report with
  | build outcome => simp at signed
  | verification verdict =>
    have signed : verdict.failureSignature = some signature := by simpa using signed
    have edits : (handleVerificationVerdict state attempts verdict).action.edits = true := by
      cases kind : (handleVerificationVerdict state attempts verdict).action <;>
        simp_all [handleReport, WorkflowLoopAction.edits, WorkflowLoopAction.repairs]
    obtain ⟨first, _, action, recorded⟩ :=
      handleVerificationVerdict_edits state attempts verdict edits
    refine ⟨by simpa [signed, truthy, named] using first, ?_⟩
    rw [hasRepeatedRepair_append]
    simp only [handleReport]
    rcases action with action | action <;>
      simp [hasRepeatedRepair, action, recorded, signed]

theorem run_repairsFor (reports : List (Report Patch)) (named : signature ≠ "") :
    (run state attempts reports).countP (Turn.repairsFor signature) ≤
      if hasRepeatedRepair attempts signature then 0 else 1 := by
  induction reports generalizing state attempts with
  | nil => simp [run]
  | cons report reports ih =>
    have later := ih (handleReport state attempts report).state
      (attempts ++ [(handleReport state attempts report).attempt])
    rw [run, countP_cons]
    cases repaired : Turn.repairsFor signature ⟨report, handleReport state attempts report⟩ with
    | true =>
      obtain ⟨first, recorded⟩ :=
        handleReport_repairsFor state attempts report named repaired
      simp only [recorded, first] at later ⊢
      simpa using later
    | false =>
      rw [hasRepeatedRepair_append] at later
      cases before : hasRepeatedRepair attempts signature with
      | true => simpa [before] using later
      | false =>
        simp only [before, Bool.false_or] at later
        split_ifs at later <;> simp <;> omega

end Runs

/-- The number of build outcomes that are not stale for the run of the work item and
that follow the first submitted one. -/
def submitsAfterFirst (state : WorkflowLoopState) (reports : List (Report Patch)) : ℕ :=
  afterFirstSubmit (freshOutcomes state reports)

/-- The retry policy over every run from a new work item. -/
theorem workflowLoop_bounded (nanoid threadId : String) (source : WorkflowLoopSource)
    (workflowId runId : Option String) (reports : List (Report Patch)) :
    let start := createWorkItem nanoid threadId source workflowId runId
    let turns := run start [] reports
    (∀ signature, signature ≠ "" → turns.countP (Turn.repairsFor signature) ≤ 1) ∧
      (∀ (i : ℕ) (turn : Turn Patch), turns[i]? = some turn →
        turn.result.state.postSubmitRemediationSubmitsUsed =
          some (submitsAfterFirst start (reports.take (i + 1)))) ∧
      ∀ (i j : ℕ) (turn later : Turn Patch), i ≤ j → turns[i]? = some turn →
        MAX_POST_SUBMIT_REMEDIATION_SUBMITS ≤
          turn.result.state.postSubmitRemediationSubmitsUsed.getD 0 →
        turns[j]? = some later → later.result.action.edits = false := by
  intro start turns
  have untouched : BudgetUntouched start := fun _ => Nat.zero_lt_succ 1
  refine ⟨fun signature named => ?_, fun i turn found => ?_, fun i j turn later le found => ?_⟩
  · exact run_repairsFor start [] reports named
  · have := run_counted start [] reports rfl found
    simpa [counted, start, createWorkItem, submitsAfterFirst] using this
  · exact run_edits start [] reports untouched rfl le found

section Examples

def patchVerdict (failureSignature : Option String) : Report Unit :=
  .verification
    { runId := none
      workflowId := "wf"
      executionId := none
      verdict := .needsPatch
      workflowInspection := none
      failureSignature := failureSignature
      failedNodeName := none
      diagnosis := none
      patch := none
      remediation := none
      summary := "failed" }

def newWorkItem : WorkflowLoopState := createWorkItem "a" "thread" .create none none

/-- Two patches for the signature of no characters, which the guard takes for none. -/
theorem empty_signature_repaired_twice :
    ¬ ∀ signature, (run newWorkItem [] [patchVerdict (some ""), patchVerdict (some "")]).countP
      (Turn.repairsFor signature) ≤ 1 := by
  intro once
  exact absurd (once "") (by decide)

end Examples

end N8n.WorkflowLoop
