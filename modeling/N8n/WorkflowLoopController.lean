import Mathlib.Data.List.Basic

/-! The transitions of the workflow build and verification loop. A work item goes
from building to verifying, repairing, done or blocked; the two handlers compute its
next state, the action for the service and the attempt to record, and do no I/O. -/

namespace N8n.WorkflowLoop

inductive WorkflowLoopPhase
  | building
  | verifying
  | repairing
  | done
  | blocked
  deriving DecidableEq

inductive WorkflowLoopStatus
  | active
  | completed
  | blocked
  deriving DecidableEq

inductive WorkflowLoopSource
  | create
  | modify
  deriving DecidableEq

inductive RemediationCategory
  | codeFixable
  | needsSetup
  | blocked
  deriving DecidableEq

structure RemediationMetadata where
  category : RemediationCategory
  shouldEdit : Bool
  guidance : String
  reason : Option String
  remainingSubmitFixes : Option ℕ
  attemptCount : Option ℕ
  deriving DecidableEq

structure WorkflowLoopState where
  workItemId : String
  threadId : String
  runId : Option String
  workflowId : Option String
  phase : WorkflowLoopPhase
  status : WorkflowLoopStatus
  source : WorkflowLoopSource
  lastTaskId : Option String
  lastExecutionId : Option String
  lastFailureSignature : Option String
  lastWorkflowInspection : Option String
  rebuildAttempts : ℕ
  mockedCredentialTypes : Option (List String)
  hasUnresolvedPlaceholders : Option Bool
  successfulSubmitSeen : Option Bool
  preSaveSubmitFailures : Option ℕ
  postSubmitRemediationSubmitsUsed : Option ℕ
  lastRemediation : Option RemediationMetadata
  deriving DecidableEq

inductive AttemptAction
  | build
  | verify
  | rebuild
  | patch
  deriving DecidableEq

inductive AttemptResult
  | success
  | failure
  | blocked
  deriving DecidableEq

structure AttemptRecord where
  workItemId : String
  phase : WorkflowLoopPhase
  attempt : ℕ
  action : AttemptAction
  result : AttemptResult
  workflowId : Option String
  executionId : Option String
  failureSignature : Option String
  workflowInspection : Option String
  diagnosis : Option String
  remediationCategory : Option RemediationCategory
  remediationShouldEdit : Option Bool
  remediationGuidance : Option String
  deriving DecidableEq

inductive TriggerType
  | manualOrTestable
  | triggerOnly
  deriving DecidableEq

structure WorkflowBuildOutcome where
  runId : Option String
  taskId : String
  workflowId : Option String
  submitted : Bool
  triggerType : TriggerType
  needsUserInput : Bool
  blockingReason : Option String
  failureSignature : Option String
  mockedCredentialTypes : Option (List String)
  hasUnresolvedPlaceholders : Option Bool
  remediation : Option RemediationMetadata
  summary : String
  deriving DecidableEq

inductive VerificationVerdict
  | verified
  | needsPatch
  | needsRebuild
  | triggerOnly
  | needsUserInput
  | failedTerminal
  deriving DecidableEq

/-- `patch` is an arbitrary record that the handlers only pass on. -/
structure VerificationResult (Patch : Type) where
  runId : Option String
  workflowId : String
  executionId : Option String
  verdict : VerificationVerdict
  workflowInspection : Option String
  failureSignature : Option String
  failedNodeName : Option String
  diagnosis : Option String
  patch : Option Patch
  remediation : Option RemediationMetadata
  summary : String
  deriving DecidableEq

inductive WorkflowLoopAction (Patch : Type)
  | ignored (reason : String)
  | continueBuilding (reason : String)
  | verify (workflowId : Option String)
  | rebuild (workflowId : String) (failureDetails : String)
  | patch (workflowId : String) (failedNodeName : String) (diagnosis : String)
      (patch : Option Patch)
  | done (workflowId : Option String) (summary : String)
      (mockedCredentialTypes : Option (List String)) (hasUnresolvedPlaceholders : Option Bool)
  | blocked (reason : String)
  deriving DecidableEq

structure TransitionResult (Patch : Type) where
  state : WorkflowLoopState
  action : WorkflowLoopAction Patch
  attempt : AttemptRecord
  deriving DecidableEq

def MAX_PRE_SAVE_SUBMIT_FAILURES : ℕ := 3

def MAX_POST_SUBMIT_REMEDIATION_SUBMITS : ℕ := 2

def createRemediation (input : RemediationMetadata) : RemediationMetadata := input

/-- `Math.max(0, a - b)` on counters is the difference of natural numbers. -/
def remainingPostSubmitRemediations (state : WorkflowLoopState) : ℕ :=
  MAX_POST_SUBMIT_REMEDIATION_SUBMITS - state.postSubmitRemediationSubmitsUsed.getD 0

/-- An optional string in a condition: absent and empty are both false. -/
def truthy (text : Option String) : Bool := text.any fun s => s != ""

def createWorkItem (nanoid threadId : String) (source : WorkflowLoopSource)
    (workflowId runId : Option String) : WorkflowLoopState where
  workItemId := "wi_" ++ nanoid
  threadId := threadId
  runId := runId
  workflowId := workflowId
  phase := .building
  status := .active
  source := source
  lastTaskId := none
  lastExecutionId := none
  lastFailureSignature := none
  lastWorkflowInspection := none
  rebuildAttempts := 0
  mockedCredentialTypes := none
  hasUnresolvedPlaceholders := none
  successfulSubmitSeen := none
  preSaveSubmitFailures := some 0
  postSubmitRemediationSubmitsUsed := some 0
  lastRemediation := none

def isStaleRunReport (state : WorkflowLoopState) (runId : Option String) : Bool :=
  truthy runId && truthy state.runId && state.runId != runId

def staleRunReportReason (stateRunId reportRunId : Option String) : String :=
  "Ignoring report from stale run \"" ++ reportRunId.getD "undefined" ++
    "\" for active run \"" ++ stateRunId.getD "unknown" ++ "\"."

def withRemainingSubmitFixes (remediation : Option RemediationMetadata)
    (remainingSubmitFixes : ℕ) : Option RemediationMetadata :=
  remediation.map fun remediation =>
    { remediation with remainingSubmitFixes := some remainingSubmitFixes }

def applyRemediationToAttempt (attempt : AttemptRecord) :
    Option RemediationMetadata → AttemptRecord
  | none => attempt
  | some remediation =>
    { attempt with
      remediationCategory := some remediation.category
      remediationShouldEdit := some remediation.shouldEdit
      remediationGuidance := some remediation.guidance }

def sentences (parts : List String) : String :=
  String.intercalate ". " (parts.filter fun part => part != "")

/-- The labelled text of an optional part, empty where the part is absent or empty. -/
def labelled (label : String) (part : Option String) : String :=
  if truthy part then label ++ part.getD "" else ""

variable {Patch : Type}

def describeVerificationFailure (verdict : VerificationResult Patch) : String :=
  sentences
    [verdict.summary,
      if truthy verdict.diagnosis && verdict.diagnosis != some verdict.summary then
        verdict.diagnosis.getD ""
      else "",
      labelled "Signature: " verdict.failureSignature]

def hasRepeatedRepair (attempts : List AttemptRecord) (failureSignature : String) : Bool :=
  attempts.any fun a =>
    (a.action == .rebuild || a.action == .patch) && a.failureSignature == some failureSignature

def makeAttempt (state : WorkflowLoopState) (action : AttemptAction)
    (attempts : List AttemptRecord) : AttemptRecord where
  workItemId := state.workItemId
  phase := state.phase
  attempt := (attempts.filter fun a => a.workItemId == state.workItemId).length + 1
  action := action
  result := .success
  workflowId := none
  executionId := none
  failureSignature := none
  workflowInspection := none
  diagnosis := none
  remediationCategory := none
  remediationShouldEdit := none
  remediationGuidance := none

/-- What both handlers return for the report of a run that is not the active one. -/
def ignoreStaleReport (state : WorkflowLoopState) (attempts : List AttemptRecord)
    (action : AttemptAction) (runId : Option String) : TransitionResult Patch where
  state := state
  action := .ignored (staleRunReportReason state.runId runId)
  attempt := { makeAttempt state action attempts with result := .failure }

/-- The remediation that stops the loop with an exhausted budget. -/
def exhaustedRemediation (reason guidance : String) (attemptCount : ℕ) : RemediationMetadata :=
  createRemediation
    { category := .blocked
      shouldEdit := false
      reason := some reason
      attemptCount := some attemptCount
      remainingSubmitFixes := some 0
      guidance := guidance }

def preSaveBudgetGuidance : String :=
  "The workflow could not be saved after three submit attempts. Stop editing and explain the blocker to the user."

def postSubmitBudgetGuidance : String :=
  "The workflow was saved, but the automatic repair budget is exhausted. Stop editing and explain the blocker to the user."

def allowsEdits (remediation : Option RemediationMetadata) : Bool :=
  remediation.map (·.shouldEdit) != some false

/-- The branch of `handleBuildOutcome` for an outcome that was not submitted. -/
def handleFailedSubmit (state : WorkflowLoopState) (outcome : WorkflowBuildOutcome)
    (attempt : AttemptRecord) (remediation : Option RemediationMetadata)
    (postSubmitRemediationSubmitsUsed : ℕ) : TransitionResult Patch :=
  let successfulSubmitSeen := state.successfulSubmitSeen.getD false
  let preSaveSubmitFailures :=
    if successfulSubmitSeen then state.preSaveSubmitFailures.getD 0
    else state.preSaveSubmitFailures.getD 0 + 1
  let preSaveBudgetExhausted :=
    !successfulSubmitSeen && decide (MAX_PRE_SAVE_SUBMIT_FAILURES ≤ preSaveSubmitFailures)
  let postSubmitBudgetExhausted :=
    successfulSubmitSeen &&
      decide (MAX_POST_SUBMIT_REMEDIATION_SUBMITS ≤ postSubmitRemediationSubmitsUsed)
  let terminalRemediation :=
    if preSaveBudgetExhausted && allowsEdits remediation then
      some (exhaustedRemediation "pre_save_submit_budget_exhausted" preSaveBudgetGuidance
        preSaveSubmitFailures)
    else if postSubmitBudgetExhausted && allowsEdits remediation then
      some (exhaustedRemediation "post_submit_budget_exhausted" postSubmitBudgetGuidance
        postSubmitRemediationSubmitsUsed)
    else remediation
  let stopped := outcome.needsUserInput || !allowsEdits terminalRemediation
  let reason :=
    ((terminalRemediation.map (·.guidance)).or
      (outcome.blockingReason.or outcome.failureSignature)).getD
        "Builder failed to submit workflow"
  let nextState :=
    { state with
      lastTaskId := some outcome.taskId
      preSaveSubmitFailures := some preSaveSubmitFailures
      postSubmitRemediationSubmitsUsed := some postSubmitRemediationSubmitsUsed
      lastRemediation := terminalRemediation.or state.lastRemediation }
  { state := if stopped then { nextState with phase := .blocked, status := .blocked } else nextState
    action := if stopped then .blocked reason else .continueBuilding reason
    attempt :=
      { applyRemediationToAttempt attempt terminalRemediation with
        result := if stopped then .blocked else .failure
        failureSignature := outcome.failureSignature } }

/-- The branch of `handleBuildOutcome` for a submitted outcome. -/
def handleSubmit (state : WorkflowLoopState) (outcome : WorkflowBuildOutcome)
    (attempt : AttemptRecord) (remediation : Option RemediationMetadata)
    (postSubmitRemediationSubmitsUsed : ℕ) : TransitionResult Patch :=
  let attempt := { attempt with result := .success, workflowId := outcome.workflowId }
  let mockedCredentialTypes := outcome.mockedCredentialTypes.filter fun types => !types.isEmpty
  let updatedState :=
    { state with
      workflowId := outcome.workflowId.or state.workflowId
      lastTaskId := some outcome.taskId
      mockedCredentialTypes := mockedCredentialTypes.or state.mockedCredentialTypes
      hasUnresolvedPlaceholders :=
        outcome.hasUnresolvedPlaceholders.or state.hasUnresolvedPlaceholders
      successfulSubmitSeen := some true
      preSaveSubmitFailures :=
        some (if state.successfulSubmitSeen.getD false then state.preSaveSubmitFailures.getD 0
          else 0)
      postSubmitRemediationSubmitsUsed := some postSubmitRemediationSubmitsUsed
      lastRemediation := remediation }
  if outcome.needsUserInput then
    { state := { updatedState with phase := .blocked, status := .blocked }
      action := .blocked (outcome.blockingReason.getD "Needs user input")
      attempt := attempt }
  else if outcome.triggerType = .triggerOnly then
    { state := { updatedState with phase := .done, status := .completed }
      action := .done outcome.workflowId outcome.summary mockedCredentialTypes
        updatedState.hasUnresolvedPlaceholders
      attempt := attempt }
  else
    { state := { updatedState with phase := .verifying, status := .active }
      action := .verify outcome.workflowId
      attempt := attempt }

def handleBuildOutcome (state : WorkflowLoopState) (attempts : List AttemptRecord)
    (outcome : WorkflowBuildOutcome) : TransitionResult Patch :=
  if isStaleRunReport state outcome.runId then
    ignoreStaleReport state attempts .build outcome.runId
  else
    let attempt := makeAttempt state .build attempts
    let isRepairSubmit := state.successfulSubmitSeen.getD false
    let postSubmitRemediationSubmitsUsed :=
      if isRepairSubmit then state.postSubmitRemediationSubmitsUsed.getD 0 + 1
      else state.postSubmitRemediationSubmitsUsed.getD 0
    let remainingSubmitFixes :=
      MAX_POST_SUBMIT_REMEDIATION_SUBMITS - postSubmitRemediationSubmitsUsed
    let remediation := withRemainingSubmitFixes outcome.remediation remainingSubmitFixes
    let attempt := applyRemediationToAttempt attempt remediation
    if !outcome.submitted then
      handleFailedSubmit state outcome attempt remediation postSubmitRemediationSubmitsUsed
    else handleSubmit state outcome attempt remediation postSubmitRemediationSubmitsUsed

def blockRepair (state : WorkflowLoopState) (verdict : VerificationResult Patch)
    (attempt : AttemptRecord) (blockedRemediation : RemediationMetadata) (reason : String) :
    TransitionResult Patch where
  state :=
    { state with
      phase := .blocked
      status := .blocked
      lastFailureSignature := verdict.failureSignature
      lastWorkflowInspection := verdict.workflowInspection
      lastRemediation := some blockedRemediation }
  action := .blocked reason
  attempt := applyRemediationToAttempt attempt (some blockedRemediation)

def escalateToRepair (state : WorkflowLoopState) (attempts : List AttemptRecord)
    (verdict : VerificationResult Patch) (attempt : AttemptRecord)
    (remediation : Option RemediationMetadata) (action : WorkflowLoopAction Patch) :
    TransitionResult Patch :=
  let used := state.postSubmitRemediationSubmitsUsed.getD 0
  let signature := verdict.failureSignature.getD ""
  if truthy verdict.failureSignature && hasRepeatedRepair attempts signature then
    let guidance := "Repeated repair failure: " ++ signature
    blockRepair state verdict attempt
      (createRemediation
        { category := .blocked
          shouldEdit := false
          reason := some "duplicate_failure_signature"
          attemptCount := some used
          remainingSubmitFixes := some (remainingPostSubmitRemediations state)
          guidance := guidance })
      guidance
  else if MAX_POST_SUBMIT_REMEDIATION_SUBMITS ≤ used then
    -- the reason leads with what the verification found
    let failureDetail := describeVerificationFailure verdict
    blockRepair state verdict attempt
      (exhaustedRemediation "post_submit_budget_exhausted" postSubmitBudgetGuidance used)
      (if failureDetail != "" then failureDetail ++ " " ++ postSubmitBudgetGuidance
        else postSubmitBudgetGuidance)
  else
    { state :=
        { state with
          phase := .repairing
          status := .active
          rebuildAttempts := state.rebuildAttempts + 1
          lastFailureSignature := verdict.failureSignature
          lastExecutionId := verdict.executionId
          lastWorkflowInspection := verdict.workflowInspection
          lastRemediation := remediation }
      action := action
      attempt := attempt }

/-- The `switch` of `handleVerificationVerdict`, reached by a verdict whose remediation
does not forbid editing. -/
def handleVerdict (state : WorkflowLoopState) (attempts : List AttemptRecord)
    (verdict : VerificationResult Patch) (attempt : AttemptRecord)
    (remediation : Option RemediationMetadata) : TransitionResult Patch :=
  let inspected :=
    { state with
      lastWorkflowInspection := verdict.workflowInspection
      lastRemediation := remediation }
  match verdict.verdict with
  | .verified =>
    { state :=
        { inspected with
          phase := .done
          status := .completed
          lastExecutionId := verdict.executionId }
      action := .done (some verdict.workflowId) verdict.summary state.mockedCredentialTypes
        state.hasUnresolvedPlaceholders
      attempt := { attempt with result := .success } }
  | .triggerOnly =>
    { state := { inspected with phase := .done, status := .completed }
      action := .done (some verdict.workflowId) verdict.summary state.mockedCredentialTypes
        state.hasUnresolvedPlaceholders
      attempt := { attempt with result := .success } }
  | .needsUserInput =>
    { state := { inspected with phase := .blocked, status := .blocked }
      action := .blocked (verdict.diagnosis.getD "Needs user input")
      attempt := { attempt with result := .blocked } }
  | .failedTerminal =>
    { state :=
        { inspected with
          phase := .blocked
          status := .blocked
          lastFailureSignature := verdict.failureSignature }
      action := .blocked verdict.summary
      attempt := { attempt with result := .failure } }
  | .needsPatch =>
    escalateToRepair state attempts verdict
      { attempt with result := .failure, action := .patch } remediation
      (.patch verdict.workflowId (verdict.failedNodeName.getD "unknown")
        (verdict.diagnosis.getD verdict.summary) verdict.patch)
  | .needsRebuild =>
    let failureDetails := sentences
      [verdict.diagnosis.getD "",
        labelled "Workflow inspection: " verdict.workflowInspection,
        labelled "Failed node: " verdict.failedNodeName,
        labelled "Signature: " verdict.failureSignature]
    escalateToRepair state attempts verdict
      { attempt with result := .failure, action := .rebuild } remediation
      (.rebuild verdict.workflowId
        (if failureDetails != "" then failureDetails else verdict.summary))

def handleVerificationVerdict (state : WorkflowLoopState) (attempts : List AttemptRecord)
    (verdict : VerificationResult Patch) : TransitionResult Patch :=
  if isStaleRunReport state verdict.runId then
    ignoreStaleReport state attempts .verify verdict.runId
  else
    let attempt :=
      { makeAttempt state .verify attempts with
        executionId := verdict.executionId
        failureSignature := verdict.failureSignature
        workflowInspection := verdict.workflowInspection
        diagnosis := verdict.diagnosis }
    let remediation :=
      withRemainingSubmitFixes verdict.remediation (remainingPostSubmitRemediations state)
    let attempt := applyRemediationToAttempt attempt remediation
    match remediation with
    | some forbidding@{ shouldEdit := false, .. } =>
      { state :=
          { state with
            phase := .blocked
            status := .blocked
            lastExecutionId := verdict.executionId
            lastFailureSignature := verdict.failureSignature
            lastWorkflowInspection := verdict.workflowInspection
            lastRemediation := some forbidding }
        action := .blocked forbidding.guidance
        attempt := { attempt with result := .blocked } }
    | remediation => handleVerdict state attempts verdict attempt remediation

inductive Report (Patch : Type)
  | build (outcome : WorkflowBuildOutcome)
  | verification (verdict : VerificationResult Patch)
  deriving DecidableEq

def handleReport (state : WorkflowLoopState) (attempts : List AttemptRecord) :
    Report Patch → TransitionResult Patch
  | .build outcome => handleBuildOutcome state attempts outcome
  | .verification verdict => handleVerificationVerdict state attempts verdict

structure Turn (Patch : Type) where
  report : Report Patch
  result : TransitionResult Patch
  deriving DecidableEq

/-- A run of the loop, every returned state and attempt fed back. -/
def run : WorkflowLoopState → List AttemptRecord → List (Report Patch) → List (Turn Patch)
  | _, _, [] => []
  | state, attempts, report :: reports =>
    let result := handleReport state attempts report
    ⟨report, result⟩ :: run result.state (attempts ++ [result.attempt]) reports

end N8n.WorkflowLoop
