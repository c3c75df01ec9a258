import ParadigmTerra.Dsl.Evaluate
import ParadigmTerra.Gas

/-!
# The validator

`validate` takes a CAL at SIGNED, the state and the trace of its execution to the events of its
lifecycle. Phase A has the gates before VALIDATED, phase B the ones after it; `validateToValidated`
and `resumeFromValidated` run them at two ticks.

The validator does not look at the reducer. It emits events, and bakes into them the amounts that the
reducer moves.
-/

namespace ParadigmTerra

open Text Fallible

/-- What a step was observed to do. -/
structure StepResult where
  ok : Bool
  effects : List Json
  errorDetail : Option Str

/-- The record of an execution. -/
structure ExecutionTrace where
  currentTick : ℤ
  steps : List StepResult
  stateBefore : Json
  stateAfter : Json
  operatorSigPresent : Bool
  ownerSigPresent : Bool
  ownerSigners : Option (List Str)
  pinnedMcpSchemaHash : Option Str

inductive TerminalStage
  | FINALIZED | FAILED | EXPIRED
  deriving DecidableEq, Repr

inductive ReasonCode
  | UNKNOWN_ACTION | NONCE_MISMATCH | CAPABILITY_DENIED | PRECOND_FALSE | PRECOND_ERROR | STEP_ERROR
  | POSTCOND_FALSE | INVARIANT_FALSE | BOUNDED_BLOCKED | SCHEMA_MISMATCH | INSUFFICIENT_ESCROW
  | OUT_OF_GAS | QUORUM_NOT_MET | INVALID_SIGNATURE_SET
  deriving DecidableEq, Repr

/-- The text of a reason. -/
def ReasonCode.text : ReasonCode → String
  | UNKNOWN_ACTION => "UNKNOWN_ACTION"
  | NONCE_MISMATCH => "NONCE_MISMATCH"
  | CAPABILITY_DENIED => "CAPABILITY_DENIED"
  | PRECOND_FALSE => "PRECOND_FALSE"
  | PRECOND_ERROR => "PRECOND_ERROR"
  | STEP_ERROR => "STEP_ERROR"
  | POSTCOND_FALSE => "POSTCOND_FALSE"
  | INVARIANT_FALSE => "INVARIANT_FALSE"
  | BOUNDED_BLOCKED => "BOUNDED_BLOCKED"
  | SCHEMA_MISMATCH => "SCHEMA_MISMATCH"
  | INSUFFICIENT_ESCROW => "INSUFFICIENT_ESCROW"
  | OUT_OF_GAS => "OUT_OF_GAS"
  | QUORUM_NOT_MET => "QUORUM_NOT_MET"
  | INVALID_SIGNATURE_SET => "INVALID_SIGNATURE_SET"

structure ValidationResult where
  events : List Json
  terminalStage : TerminalStage
  reasonCode : Option ReasonCode
  bill : GasBill

def asStr (v : Option Json) : Str :=
  match v with
  | some (.str s) => s
  | _ => []

/-- Evaluates an embedded expression; `undefined` is no expression. -/
def evalExpr (H : Host) (node : Option Json) (scope : Scope) (b : Bindings) :
    Except Throw Outcome :=
  match node with
  | none => pure ⟨.PARSE_ERROR, some "MALFORMED_NODE"⟩
  | some node => do
    let env ← openEnvelope node
    run H env.expr ⟨scope, env.version⟩ b

/-- The strings among the elements of a list. -/
def onlyStrings : List Json → List Str
  | [] => []
  | .str s :: xs => s :: onlyStrings xs
  | _ :: xs => onlyStrings xs

/-- The agent's scopes cover those that the action requires. -/
def capabilityGrants (snapshot : Json) (agent action : Str) : Except Throw Bool :=
  if requiredScopes action = [] then pure true
  else do
    let raw := onlyStrings
      (listOf (getIn snapshot [js "registry", js "agents", agent, js "granted_scopes"]))
    let set ← expandGrantedScopes raw
    pure ((requiredScopes action).all fun s => s ∈ set)

/-- Each signer is below the next one: the reason against the first pair that is not. -/
def signersSorted : List Str → Bool
  | s :: t :: r => s ≠ t && !strLt t s && signersSorted (t :: r)
  | _ => true

/-- The quorum gate over the owners, the threshold and the signers presented. -/
def multisigQuorum (owners : List Str) (threshold : ℤ) (signers : List Str) : Option ReasonCode :=
  if owners.length < signers.length then some .INVALID_SIGNATURE_SET
  else if signers.any fun s => s = [] || s ∉ owners then some .INVALID_SIGNATURE_SET
  else if !signersSorted signers then some .INVALID_SIGNATURE_SET
  else if signers.length < threshold then some .QUORUM_NOT_MET
  else none

/-- The input of a validation. -/
structure Validator where
  cal : Json
  calHash : Str
  snapshot : Json
  trace : ExecutionTrace

namespace Validator

variable (H : Host) (v : Validator)

/-! ## What the gates read -/

def agent : Str := asStr (getIn v.cal [js "agent_id"])
def action : Str := asStr (getIn v.cal [js "action"])
def nonce : ℤ := asBig (getIn v.cal [js "nonce"]) 0
def expiration : ℤ := asBig (getIn v.cal [js "expiration_tick"]) 0
def tick : ℤ := v.trace.currentTick
def fee : ℤ := flatValidationFee v.snapshot
def maxGas : ℤ := maxExpectedDynamicGas v.cal v.fee

def boundedMode : Bool :=
  match getIn v.snapshot [js "failure_mode", js "is_bounded_mode"] with
  | some (.bool b) => b
  | _ => false

/-- A field of the agent's record. -/
def agentField (k : String) : Option Json :=
  getIn v.snapshot [js "registry", js "agents", v.agent, js k]

def ownerRequired : Bool := isOwnerRequired v.action || v.boundedMode

/-- The owners' verdicts that the node presented. -/
def signers : List Str := v.trace.ownerSigners.getD []

/-- The weight of the owner signatures that were verified. -/
def ownerAuth : ℤ :=
  if !v.ownerRequired then 0
  else
    match v.agentField "owners" with
    | some (.arr _) => ownerAuthUnits (v.signers.filter fun s => s ≠ []).length
    | _ => ownerAuthUnits 1

/-! ## Events -/

/-- An event with the fields that identify the CAL. -/
def event (type : String) (rest : List (Str × Json)) : Json :=
  .obj ((js "event_type", .str (js type)) :: (js "cal_hash", .str v.calHash) ::
    (js "agent_id", .str v.agent) :: (js "nonce", .int v.nonce) :: rest)

def failedPre (reason : ReasonCode) (charge : ℤ) : Json :=
  v.event "cal.failed" [(js "tick_failed", .int v.tick), (js "reason_code", .str (js reason.text)),
    (js "fee_debited_ptra", .int charge), (js "gas_consumed_ptra", .int 0),
    (js "ton_ingress_fee_paid", .int 0)]

def expiredPre : Json :=
  v.event "cal.expired" [(js "tick_expired", .int v.tick), (js "gas_consumed_ptra", .int 0),
    (js "ton_ingress_fee_paid", .int 0)]

def validatedEvent : Json := v.event "cal.validated" [(js "escrow_ptra", .int (v.fee + v.maxGas))]

def failedPost (reason : ReasonCode) (bill : GasBill) : Json :=
  v.event "cal.failed" [(js "tick_failed", .int v.tick), (js "reason_code", .str (js reason.text)),
    (js "gas_consumed_ptra", .int bill.dynamicGasConsumed),
    (js "gas_refunded_ptra", .int bill.gasRefunded), (js "ton_ingress_fee_paid", .int 0)]

def expiredPost (bill : GasBill) : Json :=
  v.event "cal.expired" [(js "tick_expired", .int v.tick), (js "gas_consumed_ptra", .int 0),
    (js "gas_refunded_ptra", .int bill.gasRefunded), (js "ton_ingress_fee_paid", .int 0)]

def executedEvent (effects : List Json) (consumed : ℤ) : Json :=
  v.event "cal.executed" [(js "effects", .arr effects), (js "gas_consumed_ptra", .int consumed)]

def settledEvent : Json :=
  .obj [(js "event_type", .str (js "cal.settled")), (js "cal_hash", .str v.calHash)]

def finalizedEvent (consumed : ℤ) (bill : GasBill) (steps invariants : ℕ) : Json :=
  v.event "cal.finalized" [(js "tick_finalized", .int v.tick),
    (js "gas_consumed_ptra", .int consumed), (js "gas_refunded_ptra", .int bill.gasRefunded),
    (js "steps_applied", .int steps), (js "invariants_checked", .int invariants)]

/-! ## Phase A -/

/-- The end of phase A: a terminal result, or the events up to VALIDATED. -/
inductive PhaseA
  | terminal (r : ValidationResult)
  | validated (events : List Json)

/-- A failure that retains the spam charge. -/
def spamFail (reason : ReasonCode) : Except Throw PhaseA := do
  let bill ← settle .FAILED_PRECOND v.cal v.snapshot 0 0
  pure (.terminal ⟨[v.failedPre reason bill.feeRetained], .FAILED, some reason, bill⟩)

/-- A failure that moves nothing. -/
def noChargeFail (reason : ReasonCode) : Except Throw PhaseA := do
  let bill ← settle .FAILED_NO_CHARGE v.cal v.snapshot 0 0
  pure (.terminal ⟨[v.failedPre reason 0], .FAILED, some reason, bill⟩)

def expirePre : Except Throw PhaseA := do
  let bill ← settle .EXPIRED_PRE v.cal v.snapshot 0 0
  pure (.terminal ⟨[v.expiredPre], .EXPIRED, none, bill⟩)

/-- The schema pin agrees with the state. -/
def schemaOk : Bool :=
  let pinned := v.trace.pinnedMcpSchemaHash.getD []
  pinned = [] || asStr (getIn v.snapshot [js "registry", js "mcp_schema_hash"]) = pinned

/-- The reason against the owner's authorization. -/
def ownerGate : Option ReasonCode :=
  if !v.ownerRequired then none
  else
    match v.agentField "owners" with
    | some (.arr os) =>
      let owners := onlyStrings os
      if owners = [] then some .CAPABILITY_DENIED
      else multisigQuorum owners (asBig (v.agentField "threshold") 0) v.signers
    | _ =>
      if !v.trace.ownerSigPresent then some .CAPABILITY_DENIED
      else if asStr (v.agentField "owner_pubkey") = [] then some .CAPABILITY_DENIED
      else none

/-- The gates from the scopes on. -/
def phaseAScopes : Except Throw PhaseA := do
  let granted ← capabilityGrants v.snapshot v.agent v.action
  if !granted then v.spamFail .CAPABILITY_DENIED
  else do
    let pre ← evalExpr H (getIn v.cal [js "preconditions"]) .precondition
      { state := some v.snapshot }
    if pre.code = .EVALUATION_FALSE then v.spamFail .PRECOND_FALSE
    else if pre.code ≠ .EVALUATION_TRUE then v.noChargeFail .PRECOND_ERROR
    else if !canValidate v.cal v.snapshot then v.noChargeFail .INSUFFICIENT_ESCROW
    else pure (.validated [v.validatedEvent])

def phaseA : Except Throw PhaseA :=
  if !isRegisteredAction v.action then v.noChargeFail .UNKNOWN_ACTION
  else if !v.schemaOk then v.noChargeFail .SCHEMA_MISMATCH
  else if v.boundedMode && !isBoundedAllowed v.action then v.noChargeFail .BOUNDED_BLOCKED
  else if v.expiration < v.tick then v.expirePre
  else if v.nonce ≠ asBig (getIn v.snapshot [js "cal", js "nonces", v.agent]) 0 + 1 then
    v.noChargeFail .NONCE_MISMATCH
  else if !v.trace.operatorSigPresent then v.spamFail .CAPABILITY_DENIED
  else if asStr (v.agentField "operator_pubkey") = [] then v.spamFail .CAPABILITY_DENIED
  else
    match v.ownerGate with
    | some reason => v.spamFail reason
    | none => v.phaseAScopes H

/-! ## Phase B -/

def expirePost (events : List Json) : Except Throw ValidationResult := do
  let bill ← settle .EXPIRED_POST v.cal v.snapshot 0 0
  pure ⟨events ++ [v.expiredPost bill], .EXPIRED, none, bill⟩

def execFail (events : List Json) (reason : ReasonCode) (effects : List Json) :
    Except Throw ValidationResult := do
  let bytes ← effectsBytes H effects
  let bill ← settle .FAILED_EXEC v.cal v.snapshot bytes v.ownerAuth
  pure ⟨events ++ [v.failedPost reason bill], .FAILED, some reason, bill⟩

/-- The reason against the post-conditions of a step, at the first that is not true. -/
def postConditions (params : Option Json) : List Json → Except Throw (Option ReasonCode)
  | [] => pure none
  | pc :: pcs => do
    let o ← evalExpr H (some pc) .post_condition
      { before := some v.trace.stateBefore, after := some v.trace.stateAfter, params := params }
    if o.code = .EVALUATION_TRUE then postConditions params pcs
    else if o.code = .EVALUATION_FALSE then pure (some .POSTCOND_FALSE)
    else pure (some .STEP_ERROR)

/-- The steps with their observed results: the effects up to the failure, if there is one, and its
reason. -/
def runSteps : List Json → List StepResult → List Json →
    Except Throw (List Json × Option ReasonCode)
  | [], _, committed => pure (committed, none)
  | _ :: _, [], committed => pure (committed, some .STEP_ERROR)
  | step :: steps, tr :: trs, committed =>
    if !tr.ok then pure (committed, some .STEP_ERROR)
    else do
      let committed := committed ++ tr.effects
      let failure ← v.postConditions H (getIn step [js "params"])
        (listOf (getIn step [js "post_conditions"]))
      match failure with
      | some reason => pure (committed, some reason)
      | none => runSteps steps trs committed

/-- Whether every invariant holds. -/
def invariantsHold : List Json → Except Throw Bool
  | [] => pure true
  | inv :: invs => do
    let o ← evalExpr H (some inv) .invariant
      { before := some v.trace.stateBefore, after := some v.trace.stateAfter }
    if o.code = .EVALUATION_TRUE then invariantsHold invs else pure false

def steps : List Json := listOf (getIn v.cal [js "steps"])

def invariants : List Json :=
  effectiveInvariants (listOf (getIn v.cal [js "invariants"])) v.boundedMode

/-- The gates after the execution. -/
def phaseBExecuted (events effects : List Json) (bytesWritten consumed : ℤ) :
    Except Throw ValidationResult := do
  let events := events ++ [v.executedEvent effects consumed]
  if v.expiration < v.tick then v.expirePost events
  else do
    let hold ← v.invariantsHold H v.invariants
    if !hold then v.execFail H events .INVARIANT_FALSE effects
    else do
      let bill ← settle .FINALIZED v.cal v.snapshot bytesWritten v.ownerAuth
      pure ⟨events ++ [v.settledEvent] ++
        [v.finalizedEvent consumed bill v.steps.length v.invariants.length], .FINALIZED, none, bill⟩

/-- The gates after VALIDATED, with the events so far. -/
def phaseB (events : List Json) : Except Throw ValidationResult :=
  if v.expiration < v.tick then v.expirePost events
  else do
    let (effects, failure) ← v.runSteps H v.steps v.trace.steps []
    match failure with
    | some reason => v.execFail H events reason effects
    | none => do
      let bytesWritten ← effectsBytes H effects
      let units ← gasUnits v.cal bytesWritten v.ownerAuth
      let rawGas := toNano units (gasPrice v.snapshot)
      if v.maxGas < rawGas then v.execFail H events .OUT_OF_GAS effects
      else v.phaseBExecuted H events effects bytesWritten rawGas

end Validator

/-- Validates a CAL at SIGNED to a terminal event. -/
def validate (H : Host) (cal : Json) (calHash : Str) (snapshot : Json) (trace : ExecutionTrace) :
    Except Throw ValidationResult := do
  let v : Validator := ⟨cal, calHash, snapshot, trace⟩
  let a ← v.phaseA H
  match a with
  | .terminal r => pure r
  | .validated events => v.phaseB H events

/-- The result of the first stage: a terminal result, or none, and the events to fold. -/
structure ToValidatedResult where
  terminal : Option ValidationResult
  events : List Json

/-- Validates a CAL at SIGNED to VALIDATED. -/
def validateToValidated (H : Host) (cal : Json) (calHash : Str) (snapshot : Json)
    (trace : ExecutionTrace) : Except Throw ToValidatedResult := do
  let v : Validator := ⟨cal, calHash, snapshot, trace⟩
  let a ← v.phaseA H
  match a with
  | .terminal r => pure ⟨some r, r.events⟩
  | .validated events => pure ⟨none, events⟩

/-- Validates a CAL at VALIDATED to a terminal event. -/
def resumeFromValidated (H : Host) (cal : Json) (calHash : Str) (snapshot : Json)
    (trace : ExecutionTrace) : Except Throw ValidationResult :=
  (⟨cal, calHash, snapshot, trace⟩ : Validator).phaseB H []

end ParadigmTerra
