import ParadigmTerra.Validator.Validate

/-!
# What a validation reads of its snapshot

`SameReads` lists the places of the snapshot that a validation reads, apart from those of the owners
and beside the evaluation of its precondition. On a snapshot that agrees there both phases are the same
(`phaseA_on`, `phaseB_on`), if the owner gate and the weight of the owners' signatures are.
-/

namespace ParadigmTerra

open Text Fallible

namespace Validator

variable {H : Host} {v : Validator} {t : Json}

/-- The validation on another snapshot. -/
def on (v : Validator) (t : Json) : Validator := { v with snapshot := t }

/-- The snapshots agree in what the validation reads of them. -/
structure SameReads (H : Host) (v : Validator) (t : Json) : Prop where
  bounded : getIn t [js "failure_mode", js "is_bounded_mode"] =
    getIn v.snapshot [js "failure_mode", js "is_bounded_mode"]
  schema : getIn t [js "registry", js "mcp_schema_hash"] =
    getIn v.snapshot [js "registry", js "mcp_schema_hash"]
  nonce : getIn t [js "cal", js "nonces", v.agent] = getIn v.snapshot [js "cal", js "nonces", v.agent]
  fee : getIn t [js "governance", js "params", js "flat_validation_fee_nano_ptra"] =
    getIn v.snapshot [js "governance", js "params", js "flat_validation_fee_nano_ptra"]
  price : getIn t [js "governance", js "gas_price_nano_ptra_per_unit"] =
    getIn v.snapshot [js "governance", js "gas_price_nano_ptra_per_unit"]
  balance : getIn t [js "ptra", js "balances", v.agent] =
    getIn v.snapshot [js "ptra", js "balances", v.agent]
  operator : (v.on t).agentField "operator_pubkey" = v.agentField "operator_pubkey"
  scopes : (v.on t).agentField "granted_scopes" = v.agentField "granted_scopes"
  precondition :
    Outcome.code <$> evalExpr H (getIn v.cal [js "preconditions"]) .precondition { state := some t } =
      Outcome.code <$>
        evalExpr H (getIn v.cal [js "preconditions"]) .precondition { state := some v.snapshot }

/-- The snapshots agree in the prices and in the mode, which is all that phase B reads of them beside
the owners. -/
structure SamePrices (v : Validator) (t : Json) : Prop where
  bounded : getIn t [js "failure_mode", js "is_bounded_mode"] =
    getIn v.snapshot [js "failure_mode", js "is_bounded_mode"]
  fee : getIn t [js "governance", js "params", js "flat_validation_fee_nano_ptra"] =
    getIn v.snapshot [js "governance", js "params", js "flat_validation_fee_nano_ptra"]
  price : getIn t [js "governance", js "gas_price_nano_ptra_per_unit"] =
    getIn v.snapshot [js "governance", js "gas_price_nano_ptra_per_unit"]

theorem SameReads.prices (h : SameReads H v t) : SamePrices v t := ⟨h.bounded, h.fee, h.price⟩

section Prices

variable (h : SamePrices v t)

include h

theorem boundedMode_on : (v.on t).boundedMode = v.boundedMode := by
  unfold boundedMode
  rw [show (v.on t).snapshot = t from rfl, h.bounded]

theorem ownerRequired_on : (v.on t).ownerRequired = v.ownerRequired := by
  unfold ownerRequired
  rw [boundedMode_on h]
  rfl

theorem flatValidationFee_on : flatValidationFee t = flatValidationFee v.snapshot := by
  unfold flatValidationFee
  rw [h.fee]

theorem gasPrice_on : gasPrice t = gasPrice v.snapshot := by
  unfold gasPrice
  rw [h.price]

theorem maxGas_on : (v.on t).maxGas = v.maxGas := by
  change maxExpectedDynamicGas v.cal (flatValidationFee t) = _
  rw [flatValidationFee_on h]
  rfl

theorem consumedBill_on (bytes auth : ℤ) :
    consumedBill v.cal t bytes auth = consumedBill v.cal v.snapshot bytes auth := by
  unfold consumedBill
  rw [flatValidationFee_on h, gasPrice_on h]

/-- A bill that settles an escrow depends on the prices. -/
theorem settle_on_prices {o : BillOutcome} (ho : o.Settles) (bytes auth : ℤ) :
    settle o v.cal t bytes auth = settle o v.cal v.snapshot bytes auth := by
  unfold settle
  rw [flatValidationFee_on h, consumedBill_on h]
  rcases ho with rfl | rfl | rfl <;> rfl

end Prices

section Parts

variable (h : SameReads H v t)

include h

theorem schemaOk_on : (v.on t).schemaOk = v.schemaOk := by
  unfold schemaOk
  rw [show (v.on t).snapshot = t from rfl, h.schema]
  rfl

/-- The balance of the agent that the CAL names. -/
theorem balanceOf_on {agent : Str} (hagent : getIn v.cal [js "agent_id"] = some (.str agent)) :
    balanceOf t agent = balanceOf v.snapshot agent := by
  have hv : v.agent = agent := by rw [Validator.agent, hagent]; rfl
  subst hv
  unfold balanceOf
  rw [h.balance]

theorem spamCharge_on : spamCharge v.cal t = spamCharge v.cal v.snapshot := by
  unfold spamCharge
  rw [flatValidationFee_on h.prices]
  cases hagent : getIn v.cal [js "agent_id"] with
  | none => rfl
  | some a =>
    cases a with
    | str agent => simp only [balanceOf_on h hagent]
    | _ => rfl

theorem canValidate_on : canValidate v.cal t = canValidate v.cal v.snapshot := by
  unfold canValidate escrowRequirement
  cases hagent : getIn v.cal [js "agent_id"] with
  | none => rfl
  | some a =>
    cases a with
    | str agent => simp only [balanceOf_on h hagent, flatValidationFee_on h.prices]
    | _ => rfl

theorem settle_on (o : BillOutcome) (bytes auth : ℤ) :
    settle o v.cal t bytes auth = settle o v.cal v.snapshot bytes auth := by
  unfold settle
  rw [flatValidationFee_on h.prices, spamCharge_on h, consumedBill_on h.prices]

theorem capabilityGrants_on :
    capabilityGrants t v.agent v.action = capabilityGrants v.snapshot v.agent v.action := by
  have hscopes : getIn t [js "registry", js "agents", v.agent, js "granted_scopes"] =
      getIn v.snapshot [js "registry", js "agents", v.agent, js "granted_scopes"] := h.scopes
  unfold capabilityGrants
  rw [hscopes]

theorem spamFail_on (reason : ReasonCode) : (v.on t).spamFail reason = v.spamFail reason := by
  unfold spamFail
  rw [show (v.on t).snapshot = t from rfl, show (v.on t).cal = v.cal from rfl, settle_on h]
  rfl

omit h in
theorem noChargeFail_on (reason : ReasonCode) :
    (v.on t).noChargeFail reason = v.noChargeFail reason := rfl

omit h in
theorem bind_congr_code {α : Type} {x y : Except Throw Outcome} {f : OutcomeCode → Except Throw α}
    (hxy : Outcome.code <$> x = Outcome.code <$> y) :
    (x >>= fun o => f o.code) = y >>= fun o => f o.code := by
  have hmap : ∀ z : Except Throw Outcome,
      (z >>= fun o => f o.code) = (Outcome.code <$> z) >>= f := by
    intro z
    cases z <;> rfl
  rw [hmap, hmap, hxy]

/-- The gates from the scopes on, with the code of the precondition's outcome. -/
theorem phaseAScopes_on : (v.on t).phaseAScopes H = v.phaseAScopes H := by
  have hvalidated : (v.on t).validatedEvent = v.validatedEvent := by
    unfold validatedEvent
    rw [maxGas_on h.prices]
    change v.event _ [(_, .int (flatValidationFee t + _))] = _
    rw [flatValidationFee_on h.prices]
    rfl
  unfold phaseAScopes
  simp only [spamFail_on h, noChargeFail_on, hvalidated]
  change (capabilityGrants t v.agent v.action >>= fun granted => _) = _
  rw [capabilityGrants_on h]
  refine congrArg _ (funext fun granted => ?_)
  split
  · rfl
  · change (evalExpr H (getIn v.cal [js "preconditions"]) .precondition { state := some t } >>= _) = _
    rw [show canValidate (v.on t).cal (v.on t).snapshot = canValidate v.cal v.snapshot from
      canValidate_on h]
    exact bind_congr_code (f := fun code =>
      if code = .EVALUATION_FALSE then v.spamFail .PRECOND_FALSE
      else if code ≠ .EVALUATION_TRUE then v.noChargeFail .PRECOND_ERROR
      else if !canValidate v.cal v.snapshot then v.noChargeFail .INSUFFICIENT_ESCROW
      else pure (.validated [v.validatedEvent])) h.precondition

end Parts

/-- The gates before the one of the owners. -/
theorem phaseA_on (h : SameReads H v t) (howner : (v.on t).ownerGate = v.ownerGate) :
    (v.on t).phaseA H = v.phaseA H := by
  unfold phaseA
  rw [howner, schemaOk_on h, boundedMode_on h.prices, phaseAScopes_on h, h.operator,
    show getIn (v.on t).snapshot [js "cal", js "nonces", (v.on t).agent] =
      getIn v.snapshot [js "cal", js "nonces", v.agent] from h.nonce]
  simp only [spamFail_on h]
  rfl

theorem postConditions_on (params : Option Json) (pcs : List Json) :
    (v.on t).postConditions H params pcs = v.postConditions H params pcs := by
  induction pcs with
  | nil => rfl
  | cons pc pcs ih =>
    rw [postConditions, postConditions, ih]
    rfl

theorem runSteps_on (steps : List Json) (trs : List StepResult) (committed : List Json) :
    (v.on t).runSteps H steps trs committed = v.runSteps H steps trs committed := by
  induction steps generalizing trs committed with
  | nil => rfl
  | cons step steps ih =>
    cases trs with
    | nil => rfl
    | cons tr trs =>
      rw [runSteps, runSteps]
      simp only [postConditions_on, ih]

theorem invariantsHold_on (invs : List Json) :
    (v.on t).invariantsHold H invs = v.invariantsHold H invs := by
  induction invs with
  | nil => rfl
  | cons inv invs ih =>
    rw [invariantsHold, invariantsHold, ih]
    rfl

/-- Phase B, which reads prices and what Bounded Mode injects. -/
theorem phaseB_on (h : SamePrices v t) (hauth : (v.on t).ownerAuth = v.ownerAuth)
    (events : List Json) : (v.on t).phaseB H events = v.phaseB H events := by
  have hfail : ∀ events reason effects,
      (v.on t).execFail H events reason effects = v.execFail H events reason effects := by
    intro events reason effects
    unfold execFail
    rw [show (v.on t).snapshot = t from rfl, show (v.on t).cal = v.cal from rfl, hauth]
    simp only [settle_on_prices h (o := .FAILED_EXEC) (.inr (.inl rfl))]
    rfl
  have hexpire : ∀ events, (v.on t).expirePost events = v.expirePost events := by
    intro events
    unfold expirePost
    rw [show (v.on t).snapshot = t from rfl, show (v.on t).cal = v.cal from rfl,
      settle_on_prices h (o := .EXPIRED_POST) (.inr (.inr rfl))]
    rfl
  have hinvs : (v.on t).invariants = v.invariants := by
    unfold invariants
    rw [boundedMode_on h]
    rfl
  have hexecuted : ∀ events effects bytes consumed,
      (v.on t).phaseBExecuted H events effects bytes consumed =
        v.phaseBExecuted H events effects bytes consumed := by
    intro events effects bytes consumed
    unfold phaseBExecuted
    simp only [hexpire, hfail, hinvs, invariantsHold_on, hauth,
      show (v.on t).snapshot = t from rfl, show (v.on t).cal = v.cal from rfl,
      settle_on_prices h (o := .FINALIZED) (.inl rfl)]
    rfl
  unfold phaseB
  simp only [hexpire, hfail, hexecuted, runSteps_on, maxGas_on h, hauth,
    show (v.on t).snapshot = t from rfl, show (v.on t).cal = v.cal from rfl, gasPrice_on h]
  rfl

end Validator

end ParadigmTerra
