import ParadigmTerra.Validator.Admission
import ParadigmTerra.Validator.Settlement

/-!
# Gas within the escrow

The validator, the bills and the units compute fee, budget and consumption each on their own.
`settle_inside_escrow` ties them together for the CALs that the schema accepts. Every bill consumes at
most the budget and, with its refund, gives back the escrow (`InsideEscrow`); what is consumed grows with
the bytes written, the owner signatures, the price and the parts of the CAL (`CalExtends`); and the
validator reports OUT_OF_GAS exactly when the uncapped gas of a validation that has passed the gates
before is over the budget (`AtGasGate`).

An outcome that charges nothing is covered by the balance of its agent unless that is negative:
`negative_balance_uncovered`.
-/

namespace ParadigmTerra

open Text Fallible Validator

/-! ## Growing units -/

theorem ownerAuthUnits_mono {k l : ℤ} (h : k ≤ l) : ownerAuthUnits k ≤ ownerAuthUnits l := by
  unfold ownerAuthUnits OWNER_AUTH_BASE ED25519_VERIFY_WEIGHT
  split <;> split <;> omega

/-- A sum of costs grows with each of its terms, and with further terms. -/
theorem sumCosts_mono {f : Json → Except Throw ℤ} {R : Json → Json → Prop}
    (hpos : ∀ x c, f x = .ok c → 0 ≤ c)
    (hmono : ∀ x y c d, R x y → f x = .ok c → f y = .ok d → c ≤ d) {xs ys : List Json}
    (h : List.SublistForall₂ R xs ys) {c d : ℤ} (hc : sumCosts f xs = .ok c)
    (hd : sumCosts f ys = .ok d) : c ≤ d := by
  induction h generalizing c d with
  | nil =>
    cases hc
    exact sumCosts_nonneg hpos hd
  | cons hxy _ ih =>
    simp only [sumCosts, bind_eq_ok, pure_eq_ok] at hc hd
    obtain ⟨a, ha, cs, hcs, rfl⟩ := hc
    obtain ⟨b, hb, ds, hds, rfl⟩ := hd
    have hhead : a ≤ b := hmono _ _ a b hxy ha hb
    have htail : cs ≤ ds := ih hcs hds
    omega
  | cons_right _ ih =>
    -- the term that only the longer list has
    simp only [sumCosts, bind_eq_ok, pure_eq_ok] at hd
    obtain ⟨b, hb, ds, hds, rfl⟩ := hd
    have hhead : 0 ≤ b := hpos _ b hb
    have htail : c ≤ ds := ih hc hds
    omega

theorem sumCosts_sublist {f : Json → Except Throw ℤ} (hpos : ∀ x c, f x = .ok c → 0 ≤ c)
    {xs ys : List Json} (h : xs.Sublist ys) {c d : ℤ} (hc : sumCosts f xs = .ok c)
    (hd : sumCosts f ys = .ok d) : c ≤ d := by
  have hsame : ∀ x y c d, x = y → f x = .ok c → f y = .ok d → c ≤ d := by
    rintro x _ c d rfl hx hy
    rw [hx] at hy
    cases hy
    exact le_rfl
  exact sumCosts_mono hpos hsame h.sublistForall₂ hc hd

/-- The second step calls the verb of the first, and checks what it checks and perhaps more. -/
structure StepExtends (step step' : Json) : Prop where
  verb : getIn step [js "verb"] = getIn step' [js "verb"]
  post_conditions : (listOf (getIn step [js "post_conditions"])).Sublist
    (listOf (getIn step' [js "post_conditions"]))

/-- The second CAL has what the first one has and perhaps more steps, post-conditions and
invariants. -/
structure CalExtends (cal cal' : Json) : Prop where
  preconditions : getIn cal [js "preconditions"] = getIn cal' [js "preconditions"]
  gas_limit : getIn cal [js "gas_limit_ptra"] = getIn cal' [js "gas_limit_ptra"]
  steps : List.SublistForall₂ StepExtends (listOf (getIn cal [js "steps"]))
    (listOf (getIn cal' [js "steps"]))
  invariants : (listOf (getIn cal [js "invariants"])).Sublist (listOf (getIn cal' [js "invariants"]))

theorem stepUnits_mono {step step' : Json} (h : StepExtends step step') {u u' : ℤ}
    (hu : stepUnits step = .ok u) (hu' : stepUnits step' = .ok u') : u ≤ u' := by
  simp only [stepUnits, h.verb, bind_eq_ok, pure_eq_ok] at hu hu'
  obtain ⟨pcs, hpcs, rfl⟩ := hu
  obtain ⟨pcs', hpcs', rfl⟩ := hu'
  have hle : pcs ≤ pcs' :=
    sumCosts_sublist (fun x c hc => dslCost_nonneg hc) h.post_conditions hpcs hpcs'
  omega

theorem staticGasUnits_mono {cal cal' : Json} (h : CalExtends cal cal') {u u' : ℤ}
    (hu : staticGasUnits cal = .ok u) (hu' : staticGasUnits cal' = .ok u') : u ≤ u' := by
  simp only [staticGasUnits, h.preconditions, bind_eq_ok, pure_eq_ok] at hu hu'
  obtain ⟨pre, hpre, steps, hsteps, invs, hinvs, rfl⟩ := hu
  obtain ⟨pre', hpre', steps', hsteps', invs', hinvs', rfl⟩ := hu'
  have hsame : pre = pre' := by
    rw [hpre] at hpre'
    exact Except.ok.inj hpre'
  have hstepsle : steps ≤ steps' := sumCosts_mono (fun x c hc => stepUnits_nonneg hc)
    (fun x y c d hxy hx hy => stepUnits_mono hxy hx hy) h.steps hsteps hsteps'
  have hinvsle : invs ≤ invs' := by
    refine sumCosts_sublist (fun x c hc => ?_) h.invariants hinvs hinvs'
    simp only [bind_eq_ok, pure_eq_ok] at hc
    obtain ⟨d, hd, rfl⟩ := hc
    have hpos : 0 ≤ d := dslCost_nonneg hd
    unfold INVARIANT_BASE
    omega
  omega

theorem gasUnits_mono {cal cal' : Json} (h : CalExtends cal cal') {bytes bytes' auth auth' u u' : ℤ}
    (hbytes : bytes ≤ bytes') (hauth : auth ≤ auth') (hu : gasUnits cal bytes auth = .ok u)
    (hu' : gasUnits cal' bytes' auth' = .ok u') : u ≤ u' := by
  simp only [gasUnits, bind_eq_ok, pure_eq_ok] at hu hu'
  obtain ⟨units, hunits, rfl⟩ := hu
  obtain ⟨units', hunits', rfl⟩ := hu'
  have hle : units ≤ units' := staticGasUnits_mono h hunits hunits'
  unfold STATE_RENT_PER_BYTE
  omega

/-! ## Bills -/

/-- The outcomes with an execution to pay for. -/
def BillOutcome.Executes (o : BillOutcome) : Prop := o = .FINALIZED ∨ o = .FAILED_EXEC

/-- The bill keeps to the escrow of the CAL. -/
structure InsideEscrow (o : BillOutcome) (cal state : Json) (bill : GasBill) : Prop where
  consumed : 0 ≤ bill.dynamicGasConsumed ∧
    bill.dynamicGasConsumed ≤ maxExpectedDynamicGas cal (flatValidationFee state)
  executed : o.Executes → bill.gasRefunded + bill.dynamicGasConsumed =
    maxExpectedDynamicGas cal (flatValidationFee state)
  settled : o.Settles → bill.totalAgentCharge + bill.gasRefunded = escrowRequirement cal state
  covered : ¬o.Settles → ∀ agent, getIn cal [js "agent_id"] = some (.str agent) →
    0 ≤ balanceOf state agent ∨ o = .FAILED_PRECOND → bill.totalAgentCharge ≤ balanceOf state agent

section Bills

variable {o : BillOutcome} {cal cal' state state' : Json} {bytes bytes' auth auth' : ℤ}
  {bill bill' : GasBill}

/-- The bill of an execution, with the units that it pays for. -/
theorem consumedBill_eq_ok (h : consumedBill cal state bytes auth = .ok bill) :
    ∃ units, gasUnits cal bytes auth = .ok units ∧ bill.feeRetained = flatValidationFee state ∧
      bill.dynamicGasConsumed = min (maxExpectedDynamicGas cal (flatValidationFee state))
        (toNano units (gasPrice state)) ∧
      bill.gasRefunded =
        maxExpectedDynamicGas cal (flatValidationFee state) - bill.dynamicGasConsumed ∧
      bill.totalAgentCharge = flatValidationFee state + bill.dynamicGasConsumed := by
  simp only [consumedBill, bind_eq_ok, pure_eq_ok] at h
  obtain ⟨units, hunits, rfl⟩ := h
  refine ⟨units, hunits, rfl, ?_, ?_, rfl⟩
  · change (if _ then _ else _) = _
    split <;> omega
  · simp only [clampSub]
    split_ifs <;> omega

theorem settle_executes (ho : o.Executes) :
    settle o cal state bytes auth = consumedBill cal state bytes auth := by
  rcases ho with rfl | rfl
  · rfl
  · rfl

/-- What is not executed consumes nothing. -/
theorem settle_unexecuted (ho : ¬o.Executes) (h : settle o cal state bytes auth = .ok bill) :
    bill.dynamicGasConsumed = 0 := by
  cases o with
  | FINALIZED => exact absurd (.inl rfl) ho
  | FAILED_EXEC => exact absurd (.inr rfl) ho
  | _ => cases h; rfl

theorem settle_insideEscrow (hmax : 0 ≤ maxExpectedDynamicGas cal (flatValidationFee state))
    (hprice : 0 ≤ gasPrice state) (hbytes : 0 ≤ bytes) (hauth : 0 ≤ auth)
    (h : settle o cal state bytes auth = .ok bill) : InsideEscrow o cal state bill := by
  have hunexecuted : ¬o.Executes → 0 ≤ bill.dynamicGasConsumed ∧
      bill.dynamicGasConsumed ≤ maxExpectedDynamicGas cal (flatValidationFee state) := by
    intro ho
    rw [settle_unexecuted ho h]
    exact ⟨le_rfl, hmax⟩
  by_cases ho : o.Executes
  · have hsettles : o.Settles := ho.imp_right .inl
    rw [settle_executes ho] at h
    obtain ⟨units, hunits, -, hconsumed, hrefunded, hcharge⟩ := consumedBill_eq_ok h
    have hraw : 0 ≤ toNano units (gasPrice state) :=
      Int.mul_nonneg (gasUnits_nonneg hunits hbytes hauth) hprice
    refine ⟨⟨by omega, by omega⟩, fun _ => by omega, fun _ => ?_, fun hnot => absurd hsettles hnot⟩
    unfold escrowRequirement
    omega
  · refine ⟨hunexecuted ho, fun hexec => absurd hexec ho, fun hsettles => ?_,
      fun hnot agent hagent hbal => ?_⟩
    · -- only the expiry settles without an execution
      obtain rfl : o = .EXPIRED_POST := by
        rcases hsettles with rfl | rfl | rfl
        · exact absurd (.inl rfl) ho
        · exact absurd (.inr rfl) ho
        · rfl
      cases h
      rfl
    · cases o with
      | FAILED_PRECOND =>
        cases h
        simp only [spamCharge, hagent]
        split <;> omega
      | FAILED_NO_CHARGE =>
        cases h
        exact hbal.resolve_right fun hcharged => by cases hcharged
      | EXPIRED_PRE =>
        cases h
        exact hbal.resolve_right fun hcharged => by cases hcharged
      | FINALIZED => exact absurd (.inl rfl) hnot
      | FAILED_EXEC => exact absurd (.inr (.inl rfl)) hnot
      | EXPIRED_POST => exact absurd (.inr (.inr rfl)) hnot

/-- A bill consumes more when there is more to pay for, at no lower price. -/
theorem settle_consumed_mono (h : CalExtends cal cal')
    (hfee : flatValidationFee state = flatValidationFee state') (hprice : 0 ≤ gasPrice state)
    (hle : gasPrice state ≤ gasPrice state') (hbytes : 0 ≤ bytes) (hbytes' : bytes ≤ bytes')
    (hauth : 0 ≤ auth) (hauth' : auth ≤ auth') (hbill : settle o cal state bytes auth = .ok bill)
    (hbill' : settle o cal' state' bytes' auth' = .ok bill') :
    bill.dynamicGasConsumed ≤ bill'.dynamicGasConsumed := by
  by_cases ho : o.Executes
  · rw [settle_executes ho] at hbill hbill'
    obtain ⟨units, hunits, -, hconsumed, -⟩ := consumedBill_eq_ok hbill
    obtain ⟨units', hunits', -, hconsumed', -⟩ := consumedBill_eq_ok hbill'
    have hmax : maxExpectedDynamicGas cal (flatValidationFee state) =
        maxExpectedDynamicGas cal' (flatValidationFee state') := by
      unfold maxExpectedDynamicGas
      rw [h.gas_limit, hfee]
    have hpos : 0 ≤ units := gasUnits_nonneg hunits hbytes hauth
    have hmore : units ≤ units' := gasUnits_mono h hbytes' hauth' hunits hunits'
    rw [hconsumed, hconsumed', hmax]
    refine min_le_min le_rfl ?_
    calc units * gasPrice state ≤ units * gasPrice state' := Int.mul_le_mul_of_nonneg_left hle hpos
      _ ≤ units' * gasPrice state' := Int.mul_le_mul_of_nonneg_right hmore (hprice.trans hle)
  · rw [settle_unexecuted ho hbill, settle_unexecuted ho hbill']

end Bills

/-! ## The gas gate -/

section GasGate

variable {H : Host} {v : Validator}

/-- No gate before the gas has failed, and the execution asks for the amount, which no budget caps. -/
def AtGasGate (H : Host) (v : Validator) (raw : ℤ) : Prop :=
  ∃ events effects bytes units, v.phaseA H = .ok (.validated events) ∧ v.tick ≤ v.expiration ∧
    v.runSteps H v.steps v.trace.steps [] = .ok (effects, none) ∧
    effectsBytes H effects = .ok bytes ∧ gasUnits v.cal bytes v.ownerAuth = .ok units ∧
    raw = toNano units (gasPrice v.snapshot)

theorem multisigQuorum_ne_outOfGas {owners signers : List Str} {n : ℤ} :
    multisigQuorum owners n signers ≠ some .OUT_OF_GAS := by
  unfold multisigQuorum
  split_ifs <;> nofun

theorem ownerGate_ne_outOfGas : v.ownerGate ≠ some .OUT_OF_GAS := by
  unfold ownerGate
  split
  · intro hreason
    cases hreason
  · split
    · dsimp only
      split
      · intro hreason
        cases hreason
      · exact multisigQuorum_ne_outOfGas
    · intro hreason
      split_ifs at hreason <;> cases hreason

theorem spamFail_ne_outOfGas {reason : ReasonCode} {r : ValidationResult}
    (h : v.spamFail reason = .ok (.terminal r)) (hreason : reason ≠ .OUT_OF_GAS) :
    r.reasonCode ≠ some .OUT_OF_GAS := by
  simp only [spamFail, bind_eq_ok, pure_eq_ok] at h
  obtain ⟨bill, -, h⟩ := h
  cases h
  exact fun heq => hreason (Option.some.inj heq)

theorem noChargeFail_ne_outOfGas {reason : ReasonCode} {r : ValidationResult}
    (h : v.noChargeFail reason = .ok (.terminal r)) (hreason : reason ≠ .OUT_OF_GAS) :
    r.reasonCode ≠ some .OUT_OF_GAS := by
  simp only [noChargeFail, bind_eq_ok, pure_eq_ok] at h
  obtain ⟨bill, -, h⟩ := h
  cases h
  exact fun heq => hreason (Option.some.inj heq)

theorem expirePre_ne_outOfGas {r : ValidationResult} (h : v.expirePre = .ok (.terminal r)) :
    r.reasonCode ≠ some .OUT_OF_GAS := by
  simp only [expirePre, bind_eq_ok, pure_eq_ok] at h
  obtain ⟨bill, -, h⟩ := h
  cases h
  intro hreason
  cases hreason

theorem phaseAScopes_ne_outOfGas {r : ValidationResult} (h : v.phaseAScopes H = .ok (.terminal r)) :
    r.reasonCode ≠ some .OUT_OF_GAS := by
  simp only [phaseAScopes, bind_eq_ok] at h
  obtain ⟨granted, -, h⟩ := h
  split at h
  · exact spamFail_ne_outOfGas h nofun
  simp only [bind_eq_ok] at h
  obtain ⟨pre, -, h⟩ := h
  split at h
  · exact spamFail_ne_outOfGas h nofun
  split at h
  · exact noChargeFail_ne_outOfGas h nofun
  split at h
  · exact noChargeFail_ne_outOfGas h nofun
  · cases h

/-- No gate before VALIDATED looks at the gas. -/
theorem phaseA_ne_outOfGas {r : ValidationResult} (h : v.phaseA H = .ok (.terminal r)) :
    r.reasonCode ≠ some .OUT_OF_GAS := by
  unfold phaseA at h
  split at h
  · exact noChargeFail_ne_outOfGas h nofun
  split at h
  · exact noChargeFail_ne_outOfGas h nofun
  split at h
  · exact noChargeFail_ne_outOfGas h nofun
  split at h
  · exact expirePre_ne_outOfGas h
  split at h
  · exact noChargeFail_ne_outOfGas h nofun
  split at h
  · exact spamFail_ne_outOfGas h nofun
  split at h
  · exact spamFail_ne_outOfGas h nofun
  split at h
  · next reason hgate =>
    have hreason : reason ≠ .OUT_OF_GAS := by
      rintro rfl
      exact ownerGate_ne_outOfGas hgate
    exact spamFail_ne_outOfGas h hreason
  · exact phaseAScopes_ne_outOfGas h

theorem postConditions_ne_outOfGas {params : Option Json} {pcs : List Json} {reason : ReasonCode}
    (h : v.postConditions H params pcs = .ok (some reason)) : reason ≠ .OUT_OF_GAS := by
  induction pcs with
  | nil => cases h
  | cons pc pcs ih =>
    simp only [postConditions, bind_eq_ok] at h
    obtain ⟨o, -, h⟩ := h
    split at h
    · exact ih h
    · split at h
      · cases h
        exact ReasonCode.noConfusion
      · cases h
        exact ReasonCode.noConfusion

/-- No step fails for the gas. -/
theorem runSteps_ne_outOfGas {steps : List Json} {trs : List StepResult} {committed effects : List Json}
    {reason : ReasonCode} (h : v.runSteps H steps trs committed = .ok (effects, some reason)) :
    reason ≠ .OUT_OF_GAS := by
  induction steps generalizing trs committed with
  | nil => cases h
  | cons step steps ih =>
    cases trs with
    | nil =>
      cases h
      nofun
    | cons tr trs =>
      rw [runSteps] at h
      split at h
      · cases h
        nofun
      · simp only [bind_eq_ok] at h
        obtain ⟨failure, hfailure, h⟩ := h
        cases failure with
        | some reason' =>
          cases h
          exact postConditions_ne_outOfGas hfailure
        | none => exact ih h

theorem execFail_reason {events effects : List Json} {reason : ReasonCode} {r : ValidationResult}
    (h : v.execFail H events reason effects = .ok r) : r.reasonCode = some reason := by
  simp only [execFail, bind_eq_ok, pure_eq_ok] at h
  obtain ⟨bytes, -, bill, -, rfl⟩ := h
  rfl

theorem expirePost_reason {events : List Json} {r : ValidationResult}
    (h : v.expirePost events = .ok r) : r.reasonCode = none := by
  simp only [expirePost, bind_eq_ok, pure_eq_ok] at h
  obtain ⟨bill, -, rfl⟩ := h
  rfl

theorem phaseBExecuted_ne_outOfGas {events effects : List Json} {bytes consumed : ℤ}
    {r : ValidationResult} (h : v.phaseBExecuted H events effects bytes consumed = .ok r) :
    r.reasonCode ≠ some .OUT_OF_GAS := by
  simp only [phaseBExecuted] at h
  split at h
  · rw [expirePost_reason h]
    intro hreason
    cases hreason
  · simp only [bind_eq_ok] at h
    obtain ⟨hold, -, h⟩ := h
    split at h
    · rw [execFail_reason h]
      intro hreason
      cases hreason
    · simp only [bind_eq_ok, pure_eq_ok] at h
      obtain ⟨bill, -, rfl⟩ := h
      intro hreason
      cases hreason

/-- Phase B reports OUT_OF_GAS at its gas gate only, and there if the budget is exceeded. -/
theorem phaseB_outOfGas_iff {events : List Json} :
    (∃ r, v.phaseB H events = .ok r ∧ r.reasonCode = some .OUT_OF_GAS) ↔
      v.tick ≤ v.expiration ∧ ∃ effects bytes units,
        v.runSteps H v.steps v.trace.steps [] = .ok (effects, none) ∧
        effectsBytes H effects = .ok bytes ∧ gasUnits v.cal bytes v.ownerAuth = .ok units ∧
        v.maxGas < toNano units (gasPrice v.snapshot) := by
  constructor
  · rintro ⟨r, h, hreason⟩
    unfold phaseB at h
    split at h
    · rw [expirePost_reason h] at hreason
      cases hreason
    next hlive =>
    simp only [bind_eq_ok] at h
    obtain ⟨⟨effects, failure⟩, hsteps, h⟩ := h
    cases failure with
    | some reason =>
      rw [execFail_reason h] at hreason
      exact absurd (Option.some.inj hreason) (runSteps_ne_outOfGas hsteps)
    | none =>
      simp only [bind_eq_ok] at h
      obtain ⟨bytes, hbytes, units, hunits, h⟩ := h
      split at h
      · next hover =>
        exact ⟨not_lt.mp hlive, effects, bytes, units, hsteps, hbytes, hunits, hover⟩
      · exact absurd hreason (phaseBExecuted_ne_outOfGas h)
  · rintro ⟨hlive, effects, bytes, units, hsteps, hbytes, hunits, hover⟩
    obtain ⟨bill, hbill⟩ : ∃ bill, settle .FAILED_EXEC v.cal v.snapshot bytes v.ownerAuth = .ok bill :=
      settle_returns hunits
    refine ⟨⟨events ++ [v.failedPost .OUT_OF_GAS bill], .FAILED, some .OUT_OF_GAS, bill⟩, ?_, rfl⟩
    unfold phaseB
    rw [if_neg (not_lt.mpr hlive)]
    simp only [hsteps, hbytes, hunits, ok_bind, if_pos hover, execFail, hbill]
    rfl

theorem validate_outOfGas_iff {cal snapshot : Json} {ch : Str} {trace : ExecutionTrace} :
    (∃ r, validate H cal ch snapshot trace = .ok r ∧ r.reasonCode = some .OUT_OF_GAS) ↔
      ∃ raw, AtGasGate H ⟨cal, ch, snapshot, trace⟩ raw ∧
        maxExpectedDynamicGas cal (flatValidationFee snapshot) < raw := by
  constructor
  · rintro ⟨r, h, hreason⟩
    simp only [validate, bind_eq_ok] at h
    obtain ⟨a, ha, h⟩ := h
    cases a with
    | terminal t =>
      cases h
      exact absurd hreason (phaseA_ne_outOfGas ha)
    | validated events =>
      obtain ⟨hlive, effects, bytes, units, hsteps, hbytes, hunits, hover⟩ :=
        phaseB_outOfGas_iff.mp ⟨r, h, hreason⟩
      exact ⟨_, ⟨events, effects, bytes, units, ha, hlive, hsteps, hbytes, hunits, rfl⟩, hover⟩
  · rintro ⟨raw, ⟨events, effects, bytes, units, ha, hlive, hsteps, hbytes, hunits, rfl⟩, hover⟩
    obtain ⟨r, hr, hreason⟩ : ∃ r, phaseB H ⟨cal, ch, snapshot, trace⟩ events = .ok r ∧
        r.reasonCode = some .OUT_OF_GAS :=
      phaseB_outOfGas_iff.mpr ⟨hlive, effects, bytes, units, hsteps, hbytes, hunits, hover⟩
    exact ⟨r, by simp only [validate, ha, ok_bind, hr], hreason⟩

end GasGate

/-! ## The whole -/

/-- For a CAL that the schema accepts: under uint256 fee and gas price every outcome has a bill, which
keeps to the escrow; a bill of the same outcome for no fewer bytes and signatures, at no lower price and
for a CAL with more parts consumes no less; and the validator reports OUT_OF_GAS exactly when it has
come to the gas gate with an amount over the budget. -/
theorem settle_inside_escrow {input cal : Json} (hcal : validateCal input = .ok cal) :
    (∀ (o : BillOutcome) (state : Json) (bytes k : ℕ), IsUint (flatValidationFee state) →
      IsUint (gasPrice state) → ∃ bill, settle o cal state bytes (ownerAuthUnits k) = .ok bill ∧
        InsideEscrow o cal state bill) ∧
    (∀ (o : BillOutcome) (cal' state state' : Json) (bytes bytes' k k' : ℕ) (bill bill' : GasBill),
      CalExtends cal cal' → flatValidationFee state = flatValidationFee state' →
      IsUint (gasPrice state) → gasPrice state ≤ gasPrice state' → bytes ≤ bytes' → k ≤ k' →
      settle o cal state bytes (ownerAuthUnits k) = .ok bill →
      settle o cal' state' bytes' (ownerAuthUnits k') = .ok bill' →
      bill.dynamicGasConsumed ≤ bill'.dynamicGasConsumed) ∧
    ∀ (H : Host) (ch : Str) (snapshot : Json) (trace : ExecutionTrace),
      (∃ r, validate H cal ch snapshot trace = .ok r ∧ r.reasonCode = some .OUT_OF_GAS) ↔
        ∃ raw, AtGasGate H ⟨cal, ch, snapshot, trace⟩ raw ∧
          maxExpectedDynamicGas cal (flatValidationFee snapshot) < raw := by
  refine ⟨fun o state bytes k hfee hprice => ?_, ?_, fun H ch snapshot trace =>
    validate_outOfGas_iff⟩
  · obtain ⟨-, -, hreturns, -⟩ := admitted_priced hcal
    obtain ⟨bill, hbill⟩ := hreturns o state bytes (ownerAuthUnits k)
    have hmax : 0 ≤ maxExpectedDynamicGas cal (flatValidationFee state) :=
      maxExpectedDynamicGas_nonneg (validateCal_spec hcal) hfee.1
    exact ⟨bill, hbill, settle_insideEscrow hmax hprice.1 (Int.natCast_nonneg bytes)
      (ownerAuthUnits_nonneg k) hbill⟩
  · intro o cal' state state' bytes bytes' k k' bill bill' hext hfee hprice hle hbytes hk hbill hbill'
    exact settle_consumed_mono hext hfee hprice.1 hle (Int.natCast_nonneg bytes)
      (Int.ofNat_le.mpr hbytes) (ownerAuthUnits_nonneg k)
      (ownerAuthUnits_mono (Int.ofNat_le.mpr hk)) hbill hbill'

/-- A state with a gas price. -/
def pricedAt (price : ℤ) : Json :=
  .obj [(js "governance", .obj [(js "gas_price_nano_ptra_per_unit", .int price)])]

/-- A submission with a further invariant. -/
def stricterCal : List (Str × Json) :=
  assignMember (js "invariants") (.arr [binaryNode "eq" (varNode "state.after.x") (constNode (.bool true)),
    binaryNode "eq" (varNode "state.after.y") (constNode (.bool true))]) formsCal

/-- A submission whose budget is one unit of currency. -/
def meagreCal : Json :=
  .obj (assignMember (js "gas_limit_ptra") (.int 1) feedSubmission.cal.members)

theorem settle_inside_escrow_forms :
    (∃ bill bill', settle .FINALIZED (.obj formsCal) (pricedAt 7) 40 (ownerAuthUnits 2) = .ok bill ∧
      settle .FINALIZED (.obj stricterCal) (pricedAt 8) 50 (ownerAuthUnits 3) = .ok bill' ∧
      InsideEscrow .FINALIZED (.obj formsCal) (pricedAt 7) bill ∧
      bill.dynamicGasConsumed ≤ bill'.dynamicGasConsumed) ∧
    ∃ raw, AtGasGate Escape.host { feedSubmission with cal := meagreCal } raw ∧ 1 < raw := by
  constructor
  · have hcal : validateCal (.obj formsCal) = .ok (.obj formsCal) :=
      validateCal_of_isOk (by decide +kernel)
    have hcal' : validateCal (.obj stricterCal) = .ok (.obj stricterCal) :=
      validateCal_of_isOk (by decide +kernel)
    have hext : CalExtends (.obj formsCal) (.obj stricterCal) := by
      refine ⟨rfl, rfl, ?_, ?_⟩
      · exact .cons ⟨rfl, .refl _⟩ .nil
      · exact .cons_cons _ (.cons _ .slnil)
    obtain ⟨bill, hbill, hinside⟩ := (settle_inside_escrow hcal).1 .FINALIZED (pricedAt 7) 40 2
      (by decide +kernel) (by decide +kernel)
    obtain ⟨bill', hbill', -⟩ := (settle_inside_escrow hcal').1 .FINALIZED (pricedAt 8) 50 3
      (by decide +kernel) (by decide +kernel)
    exact ⟨bill, bill', hbill, hbill', hinside, (settle_inside_escrow hcal).2.1 _ _ _ _ _ _ _ _ _ _
      hext (by decide +kernel) (by decide +kernel) (by decide +kernel) (by decide) (by decide) hbill
      hbill'⟩
  · have hcal : validateCal meagreCal = .ok meagreCal := validateCal_of_isOk (by decide +kernel)
    have hreports : ((validate Escape.host meagreCal (js "H") feedSubmission.snapshot
        feedSubmission.trace).toOption.any fun r => r.reasonCode = some .OUT_OF_GAS) = true := by
      decide +kernel
    cases hr : validate Escape.host meagreCal (js "H") feedSubmission.snapshot
        feedSubmission.trace with
    | error e =>
      rw [hr] at hreports
      cases hreports
    | ok r =>
      rw [hr] at hreports
      exact ((settle_inside_escrow hcal).2.2 _ _ _ _).mp ⟨r, hr, of_decide_eq_true hreports⟩

/-- A state in which the agent of the submission owes. -/
def indebted : Json :=
  .obj [(js "ptra", .obj [(js "balances", .obj [(Escape.agent, .int (-5))])])]

/-- An expiry before VALIDATED charges nothing, which is more than the balance of an agent in debt. -/
theorem negative_balance_uncovered :
    (validateCal feedSubmission.cal).isOk = true ∧ IsUint (flatValidationFee indebted) ∧
      IsUint (gasPrice indebted) ∧ getIn feedSubmission.cal [js "agent_id"] = some (.str Escape.agent) ∧
      settle .EXPIRED_PRE feedSubmission.cal indebted 0 (ownerAuthUnits 0) = .ok .ZERO ∧
      ¬GasBill.ZERO.totalAgentCharge ≤ balanceOf indebted Escape.agent := by
  refine ⟨by decide +kernel, by decide +kernel, by decide +kernel, rfl, rfl, by decide +kernel⟩

end ParadigmTerra
