import ParadigmTerra.Cal.Schema
import ParadigmTerra.Validator.Validate

/-!
# What the phases of a validation end in

`phaseA_end` and `phaseB_end` list all that the two phases can return, each end with the events that
it emits. `Gates` is what phase A has checked when it reaches VALIDATED, and `emits_gates` that a
validation emits `cal.validated` only then.
-/

namespace ParadigmTerra

open Text Fallible

/-- One of the events is `cal.validated`. -/
def HasValidated (events : List Json) : Prop :=
  ∃ e ∈ events, isStr (e.read (js "event_type")) (js "cal.validated") = true

instance (events : List Json) : Decidable (HasValidated events) := by
  unfold HasValidated; infer_instance

/-- `validate` or `validateToValidated` returns with `cal.validated` among the events. -/
def Emits (H : Host) (cal : Json) (ch : Str) (snapshot : Json) (trace : ExecutionTrace) : Prop :=
  (∃ r, validate H cal ch snapshot trace = .ok r ∧ HasValidated r.events) ∨
    ∃ r, validateToValidated H cal ch snapshot trace = .ok r ∧ HasValidated r.events

namespace Validator

variable {H : Host} {v : Validator}

/-- What phase A has checked at VALIDATED. -/
structure Gates (v : Validator) : Prop where
  registered : isRegisteredAction v.action = true
  bounded : v.boundedMode = true → isBoundedAllowed v.action = true
  nonce : v.nonce = asBig (getIn v.snapshot [js "cal", js "nonces", v.agent]) 0 + 1
  owner : v.ownerGate = none
  scopes : capabilityGrants v.snapshot v.agent v.action = .ok true
  covered : canValidate v.cal v.snapshot = true

/-- The result of a failure before VALIDATED, with what it charges. -/
def failure (v : Validator) (reason : ReasonCode) (charge : ℤ) : ValidationResult :=
  ⟨[v.failedPre reason charge], .FAILED, some reason, ⟨charge, 0, 0, charge⟩⟩

/-- The ends of phase A. -/
inductive PhaseAEnd (v : Validator) : PhaseA → Prop
  | spam (reason : ReasonCode) :
    PhaseAEnd v (.terminal (v.failure reason (spamCharge v.cal v.snapshot)))
  | noCharge (reason : ReasonCode) : PhaseAEnd v (.terminal (v.failure reason 0))
  | expired : PhaseAEnd v (.terminal ⟨[v.expiredPre], .EXPIRED, none, .ZERO⟩)
  | validated (gates : Gates v) : PhaseAEnd v (.validated [v.validatedEvent])

theorem spamFail_end {reason : ReasonCode} {a : PhaseA} (h : v.spamFail reason = .ok a) :
    PhaseAEnd v a := by
  simp only [spamFail, settle, bind_eq_ok, pure_eq_ok] at h
  obtain ⟨bill, rfl, rfl⟩ := h
  exact .spam reason

theorem noChargeFail_end {reason : ReasonCode} {a : PhaseA} (h : v.noChargeFail reason = .ok a) :
    PhaseAEnd v a := by
  simp only [noChargeFail, settle, bind_eq_ok, pure_eq_ok] at h
  obtain ⟨bill, rfl, rfl⟩ := h
  exact .noCharge reason

theorem expirePre_end {a : PhaseA} (h : v.expirePre = .ok a) : PhaseAEnd v a := by
  simp only [expirePre, settle, bind_eq_ok, pure_eq_ok] at h
  obtain ⟨bill, rfl, rfl⟩ := h
  exact .expired

theorem phaseAScopes_end {a : PhaseA} (hreg : isRegisteredAction v.action = true)
    (hbounded : v.boundedMode = true → isBoundedAllowed v.action = true)
    (hnonce : v.nonce = asBig (getIn v.snapshot [js "cal", js "nonces", v.agent]) 0 + 1)
    (howner : v.ownerGate = none) (h : v.phaseAScopes H = .ok a) : PhaseAEnd v a := by
  simp only [phaseAScopes, bind_eq_ok] at h
  obtain ⟨granted, hscopes, h⟩ := h
  cases granted with
  | false => exact spamFail_end h
  | true =>
    simp only [Bool.not_true, Bool.false_eq_true, if_false, bind_eq_ok] at h
    obtain ⟨pre, -, h⟩ := h
    split at h
    · exact spamFail_end h
    · split at h
      · exact noChargeFail_end h
      · split at h
        · exact noChargeFail_end h
        · next hcovered =>
          cases h
          exact .validated ⟨hreg, hbounded, hnonce, howner, hscopes, by simpa using hcovered⟩

theorem phaseA_end {a : PhaseA} (h : v.phaseA H = .ok a) : PhaseAEnd v a := by
  unfold phaseA at h
  split at h
  · exact noChargeFail_end h
  · next hreg =>
    split at h
    · exact noChargeFail_end h
    · split at h
      · exact noChargeFail_end h
      · next hbounded =>
        split at h
        · exact expirePre_end h
        · split at h
          · exact noChargeFail_end h
          · next hnonce =>
            split at h
            · exact spamFail_end h
            · split at h
              · exact spamFail_end h
              · split at h
                · exact spamFail_end h
                · next howner =>
                  refine phaseAScopes_end (by simpa using hreg) (by simpa using hbounded) ?_ howner h
                  exact not_not.mp hnonce

/-- The effects that a trace stages: those of the results of the steps. -/
def stagedDeltas (v : Validator) : List Json :=
  (v.trace.steps.take v.steps.length).flatMap StepResult.effects

/-- The effects after steps that all succeed. -/
theorem runSteps_effects {steps : List Json} {trs : List StepResult} {committed effects : List Json}
    (h : v.runSteps H steps trs committed = .ok (effects, none)) :
    effects = committed ++ (trs.take steps.length).flatMap StepResult.effects := by
  induction steps generalizing trs committed with
  | nil => cases h; simp
  | cons step steps ih =>
    cases trs with
    | nil => cases h
    | cons tr trs =>
      rw [runSteps] at h
      split at h
      · cases h
      · simp only [bind_eq_ok] at h
        obtain ⟨failure, -, h⟩ := h
        cases failure with
        | some reason => cases h
        | none => simp [ih h]

/-- The ends that commit nothing, with their bills. -/
inductive Dropped (v : Validator) (events : List Json) : ValidationResult → Prop
  | expired (bill : GasBill) (hbill : settle .EXPIRED_POST v.cal v.snapshot 0 0 = .ok bill) :
    Dropped v events ⟨events ++ [v.expiredPost bill], .EXPIRED, none, bill⟩
  | failed (reason : ReasonCode) (bytes : ℤ) (bill : GasBill) (hbytes : 0 ≤ bytes)
    (hbill : settle .FAILED_EXEC v.cal v.snapshot bytes v.ownerAuth = .ok bill) :
    Dropped v events ⟨events ++ [v.failedPost reason bill], .FAILED, some reason, bill⟩

/-- The ends of phase B: before the execution, after it, and the finalization. -/
inductive PhaseBEnd (v : Validator) (events : List Json) : ValidationResult → Prop
  | dropped (r : ValidationResult) (h : Dropped v events r) : PhaseBEnd v events r
  | executed (bytes units : ℤ) (r : ValidationResult) (hbytes : 0 ≤ bytes)
    (hunits : gasUnits v.cal bytes v.ownerAuth = .ok units)
    (hmax : toNano units (gasPrice v.snapshot) ≤ v.maxGas)
    (h : Dropped v
      (events ++ [v.executedEvent v.stagedDeltas (toNano units (gasPrice v.snapshot))]) r) :
    PhaseBEnd v events r
  | finalized (bytes units : ℤ) (bill : GasBill) (hbytes : 0 ≤ bytes)
    (hunits : gasUnits v.cal bytes v.ownerAuth = .ok units)
    (hmax : toNano units (gasPrice v.snapshot) ≤ v.maxGas)
    (hbill : settle .FINALIZED v.cal v.snapshot bytes v.ownerAuth = .ok bill) :
    PhaseBEnd v events
      ⟨events ++ [v.executedEvent v.stagedDeltas (toNano units (gasPrice v.snapshot))] ++
        [v.settledEvent] ++ [v.finalizedEvent (toNano units (gasPrice v.snapshot)) bill
          v.steps.length v.invariants.length], .FINALIZED, none, bill⟩

theorem effectsBytes_nonneg {effects : List Json} {n : ℤ} (h : effectsBytes H effects = .ok n) :
    0 ≤ n := by
  simp only [effectsBytes, bind_eq_ok, pure_eq_ok] at h
  obtain ⟨b, -, rfl⟩ := h
  exact Int.natCast_nonneg _

theorem expirePost_dropped {events : List Json} {r : ValidationResult}
    (h : v.expirePost events = .ok r) : Dropped v events r := by
  simp only [expirePost, bind_eq_ok, pure_eq_ok] at h
  obtain ⟨bill, hbill, rfl⟩ := h
  exact .expired bill hbill

theorem execFail_dropped {events effects : List Json} {reason : ReasonCode} {r : ValidationResult}
    (h : v.execFail H events reason effects = .ok r) : Dropped v events r := by
  simp only [execFail, bind_eq_ok, pure_eq_ok] at h
  obtain ⟨bytes, hbytes, bill, hbill, rfl⟩ := h
  exact .failed reason bytes bill (effectsBytes_nonneg hbytes) hbill

/-- The ends of the gates after the execution. -/
theorem phaseBExecuted_end {events effects : List Json} {bytes consumed : ℤ} {r : ValidationResult}
    (h : v.phaseBExecuted H events effects bytes consumed = .ok r) :
    Dropped v (events ++ [v.executedEvent effects consumed]) r ∨
      ∃ bill, settle .FINALIZED v.cal v.snapshot bytes v.ownerAuth = .ok bill ∧
        r = ⟨events ++ [v.executedEvent effects consumed] ++ [v.settledEvent] ++
          [v.finalizedEvent consumed bill v.steps.length v.invariants.length], .FINALIZED, none,
          bill⟩ := by
  simp only [phaseBExecuted] at h
  split at h
  · exact .inl (expirePost_dropped h)
  · simp only [bind_eq_ok] at h
    obtain ⟨hold, -, h⟩ := h
    split at h
    · exact .inl (execFail_dropped h)
    · simp only [bind_eq_ok, pure_eq_ok] at h
      obtain ⟨bill, hbill, rfl⟩ := h
      exact .inr ⟨bill, hbill, rfl⟩

theorem phaseB_end {events : List Json} {r : ValidationResult} (h : v.phaseB H events = .ok r) :
    PhaseBEnd v events r := by
  unfold phaseB at h
  split at h
  · exact .dropped r (expirePost_dropped h)
  · simp only [bind_eq_ok] at h
    obtain ⟨⟨effects, failure⟩, hsteps, h⟩ := h
    cases failure with
    | some reason => exact .dropped r (execFail_dropped h)
    | none =>
      obtain rfl : effects = v.stagedDeltas := by
        rw [runSteps_effects hsteps, List.nil_append, stagedDeltas]
      simp only [bind_eq_ok] at h
      obtain ⟨bytes, hbytes, units, hunits, h⟩ := h
      split at h
      · exact .dropped r (execFail_dropped h)
      · next hmax =>
        rcases phaseBExecuted_end h with hd | ⟨bill, hbill, rfl⟩
        · exact .executed bytes units r (effectsBytes_nonneg hbytes) hunits (not_lt.mp hmax) hd
        · exact .finalized bytes units bill (effectsBytes_nonneg hbytes) hunits (not_lt.mp hmax) hbill

/-- The end of phase A is VALIDATED if the validation emits `cal.validated`. -/
theorem emits_validated {r : ValidationResult} (h : v.PhaseAEnd (.terminal r)) :
    ¬HasValidated r.events := by
  rintro ⟨e, he, htype⟩
  rw [isStr_iff] at htype
  cases h with
  | spam reason =>
    rw [List.mem_singleton.mp he] at htype
    simp [failedPre, event, Json.read, OrderedMap.get] at htype
  | noCharge reason =>
    rw [List.mem_singleton.mp he] at htype
    simp [failedPre, event, Json.read, OrderedMap.get] at htype
  | expired =>
    rw [List.mem_singleton.mp he] at htype
    simp [expiredPre, event, Json.read, OrderedMap.get] at htype

end Validator

/-- A validation that emits `cal.validated` has passed the gates. -/
theorem emits_gates {H : Host} {cal snapshot : Json} {ch : Str} {trace : ExecutionTrace}
    (h : Emits H cal ch snapshot trace) : Validator.Gates ⟨cal, ch, snapshot, trace⟩ := by
  rcases h with ⟨r, hr, hv⟩ | ⟨r, hr, hv⟩
  · simp only [validate, bind_eq_ok] at hr
    obtain ⟨a, ha, hr⟩ := hr
    have hend := Validator.phaseA_end ha
    cases a with
    | terminal t =>
      cases hr
      exact absurd hv (Validator.emits_validated hend)
    | validated events =>
      cases hend with
      | validated gates => exact gates
  · simp only [validateToValidated, bind_eq_ok] at hr
    obtain ⟨a, ha, hr⟩ := hr
    have hend := Validator.phaseA_end ha
    cases a with
    | terminal t =>
      cases hr
      exact absurd hv (Validator.emits_validated hend)
    | validated events =>
      cases hend with
      | validated gates => exact gates

/-- The first stage emits `cal.validated`, decided. -/
def reachesValidated (H : Host) (v : Validator) : Bool :=
  match validateToValidated H v.cal v.calHash v.snapshot v.trace with
  | .ok r => decide (HasValidated r.events)
  | .error _ => false

theorem emits_of_reachesValidated {H : Host} {v : Validator} (h : reachesValidated H v = true) :
    Emits H v.cal v.calHash v.snapshot v.trace := by
  unfold reachesValidated at h
  split at h
  · next r hr => exact .inr ⟨r, hr, of_decide_eq_true h⟩
  · cases h

end ParadigmTerra
