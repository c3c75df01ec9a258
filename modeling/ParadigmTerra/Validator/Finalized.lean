import ParadigmTerra.Validator.Quorum

/-!
# What a finalized CAL has passed

`Passed` is what phase B has checked when it ends in FINALIZED, and `validate_passed` adds what phase A has.

In Bounded Mode this comes to `bounded_mode_enforced`: the action is on the whitelist, the owner has
agreed, and the post-conditions of the steps and the invariants, with the three that the mode adds, are
true of the states of the trace.
-/

namespace ParadigmTerra

open Text Fallible

/-- The two states that the invariants of a submission see. -/
def pair (before after : Json) : Bindings := { before := some before, after := some after }

/-- An invariant is true of a pair of states. -/
def HoldsOn (H : Host) (inv before after : Json) : Prop :=
  ∃ o, evalExpr H (some inv) .invariant (pair before after) = .ok o ∧ o.code = .EVALUATION_TRUE

/-- A post-condition of a step is true of a pair of states. -/
def HoldsAfter (H : Host) (step pc before after : Json) : Prop :=
  ∃ o, evalExpr H (some pc) .post_condition
      { pair before after with params := getIn step [js "params"] } = .ok o ∧
    o.code = .EVALUATION_TRUE

/-- The post-conditions of a step. -/
def postConditionsOf (step : Json) : List Json := listOf (getIn step [js "post_conditions"])

namespace Validator

variable {H : Host} {v : Validator}

theorem invariantsHold_spec {invs : List Json} (h : v.invariantsHold H invs = .ok true) :
    ∀ inv ∈ invs, HoldsOn H inv v.trace.stateBefore v.trace.stateAfter := by
  induction invs with
  | nil => nofun
  | cons inv invs ih =>
    simp only [invariantsHold, bind_eq_ok] at h
    obtain ⟨o, ho, h⟩ := h
    split at h
    · next htrue => exact List.forall_mem_cons.mpr ⟨⟨o, ho, htrue⟩, ih h⟩
    · cases h

theorem postConditions_spec {step : Json} {pcs : List Json}
    (h : v.postConditions H (getIn step [js "params"]) pcs = .ok none) :
    ∀ pc ∈ pcs, HoldsAfter H step pc v.trace.stateBefore v.trace.stateAfter := by
  induction pcs with
  | nil => nofun
  | cons pc pcs ih =>
    simp only [postConditions, bind_eq_ok] at h
    obtain ⟨o, ho, h⟩ := h
    split at h
    · next htrue => exact List.forall_mem_cons.mpr ⟨⟨o, ho, htrue⟩, ih h⟩
    · split at h <;> cases h

/-- A step was observed to succeed, and its post-conditions are true. -/
structure StepPassed (H : Host) (v : Validator) (step : Json) (tr : StepResult) : Prop where
  ok : tr.ok = true
  holds : ∀ pc ∈ postConditionsOf step, HoldsAfter H step pc v.trace.stateBefore v.trace.stateAfter

/-- Steps without a failure: each has its result in the trace. -/
theorem runSteps_spec {steps : List Json} {trs : List StepResult} {committed effects : List Json}
    (h : v.runSteps H steps trs committed = .ok (effects, none)) :
    List.Forall₂ (StepPassed H v) steps (trs.take steps.length) := by
  induction steps generalizing trs committed with
  | nil => exact .nil
  | cons step steps ih =>
    cases trs with
    | nil => cases h
    | cons tr trs =>
      rw [runSteps] at h
      split at h
      · cases h
      · next hok =>
        simp only [bind_eq_ok] at h
        obtain ⟨failure, hpcs, h⟩ := h
        cases failure with
        | some reason => cases h
        | none => exact .cons ⟨by simpa using hok, postConditions_spec hpcs⟩ (ih h)

theorem dropped_not_finalized {events : List Json} {r : ValidationResult} (h : Dropped v events r) :
    r.terminalStage ≠ .FINALIZED := by
  cases h <;> simp

/-- What phase B has checked at FINALIZED, and what it ends with. -/
structure Passed (H : Host) (v : Validator) (events : List Json) (r : ValidationResult) : Prop where
  inTime : v.tick ≤ v.expiration
  steps : List.Forall₂ (StepPassed H v) v.steps (v.trace.steps.take v.steps.length)
  invariants : ∀ inv ∈ v.invariants, HoldsOn H inv v.trace.stateBefore v.trace.stateAfter
  ends : ∃ effects consumed bill, r.events = events ++ [v.executedEvent effects consumed] ++
    [v.settledEvent] ++ [v.finalizedEvent consumed bill v.steps.length v.invariants.length]

/-- A CAL that phase B finalizes has passed its gates. -/
theorem phaseB_passed {events : List Json} {r : ValidationResult} (h : v.phaseB H events = .ok r)
    (hfin : r.terminalStage = .FINALIZED) : Passed H v events r := by
  unfold phaseB at h
  split at h
  · exact absurd hfin (dropped_not_finalized (expirePost_dropped h))
  · next htick =>
    simp only [bind_eq_ok] at h
    obtain ⟨⟨effects, failure⟩, hsteps, h⟩ := h
    cases failure with
    | some reason => exact absurd hfin (dropped_not_finalized (execFail_dropped h))
    | none =>
      simp only [bind_eq_ok] at h
      obtain ⟨bytes, -, units, -, h⟩ := h
      split at h
      · exact absurd hfin (dropped_not_finalized (execFail_dropped h))
      · unfold phaseBExecuted at h
        simp only at h
        rw [if_neg htick] at h
        simp only [bind_eq_ok] at h
        obtain ⟨hold, hhold, h⟩ := h
        split at h
        · exact absurd hfin (dropped_not_finalized (execFail_dropped h))
        · next hb =>
          simp only [bind_eq_ok, pure_eq_ok] at h
          obtain ⟨bill, -, rfl⟩ := h
          obtain rfl : hold = true := by simpa using hb
          exact ⟨not_lt.mp htick, runSteps_spec hsteps, invariantsHold_spec hhold, _, _, bill, rfl⟩

/-- A CAL that is finalized has passed both phases. -/
theorem validate_passed {cal s : Json} {ch : Str} {trace : ExecutionTrace} {r : ValidationResult}
    (h : validate H cal ch s trace = .ok r) (hfin : r.terminalStage = .FINALIZED) :
    Gates ⟨cal, ch, s, trace⟩ ∧
      Passed H ⟨cal, ch, s, trace⟩ [(⟨cal, ch, s, trace⟩ : Validator).validatedEvent] r := by
  simp only [validate, bind_eq_ok] at h
  obtain ⟨a, ha, h⟩ := h
  have hend := phaseA_end ha
  cases hend with
  | validated gates => exact ⟨gates, phaseB_passed h hfin⟩
  | _ =>
    cases h
    cases hfin

theorem validate_finalized {cal s : Json} {ch : Str} {trace : ExecutionTrace} {r : ValidationResult}
    (h : validate H cal ch s trace = .ok r) (hfin : r.terminalStage = .FINALIZED) :
    ∀ inv ∈ (⟨cal, ch, s, trace⟩ : Validator).invariants,
      HoldsOn H inv trace.stateBefore trace.stateAfter := (validate_passed h hfin).2.invariants

/-! ## Bounded Mode -/

/-- The owner has agreed: at least as many distinct owners as the record's threshold, or for a record
without a list of owners, the owner's signature, with a key in the record. -/
def OwnerAgreed (v : Validator) : Prop :=
  match v.agentField "owners" with
  | some (.arr os) => onlyStrings os ≠ [] ∧ (∀ s ∈ v.signers, s ≠ [] ∧ Json.str s ∈ os) ∧
      v.signers.Nodup ∧ asBig (v.agentField "threshold") 0 ≤ v.signers.length
  | _ => v.trace.ownerSigPresent = true ∧ asStr (v.agentField "owner_pubkey") ≠ []

theorem ownerHeld_agreed (h : v.ownerHeld = true) : OwnerAgreed v := by
  unfold ownerHeld at h
  unfold OwnerAgreed
  cases howners : v.agentField "owners" with
  | none => simpa [howners] using h
  | some w =>
    cases w with
    | arr os =>
      simp only [howners, Bool.and_eq_true, decide_eq_true_eq, Option.isNone_iff_eq_none] at h ⊢
      obtain ⟨hmem, hnodup, hquorum⟩ := multisigQuorum_eq_none h.2
      exact ⟨h.1, fun s hs => ⟨(hmem s hs).1, mem_onlyStrings (hmem s hs).2⟩, hnodup, hquorum⟩
    | _ => simpa [howners] using h

/-- The event that reports a finalization, with the numbers of steps and invariants in it. -/
structure Reports (ev : Json) (steps invariants : ℕ) : Prop where
  type : ev.read (js "event_type") = some (.str (js "cal.finalized"))
  steps : ev.read (js "steps_applied") = some (.int steps)
  invariants : ev.read (js "invariants_checked") = some (.int invariants)

theorem finalizedEvent_reports (consumed : ℤ) (bill : GasBill) (n k : ℕ) :
    Reports (v.finalizedEvent consumed bill n k) n k := by
  constructor <;> simp [finalizedEvent, event, Json.read, OrderedMap.get]

end Validator

open Validator

/-- In Bounded Mode, a CAL is finalized only if its action is on the whitelist, the owner has agreed, and
the invariants that it declares, the emergency invariants and the post-conditions of all its steps are
true. The last event reports how many were checked. -/
theorem bounded_mode_enforced {H : Host} {cal snapshot : Json} {ch : Str} {trace : ExecutionTrace}
    {r : ValidationResult}
    (hmode : getIn snapshot [js "failure_mode", js "is_bounded_mode"] = some (.bool true))
    (h : validate H cal ch snapshot trace = .ok r) (hfin : r.terminalStage = .FINALIZED) :
    let v : Validator := ⟨cal, ch, snapshot, trace⟩
    isBoundedAllowed v.action = true ∧ OwnerAgreed v ∧
      (∀ inv ∈ listOf (getIn cal [js "invariants"]) ++ EMERGENCY_INVARIANTS,
        HoldsOn H inv trace.stateBefore trace.stateAfter) ∧
      List.Forall₂ (StepPassed H v) v.steps (trace.steps.take v.steps.length) ∧
      ∃ init ev, r.events = init ++ [ev] ∧ Reports ev v.steps.length
        ((listOf (getIn cal [js "invariants"])).length + EMERGENCY_INVARIANTS.length) ∧
        ∀ e ∈ init, e.read (js "event_type") ≠ some (.str (js "cal.finalized")) := by
  intro v
  obtain ⟨gates, passed⟩ := validate_passed h hfin
  have hbounded : v.boundedMode = true := by
    unfold boundedMode
    rw [hmode]
  have hinvariants : v.invariants = listOf (getIn cal [js "invariants"]) ++ EMERGENCY_INVARIANTS := by
    unfold Validator.invariants effectiveInvariants
    rw [hbounded, if_pos rfl]
  have howner : v.ownerRequired = true := by
    unfold ownerRequired
    rw [hbounded, Bool.or_true]
  have hholds := passed.invariants
  rw [hinvariants] at hholds
  obtain ⟨effects, consumed, bill, hevents⟩ := passed.ends
  refine ⟨gates.bounded hbounded, ownerHeld_agreed (gates.ownerHeld howner), hholds, passed.steps,
    _, _, hevents, ?_, ?_⟩
  · have hlength := congrArg List.length hinvariants
    rw [List.length_append] at hlength
    rw [← hlength]
    exact finalizedEvent_reports consumed bill _ _
  · intro e he
    simp only [List.mem_append, List.mem_singleton] at he
    rcases he with (rfl | rfl) | rfl <;>
      simp [validatedEvent, executedEvent, settledEvent, event, Json.read, OrderedMap.get]

/-- A feed submission in Bounded Mode, with the states that the emergency invariants are true of. -/
def boundedFeed : Validator :=
  let state : Json := .obj [(js "treasury", .obj [(js "developer_fund_balance", .int 0), (js "nav", .int 0)]),
    (js "failure_mode", .obj [(js "is_bounded_mode", .bool true)])]
  { cal := Escape.calOf (js "oracles.submit_feed") (js "oracles.submit_feed")
    calHash := js "H"
    snapshot := setIn (some (Escape.snapshotOf (js "oracles.submit_feed") []))
      [js "failure_mode", js "is_bounded_mode"] (.bool true)
    trace := { Escape.traceOf [] [] with
      steps := [⟨true, [], none⟩]
      stateBefore := state
      stateAfter := state
      ownerSigPresent := true } }

theorem bounded_mode_enforced_feed : ∃ r,
    validate Escape.host boundedFeed.cal boundedFeed.calHash boundedFeed.snapshot boundedFeed.trace =
      .ok r ∧ OwnerAgreed boundedFeed := by
  obtain ⟨r, hr, hfin⟩ := exists_of_any (x := validate Escape.host boundedFeed.cal boundedFeed.calHash
    boundedFeed.snapshot boundedFeed.trace) (p := fun r => r.terminalStage = .FINALIZED)
    (by decide +kernel)
  have h := bounded_mode_enforced (by rfl) hr (of_decide_eq_true hfin)
  exact ⟨r, hr, h.2.1⟩

end ParadigmTerra
