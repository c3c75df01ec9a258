import ParadigmTerra.Dsl.Reads
import ParadigmTerra.Node.Replay
import ParadigmTerra.Validator.Finalized

/-!
# Invariants and the committed state

The validator evaluates the invariants of a CAL over the two states that the trace carries. The node
does not compare them with its own, so that a CAL is finalized on the word of its trace:
`forged_trace_finalizes` is a run where the committed state breaks the invariant.

`finalized_invariants` is what holds of every finalized submission: its invariants are true of the
trace's states, and of the reducer's states before and after the submission whenever these hold the
same at the paths that the invariant reads.
-/

namespace ParadigmTerra

open Text OrderedMap Fallible

variable {H : Host}

/-! ## The ingress leaves the mode as it is -/

/-- The flag of Bounded Mode is an own member. -/
theorem getIn_boundedMode (s : State) :
    getIn s [js "failure_mode", js "is_bounded_mode"] =
      ownIn s [js "failure_mode", js "is_bounded_mode"] :=
  getIn_snoc s [js "failure_mode"] (by simp [inheritedNames])

theorem boundedMode_setIn (s : State) (p : List Str) (x : Json) :
    getIn (setIn (some s) (js "cal" :: p) x) [js "failure_mode", js "is_bounded_mode"] =
      getIn s [js "failure_mode", js "is_bounded_mode"] := by
  rw [getIn_boundedMode, getIn_boundedMode,
    ownIn_setIn_of_apart (p := js "cal" :: p) (apart_cons.mpr (.inl (by simp)))]

/-- The ingress only writes the entry of the CAL. -/
theorem boundedMode_ingress {s t : State} {ch agent : Str}
    (h : AcceptsAll s (ingressEvents ch agent) t) :
    getIn t [js "failure_mode", js "is_bounded_mode"] =
      getIn s [js "failure_mode", js "is_bounded_mode"] := by
  obtain ⟨u, -, hcreated, h⟩ := run_cons h
  obtain ⟨t', -, hsigned, hnil⟩ := run_cons h
  cases run_nil hnil
  rw [accepts_iff, (isEvent_created ch agent).applyEvent] at hcreated
  rw [accepts_iff, (isEvent_signed ch).applyEvent] at hsigned
  simp only [EventType.step, calCreated, bind_eq_ok, pure_eq_ok] at hcreated
  simp only [EventType.step, calSigned, bind_eq_ok, pure_eq_ok] at hsigned
  obtain ⟨_, -, _, -, _, -, _, -, rfl⟩ := hcreated
  obtain ⟨_, -, _, -, _, -, rfl⟩ := hsigned
  rw [boundedMode_setIn, boundedMode_setIn]

/-! ## Finalized submissions -/

/-- An invariant of a finalized submission is true of the states of its trace. If the trace holds the
same as the reducer's states before and after the submission at what the invariant reads, then it is
true of the reducer's states. The fold may be at any state, and so at every one that a node reaches. -/
theorem finalized_invariants {tick : ℤ} {f g : Fold} {sub : Submission} {r : SubmissionResult}
    (hmode : sub.mode.getD .atomic = .atomic) (h : applySubmission H tick f sub = .ok (g, r))
    (hfin : r.terminalStage = some .FINALIZED) :
    ∀ inv ∈ (sub.validator r.calHash tick f.state).invariants,
      HoldsOn H inv sub.trace.stateBefore sub.trace.stateAfter ∧
        (AgreeOn (readsOf inv .invariant) .invariant
            (pair sub.trace.stateBefore sub.trace.stateAfter) (pair f.state g.state) →
          HoldsOn H inv f.state g.state) := by
  suffices hall : ∀ inv ∈ (sub.validator r.calHash tick f.state).invariants,
      HoldsOn H inv sub.trace.stateBefore sub.trace.stateAfter by
    intro inv hinv
    obtain ⟨o, ho, htrue⟩ := hall inv hinv
    exact ⟨⟨o, ho, htrue⟩, fun hagree => ⟨o, (evalExpr_congr hagree).symm.trans ho, htrue⟩⟩
  simp only [applySubmission, bind_eq_ok] at h
  obtain ⟨b, -, agent, -, h⟩ := h
  split at h
  · next hresume =>
    rw [hmode] at hresume
    cases hresume
  · simp only [bind_eq_ok] at h
    obtain ⟨⟨p, rejected⟩, hin, h⟩ := h
    cases rejected with
    | some code =>
      cases h
      cases hfin
    | none =>
      rcases ingress_extends hin with ⟨-, hext⟩ | ⟨_, _, _, _, -, -, hcode, -⟩
      · simp only [drive, hmode, bind_eq_ok, pure_eq_ok, Prod.mk.injEq] at h
        obtain ⟨res, hres, q, -, -, rfl⟩ := h
        have hinv := Validator.validate_finalized hres (Option.some.inj hfin)
        -- the validator sees the state after the ingress, in the same mode
        have hbounded := boundedMode_ingress hext.run
        simp only [Validator.invariants, Validator.boundedMode, hbounded] at hinv
        exact hinv
      · cases hcode

/-! ## A trace that does not tell the state -/

/-- A field of the state after the execution has a value. -/
def afterIs (field : String) (v : Json) : Json :=
  binaryNode "eq" (varNode ("state.after." ++ field)) (constNode v)

/-- A CAL that declares a net asset value and the normal mode, with a trace that has both. -/
def submitForged : Submission where
  cal := setIn (some (submitFeed .atomic).cal) [js "invariants"]
    (.arr [afterIs "treasury.nav" (.int 7), afterIs "failure_mode.is_bounded_mode" (.bool false)])
  trace := { (submitFeed .atomic).trace with
    stateAfter := .obj [(js "treasury", .obj [(js "nav", .int 7)]),
      (js "failure_mode", .obj [(js "is_bounded_mode", .bool false)])] }
  mode := none

/-- The fold before the first submission. -/
def feedFold : Fold := ⟨feedState, 0, ZERO32, []⟩

/-- A block of one submission at the node's tick is that submission. -/
theorem applyTick_single {incr : IncrementalState} {sub : Submission} {step : TickStep}
    (h : applyTick H incr ⟨incr.currentTick, [sub]⟩ = .ok step) :
    ∃ g r, applySubmission H incr.currentTick
        ⟨incr.state, incr.eventCount, incr.lastEventHash, []⟩ sub = .ok (g, r) ∧
      step.next.state = g.state ∧ step.tickResult.submissions = [r] := by
  simp only [applyTick, lt_irrefl, if_false, advanceTick, pure_bind, applySubmissions,
    bind_eq_ok, pure_eq_ok] at h
  obtain ⟨_, ⟨⟨g, r⟩, hsub, rfl⟩, root, -, global, -, rfl⟩ := h
  exact ⟨g, r, hsub, rfl, rfl⟩

/-- The path that the invariant of a net asset value reads. -/
theorem readsOf_nav : readsOf (afterIs "treasury.nav" (.int 7)) .invariant =
    [[js "state", js "after", js "treasury", js "nav"]] := by decide +kernel

theorem readsOf_mode : readsOf (afterIs "failure_mode.is_bounded_mode" (.bool false)) .invariant =
    [[js "state", js "after", js "failure_mode", js "is_bounded_mode"]] := by decide +kernel

/-- Whether the number is stored. -/
def storesInt (n : ℤ) : Option Json → Bool
  | some (.int m) => m = n
  | _ => false

/-- Whether the flag is stored. -/
def storesBool (b : Bool) : Option Json → Bool
  | some (.bool c) => c = b
  | _ => false

theorem eq_of_storesInt {n : ℤ} {v : Option Json} (h : storesInt n v = true) : v = some (.int n) := by
  unfold storesInt at h
  split at h
  · rw [of_decide_eq_true h]
  · cases h

theorem eq_of_storesBool {b : Bool} {v : Option Json} (h : storesBool b v = true) : v = some (.bool b) := by
  unfold storesBool at h
  split at h
  · rw [of_decide_eq_true h]
  · cases h

/-- The submission is finalized. The reducer's net asset value stays at zero, and its mode normal. -/
theorem submitForged_spec :
    ∃ step g r, applyTick Escape.host (initIncremental feedState) ⟨0, [submitForged]⟩ = .ok step ∧
      step.next.state = g.state ∧ step.tickResult.submissions = [r] ∧
      applySubmission Escape.host 0 feedFold submitForged = .ok (g, r) ∧
      r.terminalStage = some .FINALIZED ∧
      getIn g.state [js "treasury", js "nav"] = some (.int 0) ∧
      getIn g.state [js "failure_mode", js "is_bounded_mode"] = some (.bool false) := by
  obtain ⟨step, h, htest⟩ := exists_of_any
    (x := applyTick Escape.host (initIncremental feedState) ⟨0, [submitForged]⟩)
    (p := fun step => step.tickResult.submissions.all (fun r => r.terminalStage = some .FINALIZED) &&
      storesInt 0 (getIn step.next.state [js "treasury", js "nav"]) &&
      storesBool false (getIn step.next.state [js "failure_mode", js "is_bounded_mode"]))
    (by decide +kernel)
  obtain ⟨g, r, hsub, hstate, hresults⟩ := applyTick_single h
  rw [hresults, hstate, Bool.and_eq_true, Bool.and_eq_true] at htest
  obtain ⟨⟨hfin, hnav⟩, hmode⟩ := htest
  refine ⟨step, g, r, h, hstate, hresults, hsub, by simpa using hfin,
    eq_of_storesInt hnav, eq_of_storesBool hmode⟩

/-- The declared invariant on which the trace and the reducer's states agree. -/
theorem finalized_invariants_normalMode :
    ∃ g r, applySubmission Escape.host 0 feedFold submitForged = .ok (g, r) ∧
      HoldsOn Escape.host (afterIs "failure_mode.is_bounded_mode" (.bool false)) feedState
        g.state := by
  obtain ⟨step, g, r, -, -, -, h, hfin, -, hmode⟩ := submitForged_spec
  refine ⟨g, r, h, ((finalized_invariants (by rfl) h hfin) _ ?_).2 fun p hp => ?_⟩
  · change _ ∈ [afterIs "treasury.nav" (.int 7),
      afterIs "failure_mode.is_bounded_mode" (.bool false)]
    simp
  · rw [readsOf_mode] at hp
    cases List.mem_singleton.mp hp
    change Except.ok _ = Except.ok (getIn g.state [js "failure_mode", js "is_bounded_mode"])
    rw [hmode]
    rfl

/-- A finalized submission whose declared invariant, which reads the net asset value alone, is not true
of the reducer's states. -/
theorem forged_trace_finalizes :
    ∃ step r, applyTick Escape.host (initIncremental feedState) ⟨0, [submitForged]⟩ = .ok step ∧
      step.tickResult.submissions = [r] ∧ r.terminalStage = some .FINALIZED ∧
      afterIs "treasury.nav" (.int 7) ∈ listOf (getIn submitForged.cal [js "invariants"]) ∧
      readsOf (afterIs "treasury.nav" (.int 7)) .invariant =
        [[js "state", js "after", js "treasury", js "nav"]] ∧
      ¬HoldsOn Escape.host (afterIs "treasury.nav" (.int 7)) feedState step.next.state := by
  obtain ⟨step, g, r, hstep, hstate, hresults, -, hfin, hnav, -⟩ := submitForged_spec
  refine ⟨step, r, hstep, hresults, hfin, ?_, readsOf_nav, ?_⟩
  · change _ ∈ [afterIs "treasury.nav" (.int 7),
      afterIs "failure_mode.is_bounded_mode" (.bool false)]
    simp
  · rintro ⟨o, ho, htrue⟩
    -- the net asset value is as in the state before
    have hagree : AgreeOn (readsOf (afterIs "treasury.nav" (.int 7)) .invariant) .invariant
        (pair feedState step.next.state) (pair feedState feedState) := by
      rw [readsOf_nav, hstate]
      intro p hp
      cases List.mem_singleton.mp hp
      change Except.ok (getIn g.state [js "treasury", js "nav"]) = Except.ok _
      rw [hnav]
      rfl
    rw [evalExpr_congr hagree] at ho
    have hfalse : (evalExpr Escape.host (some (afterIs "treasury.nav" (.int 7))) .invariant
        (pair feedState feedState)).toOption.all (fun o => o.code ≠ .EVALUATION_TRUE) = true := by
      decide +kernel
    rw [ho] at hfalse
    exact of_decide_eq_true hfalse htrue

end ParadigmTerra
