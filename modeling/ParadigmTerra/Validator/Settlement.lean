import ParadigmTerra.Reducer.Lifecycle
import ParadigmTerra.Validator.Capability

/-!
# The bill is what the reducer moves

The validator prices a CAL on one snapshot and bakes the amounts into its events; the reducer moves
what the events say.

`phaseB_accepted` is one half: from an entry at VALIDATED whose escrow covers the gas priced on the
snapshot, the reducer accepts the events of phase B whatever their end, the last of them is the only
terminal one, and the refund returns out of the escrow. With phase A before it, `validate_moves_bill`
says that the agent pays exactly the bill, in every outcome.
-/

namespace ParadigmTerra

open Text OrderedMap Fallible

/-- An event that ends a CAL. -/
def IsTerminal (ev : Event) : Bool :=
  isStr (ev.read (js "event_type")) EventType.finalized.name ||
    isStr (ev.read (js "event_type")) EventType.failed.name ||
    isStr (ev.read (js "event_type")) EventType.expired.name

/-- The last event, and no other, is terminal. -/
def EndsOnce (evs : List Event) : Prop :=
  ∃ before last, evs = before ++ [last] ∧ IsTerminal last = true ∧
    ∀ e ∈ before, IsTerminal e = false

theorem EndsOnce.cons {ev : Event} {evs : List Event} (hev : IsTerminal ev = false)
    (h : EndsOnce evs) : EndsOnce (ev :: evs) := by
  obtain ⟨before, last, rfl, hlast, hbefore⟩ := h
  refine ⟨ev :: before, last, rfl, hlast, fun e he => ?_⟩
  rcases List.mem_cons.mp he with rfl | he
  · exact hev
  · exact hbefore e he

/-- Whether an event is terminal is decided by its type. -/
theorem IsEvent.isTerminal {ev : Event} {type : EventType} {ch : Str} (h : IsEvent ev type ch) :
    IsTerminal ev = decide (type = .finalized ∨ type = .failed ∨ type = .expired) := by
  cases type <;> simp [IsTerminal, h.type, isStr, EventType.name]

theorem EndsOnce.single {ev : Event} (hev : IsTerminal ev = true) : EndsOnce [ev] :=
  ⟨[], ev, rfl, hev, fun _ he => nomatch he⟩

namespace Validator

variable {H : Host} {v : Validator}

/-! ## The events -/

theorem isEvent_event (type : EventType) {text : String} (h : type.name = js text)
    (rest : List (Str × Json)) : IsEvent (v.event text rest) type v.calHash where
  type := by simp [h, event, Json.read, OrderedMap.get]
  hash := by simp [event, Json.read, OrderedMap.get]

theorem failedPre_isEvent (reason : ReasonCode) (charge : ℤ) :
    IsEvent (v.failedPre reason charge) .failed v.calHash := isEvent_event .failed rfl _

theorem failedPre_charge (reason : ReasonCode) (charge : ℤ) :
    (v.failedPre reason charge).read (js "fee_debited_ptra") = some (.int charge) := by
  simp [failedPre, event, Json.read, OrderedMap.get]

theorem expiredPre_isEvent : IsEvent v.expiredPre .expired v.calHash :=
  isEvent_event .expired rfl _

theorem expiredPre_charge : v.expiredPre.read (js "fee_debited_ptra") = none := by
  simp [expiredPre, event, Json.read, OrderedMap.get, inherited, inheritedNames]

theorem validatedEvent_isEvent : IsEvent v.validatedEvent .validated v.calHash :=
  isEvent_event .validated rfl _

theorem validatedEvent_escrow :
    v.validatedEvent.read (js "escrow_ptra") = some (.int (escrowRequirement v.cal v.snapshot)) := by
  simp [validatedEvent, event, Json.read, OrderedMap.get, escrowRequirement, fee, maxGas]

theorem failedPost_isEvent (reason : ReasonCode) (bill : GasBill) :
    IsEvent (v.failedPost reason bill) .failed v.calHash := isEvent_event .failed rfl _

theorem failedPost_refund (reason : ReasonCode) (bill : GasBill) :
    (v.failedPost reason bill).read (js "gas_refunded_ptra") = some (.int bill.gasRefunded) := by
  simp [failedPost, event, Json.read, OrderedMap.get]

theorem expiredPost_isEvent (bill : GasBill) :
    IsEvent (v.expiredPost bill) .expired v.calHash := isEvent_event .expired rfl _

theorem expiredPost_refund (bill : GasBill) :
    (v.expiredPost bill).read (js "gas_refunded_ptra") = some (.int bill.gasRefunded) := by
  simp [expiredPost, event, Json.read, OrderedMap.get]

theorem executedEvent_isEvent (effects : List Json) (consumed : ℤ) :
    IsEvent (v.executedEvent effects consumed) .executed v.calHash := isEvent_event .executed rfl _

theorem executedEvent_effects (effects : List Json) (consumed : ℤ) :
    (v.executedEvent effects consumed).read (js "effects") = some (.arr effects) := by
  simp [executedEvent, event, Json.read, OrderedMap.get]

theorem executedEvent_consumed (effects : List Json) (consumed : ℤ) :
    (v.executedEvent effects consumed).read (js "gas_consumed_ptra") = some (.int consumed) := by
  simp [executedEvent, event, Json.read, OrderedMap.get]

theorem settledEvent_isEvent : IsEvent v.settledEvent .settled v.calHash where
  type := by simp [settledEvent, Json.read, OrderedMap.get, EventType.name]
  hash := by simp [settledEvent, Json.read, OrderedMap.get]

theorem finalizedEvent_isEvent (consumed : ℤ) (bill : GasBill) (n k : ℕ) :
    IsEvent (v.finalizedEvent consumed bill n k) .finalized v.calHash :=
  isEvent_event .finalized rfl _

theorem finalizedEvent_refund (consumed : ℤ) (bill : GasBill) (n k : ℕ) :
    (v.finalizedEvent consumed bill n k).read (js "gas_refunded_ptra") =
      some (.int bill.gasRefunded) := by
  simp [finalizedEvent, event, Json.read, OrderedMap.get]

/-! ## Settled escrows -/

/-- The deltas that the trace stages commit after the events that stage them. -/
def CommitsCleanly (v : Validator) (s : State) : Prop :=
  ∀ consumed t, AcceptsAll s [v.executedEvent v.stagedDeltas consumed, v.settledEvent] t →
    ∃ u, v.stagedDeltas.foldlM applyDeltaJson t = .ok u

/-- How the reducer ends a CAL that had an escrow: from `s` over a state `p` with the same ledger and
what the deltas make of it, to a state without the entry. -/
structure Settled (v : Validator) (s t : State) (escrow : ℤ) (r : ValidationResult) : Prop where
  gone : get v.calHash (flights t) = none
  refund : 0 ≤ r.bill.gasRefunded ∧ r.bill.gasRefunded ≤ escrow
  charge : r.bill.totalAgentCharge = v.fee + v.maxGas - r.bill.gasRefunded
  moves : ∃ p u, Moves s p v.agent 0 0 0 ∧
    (u = p ∨ r.terminalStage = .FINALIZED ∧ v.stagedDeltas.foldlM applyDeltaJson p = .ok u) ∧
    Moves u t v.agent (-r.bill.gasRefunded) (escrow - r.bill.gasRefunded) 1

/-! ## After VALIDATED -/

section PhaseB

variable {s : State} {m : List (Str × Json)} {escrow : ℤ} {events : List Json}
  {r : ValidationResult}

theorem ownerAuth_nonneg (v : Validator) : 0 ≤ v.ownerAuth := by
  unfold ownerAuth
  split
  · exact le_rfl
  · split <;> exact ownerAuthUnits_nonneg _

/-- The bounds of a bill that settles the escrow. -/
theorem bill_bounds {o : BillOutcome} {bytes : ℤ} {bill : GasBill} (ho : o.Settles)
    (h : settle o v.cal v.snapshot bytes v.ownerAuth = .ok bill) (hbytes : 0 ≤ bytes)
    (hmax : 0 ≤ v.maxGas) (hle : v.maxGas ≤ escrow) (hprice : 0 ≤ gasPrice v.snapshot)
    (hu : escrow ≤ UINT256_MAX) :
    IsUint bill.gasRefunded ∧ bill.gasRefunded ≤ escrow ∧
      bill.totalAgentCharge = v.fee + v.maxGas - bill.gasRefunded := by
  obtain ⟨hpos, hmaxle, hcharge⟩ := settle_refund ho h hmax hprice hbytes v.ownerAuth_nonneg
  have hrefund : bill.gasRefunded ≤ v.maxGas := hmaxle
  exact ⟨⟨hpos, by omega⟩, by omega, hcharge⟩

/-- An end without commitment, from a state at which the CAL has its escrow. -/
theorem dropped_accepted {stage : String} (hend : Dropped v events r)
    (he : EntryAt s v.calHash v.agent stage m)
    (hstage : js stage ≠ js "CREATED" ∧ js stage ≠ js "SIGNED")
    (hescrow : get (js "escrowed_ptra") m = some (.int escrow)) (hmax : 0 ≤ v.maxGas)
    (hle : v.maxGas ≤ escrow) (hprice : 0 ≤ gasPrice v.snapshot) (hu : escrow ≤ UINT256_MAX) :
    ∃ ev t, r.events = events ++ [ev] ∧ AcceptsAll s [ev] t ∧ IsTerminal ev = true ∧
      Settled v s t escrow r := by
  have hsettled : ∀ {r : ValidationResult} {t : State}, IsUint r.bill.gasRefunded ∧
      r.bill.gasRefunded ≤ escrow ∧
      r.bill.totalAgentCharge = v.fee + v.maxGas - r.bill.gasRefunded →
      get v.calHash (flights t) = none →
      Moves s t v.agent (-r.bill.gasRefunded) (escrow - r.bill.gasRefunded) 1 →
      Settled v s t escrow r := by
    intro r t hb hgone hmoves
    refine ⟨hgone, ⟨hb.1.1, hb.2.1⟩, hb.2.2, s, s, .refl s v.agent, .inl rfl, hmoves⟩
  cases hend with
  | expired bill hbill =>
    -- the bill of an expiry is that of no gas at all
    have hb : IsUint bill.gasRefunded ∧ bill.gasRefunded ≤ escrow ∧
        bill.totalAgentCharge = v.fee + v.maxGas - bill.gasRefunded := by
      cases hbill
      refine ⟨⟨hmax, hle.trans hu⟩, hle, ?_⟩
      simp only [fee, maxGas]
      omega
    obtain ⟨t, hacc, hgone, hmoves⟩ := accepts_dropped_late (.inr rfl) he hstage
      (expiredPost_isEvent bill) (expiredPost_refund bill) hb.1 hescrow hb.2.1
    exact ⟨_, t, rfl, .cons trivial hacc (.nil t), (expiredPost_isEvent bill).isTerminal,
      hsettled hb hgone hmoves⟩
  | failed reason bytes bill hbytes hbill =>
    have hb := bill_bounds (.inr (.inl rfl)) hbill hbytes hmax hle hprice hu
    obtain ⟨t, hacc, hgone, hmoves⟩ := accepts_dropped_late (.inl rfl) he hstage
      (failedPost_isEvent reason bill) (failedPost_refund reason bill) hb.1 hescrow hb.2.1
    exact ⟨_, t, rfl, .cons trivial hacc (.nil t), (failedPost_isEvent reason bill).isTerminal,
      hsettled hb hgone hmoves⟩

/-- The reducer stages the effects of the execution. -/
theorem executed_accepted {bytes units : ℤ} (he : EntryAt s v.calHash v.agent "VALIDATED" m)
    (hescrow : get (js "escrowed_ptra") m = some (.int escrow)) (hbytes : 0 ≤ bytes)
    (hunits : gasUnits v.cal bytes v.ownerAuth = .ok units)
    (hgas : toNano units (gasPrice v.snapshot) ≤ v.maxGas) (hle : v.maxGas ≤ escrow)
    (hprice : 0 ≤ gasPrice v.snapshot) (hu : escrow ≤ UINT256_MAX) :
    ∃ t m', Accepts s (v.executedEvent v.stagedDeltas (toNano units (gasPrice v.snapshot))) t ∧
      EntryAt t v.calHash v.agent "EXECUTED" m' ∧
      get (js "escrowed_ptra") m' = some (.int escrow) ∧
      get (js "staged") m' = some (.arr v.stagedDeltas) ∧ Moves s t v.agent 0 0 0 ∧
      SameOutside s t := by
  have hpos : 0 ≤ toNano units (gasPrice v.snapshot) :=
    Int.mul_nonneg (gasUnits_nonneg hunits hbytes v.ownerAuth_nonneg) hprice
  rw [← hescrow]
  exact accepts_executed he (executedEvent_isEvent _ _) (executedEvent_effects _ _)
    (executedEvent_consumed _ _) ⟨hpos, by omega⟩

/-- The reducer accepts what phase B emits, whatever its end, and settles the escrow. -/
theorem phaseB_accepted (hend : PhaseBEnd v events r)
    (he : EntryAt s v.calHash v.agent "VALIDATED" m)
    (hescrow : get (js "escrowed_ptra") m = some (.int escrow)) (hmax : 0 ≤ v.maxGas)
    (hle : v.maxGas ≤ escrow) (hprice : 0 ≤ gasPrice v.snapshot) (hu : escrow ≤ UINT256_MAX)
    (hclean : r.terminalStage = .FINALIZED → v.CommitsCleanly s) :
    ∃ new t, r.events = events ++ new ∧ AcceptsAll s new t ∧ EndsOnce new ∧
      Settled v s t escrow r := by
  cases hend with
  | dropped r hd =>
    obtain ⟨ev, t, hev, hacc, hterm, hs⟩ :=
      dropped_accepted hd he (by simp) hescrow hmax hle hprice hu
    exact ⟨[ev], t, hev, hacc, .single hterm, hs⟩
  | executed bytes units r hbytes hunits hgas hd =>
    obtain ⟨p, m', hacc, he', hescrow', -, hmoves, -⟩ :=
      executed_accepted he hescrow hbytes hunits hgas hle hprice hu
    obtain ⟨ev, t, hev, hacc', hterm, hs⟩ :=
      dropped_accepted hd he' (by simp) hescrow' hmax hle hprice hu
    refine ⟨_ :: [ev], t, by rw [hev, List.append_assoc]; rfl, .cons trivial hacc hacc',
      (EndsOnce.single hterm).cons (executedEvent_isEvent _ _).isTerminal, hs.gone, hs.refund, hs.charge, ?_⟩
    obtain ⟨q, u, hq, hqu, hut⟩ := hs.moves
    exact ⟨q, u, by simpa using hmoves.trans hq, hqu, hut⟩
  | finalized bytes units bill hbytes hunits hgas hbill =>
    have hb := bill_bounds (.inl rfl) hbill hbytes hmax hle hprice hu
    obtain ⟨p, m', hacc, he', hescrow', hstaged, hmoves, -⟩ :=
      executed_accepted he hescrow hbytes hunits hgas hle hprice hu
    obtain ⟨q, m'', hacc', he'', hescrow'', hstaged', hmoves', -⟩ :=
      accepts_settled he' settledEvent_isEvent
    obtain ⟨u, hu'⟩ := hclean rfl _ q (.cons trivial hacc (.cons trivial hacc' (.nil q)))
    have hevent := finalizedEvent_isEvent (v := v) (toNano units (gasPrice v.snapshot)) bill
      v.steps.length v.invariants.length
    obtain ⟨t, hacc'', hgone, hmoves''⟩ := accepts_finalized he'' hevent
      (finalizedEvent_refund _ _ _ _) hb.1 (hescrow''.trans hescrow') hb.2.1
      (hstaged'.trans hstaged) hu'
    refine ⟨[_, _, _], t, by simp, .cons trivial hacc (.cons trivial hacc' (.cons trivial hacc''
      (.nil t))), ?_, hgone, ⟨hb.1.1, hb.2.1⟩, hb.2.2, q, u, by simpa using hmoves.trans hmoves',
      .inr ⟨rfl, hu'⟩, hmoves''⟩
    exact ((EndsOnce.single hevent.isTerminal).cons settledEvent_isEvent.isTerminal).cons
      (executedEvent_isEvent _ _).isTerminal

end PhaseB

/-! ## From SIGNED -/

section Whole

variable {s : State} {m : List (Str × Json)} {r : ValidationResult}

/-- The deltas that the trace stages keep out of the ledger and commit on the snapshot. -/
def CleanDeltas (v : Validator) : Prop :=
  (∀ d ∈ v.stagedDeltas, AvoidsNamespaces ledgerNamespaces d) ∧
    ∃ u, v.stagedDeltas.foldlM applyDeltaJson v.snapshot = .ok u

instance decidableCleanDeltas (v : Validator) : Decidable v.CleanDeltas :=
  match h : v.stagedDeltas.foldlM applyDeltaJson v.snapshot with
  | .ok u =>
    decidable_of_iff (∀ d ∈ v.stagedDeltas, AvoidsNamespaces ledgerNamespaces d)
      ⟨fun hd => ⟨hd, u, h⟩, fun hd => hd.1⟩
  | .error _ => .isFalse fun ⟨_, _, hu⟩ => nomatch h.symm.trans hu

/-- What commits on the snapshot commits after the events before. -/
theorem CleanDeltas.commitsCleanly (h : v.CleanDeltas) (hs : SameOutside v.snapshot s)
    (ho : ∃ o, s = .obj o) : v.CommitsCleanly s := by
  obtain ⟨hout, u, hu⟩ := h
  intro consumed t hrun
  obtain ⟨p, -, hexec, hrest⟩ := run_cons hrun
  obtain ⟨q, -, hsettled, hnil⟩ := run_cons hrest
  cases hnil
  obtain ⟨hp, ho⟩ := sameOutside_of_accepts ho (.inl rfl) (executedEvent_isEvent _ _) hexec
  obtain ⟨ht, -⟩ := sameOutside_of_accepts ho (.inr rfl) settledEvent_isEvent hsettled
  exact foldlM_sameOutside ((hs.trans hp).trans ht) hout hu

/-- An escrow that was settled moves the charge, when the deltas keep out of the ledger. -/
theorem Settled.moves_charge {t : State} {escrow : ℤ} (h : Settled v s t escrow r)
    (hout : r.terminalStage = .FINALIZED →
      ∀ d ∈ v.stagedDeltas, AvoidsNamespaces ledgerNamespaces d) :
    Moves s t v.agent (-r.bill.gasRefunded) (escrow - r.bill.gasRefunded) 1 := by
  obtain ⟨p, u, hp, hpu, hut⟩ := h.moves
  have hpu : Moves p u v.agent 0 0 0 := by
    rcases hpu with rfl | ⟨hfin, hpu⟩
    · exact .refl u v.agent
    · exact moves_foldlM v.agent (hout hfin) hpu
  simpa using (hp.trans hpu).trans hut

/-- An end of phase A is accepted at SIGNED, with its charge. -/
theorem terminal_accepted (hend : PhaseAEnd v (.terminal r))
    (he : EntryAt v.snapshot v.calHash v.agent "SIGNED" m)
    (hagent : getIn v.cal [js "agent_id"] = some (.str v.agent)) (hfee : IsUint v.fee)
    (hbal : IsUint (bal v.snapshot v.agent)) :
    ∃ t, AcceptsAll v.snapshot r.events t ∧ EndsOnce r.events ∧
      Moves v.snapshot t v.agent r.bill.totalAgentCharge r.bill.totalAgentCharge 1 ∧
      get v.calHash (flights t) = none := by
  have hfailed : ∀ reason charge, 0 ≤ charge → charge ≤ bal v.snapshot v.agent →
      ∃ t, Accepts v.snapshot (v.failedPre reason charge) t ∧ get v.calHash (flights t) = none ∧
        Moves v.snapshot t v.agent charge charge 1 := by
    intro reason charge hpos hle
    exact accepts_dropped_early (.inl rfl) he (failedPre_isEvent reason charge)
      (optUint_of_read (failedPre_charge reason charge) ⟨hpos, hle.trans hbal.2⟩) hle
  have hterm : ∀ reason charge, IsTerminal (v.failedPre reason charge) = true :=
    fun reason charge => (failedPre_isEvent reason charge).isTerminal
  cases hend with
  | spam reason =>
    obtain ⟨hpos, hle⟩ := spamCharge_bounds v.snapshot hagent hfee.1 hbal.1
    obtain ⟨t, hacc, hgone, hmoves⟩ := hfailed reason _ hpos hle
    exact ⟨t, .cons trivial hacc (.nil t), .single (hterm _ _), hmoves, hgone⟩
  | noCharge reason =>
    obtain ⟨t, hacc, hgone, hmoves⟩ := hfailed reason 0 le_rfl hbal.1
    exact ⟨t, .cons trivial hacc (.nil t), .single (hterm _ _), hmoves, hgone⟩
  | expired =>
    obtain ⟨t, hacc, hgone, hmoves⟩ := accepts_dropped_early (.inr rfl) he expiredPre_isEvent
      (optUint_of_none expiredPre_charge) hbal.1
    exact ⟨t, .cons trivial hacc (.nil t), .single expiredPre_isEvent.isTerminal, hmoves, hgone⟩

/-- The budget of an accepted CAL is not negative. -/
theorem maxExpectedDynamicGas_nonneg {cal : Json} {fee : ℤ} (hcal : AcceptedCal cal)
    (hfee : 0 ≤ fee) : 0 ≤ maxExpectedDynamicGas cal fee := by
  unfold maxExpectedDynamicGas GAS_LIMIT_FEE_MULTIPLIER
  cases hg : getIn cal [js "gas_limit_ptra"] with
  | none =>
    simp only [asBig]
    omega
  | some x =>
    obtain ⟨n, rfl, hn⟩ := hcal.gasLimit x hg
    exact hn

theorem maxGas_nonneg (hcal : AcceptedCal v.cal) (hfee : 0 ≤ v.fee) : 0 ≤ v.maxGas :=
  maxExpectedDynamicGas_nonneg hcal hfee

/-- The reducer accepts `cal.validated`, and the agent deposits the escrow. -/
theorem validated_accepted (hcal : AcceptedCal v.cal)
    (he : EntryAt v.snapshot v.calHash v.agent "SIGNED" m) (gates : Gates v)
    (hagent : getIn v.cal [js "agent_id"] = some (.str v.agent)) (hfee : 0 ≤ v.fee)
    (hbal : IsUint (bal v.snapshot v.agent)) :
    ∃ t m', Accepts v.snapshot v.validatedEvent t ∧ EntryAt t v.calHash v.agent "VALIDATED" m' ∧
      get (js "escrowed_ptra") m' = some (.int (v.fee + v.maxGas)) ∧
      v.fee + v.maxGas ≤ UINT256_MAX ∧ Moves v.snapshot t v.agent (v.fee + v.maxGas) 0 0 ∧
      SameOutside v.snapshot t := by
  have hmax := maxGas_nonneg hcal hfee
  have hle : v.fee + v.maxGas ≤ bal v.snapshot v.agent := by
    have hcovered := gates.covered
    simp only [canValidate, hagent, decide_eq_true_eq] at hcovered
    exact hcovered
  have hu : v.fee + v.maxGas ≤ UINT256_MAX := hle.trans hbal.2
  obtain ⟨t, m', hacc, he', hescrow, hmoves, hsame⟩ := accepts_validated he validatedEvent_isEvent
    validatedEvent_escrow ⟨Int.add_nonneg hfee hmax, hu⟩ hle
  exact ⟨t, m', hacc, he', hescrow, hu, hmoves, hsame⟩

end Whole

end Validator

open Validator

/-- An entry that the reducer finds at a stage, for an agent. -/
theorem entryAt_of_inFlight {s : State} {ch agent : Str} {stage : String} {h : Json}
    (hf : inFlight s ch = some h) (hstage : h.read (js "stage") = some (.str (js stage)))
    (hagent : h.read (js "agent_id") = some (.str agent)) :
    ∃ m, EntryAt s ch agent stage m := by
  obtain ⟨m, rfl, hm, hs⟩ := flight_at_stage (u := ()) (requireFlight_eq_ok.mpr hf)
    (requireStage_eq_ok.mpr (isStr_iff.mpr hstage))
  rw [read_obj_js not_inherited_agent_id] at hagent
  exact ⟨m, hm, hagent, hs⟩

/-- For a CAL in flight at SIGNED, the reducer accepts the events of its validation. The last of them
is the only terminal one; the agent's balance falls by the bill's charge, which the fees gain, the
nonce grows by one, the other balances stay and the CAL is no longer in flight. -/
theorem validate_moves_bill {H : Host} {input cal s h : Json} {ch agent : Str}
    {trace : ExecutionTrace} {r : ValidationResult} (hcal : validateCal input = .ok cal)
    (hflight : inFlight s ch = some h) (hstage : h.read (js "stage") = some (.str (js "SIGNED")))
    (hagent : h.read (js "agent_id") = some (.str agent))
    (hcalAgent : getIn cal [js "agent_id"] = some (.str agent)) (hbal : IsUint (bal s agent))
    (hfee : IsUint (flatValidationFee s)) (hprice : IsUint (gasPrice s))
    (hr : validate H cal ch s trace = .ok r)
    (hclean : r.terminalStage = .FINALIZED → CleanDeltas ⟨cal, ch, s, trace⟩) :
    ∃ t, AcceptsAll s r.events t ∧ EndsOnce r.events ∧
      Moves s t agent r.bill.totalAgentCharge r.bill.totalAgentCharge 1 ∧
      get ch (flights t) = none := by
  obtain ⟨m, he⟩ := entryAt_of_inFlight hflight hstage hagent
  generalize hv : (⟨cal, ch, s, trace⟩ : Validator) = v at hclean
  have hva : v.agent = agent := by
    rw [← hv, Validator.agent, hcalAgent]
    rfl
  subst hva
  simp only [validate, hv, bind_eq_ok] at hr
  obtain ⟨a, ha, hr⟩ := hr
  have hend := phaseA_end ha
  subst hv
  cases a with
  | terminal r' =>
    cases hr
    exact terminal_accepted hend he hcalAgent hfee hbal
  | validated events =>
    have hspec := validateCal_spec hcal
    cases hend with
    | validated gates =>
      obtain ⟨p, m', hacc, he', hescrow, hu, hmoves, hsame⟩ :=
        validated_accepted hspec he gates hcalAgent hfee.1 hbal
      have hmax := maxGas_nonneg (v := ⟨cal, ch, s, trace⟩) hspec hfee.1
      obtain ⟨new, t, hnew, hrun, hends, hsettled⟩ := phaseB_accepted (phaseB_end hr) he' hescrow
        hmax (Int.le_add_of_nonneg_left hfee.1) hprice.1 hu
        (fun hfin => (hclean hfin).commitsCleanly hsame he'.eq_obj)
      have hcharge : r.bill.totalAgentCharge = _ := hsettled.charge
      have hall := hmoves.trans (hsettled.moves_charge fun hfin => (hclean hfin).1)
      refine ⟨t, hnew ▸ .cons trivial hacc hrun, hnew ▸ hends.cons validatedEvent_isEvent.isTerminal, ?_,
        hsettled.gone⟩
      rw [hcharge]
      convert hall using 1 <;> omega

/-- A feed submission of the scenario's agent, with one effect. -/
def feedSubmission : Validator where
  cal := Escape.calOf (js "oracles.submit_feed") (js "oracles.submit_feed")
  calHash := js "H"
  snapshot :=
    let s := setIn (some (Escape.snapshotOf [] [])) [js "failure_mode"] (.obj [])
    setIn (some s) (flightPath (js "H"))
      (.obj [(js "agent_id", .str Escape.agent), (js "stage", .str (js "SIGNED"))])
  trace := { Escape.traceOf [] [] with
    steps := [⟨true, [.obj [(js "ns", .str (js "oracles")), (js "op", .str (js "set")),
      (js "path", .arr [.str (js "feeds"), .str (js "TON")]), (js "value", .int 5)]], none⟩] }

theorem validate_moves_bill_feedSubmission :
    ∃ r t, validate Escape.host feedSubmission.cal (js "H") feedSubmission.snapshot
        feedSubmission.trace = .ok r ∧ r.terminalStage = .FINALIZED ∧
      AcceptsAll feedSubmission.snapshot r.events t ∧
      Moves feedSubmission.snapshot t Escape.agent r.bill.totalAgentCharge
        r.bill.totalAgentCharge 1 := by
  have hfin : ((validate Escape.host feedSubmission.cal (js "H") feedSubmission.snapshot
      feedSubmission.trace).toOption.any fun r => r.terminalStage = .FINALIZED) = true := by
    decide +kernel
  cases hr : validate Escape.host feedSubmission.cal (js "H") feedSubmission.snapshot
      feedSubmission.trace with
  | error e =>
    rw [hr] at hfin
    cases hfin
  | ok r =>
    rw [hr] at hfin
    have hcal : validateCal feedSubmission.cal = .ok feedSubmission.cal :=
      validateCal_of_isOk (by decide +kernel)
    have hagent : getIn feedSubmission.cal [js "agent_id"] = some (.str Escape.agent) := by rfl
    obtain ⟨t, hrun, -, hmoves, -⟩ := validate_moves_bill hcal (by rfl) (by rfl) (by rfl) hagent
      (by decide +kernel) (by decide +kernel) (by decide +kernel) hr (fun _ => by decide +kernel)
    exact ⟨r, t, rfl, of_decide_eq_true hfin, hrun, hmoves⟩

end ParadigmTerra
