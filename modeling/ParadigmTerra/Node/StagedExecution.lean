import ParadigmTerra.Node.Replay
import ParadigmTerra.Validator.Snapshot

/-!
# Staged and atomic execution

A submission can be driven in one go, or up to VALIDATED first and resumed later. `staged_is_atomic`
says that at one tick the two are the same: what the atomic submission does is what the two staged ones
do one after the other, with the same events, the same live state, the same terminal stage and the same
reason.

`Folds` says what the node's fold makes of a list of events, whichever submission they come from. The
argument is then that phase B emits the same events after VALIDATED as before it (`phaseB_staged`): all
that it reads of the snapshot lies outside the namespaces in which the escrow is taken.
-/

namespace ParadigmTerra

open Text OrderedMap Fallible Validator

variable {H : Host}

/-! ## Phase B after other events -/

/-- The result with other events before its own. -/
def ValidationResult.after (events : List Json) (r : ValidationResult) : ValidationResult :=
  { r with events := events ++ r.events }

namespace Validator

variable {v : Validator} {events events' : List Json}

theorem expirePost_after : v.expirePost (events ++ events') =
    ValidationResult.after events <$> v.expirePost events' := by
  unfold expirePost
  cases settle .EXPIRED_POST v.cal v.snapshot 0 0 with
  | error e => rfl
  | ok bill =>
    change Except.ok _ = Except.ok _
    simp only [ValidationResult.after, List.append_assoc]

theorem execFail_after {reason : ReasonCode} {effects : List Json} :
    v.execFail H (events ++ events') reason effects =
      ValidationResult.after events <$> v.execFail H events' reason effects := by
  unfold execFail
  cases effectsBytes H effects with
  | error e => rfl
  | ok bytes =>
    rw [ok_bind, ok_bind]
    cases settle .FAILED_EXEC v.cal v.snapshot bytes v.ownerAuth with
    | error e => rfl
    | ok bill =>
      change Except.ok _ = Except.ok _
      simp only [ValidationResult.after, List.append_assoc]

theorem phaseBExecuted_after {effects : List Json} {bytes consumed : ℤ} :
    v.phaseBExecuted H (events ++ events') effects bytes consumed =
      ValidationResult.after events <$> v.phaseBExecuted H events' effects bytes consumed := by
  unfold phaseBExecuted
  simp only [List.append_assoc]
  split
  · exact expirePost_after
  cases v.invariantsHold H v.invariants with
  | error e => rfl
  | ok hold =>
    rw [ok_bind, ok_bind]
    split
    · exact execFail_after
    cases settle .FINALIZED v.cal v.snapshot bytes v.ownerAuth with
    | error e => rfl
    | ok bill =>
      change Except.ok _ = Except.ok _
      simp only [ValidationResult.after]

/-- Phase B puts its events behind those that it is given, and does nothing else with them. -/
theorem phaseB_after : v.phaseB H (events ++ events') =
    ValidationResult.after events <$> v.phaseB H events' := by
  unfold phaseB
  split
  · exact expirePost_after
  cases v.runSteps H v.steps v.trace.steps [] with
  | error e => rfl
  | ok p =>
    obtain ⟨effects, failure⟩ := p
    rw [ok_bind, ok_bind]
    cases failure with
    | some reason => exact execFail_after
    | none =>
      dsimp only
      cases effectsBytes H effects with
      | error e => rfl
      | ok bytes =>
        rw [ok_bind, ok_bind]
        cases gasUnits v.cal bytes v.ownerAuth with
        | error e => rfl
        | ok units =>
          rw [ok_bind, ok_bind]
          split
          · exact execFail_after
          · exact phaseBExecuted_after

/-! ## The snapshot at VALIDATED -/

/-- What phase B reads lies outside the ledger. -/
theorem phaseB_sameOutside {t : State} (h : SameOutside v.snapshot t) (events : List Json) :
    (v.on t).phaseB H events = v.phaseB H events := by
  have hread : ∀ n p, n ∉ ledgerNamespaces → getIn t (n :: p) = getIn v.snapshot (n :: p) :=
    fun n p hn => (h.getIn hn p).symm
  have hprices : SamePrices v t :=
    ⟨hread _ _ (by decide), hread _ _ (by decide), hread _ _ (by decide)⟩
  have howners : (v.on t).agentField "owners" = v.agentField "owners" := hread _ _ (by decide)
  have hauth : (v.on t).ownerAuth = v.ownerAuth := by
    unfold ownerAuth
    rw [ownerRequired_on hprices, howners]
    rfl
  exact phaseB_on hprices hauth events

end Validator

/-- `cal.validated` writes the ledger only. -/
theorem sameOutside_of_validated {s t : State} {ev : Event} {ch : Str} (hs : ∃ o, s = .obj o)
    (hev : IsEvent ev .validated ch) (h : Accepts s ev t) : SameOutside s t := by
  have hcal : js "cal" ∈ ledgerNamespaces := by simp [ledgerNamespaces]
  have hptra : js "ptra" ∈ ledgerNamespaces := by simp [ledgerNamespaces]
  obtain ⟨o, ho⟩ := hs
  rw [accepts_iff, hev.applyEvent] at h
  simp only [EventType.step, calValidated, bind_eq_ok, pure_eq_ok] at h
  obtain ⟨c, -, e, -, -, -, n, -, a, -, -, -, rfl⟩ := h
  exact ((sameOutside_setIn ho hptra _ _).trans (sameOutside_setIn rfl hcal _ _)).trans
    (sameOutside_setIn rfl hcal _ _)

/-- A signed CAL is in flight, in a state that is an object. -/
theorem eq_obj_of_signed {s t : State} {ch : Str} (h : Accepts s (signedEvent ch) t) :
    ∃ o, t = .obj o := by
  have hev : IsEvent (signedEvent ch) .signed ch := by
    constructor
    · simp [signedEvent, Json.read, OrderedMap.get, EventType.name]
    · simp [signedEvent, Json.read, OrderedMap.get]
  rw [accepts_iff, hev.applyEvent] at h
  simp only [EventType.step, calSigned, bind_eq_ok, pure_eq_ok] at h
  obtain ⟨c, -, e, -, -, -, rfl⟩ := h
  exact ⟨_, rfl⟩

/-! ## Folded events -/

/-- The fold takes the events one after another, with these state roots in between. -/
inductive Folds (H : Host) : Fold → List Event → List Str → Fold → Prop
  | nil (f : Fold) : Folds H f [] [] f
  | cons {f g k : Fold} {ev : Event} {root : List UInt8} {evs : List Event} {roots : List Str}
    (hev : f.fold H ev = .ok (.ok g)) (hroot : stateRootOf H g.state = .ok root)
    (h : Folds H g evs roots k) : Folds H f (ev :: evs) (hex root :: roots) k

theorem foldEmitted_eq_ok {what : Str} {p q : Fold × Recorded} {ev : Event} :
    foldEmitted H what p ev = .ok q ↔ ∃ f root, p.1.fold H ev = .ok (.ok f) ∧
      stateRootOf H f.state = .ok root ∧
      q = (f, ⟨p.2.events ++ [ev], p.2.stateRoots ++ [hex root]⟩) := by
  simp only [foldEmitted, bind_eq_ok]
  constructor
  · rintro ⟨r, hr, h⟩
    cases r with
    | error code => simp at h
    | ok f =>
      simp only [Recorded.record, bind_eq_ok, pure_eq_ok] at h
      obtain ⟨_, ⟨root, hroot, rfl⟩, rfl⟩ := h
      exact ⟨f, root, hr, hroot, rfl⟩
  · rintro ⟨f, root, hf, hroot, rfl⟩
    refine ⟨_, hf, ?_⟩
    simp only [Recorded.record, hroot, ok_bind]
    rfl

/-- A list of emitted events is folded, whatever an error would be called. -/
theorem foldlM_foldEmitted_iff {what : Str} {evs : List Event} {p q : Fold × Recorded} :
    evs.foldlM (foldEmitted H what) p = .ok q ↔ ∃ roots, Folds H p.1 evs roots q.1 ∧
      q.2 = ⟨p.2.events ++ evs, p.2.stateRoots ++ roots⟩ := by
  induction evs generalizing p with
  | nil =>
    rw [foldlM_nil_ok]
    constructor
    · rintro rfl
      exact ⟨[], .nil _, by simp⟩
    · rintro ⟨roots, h, hq⟩
      obtain ⟨g, r⟩ := q
      obtain ⟨f, c⟩ := p
      cases h
      simpa using hq.symm
  | cons ev evs ih =>
    simp only [foldlM_cons_ok, foldEmitted_eq_ok, ih]
    constructor
    · rintro ⟨_, ⟨f, root, hf, hroot, rfl⟩, roots, h, hq⟩
      exact ⟨hex root :: roots, .cons hf hroot h, by simpa using hq⟩
    · rintro ⟨_, h, hq⟩
      cases h with
      | cons hf hroot h =>
        exact ⟨_, ⟨_, _, hf, hroot, rfl⟩, _, h, by simpa using hq⟩

/-- The fold takes two lists if it takes the first and from there the second. -/
theorem folds_append {f k : Fold} {evs evs' : List Event} {roots : List Str} :
    Folds H f (evs ++ evs') roots k ↔ ∃ g r r', Folds H f evs r g ∧ Folds H g evs' r' k ∧
      roots = r ++ r' := by
  induction evs generalizing f roots with
  | nil =>
    constructor
    · intro h
      exact ⟨f, [], roots, .nil f, h, rfl⟩
    · rintro ⟨g, r, r', hnil, h, rfl⟩
      cases hnil
      exact h
  | cons ev evs ih =>
    constructor
    · intro h
      cases h with
      | cons hev hroot h =>
        obtain ⟨g, r, r', hr, hr', rfl⟩ := ih.mp h
        exact ⟨g, _ :: r, r', .cons hev hroot hr, hr', rfl⟩
    · rintro ⟨g, r, r', h, hr', rfl⟩
      cases h with
      | cons hev hroot hr => exact .cons hev hroot (ih.mpr ⟨g, _, r', hr, hr', rfl⟩)

/-- The fold goes one way only. -/
theorem Folds.unique {f g g' : Fold} {evs : List Event} {roots roots' : List Str}
    (h : Folds H f evs roots g) (h' : Folds H f evs roots' g') : g = g' ∧ roots = roots' := by
  induction h generalizing roots' with
  | nil f =>
    cases h'
    exact ⟨rfl, rfl⟩
  | cons hev hroot _ ih =>
    cases h' with
    | cons hev' hroot' h' =>
      rw [hev] at hev'
      cases hev'
      rw [hroot] at hroot'
      cases hroot'
      obtain ⟨rfl, rfl⟩ := ih h'
      exact ⟨rfl, rfl⟩

/-- The events that were folded are accepted. -/
theorem Folds.acceptsAll {f g : Fold} {evs : List Event} {roots : List Str}
    (h : Folds H f evs roots g) : AcceptsAll f.state evs g.state := by
  induction h with
  | nil f => exact .nil _
  | cons hev _ _ ih => exact (fold_extends hev).run.append ih

/-- The live state with other events before those that are logged. -/
def Fold.after (events : List Event) (f : Fold) : Fold := { f with events := events ++ f.events }

theorem fold_after (events : List Event) (f : Fold) (ev : Event) :
    (f.after events).fold H ev = (Except.map (Fold.after events)) <$> f.fold H ev := by
  unfold Fold.fold
  change (apply f.state ev >>= _) = _
  cases apply f.state ev with
  | error e => rfl
  | ok r =>
    rw [ok_bind, ok_bind]
    cases r with
    | rejected code => rfl
    | ok s =>
      dsimp only
      cases eventHash H ev with
      | error e => rfl
      | ok h =>
        change Except.ok _ = Except.ok _
        simp only [Except.map, Fold.after, List.append_assoc]

/-- What is logged before makes no difference to the fold. -/
theorem folds_after {events : List Event} {f g : Fold} {evs : List Event} {roots : List Str} :
    Folds H (f.after events) evs roots g ↔ ∃ k, Folds H f evs roots k ∧ g = k.after events := by
  induction evs generalizing f roots with
  | nil =>
    constructor
    · intro h
      cases h
      exact ⟨f, .nil f, rfl⟩
    · rintro ⟨k, h, rfl⟩
      cases h
      exact .nil _
  | cons ev evs ih =>
    constructor
    · intro h
      cases h with
      | cons hev hroot h =>
        rw [fold_after, map_eq_ok] at hev
        obtain ⟨r, hr, hmap⟩ := hev
        cases r with
        | error code => cases hmap
        | ok k =>
          cases hmap
          obtain ⟨k', hk, rfl⟩ := ih.mp h
          exact ⟨k', .cons hr hroot hk, rfl⟩
    · rintro ⟨k, h, rfl⟩
      cases h with
      | cons hev hroot h =>
        refine .cons (g := Fold.after events _) ?_ hroot (ih.mpr ⟨k, h, rfl⟩)
        rw [fold_after, hev]
        rfl

/-! ## Submissions in the three modes -/

/-- The submission in a mode. -/
def Submission.inMode (sub : Submission) (mode : SubmissionMode) : Submission :=
  { sub with mode := some mode }

/-- The CAL waits at VALIDATED to be resumed. -/
def SubmissionResult.Pending (r : SubmissionResult) : Prop :=
  r.terminalStage = none ∧ r.ingressError = none

/-- The results of the two stages, as one. -/
def SubmissionResult.andThen (r r' : SubmissionResult) : SubmissionResult :=
  { r' with events := r.events ++ r'.events, stateRoots := r.stateRoots ++ r'.stateRoots }

section Drive

variable {sub : Submission} {ch agent : Str} {trace : ExecutionTrace} {p : Fold × Recorded}
  {g : Fold} {res : SubmissionResult}

/-- The result of a submission that has come to an end. -/
def endResult (ch agent : Str) (r : ValidationResult) (c : Recorded) (roots : List Str) :
    SubmissionResult :=
  ⟨ch, agent, some r.terminalStage, r.reasonCode, c.events ++ r.events, c.stateRoots ++ roots, none⟩

theorem drive_atomic : drive H (sub.inMode .atomic) ch agent trace p = .ok (g, res) ↔
    ∃ r roots, validate H sub.cal ch p.1.state trace = .ok r ∧ Folds H p.1 r.events roots g ∧
      res = endResult ch agent r p.2 roots := by
  simp only [drive, Submission.inMode, Option.getD_some, bind_eq_ok, pure_eq_ok,
    foldlM_foldEmitted_iff]
  constructor
  · rintro ⟨r, hr, ⟨g', c⟩, ⟨roots, hfolds, rfl⟩, heq⟩
    cases heq
    exact ⟨r, roots, hr, hfolds, rfl⟩
  · rintro ⟨r, roots, hr, hfolds, rfl⟩
    exact ⟨r, hr, (g, _), ⟨roots, hfolds, rfl⟩, rfl⟩

theorem drive_resume : drive H (sub.inMode .resume) ch agent trace p = .ok (g, res) ↔
    ∃ r roots, resumeFromValidated H sub.cal ch p.1.state trace = .ok r ∧
      Folds H p.1 r.events roots g ∧ res = endResult ch agent r p.2 roots := by
  simp only [drive, Submission.inMode, Option.getD_some, bind_eq_ok, pure_eq_ok,
    foldlM_foldEmitted_iff]
  constructor
  · rintro ⟨r, hr, ⟨g', c⟩, ⟨roots, hfolds, rfl⟩, heq⟩
    cases heq
    exact ⟨r, roots, hr, hfolds, rfl⟩
  · rintro ⟨r, roots, hr, hfolds, rfl⟩
    exact ⟨r, hr, (g, _), ⟨roots, hfolds, rfl⟩, rfl⟩

/-- A validation only: to a terminal result, or to VALIDATED. -/
theorem drive_validateOnly : drive H (sub.inMode .validateOnly) ch agent trace p = .ok (g, res) ↔
    ∃ a roots, phaseA H ⟨sub.cal, ch, p.1.state, trace⟩ = .ok a ∧ Folds H p.1 a.events roots g ∧
      res = match a with
        | .terminal r => endResult ch agent r p.2 roots
        | .validated events =>
          ⟨ch, agent, none, none, p.2.events ++ events, p.2.stateRoots ++ roots, none⟩ := by
  simp only [drive, Submission.inMode, Option.getD_some, validateToValidated, bind_eq_ok, pure_eq_ok,
    foldlM_foldEmitted_iff]
  constructor
  · rintro ⟨s, ⟨a, ha, hs⟩, ⟨g', c⟩, ⟨roots, hfolds, rfl⟩, heq⟩
    cases a with
    | terminal r =>
      cases hs
      cases heq
      exact ⟨_, roots, ha, hfolds, rfl⟩
    | validated events =>
      cases hs
      cases heq
      exact ⟨_, roots, ha, hfolds, rfl⟩
  · rintro ⟨a, roots, ha, hfolds, rfl⟩
    cases a with
    | terminal r => exact ⟨_, ⟨_, ha, rfl⟩, (g, _), ⟨roots, hfolds, rfl⟩, rfl⟩
    | validated events => exact ⟨_, ⟨_, ha, rfl⟩, (g, _), ⟨roots, hfolds, rfl⟩, rfl⟩

end Drive

/-- After the ingress a submission is driven alike in one go and in two stages, if the first stage
leaves it pending; if not, the first stage is all. -/
theorem drive_staged {sub : Submission} {ch agent : Str} {trace : ExecutionTrace}
    {p : Fold × Recorded} {gV : Fold} {resV : SubmissionResult} (hs : ∃ o, p.1.state = .obj o)
    (hV : drive H (sub.inMode .validateOnly) ch agent trace p = .ok (gV, resV)) :
    (resV.Pending → ∀ g res, drive H (sub.inMode .atomic) ch agent trace p = .ok (g, res) ↔
      ∃ resR, drive H (sub.inMode .resume) ch agent trace (gV, ⟨[], []⟩) = .ok (g, resR) ∧
        res = resV.andThen resR) ∧
    (¬resV.Pending → drive H (sub.inMode .atomic) ch agent trace p = .ok (gV, resV)) := by
  obtain ⟨a, roots, ha, hfolds, rfl⟩ := drive_validateOnly.mp hV
  cases a with
  | terminal r =>
    refine ⟨fun hpending => ?_, fun _ => drive_atomic.mpr ⟨r, roots, ?_, hfolds, rfl⟩⟩
    · cases hpending.1
    · simp only [validate, ha, ok_bind]
      rfl
  | validated events =>
    refine ⟨fun _ g res => ?_, fun hnot => (hnot ⟨rfl, rfl⟩).elim⟩
    -- the state that the resumption finds
    have hevent : IsEvent (validatedEvent ⟨sub.cal, ch, p.1.state, trace⟩) .validated ch :=
      validatedEvent_isEvent
    have hevents : events = [validatedEvent ⟨sub.cal, ch, p.1.state, trace⟩] := by
      cases phaseA_end ha with
      | validated _ => rfl
    have hsame : SameOutside p.1.state gV.state := by
      have hacc : AcceptsAll p.1.state events gV.state := hfolds.acceptsAll
      rw [hevents] at hacc
      obtain ⟨t, -, hacc, hnil⟩ := run_cons hacc
      rw [← run_nil hnil]
      exact sameOutside_of_validated hs hevent hacc
    have hphase : phaseB H ⟨sub.cal, ch, gV.state, trace⟩ [] =
        phaseB H ⟨sub.cal, ch, p.1.state, trace⟩ [] :=
      phaseB_sameOutside (v := ⟨sub.cal, ch, p.1.state, trace⟩) hsame []
    have hafter : validate H sub.cal ch p.1.state trace =
        ValidationResult.after events <$> phaseB H ⟨sub.cal, ch, p.1.state, trace⟩ [] := by
      rw [← phaseB_after, List.append_nil]
      simp only [validate, ha, ok_bind]
    simp only [drive_atomic, drive_resume, resumeFromValidated, hphase, hafter, map_eq_ok]
    constructor
    · rintro ⟨_, rs, ⟨r, hr, rfl⟩, hall, rfl⟩
      obtain ⟨k, r₁, r₂, h₁, h₂, rfl⟩ := folds_append.mp hall
      obtain ⟨rfl, rfl⟩ := hfolds.unique h₁
      refine ⟨_, ⟨r, r₂, hr, h₂, rfl⟩, ?_⟩
      simp only [SubmissionResult.andThen, endResult, ValidationResult.after, List.nil_append,
        List.append_assoc]
    · rintro ⟨_, ⟨r, r₂, hr, h₂, rfl⟩, rfl⟩
      refine ⟨_, roots ++ r₂, ⟨r, hr, rfl⟩, folds_append.mpr ⟨gV, roots, r₂, hfolds, h₂, rfl⟩, ?_⟩
      simp only [SubmissionResult.andThen, endResult, ValidationResult.after, List.nil_append,
        List.append_assoc]

section Submissions

variable {tick : ℤ} {f : Fold} {sub : Submission} {q : Fold × SubmissionResult}

/-- A submission that is not resumed passes the ingress first. -/
theorem applySubmission_fresh {mode : SubmissionMode} (hmode : mode ≠ .resume) :
    applySubmission H tick f (sub.inMode mode) = .ok q ↔
      ∃ b agent pr, calHash H sub.cal = .ok b ∧ strField sub.cal "agent_id" = .ok agent ∧
        ingress H (ingressEvents (hex b) agent) (f, ⟨[], []⟩) = .ok pr ∧
        match pr.2 with
        | some code => q = (pr.1.1, ⟨hex b, agent, none, none, pr.1.2.events, pr.1.2.stateRoots,
          some code⟩)
        | none => drive H (sub.inMode mode) (hex b) agent { sub.trace with currentTick := tick } pr.1 =
          .ok q := by
  have hfresh : ¬(some mode).getD .atomic = .resume := hmode
  simp only [applySubmission, Submission.inMode, hfresh, if_false, bind_eq_ok]
  constructor
  · rintro ⟨b, hb, agent, hagent, pr, hpr, h⟩
    refine ⟨b, agent, pr, hb, hagent, hpr, ?_⟩
    obtain ⟨p, rejected⟩ := pr
    cases rejected with
    | some code =>
      cases h
      rfl
    | none => exact h
  · rintro ⟨b, agent, pr, hb, hagent, hpr, h⟩
    refine ⟨b, hb, agent, hagent, pr, hpr, ?_⟩
    obtain ⟨p, rejected⟩ := pr
    cases rejected with
    | some code =>
      cases h
      rfl
    | none => exact h

theorem applySubmission_resumed : applySubmission H tick f (sub.inMode .resume) = .ok q ↔
    ∃ b agent, calHash H sub.cal = .ok b ∧ strField sub.cal "agent_id" = .ok agent ∧
      drive H (sub.inMode .resume) (hex b) agent { sub.trace with currentTick := tick }
        (f, ⟨[], []⟩) = .ok q := by
  have hresume : (some SubmissionMode.resume).getD .atomic = .resume := rfl
  simp only [applySubmission, Submission.inMode, hresume, if_true, bind_eq_ok]
  constructor
  · rintro ⟨b, hb, agent, hagent, h⟩
    exact ⟨b, agent, hb, hagent, h⟩
  · rintro ⟨b, agent, hb, hagent, h⟩
    exact ⟨b, hb, agent, hagent, h⟩

/-- The two stages of a submission are the whole of it. -/
theorem applySubmission_staged {gV : Fold} {resV : SubmissionResult}
    (hV : applySubmission H tick f (sub.inMode .validateOnly) = .ok (gV, resV)) :
    (resV.Pending → ∀ g res, applySubmission H tick f (sub.inMode .atomic) = .ok (g, res) ↔
      ∃ resR, applySubmission H tick gV (sub.inMode .resume) = .ok (g, resR) ∧
        res = resV.andThen resR) ∧
    (¬resV.Pending → applySubmission H tick f (sub.inMode .atomic) = .ok (gV, resV)) := by
  have hvalidate : SubmissionMode.validateOnly ≠ .resume := by decide
  have hatomic : SubmissionMode.atomic ≠ .resume := by decide
  obtain ⟨b, agent, ⟨p, rejected⟩, hb, hagent, hpr, h⟩ := (applySubmission_fresh hvalidate).mp hV
  cases rejected with
  | some code =>
    cases h
    refine ⟨fun hpending => ?_, fun _ => ?_⟩
    · cases hpending.2
    · exact (applySubmission_fresh hatomic).mpr ⟨b, agent, _, hb, hagent, hpr, rfl⟩
  | none =>
    have hs : ∃ o, p.1.state = .obj o := by
      rcases ingress_extends hpr with ⟨-, hext⟩ | ⟨_, _, _, _, -, -, hcode, -⟩
      · obtain ⟨t, -, -, hrest⟩ := run_cons hext.run
        obtain ⟨u, -, hsigned, hnil⟩ := run_cons hrest
        rw [← run_nil hnil]
        exact eq_obj_of_signed hsigned
      · cases hcode
    obtain ⟨hpending, hended⟩ := drive_staged hs h
    refine ⟨fun hp g res => ?_, fun hnot => ?_⟩
    · rw [applySubmission_fresh hatomic]
      constructor
      · rintro ⟨b', agent', pr, hb', hagent', hpr', hdrive⟩
        rw [hb] at hb'
        cases hb'
        rw [hagent] at hagent'
        cases hagent'
        rw [hpr] at hpr'
        cases hpr'
        obtain ⟨resR, hR, rfl⟩ := (hpending hp g res).mp hdrive
        exact ⟨resR, applySubmission_resumed.mpr ⟨b, agent, hb, hagent, hR⟩, rfl⟩
      · rintro ⟨resR, hR, rfl⟩
        obtain ⟨b', agent', hb', hagent', hdrive⟩ := applySubmission_resumed.mp hR
        rw [hb] at hb'
        cases hb'
        rw [hagent] at hagent'
        cases hagent'
        exact ⟨b, agent, _, hb, hagent, hpr, (hpending hp g _).mpr ⟨resR, hdrive, rfl⟩⟩
    · exact (applySubmission_fresh hatomic).mpr ⟨b, agent, _, hb, hagent, hpr, hended hnot⟩

/-- What was logged before makes no difference to a resumption. -/
theorem applySubmission_after {events : List Event} {g : Fold} {res : SubmissionResult} :
    applySubmission H tick (f.after events) (sub.inMode .resume) = .ok (g, res) ↔
      ∃ k, applySubmission H tick f (sub.inMode .resume) = .ok (k, res) ∧ g = k.after events := by
  simp only [applySubmission_resumed, drive_resume, folds_after]
  constructor
  · rintro ⟨b, agent, hb, hagent, r, roots, hr, ⟨k, hk, rfl⟩, rfl⟩
    exact ⟨k, ⟨b, agent, hb, hagent, r, roots, hr, hk, rfl⟩, rfl⟩
  · rintro ⟨k, ⟨b, agent, hb, hagent, r, roots, hr, hk, rfl⟩, rfl⟩
    exact ⟨b, agent, hb, hagent, r, roots, hr, ⟨k, hk, rfl⟩, rfl⟩

end Submissions

/-! ## Ticks -/

/-- What is seen of a tick: the live state after it, the log of its events after others, and how its last
submission ended. -/
structure TickOutcome where
  next : IncrementalState
  log : List Event
  ending : Option (Option TerminalStage × Option ReasonCode)

def TickStep.outcome (events : List Event) (step : TickStep) : TickOutcome :=
  ⟨step.next, events ++ step.events,
    step.tickResult.submissions.getLast?.map fun r => (r.terminalStage, r.reasonCode)⟩

section Ticks

variable {incr : IncrementalState} {tick : ℤ} {subs : List Submission} {step : TickStep}

/-- The live state in which a block is applied, before its tick. -/
def IncrementalState.start (incr : IncrementalState) : Fold :=
  ⟨incr.state, incr.eventCount, incr.lastEventHash, []⟩

/-- The step of a tick whose submissions have been driven. -/
def stepOf (tick : ℤ) (f : Fold) (rs : List SubmissionResult) (root : List UInt8) (globalRoot : Str) :
    TickStep :=
  ⟨⟨f.state, tick, f.eventCount, f.lastEventHash⟩, ⟨tick, rs, hex root, globalRoot⟩, f.events⟩

theorem applyTick_eq_ok : applyTick H incr ⟨tick, subs⟩ = .ok step ↔ ¬tick < incr.currentTick ∧
    ∃ f g rs root globalRoot, advanceTick H incr.currentTick incr.start tick = .ok f ∧
      applySubmissions H tick f subs = .ok (g, rs) ∧ stateRootOf H g.state = .ok root ∧
      globalMerkleRoot H g.state g.eventCount g.lastEventHash = .ok globalRoot ∧
      step = stepOf tick g rs root globalRoot := by
  by_cases hlt : tick < incr.currentTick
  · simp [applyTick, hlt]
  · -- a block that does not regress is applied at its own tick
    have htick : (if incr.currentTick < tick then tick else incr.currentTick) = tick := by
      split <;> omega
    simp only [applyTick, hlt, if_false, htick, bind_eq_ok, pure_eq_ok, not_false_eq_true, true_and]
    constructor
    · rintro ⟨f, hf, ⟨g, rs⟩, hg, root, hroot, globalRoot, hglobal, rfl⟩
      exact ⟨f, g, rs, root, globalRoot, hf, hg, hroot, hglobal, rfl⟩
    · rintro ⟨f, g, rs, root, globalRoot, hf, hg, hroot, hglobal, rfl⟩
      exact ⟨f, hf, (g, rs), hg, root, hroot, globalRoot, hglobal, rfl⟩

/-- A block with one submission. -/
theorem applyTick_one {sub : Submission} : applyTick H incr ⟨tick, [sub]⟩ = .ok step ↔
    ¬tick < incr.currentTick ∧ ∃ f g res root globalRoot,
      advanceTick H incr.currentTick incr.start tick = .ok f ∧
      applySubmission H tick f sub = .ok (g, res) ∧ stateRootOf H g.state = .ok root ∧
      globalMerkleRoot H g.state g.eventCount g.lastEventHash = .ok globalRoot ∧
      step = stepOf tick g [res] root globalRoot := by
  simp only [applyTick_eq_ok, applySubmissions, bind_eq_ok, pure_eq_ok]
  constructor
  · rintro ⟨hle, f, g, rs, root, globalRoot, hf, ⟨⟨k, res⟩, hk, _, rfl, h⟩, hroots⟩
    cases h
    exact ⟨hle, f, k, res, root, globalRoot, hf, hk, hroots⟩
  · rintro ⟨hle, f, g, res, root, globalRoot, hf, hg, hroots⟩
    exact ⟨hle, f, g, [res], root, globalRoot, hf, ⟨(g, res), hg, _, rfl, rfl⟩, hroots⟩

/-- A block with two submissions. -/
theorem applyTick_two {sub sub' : Submission} : applyTick H incr ⟨tick, [sub, sub']⟩ = .ok step ↔
    ¬tick < incr.currentTick ∧ ∃ f k g res res' root globalRoot,
      advanceTick H incr.currentTick incr.start tick = .ok f ∧
      applySubmission H tick f sub = .ok (k, res) ∧ applySubmission H tick k sub' = .ok (g, res') ∧
      stateRootOf H g.state = .ok root ∧
      globalMerkleRoot H g.state g.eventCount g.lastEventHash = .ok globalRoot ∧
      step = stepOf tick g [res, res'] root globalRoot := by
  simp only [applyTick_eq_ok, applySubmissions, bind_eq_ok, pure_eq_ok]
  constructor
  · rintro ⟨hle, f, g, rs, root, globalRoot, hf, ⟨⟨k, res⟩, hk, _, ⟨⟨k', res'⟩, hk', _, rfl, rfl⟩, h⟩,
      hroots⟩
    cases h
    exact ⟨hle, f, k, k', res, res', root, globalRoot, hf, hk, hk', hroots⟩
  · rintro ⟨hle, f, k, g, res, res', root, globalRoot, hf, hk, hg, hroots⟩
    exact ⟨hle, f, g, [res, res'], root, globalRoot, hf, ⟨(k, res), hk, _, ⟨(g, res'), hg, _, rfl,
      rfl⟩, rfl⟩, hroots⟩

/-- The tick after a block is that of the block. -/
theorem advanceTick_again {g : Fold} {rs : List SubmissionResult} {root : List UInt8}
    {globalRoot : Str} : advanceTick H (stepOf tick g rs root globalRoot).next.currentTick
      (stepOf tick g rs root globalRoot).next.start tick =
        .ok (stepOf tick g rs root globalRoot).next.start := by
  unfold advanceTick
  exact if_neg (lt_irrefl tick)

/-- From every live state, a submission that is validated only and resumed in the next block of the same
tick, or in the same block, does what the atomic submission does, if the validation leaves it pending:
it returns when that returns, with the same live state, the same events, the same terminal stage and the
same reason. If the validation does not leave it pending, it is all that the atomic submission does. -/
theorem staged_is_atomic (H : Host) (incr : IncrementalState) (tick : ℤ) (sub : Submission)
    (stepV : TickStep) (resV : SubmissionResult)
    (hV : applyTick H incr ⟨tick, [sub.inMode .validateOnly]⟩ = .ok stepV)
    (hres : stepV.tickResult.submissions = [resV]) :
    (resV.Pending → ∀ o,
      ((∃ step, applyTick H incr ⟨tick, [sub.inMode .atomic]⟩ = .ok step ∧ step.outcome [] = o) ↔
        ∃ stepR, applyTick H stepV.next ⟨tick, [sub.inMode .resume]⟩ = .ok stepR ∧
          stepR.outcome stepV.events = o) ∧
      ((∃ step, applyTick H incr ⟨tick, [sub.inMode .atomic]⟩ = .ok step ∧ step.outcome [] = o) ↔
        ∃ step, applyTick H incr ⟨tick, [sub.inMode .validateOnly, sub.inMode .resume]⟩ = .ok step ∧
          step.outcome [] = o)) ∧
    (¬resV.Pending → applyTick H incr ⟨tick, [sub.inMode .atomic]⟩ = .ok stepV) := by
  obtain ⟨hle, f, gV, res, rootV, globalV, hf, hsub, hrootV, hglobalV, rfl⟩ :=
    applyTick_one.mp hV
  obtain rfl : res = resV := by simpa [stepOf] using hres
  obtain ⟨hpending, hended⟩ := applySubmission_staged hsub
  have hstart : gV = (stepOf tick gV [res] rootV globalV).next.start.after gV.events := by
    simp [stepOf, IncrementalState.start, Fold.after]
  -- the atomic block, in terms of what is resumed
  have hatomic : ∀ step, applyTick H incr ⟨tick, [sub.inMode .atomic]⟩ = .ok step → res.Pending →
      ∃ g resR root globalRoot, applySubmission H tick gV (sub.inMode .resume) = .ok (g, resR) ∧
        stateRootOf H g.state = .ok root ∧
        globalMerkleRoot H g.state g.eventCount g.lastEventHash = .ok globalRoot ∧
        step = stepOf tick g [res.andThen resR] root globalRoot := by
    intro step hA hp
    obtain ⟨-, f', g, resA, root, globalRoot, hf', hg, hroot, hglobal, rfl⟩ :=
      applyTick_one.mp hA
    rw [hf] at hf'
    cases hf'
    obtain ⟨resR, hR, rfl⟩ := (hpending hp g _).mp hg
    exact ⟨g, resR, root, globalRoot, hR, hroot, hglobal, rfl⟩
  have hresumed : ∀ g resR root globalRoot, res.Pending →
      applySubmission H tick gV (sub.inMode .resume) = .ok (g, resR) →
      stateRootOf H g.state = .ok root →
      globalMerkleRoot H g.state g.eventCount g.lastEventHash = .ok globalRoot →
      applyTick H incr ⟨tick, [sub.inMode .atomic]⟩ =
        .ok (stepOf tick g [res.andThen resR] root globalRoot) := by
    intro g resR root globalRoot hp hR hroot hglobal
    exact applyTick_one.mpr ⟨hle, f, g, _, root, globalRoot, hf, (hpending hp g _).mpr
      ⟨resR, hR, rfl⟩, hroot, hglobal, rfl⟩
  refine ⟨fun hp o => ⟨?_, ?_⟩, fun hnot => ?_⟩
  · constructor
    · rintro ⟨step, hA, rfl⟩
      obtain ⟨g, resR, root, globalRoot, hR, hroot, hglobal, rfl⟩ := hatomic step hA hp
      rw [hstart, applySubmission_after] at hR
      obtain ⟨k, hk, rfl⟩ := hR
      exact ⟨stepOf tick k [resR] root globalRoot, applyTick_one.mpr ⟨lt_irrefl tick, _, k, resR,
        root, globalRoot, advanceTick_again, hk, hroot, hglobal, rfl⟩, rfl⟩
    · rintro ⟨stepR, hR, rfl⟩
      obtain ⟨-, f', k, resR, root, globalRoot, hf', hk, hroot, hglobal, rfl⟩ :=
        applyTick_one.mp hR
      rw [advanceTick_again] at hf'
      cases hf'
      have hg : applySubmission H tick ((stepOf tick gV [res] rootV globalV).next.start.after gV.events)
          (sub.inMode .resume) = .ok (k.after gV.events, resR) :=
        applySubmission_after.mpr ⟨k, hk, rfl⟩
      rw [← hstart] at hg
      exact ⟨_, hresumed _ resR root globalRoot hp hg hroot hglobal, rfl⟩
  · constructor
    · rintro ⟨step, hA, rfl⟩
      obtain ⟨g, resR, root, globalRoot, hR, hroot, hglobal, rfl⟩ := hatomic step hA hp
      exact ⟨stepOf tick g [res, resR] root globalRoot, applyTick_two.mpr ⟨hle, f, gV, g, res, resR,
        root, globalRoot, hf, hsub, hR, hroot, hglobal, rfl⟩, rfl⟩
    · rintro ⟨step, hP, rfl⟩
      obtain ⟨-, f', k, g, res', resR, root, globalRoot, hf', hk, hR, hroot, hglobal, rfl⟩ :=
        applyTick_two.mp hP
      rw [hf] at hf'
      cases hf'
      rw [hsub] at hk
      cases hk
      exact ⟨_, hresumed g resR root globalRoot hp hR hroot hglobal, rfl⟩
  · exact applyTick_one.mpr ⟨hle, f, gV, res, rootV, globalV, hf, hended hnot, hrootV, hglobalV, rfl⟩

end Ticks

theorem staged_is_atomic_feed : ∃ stepV step stepR,
    applyTick Escape.host (initIncremental feedState)
      ⟨1, [(submitFeed .atomic).inMode .validateOnly]⟩ = .ok stepV ∧
    applyTick Escape.host (initIncremental feedState)
      ⟨1, [(submitFeed .atomic).inMode .atomic]⟩ = .ok step ∧
    applyTick Escape.host stepV.next ⟨1, [(submitFeed .atomic).inMode .resume]⟩ = .ok stepR ∧
    stepR.outcome stepV.events = step.outcome [] ∧
    (step.outcome []).ending = some (some .FINALIZED, none) := by
  obtain ⟨stepV, hV, hpending⟩ := exists_of_any
    (x := applyTick Escape.host (initIncremental feedState)
      ⟨1, [(submitFeed .atomic).inMode .validateOnly]⟩)
    (p := fun s => s.tickResult.submissions.all fun r =>
      r.terminalStage.isNone && r.ingressError.isNone) (by decide +kernel)
  obtain ⟨step, hA, hended⟩ := exists_of_any
    (x := applyTick Escape.host (initIncremental feedState)
      ⟨1, [(submitFeed .atomic).inMode .atomic]⟩)
    (p := fun s => decide ((s.outcome []).ending = some (some .FINALIZED, none)))
    (by decide +kernel)
  -- the validated block has one result, and it is pending
  obtain ⟨-, _, _, resV, _, _, -, -, -, -, rfl⟩ := applyTick_one.mp hV
  have hp : resV.Pending := by simpa [stepOf, SubmissionResult.Pending] using hpending
  obtain ⟨hstaged, -⟩ := staged_is_atomic Escape.host _ 1 _ _ resV hV rfl
  obtain ⟨stepR, hR, ho⟩ := (hstaged hp _).1.mp ⟨step, hA, rfl⟩
  exact ⟨_, step, stepR, hV, hA, hR, ho, of_decide_eq_true hended⟩

end ParadigmTerra
