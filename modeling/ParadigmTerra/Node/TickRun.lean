import ParadigmTerra.Node.ApplyTick
import ParadigmTerra.Reducer.Shapes
import ParadigmTerra.Validator.Gates

/-!
# What a tick does to the state

`Submission.Adds` lists what one submission can add to the log, and `applySubmission_adds` that the fold
does nothing else. `NodeRun` is the run of a node as a relation, an accepted tick advance or a submission
after another; `foldBlocks_run` says that the fold of tick blocks is such a run, so that an invariant of
the node is one step lemma over `NodeRun`.

`FieldsFit` follows the data of the submissions into the events, for the invariants over shapes.
-/

namespace ParadigmTerra

open Text OrderedMap Fallible

/-- The parts of a submission that can reach the state have a shape. -/
structure Submission.Fits (S : Shape) (sub : Submission) : Prop where
  cal : sub.cal.fits S = true
  effects : ∀ tr ∈ sub.trace.steps, ∀ e ∈ tr.effects, e.fits S = true

variable {S : Shape} {H : Host}

/-! ## The fields of the events -/

theorem isAscii_hexDigit : ∀ n, n < 16 → (hexDigit n).toNat < 0x80 := by decide

theorem isAscii_hex (bytes : List UInt8) : isAscii (hex bytes) = true := by
  have h : ∀ l : List UInt8, (toHex l).all (fun u => u.toNat < 0x80) = true := by
    intro l
    rw [List.all_eq_true]
    intro u hu
    obtain ⟨b, -, hu⟩ := List.mem_flatMap.mp hu
    have hb := b.toNat_lt
    simp only [List.mem_cons, List.not_mem_nil, or_false] at hu
    rcases hu with rfl | rfl
    · exact decide_eq_true (isAscii_hexDigit _ (by omega))
    · exact decide_eq_true (isAscii_hexDigit _ (by omega))
  rw [isAscii, hex, List.all_append, h, Bool.and_true]
  decide

namespace Validator

/-- The parts of the input that can reach the state have a shape. -/
structure Fits (S : Shape) (v : Validator) : Prop where
  hash : S.str v.calHash = true
  cal : v.cal.fits S = true
  effects : ∀ tr ∈ v.trace.steps, ∀ e ∈ tr.effects, e.fits S = true

/-- The events at the end of phase A. -/
def PhaseA.events : PhaseA → List Event
  | .terminal r => r.events
  | .validated evs => evs

variable {v : Validator}

theorem reason_fits (hS : S.Closed) (reason : ReasonCode) :
    S.str (js reason.text) = true := by
  have h : isAscii (js reason.text) = true := by cases reason <;> decide
  exact hS.lit _ h

theorem stagedDeltas_fits (hv : v.Fits S) : fitsElements S v.stagedDeltas = true := by
  rw [fitsElements_iff]
  intro e he
  obtain ⟨tr, htr, he⟩ := List.mem_flatMap.mp he
  exact hv.effects tr (List.mem_of_mem_take htr) e he

variable (hS : S.Closed) (hv : v.Fits S)

include hS hv

theorem agent_fits : S.str v.agent = true := by
  unfold agent asStr
  split
  · next a ha =>
    have hp := sound_of_getIn hv.cal ha
    exact hp.resolve_right fun h => h.elim
  · exact hS.lit "" (by decide)

theorem fieldsFit_event {type : String} (htype : isAscii (js type) = true)
    {rest : List (Str × Json)} (hrest : ∀ e ∈ rest, e.2.fits S = true) :
    FieldsFit S (v.event type rest) := by
  intro e he
  simp only [event, Json.members, List.mem_cons] at he
  rcases he with rfl | rfl | rfl | rfl | he
  · exact hS.lit type htype
  · exact hv.hash
  · exact agent_fits hS hv
  · rfl
  · exact hrest e he

/-- The fields of the events of the validator. -/
theorem failedPre_fits (reason : ReasonCode) (charge : ℤ) :
    FieldsFit S (v.failedPre reason charge) :=
  fieldsFit_event hS hv (by decide) (by simp [Json.fits, reason_fits hS])

theorem expiredPre_fits : FieldsFit S v.expiredPre :=
  fieldsFit_event hS hv (by decide) (by simp [Json.fits])

theorem validatedEvent_fits : FieldsFit S v.validatedEvent :=
  fieldsFit_event hS hv (by decide) (by simp [Json.fits])

theorem failedPost_fits (reason : ReasonCode) (bill : GasBill) :
    FieldsFit S (v.failedPost reason bill) :=
  fieldsFit_event hS hv (by decide) (by simp [Json.fits, reason_fits hS])

theorem expiredPost_fits (bill : GasBill) : FieldsFit S (v.expiredPost bill) :=
  fieldsFit_event hS hv (by decide) (by simp [Json.fits])

theorem executedEvent_fits (consumed : ℤ) :
    FieldsFit S (v.executedEvent v.stagedDeltas consumed) :=
  fieldsFit_event hS hv (by decide) (by simp [stagedDeltas_fits hv, Json.fits])

theorem settledEvent_fits : FieldsFit S v.settledEvent := by
  intro e he
  simp only [settledEvent, Json.members, List.mem_cons, List.not_mem_nil, or_false] at he
  rcases he with rfl | rfl
  · exact hS.lit "cal.settled" (by decide)
  · exact hv.hash

theorem finalizedEvent_fits (consumed : ℤ) (bill : GasBill) (n k : ℕ) :
    FieldsFit S (v.finalizedEvent consumed bill n k) :=
  fieldsFit_event hS hv (by decide) (by simp [Json.fits])

theorem phaseA_fits {a : PhaseA} (h : PhaseAEnd v a) : ∀ ev ∈ a.events, FieldsFit S ev := by
  cases h with
  | spam reason => exact List.forall_mem_singleton.mpr (failedPre_fits hS hv _ _)
  | noCharge reason => exact List.forall_mem_singleton.mpr (failedPre_fits hS hv _ _)
  | expired => exact List.forall_mem_singleton.mpr (expiredPre_fits hS hv)
  | validated gates => exact List.forall_mem_singleton.mpr (validatedEvent_fits hS hv)

theorem dropped_fits {evs : List Event} (hevs : ∀ ev ∈ evs, FieldsFit S ev) {r : ValidationResult}
    (h : Dropped v evs r) : ∀ ev ∈ r.events, FieldsFit S ev := by
  cases h with
  | expired bill hbill =>
    exact List.forall_mem_append.mpr
      ⟨hevs, List.forall_mem_singleton.mpr (expiredPost_fits hS hv bill)⟩
  | failed reason bytes bill hbytes hbill =>
    exact List.forall_mem_append.mpr
      ⟨hevs, List.forall_mem_singleton.mpr (failedPost_fits hS hv reason bill)⟩

theorem phaseB_fits {evs : List Event} (hevs : ∀ ev ∈ evs, FieldsFit S ev) {r : ValidationResult}
    (h : PhaseBEnd v evs r) : ∀ ev ∈ r.events, FieldsFit S ev := by
  have hexecuted : ∀ consumed, ∀ ev ∈ evs ++ [v.executedEvent v.stagedDeltas consumed],
      FieldsFit S ev := fun consumed => List.forall_mem_append.mpr
    ⟨hevs, List.forall_mem_singleton.mpr (executedEvent_fits hS hv consumed)⟩
  cases h with
  | dropped r h => exact dropped_fits hS hv hevs h
  | executed bytes units r hbytes hunits hmax h => exact dropped_fits hS hv (hexecuted _) h
  | finalized bytes units bill hbytes hunits hmax hbill =>
    exact List.forall_mem_append.mpr ⟨List.forall_mem_append.mpr ⟨hexecuted _,
      List.forall_mem_singleton.mpr (settledEvent_fits hS hv)⟩,
      List.forall_mem_singleton.mpr (finalizedEvent_fits hS hv _ bill _ _)⟩

end Validator

/-! ## What the fold accepts -/

theorem Run.append {C : State → Event → Prop} {s t u : State} {evs evs' : List Event}
    (h : Run C s evs t) (h' : Run C t evs' u) : Run C s (evs ++ evs') u := by
  induction h with
  | nil => exact h'
  | cons hC hacc _ ih => exact .cons hC hacc (ih h')

theorem run_nil {C : State → Event → Prop} {s t : State} (h : Run C s [] t) : s = t := by
  cases h
  rfl

/-- `g` is reached from `f` by the events, which are accepted and logged. -/
structure Fold.Extends (f : Fold) (evs : List Event) (g : Fold) : Prop where
  events : g.events = f.events ++ evs
  eventCount : g.eventCount = f.eventCount + evs.length
  run : AcceptsAll f.state evs g.state

namespace Fold.Extends

variable {f g k : Fold} {evs evs' : List Event}

theorem refl (f : Fold) : Extends f [] f := ⟨by simp, by simp, .nil _⟩

theorem trans (h : Extends f evs g) (h' : Extends g evs' k) : Extends f (evs ++ evs') k where
  events := by rw [h'.events, h.events, List.append_assoc]
  eventCount := by rw [h'.eventCount, h.eventCount, List.length_append, Nat.add_assoc]
  run := h.run.append h'.run

end Fold.Extends

section

variable {f g : Fold} {ev : Event}

/-- An event that the fold takes is accepted. -/
theorem fold_extends (h : f.fold H ev = .ok (.ok g)) : f.Extends [ev] g := by
  simp only [Fold.fold, bind_eq_ok] at h
  obtain ⟨r, hr, h⟩ := h
  cases r with
  | rejected code => cases h
  | ok s =>
    simp only [bind_eq_ok, pure_eq_ok] at h
    obtain ⟨e, -, h⟩ := h
    cases h
    exact ⟨rfl, rfl, .cons trivial hr (.nil _)⟩

/-- An event that the fold does not take is rejected. -/
theorem fold_rejects {code : ApplyErrorCode} (h : f.fold H ev = .ok (.error code)) :
    apply f.state ev = .ok (.rejected code) := by
  simp only [Fold.fold, bind_eq_ok] at h
  obtain ⟨r, hr, h⟩ := h
  cases r with
  | rejected c =>
    cases h
    exact hr
  | ok s =>
    simp only [bind_eq_ok] at h
    obtain ⟨_, -, h⟩ := h
    cases h

theorem foldEmitted_extends {what : Str} {p q : Fold × Recorded}
    (h : foldEmitted H what p ev = .ok q) : p.1.Extends [ev] q.1 := by
  simp only [foldEmitted, bind_eq_ok] at h
  obtain ⟨r, hr, h⟩ := h
  cases r with
  | error code => simp at h
  | ok f =>
    simp only [bind_eq_ok, pure_eq_ok] at h
    obtain ⟨_, -, rfl⟩ := h
    exact fold_extends hr

theorem foldlM_foldEmitted_extends {what : Str} {evs : List Event} {p q : Fold × Recorded}
    (h : evs.foldlM (foldEmitted H what) p = .ok q) : p.1.Extends evs q.1 := by
  induction evs generalizing p with
  | nil => exact foldlM_nil_ok.mp h ▸ .refl _
  | cons ev evs ih =>
    obtain ⟨u, hu, h⟩ := foldlM_cons_ok.mp h
    exact (foldEmitted_extends hu).trans (ih h)

/-- The ingress takes all of its events, or those before the first that the reducer rejects. -/
theorem ingress_extends {evs : List Event} {p : Fold × Recorded}
    {q : (Fold × Recorded) × Option ApplyErrorCode} (h : ingress H evs p = .ok q) :
    (q.2 = none ∧ p.1.Extends evs q.1.1) ∨
      ∃ pre ev post code, evs = pre ++ ev :: post ∧ p.1.Extends pre q.1.1 ∧ q.2 = some code ∧
        apply q.1.1.state ev = .ok (.rejected code) := by
  induction evs generalizing p with
  | nil =>
    cases h
    exact .inl ⟨rfl, .refl _⟩
  | cons ev evs ih =>
    simp only [ingress, bind_eq_ok] at h
    obtain ⟨r, hr, h⟩ := h
    cases r with
    | error code =>
      cases h
      exact .inr ⟨[], ev, evs, code, rfl, .refl _, rfl, fold_rejects hr⟩
    | ok f =>
      simp only [bind_eq_ok] at h
      obtain ⟨_, -, h⟩ := h
      have hf := fold_extends hr
      rcases ih h with ⟨hq, hall⟩ | ⟨pre, e, post, code, rfl, hpre, hq, hrej⟩
      · exact .inl ⟨hq, hf.trans hall⟩
      · exact .inr ⟨ev :: pre, e, post, code, rfl, hf.trans hpre, hq, hrej⟩

end

/-! ## Submissions -/

/-- What the validator sees of a submission that the node drives at a tick. -/
def Submission.validator (sub : Submission) (ch : Str) (tick : ℤ) (s : State) : Validator :=
  ⟨sub.cal, ch, s, { sub.trace with currentTick := tick }⟩

/-- The two events of the ingress. -/
abbrev ingressEvents (ch agent : Str) : List Event := [createdEvent ch agent, signedEvent ch]

/-- The events that a submission adds to the log, from the state that it finds: none if the ingress
rejects it, and else those of the phases that its mode drives it through. -/
inductive Submission.Adds (sub : Submission) (ch agent : Str) (tick : ℤ) (s : State) :
    List Event → Prop
  | rejected (code : ApplyErrorCode) (hmode : sub.mode ≠ some .resume)
    (h : apply s (createdEvent ch agent) = .ok (.rejected code)) : Adds sub ch agent tick s []
  | unsigned (hmode : sub.mode ≠ some .resume) : Adds sub ch agent tick s [createdEvent ch agent]
  | phaseA {t : State} {a : Validator.PhaseA} (hmode : sub.mode ≠ some .resume)
    (hs : AcceptsAll s (ingressEvents ch agent) t)
    (h : Validator.PhaseAEnd (sub.validator ch tick t) a) :
    Adds sub ch agent tick s (ingressEvents ch agent ++ a.events)
  | phaseB {t : State} {evs : List Event} {r : ValidationResult} (hmode : sub.mode ≠ some .resume)
    (hs : AcceptsAll s (ingressEvents ch agent) t)
    (ha : Validator.PhaseAEnd (sub.validator ch tick t) (.validated evs))
    (hb : Validator.PhaseBEnd (sub.validator ch tick t) evs r) :
    Adds sub ch agent tick s (ingressEvents ch agent ++ r.events)
  | resumed {r : ValidationResult} (hmode : sub.mode = some .resume)
    (h : Validator.PhaseBEnd (sub.validator ch tick s) [] r) : Adds sub ch agent tick s r.events

/-- The hash and the agent that the node reads off a submission. -/
structure Submission.Names (H : Host) (sub : Submission) (ch agent : Str) : Prop where
  hash : ∃ b, calHash H sub.cal = .ok b ∧ ch = hex b
  agent : strField sub.cal "agent_id" = .ok agent

theorem mode_eq_resume {mode : Option SubmissionMode} :
    mode.getD .atomic = .resume ↔ mode = some .resume := by
  cases mode <;> simp

/-- After the ingress, a submission is driven through the phases of its mode. -/
theorem drive_extends {sub : Submission} {ch agent : Str} {tick : ℤ} {p : Fold × Recorded}
    {q : Fold × SubmissionResult}
    (h : drive H sub ch agent { sub.trace with currentTick := tick } p = .ok q) :
    ∃ evs, p.1.Extends evs q.1 ∧
      ((sub.mode = some .resume ∧ ∃ r : ValidationResult, evs = r.events ∧
          Validator.PhaseBEnd (sub.validator ch tick p.1.state) [] r) ∨
        (sub.mode ≠ some .resume ∧ ∃ a, Validator.PhaseAEnd (sub.validator ch tick p.1.state) a ∧
          (evs = a.events ∨ ∃ evsA, ∃ r : ValidationResult, a = .validated evsA ∧ evs = r.events ∧
            Validator.PhaseBEnd (sub.validator ch tick p.1.state) evsA r))) := by
  unfold drive at h
  split at h
  · next hmode =>
    simp only [bind_eq_ok, pure_eq_ok] at h
    obtain ⟨res, hres, r, hr, rfl⟩ := h
    exact ⟨res.events, foldlM_foldEmitted_extends hr,
      .inl ⟨mode_eq_resume.mp hmode, res, rfl, Validator.phaseB_end hres⟩⟩
  · next hmode =>
    have hne : sub.mode ≠ some .resume := by
      intro hr
      rw [hr] at hmode
      cases hmode
    simp only [validateToValidated, bind_eq_ok, pure_eq_ok] at h
    obtain ⟨s1, ⟨a, ha, hs1⟩, r, hr, rfl⟩ := h
    have hend := Validator.phaseA_end ha
    cases a <;> cases hs1 <;>
      exact ⟨_, foldlM_foldEmitted_extends hr, .inr ⟨hne, _, hend, .inl rfl⟩⟩
  · next hmode =>
    have hne : sub.mode ≠ some .resume := by
      intro hr
      rw [hr] at hmode
      cases hmode
    simp only [validate, bind_eq_ok, pure_eq_ok] at h
    obtain ⟨res, ⟨a, ha, hres⟩, r, hr, rfl⟩ := h
    have hend := Validator.phaseA_end ha
    refine ⟨_, foldlM_foldEmitted_extends hr, .inr ⟨hne, a, hend, ?_⟩⟩
    cases a with
    | terminal t =>
      cases hres
      exact .inl rfl
    | validated evs => exact .inr ⟨evs, res, rfl, rfl, Validator.phaseB_end hres⟩

/-- What one submission does. -/
theorem applySubmission_adds {tick : ℤ} {sub : Submission} {f : Fold} {q : Fold × SubmissionResult}
    (h : applySubmission H tick f sub = .ok q) :
    ∃ ch agent evs, sub.Names H ch agent ∧ sub.Adds ch agent tick f.state evs ∧
      f.Extends evs q.1 := by
  simp only [applySubmission, bind_eq_ok] at h
  obtain ⟨b, hb, agent, hagent, h⟩ := h
  refine ⟨hex b, agent, ?_⟩
  have hnames : sub.Names H (hex b) agent := ⟨⟨b, hb, rfl⟩, hagent⟩
  split at h
  · next hmode =>
    obtain ⟨evs, hext, ⟨hm, r, rfl, hr⟩ | ⟨hm, -⟩⟩ := drive_extends h
    · exact ⟨r.events, hnames, .resumed hm hr, hext⟩
    · exact absurd (mode_eq_resume.mp hmode) hm
  · next hmode =>
    rw [mode_eq_resume] at hmode
    simp only [bind_eq_ok] at h
    obtain ⟨⟨p, rejected⟩, hin, h⟩ := h
    rcases ingress_extends hin with ⟨hnone, hext⟩ | ⟨pre, ev, post, code, heq, hext, hcode, hrej⟩
    · cases hnone
      obtain ⟨evs, hext', ⟨hm, -⟩ | ⟨-, a, ha, rfl | ⟨evsA, r, rfl, rfl, hr⟩⟩⟩ := drive_extends h
      · exact absurd hm hmode
      · exact ⟨_, hnames, .phaseA hmode hext.run ha, hext.trans hext'⟩
      · exact ⟨_, hnames, .phaseB hmode hext.run ha hr, hext.trans hext'⟩
    · cases hcode
      cases h
      -- the ingress stops before its first event or before its second
      rcases pre with _ | ⟨e, pre⟩
      · obtain ⟨rfl, -⟩ : createdEvent (hex b) agent = ev ∧ _ := List.cons.inj heq
        have hs : f.state = p.1.state := run_nil hext.run
        exact ⟨[], hnames, .rejected code hmode (hs ▸ hrej), hext⟩
      · obtain ⟨rfl, heq⟩ : createdEvent (hex b) agent = e ∧ _ := List.cons.inj heq
        have hpre : pre = [] := by
          have := congrArg List.length heq
          simp only [List.length_cons, List.length_nil, List.length_append] at this
          exact List.length_eq_zero_iff.mp (by omega)
        subst hpre
        exact ⟨_, hnames, .unsigned hmode, hext⟩

/-! ## Runs of the node -/

/-- A run of the node from a state: the log and the state after tick advances and submissions. `P`
holds of each submission, of the log before it and of the state that it finds. -/
inductive NodeRun (H : Host) (P : List Event → State → Submission → Prop) (s₀ : State) :
    List Event → State → Prop
  | start : NodeRun H P s₀ [] s₀
  | advanced {log : List Event} {s t : State} {tick : ℤ} (hrun : NodeRun H P s₀ log s)
    (hacc : Accepts s (advancedEvent tick) t) : NodeRun H P s₀ (log ++ [advancedEvent tick]) t
  | submitted {log evs : List Event} {s t : State} {sub : Submission} {ch agent : Str} {tick : ℤ}
    (hrun : NodeRun H P s₀ log s) (hP : P log s sub) (hnames : sub.Names H ch agent)
    (hadds : sub.Adds ch agent tick s evs) (hacc : AcceptsAll s evs t) :
    NodeRun H P s₀ (log ++ evs) t

/-- The reducer accepts the log of a run. -/
theorem NodeRun.acceptsAll {P : List Event → State → Submission → Prop} {s₀ s : State}
    {log : List Event} (h : NodeRun H P s₀ log s) : AcceptsAll s₀ log s := by
  induction h with
  | start => exact .nil _
  | advanced _ hacc ih => exact ih.append (.cons trivial hacc (.nil _))
  | submitted _ _ _ _ hacc ih => exact ih.append hacc

/-- `P` holds at every submission of a block, of the log before the block and its events so far. -/
def SubmissionsMeet (H : Host) (P : List Event → State → Submission → Prop) (tick : ℤ)
    (log : List Event) : Fold → List Submission → Prop
  | _, [] => True
  | f, sub :: subs => P (log ++ f.events) f.state sub ∧
      ∀ q, applySubmission H tick f sub = .ok q → SubmissionsMeet H P tick log q.1 subs

/-- The tick of the node at the submissions of a block. -/
def tickAt (incr : IncrementalState) (block : TickBlock) : ℤ :=
  if incr.currentTick < block.tick then block.tick else incr.currentTick

/-- `P` holds at every submission of the blocks that a fold applies. -/
def BlocksMeet (H : Host) (P : List Event → State → Submission → Prop) :
    List Event → IncrementalState → List TickBlock → Prop
  | _, _, [] => True
  | log, incr, b :: bs =>
    (∀ f, advanceTick H incr.currentTick ⟨incr.state, incr.eventCount, incr.lastEventHash, []⟩
      b.tick = .ok f → SubmissionsMeet H P (tickAt incr b) log f b.submissions) ∧
    ∀ step, applyTick H incr b = .ok step → BlocksMeet H P (log ++ step.events) step.next bs

section Decide

variable {P : List Event → State → Submission → Prop} [∀ log s sub, Decidable (P log s sub)]

def decideSubmissionsMeet (tick : ℤ) (log : List Event) : (subs : List Submission) → (f : Fold) →
    Decidable (SubmissionsMeet H P tick log f subs)
  | [], _ => .isTrue trivial
  | sub :: subs, f =>
    have := decideOk (applySubmission H tick f sub)
      (Q := fun q => SubmissionsMeet H P tick log q.1 subs)
      fun q => decideSubmissionsMeet tick log subs q.1
    inferInstanceAs (Decidable (P (log ++ f.events) f.state sub ∧
      ∀ q, applySubmission H tick f sub = .ok q → SubmissionsMeet H P tick log q.1 subs))

instance decideBlocksMeet : (blocks : List TickBlock) → (log : List Event) →
    (incr : IncrementalState) → Decidable (BlocksMeet H P log incr blocks)
  | [], _, _ => .isTrue trivial
  | b :: bs, log, incr =>
    have := decideOk (advanceTick H incr.currentTick
      ⟨incr.state, incr.eventCount, incr.lastEventHash, []⟩ b.tick)
      (Q := fun f => SubmissionsMeet H P (tickAt incr b) log f b.submissions)
      fun f => decideSubmissionsMeet (tickAt incr b) log b.submissions f
    have := decideOk (applyTick H incr b)
      (Q := fun step => BlocksMeet H P (log ++ step.events) step.next bs)
      fun step => decideBlocksMeet bs (log ++ step.events) step.next
    inferInstanceAs (Decidable ((∀ f, advanceTick H incr.currentTick
      ⟨incr.state, incr.eventCount, incr.lastEventHash, []⟩ b.tick = .ok f →
        SubmissionsMeet H P (tickAt incr b) log f b.submissions) ∧
      ∀ step, applyTick H incr b = .ok step → BlocksMeet H P (log ++ step.events) step.next bs))

end Decide

theorem SubmissionsMeet.mono {P Q : List Event → State → Submission → Prop}
    (hPQ : ∀ log s sub, P log s sub → Q log s sub) {tick : ℤ} {log : List Event} {f : Fold}
    {subs : List Submission} (h : SubmissionsMeet H P tick log f subs) :
    SubmissionsMeet H Q tick log f subs := by
  induction subs generalizing f with
  | nil => trivial
  | cons sub subs ih => exact ⟨hPQ _ _ _ h.1, fun q hq => ih (h.2 q hq)⟩

theorem BlocksMeet.mono {P Q : List Event → State → Submission → Prop}
    (hPQ : ∀ log s sub, P log s sub → Q log s sub) {log : List Event} {incr : IncrementalState}
    {blocks : List TickBlock} (h : BlocksMeet H P log incr blocks) : BlocksMeet H Q log incr blocks := by
  induction blocks generalizing log incr with
  | nil => trivial
  | cons b bs ih => exact ⟨fun f hf => (h.1 f hf).mono hPQ, fun step hstep => ih (h.2 step hstep)⟩

/-- What holds of every submission of a program holds at each of them. -/
theorem submissionsMeet_of_forall {P : Submission → Prop} {tick : ℤ} {log : List Event} {f : Fold}
    {subs : List Submission} (h : ∀ sub ∈ subs, P sub) :
    SubmissionsMeet H (fun _ _ sub => P sub) tick log f subs := by
  induction subs generalizing f with
  | nil => trivial
  | cons sub subs ih => exact ⟨h sub (by simp), fun _ _ => ih fun x hx => h x (by simp [hx])⟩

theorem blocksMeet_of_forall {P : Submission → Prop} {log : List Event} {incr : IncrementalState}
    {blocks : List TickBlock} (h : ∀ b ∈ blocks, ∀ sub ∈ b.submissions, P sub) :
    BlocksMeet H (fun _ _ sub => P sub) log incr blocks := by
  induction blocks generalizing log incr with
  | nil => trivial
  | cons b bs ih =>
    exact ⟨fun _ _ => submissionsMeet_of_forall (h b (by simp)),
      fun _ _ => ih fun x hx => h x (by simp [hx])⟩

section

variable {P : List Event → State → Submission → Prop} {s₀ : State} {log : List Event}

theorem applySubmissions_run {tick : ℤ} {f : Fold} {subs : List Submission}
    {q : Fold × List SubmissionResult} (hmeet : SubmissionsMeet H P tick log f subs)
    (hrun : NodeRun H P s₀ (log ++ f.events) f.state)
    (h : applySubmissions H tick f subs = .ok q) :
    NodeRun H P s₀ (log ++ q.1.events) q.1.state := by
  induction subs generalizing f q with
  | nil =>
    cases h
    exact hrun
  | cons sub subs ih =>
    simp only [applySubmissions, bind_eq_ok, pure_eq_ok] at h
    obtain ⟨p, hp, r, hr, rfl⟩ := h
    obtain ⟨ch, agent, evs, hnames, hadds, hext⟩ := applySubmission_adds hp
    have hnext : NodeRun H P s₀ (log ++ p.1.events) p.1.state := by
      rw [hext.events, ← List.append_assoc]
      exact .submitted hrun hmeet.1 hnames hadds hext.run
    have hrest : NodeRun H P s₀ (log ++ r.1.events) r.1.state := ih (hmeet.2 p hp) hnext hr
    exact hrest

/-- The tick advances by an accepted event, or stays. -/
theorem advanceTick_run {current tick : ℤ} {f g : Fold} (hrun : NodeRun H P s₀ (log ++ f.events) f.state)
    (h : advanceTick H current f tick = .ok g) :
    NodeRun H P s₀ (log ++ g.events) g.state := by
  unfold advanceTick at h
  split at h
  · simp only [bind_eq_ok] at h
    obtain ⟨r, hr, h⟩ := h
    cases r with
    | error code => cases h
    | ok k =>
      cases h
      have hext := fold_extends hr
      obtain ⟨t, -, hacc, hnil⟩ := run_cons hext.run
      rw [hext.events, ← List.append_assoc, ← run_nil hnil]
      exact .advanced hrun hacc
  · cases h
    exact hrun

/-- What one tick block does. -/
theorem applyTick_run {incr : IncrementalState} {block : TickBlock} {step : TickStep}
    (hmeet : ∀ f, advanceTick H incr.currentTick
      ⟨incr.state, incr.eventCount, incr.lastEventHash, []⟩ block.tick = .ok f →
      SubmissionsMeet H P (tickAt incr block) log f block.submissions)
    (hrun : NodeRun H P s₀ log incr.state) (h : applyTick H incr block = .ok step) :
    NodeRun H P s₀ (log ++ step.events) step.next.state := by
  unfold applyTick at h
  split at h
  · simp at h
  · simp only [bind_eq_ok, pure_eq_ok] at h
    obtain ⟨f, hf, q, hq, _, -, _, -, rfl⟩ := h
    have hstart : NodeRun H P s₀ (log ++ f.events) f.state :=
      advanceTick_run (by simpa using hrun) hf
    exact applySubmissions_run (hmeet f hf) hstart hq

/-- What a fold of tick blocks does. -/
theorem foldBlocks_run {incr : IncrementalState} {blocks : List TickBlock} {folded : Folded}
    (hmeet : BlocksMeet H P [] incr blocks) (h : foldBlocks H incr blocks = .ok folded) :
    NodeRun H P incr.state folded.eventLog folded.incr.state := by
  suffices hgen : ∀ (acc : Folded), BlocksMeet H P acc.eventLog acc.incr blocks →
      NodeRun H P incr.state acc.eventLog acc.incr.state →
      blocks.foldlM (fun acc b => do
        let step ← applyTick H acc.incr b
        pure ⟨step.next, acc.tickResults ++ [step.tickResult], acc.eventLog ++ step.events⟩) acc =
          .ok folded → NodeRun H P incr.state folded.eventLog folded.incr.state by
    exact hgen ⟨incr, [], []⟩ hmeet .start h
  clear h hmeet
  induction blocks with
  | nil =>
    intro acc _ hrun h
    exact foldlM_nil_ok.mp h ▸ hrun
  | cons b bs ih =>
    intro acc hmeet hrun h
    obtain ⟨acc', hacc, h⟩ := foldlM_cons_ok.mp h
    simp only [bind_eq_ok, pure_eq_ok] at hacc
    obtain ⟨step, hstep, rfl⟩ := hacc
    exact ih _ (hmeet.2 step hstep) (applyTick_run hmeet.1 hrun hstep) h

end

end ParadigmTerra
