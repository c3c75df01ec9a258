import ParadigmTerra.Node.CanonicalText
import ParadigmTerra.Node.TickRun
import ParadigmTerra.Reducer.TaskBoard
import ParadigmTerra.Validator.Settlement

/-!
# Replays

Anyone can submit a CAL again. `replay_protection` says what a run of the node guarantees then: an agent's
`cal.validated` events carry strictly increasing nonces, and a CAL is finalized at most once. The nonce gate
of the validator numbers the validated CALs of an agent (`Serial`), and the board of the reducer numbers them
in the same way (`spent_advance`), since an agent has one CAL in flight.
-/

namespace ParadigmTerra

open Text OrderedMap Fallible Tasks

variable {H : Host}

/-! ## The types of the events that a submission adds -/

/-- The types of the events after VALIDATED. -/
def phaseBTypes : List (List EventType) :=
  [[.expired], [.failed], [.executed, .expired], [.executed, .failed], [.executed, .settled, .finalized]]

/-- The types of the events that a submission other than a resumption adds. -/
def ingressTypes : List (List EventType) :=
  [[], [.created], [.created, .signed, .failed], [.created, .signed, .expired],
    [.created, .signed, .validated]] ++ phaseBTypes.map ([.created, .signed, .validated] ++ ·)

/-- The events have these types, and are all of the CAL. -/
abbrev EventsOf (ch : Str) : List Event → List EventType → Prop :=
  List.Forall₂ fun ev type => IsEvent ev type ch

namespace Validator

variable {v : Validator} {D : Json → Prop}

theorem phaseA_types {a : PhaseA} (h : PhaseAEnd v a) :
    ∃ ev type, a.events = [ev] ∧ IsEvent ev type v.calHash ∧
      (type = .failed ∨ type = .expired ∨
        type = .validated ∧ ev = v.validatedEvent ∧ Gates v) := by
  cases h with
  | spam reason => exact ⟨_, .failed, rfl, failedPre_isEvent _ _, .inl rfl⟩
  | noCharge reason => exact ⟨_, .failed, rfl, failedPre_isEvent _ _, .inl rfl⟩
  | expired => exact ⟨_, .expired, rfl, expiredPre_isEvent, .inr (.inl rfl)⟩
  | validated gates =>
    exact ⟨_, .validated, rfl, validatedEvent_isEvent, .inr (.inr ⟨rfl, rfl, gates⟩)⟩

theorem dropped_types {evs : List Event} {r : ValidationResult} (h : Dropped v evs r) :
    ∃ ev type, r.events = evs ++ [ev] ∧ IsEvent ev type v.calHash ∧
      (type = .failed ∨ type = .expired) := by
  cases h with
  | expired bill hbill => exact ⟨_, .expired, rfl, expiredPost_isEvent bill, .inr rfl⟩
  | failed reason bytes bill hbytes hbill =>
    exact ⟨_, .failed, rfl, failedPost_isEvent reason bill, .inl rfl⟩

theorem phaseB_types {evs : List Event} {r : ValidationResult} (h : PhaseBEnd v evs r) :
    ∃ l types, r.events = evs ++ l ∧ types ∈ phaseBTypes ∧ EventsOf v.calHash l types := by
  cases h with
  | dropped r h =>
    obtain ⟨ev, type, heq, hev, rfl | rfl⟩ := dropped_types h
    · exact ⟨[ev], [.failed], heq, by decide, .cons hev .nil⟩
    · exact ⟨[ev], [.expired], heq, by decide, .cons hev .nil⟩
  | executed bytes units r hbytes hunits hmax h =>
    have hexecuted : IsEvent (v.executedEvent v.stagedDeltas (toNano units (gasPrice v.snapshot)))
        .executed v.calHash := executedEvent_isEvent _ _
    obtain ⟨ev, type, heq, hev, rfl | rfl⟩ := dropped_types h
    · exact ⟨_, [.executed, .failed], heq.trans (List.append_assoc _ _ _), by decide,
        .cons hexecuted (.cons hev .nil)⟩
    · exact ⟨_, [.executed, .expired], heq.trans (List.append_assoc _ _ _), by decide,
        .cons hexecuted (.cons hev .nil)⟩
  | finalized bytes units bill hbytes hunits hmax hbill =>
    refine ⟨[v.executedEvent v.stagedDeltas (toNano units (gasPrice v.snapshot)), v.settledEvent,
      v.finalizedEvent (toNano units (gasPrice v.snapshot)) bill v.steps.length
        v.invariants.length], [.executed, .settled, .finalized], by simp, by decide, ?_⟩
    exact .cons (executedEvent_isEvent _ _)
      (.cons settledEvent_isEvent (.cons (finalizedEvent_isEvent _ _ _ _) .nil))

end Validator

theorem isEvent_created (ch agent : Str) : IsEvent (createdEvent ch agent) .created ch :=
  ⟨by simp [createdEvent, Json.read, OrderedMap.get, EventType.name],
    by simp [createdEvent, Json.read, OrderedMap.get]⟩

theorem isEvent_signed (ch : Str) : IsEvent (signedEvent ch) .signed ch :=
  ⟨by simp [signedEvent, Json.read, OrderedMap.get, EventType.name],
    by simp [signedEvent, Json.read, OrderedMap.get]⟩

/-- The types of the events that a submission adds. -/
theorem Submission.Adds.types {sub : Submission} {ch agent : Str} {tick : ℤ} {s : State}
    {evs : List Event} (h : sub.Adds ch agent tick s evs) :
    ∃ types, EventsOf ch evs types ∧
      (sub.mode = some .resume ∧ types ∈ phaseBTypes ∨
        sub.mode ≠ some .resume ∧ types ∈ ingressTypes) := by
  have hin : EventsOf ch (ingressEvents ch agent) [.created, .signed] :=
    .cons (isEvent_created ch agent) (.cons (isEvent_signed ch) .nil)
  cases h with
  | rejected code hmode h => exact ⟨[], .nil, .inr ⟨hmode, by decide⟩⟩
  | unsigned hmode =>
    exact ⟨[.created], .cons (isEvent_created ch agent) .nil, .inr ⟨hmode, by decide⟩⟩
  | phaseA hmode hs h =>
    obtain ⟨ev, type, heq, hev, htype⟩ := Validator.phaseA_types h
    refine ⟨[.created, .signed, type], ?_, .inr ⟨hmode, ?_⟩⟩
    · rw [heq]
      exact List.rel_append hin (.cons hev .nil)
    · rcases htype with rfl | rfl | ⟨rfl, -⟩ <;> decide
  | @phaseB t _ r hmode hs ha hb =>
    obtain ⟨l, types, hr, htypes, hl⟩ := Validator.phaseB_types hb
    cases ha with
    | validated gates =>
      have hev : IsEvent (sub.validator ch tick t).validatedEvent .validated ch :=
        Validator.validatedEvent_isEvent
      refine ⟨[.created, .signed, .validated] ++ types, ?_,
        .inr ⟨hmode, List.mem_append_right _ (List.mem_map_of_mem htypes)⟩⟩
      rw [hr, ← List.append_assoc]
      exact List.rel_append (List.rel_append hin (.cons hev .nil)) hl
  | resumed hmode h =>
    obtain ⟨l, types, hr, htypes, hl⟩ := Validator.phaseB_types h
    exact ⟨types, by rw [hr]; exact hl, .inl ⟨hmode, htypes⟩⟩

/-! ## Numbered validations -/

/-- The nonce of an event, if it is a `cal.validated` of the agent. -/
def validatedNonce (agent : Str) (ev : Event) : Option ℤ :=
  if isStr (ev.read (js "event_type")) EventType.validated.name &&
      isStr (ev.read (js "agent_id")) agent then
    match ev.read (js "nonce") with
    | some (.int n) => some n
    | _ => none
  else none

/-- The nonces of an agent's `cal.validated` events, in the order of the log. -/
def validatedNonces (agent : Str) (log : List Event) : List ℤ := log.filterMap (validatedNonce agent)

/-- The event is of the type and of the CAL. -/
def isOf (type : EventType) (ch : Str) (ev : Event) : Bool :=
  isStr (ev.read (js "event_type")) type.name && isStr (ev.read (js "cal_hash")) ch

theorem isOf_iff {type : EventType} {ch : Str} {ev : Event} :
    isOf type ch ev = true ↔ IsEvent ev type ch := by
  rw [isOf, Bool.and_eq_true, isStr_iff, isStr_iff]
  exact ⟨fun h => ⟨h.1, h.2⟩, fun h => ⟨h.type, h.hash⟩⟩

/-- A `cal.validated` event carries the nonce after the agent's, and its CAL is in flight for the
agent. -/
def Serial (s : State) (ev : Event) : Prop :=
  ev.read (js "event_type") = some (.str EventType.validated.name) →
    ∃ ch agent m, ev.read (js "cal_hash") = some (.str ch) ∧
      ev.read (js "agent_id") = some (.str agent) ∧
      ev.read (js "nonce") = some (.int (nonceOf s agent + 1)) ∧
      get ch (flights s) = some (.obj m) ∧ get (js "agent_id") m = some (.str agent)

theorem validatedNonce_eq_some {agent : Str} {ev : Event} {n : ℤ}
    (h : validatedNonce agent ev = some n) :
    ev.read (js "event_type") = some (.str EventType.validated.name) ∧
      ev.read (js "agent_id") = some (.str agent) ∧ ev.read (js "nonce") = some (.int n) := by
  unfold validatedNonce at h
  split at h
  · next hc =>
    rw [Bool.and_eq_true, isStr_iff, isStr_iff] at hc
    refine ⟨hc.1, hc.2, ?_⟩
    split at h
    · next k hk =>
      cases h
      exact hk
    · cases h
  · cases h

section Numbers

variable {D : Json → Prop} {base : Str → ℤ} {s t : State} {b b' : Board Str Str} {ev : Event}

theorem actOf_of_isEvent_validated {ch : Str} (h : IsEvent ev .validated ch) :
    actOf ev = .advance ch Stage.VALIDATED.rank := by
  simp only [actOf, h.type, h.hash, EventType.ofStr?_name]

/-- A numbered validation is the next one of its agent on the board. -/
theorem Serial.number (hserial : Serial s ev) (hs : Shows D base s b) (hb : b.Exclusive)
    (hstep : b.Step (actOf ev) b') {agent : Str} {n : ℤ} (hn : validatedNonce agent ev = some n) :
    b.spent 2 agent = b.ended agent ∧ n = base agent + b'.spent 2 agent ∧
      b'.spent 2 agent = b.ended agent + 1 := by
  obtain ⟨htype, hagent, hnonce⟩ := validatedNonce_eq_some hn
  obtain ⟨ch, agent', m, hch, hagent', hnonce', hm, ha⟩ := hserial htype
  rw [hagent, Option.some.injEq, Json.str.injEq] at hagent'
  subst hagent'
  rw [hnonce, Option.some.injEq, Json.int.injEq] at hnonce'
  rw [actOf_of_isEvent_validated ⟨htype, hch⟩] at hstep
  obtain ⟨a, htask, hspent, hspent'⟩ := spent_advance hb hstep
  -- the owner of the task is the agent of the entry
  obtain ⟨a', st, htask', hentry⟩ := hs.task_of_get hm
  rw [htask, Option.some.injEq, Prod.mk.injEq] at htask'
  have howner : agent = a := by
    have := ha.symm.trans hentry.agent
    rw [Option.some.injEq, Json.str.injEq] at this
    exact this.trans htask'.1.symm
  subst howner
  have hspent'' : b'.spent 2 agent = b.ended agent + 1 := hspent'
  refine ⟨hspent, ?_, hspent''⟩
  rw [hnonce', hs.nonce agent, hspent'']
  push_cast
  omega

theorem increasing_from (hD : ∀ d, D d → AvoidsNamespaces [js "cal"] d) (agent : Str) {L : List ℤ}
    (hs : Shows D base s b) (hb : b.Exclusive) (hL : L.Pairwise (· < ·))
    (hbound : ∀ n ∈ L, n ≤ base agent + b.spent 2 agent) {evs : List Event}
    (h : Run (fun s ev => Stages D ev ∧ Serial s ev) s evs t) :
    (L ++ validatedNonces agent evs).Pairwise (· < ·) := by
  induction h generalizing b L with
  | nil => simpa [validatedNonces] using hL
  | @cons s u t ev evs hC hacc _ ih =>
    obtain ⟨b', hstep, hs'⟩ := accepts_shows hs hC.1 (hs.spares hD ev) hacc
    have hb' := hstep.exclusive hb
    have hmono := spent_le hstep 2 agent
    cases hn : validatedNonce agent ev with
    | none =>
      have hlist : validatedNonces agent (ev :: evs) = validatedNonces agent evs := by
        simp [validatedNonces, hn]
      rw [hlist]
      refine ih hs' hb' hL fun n hmem => (hbound n hmem).trans ?_
      omega
    | some n =>
      obtain ⟨hspent, hnum, hspent'⟩ := hC.2.number hs hb hstep hn
      have hlist : L ++ validatedNonces agent (ev :: evs) =
          (L ++ [n]) ++ validatedNonces agent evs := by simp [validatedNonces, hn]
      rw [hlist]
      refine ih hs' hb' ?_ ?_
      · refine List.pairwise_append.mpr ⟨hL, List.pairwise_singleton _ _, ?_⟩
        intro k hk l hl
        rw [List.mem_singleton.mp hl]
        have := hbound k hk
        omega
      · intro k hk
        rcases List.mem_append.mp hk with hk | hk
        · have := hbound k hk
          omega
        · rw [List.mem_singleton.mp hk]
          exact hnum.le

/-- The nonces of an agent's validated CALs are strictly increasing. -/
theorem validatedNonces_increasing (hD : ∀ d, D d → AvoidsNamespaces [js "cal"] d)
    (h₀ : flights s = []) {log : List Event}
    (h : Run (fun s ev => Stages D ev ∧ Serial s ev) s log t) (agent : Str) :
    (validatedNonces agent log).Pairwise (· < ·) := by
  have := increasing_from hD agent (shows_empty (D := D) h₀) told_empty.exclusive (L := []) .nil
    (by simp) h
  simpa using this

/-! ## Finalizations -/

/-- One if the CAL is in flight at VALIDATED or later. -/
def validatedFlag (b : Board Str Str) (ch : Str) : ℕ :=
  match b.task ch with
  | some (_, n) => if Stage.VALIDATED.rank ≤ n then 1 else 0
  | none => 0

theorem isEvent_validated_of_actOf {ch : Str} (h : actOf ev = .advance ch Stage.VALIDATED.rank) :
    IsEvent ev .validated ch := by
  unfold actOf at h
  split at h
  · next type c htype hc =>
    split at h
    · split at h <;> cases h
    · cases h
    · next ht =>
      cases h
      exact ⟨by rw [htype, EventType.name_of_ofStr? ht], hc⟩
    all_goals cases h
  · cases h

/-- The flag rises at `cal.validated` only. -/
theorem validatedFlag_le {ch : Str} (hstep : b.Step (actOf ev) b')
    (hne : isOf .validated ch ev = false) : validatedFlag b' ch ≤ validatedFlag b ch := by
  generalize hact : actOf ev = act at hstep
  unfold validatedFlag
  cases hstep with
  | @start k a hk ha =>
    rw [task_place]
    split_ifs with hck
    · subst hck
      simp [Stage.rank]
    · exact le_rfl
  | @advance k a n h =>
    rw [task_place]
    split_ifs with hck
    · subst hck
      rw [h]
      have hn : n + 1 ≠ Stage.VALIDATED.rank := by
        intro heq
        rw [heq] at hact
        rw [isOf_iff.mpr (isEvent_validated_of_actOf hact)] at hne
        cases hne
      change n + 1 ≠ 2 at hn
      change (if 2 ≤ n + 1 then 1 else 0) ≤ (if 2 ≤ n then 1 else 0)
      split_ifs <;> omega
    · exact le_rfl
  | @finish k a n h =>
    rw [task_count, task_place]
    split_ifs
    · exact Nat.zero_le _
    · exact le_rfl
  | other => exact le_rfl

theorem validatedFlag_le_one (b : Board Str Str) (ch : Str) : validatedFlag b ch ≤ 1 := by
  unfold validatedFlag
  split
  · split_ifs <;> omega
  · omega

/-- A CAL that is finalized was validated, and is gone. -/
theorem validatedFlag_finalized {ch : Str} (hs : Shows D base s b) (hstep : b.Step (actOf ev) b')
    (hev : IsEvent ev .finalized ch) (h : Accepts s ev t) :
    validatedFlag b ch = 1 ∧ validatedFlag b' ch = 0 := by
  rw [accepts_iff, hev.applyEvent] at h
  simp only [EventType.step, calFinalized, hev.reqStr, ok_bind, bind_eq_ok] at h
  obtain ⟨e, hf, _, hst, -⟩ := h
  obtain ⟨m, a, -, -, hb, -⟩ := hs.at_stage .SETTLED hf hst
  have hact : actOf ev = .finish ch := by
    simp only [actOf, hev.type, hev.hash, EventType.ofStr?_name]
  rw [hact] at hstep
  refine ⟨by simp [validatedFlag, hb, Stage.rank], ?_⟩
  cases hstep with
  | @finish _ a n h =>
    unfold validatedFlag
    rw [task_count, task_place, if_pos rfl]

theorem count_finalized_from (hD : ∀ d, D d → AvoidsNamespaces [js "cal"] d) (ch : Str)
    (hs : Shows D base s b) {F V : ℕ} (hFV : F + validatedFlag b ch ≤ V) {evs : List Event}
    (h : Run (fun _ ev => Stages D ev) s evs t) :
    F + evs.countP (isOf .finalized ch) ≤ V + evs.countP (isOf .validated ch) := by
  induction h generalizing b F V with
  | nil =>
    simp only [List.countP_nil]
    omega
  | @cons s u t ev evs hC hacc _ ih =>
    obtain ⟨b', hstep, hs'⟩ := accepts_shows hs hC (hs.spares hD ev) hacc
    have hone := validatedFlag_le_one b' ch
    rw [List.countP_cons, List.countP_cons]
    by_cases hfin : isOf .finalized ch ev = true
    · obtain ⟨h1, h0⟩ := validatedFlag_finalized hs hstep (isOf_iff.mp hfin) hacc
      have := ih (F := F + 1) (V := V) hs' (by omega)
      rw [if_pos hfin]
      split_ifs <;> omega
    · rw [if_neg hfin]
      by_cases hval : isOf .validated ch ev = true
      · have := ih (F := F) (V := V + 1) hs' (by omega)
        rw [if_pos hval]
        omega
      · have hle := validatedFlag_le hstep (by simpa using hval)
        have := ih (F := F) (V := V) hs' (by omega)
        rw [if_neg hval]
        omega

/-- A CAL is not finalized more often than it is validated. -/
theorem count_finalized_le (hD : ∀ d, D d → AvoidsNamespaces [js "cal"] d) (h₀ : flights s = [])
    {log : List Event} (h : Run (fun _ ev => Stages D ev) s log t) (ch : Str) :
    log.countP (isOf .finalized ch) ≤ log.countP (isOf .validated ch) := by
  have := count_finalized_from hD ch (shows_empty (D := D) h₀) (F := 0) (V := 0)
    (by simp [validatedFlag, Board.empty]) h
  omega

end Numbers

/-! ## Events of sound submissions -/

namespace Validator

variable {v : Validator} {D : Json → Prop}

theorem stages_event {type : String} {rest : List (Str × Json)}
    (h : ∀ ds, get (js "effects") rest = some (.arr ds) → ∀ d ∈ ds, D d) :
    Stages D (v.event type rest) := by
  intro ds hds
  refine h ds ?_
  simpa [event, Json.read, OrderedMap.get, inherited, inheritedNames] using hds

theorem stages_executed (h : ∀ d ∈ v.stagedDeltas, D d) (consumed : ℤ) :
    Stages D (v.executedEvent v.stagedDeltas consumed) :=
  stages_event fun ds hds => by
    simp only [OrderedMap.get, if_true, Option.some.injEq, Json.arr.injEq] at hds
    exact hds ▸ h

theorem stages_settled : Stages D v.settledEvent := by
  intro ds hds
  simp [settledEvent, Json.read, OrderedMap.get, inherited, inheritedNames] at hds

theorem dropped_stages {evs : List Event} {r : ValidationResult} (h : Dropped v evs r) :
    ∃ ev, r.events = evs ++ [ev] ∧ Stages D ev := by
  cases h with
  | expired bill hbill => exact ⟨_, rfl, stages_event (by simp [OrderedMap.get])⟩
  | failed reason bytes bill hbytes hbill => exact ⟨_, rfl, stages_event (by simp [OrderedMap.get])⟩

/-- Phase B stages the deltas of the trace. -/
theorem phaseB_stages (hv : ∀ d ∈ v.stagedDeltas, D d) {evs : List Event} {r : ValidationResult}
    (h : PhaseBEnd v evs r) : ∃ l, r.events = evs ++ l ∧ ∀ ev ∈ l, Stages D ev := by
  cases h with
  | dropped r h =>
    obtain ⟨ev, heq, hev⟩ := dropped_stages h
    exact ⟨[ev], heq, List.forall_mem_singleton.mpr hev⟩
  | executed bytes units r hbytes hunits hmax h =>
    obtain ⟨ev, heq, hev⟩ := dropped_stages h
    refine ⟨_, heq.trans (List.append_assoc _ _ _), ?_⟩
    exact List.forall_mem_cons.mpr ⟨stages_executed hv _, List.forall_mem_singleton.mpr hev⟩
  | finalized bytes units bill hbytes hunits hmax hbill =>
    refine ⟨[v.executedEvent v.stagedDeltas (toNano units (gasPrice v.snapshot)), v.settledEvent,
      v.finalizedEvent (toNano units (gasPrice v.snapshot)) bill v.steps.length
        v.invariants.length], by simp, ?_⟩
    intro ev hev
    simp only [List.mem_cons, List.not_mem_nil, or_false] at hev
    rcases hev with rfl | rfl | rfl
    · exact stages_executed hv _
    · exact stages_settled
    · exact stages_event (by simp [OrderedMap.get])

theorem phaseA_stages {a : PhaseA} (h : PhaseAEnd v a) : ∀ ev ∈ a.events, Stages D ev := by
  cases h <;>
    exact List.forall_mem_singleton.mpr (stages_event (by simp [OrderedMap.get]))

end Validator

theorem stages_created (D : Json → Prop) (ch agent : Str) : Stages D (createdEvent ch agent) := by
  intro ds hds
  simp [createdEvent, Json.read, OrderedMap.get, inherited, inheritedNames] at hds

theorem stages_signed (D : Json → Prop) (ch : Str) : Stages D (signedEvent ch) := by
  intro ds hds
  simp [signedEvent, Json.read, OrderedMap.get, inherited, inheritedNames] at hds

theorem stages_advanced (D : Json → Prop) (tick : ℤ) : Stages D (advancedEvent tick) := by
  intro ds hds
  simp [advancedEvent, Json.read, OrderedMap.get, inherited, inheritedNames] at hds

/-- After the ingress the CAL is at SIGNED. -/
theorem entryAt_of_ingress {ch agent : Str} {s t : State}
    (h : AcceptsAll s (ingressEvents ch agent) t) : ∃ m, EntryAt t ch agent "SIGNED" m := by
  obtain ⟨u, -, hcreated, h⟩ := run_cons h
  obtain ⟨t', -, hsigned, hnil⟩ := run_cons h
  cases run_nil hnil
  rw [accepts_iff, (isEvent_created ch agent).applyEvent] at hcreated
  rw [accepts_iff, (isEvent_signed ch).applyEvent] at hsigned
  simp only [EventType.step, calCreated, (isEvent_created ch agent).reqStr, ok_bind, bind_eq_ok,
    pure_eq_ok, require_eq_ok] at hcreated
  obtain ⟨agent', hagent, -, -, -, -, rfl⟩ := hcreated
  have hread : (createdEvent ch agent).read (js "agent_id") = some (.str agent) := by
    simp [createdEvent, Json.read, OrderedMap.get]
  rw [reqStr_of_read hread] at hagent
  cases hagent
  have hentry : EntryAt (setIn (some s) (flightPath ch) (newEntry agent)) ch agent "CREATED" _ :=
    ⟨by rw [flights_setIn_flightPath, get_put_self, newEntry], by simp [OrderedMap.get],
      by simp [OrderedMap.get]⟩
  simp only [EventType.step, calSigned, (isEvent_signed ch).reqStr, ok_bind, bind_eq_ok,
    pure_eq_ok] at hsigned
  obtain ⟨_, -, _, -, rfl⟩ := hsigned
  exact ⟨_, hentry.setStage "SIGNED"⟩

/-! ## Runs of sound submissions -/

/-- The effects that a submission stages if it is executed. -/
def Submission.staged (sub : Submission) : List Json :=
  (sub.trace.steps.take (listOf (getIn sub.cal [js "steps"])).length).flatMap StepResult.effects

/-- A submission whose CAL is accepted and whose effects do not write `cal`. Its members have distinct
names, as those of every object. -/
structure Submission.Sound (sub : Submission) : Prop where
  distinct : (sub.cal.members.map Prod.fst).Nodup
  valid : ∃ cal, validateCal sub.cal = .ok cal
  spares : ∀ d ∈ sub.staged, AvoidsNamespaces [js "cal"] d

/-- The CAL of a sound submission: an object of the schema, with the bytes under its hash. -/
structure SoundCal (H : Host) (m : List (Str × Json)) (ch agent : Str) (b : List UInt8) (n : ℤ) :
    Prop where
  valid : validateCal (.obj m) = .ok (.obj m)
  distinct : (m.map Prod.fst).Nodup
  bytes : canonicalUnsignedBytes H (.obj m) = .ok b
  hash : ch = hex (domainHash .CAL_V1 b)
  names : NamesAgentNonce (.obj m) agent n

theorem exists_soundCal {sub : Submission} {ch agent : Str} (hsound : sub.Sound)
    (hnames : sub.Names H ch agent) :
    ∃ m b n, sub.cal = .obj m ∧ SoundCal H m ch agent b n := by
  obtain ⟨h, hhash, rfl⟩ := hnames.hash
  have hagent := hnames.agent
  have hdistinct := hsound.distinct
  obtain ⟨cal, hvalid⟩ := hsound.valid
  simp only [calHash, bind_eq_ok, pure_eq_ok] at hhash
  obtain ⟨b, hb, rfl⟩ := hhash
  have hobj : ∃ m, sub.cal = .obj m := by
    have hb' := hb
    simp only [canonicalUnsignedBytes, bind_eq_ok, require_eq_ok] at hb'
    obtain ⟨-, hplain, -⟩ := hb'
    cases hcal : sub.cal with
    | obj m => exact ⟨m, rfl⟩
    | builtin k =>
      -- the object that all others come from lacks the fields of a CAL
      rw [hcal] at hvalid
      obtain ⟨m, hm⟩ := (validateCal_spec hvalid).plain
      simp only [validateCal, parsedInput, bind_eq_ok, pure_eq_ok] at hvalid
      obtain ⟨v, rfl, o, ho, hrest⟩ := hvalid
      obtain ⟨-, -, -, -, -, -, -, -, -, -, -, -, -, -, -, -, -, -, -, -, -, -, -, -, -, -, -, -, rfl⟩ :=
        hrest
      rw [hm] at ho
      cases (asObject_eq_ok ho).1
    | _ => rw [hcal] at hplain; cases hplain
  obtain ⟨m, hm⟩ := hobj
  rw [hm] at hvalid hb hdistinct hagent
  have hspec := validateCal_spec hvalid
  have hcal := validateCal_obj hvalid
  rw [hcal] at hvalid hspec
  obtain ⟨n, hn, -⟩ := hspec.nonce
  refine ⟨m, b, n, hm, hvalid, hdistinct, hb, rfl, ?_, hn⟩
  unfold strField at hagent
  split at hagent
  · next a ha =>
    cases hagent
    rw [getIn_singleton rfl, ha]
  · cases hagent

/-- A `cal.validated` event is of a submission, with the agent and the nonce that its CAL names. -/
def OfSubmission (H : Host) (P : Submission → Prop) (ev : Event) : Prop :=
  ev.read (js "event_type") = some (.str EventType.validated.name) →
    ∃ sub ch agent n, P sub ∧ sub.Names H ch agent ∧ NamesAgentNonce sub.cal agent n ∧
      ev.read (js "cal_hash") = some (.str ch) ∧ validatedNonce agent ev = some n

/-- What the steps of a run of sound submissions meet. -/
structure Numbered (H : Host) (P : Submission → Prop) (s : State) (ev : Event) : Prop where
  stages : Stages (AvoidsNamespaces [js "cal"]) ev
  serial : Serial s ev
  source : OfSubmission H P ev

section Soundness

variable {P : Submission → Prop} {s t : State} {sub : Submission} {ch agent : Str} {tick : ℤ}
  {evs : List Event}

theorem numbered_of_type {ev : Event} {type : EventType} (h : IsEvent ev type ch)
    (hne : type ≠ .validated) (hstages : Stages (AvoidsNamespaces [js "cal"]) ev) :
    Numbered H P s ev := by
  have hread : ev.read (js "event_type") ≠ some (.str EventType.validated.name) := by
    intro hr
    have := h.type.symm.trans hr
    rw [Option.some.injEq, Json.str.injEq] at this
    have hof := congrArg EventType.ofStr? this
    rw [EventType.ofStr?_name, EventType.ofStr?_name, Option.some.injEq] at hof
    exact hne hof
  exact ⟨hstages, fun hr => absurd hr hread, fun hr => absurd hr hread⟩

/-- Events of other types. -/
theorem run_numbered (types : List EventType) (hrun : AcceptsAll s evs t)
    (htypes : EventsOf ch evs types) (hne : ∀ type ∈ types, type ≠ .validated)
    (hstages : ∀ ev ∈ evs, Stages (AvoidsNamespaces [js "cal"]) ev) :
    Run (Numbered H P) s evs t := by
  refine hrun.of_forall ?_
  clear hrun
  induction htypes with
  | nil => simp
  | cons hev _ ih =>
    obtain ⟨hne₁, hne⟩ := List.forall_mem_cons.mp hne
    obtain ⟨hst₁, hst⟩ := List.forall_mem_cons.mp hstages
    exact List.forall_mem_cons.mpr ⟨fun _ => numbered_of_type hev hne₁ hst₁, ih hne hst⟩

theorem phaseBTypes_ne : ∀ types ∈ phaseBTypes, ∀ type ∈ types, type ≠ .validated := by decide

/-- The events of phase B. -/
theorem run_phaseB (hsound : sub.Sound) {s₀ : State} {r : ValidationResult} {evsA l : List Event}
    (h : Validator.PhaseBEnd (sub.validator ch tick s₀) evsA r) (hr : r.events = evsA ++ l)
    (hrun : AcceptsAll s l t) : Run (Numbered H P) s l t := by
  obtain ⟨l₁, types, h₁, htypes, hof⟩ := Validator.phaseB_types h
  obtain ⟨l₂, h₂, hstages⟩ := Validator.phaseB_stages (v := sub.validator ch tick s₀) hsound.spares h
  obtain rfl := List.append_cancel_left (hr.symm.trans h₁)
  obtain rfl := List.append_cancel_left (hr.symm.trans h₂)
  exact run_numbered types hrun hof (phaseBTypes_ne types htypes) hstages

/-- The ingress. -/
theorem run_ingress (hrun : AcceptsAll s (ingressEvents ch agent) t) :
    Run (Numbered H P) s (ingressEvents ch agent) t :=
  run_numbered [.created, .signed] hrun
    (.cons (isEvent_created ch agent) (.cons (isEvent_signed ch) .nil)) (by decide)
    (List.forall_mem_cons.mpr
      ⟨stages_created _ ch agent, List.forall_mem_singleton.mpr (stages_signed _ ch)⟩)

/-- The events of phase A: a validated CAL has passed the nonce gate on the state of the ingress. -/
theorem run_phaseA (hP : P sub) (hsound : sub.Sound) (hnames : sub.Names H ch agent)
    {m : List (Str × Json)} (hentry : EntryAt s ch agent "SIGNED" m) {a : Validator.PhaseA}
    (h : Validator.PhaseAEnd (sub.validator ch tick s) a) (hrun : AcceptsAll s a.events t) :
    Run (Numbered H P) s a.events t := by
  have hstages := Validator.phaseA_stages (D := AvoidsNamespaces [js "cal"]) h
  obtain ⟨ev, type, heq, hev, htype⟩ := Validator.phaseA_types h
  rw [heq] at hrun hstages ⊢
  rw [List.forall_mem_singleton] at hstages
  obtain ⟨u, -, hacc, hnil⟩ := run_cons hrun
  cases run_nil hnil
  refine .cons ?_ hacc (.nil _)
  rcases htype with rfl | rfl | ⟨rfl, rfl, gates⟩
  · exact numbered_of_type hev (by decide) hstages
  · exact numbered_of_type hev (by decide) hstages
  · obtain ⟨m', b, n, hcal, hsc⟩ := exists_soundCal hsound hnames
    have hagent : (sub.validator ch tick s).agent = agent := by
      rw [Validator.agent, show (sub.validator ch tick s).cal = .obj m' from hcal, hsc.names.agent]
      rfl
    have hnonce : (sub.validator ch tick s).nonce = n := by
      rw [Validator.nonce, show (sub.validator ch tick s).cal = .obj m' from hcal, hsc.names.nonce]
      rfl
    have hnext : n = nonceOf s agent + 1 := by
      have := gates.nonce
      rw [hnonce, hagent] at this
      exact this
    have hreadAgent : (sub.validator ch tick s).validatedEvent.read (js "agent_id") =
        some (.str agent) := by
      rw [← hagent]
      simp [Validator.validatedEvent, Validator.event, Json.read, OrderedMap.get]
    have hreadNonce : (sub.validator ch tick s).validatedEvent.read (js "nonce") =
        some (.int n) := by
      rw [← hnonce]
      simp [Validator.validatedEvent, Validator.event, Json.read, OrderedMap.get]
    refine ⟨hstages, fun _ => ⟨ch, agent, m, hev.hash, hreadAgent, hnext ▸ hreadNonce, hentry.entry,
      hentry.agent⟩, fun _ => ⟨sub, ch, agent, n, hP, hnames, hcal ▸ hsc.names, hev.hash, ?_⟩⟩
    rw [validatedNonce, hev.type, hreadAgent, hreadNonce]
    simp [isStr]

/-- The events that a sound submission adds. -/
theorem run_adds (hP : P sub) (hsound : sub.Sound) (hnames : sub.Names H ch agent)
    (hadds : sub.Adds ch agent tick s evs) (hrun : AcceptsAll s evs t) :
    Run (Numbered H P) s evs t := by
  cases hadds with
  | rejected code hmode h =>
    cases hrun
    exact .nil _
  | unsigned hmode =>
    exact run_numbered [.created] hrun (.cons (isEvent_created ch agent) .nil) (by decide)
      (List.forall_mem_singleton.mpr (stages_created _ ch agent))
  | phaseA hmode hs h =>
    obtain ⟨u, hin, hrest⟩ := hrun.of_append
    obtain rfl := hin.unique hs
    obtain ⟨m, hentry⟩ := entryAt_of_ingress hin
    exact (run_ingress hin).append (run_phaseA hP hsound hnames hentry h hrest)
  | @phaseB u evsA r hmode hs ha hb =>
    obtain ⟨l, types, hr, -, -⟩ := Validator.phaseB_types hb
    rw [hr, ← List.append_assoc] at hrun ⊢
    obtain ⟨w, hpre, hrest⟩ := hrun.of_append
    obtain ⟨u', hin, hphaseA⟩ := hpre.of_append
    obtain rfl := hin.unique hs
    obtain ⟨m, hentry⟩ := entryAt_of_ingress hin
    have hrunA := run_phaseA hP hsound hnames hentry ha hphaseA
    exact ((run_ingress hin).append hrunA).append (run_phaseB hsound hb hr hrest)
  | resumed hmode h => exact run_phaseB hsound h (List.nil_append _).symm hrun

end Soundness

/-- A run of the node on sound submissions. -/
theorem NodeRun.numbered {P : Submission → Prop} (hP : ∀ sub, P sub → sub.Sound) {s₀ s : State}
    {log : List Event} (h : NodeRun H (fun _ _ sub => P sub) s₀ log s) :
    Run (Numbered H P) s₀ log s := by
  induction h with
  | start => exact .nil _
  | @advanced log s t tick _ hacc ih =>
    have htype : (advancedEvent tick).read (js "event_type") = some (.str EventType.tick_advanced.name) := by
      simp [advancedEvent, Json.read, OrderedMap.get, EventType.name]
    have hne : (advancedEvent tick).read (js "event_type") ≠ some (.str EventType.validated.name) := by
      rw [htype]
      simp [EventType.name]
    exact ih.append (.cons ⟨stages_advanced _ tick, fun hr => absurd hr hne, fun hr => absurd hr hne⟩
      hacc (.nil _))
  | submitted _ hsub hnames hadds hacc ih =>
    exact ih.append (run_adds hsub (hP _ hsub) hnames hadds hacc)

/-! ## Replay protection -/

/-- The submissions of a program. -/
def Submits (blocks : List TickBlock) (sub : Submission) : Prop := ∃ b ∈ blocks, sub ∈ b.submissions

/-- The CALs of a program that have the same hash have the same canonical bytes. -/
def HashInjective (H : Host) (blocks : List TickBlock) : Prop :=
  ∀ sub sub', Submits blocks sub → Submits blocks sub' →
    ∀ b b', canonicalUnsignedBytes H sub.cal = .ok b → canonicalUnsignedBytes H sub'.cal = .ok b' →
      domainHash .CAL_V1 b = domainHash .CAL_V1 b' → b = b'

/-- A log is protected from replays: every validation has an agent and a nonce, the nonces of an agent
increase, and a nonce is validated once and a CAL finalized once. -/
structure ReplayProtected (log : List Event) : Prop where
  numbered : ∀ ev ∈ log, ev.read (js "event_type") = some (.str EventType.validated.name) →
    ∃ agent n, validatedNonce agent ev = some n
  increasing : ∀ agent, (validatedNonces agent log).Pairwise (· < ·)
  validated_once : ∀ agent n, log.countP (fun ev => validatedNonce agent ev = some n) ≤ 1
  finalized_once : ∀ ch, log.countP (isOf .finalized ch) ≤ 1

theorem toHex_inj {b b' : List UInt8} (h : toHex b = toHex b') : b = b' := by
  have := (fromHex_toHex b).symm.trans (h ▸ fromHex_toHex b')
  rwa [Except.ok.injEq] at this

/-- Two validations of one CAL carry the same agent and the same nonce. -/
theorem agent_nonce_of_hash {blocks : List TickBlock} (hH : H.FixesAscii)
    (hinj : HashInjective H blocks)
    (hsound : ∀ sub, Submits blocks sub → sub.Sound) {sub sub' : Submission} {ch agent agent' : Str}
    {n n' : ℤ} (hsub : Submits blocks sub) (hsub' : Submits blocks sub')
    (hnames : sub.Names H ch agent) (hnames' : sub'.Names H ch agent')
    (hn : NamesAgentNonce sub.cal agent n) (hn' : NamesAgentNonce sub'.cal agent' n') :
    agent = agent' ∧ n = n' := by
  obtain ⟨m, b, k, hcal, hc⟩ := exists_soundCal (hsound _ hsub) hnames
  obtain ⟨m', b', k', hcal', hc'⟩ := exists_soundCal (hsound _ hsub') hnames'
  have hhash : domainHash .CAL_V1 b = domainHash .CAL_V1 b' :=
    toHex_inj (List.append_cancel_left (hc.hash.symm.trans hc'.hash))
  have hbytes : b = b' :=
    hinj sub sub' hsub hsub' b b' (hcal ▸ hc.bytes) (hcal' ▸ hc'.bytes) hhash
  rw [hcal] at hn
  rw [hcal'] at hn'
  exact agent_nonce_of_bytes hH hc.valid hc'.valid hc.distinct hc'.distinct hc.bytes
    (hbytes ▸ hc'.bytes) hn hn'

/-- A nonce of an agent is in the log once. -/
theorem countP_validatedNonce_le {log : List Event} {agent : Str}
    (h : (validatedNonces agent log).Pairwise (· < ·)) (n : ℤ) :
    log.countP (fun ev => validatedNonce agent ev = some n) ≤ 1 := by
  have hnodup : (validatedNonces agent log).Nodup := h.imp fun hlt => hlt.ne
  have hcount := List.nodup_iff_count_le_one.mp hnodup n
  rw [validatedNonces, List.count_filterMap] at hcount
  simpa only [beq_eq_decide] using hcount

/-- A CAL is validated once, if its validations all carry the same nonce. -/
theorem countP_validated_le {log : List Event} {ch : Str}
    (hinc : ∀ agent, (validatedNonces agent log).Pairwise (· < ·))
    (hsame : ∀ ev ∈ log, ∀ ev' ∈ log, isOf .validated ch ev = true → isOf .validated ch ev' = true →
      ∃ agent n, validatedNonce agent ev = some n ∧ validatedNonce agent ev' = some n) :
    log.countP (isOf .validated ch) ≤ 1 := by
  by_cases hex : ∃ ev ∈ log, isOf .validated ch ev = true
  · obtain ⟨ev, hmem, hev⟩ := hex
    obtain ⟨agent, n, hn, -⟩ := hsame ev hmem ev hmem hev hev
    refine le_trans (List.countP_mono_left fun ev' hmem' hev' => ?_)
      (countP_validatedNonce_le (hinc agent) n)
    obtain ⟨agent', n', hn', hn''⟩ := hsame ev hmem ev' hmem' hev hev'
    -- an event has one agent
    have hagent := (validatedNonce_eq_some hn).2.1.symm.trans (validatedNonce_eq_some hn').2.1
    rw [Option.some.injEq, Json.str.injEq] at hagent
    subst hagent
    rw [hn, Option.some.injEq] at hn'
    rw [decide_eq_true_eq, hn'', hn']
  · have hzero : log.countP (isOf .validated ch) = 0 :=
      List.countP_eq_zero.mpr fun ev hmem hev => hex ⟨ev, hmem, hev⟩
    omega

theorem replay_protection {incr : IncrementalState} {blocks : List TickBlock} {folded : Folded}
    (h₀ : flights incr.state = []) (hsound : ∀ sub, Submits blocks sub → sub.Sound)
    (hH : H.FixesAscii) (hinj : HashInjective H blocks)
    (h : foldBlocks H incr blocks = .ok folded) : ReplayProtected folded.eventLog := by
  have hmeet : BlocksMeet H (fun _ _ sub => Submits blocks sub) [] incr blocks :=
    blocksMeet_of_forall fun b hb sub hsub => ⟨b, hb, hsub⟩
  have hrun := (foldBlocks_run hmeet h).numbered hsound
  have hinc : ∀ agent, (validatedNonces agent folded.eventLog).Pairwise (· < ·) :=
    validatedNonces_increasing (fun d hd => hd) h₀
      (hrun.mono fun _ _ hn => ⟨hn.stages, hn.serial⟩)
  have hsource := hrun.forall_mem fun _ _ hn => hn.source
  refine ⟨fun ev hev htype => ?_, hinc, fun agent n => countP_validatedNonce_le (hinc agent) n,
    fun ch => ?_⟩
  · obtain ⟨sub, ch, agent, n, -, -, -, -, hn⟩ := hsource ev hev htype
    exact ⟨agent, n, hn⟩
  · have hstages := hrun.mono fun _ _ hn => hn.stages
    refine (count_finalized_le (fun d hd => hd) h₀ hstages ch).trans
      (countP_validated_le hinc fun ev hev ev' hev' hof hof' => ?_)
    rw [isOf_iff] at hof hof'
    obtain ⟨sub, c, agent, n, hsub, hnames, hn, hc, hval⟩ := hsource ev hev hof.type
    obtain ⟨sub', c', agent', n', hsub', hnames', hn', hc', hval'⟩ := hsource ev' hev' hof'.type
    have hch := hof.hash.symm.trans hc
    have hch' := hof'.hash.symm.trans hc'
    rw [Option.some.injEq, Json.str.injEq] at hch hch'
    subst hch
    subst hch'
    obtain ⟨rfl, rfl⟩ := agent_nonce_of_hash hH hinj hsound hsub hsub' hnames hnames' hn hn'
    exact ⟨agent, n, hval, hval'⟩

/-! ## A program with a replay -/

/-- A state with one agent, which may submit feeds. -/
def feedState : State :=
  let record := .obj [(js "operator_pubkey", .str (js "0x01")),
    (js "granted_scopes", .arr ((requiredScopes (js "oracles.submit_feed")).map .str))]
  setBalance (setIn (some genesis) [js "registry", js "agents", Escape.agent] record) Escape.agent
    1000000000

/-- A submission of the CAL with the nonce 1, whose one step succeeds. -/
def submitFeed (mode : SubmissionMode) : Submission where
  cal := Escape.calOf (js "oracles.submit_feed") (js "oracles.submit_feed")
  trace := { Escape.traceOf [] [] with steps := [⟨true, [], none⟩] }
  mode := some mode

/-- The CAL is validated at one tick, resumed at the next, and submitted again. -/
def feedProgram : List TickBlock :=
  [⟨1, [submitFeed .validateOnly]⟩, ⟨2, [submitFeed .resume, submitFeed .atomic]⟩]

theorem submitFeed_sound (mode : SubmissionMode) : (submitFeed mode).Sound := by
  refine ⟨?_, ⟨_, validateCal_of_isOk ?_⟩, ?_⟩
  · change (List.map Prod.fst (submitFeed .atomic).cal.members).Nodup
    decide +kernel
  · decide +kernel
  · intro d hd
    cases hd

theorem replay_protection_feed :
    ∃ folded, foldBlocks Escape.host (initIncremental feedState) feedProgram = .ok folded ∧
      ReplayProtected folded.eventLog := by
  obtain ⟨folded, h⟩ := exists_of_isOk
    (x := foldBlocks Escape.host (initIncremental feedState) feedProgram) (by decide +kernel)
  have hsub : ∀ sub, Submits feedProgram sub → ∃ mode, sub = submitFeed mode := by
    rintro sub ⟨b, hb, hsub⟩
    simp only [feedProgram, List.mem_cons, List.not_mem_nil, or_false] at hb
    rcases hb with rfl | rfl
    · exact ⟨_, List.mem_singleton.mp hsub⟩
    · simp only [List.mem_cons, List.not_mem_nil, or_false] at hsub
      rcases hsub with rfl | rfl
      · exact ⟨_, rfl⟩
      · exact ⟨_, rfl⟩
  refine ⟨folded, h, replay_protection (by decide +kernel) (fun sub hs => ?_) (fun s _ => rfl)
    (fun sub sub' hs hs' b b' hb hb' _ => ?_) h⟩
  · obtain ⟨mode, rfl⟩ := hsub sub hs
    exact submitFeed_sound mode
  · -- all submissions are of the same CAL
    obtain ⟨mode, rfl⟩ := hsub sub hs
    obtain ⟨mode', rfl⟩ := hsub sub' hs'
    exact Except.ok.inj (hb.symm.trans hb')

end ParadigmTerra
