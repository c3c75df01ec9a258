import ParadigmTerra.Node.Replay

/-!
# Repeated events

The event log should not have two events of the same type for the same CAL. The reducer refuses a second
`cal.created` while the CAL is in flight, but a terminal event takes the CAL out of flight, and then
nothing remembers it. `resubmission_repeats` submits a CAL again after it has expired: it is created, is
signed and expires once more, and its agent loses a nonce.

`log_nodup` is about the runs in which this does not happen. Each submission is `Fresh`: its CAL is not in
the log yet, or the reducer refuses to create it; a resumption finds no event after VALIDATED. Then no event
is logged twice, and a CAL with a terminal event changes nothing when it is submitted again.
-/

namespace ParadigmTerra

open Text OrderedMap Fallible

variable {H : Host}

/-- The CAL and the type of an event of a lifecycle. -/
def eventKey (ev : Event) : Option (Str × Str) :=
  match ev.read (js "cal_hash"), ev.read (js "event_type") with
  | some (.str ch), some (.str type) => some (ch, type)
  | _, _ => none

/-- No two events of the log are of the same CAL and of the same type. -/
def NoRepeats (log : List Event) : Prop := (log.filterMap eventKey).Nodup

instance (log : List Event) : Decidable (NoRepeats log) := by
  unfold NoRepeats; infer_instance

/-- The types after VALIDATED. -/
def lateTypes : List EventType := [.executed, .settled, .finalized, .failed, .expired]

/-- The types of the events of a lifecycle. -/
def lifecycleTypes : List EventType := [.created, .signed, .validated] ++ lateTypes

/-- The types of the terminal events. -/
def terminalTypes : List EventType := [.finalized, .failed, .expired]

/-- An event of the CAL, of one of the types, is in the log. -/
def Logged (types : List EventType) (ch : Str) (log : List Event) : Prop :=
  ∃ ev ∈ log, ∃ type ∈ types, IsEvent ev type ch

theorem Logged.mono {types types' : List EventType} (hsub : types ⊆ types') {ch : Str}
    {log : List Event} (h : Logged types ch log) : Logged types' ch log := by
  obtain ⟨ev, hev, type, htype, his⟩ := h
  exact ⟨ev, hev, type, hsub htype, his⟩

/-- A submission that repeats no event. A resumption finds no event of its CAL after VALIDATED. Any other
submission is of a CAL that is not in the log, or of one that the reducer does not create: it is in flight,
or its agent has another CAL in flight. -/
def Fresh (H : Host) (log : List Event) (s : State) (sub : Submission) : Prop :=
  ∀ ch agent, sub.Names H ch agent →
    (sub.mode = some .resume → ¬Logged lateTypes ch log) ∧
    (sub.mode ≠ some .resume → ¬Logged lifecycleTypes ch log ∨ (inFlight s ch).isSome = true ∨
      agentBusy s agent = true)

instance (ev : Event) (type : EventType) (ch : Str) : Decidable (IsEvent ev type ch) :=
  decidable_of_iff (isOf type ch ev = true) isOf_iff

instance (types : List EventType) (ch : Str) (log : List Event) :
    Decidable (Logged types ch log) := by
  unfold Logged; infer_instance

/-- A submission names one hash and one agent. -/
theorem Submission.Names.unique {sub : Submission} {ch ch' agent agent' : Str}
    (h : sub.Names H ch agent) (h' : sub.Names H ch' agent') : ch = ch' ∧ agent = agent' := by
  obtain ⟨b, hb, rfl⟩ := h.hash
  obtain ⟨b', hb', rfl⟩ := h'.hash
  cases hb.symm.trans hb'
  exact ⟨rfl, Except.ok.inj (h.agent.symm.trans h'.agent)⟩

instance (log : List Event) (s : State) (sub : Submission) : Decidable (Fresh H log s sub) :=
  have : Decidable (∀ b, calHash H sub.cal = .ok b → ∀ agent, strField sub.cal "agent_id" = .ok agent →
      (sub.mode = some .resume → ¬Logged lateTypes (hex b) log) ∧
      (sub.mode ≠ some .resume → ¬Logged lifecycleTypes (hex b) log ∨
        (inFlight s (hex b)).isSome = true ∨ agentBusy s agent = true)) :=
    decideOk _ fun _ => decideOk _ fun _ => inferInstance
  decidable_of_iff _
    ⟨fun h ch agent hnames => by
      obtain ⟨b, hb, rfl⟩ := hnames.hash
      exact h b hb agent hnames.agent,
    fun h b hb agent hagent => h (hex b) agent ⟨⟨b, hb, rfl⟩, hagent⟩⟩

/-- The submission of a CAL with a terminal event in the log leaves the state as it is. -/
def LeavesState (H : Host) (log : List Event) (s : State) (sub : Submission) : Prop :=
  ∀ ch agent, sub.Names H ch agent → Logged terminalTypes ch log →
    ∀ tick f q, f.state = s → applySubmission H tick f sub = .ok q → q.1.state = s

/-! ## The keys of the events that a submission adds -/

theorem IsEvent.eventKey {ev : Event} {type : EventType} {ch : Str} (h : IsEvent ev type ch) :
    eventKey ev = some (ch, type.name) := by
  rw [ParadigmTerra.eventKey, h.hash, h.type]

theorem eventKey_eq_some {ev : Event} {ch type : Str} (h : eventKey ev = some (ch, type)) :
    ev.read (js "cal_hash") = some (.str ch) ∧ ev.read (js "event_type") = some (.str type) := by
  unfold eventKey at h
  split at h
  · next hch htype =>
    cases h
    exact ⟨hch, htype⟩
  · cases h

theorem eventTypeName_inj {type type' : EventType} (h : type.name = type'.name) : type = type' := by
  have := congrArg EventType.ofStr? h
  rwa [EventType.ofStr?_name, EventType.ofStr?_name, Option.some.injEq] at this

theorem filterMap_eventKey {ch : Str} {evs : List Event} {types : List EventType}
    (h : EventsOf ch evs types) : evs.filterMap eventKey = types.map fun type => (ch, type.name) := by
  induction h with
  | nil => rfl
  | cons hev _ ih => rw [List.filterMap_cons, hev.eventKey, List.map_cons, ih]

/-- Events of distinct types that are not in the log. -/
theorem noRepeats_append {log evs : List Event} {ch : Str} {types : List EventType}
    (hlog : NoRepeats log) (hevs : EventsOf ch evs types) (hnodup : types.Nodup)
    (hnew : ¬Logged types ch log) : NoRepeats (log ++ evs) := by
  unfold NoRepeats
  rw [List.filterMap_append, filterMap_eventKey hevs]
  refine List.nodup_append.mpr ⟨hlog, ?_, ?_⟩
  · refine List.Nodup.map ?_ hnodup
    intro type type' h
    exact eventTypeName_inj (Prod.mk.inj h).2
  · rintro key hkey key' hkey' rfl
    obtain ⟨ev, hev, heq⟩ := List.mem_filterMap.mp hkey
    obtain ⟨type, htype, rfl⟩ := List.mem_map.mp hkey'
    obtain ⟨hch, hty⟩ := eventKey_eq_some heq
    exact hnew ⟨ev, hev, type, htype, hty, hch⟩

theorem phaseBTypes_late : ∀ types ∈ phaseBTypes, types ⊆ lateTypes ∧ types.Nodup := by decide

theorem ingressTypes_lifecycle : ∀ types ∈ ingressTypes, types ⊆ lifecycleTypes ∧ types.Nodup := by
  decide

/-! ## One submission -/

/-- A CAL that the reducer does not create adds nothing. -/
theorem eq_nil_of_refused {sub : Submission} {ch agent : Str} {tick : ℤ} {s t : State}
    {evs : List Event} (hmode : sub.mode ≠ some .resume)
    (hrefused : (inFlight s ch).isSome = true ∨ agentBusy s agent = true)
    (hadds : sub.Adds ch agent tick s evs) (hacc : AcceptsAll s evs t) : evs = [] := by
  -- the reducer would have to accept `cal.created`
  have hcreated : ∀ l, evs ≠ createdEvent ch agent :: l := by
    rintro l rfl
    obtain ⟨u, -, hu, -⟩ := run_cons hacc
    rw [accepts_iff, (isEvent_created ch agent).applyEvent] at hu
    have hread : (createdEvent ch agent).read (js "agent_id") = some (.str agent) := by
      simp [createdEvent, Json.read, OrderedMap.get]
    simp only [EventType.step, calCreated, (isEvent_created ch agent).reqStr, reqStr_of_read hread,
      ok_bind, bind_eq_ok, require_eq_ok] at hu
    obtain ⟨-, hnone, -, hbusy, -⟩ := hu
    rcases hrefused with h | h
    · rw [Option.isNone_iff_eq_none.mp hnone] at h
      cases h
    · rw [hbusy] at h
      cases h
  cases hadds with
  | rejected code hmode h => rfl
  | unsigned hmode => exact absurd rfl (hcreated [])
  | phaseA hmode hs h => exact absurd rfl (hcreated _)
  | phaseB hmode hs ha hb => exact absurd rfl (hcreated _)
  | resumed hmode' h => exact absurd hmode' hmode

/-- A fresh submission repeats no event. -/
theorem noRepeats_submission {sub : Submission} {ch agent : Str} {tick : ℤ} {s t : State}
    {log evs : List Event} (hfresh : Fresh H log s sub) (hnames : sub.Names H ch agent)
    (hadds : sub.Adds ch agent tick s evs) (hacc : AcceptsAll s evs t) (hlog : NoRepeats log) :
    NoRepeats (log ++ evs) := by
  obtain ⟨hresume, hother⟩ := hfresh ch agent hnames
  obtain ⟨types, hevs, ⟨hmode, htypes⟩ | ⟨hmode, htypes⟩⟩ := hadds.types
  · obtain ⟨hsub, hnodup⟩ := phaseBTypes_late types htypes
    exact noRepeats_append hlog hevs hnodup fun h => hresume hmode (h.mono hsub)
  · obtain ⟨hsub, hnodup⟩ := ingressTypes_lifecycle types htypes
    rcases hother hmode with hnew | hrefused
    · exact noRepeats_append hlog hevs hnodup fun h => hnew (h.mono hsub)
    · rw [eq_nil_of_refused hmode hrefused hadds hacc, List.append_nil]
      exact hlog

/-- A fresh submission of a CAL that has ended leaves the state as it is. -/
theorem leavesState_of_fresh {log : List Event} {s : State} {sub : Submission}
    (hfresh : Fresh H log s sub) : LeavesState H log s sub := by
  rintro ch agent hnames hended tick f q rfl h
  obtain ⟨hresume, hother⟩ := hfresh ch agent hnames
  obtain ⟨ch', agent', evs, hnames', hadds, hext⟩ := applySubmission_adds h
  obtain ⟨rfl, rfl⟩ := hnames.unique hnames'
  by_cases hmode : sub.mode = some .resume
  · exact absurd (hended.mono (by decide)) (hresume hmode)
  · rcases hother hmode with hnew | hrefused
    · exact absurd (hended.mono (by decide)) hnew
    · have hnil := eq_nil_of_refused hmode hrefused hadds hext.run
      have hrun := hext.run
      rw [hnil] at hrun
      exact (run_nil hrun).symm

/-! ## Runs -/

theorem eventKey_advanced (tick : ℤ) : eventKey (advancedEvent tick) = none := by
  simp [eventKey, advancedEvent, Json.read, OrderedMap.get, inherited, inheritedNames]

theorem NodeRun.noRepeats {s₀ s : State} {log : List Event} (h : NodeRun H (Fresh H) s₀ log s) :
    NoRepeats log := by
  induction h with
  | start => exact List.nodup_nil
  | advanced _ _ ih =>
    unfold NoRepeats at ih ⊢
    rwa [List.filterMap_append, List.filterMap_cons, eventKey_advanced, List.filterMap_nil,
      List.append_nil]
  | submitted _ hfresh hnames hadds hacc ih =>
    exact noRepeats_submission hfresh hnames hadds hacc ih

/-- What a fold of fresh submissions logs and leaves. -/
structure LoggedOnce (H : Host) (incr : IncrementalState) (blocks : List TickBlock)
    (folded : Folded) : Prop where
  events : NoRepeats folded.eventLog
  ended : BlocksMeet H (LeavesState H) [] incr blocks

/-- A CAL that has expired when it is submitted. -/
def lateBlock : TickBlock := ⟨101, [submitFeed .atomic]⟩

/-- The block once, and then again. -/
def lateTwice : Except Throw (Folded × TickStep) := do
  let once ← foldBlocks Escape.host (initIncremental genesis) [lateBlock]
  let again ← applyTick Escape.host once.incr lateBlock
  pure (once, again)

theorem lateTwice_spec :
    ∃ once twice, foldBlocks Escape.host (initIncremental genesis) [lateBlock] = .ok once ∧
      foldBlocks Escape.host (initIncremental genesis) [lateBlock, lateBlock] = .ok twice ∧
      ¬NoRepeats twice.eventLog ∧ nonceOf once.incr.state Escape.agent = 1 ∧
      nonceOf twice.incr.state Escape.agent = 2 := by
  obtain ⟨⟨once, again⟩, h, htest⟩ := exists_of_any (x := lateTwice)
    (p := fun r => ¬NoRepeats (r.1.eventLog ++ r.2.events) ∧
      nonceOf r.1.incr.state Escape.agent = 1 ∧ nonceOf r.2.next.state Escape.agent = 2)
    (by decide +kernel)
  simp only [lateTwice, bind_eq_ok, pure_eq_ok, Prod.mk.injEq] at h
  obtain ⟨once', honce, again', hagain, rfl, rfl⟩ := h
  obtain ⟨hrepeats, hone, htwo⟩ := of_decide_eq_true htest
  -- the fold of two blocks goes on from the fold of the first
  obtain ⟨acc, hacc, hnil⟩ := foldlM_cons_ok.mp honce
  cases foldlM_nil_ok.mp hnil
  refine ⟨once', ⟨again'.next, once'.tickResults ++ [again'.tickResult],
    once'.eventLog ++ again'.events⟩, honce, ?_, hrepeats, hone, htwo⟩
  refine foldlM_cons_ok.mpr ⟨once', hacc, foldlM_cons_ok.mpr ⟨_, ?_, foldlM_nil_ok.mpr rfl⟩⟩
  simp only [hagain, ok_bind]
  rfl

/-- The first submission of a program is fresh. -/
theorem fresh_advance {current tick : ℤ} {f g : Fold} (hf : f.events = [])
    (h : advanceTick H current f tick = .ok g) {sub : Submission} (hmode : sub.mode ≠ some .resume) :
    Fresh H ([] ++ g.events) g.state sub := by
  refine fun ch agent _ => ⟨fun hm => absurd hm hmode, fun _ => .inl ?_⟩
  have hevents : ∀ ev ∈ g.events, ev = advancedEvent tick := by
    unfold advanceTick at h
    split at h
    · simp only [bind_eq_ok] at h
      obtain ⟨r, hr, h⟩ := h
      cases r with
      | error code => cases h
      | ok k =>
        cases h
        rw [(fold_extends hr).events, hf]
        simp
    · cases h
      simp [hf]
  rintro ⟨ev, hev, type, -, his⟩
  have hhash := his.hash
  rw [hevents ev hev] at hhash
  simp [advancedEvent, Json.read, OrderedMap.get, inherited, inheritedNames] at hhash

end ParadigmTerra
