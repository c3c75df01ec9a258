import ParadigmTerra.Lib.Tasks
import ParadigmTerra.Reducer.Lifecycle

/-!
# One CAL at a time

The reducer keeps a board of tasks: the CALs are the tasks, the agents own them, and the nonce of an agent
counts its finished ones. `Shows` relates a state to a board, and `accepts_shows` is the refinement: an
accepted event does to the board what its type says (`actOf`), by the rules of `Tasks.Board.Step`. The
events are all those that the reducer knows; only deltas that write `cal` are excluded (`SparesCal`).

`lifecycle_invariant` reads the invariant of the board back into the state.
-/

namespace ParadigmTerra

open Text OrderedMap Fallible Tasks

/-- The stages of a CAL in flight, in order. -/
inductive Stage
  | CREATED | SIGNED | VALIDATED | EXECUTED | SETTLED
  deriving DecidableEq, Repr

def Stage.text : Stage → String
  | CREATED => "CREATED"
  | SIGNED => "SIGNED"
  | VALIDATED => "VALIDATED"
  | EXECUTED => "EXECUTED"
  | SETTLED => "SETTLED"

/-- The place of a stage in the order. -/
def Stage.rank : Stage → ℕ
  | CREATED => 0
  | SIGNED => 1
  | VALIDATED => 2
  | EXECUTED => 3
  | SETTLED => 4

theorem Stage.rank_inj {st st' : Stage} (h : st.rank = st'.rank) : st = st' := by
  cases st <;> cases st' <;> first | rfl | cases h

theorem Stage.text_inj {st st' : Stage} (h : js st.text = js st'.text) : st = st' := by
  rw [js_inj] at h
  cases st <;> cases st' <;> first | rfl | simp [text] at h

/-- What an event does to the tasks. -/
def actOf (ev : Event) : Act Str Str :=
  match ev.read (js "event_type"), ev.read (js "cal_hash") with
  | some (.str type), some (.str ch) =>
    match EventType.ofStr? type with
    | some .created =>
      match ev.read (js "agent_id") with
      | some (.str agent) => .start ch agent
      | _ => .other
    | some .signed => .advance ch Stage.SIGNED.rank
    | some .validated => .advance ch Stage.VALIDATED.rank
    | some .executed => .advance ch Stage.EXECUTED.rank
    | some .settled => .advance ch Stage.SETTLED.rank
    | some .finalized | some .failed | some .expired => .finish ch
    | _ => .other
  | _, _ => .other

/-- The deltas that the event commits do not write `cal`. -/
def SparesCal (s : State) (ev : Event) : Prop := ∀ d ∈ committed s ev, AvoidsNamespaces [js "cal"] d

instance (s : State) (ev : Event) : Decidable (SparesCal s ev) := by
  unfold SparesCal; infer_instance

/-- The entry of a CAL of the agent, at a stage. There is no escrow before VALIDATED, and nothing staged
before EXECUTED. -/
structure Entry (m : List (Str × Json)) (agent : Str) (st : Stage) : Prop where
  agent : get (js "agent_id") m = some (.str agent)
  stage : get (js "stage") m = some (.str (js st.text))
  escrow : st.rank < Stage.VALIDATED.rank → get (js "escrowed_ptra") m = some (.int 0)
  staged : st.rank < Stage.EXECUTED.rank → get (js "staged") m = some (.arr [])

/-- What stands under a CAL is the entry of its task. -/
def Matches (o : Option Json) : Option (Str × ℕ) → Prop
  | none => o = none
  | some (agent, n) => ∃ m st, o = some (.obj m) ∧ Stage.rank st = n ∧ Entry m agent st

/-- The deltas staged in an entry all satisfy `D`. -/
def StagedIn (D : Json → Prop) (m : List (Str × Json)) : Prop :=
  ∃ ds, get (js "staged") m = some (.arr ds) ∧ ∀ d ∈ ds, D d

/-- The deltas that the event stages all satisfy `D`. -/
def Stages (D : Json → Prop) (ev : Event) : Prop :=
  ∀ ds, ev.read (js "effects") = some (.arr ds) → ∀ d ∈ ds, D d

/-- The state shows the board, with nonces that start at `base` and staged deltas that satisfy `D`. -/
structure Shows (D : Json → Prop) (base : Str → ℤ) (s : State) (b : Board Str Str) : Prop where
  entry : ∀ ch, Matches (get ch (flights s)) (b.task ch)
  staged : ∀ ch m, get ch (flights s) = some (.obj m) → StagedIn D m
  nonce : ∀ a, nonceOf s a = base a + b.ended a

/-- A state with nothing in flight shows the empty board. -/
theorem shows_empty {D : Json → Prop} {s : State} (h : flights s = []) :
    Shows D (nonceOf s) s Board.empty where
  entry _ := by rw [h]; rfl
  staged _ _ hm := by rw [h] at hm; cases hm
  nonce _ := by simp [Board.empty]

section Steps

variable {D : Json → Prop} {base : Str → ℤ} {s t : State} {b : Board Str Str} {ev : Event}
  {ch agent : Str} {h : Json}

/-! ## What a step finds -/

/-- An own entry in flight is the entry of a task. -/
theorem Shows.task_of_get (hs : Shows D base s b) {m : List (Str × Json)}
    (hm : get ch (flights s) = some (.obj m)) :
    ∃ a st, b.task ch = some (a, Stage.rank st) ∧ Entry m a st := by
  have he := hs.entry ch
  rw [hm] at he
  cases hb : b.task ch with
  | none =>
    rw [hb] at he
    cases he
  | some x =>
    obtain ⟨a, n⟩ := x
    rw [hb] at he
    obtain ⟨m', st, heq, rfl, hentry⟩ := he
    cases heq
    exact ⟨a, st, rfl, hentry⟩

/-- A step that requires a stage finds the entry of a task at that stage. -/
theorem Shows.at_stage (hs : Shows D base s b) (st : Stage) {u : Unit}
    (hf : requireFlight s ch = .ok h) (hst : requireStage h st.text = .ok u) :
    ∃ m a, h = .obj m ∧ get ch (flights s) = some (.obj m) ∧ b.task ch = some (a, st.rank) ∧
      Entry m a st := by
  obtain ⟨m, rfl, hm, hstage⟩ := flight_at_stage hf hst
  obtain ⟨a, st', hb, he⟩ := hs.task_of_get hm
  have heq := he.stage.symm.trans hstage
  rw [Option.some.injEq, Json.str.injEq] at heq
  obtain rfl := Stage.text_inj heq
  exact ⟨m, a, rfl, hm, hb, he⟩

theorem Entry.agentKey {m : List (Str × Json)} {st : Stage} (he : Entry m agent st) :
    agentKey (.obj m) = .ok agent := by
  rw [ParadigmTerra.agentKey, read_obj_js not_inherited_agent_id, he.agent]
  rfl

/-- The entry that settles an escrow is the entry of a task. -/
theorem Shows.of_flight (hs : Shows D base s b) {m : List (Str × Json)}
    (hf : requireFlight s ch = .ok (.obj m)) :
    ∃ a st, b.task ch = some (a, Stage.rank st) ∧ Entry m a st := by
  rcases inFlight_cases (requireFlight_eq_ok.mp hf) with ⟨m', heq, hm⟩ | ⟨k, heq⟩
  · cases heq
    exact hs.task_of_get hm
  · cases heq

/-! ## What a step writes -/

/-- A step that writes neither entries nor nonces. -/
theorem Shows.of_frame (hs : Shows D base s b) (hf : flights t = flights s)
    (hn : ∀ a, nonceOf t a = nonceOf s a) : Shows D base t b :=
  ⟨fun c => hf ▸ hs.entry c, fun c m hm => hs.staged c m (hf ▸ hm),
    fun a => (hn a).trans (hs.nonce a)⟩

/-- A step that sets the entry of a CAL. -/
theorem Shows.place (hs : Shows D base s b) (st : Stage) {m : List (Str × Json)}
    (hf : ∀ c, get c (flights t) = if ch = c then some (.obj m) else get c (flights s))
    (he : Entry m agent st) (hd : StagedIn D m) (hn : ∀ a, nonceOf t a = nonceOf s a) :
    Shows D base t (b.place ch (some (agent, st.rank))) := by
  refine ⟨fun c => ?_, fun c m' hm => ?_, fun a => (hn a).trans (hs.nonce a)⟩
  · rw [hf, task_place]
    by_cases hc : ch = c
    · rw [if_pos hc, if_pos hc.symm]
      exact ⟨m, st, rfl, rfl, he⟩
    · rw [if_neg hc, if_neg (Ne.symm hc)]
      exact hs.entry c
  · rw [hf] at hm
    split at hm
    · cases hm
      exact hd
    · exact hs.staged c m' hm

/-- The end of a task. -/
theorem Shows.close (hs : Shows D base s b) {m : List (Str × Json)} {st : Stage}
    (he : Entry m agent st) (hc : closeFlight s (.obj m) ch = .ok t) :
    Shows D base t ((b.place ch none).count agent) := by
  obtain ⟨a, ha, rfl⟩ := closeFlight_eq_ok hc
  rw [he.agentKey] at ha
  cases ha
  have hmoves := moves_close s agent ch
  have hf : ∀ c, get c (flights (deleteIn (some (bumpNonce s agent)) (flightPath ch))) =
      if ch = c then none else get c (flights s) := by
    intro c
    rw [flights_deleteIn, flights_bumpNonce, get_erase]
  refine ⟨fun c => ?_, fun c m' hm => ?_, fun a => ?_⟩
  · rw [hf, task_count, task_place]
    by_cases hch : ch = c
    · rw [if_pos hch, if_pos hch.symm]
      rfl
    · rw [if_neg hch, if_neg (Ne.symm hch)]
      exact hs.entry c
  · rw [hf] at hm
    split at hm
    · cases hm
    · exact hs.staged c m' hm
  · rw [hmoves.nonce, ended_count, ended_place]
    by_cases hag : agent = a
    · subst hag
      simp only [if_true, hs.nonce agent]
      push_cast
      omega
    · rw [if_neg hag, if_neg (Ne.symm hag), hs.nonce a]

theorem nonceOf_setBalance (s : State) (a c : Str) (n : ℤ) :
    nonceOf (setBalance s a n) c = nonceOf s c := nonceOf_setIn_of_apart (by simp) s _

theorem nonceOf_addFees (s : State) (c : Str) (n : ℤ) : nonceOf (addFees s n) c = nonceOf s c :=
  nonceOf_setIn_of_apart (by simp) s _

theorem nonceOf_flight (s : State) (c : Str) (p : List Str) (x : Json) :
    nonceOf (setIn (some s) (js "cal" :: js "in_flight" :: p) x) c = nonceOf s c :=
  nonceOf_setIn_of_apart (by simp) s _

theorem nonceOf_settleEscrow {refund : ℤ} (hs : settleEscrow s h refund = .ok t) (c : Str) :
    nonceOf t c = nonceOf s c := by
  obtain ⟨e, m, -, -, -, ⟨-, a, -, rfl⟩ | ⟨-, rfl⟩⟩ := settleEscrow_eq_ok hs
  · rw [nonceOf_addFees, nonceOf_setBalance]
  · rw [nonceOf_addFees]

theorem nonceOf_foldlM {ds : List Json} (hds : ∀ d ∈ ds, AvoidsNamespaces [js "cal"] d)
    (hs : ds.foldlM applyDeltaJson s = .ok t) (c : Str) : nonceOf t c = nonceOf s c := by
  refine foldlM_invariant (P := fun u => nonceOf u c = nonceOf s c) (fun u d v hd hu huv => ?_) rfl hs
  rw [nonceOf_eq, ownIn_applyDeltaJson huv ((hds d hd).ne (by simp)), ← nonceOf_eq, hu]

/-- A field of the entry set. -/
theorem get_setField {m : List (Str × Json)} (hm : get ch (flights s) = some (.obj m)) (f : String)
    (x : Json) (c : Str) : get c (flights (setIn (some s) (fieldPath ch f) x)) =
      if ch = c then some (.obj (putMember (js f) x m)) else get c (flights s) := by
  rw [flights_setIn_fieldPath hm, get_put]

/-- A field other than the staged deltas. -/
theorem StagedIn.put {m : List (Str × Json)} (h : StagedIn D m) {f : Str} (hf : f ≠ js "staged")
    (x : Json) : StagedIn D (putMember f x m) := by
  obtain ⟨ds, hds, hD⟩ := h
  exact ⟨ds, by rw [get_put_of_ne hf, hds], hD⟩

/-- The next stage of an entry. -/
theorem Entry.setStage {m : List (Str × Json)} {st : Stage} (he : Entry m agent st) (st' : Stage)
    (hrank : st'.rank < Stage.VALIDATED.rank → st.rank < Stage.VALIDATED.rank)
    (hrank' : st'.rank < Stage.EXECUTED.rank → st.rank < Stage.EXECUTED.rank) :
    Entry (putMember (js "stage") (.str (js st'.text)) m) agent st' where
  agent := by rw [get_put_of_ne (by simp), he.agent]
  stage := get_put_self
  escrow h := by rw [get_put_of_ne (by simp), he.escrow (hrank h)]
  staged h := by rw [get_put_of_ne (by simp), he.staged (hrank' h)]

/-! ## The refinement -/

theorem created_shows (hs : Shows D base s b) (h : calCreated s ev = .ok t)
    (htype : ev.read (js "event_type") = some (.str EventType.created.name)) :
    ∃ b', b.Step (actOf ev) b' ∧ Shows D base t b' := by
  simp only [calCreated, bind_eq_ok, pure_eq_ok, require_eq_ok] at h
  obtain ⟨ch, hch, agent, hagent, -, hnone, -, hbusy, rfl⟩ := h
  have hact : actOf ev = .start ch agent := by
    simp only [actOf, htype, reqStr_eq_ok hch, EventType.ofStr?_name, reqStr_eq_ok hagent]
  have hentry : Entry [(js "agent_id", .str agent), (js "stage", .str (js "CREATED")),
      (js "escrowed_ptra", .int 0), (js "gas_consumed_ptra", .int 0), (js "staged", .arr [])]
      agent .CREATED := by
    constructor <;> simp [OrderedMap.get, Stage.text]
  rw [hact]
  refine ⟨_, .start ?_ ?_, hs.place .CREATED (fun c => ?_) hentry
    ⟨[], by simp [OrderedMap.get], by simp⟩ fun a => ?_⟩
  · cases hb : b.task ch with
    | none => rfl
    | some x =>
      have he := hs.entry ch
      rw [hb] at he
      obtain ⟨m, st, hm, -⟩ := he
      rw [inFlight_of_get hm] at hnone
      cases hnone
  · -- an entry of the agent would have been found
    intro j n hj
    have he := hs.entry j
    rw [hj] at he
    obtain ⟨m, st, hm, -, he⟩ := he
    have hbusy' : agentBusy s agent = true := by
      unfold flights tableIn at hm
      cases ho : ownIn s [js "cal", js "in_flight"] with
      | none => simp [ho] at hm
      | some w =>
        simp only [ho] at hm
        rw [agentBusy, getIn_of_ownIn ho]
        simp only [isPlainObject_of_get hm, Bool.true_and, List.any_eq_true]
        refine ⟨_, mem_of_get hm, ?_⟩
        simp [belongsTo, Json.isPlainObject, isStr_iff, read_obj_js not_inherited_agent_id, he.agent]
    rw [hbusy'] at hbusy
    cases hbusy
  · rw [flights_setIn_flightPath, get_put]
    rfl
  · exact nonceOf_flight s a [ch] _

theorem signed_shows (hs : Shows D base s b) (h : calSigned s ev = .ok t)
    (htype : ev.read (js "event_type") = some (.str EventType.signed.name)) :
    ∃ b', b.Step (actOf ev) b' ∧ Shows D base t b' := by
  simp only [calSigned, bind_eq_ok, pure_eq_ok] at h
  obtain ⟨ch, hch, e, hf, _, hst, rfl⟩ := h
  obtain ⟨m, a, rfl, hm, hb, he⟩ := hs.at_stage .CREATED hf hst
  have hact : actOf ev = .advance ch Stage.SIGNED.rank := by
    simp only [actOf, htype, reqStr_eq_ok hch, EventType.ofStr?_name]
  rw [hact]
  exact ⟨_, .advance hb, hs.place .SIGNED (get_setField hm "stage" _)
    (he.setStage .SIGNED (by decide) (by decide)) ((hs.staged ch m hm).put (by simp) _)
    fun a => nonceOf_flight s a _ _⟩

theorem settled_shows (hs : Shows D base s b) (h : calSettled s ev = .ok t)
    (htype : ev.read (js "event_type") = some (.str EventType.settled.name)) :
    ∃ b', b.Step (actOf ev) b' ∧ Shows D base t b' := by
  simp only [calSettled, bind_eq_ok, pure_eq_ok] at h
  obtain ⟨ch, hch, e, hf, _, hst, rfl⟩ := h
  obtain ⟨m, a, rfl, hm, hb, he⟩ := hs.at_stage .EXECUTED hf hst
  have hact : actOf ev = .advance ch Stage.SETTLED.rank := by
    simp only [actOf, htype, reqStr_eq_ok hch, EventType.ofStr?_name]
  rw [hact]
  exact ⟨_, .advance hb, hs.place .SETTLED (get_setField hm "stage" _)
    (he.setStage .SETTLED (by decide) (by decide)) ((hs.staged ch m hm).put (by simp) _)
    fun a => nonceOf_flight s a _ _⟩

theorem validated_shows (hs : Shows D base s b) (h : calValidated s ev = .ok t)
    (htype : ev.read (js "event_type") = some (.str EventType.validated.name)) :
    ∃ b', b.Step (actOf ev) b' ∧ Shows D base t b' := by
  simp only [calValidated, bind_eq_ok, pure_eq_ok] at h
  obtain ⟨ch, hch, e, hf, _, hst, escrow, -, agent, -, -, -, rfl⟩ := h
  obtain ⟨m, a, rfl, hm, hb, he⟩ := hs.at_stage .SIGNED hf hst
  have hact : actOf ev = .advance ch Stage.VALIDATED.rank := by
    simp only [actOf, htype, reqStr_eq_ok hch, EventType.ofStr?_name]
  have hm1 : get ch (flights (setBalance s agent (bal s agent - escrow))) = some (.obj m) := by
    rw [flights_setBalance, hm]
  have hm2 := get_setField hm1 "escrowed_ptra" (.int escrow)
  have hm2' := hm2 ch
  rw [if_pos rfl] at hm2'
  have hentry : Entry (putMember (js "stage") (.str (js "VALIDATED"))
      (putMember (js "escrowed_ptra") (.int escrow) m)) a .VALIDATED := by
    refine ⟨?_, get_put_self, fun h => absurd h (by decide), fun _ => ?_⟩
    · rw [get_put_of_ne (by simp), get_put_of_ne (by simp), he.agent]
    · rw [get_put_of_ne (by simp), get_put_of_ne (by simp), he.staged (by decide)]
  rw [hact]
  refine ⟨_, .advance hb, hs.place .VALIDATED (fun c => ?_) hentry
    (((hs.staged ch m hm).put (by simp) _).put (by simp) _) fun c => ?_⟩
  · rw [get_setField hm2' "stage", hm2, flights_setBalance]
    split <;> rfl
  · rw [nonceOf_flight, nonceOf_flight, nonceOf_setBalance]

theorem executed_shows (hs : Shows D base s b) (hD : Stages D ev) (h : calExecuted s ev = .ok t)
    (htype : ev.read (js "event_type") = some (.str EventType.executed.name)) :
    ∃ b', b.Step (actOf ev) b' ∧ Shows D base t b' := by
  simp only [calExecuted, bind_eq_ok] at h
  obtain ⟨ch, hch, e, hf, _, hst, h⟩ := h
  obtain ⟨m, a, rfl, hm, hb, he⟩ := hs.at_stage .VALIDATED hf hst
  have hact : actOf ev = .advance ch Stage.EXECUTED.rank := by
    simp only [actOf, htype, reqStr_eq_ok hch, EventType.ofStr?_name]
  split at h
  · next effects heff =>
    simp only [bind_eq_ok, pure_eq_ok] at h
    obtain ⟨gas, -, rfl⟩ := h
    have hm1 := get_setField hm "staged" (.arr effects)
    have hm1' := hm1 ch
    rw [if_pos rfl] at hm1'
    have hm2 := get_setField hm1' "gas_consumed_ptra" (.int gas)
    have hm2' := hm2 ch
    rw [if_pos rfl] at hm2'
    have hentry : Entry (putMember (js "stage") (.str (js "EXECUTED"))
        (putMember (js "gas_consumed_ptra") (.int gas) (putMember (js "staged") (.arr effects) m)))
        a .EXECUTED := by
      refine ⟨?_, get_put_self, fun h => absurd h (by decide), fun h => absurd h (by decide)⟩
      rw [get_put_of_ne (by simp), get_put_of_ne (by simp), get_put_of_ne (by simp), he.agent]
    rw [hact]
    have hstaged : StagedIn D (putMember (js "staged") (.arr effects) m) :=
      ⟨effects, get_put_self, hD effects heff⟩
    refine ⟨_, .advance hb, hs.place .EXECUTED (fun c => ?_) hentry
      ((hstaged.put (by simp) _).put (by simp) _) fun c => ?_⟩
    · rw [get_setField hm2' "stage", hm2, hm1]
      split <;> rfl
    · rw [nonceOf_flight, nonceOf_flight, nonceOf_flight]
  · cases h

theorem finalized_shows (hs : Shows D base s b) (h : calFinalized s ev = .ok t)
    (htype : ev.read (js "event_type") = some (.str EventType.finalized.name))
    (hspares : SparesCal s ev) : ∃ b', b.Step (actOf ev) b' ∧ Shows D base t b' := by
  simp only [calFinalized, bind_eq_ok] at h
  obtain ⟨ch, hch, e, hf, _, hst, refund, -, staged, hstaged, u, hu, v, hv, hc⟩ := h
  obtain ⟨m, a, rfl, hm, hb, he⟩ := hs.at_stage .SETTLED hf hst
  have hact : actOf ev = .finish ch := by
    simp only [actOf, htype, reqStr_eq_ok hch, EventType.ofStr?_name]
  rw [SparesCal, committed_of_finalized htype hch hf hstaged] at hspares
  have hframe : Shows D base v b := hs.of_frame
    (by rw [flights_settleEscrow hv, flights_foldlM hspares hu])
    (fun c => by rw [nonceOf_settleEscrow hv, nonceOf_foldlM hspares hu])
  rw [hact]
  exact ⟨_, .finish hb, hframe.close he hc⟩

/-- The settlement of a failure finds an own entry, and writes neither entries nor nonces. -/
theorem settleFailed_frame {ev : Event} (hf : requireFlight s ch = .ok h)
    (hs : settleFailed s h ev = .ok t) :
    (∃ m, h = .obj m) ∧ flights t = flights s ∧ ∀ c, nonceOf t c = nonceOf s c := by
  unfold settleFailed at hs
  split at hs
  · next hstage =>
    simp only [chargeNow, bind_eq_ok, pure_eq_ok] at hs
    obtain ⟨charge, -, a, -, -, -, rfl⟩ := hs
    refine ⟨?_, ?_, fun c => ?_⟩
    · simp only [Bool.or_eq_true] at hstage
      rcases hstage with hst | hst
      · obtain ⟨m, hm, -⟩ := flight_at_stage (u := ()) hf (requireStage_eq_ok.mpr hst)
        exact ⟨m, hm⟩
      · obtain ⟨m, hm, -⟩ := flight_at_stage (u := ()) hf (requireStage_eq_ok.mpr hst)
        exact ⟨m, hm⟩
    · split <;> simp
    · rw [nonceOf_addFees]
      split
      · exact nonceOf_setBalance _ _ _ _
      · rfl
  · rw [bind_eq_ok] at hs
    obtain ⟨refund, -, hs⟩ := hs
    obtain ⟨e, m, rfl, -⟩ := settleEscrow_eq_ok hs
    exact ⟨⟨m, rfl⟩, flights_settleEscrow hs, nonceOf_settleEscrow hs⟩

theorem failed_shows (hs : Shows D base s b) {type : EventType} (hdrops : type.Drops)
    (h : calFailed s ev = .ok t) (htype : ev.read (js "event_type") = some (.str type.name)) :
    ∃ b', b.Step (actOf ev) b' ∧ Shows D base t b' := by
  simp only [calFailed, bind_eq_ok] at h
  obtain ⟨ch, hch, e, hf, u, hu, hc⟩ := h
  obtain ⟨⟨m, rfl⟩, hflights, hnonces⟩ := settleFailed_frame hf hu
  obtain ⟨a, st, hb, he⟩ := hs.of_flight hf
  have hact : actOf ev = .finish ch := by
    rcases hdrops with rfl | rfl <;>
      simp only [actOf, htype, reqStr_eq_ok hch, EventType.ofStr?_name]
  rw [hact]
  exact ⟨_, .finish hb, (hs.of_frame hflights hnonces).close he hc⟩

/-- The events of other types leave the tasks as they are. -/
theorem other_shows (hs : Shows D base s b) {type : EventType} (h : type.step s ev = .ok t)
    (htype : ev.read (js "event_type") = some (.str type.name))
    (hother : type = .transferred ∨ type = .shadow_init ∨ type = .feed_submitted ∨
      type = .tick_advanced) : ∃ b', b.Step (actOf ev) b' ∧ Shows D base t b' := by
  have hact : actOf ev = .other := by
    unfold actOf
    split
    · next ty ch hty hch =>
      rw [htype] at hty
      cases hty
      rcases hother with rfl | rfl | rfl | rfl <;> simp only [EventType.ofStr?_name]
    · rfl
  rw [hact]
  refine ⟨b, .other, ?_⟩
  rcases hother with rfl | rfl | rfl | rfl
  · simp only [EventType.step, ptraTransferred, bind_eq_ok, pure_eq_ok] at h
    obtain ⟨sender, -, recipient, -, amount, -, -, -, rfl⟩ := h
    exact hs.of_frame (by simp) fun c => by rw [nonceOf_setBalance, nonceOf_setBalance]
  · simp only [EventType.step, ptraShadowInit, bind_eq_ok] at h
    obtain ⟨addr, -, h⟩ := h
    split at h
    · exact pure_eq_ok.mp h ▸ hs
    · rw [← pure_eq_ok.mp h]
      exact hs.of_frame (by simp) fun c => nonceOf_setBalance _ _ _ _
  · simp only [EventType.step, oracleFeedSubmitted, bind_eq_ok, pure_eq_ok] at h
    obtain ⟨symbol, -, rfl⟩ := h
    refine hs.of_frame ?_ fun c => nonceOf_setIn_of_apart (by simp) s _
    rw [flights, tableIn_setIn_of_apart (by simp), ← flights]
  · simp only [EventType.step, tickAdvanced, bind_eq_ok] at h
    obtain ⟨next, -, h⟩ := h
    split at h
    · simp only [bind_eq_ok, pure_eq_ok] at h
      obtain ⟨-, -, rfl⟩ := h
      refine hs.of_frame ?_ fun c => ?_
      · rw [recomputeBounded, flights, tableIn_setIn_of_apart (by simp),
          tableIn_setIn_of_apart (by simp), ← flights]
      · rw [recomputeBounded, nonceOf_setIn_of_apart (by simp), nonceOf_setIn_of_apart (by simp)]
    · simp only [bind_eq_ok, throw_eq_ok, and_false, exists_false] at h

/-- An accepted event does to the board what its type says, by the rules of the board. -/
theorem accepts_shows (hs : Shows D base s b) (hD : Stages D ev) (hspares : SparesCal s ev)
    (h : Accepts s ev t) : ∃ b', b.Step (actOf ev) b' ∧ Shows D base t b' := by
  obtain ⟨type, htype, h⟩ := accepts_step h
  cases type with
  | created => exact created_shows hs h htype
  | signed => exact signed_shows hs h htype
  | validated => exact validated_shows hs h htype
  | executed => exact executed_shows hs hD h htype
  | settled => exact settled_shows hs h htype
  | finalized => exact finalized_shows hs h htype hspares
  | failed => exact failed_shows hs (.inl rfl) h htype
  | expired => exact failed_shows hs (.inr rfl) h htype
  | transferred => exact other_shows hs h htype (.inl rfl)
  | shadow_init => exact other_shows hs h htype (.inr (.inl rfl))
  | feed_submitted => exact other_shows hs h htype (.inr (.inr (.inl rfl)))
  | tick_advanced => exact other_shows hs h htype (.inr (.inr (.inr rfl)))

/-- An event commits what is staged. -/
theorem Shows.spares (hs : Shows D base s b) (hD : ∀ d, D d → AvoidsNamespaces [js "cal"] d)
    (ev : Event) : SparesCal s ev := by
  intro d hd
  unfold committed at hd
  split at hd
  · next type ch _ _ =>
    split at hd
    · cases hf : inFlight s ch with
      | none => simp [hf] at hd
      | some h =>
        simp only [hf] at hd
        rcases inFlight_cases hf with ⟨m, rfl, hm⟩ | ⟨k, rfl⟩
        · obtain ⟨ds, hds, hall⟩ := hs.staged ch m hm
          simp only [read_obj_js not_inherited_staged, hds, iterate] at hd
          exact hD d (hall d hd)
        · have hnone : (Json.builtin k).read (js "staged") = none := by
            simp [Json.read, inherited, inheritedNames]
          rw [hnone] at hd
          cases hd
    · cases hd
  · cases hd

end Steps

/-! ## The invariant over runs -/

/-- A run goes on with the board that it shows. -/
theorem run_shows_from {D : Json → Prop} {base : Str → ℤ} {s t : State} {b : Board Str Str} {acts : List (Act Str Str)}
    {evs : List Event} (hb : Board.empty.Run acts b) (hs : Shows D base s b)
    (h : Run (fun s ev => Stages D ev ∧ SparesCal s ev) s evs t) :
    ∃ b', Board.empty.Run (acts ++ evs.map actOf) b' ∧ Shows D base t b' := by
  induction h generalizing acts b with
  | nil => exact ⟨b, by simpa using hb, hs⟩
  | cons hC hacc _ ih =>
    obtain ⟨b₁, hstep, hs₁⟩ := accepts_shows hs hC.1 hC.2 hacc
    obtain ⟨b', hb', hs'⟩ := ih (hb.snoc hstep) hs₁
    exact ⟨b', by simpa using hb', hs'⟩

theorem run_shows {s₀ s : State} {log : List Event} (h₀ : flights s₀ = [])
    (h : Run SparesCal s₀ log s) :
    ∃ b, Board.empty.Run (log.map actOf) b ∧ Shows (fun _ => True) (nonceOf s₀) s b := by
  have h' : Run (fun s ev => Stages (fun _ => True) ev ∧ SparesCal s ev) s₀ log s :=
    h.mono fun _ _ hspares => ⟨fun _ _ _ _ => trivial, hspares⟩
  obtain ⟨b, hb, hs⟩ := run_shows_from .nil (shows_empty h₀) h'
  exact ⟨b, by simpa using hb, hs⟩

/-- The lifecycle invariant of a state, after a log of events from a first state: an agent has one CAL in
flight; every entry is at the stage that the events of its CAL since its creation lead to, one stage after
another; and the nonces count the terminal events. -/
structure LifecycleInvariant (s₀ : State) (log : List Event) (s : State) : Prop where
  exclusive : ∀ ch ch' h h' agent, get ch (flights s) = some h → get ch' (flights s) = some h' →
    belongsTo agent h = true → belongsTo agent h' = true → ch = ch'
  entries : ∀ ch h, get ch (flights s) = some h → ∃ m agent st, h = .obj m ∧ Entry m agent st ∧
    stages ch (log.map actOf) = List.range (st.rank + 1)
  nonces : ∀ agent, nonceOf s agent = nonceOf s₀ agent + ends agent (log.map actOf)

theorem lifecycle_invariant {s₀ s : State} {log : List Event} (h₀ : flights s₀ = [])
    (hrun : Run SparesCal s₀ log s) : LifecycleInvariant s₀ log s := by
  obtain ⟨b, hb, hs⟩ := run_shows h₀ hrun
  have htold := hb.told
  -- what stands in flight is the entry of a task
  have hentry : ∀ ch h, get ch (flights s) = some h → ∃ m agent st, h = .obj m ∧
      b.task ch = some (agent, Stage.rank st) ∧ Entry m agent st := by
    intro ch h hget
    have he := hs.entry ch
    rw [hget] at he
    cases hbt : b.task ch with
    | none =>
      rw [hbt] at he
      cases he
    | some x =>
      obtain ⟨agent, n⟩ := x
      rw [hbt] at he
      obtain ⟨m, st, heq, rfl, hm⟩ := he
      cases heq
      exact ⟨m, agent, st, rfl, rfl, hm⟩
  have howner : ∀ {m agent st a}, Entry m a st → belongsTo agent (.obj m) = true → a = agent := by
    intro m agent st a he hbel
    simp only [belongsTo, Json.isPlainObject, Bool.true_and, isStr_iff,
      read_obj_js not_inherited_agent_id, he.agent, Option.some.injEq, Json.str.injEq] at hbel
    exact hbel
  refine ⟨?_, ?_, ?_⟩
  · intro ch ch' h h' agent hget hget' hbel hbel'
    obtain ⟨m, a, st, rfl, ht, he⟩ := hentry ch h hget
    obtain ⟨m', a', st', rfl, ht', he'⟩ := hentry ch' h' hget'
    obtain rfl := howner he hbel
    obtain rfl := howner he' hbel'
    exact htold.exclusive ch ch' _ _ _ ht ht'
  · intro ch h hget
    obtain ⟨m, a, st, rfl, ht, he⟩ := hentry ch h hget
    refine ⟨m, a, st, rfl, he, ?_⟩
    rw [htold.stages ch, ht]
  · intro agent
    rw [hs.nonce agent, htold.ended agent]

/-- A CAL that has been executed, with nothing staged to `cal`. -/
theorem lifecycle_invariant_executed :
    ∃ s, checkRun SparesCal genesis ((commitEvents []).take 4) = some s ∧
      LifecycleInvariant genesis ((commitEvents []).take 4) s := by
  cases h : checkRun SparesCal genesis ((commitEvents []).take 4) with
  | none =>
    have hsome : (checkRun SparesCal genesis ((commitEvents []).take 4)).isSome = true := by
      decide +kernel
    rw [h] at hsome
    cases hsome
  | some s => exact ⟨s, rfl, lifecycle_invariant rfl (checkRun_run h)⟩

end ParadigmTerra
