import ParadigmTerra.Reducer.Ledger

/-!
# What escapes the reducer

`apply` turns typed errors into rejections and throws everything else on. An event is handled
when `apply` returns. The escapes are the conversions and the arithmetic on fields of stored entries:
a key or a message made of a value that has no string, a loop over what is no list, and a subtraction
from what is no integer.

`EventType.Handles` states for each event type what it asks of the entry that the event names, and
`apply_returns_iff` proves that this is exactly what `apply` needs to return.
-/

namespace ParadigmTerra

open Text OrderedMap Fallible

/-! ## Values that have a string -/

mutual

/-- No part of the value that a conversion to a string reaches has a `toString` of its own that is no
function. -/
def Json.hasString : Json → Bool
  | .arr xs => haveStrings xs
  | .obj m =>
    match get (js "toString") m with
    | none | some (.builtin _) => true
    | some _ => false
  | _ => true

/-- The same of the elements of an array. -/
def haveStrings : List Json → Bool
  | [] => true
  | x :: xs => x.hasString && haveStrings xs

end

/-- What a conversion to a string does: it returns, or throws the language's own error. -/
def Converts (b : Bool) (x : Except Throw Str) : Prop :=
  b = true ∧ (∃ s, x = .ok s) ∨ b = false ∧ x = .error .typeError

theorem hasString_of_isNull {x : Json} (h : x.isNull = true) : x.hasString = true := by
  cases x <;> first | rfl | cases h

mutual

theorem stringOf_converts (v : Json) : Converts v.hasString (stringOf v) := by
  cases v with
  | null => exact .inl ⟨rfl, _, rfl⟩
  | bool b => cases b <;> exact .inl ⟨rfl, _, rfl⟩
  | int n => exact .inl ⟨rfl, _, rfl⟩
  | str s => exact .inl ⟨rfl, _, rfl⟩
  | arr xs => exact joined_converts xs
  | obj m =>
    unfold stringOf Json.hasString
    rcases hm : OrderedMap.get (js "toString") m with _ | w
    · exact .inl ⟨rfl, _, rfl⟩
    · cases w with
      | builtin k => exact .inl ⟨rfl, _, rfl⟩
      | _ => exact .inr ⟨rfl, rfl⟩
  | builtin k =>
    unfold stringOf Json.hasString
    split_ifs <;> exact .inl ⟨rfl, _, rfl⟩

theorem joined_converts (xs : List Json) : Converts (haveStrings xs) (joined xs) := by
  match xs with
  | [] => exact .inl ⟨rfl, _, rfl⟩
  | [x] =>
    rw [haveStrings, haveStrings, Bool.and_true, joined]
    split_ifs with hx
    · exact .inl ⟨hasString_of_isNull hx, _, rfl⟩
    · exact stringOf_converts x
  | x :: y :: xs =>
    have htail : ∀ s, Converts (haveStrings (y :: xs))
        (do let t ← joined (y :: xs); pure (s ++ js "," ++ t)) := by
      intro s
      rcases joined_converts (y :: xs) with ⟨hy, t, ht⟩ | ⟨hy, ht⟩
      · exact .inl ⟨hy, _, by rw [ht]; rfl⟩
      · exact .inr ⟨hy, by rw [ht]; rfl⟩
    rw [haveStrings, joined]
    split_ifs with hx
    · rw [hasString_of_isNull hx, Bool.true_and]
      exact htail []
    · rcases stringOf_converts x with ⟨hx, s, hs⟩ | ⟨hx, hs⟩
      · rw [hx, hs, Bool.true_and]
        exact htail s
      · exact .inr ⟨by rw [hx, Bool.false_and], by rw [hs]; rfl⟩

end

/-! ## Typed errors -/

/-- The error is a typed one. -/
def IsTyped (e : Throw) : Prop := ∃ code, e = .apply code

@[simp] theorem isTyped_apply {code : ApplyErrorCode} : IsTyped (.apply code) := ⟨code, rfl⟩

@[simp] theorem not_isTyped_typeError : ¬IsTyped .typeError := nofun

/-- The computation returns or throws a typed error. -/
abbrev Typed {α : Type} (x : Except Throw α) : Prop := ThrowsOnly IsTyped x

theorem apply_returns_iff_typed {s : State} {ev : Event} :
    (∃ r, apply s ev = .ok r) ↔ Typed (applyEvent s ev) := by
  unfold apply
  cases h : applyEvent s ev with
  | ok t => exact ⟨fun _ => throwsOnly_ok, fun _ => ⟨_, rfl⟩⟩
  | error e =>
    rw [Typed, throwsOnly_error]
    cases e with
    | apply code => exact ⟨fun _ => isTyped_apply, fun _ => ⟨_, rfl⟩⟩
    | _ =>
      constructor
      · rintro ⟨r, hr⟩
        cases hr
      · rintro ⟨code, hcode⟩
        cases hcode

/-- A field has a string when it is absent, or its value has one. -/
def HasString (v : Option Json) : Prop := ∀ w, v = some w → w.hasString = true

theorem typed_stringOf {v : Json} : Typed (stringOf v) ↔ v.hasString = true := by
  rcases stringOf_converts v with ⟨hv, s, hs⟩ | ⟨hv, hs⟩
  · simp [hv, hs]
  · simp [hv, hs]

theorem typed_stringOfOpt {v : Option Json} : Typed (stringOfOpt v) ↔ HasString v := by
  cases v with
  | none => exact ⟨fun _ => nofun, fun _ => throwsOnly_pure⟩
  | some v => simp [stringOfOpt, typed_stringOf, HasString]

/-! ## The fields of events -/

theorem typed_reqStr (ev : Event) (k : String) : Typed (reqStr ev k) := by
  unfold reqStr
  split
  · exact throwsOnly_pure
  · exact throwsOnly_throw.mpr isTyped_apply

theorem typed_reqUint (ev : Event) (k : String) : Typed (reqUint ev k) := by
  unfold reqUint
  split
  · split
    · exact throwsOnly_pure
    · exact throwsOnly_throw.mpr isTyped_apply
  · exact throwsOnly_throw.mpr isTyped_apply

theorem typed_optUint (ev : Event) (k : String) : Typed (optUint ev k) := by
  unfold optUint
  split
  · exact typed_reqUint ev k
  · exact throwsOnly_pure

theorem typed_requireFlight (s : State) (ch : Str) : Typed (requireFlight s ch) := by
  unfold requireFlight
  split
  · exact throwsOnly_pure
  · exact throwsOnly_throw.mpr isTyped_apply

/-! ## Deltas -/

theorem typed_asBigint (v : Option Json) : Typed (asBigint v) := by
  unfold asBigint
  split
  · exact throwsOnly_pure
  · exact throwsOnly_throw.mpr isTyped_apply

theorem typed_enforceOwnerRecord (s : State) (full : List Str) :
    Typed (enforceOwnerRecord s full) := by
  unfold enforceOwnerRecord
  split
  · split_ifs
    · split
      · split_ifs
        · exact throwsOnly_require.mpr fun _ => isTyped_apply
        · exact throwsOnly_pure
      · exact throwsOnly_pure
    · exact throwsOnly_pure
  · exact throwsOnly_pure

theorem typed_applyOp (s : State) (full : List Str) (op : DeltaOp) (v : Option Json) :
    Typed (applyOp s full op v) := by
  cases op <;> simp [applyOp, typed_enforceOwnerRecord, typed_asBigint]

/-- Deltas are checked before they are applied, so they only throw typed errors. -/
theorem typed_applyDeltaJson (s : State) (d : Json) : Typed (applyDeltaJson s d) := by
  have hstr : ∀ v, Typed (deltaStr v) := by
    intro v
    unfold deltaStr
    split
    · exact throwsOnly_pure
    · exact throwsOnly_throw.mpr isTyped_apply
  have hpath : ∀ v, Typed (deltaPath v) := by
    intro v
    unfold deltaPath
    split
    · split
      · exact throwsOnly_pure
      · exact throwsOnly_throw.mpr isTyped_apply
    · exact throwsOnly_throw.mpr isTyped_apply
  simp only [applyDeltaJson, throwsOnly_bind, throwsOnly_require, isTyped_apply, implies_true,
    hstr, hpath, true_and]
  intro _ _ ns _ op _ path _
  split
  · exact typed_applyOp s _ _ _
  · exact throwsOnly_throw.mpr isTyped_apply

/-! ## What each event asks of its entry -/

/-- The agent of an entry has a string. -/
def AgentHasString (h : Json) : Prop := HasString (h.read (js "agent_id"))

/-- The settlement of a refund ends in a state or in a rejection: an escrow that is no integer must
compare as less than the refund. -/
def SettlesOrRejects (h : Json) (refund : ℤ) : Prop :=
  (0 < refund → AgentHasString h) ∧
    match h.read (js "escrowed_ptra") with
    | some (.int escrowed) => refund ≤ escrowed → AgentHasString h
    | v => exceeds refund v = .ok true

/-- The entry that the event names satisfies `P` if it is at the stage; else its stage has a string. -/
def AtStage (s : State) (ev : Event) (stage : String) (P : Json → Prop) : Prop :=
  ∀ ch h, reqStr ev "cal_hash" = .ok ch → requireFlight s ch = .ok h →
    if isStr (h.read (js "stage")) (js stage) then P h else HasString (h.read (js "stage"))

/-- What an event of the type asks of the fields that it converts or computes with. -/
def EventType.Handles (s : State) (ev : Event) : EventType → Prop
  | created | transferred | shadow_init | feed_submitted => True
  | signed => AtStage s ev "CREATED" fun _ => True
  | validated => AtStage s ev "SIGNED" fun h =>
    ∀ escrow, reqUint ev "escrow_ptra" = .ok escrow → AgentHasString h
  | executed => AtStage s ev "VALIDATED" fun _ => True
  | settled => AtStage s ev "EXECUTED" fun _ => True
  | finalized => AtStage s ev "SETTLED" fun h =>
    ∀ refund, optUint ev "gas_refunded_ptra" = .ok refund →
      ∃ staged, iterate (h.read (js "staged")) = .ok staged ∧
        ∀ t, staged.foldlM applyDeltaJson s = .ok t → SettlesOrRejects h refund
  | failed | expired => ∀ ch h, reqStr ev "cal_hash" = .ok ch → requireFlight s ch = .ok h →
    if isStr (h.read (js "stage")) (js "CREATED") || isStr (h.read (js "stage")) (js "SIGNED") then
      ∀ charge, optUint ev "fee_debited_ptra" = .ok charge → AgentHasString h
    else ∀ refund, optUint ev "gas_refunded_ptra" = .ok refund → SettlesOrRejects h refund
  | tick_advanced =>
    ∀ next, reqUint ev "new_tick" = .ok next → HasString (getIn s [js "tick", js "current"])

/-- The event is of no known type, or its type's step has what it asks for. -/
def Handled (s : State) (ev : Event) : Prop :=
  ∀ t : EventType, ev.read (js "event_type") = some (.str t.name) → t.Handles s ev

/-! ## The conversions of the steps -/

theorem agentKey_returns_iff {h : Json} : (∃ a, agentKey h = .ok a) ↔ AgentHasString h := by
  unfold agentKey AgentHasString
  cases h.read (js "agent_id") with
  | none => exact ⟨fun _ => nofun, fun _ => ⟨_, rfl⟩⟩
  | some v =>
    rcases stringOf_converts v with ⟨hv, s, hs⟩ | ⟨hv, hs⟩
    · simp [stringOfOpt, HasString, hv, hs]
    · simp [stringOfOpt, HasString, hv, hs]

theorem typed_agentKey {h : Json} : Typed (agentKey h) ↔ AgentHasString h := typed_stringOfOpt

/-- The part that the steps of one stage share: the entry is read and its stage is checked. -/
theorem typed_atStage {s : State} {ev : Event} {stage : String} {P : Json → Prop}
    {f : Str → Json → Except Throw State} (hf : ∀ ch h, Typed (f ch h) ↔ P h) :
    Typed (do
      let ch ← reqStr ev "cal_hash"
      let h ← requireFlight s ch
      requireStage h stage
      f ch h) ↔ AtStage s ev stage P := by
  have hstage : ∀ ch h, Typed (do requireStage h stage; f ch h) ↔
      if isStr (h.read (js "stage")) (js stage) then P h else HasString (h.read (js "stage")) := by
    intro ch h
    unfold requireStage
    split_ifs with hs
    · exact hf ch h
    · simp only [Typed, throwsOnly_bind, throwsOnly_throw, isTyped_apply, implies_true, and_true,
        throw_eq_ok, false_imp_iff, and_false, exists_false, bind_eq_ok]
      exact typed_stringOfOpt
  simp only [AtStage, Typed, throwsOnly_bind, typed_reqStr, typed_requireFlight, true_and]
  constructor
  · intro h ch e hch he
    exact (hstage ch e).mp (throwsOnly_bind.mpr (h ch hch e he))
  · intro h ch hch e he
    exact throwsOnly_bind.mp ((hstage ch e).mpr (h ch e hch he))

/-- The refund has a key to go to. -/
theorem refundAgent_returns_iff {s : State} {h : Json} {refund : ℤ} :
    (∃ t, refundAgent s h refund = .ok t) ↔ (0 < refund → AgentHasString h) := by
  unfold refundAgent
  rw [← agentKey_returns_iff]
  split_ifs with hpos
  · simp only [bind_eq_ok, pure_eq_ok, hpos, true_imp_iff]
    constructor
    · rintro ⟨_, a, ha, -⟩
      exact ⟨a, ha⟩
    · rintro ⟨a, ha⟩
      exact ⟨_, a, ha, rfl⟩
  · exact ⟨fun _ h => (hpos h).elim, fun _ => ⟨s, rfl⟩⟩

theorem typed_refundAgent {s : State} {h : Json} {refund : ℤ} :
    Typed (refundAgent s h refund) ↔ (0 < refund → AgentHasString h) := by
  unfold refundAgent
  split_ifs with hpos
  · simp [hpos, typed_agentKey]
  · simp [hpos]

/-- A comparison with what is no integer returns, or throws the language's own error. -/
theorem typed_exceeds {refund : ℤ} {v : Option Json} :
    Typed (exceeds refund v) ↔ ∃ b, exceeds refund v = .ok b := by
  constructor
  · intro h
    cases hv : exceeds refund v with
    | ok b => exact ⟨b, rfl⟩
    | error e =>
      obtain ⟨code, rfl⟩ := h e hv
      unfold exceeds at hv
      split at hv
      · cases hv
      · cases hv
      · cases hv
      · cases hv
      rename_i w _ _ _
      rcases stringOf_converts w with ⟨-, s, hs⟩ | ⟨-, hs⟩
      · rw [hs, ok_bind] at hv
        split at hv <;> cases hv
      · rw [hs] at hv
        cases hv
  · rintro ⟨b, hb⟩
    rw [hb]
    exact throwsOnly_ok

/-- The end of a CAL that took an escrow. -/
theorem typed_settleEscrow_closeFlight {s : State} {h : Json} {refund : ℤ} {ch : Str} :
    Typed (settleEscrow s h refund >>= fun t => closeFlight t h ch) ↔ SettlesOrRejects h refund := by
  have hclose : ∀ t, ThrowsOnly IsTyped (closeFlight t h ch) ↔ AgentHasString h := by
    intro t
    simp [closeFlight, typed_agentKey]
  have hrefund : (∃ t, refundAgent s h refund = .ok t) ↔ (0 < refund → AgentHasString h) :=
    refundAgent_returns_iff
  rw [Typed, throwsOnly_bind]
  simp only [hclose, SettlesOrRejects]
  by_cases hint : ∃ escrowed, h.read (js "escrowed_ptra") = some (.int escrowed)
  · obtain ⟨escrowed, he⟩ := hint
    simp only [settleEscrow, he, throwsOnly_bind, typed_refundAgent, throwsOnly_require,
      isTyped_apply, throwsOnly_pure, implies_true, and_true, bind_eq_ok, require_eq_ok,
      pure_eq_ok]
    constructor
    · rintro ⟨hpos, hag⟩
      refine ⟨hpos, fun hle => ?_⟩
      obtain ⟨t, ht⟩ := hrefund.mpr hpos
      exact hag _ ⟨t, ht, (), by omega, rfl⟩
    · rintro ⟨hpos, hag⟩
      refine ⟨hpos, ?_⟩
      rintro _ ⟨t, ht, _, hle, rfl⟩
      exact hag (by omega)
  · have hstep : settleEscrow s h refund = (do
        let _ ← refundAgent s h refund
        let greater ← exceeds refund (h.read (js "escrowed_ptra"))
        require (greater = false) (.apply .UNDERFLOW)
        throw .typeError) := by
      unfold settleEscrow
      split
      · next e he => exact absurd ⟨e, he⟩ hint
      · rfl
    have hcond : (match h.read (js "escrowed_ptra") with
        | some (.int escrowed) => refund ≤ escrowed → AgentHasString h
        | v => exceeds refund v = .ok true) ↔
        exceeds refund (h.read (js "escrowed_ptra")) = .ok true := by
      split
      · next e he => exact absurd ⟨e, he⟩ hint
      · exact Iff.rfl
    rw [hcond, hstep]
    simp only [throwsOnly_bind, typed_refundAgent, throwsOnly_require, isTyped_apply, implies_true,
      throwsOnly_throw, not_isTyped_typeError, bind_eq_ok, throw_eq_ok, and_false, exists_false,
      false_imp_iff, and_true, require_eq_ok, true_and, typed_exceeds]
    constructor
    · rintro ⟨hpos, hex⟩
      obtain ⟨t, ht⟩ := hrefund.mpr hpos
      obtain ⟨⟨b, hb⟩, hfalse⟩ := hex t ht
      cases b with
      | true => exact ⟨hpos, hb⟩
      | false => exact absurd rfl (hfalse false hb ())
    · rintro ⟨hpos, hb⟩
      refine ⟨hpos, fun t _ => ⟨⟨true, hb⟩, fun b hb' _ hfalse => ?_⟩⟩
      rw [hb, Except.ok.injEq] at hb'
      exact Bool.noConfusion (hb'.trans hfalse)

/-- A failure before any escrow was taken. -/
theorem typed_chargeNow_closeFlight {s : State} {h : Json} {charge : ℤ} {ch : Str} :
    Typed (chargeNow s h charge >>= fun t => closeFlight t h ch) ↔ AgentHasString h := by
  simp only [chargeNow, closeFlight, Typed, throwsOnly_bind, typed_agentKey, throwsOnly_require,
    isTyped_apply, implies_true, throwsOnly_pure, and_true, and_iff_left_iff_imp]
  intro hag _ _
  exact hag

theorem typed_iterate {v : Option Json} : Typed (iterate v) ↔ ∃ ds, iterate v = .ok ds := by
  unfold iterate
  split <;> simp

/-! ## The steps -/

theorem typed_calFailed {s : State} {ev : Event} :
    Typed (calFailed s ev) ↔ EventType.failed.Handles s ev := by
  have hsettle : ∀ ch h, Typed (settleFailed s h ev >>= fun t => closeFlight t h ch) ↔
      if isStr (h.read (js "stage")) (js "CREATED") || isStr (h.read (js "stage")) (js "SIGNED") then
        ∀ charge, optUint ev "fee_debited_ptra" = .ok charge → AgentHasString h
      else ∀ refund, optUint ev "gas_refunded_ptra" = .ok refund → SettlesOrRejects h refund := by
    intro ch h
    unfold settleFailed
    split_ifs
    · rw [bind_assoc, Typed, throwsOnly_bind, and_iff_right (typed_optUint ev _)]
      exact forall_congr' fun _ => forall_congr' fun _ => typed_chargeNow_closeFlight
    · rw [bind_assoc, Typed, throwsOnly_bind, and_iff_right (typed_optUint ev _)]
      exact forall_congr' fun _ => forall_congr' fun _ => typed_settleEscrow_closeFlight
  rw [calFailed, Typed, throwsOnly_bind, and_iff_right (typed_reqStr ev _)]
  simp only [throwsOnly_bind, typed_requireFlight, true_and, EventType.Handles]
  constructor
  · intro h ch e hch he
    exact (hsettle ch e).mp (throwsOnly_bind.mpr (h ch hch e he))
  · intro h ch hch e he
    exact throwsOnly_bind.mp ((hsettle ch e).mpr (h ch e hch he))

/-- A step throws only typed errors exactly when it has what it asks for. -/
theorem typed_step_iff (t : EventType) (s : State) (ev : Event) :
    Typed (t.step s ev) ↔ t.Handles s ev := by
  have htrue : ∀ {P : Prop}, P → (P ↔ True) := fun h => ⟨fun _ => trivial, fun _ => h⟩
  cases t with
  | created =>
    refine htrue ?_
    simp [EventType.step, calCreated, typed_reqStr]
  | signed => exact typed_atStage fun _ _ => htrue throwsOnly_pure
  | validated =>
    refine typed_atStage fun ch h => ?_
    simp only [Typed, throwsOnly_bind, typed_reqUint, typed_agentKey, throwsOnly_require,
      isTyped_apply, implies_true, throwsOnly_pure, and_true, true_and]
  | executed =>
    refine typed_atStage fun ch h => htrue ?_
    split
    · simp [typed_reqUint]
    · exact throwsOnly_throw.mpr isTyped_apply
  | settled => exact typed_atStage fun _ _ => htrue throwsOnly_pure
  | finalized =>
    refine typed_atStage fun ch h => ?_
    rw [Typed, throwsOnly_bind, and_iff_right (typed_optUint ev _)]
    refine forall_congr' fun refund => forall_congr' fun _ => ?_
    rw [throwsOnly_bind]
    constructor
    · rintro ⟨hiter, h⟩
      obtain ⟨staged, hstaged⟩ := typed_iterate.mp hiter
      refine ⟨staged, hstaged, fun t ht => ?_⟩
      exact typed_settleEscrow_closeFlight.mp ((throwsOnly_bind.mp (h staged hstaged)).2 t ht)
    · rintro ⟨staged, hstaged, h⟩
      refine ⟨typed_iterate.mpr ⟨staged, hstaged⟩, fun ds hds => ?_⟩
      cases hstaged.symm.trans hds
      refine throwsOnly_bind.mpr ⟨throwsOnly_foldlM typed_applyDeltaJson s, fun t ht => ?_⟩
      exact typed_settleEscrow_closeFlight.mpr (h t ht)
  | failed | expired => exact typed_calFailed
  | transferred =>
    refine htrue ?_
    simp [EventType.step, ptraTransferred, typed_reqStr, typed_reqUint]
  | shadow_init =>
    refine htrue ?_
    simp only [EventType.step, ptraShadowInit, Typed, throwsOnly_bind, typed_reqStr, true_and]
    intro _ _
    split <;> exact throwsOnly_pure
  | feed_submitted =>
    refine htrue ?_
    simp [EventType.step, oracleFeedSubmitted, typed_reqStr]
  | tick_advanced =>
    simp only [EventType.step, tickAdvanced, Typed, throwsOnly_bind, typed_reqUint, true_and,
      EventType.Handles]
    refine forall_congr' fun next => forall_congr' fun _ => ?_
    split
    · next cur hcur =>
      rw [hcur]
      simp [HasString, Json.hasString]
    · simp [typed_stringOfOpt]

theorem applyEvent_of_type {s : State} {ev : Event} {t : EventType}
    (h : ev.read (js "event_type") = some (.str t.name)) : applyEvent s ev = t.step s ev := by
  simp [applyEvent, h]

/-- The reducer returns exactly on the events that have what their type asks for. -/
theorem apply_returns_iff {s : State} {ev : Event} :
    (∃ r, apply s ev = .ok r) ↔ Handled s ev := by
  rw [apply_returns_iff_typed]
  constructor
  · intro h t ht
    rw [applyEvent_of_type ht] at h
    exact (typed_step_iff t s ev).mp h
  · intro h
    unfold applyEvent
    split
    · next type htype =>
      split
      · next t ht =>
        rw [EventType.name_of_ofStr? ht] at htype
        exact (typed_step_iff t s ev).mpr (h t htype)
      · exact throwsOnly_throw.mpr isTyped_apply
    · exact throwsOnly_throw.mpr isTyped_apply

end ParadigmTerra
