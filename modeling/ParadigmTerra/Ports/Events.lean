import ParadigmTerra.Ports.Agreement

/-!
# Events in the three languages

`Plain` says of an event that no step reads a place of the state where the three ways of reading part,
that no sum leaves the 256-bit integers, and that no member named `__proto__` is written.
`apply_agrees` proves that the reducers agree on every plain event on a rooted state: all of them reach
one rooted state, or all of them reject it with one code.
-/

namespace ParadigmTerra.Ports

open Text OrderedMap Fallible

/-- A port takes the agent of an entry from a string, and counts nonces below the largest one. -/
structure Port.Lawful (P : Port) : Prop where
  agent_str : ∀ a, P.agent (some (.str a)) = .ok a
  agent_error : ∀ v e, P.agent v = .error e → e = .err .BAD_DELTA
  next : ∀ n : U256, n.1 < UINT256_MAX → P.next n = .ok (n.1 + 1)

theorem rust_lawful : rust.Lawful where
  agent_str _ := rfl
  agent_error v e h := by
    cases hv : v.bind asStr with
    | none =>
      simp only [rust, hv, orErr] at h
      cases h
      rfl
    | some a =>
      simp only [rust, hv, orErr] at h
      cases h
  next n hn := by
    obtain ⟨m, hm⟩ := checkedAdd_returns_iff.mpr (show n.1 + ONE.1 ≤ UINT256_MAX by
      rw [ONE_val]
      omega)
    have hval := checkedAdd_eq_some.mp hm
    rw [ONE_val] at hval
    simp only [rust, hm, hval]
    rfl

theorem go_lawful : go.Lawful where
  agent_str _ := rfl
  agent_error _ _ h := nomatch h
  next _ _ := rfl

/-! ## What an event asks for -/

/-- The entry of a CAL is an object, or the CAL is in flight to none. -/
def FlightPlain (s : State) (ch : Str) : Prop :=
  match ownIn s (flightPath ch) with
  | some h => h.isPlainObject = true
  | none => (inFlight s ch).isNone = true

instance (s : State) (ch : Str) : Decidable (FlightPlain s ch) := by
  unfold FlightPlain
  split <;> infer_instance

/-- The path has a 256-bit integer, or no integer, and the sum with the amount is one. -/
def RoomAt (s : State) (p : List Str) (n : ℤ) : Prop := UintAt s p ∧ valAt s p + n ≤ UINT256_MAX

def agentOf (h : Json) : Option Str := (get h (js "agent_id")).bind asStr

/-- The escrow of an entry, if it is a 256-bit integer. -/
def escrowOf (h : Json) : Option U256 := (get h (js "escrowed_ptra")).bind asU256

/-- A refund is paid without leaving the 256-bit integers. -/
def RefundPlain (s : State) (agent : Str) (escrowed refund : ℤ) : Prop :=
  (0 < refund → (bal s agent).1 + refund ≤ UINT256_MAX) ∧
    (refund ≤ escrowed → agent ≠ js "__proto__" ∧ (0 < refund → UintAt s (balancePath agent)) ∧
      RoomAt s feesPath (escrowed - refund) ∧ RoomAt s (noncePath agent) 1)

/-- A charge is taken without leaving the 256-bit integers. -/
def ChargePlain (s : State) (agent : Str) (charge : ℤ) : Prop :=
  UintAt s (balancePath agent) ∧
    (charge ≤ valAt s (balancePath agent) → agent ≠ js "__proto__" ∧ RoomAt s feesPath charge ∧
      RoomAt s (noncePath agent) 1)

/-- The entry that the event names satisfies `P` if it is at the stage. -/
def StagePlain (s : State) (ev : Event) (stage : String) (P : Str → Json → Prop) : Prop :=
  ∀ ch, ParadigmTerra.reqStr ev "cal_hash" = .ok ch → FlightPlain s ch ∧
    ∀ h, ParadigmTerra.requireFlight s ch = .ok h →
      if isStr (h.read (js "stage")) (js stage) then P ch h else HasString (h.read (js "stage"))

/-- The entries in flight were not replaced by `null`. -/
def FlightsKept (s : State) : Prop :=
  match ownIn s [js "cal", js "in_flight"] with
  | some .null => False
  | _ => True

instance (s : State) : Decidable (FlightsKept s) := by
  unfold FlightsKept
  split <;> infer_instance

/-- The deltas are plain, and the refund after them is. -/
def CommitPlain (s : State) (h : Json) (staged : List Json) (refund : ℤ) : Prop :=
  ∃ a ∈ agentOf h, ∃ e ∈ escrowOf h, DeltasPlain s staged ∧
    ∀ t, staged.foldlM ParadigmTerra.applyDeltaJson s = .ok t →
      FlightsKept t ∧ RefundPlain t a e.1 refund

/-- What an event of the type asks of the places that it reads. -/
def EventType.Plain (s : State) (ev : Event) : EventType → Prop
  | .created => ∀ ch, ParadigmTerra.reqStr ev "cal_hash" = .ok ch →
    FlightPlain s ch ∧ ch ≠ js "__proto__"
  | .signed => StagePlain s ev "CREATED" fun _ _ => True
  | .validated => StagePlain s ev "SIGNED" fun _ h =>
    ∀ escrow, ParadigmTerra.reqUint ev "escrow_ptra" = .ok escrow →
      ∃ a ∈ agentOf h, UintAt s (balancePath a) ∧
        (escrow ≤ valAt s (balancePath a) → a ≠ js "__proto__")
  | .executed => StagePlain s ev "VALIDATED" fun _ _ => True
  | .settled => StagePlain s ev "EXECUTED" fun _ _ => True
  | .finalized => StagePlain s ev "SETTLED" fun _ h =>
    ∀ refund, ParadigmTerra.optUint ev "gas_refunded_ptra" = .ok refund →
      ∃ staged ∈ (get h (js "staged")).bind asArray, CommitPlain s h staged refund
  | .failed | .expired => ∀ ch, ParadigmTerra.reqStr ev "cal_hash" = .ok ch → FlightPlain s ch ∧
    ∀ h, ParadigmTerra.requireFlight s ch = .ok h →
      if isStr (h.read (js "stage")) (js "CREATED") || isStr (h.read (js "stage")) (js "SIGNED") then
        ∀ charge, ParadigmTerra.optUint ev "fee_debited_ptra" = .ok charge →
          ∃ a ∈ agentOf h, ChargePlain s a charge
      else ∀ refund, ParadigmTerra.optUint ev "gas_refunded_ptra" = .ok refund →
        ∃ a ∈ agentOf h, ∃ e ∈ escrowOf h, RefundPlain s a e.1 refund
  | .transferred => ∀ sender, ParadigmTerra.reqStr ev "from" = .ok sender →
    ∀ recipient, ParadigmTerra.reqStr ev "to" = .ok recipient →
      ∀ amount, ParadigmTerra.reqUint ev "amount_nano_ptra" = .ok amount →
        UintAt s (balancePath sender) ∧
          (amount ≤ valAt s (balancePath sender) →
            sender ≠ js "__proto__" ∧ recipient ≠ js "__proto__" ∧
              (recipient ≠ sender → RoomAt s (balancePath recipient) amount))
  | .shadow_init => ∀ addr, ParadigmTerra.reqStr ev "addr" = .ok addr →
    (ownIn s (balancePath addr)).isNone = true →
      (ParadigmTerra.getIn s (balancePath addr)).isNone = true ∧ addr ≠ js "__proto__"
  | .feed_submitted => ∀ symbol, ParadigmTerra.reqStr ev "symbol" = .ok symbol →
    symbol ≠ js "__proto__"
  | .tick_advanced => ∀ next, ParadigmTerra.reqUint ev "new_tick" = .ok next →
    HasString (ParadigmTerra.getIn s [js "tick", js "current"]) ∧
      UintAt s [js "tick", js "current"] ∧
      UintAt s [js "governance", js "params", js "capture_guard_threshold"] ∧
      ∀ e ∈ tableIn s [js "failure_mode", js "capture_guard_counters"], ∀ n, e.2 = .int n → IsUint n

/-- The event is of no known type, or asks for nothing that its type does not find. -/
def Plain (s : State) (ev : Event) : Prop :=
  ∀ t : EventType, ev.read (js "event_type") = some (.str t.name) → EventType.Plain s ev t

section Decide

instance (v : Option Json) : Decidable (HasString v) :=
  match v with
  | none => .isTrue nofun
  | some v => decidable_of_iff (v.hasString = true) (by simp [HasString])

instance (s : State) (p : List Str) (n : ℤ) : Decidable (RoomAt s p n) := by
  unfold RoomAt; infer_instance

instance (s : State) (agent : Str) (escrowed refund : ℤ) :
    Decidable (RefundPlain s agent escrowed refund) := by unfold RefundPlain; infer_instance

instance (s : State) (agent : Str) (charge : ℤ) : Decidable (ChargePlain s agent charge) := by
  unfold ChargePlain; infer_instance

/-- What holds of the result of a read is decided by reading. -/
local instance decideRead {α : Type} {x : Except Throw α} {Q : α → Prop} [∀ a, Decidable (Q a)] :
    Decidable (∀ a, x = .ok a → Q a) := decideOk x fun _ => inferInstance

instance (s : State) (ev : Event) (stage : String) (P : Str → Json → Prop)
    [∀ ch h, Decidable (P ch h)] : Decidable (StagePlain s ev stage P) := by
  unfold StagePlain; infer_instance

instance (s : State) (h : Json) (staged : List Json) (refund : ℤ) :
    Decidable (CommitPlain s h staged refund) := by
  unfold CommitPlain; infer_instance

instance (e : Str × Json) : Decidable (∀ n, e.2 = .int n → IsUint n) :=
  decidable_of_iff (∀ n ∈ intOf (some e.2), IsUint n) (by
    refine forall_congr' fun n => ?_
    cases e.2 <;> simp [intOf])

/-- What an event asks for is decided by the reads and the checks of its step. -/
instance (s : State) (ev : Event) (t : EventType) : Decidable (EventType.Plain s ev t) := by
  cases t <;> unfold EventType.Plain <;> infer_instance

instance (s : State) (ev : Event) : Decidable (Plain s ev) :=
  decidable_of_iff (∀ t ∈ EventType.all, isStr (ev.read (js "event_type")) t.name = true →
    EventType.Plain s ev t) (by
      refine forall_congr' fun t => ?_
      have ht : t ∈ EventType.all := by cases t <;> simp [EventType.all]
      simp only [ht, true_imp_iff, isStr_iff])

end Decide

/-! ## Entries in flight -/

/-- A key of a canonical value is not `__proto__`. -/
theorem key_ne_proto {v w : Json} {p : List Str} {k : Str} (hv : Canonical v)
    (h : ownIn v (p ++ [k]) = some w) : k ≠ js "__proto__" := by
  rintro rfl
  rw [ownIn_append, Option.bind_eq_some_iff] at h
  obtain ⟨u, hu, h⟩ := h
  have hget : OrderedMap.get (js "__proto__") u.members = none := get_proto (fits_of_ownIn hv hu)
  rw [ownIn, hget] at h
  cases h

theorem agree_requireFlight {s : State} {ch : Str} (h : FlightPlain s ch) :
    Agree (fun e e' => e = e' ∧ ownIn s (flightPath ch) = some e)
      (ParadigmTerra.requireFlight s ch) (requireFlight s ch) := by
  unfold ParadigmTerra.requireFlight requireFlight
  unfold FlightPlain at h
  rw [getIn_eq_ownIn]
  cases ho : ownIn s (flightPath ch) with
  | none =>
    rw [ho] at h
    rw [Option.isNone_iff_eq_none.mp h]
    exact .error (sameCode _)
  | some e =>
    rw [ho] at h
    have hflight : inFlight s ch = some e := by
      simp only [inFlight, getIn_of_ownIn ho]
      exact if_pos h
    rw [hflight]
    exact .ok ⟨rfl, rfl⟩

theorem isStr_stage {h : Json} {stage : Str} :
    isStr (h.read (js "stage")) stage = true ↔ stageOf h = some stage := by
  rw [isStr_iff, read_eq_get (by simp [inheritedNames]), stageOf]
  cases get h (js "stage") with
  | none => simp
  | some v => cases v <;> simp [asStr]

/-- The part that the steps of one stage share. -/
theorem agree_stage {s : State} {ev : Event} {stage : String} {P : Str → Json → Prop}
    {f : Str → Json → Except Throw State} {g : Str → Json → Except Fault State}
    (hplain : StagePlain s ev stage P)
    (hfg : ∀ ch h, ownIn s (flightPath ch) = some h → P ch h → Agree Same (f ch h) (g ch h)) :
    Agree Same
      (do
        let ch ← ParadigmTerra.reqStr ev "cal_hash"
        let h ← ParadigmTerra.requireFlight s ch
        ParadigmTerra.requireStage h stage
        f ch h)
      (do
        let ch ← reqStr ev "cal_hash"
        let h ← requireFlight s ch
        requireStage h stage
        g ch h) := by
  refine (agree_reqStr (by simp [inheritedNames])).bind ?_
  rintro ch _ hch - rfl
  obtain ⟨hflight, hstage⟩ := hplain ch hch
  refine (agree_requireFlight hflight).bind ?_
  rintro h _ hh - ⟨rfl, hown⟩
  have hcond := hstage h hh
  unfold ParadigmTerra.requireStage requireStage
  by_cases hs : isStr (h.read (js "stage")) (js stage) = true
  · rw [if_pos hs] at hcond ⊢
    rw [require, if_pos (isStr_stage.mp hs)]
    exact hfg ch h hown hcond
  · rw [if_neg hs] at hcond ⊢
    rw [require, if_neg fun h' => hs (isStr_stage.mpr h')]
    -- the stage that the rejection prints has a string
    cases hv : h.read (js "stage") with
    | none => exact .error (sameCode _)
    | some v =>
      obtain ⟨-, t, ht⟩ | ⟨hno, -⟩ := stringOf_converts v
      · simp only [stringOfOpt, ht]
        exact .error (sameCode _)
      · exact absurd (hcond v hv) (by simp [hno])

/-- The implementations write alike. -/
theorem Same.setIn {s t : State} (h : Same s t) {k : Str} {p : List Str} {x : Json}
    (hx : Canonical x) (hp : js "__proto__" ∉ k :: p) :
    Same (ParadigmTerra.setIn (some s) (k :: p) x) (setIn t (k :: p) x) := by
  obtain ⟨rfl, hs⟩ := h
  rw [setIn_eq]
  exact ⟨rfl, hs.setIn hx hp⟩

theorem fieldPath_not_proto {ch : Str} {f : String} (hch : ch ≠ js "__proto__")
    (hf : js f ≠ js "__proto__") : js "__proto__" ∉ fieldPath ch f := by
  simp [hch.symm, hf.symm]

/-! ## The stages of a CAL -/

/-- Tests that agree on the elements of a list agree on the list. -/
theorem any_congr_mem {α : Type} {l : List α} {p q : α → Bool} (h : ∀ a ∈ l, p a = q a) :
    l.any p = l.any q := by
  rw [Bool.eq_iff_iff, List.any_eq_true, List.any_eq_true]
  exact exists_congr fun a => and_congr_right fun ha => by rw [h a ha]

theorem belongsTo_eq {agent : Str} {h : Json} (hh : Canonical h) :
    belongsTo agent h = decide ((get h (js "agent_id")).bind asStr = some agent) := by
  cases h with
  | obj m =>
    rw [belongsTo, Json.isPlainObject, Bool.true_and, Bool.eq_iff_iff, isStr_iff, decide_eq_true_eq,
      read_eq_get (by simp [inheritedNames])]
    cases get (.obj m) (js "agent_id") with
    | none => simp
    | some v => cases v <;> simp [asStr]
  | builtin n => cases hh
  | _ => rfl

theorem canonical_newEntry {agent : Str} (h : Canonical (.str agent)) :
    Canonical (newEntry agent) := by
  refine canonical_obj.mpr ⟨?_, by simp, ?_⟩
  · have hempty : Normal keyBefore (newEntry []).members := by decide
    exact hempty.of_keys rfl
  · simp only [List.mem_cons, List.not_mem_nil, or_false, forall_eq_or_imp, forall_eq]
    exact ⟨h, by decide, rfl, rfl, rfl⟩

theorem agree_calCreated {s : State} {ev : Event} (hs : Rooted s) (hev : Canonical ev)
    (hplain : EventType.Plain s ev .created) :
    Agree Same (ParadigmTerra.calCreated s ev) (calCreated s ev) := by
  refine (agree_reqStr (by simp [inheritedNames])).bind ?_
  rintro ch _ hch - rfl
  obtain ⟨hflight, hproto⟩ := hplain ch hch
  refine (agree_reqStr (by simp [inheritedNames])).bind ?_
  rintro agent _ hagent - rfl
  have hwf : Canonical (.str agent) := by
    have hread := ParadigmTerra.reqStr_eq_ok hagent
    rw [read_eq_get (by simp [inheritedNames])] at hread
    exact canonical_get hev hread
  have hnone : (inFlight s ch).isNone = true ↔ (getIn s (flightPath ch)).isNone = true := by
    unfold FlightPlain at hflight
    rw [getIn_eq_ownIn]
    cases ho : ownIn s (flightPath ch) with
    | none =>
      rw [ho] at hflight
      simp [hflight]
    | some e =>
      rw [ho] at hflight
      have hsome : inFlight s ch = some e := by
        simp only [inFlight, getIn_of_ownIn ho]
        exact if_pos hflight
      rw [hsome]
  refine (Alike.require hnone (sameCode _)).bind fun _ _ _ _ _ => ?_
  have hbusy : ParadigmTerra.agentBusy s agent = agentBusy s agent := by
    have hget : ParadigmTerra.getIn s [js "cal", js "in_flight"] =
        getIn s [js "cal", js "in_flight"] := by
      rw [getIn_eq_ownIn]
      exact getIn_snoc s [js "cal"] (by simp [inheritedNames])
    unfold ParadigmTerra.agentBusy agentBusy
    rw [hget, getIn_eq_ownIn]
    cases ho : ownIn s [js "cal", js "in_flight"] with
    | none => rfl
    | some all =>
      have hall := fits_of_ownIn hs.canonical ho
      cases all with
      | obj m => exact any_congr_mem fun e he => belongsTo_eq ((canonical_obj.mp hall).2.2 e he)
      | builtin n => cases hall
      | _ => rfl
  refine (Alike.require (by rw [hbusy]) (sameCode _)).bind fun _ _ _ _ _ => ?_
  exact .ok (Same.setIn ⟨rfl, hs⟩ (canonical_newEntry hwf) (by simp [hproto.symm]))

theorem agree_calSigned {s : State} {ev : Event} (hs : Rooted s)
    (hplain : EventType.Plain s ev .signed) :
    Agree Same (ParadigmTerra.calSigned s ev) (calSigned s ev) := by
  refine agree_stage hplain fun ch h hown _ => ?_
  have hch := key_ne_proto (p := [js "cal", js "in_flight"]) hs.canonical hown
  exact .ok (Same.setIn ⟨rfl, hs⟩ (by decide) (fieldPath_not_proto hch (by simp)))

theorem agree_calSettled {s : State} {ev : Event} (hs : Rooted s)
    (hplain : EventType.Plain s ev .settled) :
    Agree Same (ParadigmTerra.calSettled s ev) (calSettled s ev) := by
  refine agree_stage hplain fun ch h hown _ => ?_
  have hch := key_ne_proto (p := [js "cal", js "in_flight"]) hs.canonical hown
  exact .ok (Same.setIn ⟨rfl, hs⟩ (by decide) (fieldPath_not_proto hch (by simp)))

theorem agree_calExecuted {s : State} {ev : Event} (hs : Rooted s) (hev : Canonical ev)
    (hplain : EventType.Plain s ev .executed) :
    Agree Same (ParadigmTerra.calExecuted s ev) (calExecuted s ev) := by
  refine agree_stage hplain fun ch h hown _ => ?_
  have hch := key_ne_proto (p := [js "cal", js "in_flight"]) hs.canonical hown
  rw [read_eq_get (by simp [inheritedNames])]
  cases he : get ev (js "effects") with
  | none => exact .error (sameCode _)
  | some v =>
    cases v with
    | arr effects =>
      refine (agree_reqUint (by simp [inheritedNames])).bind ?_
      rintro _ gas - - rfl
      have heffects : Canonical (.arr effects) := canonical_get hev he
      have hstaged := Same.setIn ⟨rfl, hs⟩ heffects (fieldPath_not_proto (f := "staged") hch (by simp))
      have hgas := hstaged.setIn (x := intVal gas) rfl
        (fieldPath_not_proto (f := "gas_consumed_ptra") hch (by simp))
      exact .ok (hgas.setIn (by decide) (fieldPath_not_proto hch (by simp)))
    | _ => exact .error (sameCode _)

/-- The agent of an entry is a string of which all implementations make the same key. -/
theorem agentKey_of_agentOf {h : Json} {a : Str} (ha : agentOf h = some a) :
    agentKey h = .ok a ∧ get h (js "agent_id") = some (.str a) := by
  unfold agentOf at ha
  unfold agentKey
  rw [read_eq_get (by simp [inheritedNames])]
  cases hv : get h (js "agent_id") with
  | none =>
    rw [hv] at ha
    cases ha
  | some v =>
    rw [hv] at ha
    cases v with
    | str t =>
      cases ha
      exact ⟨rfl, rfl⟩
    | _ => cases ha

/-- The balance of the path, in both. -/
theorem bal_eq {s : State} {a : Str} (h : UintAt s (balancePath a)) :
    ParadigmTerra.bal s a = valAt s (balancePath a) ∧ (bal s a).1 = valAt s (balancePath a) :=
  ⟨asBig_getIn s (balancePath a) 0, u256At_val h⟩

/-- A balance is set alike. -/
theorem Same.setBalance {s t : State} (h : Same s t) {a : Str} {n : U256}
    (ha : a ≠ js "__proto__") : Same (ParadigmTerra.setBalance s a n.1) (setBalance t a n) :=
  h.setIn rfl (by simp [ha.symm])

/-- An amount is paid out alike. -/
theorem agree_debit {s : State} {a : Str} {n : U256} (hbal : UintAt s (balancePath a))
    {f : State → Except Throw State} {g : State → Except Fault State}
    (hfg : ∀ d : U256, valAt s (balancePath a) - n.1 = d.1 →
      Agree Same (f (ParadigmTerra.setBalance s a d.1)) (g (setBalance s a d))) :
    Agree Same
      (do
        require (¬ParadigmTerra.bal s a < n.1) (.apply .INSUFFICIENT_BALANCE)
        f (ParadigmTerra.setBalance s a (ParadigmTerra.bal s a - n.1)))
      (debit s a n >>= g) := by
  obtain ⟨hleft, hright⟩ := bal_eq hbal
  rw [debit, bind_assoc, hleft, ← hright]
  refine agree_checkedSub (by omega) fun d hd => ?_
  rw [hd]
  exact hfg d (by rw [← hright, hd])

theorem reqUint_error {ev : Event} {k : String} {e : Fault} (h : reqUint ev k = .error e) :
    e = .err .BAD_DELTA := by
  unfold reqUint at h
  cases hv : (get ev (js k)).bind asU256 with
  | none =>
    rw [hv] at h
    cases h
    rfl
  | some n =>
    rw [hv] at h
    cases h

theorem optUint_error {ev : Event} {k : String} {e : Fault} (h : optUint ev k = .error e) :
    e = .err .BAD_DELTA := by
  unfold optUint at h
  split at h
  · exact reqUint_error h
  · cases h

/-- The ports read the agent before an amount that the reference implementation reads first. -/
theorem agree_agent {P : Port} (hP : P.Lawful) {h : Json} {x : Except Throw ℤ}
    {y : Except Fault U256} (hxy : Agree IsVal x y) (hbad : ∀ e, y = .error e → e = .err .BAD_DELTA)
    {f : ℤ → Except Throw State} {g : Str → U256 → Except Fault State}
    (hfg : ∀ n : U256, x = .ok n.1 → ∃ a ∈ agentOf h, Agree Same (f n.1) (g a n)) :
    Agree Same (x >>= f) (do
      let a ← P.agent (get h (js "agent_id"))
      let n ← y
      g a n) := by
  cases hxy with
  | @ok m n hval =>
    obtain rfl : m = n.1 := hval
    obtain ⟨a, ha, hagree⟩ := hfg n rfl
    rw [(agentKey_of_agentOf ha).2, hP.agent_str]
    exact hagree
  | @error e e' he =>
    obtain ⟨code, rfl, rfl⟩ := he
    cases hbad _ rfl
    cases hagent : P.agent (get h (js "agent_id")) with
    | ok a => exact .error (sameCode _)
    | error e =>
      cases hP.agent_error _ e hagent
      exact .error (sameCode _)

theorem agree_calValidated {P : Port} (hP : P.Lawful) {s : State} {ev : Event} (hs : Rooted s)
    (hplain : EventType.Plain s ev .validated) :
    Agree Same (ParadigmTerra.calValidated s ev) (calValidated P s ev) := by
  refine agree_stage hplain fun ch h hown hescrow => ?_
  have hch := key_ne_proto (p := [js "cal", js "in_flight"]) hs.canonical hown
  refine agree_agent hP (agree_reqUint (by simp [inheritedNames])) (fun _ => reqUint_error) ?_
  intro escrow hreq
  obtain ⟨a, ha, hbal, hproto⟩ := hescrow escrow.1 hreq
  refine ⟨a, ha, ?_⟩
  rw [(agentKey_of_agentOf ha).1]
  refine agree_debit (f := fun t => pure (ParadigmTerra.setIn
    (some (ParadigmTerra.setIn (some t) (fieldPath ch "escrowed_ptra") (.int escrow.1)))
    (fieldPath ch "stage") (.str (js "VALIDATED")))) hbal fun d hd => ?_
  have hproto := hproto (by have := d.2.1; omega)
  have hpaid := Same.setBalance (n := d) ⟨rfl, hs⟩ hproto
  have hescrowed := hpaid.setIn (x := intVal escrow) rfl
    (fieldPath_not_proto (f := "escrowed_ptra") hch (by simp))
  exact .ok (hescrowed.setIn (by decide) (fieldPath_not_proto hch (by simp)))

/-! ## Settlements -/

theorem ownIn_setIn_apart {p q : List Str} (h : Apart p q) (s x : Json) :
    ownIn (setIn s p x) q = ownIn s q := by
  rw [← setIn_eq]
  exact ownIn_setIn_of_apart h s x

/-- A write elsewhere leaves room. -/
theorem RoomAt.setIn {s x : State} {p q : List Str} {n : ℤ} (h : RoomAt s q n) (hap : Apart p q) :
    RoomAt (setIn s p x) q n := by
  unfold RoomAt UintAt valAt
  rw [ownIn_setIn_apart hap]
  exact h

theorem FlightsKept.setIn {s x : State} {p : List Str} (h : FlightsKept s)
    (hap : Apart p [js "cal", js "in_flight"]) : FlightsKept (setIn s p x) := by
  unfold FlightsKept
  rw [ownIn_setIn_apart hap]
  exact h

/-- The fees take an amount alike. -/
theorem addFees_of_room {s : State} {n : U256} (hs : Rooted s) (h : RoomAt s feesPath n.1) :
    ∃ x : U256, addFees s n = .ok (setIn s feesPath (intVal x)) ∧
      Same (ParadigmTerra.addFees s n.1) (setIn s feesPath (intVal x)) := by
  have hval := u256At_val h.1
  have hsum : (u256At s feesPath).1 + n.1 ≤ UINT256_MAX := by
    rw [hval]
    exact h.2
  obtain ⟨x, hx⟩ := checkedAdd_returns_iff.mpr hsum
  have hx' := checkedAdd_eq_some.mp hx
  rw [hval] at hx'
  refine ⟨x, ?_, ?_⟩
  · rw [addFees, hx]
    rfl
  · have hread : asBig (ParadigmTerra.getIn s feesPath) 0 = valAt s feesPath :=
      asBig_getIn s feesPath 0
    rw [ParadigmTerra.addFees, hread, hx']
    exact Same.setIn ⟨rfl, hs⟩ rfl (by simp)

/-- After a nonce was written, the way to an entry in flight is one of own members. -/
theorem deletePlain_flight {s x : State} {agent ch : Str} (hs : Rooted s)
    (hkept : FlightsKept s) :
    DeletePlain (setIn s (noncePath agent) x) (flightPath ch) := by
  generalize hc : (get s (js "cal")).getD .null = c
  have hflights : get c (js "in_flight") = ownIn s [js "cal", js "in_flight"] := by
    rw [← getIn_eq_ownIn, getIn, ← hc]
    cases get s (js "cal") with
    | none => rfl
    | some w => simp [getIn]
  have hshape : setIn s (noncePath agent) x = .obj (putMember (js "cal")
      (.obj (putMember (js "nonces") (setIn ((get c (js "nonces")).getD .null) [agent] x) c.members))
      s.members) := by
    rw [noncePath, setIn, setIn, hc]
  rw [hshape]
  simp only [DeletePlain, get_put_self]
  rw [get_put_of_ne (by simp)]
  change match get c (js "in_flight") with
    | some w => DeletePlain w [ch]
    | none => inherited (js "in_flight") = none
  rw [hflights]
  cases ho : ownIn s [js "cal", js "in_flight"] with
  | none => exact inherited_eq_none (by simp [inheritedNames])
  | some w =>
    have hw := fits_of_ownIn hs.canonical ho
    cases w with
    | null =>
      rw [FlightsKept, ho] at hkept
      exact hkept.elim
    | builtin n => cases hw
    | _ => trivial

/-- A CAL is closed alike. -/
theorem agree_closeFlight {P : Port} (hP : P.Lawful) {s : State} {h : Json} {a ch : Str}
    (hs : Rooted s) (ha : agentOf h = some a) (hproto : a ≠ js "__proto__")
    (hroom : RoomAt s (noncePath a) 1) (hkept : FlightsKept s) :
    Agree Same (ParadigmTerra.closeFlight s h ch) (closeFlight P s a ch) := by
  have hval := u256At_val hroom.1
  have hlt : (u256At s (noncePath a)).1 < UINT256_MAX := by
    have := hroom.2
    omega
  have hread : asBig (ParadigmTerra.getIn s (noncePath a)) 0 = valAt s (noncePath a) :=
    asBig_getIn s (noncePath a) 0
  unfold ParadigmTerra.closeFlight closeFlight bumpNonce
  rw [(agentKey_of_agentOf ha).1, hP.next _ hlt, hval]
  refine .ok ?_
  rw [ParadigmTerra.bumpNonce, hread, setIn_eq, deleteIn_eq (deletePlain_flight hs hkept)]
  exact ⟨rfl, (hs.setIn rfl (by simp [hproto.symm])).deleteIn⟩

theorem eq_of_asU256 {v : Json} {u : U256} (h : asU256 v = some u) : v = .int u.1 := by
  cases v with
  | int n =>
    by_cases hn : IsUint n
    · rw [asU256_int hn, Option.some.injEq] at h
      rw [← h]
    · rw [asU256, dif_neg hn] at h
      cases h
  | _ => cases h

theorem get_escrow {h : Json} {e : U256} (he : escrowOf h = some e) :
    get h (js "escrowed_ptra") = some (.int e.1) := by
  obtain ⟨v, hv, he⟩ := Option.bind_eq_some_iff.mp he
  rw [hv, eq_of_asU256 he]

/-- The escrow of the entry is the one at its path. -/
theorem u256At_escrow {s : State} {ch : Str} {h : Json} {e : U256}
    (hown : ownIn s (flightPath ch) = some h) (he : escrowOf h = some e) :
    u256At s (fieldPath ch "escrowed_ptra") = e := by
  have hfield : getIn s (fieldPath ch "escrowed_ptra") = get h (js "escrowed_ptra") := by
    rw [getIn_eq_ownIn]
    refine (ownIn_append s (flightPath ch) [js "escrowed_ptra"]).trans ?_
    rw [hown]
    change ((get h (js "escrowed_ptra")).bind fun w => ownIn w []) = _
    cases get h (js "escrowed_ptra") <;> rfl
  rw [u256At, hfield, get_escrow he, Option.bind_some, asU256_int e.2]
  rfl

/-- The treasury takes an amount, and the CAL is closed, alike. -/
theorem agree_fees_close {P : Port} (hP : P.Lawful) {s : State} {h : Json} {a ch : Str} {n : U256}
    (hs : Rooted s) (ha : agentOf h = some a) (hproto : a ≠ js "__proto__")
    (hkept : FlightsKept s) (hfees : RoomAt s feesPath n.1)
    (hnonce : RoomAt s (noncePath a) 1) :
    Agree Same (ParadigmTerra.closeFlight (ParadigmTerra.addFees s n.1) h ch)
      (addFees s n >>= fun t => closeFlight P t a ch) := by
  obtain ⟨x, hx, hsame⟩ := addFees_of_room hs hfees
  rw [hx, hsame.1]
  refine agree_closeFlight hP (hsame.1 ▸ hsame.2) ha hproto ?_ ?_
  · exact hnonce.setIn (by simp)
  · exact hkept.setIn (by simp)

/-- What is left of the escrow is kept, and the CAL is closed, alike. -/
theorem agree_retain_close {P : Port} (hP : P.Lawful) {s : State} {h : Json} {a ch : Str}
    {e r : U256} (hs : Rooted s) (ha : agentOf h = some a) (hproto : a ≠ js "__proto__")
    (hkept : FlightsKept s) (hle : r.1 ≤ e.1)
    (hfees : RoomAt s feesPath (e.1 - r.1)) (hnonce : RoomAt s (noncePath a) 1) :
    Agree Same
      (ParadigmTerra.closeFlight (ParadigmTerra.addFees s (e.1 - r.1)) h ch)
      (do
        let retained ← orErr .UNDERFLOW (e.checkedSub r)
        let t ← addFees s retained
        closeFlight P t a ch) := by
  obtain ⟨d, hd⟩ := checkedSub_returns_iff.mpr hle
  rw [checkedSub_eq_some.mp hd] at hfees ⊢
  rw [hd]
  exact agree_fees_close hP hs ha hproto hkept hfees hnonce

/-- A refund is settled, and the CAL is closed, alike. -/
theorem agree_settle_close {P : Port} (hP : P.Lawful) {s : State} {h : Json} {a ch : Str}
    {e r : U256} (hs : Rooted s) (ha : agentOf h = some a) (he : escrowOf h = some e)
    (hkept : FlightsKept s) (hplain : RefundPlain s a e.1 r.1) :
    Agree Same
      (ParadigmTerra.settleEscrow s h r.1 >>= fun t => ParadigmTerra.closeFlight t h ch)
      (settleEscrow s a e r >>= fun t => closeFlight P t a ch) := by
  obtain ⟨hcredit, hplain⟩ := hplain
  have hread : h.read (js "escrowed_ptra") = some (.int e.1) := by
    rw [read_eq_get (by simp [inheritedNames]), get_escrow he]
  have hr := r.2.1
  simp only [ParadigmTerra.settleEscrow, settleEscrow, hread, bind_assoc]
  by_cases hle : r.1 ≤ e.1
  · obtain ⟨hproto, hbal, hfees, hnonce⟩ := hplain hle
    have hreq : ∀ t : State, (do
        require (¬e.1 < r.1) (.apply .UNDERFLOW)
        let t ← pure (ParadigmTerra.addFees t (e.1 - r.1))
        ParadigmTerra.closeFlight t h ch) =
          ParadigmTerra.closeFlight (ParadigmTerra.addFees t (e.1 - r.1)) h ch := by
      intro t
      rw [require, if_pos (not_lt.mpr hle)]
      rfl
    simp only [hreq]
    unfold refundAgent
    by_cases hzero : r.1 = 0
    · rw [if_neg (by omega), if_neg (not_not.mpr hzero)]
      simp only [pure_bind, bind_assoc]
      exact agree_retain_close hP hs ha hproto hkept hle hfees hnonce
    · have hpos : 0 < r.1 := by omega
      obtain ⟨hleft, hright⟩ := bal_eq (hbal hpos)
      obtain ⟨n, hn⟩ := checkedAdd_returns_iff.mpr (hcredit hpos)
      have hn' := checkedAdd_eq_some.mp hn
      have hpaid : Same (ParadigmTerra.setBalance s a n.1) (setBalance s a n) :=
        Same.setBalance ⟨rfl, hs⟩ hproto
      have hcredited : credit s a r = .ok (setBalance s a n) := by
        rw [credit, hn]
        rfl
      rw [if_pos hpos, if_pos hzero, (agentKey_of_agentOf ha).1, hcredited]
      simp only [ok_bind, pure_bind, bind_assoc]
      rw [hleft, ← hright, hn', hpaid.1]
      refine agree_retain_close hP (hpaid.1 ▸ hpaid.2) ha hproto ?_ hle
        (hfees.setIn (by simp)) (hnonce.setIn (by simp))
      exact hkept.setIn (by simp)
  · -- the refund is paid and then taken for too large
    have hnone : e.checkedSub r = none := by
      rw [U256.checkedSub, dif_neg hle]
    have hreq : require (¬e.1 < r.1) (Throw.apply .UNDERFLOW) = .error (.apply .UNDERFLOW) := by
      rw [require, if_neg (not_not.mpr (lt_of_not_ge hle))]
    have hpos : 0 < r.1 := by have := e.2.1; omega
    obtain ⟨n, hn⟩ := checkedAdd_returns_iff.mpr (hcredit hpos)
    unfold refundAgent
    rw [if_pos hpos, if_pos (by omega), (agentKey_of_agentOf ha).1, hreq, hnone, credit, hn]
    exact .error (sameCode _)

/-- A charge is taken, and the CAL is closed, alike. -/
theorem agree_charge_close {P : Port} (hP : P.Lawful) {s : State} {h : Json} {a ch : Str}
    {n : U256} (hs : Rooted s) (ha : agentOf h = some a)
    (hkept : FlightsKept s) (hplain : ChargePlain s a n.1) :
    Agree Same
      (ParadigmTerra.chargeNow s h n.1 >>= fun t => ParadigmTerra.closeFlight t h ch)
      (chargeNow s a n >>= fun t => closeFlight P t a ch) := by
  obtain ⟨hbal, hplain⟩ := hplain
  obtain ⟨hleft, hright⟩ := bal_eq hbal
  have hn := n.2.1
  unfold ParadigmTerra.chargeNow chargeNow
  rw [(agentKey_of_agentOf ha).1]
  simp only [ok_bind, pure_bind, bind_assoc, hleft]
  by_cases hle : n.1 ≤ valAt s (balancePath a)
  · obtain ⟨hproto, hfees, hnonce⟩ := hplain hle
    rw [require, if_pos (by omega), ok_bind]
    by_cases hzero : n.1 = 0
    · rw [if_neg (by omega), if_neg (not_not.mpr hzero)]
      exact agree_fees_close hP hs ha hproto hkept hfees hnonce
    · obtain ⟨d, hd⟩ := checkedSub_returns_iff.mpr (hright ▸ hle)
      have hd' := checkedSub_eq_some.mp hd
      have hpaid : Same (ParadigmTerra.setBalance s a d.1) (setBalance s a d) :=
        Same.setBalance ⟨rfl, hs⟩ hproto
      have hdebited : debit s a n = .ok (setBalance s a d) := by
        rw [debit, hd]
        rfl
      rw [if_pos (by omega), if_pos hzero, hdebited, ← hright, hd', hpaid.1]
      refine agree_fees_close hP (hpaid.1 ▸ hpaid.2) ha hproto ?_ (hfees.setIn (by simp))
        (hnonce.setIn (by simp))
      exact hkept.setIn (by simp)
  · have hvalue := (bal s a).2.1
    have hnone : (bal s a).checkedSub n = none := by
      rw [U256.checkedSub, dif_neg (hright ▸ hle)]
    have hpos : 0 < n.1 := by omega
    rw [require, if_neg (by omega), if_pos hpos, if_pos (ne_of_gt hpos), debit, hnone]
    exact .error (sameCode _)

theorem kept_of_flight {s : State} {ch : Str} {h : Json} (hown : ownIn s (flightPath ch) = some h) :
    FlightsKept s := by
  rw [show flightPath ch = [js "cal", js "in_flight"] ++ [ch] from rfl, ownIn_append] at hown
  unfold FlightsKept
  split
  · next hnull =>
    rw [hnull] at hown
    cases hown
  · trivial

/-! ## The end of a CAL -/

theorem agree_calFailed {P : Port} (hP : P.Lawful) {s : State} {ev : Event} (hs : Rooted s)
    (hplain : EventType.Plain s ev .failed) :
    Agree Same (ParadigmTerra.calFailed s ev) (calFailed P s ev) := by
  refine (agree_reqStr (by simp [inheritedNames])).bind ?_
  rintro ch _ hch - rfl
  obtain ⟨hflight, hrest⟩ := hplain ch hch
  refine (agree_requireFlight hflight).bind ?_
  rintro h _ hh - ⟨rfl, hown⟩
  have hcond := hrest h hh
  have hkept := kept_of_flight hown
  have hearly : (isStr (h.read (js "stage")) (js "CREATED") ||
      isStr (h.read (js "stage")) (js "SIGNED")) = true ↔
      stageOf h = some (js "CREATED") ∨ stageOf h = some (js "SIGNED") := by
    rw [Bool.or_eq_true, isStr_stage, isStr_stage]
  unfold ParadigmTerra.settleFailed settleFailed
  by_cases he : stageOf h = some (js "CREATED") ∨ stageOf h = some (js "SIGNED")
  · rw [if_pos (hearly.mpr he)] at hcond ⊢
    simp only [if_pos he, bind_assoc]
    refine agree_agent hP (agree_optUint (by simp [inheritedNames])) (fun _ => optUint_error) ?_
    intro charge hcharge
    obtain ⟨a, ha, hplain⟩ := hcond charge.1 hcharge
    exact ⟨a, ha, agree_charge_close hP hs ha hkept hplain⟩
  · rw [if_neg fun h' => he (hearly.mp h')] at hcond ⊢
    simp only [if_neg he, bind_assoc]
    refine agree_agent hP (agree_optUint (by simp [inheritedNames])) (fun _ => optUint_error) ?_
    intro refund hrefund
    obtain ⟨a, ha, e, hescrow, hplain⟩ := hcond refund.1 hrefund
    refine ⟨a, ha, ?_⟩
    rw [u256At_escrow hown hescrow]
    exact agree_settle_close hP hs ha hescrow hkept hplain

theorem agree_calFinalized {P : Port} (hP : P.Lawful) {s : State} {ev : Event} (hs : Rooted s)
    (hplain : EventType.Plain s ev .finalized) :
    Agree Same (ParadigmTerra.calFinalized s ev) (calFinalized P s ev) := by
  refine agree_stage hplain fun ch h hown hcommit => ?_
  refine agree_agent hP (agree_optUint (by simp [inheritedNames])) (fun _ => optUint_error) ?_
  intro refund hrefund
  obtain ⟨staged, hstaged, a, ha, e, hescrow, hdeltas, hplain⟩ := hcommit refund.1 hrefund
  refine ⟨a, ha, ?_⟩
  have hget : get h (js "staged") = some (.arr staged) := by
    obtain ⟨v, hv, hv'⟩ := Option.bind_eq_some_iff.mp hstaged
    cases v with
    | arr ds =>
      cases hv'
      exact hv
    | _ => cases hv'
  have hcanonical : ∀ d ∈ staged, Canonical d := by
    have harr : Canonical (.arr staged) := canonical_get (fits_of_ownIn hs.canonical hown) hget
    exact fitsElements_iff.mp harr
  rw [read_eq_get (by simp [inheritedNames]), hget, u256At_escrow hown hescrow]
  refine (agree_deltas hs hcanonical hdeltas).bind ?_
  rintro t _ ht - ⟨rfl, hrooted⟩
  obtain ⟨hkept, hrefund⟩ := hplain t ht
  exact agree_settle_close hP hrooted ha hescrow hkept hrefund

/-! ## Money, feeds and ticks -/

/-- An amount is paid in alike. -/
theorem agree_credit {s : State} {a : Str} {n : U256} (hs : Rooted s) (hproto : a ≠ js "__proto__")
    (hroom : RoomAt s (balancePath a) n.1) :
    Agree Same (pure (ParadigmTerra.setBalance s a (ParadigmTerra.bal s a + n.1)))
      (credit s a n) := by
  obtain ⟨hleft, hright⟩ := bal_eq hroom.1
  have hsum : (bal s a).1 + n.1 ≤ UINT256_MAX := by
    rw [hright]
    exact hroom.2
  obtain ⟨x, hx⟩ := checkedAdd_returns_iff.mpr hsum
  rw [hleft, ← hright, checkedAdd_eq_some.mp hx, credit, hx]
  exact .ok (Same.setBalance ⟨rfl, hs⟩ hproto)

theorem agree_ptraTransferred {s : State} {ev : Event} (hs : Rooted s)
    (hplain : EventType.Plain s ev .transferred) :
    Agree Same (ParadigmTerra.ptraTransferred s ev) (ptraTransferred s ev) := by
  refine (agree_reqStr (by simp [inheritedNames])).bind ?_
  rintro sender _ hsender - rfl
  refine (agree_reqStr (by simp [inheritedNames])).bind ?_
  rintro recipient _ hrecipient - rfl
  refine (agree_reqUint (by simp [inheritedNames])).bind ?_
  rintro _ amount hamount - rfl
  obtain ⟨hbal, hplain⟩ := hplain sender hsender recipient hrecipient amount.1 hamount
  refine agree_debit (f := fun t => pure (ParadigmTerra.setBalance t recipient
    (ParadigmTerra.bal t recipient + amount.1))) hbal fun d hd => ?_
  obtain ⟨hsproto, hrproto, hroom⟩ := hplain (by have := d.2.1; omega)
  have hpaid : Same (ParadigmTerra.setBalance s sender d.1) (setBalance s sender d) :=
    Same.setBalance ⟨rfl, hs⟩ hsproto
  rw [hpaid.1]
  refine agree_credit (hpaid.1 ▸ hpaid.2) hrproto ?_
  by_cases hself : recipient = sender
  · subst hself
    have hown : ownIn (setBalance s recipient d) (balancePath recipient) = some (.int d.1) := by
      rw [← hpaid.1]
      exact ownIn_setIn _ _ _
    have hmax := (bal s recipient).2.2
    rw [(bal_eq hbal).2] at hmax
    refine ⟨fun n hn => ?_, ?_⟩
    · rw [hown] at hn
      cases hn
      exact d.2
    · rw [valAt, hown]
      change d.1 + amount.1 ≤ UINT256_MAX
      omega
  · exact (hroom hself).setIn (by simp [Ne.symm hself])

theorem agree_ptraShadowInit {s : State} {ev : Event} (hs : Rooted s)
    (hplain : EventType.Plain s ev .shadow_init) :
    Agree Same (ParadigmTerra.ptraShadowInit s ev) (ptraShadowInit s ev) := by
  refine (agree_reqStr (by simp [inheritedNames])).bind ?_
  rintro addr _ haddr - rfl
  rw [getIn_eq_ownIn]
  cases ho : ownIn s (balancePath addr) with
  | some v =>
    rw [getIn_of_ownIn ho]
    exact .ok ⟨rfl, hs⟩
  | none =>
    obtain ⟨hnone, hproto⟩ := hplain addr haddr (by rw [ho]; rfl)
    rw [Option.isNone_iff_eq_none.mp hnone]
    exact .ok (Same.setBalance (n := ZERO) ⟨rfl, hs⟩ hproto)

theorem agree_oracleFeedSubmitted {s : State} {ev : Event} (hs : Rooted s) (hev : Canonical ev)
    (hplain : EventType.Plain s ev .feed_submitted) :
    Agree Same (ParadigmTerra.oracleFeedSubmitted s ev) (oracleFeedSubmitted s ev) := by
  refine (agree_reqStr (by simp [inheritedNames])).bind ?_
  rintro symbol _ hsymbol - rfl
  have hvalue : Canonical ((get ev (js "value")).getD .null) := by
    cases hv : get ev (js "value") with
    | none => rfl
    | some v => exact canonical_get hev hv
  rw [orElse_null, read_eq_get (by simp [inheritedNames])]
  exact .ok (Same.setIn ⟨rfl, hs⟩ hvalue (by simp [(hplain symbol hsymbol).symm]))

/-- The flag of Bounded Mode is recomputed alike. -/
theorem same_recomputeBounded {s t : State} (h : Same s t)
    (hthreshold : UintAt s [js "governance", js "params", js "capture_guard_threshold"])
    (hcounters : ∀ e ∈ tableIn s [js "failure_mode", js "capture_guard_counters"],
      ∀ n, e.2 = .int n → IsUint n) :
    Same (ParadigmTerra.recomputeBounded s) (recomputeBounded t) := by
  obtain ⟨rfl, hs⟩ := h
  have ht : ParadigmTerra.getIn s [js "governance", js "params", js "capture_guard_threshold"] =
      ownIn s [js "governance", js "params", js "capture_guard_threshold"] :=
    getIn_snoc s [js "governance", js "params"] (by simp [inheritedNames])
  have hc : ParadigmTerra.getIn s [js "failure_mode", js "capture_guard_counters"] =
      ownIn s [js "failure_mode", js "capture_guard_counters"] :=
    getIn_snoc s [js "failure_mode"] (by simp [inheritedNames])
  unfold ParadigmTerra.recomputeBounded recomputeBounded
  simp only [ht, hc, getIn_eq_ownIn]
  refine (congrArg (fun b => Same _ (setIn s _ (.bool b))) ?_).mp
    (Same.setIn ⟨rfl, hs⟩ rfl (by simp))
  cases hown : ownIn s [js "governance", js "params", js "capture_guard_threshold"] with
  | none => rfl
  | some v =>
    cases v with
    | int threshold =>
      rw [Option.bind_some, asU256_int (hthreshold threshold hown)]
      cases hcs : ownIn s [js "failure_mode", js "capture_guard_counters"] with
      | none => rfl
      | some counters =>
        rw [tableIn, hcs] at hcounters
        have hcanonical := fits_of_ownIn hs.canonical hcs
        cases counters with
        | obj m =>
          refine any_congr_mem fun e he => ?_
          cases hv : e.2 with
          | int n => rw [asU256_int (hcounters e he n hv)]
          | _ => rfl
        | builtin n => cases hcanonical
        | _ => rfl
    | _ => rfl

theorem agree_tickAdvanced {s : State} {ev : Event} (hs : Rooted s)
    (hplain : EventType.Plain s ev .tick_advanced) :
    Agree Same (ParadigmTerra.tickAdvanced s ev) (tickAdvanced s ev) := by
  refine (agree_reqUint (by simp [inheritedNames])).bind ?_
  rintro _ next hnext - rfl
  obtain ⟨hstring, hcurrent, hthreshold, hcounters⟩ := hplain next.1 hnext
  have hget : ParadigmTerra.getIn s [js "tick", js "current"] = ownIn s [js "tick", js "current"] :=
    getIn_snoc s [js "tick"] (by simp [inheritedNames])
  rw [hget] at hstring ⊢
  rw [getIn_eq_ownIn]
  cases hown : ownIn s [js "tick", js "current"] with
  | none => exact .error (sameCode _)
  | some v =>
    rw [hown] at hstring
    obtain ⟨-, t, ht⟩ | ⟨hno, -⟩ := stringOf_converts v
    · cases v with
      | int cur =>
        rw [Option.bind_some, asU256_int (hcurrent cur hown)]
        refine (Alike.require Iff.rfl (sameCode _)).bind fun _ _ _ _ _ => .ok ?_
        refine same_recomputeBounded (Same.setIn ⟨rfl, hs⟩ rfl (by simp)) ?_ ?_
        · rw [UintAt, setIn_eq, ownIn_setIn_apart (by simp)]
          exact hthreshold
        · rw [tableIn_setIn_of_apart (by simp)]
          exact hcounters
      | _ =>
        simp only [stringOfOpt, ht]
        exact .error (sameCode _)
    · exact absurd (hstring v rfl) (by simp [hno])

/-! ## The reducers -/

theorem agree_step {P : Port} (hP : P.Lawful) {s : State} {ev : Event} (hs : Rooted s)
    (hev : Canonical ev) (t : EventType) (hplain : EventType.Plain s ev t) :
    Agree Same (t.step s ev) (step P t s ev) := by
  cases t with
  | created => exact agree_calCreated hs hev hplain
  | signed => exact agree_calSigned hs hplain
  | validated => exact agree_calValidated hP hs hplain
  | executed => exact agree_calExecuted hs hev hplain
  | settled => exact agree_calSettled hs hplain
  | finalized => exact agree_calFinalized hP hs hplain
  | failed | expired => exact agree_calFailed hP hs hplain
  | transferred => exact agree_ptraTransferred hs hplain
  | shadow_init => exact agree_ptraShadowInit hs hplain
  | feed_submitted => exact agree_oracleFeedSubmitted hs hev hplain
  | tick_advanced => exact agree_tickAdvanced hs hplain

/-- The reducers agree on a plain event: they reach one state, or reject the event with one code. -/
theorem agree_apply {P : Port} (hP : P.Lawful) {s : State} {ev : Event} (hs : Rooted s)
    (hev : Canonical ev) (hplain : Plain s ev) : Agree Same (applyEvent s ev) (P.apply s ev) := by
  unfold applyEvent Port.apply
  rw [← read_eq_get (v := ev) (k := js "event_type") (by simp [inheritedNames])]
  cases htype : ev.read (js "event_type") with
  | none => exact .error (sameCode _)
  | some v =>
    cases v with
    | str type =>
      change Agree Same _ (do
        let t ← orErr .UNKNOWN_EVENT (EventType.ofStr? type)
        step P t s ev)
      dsimp only
      cases ht : EventType.ofStr? type with
      | none => exact .error (sameCode _)
      | some t =>
        rw [EventType.name_of_ofStr? ht] at htype
        exact agree_step hP hs hev t (hplain t htype)
    | _ => exact .error (sameCode _)

end ParadigmTerra.Ports
