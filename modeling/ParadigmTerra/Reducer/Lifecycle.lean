import ParadigmTerra.Reducer.Ledger

/-!
# The lifecycle of one CAL

When the reducer accepts the events of a CAL in flight, and what each of them moves. `EntryAt` is the
entry of the CAL at a stage, `Moves` what leaves the agent's balance and reaches the fees and the nonce.

Each event has one lemma: from the entry at the stage before, and under the event's own condition, the
event is accepted, the entry is at the next stage or gone, and so much is moved. `SameOutside` carries
the other namespaces along, so that deltas that commit on a state commit also after the events before
them (`foldlM_sameOutside`).
-/

namespace ParadigmTerra

open Text OrderedMap Fallible

/-- The nonce of an agent. -/
def nonceOf (s : State) (agent : Str) : ℤ := asBig (getIn s (noncePath agent)) 0

/-- What is moved from one state to another: `debit` from the agent's balance, `fee` to the fees and
`nonce` to the agent's nonce. -/
structure Moves (s t : State) (agent : Str) (debit fee nonce : ℤ) : Prop where
  bal : ∀ a, bal t a = if agent = a then bal s a - debit else bal s a
  fees : fees t = fees s + fee
  nonce : ∀ a, nonceOf t a = if agent = a then nonceOf s a + nonce else nonceOf s a

theorem Moves.refl (s : State) (agent : Str) : Moves s s agent 0 0 0 :=
  ⟨fun a => by split <;> omega, by omega, fun a => by split <;> omega⟩

theorem Moves.trans {s t u : State} {agent : Str} {d f n d' f' n' : ℤ} (h : Moves s t agent d f n)
    (h' : Moves t u agent d' f' n') : Moves s u agent (d + d') (f + f') (n + n') where
  bal a := by
    rw [h'.bal, h.bal]
    split <;> omega
  fees := by rw [h'.fees, h.fees]; omega
  nonce a := by
    rw [h'.nonce, h.nonce]
    split <;> omega

/-- The entry of a CAL in flight for the agent, at a stage. -/
structure EntryAt (s : State) (ch agent : Str) (stage : String) (m : List (Str × Json)) : Prop where
  entry : get ch (flights s) = some (.obj m)
  agent : get (js "agent_id") m = some (.str agent)
  stage : get (js "stage") m = some (.str (js stage))

/-- The namespaces of the ledger. -/
def ledgerNamespaces : List Str := [js "ptra", js "treasury", js "cal"]

/-- The states are objects with the same members, except for those of the ledger. -/
def SameOutside (s t : State) : Prop :=
  ∃ m m', s = .obj m ∧ t = .obj m' ∧ ∀ n, n ∉ ledgerNamespaces → get n m = get n m'

theorem SameOutside.trans {s t u : State} (h : SameOutside s t) (h' : SameOutside t u) :
    SameOutside s u := by
  obtain ⟨m, m', rfl, rfl, h⟩ := h
  obtain ⟨m'', m''', hm, rfl, h'⟩ := h'
  cases hm
  exact ⟨m, m''', rfl, rfl, fun n hn => (h n hn).trans (h' n hn)⟩

/-! ## The single writes -/

theorem nonceOf_eq (s : State) (a : Str) : nonceOf s a = asBig (ownIn s (noncePath a)) 0 :=
  asBig_getIn s (noncePath a) 0

theorem nonceOf_setIn_of_apart {p : List Str} {a : Str} (h : Apart p (noncePath a)) (s : State)
    (x : Json) : nonceOf (setIn (some s) p x) a = nonceOf s a := by
  rw [nonceOf_eq, nonceOf_eq, ownIn_setIn_of_apart h]

theorem moves_setBalance (s : State) (agent : Str) (n : ℤ) :
    Moves s (setBalance s agent n) agent (bal s agent - n) 0 0 where
  bal a := by
    rw [bal_setBalance]
    split
    · next h => subst h; omega
    · rfl
  fees := by rw [fees_setBalance]; omega
  nonce a := by
    rw [setBalance, nonceOf_setIn_of_apart (by simp)]
    split <;> omega

theorem moves_addFees (s : State) (agent : Str) (n : ℤ) : Moves s (addFees s n) agent 0 n 0 where
  bal a := by
    rw [bal_eq, bal_eq, balances_addFees]
    split <;> omega
  fees := fees_addFees s n
  nonce a := by
    rw [addFees, nonceOf_setIn_of_apart (by simp)]
    split <;> omega

/-- A write to the entries in flight moves nothing. -/
theorem moves_flight (s : State) (agent : Str) (p : List Str) (x : Json) :
    Moves s (setIn (some s) (js "cal" :: js "in_flight" :: p) x) agent 0 0 0 where
  bal a := by
    rw [bal_eq, bal_eq, balances_setIn_flight]
    split <;> omega
  fees := by rw [fees_setIn_flight]; omega
  nonce a := by
    rw [nonceOf_setIn_of_apart (by simp)]
    split <;> omega

/-- The end of an entry moves one nonce. -/
theorem moves_close (s : State) (agent ch : Str) :
    Moves s (deleteIn (some (bumpNonce s agent)) (flightPath ch)) agent 0 0 1 where
  bal a := by
    rw [bal_eq, bal_eq, balances_deleteIn, bumpNonce, balances_setIn_flight]
    split <;> omega
  fees := by rw [fees_deleteIn, bumpNonce, fees_setIn_flight]; omega
  nonce a := by
    rw [nonceOf_eq, ownIn_deleteIn_of_apart (by simp), bumpNonce]
    split
    · next h =>
      subst h
      rw [ownIn_setIn]
      rfl
    · next h => rw [ownIn_setIn_of_apart (by simpa using h), ← nonceOf_eq]

theorem flights_bumpNonce (s : State) (agent : Str) : flights (bumpNonce s agent) = flights s :=
  (sameLedger_bumpNonce s agent).flights

/-- A field of the entry set, other than the agent. -/
theorem EntryAt.setField {s : State} {ch agent : Str} {stage : String} {m : List (Str × Json)}
    (h : EntryAt s ch agent stage m) {f : String} (ha : js f ≠ js "agent_id")
    (hs : js f ≠ js "stage") (x : Json) :
    EntryAt (setIn (some s) (fieldPath ch f) x) ch agent stage (putMember (js f) x m) where
  entry := by rw [flights_setIn_fieldPath h.entry, get_put_self]
  agent := by rw [get_put_of_ne ha, h.agent]
  stage := by rw [get_put_of_ne hs, h.stage]

/-- The next stage of the entry. -/
theorem EntryAt.setStage {s : State} {ch agent : Str} {stage : String} {m : List (Str × Json)}
    (h : EntryAt s ch agent stage m) (next : String) :
    EntryAt (setIn (some s) (fieldPath ch "stage") (.str (js next))) ch agent next
      (putMember (js "stage") (.str (js next)) m) where
  entry := by rw [flights_setIn_fieldPath h.entry, get_put_self]
  agent := by rw [get_put_of_ne (by simp), h.agent]
  stage := get_put_self

theorem EntryAt.of_flights {s t : State} {ch agent : Str} {stage : String} {m : List (Str × Json)}
    (h : EntryAt s ch agent stage m) (hf : flights t = flights s) : EntryAt t ch agent stage m :=
  ⟨by rw [hf, h.entry], h.agent, h.stage⟩

theorem sameOutside_setIn {s : State} {m : List (Str × Json)} (hs : s = .obj m) {n : Str}
    (hn : n ∈ ledgerNamespaces) (p : List Str) (x : Json) :
    SameOutside s (setIn (some s) (n :: p) x) := by
  subst hs
  refine ⟨m, _, rfl, rfl, fun k hk => ?_⟩
  have hne : n ≠ k := fun h => hk (h ▸ hn)
  rw [get_put_of_ne hne]
  rfl

/-- A state with an entry in flight is an object. -/
theorem EntryAt.eq_obj {s : State} {ch agent : Str} {stage : String} {m : List (Str × Json)}
    (h : EntryAt s ch agent stage m) : ∃ m', s = .obj m' := by
  have he := h.entry
  rw [flights, tableIn] at he
  cases s with
  | obj m' => exact ⟨m', rfl⟩
  | _ => cases he

/-! ## Deltas outside the ledger -/

section Deltas

variable {s t s' : State}

/-- Reads outside the ledger agree. -/
theorem SameOutside.getIn (h : SameOutside s t) {n : Str} (hn : n ∉ ledgerNamespaces)
    (p : List Str) : getIn s (n :: p) = getIn t (n :: p) := by
  obtain ⟨m, m', rfl, rfl, h⟩ := h
  have hread : (Json.obj m).read n = (Json.obj m').read n := by rw [Json.read, Json.read, h n hn]
  rw [ParadigmTerra.getIn, ParadigmTerra.getIn, hread]
  rfl

theorem SameOutside.setIn (h : SameOutside s t) {n : Str} (hn : n ∉ ledgerNamespaces)
    (p : List Str) (x : Json) :
    SameOutside (setIn (some s) (n :: p) x) (setIn (some t) (n :: p) x) := by
  obtain ⟨m, m', rfl, rfl, h⟩ := h
  have hread : (Json.obj m).read n = (Json.obj m').read n := by rw [Json.read, Json.read, h n hn]
  refine ⟨_, _, rfl, rfl, fun k hk => ?_⟩
  simp only [baseOf, Json.isPlainObject, if_true, hread, Json.members, get_put, h k hk]

theorem SameOutside.deleteIn (h : SameOutside s t) {n : Str} (hn : n ∉ ledgerNamespaces)
    (p : List Str) : SameOutside (deleteIn (some s) (n :: p)) (deleteIn (some t) (n :: p)) := by
  obtain ⟨m, m', rfl, rfl, h⟩ := h
  have hread : (Json.obj m).read n = (Json.obj m').read n := by rw [Json.read, Json.read, h n hn]
  cases p with
  | nil =>
    refine ⟨_, _, rfl, rfl, fun k hk => ?_⟩
    rw [Json.members, Json.members, get_erase, get_erase, h k hk]
  | cons l p =>
    simp only [ParadigmTerra.deleteIn, Json.isPlainObject, if_true, hread]
    cases (Json.obj m').read n with
    | none => exact ⟨m, m', rfl, rfl, h⟩
    | some w =>
      refine ⟨_, _, rfl, rfl, fun k hk => ?_⟩
      simp only [Json.members, get_put, h k hk]

theorem SameOutside.enforceOwnerRecord (h : SameOutside s t) (full : List Str) :
    enforceOwnerRecord s full = enforceOwnerRecord t full := by
  have hregistry : js "registry" ∉ ledgerNamespaces := by simp [ledgerNamespaces]
  unfold ParadigmTerra.enforceOwnerRecord
  simp only [h.getIn hregistry]

/-- A delta outside the ledger does the same on both states. -/
theorem SameOutside.applyDeltaJson (h : SameOutside s t) {d : Json}
    (hd : AvoidsNamespaces ledgerNamespaces d) (hs : applyDeltaJson s d = .ok s') :
    ∃ t', applyDeltaJson t d = .ok t' ∧ SameOutside s' t' := by
  obtain ⟨ns, path, op, hns, htarget, hop⟩ := applyDeltaJson_eq_ok hs
  have hn : ns ∉ ledgerNamespaces := fun hmem => hd.ne hmem hns
  have hsame : ∃ t', applyOp t (ns :: path) op (d.read (js "value")) = .ok t' ∧
      SameOutside s' t' := by
    cases op with
    | set =>
      simp only [applyOp, bind_eq_ok, pure_eq_ok] at hop
      obtain ⟨_, he, rfl⟩ := hop
      have hset := h.setIn hn path (orElse (d.read (js "value")) .null)
      refine ⟨_, ?_, hset⟩
      rw [hset.enforceOwnerRecord] at he
      simp only [applyOp, he, ok_bind]
      rfl
    | delete =>
      cases hop
      exact ⟨_, rfl, h.deleteIn hn path⟩
    | add =>
      simp only [applyOp, h.getIn hn, bind_eq_ok, pure_eq_ok] at hop
      obtain ⟨cur, hcur, x, hx, _, hle, rfl⟩ := hop
      refine ⟨_, ?_, h.setIn hn path _⟩
      simp only [applyOp, hcur, hx, hle, ok_bind]
      rfl
    | sub =>
      simp only [applyOp, h.getIn hn, bind_eq_ok, pure_eq_ok] at hop
      obtain ⟨cur, hcur, x, hx, _, hle, rfl⟩ := hop
      refine ⟨_, ?_, h.setIn hn path _⟩
      simp only [applyOp, hcur, hx, hle, ok_bind]
      rfl
  obtain ⟨t', ht', hst⟩ := hsame
  exact ⟨t', applyDeltaJson_of_applyOp hs htarget ht', hst⟩

/-- Deltas outside the ledger commit on both states or on neither. -/
theorem foldlM_sameOutside {ds : List Json} (h : SameOutside s t)
    (hds : ∀ d ∈ ds, AvoidsNamespaces ledgerNamespaces d)
    (hs : ds.foldlM ParadigmTerra.applyDeltaJson s = .ok s') :
    ∃ t', ds.foldlM ParadigmTerra.applyDeltaJson t = .ok t' := by
  induction ds generalizing s t with
  | nil => exact ⟨t, rfl⟩
  | cons d ds ih =>
    obtain ⟨u, hu, hs⟩ := foldlM_cons_ok.mp hs
    obtain ⟨v, hv, hsame⟩ := h.applyDeltaJson (hds d (by simp)) hu
    obtain ⟨t', ht'⟩ := ih hsame (fun e he => hds e (by simp [he])) hs
    exact ⟨t', foldlM_cons_ok.mpr ⟨v, hv, ht'⟩⟩

/-- Deltas outside the ledger move nothing. -/
theorem moves_foldlM {ds : List Json} (agent : Str)
    (hds : ∀ d ∈ ds, AvoidsNamespaces ledgerNamespaces d)
    (hs : ds.foldlM ParadigmTerra.applyDeltaJson s = .ok t) : Moves s t agent 0 0 0 := by
  refine foldlM_invariant (P := fun u => Moves s u agent 0 0 0) (fun u d v hd hu huv => ?_) ?_ hs
  · have hsame := sameLedger_applyDeltaJson huv (hds d hd)
    refine ⟨fun a => ?_, ?_, fun a => ?_⟩
    · rw [bal_eq, hsame.balances, ← bal_eq, hu.bal]
    · rw [hsame.fees, hu.fees]
    · rw [nonceOf_eq, ownIn_applyDeltaJson huv ((hds d hd).ne (by simp [ledgerNamespaces])),
        ← nonceOf_eq, hu.nonce]
  · exact .refl s agent

end Deltas

/-! ## Reading events and entries -/

section Reading

variable {ev : Event} {k : String} {m : List (Str × Json)} {s : State} {ch agent : Str}
  {stage : String}

theorem reqStr_of_read {t : Str} (h : ev.read (js k) = some (.str t)) : reqStr ev k = .ok t := by
  rw [reqStr, h]
  rfl

theorem reqUint_of_read {n : ℤ} (h : ev.read (js k) = some (.int n)) (hn : IsUint n) :
    reqUint ev k = .ok n := by
  rw [reqUint, h]
  exact if_pos hn

theorem optUint_of_read {n : ℤ} (h : ev.read (js k) = some (.int n)) (hn : IsUint n) :
    optUint ev k = .ok n := by
  rw [optUint, h, Option.isSome_some, if_pos rfl, reqUint_of_read h hn]

theorem optUint_of_none (h : ev.read (js k) = none) : optUint ev k = .ok 0 := by
  rw [optUint, h]
  rfl

theorem EntryAt.requireFlight (h : EntryAt s ch agent stage m) :
    requireFlight s ch = .ok (.obj m) :=
  requireFlight_eq_ok.mpr (inFlight_of_get h.entry)

theorem EntryAt.readStage (h : EntryAt s ch agent stage m) :
    (Json.obj m).read (js "stage") = some (.str (js stage)) := by
  rw [read_obj_js not_inherited_stage, h.stage]

theorem EntryAt.requireStage (h : EntryAt s ch agent stage m) :
    requireStage (.obj m) stage = .ok () :=
  requireStage_eq_ok.mpr (by rw [isStr_iff, h.readStage])

theorem EntryAt.agentKey (h : EntryAt s ch agent stage m) : agentKey (.obj m) = .ok agent := by
  rw [ParadigmTerra.agentKey, read_obj_js not_inherited_agent_id, h.agent]
  rfl

/-- An event of a type, for a CAL. -/
structure IsEvent (ev : Event) (type : EventType) (ch : Str) : Prop where
  type : ev.read (js "event_type") = some (.str type.name)
  hash : ev.read (js "cal_hash") = some (.str ch)

theorem IsEvent.reqStr {type : EventType} (h : IsEvent ev type ch) :
    reqStr ev "cal_hash" = .ok ch := reqStr_of_read h.hash

/-- An event is applied by the step of its type. -/
theorem IsEvent.applyEvent {type : EventType} (h : IsEvent ev type ch) :
    applyEvent s ev = type.step s ev := by
  rw [ParadigmTerra.applyEvent, h.type]
  simp only [EventType.ofStr?_name]

theorem IsEvent.accepts {t : State} {type : EventType} (h : IsEvent ev type ch)
    (hs : type.step s ev = .ok t) : Accepts s ev t := by rw [accepts_iff, h.applyEvent, hs]

end Reading

/-! ## The events of the lifecycle -/

section Events

variable {s : State} {ev : Event} {ch agent : Str} {m : List (Str × Json)}

/-- The upfront deposit. -/
theorem accepts_validated (he : EntryAt s ch agent "SIGNED" m)
    (hev : IsEvent ev .validated ch) {escrow : ℤ}
    (hescrow : ev.read (js "escrow_ptra") = some (.int escrow)) (hu : IsUint escrow)
    (hbal : escrow ≤ bal s agent) :
    ∃ t m', Accepts s ev t ∧ EntryAt t ch agent "VALIDATED" m' ∧
      get (js "escrowed_ptra") m' = some (.int escrow) ∧ Moves s t agent escrow 0 0 ∧
      SameOutside s t := by
  obtain ⟨o, ho⟩ := he.eq_obj
  have he1 := he.of_flights (flights_setBalance s agent (bal s agent - escrow))
  have he2 := he1.setField (f := "escrowed_ptra") (by simp) (by simp) (.int escrow)
  have he3 := he2.setStage "VALIDATED"
  refine ⟨_, _, hev.accepts ?_, he3, ?_, ?_, ?_⟩
  · simp only [EventType.step, calValidated, hev.reqStr, he.requireFlight, he.requireStage,
      reqUint_of_read hescrow hu, he.agentKey, ok_bind, require, if_pos (not_lt.mpr hbal)]
    rfl
  · rw [get_put_of_ne (by simp), get_put_self]
  · have := ((moves_setBalance s agent (bal s agent - escrow)).trans
      (moves_flight _ agent [ch, js "escrowed_ptra"] (.int escrow))).trans
      (moves_flight _ agent [ch, js "stage"] (.str (js "VALIDATED")))
    simpa using this
  · have h1 := sameOutside_setIn ho (n := js "ptra") (by simp [ledgerNamespaces])
      [js "balances", agent] (.int (bal s agent - escrow))
    have h2 := sameOutside_setIn (he1.eq_obj.choose_spec) (n := js "cal")
      (by simp [ledgerNamespaces]) [js "in_flight", ch, js "escrowed_ptra"] (.int escrow)
    have h3 := sameOutside_setIn (he2.eq_obj.choose_spec) (n := js "cal")
      (by simp [ledgerNamespaces]) [js "in_flight", ch, js "stage"] (.str (js "VALIDATED"))
    exact (h1.trans h2).trans h3

/-- The effects are staged. -/
theorem accepts_executed (he : EntryAt s ch agent "VALIDATED" m)
    (hev : IsEvent ev .executed ch) {effects : List Json}
    (heffects : ev.read (js "effects") = some (.arr effects)) {gas : ℤ}
    (hgas : ev.read (js "gas_consumed_ptra") = some (.int gas)) (hu : IsUint gas) :
    ∃ t m', Accepts s ev t ∧ EntryAt t ch agent "EXECUTED" m' ∧
      get (js "escrowed_ptra") m' = get (js "escrowed_ptra") m ∧
      get (js "staged") m' = some (.arr effects) ∧ Moves s t agent 0 0 0 ∧ SameOutside s t := by
  have he1 := he.setField (f := "staged") (by simp) (by simp) (.arr effects)
  have he2 := he1.setField (f := "gas_consumed_ptra") (by simp) (by simp) (.int gas)
  have he3 := he2.setStage "EXECUTED"
  refine ⟨_, _, hev.accepts ?_, he3, ?_, ?_, ?_, ?_⟩
  · simp only [EventType.step, calExecuted, hev.reqStr, he.requireFlight, he.requireStage,
      reqUint_of_read hgas hu, heffects, ok_bind]
    rfl
  · rw [get_put_of_ne (by simp), get_put_of_ne (by simp), get_put_of_ne (by simp)]
  · rw [get_put_of_ne (by simp), get_put_of_ne (by simp), get_put_self]
  · have := ((moves_flight s agent [ch, js "staged"] (.arr effects)).trans
      (moves_flight _ agent [ch, js "gas_consumed_ptra"] (.int gas))).trans
      (moves_flight _ agent [ch, js "stage"] (.str (js "EXECUTED")))
    simpa using this
  · have h1 := sameOutside_setIn (he.eq_obj.choose_spec) (n := js "cal")
      (by simp [ledgerNamespaces]) [js "in_flight", ch, js "staged"] (.arr effects)
    have h2 := sameOutside_setIn (he1.eq_obj.choose_spec) (n := js "cal")
      (by simp [ledgerNamespaces]) [js "in_flight", ch, js "gas_consumed_ptra"] (.int gas)
    have h3 := sameOutside_setIn (he2.eq_obj.choose_spec) (n := js "cal")
      (by simp [ledgerNamespaces]) [js "in_flight", ch, js "stage"] (.str (js "EXECUTED"))
    exact (h1.trans h2).trans h3

theorem accepts_settled (he : EntryAt s ch agent "EXECUTED" m)
    (hev : IsEvent ev .settled ch) :
    ∃ t m', Accepts s ev t ∧ EntryAt t ch agent "SETTLED" m' ∧
      get (js "escrowed_ptra") m' = get (js "escrowed_ptra") m ∧
      get (js "staged") m' = get (js "staged") m ∧ Moves s t agent 0 0 0 ∧ SameOutside s t := by
  refine ⟨_, _, hev.accepts ?_, he.setStage "SETTLED", ?_, ?_,
    moves_flight s agent [ch, js "stage"] (.str (js "SETTLED")), ?_⟩
  · simp only [EventType.step, calSettled, hev.reqStr, he.requireFlight, he.requireStage,
      ok_bind]
    rfl
  · rw [get_put_of_ne (by simp)]
  · rw [get_put_of_ne (by simp)]
  · exact sameOutside_setIn (he.eq_obj.choose_spec) (n := js "cal") (by simp [ledgerNamespaces])
      [js "in_flight", ch, js "stage"] (.str (js "SETTLED"))

/-- The staging of effects and the step after it write the entry only. -/
theorem sameOutside_of_accepts {t : State} (he : ∃ o, s = .obj o) {type : EventType}
    (htype : type = .executed ∨ type = .settled) (hev : IsEvent ev type ch) (h : Accepts s ev t) :
    SameOutside s t ∧ ∃ o, t = .obj o := by
  have hcal : js "cal" ∈ ledgerNamespaces := by simp [ledgerNamespaces]
  obtain ⟨o, ho⟩ := he
  rw [accepts_iff, hev.applyEvent] at h
  rcases htype with rfl | rfl
  · simp only [EventType.step, calExecuted, bind_eq_ok] at h
    obtain ⟨c, -, e, -, -, -, h⟩ := h
    split at h
    · simp only [bind_eq_ok, pure_eq_ok] at h
      obtain ⟨gas, -, rfl⟩ := h
      exact ⟨((sameOutside_setIn ho hcal _ _).trans (sameOutside_setIn rfl hcal _ _)).trans
        (sameOutside_setIn rfl hcal _ _), _, rfl⟩
    · cases h
  · simp only [EventType.step, calSettled, bind_eq_ok, pure_eq_ok] at h
    obtain ⟨c, -, e, -, -, -, rfl⟩ := h
    exact ⟨sameOutside_setIn ho hcal _ _, _, rfl⟩

/-- An escrow that covers the refund is settled: the agent gets the refund, and the fees the rest. -/
theorem settleEscrow_moves (s : State) {stage : String} {s₀ : State}
    (he : EntryAt s₀ ch agent stage m) {escrow refund : ℤ}
    (hescrow : get (js "escrowed_ptra") m = some (.int escrow)) (hpos : 0 ≤ refund)
    (hle : refund ≤ escrow) :
    ∃ t, settleEscrow s (.obj m) refund = .ok t ∧ Moves s t agent (-refund) (escrow - refund) 0 := by
  have hread : (Json.obj m).read (js "escrowed_ptra") = some (.int escrow) := by
    rw [read_obj_js not_inherited_escrowed, hescrow]
  unfold settleEscrow refundAgent
  split
  · simp only [he.agentKey, ok_bind, hread, require, if_pos (not_lt.mpr hle)]
    refine ⟨_, rfl, ?_⟩
    have := (moves_setBalance s agent (bal s agent + refund)).trans
      (moves_addFees _ agent (escrow - refund))
    simpa using this
  · obtain rfl : refund = 0 := by omega
    simp only [ok_bind, hread, require, if_pos (not_lt.mpr hle)]
    exact ⟨_, rfl, by simpa using moves_addFees s agent (escrow - 0)⟩

/-- The end of the entry. -/
theorem closeFlight_moves (s : State) {stage : String} {s₀ : State}
    (he : EntryAt s₀ ch agent stage m) :
    ∃ t, closeFlight s (.obj m) ch = .ok t ∧ get ch (flights t) = none ∧ Moves s t agent 0 0 1 := by
  refine ⟨deleteIn (some (bumpNonce s agent)) (flightPath ch), ?_, ?_, moves_close s agent ch⟩
  · rw [closeFlight, he.agentKey]
    rfl
  · rw [flights_deleteIn, get_erase_self]

/-- The staged deltas are committed on the state, and the escrow is settled after them. -/
theorem accepts_finalized (he : EntryAt s ch agent "SETTLED" m)
    (hev : IsEvent ev .finalized ch) {refund escrow : ℤ}
    (hrefund : ev.read (js "gas_refunded_ptra") = some (.int refund)) (hu : IsUint refund)
    (hescrow : get (js "escrowed_ptra") m = some (.int escrow)) (hle : refund ≤ escrow)
    {staged : List Json} (hstaged : get (js "staged") m = some (.arr staged)) {u : State}
    (hcommit : staged.foldlM applyDeltaJson s = .ok u) :
    ∃ t, Accepts s ev t ∧ get ch (flights t) = none ∧
      Moves u t agent (-refund) (escrow - refund) 1 := by
  obtain ⟨v, hv, hmv⟩ := settleEscrow_moves u he hescrow hu.1 hle
  obtain ⟨t, ht, hnone, hmt⟩ := closeFlight_moves v he
  refine ⟨t, hev.accepts ?_, hnone, by simpa using hmv.trans hmt⟩
  have hread : (Json.obj m).read (js "staged") = some (.arr staged) := by
    rw [read_obj_js not_inherited_staged, hstaged]
  simp only [EventType.step, calFinalized, hev.reqStr, he.requireFlight, he.requireStage,
    optUint_of_read hrefund hu, hread, iterate, pure, Except.pure, ok_bind, hcommit, hv, ht]

/-- The types of the events that end a CAL without committing its effects. -/
def EventType.Drops (type : EventType) : Prop := type = .failed ∨ type = .expired

theorem EventType.Drops.step {type : EventType} (h : type.Drops) : type.step = calFailed := by
  rcases h with rfl | rfl <;> rfl

/-- A failure or an expiry before the escrow takes the charge of the event. -/
theorem accepts_dropped_early {type : EventType} (hdrops : type.Drops)
    (he : EntryAt s ch agent "SIGNED" m) (hev : IsEvent ev type ch) {charge : ℤ}
    (hcharge : optUint ev "fee_debited_ptra" = .ok charge) (hbal : charge ≤ bal s agent) :
    ∃ t, Accepts s ev t ∧ get ch (flights t) = none ∧ Moves s t agent charge charge 1 := by
  have hpos := (optUint_eq_ok hcharge).1
  obtain ⟨u, hu, hmu⟩ : ∃ u, chargeNow s (.obj m) charge = .ok u ∧
      Moves s u agent charge charge 0 := by
    simp only [chargeNow, he.agentKey, ok_bind, require, if_pos (not_lt.mpr hbal)]
    split
    · have := (moves_setBalance s agent (bal s agent - charge)).trans
        (moves_addFees _ agent charge)
      exact ⟨_, rfl, by simpa using this⟩
    · obtain rfl : charge = 0 := by omega
      exact ⟨_, rfl, moves_addFees s agent 0⟩
  obtain ⟨t, ht, hnone, hmt⟩ := closeFlight_moves u he
  refine ⟨t, hev.accepts ?_, hnone, by simpa using hmu.trans hmt⟩
  have hearly : (isStr ((Json.obj m).read (js "stage")) (js "CREATED") ||
      isStr ((Json.obj m).read (js "stage")) (js "SIGNED")) = true := by
    simp [he.readStage, isStr]
  simp only [hdrops.step, calFailed, hev.reqStr, he.requireFlight, ok_bind, settleFailed,
    hearly, if_true, hcharge, hu, ht]

/-- A failure or an expiry after the escrow settles it. -/
theorem accepts_dropped_late {type : EventType} (hdrops : type.Drops) {stage : String}
    (he : EntryAt s ch agent stage m) (hstage : js stage ≠ js "CREATED" ∧ js stage ≠ js "SIGNED")
    (hev : IsEvent ev type ch) {refund escrow : ℤ}
    (hrefund : ev.read (js "gas_refunded_ptra") = some (.int refund)) (hu : IsUint refund)
    (hescrow : get (js "escrowed_ptra") m = some (.int escrow)) (hle : refund ≤ escrow) :
    ∃ t, Accepts s ev t ∧ get ch (flights t) = none ∧
      Moves s t agent (-refund) (escrow - refund) 1 := by
  obtain ⟨u, hu', hmu⟩ := settleEscrow_moves s he hescrow hu.1 hle
  obtain ⟨t, ht, hnone, hmt⟩ := closeFlight_moves u he
  refine ⟨t, hev.accepts ?_, hnone, by simpa using hmu.trans hmt⟩
  have hlate : (isStr ((Json.obj m).read (js "stage")) (js "CREATED") ||
      isStr ((Json.obj m).read (js "stage")) (js "SIGNED")) = false := by
    simp [he.readStage, isStr, hstage.1, hstage.2]
  simp only [hdrops.step, calFailed, hev.reqStr, he.requireFlight, ok_bind, settleFailed,
    hlate, Bool.false_eq_true, if_false, optUint_of_read hrefund hu, hu', ht]

/-- The reducer reads the refund of a failure or an expiry after the escrow as a uint256. -/
theorem refund_of_dropped_late {type : EventType} (hdrops : type.Drops) {stage : String}
    (he : EntryAt s ch agent stage m) (hstage : js stage ≠ js "CREATED" ∧ js stage ≠ js "SIGNED")
    (hev : IsEvent ev type ch) {refund : ℤ}
    (hrefund : ev.read (js "gas_refunded_ptra") = some (.int refund)) {t : State}
    (h : Accepts s ev t) : IsUint refund := by
  have hlate : (isStr ((Json.obj m).read (js "stage")) (js "CREATED") ||
      isStr ((Json.obj m).read (js "stage")) (js "SIGNED")) = false := by
    simp [he.readStage, isStr, hstage.1, hstage.2]
  rw [accepts_iff, hev.applyEvent] at h
  simp only [hdrops.step, calFailed, hev.reqStr, he.requireFlight,
    ok_bind, settleFailed, hlate, Bool.false_eq_true, if_false, bind_eq_ok, optUint, hrefund,
    Option.isSome_some, if_true] at h
  obtain ⟨-, ⟨n, hn, -⟩, -⟩ := h
  obtain ⟨hread, hu⟩ := reqUint_eq_ok hn
  rw [hrefund, Option.some.injEq, Json.int.injEq] at hread
  exact hread ▸ hu

end Events

/-! ## The events of the other CALs -/

/-- An event is not of this CAL, and commits nothing to `cal`. -/
def Elsewhere (ch : Str) (s : State) (ev : Event) : Prop :=
  isStr (ev.read (js "cal_hash")) ch = false ∧ ∀ d ∈ committed s ev, AvoidsNamespaces [js "cal"] d

instance (ch : Str) (s : State) (ev : Event) : Decidable (Elsewhere ch s ev) := by
  unfold Elsewhere; infer_instance

section Others

variable {s t : State} {ev : Event} {ch : Str}

theorem ne_of_elsewhere (h : isStr (ev.read (js "cal_hash")) ch = false) {c : Str}
    (hc : reqStr ev "cal_hash" = .ok c) : c ≠ ch := by
  rintro rfl
  rw [isStr_iff.mpr (reqStr_eq_ok hc)] at h
  cases h

/-- A field of another entry set, or the entry made. -/
theorem get_flights_setIn {c : Str} (hne : c ≠ ch) (f : String) (x : Json) :
    get ch (flights (setIn (some s) (fieldPath c f) x)) = get ch (flights s) := by
  have hap : Apart (fieldPath c f) (flightPath ch) := by simpa using hne
  have hown : ∀ v, ownIn v (flightPath ch) = (get ch (flights v)) := by
    intro v
    rw [show flightPath ch = [js "cal", js "in_flight"] ++ [ch] from rfl, ownIn_tableIn, ← flights]
    cases get ch (flights v) <;> rfl
  rw [← hown, ← hown, ownIn_setIn_of_apart hap]

theorem flights_settleEscrow {h : Json} {refund : ℤ} (hs : settleEscrow s h refund = .ok t) :
    flights t = flights s := by
  obtain ⟨e, m, -, -, -, ⟨-, a, -, rfl⟩ | ⟨-, rfl⟩⟩ := settleEscrow_eq_ok hs
  · rw [flights_addFees, flights_setBalance]
  · rw [flights_addFees]

theorem get_flights_closeFlight {h : Json} {c : Str} (hne : c ≠ ch)
    (hc : closeFlight s h c = .ok t) : get ch (flights t) = get ch (flights s) := by
  obtain ⟨a, -, rfl⟩ := closeFlight_eq_ok hc
  rw [flights_deleteIn, get_erase_of_ne hne, flights_bumpNonce]

theorem flights_foldlM {ds : List Json} (hds : ∀ d ∈ ds, AvoidsNamespaces [js "cal"] d)
    (hs : ds.foldlM applyDeltaJson s = .ok t) : flights t = flights s := by
  refine foldlM_invariant (P := fun u => flights u = flights s) (fun u d v hd hu huv => ?_) rfl hs
  rw [← hu, flights, flights, tableIn, ownIn_applyDeltaJson huv ((hds d hd).ne (by simp)), tableIn]

/-- An event of another CAL leaves the entry. -/
theorem get_flights_of_elsewhere (hev : Elsewhere ch s ev) (h : Accepts s ev t) :
    get ch (flights t) = get ch (flights s) := by
  obtain ⟨hhash, hout⟩ := hev
  obtain ⟨type, htype, h⟩ := accepts_step h
  cases type with
  | created =>
    simp only [EventType.step, calCreated, bind_eq_ok, pure_eq_ok] at h
    obtain ⟨c, hc, agent, -, -, -, -, -, rfl⟩ := h
    rw [flights_setIn_flightPath, get_put_of_ne (ne_of_elsewhere hhash hc)]
  | signed =>
    simp only [EventType.step, calSigned, bind_eq_ok, pure_eq_ok] at h
    obtain ⟨c, hc, e, -, -, -, rfl⟩ := h
    exact get_flights_setIn (ne_of_elsewhere hhash hc) _ _
  | validated =>
    simp only [EventType.step, calValidated, bind_eq_ok, pure_eq_ok] at h
    obtain ⟨c, hc, e, -, -, -, escrow, -, a, -, -, -, rfl⟩ := h
    have hne := ne_of_elsewhere hhash hc
    rw [get_flights_setIn hne, get_flights_setIn hne, flights_setBalance]
  | executed =>
    simp only [EventType.step, calExecuted, bind_eq_ok] at h
    obtain ⟨c, hc, e, -, -, -, h⟩ := h
    have hne := ne_of_elsewhere hhash hc
    split at h
    · simp only [bind_eq_ok, pure_eq_ok] at h
      obtain ⟨gas, -, rfl⟩ := h
      rw [get_flights_setIn hne, get_flights_setIn hne, get_flights_setIn hne]
    · cases h
  | settled =>
    simp only [EventType.step, calSettled, bind_eq_ok, pure_eq_ok] at h
    obtain ⟨c, hc, e, -, -, -, rfl⟩ := h
    exact get_flights_setIn (ne_of_elsewhere hhash hc) _ _
  | finalized =>
    simp only [EventType.step, calFinalized, bind_eq_ok] at h
    obtain ⟨c, hc, e, hf, -, -, refund, -, staged, hstaged, u, hu, v, hv, hclose⟩ := h
    rw [committed_of_finalized htype hc hf hstaged] at hout
    rw [get_flights_closeFlight (ne_of_elsewhere hhash hc) hclose, flights_settleEscrow hv,
      flights_foldlM hout hu]
  | failed | expired =>
    simp only [EventType.step, calFailed, bind_eq_ok] at h
    obtain ⟨c, hc, e, -, u, hu, hclose⟩ := h
    rw [get_flights_closeFlight (ne_of_elsewhere hhash hc) hclose]
    unfold settleFailed at hu
    split at hu
    · simp only [chargeNow, bind_eq_ok, pure_eq_ok] at hu
      obtain ⟨charge, -, a, -, -, -, rfl⟩ := hu
      split <;> simp
    · rw [bind_eq_ok] at hu
      obtain ⟨refund, -, hu⟩ := hu
      rw [flights_settleEscrow hu]
  | transferred =>
    simp only [EventType.step, ptraTransferred, bind_eq_ok, pure_eq_ok] at h
    obtain ⟨sender, -, recipient, -, amount, -, -, -, rfl⟩ := h
    simp
  | shadow_init =>
    simp only [EventType.step, ptraShadowInit, bind_eq_ok] at h
    obtain ⟨addr, -, h⟩ := h
    split at h
    · exact pure_eq_ok.mp h ▸ rfl
    · rw [← pure_eq_ok.mp h, flights_setBalance]
  | feed_submitted =>
    simp only [EventType.step, oracleFeedSubmitted, bind_eq_ok, pure_eq_ok] at h
    obtain ⟨symbol, -, rfl⟩ := h
    rw [flights, tableIn_setIn_of_apart (by simp), ← flights]
  | tick_advanced =>
    simp only [EventType.step, tickAdvanced, bind_eq_ok] at h
    obtain ⟨next, -, h⟩ := h
    split at h
    · simp only [bind_eq_ok, pure_eq_ok] at h
      obtain ⟨-, -, rfl⟩ := h
      rw [recomputeBounded, flights, tableIn_setIn_of_apart (by simp),
        tableIn_setIn_of_apart (by simp), ← flights]
    · simp only [bind_eq_ok, throw_eq_ok, and_false, exists_false] at h

/-- Over a run of the other CALs, the entry of this one stays as it is. -/
theorem EntryAt.run {agent : Str} {stage : String} {m : List (Str × Json)} {evs : List Event}
    (he : EntryAt s ch agent stage m) (h : Run (Elsewhere ch) s evs t) :
    EntryAt t ch agent stage m :=
  h.invariant (P := fun u => EntryAt u ch agent stage m)
    (fun _ _ _ hev hacc hu => ⟨by rw [get_flights_of_elsewhere hev hacc, hu.entry], hu.agent,
      hu.stage⟩) he

end Others

end ParadigmTerra
