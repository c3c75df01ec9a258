import ParadigmTerra.Reducer.Ledger

/-!
# Conservation of PTRA

No event creates or destroys PTRA: `totalPtra`, the sum of the balances, the escrows in flight and the
fees collected, is the same after every run from a state with nothing in flight, as long as the deltas
that finalized CALs commit keep out of the ledger (`conservation`).

The invariant carried along the run is `FlightsOk`: an entry that has not reached VALIDATED holds no
escrow, so that the charge of an early failure is the whole of what the entry settles.
-/

namespace ParadigmTerra

open Text OrderedMap Fallible

/-- All the PTRA there is. -/
def totalPtra (s : State) : ℤ :=
  total intOf (balances s) + total escrowOf (flights s) + fees s

/-- The stages before any escrow. -/
def isEarly (h : Json) : Bool :=
  isStr (h.read (js "stage")) (js "CREATED") || isStr (h.read (js "stage")) (js "SIGNED")

/-- What the events keep of the entries in flight: one for each CAL, none with an escrow before
VALIDATED. -/
structure FlightsOk (s : State) : Prop where
  normal : Normal keyBefore (flights s)
  early : ∀ ch h, get ch (flights s) = some h → isEarly h = true → escrowOf h = 0

/-- The invariant of conservation. -/
structure Conserves (c : ℤ) (s : State) : Prop extends FlightsOk s where
  total : totalPtra s = c

/-- The deltas that the event commits keep out of the ledger. -/
def CommitsOutside (s : State) (ev : Event) : Prop :=
  ∀ d ∈ committed s ev, AvoidsNamespaces [js "ptra", js "treasury", js "cal"] d

instance (s : State) (ev : Event) : Decidable (CommitsOutside s ev) := by
  unfold CommitsOutside; infer_instance

/-! ## Steps on the ledger -/

theorem totalPtra_congr {s t : State} (h : SameLedger s t) : totalPtra t = totalPtra s := by
  rw [totalPtra, h.balances, h.flights, h.fees, totalPtra]

theorem FlightsOk.congr {s t : State} (hs : FlightsOk s) (h : flights t = flights s) :
    FlightsOk t where
  normal := h ▸ hs.normal
  early := h ▸ hs.early

theorem Conserves.congr {c : ℤ} {s t : State} (hs : Conserves c s) (h : SameLedger s t) :
    Conserves c t where
  toFlightsOk := hs.toFlightsOk.congr h.flights
  total := (totalPtra_congr h).trans hs.total

/-- Setting a balance changes the total by the difference. -/
theorem totalPtra_setBalance (s : State) (a : Str) (n : ℤ) :
    totalPtra (setBalance s a n) = totalPtra s - bal s a + n := by
  rw [totalPtra, totalPtra, balances_setBalance, flights_setBalance, fees_setBalance, total_put,
    bal_eq, intOf_int]
  omega

theorem totalPtra_addFees (s : State) (n : ℤ) : totalPtra (addFees s n) = totalPtra s + n := by
  rw [totalPtra, totalPtra, balances_addFees, flights_addFees, fees_addFees]
  omega

/-- An entry set in the place of what stood there. -/
theorem totalPtra_of_flights_put {s t : State} {ch : Str} {h : Json}
    (hf : flights t = putMember ch h (flights s)) (hb : balances t = balances s)
    (hc : fees t = fees s) :
    totalPtra t = totalPtra s - amount escrowOf (get ch (flights s)) + escrowOf h := by
  rw [totalPtra, totalPtra, hf, hb, hc, total_put]
  omega

theorem FlightsOk.put {s t : State} {ch : Str} {h : Json} (hs : FlightsOk s)
    (hf : flights t = putMember ch h (flights s)) (hh : isEarly h = true → escrowOf h = 0) :
    FlightsOk t where
  normal := hf ▸ hs.normal.put keyBefore_trans keyBefore_asymm ch h
  early := by
    intro c x hx he
    rw [hf, get_put] at hx
    split at hx
    · cases hx
      exact hh he
    · exact hs.early c x hx he

/-- An entry rewritten without a change of its escrow. -/
theorem Conserves.put {c : ℤ} {s t : State} {ch : Str} {h : Json} (hs : Conserves c s)
    (hf : flights t = putMember ch h (flights s)) (hb : balances t = balances s)
    (hc : fees t = fees s) (hh : isEarly h = true → escrowOf h = 0)
    (he : escrowOf h = amount escrowOf (get ch (flights s))) : Conserves c t where
  toFlightsOk := hs.toFlightsOk.put hf hh
  total := by rw [totalPtra_of_flights_put hf hb hc, ← hs.total]; omega

/-- Removing an entry takes its escrow out of the total. -/
theorem closeFlight_conserves {c : ℤ} {s t : State} {ch : Str} {m : List (Str × Json)}
    (hs : FlightsOk s) (hm : get ch (flights s) = some (.obj m))
    (ht : totalPtra s = c + escrowOf (.obj m)) (hc : closeFlight s (.obj m) ch = .ok t) :
    Conserves c t := by
  obtain ⟨a, -, rfl⟩ := closeFlight_eq_ok hc
  have hn := sameLedger_bumpNonce s a
  have hf := flights_deleteIn (bumpNonce s a) ch
  rw [hn.flights] at hf
  refine ⟨⟨hf ▸ hs.normal.erase ch, fun c x hx he => ?_⟩, ?_⟩
  · rw [hf, get_erase] at hx
    split at hx
    · cases hx
    · exact hs.early c x hx he
  · rw [totalPtra, balances_deleteIn, fees_deleteIn, hn.balances, hn.fees, hf,
      total_erase _ hs.normal.nodup, hm, amount_some]
    rw [totalPtra] at ht
    omega

/-- The members of an entry that a field write changes. -/
theorem isEarly_putMember {m : List (Str × Json)} {f : String} (hf : f ≠ "stage") (x : Json) :
    isEarly (.obj (putMember (js f) x m)) = isEarly (.obj m) := by
  have h : get (js "stage") (putMember (js f) x m) = get (js "stage") m :=
    get_put_of_ne (by simpa using hf)
  unfold isEarly
  rw [read_obj_js not_inherited_stage, read_obj_js not_inherited_stage, h]

theorem isEarly_stage (m : List (Str × Json)) (stage : String) :
    isEarly (.obj (putMember (js "stage") (.str (js stage)) m)) =
      decide (stage = "CREATED" ∨ stage = "SIGNED") := by
  unfold isEarly
  rw [read_obj_js not_inherited_stage, get_put_self]
  simp [isStr]

theorem escrowOf_putMember {m : List (Str × Json)} {f : String} (hf : f ≠ "escrowed_ptra")
    (x : Json) : escrowOf (.obj (putMember (js f) x m)) = escrowOf (.obj m) := by
  unfold escrowOf Json.members
  rw [get_put_of_ne (by simpa using hf)]

theorem stage_ne_escrowed : "stage" ≠ "escrowed_ptra" := by decide

/-- A field of an entry set, other than the escrow. -/
theorem conserves_setField {c : ℤ} {s : State} {ch : Str} {m : List (Str × Json)} {f : String}
    {x : Json} (hs : Conserves c s) (hm : get ch (flights s) = some (.obj m))
    (hf : f ≠ "escrowed_ptra")
    (he : isEarly (.obj (putMember (js f) x m)) = true → isEarly (.obj m) = true) :
    Conserves c (setIn (some s) (fieldPath ch f) x) := by
  refine hs.put (flights_setIn_fieldPath hm f x) (balances_setIn_flight s _ x)
    (fees_setIn_flight s _ x) (fun h => ?_) ?_
  · rw [escrowOf_putMember hf]
    exact hs.early ch _ hm (he h)
  · rw [escrowOf_putMember hf, hm, amount_some]

/-! ## The events -/

/-- A new entry holds no escrow. -/
theorem calCreated_conserves {c : ℤ} {s t : State} {ev : Event} (hs : Conserves c s)
    (h : calCreated s ev = .ok t) : Conserves c t := by
  simp only [calCreated, bind_eq_ok, require_eq_ok, pure_eq_ok] at h
  obtain ⟨ch, -, agent, -, -, hnone, -, -, rfl⟩ := h
  have hzero : escrowOf (newEntry agent) = 0 := by
    simp [escrowOf, newEntry, Json.members, OrderedMap.get, asBig]
  refine hs.put (flights_setIn_flightPath s ch _) (balances_setIn_flight s _ _)
    (fees_setIn_flight s _ _) (fun _ => hzero) ?_
  rw [hzero]
  cases hg : get ch (flights s) with
  | none => rfl
  | some v =>
    rw [Option.isNone_iff_eq_none] at hnone
    rw [amount_some, escrowOf, get_flights_of_inFlight_none hnone hg]
    rfl

/-- A change of stage alone. -/
theorem stage_conserves {c : ℤ} {s : State} {ch : Str} {m : List (Str × Json)} {stage : String}
    (hs : Conserves c s) (hm : get ch (flights s) = some (.obj m))
    (he : stage = "CREATED" ∨ stage = "SIGNED" → isEarly (.obj m) = true) :
    Conserves c (setIn (some s) (fieldPath ch "stage") (.str (js stage))) := by
  refine conserves_setField hs hm (by decide) fun h => he ?_
  rw [isEarly_stage] at h
  simpa using h

theorem isEarly_of_stage {m : List (Str × Json)} {stage : String}
    (h : get (js "stage") m = some (.str (js stage))) :
    isEarly (.obj m) = decide (stage = "CREATED" ∨ stage = "SIGNED") := by
  unfold isEarly
  rw [read_obj_js not_inherited_stage, h]
  simp [isStr]

theorem calSigned_conserves {c : ℤ} {s t : State} {ev : Event} (hs : Conserves c s)
    (h : calSigned s ev = .ok t) : Conserves c t := by
  simp only [calSigned, bind_eq_ok, pure_eq_ok] at h
  obtain ⟨ch, -, h, hf, _, hst, rfl⟩ := h
  obtain ⟨m, rfl, hm, hstage⟩ := flight_at_stage hf hst
  exact stage_conserves hs hm fun _ => by simp [isEarly_of_stage hstage]

theorem calSettled_conserves {c : ℤ} {s t : State} {ev : Event} (hs : Conserves c s)
    (h : calSettled s ev = .ok t) : Conserves c t := by
  simp only [calSettled, bind_eq_ok, pure_eq_ok] at h
  obtain ⟨ch, -, h, hf, _, hst, rfl⟩ := h
  obtain ⟨m, rfl, hm, -⟩ := flight_at_stage hf hst
  exact stage_conserves hs hm (by simp)

/-- The deposit moves from the balance to the escrow, which was empty. -/
theorem calValidated_conserves {c : ℤ} {s t : State} {ev : Event} (hs : Conserves c s)
    (h : calValidated s ev = .ok t) : Conserves c t := by
  simp only [calValidated, bind_eq_ok, require_eq_ok, pure_eq_ok] at h
  obtain ⟨ch, -, h, hf, _, hst, e, -, a, -, -, -, rfl⟩ := h
  obtain ⟨m, rfl, hm, hstage⟩ := flight_at_stage hf hst
  have hzero : escrowOf (.obj m) = 0 := hs.early ch _ hm (by simp [isEarly_of_stage hstage])
  generalize hs1 : setBalance s a (bal s a - e) = s1
  have hm1 : get ch (flights s1) = some (.obj m) := by rw [← hs1, flights_setBalance, hm]
  have ht1 : totalPtra s1 = c - e := by rw [← hs1, totalPtra_setBalance, ← hs.total]; omega
  have hf2 := flights_setIn_fieldPath hm1 "escrowed_ptra" (.int e)
  generalize hs2 : setIn (some s1) (fieldPath ch "escrowed_ptra") (.int e) = s2 at hf2
  have hm2 : get ch (flights s2) = some (.obj (putMember (js "escrowed_ptra") (.int e) m)) := by
    rw [hf2, get_put_self]
  have hesc : escrowOf (.obj (putMember (js "escrowed_ptra") (.int e) m)) = e := by
    rw [escrowOf, Json.members, get_put_self]
    rfl
  have ht2 : totalPtra s2 = c := by
    rw [totalPtra_of_flights_put hf2 (hs2 ▸ balances_setIn_flight s1 _ _)
      (hs2 ▸ fees_setIn_flight s1 _ _), ht1, hm1, amount_some, hzero, hesc]
    omega
  have hf3 := flights_setIn_fieldPath hm2 "stage" (.str (js "VALIDATED"))
  -- both writes together: one entry, past the early stages
  have hf : flights (setIn (some s2) (fieldPath ch "stage") (.str (js "VALIDATED"))) =
      putMember ch _ (flights s2) := hf3
  have hlate : isEarly (.obj (putMember (js "stage") (.str (js "VALIDATED"))
      (putMember (js "escrowed_ptra") (.int e) m))) = false := by
    rw [isEarly_stage]
    simp
  refine ⟨⟨?_, ?_⟩, ?_⟩
  · rw [hf, hf2, ← hs1, flights_setBalance]
    exact (hs.normal.put keyBefore_trans keyBefore_asymm ch _).put keyBefore_trans keyBefore_asymm ch _
  · intro k x hx he
    rw [hf, get_put] at hx
    split at hx
    · cases hx
      rw [hlate] at he
      cases he
    · next hne =>
      rw [hf2, get_put_of_ne hne, ← hs1, flights_setBalance] at hx
      exact hs.early k x hx he
  · rw [totalPtra_of_flights_put hf (balances_setIn_flight s2 _ _) (fees_setIn_flight s2 _ _), ht2,
      hm2, amount_some, escrowOf_putMember stage_ne_escrowed]
    omega

theorem calExecuted_conserves {c : ℤ} {s t : State} {ev : Event} (hs : Conserves c s)
    (h : calExecuted s ev = .ok t) : Conserves c t := by
  simp only [calExecuted, bind_eq_ok] at h
  obtain ⟨ch, -, h, hf, _, hst, h⟩ := h
  obtain ⟨m, rfl, hm, hstage⟩ := flight_at_stage hf hst
  split at h
  · next effects _ =>
    simp only [bind_eq_ok, pure_eq_ok] at h
    obtain ⟨gas, -, rfl⟩ := h
    have h1 : Conserves c (setIn (some s) (fieldPath ch "staged") (.arr effects)) :=
      conserves_setField hs hm (by decide) (by rw [isEarly_putMember (by decide)]; exact id)
    have hm1 := flights_setIn_fieldPath hm "staged" (.arr effects)
    generalize setIn (some s) (fieldPath ch "staged") (.arr effects) = s1 at h1 hm1 ⊢
    have hg1 : get ch (flights s1) = some (.obj (putMember (js "staged") (.arr effects) m)) := by
      rw [hm1, get_put_self]
    have h2 : Conserves c (setIn (some s1) (fieldPath ch "gas_consumed_ptra") (.int gas)) :=
      conserves_setField h1 hg1 (by decide) (by rw [isEarly_putMember (by decide)]; exact id)
    have hm2 := flights_setIn_fieldPath hg1 "gas_consumed_ptra" (.int gas)
    generalize setIn (some s1) (fieldPath ch "gas_consumed_ptra") (.int gas) = s2 at h2 hm2 ⊢
    have hg2 : get ch (flights s2) = some (.obj (putMember (js "gas_consumed_ptra") (.int gas)
        (putMember (js "staged") (.arr effects) m))) := by rw [hm2, get_put_self]
    exact stage_conserves h2 hg2 (by simp)
  · cases h

/-- The escrow is paid out, and the entry that held it is removed. -/
theorem settle_conserves {c : ℤ} {s u t : State} {m : List (Str × Json)} {ch : Str} {refund : ℤ}
    (hs : Conserves c s) (hm : get ch (flights s) = some (.obj m)) (hr : 0 ≤ refund)
    (h1 : settleEscrow s (.obj m) refund = .ok u) (h2 : closeFlight u (.obj m) ch = .ok t) :
    Conserves c t := by
  obtain ⟨e, m', hm', he, -, hcase⟩ := settleEscrow_eq_ok h1
  cases hm'
  have hesc : escrowOf (.obj m) = e := by rw [escrowOf, Json.members, he]; rfl
  have hflights : flights u = flights s := by
    rcases hcase with ⟨-, a, -, rfl⟩ | ⟨-, rfl⟩ <;> simp
  refine closeFlight_conserves (hs.toFlightsOk.congr hflights) (hflights ▸ hm) ?_ h2
  rcases hcase with ⟨-, a, -, rfl⟩ | ⟨hneg, rfl⟩
  · rw [totalPtra_addFees, totalPtra_setBalance, hs.total, hesc]
    omega
  · rw [totalPtra_addFees, hs.total, hesc]
    omega

theorem calFinalized_conserves {c : ℤ} {s t : State} {ev : Event} (hs : Conserves c s)
    (hev : ev.read (js "event_type") = some (.str EventType.finalized.name))
    (hout : CommitsOutside s ev) (h : calFinalized s ev = .ok t) : Conserves c t := by
  simp only [calFinalized, bind_eq_ok] at h
  obtain ⟨ch, hch, h, hf, _, hst, refund, hr, staged, hstaged, s1, hs1, s2, h2, h3⟩ := h
  obtain ⟨m, rfl, hm, -⟩ := flight_at_stage hf hst
  have hcom : committed s ev = staged := committed_of_finalized hev hch hf hstaged
  have hsame : SameLedger s s1 := foldlM_invariant
    (fun u d v hd hu huv => hu.trans (sameLedger_applyDeltaJson huv (hout d (hcom ▸ hd))))
    (SameLedger.refl s) hs1
  exact settle_conserves (hs.congr hsame) (hsame.flights ▸ hm) (optUint_eq_ok hr).1 h2 h3

/-- An early failure takes its charge from the balance; a late one settles the escrow. -/
theorem calFailed_conserves {c : ℤ} {s t : State} {ev : Event} (hs : Conserves c s)
    (h : calFailed s ev = .ok t) : Conserves c t := by
  simp only [calFailed, bind_eq_ok] at h
  obtain ⟨ch, -, h, hf, s1, h1, h2⟩ := h
  unfold settleFailed at h1
  split at h1
  · next hearly =>
    simp only [chargeNow, bind_eq_ok, require_eq_ok, pure_eq_ok] at h1
    obtain ⟨charge, hcharge, a, ha, -, -, rfl⟩ := h1
    have hpos := (optUint_eq_ok hcharge).1
    rcases inFlight_cases (requireFlight_eq_ok.mp hf) with ⟨m, rfl, hm⟩ | ⟨k, rfl⟩
    · have hzero : escrowOf (.obj m) = 0 := hs.early ch _ hm hearly
      refine closeFlight_conserves (c := c) ?_ ?_ ?_ h2
      · exact hs.toFlightsOk.congr (by split <;> simp)
      · split <;> simpa using hm
      · split
        · rw [totalPtra_addFees, totalPtra_setBalance, hs.total, hzero]
          omega
        · rw [totalPtra_addFees, hs.total, hzero]
          omega
    · rcases Bool.or_eq_true_iff.mp hearly with he | he
      · exact absurd (requireStage_eq_ok.mpr he) (requireStage_builtin (u := ()))
      · exact absurd (requireStage_eq_ok.mpr he) (requireStage_builtin (u := ()))
  · simp only [bind_eq_ok] at h1
    obtain ⟨refund, hr, h1⟩ := h1
    obtain ⟨e, m, rfl, -, -, -⟩ := settleEscrow_eq_ok h1
    rcases inFlight_cases (requireFlight_eq_ok.mp hf) with ⟨m', hm', hm⟩ | ⟨k, hk⟩
    · cases hm'
      exact settle_conserves hs hm (optUint_eq_ok hr).1 h1 h2
    · cases hk

/-- A transfer moves its amount from one balance to another, or back to the same. -/
theorem ptraTransferred_conserves {c : ℤ} {s t : State} {ev : Event} (hs : Conserves c s)
    (h : ptraTransferred s ev = .ok t) : Conserves c t := by
  simp only [ptraTransferred, bind_eq_ok, require_eq_ok, pure_eq_ok] at h
  obtain ⟨sender, -, recipient, -, amount, -, -, -, rfl⟩ := h
  refine ⟨hs.toFlightsOk.congr (by simp), ?_⟩
  rw [totalPtra_setBalance, totalPtra_setBalance, ← hs.total]
  omega

theorem ptraShadowInit_conserves {c : ℤ} {s t : State} {ev : Event} (hs : Conserves c s)
    (h : ptraShadowInit s ev = .ok t) : Conserves c t := by
  simp only [ptraShadowInit, bind_eq_ok] at h
  obtain ⟨addr, -, h⟩ := h
  split at h
  · exact pure_eq_ok.mp h ▸ hs
  · next hnone =>
    rw [pure_eq_ok] at h
    subst h
    refine ⟨hs.toFlightsOk.congr (by simp), ?_⟩
    have hb : bal s addr = 0 := by
      rw [bal, Option.not_isSome_iff_eq_none.mp hnone]
      rfl
    rw [totalPtra_setBalance, hb, hs.total]
    omega

theorem oracleFeedSubmitted_conserves {c : ℤ} {s t : State} {ev : Event} (hs : Conserves c s)
    (h : oracleFeedSubmitted s ev = .ok t) : Conserves c t := by
  simp only [oracleFeedSubmitted, bind_eq_ok, pure_eq_ok] at h
  obtain ⟨symbol, -, rfl⟩ := h
  exact hs.congr (sameLedger_setIn (by simp) (by simp) (by simp) s _)

theorem tickAdvanced_conserves {c : ℤ} {s t : State} {ev : Event} (hs : Conserves c s)
    (h : tickAdvanced s ev = .ok t) : Conserves c t := by
  simp only [tickAdvanced, bind_eq_ok] at h
  obtain ⟨next, -, h⟩ := h
  split at h
  · simp only [bind_eq_ok, pure_eq_ok] at h
    obtain ⟨-, -, rfl⟩ := h
    exact (hs.congr (sameLedger_setIn (by simp) (by simp) (by simp) s _)).congr
      (sameLedger_setIn (by simp) (by simp) (by simp) _ _)
  · simp only [bind_eq_ok, throw_eq_ok, and_false, exists_false] at h

/-- Every accepted event conserves, when what it commits keeps out of the ledger. -/
theorem accepts_conserves {c : ℤ} {s t : State} {ev : Event} (hout : CommitsOutside s ev)
    (h : Accepts s ev t) (hs : Conserves c s) : Conserves c t := by
  obtain ⟨type, htype, h⟩ := accepts_step h
  cases type with
  | created => exact calCreated_conserves hs h
  | signed => exact calSigned_conserves hs h
  | validated => exact calValidated_conserves hs h
  | executed => exact calExecuted_conserves hs h
  | settled => exact calSettled_conserves hs h
  | finalized => exact calFinalized_conserves hs htype hout h
  | failed | expired => exact calFailed_conserves hs h
  | transferred => exact ptraTransferred_conserves hs h
  | shadow_init => exact ptraShadowInit_conserves hs h
  | feed_submitted => exact oracleFeedSubmitted_conserves hs h
  | tick_advanced => exact tickAdvanced_conserves hs h

/-- Over every run of accepted events from a state with nothing in flight, whatever the order of CALs
and agents, the balances, the escrows and the fees add up to what they were, when no committed delta
writes `ptra`, `treasury` or `cal`. -/
theorem conservation {s t : State} {evs : List Event} (hempty : flights s = [])
    (hrun : Run CommitsOutside s evs t) : totalPtra t = totalPtra s := by
  have hs : Conserves (totalPtra s) s :=
    ⟨⟨hempty ▸ normal_nil, fun ch h hg => by rw [hempty] at hg; cases hg⟩, rfl⟩
  exact (hrun.invariant (fun _ _ _ hout hacc => accepts_conserves hout hacc) hs).total

/-- A node with one funded agent. -/
def fundedState : State :=
  setIn (some genesis) (balancePath (js "A")) (.int 100)

/-- The events of a CAL that is finalized and then of one that fails early. -/
def settledEvents : List Event :=
  let ev (type : EventType) (rest : List (Str × Json)) : Event :=
    .obj ((js "event_type", .str type.name) :: (js "cal_hash", .str (js "H")) :: rest)
  let delta := .obj [(js "ns", .str (js "oracles")), (js "op", .str (js "set")),
    (js "path", .arr [.str (js "feeds"), .str (js "TON")]), (js "value", .int 5)]
  [ev .created [(js "agent_id", .str (js "A"))], ev .signed [],
    ev .validated [(js "escrow_ptra", .int 60)],
    ev .executed [(js "effects", .arr [delta]), (js "gas_consumed_ptra", .int 10)], ev .settled [],
    ev .finalized [(js "gas_refunded_ptra", .int 40)],
    ev .created [(js "agent_id", .str (js "A"))], ev .signed [],
    ev .failed [(js "fee_debited_ptra", .int 7)]]

theorem conservation_settledEvents :
    ∃ t, Run CommitsOutside fundedState settledEvents t ∧ totalPtra t = totalPtra fundedState := by
  have h : (checkRun CommitsOutside fundedState settledEvents).isSome = true := by decide +kernel
  obtain ⟨t, ht⟩ := Option.isSome_iff_exists.mp h
  exact ⟨t, checkRun_run ht, conservation (by rfl) (checkRun_run ht)⟩

end ParadigmTerra
