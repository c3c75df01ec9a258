import ParadigmTerra.Reducer.Apply

/-!
# The ledger in the state

The balances, the entries in flight and the fees are three places of the state. This module says what
each of the reducer's writes does to each of them, and what its steps read from them. The steps of the
events are stated through these views in `Conservation.lean` and above.
-/

namespace ParadigmTerra

open Text OrderedMap Fallible

/-- The table of balances. -/
def balances (s : State) : List (Str × Json) := tableIn s [js "ptra", js "balances"]

/-- The table of entries in flight. -/
def flights (s : State) : List (Str × Json) := tableIn s [js "cal", js "in_flight"]

/-- The fees collected in the window. -/
def fees (s : State) : ℤ := asBig (getIn s feesPath) 0

/-- The number that a value holds, zero when it is no integer. -/
def intOf (v : Json) : ℤ := asBig (some v) 0

@[simp] theorem intOf_int (n : ℤ) : intOf (.int n) = n := rfl

theorem ownIn_tableIn (s : Json) (p : List Str) (k : Str) (q : List Str) :
    ownIn s (p ++ k :: q) = (get k (tableIn s p)).bind fun w => ownIn w q := by
  rw [ownIn_append, tableIn]
  cases ownIn s p <;> rfl

theorem bal_eq (s : State) (a : Str) : bal s a = amount intOf (get a (balances s)) := by
  rw [bal, asBig_getIn, show balancePath a = [js "ptra", js "balances"] ++ [a] from rfl,
    ownIn_tableIn, ← balances]
  cases get a (balances s) <;> rfl

theorem fees_eq (s : State) : fees s = asBig (ownIn s feesPath) 0 := asBig_getIn s feesPath 0

/-! ## Writes outside the ledger -/

/-- A write apart from the three places leaves the ledger as it was. -/
structure SameLedger (s t : State) : Prop where
  balances : balances t = balances s
  flights : flights t = flights s
  fees : fees t = fees s

theorem SameLedger.refl (s : State) : SameLedger s s := ⟨rfl, rfl, rfl⟩

theorem SameLedger.trans {s t u : State} (h : SameLedger s t) (h' : SameLedger t u) :
    SameLedger s u :=
  ⟨h'.1.trans h.1, h'.2.trans h.2, h'.3.trans h.3⟩

theorem sameLedger_setIn {p : List Str} (hb : Apart p [js "ptra", js "balances"])
    (hf : Apart p [js "cal", js "in_flight"]) (hc : Apart p feesPath) (s : State) (x : Json) :
    SameLedger s (setIn (some s) p x) where
  balances := tableIn_setIn_of_apart hb s x
  flights := tableIn_setIn_of_apart hf s x
  fees := by rw [fees_eq, fees_eq, ownIn_setIn_of_apart hc]

theorem sameLedger_bumpNonce (s : State) (a : Str) : SameLedger s (bumpNonce s a) :=
  sameLedger_setIn (by simp) (by simp) (by simp) s _

theorem sameLedger_applyDeltaJson {s t : State} {d : Json} (h : applyDeltaJson s d = .ok t)
    (hd : AvoidsNamespaces [js "ptra", js "treasury", js "cal"] d) : SameLedger s t where
  balances := by
    rw [balances, balances, tableIn, ownIn_applyDeltaJson h (hd.ne (by simp)), tableIn]
  flights := by
    rw [flights, flights, tableIn, ownIn_applyDeltaJson h (hd.ne (by simp)), tableIn]
  fees := by rw [fees_eq, fees_eq, ownIn_applyDeltaJson h (hd.ne (by simp))]

/-! ## Writes to the ledger -/

@[simp] theorem balances_setBalance (s : State) (a : Str) (n : ℤ) :
    balances (setBalance s a n) = putMember a (.int n) (balances s) :=
  tableIn_setIn s [js "ptra", js "balances"] a (.int n)

@[simp] theorem flights_setBalance (s : State) (a : Str) (n : ℤ) :
    flights (setBalance s a n) = flights s := tableIn_setIn_of_apart (by simp) s _

@[simp] theorem fees_setBalance (s : State) (a : Str) (n : ℤ) :
    fees (setBalance s a n) = fees s := by
  rw [fees_eq, fees_eq, setBalance, ownIn_setIn_of_apart (by simp)]

theorem bal_setBalance (s : State) (a b : Str) (n : ℤ) :
    bal (setBalance s a n) b = if a = b then n else bal s b := by
  rw [bal_eq, bal_eq, balances_setBalance, get_put]
  split <;> rfl

@[simp] theorem balances_addFees (s : State) (n : ℤ) : balances (addFees s n) = balances s :=
  tableIn_setIn_of_apart (by simp) s _

@[simp] theorem flights_addFees (s : State) (n : ℤ) : flights (addFees s n) = flights s :=
  tableIn_setIn_of_apart (by simp) s _

@[simp] theorem fees_addFees (s : State) (n : ℤ) : fees (addFees s n) = fees s + n := by
  rw [fees_eq, addFees, ownIn_setIn]
  rfl

/-- A write to the entries in flight leaves balances and fees as they were. -/
theorem balances_setIn_flight (s : State) (p : List Str) (x : Json) :
    balances (setIn (some s) (js "cal" :: p) x) = balances s :=
  tableIn_setIn_of_apart (by simp) s x

theorem fees_setIn_flight (s : State) (p : List Str) (x : Json) :
    fees (setIn (some s) (js "cal" :: p) x) = fees s := by
  rw [fees_eq, fees_eq, ownIn_setIn_of_apart (by simp)]

theorem flights_setIn_flightPath (s : State) (ch : Str) (x : Json) :
    flights (setIn (some s) (flightPath ch) x) = putMember ch x (flights s) :=
  tableIn_setIn s [js "cal", js "in_flight"] ch x

/-- A field of an entry in flight set. -/
theorem flights_setIn_fieldPath {s : State} {ch : Str} {m : List (Str × Json)}
    (h : get ch (flights s) = some (.obj m)) (f : String) (x : Json) :
    flights (setIn (some s) (fieldPath ch f) x) =
      putMember ch (.obj (putMember (js f) x m)) (flights s) := by
  obtain ⟨o, h1, h2⟩ := ownIn_setIn_prefix s [js "cal", js "in_flight"] ch [js f] x
  have ho : o = some (.obj m) := by
    rcases h2 with h2 | ⟨h2, -⟩
    · exact h2.trans h
    · cases h.symm.trans h2
  rw [flights, tableIn, show fieldPath ch f = [js "cal", js "in_flight"] ++ ch :: [js f] from rfl, h1,
    ho]
  rfl

theorem flights_deleteIn (s : State) (ch : Str) :
    flights (deleteIn (some s) (flightPath ch)) = erase ch (flights s) :=
  tableIn_deleteIn s [js "cal", js "in_flight"] ch

theorem balances_deleteIn (s : State) (ch : Str) :
    balances (deleteIn (some s) (flightPath ch)) = balances s :=
  tableIn_deleteIn_of_apart (by simp) s

theorem fees_deleteIn (s : State) (ch : Str) :
    fees (deleteIn (some s) (flightPath ch)) = fees s := by
  rw [fees_eq, fees_eq, ownIn_deleteIn_of_apart (by simp)]

/-! ## Entries in flight -/

/-- An entry that the reducer finds is the own member, or the object that every object inherits. -/
theorem inFlight_cases {s : State} {ch : Str} {h : Json} (hf : inFlight s ch = some h) :
    (∃ m, h = .obj m ∧ get ch (flights s) = some (.obj m)) ∨ ∃ k, h = .builtin k := by
  rw [inFlight] at hf
  split at hf
  · next w hw =>
    split at hf
    · next hp =>
      cases hf
      rcases getIn_eq_or s (flightPath ch) with he | ⟨-, x, hx, hi⟩
      · rw [hw, show flightPath ch = [js "cal", js "in_flight"] ++ [ch] from rfl, ownIn_tableIn,
          ← flights] at he
        cases hg : get ch (flights s) with
        | none =>
          rw [hg] at he
          cases he
        | some x =>
          rw [hg] at he
          cases he
          cases h with
          | obj m => exact .inl ⟨m, rfl, rfl⟩
          | builtin k => exact .inr ⟨k, rfl⟩
          | _ => cases hp
      · cases hw.symm.trans hx
        cases h with
        | builtin k => exact .inr ⟨k, rfl⟩
        | obj m => exact hi.elim
        | _ => cases hp
    · cases hf
  · cases hf

/-- An own entry is found. -/
theorem inFlight_of_get {s : State} {ch : Str} {m : List (Str × Json)}
    (h : get ch (flights s) = some (.obj m)) : inFlight s ch = some (.obj m) := by
  have ho : ownIn s (flightPath ch) = some (.obj m) := by
    rw [show flightPath ch = [js "cal", js "in_flight"] ++ [ch] from rfl, ownIn_tableIn, ← flights, h]
    rfl
  rw [inFlight, getIn_of_ownIn ho]
  rfl

/-- Where no entry is found, no object stands. -/
theorem get_flights_of_inFlight_none {s : State} {ch : Str} (h : inFlight s ch = none)
    {v : Json} (hv : get ch (flights s) = some v) : v.members = [] := by
  cases v with
  | obj m => rw [inFlight_of_get hv] at h; cases h
  | _ => rfl

theorem requireFlight_eq_ok {s : State} {ch : Str} {h : Json} :
    requireFlight s ch = .ok h ↔ inFlight s ch = some h := by
  unfold requireFlight
  split
  · next x hx => rw [hx, pure_eq_ok, Option.some.injEq]
  · next hx => simp [hx]

theorem requireStage_eq_ok {h : Json} {stage : String} {u : Unit} :
    requireStage h stage = .ok u ↔ isStr (h.read (js "stage")) (js stage) = true := by
  unfold requireStage
  split
  · simp [*]
  · next hs => simp [hs]

/-- The members that the reducer reads of an entry are no inherited names. -/
theorem read_obj_js {m : List (Str × Json)} {k : String} (hk : js k ∉ inheritedNames) :
    (Json.obj m).read (js k) = get (js k) m := Json.read_of_not_inherited hk

theorem not_inherited_stage : js "stage" ∉ inheritedNames := by simp [inheritedNames]

theorem not_inherited_agent_id : js "agent_id" ∉ inheritedNames := by simp [inheritedNames]

theorem not_inherited_escrowed : js "escrowed_ptra" ∉ inheritedNames := by simp [inheritedNames]

theorem not_inherited_staged : js "staged" ∉ inheritedNames := by simp [inheritedNames]

/-- The object that every object inherits is at no stage. -/
theorem requireStage_builtin {k : Str} {stage : String} {u : Unit} :
    requireStage (.builtin k) stage ≠ .ok u := by
  rw [ne_eq, requireStage_eq_ok, isStr_iff, Json.read]
  split
  · simp
  · simp [inherited, inheritedNames]

/-- The entry at a stage is an own one. -/
theorem flight_at_stage {s : State} {ch : Str} {h : Json} {stage : String} {u : Unit}
    (hf : requireFlight s ch = .ok h) (hs : requireStage h stage = .ok u) :
    ∃ m, h = .obj m ∧ get ch (flights s) = some (.obj m) ∧
      get (js "stage") m = some (.str (js stage)) := by
  rcases inFlight_cases (requireFlight_eq_ok.mp hf) with ⟨m, rfl, hm⟩ | ⟨k, rfl⟩
  · refine ⟨m, rfl, hm, ?_⟩
    rw [requireStage_eq_ok, isStr_iff, read_obj_js not_inherited_stage] at hs
    exact hs
  · exact absurd hs requireStage_builtin

/-- The escrow of an entry. -/
def escrowOf (h : Json) : ℤ := asBig (get (js "escrowed_ptra") h.members) 0

/-- An escrow that settles: the refund goes to some agent, and the fees get the rest. -/
theorem settleEscrow_eq_ok {s t : State} {h : Json} {refund : ℤ}
    (hs : settleEscrow s h refund = .ok t) :
    ∃ e m, h = .obj m ∧ get (js "escrowed_ptra") m = some (.int e) ∧ ¬e < refund ∧
      ((0 < refund ∧ ∃ a, agentKey h = .ok a ∧
          t = addFees (setBalance s a (bal s a + refund)) (e - refund)) ∨
        (¬0 < refund ∧ t = addFees s (e - refund))) := by
  simp only [settleEscrow, bind_eq_ok] at hs
  obtain ⟨u, hu, hs⟩ := hs
  split at hs
  · next e he =>
    simp only [bind_eq_ok, require_eq_ok, pure_eq_ok] at hs
    obtain ⟨-, hle, rfl⟩ := hs
    obtain ⟨m, rfl, hm⟩ : ∃ m, h = .obj m ∧ get (js "escrowed_ptra") m = some (.int e) := by
      cases h with
      | obj m => exact ⟨m, rfl, by rwa [read_obj_js not_inherited_escrowed] at he⟩
      | builtin k => simp [Json.read, inherited, inheritedNames] at he
      | _ => cases he
    refine ⟨e, m, rfl, hm, hle, ?_⟩
    unfold refundAgent at hu
    split at hu
    · next hpos =>
      simp only [bind_eq_ok, pure_eq_ok] at hu
      obtain ⟨a, ha, rfl⟩ := hu
      exact .inl ⟨hpos, a, ha, rfl⟩
    · next hpos =>
      rw [pure_eq_ok] at hu
      exact .inr ⟨hpos, by rw [hu]⟩
  · simp only [bind_eq_ok, throw_eq_ok, and_false, exists_false] at hs

theorem closeFlight_eq_ok {s t : State} {h : Json} {ch : Str} (hc : closeFlight s h ch = .ok t) :
    ∃ a, agentKey h = .ok a ∧ t = deleteIn (some (bumpNonce s a)) (flightPath ch) := by
  simp only [closeFlight, bind_eq_ok, pure_eq_ok] at hc
  obtain ⟨a, ha, hc⟩ := hc
  exact ⟨a, ha, hc.symm⟩

/-! ## Other namespaces -/

/-- A namespace is as it was. -/
def SameNamespace (n : Str) (s t : State) : Prop := ∀ p, ownIn t (n :: p) = ownIn s (n :: p)

theorem SameNamespace.refl (n : Str) (s : State) : SameNamespace n s s := fun _ => rfl

theorem SameNamespace.trans {n : Str} {s t u : State} (h : SameNamespace n s t)
    (h' : SameNamespace n t u) : SameNamespace n s u := fun p => (h' p).trans (h p)

theorem sameNamespace_setIn {n m : Str} (h : m ≠ n) (s : State) (p : List Str) (x : Json) :
    SameNamespace n s (setIn (some s) (m :: p) x) := fun q =>
  ownIn_setIn_of_apart (p := m :: p) (q := n :: q) (.inl h) s x

theorem sameNamespace_deleteIn {n m : Str} (h : m ≠ n) (s : State) (p : List Str) :
    SameNamespace n s (deleteIn (some s) (m :: p)) := fun q =>
  ownIn_deleteIn_of_apart (p := m :: p) (q := n :: q) (.inl h) s

/-- The namespaces that events write other than through the deltas that they commit. -/
def eventNamespaces : List Str :=
  [js "cal", js "ptra", js "treasury", js "failure_mode", js "oracles", js "tick"]

section Frame

variable {n : Str} {s t : State}

theorem ne_of_mem_eventNamespaces {m : Str} (hn : n ∉ eventNamespaces)
    (hm : m ∈ eventNamespaces) : m ≠ n := fun h => hn (h ▸ hm)

theorem sameNamespace_addFees (hn : n ∉ eventNamespaces) (s : State) (k : ℤ) :
    SameNamespace n s (addFees s k) :=
  sameNamespace_setIn (ne_of_mem_eventNamespaces hn (by simp [eventNamespaces])) s _ _

theorem sameNamespace_setBalance (hn : n ∉ eventNamespaces) (s : State) (a : Str) (k : ℤ) :
    SameNamespace n s (setBalance s a k) :=
  sameNamespace_setIn (ne_of_mem_eventNamespaces hn (by simp [eventNamespaces])) s _ _

theorem sameNamespace_cal (hn : n ∉ eventNamespaces) (s : State) (p : List Str) (x : Json) :
    SameNamespace n s (setIn (some s) (js "cal" :: p) x) :=
  sameNamespace_setIn (ne_of_mem_eventNamespaces hn (by simp [eventNamespaces])) s p x

theorem sameNamespace_settleEscrow (hn : n ∉ eventNamespaces) {h : Json} {refund : ℤ}
    (hs : settleEscrow s h refund = .ok t) : SameNamespace n s t := by
  obtain ⟨e, m, -, -, -, ⟨-, a, -, rfl⟩ | ⟨-, rfl⟩⟩ := settleEscrow_eq_ok hs
  · exact (sameNamespace_setBalance hn s a _).trans (sameNamespace_addFees hn _ _)
  · exact sameNamespace_addFees hn s _

theorem sameNamespace_closeFlight (hn : n ∉ eventNamespaces) {h : Json} {ch : Str}
    (hc : closeFlight s h ch = .ok t) : SameNamespace n s t := by
  obtain ⟨a, -, rfl⟩ := closeFlight_eq_ok hc
  exact (sameNamespace_cal hn s _ _).trans
    (sameNamespace_deleteIn (ne_of_mem_eventNamespaces hn (by simp [eventNamespaces])) _ _)

theorem sameNamespace_settleFailed (hn : n ∉ eventNamespaces) {h : Json} {ev : Event}
    (hs : settleFailed s h ev = .ok t) : SameNamespace n s t := by
  unfold settleFailed at hs
  split at hs
  · simp only [chargeNow, bind_eq_ok, pure_eq_ok] at hs
    obtain ⟨charge, -, a, -, -, -, rfl⟩ := hs
    split
    · exact (sameNamespace_setBalance hn s a _).trans (sameNamespace_addFees hn _ _)
    · exact sameNamespace_addFees hn s _
  · rw [bind_eq_ok] at hs
    obtain ⟨refund, -, hs⟩ := hs
    exact sameNamespace_settleEscrow hn hs

/-- An event that finalizes nothing leaves the other namespaces as they were. -/
theorem step_sameNamespace (hn : n ∉ eventNamespaces) {type : EventType} {ev : Event}
    (htype : type ≠ .finalized) (h : type.step s ev = .ok t) : SameNamespace n s t := by
  have hne : ∀ m ∈ eventNamespaces, m ≠ n := fun m hm => ne_of_mem_eventNamespaces hn hm
  cases type with
  | created =>
    simp only [EventType.step, calCreated, bind_eq_ok, pure_eq_ok] at h
    obtain ⟨ch, -, agent, -, -, -, -, -, rfl⟩ := h
    exact sameNamespace_cal hn s _ _
  | signed =>
    simp only [EventType.step, calSigned, bind_eq_ok, pure_eq_ok] at h
    obtain ⟨ch, -, e, -, -, -, rfl⟩ := h
    exact sameNamespace_cal hn s _ _
  | validated =>
    simp only [EventType.step, calValidated, bind_eq_ok, pure_eq_ok] at h
    obtain ⟨ch, -, e, -, -, -, escrow, -, a, -, -, -, rfl⟩ := h
    exact ((sameNamespace_setBalance hn s a _).trans (sameNamespace_cal hn _ _ _)).trans
      (sameNamespace_cal hn _ _ _)
  | executed =>
    simp only [EventType.step, calExecuted, bind_eq_ok] at h
    obtain ⟨ch, -, e, -, -, -, h⟩ := h
    split at h
    · simp only [bind_eq_ok, pure_eq_ok] at h
      obtain ⟨gas, -, rfl⟩ := h
      exact ((sameNamespace_cal hn s _ _).trans (sameNamespace_cal hn _ _ _)).trans
        (sameNamespace_cal hn _ _ _)
    · cases h
  | settled =>
    simp only [EventType.step, calSettled, bind_eq_ok, pure_eq_ok] at h
    obtain ⟨ch, -, e, -, -, -, rfl⟩ := h
    exact sameNamespace_cal hn s _ _
  | finalized => exact absurd rfl htype
  | failed | expired =>
    simp only [EventType.step, calFailed, bind_eq_ok] at h
    obtain ⟨ch, -, e, -, u, hu, hc⟩ := h
    exact (sameNamespace_settleFailed hn hu).trans (sameNamespace_closeFlight hn hc)
  | transferred =>
    simp only [EventType.step, ptraTransferred, bind_eq_ok, pure_eq_ok] at h
    obtain ⟨sender, -, recipient, -, amount, -, -, -, rfl⟩ := h
    exact (sameNamespace_setBalance hn s _ _).trans (sameNamespace_setBalance hn _ _ _)
  | shadow_init =>
    simp only [EventType.step, ptraShadowInit, bind_eq_ok] at h
    obtain ⟨addr, -, h⟩ := h
    split at h
    · exact pure_eq_ok.mp h ▸ SameNamespace.refl n s
    · exact pure_eq_ok.mp h ▸ sameNamespace_setBalance hn s _ _
  | feed_submitted =>
    simp only [EventType.step, oracleFeedSubmitted, bind_eq_ok, pure_eq_ok] at h
    obtain ⟨symbol, -, rfl⟩ := h
    exact sameNamespace_setIn (hne _ (by simp [eventNamespaces])) s _ _
  | tick_advanced =>
    simp only [EventType.step, tickAdvanced, bind_eq_ok] at h
    obtain ⟨next, -, h⟩ := h
    split at h
    · simp only [bind_eq_ok, pure_eq_ok] at h
      obtain ⟨-, -, rfl⟩ := h
      exact (sameNamespace_setIn (hne _ (by simp [eventNamespaces])) s _ _).trans
        (sameNamespace_setIn (hne _ (by simp [eventNamespaces])) _ _ _)
    · simp only [bind_eq_ok, throw_eq_ok, and_false, exists_false] at h

end Frame

/-- The deltas that the finalization of an entry commits. -/
theorem committed_of_finalized {s : State} {ev : Event} {ch : Str} {h : Json} {staged : List Json}
    (hev : ev.read (js "event_type") = some (.str EventType.finalized.name))
    (hch : reqStr ev "cal_hash" = .ok ch) (hf : requireFlight s ch = .ok h)
    (hstaged : iterate (h.read (js "staged")) = .ok staged) : committed s ev = staged := by
  simp only [committed, hev, reqStr_eq_ok hch, if_true, requireFlight_eq_ok.mp hf, hstaged]
  rfl

theorem committed_of_ne {s : State} {ev : Event} {type : EventType} (htype : type ≠ .finalized)
    (hev : ev.read (js "event_type") = some (.str type.name)) : committed s ev = [] := by
  have hne : type.name ≠ EventType.finalized.name := by
    intro h
    have := congrArg EventType.ofStr? h
    rw [EventType.ofStr?_name, EventType.ofStr?_name, Option.some.injEq] at this
    exact htype this
  unfold committed
  split
  · next t _ ht _ =>
    rw [hev] at ht
    cases ht
    rw [if_neg hne]
  · rfl

/-- An accepted event commits its deltas, and leaves the namespaces that no event writes as they are
after these. -/
theorem accepts_commits {s t : State} {ev : Event} (h : Accepts s ev t) :
    ∃ u, (committed s ev).foldlM applyDeltaJson s = .ok u ∧
      ∀ n, n ∉ eventNamespaces → SameNamespace n u t := by
  obtain ⟨type, htype, h⟩ := accepts_step h
  by_cases hfin : type = .finalized
  · subst hfin
    simp only [EventType.step, calFinalized, bind_eq_ok] at h
    obtain ⟨ch, hch, e, hf, -, -, refund, -, staged, hstaged, u, hu, v, hv, hc⟩ := h
    rw [committed_of_finalized htype hch hf hstaged]
    exact ⟨u, hu, fun n hn => (sameNamespace_settleEscrow hn hv).trans (sameNamespace_closeFlight hn hc)⟩
  · rw [committed_of_ne hfin htype]
    exact ⟨s, rfl, fun n hn => step_sameNamespace hn hfin h⟩

end ParadigmTerra
