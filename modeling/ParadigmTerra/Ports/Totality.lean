import ParadigmTerra.Ports.Reducer
import ParadigmTerra.Reducer.Totality

/-!
# What escapes the reducers

The Rust reducer returns typed errors, and panics in one place: it unwraps the sum of a nonce and one,
which there is not when the nonce is the largest 256-bit integer. `rust_panics_iff` states which events
reach that sum at such a nonce: the last events of a CAL whose settlement goes through.

`reducer_total` puts it together with `apply_returns_iff` for the reference implementation, whose
escapes are others: it has no largest nonce, but converts and computes with fields as they are.
-/

namespace ParadigmTerra.Ports

open Text Fallible

/-- The computation returns or throws a typed error. -/
abbrev Calm {α : Type} (x : Except Fault α) : Prop := ThrowsOnly (· ≠ .panicked) x

/-! ## What never panics -/

@[simp] theorem calm_orErr {α : Type} (code : ApplyErrorCode) (o : Option α) :
    Calm (orErr code o) := by
  cases o with
  | none => exact throwsOnly_throw.mpr nofun
  | some a => exact throwsOnly_pure

@[simp] theorem calm_require {c : Prop} [Decidable c] (code : ApplyErrorCode) :
    Calm (require c (.err code)) := throwsOnly_require.mpr fun _ => nofun

@[simp] theorem calm_reqStr (ev : Event) (k : String) : Calm (reqStr ev k) := calm_orErr _ _

@[simp] theorem calm_reqUint (ev : Event) (k : String) : Calm (reqUint ev k) := calm_orErr _ _

@[simp] theorem calm_optUint (ev : Event) (k : String) : Calm (optUint ev k) := by
  unfold optUint
  split
  · exact calm_reqUint ev k
  · exact throwsOnly_pure

@[simp] theorem calm_requireFlight (s : State) (ch : Str) : Calm (requireFlight s ch) :=
  calm_orErr _ _

@[simp] theorem calm_requireStage (h : Json) (stage : String) : Calm (requireStage h stage) :=
  calm_require _

theorem calm_enforceOwnerRecord (s : State) (full : List Str) :
    Calm (enforceOwnerRecord s full) := by
  unfold enforceOwnerRecord
  split
  · split_ifs
    · split
      · exact calm_require _
      · exact throwsOnly_pure
    · exact throwsOnly_pure
  · exact throwsOnly_pure

theorem calm_operands (s : State) (full : List Str) (d : Json) : Calm (operands s full d) := by
  unfold operands
  cases getIn s full with
  | none => simp
  | some c => simp

theorem calm_applyOp (s : State) (full : List Str) (d : Json) (op : DeltaOp) :
    Calm (applyOp s full d op) := by
  cases op <;> simp [applyOp, calm_enforceOwnerRecord, calm_operands]

theorem calm_applyDeltaJson (s : State) (d : Json) : Calm (applyDeltaJson s d) := by
  simp [applyDeltaJson, calm_applyOp]

@[simp] theorem calm_debit (s : State) (a : Str) (n : U256) : Calm (debit s a n) := by simp [debit]

@[simp] theorem calm_credit (s : State) (a : Str) (n : U256) : Calm (credit s a n) := by
  simp [credit]

@[simp] theorem calm_addFees (s : State) (n : U256) : Calm (addFees s n) := by simp [addFees]

@[simp] theorem calm_settleEscrow (s : State) (a : Str) (e r : U256) :
    Calm (settleEscrow s a e r) := by
  unfold settleEscrow
  split_ifs <;> simp

@[simp] theorem calm_chargeNow (s : State) (a : Str) (n : U256) : Calm (chargeNow s a n) := by
  unfold chargeNow
  split_ifs <;> simp

/-! ## The last events of a CAL -/

/-- The nonce of the agent has a successor. -/
def NonceFits (s : State) (agent : Str) : Prop := (u256At s (noncePath agent)).1 < UINT256_MAX

/-- A refund settles: it fits into the balance, the escrow covers it, and the rest fits into the fees. -/
def Settles (s : State) (agent : Str) (escrowed refund : U256) : Prop :=
  (refund.1 ≠ 0 → (bal s agent).1 + refund.1 ≤ UINT256_MAX) ∧ refund.1 ≤ escrowed.1 ∧
    (u256At s feesPath).1 + (escrowed.1 - refund.1) ≤ UINT256_MAX

/-- A charge goes through: the balance covers it, and it fits into the fees. -/
def Charges (s : State) (agent : Str) (charge : U256) : Prop :=
  charge.1 ≤ (bal s agent).1 ∧ (u256At s feesPath).1 + charge.1 ≤ UINT256_MAX

/-- Money moves, the nonces stay. -/
def SameNonces (s t : State) : Prop := ∀ agent, u256At t (noncePath agent) = u256At s (noncePath agent)

theorem checkedAdd_returns_iff {a b : U256} :
    (∃ c, a.checkedAdd b = some c) ↔ a.1 + b.1 ≤ UINT256_MAX := by
  unfold U256.checkedAdd
  split_ifs with h <;> simp [h]

theorem checkedSub_returns_iff {a b : U256} : (∃ c, a.checkedSub b = some c) ↔ b.1 ≤ a.1 := by
  unfold U256.checkedSub
  split_ifs with h <;> simp [h]

theorem addFees_returns_iff {s : State} {n : U256} :
    (∃ t, addFees s n = .ok t) ↔ (u256At s feesPath).1 + n.1 ≤ UINT256_MAX := by
  rw [← checkedAdd_returns_iff]
  simp [addFees]

theorem sameNonces_addFees {s t : State} {n : U256} (h : addFees s n = .ok t) : SameNonces s t := by
  simp only [addFees, bind_eq_ok, pure_eq_ok] at h
  obtain ⟨x, -, rfl⟩ := h
  intro agent
  exact u256At_setIn_of_apart (apart_cons.mpr (.inl (by simp))) s _

theorem fees_setBalance {s : State} {a : Str} {n : U256} :
    u256At (setBalance s a n) feesPath = u256At s feesPath :=
  u256At_setIn_of_apart (apart_cons.mpr (.inl (by simp))) s _

theorem sameNonces_setBalance {s : State} {a : Str} {n : U256} : SameNonces s (setBalance s a n) :=
  fun _ => u256At_setIn_of_apart (apart_cons.mpr (.inl (by simp))) s _

/-- What is left of the escrow is kept. -/
theorem retain_returns_iff {s : State} {e r : U256} :
    (∃ t, (do let retained ← orErr .UNDERFLOW (e.checkedSub r); addFees s retained) = .ok t) ↔
      r.1 ≤ e.1 ∧ (u256At s feesPath).1 + (e.1 - r.1) ≤ UINT256_MAX := by
  simp only [bind_eq_ok, orErr_eq_ok]
  constructor
  · rintro ⟨t, x, hx, ht⟩
    have hsub := checkedSub_eq_some.mp hx
    have hfees := addFees_returns_iff.mp ⟨t, ht⟩
    exact ⟨checkedSub_returns_iff.mp ⟨x, hx⟩, by rwa [hsub]⟩
  · rintro ⟨hle, hfees⟩
    obtain ⟨x, hx⟩ := checkedSub_returns_iff.mpr hle
    rw [checkedSub_eq_some.mp hx] at hfees
    obtain ⟨t, ht⟩ := addFees_returns_iff.mpr hfees
    exact ⟨t, x, hx, ht⟩

theorem settleEscrow_returns_iff {s : State} {a : Str} {e r : U256} :
    (∃ t, settleEscrow s a e r = .ok t) ↔ Settles s a e r := by
  unfold settleEscrow Settles
  split_ifs with hr
  · rw [bind_returns_iff, ← checkedAdd_returns_iff]
    simp only [retain_returns_iff]
    simp only [credit, bind_eq_ok, orErr_eq_ok, pure_eq_ok]
    constructor
    · rintro ⟨_, ⟨n, hn, rfl⟩, hle, hfees⟩
      rw [fees_setBalance] at hfees
      exact ⟨fun _ => ⟨n, hn⟩, hle, hfees⟩
    · rintro ⟨hadd, hle, hfees⟩
      obtain ⟨n, hn⟩ := hadd hr
      exact ⟨_, ⟨n, hn, rfl⟩, hle, by rwa [fees_setBalance]⟩
  · simp only [hr, false_imp_iff, true_and]
    exact retain_returns_iff

theorem sameNonces_settleEscrow {s t : State} {a : Str} {e r : U256}
    (h : settleEscrow s a e r = .ok t) : SameNonces s t := by
  unfold settleEscrow at h
  split_ifs at h
  · simp only [credit, bind_eq_ok, orErr_eq_ok, pure_eq_ok] at h
    obtain ⟨_, ⟨n, -, rfl⟩, x, -, h⟩ := h
    intro agent
    rw [sameNonces_addFees h agent, sameNonces_setBalance agent]
  · simp only [pure_bind, bind_eq_ok, orErr_eq_ok] at h
    obtain ⟨x, -, h⟩ := h
    exact sameNonces_addFees h

theorem chargeNow_returns_iff {s : State} {a : Str} {n : U256} :
    (∃ t, chargeNow s a n = .ok t) ↔ Charges s a n := by
  unfold chargeNow Charges
  split_ifs with hn
  · rw [bind_returns_iff, ← checkedSub_returns_iff]
    simp only [debit, bind_eq_ok, orErr_eq_ok, pure_eq_ok, addFees_returns_iff]
    constructor
    · rintro ⟨_, ⟨x, hx, rfl⟩, hfees⟩
      rw [fees_setBalance] at hfees
      exact ⟨⟨x, hx⟩, hfees⟩
    · rintro ⟨⟨x, hx⟩, hfees⟩
      exact ⟨_, ⟨x, hx, rfl⟩, by rwa [fees_setBalance]⟩
  · have hzero : n.1 = 0 := not_not.mp hn
    have hbal := (bal s a).2.1
    rw [pure_bind, addFees_returns_iff, hzero]
    exact ⟨fun h => ⟨hbal, h⟩, fun h => h.2⟩

theorem sameNonces_chargeNow {s t : State} {a : Str} {n : U256} (h : chargeNow s a n = .ok t) :
    SameNonces s t := by
  unfold chargeNow at h
  split_ifs at h
  · simp only [debit, bind_eq_ok, orErr_eq_ok, pure_eq_ok] at h
    obtain ⟨_, ⟨x, -, rfl⟩, h⟩ := h
    intro agent
    rw [sameNonces_addFees h agent, sameNonces_setBalance agent]
  · exact sameNonces_addFees h

/-! ## The sum that panics -/

theorem calm_next {n : U256} : Calm (rust.next n) ↔ n.1 < UINT256_MAX := by
  have hmax : n.1 < UINT256_MAX ↔ ∃ m, n.checkedAdd ONE = some m := by
    rw [checkedAdd_returns_iff, ONE_val]
    omega
  rw [hmax]
  cases hn : n.checkedAdd ONE with
  | none => simp [rust, hn]
  | some m => simp [rust, hn]

theorem calm_closeFlight {s : State} {agent ch : Str} :
    Calm (closeFlight rust s agent ch) ↔ NonceFits s agent := by
  have hnext : Calm (rust.next (u256At s (noncePath agent))) ↔ NonceFits s agent := calm_next
  rw [← hnext]
  simp [closeFlight, bumpNonce]

/-- What an event of the type asks of the nonce that it uses up. -/
def EventType.KeepsNonce (s : State) (ev : Event) : EventType → Prop
  | .finalized => ∀ ch h agent refund t, reqStr ev "cal_hash" = .ok ch →
      requireFlight s ch = .ok h → stageOf h = some (js "SETTLED") →
      (get h (js "agent_id")).bind asStr = some agent →
      optUint ev "gas_refunded_ptra" = .ok refund →
      (((get h (js "staged")).bind asArray).getD []).foldlM applyDeltaJson s = .ok t →
      Settles t agent (u256At s (fieldPath ch "escrowed_ptra")) refund → NonceFits t agent
  | .failed | .expired => ∀ ch h agent, reqStr ev "cal_hash" = .ok ch →
      requireFlight s ch = .ok h → (get h (js "agent_id")).bind asStr = some agent →
      if stageOf h = some (js "CREATED") ∨ stageOf h = some (js "SIGNED") then
        ∀ charge, optUint ev "fee_debited_ptra" = .ok charge →
          Charges s agent charge → NonceFits s agent
      else ∀ refund, optUint ev "gas_refunded_ptra" = .ok refund →
        Settles s agent (u256At s (fieldPath ch "escrowed_ptra")) refund → NonceFits s agent
  | _ => True

/-- An event that uses up a nonce finds one that has a successor. -/
def NonceKept (s : State) (ev : Event) : Prop :=
  ∀ t : EventType, get ev (js "event_type") = some (.str t.name) → EventType.KeepsNonce s ev t

theorem calm_settle_close {s : State} {x : Except Fault State} {agent ch : Str} {P : Prop}
    (hx : Calm x) (hreturns : (∃ t, x = .ok t) ↔ P) (hsame : ∀ t, x = .ok t → SameNonces s t) :
    Calm (x >>= fun t => closeFlight rust t agent ch) ↔ (P → NonceFits s agent) := by
  rw [← hreturns, Calm, throwsOnly_bind, and_iff_right hx]
  constructor
  · rintro h ⟨t, ht⟩
    have hfits := calm_closeFlight.mp (h t ht)
    rwa [NonceFits, hsame t ht agent] at hfits
  · intro h t ht
    refine calm_closeFlight.mpr ?_
    rw [NonceFits, hsame t ht agent]
    exact h ⟨t, ht⟩

theorem rust_agent_eq_ok {v : Option Json} {a : Str} :
    rust.agent v = .ok a ↔ v.bind asStr = some a := orErr_eq_ok

theorem requireStage_eq_ok {h : Json} {stage : String} {u : Unit} :
    requireStage h stage = .ok u ↔ stageOf h = some (js stage) := require_eq_ok

theorem calm_calFailed {s : State} {ev : Event} :
    Calm (calFailed rust s ev) ↔ EventType.KeepsNonce s ev .failed := by
  have hsettle : ∀ ch h agent,
      Calm (settleFailed s h ch agent ev >>= fun t => closeFlight rust t agent ch) ↔
        if stageOf h = some (js "CREATED") ∨ stageOf h = some (js "SIGNED") then
          ∀ charge, optUint ev "fee_debited_ptra" = .ok charge →
            Charges s agent charge → NonceFits s agent
        else ∀ refund, optUint ev "gas_refunded_ptra" = .ok refund →
          Settles s agent (u256At s (fieldPath ch "escrowed_ptra")) refund → NonceFits s agent := by
    intro ch h agent
    unfold settleFailed
    split_ifs
    · rw [bind_assoc, Calm, throwsOnly_bind, and_iff_right (calm_optUint ev _)]
      exact forall_congr' fun _ => forall_congr' fun _ => calm_settle_close (calm_chargeNow _ _ _)
        chargeNow_returns_iff fun _ => sameNonces_chargeNow
    · rw [bind_assoc, Calm, throwsOnly_bind, and_iff_right (calm_optUint ev _)]
      exact forall_congr' fun _ => forall_congr' fun _ => calm_settle_close
        (calm_settleEscrow _ _ _ _) settleEscrow_returns_iff fun _ => sameNonces_settleEscrow
  rw [calFailed, Calm, throwsOnly_bind, and_iff_right (calm_reqStr ev _)]
  constructor
  · intro h ch e agent hch he hagent
    have hrest := (throwsOnly_bind.mp ((throwsOnly_bind.mp (h ch hch)).2 e he)).2 agent
      (rust_agent_eq_ok.mpr hagent)
    exact (hsettle ch e agent).mp hrest
  · intro h ch hch
    refine throwsOnly_bind.mpr ⟨calm_requireFlight s ch, fun e he => ?_⟩
    refine throwsOnly_bind.mpr ⟨calm_orErr _ _, fun agent hagent => ?_⟩
    exact (hsettle ch e agent).mpr (h ch e agent hch he (rust_agent_eq_ok.mp hagent))

theorem calm_calFinalized {s : State} {ev : Event} :
    Calm (calFinalized rust s ev) ↔ EventType.KeepsNonce s ev .finalized := by
  have hsettle : ∀ t agent escrowed refund ch,
      Calm (settleEscrow t agent escrowed refund >>= fun u => closeFlight rust u agent ch) ↔
        (Settles t agent escrowed refund → NonceFits t agent) := fun _ _ _ _ _ =>
    calm_settle_close (calm_settleEscrow _ _ _ _) settleEscrow_returns_iff
      fun _ => sameNonces_settleEscrow
  rw [calFinalized, Calm, throwsOnly_bind, and_iff_right (calm_reqStr ev _)]
  constructor
  · intro h ch e agent refund t hch he hstage hagent hrefund ht
    have h1 := (throwsOnly_bind.mp (h ch hch)).2 e he
    have h2 := (throwsOnly_bind.mp h1).2 () (requireStage_eq_ok.mpr hstage)
    have h3 := (throwsOnly_bind.mp h2).2 agent (rust_agent_eq_ok.mpr hagent)
    have h4 := (throwsOnly_bind.mp h3).2 refund hrefund
    exact (hsettle t agent _ refund ch).mp ((throwsOnly_bind.mp h4).2 t ht)
  · intro h ch hch
    refine throwsOnly_bind.mpr ⟨calm_requireFlight s ch, fun e he => ?_⟩
    refine throwsOnly_bind.mpr ⟨calm_requireStage e _, fun u hstage => ?_⟩
    refine throwsOnly_bind.mpr ⟨calm_orErr _ _, fun agent hagent => ?_⟩
    refine throwsOnly_bind.mpr ⟨calm_optUint ev _, fun refund hrefund => ?_⟩
    refine throwsOnly_bind.mpr ⟨throwsOnly_foldlM calm_applyDeltaJson s, fun t ht => ?_⟩
    exact (hsettle t agent _ refund ch).mpr (h ch e agent refund t hch he
      (requireStage_eq_ok.mp hstage) (rust_agent_eq_ok.mp hagent) hrefund ht)

/-- A step panics only at the nonce that it uses up. -/
theorem calm_step_iff (t : EventType) (s : State) (ev : Event) :
    Calm (step rust t s ev) ↔ EventType.KeepsNonce s ev t := by
  have htrue : ∀ {P : Prop}, P → (P ↔ True) := fun h => ⟨fun _ => trivial, fun _ => h⟩
  cases t with
  | finalized => exact calm_calFinalized
  | failed | expired => exact calm_calFailed
  | created => exact htrue (by simp [step, calCreated])
  | signed => exact htrue (by simp [step, calSigned])
  | validated => exact htrue (by simp [step, calValidated, rust])
  | executed => exact htrue (by simp [step, calExecuted])
  | settled => exact htrue (by simp [step, calSettled])
  | transferred => exact htrue (by simp [step, ptraTransferred])
  | shadow_init =>
    refine htrue ?_
    simp only [step, ptraShadowInit, Calm, throwsOnly_bind, calm_reqStr, true_and]
    intro _ _
    split <;> exact throwsOnly_pure
  | feed_submitted => exact htrue (by simp [step, oracleFeedSubmitted])
  | tick_advanced => exact htrue (by simp [step, tickAdvanced])

/-- The Rust reducer returns exactly on the events that find a successor of the nonce they use up. -/
theorem rust_returns_iff {s : State} {ev : Event} :
    rust.apply s ev ≠ .error .panicked ↔ NonceKept s ev := by
  have hcalm : rust.apply s ev ≠ .error .panicked ↔ Calm (rust.apply s ev) := by
    constructor
    · rintro h e he rfl
      exact h he
    · intro h hp
      exact h .panicked hp rfl
  rw [hcalm, Port.apply, Calm, throwsOnly_bind, and_iff_right (calm_orErr _ _)]
  simp only [throwsOnly_bind, calm_orErr, true_and, orErr_eq_ok, NonceKept]
  constructor
  · intro h t ht
    exact (calm_step_iff t s ev).mp (h _ (by rw [ht]; rfl) t (EventType.ofStr?_name t))
  · intro h type htype t ht
    refine (calm_step_iff t s ev).mpr (h t ?_)
    cases hget : get ev (js "event_type") with
    | none => rw [hget] at htype; cases htype
    | some v =>
      rw [hget] at htype
      cases v with
      | str w => cases htype; rw [EventType.name_of_ofStr? ht]
      | _ => cases htype

/-! ## Both reducers -/

/-- Neither implementation lets anything but a typed error escape: the reference implementation where
the fields that it converts and computes with are what they should be, the Rust one where the nonce that
it uses up has a successor. -/
theorem reducer_total (s : State) (ev : List (Str × Json)) :
    ((∃ r, apply s (.obj ev) = .ok r) ∧ rust.apply s (.obj ev) ≠ .error .panicked) ↔
      Handled s (.obj ev) ∧ NonceKept s (.obj ev) :=
  and_congr apply_returns_iff rust_returns_iff

/-- A failure of a CAL named like the object that every object inherits. -/
def protoFailed : List (Str × Json) :=
  [(js "event_type", .str (js "cal.failed")), (js "cal_hash", .str (js "__proto__"))]

/-- The last event of a CAL whose agent has the largest nonce. -/
def lastNonce : State :=
  .obj [(js "cal", .obj [
    (js "in_flight", .obj [(js "c", newEntry (js "a"))]),
    (js "nonces", .obj [(js "a", .int UINT256_MAX)])])]

/-- On the genesis state the reference implementation throws on an event, and on a state with the
largest nonce the Rust implementation panics. -/
theorem reducer_escapes :
    ¬(∃ r, apply genesis (.obj protoFailed) = .ok r) ∧
      rust.apply lastNonce (.obj [(js "event_type", .str (js "cal.failed")),
        (js "cal_hash", .str (js "c"))]) = .error .panicked := by
  constructor
  · rintro ⟨r, hr⟩
    have hthrow : (apply genesis (.obj protoFailed)).isOk = false := by decide +kernel
    rw [hr] at hthrow
    cases hthrow
  · rfl

end ParadigmTerra.Ports
