import ParadigmTerra.Reducer.TaskBoard

/-!
# Integers in the range of a uint256

The integers of the state are unbounded bigints that are meant to be uint256s. Each write checks the end of
the range that it can pass with well-formed operands: a debit checks zero, an `add` delta the largest
uint256. The other end is open. `checked_uint256` says exactly which accepted events keep every integer of
the state in range (`InRange`): the credits of transfers and refunds, the fees and the nonces must not
pass the largest uint256, and the operands of deltas must not be so far out of range that they carry the
result over the end that is not checked.

`UintValue` is the invariant, over the integers at any path of members: those are the ones that a delta can
reach. `uintValue_setIn` and `UintValue.deleteIn` are what the writes of the reducer do to it.
-/

namespace ParadigmTerra

open Text OrderedMap Fallible

/-- Every integer that a path leads to is a uint256. -/
def UintValue (v : Json) : Prop := ∀ p n, ownIn v p = some (.int n) → IsUint n

/-! ## Writes -/

section Writes

variable {s t u : State} {v : Json} {p q : List Str} {n : ℤ}

theorem uintValue_int : UintValue (.int n) ↔ IsUint n := by
  constructor
  · intro h
    exact h [] n rfl
  · intro h q k hk
    cases q with
    | nil =>
      cases hk
      exact h
    | cons j q => cases hk

/-- A value that is no integer and has no members. -/
theorem uintValue_of_bare (hint : ∀ k, v ≠ .int k) (hmembers : v.members = []) : UintValue v := by
  intro q k hk
  cases q with
  | nil => exact absurd (Option.some.inj hk) (hint k)
  | cons j q =>
    rw [ownIn, hmembers] at hk
    cases hk

theorem uintValue_obj {m : List (Str × Json)} (h : ∀ e ∈ m, UintValue e.2) : UintValue (.obj m) := by
  intro q k hk
  cases q with
  | nil => cases hk
  | cons j q =>
    rw [ownIn, Option.bind_eq_some_iff] at hk
    obtain ⟨w, hw, hk⟩ := hk
    exact h _ (mem_of_get hw) q k hk

/-- A write keeps the integers in range exactly if the integers of the new value are. -/
theorem uintValue_setIn (hs : UintValue s) : UintValue (setIn (some s) p v) ↔ UintValue v := by
  constructor
  · intro h q k hk
    exact h (p ++ q) k (by rw [ownIn_setIn_append, hk])
  · intro h q k hk
    rcases apart_or_append p q with hap | ⟨r, rfl⟩ | ⟨j, r, rfl⟩
    · exact hs q k (by rw [← hk, ownIn_setIn_of_apart hap])
    · exact h r k (by rw [← hk, ownIn_setIn_append])
    · -- above the path that is written stands an object
      obtain ⟨o, ho, -⟩ := ownIn_setIn_prefix s q j r v
      rw [ho] at hk
      cases hk

/-- Deleting leaves only integers that were there. -/
theorem int_of_ownIn_deleteIn {v : Json} (h : ownIn (deleteIn (some v) p) q = some (.int n)) :
    ownIn v q = some (.int n) := by
  have hinh : ∀ {w : Json} {r : List Str}, w.IsInherited → ownIn w r ≠ some (.int n) := by
    intro w r hi hw
    cases r with
    | nil =>
      cases hw
      exact hi
    | cons i r =>
      rw [ownIn_cons_of_isInherited hi] at hw
      cases hw
  have hempty : ownIn (.obj []) q ≠ some (.int n) := by cases q <;> simp [ownIn, Json.members]
  induction p generalizing v q with
  | nil =>
    cases v <;> first | exact h | exact absurd h hempty
  | cons k p ih =>
    cases p with
    | nil =>
      cases v with
      | obj m =>
        cases q with
        | nil => cases h
        | cons j q =>
          simp only [deleteIn, Json.isPlainObject, if_true, ownIn, Json.members, get_erase] at h
          split at h
          · cases h
          · exact h
      | builtin b =>
        simp only [deleteIn] at h
        split at h
        · exact absurd h hempty
        · exact h
      | null => exact absurd h hempty
      | _ => exact h
    | cons l p =>
      cases v with
      | obj m =>
        rw [deleteIn_cons_obj] at h
        rcases (Json.obj m).read_eq_or k with hr | ⟨-, w, hw, hi⟩
        · cases hg : get k (Json.obj m).members with
          | none =>
            rw [hr, hg] at h
            exact h
          | some w =>
            rw [hr, hg] at h
            cases q with
            | nil => cases h
            | cons j q =>
              rw [ownIn, Json.members, get_put] at h
              split at h
              · next hkj =>
                subst hkj
                rw [ownIn, hg]
                exact ih h (by cases q <;> simp [ownIn, Json.members])
              · exact h
        · rw [hw] at h
          cases q with
          | nil => cases h
          | cons j q =>
            rw [ownIn, Json.members, get_put] at h
            split at h
            · exact absurd (ih h (by cases q <;> simp [ownIn, Json.members])) (hinh hi)
            · exact h
      | builtin b =>
        simp only [deleteIn] at h
        split at h
        · rcases (Json.builtin b).read_eq_or k with hr | ⟨-, w, hw, hi⟩
          · simp only [hr, Json.members, get_nil] at h
            exact h
          · simp only [hw, Json.members] at h
            cases q with
            | nil => cases h
            | cons j q =>
              rw [ownIn, Json.members, get_put] at h
              split at h
              · exact absurd (ih h (by cases q <;> simp [ownIn, Json.members])) (hinh hi)
              · cases h
        · exact h
      | null => exact absurd h hempty
      | _ => exact h

theorem UintValue.deleteIn (hs : UintValue s) : UintValue (deleteIn (some s) p) :=
  fun q k hk => hs q k (int_of_ownIn_deleteIn hk)

end Writes

/-! ## Deltas -/

/-- The integer that a delta changes, zero where nothing stands. -/
def current (s : State) (full : List Str) : ℤ := asBig (getIn s full) 0

/-- The integer operand of a delta. -/
def deltaOperand (d : Json) : ℤ := asBig (d.read (js "value")) 0

/-- What an operation writes is in range: the integers of the value that it sets, a sum that the operand
does not carry below zero, a difference that the operand does not carry over the top. -/
def InRangeOp (s : State) (full : List Str) (d : Json) : DeltaOp → Prop
  | .set => UintValue (orElse (d.read (js "value")) .null)
  | .delete => True
  | .add => 0 ≤ current s full + deltaOperand d
  | .sub => current s full - deltaOperand d ≤ UINT256_MAX

/-- The integers that a delta writes are uint256s. -/
def InRangeDelta (s : State) (d : Json) : Prop :=
  ∀ full op, deltaTarget d = some (full, op) → InRangeOp s full d op

/-- Each delta of a list writes uint256s on the state that it finds. -/
def InRangeDeltas : State → List Json → Prop
  | _, [] => True
  | s, d :: ds => InRangeDelta s d ∧ ∀ t, applyDeltaJson s d = .ok t → InRangeDeltas t ds

section Deltas

variable {s t : State} {d : Json} {full : List Str}

theorem asBigint_eq_ok {v : Option Json} {n : ℤ} (h : asBigint v = .ok n) : v = some (.int n) := by
  unfold asBigint at h
  split at h
  · rw [pure_eq_ok.mp h]
  · exact (throw_eq_ok.mp h).elim

theorem current_of_asBigint {cur : ℤ} (h : asBigint (orElse (getIn s full) (.int 0)) = .ok cur) :
    current s full = cur := by
  have hcur := asBigint_eq_ok h
  unfold current
  unfold orElse at hcur
  split at hcur
  · next hnone =>
    rw [hnone]
    cases hcur
    rfl
  · next hnull =>
    rw [hnull]
    cases hcur
    rfl
  · next w hw =>
    rw [hw, hcur]
    rfl

theorem deltaOperand_of_asBigint {n : ℤ} (h : asBigint (d.read (js "value")) = .ok n) : deltaOperand d = n := by
  rw [deltaOperand, asBigint_eq_ok h]
  rfl

/-- The integers that an integer operation of a delta changes. -/
theorem applyOp_add {v : Option Json} (h : applyOp s full .add v = .ok t) :
    ∃ cur n, asBigint (orElse (getIn s full) (.int 0)) = .ok cur ∧ asBigint v = .ok n ∧
      cur + n ≤ UINT256_MAX ∧ t = setIn (some s) full (.int (cur + n)) := by
  simp only [applyOp, bind_eq_ok, require_eq_ok, pure_eq_ok] at h
  obtain ⟨cur, hcur, n, hn, -, hle, rfl⟩ := h
  exact ⟨cur, n, hcur, hn, by omega, rfl⟩

theorem applyOp_sub {v : Option Json} (h : applyOp s full .sub v = .ok t) :
    ∃ cur n, asBigint (orElse (getIn s full) (.int 0)) = .ok cur ∧ asBigint v = .ok n ∧
      0 ≤ cur - n ∧ t = setIn (some s) full (.int (cur - n)) := by
  simp only [applyOp, bind_eq_ok, require_eq_ok, pure_eq_ok] at h
  obtain ⟨cur, hcur, n, hn, -, hle, rfl⟩ := h
  exact ⟨cur, n, hcur, hn, by omega, rfl⟩

/-- A delta that is applied keeps the integers in range exactly if what it writes is. -/
theorem applyDeltaJson_uint (hs : UintValue s) (h : applyDeltaJson s d = .ok t) :
    UintValue t ↔ InRangeDelta s d := by
  obtain ⟨ns, path, op, -, htarget, happ⟩ := applyDeltaJson_eq_ok h
  have hrange : InRangeDelta s d ↔ InRangeOp s (ns :: path) d op := by
    constructor
    · intro hd
      exact hd _ _ htarget
    · intro hd full op' ht
      rw [htarget, Option.some.injEq, Prod.mk.injEq] at ht
      obtain ⟨rfl, rfl⟩ := ht
      exact hd
  rw [hrange]
  cases op with
  | set =>
    simp only [applyOp, bind_eq_ok, pure_eq_ok] at happ
    obtain ⟨-, -, rfl⟩ := happ
    exact uintValue_setIn hs
  | delete =>
    have ht := pure_eq_ok.mp happ
    rw [← ht]
    exact ⟨fun _ => trivial, fun _ => hs.deleteIn⟩
  | add =>
    obtain ⟨cur, n, hcur, hn, hle, rfl⟩ := applyOp_add happ
    rw [uintValue_setIn hs, uintValue_int, InRangeOp, current_of_asBigint hcur,
      deltaOperand_of_asBigint hn]
    unfold IsUint
    omega
  | sub =>
    obtain ⟨cur, n, hcur, hn, hle, rfl⟩ := applyOp_sub happ
    rw [uintValue_setIn hs, uintValue_int, InRangeOp, current_of_asBigint hcur,
      deltaOperand_of_asBigint hn]
    unfold IsUint
    omega

/-- A list of deltas keeps the integers in range at each step exactly if each delta writes uint256s. -/
theorem foldlM_uint {ds : List Json} (hs : UintValue s) (h : ds.foldlM applyDeltaJson s = .ok t) :
    (∀ ds' u, ds' <+: ds → ds'.foldlM applyDeltaJson s = .ok u → UintValue u) ↔
      InRangeDeltas s ds := by
  induction ds generalizing s with
  | nil =>
    refine ⟨fun _ => trivial, fun _ ds' u hpre hu => ?_⟩
    rw [List.prefix_nil.mp hpre] at hu
    exact foldlM_nil_ok.mp hu ▸ hs
  | cons d ds ih =>
    obtain ⟨v, hv, htail⟩ := foldlM_cons_ok.mp h
    have hstep := applyDeltaJson_uint hs hv
    constructor
    · intro hall
      have hvu : UintValue v :=
        hall [d] v (by simp) (foldlM_cons_ok.mpr ⟨v, hv, foldlM_nil_ok.mpr rfl⟩)
      refine ⟨hstep.mp hvu, fun w hw => ?_⟩
      obtain rfl : v = w := Except.ok.inj (hv.symm.trans hw)
      exact (ih hvu htail).mp fun ds' u hpre hu =>
        hall (d :: ds') u (List.cons_prefix_cons.mpr ⟨rfl, hpre⟩) (foldlM_cons_ok.mpr ⟨v, hv, hu⟩)
    · rintro ⟨hd, hrest⟩ ds' u hpre hu
      have hvu : UintValue v := hstep.mpr hd
      cases ds' with
      | nil => exact foldlM_nil_ok.mp hu ▸ hs
      | cons e ds' =>
        obtain ⟨rfl, htl⟩ := List.cons_prefix_cons.mp hpre
        obtain ⟨w, hw, hu⟩ := foldlM_cons_ok.mp hu
        obtain rfl : v = w := Except.ok.inj (hv.symm.trans hw)
        exact (ih hvu htail).mpr (hrest v hv) ds' u htl hu

end Deltas

/-! ## Events -/

/-- The refund that an event carries. -/
def refundOf (ev : Event) : ℤ := asBig (ev.read (js "gas_refunded_ptra")) 0

/-- The charge that an event carries. -/
def chargeOf (ev : Event) : ℤ := asBig (ev.read (js "fee_debited_ptra")) 0

/-- The charge of a failure before VALIDATED fits into the fees, and the agent's next nonce is a uint256. -/
structure ChargeInRange (s : State) (agent : Str) (charge : ℤ) : Prop where
  fees : fees s + charge ≤ UINT256_MAX
  nonce : nonceOf s agent + 1 ≤ UINT256_MAX

/-- The refund out of an escrow fits into the agent's balance and the rest into the fees, and the agent's
next nonce is a uint256. -/
structure SettleInRange (s : State) (agent : Str) (escrow refund : ℤ) : Prop where
  balance : bal s agent + refund ≤ UINT256_MAX
  fees : fees s + (escrow - refund) ≤ UINT256_MAX
  nonce : nonceOf s agent + 1 ≤ UINT256_MAX

/-- The end of a CAL keeps the integers in range: of the entry that stands in `s`, on the state `u` that
the deltas have led to. -/
def EndInRange (s u : State) (ev : Event) : Prop :=
  ∀ ch m agent, ev.read (js "cal_hash") = some (.str ch) → get ch (flights s) = some (.obj m) →
    agentKey (.obj m) = .ok agent →
      if isStr (get (js "stage") m) (js "CREATED") || isStr (get (js "stage") m) (js "SIGNED") then
        ChargeInRange u agent (chargeOf ev)
      else SettleInRange u agent (escrowOf (.obj m)) (refundOf ev)

/-- The recipient of a transfer can take the amount, after the sender was debited. -/
def TransferInRange (s : State) (ev : Event) : Prop :=
  ∀ sender recipient amount, ev.read (js "from") = some (.str sender) →
    ev.read (js "to") = some (.str recipient) → ev.read (js "amount_nano_ptra") = some (.int amount) →
      bal (setBalance s sender (bal s sender - amount)) recipient + amount ≤ UINT256_MAX

/-- The integers that an event of the type writes are uint256s. -/
def EventType.InRange : EventType → State → Event → Prop
  | finalized, s, ev => InRangeDeltas s (committed s ev) ∧
      ∀ u, (committed s ev).foldlM applyDeltaJson s = .ok u → EndInRange s u ev
  | failed, s, ev | expired, s, ev => EndInRange s s ev
  | transferred, s, ev => TransferInRange s ev
  | feed_submitted, _, ev => UintValue (orElse (ev.read (js "value")) .null)
  | _, _, _ => True

/-- The integers that an event writes are uint256s. -/
def InRange (s : State) (ev : Event) : Prop :=
  ∀ type : EventType, ev.read (js "event_type") = some (.str type.name) → type.InRange s ev

/-- The integers stay in range, after the event and after each delta that it commits. -/
structure StaysUint (s : State) (ev : Event) (t : State) : Prop where
  commits : ∀ ds u, ds <+: committed s ev → ds.foldlM applyDeltaJson s = .ok u → UintValue u
  final : UintValue t

section Events

variable {s t u : State} {ev : Event} {ch agent : Str} {n x : ℤ}

theorem UintValue.int (hs : UintValue s) (p : List Str) : IsUint (asBig (getIn s p) 0) := by
  rw [asBig_getIn]
  unfold asBig
  split
  · next k hk => exact hs p k hk
  · exact ⟨le_rfl, by decide⟩

theorem UintValue.setBalance (hs : UintValue s) :
    UintValue (setBalance s agent n) ↔ IsUint n := by
  rw [ParadigmTerra.setBalance, uintValue_setIn hs, uintValue_int]

/-- The fees and the nonce of a CAL that ends. -/
theorem uintValue_end (hs : UintValue s) (hx : 0 ≤ x) :
    UintValue (deleteIn (some (bumpNonce (addFees s x) agent)) (flightPath ch)) ↔
      fees s + x ≤ UINT256_MAX ∧ nonceOf s agent + 1 ≤ UINT256_MAX := by
  have hfees : IsUint (fees s) := hs.int feesPath
  have hnonce : IsUint (nonceOf s agent) := hs.int (noncePath agent)
  have hkeep : nonceOf (addFees s x) agent = nonceOf s agent := nonceOf_addFees s agent x
  unfold IsUint at hfees hnonce
  constructor
  · -- the two integers stand in the new state
    intro h
    have h1 := h feesPath (fees s + x) (by
      rw [ownIn_deleteIn_of_apart (by simp), bumpNonce, ownIn_setIn_of_apart (by simp), addFees,
        ownIn_setIn]
      rfl)
    have h2 := h (noncePath agent) (nonceOf (addFees s x) agent + 1) (by
      rw [ownIn_deleteIn_of_apart (by simp), bumpNonce, ownIn_setIn]
      rfl)
    rw [hkeep] at h2
    unfold IsUint at h1 h2
    omega
  · rintro ⟨h1, h2⟩
    have hadd : UintValue (addFees s x) := by
      rw [addFees, uintValue_setIn hs, uintValue_int]
      change IsUint (fees s + x)
      unfold IsUint
      omega
    refine UintValue.deleteIn ?_
    rw [bumpNonce, uintValue_setIn hadd, uintValue_int]
    change IsUint (nonceOf (addFees s x) agent + 1)
    rw [hkeep]
    unfold IsUint
    omega

/-- The same after the agent's balance was written. -/
theorem uintValue_end_of_balance (hs : UintValue s) (hx : 0 ≤ x) :
    UintValue (deleteIn (some (bumpNonce (addFees (setBalance s agent n) x) agent)) (flightPath ch)) ↔
      IsUint n ∧ fees s + x ≤ UINT256_MAX ∧ nonceOf s agent + 1 ≤ UINT256_MAX := by
  have hend : IsUint n → (UintValue (deleteIn (some (bumpNonce (addFees (setBalance s agent n) x) agent))
      (flightPath ch)) ↔ fees s + x ≤ UINT256_MAX ∧ nonceOf s agent + 1 ≤ UINT256_MAX) := by
    intro hn
    rw [uintValue_end (hs.setBalance.mpr hn) hx, fees_setBalance, nonceOf_setBalance]
  constructor
  · intro h
    have hn : IsUint n := h (balancePath agent) n (by
      rw [ownIn_deleteIn_of_apart (by simp), bumpNonce, ownIn_setIn_of_apart (by simp), addFees,
        ownIn_setIn_of_apart (by simp), ParadigmTerra.setBalance, ownIn_setIn])
    exact ⟨hn, (hend hn).mp h⟩
  · rintro ⟨hn, h⟩
    exact (hend hn).mpr h

theorem asBig_of_optUint {k : String} (h : optUint ev k = .ok n) : asBig (ev.read (js k)) 0 = n := by
  unfold optUint at h
  split at h
  · rw [(reqUint_eq_ok h).1]
    rfl
  · next hnone =>
    rw [Option.not_isSome_iff_eq_none.mp hnone]
    exact pure_eq_ok.mp h

/-- A CAL that ends with a refund out of its escrow. -/
theorem uintValue_settled {m : List (Str × Json)} {refund : ℤ} (hu : UintValue u)
    (hr : IsUint refund) (hagent : agentKey (.obj m) = .ok agent)
    (hsettle : settleEscrow u (.obj m) refund = .ok s) (hclose : closeFlight s (.obj m) ch = .ok t) :
    UintValue t ↔ SettleInRange u agent (escrowOf (.obj m)) refund := by
  obtain ⟨a, ha, rfl⟩ := closeFlight_eq_ok hclose
  obtain rfl : agent = a := Except.ok.inj (hagent.symm.trans ha)
  obtain ⟨e, m', heq, hm', hle, hcases⟩ := settleEscrow_eq_ok hsettle
  cases heq
  have hescrow : escrowOf (.obj m) = e := by
    unfold escrowOf
    rw [show (Json.obj m).members = m from rfl, hm']
    rfl
  have hbal : IsUint (bal u agent) := hu.int (balancePath agent)
  rw [hescrow]
  unfold IsUint at hr hbal
  have hrest : 0 ≤ e - refund := by omega
  rcases hcases with ⟨hpos, a, ha', rfl⟩ | ⟨hzero, rfl⟩
  · obtain rfl : agent = a := Except.ok.inj (hagent.symm.trans ha')
    rw [uintValue_end_of_balance hu hrest]
    unfold IsUint
    constructor
    · rintro ⟨hb, hf, hn⟩
      exact ⟨by omega, hf, hn⟩
    · rintro ⟨hb, hf, hn⟩
      exact ⟨by omega, hf, hn⟩
  · rw [uintValue_end hu hrest]
    constructor
    · rintro ⟨hf, hn⟩
      exact ⟨by omega, hf, hn⟩
    · rintro ⟨-, hf, hn⟩
      exact ⟨hf, hn⟩

/-- A CAL that ends with a charge. -/
theorem uintValue_charged {h : Json} {charge : ℤ} (hu : UintValue u) (hc : IsUint charge)
    (hagent : agentKey h = .ok agent) (hcharge : chargeNow u h charge = .ok s)
    (hclose : closeFlight s h ch = .ok t) : UintValue t ↔ ChargeInRange u agent charge := by
  obtain ⟨a, ha, rfl⟩ := closeFlight_eq_ok hclose
  obtain rfl : agent = a := Except.ok.inj (hagent.symm.trans ha)
  simp only [chargeNow, bind_eq_ok, require_eq_ok, pure_eq_ok] at hcharge
  obtain ⟨a, ha', -, hle, rfl⟩ := hcharge
  obtain rfl : agent = a := Except.ok.inj (hagent.symm.trans ha')
  have hbal : IsUint (bal u agent) := hu.int (balancePath agent)
  unfold IsUint at hc hbal
  have hrange : (IsUint (bal u agent - charge)) := by
    unfold IsUint
    omega
  split
  · rw [uintValue_end_of_balance hu hc.1]
    constructor
    · rintro ⟨-, hf, hn⟩
      exact ⟨hf, hn⟩
    · rintro ⟨hf, hn⟩
      exact ⟨hrange, hf, hn⟩
  · rw [uintValue_end hu hc.1]
    constructor
    · rintro ⟨hf, hn⟩
      exact ⟨hf, hn⟩
    · rintro ⟨hf, hn⟩
      exact ⟨hf, hn⟩

/-- The entry of the CAL decides what its end must keep in range. -/
theorem endInRange_iff {m : List (Str × Json)} (hch : ev.read (js "cal_hash") = some (.str ch))
    (hm : get ch (flights s) = some (.obj m)) (hagent : agentKey (.obj m) = .ok agent) :
    EndInRange s u ev ↔
      if isStr (get (js "stage") m) (js "CREATED") || isStr (get (js "stage") m) (js "SIGNED") then
        ChargeInRange u agent (chargeOf ev)
      else SettleInRange u agent (escrowOf (.obj m)) (refundOf ev) := by
  constructor
  · intro h
    exact h ch m agent hch hm hagent
  · intro h c m' a hc hm' ha
    obtain rfl : ch = c := by simpa using hch.symm.trans hc
    obtain rfl : m = m' := by simpa using hm.symm.trans hm'
    obtain rfl : agent = a := Except.ok.inj (hagent.symm.trans ha)
    exact h

/-- The end of a failed or expired CAL. -/
theorem calFailed_uint (hs : UintValue s) (h : calFailed s ev = .ok t) :
    UintValue t ↔ EndInRange s s ev := by
  simp only [calFailed, bind_eq_ok] at h
  obtain ⟨ch, hch, e, hf, u, hu, hclose⟩ := h
  obtain ⟨⟨m, rfl⟩, -, -⟩ := settleFailed_frame hf hu
  obtain ⟨agent, hagent, -⟩ := closeFlight_eq_ok hclose
  have hm : get ch (flights s) = some (.obj m) := by
    rcases inFlight_cases (requireFlight_eq_ok.mp hf) with ⟨m', heq, hm'⟩ | ⟨k, heq⟩
    · cases heq
      exact hm'
    · cases heq
  rw [endInRange_iff (reqStr_eq_ok hch) hm hagent]
  unfold settleFailed at hu
  rw [read_obj_js not_inherited_stage] at hu
  split at hu
  · next hearly =>
    simp only [bind_eq_ok] at hu
    obtain ⟨charge, hcharge, hu⟩ := hu
    rw [if_pos hearly, chargeOf, asBig_of_optUint hcharge]
    exact uintValue_charged hs (optUint_eq_ok hcharge) hagent hu hclose
  · next hlate =>
    simp only [bind_eq_ok] at hu
    obtain ⟨refund, hrefund, hu⟩ := hu
    rw [if_neg hlate, refundOf, asBig_of_optUint hrefund]
    exact uintValue_settled hs (optUint_eq_ok hrefund) hagent hu hclose

/-- A finalized CAL: its deltas, and its end on the state that they lead to. -/
theorem calFinalized_uint (hs : UintValue s) (h : calFinalized s ev = .ok t)
    (htype : ev.read (js "event_type") = some (.str EventType.finalized.name)) :
    StaysUint s ev t ↔ EventType.finalized.InRange s ev := by
  simp only [calFinalized, bind_eq_ok] at h
  obtain ⟨ch, hch, e, hf, _, hst, refund, hrefund, staged, hstaged, u, hu, v, hv, hclose⟩ := h
  obtain ⟨m, rfl, hm, hstage⟩ := flight_at_stage hf hst
  obtain ⟨agent, hagent, -⟩ := closeFlight_eq_ok hclose
  have hcommitted := committed_of_finalized htype hch hf hstaged
  have hdeltas := foldlM_uint hs hu
  have hend : UintValue u → (UintValue t ↔ EndInRange s u ev) := by
    intro huint
    have hlate : ¬(isStr (get (js "stage") m) (js "CREATED") ||
        isStr (get (js "stage") m) (js "SIGNED")) = true := by simp [hstage, isStr]
    rw [endInRange_iff (reqStr_eq_ok hch) hm hagent, if_neg hlate, refundOf,
      asBig_of_optUint hrefund]
    exact uintValue_settled huint (optUint_eq_ok hrefund) hagent hv hclose
  simp only [EventType.InRange]
  rw [hcommitted]
  constructor
  · rintro ⟨hcommits, hfinal⟩
    rw [hcommitted] at hcommits
    refine ⟨hdeltas.mp hcommits, fun w hw => ?_⟩
    obtain rfl : u = w := Except.ok.inj (hu.symm.trans hw)
    exact (hend (hcommits staged u (List.prefix_refl _) hu)).mp hfinal
  · rintro ⟨hds, hterminal⟩
    have hcommits := hdeltas.mpr hds
    refine ⟨by rwa [hcommitted], ?_⟩
    exact (hend (hcommits staged u (List.prefix_refl _) hu)).mpr (hterminal u hu)

/-- An event that commits no deltas. -/
theorem staysUint_iff {type : EventType} (hs : UintValue s) (hne : type ≠ .finalized)
    (htype : ev.read (js "event_type") = some (.str type.name)) : StaysUint s ev t ↔ UintValue t := by
  refine ⟨fun h => h.final, fun h => ⟨fun ds u hpre hu => ?_, h⟩⟩
  rw [committed_of_ne hne htype, List.prefix_nil] at hpre
  rw [hpre] at hu
  exact foldlM_nil_ok.mp hu ▸ hs

/-- An entry just created holds zeros. -/
theorem uintValue_newEntry (agent : Str) : UintValue (newEntry agent) := by
  refine uintValue_obj fun e he => ?_
  simp only [List.mem_cons, List.not_mem_nil, or_false] at he
  rcases he with rfl | rfl | rfl | rfl | rfl
  · exact uintValue_of_bare (by simp) rfl
  · exact uintValue_of_bare (by simp) rfl
  · exact uintValue_int.mpr (by decide)
  · exact uintValue_int.mpr (by decide)
  · exact uintValue_of_bare (by simp) rfl

/-- The events that write only what they have checked. -/
theorem step_uint {type : EventType} (hs : UintValue s) (h : type.step s ev = .ok t)
    (htype : type = .created ∨ type = .signed ∨ type = .validated ∨ type = .executed ∨
      type = .settled ∨ type = .shadow_init ∨ type = .tick_advanced) : UintValue t := by
  have htext : ∀ {s : State} {p : List Str} {x : Str}, UintValue s →
      UintValue (setIn (some s) p (.str x)) := fun hs =>
    (uintValue_setIn hs).mpr (uintValue_of_bare (by simp) rfl)
  rcases htype with rfl | rfl | rfl | rfl | rfl | rfl | rfl
  · simp only [EventType.step, calCreated, bind_eq_ok, pure_eq_ok] at h
    obtain ⟨ch, -, agent, -, -, -, -, -, rfl⟩ := h
    exact (uintValue_setIn hs).mpr (uintValue_newEntry agent)
  · simp only [EventType.step, calSigned, bind_eq_ok, pure_eq_ok] at h
    obtain ⟨ch, -, e, -, -, -, rfl⟩ := h
    exact htext hs
  · simp only [EventType.step, calValidated, bind_eq_ok, require_eq_ok, pure_eq_ok] at h
    obtain ⟨ch, -, e, -, -, -, escrow, hescrow, agent, -, -, hle, rfl⟩ := h
    have hbal : IsUint (bal s agent) := hs.int (balancePath agent)
    have huint := (reqUint_eq_ok hescrow).2
    -- the debit is checked
    have hrest : IsUint (bal s agent - escrow) := by
      unfold IsUint at hbal huint ⊢
      omega
    exact htext ((uintValue_setIn (hs.setBalance.mpr hrest)).mpr (uintValue_int.mpr huint))
  · simp only [EventType.step, calExecuted, bind_eq_ok] at h
    obtain ⟨ch, -, e, -, -, -, h⟩ := h
    split at h
    · next effects _ =>
      simp only [bind_eq_ok, pure_eq_ok] at h
      obtain ⟨gas, hgas, rfl⟩ := h
      -- no path leads into a list
      have hstaged : UintValue (setIn (some s) (fieldPath ch "staged") (.arr effects)) :=
        (uintValue_setIn hs).mpr (uintValue_of_bare (by simp) rfl)
      exact htext ((uintValue_setIn hstaged).mpr (uintValue_int.mpr (reqUint_eq_ok hgas).2))
    · cases h
  · simp only [EventType.step, calSettled, bind_eq_ok, pure_eq_ok] at h
    obtain ⟨ch, -, e, -, -, -, rfl⟩ := h
    exact htext hs
  · simp only [EventType.step, ptraShadowInit, bind_eq_ok] at h
    obtain ⟨addr, -, h⟩ := h
    split at h
    · exact pure_eq_ok.mp h ▸ hs
    · rw [← pure_eq_ok.mp h]
      exact hs.setBalance.mpr (by decide)
  · simp only [EventType.step, tickAdvanced, bind_eq_ok] at h
    obtain ⟨next, hnext, h⟩ := h
    split at h
    · simp only [bind_eq_ok, pure_eq_ok] at h
      obtain ⟨-, -, rfl⟩ := h
      have htick := (uintValue_setIn (p := [js "tick", js "current"]) hs).mpr
        (uintValue_int.mpr (reqUint_eq_ok hnext).2)
      unfold recomputeBounded
      exact (uintValue_setIn htick).mpr (uintValue_of_bare (by simp) rfl)
    · simp only [bind_eq_ok, throw_eq_ok, and_false, exists_false] at h

/-- A transfer. -/
theorem ptraTransferred_uint (hs : UintValue s) (h : ptraTransferred s ev = .ok t) :
    UintValue t ↔ TransferInRange s ev := by
  simp only [ptraTransferred, bind_eq_ok, require_eq_ok, pure_eq_ok] at h
  obtain ⟨sender, hsender, recipient, hrecipient, amount, hamount, -, hle, rfl⟩ := h
  obtain ⟨hread, huint⟩ := reqUint_eq_ok hamount
  have hbal : IsUint (bal s sender) := hs.int (balancePath sender)
  have hdebit : UintValue (setBalance s sender (bal s sender - amount)) := by
    refine hs.setBalance.mpr ?_
    unfold IsUint at hbal huint ⊢
    omega
  have hcredit := hdebit.int (balancePath recipient)
  change IsUint (bal _ recipient) at hcredit
  rw [hdebit.setBalance]
  have hiff : TransferInRange s ev ↔
      bal (setBalance s sender (bal s sender - amount)) recipient + amount ≤ UINT256_MAX := by
    constructor
    · intro hrange
      exact hrange _ _ _ (reqStr_eq_ok hsender) (reqStr_eq_ok hrecipient) hread
    · intro hrange x y n hx hy hn
      obtain rfl : sender = x := by simpa using (reqStr_eq_ok hsender).symm.trans hx
      obtain rfl : recipient = y := by simpa using (reqStr_eq_ok hrecipient).symm.trans hy
      obtain rfl : amount = n := by simpa using hread.symm.trans hn
      exact hrange
  rw [hiff]
  unfold IsUint at hcredit huint ⊢
  omega

/-- An oracle's value. -/
theorem oracleFeedSubmitted_uint (hs : UintValue s) (h : oracleFeedSubmitted s ev = .ok t) :
    UintValue t ↔ UintValue (orElse (ev.read (js "value")) .null) := by
  simp only [oracleFeedSubmitted, bind_eq_ok, pure_eq_ok] at h
  obtain ⟨symbol, -, rfl⟩ := h
  exact uintValue_setIn hs

theorem inRange_iff {type : EventType} (htype : ev.read (js "event_type") = some (.str type.name)) :
    InRange s ev ↔ type.InRange s ev := by
  constructor
  · intro h
    exact h type htype
  · intro h type' htype'
    have hname := htype.symm.trans htype'
    rw [Option.some.injEq, Json.str.injEq] at hname
    have hof := congrArg EventType.ofStr? hname
    rw [EventType.ofStr?_name, EventType.ofStr?_name, Option.some.injEq] at hof
    exact hof ▸ h

/-- An accepted event keeps the integers in range exactly if what it writes is in range. -/
theorem checked_uint256 (hs : UintValue s) (h : Accepts s ev t) : StaysUint s ev t ↔ InRange s ev := by
  obtain ⟨type, htype, h⟩ := accepts_step h
  rw [inRange_iff htype]
  have hchecked : (type = .created ∨ type = .signed ∨ type = .validated ∨ type = .executed ∨
      type = .settled ∨ type = .shadow_init ∨ type = .tick_advanced) → type.InRange s ev →
      (StaysUint s ev t ↔ type.InRange s ev) := by
    intro hother hrange
    have hne : type ≠ .finalized := by rcases hother with rfl | rfl | rfl | rfl | rfl | rfl | rfl <;> simp
    rw [staysUint_iff hs hne htype]
    exact ⟨fun _ => hrange, fun _ => step_uint hs h hother⟩
  cases type with
  | finalized => exact calFinalized_uint hs h htype
  | failed => exact (staysUint_iff hs (by simp) htype).trans (calFailed_uint hs h)
  | expired => exact (staysUint_iff hs (by simp) htype).trans (calFailed_uint hs h)
  | transferred => exact (staysUint_iff hs (by simp) htype).trans (ptraTransferred_uint hs h)
  | feed_submitted => exact (staysUint_iff hs (by simp) htype).trans (oracleFeedSubmitted_uint hs h)
  | _ => exact hchecked (by simp) trivial

end Events

/-! ## A transfer over the top -/

mutual

/-- A check that finds every integer in range. -/
def uintCheck : Json → Bool
  | .int n => decide (IsUint n)
  | .obj m => uintCheckMembers m
  | _ => true

def uintCheckMembers : List (Str × Json) → Bool
  | [] => true
  | e :: m => uintCheck e.2 && uintCheckMembers m

end

mutual

theorem uintValue_of_check : (v : Json) → uintCheck v = true → UintValue v
  | .int n, h => by
    rw [uintCheck] at h
    exact uintValue_int.mpr (of_decide_eq_true h)
  | .obj m, h => by
    rw [uintCheck] at h
    exact uintValue_obj (uintValue_of_checkMembers m h)
  | .null, _ | .bool _, _ | .str _, _ | .arr _, _ | .builtin _, _ => uintValue_of_bare (by simp) rfl

theorem uintValue_of_checkMembers :
    (m : List (Str × Json)) → uintCheckMembers m = true → ∀ e ∈ m, UintValue e.2
  | [], _ => by simp
  | e :: m, h => by
    rw [uintCheckMembers, Bool.and_eq_true] at h
    exact List.forall_mem_cons.mpr ⟨uintValue_of_check e.2 h.1, uintValue_of_checkMembers m h.2⟩

end

/-- A state in which `B` holds the largest balance. -/
def fullState : State :=
  setBalance (setBalance genesis (js "A") 1) (js "B") UINT256_MAX

/-- A transfer of one from `A`. -/
def transferOne (recipient : String) : Event :=
  .obj [(js "event_type", .str EventType.transferred.name), (js "from", .str (js "A")),
    (js "to", .str (js recipient)), (js "amount_nano_ptra", .int 1)]

theorem uintValue_fullState : UintValue fullState := uintValue_of_check _ (by decide +kernel)

theorem transferOne_accepted (recipient : String)
    (h : (applyEvent fullState (transferOne recipient)).isOk = true) :
    ∃ t, Accepts fullState (transferOne recipient) t := by
  obtain ⟨t, ht⟩ := exists_of_isOk h
  exact ⟨t, accepts_iff.mpr ht⟩

/-- A transfer to a third address stays in range. -/
theorem checked_uint256_transfer :
    ∃ t, Accepts fullState (transferOne "C") t ∧ StaysUint fullState (transferOne "C") t := by
  obtain ⟨t, ht⟩ := transferOne_accepted "C" (by decide +kernel)
  refine ⟨t, ht, (checked_uint256 uintValue_fullState ht).mpr fun type htype => ?_⟩
  have hname : EventType.transferred.name = type.name := by
    simpa [transferOne, Json.read, OrderedMap.get] using htype
  have hof := congrArg EventType.ofStr? hname
  rw [EventType.ofStr?_name, EventType.ofStr?_name, Option.some.injEq] at hof
  subst hof
  intro sender recipient amount hs hr ha
  obtain rfl : js "A" = sender := by simpa [transferOne, Json.read, OrderedMap.get] using hs
  obtain rfl : js "C" = recipient := by simpa [transferOne, Json.read, OrderedMap.get] using hr
  obtain rfl : 1 = amount := by simpa [transferOne, Json.read, OrderedMap.get] using ha
  decide +kernel

/-- A transfer to `B` is accepted, and carries the balance to 2^256. -/
theorem transfer_overflows :
    UintValue fullState ∧ ∃ t, Accepts fullState (transferOne "B") t ∧ bal t (js "B") = 2 ^ 256 ∧
      ¬UintValue t := by
  obtain ⟨t, ht, hbal⟩ := exists_of_any (x := applyEvent fullState (transferOne "B"))
    (p := fun t => bal t (js "B") = 2 ^ 256) (by decide +kernel)
  have hmax := of_decide_eq_true hbal
  refine ⟨uintValue_fullState, t, accepts_iff.mpr ht, hmax, fun huint => ?_⟩
  have hrange := huint.int (balancePath (js "B"))
  change IsUint (bal t (js "B")) at hrange
  rw [hmax] at hrange
  exact absurd hrange (by decide)

end ParadigmTerra
