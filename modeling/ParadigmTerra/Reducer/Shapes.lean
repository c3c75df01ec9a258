import ParadigmTerra.Reducer.Apply
import ParadigmTerra.Shape

/-!
# The reducer keeps shapes

Everything that the reducer stores it takes from the state or from a field of the event, or it is a
number or an ASCII string. `fits_applyEvent` concludes that the state keeps every closed shape that the
fields of the event have. A shape without functions needs one more thing: the deletions among the deltas
that are committed go through own members (`CommitsOwn`), since a deletion copies what it goes through.
-/

namespace ParadigmTerra

open Text OrderedMap Fallible

/-- A delete delta goes through own members of the state that it finds. -/
def DeletesOwn (s : State) (d : Json) : Prop :=
  ∀ full, deltaTarget d = some (full, .delete) → deletesOwn s full = true

/-- Each delete delta of a list goes through own members of the state that it finds. -/
def OwnDeletes : State → List Json → Prop
  | _, [] => True
  | s, d :: ds => DeletesOwn s d ∧ ∀ t, applyDeltaJson s d = .ok t → OwnDeletes t ds

/-- The deltas that the event commits delete own members. -/
def CommitsOwn (s : State) (ev : Event) : Prop := OwnDeletes s (committed s ev)

/-- The fields of an event have a shape. -/
def FieldsFit (S : Shape) (ev : Event) : Prop := ∀ e ∈ ev.members, e.2.fits S = true

variable {S : Shape} {s t : State} {ev : Event} {h : Json} {ch agent : Str}

theorem FieldsFit.read (hev : FieldsFit S ev) {k : Str} {w : Json} (hk : k ∉ inheritedNames)
    (h : ev.read k = some w) : w.fits S = true := by
  cases ev with
  | obj m =>
    rw [Json.read_of_not_inherited hk] at h
    exact hev _ (mem_of_get h)
  | builtin n => exact fits_of_read (v := .builtin n) (.inr trivial) hk h
  | _ => cases h

theorem FieldsFit.reqStr (hev : FieldsFit S ev) {k : String} (hk : js k ∉ inheritedNames) {a : Str}
    (h : reqStr ev k = .ok a) : S.str a = true := hev.read hk (reqStr_eq_ok h)

theorem sound_of_inFlight (hs : s.fits S = true) (hh : inFlight s ch = some h) : h.Sound S := by
  unfold inFlight at hh
  split at hh
  · next g heq =>
    split at hh
    · cases hh
      exact sound_of_getIn hs heq
    · cases hh
  · cases hh

theorem sound_of_requireFlight (hs : s.fits S = true) (hh : requireFlight s ch = .ok h) :
    h.Sound S := by
  unfold requireFlight at hh
  split at hh
  · next heq =>
    cases hh
    exact sound_of_inFlight hs heq
  · cases hh

theorem strings_fit {xs : List Json} {p : List Str} (hxs : fitsElements S xs = true)
    (h : strings xs = some p) : ∀ k ∈ p, S.str k = true := by
  induction xs generalizing p with
  | nil =>
    cases h
    simp
  | cons x xs ih =>
    rw [fitsElements, Bool.and_eq_true] at hxs
    cases x with
    | str k =>
      rw [strings, Option.map_eq_some_iff] at h
      obtain ⟨q, hq, rfl⟩ := h
      intro j hj
      rcases List.mem_cons.mp hj with rfl | hj
      · exact hxs.1
      · exact ih hxs.2 hq j hj
    | _ => cases h

/-- The path of a delta of the shape. -/
theorem target_fits {d : Json} (hd : d.fits S = true) {full : List Str} {op : DeltaOp}
    (h : deltaTarget d = some (full, op)) : ∀ k ∈ full, S.str k = true := by
  unfold deltaTarget at h
  split at h
  · next ns o xs hns hop hpath =>
    split at h
    · next q hq hp =>
      cases h
      intro k hk
      rcases List.mem_cons.mp hk with rfl | hk
      · exact fits_of_read (.inl hd) (by simp [inheritedNames]) hns
      · have hxs := fits_of_read (.inl hd) (by simp [inheritedNames]) hpath
        exact strings_fit hxs hp k hk
    · cases h
  · cases h

/-- The elements of a staged list. -/
theorem iterate_fits {v : Option Json} (hv : ∀ w, v = some w → w.fits S = true) {ds : List Json}
    (h : iterate v = .ok ds) : ∀ d ∈ ds, d.fits S = true ∨ d.isPlainObject = false := by
  unfold iterate at h
  split at h
  · next xs =>
    cases h
    exact fun d hd => .inl (fitsElements_iff.mp (hv _ rfl) d hd)
  · next str =>
    cases h
    intro d hd
    obtain ⟨c, -, rfl⟩ := List.mem_map.mp hd
    exact .inr rfl
  · cases h

theorem read_eq_none {v : Json} {k : Str} (hk : k ∉ inheritedNames) (h : get k v.members = none) :
    v.read k = none := by
  have hproto : k ≠ js "__proto__" := by
    rintro rfl
    exact hk (by simp [inheritedNames])
  cases v with
  | obj m => rw [Json.read_of_not_inherited hk]; exact h
  | builtin n => simp [Json.read, hproto, inherited_eq_none hk]
  | _ => rfl

/-- A name that no object inherits reads the own member. -/
theorem read_eq_get_members {v : Json} {k : Str} (hk : k ∉ inheritedNames) :
    v.read k = get k v.members := by
  cases h : get k v.members with
  | some w => exact read_of_get_members h
  | none => exact read_eq_none hk h

/-- A path of names that no object inherits goes through own members. -/
theorem deletesOwn_of_names {p : List Str} {k : Str} (hp : ∀ j ∈ p, j ∉ inheritedNames) (v : Json) :
    deletesOwn v (p ++ [k]) = true := by
  induction p generalizing v with
  | nil => rfl
  | cons j p ih =>
    obtain ⟨l, r, hl⟩ : ∃ l r, p ++ [k] = l :: r := by cases p <;> exact ⟨_, _, rfl⟩
    rw [List.cons_append, hl, deletesOwn, ← hl]
    cases hg : get j v.members with
    | some w => exact ih (fun i hi => hp i (by simp [hi])) w
    | none => simp [read_eq_none (hp j (by simp)) hg]

namespace Shape.Closed

variable (hS : S.Closed)

include hS

/-- A literal is a string of the shape. -/
theorem lit (text : String) (h : isAscii (js text) = true) : S.str (js text) = true :=
  hS.ascii _ h

theorem set (hs : s.fits S = true) {p : List Str} (hp : ∀ k ∈ p, S.str k = true) {v : Json}
    (hv : v.fits S = true) : (setIn (some s) p v).fits S = true :=
  fits_setIn hS hp (fun w hw => by cases hw; exact .inl hs) hv

/-- The path of an entry in flight. -/
theorem entryPath (hch : S.str ch = true) : ∀ k ∈ [js "cal", js "in_flight", ch], S.str k = true := by
  simp [hS.lit "cal" (by decide), hS.lit "in_flight" (by decide), hch]

theorem setBalance (hs : s.fits S = true) (ha : S.str agent = true) (n : ℤ) :
    (setBalance s agent n).fits S = true :=
  hS.set hs (by simp [hS.lit "ptra" (by decide), hS.lit "balances" (by decide), ha]) rfl

theorem bumpNonce (hs : s.fits S = true) (ha : S.str agent = true) :
    (bumpNonce s agent).fits S = true :=
  hS.set hs (by simp [hS.lit "cal" (by decide), hS.lit "nonces" (by decide), ha]) rfl

theorem addFees (hs : s.fits S = true) (n : ℤ) : (addFees s n).fits S = true :=
  hS.set hs (by simp [hS.lit "treasury" (by decide), hS.lit "collected_fees_window" (by decide)]) rfl

/-- A field of an entry in flight. -/
theorem setField (hs : s.fits S = true) (hch : S.str ch = true) (f : String)
    (hf : isAscii (js f) = true) {v : Json} (hv : v.fits S = true) :
    (setIn (some s) (fieldPath ch f) v).fits S = true :=
  hS.set hs (by simp [hS.lit "cal" (by decide), hS.lit "in_flight" (by decide), hch, hS.lit f hf]) hv

/-- The text of a value. -/
theorem textOf {v : Option Json} (hv : ∀ w, v = some w → w.fits S = true) {a : Str}
    (h : stringOfOpt v = .ok a) : S.str a = true := by
  cases v with
  | none =>
    cases h
    exact hS.lit "undefined" (by decide)
  | some w => exact hS.text w a (hv w rfl) h

theorem agentKey (hh : h.Sound S) (ha : agentKey h = .ok agent) : S.str agent = true :=
  hS.textOf (fun _ hw => fits_of_read hh (by simp [inheritedNames]) hw) ha

/-! ## Deltas -/

/-- A delta keeps a shape. -/
theorem applyDeltaJson {d : Json} (hs : s.fits S = true) (hd : d.fits S = true)
    (hown : (∀ k, S.builtin k = true) ∨ DeletesOwn s d) (h : applyDeltaJson s d = .ok t) :
    t.fits S = true := by
  obtain ⟨ns, path, op, -, htarget, h⟩ := applyDeltaJson_eq_ok h
  have hp := target_fits hd htarget
  rcases applyOp_cases h with ⟨-, rfl, -⟩ | ⟨-, n, rfl⟩ | ⟨rfl, rfl⟩
  · refine hS.set hs hp ?_
    unfold orElse
    split
    · rfl
    · rfl
    · next w hw => exact fits_of_read (.inl hd) (by simp [inheritedNames]) hw
  · exact hS.set hs hp rfl
  · exact fits_deleteIn hS hp (.inl hs) (hown.imp_right fun h => ⟨hs, h _ htarget⟩)

/-- The deltas of a list keep a shape. What is no delta is not applied. -/
theorem foldlM_applyDeltaJson {ds : List Json} (hs : s.fits S = true)
    (hds : ∀ d ∈ ds, d.fits S = true ∨ d.isPlainObject = false)
    (hown : (∀ k, S.builtin k = true) ∨ OwnDeletes s ds)
    (h : ds.foldlM ParadigmTerra.applyDeltaJson s = .ok t) : t.fits S = true := by
  induction ds generalizing s with
  | nil => exact foldlM_nil_ok.mp h ▸ hs
  | cons d ds ih =>
    obtain ⟨u, hu, h⟩ := foldlM_cons_ok.mp h
    have hd : d.fits S = true := by
      refine (hds d (by simp)).resolve_right fun hplain => ?_
      simp [ParadigmTerra.applyDeltaJson, hplain] at hu
    exact ih (hS.applyDeltaJson hs hd (hown.imp_right And.left) hu)
      (fun e he => hds e (by simp [he])) (hown.imp_right fun h => h.2 u hu) h

/-! ## Events -/

theorem newEntry (ha : S.str agent = true) : (newEntry agent).fits S = true := by
  have hput : ParadigmTerra.newEntry agent = .obj (putMember (js "staged") (.arr [])
      (putMember (js "gas_consumed_ptra") (.int 0) (putMember (js "escrowed_ptra") (.int 0)
        (putMember (js "stage") (.str (js "CREATED"))
          (putMember (js "agent_id") (.str agent) []))))) := by rfl
  rw [hput]
  refine fits_put hS (hS.lit _ (by decide)) rfl (fits_put hS (hS.lit _ (by decide)) rfl
    (fits_put hS (hS.lit _ (by decide)) rfl
      (fits_put hS (hS.lit _ (by decide)) (hS.lit "CREATED" (by decide))
        (fits_put hS (hS.lit _ (by decide)) ha ?_))))
  simp [Json.fits, fitsMembers, hS.nil]

theorem closeFlight (hs : s.fits S = true) (hh : h.Sound S) (hch : S.str ch = true)
    (ht : closeFlight s h ch = .ok t) : t.fits S = true := by
  simp only [ParadigmTerra.closeFlight, bind_eq_ok, pure_eq_ok] at ht
  obtain ⟨a, ha, rfl⟩ := ht
  have hb := hS.bumpNonce hs (hS.agentKey hh ha)
  have hown := deletesOwn_of_names (p := [js "cal", js "in_flight"]) (k := ch)
    (by simp [inheritedNames]) (ParadigmTerra.bumpNonce s a)
  exact fits_deleteIn hS (hS.entryPath hch) (.inl hb) (.inr ⟨hb, hown⟩)

theorem settleEscrow (hs : s.fits S = true) (hh : h.Sound S) {refund : ℤ}
    (ht : settleEscrow s h refund = .ok t) : t.fits S = true := by
  simp only [ParadigmTerra.settleEscrow, bind_eq_ok] at ht
  obtain ⟨u, hu, ht⟩ := ht
  have hu' : u.fits S = true := by
    unfold refundAgent at hu
    split at hu
    · simp only [bind_eq_ok, pure_eq_ok] at hu
      obtain ⟨a, ha, rfl⟩ := hu
      exact hS.setBalance hs (hS.agentKey hh ha) _
    · cases hu
      exact hs
  split at ht
  · simp only [bind_eq_ok, pure_eq_ok] at ht
    obtain ⟨-, -, rfl⟩ := ht
    exact hS.addFees hu' _
  · simp only [bind_eq_ok, throw_eq_ok, and_false, exists_false] at ht

theorem chargeNow (hs : s.fits S = true) (hh : h.Sound S) {charge : ℤ}
    (ht : chargeNow s h charge = .ok t) : t.fits S = true := by
  simp only [ParadigmTerra.chargeNow, bind_eq_ok, pure_eq_ok] at ht
  obtain ⟨a, ha, -, -, rfl⟩ := ht
  split
  · exact hS.addFees (hS.setBalance hs (hS.agentKey hh ha) _) _
  · exact hS.addFees hs _

theorem settleFailed (hs : s.fits S = true) (hh : h.Sound S)
    (ht : settleFailed s h ev = .ok t) : t.fits S = true := by
  unfold ParadigmTerra.settleFailed at ht
  split at ht <;> simp only [bind_eq_ok] at ht <;> obtain ⟨_, -, ht⟩ := ht
  · exact hS.chargeNow hs hh ht
  · exact hS.settleEscrow hs hh ht

theorem step (hs : s.fits S = true) (hev : FieldsFit S ev)
    (hown : (∀ k, S.builtin k = true) ∨ CommitsOwn s ev) (type : EventType)
    (htype : ev.read (js "event_type") = some (.str type.name))
    (h : type.step s ev = .ok t) : t.fits S = true := by
  have hch : ∀ {c}, ParadigmTerra.reqStr ev "cal_hash" = .ok c → S.str c = true :=
    fun h => hev.reqStr (by simp [inheritedNames]) h
  cases type with
  | created =>
    simp only [EventType.step, calCreated, bind_eq_ok, pure_eq_ok] at h
    obtain ⟨c, hc, a, ha, -, -, -, -, rfl⟩ := h
    have ha := hev.reqStr (by simp [inheritedNames]) ha
    exact hS.set hs (hS.entryPath (hch hc)) (hS.newEntry ha)
  | signed =>
    simp only [EventType.step, calSigned, bind_eq_ok, pure_eq_ok] at h
    obtain ⟨c, hc, e, -, -, -, rfl⟩ := h
    exact hS.setField hs (hch hc) "stage" (by decide) (hS.lit "SIGNED" (by decide))
  | validated =>
    simp only [EventType.step, calValidated, bind_eq_ok, pure_eq_ok] at h
    obtain ⟨c, hc, e, he, -, -, n, -, a, ha, -, -, rfl⟩ := h
    have ha := hS.agentKey (sound_of_requireFlight hs he) ha
    have h1 := hS.setBalance hs ha (bal s a - n)
    have h2 := hS.setField h1 (hch hc) "escrowed_ptra" (by decide) (v := .int n) rfl
    exact hS.setField h2 (hch hc) "stage" (by decide) (hS.lit "VALIDATED" (by decide))
  | executed =>
    simp only [EventType.step, calExecuted, bind_eq_ok] at h
    obtain ⟨c, hc, e, -, -, -, h⟩ := h
    split at h
    · next effects heff =>
      simp only [bind_eq_ok, pure_eq_ok] at h
      obtain ⟨n, -, rfl⟩ := h
      have heff := hev.read (by simp [inheritedNames]) heff
      have h1 := hS.setField hs (hch hc) "staged" (by decide) heff
      have h2 := hS.setField h1 (hch hc) "gas_consumed_ptra" (by decide) (v := .int n) rfl
      exact hS.setField h2 (hch hc) "stage" (by decide) (hS.lit "EXECUTED" (by decide))
    · cases h
  | settled =>
    simp only [EventType.step, calSettled, bind_eq_ok, pure_eq_ok] at h
    obtain ⟨c, hc, e, -, -, -, rfl⟩ := h
    exact hS.setField hs (hch hc) "stage" (by decide) (hS.lit "SETTLED" (by decide))
  | finalized =>
    simp only [EventType.step, calFinalized, bind_eq_ok] at h
    obtain ⟨c, hc, e, he, -, -, n, -, ds, hds, u, hu, w, hw, h⟩ := h
    have hsound := sound_of_requireFlight hs he
    have hown' : (∀ k, S.builtin k = true) ∨ OwnDeletes s ds := by
      refine hown.imp_right fun hc' => ?_
      have hflight : ParadigmTerra.inFlight s c = some e := by
        unfold ParadigmTerra.requireFlight at he
        split at he
        · next heq => cases he; exact heq
        · cases he
      have hcom : committed s ev = ds := by
        simp only [committed, htype, reqStr_eq_ok hc, hflight, if_true]
        rw [hds]
        rfl
      rwa [CommitsOwn, hcom] at hc'
    have hu := hS.foldlM_applyDeltaJson hs (iterate_fits (fun _ hw =>
      fits_of_read hsound (by simp [inheritedNames]) hw) hds) hown' hu
    exact hS.closeFlight (hS.settleEscrow hu hsound hw) hsound (hch hc) h
  | failed | expired =>
    simp only [EventType.step, calFailed, bind_eq_ok] at h
    obtain ⟨c, hc, e, he, u, hu, h⟩ := h
    have hsound := sound_of_requireFlight hs he
    exact hS.closeFlight (hS.settleFailed hs hsound hu) hsound (hch hc) h
  | transferred =>
    simp only [EventType.step, ptraTransferred, bind_eq_ok, pure_eq_ok] at h
    obtain ⟨a, ha, b, hb, n, -, -, -, rfl⟩ := h
    have h1 := hS.setBalance hs (hev.reqStr (by simp [inheritedNames]) ha) (bal s a - n)
    exact hS.setBalance h1 (hev.reqStr (by simp [inheritedNames]) hb) _
  | shadow_init =>
    simp only [EventType.step, ptraShadowInit, bind_eq_ok] at h
    obtain ⟨a, ha, h⟩ := h
    split at h
    · cases h
      exact hs
    · cases h
      exact hS.setBalance hs (hev.reqStr (by simp [inheritedNames]) ha) 0
  | feed_submitted =>
    simp only [EventType.step, oracleFeedSubmitted, bind_eq_ok, pure_eq_ok] at h
    obtain ⟨y, hy, rfl⟩ := h
    have hy := hev.reqStr (by simp [inheritedNames]) hy
    refine hS.set hs (by simp [hS.lit "oracles" (by decide), hS.lit "feeds" (by decide), hy]) ?_
    unfold orElse
    split
    · rfl
    · rfl
    · next w hw => exact hev.read (by simp [inheritedNames]) hw
  | tick_advanced =>
    simp only [EventType.step, tickAdvanced, bind_eq_ok] at h
    obtain ⟨n, -, h⟩ := h
    split at h
    · simp only [bind_eq_ok, pure_eq_ok] at h
      obtain ⟨-, -, rfl⟩ := h
      have h1 := hS.set hs (p := [js "tick", js "current"]) (v := .int n)
        (by simp [hS.lit "tick" (by decide), hS.lit "current" (by decide)]) rfl
      exact hS.set h1 (by simp [hS.lit "failure_mode" (by decide), hS.lit "is_bounded_mode" (by decide)]) rfl
    · simp only [bind_eq_ok] at h
      obtain ⟨-, -, h⟩ := h
      cases h

end Shape.Closed

/-- An accepted event keeps a closed shape. -/
theorem fits_of_accepts (hS : S.Closed) (hs : s.fits S = true) (hev : FieldsFit S ev)
    (hown : (∀ k, S.builtin k = true) ∨ CommitsOwn s ev) (h : Accepts s ev t) :
    t.fits S = true := by
  obtain ⟨type, htype, hstep⟩ := accepts_step h
  exact hS.step hs hev hown type htype hstep

/-- So does a run. -/
theorem fits_of_run (hS : S.Closed) {evs : List Event} (hs : s.fits S = true)
    (h : Run (fun s ev => FieldsFit S ev ∧ ((∀ k, S.builtin k = true) ∨ CommitsOwn s ev)) s evs t) :
    t.fits S = true :=
  h.invariant (fun _ _ _ hC hacc hs => fits_of_accepts hS hs hC.1 hC.2 hacc) hs

end ParadigmTerra
