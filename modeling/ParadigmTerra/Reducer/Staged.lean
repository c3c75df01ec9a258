import ParadigmTerra.Reducer.Lifecycle
import ParadigmTerra.Reducer.Paths
import ParadigmTerra.Reducer.Totality
import ParadigmTerra.Reducer.Writes

/-!
# Staged effects

The effects that `cal.executed` brings are staged in the entry of the CAL, and no event but
`cal.finalized` of that CAL reads them: `SameButStaged.step` says so of one event, and
`SameButStaged.run` of a run, which takes the same course with any other effects. An end of a CAL leaves
alone what is apart from its writes (`Writes.frame`).

`effects_atomic` puts these together. What it cannot promise is a read of an inherited name from an
object that a delta has just made.
-/

namespace ParadigmTerra

open Text OrderedMap Fallible

/-- The path of the staged effects of a CAL. -/
abbrev stagedPath (ch : Str) : List Str := fieldPath ch "staged"

/-- States that differ at most in the staged effects of the CAL. -/
def SameButStaged (ch : Str) (s s' : State) : Prop :=
  s' = s ∨ ∃ xs ys, ownIn s (stagedPath ch) = some (.arr xs) ∧
    s' = setIn (some s) (stagedPath ch) (.arr ys)

/-- Entries that differ at most in their staged effects. -/
def SameEntry (h h' : Json) : Prop := ∀ f, f ≠ js "staged" → h'.read f = h.read f

variable {ch : Str} {s s' t : State} {ev : Event} {h h' : Json}

theorem SameEntry.refl (h : Json) : SameEntry h h := fun _ _ => rfl

namespace SameButStaged

theorem refl (s : State) : SameButStaged ch s s := .inl rfl

/-! ## Writes -/

/-- A write keeps states the same but for the staged effects. -/
theorem setIn (hrel : SameButStaged ch s s') (p : List Str) (x : Json) :
    SameButStaged ch (setIn (some s) p x) (ParadigmTerra.setIn (some s') p x) := by
  rcases hrel with rfl | ⟨xs, ys, hown, rfl⟩
  · exact .refl _
  · have hsome : (ownIn s (stagedPath ch)).isSome := by rw [hown]; rfl
    rcases apart_or_append p (stagedPath ch) with hap | ⟨r, hr⟩ | ⟨k, r, rfl⟩
    · refine .inr ⟨xs, ys, ?_, setIn_setIn_of_apart hap hsome _ _⟩
      rw [ownIn_setIn_of_apart hap, hown]
    · left
      rw [hr, setIn_setIn_append]
    · left
      -- below an array a write starts from an empty object
      rw [setIn_append (ownIn_setIn _ _ _), setIn_append hown]
      have hundo := setIn_setIn_append (some s) (stagedPath ch) []
      simp only [List.append_nil] at hundo
      rw [hundo]
      rfl

/-- A deletion keeps states the same but for the staged effects. -/
theorem deleteIn (hrel : SameButStaged ch s s') (p : List Str) (k : Str) :
    SameButStaged ch (deleteIn (some s) (p ++ [k]))
      (ParadigmTerra.deleteIn (some s') (p ++ [k])) := by
  rcases hrel with rfl | ⟨xs, ys, hown, rfl⟩
  · exact .refl _
  · have hsome : (ownIn s (stagedPath ch)).isSome := by rw [hown]; rfl
    rcases apart_or_append (p ++ [k]) (stagedPath ch) with hap | ⟨r, hr⟩ | ⟨j, r, hr⟩
    · refine .inr ⟨xs, ys, ?_, deleteIn_setIn_of_apart hap hsome _⟩
      rw [ownIn_deleteIn_of_apart hap, hown]
    · left
      have hr : stagedPath ch = p ++ k :: r := by simpa using hr
      rw [hr] at hsome ⊢
      exact deleteIn_setIn_append hsome _
    · -- below an array there is nothing to delete
      rw [hr, deleteIn_append hown, deleteIn_append (ownIn_setIn _ _ _)]
      have hnone : ∀ zs : List Json, ParadigmTerra.deleteIn (some (.arr zs)) (j :: r) = .arr zs := by
        intro zs
        cases r <;> rfl
      rw [hnone, hnone, setIn_self hown, setIn_self (ownIn_setIn _ _ _)]
      exact .inr ⟨xs, ys, hown, rfl⟩

/-! ## Reads -/

/-- A read apart from the staged effects. -/
theorem getIn (hrel : SameButStaged ch s s') {q : List Str} (hq : Apart (stagedPath ch) q) :
    getIn s' q = ParadigmTerra.getIn s q := by
  rcases hrel with rfl | ⟨xs, ys, hown, rfl⟩
  · rfl
  · exact getIn_setIn_of_apart hq (by rw [hown]; rfl) _

/-- A read that begins outside `cal`. -/
theorem getIn_of_ne (hrel : SameButStaged ch s s') {n : Str} (q : List Str) (hn : js "cal" ≠ n) :
    ParadigmTerra.getIn s' (n :: q) = ParadigmTerra.getIn s (n :: q) :=
  hrel.getIn (.inl hn)

theorem bal (hrel : SameButStaged ch s s') (a : Str) : bal s' a = ParadigmTerra.bal s a := by
  rw [ParadigmTerra.bal, ParadigmTerra.bal, hrel.getIn_of_ne _ (by decide)]

/-- The entry of another CAL. -/
theorem inFlight_of_ne (hrel : SameButStaged ch s s') {c : Str} (hc : c ≠ ch) :
    inFlight s' c = inFlight s c := by
  rw [inFlight, inFlight, hrel.getIn (by simp [Ne.symm hc])]

/-- The entry of the CAL itself, where the states differ. -/
theorem entries {xs : List Json} (hown : ownIn s (stagedPath ch) = some (.arr xs)) (x : Json) :
    ∃ m, ParadigmTerra.getIn s (flightPath ch) = some (.obj m) ∧
      ParadigmTerra.getIn (ParadigmTerra.setIn (some s) (stagedPath ch) x) (flightPath ch) =
        some (.obj (putMember (js "staged") x m)) := by
  have hpath : stagedPath ch = flightPath ch ++ [js "staged"] := rfl
  rw [hpath, ownIn_append, Option.bind_eq_some_iff] at hown
  obtain ⟨e, he, hstaged⟩ := hown
  obtain ⟨m, -, rfl, -, -⟩ := ownIn_cons_eq_some hstaged
  refine ⟨m, getIn_of_ownIn he, ?_⟩
  rw [hpath, setIn_append he]
  exact getIn_of_ownIn (ownIn_setIn _ _ _)

/-- The entry of a CAL is the same but for its staged effects. -/
theorem requireFlight (hrel : SameButStaged ch s s') (c : Str) :
    Alike Eq SameEntry (requireFlight s c) (ParadigmTerra.requireFlight s' c) := by
  rcases hrel with rfl | ⟨xs, ys, hown, rfl⟩
  · unfold ParadigmTerra.requireFlight
    cases inFlight s' c with
    | none => exact .error rfl
    | some h => exact .ok (.refl h)
  · by_cases hc : c = ch
    · subst hc
      obtain ⟨m, hm, hm'⟩ := entries hown (.arr ys)
      have hfound : ParadigmTerra.requireFlight s c = .ok (.obj m) := by
        simp only [ParadigmTerra.requireFlight, inFlight, hm]
        rfl
      have hfound' : ParadigmTerra.requireFlight (ParadigmTerra.setIn (some s) (stagedPath c)
          (.arr ys)) c = .ok (.obj (putMember (js "staged") (.arr ys) m)) := by
        simp only [ParadigmTerra.requireFlight, inFlight, hm']
        rfl
      rw [hfound, hfound']
      exact .ok fun f hf => read_obj_put_of_ne m (Ne.symm hf) _
    · have heq := inFlight_of_ne (.inr ⟨xs, ys, hown, rfl⟩) hc
      unfold ParadigmTerra.requireFlight
      rw [heq]
      cases inFlight s c with
      | none => exact .error rfl
      | some h => exact .ok (.refl h)

/-- Whether a CAL has an entry. -/
theorem isNone_inFlight (hrel : SameButStaged ch s s') (c : Str) :
    (inFlight s' c).isNone = (inFlight s c).isNone := by
  have h := hrel.requireFlight c
  unfold ParadigmTerra.requireFlight at h
  cases hs : inFlight s c <;> cases hs' : inFlight s' c <;> rw [hs, hs'] at h <;>
    first | rfl | cases h

theorem agentBusy (hrel : SameButStaged ch s s') (a : Str) :
    agentBusy s' a = ParadigmTerra.agentBusy s a := by
  rcases hrel with rfl | ⟨xs, ys, hown, rfl⟩
  · rfl
  · have hpath : stagedPath ch = [js "cal", js "in_flight"] ++ [ch, js "staged"] := rfl
    rw [hpath, ownIn_append, Option.bind_eq_some_iff] at hown
    obtain ⟨all, hall, hown⟩ := hown
    obtain ⟨m, e, rfl, he, hstaged⟩ := ownIn_cons_eq_some hown
    obtain ⟨n, -, rfl, -, -⟩ := ownIn_cons_eq_some hstaged
    have hread : ParadigmTerra.getIn (ParadigmTerra.setIn (some s) (stagedPath ch) (.arr ys))
        [js "cal", js "in_flight"] =
        some (.obj (putMember ch (.obj (putMember (js "staged") (.arr ys) n)) m)) := by
      rw [hpath, setIn_append hall, getIn_of_ownIn (ownIn_setIn _ _ _), setIn_cons_obj,
        Json.read_of_get he]
      rfl
    have hbelongs : belongsTo a (.obj (putMember (js "staged") (.arr ys) n)) =
        belongsTo a (.obj n) := by
      rw [belongsTo, belongsTo, read_obj_put_of_ne n (by decide)]
      rfl
    rw [ParadigmTerra.agentBusy, ParadigmTerra.agentBusy, hread, getIn_of_ownIn hall]
    simp only [Json.members, any_put he hbelongs]
    rfl

/-! ## Deltas -/

/-- The integer that a sum starts from: the effects are an array, and no integer. -/
theorem operand (hrel : SameButStaged ch s s') (p : List Str) :
    asBigint (orElse (ParadigmTerra.getIn s' p) (.int 0)) =
      asBigint (orElse (ParadigmTerra.getIn s p) (.int 0)) := by
  rcases hrel with rfl | ⟨xs, ys, hown, rfl⟩
  · rfl
  · have hread := getIn_append (ownIn_setIn (some s) (stagedPath ch) (.arr ys))
    rcases apart_or_append (stagedPath ch) p with hap | ⟨r, rfl⟩ | ⟨k, r, hr⟩
    · rw [getIn_setIn_of_apart hap (by rw [hown]; rfl)]
    · rw [hread, getIn_append hown]
      cases r <;> rfl
    · -- above the effects both states hold an object
      rw [hr, ownIn_append, Option.bind_eq_some_iff] at hown
      obtain ⟨a, ha, hown⟩ := hown
      obtain ⟨m, u, rfl, -, -⟩ := ownIn_cons_eq_some hown
      rw [hr, setIn_append ha, getIn_of_ownIn (ownIn_setIn _ _ _), getIn_of_ownIn ha]
      rfl

theorem enforceOwnerRecord (hrel : SameButStaged ch s s') (full : List Str) :
    enforceOwnerRecord s' full = ParadigmTerra.enforceOwnerRecord s full := by
  unfold ParadigmTerra.enforceOwnerRecord
  split
  · rw [hrel.getIn_of_ne _ (by decide)]
  · rfl

theorem applyOp (hrel : SameButStaged ch s s') (n : Str) (p : List Str) (op : DeltaOp)
    (v : Option Json) : Alike Eq (SameButStaged ch) (applyOp s (n :: p) op v)
      (ParadigmTerra.applyOp s' (n :: p) op v) := by
  unfold ParadigmTerra.applyOp
  cases op with
  | set =>
    have hnext := hrel.setIn (n :: p) (orElse v .null)
    dsimp only
    rw [hnext.enforceOwnerRecord]
    exact .bind_same fun _ _ => .pure hnext
  | delete =>
    obtain ⟨q, k, hq⟩ : ∃ q k, n :: p = q ++ [k] :=
      ⟨_, _, (List.dropLast_append_getLast (List.cons_ne_nil n p)).symm⟩
    dsimp only
    rw [hq]
    exact .pure (hrel.deleteIn q k)
  | add | sub =>
    dsimp only
    rw [hrel.operand]
    exact .bind_same fun _ _ => .bind_same fun _ _ => .bind_same fun _ _ => .pure (hrel.setIn _ _)

theorem applyDeltaJson (hrel : SameButStaged ch s s') (d : Json) :
    Alike Eq (SameButStaged ch) (applyDeltaJson s d) (ParadigmTerra.applyDeltaJson s' d) := by
  unfold ParadigmTerra.applyDeltaJson
  refine .bind_same fun _ _ => .bind_same fun ns _ => .bind_same fun op _ =>
    .bind_same fun path _ => ?_
  cases DeltaOp.ofStr? op with
  | some o => exact hrel.applyOp ns path o _
  | none => exact .throw rfl

theorem deltas (hrel : SameButStaged ch s s') (ds : List Json) :
    Alike Eq (SameButStaged ch) (ds.foldlM ParadigmTerra.applyDeltaJson s)
      (ds.foldlM ParadigmTerra.applyDeltaJson s') := by
  induction ds generalizing s s' with
  | nil => exact .pure hrel
  | cons d ds ih =>
    rw [List.foldlM_cons, List.foldlM_cons]
    exact (hrel.applyDeltaJson d).bind fun _ _ _ _ h => ih h

/-! ## Settlements -/

theorem bumpNonce (hrel : SameButStaged ch s s') (a : Str) :
    SameButStaged ch (bumpNonce s a) (ParadigmTerra.bumpNonce s' a) := by
  have hread : ParadigmTerra.getIn s' (noncePath a) = ParadigmTerra.getIn s (noncePath a) :=
    hrel.getIn (.inr (.inl (by decide)))
  rw [ParadigmTerra.bumpNonce, ParadigmTerra.bumpNonce, hread]
  exact hrel.setIn _ _

theorem addFees (hrel : SameButStaged ch s s') (n : ℤ) :
    SameButStaged ch (addFees s n) (ParadigmTerra.addFees s' n) := by
  rw [ParadigmTerra.addFees, ParadigmTerra.addFees, hrel.getIn_of_ne _ (by decide)]
  exact hrel.setIn _ _

theorem setBalance (hrel : SameButStaged ch s s') (a : Str) (n : ℤ) :
    SameButStaged ch (setBalance s a n) (ParadigmTerra.setBalance s' a n) := hrel.setIn _ _

theorem recomputeBounded (hrel : SameButStaged ch s s') :
    SameButStaged ch (recomputeBounded s) (ParadigmTerra.recomputeBounded s') := by
  unfold ParadigmTerra.recomputeBounded
  rw [hrel.getIn_of_ne _ (by decide), hrel.getIn_of_ne _ (by decide)]
  exact hrel.setIn _ _

end SameButStaged

namespace SameEntry

variable (hh : SameEntry h h')

include hh

theorem requireStage (stage : String) : requireStage h' stage = ParadigmTerra.requireStage h stage := by
  rw [ParadigmTerra.requireStage, ParadigmTerra.requireStage, hh _ (by decide)]

theorem agentKey : agentKey h' = ParadigmTerra.agentKey h := by
  rw [ParadigmTerra.agentKey, ParadigmTerra.agentKey, hh _ (by decide)]

end SameEntry

namespace SameButStaged

theorem refundAgent (hrel : SameButStaged ch s s') (hh : SameEntry h h') (n : ℤ) :
    Alike Eq (SameButStaged ch) (refundAgent s h n) (ParadigmTerra.refundAgent s' h' n) := by
  unfold ParadigmTerra.refundAgent
  split
  · rw [hh.agentKey]
    refine .bind_same fun a _ => .pure ?_
    rw [hrel.bal]
    exact hrel.setBalance _ _
  · exact .pure hrel

theorem settleEscrow (hrel : SameButStaged ch s s') (hh : SameEntry h h') (n : ℤ) :
    Alike Eq (SameButStaged ch) (settleEscrow s h n) (ParadigmTerra.settleEscrow s' h' n) := by
  unfold ParadigmTerra.settleEscrow
  refine (hrel.refundAgent hh n).bind fun u u' _ _ hu => ?_
  rw [hh _ (by decide)]
  split
  · exact .bind_same fun _ _ => .pure (hu.addFees _)
  · exact .bind_same fun _ _ => .bind_same fun _ _ => .throw rfl

theorem chargeNow (hrel : SameButStaged ch s s') (hh : SameEntry h h') (n : ℤ) :
    Alike Eq (SameButStaged ch) (chargeNow s h n) (ParadigmTerra.chargeNow s' h' n) := by
  unfold ParadigmTerra.chargeNow
  rw [hh.agentKey]
  refine .bind_same fun a _ => ?_
  rw [hrel.bal]
  refine .bind_same fun _ _ => .pure (addFees ?_ n)
  split
  · exact hrel.setBalance _ _
  · exact hrel

theorem settleFailed (hrel : SameButStaged ch s s') (hh : SameEntry h h') (ev : Event) :
    Alike Eq (SameButStaged ch) (settleFailed s h ev) (ParadigmTerra.settleFailed s' h' ev) := by
  unfold ParadigmTerra.settleFailed
  rw [hh _ (by decide)]
  split
  · exact .bind_same fun n _ => hrel.chargeNow hh n
  · exact .bind_same fun n _ => hrel.settleEscrow hh n

theorem closeFlight (hrel : SameButStaged ch s s') (hh : SameEntry h h') (c : Str) :
    Alike Eq (SameButStaged ch) (closeFlight s h c) (ParadigmTerra.closeFlight s' h' c) := by
  unfold ParadigmTerra.closeFlight
  rw [hh.agentKey]
  exact .bind_same fun a _ => .pure ((hrel.bumpNonce a).deleteIn [js "cal", js "in_flight"] c)

/-! ## Events -/

/-- An event other than the finalization of the CAL does not see its staged effects. -/
theorem step (hrel : SameButStaged ch s s') (type : EventType) (ev : Event)
    (hfinal : type = .finalized → ev.read (js "cal_hash") ≠ some (.str ch)) :
    Alike Eq (SameButStaged ch) (type.step s ev) (type.step s' ev) := by
  cases type with
  | created =>
    simp only [EventType.step, calCreated]
    refine .bind_same fun c _ => .bind_same fun a _ => ?_
    rw [hrel.isNone_inFlight, hrel.agentBusy]
    exact .bind_same fun _ _ => .bind_same fun _ _ => .pure (hrel.setIn _ _)
  | signed =>
    simp only [EventType.step, calSigned]
    refine .bind_same fun c _ => (hrel.requireFlight c).bind fun h h' _ _ hh => ?_
    rw [hh.requireStage]
    exact .bind_same fun _ _ => .pure (hrel.setIn _ _)
  | validated =>
    simp only [EventType.step, calValidated]
    refine .bind_same fun c _ => (hrel.requireFlight c).bind fun h h' _ _ hh => ?_
    rw [hh.requireStage, hh.agentKey]
    refine .bind_same fun _ _ => .bind_same fun n _ => .bind_same fun a _ => ?_
    rw [hrel.bal]
    exact .bind_same fun _ _ => .pure (((hrel.setBalance _ _).setIn _ _).setIn _ _)
  | executed =>
    simp only [EventType.step, calExecuted]
    refine .bind_same fun c _ => (hrel.requireFlight c).bind fun h h' _ _ hh => ?_
    rw [hh.requireStage]
    refine .bind_same fun _ _ => ?_
    split
    · exact .bind_same fun _ _ => .pure (((hrel.setIn _ _).setIn _ _).setIn _ _)
    · exact .throw rfl
  | settled =>
    simp only [EventType.step, calSettled]
    refine .bind_same fun c _ => (hrel.requireFlight c).bind fun h h' _ _ hh => ?_
    rw [hh.requireStage]
    exact .bind_same fun _ _ => .pure (hrel.setIn _ _)
  | finalized =>
    simp only [EventType.step, calFinalized]
    refine .bind_same fun c hc => ?_
    -- the event finalizes another CAL, whose entry is the same
    have hne : c ≠ ch := fun heq => hfinal rfl (heq ▸ reqStr_eq_ok hc)
    have hflight : ParadigmTerra.requireFlight s' c = ParadigmTerra.requireFlight s c := by
      unfold ParadigmTerra.requireFlight
      rw [hrel.inFlight_of_ne hne]
    rw [hflight]
    refine .bind_same fun h _ => .bind_same fun _ _ => .bind_same fun n _ =>
      .bind_same fun ds _ => (hrel.deltas ds).bind fun u u' _ _ hu => ?_
    exact (hu.settleEscrow (.refl h) n).bind fun w w' _ _ hw => hw.closeFlight (.refl h) c
  | failed | expired =>
    simp only [EventType.step, calFailed]
    refine .bind_same fun c _ => (hrel.requireFlight c).bind fun h h' _ _ hh => ?_
    exact (hrel.settleFailed hh ev).bind fun u u' _ _ hu => hu.closeFlight hh c
  | transferred =>
    simp only [EventType.step, ptraTransferred]
    refine .bind_same fun a _ => .bind_same fun b _ => .bind_same fun n _ => ?_
    rw [hrel.bal, (hrel.setBalance _ _).bal]
    exact .bind_same fun _ _ => .pure ((hrel.setBalance _ _).setBalance _ _)
  | shadow_init =>
    simp only [EventType.step, ptraShadowInit]
    refine .bind_same fun a _ => ?_
    rw [hrel.getIn_of_ne _ (by decide)]
    split
    · exact .pure hrel
    · exact .pure (hrel.setBalance _ _)
  | feed_submitted =>
    simp only [EventType.step, oracleFeedSubmitted]
    exact .bind_same fun y _ => .pure (hrel.setIn _ _)
  | tick_advanced =>
    simp only [EventType.step, tickAdvanced]
    refine .bind_same fun n _ => ?_
    rw [hrel.getIn_of_ne _ (by decide)]
    split
    · exact .bind_same fun _ _ => .pure (hrel.setIn _ _).recomputeBounded
    · exact .bind_same fun _ _ => .throw rfl

end SameButStaged

/-! ## Runs -/

/-- The event, or the execution of the CAL with other effects. -/
def Restages (ch : Str) (ev ev' : Event) : Prop :=
  ev' = ev ∨
    IsEvent ev .executed ch ∧
    (∃ xs, ev.read (js "effects") = some (.arr xs)) ∧
    (∃ ys, ev'.read (js "effects") = some (.arr ys)) ∧
    ∀ k, k ≠ js "effects" → ev'.read k = ev.read k

namespace SameButStaged

/-- Other effects in the place of the staged ones. -/
theorem restage (hrel : SameButStaged ch s s') (xs ys : List Json) :
    SameButStaged ch (ParadigmTerra.setIn (some s) (stagedPath ch) (.arr xs))
      (ParadigmTerra.setIn (some s') (stagedPath ch) (.arr ys)) := by
  refine .inr ⟨xs, ys, ownIn_setIn _ _ _, ?_⟩
  rw [setIn_setIn]
  rcases hrel with rfl | ⟨zs, ws, -, rfl⟩
  · rfl
  · rw [setIn_setIn]

/-- The execution with other effects is accepted as well. -/
theorem calExecuted (hrel : SameButStaged ch s s') {ev ev' : Event}
    (hch : ev.read (js "cal_hash") = some (.str ch)) {xs ys : List Json}
    (hxs : ev.read (js "effects") = some (.arr xs)) (hys : ev'.read (js "effects") = some (.arr ys))
    (hread : ∀ k, k ≠ js "effects" → ev'.read k = ev.read k) :
    Alike Eq (SameButStaged ch) (calExecuted s ev) (ParadigmTerra.calExecuted s' ev') := by
  have hstr : reqStr ev' "cal_hash" = reqStr ev "cal_hash" := by
    rw [reqStr, reqStr, hread _ (by decide)]
  have huint : reqUint ev' "gas_consumed_ptra" = reqUint ev "gas_consumed_ptra" := by
    rw [reqUint, reqUint, hread _ (by decide)]
  unfold ParadigmTerra.calExecuted
  rw [hstr, huint]
  refine .bind_same fun c hc => (hrel.requireFlight c).bind fun h h' _ _ hh => ?_
  rw [hh.requireStage, hxs, hys]
  have hc : c = ch := by
    have heq := reqStr_eq_ok hc
    rw [hch] at heq
    exact (Json.str.inj (Option.some.inj heq)).symm
  subst hc
  exact .bind_same fun _ _ => .bind_same fun n _ =>
    .pure (((hrel.restage xs ys).setIn _ _).setIn _ _)

/-- One step: where the event is accepted, so is the event that restages it. -/
theorem accepts (hrel : SameButStaged ch s s') {ev ev' : Event} (hev : Restages ch ev ev')
    (hfinal : ¬IsEvent ev .finalized ch) (hacc : Accepts s ev t) :
    ∃ t', Accepts s' ev' t' ∧ SameButStaged ch t t' := by
  obtain ⟨type, htype, hstep⟩ := accepts_step hacc
  have htaken : ∀ {ev'' : Event} {type' : EventType},
      ev''.read (js "event_type") = some (.str type'.name) →
      Alike Eq (SameButStaged ch) (type.step s ev) (type'.step s' ev'') →
      ∃ t', Accepts s' ev'' t' ∧ SameButStaged ch t t' := by
    intro ev'' type' htype' halike
    rw [hstep] at halike
    obtain ⟨t', ht', hrel'⟩ := halike.of_ok
    refine ⟨t', accepts_iff.mpr ?_, hrel'⟩
    rw [applyEvent_of_type htype', ht']
  rcases hev with rfl | ⟨hexec, ⟨xs, hxs⟩, ⟨ys, hys⟩, hread⟩
  · refine htaken htype (hrel.step type ev' ?_)
    rintro rfl hch
    exact hfinal ⟨htype, hch⟩
  · have htype' : type = .executed := by
      have hname : EventType.ofStr? type.name = EventType.ofStr? EventType.executed.name := by
        rw [Json.str.inj (Option.some.inj (htype.symm.trans hexec.type))]
      simpa using hname
    subst htype'
    exact @htaken ev' .executed (by rw [hread _ (by decide), htype])
      (hrel.calExecuted hexec.hash hxs hys hread)

/-- A run that does not finalize the CAL takes the same course with other effects. -/
theorem run (hrel : SameButStaged ch s s') {evs evs' : List Event}
    (hevs : List.Forall₂ (Restages ch) evs evs') (hfinal : ∀ ev ∈ evs, ¬IsEvent ev .finalized ch)
    (hrun : AcceptsAll s evs t) : ∃ t', AcceptsAll s' evs' t' ∧ SameButStaged ch t t' := by
  induction hevs generalizing s s' with
  | nil =>
    cases hrun
    exact ⟨s', .nil _, hrel⟩
  | cons hev _ ih =>
    obtain ⟨hhead, htail⟩ := List.forall_mem_cons.mp hfinal
    obtain ⟨u, -, hacc, hrest⟩ := run_cons hrun
    obtain ⟨u', hacc', hu⟩ := hrel.accepts hev hhead hacc
    obtain ⟨t', hrun', ht⟩ := ih hu htail hrest
    exact ⟨t', .cons trivial hacc' hrun', ht⟩

end SameButStaged

/-! ## Frames -/

/-- What is written lies apart from a path: the path holds what it held, and reads what it read unless
objects are made on it. -/
theorem Writes.getIn {P D W : List Str → Prop} {q : List Str} (h : Writes P D s t)
    (hP : ∀ p, P p → W p) (hD : ∀ p, D p → W p) (hW : ∀ p, W p → Apart p q)
    (hmade : Unmade W (some s) q) : ParadigmTerra.getIn t q = ParadigmTerra.getIn s q := by
  suffices H : ParadigmTerra.getIn t q = ParadigmTerra.getIn s q ∧ Unmade W (some t) q from H.1
  induction h with
  | refl => exact ⟨rfl, hmade⟩
  | @set t p x _ hp ih =>
    obtain ⟨hread, hmade⟩ := ih
    have hap := hW p (hP p hp)
    refine ⟨(getIn_setIn_of_unmade hap (hP p hp) hmade x).trans hread, hmade.of_apart ?_⟩
    intro r r' m hq hobj
    exact obj_setIn_of_apart (hq ▸ hap) hobj x
  | @delete t p _ hp ih =>
    obtain ⟨hread, hmade⟩ := ih
    have hap := hW p (hD p hp)
    refine ⟨(getIn_deleteIn_of_unmade hap (hD p hp) hmade).trans hread, hmade.of_apart ?_⟩
    intro r r' m hq hobj
    exact obj_deleteIn_of_apart (hq ▸ hap) hobj

/-- The four paths that the end of a CAL writes. -/
def Settles (agent ch : Str) (p : List Str) : Prop := SettledBy agent p ∨ p = flightPath ch

/-- The path of a delta of the list. -/
def Named (ds : List Json) (p : List Str) : Prop := ∃ d ∈ ds, ∃ op, deltaTarget d = some (p, op)

/-- The namespaces and the maps of balances, nonces and entries are objects. -/
structure PlainMaps (s : State) : Prop where
  namespaces : ∀ n ∈ NAMESPACES, ∃ m, ownIn s [n] = some (.obj m)
  balances : ∃ m, ownIn s [js "ptra", js "balances"] = some (.obj m)
  nonces : ∃ m, ownIn s [js "cal", js "nonces"] = some (.obj m)
  in_flight : ∃ m, ownIn s [js "cal", js "in_flight"] = some (.obj m)

/-- A settlement writes one segment below an object. -/
theorem PlainMaps.parent {agent : Str} (hs : PlainMaps s) {p : List Str} (hp : Settles agent ch p) :
    ∃ base x m, p = base ++ [x] ∧ ownIn s base = some (.obj m) := by
  rcases hp with (rfl | rfl | rfl) | rfl
  · obtain ⟨m, hm⟩ := hs.balances
    exact ⟨_, agent, m, rfl, hm⟩
  · obtain ⟨m, hm⟩ := hs.namespaces (js "treasury") (by decide)
    exact ⟨_, js "collected_fees_window", m, rfl, hm⟩
  · obtain ⟨m, hm⟩ := hs.nonces
    exact ⟨_, agent, m, rfl, hm⟩
  · obtain ⟨m, hm⟩ := hs.in_flight
    exact ⟨_, ch, m, rfl, hm⟩

/-- Where the maps are objects, a settlement makes none. -/
theorem PlainMaps.unmade {agent : Str} (hs : PlainMaps s) {q : List Str}
    (hq : ∀ p, Settles agent ch p → Apart p q) : Unmade (Settles agent ch) (some s) q := by
  intro r k q' heq _
  by_cases hall : ∀ p, Settles agent ch p → Apart p r
  · exact .inr hall
  · push Not at hall
    obtain ⟨p, hp, hap⟩ := hall
    obtain ⟨base, x, m, rfl, hm⟩ := hs.parent hp
    left
    rcases apart_or_append (base ++ [x]) r with h | ⟨t, rfl⟩ | ⟨j, t, h⟩
    · exact (hap h).elim
    · -- the path would lead on from what is written
      refine (not_apart_append (base ++ [x]) (t ++ k :: q') ?_).elim
      rw [← List.append_assoc, ← heq]
      exact hq _ hp
    · obtain ⟨a, rfl⟩ : ∃ a, base = r ++ a := by
        rcases List.append_eq_append_iff.mp h with ⟨c, hr, hx⟩ | ⟨a, hbase, -⟩
        · cases c with
          | nil => exact ⟨[], by rw [hr]; simp⟩
          | cons c cs => simp at hx
        · exact ⟨a, hbase⟩
      exact obj_of_append hm

/-- What an accepted end of a CAL leaves as it was. -/
theorem Writes.frame {P D W : List Str → Prop} {q : List Str} (h : Writes P D s t)
    (hP : ∀ p, P p → W p) (hD : ∀ p, D p → W p) (hW : ∀ p, W p → Apart p q) :
    ParadigmTerra.ownIn t q = ParadigmTerra.ownIn s q ∧
      (Unmade W (some s) q → ParadigmTerra.getIn t q = ParadigmTerra.getIn s q) :=
  ⟨h.ownIn (fun p hp => hW p (hP p hp)) fun p hp => hW p (hD p hp), h.getIn hP hD hW⟩

/-- A finalization whose deltas are not all applied is rejected. -/
theorem rejected_of_deltas (hev : IsEvent ev .finalized ch) (hflight : inFlight s ch = some h)
    (hstage : isStr (h.read (js "stage")) (js "SETTLED") = true) {refund : ℤ}
    (hrefund : optUint ev "gas_refunded_ptra" = .ok refund) {ds : List Json}
    (hds : iterate (h.read (js "staged")) = .ok ds)
    (hfail : ∀ t, ds.foldlM applyDeltaJson s ≠ .ok t) :
    ∃ code, apply s ev = .ok (.rejected code) := by
  cases hfold : ds.foldlM applyDeltaJson s with
  | ok t => exact (hfail t hfold).elim
  | error e =>
    obtain ⟨code, rfl⟩ := throwsOnly_foldlM typed_applyDeltaJson s e hfold
    refine ⟨code, ?_⟩
    have hstep : calFinalized s ev = .error (.apply code) := by
      rw [calFinalized, hev.reqStr, ok_bind, requireFlight_eq_ok.mpr hflight, ok_bind,
        (requireStage_eq_ok (u := ())).mpr hstage, ok_bind, hrefund, ok_bind, hds, ok_bind, hfold, error_bind]
    rw [apply, hev.applyEvent, EventType.step, hstep]

/-- What holds of staged effects after a run. -/
structure EffectsAtomic (s : State) (evs : List Event) (u : State) : Prop where
  /-- Until the CAL is finalized, the run takes the same course with any other effects. -/
  unseen : ∀ ch evs', (∀ ev ∈ evs, ¬IsEvent ev .finalized ch) →
    List.Forall₂ (Restages ch) evs evs' → ∃ u', AcceptsAll s evs' u' ∧ SameButStaged ch u u'
  /-- An end without finalization changes the four places of the settlement. -/
  dropped : ∀ ev t ch, Accepts u ev t → IsEvent ev .failed ch ∨ IsEvent ev .expired ch →
    ∃ h agent, inFlight u ch = some h ∧ agentKey h = .ok agent ∧
      ∀ q, (∀ p, Settles agent ch p → Apart p q) →
        ownIn t q = ownIn u q ∧
        (PlainMaps u ∨ Unmade (Settles agent ch) (some u) q → getIn t q = getIn u q)
  /-- A finalization changes these and what its deltas name. -/
  committed : ∀ ev t ch, Accepts u ev t → IsEvent ev .finalized ch →
    ∃ h agent ds, inFlight u ch = some h ∧ agentKey h = .ok agent ∧
      iterate (h.read (js "staged")) = .ok ds ∧
      ∀ q, (∀ p, Named ds p ∨ Settles agent ch p → Apart p q) →
        ownIn t q = ownIn u q ∧
        (Unmade (fun p => Named ds p ∨ Settles agent ch p) (some u) q → getIn t q = getIn u q)
  /-- A finalization whose deltas are not all applied is rejected. -/
  rejected : ∀ ev ch h refund ds, IsEvent ev .finalized ch → inFlight u ch = some h →
    isStr (h.read (js "stage")) (js "SETTLED") = true →
    optUint ev "gas_refunded_ptra" = .ok refund → iterate (h.read (js "staged")) = .ok ds →
    (∀ t, ds.foldlM applyDeltaJson u ≠ .ok t) → ∃ code, apply u ev = .ok (.rejected code)

/-- Staged effects are atomic after every run, up to reads of what a new object inherits. -/
theorem effects_atomic {s u : State} {evs : List Event} (hrun : AcceptsAll s evs u) :
    EffectsAtomic s evs u where
  unseen ch evs' hfinal hevs := (SameButStaged.refl s).run hevs hfinal hrun
  dropped ev t ch hacc hev := by
    have hstep : calFailed u ev = .ok t := by
      rcases hev with hev | hev
      · rwa [accepts_iff, hev.applyEvent] at hacc
      · rwa [accepts_iff, hev.applyEvent] at hacc
    have hhash : ev.read (js "cal_hash") = some (.str ch) := hev.elim (·.hash) (·.hash)
    obtain ⟨c, h, agent, hc, hflight, hagent, hwrites⟩ := writes_calFailed hstep
    rw [hhash] at hc
    cases hc
    refine ⟨h, agent, hflight, hagent, fun q hq => ?_⟩
    obtain ⟨hown, hread⟩ := hwrites.frame (W := Settles agent ch) (fun _ => .inl) (fun _ => .inr) hq
    exact ⟨hown, fun hmade => hread (hmade.elim (·.unmade hq) id)⟩
  committed ev t ch hacc hev := by
    rw [accepts_iff, hev.applyEvent] at hacc
    obtain ⟨c, h, agent, ds, hc, hflight, hagent, hds, hwrites⟩ := writes_calFinalized hacc
    rw [hev.hash] at hc
    cases hc
    refine ⟨h, agent, ds, hflight, hagent, hds, fun q hq => ?_⟩
    refine hwrites.frame (fun p hp => ?_) (fun p hp => ?_) hq
    · exact hp.imp (fun ⟨d, hd, op, hop, _⟩ => ⟨d, hd, op, hop⟩) .inl
    · exact hp.imp (fun ⟨d, hd, hop⟩ => ⟨d, hd, _, hop⟩) .inr
  rejected ev ch h refund ds hev hflight hstage hrefund hds hfail :=
    rejected_of_deltas hev hflight hstage hrefund hds hfail

/-! ## A finalization that makes an object -/

/-- A delta below a member that is not there yet. -/
def nestedDelta : Json := settingDelta (js "treasury") [js "x", js "y"] 1

/-- The run up to the settlement, of a CAL that commits the delta. -/
theorem effects_atomic_nested : ∃ u,
    AcceptsAll genesis ((commitEvents [nestedDelta]).take 5) u ∧
      EffectsAtomic genesis ((commitEvents [nestedDelta]).take 5) u := by
  have hsome : (checkRun (fun _ _ => True) genesis ((commitEvents [nestedDelta]).take 5)).isSome =
    true := by decide +kernel
  obtain ⟨u, hu⟩ := Option.isSome_iff_exists.mp hsome
  exact ⟨u, checkRun_run hu, effects_atomic (checkRun_run hu)⟩

/-- What an object inherits, at a place where the delta makes one. -/
def inheritedPath : List Str := [js "treasury", js "x", js "toString"]

/-- The end of the CAL that commits the delta. -/
def finalEvent : Event :=
  .obj [(js "event_type", .str EventType.finalized.name), (js "cal_hash", .str (js "H"))]

/-- A check of the entry before the end: its agent, and the path of what is staged. -/
def stagesNested (h : Json) : Bool :=
  decide (agentKey h = .ok (js "A")) &&
    match iterate (h.read (js "staged")) with
    | .ok ds => ds.all fun d =>
      decide ((deltaTarget d).map Prod.fst = some [js "treasury", js "x", js "y"])
    | .error _ => false

/-- What the check finds, beside the path that an object inherits. -/
theorem apart_of_stagesNested {h : Json} (hcheck : stagesNested h = true) :
    agentKey h = .ok (js "A") ∧ ∃ ds, iterate (h.read (js "staged")) = .ok ds ∧
      ∀ p, Named ds p ∨ Settles (js "A") (js "H") p → Apart p inheritedPath := by
  rw [stagesNested, Bool.and_eq_true, decide_eq_true_eq] at hcheck
  obtain ⟨hagent, hstaged⟩ := hcheck
  refine ⟨hagent, ?_⟩
  split at hstaged
  · next ds hds =>
    refine ⟨ds, hds, fun p hp => ?_⟩
    rcases hp with ⟨d, hd, op, hop⟩ | (rfl | rfl | rfl) | rfl
    · have hpath := of_decide_eq_true (List.all_eq_true.mp hstaged d hd)
      rw [hop, Option.map_some, Option.some.injEq] at hpath
      subst hpath
      exact .inr (.inr (.inl (by decide)))
    · exact .inl (by decide)
    · exact .inr (.inl (by decide))
    · exact .inl (by decide)
    · exact .inl (by decide)
  · cases hstaged

/-- A finalization changes what is read beside the paths of its delta and of its settlement. -/
theorem effects_atomic_misses_inherited : ∃ u t h ds,
    PlainMaps genesis ∧ AcceptsAll genesis ((commitEvents [nestedDelta]).take 5) u ∧
    Accepts u finalEvent t ∧ IsEvent finalEvent .finalized (js "H") ∧
    inFlight u (js "H") = some h ∧ agentKey h = .ok (js "A") ∧
    iterate (h.read (js "staged")) = .ok ds ∧
    (∀ p, Named ds p ∨ Settles (js "A") (js "H") p → Apart p inheritedPath) ∧
    getIn t inheritedPath ≠ getIn u inheritedPath := by
  have hmaps : PlainMaps genesis := by
    refine ⟨fun n hn => ?_, ⟨_, rfl⟩, ⟨_, rfl⟩, ⟨_, rfl⟩⟩
    simp only [NAMESPACES, List.mem_cons, List.not_mem_nil, or_false] at hn
    rcases hn with rfl | rfl | rfl | rfl | rfl | rfl | rfl | rfl <;> exact ⟨_, rfl⟩
  have hcheck : (checkRun (fun _ _ => True) genesis ((commitEvents [nestedDelta]).take 5)).any
      (fun u => (inFlight u (js "H")).any stagesNested && (getIn u inheritedPath).isNone &&
        (applyEvent u finalEvent).toOption.any fun t => (getIn t inheritedPath).isSome) = true := by
    decide +kernel
  rw [Option.any_eq_true_iff_get] at hcheck
  obtain ⟨hu, hcheck⟩ := hcheck
  rw [Bool.and_eq_true, Bool.and_eq_true, Option.any_eq_true_iff_get] at hcheck
  obtain ⟨⟨⟨hh, hstages⟩, hnone⟩, hnext⟩ := hcheck
  obtain ⟨t, ht, hread⟩ := exists_of_any hnext
  obtain ⟨hagent, ds, hds, hap⟩ := apart_of_stagesNested hstages
  refine ⟨_, t, _, ds, hmaps, checkRun_run (Option.some_get hu).symm, accepts_iff.mpr ht,
    ⟨rfl, rfl⟩, (Option.some_get hh).symm, hagent, hds, hap, fun heq => ?_⟩
  rw [heq, Option.isSome_iff_ne_none] at hread
  exact hread (Option.isNone_iff_eq_none.mp hnone)

end ParadigmTerra
