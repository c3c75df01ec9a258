import ParadigmTerra.Reducer.Apply

/-!
# What an event writes

An accepted event is a sequence of writes: it sets some paths and deletes others. `accepts_writes` says
which ones. A path that is apart from all of them holds what it held (`Writes.ownIn`).

The deltas that an event commits write where they name; every other write is one level or more below one
of the eight namespaces.
-/

namespace ParadigmTerra

open Text OrderedMap Fallible

/-! ## Writes -/

/-- The second state comes from the first by setting paths of `P` and deleting paths of `D`. -/
inductive Writes (P D : List Str → Prop) : State → State → Prop
  | refl (s : State) : Writes P D s s
  | set {s t : State} {p : List Str} {x : Json} :
    Writes P D s t → P p → Writes P D s (setIn (some t) p x)
  | delete {s t : State} {p : List Str} :
    Writes P D s t → D p → Writes P D s (deleteIn (some t) p)

namespace Writes

variable {P D P' D' : List Str → Prop} {s t u : State}

theorem mono (hP : ∀ p, P p → P' p) (hD : ∀ p, D p → D' p) (h : Writes P D s t) :
    Writes P' D' s t := by
  induction h with
  | refl => exact .refl _
  | set _ hp ih => exact .set ih (hP _ hp)
  | delete _ hp ih => exact .delete ih (hD _ hp)

theorem trans (h : Writes P D s t) (h' : Writes P D t u) : Writes P D s u := by
  induction h' with
  | refl => exact h
  | set _ hp ih => exact .set ih hp
  | delete _ hp ih => exact .delete ih hp

/-- A path that is apart from what is written holds what it held. -/
theorem ownIn {q : List Str} (h : Writes P D s t) (hP : ∀ p, P p → Apart p q)
    (hD : ∀ p, D p → Apart p q) : ownIn t q = ownIn s q := by
  induction h with
  | refl => rfl
  | set _ hp ih => rw [ownIn_setIn_of_apart (hP _ hp), ih]
  | delete _ hp ih => rw [ownIn_deleteIn_of_apart (hD _ hp), ih]

end Writes

/-! ## Deltas -/

/-- A delta of the list sets the path. -/
def SetBy (ds : List Json) (p : List Str) : Prop :=
  ∃ d ∈ ds, ∃ op, deltaTarget d = some (p, op) ∧ op ≠ .delete

/-- A delta of the list deletes the path. -/
def DeletedBy (ds : List Json) (p : List Str) : Prop :=
  ∃ d ∈ ds, deltaTarget d = some (p, .delete)

variable {s t : State} {ev : Event} {h : Json} {ch agent : Str}

theorem deltaTarget_cons {d : Json} {p : List Str} {op : DeltaOp}
    (hp : deltaTarget d = some (p, op)) : ∃ ns path, p = ns :: path := by
  unfold deltaTarget at hp
  split at hp
  · split at hp
    · cases hp
      exact ⟨_, _, rfl⟩
    · cases hp
  · cases hp

theorem writes_applyDeltaJson {d : Json} (ht : applyDeltaJson s d = .ok t) :
    Writes (SetBy [d]) (DeletedBy [d]) s t := by
  obtain ⟨ns, path, op, -, htarget, ht⟩ := applyDeltaJson_eq_ok ht
  rcases applyOp_cases ht with ⟨rfl, rfl, -⟩ | ⟨hop, n, rfl⟩ | ⟨rfl, rfl⟩
  · exact .set (.refl _) ⟨d, by simp, _, htarget, by decide⟩
  · refine .set (.refl _) ⟨d, by simp, op, htarget, ?_⟩
    rcases hop with rfl | rfl <;> decide
  · exact .delete (.refl _) ⟨d, by simp, htarget⟩

/-- Deltas write the paths that they name. -/
theorem writes_deltas {ds : List Json} (ht : ds.foldlM applyDeltaJson s = .ok t) :
    Writes (SetBy ds) (DeletedBy ds) s t := by
  induction ds generalizing s with
  | nil =>
    rw [foldlM_nil_ok.mp ht]
    exact .refl _
  | cons d ds ih =>
    obtain ⟨u, hu, ht⟩ := foldlM_cons_ok.mp ht
    have hfirst : Writes (SetBy (d :: ds)) (DeletedBy (d :: ds)) s u := (writes_applyDeltaJson hu).mono
      (fun p ⟨e, he, h⟩ => ⟨e, List.mem_cons.mpr (.inl (List.mem_singleton.mp he)), h⟩)
      (fun p ⟨e, he, h⟩ => ⟨e, List.mem_cons.mpr (.inl (List.mem_singleton.mp he)), h⟩)
    exact hfirst.trans ((ih ht).mono (fun p ⟨e, he, h⟩ => ⟨e, List.mem_cons_of_mem _ he, h⟩)
      (fun p ⟨e, he, h⟩ => ⟨e, List.mem_cons_of_mem _ he, h⟩))

/-! ## Settlements -/

/-- What the end of a CAL of the agent sets: the balance, the fees and the nonce. -/
def SettledBy (agent : Str) (p : List Str) : Prop :=
  p = balancePath agent ∨ p = feesPath ∨ p = noncePath agent

/-- A settlement sets the balance and the fees. -/
theorem writes_settleEscrow {refund : ℤ} (ht : settleEscrow s h refund = .ok t)
    (hagent : ∀ a, agentKey h = .ok a → a = agent) (D : List Str → Prop) :
    Writes (SettledBy agent) D s t := by
  simp only [settleEscrow, bind_eq_ok] at ht
  obtain ⟨u, hu, ht⟩ := ht
  have hrefund : Writes (SettledBy agent) D s u := by
    unfold refundAgent at hu
    split at hu
    · simp only [bind_eq_ok, pure_eq_ok] at hu
      obtain ⟨a, ha, rfl⟩ := hu
      rw [hagent a ha]
      exact .set (.refl _) (.inl rfl)
    · cases hu
      exact .refl _
  split at ht
  · simp only [bind_eq_ok, pure_eq_ok] at ht
    obtain ⟨-, -, rfl⟩ := ht
    exact .set hrefund (.inr (.inl rfl))
  · simp only [bind_eq_ok, throw_eq_ok, and_false, exists_false] at ht

theorem writes_chargeNow {charge : ℤ} (ht : chargeNow s h charge = .ok t)
    (hagent : ∀ a, agentKey h = .ok a → a = agent) (D : List Str → Prop) :
    Writes (SettledBy agent) D s t := by
  simp only [chargeNow, bind_eq_ok, pure_eq_ok] at ht
  obtain ⟨a, ha, -, -, rfl⟩ := ht
  refine .set ?_ (.inr (.inl rfl))
  split
  · rw [hagent a ha]
    exact .set (.refl _) (.inl rfl)
  · exact .refl _

theorem writes_settleFailed (ht : settleFailed s h ev = .ok t)
    (hagent : ∀ a, agentKey h = .ok a → a = agent) (D : List Str → Prop) :
    Writes (SettledBy agent) D s t := by
  unfold settleFailed at ht
  split at ht <;> simp only [bind_eq_ok] at ht <;> obtain ⟨n, -, ht⟩ := ht
  · exact writes_chargeNow ht hagent D
  · exact writes_settleEscrow ht hagent D

/-- The end of a CAL sets the nonce and deletes the entry. -/
theorem writes_closeFlight (ht : closeFlight s h ch = .ok t) : ∃ agent, agentKey h = .ok agent ∧
    Writes (SettledBy agent) (fun p => p = flightPath ch) s t := by
  simp only [closeFlight, bind_eq_ok, pure_eq_ok] at ht
  obtain ⟨a, ha, rfl⟩ := ht
  exact ⟨a, ha, .delete (.set (.refl _) (.inr (.inr rfl))) rfl⟩

/-- A failure settles, and nothing else. -/
theorem writes_calFailed (ht : calFailed s ev = .ok t) :
    ∃ ch h agent, ev.read (js "cal_hash") = some (.str ch) ∧ inFlight s ch = some h ∧
      agentKey h = .ok agent ∧ Writes (SettledBy agent) (fun p => p = flightPath ch) s t := by
  simp only [calFailed, bind_eq_ok] at ht
  obtain ⟨ch, hch, h, hh, u, hu, ht⟩ := ht
  obtain ⟨agent, hagent, hclose⟩ := writes_closeFlight ht
  have huniq : ∀ a, agentKey h = .ok a → a = agent := fun a ha => by
    rw [hagent] at ha
    cases ha
    rfl
  refine ⟨ch, h, agent, reqStr_eq_ok hch, ?_, hagent, (writes_settleFailed hu huniq _).trans hclose⟩
  unfold requireFlight at hh
  split at hh
  · next heq =>
    cases hh
    exact heq
  · cases hh

/-- A finalization commits the deltas and settles. -/
theorem writes_calFinalized (ht : calFinalized s ev = .ok t) :
    ∃ ch h agent ds, ev.read (js "cal_hash") = some (.str ch) ∧ inFlight s ch = some h ∧
      agentKey h = .ok agent ∧ iterate (h.read (js "staged")) = .ok ds ∧
      Writes (fun p => SetBy ds p ∨ SettledBy agent p)
        (fun p => DeletedBy ds p ∨ p = flightPath ch) s t := by
  simp only [calFinalized, bind_eq_ok] at ht
  obtain ⟨ch, hch, h, hh, -, -, n, -, ds, hds, u, hu, w, hw, ht⟩ := ht
  obtain ⟨agent, hagent, hclose⟩ := writes_closeFlight ht
  have huniq : ∀ a, agentKey h = .ok a → a = agent := fun a ha => by
    rw [hagent] at ha
    cases ha
    rfl
  have hsettle := (writes_settleEscrow hw huniq _).trans hclose
  refine ⟨ch, h, agent, ds, reqStr_eq_ok hch, ?_, hagent, hds,
    ((writes_deltas hu).mono (fun _ => .inl) fun _ => .inl).trans
      (hsettle.mono (fun _ => .inr) fun _ => .inr)⟩
  unfold requireFlight at hh
  split at hh
  · next heq =>
    cases hh
    exact heq
  · cases hh

/-! ## Events -/

/-- A path one level or more below one of the eight namespaces. -/
def Inside (p : List Str) : Prop := ∃ n k r, p = n :: k :: r ∧ n ∈ NAMESPACES

theorem SettledBy.inside {p : List Str} (hp : SettledBy agent p) : Inside p := by
  rcases hp with rfl | rfl | rfl
  · exact ⟨_, _, _, rfl, by decide⟩
  · exact ⟨_, _, _, rfl, by decide⟩
  · exact ⟨_, _, _, rfl, by decide⟩

/-- What an accepted event writes: what the deltas name that it commits, and paths inside the
namespaces. -/
theorem accepts_writes (hacc : Accepts s ev t) :
    Writes (fun p => Inside p ∨ SetBy (committed s ev) p)
      (fun p => Inside p ∨ DeletedBy (committed s ev) p) s t := by
  obtain ⟨type, htype, hstep⟩ := accepts_step hacc
  have hset : ∀ {n k : Str} {r : List Str} {u : State} (x : Json), n ∈ NAMESPACES →
      Writes (fun p => Inside p ∨ SetBy (committed s ev) p)
        (fun p => Inside p ∨ DeletedBy (committed s ev) p) s u →
      Writes (fun p => Inside p ∨ SetBy (committed s ev) p)
        (fun p => Inside p ∨ DeletedBy (committed s ev) p) s (setIn (some u) (n :: k :: r) x) :=
    fun x hn h => .set h (.inl ⟨_, _, _, rfl, hn⟩)
  cases type with
  | created =>
    simp only [EventType.step, calCreated, bind_eq_ok, pure_eq_ok] at hstep
    obtain ⟨c, -, a, -, -, -, -, -, rfl⟩ := hstep
    exact hset _ (by decide) (.refl _)
  | signed =>
    simp only [EventType.step, calSigned, bind_eq_ok, pure_eq_ok] at hstep
    obtain ⟨c, -, e, -, -, -, rfl⟩ := hstep
    exact hset _ (by decide) (.refl _)
  | validated =>
    simp only [EventType.step, calValidated, bind_eq_ok, pure_eq_ok] at hstep
    obtain ⟨c, -, e, -, -, -, n, -, a, -, -, -, rfl⟩ := hstep
    exact hset _ (by decide) (hset _ (by decide) (hset _ (by decide) (.refl _)))
  | executed =>
    simp only [EventType.step, calExecuted, bind_eq_ok] at hstep
    obtain ⟨c, -, e, -, -, -, hstep⟩ := hstep
    split at hstep
    · simp only [bind_eq_ok, pure_eq_ok] at hstep
      obtain ⟨n, -, rfl⟩ := hstep
      exact hset _ (by decide) (hset _ (by decide) (hset _ (by decide) (.refl _)))
    · cases hstep
  | settled =>
    simp only [EventType.step, calSettled, bind_eq_ok, pure_eq_ok] at hstep
    obtain ⟨c, -, e, -, -, -, rfl⟩ := hstep
    exact hset _ (by decide) (.refl _)
  | finalized =>
    obtain ⟨ch, h, agent, ds, hch, hh, -, hds, hw⟩ := writes_calFinalized hstep
    have hcom : committed s ev = ds := by
      simp only [committed, htype, hch, hh, if_true, hds]
      rfl
    rw [hcom]
    exact hw.mono (fun p hp => hp.symm.imp_left SettledBy.inside)
      fun p hp => hp.symm.imp_left fun hp => ⟨_, _, _, hp, by decide⟩
  | failed | expired =>
    obtain ⟨ch, h, agent, -, -, -, hw⟩ := writes_calFailed hstep
    exact hw.mono (fun p hp => .inl hp.inside) fun p hp => .inl ⟨_, _, _, hp, by decide⟩
  | transferred =>
    simp only [EventType.step, ptraTransferred, bind_eq_ok, pure_eq_ok] at hstep
    obtain ⟨a, -, b, -, n, -, -, -, rfl⟩ := hstep
    exact hset _ (by decide) (hset _ (by decide) (.refl _))
  | shadow_init =>
    simp only [EventType.step, ptraShadowInit, bind_eq_ok] at hstep
    obtain ⟨a, -, hstep⟩ := hstep
    split at hstep
    · cases hstep
      exact .refl _
    · cases hstep
      exact hset _ (by decide) (.refl _)
  | feed_submitted =>
    simp only [EventType.step, oracleFeedSubmitted, bind_eq_ok, pure_eq_ok] at hstep
    obtain ⟨y, -, rfl⟩ := hstep
    exact hset _ (by decide) (.refl _)
  | tick_advanced =>
    simp only [EventType.step, tickAdvanced, bind_eq_ok] at hstep
    obtain ⟨n, -, hstep⟩ := hstep
    split at hstep
    · simp only [bind_eq_ok, pure_eq_ok] at hstep
      obtain ⟨-, -, rfl⟩ := hstep
      exact hset _ (by decide) (hset _ (by decide) (.refl _))
    · simp only [bind_eq_ok] at hstep
      obtain ⟨-, -, hstep⟩ := hstep
      cases hstep

/-! ## The namespaces -/

/-- The members of the state are the eight namespaces. -/
def EightNamespaces (s : State) : Prop := s.members.map Prod.fst = NAMESPACES

/-- The deltas that the event commits name one of the eight namespaces, and delete none of them. -/
def StaysWithin (s : State) (ev : Event) : Prop :=
  ∀ d ∈ committed s ev, ∀ ns path op, deltaTarget d = some (ns :: path, op) →
    ns ∈ NAMESPACES ∧ (op = .delete → path ≠ [])

/-- Setting a member that is there keeps the keys. -/
theorem map_fst_put_of_mem {k : Str} {x : Json} {m : List (Str × Json)}
    (h : k ∈ m.map Prod.fst) : (putMember k x m).map Prod.fst = m.map Prod.fst := by
  have hsome : (get k m).isSome = true := by
    by_contra hnone
    rw [Option.not_isSome_iff_eq_none, get_eq_none_iff] at hnone
    obtain ⟨e, he, rfl⟩ := List.mem_map.mp h
    exact hnone e he rfl
  rw [putMember, put, if_pos hsome, map_fst_replace]

theorem EightNamespaces.isPlainObject (h : EightNamespaces s) : s.isPlainObject = true := by
  cases s with
  | obj m => rfl
  | _ => cases h

/-- An accepted event keeps the eight namespaces, if the deltas that it commits do. -/
theorem EightNamespaces.accepts (hs : EightNamespaces s) (hev : StaysWithin s ev)
    (hacc : Accepts s ev t) : EightNamespaces t := by
  have hwrites : Writes (fun p => ∃ n r, p = n :: r ∧ n ∈ NAMESPACES)
      (fun p => ∃ n k r, p = n :: k :: r ∧ n ∈ NAMESPACES) s t := by
    refine (accepts_writes hacc).mono (fun p hp => ?_) fun p hp => ?_
    · rcases hp with ⟨n, k, r, rfl, hn⟩ | ⟨d, hd, op, htarget, -⟩
      · exact ⟨n, k :: r, rfl, hn⟩
      · obtain ⟨ns, path, rfl⟩ := deltaTarget_cons htarget
        exact ⟨ns, path, rfl, (hev d hd ns path op htarget).1⟩
    · rcases hp with hp | ⟨d, hd, htarget⟩
      · exact hp
      · obtain ⟨ns, path, rfl⟩ := deltaTarget_cons htarget
        obtain ⟨hn, hpath⟩ := hev d hd ns path _ htarget
        obtain ⟨k, r, rfl⟩ := List.exists_cons_of_ne_nil (hpath rfl)
        exact ⟨ns, k, r, rfl, hn⟩
  clear hev hacc
  induction hwrites with
  | refl => exact hs
  | @set u p x _ hp ih =>
    obtain ⟨n, r, rfl, hn⟩ := hp
    rw [EightNamespaces, setIn, members_baseOf, Json.members,
      map_fst_put_of_mem (ih.symm ▸ hn)]
    exact ih
  | @delete u p _ hp ih =>
    obtain ⟨n, k, r, rfl, hn⟩ := hp
    obtain ⟨m, rfl⟩ : ∃ m, u = .obj m := by
      cases u with
      | obj m => exact ⟨m, rfl⟩
      | _ => cases ih
    rw [deleteIn_cons_obj]
    split
    · rw [EightNamespaces, Json.members, map_fst_put_of_mem (by
        change n ∈ (Json.obj m).members.map Prod.fst
        rw [ih]
        exact hn)]
      exact ih
    · exact ih

end ParadigmTerra
