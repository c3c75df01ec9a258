import ParadigmTerra.Reducer.Ledger

/-!
# Owner records

A record of the registry with an array of `owners` should be well-formed: the quorum gate relies on
it. The reducer checks a record when a delta sets its `owners` or its `threshold`, once both are there.
Other deltas reach the same fields without a check: `add` and `sub` at the threshold, any write below
it, and a write of the whole record or of a map that holds it.

`GuardedDelta` says that a delta takes none of the unchecked ways, and `GuardedList` that a list of
deltas completes every record that it leaves partial. `run_registryOk` shows that runs of such lists
keep the registry well-formed; the invariant inside a list is `RecordsOk`, which lets a record lack its
threshold as long as a later delta sets it. `checkGuarded` decides a condition on the deltas alone that
implies `GuardedList`.
-/

namespace ParadigmTerra

open Text OrderedMap Fallible

/-- The path of an agent's record. -/
abbrev recordPath (agent : Str) : List Str := [js "registry", js "agents", agent]

/-- The path of an agent's owners. -/
abbrev ownersPath (agent : Str) : List Str := [js "registry", js "agents", agent, js "owners"]

/-- The path of an agent's threshold. -/
abbrev thresholdPath (agent : Str) : List Str := [js "registry", js "agents", agent, js "threshold"]

/-- Each record that carries an array of owners is well-formed. -/
def RegistryOk (s : State) : Prop :=
  ∀ agent os, getIn s (ownersPath agent) = some (.arr os) →
    ownerRecordWellFormed (some (.arr os)) (getIn s (thresholdPath agent)) = true

/-- The same of one record that is a part of a value. -/
def RecordOk (rec : Option Json) : Prop :=
  ∀ os, (rec.bind fun r => ownIn r [js "owners"]) = some (.arr os) →
    ownerRecordWellFormed (some (.arr os)) (rec.bind fun r => ownIn r [js "threshold"]) = true

/-- A delta takes none of the ways to an owner record that are not checked. -/
structure GuardedDelta (d : Json) : Prop where
  /-- The records in a value that is set in the place of a record, of all of them or of the registry
  are well-formed. -/
  whole : ∀ full agent r, deltaTarget d = some (full, .set) → recordPath agent = full ++ r →
    RecordOk (ownIn (orElse (d.read (js "value")) .null) r)
  /-- At a threshold there is `set` and `delete`, and below it only `delete`. -/
  threshold : ∀ agent r op, deltaTarget d = some (thresholdPath agent ++ r, op) →
    op = .delete ∨ op = .set ∧ r = []

/-- A delta leaves a record without a threshold: it sets the owners of one that has none, or deletes
the threshold of one with owners. -/
def LeavesPartial (s : State) (d : Json) (agent : Str) : Prop :=
  deltaTarget d = some (ownersPath agent, .set) ∧ (∃ os, d.read (js "value") = some (.arr os)) ∧
      getIn s (thresholdPath agent) = none ∨
    deltaTarget d = some (thresholdPath agent, .delete) ∧
      ∃ os, getIn s (ownersPath agent) = some (.arr os)

/-- Some delta sets the threshold of the record. -/
def Completes (agent : Str) (ds : List Json) : Prop :=
  ∃ d ∈ ds, deltaTarget d = some (thresholdPath agent, .set)

/-- Guarded deltas, each record that one of them leaves partial completed by a later one. -/
def GuardedList : State → List Json → Prop
  | _, [] => True
  | s, d :: ds => GuardedDelta d ∧ (∀ agent, LeavesPartial s d agent → Completes agent ds) ∧
    ∀ t, applyDeltaJson s d = .ok t → GuardedList t ds

/-- Each record with owners is well-formed, or lacks a threshold that one of the deltas sets. -/
def RecordsOk (s : State) (ds : List Json) : Prop :=
  ∀ agent os, ownIn s (ownersPath agent) = some (.arr os) →
    ownerRecordWellFormed (some (.arr os)) (ownIn s (thresholdPath agent)) = true ∨
      ownIn s (thresholdPath agent) = none ∧ Completes agent ds

/-! ## Reading records -/

theorem getIn_ownersPath (s : State) (agent : Str) :
    getIn s (ownersPath agent) = ownIn s (ownersPath agent) :=
  getIn_snoc s (recordPath agent) (by simp [inheritedNames])

theorem getIn_thresholdPath (s : State) (agent : Str) :
    getIn s (thresholdPath agent) = ownIn s (thresholdPath agent) :=
  getIn_snoc s (recordPath agent) (by simp [inheritedNames])

theorem registryOk_iff_recordsOk {s : State} : RegistryOk s ↔ RecordsOk s [] := by
  simp [RegistryOk, RecordsOk, Completes, getIn_ownersPath, getIn_thresholdPath]

/-- A state with the same registry has the same records. -/
theorem RegistryOk.congr {s t : State} (hs : RegistryOk s)
    (h : ∀ p, ownIn t (js "registry" :: p) = ownIn s (js "registry" :: p)) : RegistryOk t := by
  intro agent os ho
  rw [getIn_ownersPath, h, ← getIn_ownersPath] at ho
  rw [getIn_thresholdPath, h, ← getIn_thresholdPath]
  exact hs agent os ho

/-- The check of a complete record. -/
theorem enforceOwnerRecord_spec {t : State} {full : List Str} {agent : Str}
    {m : List (Str × Json)} {o th : Json} (hfull : full = ownersPath agent ∨ full = thresholdPath agent)
    (hm : ownIn t (recordPath agent) = some (.obj m)) (ho : get (js "owners") m = some o)
    (hth : get (js "threshold") m = some th) (h : enforceOwnerRecord t full = .ok ()) :
    ownerRecordWellFormed (some o) (some th) = true := by
  have hif : ∀ f, f = js "owners" ∨ f = js "threshold" →
      enforceOwnerRecord t [js "registry", js "agents", agent, f] = .ok () →
      ownerRecordWellFormed (some o) (some th) = true := by
    intro f hf h
    simp only [enforceOwnerRecord, hf, and_self, if_true, getIn_of_ownIn hm, Json.isPlainObject,
      Json.read_of_get ho, Json.read_of_get hth, Option.isSome_some, Bool.and_self,
      require_eq_ok] at h
    exact h
  rcases hfull with rfl | rfl
  · exact hif _ (.inl rfl) h
  · exact hif _ (.inr rfl) h

/-- The record around fields that are there. -/
theorem record_of_field {t : State} {agent f : Str} {o : Json}
    (ho : ownIn t (recordPath agent ++ [f]) = some o) :
    ∃ m, ownIn t (recordPath agent) = some (.obj m) ∧ get f m = some o := by
  rw [ownIn_append, Option.bind_eq_some_iff] at ho
  obtain ⟨r, hr, ho⟩ := ho
  rw [ownIn, Option.bind_eq_some_iff] at ho
  obtain ⟨w, hw, ho⟩ := ho
  cases ho
  cases r with
  | obj m => exact ⟨m, hr, hw⟩
  | _ => cases hw

theorem orElse_eq_arr {v : Option Json} {os : List Json} (h : orElse v .null = .arr os) :
    v = some (.arr os) := by
  unfold orElse at h
  split at h
  · cases h
  · cases h
  · rw [h]

/-! ## One delta -/

theorem completes_cons {agent : Str} {d : Json} {ds : List Json} (h : Completes agent (d :: ds)) :
    deltaTarget d = some (thresholdPath agent, .set) ∨ Completes agent ds := by
  obtain ⟨e, he, ht⟩ := h
  rcases List.mem_cons.mp he with rfl | he
  · exact .inl ht
  · exact .inr ⟨e, he, ht⟩

section Step

variable {s t : State} {d : Json} {ds : List Json} {full : List Str} {op : DeltaOp} {agent : Str}
  {os : List Json}

/-- A delta that leaves both fields of a record as they were, and is not the one that completes it. -/
theorem record_unchanged (hJ : RecordsOk s (d :: ds)) (htarget : deltaTarget d = some (full, op))
    (hne : full ≠ thresholdPath agent ∨ op ≠ .set)
    (howners : ownIn t (ownersPath agent) = some (.arr os) →
      ownIn s (ownersPath agent) = some (.arr os))
    (hthreshold : ownIn t (thresholdPath agent) = ownIn s (thresholdPath agent))
    (ho : ownIn t (ownersPath agent) = some (.arr os)) :
    ownerRecordWellFormed (some (.arr os)) (ownIn t (thresholdPath agent)) = true ∨
      ownIn t (thresholdPath agent) = none ∧ Completes agent ds := by
  rw [hthreshold]
  refine (hJ agent os (howners ho)).imp_right fun ⟨hnone, hc⟩ => ⟨hnone, ?_⟩
  rcases completes_cons hc with h | h
  · rw [htarget, Option.some.injEq, Prod.mk.injEq] at h
    rcases hne with hne | hne
    · exact absurd h.1 hne
    · exact absurd h.2 hne
  · exact h

/-- A write of the record or around it. -/
theorem record_of_enclosing {x : Json} {r : List Str} (hr : recordPath agent = full ++ r)
    (hx : RecordOk (ownIn x r)) (ht : t = setIn (some s) full x)
    (ho : ownIn t (ownersPath agent) = some (.arr os)) :
    ownerRecordWellFormed (some (.arr os)) (ownIn t (thresholdPath agent)) = true := by
  have hread : ∀ f, ownIn t (recordPath agent ++ [f]) = (ownIn x r).bind fun w => ownIn w [f] := by
    intro f
    rw [hr, List.append_assoc, ht, ownIn_setIn_append, ownIn_append]
  rw [show thresholdPath agent = recordPath agent ++ [js "threshold"] from rfl, hread]
  refine hx os ?_
  rw [← hread]
  exact ho

theorem recordOk_int (n : ℤ) (r : List Str) : RecordOk (ownIn (.int n) r) := by
  intro os h
  cases r <;> cases h

/-- A write below the owners leaves no array there. -/
theorem ownIn_setIn_below (p : List Str) (k : Str) (r : List Str) (x : Json) :
    ownIn (setIn (some s) (p ++ k :: r) x) p ≠ some (.arr os) := by
  obtain ⟨o, h, -⟩ := ownIn_setIn_prefix s p k r x
  rw [h]
  simp

/-- A write to the owners of a record. -/
theorem record_of_owners {r : List Str} (hJ : RecordsOk s (d :: ds))
    (htarget : deltaTarget d = some (ownersPath agent ++ r, op))
    (hcomplete : LeavesPartial s d agent → Completes agent ds)
    (h : applyOp s (ownersPath agent ++ r) op (d.read (js "value")) = .ok t)
    (ho : ownIn t (ownersPath agent) = some (.arr os)) :
    ownerRecordWellFormed (some (.arr os)) (ownIn t (thresholdPath agent)) = true ∨
      ownIn t (thresholdPath agent) = none ∧ Completes agent ds := by
  have hap : Apart (ownersPath agent ++ r) (thresholdPath agent) := by simp
  rcases applyOp_cases h with ⟨rfl, ht, he⟩ | ⟨-, n, ht⟩ | ⟨rfl, ht⟩
  · have hth : ownIn t (thresholdPath agent) = ownIn s (thresholdPath agent) := by
      rw [ht, ownIn_setIn_of_apart hap]
    cases r with
    | nil =>
      rw [List.append_nil] at ht he htarget
      cases hs : ownIn s (thresholdPath agent) with
      | none =>
        -- the record stays partial: a later delta sets the threshold
        rw [hth, hs]
        refine .inr ⟨rfl, hcomplete (.inl ⟨htarget, ⟨os, orElse_eq_arr ?_⟩, ?_⟩)⟩
        · rw [ht, ownIn_setIn] at ho
          exact Option.some.inj ho
        · rw [getIn_thresholdPath, hs]
      | some th =>
        rw [hs] at hth
        obtain ⟨m, hm, hmo⟩ := record_of_field (f := js "owners") ho
        obtain ⟨m', hm', hmt⟩ := record_of_field (f := js "threshold") hth
        cases hm.symm.trans hm'
        rw [hth]
        exact .inl (enforceOwnerRecord_spec (.inl rfl) hm hmo hmt he)
    | cons k r => exact absurd (ht ▸ ho) (ownIn_setIn_below (ownersPath agent) k r _)
  · cases r with
    | nil =>
      rw [List.append_nil] at ht
      rw [ht, ownIn_setIn] at ho
      cases ho
    | cons k r => exact absurd (ht ▸ ho) (ownIn_setIn_below (ownersPath agent) k r _)
  · cases r with
    | nil =>
      rw [List.append_nil] at ht
      have hnone := ownIn_deleteIn_append s (recordPath agent) (js "owners") []
      rw [ht, show ownersPath agent = recordPath agent ++ [js "owners"] from rfl, hnone] at ho
      cases ho
    | cons k r =>
      refine record_unchanged hJ htarget (.inr (by simp)) (fun h => ?_) ?_ ho
      · rw [ht] at h
        exact arr_of_ownIn_deleteIn h
      · rw [ht, ownIn_deleteIn_of_apart hap]

/-- A write to the threshold of a record, in a guarded way. -/
theorem record_of_threshold {r : List Str} (hJ : RecordsOk s (d :: ds))
    (htarget : deltaTarget d = some (thresholdPath agent ++ r, op))
    (hguard : op = .delete ∨ op = .set ∧ r = [])
    (hcomplete : LeavesPartial s d agent → Completes agent ds)
    (h : applyOp s (thresholdPath agent ++ r) op (d.read (js "value")) = .ok t)
    (ho : ownIn t (ownersPath agent) = some (.arr os)) :
    ownerRecordWellFormed (some (.arr os)) (ownIn t (thresholdPath agent)) = true ∨
      ownIn t (thresholdPath agent) = none ∧ Completes agent ds := by
  have hap : Apart (thresholdPath agent ++ r) (ownersPath agent) := by simp
  rcases applyOp_cases h with ⟨rfl, ht, he⟩ | ⟨hop, -⟩ | ⟨rfl, ht⟩
  · obtain rfl : r = [] := by simpa using hguard
    rw [List.append_nil] at ht he
    have hth : ownIn t (thresholdPath agent) = some (orElse (d.read (js "value")) .null) := by
      rw [ht, ownIn_setIn]
    obtain ⟨m, hm, hmo⟩ := record_of_field (f := js "owners") ho
    obtain ⟨m', hm', hmt⟩ := record_of_field (f := js "threshold") hth
    cases hm.symm.trans hm'
    rw [hth]
    exact .inl (enforceOwnerRecord_spec (.inr rfl) hm hmo hmt he)
  · rcases hop with rfl | rfl <;> simp at hguard
  · have hos : ownIn s (ownersPath agent) = some (.arr os) := by
      rw [ht, ownIn_deleteIn_of_apart hap] at ho
      exact ho
    cases r with
    | nil =>
      rw [List.append_nil] at ht htarget
      have hnone := ownIn_deleteIn_append s (recordPath agent) (js "threshold") []
      refine .inr ⟨by rw [ht]; exact hnone, hcomplete (.inr ⟨htarget, os, ?_⟩)⟩
      rw [getIn_ownersPath, hos]
    | cons k r =>
      refine record_unchanged hJ htarget (.inr (by simp)) (fun _ => hos) ?_ ho
      -- below an integer, or below nothing, there is nothing to delete
      obtain ⟨m, hm, -⟩ := record_of_field (f := js "owners") hos
      have hrec := ownIn_deleteIn_along hm (js "threshold") (k :: r)
      rw [deleteIn_cons_obj, Json.read_of_not_inherited (by simp [inheritedNames])] at hrec
      have hth : ∀ v, ownIn v (thresholdPath agent) =
          (ownIn v (recordPath agent)).bind fun w => ownIn w [js "threshold"] := fun v =>
        ownIn_append v (recordPath agent) [js "threshold"]
      rw [hth, hth, hm, ht]
      cases hg : get (js "threshold") m with
      | none =>
        rw [hg] at hrec
        rw [show thresholdPath agent ++ k :: r = recordPath agent ++ js "threshold" :: k :: r from rfl,
          hrec]
      | some th =>
        obtain ⟨n, rfl⟩ : ∃ n, th = .int n := by
          rcases hJ agent os hos with hw | ⟨hn, -⟩
          · rw [hth, hm, Option.bind_some, ownIn, Json.members, hg] at hw
            simp only [Option.bind_some, ownIn] at hw
            unfold ownerRecordWellFormed at hw
            split at hw
            · next heq =>
              cases heq
              exact ⟨_, rfl⟩
            · cases hw
          · rw [hth, hm, Option.bind_some, ownIn, Json.members, hg] at hn
            cases hn
        rw [hg] at hrec
        rw [show thresholdPath agent ++ k :: r = recordPath agent ++ js "threshold" :: k :: r from rfl,
          hrec]
        simp only [Option.bind_some, ownIn, Json.members, get_put_self, hg]
        cases r <;> rfl

end Step

/-- A guarded delta keeps the records, with the later deltas that complete them. -/
theorem applyDeltaJson_recordsOk {s t : State} {d : Json} {ds : List Json} (hg : GuardedDelta d)
    (hp : ∀ agent, LeavesPartial s d agent → Completes agent ds) (hJ : RecordsOk s (d :: ds))
    (h : applyDeltaJson s d = .ok t) : RecordsOk t ds := by
  obtain ⟨ns, path, op, -, htarget, h⟩ := applyDeltaJson_eq_ok h
  generalize hfull : ns :: path = full at htarget h
  intro agent os ho
  rcases apart_or_append full (recordPath agent) with hap | ⟨r, hr⟩ | ⟨k, r, hr⟩
  · -- a write elsewhere
    have hown : ∀ f, ownIn t (recordPath agent ++ [f]) = ownIn s (recordPath agent ++ [f]) := by
      intro f
      rcases applyOp_cases h with ⟨-, rfl, -⟩ | ⟨-, n, rfl⟩ | ⟨-, rfl⟩
      · exact ownIn_setIn_of_apart (hap.append _) s _
      · exact ownIn_setIn_of_apart (hap.append _) s _
      · exact ownIn_deleteIn_of_apart (hap.append _) s
    refine record_unchanged hJ htarget (.inl ?_) (fun h => ?_) (hown (js "threshold")) ho
    · rintro rfl
      simp at hap
    · exact (hown (js "owners")).symm.trans h
  · -- a write of the record, of all records or of the registry
    rcases applyOp_cases h with ⟨rfl, ht, -⟩ | ⟨-, n, ht⟩ | ⟨-, ht⟩
    · exact .inl (record_of_enclosing hr (hg.whole full agent r htarget hr) ht ho)
    · exact .inl (record_of_enclosing hr (recordOk_int n r) ht ho)
    · exfalso
      obtain ⟨p, l, hpl⟩ : ∃ p l, full = p ++ [l] := by
        rw [← hfull]
        exact ⟨_, _, (List.dropLast_append_getLast (List.cons_ne_nil ns path)).symm⟩
      have hnone := ownIn_deleteIn_append s p l (r ++ [js "owners"])
      rw [← hpl, show p ++ l :: (r ++ [js "owners"]) = ownersPath agent by
        rw [show ownersPath agent = recordPath agent ++ [js "owners"] from rfl, hr, hpl]; simp,
        ← ht, ho] at hnone
      cases hnone
  · -- a write inside the record
    by_cases hko : k = js "owners"
    · subst hko
      have hf : full = ownersPath agent ++ r := hr
      subst hf
      exact record_of_owners hJ htarget (hp agent) h ho
    · by_cases hkt : k = js "threshold"
      · subst hkt
        have hf : full = thresholdPath agent ++ r := hr
        subst hf
        exact record_of_threshold hJ htarget (hg.threshold agent r op htarget) (hp agent) h ho
      · have hap : ∀ f, f = js "owners" ∨ f = js "threshold" → Apart full (recordPath agent ++ [f]) := by
          rintro f (rfl | rfl)
          · rw [hr]; simp [hko]
          · rw [hr]; simp [hkt]
        have hown : ∀ f, f = js "owners" ∨ f = js "threshold" →
            ownIn t (recordPath agent ++ [f]) = ownIn s (recordPath agent ++ [f]) := by
          intro f hf
          rcases applyOp_cases h with ⟨-, rfl, -⟩ | ⟨-, n, rfl⟩ | ⟨-, rfl⟩
          · exact ownIn_setIn_of_apart (hap f hf) s _
          · exact ownIn_setIn_of_apart (hap f hf) s _
          · exact ownIn_deleteIn_of_apart (hap f hf) s
        refine record_unchanged hJ htarget (.inl ?_) (fun h => ?_) (hown _ (.inr rfl)) ho
        · rintro rfl
          have := hap (js "threshold") (.inr rfl)
          simp at this
        · exact (hown _ (.inl rfl)).symm.trans h

/-- Guarded deltas, one after another. -/
theorem foldlM_recordsOk {s t : State} {ds : List Json} (hg : GuardedList s ds)
    (hJ : RecordsOk s ds) (h : ds.foldlM applyDeltaJson s = .ok t) : RecordsOk t [] := by
  induction ds generalizing s with
  | nil => exact foldlM_nil_ok.mp h ▸ hJ
  | cons d ds ih =>
    obtain ⟨u, hu, h⟩ := foldlM_cons_ok.mp h
    obtain ⟨hd, hp, hrest⟩ := hg
    exact ih (hrest u hu) (applyDeltaJson_recordsOk hd hp hJ hu) h

/-! ## Events and runs -/

/-- What an event commits is guarded. -/
def CommitsGuarded (s : State) (ev : Event) : Prop := GuardedList s (committed s ev)

/-- An accepted event that commits guarded deltas keeps the registry well-formed. -/
theorem accepts_registryOk {s t : State} {ev : Event} (hg : CommitsGuarded s ev)
    (h : Accepts s ev t) (hs : RegistryOk s) : RegistryOk t := by
  have hregistry : js "registry" ∉ eventNamespaces := by simp [eventNamespaces]
  obtain ⟨u, hu, hsame⟩ := accepts_commits h
  refine RegistryOk.congr ?_ (hsame _ hregistry)
  refine registryOk_iff_recordsOk.mpr (foldlM_recordsOk hg (fun agent os ho => ?_) hu)
  have := hs agent os (by rw [getIn_ownersPath, ho])
  rw [getIn_thresholdPath] at this
  exact .inl this

/-- In every run whose events commit guarded deltas, the registry is well-formed in every state
reached. -/
theorem run_registryOk {s t : State} {evs : List Event} (hs : RegistryOk s)
    (h : Run CommitsGuarded s evs t) : RegistryOk t :=
  h.invariant (fun _ _ _ hg hacc => accepts_registryOk hg hacc) hs

/-! ## Deciding -/

/-- A delta writes outside the registry, or to a field of a record: at the owners anything, at the
threshold only `set` and `delete`. -/
def checkDelta (d : Json) : Bool :=
  match deltaTarget d with
  | some (ns :: path, op) =>
    ns ≠ js "registry" ||
      match path with
      | [a, _, f] =>
        a = js "agents" && (f ≠ js "threshold" || op = .set || op = .delete)
      | _ => false
  | some ([], _) => false
  | none => true

/-- A delta that can leave a record without a threshold is followed by one that sets it. -/
def checkCompletes (d : Json) (ds : List Json) : Bool :=
  match deltaTarget d with
  | some ([r, a, id, f], op) =>
    (f = js "owners" && op = .set || f = js "threshold" && op = .delete) →
      ds.any fun e => deltaTarget e = some ([r, a, id, js "threshold"], .set)
  | _ => true

/-- Guardedness of a list of deltas, decided without the state. -/
def checkGuarded : List Json → Bool
  | [] => true
  | d :: ds => checkDelta d && checkCompletes d ds && checkGuarded ds

theorem guardedDelta_of_check {d : Json} (h : checkDelta d = true) : GuardedDelta d := by
  constructor
  · intro full agent r htarget hr
    rw [checkDelta, htarget] at h
    -- a path with a record below it is shorter than the path of a field
    have hlen : full.length ≤ 3 := by
      have := congrArg List.length hr
      simp at this
      omega
    match full, hr with
    | ns :: [a, id, f], hr => simp at hlen
    | ns :: [], hr | ns :: [a], hr | ns :: [a, id], hr =>
      obtain rfl : js "registry" = ns := (List.cons.inj hr).1
      simp at h
  · intro agent r op htarget
    rw [checkDelta, htarget] at h
    cases r with
    | nil => simpa [or_comm] using h
    | cons k r => simp at h

theorem completes_of_check {s : State} {d : Json} {ds : List Json} {agent : Str}
    (h : checkCompletes d ds = true) (hp : LeavesPartial s d agent) : Completes agent ds := by
  rcases hp with ⟨htarget, -, -⟩ | ⟨htarget, -⟩ <;>
  · simp only [checkCompletes, htarget] at h
    obtain ⟨e, he, hset⟩ := List.any_eq_true.mp (of_decide_eq_true h (by simp))
    exact ⟨e, he, of_decide_eq_true hset⟩

/-- The check is enough for a list to be guarded at every state. -/
theorem guardedList_of_check {s : State} {ds : List Json} (h : checkGuarded ds = true) :
    GuardedList s ds := by
  induction ds generalizing s with
  | nil => trivial
  | cons d ds ih =>
    simp only [checkGuarded, Bool.and_eq_true] at h
    exact ⟨guardedDelta_of_check h.1.1, fun agent => completes_of_check h.1.2, fun t _ => ih h.2⟩

/-- What an event commits passes the check. -/
def CommitsChecked (s : State) (ev : Event) : Prop := checkGuarded (committed s ev) = true

instance (s : State) (ev : Event) : Decidable (CommitsChecked s ev) := by
  unfold CommitsChecked; infer_instance

/-- Every record of a state's registry is well-formed, decided. -/
def checkRegistry (s : State) : Bool :=
  match ownIn s [js "registry", js "agents"] with
  | some agents => agents.members.all fun e =>
    match ownIn e.2 [js "owners"] with
    | some (.arr os) =>
      ownerRecordWellFormed (some (.arr os)) (ownIn e.2 [js "threshold"])
    | _ => true
  | none => true

theorem registryOk_of_check {s : State} (h : checkRegistry s = true) : RegistryOk s := by
  intro agent os ho
  rw [getIn_ownersPath] at ho
  rw [getIn_thresholdPath]
  have hsplit : ∀ f, ownIn s (recordPath agent ++ [f]) =
      (ownIn s [js "registry", js "agents"]).bind fun a =>
        (get agent a.members).bind fun r => ownIn r [f] := fun f =>
    ownIn_append s [js "registry", js "agents"] [agent, f]
  rw [show ownersPath agent = recordPath agent ++ [js "owners"] from rfl, hsplit] at ho
  rw [show thresholdPath agent = recordPath agent ++ [js "threshold"] from rfl, hsplit]
  simp only [Option.bind_eq_some_iff] at ho
  obtain ⟨a, ha, r, hr, ho⟩ := ho
  rw [checkRegistry, ha] at h
  have hrec := List.all_eq_true.mp h _ (mem_of_get hr)
  simp only [ho] at hrec
  rw [ha, Option.bind_some, hr, Option.bind_some]
  exact hrec

end ParadigmTerra
