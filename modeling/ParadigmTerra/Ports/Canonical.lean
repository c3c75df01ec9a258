import ParadigmTerra.Node.CanonicalText
import ParadigmTerra.Node.ApplyTick
import ParadigmTerra.Ports.Reducer

/-!
# Canonical values in the three languages

The canonicalizers serialize alike, but the reference implementation first copies the value by
assignments, which lose a member named `__proto__`. The values on which that copy is the value itself are
the `canonical` ones. On a state that is canonical and has its eight namespaces (`Rooted`) the state roots
are one and the same; where a namespace is missing, the reference implementation throws and the ports
take it for `null`.
-/

namespace ParadigmTerra.Ports

open Text OrderedMap Fallible

/-- Well-formed strings, members in their order and none named `__proto__`, no function. -/
def canonical : Shape :=
  ⟨wellFormed, fun m => decide (Normal keyBefore m) && m.all fun e => e.1 ≠ js "__proto__",
    fun _ => false⟩

abbrev Canonical (v : Json) : Prop := v.fits canonical = true

theorem canonical_obj {m : List (Str × Json)} : Canonical (.obj m) ↔
    Normal keyBefore m ∧ (∀ e ∈ m, e.1 ≠ js "__proto__") ∧ ∀ e ∈ m, Canonical e.2 := by
  simp only [Canonical, Json.fits, fitsMembers_iff, canonical, Bool.and_eq_true, decide_eq_true_eq,
    List.all_eq_true, and_assoc]

/-- The members of a canonical value are those of a canonical object. -/
theorem canonical_members {v : Json} (hv : Canonical v) : Canonical (.obj v.members) := by
  cases v with
  | obj m => exact hv
  | _ => exact canonical_obj.mpr ⟨normal_nil, by simp [Json.members], by simp [Json.members]⟩

theorem canonical_get {v w : Json} {k : Str} (hv : Canonical v) (h : get v k = some w) :
    Canonical w := fits_of_get hv h

/-- No member of a canonical value is named `__proto__`. -/
theorem get_proto {v : Json} (hv : Canonical v) : get v (js "__proto__") = none := by
  refine get_eq_none_iff.mpr fun e he => ?_
  exact (canonical_obj.mp (canonical_members hv)).2.1 e he

theorem canonical_put {k : Str} {x : Json} {m : List (Str × Json)} (hk : k ≠ js "__proto__")
    (hx : Canonical x) (hm : Canonical (.obj m)) : Canonical (.obj (putMember k x m)) := by
  obtain ⟨hnormal, hkeys, hvals⟩ := canonical_obj.mp hm
  refine canonical_obj.mpr ⟨hnormal.put keyBefore_trans keyBefore_asymm _ _, ?_, ?_⟩
  · intro e he
    rcases mem_put he with rfl | he
    · exact hk
    · exact hkeys e he
  · intro e he
    rcases mem_put he with rfl | he
    · exact hx
    · exact hvals e he

/-- What the ports write stays canonical. -/
theorem canonical_setIn {v x : Json} {p : List Str} (hv : Canonical v) (hx : Canonical x)
    (hp : js "__proto__" ∉ p) : Canonical (setIn v p x) := by
  induction p generalizing v with
  | nil => exact hx
  | cons k p ih =>
    obtain ⟨hk, hp⟩ := not_or.mp (List.mem_cons.not.mp hp)
    refine canonical_put (Ne.symm hk) (ih ?_ hp) (canonical_members hv)
    cases hg : get v k with
    | none => rfl
    | some w => exact canonical_get hv hg

theorem canonical_deleteIn {v : Json} {p : List Str} (hv : Canonical v) :
    Canonical (deleteIn v p) := by
  induction p generalizing v with
  | nil => cases v <;> exact hv
  | cons k p ih =>
    cases v with
    | obj m =>
      obtain ⟨hnormal, hkeys, hvals⟩ := canonical_obj.mp hv
      cases p with
      | nil =>
        exact canonical_obj.mpr ⟨hnormal.erase k, fun e he => hkeys e (mem_erase.mp he).1,
          fun e he => hvals e (mem_erase.mp he).1⟩
      | cons l p =>
        rw [deleteIn]
        split
        · next w hw =>
          exact canonical_put (hkeys _ (mem_of_get hw)) (ih (hvals _ (mem_of_get hw))) hv
        · exact hv
    | _ => cases p <;> exact hv

/-! ## Canonical bytes -/

mutual

/-- The copy of a canonical value is the value. -/
theorem coerce_of_canonical (v : Json) (hv : Canonical v) : coerceToJcsValue v = .ok v := by
  cases v with
  | str s =>
    have hs : wellFormed s = true := hv
    simp [coerceToJcsValue, require, hs]
  | arr xs => simp [coerceToJcsValue, coerceElements_of_canonical xs (fitsElements_iff.mp hv)]
  | obj m =>
    obtain ⟨hnormal, hkeys, hvals⟩ := canonical_obj.mp hv
    have hfilter : m.filter (fun e => e.1 ≠ js "__proto__") = m :=
      List.filter_eq_self.mpr fun e he => by simp [hkeys e he]
    have hcopy : m.foldl (fun out e => assignMember e.1 e.2 out) [] = m := by
      rw [foldl_assign_eq, hfilter]
      exact foldl_put_normal m [] hnormal
    simp [coerceToJcsValue, coerceMembers_of_canonical m hvals, hcopy]
  | builtin k => cases hv
  | _ => rfl

theorem coerceElements_of_canonical (xs : List Json) (h : ∀ x ∈ xs, Canonical x) :
    coerceElements xs = .ok xs := by
  cases xs with
  | nil => rfl
  | cons x xs =>
    obtain ⟨hx, hxs⟩ := List.forall_mem_cons.mp h
    simp [coerceElements, coerce_of_canonical x hx, coerceElements_of_canonical xs hxs]

theorem coerceMembers_of_canonical (m : List (Str × Json)) (h : ∀ e ∈ m, Canonical e.2) :
    coerceMembers m = .ok m := by
  cases m with
  | nil => rfl
  | cons e m =>
    obtain ⟨k, x⟩ := e
    obtain ⟨hx, hm⟩ := List.forall_mem_cons.mp h
    simp [coerceMembers, coerce_of_canonical x hx, coerceMembers_of_canonical m hm]

end

variable {H : Host}

/-- The canonical bytes of a value: the ports serialize it as it is. -/
def canonicalizeValue (H : Host) (v : Json) : Except Throw (List UInt8) := do
  let s ← serialize H v
  pure (utf8Encode s)

theorem canonicalizeValue_eq {v : Json} (hv : Canonical v) :
    ParadigmTerra.canonicalizeValue H (some v) = canonicalizeValue H v := by
  simp [ParadigmTerra.canonicalizeValue, canonicalizeValue, coerce_of_canonical v hv]

/-- The state root over the eight namespaces. A missing one is taken for `null`. -/
def stateRootOf (H : Host) (state : State) : Except Throw (List UInt8) := do
  let namespaces ← NAMESPACES.mapM fun n => do
    let b ← canonicalizeValue H ((getIn state [n]).getD .null)
    pure (⟨js "state." ++ n, b⟩ : StateNamespace)
  stateRoot H namespaces

/-- A canonical state with its eight namespaces. -/
structure Rooted (s : State) : Prop where
  canonical : Canonical s
  namespaces : ∀ n ∈ NAMESPACES, (get s n).isSome = true

/-- On a rooted state the state roots are one. -/
theorem Rooted.stateRootOf_eq {s : State} (h : Rooted s) :
    ParadigmTerra.stateRootOf H s = stateRootOf H s := by
  have hleaf : ∀ n ∈ NAMESPACES, ParadigmTerra.canonicalizeValue H (s.read n) =
      canonicalizeValue H ((getIn s [n]).getD .null) := by
    intro n hn
    obtain ⟨v, hv⟩ := Option.isSome_iff_exists.mp (h.namespaces n hn)
    have hread : s.read n = some v := read_of_get_members hv
    have hget : getIn s [n] = some v := by rw [getIn, hv]; rfl
    rw [hread, hget]
    exact canonicalizeValue_eq (canonical_get h.canonical hv)
  unfold ParadigmTerra.stateRootOf stateRootOf
  refine congrArg (· >>= _) (mapM_congr fun n hn => ?_)
  rw [hleaf n hn]

theorem Rooted.setIn {s : State} (h : Rooted s) {k : Str} {p : List Str} {x : Json}
    (hx : Canonical x) (hp : js "__proto__" ∉ k :: p) : Rooted (setIn s (k :: p) x) where
  canonical := canonical_setIn h.canonical hx hp
  namespaces n hn := by
    change (OrderedMap.get n (putMember k _ s.members)).isSome = true
    rw [get_put]
    split
    · rfl
    · exact h.namespaces n hn

/-- A deletion below a namespace keeps the namespaces. -/
theorem Rooted.deleteIn {s : State} (h : Rooted s) {k l : Str} {p : List Str} :
    Rooted (deleteIn s (k :: l :: p)) where
  canonical := canonical_deleteIn h.canonical
  namespaces n hn := by
    have hs := h.namespaces n hn
    cases s with
    | obj m =>
      rw [Ports.deleteIn]
      split
      · change (OrderedMap.get n (putMember k _ m)).isSome = true
        rw [get_put]
        split
        · rfl
        · exact hs
      · exact hs
    | _ => exact hs

theorem Rooted.erase {s : State} (h : Rooted s) {k : Str} (hk : k ∉ NAMESPACES) :
    Rooted (Ports.deleteIn s [k]) where
  canonical := canonical_deleteIn h.canonical
  namespaces n hn := by
    have hs := h.namespaces n hn
    cases s with
    | obj m =>
      change (OrderedMap.get n (OrderedMap.erase k m)).isSome = true
      rw [get_erase_of_ne (ne_of_mem_of_not_mem hn hk).symm]
      exact hs
    | _ => exact hs

end ParadigmTerra.Ports
