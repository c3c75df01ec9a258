import ParadigmTerra.Ports.Canonical
import ParadigmTerra.Ports.Totality
import ParadigmTerra.Reducer.OwnerRecord

/-!
# Deltas in the three languages

The reducers agree on a computation when all of them reach one result, or all of them reject it with one
code. They read the state in different ways: the reference implementation sees inherited members and
computes with any integer, the ports see own members and 256-bit integers. A delta is `DeltaPlain` where
these ways do not part.

`agree_applyDeltaJson` proves that the reducers agree on every plain delta. The proof goes through both
texts side by side: `Alike` relates two computations, and each function of the reference implementation
has one lemma that relates it to that of the ports.
-/

namespace ParadigmTerra.Ports

open Text OrderedMap Fallible

/-- The errors carry one code. -/
def SameCode (e : Throw) (e' : Fault) : Prop := ∃ code, e = .apply code ∧ e' = .err code

theorem sameCode (code : ApplyErrorCode) : SameCode (.apply code) (.err code) := ⟨code, rfl, rfl⟩

/-- The implementations reach results that `R` relates, or reject with one code. -/
abbrev Agree {α β : Type} (R : α → β → Prop) (x : Except Throw α) (y : Except Fault β) : Prop :=
  Alike SameCode R x y

theorem agree_unit : Agree (fun _ _ => True) (pure ()) (pure ()) := .ok trivial

/-- An amount is that of a 256-bit integer. -/
abbrev IsVal (n : ℤ) (u : U256) : Prop := n = u.1

/-- The implementations reach one state, and it is rooted. -/
def Same (s t : State) : Prop := s = t ∧ Rooted s

/-! ## Places of the state -/

theorem getIn_eq_ownIn (v : Json) (p : List Str) : getIn v p = ownIn v p := by
  induction p generalizing v with
  | nil => rfl
  | cons k p ih =>
    rw [getIn, ownIn, get]
    congr 1
    funext w
    exact ih w

/-- A member under a name that no object inherits. -/
theorem read_eq_get {v : Json} {k : Str} (hk : k ∉ inheritedNames) : v.read k = get v k := by
  cases v with
  | obj m => exact Json.read_of_not_inherited hk
  | builtin n =>
    have hproto : k ≠ js "__proto__" := by
      rintro rfl
      exact hk (by simp [inheritedNames])
    simp [Json.read, hproto, inherited, hk, get, Json.members]
  | _ => rfl

theorem members_baseOf (v : Json) : (baseOf (some v)).members = v.members := by
  cases v with
  | builtin k =>
    change (if (Json.builtin k).isPlainObject then Json.builtin k else .obj []).members = []
    split_ifs <;> rfl
  | _ => rfl

/-- Below what is missing or inherited, a write makes new objects. -/
theorem setIn_inherited (p : List Str) (x : Json) :
    ∀ o : Option Json, (∀ w, o = some w → w.IsInherited) →
      ParadigmTerra.setIn o p x = setIn .null p x := by
  induction p with
  | nil => exact fun _ _ => rfl
  | cons k p ih =>
    intro o ho
    have hbase : (baseOf o).members = [] := by
      cases o with
      | none => rfl
      | some w => rw [members_baseOf, (ho w rfl).members]
    have hread : ∀ w, (baseOf o).read k = some w → w.IsInherited := by
      intro w hw
      rcases Json.read_eq_or (baseOf o) k with h | ⟨-, w', hw', hi⟩
      · rw [h, hbase] at hw
        cases hw
      · rw [hw] at hw'
        cases hw'
        exact hi
    rw [ParadigmTerra.setIn, ih _ hread, hbase]
    rfl

/-- The implementations write alike. -/
theorem setIn_eq (v : Json) (p : List Str) (x : Json) :
    ParadigmTerra.setIn (some v) p x = setIn v p x := by
  induction p generalizing v with
  | nil => rfl
  | cons k p ih =>
    have hchild : ParadigmTerra.setIn ((baseOf (some v)).read k) p x =
        setIn ((get v k).getD .null) p x := by
      rcases Json.read_eq_or (baseOf (some v)) k with h | ⟨hnone, w, hw, hi⟩
      · rw [h, members_baseOf, ← get]
        cases get v k with
        | some w => exact ih w
        | none => exact setIn_inherited p x none nofun
      · rw [members_baseOf, ← get] at hnone
        rw [hw, hnone]
        refine setIn_inherited p x (some w) ?_
        rintro w' ⟨⟩
        exact hi
    rw [ParadigmTerra.setIn, setIn, members_baseOf, hchild]

/-! ## What is read alike -/

/-- The integer at a path, if there is one, is a 256-bit integer. -/
def UintAt (s : State) (p : List Str) : Prop := ∀ n, ownIn s p = some (.int n) → IsUint n

instance (s : State) (p : List Str) : Decidable (UintAt s p) :=
  match h : ownIn s p with
  | some (.int n) => decidable_of_iff (IsUint n) (by simp [UintAt, h])
  | none | some .null | some (.bool _) | some (.str _) | some (.arr _) | some (.obj _)
  | some (.builtin _) => .isTrue (by simp [UintAt, h])

/-- The integer at a path. -/
def valAt (s : State) (p : List Str) : ℤ := asBig (ownIn s p) 0

theorem asU256_int {n : ℤ} (h : IsUint n) : asU256 (.int n) = some ⟨n, h⟩ := dif_pos h

/-- Both implementations read the integer of a path. -/
theorem u256At_val {s : State} {p : List Str} (h : UintAt s p) : (u256At s p).1 = valAt s p := by
  unfold u256At valAt
  rw [getIn_eq_ownIn]
  cases hv : ownIn s p with
  | none => rfl
  | some v =>
    cases v with
    | int n => rw [Option.bind_some, asU256_int (h n hv)]; rfl
    | _ => rfl

theorem bal_val {s : State} {a : Str} (h : UintAt s (balancePath a)) :
    ParadigmTerra.bal s a = (bal s a).1 := by
  rw [bal, u256At_val h, valAt]
  exact asBig_getIn s (balancePath a) 0

/-! ## Fields of events -/

theorem agree_reqStr {ev : Event} {k : String} (hk : js k ∉ inheritedNames) :
    Agree (· = ·) (ParadigmTerra.reqStr ev k) (reqStr ev k) := by
  unfold ParadigmTerra.reqStr reqStr
  rw [read_eq_get hk]
  cases get ev (js k) with
  | none => exact .error (sameCode _)
  | some v =>
    cases v with
    | str s => exact .ok rfl
    | _ => exact .error (sameCode _)

theorem agree_reqUint {ev : Event} {k : String} (hk : js k ∉ inheritedNames) :
    Agree IsVal (ParadigmTerra.reqUint ev k) (reqUint ev k) := by
  unfold ParadigmTerra.reqUint reqUint
  rw [read_eq_get hk]
  cases get ev (js k) with
  | none => exact .error (sameCode _)
  | some v =>
    cases v with
    | int n =>
      by_cases hn : IsUint n
      · rw [Option.bind_some, asU256_int hn]
        simp only [hn, if_true]
        exact .ok rfl
      · simp only [hn, if_false, Option.bind_some, asU256, dif_neg, not_false_eq_true]
        exact .error (sameCode _)
    | _ => exact .error (sameCode _)

theorem agree_optUint {ev : Event} {k : String} (hk : js k ∉ inheritedNames) :
    Agree IsVal (ParadigmTerra.optUint ev k) (optUint ev k) := by
  unfold ParadigmTerra.optUint optUint
  rw [read_eq_get hk]
  split
  · exact agree_reqUint hk
  · exact .ok rfl

/-! ## Deltas -/

/-- The owners that a write leaves at the record of its path are in one order by code units and by
bytes. -/
def OwnersPlain (next : State) (full : List Str) : Prop :=
  match full with
  | [r, a, id, _] =>
    if r = js "registry" ∧ a = js "agents" then
      match ownIn next (ownersPath id) with
      | some (.arr os) => ParadigmTerra.ascending none os = ascending none os
      | _ => True
    else True
  | _ => True

instance (next : State) (full : List Str) : Decidable (OwnersPlain next full) := by
  unfold OwnersPlain
  split
  · split
    · split <;> infer_instance
    · infer_instance
  · infer_instance

/-- No proper prefix of the path leads to `null` or to an inherited value. -/
def DeletePlain : Json → List Str → Prop
  | .null, _ | .builtin _, _ => False
  | .obj m, k :: l :: p =>
    match OrderedMap.get k m with
    | some w => DeletePlain w (l :: p)
    | none => inherited k = none
  | _, _ => True

/-- A deletion is decided along its path. -/
def decideDeletePlain : (v : Json) → (p : List Str) → Decidable (DeletePlain v p)
  | .null, _ | .builtin _, _ => .isFalse (by simp [DeletePlain])
  | .obj _, [] | .obj _, [_] => .isTrue trivial
  | .obj m, k :: l :: p =>
    match hm : OrderedMap.get k m with
    | some w =>
      have := decideDeletePlain w (l :: p)
      decidable_of_iff (DeletePlain w (l :: p)) (by simp only [DeletePlain, hm])
    | none => decidable_of_iff (inherited k = none) (by simp only [DeletePlain, hm])
  | .bool _, _ | .int _, _ | .str _, _ | .arr _, _ => .isTrue (by simp [DeletePlain])

instance (v : Json) (p : List Str) : Decidable (DeletePlain v p) := decideDeletePlain v p

/-- The integer of a value. -/
def intOf : Option Json → Option ℤ
  | some (.int n) => some n
  | _ => none

/-- The operand at a path is a 256-bit integer, something else that is there to both, or there to
neither. -/
def OperandPlain (s : State) (full : List Str) : Prop :=
  match ownIn s full with
  | none => (ParadigmTerra.getIn s full).isNone = true
  | some .null => False
  | some (.int n) => IsUint n
  | some _ => True

instance (s : State) (full : List Str) : Decidable (OperandPlain s full) := by
  unfold OperandPlain
  split <;> infer_instance

/-- What a delta at a path reads is read alike: the owners that it leaves, the way to what it deletes,
and its operands. It writes no member named `__proto__`, and deletes no namespace. -/
def OpPlain (s : State) (full : List Str) (value : Option Json) : DeltaOp → Prop
  | .set => js "__proto__" ∉ full ∧ OwnersPlain (setIn s full (value.getD .null)) full
  | .delete => DeletePlain s full ∧ ∀ n ∈ NAMESPACES, full ≠ [n]
  | .add | .sub => ∀ n ∈ intOf value, js "__proto__" ∉ full ∧ IsUint n ∧ OperandPlain s full

instance (s : State) (full : List Str) (value : Option Json) (op : DeltaOp) :
    Decidable (OpPlain s full value op) := by
  cases op <;> unfold OpPlain <;> infer_instance

/-- A delta is plain. -/
def DeltaPlain (s : State) (d : Json) : Prop :=
  ∀ t ∈ deltaTarget d, OpPlain s t.1 (d.read (js "value")) t.2

instance (s : State) (d : Json) : Decidable (DeltaPlain s d) := by unfold DeltaPlain; infer_instance

/-- Each delta is plain on the state that it finds. -/
def DeltasPlain : State → List Json → Prop
  | _, [] => True
  | s, d :: ds => DeltaPlain s d ∧
    ∀ t, ParadigmTerra.applyDeltaJson s d = .ok t → DeltasPlain t ds

def decideDeltasPlain : (ds : List Json) → (s : State) → Decidable (DeltasPlain s ds)
  | [], _ => .isTrue trivial
  | d :: ds, s =>
    have := decideOk (ParadigmTerra.applyDeltaJson s d) fun t => decideDeltasPlain ds t
    inferInstanceAs (Decidable (DeltaPlain s d ∧
      ∀ t, ParadigmTerra.applyDeltaJson s d = .ok t → DeltasPlain t ds))

instance (s : State) (ds : List Json) : Decidable (DeltasPlain s ds) := decideDeltasPlain ds s

theorem deleteIn_eq {v : Json} {p : List Str} (h : DeletePlain v p) :
    ParadigmTerra.deleteIn (some v) p = deleteIn v p := by
  induction p generalizing v with
  | nil => cases v <;> first | rfl | exact h.elim
  | cons k p ih =>
    cases v with
    | null | builtin => exact h.elim
    | bool | int | str | arr => cases p <;> rfl
    | obj m =>
      cases p with
      | nil => rfl
      | cons l p =>
        cases hm : OrderedMap.get k m with
        | some w =>
          have hw : DeletePlain w (l :: p) := by simpa only [DeletePlain, hm] using h
          simp only [ParadigmTerra.deleteIn, deleteIn, Json.isPlainObject, if_true,
            Json.read_of_get hm, hm, ih hw, Json.members]
        | none =>
          have hk : inherited k = none := by simpa only [DeletePlain, hm] using h
          simp only [ParadigmTerra.deleteIn, deleteIn, Json.isPlainObject, if_true,
            Json.read_of_get_none hm, hk, hm]

theorem orElse_null (v : Option Json) : orElse v .null = v.getD .null := by
  cases v with
  | none => rfl
  | some v => cases v <;> rfl

/-- The record of a path that was written is an object of its own. -/
theorem ownIn_recordPath_of_setIn (s x : Json) (id f : Str) :
    ∃ m, ownIn (setIn s [js "registry", js "agents", id, f] x) (recordPath id) = some (.obj m) := by
  obtain ⟨o, h, -⟩ := ownIn_setIn_prefix s (recordPath id) f [] x
  exact ⟨_, by rw [← setIn_eq]; exact h⟩

theorem wellFormed_eq {os : List Json} {t : Json}
    (h : ParadigmTerra.ascending none os = ascending none os) :
    ParadigmTerra.ownerRecordWellFormed (some (.arr os)) (some t) =
      ownerRecordWellFormed (.arr os) t := by
  cases t with
  | int t =>
    simp only [ParadigmTerra.ownerRecordWellFormed, ownerRecordWellFormed, h]
    -- a threshold within the owners fits into 64 bits
    rw [Bool.eq_iff_iff]
    simp only [Bool.and_eq_true, decide_eq_true_eq]
    have hmax : MAX_OWNERS = 16 := rfl
    constructor
    · rintro ⟨⟨⟨⟨h1, h2⟩, h3⟩, h4⟩, h5⟩
      exact ⟨⟨⟨⟨⟨⟨by omega, by omega⟩, h1⟩, h2⟩, h3⟩, h4⟩, h5⟩
    · rintro ⟨⟨⟨⟨⟨⟨-, -⟩, h1⟩, h2⟩, h3⟩, h4⟩, h5⟩
      exact ⟨⟨⟨⟨h1, h2⟩, h3⟩, h4⟩, h5⟩
  | _ => rfl

/-- A record is checked alike when its owners are in one order. -/
theorem agree_enforceOwnerRecord {s x : State} {full : List Str}
    (h : OwnersPlain (setIn s full x) full) :
    Agree (fun _ _ => True) (ParadigmTerra.enforceOwnerRecord (setIn s full x) full)
      (enforceOwnerRecord (setIn s full x) full) := by
  by_cases hfull : ∃ r a id f, full = [r, a, id, f]
  · obtain ⟨r, a, id, f, rfl⟩ := hfull
    simp only [ParadigmTerra.enforceOwnerRecord, enforceOwnerRecord]
    by_cases hf : r = js "registry" ∧ a = js "agents" ∧ (f = js "owners" ∨ f = js "threshold")
    · rw [if_pos hf, if_pos hf]
      obtain ⟨rfl, rfl, -⟩ := hf
      obtain ⟨m, hm⟩ := ownIn_recordPath_of_setIn s x id f
      have hfield : ∀ k, getIn (setIn s [js "registry", js "agents", id, f] x)
          [js "registry", js "agents", id, k] = OrderedMap.get k m := by
        intro k
        rw [getIn_eq_ownIn]
        exact (ownIn_append _ (recordPath id) [k]).trans (by rw [hm]; simp [ownIn, Json.members])
      have howners : (Json.obj m).read (js "owners") = OrderedMap.get (js "owners") m :=
        Json.read_of_not_inherited (by simp [inheritedNames])
      have hthreshold : (Json.obj m).read (js "threshold") = OrderedMap.get (js "threshold") m :=
        Json.read_of_not_inherited (by simp [inheritedNames])
      simp only [getIn_of_ownIn hm, Json.isPlainObject, Bool.true_and, howners, hthreshold, hfield]
      cases ho : OrderedMap.get (js "owners") m with
      | none => exact agree_unit
      | some o =>
        cases hth : OrderedMap.get (js "threshold") m with
        | none => exact agree_unit
        | some th =>
          simp only [Option.isSome_some, Bool.and_self, if_true]
          refine Alike.require (Bool.eq_iff_iff.mp ?_) (sameCode _)
          cases o with
          | arr os =>
            have hown : ownIn (setIn s [js "registry", js "agents", id, f] x) (ownersPath id) =
                some (.arr os) := by
              rw [← getIn_eq_ownIn, hfield, ho]
            rw [OwnersPlain, if_pos ⟨rfl, rfl⟩, hown] at h
            exact wellFormed_eq h
          | _ => rfl
    · rw [if_neg hf, if_neg hf]
      exact agree_unit
  · -- both look only at paths of four segments
    rcases full with _ | ⟨r, _ | ⟨a, _ | ⟨id, _ | ⟨f, _ | ⟨g, rest⟩⟩⟩⟩⟩
    case cons.cons.cons.cons.nil => exact (hfull ⟨r, a, id, f, rfl⟩).elim
    all_goals exact agree_unit

/-- What is no integer is a bad operand to both. -/
theorem bad_operand {v : Option Json} (h : ∀ n, v ≠ some (.int n)) :
    asBigint v = .error (.apply .BAD_DELTA) ∧
      orErr .BAD_DELTA (v.bind asU256) = .error (.err .BAD_DELTA) := by
  cases v with
  | none => exact ⟨rfl, rfl⟩
  | some v =>
    cases v with
    | int n => exact absurd rfl (h n)
    | _ => exact ⟨rfl, rfl⟩

/-- The operands of a plain sum or difference are read alike. -/
theorem agree_operands {s : State} {full : List Str} {d : Json} {β : Type} {R : β → β → Prop}
    (h : OpPlain s full (d.read (js "value")) .add)
    {f : ℤ → ℤ → Except Throw β} {g : U256 × U256 → Except Fault β}
    (hfg : js "__proto__" ∉ full → ∀ cur val : U256, Agree R (f cur.1 val.1) (g (cur, val))) :
    Agree R (do
      let cur ← asBigint (some (orElse (ParadigmTerra.getIn s full) (.int 0)))
      let v ← asBigint (d.read (js "value"))
      f cur v) (operands s full d >>= g) := by
  unfold operands
  rw [getIn_eq_ownIn, ← read_eq_get (v := d) (k := js "value") (by simp [inheritedNames])]
  by_cases hv : ∃ n, d.read (js "value") = some (.int n)
  · obtain ⟨n, hv⟩ := hv
    obtain ⟨hproto, hn, hcur⟩ := h n (by rw [hv]; rfl)
    unfold OperandPlain at hcur
    rw [hv, Option.bind_some, asU256_int hn]
    cases hc : ownIn s full with
    | none =>
      rw [hc] at hcur
      rw [Option.isNone_iff_eq_none.mp hcur]
      exact hfg hproto ZERO ⟨n, hn⟩
    | some c =>
      rw [hc] at hcur
      rw [getIn_of_ownIn hc]
      cases c with
      | null => exact hcur.elim
      | int m =>
        dsimp only
        rw [asU256_int hcur]
        exact hfg hproto ⟨m, hcur⟩ ⟨n, hn⟩
      | _ => exact .error (sameCode _)
  · obtain ⟨hleft, hright⟩ := bad_operand fun n hn => hv ⟨n, hn⟩
    rw [hleft, hright]
    -- whatever stands at the path, both reject with the one code
    have hl : ∀ c, (asBigint c >>= fun cur => (Except.error (.apply .BAD_DELTA) : Except Throw ℤ) >>=
        fun v => f cur v) = .error (.apply .BAD_DELTA) := by
      intro c
      by_cases hc : ∃ n, c = some (.int n)
      · obtain ⟨n, rfl⟩ := hc
        rfl
      · rw [(bad_operand fun n hn => hc ⟨n, hn⟩).1]
        rfl
    rw [hl]
    cases ownIn s full with
    | none => exact .error (sameCode _)
    | some c =>
      dsimp only
      by_cases hc : ∃ n, asU256 c = some n
      · obtain ⟨n, hn⟩ := hc
        rw [hn]
        exact .error (sameCode _)
      · have hnone : asU256 c = none := Option.eq_none_iff_forall_ne_some.mpr fun n hn => hc ⟨n, hn⟩
        rw [hnone]
        exact .error (sameCode _)

/-- A sum is checked alike. -/
theorem agree_checkedAdd {β : Type} {R : β → β → Prop} {a b : U256} {code : ApplyErrorCode}
    {x : Except Throw β} {g : U256 → Except Fault β}
    (h : ∀ c : U256, a.1 + b.1 = c.1 → Agree R x (g c)) :
    Agree R (do
      require (¬a.1 + b.1 > UINT256_MAX) (.apply code)
      x) (orErr code (a.checkedAdd b) >>= g) := by
  by_cases hle : a.1 + b.1 ≤ UINT256_MAX
  · obtain ⟨c, hc⟩ := checkedAdd_returns_iff.mpr hle
    have hnot : ¬a.1 + b.1 > UINT256_MAX := not_lt.mpr hle
    rw [hc, require, if_pos hnot]
    exact h c (checkedAdd_eq_some.mp hc)
  · have hnone : a.checkedAdd b = none := by
      unfold U256.checkedAdd
      rw [dif_neg hle]
    have hnot : ¬¬a.1 + b.1 > UINT256_MAX := not_not.mpr (lt_of_not_ge hle)
    rw [hnone, require, if_neg hnot]
    exact .error (sameCode _)

/-- A difference is checked alike. -/
theorem agree_checkedSub {β : Type} {R : β → β → Prop} {a b : U256} {code : ApplyErrorCode}
    {c : Prop} [Decidable c] (hc : c ↔ b.1 ≤ a.1) {x : Except Throw β} {g : U256 → Except Fault β}
    (h : ∀ d : U256, a.1 - b.1 = d.1 → Agree R x (g d)) :
    Agree R (do
      require c (.apply code)
      x) (orErr code (a.checkedSub b) >>= g) := by
  by_cases hle : b.1 ≤ a.1
  · obtain ⟨d, hd⟩ := checkedSub_returns_iff.mpr hle
    rw [hd, require, if_pos (hc.mpr hle)]
    exact h d (checkedSub_eq_some.mp hd)
  · have hnone : a.checkedSub b = none := by
      unfold U256.checkedSub
      rw [dif_neg hle]
    rw [hnone, require, if_neg fun h => hle (hc.mp h)]
    exact .error (sameCode _)

/-- A plain operation leads both to one state, or both to one code. -/
theorem agree_applyOp {s : State} {ns : Str} {path : List Str} {d : Json} {op : DeltaOp}
    (hs : Rooted s) (hd : Canonical d) (h : OpPlain s (ns :: path) (d.read (js "value")) op) :
    Agree Same (ParadigmTerra.applyOp s (ns :: path) op (d.read (js "value")))
      (applyOp s (ns :: path) d op) := by
  have hread : d.read (js "value") = get d (js "value") := read_eq_get (by simp [inheritedNames])
  cases op with
  | set =>
    have hvalue : Canonical ((get d (js "value")).getD .null) := by
      cases hv : get d (js "value") with
      | none => rfl
      | some v => exact canonical_get hd hv
    simp only [ParadigmTerra.applyOp, applyOp, orElse_null, setIn_eq, hread]
    rw [hread] at h
    exact (agree_enforceOwnerRecord h.2).bind fun _ _ _ _ _ => .ok ⟨rfl, hs.setIn hvalue h.1⟩
  | delete =>
    refine .ok ⟨deleteIn_eq h.1, ?_⟩
    rw [deleteIn_eq h.1]
    cases path with
    | nil => exact hs.erase fun hns => h.2 ns hns rfl
    | cons l p => exact hs.deleteIn
  | add =>
    refine agree_operands h fun hp cur val => agree_checkedAdd fun c hc => ?_
    rw [setIn_eq, hc]
    exact .ok ⟨rfl, hs.setIn rfl hp⟩
  | sub =>
    refine agree_operands h fun hp cur val => agree_checkedSub (by omega) fun c hc => ?_
    rw [setIn_eq, hc]
    exact .ok ⟨rfl, hs.setIn rfl hp⟩

theorem agree_deltaStr (v : Option Json) :
    Agree (fun a b => a = b ∧ v = some (.str a)) (deltaStr v) (orErr .BAD_DELTA (v.bind asStr)) := by
  cases v with
  | none => exact .error (sameCode _)
  | some v =>
    cases v with
    | str s => exact .ok ⟨rfl, rfl⟩
    | _ => exact .error (sameCode _)

theorem agree_deltaPath (v : Option Json) :
    Agree (fun p q => p = q ∧ ∃ xs, v = some (.arr xs) ∧ strings xs = some p) (deltaPath v) (do
      let xs ← orErr .BAD_DELTA (v.bind asArray)
      orErr .BAD_DELTA (strings xs)) := by
  cases v with
  | none => exact .error (sameCode _)
  | some v =>
    cases v with
    | arr xs =>
      change Agree _ _ (orErr .BAD_DELTA (strings xs))
      unfold deltaPath
      dsimp only
      cases hxs : strings xs with
      | none => exact .error (sameCode _)
      | some p => exact .ok ⟨rfl, xs, rfl, hxs⟩
    | _ => exact .error (sameCode _)

/-- A plain delta leads both to one state, or both to one code. -/
theorem agree_applyDeltaJson {s : State} {d : Json} (hs : Rooted s) (hd : Canonical d)
    (h : DeltaPlain s d) :
    Agree Same (ParadigmTerra.applyDeltaJson s d) (applyDeltaJson s d) := by
  have hns : d.read (js "ns") = get d (js "ns") := read_eq_get (by simp [inheritedNames])
  have hop : d.read (js "op") = get d (js "op") := read_eq_get (by simp [inheritedNames])
  have hpath : d.read (js "path") = get d (js "path") := read_eq_get (by simp [inheritedNames])
  unfold ParadigmTerra.applyDeltaJson applyDeltaJson
  rw [hns, hop, hpath]
  by_cases hplain : d.isPlainObject = true
  · rw [require, if_pos hplain, ok_bind]
    refine (agree_deltaStr _).bind ?_
    rintro ns _ - - ⟨rfl, hns'⟩
    refine (agree_deltaStr _).bind ?_
    rintro op _ - - ⟨rfl, hop'⟩
    rw [← bind_assoc]
    refine (agree_deltaPath _).bind ?_
    rintro path _ - - ⟨rfl, xs, hpath', hxs⟩
    cases ho : DeltaOp.ofStr? op with
    | none => exact .error (sameCode _)
    | some o =>
      refine agree_applyOp hs hd (h (ns :: path, o) ?_)
      simp [deltaTarget, hns, hns', hop, hop', hpath, hpath', ho, hxs]
  · have hnone : get d (js "ns") = none := by
      cases d with
      | obj m => exact absurd rfl hplain
      | _ => rfl
    rw [require, if_neg hplain, hnone]
    exact .error (sameCode _)

/-- Plain deltas lead both to one state, or both to one code. -/
theorem agree_deltas {s : State} {ds : List Json} (hs : Rooted s) (hds : ∀ d ∈ ds, Canonical d)
    (h : DeltasPlain s ds) :
    Agree Same (ds.foldlM ParadigmTerra.applyDeltaJson s) (ds.foldlM applyDeltaJson s) := by
  induction ds generalizing s with
  | nil => exact .ok ⟨rfl, hs⟩
  | cons d ds ih =>
    obtain ⟨hd, hds⟩ := List.forall_mem_cons.mp hds
    rw [List.foldlM_cons, List.foldlM_cons]
    refine (agree_applyDeltaJson hs hd h.1).bind ?_
    rintro t _ ht - ⟨rfl, hrooted⟩
    exact ih hrooted hds (h.2 t ht)

end ParadigmTerra.Ports
