import ParadigmTerra.Lib.Fallible
import ParadigmTerra.Value

/-!
# The reducer's state

The state is one value, the object of the namespaces. `getIn`, `setIn` and `deleteIn` are the only
ways in which the reducer reads and writes it.

They see inherited members, so they are not the operations of a finite map. `ownIn` is the view that
is: `ownIn_setIn` and its companions are the laws of a lens for the own members, `tableIn` is the list
of members of the object at a path, and `getIn_eq_or` says that a read through `getIn` finds what
`ownIn` finds, or nothing but an inherited value.
-/

namespace ParadigmTerra

open Text OrderedMap

/-- The protocol state. -/
abbrev State := Json

/-- The namespaces, in the order of their leaves. -/
def NAMESPACES : List Str :=
  [js "cal", js "failure_mode", js "governance", js "oracles", js "ptra", js "registry", js "tick",
    js "treasury"]

/-- The fixed genesis state. -/
def genesis : State :=
  .obj [
    (js "cal", .obj [(js "in_flight", .obj []), (js "nonces", .obj [])]),
    (js "failure_mode", .obj [(js "is_bounded_mode", .bool false),
      (js "capture_guard_counters", .obj [])]),
    (js "governance", .obj [(js "gas_price_nano_ptra_per_unit", .int 1000),
      (js "genesis_validator_set", .arr []), (js "params", .obj [])]),
    (js "oracles", .obj [(js "feeds", .obj [])]),
    (js "ptra", .obj [(js "balances", .obj [])]),
    (js "registry", .obj [(js "agents", .obj []),
      (js "mcp_schema_hash", .str (js "0x" ++ (List.replicate 32 (js "00")).flatten))]),
    (js "tick", .obj [(js "current", .int 0)]),
    (js "treasury", .obj [(js "nav", .int 0), (js "developer_fund_balance", .int 0),
      (js "collected_fees_window", .int 0)])]

/-- The object that a write copies: an empty one in the place of anything but a plain object. -/
def baseOf : Option Json → Json
  | some v => if v.isPlainObject then v else .obj []
  | none => .obj []

/-- The value with the path set, cloned along the path. -/
def setIn : Option Json → List Str → Json → Json
  | _, [], v => v
  | o, k :: p, v => .obj (putMember k (setIn ((baseOf o).read k) p v) (baseOf o).members)

/-- The value with the key at a path deleted. -/
def deleteIn : Option Json → List Str → Json
  | none, _ => .obj []
  | some .null, _ => .obj []
  | some v, [] => v
  | some v, [k] => if v.isPlainObject then .obj (erase k v.members) else v
  | some v, k :: l :: p =>
    if v.isPlainObject then
      match v.read k with
      | some w => .obj (putMember k (deleteIn (some w) (l :: p)) v.members)
      | none => v
    else v

/-! ## Own members -/

/-- The value at a path of own members. -/
def ownIn : Json → List Str → Option Json
  | v, [] => some v
  | v, k :: p => (get k v.members).bind fun w => ownIn w p

/-- The members of the object at a path, none when there is no object. -/
def tableIn (v : Json) (p : List Str) : List (Str × Json) :=
  match ownIn v p with
  | some w => w.members
  | none => []

/-- Neither path leads to the other's. -/
def Apart : List Str → List Str → Prop
  | k :: p, l :: q => k ≠ l ∨ Apart p q
  | _, _ => False

@[simp] theorem apart_nil_left (q : List Str) : Apart [] q ↔ False := Iff.rfl

@[simp] theorem apart_nil_right (p : List Str) : Apart p [] ↔ False := by cases p <;> exact Iff.rfl

@[simp] theorem apart_cons {k l : Str} {p q : List Str} :
    Apart (k :: p) (l :: q) ↔ k ≠ l ∨ Apart p q := Iff.rfl

theorem Apart.symm {p q : List Str} (h : Apart p q) : Apart q p := by
  induction p generalizing q with
  | nil => exact h.elim
  | cons k p ih =>
    cases q with
    | nil => exact h.elim
    | cons l q => exact h.imp (fun h => h.symm) ih

theorem Apart.append {p q : List Str} (h : Apart p q) (r : List Str) : Apart p (q ++ r) := by
  induction p generalizing q with
  | nil => exact h.elim
  | cons k p ih =>
    cases q with
    | nil => exact h.elim
    | cons l q => exact Or.imp_right ih h

/-- A value that a read can find without an own member. -/
def Json.IsInherited : Json → Prop
  | .null | .builtin _ => True
  | _ => False

theorem isInherited_of_inherited {k : Str} {v : Json} (h : inherited k = some v) :
    v.IsInherited := by
  unfold inherited at h
  split at h
  · cases h
    trivial
  · cases h

theorem Json.IsInherited.members {v : Json} (h : v.IsInherited) : v.members = [] := by
  cases v <;> first | rfl | exact h.elim

/-- A member is the own one, or there is none and the read finds an inherited value. -/
theorem Json.read_eq_or (v : Json) (k : Str) :
    v.read k = get k v.members ∨
      get k v.members = none ∧ ∃ w, v.read k = some w ∧ w.IsInherited := by
  cases v with
  | obj m =>
    cases h : get k m with
    | some w => exact .inl (by simp [Json.read, Json.members, h])
    | none =>
      cases hi : inherited k with
      | none => exact .inl (by simp [Json.read, Json.members, h, hi])
      | some w => exact .inr ⟨h, w, by simp [Json.read, h, hi], isInherited_of_inherited hi⟩
  | builtin n =>
    by_cases hk : k = js "__proto__"
    · exact .inr ⟨rfl, .null, by simp [Json.read, hk], trivial⟩
    · cases hi : inherited k with
      | none => exact .inl (by simp [Json.read, Json.members, hk, hi])
      | some w => exact .inr ⟨rfl, w, by simp [Json.read, hk, hi], isInherited_of_inherited hi⟩
  | _ => exact .inl rfl

/-- Where a read finds an inherited value, reading on finds nothing else. -/
theorem Json.IsInherited.getIn {v w : Json} (h : v.IsInherited) {p : List Str}
    (hg : getIn v p = some w) : w.IsInherited := by
  induction p generalizing v with
  | nil => cases hg; exact h
  | cons k p ih =>
    rw [ParadigmTerra.getIn] at hg
    split at hg
    · rcases v.read_eq_or k with hr | ⟨-, x, hr, hx⟩
      · rw [hr, h.members] at hg
        cases hg
      · rw [hr, Option.bind_some] at hg
        exact ih hx hg
    · cases hg

theorem isPlainObject_of_get {v w : Json} {k : Str} (h : get k v.members = some w) :
    v.isPlainObject = true := by
  cases v <;> first | rfl | cases h

theorem read_of_get_members {v w : Json} {k : Str} (h : get k v.members = some w) :
    v.read k = some w := by
  cases v <;> first | exact Json.read_of_get h | cases h

/-- What stands at a path of own members is read there. -/
theorem getIn_of_ownIn {v w : Json} {p : List Str} (h : ownIn v p = some w) :
    getIn v p = some w := by
  induction p generalizing v with
  | nil => exact h
  | cons k p ih =>
    rw [ownIn, Option.bind_eq_some_iff] at h
    obtain ⟨x, hx, h⟩ := h
    rw [getIn, if_pos (isPlainObject_of_get hx), read_of_get_members hx]
    exact ih h

/-- A read finds what stands at the path, or nothing stands there and it finds an inherited value
or none. -/
theorem getIn_eq_or (v : Json) (p : List Str) :
    getIn v p = ownIn v p ∨ ownIn v p = none ∧ ∃ w, getIn v p = some w ∧ w.IsInherited := by
  induction p generalizing v with
  | nil => exact .inl rfl
  | cons k p ih =>
    cases hg : get k v.members with
    | some x =>
      rw [getIn, if_pos (isPlainObject_of_get hg), read_of_get_members hg, ownIn, hg]
      exact ih x
    | none =>
      have ho : ownIn v (k :: p) = none := by rw [ownIn, hg]; rfl
      cases hv : getIn v (k :: p) with
      | none => exact .inl ho.symm
      | some w =>
        refine .inr ⟨ho, w, rfl, ?_⟩
        rw [getIn] at hv
        split at hv
        · rcases v.read_eq_or k with hr | ⟨-, x, hr, hx⟩
          · rw [hr, hg] at hv
            cases hv
          · rw [hr, Option.bind_some] at hv
            exact hx.getIn hv
        · cases hv

/-- A read that does not tell an inherited value from `undefined` reads the own members. -/
theorem getIn_congr {γ : Type*} (f : Option Json → γ)
    (hf : ∀ w : Json, w.IsInherited → f (some w) = f none) (v : Json) (p : List Str) :
    f (getIn v p) = f (ownIn v p) := by
  rcases getIn_eq_or v p with h | ⟨h, w, hw, hi⟩
  · rw [h]
  · rw [h, hw, hf w hi]

theorem asBig_of_isInherited {w : Json} (h : w.IsInherited) (d : ℤ) :
    asBig (some w) d = asBig none d := by
  cases w <;> first | rfl | exact h.elim

/-- An integer read is a read of the own members. -/
theorem asBig_getIn (v : Json) (p : List Str) (d : ℤ) :
    asBig (getIn v p) d = asBig (ownIn v p) d :=
  getIn_congr (asBig · d) (fun _ h => asBig_of_isInherited h d) v p

theorem get_members_eq_none_of_isInherited {v : Json} (h : v.IsInherited) (k : Str) :
    get k v.members = none := by rw [h.members]; rfl

theorem ownIn_cons_of_isInherited {v : Json} (h : v.IsInherited) (k : Str) (p : List Str) :
    ownIn v (k :: p) = none := by
  rw [ownIn, get_members_eq_none_of_isInherited h]
  rfl

theorem inherited_eq_none {k : Str} (hk : k ∉ inheritedNames) : inherited k = none := by
  simp [inherited, hk]

/-- A path that ends in a name that no object inherits reads the own members. -/
theorem getIn_snoc (v : Json) (p : List Str) {k : Str} (hk : k ∉ inheritedNames) :
    getIn v (p ++ [k]) = ownIn v (p ++ [k]) := by
  induction p generalizing v with
  | nil =>
    have hproto : k ≠ js "__proto__" := by
      rintro rfl
      exact hk (by simp [inheritedNames])
    cases v with
    | obj m => simp [getIn, ownIn, Json.isPlainObject, Json.members, Json.read_of_not_inherited hk]
    | builtin n =>
      simp [getIn, ownIn, Json.members, Json.read, hproto, inherited_eq_none hk]
    | _ => rfl
  | cons j p ih =>
    rw [List.cons_append]
    cases hg : get j v.members with
    | some x =>
      rw [getIn, if_pos (isPlainObject_of_get hg), read_of_get_members hg, ownIn, hg]
      exact ih x
    | none =>
      have ho : ownIn v (j :: (p ++ [k])) = none := by rw [ownIn, hg]; rfl
      rw [ho, getIn]
      split
      · rcases v.read_eq_or j with hr | ⟨-, w, hw, hi⟩
        · rw [hr, hg]
          rfl
        · rw [hw, Option.bind_some, ih w]
          cases p with
          | nil => exact ownIn_cons_of_isInherited hi _ _
          | cons i p => exact ownIn_cons_of_isInherited hi _ _
      · rfl

/-! ## Writing own members -/

theorem ownIn_append (v : Json) (p q : List Str) :
    ownIn v (p ++ q) = (ownIn v p).bind fun w => ownIn w q := by
  induction p generalizing v with
  | nil => rfl
  | cons k p ih =>
    rw [List.cons_append, ownIn, ownIn, Option.bind_assoc]
    exact congrArg _ (funext fun w => ih w)

theorem members_baseOf (v : Json) : (baseOf (some v)).members = v.members := by
  cases v with
  | builtin k => simp only [baseOf]; split <;> rfl
  | _ => rfl

/-- Below the first segment, a write sees what the own member holds, or nothing of its own. -/
theorem ownIn_read_baseOf (v : Json) (k l : Str) (p : List Str) :
    (((baseOf (some v)).read k).bind fun w => ownIn w (l :: p)) =
      (get k v.members).bind fun w => ownIn w (l :: p) := by
  rcases (baseOf (some v)).read_eq_or k with h | ⟨h, w, hw, hi⟩
  · rw [h, members_baseOf]
  · rw [hw, Option.bind_some, ownIn_cons_of_isInherited hi, ← members_baseOf, h]
    rfl

/-- What is set is there. -/
@[simp] theorem ownIn_setIn (o : Option Json) (p : List Str) (x : Json) :
    ownIn (setIn o p x) p = some x := by
  induction p generalizing o with
  | nil => rfl
  | cons k p ih => simp [setIn, ownIn, Json.members, ih]

/-- Below a path that is set stands what the new value holds. -/
theorem ownIn_setIn_append (o : Option Json) (p q : List Str) (x : Json) :
    ownIn (setIn o p x) (p ++ q) = ownIn x q := by
  rw [ownIn_append, ownIn_setIn, Option.bind_some]

theorem ownIn_setIn_of_apart_opt {p q : List Str} (h : Apart p q) (o : Option Json) (x : Json) :
    ownIn (setIn o p x) q = o.bind fun v => ownIn v q := by
  induction p generalizing q o with
  | nil => exact h.elim
  | cons k p ih =>
    cases q with
    | nil => exact h.elim
    | cons l q =>
      have hm : (baseOf o).members = (o.map Json.members).getD [] := by
        cases o with
        | none => rfl
        | some v => exact members_baseOf v
      have hget : (get l (baseOf o).members).bind (fun w => ownIn w q) =
          o.bind fun v => ownIn v (l :: q) := by
        rw [hm]
        cases o <;> rfl
      rw [setIn, ownIn, Json.members, get_put]
      split
      · next hkl =>
        subst hkl
        obtain h | h := h
        · exact absurd rfl h
        rw [Option.bind_some, ih h, ← hget]
        cases q with
        | nil => exact absurd h (by simp)
        | cons j q =>
          rcases (baseOf o).read_eq_or k with hr | ⟨hr, w, hw, hi⟩
          · rw [hr]
          · rw [hw, hr, Option.bind_some, ownIn_cons_of_isInherited hi]
            rfl
      · exact hget

/-- What is set elsewhere changes nothing here. -/
theorem ownIn_setIn_of_apart {p q : List Str} (h : Apart p q) (v x : Json) :
    ownIn (setIn (some v) p x) q = ownIn v q := ownIn_setIn_of_apart_opt h (some v) x

theorem tableIn_setIn_of_apart {p q : List Str} (h : Apart p q) (v x : Json) :
    tableIn (setIn (some v) p x) q = tableIn v q := by
  rw [tableIn, ownIn_setIn_of_apart h, tableIn]

/-- The members of an object that a write goes through: the one on the path is set. -/
theorem ownIn_setIn_prefix (v : Json) (p : List Str) (k : Str) (q : List Str) (x : Json) :
    ∃ o : Option Json,
      ownIn (setIn (some v) (p ++ k :: q) x) p =
        some (.obj (putMember k (setIn o q x) (tableIn v p))) ∧
      (o = get k (tableIn v p) ∨ get k (tableIn v p) = none ∧ ∃ w, o = some w ∧ w.IsInherited) := by
  suffices H : ∀ o : Option Json, ∃ o' : Option Json,
      ownIn (setIn o (p ++ k :: q) x) p =
        some (.obj (putMember k (setIn o' q x) ((o.map fun v => tableIn v p).getD []))) ∧
      (o' = get k ((o.map fun v => tableIn v p).getD []) ∨
        get k ((o.map fun v => tableIn v p).getD []) = none ∧ ∃ w, o' = some w ∧ w.IsInherited) by
    exact H (some v)
  induction p with
  | nil =>
    intro o
    have hm : (baseOf o).members = (o.map fun v => tableIn v []).getD [] := by
      cases o with
      | none => rfl
      | some v => exact members_baseOf v
    refine ⟨(baseOf o).read k, by rw [← hm]; rfl, ?_⟩
    rw [← hm]
    exact (baseOf o).read_eq_or k
  | cons j p ih =>
    intro o
    obtain ⟨o', h1, h2⟩ := ih ((baseOf o).read j)
    have ht : (((baseOf o).read j).map fun v => tableIn v p).getD [] =
        (o.map fun v => tableIn v (j :: p)).getD [] := by
      have hm : (o.map fun v => tableIn v (j :: p)).getD [] =
          ((get j (baseOf o).members).map fun w => tableIn w p).getD [] := by
        cases o with
        | none => rfl
        | some v =>
          rw [members_baseOf]
          simp only [Option.map_some, Option.getD_some, tableIn, ownIn]
          cases get j v.members <;> rfl
      rw [hm]
      rcases (baseOf o).read_eq_or j with hr | ⟨hr, w, hw, hi⟩
      · rw [hr]
      · rw [hr, hw]
        simp only [Option.map_some, Option.getD_some, Option.map_none, Option.getD_none, tableIn]
        cases p with
        | nil => exact hi.members
        | cons l p => rw [ownIn_cons_of_isInherited hi]
    refine ⟨o', ?_, ht ▸ h2⟩
    rw [List.cons_append, setIn, ownIn, Json.members, get_put_self, Option.bind_some, h1, ht]

/-- Setting a key of the object at a path sets it in the members there. -/
theorem tableIn_setIn (v : Json) (p : List Str) (k : Str) (x : Json) :
    tableIn (setIn (some v) (p ++ [k]) x) p = putMember k x (tableIn v p) := by
  obtain ⟨o, h, -⟩ := ownIn_setIn_prefix v p k [] x
  rw [tableIn, h]
  rfl

/-! ## Deleting own members -/

theorem ownIn_deleteIn_of_apart_opt {p q : List Str} (h : Apart p q) (v : Json) :
    ownIn (deleteIn (some v) p) q = ownIn v q := by
  induction p generalizing q v with
  | nil => exact h.elim
  | cons k p ih =>
    cases q with
    | nil => exact absurd h (by simp)
    | cons l q =>
      cases p with
      | nil =>
        have hkl : k ≠ l := h.resolve_right (by simp)
        cases v with
        | null => rfl
        | obj m => simp only [deleteIn, Json.isPlainObject, if_true, ownIn, Json.members,
            get_erase_of_ne hkl]
        | builtin n =>
          simp only [deleteIn]
          split <;> rfl
        | _ => rfl
      | cons j p =>
        cases v with
        | null => rfl
        | obj m =>
          simp only [deleteIn, Json.isPlainObject, if_true]
          split
          · next w hw =>
            rw [ownIn, Json.members, get_put]
            split
            · next hkl =>
              subst hkl
              have h : Apart (j :: p) q := h.resolve_left (by simp)
              rw [Option.bind_some, ih h, ownIn, Json.members]
              cases q with
              | nil => exact absurd h (by simp)
              | cons i q =>
                rcases (Json.obj m).read_eq_or k with hr | ⟨hr, x, hx, hi⟩
                · rw [Json.members] at hr
                  rw [← hr, hw]
                  rfl
                · rw [Json.members] at hr
                  rw [hr, Option.bind_none]
                  cases hw.symm.trans hx
                  exact ownIn_cons_of_isInherited hi i q
            · rfl
          · rfl
        | builtin n =>
          simp only [deleteIn]
          split
          · split
            · next w hw =>
              rw [ownIn, Json.members, get_put]
              split
              · next hkl =>
                subst hkl
                have h : Apart (j :: p) q := h.resolve_left (by simp)
                rw [Option.bind_some, ih h]
                cases q with
                | nil => exact absurd h (by simp)
                | cons i q =>
                  rcases (Json.builtin n).read_eq_or k with hr | ⟨hr, x, hx, hi⟩
                  · rw [hr] at hw
                    cases hw
                  · cases hw.symm.trans hx
                    rw [ownIn_cons_of_isInherited hi]
                    rfl
              · rfl
            · rfl
          · rfl
        | _ => rfl

/-- What is deleted elsewhere changes nothing here. -/
theorem ownIn_deleteIn_of_apart {p q : List Str} (h : Apart p q) (v : Json) :
    ownIn (deleteIn (some v) p) q = ownIn v q := ownIn_deleteIn_of_apart_opt h v

theorem tableIn_deleteIn_of_apart {p q : List Str} (h : Apart p q) (v : Json) :
    tableIn (deleteIn (some v) p) q = tableIn v q := by
  rw [tableIn, ownIn_deleteIn_of_apart h, tableIn]

/-- Deleting a key of the object at a path removes it from the members there. -/
theorem tableIn_deleteIn (v : Json) (p : List Str) (k : Str) :
    tableIn (deleteIn (some v) (p ++ [k])) p = erase k (tableIn v p) := by
  induction p generalizing v with
  | nil =>
    cases v with
    | builtin n =>
      simp only [List.nil_append, deleteIn]
      split <;> rfl
    | _ => rfl
  | cons j p ih =>
    obtain ⟨l, r, hl⟩ : ∃ l r, p ++ [k] = l :: r := by cases p <;> exact ⟨_, _, rfl⟩
    have hput : ∀ w m, tableIn (.obj (putMember j (deleteIn (some w) (l :: r)) m)) (j :: p) =
        erase k (tableIn w p) := by
      intro w m
      rw [tableIn, ownIn, Json.members, get_put_self, Option.bind_some, ← hl]
      exact ih w
    have hnone : ∀ u : Json, get j u.members = none → tableIn u (j :: p) = [] := by
      intro u hu
      rw [tableIn, ownIn, hu, Option.bind_none]
    have hinh : ∀ w : Json, w.IsInherited → erase k (tableIn w p) = [] := by
      intro w hi
      cases p with
      | nil => rw [tableIn, ownIn]; simp only [hi.members, erase]
      | cons i p => rw [tableIn, ownIn_cons_of_isInherited hi, erase]
    rw [List.cons_append, hl]
    cases v with
    | obj m =>
      simp only [deleteIn, Json.isPlainObject, if_true]
      rcases (Json.obj m).read_eq_or j with hr | ⟨hr, w, hw, hi⟩
      · rw [hr]
        cases hg : get j (Json.obj m).members with
        | some w =>
          simp only [hput, Json.members]
          rw [tableIn, tableIn, ownIn, hg, Option.bind_some]
        | none =>
          simp only [hnone _ hg, erase]
      · simp only [hw, hput, hnone _ hr, hinh w hi, erase]
    | builtin n =>
      have he : tableIn (.builtin n) (j :: p) = [] := hnone _ rfl
      rw [he, erase]
      simp only [deleteIn]
      split
      · rcases (Json.builtin n).read_eq_or j with hr | ⟨-, w, hw, hi⟩
        · simp only [hr, Json.members, get_nil, he]
        · simp only [hw, hput, hinh w hi]
      · exact he
    | _ => rfl

/-- Nothing stands at a path that was deleted, nor below it. -/
theorem ownIn_deleteIn_append (v : Json) (p : List Str) (k : Str) (q : List Str) :
    ownIn (deleteIn (some v) (p ++ [k])) (p ++ k :: q) = none := by
  have h := tableIn_deleteIn v p k
  rw [tableIn] at h
  rw [ownIn_append]
  cases hp : ownIn (deleteIn (some v) (p ++ [k])) p with
  | none => rfl
  | some w =>
    simp only [hp] at h
    rw [Option.bind_some, ownIn, h, get_erase_self]
    rfl

theorem deleteIn_cons_obj (m : List (Str × Json)) (j l : Str) (r : List Str) :
    deleteIn (some (.obj m)) (j :: l :: r) =
      match (Json.obj m).read j with
      | some w => .obj (putMember j (deleteIn (some w) (l :: r)) m)
      | none => .obj m := by
  simp [deleteIn, Json.isPlainObject, Json.members]

/-- Deleting below a path deletes within the value that stands there. -/
theorem ownIn_deleteIn_along {v w : Json} {p : List Str} (h : ownIn v p = some w) (k : Str)
    (q : List Str) :
    ownIn (deleteIn (some v) (p ++ k :: q)) p = some (deleteIn (some w) (k :: q)) := by
  induction p generalizing v with
  | nil =>
    cases h
    rfl
  | cons j p ih =>
    obtain ⟨l, r, hl⟩ : ∃ l r, p ++ k :: q = l :: r := by cases p <;> exact ⟨_, _, rfl⟩
    rw [ownIn, Option.bind_eq_some_iff] at h
    obtain ⟨x, hx, h⟩ := h
    cases v with
    | obj m =>
      rw [List.cons_append, hl, deleteIn_cons_obj, read_of_get_members hx]
      simp only [ownIn, Json.members, get_put_self, Option.bind_some]
      rw [← hl]
      exact ih h
    | _ => cases hx

/-- Deleting below a path makes no array there. -/
theorem arr_of_ownIn_deleteIn {v : Json} {p : List Str} {k : Str} {q : List Str} {xs : List Json}
    (h : ownIn (deleteIn (some v) (p ++ k :: q)) p = some (.arr xs)) :
    ownIn v p = some (.arr xs) := by
  induction p generalizing v with
  | nil =>
    rw [List.nil_append, ownIn, Option.some.injEq] at h
    cases v <;> cases q <;> simp only [deleteIn, reduceCtorEq] at h <;> try exact congrArg some h
    all_goals repeat (split at h; all_goals try cases h)
  | cons j p ih =>
    obtain ⟨l, r, hl⟩ : ∃ l r, p ++ k :: q = l :: r := by cases p <;> exact ⟨_, _, rfl⟩
    have hinh : ∀ w : Json, w.IsInherited → ownIn w p ≠ some (.arr xs) := by
      rintro w hi hw
      cases p with
      | nil =>
        cases hw
        exact hi
      | cons i p =>
        rw [ownIn_cons_of_isInherited hi] at hw
        cases hw
    rw [List.cons_append, hl] at h
    cases v with
    | obj m =>
      rw [deleteIn_cons_obj] at h
      rcases (Json.obj m).read_eq_or j with hr | ⟨-, w, hw, hi⟩
      · rw [hr] at h
        cases hg : get j (Json.obj m).members with
        | some w =>
          rw [hg] at h
          simp only [ownIn, Json.members, get_put_self, Option.bind_some] at h
          rw [← hl] at h
          rw [ownIn, hg]
          exact ih h
        | none =>
          rw [hg] at h
          exact h
      · simp only [hw, ownIn, Json.members, get_put_self, Option.bind_some] at h
        rw [← hl] at h
        exact absurd (ih h) (hinh w hi)
    | builtin n =>
      simp only [deleteIn] at h
      split at h
      · rcases (Json.builtin n).read_eq_or j with hr | ⟨-, w, hw, hi⟩
        · simp only [hr, Json.members, get_nil] at h
          exact h
        · simp only [hw, ownIn, Json.members, get_put_self, Option.bind_some] at h
          rw [← hl] at h
          exact absurd (ih h) (hinh w hi)
      · exact h
    | _ => exact h

/-- Two paths part, or one leads on from the other. -/
theorem apart_or_append (p q : List Str) :
    Apart p q ∨ (∃ r, q = p ++ r) ∨ ∃ k r, p = q ++ k :: r := by
  induction p generalizing q with
  | nil => exact .inr (.inl ⟨q, rfl⟩)
  | cons k p ih =>
    cases q with
    | nil => exact .inr (.inr ⟨k, p, rfl⟩)
    | cons l q =>
      by_cases h : k = l
      · subst h
        rcases ih q with h | ⟨r, rfl⟩ | ⟨j, r, rfl⟩
        · exact .inl (.inr h)
        · exact .inr (.inl ⟨r, rfl⟩)
        · exact .inr (.inr ⟨j, r, rfl⟩)
      · exact .inl (.inl h)

end ParadigmTerra
