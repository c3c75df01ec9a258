import ParadigmTerra.Reducer.Paths

/-!
# The laws of a lens

Reading, setting and deleting at a path as operations of nested finite maps, `SameMap` being equality but for
the order of members. `setIn_cons_own` says that setting is one: it sees the own members only. Reading and
deleting are not. They meet the inherited names, and a deletion puts an object in the place of a `null` that it
meets.

`lens_laws_iff` says exactly for which values and paths all laws hold: the path has to be `ClearIn` of a `null`
and of inherited names, and where another path parts from it without an object in its place, an empty object
shows nothing at the rest of that path (`Ghost`).
-/

namespace ParadigmTerra

open Text OrderedMap

variable {s : Json} {p q c r : List Str} {k l : Str}

/-! ## Finite maps -/

/-- A value without its members. -/
def Json.shape : Json → Json
  | .obj _ => .obj []
  | v => v

/-- The same values stand at all paths of own members. -/
def SameMap (v w : Json) : Prop := ∀ p, (ownIn v p).map Json.shape = (ownIn w p).map Json.shape

theorem SameMap.refl (v : Json) : SameMap v v := fun _ => rfl

/-- Objects are the same map if their members are the same. -/
theorem sameMap_obj {m m' : List (Str × Json)}
    (h : ∀ k, get k m = get k m' ∨ ∃ v w, get k m = some v ∧ get k m' = some w ∧ SameMap v w) :
    SameMap (.obj m) (.obj m') := by
  intro p
  cases p with
  | nil => rfl
  | cons k p =>
    rw [ownIn, ownIn, Json.members, Json.members]
    rcases h k with heq | ⟨v, w, hv, hw, hsame⟩
    · rw [heq]
    · rw [hv, hw, Option.bind_some, Option.bind_some]
      exact hsame p

theorem SameMap.member {m m' : List (Str × Json)} {v w : Json} (h : SameMap (.obj m) (.obj m'))
    (hv : get k m = some v) (hw : get k m' = some w) : SameMap v w := by
  intro p
  have hp := h (k :: p)
  rw [ownIn, ownIn, Json.members, Json.members, hv, hw, Option.bind_some, Option.bind_some] at hp
  exact hp

/-! ## Setting is an operation of maps -/

/-- In the place of an inherited value, a write sees what it sees where there is none. -/
theorem setIn_of_isInherited {w : Json} (h : w.IsInherited) (p : List Str) (x : Json) :
    setIn (some w) p x = setIn none p x := by
  induction p generalizing w with
  | nil => rfl
  | cons k p ih =>
    have hread : ∀ o : Option Json, (∀ v, o = some v → v.IsInherited) → setIn o p x = setIn none p x := by
      intro o ho
      cases o with
      | none => rfl
      | some v => exact ih (ho v rfl)
    have hbase : ∀ o : Option Json, (baseOf o).members = [] → ∀ v, (baseOf o).read k = some v → v.IsInherited := by
      intro o hm v hv
      rcases (baseOf o).read_eq_or k with hr | ⟨-, u, hu, hi⟩
      · rw [hr, hm] at hv
        cases hv
      · rw [hv] at hu
        cases hu
        exact hi
    have hw : (baseOf (some w)).members = [] := by rw [members_baseOf, h.members]
    rw [setIn, setIn, hw, hread _ (hbase _ hw), hread _ (hbase none rfl)]
    rfl

/-- What a write sees of the value that it replaces. -/
def membersOf (o : Option Json) : List (Str × Json) := (baseOf o).members

@[simp] theorem membersOf_obj (m : List (Str × Json)) : membersOf (some (.obj m)) = m := rfl

/-- Setting goes through own members. -/
theorem setIn_cons_own (o : Option Json) (k : Str) (p : List Str) (x : Json) :
    setIn o (k :: p) x = .obj (putMember k (setIn (get k (membersOf o)) p x) (membersOf o)) := by
  rw [setIn, membersOf]
  rcases (baseOf o).read_eq_or k with hr | ⟨hr, w, hw, hi⟩
  · rw [hr]
  · rw [hw, hr, setIn_of_isInherited hi]

/-- Writes at paths apart commute. -/
theorem setIn_comm (h : Apart p q) (o : Option Json) (x y : Json) :
    SameMap (setIn (some (setIn o p x)) q y) (setIn (some (setIn o q y)) p x) := by
  induction p generalizing q o with
  | nil => exact h.elim
  | cons k p ih =>
    cases q with
    | nil => exact h.elim
    | cons l q =>
      simp only [setIn_cons_own, membersOf_obj]
      refine sameMap_obj fun j => ?_
      by_cases hkl : k = l
      · subst hkl
        have h : Apart p q := h.resolve_left fun hne => hne rfl
        rw [get_put_self, get_put, get_put, get_put_self, get_put, get_put]
        by_cases hj : k = j
        · rw [if_pos hj, if_pos hj]
          exact .inr ⟨_, _, rfl, rfl, ih h _⟩
        · rw [if_neg hj, if_neg hj, if_neg hj, if_neg hj]
          exact .inl rfl
      · rw [get_put_of_ne hkl, get_put_of_ne (Ne.symm hkl)]
        refine .inl ?_
        rw [get_put, get_put, get_put, get_put]
        by_cases hk : k = j
        · rw [if_pos hk, if_neg fun hl => hkl (hk.trans hl.symm), if_pos hk]
        · by_cases hl : l = j
          · rw [if_pos hl, if_neg hk, if_pos hl]
          · rw [if_neg hl, if_neg hk, if_neg hk, if_neg hl]

/-! ## What a read meets -/

/-- A value of JSON: neither a function nor a prototype stands at a path of own members. -/
def Json.Plain (s : Json) : Prop := ∀ p n, ownIn s p ≠ some (.builtin n)

theorem Json.Plain.member {m : List (Str × Json)} {w : Json} (h : (Json.obj m).Plain) (hw : get k m = some w) :
    w.Plain := by
  intro p n hp
  refine h (k :: p) n ?_
  rw [ownIn, Json.members, hw, Option.bind_some, hp]

theorem Json.plain_obj {m : List (Str × Json)} (h : ∀ e ∈ m, e.2.Plain) : (Json.obj m).Plain := by
  intro p n hp
  cases p with
  | nil => cases hp
  | cons k p =>
    rw [ownIn, Option.bind_eq_some_iff] at hp
    obtain ⟨w, hw, hp⟩ := hp
    exact h _ (mem_of_get hw) p n hp

/-- The read along a path meets no `null` before its end, and no inherited name: the last name is none if there is
an object to read it from, and the names before are own members where they are one. -/
def ClearIn : Json → List Str → Prop
  | _, [] => True
  | .null, _ :: _ => False
  | .obj m, k :: p =>
    (p = [] → k ∉ inheritedNames) ∧
      match get k m with
      | some w => ClearIn w p
      | none => k ∉ inheritedNames
  | _, _ :: _ => True

/-- A path at which an empty object shows something: an inherited name, or one of the prototype. -/
def Ghost : List Str → Prop
  | [k] => k ∈ inheritedNames
  | [j, k] => j = js "__proto__" ∧ k ∈ inheritedNames
  | _ => False

/-- Where `q` parts from `p`, the value has an object, or an empty object shows nothing at the rest of `q`. -/
def Separate (s : Json) (p q : List Str) : Prop :=
  ∀ c k l p' q', p = c ++ k :: p' → q = c ++ l :: q' → k ≠ l → (∃ m, ownIn s c = some (.obj m)) ∨ ¬Ghost (l :: q')

theorem read_empty (k : Str) : (Json.obj []).read k = inherited k := Json.read_of_get_none rfl

theorem ghost_iff (q : List Str) (hq : q ≠ []) : Ghost q ↔ getIn (.obj []) q ≠ none := by
  have hproto : js "__proto__" ∈ inheritedNames := by decide
  match q with
  | [k] =>
    rw [Ghost, getIn_singleton rfl, read_empty, inherited]
    split <;> simp [*]
  | j :: k :: r =>
    have hfirst : getIn (.obj []) (j :: k :: r) = (inherited j).bind fun w => getIn w (k :: r) := by
      rw [getIn, if_pos (by rfl), read_empty]
    have hsecond : getIn (.builtin (js "__proto__")) (k :: r) =
        (Json.read (.builtin (js "__proto__")) k).bind fun w => getIn w r := by
      rw [getIn, if_pos (by rfl)]
    rw [hfirst, inherited]
    by_cases hj : j = js "__proto__"
    · rw [hj, if_pos hproto, Option.bind_some, hsecond, Json.read]
      cases r with
      | nil =>
        rw [Ghost]
        by_cases hk : k = js "__proto__"
        · rw [if_pos hk, hk]
          exact iff_of_true ⟨rfl, hproto⟩ (by simp [getIn])
        · rw [if_neg hk, inherited]
          split <;> simp [getIn, *]
      | cons i r =>
        refine iff_of_false (fun h => h) fun h => h ?_
        by_cases hk : k = js "__proto__"
        · rw [if_pos hk]
          rfl
        · -- a function has no members
          rw [if_neg hk, inherited]
          split
          · rw [Option.bind_some, getIn, if_neg]
            simpa [Json.isPlainObject] using hk
          · rfl
    · have hno : ¬Ghost (j :: k :: r) := by
        cases r with
        | nil => exact fun h => hj h.1
        | cons i r => exact fun h => h
      refine iff_of_false hno fun h => h ?_
      split
      · rw [Option.bind_some, getIn, if_neg]
        simpa [Json.isPlainObject] using hj
      · rfl

theorem clear_obj {m : List (Str × Json)} : ClearIn (.obj m) (k :: p) ↔
    (p = [] → k ∉ inheritedNames) ∧
      ((∃ w, get k m = some w ∧ ClearIn w p) ∨ get k m = none ∧ k ∉ inheritedNames) := by
  rw [ClearIn]
  cases get k m <;> simp

theorem read_none_of_clear {m : List (Str × Json)} (h : k ∉ inheritedNames) (hm : get k m = none) :
    (Json.obj m).read k = none := by
  rw [Json.read_of_not_inherited h, hm]

theorem not_plainObject {s : Json} (hs : s.Plain) (h : ∀ m, s ≠ .obj m) : s.isPlainObject = false := by
  cases s with
  | obj m => exact absurd rfl (h m)
  | builtin n => exact absurd rfl (hs [] n)
  | _ => rfl

theorem getIn_of_not_obj {s : Json} (hs : s.Plain) (h : ∀ m, s ≠ .obj m) : getIn s (k :: p) = none := by
  rw [getIn, if_neg (by rw [not_plainObject hs h]; decide)]

/-- On the way to the end of a clear path, a read meets own members only. -/
theorem getIn_of_clear {s : Json} (hs : s.Plain) (h : ClearIn s (c ++ k :: p)) (q : List Str) :
    getIn s (c ++ q) = (ownIn s c).bind fun w => getIn w q := by
  induction c generalizing s with
  | nil => rfl
  | cons j c ih =>
    by_cases hobj : ∃ m, s = .obj m
    · obtain ⟨m, rfl⟩ := hobj
      rw [List.cons_append, clear_obj] at h
      rw [List.cons_append, getIn, if_pos (by rfl), ownIn, Json.members]
      rcases h.2 with ⟨w, hw, hclear⟩ | ⟨hnone, hj⟩
      · rw [Json.read_of_get hw, hw, Option.bind_some, Option.bind_some]
        exact ih (hs.member hw) hclear
      · rw [read_none_of_clear hj hnone, hnone]
        rfl
    · have hne : ∀ m, s ≠ .obj m := fun m hm => hobj ⟨m, hm⟩
      rw [List.cons_append, getIn_of_not_obj hs hne, ownIn]
      cases s with
      | obj m => exact absurd rfl (hne m)
      | _ => rfl

/-! ## Reading after a write -/

/-- Where another path parts, a read finds what it would find in the object there, or in an empty one. -/
theorem getIn_setIn_parted (s : Json) (c : List Str) (hkl : k ≠ l) (p q : List Str) (x : Json) :
    getIn (setIn (some s) (c ++ k :: p) x) (c ++ l :: q) = getIn (.obj (tableIn s c)) (l :: q) := by
  obtain ⟨o, hown, -⟩ := ownIn_setIn_prefix s c k p x
  rw [getIn_append hown, getIn, getIn, if_pos (by rfl), if_pos (by rfl), read_obj_put_of_ne _ hkl]

theorem exists_parting (h : Apart p q) :
    ∃ c k l p' q', p = c ++ k :: p' ∧ q = c ++ l :: q' ∧ k ≠ l := by
  induction p generalizing q with
  | nil => exact h.elim
  | cons k p ih =>
    cases q with
    | nil => exact h.elim
    | cons l q =>
      by_cases hkl : k = l
      · subst hkl
        obtain ⟨c, i, j, p', q', rfl, rfl, hij⟩ := ih (h.resolve_left fun hne => hne rfl)
        exact ⟨k :: c, i, j, p', q', rfl, rfl, hij⟩
      · exact ⟨[], k, l, p, q, rfl, rfl, hkl⟩

theorem apart_parting (c : List Str) (hkl : k ≠ l) (p q : List Str) : Apart (c ++ k :: p) (c ++ l :: q) := by
  induction c with
  | nil => exact .inl hkl
  | cons j c ih => exact .inr ih

/-- Paths are apart if neither is a prefix of the other. -/
theorem apart_iff : Apart p q ↔ ¬p <+: q ∧ ¬q <+: p := by
  constructor
  · intro h
    obtain ⟨c, k, l, p', q', rfl, rfl, hkl⟩ := exists_parting h
    rw [List.prefix_append_right_inj, List.prefix_append_right_inj, List.cons_prefix_cons, List.cons_prefix_cons]
    exact ⟨fun h => hkl h.1, fun h => hkl h.1.symm⟩
  · rintro ⟨hpq, hqp⟩
    induction p generalizing q with
    | nil => exact absurd List.nil_prefix hpq
    | cons k p ih =>
      cases q with
      | nil => exact absurd List.nil_prefix hqp
      | cons l q =>
        by_cases hkl : k = l
        · subst hkl
          rw [List.cons_prefix_cons] at hpq hqp
          exact .inr (ih (fun h => hpq ⟨rfl, h⟩) fun h => hqp ⟨rfl, h⟩)
        · exact .inl hkl

/-- A write is seen at no path apart from it exactly if the paths are separate. -/
theorem getIn_setIn_iff {s : Json} (hs : s.Plain) (hclear : ClearIn s p) (h : Apart p q) (x : Json) :
    getIn (setIn (some s) p x) q = getIn s q ↔ Separate s p q := by
  have hread : ∀ c k l p' q', p = c ++ k :: p' → q = c ++ l :: q' → k ≠ l →
      (getIn (setIn (some s) p x) q = getIn s q ↔ (∃ m, ownIn s c = some (.obj m)) ∨ ¬Ghost (l :: q')) := by
    rintro c k l p' q' rfl rfl hkl
    rw [getIn_setIn_parted s c hkl, getIn_of_clear hs hclear]
    by_cases hobj : ∃ m, ownIn s c = some (.obj m)
    · obtain ⟨m, hm⟩ := hobj
      rw [tableIn, hm, Option.bind_some]
      exact iff_of_true rfl (.inl ⟨m, rfl⟩)
    · have htable : tableIn s c = [] := by
        rw [tableIn]
        cases hc : ownIn s c with
        | none => rfl
        | some w =>
          cases w with
          | obj m => exact absurd ⟨m, hc⟩ hobj
          | _ => rfl
      have hnone : ((ownIn s c).bind fun w => getIn w (l :: q')) = none := by
        cases hc : ownIn s c with
        | none => rfl
        | some w =>
          rw [Option.bind_some, getIn_of_not_obj]
          · intro r n hr
            refine hs (c ++ r) n ?_
            rw [ownIn_append, hc, Option.bind_some, hr]
          · rintro m rfl
            exact hobj ⟨m, hc⟩
      rw [htable, hnone, ghost_iff _ (List.cons_ne_nil _ _), not_not, or_iff_right hobj]
  constructor
  · intro heq c k l p' q' hp hq hkl
    exact (hread c k l p' q' hp hq hkl).mp heq
  · intro hsep
    obtain ⟨c, k, l, p', q', hp, hq, hkl⟩ := exists_parting h
    exact (hread c k l p' q' hp hq hkl).mpr (hsep c k l p' q' hp hq hkl)

/-! ## Reading after a deletion -/

theorem deleteIn_of_not_obj {s : Json} (hs : s.Plain) (h : ∀ m, s ≠ .obj m) (hnull : s ≠ .null) (p : List Str) :
    deleteIn (some s) p = s := by
  have hno := not_plainObject hs h
  match p with
  | [] => cases s <;> first | rfl | exact absurd rfl hnull
  | [k] =>
    cases s with
    | null => exact absurd rfl hnull
    | _ => simp only [deleteIn, hno, Bool.false_eq_true, if_false]
  | k :: l :: p =>
    cases s with
    | null => exact absurd rfl hnull
    | _ => simp only [deleteIn, hno, Bool.false_eq_true, if_false]

theorem deleteIn_single (m : List (Str × Json)) (k : Str) : deleteIn (some (.obj m)) [k] = .obj (erase k m) := rfl

theorem deleteIn_through {m : List (Str × Json)} {w : Json} (h : (Json.obj m).read k = some w) (l : Str)
    (p : List Str) :
    deleteIn (some (.obj m)) (k :: l :: p) = .obj (putMember k (deleteIn (some w) (l :: p)) m) := by
  simp only [deleteIn, Json.isPlainObject, if_true, h, Json.members]

theorem deleteIn_absent {m : List (Str × Json)} (h : (Json.obj m).read k = none) (l : Str) (p : List Str) :
    deleteIn (some (.obj m)) (k :: l :: p) = .obj m := by
  simp only [deleteIn, Json.isPlainObject, if_true, h]

/-- The cases of a clear path: the walk ends at a value that is no object, at the object whose member the last name
is, or at an object without the next member; or it goes on below a member. -/
theorem clear_induction {P : Json → List Str → Prop}
    (other : ∀ s k p, s.Plain → (∀ m, s ≠ .obj m) → s ≠ .null → P s (k :: p))
    (last : ∀ m k, (Json.obj m).Plain → k ∉ inheritedNames → P (.obj m) [k])
    (missing : ∀ m k l p, get k m = none → (Json.obj m).read k = none → P (.obj m) (k :: l :: p))
    (below : ∀ m k l p w, get k m = some w → w.Plain → P w (l :: p) → P (.obj m) (k :: l :: p))
    {s : Json} (hs : s.Plain) (hp : p ≠ []) (h : ClearIn s p) : P s p := by
  induction p generalizing s with
  | nil => exact absurd rfl hp
  | cons k p ih =>
    by_cases hobj : ∃ m, s = .obj m
    · obtain ⟨m, rfl⟩ := hobj
      obtain ⟨hlast, hnext⟩ := clear_obj.mp h
      cases p with
      | nil => exact last m k hs (hlast rfl)
      | cons l p =>
        rcases hnext with ⟨w, hw, hclear⟩ | ⟨hnone, hk⟩
        · exact below m k l p w hw (hs.member hw) (ih (hs.member hw) (List.cons_ne_nil _ _) hclear)
        · exact missing m k l p hnone (read_none_of_clear hk hnone)
    · have hne : ∀ m, s ≠ .obj m := fun m hm => hobj ⟨m, hm⟩
      refine other s k p hs hne ?_
      rintro rfl
      exact h

/-- What was deleted is not there. -/
theorem getIn_deleteIn {s : Json} (hs : s.Plain) (hp : p ≠ []) (h : ClearIn s p) :
    getIn (deleteIn (some s) p) p = none := by
  refine clear_induction (P := fun s p => getIn (deleteIn (some s) p) p = none) ?_ ?_ ?_ ?_ hs hp h
  · intro s k p hs hne hnull
    rw [deleteIn_of_not_obj hs hne hnull, getIn_of_not_obj hs hne]
  · intro m k _ hk
    rw [deleteIn_single, getIn_singleton (by rfl), read_none_of_clear hk get_erase_self]
  · intro m k l p _ hread
    rw [deleteIn_absent hread, getIn, if_pos (by rfl), hread, Option.bind_none]
  · intro m k l p w hw _ ih
    rw [deleteIn_through (Json.read_of_get hw), getIn, if_pos (by rfl), read_obj_put, Option.bind_some]
    exact ih

/-- Elsewhere nothing changes. -/
theorem getIn_deleteIn_of_apart {s : Json} (hs : s.Plain) (hp : p ≠ []) (h : ClearIn s p) (hpq : Apart p q) :
    getIn (deleteIn (some s) p) q = getIn s q := by
  refine clear_induction (P := fun s p => ∀ q, Apart p q → getIn (deleteIn (some s) p) q = getIn s q)
    ?_ ?_ ?_ ?_ hs hp h q hpq
  · intro s k p hs hne hnull q _
    rw [deleteIn_of_not_obj hs hne hnull]
  · intro m k _ _ q hpq
    cases q with
    | nil => exact hpq.elim
    | cons l q =>
      have hkl : k ≠ l := hpq.resolve_right (by simp)
      rw [deleteIn_single, getIn, getIn, if_pos (by rfl), if_pos (by rfl), Json.read, Json.read,
        get_erase_of_ne hkl]
  · intro m k l p _ hread q _
    rw [deleteIn_absent hread]
  · intro m k l p w hw _ ih q hpq
    cases q with
    | nil => exact hpq.elim
    | cons j q =>
      rw [deleteIn_through (Json.read_of_get hw), getIn, getIn, if_pos (by rfl), if_pos (by rfl)]
      by_cases hkj : k = j
      · subst hkj
        rw [read_obj_put, Json.read_of_get hw, Option.bind_some, Option.bind_some]
        exact ih q (hpq.resolve_left fun hne => hne rfl)
      · rw [read_obj_put_of_ne _ hkj]

/-- The deletion of what is absent changes nothing. -/
theorem deleteIn_of_absent {s : Json} (hs : s.Plain) (hp : p ≠ []) (h : ClearIn s p) (habsent : getIn s p = none) :
    deleteIn (some s) p = s := by
  refine clear_induction (P := fun s p => getIn s p = none → deleteIn (some s) p = s) ?_ ?_ ?_ ?_ hs hp h habsent
  · intro s k p hs hne hnull _
    exact deleteIn_of_not_obj hs hne hnull _
  · intro m k _ hk hnone
    rw [getIn_singleton (by rfl), Json.read_of_not_inherited hk] at hnone
    rw [deleteIn_single, erase_of_get_eq_none hnone]
  · intro m k l p _ hread _
    exact deleteIn_absent hread _ _
  · intro m k l p w hw _ ih hnone
    have hread := Json.read_of_get hw
    rw [getIn, if_pos (by rfl), hread, Option.bind_some] at hnone
    rw [deleteIn_through hread, ih hnone, putMember, put_self hw]

/-- A deletion undoes a write at an absent key of an object. -/
theorem deleteIn_setIn_of_absent {s : Json} (hs : s.Plain) (h : ClearIn s (p ++ [k])) {w : Json}
    (hw : getIn s p = some w) (hobj : w.isPlainObject = true) (habsent : getIn s (p ++ [k]) = none) (x : Json) :
    deleteIn (some (setIn (some s) (p ++ [k]) x)) (p ++ [k]) = s := by
  have hread := getIn_of_clear hs h
  have hown : ownIn s p = some w := by
    have hnil := hread []
    rw [List.append_nil, hw] at hnil
    rw [hnil]
    exact (Option.bind_fun_some _).symm
  obtain ⟨m, rfl⟩ : ∃ m, w = .obj m := by
    by_contra hno
    have hplain : w.Plain := by
      intro r n hr
      refine hs (p ++ r) n ?_
      rw [ownIn_append, hown, Option.bind_some, hr]
    rw [not_plainObject hplain fun m hm => hno ⟨m, hm⟩] at hobj
    cases hobj
  have hnone : get k m = none := by
    rw [hread, hown, Option.bind_some, getIn_singleton (by rfl)] at habsent
    cases hg : get k m with
    | none => rfl
    | some v =>
      rw [Json.read_of_get hg] at habsent
      cases habsent
  have hset : setIn (some s) (p ++ [k]) x = setIn (some s) p (.obj (putMember k x m)) := setIn_append hown [k] x
  have hthere := ownIn_setIn (some s) p (.obj (putMember k x m))
  have herase : deleteIn (some (.obj (putMember k x m))) [k] = .obj m := by
    rw [deleteIn_single, putMember, erase_put_self, erase_of_get_eq_none hnone]
  rw [hset, deleteIn_append hthere, herase, setIn_setIn, setIn_self hown]

/-! ## The laws -/

/-- The laws of a lens, for a value, a path, and another one. -/
structure LensLaws (s : Json) (p q : List Str) (x y : Json) : Prop where
  get_set : getIn (setIn (some s) p x) p = some x
  get_set_apart : ¬p <+: q → ¬q <+: p → getIn (setIn (some s) p x) q = getIn s q
  set_comm : ¬p <+: q → ¬q <+: p →
    SameMap (setIn (some (setIn (some s) p x)) q y) (setIn (some (setIn (some s) q y)) p x)
  get_delete : getIn (deleteIn (some s) p) p = none
  get_delete_apart : ¬p <+: q → ¬q <+: p → getIn (deleteIn (some s) p) q = getIn s q
  delete_absent : getIn s p = none → SameMap (deleteIn (some s) p) s
  delete_set : ∀ r k w, p = r ++ [k] → getIn s r = some w → w.isPlainObject = true → getIn s p = none →
    SameMap (deleteIn (some (setIn (some s) p x)) p) s

/-- A value and a path for which the laws of a deletion hold are clear. -/
theorem clear_of_laws {s : Json} (hget : getIn (deleteIn (some s) p) p = none)
    (habsent : getIn s p = none → SameMap (deleteIn (some s) p) s) : ClearIn s p := by
  induction p generalizing s with
  | nil => cases s <;> trivial
  | cons k p ih =>
    cases s with
    | null =>
      have hsame := habsent rfl []
      cases p <;> cases hsame
    | obj m =>
      rw [clear_obj]
      cases p with
      | nil =>
        have hk : k ∉ inheritedNames := by
          intro hk
          rw [deleteIn_single, getIn_singleton (by rfl), Json.read_of_get_none get_erase_self, inherited,
            if_pos hk] at hget
          cases hget
        refine ⟨fun _ => hk, ?_⟩
        cases hm : get k m with
        | none => exact .inr ⟨rfl, hk⟩
        | some w => exact .inl ⟨w, rfl, by cases w <;> trivial⟩
      | cons l p =>
        refine ⟨fun h => (by cases h), ?_⟩
        cases hm : get k m with
        | some w =>
          have hread := Json.read_of_get hm
          refine .inl ⟨w, rfl, ih ?_ fun hnone => ?_⟩
          · rw [deleteIn_through hread, getIn, if_pos (by rfl), read_obj_put, Option.bind_some] at hget
            exact hget
          · have hall : getIn (.obj m) (k :: l :: p) = none := by
              rw [getIn, if_pos (by rfl), hread, Option.bind_some]
              exact hnone
            have hsame := habsent hall
            rw [deleteIn_through hread] at hsame
            exact hsame.member get_put_self hm
        | none =>
          refine .inr ⟨rfl, fun hk => ?_⟩
          -- the deletion makes a member of the inherited value
          have hread : (Json.obj m).read k = some (.builtin k) := by
            rw [Json.read_of_get_none hm, inherited, if_pos hk]
          rw [deleteIn_through hread] at hget habsent
          have hsome : getIn (.builtin k) (l :: p) ≠ none := by
            intro hnone
            have hall : getIn (.obj m) (k :: l :: p) = none := by
              rw [getIn, if_pos (by rfl), hread, Option.bind_some]
              exact hnone
            have hsame := habsent hall [k]
            rw [ownIn, ownIn, Json.members, Json.members, get_put_self, hm] at hsame
            cases hsame
          have hghost : Ghost (k :: l :: p) := by
            rw [ghost_iff _ (List.cons_ne_nil _ _), getIn, if_pos (by rfl), read_empty, inherited, if_pos hk,
              Option.bind_some]
            exact hsome
          cases p with
          | nil =>
            obtain ⟨rfl, hl⟩ := hghost
            have hempty : deleteIn (some (.builtin (js "__proto__"))) [l] = .obj [] := rfl
            rw [getIn, if_pos (by rfl), read_obj_put, Option.bind_some, hempty, getIn_singleton (by rfl),
              read_empty, inherited, if_pos hl] at hget
            cases hget
          | cons i p => exact hghost
    | _ => trivial

/-- The laws hold for a value and paths exactly if the path is clear in the value, and separate from the other path
where that is apart from it. -/
theorem lens_laws_iff {s : Json} (hs : s.Plain) (hp : p ≠ []) :
    (∀ x y, LensLaws s p q x y) ↔ ClearIn s p ∧ (¬p <+: q → ¬q <+: p → Separate s p q) := by
  constructor
  · intro h
    have hlaws := h .null .null
    have hclear := clear_of_laws hlaws.get_delete hlaws.delete_absent
    refine ⟨hclear, fun hpq hqp => ?_⟩
    exact (getIn_setIn_iff hs hclear (apart_iff.mpr ⟨hpq, hqp⟩) .null).mp (hlaws.get_set_apart hpq hqp)
  · rintro ⟨hclear, hsep⟩ x y
    constructor
    · exact getIn_of_ownIn (ownIn_setIn (some s) p x)
    · intro hpq hqp
      exact (getIn_setIn_iff hs hclear (apart_iff.mpr ⟨hpq, hqp⟩) x).mpr (hsep hpq hqp)
    · intro hpq hqp
      exact setIn_comm (apart_iff.mpr ⟨hpq, hqp⟩) (some s) x y
    · exact getIn_deleteIn hs hp hclear
    · intro hpq hqp
      exact getIn_deleteIn_of_apart hs hp hclear (apart_iff.mpr ⟨hpq, hqp⟩)
    · intro habsent
      rw [deleteIn_of_absent hs hp hclear habsent]
      exact .refl s
    · rintro r k w rfl hw hobj habsent
      rw [deleteIn_setIn_of_absent hs hclear hw hobj habsent x]
      exact .refl s

/-- A member is set beside another one. -/
theorem lens_laws_member :
    LensLaws (.obj [(js "a", .obj [])]) [js "a", js "b"] [js "a", js "c"] (.int 1) (.int 2) := by
  have hplain : (Json.obj [(js "a", .obj [])]).Plain := by
    refine Json.plain_obj fun e he => ?_
    rw [List.mem_singleton.mp he]
    exact Json.plain_obj fun e he => nomatch he
  refine (lens_laws_iff hplain (by decide)).mpr ⟨?_, fun _ _ => ?_⟩ (.int 1) (.int 2)
  · refine ⟨fun h => (nomatch h), ?_⟩
    exact ⟨fun _ => by decide, show js "b" ∉ inheritedNames by decide⟩
  · intro c k l p' q' hp hq hkl
    match c with
    | [] =>
      cases hp
      cases hq
      exact absurd rfl hkl
    | [i] =>
      cases hp
      exact .inl ⟨[], rfl⟩
    | i :: j :: c => simp at hp

/-- The deletion of an absent path puts an object in the place of a `null`. -/
theorem deletion_of_absent : ¬∀ s : Json, s.Plain → ∀ p q : List Str, p ≠ [] → q ≠ [] → ∀ x y,
    LensLaws s p q x y := by
  intro hall
  have hplain : (Json.obj [(js "a", .null)]).Plain := by
    refine Json.plain_obj fun e he => ?_
    rw [List.mem_singleton.mp he]
    intro p n hp
    cases p <;> cases hp
  have hlaws := hall _ hplain [js "a", js "b"] [js "c"] (by decide) (by decide) .null .null
  have hsame := hlaws.delete_absent rfl [js "a"]
  cases hsame

end ParadigmTerra
