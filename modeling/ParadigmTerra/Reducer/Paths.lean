import ParadigmTerra.Reducer.State

/-!
# Writes at several paths

How a write of the state meets another one: it commutes with it at a path apart
(`setIn_setIn_of_apart`, `deleteIn_setIn_of_apart`), it undoes one below its own path
(`setIn_setIn_append`, `deleteIn_setIn_append`), and below the other's path it works on the value that
stands there (`setIn_append`, `deleteIn_append`). The value has to stand at the other's path already,
so that no object is made on the way to it.
-/

namespace ParadigmTerra

open Text OrderedMap

variable {s a : Json} {o : Option Json} {p q r : List Str} {k : Str} {x y : Json}

/-- A value with an own member is an object. -/
theorem eq_obj_of_get {v w : Json} (h : get k v.members = some w) : ∃ m, v = .obj m := by
  cases v with
  | obj m => exact ⟨m, rfl⟩
  | _ => cases h

theorem setIn_cons_obj (m : List (Str × Json)) (k : Str) (p : List Str) (x : Json) :
    setIn (some (.obj m)) (k :: p) x =
      .obj (putMember k (setIn ((Json.obj m).read k) p x) m) := rfl

theorem read_obj_put (m : List (Str × Json)) (k : Str) (x : Json) :
    (Json.obj (putMember k x m)).read k = some x :=
  Json.read_of_get get_put_self

theorem read_obj_put_of_ne (m : List (Str × Json)) {l : Str} (h : l ≠ k) (x : Json) :
    (Json.obj (putMember l x m)).read k = (Json.obj m).read k := by
  rw [Json.read, Json.read, get_put_of_ne h]

/-- What stands at the first segment of a path. -/
theorem ownIn_cons_eq_some {v w : Json} (h : ownIn v (k :: p) = some w) :
    ∃ m u, v = .obj m ∧ get k m = some u ∧ ownIn u p = some w := by
  rw [ownIn, Option.bind_eq_some_iff] at h
  obtain ⟨u, hu, h⟩ := h
  obtain ⟨m, rfl⟩ := eq_obj_of_get hu
  exact ⟨m, u, rfl, hu, h⟩

/-- A path to an object leads through objects. -/
theorem obj_of_append {m : List (Str × Json)} (h : ownIn s (p ++ q) = some (.obj m)) :
    ∃ m', ownIn s p = some (.obj m') := by
  rw [ownIn_append, Option.bind_eq_some_iff] at h
  obtain ⟨w, hw, h⟩ := h
  cases q with
  | nil =>
    cases h
    exact ⟨m, hw⟩
  | cons k q =>
    obtain ⟨m', -, rfl, -, -⟩ := ownIn_cons_eq_some h
    exact ⟨m', hw⟩

/-! ## Writes below a value -/

/-- A write below a value that stands at a path is a write of the value. -/
theorem setIn_append (h : ownIn s p = some a) (q : List Str) (x : Json) :
    setIn (some s) (p ++ q) x = setIn (some s) p (setIn (some a) q x) := by
  induction p generalizing s with
  | nil =>
    cases h
    rfl
  | cons k p ih =>
    obtain ⟨m, u, rfl, hu, h⟩ := ownIn_cons_eq_some h
    rw [List.cons_append, setIn_cons_obj, setIn_cons_obj, Json.read_of_get hu, ih h]

/-- Nothing changes where the value of a path is set again. -/
theorem setIn_self (h : ownIn s p = some a) : setIn (some s) p a = s := by
  induction p generalizing s with
  | nil => exact (Option.some.inj h).symm
  | cons k p ih =>
    obtain ⟨m, u, rfl, hu, h⟩ := ownIn_cons_eq_some h
    rw [setIn_cons_obj, Json.read_of_get hu, ih h, putMember, put_self hu]

/-- A value is deleted below a path within the value that stands there. -/
theorem deleteIn_append (h : ownIn s p = some a) (k : Str) (q : List Str) :
    deleteIn (some s) (p ++ k :: q) = setIn (some s) p (deleteIn (some a) (k :: q)) := by
  induction p generalizing s with
  | nil =>
    cases h
    rfl
  | cons j p ih =>
    obtain ⟨l, r, hl⟩ : ∃ l r, p ++ k :: q = l :: r := by cases p <;> exact ⟨_, _, rfl⟩
    obtain ⟨m, u, rfl, hu, h⟩ := ownIn_cons_eq_some h
    rw [List.cons_append, hl, deleteIn_cons_obj, setIn_cons_obj, Json.read_of_get hu]
    simp only [← hl, ih h]

/-! ## Writes over a write -/

/-- A write undoes an earlier one below its path. -/
theorem setIn_setIn_append (o : Option Json) (p r : List Str) (x y : Json) :
    setIn (some (setIn o (p ++ r) y)) p x = setIn o p x := by
  induction p generalizing o with
  | nil => rfl
  | cons k p ih =>
    have hinner : setIn o (k :: (p ++ r)) y =
        .obj (putMember k (setIn ((baseOf o).read k) (p ++ r) y) (baseOf o).members) := rfl
    rw [List.cons_append, hinner, setIn_cons_obj, read_obj_put, ih, setIn, putMember, put_put]

theorem setIn_setIn (o : Option Json) (p : List Str) (x y : Json) :
    setIn (some (setIn o p y)) p x = setIn o p x := by
  have h := setIn_setIn_append o p [] x y
  rwa [List.append_nil] at h

/-- A deletion undoes an earlier write below its path. -/
theorem deleteIn_setIn_append (h : (ownIn s (p ++ k :: r)).isSome) (y : Json) :
    deleteIn (some (setIn (some s) (p ++ k :: r) y)) (p ++ [k]) = deleteIn (some s) (p ++ [k]) := by
  induction p generalizing s with
  | nil =>
    obtain ⟨w, hw⟩ := Option.isSome_iff_exists.mp h
    obtain ⟨m, u, rfl, hu, -⟩ := ownIn_cons_eq_some hw
    simp only [List.nil_append, setIn_cons_obj, deleteIn, Json.isPlainObject, if_true,
      Json.members, putMember, erase_put_self]
  | cons j p ih =>
    obtain ⟨l, q, hl⟩ : ∃ l q, p ++ [k] = l :: q := by cases p <;> exact ⟨_, _, rfl⟩
    obtain ⟨w, hw⟩ := Option.isSome_iff_exists.mp h
    obtain ⟨m, u, rfl, hu, hw⟩ := ownIn_cons_eq_some hw
    have hu' : (ownIn u (p ++ k :: r)).isSome := Option.isSome_iff_exists.mpr ⟨w, hw⟩
    rw [List.cons_append, List.cons_append, setIn_cons_obj, hl, deleteIn_cons_obj,
      deleteIn_cons_obj, read_obj_put, Json.read_of_get hu]
    simp only [← hl, ih hu', putMember, put_put]

/-! ## Writes beside a write -/

/-- A write commutes with the write of a path apart that is there. -/
theorem setIn_setIn_of_apart (h : Apart p q) (hq : (ownIn s q).isSome) (x y : Json) :
    setIn (some (setIn (some s) q y)) p x = setIn (some (setIn (some s) p x)) q y := by
  obtain ⟨w, hw⟩ := Option.isSome_iff_exists.mp hq
  induction p generalizing s q with
  | nil => exact h.elim
  | cons k p ih =>
    cases q with
    | nil => exact (apart_nil_right _ |>.mp h).elim
    | cons l q =>
      obtain ⟨m, u, rfl, hu, hw'⟩ := ownIn_cons_eq_some hw
      by_cases hkl : k = l
      · subst hkl
        have h := (apart_cons.mp h).resolve_left (by simp)
        simp only [setIn_cons_obj, read_obj_put, Json.read_of_get hu, putMember, put_put]
        rw [ih h (by rw [hw']; rfl) hw']
      · have hsome : (get l m).isSome := by rw [hu]; rfl
        simp only [setIn_cons_obj, read_obj_put_of_ne _ (Ne.symm hkl), read_obj_put_of_ne _ hkl,
          putMember, put_put_of_ne hkl hsome]

/-- A deletion commutes with the write of a path apart that is there. -/
theorem deleteIn_setIn_of_apart (h : Apart p q) (hq : (ownIn s q).isSome) (y : Json) :
    deleteIn (some (setIn (some s) q y)) p = setIn (some (deleteIn (some s) p)) q y := by
  obtain ⟨w, hw⟩ := Option.isSome_iff_exists.mp hq
  induction p generalizing s q with
  | nil => exact h.elim
  | cons k p ih =>
    cases q with
    | nil => exact (apart_nil_right _ |>.mp h).elim
    | cons l q =>
      obtain ⟨m, u, rfl, hu, hw'⟩ := ownIn_cons_eq_some hw
      have hsome : (get l m).isSome := by rw [hu]; rfl
      cases p with
      | nil =>
        have hkl : k ≠ l := (apart_cons.mp h).resolve_right (by simp)
        have hread : (Json.obj (erase k m)).read l = (Json.obj m).read l := by
          rw [Json.read, Json.read, get_erase_of_ne hkl]
        simp only [setIn_cons_obj, deleteIn, Json.isPlainObject, if_true, Json.members, hread,
          putMember, erase_put_of_ne hkl hsome]
      | cons j p =>
        rw [setIn_cons_obj, deleteIn_cons_obj, deleteIn_cons_obj]
        by_cases hkl : k = l
        · subst hkl
          have h := (apart_cons.mp h).resolve_left (by simp)
          simp only [read_obj_put, Json.read_of_get hu, setIn_cons_obj, putMember, put_put]
          rw [ih h (by rw [hw']; rfl) hw']
        · rw [read_obj_put_of_ne _ (Ne.symm hkl)]
          cases hread : (Json.obj m).read k with
          | none => rfl
          | some v =>
            simp only [setIn_cons_obj, read_obj_put_of_ne _ hkl, putMember,
              put_put_of_ne hkl hsome]

/-! ## Reads beside a write -/

/-- A read below a value that stands at a path reads the value. -/
theorem getIn_append (h : ownIn s p = some a) (q : List Str) : getIn s (p ++ q) = getIn a q := by
  induction p generalizing s with
  | nil =>
    cases h
    rfl
  | cons k p ih =>
    obtain ⟨m, u, rfl, hu, h⟩ := ownIn_cons_eq_some h
    rw [List.cons_append, getIn, Json.read_of_get hu]
    exact ih h

/-- A read beside a write of a path that is there finds what it found. -/
theorem getIn_setIn_of_apart (h : Apart p q) (hp : (ownIn s p).isSome) (x : Json) :
    getIn (setIn (some s) p x) q = getIn s q := by
  obtain ⟨w, hw⟩ := Option.isSome_iff_exists.mp hp
  induction p generalizing s q with
  | nil => exact h.elim
  | cons k p ih =>
    cases q with
    | nil => exact (apart_nil_right _ |>.mp h).elim
    | cons l q =>
      obtain ⟨m, u, rfl, hu, hw'⟩ := ownIn_cons_eq_some hw
      rw [setIn_cons_obj, getIn, getIn]
      by_cases hkl : k = l
      · subst hkl
        have h := (apart_cons.mp h).resolve_left (by simp)
        rw [read_obj_put, Json.read_of_get hu]
        exact ih h (by rw [hw']; rfl) hw'
      · rw [read_obj_put_of_ne _ hkl]
        rfl

/-! ## Reads where a write may make objects

A write makes objects on its way, and what an object inherits can be read from them at once. -/

/-- A path goes on by an inherited name only from objects that are there, or from places that none of
the written paths leads through. -/
def Unmade (P : List Str → Prop) (o : Option Json) (q : List Str) : Prop :=
  ∀ r k q', q = r ++ k :: q' → k ∈ inheritedNames →
    (∃ m, (o.bind fun v => ownIn v r) = some (.obj m)) ∨ ∀ p, P p → Apart p r

/-- The paths below a segment. -/
def Below (P : List Str → Prop) (k : Str) (p : List Str) : Prop := P (k :: p)

theorem Unmade.below {P : List Str → Prop} {l : Str} (h : Unmade P o (l :: q)) :
    Unmade (Below P l) (o.bind fun v => get l v.members) q := by
  intro r k q' hq hk
  rcases h (l :: r) k q' (by rw [hq]; rfl) hk with ⟨m, hm⟩ | hap
  · refine .inl ⟨m, ?_⟩
    rw [← hm, Option.bind_assoc]
    rfl
  · exact .inr fun p hp => (apart_cons.mp (hap _ hp)).resolve_left (by simp)

/-- The object that a path leaves by an inherited name. -/
theorem Unmade.obj {P : List Str → Prop} {l : Str} (h : Unmade P o (l :: q)) (hp : P p)
    (hl : l ∈ inheritedNames) : ∃ m, o = some (.obj m) := by
  rcases h [] l q rfl hl with ⟨m, hm⟩ | hap
  · cases o with
    | none => cases hm
    | some v => exact ⟨m, by simpa [ownIn] using hm⟩
  · exact ((apart_nil_right p).mp (hap p hp)).elim

/-- Below a member that is no own one there is nothing to read on. -/
theorem Unmade.of_none {P : List Str → Prop} (h : Unmade P none q) (o : Option Json) :
    Unmade P o q := by
  intro r k q' hq hk
  refine .inr ((h r k q' hq hk).resolve_left ?_)
  rintro ⟨m, hm⟩
  cases hm

/-- A name that no object inherits is read as an own member, through a copy as well. -/
theorem read_baseOf_of_not_inherited {l : Str} (hl : l ∉ inheritedNames) (o : Option Json) :
    (baseOf o).read l = o.bind fun v => get l v.members := by
  have hproto : l ≠ js "__proto__" := by
    rintro rfl
    exact hl (by simp [inheritedNames])
  cases o with
  | none => simp [baseOf, Json.read, inherited_eq_none hl]
  | some v =>
    cases v with
    | builtin n =>
      simp only [baseOf]
      split <;> simp [Json.read, hproto, inherited_eq_none hl, Json.members]
    | obj m => simp [baseOf, Json.isPlainObject, Json.members, Json.read_of_not_inherited hl]
    | _ => simp [baseOf, Json.isPlainObject, Json.read, inherited_eq_none hl, Json.members]

/-- A read below an own name. -/
theorem getIn_cons_of_not_inherited {l : Str} (hl : l ∉ inheritedNames) (v : Json) (q : List Str) :
    getIn v (l :: q) = (get l v.members).bind fun w => getIn w q := by
  have hproto : l ≠ js "__proto__" := by
    rintro rfl
    exact hl (by simp [inheritedNames])
  cases v with
  | obj m => simp [getIn, Json.isPlainObject, Json.members, Json.read_of_not_inherited hl]
  | builtin n => simp [getIn, Json.read, hproto, inherited_eq_none hl, Json.members]
  | _ => rfl

/-- What an object reads at a name goes on unmade as its own member does. -/
theorem Unmade.read {P : List Str → Prop} {m : List (Str × Json)} {l : Str}
    (h : Unmade P (some (.obj m)) (l :: q)) : Unmade (Below P l) ((Json.obj m).read l) q := by
  have hbelow : Unmade (Below P l) (get l m) q := h.below
  cases hget : get l m with
  | some w => rwa [Json.read_of_get hget, ← hget]
  | none =>
    rw [hget] at hbelow
    exact hbelow.of_none _

/-- A read beside a write that makes no object which it goes through. -/
theorem getIn_setIn_of_unmade {P : List Str → Prop} (h : Apart p q) (hp : P p)
    (hmade : Unmade P o q) (x : Json) :
    getIn (setIn o p x) q = o.bind fun v => getIn v q := by
  induction p generalizing o q P with
  | nil => exact h.elim
  | cons k p ih =>
    cases q with
    | nil => exact (apart_nil_right _ |>.mp h).elim
    | cons l q =>
      by_cases hl : l ∈ inheritedNames
      · obtain ⟨m, rfl⟩ := hmade.obj hp hl
        rw [setIn_cons_obj, getIn, Option.bind_some, getIn]
        by_cases hkl : k = l
        · subst hkl
          have h := (apart_cons.mp h).resolve_left (by simp)
          rw [read_obj_put, Option.bind_some, ih h (P := Below P k) hp hmade.read]
          rfl
        · rw [read_obj_put_of_ne _ hkl]
          rfl
      · have hread : (o.bind fun v => getIn v (l :: q)) =
            (o.bind fun v => get l v.members).bind fun w => getIn w q := by
          rw [Option.bind_assoc]
          simp only [getIn_cons_of_not_inherited hl]
        rw [hread, setIn, getIn_cons_of_not_inherited hl, Json.members]
        by_cases hkl : k = l
        · subst hkl
          have h := (apart_cons.mp h).resolve_left (by simp)
          rw [get_put_self, Option.bind_some, read_baseOf_of_not_inherited hl,
            ih h (P := Below P k) hp hmade.below]
        · have hmembers : get l (baseOf o).members = o.bind fun v => get l v.members := by
            cases o with
            | none => rfl
            | some v => rw [members_baseOf]; rfl
          rw [get_put_of_ne hkl, hmembers]

/-- A deletion leaves no members in what is no object, or a copy of what they were. -/
theorem members_deleteIn_builtin {n l : Str} (hl : l ∉ inheritedNames) (h : Apart p (l :: q)) :
    ((get l (deleteIn (some (.builtin n)) p).members).bind fun w => getIn w q) = none := by
  have hproto : l ≠ js "__proto__" := by
    rintro rfl
    exact hl (by simp [inheritedNames])
  cases p with
  | nil => exact h.elim
  | cons k p =>
    cases p with
    | nil =>
      simp only [deleteIn]
      split <;> rfl
    | cons j p =>
      simp only [deleteIn]
      split
      · split
        · next w hw =>
          have hkl : k ≠ l := by
            rintro rfl
            simp [Json.read, hproto, inherited_eq_none hl] at hw
          rw [Json.members, get_put_of_ne hkl]
          rfl
        · rfl
      · rfl

/-- A read beside a deletion that makes no object which it goes through. -/
theorem getIn_deleteIn_of_unmade {P : List Str → Prop} (h : Apart p q) (hp : P p)
    (hmade : Unmade P (some s) q) : getIn (deleteIn (some s) p) q = getIn s q := by
  induction p generalizing s q P with
  | nil => exact h.elim
  | cons k p ih =>
    cases q with
    | nil => exact (apart_nil_right _ |>.mp h).elim
    | cons l q =>
      have hl : (∀ m, s ≠ .obj m) → l ∉ inheritedNames := by
        intro hs hl
        obtain ⟨m, hm⟩ := hmade.obj hp hl
        exact hs m (Option.some.inj hm)
      cases s with
      | obj m =>
        cases p with
        | nil =>
          have hkl : k ≠ l := (apart_cons.mp h).resolve_right (by simp)
          have hread : (Json.obj (erase k m)).read l = (Json.obj m).read l := by
            rw [Json.read, Json.read, get_erase_of_ne hkl]
          simp only [deleteIn, Json.isPlainObject, if_true, Json.members, getIn, hread]
        | cons j p =>
          rw [deleteIn_cons_obj]
          cases hk : (Json.obj m).read k with
          | none => rfl
          | some w =>
            dsimp only
            rw [getIn, getIn]
            by_cases hkl : k = l
            · subst hkl
              have h := (apart_cons.mp h).resolve_left (by simp)
              have hread := hmade.read
              rw [hk] at hread
              rw [read_obj_put, hk, Option.bind_some, Option.bind_some,
                ih h (P := Below P k) hp hread]
              rfl
            · rw [read_obj_put_of_ne _ hkl]
              rfl
      | builtin n =>
        have hl := hl (fun m hm => by cases hm)
        rw [getIn_cons_of_not_inherited hl, members_deleteIn_builtin hl h,
          getIn_cons_of_not_inherited hl]
        rfl
      | null =>
        have hl := hl (fun m hm => by cases hm)
        rw [getIn_cons_of_not_inherited hl, getIn_cons_of_not_inherited hl]
        rfl
      | _ => cases p <;> rfl

/-- A path is not apart from one that it leads to. -/
theorem not_apart_append (p q : List Str) : ¬Apart p (p ++ q) := by
  induction p with
  | nil => exact id
  | cons k p ih => simpa using ih

/-- A write beside a path keeps the objects on it. -/
theorem obj_setIn_of_apart {m : List (Str × Json)} (h : Apart p (q ++ r))
    (hq : ownIn s q = some (.obj m)) (x : Json) :
    ∃ m', ownIn (setIn (some s) p x) q = some (.obj m') := by
  rcases apart_or_append p q with hap | ⟨t, rfl⟩ | ⟨k, t, rfl⟩
  · exact ⟨m, by rw [ownIn_setIn_of_apart hap, hq]⟩
  · rw [List.append_assoc] at h
    exact (not_apart_append _ _ h).elim
  · obtain ⟨o, ho, -⟩ := ownIn_setIn_prefix s q k t x
    exact ⟨_, ho⟩

theorem obj_deleteIn_of_apart {m : List (Str × Json)} (h : Apart p (q ++ r))
    (hq : ownIn s q = some (.obj m)) : ∃ m', ownIn (deleteIn (some s) p) q = some (.obj m') := by
  rcases apart_or_append p q with hap | ⟨t, rfl⟩ | ⟨k, t, rfl⟩
  · exact ⟨m, by rw [ownIn_deleteIn_of_apart hap, hq]⟩
  · rw [List.append_assoc] at h
    exact (not_apart_append _ _ h).elim
  · rw [ownIn_deleteIn_along hq]
    cases t with
    | nil => exact ⟨_, rfl⟩
    | cons j t =>
      rw [deleteIn_cons_obj]
      split <;> exact ⟨_, rfl⟩

/-- A path stays unmade behind a write beside it. -/
theorem Unmade.of_apart {P : List Str → Prop} {t : Json} (h : Unmade P (some s) q)
    (hobj : ∀ r r' m, q = r ++ r' → ownIn s r = some (.obj m) → ∃ m', ownIn t r = some (.obj m')) :
    Unmade P (some t) q := by
  intro r k q' hq hk
  rcases h r k q' hq hk with ⟨m, hm⟩ | hap
  · exact .inl (hobj r _ m hq hm)
  · exact .inr hap

end ParadigmTerra
