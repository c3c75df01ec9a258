import ParadigmTerra.Reducer.State

/-!
# Shapes of values

A shape says something about every part of a value: its strings, the members of its objects, and the
inherited values in it. The invariants of stored values are shapes. `fits_setIn` and `fits_deleteIn` say
that the reducer's writes keep a shape.
-/

namespace ParadigmTerra

open Text OrderedMap

/-- What holds of the parts of a value. -/
structure Shape where
  str : Str → Bool
  members : List (Str × Json) → Bool
  builtin : Str → Bool

mutual

/-- Every part of the value has the shape. -/
def Json.fits (S : Shape) : Json → Bool
  | .str s => S.str s
  | .arr xs => fitsElements S xs
  | .obj m => S.members m && fitsMembers S m
  | .builtin k => S.builtin k
  | .null | .bool _ | .int _ => true

def fitsElements (S : Shape) : List Json → Bool
  | [] => true
  | x :: xs => x.fits S && fitsElements S xs

def fitsMembers (S : Shape) : List (Str × Json) → Bool
  | [] => true
  | (_, x) :: m => x.fits S && fitsMembers S m

end

variable {S : Shape}

theorem fitsElements_iff {xs : List Json} : fitsElements S xs = true ↔ ∀ x ∈ xs, x.fits S = true := by
  induction xs with
  | nil => simp [fitsElements]
  | cons x xs ih => simp [fitsElements, ih]

theorem fitsMembers_iff {m : List (Str × Json)} :
    fitsMembers S m = true ↔ ∀ e ∈ m, e.2.fits S = true := by
  induction m with
  | nil => simp [fitsMembers]
  | cons e m ih =>
    obtain ⟨k, x⟩ := e
    simp only [fitsMembers, Bool.and_eq_true, ih, List.forall_mem_cons]

/-- The members of each object in their order: what every value of the language has. -/
def ordered : Shape := ⟨fun _ => true, fun m => decide (Normal keyBefore m), fun _ => true⟩

/-- No function. -/
def functionFree : Shape := ⟨fun _ => true, fun _ => true, fun _ => false⟩

/-- A single member with a string, under one of the names. -/
def isTagged (names : List Str) : List (Str × Json) → Bool
  | [(k, .str _)] => k ∈ names
  | _ => false

/-- No object that could be taken for a tagged value. -/
def tagFree (names : List Str) : Shape := ⟨fun _ => true, fun m => !isTagged names m, fun _ => true⟩

/-- Both shapes. -/
def Shape.and (S T : Shape) : Shape :=
  ⟨fun s => S.str s && T.str s, fun m => S.members m && T.members m,
    fun k => S.builtin k && T.builtin k⟩

mutual

theorem fits_and (S T : Shape) (v : Json) : v.fits (S.and T) = (v.fits S && v.fits T) := by
  cases v with
  | arr xs => exact fitsElements_and S T xs
  | obj m =>
    rw [Json.fits, Json.fits, Json.fits, fitsMembers_and S T m]
    simp only [Shape.and]
    ac_rfl
  | _ => rfl

theorem fitsElements_and (S T : Shape) (xs : List Json) :
    fitsElements (S.and T) xs = (fitsElements S xs && fitsElements T xs) := by
  cases xs with
  | nil => rfl
  | cons x xs =>
    simp only [fitsElements, fits_and S T x, fitsElements_and S T xs]
    ac_rfl

theorem fitsMembers_and (S T : Shape) (m : List (Str × Json)) :
    fitsMembers (S.and T) m = (fitsMembers S m && fitsMembers T m) := by
  cases m with
  | nil => rfl
  | cons e m =>
    obtain ⟨k, x⟩ := e
    simp only [fitsMembers, fits_and S T x, fitsMembers_and S T m]
    ac_rfl

end

/-- No function, and no object that could be taken for a tagged value. -/
def lossless (names : List Str) : Shape := (tagFree names).and functionFree

theorem lossless_iff {names : List Str} {v : Json} :
    v.fits (lossless names) = true ↔ v.fits (tagFree names) = true ∧ v.fits functionFree = true := by
  rw [lossless, fits_and, Bool.and_eq_true]

/-! ## Reading -/

/-- A value of the shape, or one that a read found without an own member. -/
def Json.Sound (S : Shape) (v : Json) : Prop := v.fits S = true ∨ v.IsInherited

theorem fits_of_get {v w : Json} {k : Str} (hv : v.fits S = true) (h : get k v.members = some w) :
    w.fits S = true := by
  cases v with
  | obj m =>
    simp only [Json.fits, Bool.and_eq_true] at hv
    exact fitsMembers_iff.mp hv.2 _ (mem_of_get h)
  | _ => cases h

theorem fits_of_ownIn {v w : Json} {p : List Str} (hv : v.fits S = true) (h : ownIn v p = some w) :
    w.fits S = true := by
  induction p generalizing v with
  | nil =>
    cases h
    exact hv
  | cons k p ih =>
    rw [ownIn, Option.bind_eq_some_iff] at h
    obtain ⟨x, hx, h⟩ := h
    exact ih (fits_of_get hv hx) h

theorem sound_of_read {v w : Json} {k : Str} (hv : v.Sound S) (h : v.read k = some w) :
    w.Sound S := by
  rcases v.read_eq_or k with hr | ⟨-, x, hr, hi⟩
  · rw [hr] at h
    rcases hv with hv | hv
    · exact .inl (fits_of_get hv h)
    · rw [hv.members] at h
      cases h
  · rw [hr] at h
    cases h
    exact .inr hi

theorem sound_of_getIn {v w : Json} {p : List Str} (hv : v.fits S = true)
    (h : getIn v p = some w) : w.Sound S := by
  rcases getIn_eq_or v p with hg | ⟨-, x, hg, hi⟩
  · exact .inl (fits_of_ownIn hv (hg ▸ h))
  · rw [hg] at h
    cases h
    exact .inr hi

/-- Under a name that no object inherits stands a value of the shape. -/
theorem fits_of_read {v w : Json} {k : Str} (hv : v.Sound S) (hk : k ∉ inheritedNames)
    (h : v.read k = some w) : w.fits S = true := by
  rcases hv with hv | hv
  · cases v with
    | obj m => exact fits_of_get hv (by rwa [Json.read_of_not_inherited hk] at h)
    | builtin n =>
      have hproto : k ≠ js "__proto__" := by
        rintro rfl
        exact hk (by simp [inheritedNames])
      simp [Json.read, hproto, inherited_eq_none hk] at h
    | _ => cases h
  · cases v with
    | builtin n =>
      have hproto : k ≠ js "__proto__" := by
        rintro rfl
        exact hk (by simp [inheritedNames])
      simp [Json.read, hproto, inherited_eq_none hk] at h
    | null => cases h
    | _ => exact hv.elim

/-! ## Writing -/

/-- A string of ASCII units. -/
def isAscii (s : Str) : Bool := s.all fun u => u.toNat < 0x80

/-- A shape that the reducer's writes keep: the keys that are written are strings of the shape. -/
structure Shape.Closed (S : Shape) : Prop where
  nil : S.members [] = true
  put : ∀ k v m, S.str k = true → S.members m = true → S.members (putMember k v m) = true
  erase : ∀ k m, S.members m = true → S.members (erase k m) = true
  ascii : ∀ s, isAscii s = true → S.str s = true
  text : ∀ v s, v.fits S = true → stringOf v = .ok s → S.str s = true

theorem fitsMembers_put {k : Str} {v : Json} {m : List (Str × Json)} (hv : v.fits S = true)
    (hm : fitsMembers S m = true) : fitsMembers S (putMember k v m) = true := by
  rw [fitsMembers_iff] at hm ⊢
  intro e he
  rcases mem_put he with rfl | he
  · exact hv
  · exact hm e he

theorem fitsMembers_erase {k : Str} {m : List (Str × Json)} (hm : fitsMembers S m = true) :
    fitsMembers S (OrderedMap.erase k m) = true := by
  rw [fitsMembers_iff] at hm ⊢
  exact fun e he => hm e (mem_erase.mp he).1

theorem fits_put (hS : S.Closed) {k : Str} {v : Json} {m : List (Str × Json)}
    (hk : S.str k = true) (hv : v.fits S = true) (hm : (Json.obj m).fits S = true) :
    (Json.obj (putMember k v m)).fits S = true := by
  simp only [Json.fits, Bool.and_eq_true] at hm ⊢
  exact ⟨hS.put k v m hk hm.1, fitsMembers_put hv hm.2⟩

/-- The members that a write copies. -/
theorem fits_members_baseOf (hS : S.Closed) {o : Option Json} (ho : ∀ w, o = some w → w.Sound S) :
    (Json.obj (baseOf o).members).fits S = true := by
  have hnil : (Json.obj []).fits S = true := by simp [Json.fits, fitsMembers, hS.nil]
  cases o with
  | none => exact hnil
  | some w =>
    rw [members_baseOf]
    rcases ho w rfl with h | h
    · cases w with
      | obj m => exact h
      | _ => exact hnil
    · rw [h.members]
      exact hnil

/-- What a write reads further down. -/
theorem sound_read_baseOf {o : Option Json} (ho : ∀ w, o = some w → w.Sound S) (k : Str) :
    ∀ w, (baseOf o).read k = some w → w.Sound S := by
  intro w hw
  rcases (baseOf o).read_eq_or k with hr | ⟨-, x, hr, hi⟩
  · rw [hr] at hw
    cases o with
    | none => cases hw
    | some v =>
      rw [members_baseOf] at hw
      rcases ho v rfl with h | h
      · exact .inl (fits_of_get h hw)
      · rw [h.members] at hw
        cases hw
  · rw [hr] at hw
    cases hw
    exact .inr hi

/-- A write keeps a shape. -/
theorem fits_setIn (hS : S.Closed) {o : Option Json} {p : List Str} {v : Json}
    (hp : ∀ k ∈ p, S.str k = true) (ho : ∀ w, o = some w → w.Sound S) (hv : v.fits S = true) :
    (setIn o p v).fits S = true := by
  induction p generalizing o with
  | nil => exact hv
  | cons k p ih =>
    rw [setIn]
    exact fits_put hS (hp k (by simp))
      (ih (fun j hj => hp j (by simp [hj])) (sound_read_baseOf ho k)) (fits_members_baseOf hS ho)

/-- A deletion goes through own members only, so that it copies nothing inherited. -/
def deletesOwn : Json → List Str → Bool
  | v, k :: l :: p =>
    match get k v.members with
    | some w => deletesOwn w (l :: p)
    | none => (v.read k).isNone
  | _, _ => true

theorem fits_members (hS : S.Closed) {v : Json} (hv : v.Sound S) :
    (Json.obj v.members).fits S = true := by
  have h := fits_members_baseOf hS (o := some v) fun w hw => by cases hw; exact hv
  rwa [members_baseOf] at h

/-- What is inherited has a shape that allows it. -/
theorem fits_of_sound {v : Json} (hv : v.Sound S) (hb : ∀ k, S.builtin k = true) :
    v.fits S = true := by
  rcases hv with hv | hv
  · exact hv
  · cases v with
    | builtin k => exact hb k
    | null => rfl
    | _ => exact hv.elim

/-- A deletion keeps a shape, if the shape allows what is inherited or nothing inherited is copied. -/
theorem fits_deleteIn (hS : S.Closed) {v : Json} {p : List Str} (hp : ∀ k ∈ p, S.str k = true)
    (hv : v.Sound S) (hown : (∀ k, S.builtin k = true) ∨ v.fits S = true ∧ deletesOwn v p = true) :
    (deleteIn (some v) p).fits S = true := by
  have hself : v.fits S = true := hown.elim (fits_of_sound hv) And.left
  have hnil : (Json.obj []).fits S = true := by simp [Json.fits, fitsMembers, hS.nil]
  induction p generalizing v with
  | nil =>
    cases v with
    | null => exact hnil
    | _ => exact hself
  | cons k p ih =>
    cases p with
    | nil =>
      have herase : (Json.obj (OrderedMap.erase k v.members)).fits S = true := by
        have hm := fits_members hS hv
        simp only [Json.fits, Bool.and_eq_true] at hm ⊢
        exact ⟨hS.erase k _ hm.1, fitsMembers_erase hm.2⟩
      cases v with
      | null => exact hnil
      | obj m => exact herase
      | builtin n =>
        simp only [deleteIn]
        split
        · exact herase
        · exact hself
      | _ => exact hself
    | cons l p =>
      -- where the read finds a member, the deletion goes on below it
      have hread : ∀ w, v.read k = some w →
          (Json.obj (putMember k (deleteIn (some w) (l :: p)) v.members)).fits S = true := by
        intro w hw
        have hw' : (∀ k, S.builtin k = true) ∨ w.fits S = true ∧ deletesOwn w (l :: p) = true := by
          refine hown.imp_right fun h => ?_
          rw [deletesOwn] at h
          cases hg : get k v.members with
          | some x =>
            rw [hg] at h
            rw [read_of_get_members hg] at hw
            cases hw
            exact ⟨fits_of_get h.1 hg, h.2⟩
          | none =>
            rw [hg] at h
            rw [hw] at h
            cases h.2
        have hws := sound_of_read hv hw
        exact fits_put hS (hp k (by simp)) (ih (fun j hj => hp j (by simp [hj])) hws hw'
          (hw'.elim (fits_of_sound hws) And.left)) (fits_members hS hv)
      cases v with
      | null => exact hnil
      | obj m =>
        rw [deleteIn_cons_obj]
        cases hr : (Json.obj m).read k with
        | some w => exact hread w hr
        | none => exact hself
      | builtin n =>
        simp only [deleteIn]
        split
        · cases hr : (Json.builtin n).read k with
          | some w => exact hread w hr
          | none => exact hself
        · exact hself
      | _ => exact hself

end ParadigmTerra
