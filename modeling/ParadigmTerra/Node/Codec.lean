import ParadigmTerra.Node.JsonText
import ParadigmTerra.Shape

/-!
# The tagged codecs

The log and the snapshots are JSON texts in which bigints and byte arrays are objects with one member,
a tag. The writer replaces them on the way out, the reader revives every object that looks like one on
the way in, whoever made it.

`revive_replacer` says exactly when that is lossless: the value has no function in it, which the writer
omits, and no object of its own that looks like a tagged one.
-/

namespace ParadigmTerra

open Text OrderedMap Fallible JsonText

def BIGINT_TAG : Str := js "$bigint"

def BYTES_TAG : Str := js "$bytes"

/-! ## Writing -/

mutual

/-- What `JSON.stringify` writes of a value after the replacer, `none` where it omits the value. -/
def replacer : Json → Option Raw
  | .null => some .null
  | .bool b => some (.bool b)
  | .int n => some (.obj [(BIGINT_TAG, .str (decimal n))])
  | .str s => some (.str s)
  | .arr xs => some (.arr (replacerElements xs))
  | .obj m => some (.obj (replacerMembers m))
  | .builtin k => if k = js "__proto__" then some (.obj []) else none

/-- An element that is omitted is written as `null`. -/
def replacerElements : List Json → List Raw
  | [] => []
  | x :: xs => (replacer x).getD .null :: replacerElements xs

def replacerMembers : List (Str × Json) → List (Str × Raw)
  | [] => []
  | (k, x) :: m =>
    match replacer x with
    | some r => (k, r) :: replacerMembers m
    | none => replacerMembers m

end

/-! ## Reading -/

/-- A value that has been read: besides the values of the state a number or a byte array. -/
inductive Js
  | null
  | bool (b : Bool)
  | num (lexeme : Str)
  | big (n : ℤ)
  | bytes (b : List UInt8)
  | str (s : Str)
  | arr (xs : List Js)
  | obj (m : List (Str × Js))
  | builtin (name : Str)

/-- The tags of a reader, each with what it makes of the text. -/
abbrev Tags := List (Str × (Str → Except Throw Js))

/-- `BigInt(s)`. -/
def reviveBigint (s : Str) : Except Throw Js := do
  let n ← bigIntOfStr s
  pure (.big n)

/-- `fromHex(s)`. -/
def reviveBytes (s : Str) : Except Throw Js := do
  let b ← fromHex s
  pure (.bytes b)

/-- The tag of the log. -/
def walTags : Tags := [(BIGINT_TAG, reviveBigint)]

/-- The tags of the snapshots. -/
def snapshotTags : Tags := [(BIGINT_TAG, reviveBigint), (BYTES_TAG, reviveBytes)]

/-- The reviver on an object whose members are revived already. -/
def reviver (tags : Tags) (m : List (Str × Js)) : Except Throw Js :=
  match m with
  | [(k, .str s)] =>
    match get k tags with
    | some f => f s
    | none => pure (.obj m)
  | _ => pure (.obj m)

mutual

/-- What `JSON.parse` makes of a value with the reviver. -/
def revive (tags : Tags) : Raw → Except Throw Js
  | .null => pure .null
  | .bool b => pure (.bool b)
  | .num l => pure (.num l)
  | .str s => pure (.str s)
  | .arr xs => do
    let ys ← reviveElements tags xs
    pure (.arr ys)
  | .obj m => do
    let m' ← reviveMembers tags m
    reviver tags m'

def reviveElements (tags : Tags) : List Raw → Except Throw (List Js)
  | [] => pure []
  | x :: xs => do
    let y ← revive tags x
    let ys ← reviveElements tags xs
    pure (y :: ys)

def reviveMembers (tags : Tags) : List (Str × Raw) → Except Throw (List (Str × Js))
  | [] => pure []
  | (k, x) :: m => do
    let y ← revive tags x
    let m' ← reviveMembers tags m
    pure ((k, y) :: m')

end

/-! ## The values of the state among those that are read -/

mutual

def Json.toJs : Json → Js
  | .null => .null
  | .bool b => .bool b
  | .int n => .big n
  | .str s => .str s
  | .arr xs => .arr (elementsToJs xs)
  | .obj m => .obj (membersToJs m)
  | .builtin k => .builtin k

def elementsToJs : List Json → List Js
  | [] => []
  | x :: xs => x.toJs :: elementsToJs xs

def membersToJs : List (Str × Json) → List (Str × Js)
  | [] => []
  | (k, x) :: m => (k, x.toJs) :: membersToJs m

end

mutual

/-- A value that has been read, used as one of the state. -/
def Js.toJson? : Js → Option Json
  | .null => some .null
  | .bool b => some (.bool b)
  | .num _ => none
  | .big n => some (.int n)
  | .bytes _ => none
  | .str s => some (.str s)
  | .arr xs => (elementsToJson? xs).map .arr
  | .obj m => (membersToJson? m).map .obj
  | .builtin k => some (.builtin k)

def elementsToJson? : List Js → Option (List Json)
  | [] => some []
  | x :: xs =>
    match x.toJson?, elementsToJson? xs with
    | some y, some ys => some (y :: ys)
    | _, _ => none

def membersToJson? : List (Str × Js) → Option (List (Str × Json))
  | [] => some []
  | (k, x) :: m =>
    match x.toJson?, membersToJson? m with
    | some y, some m' => some ((k, y) :: m')
    | _, _ => none

end

mutual

/-- A value of the state is itself when it is read. -/
theorem toJson?_toJs (v : Json) : v.toJs.toJson? = some v := by
  cases v with
  | arr xs => rw [Json.toJs, Js.toJson?, elementsToJson?_toJs xs, Option.map_some]
  | obj m => rw [Json.toJs, Js.toJson?, membersToJson?_toJs m, Option.map_some]
  | _ => rfl

theorem elementsToJson?_toJs (xs : List Json) : elementsToJson? (elementsToJs xs) = some xs := by
  cases xs with
  | nil => rfl
  | cons x xs => rw [elementsToJs, elementsToJson?, toJson?_toJs x, elementsToJson?_toJs xs]

theorem membersToJson?_toJs (m : List (Str × Json)) : membersToJson? (membersToJs m) = some m := by
  cases m with
  | nil => rfl
  | cons e m =>
    obtain ⟨k, x⟩ := e
    rw [membersToJs, membersToJson?, toJson?_toJs x, membersToJson?_toJs m]

end

/-- Different values of the state are different when they are read. -/
theorem toJs_inj {v w : Json} (h : v.toJs = w.toJs) : v = w := by
  have hv := toJson?_toJs v
  rw [h, toJson?_toJs, Option.some.injEq] at hv
  exact hv.symm

/-! ## The round trip -/

/-- Tags that revive bigints, and never make an object. -/
structure Tags.Sound (tags : Tags) : Prop where
  bigint : get BIGINT_TAG tags = some reviveBigint
  not_obj : ∀ k f s m, get k tags = some f → f s ≠ .ok (.obj m)

theorem reviveBigint_ne_obj {s : Str} {m : List (Str × Js)} : reviveBigint s ≠ .ok (.obj m) := by
  simp [reviveBigint]

theorem reviveBytes_ne_obj {s : Str} {m : List (Str × Js)} : reviveBytes s ≠ .ok (.obj m) := by
  simp [reviveBytes]

theorem walTags_sound : walTags.Sound where
  bigint := by simp [walTags, OrderedMap.get]
  not_obj := by
    intro k f s m h
    simp only [walTags, OrderedMap.get] at h
    split_ifs at h
    cases h
    exact reviveBigint_ne_obj

theorem snapshotTags_sound : snapshotTags.Sound where
  bigint := by simp [snapshotTags, OrderedMap.get]
  not_obj := by
    intro k f s m h
    simp only [snapshotTags, OrderedMap.get] at h
    split_ifs at h
    · cases h
      exact reviveBigint_ne_obj
    · cases h
      exact reviveBytes_ne_obj

section

variable {tags : Tags}

/-- A value comes back as it was. -/
def RoundTrips (tags : Tags) (v : Json) : Prop :=
  ∃ r, replacer v = some r ∧ revive tags r = .ok v.toJs

theorem reviver_eq_obj (htags : tags.Sound) {m m' : List (Str × Js)} (h : reviver tags m = .ok (.obj m')) : m' = m := by
  unfold reviver at h
  split at h
  · next k s =>
    cases hk : get k tags with
    | some f =>
      rw [hk] at h
      exact absurd h (htags.not_obj k f s m' hk)
    | none =>
      rw [hk] at h
      cases h
      rfl
  · cases h
    rfl

theorem get_isSome_iff {α : Type*} {k : Str} {m : List (Str × α)} :
    (get k m).isSome = true ↔ k ∈ m.map Prod.fst := by
  rw [Option.isSome_iff_ne_none, ne_eq, get_eq_none_iff, List.mem_map]
  push Not
  constructor
  · rintro ⟨e, he, hk⟩
    exact ⟨e, he, hk⟩
  · rintro ⟨e, he, hk⟩
    exact ⟨e, he, hk⟩

/-- The reviver leaves an object alone unless it looks like a tagged value. -/
theorem reviver_membersToJs (htags : tags.Sound) {m : List (Str × Json)} :
    reviver tags (membersToJs m) = .ok (.obj (membersToJs m)) ↔
      isTagged (tags.map Prod.fst) m = false := by
  by_cases h : ∃ k s, m = [(k, .str s)]
  · obtain ⟨k, s, rfl⟩ := h
    have hm : membersToJs [(k, Json.str s)] = [(k, .str s)] := rfl
    have hk := get_isSome_iff (k := k) (m := tags)
    rw [hm, reviver, isTagged, decide_eq_false_iff_not, ← hk]
    cases hf : get k tags with
    | some f => simp [htags.not_obj k f s _ hf]
    | none => simp
  · have htagged : isTagged (tags.map Prod.fst) m = false := by
      unfold isTagged
      split
      · exact absurd ⟨_, _, rfl⟩ h
      · rfl
    refine iff_of_true ?_ htagged
    unfold reviver
    split
    · next k s heq =>
      refine absurd ?_ h
      cases m with
      | nil => cases heq
      | cons e m =>
        obtain ⟨l, x⟩ := e
        rw [membersToJs, List.cons.injEq, Prod.mk.injEq] at heq
        obtain ⟨⟨rfl, hx⟩, hm⟩ := heq
        obtain rfl : x = .str s := toJs_inj hx
        cases m with
        | nil => exact ⟨_, _, rfl⟩
        | cons e m => cases hm
    · rfl

theorem length_reviveMembers {m : List (Str × Raw)} {m' : List (Str × Js)}
    (h : reviveMembers tags m = .ok m') : m'.length = m.length := by
  induction m generalizing m' with
  | nil =>
    cases h
    rfl
  | cons e m ih =>
    obtain ⟨k, x⟩ := e
    simp only [reviveMembers, bind_eq_ok, pure_eq_ok] at h
    obtain ⟨y, -, l, hl, rfl⟩ := h
    rw [List.length_cons, ih hl, List.length_cons]

theorem length_replacerMembers (m : List (Str × Json)) : (replacerMembers m).length ≤ m.length := by
  induction m with
  | nil => simp [replacerMembers]
  | cons e m ih =>
    obtain ⟨k, x⟩ := e
    rw [replacerMembers, List.length_cons]
    split
    · rw [List.length_cons]
      omega
    · omega

theorem length_membersToJs (m : List (Str × Json)) : (membersToJs m).length = m.length := by
  induction m with
  | nil => rfl
  | cons e m ih =>
    obtain ⟨k, x⟩ := e
    rw [membersToJs, List.length_cons, ih, List.length_cons]

mutual

/-- The codec is lossless on exactly the values without a function and without an object that looks
like a tagged one. -/
theorem revive_replacer (htags : tags.Sound) (v : Json) :
    RoundTrips tags v ↔ v.fits (lossless (tags.map Prod.fst)) = true := by
  cases v with
  | int n =>
    refine iff_of_true ⟨_, rfl, ?_⟩ rfl
    have hbig : reviver tags [(BIGINT_TAG, .str (decimal n))] = .ok (.big n) := by
      simp only [reviver, htags.bigint, reviveBigint, bigIntOfStr_decimal]
      rfl
    exact hbig
  | arr xs =>
    have h := revive_replacerElements htags xs
    rw [Json.fits, ← h]
    constructor
    · rintro ⟨r, hr, hrev⟩
      cases hr
      simp only [revive, bind_eq_ok, pure_eq_ok, Json.toJs, Js.arr.injEq] at hrev
      obtain ⟨ys, hys, rfl⟩ := hrev
      exact hys
    · intro hrev
      refine ⟨_, rfl, ?_⟩
      rw [revive, hrev]
      rfl
  | obj m =>
    have h := revive_replacerMembers htags m
    have htagged := reviver_membersToJs htags (m := m)
    have hfits : (Json.obj m).fits (lossless (tags.map Prod.fst)) = true ↔
        isTagged (tags.map Prod.fst) m = false ∧
          fitsMembers (lossless (tags.map Prod.fst)) m = true := by
      simp [Json.fits, lossless, tagFree, functionFree, Shape.and]
    rw [hfits, ← h, ← htagged]
    constructor
    · rintro ⟨r, hr, hrev⟩
      cases hr
      simp only [revive, bind_eq_ok] at hrev
      obtain ⟨m', hm', hrev⟩ := hrev
      obtain rfl := reviver_eq_obj htags hrev
      exact ⟨hrev, hm'⟩
    · rintro ⟨hrev, hm⟩
      refine ⟨_, rfl, ?_⟩
      rw [revive, hm]
      exact hrev
  | builtin k =>
    refine iff_of_false ?_ (by simp [Json.fits, lossless, tagFree, functionFree, Shape.and])
    rintro ⟨r, hr, hrev⟩
    rw [replacer] at hr
    split_ifs at hr
    cases hr
    cases hrev
  | null => exact iff_of_true ⟨_, rfl, rfl⟩ rfl
  | bool b => exact iff_of_true ⟨_, rfl, rfl⟩ rfl
  | str s => exact iff_of_true ⟨_, rfl, rfl⟩ rfl

theorem revive_replacerElements (htags : tags.Sound) (xs : List Json) :
    reviveElements tags (replacerElements xs) = .ok (elementsToJs xs) ↔
      fitsElements (lossless (tags.map Prod.fst)) xs = true := by
  cases xs with
  | nil => exact iff_of_true rfl rfl
  | cons x xs =>
    have hx := revive_replacer htags x
    have hxs := revive_replacerElements htags xs
    rw [fitsElements, Bool.and_eq_true, ← hx, ← hxs]
    simp only [replacerElements, reviveElements, elementsToJs, bind_eq_ok, pure_eq_ok,
      List.cons.injEq]
    constructor
    · rintro ⟨y, hy, ys, hys, rfl, rfl⟩
      refine ⟨?_, hys⟩
      cases hr : replacer x with
      | some r =>
        rw [hr, Option.getD_some] at hy
        exact ⟨r, hr, hy⟩
      | none =>
        -- a function is written as `null`
        rw [hr, Option.getD_none] at hy
        cases x with
        | builtin k => cases hy
        | _ => cases hr
    · rintro ⟨⟨r, hr, hrev⟩, hys⟩
      exact ⟨_, by rw [hr]; exact hrev, _, hys, rfl, rfl⟩

theorem revive_replacerMembers (htags : tags.Sound) (m : List (Str × Json)) :
    reviveMembers tags (replacerMembers m) = .ok (membersToJs m) ↔
      fitsMembers (lossless (tags.map Prod.fst)) m = true := by
  cases m with
  | nil => exact iff_of_true rfl rfl
  | cons e m =>
    obtain ⟨k, x⟩ := e
    have hx := revive_replacer htags x
    have hm := revive_replacerMembers htags m
    rw [fitsMembers, Bool.and_eq_true, ← hx, ← hm, RoundTrips, replacerMembers]
    cases hr : replacer x with
    | some r =>
      simp only [reviveMembers, membersToJs, bind_eq_ok, pure_eq_ok, List.cons.injEq,
        Prod.mk.injEq, true_and, Option.some.injEq, exists_eq_left']
      constructor
      · rintro ⟨y, hy, m', hm', rfl, rfl⟩
        exact ⟨hy, hm'⟩
      · rintro ⟨hy, hm'⟩
        exact ⟨_, hy, _, hm', rfl, rfl⟩
    | none =>
      -- a function is omitted, so that a member is missing
      refine iff_of_false (fun h => ?_) (by simp)
      have hlen := length_reviveMembers h
      have hle := length_replacerMembers m
      rw [length_membersToJs, List.length_cons] at hlen
      simp only at hlen
      omega

end

end

end ParadigmTerra
