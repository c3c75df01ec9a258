import ParadigmTerra.Canonical.Jcs
import ParadigmTerra.Shape

/-!
# Which values have canonical bytes

`serialize` throws on a string or a key that is not assigned or begins with a byte order mark, and on a
function; on no other value. `canonicalizeValue` first copies the value, which throws on lone surrogates
in strings and on functions, and loses each member named `__proto__`.

`hasBytes_obj` says when an object has canonical bytes: each member that the copy keeps has. What was
written there last decides, so that writing a value with bytes under a canonical key keeps the bytes
(`HasBytes.put`), and it does not matter which of two such values is written (`hasBytes_put_iff`).
-/

namespace ParadigmTerra

open Text OrderedMap Fallible

variable {H : Host}

/-! ## Copies -/

/-- Assignments set the members other than `__proto__`. -/
theorem foldl_assign_eq (l acc : List (Str × Json)) :
    l.foldl (fun out e => assignMember e.1 e.2 out) acc =
      (l.filter fun e => e.1 ≠ js "__proto__").foldl (fun a e => put keyBefore e.1 e.2 a) acc := by
  induction l generalizing acc with
  | nil => rfl
  | cons e l ih =>
    rw [List.foldl_cons, ih]
    by_cases he : e.1 = js "__proto__"
    · simp [assignMember, he]
    · simp [assignMember, he]

/-- What assignments build: distinct keys, each with what was assigned to it. -/
theorem get_foldl_assign {l : List (Str × Json)} (hl : (l.map Prod.fst).Nodup) {k : Str}
    (hk : k ≠ js "__proto__") :
    get k (l.foldl (fun out e => assignMember e.1 e.2 out) []) = get k l := by
  rw [foldl_assign_eq, get_foldl_put (hl.sublist (List.filter_sublist.map _)),
    get_filter_ne hk.symm]
  cases get k l <;> rfl

theorem nodup_foldl_assign (l : List (Str × Json)) :
    ((l.foldl (fun out e => assignMember e.1 e.2 out) []).map Prod.fst).Nodup := by
  rw [foldl_assign_eq]
  exact (Normal.foldl_put keyBefore_trans keyBefore_asymm _ normal_nil).nodup

theorem mem_keys_foldl_assign {l : List (Str × Json)} {e : Str × Json}
    (he : e ∈ l.foldl (fun out e => assignMember e.1 e.2 out) []) : e ∈ l := by
  rw [foldl_assign_eq] at he
  have hgen : ∀ (l acc : List (Str × Json)),
      e ∈ l.foldl (fun a e => put keyBefore e.1 e.2 a) acc → e ∈ l ∨ e ∈ acc := by
    intro l
    induction l with
    | nil => exact fun _ h => .inr h
    | cons f l ih =>
      intro acc h
      rcases ih _ h with h | h
      · exact .inl (List.mem_cons_of_mem _ h)
      · rcases mem_put h with rfl | h
        · exact .inl (by simp)
        · exact .inr h
  rcases hgen _ _ he with h | h
  · exact (List.mem_filter.mp h).1
  · cases h

/-- The profile keeps the members of an object, integers and strings as they are. -/
theorem coerceMembers_eq_ok {m m' : List (Str × Json)} (h : coerceMembers m = .ok m') :
    List.Forall₂ (fun e e' => e'.1 = e.1 ∧ coerceToJcsValue e.2 = .ok e'.2) m m' := by
  induction m generalizing m' with
  | nil =>
    cases h
    exact .nil
  | cons e m ih =>
    obtain ⟨k, x⟩ := e
    simp only [coerceMembers, bind_eq_ok, pure_eq_ok] at h
    obtain ⟨y, hy, ys, hys, rfl⟩ := h
    exact .cons ⟨rfl, hy⟩ (ih hys)

/-- A map whose entries correspond to those of another, key by key. -/
theorem get_forall₂ {α β : Type} {R : α → β → Prop} {l : List (Str × α)} {l' : List (Str × β)}
    (h : List.Forall₂ (fun e e' => e'.1 = e.1 ∧ R e.2 e'.2) l l') {k : Str} {v : α}
    (hk : get k l = some v) : ∃ w, get k l' = some w ∧ R v w := by
  induction h with
  | nil => cases hk
  | @cons e e' l l' he _ ih =>
    obtain ⟨j, x⟩ := e
    obtain ⟨j', x'⟩ := e'
    obtain ⟨rfl, hR⟩ : j' = j ∧ R x x' := he
    rw [OrderedMap.get] at hk ⊢
    split_ifs at hk ⊢ with hj
    · cases hk
      exact ⟨x', rfl, hR⟩
    · exact ih hk

theorem map_fst_forall₂ {α β : Type} {R : α → β → Prop} {l : List (Str × α)} {l' : List (Str × β)}
    (h : List.Forall₂ (fun e e' => e'.1 = e.1 ∧ R e.2 e'.2) l l') :
    l'.map Prod.fst = l.map Prod.fst := by
  induction h with
  | nil => rfl
  | cons he _ ih => rw [List.map_cons, List.map_cons, he.1, ih]

/-! ## Texts -/

theorem serializeMembers_eq (m : List (Str × Json)) :
    serializeMembers H m = m.map fun e => (e.1, serialize H e.2) := by
  induction m with
  | nil => rfl
  | cons e m ih => rw [serializeMembers, ih, List.map_cons]

/-- The members of an object in the order in which they are serialized. -/
def sortedMembers (H : Host) (m : List (Str × Json)) : List (Str × Json) :=
  m.insertionSort fun a b => keyLe H a.1 b.1 = true

/-- A string that the canonical layer takes. -/
def isCanonicalString (H : Host) (s : Str) : Bool :=
  decide (s.head? ≠ some 0xFEFF) && (codePoints s).all H.isAssignedCodePoint

theorem escapeString_returns_iff {s : Str} :
    (∃ t, escapeString H s = .ok t) ↔ isCanonicalString H s = true := by
  simp only [escapeString, assertAssigned, bind_returns_iff, require_eq_ok, isCanonicalString,
    Bool.and_eq_true, decide_eq_true_eq]
  constructor
  · rintro ⟨-, hbom, -, hassigned, -⟩
    exact ⟨hbom, hassigned⟩
  · rintro ⟨hbom, hassigned⟩
    exact ⟨(), hbom, (), hassigned, _, rfl⟩

/-- NFC leaves ASCII strings as they are. -/
def Host.FixesAscii (H : Host) : Prop := ∀ s, isAscii s = true → H.normalize s = s

/-- ASCII strings are assigned and in NFC. -/
structure Host.Ascii (H : Host) : Prop where
  fixes : H.FixesAscii
  assigned : ∀ c < 0x80, H.isAssignedCodePoint c = true

theorem codePoints_of_isAscii {s : Str} (h : isAscii s = true) : ∀ c ∈ codePoints s, c < 0x80 := by
  rw [isAscii, List.all_eq_true] at h
  induction s using codePoints.induct with
  | case1 =>
    intro c hc
    cases hc
  | case2 u =>
    intro c hc
    rw [codePoints, List.mem_singleton] at hc
    have := h u (by simp)
    simp only [decide_eq_true_eq] at this
    omega
  | case3 u v s hp ih =>
    have hu := h u (by simp)
    simp only [isHigh, Bool.and_eq_true, decide_eq_true_eq] at hp hu
    omega
  | case4 u v s hp ih =>
    intro c hc
    rw [codePoints, if_neg hp, List.mem_cons] at hc
    rcases hc with rfl | hc
    · have hu := h u (by simp)
      simpa using hu
    · exact ih (fun w hw => h w (List.mem_cons_of_mem _ hw)) c hc

theorem wellFormed_of_isAscii {s : Str} (h : isAscii s = true) : wellFormed s = true := by
  refine wellFormed_of_forall fun u hu => ?_
  have hu := List.all_eq_true.mp h u hu
  simp only [decide_eq_true_eq] at hu
  constructor
  · simp only [isHigh, Bool.and_eq_false_iff, decide_eq_false_iff_not]
    omega
  · simp only [isLow, Bool.and_eq_false_iff, decide_eq_false_iff_not]
    omega

/-- ASCII strings are canonical. -/
theorem Host.Ascii.isCanonicalString (hH : H.Ascii) {s : Str} (h : isAscii s = true) :
    isCanonicalString H s = true := by
  rw [ParadigmTerra.isCanonicalString, Bool.and_eq_true, decide_eq_true_eq, List.all_eq_true]
  refine ⟨fun hbom => ?_, fun c hc => hH.assigned c (codePoints_of_isAscii h c hc)⟩
  have hu := List.all_eq_true.mp h _ (List.mem_of_mem_head? hbom)
  simp at hu

/-- The bytes of an ASCII string. -/
theorem Host.Ascii.utf8NfcBytes (hH : H.Ascii) {s : Str} (h : isAscii s = true) :
    utf8NfcBytes H s = .ok (utf8Encode s) := by
  have hs := hH.isCanonicalString h
  rw [ParadigmTerra.isCanonicalString, Bool.and_eq_true, decide_eq_true_eq] at hs
  simp only [ParadigmTerra.utf8NfcBytes, assertAssigned, bind_eq_ok, pure_eq_ok, require_eq_ok,
    hH.fixes s h]
  exact ⟨(), hs.1, (), hs.2, (), wellFormed_of_isAscii h, trivial⟩

/-- Canonical strings and keys, no function. -/
def writable (H : Host) : Shape :=
  ⟨isCanonicalString H, fun m => m.all fun e => isCanonicalString H e.1, fun _ => false⟩

theorem writable_obj {m : List (Str × Json)} : (Json.obj m).fits (writable H) = true ↔
    ∀ e ∈ m, isCanonicalString H e.1 = true ∧ e.2.fits (writable H) = true := by
  simp only [Json.fits, writable, Bool.and_eq_true, List.all_eq_true, fitsMembers_iff]
  exact ⟨fun h e he => ⟨h.1 e he, h.2 e he⟩, fun h => ⟨fun e he => (h e he).1, fun e he => (h e he).2⟩⟩

mutual

/-- `serialize` returns on the writable values. -/
theorem serialize_returns_iff (H : Host) (v : Json) :
    (∃ s, serialize H v = .ok s) ↔ v.fits (writable H) = true := by
  cases v with
  | str s => exact escapeString_returns_iff
  | arr xs =>
    rw [serialize, bind_returns_iff]
    have hxs := serializeElements_returns_iff H xs
    constructor
    · rintro ⟨ss, hss, -⟩
      exact hxs.mp ⟨ss, hss⟩
    · intro h
      obtain ⟨ss, hss⟩ := hxs.mpr h
      exact ⟨ss, hss, _, rfl⟩
  | obj m =>
    have hparts : ∀ e : Str × Except Throw Str, (∃ s, (do
        let k ← escapeString H e.1
        let v ← e.2
        pure (k ++ js ":" ++ v) : Except Throw Str) = .ok s) ↔
        isCanonicalString H e.1 = true ∧ ∃ t, e.2 = .ok t := by
      intro e
      rw [bind_returns_iff, ← escapeString_returns_iff]
      constructor
      · rintro ⟨k, hk, h⟩
        obtain ⟨t, ht, -⟩ := bind_returns_iff.mp h
        exact ⟨⟨k, hk⟩, t, ht⟩
      · rintro ⟨⟨k, hk⟩, t, ht⟩
        exact ⟨k, hk, bind_returns_iff.mpr ⟨t, ht, _, rfl⟩⟩
    rw [serialize, bind_returns_iff, writable_obj, serializeMembers_eq]
    have hm := serializeMembers_returns_iff H m
    have hmem : ∀ e, e ∈ (m.map fun e => (e.1, serialize H e.2)).insertionSort
        (fun a b => keyLe H a.1 b.1 = true) ↔ ∃ f ∈ m, (f.1, serialize H f.2) = e := by
      intro e
      rw [(List.perm_insertionSort _ _).mem_iff, List.mem_map]
    constructor
    · rintro ⟨parts, hp, -⟩ e he
      obtain ⟨hk, ht⟩ := (hparts _).mp (mapM_returns_iff.mp ⟨parts, hp⟩ _ ((hmem _).mpr ⟨e, he, rfl⟩))
      exact ⟨hk, (hm e he).mp ht⟩
    · intro h
      obtain ⟨parts, hp⟩ := mapM_returns_iff.mpr fun e he => (hparts e).mpr (by
        obtain ⟨f, hf, rfl⟩ := (hmem e).mp he
        exact ⟨(h f hf).1, (hm f hf).mpr (h f hf).2⟩)
      exact ⟨parts, hp, _, rfl⟩
  | builtin k => exact ⟨fun ⟨_, h⟩ => (nomatch h), fun h => (nomatch h)⟩
  | _ => exact ⟨fun _ => rfl, fun _ => ⟨_, rfl⟩⟩

theorem serializeElements_returns_iff (H : Host) (xs : List Json) :
    (∃ ss, serializeElements H xs = .ok ss) ↔ fitsElements (writable H) xs = true := by
  cases xs with
  | nil => exact ⟨fun _ => rfl, fun _ => ⟨_, rfl⟩⟩
  | cons x xs =>
    rw [serializeElements, bind_returns_iff, fitsElements, Bool.and_eq_true,
      ← serialize_returns_iff H x, ← serializeElements_returns_iff H xs]
    constructor
    · rintro ⟨s, hs, h⟩
      obtain ⟨ss, hss, -⟩ := bind_returns_iff.mp h
      exact ⟨⟨s, hs⟩, ss, hss⟩
    · rintro ⟨⟨s, hs⟩, ss, hss⟩
      exact ⟨s, hs, bind_returns_iff.mpr ⟨ss, hss, _, rfl⟩⟩

theorem serializeMembers_returns_iff (H : Host) (m : List (Str × Json)) :
    ∀ e ∈ m, (∃ s, serialize H e.2 = .ok s) ↔ e.2.fits (writable H) = true := by
  intro e he
  cases m with
  | nil => cases he
  | cons f m =>
    obtain ⟨k, x⟩ := f
    rcases List.mem_cons.mp he with rfl | he
    · exact serialize_returns_iff H x
    · exact serializeMembers_returns_iff H m e he

end

/-! ## Canonical bytes -/

/-- The value, or `undefined`, has canonical bytes. -/
def HasBytes (H : Host) (v : Option Json) : Prop := ∃ b, canonicalizeValue H v = .ok b

/-- The value can be copied. -/
def Copies (v : Json) : Prop := ∃ w, coerceToJcsValue v = .ok w

theorem hasBytes_some {v : Json} :
    HasBytes H (some v) ↔ ∃ w, coerceToJcsValue v = .ok w ∧ w.fits (writable H) = true := by
  rw [HasBytes, canonicalizeValue, bind_returns_iff]
  refine exists_congr fun w => and_congr_right fun _ => ?_
  rw [bind_returns_iff, ← serialize_returns_iff]
  exact ⟨fun ⟨s, hs, _⟩ => ⟨s, hs⟩, fun ⟨s, hs⟩ => ⟨s, hs, _, rfl⟩⟩

theorem HasBytes.copies {v : Json} (h : HasBytes H (some v)) : Copies v := by
  obtain ⟨w, hw, -⟩ := hasBytes_some.mp h
  exact ⟨w, hw⟩

theorem coerceMembers_returns_iff {m : List (Str × Json)} :
    (∃ m', coerceMembers m = .ok m') ↔ ∀ e ∈ m, Copies e.2 := by
  induction m with
  | nil => exact ⟨fun _ => nofun, fun _ => ⟨_, rfl⟩⟩
  | cons e m ih =>
    obtain ⟨k, x⟩ := e
    rw [coerceMembers, bind_returns_iff, List.forall_mem_cons, ← ih]
    constructor
    · rintro ⟨y, hy, h⟩
      obtain ⟨m', hm', -⟩ := bind_returns_iff.mp h
      exact ⟨⟨y, hy⟩, m', hm'⟩
    · rintro ⟨⟨y, hy⟩, m', hm'⟩
      exact ⟨y, hy, bind_returns_iff.mpr ⟨m', hm', _, rfl⟩⟩

/-- What assignments leave: under each key but `__proto__` what was assigned last. -/
theorem mem_foldl_assign {l : List (Str × Json)} {e : Str × Json} :
    e ∈ l.foldl (fun out e => assignMember e.1 e.2 out) [] ↔
      e.1 ≠ js "__proto__" ∧ get e.1 l.reverse = some e.2 := by
  have hget : get e.1 (l.foldl (fun out e => assignMember e.1 e.2 out) []) =
      get e.1 (l.reverse.filter fun e => e.1 ≠ js "__proto__") := by
    rw [foldl_assign_eq, get_foldl_put_reverse, List.filter_reverse]
    cases get e.1 _ <;> rfl
  constructor
  · intro he
    have h := get_of_mem (nodup_foldl_assign l) (k := e.1) (v := e.2) he
    rw [hget] at h
    have hne : e.1 ≠ js "__proto__" := by simpa using (List.mem_filter.mp (mem_of_get h)).2
    exact ⟨hne, by rwa [get_filter_ne hne.symm] at h⟩
  · rintro ⟨hne, h⟩
    exact mem_of_get (by rw [hget, get_filter_ne hne.symm, h])

/-- An object has canonical bytes if all of its members can be copied and those that the copy keeps
have bytes. -/
theorem hasBytes_obj {m : List (Str × Json)} : HasBytes H (some (.obj m)) ↔
    (∀ e ∈ m, Copies e.2) ∧ ∀ k v, k ≠ js "__proto__" → get k m.reverse = some v →
      isCanonicalString H k = true ∧ HasBytes H (some v) := by
  have hcoerce : ∀ m', coerceMembers m = .ok m' →
      ((Json.obj (m'.foldl (fun out e => assignMember e.1 e.2 out) [])).fits (writable H) = true ↔
        ∀ k v, k ≠ js "__proto__" → get k m.reverse = some v →
          isCanonicalString H k = true ∧ HasBytes H (some v)) := by
    intro m' hm'
    have hrev := List.forall₂_reverse_iff.mpr (coerceMembers_eq_ok hm')
    rw [writable_obj]
    constructor
    · intro h k v hk hv
      obtain ⟨w, hw, hvw⟩ := get_forall₂ (R := fun v w => coerceToJcsValue v = .ok w) hrev hv
      obtain ⟨hkey, hfits⟩ := h (k, w) (mem_foldl_assign.mpr ⟨hk, hw⟩)
      exact ⟨hkey, hasBytes_some.mpr ⟨w, hvw, hfits⟩⟩
    · intro h e he
      obtain ⟨hk, hw⟩ := mem_foldl_assign.mp he
      -- the member of the copy comes from a member
      obtain ⟨v, hv, hvw⟩ := get_forall₂ (R := fun w v => coerceToJcsValue v = .ok w)
        (hrev.flip.imp fun a b hab => ⟨hab.1.symm, hab.2⟩) hw
      obtain ⟨hkey, hbytes⟩ := h e.1 v hk hv
      obtain ⟨w', hw', hfits⟩ := hasBytes_some.mp hbytes
      rw [hvw] at hw'
      cases hw'
      exact ⟨hkey, hfits⟩
  rw [hasBytes_some, ← coerceMembers_returns_iff]
  simp only [coerceToJcsValue, bind_eq_ok, pure_eq_ok]
  constructor
  · rintro ⟨-, ⟨m', hm', rfl⟩, hfits⟩
    exact ⟨⟨m', hm'⟩, (hcoerce m' hm').mp hfits⟩
  · rintro ⟨⟨m', hm'⟩, h⟩
    exact ⟨_, ⟨m', hm', rfl⟩, (hcoerce m' hm').mpr h⟩

/-- Writing a value with bytes keeps the bytes of the object. -/
theorem HasBytes.put {m : List (Str × Json)} {k : Str} {x : Json} (hm : HasBytes H (some (.obj m)))
    (hk : k ≠ js "__proto__" → isCanonicalString H k = true) (hx : HasBytes H (some x)) :
    HasBytes H (some (.obj (putMember k x m))) := by
  obtain ⟨hcopies, hlast⟩ := hasBytes_obj.mp hm
  refine hasBytes_obj.mpr ⟨fun e he => ?_, fun j v hj hv => ?_⟩
  · rcases mem_put he with rfl | he
    · exact hx.copies
    · exact hcopies e he
  · rcases get_reverse_put hv with ⟨rfl, rfl⟩ | hv
    · exact ⟨hk hj, hx⟩
    · exact hlast j v hj hv

/-- Which of two values with bytes is written does not matter. -/
theorem hasBytes_put_iff {m : List (Str × Json)} {k : Str} {x y : Json}
    (hx : HasBytes H (some x)) (hy : HasBytes H (some y)) :
    HasBytes H (some (.obj (putMember k x m))) ↔ HasBytes H (some (.obj (putMember k y m))) := by
  have hone : ∀ {x y : Json}, HasBytes H (some y) → HasBytes H (some (.obj (putMember k x m))) →
      HasBytes H (some (.obj (putMember k y m))) := by
    intro x y hy h
    have hput := h.put (k := k) (x := y) (fun hk => ?_) hy
    · rwa [putMember, put_put] at hput
    · -- the key is there, so that the text has it
      have hkey : (get k (putMember k x m).reverse).isSome = true := by
        rw [isSome_get_reverse, get_put_self]
        rfl
      obtain ⟨v, hv⟩ := Option.isSome_iff_exists.mp hkey
      exact ((hasBytes_obj.mp h).2 k v hk hv).1
  exact ⟨hone hy, hone hx⟩

end ParadigmTerra
