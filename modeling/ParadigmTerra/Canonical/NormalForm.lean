import ParadigmTerra.Canonical.Document

/-!
# Normal forms

The normal form of a value has its strings and keys in NFC and the members of each object in the order of
the bytes of their keys; `serialize` writes it down (`serialize_eq_printed`). Two values have one normal
form if they are the same up to NFC and up to the order of members (`same_iff`).

`canonical_text_iff` says when the text of a value names it, and `canonicalizeString_fixed_iff` when
canonicalization of a text is idempotent and independent of the order of members. Both fail on the
keys that assignment loses: parsing a text drops a member named `__proto__`.
-/

namespace ParadigmTerra

open Text OrderedMap Fallible

variable {H : Host}

/-! ## The order of keys -/

theorem bytesLe_total (s t : List UInt8) : bytesLe s t = true ∨ bytesLe t s = true := by
  induction s generalizing t with
  | nil => exact .inl rfl
  | cons a s ih =>
    cases t with
    | nil => exact .inr rfl
    | cons b t =>
      simp only [bytesLe, Bool.or_eq_true, Bool.and_eq_true, decide_eq_true_eq, beq_iff_eq]
      by_cases hab : a = b
      · subst hab
        exact (ih t).imp (fun h => .inr ⟨rfl, h⟩) fun h => .inr ⟨rfl, h⟩
      · exact (UInt8.lt_or_lt_of_ne hab).imp .inl .inl

theorem bytesLe_trans {s t u : List UInt8} (hst : bytesLe s t = true) (htu : bytesLe t u = true) :
    bytesLe s u = true := by
  induction s generalizing t u with
  | nil => rfl
  | cons a s ih =>
    cases t with
    | nil => cases hst
    | cons b t =>
      cases u with
      | nil => cases htu
      | cons c u =>
        simp only [bytesLe, Bool.or_eq_true, Bool.and_eq_true, decide_eq_true_eq, beq_iff_eq] at *
        rcases hst with hab | ⟨rfl, hst⟩
        · rcases htu with hbc | ⟨rfl, -⟩
          · exact .inl (UInt8.lt_trans hab hbc)
          · exact .inl hab
        · rcases htu with hbc | ⟨rfl, htu⟩
          · exact .inl hbc
          · exact .inr ⟨rfl, ih hst htu⟩

theorem bytesLe_antisymm {s t : List UInt8} (hst : bytesLe s t = true) (hts : bytesLe t s = true) :
    s = t := by
  induction s generalizing t with
  | nil =>
    cases t with
    | nil => rfl
    | cons b t => cases hts
  | cons a s ih =>
    cases t with
    | nil => cases hst
    | cons b t =>
      simp only [bytesLe, Bool.or_eq_true, Bool.and_eq_true, decide_eq_true_eq, beq_iff_eq] at *
      rcases hst with hab | ⟨rfl, hst⟩
      · rcases hts with hba | ⟨rfl, -⟩
        · exact absurd hba (UInt8.lt_asymm hab)
        · exact absurd hab (UInt8.lt_irrefl _)
      · rcases hts with hba | ⟨-, hts⟩
        · exact absurd hba (UInt8.lt_irrefl _)
        · rw [ih hst hts]

theorem utf8Encode_inj {s t : Str} (hs : wellFormed s = true) (ht : wellFormed t = true)
    (h : utf8Encode s = utf8Encode t) : s = t := by
  rw [← utf8Decode_encode hs, h, utf8Decode_encode ht]

/-- `a` stands no later than `b` in a canonical text. -/
def entryLe (a b : Str × Json) : Prop := bytesLe (utf8Encode a.1) (utf8Encode b.1) = true

instance : DecidableRel entryLe := fun a b =>
  inferInstanceAs (Decidable (bytesLe (utf8Encode a.1) (utf8Encode b.1) = true))

instance : Std.Total entryLe := ⟨fun _ _ => bytesLe_total _ _⟩

instance : IsTrans (Str × Json) entryLe := ⟨fun _ _ _ h h' => bytesLe_trans h h'⟩

/-- The members of an object in the order of the bytes of their keys. -/
def sortKeys (m : List (Str × Json)) : List (Str × Json) := m.insertionSort entryLe

theorem sortKeys_perm (m : List (Str × Json)) : (sortKeys m).Perm m := m.perm_insertionSort entryLe

/-- The order of distinct keys is the only one. -/
theorem sortKeys_eq {m m' : List (Str × Json)} (hm : ∀ e ∈ m, wellFormed e.1 = true)
    (hnodup : (m.map Prod.fst).Nodup) (h : m.Perm m') : sortKeys m = sortKeys m' := by
  refine @List.Perm.eq_of_pairwise _ entryLe _ _ (fun a b ha hb hab hba => ?_)
    (List.pairwise_insertionSort ..) (List.pairwise_insertionSort ..)
    ((sortKeys_perm m).trans (h.trans (sortKeys_perm m').symm))
  have ha : a ∈ m := (sortKeys_perm m).mem_iff.mp ha
  have hb : b ∈ m := h.mem_iff.mpr ((sortKeys_perm m').mem_iff.mp hb)
  have hkey : a.1 = b.1 := utf8Encode_inj (hm a ha) (hm b hb) (bytesLe_antisymm hab hba)
  have hvalue : some a.2 = some b.2 := by
    rw [← get_of_mem hnodup (k := a.1) (v := a.2) ha, hkey]
    exact get_of_mem hnodup hb
  exact Prod.ext hkey (Option.some.inj hvalue)

/-! ## Normal forms -/

mutual

/-- The value in NFC, with the members of its objects in order. -/
def normalForm (H : Host) : Json → Json
  | .str s => .str (H.normalize s)
  | .arr xs => .arr (normalElements H xs)
  | .obj m => .obj (sortKeys (normalMembers H m))
  | v => v

def normalElements (H : Host) : List Json → List Json
  | [] => []
  | x :: xs => normalForm H x :: normalElements H xs

def normalMembers (H : Host) : List (Str × Json) → List (Str × Json)
  | [] => []
  | (k, x) :: m => (H.normalize k, normalForm H x) :: normalMembers H m

end

theorem normalMembers_eq (m : List (Str × Json)) :
    normalMembers H m = m.map fun e => (H.normalize e.1, normalForm H e.2) := by
  induction m with
  | nil => rfl
  | cons e m ih => rw [normalMembers, ih, List.map_cons]

theorem printedMembers_eq (m : List (Str × Json)) :
    printedMembers m = m.map fun e => literal e.1 ++ 0x3A :: printed e.2 := by
  induction m with
  | nil => rfl
  | cons e m ih => rw [printedMembers, ih, List.map_cons]

theorem escapeString_eq {s : Str} (h : isCanonicalString H s = true) :
    escapeString H s = .ok (literal (H.normalize s)) := by
  obtain ⟨t, ht⟩ := escapeString_returns_iff.mpr h
  have hlit : t = literal (H.normalize s) := by
    simp only [escapeString, bind_eq_ok, pure_eq_ok] at ht
    obtain ⟨-, -, -, -, rfl⟩ := ht
    have hquote : js "\"" = [0x22] := by decide
    rw [literal, hquote]
    rfl
  rw [ht, hlit]

mutual

/-- The text of a value is that of its normal form. -/
theorem serialize_eq_printed (v : Json) (hv : v.fits (writable H) = true) :
    serialize H v = .ok (printed (normalForm H v)) := by
  cases v with
  | str s => exact escapeString_eq hv
  | arr xs =>
    rw [serialize, serializeElements_eq_printed xs hv, ok_bind]
    have hopen : js "[" = [0x5B] := by decide
    have hclose : js "]" = [0x5D] := by decide
    rw [normalForm, printed, hopen, hclose, List.append_assoc]
    rfl
  | obj m =>
    have hm := writable_obj.mp hv
    have hvalues := serializeMembers_eq_printed m hm
    -- both texts list the members in one order
    have hsort : (m.map fun e => (e.1, serialize H e.2)).insertionSort
        (fun a b => keyLe H a.1 b.1 = true) =
          (sortedMembers H m).map fun e => (e.1, serialize H e.2) :=
      (List.map_insertionSort (fun a b : Str × Json => keyLe H a.1 b.1 = true) _ _ m
        fun _ _ _ _ => Iff.rfl).symm
    have hsort' : sortKeys (normalMembers H m) =
        (sortedMembers H m).map fun e => (H.normalize e.1, normalForm H e.2) := by
      rw [normalMembers_eq]
      exact (List.map_insertionSort (fun a b : Str × Json => keyLe H a.1 b.1 = true) _ _ m
        fun _ _ _ _ => Iff.rfl).symm
    have hmem : ∀ e ∈ sortedMembers H m, e ∈ m := fun e he =>
      (List.perm_insertionSort _ m).mem_iff.mp he
    have hparts : ((sortedMembers H m).map fun e => (e.1, serialize H e.2)).mapM (fun e => do
        let k ← escapeString H e.1
        let v ← e.2
        pure (k ++ js ":" ++ v) : _ → Except Throw Str) =
          .ok (printedMembers (sortKeys (normalMembers H m))) := by
      rw [hsort', printedMembers_eq, List.map_map, mapM_ok, List.forall₂_map_left_iff,
        List.forall₂_map_right_iff, List.forall₂_same]
      intro e he
      have hcolon : js ":" = [0x3A] := by decide
      rw [escapeString_eq (hm e (hmem e he)).1, hvalues e (hmem e he), hcolon]
      simp
    rw [serialize, serializeMembers_eq, hsort, hparts, ok_bind]
    have hopen : js "\x7b" = [0x7B] := by decide
    have hclose : js "\x7d" = [0x7D] := by decide
    rw [normalForm, printed, hopen, hclose, List.append_assoc]
    rfl
  | builtin k => cases hv
  | _ => rfl

theorem serializeElements_eq_printed (xs : List Json) (hxs : fitsElements (writable H) xs = true) :
    serializeElements H xs = .ok (printedElements (normalElements H xs)) := by
  cases xs with
  | nil => rfl
  | cons x xs =>
    rw [fitsElements, Bool.and_eq_true] at hxs
    rw [serializeElements, serialize_eq_printed x hxs.1, serializeElements_eq_printed xs hxs.2]
    rfl

theorem serializeMembers_eq_printed (m : List (Str × Json))
    (hm : ∀ e ∈ m, isCanonicalString H e.1 = true ∧ e.2.fits (writable H) = true) :
    ∀ e ∈ m, serialize H e.2 = .ok (printed (normalForm H e.2)) := by
  intro e he
  cases m with
  | nil => cases he
  | cons f m =>
    obtain ⟨k, x⟩ := f
    obtain ⟨⟨-, hx⟩, hm⟩ := List.forall_mem_cons.mp hm
    rcases List.mem_cons.mp he with rfl | he
    · exact serialize_eq_printed x hx
    · exact serializeMembers_eq_printed m hm e he

end

/-! ## Shapes of normal forms -/

/-- A shape of the keys and the strings. -/
def keyed (p q : Str → Bool) (b : Bool) : Shape := ⟨q, fun m => m.all fun e => p e.1, fun _ => b⟩

/-- No key is `__proto__` up to `f`. -/
def avoids (f : Str → Str) : Shape := keyed (fun k => decide (f k ≠ js "__proto__")) (fun _ => true) true

theorem keyed_obj {p q : Str → Bool} {b : Bool} {m : List (Str × Json)} :
    (Json.obj m).fits (keyed p q b) = true ↔
      ∀ e ∈ m, p e.1 = true ∧ e.2.fits (keyed p q b) = true := by
  simp only [Json.fits, keyed, Bool.and_eq_true, List.all_eq_true, fitsMembers_iff]
  exact ⟨fun h e he => ⟨h.1 e he, h.2 e he⟩, fun h => ⟨fun e he => (h e he).1, fun e he => (h e he).2⟩⟩

mutual

theorem keyed_mono {p q p' q' : Str → Bool} {b b' : Bool}
    (hp : ∀ k, p k = true → p' k = true) (hq : ∀ s, q s = true → q' s = true)
    (hb : b = true → b' = true) (v : Json) (hv : v.fits (keyed p q b) = true) :
    v.fits (keyed p' q' b') = true := by
  cases v with
  | str s => exact hq s hv
  | arr xs => exact keyedElements_mono hp hq hb xs hv
  | obj m => exact keyed_obj.mpr (keyedMembers_mono hp hq hb m (keyed_obj.mp hv))
  | builtin k => exact hb hv
  | _ => rfl

theorem keyedElements_mono {p q p' q' : Str → Bool} {b b' : Bool}
    (hp : ∀ k, p k = true → p' k = true) (hq : ∀ s, q s = true → q' s = true)
    (hb : b = true → b' = true) (xs : List Json)
    (hxs : fitsElements (keyed p q b) xs = true) : fitsElements (keyed p' q' b') xs = true := by
  cases xs with
  | nil => rfl
  | cons x xs =>
    rw [fitsElements, Bool.and_eq_true] at hxs ⊢
    exact ⟨keyed_mono hp hq hb x hxs.1, keyedElements_mono hp hq hb xs hxs.2⟩

theorem keyedMembers_mono {p q p' q' : Str → Bool} {b b' : Bool}
    (hp : ∀ k, p k = true → p' k = true) (hq : ∀ s, q s = true → q' s = true)
    (hb : b = true → b' = true) (m : List (Str × Json))
    (hm : ∀ e ∈ m, p e.1 = true ∧ e.2.fits (keyed p q b) = true) :
    ∀ e ∈ m, p' e.1 = true ∧ e.2.fits (keyed p' q' b') = true := by
  cases m with
  | nil => nofun
  | cons e m =>
    obtain ⟨k, x⟩ := e
    obtain ⟨⟨hk, hx⟩, hm⟩ := List.forall_mem_cons.mp hm
    exact List.forall_mem_cons.mpr ⟨⟨hp k hk, keyed_mono hp hq hb x hx⟩, keyedMembers_mono hp hq hb m hm⟩

end

/-- The shape of a value that the shape of its normal form comes from. -/
def pulled (H : Host) (S : Shape) : Shape :=
  ⟨fun s => S.str (H.normalize s), fun m => S.members (sortKeys (normalMembers H m)), S.builtin⟩

mutual

theorem fits_normalForm (H : Host) (S : Shape) (v : Json) :
    (normalForm H v).fits S = v.fits (pulled H S) := by
  cases v with
  | arr xs => exact fitsElements_normalForm H S xs
  | obj m =>
    have hsort : fitsMembers S (sortKeys (normalMembers H m)) = fitsMembers S (normalMembers H m) := by
      rw [Bool.eq_iff_iff, fitsMembers_iff, fitsMembers_iff]
      exact forall_congr' fun e => by rw [(sortKeys_perm _).mem_iff]
    rw [normalForm, Json.fits, Json.fits, hsort, fitsMembers_normalForm H S m]
    rfl
  | _ => rfl

theorem fitsElements_normalForm (H : Host) (S : Shape) (xs : List Json) :
    fitsElements S (normalElements H xs) = fitsElements (pulled H S) xs := by
  cases xs with
  | nil => rfl
  | cons x xs =>
    rw [normalElements, fitsElements, fitsElements, fits_normalForm H S x,
      fitsElements_normalForm H S xs]

theorem fitsMembers_normalForm (H : Host) (S : Shape) (m : List (Str × Json)) :
    fitsMembers S (normalMembers H m) = fitsMembers (pulled H S) m := by
  cases m with
  | nil => rfl
  | cons e m =>
    obtain ⟨k, x⟩ := e
    rw [normalMembers, fitsMembers, fitsMembers, fits_normalForm H S x, fitsMembers_normalForm H S m]

end

/-- What the keys and the strings of a normal form satisfy. -/
theorem keyed_normalForm {p q : Str → Bool} {b : Bool} {v : Json} :
    (normalForm H v).fits (keyed p q b) =
      v.fits (keyed (fun k => p (H.normalize k)) (fun s => q (H.normalize s)) b) := by
  have hshape : pulled H (keyed p q b) =
      keyed (fun k => p (H.normalize k)) (fun s => q (H.normalize s)) b := by
    have hmembers : ∀ m, (sortKeys (normalMembers H m)).all (fun e => p e.1) =
        m.all fun e => p (H.normalize e.1) := by
      intro m
      rw [(sortKeys_perm _).all_eq, normalMembers_eq, List.all_map]
      rfl
    simp only [pulled, keyed, hmembers]
  rw [fits_normalForm, hshape]

/-- A normal form has distinct keys if the value has up to NFC. -/
theorem distinctKeys_normalForm {v : Json} :
    (normalForm H v).fits (distinctKeys id) = v.fits (distinctKeys H.normalize) := by
  have hshape : pulled H (distinctKeys id) = distinctKeys H.normalize := by
    have hmembers : ∀ m, decide ((sortKeys (normalMembers H m)).map fun e => id e.1).Nodup =
        decide (m.map fun e => H.normalize e.1).Nodup := by
      intro m
      rw [Bool.eq_iff_iff, decide_eq_true_eq, decide_eq_true_eq,
        ((sortKeys_perm _).map _).nodup_iff, normalMembers_eq, List.map_map]
      rfl
    simp only [pulled, distinctKeys, hmembers]
  rw [fits_normalForm, hshape]

/-! ## Objects that are built -/

/-- What NFC does with strings. -/
structure Host.Nfc (H : Host) : Prop where
  idempotent : ∀ s, H.normalize (H.normalize s) = H.normalize s
  /-- A well-formed string stays well-formed. -/
  wellFormed : ∀ s, wellFormed s = true → wellFormed (H.normalize s) = true
  /-- An assigned string stays assigned. -/
  assigned : ∀ s, (codePoints s).all H.isAssignedCodePoint = true →
    (codePoints (H.normalize s)).all H.isAssignedCodePoint = true
  /-- No byte order mark comes to stand in front. -/
  bom : ∀ s, s.head? ≠ some 0xFEFF → (H.normalize s).head? ≠ some 0xFEFF

theorem Host.Nfc.isCanonicalString (hH : H.Nfc) {s : Str} (h : isCanonicalString H s = true) :
    isCanonicalString H (H.normalize s) = true := by
  simp only [ParadigmTerra.isCanonicalString, Bool.and_eq_true, decide_eq_true_eq] at h ⊢
  exact ⟨hH.bom s h.1, hH.assigned s h.2⟩

theorem Host.Nfc.wellFormedDoc (hH : H.Nfc) {v : Json} (hv : v.fits wellFormedDoc = true) :
    (normalForm H v).fits wellFormedDoc = true := by
  change (normalForm H v).fits (keyed Text.wellFormed Text.wellFormed false) = true
  rw [keyed_normalForm]
  exact keyed_mono hH.wellFormed hH.wellFormed id v hv

theorem Host.Nfc.writable (hH : H.Nfc) {v : Json} (hv : v.fits (writable H) = true) :
    (normalForm H v).fits (ParadigmTerra.writable H) = true := by
  change (normalForm H v).fits
    (keyed (ParadigmTerra.isCanonicalString H) (ParadigmTerra.isCanonicalString H) false) = true
  rw [keyed_normalForm]
  exact keyed_mono (fun _ => hH.isCanonicalString) (fun _ => hH.isCanonicalString) id v hv

/-- The value whose objects have the members of a document, put in their order. -/
def built : Json → Json := rebuilt putMember

mutual

/-- Assignment loses nothing but the members named `__proto__`. -/
theorem assigned_eq_built (d : Json) (hd : d.fits (avoids id) = true) : assigned d = built d := by
  cases d with
  | arr xs => exact congrArg Json.arr (assignedElements_eq_built xs hd)
  | obj m =>
    have hm := keyed_obj.mp hd
    have hfold : ∀ (l out : List (Str × Json)), (∀ e ∈ l, e.1 ≠ js "__proto__") →
        l.foldl (fun out e => assignMember e.1 e.2 out) out =
          l.foldl (fun out e => putMember e.1 e.2 out) out := by
      intro l
      induction l with
      | nil => exact fun _ _ => rfl
      | cons e l ih =>
        intro out hl
        obtain ⟨he, hl⟩ := List.forall_mem_cons.mp hl
        rw [List.foldl_cons, List.foldl_cons, assignMember, if_neg he, ih _ hl]
    rw [assigned, built, rebuilt, rebuilt, assignedMembers_eq_built m hm,
      hfold _ _ fun e he => ?_]
    rw [rebuiltMembers_eq] at he
    obtain ⟨f, hf, rfl⟩ := List.mem_map.mp he
    simpa using (hm f hf).1
  | _ => rfl

theorem assignedElements_eq_built (xs : List Json) (hxs : fitsElements (avoids id) xs = true) :
    rebuiltElements assignMember xs = rebuiltElements putMember xs := by
  cases xs with
  | nil => rfl
  | cons x xs =>
    rw [fitsElements, Bool.and_eq_true] at hxs
    have hx := assigned_eq_built x hxs.1
    rw [assigned, built] at hx
    rw [rebuiltElements, rebuiltElements, hx, assignedElements_eq_built xs hxs.2]

theorem assignedMembers_eq_built (m : List (Str × Json))
    (hm : ∀ e ∈ m, decide (id e.1 ≠ js "__proto__") = true ∧ e.2.fits (avoids id) = true) :
    rebuiltMembers assignMember m = rebuiltMembers putMember m := by
  cases m with
  | nil => rfl
  | cons e m =>
    obtain ⟨k, x⟩ := e
    obtain ⟨⟨-, hx⟩, hm⟩ := List.forall_mem_cons.mp hm
    have hx := assigned_eq_built x hx
    rw [assigned, built] at hx
    rw [rebuiltMembers, rebuiltMembers, hx, assignedMembers_eq_built m hm]

end

mutual

/-- The keys that assignment leaves are keys of the document, and none is `__proto__`. -/
theorem keyed_assigned {p q : Str → Bool} {b : Bool} (d : Json)
    (hd : d.fits (keyed p q b) = true) :
    (assigned d).fits (keyed (fun k => p k && decide (k ≠ js "__proto__")) q b) = true := by
  cases d with
  | arr xs => exact keyedElements_assigned xs hd
  | obj m =>
    rw [assigned_obj, keyed_obj]
    intro e he
    have hne : e.1 ≠ js "__proto__" := (mem_foldl_assign.mp he).1
    obtain ⟨f, hf, rfl⟩ := List.mem_map.mp (mem_keys_foldl_assign he)
    obtain ⟨hkey, hvalue⟩ := keyedMembers_assigned m (keyed_obj.mp hd) f hf
    exact ⟨by simp [hkey, hne], hvalue⟩
  | _ => exact hd

theorem keyedElements_assigned {p q : Str → Bool} {b : Bool} (xs : List Json)
    (hxs : fitsElements (keyed p q b) xs = true) :
    fitsElements (keyed (fun k => p k && decide (k ≠ js "__proto__")) q b)
      (rebuiltElements assignMember xs) = true := by
  cases xs with
  | nil => rfl
  | cons x xs =>
    rw [fitsElements, Bool.and_eq_true] at hxs
    rw [rebuiltElements, fitsElements, Bool.and_eq_true]
    exact ⟨keyed_assigned x hxs.1, keyedElements_assigned xs hxs.2⟩

theorem keyedMembers_assigned {p q : Str → Bool} {b : Bool} (m : List (Str × Json))
    (hm : ∀ e ∈ m, p e.1 = true ∧ e.2.fits (keyed p q b) = true) :
    ∀ e ∈ m, p e.1 = true ∧
      (assigned e.2).fits (keyed (fun k => p k && decide (k ≠ js "__proto__")) q b) = true := by
  cases m with
  | nil => nofun
  | cons e m =>
    obtain ⟨k, x⟩ := e
    obtain ⟨⟨hk, hx⟩, hm⟩ := List.forall_mem_cons.mp hm
    exact List.forall_mem_cons.mpr ⟨⟨hk, keyed_assigned x hx⟩, keyedMembers_assigned m hm⟩

end

theorem avoids_assigned {d : Json} (hd : d.fits wellFormedDoc = true) :
    (assigned d).fits (avoids id) = true := by
  have h := keyed_assigned (p := wellFormed) (q := wellFormed) (b := false) d hd
  exact keyed_mono (fun k hk => (Bool.and_eq_true_iff.mp hk).2) (fun _ _ => rfl) (fun _ => rfl) _ h

theorem wellFormedDoc_assigned {d : Json} (hd : d.fits wellFormedDoc = true) :
    (assigned d).fits wellFormedDoc = true := by
  have h := keyed_assigned (p := wellFormed) (q := wellFormed) (b := false) d hd
  exact keyed_mono (fun k hk => (Bool.and_eq_true_iff.mp hk).1) (fun _ h => h) id _ h

/-! ## One normal form -/

/-- The members of a normal form have well-formed, distinct keys. -/
theorem normalMembers_ordered (hH : H.Nfc) {m : List (Str × Json)}
    (hwf : (Json.obj m).fits wellFormedDoc = true)
    (hdist : (Json.obj m).fits (distinctKeys H.normalize) = true) :
    (∀ e ∈ normalMembers H m, wellFormed e.1 = true) ∧
      ((normalMembers H m).map Prod.fst).Nodup := by
  rw [normalMembers_eq]
  constructor
  · intro e he
    obtain ⟨f, hf, rfl⟩ := List.mem_map.mp he
    exact hH.wellFormed _ (wellFormedDoc_obj.mp hwf f hf).1
  · rw [List.map_map]
    exact (distinctKeys_obj.mp hdist).1

/-- Objects with the same members have one normal form. -/
theorem normalForm_obj_eq (hH : H.Nfc) {m m' : List (Str × Json)}
    (hwf : (Json.obj m).fits wellFormedDoc = true)
    (hdist : (Json.obj m).fits (distinctKeys H.normalize) = true)
    (h : (normalMembers H m).Perm (normalMembers H m')) :
    normalForm H (.obj m) = normalForm H (.obj m') := by
  obtain ⟨hkeys, hnodup⟩ := normalMembers_ordered hH hwf hdist
  rw [normalForm, normalForm, sortKeys_eq hkeys hnodup h]

mutual

/-- Building keeps the normal form. -/
theorem normalForm_built (hH : H.Nfc) (d : Json) (hwf : d.fits wellFormedDoc = true)
    (hdist : d.fits (distinctKeys H.normalize) = true) : normalForm H (built d) = normalForm H d := by
  cases d with
  | arr xs => exact congrArg Json.arr (normalElements_built hH xs hwf hdist)
  | obj m =>
    have hrec := normalMembers_built hH m (wellFormedDoc_obj.mp hwf) (distinctKeys_obj.mp hdist).2
    have hkeys : ((rebuiltMembers putMember m).map Prod.fst).Nodup := by
      rw [rebuiltMembers_eq, List.map_map]
      exact List.Nodup.of_map H.normalize (by
        rw [List.map_map]
        exact (distinctKeys_obj.mp hdist).1)
    have hperm := @foldl_put_perm _ _ _ keyBefore [] _ hkeys
    rw [built, rebuilt]
    refine (normalForm_obj_eq hH hwf hdist ?_).symm
    rw [← hrec, normalMembers_eq, normalMembers_eq]
    exact (hperm.map _).symm
  | _ => rfl

theorem normalElements_built (hH : H.Nfc) (xs : List Json)
    (hwf : fitsElements wellFormedDoc xs = true)
    (hdist : fitsElements (distinctKeys H.normalize) xs = true) :
    normalElements H (rebuiltElements putMember xs) = normalElements H xs := by
  cases xs with
  | nil => rfl
  | cons x xs =>
    rw [fitsElements, Bool.and_eq_true] at hwf hdist
    have hx := normalForm_built hH x hwf.1 hdist.1
    rw [built] at hx
    rw [rebuiltElements, normalElements, normalElements, hx, normalElements_built hH xs hwf.2 hdist.2]

theorem normalMembers_built (hH : H.Nfc) (m : List (Str × Json))
    (hwf : ∀ e ∈ m, wellFormed e.1 = true ∧ e.2.fits wellFormedDoc = true)
    (hdist : ∀ e ∈ m, e.2.fits (distinctKeys H.normalize) = true) :
    normalMembers H (rebuiltMembers putMember m) = normalMembers H m := by
  cases m with
  | nil => rfl
  | cons e m =>
    obtain ⟨k, x⟩ := e
    obtain ⟨⟨-, hx⟩, hwf⟩ := List.forall_mem_cons.mp hwf
    obtain ⟨hdx, hdist⟩ := List.forall_mem_cons.mp hdist
    have hx := normalForm_built hH x hx hdx
    rw [built] at hx
    rw [rebuiltMembers, normalMembers, normalMembers, hx, normalMembers_built hH m hwf hdist]

end

mutual

/-- The normal form of a normal form is the normal form. -/
theorem normalForm_normalForm (hH : H.Nfc) (v : Json) (hwf : v.fits wellFormedDoc = true)
    (hdist : v.fits (distinctKeys H.normalize) = true) :
    normalForm H (normalForm H v) = normalForm H v := by
  cases v with
  | str s => rw [normalForm, normalForm, hH.idempotent]
  | arr xs => exact congrArg Json.arr (normalElements_normalElements hH xs hwf hdist)
  | obj m =>
    have hrec := normalMembers_normalMembers hH m (wellFormedDoc_obj.mp hwf) (distinctKeys_obj.mp hdist).2
    have hsort : (normalMembers H (sortKeys (normalMembers H m))).Perm (normalMembers H m) := by
      have h := (sortKeys_perm (normalMembers H m)).map fun e => (H.normalize e.1, normalForm H e.2)
      rwa [← normalMembers_eq, ← normalMembers_eq, hrec] at h
    obtain ⟨hkeys, hnodup⟩ := normalMembers_ordered hH hwf hdist
    exact congrArg Json.obj (sortKeys_eq hkeys hnodup hsort.symm).symm
  | _ => rfl

theorem normalElements_normalElements (hH : H.Nfc) (xs : List Json)
    (hwf : fitsElements wellFormedDoc xs = true)
    (hdist : fitsElements (distinctKeys H.normalize) xs = true) :
    normalElements H (normalElements H xs) = normalElements H xs := by
  cases xs with
  | nil => rfl
  | cons x xs =>
    rw [fitsElements, Bool.and_eq_true] at hwf hdist
    rw [normalElements, normalElements, normalForm_normalForm hH x hwf.1 hdist.1,
      normalElements_normalElements hH xs hwf.2 hdist.2]

theorem normalMembers_normalMembers (hH : H.Nfc) (m : List (Str × Json))
    (hwf : ∀ e ∈ m, wellFormed e.1 = true ∧ e.2.fits wellFormedDoc = true)
    (hdist : ∀ e ∈ m, e.2.fits (distinctKeys H.normalize) = true) :
    normalMembers H (normalMembers H m) = normalMembers H m := by
  cases m with
  | nil => rfl
  | cons e m =>
    obtain ⟨k, x⟩ := e
    obtain ⟨⟨-, hx⟩, hwf⟩ := List.forall_mem_cons.mp hwf
    obtain ⟨hdx, hdist⟩ := List.forall_mem_cons.mp hdist
    rw [normalMembers, normalMembers, normalForm_normalForm hH x hx hdx, hH.idempotent,
      normalMembers_normalMembers hH m hwf hdist]

end

/-! ## The same value -/

mutual

/-- The values are the same up to `f` on strings and keys and up to the order of members. -/
def Same (f : Str → Str) : Json → Json → Prop
  | .str s, .str t => f s = f t
  | .arr xs, .arr ys => SameElements f xs ys
  | .obj m, .obj m' => ∃ l, l.Perm m' ∧ SameMembers f m l
  | .null, .null => True
  | .bool b, .bool c => b = c
  | .int a, .int b => a = b
  | .builtin j, .builtin k => j = k
  | _, _ => False

def SameElements (f : Str → Str) : List Json → List Json → Prop
  | [], [] => True
  | x :: xs, y :: ys => Same f x y ∧ SameElements f xs ys
  | _, _ => False

def SameMembers (f : Str → Str) : List (Str × Json) → List (Str × Json) → Prop
  | [], [] => True
  | (j, x) :: m, (k, y) :: l => (f j = f k ∧ Same f x y) ∧ SameMembers f m l
  | _, _ => False

end

mutual

/-- Values are the same up to NFC and the order of members if they have one normal form. -/
theorem same_iff (hH : H.Nfc) (v w : Json) (hwf : v.fits wellFormedDoc = true)
    (hdist : v.fits (distinctKeys H.normalize) = true) :
    Same H.normalize v w ↔ normalForm H v = normalForm H w := by
  cases v with
  | str s => cases w <;> simp [Same, normalForm]
  | arr xs =>
    cases w with
    | arr ys =>
      rw [Same, normalForm, normalForm, Json.arr.injEq]
      exact sameElements_iff hH xs ys hwf hdist
    | _ => simp [Same, normalForm]
  | obj m =>
    cases w with
    | obj m' =>
      have hrec := fun l => sameMembers_iff hH m l (wellFormedDoc_obj.mp hwf) (distinctKeys_obj.mp hdist).2
      rw [Same]
      constructor
      · rintro ⟨l, hl, hsame⟩
        refine normalForm_obj_eq hH hwf hdist ?_
        rw [(hrec l).mp hsame, normalMembers_eq, normalMembers_eq]
        exact hl.map _
      · intro h
        rw [normalForm, normalForm, Json.obj.injEq] at h
        -- the members of the one, in the order in which the other has them
        have hperm : (normalMembers H m).Perm
            (m'.map fun e => (H.normalize e.1, normalForm H e.2)) := by
          rw [← normalMembers_eq]
          exact (sortKeys_perm _).symm.trans (h ▸ sortKeys_perm _)
        have hcomp : Relation.Comp (fun a b => a = List.map (fun e => (H.normalize e.1, normalForm H e.2)) b)
            List.Perm (normalMembers H m) m' := by
          rw [List.eq_map_comp_perm]
          exact hperm
        obtain ⟨l, heq, hl⟩ := hcomp
        exact ⟨l, hl, (hrec l).mpr (heq.trans (normalMembers_eq l).symm)⟩
    | _ => simp [Same, normalForm]
  | _ => cases w <;> simp [Same, normalForm]

theorem sameElements_iff (hH : H.Nfc) (xs ys : List Json) (hwf : fitsElements wellFormedDoc xs = true)
    (hdist : fitsElements (distinctKeys H.normalize) xs = true) :
    SameElements H.normalize xs ys ↔ normalElements H xs = normalElements H ys := by
  cases xs with
  | nil => cases ys <;> simp [SameElements, normalElements]
  | cons x xs =>
    rw [fitsElements, Bool.and_eq_true] at hwf hdist
    cases ys with
    | nil => simp [SameElements, normalElements]
    | cons y ys =>
      rw [SameElements, normalElements, normalElements, List.cons.injEq,
        same_iff hH x y hwf.1 hdist.1, sameElements_iff hH xs ys hwf.2 hdist.2]

theorem sameMembers_iff (hH : H.Nfc) (m l : List (Str × Json))
    (hwf : ∀ e ∈ m, wellFormed e.1 = true ∧ e.2.fits wellFormedDoc = true)
    (hdist : ∀ e ∈ m, e.2.fits (distinctKeys H.normalize) = true) :
    SameMembers H.normalize m l ↔ normalMembers H m = normalMembers H l := by
  cases m with
  | nil => cases l <;> simp [SameMembers, normalMembers]
  | cons e m =>
    obtain ⟨j, x⟩ := e
    obtain ⟨⟨-, hx⟩, hwf⟩ := List.forall_mem_cons.mp hwf
    obtain ⟨hdx, hdist⟩ := List.forall_mem_cons.mp hdist
    cases l with
    | nil => simp [SameMembers, normalMembers]
    | cons e' l =>
      obtain ⟨k, y⟩ := e'
      rw [SameMembers, normalMembers, normalMembers, List.cons.injEq, Prod.mk.injEq,
        same_iff hH x y hx hdx, sameMembers_iff hH m l hwf hdist]

end

mutual

theorem same_mono {f g : Str → Str} (hfg : ∀ s t, f s = f t → g s = g t) (v w : Json)
    (h : Same f v w) : Same g v w := by
  cases v with
  | str s =>
    cases w with
    | str t => exact hfg s t h
    | _ => exact h.elim
  | arr xs =>
    cases w with
    | arr ys => exact sameElements_mono hfg xs ys h
    | _ => exact h.elim
  | obj m =>
    cases w with
    | obj m' =>
      obtain ⟨l, hl, h⟩ := h
      exact ⟨l, hl, sameMembers_mono hfg m l h⟩
    | _ => exact h.elim
  | _ => cases w <;> exact h

theorem sameElements_mono {f g : Str → Str} (hfg : ∀ s t, f s = f t → g s = g t) (xs ys : List Json)
    (h : SameElements f xs ys) : SameElements g xs ys := by
  cases xs with
  | nil => cases ys <;> exact h
  | cons x xs =>
    cases ys with
    | nil => exact h
    | cons y ys => exact ⟨same_mono hfg x y h.1, sameElements_mono hfg xs ys h.2⟩

theorem sameMembers_mono {f g : Str → Str} (hfg : ∀ s t, f s = f t → g s = g t)
    (m l : List (Str × Json)) (h : SameMembers f m l) : SameMembers g m l := by
  cases m with
  | nil => cases l <;> exact h
  | cons e m =>
    cases l with
    | nil => exact h
    | cons e' l =>
      exact ⟨⟨hfg _ _ h.1.1, same_mono hfg _ _ h.1.2⟩, sameMembers_mono hfg m l h.2⟩

end

theorem SameMembers.keys {m l : List (Str × Json)} (h : SameMembers id m l) :
    m.map Prod.fst = l.map Prod.fst := by
  induction m generalizing l with
  | nil =>
    cases l with
    | nil => rfl
    | cons e l => exact h.elim
  | cons e m ih =>
    cases l with
    | nil => exact h.elim
    | cons e' l => rw [List.map_cons, List.map_cons, ih h.2, show e.1 = e'.1 from h.1.1]

/-- A shape that does not depend on the order of members. -/
def Shape.Unordered (S : Shape) : Prop :=
  ∀ m m' : List (Str × Json), (m.map Prod.fst).Perm (m'.map Prod.fst) → S.members m = S.members m'

theorem unordered_keyed (p q : Str → Bool) (b : Bool) : (keyed p q b).Unordered := by
  intro m m' h
  have hkeys : ∀ m : List (Str × Json), (m.all fun e => p e.1) = (m.map Prod.fst).all p := by
    intro m
    rw [List.all_map]
    rfl
  change (m.all fun e => p e.1) = m'.all fun e => p e.1
  rw [hkeys, hkeys, h.all_eq]

theorem unordered_distinctKeys (f : Str → Str) : (distinctKeys f).Unordered := by
  intro m m' h
  have hmap := (h.map f).nodup_iff
  rw [List.map_map, List.map_map] at hmap
  exact decide_eq_decide.mpr hmap

mutual

/-- The same values have the same shapes. -/
theorem fits_of_same {S : Shape} (hS : S.Unordered) (v w : Json) (h : Same id v w) :
    v.fits S = w.fits S := by
  cases v with
  | str s =>
    cases w with
    | str t => exact congrArg S.str h
    | _ => exact h.elim
  | arr xs =>
    cases w with
    | arr ys => exact fitsElements_of_same hS xs ys h
    | _ => exact h.elim
  | obj m =>
    cases w with
    | obj m' =>
      obtain ⟨l, hl, h⟩ := h
      have hvalues : fitsMembers S l = fitsMembers S m' := by
        rw [Bool.eq_iff_iff, fitsMembers_iff, fitsMembers_iff]
        exact forall_congr' fun e => by rw [hl.mem_iff]
      rw [Json.fits, Json.fits, fitsMembers_of_same hS m l h, hvalues,
        hS m m' (h.keys ▸ hl.map Prod.fst)]
    | _ => exact h.elim
  | builtin j =>
    cases w with
    | builtin k => exact congrArg S.builtin h
    | _ => exact h.elim
  | _ => cases w <;> first | rfl | exact h.elim

theorem fitsElements_of_same {S : Shape} (hS : S.Unordered) (xs ys : List Json)
    (h : SameElements id xs ys) : fitsElements S xs = fitsElements S ys := by
  cases xs with
  | nil => cases ys <;> first | rfl | exact h.elim
  | cons x xs =>
    cases ys with
    | nil => exact h.elim
    | cons y ys =>
      rw [fitsElements, fitsElements, fits_of_same hS x y h.1, fitsElements_of_same hS xs ys h.2]

theorem fitsMembers_of_same {S : Shape} (hS : S.Unordered) (m l : List (Str × Json))
    (h : SameMembers id m l) : fitsMembers S m = fitsMembers S l := by
  cases m with
  | nil => cases l <;> first | rfl | exact h.elim
  | cons e m =>
    cases l with
    | nil => exact h.elim
    | cons e' l =>
      obtain ⟨j, x⟩ := e
      obtain ⟨k, y⟩ := e'
      rw [fitsMembers, fitsMembers, fits_of_same hS x y h.1.2, fitsMembers_of_same hS m l h.2]

end

theorem sameMembers_iff_forall₂ {f : Str → Str} {m l : List (Str × Json)} :
    SameMembers f m l ↔ List.Forall₂ (fun e e' => f e.1 = f e'.1 ∧ Same f e.2 e'.2) m l := by
  induction m generalizing l with
  | nil => cases l <;> simp [SameMembers]
  | cons e m ih =>
    cases l with
    | nil => simp [SameMembers]
    | cons e' l => rw [SameMembers, ih, List.forall₂_cons]

/-- The members that are left where those of a name are left out. -/
theorem SameMembers.filter_ne {m l : List (Str × Json)} (h : SameMembers id m l) (k : Str) :
    SameMembers id (m.filter fun e => e.1 ≠ k) (l.filter fun e => e.1 ≠ k) := by
  rw [sameMembers_iff_forall₂] at h ⊢
  induction h with
  | nil => exact .nil
  | @cons e e' m l he _ ih =>
    have hkey : e.1 = e'.1 := he.1
    rw [List.filter_cons, List.filter_cons, hkey]
    split
    · exact .cons he ih
    · exact ih

/-- Assignments of distinct members keep all but those named `__proto__`. -/
theorem foldl_assign_perm {l : List (Str × Json)} (hl : (l.map Prod.fst).Nodup) :
    (l.foldl (fun out e => assignMember e.1 e.2 out) []).Perm
      (l.filter fun e => e.1 ≠ js "__proto__") := by
  rw [foldl_assign_eq]
  exact @foldl_put_perm _ _ _ keyBefore [] _
    (hl.sublist (List.filter_sublist.map Prod.fst))

mutual

/-- Assignment makes the same values of documents that are the same. -/
theorem same_assigned (d d' : Json) (h : Same id d d') (hdist : d.fits (distinctKeys id) = true) :
    Same id (assigned d) (assigned d') := by
  cases d with
  | arr xs =>
    cases d' with
    | arr ys => exact sameElements_assigned xs ys h hdist
    | _ => exact h.elim
  | obj m =>
    cases d' with
    | obj m' =>
      obtain ⟨l, hl, h⟩ := h
      obtain ⟨hnodup, hvalues⟩ := distinctKeys_obj.mp hdist
      have hrec := sameMembers_assigned m l h hvalues
      have hkeys : ∀ m : List (Str × Json), ((rebuiltMembers assignMember m).map Prod.fst) =
          m.map Prod.fst := by
        intro m
        rw [rebuiltMembers_eq, List.map_map]
        rfl
      have hnodup' : (m'.map Prod.fst).Nodup := by
        rw [← (hl.map Prod.fst).nodup_iff, ← h.keys]
        exact hnodup
      have hperm := foldl_assign_perm (l := rebuiltMembers assignMember m) (by rwa [hkeys])
      have hperm' := foldl_assign_perm (l := rebuiltMembers assignMember m') (by rwa [hkeys])
      have hmid : (rebuiltMembers assignMember l).Perm (rebuiltMembers assignMember m') := by
        rw [rebuiltMembers_eq, rebuiltMembers_eq]
        exact hl.map _
      obtain ⟨L, hL, hLperm⟩ := List.perm_comp_forall₂ hperm
        (sameMembers_iff_forall₂.mp (hrec.filter_ne (js "__proto__")))
      exact ⟨L, hLperm.trans ((hmid.filter _).trans hperm'.symm), sameMembers_iff_forall₂.mpr hL⟩
    | _ => exact h.elim
  | str s =>
    cases d' with
    | str t => exact h
    | _ => exact h.elim
  | builtin j =>
    cases d' with
    | builtin k => exact h
    | _ => exact h.elim
  | _ => cases d' <;> exact h

theorem sameElements_assigned (xs ys : List Json) (h : SameElements id xs ys)
    (hdist : fitsElements (distinctKeys id) xs = true) :
    SameElements id (rebuiltElements assignMember xs) (rebuiltElements assignMember ys) := by
  cases xs with
  | nil => cases ys <;> exact h
  | cons x xs =>
    cases ys with
    | nil => exact h
    | cons y ys =>
      rw [fitsElements, Bool.and_eq_true] at hdist
      exact ⟨same_assigned x y h.1 hdist.1, sameElements_assigned xs ys h.2 hdist.2⟩

theorem sameMembers_assigned (m l : List (Str × Json)) (h : SameMembers id m l)
    (hdist : ∀ e ∈ m, e.2.fits (distinctKeys id) = true) :
    SameMembers id (rebuiltMembers assignMember m) (rebuiltMembers assignMember l) := by
  cases m with
  | nil => cases l <;> exact h
  | cons e m =>
    cases l with
    | nil => exact h
    | cons e' l =>
      obtain ⟨hx, hdist⟩ := List.forall_mem_cons.mp hdist
      exact ⟨⟨h.1.1, same_assigned _ _ h.1.2 hx⟩, sameMembers_assigned m l h.2 hdist⟩

end

/-! ## Texts of normal forms -/

/-- Well-formed strings and keys that the canonical layer takes, distinct up to NFC, and no function. -/
def clean (H : Host) : Shape := (wellFormedDoc.and (writable H)).and (distinctKeys H.normalize)

theorem clean_iff {v : Json} : v.fits (clean H) = true ↔ v.fits wellFormedDoc = true ∧
    v.fits (writable H) = true ∧ v.fits (distinctKeys H.normalize) = true := by
  rw [clean, fits_and, fits_and, Bool.and_eq_true, Bool.and_eq_true, and_assoc]

/-- What the text of a normal form is parsed as. -/
theorem parseCanonical_normalForm (hH : H.Nfc) {v w : Json} (hwf : v.fits wellFormedDoc = true) :
    parseCanonical (printed (normalForm H v)) = .ok w ↔
      v.fits (distinctKeys H.normalize) = true ∧ assigned (normalForm H v) = w := by
  rw [parseCanonical_eq_ok, document_printed (hH.wellFormedDoc hwf), ← distinctKeys_normalForm]
  constructor
  · rintro ⟨d, hd, hdist, rfl⟩
    cases hd
    exact ⟨hdist, rfl⟩
  · rintro ⟨hdist, rfl⟩
    exact ⟨_, rfl, hdist, rfl⟩

/-- A normal form that assignment keeps has no key `__proto__`. -/
theorem avoids_of_normalForm_assigned (hH : H.Nfc) {v : Json} (hwf : v.fits wellFormedDoc = true)
    (h : normalForm H (assigned (normalForm H v)) = normalForm H v) :
    v.fits (avoids H.normalize) = true := by
  -- the keys that assignment leaves are in NFC
  have hnormal : (normalForm H v).fits
      (keyed (fun k => decide (H.normalize k = k)) (fun _ => true) false) = true := by
    rw [keyed_normalForm]
    exact keyed_mono (p := wellFormed) (q := wellFormed)
      (fun k _ => decide_eq_true (hH.idempotent k)) (fun _ _ => rfl) id v hwf
  have hassigned : (assigned (normalForm H v)).fits (avoids H.normalize) = true := by
    refine keyed_mono (fun k hk => ?_) (fun _ h => h) (fun _ => rfl) _ (keyed_assigned _ hnormal)
    simp only [Bool.and_eq_true, decide_eq_true_eq] at hk ⊢
    rw [hk.1]
    exact hk.2
  have hnf : ∀ w : Json, (normalForm H w).fits (avoids id) = w.fits (avoids H.normalize) :=
    fun _ => keyed_normalForm
  rw [← hnf, ← h, hnf]
  exact hassigned

/-- A normal form without a key `__proto__` is what its text is parsed as, but for the objects, which are
built anew. -/
theorem assigned_normalForm {v : Json} (h : v.fits (avoids H.normalize) = true) :
    assigned (normalForm H v) = built (normalForm H v) := by
  refine assigned_eq_built _ ?_
  have hnf : (normalForm H v).fits (avoids id) = v.fits (avoids H.normalize) := keyed_normalForm
  rw [hnf, h]

/-- The normal form of the value that is built from a normal form. -/
theorem normalForm_built_normalForm (hH : H.Nfc) {v : Json} (hwf : v.fits wellFormedDoc = true)
    (hdist : v.fits (distinctKeys H.normalize) = true) :
    normalForm H (built (normalForm H v)) = normalForm H v := by
  have hself := normalForm_normalForm hH v hwf hdist
  rw [normalForm_built hH _ (hH.wellFormedDoc hwf), hself]
  rw [← distinctKeys_normalForm, hself, distinctKeys_normalForm, hdist]

/-- The text of a value names it: equal texts belong to the values that are the same up to NFC and up
to the order of members, and each text is parsed as the normal form of its value. So it is if no key is
`__proto__` up to NFC. -/
theorem canonical_text_iff (hH : H.Nfc) {v w : Json} (hv : v.fits (clean H) = true)
    (hw : w.fits (clean H) = true) :
    (∃ s t, serialize H v = .ok s ∧ serialize H w = .ok t ∧ (s = t ↔ Same H.normalize v w) ∧
        parseCanonical s = .ok (built (normalForm H v)) ∧
        parseCanonical t = .ok (built (normalForm H w))) ↔
      v.fits (avoids H.normalize) = true ∧ w.fits (avoids H.normalize) = true := by
  have hreads : ∀ {u : Json}, u.fits (clean H) = true →
      (parseCanonical (printed (normalForm H u)) = .ok (built (normalForm H u)) ↔
        u.fits (avoids H.normalize) = true) := by
    intro u hu
    obtain ⟨hwf, -, hdist⟩ := clean_iff.mp hu
    rw [parseCanonical_normalForm hH hwf]
    constructor
    · rintro ⟨-, hassigned⟩
      refine avoids_of_normalForm_assigned hH hwf ?_
      rw [hassigned, normalForm_built_normalForm hH hwf hdist]
    · intro h
      exact ⟨hdist, assigned_normalForm h⟩
  obtain ⟨hvwf, hvw, hvd⟩ := clean_iff.mp hv
  obtain ⟨hwwf, hww, -⟩ := clean_iff.mp hw
  have hsame : printed (normalForm H v) = printed (normalForm H w) ↔ Same H.normalize v w := by
    rw [same_iff hH v w hvwf hvd]
    exact ⟨printed_inj (hH.wellFormedDoc hvwf) (hH.wellFormedDoc hwwf), congrArg printed⟩
  rw [serialize_eq_printed v hvw, serialize_eq_printed w hww]
  constructor
  · rintro ⟨s, t, hs, ht, -, hps, hpt⟩
    cases hs
    cases ht
    exact ⟨(hreads hv).mp hps, (hreads hw).mp hpt⟩
  · rintro ⟨h, h'⟩
    exact ⟨_, _, rfl, rfl, hsame, (hreads hv).mpr h, (hreads hw).mpr h'⟩

/-- A host whose NFC composes one letter and its accent. -/
def composing : Host := ⟨fun s => if s = [0x65, 0x301] then [0xE9] else s, fun _ => true⟩

theorem composing_nfc : composing.Nfc := by
  have hcases : ∀ s, s = [0x65, 0x301] ∧ composing.normalize s = [0xE9] ∨ composing.normalize s = s := by
    intro s
    by_cases h : s = [0x65, 0x301]
    · exact .inl ⟨h, if_pos h⟩
    · exact .inr (if_neg h)
  refine ⟨fun s => ?_, fun s hs => ?_, fun s _ => List.all_eq_true.mpr fun _ _ => rfl, fun s hs => ?_⟩
  · rcases hcases s with ⟨-, h⟩ | h
    · rw [h]
      decide
    · rw [h, h]
  · rcases hcases s with ⟨-, h⟩ | h
    · rw [h]
      decide
    · rw [h, hs]
  · rcases hcases s with ⟨-, h⟩ | h
    · rw [h]
      decide
    · rw [h]
      exact hs

/-- Two values that differ in a letter and its accent, and in the order of their members. -/
theorem canonical_text_composed :
    ∃ s t, serialize composing (.obj [(js "b", .int 1), (js "a", .str [0x65, 0x301])]) = .ok s ∧
      serialize composing (.obj [(js "a", .str [0xE9]), (js "b", .int 1)]) = .ok t ∧
      (s = t ↔ Same composing.normalize (.obj [(js "b", .int 1), (js "a", .str [0x65, 0x301])])
        (.obj [(js "a", .str [0xE9]), (js "b", .int 1)])) ∧
      parseCanonical s = .ok
        (built (normalForm composing (.obj [(js "b", .int 1), (js "a", .str [0x65, 0x301])]))) ∧
      parseCanonical t =
        .ok (built (normalForm composing (.obj [(js "a", .str [0xE9]), (js "b", .int 1)]))) :=
  (canonical_text_iff composing_nfc (by decide +kernel) (by decide +kernel)).mpr
    ⟨by decide +kernel, by decide +kernel⟩

/-- The text of an object with a member `__proto__` is parsed as an object without. -/
theorem canonical_text_loses_proto : composing.Nfc ∧
    (Json.obj [(js "__proto__", .int 1)]).fits (clean composing) = true ∧
    ∃ s, serialize composing (.obj [(js "__proto__", .int 1)]) = .ok s ∧
      parseCanonical s = .ok (.obj []) ∧
      parseCanonical s ≠ .ok (built (normalForm composing (.obj [(js "__proto__", .int 1)]))) := by
  have htext : js "\x7b\"__proto__\":1\x7d" = printed (.obj [(js "__proto__", .int 1)]) := by
    decide +kernel
  have hparse : parseCanonical (js "\x7b\"__proto__\":1\x7d") = .ok (.obj []) :=
    parseCanonical_eq_ok.mpr ⟨_, htext ▸ document_printed (by decide +kernel), by decide +kernel, rfl⟩
  have hbuilt : built (normalForm composing (.obj [(js "__proto__", .int 1)])) =
      .obj [(js "__proto__", .int 1)] := rfl
  refine ⟨composing_nfc, by decide +kernel, js "\x7b\"__proto__\":1\x7d", by decide +kernel, hparse,
    fun h => ?_⟩
  rw [hparse, hbuilt] at h
  cases h

/-- The canonical bytes of a text are a text with the same bytes, and each text with the same members has
them. -/
def CanonicalizesOnce (H : Host) (s : Str) (out : List UInt8) : Prop :=
  canonicalizeString H (utf8Decode out) = .ok out ∧
    ∀ d s' d', document s = some d → document s' = some d' → Same id d d' →
      canonicalizeString H s' = .ok out

theorem canonicalizeString_eq_ok {s : Str} {out : List UInt8} : canonicalizeString H s = .ok out ↔
    ∃ d, document s = some d ∧ d.fits (distinctKeys id) = true ∧
      (assigned d).fits (writable H) = true ∧
      utf8Encode (printed (normalForm H (assigned d))) = out := by
  simp only [canonicalizeString, bind_eq_ok, pure_eq_ok, parseCanonical_eq_ok]
  constructor
  · rintro ⟨-, ⟨d, hd, hdist, rfl⟩, t, ht, rfl⟩
    have hw := (serialize_returns_iff H _).mp ⟨t, ht⟩
    rw [serialize_eq_printed _ hw] at ht
    cases ht
    exact ⟨d, hd, hdist, hw, rfl⟩
  · rintro ⟨d, hd, hdist, hw, rfl⟩
    exact ⟨_, ⟨d, hd, hdist, rfl⟩, _, serialize_eq_printed _ hw, rfl⟩

/-- Canonicalization of a text is idempotent and does not depend on the order of members, if no two
members of an object have one key up to NFC and none has the key `__proto__` up to NFC; the members that
are named `__proto__` in the text itself are left out before, and do not count. -/
theorem canonicalizeString_fixed_iff (hH : H.Nfc) {s : Str} {d : Json} {out : List UInt8}
    (hd : document s = some d) (h : canonicalizeString H s = .ok out) :
    CanonicalizesOnce H s out ↔ (assigned d).fits (distinctKeys H.normalize) = true ∧
      (assigned d).fits (avoids H.normalize) = true := by
  obtain ⟨d', hd', hdist, hw, rfl⟩ := canonicalizeString_eq_ok.mp h
  rw [hd] at hd'
  cases hd'
  have hdwf := wellFormedDoc_of_document hd
  have hwf := wellFormedDoc_assigned hdwf
  have hdecode := utf8Decode_encode (wellFormed_printed _ (hH.wellFormedDoc hwf))
  have hdoc := document_printed (hH.wellFormedDoc hwf)
  rw [CanonicalizesOnce, hdecode]
  constructor
  · rintro ⟨hfixed, -⟩
    obtain ⟨D, hD, hDdist, -, htext⟩ := canonicalizeString_eq_ok.mp hfixed
    rw [hdoc] at hD
    cases hD
    rw [distinctKeys_normalForm] at hDdist
    -- one text, so one normal form
    have hDwf := wellFormedDoc_assigned (hH.wellFormedDoc hwf)
    have hprinted := utf8Encode_inj (wellFormed_printed _ (hH.wellFormedDoc hDwf))
      (wellFormed_printed _ (hH.wellFormedDoc hwf)) htext
    exact ⟨hDdist, avoids_of_normalForm_assigned hH hwf
      (printed_inj (hH.wellFormedDoc hDwf) (hH.wellFormedDoc hwf) hprinted)⟩
  · rintro ⟨hkeys, havoids⟩
    have hbuilt := assigned_normalForm havoids
    have hself := normalForm_built_normalForm hH hwf hkeys
    refine ⟨canonicalizeString_eq_ok.mpr ⟨_, hdoc, by rw [distinctKeys_normalForm, hkeys], ?_, ?_⟩,
      fun d₁ s' d' hd₁ hd' hsame => ?_⟩
    · -- the normal form keeps canonical strings, and building keeps the keys
      have hnf := hH.writable hw
      refine keyed_mono (p := fun k => isCanonicalString H k && decide (k ≠ js "__proto__"))
        (q := isCanonicalString H) (b := false) (fun k hk => (Bool.and_eq_true_iff.mp hk).1)
        (fun _ h => h) id _ (keyed_assigned _ hnf)
    · rw [hbuilt, hself]
    · rw [hd] at hd₁
      cases hd₁
      have hvalues := same_assigned d d' hsame hdist
      have hw' : (assigned d').fits (writable H) = true := by
        rw [← fits_of_same (S := writable H) (unordered_keyed _ _ _) _ _ hvalues, hw]
      have hdist' : d'.fits (distinctKeys id) = true := by
        rw [← fits_of_same (unordered_distinctKeys id) _ _ hsame, hdist]
      have hnf : normalForm H (assigned d) = normalForm H (assigned d') :=
        (same_iff hH _ _ hwf hkeys).mp (same_mono (fun s t hst => congrArg H.normalize hst) _ _ hvalues)
      exact canonicalizeString_eq_ok.mpr ⟨d', hd', hdist', hw', by rw [hnf]⟩

/-- A text without such members. -/
theorem canonicalizeString_composed : ∃ d out,
    document (js "\x7b\"b\":1,\"a\":[]\x7d") = some d ∧
      canonicalizeString composing (js "\x7b\"b\":1,\"a\":[]\x7d") = .ok out ∧
      CanonicalizesOnce composing (js "\x7b\"b\":1,\"a\":[]\x7d") out := by
  have htext : js "\x7b\"b\":1,\"a\":[]\x7d" =
      printed (.obj [(js "b", .int 1), (js "a", .arr [])]) := by
    decide +kernel
  have hd := htext ▸ document_printed (d := .obj [(js "b", .int 1), (js "a", .arr [])])
    (by decide +kernel)
  obtain ⟨out, hout⟩ := exists_of_isOk
    (x := canonicalizeString composing (js "\x7b\"b\":1,\"a\":[]\x7d")) (by decide +kernel)
  exact ⟨_, out, hd, hout,
    (canonicalizeString_fixed_iff composing_nfc hd hout).mpr ⟨by decide +kernel, by decide +kernel⟩⟩

/-- A text whose two keys are distinct and have one NFC form: its canonical bytes are rejected. -/
theorem canonicalizeString_duplicates : composing.Nfc ∧ ∃ out,
    canonicalizeString composing
      (js "\x7b\"" ++ [0xE9] ++ js "\":1,\"" ++ [0x65, 0x301] ++ js "\":2\x7d") = .ok out ∧
      canonicalizeString composing (utf8Decode out) =
        .error (.noncanonical "JCS_DUPLICATE_KEY") := by
  refine ⟨composing_nfc,
    utf8Encode (js "\x7b\"" ++ [0xE9] ++ js "\":1,\"" ++ [0xE9] ++ js "\":2\x7d"), ?_, ?_⟩
  · decide +kernel
  · rw [utf8Decode_encode (by decide +kernel)]
    decide +kernel

end ParadigmTerra
