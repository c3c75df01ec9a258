import ParadigmTerra.Canonical.NormalForm

/-!
# Encodable values

A value is encodable when its strings and keys are well-formed and canonical and it has no function.
Encodable values have canonical bytes, those of their normal form (`canonicalizeValue_eq`), and the
writes of the reducer make encodable values of encodable ones (`encodable_closed`).
-/

namespace ParadigmTerra

open Text OrderedMap Fallible

variable {H : Host}

/-! ## Canonical bytes -/

mutual

/-- The copy of a value with well-formed strings and no function assigns its members anew. -/
theorem coerceToJcsValue_eq (v : Json) (hv : v.fits wellFormedDoc = true) :
    coerceToJcsValue v = .ok (assigned v) := by
  cases v with
  | str s =>
    rw [coerceToJcsValue, require, if_pos (show wellFormed s = true from hv)]
    rfl
  | arr xs =>
    rw [coerceToJcsValue, coerceElements_eq xs hv]
    rfl
  | obj m =>
    rw [coerceToJcsValue, coerceMembers_eq m (wellFormedDoc_obj.mp hv)]
    rfl
  | builtin k => cases hv
  | _ => rfl

theorem coerceElements_eq (xs : List Json) (hxs : fitsElements wellFormedDoc xs = true) :
    coerceElements xs = .ok (rebuiltElements assignMember xs) := by
  cases xs with
  | nil => rfl
  | cons x xs =>
    rw [fitsElements, Bool.and_eq_true] at hxs
    rw [coerceElements, coerceToJcsValue_eq x hxs.1, coerceElements_eq xs hxs.2]
    rfl

theorem coerceMembers_eq (m : List (Str × Json))
    (hm : ∀ e ∈ m, wellFormed e.1 = true ∧ e.2.fits wellFormedDoc = true) :
    coerceMembers m = .ok (rebuiltMembers assignMember m) := by
  cases m with
  | nil => rfl
  | cons e m =>
    obtain ⟨k, x⟩ := e
    obtain ⟨⟨-, hx⟩, hm⟩ := List.forall_mem_cons.mp hm
    rw [coerceMembers, coerceToJcsValue_eq x hx, coerceMembers_eq m hm]
    rfl

end

/-- Well-formed canonical strings and keys, no function. -/
def encodable (H : Host) : Shape :=
  keyed (fun s => wellFormed s && isCanonicalString H s)
    (fun s => wellFormed s && isCanonicalString H s) false

theorem encodable_doc {v : Json} : v.fits (encodable H) = true →
    v.fits wellFormedDoc = true ∧ v.fits (writable H) = true := by
  intro h
  have hdoc : v.fits (keyed wellFormed wellFormed false) = true :=
    keyed_mono (fun _ hk => (Bool.and_eq_true_iff.mp hk).1) (fun _ hs => (Bool.and_eq_true_iff.mp hs).1) id v h
  have hwrite : v.fits (keyed (isCanonicalString H) (isCanonicalString H) false) = true :=
    keyed_mono (fun _ hk => (Bool.and_eq_true_iff.mp hk).2) (fun _ hs => (Bool.and_eq_true_iff.mp hs).2) id v h
  exact ⟨hdoc, hwrite⟩

theorem writable_assigned {d : Json} (hd : d.fits (writable H) = true) :
    (assigned d).fits (writable H) = true := by
  have h := keyed_assigned (p := isCanonicalString H) (q := isCanonicalString H) (b := false) d hd
  exact keyed_mono (fun k hk => (Bool.and_eq_true_iff.mp hk).1) (fun _ h => h) id _ h

/-- The canonical bytes of a value are those of its normal form. -/
theorem canonicalizeValue_eq {v : Json} (hv : v.fits (encodable H) = true) :
    canonicalizeValue H (some v) = .ok (utf8Encode (printed (normalForm H (assigned v)))) := by
  obtain ⟨hwf, hw⟩ := encodable_doc hv
  rw [canonicalizeValue, coerceToJcsValue_eq v hwf, ok_bind,
    serialize_eq_printed _ (writable_assigned hw)]
  rfl

/-- Values with the same canonical bytes have one normal form. -/
theorem normalForm_of_canonicalizeValue (hH : H.Nfc) {v w : Json} (hv : v.fits (encodable H) = true)
    (hw : w.fits (encodable H) = true)
    (h : canonicalizeValue H (some v) = canonicalizeValue H (some w)) :
    normalForm H (assigned v) = normalForm H (assigned w) := by
  rw [canonicalizeValue_eq hv, canonicalizeValue_eq hw] at h
  have hdoc : ∀ {u : Json}, u.fits (encodable H) = true →
      (normalForm H (assigned u)).fits wellFormedDoc = true := fun hu =>
    hH.wellFormedDoc (wellFormedDoc_assigned (encodable_doc hu).1)
  exact printed_inj (hdoc hv) (hdoc hw) (utf8Encode_inj (wellFormed_printed _ (hdoc hv))
    (wellFormed_printed _ (hdoc hw)) (Except.ok.inj h))

theorem codePoints_append {s t : Str} (hs : wellFormed s = true) :
    codePoints (s ++ t) = codePoints s ++ codePoints t := by
  induction s using wellFormed.induct with
  | case1 => rfl
  | case2 u =>
    simp only [wellFormed, Bool.and_eq_true, Bool.not_eq_true'] at hs
    cases t with
    | nil => rfl
    | cons v t => simp [codePoints, hs.1]
  | case3 u v s hu ih =>
    simp only [wellFormed, hu, if_true, Bool.and_eq_true] at hs
    simp [codePoints, hu, hs.1, ih hs.2]
  | case4 u v s hu ih =>
    simp only [wellFormed, hu, if_false, Bool.false_eq_true, Bool.and_eq_true] at hs
    have ih := ih hs.2
    rw [List.cons_append] at ih
    simp [codePoints, hu, ih]

/-- Texts that are joined by a comma. -/
theorem encodable_comma (hH : H.Ascii) {s t : Str}
    (hs : (wellFormed s && isCanonicalString H s) = true)
    (ht : (wellFormed t && isCanonicalString H t) = true) :
    (wellFormed (s ++ js "," ++ t) && isCanonicalString H (s ++ js "," ++ t)) = true := by
  have hcomma : js "," = [0x2C] := by decide
  have hwf : wellFormed (s ++ js ",") = true :=
    wellFormed_append (Bool.and_eq_true_iff.mp hs).1 (by decide)
  rw [Bool.and_eq_true] at hs ht ⊢
  refine ⟨wellFormed_append hwf ht.1, ?_⟩
  have hsc := hs.2
  have htc := ht.2
  simp only [isCanonicalString, Bool.and_eq_true, decide_eq_true_eq] at hsc htc ⊢
  constructor
  · cases s with
    | nil => simp [hcomma]
    | cons u s => exact hsc.1
  · rw [codePoints_append hwf, codePoints_append hs.1, List.all_append, List.all_append, hsc.2, htc.2,
      hcomma]
    simp [codePoints, hH.assigned]

mutual

theorem encodable_stringOf (hH : H.Ascii) (v : Json) (hv : v.fits (encodable H) = true) {s : Str}
    (h : stringOf v = .ok s) : (wellFormed s && isCanonicalString H s) = true := by
  have hascii : ∀ {s : Str}, isAscii s = true →
      (wellFormed s && isCanonicalString H s) = true := fun hs =>
    Bool.and_eq_true_iff.mpr ⟨wellFormed_of_isAscii hs, hH.isCanonicalString hs⟩
  cases v with
  | null =>
    cases h
    exact hascii (by decide)
  | bool b =>
    cases b <;> cases h <;> exact hascii (by decide)
  | int n =>
    cases h
    exact hascii (isAscii_decimal n)
  | str t =>
    cases h
    exact hv
  | arr xs => exact encodable_joined hH xs hv h
  | obj m =>
    rw [stringOf] at h
    split at h
    · cases h
      exact hascii (by decide)
    · cases h
      exact hascii (by decide)
    · cases h
  | builtin k => cases hv

theorem encodable_joined (hH : H.Ascii) (xs : List Json) (hxs : fitsElements (encodable H) xs = true)
    {s : Str} (h : joined xs = .ok s) : (wellFormed s && isCanonicalString H s) = true := by
  have hnil : (wellFormed [] && isCanonicalString H []) = true :=
    Bool.and_eq_true_iff.mpr ⟨rfl, hH.isCanonicalString rfl⟩
  match xs with
  | [] =>
    cases h
    exact hnil
  | [x] =>
    rw [fitsElements, Bool.and_eq_true] at hxs
    rw [joined] at h
    split at h
    · cases h
      exact hnil
    · exact encodable_stringOf hH x hxs.1 h
  | x :: y :: xs =>
    rw [fitsElements, Bool.and_eq_true] at hxs
    rw [joined] at h
    split at h
    · obtain ⟨a, ha, h⟩ := bind_eq_ok.mp h
      obtain ⟨b, hb, h⟩ := bind_eq_ok.mp h
      cases ha
      cases h
      exact encodable_comma hH hnil (encodable_joined hH (y :: xs) hxs.2 hb)
    · obtain ⟨a, ha, h⟩ := bind_eq_ok.mp h
      obtain ⟨b, hb, h⟩ := bind_eq_ok.mp h
      cases h
      exact encodable_comma hH (encodable_stringOf hH x hxs.1 ha)
        (encodable_joined hH (y :: xs) hxs.2 hb)

end

/-- The reducer's writes keep values encodable. -/
theorem encodable_closed (hH : H.Ascii) : (encodable H).Closed where
  nil := rfl
  put := by
    intro k v m hk hm
    refine List.all_eq_true.mpr fun e he => ?_
    rcases mem_put he with rfl | he
    · exact hk
    · exact List.all_eq_true.mp hm e he
  erase := by
    intro k m hm
    exact List.all_eq_true.mpr fun e he => List.all_eq_true.mp hm e (mem_erase.mp he).1
  ascii := by
    intro s hs
    exact Bool.and_eq_true_iff.mpr ⟨wellFormed_of_isAscii hs, hH.isCanonicalString hs⟩
  text := fun v s hv h => encodable_stringOf hH v hv h

end ParadigmTerra
