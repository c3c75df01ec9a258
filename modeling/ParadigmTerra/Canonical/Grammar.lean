import ParadigmTerra.Canonical.NormalForm

/-!
# The grammar of canonical texts

`IsText` is the grammar of the restricted JSON profile: it relates a text to the document that is
written there. `document_eq_some_iff` says that reading finds the documents of the grammar and no others;
soundness (`docValue_sound`) follows the reader, and completeness (`docValue_written`) follows the grammar
with twice the length of the text as the bound of the recursion. Hence a text has one document at most
(`IsText.unique`), and the parser never runs out of its bound (`parseCanonical_ends`).

`meetsGrammar_iff` says when the parser keeps to the grammar: it accepts the texts of the grammar in which
no object repeats a key, and it returns what they denote unless an object has a member named
`__proto__`, which assignment drops.
-/

namespace ParadigmTerra

open Text Fallible

/-! ## The grammar -/

/-- White space of JSON. -/
def Spaces (w : Str) : Prop := ∀ u ∈ w, u = 0x20 ∨ u = 0x09 ∨ u = 0x0A ∨ u = 0x0D

/-- The short escapes: the unit after the backslash, and the unit that it stands for. -/
def shortEscapes : List (UInt16 × UInt16) :=
  [(0x22, 0x22), (0x5C, 0x5C), (0x2F, 0x2F), (0x62, 0x08), (0x66, 0x0C), (0x6E, 0x0A), (0x72, 0x0D),
    (0x74, 0x09)]

/-- The number that four hex digits spell. -/
def hexCode (a b c d : UInt16) : ℕ :=
  hexValue a * 4096 + hexValue b * 256 + hexValue c * 16 + hexValue d

/-- An escape without its backslash, and the unit that it stands for. -/
inductive IsEscape : Str → UInt16 → Prop
  | short {e u : UInt16} (h : (e, u) ∈ shortEscapes) : IsEscape [e] u
  | code {a b c d : UInt16} (hhex : [a, b, c, d].all isHexDigit = true)
    (hrange : hexCode a b c d < 0xD800 ∨ 0xDFFF < hexCode a b c d) :
    IsEscape [0x75, a, b, c, d] (UInt16.ofNat (hexCode a b c d))

/-- The inside of a string literal, and the string that it stands for. -/
inductive IsQuoted : Str → Str → Prop
  | nil : IsQuoted [] []
  | unit {u : UInt16} {t s : Str} (hcontrol : 0x20 ≤ u.toNat) (hquote : u ≠ 0x22)
    (hslash : u ≠ 0x5C) (hhigh : isHigh u = false) (hlow : isLow u = false) (h : IsQuoted t s) :
    IsQuoted (u :: t) (u :: s)
  | pair {u v : UInt16} {t s : Str} (hhigh : isHigh u = true) (hlow : isLow v = true)
    (h : IsQuoted t s) : IsQuoted (u :: v :: t) (u :: v :: s)
  | escape {e t s : Str} {u : UInt16} (he : IsEscape e u) (h : IsQuoted t s) :
    IsQuoted (0x5C :: (e ++ t)) (u :: s)

/-- Digits that do not begin with a zero. -/
structure IsPositive (ds : Str) : Prop where
  nonempty : ds ≠ []
  digits : ∀ u ∈ ds, isDigit u = true
  leading : ds.head? ≠ some 48

/-- The text of an integer: no leading zero, no fraction, no exponent and no negative zero. -/
inductive IsNumeral : Str → ℤ → Prop
  | zero : IsNumeral [48] 0
  | pos {ds : Str} (h : IsPositive ds) : IsNumeral ds (digitsValue ds)
  | neg {ds : Str} (h : IsPositive ds) : IsNumeral (0x2D :: ds) (-(digitsValue ds : ℤ))

mutual

/-- The text of a value, without white space around it. -/
inductive IsValueText : Str → Json → Prop
  | null : IsValueText (js "null") .null
  | bool (b : Bool) : IsValueText (js (if b then "true" else "false")) (.bool b)
  | int {t : Str} {n : ℤ} (h : IsNumeral t n) : IsValueText t (.int n)
  | str {t s : Str} (h : IsQuoted t s) : IsValueText (0x22 :: (t ++ [0x22])) (.str s)
  | arr_nil {w : Str} (h : Spaces w) : IsValueText (0x5B :: (w ++ [0x5D])) (.arr [])
  | arr {t : Str} {xs : List Json} (h : IsElements t xs) :
    IsValueText (0x5B :: (t ++ [0x5D])) (.arr xs)
  | obj_nil {w : Str} (h : Spaces w) : IsValueText (0x7B :: (w ++ [0x7D])) (.obj [])
  | obj {t : Str} {m : List (Str × Json)} (h : IsMembers t m) :
    IsValueText (0x7B :: (t ++ [0x7D])) (.obj m)

/-- A value with white space around it. -/
inductive IsText : Str → Json → Prop
  | mk {w t w' : Str} {d : Json} (hw : Spaces w) (h : IsValueText t d) (hw' : Spaces w') :
    IsText (w ++ (t ++ w')) d

/-- The elements of an array, with commas between them. -/
inductive IsElements : Str → List Json → Prop
  | last {t : Str} {d : Json} (h : IsText t d) : IsElements t [d]
  | cons {t u : Str} {d : Json} {ds : List Json} (h : IsText t d) (hds : IsElements u ds) :
    IsElements (t ++ 0x2C :: u) (d :: ds)

/-- The members of an object, with commas between them. -/
inductive IsMembers : Str → List (Str × Json) → Prop
  | last {w q k w' t : Str} {d : Json} (hw : Spaces w) (hk : IsQuoted q k) (hw' : Spaces w')
    (h : IsText t d) : IsMembers (w ++ 0x22 :: (q ++ 0x22 :: (w' ++ 0x3A :: t))) [(k, d)]
  | cons {w q k w' t u : Str} {d : Json} {m : List (Str × Json)} (hw : Spaces w)
    (hk : IsQuoted q k) (hw' : Spaces w') (h : IsText t d) (hm : IsMembers u m) :
    IsMembers (w ++ 0x22 :: (q ++ 0x22 :: (w' ++ 0x3A :: (t ++ 0x2C :: u)))) ((k, d) :: m)

end

/-! ## White space -/

theorem isSpace_iff {u : UInt16} :
    isSpace u = true ↔ u = 0x20 ∨ u = 0x09 ∨ u = 0x0A ∨ u = 0x0D := by
  simp only [isSpace, Bool.or_eq_true, decide_eq_true_eq, or_assoc]

theorem spaces_nil : Spaces [] := nofun

theorem Spaces.append {w w' : Str} (h : Spaces w) (h' : Spaces w') : Spaces (w ++ w') := by
  intro u hu
  rcases List.mem_append.mp hu with hu | hu
  · exact h u hu
  · exact h' u hu

/-- White space is skipped. -/
theorem Spaces.dropWhile {w : Str} (h : Spaces w) (r : Str) :
    (w ++ r).dropWhile isSpace = r.dropWhile isSpace :=
  List.dropWhile_append_of_pos fun u hu => isSpace_iff.mpr (h u hu)

/-- A text is the white space that it begins with and the rest. -/
theorem exists_spaces (s : Str) : ∃ w, Spaces w ∧ s = w ++ s.dropWhile isSpace := by
  refine ⟨s.takeWhile isSpace, fun u hu => isSpace_iff.mp ?_, List.takeWhile_append_dropWhile.symm⟩
  exact List.all_eq_true.mp List.all_takeWhile u hu

theorem IsText.prepend {w t : Str} {d : Json} (hw : Spaces w) (h : IsText t d) :
    IsText (w ++ t) d := by
  obtain ⟨hw₀, h, hw'⟩ := h
  rw [← List.append_assoc]
  exact .mk (hw.append hw₀) h hw'

theorem IsElements.prepend {w t : Str} {ds : List Json} (hw : Spaces w) (h : IsElements t ds) :
    IsElements (w ++ t) ds := by
  cases h with
  | last h => exact .last (h.prepend hw)
  | cons h hds =>
    rw [← List.append_assoc]
    exact .cons (h.prepend hw) hds

theorem IsMembers.prepend {w t : Str} {m : List (Str × Json)} (hw : Spaces w) (h : IsMembers t m) :
    IsMembers (w ++ t) m := by
  cases h with
  | last hw₀ hk hw' h =>
    rw [← List.append_assoc]
    exact .last (hw.append hw₀) hk hw' h
  | cons hw₀ hk hw' h hm =>
    rw [← List.append_assoc]
    exact .cons (hw.append hw₀) hk hw' h hm

/-! ## Strings -/

theorem mem_shortEscapes {e u : UInt16} : (e, u) ∈ shortEscapes ↔ simpleEscape e = some u := by
  constructor
  · intro h
    simp only [shortEscapes, List.mem_cons, Prod.mk.injEq, List.not_mem_nil, or_false] at h
    rcases h with ⟨rfl, rfl⟩ | ⟨rfl, rfl⟩ | ⟨rfl, rfl⟩ | ⟨rfl, rfl⟩ | ⟨rfl, rfl⟩ | ⟨rfl, rfl⟩ |
      ⟨rfl, rfl⟩ | ⟨rfl, rfl⟩ <;> rfl
  · intro h
    unfold simpleEscape at h
    split_ifs at h <;> cases h <;> subst_vars <;> decide

/-- The reader of strings reads what the grammar has. -/
theorem isQuoted_of_jcsString {t s r : Str} (h : jcsString t = .ok (s, r)) :
    ∃ q, IsQuoted q s ∧ t = q ++ 0x22 :: r := by
  fun_induction jcsString t generalizing s r with
  | case2 t =>
    cases h
    exact ⟨[], .nil, rfl⟩
  | case5 a b c d t hhex code hcode =>
    rename_i ih
    simp only [bind_eq_ok, pure_eq_ok] at h
    obtain ⟨⟨s, r⟩, hrec, h⟩ := h
    cases h
    obtain ⟨q, hq, rfl⟩ := ih hrec
    have hrange : hexCode a b c d < 0xD800 ∨ 0xDFFF < hexCode a b c d := by
      simp only [Bool.and_eq_true, decide_eq_true_eq] at hcode
      unfold hexCode
      omega
    have hall : [a, b, c, d].all isHexDigit = true := by
      simpa [and_assoc] using hhex
    exact ⟨_, .escape (.code hall hrange) hq, rfl⟩
  | case8 e t he u hu ih =>
    simp only [bind_eq_ok, pure_eq_ok] at h
    obtain ⟨⟨s, r⟩, hrec, h⟩ := h
    cases h
    obtain ⟨q, hq, rfl⟩ := ih hrec
    exact ⟨_, .escape (.short (mem_shortEscapes.mpr hu)) hq, rfl⟩
  | case14 u v t h1 h2 h3 hlt hpair ih =>
    simp only [bind_eq_ok, pure_eq_ok] at h
    obtain ⟨⟨s, r⟩, hrec, h⟩ := h
    cases h
    obtain ⟨q, hq, rfl⟩ := ih hrec
    rw [Bool.and_eq_true] at hpair
    exact ⟨_, .pair hpair.1 hpair.2 hq, rfl⟩
  | case16 u v t h1 h2 h3 hlt hpair hsur ih =>
    simp only [bind_eq_ok, pure_eq_ok] at h
    obtain ⟨⟨s, r⟩, hrec, h⟩ := h
    cases h
    obtain ⟨q, hq, hv⟩ := ih hrec
    rw [Bool.or_eq_true, not_or, Bool.not_eq_true, Bool.not_eq_true] at hsur
    exact ⟨u :: q, .unit (not_lt.mp hlt) h1 (fun hu => h3 hu) hsur.1 hsur.2 hq,
      by rw [hv, List.cons_append]⟩
  | _ => simp at h

/-- What the grammar has is read, up to the quote that ends it. -/
theorem jcsString_quoted {q s : Str} (h : IsQuoted q s) (r : Str) :
    jcsString (q ++ 0x22 :: r) = .ok (s, r) := by
  induction h with
  | nil => rfl
  | @unit u t s hcontrol hquote hslash hhigh hlow _ ih =>
    obtain ⟨v, l, hl⟩ := List.exists_cons_of_ne_nil (show t ++ 0x22 :: r ≠ [] by simp)
    rw [List.cons_append, hl, jcsString.eq_8 _ _ _ hquote (fun h => absurd h hslash) hslash,
      if_neg (not_lt.mpr hcontrol), hhigh, hlow, ← hl, ih]
    rfl
  | @pair u v t s hhigh hlow _ ih =>
    obtain ⟨-, h1, h2, h3⟩ := escapeUnit_surrogate (u := u) (by simp [hhigh])
    rw [List.cons_append, List.cons_append, jcsString.eq_8 _ _ _ h1 (fun h => absurd h h2) h2,
      if_neg h3, hhigh, hlow, ih]
    rfl
  | @escape e t s u he _ ih =>
    rw [List.cons_append, List.append_assoc]
    cases he with
    | @short e _ hmem =>
      have hnot : e ≠ 0x75 := by
        rintro rfl
        exact absurd (mem_shortEscapes.mp hmem) (by simp [simpleEscape])
      rw [List.singleton_append, jcsString.eq_6 _ _ hnot, mem_shortEscapes.mp hmem]
      simp only [ih]
      rfl
    | @code a b c d hhex hrange =>
      have hall : (isHexDigit a && isHexDigit b && isHexDigit c && isHexDigit d) = true := by
        simpa [and_assoc] using hhex
      have hnot : ¬(decide (0xD800 ≤ hexCode a b c d) && decide (hexCode a b c d ≤ 0xDFFF)) = true := by
        simp only [Bool.and_eq_true, decide_eq_true_eq]
        omega
      unfold hexCode at hnot
      simp only [List.cons_append, List.nil_append]
      rw [jcsString.eq_4, if_pos hall]
      simp only [hnot, ih]
      rfl

/-! ## Numbers -/

/-- Nothing follows that could belong to a number. -/
def EndsNumber (r : Str) : Prop :=
  ∀ c, r.head? = some c → isDigit c = false ∧ c ≠ 0x2E ∧ c ≠ 0x65 ∧ c ≠ 0x45

theorem EndsNumber.head {c : UInt16} {r : Str}
    (hc : isSpace c = true ∨ c = 0x2C ∨ c = 0x5D ∨ c = 0x7D) : EndsNumber (c :: r) := by
  rintro d hd
  cases hd
  rw [isSpace_iff] at hc
  rcases hc with (rfl | rfl | rfl | rfl) | rfl | rfl | rfl <;> decide

/-- The digits that the reader of numbers takes: a zero, or all up to the first other unit. -/
theorem digits_of_number {s ds : Str}
    (hds : ds = if s.head? = some 48 then [48] else s.takeWhile isDigit) :
    ds ++ s.drop ds.length = s ∧ (ds ≠ [] → ds = [48] ∨ IsPositive ds) := by
  split at hds
  · next hzero =>
    obtain ⟨l, rfl⟩ : ∃ l, s = 48 :: l := List.head?_eq_some_iff.mp hzero
    subst hds
    exact ⟨rfl, fun _ => .inl rfl⟩
  · next hzero =>
    subst hds
    refine ⟨List.prefix_iff_eq_append.mp (List.takeWhile_prefix _), fun hne => .inr ⟨hne,
      List.all_eq_true.mp List.all_takeWhile, fun hhead => hzero ?_⟩⟩
    cases s with
    | nil => cases hhead
    | cons u l =>
      rw [List.takeWhile_cons] at hhead
      split at hhead
      · exact hhead
      · cases hhead

/-- The reader of numbers reads what the grammar has. -/
theorem isNumeral_of_jcsNumber {s r : Str} {v : Json} (h : jcsNumber s = .ok (v, r)) :
    ∃ t n, IsNumeral t n ∧ v = .int n ∧ s = t ++ r := by
  unfold jcsNumber at h
  generalize hsplit : splitSign s = p at h
  obtain ⟨neg, l⟩ := p
  have hs : s = (if neg then [0x2D] else []) ++ l := by
    unfold splitSign at hsplit
    split at hsplit <;> cases hsplit <;> rfl
  dsimp only at h
  generalize hds : (if l.head? = some 48 then [48] else l.takeWhile isDigit) = ds at h
  obtain ⟨hl, hcase⟩ := digits_of_number hds.symm
  split_ifs at h with hempty hdot hexp hminus hneg
  · cases h
    have hpos : IsPositive ds := by
      refine (hcase hempty).resolve_left fun hzero => hminus ?_
      simp [hneg, hzero]
    exact ⟨_, _, .neg hpos, rfl, by
      rw [hs, if_pos hneg, List.singleton_append, List.cons_append, hl]⟩
  · cases h
    rw [if_neg hneg, List.nil_append] at hs
    rcases hcase hempty with rfl | hpos
    · exact ⟨_, _, .zero, rfl, by rw [hs, hl]⟩
    · exact ⟨_, _, .pos hpos, rfl, by rw [hs, hl]⟩

/-- What the grammar has is read, up to a unit that ends it. -/
theorem jcsNumber_digits {ds r : Str} {neg : Bool} (hds : ds = [48] ∧ neg = false ∨ IsPositive ds)
    (hr : EndsNumber r) : jcsNumber ((if neg then [0x2D] else []) ++ (ds ++ r)) =
      .ok (.int (if neg then -(digitsValue ds : ℤ) else digitsValue ds), r) := by
  have hfacts : ds ≠ [] ∧ (∀ u ∈ ds, isDigit u = true) ∧ (neg && decide (ds = [48])) = false ∧
      (if (ds ++ r).head? = some 48 then [48] else (ds ++ r).takeWhile isDigit) = ds := by
    rcases hds with ⟨rfl, rfl⟩ | hpos
    · exact ⟨nofun, List.forall_mem_singleton.mpr rfl, rfl, rfl⟩
    · have hstop : r.takeWhile isDigit = [] := by
        cases r with
        | nil => rfl
        | cons c r => rw [List.takeWhile_cons, if_neg (by simp [(hr c rfl).1])]
      have hzero : ds ≠ [48] := by
        rintro rfl
        exact hpos.leading rfl
      refine ⟨hpos.nonempty, hpos.digits, by simp [hzero], ?_⟩
      rw [List.head?_append_of_ne_nil _ hpos.nonempty, if_neg hpos.leading,
        List.takeWhile_append_of_pos hpos.digits, hstop, List.append_nil]
  obtain ⟨hne, hdigits, hminus, htake⟩ := hfacts
  have hsplit : splitSign ((if neg then [0x2D] else []) ++ (ds ++ r)) = (neg, ds ++ r) := by
    cases neg with
    | true => rfl
    | false =>
      obtain ⟨u, l, rfl⟩ := List.exists_cons_of_ne_nil hne
      have hu : u ≠ 45 := isDigit_ne (hdigits u (by simp)) (by decide)
      change splitSign (u :: (l ++ r)) = _
      rw [splitSign]
      · rfl
      · exact fun s hs => hu (List.cons.inj hs).1
  have hdot : ¬r.head? = some 0x2E := fun h => (hr _ h).2.1 rfl
  have he : ¬r.head? = some 0x65 := fun h => (hr _ h).2.2.1 rfl
  have hE : ¬r.head? = some 0x45 := fun h => (hr _ h).2.2.2 rfl
  simp only [jcsNumber, hsplit, htake, hne, List.drop_left, hdot, he, hE, hminus, if_false,
    decide_false, Bool.or_self, Bool.false_eq_true]
  rfl

theorem jcsNumber_numeral {t r : Str} {n : ℤ} (h : IsNumeral t n) (hr : EndsNumber r) :
    jcsNumber (t ++ r) = .ok (.int n, r) := by
  cases h with
  | zero => exact @jcsNumber_digits _ _ false (.inl ⟨rfl, rfl⟩) hr
  | pos hpos => exact @jcsNumber_digits _ _ false (.inr hpos) hr
  | neg hpos => exact @jcsNumber_digits _ _ true (.inr hpos) hr

/-! ## Soundness -/

/-- A value without parts, read from its first unit on. -/
theorem isValueText_of_scalar {n : ℕ} {c : UInt16} {t r : Str} {d : Json}
    (hspace : isSpace c = false) (h1 : c ≠ 0x7B) (h2 : c ≠ 0x5B)
    (h : jcsValue (n + 1) (c :: t) = .ok (d, r)) :
    ∃ u, IsValueText u d ∧ c :: t = u ++ r := by
  have hword : ∀ {w r : Str}, stripWord w (c :: t) = some r → c :: t = w ++ r := by
    intro w r hw
    unfold stripWord at hw
    split at hw
    · next hprefix =>
      cases hw
      exact (List.prefix_iff_eq_append.mp (List.isPrefixOf_iff_prefix.mp hprefix)).symm
    · cases hw
  rw [jcsValue, dropWhile_space_cons hspace] at h
  dsimp only at h
  rw [if_neg h1, if_neg h2] at h
  split_ifs at h with h3 h4 h5 h6
  · -- a string
    simp only [bind_eq_ok, pure_eq_ok] at h
    obtain ⟨⟨s, r'⟩, hs, h⟩ := h
    cases h
    obtain ⟨q, hq, rfl⟩ := isQuoted_of_jcsString hs
    exact ⟨_, .str hq, by rw [h3]; simp⟩
  · split at h
    · next htrue =>
      cases h
      exact ⟨_, .bool true, hword htrue⟩
    · next hfalse =>
      cases h
      exact ⟨_, .bool false, hword hfalse⟩
    · cases h
  · split at h
    · next hnull =>
      cases h
      exact ⟨_, .null, hword hnull⟩
    · cases h
  · obtain ⟨u, k, hu, rfl, hcut⟩ := isNumeral_of_jcsNumber h
    exact ⟨u, .int hu, hcut⟩

/-- What is read is written in the text. -/
theorem docValue_sound (n : ℕ) :
    (∀ s d r, docValue n s = some (d, r) →
      ∃ w t, Spaces w ∧ IsValueText t d ∧ s = w ++ (t ++ r)) ∧
    (∀ s m r, docMembers n s = some (m, r) → ∃ t, IsMembers t m ∧ s = t ++ 0x7D :: r) ∧
    (∀ s ds r, docElements n s = some (ds, r) → ∃ t, IsElements t ds ∧ s = t ++ 0x5D :: r) := by
  induction n with
  | zero =>
    refine ⟨fun s d r h => ?_, fun s m r h => ?_, fun s ds r h => ?_⟩
    · simp [docValue] at h
    · simp [docMembers] at h
    · simp [docElements] at h
  | succ n ih =>
    obtain ⟨hvalue, hmembers, helements⟩ := ih
    -- a value, the white space behind it and the unit that comes next
    have htext : ∀ {s u : Str} {d : Json} {c : UInt16} {r : Str}, docValue n s = some (d, u) →
        u.dropWhile isSpace = c :: r → ∃ t, IsText t d ∧ s = t ++ c :: r := by
      intro s u d c r hd hu
      obtain ⟨w, t, hw, ht, rfl⟩ := hvalue s d u hd
      obtain ⟨w', hw', hsplit⟩ := exists_spaces u
      rw [hu] at hsplit
      exact ⟨_, .mk hw ht hw', by rw [hsplit]; simp only [List.append_assoc]⟩
    refine ⟨fun s d r h => ?_, fun s m r h => ?_, fun s ds r h => ?_⟩
    · obtain ⟨c, t, hs, h⟩ := docValue_eq_some.mp h
      obtain ⟨w, hw, hsplit⟩ := exists_spaces s
      obtain ⟨w', hw', hsplit'⟩ := exists_spaces t
      rw [hs] at hsplit
      rcases h with ⟨rfl, ⟨ht, rfl⟩ | ⟨-, m, hm, rfl⟩⟩ | ⟨rfl, ⟨ht, rfl⟩ | ⟨-, ds, hds, rfl⟩⟩ |
        ⟨h1, h2, h⟩
      · rw [ht] at hsplit'
        exact ⟨w, _, hw, .obj_nil hw', by rw [hsplit, hsplit']; simp⟩
      · obtain ⟨u, hu, hcut⟩ := hmembers _ m r hm
        rw [hcut] at hsplit'
        exact ⟨w, _, hw, .obj (hu.prepend hw'), by rw [hsplit, hsplit']; simp⟩
      · rw [ht] at hsplit'
        exact ⟨w, _, hw, .arr_nil hw', by rw [hsplit, hsplit']; simp⟩
      · obtain ⟨u, hu, hcut⟩ := helements _ ds r hds
        rw [hcut] at hsplit'
        exact ⟨w, _, hw, .arr (hu.prepend hw'), by rw [hsplit, hsplit']; simp⟩
      · obtain ⟨u, hu, hcut⟩ := isValueText_of_scalar (isSpace_of_dropWhile hs) h1 h2 h
        exact ⟨w, u, hw, hu, by rw [hsplit, hcut]⟩
    · obtain ⟨t, k, t', u, d, u', ht, hk, hcolon, hd, h⟩ := docMembers_eq_some.mp h
      obtain ⟨w, hw, hsplit⟩ := exists_spaces s
      obtain ⟨q, hq, rfl⟩ := isQuoted_of_jcsString hk
      obtain ⟨w', hw', hsplit'⟩ := exists_spaces t'
      rw [ht] at hsplit
      rw [hcolon] at hsplit'
      rcases h with ⟨hclose, rfl⟩ | ⟨v, l, hcomma, hl, rfl⟩
      · obtain ⟨t, hdt, rfl⟩ := htext hd hclose
        exact ⟨_, .last hw hq hw' hdt, by rw [hsplit, hsplit']; simp⟩
      · obtain ⟨t, hdt, rfl⟩ := htext hd hcomma
        obtain ⟨x, hx, rfl⟩ := hmembers v l r hl
        exact ⟨_, .cons hw hq hw' hdt hx, by rw [hsplit, hsplit']; simp⟩
    · obtain ⟨d, u, hd, h⟩ := docElements_eq_some.mp h
      rcases h with ⟨hclose, rfl⟩ | ⟨v, l, hcomma, hl, rfl⟩
      · obtain ⟨t, hdt, rfl⟩ := htext hd hclose
        exact ⟨t, .last hdt, rfl⟩
      · obtain ⟨t, hdt, rfl⟩ := htext hd hcomma
        obtain ⟨x, hx, rfl⟩ := helements v l r hl
        exact ⟨_, .cons hdt hx, by simp⟩

/-! ## Completeness -/

/-- A unit with which a number begins is no other sign of the grammar. -/
theorem numberUnit_ne {c v : UInt16} (hc : c = 0x2D ∨ isDigit c = true) (hv : isDigit v = false)
    (hminus : v ≠ 0x2D) : c ≠ v := by
  rcases hc with rfl | hd
  · exact hminus.symm
  · exact isDigit_ne hd hv

theorem IsNumeral.head {t : Str} {n : ℤ} (h : IsNumeral t n) :
    ∃ c u, t = c :: u ∧ (c = 0x2D ∨ isDigit c = true) := by
  cases h with
  | zero => exact ⟨48, [], rfl, .inr rfl⟩
  | pos hpos =>
    obtain ⟨c, u, rfl⟩ := List.exists_cons_of_ne_nil hpos.nonempty
    exact ⟨c, u, rfl, .inr (hpos.digits c (by simp))⟩
  | neg hpos => exact ⟨0x2D, _, rfl, .inl rfl⟩

theorem isSpace_numberUnit {c : UInt16} (hc : c = 0x2D ∨ isDigit c = true) : isSpace c = false := by
  have hne : ∀ v, isDigit v = false → v ≠ 0x2D → c ≠ v := fun v => numberUnit_ne hc
  simp [isSpace, hne 0x20 (by decide) (by decide), hne 0x09 (by decide) (by decide),
    hne 0x0A (by decide) (by decide), hne 0x0D (by decide) (by decide)]

/-- The first unit of a value is no space, and does not close an array. -/
theorem IsValueText.head {t : Str} {d : Json} (h : IsValueText t d) :
    ∃ c u, t = c :: u ∧ isSpace c = false ∧ c ≠ 0x5D := by
  cases h with
  | null => exact ⟨_, _, rfl, by decide, by decide⟩
  | bool b => cases b <;> exact ⟨_, _, rfl, by decide, by decide⟩
  | int h =>
    obtain ⟨c, u, hu, hc⟩ := h.head
    exact ⟨c, u, hu, isSpace_numberUnit hc, numberUnit_ne hc (by decide) (by decide)⟩
  | _ => exact ⟨_, _, rfl, by decide, by decide⟩

/-- Elements without the white space before them. -/
theorem IsElements.strip {t : Str} {ds : List Json} (h : IsElements t ds) :
    ∃ w c u, t = w ++ c :: u ∧ Spaces w ∧ isSpace c = false ∧ c ≠ 0x5D ∧ IsElements (c :: u) ds := by
  cases h with
  | last h =>
    obtain ⟨hw, hd, hw'⟩ := h
    obtain ⟨c, u, rfl, hspace, hclose⟩ := hd.head
    exact ⟨_, c, _, rfl, hw, hspace, hclose, .last (.mk spaces_nil hd hw')⟩
  | @cons _ v _ _ h hds =>
    obtain ⟨hw, hd, hw'⟩ := h
    obtain ⟨c, u, rfl, hspace, hclose⟩ := hd.head
    exact ⟨_, c, _, by simp, hw, hspace, hclose,
      .cons (.mk spaces_nil hd hw') hds⟩

/-- Members without the white space before them. -/
theorem IsMembers.strip {t : Str} {m : List (Str × Json)} (h : IsMembers t m) :
    ∃ w u, t = w ++ 0x22 :: u ∧ Spaces w ∧ IsMembers (0x22 :: u) m := by
  cases h with
  | last hw hk hw' h => exact ⟨_, _, rfl, hw, .last spaces_nil hk hw' h⟩
  | cons hw hk hw' h hm => exact ⟨_, _, rfl, hw, .cons spaces_nil hk hw' h hm⟩

/-- What follows a value with its white space does not continue a number. -/
theorem Delimited.endsNumber {w r : Str} (hw : Spaces w) (hr : Delimited r) :
    EndsNumber (w ++ r) := by
  cases w with
  | nil =>
    cases r with
    | nil => nofun
    | cons c r => exact .head (.inr (hr c rfl))
  | cons c w => exact .head (.inl (isSpace_iff.mpr (hw c (by simp))))

/-- A value without parts is read where its first unit shows what it is. -/
theorem jcsValue_written {n : ℕ} {t r : Str} {d : Json} (h : IsValueText t d) (hd : IsScalar d)
    (hr : EndsNumber r) : ∃ c u, t ++ r = c :: u ∧ isSpace c = false ∧ c ≠ 0x7B ∧ c ≠ 0x5B ∧
      jcsValue (n + 1) (c :: u) = .ok (d, r) := by
  cases h with
  | arr_nil _ => exact hd.elim
  | arr _ => exact hd.elim
  | obj_nil _ => exact hd.elim
  | obj _ => exact hd.elim
  | null =>
    exact ⟨_, _, rfl, by decide, by decide, by decide, jcsValue_word (w := js "null") (by simp)⟩
  | bool b =>
    cases b with
    | true =>
      exact ⟨_, _, rfl, by decide, by decide, by decide, jcsValue_word (w := js "true") (by simp)⟩
    | false =>
      exact ⟨_, _, rfl, by decide, by decide, by decide, jcsValue_word (w := js "false") (by simp)⟩
  | str hq =>
    refine ⟨_, _, rfl, by decide, by decide, by decide, ?_⟩
    have hquote : isSpace 0x22 = false := by decide
    rw [List.append_eq, List.append_assoc, jcsValue, dropWhile_space_cons hquote]
    simp [jcsString_quoted hq]
  | int hn =>
    obtain ⟨c, u, rfl, hc⟩ := hn.head
    have hne : ∀ v, isDigit v = false → v ≠ 0x2D → c ≠ v := fun v => numberUnit_ne hc
    have h1 := hne 0x7B (by decide) (by decide)
    have h2 := hne 0x5B (by decide) (by decide)
    have h3 := hne 0x22 (by decide) (by decide)
    have h4 := hne 0x74 (by decide) (by decide)
    have h5 := hne 0x66 (by decide) (by decide)
    have h6 := hne 0x6E (by decide) (by decide)
    have hnum : (decide (c = 0x2D) || isDigit c) = true := by
      simpa [Bool.or_eq_true] using hc
    have hread := jcsNumber_numeral hn hr
    refine ⟨c, u ++ r, rfl, isSpace_numberUnit hc, h1, h2, ?_⟩
    rw [List.cons_append] at hread
    simp only [jcsValue, dropWhile_space_cons (isSpace_numberUnit hc), h1, h2, h3, h4, h5, h6, if_false,
      decide_false, Bool.or_self, Bool.false_eq_true, hnum, if_true, hread]

/-- What is written in a text is read, with twice the length of the text as a bound. -/
theorem docValue_written (n : ℕ) :
    (∀ w t w' d r, Spaces w → IsValueText t d → Spaces w' → Delimited r →
      2 * (w ++ t).length + 1 ≤ n → docValue n (w ++ (t ++ (w' ++ r))) = some (d, w' ++ r)) ∧
    (∀ t m r, IsMembers t m → 2 * t.length + 2 ≤ n → docMembers n (t ++ 0x7D :: r) = some (m, r)) ∧
    (∀ t ds r, IsElements t ds → 2 * t.length + 2 ≤ n →
      docElements n (t ++ 0x5D :: r) = some (ds, r)) := by
  induction n with
  | zero =>
    refine ⟨fun w t w' d r _ _ _ _ hn => ?_, fun t m r _ hn => ?_, fun t ds r _ hn => ?_⟩
    · omega
    · omega
    · omega
  | succ n ih =>
    obtain ⟨hvalue, hmembers, helements⟩ := ih
    -- a value with its white space, up to the sign that comes next
    have htext : ∀ {t r : Str} {d : Json} {c : UInt16}, IsText t d → c = 0x2C ∨ c = 0x5D ∨ c = 0x7D →
        2 * t.length + 1 ≤ n → ∃ u, docValue n (t ++ c :: r) = some (d, u) ∧
          u.dropWhile isSpace = c :: r := by
      rintro t r d c ⟨hw, hd, hw'⟩ hc hn
      have hspace : isSpace c = false := by
        rcases hc with rfl | rfl | rfl <;> decide
      simp only [List.length_append] at hn
      have hread := hvalue _ _ _ _ (c :: r) hw hd hw' (delimited_cons hc r) (by
        rw [List.length_append]
        omega)
      refine ⟨_, by simpa only [List.append_assoc] using hread, ?_⟩
      rw [hw'.dropWhile, dropWhile_space_cons hspace]
    refine ⟨fun w t w' d r hw ht hw' hr hn => ?_, fun t m r ht hn => ?_, fun t ds r ht hn => ?_⟩
    · have hscalar : IsScalar d → docValue (n + 1) (w ++ (t ++ (w' ++ r))) = some (d, w' ++ r) := by
        intro hd
        obtain ⟨c, u, hcut, hspace, h1, h2, hread⟩ :=
          jcsValue_written (n := n) ht hd (hr.endsNumber hw')
        refine docValue_eq_some.mpr ⟨c, u, ?_, .inr (.inr ⟨h1, h2, hread⟩)⟩
        rw [hw.dropWhile, hcut, dropWhile_space_cons hspace]
      simp only [List.length_append] at hn
      cases ht with
      | @arr_nil w₀ hw₀ =>
        refine docValue_eq_some.mpr ⟨0x5B, w₀ ++ 0x5D :: (w' ++ r), ?_, .inr (.inl ⟨rfl, .inl ⟨?_, rfl⟩⟩)⟩
        · rw [hw.dropWhile, List.cons_append, dropWhile_space_cons (by decide)]
          simp
        · rw [hw₀.dropWhile, dropWhile_space_cons (by decide)]
      | @obj_nil w₀ hw₀ =>
        refine docValue_eq_some.mpr ⟨0x7B, w₀ ++ 0x7D :: (w' ++ r), ?_, .inl ⟨rfl, .inl ⟨?_, rfl⟩⟩⟩
        · rw [hw.dropWhile, List.cons_append, dropWhile_space_cons (by decide)]
          simp
        · rw [hw₀.dropWhile, dropWhile_space_cons (by decide)]
      | @arr t ds hds =>
        obtain ⟨w₀, c, u, rfl, hw₀, hspace, hclose, hds⟩ := hds.strip
        simp only [List.length_append, List.length_cons, List.length_nil] at hn
        have hread := helements _ ds (w' ++ r) hds (by
          rw [List.length_cons]
          omega)
        have hdrop : (w₀ ++ (c :: u ++ 0x5D :: (w' ++ r))).dropWhile isSpace =
            c :: u ++ 0x5D :: (w' ++ r) := by
          rw [hw₀.dropWhile, List.cons_append, dropWhile_space_cons hspace]
        refine docValue_eq_some.mpr ⟨0x5B, w₀ ++ (c :: u ++ 0x5D :: (w' ++ r)), ?_,
          .inr (.inl ⟨rfl, .inr ⟨fun v hv => ?_, ds, ?_, rfl⟩⟩)⟩
        · rw [hw.dropWhile, List.cons_append, dropWhile_space_cons (by decide)]
          simp
        · rw [hdrop] at hv
          exact hclose (List.cons.inj hv).1
        · rw [hdrop, hread]
      | @obj t m hm =>
        obtain ⟨w₀, u, rfl, hw₀, hm⟩ := hm.strip
        simp only [List.length_append, List.length_cons, List.length_nil] at hn
        have hread := hmembers _ m (w' ++ r) hm (by
          rw [List.length_cons]
          omega)
        have hdrop : (w₀ ++ (0x22 :: u ++ 0x7D :: (w' ++ r))).dropWhile isSpace =
            0x22 :: u ++ 0x7D :: (w' ++ r) := by
          rw [hw₀.dropWhile, List.cons_append, dropWhile_space_cons (by decide)]
        refine docValue_eq_some.mpr ⟨0x7B, w₀ ++ (0x22 :: u ++ 0x7D :: (w' ++ r)), ?_,
          .inl ⟨rfl, .inr ⟨fun v hv => ?_, m, ?_, rfl⟩⟩⟩
        · rw [hw.dropWhile, List.cons_append, dropWhile_space_cons (by decide)]
          simp
        · rw [hdrop] at hv
          exact absurd (List.cons.inj hv).1 (by decide)
        · rw [hdrop, hread]
      | _ => exact hscalar trivial
    · cases ht with
      | @last w q k w' t d hw hk hw' h =>
        simp only [List.length_append, List.length_cons] at hn
        obtain ⟨u, hread, hclose⟩ := htext (r := r) h (.inr (.inr rfl)) (by omega)
        refine docMembers_eq_some.mpr ⟨q ++ 0x22 :: (w' ++ 0x3A :: (t ++ 0x7D :: r)), k,
          w' ++ 0x3A :: (t ++ 0x7D :: r), t ++ 0x7D :: r, d, u, ?_, jcsString_quoted hk _, ?_, hread,
          .inl ⟨hclose, rfl⟩⟩
        · rw [List.append_assoc, hw.dropWhile, List.cons_append, dropWhile_space_cons (by decide)]
          simp
        · rw [hw'.dropWhile, dropWhile_space_cons (by decide)]
      | @cons w q k w' t v d m hw hk hw' h hm =>
        simp only [List.length_append, List.length_cons] at hn
        obtain ⟨u, hread, hcomma⟩ := htext (r := v ++ 0x7D :: r) h (.inl rfl) (by omega)
        refine docMembers_eq_some.mpr ⟨q ++ 0x22 :: (w' ++ 0x3A :: (t ++ 0x2C :: (v ++ 0x7D :: r))), k,
          w' ++ 0x3A :: (t ++ 0x2C :: (v ++ 0x7D :: r)), t ++ 0x2C :: (v ++ 0x7D :: r), d, u, ?_,
          jcsString_quoted hk _, ?_, hread, .inr ⟨_, m, hcomma, hmembers v m r hm (by omega), rfl⟩⟩
        · rw [List.append_assoc, hw.dropWhile, List.cons_append, dropWhile_space_cons (by decide)]
          simp
        · rw [hw'.dropWhile, dropWhile_space_cons (by decide)]
    · cases ht with
      | last h =>
        obtain ⟨u, hread, hclose⟩ := htext (r := r) h (.inr (.inl rfl)) (by omega)
        exact docElements_eq_some.mpr ⟨_, u, hread, .inl ⟨hclose, rfl⟩⟩
      | @cons t v d ds h hds =>
        simp only [List.length_append, List.length_cons] at hn
        obtain ⟨u, hread, hcomma⟩ := htext (r := v ++ 0x5D :: r) h (.inl rfl) (by omega)
        refine docElements_eq_some.mpr ⟨d, u, ?_, .inr ⟨_, ds, hcomma, helements v ds r hds (by omega),
          rfl⟩⟩
        rw [List.append_assoc, List.cons_append]
        exact hread

/-- The document of a text is the one that the grammar has. -/
theorem document_eq_some_iff {s : Str} {d : Json} : document s = some d ↔ IsText s d := by
  constructor
  · intro h
    obtain ⟨⟨d', r⟩, hr, h⟩ := Option.bind_eq_some_iff.mp h
    dsimp only at h
    split_ifs at h with hnil
    cases h
    obtain ⟨w, t, hw, ht, rfl⟩ := (docValue_sound _).1 s d r hr
    obtain ⟨w', hw', hsplit⟩ := exists_spaces r
    rw [hnil, List.append_nil] at hsplit
    rw [hsplit]
    exact .mk hw ht hw'
  · intro h
    cases h with
    | @mk w t w' _ hw ht hw' =>
      have hread := (docValue_written (2 * (w ++ (t ++ w')).length + 1)).1 w t w' d [] hw ht hw'
        delimited_nil (by
          simp only [List.length_append]
          omega)
      have hend : w'.dropWhile isSpace = [] := by
        have := hw'.dropWhile []
        rwa [List.append_nil] at this
      rw [List.append_nil] at hread
      simp only [document, hread]
      exact if_pos hend

/-- A text has one document at most. -/
theorem IsText.unique {s : Str} {d d' : Json} (h : IsText s d) (h' : IsText s d') : d = d' := by
  rw [← document_eq_some_iff] at h h'
  rw [h] at h'
  exact Option.some.inj h'

/-! ## The bound of the recursion -/

/-- No error of the parser comes from its bound, when that is large enough. -/
def Ends {α : Type} (x : Except Throw α) : Prop := ThrowsOnly (· ≠ .rangeError) x

theorem ends_jcsString (t : Str) : Ends (jcsString t) := by
  unfold Ends
  fun_induction jcsString t with
  | case5 => simp_all
  | case8 => simp_all
  | case14 => simp_all
  | case16 => simp_all
  | _ => simp

theorem ends_jcsNumber (t : Str) : Ends (jcsNumber t) := by
  unfold jcsNumber Ends
  dsimp only
  split_ifs <;> simp

/-- What is left of a text after a value is shorter. -/
theorem length_of_jcsValue {n : ℕ} {s r : Str} {v : Json} (h : jcsValue n s = .ok (v, r)) :
    r.length < s.length := by
  obtain ⟨d, hd, -, -⟩ := ((parse_eq_assigned n).1 s v r).mp h
  obtain ⟨w, t, -, ht, rfl⟩ := (docValue_sound n).1 s d r hd
  obtain ⟨c, u, rfl, -⟩ := ht.head
  simp only [List.length_append, List.length_cons]
  omega

theorem length_of_jcsString {t s r : Str} (h : jcsString t = .ok (s, r)) : r.length < t.length := by
  obtain ⟨q, -, rfl⟩ := isQuoted_of_jcsString h
  simp only [List.length_append, List.length_cons]
  omega

theorem length_of_dropWhile {s r : Str} {c : UInt16} (h : s.dropWhile isSpace = c :: r) :
    r.length < s.length := by
  have hle := (List.dropWhile_suffix (l := s) isSpace).length_le
  rw [h, List.length_cons] at hle
  omega

/-- Twice the length of a text is enough for its nesting and its members. -/
theorem ends_jcsValue (n : ℕ) :
    (∀ s, 2 * s.length + 1 ≤ n → Ends (jcsValue n s)) ∧
    (∀ seen out s, 2 * s.length + 2 ≤ n → Ends (jcsMembers n seen out s)) ∧
    (∀ s, 2 * s.length + 2 ≤ n → Ends (jcsElements n s)) := by
  induction n with
  | zero =>
    refine ⟨fun s hn => ?_, fun seen out s hn => ?_, fun s hn => ?_⟩
    · omega
    · omega
    · omega
  | succ n ih =>
    obtain ⟨hvalue, hmembers, helements⟩ := ih
    unfold Ends at *
    refine ⟨fun s hn => ?_, fun seen out s hn => ?_, fun s hn => ?_⟩
    · rw [jcsValue]
      split
      · simp
      next c r hs =>
      have hr : r.length < s.length := length_of_dropWhile hs
      have hle := (List.dropWhile_suffix (l := r) isSpace).length_le
      split_ifs
      · split
        · simp
        · rw [throwsOnly_bind]
          exact ⟨hmembers _ _ _ (by omega), fun _ _ => by simp⟩
      · split
        · simp
        · rw [throwsOnly_bind]
          exact ⟨helements _ (by omega), fun _ _ => by simp⟩
      · rw [throwsOnly_bind]
        exact ⟨ends_jcsString r, fun _ _ => by simp⟩
      · split <;> simp
      · split <;> simp
      · exact ends_jcsNumber _
      · simp
    · rw [jcsMembers]
      split
      · next r hs =>
        rw [throwsOnly_bind]
        refine ⟨ends_jcsString r, fun p hk => ?_⟩
        obtain ⟨k, r'⟩ := p
        have h1 : r.length < s.length := length_of_dropWhile hs
        have h2 : r'.length < r.length := length_of_jcsString hk
        rw [throwsOnly_bind]
        refine ⟨by simp, fun _ _ => ?_⟩
        dsimp only
        split
        · next u hu =>
          have h3 : u.length < r'.length := length_of_dropWhile hu
          rw [throwsOnly_bind]
          refine ⟨hvalue u (by omega), fun p hv => ?_⟩
          obtain ⟨v, u'⟩ := p
          have h4 : u'.length < u.length := length_of_jcsValue hv
          dsimp only
          split
          · next x hx =>
            have h5 : x.length < u'.length := length_of_dropWhile hx
            exact hmembers _ _ x (by omega)
          · simp
          · simp
        · simp
      · simp
    · rw [jcsElements, throwsOnly_bind]
      refine ⟨hvalue s (by omega), fun p hv => ?_⟩
      obtain ⟨v, u⟩ := p
      have h1 : u.length < s.length := length_of_jcsValue hv
      dsimp only
      split
      · next x hx =>
        have h2 : x.length < u.length := length_of_dropWhile hx
        rw [throwsOnly_bind]
        exact ⟨helements x (by omega), fun _ _ => by simp⟩
      · simp
      · simp

/-- The parser comes to an end of its own on every text. -/
theorem parseCanonical_ends (s : Str) : parseCanonical s ≠ .error .rangeError := by
  intro h
  have hends : Ends (parseCanonical s) := by
    unfold Ends parseCanonical
    rw [throwsOnly_bind]
    exact ⟨(ends_jcsValue _).1 s le_rfl, fun _ _ => by simp⟩
  exact hends _ h rfl

/-! ## What a text denotes -/

/-- The parser accepts the texts of the grammar in which no object repeats a key. -/
theorem parseCanonical_accepts_iff {s : Str} : (∃ v, parseCanonical s = .ok v) ↔
    ∃ d, IsText s d ∧ d.fits (distinctKeys id) = true := by
  simp only [parseCanonical_eq_ok, document_eq_some_iff]
  constructor
  · rintro ⟨-, d, hd, hdist, -⟩
    exact ⟨d, hd, hdist⟩
  · rintro ⟨d, hd, hdist⟩
    exact ⟨_, d, hd, hdist, rfl⟩

/-- What a text of the grammar is parsed as. -/
theorem parseCanonical_isText {s : Str} {d : Json} (h : IsText s d)
    (hdist : d.fits (distinctKeys id) = true) : parseCanonical s = .ok (assigned d) :=
  parseCanonical_eq_ok.mpr ⟨d, document_eq_some_iff.mpr h, hdist, rfl⟩

/-- Strings as they are. -/
def plainHost : Host := ⟨id, fun _ => true⟩

theorem plainHost_nfc : plainHost.Nfc where
  idempotent := fun _ => rfl
  wellFormed := fun _ h => h
  assigned := fun _ h => h
  bom := fun _ h => h

/-- Assignment keeps all members exactly if none is named `__proto__`. -/
theorem assigned_eq_built_iff {d : Json} (hwf : d.fits wellFormedDoc = true)
    (hdist : d.fits (distinctKeys id) = true) : assigned d = built d ↔ d.fits (avoids id) = true := by
  constructor
  · intro h
    -- the normal form tells the keys of the document from those that assignment leaves
    have hbuilt : normalForm plainHost (built d) = normalForm plainHost d :=
      normalForm_built plainHost_nfc d hwf hdist
    have hkeys : ∀ w : Json, (normalForm plainHost w).fits (avoids id) = w.fits (avoids id) :=
      fun _ => keyed_normalForm
    rw [← hkeys, ← hbuilt, ← h, hkeys]
    exact avoids_assigned hwf
  · exact assigned_eq_built d

/-- What the parser is to do with a text: accept it exactly if it is in the grammar and no object of it
repeats a key, return the value with the members that are written, and come to an end. -/
structure MeetsGrammar (s : Str) : Prop where
  accepts : (∃ v, parseCanonical s = .ok v) ↔ ∃ d, IsText s d ∧ d.fits (distinctKeys id) = true
  denotes : ∀ d, IsText s d → d.fits (distinctKeys id) = true → parseCanonical s = .ok (built d)
  ends : parseCanonical s ≠ .error .rangeError

/-- The parser keeps to the grammar on a text exactly if no object of it, of those that it accepts, has
a member named `__proto__`. -/
theorem meetsGrammar_iff (s : Str) : MeetsGrammar s ↔
    ∀ d, IsText s d → d.fits (distinctKeys id) = true → d.fits (avoids id) = true := by
  constructor
  · intro h d hd hdist
    have hparse := h.denotes d hd hdist
    rw [parseCanonical_isText hd hdist] at hparse
    have hwf := wellFormedDoc_of_document (document_eq_some_iff.mpr hd)
    exact (assigned_eq_built_iff hwf hdist).mp (Except.ok.inj hparse)
  · intro h
    refine ⟨parseCanonical_accepts_iff, fun d hd hdist => ?_, parseCanonical_ends s⟩
    rw [parseCanonical_isText hd hdist, assigned_eq_built d (h d hd hdist)]

/-- A text with a member named `__proto__`. -/
def protoText : Str := js "\x7b\"__proto__\":1\x7d"

theorem isText_protoText : IsText protoText (.obj [(js "__proto__", .int 1)]) := by
  have hquoted : ∀ s : Str, (∀ u ∈ s, 0x20 ≤ u.toNat ∧ u ≠ 0x22 ∧ u ≠ 0x5C ∧ isHigh u = false ∧
      isLow u = false) → IsQuoted s s := by
    intro s hs
    induction s with
    | nil => exact .nil
    | cons u s ih =>
      obtain ⟨⟨h1, h2, h3, h4, h5⟩, hs⟩ := List.forall_mem_cons.mp hs
      exact .unit h1 h2 h3 h4 h5 (ih hs)
  have hproto := List.forall_iff_forall_mem.mp (show List.Forall (fun u : UInt16 => 0x20 ≤ u.toNat ∧
    u ≠ 0x22 ∧ u ≠ 0x5C ∧ isHigh u = false ∧ isLow u = false) (js "__proto__") by decide)
  have hvalue : IsText (js "1") (.int 1) := by
    have hone : IsPositive [49] := ⟨nofun, List.forall_mem_singleton.mpr rfl, by decide⟩
    exact @IsText.mk [] _ [] _ spaces_nil (.int (.pos hone)) spaces_nil
  have hmembers := IsMembers.last spaces_nil (hquoted (js "__proto__") hproto) spaces_nil hvalue
  exact @IsText.mk [] _ [] _ spaces_nil (.obj hmembers) spaces_nil

/-- The member is in the text, and not in what the parser returns. -/
theorem proto_member_lost : ¬MeetsGrammar protoText := by
  intro h
  have hparse := h.denotes _ isText_protoText (by decide +kernel)
  have hlost : ((parseCanonical protoText).toOption.map fun v => v.members.length) = some 0 := by
    decide +kernel
  rw [hparse] at hlost
  revert hlost
  decide +kernel

end ParadigmTerra
