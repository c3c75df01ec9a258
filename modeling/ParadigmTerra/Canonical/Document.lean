import ParadigmTerra.Canonical.Bytes
import ParadigmTerra.Canonical.Numerals

/-!
# Documents

A JSON text has a tree: its document. It lists the members of each object as they are written, also
those that are written twice or are named `__proto__`. `printed` writes a document in the minimal form, and
`document` reads the document of a text; `document_printed` says that reading inverts writing.

`parseCanonical` reads the document of a text, checks that the keys of each object are distinct, and
builds the objects by assignment (`parseCanonical_eq_ok`).
-/

namespace ParadigmTerra

open Text OrderedMap Fallible

/-! ## Strings -/

/-- A unit that is escaped where it has to be is read back. -/
theorem jcsString_escapeUnit {u : UInt16} (hhigh : isHigh u = false) (hlow : isLow u = false)
    {t : Str} (ht : t ≠ []) : jcsString (escapeUnit u ++ t) = (do
      let (s, r) ← jcsString t
      pure (u :: s, r)) := by
  obtain ⟨v, t, rfl⟩ := List.exists_cons_of_ne_nil ht
  unfold escapeUnit
  split_ifs with h1 h2 h3 h4 h5 h6 h7 h8
  iterate 7 (subst_vars; exact jcsString.eq_6 _ _ (by decide))
  · -- a control character is written by its code
    have hhex : ∀ n, n < 16 → isHexDigit (hexDigit n) = true := fun n hn => (hexDigit_spec n hn).1
    have hval : ∀ n, n < 16 → hexValue (hexDigit n) = n := fun n hn => (hexDigit_spec n hn).2
    have hzero : isHexDigit 48 = true ∧ hexValue 48 = 0 := by decide
    have hjs : js "\\u00" = [0x5C, 0x75, 48, 48] := by decide
    have hlt : u.toNat / 16 < 16 ∧ u.toNat % 16 < 16 := by omega
    have hcode : hexValue 48 * 4096 + hexValue 48 * 256 + hexValue (hexDigit (u.toNat / 16)) * 16 +
        hexValue (hexDigit (u.toNat % 16)) = u.toNat := by
      rw [hzero.2, hval _ hlt.1, hval _ hlt.2]
      omega
    have hnot : ¬(decide (0xD800 ≤ u.toNat) && decide (u.toNat ≤ 0xDFFF)) = true := by
      simp only [Bool.and_eq_true, decide_eq_true_eq]
      omega
    rw [hjs]
    simp only [List.cons_append, List.nil_append]
    rw [jcsString.eq_4, hzero.1, hhex _ hlt.1, hhex _ hlt.2]
    simp only [hcode, hnot, Bool.and_self, Bool.false_eq_true, if_true, if_false, UInt16.ofNat_toNat]
  · rw [List.singleton_append, jcsString.eq_8 _ _ _ h1 (fun h => absurd h h2) h2, if_neg h8, hhigh]
    simp [hlow]

/-- A surrogate is written as it is. -/
theorem escapeUnit_surrogate {u : UInt16} (h : (isHigh u || isLow u) = true) :
    escapeUnit u = [u] ∧ u ≠ 0x22 ∧ u ≠ 0x5C ∧ ¬u.toNat < 0x20 := by
  simp only [isHigh, isLow, Bool.or_eq_true, Bool.and_eq_true, decide_eq_true_eq] at h
  have hne : ∀ n : UInt16, n.toNat < 0x80 → u ≠ n := by
    rintro n hn rfl
    omega
  refine ⟨?_, hne _ (by decide), hne _ (by decide), by omega⟩
  unfold escapeUnit
  rw [if_neg (hne _ (by decide)), if_neg (hne _ (by decide)), if_neg (hne _ (by decide)),
    if_neg (hne _ (by decide)), if_neg (hne _ (by decide)), if_neg (hne _ (by decide)),
    if_neg (hne _ (by decide)), if_neg (by omega)]

/-- The inside of a string literal is read back. -/
theorem jcsString_escaped {s : Str} (hs : wellFormed s = true) (r : Str) :
    jcsString (s.flatMap escapeUnit ++ 0x22 :: r) = .ok (s, r) := by
  induction s using wellFormed.induct with
  | case1 => rfl
  | case2 u =>
    simp only [wellFormed, Bool.and_eq_true, Bool.not_eq_true'] at hs
    rw [List.flatMap_cons, List.flatMap_nil, List.append_nil,
      jcsString_escapeUnit hs.1 hs.2 (by simp)]
    rfl
  | case3 u v s hu ih =>
    -- the two units of a pair are written as they are
    simp only [wellFormed, hu, if_true, Bool.and_eq_true] at hs
    obtain ⟨hesc, h1, h2, h3⟩ := escapeUnit_surrogate (u := u) (by simp [hu])
    obtain ⟨hesc', -, -, -⟩ := escapeUnit_surrogate (u := v) (by simp [hs.1])
    rw [List.flatMap_cons, List.flatMap_cons, hesc, hesc']
    simp only [List.cons_append, List.nil_append]
    rw [jcsString.eq_8 _ _ _ h1 (fun h => absurd h h2) h2, if_neg h3, hu, hs.1, ih hs.2]
    rfl
  | case4 u v s hu ih =>
    simp only [wellFormed, hu, if_false, Bool.false_eq_true, Bool.and_eq_true, Bool.not_eq_true']
      at hs
    rw [List.flatMap_cons, List.append_assoc, jcsString_escapeUnit (by simpa using hu) hs.1 (by simp),
      ih hs.2]
    rfl

theorem hexValue_lt {u : UInt16} (h : isHexDigit u = true) : hexValue u < 16 := by
  simp only [isHexDigit, isDigit, Bool.or_eq_true, Bool.and_eq_true, decide_eq_true_eq] at h
  simp only [hexValue, isDigit, Bool.and_eq_true, decide_eq_true_eq]
  split_ifs <;> omega

/-- What is read as a string is well-formed. -/
theorem wellFormed_of_jcsString {t s r : Str} (h : jcsString t = .ok (s, r)) :
    wellFormed s = true := by
  have hplain : ∀ {u : UInt16} {s : Str}, (isHigh u || isLow u) = false → wellFormed s = true →
      wellFormed (u :: s) = true := by
    intro u s hu hs
    rw [Bool.or_eq_false_iff] at hu
    exact wellFormed_append (s := [u]) (by simp [wellFormed, hu.1, hu.2]) hs
  have hascii : ∀ {u : UInt16}, u.toNat < 0x80 → (isHigh u || isLow u) = false := by
    intro u hu
    simp only [isHigh, isLow, Bool.or_eq_false_iff, Bool.and_eq_false_iff, decide_eq_false_iff_not]
    omega
  have hescape : ∀ {e u : UInt16}, simpleEscape e = some u → u.toNat < 0x80 := by
    intro e u he
    unfold simpleEscape at he
    split_ifs at he <;> cases he <;> decide
  fun_induction jcsString t generalizing s r with
  | case2 t =>
    cases h
    rfl
  | case5 a b c d t hhex code hcode =>
    rename_i ih
    simp only [bind_eq_ok, pure_eq_ok] at h
    obtain ⟨⟨s, r⟩, hrec, h⟩ := h
    cases h
    refine hplain ?_ (ih hrec)
    simp only [Bool.and_eq_true] at hhex
    have ha := hexValue_lt hhex.1.1.1
    have hb := hexValue_lt hhex.1.1.2
    have hc := hexValue_lt hhex.1.2
    have hd := hexValue_lt hhex.2
    simp only [Bool.and_eq_true, decide_eq_true_eq] at hcode
    simp only [isHigh, isLow, UInt16.toNat_ofNat', Bool.or_eq_false_iff, Bool.and_eq_false_iff,
      decide_eq_false_iff_not]
    omega
  | case8 e t he u hu ih =>
    simp only [bind_eq_ok, pure_eq_ok] at h
    obtain ⟨⟨s, r⟩, hrec, h⟩ := h
    cases h
    exact hplain (hascii (hescape hu)) (ih hrec)
  | case14 u v t h1 h2 h3 hlt hpair ih =>
    simp only [bind_eq_ok, pure_eq_ok] at h
    obtain ⟨⟨s, r⟩, hrec, h⟩ := h
    cases h
    rw [Bool.and_eq_true] at hpair
    exact wellFormed_append (s := [u, v]) (by simp [wellFormed, hpair.1, hpair.2]) (ih hrec)
  | case16 u v t h1 h2 h3 hlt hpair hsur ih =>
    simp only [bind_eq_ok, pure_eq_ok] at h
    obtain ⟨⟨s, r⟩, hrec, h⟩ := h
    cases h
    exact hplain (by simpa using hsur) (ih hrec)
  | _ => simp at h

/-! ## Numbers -/

/-- What may follow a value in a printed document. -/
def Delimited (r : Str) : Prop := ∀ c, r.head? = some c → c = 0x2C ∨ c = 0x5D ∨ c = 0x7D

theorem delimited_nil : Delimited [] := nofun

theorem delimited_cons {c : UInt16} (hc : c = 0x2C ∨ c = 0x5D ∨ c = 0x7D) (r : Str) :
    Delimited (c :: r) := by
  rintro d hd
  cases hd
  exact hc

theorem jcsNumber_decimal (n : ℤ) {r : Str} (hr : Delimited r) :
    jcsNumber (decimal n ++ r) = .ok (.int n, r) := by
  obtain ⟨hne, hdigits⟩ := decimalNat_digits n.natAbs
  have hhead : ∀ c, r.head? = some c → isDigit c = false ∧ c ≠ 0x2E ∧ c ≠ 0x65 ∧ c ≠ 0x45 := by
    intro c hc
    rcases hr c hc with rfl | rfl | rfl <;> decide
  have htake : (decimalNat n.natAbs ++ r).takeWhile isDigit = decimalNat n.natAbs := by
    rw [List.takeWhile_append_of_pos hdigits]
    cases r with
    | nil => simp
    | cons c r => simp [(hhead c rfl).1]
  -- a numeral that begins with a zero is zero
  have hzero : (decimalNat n.natAbs).head? = some 48 → decimalNat n.natAbs = [48] := by
    intro h
    have hdec := isDecimal_decimalNat n.natAbs
    simp only [isDecimal, h, Bool.and_eq_true, Bool.or_eq_true, decide_eq_true_eq] at hdec
    rcases hdec.2 with hd | hd
    · exact absurd rfl hd
    · obtain ⟨u, hu⟩ := List.length_eq_one_iff.mp hd
      rw [hu] at h ⊢
      cases h
      rfl
  have hsigned : ∀ neg : Bool, (splitSign (decimal n ++ r)) = (neg, decimalNat n.natAbs ++ r) →
      (neg = true → decimalNat n.natAbs ≠ [48]) →
      (if neg = true then -(digitsValue (decimalNat n.natAbs) : ℤ)
        else digitsValue (decimalNat n.natAbs)) = n →
      jcsNumber (decimal n ++ r) = .ok (.int n, r) := by
    intro neg hsplit hneg hval
    have hsel : (if (decimalNat n.natAbs ++ r).head? = some 48 then [48]
        else (decimalNat n.natAbs ++ r).takeWhile isDigit) = decimalNat n.natAbs := by
      rw [htake, List.head?_append_of_ne_nil _ hne]
      split
      · next h => exact (hzero h).symm
      · rfl
    have hdot : ¬r.head? = some 0x2E := fun h => (hhead _ h).2.1 rfl
    have he : ¬r.head? = some 0x65 := fun h => (hhead _ h).2.2.1 rfl
    have hE : ¬r.head? = some 0x45 := fun h => (hhead _ h).2.2.2 rfl
    have hminus : ¬(neg && decide (decimalNat n.natAbs = [48])) = true := by
      rw [Bool.and_eq_true, decide_eq_true_eq]
      exact fun h => hneg h.1 h.2
    simp only [jcsNumber, hsplit, hsel, hne, List.drop_left, hdot, he, hE, hminus, if_false,
      decide_false, Bool.or_self, Bool.false_eq_true, hval]
    rfl
  by_cases hn : n < 0
  · refine hsigned true (by rw [decimal, if_pos hn]; rfl) (fun _ h => ?_) ?_
    · have hv := digitsValue_decimalNat n.natAbs
      rw [h] at hv
      have : n.natAbs = 0 := hv.symm
      omega
    · rw [if_pos rfl, digitsValue_decimalNat]
      omega
  · refine hsigned false ?_ (fun h => by cases h) ?_
    · rw [decimal, if_neg hn]
      obtain ⟨u, l, hl⟩ := List.exists_cons_of_ne_nil hne
      have hu : u ≠ 45 := by
        rintro rfl
        have := hdigits 45 (by rw [hl]; simp)
        cases this
      rw [hl, List.cons_append, splitSign]
      intro s hs
      exact hu (List.cons.inj hs).1
    · rw [if_neg (by decide), digitsValue_decimalNat]
      omega

/-! ## Documents of texts -/

mutual

/-- The document that a text begins with, and the text that follows it. Strings, numbers and words are
read as values are. -/
def docValue : ℕ → Str → Option (Json × Str)
  | 0, _ => none
  | n + 1, s =>
    match s.dropWhile isSpace with
    | [] => none
    | c :: r =>
      if c = 0x7B then
        match r.dropWhile isSpace with
        | 0x7D :: r => some (.obj [], r)
        | r => (docMembers n r).map fun p => (.obj p.1, p.2)
      else if c = 0x5B then
        match r.dropWhile isSpace with
        | 0x5D :: r => some (.arr [], r)
        | r => (docElements n r).map fun p => (.arr p.1, p.2)
      else (jcsValue (n + 1) (c :: r)).toOption

/-- The members of an object from the next key on. -/
def docMembers : ℕ → Str → Option (List (Str × Json) × Str)
  | 0, _ => none
  | n + 1, s =>
    match s.dropWhile isSpace with
    | 0x22 :: r => do
      let (k, r) ← (jcsString r).toOption
      match r.dropWhile isSpace with
      | 0x3A :: r => do
        let (v, r) ← docValue n r
        match r.dropWhile isSpace with
        | 0x2C :: r => do
          let (m, r) ← docMembers n r
          some ((k, v) :: m, r)
        | 0x7D :: r => some ([(k, v)], r)
        | _ => none
      | _ => none
    | _ => none

/-- The elements of an array from the next one on. -/
def docElements : ℕ → Str → Option (List Json × Str)
  | 0, _ => none
  | n + 1, s => do
    let (v, r) ← docValue n s
    match r.dropWhile isSpace with
    | 0x2C :: r => do
      let (vs, r) ← docElements n r
      some (v :: vs, r)
    | 0x5D :: r => some ([v], r)
    | _ => none

end

/-- The document of a text. -/
def document (json : Str) : Option Json := do
  let (d, r) ← docValue (2 * json.length + 1) json
  if r.dropWhile isSpace = [] then some d else none

/-! ## Minimal texts -/

/-- A string literal, without normalization. -/
def literal (s : Str) : Str := 0x22 :: (s.flatMap escapeUnit ++ [0x22])

mutual

/-- The minimal text of a document. -/
def printed : Json → Str
  | .null => js "null"
  | .bool b => if b then js "true" else js "false"
  | .int n => decimal n
  | .str s => literal s
  | .arr xs => 0x5B :: (joinWith (js ",") (printedElements xs) ++ [0x5D])
  | .obj m => 0x7B :: (joinWith (js ",") (printedMembers m) ++ [0x7D])
  | .builtin _ => []

def printedElements : List Json → List Str
  | [] => []
  | x :: xs => printed x :: printedElements xs

def printedMembers : List (Str × Json) → List Str
  | [] => []
  | (k, v) :: m => (literal k ++ 0x3A :: printed v) :: printedMembers m

end

/-- Well-formed strings and keys, no function. -/
def wellFormedDoc : Shape :=
  ⟨wellFormed, fun m => m.all fun e => wellFormed e.1, fun _ => false⟩

theorem wellFormedDoc_obj {m : List (Str × Json)} : (Json.obj m).fits wellFormedDoc = true ↔
    ∀ e ∈ m, wellFormed e.1 = true ∧ e.2.fits wellFormedDoc = true := by
  simp only [Json.fits, wellFormedDoc, Bool.and_eq_true, List.all_eq_true, fitsMembers_iff]
  exact ⟨fun h e he => ⟨h.1 e he, h.2 e he⟩, fun h => ⟨fun e he => (h e he).1, fun e he => (h e he).2⟩⟩

theorem dropWhile_space_cons {c : UInt16} (hc : isSpace c = false) (r : Str) :
    (c :: r).dropWhile isSpace = c :: r := by
  rw [List.dropWhile_cons, if_neg (by simp [hc])]

theorem isDigit_ne {u v : UInt16} (hu : isDigit u = true) (hv : isDigit v = false) : u ≠ v := by
  rintro rfl
  rw [hu] at hv
  cases hv

/-- A numeral begins with a sign or a digit. -/
theorem decimal_head (n : ℤ) : ∃ c t, decimal n = c :: t ∧ (c = 0x2D ∨ isDigit c = true) ∧
    isSpace c = false ∧ ∀ v, isDigit v = false → v ≠ 0x2D → c ≠ v := by
  have hfirst : ∃ c t, decimal n = c :: t ∧ (c = 0x2D ∨ isDigit c = true) := by
    obtain ⟨hne, hdigits⟩ := decimalNat_digits n.natAbs
    rw [decimal]
    split
    · exact ⟨_, _, rfl, .inl rfl⟩
    · obtain ⟨u, l, hl⟩ := List.exists_cons_of_ne_nil hne
      exact ⟨u, l, hl, .inr (hdigits u (by rw [hl]; simp))⟩
  obtain ⟨c, t, hc, hcase⟩ := hfirst
  have hne : ∀ v, isDigit v = false → v ≠ 0x2D → c ≠ v := by
    intro v hv hminus
    rcases hcase with rfl | hd
    · exact hminus.symm
    · exact isDigit_ne hd hv
  have h1 := hne 0x20 (by decide) (by decide)
  have h2 := hne 0x09 (by decide) (by decide)
  have h3 := hne 0x0A (by decide) (by decide)
  have h4 := hne 0x0D (by decide) (by decide)
  exact ⟨c, t, hc, hcase, by simp [isSpace, h1, h2, h3, h4], hne⟩

/-- The first unit of a text is no space, and does not close an array. -/
theorem printed_head {d : Json} (hd : d.fits wellFormedDoc = true) :
    ∃ c t, printed d = c :: t ∧ isSpace c = false ∧ c ≠ 0x5D := by
  cases d with
  | null => exact ⟨_, _, rfl, by decide, by decide⟩
  | bool b => cases b <;> exact ⟨_, _, rfl, by decide, by decide⟩
  | int n =>
    obtain ⟨c, t, hc, -, hspace, hne⟩ := decimal_head n
    exact ⟨c, t, hc, hspace, hne _ (by decide) (by decide)⟩
  | str s => exact ⟨_, _, rfl, by decide, by decide⟩
  | arr xs => exact ⟨_, _, rfl, by decide, by decide⟩
  | obj m => exact ⟨_, _, rfl, by decide, by decide⟩
  | builtin k => cases hd

/-- A word that is a value is read. -/
theorem jcsValue_word {n : ℕ} {w r : Str} {v : Json}
    (h : (w, v) ∈ [(js "null", Json.null), (js "true", .bool true), (js "false", .bool false)]) :
    jcsValue (n + 1) (w ++ r) = .ok (v, r) := by
  have hnull : js "null" = [0x6E, 0x75, 0x6C, 0x6C] := by decide
  have htrue : js "true" = [0x74, 0x72, 0x75, 0x65] := by decide
  have hfalse : js "false" = [0x66, 0x61, 0x6C, 0x73, 0x65] := by decide
  simp only [List.mem_cons, Prod.mk.injEq, List.not_mem_nil, or_false] at h
  rcases h with ⟨rfl, rfl⟩ | ⟨rfl, rfl⟩ | ⟨rfl, rfl⟩
  · rw [hnull]
    simp [jcsValue, isSpace, stripWord, hnull]
  · rw [htrue]
    simp [jcsValue, isSpace, stripWord, htrue]
  · rw [hfalse]
    simp [jcsValue, isSpace, stripWord, hfalse, htrue]

/-- A number that is a value is read. -/
theorem jcsValue_decimal {n : ℕ} (k : ℤ) {r : Str} (hr : Delimited r) :
    jcsValue (n + 1) (decimal k ++ r) = .ok (.int k, r) := by
  have hnumber := jcsNumber_decimal k hr
  obtain ⟨c, t, hc, hfirst, hspace, hne⟩ := decimal_head k
  have h1 := hne 0x7B (by decide) (by decide)
  have h2 := hne 0x5B (by decide) (by decide)
  have h3 := hne 0x22 (by decide) (by decide)
  have h4 := hne 0x74 (by decide) (by decide)
  have h5 := hne 0x66 (by decide) (by decide)
  have h6 := hne 0x6E (by decide) (by decide)
  have hnum : (decide (c = 0x2D) || isDigit c) = true := by
    rcases hfirst with rfl | hd
    · rfl
    · rw [hd, Bool.or_true]
  rw [hc, List.cons_append] at hnumber ⊢
  simp only [jcsValue, dropWhile_space_cons hspace, h1, h2, h3, h4, h5, h6, if_false, decide_false,
    Bool.or_self, Bool.false_eq_true, hnum, if_true, hnumber]

/-- A string that is a value is read. -/
theorem jcsValue_literal {n : ℕ} {s : Str} (hs : wellFormed s = true) (r : Str) :
    jcsValue (n + 1) (literal s ++ r) = .ok (.str s, r) := by
  have hrest : (s.flatMap escapeUnit ++ [0x22]) ++ r = s.flatMap escapeUnit ++ 0x22 :: r := by simp
  rw [literal, List.cons_append, hrest]
  simp only [jcsValue, dropWhile_space_cons (show isSpace 0x22 = false by decide),
    jcsString_escaped hs]
  rfl

theorem joinWith_cons_cons (sep s t : Str) (l : List Str) :
    joinWith sep (s :: t :: l) = s ++ sep ++ joinWith sep (t :: l) := rfl

mutual

/-- The document of a minimal text. -/
theorem docValue_printed (d : Json) (hd : d.fits wellFormedDoc = true) {n : ℕ} {r : Str}
    (hn : (printed d).length < n) (hr : Delimited r) : docValue n (printed d ++ r) = some (d, r) := by
  obtain ⟨n, rfl⟩ := Nat.exists_eq_succ_of_ne_zero (Nat.ne_zero_of_lt hn)
  have hscalar : ∀ {c : UInt16} {t : Str}, printed d = c :: t → isSpace c = false → c ≠ 0x7B →
      c ≠ 0x5B → jcsValue (n + 1) (printed d ++ r) = .ok (d, r) →
      docValue (n + 1) (printed d ++ r) = some (d, r) := by
    intro c t hc hspace h1 h2 h
    rw [hc, List.cons_append] at h ⊢
    simp only [docValue, dropWhile_space_cons hspace, h1, h2, if_false, h]
    rfl
  cases d with
  | null => exact hscalar rfl (by decide) (by decide) (by decide) (jcsValue_word (by simp [printed]))
  | bool b =>
    cases b with
    | true =>
      exact hscalar rfl (by decide) (by decide) (by decide) (jcsValue_word (by simp [printed]))
    | false =>
      exact hscalar rfl (by decide) (by decide) (by decide) (jcsValue_word (by simp [printed]))
  | int k =>
    obtain ⟨c, t, hc, -, hspace, hne⟩ := decimal_head k
    exact hscalar hc hspace (hne _ (by decide) (by decide))
      (hne _ (by decide) (by decide)) (jcsValue_decimal k hr)
  | str s => exact hscalar rfl (by decide) (by decide) (by decide) (jcsValue_literal hd r)
  | arr xs =>
    rw [printed] at hn ⊢
    rw [Nat.succ_eq_add_one, List.cons_append, List.append_assoc, docValue,
      dropWhile_space_cons (by decide)]
    dsimp only
    rw [if_neg (by decide), if_pos rfl]
    cases xs with
    | nil => simp [printedElements, joinWith, dropWhile_space_cons (show isSpace 0x5D = false by decide)]
    | cons x xs =>
      have hread := docElements_printed (x :: xs) hd (n := n) (r := r) (by simp) (by
        simp only [List.length_cons, List.length_append, List.length_nil] at hn
        omega)
      -- the first element does not close the array
      have hx : x.fits wellFormedDoc = true := by
        simp only [Json.fits, fitsElements, Bool.and_eq_true] at hd
        exact hd.1
      obtain ⟨c, t, hc, hspace, hclose⟩ := printed_head hx
      have hstart : ∃ u, joinWith (js ",") (printedElements (x :: xs)) ++ ([0x5D] ++ r) = c :: u := by
        rw [printedElements, hc]
        cases printedElements xs with
        | nil => exact ⟨_, rfl⟩
        | cons y ys => exact ⟨_, rfl⟩
      obtain ⟨u, hu⟩ := hstart
      rw [List.singleton_append] at hu ⊢
      rw [hu] at hread ⊢
      rw [dropWhile_space_cons hspace]
      split
      · next heq => exact absurd (List.cons.inj heq).1 hclose
      · rw [hread]
        rfl
  | obj m =>
    rw [printed] at hn ⊢
    rw [Nat.succ_eq_add_one, List.cons_append, List.append_assoc, docValue,
      dropWhile_space_cons (by decide)]
    dsimp only
    rw [if_pos rfl]
    cases m with
    | nil => simp [printedMembers, joinWith, dropWhile_space_cons (show isSpace 0x7D = false by decide)]
    | cons e m =>
      have hread := docMembers_printed (e :: m) (wellFormedDoc_obj.mp hd) (n := n) (r := r) (by simp)
        (by
          simp only [List.length_cons, List.length_append, List.length_nil] at hn
          omega)
      obtain ⟨k, x⟩ := e
      -- the first key begins with a quote
      have hstart : ∃ u, joinWith (js ",") (printedMembers ((k, x) :: m)) ++ ([0x7D] ++ r) =
          0x22 :: u := by
        rw [printedMembers, literal]
        cases printedMembers m with
        | nil => exact ⟨_, rfl⟩
        | cons y ys => exact ⟨_, rfl⟩
      obtain ⟨u, hu⟩ := hstart
      rw [List.singleton_append] at hu ⊢
      rw [hu] at hread ⊢
      rw [dropWhile_space_cons (by decide)]
      split
      · next heq => exact absurd (List.cons.inj heq).1 (by decide)
      · rw [hread]
        rfl
  | builtin k => cases hd

/-- The elements of an array, up to the bracket that closes it. -/
theorem docElements_printed (xs : List Json) (hxs : fitsElements wellFormedDoc xs = true) {n : ℕ}
    {r : Str} (hne : xs ≠ []) (hn : (joinWith (js ",") (printedElements xs)).length + 1 < n) :
    docElements n (joinWith (js ",") (printedElements xs) ++ 0x5D :: r) = some (xs, r) := by
  obtain ⟨n, rfl⟩ := Nat.exists_eq_succ_of_ne_zero (Nat.ne_zero_of_lt hn)
  have hcomma : js "," = [0x2C] := by decide
  cases xs with
  | nil => exact absurd rfl hne
  | cons x xs =>
    rw [fitsElements, Bool.and_eq_true] at hxs
    cases xs with
    | nil =>
      rw [printedElements, printedElements, joinWith] at hn ⊢
      rw [docElements, docValue_printed x hxs.1 (by omega) (delimited_cons (.inr (.inl rfl)) r)]
      simp [dropWhile_space_cons (show isSpace 0x5D = false by decide)]
    | cons y ys =>
      have hrest : printedElements (y :: ys) = printed y :: printedElements ys := rfl
      rw [printedElements, hrest, joinWith_cons_cons, ← hrest, hcomma] at hn ⊢
      simp only [List.length_append, List.length_cons, List.length_nil] at hn
      rw [List.append_assoc, List.append_assoc, List.singleton_append, docElements,
        docValue_printed x hxs.1 (by omega) (delimited_cons (.inl rfl) _)]
      have hread := docElements_printed (y :: ys) hxs.2 (n := n) (r := r) (by simp)
        (by rw [hcomma]; omega)
      rw [hcomma] at hread
      simp [dropWhile_space_cons (show isSpace 0x2C = false by decide), hread]

/-- The members of an object, up to the brace that closes it. -/
theorem docMembers_printed (m : List (Str × Json))
    (hm : ∀ e ∈ m, wellFormed e.1 = true ∧ e.2.fits wellFormedDoc = true) {n : ℕ} {r : Str}
    (hne : m ≠ []) (hn : (joinWith (js ",") (printedMembers m)).length + 1 < n) :
    docMembers n (joinWith (js ",") (printedMembers m) ++ 0x7D :: r) = some (m, r) := by
  obtain ⟨n, rfl⟩ := Nat.exists_eq_succ_of_ne_zero (Nat.ne_zero_of_lt hn)
  have hcomma : js "," = [0x2C] := by decide
  cases m with
  | nil => exact absurd rfl hne
  | cons e m =>
    obtain ⟨k, x⟩ := e
    obtain ⟨⟨hk, hx⟩, hm⟩ := List.forall_mem_cons.mp hm
    -- the key and the value of the first member
    have hkey : ∀ u, literal k ++ 0x3A :: (printed x ++ u) =
        0x22 :: (k.flatMap escapeUnit ++ 0x22 :: 0x3A :: (printed x ++ u)) := by
      intro u
      simp [literal]
    have hcolon : ∀ u, (0x3A :: (printed x ++ u)).dropWhile isSpace = 0x3A :: (printed x ++ u) :=
      fun u => dropWhile_space_cons (by decide) _
    have hquote : isSpace 0x22 = false := by decide
    cases m with
    | nil =>
      rw [printedMembers, printedMembers, joinWith] at hn ⊢
      simp only [List.length_append, List.length_cons] at hn
      rw [List.append_assoc, List.cons_append, hkey, docMembers, dropWhile_space_cons hquote]
      simp [jcsString_escaped hk, hcolon, Except.toOption,
        docValue_printed x hx (show _ < n by omega) (delimited_cons (.inr (.inr rfl)) r),
        dropWhile_space_cons (show isSpace 0x7D = false by decide)]
    | cons f m =>
      have hrest : printedMembers (f :: m) =
          (literal f.1 ++ 0x3A :: printed f.2) :: printedMembers m := rfl
      rw [printedMembers, hrest, joinWith_cons_cons, ← hrest, hcomma] at hn ⊢
      simp only [List.length_append, List.length_cons, List.length_nil] at hn
      have hread := docMembers_printed (f :: m) hm (n := n) (r := r) (by simp)
        (by rw [hcomma]; omega)
      rw [hcomma] at hread
      rw [List.append_assoc, List.append_assoc, List.append_assoc, List.cons_append, hkey, docMembers,
        dropWhile_space_cons hquote]
      simp [jcsString_escaped hk, hcolon, Except.toOption,
        docValue_printed x hx (show _ < n by omega) (delimited_cons (.inl rfl) _),
        dropWhile_space_cons (show isSpace 0x2C = false by decide), hread]

end

/-- The document of its minimal text is the document. -/
theorem document_printed {d : Json} (hd : d.fits wellFormedDoc = true) :
    document (printed d) = some d := by
  have h := docValue_printed d hd (n := 2 * (printed d).length + 1) (by omega) delimited_nil
  rw [List.append_nil] at h
  rw [document, h]
  rfl

/-- Two documents with one minimal text are one. -/
theorem printed_inj {d d' : Json} (hd : d.fits wellFormedDoc = true)
    (hd' : d'.fits wellFormedDoc = true) (h : printed d = printed d') : d = d' := by
  have hdoc := document_printed hd
  rw [h, document_printed hd'] at hdoc
  exact (Option.some.inj hdoc).symm

/-! ## What the parser makes of a document -/

mutual

/-- The value whose objects are built from the members of a document in their order. -/
def rebuilt (store : Str → Json → List (Str × Json) → List (Str × Json)) : Json → Json
  | .arr xs => .arr (rebuiltElements store xs)
  | .obj m => .obj ((rebuiltMembers store m).foldl (fun out e => store e.1 e.2 out) [])
  | v => v

def rebuiltElements (store : Str → Json → List (Str × Json) → List (Str × Json)) :
    List Json → List Json
  | [] => []
  | x :: xs => rebuilt store x :: rebuiltElements store xs

def rebuiltMembers (store : Str → Json → List (Str × Json) → List (Str × Json)) :
    List (Str × Json) → List (Str × Json)
  | [] => []
  | (k, x) :: m => (k, rebuilt store x) :: rebuiltMembers store m

end

/-- The value that assignments make of a document. -/
def assigned : Json → Json := rebuilt assignMember

/-- No two members of an object have one key up to `f`. -/
def distinctKeys (f : Str → Str) : Shape :=
  ⟨fun _ => true, fun m => decide (m.map fun e => f e.1).Nodup, fun _ => true⟩

theorem rebuiltMembers_eq (store : Str → Json → List (Str × Json) → List (Str × Json))
    (m : List (Str × Json)) : rebuiltMembers store m = m.map fun e => (e.1, rebuilt store e.2) := by
  induction m with
  | nil => rfl
  | cons e m ih => rw [rebuiltMembers, ih, List.map_cons]

/-- The values without parts. -/
def IsScalar : Json → Prop
  | .null | .bool _ | .int _ | .str _ => True
  | _ => False

theorem IsScalar.assigned {v : Json} (h : IsScalar v) :
    assigned v = v ∧ v.fits (distinctKeys id) = true := by
  cases v with
  | arr xs => exact h.elim
  | obj m => exact h.elim
  | builtin k => exact h.elim
  | _ => exact ⟨rfl, rfl⟩

/-- What a text that begins with neither a brace nor a bracket is read as. -/
theorem isScalar_of_jcsValue {n : ℕ} {c : UInt16} {t r : Str} {v : Json}
    (hspace : isSpace c = false) (h1 : c ≠ 0x7B) (h2 : c ≠ 0x5B)
    (h : jcsValue (n + 1) (c :: t) = .ok (v, r)) : IsScalar v ∧ v.fits wellFormedDoc = true := by
  rw [jcsValue, dropWhile_space_cons hspace] at h
  dsimp only at h
  rw [if_neg h1, if_neg h2] at h
  split_ifs at h with h3 h4 h5 h6
  · simp only [bind_eq_ok, pure_eq_ok] at h
    obtain ⟨⟨s, r'⟩, hs, h⟩ := h
    cases h
    exact ⟨trivial, wellFormed_of_jcsString hs⟩
  · split at h <;> cases h <;> exact ⟨trivial, rfl⟩
  · split at h <;> cases h
    exact ⟨trivial, rfl⟩
  · -- a number is an integer
    unfold jcsNumber at h
    dsimp only at h
    split_ifs at h <;> cases h <;> exact ⟨trivial, rfl⟩

theorem isSpace_of_dropWhile {s t : Str} {c : UInt16} (h : s.dropWhile isSpace = c :: t) :
    isSpace c = false := by
  have hne : s.dropWhile isSpace ≠ [] := by simp [h]
  have hhead := List.head_dropWhile_not isSpace hne
  simpa [h] using hhead

/-- How a value is read: its first unit tells which kind it is of. -/
theorem jcsValue_eq_ok {n : ℕ} {s r : Str} {v : Json} : jcsValue (n + 1) s = .ok (v, r) ↔
    ∃ c t, s.dropWhile isSpace = c :: t ∧
      ((c = 0x7B ∧ (t.dropWhile isSpace = 0x7D :: r ∧ v = .obj [] ∨
          (∀ u, t.dropWhile isSpace ≠ 0x7D :: u) ∧
            ∃ m, jcsMembers n [] [] (t.dropWhile isSpace) = .ok (m, r) ∧ v = .obj m)) ∨
        (c = 0x5B ∧ (t.dropWhile isSpace = 0x5D :: r ∧ v = .arr [] ∨
          (∀ u, t.dropWhile isSpace ≠ 0x5D :: u) ∧
            ∃ xs, jcsElements n (t.dropWhile isSpace) = .ok (xs, r) ∧ v = .arr xs)) ∨
        (c ≠ 0x7B ∧ c ≠ 0x5B ∧ jcsValue (n + 1) (c :: t) = .ok (v, r))) := by
  cases hs : s.dropWhile isSpace with
  | nil => simp [jcsValue, hs]
  | cons c t =>
    have hself : jcsValue (n + 1) (c :: t) = jcsValue (n + 1) s := by
      rw [jcsValue, jcsValue, dropWhile_space_cons (isSpace_of_dropWhile hs), hs]
    simp only [List.cons.injEq, existsAndEq, and_true, hself, exists_eq_left']
    by_cases h1 : c = 0x7B
    · subst h1
      rw [jcsValue, hs]
      dsimp only
      rw [if_pos rfl]
      split
      · next u hu => simp [hu, @eq_comm Json v, and_comm]
      · next hne =>
        have hopen : ∀ u, t.dropWhile isSpace ≠ 0x7D :: u := fun u hu => hne u hu
        simp [hopen, @eq_comm Json v]
    · by_cases h2 : c = 0x5B
      · subst h2
        rw [jcsValue, hs]
        dsimp only
        rw [if_neg h1, if_pos rfl]
        split
        · next u hu => simp [hu, @eq_comm Json v, and_comm]
        · next hne =>
          have hopen : ∀ u, t.dropWhile isSpace ≠ 0x5D :: u := fun u hu => hne u hu
          simp [hopen, @eq_comm Json v]
      · simp [h1, h2]

/-- How a document is read: as a value is. -/
theorem docValue_eq_some {n : ℕ} {s r : Str} {d : Json} : docValue (n + 1) s = some (d, r) ↔
    ∃ c t, s.dropWhile isSpace = c :: t ∧
      ((c = 0x7B ∧ (t.dropWhile isSpace = 0x7D :: r ∧ d = .obj [] ∨
          (∀ u, t.dropWhile isSpace ≠ 0x7D :: u) ∧
            ∃ m, docMembers n (t.dropWhile isSpace) = some (m, r) ∧ d = .obj m)) ∨
        (c = 0x5B ∧ (t.dropWhile isSpace = 0x5D :: r ∧ d = .arr [] ∨
          (∀ u, t.dropWhile isSpace ≠ 0x5D :: u) ∧
            ∃ xs, docElements n (t.dropWhile isSpace) = some (xs, r) ∧ d = .arr xs)) ∨
        (c ≠ 0x7B ∧ c ≠ 0x5B ∧ jcsValue (n + 1) (c :: t) = .ok (d, r))) := by
  cases hs : s.dropWhile isSpace with
  | nil => simp [docValue, hs]
  | cons c t =>
    have hscalar : (jcsValue (n + 1) (c :: t)).toOption = some (d, r) ↔
        jcsValue (n + 1) (c :: t) = .ok (d, r) := by
      cases jcsValue (n + 1) (c :: t) <;> simp [Except.toOption]
    simp only [List.cons.injEq, existsAndEq, and_true, exists_eq_left']
    rw [docValue, hs]
    dsimp only
    by_cases h1 : c = 0x7B
    · subst h1
      rw [if_pos rfl]
      split
      · next u hu => simp [hu, eq_comm, and_comm]
      · next hne =>
        have hopen : ∀ u, t.dropWhile isSpace ≠ 0x7D :: u := fun u hu => hne u hu
        simp [hopen, eq_comm]
    · by_cases h2 : c = 0x5B
      · subst h2
        rw [if_neg h1, if_pos rfl]
        split
        · next u hu => simp [hu, eq_comm, and_comm]
        · next hne =>
          have hopen : ∀ u, t.dropWhile isSpace ≠ 0x5D :: u := fun u hu => hne u hu
          simp [hopen, eq_comm]
      · simp only [h1, h2, if_false, hscalar, false_and, false_or, ne_eq, not_false_eq_true,
          true_and]

/-- How the members of an object are read. -/
theorem jcsMembers_eq_ok {n : ℕ} {seen : List Str} {out m : List (Str × Json)} {s r : Str} :
    jcsMembers (n + 1) seen out s = .ok (m, r) ↔
      ∃ t k t' u v u', s.dropWhile isSpace = 0x22 :: t ∧ jcsString t = .ok (k, t') ∧ k ∉ seen ∧
        t'.dropWhile isSpace = 0x3A :: u ∧ jcsValue n u = .ok (v, u') ∧
        (u'.dropWhile isSpace = 0x7D :: r ∧ m = assignMember k v out ∨
          ∃ w, u'.dropWhile isSpace = 0x2C :: w ∧
            jcsMembers n (k :: seen) (assignMember k v out) w = .ok (m, r)) := by
  rw [jcsMembers]
  constructor
  · intro h
    split at h
    · next t ht =>
      simp only [bind_eq_ok, require_eq_ok] at h
      obtain ⟨⟨k, t'⟩, hk, -, hseen, h⟩ := h
      dsimp only at h
      split at h
      · next u hu =>
        simp only [bind_eq_ok] at h
        obtain ⟨⟨v, u'⟩, hv, h⟩ := h
        dsimp only at h
        refine ⟨t, k, t', u, v, u', ht, hk, hseen, hu, hv, ?_⟩
        split at h
        · next w hw => exact .inr ⟨w, hw, h⟩
        · next w hw =>
          cases h
          exact .inl ⟨hw, rfl⟩
        · cases h
      · cases h
    · cases h
  · rintro ⟨t, k, t', u, v, u', ht, hk, hseen, hu, hv, h⟩
    rcases h with ⟨hw, rfl⟩ | ⟨w, hw, h⟩
    · simp [ht, hk, require, hseen, hu, hv, hw]
    · simp [ht, hk, require, hseen, hu, hv, hw, h]

/-- How the members of a document are read. -/
theorem docMembers_eq_some {n : ℕ} {m : List (Str × Json)} {s r : Str} :
    docMembers (n + 1) s = some (m, r) ↔
      ∃ t k t' u d u', s.dropWhile isSpace = 0x22 :: t ∧ jcsString t = .ok (k, t') ∧
        t'.dropWhile isSpace = 0x3A :: u ∧ docValue n u = some (d, u') ∧
        (u'.dropWhile isSpace = 0x7D :: r ∧ m = [(k, d)] ∨
          ∃ w l, u'.dropWhile isSpace = 0x2C :: w ∧ docMembers n w = some (l, r) ∧
            m = (k, d) :: l) := by
  rw [docMembers]
  constructor
  · intro h
    split at h
    · next t ht =>
      obtain ⟨⟨k, t'⟩, hk, h⟩ := Option.bind_eq_some_iff.mp h
      have hk : jcsString t = .ok (k, t') := by
        cases hj : jcsString t with
        | error e => rw [hj] at hk; cases hk
        | ok p => rw [hj] at hk; cases hk; rfl
      dsimp only at h
      split at h
      · next u hu =>
        obtain ⟨⟨d, u'⟩, hd, h⟩ := Option.bind_eq_some_iff.mp h
        dsimp only at h
        refine ⟨t, k, t', u, d, u', ht, hk, hu, hd, ?_⟩
        split at h
        · next w hw =>
          obtain ⟨⟨l, r'⟩, hl, h⟩ := Option.bind_eq_some_iff.mp h
          cases h
          exact .inr ⟨w, l, hw, hl, rfl⟩
        · next w hw =>
          cases h
          exact .inl ⟨hw, rfl⟩
        · cases h
      · cases h
    · cases h
  · rintro ⟨t, k, t', u, d, u', ht, hk, hu, hd, h⟩
    rcases h with ⟨hw, rfl⟩ | ⟨w, l, hw, hl, rfl⟩
    · simp [ht, hk, Except.toOption, hu, hd, hw]
    · simp [ht, hk, Except.toOption, hu, hd, hw, hl]

/-- How the elements of an array are read. -/
theorem jcsElements_eq_ok {n : ℕ} {xs : List Json} {s r : Str} :
    jcsElements (n + 1) s = .ok (xs, r) ↔ ∃ v u, jcsValue n s = .ok (v, u) ∧
      (u.dropWhile isSpace = 0x5D :: r ∧ xs = [v] ∨
        ∃ w vs, u.dropWhile isSpace = 0x2C :: w ∧ jcsElements n w = .ok (vs, r) ∧ xs = v :: vs) := by
  rw [jcsElements]
  constructor
  · intro h
    obtain ⟨⟨v, u⟩, hv, h⟩ := bind_eq_ok.mp h
    refine ⟨v, u, hv, ?_⟩
    dsimp only at h
    split at h
    · next w hw =>
      obtain ⟨⟨vs, r'⟩, hvs, h⟩ := bind_eq_ok.mp h
      cases h
      exact .inr ⟨w, vs, hw, hvs, rfl⟩
    · next w hw =>
      cases h
      exact .inl ⟨hw, rfl⟩
    · cases h
  · rintro ⟨v, u, hv, ⟨hw, rfl⟩ | ⟨w, vs, hw, hvs, rfl⟩⟩
    · simp [hv, hw]
    · simp [hv, hw, hvs]

/-- How the elements of an array of a document are read. -/
theorem docElements_eq_some {n : ℕ} {xs : List Json} {s r : Str} :
    docElements (n + 1) s = some (xs, r) ↔ ∃ d u, docValue n s = some (d, u) ∧
      (u.dropWhile isSpace = 0x5D :: r ∧ xs = [d] ∨
        ∃ w ds, u.dropWhile isSpace = 0x2C :: w ∧ docElements n w = some (ds, r) ∧
          xs = d :: ds) := by
  rw [docElements]
  constructor
  · intro h
    obtain ⟨⟨d, u⟩, hd, h⟩ := Option.bind_eq_some_iff.mp h
    refine ⟨d, u, hd, ?_⟩
    dsimp only at h
    split at h
    · next w hw =>
      obtain ⟨⟨ds, r'⟩, hds, h⟩ := Option.bind_eq_some_iff.mp h
      cases h
      exact .inr ⟨w, ds, hw, hds, rfl⟩
    · next w hw =>
      cases h
      exact .inl ⟨hw, rfl⟩
    · cases h
  · rintro ⟨d, u, hd, ⟨hw, rfl⟩ | ⟨w, ds, hw, hds, rfl⟩⟩
    · simp [hd, hw]
    · simp [hd, hw, hds]

/-- Distinct keys in the members and in their values. -/
theorem distinctKeys_obj {f : Str → Str} {m : List (Str × Json)} :
    (Json.obj m).fits (distinctKeys f) = true ↔
      (m.map fun e => f e.1).Nodup ∧ ∀ e ∈ m, e.2.fits (distinctKeys f) = true := by
  simp only [Json.fits, distinctKeys, Bool.and_eq_true, decide_eq_true_eq, fitsMembers_iff]

theorem assigned_obj (m : List (Str × Json)) : assigned (.obj m) =
    .obj ((m.map fun e => (e.1, assigned e.2)).foldl (fun out e => assignMember e.1 e.2 out) []) := by
  rw [assigned, rebuilt, rebuiltMembers_eq]

/-- The parser reads the documents with distinct keys, and makes the objects by assignment. -/
theorem parse_eq_assigned (n : ℕ) :
    (∀ s v r, jcsValue n s = .ok (v, r) ↔
      ∃ d, docValue n s = some (d, r) ∧ d.fits (distinctKeys id) = true ∧ assigned d = v) ∧
    (∀ seen out s m r, jcsMembers n seen out s = .ok (m, r) ↔
      ∃ l, docMembers n s = some (l, r) ∧ (l.map Prod.fst).Nodup ∧ (∀ e ∈ l, e.1 ∉ seen) ∧
        (∀ e ∈ l, e.2.fits (distinctKeys id) = true) ∧
        (l.map fun e => (e.1, assigned e.2)).foldl (fun out e => assignMember e.1 e.2 out) out =
          m) ∧
    (∀ s xs r, jcsElements n s = .ok (xs, r) ↔
      ∃ ds, docElements n s = some (ds, r) ∧ fitsElements (distinctKeys id) ds = true ∧
        rebuiltElements assignMember ds = xs) := by
  induction n with
  | zero =>
    refine ⟨fun s v r => ?_, fun seen out s m r => ?_, fun s xs r => ?_⟩
    · simp [jcsValue, docValue]
    · simp [jcsMembers, docMembers]
    · simp [jcsElements, docElements]
  | succ n ih =>
    obtain ⟨hvalue, hmembers, helements⟩ := ih
    refine ⟨fun s v r => ?_, fun seen out s m r => ?_, fun s xs r => ?_⟩
    · rw [jcsValue_eq_ok]
      simp only [docValue_eq_some, hmembers, helements]
      constructor
      · rintro ⟨c, t, hs, h⟩
        rcases h with ⟨hc, ⟨ht, rfl⟩ | ⟨hopen, m, ⟨l, hl, hnodup, -, hdist, rfl⟩, rfl⟩⟩ |
          ⟨hc, ⟨ht, rfl⟩ | ⟨hopen, xs, ⟨ds, hds, hdist, rfl⟩, rfl⟩⟩ | ⟨h1, h2, h⟩
        · exact ⟨.obj [], ⟨c, t, hs, .inl ⟨hc, .inl ⟨ht, rfl⟩⟩⟩, rfl, rfl⟩
        · exact ⟨.obj l, ⟨c, t, hs, .inl ⟨hc, .inr ⟨hopen, l, hl, rfl⟩⟩⟩,
            distinctKeys_obj.mpr ⟨hnodup, hdist⟩, assigned_obj l⟩
        · exact ⟨.arr [], ⟨c, t, hs, .inr (.inl ⟨hc, .inl ⟨ht, rfl⟩⟩)⟩, rfl, rfl⟩
        · exact ⟨.arr ds, ⟨c, t, hs, .inr (.inl ⟨hc, .inr ⟨hopen, ds, hds, rfl⟩⟩)⟩, hdist, rfl⟩
        · obtain ⟨hself, hdist⟩ :=
            (isScalar_of_jcsValue (isSpace_of_dropWhile hs) h1 h2 h).1.assigned
          exact ⟨v, ⟨c, t, hs, .inr (.inr ⟨h1, h2, h⟩)⟩, hdist, hself⟩
      · rintro ⟨d, ⟨c, t, hs, h⟩, hdist, rfl⟩
        rcases h with ⟨hc, ⟨ht, rfl⟩ | ⟨hopen, m, hm, rfl⟩⟩ |
          ⟨hc, ⟨ht, rfl⟩ | ⟨hopen, xs, hxs, rfl⟩⟩ | ⟨h1, h2, h⟩
        · exact ⟨c, t, hs, .inl ⟨hc, .inl ⟨ht, rfl⟩⟩⟩
        · obtain ⟨hnodup, hdist⟩ := distinctKeys_obj.mp hdist
          exact ⟨c, t, hs, .inl ⟨hc, .inr ⟨hopen, _, ⟨m, hm, hnodup, by simp, hdist, rfl⟩,
            assigned_obj m⟩⟩⟩
        · exact ⟨c, t, hs, .inr (.inl ⟨hc, .inl ⟨ht, rfl⟩⟩)⟩
        · exact ⟨c, t, hs, .inr (.inl ⟨hc, .inr ⟨hopen, _, ⟨xs, hxs, hdist, rfl⟩, rfl⟩⟩)⟩
        · rw [(isScalar_of_jcsValue (isSpace_of_dropWhile hs) h1 h2 h).1.assigned.1]
          exact ⟨c, t, hs, .inr (.inr ⟨h1, h2, h⟩)⟩
    · simp only [jcsMembers_eq_ok, docMembers_eq_some, hvalue, hmembers]
      constructor
      · rintro ⟨t, k, t', u, v, u', ht, hk, hseen, hu, ⟨d, hd, hfits, rfl⟩, h⟩
        rcases h with ⟨hw, rfl⟩ | ⟨w, hw, l, hl, hnodup, hnot, hdist, rfl⟩
        · exact ⟨[(k, d)], ⟨t, k, t', u, d, u', ht, hk, hu, hd, .inl ⟨hw, rfl⟩⟩, by simp,
            by simpa using hseen, by simpa using hfits, rfl⟩
        · refine ⟨(k, d) :: l, ⟨t, k, t', u, d, u', ht, hk, hu, hd, .inr ⟨w, l, hw, hl, rfl⟩⟩, ?_,
            List.forall_mem_cons.mpr ⟨hseen, fun e he => ?_⟩, List.forall_mem_cons.mpr ⟨hfits, hdist⟩,
            rfl⟩
          · rw [List.map_cons, List.nodup_cons]
            refine ⟨fun hmem => ?_, hnodup⟩
            obtain ⟨e, he, hek⟩ := List.mem_map.mp hmem
            exact hnot e he (by simp [hek])
          · exact fun hmem => hnot e he (List.mem_cons_of_mem _ hmem)
      · rintro ⟨l, ⟨t, k, t', u, d, u', ht, hk, hu, hd, h⟩, hnodup, hnot, hdist, rfl⟩
        rcases h with ⟨hw, rfl⟩ | ⟨w, l, hw, hl, rfl⟩
        · exact ⟨t, k, t', u, assigned d, u', ht, hk, hnot (k, d) (by simp), hu,
            ⟨d, hd, hdist (k, d) (by simp), rfl⟩, .inl ⟨hw, rfl⟩⟩
        · rw [List.map_cons, List.nodup_cons] at hnodup
          refine ⟨t, k, t', u, assigned d, u', ht, hk, hnot (k, d) (by simp), hu,
            ⟨d, hd, hdist (k, d) (by simp), rfl⟩, .inr ⟨w, hw, l, hl, hnodup.2, fun e he hmem => ?_,
              fun e he => hdist e (List.mem_cons_of_mem _ he), rfl⟩⟩
          rcases List.mem_cons.mp hmem with hek | hmem
          · exact hnodup.1 (List.mem_map.mpr ⟨e, he, hek⟩)
          · exact hnot e (List.mem_cons_of_mem _ he) hmem
    · simp only [jcsElements_eq_ok, docElements_eq_some, hvalue, helements]
      constructor
      · rintro ⟨v, u, ⟨d, hd, hfits, rfl⟩, ⟨hw, rfl⟩ | ⟨w, vs, hw, ⟨ds, hds, hdist, rfl⟩, rfl⟩⟩
        · exact ⟨[d], ⟨d, u, hd, .inl ⟨hw, rfl⟩⟩, by simp [fitsElements, hfits], rfl⟩
        · exact ⟨d :: ds, ⟨d, u, hd, .inr ⟨w, ds, hw, hds, rfl⟩⟩, by simp [fitsElements, hfits, hdist],
            rfl⟩
      · rintro ⟨ds, ⟨d, u, hd, ⟨hw, rfl⟩ | ⟨w, ds, hw, hds, rfl⟩⟩, hdist, rfl⟩
        · rw [fitsElements, Bool.and_eq_true] at hdist
          exact ⟨assigned d, u, ⟨d, hd, hdist.1, rfl⟩, .inl ⟨hw, rfl⟩⟩
        · rw [fitsElements, Bool.and_eq_true] at hdist
          exact ⟨assigned d, u, ⟨d, hd, hdist.1, rfl⟩, .inr ⟨w, _, hw, ⟨ds, hds, hdist.2, rfl⟩, rfl⟩⟩

/-- What a text is parsed as: its document, if the keys of each object are distinct, with the objects
made by assignment. -/
theorem parseCanonical_eq_ok {s : Str} {v : Json} : parseCanonical s = .ok v ↔
    ∃ d, document s = some d ∧ d.fits (distinctKeys id) = true ∧ assigned d = v := by
  have hvalue := (parse_eq_assigned (2 * s.length + 1)).1 s
  have hdoc : ∀ d, document s = some d ↔
      ∃ r, docValue (2 * s.length + 1) s = some (d, r) ∧ r.dropWhile isSpace = [] := by
    intro d
    rw [document]
    constructor
    · intro h
      obtain ⟨⟨d', r⟩, hr, h⟩ := Option.bind_eq_some_iff.mp h
      dsimp only at h
      split_ifs at h with hnil
      cases h
      exact ⟨r, hr, hnil⟩
    · rintro ⟨r, hr, hnil⟩
      rw [hr]
      exact if_pos hnil
  simp only [parseCanonical, bind_eq_ok, pure_eq_ok, require_eq_ok, hdoc]
  constructor
  · rintro ⟨⟨v', r⟩, hr, -, hnil, rfl⟩
    obtain ⟨d, hd, hdist, hassigned⟩ := (hvalue v' r).mp hr
    exact ⟨d, ⟨r, hd, hnil⟩, hdist, hassigned⟩
  · rintro ⟨d, ⟨r, hd, hnil⟩, hdist, rfl⟩
    exact ⟨(assigned d, r), (hvalue _ r).mpr ⟨d, hd, hdist, rfl⟩, (), hnil, rfl⟩

/-- The strings and the keys of a document are well-formed. -/
theorem wellFormedDoc_of_docValue (n : ℕ) :
    (∀ s d r, docValue n s = some (d, r) → d.fits wellFormedDoc = true) ∧
    (∀ s m r, docMembers n s = some (m, r) → (Json.obj m).fits wellFormedDoc = true) ∧
    (∀ s xs r, docElements n s = some (xs, r) → fitsElements wellFormedDoc xs = true) := by
  induction n with
  | zero =>
    refine ⟨fun s d r h => ?_, fun s m r h => ?_, fun s xs r h => ?_⟩
    · simp [docValue] at h
    · simp [docMembers] at h
    · simp [docElements] at h
  | succ n ih =>
    obtain ⟨hvalue, hmembers, helements⟩ := ih
    refine ⟨fun s d r h => ?_, fun s m r h => ?_, fun s xs r h => ?_⟩
    · obtain ⟨c, t, hs, h⟩ := docValue_eq_some.mp h
      rcases h with ⟨-, ⟨-, rfl⟩ | ⟨-, m, hm, rfl⟩⟩ | ⟨-, ⟨-, rfl⟩ | ⟨-, xs, hxs, rfl⟩⟩ | ⟨h1, h2, h⟩
      · rfl
      · exact hmembers _ m r hm
      · rfl
      · exact helements _ xs r hxs
      · exact (isScalar_of_jcsValue (isSpace_of_dropWhile hs) h1 h2 h).2
    · obtain ⟨t, k, t', u, d, u', -, hk, -, hd, h⟩ := docMembers_eq_some.mp h
      have hentry : wellFormed k = true ∧ d.fits wellFormedDoc = true :=
        ⟨wellFormed_of_jcsString hk, hvalue u d u' hd⟩
      rw [wellFormedDoc_obj]
      rcases h with ⟨-, rfl⟩ | ⟨w, l, -, hl, rfl⟩
      · simpa using hentry
      · exact List.forall_mem_cons.mpr ⟨hentry, wellFormedDoc_obj.mp (hmembers w l r hl)⟩
    · obtain ⟨d, u, hd, h⟩ := docElements_eq_some.mp h
      have hfirst := hvalue s d u hd
      rcases h with ⟨-, rfl⟩ | ⟨w, ds, -, hds, rfl⟩
      · simp [fitsElements, hfirst]
      · simp [fitsElements, hfirst, helements w ds r hds]

theorem wellFormedDoc_of_document {s : Str} {d : Json} (h : document s = some d) :
    d.fits wellFormedDoc = true := by
  obtain ⟨⟨d', r⟩, hr, h⟩ := Option.bind_eq_some_iff.mp h
  dsimp only at h
  split_ifs at h
  cases h
  exact (wellFormedDoc_of_docValue _).1 _ _ _ hr

/-! ## Well-formed texts -/

theorem wellFormed_escapeUnit {u : UInt16} (hhigh : isHigh u = false) (hlow : isLow u = false) :
    wellFormed (escapeUnit u) = true := by
  unfold escapeUnit
  split_ifs with h1 h2 h3 h4 h5 h6 h7 h8
  iterate 7 decide
  · -- the code of a control character consists of hex digits
    have hhex : ∀ n < 16, isAscii [hexDigit n] = true := by decide
    have hlt : u.toNat / 16 < 16 ∧ u.toNat % 16 < 16 := by omega
    refine wellFormed_append (by decide) (wellFormed_append (s := [_]) ?_ ?_)
    · exact wellFormed_of_isAscii (hhex _ hlt.1)
    · exact wellFormed_of_isAscii (hhex _ hlt.2)
  · simp [wellFormed, hhigh, hlow]

theorem wellFormed_escapeUnits {s : Str} (hs : wellFormed s = true) :
    wellFormed (s.flatMap escapeUnit) = true := by
  induction s using wellFormed.induct with
  | case1 => rfl
  | case2 u =>
    simp only [wellFormed, Bool.and_eq_true, Bool.not_eq_true'] at hs
    rw [List.flatMap_cons, List.flatMap_nil, List.append_nil]
    exact wellFormed_escapeUnit hs.1 hs.2
  | case3 u v s hu ih =>
    simp only [wellFormed, hu, if_true, Bool.and_eq_true] at hs
    rw [List.flatMap_cons, List.flatMap_cons, (escapeUnit_surrogate (u := u) (by simp [hu])).1,
      (escapeUnit_surrogate (u := v) (by simp [hs.1])).1]
    exact wellFormed_append (s := [u, v]) (by simp [wellFormed, hu, hs.1]) (ih hs.2)
  | case4 u v s hu ih =>
    simp only [wellFormed, hu, if_false, Bool.false_eq_true, Bool.and_eq_true, Bool.not_eq_true']
      at hs
    rw [List.flatMap_cons]
    exact wellFormed_append (wellFormed_escapeUnit (by simpa using hu) hs.1) (ih hs.2)

theorem wellFormed_literal {s : Str} (hs : wellFormed s = true) : wellFormed (literal s) = true := by
  have hquote : wellFormed [0x22] = true := by decide
  exact wellFormed_append (s := [0x22]) hquote
    (wellFormed_append (wellFormed_escapeUnits hs) hquote)

theorem wellFormed_joinWith {l : List Str} (h : ∀ s ∈ l, wellFormed s = true) :
    wellFormed (joinWith (js ",") l) = true := by
  have hcomma : wellFormed (js ",") = true := by decide
  induction l with
  | nil => rfl
  | cons s l ih =>
    obtain ⟨hs, hl⟩ := List.forall_mem_cons.mp h
    cases l with
    | nil => exact hs
    | cons t l =>
      rw [joinWith_cons_cons]
      exact wellFormed_append (wellFormed_append hs hcomma) (ih hl)

theorem isAscii_decimal (n : ℤ) : isAscii (decimal n) = true := by
  have hdigits : isAscii (decimalNat n.natAbs) = true := by
    refine List.all_eq_true.mpr fun u hu => ?_
    have hd := (decimalNat_digits n.natAbs).2 u hu
    simp only [isDigit, Bool.and_eq_true, decide_eq_true_eq] at hd ⊢
    omega
  rw [decimal]
  split
  · rw [isAscii, List.all_cons]
    exact Bool.and_eq_true_iff.mpr ⟨by decide, hdigits⟩
  · exact hdigits

mutual

/-- The minimal text of a document is well-formed. -/
theorem wellFormed_printed (d : Json) (hd : d.fits wellFormedDoc = true) :
    wellFormed (printed d) = true := by
  cases d with
  | null => decide
  | bool b => cases b <;> decide
  | int n => exact wellFormed_of_isAscii (isAscii_decimal n)
  | str s => exact wellFormed_literal hd
  | arr xs =>
    have hopen : wellFormed [0x5B] = true := by decide
    have hclose : wellFormed [0x5D] = true := by decide
    exact wellFormed_append (s := [0x5B]) hopen
      (wellFormed_append (wellFormed_joinWith (wellFormed_printedElements xs hd)) hclose)
  | obj m =>
    have hopen : wellFormed [0x7B] = true := by decide
    have hclose : wellFormed [0x7D] = true := by decide
    exact wellFormed_append (s := [0x7B]) hopen (wellFormed_append
      (wellFormed_joinWith (wellFormed_printedMembers m (wellFormedDoc_obj.mp hd))) hclose)
  | builtin k => cases hd

theorem wellFormed_printedElements (xs : List Json) (hxs : fitsElements wellFormedDoc xs = true) :
    ∀ s ∈ printedElements xs, wellFormed s = true := by
  cases xs with
  | nil => nofun
  | cons x xs =>
    rw [fitsElements, Bool.and_eq_true] at hxs
    exact List.forall_mem_cons.mpr
      ⟨wellFormed_printed x hxs.1, wellFormed_printedElements xs hxs.2⟩

theorem wellFormed_printedMembers (m : List (Str × Json))
    (hm : ∀ e ∈ m, wellFormed e.1 = true ∧ e.2.fits wellFormedDoc = true) :
    ∀ s ∈ printedMembers m, wellFormed s = true := by
  cases m with
  | nil => nofun
  | cons e m =>
    obtain ⟨k, x⟩ := e
    obtain ⟨⟨hk, hx⟩, hm⟩ := List.forall_mem_cons.mp hm
    have hcolon : wellFormed [0x3A] = true := by decide
    exact List.forall_mem_cons.mpr ⟨wellFormed_append (wellFormed_literal hk)
      (wellFormed_append (s := [0x3A]) hcolon (wellFormed_printed x hx)),
      wellFormed_printedMembers m hm⟩

end

end ParadigmTerra
