import Mathlib

/-!
# UTF-16 strings and their UTF-8 bytes

A string is the list of its UTF-16 code units, so that a unit of a surrogate pair may stand alone.
`utf8Encode` and `utf8Decode` are the two directions of the UTF-8 codec as the Encoding Standard
defines them: the encoder writes U+FFFD for a lone surrogate, and the decoder writes one U+FFFD for
each maximal ill-formed byte sequence, in particular for a character cut off at the end.

`utf8Decode_encode_append` is the round trip on well-formed strings, in front of any further bytes.
`utf8Decode_prefix` describes what a reader sees of a file whose last write was cut at any byte: a
prefix of the text, then possibly one U+FFFD.
-/

namespace ParadigmTerra.Text

/-- A string, as its UTF-16 code units. -/
abbrev Str := List UInt16

/-- `===` on strings is equality. -/
instance : LawfulBEq Str := List.instLawfulBEq

/-- A code unit that opens a surrogate pair. -/
def isHigh (u : UInt16) : Bool := 0xD800 ≤ u.toNat && u.toNat < 0xDC00

/-- A code unit that closes a surrogate pair. -/
def isLow (u : UInt16) : Bool := 0xDC00 ≤ u.toNat && u.toNat < 0xE000

/-- The code units of a character. -/
def charUnits (c : Char) : Str :=
  if c.toNat < 0x10000 then [UInt16.ofNat c.toNat]
  else [UInt16.ofNat (0xD800 + (c.toNat - 0x10000) / 0x400),
    UInt16.ofNat (0xDC00 + (c.toNat - 0x10000) % 0x400)]

/-- The string that a literal denotes. -/
def js (s : String) : Str := s.toList.flatMap charUnits

/-- The code points of a string, in order. A lone surrogate is a code point of its own. -/
def codePoints : Str → List ℕ
  | [] => []
  | [u] => [u.toNat]
  | u :: v :: s =>
    if isHigh u && isLow v then
      (0x10000 + (u.toNat - 0xD800) * 0x400 + (v.toNat - 0xDC00)) :: codePoints s
    else u.toNat :: codePoints (v :: s)

/-- Every surrogate of the string stands in a pair. -/
def wellFormed : Str → Bool
  | [] => true
  | [u] => !isHigh u && !isLow u
  | u :: v :: s => if isHigh u then isLow v && wellFormed s else !isLow u && wellFormed (v :: s)

/-- The UTF-8 bytes of a code point, U+FFFD's for a lone surrogate. -/
def utf8CodePoint (c : ℕ) : List UInt8 :=
  if c < 0x80 then [UInt8.ofNat c]
  else if c < 0x800 then [UInt8.ofNat (0xC0 + c / 0x40), UInt8.ofNat (0x80 + c % 0x40)]
  else if 0xD800 ≤ c ∧ c < 0xE000 then [0xEF, 0xBF, 0xBD]
  else if c < 0x10000 then
    [UInt8.ofNat (0xE0 + c / 0x1000), UInt8.ofNat (0x80 + c / 0x40 % 0x40),
      UInt8.ofNat (0x80 + c % 0x40)]
  else
    [UInt8.ofNat (0xF0 + c / 0x40000), UInt8.ofNat (0x80 + c / 0x1000 % 0x40),
      UInt8.ofNat (0x80 + c / 0x40 % 0x40), UInt8.ofNat (0x80 + c % 0x40)]

/-- The UTF-8 bytes of a string. -/
def utf8Encode (s : Str) : List UInt8 := (codePoints s).flatMap utf8CodePoint

/-- A byte that continues a character. -/
def isTail (b : UInt8) : Bool := 0x80 ≤ b.toNat && b.toNat < 0xC0

/-- The second byte of a three-byte character with lead `a`: neither an overlong form nor a
surrogate. -/
def isSecond3 (a b : UInt8) : Bool :=
  (if a.toNat = 0xE0 then 0xA0 else 0x80) ≤ b.toNat &&
    b.toNat < (if a.toNat = 0xED then 0xA0 else 0xC0)

/-- The second byte of a four-byte character with lead `a`: neither an overlong form nor a code
point above U+10FFFF. -/
def isSecond4 (a b : UInt8) : Bool :=
  (if a.toNat = 0xF0 then 0x90 else 0x80) ≤ b.toNat &&
    b.toNat < (if a.toNat = 0xF4 then 0x90 else 0xC0)

/-- U+FFFD, which the decoder writes for an ill-formed sequence. -/
def replacement : UInt16 := 0xFFFD

/-- The two units of a code point above U+FFFF. -/
def pairUnits (c : ℕ) : Str :=
  [UInt16.ofNat (0xD800 + (c - 0x10000) / 0x400), UInt16.ofNat (0xDC00 + (c - 0x10000) % 0x400)]

/-- The string that a reader decodes from bytes. -/
def utf8Decode : List UInt8 → Str
  | [] => []
  | a :: rest =>
    if a.toNat < 0x80 then UInt16.ofNat a.toNat :: utf8Decode rest
    else if 0xC2 ≤ a.toNat ∧ a.toNat < 0xE0 then
      match rest with
      | [] => [replacement]
      | b :: r =>
        if isTail b then
          UInt16.ofNat ((a.toNat - 0xC0) * 0x40 + (b.toNat - 0x80)) :: utf8Decode r
        else replacement :: utf8Decode (b :: r)
    else if 0xE0 ≤ a.toNat ∧ a.toNat < 0xF0 then
      match rest with
      | [] => [replacement]
      | [b] => if isSecond3 a b then [replacement] else replacement :: utf8Decode [b]
      | b :: c :: r =>
        if isSecond3 a b then
          if isTail c then
            UInt16.ofNat ((a.toNat - 0xE0) * 0x1000 + (b.toNat - 0x80) * 0x40 + (c.toNat - 0x80)) ::
              utf8Decode r
          else replacement :: utf8Decode (c :: r)
        else replacement :: utf8Decode (b :: c :: r)
    else if 0xF0 ≤ a.toNat ∧ a.toNat < 0xF5 then
      match rest with
      | [] => [replacement]
      | [b] => if isSecond4 a b then [replacement] else replacement :: utf8Decode [b]
      | [b, c] =>
        if isSecond4 a b then
          if isTail c then [replacement] else replacement :: utf8Decode [c]
        else replacement :: utf8Decode [b, c]
      | b :: c :: d :: r =>
        if isSecond4 a b then
          if isTail c then
            if isTail d then
              pairUnits ((a.toNat - 0xF0) * 0x40000 + (b.toNat - 0x80) * 0x1000 +
                (c.toNat - 0x80) * 0x40 + (d.toNat - 0x80)) ++ utf8Decode r
            else replacement :: utf8Decode (d :: r)
          else replacement :: utf8Decode (c :: d :: r)
        else replacement :: utf8Decode (b :: c :: d :: r)
    else replacement :: utf8Decode rest

/-! ## Literals -/

/-- A character is no surrogate. -/
theorem toNat_range (c : Char) :
    c.toNat < 0x110000 ∧ ¬(0xD800 ≤ c.toNat ∧ c.toNat < 0xE000) := by
  have h : c.toNat < 0xD800 ∨ 0xDFFF < c.toNat ∧ c.toNat < 0x110000 := c.valid
  omega

/-- The units of a character determine it, and no two characters share a beginning of units. -/
theorem charUnits_append_inj {c d : Char} {s t : Str}
    (h : charUnits c ++ s = charUnits d ++ t) : c = d ∧ s = t := by
  have hc := toNat_range c
  have hd := toNat_range d
  unfold charUnits at h
  split_ifs at h <;>
    simp only [List.cons_append, List.nil_append, List.cons.injEq, ← UInt16.toNat_inj,
      UInt16.toNat_ofNat'] at h
  · exact ⟨Char.toNat_inj.mp (by omega), h.2⟩
  · omega
  · omega
  · exact ⟨Char.toNat_inj.mp (by omega), h.2.2⟩

/-- Two literals denote one string only when they are the same literal. -/
@[simp] theorem js_inj {s t : String} : js s = js t ↔ s = t := by
  refine ⟨fun h => String.toList_injective ?_, congrArg js⟩
  unfold js at h
  generalize s.toList = l at h ⊢
  generalize t.toList = m at h ⊢
  have hne : ∀ c, charUnits c ≠ [] := by intro c; unfold charUnits; split_ifs <;> simp
  induction l generalizing m with
  | nil =>
    cases m with
    | nil => rfl
    | cons d m =>
      rw [List.flatMap_nil, List.flatMap_cons, eq_comm, List.append_eq_nil_iff] at h
      exact absurd h.1 (hne d)
  | cons c l ih =>
    cases m with
    | nil =>
      rw [List.flatMap_nil, List.flatMap_cons, List.append_eq_nil_iff] at h
      exact absurd h.1 (hne c)
    | cons d m =>
      rw [List.flatMap_cons, List.flatMap_cons] at h
      obtain ⟨rfl, h'⟩ := charUnits_append_inj h
      rw [ih m h']

/-! ## Well-formed strings -/

/-- Well-formed strings append. -/
theorem wellFormed_append {s t : Str} (hs : wellFormed s = true) (ht : wellFormed t = true) :
    wellFormed (s ++ t) = true := by
  induction s using wellFormed.induct with
  | case1 => exact ht
  | case2 u =>
    simp only [wellFormed, Bool.and_eq_true, Bool.not_eq_true'] at hs
    cases t with
    | nil => simp [wellFormed, hs]
    | cons v t => simp [wellFormed, hs, ht]
  | case3 u v s hu ih =>
    simp only [wellFormed, hu, if_true, Bool.and_eq_true] at hs
    simp [wellFormed, hu, hs.1, ih hs.2]
  | case4 u v s hu ih =>
    simp only [wellFormed, hu, if_false, Bool.false_eq_true, Bool.and_eq_true] at hs
    simp only [List.cons_append] at ih
    simp [wellFormed, hu, hs.1, ih hs.2]

/-- The code points of a well-formed text, in front of any other. -/
theorem codePoints_append {s : Str} (hs : wellFormed s = true) (t : Str) :
    codePoints (s ++ t) = codePoints s ++ codePoints t := by
  induction s using codePoints.induct with
  | case1 => rfl
  | case2 u =>
    simp only [wellFormed, Bool.and_eq_true, Bool.not_eq_true'] at hs
    cases t with
    | nil => rfl
    | cons v t => simp [codePoints, hs.1]
  | case3 u v s hp ih =>
    rw [wellFormed, if_pos (by simpa using (Bool.and_eq_true_iff.mp hp).1), Bool.and_eq_true] at hs
    rw [List.cons_append, List.cons_append, codePoints, if_pos hp, codePoints, if_pos hp, ih hs.2]
    rfl
  | case4 u v s hp ih =>
    have hu : isHigh u = false := by
      cases hhigh : isHigh u with
      | false => rfl
      | true =>
        rw [wellFormed, if_pos hhigh, Bool.and_eq_true] at hs
        exact absurd (Bool.and_eq_true_iff.mpr ⟨hhigh, hs.1⟩) hp
    rw [wellFormed, if_neg (by simp [hu]), Bool.and_eq_true] at hs
    rw [List.cons_append, List.cons_append, codePoints, if_neg hp, codePoints, if_neg hp,
      ← List.cons_append, ih hs.2]
    rfl

theorem utf8Encode_append {s : Str} (hs : wellFormed s = true) (t : Str) :
    utf8Encode (s ++ t) = utf8Encode s ++ utf8Encode t := by
  rw [utf8Encode, codePoints_append hs, List.flatMap_append, ← utf8Encode, ← utf8Encode]

/-- A string of units that are no surrogates is well-formed. -/
theorem wellFormed_of_forall {s : Str} (h : ∀ u ∈ s, isHigh u = false ∧ isLow u = false) :
    wellFormed s = true := by
  induction s with
  | nil => rfl
  | cons u s ih =>
    obtain ⟨hh, hl⟩ := h u (by simp)
    have ih := ih fun v hv => h v (by simp [hv])
    cases s with
    | nil => simp [wellFormed, hh, hl]
    | cons v s => simp [wellFormed, hh, hl, ih]

/-! ## The codec -/

/-- The units of a code point that is no surrogate. -/
def pointUnits (c : ℕ) : Str := if c < 0x10000 then [UInt16.ofNat c] else pairUnits c

/-- A code point of a well-formed string. -/
def IsScalar (c : ℕ) : Prop := c < 0x110000 ∧ ¬(0xD800 ≤ c ∧ c < 0xE000)

/-- A well-formed string is the units of its code points, each a scalar value. -/
theorem wellFormed_codePoints {s : Str} (hs : wellFormed s = true) :
    (codePoints s).flatMap pointUnits = s ∧ ∀ c ∈ codePoints s, IsScalar c := by
  induction s using codePoints.induct with
  | case1 => simp [codePoints]
  | case2 u =>
    have hu := u.toNat_lt
    simp only [wellFormed, isHigh, isLow] at hs
    simp [codePoints, pointUnits, IsScalar]
    simp at hs
    omega
  | case3 u v s h ih =>
    rw [Bool.and_eq_true] at h
    simp only [wellFormed, h.1, h.2, if_true, Bool.true_and] at hs
    obtain ⟨ih1, ih2⟩ := ih hs
    simp only [isHigh, isLow, Bool.and_eq_true, decide_eq_true_eq] at h
    have hhl : (isHigh u && isLow v) = true := by simp [isHigh, isLow, h]
    rw [codePoints, if_pos hhl, List.flatMap_cons, ih1]
    refine ⟨?_, fun c hc => ?_⟩
    · have hp : pointUnits (0x10000 + (u.toNat - 0xD800) * 0x400 + (v.toNat - 0xDC00)) = [u, v] := by
        generalize hc : 0x10000 + (u.toNat - 0xD800) * 0x400 + (v.toNat - 0xDC00) = c
        have hge : ¬c < 0x10000 := by omega
        simp only [pointUnits, hge, if_false, pairUnits, List.cons.injEq, ← UInt16.toNat_inj,
          UInt16.toNat_ofNat']
        exact ⟨by omega, by omega, trivial⟩
      rw [hp]
      rfl
    · rcases List.mem_cons.mp hc with hc | hc
      · constructor <;> omega
      · exact ih2 c hc
  | case4 u v s h ih =>
    have hu := u.toNat_lt
    by_cases hh : isHigh u = true
    · simp only [wellFormed, hh, if_true, Bool.and_eq_true] at hs
      exact absurd (by rw [hh, hs.1]; rfl) h
    · simp only [wellFormed, if_neg hh, Bool.and_eq_true, Bool.not_eq_true'] at hs
      obtain ⟨ih1, ih2⟩ := ih hs.2
      have hl := hs.1
      simp only [isHigh, isLow, Bool.and_eq_true, Bool.and_eq_false_iff, decide_eq_true_eq,
        decide_eq_false_iff_not] at hh hl
      rw [codePoints, if_neg h, List.flatMap_cons, ih1, pointUnits, if_pos (by omega)]
      refine ⟨by simp, fun c hc => ?_⟩
      rcases List.mem_cons.mp hc with rfl | hc
      · unfold IsScalar; omega
      · exact ih2 c hc

/-- The decoder reads one encoded code point as its units. -/
theorem utf8Decode_codePoint {c : ℕ} (hc : IsScalar c) (r : List UInt8) :
    utf8Decode (utf8CodePoint c ++ r) = pointUnits c ++ utf8Decode r := by
  obtain ⟨h1, h2⟩ := hc
  unfold utf8CodePoint
  split_ifs with a1 a2 a4
  · have e : (UInt8.ofNat c).toNat = c := by rw [UInt8.toNat_ofNat']; omega
    rw [List.cons_append, utf8Decode.eq_def]
    simp only [e, a1, if_true, pointUnits, if_pos (show c < 0x10000 by omega)]
    rfl
  · have e1 : (UInt8.ofNat (0xC0 + c / 0x40)).toNat = 0xC0 + c / 0x40 := by
      rw [UInt8.toNat_ofNat']; omega
    have e2 : (UInt8.ofNat (0x80 + c % 0x40)).toNat = 0x80 + c % 0x40 := by
      rw [UInt8.toNat_ofNat']; omega
    have ht : isTail (UInt8.ofNat (0x80 + c % 0x40)) = true := by simp [isTail]; omega
    have hp : (0xC0 + c / 0x40 - 0xC0) * 0x40 + (0x80 + c % 0x40 - 0x80) = c := by omega
    simp only [List.cons_append, List.nil_append]
    rw [utf8Decode, e1, if_neg (by omega), if_pos (by omega)]
    simp only [ht, if_true, e2, hp]
    rw [pointUnits, if_pos (by omega)]
    rfl
  · have e1 : (UInt8.ofNat (0xE0 + c / 0x1000)).toNat = 0xE0 + c / 0x1000 := by
      rw [UInt8.toNat_ofNat']; omega
    have e2 : (UInt8.ofNat (0x80 + c / 0x40 % 0x40)).toNat = 0x80 + c / 0x40 % 0x40 := by
      rw [UInt8.toNat_ofNat']; omega
    have e3 : (UInt8.ofNat (0x80 + c % 0x40)).toNat = 0x80 + c % 0x40 := by
      rw [UInt8.toNat_ofNat']; omega
    have hs : isSecond3 (UInt8.ofNat (0xE0 + c / 0x1000)) (UInt8.ofNat (0x80 + c / 0x40 % 0x40))
        = true := by
      simp only [isSecond3, e1, e2, Bool.and_eq_true, decide_eq_true_eq]
      split_ifs <;> omega
    have ht : isTail (UInt8.ofNat (0x80 + c % 0x40)) = true := by simp [isTail]; omega
    have hp : (0xE0 + c / 0x1000 - 0xE0) * 0x1000 + (0x80 + c / 0x40 % 0x40 - 0x80) * 0x40 +
        (0x80 + c % 0x40 - 0x80) = c := by omega
    simp only [List.cons_append, List.nil_append]
    rw [utf8Decode, e1, if_neg (by omega), if_neg (by omega), if_pos (by omega)]
    simp only [hs, ht, if_true, e2, e3, hp]
    rw [pointUnits, if_pos (by omega)]
    rfl
  · have e1 : (UInt8.ofNat (0xF0 + c / 0x40000)).toNat = 0xF0 + c / 0x40000 := by
      rw [UInt8.toNat_ofNat']; omega
    have e2 : (UInt8.ofNat (0x80 + c / 0x1000 % 0x40)).toNat = 0x80 + c / 0x1000 % 0x40 := by
      rw [UInt8.toNat_ofNat']; omega
    have e3 : (UInt8.ofNat (0x80 + c / 0x40 % 0x40)).toNat = 0x80 + c / 0x40 % 0x40 := by
      rw [UInt8.toNat_ofNat']; omega
    have e4 : (UInt8.ofNat (0x80 + c % 0x40)).toNat = 0x80 + c % 0x40 := by
      rw [UInt8.toNat_ofNat']; omega
    have hs : isSecond4 (UInt8.ofNat (0xF0 + c / 0x40000))
        (UInt8.ofNat (0x80 + c / 0x1000 % 0x40)) = true := by
      simp only [isSecond4, e1, e2, Bool.and_eq_true, decide_eq_true_eq]
      split_ifs <;> omega
    have ht : isTail (UInt8.ofNat (0x80 + c / 0x40 % 0x40)) = true := by
      simp [isTail]; omega
    have ht' : isTail (UInt8.ofNat (0x80 + c % 0x40)) = true := by simp [isTail]; omega
    have hp : (0xF0 + c / 0x40000 - 0xF0) * 0x40000 + (0x80 + c / 0x1000 % 0x40 - 0x80) * 0x1000 +
        (0x80 + c / 0x40 % 0x40 - 0x80) * 0x40 + (0x80 + c % 0x40 - 0x80) = c := by omega
    simp only [List.cons_append, List.nil_append]
    rw [utf8Decode, e1, if_neg (by omega), if_neg (by omega), if_neg (by omega), if_pos (by omega)]
    simp only [hs, ht, ht', if_true, e2, e3, e4, hp]
    rw [pointUnits, if_neg (by omega)]

/-- The decoder reads the bytes of a run of code points as their units. -/
theorem utf8Decode_flatMap_codePoint {l : List ℕ} (h : ∀ c ∈ l, IsScalar c) (r : List UInt8) :
    utf8Decode (l.flatMap utf8CodePoint ++ r) = l.flatMap pointUnits ++ utf8Decode r := by
  induction l with
  | nil => rfl
  | cons c l ih =>
    rw [List.flatMap_cons, List.append_assoc, utf8Decode_codePoint (h c (by simp)),
      ih fun d hd => h d (by simp [hd]), List.flatMap_cons, List.append_assoc]

/-- The round trip, in front of any further bytes. -/
theorem utf8Decode_encode_append {s : Str} (hs : wellFormed s = true) (r : List UInt8) :
    utf8Decode (utf8Encode s ++ r) = s ++ utf8Decode r := by
  obtain ⟨h1, h2⟩ := wellFormed_codePoints hs
  rw [utf8Encode, utf8Decode_flatMap_codePoint h2, h1]

/-- The round trip. -/
theorem utf8Decode_encode {s : Str} (hs : wellFormed s = true) : utf8Decode (utf8Encode s) = s := by
  have h := utf8Decode_encode_append hs []
  rwa [List.append_nil, utf8Decode, List.append_nil] at h

/-- A byte below 0x80 stands for itself. -/
theorem eq_of_mem_utf8CodePoint {c : ℕ} (hc : IsScalar c) {b : UInt8} (hb : b.toNat < 0x80)
    (h : b ∈ utf8CodePoint c) : c = b.toNat := by
  obtain ⟨hc, -⟩ := hc
  unfold utf8CodePoint at h
  split_ifs at h with a1 a2 a3 a4
  · rw [List.mem_singleton] at h
    rw [h, UInt8.toNat_ofNat']
    omega
  · simp only [List.mem_cons, List.not_mem_nil, or_false, ← UInt8.toNat_inj,
      UInt8.toNat_ofNat'] at h
    omega
  · -- the bytes of U+FFFD
    simp only [List.mem_cons, List.not_mem_nil, or_false] at h
    rcases h with rfl | rfl | rfl <;> exact absurd hb (by decide)
  · simp only [List.mem_cons, List.not_mem_nil, or_false, ← UInt8.toNat_inj,
      UInt8.toNat_ofNat'] at h
    omega
  · simp only [List.mem_cons, List.not_mem_nil, or_false, ← UInt8.toNat_inj,
      UInt8.toNat_ofNat'] at h
    omega

/-- A byte below 0x80 in the bytes of a well-formed text is a unit of the text. -/
theorem mem_of_mem_utf8Encode {s : Str} (hs : wellFormed s = true) {b : UInt8} (hb : b.toNat < 0x80)
    (h : b ∈ utf8Encode s) : UInt16.ofNat b.toNat ∈ s := by
  obtain ⟨c, hc, hbc⟩ := List.mem_flatMap.mp h
  obtain ⟨hunits, hscalar⟩ := wellFormed_codePoints hs
  rw [← hunits]
  refine List.mem_flatMap.mpr ⟨c, hc, ?_⟩
  rw [eq_of_mem_utf8CodePoint (hscalar c hc) hb hbc, pointUnits, if_pos (by omega)]
  exact List.mem_singleton.mpr rfl

/-! ## Texts that are cut -/

/-- A part of a concatenation ends inside of one of its pieces, or at its start. -/
theorem exists_of_append_eq_flatMap {α β : Type} {f : α → List β} {l : List α} {p r : List β}
    (h : p ++ r = l.flatMap f) (hr : r ≠ []) : ∃ l₁ c l₂ q q', l = l₁ ++ c :: l₂ ∧
      p = l₁.flatMap f ++ q ∧ f c = q ++ q' ∧ q' ≠ [] := by
  induction l generalizing p with
  | nil => simp [hr] at h
  | cons a l ih =>
    rw [List.flatMap_cons, List.append_eq_append_iff] at h
    rcases h with ⟨m, hm, hrest⟩ | ⟨m, rfl, hrest⟩
    · by_cases hne : m = []
      · subst hne
        obtain ⟨l₁, c, l₂, q, q', rfl, hp, hc, hq⟩ := ih (p := []) hrest
        refine ⟨a :: l₁, c, l₂, q, q', rfl, ?_, hc, hq⟩
        rw [List.append_nil] at hm
        rw [List.flatMap_cons, List.append_assoc, ← hp, hm, List.append_nil]
      · exact ⟨[], a, l, p, m, rfl, rfl, hm, hne⟩
    · obtain ⟨l₁, c, l₂, q, q', rfl, rfl, hc, hq⟩ := ih hrest.symm
      refine ⟨a :: l₁, c, l₂, q, q', rfl, ?_, hc, hq⟩
      rw [List.flatMap_cons, List.append_assoc]

/-- A character that is cut is read as one U+FFFD. -/
theorem utf8Decode_cut {c : ℕ} (hc : IsScalar c) {q q' : List UInt8} (h : utf8CodePoint c = q ++ q')
    (hq : q ≠ []) (hq' : q' ≠ []) : utf8Decode q = [replacement] := by
  obtain ⟨h1, h2⟩ := hc
  unfold utf8CodePoint at h
  split_ifs at h with a1 a2 a4
  · -- one byte has no cut
    have hlength := congrArg List.length h
    have := List.length_pos_iff.mpr hq
    have := List.length_pos_iff.mpr hq'
    simp only [List.length_singleton, List.length_append] at hlength
    omega
  · have e1 : (UInt8.ofNat (0xC0 + c / 0x40)).toNat = 0xC0 + c / 0x40 := by
      rw [UInt8.toNat_ofNat']; omega
    match q, q', h, hq, hq' with
    | [x], _, h, _, _ =>
      rw [List.cons_append, List.cons.injEq] at h
      rw [← h.1, utf8Decode, e1, if_neg (by omega), if_pos (by omega)]
    | x :: y :: q, z :: q', h, _, _ => simp at h
  · have e1 : (UInt8.ofNat (0xE0 + c / 0x1000)).toNat = 0xE0 + c / 0x1000 := by
      rw [UInt8.toNat_ofNat']; omega
    have e2 : (UInt8.ofNat (0x80 + c / 0x40 % 0x40)).toNat = 0x80 + c / 0x40 % 0x40 := by
      rw [UInt8.toNat_ofNat']; omega
    have hs : isSecond3 (UInt8.ofNat (0xE0 + c / 0x1000)) (UInt8.ofNat (0x80 + c / 0x40 % 0x40))
        = true := by
      simp only [isSecond3, e1, e2, Bool.and_eq_true, decide_eq_true_eq]
      split_ifs <;> omega
    match q, q', h, hq, hq' with
    | [x], _, h, _, _ =>
      rw [List.cons_append, List.cons.injEq] at h
      rw [← h.1, utf8Decode, e1, if_neg (by omega), if_neg (by omega), if_pos (by omega)]
    | [x, y], _, h, _, _ =>
      simp only [List.cons_append, List.cons.injEq] at h
      rw [← h.1, ← h.2.1, utf8Decode, e1, if_neg (by omega), if_neg (by omega), if_pos (by omega)]
      simp only [hs, if_true]
    | x :: y :: z :: q, w :: q', h, _, _ => simp at h
  · have e1 : (UInt8.ofNat (0xF0 + c / 0x40000)).toNat = 0xF0 + c / 0x40000 := by
      rw [UInt8.toNat_ofNat']; omega
    have e2 : (UInt8.ofNat (0x80 + c / 0x1000 % 0x40)).toNat = 0x80 + c / 0x1000 % 0x40 := by
      rw [UInt8.toNat_ofNat']; omega
    have hs : isSecond4 (UInt8.ofNat (0xF0 + c / 0x40000))
        (UInt8.ofNat (0x80 + c / 0x1000 % 0x40)) = true := by
      simp only [isSecond4, e1, e2, Bool.and_eq_true, decide_eq_true_eq]
      split_ifs <;> omega
    have ht : isTail (UInt8.ofNat (0x80 + c / 0x40 % 0x40)) = true := by
      simp [isTail]; omega
    match q, q', h, hq, hq' with
    | [x], _, h, _, _ =>
      rw [List.cons_append, List.cons.injEq] at h
      rw [← h.1, utf8Decode, e1, if_neg (by omega), if_neg (by omega), if_neg (by omega),
        if_pos (by omega)]
    | [x, y], _, h, _, _ =>
      simp only [List.cons_append, List.cons.injEq] at h
      rw [← h.1, ← h.2.1, utf8Decode, e1, if_neg (by omega), if_neg (by omega), if_neg (by omega),
        if_pos (by omega)]
      simp only [hs, if_true]
    | [x, y, z], _, h, _, _ =>
      simp only [List.cons_append, List.cons.injEq] at h
      rw [← h.1, ← h.2.1, ← h.2.2.1, utf8Decode, e1, if_neg (by omega), if_neg (by omega),
        if_neg (by omega), if_pos (by omega)]
      simp only [hs, ht, if_true]
    | x :: y :: z :: w :: q, v :: q', h, _, _ => simp at h

theorem pointUnits_ne_nil (c : ℕ) : pointUnits c ≠ [] := by
  unfold pointUnits pairUnits
  split_ifs <;> simp

/-- A well-formed text whose bytes are cut is read as a part of it, then a U+FFFD if the cut is inside of
a character. -/
theorem utf8Decode_prefix {s : Str} (hs : wellFormed s = true) {p r : List UInt8}
    (h : p ++ r = utf8Encode s) (hr : r ≠ []) : ∃ t u, s = t ++ u ∧ u ≠ [] ∧
      (utf8Decode p = t ∨ utf8Decode p = t ++ [replacement]) := by
  obtain ⟨hunits, hscalar⟩ := wellFormed_codePoints hs
  obtain ⟨l₁, c, l₂, q, q', hl, rfl, hc, hq'⟩ := exists_of_append_eq_flatMap h hr
  rw [hl] at hunits hscalar
  obtain ⟨hscalar₁, hscalar₂⟩ := List.forall_mem_append.mp hscalar
  refine ⟨l₁.flatMap pointUnits, (c :: l₂).flatMap pointUnits, ?_, ?_, ?_⟩
  · rw [← List.flatMap_append, hunits]
  · rw [List.flatMap_cons]
    exact List.append_ne_nil_of_left_ne_nil (pointUnits_ne_nil c) _
  · rw [utf8Decode_flatMap_codePoint hscalar₁]
    by_cases hq : q = []
    · subst hq
      exact .inl (by rw [utf8Decode, List.append_nil])
    · exact .inr (by rw [utf8Decode_cut (hscalar₂ c (by simp)) hc hq hq'])

end ParadigmTerra.Text
