import ParadigmTerra.Text.Base64

/-!
# Standard base64 texts in three decoders

A standard text of base64 has digits, padded or not, with white space anywhere. `lenientDecode` and the bitwise
decoder `b64Decode` read all digits of such a text. `strictDecode` stops in front of a group that is broken by
a blank or not filled up, and the bytes that it returns then are fewer: `strictDecode_iff` says for which
standard texts they are all.
-/

namespace ParadigmTerra.Text

/-! ## The bitwise decoder -/

/-- The digit that a byte stands for. -/
def base64Byte (c : UInt8) : Option ℕ :=
  if 65 ≤ c.toNat ∧ c.toNat ≤ 90 then some (c.toNat - 65)
  else if 97 ≤ c.toNat ∧ c.toNat ≤ 122 then some (c.toNat - 97 + 26)
  else if 48 ≤ c.toNat ∧ c.toNat ≤ 57 then some (c.toNat - 48 + 52)
  else if c = 43 then some 62
  else if c = 47 then some 63
  else none

/-- The bytes of a text, given the bits that are pending: `buf` is 32 bits wide, and the low `bits` of it are
not written yet. The first `=` ends the text, and what is no digit is skipped. -/
def b64Loop (buf bits : ℕ) : List UInt8 → List UInt8
  | [] => []
  | c :: s =>
    match base64Byte c with
    | some v =>
      let buf := ((buf <<< 6) % 2 ^ 32) ||| v
      let bits := bits + 6
      if 8 ≤ bits then UInt8.ofNat ((buf >>> (bits - 8)) % 256) :: b64Loop buf (bits - 8) s
      else b64Loop buf bits s
    | none => if c = 61 then [] else b64Loop buf bits s

/-- `b64_decode`, on the bytes of a text. -/
def b64Decode (s : List UInt8) : List UInt8 := b64Loop 0 0 s

/-! ## Standard texts -/

/-- White space. -/
def isBlank (u : UInt16) : Bool := (9 ≤ u.toNat && u.toNat ≤ 13) || u.toNat = 32

/-- The padding that fills the last group of some digits. -/
def base64Padding (n : ℕ) : Str := List.replicate ((4 - n % 4) % 4) 61

/-- The text without its white space: digits of which at least one byte can be read, and padding or none. -/
structure StandardDigits (t digits pad : Str) : Prop where
  split : t.filter (fun u => !isBlank u) = digits ++ pad
  all_digits : ∀ u ∈ digits, (base64Value u).isSome = true
  whole : digits.length % 4 ≠ 1
  pad : pad = [] ∨ pad = base64Padding digits.length

/-- A standard text, with white space anywhere. -/
def StandardText (t : Str) : Prop := ∃ digits pad, StandardDigits t digits pad

/-- Whole groups of four, and then only white space. -/
def WholeGroups (t : Str) : Prop :=
  ∃ body tail, t = body ++ tail ∧ (∀ u ∈ body, isBlank u = false) ∧ body.length % 4 = 0 ∧
    ∀ u ∈ tail, isBlank u = true

/-- The text without line breaks is whole groups of four, and then only white space. -/
def ReadStrictly (t : Str) : Prop := WholeGroups (t.filter fun u => u ≠ 10 ∧ u ≠ 13)

/-! ## Digits and other units -/

theorem isBlank_iff {u : UInt16} : isBlank u = true ↔ 9 ≤ u.toNat ∧ u.toNat ≤ 13 ∨ u.toNat = 32 := by
  simp only [isBlank, Bool.or_eq_true, Bool.and_eq_true, decide_eq_true_eq]

theorem isBlank_of_isSome {u : UInt16} (h : (base64Value u).isSome = true) : isBlank u = false ∧ u ≠ 61 := by
  constructor
  · by_contra hblank
    have hrange := isBlank_iff.mp (by simpa using hblank)
    have h43 : u ≠ 43 := by
      rintro rfl
      revert hrange
      decide
    have h47 : u ≠ 47 := by
      rintro rfl
      revert hrange
      decide
    have hnone : base64Value u = none := by
      unfold base64Value
      rw [if_neg (by omega), if_neg (by omega), if_neg (by omega), if_neg h43, if_neg h47]
    rw [hnone] at h
    cases h
  · rintro rfl
    revert h
    decide

theorem base64UrlValue_of_some {u : UInt16} {n : ℕ} (h : base64Value u = some n) :
    base64UrlValue u = some n := by
  unfold base64UrlValue
  have h45 : u ≠ 45 := by
    rintro rfl
    have hnone : base64Value 45 = none := by decide
    rw [hnone] at h
    cases h
  have h95 : u ≠ 95 := by
    rintro rfl
    have hnone : base64Value 95 = none := by decide
    rw [hnone] at h
    cases h
  rw [if_neg h45, if_neg h95, h]

theorem base64Value_lt {u : UInt16} {n : ℕ} (h : base64Value u = some n) : n < 64 := by
  unfold base64Value at h
  split_ifs at h <;> cases h <;> omega

/-- The numbers of digits. -/
def digitValues (digits : Str) : List ℕ := digits.filterMap base64Value

theorem digitValues_cons {u : UInt16} {n : ℕ} (h : base64Value u = some n) (s : Str) :
    digitValues (u :: s) = n :: digitValues s := List.filterMap_cons_some h

theorem lenient_skip {u : UInt16} (h : isBlank u = true ∨ u = 61) : base64UrlValue u = none := by
  rcases h with h | rfl
  · have hrange := isBlank_iff.mp h
    have hne : ∀ v : UInt16, (13 < v.toNat ∧ v.toNat ≠ 32) → u ≠ v := by
      rintro v hv rfl
      omega
    unfold base64UrlValue base64Value
    rw [if_neg (hne 45 (by decide)), if_neg (hne 95 (by decide)), if_neg (by omega), if_neg (by omega),
      if_neg (by omega), if_neg (hne 43 (by decide)), if_neg (hne 47 (by decide))]
  · decide

/-! ## The lenient decoders -/

section Standard

variable {t digits pad : Str}

theorem StandardDigits.pad_eq (h : StandardDigits t digits pad) : ∀ u ∈ pad, u = 61 := by
  intro u hu
  rcases h.pad with rfl | rfl
  · cases hu
  · exact List.eq_of_mem_replicate hu

/-- The lenient decoder reads all digits. -/
theorem StandardDigits.lenientDecode (h : StandardDigits t digits pad) :
    lenientDecode t = sextetBytes (digitValues digits) := by
  have hfilter : t.filterMap base64UrlValue =
      (t.filter fun u => !isBlank u).filterMap base64UrlValue := by
    rw [List.filterMap_filter]
    refine List.filterMap_congr fun u _ => ?_
    cases hblank : isBlank u with
    | true => simp [lenient_skip (.inl hblank)]
    | false => simp
  have hpad : pad.filterMap base64UrlValue = [] :=
    List.filterMap_eq_nil_iff.mpr fun u hu => lenient_skip (.inr (h.pad_eq u hu))
  have hdigits : digits.filterMap base64UrlValue = digitValues digits := by
    refine List.filterMap_congr fun u hu => ?_
    obtain ⟨n, hn⟩ := Option.isSome_iff_exists.mp (h.all_digits u hu)
    rw [base64UrlValue_of_some hn, hn]
  rw [Text.lenientDecode, hfilter, h.split, List.filterMap_append, hpad, hdigits, List.append_nil]

end Standard

/-- A digit that is taken in stands below the bits that were there. -/
theorem buf_or {buf v : ℕ} (hv : v < 64) : ((buf <<< 6) % 2 ^ 32) ||| v = buf * 64 % 2 ^ 32 + v := by
  have hshift : (buf <<< 6) % 2 ^ 32 = (buf % 2 ^ 26) <<< 6 := by
    rw [Nat.shiftLeft_eq, Nat.shiftLeft_eq]
    omega
  rw [hshift, ← Nat.shiftLeft_add_eq_or_of_lt (show v < 2 ^ 6 by omega), ← hshift, Nat.shiftLeft_eq]

theorem base64Byte_lt {c : UInt8} {v : ℕ} (h : base64Byte c = some v) : v < 64 := by
  unfold base64Byte at h
  split_ifs at h <;> cases h <;> omega

/-- A digit that does not fill a byte. -/
theorem b64Loop_keep {c : UInt8} {v : ℕ} (hv : base64Byte c = some v) {bits : ℕ} (hbits : bits < 2)
    (buf : ℕ) (s : List UInt8) :
    b64Loop buf bits (c :: s) = b64Loop (buf * 64 % 2 ^ 32 + v) (bits + 6) s := by
  rw [b64Loop, hv]
  simp only [buf_or (base64Byte_lt hv)]
  rw [if_neg (by omega)]

/-- A digit that fills a byte. -/
theorem b64Loop_write {c : UInt8} {v : ℕ} (hv : base64Byte c = some v) (bits buf : ℕ) (s : List UInt8) :
    b64Loop buf (bits + 2) (c :: s) =
      UInt8.ofNat ((buf * 64 % 2 ^ 32 + v) / 2 ^ bits % 256) ::
        b64Loop (buf * 64 % 2 ^ 32 + v) bits s := by
  rw [b64Loop, hv]
  simp only [buf_or (base64Byte_lt hv), Nat.shiftRight_eq_div_pow]
  rw [if_pos (by omega), show bits + 2 + 6 - 8 = bits by omega]

/-- The bitwise decoder at the start of a group. What is left of the groups before has no part in it. -/
theorem b64Loop_values (cs : List UInt8) (hcs : ∀ c ∈ cs, (base64Byte c).isSome = true) (buf : ℕ) :
    b64Loop buf 0 cs = sextetBytes (cs.filterMap base64Byte) := by
  match cs with
  | [] => rfl
  | [a] =>
    obtain ⟨p, hp⟩ := Option.isSome_iff_exists.mp (hcs a (by simp))
    rw [b64Loop_keep hp (by omega), List.filterMap_cons_some hp]
    rfl
  | [a, b] =>
    obtain ⟨p, hp⟩ := Option.isSome_iff_exists.mp (hcs a (by simp))
    obtain ⟨q, hq⟩ := Option.isSome_iff_exists.mp (hcs b (by simp))
    have hplt := base64Byte_lt hp
    have hqlt := base64Byte_lt hq
    rw [b64Loop_keep hp (by omega), b64Loop_write hq 4, List.filterMap_cons_some hp,
      List.filterMap_cons_some hq, List.filterMap_nil, sextetBytes, b64Loop,
      show ((buf * 64 % 2 ^ 32 + p) * 64 % 2 ^ 32 + q) / 2 ^ 4 % 256 = p * 4 + q / 16 by omega]
  | [a, b, c] =>
    obtain ⟨p, hp⟩ := Option.isSome_iff_exists.mp (hcs a (by simp))
    obtain ⟨q, hq⟩ := Option.isSome_iff_exists.mp (hcs b (by simp))
    obtain ⟨r, hr⟩ := Option.isSome_iff_exists.mp (hcs c (by simp))
    have hplt := base64Byte_lt hp
    have hqlt := base64Byte_lt hq
    have hrlt := base64Byte_lt hr
    rw [b64Loop_keep hp (by omega), b64Loop_write hq 4, b64Loop_write hr 2, List.filterMap_cons_some hp,
      List.filterMap_cons_some hq, List.filterMap_cons_some hr, List.filterMap_nil, sextetBytes, b64Loop,
      show ((buf * 64 % 2 ^ 32 + p) * 64 % 2 ^ 32 + q) / 2 ^ 4 % 256 = p * 4 + q / 16 by omega,
      show (((buf * 64 % 2 ^ 32 + p) * 64 % 2 ^ 32 + q) * 64 % 2 ^ 32 + r) / 2 ^ 2 % 256 =
        q % 16 * 16 + r / 4 by omega]
  | a :: b :: c :: d :: rest =>
    obtain ⟨p, hp⟩ := Option.isSome_iff_exists.mp (hcs a (by simp))
    obtain ⟨q, hq⟩ := Option.isSome_iff_exists.mp (hcs b (by simp))
    obtain ⟨r, hr⟩ := Option.isSome_iff_exists.mp (hcs c (by simp))
    obtain ⟨s, hs⟩ := Option.isSome_iff_exists.mp (hcs d (by simp))
    have hplt := base64Byte_lt hp
    have hqlt := base64Byte_lt hq
    have hrlt := base64Byte_lt hr
    have hslt := base64Byte_lt hs
    rw [b64Loop_keep hp (by omega), b64Loop_write hq 4, b64Loop_write hr 2, b64Loop_write hs 0,
      b64Loop_values rest (fun c hc => hcs c (by simp [hc])), List.filterMap_cons_some hp,
      List.filterMap_cons_some hq, List.filterMap_cons_some hr, List.filterMap_cons_some hs, sextetBytes,
      show ((buf * 64 % 2 ^ 32 + p) * 64 % 2 ^ 32 + q) / 2 ^ 4 % 256 = p * 4 + q / 16 by omega,
      show (((buf * 64 % 2 ^ 32 + p) * 64 % 2 ^ 32 + q) * 64 % 2 ^ 32 + r) / 2 ^ 2 % 256 =
        q % 16 * 16 + r / 4 by omega,
      show ((((buf * 64 % 2 ^ 32 + p) * 64 % 2 ^ 32 + q) * 64 % 2 ^ 32 + r) * 64 % 2 ^ 32 + s) / 2 ^ 0 %
        256 = r % 4 * 64 + s by omega]

/-! ## The bytes of a standard text -/

/-- The byte of an ASCII unit. -/
def asciiByte (u : UInt16) : UInt8 := UInt8.ofNat u.toNat

theorem toNat_asciiByte {u : UInt16} (h : u.toNat < 0x80) : (asciiByte u).toNat = u.toNat := by
  rw [asciiByte, UInt8.toNat_ofNat']
  omega

theorem utf8Encode_ascii {s : Str} (h : ∀ u ∈ s, u.toNat < 0x80) : utf8Encode s = s.map asciiByte := by
  have hpoint : ∀ u : UInt16, u.toNat < 0x80 → utf8CodePoint u.toNat = [asciiByte u] := by
    intro u hu
    rw [utf8CodePoint, if_pos hu]
    rfl
  induction s with
  | nil => rfl
  | cons u s ih =>
    obtain ⟨hu, hs⟩ := List.forall_mem_cons.mp h
    have hsingle : wellFormed [u] = true := wellFormed_of_forall (s := [u]) fun v hv => by
      rw [List.mem_singleton.mp hv]
      constructor
      · simp only [isHigh, Bool.and_eq_false_iff, decide_eq_false_iff_not]
        omega
      · simp only [isLow, Bool.and_eq_false_iff, decide_eq_false_iff_not]
        omega
    have happend := utf8Encode_append hsingle s
    rw [List.singleton_append] at happend
    have hone : utf8Encode [u] = [asciiByte u] := by
      have hcode : codePoints [u] = [u.toNat] := by rw [codePoints]
      rw [utf8Encode, hcode, List.flatMap_cons, List.flatMap_nil, List.append_nil, hpoint u hu]
    rw [happend, hone, ih hs, List.map_cons, List.singleton_append]

theorem base64Byte_ascii {u : UInt16} (h : u.toNat < 0x80) : base64Byte (asciiByte u) = base64Value u := by
  have hbyte : ∀ v : UInt16, v.toNat < 0x80 → (asciiByte u = asciiByte v ↔ u = v) := by
    intro v hv
    rw [← UInt8.toNat_inj, toNat_asciiByte h, toNat_asciiByte hv, UInt16.toNat_inj]
  have h43 := hbyte 43 (by decide)
  have h47 := hbyte 47 (by decide)
  unfold base64Byte base64Value
  rw [toNat_asciiByte h]
  simp only [show (43 : UInt8) = asciiByte 43 from rfl, show (47 : UInt8) = asciiByte 47 from rfl, h43, h47]
  split_ifs <;> first | rfl | (congr 1; omega)

/-- Blanks are skipped. -/
theorem b64Loop_filter {t : Str} (h : ∀ u ∈ t, u.toNat < 0x80) (buf bits : ℕ) :
    b64Loop buf bits (t.map asciiByte) =
      b64Loop buf bits ((t.filter fun u => !isBlank u).map asciiByte) := by
  induction t generalizing buf bits with
  | nil => rfl
  | cons u t ih =>
    obtain ⟨hu, ht⟩ := List.forall_mem_cons.mp h
    cases hblank : isBlank u with
    | true =>
      have hskip : base64Value u = none := by
        by_contra hne
        obtain ⟨n, hn⟩ := Option.ne_none_iff_exists'.mp hne
        have hfalse := (isBlank_of_isSome (u := u) (by rw [hn]; rfl)).1
        rw [hblank] at hfalse
        cases hfalse
      have hpad : asciiByte u ≠ 61 := by
        intro heq
        have hnat := congrArg UInt8.toNat heq
        rw [toNat_asciiByte hu] at hnat
        have hrange := isBlank_iff.mp hblank
        change u.toNat = 61 at hnat
        omega
      rw [List.filter_cons_of_neg (by simp [hblank]), List.map_cons, b64Loop, base64Byte_ascii hu, hskip]
      simp only [hpad, if_false]
      exact ih ht buf bits
    | false =>
      rw [List.filter_cons_of_pos (by simp [hblank]), List.map_cons, List.map_cons, b64Loop, b64Loop]
      cases base64Byte (asciiByte u) with
      | some v =>
        dsimp only
        split
        · rw [ih ht]
        · exact ih ht _ _
      | none =>
        dsimp only
        split
        · rfl
        · exact ih ht _ _

/-- The padding ends the text. -/
theorem b64Loop_padding {cs pad : List UInt8} (hcs : ∀ c ∈ cs, (base64Byte c).isSome = true)
    (hpad : ∀ c ∈ pad, c = 61) (buf bits : ℕ) : b64Loop buf bits (cs ++ pad) = b64Loop buf bits cs := by
  induction cs generalizing buf bits with
  | nil =>
    cases pad with
    | nil => rfl
    | cons c pad =>
      have hnone : base64Byte 61 = none := by decide
      rw [hpad c List.mem_cons_self, List.nil_append]
      simp [b64Loop, hnone]
  | cons c cs ih =>
    obtain ⟨hc, hcs⟩ := List.forall_mem_cons.mp hcs
    obtain ⟨v, hv⟩ := Option.isSome_iff_exists.mp hc
    rw [List.cons_append, b64Loop, b64Loop, hv]
    dsimp only
    split
    · rw [ih hcs]
    · exact ih hcs _ _

section Standard

variable {t digits pad : Str}

/-- A standard text is ASCII. -/
theorem StandardDigits.ascii (h : StandardDigits t digits pad) : ∀ u ∈ t, u.toNat < 0x80 := by
  intro u hu
  cases hblank : isBlank u with
  | true =>
    have hrange := isBlank_iff.mp hblank
    omega
  | false =>
    have hmem : u ∈ t.filter fun u => !isBlank u := List.mem_filter.mpr ⟨hu, by simp [hblank]⟩
    rw [h.split] at hmem
    rcases List.mem_append.mp hmem with hmem | hmem
    · obtain ⟨n, hn⟩ := Option.isSome_iff_exists.mp (h.all_digits u hmem)
      unfold base64Value at hn
      split_ifs at hn with h1 h2 h3 h4 h5
      · omega
      · omega
      · omega
      · rw [h4]
        decide
      · rw [h5]
        decide
    · rw [h.pad_eq u hmem]
      decide

/-- The bitwise decoder reads all digits. -/
theorem StandardDigits.b64Decode (h : StandardDigits t digits pad) :
    b64Decode (utf8Encode t) = sextetBytes (digitValues digits) := by
  have hascii : ∀ u ∈ digits, u.toNat < 0x80 := by
    intro u hu
    have hmem : u ∈ t.filter fun u => !isBlank u := by
      rw [h.split]
      exact List.mem_append_left _ hu
    exact h.ascii u (List.mem_filter.mp hmem).1
  have hdigits : ∀ c ∈ digits.map asciiByte, (base64Byte c).isSome = true := by
    intro c hc
    obtain ⟨u, hu, rfl⟩ := List.mem_map.mp hc
    rw [base64Byte_ascii (hascii u hu)]
    exact h.all_digits u hu
  have hpad : ∀ c ∈ pad.map asciiByte, c = 61 := by
    intro c hc
    obtain ⟨u, hu, rfl⟩ := List.mem_map.mp hc
    rw [h.pad_eq u hu]
    rfl
  have hvalues : (digits.map asciiByte).filterMap base64Byte = digitValues digits := by
    rw [List.filterMap_map]
    exact List.filterMap_congr fun u hu => base64Byte_ascii (hascii u hu)
  rw [Text.b64Decode, utf8Encode_ascii h.ascii, b64Loop_filter h.ascii, h.split, List.map_append,
    b64Loop_padding hdigits hpad, b64Loop_values _ hdigits, hvalues]

end Standard

/-! ## The strict decoder -/

theorem sextetBytes_eq_nil {values : List ℕ} (h : values.length % 4 ≠ 1) :
    sextetBytes values = [] ↔ values = [] := by
  match values with
  | [] => exact iff_of_true rfl rfl
  | [_] => exact absurd rfl h
  | [_, _] => simp [sextetBytes]
  | [_, _, _] => simp [sextetBytes]
  | _ :: _ :: _ :: _ :: _ => simp [sextetBytes]

theorem length_digitValues {digits : Str} (h : ∀ u ∈ digits, (base64Value u).isSome = true) :
    (digitValues digits).length = digits.length := by
  induction digits with
  | nil => rfl
  | cons u s ih =>
    obtain ⟨hu, hs⟩ := List.forall_mem_cons.mp h
    obtain ⟨n, hn⟩ := Option.isSome_iff_exists.mp hu
    rw [digitValues_cons hn, List.length_cons, List.length_cons, ih hs]

section Standard

variable {t digits pad : Str}

/-- A standard text without bytes is blank. -/
theorem StandardDigits.blank_iff (h : StandardDigits t digits pad) :
    sextetBytes (digitValues digits) = [] ↔ ∀ u ∈ t, isBlank u = true := by
  have hlength := length_digitValues h.all_digits
  have hempty : sextetBytes (digitValues digits) = [] ↔ digits = [] := by
    rw [sextetBytes_eq_nil (by rw [hlength]; exact h.whole), ← List.length_eq_zero_iff, hlength,
      List.length_eq_zero_iff]
  have hsplit : digits ++ pad = [] ↔ digits = [] := by
    rw [List.append_eq_nil_iff]
    refine ⟨And.left, fun hdigits => ⟨hdigits, ?_⟩⟩
    subst hdigits
    rcases h.pad with hpad | hpad
    · exact hpad
    · exact hpad
  rw [hempty, ← hsplit, ← h.split, List.filter_eq_nil_iff]
  refine forall₂_congr fun u _ => ?_
  rw [Bool.not_eq_true, Bool.not_eq_false']

/-- A text that does not begin with a whole group has whole groups only where it is blank. -/
theorem wholeGroups_blank (h : ∀ body tail, t = body ++ tail → (∀ u ∈ body, isBlank u = false) →
    body.length % 4 = 0 → body = []) : WholeGroups t ↔ ∀ u ∈ t, isBlank u = true := by
  constructor
  · rintro ⟨body, tail, hsplit, hbody, hlength, htail⟩
    have hnil := h body tail hsplit hbody hlength
    rw [hsplit, hnil, List.nil_append]
    exact htail
  · exact fun hblank => ⟨[], t, rfl, by simp, rfl, hblank⟩

/-- A group is lost: it has a blank, or the text ends in it. -/
theorem StandardDigits.lost (h : StandardDigits t digits pad) (hlost : (strictGroups t).1 = [])
    (hgroup : ∀ body tail, t = body ++ tail → (∀ u ∈ body, isBlank u = false) →
      body.length % 4 = 0 → body = []) :
    (strictGroups t).1 = sextetBytes (digitValues digits) ↔ WholeGroups t := by
  rw [wholeGroups_blank hgroup, ← h.blank_iff, hlost, eq_comm]

end Standard

theorem strictValue_of_blank {u : UInt16} (h : isBlank u = true) : base64Value u = none ∧ u ≠ 61 := by
  constructor
  · by_contra hne
    obtain ⟨n, hn⟩ := Option.ne_none_iff_exists'.mp hne
    have hfalse := (isBlank_of_isSome (u := u) (by rw [hn]; rfl)).1
    rw [h] at hfalse
    cases hfalse
  · rintro rfl
    revert h
    decide

theorem strictGroups_of_blank {p q r s : UInt16} (rest : Str)
    (h : isBlank p = true ∨ isBlank q = true ∨ isBlank r = true ∨ isBlank s = true) :
    (strictGroups (p :: q :: r :: s :: rest)).1 = [] := by
  rcases h with h | h | h | h
  · rw [strictGroups, (strictValue_of_blank h).1]
  · rw [strictGroups, (strictValue_of_blank h).1]
    cases base64Value p <;> rfl
  · rw [strictGroups, (strictValue_of_blank h).1]
    cases base64Value p <;> cases base64Value q <;> simp [(strictValue_of_blank h).2]
  · rw [strictGroups, (strictValue_of_blank h).1]
    cases base64Value p <;> cases base64Value q <;> cases base64Value r <;>
      simp [(strictValue_of_blank h).2]

/-- A whole group in front. -/
theorem wholeGroups_cons {p q r s : UInt16} (rest : Str)
    (h : ∀ u ∈ [p, q, r, s], isBlank u = false) :
    WholeGroups (p :: q :: r :: s :: rest) ↔ WholeGroups rest := by
  constructor
  · rintro ⟨body, tail, hsplit, hbody, hlength, htail⟩
    match body with
    | [] =>
      -- the first unit is no blank
      have hblank := htail p (by rw [← List.nil_append tail, ← hsplit]; exact List.mem_cons_self)
      rw [h p (by simp)] at hblank
      cases hblank
    | [_] | [_, _] | [_, _, _] => simp at hlength
    | a :: b :: c :: d :: body =>
      simp only [List.cons_append, List.cons.injEq] at hsplit
      obtain ⟨-, -, -, -, hrest⟩ := hsplit
      refine ⟨body, tail, hrest, fun u hu => hbody u (by simp [hu]), ?_, htail⟩
      simp only [List.length_cons] at hlength
      omega
  · rintro ⟨body, tail, rfl, hbody, hlength, htail⟩
    refine ⟨p :: q :: r :: s :: body, tail, rfl, ?_, ?_, htail⟩
    · intro u hu
      rcases List.mem_append.mp (show u ∈ [p, q, r, s] ++ body from hu) with hu | hu
      · exact h u hu
      · exact hbody u hu
    · simp only [List.length_cons]
      omega

/-- The last group is filled up. -/
theorem StandardDigits.padded {t digits pad : Str} (h : StandardDigits t digits pad)
    (hdigits : digits.length % 4 ≠ 0) (hpad : pad ≠ []) :
    pad = List.replicate (4 - digits.length % 4) 61 := by
  rcases h.pad with hnil | hfull
  · exact absurd hnil hpad
  · rw [hfull, base64Padding, Nat.mod_eq_of_lt (by omega)]

/-- The strict decoder on a text without line breaks. -/
theorem StandardDigits.strictGroups {t digits pad : Str} (h : StandardDigits t digits pad) :
    (strictGroups t).1 = sextetBytes (digitValues digits) ↔ WholeGroups t := by
  match t with
  | [] =>
    refine h.lost rfl fun body tail hsplit _ _ => ?_
    exact (List.append_eq_nil_iff.mp hsplit.symm).1
  | [_] | [_, _] | [_, _, _] =>
    refine h.lost rfl fun body tail hsplit _ hlength => ?_
    have htotal := congrArg List.length hsplit
    simp only [List.length_append, List.length_cons, List.length_nil] at htotal
    exact List.length_eq_zero_iff.mp (by omega)
  | p :: q :: r :: s :: rest =>
    by_cases hblank : isBlank p = true ∨ isBlank q = true ∨ isBlank r = true ∨ isBlank s = true
    · refine h.lost (strictGroups_of_blank rest hblank) fun body tail hsplit hbody hlength => ?_
      match body with
      | [] => rfl
      | [_] | [_, _] | [_, _, _] => simp at hlength
      | a :: b :: c :: d :: body =>
        simp only [List.cons_append, List.cons.injEq] at hsplit
        obtain ⟨rfl, rfl, rfl, rfl, -⟩ := hsplit
        exfalso
        rcases hblank with hb | hb | hb | hb <;>
        · rw [hbody _ (by simp)] at hb
          cases hb
    · simp only [not_or, Bool.not_eq_true] at hblank
      obtain ⟨hp, hq, hr, hs⟩ := hblank
      have hgroup : ∀ u ∈ [p, q, r, s], isBlank u = false := by
        simp only [List.forall_mem_cons]
        exact ⟨hp, hq, hr, hs, fun _ hu => nomatch hu⟩
      rw [wholeGroups_cons rest hgroup]
      have hsplit := h.split
      simp only [List.filter_cons, hp, hq, hr, hs, Bool.not_false, if_true] at hsplit
      match digits with
      | [] =>
        -- without digits there is no padding
        rcases h.pad with rfl | rfl <;> cases hsplit
      | [_] => exact absurd rfl h.whole
      | [a, b] =>
        have hpad := h.padded (by simp) (by rintro rfl; cases hsplit)
        subst hpad
        simp only [List.cons_append, List.nil_append, List.length_cons, List.length_nil,
          List.replicate, List.cons.injEq] at hsplit
        obtain ⟨rfl, rfl, rfl, rfl, hrest⟩ := hsplit
        obtain ⟨m, hm⟩ := Option.isSome_iff_exists.mp (h.all_digits p (by simp))
        obtain ⟨n, hn⟩ := Option.isSome_iff_exists.mp (h.all_digits q (by simp))
        refine iff_of_true ?_ ⟨[], rest, rfl, by simp, rfl, ?_⟩
        · have hnone : base64Value 61 = none := by decide
          rw [Text.strictGroups, hm, hn, hnone, digitValues_cons hm, digitValues_cons hn]
          rfl
        · intro u hu
          simpa using List.filter_eq_nil_iff.mp hrest u hu
      | [a, b, c] =>
        have hpad := h.padded (by simp) (by rintro rfl; cases hsplit)
        subst hpad
        simp only [List.cons_append, List.nil_append, List.length_cons, List.length_nil,
          List.replicate, List.cons.injEq] at hsplit
        obtain ⟨rfl, rfl, rfl, rfl, hrest⟩ := hsplit
        obtain ⟨m, hm⟩ := Option.isSome_iff_exists.mp (h.all_digits p (by simp))
        obtain ⟨n, hn⟩ := Option.isSome_iff_exists.mp (h.all_digits q (by simp))
        obtain ⟨k, hk⟩ := Option.isSome_iff_exists.mp (h.all_digits r (by simp))
        refine iff_of_true ?_ ⟨[], rest, rfl, by simp, rfl, ?_⟩
        · have hnone : base64Value 61 = none := by decide
          rw [Text.strictGroups, hm, hn, hk, hnone, digitValues_cons hm, digitValues_cons hn,
            digitValues_cons hk]
          rfl
        · intro u hu
          simpa using List.filter_eq_nil_iff.mp hrest u hu
      | a :: b :: c :: d :: digits =>
        simp only [List.cons_append, List.cons.injEq] at hsplit
        obtain ⟨rfl, rfl, rfl, rfl, hrest⟩ := hsplit
        obtain ⟨m, hm⟩ := Option.isSome_iff_exists.mp (h.all_digits p (by simp))
        obtain ⟨n, hn⟩ := Option.isSome_iff_exists.mp (h.all_digits q (by simp))
        obtain ⟨k, hk⟩ := Option.isSome_iff_exists.mp (h.all_digits r (by simp))
        obtain ⟨l, hl⟩ := Option.isSome_iff_exists.mp (h.all_digits s (by simp))
        have hnext : StandardDigits rest digits pad :=
          { split := hrest
            all_digits := fun u hu => h.all_digits u (by simp [hu])
            whole := by
              have hwhole := h.whole
              simp only [List.length_cons] at hwhole
              omega
            pad := by
              have hpad := h.pad
              simp only [List.length_cons, base64Padding] at hpad
              simpa [base64Padding, Nat.add_assoc] using hpad }
        rw [← hnext.strictGroups, Text.strictGroups, hm, hn, hk, hl, digitValues_cons hm,
          digitValues_cons hn, digitValues_cons hk, digitValues_cons hl]
        simp only [sextetBytes, List.cons_append, List.nil_append, List.cons.injEq, true_and]

/-- The strict decoder reads all digits of the standard texts in whole groups, and of no others. -/
theorem StandardDigits.strictDecode_iff {t digits pad : Str} (h : StandardDigits t digits pad) :
    (strictDecode t).1 = sextetBytes (digitValues digits) ↔ ReadStrictly t := by
  have hbreak : ∀ u : UInt16, u = 10 ∨ u = 13 → isBlank u = true := by
    rintro u (rfl | rfl) <;> decide
  have hline : StandardDigits (t.filter fun u => u ≠ 10 ∧ u ≠ 13) digits pad :=
    { h with
      split := by
        rw [← h.split, List.filter_filter]
        refine List.filter_congr fun u _ => ?_
        by_cases hu : u = 10 ∨ u = 13
        · simp [hbreak u hu]
        · simp only [not_or] at hu
          simp [hu] }
  exact hline.strictGroups

end ParadigmTerra.Text
