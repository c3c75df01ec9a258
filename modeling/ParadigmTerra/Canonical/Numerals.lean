import Mathlib
import ParadigmTerra.Canonical.Hash

/-!
# Numerals and hex strings

`bigIntOfStr` is the language's `BigInt(s)`, and `fromHex` the inverse of `toHex`. The round trips are
`bigIntOfStr_decimal` and `fromHex_toHex`; `isDecimal_decimalNat` is the shape of the numerals that are
written.
-/

namespace ParadigmTerra

open Text Fallible

/-! ## Reading -/

/-- A unit that `trim` strips: white space or a line terminator. -/
def isTrimmed (u : UInt16) : Bool :=
  u = 0x09 || u = 0x0A || u = 0x0B || u = 0x0C || u = 0x0D || u = 0x20 || u = 0xA0 || u = 0x1680 ||
    (0x2000 ≤ u.toNat && u.toNat ≤ 0x200A) || u = 0x2028 || u = 0x2029 || u = 0x202F ||
    u = 0x205F || u = 0x3000 || u = 0xFEFF

/-- `s.trim()`. -/
def trim (s : Str) : Str := ((s.dropWhile isTrimmed).reverse.dropWhile isTrimmed).reverse

/-- The radix that a prefix `0x`, `0o` or `0b` announces, and the digits behind it. -/
def radixPrefix : Str → Option (ℕ × Str)
  | 48 :: c :: h =>
    if c = 0x78 || c = 0x58 then some (16, h)
    else if c = 0x6F || c = 0x4F then some (8, h)
    else if c = 0x62 || c = 0x42 then some (2, h)
    else none
  | _ => none

/-- The value of digits in a radix. -/
def radixValue (radix : ℕ) (digits : Str) : Except Throw ℤ := do
  require (digits ≠ [] ∧ digits.all (fun u => isHexDigit u && decide (hexValue u < radix)) = true)
    .syntaxError
  pure (digits.foldl (fun n u => radix * n + hexValue u) 0)

/-- Whether a numeral has a minus sign, and what follows the sign. -/
def splitPlusMinus : Str → Bool × Str
  | 45 :: s => (true, s)
  | 43 :: s => (false, s)
  | s => (false, s)

/-- `BigInt(s)`. -/
def bigIntOfStr (s : Str) : Except Throw ℤ :=
  let t := trim s
  if t = [] then pure 0
  else
    match radixPrefix t with
    | some (radix, digits) => radixValue radix digits
    | none => do
      let (neg, digits) := splitPlusMinus t
      require (digits ≠ [] ∧ digits.all isDigit = true) .syntaxError
      pure (if neg then -(digitsValue digits : ℤ) else digitsValue digits)

/-- The bytes of pairs of hex digits. -/
def hexPairs : Str → Except Throw (List UInt8)
  | a :: b :: s => do
    require (isHexDigit a = true ∧ isHexDigit b = true) (.canonicalEncoding "HEX_INVALID_CHAR")
    let bytes ← hexPairs s
    pure (UInt8.ofNat (hexValue a * 16 + hexValue b) :: bytes)
  | _ => pure []

/-- Hex without its `0x`. -/
def stripHexPrefix : Str → Str
  | 48 :: c :: h => if c = 0x78 || c = 0x58 then h else 48 :: c :: h
  | h => h

/-- Bytes from hex, with or without `0x`. -/
def fromHex (hex : Str) : Except Throw (List UInt8) := do
  let stripped := stripHexPrefix hex
  require (stripped.length % 2 = 0) (.canonicalEncoding "HEX_ODD_LENGTH")
  hexPairs stripped

/-! ## Digits -/

theorem hexDigit_spec : ∀ n, n < 16 → isHexDigit (hexDigit n) = true ∧ hexValue (hexDigit n) = n := by
  decide

/-! ## Decimal numerals -/

/-- A natural number in decimal, without leading zeros. -/
def isDecimal (s : Str) : Bool := s ≠ [] && s.all isDigit && (s.head? ≠ some 48 || s.length = 1)

/-- The unit of a digit. -/
theorem toNat_digitUnit {d : ℕ} (hd : d < 10) : (UInt16.ofNat (48 + d)).toNat = 48 + d := by
  rw [UInt16.toNat_ofNat']
  omega

theorem isDigit_digitUnit {d : ℕ} (hd : d < 10) : isDigit (UInt16.ofNat (48 + d)) = true := by
  simp only [isDigit, toNat_digitUnit hd, Bool.and_eq_true, decide_eq_true_eq]
  omega

/-- A natural number is written without leading zeros. -/
theorem isDecimal_decimalNat (n : ℕ) : isDecimal (decimalNat n) = true := by
  unfold decimalNat
  split_ifs with hn
  · rfl
  · have hne : Nat.digits 10 n ≠ [] := Nat.digits_ne_nil_iff_ne_zero.mpr hn
    have hall : ((Nat.digits 10 n).map fun d => UInt16.ofNat (48 + d)).reverse.all isDigit = true := by
      rw [List.all_eq_true]
      intro u hu
      rw [List.mem_reverse, List.mem_map] at hu
      obtain ⟨d, hd, rfl⟩ := hu
      exact isDigit_digitUnit (Nat.digits_lt_base (by omega) hd)
    have hhead : ((Nat.digits 10 n).map fun d => UInt16.ofNat (48 + d)).reverse.head? ≠ some 48 := by
      rw [List.head?_reverse, List.getLast?_map, List.getLast?_eq_some_getLast hne]
      have hlast := Nat.getLast_digit_ne_zero 10 hn
      have hlt := Nat.digits_lt_base (b := 10) (by omega) (List.getLast_mem hne)
      rw [Option.map_some, ne_eq, Option.some.injEq, ← UInt16.toNat_inj, toNat_digitUnit hlt]
      simp
      exact hlast
    have hne' : ((Nat.digits 10 n).map fun d => UInt16.ofNat (48 + d)).reverse ≠ [] := by simpa using hne
    simp only [isDecimal, Bool.and_eq_true, Bool.or_eq_true, decide_eq_true_eq]
    exact ⟨⟨hne', hall⟩, .inl hhead⟩

/-- The value of the decimal of a natural number. -/
theorem digitsValue_decimalNat (n : ℕ) : digitsValue (decimalNat n) = n := by
  unfold decimalNat
  split_ifs with hn
  · subst hn
    rfl
  · rw [digitsValue, List.foldl_reverse, List.foldr_map]
    have hfold : ∀ l : List ℕ, (∀ d ∈ l, d < 10) →
        l.foldr (fun d m => 10 * m + ((UInt16.ofNat (48 + d)).toNat - 48)) 0 = Nat.ofDigits 10 l := by
      intro l hl
      induction l with
      | nil => rfl
      | cons d l ih =>
        rw [List.foldr_cons, ih fun e he => hl e (by simp [he]), toNat_digitUnit (hl d (by simp)),
          Nat.ofDigits_cons]
        omega
    rw [hfold _ fun d hd => Nat.digits_lt_base (by omega) hd, Nat.ofDigits_digits]

/-- The decimal of a numeral's value is the numeral. -/
theorem decimalNat_digitsValue {s : Str} (h : isDecimal s = true) : decimalNat (digitsValue s) = s := by
  simp only [isDecimal, Bool.and_eq_true, Bool.or_eq_true, decide_eq_true_eq] at h
  obtain ⟨⟨hne, hdigits⟩, hhead⟩ := h
  have hrange : ∀ u ∈ s, 48 ≤ u.toNat ∧ u.toNat ≤ 57 := by
    intro u hu
    simpa [isDigit] using List.all_eq_true.mp hdigits u hu
  -- the value is that of the digits, the last one first
  have hvalue : digitsValue s = Nat.ofDigits 10 (s.reverse.map fun u => u.toNat - 48) := by
    rw [digitsValue, Nat.ofDigits_eq_foldr, List.foldr_map, List.foldr_reverse]
    congr 1
    funext n u
    simp only [Nat.cast_id]
    omega
  by_cases hzero : s = [48]
  · subst hzero
    rfl
  · have hdigitsOf : Nat.digits 10 (digitsValue s) = s.reverse.map fun u => u.toNat - 48 := by
      rw [hvalue]
      refine Nat.digits_ofDigits 10 (by omega) _ (fun d hd => ?_) fun hnil => ?_
      · obtain ⟨u, hu, rfl⟩ := List.mem_map.mp hd
        have := hrange u (List.mem_reverse.mp hu)
        omega
      · obtain ⟨u, t, rfl⟩ := List.exists_cons_of_ne_nil hne
        have hu := hrange u List.mem_cons_self
        have hfirst : u ≠ 48 := by
          rintro rfl
          rcases hhead with hd | hd
          · exact hd rfl
          · obtain rfl : t = [] := by simpa using hd
            exact hzero rfl
        have hnat : u.toNat ≠ 48 := fun hnat => hfirst (UInt16.toNat_inj.mp hnat)
        simp only [List.reverse_cons, List.map_append, List.map_cons, List.map_nil,
          List.getLast_append_singleton]
        omega
    have hpos : digitsValue s ≠ 0 := by
      intro h0
      rw [h0, Nat.digits_zero] at hdigitsOf
      exact hne (by simpa using hdigitsOf.symm)
    rw [decimalNat, if_neg hpos, hdigitsOf, List.map_map, ← List.map_reverse, List.reverse_reverse]
    refine (List.map_congr_left fun u hu => ?_).trans (List.map_id s)
    have := hrange u hu
    refine UInt16.toNat_inj.mp ?_
    simp only [Function.comp_apply, UInt16.toNat_ofNat', id]
    omega

/-- The digits of a natural number. -/
theorem decimalNat_digits (n : ℕ) : decimalNat n ≠ [] ∧ ∀ u ∈ decimalNat n, isDigit u = true := by
  have h := isDecimal_decimalNat n
  simp only [isDecimal, Bool.and_eq_true, decide_eq_true_eq] at h
  exact ⟨by simpa using h.1.1, List.all_eq_true.mp h.1.2⟩

theorem dropWhile_trimmed {s : Str} (h : ∀ u, s.head? = some u → isTrimmed u = false) :
    s.dropWhile isTrimmed = s := by
  cases s with
  | nil => rfl
  | cons u s => exact List.dropWhile_cons_of_neg (by simp [h u rfl])

/-- Nothing is stripped from a string that neither begins nor ends with white space. -/
theorem trim_eq_self {s : Str} (hhead : ∀ u, s.head? = some u → isTrimmed u = false)
    (hlast : ∀ u, s.getLast? = some u → isTrimmed u = false) : trim s = s := by
  rw [trim, dropWhile_trimmed hhead, dropWhile_trimmed, List.reverse_reverse]
  intro u hu
  exact hlast u (by rwa [List.head?_reverse] at hu)

theorem not_isTrimmed_of_isDigit {u : UInt16} (h : isDigit u = true) : isTrimmed u = false := by
  have hr : 48 ≤ u.toNat ∧ u.toNat ≤ 57 := by simpa [isDigit] using h
  have hne : ∀ n : UInt16, n.toNat < 48 ∨ 57 < n.toNat → u ≠ n := by
    rintro n hn rfl
    omega
  have h0 : ¬0x2000 ≤ u.toNat := by omega
  simp [isTrimmed, hne, h0]

/-- The round trip. -/
theorem bigIntOfStr_decimal (n : ℤ) : bigIntOfStr (decimal n) = .ok n := by
  obtain ⟨hne, hall⟩ := decimalNat_digits n.natAbs
  have hv := digitsValue_decimalNat n.natAbs
  have hlast : ∀ u, (decimalNat n.natAbs).getLast? = some u → isTrimmed u = false :=
    fun u hu => not_isTrimmed_of_isDigit (hall u (List.mem_of_getLast? hu))
  unfold decimal
  split_ifs with hn
  · have htrim : trim (45 :: decimalNat n.natAbs) = 45 :: decimalNat n.natAbs := by
      refine trim_eq_self (fun u hu => ?_) fun u hu => ?_
      · cases hu
        rfl
      · rw [List.getLast?_cons_of_ne_nil hne] at hu
        exact hlast u hu
    have hradix : radixPrefix (45 :: decimalNat n.natAbs) = none := rfl
    simp only [bigIntOfStr, htrim, hradix, splitPlusMinus, hv]
    rw [if_neg (by simp), require, if_pos ⟨hne, List.all_eq_true.mpr hall⟩]
    simp only [ok_bind, if_true, pure_eq_ok]
    omega
  · generalize hd : decimalNat n.natAbs = d at *
    have htrim : trim d = d := trim_eq_self
      (fun u hu => not_isTrimmed_of_isDigit (hall u (List.mem_of_head? hu))) hlast
    have hradix : radixPrefix d = none := by
      unfold radixPrefix
      split
      · next c h =>
        -- the second unit of a numeral is a digit too
        have hc : isDigit c = true := hall c (by simp)
        rw [if_neg, if_neg, if_neg] <;>
          · intro h
            simp only [Bool.or_eq_true, decide_eq_true_eq] at h
            rcases h with rfl | rfl <;> cases hc
      · rfl
    have hsign : splitPlusMinus d = (false, d) := by
      unfold splitPlusMinus
      split
      · exact absurd (hall 45 (by simp)) (by decide)
      · exact absurd (hall 43 (by simp)) (by decide)
      · rfl
    simp only [bigIntOfStr, htrim, hradix, hsign, hv]
    rw [if_neg hne, require, if_pos ⟨hne, List.all_eq_true.mpr hall⟩]
    simp only [ok_bind, Bool.false_eq_true, if_false, pure_eq_ok]
    omega

/-! ## Hex strings -/

theorem hexPairs_toHex (bytes : List UInt8) : hexPairs (toHex bytes) = .ok bytes := by
  induction bytes with
  | nil => rfl
  | cons b bytes ih =>
    have hb := b.toNat_lt
    obtain ⟨h1, v1⟩ := hexDigit_spec (b.toNat / 16) (by omega)
    obtain ⟨h2, v2⟩ := hexDigit_spec (b.toNat % 16) (by omega)
    have hcons : toHex (b :: bytes) =
        hexDigit (b.toNat / 16) :: hexDigit (b.toNat % 16) :: toHex bytes := rfl
    have hval : b.toNat / 16 * 16 + b.toNat % 16 = b.toNat := by omega
    rw [hcons, hexPairs, ih, require, if_pos ⟨h1, h2⟩, v1, v2, hval]
    simp

theorem lowerHexDigit_spec : ∀ n : ℕ, n < 128 → isLowerHexDigit (UInt16.ofNat n) = true →
    hexValue (UInt16.ofNat n) < 16 ∧ hexDigit (hexValue (UInt16.ofNat n)) = UInt16.ofNat n := by
  decide

/-- Hex in lower case is written as it was read. -/
theorem toHex_of_hexPairs {s : Str} {bytes : List UInt8} (hlower : s.all isLowerHexDigit = true)
    (heven : s.length % 2 = 0) (h : hexPairs s = .ok bytes) : toHex bytes = s := by
  have hdigit : ∀ u : UInt16, isLowerHexDigit u = true → hexValue u < 16 ∧ hexDigit (hexValue u) = u := by
    intro u hu
    have hlt : u.toNat < 128 := by
      simp only [isLowerHexDigit, isDigit, Bool.or_eq_true, Bool.and_eq_true, decide_eq_true_eq] at hu
      omega
    have h := lowerHexDigit_spec u.toNat hlt
    rw [UInt16.ofNat_toNat] at h
    exact h hu
  induction s using hexPairs.induct generalizing bytes with
  | case1 a b s ih =>
    simp only [hexPairs, bind_eq_ok, require_eq_ok, pure_eq_ok] at h
    obtain ⟨-, -, rest, hrest, rfl⟩ := h
    simp only [List.all_cons, Bool.and_eq_true] at hlower
    obtain ⟨ha, hval⟩ := hdigit a hlower.1
    obtain ⟨hb, hval'⟩ := hdigit b hlower.2.1
    have hlength : s.length % 2 = 0 := by
      simp only [List.length_cons] at heven
      omega
    have hbyte : (UInt8.ofNat (hexValue a * 16 + hexValue b)).toNat = hexValue a * 16 + hexValue b := by
      rw [UInt8.toNat_ofNat']
      omega
    have hhigh : (hexValue a * 16 + hexValue b) / 16 = hexValue a := by omega
    have hlow : (hexValue a * 16 + hexValue b) % 16 = hexValue b := by omega
    have hcons : ∀ byte : UInt8, toHex (byte :: rest) =
        hexDigit (byte.toNat / 16) :: hexDigit (byte.toNat % 16) :: toHex rest := fun _ => rfl
    rw [hcons, hbyte, hhigh, hlow, hval, hval', ih hlower.2.2 hlength hrest]
  | case2 s hs =>
    rcases s with _ | ⟨a, _ | ⟨b, s⟩⟩
    · cases h
      rfl
    · simp at heven
    · exact absurd rfl (hs a b s)

/-- Hex digits in pairs are read. -/
theorem hexPairs_returns {s : Str} (hhex : s.all isHexDigit = true) (heven : s.length % 2 = 0) :
    ∃ bytes, hexPairs s = .ok bytes ∧ s.length = 2 * bytes.length := by
  induction s using hexPairs.induct with
  | case1 a b s ih =>
    simp only [List.all_cons, Bool.and_eq_true] at hhex
    simp only [List.length_cons] at heven
    obtain ⟨bytes, hbytes, hlength⟩ := ih hhex.2.2 (by omega)
    refine ⟨UInt8.ofNat (hexValue a * 16 + hexValue b) :: bytes, ?_, ?_⟩
    · rw [hexPairs, require, if_pos ⟨hhex.1, hhex.2.1⟩, ok_bind, hbytes]
      rfl
    · simp only [List.length_cons, hlength]
      omega
  | case2 s hs =>
    match s with
    | [] => exact ⟨[], rfl, rfl⟩
    | [a] => simp at heven
    | a :: b :: s => exact absurd rfl (hs a b s)

theorem length_toHex (bytes : List UInt8) : (toHex bytes).length = 2 * bytes.length := by
  induction bytes with
  | nil => rfl
  | cons b bytes ih =>
    have hcons : toHex (b :: bytes) =
        hexDigit (b.toNat / 16) :: hexDigit (b.toNat % 16) :: toHex bytes := rfl
    rw [hcons, List.length_cons, List.length_cons, ih, List.length_cons]
    omega

/-- The round trip. -/
theorem fromHex_toHex (bytes : List UInt8) : fromHex (toHex bytes) = .ok bytes := by
  have hstrip : stripHexPrefix (toHex bytes) = toHex bytes := by
    unfold stripHexPrefix
    split
    · next c h heq =>
      cases bytes with
      | nil => cases heq
      | cons b bytes =>
        -- the second digit is no `x`
        have hc : hexDigit (b.toNat % 16) = c := by
          injection heq with _ heq
          injection heq
        have hx : ∀ n, n < 16 → ¬(hexDigit n = 0x78 ∨ hexDigit n = 0x58) := by decide
        rw [if_neg, heq]
        simpa [← hc] using hx (b.toNat % 16) (by omega)
    · rfl
  rw [fromHex, hstrip, length_toHex, require, if_pos (by omega), hexPairs_toHex]
  rfl

theorem isHexDigit_of_lower {u : UInt16} (h : isLowerHexDigit u = true) : isHexDigit u = true := by
  unfold isHexDigit
  unfold isLowerHexDigit at h
  rw [h, Bool.true_or]

/-- Hex in lower case has no prefix that is stripped. -/
theorem stripHexPrefix_lower {hex : Str} (h : hex.all isLowerHexDigit = true) : stripHexPrefix hex = hex := by
  unfold stripHexPrefix
  split
  · next c r =>
    have hc : isLowerHexDigit c = true := List.all_eq_true.mp h c (by simp)
    rw [if_neg]
    intro hx
    simp only [Bool.or_eq_true, decide_eq_true_eq] at hx
    rcases hx with rfl | rfl <;> cases hc
  · rfl

/-- Hex in lower case is read, and written as it was. -/
theorem fromHex_lower {hex : Str} (hall : hex.all isLowerHexDigit = true) (heven : hex.length % 2 = 0) :
    ∃ bytes, fromHex hex = .ok bytes ∧ hex.length = 2 * bytes.length ∧ toHex bytes = hex := by
  have hhex : hex.all isHexDigit = true := by
    rw [List.all_eq_true] at hall ⊢
    exact fun u hu => isHexDigit_of_lower (hall u hu)
  obtain ⟨bytes, hread, hsize⟩ := hexPairs_returns hhex heven
  refine ⟨bytes, ?_, hsize, toHex_of_hexPairs hall heven hread⟩
  rw [fromHex, stripHexPrefix_lower hall, require, if_pos heven, ok_bind, hread]

end ParadigmTerra
