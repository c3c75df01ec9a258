import Mathlib
import ParadigmTerra.Canonical.Numerals

/-!
# Addresses

`parseAddress` reads a raw address, a workchain and a hash, and `formatAddress` writes one. The pattern of
`parseAddress` lets a workchain begin with zeros, and lets zero have a sign.

`parseAddress_eq_ok` says what is read, and `isCanonicalAddress_iff` that the predicate is the same test.
Every address that can be written is read back, and `one_spelling_iff` says which of the strings that are
read are the only spelling of their address: those whose workchain is written as a number is.
-/

namespace ParadigmTerra

open Text Fallible

structure ParsedAddress where
  workchain : ℤ
  hash : List UInt8
  deriving DecidableEq

/-- The number of a sign and digits. -/
def signed (neg : Bool) (digits : Str) : ℤ := if neg then -(digitsValue digits : ℤ) else digitsValue digits

/-- `/^(-?\d{1,4}):([0-9a-f]{64})$/`: the sign and the digits of the workchain, and the hash. -/
def matchRaw (addr : Str) : Option ((Bool × Str) × Str) :=
  let (neg, r) := splitSign addr
  let digits := r.takeWhile isDigit
  match r.dropWhile isDigit with
  | 58 :: hex =>
    if digits ≠ [] ∧ digits.length ≤ 4 ∧ hex.all isLowerHexDigit = true ∧ hex.length = 64 then
      some ((neg, digits), hex)
    else none
  | _ => none

def parseAddress (addr : Str) : Except Throw ParsedAddress :=
  match matchRaw addr with
  | none => throw (.canonicalEncoding "ADDRESS_NONCANONICAL")
  | some ((neg, digits), hex) => do
    let workchain := signed neg digits
    require (-128 ≤ workchain ∧ workchain ≤ 127) (.canonicalEncoding "ADDRESS_WORKCHAIN_RANGE")
    let hash ← fromHex hex
    pure ⟨workchain, hash⟩

def formatAddress (parsed : ParsedAddress) : Except Throw Str := do
  require (parsed.hash.length = 32) (.canonicalEncoding "ADDRESS_BAD_HASH")
  pure (decimal parsed.workchain ++ 58 :: toHex parsed.hash)

/-- The workchain as one byte, and the 32 bytes of the hash; a longer hash does not fit. -/
def ParsedAddress.toBytes (parsed : ParsedAddress) : Except Throw (List UInt8) := do
  require (parsed.hash.length ≤ 32) .rangeError
  let first := if parsed.workchain < 0 then parsed.workchain + 256 else parsed.workchain
  pure (UInt8.ofNat (first % 256).toNat :: parsed.hash ++ List.replicate (32 - parsed.hash.length) 0)

/-- The bytes of an address that is given as a string. -/
def addressToBytes (addr : Str) : Except Throw (List UInt8) := do
  let parsed ← parseAddress addr
  parsed.toBytes

/-! ## What is read -/

/-- The string is the sign, the digits and the hash of a raw address. -/
structure Spells (neg : Bool) (digits hex addr : Str) : Prop where
  split : splitSign addr = (neg, digits ++ 58 :: hex)
  digits_ne : digits ≠ []
  digits_all : ∀ u ∈ digits, isDigit u = true
  digits_le : digits.length ≤ 4
  hex_all : hex.all isLowerHexDigit = true
  hex_length : hex.length = 64

theorem dropWhile_digits {digits hex : Str} (h : ∀ u ∈ digits, isDigit u = true) :
    (digits ++ 58 :: hex).takeWhile isDigit = digits ∧ (digits ++ 58 :: hex).dropWhile isDigit = 58 :: hex := by
  have hcolon : isDigit 58 = false := by decide
  constructor
  · rw [List.takeWhile_append_of_pos h]
    simp [hcolon]
  · rw [List.dropWhile_append_of_pos h]
    simp [hcolon]

theorem matchRaw_eq_some {addr digits hex : Str} {neg : Bool} :
    matchRaw addr = some ((neg, digits), hex) ↔ Spells neg digits hex addr := by
  constructor
  · intro h
    unfold matchRaw at h
    generalize hsplit : splitSign addr = p at h
    obtain ⟨neg', r⟩ := p
    simp only at h
    split at h
    · next hex' hrest =>
      split_ifs at h with hcond
      simp only [Option.some.injEq, Prod.mk.injEq] at h
      obtain ⟨⟨rfl, rfl⟩, rfl⟩ := h
      refine ⟨?_, hcond.1, fun u hu => List.mem_takeWhile_imp hu, hcond.2.1, hcond.2.2.1, hcond.2.2.2⟩
      rw [hsplit, ← hrest, List.takeWhile_append_dropWhile]
    · cases h
  · intro h
    obtain ⟨htake, hdrop⟩ := @dropWhile_digits _ hex h.digits_all
    unfold matchRaw
    simp only [h.split, htake, hdrop]
    rw [if_pos ⟨h.digits_ne, h.digits_le, h.hex_all, h.hex_length⟩]

/-- What is read as an address. -/
theorem parseAddress_eq_ok {addr : Str} {p : ParsedAddress} : parseAddress addr = .ok p ↔
    ∃ neg digits, Spells neg digits (toHex p.hash) addr ∧ p.workchain = signed neg digits ∧
      p.hash.length = 32 ∧ -128 ≤ p.workchain ∧ p.workchain ≤ 127 := by
  constructor
  · intro h
    unfold parseAddress at h
    split at h
    · cases h
    · next neg digits hex hmatch =>
      have hspells := matchRaw_eq_some.mp hmatch
      simp only [bind_eq_ok, require_eq_ok, pure_eq_ok] at h
      obtain ⟨-, hrange, hash, hhash, rfl⟩ := h
      have hlength := hspells.hex_length
      obtain ⟨hash', hread, hsize, hwrite⟩ := fromHex_lower hspells.hex_all (by omega)
      obtain rfl := Except.ok.inj (hread.symm.trans hhash)
      have hbytes : hash'.length = 32 := by omega
      exact ⟨neg, digits, hwrite.symm ▸ hspells, rfl, hbytes, hrange⟩
  · rintro ⟨neg, digits, hspells, hworkchain, hlength, hrange⟩
    unfold parseAddress
    rw [matchRaw_eq_some.mpr hspells]
    simp only
    rw [← hworkchain, require, if_pos hrange, ok_bind, fromHex_toHex]
    rfl

/-- `isCanonicalAddress` accepts what `parseAddress` reads. -/
theorem isCanonicalAddress_iff {addr : Str} :
    isCanonicalAddress addr = true ↔ ∃ p, parseAddress addr = .ok p := by
  constructor
  · intro h
    simp only [isCanonicalAddress, isAddressShape, Bool.and_eq_true, decide_eq_true_eq] at h
    obtain ⟨⟨⟨hne, hshape⟩, hle⟩, hrange⟩ := h
    split at hshape
    · next hex hdrop =>
      simp only [Bool.and_eq_true, beq_iff_eq] at hshape
      have heven : hex.length % 2 = 0 := by
        rw [hshape.2]
      obtain ⟨hash, -, hsize, hwrite⟩ := fromHex_lower hshape.1 heven
      have hlength : hash.length = 32 := by
        have hhex := hshape.2
        omega
      have hsplit : splitSign addr =
          ((splitSign addr).1, (splitSign addr).2.takeWhile isDigit ++ 58 :: toHex hash) := by
        rw [hwrite, ← hdrop, List.takeWhile_append_dropWhile]
      refine ⟨⟨signed (splitSign addr).1 ((splitSign addr).2.takeWhile isDigit), hash⟩,
        parseAddress_eq_ok.mpr ⟨_, _, ⟨hsplit, hne, fun u hu => List.mem_takeWhile_imp hu, hle,
          hwrite.symm ▸ hshape.1, hwrite.symm ▸ hshape.2⟩, rfl, hlength, ?_⟩⟩
      generalize (splitSign addr).1 = neg at hrange ⊢
      cases neg
      · simp only [Bool.false_eq_true, if_false, decide_eq_true_eq, signed] at hrange ⊢
        omega
      · simp only [if_true, decide_eq_true_eq, signed] at hrange ⊢
        omega
    · cases hshape
  · rintro ⟨p, hp⟩
    obtain ⟨neg, digits, hspells, hworkchain, -, hlow, hhigh⟩ := parseAddress_eq_ok.mp hp
    obtain ⟨htake, hdrop⟩ := @dropWhile_digits _ (toHex p.hash) hspells.digits_all
    simp only [isCanonicalAddress, isAddressShape, hspells.split, htake, hdrop, hspells.hex_all,
      hspells.hex_length, hspells.digits_ne, hspells.digits_le, ne_eq, not_false_eq_true, decide_true,
      beq_self_eq_true, Bool.and_self, Bool.true_and]
    rw [hworkchain] at hlow hhigh
    unfold signed at hlow hhigh
    cases neg
    · simp only [Bool.false_eq_true, if_false, decide_eq_true_eq] at hhigh ⊢
      omega
    · simp only [if_true, decide_eq_true_eq] at hlow ⊢
      omega

/-! ## Spellings -/

/-- The workchain is written as a number is: without a zero in front, and zero without a sign. -/
def WellSpelled (addr : Str) : Prop :=
  let digits := (splitSign addr).2.takeWhile isDigit
  isDecimal digits = true ∧ ¬((splitSign addr).1 = true ∧ digits = [48])

instance (addr : Str) : Decidable (WellSpelled addr) := by unfold WellSpelled; infer_instance

theorem splitSign_append (neg : Bool) {digits : Str} (hne : digits ≠ [])
    (hall : ∀ u ∈ digits, isDigit u = true) (r : Str) :
    splitSign ((if neg then [45] else []) ++ digits ++ r) = (neg, digits ++ r) := by
  cases neg with
  | true => rfl
  | false =>
    obtain ⟨u, t, rfl⟩ := List.exists_cons_of_ne_nil hne
    have hu : u ≠ 45 := by
      rintro rfl
      exact absurd (hall 45 (by simp)) (by decide)
    unfold splitSign
    split
    · next s heq => exact absurd (List.cons.inj heq).1 hu
    · rfl

/-- A string is its sign and what follows it. -/
theorem eq_of_splitSign {s r : Str} {neg : Bool} (h : splitSign s = (neg, r)) :
    s = (if neg then [45] else []) ++ r := by
  unfold splitSign at h
  split at h <;>
    · obtain ⟨rfl, rfl⟩ := Prod.mk.inj h
      rfl

/-- A number is written with its sign and the decimal of its amount. -/
theorem decimal_signed {neg : Bool} {digits : Str} (hdecimal : isDecimal digits = true)
    (hzero : ¬(neg = true ∧ digits = [48])) :
    decimal (signed neg digits) = (if neg then [45] else []) ++ digits := by
  have hback := decimalNat_digitsValue hdecimal
  unfold signed
  cases neg with
  | false =>
    simp only [Bool.false_eq_true, if_false, List.nil_append]
    rw [decimal, if_neg (by omega), Int.natAbs_natCast, hback]
  | true =>
    have hpos : digitsValue digits ≠ 0 := by
      intro h0
      rw [h0] at hback
      exact hzero ⟨rfl, hback.symm⟩
    simp only [if_true]
    rw [decimal, if_pos (by omega), Int.natAbs_neg, Int.natAbs_natCast, hback]
    rfl

/-- A number as it is written. -/
theorem decimal_eq (n : ℤ) :
    decimal n = (if decide (n < 0) then [45] else []) ++ decimalNat n.natAbs := by
  unfold decimal
  split_ifs with hn h h
  · rfl
  · exact absurd (decide_eq_true hn) h
  · exact absurd (of_decide_eq_true h) hn
  · rfl

theorem signed_decimal (n : ℤ) : signed (decide (n < 0)) (decimalNat n.natAbs) = n := by
  rw [signed, digitsValue_decimalNat]
  split_ifs with hn
  · have := of_decide_eq_true hn
    omega
  · have : ¬n < 0 := fun h => hn (decide_eq_true h)
    omega

theorem not_minus_zero (n : ℤ) : ¬(decide (n < 0) = true ∧ decimalNat n.natAbs = [48]) := by
  rintro ⟨hn, hzero⟩
  have hvalue := digitsValue_decimalNat n.natAbs
  rw [hzero] at hvalue
  have hnat : (0 : ℕ) = n.natAbs := hvalue
  have hneg := of_decide_eq_true hn
  omega

/-- A number below a power of ten has as many digits as the power has zeros. -/
theorem length_decimalNat_le {n k : ℕ} (hn : n < 10 ^ k) (hk : 0 < k) : (decimalNat n).length ≤ k := by
  unfold decimalNat
  split_ifs
  · exact hk
  · rw [List.length_reverse, List.length_map]
    exact (Nat.digits_length_le_iff (by omega) n).mpr hn

/-- The spelling of an address is its own if it is well spelled. -/
theorem formatAddress_parse_iff {addr : Str} {p : ParsedAddress} (h : parseAddress addr = .ok p) :
    formatAddress p = .ok addr ↔ WellSpelled addr := by
  obtain ⟨neg, digits, hspells, hworkchain, hlength, -⟩ := parseAddress_eq_ok.mp h
  obtain ⟨htake, -⟩ := @dropWhile_digits _ (toHex p.hash) hspells.digits_all
  have haddr := eq_of_splitSign hspells.split
  simp only [formatAddress, bind_eq_ok, require_eq_ok, pure_eq_ok, WellSpelled, hspells.split, htake]
  constructor
  · rintro ⟨-, -, hformat⟩
    -- a number is written with the digits of the string
    have hdigits := decimalNat_digits p.workchain.natAbs
    have hsplit := splitSign_append (decide (p.workchain < 0)) hdigits.1 hdigits.2 (58 :: toHex p.hash)
    rw [← decimal_eq, hformat, hspells.split] at hsplit
    obtain ⟨hneg, hrest⟩ := Prod.mk.inj hsplit
    rw [hneg, List.append_cancel_right hrest]
    exact ⟨isDecimal_decimalNat _, not_minus_zero _⟩
  · rintro ⟨hdecimal, hzero⟩
    refine ⟨(), hlength, ?_⟩
    rw [hworkchain, decimal_signed hdecimal hzero, haddr, List.append_assoc]

theorem toHex_lower (bytes : List UInt8) : (toHex bytes).all isLowerHexDigit = true := by
  have hdigit : ∀ n, n < 16 → isLowerHexDigit (hexDigit n) = true := by decide
  rw [List.all_eq_true]
  intro u hu
  obtain ⟨b, -, hu⟩ := List.mem_flatMap.mp hu
  have hb := b.toNat_lt
  rcases List.mem_pair.mp hu with rfl | rfl
  · exact hdigit _ (by omega)
  · exact hdigit _ (by omega)

/-- Every address of an int8 workchain is written, and read back. -/
theorem parseAddress_format {p : ParsedAddress} (hlength : p.hash.length = 32)
    (hrange : -128 ≤ p.workchain ∧ p.workchain ≤ 127) :
    ∃ addr, formatAddress p = .ok addr ∧ parseAddress addr = .ok p := by
  have hdigits := decimalNat_digits p.workchain.natAbs
  have hformat : formatAddress p = .ok (decimal p.workchain ++ 58 :: toHex p.hash) := by
    rw [formatAddress, require, if_pos hlength]
    rfl
  refine ⟨_, hformat, parseAddress_eq_ok.mpr
    ⟨decide (p.workchain < 0), decimalNat p.workchain.natAbs, ?_, (signed_decimal _).symm, hlength, hrange⟩⟩
  constructor
  · rw [decimal_eq]
    exact splitSign_append _ hdigits.1 hdigits.2 _
  · exact hdigits.1
  · exact hdigits.2
  · refine length_decimalNat_le ?_ (by omega)
    omega
  · exact toHex_lower _
  · rw [length_toHex, hlength]

/-- The bytes of an address: its workchain in two's complement, and its hash. -/
theorem addressToBytes_eq {addr : Str} {p : ParsedAddress} (h : parseAddress addr = .ok p) :
    addressToBytes addr = .ok (UInt8.ofNat (p.workchain % 256).toNat :: p.hash) := by
  obtain ⟨-, -, -, -, hlength, hlow, hhigh⟩ := parseAddress_eq_ok.mp h
  have hfirst : (if p.workchain < 0 then p.workchain + 256 else p.workchain) % 256 = p.workchain % 256 := by
    split_ifs <;> omega
  rw [addressToBytes, h, ok_bind, ParsedAddress.toBytes, require, if_pos hlength.le, ok_bind]
  simp only [hfirst, hlength, Nat.sub_self, List.replicate_zero, List.append_nil]
  rfl

/-- Addresses with the same bytes are the same. -/
theorem parsed_eq_of_bytes {a b : Str} {p q : ParsedAddress} (hp : parseAddress a = .ok p)
    (hq : parseAddress b = .ok q) (h : addressToBytes a = addressToBytes b) : p = q := by
  rw [addressToBytes_eq hp, addressToBytes_eq hq, Except.ok.injEq, List.cons.injEq] at h
  obtain ⟨-, -, -, -, -, hlow, hhigh⟩ := parseAddress_eq_ok.mp hp
  obtain ⟨-, -, -, -, -, hlow', hhigh'⟩ := parseAddress_eq_ok.mp hq
  have hbyte := congrArg UInt8.toNat h.1
  rw [UInt8.toNat_ofNat', UInt8.toNat_ofNat'] at hbyte
  obtain ⟨workchain, hash⟩ := p
  obtain ⟨workchain', hash'⟩ := q
  simp only at hlow hhigh hlow' hhigh' hbyte h
  rw [ParsedAddress.mk.injEq]
  exact ⟨by omega, h.2⟩

/-- Two strings that are read as addresses are written as they are, and have different bytes unless they
are one, exactly if both are well spelled. Every address of an int8 workchain is written and read back. -/
theorem one_spelling_iff {a b : Str} {p q : ParsedAddress} (hp : parseAddress a = .ok p)
    (hq : parseAddress b = .ok q) :
    ((formatAddress p = .ok a ∧ formatAddress q = .ok b ∧
        (addressToBytes a = addressToBytes b → a = b)) ↔ WellSpelled a ∧ WellSpelled b) ∧
      ∀ r : ParsedAddress, r.hash.length = 32 → -128 ≤ r.workchain ∧ r.workchain ≤ 127 →
        ∃ addr, formatAddress r = .ok addr ∧ parseAddress addr = .ok r := by
  refine ⟨?_, fun r hlength hrange => parseAddress_format hlength hrange⟩
  rw [formatAddress_parse_iff hp, formatAddress_parse_iff hq]
  constructor
  · exact fun ⟨ha, hb, _⟩ => ⟨ha, hb⟩
  · rintro ⟨ha, hb⟩
    refine ⟨ha, hb, fun hbytes => ?_⟩
    -- both strings are what is written of one address
    obtain rfl := parsed_eq_of_bytes hp hq hbytes
    have hwrite := (formatAddress_parse_iff hp).mpr ha
    rw [(formatAddress_parse_iff hq).mpr hb] at hwrite
    exact (Except.ok.inj hwrite).symm

/-- An address with the workchain as it is written here. -/
def zeroHash (workchain : String) : Str := js workchain ++ 58 :: List.replicate 64 48

theorem one_spelling_iff_zero : WellSpelled (zeroHash "0") ∧ WellSpelled (zeroHash "-1") := by
  have hzero : parseAddress (zeroHash "0") = .ok ⟨0, List.replicate 32 0⟩ := by decide +kernel
  have hminus : parseAddress (zeroHash "-1") = .ok ⟨-1, List.replicate 32 0⟩ := by decide +kernel
  exact (one_spelling_iff hzero hminus).1.mp ⟨by decide +kernel, by decide +kernel, fun h => by
    revert h
    decide +kernel⟩

/-- Zero is written with a second digit, or with a sign: the address is the same. -/
theorem zero_spelled_twice :
    (isCanonicalAddress (zeroHash "00") = true ∧
      addressToBytes (zeroHash "00") = addressToBytes (zeroHash "0") ∧
      zeroHash "00" ≠ zeroHash "0" ∧
      (parseAddress (zeroHash "00") >>= formatAddress) = .ok (zeroHash "0")) ∧
    isCanonicalAddress (zeroHash "-0") = true ∧
      addressToBytes (zeroHash "-0") = addressToBytes (zeroHash "0") ∧
      zeroHash "-0" ≠ zeroHash "0" ∧
      (parseAddress (zeroHash "-0") >>= formatAddress) = .ok (zeroHash "0") := by
  decide +kernel

end ParadigmTerra
