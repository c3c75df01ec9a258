import Mathlib

/-!
# SHA-256 on bits

The hash function as its standard defines it: a message is a list of bits, words are 32-bit strings under
addition modulo `2 ^ 32`, and the constants are the first 32 bits of the fractional parts of roots of primes.

The lemmas are about the passage from bytes to bits, most significant bit first: lengths
(`length_bits`), parts (`bits_take`, `bits_drop`), and the numbers that bits are the digits of
(`bitsValue_bits`). `zeroBits_isLeast` is the standard's wording of the padding.
-/

namespace Sha256

/-- A word of 32 bits. -/
abbrev Word := BitVec 32

/-- A string of bits. -/
abbrev Bits := List Bool

/-! ## Functions -/

/-- The circular right shift. -/
def rotr (n : ℕ) (x : Word) : Word := (x >>> n) ||| (x <<< (32 - n))

def ch (x y z : Word) : Word := (x &&& y) ^^^ (~~~x &&& z)

def maj (x y z : Word) : Word := (x &&& y) ^^^ (x &&& z) ^^^ (y &&& z)

def bigSigma0 (x : Word) : Word := rotr 2 x ^^^ rotr 13 x ^^^ rotr 22 x

def bigSigma1 (x : Word) : Word := rotr 6 x ^^^ rotr 11 x ^^^ rotr 25 x

def smallSigma0 (x : Word) : Word := rotr 7 x ^^^ rotr 18 x ^^^ (x >>> 3)

def smallSigma1 (x : Word) : Word := rotr 17 x ^^^ rotr 19 x ^^^ (x >>> 10)

/-! ## Constants -/

/-- The first sixty-four primes. -/
def primes : List ℕ := (List.range 312).filter Nat.Prime

/-- The first 32 bits of the fractional part of the `k`th root of a number. -/
def rootWord (k n : ℕ) : Word := BitVec.ofNat 32 (Nat.nthRoot k (n * 2 ^ (32 * k)))

/-- The round constants, from cube roots. -/
def roundConstant (t : ℕ) : Word := rootWord 3 (primes.getD t 0)

/-- The working variables, and the words of a hash value. -/
structure Working where
  (a b c d e f g h : Word)
  deriving DecidableEq

/-- The initial hash value, from square roots. -/
def initial : Working :=
  let root i := rootWord 2 (primes.getD i 0)
  ⟨root 0, root 1, root 2, root 3, root 4, root 5, root 6, root 7⟩

/-! ## Preprocessing -/

/-- How many zero bits the padding of `l` bits has. -/
def zeroBits (l : ℕ) : ℕ := (959 - l % 512) % 512

/-- A number in 64 bits. -/
def lengthBits (n : ℕ) : Bits := (List.range 64).reverse.map n.testBit

/-- The padded message. -/
def pad (m : Bits) : Bits :=
  m ++ [true] ++ List.replicate (zeroBits m.length) false ++ lengthBits m.length

/-- The number with given binary digits. -/
def bitsValue (b : Bits) : ℕ := b.foldl (fun n x => 2 * n + x.toNat) 0

/-- The `j`th word of the `i`th block of a padded message. -/
def blockWord (m : Bits) (i j : ℕ) : Word :=
  BitVec.ofNat 32 (bitsValue ((m.drop (512 * i + 32 * j)).take 32))

/-! ## Hash computation -/

/-- The message schedule of a block. -/
def schedule (block : ℕ → Word) (t : ℕ) : Word :=
  if t < 16 then block t
  else smallSigma1 (schedule block (t - 2)) + schedule block (t - 7) +
    smallSigma0 (schedule block (t - 15)) + schedule block (t - 16)

/-- One round. -/
def round (w : ℕ → Word) (s : Working) (t : ℕ) : Working :=
  let t1 := s.h + bigSigma1 s.e + ch s.e s.f s.g + roundConstant t + w t
  let t2 := bigSigma0 s.a + maj s.a s.b s.c
  ⟨t1 + t2, s.a, s.b, s.c, s.d + t1, s.e, s.f, s.g⟩

/-- The hash value after a block. -/
def compress (s : Working) (block : ℕ → Word) : Working :=
  let t := (List.range 64).foldl (round (schedule block)) s
  ⟨t.a + s.a, t.b + s.b, t.c + s.c, t.d + s.d, t.e + s.e, t.f + s.f, t.g + s.g, t.h + s.h⟩

/-- The hash value after all blocks of a padded message. -/
def hashValue (m : Bits) : Working :=
  (List.range (m.length / 512)).foldl (fun s i => compress s (blockWord m i)) initial

/-- The bits of a word. -/
def wordBits (w : Word) : Bits := (List.range 32).reverse.map w.toNat.testBit

/-- The words of a hash value, one after the other. -/
def Working.words (s : Working) : List Word := [s.a, s.b, s.c, s.d, s.e, s.f, s.g, s.h]

/-- The digest of a message. -/
def digest (m : Bits) : Bits := (hashValue (pad m)).words.flatMap wordBits

/-! ## Roots -/

/-- A root is known from its two neighbours. -/
theorem rootWord_eq {k n r : ℕ} (hlow : r ^ k ≤ n * 2 ^ (32 * k)) (hhigh : n * 2 ^ (32 * k) < (r + 1) ^ k) :
    rootWord k n = BitVec.ofNat 32 r := by
  rw [rootWord, Nat.nthRoot_eq_of_le_of_lt hlow hhigh]

/-! ## Padding -/

/-- The number of zero bits is the smallest solution of the standard's equation. -/
theorem zeroBits_isLeast (l : ℕ) : IsLeast {k | (l + 1 + k) % 512 = 448} (zeroBits l) := by
  constructor
  · change (l + 1 + (959 - l % 512) % 512) % 512 = 448
    omega
  · intro k hk
    change (l + 1 + k) % 512 = 448 at hk
    unfold zeroBits
    omega

/-! ## Schedules -/

theorem schedule_of_lt (block : ℕ → Word) {t : ℕ} (h : t < 16) : schedule block t = block t := by
  rw [schedule, if_pos h]

theorem schedule_of_le (block : ℕ → Word) {t : ℕ} (h : 16 ≤ t) :
    schedule block t = smallSigma1 (schedule block (t - 2)) + schedule block (t - 7) +
      smallSigma0 (schedule block (t - 15)) + schedule block (t - 16) := by
  rw [schedule, if_neg (by omega)]

/-! ## Bytes -/

/-- The bits of bytes, most significant first. -/
def bits (bytes : List UInt8) : Bits :=
  bytes.flatMap fun b => (List.range 8).reverse.map b.toNat.testBit

theorem bits_append (l r : List UInt8) : bits (l ++ r) = bits l ++ bits r := List.flatMap_append

theorem bits_cons (b : UInt8) (l : List UInt8) :
    bits (b :: l) = (List.range 8).reverse.map b.toNat.testBit ++ bits l := List.flatMap_cons

theorem length_bits (l : List UInt8) : (bits l).length = 8 * l.length := by
  induction l with
  | nil => rfl
  | cons b l ih =>
    rw [bits_cons, List.length_append, ih, List.length_map, List.length_reverse, List.length_range,
      List.length_cons]
    omega

theorem bits_replicate (n : ℕ) : bits (List.replicate n 0) = List.replicate (8 * n) false := by
  induction n with
  | zero => rfl
  | succ n ih =>
    rw [List.replicate_succ, bits_cons, ih, show 8 * (n + 1) = 8 + 8 * n by omega,
      ← List.replicate_append_replicate]
    rfl

theorem bits_drop (n : ℕ) (l : List UInt8) : (bits l).drop (8 * n) = bits (l.drop n) := by
  by_cases h : n ≤ l.length
  · have hlength : (bits (l.take n)).length = 8 * n := by
      rw [length_bits, List.length_take, Nat.min_eq_left h]
    calc (bits l).drop (8 * n) = (bits (l.take n) ++ bits (l.drop n)).drop (8 * n) := by
          rw [← bits_append, List.take_append_drop]
      _ = bits (l.drop n) := by rw [← hlength, List.drop_left]
  · have hlength := length_bits l
    rw [List.drop_eq_nil_of_le (by omega), List.drop_eq_nil_of_le (by omega)]
    rfl

theorem bits_take (n : ℕ) (l : List UInt8) : (bits l).take (8 * n) = bits (l.take n) := by
  by_cases h : n ≤ l.length
  · have hlength : (bits (l.take n)).length = 8 * n := by
      rw [length_bits, List.length_take, Nat.min_eq_left h]
    calc (bits l).take (8 * n) = (bits (l.take n) ++ bits (l.drop n)).take (8 * n) := by
          rw [← bits_append, List.take_append_drop]
      _ = bits (l.take n) := by rw [← hlength, List.take_left]
  · have hlength := length_bits l
    rw [List.take_of_length_le (by omega), List.take_of_length_le (by omega)]

/-! ## Numbers -/

theorem bitsValue_append (l r : Bits) :
    bitsValue (l ++ r) = bitsValue l * 2 ^ r.length + bitsValue r := by
  have hfold : ∀ (r : Bits) (n : ℕ), r.foldl (fun n x => 2 * n + x.toNat) n =
      n * 2 ^ r.length + bitsValue r := by
    intro r
    induction r with
    | nil =>
      intro n
      simp [bitsValue]
    | cons x r ih =>
      intro n
      rw [bitsValue, List.foldl_cons, List.foldl_cons, ih, ih (2 * 0 + x.toNat), List.length_cons, pow_succ]
      ring
  rw [bitsValue, List.foldl_append, hfold]
  rfl

theorem bitsValue_byte (b : UInt8) : bitsValue ((List.range 8).reverse.map b.toNat.testBit) = b.toNat := by
  have hall : ∀ n < 256, bitsValue ((List.range 8).reverse.map n.testBit) = n := by decide +kernel
  exact hall _ b.toNat_lt

/-- The bits of four bytes. -/
theorem bitsValue_bits (a b c d : UInt8) : bitsValue (bits [a, b, c, d]) =
    a.toNat * 2 ^ 24 + b.toNat * 2 ^ 16 + c.toNat * 2 ^ 8 + d.toNat := by
  have hlength : ∀ n : ℕ, ((List.range 8).reverse.map n.testBit).length = 8 := fun n => by simp
  simp only [bits, List.flatMap_cons, List.flatMap_nil, List.append_nil, bitsValue_append, bitsValue_byte,
    List.length_append, hlength]
  ring

/-- The digits of a number, eight by eight. -/
theorem bits_digits (len n : ℕ) : bits ((List.range len).reverse.map fun i => UInt8.ofNat (n / 256 ^ i % 256)) =
    (List.range (8 * len)).reverse.map n.testBit := by
  have hbyte : ∀ i j, j < 8 → (UInt8.ofNat (n / 256 ^ i % 256)).toNat.testBit j = n.testBit (8 * i + j) := by
    intro i j hj
    rw [UInt8.toNat_ofNat', Nat.mod_mod, show (256 : ℕ) = 2 ^ 8 from rfl, Nat.testBit_mod_two_pow,
      ← pow_mul, Nat.testBit_div_two_pow, decide_eq_true hj, Bool.true_and, Nat.add_comm]
  induction len with
  | zero => rfl
  | succ len ih =>
    rw [List.range_succ, List.reverse_append, List.reverse_singleton, List.singleton_append, List.map_cons,
      bits_cons, ih, show 8 * (len + 1) = 8 * len + 8 by omega, List.range_add, List.reverse_append,
      List.map_append, List.append_cancel_right_eq, ← List.map_reverse, List.map_map]
    refine List.map_congr_left fun j hj => ?_
    exact hbyte len j (by simpa using hj)

end Sha256
