import ParadigmTerra.Canonical.Numerals
import ParadigmTerra.Canonical.Trees
import ParadigmTerra.Lib.BigEndian

/-!
# Frames and fixed-width integers

The binary primitives under every hash: a frame around a payload, integers of 1, 2, 8 and 32 bytes, and hex.
The language computes bit by bit on integers of 32 bits with sign; `shl`, `ushr`, `bitAnd` and `bitOr` are its
operators on integral numbers. A frame's tag and version are integers; a number that is none is refused
like one out of range.

`primitives_bijective` says that encoders and decoders are inverse, that a decoder accepts exactly what its encoder
produces, and that the encodings of unsigned integers are in the order of the integers. The decoders and the
encoders come down to `BigEndian.value` and `BigEndian.encode` (`encodeUnsignedBe_eq`, `decodeUnsignedBe_eq`), and
so does `bytesBe`, in which the preimages of the hashes are stated (`bytesBe_eq`).
-/

namespace ParadigmTerra

open Text Fallible

/-! ## Operators on 32 bits -/

/-- `n << k` -/
def shl (n : ℤ) (k : ℕ) : ℤ := (BitVec.ofInt 32 n <<< k).toInt

/-- `n >>> k` -/
def ushr (n : ℤ) (k : ℕ) : ℤ := (BitVec.ofInt 32 n >>> k).toNat

/-- `n & m` -/
def bitAnd (n m : ℤ) : ℤ := (BitVec.ofInt 32 n &&& BitVec.ofInt 32 m).toInt

/-- `n | m` -/
def bitOr (n m : ℤ) : ℤ := (BitVec.ofInt 32 n ||| BitVec.ofInt 32 m).toInt

/-! ## Integers -/

def MAX_UINT8 : ℤ := 2 ^ 8 - 1
def MAX_UINT16 : ℤ := 2 ^ 16 - 1
def MAX_UINT64 : ℤ := 2 ^ 64 - 1
def MAX_UINT256 : ℤ := 2 ^ 256 - 1
def MIN_INT256 : ℤ := -2 ^ 255
def MAX_INT256 : ℤ := 2 ^ 255 - 1
def TWO_256 : ℤ := 2 ^ 256

/-- The bytes of a number, written from the last one on. -/
def encodeUnsignedBe (value : ℕ) : ℕ → List UInt8
  | 0 => []
  | i + 1 => encodeUnsignedBe (value >>> 8) i ++ [UInt8.ofNat (value &&& 0xff)]

def decodeUnsignedBe (bytes : List UInt8) : ℕ := bytes.foldl (fun v b => (v <<< 8) ||| b.toNat) 0

def encodeUint8 (v : ℤ) : Except Throw (List UInt8) := do
  require (0 ≤ v ∧ v ≤ MAX_UINT8) (.canonicalEncoding "UINT8_OUT_OF_RANGE")
  pure [UInt8.ofInt v]

def encodeUint16 (v : ℤ) : Except Throw (List UInt8) := do
  require (0 ≤ v ∧ v ≤ MAX_UINT16) (.canonicalEncoding "UINT16_OUT_OF_RANGE")
  pure [UInt8.ofInt (bitAnd (ushr v 8) 0xff), UInt8.ofInt (bitAnd v 0xff)]

def encodeUint64 (v : ℤ) : Except Throw (List UInt8) := do
  require (0 ≤ v ∧ v ≤ MAX_UINT64) (.canonicalEncoding "UINT64_OUT_OF_RANGE")
  pure (encodeUnsignedBe v.toNat 8)

def encodeUint256 (v : ℤ) : Except Throw (List UInt8) := do
  require (0 ≤ v ∧ v ≤ MAX_UINT256) (.canonicalEncoding "UINT256_OUT_OF_RANGE")
  pure (encodeUnsignedBe v.toNat 32)

def decodeUint256 (bytes : List UInt8) : Except Throw ℤ := do
  require (bytes.length = 32) (.canonicalEncoding "UINT256_BAD_LENGTH")
  pure (decodeUnsignedBe bytes)

/-- Two's complement. -/
def encodeInt256 (v : ℤ) : Except Throw (List UInt8) := do
  require (MIN_INT256 ≤ v ∧ v ≤ MAX_INT256) (.canonicalEncoding "INT256_OUT_OF_RANGE")
  let unsigned := if 0 ≤ v then v else v + TWO_256
  pure (encodeUnsignedBe unsigned.toNat 32)

def decodeInt256 (bytes : List UInt8) : Except Throw ℤ := do
  require (bytes.length = 32) (.canonicalEncoding "INT256_BAD_LENGTH")
  let u : ℤ := decodeUnsignedBe bytes
  pure (if 2 ^ 255 ≤ u then u - TWO_256 else u)

/-! ## Frames -/

def MAX_LENGTH : ℕ := 0xffffffff

structure Frame where
  typeTag : ℤ
  version : ℤ
  payload : List UInt8
  deriving DecidableEq

def encodeFrame (frame : Frame) : Except Throw (List UInt8) := do
  require (0 ≤ frame.typeTag ∧ frame.typeTag ≤ 0xffff) (.canonicalEncoding "FRAME_BAD_TYPE_TAG")
  require (0 ≤ frame.version ∧ frame.version ≤ 0xffff) (.canonicalEncoding "FRAME_BAD_VERSION")
  let len := frame.payload.length
  require (len ≤ MAX_LENGTH) (.canonicalEncoding "FRAME_PAYLOAD_TOO_LARGE")
  let tag ← encodeUint16 frame.typeTag
  let version ← encodeUint16 frame.version
  pure (tag ++ version ++ [UInt8.ofInt (bitAnd (ushr len 24) 0xff), UInt8.ofInt (bitAnd (ushr len 16) 0xff),
    UInt8.ofInt (bitAnd (ushr len 8) 0xff), UInt8.ofInt (bitAnd len 0xff)] ++ frame.payload)

def decodeFrame (bytes : List UInt8) : Except Throw Frame :=
  match bytes with
  | b0 :: b1 :: b2 :: b3 :: b4 :: b5 :: b6 :: b7 :: payload => do
    let typeTag := bitOr (shl b0.toNat 8) b1.toNat
    let version := bitOr (shl b2.toNat 8) b3.toNat
    let len := b4.toNat * 0x1000000 + bitOr (bitOr (shl b5.toNat 16) (shl b6.toNat 8)) b7.toNat
    require ((bytes.length : ℤ) = 8 + len) (.canonicalEncoding "FRAME_LENGTH_MISMATCH")
    pure ⟨typeTag, version, payload⟩
  | _ => throw (.canonicalEncoding "FRAME_TOO_SHORT")

/-! ## Bits as arithmetic -/

theorem ofInt_natCast_byte (n : ℕ) : UInt8.ofInt (n : ℤ) = UInt8.ofNat n := by
  rw [← UInt8.toNat_inj, UInt8.ofInt, UInt8.toNat_ofNat', UInt8.toNat_ofNat']
  omega

theorem ushr_natCast {n : ℕ} (h : n < 2 ^ 32) (k : ℕ) : ushr n k = (n / 2 ^ k : ℕ) := by
  rw [ushr, BitVec.ofInt_natCast, BitVec.toNat_ushiftRight, BitVec.toNat_ofNat, Nat.mod_eq_of_lt h,
    Nat.shiftRight_eq_div_pow]

/-- The mask of a byte leaves the last byte of every number. -/
theorem bitAnd_byte (n : ℕ) : bitAnd n 0xff = (n % 256 : ℕ) := by
  have hmask : (BitVec.ofInt 32 0xff) = BitVec.ofNat 32 (2 ^ 8 - 1) := by decide
  have hand : (BitVec.ofNat 32 n &&& BitVec.ofNat 32 (2 ^ 8 - 1)).toNat = n % 256 := by
    rw [BitVec.toNat_and, BitVec.toNat_ofNat, BitVec.toNat_ofNat, Nat.mod_eq_of_lt (by decide : 2 ^ 8 - 1 < 2 ^ 32),
      Nat.and_two_pow_sub_one_eq_mod]
    omega
  rw [bitAnd, BitVec.ofInt_natCast, hmask, BitVec.toInt_eq_toNat_of_lt (by rw [hand]; omega), hand]

theorem byte_ushr {n : ℕ} (h : n < 2 ^ 32) (k : ℕ) :
    UInt8.ofInt (bitAnd (ushr n k) 0xff) = UInt8.ofNat (n / 2 ^ k) := by
  rw [ushr_natCast h, bitAnd_byte, ofInt_natCast_byte, ← UInt8.toNat_inj, UInt8.toNat_ofNat', UInt8.toNat_ofNat',
    Nat.mod_mod]

theorem byte_low (n : ℕ) : UInt8.ofInt (bitAnd n 0xff) = UInt8.ofNat n := by
  rw [bitAnd_byte, ofInt_natCast_byte, ← UInt8.toNat_inj, UInt8.toNat_ofNat', UInt8.toNat_ofNat', Nat.mod_mod]

theorem shl_natCast {n k : ℕ} (h : n * 2 ^ k < 2 ^ 31) : shl n k = (n * 2 ^ k : ℕ) := by
  have hn : n < 2 ^ 32 := by
    have hpow : 0 < 2 ^ k := Nat.pow_pos (by decide)
    calc n = n * 1 := (Nat.mul_one n).symm
      _ ≤ n * 2 ^ k := Nat.mul_le_mul_left n hpow
      _ < 2 ^ 32 := by omega
  have hshift : (BitVec.ofNat 32 n <<< k).toNat = n * 2 ^ k := by
    rw [BitVec.toNat_shiftLeft, BitVec.toNat_ofNat, Nat.mod_eq_of_lt hn, Nat.shiftLeft_eq,
      Nat.mod_eq_of_lt (by omega)]
  rw [shl, BitVec.ofInt_natCast, BitVec.toInt_eq_toNat_of_lt (by rw [hshift]; omega), hshift]

/-- Bits below a multiple are added to it. -/
theorem bitOr_natCast {m b k : ℕ} (hb : b < 2 ^ k) (h : m * 2 ^ k + b < 2 ^ 31) :
    bitOr (m * 2 ^ k : ℕ) b = (m * 2 ^ k + b : ℕ) := by
  have hor : (BitVec.ofNat 32 (m * 2 ^ k) ||| BitVec.ofNat 32 b).toNat = m * 2 ^ k + b := by
    rw [BitVec.toNat_or, BitVec.toNat_ofNat, BitVec.toNat_ofNat, Nat.mod_eq_of_lt (by omega),
      Nat.mod_eq_of_lt (by omega), ← Nat.shiftLeft_eq, ← Nat.shiftLeft_add_eq_or_of_lt hb]
  rw [bitOr, BitVec.ofInt_natCast, BitVec.ofInt_natCast, BitVec.toInt_eq_toNat_of_lt (by rw [hor]; omega), hor]

/-! ## Big-endian bytes -/

theorem encodeUnsignedBe_eq (value len : ℕ) : encodeUnsignedBe value len = BigEndian.encode len value := by
  induction len generalizing value with
  | zero => rfl
  | succ len ih =>
    have hlow : UInt8.ofNat (value &&& 0xff) = UInt8.ofNat value := by
      rw [← UInt8.toNat_inj, UInt8.toNat_ofNat', UInt8.toNat_ofNat', show 0xff = 2 ^ 8 - 1 from rfl,
        Nat.and_two_pow_sub_one_eq_mod, Nat.mod_mod]
    rw [encodeUnsignedBe, BigEndian.encode, ih, hlow, Nat.shiftRight_eq_div_pow]

theorem decodeUnsignedBe_eq (bytes : List UInt8) : decodeUnsignedBe bytes = BigEndian.value bytes := by
  have hstep : (fun (v : ℕ) (b : UInt8) => (v <<< 8) ||| b.toNat) = fun v b => 256 * v + b.toNat := by
    funext v b
    rw [← Nat.shiftLeft_add_eq_or_of_lt b.toNat_lt, Nat.shiftLeft_eq, Nat.mul_comm]
  rw [decodeUnsignedBe, hstep, BigEndian.value]

theorem bytesBe_eq (len n : ℕ) : bytesBe len n = BigEndian.encode len n := by
  induction len generalizing n with
  | zero => rfl
  | succ len ih =>
    rw [BigEndian.encode, ← ih, bytesBe, bytesBe, List.range_succ_eq_map, List.reverse_cons, List.map_append,
      List.map_singleton, ← List.map_reverse, List.map_map]
    congr 1
    · refine List.map_congr_left fun i _ => ?_
      rw [Function.comp_apply, Nat.div_div_eq_div_mul, Nat.succ_eq_add_one, pow_succ']
    · rw [pow_zero, Nat.div_one, List.singleton_inj, ← UInt8.toNat_inj, UInt8.toNat_ofNat', UInt8.toNat_ofNat']
      exact Nat.mod_mod n 256

/-! ## Unsigned integers -/

/-- An encoder of the integers below `256 ^ len`, in `len` big-endian bytes. -/
def EncodesUnsigned (encode : ℤ → Except Throw (List UInt8)) (len : ℕ) : Prop :=
  ∀ v b, encode v = .ok b ↔ (0 ≤ v ∧ v < 256 ^ len) ∧ b = BigEndian.encode len v.toNat

theorem encodeUint8_spec : EncodesUnsigned encodeUint8 1 := by
  intro v b
  simp only [encodeUint8, bind_eq_ok, require_eq_ok, pure_eq_ok]
  unfold MAX_UINT8
  constructor
  · rintro ⟨-, hrange, rfl⟩
    obtain ⟨n, rfl⟩ := Int.eq_ofNat_of_zero_le hrange.1
    refine ⟨⟨hrange.1, by omega⟩, ?_⟩
    rw [ofInt_natCast_byte, Int.toNat_natCast]
    rfl
  · rintro ⟨⟨hnonneg, hlt⟩, rfl⟩
    obtain ⟨n, rfl⟩ := Int.eq_ofNat_of_zero_le hnonneg
    refine ⟨(), ⟨hnonneg, by omega⟩, ?_⟩
    rw [ofInt_natCast_byte, Int.toNat_natCast]
    rfl

theorem uint16_bytes {n : ℕ} (h : n < 2 ^ 32) :
    [UInt8.ofInt (bitAnd (ushr n 8) 0xff), UInt8.ofInt (bitAnd n 0xff)] = BigEndian.encode 2 n := by
  rw [byte_ushr h, byte_low]
  rfl

theorem encodeUint16_spec : EncodesUnsigned encodeUint16 2 := by
  intro v b
  simp only [encodeUint16, bind_eq_ok, require_eq_ok, pure_eq_ok]
  unfold MAX_UINT16
  constructor
  · rintro ⟨-, hrange, rfl⟩
    obtain ⟨n, rfl⟩ := Int.eq_ofNat_of_zero_le hrange.1
    exact ⟨⟨hrange.1, by omega⟩, uint16_bytes (by omega)⟩
  · rintro ⟨⟨hnonneg, hlt⟩, rfl⟩
    obtain ⟨n, rfl⟩ := Int.eq_ofNat_of_zero_le hnonneg
    exact ⟨(), ⟨hnonneg, by omega⟩, uint16_bytes (by omega)⟩

theorem encodeUint64_spec : EncodesUnsigned encodeUint64 8 := by
  intro v b
  have hrange : v ≤ MAX_UINT64 ↔ v < 256 ^ 8 := by
    unfold MAX_UINT64
    omega
  simp only [encodeUint64, bind_eq_ok, require_eq_ok, pure_eq_ok]
  rw [hrange, exists_const, encodeUnsignedBe_eq, eq_comm]

theorem encodeUint256_spec : EncodesUnsigned encodeUint256 32 := by
  intro v b
  have hrange : v ≤ MAX_UINT256 ↔ v < 256 ^ 32 := by
    unfold MAX_UINT256
    omega
  simp only [encodeUint256, bind_eq_ok, require_eq_ok, pure_eq_ok]
  rw [hrange, exists_const, encodeUnsignedBe_eq, eq_comm]

/-- The encoders of unsigned integers. -/
def unsignedEncoders : List (ℤ → Except Throw (List UInt8)) :=
  [encodeUint8, encodeUint16, encodeUint64, encodeUint256]

theorem unsignedEncoders_spec {encode : ℤ → Except Throw (List UInt8)} (h : encode ∈ unsignedEncoders) :
    ∃ len, EncodesUnsigned encode len := by
  simp only [unsignedEncoders, List.mem_cons, List.not_mem_nil, or_false] at h
  rcases h with rfl | rfl | rfl | rfl
  · exact ⟨1, encodeUint8_spec⟩
  · exact ⟨2, encodeUint16_spec⟩
  · exact ⟨8, encodeUint64_spec⟩
  · exact ⟨32, encodeUint256_spec⟩

theorem bytesLe_iff (s t : List UInt8) : bytesLe s t = true ↔ ¬t < s := by
  induction s generalizing t with
  | nil => simp [bytesLe]
  | cons a s ih =>
    cases t with
    | nil => simp [bytesLe]
    | cons b t =>
      simp only [bytesLe, Bool.or_eq_true, Bool.and_eq_true, decide_eq_true_eq, beq_iff_eq, ih,
        List.cons_lt_cons_iff, UInt8.lt_iff_toNat_lt, ← UInt8.toNat_inj]
      rcases lt_trichotomy a.toNat b.toNat with h | h | h
      · simp [h, Nat.lt_asymm h, h.ne']
      · simp [h]
      · simp [h, Nat.lt_asymm h, h.ne']

/-- The bytes of unsigned integers are in their order. -/
theorem EncodesUnsigned.order {encode : ℤ → Except Throw (List UInt8)} {len : ℕ} (henc : EncodesUnsigned encode len)
    {v w : ℤ} {b c : List UInt8} (hv : encode v = .ok b) (hw : encode w = .ok c) :
    (b < c ↔ v < w) ∧ (bytesLe b c = true ↔ v ≤ w) := by
  obtain ⟨⟨hvpos, hvlt⟩, rfl⟩ := (henc v b).mp hv
  obtain ⟨⟨hwpos, hwlt⟩, rfl⟩ := (henc w c).mp hw
  obtain ⟨n, rfl⟩ := Int.eq_ofNat_of_zero_le hvpos
  obtain ⟨m, rfl⟩ := Int.eq_ofNat_of_zero_le hwpos
  have hn : n < 256 ^ len := by exact_mod_cast hvlt
  have hm : m < 256 ^ len := by exact_mod_cast hwlt
  rw [bytesLe_iff, Int.toNat_natCast, Int.toNat_natCast,
    ← BigEndian.value_lt_iff (by rw [BigEndian.length_encode, BigEndian.length_encode]),
    ← BigEndian.value_lt_iff (by rw [BigEndian.length_encode, BigEndian.length_encode]),
    BigEndian.value_encode hn, BigEndian.value_encode hm]
  omega

/-! ## Inverses -/

/-- Encoder and decoder are inverse between the integers from `lo` to `hi` and the strings of `len` bytes, and the
encoder refuses all other integers. -/
structure Inverse (encode : ℤ → Except Throw (List UInt8)) (decode : List UInt8 → Except Throw ℤ) (lo hi : ℤ)
    (len : ℕ) : Prop where
  encodes : ∀ v, lo ≤ v → v ≤ hi → ∃ b, encode v = .ok b ∧ b.length = len ∧ decode b = .ok v
  decodes : ∀ b, b.length = len → ∃ v, decode b = .ok v ∧ lo ≤ v ∧ v ≤ hi ∧ encode v = .ok b
  in_range : ∀ v b, encode v = .ok b → lo ≤ v ∧ v ≤ hi
  in_length : ∀ b v, decode b = .ok v → b.length = len

/-- An encoder through the numbers below `256 ^ len`, and a decoder through them. -/
theorem Inverse.of_numbers {encode : ℤ → Except Throw (List UInt8)} {decode : List UInt8 → Except Throw ℤ}
    {lo hi : ℤ} {len : ℕ} {up : ℤ → ℕ} {down : ℕ → ℤ}
    (hencode : ∀ v b, encode v = .ok b ↔ (lo ≤ v ∧ v ≤ hi) ∧ b = BigEndian.encode len (up v))
    (hdecode : ∀ b v, decode b = .ok v ↔ b.length = len ∧ v = down (BigEndian.value b))
    (hup : ∀ v, lo ≤ v → v ≤ hi → up v < 256 ^ len ∧ down (up v) = v)
    (hdown : ∀ n < 256 ^ len, lo ≤ down n ∧ down n ≤ hi ∧ up (down n) = n) :
    Inverse encode decode lo hi len where
  encodes v hlo hhi := by
    obtain ⟨hlt, hback⟩ := hup v hlo hhi
    refine ⟨_, (hencode v _).mpr ⟨⟨hlo, hhi⟩, rfl⟩, BigEndian.length_encode _ _, ?_⟩
    rw [hdecode, BigEndian.value_encode hlt]
    exact ⟨BigEndian.length_encode _ _, hback.symm⟩
  decodes b hb := by
    obtain ⟨hlo, hhi, hback⟩ := hdown _ (hb ▸ BigEndian.value_lt b)
    refine ⟨_, (hdecode b _).mpr ⟨hb, rfl⟩, hlo, hhi, (hencode _ _).mpr ⟨⟨hlo, hhi⟩, ?_⟩⟩
    rw [hback, ← hb, BigEndian.encode_value]
  in_range v b h := ((hencode v b).mp h).1
  in_length b v h := ((hdecode b v).mp h).1

theorem uint256_inverse : Inverse encodeUint256 decodeUint256 0 (2 ^ 256 - 1) 32 := by
  refine @Inverse.of_numbers _ _ _ _ _ Int.toNat Int.ofNat (fun v b => ?_) (fun b v => ?_)
    (fun v hlo hhi => ?_) fun n hn => ?_
  · have hrange : v ≤ 2 ^ 256 - 1 ↔ v < 256 ^ 32 := by omega
    rw [encodeUint256_spec v b, hrange]
  · simp only [decodeUint256, bind_eq_ok, require_eq_ok, pure_eq_ok, exists_const]
    rw [decodeUnsignedBe_eq, eq_comm (b := v)]
    rfl
  · exact ⟨by omega, Int.toNat_of_nonneg hlo⟩
  · exact ⟨Int.natCast_nonneg n, by simp only [Int.ofNat_eq_natCast]; omega, rfl⟩

theorem int256_inverse : Inverse encodeInt256 decodeInt256 (-2 ^ 255) (2 ^ 255 - 1) 32 := by
  refine @Inverse.of_numbers _ _ _ _ _ (fun v => (if 0 ≤ v then v else v + TWO_256).toNat)
    (fun n => if (2 : ℤ) ^ 255 ≤ n then n - TWO_256 else n) (fun v b => ?_) (fun b v => ?_)
    (fun v hlo hhi => ?_) fun n hn => ?_
  · simp only [encodeInt256, bind_eq_ok, require_eq_ok, pure_eq_ok, exists_const]
    rw [encodeUnsignedBe_eq, eq_comm (b := b)]
    rfl
  · simp only [decodeInt256, bind_eq_ok, require_eq_ok, pure_eq_ok, exists_const]
    rw [decodeUnsignedBe_eq, eq_comm (b := v)]
  · unfold TWO_256
    constructor
    · split <;> omega
    · split <;> split <;> omega
  · unfold TWO_256
    refine ⟨?_, ?_, ?_⟩
    · split <;> omega
    · split <;> omega
    · split <;> split <;> omega

/-! ## Frames and their bytes -/

/-- What can be framed. -/
def Frame.Fits (f : Frame) : Prop :=
  (0 ≤ f.typeTag ∧ f.typeTag ≤ 0xffff) ∧ (0 ≤ f.version ∧ f.version ≤ 0xffff) ∧ f.payload.length < 2 ^ 32

/-- The bytes of a frame. -/
def Frame.bytes (f : Frame) : List UInt8 :=
  BigEndian.encode 2 f.typeTag.toNat ++ BigEndian.encode 2 f.version.toNat ++
    BigEndian.encode 4 f.payload.length ++ f.payload

theorem length_bytes {n : ℕ} (h : n < 2 ^ 32) :
    [UInt8.ofInt (bitAnd (ushr n 24) 0xff), UInt8.ofInt (bitAnd (ushr n 16) 0xff),
      UInt8.ofInt (bitAnd (ushr n 8) 0xff), UInt8.ofInt (bitAnd n 0xff)] = BigEndian.encode 4 n := by
  rw [byte_ushr h, byte_ushr h, byte_ushr h, byte_low]
  simp only [BigEndian.encode, Nat.div_div_eq_div_mul, List.nil_append, List.cons_append]
  rfl

theorem encodeFrame_eq_ok {f : Frame} {b : List UInt8} : encodeFrame f = .ok b ↔ f.Fits ∧ b = f.bytes := by
  simp only [encodeFrame, bind_eq_ok, require_eq_ok, pure_eq_ok, exists_const]
  constructor
  · rintro ⟨htag, hversion, hlength, t, ht, w, hw, rfl⟩
    have hlength : f.payload.length < 2 ^ 32 := Nat.lt_succ_of_le hlength
    obtain ⟨-, rfl⟩ := (encodeUint16_spec _ _).mp ht
    obtain ⟨-, rfl⟩ := (encodeUint16_spec _ _).mp hw
    rw [length_bytes hlength]
    exact ⟨⟨htag, hversion, hlength⟩, rfl⟩
  · rintro ⟨⟨htag, hversion, hlength⟩, rfl⟩
    refine ⟨htag, hversion, Nat.le_of_lt_succ hlength, _, (encodeUint16_spec _ _).mpr ⟨⟨htag.1, by omega⟩, rfl⟩, _,
      (encodeUint16_spec _ _).mpr ⟨⟨hversion.1, by omega⟩, rfl⟩, ?_⟩
    rw [length_bytes hlength]
    rfl

theorem word16 (b c : UInt8) : bitOr (shl b.toNat 8) c.toNat = BigEndian.value [b, c] := by
  have hb := b.toNat_lt
  have hc := c.toNat_lt
  have hvalue : BigEndian.value [b, c] = b.toNat * 2 ^ 8 + c.toNat := by
    rw [BigEndian.value_cons, BigEndian.value_cons, BigEndian.value_nil]
    simp only [List.length_cons, List.length_nil]
    omega
  rw [hvalue, shl_natCast (by omega), bitOr_natCast hc (by omega)]

/-- The highest byte of a length is multiplied, so that it is not taken for a sign. -/
theorem word32 (b c d e : UInt8) :
    b.toNat * 0x1000000 + bitOr (bitOr (shl c.toNat 16) (shl d.toNat 8)) e.toNat =
      BigEndian.value [b, c, d, e] := by
  have hc := c.toNat_lt
  have hd := d.toNat_lt
  have he := e.toNat_lt
  have hvalue : BigEndian.value [b, c, d, e] =
      b.toNat * 0x1000000 + ((c.toNat * 2 ^ 8 + d.toNat) * 2 ^ 8 + e.toNat) := by
    simp only [BigEndian.value_cons, BigEndian.value_nil, List.length_cons, List.length_nil]
    omega
  have hmiddle : bitOr (c.toNat * 2 ^ 16 : ℕ) (d.toNat * 2 ^ 8 : ℕ) = ((c.toNat * 2 ^ 8 + d.toNat) * 2 ^ 8 : ℕ) := by
    rw [bitOr_natCast (by omega) (by omega), Nat.add_mul, Nat.mul_assoc]
    rfl
  rw [hvalue, shl_natCast (by omega), shl_natCast (by omega), hmiddle, bitOr_natCast he (by omega)]
  push_cast
  rfl

/-- Bytes are those of a number if the number is theirs. -/
theorem encode_eq_iff {len n : ℕ} {l : List UInt8} (hl : l.length = len) (hn : n < 256 ^ len) :
    l = BigEndian.encode len n ↔ n = BigEndian.value l := by
  constructor
  · rintro rfl
    exact (BigEndian.value_encode hn).symm
  · rintro rfl
    rw [← hl, BigEndian.encode_value]

theorem Frame.bytes_eq_iff {f : Frame} (hf : f.Fits) {b0 b1 b2 b3 b4 b5 b6 b7 : UInt8} {payload : List UInt8} :
    b0 :: b1 :: b2 :: b3 :: b4 :: b5 :: b6 :: b7 :: payload = f.bytes ↔
      f.typeTag = BigEndian.value [b0, b1] ∧ f.version = BigEndian.value [b2, b3] ∧
        f.payload.length = BigEndian.value [b4, b5, b6, b7] ∧ payload = f.payload := by
  obtain ⟨htag, hversion, hlength⟩ := hf
  have hcut : b0 :: b1 :: b2 :: b3 :: b4 :: b5 :: b6 :: b7 :: payload = f.bytes ↔
      [b0, b1] = BigEndian.encode 2 f.typeTag.toNat ∧ [b2, b3] = BigEndian.encode 2 f.version.toNat ∧
        [b4, b5, b6, b7] = BigEndian.encode 4 f.payload.length ∧ payload = f.payload := by
    rw [Frame.bytes, show b0 :: b1 :: b2 :: b3 :: b4 :: b5 :: b6 :: b7 :: payload =
      [b0, b1] ++ [b2, b3] ++ [b4, b5, b6, b7] ++ payload from rfl]
    constructor
    · intro h
      obtain ⟨h, hpayload⟩ := List.append_inj h (by simp)
      obtain ⟨h, hlen⟩ := List.append_inj h (by simp)
      obtain ⟨htype, hver⟩ := List.append_inj h (by simp)
      exact ⟨htype, hver, hlen, hpayload⟩
    · rintro ⟨htype, hver, hlen, hpayload⟩
      rw [htype, hver, hlen, hpayload]
  have htagBytes : [b0, b1] = BigEndian.encode 2 f.typeTag.toNat ↔ f.typeTag.toNat = BigEndian.value [b0, b1] :=
    encode_eq_iff rfl (by omega)
  have hversionBytes :
      [b2, b3] = BigEndian.encode 2 f.version.toNat ↔ f.version.toNat = BigEndian.value [b2, b3] :=
    encode_eq_iff rfl (by omega)
  have hlengthBytes : [b4, b5, b6, b7] = BigEndian.encode 4 f.payload.length ↔
      f.payload.length = BigEndian.value [b4, b5, b6, b7] := encode_eq_iff rfl (by omega)
  rw [hcut, htagBytes, hversionBytes, hlengthBytes]
  have htoNat : ∀ {v : ℤ} {n : ℕ}, 0 ≤ v → (v.toNat = n ↔ v = n) := by omega
  rw [htoNat htag.1, htoNat hversion.1]

theorem decodeFrame_eq_ok {f : Frame} {b : List UInt8} : decodeFrame b = .ok f ↔ f.Fits ∧ b = f.bytes := by
  unfold decodeFrame
  split
  · next b0 b1 b2 b3 b4 b5 b6 b7 payload =>
    simp only [bind_eq_ok, require_eq_ok, pure_eq_ok, exists_const, word16, word32, List.length_cons]
    have htag := BigEndian.value_lt [b0, b1]
    have hversion := BigEndian.value_lt [b2, b3]
    have hlength := BigEndian.value_lt [b4, b5, b6, b7]
    simp only [List.length_cons, List.length_nil] at htag hversion hlength
    constructor
    · rintro ⟨hlen, rfl⟩
      have hfits : Frame.Fits ⟨BigEndian.value [b0, b1], BigEndian.value [b2, b3], payload⟩ := by
        unfold Frame.Fits
        dsimp only
        omega
      refine ⟨hfits, (Frame.bytes_eq_iff hfits).mpr ⟨rfl, rfl, ?_, rfl⟩⟩
      dsimp only
      omega
    · rintro ⟨hfits, hbytes⟩
      obtain ⟨htype, hver, hlen, rfl⟩ := (Frame.bytes_eq_iff hfits).mp hbytes
      refine ⟨by omega, ?_⟩
      rw [← htype, ← hver]
  · next hshort =>
    refine iff_of_false (fun h => throw_eq_ok.mp h) ?_
    rintro ⟨-, rfl⟩
    -- the header alone has eight bytes
    have hlength : f.bytes.length = 8 + f.payload.length := by
      simp only [Frame.bytes, List.length_append, BigEndian.length_encode]
    rcases hb : f.bytes with _ | ⟨b0, _ | ⟨b1, _ | ⟨b2, _ | ⟨b3, _ | ⟨b4, _ | ⟨b5, _ | ⟨b6, _ | ⟨b7, payload⟩⟩⟩⟩⟩⟩⟩⟩
    case cons.cons.cons.cons.cons.cons.cons.cons => exact hshort _ _ _ _ _ _ _ _ _ hb
    all_goals
      rw [hb] at hlength
      simp only [List.length_cons, List.length_nil] at hlength
      omega

/-! ## Bijections -/

/-- The binary primitives are bijections. A frame of integers of 16 bits and a payload shorter than `2 ^ 32` is
read back from its bytes, and the strings that are read as a frame are exactly those that are written for it.
Integers of 256 bits, without and with sign, are inverse to the strings of 32 bytes, and refused out of range.
Unsigned integers of all widths are in the order of their bytes. Bytes are read back from their hex, and hex of
even length in lower case is written as it was read. -/
theorem primitives_bijective :
    (∀ f : Frame, 0 ≤ f.typeTag → f.typeTag < 2 ^ 16 → 0 ≤ f.version → f.version < 2 ^ 16 →
      f.payload.length < 2 ^ 32 → ∃ b, encodeFrame f = .ok b ∧ decodeFrame b = .ok f) ∧
    (∀ b f, decodeFrame b = .ok f ↔ encodeFrame f = .ok b) ∧
    Inverse encodeUint256 decodeUint256 0 (2 ^ 256 - 1) 32 ∧
    Inverse encodeInt256 decodeInt256 (-2 ^ 255) (2 ^ 255 - 1) 32 ∧
    (∀ encode ∈ unsignedEncoders, ∀ v w b c, encode v = .ok b → encode w = .ok c →
      (b < c ↔ v < w) ∧ (bytesLe b c = true ↔ v ≤ w)) ∧
    (∀ b, fromHex (toHex b) = .ok b) ∧
    ∀ h : Str, h.length % 2 = 0 → h.all isLowerHexDigit = true → ∃ b, fromHex h = .ok b ∧ toHex b = h := by
  refine ⟨?_, ?_, uint256_inverse, int256_inverse, ?_, fromHex_toHex, ?_⟩
  · intro f htag htag' hversion hversion' hlength
    have hfits : f.Fits := ⟨⟨htag, by omega⟩, ⟨hversion, by omega⟩, hlength⟩
    exact ⟨f.bytes, encodeFrame_eq_ok.mpr ⟨hfits, rfl⟩, decodeFrame_eq_ok.mpr ⟨hfits, rfl⟩⟩
  · intro b f
    rw [decodeFrame_eq_ok, encodeFrame_eq_ok]
  · intro encode hmem v w b c hv hw
    obtain ⟨len, henc⟩ := unsignedEncoders_spec hmem
    exact henc.order hv hw
  · intro h heven hlower
    obtain ⟨b, hread, -, hwrite⟩ := fromHex_lower hlower heven
    exact ⟨b, hread, hwrite⟩

end ParadigmTerra
