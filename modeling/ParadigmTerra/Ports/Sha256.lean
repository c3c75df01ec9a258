import ParadigmTerra.Canonical.Trees
import ParadigmTerra.Lib.Loops
import ParadigmTerra.Lib.Sha256

/-!
# The hash function of the port in Rust

The port has a hash function of its own. Its definition here follows the code with its loops and indices, and
`none` stands for a panic: an index out of bounds, or a number below zero.

`sha256_is_standard` says that it never panics on messages that are short enough for their length in bits to be
written down, and that its digest is the one of the standard. The invariant of the schedule is `Scheduled`; the
one of the rounds is that the working variables are those of the standard (`round_spec`).
-/

namespace ParadigmTerra.Ports

/-! ## Integers in bytes -/

/-- `u32::to_be_bytes`, and `PutUint32` on big-endian bytes. -/
def be32 (n : UInt32) : List UInt8 :=
  [(n >>> 24).toUInt8, (n >>> 16).toUInt8, (n >>> 8).toUInt8, n.toUInt8]

/-- `u64::to_be_bytes`, and `PutUint64` on big-endian bytes. -/
def be64 (n : UInt64) : List UInt8 :=
  [(n >>> 56).toUInt8, (n >>> 48).toUInt8, (n >>> 40).toUInt8, (n >>> 32).toUInt8,
    (n >>> 24).toUInt8, (n >>> 16).toUInt8, (n >>> 8).toUInt8, n.toUInt8]

theorem be32_eq (n : UInt32) : be32 n = bytesBe 4 n.toNat := by
  have hbyte : ∀ k : UInt32, ∀ i, k.toNat % 32 = 8 * i →
      (n >>> k).toUInt8 = UInt8.ofNat (n.toNat / 256 ^ i % 256) := by
    intro k i hk
    rw [← UInt8.toNat_inj, UInt32.toNat_toUInt8, UInt32.toNat_shiftRight, hk, Nat.shiftRight_eq_div_pow,
      Nat.pow_mul, UInt8.toNat_ofNat', Nat.mod_mod]
  have hlast : n.toUInt8 = UInt8.ofNat (n.toNat / 256 ^ 0 % 256) := hbyte 0 0 rfl
  rw [be32, hbyte 24 3 rfl, hbyte 16 2 rfl, hbyte 8 1 rfl, hlast]
  rfl

theorem be64_eq (n : UInt64) : be64 n = bytesBe 8 n.toNat := by
  have hbyte : ∀ k : UInt64, ∀ i, k.toNat % 64 = 8 * i →
      (n >>> k).toUInt8 = UInt8.ofNat (n.toNat / 256 ^ i % 256) := by
    intro k i hk
    rw [← UInt8.toNat_inj, UInt64.toNat_toUInt8, UInt64.toNat_shiftRight, hk, Nat.shiftRight_eq_div_pow,
      Nat.pow_mul, UInt8.toNat_ofNat', Nat.mod_mod]
  have hlast : n.toUInt8 = UInt8.ofNat (n.toNat / 256 ^ 0 % 256) := hbyte 0 0 rfl
  rw [be64, hbyte 56 7 rfl, hbyte 48 6 rfl, hbyte 40 5 rfl, hbyte 32 4 rfl, hbyte 24 3 rfl,
    hbyte 16 2 rfl, hbyte 8 1 rfl, hlast]
  rfl

namespace Rust

/-! ## The code -/

/-- The round constants. -/
def K : List UInt32 := [
  0x428a2f98, 0x71374491, 0xb5c0fbcf, 0xe9b5dba5, 0x3956c25b, 0x59f111f1, 0x923f82a4, 0xab1c5ed5,
  0xd807aa98, 0x12835b01, 0x243185be, 0x550c7dc3, 0x72be5d74, 0x80deb1fe, 0x9bdc06a7, 0xc19bf174,
  0xe49b69c1, 0xefbe4786, 0x0fc19dc6, 0x240ca1cc, 0x2de92c6f, 0x4a7484aa, 0x5cb0a9dc, 0x76f988da,
  0x983e5152, 0xa831c66d, 0xb00327c8, 0xbf597fc7, 0xc6e00bf3, 0xd5a79147, 0x06ca6351, 0x14292967,
  0x27b70a85, 0x2e1b2138, 0x4d2c6dfc, 0x53380d13, 0x650a7354, 0x766a0abb, 0x81c2c92e, 0x92722c85,
  0xa2bfe8a1, 0xa81a664b, 0xc24b8b70, 0xc76c51a3, 0xd192e819, 0xd6990624, 0xf40e3585, 0x106aa070,
  0x19a4c116, 0x1e376c08, 0x2748774c, 0x34b0bcb5, 0x391c0cb3, 0x4ed8aa4a, 0x5b9cca4f, 0x682e6ff3,
  0x748f82ee, 0x78a5636f, 0x84c87814, 0x8cc70208, 0x90befffa, 0xa4506ceb, 0xbef9a3f7, 0xc67178f2]

/-- Eight words: the hash value, and the working variables. -/
structure Words where
  (a b c d e f g hh : UInt32)

/-- The initial hash value. -/
def H0 : Words :=
  ⟨0x6a09e667, 0xbb67ae85, 0x3c6ef372, 0xa54ff53a, 0x510e527f, 0x9b05688c, 0x1f83d9ab, 0x5be0cd19⟩

/-- `x.rotate_right(n)` -/
def rotateRight (x : UInt32) (n : ℕ) : UInt32 := ⟨x.toBitVec.rotateRight n⟩

/-- `u32::from_be_bytes` -/
def fromBeBytes (a b c d : UInt8) : UInt32 :=
  UInt32.ofNat (a.toNat * 2 ^ 24 + b.toNat * 2 ^ 16 + c.toNat * 2 ^ 8 + d.toNat)

/-- Zeros, as long as 56 bytes are not reached modulo 64. -/
def padZeros (msg : List UInt8) : List UInt8 :=
  if msg.length % 64 ≠ 56 then padZeros (msg ++ [0]) else msg
termination_by (120 - msg.length % 64) % 64
decreasing_by
  simp only [List.length_append, List.length_cons, List.length_nil]
  omega

/-- The message with its padding. -/
def padded (data : List UInt8) : List UInt8 :=
  padZeros (data ++ [0x80]) ++ be64 (UInt64.ofNat data.length * 8)

/-- `l.chunks_exact(64)` -/
def chunksExact (l : List UInt8) : List (List UInt8) :=
  if 64 ≤ l.length then l.take 64 :: chunksExact (l.drop 64) else []
termination_by l.length
decreasing_by
  simp only [List.length_drop]
  omega

/-- The `i`th word of a chunk. -/
def loadWord (chunk : List UInt8) (w : List UInt32) (i : ℕ) : Option (List UInt32) := do
  let a ← chunk[4 * i]?
  let b ← chunk[4 * i + 1]?
  let c ← chunk[4 * i + 2]?
  let d ← chunk[4 * i + 3]?
  pure (w.set i (fromBeBytes a b c d))

/-- `w[i - k]` -/
def back (w : List UInt32) (i k : ℕ) : Option UInt32 := if k ≤ i then w[i - k]? else none

/-- The `i`th word of the schedule. -/
def extendWord (w : List UInt32) (i : ℕ) : Option (List UInt32) := do
  let w15 ← back w i 15
  let s0 := rotateRight w15 7 ^^^ rotateRight w15 18 ^^^ (w15 >>> 3)
  let w2 ← back w i 2
  let s1 := rotateRight w2 17 ^^^ rotateRight w2 19 ^^^ (w2 >>> 10)
  let w16 ← back w i 16
  let w7 ← back w i 7
  if i < w.length then pure (w.set i (w16 + s0 + w7 + s1)) else none

/-- The `i`th round. -/
def round (w : List UInt32) (v : Words) (i : ℕ) : Option Words := do
  let s1 := rotateRight v.e 6 ^^^ rotateRight v.e 11 ^^^ rotateRight v.e 25
  let ch := (v.e &&& v.f) ^^^ (~~~v.e &&& v.g)
  let k ← K[i]?
  let wi ← w[i]?
  let t1 := v.hh + s1 + ch + k + wi
  let s0 := rotateRight v.a 2 ^^^ rotateRight v.a 13 ^^^ rotateRight v.a 22
  let maj := (v.a &&& v.b) ^^^ (v.a &&& v.c) ^^^ (v.b &&& v.c)
  let t2 := s0 + maj
  pure ⟨t1 + t2, v.a, v.b, v.c, v.d + t1, v.e, v.f, v.g⟩

/-- The hash value after a chunk. -/
def compress (h : Words) (chunk : List UInt8) : Option Words := do
  let w ← (List.range 16).foldlM (loadWord chunk) (List.replicate 64 0)
  let w ← (List.range' 16 48).foldlM extendWord w
  let v ← (List.range 64).foldlM (round w) h
  pure ⟨h.a + v.a, h.b + v.b, h.c + v.c, h.d + v.d, h.e + v.e, h.f + v.f, h.g + v.g, h.hh + v.hh⟩

/-- `out[4 * i..4 * i + 4].copy_from_slice(&word.to_be_bytes())` -/
def writeWord (out : List UInt8) (word : UInt32 × ℕ) : Option (List UInt8) :=
  if 4 * word.2 + 4 ≤ out.length then
    some (out.take (4 * word.2) ++ be32 word.1 ++ out.drop (4 * word.2 + 4))
  else none

def sha256 (data : List UInt8) : Option (List UInt8) := do
  let h ← (chunksExact (padded data)).foldlM compress H0
  [h.a, h.b, h.c, h.d, h.e, h.f, h.g, h.hh].zipIdx.foldlM writeWord (List.replicate 32 0)

/-! ## Constants -/

/-- Below `18 ^ 2` the divisors to try are below `18`. -/
theorem prime_iff {p : ℕ} (hp : p < 312) :
    p.Prime ↔ 2 ≤ p ∧ ∀ m < 18, 2 ≤ m → m < p → ¬m ∣ p := by
  constructor
  · intro h
    refine ⟨h.two_le, fun m _ hm hlt hdvd => ?_⟩
    rcases h.eq_one_or_self_of_dvd m hdvd with rfl | rfl <;> omega
  · rintro ⟨htwo, h⟩
    refine Nat.prime_def_le_sqrt.mpr ⟨htwo, fun m hm hle => ?_⟩
    have hsqrt : p.sqrt < 18 := Nat.sqrt_lt'.mpr (by omega)
    have hself : p.sqrt < p := Nat.sqrt_lt_self htwo
    exact h m (by omega) hm (by omega)

/-- The primes whose roots the constants come from, computed once. -/
theorem primes_eq : Sha256.primes =
    [2, 3, 5, 7, 11, 13, 17, 19, 23, 29, 31, 37, 41, 43, 47, 53, 59, 61, 67, 71, 73, 79, 83, 89, 97,
    101, 103, 107, 109, 113, 127, 131, 137, 139, 149, 151, 157, 163, 167, 173, 179, 181, 191, 193, 197,
    199, 211, 223, 227, 229, 233, 239, 241, 251, 257, 263, 269, 271, 277, 281, 283, 293, 307, 311] := by
  have hfilter : Sha256.primes =
      (List.range 312).filter fun p => 2 ≤ p ∧ ∀ m < 18, 2 ≤ m → m < p → ¬m ∣ p :=
    List.filter_congr fun p hp => decide_eq_decide.mpr (prime_iff (List.mem_range.mp hp))
  rw [hfilter]
  decide +kernel

/-- A constant with the whole part of its root in front lies between the neighbours of the root. -/
theorem K_root : ∀ t < 64, ∃ w < 7,
    (w * 2 ^ 32 + (K.getD t 0).toNat) ^ 3 ≤ Sha256.primes.getD t 0 * 2 ^ (32 * 3) ∧
      Sha256.primes.getD t 0 * 2 ^ (32 * 3) < (w * 2 ^ 32 + (K.getD t 0).toNat + 1) ^ 3 := by
  rw [primes_eq]
  decide +kernel

theorem K_spec : ∀ t < 64, K[t]? = some ⟨Sha256.roundConstant t⟩ := by
  intro t ht
  obtain ⟨w, -, hlow, hhigh⟩ := K_root t ht
  have hK : K[t]? = some (K.getD t 0) := by
    have hlength : K.length = 64 := rfl
    rw [List.getD_eq_getElem?_getD, List.getElem?_eq_getElem (by omega)]
    rfl
  have hword : BitVec.ofNat 32 (w * 2 ^ 32 + (K.getD t 0).toNat) = (K.getD t 0).toBitVec := by
    apply BitVec.eq_of_toNat_eq
    have hlt := (K.getD t 0).toNat_lt
    rw [BitVec.toNat_ofNat, UInt32.toNat_toBitVec]
    omega
  rw [hK, Sha256.roundConstant, Sha256.rootWord_eq hlow hhigh, hword]

/-- The words of the standard. -/
def Words.standard (v : Words) : Sha256.Working :=
  ⟨v.a.toBitVec, v.b.toBitVec, v.c.toBitVec, v.d.toBitVec, v.e.toBitVec, v.f.toBitVec, v.g.toBitVec,
    v.hh.toBitVec⟩

theorem H0_spec : H0.standard = Sha256.initial := by
  unfold Sha256.initial
  rw [primes_eq]
  decide +kernel

/-! ## Functions on words -/

theorem toBitVec_rotateRight (x : UInt32) {n : ℕ} (h : n < 32) :
    (rotateRight x n).toBitVec = Sha256.rotr n x.toBitVec := by
  rw [rotateRight, BitVec.rotateRight, BitVec.rotateRightAux, Nat.mod_eq_of_lt h]
  rfl

theorem toBitVec_smallSigma0 (x : UInt32) :
    (rotateRight x 7 ^^^ rotateRight x 18 ^^^ (x >>> 3)).toBitVec = Sha256.smallSigma0 x.toBitVec := by
  rw [UInt32.toBitVec_xor, UInt32.toBitVec_xor, toBitVec_rotateRight x (by decide),
    toBitVec_rotateRight x (by decide)]
  rfl

theorem toBitVec_smallSigma1 (x : UInt32) :
    (rotateRight x 17 ^^^ rotateRight x 19 ^^^ (x >>> 10)).toBitVec = Sha256.smallSigma1 x.toBitVec := by
  rw [UInt32.toBitVec_xor, UInt32.toBitVec_xor, toBitVec_rotateRight x (by decide),
    toBitVec_rotateRight x (by decide)]
  rfl

theorem toBitVec_bigSigma0 (x : UInt32) :
    (rotateRight x 2 ^^^ rotateRight x 13 ^^^ rotateRight x 22).toBitVec =
      Sha256.bigSigma0 x.toBitVec := by
  rw [UInt32.toBitVec_xor, UInt32.toBitVec_xor, toBitVec_rotateRight x (by decide),
    toBitVec_rotateRight x (by decide), toBitVec_rotateRight x (by decide)]
  rfl

theorem toBitVec_bigSigma1 (x : UInt32) :
    (rotateRight x 6 ^^^ rotateRight x 11 ^^^ rotateRight x 25).toBitVec =
      Sha256.bigSigma1 x.toBitVec := by
  rw [UInt32.toBitVec_xor, UInt32.toBitVec_xor, toBitVec_rotateRight x (by decide),
    toBitVec_rotateRight x (by decide), toBitVec_rotateRight x (by decide)]
  rfl

/-! ## The schedule -/

/-- The first `n` words of the schedule of a block are there. -/
structure Scheduled (block : ℕ → Sha256.Word) (n : ℕ) (w : List UInt32) : Prop where
  length : w.length = 64
  word : ∀ t < n, w[t]? = some ⟨Sha256.schedule block t⟩

/-- The words of a block are read from a chunk. -/
def Reads (chunk : List UInt8) (block : ℕ → Sha256.Word) : Prop :=
  ∀ j < 16, ∃ a b c d, chunk[4 * j]? = some a ∧ chunk[4 * j + 1]? = some b ∧ chunk[4 * j + 2]? = some c ∧
    chunk[4 * j + 3]? = some d ∧ (fromBeBytes a b c d).toBitVec = block j

section Schedule

variable {block : ℕ → Sha256.Word} {chunk : List UInt8} {w : List UInt32} {n : ℕ}

theorem Scheduled.set (h : Scheduled block n w) (hn : n < 64) {x : UInt32}
    (hx : x.toBitVec = Sha256.schedule block n) : Scheduled block (n + 1) (w.set n x) := by
  refine ⟨by rw [List.length_set, h.length], fun t ht => ?_⟩
  rw [List.getElem?_set]
  by_cases heq : n = t
  · rw [if_pos heq, if_pos (by rw [h.length]; exact hn), ← heq, ← hx]
  · rw [if_neg heq]
    exact h.word t (by omega)

theorem Scheduled.loadWord (hchunk : Reads chunk block) (h : Scheduled block n w) (hn : n < 16) :
    ∃ w', Rust.loadWord chunk w n = some w' ∧ Scheduled block (n + 1) w' := by
  obtain ⟨a, b, c, d, ha, hb, hc, hd, hword⟩ := hchunk n hn
  refine ⟨w.set n (fromBeBytes a b c d), by simp only [Rust.loadWord, ha, hb, hc, hd]; rfl, ?_⟩
  refine h.set (by omega) ?_
  rw [hword, Sha256.schedule_of_lt block hn]

/-- The words behind are there. -/
theorem Scheduled.back (h : Scheduled block n w) {k : ℕ} (hk : k ≤ n) (hpos : 0 < k) :
    back w n k = some ⟨Sha256.schedule block (n - k)⟩ := by
  rw [Rust.back, if_pos hk]
  exact h.word _ (by omega)

theorem Scheduled.extendWord (h : Scheduled block n w) (hlow : 16 ≤ n) (hhigh : n < 64) :
    ∃ w', Rust.extendWord w n = some w' ∧ Scheduled block (n + 1) w' := by
  unfold Rust.extendWord
  rw [h.back (by omega) (by decide), h.back (by omega) (by decide), h.back (by omega) (by decide),
    h.back (by omega) (by decide)]
  simp only [Option.bind_eq_bind, Option.bind_some, h.length, hhigh, if_true]
  refine ⟨_, rfl, h.set hhigh ?_⟩
  rw [UInt32.toBitVec_add, UInt32.toBitVec_add, UInt32.toBitVec_add, toBitVec_smallSigma0,
    toBitVec_smallSigma1, Sha256.schedule_of_le block hlow]
  -- the terms of the standard stand in another order
  dsimp only
  ac_rfl

/-- Both loops fill the schedule. -/
theorem schedule_run (hchunk : Reads chunk block) :
    ∃ w w', (List.range 16).foldlM (Rust.loadWord chunk) (List.replicate 64 0) = some w ∧
      (List.range' 16 48).foldlM Rust.extendWord w = some w' ∧ Scheduled block 64 w' := by
  have hstart : Scheduled block 0 (List.replicate 64 0) := ⟨List.length_replicate, fun t ht => by omega⟩
  obtain ⟨w, hw, hloaded⟩ := Loops.run_range (P := Scheduled block)
    (fun i s hi hs => hs.loadWord hchunk hi) hstart
  obtain ⟨w', hw', hfilled⟩ := Loops.run_up (n := 48) (P := Scheduled block)
    (fun i s hlow hi hs => hs.extendWord hlow (by omega)) hloaded
  exact ⟨w, w', hw, hw', hfilled⟩

end Schedule

/-! ## The rounds -/

section Rounds

variable {block : ℕ → Sha256.Word} {chunk : List UInt8} {w : List UInt32}

/-- A round is the one of the standard. -/
theorem round_spec (hw : Scheduled block 64 w) (v : Words) {i : ℕ} (hi : i < 64) :
    ∃ v', round w v i = some v' ∧
      v'.standard = Sha256.round (Sha256.schedule block) v.standard i := by
  unfold round
  rw [K_spec i hi, hw.word i hi]
  refine ⟨_, rfl, ?_⟩
  simp only [Words.standard, Sha256.round, UInt32.toBitVec_add, toBitVec_bigSigma0, toBitVec_bigSigma1]
  rfl

theorem compress_spec (hchunk : Reads chunk block) (h : Words) :
    ∃ h', compress h chunk = some h' ∧ h'.standard = Sha256.compress h.standard block := by
  obtain ⟨w, w', hw, hw', hfilled⟩ := schedule_run hchunk
  obtain ⟨v, hv, hrounds⟩ := Loops.run_range (f := round w') (n := 64)
    (P := fun i v => v.standard = (List.range i).foldl (Sha256.round (Sha256.schedule block)) h.standard)
    (fun i v hi hP => by
      obtain ⟨v', hv', hround⟩ := round_spec hfilled v hi
      refine ⟨v', hv', ?_⟩
      rw [hround, hP, List.range_succ, List.foldl_append]
      rfl)
    (s := h) rfl
  unfold compress
  rw [hw, Option.bind_eq_bind, Option.bind_some, hw', Option.bind_eq_bind, Option.bind_some, hv]
  refine ⟨_, rfl, ?_⟩
  rw [Sha256.compress, ← hrounds]
  simp only [Words.standard, UInt32.toBitVec_add, BitVec.add_comm]

end Rounds

/-! ## Padding -/

theorem padZeros_eq (msg : List UInt8) :
    padZeros msg = msg ++ List.replicate ((120 - msg.length % 64) % 64) 0 := by
  induction msg using padZeros.induct with
  | case1 msg h ih =>
    rw [padZeros, if_pos h, ih, List.append_assoc]
    simp only [List.length_append, List.length_cons, List.length_nil]
    congr 1
    rw [List.singleton_append, ← List.replicate_succ]
    congr 1
    omega
  | case2 msg h =>
    rw [padZeros, if_neg h, show (120 - msg.length % 64) % 64 = 0 by omega]
    simp

theorem padded_eq (data : List UInt8) : padded data = data ++ [0x80] ++
    List.replicate ((119 - data.length % 64) % 64) 0 ++ bytesBe 8 (UInt64.ofNat data.length * 8).toNat := by
  rw [padded, padZeros_eq, be64_eq, List.length_append,
    show (120 - (data.length + [(0x80 : UInt8)].length) % 64) % 64 = (119 - data.length % 64) % 64 by
      rw [List.length_singleton]
      omega]

theorem length_padded (data : List UInt8) :
    (padded data).length = data.length + 1 + (119 - data.length % 64) % 64 + 8 := by
  rw [padded_eq, List.length_append, List.length_append, List.length_append, List.length_replicate,
    length_bytesBe, List.length_singleton]

/-- The padded message is as short as it can be. -/
theorem length_padded_isLeast (data : List UInt8) :
    IsLeast {n | 64 ∣ n ∧ data.length + 9 ≤ n} (padded data).length := by
  rw [length_padded]
  constructor
  · constructor <;> omega
  · rintro n ⟨hdvd, hle⟩
    omega

theorem bitLength {n : ℕ} (h : n < 2 ^ 61) : (UInt64.ofNat n * 8).toNat = 8 * n := by
  rw [UInt64.toNat_mul, UInt64.toNat_ofNat', show (8 : UInt64).toNat = 8 from rfl]
  omega

/-- The bits of the padded message are those of the standard. -/
theorem bits_padded {data : List UInt8} (h : data.length < 2 ^ 61) :
    Sha256.bits (padded data) = Sha256.pad (Sha256.bits data) := by
  have hone : Sha256.bits [0x80] = [true] ++ List.replicate 7 false := by decide
  have hlength : Sha256.bits (bytesBe 8 (8 * data.length)) = Sha256.lengthBits (8 * data.length) :=
    Sha256.bits_digits 8 (8 * data.length)
  have hzeros : Sha256.zeroBits (8 * data.length) = 7 + 8 * ((119 - data.length % 64) % 64) := by
    unfold Sha256.zeroBits
    omega
  rw [padded_eq, bitLength h, Sha256.bits_append, Sha256.bits_append, Sha256.bits_append, hone, hlength,
    Sha256.bits_replicate, Sha256.pad, Sha256.length_bits, hzeros, ← List.replicate_append_replicate]
  simp only [List.append_assoc]

/-- The padding loses nothing. -/
theorem padded_inj {data data' : List UInt8} (h : data.length < 2 ^ 61) (h' : data'.length < 2 ^ 61)
    (heq : padded data = padded data') : data = data' := by
  rw [padded_eq, padded_eq, bitLength h, bitLength h'] at heq
  obtain ⟨hrest, hlength⟩ := List.append_inj' heq (by rw [length_bytesBe, length_bytesBe])
  have hsame := bytesBe_inj (by omega) (by omega) hlength
  rw [List.append_assoc, List.append_assoc] at hrest
  exact (List.append_inj hrest (by omega)).1

/-! ## Chunks -/

theorem chunksExact_eq (l : List UInt8) :
    chunksExact l = (List.range (l.length / 64)).map fun i => (l.drop (64 * i)).take 64 := by
  induction l using chunksExact.induct with
  | case1 l h ih =>
    rw [chunksExact, if_pos h, ih, List.length_drop, show l.length / 64 = (l.length - 64) / 64 + 1 by omega,
      List.range_succ_eq_map, List.map_cons, List.map_map]
    congr 1
    refine List.map_congr_left fun i _ => ?_
    rw [Function.comp_apply, List.drop_drop, show 64 * i.succ = 64 + 64 * i by omega]
  | case2 l h =>
    rw [chunksExact, if_neg h, show l.length / 64 = 0 by omega]
    rfl

/-- Nothing is left over, and each byte stands in one chunk. -/
theorem chunksExact_flatten {l : List UInt8} (h : 64 ∣ l.length) : (chunksExact l).flatten = l := by
  induction l using chunksExact.induct with
  | case1 l hle ih =>
    rw [chunksExact, if_pos hle, List.flatten_cons, ih (by rw [List.length_drop]; omega),
      List.take_append_drop]
  | case2 l hlt =>
    have hnil : l = [] := List.length_eq_zero_iff.mp (by omega)
    rw [chunksExact, if_neg hlt, hnil]
    rfl

theorem length_of_mem_chunksExact {l chunk : List UInt8} (h : chunk ∈ chunksExact l) :
    chunk.length = 64 := by
  rw [chunksExact_eq, List.mem_map] at h
  obtain ⟨i, hi, rfl⟩ := h
  rw [List.mem_range] at hi
  rw [List.length_take, List.length_drop]
  omega

theorem take_four {l : List UInt8} {n : ℕ} (h : n + 3 < l.length) :
    (l.drop n).take 4 = [l[n], l[n + 1], l[n + 2], l[n + 3]] := by
  rw [List.drop_eq_getElem_cons (by omega), List.drop_eq_getElem_cons (by omega),
    List.drop_eq_getElem_cons (by omega), List.drop_eq_getElem_cons (by omega)]
  rfl

/-- A chunk of a message has the words of a block of its bits. -/
theorem reads_block {l : List UInt8} {i : ℕ} (hi : i < l.length / 64) :
    Reads ((l.drop (64 * i)).take 64) (Sha256.blockWord (Sha256.bits l) i) := by
  intro j hj
  have hbyte : ∀ (k : ℕ) (_ : k < 64) (_ : 64 * i + k < l.length),
      ((l.drop (64 * i)).take 64)[k]? = some l[64 * i + k] := by
    intro k hk hl
    rw [List.getElem?_take_of_lt hk, List.getElem?_drop, List.getElem?_eq_getElem]
  refine ⟨_, _, _, _, hbyte _ (by omega) (by omega), hbyte _ (by omega) (by omega),
    hbyte _ (by omega) (by omega), hbyte _ (by omega) (by omega), ?_⟩
  have hfour : (Sha256.bits (l.drop (64 * i + 4 * j))).take 32 =
      Sha256.bits ((l.drop (64 * i + 4 * j)).take 4) := Sha256.bits_take 4 _
  rw [Sha256.blockWord, show 512 * i + 32 * j = 8 * (64 * i + 4 * j) by omega, Sha256.bits_drop, hfour,
    take_four (by omega), Sha256.bitsValue_bits]
  rfl

/-! ## Digests -/

/-- The chunks are compressed as the blocks of the standard. -/
theorem chunks_run (l : List UInt8) : ∃ h, (chunksExact l).foldlM compress H0 = some h ∧
    h.standard = Sha256.hashValue (Sha256.bits l) := by
  obtain ⟨h, hrun, hvalue⟩ := Loops.run_range (n := l.length / 64)
    (f := fun h i => compress h ((l.drop (64 * i)).take 64))
    (P := fun i h => h.standard = (List.range i).foldl
      (fun s i => Sha256.compress s (Sha256.blockWord (Sha256.bits l) i)) Sha256.initial)
    (fun i h hi hP => by
      obtain ⟨h', hh', hnext⟩ := compress_spec (reads_block hi) h
      refine ⟨h', hh', ?_⟩
      rw [hnext, hP, List.range_succ, List.foldl_append]
      rfl)
    H0_spec
  refine ⟨h, ?_, ?_⟩
  · rw [chunksExact_eq, List.foldlM_map]
    exact hrun
  · rw [Sha256.hashValue, Sha256.length_bits, show 8 * l.length / 512 = l.length / 64 by omega, hvalue]

/-- The words are written one behind the other. -/
theorem writeWord_run (words : List UInt32) {i : ℕ} {done rest : List UInt8} (hdone : done.length = 4 * i)
    (hrest : rest.length = 4 * words.length) :
    (words.zipIdx i).foldlM writeWord (done ++ rest) = some (done ++ words.flatMap be32) := by
  induction words generalizing i done rest with
  | nil =>
    rw [List.length_eq_zero_iff.mp hrest]
    rfl
  | cons word words ih =>
    rw [List.length_cons] at hrest
    have hwrite : writeWord (done ++ rest) (word, i) = some ((done ++ be32 word) ++ rest.drop 4) := by
      rw [writeWord, if_pos (by rw [List.length_append]; dsimp only; omega)]
      dsimp only
      rw [← hdone, List.take_left, List.drop_append, List.drop_eq_nil_of_le (by omega), List.nil_append,
        Nat.add_sub_cancel_left]
    have hlength : (done ++ be32 word).length = 4 * (i + 1) := by
      rw [List.length_append, hdone, be32, Nat.mul_succ]
      rfl
    rw [List.zipIdx_cons, List.foldlM_cons, hwrite, Option.bind_eq_bind, Option.bind_some,
      ih hlength (by rw [List.length_drop]; omega), List.flatMap_cons, List.append_assoc]

theorem bits_be32 (n : UInt32) : Sha256.bits (be32 n) = Sha256.wordBits n.toBitVec := by
  rw [be32_eq]
  exact Sha256.bits_digits 4 n.toNat

/-- The hash function of the port is the standard's on all messages whose length in bits can be written down, and
panics on none of them. The padded message is the shortest that the padding allows, it determines the message,
and its chunks are the blocks that are compressed one after the other. -/
theorem sha256_is_standard {data : List UInt8} (h : data.length < 2 ^ 61) :
    (∃ digest, sha256 data = some digest ∧ Sha256.bits digest = Sha256.digest (Sha256.bits data)) ∧
    Sha256.bits (padded data) = Sha256.pad (Sha256.bits data) ∧
    IsLeast {n | 64 ∣ n ∧ data.length + 9 ≤ n} (padded data).length ∧
    (∀ data', data'.length < 2 ^ 61 → padded data' = padded data → data' = data) ∧
    (chunksExact (padded data)).flatten = padded data ∧
    ∀ chunk ∈ chunksExact (padded data), chunk.length = 64 := by
  refine ⟨?_, bits_padded h, length_padded_isLeast data, fun data' h' => padded_inj h' h,
    chunksExact_flatten (length_padded_isLeast data).1.1, fun chunk => length_of_mem_chunksExact⟩
  obtain ⟨v, hrun, hvalue⟩ := chunks_run (padded data)
  refine ⟨[v.a, v.b, v.c, v.d, v.e, v.f, v.g, v.hh].flatMap be32, ?_, ?_⟩
  · have hwrite := @writeWord_run [v.a, v.b, v.c, v.d, v.e, v.f, v.g, v.hh] 0 [] (List.replicate 32 0) rfl
      List.length_replicate
    rw [List.nil_append, List.nil_append] at hwrite
    rw [sha256, hrun, Option.bind_eq_bind, Option.bind_some, hwrite]
  · have hwords : (Sha256.hashValue (Sha256.pad (Sha256.bits data))).words =
        [v.a.toBitVec, v.b.toBitVec, v.c.toBitVec, v.d.toBitVec, v.e.toBitVec, v.f.toBitVec, v.g.toBitVec,
          v.hh.toBitVec] := by
      rw [← bits_padded h, ← hvalue]
      rfl
    rw [Sha256.digest, hwords]
    simp only [List.flatMap_cons, List.flatMap_nil, List.append_nil, Sha256.bits_append, bits_be32]

/-- The message of three letters. -/
theorem sha256_abc : ∃ digest, sha256 [0x61, 0x62, 0x63] = some digest ∧
    Sha256.bits digest = Sha256.digest (Sha256.bits [0x61, 0x62, 0x63]) :=
  (sha256_is_standard (by decide)).1

end Rust

end ParadigmTerra.Ports
