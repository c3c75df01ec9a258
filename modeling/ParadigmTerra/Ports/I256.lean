import ParadigmTerra.Dsl.Evaluate
import ParadigmTerra.Ports.U256

/-!
# Signed 256-bit integers of the constraint language's port in Rust

A sign and a magnitude in four words. The definitions follow the code, on the loops of the unsigned integers;
`none` stands for a panic, and `some none` for the code's `None`.

`i256_exact` says that on integers in range nothing panics and the operations are exact, with the errors of the
evaluator otherwise (`Refines`). `uDivmod_spec` is the long division: the invariant `Dividing` says that quotient
and remainder are those of the bits that were read. It needs a divisor of at most `2 ^ 255`, because the
remainder is doubled in four words. The rest is arithmetic of signs, `signedOf`, on which no word is mentioned.
-/

namespace ParadigmTerra.Ports.Rust

open Text Limbs

/-- A signed integer: sign and magnitude. -/
structure I256 where
  neg : Bool
  mag : Words4
  deriving DecidableEq

namespace I256

/-! ## The code -/

/-- `2 ^ 255` -/
def POW255 : Words4 := #v[0, 0, 0, 0x8000000000000000]

def uIsZero (a : Words4) : Bool := a = Vector.replicate 4 0

def uCmp (a b : Words4) : Option Ordering := cmpFrom a b 4

def uAdd (a b : Words4) : Option (Words4 × Bool) := do
  let (out, carry) ← addLoop a b
  pure (out, decide (carry ≠ 0))

/-- The difference of two integers of which the first is not smaller. -/
def uSub (a b : Words4) : Option Words4 := do
  let (out, _) ← subLoop a b
  pure out

/-- A row of a product. Its carry is added to the word behind it. -/
def mulRow (a b : Words4) (out : Words8) (i : ℕ) : Option Words8 := do
  let (out, carry) ← (List.range 4).foldlM (mulStep a b i) (out, 0)
  let o ← out[i + 4]?
  let sum ← u64 (o.toNat + carry % 2 ^ 64)
  write out (i + 4) sum

def uMul (a b : Words4) : Option Words8 := (List.range 4).foldlM (mulRow a b) (Vector.replicate 8 0)

def getBit (a : Words4) (i : ℕ) : Option UInt64 := do
  let x ← a[i / 64]?
  pure ((x >>> UInt64.ofNat (i % 64)) &&& 1)

def shlStep (a : Words4) (s : Words4 × UInt64) (i : ℕ) : Option (Words4 × UInt64) := do
  let x ← a[i]?
  let out ← write s.1 i ((x <<< 1) ||| s.2)
  pure (out, x >>> 63)

/-- The double. -/
def shl1 (a : Words4) : Option Words4 := do
  let (out, _) ← (List.range 4).foldlM (shlStep a) (Vector.replicate 4 0, 0)
  pure out

/-- One bit of the long division of `a` by `b`, on quotient and remainder. -/
def divStep (a b : Words4) (s : Words4 × Words4) (i : ℕ) : Option (Words4 × Words4) := do
  let r ← shl1 s.2
  let r0 ← r[0]?
  let bit ← getBit a i
  let r ← write r 0 (r0 ||| bit)
  let ord ← uCmp r b
  if ord ≠ .lt then do
    let r ← uSub r b
    let x ← s.1[i / 64]?
    let q ← write s.1 (i / 64) (x ||| (1 <<< UInt64.ofNat (i % 64)))
    pure (q, r)
  else pure (s.1, r)

def uDivmod (a b : Words4) : Option (Words4 × Words4) :=
  (List.range 256).reverse.foldlM (divStep a b) (Vector.replicate 4 0, Vector.replicate 4 0)

def inRange (neg : Bool) (mag : Words4) : Option Bool := do
  match ← uCmp mag POW255 with
  | .lt => pure true
  | .eq => pure neg
  | .gt => pure false

def make (neg : Bool) (mag : Words4) : Option (Option I256) := do
  let ok ← inRange neg mag
  if !ok then pure none else pure (some ⟨neg && !uIsZero mag, mag⟩)

def addRaw (negA : Bool) (magA : Words4) (negB : Bool) (magB : Words4) : Option (Option I256) := do
  if negA = negB then do
    let (sum, carry) ← uAdd magA magB
    if carry then pure none else make negA sum
  else do
    match ← uCmp magA magB with
    | .eq => pure (some ⟨false, Vector.replicate 4 0⟩)
    | .gt => do
      let d ← uSub magA magB
      make negA d
    | .lt => do
      let d ← uSub magB magA
      make negB d

def fromU64 (n : UInt64) : I256 := ⟨false, #v[n, 0, 0, 0]⟩

def isZero (x : I256) : Bool := uIsZero x.mag

/-- The magnitude with one more digit. -/
def pushDigit (mag : Words4) (d : UInt16) : Option (Option Words4) := do
  let prod ← uMul mag #v[10, 0, 0, 0]
  if highWords prod ≠ 0 then pure none
  else do
    let digit ← if 48 ≤ d.toNat then some (d.toNat - 48) else none
    let (sum, carry) ← uAdd (lowHalf prod) #v[UInt64.ofNat digit, 0, 0, 0]
    if carry then pure none else pure (some sum)

/-- `s.strip_prefix('-')` -/
def splitMinus : Str → Bool × Str
  | 45 :: rest => (true, rest)
  | s => (false, s)

def fromDecStr (s : Str) : Option (Option I256) := do
  let (neg, digits) := splitMinus s
  if digits = [] ∨ ¬digits.all isDigit then pure none
  else do
    match ← foldDigits pushDigit (Vector.replicate 4 0) digits with
    | none => pure none
    | some mag => make neg mag

def add (x o : I256) : Option (Option I256) := addRaw x.neg x.mag o.neg o.mag

def sub (x o : I256) : Option (Option I256) :=
  addRaw x.neg x.mag (if uIsZero o.mag then false else !o.neg) o.mag

def mul (x o : I256) : Option (Option I256) := do
  let prod ← uMul x.mag o.mag
  if highWords prod ≠ 0 then pure none
  else make (x.neg ^^ o.neg) (lowHalf prod)

def div (x o : I256) : Option (Option I256) := do
  let (q, _) ← uDivmod x.mag o.mag
  make (x.neg ^^ o.neg) q

/-- The remainder that is not negative. A `None` of the sum is a panic. -/
def euclidMod (x o : I256) : Option I256 := do
  let (_, r) ← uDivmod x.mag o.mag
  if x.neg && !uIsZero r then do
    let sum ← addRaw true r false o.mag
    sum
  else pure ⟨false, r⟩

def cmp (x o : I256) : Option Ordering :=
  match x.neg, o.neg with
  | false, true => pure .gt
  | true, false => pure .lt
  | false, false => uCmp x.mag o.mag
  | true, true => uCmp o.mag x.mag

/-- `checked` of the evaluator. -/
def checked : Option I256 → Except Throw I256
  | some x => pure x
  | none => runtimeError "OVERFLOW"

/-- The evaluator's arithmetic on two integers. -/
def evalArith (op : ArithOp) (l r : I256) : Option (Except Throw I256) :=
  match op with
  | .add => (add l r).map checked
  | .sub => (sub l r).map checked
  | .mul => (mul l r).map checked
  | .div => if r.isZero then pure (runtimeError "DIV_BY_ZERO") else (div l r).map checked
  | .mod => if r.isZero then pure (runtimeError "MOD_BY_ZERO") else (euclidMod l r).map pure

/-! ## Magnitudes -/

section Compare

variable {m n : ℕ}

theorem compare_of_lt (h : m < n) : compare m n = .lt := compare_lt_iff_lt.mpr h

theorem compare_of_eq (h : m = n) : compare m n = .eq := compare_eq_iff_eq.mpr h

theorem compare_of_gt (h : n < m) : compare m n = .gt := compare_gt_iff_gt.mpr h

end Compare

theorem uIsZero_iff {a : Words4} : uIsZero a = true ↔ value a = 0 := by
  rw [uIsZero, decide_eq_true_eq, value_eq_zero_iff]

theorem uCmp_spec (a b : Words4) : uCmp a b = some (compare (value a) (value b)) := by
  rw [uCmp, cmpFrom_spec a b le_rfl, ← value_eq_low, ← value_eq_low]

theorem uAdd_spec (a b : Words4) : ∃ out carry, uAdd a b = some (out, carry) ∧
    (carry = false ∧ value out = value a + value b ∨ carry = true ∧ 2 ^ 256 ≤ value a + value b) := by
  obtain ⟨out, carry, hrun, hsum⟩ := addLoop_spec a b
  refine ⟨out, decide (carry ≠ 0), by rw [uAdd, hrun]; rfl, ?_⟩
  by_cases h : carry = 0
  · rw [h, Nat.zero_mul, Nat.add_zero] at hsum
    exact .inl ⟨by rw [h]; rfl, hsum⟩
  · exact .inr ⟨decide_eq_true h, by omega⟩

theorem uSub_spec {a b : Words4} (h : value b ≤ value a) :
    ∃ out, uSub a b = some out ∧ value out = value a - value b := by
  obtain ⟨out, borrow, hrun, hdiff⟩ := subLoop_spec a b
  refine ⟨out, by rw [uSub, hrun]; rfl, ?_⟩
  omega

theorem mulRow_spec {a b : Words4} {i : ℕ} (hi : i < 4) {out : Words8} (h : value out = low a i * value b) :
    ∃ out', mulRow a b out i = some out' ∧ value out' = low a (i + 1) * value b := by
  obtain ⟨row, carry, hrow, hsum, hcarry, habove⟩ := row_spec (a := a) (b := b) hi out
  have hzero : limb row (i + 4) = 0 := habove.trans (limb_row h)
  have hi8 : i + 4 < 8 := by omega
  obtain ⟨o, ho, hov⟩ := read row hi8
  have hozero : o.toNat = 0 := hov.trans hzero
  obtain ⟨w, hw, hup⟩ := write_spec row hi8 (UInt64.ofNat carry)
  refine ⟨w, ?_, ?_⟩
  · rw [mulRow, hrow]
    simp only [Option.bind_eq_bind, Option.bind_some]
    rw [ho, Option.bind_some, hozero, Nat.zero_add, Nat.mod_eq_of_lt hcarry, u64_of_lt hcarry,
      Option.bind_some, hw]
  · have hvalue := hup.value hi8
    rw [hzero, Nat.zero_mul, Nat.add_zero, UInt64.toNat_ofNat', Nat.mod_eq_of_lt hcarry] at hvalue
    rw [hvalue, hsum, h, low]
    ring

theorem uMul_spec (a b : Words4) : ∃ out, uMul a b = some out ∧ value out = value a * value b := by
  have hstart : value (Vector.replicate 8 0) = low a 0 * value b := by
    rw [value_replicate, low, Nat.zero_mul]
  exact Loops.run_range (n := 4) (f := mulRow a b) (P := fun i out => value out = low a i * value b)
    (fun i out hi h => mulRow_spec hi h) hstart

/-- The words of a product that do not fit are all zero just if the product fits. -/
theorem high_or (res : Words8) : highWords res ≠ 0 ↔ ¬value res < 2 ^ 256 := by
  rw [highWords, (high_spec res).1, ne_eq, UInt64.or_eq_zero_iff, UInt64.or_eq_zero_iff, UInt64.or_eq_zero_iff]
  tauto

/-! ## Bits -/

/-- A bit below a number whose bits are further up is added to it. -/
theorem or_bit {x m b k : ℕ} (hx : x = 2 ^ k * m) (hb : b < 2 ^ k) : x ||| b = x + b := by
  rw [hx, Nat.mul_comm, ← Nat.shiftLeft_eq, Nat.shiftLeft_add_eq_or_of_lt hb]

theorem getBit_spec (a : Words4) {i : ℕ} (hi : i < 256) :
    ∃ x, getBit a i = some x ∧ x.toNat = value a / 2 ^ i % 2 := by
  obtain ⟨x, hx, hxv⟩ := read a (show i / 64 < 4 by omega)
  refine ⟨(x >>> UInt64.ofNat (i % 64)) &&& 1, by rw [getBit, hx]; rfl, ?_⟩
  have hshift : (UInt64.ofNat (i % 64)).toNat % 64 = i % 64 := by
    rw [UInt64.toNat_ofNat']
    omega
  rw [UInt64.toNat_and, UInt64.toNat_shiftRight, hshift, show (1 : UInt64).toNat = 1 from rfl,
    Nat.and_one_is_mod, Nat.shiftRight_eq_div_pow, hxv, limb_eq, ← Nat.toNat_testBit, ← Nat.toNat_testBit,
    Nat.testBit_mod_two_pow, decide_eq_true (show i % 64 < 64 by omega), Bool.true_and, place,
    Nat.testBit_div_two_pow, show i % 64 + 64 * (i / 64) = i by omega]

/-- What has been doubled up to the `i`th word. -/
def Doubled (a : Words4) (i : ℕ) (s : Words4 × UInt64) : Prop :=
  low s.1 i + s.2.toNat * place i = 2 * low a i ∧ s.2.toNat ≤ 1

theorem shlStep_spec {a : Words4} {i : ℕ} {s : Words4 × UInt64} (hi : i < 4) (h : Doubled a i s) :
    ∃ t, shlStep a s i = some t ∧ Doubled a (i + 1) t := by
  obtain ⟨heq, hcarry⟩ := h
  obtain ⟨x, hx, hxv⟩ := read a hi
  have hxlt := limb_lt a i
  obtain ⟨w, hw, hup⟩ := write_spec s.1 hi ((x <<< 1) ||| s.2)
  have htop : (x >>> 63).toNat = limb a i / 2 ^ 63 := by
    rw [UInt64.toNat_shiftRight, show (63 : UInt64).toNat % 64 = 63 from rfl, Nat.shiftRight_eq_div_pow, hxv]
  have hword : ((x <<< 1) ||| s.2).toNat = 2 * (limb a i % 2 ^ 63) + s.2.toNat := by
    have heven : (x <<< 1).toNat = 2 ^ 1 * (limb a i % 2 ^ 63) := by
      rw [UInt64.toNat_shiftLeft, show (1 : UInt64).toNat % 64 = 1 from rfl, Nat.shiftLeft_eq, hxv]
      omega
    rw [UInt64.toNat_or, or_bit heven (by omega), heven, pow_one]
  refine ⟨(w, x >>> 63), ?_, ?_, ?_⟩
  · rw [shlStep, hx, Option.bind_eq_bind, Option.bind_some, hw]
    rfl
  · have hsplit := Nat.mod_add_div (limb a i) (2 ^ 63)
    dsimp only
    rw [low, low, hup.low_below le_rfl, hup.same, hword, htop, place_succ]
    linear_combination heq + 2 * place i * hsplit
  · dsimp only
    rw [htop]
    omega

theorem shl1_spec {a : Words4} (h : value a < 2 ^ 255) : ∃ out, shl1 a = some out ∧ value out = 2 * value a := by
  obtain ⟨s, hs, hsum, hcarry⟩ := Loops.run_range (n := 4) (f := shlStep a) (P := Doubled a)
    (fun i s hi hP => shlStep_spec hi hP) (s := (Vector.replicate 4 0, 0)) ⟨rfl, Nat.zero_le 1⟩
  refine ⟨s.1, by rw [shl1, hs]; rfl, ?_⟩
  rw [← value_eq_low, ← value_eq_low, place_four] at hsum
  omega

/-! ## Long division -/

/-- Quotient and remainder of the bits from the `i`th on. -/
def Dividing (a b : Words4) (i : ℕ) (s : Words4 × Words4) : Prop :=
  ∃ Q, value s.1 = 2 ^ i * Q ∧ value a / 2 ^ i = Q * value b + value s.2 ∧ value s.2 < value b

/-- The remainder with the next bit. -/
theorem nextBit_spec {r : Words4} (hr : value r < 2 ^ 255) {bit : UInt64} (hbit : bit.toNat < 2) :
    ∃ r1 r0 r2, shl1 r = some r1 ∧ r1[0]? = some r0 ∧ write r1 0 (r0 ||| bit) = some r2 ∧
      value r2 = 2 * value r + bit.toNat := by
  obtain ⟨r1, hr1, hdouble⟩ := shl1_spec hr
  obtain ⟨r0, hr0, hr0v⟩ := read r1 (show 0 < 4 by decide)
  obtain ⟨r2, hr2, hup⟩ := write_spec r1 (show 0 < 4 by decide) (r0 ||| bit)
  refine ⟨r1, r0, r2, hr1, hr0, hr2, ?_⟩
  have heven : r0.toNat = 2 ^ 1 * (value r % 2 ^ 63) := by
    rw [hr0v, limb_eq, place_zero, Nat.div_one, hdouble]
    omega
  have hvalue := hup.value (show 0 < 4 by decide)
  rw [UInt64.toNat_or, or_bit heven hbit, ← hr0v, place_zero, Nat.mul_one, Nat.mul_one, hdouble] at hvalue
  omega

/-- A bit of the quotient is set below those that are there. -/
theorem setBit_spec {q : Words4} {i Q : ℕ} (hi : i < 256) (hq : value q = 2 ^ (i + 1) * Q) :
    ∃ x q', q[i / 64]? = some x ∧ write q (i / 64) (x ||| (1 <<< UInt64.ofNat (i % 64))) = some q' ∧
      value q' = 2 ^ i * (2 * Q + 1) := by
  have hi4 : i / 64 < 4 := by omega
  obtain ⟨x, hx, hxv⟩ := read q hi4
  obtain ⟨q', hq', hup⟩ := write_spec q hi4 (x ||| (1 <<< UInt64.ofNat (i % 64)))
  refine ⟨x, q', hx, hq', ?_⟩
  have hpow : 2 ^ i = place (i / 64) * 2 ^ (i % 64) := by
    rw [place, ← pow_add, show 64 * (i / 64) + i % 64 = i by omega]
  have hword : x.toNat = 2 ^ (i % 64 + 1) * (Q % 2 ^ (63 - i % 64)) := by
    have hwidth : (2 : ℕ) ^ 64 = 2 ^ (i % 64 + 1) * 2 ^ (63 - i % 64) := by
      rw [← pow_add, show i % 64 + 1 + (63 - i % 64) = 64 by omega]
    rw [hxv, limb_eq, hq, pow_succ, hpow, hwidth, ← Nat.mul_mod_mul_left, pow_succ,
      show place (i / 64) * 2 ^ (i % 64) * 2 * Q = 2 ^ (i % 64) * 2 * Q * place (i / 64) by ring,
      Nat.mul_div_cancel _ (place_pos _)]
  have hbit : (1 <<< UInt64.ofNat (i % 64) : UInt64).toNat = 2 ^ (i % 64) := by
    have hlt : (2 : ℕ) ^ (i % 64) < 2 ^ 64 := Nat.pow_lt_pow_right (by decide) (by omega)
    have hmod : (UInt64.ofNat (i % 64)).toNat % 64 = i % 64 := by
      rw [UInt64.toNat_ofNat']
      omega
    rw [UInt64.toNat_shiftLeft, hmod, show (1 : UInt64).toNat = 1 from rfl, Nat.one_shiftLeft,
      Nat.mod_eq_of_lt hlt]
  have hlower : (2 : ℕ) ^ (i % 64) < 2 ^ (i % 64 + 1) := Nat.pow_lt_pow_right (by decide) (by omega)
  have hvalue := hup.value hi4
  rw [UInt64.toNat_or, hbit, or_bit hword hlower, hxv, hq, pow_succ, hpow] at hvalue
  rw [hpow]
  linear_combination hvalue

theorem divStep_spec {a b : Words4} (hb : value b ≤ 2 ^ 255) {i : ℕ} {s : Words4 × Words4} (hi : i < 256)
    (h : Dividing a b (i + 1) s) : ∃ t, divStep a b s i = some t ∧ Dividing a b i t := by
  obtain ⟨Q, hq, hquot, hrem⟩ := h
  obtain ⟨bit, hbit, hbitv⟩ := getBit_spec a hi
  obtain ⟨r1, r0, r2, hr1, hr0, hr2, hr2v⟩ := @nextBit_spec s.2 (by omega) bit (by omega)
  have hbits : value a / 2 ^ i = 2 * (value a / 2 ^ (i + 1)) + bit.toNat := by
    rw [hbitv, pow_succ, ← Nat.div_div_eq_div_mul]
    omega
  have hrun : divStep a b s i = (do
      let ord ← uCmp r2 b
      if ord ≠ .lt then do
        let r ← uSub r2 b
        let x ← s.1[i / 64]?
        let q ← write s.1 (i / 64) (x ||| (1 <<< UInt64.ofNat (i % 64)))
        pure (q, r)
      else pure (s.1, r2)) := by
    unfold divStep
    simp only [Option.bind_eq_bind]
    rw [hr1, Option.bind_some, hr0, Option.bind_some, hbit, Option.bind_some, hr2, Option.bind_some]
  simp only [Option.bind_eq_bind] at hrun
  rw [hrun, uCmp_spec, Option.bind_some]
  by_cases hlt : value r2 < value b
  · rw [compare_of_lt hlt, if_neg (by decide)]
    refine ⟨_, rfl, 2 * Q, ?_, ?_, hlt⟩
    · rw [hq, pow_succ]
      ring
    · rw [hbits, hquot, hr2v]
      ring
  · rw [if_pos (fun h => hlt (compare_lt_iff_lt.mp h))]
    obtain ⟨r3, hr3, hr3v⟩ := uSub_spec (Nat.le_of_not_lt hlt)
    obtain ⟨x, q', hx, hq', hq'v⟩ := setBit_spec hi hq
    rw [hr3, Option.bind_some, hx, Option.bind_some, hq']
    refine ⟨_, rfl, 2 * Q + 1, hq'v, ?_, ?_⟩
    · have hle := Nat.le_of_not_lt hlt
      dsimp only
      rw [hbits, hquot, hr3v, Nat.add_mul, Nat.one_mul, Nat.mul_add, ← Nat.mul_assoc]
      omega
    · dsimp only
      omega

/-- The long division. -/
theorem uDivmod_spec {a b : Words4} (hpos : 0 < value b) (hb : value b ≤ 2 ^ 255) :
    ∃ q r, uDivmod a b = some (q, r) ∧ value q = value a / value b ∧ value r = value a % value b := by
  have hstart : Dividing a b 256 (Vector.replicate 4 0, Vector.replicate 4 0) := by
    have hlt := low_lt a 4
    rw [← value_eq_low, place_four] at hlt
    refine ⟨0, ?_, ?_, ?_⟩
    · rw [value_replicate, Nat.mul_zero]
    · rw [value_replicate, Nat.div_eq_of_lt hlt, Nat.zero_mul]
    · rw [value_replicate]
      exact hpos
  obtain ⟨s, hs, Q, hq, hquot, hrem⟩ := Loops.run_down (P := Dividing a b) (fun i s hi h => divStep_spec hb hi h)
    hstart
  rw [pow_zero, Nat.one_mul] at hq
  rw [pow_zero, Nat.div_one] at hquot
  refine ⟨s.1, s.2, hs, ?_, ?_⟩
  · rw [hq, hquot, Nat.mul_comm, Nat.mul_add_div hpos, Nat.div_eq_of_lt hrem, Nat.add_zero]
  · rw [hquot, Nat.mul_comm, Nat.mul_add_mod, Nat.mod_eq_of_lt hrem]

/-! ## Signs -/

/-- A sign and an amount. -/
def signedOf (neg : Bool) (m : ℕ) : ℤ := if neg then -(m : ℤ) else m

@[simp] theorem signedOf_false (m : ℕ) : signedOf false m = m := rfl

@[simp] theorem signedOf_true (m : ℕ) : signedOf true m = -(m : ℤ) := rfl

theorem signedOf_zero (neg : Bool) : signedOf neg 0 = 0 := by
  cases neg <;> rfl

theorem range_iff {n : ℤ} : inInt256Range n = true ↔ -2 ^ 255 ≤ n ∧ n < 2 ^ 255 := by
  rw [inInt256Range, Bool.and_eq_true, decide_eq_true_eq, decide_eq_true_eq, INT256_MIN, INT256_MAX]
  omega

/-- There is one negative integer more. -/
theorem signedOf_range (neg : Bool) (m : ℕ) :
    inInt256Range (signedOf neg m) = true ↔ m ≤ 2 ^ 255 ∧ (neg = false → m < 2 ^ 255) := by
  rw [range_iff]
  cases neg
  · rw [signedOf_false]
    simp only [forall_const]
    omega
  · rw [signedOf_true]
    simp only [reduceCtorEq, false_implies, and_true]
    omega

theorem signedOf_overflow (neg : Bool) {m : ℕ} (h : 2 ^ 256 ≤ m) :
    inInt256Range (signedOf neg m) = false := by
  rw [Bool.eq_false_iff, ne_eq, signedOf_range]
  omega

theorem signedOf_inj {neg neg' : Bool} {m m' : ℕ} (h : signedOf neg m = signedOf neg' m')
    (hm : neg = true → m ≠ 0) (hm' : neg' = true → m' ≠ 0) : neg = neg' ∧ m = m' := by
  cases neg <;> cases neg' <;> simp only [signedOf_false, signedOf_true] at h
  · exact ⟨rfl, by omega⟩
  · exact absurd (by omega) (hm' rfl)
  · exact absurd (by omega) (hm rfl)
  · exact ⟨rfl, by omega⟩

theorem signedOf_add (neg : Bool) (m m' : ℕ) : signedOf neg m + signedOf neg m' = signedOf neg (m + m') := by
  cases neg
  · simp only [signedOf_false, Nat.cast_add]
  · simp only [signedOf_true, Nat.cast_add]
    ring

theorem signedOf_not (neg : Bool) (m : ℕ) : signedOf (!neg) m = -signedOf neg m := by
  cases neg <;> simp

/-- With the other sign, the smaller amount is subtracted. -/
theorem signedOf_add_not (neg : Bool) {m m' : ℕ} (h : m' ≤ m) :
    signedOf neg m + signedOf (!neg) m' = signedOf neg (m - m') := by
  rw [signedOf_not]
  cases neg
  · rw [signedOf_false, signedOf_false, signedOf_false]
    omega
  · rw [signedOf_true, signedOf_true, signedOf_true]
    omega

theorem signedOf_mul (neg neg' : Bool) (m m' : ℕ) :
    signedOf neg m * signedOf neg' m' = signedOf (neg ^^ neg') (m * m') := by
  cases neg <;> cases neg' <;> simp

theorem signedOf_tdiv (neg neg' : Bool) (m m' : ℕ) :
    (signedOf neg m).tdiv (signedOf neg' m') = signedOf (neg ^^ neg') (m / m') := by
  cases neg <;> cases neg' <;> simp

/-- The remainder does not depend on the divisor's sign. -/
theorem signedOf_emod (neg : Bool) (n : ℤ) (m : ℕ) : n % signedOf neg m = n % (m : ℤ) := by
  cases neg <;> simp

/-- The remainder of a negative integer that is not a multiple. -/
theorem neg_emod {m m' : ℕ} (h : m % m' ≠ 0) : -(m : ℤ) % (m' : ℤ) = -((m % m' : ℕ) : ℤ) + m' := by
  rw [Int.neg_emod, if_neg, Int.natAbs_natCast, Int.natCast_mod]
  · ring
  · rw [Int.natCast_dvd_natCast, Nat.dvd_iff_mod_eq_zero]
    exact h

theorem neg_emod_zero {m m' : ℕ} (h : m % m' = 0) : -(m : ℤ) % (m' : ℤ) = 0 := by
  rw [Int.neg_emod, if_pos]
  rw [Int.natCast_dvd_natCast, Nat.dvd_iff_mod_eq_zero]
  exact h

/-! ## Integers -/

/-- The integer that it stands for. -/
def toInt (x : I256) : ℤ := signedOf x.neg (value x.mag)

/-- An integer in range, whose zero has no sign. -/
structure Valid (x : I256) : Prop where
  range : inInt256Range x.toInt = true
  normal : x.neg = true → value x.mag ≠ 0

/-- A checked result is the integer, or nothing exactly if the integer is out of range. -/
def Exact (r : Option (Option I256)) (n : ℤ) : Prop :=
  (∃ x : I256, r = some (some x) ∧ x.Valid ∧ x.toInt = n) ∨ (r = some none ∧ inInt256Range n = false)

theorem toInt_eq (x : I256) : x.toInt = signedOf x.neg (value x.mag) := by
  rw [toInt]

theorem toInt_mk (neg : Bool) (mag : Words4) : toInt ⟨neg, mag⟩ = signedOf neg (value mag) := by
  rw [toInt]

/-- The magnitude of an integer in range. -/
theorem Valid.mag_le {x : I256} (h : x.Valid) : value x.mag ≤ 2 ^ 255 := by
  have hrange := h.range
  rw [toInt, signedOf_range] at hrange
  exact hrange.1

/-- An integer has one representation. -/
theorem Valid.inj {x y : I256} (hx : x.Valid) (hy : y.Valid) (h : x.toInt = y.toInt) : x = y := by
  rw [toInt, toInt] at h
  obtain ⟨hneg, hmag⟩ := signedOf_inj h hx.normal hy.normal
  cases x
  cases y
  rw [mk.injEq]
  exact ⟨hneg, value_inj hmag⟩

theorem value_POW255 : value POW255 = 2 ^ 255 := by decide +kernel

theorem inRange_spec (neg : Bool) (mag : Words4) :
    inRange neg mag = some (inInt256Range (signedOf neg (value mag))) := by
  rw [inRange, uCmp_spec, value_POW255, Option.bind_eq_bind, Option.bind_some]
  generalize value mag = m
  have hrange := signedOf_range neg m
  rcases lt_trichotomy m (2 ^ 255) with hlt | heq | hgt
  · rw [compare_of_lt hlt, hrange.mpr ⟨le_of_lt hlt, fun _ => hlt⟩]
    rfl
  · rw [compare_of_eq heq]
    cases neg
    · rw [Bool.eq_false_iff.mpr fun hyes => absurd ((hrange.mp hyes).2 rfl) (not_lt_of_ge (ge_of_eq heq))]
      rfl
    · rw [hrange.mpr ⟨le_of_eq heq, fun h => nomatch h⟩]
      rfl
  · rw [compare_of_gt hgt,
      Bool.eq_false_iff.mpr fun hyes => absurd (hrange.mp hyes).1 (not_le_of_gt hgt)]
    rfl

theorem make_spec (neg : Bool) (mag : Words4) : Exact (make neg mag) (signedOf neg (value mag)) := by
  rw [make, inRange_spec, Option.bind_eq_bind, Option.bind_some]
  cases hin : inInt256Range (signedOf neg (value mag)) with
  | false => exact .inr ⟨rfl, hin⟩
  | true =>
    have hint : toInt ⟨neg && !uIsZero mag, mag⟩ = signedOf neg (value mag) := by
      rw [toInt_mk]
      cases hzero : uIsZero mag with
      | true => rw [uIsZero_iff.mp hzero, signedOf_zero, signedOf_zero]
      | false => rw [Bool.not_false, Bool.and_true]
    refine .inl ⟨_, rfl, ⟨?_, ?_⟩, hint⟩
    · rw [hint, hin]
    · intro hneg hvalue
      rw [uIsZero_iff.mpr hvalue, Bool.not_true, Bool.and_false] at hneg
      cases hneg

/-! ## Arithmetic -/

/-- Zero is written without words. -/
theorem exact_zero : Exact (some (some ⟨false, Vector.replicate 4 0⟩)) 0 := by
  have hzero : toInt ⟨false, Vector.replicate 4 0⟩ = 0 := by
    rw [toInt_mk, value_replicate, signedOf_zero]
  refine .inl ⟨_, rfl, ⟨?_, fun h => nomatch h⟩, hzero⟩
  rw [hzero]
  decide

theorem addRaw_spec (negA : Bool) (magA : Words4) (negB : Bool) (magB : Words4) :
    Exact (addRaw negA magA negB magB) (signedOf negA (value magA) + signedOf negB (value magB)) := by
  unfold addRaw
  by_cases hsame : negA = negB
  · obtain ⟨sum, carry, hrun, hsum⟩ := uAdd_spec magA magB
    rw [if_pos hsame, hrun, Option.bind_eq_bind, Option.bind_some, ← hsame, signedOf_add]
    rcases hsum with ⟨rfl, hsum⟩ | ⟨rfl, hsum⟩
    · rw [← hsum]
      exact make_spec negA sum
    · exact .inr ⟨rfl, signedOf_overflow negA hsum⟩
  · have hopposite : negB = !negA := by
      cases negA <;> cases negB <;> simp at hsame ⊢
    rw [if_neg hsame, uCmp_spec, Option.bind_eq_bind, Option.bind_some, hopposite]
    rcases lt_trichotomy (value magA) (value magB) with hlt | heq | hgt
    · obtain ⟨d, hd, hdv⟩ := uSub_spec (le_of_lt hlt)
      have hsum := signedOf_add_not (!negA) (le_of_lt hlt)
      rw [Bool.not_not, add_comm] at hsum
      rw [compare_of_lt hlt, hsum, ← hdv]
      dsimp only
      rw [hd, Option.bind_eq_bind, Option.bind_some]
      exact make_spec (!negA) d
    · rw [compare_of_eq heq, signedOf_not, heq, add_neg_cancel]
      exact exact_zero
    · obtain ⟨d, hd, hdv⟩ := uSub_spec (le_of_lt hgt)
      rw [compare_of_gt hgt, signedOf_add_not negA (le_of_lt hgt), ← hdv]
      dsimp only
      rw [hd, Option.bind_eq_bind, Option.bind_some]
      exact make_spec negA d

variable (x y : I256)

theorem add_spec : Exact (add x y) (x.toInt + y.toInt) := by
  rw [add, toInt_eq, toInt_eq]
  exact addRaw_spec x.neg x.mag y.neg y.mag

theorem sub_spec : Exact (sub x y) (x.toInt - y.toInt) := by
  have hneg : signedOf (if uIsZero y.mag then false else !y.neg) (value y.mag) = -y.toInt := by
    rw [toInt_eq]
    cases hzero : uIsZero y.mag with
    | true => rw [uIsZero_iff.mp hzero, signedOf_zero, signedOf_zero, neg_zero]
    | false => rw [if_neg (by decide), signedOf_not]
  rw [sub, sub_eq_add_neg, ← hneg, toInt_eq]
  exact addRaw_spec x.neg x.mag (if uIsZero y.mag then false else !y.neg) y.mag

theorem mul_spec : Exact (mul x y) (x.toInt * y.toInt) := by
  obtain ⟨prod, hrun, hprod⟩ := uMul_spec x.mag y.mag
  rw [mul, hrun, Option.bind_eq_bind, Option.bind_some, toInt_eq, toInt_eq, signedOf_mul, ← hprod]
  by_cases h : value prod < 2 ^ 256
  · rw [if_neg (fun hyes => (high_or prod).mp hyes h), ← (high_spec prod).2 h]
    exact make_spec (x.neg ^^ y.neg) (lowHalf prod)
  · rw [if_pos ((high_or prod).mpr h)]
    exact .inr ⟨rfl, signedOf_overflow _ (le_of_not_gt h)⟩

variable {x y}

theorem mag_pos (hne : y.toInt ≠ 0) : 0 < value y.mag := by
  rw [Nat.pos_iff_ne_zero]
  intro hzero
  rw [toInt_eq, hzero, signedOf_zero] at hne
  exact hne rfl

theorem div_spec (hy : y.Valid) (hne : y.toInt ≠ 0) : Exact (div x y) (x.toInt.tdiv y.toInt) := by
  obtain ⟨q, r, hrun, hq, -⟩ := uDivmod_spec (a := x.mag) (mag_pos hne) hy.mag_le
  rw [div, hrun, Option.bind_eq_bind, Option.bind_some, toInt_eq, toInt_eq, signedOf_tdiv, ← hq]
  exact make_spec (x.neg ^^ y.neg) q

/-- A sum of a negative remainder and its divisor is in range. -/
theorem remainder_range {r m : ℕ} (hr : r < m) (hm : m ≤ 2 ^ 255) (hne : r ≠ 0) :
    inInt256Range (-(r : ℤ) + m) = true := by
  rw [range_iff]
  omega

theorem euclidMod_spec (hy : y.Valid) (hne : y.toInt ≠ 0) :
    ∃ z, euclidMod x y = some z ∧ z.Valid ∧ z.toInt = x.toInt % y.toInt := by
  have hpos := mag_pos hne
  have hle := hy.mag_le
  obtain ⟨q, r, hrun, -, hr⟩ := uDivmod_spec (a := x.mag) hpos hle
  have hrlt : value r < value y.mag := by
    rw [hr]
    exact Nat.mod_lt _ hpos
  rw [euclidMod, hrun, Option.bind_eq_bind, Option.bind_some, toInt_eq y, signedOf_emod, toInt_eq x]
  dsimp only
  by_cases h : (x.neg && !uIsZero r) = true
  · rw [if_pos h]
    obtain ⟨hneg, hzero⟩ := Bool.and_eq_true_iff.mp h
    have hrne : value r ≠ 0 := by
      intro hr0
      rw [uIsZero_iff.mpr hr0] at hzero
      cases hzero
    have hmod : value x.mag % value y.mag ≠ 0 := by
      rw [← hr]
      exact hrne
    rw [hneg, signedOf_true, neg_emod hmod, ← hr]
    rcases addRaw_spec true r false y.mag with ⟨z, hz, hvalid, hzint⟩ | ⟨-, hout⟩
    · rw [signedOf_true, signedOf_false] at hzint
      exact ⟨z, by rw [hz, Option.bind_eq_bind, Option.bind_some], hvalid, hzint⟩
    · -- the sum is below the divisor, so that `expect` finds it
      rw [signedOf_true, signedOf_false, remainder_range hrlt hle hrne] at hout
      cases hout
  · rw [if_neg h]
    have hint : signedOf x.neg (value x.mag) % (value y.mag : ℤ) = signedOf false (value r) := by
      rw [signedOf_false]
      cases hneg : x.neg with
      | false => rw [signedOf_false, hr, Int.natCast_mod]
      | true =>
        have hr0 : value r = 0 := by
          rw [hneg, Bool.true_and, Bool.not_eq_true, Bool.not_eq_false'] at h
          exact uIsZero_iff.mp h
        rw [signedOf_true, neg_emod_zero (hr.symm.trans hr0), hr0, Nat.cast_zero]
    refine ⟨_, rfl, ⟨?_, fun hfalse => nomatch hfalse⟩, by rw [hint, toInt_mk]⟩
    rw [toInt_mk, signedOf_range]
    exact ⟨le_trans (le_of_lt hrlt) hle, fun _ => lt_of_lt_of_le hrlt hle⟩

/-- The comparison by signs and amounts. -/
def compareSigned (neg neg' : Bool) (m m' : ℕ) : Ordering :=
  match neg, neg' with
  | false, true => .gt
  | true, false => .lt
  | false, false => compare m m'
  | true, true => compare m' m

theorem compare_signedOf {neg neg' : Bool} {m m' : ℕ} (hm : neg = true → m ≠ 0) (hm' : neg' = true → m' ≠ 0) :
    compare (signedOf neg m) (signedOf neg' m') = compareSigned neg neg' m m' := by
  unfold compareSigned
  cases neg <;> cases neg'
  · dsimp only
    rw [signedOf_false, signedOf_false]
    rcases lt_trichotomy m m' with h | h | h
    · rw [compare_of_lt h, compare_lt_iff_lt]
      omega
    · rw [compare_of_eq h, compare_eq_iff_eq]
      omega
    · rw [compare_of_gt h, compare_gt_iff_gt]
      omega
  · have hne := hm' rfl
    rw [signedOf_false, signedOf_true, compare_gt_iff_gt]
    omega
  · have hne := hm rfl
    rw [signedOf_false, signedOf_true, compare_lt_iff_lt]
    omega
  · dsimp only
    rw [signedOf_true, signedOf_true]
    rcases lt_trichotomy m m' with h | h | h
    · rw [compare_of_gt h, compare_gt_iff_gt]
      omega
    · rw [compare_of_eq h.symm, compare_eq_iff_eq]
      omega
    · rw [compare_of_lt h, compare_lt_iff_lt]
      omega

theorem cmp_spec (hx : x.Valid) (hy : y.Valid) : cmp x y = some (compare x.toInt y.toInt) := by
  have hcompare := compare_signedOf hx.normal hy.normal
  rw [← toInt_eq, ← toInt_eq] at hcompare
  rw [cmp, hcompare]
  cases x.neg <;> cases y.neg
  · exact uCmp_spec x.mag y.mag
  · rfl
  · rfl
  · exact uCmp_spec y.mag x.mag

/-! ## Texts -/

/-- The magnitude of one word. -/
theorem value_word (x : UInt64) : value (#v[x, 0, 0, 0] : Words4) = x.toNat := by
  simp [value, low, limb]

theorem pushDigit_spec (mag : Words4) (d : UInt16) (hd : isDigit d = true) :
    Fits (pushDigit mag d) (10 * value mag + (d.toNat - 48)) := by
  simp only [isDigit, Bool.and_eq_true, decide_eq_true_eq] at hd
  obtain ⟨prod, hrun, hprod⟩ := uMul_spec mag #v[10, 0, 0, 0]
  rw [value_word, show (10 : UInt64).toNat = 10 from rfl] at hprod
  unfold pushDigit
  rw [hrun, Option.bind_eq_bind, Option.bind_some]
  by_cases h : value prod < 2 ^ 256
  · rw [if_neg (fun hyes => (high_or prod).mp hyes h), if_pos hd.1, Option.bind_eq_bind, Option.bind_some]
    obtain ⟨sum, carry, hadd, hsum⟩ := uAdd_spec (lowHalf prod) #v[UInt64.ofNat (d.toNat - 48), 0, 0, 0]
    rw [value_word, UInt64.toNat_ofNat', Nat.mod_eq_of_lt (by omega), (high_spec prod).2 h, hprod,
      Nat.mul_comm] at hsum
    dsimp only
    rw [hadd, Option.bind_eq_bind, Option.bind_some]
    rcases hsum with ⟨rfl, hsum⟩ | ⟨rfl, hsum⟩
    · exact .inl ⟨sum, rfl, hsum⟩
    · exact .inr ⟨rfl, hsum⟩
  · rw [if_pos ((high_or prod).mpr h)]
    rw [hprod] at h
    exact .inr ⟨rfl, by omega⟩

/-- Digits, possibly behind a minus sign, of an integer. -/
def Spells (s : Str) (n : ℤ) : Prop :=
  ∃ neg digits, s = (if neg then 45 :: digits else digits) ∧ digits ≠ [] ∧ (∀ u ∈ digits, isDigit u = true) ∧
    n = signedOf neg (digitsValue digits)

/-- The text is split at its minus sign, since that is not a digit. -/
theorem splitMinus_spells {s : Str} {n : ℤ} : Spells s n ↔
    (splitMinus s).2 ≠ [] ∧ (∀ u ∈ (splitMinus s).2, isDigit u = true) ∧
      n = signedOf (splitMinus s).1 (digitsValue (splitMinus s).2) := by
  have hback : s = if (splitMinus s).1 then 45 :: (splitMinus s).2 else (splitMinus s).2 := by
    unfold splitMinus
    split <;> rfl
  constructor
  · rintro ⟨neg, digits, rfl, hne, hdigits, rfl⟩
    cases neg with
    | true => exact ⟨hne, hdigits, rfl⟩
    | false =>
      have hsplit : splitMinus digits = (false, digits) := by
        unfold splitMinus
        split
        · exact absurd (hdigits 45 List.mem_cons_self) (by decide)
        · rfl
      rw [if_neg Bool.false_ne_true, hsplit]
      exact ⟨hne, hdigits, rfl⟩
  · rintro ⟨hne, hdigits, rfl⟩
    exact ⟨(splitMinus s).1, (splitMinus s).2, hback, hne, hdigits, rfl⟩

/-- Exactly the texts of integers in range are read, and each as its integer. -/
theorem fromDecStr_spec (s : Str) : ∃ r, fromDecStr s = some r ∧ (∀ x, r = some x → x.Valid) ∧
    ∀ n, (∃ x, r = some x ∧ x.toInt = n) ↔ Spells s n ∧ inInt256Range n = true := by
  unfold fromDecStr
  by_cases h : (splitMinus s).2 = [] ∨ ¬(splitMinus s).2.all isDigit
  · refine ⟨none, by dsimp only; rw [if_pos h]; rfl, fun x hx => (nomatch hx), fun n => iff_of_false ?_ ?_⟩
    · rintro ⟨x, hx, -⟩
      cases hx
    · rintro ⟨hspells, -⟩
      obtain ⟨hne, hdigits, -⟩ := splitMinus_spells.mp hspells
      rcases h with hnil | hall
      · exact hne hnil
      · exact hall (List.all_eq_true.mpr hdigits)
  · have hread := h
    simp only [not_or, not_not] at h
    obtain ⟨hne, hall⟩ := h
    have hdigits : ∀ u ∈ (splitMinus s).2, isDigit u = true := List.all_eq_true.mp hall
    have hspells : ∀ n, Spells s n ↔ n = signedOf (splitMinus s).1 (digitsValue (splitMinus s).2) := by
      intro n
      rw [splitMinus_spells]
      exact ⟨fun hn => hn.2.2, fun hn => ⟨hne, hdigits, hn⟩⟩
    dsimp only
    rw [if_neg hread]
    rcases foldDigits_zero pushDigit_spec hdigits with ⟨mag, hmag, hvalue⟩ | ⟨hnone, hle⟩
    · rw [hmag, Option.bind_eq_bind, Option.bind_some]
      rw [← hvalue] at hspells
      rcases make_spec (splitMinus s).1 mag with ⟨x, hx, hvalid, hint⟩ | ⟨hx, hrange⟩
      · refine ⟨some x, hx, fun y hy => ?_, fun n => ?_⟩
        · rw [← Option.some.inj hy]
          exact hvalid
        · rw [hspells, ← hint]
          constructor
          · rintro ⟨y, hy, rfl⟩
            rw [← Option.some.inj hy]
            exact ⟨rfl, hvalid.range⟩
          · rintro ⟨rfl, -⟩
            exact ⟨x, rfl, rfl⟩
      · refine ⟨none, hx, fun y hy => (nomatch hy), fun n => iff_of_false ?_ ?_⟩
        · rintro ⟨y, hy, -⟩
          cases hy
        · rintro ⟨hn, hin⟩
          rw [(hspells n).mp hn, hrange] at hin
          cases hin
    · rw [hnone, Option.bind_eq_bind, Option.bind_some]
      refine ⟨none, rfl, fun y hy => (nomatch hy), fun n => iff_of_false ?_ ?_⟩
      · rintro ⟨y, hy, -⟩
        cases hy
      · rintro ⟨hn, hin⟩
        rw [(hspells n).mp hn, signedOf_overflow _ hle] at hin
        cases hin

/-! ## The evaluator -/

theorem toInt_eq_zero (x : I256) : x.isZero = true ↔ x.toInt = 0 := by
  rw [isZero, uIsZero_iff, toInt_eq]
  cases x.neg
  · rw [signedOf_false, Nat.cast_eq_zero]
  · rw [signedOf_true, neg_eq_zero, Nat.cast_eq_zero]

/-- A quotient of integers in range is out of range in one case. -/
theorem tdiv_range {l r : ℤ} (hl : inInt256Range l = true) (hr : r ≠ 0) :
    inInt256Range (l.tdiv r) = true ↔ ¬(l = INT256_MIN ∧ r = -1) := by
  have habs : (l.tdiv r).natAbs = l.natAbs / r.natAbs := Int.natAbs_tdiv l r
  rw [range_iff] at hl ⊢
  unfold INT256_MIN
  constructor
  · rintro ⟨-, hlt⟩ ⟨rfl, rfl⟩
    rw [Int.tdiv_neg, Int.tdiv_one] at hlt
    omega
  · intro hno
    by_cases hone : r.natAbs = 1
    · rcases (show r = 1 ∨ r = -1 by omega) with rfl | rfl
      · rw [Int.tdiv_one]
        exact hl
      · rw [Int.tdiv_neg, Int.tdiv_one]
        omega
    · have hhalf : l.natAbs / r.natAbs ≤ l.natAbs / 2 := Nat.div_le_div_left (by omega) (by decide)
      rw [← habs] at hhalf
      omega

theorem euclideanMod_eq (l : ℤ) {r : ℤ} (hr : r ≠ 0) : euclideanMod l r = l % r := by
  have hnonneg := Int.emod_nonneg l hr
  have hlt := Int.emod_lt_abs l hr
  rw [Int.abs_eq_natAbs] at hlt
  unfold euclideanMod
  rw [Int.tmod_eq_emod]
  dsimp only
  split
  · rw [Int.natCast_zero, sub_zero, if_neg (not_lt.mpr hnonneg)]
  · split
    · split
      · omega
      · omega
    · omega

/-- What the evaluator returns: the integer itself, or the error of the language. -/
def Refines (o : Option (Except Throw I256)) (v : Except Throw Value) : Prop :=
  ∃ r : Except Throw I256, o = some r ∧ (∀ z, r = .ok z → z.Valid) ∧ v = r.map fun z => Value.int256 z.toInt

/-- A checked result is `checkRange` of the integer. -/
theorem Exact.refines {r : Option (Option I256)} {n : ℤ} (h : Exact r n) :
    Refines (r.map checked) (checkRange n) := by
  rcases h with ⟨x, rfl, hvalid, rfl⟩ | ⟨rfl, hrange⟩
  · refine ⟨.ok x, rfl, fun z hz => ?_, ?_⟩
    · rw [← Except.ok.inj hz]
      exact hvalid
    · rw [checkRange, if_pos hvalid.range]
      rfl
  · refine ⟨runtimeError "OVERFLOW", rfl, fun z hz => (nomatch hz), ?_⟩
    rw [checkRange, if_neg (Bool.eq_false_iff.mp hrange)]
    rfl

theorem evalArith_spec (op : ArithOp) (hx : x.Valid) (hy : y.Valid) :
    Refines (evalArith op x y) (ParadigmTerra.evalArith op x.toInt y.toInt) := by
  cases op with
  | add => exact (add_spec x y).refines
  | sub => exact (sub_spec x y).refines
  | mul => exact (mul_spec x y).refines
  | div =>
    rw [evalArith, ParadigmTerra.evalArith]
    by_cases hzero : y.toInt = 0
    · rw [if_pos ((toInt_eq_zero y).mpr hzero), if_pos hzero]
      exact ⟨_, rfl, fun z hz => (by cases hz), rfl⟩
    · rw [if_neg (fun h => hzero ((toInt_eq_zero y).mp h)), if_neg hzero]
      have hquot := (div_spec (x := x) hy hzero).refines
      have hrange := tdiv_range hx.range hzero
      rw [checkRange] at hquot
      by_cases hmin : x.toInt = INT256_MIN ∧ y.toInt = -1
      · rw [if_neg (fun h => hrange.mp h hmin)] at hquot
        rw [if_pos hmin]
        exact hquot
      · rw [if_pos (hrange.mpr hmin)] at hquot
        rw [if_neg hmin]
        exact hquot
  | mod =>
    rw [evalArith, ParadigmTerra.evalArith]
    by_cases hzero : y.toInt = 0
    · rw [if_pos ((toInt_eq_zero y).mpr hzero), if_pos hzero]
      exact ⟨_, rfl, fun z hz => (by cases hz), rfl⟩
    · rw [if_neg (fun h => hzero ((toInt_eq_zero y).mp h)), if_neg hzero]
      obtain ⟨z, hz, hvalid, hint⟩ := euclidMod_spec (x := x) hy hzero
      refine ⟨.ok z, by rw [hz]; rfl, fun w hw => ?_, ?_⟩
      · rw [← Except.ok.inj hw]
        exact hvalid
      · rw [euclideanMod_eq _ hzero, ← hint]
        rfl

/-! ## Exactness of all operations -/

/-- Each integer in range is an operand. -/
theorem exists_operand {n : ℤ} (h : inInt256Range n = true) : ∃ x : I256, x.Valid ∧ x.toInt = n := by
  obtain ⟨r, -, hvalid, hread⟩ := fromDecStr_spec
    (if n < 0 then 45 :: decimalNat n.natAbs else decimalNat n.natAbs)
  obtain ⟨hne, hdigits⟩ := decimalNat_digits n.natAbs
  have hspells : Spells (if n < 0 then 45 :: decimalNat n.natAbs else decimalNat n.natAbs) n := by
    refine ⟨decide (n < 0), decimalNat n.natAbs, ?_, hne, hdigits, ?_⟩
    · simp only [decide_eq_true_eq]
    · rw [digitsValue_decimalNat, signedOf]
      simp only [decide_eq_true_eq]
      split <;> omega
  obtain ⟨x, hx, hint⟩ := (hread n).mpr ⟨hspells, h⟩
  exact ⟨x, hvalid x hx, hint⟩

/-- The signed integers are exact. Each integer in range has one representation, and every operation on such
integers returns: the sum, the difference, the product and the truncated quotient if it is in range and the
overflow otherwise, the remainder that is not negative, and the order of the integers. The evaluator's operations are
those of the integers, with the errors of the language on overflow and on a zero divisor. A text is read exactly if
it is a decimal in range, with or without a minus sign. -/
theorem i256_exact :
    (∀ n, inInt256Range n = true → ∃ x : I256, x.Valid ∧ x.toInt = n ∧ ∀ y : I256, y.Valid → y.toInt = n → y = x) ∧
    (∀ x y : I256, x.Valid → y.Valid →
      Exact (add x y) (x.toInt + y.toInt) ∧ Exact (sub x y) (x.toInt - y.toInt) ∧
      Exact (mul x y) (x.toInt * y.toInt) ∧
      (y.toInt ≠ 0 → Exact (div x y) (x.toInt.tdiv y.toInt) ∧
        ∃ z, euclidMod x y = some z ∧ z.Valid ∧ z.toInt = x.toInt % y.toInt) ∧
      cmp x y = some (compare x.toInt y.toInt) ∧
      ∀ op, Refines (evalArith op x y) (ParadigmTerra.evalArith op x.toInt y.toInt)) ∧
    ∀ s, ∃ r, fromDecStr s = some r ∧ (∀ x, r = some x → x.Valid) ∧
      ∀ n, (∃ x, r = some x ∧ x.toInt = n) ↔ Spells s n ∧ inInt256Range n = true := by
  refine ⟨?_, ?_, fromDecStr_spec⟩
  · intro n hn
    obtain ⟨x, hx, hint⟩ := exists_operand hn
    exact ⟨x, hx, hint, fun y hy hyint => hy.inj hx (hyint.trans hint.symm)⟩
  · intro x y hx hy
    exact ⟨add_spec x y, sub_spec x y, mul_spec x y, fun hne => ⟨div_spec hy hne, euclidMod_spec hy hne⟩,
      cmp_spec hx hy, fun op => evalArith_spec op hx hy⟩

/-- The smallest integer by minus one overflows. -/
theorem i256_exact_smallest : ∃ x y : I256, x.toInt = -2 ^ 255 ∧ y.toInt = -1 ∧ div x y = some none := by
  obtain ⟨x, hx, hxint, -⟩ := i256_exact.1 (-2 ^ 255) (by decide)
  obtain ⟨y, hy, hyint, -⟩ := i256_exact.1 (-1) (by decide)
  obtain ⟨-, -, -, hdiv, -⟩ := i256_exact.2.1 x y hx hy
  have hquot := (hdiv (by rw [hyint]; decide)).1
  rw [hxint, hyint] at hquot
  rcases hquot with ⟨z, -, hz, hzint⟩ | ⟨hnone, -⟩
  · have hrange := hz.range
    rw [hzint] at hrange
    exact absurd hrange (by decide)
  · exact ⟨x, y, hxint, hyint, hnone⟩

end I256

end ParadigmTerra.Ports.Rust
