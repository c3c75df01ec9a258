import ParadigmTerra.Canonical.Numerals
import ParadigmTerra.Lib.Limbs
import ParadigmTerra.Lib.Loops
import ParadigmTerra.Ports.Reducer

/-!
# Unsigned 256-bit integers of the ports in Rust

The ports in Rust compute with four words of 64 bits, by hand. The definitions follow the code with its loops,
and `none` stands for a panic: an index out of bounds, or a sum outside of its integer type. A result of type
`Option` is inside of that, so that `some none` is the code's `None`.

`u256_exact` says that the operations never panic and are exact: they return the integer, or `None` exactly when
it is not below `2 ^ 256`, and texts and integers are translated into one another. Each loop carries an
equation about the first words (`addStep_spec`, `subStep_spec`, `mulStep_spec`); the products also need that the
words that are not reached yet are zero.
-/

namespace ParadigmTerra.Ports.Rust

open Text Limbs

/-! ## The code -/

/-- `[u64; 4]` -/
abbrev Words4 := Vector UInt64 4

/-- `[u64; 8]` -/
abbrev Words8 := Vector UInt64 8

/-- The comparison of the first `k` words, from the last one on. -/
def cmpFrom (a b : Words4) : ℕ → Option Ordering
  | 0 => pure .eq
  | k + 1 => do
    let x ← a[k]?
    let y ← b[k]?
    match compare x.toNat y.toNat with
    | .eq => cmpFrom a b k
    | ord => pure ord

/-- One word of a sum, with the carry. -/
def addStep (a b : Words4) (s : Words4 × ℕ) (i : ℕ) : Option (Words4 × ℕ) := do
  let x ← a[i]?
  let y ← b[i]?
  let sum ← u128 (x.toNat + y.toNat)
  let sum ← u128 (sum + s.2)
  let out ← write s.1 i (UInt64.ofNat sum)
  pure (out, sum >>> 64)

def addLoop (a b : Words4) : Option (Words4 × ℕ) :=
  (List.range 4).foldlM (addStep a b) (Vector.replicate 4 0, 0)

/-- One word of a difference, with the borrow. -/
def subStep (a b : Words4) (s : Words4 × ℤ) (i : ℕ) : Option (Words4 × ℤ) := do
  let x ← a[i]?
  let y ← b[i]?
  let d ← i128 (x.toNat - y.toNat)
  let d ← i128 (d - s.2)
  if d < 0 then do
    let d ← i128 (d + 2 ^ 64)
    let out ← write s.1 i (UInt64.ofInt d)
    pure (out, 1)
  else do
    let out ← write s.1 i (UInt64.ofInt d)
    pure (out, 0)

def subLoop (a b : Words4) : Option (Words4 × ℤ) :=
  (List.range 4).foldlM (subStep a b) (Vector.replicate 4 0, 0)

/-- One word of the `i`th row of a product, with the carry. -/
def mulStep (a b : Words4) (i : ℕ) (s : Words8 × ℕ) (j : ℕ) : Option (Words8 × ℕ) := do
  let o ← s.1[i + j]?
  let x ← a[i]?
  let y ← b[j]?
  let cur ← u128 (x.toNat * y.toNat)
  let cur ← u128 (o.toNat + cur)
  let cur ← u128 (cur + s.2)
  let out ← write s.1 (i + j) (UInt64.ofNat cur)
  pure (out, cur >>> 64)

/-- One word of the tenfold, with the carry. -/
def timesTen (s : Words4 × ℕ) (i : ℕ) : Option (Words4 × ℕ) := do
  let x ← s.1[i]?
  let cur ← u128 (x.toNat * 10)
  let cur ← u128 (cur + s.2)
  let mag ← write s.1 i (UInt64.ofNat cur)
  pure (mag, cur >>> 64)

/-- One word of the sum with a small number, which is the first carry. -/
def plusCarry (s : Words4 × ℕ) (i : ℕ) : Option (Words4 × ℕ) := do
  let x ← s.1[i]?
  let cur ← u128 (x.toNat + s.2)
  let mag ← write s.1 i (UInt64.ofNat cur)
  pure (mag, cur >>> 64)

/-- One word of the quotient by ten, with the remainder of the words above. -/
def tenth (s : Words4 × ℕ) (i : ℕ) : Option (Words4 × ℕ) := do
  let x ← s.1[i]?
  let cur := ((s.2 <<< 64) % 2 ^ 128) ||| x.toNat
  let limbs ← write s.1 i (UInt64.ofNat (cur / 10))
  pure (limbs, cur % 10)

/-- The quotient by ten, and the remainder. -/
def divmodTen (limbs : Words4) : Option (Words4 × ℕ) :=
  (List.range 4).reverse.foldlM tenth (limbs, 0)

/-- The carry of a row, on to the words above. -/
def propagate (res : Words8) (carry idx : ℕ) : Option (Option Words8) :=
  if carry = 0 then pure (some res)
  else if 8 ≤ idx then pure none
  else do
    let x ← res[idx]?
    let cur ← u128 (x.toNat + carry)
    let res ← write res idx (UInt64.ofNat cur)
    propagate res (cur >>> 64) (idx + 1)
termination_by 8 - idx

/-- The rows of a product. -/
def mulRows (a b : Words4) : List ℕ → Words8 → Option (Option Words8)
  | [], res => pure (some res)
  | i :: rows, res => do
    let (res, carry) ← (List.range 4).foldlM (mulStep a b i) (res, 0)
    match ← propagate res carry (i + 4) with
    | none => pure none
    | some res => mulRows a b rows res

/-- `U256([res[0], res[1], res[2], res[3]])` -/
def lowHalf (res : Words8) : Words4 := #v[res[0], res[1], res[2], res[3]]

/-- `prod[4] | prod[5] | prod[6] | prod[7]` -/
def highWords (prod : Words8) : UInt64 := prod[4] ||| prod[5] ||| prod[6] ||| prod[7]

/-- The integer with one more digit. -/
def pushDigit (mag : Words4) (d : UInt16) : Option (Option Words4) := do
  let (mag, carry) ← (List.range 4).foldlM timesTen (mag, 0)
  if carry ≠ 0 then pure none
  else do
    let digit ← if 48 ≤ d.toNat then some (d.toNat - 48) else none
    let (mag, add) ← (List.range 4).foldlM plusCarry (mag, digit)
    if add ≠ 0 then pure none else pure (some mag)

/-- The integer with more digits, one after the other, until it is too large. -/
def foldDigits (push : Words4 → UInt16 → Option (Option Words4)) (mag : Words4) :
    Str → Option (Option Words4)
  | [] => pure (some mag)
  | d :: s => do
    match ← push mag d with
    | none => pure none
    | some mag => foldDigits push mag s

/-! ## Sums, differences, and comparisons -/

theorem place_four : place 4 = 2 ^ 256 := rfl

theorem cmpFrom_spec (a b : Words4) {k : ℕ} (hk : k ≤ 4) :
    cmpFrom a b k = some (compare (low a k) (low b k)) := by
  induction k with
  | zero => rfl
  | succ k ih =>
    obtain ⟨x, hx, hxv⟩ := read a (show k < 4 by omega)
    obtain ⟨y, hy, hyv⟩ := read b (show k < 4 by omega)
    rw [cmpFrom, hx, hy]
    simp only [Option.bind_eq_bind, Option.bind_some]
    rw [hxv, hyv, compare_low]
    cases compare (limb a k) (limb b k) with
    | lt => rfl
    | eq => exact ih (by omega)
    | gt => rfl

/-- What has been added up to the `i`th word. -/
def Added (a b : Words4) (i : ℕ) (s : Words4 × ℕ) : Prop :=
  low s.1 i + s.2 * place i = low a i + low b i ∧ s.2 ≤ 1

theorem addStep_spec {a b : Words4} {i : ℕ} {s : Words4 × ℕ} (hi : i < 4) (h : Added a b i s) :
    ∃ t, addStep a b s i = some t ∧ Added a b (i + 1) t := by
  obtain ⟨heq, hcarry⟩ := h
  obtain ⟨x, hx, hxv⟩ := read a hi
  obtain ⟨y, hy, hyv⟩ := read b hi
  have hxlt := limb_lt a i
  have hylt := limb_lt b i
  obtain ⟨w, hw, hup⟩ := write_spec s.1 hi (UInt64.ofNat (x.toNat + y.toNat + s.2))
  refine ⟨(w, (x.toNat + y.toNat + s.2) >>> 64), ?_, ?_, ?_⟩
  · rw [addStep, hx, hy]
    simp only [Option.bind_eq_bind, Option.bind_some]
    rw [u128_of_lt (by omega), Option.bind_some, u128_of_lt (by omega), Option.bind_some, hw]
    rfl
  · dsimp only
    rw [low, hup.low_below le_rfl, hup.same, UInt64.toNat_ofNat', Nat.shiftRight_eq_div_pow, place_succ, hxv,
      hyv, low, low, show limb a i + limb b i + s.2 = s.2 + (limb a i + limb b i) by omega, carry_word heq]
    ring
  · dsimp only
    rw [Nat.shiftRight_eq_div_pow]
    omega

/-- The sum, in four words and a carry. -/
theorem addLoop_spec (a b : Words4) : ∃ out carry, addLoop a b = some (out, carry) ∧
    value out + carry * 2 ^ 256 = value a + value b := by
  obtain ⟨s, hs, heq, -⟩ := Loops.run_range (P := Added a b) (s := (Vector.replicate 4 0, 0))
    (fun i s hi hP => addStep_spec hi hP) ⟨rfl, Nat.zero_le 1⟩
  rw [← value_eq_low, ← value_eq_low, ← value_eq_low, place_four] at heq
  exact ⟨s.1, s.2, hs, heq⟩

/-- What has been subtracted up to the `i`th word. -/
def Subtracted (a b : Words4) (i : ℕ) (s : Words4 × ℤ) : Prop :=
  (low s.1 i : ℤ) + low b i = low a i + s.2 * place i ∧ (s.2 = 0 ∨ s.2 = 1)

theorem subStep_spec {a b : Words4} {i : ℕ} {s : Words4 × ℤ} (hi : i < 4) (h : Subtracted a b i s) :
    ∃ t, subStep a b s i = some t ∧ Subtracted a b (i + 1) t := by
  obtain ⟨heq, hborrow⟩ := h
  obtain ⟨x, hx, hxv⟩ := read a hi
  obtain ⟨y, hy, hyv⟩ := read b hi
  have hxlt := limb_lt a i
  have hylt := limb_lt b i
  rw [subStep, hx, hy]
  simp only [Option.bind_eq_bind, Option.bind_some]
  rw [i128_of_range (by omega), Option.bind_some, i128_of_range (by omega), Option.bind_some]
  split
  · -- a borrow is taken from the word above
    rw [i128_of_range (by omega), Option.bind_some]
    obtain ⟨w, hw, hup⟩ := write_spec s.1 hi (UInt64.ofInt ((x.toNat : ℤ) - y.toNat - s.2 + 2 ^ 64))
    rw [hw]
    refine ⟨(w, 1), rfl, ?_, .inr rfl⟩
    have hword := @toNat_ofInt ((x.toNat : ℤ) - y.toNat - s.2 + 2 ^ 64) (by omega)
    dsimp only
    rw [low, low, low, hup.low_below le_rfl, hup.same, place_succ]
    simp only [Nat.cast_add, Nat.cast_mul]
    rw [hword, hxv, hyv, Nat.cast_pow, Nat.cast_ofNat]
    linear_combination heq
  · obtain ⟨w, hw, hup⟩ := write_spec s.1 hi (UInt64.ofInt ((x.toNat : ℤ) - y.toNat - s.2))
    rw [hw]
    refine ⟨(w, 0), rfl, ?_, .inl rfl⟩
    have hword := @toNat_ofInt ((x.toNat : ℤ) - y.toNat - s.2) (by omega)
    dsimp only
    rw [low, low, low, hup.low_below le_rfl, hup.same]
    simp only [Nat.cast_add, Nat.cast_mul]
    rw [hword, hxv, hyv]
    linear_combination heq

/-- The difference in four words, and whether a borrow is left: then it is negative. -/
theorem subLoop_spec (a b : Words4) : ∃ out borrow, subLoop a b = some (out, borrow) ∧
    (borrow = 0 ∧ value out + value b = value a ∨ borrow = 1 ∧ value a < value b) := by
  obtain ⟨s, hs, heq, hborrow⟩ := Loops.run_range (P := Subtracted a b) (s := (Vector.replicate 4 0, 0))
    (fun i s hi hP => subStep_spec hi hP) ⟨by simp [low], .inl rfl⟩
  have hlt := low_lt s.1 4
  rw [← value_eq_low] at hlt
  rw [← value_eq_low, ← value_eq_low, ← value_eq_low] at heq
  refine ⟨s.1, s.2, hs, hborrow.imp (fun h => ⟨h, ?_⟩) fun h => ⟨h, ?_⟩⟩
  · rw [h] at heq
    omega
  · rw [h] at heq
    omega

/-- What the first words of a row add to a product. -/
structure Multiplied (a b : Words4) (i : ℕ) (before : Words8) (j : ℕ) (s : Words8 × ℕ) : Prop where
  sum : value s.1 + s.2 * place (i + j) = value before + limb a i * low b j * place i
  carry_lt : s.2 < 2 ^ 64
  above : ∀ k, i + j ≤ k → limb s.1 k = limb before k

theorem mulStep_spec {a b : Words4} {i j : ℕ} {before : Words8} {s : Words8 × ℕ} (hi : i < 4) (hj : j < 4)
    (h : Multiplied a b i before j s) :
    ∃ t, mulStep a b i s j = some t ∧ Multiplied a b i before (j + 1) t := by
  obtain ⟨o, ho, hov⟩ := read s.1 (show i + j < 8 by omega)
  obtain ⟨x, hx, hxv⟩ := read a hi
  obtain ⟨y, hy, hyv⟩ := read b hj
  have hcarry := h.carry_lt
  have hprod : x.toNat * y.toNat ≤ (2 ^ 64 - 1) * (2 ^ 64 - 1) :=
    Nat.mul_le_mul (by have := x.toNat_lt; omega) (by have := y.toNat_lt; omega)
  have holt := o.toNat_lt
  obtain ⟨w, hw, hup⟩ := write_spec s.1 (show i + j < 8 by omega)
    (UInt64.ofNat (o.toNat + x.toNat * y.toNat + s.2))
  refine ⟨(w, (o.toNat + x.toNat * y.toNat + s.2) >>> 64), ?_, ?_, ?_, ?_⟩
  · rw [mulStep, ho, hx, hy]
    simp only [Option.bind_eq_bind, Option.bind_some]
    rw [u128_of_lt (by omega), Option.bind_some, u128_of_lt (by omega), Option.bind_some,
      u128_of_lt (by omega), Option.bind_some, hw]
    rfl
  · have hvalue := hup.value (show i + j < 8 by omega)
    rw [UInt64.toNat_ofNat', ← hov] at hvalue
    have hsplit := Nat.mod_add_div (o.toNat + x.toNat * y.toNat + s.2) (2 ^ 64)
    dsimp only
    rw [Nat.shiftRight_eq_div_pow, ← Nat.add_assoc, place_succ, low, ← hxv, ← hyv]
    have hsum := h.sum
    rw [← hxv] at hsum
    rw [place_add] at hvalue hsum ⊢
    linear_combination hvalue + hsum + place i * place j * hsplit
  · dsimp only
    rw [Nat.shiftRight_eq_div_pow]
    omega
  · intro k hk
    dsimp only
    rw [hup.other (by omega), h.above k (by omega)]

/-! ## Products -/

/-- A row of a product. The word behind the row is not reached. -/
theorem row_spec {a b : Words4} {i : ℕ} (hi : i < 4) (before : Words8) :
    ∃ res carry, (List.range 4).foldlM (mulStep a b i) (before, 0) = some (res, carry) ∧
      value res + carry * place (i + 4) = value before + limb a i * value b * place i ∧
      carry < 2 ^ 64 ∧ limb res (i + 4) = limb before (i + 4) := by
  have hstart : Multiplied a b i before 0 (before, 0) :=
    ⟨by simp [low], show (0 : ℕ) < 2 ^ 64 by decide, fun _ _ => rfl⟩
  obtain ⟨s, hs, hsum, hcarry, habove⟩ := Loops.run_range (n := 4) (P := Multiplied a b i before)
    (fun j s hj hP => mulStep_spec hi hj hP) hstart
  exact ⟨s.1, s.2, hs, hsum, hcarry, habove _ le_rfl⟩

/-- What is left of a row fits into the word behind it. -/
theorem propagate_spec {res : Words8} {carry idx : ℕ} (hidx : idx < 8) (hzero : limb res idx = 0)
    (hcarry : carry < 2 ^ 64) :
    ∃ res', propagate res carry idx = some (some res') ∧ value res' = value res + carry * place idx := by
  rw [propagate]
  split
  · next h => exact ⟨res, rfl, by rw [h, Nat.zero_mul, Nat.add_zero]⟩
  · rw [if_neg (by omega)]
    obtain ⟨x, hx, hxv⟩ := read res hidx
    obtain ⟨w, hw, hup⟩ := write_spec res hidx (UInt64.ofNat (x.toNat + carry))
    rw [hx]
    simp only [Option.bind_eq_bind, Option.bind_some]
    rw [u128_of_lt (by omega), Option.bind_some, hw, Option.bind_some, propagate, if_pos (by
      rw [Nat.shiftRight_eq_div_pow, hxv, hzero]
      omega)]
    refine ⟨w, rfl, ?_⟩
    have hvalue := hup.value hidx
    rw [hzero, Nat.zero_mul, Nat.add_zero, UInt64.toNat_ofNat', hxv, hzero, Nat.zero_add,
      Nat.mod_eq_of_lt hcarry] at hvalue
    exact hvalue

/-- The word behind a row is zero, as long as the product of the words before is all there is. -/
theorem limb_row {a b : Words4} {i : ℕ} {res : Words8} (h : value res = low a i * value b) :
    limb res (i + 4) = 0 := by
  refine limb_eq_zero ?_ le_rfl
  rw [h, place_add]
  exact Nat.mul_lt_mul'' (low_lt a i) (low_lt b 4)

theorem mulRows_spec {a b : Words4} {i n : ℕ} (hn : i + n = 4) {res : Words8}
    (h : value res = low a i * value b) :
    ∃ res', mulRows a b (List.range' i n) res = some (some res') ∧ value res' = value a * value b := by
  induction n generalizing i res with
  | zero =>
    obtain rfl : i = 4 := by omega
    exact ⟨res, rfl, h⟩
  | succ n ih =>
    obtain ⟨row, carry, hrow, hsum, hcarry, habove⟩ := row_spec (b := b) (show i < 4 by omega) res
    obtain ⟨next, hnext, hvalue⟩ := propagate_spec (show i + 4 < 8 by omega)
      (habove.trans (limb_row h)) hcarry
    have hlow : value next = low a (i + 1) * value b := by
      rw [hvalue, hsum, h, low]
      ring
    obtain ⟨res', hres', hprod⟩ := ih (by omega) hlow
    refine ⟨res', ?_, hprod⟩
    rw [List.range'_succ, mulRows, hrow]
    simp only [Option.bind_eq_bind, Option.bind_some]
    rw [hnext, Option.bind_some]
    exact hres'

/-- A product fits into four words if its other words are zero, and then the four words are it. -/
theorem high_spec (res : Words8) :
    (value res < 2 ^ 256 ↔ res[4] = 0 ∧ res[5] = 0 ∧ res[6] = 0 ∧ res[7] = 0) ∧
      (value res < 2 ^ 256 → value (lowHalf res) = value res) := by
  have hlow : value (lowHalf res) = low res 4 := by
    refine low_congr fun i hi => ?_
    interval_cases i <;> rfl
  have hsum : value res = low res 4 + limb res 4 * place 4 + limb res 5 * place 5 +
      limb res 6 * place 6 + limb res 7 * place 7 := rfl
  have hzero : ∀ i (h : i < 8), res[i] = 0 ↔ limb res i = 0 := by
    intro i h
    rw [← toNat_getElem res h, ← UInt64.toNat_inj]
    rfl
  have hhigh : ∀ i, 4 ≤ i → value res < 2 ^ 256 → limb res i = 0 := fun i hi hlt =>
    limb_eq_zero (k := 4) hlt hi
  have hlt := low_lt res 4
  have hplace : place 4 = 2 ^ 256 := rfl
  constructor
  · rw [hzero 4, hzero 5, hzero 6, hzero 7]
    constructor
    · exact fun h => ⟨hhigh 4 (by decide) h, hhigh 5 (by decide) h, hhigh 6 (by decide) h,
        hhigh 7 (by decide) h⟩
    · rintro ⟨h4, h5, h6, h7⟩
      rw [hsum, h4, h5, h6, h7]
      omega
  · intro h
    rw [hlow, hsum, hhigh 4 (by decide) h, hhigh 5 (by decide) h, hhigh 6 (by decide) h,
      hhigh 7 (by decide) h]
    omega

/-! ## Decimals -/

/-- What has been multiplied by `f`, with `d` added, up to the `i`th word. -/
structure Carried (mag : Words4) (f d i : ℕ) (s : Words4 × ℕ) : Prop where
  sum : low s.1 i + s.2 * place i = f * low mag i + d
  carry_lt : s.2 < 10
  above : ∀ k, i ≤ k → limb s.1 k = limb mag k

/-- A step of either loop. -/
theorem Carried.write {mag : Words4} {f d i : ℕ} {s : Words4 × ℕ} (h : Carried mag f d i s) (hi : i < 4)
    (hf : f ≤ 10) : ∃ w, Limbs.write s.1 i (UInt64.ofNat (f * limb mag i + s.2)) = some w ∧
      Carried mag f d (i + 1) (w, (f * limb mag i + s.2) >>> 64) := by
  have hcarry := h.carry_lt
  have hx := limb_lt mag i
  have hprod : f * limb mag i ≤ 10 * (2 ^ 64 - 1) := Nat.mul_le_mul hf (by omega)
  obtain ⟨w, hw, hup⟩ := write_spec s.1 hi (UInt64.ofNat (f * limb mag i + s.2))
  refine ⟨w, hw, ?_, ?_, ?_⟩
  · have hsplit := Nat.mod_add_div (f * limb mag i + s.2) (2 ^ 64)
    dsimp only
    rw [low, low, hup.low_below le_rfl, hup.same, UInt64.toNat_ofNat', Nat.shiftRight_eq_div_pow, place_succ]
    linear_combination h.sum + place i * hsplit
  · dsimp only
    rw [Nat.shiftRight_eq_div_pow]
    omega
  · intro k hk
    dsimp only
    rw [hup.other (by omega), h.above k (by omega)]

theorem timesTen_run (mag : Words4) : ∃ w c, (List.range 4).foldlM timesTen (mag, 0) = some (w, c) ∧
    value w + c * 2 ^ 256 = 10 * value mag := by
  obtain ⟨s, hs, hsum, -, -⟩ := Loops.run_range (f := timesTen) (P := Carried mag 10 0) (n := 4)
    (fun i s hi h => by
      obtain ⟨x, hx, hxv⟩ := read s.1 hi
      rw [h.above i le_rfl] at hxv
      have hxlt := limb_lt mag i
      have hcarry := h.carry_lt
      obtain ⟨w, hw, hnext⟩ := h.write hi le_rfl
      refine ⟨_, ?_, hnext⟩
      rw [timesTen, hx]
      simp only [Option.bind_eq_bind, Option.bind_some]
      rw [hxv, Nat.mul_comm (limb mag i), u128_of_lt (by omega), Option.bind_some, u128_of_lt (by omega),
        Option.bind_some, hw]
      rfl)
    (s := (mag, 0)) ⟨by simp [low], show (0 : ℕ) < 10 by decide, fun _ _ => rfl⟩
  rw [← value_eq_low, ← value_eq_low, place_four, Nat.add_zero] at hsum
  exact ⟨s.1, s.2, hs, hsum⟩

theorem plusCarry_run (mag : Words4) {d : ℕ} (hd : d < 10) :
    ∃ w c, (List.range 4).foldlM plusCarry (mag, d) = some (w, c) ∧
      value w + c * 2 ^ 256 = value mag + d := by
  obtain ⟨s, hs, hsum, -, -⟩ := Loops.run_range (f := plusCarry) (P := Carried mag 1 d) (n := 4)
    (fun i s hi h => by
      obtain ⟨x, hx, hxv⟩ := read s.1 hi
      rw [h.above i le_rfl] at hxv
      have hxlt := limb_lt mag i
      have hcarry := h.carry_lt
      obtain ⟨w, hw, hnext⟩ := h.write hi (by decide)
      rw [Nat.one_mul] at hw hnext
      refine ⟨_, ?_, hnext⟩
      rw [plusCarry, hx]
      simp only [Option.bind_eq_bind, Option.bind_some]
      rw [hxv, u128_of_lt (by omega), Option.bind_some, hw]
      rfl)
    (s := (mag, d)) ⟨by simp [low], hd, fun _ _ => rfl⟩
  rw [← value_eq_low, ← value_eq_low, place_four, Nat.one_mul] at hsum
  exact ⟨s.1, s.2, hs, hsum⟩

/-- A checked result: the number, or nothing if it needs more than four words. -/
def Fits (r : Option (Option Words4)) (n : ℕ) : Prop :=
  (∃ w, r = some (some w) ∧ value w = n) ∨ (r = some none ∧ 2 ^ 256 ≤ n)

theorem pushDigit_spec (mag : Words4) (d : UInt16) (hd : isDigit d = true) :
    Fits (pushDigit mag d) (10 * value mag + (d.toNat - 48)) := by
  simp only [isDigit, Bool.and_eq_true, decide_eq_true_eq] at hd
  obtain ⟨w, c, hw, hten⟩ := timesTen_run mag
  obtain ⟨w', c', hw', hsum⟩ := plusCarry_run w (d := d.toNat - 48) (by omega)
  unfold pushDigit
  rw [hw]
  simp only [Option.bind_eq_bind, Option.bind_some]
  by_cases hc : c = 0
  · rw [if_neg (not_not.mpr hc), if_pos hd.1, hw', Option.bind_some]
    by_cases hc' : c' = 0
    · rw [if_neg (not_not.mpr hc')]
      refine .inl ⟨w', rfl, ?_⟩
      rw [hc, Nat.zero_mul, Nat.add_zero] at hten
      rw [hc', Nat.zero_mul, Nat.add_zero] at hsum
      omega
    · rw [if_pos hc']
      refine .inr ⟨rfl, ?_⟩
      rw [hc, Nat.zero_mul, Nat.add_zero] at hten
      omega
  · rw [if_pos hc]
    exact .inr ⟨rfl, by omega⟩

/-- More digits do not make an integer smaller. -/
theorem le_foldl_digits (s : Str) (n : ℕ) : n ≤ s.foldl (fun n u => 10 * n + (u.toNat - 48)) n := by
  induction s generalizing n with
  | nil => exact le_rfl
  | cons u s ih =>
    rw [List.foldl_cons]
    calc n ≤ 10 * n + (u.toNat - 48) := by omega
      _ ≤ s.foldl (fun n u => 10 * n + (u.toNat - 48)) (10 * n + (u.toNat - 48)) := ih _

section Digits

variable {push : Words4 → UInt16 → Option (Option Words4)}

theorem foldDigits_cons {u : UInt16} {s : Str} {mag w : Words4} (h : push mag u = some (some w)) :
    foldDigits push mag (u :: s) = foldDigits push w s := by
  rw [foldDigits, h]
  rfl

theorem foldDigits_none {u : UInt16} {s : Str} {mag : Words4} (h : push mag u = some none) :
    foldDigits push mag (u :: s) = some none := by
  rw [foldDigits, h]
  rfl

theorem foldDigits_spec
    (hpush : ∀ mag d, isDigit d = true → Fits (push mag d) (10 * value mag + (d.toNat - 48))) {s : Str}
    (hs : ∀ u ∈ s, isDigit u = true) (mag : Words4) :
    Fits (foldDigits push mag s) (s.foldl (fun n u => 10 * n + (u.toNat - 48)) (value mag)) := by
  induction s generalizing mag with
  | nil => exact .inl ⟨mag, rfl, by rw [List.foldl_nil]⟩
  | cons u s ih =>
    obtain ⟨hu, hs⟩ := List.forall_mem_cons.mp hs
    rw [List.foldl_cons]
    rcases hpush mag u hu with ⟨w, hw, hvalue⟩ | ⟨hnone, hle⟩
    · rw [foldDigits_cons hw]
      have hrest := ih hs w
      rw [hvalue] at hrest
      exact hrest
    · refine .inr ⟨foldDigits_none hnone, ?_⟩
      exact le_trans hle (le_foldl_digits s _)

/-- The integer of all digits, from zero on. -/
theorem foldDigits_zero
    (hpush : ∀ mag d, isDigit d = true → Fits (push mag d) (10 * value mag + (d.toNat - 48))) {s : Str}
    (hs : ∀ u ∈ s, isDigit u = true) : Fits (foldDigits push (Vector.replicate 4 0) s) (digitsValue s) := by
  have hfold := foldDigits_spec hpush hs (Vector.replicate 4 0)
  rw [value_replicate] at hfold
  exact hfold

end Digits

/-- What has been divided from the last word down to the `i`th. -/
structure Divided (mag : Words4) (i : ℕ) (s : Words4 × ℕ) : Prop where
  sum : value mag + 9 * low mag i = 10 * value s.1 + s.2 * place i
  rem_lt : s.2 < 10
  below : ∀ k < i, limb s.1 k = limb mag k

theorem tenth_spec {mag : Words4} {i : ℕ} {s : Words4 × ℕ} (hi : i < 4) (h : Divided mag (i + 1) s) :
    ∃ t, tenth s i = some t ∧ Divided mag i t := by
  obtain ⟨x, hx, hxv⟩ := read s.1 hi
  rw [h.below i (by omega)] at hxv
  have hxlt := limb_lt mag i
  have hrem := h.rem_lt
  have hcur : ((s.2 <<< 64) % 2 ^ 128) ||| x.toNat = s.2 * 2 ^ 64 + limb mag i := by
    rw [Nat.mod_eq_of_lt (by rw [Nat.shiftLeft_eq]; omega), hxv, ← Nat.shiftLeft_add_eq_or_of_lt hxlt,
      Nat.shiftLeft_eq]
  obtain ⟨w, hw, hup⟩ := write_spec s.1 hi (UInt64.ofNat ((s.2 * 2 ^ 64 + limb mag i) / 10))
  refine ⟨(w, (s.2 * 2 ^ 64 + limb mag i) % 10), ?_, ?_, Nat.mod_lt _ (by decide), ?_⟩
  · rw [tenth, hx]
    simp only [Option.bind_eq_bind, Option.bind_some]
    rw [hcur, hw]
    rfl
  · have hvalue := hup.value hi
    have hsplit := Nat.mod_add_div (s.2 * 2 ^ 64 + limb mag i) 10
    have hsum := h.sum
    rw [UInt64.toNat_ofNat', Nat.mod_eq_of_lt (by omega), h.below i (by omega)] at hvalue
    rw [low, place_succ] at hsum
    dsimp only
    linear_combination hsum - 10 * hvalue - place i * hsplit
  · intro k hk
    dsimp only
    rw [hup.other (by omega), h.below k (by omega)]

theorem divmodTen_spec (mag : Words4) : ∃ q r, divmodTen mag = some (q, r) ∧
    value q = value mag / 10 ∧ r = value mag % 10 := by
  obtain ⟨s, hs, hsum, hrem, -⟩ := Loops.run_down (f := tenth) (P := Divided mag) (n := 4)
    (fun i s hi h => tenth_spec hi h) (s := (mag, 0))
    ⟨show value mag + 9 * value mag = 10 * value mag + 0 * place 4 by omega,
      show (0 : ℕ) < 10 by decide, fun _ _ => rfl⟩
  rw [low, place_zero] at hsum
  exact ⟨s.1, s.2, hs, by omega, by omega⟩

/-! ## The type and its operations -/

/-- An unsigned 256-bit integer. -/
structure U256 where
  limbs : Words4
  deriving DecidableEq

namespace U256

/-- The integer that it stands for. -/
def val (x : U256) : ℕ := value x.limbs

def ZERO : U256 := ⟨Vector.replicate 4 0⟩

def isZero (x : U256) : Bool := x.limbs = Vector.replicate 4 0

/-- `a.cmp(&b)` -/
def cmp (a b : U256) : Option Ordering := cmpFrom a.limbs b.limbs 4

def fromDecStr (s : Str) : Option (Option U256) :=
  if s = [] ∨ ¬s.all isDigit then pure none
  else do
    let mag ← foldDigits pushDigit (Vector.replicate 4 0) s
    pure (mag.map mk)

/-- The digits of an integer that is not zero yet, the last one first. -/
def decLoop (limbs : Words4) : Option Str :=
  if limbs ≠ Vector.replicate 4 0 then
    match h : divmodTen limbs with
    | some (q, rem) => do
      let digits ← decLoop q
      pure (UInt16.ofNat (48 + rem) :: digits)
    | none => none
  else pure []
termination_by value limbs
decreasing_by
  obtain ⟨q', r', hdiv, hq, -⟩ := divmodTen_spec limbs
  rw [hdiv] at h
  cases h
  have hpos : value limbs ≠ 0 := fun hzero => ‹limbs ≠ _› (value_eq_zero_iff.mp hzero)
  omega

/-- The text in decimal. Digits are ASCII, so that they are always a text. -/
def toDecStr (x : U256) : Option Str :=
  if x.isZero then pure [48]
  else do
    let digits ← decLoop x.limbs
    pure digits.reverse

def checkedAdd (a b : U256) : Option (Option U256) := do
  let (out, carry) ← addLoop a.limbs b.limbs
  if carry ≠ 0 then pure none else pure (some ⟨out⟩)

def checkedSub (a b : U256) : Option (Option U256) := do
  let (out, borrow) ← subLoop a.limbs b.limbs
  if borrow ≠ 0 then pure none else pure (some ⟨out⟩)

def checkedMul (a b : U256) : Option (Option U256) := do
  match ← mulRows a.limbs b.limbs (List.range 4) (Vector.replicate 8 0) with
  | none => pure none
  | some res =>
    if [res[4], res[5], res[6], res[7]].any (· ≠ 0) then pure none else pure (some ⟨lowHalf res⟩)

def saturatingSub (a b : U256) : Option U256 := do
  let (out, borrow) ← subLoop a.limbs b.limbs
  if borrow ≠ 0 then pure ZERO else pure ⟨out⟩

/-! ## Exactness -/

theorem val_eq (x : U256) : x.val = value x.limbs := rfl

theorem val_lt (x : U256) : x.val < 2 ^ 256 := by
  rw [val_eq, value_eq_low, ← place_four]
  exact low_lt x.limbs 4

theorem val_inj {x y : U256} (h : x.val = y.val) : x = y := by
  cases x
  cases y
  rw [mk.injEq]
  exact value_inj h

/-- A checked result is the integer, or nothing exactly if the integer is out of range. -/
def Exact (r : Option (Option U256)) (n : ℤ) : Prop :=
  (∃ x, r = some (some x) ∧ (x.val : ℤ) = n) ∨ (r = some none ∧ ¬(0 ≤ n ∧ n < 2 ^ 256))

variable (a b : U256)

theorem cmp_spec : cmp a b = some (compare a.val b.val) := by
  rw [cmp, cmpFrom_spec a.limbs b.limbs le_rfl, ← value_eq_low, ← value_eq_low, val_eq, val_eq]

theorem checkedAdd_spec : Exact (checkedAdd a b) (a.val + b.val) := by
  obtain ⟨out, carry, hrun, hsum⟩ := addLoop_spec a.limbs b.limbs
  have hout : (⟨out⟩ : U256).val = value out := rfl
  rw [val_eq, val_eq]
  unfold checkedAdd
  rw [hrun, Option.bind_eq_bind, Option.bind_some]
  dsimp only
  by_cases h : carry = 0
  · rw [if_neg (not_not.mpr h)]
    refine .inl ⟨⟨out⟩, rfl, ?_⟩
    rw [hout]
    rw [h, Nat.zero_mul, Nat.add_zero] at hsum
    omega
  · rw [if_pos h]
    exact .inr ⟨rfl, by omega⟩

theorem checkedSub_spec : Exact (checkedSub a b) (a.val - b.val) := by
  obtain ⟨out, borrow, hrun, hdiff⟩ := subLoop_spec a.limbs b.limbs
  have hout : (⟨out⟩ : U256).val = value out := rfl
  rw [val_eq, val_eq]
  unfold checkedSub
  rw [hrun, Option.bind_eq_bind, Option.bind_some]
  rcases hdiff with ⟨rfl, hdiff⟩ | ⟨rfl, hlt⟩
  · refine .inl ⟨⟨out⟩, rfl, ?_⟩
    rw [hout]
    omega
  · exact .inr ⟨rfl, by omega⟩

theorem saturatingSub_spec : ∃ x, saturatingSub a b = some x ∧ x.val = a.val - b.val := by
  obtain ⟨out, borrow, hrun, hdiff⟩ := subLoop_spec a.limbs b.limbs
  have hout : (⟨out⟩ : U256).val = value out := rfl
  have hzero : ZERO.val = 0 := value_replicate
  rw [val_eq a, val_eq b]
  unfold saturatingSub
  rw [hrun, Option.bind_eq_bind, Option.bind_some]
  rcases hdiff with ⟨rfl, hdiff⟩ | ⟨rfl, hlt⟩
  · refine ⟨⟨out⟩, rfl, ?_⟩
    rw [hout]
    omega
  · refine ⟨ZERO, rfl, ?_⟩
    rw [hzero]
    omega

theorem checkedMul_spec : Exact (checkedMul a b) (a.val * b.val) := by
  have hstart : value (Vector.replicate 8 0) = low a.limbs 0 * value b.limbs := by
    rw [value_replicate, low, Nat.zero_mul]
  obtain ⟨res, hrun, hprod⟩ := mulRows_spec (i := 0) (n := 4) rfl hstart
  rw [← List.range_eq_range'] at hrun
  obtain ⟨hfits, hhalf⟩ := high_spec res
  have hout : (⟨lowHalf res⟩ : U256).val = value (lowHalf res) := rfl
  rw [val_eq, val_eq]
  unfold checkedMul
  rw [hrun, Option.bind_eq_bind, Option.bind_some]
  dsimp only
  have hany : [res[4], res[5], res[6], res[7]].any (· ≠ 0) = true ↔ ¬value res < 2 ^ 256 := by
    rw [hfits]
    simp only [List.any_cons, List.any_nil, Bool.or_false, Bool.or_eq_true, decide_eq_true_eq]
    tauto
  rw [← Nat.cast_mul, ← hprod]
  by_cases h : value res < 2 ^ 256
  · rw [if_neg (fun hyes => hany.mp hyes h)]
    refine .inl ⟨⟨lowHalf res⟩, rfl, ?_⟩
    rw [hout, hhalf h]
  · rw [if_pos (hany.mpr h)]
    exact .inr ⟨rfl, by omega⟩

/-! ## Texts -/

/-- Exactly the texts of digits are read whose integer is in range, and each as its integer. -/
theorem fromDecStr_spec (s : Str) : ∃ r, fromDecStr s = some r ∧
    ∀ x, r = some x ↔ s ≠ [] ∧ (∀ u ∈ s, isDigit u = true) ∧ x.val = digitsValue s := by
  unfold fromDecStr
  by_cases h : s = [] ∨ ¬s.all isDigit
  · rw [if_pos h]
    refine ⟨none, rfl, fun x => iff_of_false (fun hx => nomatch hx) ?_⟩
    rintro ⟨hne, hdigits, -⟩
    rcases h with hnil | hall
    · exact hne hnil
    · exact hall (List.all_eq_true.mpr hdigits)
  · rw [if_neg h]
    simp only [not_or, not_not] at h
    obtain ⟨hne, hall⟩ := h
    have hdigits : ∀ u ∈ s, isDigit u = true := List.all_eq_true.mp hall
    rcases foldDigits_zero pushDigit_spec hdigits with ⟨w, hw, hvalue⟩ | ⟨hnone, hle⟩
    · rw [hw]
      refine ⟨some ⟨w⟩, rfl, fun x => ?_⟩
      rw [Option.some.injEq]
      constructor
      · rintro rfl
        exact ⟨hne, hdigits, hvalue⟩
      · rintro ⟨-, -, hx⟩
        refine val_inj ?_
        rw [hx, ← hvalue]
        rfl
    · rw [hnone]
      refine ⟨none, rfl, fun x => iff_of_false (fun hx => nomatch hx) ?_⟩
      rintro ⟨-, -, hx⟩
      have hlt := x.val_lt
      omega

theorem decLoop_spec (limbs : Words4) :
    decLoop limbs = some ((Nat.digits 10 (value limbs)).map fun d => UInt16.ofNat (48 + d)) := by
  obtain ⟨n, hn⟩ : ∃ n, value limbs = n := ⟨_, rfl⟩
  induction n using Nat.strongRecOn generalizing limbs with
  | ind n ih =>
    obtain ⟨q, r, hdiv, hq, hr⟩ := divmodTen_spec limbs
    rw [decLoop]
    by_cases hzero : limbs = Vector.replicate 4 0
    · rw [if_neg (not_not.mpr hzero), hzero, value_replicate]
      rfl
    · have hpos : value limbs ≠ 0 := fun h => hzero (value_eq_zero_iff.mp h)
      rw [if_pos hzero, Nat.digits_def' (by decide) (by omega), List.map_cons]
      split
      · next q' r' h =>
        rw [hdiv, Option.some.injEq, Prod.mk.injEq] at h
        obtain ⟨rfl, rfl⟩ := h
        rw [ih (value q) (by omega) q rfl, hr, hq]
        rfl
      · next h =>
        rw [hdiv] at h
        cases h

/-- Each integer is written in decimal. -/
theorem toDecStr_spec (x : U256) : toDecStr x = some (decimalNat x.val) := by
  unfold toDecStr isZero
  by_cases h : x.limbs = Vector.replicate 4 0
  · have hzero : x.val = 0 := value_eq_zero_iff.mpr h
    rw [if_pos (decide_eq_true h), decimalNat, if_pos hzero]
    rfl
  · have hne : x.val ≠ 0 := fun hzero => h (value_eq_zero_iff.mp hzero)
    rw [if_neg (fun hyes => h (of_decide_eq_true hyes)), decLoop_spec, decimalNat, if_neg hne]
    rfl

/-- Each integer below `2 ^ 256` has its words. -/
theorem exists_val {n : ℕ} (h : n < 2 ^ 256) : ∃ x : U256, x.val = n := by
  obtain ⟨hne, hdigits⟩ := decimalNat_digits n
  have hpush := foldDigits_zero pushDigit_spec hdigits
  rw [digitsValue_decimalNat] at hpush
  rcases hpush with ⟨w, -, hvalue⟩ | ⟨-, hle⟩
  · exact ⟨⟨w⟩, hvalue⟩
  · omega

/-! ## Amounts -/

/-- The amount that the reducers compute with. -/
def amount (x : U256) : ParadigmTerra.Ports.U256 :=
  ⟨x.val, by
    have hlt := x.val_lt
    unfold IsUint UINT256_MAX
    omega⟩

/-- The words of the reducer's sum are those of the amounts' sum. -/
theorem checkedAdd_amount : ∃ r, checkedAdd a b = some r ∧ r.map amount = a.amount.checkedAdd b.amount := by
  rcases checkedAdd_spec a b with ⟨x, hx, hsum⟩ | ⟨hnone, hrange⟩
  · exact ⟨some x, hx, (checkedAdd_eq_some.mpr hsum.symm).symm⟩
  · refine ⟨none, hnone, (Option.eq_none_iff_forall_ne_some.mpr fun c hc => ?_).symm⟩
    have hsum : (a.val : ℤ) + b.val = c.1 := checkedAdd_eq_some.mp hc
    have hc' := c.2
    unfold IsUint UINT256_MAX at hc'
    omega

/-- The same for differences. -/
theorem checkedSub_amount : ∃ r, checkedSub a b = some r ∧ r.map amount = a.amount.checkedSub b.amount := by
  rcases checkedSub_spec a b with ⟨x, hx, hdiff⟩ | ⟨hnone, hrange⟩
  · exact ⟨some x, hx, (checkedSub_eq_some.mpr hdiff.symm).symm⟩
  · refine ⟨none, hnone, (Option.eq_none_iff_forall_ne_some.mpr fun c hc => ?_).symm⟩
    have hdiff : (a.val : ℤ) - b.val = c.1 := checkedSub_eq_some.mp hc
    have hc' := c.2
    unfold IsUint UINT256_MAX at hc'
    omega

/-! ## Exactness of all operations -/

/-- The unsigned integers are exact. Each integer of the range has one representation, whose text is the decimal and
is read back as it; a text is read exactly if it is a decimal in range, and canonical decimals are written as they
were. Sums, differences and products are the integer, or `None` exactly if that is out of range, and the
comparison is the order of the integers. Nothing panics. -/
theorem u256_exact :
    (∀ n < 2 ^ 256, ∃ x : U256, x.val = n ∧ toDecStr x = some (decimalNat n) ∧
      fromDecStr (decimalNat n) = some (some x)) ∧
    (∀ x : U256, x.val < 2 ^ 256 ∧ toDecStr x = some (decimalNat x.val) ∧
      fromDecStr (decimalNat x.val) = some (some x)) ∧
    (∀ s, ∃ r, fromDecStr s = some r ∧
      (∀ x, r = some x ↔ s ≠ [] ∧ (∀ u ∈ s, isDigit u = true) ∧ x.val = digitsValue s) ∧
      (r = none ↔ ¬(s ≠ [] ∧ (∀ u ∈ s, isDigit u = true) ∧ digitsValue s < 2 ^ 256)) ∧
      ∀ x, r = some x → isDecimal s = true → toDecStr x = some s) ∧
    ∀ a b : U256, Exact (checkedAdd a b) (a.val + b.val) ∧ Exact (checkedSub a b) (a.val - b.val) ∧
      Exact (checkedMul a b) (a.val * b.val) ∧
      (∃ x, saturatingSub a b = some x ∧ x.val = a.val - b.val) ∧ cmp a b = some (compare a.val b.val) := by
  have hback : ∀ x : U256, fromDecStr (decimalNat x.val) = some (some x) := by
    intro x
    obtain ⟨r, hr, hread⟩ := fromDecStr_spec (decimalNat x.val)
    obtain ⟨hne, hdigits⟩ := decimalNat_digits x.val
    rw [hr, (hread x).mpr ⟨hne, hdigits, (digitsValue_decimalNat _).symm⟩]
  refine ⟨?_, fun x => ⟨x.val_lt, toDecStr_spec x, hback x⟩, ?_, fun a b => ⟨checkedAdd_spec a b,
    checkedSub_spec a b, checkedMul_spec a b, saturatingSub_spec a b, cmp_spec a b⟩⟩
  · intro n hn
    obtain ⟨x, rfl⟩ := exists_val hn
    exact ⟨x, rfl, toDecStr_spec x, hback x⟩
  · intro s
    obtain ⟨r, hr, hread⟩ := fromDecStr_spec s
    refine ⟨r, hr, hread, ?_, ?_⟩
    · constructor
      · rintro rfl ⟨hne, hdigits, hlt⟩
        obtain ⟨x, hx⟩ := exists_val hlt
        cases (hread x).mpr ⟨hne, hdigits, hx⟩
      · intro hno
        cases r with
        | none => rfl
        | some x =>
          obtain ⟨hne, hdigits, hx⟩ := (hread x).mp rfl
          exact absurd ⟨hne, hdigits, hx ▸ x.val_lt⟩ hno
    · intro x hx hdecimal
      obtain ⟨-, -, hvalue⟩ := (hread x).mp hx
      rw [toDecStr_spec, hvalue, decimalNat_digitsValue hdecimal]

/-- The largest integer is in range. -/
theorem u256_exact_largest : ∃ x : U256, x.val = 2 ^ 256 - 1 ∧
    toDecStr x = some (decimalNat (2 ^ 256 - 1)) ∧ fromDecStr (decimalNat (2 ^ 256 - 1)) = some (some x) :=
  u256_exact.1 (2 ^ 256 - 1) (by norm_num)

end U256

end ParadigmTerra.Ports.Rust
