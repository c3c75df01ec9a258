import Mathlib

/-!
# Numbers in words of 64 bits

A vector of words, least significant first, stands for the number `value`; `low` is the number of its first
words, so that a loop over words carries an invariant about `low` from one word to the next. `Updates` says
what the words are after one of them was written.

`carry_word` and `borrow_word` are the arithmetic of one step of a loop with a carry or a borrow. Words are read
and written, and wider integers are computed, with `none` where a program in a language with checked arithmetic
stops: outside of the vector, or outside of the integer type.
-/

namespace Limbs

variable {n : ℕ}

/-! ## Reading, writing, and checked arithmetic -/

/-- A word is written. -/
def write (v : Vector UInt64 n) (i : ℕ) (x : UInt64) : Option (Vector UInt64 n) :=
  if h : i < n then some (v.set i x h) else none

/-- A result of type `u64`. -/
def u64 (n : ℕ) : Option UInt64 := if n < 2 ^ 64 then some (UInt64.ofNat n) else none

/-- A result of type `u128`. -/
def u128 (n : ℕ) : Option ℕ := if n < 2 ^ 128 then some n else none

/-- A result of type `i128`. -/
def i128 (n : ℤ) : Option ℤ := if -2 ^ 127 ≤ n ∧ n < 2 ^ 127 then some n else none

theorem u64_of_lt {k : ℕ} (h : k < 2 ^ 64) : u64 k = some (UInt64.ofNat k) := if_pos h

theorem u128_of_lt {k : ℕ} (h : k < 2 ^ 128) : u128 k = some k := if_pos h

theorem i128_of_range {k : ℤ} (h : -2 ^ 127 ≤ k ∧ k < 2 ^ 127) : i128 k = some k := if_pos h

/-- `as u64` on a number that is one. -/
theorem toNat_ofInt {z : ℤ} (h : 0 ≤ z ∧ z < 2 ^ 64) : ((UInt64.ofInt z).toNat : ℤ) = z := by
  rw [UInt64.ofInt, UInt64.toNat_ofNat']
  omega

/-! ## Values -/

/-- The weight of a word. -/
def place (k : ℕ) : ℕ := 2 ^ (64 * k)

@[simp] theorem place_zero : place 0 = 1 := rfl

theorem place_succ (k : ℕ) : place (k + 1) = 2 ^ 64 * place k := by
  rw [place, place, ← pow_add, Nat.mul_succ, Nat.add_comm]

theorem place_add (i j : ℕ) : place (i + j) = place i * place j := by
  rw [place, place, place, ← pow_add, Nat.mul_add]

theorem place_pos (k : ℕ) : 0 < place k := Nat.pow_pos (by decide)

/-- A word of a vector, zero behind the last one. -/
def limb (v : Vector UInt64 n) (i : ℕ) : ℕ := (v[i]?.getD 0).toNat

/-- The number of the first words. -/
def low (v : Vector UInt64 n) : ℕ → ℕ
  | 0 => 0
  | k + 1 => low v k + limb v k * place k

/-- The number that a vector stands for. -/
def value (v : Vector UInt64 n) : ℕ := low v n

theorem value_eq_low (v : Vector UInt64 n) : value v = low v n := rfl

theorem limb_lt (v : Vector UInt64 n) (i : ℕ) : limb v i < 2 ^ 64 := UInt64.toNat_lt _

theorem limb_of_le (v : Vector UInt64 n) {i : ℕ} (h : n ≤ i) : limb v i = 0 := by
  rw [limb, Vector.getElem?_eq_none h]
  rfl

/-- Reading a word. -/
theorem read (v : Vector UInt64 n) {i : ℕ} (h : i < n) : ∃ x, v[i]? = some x ∧ x.toNat = limb v i := by
  refine ⟨v[i], Vector.getElem?_eq_getElem h, ?_⟩
  rw [limb, Vector.getElem?_eq_getElem h, Option.getD_some]

theorem toNat_getElem (v : Vector UInt64 n) {i : ℕ} (h : i < n) : v[i].toNat = limb v i := by
  rw [limb, Vector.getElem?_eq_getElem h, Option.getD_some]

theorem low_lt (v : Vector UInt64 n) (k : ℕ) : low v k < place k := by
  induction k with
  | zero => exact Nat.one_pos
  | succ k ih =>
    have hlimb := limb_lt v k
    rw [low, place_succ]
    calc low v k + limb v k * place k < place k + limb v k * place k := by omega
      _ = (limb v k + 1) * place k := by ring
      _ ≤ 2 ^ 64 * place k := Nat.mul_le_mul_right _ hlimb

theorem low_congr {m : ℕ} {v : Vector UInt64 n} {w : Vector UInt64 m} {k : ℕ}
    (h : ∀ i < k, limb v i = limb w i) : low v k = low w k := by
  induction k with
  | zero => rfl
  | succ k ih => rw [low, low, ih fun i hi => h i (by omega), h k (by omega)]

theorem low_of_zero {v : Vector UInt64 n} (k : ℕ) (h : ∀ i, limb v i = 0) : low v k = 0 := by
  induction k with
  | zero => rfl
  | succ k ih => rw [low, ih, h, Nat.zero_mul]

theorem limb_replicate (i : ℕ) : limb (Vector.replicate n 0) i = 0 := by
  by_cases h : i < n
  · rw [limb, Vector.getElem?_eq_getElem h, Vector.getElem_replicate]
    rfl
  · exact limb_of_le _ (by omega)

@[simp] theorem value_replicate : value (Vector.replicate n 0) = 0 := low_of_zero n limb_replicate

/-- The word at a place is read from the number. -/
theorem limb_eq_low {v : Vector UInt64 n} {i k : ℕ} (h : i < k) :
    limb v i = low v k / place i % 2 ^ 64 := by
  induction k with
  | zero => omega
  | succ k ih =>
    have hlow := low_lt v k
    have hlimb := limb_lt v k
    rw [low]
    by_cases heq : i = k
    · subst heq
      rw [Nat.add_mul_div_right _ _ (place_pos i), Nat.div_eq_of_lt hlow, Nat.zero_add,
        Nat.mod_eq_of_lt hlimb]
    · obtain ⟨d, rfl⟩ : ∃ d, k = i + 1 + d := ⟨k - i - 1, by omega⟩
      rw [ih (by omega), show i + 1 + d = i + (d + 1) by omega, place_add i, place_succ,
        show limb v (i + (d + 1)) * (place i * (2 ^ 64 * place d)) =
          limb v (i + (d + 1)) * place d * 2 ^ 64 * place i by ring,
        Nat.add_mul_div_right _ _ (place_pos i), Nat.add_mul_mod_self_right]

theorem limb_eq (v : Vector UInt64 n) (i : ℕ) : limb v i = value v / place i % 2 ^ 64 := by
  by_cases h : i < n
  · exact limb_eq_low h
  · have hle : place n ≤ place i := Nat.pow_le_pow_right (by decide) (by omega)
    have hlt : value v < place i := lt_of_lt_of_le (low_lt v n) hle
    rw [limb_of_le v (by omega), Nat.div_eq_of_lt hlt, Nat.zero_mod]

/-- Words above a number are zero. -/
theorem limb_eq_zero {v : Vector UInt64 n} {k i : ℕ} (h : value v < place k) (hi : k ≤ i) :
    limb v i = 0 := by
  have hle : place k ≤ place i := Nat.pow_le_pow_right (by decide) (by omega)
  rw [limb_eq, Nat.div_eq_of_lt (lt_of_lt_of_le h hle), Nat.zero_mod]

/-- The number determines the words. -/
theorem value_inj {v w : Vector UInt64 n} (h : value v = value w) : v = w := by
  ext i hi
  have hlimb : limb v i = limb w i := by rw [limb_eq, limb_eq, h]
  rw [limb, limb, Vector.getElem?_eq_getElem hi, Vector.getElem?_eq_getElem hi] at hlimb
  exact hlimb

theorem value_eq_zero_iff {v : Vector UInt64 n} : value v = 0 ↔ v = Vector.replicate n 0 := by
  constructor
  · exact fun h => value_inj (h.trans value_replicate.symm)
  · rintro rfl
    exact value_replicate

/-! ## Writing -/

/-- One word was written. -/
def Updates (v : Vector UInt64 n) (i x : ℕ) (w : Vector UInt64 n) : Prop :=
  ∀ j, limb w j = if j = i then x else limb v j

theorem write_spec (v : Vector UInt64 n) {i : ℕ} (h : i < n) (x : UInt64) :
    ∃ w, write v i x = some w ∧ Updates v i x.toNat w := by
  refine ⟨v.set i x h, dif_pos h, fun j => ?_⟩
  rw [limb, Vector.getElem?_set]
  by_cases hj : i = j
  · subst hj
    rw [if_pos rfl, if_pos rfl]
    rfl
  · rw [if_neg hj, if_neg (Ne.symm hj)]
    rfl

namespace Updates

variable {v w : Vector UInt64 n} {i x k : ℕ}

theorem same (h : Updates v i x w) : limb w i = x := by rw [h i, if_pos rfl]

theorem other (h : Updates v i x w) {j : ℕ} (hj : j ≠ i) : limb w j = limb v j := by
  rw [h j, if_neg hj]

theorem low_below (h : Updates v i x w) (hk : k ≤ i) : low w k = low v k :=
  low_congr fun j hj => h.other (by omega)

/-- The word before is replaced by the word written. -/
theorem low_above (h : Updates v i x w) (hk : i < k) :
    low w k + limb v i * place i = low v k + x * place i := by
  induction k with
  | zero => omega
  | succ k ih =>
    rw [low, low]
    by_cases heq : k = i
    · subst heq
      rw [h.low_below le_rfl, h.same]
      ring
    · rw [h.other heq]
      have hrest := ih (by omega)
      omega

theorem value (h : Updates v i x w) (hi : i < n) :
    value w + limb v i * place i = Limbs.value v + x * place i := h.low_above hi

end Updates

/-! ## Carries -/

/-- A sum is split into a word and a carry. -/
theorem carry_word {r s t p c : ℕ} (h : r + c * p = t) :
    r + (c + s) % 2 ^ 64 * p + (c + s) / 2 ^ 64 * (2 ^ 64 * p) = t + s * p := by
  have hsplit := Nat.mod_add_div (c + s) (2 ^ 64)
  linear_combination h + p * hsplit

/-- A comparison from the most significant word on. -/
theorem compare_low {m : ℕ} (v : Vector UInt64 n) (w : Vector UInt64 m) (k : ℕ) :
    compare (low v (k + 1)) (low w (k + 1)) =
      (compare (limb v k) (limb w k)).then (compare (low v k) (low w k)) := by
  have hv := low_lt v k
  have hw := low_lt w k
  rw [low, low]
  rcases lt_trichotomy (limb v k) (limb w k) with hlt | heq | hgt
  · have hstep : (limb v k + 1) * place k ≤ limb w k * place k := Nat.mul_le_mul_right _ hlt
    have hless : low v k + limb v k * place k < low w k + limb w k * place k := by linarith
    rw [compare_lt_iff_lt.mpr hlt, compare_lt_iff_lt.mpr hless]
    rfl
  · rw [heq, compare_eq_iff_eq.mpr rfl]
    rcases lt_trichotomy (low v k) (low w k) with h | h | h
    · rw [compare_lt_iff_lt.mpr h, compare_lt_iff_lt.mpr (by omega)]
      rfl
    · rw [h, compare_eq_iff_eq.mpr rfl, compare_eq_iff_eq.mpr rfl]
      rfl
    · rw [compare_gt_iff_gt.mpr h, compare_gt_iff_gt.mpr (show _ > _ by omega)]
      rfl
  · have hstep : (limb w k + 1) * place k ≤ limb v k * place k := Nat.mul_le_mul_right _ hgt
    have hless : low w k + limb w k * place k < low v k + limb v k * place k := by linarith
    rw [compare_gt_iff_gt.mpr hgt, compare_gt_iff_gt.mpr hless]
    rfl

end Limbs
