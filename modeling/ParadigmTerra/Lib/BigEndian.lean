import Mathlib

/-!
# Numbers in big-endian bytes

`value` reads a string of bytes as a number, `encode` writes a number into a given count of bytes. They are
inverse between the numbers below `256 ^ len` and the strings of `len` bytes (`value_encode`, `encode_value`),
and strings of one length stand in the order of their numbers (`value_lt_iff`).
-/

namespace BigEndian

/-- The number of a string of bytes, the first of which weighs most. -/
def value (l : List UInt8) : ℕ := l.foldl (fun n b => 256 * n + b.toNat) 0

/-- The last bytes of a number. -/
def encode : ℕ → ℕ → List UInt8
  | 0, _ => []
  | len + 1, n => encode len (n / 256) ++ [UInt8.ofNat n]

@[simp] theorem length_encode (len n : ℕ) : (encode len n).length = len := by
  induction len generalizing n with
  | zero => rfl
  | succ len ih => rw [encode, List.length_append, ih, List.length_singleton]

@[simp] theorem value_nil : value [] = 0 := rfl

theorem value_concat (l : List UInt8) (b : UInt8) : value (l ++ [b]) = 256 * value l + b.toNat := by
  rw [value, List.foldl_append, List.foldl_cons, List.foldl_nil, ← value]

theorem value_cons (b : UInt8) (l : List UInt8) : value (b :: l) = b.toNat * 256 ^ l.length + value l := by
  induction l using List.reverseRecOn with
  | nil => rw [← List.nil_append [b], value_concat, value_nil, List.length_nil, pow_zero, Nat.mul_one,
      Nat.add_comm]
  | append_singleton l c ih =>
    rw [← List.cons_append, value_concat, value_concat, ih, List.length_append, List.length_singleton, pow_succ]
    ring

theorem value_lt (l : List UInt8) : value l < 256 ^ l.length := by
  induction l using List.reverseRecOn with
  | nil => exact Nat.one_pos
  | append_singleton l b ih =>
    have hb := b.toNat_lt
    rw [value_concat, List.length_append, List.length_singleton, pow_succ]
    omega

/-- A number is read back as far as its bytes were written. -/
theorem value_encode_mod (len n : ℕ) : value (encode len n) = n % 256 ^ len := by
  induction len generalizing n with
  | zero => rw [encode, value_nil, pow_zero, Nat.mod_one]
  | succ len ih =>
    have hsplit : n % 256 ^ (len + 1) = n % 256 + 256 * (n / 256 % 256 ^ len) := by
      rw [pow_succ', Nat.mod_mul]
    rw [encode, value_concat, ih, UInt8.toNat_ofNat', hsplit, Nat.add_comm]

theorem value_encode {len n : ℕ} (h : n < 256 ^ len) : value (encode len n) = n := by
  rw [value_encode_mod, Nat.mod_eq_of_lt h]

/-- Every string of bytes is the one of its number. -/
theorem encode_value (l : List UInt8) : encode l.length (value l) = l := by
  induction l using List.reverseRecOn with
  | nil => rfl
  | append_singleton l b ih =>
    have hb := b.toNat_lt
    have hhigh : (256 * value l + b.toNat) / 256 = value l := by omega
    have hlow : UInt8.ofNat (256 * value l + b.toNat) = b := by
      rw [← UInt8.toNat_inj, UInt8.toNat_ofNat']
      omega
    rw [List.length_append, List.length_singleton, encode, value_concat, hhigh, ih, hlow]

theorem value_inj {l l' : List UInt8} (hlength : l.length = l'.length) (h : value l = value l') : l = l' := by
  rw [← encode_value l, ← encode_value l', hlength, h]

/-- The first byte in which two strings differ decides about their numbers. -/
theorem value_lt_iff {l l' : List UInt8} (hlength : l.length = l'.length) : value l < value l' ↔ l < l' := by
  induction l generalizing l' with
  | nil =>
    cases l' with
    | nil => simp
    | cons b' l' => cases hlength
  | cons b l ih =>
    cases l' with
    | nil => cases hlength
    | cons b' l' =>
      have hlength : l.length = l'.length := Nat.succ.inj hlength
      have hl := value_lt l
      have hl' := value_lt l'
      rw [value_cons, value_cons, List.cons_lt_cons_iff, ← ih hlength, hlength]
      rw [hlength] at hl
      rcases lt_trichotomy b.toNat b'.toNat with hlt | heq | hgt
      · -- one more of the highest weight is more than all the bytes behind
        have hstep : (b.toNat + 1) * 256 ^ l'.length ≤ b'.toNat * 256 ^ l'.length := Nat.mul_le_mul_right _ hlt
        rw [Nat.add_mul, Nat.one_mul] at hstep
        exact iff_of_true (by omega) (.inl (UInt8.lt_iff_toNat_lt.mpr hlt))
      · obtain rfl : b = b' := UInt8.toNat_inj.mp heq
        constructor
        · exact fun h => .inr ⟨rfl, by omega⟩
        · rintro (h | ⟨-, h⟩)
          · exact absurd h (UInt8.lt_irrefl b)
          · omega
      · have hstep : (b'.toNat + 1) * 256 ^ l'.length ≤ b.toNat * 256 ^ l'.length := Nat.mul_le_mul_right _ hgt
        rw [Nat.add_mul, Nat.one_mul] at hstep
        refine iff_of_false (by omega) ?_
        rintro (h | ⟨rfl, -⟩)
        · exact absurd (UInt8.lt_iff_toNat_lt.mp h) (by omega)
        · omega

end BigEndian
