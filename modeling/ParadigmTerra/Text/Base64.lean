import ParadigmTerra.Text.Utf

/-!
# Base64

`base64Encode` writes the standard alphabet with padding. There are two decoders: `lenientDecode` skips
what is no digit, in either alphabet, and never fails; `strictDecode` reads the standard alphabet in
groups of four, line breaks apart, and reports whether it read all of the text. Both undo the encoding
(`lenientDecode_encode`, `strictDecode_encode`).
-/

namespace ParadigmTerra.Text

/-- The digit of a number below 64. -/
def base64Char (n : ℕ) : UInt16 :=
  UInt16.ofNat (if n < 26 then n + 65 else if n < 52 then n + 71 else if n < 62 then n - 4
    else if n = 62 then 43 else 47)

/-- The number that a digit of the standard alphabet stands for. -/
def base64Value (u : UInt16) : Option ℕ :=
  if 65 ≤ u.toNat ∧ u.toNat ≤ 90 then some (u.toNat - 65)
  else if 97 ≤ u.toNat ∧ u.toNat ≤ 122 then some (u.toNat - 71)
  else if 48 ≤ u.toNat ∧ u.toNat ≤ 57 then some (u.toNat + 4)
  else if u = 43 then some 62
  else if u = 47 then some 63
  else none

/-- The same with the alphabet for URLs beside it. -/
def base64UrlValue (u : UInt16) : Option ℕ :=
  if u = 45 then some 62 else if u = 95 then some 63 else base64Value u

def base64Encode : List UInt8 → Str
  | a :: b :: c :: r =>
    base64Char (a.toNat / 4) :: base64Char (a.toNat % 4 * 16 + b.toNat / 16) ::
      base64Char (b.toNat % 16 * 4 + c.toNat / 64) :: base64Char (c.toNat % 64) :: base64Encode r
  | [a, b] =>
    [base64Char (a.toNat / 4), base64Char (a.toNat % 4 * 16 + b.toNat / 16),
      base64Char (b.toNat % 16 * 4), 61]
  | [a] => [base64Char (a.toNat / 4), base64Char (a.toNat % 4 * 16), 61, 61]
  | [] => []

/-- The bytes of the digits, four at a time; the last ones may be fewer. -/
def sextetBytes : List ℕ → List UInt8
  | p :: q :: r :: s :: rest =>
    UInt8.ofNat (p * 4 + q / 16) :: UInt8.ofNat (q % 16 * 16 + r / 4) ::
      UInt8.ofNat (r % 4 * 64 + s) :: sextetBytes rest
  | [p, q, r] => [UInt8.ofNat (p * 4 + q / 16), UInt8.ofNat (q % 16 * 16 + r / 4)]
  | [p, q] => [UInt8.ofNat (p * 4 + q / 16)]
  | _ => []

def lenientDecode (s : Str) : List UInt8 := sextetBytes (s.filterMap base64UrlValue)

/-- The bytes of the groups up to one that is malformed, and whether there was none. -/
def strictGroups : Str → List UInt8 × Bool
  | [] => ([], true)
  | p :: q :: r :: s :: rest =>
    match base64Value p, base64Value q, base64Value r, base64Value s with
    | some p, some q, some r, some s =>
      let (bytes, ok) := strictGroups rest
      (sextetBytes [p, q, r, s] ++ bytes, ok)
    | some p, some q, some r, none =>
      if s = 61 then (sextetBytes [p, q, r], rest.isEmpty) else ([], false)
    | some p, some q, none, _ =>
      if r = 61 ∧ s = 61 then (sextetBytes [p, q], rest.isEmpty) else ([], false)
    | _, _, _, _ => ([], false)
  | _ => ([], false)

def strictDecode (s : Str) : List UInt8 × Bool :=
  strictGroups (s.filter fun u => u ≠ 10 ∧ u ≠ 13)

/-! ## Round trips -/

theorem base64Char_spec : ∀ n, n < 64 →
    base64Value (base64Char n) = some n ∧ base64UrlValue (base64Char n) = some n ∧
      base64Char n ≠ 10 ∧ base64Char n ≠ 13 := by decide

theorem sextetBytes_two (a : UInt8) : sextetBytes [a.toNat / 4, a.toNat % 4 * 16] = [a] := by
  have ha := a.toNat_lt
  rw [sextetBytes, show a.toNat / 4 * 4 + a.toNat % 4 * 16 / 16 = a.toNat by omega,
    UInt8.ofNat_toNat]

theorem sextetBytes_three (a b : UInt8) :
    sextetBytes [a.toNat / 4, a.toNat % 4 * 16 + b.toNat / 16, b.toNat % 16 * 4] = [a, b] := by
  have ha := a.toNat_lt
  have hb := b.toNat_lt
  rw [sextetBytes,
    show a.toNat / 4 * 4 + (a.toNat % 4 * 16 + b.toNat / 16) / 16 = a.toNat by omega,
    show (a.toNat % 4 * 16 + b.toNat / 16) % 16 * 16 + b.toNat % 16 * 4 / 4 = b.toNat by omega,
    UInt8.ofNat_toNat, UInt8.ofNat_toNat]

theorem sextetBytes_four (a b c : UInt8) (rest : List ℕ) :
    sextetBytes (a.toNat / 4 :: (a.toNat % 4 * 16 + b.toNat / 16) ::
      (b.toNat % 16 * 4 + c.toNat / 64) :: c.toNat % 64 :: rest) =
        a :: b :: c :: sextetBytes rest := by
  have ha := a.toNat_lt
  have hb := b.toNat_lt
  have hc := c.toNat_lt
  rw [sextetBytes,
    show a.toNat / 4 * 4 + (a.toNat % 4 * 16 + b.toNat / 16) / 16 = a.toNat by omega,
    show (a.toNat % 4 * 16 + b.toNat / 16) % 16 * 16 + (b.toNat % 16 * 4 + c.toNat / 64) / 4 =
      b.toNat by omega,
    show (b.toNat % 16 * 4 + c.toNat / 64) % 4 * 64 + c.toNat % 64 = c.toNat by omega,
    UInt8.ofNat_toNat, UInt8.ofNat_toNat, UInt8.ofNat_toNat]

theorem lenientDecode_encode (bytes : List UInt8) : lenientDecode (base64Encode bytes) = bytes := by
  have hpad : base64UrlValue 61 = none := by decide
  induction bytes using base64Encode.induct with
  | case1 a b c r ih =>
    have ha := a.toNat_lt
    have hb := b.toNat_lt
    have hc := c.toNat_lt
    rw [lenientDecode] at ih
    rw [lenientDecode, base64Encode,
      List.filterMap_cons_some (base64Char_spec _ (by omega)).2.1,
      List.filterMap_cons_some (base64Char_spec _ (by omega)).2.1,
      List.filterMap_cons_some (base64Char_spec _ (by omega)).2.1,
      List.filterMap_cons_some (base64Char_spec _ (by omega)).2.1, sextetBytes_four, ih]
  | case2 a b =>
    have ha := a.toNat_lt
    have hb := b.toNat_lt
    rw [lenientDecode, base64Encode,
      List.filterMap_cons_some (base64Char_spec _ (by omega)).2.1,
      List.filterMap_cons_some (base64Char_spec _ (by omega)).2.1,
      List.filterMap_cons_some (base64Char_spec _ (by omega)).2.1,
      List.filterMap_cons_none hpad, List.filterMap_nil, sextetBytes_three]
  | case3 a =>
    have ha := a.toNat_lt
    rw [lenientDecode, base64Encode,
      List.filterMap_cons_some (base64Char_spec _ (by omega)).2.1,
      List.filterMap_cons_some (base64Char_spec _ (by omega)).2.1,
      List.filterMap_cons_none hpad, List.filterMap_cons_none hpad, List.filterMap_nil,
      sextetBytes_two]
  | case4 => rfl

theorem strictGroups_encode (bytes : List UInt8) :
    strictGroups (base64Encode bytes) = (bytes, true) := by
  have hpad : base64Value 61 = none := by decide
  induction bytes using base64Encode.induct with
  | case1 a b c r ih =>
    have ha := a.toNat_lt
    have hb := b.toNat_lt
    have hc := c.toNat_lt
    rw [base64Encode, strictGroups, (base64Char_spec _ (by omega)).1,
      (base64Char_spec _ (by omega)).1, (base64Char_spec _ (by omega)).1,
      (base64Char_spec _ (by omega)).1, ih]
    simp only [sextetBytes_four]
    rfl
  | case2 a b =>
    have ha := a.toNat_lt
    have hb := b.toNat_lt
    rw [base64Encode, strictGroups, (base64Char_spec _ (by omega)).1,
      (base64Char_spec _ (by omega)).1, (base64Char_spec _ (by omega)).1, hpad]
    simp only [if_true, sextetBytes_three]
    rfl
  | case3 a =>
    have ha := a.toNat_lt
    rw [base64Encode, strictGroups, (base64Char_spec _ (by omega)).1,
      (base64Char_spec _ (by omega)).1, hpad]
    simp only [and_self, if_true, sextetBytes_two]
    rfl
  | case4 => rfl

/-- No digit of an encoding is a line break. -/
theorem filter_base64Encode (bytes : List UInt8) :
    (base64Encode bytes).filter (fun u => u ≠ 10 ∧ u ≠ 13) = base64Encode bytes := by
  have hchar : ∀ n, n < 64 → decide (base64Char n ≠ 10 ∧ base64Char n ≠ 13) = true := fun n hn =>
    decide_eq_true (base64Char_spec n hn).2.2
  have hpad : decide ((61 : UInt16) ≠ 10 ∧ (61 : UInt16) ≠ 13) = true := by decide
  rw [List.filter_eq_self]
  induction bytes using base64Encode.induct with
  | case1 a b c r ih =>
    have ha := a.toNat_lt
    have hb := b.toNat_lt
    have hc := c.toNat_lt
    rw [base64Encode, List.forall_mem_cons, List.forall_mem_cons, List.forall_mem_cons,
      List.forall_mem_cons]
    exact ⟨hchar _ (by omega), hchar _ (by omega), hchar _ (by omega), hchar _ (by omega), ih⟩
  | case2 a b =>
    have ha := a.toNat_lt
    have hb := b.toNat_lt
    rw [base64Encode, List.forall_mem_cons, List.forall_mem_cons, List.forall_mem_cons,
      List.forall_mem_singleton]
    exact ⟨hchar _ (by omega), hchar _ (by omega), hchar _ (by omega), hpad⟩
  | case3 a =>
    have ha := a.toNat_lt
    rw [base64Encode, List.forall_mem_cons, List.forall_mem_cons, List.forall_mem_cons,
      List.forall_mem_singleton]
    exact ⟨hchar _ (by omega), hchar _ (by omega), hpad, hpad⟩
  | case4 => exact fun _ h => (nomatch h)

theorem strictDecode_encode (bytes : List UInt8) :
    strictDecode (base64Encode bytes) = (bytes, true) := by
  rw [strictDecode, filter_base64Encode, strictGroups_encode]

end ParadigmTerra.Text
