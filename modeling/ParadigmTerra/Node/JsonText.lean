import Mathlib
import ParadigmTerra.Canonical.Numerals

/-!
# JSON texts

`stringify` and `parse` are the language's `JSON.stringify` and `JSON.parse` on plain JSON values. The
reader is a machine that takes one code unit after another, with a stack of the arrays and objects that
are still open.

`parse_stringify` is the round trip. `parse_cut` says what the log relies on: the text of an object that
is cut short anywhere, with or without a replacement character for the character at the cut, is no JSON.
-/

namespace ParadigmTerra.JsonText

open Text OrderedMap

/-- A JSON value. A number is its text. -/
inductive Raw
  | null
  | bool (b : Bool)
  | num (lexeme : Str)
  | str (s : Str)
  | arr (xs : List Raw)
  | obj (m : List (Str × Raw))

/-! ## Writing -/

/-- `\uXXXX`. -/
def unicodeEscape (u : UInt16) : Str :=
  js "\\u" ++ [hexDigit (u.toNat / 4096), hexDigit (u.toNat / 256 % 16),
    hexDigit (u.toNat / 16 % 16), hexDigit (u.toNat % 16)]

/-- A code unit that stands outside of a surrogate pair, inside a string literal. -/
def quoteUnit (u : UInt16) : Str := if isHigh u || isLow u then unicodeEscape u else escapeUnit u

/-- The inside of a string literal. Only lone surrogates are escaped among the surrogates. -/
def quoteUnits : Str → Str
  | [] => []
  | [u] => quoteUnit u
  | u :: v :: s =>
    if isHigh u && isLow v then u :: v :: quoteUnits s else quoteUnit u ++ quoteUnits (v :: s)

/-- A string literal. -/
def quote (s : Str) : Str := 0x22 :: quoteUnits s ++ [0x22]

mutual

/-- `JSON.stringify(v)`. -/
def stringify : Raw → Str
  | .null => js "null"
  | .bool b => if b then js "true" else js "false"
  | .num l => l
  | .str s => quote s
  | .arr xs => 0x5B :: stringifyElements xs ++ [0x5D]
  | .obj m => 0x7B :: stringifyMembers m ++ [0x7D]

def stringifyElements : List Raw → Str
  | [] => []
  | [x] => stringify x
  | x :: y :: xs => stringify x ++ 0x2C :: stringifyElements (y :: xs)

def stringifyMembers : List (Str × Raw) → Str
  | [] => []
  | [(k, x)] => quote k ++ 0x3A :: stringify x
  | (k, x) :: e :: m => quote k ++ 0x3A :: stringify x ++ 0x2C :: stringifyMembers (e :: m)

end

/-! ## Reading -/

/-- A unit that a number can contain. -/
def isNumberUnit (u : UInt16) : Bool :=
  isDigit u || u = 0x2D || u = 0x2B || u = 0x2E || u = 0x65 || u = 0x45

/-- `[+-]?\d+` -/
def isExponentDigits : Str → Bool
  | 0x2B :: s | 0x2D :: s => s ≠ [] && s.all isDigit
  | s => s ≠ [] && s.all isDigit

/-- `([eE][+-]?\d+)?` -/
def isExponent : Str → Bool
  | [] => true
  | e :: s => (e = 0x65 || e = 0x45) && isExponentDigits s

/-- `(\.\d+)?([eE][+-]?\d+)?` -/
def isFraction : Str → Bool
  | 0x2E :: s => s.takeWhile isDigit ≠ [] && isExponent (s.dropWhile isDigit)
  | s => isExponent s

/-- The grammar of numbers. -/
def isNumber (s : Str) : Bool :=
  let r := (splitSign s).2
  let int := r.takeWhile isDigit
  int ≠ [] && (int.head? ≠ some 48 || int.length = 1) && isFraction (r.dropWhile isDigit)

/-- The literals other than numbers and strings. -/
inductive Literal
  | true
  | false
  | null

def Literal.text : Literal → Str
  | .true => js "true"
  | .false => js "false"
  | .null => js "null"

def Literal.value : Literal → Raw
  | .true => .bool Bool.true
  | .false => .bool Bool.false
  | .null => .null

/-- An array or object that is still open, with what it holds so far. -/
inductive Frame
  | arr (xs : List Raw)
  /-- An object of which a key is read. -/
  | key (m : List (Str × Raw))
  /-- An object of which the value under `k` is read. -/
  | field (m : List (Str × Raw)) (k : Str)

/-- What the reader expects next. -/
inductive Mode
  | value
  | firstElement
  | firstKey
  | nextKey
  | colon (k : Str)
  | string (isKey : Bool) (s : Str)
  | escape (isKey : Bool) (s : Str)
  | unicode (isKey : Bool) (s : Str) (digits : List UInt16)
  | number (lexeme : Str)
  /-- The rest of a literal, of which `n` units are read. -/
  | word (l : Literal) (n : ℕ)
  | done (v : Raw)

/-- The open arrays and objects, innermost first, and what is expected next. -/
abbrev Reader := List Frame × Mode

/-- A unit where a value begins. -/
def readValue (st : List Frame) (c : UInt16) : Option Reader :=
  if isSpace c then some (st, .value)
  else if c = 0x22 then some (st, .string false [])
  else if c = 0x5B then some (.arr [] :: st, .firstElement)
  else if c = 0x7B then some (.key [] :: st, .firstKey)
  else if c = 0x2D || isDigit c then some (st, .number [c])
  else if c = 0x74 then some (st, .word .true 1)
  else if c = 0x66 then some (st, .word .false 1)
  else if c = 0x6E then some (st, .word .null 1)
  else none

/-- A unit after a value. -/
def readAfter (st : List Frame) (v : Raw) (c : UInt16) : Option Reader :=
  if isSpace c then some (st, .done v)
  else
    match st with
    | .arr xs :: st =>
      if c = 0x2C then some (.arr (xs ++ [v]) :: st, .value)
      else if c = 0x5D then some (st, .done (.arr (xs ++ [v])))
      else none
    | .field m k :: st =>
      if c = 0x2C then some (.key (put keyBefore k v m) :: st, .nextKey)
      else if c = 0x7D then some (st, .done (.obj (put keyBefore k v m)))
      else none
    | _ => none

/-- The end of a string. -/
def closeString (st : List Frame) (isKey : Bool) (s : Str) : Reader :=
  (st, if isKey then .colon s else .done (.str s))

/-- A unit that the reader takes. -/
def read (r : Reader) (c : UInt16) : Option Reader :=
  let (st, mode) := r
  match mode with
  | .value => readValue st c
  | .firstElement =>
    if isSpace c then some (st, .firstElement)
    else if c = 0x5D then some (st.tail, .done (.arr []))
    else readValue st c
  | .firstKey =>
    if isSpace c then some (st, .firstKey)
    else if c = 0x7D then some (st.tail, .done (.obj []))
    else if c = 0x22 then some (st, .string true [])
    else none
  | .nextKey =>
    if isSpace c then some (st, .nextKey)
    else if c = 0x22 then some (st, .string true [])
    else none
  | .colon k =>
    if isSpace c then some (st, .colon k)
    else if c = 0x3A then
      match st with
      | .key m :: st => some (.field m k :: st, .value)
      | _ => none
    else none
  | .string isKey s =>
    if c = 0x22 then some (closeString st isKey s)
    else if c = 0x5C then some (st, .escape isKey s)
    else if c.toNat < 0x20 then none
    else some (st, .string isKey (s ++ [c]))
  | .escape isKey s =>
    if c = 0x75 then some (st, .unicode isKey s [])
    else (simpleEscape c).map fun u => (st, .string isKey (s ++ [u]))
  | .unicode isKey s digits =>
    if isHexDigit c then
      match digits with
      | [x, y, z] =>
        let code := hexValue x * 4096 + hexValue y * 256 + hexValue z * 16 + hexValue c
        some (st, .string isKey (s ++ [UInt16.ofNat code]))
      | _ => some (st, .unicode isKey s (digits ++ [c]))
    else none
  | .number l =>
    if isNumberUnit c then some (st, .number (l ++ [c]))
    else if isNumber l then readAfter st (.num l) c
    else none
  | .word l n =>
    if l.text[n]? = some c then
      some (st, if n + 1 = l.text.length then .done l.value else .word l (n + 1))
    else none
  | .done v => readAfter st v c

/-- The value that has been read when the text ends. -/
def finish : Reader → Option Raw
  | ([], .done v) => some v
  | ([], .number l) => if isNumber l then some (.num l) else none
  | _ => none

/-- The reader after a text. -/
def readAll (r : Reader) (s : Str) : Option Reader := s.foldlM read r

/-- `JSON.parse(s)`. -/
def parse (s : Str) : Option Raw := (readAll ([], .value) s).bind finish


/-! ## The reader on texts -/

variable {st : List Frame} {b : Bool} {s t : Str} {r r' : Reader}

theorem readAll_append (r : Reader) (s t : Str) :
    readAll r (s ++ t) = (readAll r s).bind fun r' => readAll r' t := List.foldlM_append

@[simp] theorem readAll_nil (r : Reader) : readAll r [] = some r := rfl

@[simp] theorem readAll_cons (r : Reader) (c : UInt16) (s : Str) :
    readAll r (c :: s) = (read r c).bind fun r' => readAll r' s := rfl

/-- The reader goes on from where it is after the first text. -/
theorem readAll_append_of (h : readAll r s = some r') (t : Str) :
    readAll r (s ++ t) = readAll r' t := by rw [readAll_append, h, Option.bind_some]

/-! ## Strings -/

/-- A unit that is escaped by its code is read back. -/
theorem readAll_unicodeEscape (st : List Frame) (b : Bool) (s : Str) (u : UInt16) :
    readAll (st, .string b s) (unicodeEscape u) = some (st, .string b (s ++ [u])) := by
  have hu := u.toNat_lt
  obtain ⟨h1, v1⟩ := hexDigit_spec (u.toNat / 4096) (by omega)
  obtain ⟨h2, v2⟩ := hexDigit_spec (u.toNat / 256 % 16) (by omega)
  obtain ⟨h3, v3⟩ := hexDigit_spec (u.toNat / 16 % 16) (by omega)
  obtain ⟨h4, v4⟩ := hexDigit_spec (u.toNat % 16) (by omega)
  have hcode : u.toNat / 4096 * 4096 + u.toNat / 256 % 16 * 256 + u.toNat / 16 % 16 * 16 +
      u.toNat % 16 = u.toNat := by omega
  have hjs : js "\\u" = [0x5C, 0x75] := by decide
  rw [unicodeEscape, hjs]
  simp [read, h1, h2, h3, h4, v1, v2, v3, v4, hcode, -UInt16.ofNat_add, -UInt16.ofNat_mul]

/-- A unit that is escaped where it has to be is read back. -/
theorem readAll_escapeUnit (st : List Frame) (b : Bool) (s : Str) (u : UInt16) :
    readAll (st, .string b s) (escapeUnit u) = some (st, .string b (s ++ [u])) := by
  unfold escapeUnit
  split_ifs with h1 h2 h3 h4 h5 h6 h7 h8
  iterate 7 (subst_vars; rfl)
  · -- a control character is escaped by its code, with two zeros in front
    have hcode := readAll_unicodeEscape st b s u
    have hjs : js "\\u00" ++ [hexDigit (u.toNat / 16), hexDigit (u.toNat % 16)] =
        unicodeEscape u := by
      have e1 : u.toNat / 4096 = 0 := by omega
      have e2 : u.toNat / 256 % 16 = 0 := by omega
      have e3 : u.toNat / 16 % 16 = u.toNat / 16 := by omega
      rw [unicodeEscape, e1, e2, e3]
      rfl
    rw [hjs, hcode]
  · simp [read, h1, h2, h8]

/-- A unit outside of a surrogate pair is read back. -/
theorem readAll_quoteUnit (st : List Frame) (b : Bool) (s : Str) (u : UInt16) :
    readAll (st, .string b s) (quoteUnit u) = some (st, .string b (s ++ [u])) := by
  unfold quoteUnit
  split
  · exact readAll_unicodeEscape st b s u
  · exact readAll_escapeUnit st b s u

/-- The inside of a string literal is read back. -/
theorem readAll_quoteUnits (st : List Frame) (b : Bool) (s t : Str) :
    readAll (st, .string b s) (quoteUnits t) = some (st, .string b (s ++ t)) := by
  induction t using quoteUnits.induct generalizing s with
  | case1 => simp [quoteUnits]
  | case2 u => rw [quoteUnits, readAll_quoteUnit]
  | case3 u v t h ih =>
    have hplain : ∀ w, (isHigh w || isLow w) = true → ∀ s,
        read (st, .string b s) w = some (st, .string b (s ++ [w])) := by
      intro w hw s
      have h1 : w ≠ 0x22 := by rintro rfl; cases hw
      have h2 : w ≠ 0x5C := by rintro rfl; cases hw
      have h3 : ¬w.toNat < 0x20 := by
        simp only [isHigh, isLow, Bool.or_eq_true, Bool.and_eq_true, decide_eq_true_eq] at hw
        omega
      simp [read, h1, h2, h3]
    rw [Bool.and_eq_true] at h
    rw [quoteUnits, if_pos (by simp [h]), readAll_cons, hplain u (by simp [h]), Option.bind_some,
      readAll_cons, hplain v (by simp [h]), Option.bind_some, ih]
    simp
  | case4 u v t h ih =>
    rw [quoteUnits, if_neg h, readAll_append_of (readAll_quoteUnit st b s u), ih]
    simp

/-- A string literal is read back. -/
theorem readAll_quote_tail (st : List Frame) (b : Bool) (s : Str) :
    readAll (st, .string b []) (quoteUnits s ++ [0x22]) = some (closeString st b s) := by
  rw [readAll_append_of (readAll_quoteUnits st b [] s)]
  rfl

/-! ## Values -/

mutual

/-- The values that are written: natural numbers only, and objects with their members in order. -/
def Raw.Proper : Raw → Prop
  | .num l => isDecimal l = true
  | .arr xs => ProperElements xs
  | .obj m => Normal keyBefore m ∧ ProperMembers m
  | _ => True

def ProperElements : List Raw → Prop
  | [] => True
  | x :: xs => x.Proper ∧ ProperElements xs

def ProperMembers : List (Str × Raw) → Prop
  | [] => True
  | (_, x) :: m => x.Proper ∧ ProperMembers m

end

/-- What is expected after the text of a value. A number may still go on. -/
def Raw.after : Raw → Mode
  | .num l => .number l
  | v => .done v

theorem isNumber_of_isDecimal {l : Str} (h : isDecimal l = true) : isNumber l = true := by
  simp only [isDecimal, Bool.and_eq_true] at h
  obtain ⟨⟨hne, hall⟩, hhead⟩ := h
  have hsign : (splitSign l).2 = l := by
    unfold splitSign
    split
    · simp [isDigit] at hall
    · rfl
  have hall' : ∀ u ∈ l, isDigit u = true := List.all_eq_true.mp hall
  have htake : l.takeWhile isDigit = l := List.takeWhile_eq_self_iff.mpr hall'
  have hdrop : l.dropWhile isDigit = [] := List.dropWhile_eq_nil_iff.mpr hall'
  simp only [isNumber, hsign, htake, hdrop, hne, hhead, Bool.and_true]
  rfl

/-- The units of a number that is written. -/
theorem readAll_number {l t : Str} (ht : ∀ u ∈ t, isDigit u = true) :
    readAll (st, .number l) t = some (st, .number (l ++ t)) := by
  induction t generalizing l with
  | nil => simp
  | cons u t ih =>
    have hu : isNumberUnit u = true := by simp [isNumberUnit, ht u (by simp)]
    rw [readAll_cons, read, if_pos hu, Option.bind_some, ih fun w hw => ht w (by simp [hw])]
    simp

theorem readValue_digit {u : UInt16} (h : isDigit u = true) :
    readValue st u = some (st, .number [u]) := by
  have hr : 48 ≤ u.toNat ∧ u.toNat ≤ 57 := by simpa [isDigit] using h
  have hspace : isSpace u = false := by
    simp only [isSpace, Bool.or_eq_false_iff, decide_eq_false_iff_not, ← UInt16.toNat_inj]
    exact ⟨⟨⟨by simp; omega, by simp; omega⟩, by simp; omega⟩, by simp; omega⟩
  have hne : ∀ n : UInt16, n.toNat < 48 ∨ 57 < n.toNat → u ≠ n := by
    rintro n hn rfl
    omega
  rw [readValue, if_neg (by simp [hspace]), if_neg (hne _ (by decide)), if_neg (hne _ (by decide)),
    if_neg (hne _ (by decide)), if_pos (by simp [h])]

/-- The first unit of a text opens a value. -/
theorem head_stringify {v : Raw} (hv : v.Proper) :
    ∃ c t, stringify v = c :: t ∧ isSpace c = false ∧ c ≠ 0x5D := by
  cases v with
  | null => exact ⟨_, _, rfl, by decide, by decide⟩
  | bool b => cases b <;> exact ⟨_, _, rfl, by decide, by decide⟩
  | str s => exact ⟨_, _, rfl, by decide, by decide⟩
  | arr xs => exact ⟨_, _, rfl, by decide, by decide⟩
  | obj m => exact ⟨_, _, rfl, by decide, by decide⟩
  | num l =>
    simp only [Raw.Proper, isDecimal, Bool.and_eq_true] at hv
    cases l with
    | nil => simp at hv
    | cons u l =>
      have hu : isDigit u = true := by simp at hv; exact hv.1.1
      refine ⟨u, l, rfl, ?_, ?_⟩
      · by_contra hs
        have : readValue [] u = some ([], .number [u]) := readValue_digit hu
        rw [readValue, if_pos (by simpa using hs)] at this
        cases this
      · rintro rfl
        cases hu

/-- After a value, a unit that no number contains closes it. -/
theorem read_after {v : Raw} (hv : v.Proper) {c : UInt16} (hc : isNumberUnit c = false) :
    read (st, v.after) c = readAfter st v c := by
  cases v with
  | num l => simp [Raw.after, read, hc, isNumber_of_isDecimal hv]
  | _ => rfl

theorem readAll_quote (st : List Frame) (s : Str) :
    readAll (st, .value) (quote s) = some (st, .done (.str s)) := by
  rw [quote, List.cons_append, readAll_cons]
  exact readAll_quote_tail st false s

/-- A key and its colon. -/
theorem readAll_key {m : List (Str × Raw)} (k : Str) {mode : Mode}
    (hmode : mode = .firstKey ∨ mode = .nextKey) (t : Str) :
    readAll (.key m :: st, mode) (quote k ++ 0x3A :: t) =
      readAll (.field m k :: st, .value) t := by
  have hopen : read (.key m :: st, mode) 0x22 = some (.key m :: st, .string true []) := by
    rcases hmode with rfl | rfl <;> rfl
  rw [quote, List.cons_append, List.cons_append, readAll_cons, hopen, Option.bind_some,
    readAll_append_of (readAll_quote_tail (.key m :: st) true k)]
  rfl

mutual

/-- The text of a value is read back, wherever a value may stand. -/
theorem readAll_stringify (v : Raw) (hv : v.Proper) (st : List Frame) :
    readAll (st, .value) (stringify v) = some (st, v.after) := by
  cases v with
  | null => rfl
  | bool b => cases b <;> rfl
  | str s => exact readAll_quote st s
  | num l =>
    have hdec := hv
    simp only [Raw.Proper, isDecimal, Bool.and_eq_true] at hdec
    cases l with
    | nil => simp at hdec
    | cons u l =>
      have hall : ∀ w ∈ u :: l, isDigit w = true := List.all_eq_true.mp hdec.1.2
      rw [stringify, readAll_cons, read, readValue_digit (hall u (by simp)), Option.bind_some,
        readAll_number fun w hw => hall w (by simp [hw])]
      rfl
  | arr xs =>
    rw [stringify, List.cons_append, readAll_cons]
    cases xs with
    | nil => rfl
    | cons x xs =>
      have h := readAll_elements (x :: xs) hv (by simp) [] st
      -- the first unit of an element is neither a space nor a closing bracket
      have hfirst : ∀ t, readAll (.arr [] :: st, .firstElement) (stringify x ++ t) =
          readAll (.arr [] :: st, .value) (stringify x ++ t) := by
        intro t
        obtain ⟨c, u, hu, hs, hc⟩ := head_stringify hv.1
        rw [hu, List.cons_append, readAll_cons, readAll_cons]
        simp [read, hs, hc]
      have hopen : read (st, .value) 0x5B = some (.arr [] :: st, .firstElement) := rfl
      rw [hopen, Option.bind_some]
      cases xs with
      | nil => rw [stringifyElements, hfirst]; exact h
      | cons y ys =>
        rw [stringifyElements, List.append_assoc] at h ⊢
        rw [hfirst]
        exact h
  | obj m =>
    rw [stringify, List.cons_append, readAll_cons]
    cases m with
    | nil => rfl
    | cons e m =>
      obtain ⟨hnormal, hm⟩ := hv
      have h := readAll_members (e :: m) hm (by simp) [] .firstKey (.inl rfl) st
      rw [foldl_put_normal _ [] hnormal] at h
      exact h

theorem readAll_elements (xs : List Raw) (hxs : ProperElements xs) (hne : xs ≠ [])
    (done : List Raw) (st : List Frame) :
    readAll (.arr done :: st, .value) (stringifyElements xs ++ [0x5D]) =
      some (st, .done (.arr (done ++ xs))) := by
  cases xs with
  | nil => exact absurd rfl hne
  | cons x xs =>
    have hx := readAll_stringify x hxs.1 (.arr done :: st)
    cases xs with
    | nil =>
      rw [stringifyElements, readAll_append_of hx, readAll_cons, read_after hxs.1 (by decide)]
      rfl
    | cons y ys =>
      have ih := readAll_elements (y :: ys) hxs.2 (by simp) (done ++ [x]) st
      rw [stringifyElements, List.append_assoc, readAll_append_of hx, List.cons_append,
        readAll_cons, read_after hxs.1 (by decide)]
      rw [List.append_assoc] at ih
      exact ih

theorem readAll_members (m : List (Str × Raw)) (hm : ProperMembers m) (hne : m ≠ [])
    (acc : List (Str × Raw)) (mode : Mode) (hmode : mode = .firstKey ∨ mode = .nextKey)
    (st : List Frame) :
    readAll (.key acc :: st, mode) (stringifyMembers m ++ [0x7D]) =
      some (st, .done (.obj (m.foldl (fun a e => put keyBefore e.1 e.2 a) acc))) := by
  cases m with
  | nil => exact absurd rfl hne
  | cons e m =>
    obtain ⟨k, x⟩ := e
    have hx := readAll_stringify x hm.1 (.field acc k :: st)
    cases m with
    | nil =>
      simp only [stringifyMembers, List.append_assoc, List.cons_append]
      rw [readAll_key k hmode, readAll_append_of hx, readAll_cons, read_after hm.1 (by decide)]
      rfl
    | cons e m =>
      have ih := readAll_members (e :: m) hm.2 (by simp) (put keyBefore k x acc) .nextKey (.inr rfl)
        st
      simp only [stringifyMembers, List.append_assoc, List.cons_append]
      rw [readAll_key k hmode, readAll_append_of hx, readAll_cons, read_after hm.1 (by decide)]
      exact ih

end

/-- The round trip. -/
theorem parse_stringify {v : Raw} (hv : v.Proper) : parse (stringify v) = some v := by
  rw [parse, readAll_stringify v hv [], Option.bind_some]
  cases v with
  | num l => exact if_pos (isNumber_of_isDecimal hv)
  | _ => rfl

/-! ## Texts that are cut short -/

/-- A reader that has read a whole value. -/
def Reader.Closed (r : Reader) : Prop :=
  r.1 = [] ∧ ((∃ v, r.2 = .done v) ∨ ∃ l, r.2 = .number l)

theorem closed_of_finish {v : Raw} (h : finish r = some v) : Reader.Closed r := by
  obtain ⟨st, mode⟩ := r
  unfold finish at h
  split at h
  · next heq => cases heq; exact ⟨rfl, .inl ⟨_, rfl⟩⟩
  · next heq => cases heq; exact ⟨rfl, .inr ⟨_, rfl⟩⟩
  · cases h

theorem readAfter_nil {v : Raw} {c : UInt16} (h : readAfter [] v c = some r) :
    isSpace c = true ∧ r = ([], .done v) := by
  unfold readAfter at h
  split at h
  · next hs => exact ⟨hs, (Option.some.inj h).symm⟩
  · cases h

/-- After a whole value only white space and the rest of a number can follow, and no brace. -/
theorem Reader.Closed.read {c : UInt16} (hr : Reader.Closed r) (h : read r c = some r') :
    Reader.Closed r' ∧ c ≠ 0x7D := by
  obtain ⟨st, mode⟩ := r
  obtain ⟨rfl, ⟨v, rfl⟩ | ⟨l, rfl⟩⟩ := hr
  · obtain ⟨hs, rfl⟩ := readAfter_nil h
    refine ⟨⟨rfl, .inl ⟨v, rfl⟩⟩, ?_⟩
    rintro rfl
    cases hs
  · simp only [JsonText.read] at h
    split_ifs at h with hc hl
    · cases h
      refine ⟨⟨rfl, .inr ⟨_, rfl⟩⟩, ?_⟩
      rintro rfl
      cases hc
    · obtain ⟨hs, rfl⟩ := readAfter_nil h
      refine ⟨⟨rfl, .inl ⟨_, rfl⟩⟩, ?_⟩
      rintro rfl
      cases hs

theorem Reader.Closed.readAll (hr : Reader.Closed r) (h : readAll r s = some r') :
    (0x7D : UInt16) ∉ s := by
  induction s generalizing r with
  | nil => simp
  | cons c s ih =>
    rw [readAll_cons, Option.bind_eq_some_iff] at h
    obtain ⟨r₁, h₁, h⟩ := h
    obtain ⟨hr₁, hc⟩ := hr.read h₁
    simpa [eq_comm, hc] using ih hr₁ h

/-- A text that a brace ends is no value when it is cut short. -/
theorem parse_cut {p q : Str} (h : (parse (p ++ q ++ [0x7D])).isSome) : parse p = none := by
  cases hp : parse p with
  | none => rfl
  | some v =>
    rw [parse, Option.bind_eq_some_iff] at hp
    obtain ⟨r, hr, hfin⟩ := hp
    rw [parse, List.append_assoc, readAll_append_of hr] at h
    cases hq : JsonText.readAll r (q ++ [0x7D]) with
    | none => rw [hq] at h; cases h
    | some r' => exact absurd (by simp) ((closed_of_finish hfin).readAll hq)

/-- A replacement character can only stand in a string. -/
theorem read_replacement (h : read r replacement = some r') : finish r' = none := by
  obtain ⟨st, mode⟩ := r
  have hvalue : ∀ st, readValue st replacement = none := fun st => rfl
  have hafter : ∀ st v, readAfter st v replacement = none := by
    intro st v
    cases st with
    | nil => rfl
    | cons f st => cases f <;> rfl
  cases mode with
  | string b s =>
    cases h
    cases st <;> rfl
  | word l n =>
    have hmem : replacement ∉ l.text := by cases l <;> decide
    simp only [read] at h
    split_ifs at h with hc
    · exact absurd (List.mem_of_getElem? hc) hmem
    · exact absurd (List.mem_of_getElem? hc) hmem
  | value => rw [read, hvalue] at h; cases h
  | firstElement =>
    change readValue st replacement = some r' at h
    rw [hvalue] at h
    cases h
  | firstKey => cases h
  | nextKey => cases h
  | colon k => cases h
  | escape b s => cases h
  | unicode b s d => cases h
  | number l =>
    simp only [read] at h
    split_ifs at h with hc hl
    · cases hc
    · rw [hafter] at h; cases h
  | done v => rw [read, hafter] at h; cases h

/-- A text that ends in a replacement character is no value. -/
theorem parse_replacement (p : Str) : parse (p ++ [replacement]) = none := by
  rw [parse, readAll_append]
  cases readAll ([], .value) p with
  | none => rfl
  | some r =>
    rw [Option.bind_some, readAll_cons]
    cases h : read r replacement with
    | none => rfl
    | some r' => exact read_replacement h

/-! ## The units that are written -/

/-- A text that survives a file: its surrogates are paired, and it has no control character, in
particular no line break. -/
def Printable (s : Str) : Prop := wellFormed s = true ∧ ∀ c ∈ s, 0x20 ≤ c.toNat

theorem Printable.append (hs : Printable s) (ht : Printable t) : Printable (s ++ t) := by
  refine ⟨wellFormed_append hs.1 ht.1, fun c hc => ?_⟩
  rcases List.mem_append.mp hc with hc | hc
  · exact hs.2 c hc
  · exact ht.2 c hc

theorem printable_of_forall
    (h : ∀ c ∈ s, 0x20 ≤ c.toNat ∧ isHigh c = false ∧ isLow c = false) : Printable s :=
  ⟨wellFormed_of_forall fun c hc => (h c hc).2, fun c hc => (h c hc).1⟩

/-- The check of a text that is at hand. -/
theorem printable_of_check
    (h : (s.all fun c => 0x20 ≤ c.toNat && !isHigh c && !isLow c) = true) : Printable s :=
  printable_of_forall fun c hc => by
    have hcheck := List.all_eq_true.mp h c hc
    simpa [Bool.and_eq_true, and_assoc] using hcheck

theorem Printable.cons {c : UInt16} (hs : Printable s) (hc : Printable [c]) : Printable (c :: s) :=
  hc.append hs

theorem hexDigit_printable :
    ∀ n, n < 16 → 0x20 ≤ (hexDigit n).toNat ∧ isHigh (hexDigit n) = false ∧
      isLow (hexDigit n) = false := by decide

theorem printable_quoteUnit (u : UInt16) : Printable (quoteUnit u) := by
  have hu := u.toNat_lt
  have h1 := hexDigit_printable (u.toNat / 4096) (by omega)
  have h2 := hexDigit_printable (u.toNat / 256 % 16) (by omega)
  have h3 := hexDigit_printable (u.toNat / 16 % 16) (by omega)
  have h4 := hexDigit_printable (u.toNat % 16) (by omega)
  unfold quoteUnit
  split
  · have hjs : js "\\u" = [0x5C, 0x75] := by decide
    rw [unicodeEscape, hjs]
    refine printable_of_forall fun c hc => ?_
    simp only [List.cons_append, List.nil_append, List.mem_cons, List.not_mem_nil, or_false] at hc
    rcases hc with rfl | rfl | rfl | rfl | rfl | rfl
    · decide
    · decide
    · exact h1
    · exact h2
    · exact h3
    · exact h4
  · next hs =>
    rw [Bool.or_eq_true, not_or, Bool.not_eq_true, Bool.not_eq_true] at hs
    unfold escapeUnit
    split_ifs with h1 h2 h3 h4 h5 h6 h7 h8
    iterate 7 exact printable_of_check (by decide)
    · have hhi := hexDigit_printable (u.toNat / 16) (by omega)
      refine Printable.append (printable_of_check (by decide)) (printable_of_forall fun c hc => ?_)
      simp only [List.mem_cons, List.not_mem_nil, or_false] at hc
      rcases hc with rfl | rfl
      · exact hhi
      · exact hexDigit_printable (u.toNat % 16) (by omega)
    · refine printable_of_forall fun c hc => ?_
      obtain rfl := List.mem_singleton.mp hc
      exact ⟨by omega, hs⟩

theorem printable_quoteUnits (s : Str) : Printable (quoteUnits s) := by
  induction s using quoteUnits.induct with
  | case1 => exact printable_of_forall (by simp [quoteUnits])
  | case2 u => exact printable_quoteUnit u
  | case3 u v s h ih =>
    rw [quoteUnits, if_pos h]
    rw [Bool.and_eq_true] at h
    refine ⟨by simp [wellFormed, h, ih.1], fun c hc => ?_⟩
    have hu := h.1
    have hv := h.2
    simp only [isHigh, isLow, Bool.and_eq_true, decide_eq_true_eq] at hu hv
    rcases List.mem_cons.mp hc with rfl | hc
    · omega
    rcases List.mem_cons.mp hc with rfl | hc
    · omega
    · exact ih.2 c hc
  | case4 u v s h ih =>
    rw [quoteUnits, if_neg h]
    exact (printable_quoteUnit u).append ih

theorem printable_quote (s : Str) : Printable (quote s) :=
  ((printable_quoteUnits s).cons (printable_of_check (by decide))).append
    (printable_of_check (by decide))

theorem printable_number {l : Str} (h : isDecimal l = true) : Printable l := by
  simp only [isDecimal, Bool.and_eq_true] at h
  refine printable_of_forall fun c hc => ?_
  have hd := List.all_eq_true.mp h.1.2 c hc
  simp only [isDigit, Bool.and_eq_true, decide_eq_true_eq] at hd
  refine ⟨by omega, ?_, ?_⟩
  · simp only [isHigh, Bool.and_eq_false_iff, decide_eq_false_iff_not]
    omega
  · simp only [isLow, Bool.and_eq_false_iff, decide_eq_false_iff_not]
    omega

mutual

/-- What is written survives a file. -/
theorem printable_stringify (v : Raw) (hv : v.Proper) : Printable (stringify v) := by
  cases v with
  | null => exact printable_of_check (by decide)
  | bool b => cases b <;> exact printable_of_check (by decide)
  | str s => exact printable_quote s
  | num l => exact printable_number hv
  | arr xs =>
    exact ((printable_elements xs hv).cons (printable_of_check (by decide))).append
      (printable_of_check (by decide))
  | obj m =>
    exact ((printable_members m hv.2).cons (printable_of_check (by decide))).append
      (printable_of_check (by decide))

theorem printable_elements (xs : List Raw) (hxs : ProperElements xs) :
    Printable (stringifyElements xs) := by
  cases xs with
  | nil => exact printable_of_forall (by simp [stringifyElements])
  | cons x xs =>
    have hx := printable_stringify x hxs.1
    cases xs with
    | nil => exact hx
    | cons y ys =>
      exact hx.append ((printable_elements (y :: ys) hxs.2).cons (printable_of_check (by decide)))

theorem printable_members (m : List (Str × Raw)) (hm : ProperMembers m) :
    Printable (stringifyMembers m) := by
  cases m with
  | nil => exact printable_of_forall (by simp [stringifyMembers])
  | cons e m =>
    obtain ⟨k, x⟩ := e
    have hx : Printable (quote k ++ 0x3A :: stringify x) :=
      (printable_quote k).append
        ((printable_stringify x hm.1).cons (printable_of_check (by decide)))
    cases m with
    | nil => exact hx
    | cons e m =>
      exact hx.append ((printable_members (e :: m) hm.2).cons (printable_of_check (by decide)))

end

end ParadigmTerra.JsonText
