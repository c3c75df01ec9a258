import Mathlib
import ParadigmTerra.Canonical.Strings

/-!
# The restricted JSON profile

`canonicalizeValue` serializes a value to its canonical bytes: keys in the order of their bytes,
integers in decimal, strings in NFC with the fewest escapes. `parseCanonical` reads such a text; it
takes integers only, and rejects duplicate keys and lone surrogates.

Both build their objects by assignment, `out[k] = v`, which does not store a member named `__proto__`.
-/

namespace ParadigmTerra

open Text Fallible

/-- An object member stored by assignment. -/
def assignMember (k : Str) (v : Json) (m : List (Str × Json)) : List (Str × Json) :=
  if k = js "__proto__" then m else putMember k v m

/-! ## Values -/

mutual

/-- Checks that a value belongs to the profile. -/
def coerceToJcsValue : Json → Except Throw Json
  | .null => pure .null
  | .bool b => pure (.bool b)
  | .int n => pure (.int n)
  | .str s => do
    require (wellFormed s = true) (.noncanonical "JCS_LONE_SURROGATE")
    pure (.str s)
  | .arr xs => do
    let ys ← coerceElements xs
    pure (.arr ys)
  | .obj m => do
    let m' ← coerceMembers m
    pure (.obj (m'.foldl (fun out e => assignMember e.1 e.2 out) []))
  | .builtin k =>
    if k = js "__proto__" then pure (.obj []) else throw (.noncanonical "JCS_UNSUPPORTED_TYPE")

def coerceElements : List Json → Except Throw (List Json)
  | [] => pure []
  | x :: xs => do
    let y ← coerceToJcsValue x
    let ys ← coerceElements xs
    pure (y :: ys)

def coerceMembers : List (Str × Json) → Except Throw (List (Str × Json))
  | [] => pure []
  | (k, x) :: m => do
    let y ← coerceToJcsValue x
    let m' ← coerceMembers m
    pure ((k, y) :: m')

end

/-! ## Serializing -/

/-- The lower-case hex digit of a number below 16. -/
def hexDigit (n : ℕ) : UInt16 := UInt16.ofNat (if n < 10 then 48 + n else 87 + n)

/-- A code unit inside a string literal. -/
def escapeUnit (u : UInt16) : Str :=
  if u = 0x22 then js "\\\""
  else if u = 0x5C then js "\\\\"
  else if u = 0x08 then js "\\b"
  else if u = 0x09 then js "\\t"
  else if u = 0x0A then js "\\n"
  else if u = 0x0C then js "\\f"
  else if u = 0x0D then js "\\r"
  else if u.toNat < 0x20 then js "\\u00" ++ [hexDigit (u.toNat / 16), hexDigit (u.toNat % 16)]
  else [u]

/-- A string literal. -/
def escapeString (H : Host) (s : Str) : Except Throw Str := do
  require (s.head? ≠ some 0xFEFF) (.noncanonical "UTF8_BOM_FORBIDDEN")
  assertAssigned H s
  pure (js "\"" ++ (H.normalize s).flatMap escapeUnit ++ js "\"")

/-- `a` sorts no later than `b`: by the bytes of the NFC forms. -/
def keyLe (H : Host) (a b : Str) : Bool :=
  bytesLe (utf8Encode (H.normalize a)) (utf8Encode (H.normalize b))

/-- The parts of a list with a separator between them. -/
def joinWith (sep : Str) : List Str → Str
  | [] => []
  | [s] => s
  | s :: t :: r => s ++ sep ++ joinWith sep (t :: r)

mutual

/-- The members of an object are serialized with their keys here, and sorted where they are joined. -/
def serialize (H : Host) : Json → Except Throw Str
  | .null => pure (js "null")
  | .bool b => pure (if b then js "true" else js "false")
  | .int n => pure (decimal n)
  | .str s => escapeString H s
  | .arr xs => do
    let parts ← serializeElements H xs
    pure (js "[" ++ joinWith (js ",") parts ++ js "]")
  | .obj m => do
    let sorted := (serializeMembers H m).insertionSort fun a b => keyLe H a.1 b.1 = true
    let parts ← sorted.mapM fun e => do
      let k ← escapeString H e.1
      let v ← e.2
      pure (k ++ js ":" ++ v)
    pure (js "\x7b" ++ joinWith (js ",") parts ++ js "\x7d")
  | .builtin _ => throw (.noncanonical "JCS_UNSUPPORTED_TYPE")

def serializeElements (H : Host) : List Json → Except Throw (List Str)
  | [] => pure []
  | x :: xs => do
    let s ← serialize H x
    let ss ← serializeElements H xs
    pure (s :: ss)

/-- The keys of an object, each with what serializing its value gives. -/
def serializeMembers (H : Host) : List (Str × Json) → List (Str × Except Throw Str)
  | [] => []
  | (k, v) :: m => (k, serialize H v) :: serializeMembers H m

end

/-- The canonical bytes of a value, `none` for `undefined`. -/
def canonicalizeValue (H : Host) (v : Option Json) : Except Throw (List UInt8) :=
  match v with
  | none => throw (.noncanonical "JCS_UNSUPPORTED_TYPE")
  | some v => do
    let coerced ← coerceToJcsValue v
    let s ← serialize H coerced
    pure (utf8Encode s)

/-! ## Parsing -/

/-- White space. -/
def isSpace (u : UInt16) : Bool := u = 0x20 || u = 0x09 || u = 0x0A || u = 0x0D

/-- The value of a hex digit. -/
def hexValue (u : UInt16) : ℕ :=
  if isDigit u then u.toNat - 48 else if 97 ≤ u.toNat then u.toNat - 87 else u.toNat - 55

/-- What stands for a unit after a backslash, other than `u`. -/
def simpleEscape (u : UInt16) : Option UInt16 :=
  if u = 0x22 then some 0x22
  else if u = 0x5C then some 0x5C
  else if u = 0x2F then some 0x2F
  else if u = 0x62 then some 0x08
  else if u = 0x66 then some 0x0C
  else if u = 0x6E then some 0x0A
  else if u = 0x72 then some 0x0D
  else if u = 0x74 then some 0x09
  else none

/-- A string literal after its opening quote, and what follows its closing quote. -/
def jcsString : Str → Except Throw (Str × Str)
  | [] => throw (.noncanonical "JCS_STRING_UNTERMINATED")
  | 0x22 :: r => pure ([], r)
  | [0x5C] => throw (.noncanonical "JCS_BAD_ESCAPE")
  | 0x5C :: 0x75 :: r =>
    match r with
    | a :: b :: c :: d :: r =>
      if isHexDigit a && isHexDigit b && isHexDigit c && isHexDigit d then
        let code := hexValue a * 4096 + hexValue b * 256 + hexValue c * 16 + hexValue d
        if 0xD800 ≤ code && code ≤ 0xDFFF then throw (.noncanonical "JCS_SURROGATE_ESCAPE")
        else do
          let (s, r) ← jcsString r
          pure (UInt16.ofNat code :: s, r)
      else throw (.noncanonical "JCS_BAD_UNICODE_ESCAPE")
    | _ => throw (.noncanonical "JCS_BAD_UNICODE_ESCAPE")
  | 0x5C :: e :: r =>
    match simpleEscape e with
    | some u => do
      let (s, r) ← jcsString r
      pure (u :: s, r)
    | none => throw (.noncanonical "JCS_BAD_ESCAPE")
  | [u] =>
    if u.toNat < 0x20 then throw (.noncanonical "JCS_CONTROL_IN_STRING")
    else if isHigh u || isLow u then throw (.noncanonical "JCS_LONE_SURROGATE")
    else throw (.noncanonical "JCS_STRING_UNTERMINATED")
  | u :: v :: r =>
    if u.toNat < 0x20 then throw (.noncanonical "JCS_CONTROL_IN_STRING")
    else if isHigh u && isLow v then do
      let (s, r) ← jcsString r
      pure (u :: v :: s, r)
    else if isHigh u || isLow u then throw (.noncanonical "JCS_LONE_SURROGATE")
    else do
      let (s, r) ← jcsString (v :: r)
      pure (u :: s, r)

/-- An integer, without leading zeros, fraction or exponent. -/
def jcsNumber (s : Str) : Except Throw (Json × Str) :=
  let (neg, r) := splitSign s
  let digits := if r.head? = some 48 then [48] else r.takeWhile isDigit
  let rest := r.drop digits.length
  if digits = [] then throw (.noncanonical "JCS_BAD_NUMBER")
  else if rest.head? = some 0x2E then throw (.noncanonical "JCS_FRACTIONAL_FORBIDDEN")
  else if rest.head? = some 0x65 || rest.head? = some 0x45 then
    throw (.noncanonical "JCS_EXPONENT_FORBIDDEN")
  else if neg && digits = [48] then throw (.noncanonical "JCS_NEGATIVE_ZERO")
  else pure (.int (if neg then -(digitsValue digits : ℤ) else digitsValue digits), rest)

/-- The rest of a text after a word. -/
def stripWord (w s : Str) : Option Str := if w.isPrefixOf s then some (s.drop w.length) else none

mutual

/-- A value, and the text that follows it. The first argument bounds the nesting and the number of
members, and twice the length of the text is enough of it. -/
def jcsValue : ℕ → Str → Except Throw (Json × Str)
  | 0, _ => throw .rangeError
  | n + 1, s =>
    match s.dropWhile isSpace with
    | [] => throw (.noncanonical "JCS_UNEXPECTED_EOF")
    | c :: r =>
      if c = 0x7B then
        match r.dropWhile isSpace with
        | 0x7D :: r => pure (.obj [], r)
        | r => do
          let (m, r) ← jcsMembers n [] [] r
          pure (.obj m, r)
      else if c = 0x5B then
        match r.dropWhile isSpace with
        | 0x5D :: r => pure (.arr [], r)
        | r => do
          let (xs, r) ← jcsElements n r
          pure (.arr xs, r)
      else if c = 0x22 then do
        let (t, r) ← jcsString r
        pure (.str t, r)
      else if c = 0x74 || c = 0x66 then
        match stripWord (js "true") (c :: r), stripWord (js "false") (c :: r) with
        | some r, _ => pure (.bool true, r)
        | none, some r => pure (.bool false, r)
        | none, none => throw (.noncanonical "JCS_BAD_LITERAL")
      else if c = 0x6E then
        match stripWord (js "null") (c :: r) with
        | some r => pure (.null, r)
        | none => throw (.noncanonical "JCS_BAD_LITERAL")
      else if c = 0x2D || isDigit c then jcsNumber (c :: r)
      else throw (.noncanonical "JCS_UNEXPECTED_CHAR")

/-- The members of an object from the next key on. -/
def jcsMembers : ℕ → List Str → List (Str × Json) → Str → Except Throw (List (Str × Json) × Str)
  | 0, _, _, _ => throw .rangeError
  | n + 1, seen, out, s =>
    match s.dropWhile isSpace with
    | 0x22 :: r => do
      let (k, r) ← jcsString r
      require (k ∉ seen) (.noncanonical "JCS_DUPLICATE_KEY")
      match r.dropWhile isSpace with
      | 0x3A :: r => do
        let (v, r) ← jcsValue n r
        match r.dropWhile isSpace with
        | 0x2C :: r => jcsMembers n (k :: seen) (assignMember k v out) r
        | 0x7D :: r => pure (assignMember k v out, r)
        | _ => throw (.noncanonical "JCS_EXPECTED_COMMA_OR_BRACE")
      | _ => throw (.noncanonical "JCS_EXPECTED_CHAR")
    | _ => throw (.noncanonical "JCS_KEY_NOT_STRING")

/-- The elements of an array from the next one on. -/
def jcsElements : ℕ → Str → Except Throw (List Json × Str)
  | 0, _ => throw .rangeError
  | n + 1, s => do
    let (v, r) ← jcsValue n s
    match r.dropWhile isSpace with
    | 0x2C :: r => do
      let (vs, r) ← jcsElements n r
      pure (v :: vs, r)
    | 0x5D :: r => pure ([v], r)
    | _ => throw (.noncanonical "JCS_EXPECTED_COMMA_OR_BRACKET")

end

/-- Reads a canonical text. -/
def parseCanonical (json : Str) : Except Throw Json := do
  let (v, r) ← jcsValue (2 * json.length + 1) json
  require (r.dropWhile isSpace = []) (.noncanonical "JCS_TRAILING_INPUT")
  pure v

/-- The canonical bytes of a text. -/
def canonicalizeString (H : Host) (json : Str) : Except Throw (List UInt8) := do
  let parsed ← parseCanonical json
  let s ← serialize H parsed
  pure (utf8Encode s)

end ParadigmTerra
