import ParadigmTerra.Lib.Fallible
import ParadigmTerra.Value

/-!
# Canonical strings

A canonical string has code points of the pinned Unicode version only and does not begin with a byte
order mark; its bytes are those of its NFC form. `Host` is what the layer takes from outside: the
normalization of the host's Unicode library, and the generated table of assigned code points.

The shapes of strings that the code checks by regular expressions are predicates here: addresses,
hashes and hex bytes.
-/

namespace ParadigmTerra

open Text Fallible

/-- What the canonical layer takes from the host. -/
structure Host where
  /-- `s.normalize("NFC")`. -/
  normalize : Str → Str
  /-- Whether a code point is assigned in the pinned Unicode version. -/
  isAssignedCodePoint : ℕ → Bool

/-- Throws on a code point that is not assigned. -/
def assertAssigned (H : Host) (s : Str) : Except Throw Unit :=
  require ((codePoints s).all H.isAssignedCodePoint = true)
    (.noncanonical "UTF8_UNASSIGNED_CODEPOINT")

/-- The UTF-8 bytes of the NFC form. -/
def utf8NfcBytes (H : Host) (s : Str) : Except Throw (List UInt8) := do
  require (s.head? ≠ some 0xFEFF) (.noncanonical "UTF8_BOM_FORBIDDEN")
  assertAssigned H s
  let normalized := H.normalize s
  require (wellFormed normalized = true) (.noncanonical "UTF8_LONE_SURROGATE")
  pure (utf8Encode normalized)

/-- `a <= b` on byte strings: the order of their first difference. -/
def bytesLe : List UInt8 → List UInt8 → Bool
  | [], _ => true
  | _ :: _, [] => false
  | a :: s, b :: t => a < b || a == b && bytesLe s t

/-! ## Shapes of strings -/

/-- A hex digit, of either case. -/
def isHexDigit (u : UInt16) : Bool :=
  isDigit u || 97 ≤ u.toNat && u.toNat ≤ 102 || 65 ≤ u.toNat && u.toNat ≤ 70

/-- A hex digit in lower case. -/
def isLowerHexDigit (u : UInt16) : Bool := isDigit u || 97 ≤ u.toNat && u.toNat ≤ 102

/-- A hex digit in lower case, whatever its case was. -/
def lowerHexDigit (u : UInt16) : UInt16 := if 65 ≤ u.toNat && u.toNat ≤ 70 then u + 32 else u

/-- `/^0x([0-9a-fA-F]{2})*$/`. -/
def isHexBytes : Str → Bool
  | 48 :: 120 :: s => s.all isHexDigit && s.length % 2 == 0
  | _ => false

/-- `/^0x[0-9a-fA-F]{64}$/`. -/
def isBytes32 : Str → Bool
  | 48 :: 120 :: s => s.all isHexDigit && s.length == 64
  | _ => false

/-- The digits of a workchain and what follows them, without a sign. -/
def splitSign : Str → Bool × Str
  | 45 :: s => (true, s)
  | s => (false, s)

/-- `/^-?\d+:[0-9a-f]{64}$/`. -/
def isAddressShape (s : Str) : Bool :=
  let r := (splitSign s).2
  let digits := r.takeWhile isDigit
  digits ≠ [] &&
    match r.dropWhile isDigit with
    | 58 :: h => h.all isLowerHexDigit && h.length == 64
    | _ => false

/-- A canonical raw address: a workchain that fits an int8, of at most four digits, and 64 hex digits
in lower case. -/
def isCanonicalAddress (s : Str) : Bool :=
  let digits := (splitSign s).2.takeWhile isDigit
  isAddressShape s && digits.length ≤ 4 &&
    (if (splitSign s).1 then digitsValue digits ≤ 128 else digitsValue digits ≤ 127)

end ParadigmTerra
