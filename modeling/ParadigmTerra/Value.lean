import Mathlib
import ParadigmTerra.Lib.OrderedMap
import ParadigmTerra.Text.Utf

/-!
# Values of the host language

`Json` is the value type of every layer: `null`, booleans, bigints, strings, arrays and plain
objects. An object lists its own members in the order in which the language enumerates them.

A plain object also answers to the names that every object inherits, and the code reads members
with `in` and `[]`, which see them. `Json.builtin` stands for such an inherited value, and `Json.read`
is `v[k]`: the own member, or else the inherited value. The object all of them come from is
`builtin "__proto__"`; the other inherited values are functions.

`Throw` collects what the modelled code can throw.
-/

namespace ParadigmTerra

open Text

/-- A value. -/
inductive Json
  | null
  | bool (b : Bool)
  | int (n : ℤ)
  | str (s : Str)
  | arr (xs : List Json)
  | obj (m : List (Str × Json))
  | builtin (name : Str)

instance : Inhabited Json := ⟨.null⟩

/-- The largest uint256. -/
def UINT256_MAX : ℤ := 2 ^ 256 - 1

/-- The reasons for which the reducer rejects an event. -/
inductive ApplyErrorCode
  | DUPLICATE_CAL | AGENT_BUSY | UNKNOWN_CAL | BAD_STAGE | INSUFFICIENT_BALANCE | UNDERFLOW
  | OVERFLOW | UNKNOWN_EVENT | BAD_DELTA | BAD_TICK | BAD_OWNER_RECORD
  deriving DecidableEq, Repr

/-- The phase in which the constraint language raised a fault. -/
inductive Phase
  | PARSE_ERROR | VALIDATION_ERROR | ERROR
  deriving DecidableEq, Repr

/-- What the code can throw. -/
inductive Throw
  | apply (code : ApplyErrorCode)
  | cal (code : String) (detail : Option Str)
  | dsl (phase : Phase) (reason : String)
  | noncanonical (code : String)
  | canonicalEncoding (code : String)
  | orchestrator (code : String) (detail : Str)
  | snapshotCorruption
  | typeError
  | rangeError
  | syntaxError
  deriving DecidableEq

/-! ## The order of members -/

/-- The value of a string of decimal digits, most significant first. -/
def digitsValue (s : Str) : ℕ := s.foldl (fun n u => 10 * n + (u.toNat - 48)) 0

/-- A decimal digit. -/
def isDigit (u : UInt16) : Bool := 48 ≤ u.toNat && u.toNat ≤ 57

/-- The array index that a key spells. -/
def arrayIndex (k : Str) : Option ℕ :=
  if k.all isDigit && k ≠ [] && (k.head? ≠ some 48 || k.length = 1) &&
      decide (digitsValue k < 2 ^ 32 - 1) then
    some (digitsValue k)
  else none

/-- Members whose names are array indices come first, in the order of the indices. -/
def keyBefore (k l : Str) : Bool :=
  match arrayIndex k, arrayIndex l with
  | some i, some j => i < j
  | some _, none => true
  | none, _ => false

theorem keyBefore_trans (a b c : Str) (hab : keyBefore a b = true) (hbc : keyBefore b c = true) :
    keyBefore a c = true := by
  unfold keyBefore at *
  cases ha : arrayIndex a <;> cases hb : arrayIndex b <;> cases hc : arrayIndex c <;>
    simp only [ha, hb, hc, decide_eq_true_eq, reduceCtorEq] at hab hbc ⊢
  exact hab.trans hbc

theorem keyBefore_asymm (a b : Str) (hab : keyBefore a b = true) : keyBefore b a = false := by
  unfold keyBefore at *
  cases ha : arrayIndex a <;> cases hb : arrayIndex b <;>
    simp only [ha, hb, decide_eq_true_eq, decide_eq_false_iff_not, reduceCtorEq] at hab ⊢
  exact hab.asymm

/-- `{...m, [k]: v}`. -/
abbrev putMember (k : Str) (v : Json) (m : List (Str × Json)) : List (Str × Json) :=
  OrderedMap.put keyBefore k v m

/-- `s < t` on strings: the order of their code units. -/
def strLt : Str → Str → Bool
  | _, [] => false
  | [], _ :: _ => true
  | u :: s, v :: t => u < v || u == v && strLt s t

/-! ## Reading members -/

/-- The names that every object inherits. -/
def inheritedNames : List Str :=
  [js "__proto__", js "constructor", js "hasOwnProperty", js "isPrototypeOf",
    js "propertyIsEnumerable", js "toLocaleString", js "toString", js "valueOf",
    js "__defineGetter__", js "__defineSetter__", js "__lookupGetter__", js "__lookupSetter__"]

/-- What an object holds under a name that it does not have itself. -/
def inherited (k : Str) : Option Json := if k ∈ inheritedNames then some (.builtin k) else none

namespace Json

/-- `typeof v === "object" && v !== null && !Array.isArray(v)`. -/
def isPlainObject : Json → Bool
  | obj _ => true
  | builtin k => k = js "__proto__"
  | _ => false

/-- The own members. -/
def members : Json → List (Str × Json)
  | obj m => m
  | _ => []

/-- `v[k]`, `none` for `undefined`. -/
def read (v : Json) (k : Str) : Option Json :=
  match v with
  | obj m => (OrderedMap.get k m).or (inherited k)
  | builtin _ => if k = js "__proto__" then some null else inherited k
  | _ => none

/-- An own member hides what is inherited. -/
theorem read_of_get {m : List (Str × Json)} {k : Str} {v : Json}
    (h : OrderedMap.get k m = some v) : (obj m).read k = some v := by simp [read, h]

theorem read_of_get_none {m : List (Str × Json)} {k : Str} (h : OrderedMap.get k m = none) :
    (obj m).read k = inherited k := by simp [read, h]

/-- A name that no object inherits reads the own members. -/
theorem read_of_not_inherited {m : List (Str × Json)} {k : Str} (hk : k ∉ inheritedNames) :
    (obj m).read k = OrderedMap.get k m := by
  cases h : OrderedMap.get k m <;> simp [read, h, inherited, hk]

end Json

/-- The value at a path, `none` when a segment is missing. -/
def getIn : Json → List Str → Option Json
  | v, [] => some v
  | v, k :: p => if v.isPlainObject then (v.read k).bind fun w => getIn w p else none

theorem getIn_singleton {v : Json} {k : Str} (h : v.isPlainObject = true) :
    getIn v [k] = v.read k := by
  cases hv : v.read k <;> simp [getIn, h, hv]

/-- A list, or nothing where there is none. -/
def listOf (v : Option Json) : List Json :=
  match v with
  | some (.arr xs) => xs
  | _ => []

/-- An integer field, with a default when it is absent or no integer. -/
def asBig (v : Option Json) (d : ℤ) : ℤ :=
  match v with
  | some (.int n) => n
  | _ => d

/-- `v === s`. -/
def isStr (v : Option Json) (s : Str) : Bool :=
  match v with
  | some (.str t) => t = s
  | _ => false

theorem isStr_iff {v : Option Json} {s : Str} : isStr v s = true ↔ v = some (.str s) := by
  unfold isStr
  split
  · next t => simp
  · next hv =>
    constructor
    · intro h
      cases h
    · intro h
      exact (hv s h).elim

/-! ## Strings of values -/

/-- A natural number in decimal. -/
def decimalNat (n : ℕ) : Str :=
  if n = 0 then [48] else ((Nat.digits 10 n).map fun d => UInt16.ofNat (48 + d)).reverse

/-- A bigint in decimal. -/
def decimal (n : ℤ) : Str := if n < 0 then 45 :: decimalNat n.natAbs else decimalNat n.natAbs

/-- `v === null`. -/
def Json.isNull : Json → Bool
  | .null => true
  | _ => false

mutual

/-- `String(v)`. It throws on an object whose own `toString` is no function. -/
def stringOf : Json → Except Throw Str
  | .null => pure (js "null")
  | .bool true => pure (js "true")
  | .bool false => pure (js "false")
  | .int n => pure (decimal n)
  | .str s => pure s
  | .arr xs => joined xs
  | .obj m =>
    match OrderedMap.get (js "toString") m with
    | none | some (.builtin _) => pure (js "[object Object]")
    | some _ => throw .typeError
  | .builtin k =>
    if k = js "__proto__" then pure (js "[object Object]")
    else if k = js "constructor" then pure (js "function Object() \x7b [native code] \x7d")
    else pure (js "function " ++ k ++ js "() \x7b [native code] \x7d")

/-- The strings of a list of elements, separated by commas, `null` as the empty string. -/
def joined : List Json → Except Throw Str
  | [] => pure []
  | [x] => if x.isNull then pure [] else stringOf x
  | x :: y :: xs => do
    let s ← if x.isNull then pure [] else stringOf x
    let t ← joined (y :: xs)
    pure (s ++ js "," ++ t)

end

/-- `String(v)` where `v` may be `undefined`. -/
def stringOfOpt : Option Json → Except Throw Str
  | none => pure (js "undefined")
  | some v => stringOf v

end ParadigmTerra
