import ParadigmTerra.Dsl.Parse

/-!
# Evaluating constraints

`run` parses an expression and evaluates it against bindings. Every fault of the language becomes an
outcome; what the canonical layer throws on a string is thrown on.

The boolean operators evaluate all of their arguments. When several fail, a runtime fault wins over a
validation fault, and the first of a kind over the later ones.
-/

namespace ParadigmTerra

open Text Fallible

/-- A runtime value. -/
inductive Value
  | int256 (n : ℤ)
  | bool (b : Bool)
  | string (s : Str)
  | bytes32 (hex : Str)
  | address (addr : Str)
  | list (items : List Value)
  | map (entries : List (Str × Value))
  | null

/-! ## Making values -/

def makeString (H : Host) (s : Str) : Except Throw Value :=
  match assertAssigned H s with
  | .ok () => pure (.string (H.normalize s))
  | .error _ => runtimeError "STRING_UNASSIGNED"

def makeBytes32 (s : Str) : Except Throw Value :=
  if isBytes32 s then pure (.bytes32 (js "0x" ++ (s.drop 2).map lowerHexDigit))
  else validationError "BYTES32_MALFORMED"

def makeAddress (s : Str) : Except Throw Value :=
  if isCanonicalAddress s then pure (.address s) else validationError "ADDRESS_NONCANONICAL"

def makeInt256 (v : ℤ) : Except Throw Value :=
  if inInt256Range v then pure (.int256 v) else validationError "INT256_RANGE"

def constValue (H : Host) : ConstValue → Except Throw Value
  | .int256 n => makeInt256 n
  | .bool b => pure (.bool b)
  | .string s => makeString H s
  | .bytes32 s => makeBytes32 s
  | .address s => makeAddress s
  | .null => pure .null

mutual

/-- The value of bound data. -/
def materialize (H : Host) : Json → Except Throw Value
  | .null => pure .null
  | .bool b => pure (.bool b)
  | .int n => makeInt256 n
  | .str s =>
    if isCanonicalAddress s then makeAddress s
    else if isBytes32 s then makeBytes32 s
    else makeString H s
  | .arr xs => do
    let items ← materializeElements H xs
    pure (.list items)
  | .obj m => do
    let entries ← materializeMembers H m
    pure (.map entries)
  | .builtin k =>
    if k = js "__proto__" then pure (.map []) else runtimeError "UNREPRESENTABLE"

def materializeElements (H : Host) : List Json → Except Throw (List Value)
  | [] => pure []
  | x :: xs => do
    let v ← materialize H x
    let vs ← materializeElements H xs
    pure (v :: vs)

def materializeMembers (H : Host) : List (Str × Json) → Except Throw (List (Str × Value))
  | [] => pure []
  | (k, x) :: m => do
    let v ← materialize H x
    let vs ← materializeMembers H m
    pure ((k, v) :: vs)

end

/-- The string under which a value is a key of a map. -/
def keyForm : Value → Except Throw Str
  | .string s => pure s
  | .address a => pure a
  | .bytes32 h => pure h
  | _ => validationError "KEY_TYPE"

mutual

/-- Structural equality. Values of two kinds compare only with `null`. -/
def valuesEqual (H : Host) : Value → Value → Except Throw Bool
  | .null, .null => pure true
  | .null, _ => pure false
  | _, .null => pure false
  | .int256 a, .int256 b => pure (a == b)
  | .bool a, .bool b => pure (a == b)
  | .string a, .string b => do
    let x ← utf8NfcBytes H a
    let y ← utf8NfcBytes H b
    pure (x == y)
  | .bytes32 a, .bytes32 b => pure (a == b)
  | .address a, .address b => pure (a == b)
  | .list a, .list b => if a.length = b.length then itemsEqual H a b else pure false
  | .map a, .map b => if a.length = b.length then entriesEqual H a b else pure false
  | _, _ => validationError "TYPE_MISMATCH"

def itemsEqual (H : Host) : List Value → List Value → Except Throw Bool
  | x :: xs, y :: ys => do
    let e ← valuesEqual H x y
    if e then itemsEqual H xs ys else pure false
  | _, _ => pure true

def entriesEqual (H : Host) : List (Str × Value) → List (Str × Value) → Except Throw Bool
  | [], _ => pure true
  | (k, v) :: m, b =>
    match OrderedMap.get k b with
    | none => pure false
    | some w => do
      let e ← valuesEqual H v w
      if e then entriesEqual H m b else pure false

end

/-! ## Evaluating -/

/-- What the roots of the variables are bound to. -/
structure Bindings where
  state : Option Json := none
  before : Option Json := none
  after : Option Json := none
  params : Option Json := none
  capability : Option Json := none
  signatures : Option Json := none

inductive OutcomeCode
  | EVALUATION_TRUE | EVALUATION_FALSE | ERROR | VALIDATION_ERROR | PARSE_ERROR
  deriving DecidableEq, Repr

structure Outcome where
  code : OutcomeCode
  reason : Option String
  deriving DecidableEq

def requireInt : Value → Except Throw ℤ
  | .int256 n => pure n
  | .null => runtimeError "NULL_MISUSE"
  | _ => validationError "TYPE_MISMATCH"

def requireBool : Value → Except Throw Bool
  | .bool b => pure b
  | .null => runtimeError "NULL_MISUSE"
  | _ => validationError "TYPE_MISMATCH"

def requireString : Value → Except Throw Str
  | .string s => pure s
  | .null => runtimeError "NULL_MISUSE"
  | _ => validationError "TYPE_MISMATCH"

def checkRange (v : ℤ) : Except Throw Value :=
  if inInt256Range v then pure (.int256 v) else runtimeError "OVERFLOW"

/-- The remainder that is not negative. -/
def euclideanMod (a b : ℤ) : ℤ :=
  let m := a.tmod b
  if m < 0 then m + (if b < 0 then -b else b) else m

/-- The binding of a path's root, and the segments below it. -/
def bindingOf (path : List Str) (b : Bindings) (scope : Scope) :
    Except Throw (Option Json × List Str) :=
  match path with
  | [] => runtimeError "MISSING_VAR"
  | root :: rest =>
    if root = js "params" then pure (b.params, rest)
    else if root = js "capability" then pure (b.capability, rest)
    else if root = js "signatures" then pure (b.signatures, rest)
    else if root = js "state" then
      match rest with
      | seg :: below =>
        if seg = js "before" then pure (b.before, below)
        else if seg = js "after" then pure (b.after, below)
        else if scope = .post_condition ∨ scope = .invariant then pure (b.before, rest)
        else pure (b.state, rest)
      | [] =>
        if scope = .post_condition ∨ scope = .invariant then pure (b.before, rest)
        else pure (b.state, rest)
    else runtimeError "MISSING_VAR"

def resolvePath (H : Host) (path : List Str) (b : Bindings) (scope : Scope) : Except Throw Value := do
  let (base, rest) ← bindingOf path b scope
  match base with
  | none => runtimeError "MISSING_VAR"
  | some base =>
    match getIn base rest with
    | none => runtimeError "MISSING_VAR"
    | some v => materialize H v

/-- Result of an argument of a boolean operator: its value, or the fault that it raised. -/
abbrev ArgResult := Except (Phase × String) Value

/-- The first fault of a phase. -/
def firstFault (p : Phase) : List ArgResult → Option (Phase × String)
  | [] => none
  | .error e :: rs => if e.1 = p then some e else firstFault p rs
  | .ok _ :: rs => firstFault p rs

/-- The conjunction or the disjunction of results without faults. -/
def combineResults (op : BoolOp) : Bool → List ArgResult → Except Throw Bool
  | acc, [] => pure acc
  | acc, .ok v :: rs => do
    let b ← requireBool v
    combineResults op (match op with | .and => acc && b | .or => acc || b) rs
  | _, .error _ :: _ => throw .typeError

def evalBoolean (op : BoolOp) (results : List ArgResult) : Except Throw Value :=
  match firstFault .ERROR results, firstFault .VALIDATION_ERROR results with
  | some e, _ => throw (.dsl e.1 e.2)
  | none, some e => throw (.dsl e.1 e.2)
  | none, none => do
    let b ← combineResults op (op = .and) results
    pure (.bool b)

def compareInts (op : CmpOp) (l r : ℤ) : Bool :=
  match op with
  | .lt => l < r
  | .lte => l ≤ r
  | .gt => r < l
  | .gte => r ≤ l

def evalArith (op : ArithOp) (l r : ℤ) : Except Throw Value :=
  match op with
  | .add => checkRange (l + r)
  | .sub => checkRange (l - r)
  | .mul => checkRange (l * r)
  | .div =>
    if r = 0 then runtimeError "DIV_BY_ZERO"
    else if l = INT256_MIN ∧ r = -1 then runtimeError "OVERFLOW"
    else pure (.int256 (l.tdiv r))
  | .mod =>
    if r = 0 then runtimeError "MOD_BY_ZERO" else pure (.int256 (euclideanMod l r))

def evalSize : Value → Except Throw Value
  | .list items => pure (.int256 items.length)
  | .map entries => pure (.int256 entries.length)
  | .null => pure (.int256 0)
  | _ => validationError "TYPE_MISMATCH"

mutual

def evalNode (H : Host) (b : Bindings) (scope : Scope) : Expr → Except Throw Value
  | .const c => constValue H c
  | .var _ path => resolvePath H path b scope
  | .action a => pure (.string a)
  | .eq op lhs rhs => do
    let l ← evalNode H b scope lhs
    let r ← evalNode H b scope rhs
    let e ← valuesEqual H l r
    pure (.bool (match op with | .eq => e | .neq => !e))
  | .cmp op lhs rhs => do
    let v ← evalNode H b scope lhs
    let l ← requireInt v
    let w ← evalNode H b scope rhs
    let r ← requireInt w
    pure (.bool (compareInts op l r))
  | .arith op lhs rhs => do
    let v ← evalNode H b scope lhs
    let l ← requireInt v
    let w ← evalNode H b scope rhs
    let r ← requireInt w
    evalArith op l r
  | .bool op args => do
    let results ← evalArgs H b scope args
    evalBoolean op results
  | .not arg => do
    let v ← evalNode H b scope arg
    let x ← requireBool v
    pure (.bool !x)
  | .contains_key map key => do
    let m ← evalNode H b scope map
    match m with
    | .map entries => do
      let v ← evalNode H b scope key
      let k ← keyForm v
      pure (.bool (OrderedMap.get k entries).isSome)
    | .null => runtimeError "NULL_MISUSE"
    | _ => validationError "TYPE_MISMATCH"
  | .size arg => do
    let v ← evalNode H b scope arg
    evalSize v
  | .requires_scope action scopeExpr => do
    let v ← evalNode H b scope action
    let a ← requireString v
    let w ← evalNode H b scope scopeExpr
    let s ← requireString w
    let r ← requiresScope a s
    pure (.bool r)
  | .is_owner_required action => do
    let v ← evalNode H b scope action
    let a ← requireString v
    pure (.bool (isOwnerRequired a))

/-- Every argument is evaluated, and only a fault of the language is kept for later. -/
def evalArgs (H : Host) (b : Bindings) (scope : Scope) : List Expr → Except Throw (List ArgResult)
  | [] => pure []
  | a :: as =>
    match evalNode H b scope a with
    | .ok v => do
      let rs ← evalArgs H b scope as
      pure (.ok v :: rs)
    | .error (.dsl p reason) => do
      let rs ← evalArgs H b scope as
      pure (.error (p, reason) :: rs)
    | .error e => throw e

end

/-- The outcome of a fault. -/
def Phase.outcome : Phase → OutcomeCode
  | .PARSE_ERROR => .PARSE_ERROR
  | .VALIDATION_ERROR => .VALIDATION_ERROR
  | .ERROR => .ERROR

/-- Turns the faults of the language into outcomes. -/
def catchDsl (x : Except Throw Outcome) : Except Throw Outcome :=
  match x with
  | .error (.dsl p reason) => pure ⟨p.outcome, some reason⟩
  | x => x

def evaluate (H : Host) (expr : Expr) (b : Bindings) (scope : Scope) : Except Throw Outcome :=
  catchDsl do
    let v ← evalNode H b scope expr
    match v with
    | .bool x => pure ⟨if x then .EVALUATION_TRUE else .EVALUATION_FALSE, none⟩
    | _ => pure ⟨.VALIDATION_ERROR, some "NON_BOOLEAN_RESULT"⟩

/-- Parses and evaluates. -/
def run (H : Host) (input : Json) (opts : ParseOptions) (b : Bindings) : Except Throw Outcome :=
  catchDsl do
    let expr ← parseExpression input opts
    evaluate H expr b opts.scope

/-! ## Emergency invariants -/

/-- A variable node. -/
def varNode (path : String) : Json := .obj [(js "var", .str (js path))]

/-- A constant node. -/
def constNode (v : Json) : Json := .obj [(js "const", v)]

/-- A node of a binary operator. -/
def binaryNode (op : String) (lhs rhs : Json) : Json :=
  .obj [(js "op", .str (js op)), (js "lhs", lhs), (js "rhs", rhs)]

/-- The invariants that Bounded Mode injects. -/
def EMERGENCY_INVARIANTS : List Json := [
  binaryNode "gte" (varNode "state.after.treasury.developer_fund_balance")
    (varNode "state.before.treasury.developer_fund_balance"),
  binaryNode "gte" (varNode "state.after.treasury.nav")
    (binaryNode "sub" (varNode "state.before.treasury.nav") (constNode (.int 0))),
  binaryNode "eq" (varNode "state.after.failure_mode.is_bounded_mode") (constNode (.bool true))]

def effectiveInvariants (declared : List Json) (isBoundedMode : Bool) : List Json :=
  if isBoundedMode then declared ++ EMERGENCY_INVARIANTS else declared

end ParadigmTerra
