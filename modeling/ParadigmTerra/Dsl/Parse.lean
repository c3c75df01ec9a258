import ParadigmTerra.Canonical.Jcs
import ParadigmTerra.Dsl.Taxonomy

/-!
# Parsing constraints

`parseExpression` validates the JSON form of an expression into a typed tree, within the limits of
depth, of nodes and of cost. The nodes and the cost are counted while the tree is built;
`expressionCost` is the cost of the whole.
-/

namespace ParadigmTerra

open Text Fallible

/-- Where an expression appears. -/
inductive Scope
  | precondition | post_condition | invariant | gate
  deriving DecidableEq, Repr

/-- The versions of the language. -/
inductive DslVersion
  | v1_1 | v1_2
  deriving DecidableEq, Repr

inductive CmpOp
  | lt | lte | gt | gte
  deriving DecidableEq, Repr

inductive ArithOp
  | add | sub | mul | div | mod
  deriving DecidableEq, Repr

inductive EqOp
  | eq | neq
  deriving DecidableEq, Repr

inductive BoolOp
  | and | or
  deriving DecidableEq, Repr

/-- A literal with its inferred type. -/
inductive ConstValue
  | int256 (n : ℤ)
  | bool (b : Bool)
  | string (s : Str)
  | bytes32 (s : Str)
  | address (s : Str)
  | null

/-- A validated expression. -/
inductive Expr
  | const (c : ConstValue)
  | var (raw : Str) (path : List Str)
  | action (action : Str)
  | eq (op : EqOp) (lhs rhs : Expr)
  | cmp (op : CmpOp) (lhs rhs : Expr)
  | arith (op : ArithOp) (lhs rhs : Expr)
  | bool (op : BoolOp) (args : List Expr)
  | not (arg : Expr)
  | contains_key (map key : Expr)
  | size (arg : Expr)
  | requires_scope (action scope : Expr)
  | is_owner_required (action : Expr)

def MAX_DEPTH : ℕ := 10
def MAX_NODES : ℕ := 100
def MAX_PATH_SEGMENTS : ℕ := 6
def MAX_PATH_SEGMENTS_BRACKETED : ℕ := 7
def MAX_EXPRESSION_COST : ℕ := 1000

def INT256_MIN : ℤ := -2 ^ 255
def INT256_MAX : ℤ := 2 ^ 255 - 1

def inInt256Range (v : ℤ) : Bool := INT256_MIN ≤ v && v ≤ INT256_MAX

def parseError {α : Type} (reason : String) : Except Throw α := throw (.dsl .PARSE_ERROR reason)

def validationError {α : Type} (reason : String) : Except Throw α :=
  throw (.dsl .VALIDATION_ERROR reason)

def runtimeError {α : Type} (reason : String) : Except Throw α := throw (.dsl .ERROR reason)

/-- What is fixed while an expression is parsed. -/
structure ParseOptions where
  scope : Scope
  version : DslVersion

/-- What is counted while an expression is parsed. -/
structure Counts where
  nodes : ℕ
  cost : ℕ

/-- A step of the parser. -/
abbrev Build (α : Type) := StateT Counts (Except Throw) α

def bumpNode : Build Unit := fun c =>
  if c.nodes + 1 > MAX_NODES then parseError "NODE_LIMIT"
  else pure ((), { c with nodes := c.nodes + 1 })

def addCost (n : ℕ) : Build Unit := fun c =>
  if c.cost + n > MAX_EXPRESSION_COST then validationError "COST_EXCEEDED"
  else pure ((), { c with cost := c.cost + n })

def buildConst (value : Option Json) : Except Throw Expr :=
  match value with
  | some (.int n) =>
    if inInt256Range n then pure (.const (.int256 n)) else validationError "INT256_RANGE"
  | some (.bool b) => pure (.const (.bool b))
  | some .null => pure (.const .null)
  | some (.str s) =>
    if isBytes32 s then pure (.const (.bytes32 (js "0x" ++ (s.drop 2).map lowerHexDigit)))
    else if isAddressShape s then pure (.const (.address s))
    else pure (.const (.string s))
  | _ => validationError "NO_COLLECTION_LITERAL"

/-- The parts of a string between the units `c`. -/
def splitOn (c : UInt16) : Str → List Str
  | [] => [[]]
  | u :: s =>
    if u = c then [] :: splitOn c s
    else
      match splitOn c s with
      | p :: ps => (u :: p) :: ps
      | [] => [[u]]

/-- A path starts in the state before or after. -/
def isBracketed (path : List Str) : Bool :=
  match path with
  | root :: seg :: _ => root = js "state" && (seg = js "before" || seg = js "after")
  | _ => false

/-- The check of a path's root against the scope. -/
def checkRoot (opts : ParseOptions) (path : List Str) : Except Throw Unit :=
  let root := path.headD []
  if root = js "params" then pure ()
  else if root = js "state" then
    if isBracketed path then
      if opts.scope ≠ .post_condition ∧ opts.scope ≠ .invariant then
        parseError "BRACKETED_STATE_OUT_OF_SCOPE"
      else if opts.version = .v1_1 then validationError "V11_UNSUPPORTED"
      else pure ()
    else pure ()
  else if root = js "capability" ∨ root = js "signatures" then
    if opts.scope ≠ .gate then parseError "GATE_VAR_OUT_OF_SCOPE" else pure ()
  else parseError "UNKNOWN_VAR_ROOT"

def buildVar (opts : ParseOptions) (raw : Str) : Build Expr := do
  let path := splitOn 0x2E raw
  -- a leading, a trailing or a double dot leaves an empty segment
  if path.any (fun p => p.isEmpty) then parseError "MALFORMED_PATH"
  let limit := if isBracketed path then MAX_PATH_SEGMENTS_BRACKETED else MAX_PATH_SEGMENTS
  if path.length > limit then parseError "PATH_TOO_DEEP"
  checkRoot opts path
  addCost (2 * path.length)
  pure (.var raw path)

def buildAction (opts : ParseOptions) (action : Option Json) : Except Throw Expr :=
  match action with
  | some (.str a) =>
    if opts.scope ≠ .gate then parseError "ACTION_OUT_OF_SCOPE"
    else if opts.version = .v1_1 then validationError "V11_UNSUPPORTED"
    else if !isRegisteredAction a then parseError "UNKNOWN_ACTION"
    else pure (.action a)
  | _ => parseError "MALFORMED_ACTION"

/-- The arithmetic operators. -/
def ArithOp.ofStr? (s : Str) : Option ArithOp :=
  if s = js "add" then some .add
  else if s = js "sub" then some .sub
  else if s = js "mul" then some .mul
  else if s = js "div" then some .div
  else if s = js "mod" then some .mod
  else none

/-- The comparison operators. -/
def CmpOp.ofStr? (s : Str) : Option CmpOp :=
  if s = js "lt" then some .lt
  else if s = js "lte" then some .lte
  else if s = js "gt" then some .gt
  else if s = js "gte" then some .gte
  else none

/-- The own keys of a node are among these. -/
def requireKeys (o : Json) (allowed : List String) : Except Throw Unit :=
  if o.members.all fun e => e.1 ∈ allowed.map js then pure () else validationError "UNEXPECTED_KEY"

/-- A member that an operator must have. -/
def operand (o : Json) (k : String) : Except Throw Json :=
  match o.read (js k) with
  | some v => pure v
  | none => validationError "ARITY"

/-- The arguments of a gate operator. -/
def expectArgs (o : Json) (n : ℕ) : Except Throw (List Json) :=
  match o.read (js "args") with
  | some (.arr args) => if args.length = n then pure args else validationError "ARITY"
  | _ => validationError "ARITY"

/-- A gate operator outside its scope or version. -/
def checkGateOp (opts : ParseOptions) : Except Throw Unit :=
  if opts.scope ≠ .gate then parseError "GATE_OP_OUT_OF_SCOPE"
  else if opts.version = .v1_1 then validationError "V11_UNSUPPORTED"
  else pure ()

/-- An operator node, given how its operands are built. -/
def buildOp (opts : ParseOptions) (build : Json → Build Expr) (o : Json) : Build Expr := do
  match o.read (js "op") with
  | some (.str op) =>
    if (ArithOp.ofStr? op).isSome || (CmpOp.ofStr? op).isSome then
      requireKeys o ["op", "lhs", "rhs"]
      let l ← operand o "lhs"
      let r ← operand o "rhs"
      addCost 1
      let lhs ← build l
      let rhs ← build r
      match ArithOp.ofStr? op, CmpOp.ofStr? op with
      | some a, _ => pure (.arith a lhs rhs)
      | none, some c => pure (.cmp c lhs rhs)
      | none, none => validationError "UNKNOWN_OPERATOR"
    else if op = js "eq" ∨ op = js "neq" then
      requireKeys o ["op", "lhs", "rhs"]
      let l ← operand o "lhs"
      let r ← operand o "rhs"
      addCost 1
      let lhs ← build l
      let rhs ← build r
      pure (.eq (if op = js "eq" then .eq else .neq) lhs rhs)
    else if op = js "and" ∨ op = js "or" then
      requireKeys o ["op", "args"]
      match o.read (js "args") with
      | some (.arr args) =>
        if args.length < 2 then validationError "ARITY"
        addCost 1
        let built ← args.mapM build
        pure (.bool (if op = js "and" then .and else .or) built)
      | _ => validationError "ARITY"
    else if op = js "not" then
      requireKeys o ["op", "arg"]
      let a ← operand o "arg"
      addCost 1
      let arg ← build a
      pure (.not arg)
    else if op = js "size" then
      requireKeys o ["op", "arg"]
      let a ← operand o "arg"
      addCost 20
      let arg ← build a
      pure (.size arg)
    else if op = js "contains_key" then
      requireKeys o ["op", "lhs", "rhs"]
      let l ← operand o "lhs"
      let r ← operand o "rhs"
      addCost 10
      let map ← build l
      let key ← build r
      pure (.contains_key map key)
    else if op = js "requires_scope" then
      checkGateOp opts
      requireKeys o ["op", "args"]
      let args ← expectArgs o 2
      addCost 5
      let built ← args.mapM build
      match built with
      | [action, scope] => pure (.requires_scope action scope)
      | _ => validationError "ARITY"
    else if op = js "is_owner_required" then
      checkGateOp opts
      requireKeys o ["op", "args"]
      let args ← expectArgs o 1
      addCost 5
      let built ← args.mapM build
      match built with
      | [action] => pure (.is_owner_required action)
      | _ => validationError "ARITY"
    else validationError "UNKNOWN_OPERATOR"
  | _ => parseError "MALFORMED_NODE"

/-- A node, with `n` levels left for it and what is below it. -/
def build (opts : ParseOptions) : ℕ → Json → Build Expr
  | 0, _ => parseError "DEPTH_LIMIT"
  | n + 1, j => do
    bumpNode
    if !j.isPlainObject then parseError "MALFORMED_NODE"
    let has := fun k : String => (j.read (js k)).isSome
    if ([has "const", has "var", has "action", has "op"].filter id).length ≠ 1 then
      parseError "MALFORMED_NODE"
    if has "op" then buildOp opts (build opts n) j
    else
      if j.members.length ≠ 1 then parseError "MALFORMED_NODE"
      if has "const" then buildConst (j.read (js "const"))
      else if has "var" then
        match j.read (js "var") with
        | some (.str raw) => buildVar opts raw
        | _ => parseError "MALFORMED_NODE"
      else buildAction opts (j.read (js "action"))

/-- An input that is a value, or the canonical text of one. -/
def parsedInput (input : Json) : Except Throw Json :=
  match input with
  | .str s => parseCanonical s
  | j => pure j

/-- Builds a whole expression, and counts. -/
def buildExpression (input : Json) (opts : ParseOptions) : Except Throw (Expr × Counts) := do
  let j ← parsedInput input
  (build opts MAX_DEPTH j).run ⟨0, 0⟩

def parseExpression (input : Json) (opts : ParseOptions) : Except Throw Expr :=
  Prod.fst <$> buildExpression input opts

/-- The static cost of an expression. -/
def expressionCost (input : Json) (opts : ParseOptions) : Except Throw ℕ :=
  (fun r => r.2.cost) <$> buildExpression input opts

/-! ## Envelopes -/

/-- An expression with its version. -/
structure Envelope where
  version : DslVersion
  expr : Json

mutual

/-- A value with a bigint in it, on which `JSON.stringify` throws. -/
def hasBigint : Json → Bool
  | .int _ => true
  | .arr xs => elementsHaveBigint xs
  | .obj m => membersHaveBigint m
  | _ => false

def elementsHaveBigint : List Json → Bool
  | [] => false
  | x :: xs => hasBigint x || elementsHaveBigint xs

def membersHaveBigint : List (Str × Json) → Bool
  | [] => false
  | (_, x) :: m => hasBigint x || membersHaveBigint m

end

/-- The message on an unsupported version shows it by `JSON.stringify`. -/
def parseEnvelope (input : Json) : Except Throw Envelope := do
  if !input.isPlainObject then parseError "MALFORMED_ENVELOPE"
  let version ←
    if isStr (input.read (js "dsl_version")) (js "1.1") then pure DslVersion.v1_1
    else if isStr (input.read (js "dsl_version")) (js "1.2") then pure DslVersion.v1_2
    else if (input.read (js "dsl_version")).any hasBigint then throw .typeError
    else validationError "UNSUPPORTED_VERSION"
  match input.read (js "expr") with
  | some expr => pure ⟨version, expr⟩
  | none => parseError "MALFORMED_ENVELOPE"

/-- An embedded expression: a bare one under version 1.2, or an envelope. -/
def openEnvelope (node : Json) : Except Throw Envelope :=
  if node.isPlainObject && (node.read (js "dsl_version")).isSome then parseEnvelope node
  else pure ⟨.v1_2, node⟩

end ParadigmTerra
