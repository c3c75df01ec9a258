import ParadigmTerra.Dsl.Parse

/-!
# The form of an expression

`HasForm opts e j` says that the JSON value `j` is the form of the expression `e` in the scope and version,
by recursion on the expression and without the parser. The nodes of an expression, its levels and what its
nodes cost are what the limits of the language are about.

`buildOp_eq` reads the parser of a node the same way: by the operator that the node names, with one function
for the operators of two operands, one for those of one operand, and one for those about gates.
-/

namespace ParadigmTerra

open Text Fallible

/-! ## Size and cost of an expression -/

mutual

/-- The nodes of an expression, itself first. -/
def Expr.nodes : Expr → List Expr
  | .const c => [.const c]
  | .var raw path => [.var raw path]
  | .action a => [.action a]
  | .eq op lhs rhs => .eq op lhs rhs :: (lhs.nodes ++ rhs.nodes)
  | .cmp op lhs rhs => .cmp op lhs rhs :: (lhs.nodes ++ rhs.nodes)
  | .arith op lhs rhs => .arith op lhs rhs :: (lhs.nodes ++ rhs.nodes)
  | .bool op args => .bool op args :: nodesAll args
  | .not arg => .not arg :: arg.nodes
  | .contains_key map key => .contains_key map key :: (map.nodes ++ key.nodes)
  | .size arg => .size arg :: arg.nodes
  | .requires_scope action scope => .requires_scope action scope :: (action.nodes ++ scope.nodes)
  | .is_owner_required action => .is_owner_required action :: action.nodes

def nodesAll : List Expr → List Expr
  | [] => []
  | e :: es => e.nodes ++ nodesAll es

end

mutual

/-- The levels of an expression. -/
def Expr.depth : Expr → ℕ
  | .const _ | .var _ _ | .action _ => 1
  | .eq _ lhs rhs | .cmp _ lhs rhs | .arith _ lhs rhs | .contains_key lhs rhs | .requires_scope lhs rhs =>
    1 + max lhs.depth rhs.depth
  | .bool _ args => 1 + depthAll args
  | .not arg | .size arg | .is_owner_required arg => 1 + arg.depth

def depthAll : List Expr → ℕ
  | [] => 0
  | e :: es => max e.depth (depthAll es)

end

/-- What a node costs itself: a path by its segments, an operator by its kind. -/
def Expr.ownCost : Expr → ℕ
  | .const _ | .action _ => 0
  | .var _ path => 2 * path.length
  | .eq .. | .cmp .. | .arith .. | .bool .. | .not _ => 1
  | .contains_key .. => 10
  | .size _ => 20
  | .requires_scope .. | .is_owner_required _ => 5

/-- The cost of some nodes together. -/
def costOf (es : List Expr) : ℕ := (es.map Expr.ownCost).sum

/-- The cost of an expression is that of all its nodes. -/
def Expr.cost (e : Expr) : ℕ := costOf e.nodes

/-- A node that may stand in the scope: what is about gates only in gates, and the state before and after
only where both are known. -/
def Expr.AllowedIn (scope : Scope) : Expr → Prop
  | .action _ | .requires_scope _ _ | .is_owner_required _ => scope = .gate
  | .var _ path =>
    (path.head? = some (js "capability") ∨ path.head? = some (js "signatures") → scope = .gate) ∧
      (isBracketed path = true → scope = .post_condition ∨ scope = .invariant)
  | _ => True

/-! ## The form of an expression -/

/-- The operators of the language. -/
inductive Operator
  | arith (op : ArithOp) | cmp (op : CmpOp) | eq (op : EqOp) | bool (op : BoolOp)
  | not | size | contains_key | requires_scope | is_owner_required
  deriving DecidableEq

def Operator.name : Operator → String
  | .arith .add => "add"
  | .arith .sub => "sub"
  | .arith .mul => "mul"
  | .arith .div => "div"
  | .arith .mod => "mod"
  | .cmp .lt => "lt"
  | .cmp .lte => "lte"
  | .cmp .gt => "gt"
  | .cmp .gte => "gte"
  | .eq .eq => "eq"
  | .eq .neq => "neq"
  | .bool .and => "and"
  | .bool .or => "or"
  | .not => "not"
  | .size => "size"
  | .contains_key => "contains_key"
  | .requires_scope => "requires_scope"
  | .is_owner_required => "is_owner_required"

/-- The operator at the top of an expression. -/
def Expr.operator : Expr → Option Operator
  | .const _ | .var _ _ | .action _ => none
  | .eq op _ _ => some (.eq op)
  | .cmp op _ _ => some (.cmp op)
  | .arith op _ _ => some (.arith op)
  | .bool op _ => some (.bool op)
  | .not _ => some .not
  | .contains_key _ _ => some .contains_key
  | .size _ => some .size
  | .requires_scope _ _ => some .requires_scope
  | .is_owner_required _ => some .is_owner_required

/-- An object with the name of the operator, with the operands, and with nothing else. -/
structure IsNode (j : Json) (op : Operator) (fields : List (String × Json)) : Prop where
  object : j.isPlainObject = true
  op : j.read (js "op") = some (.str (js op.name))
  operands : ∀ f ∈ fields, j.read (js f.1) = some f.2
  keys : ∀ e ∈ j.members, e.1 ∈ ("op" :: fields.map Prod.fst).map js

/-- The literal that a value is read as. -/
def IsLiteral : Json → ConstValue → Prop
  | .int n, .int256 m => m = n ∧ inInt256Range n = true
  | .bool b, .bool c => c = b
  | .null, .null => True
  | .str s, .bytes32 t => isBytes32 s = true ∧ t = js "0x" ++ (s.drop 2).map lowerHexDigit
  | .str s, .address t => isBytes32 s = false ∧ isAddressShape s = true ∧ t = s
  | .str s, .string t => isBytes32 s = false ∧ isAddressShape s = false ∧ t = s
  | _, _ => False

/-- The root of a path may stand in the scope and version. -/
def RootAllowed (opts : ParseOptions) (path : List Str) : Prop :=
  path.head? = some (js "params") ∨
    (path.head? = some (js "state") ∧ (isBracketed path = true →
      (opts.scope = .post_condition ∨ opts.scope = .invariant) ∧ opts.version = .v1_2)) ∨
    ((path.head? = some (js "capability") ∨ path.head? = some (js "signatures")) ∧ opts.scope = .gate)

/-- The path that a variable names: its segments, none of them empty, and not too many. -/
structure IsPath (opts : ParseOptions) (raw : Str) (path : List Str) : Prop where
  segments : path = splitOn 0x2E raw
  nonempty : ∀ p ∈ path, p ≠ []
  length : path.length ≤ if isBracketed path then MAX_PATH_SEGMENTS_BRACKETED else MAX_PATH_SEGMENTS
  root : RootAllowed opts path

/-- What is about gates needs their scope, and the version that has it. -/
def GateOnly (opts : ParseOptions) : Prop := opts.scope = .gate ∧ opts.version = .v1_2

mutual

/-- The value is the form of the expression. -/
def HasForm (opts : ParseOptions) : Expr → Json → Prop
  | .const c, j => ∃ v, j = .obj [(js "const", v)] ∧ IsLiteral v c
  | .var raw path, j => j = .obj [(js "var", .str raw)] ∧ IsPath opts raw path
  | .action a, j => j = .obj [(js "action", .str a)] ∧ GateOnly opts ∧ isRegisteredAction a = true
  | .eq op lhs rhs, j =>
    ∃ x y, IsNode j (.eq op) [("lhs", x), ("rhs", y)] ∧ HasForm opts lhs x ∧ HasForm opts rhs y
  | .cmp op lhs rhs, j =>
    ∃ x y, IsNode j (.cmp op) [("lhs", x), ("rhs", y)] ∧ HasForm opts lhs x ∧ HasForm opts rhs y
  | .arith op lhs rhs, j =>
    ∃ x y, IsNode j (.arith op) [("lhs", x), ("rhs", y)] ∧ HasForm opts lhs x ∧ HasForm opts rhs y
  | .bool op args, j =>
    ∃ xs, IsNode j (.bool op) [("args", .arr xs)] ∧ 2 ≤ xs.length ∧ HaveForms opts args xs
  | .not arg, j => ∃ x, IsNode j .not [("arg", x)] ∧ HasForm opts arg x
  | .contains_key map key, j =>
    ∃ x y, IsNode j .contains_key [("lhs", x), ("rhs", y)] ∧ HasForm opts map x ∧ HasForm opts key y
  | .size arg, j => ∃ x, IsNode j .size [("arg", x)] ∧ HasForm opts arg x
  | .requires_scope action scope, j =>
    ∃ x y, IsNode j .requires_scope [("args", .arr [x, y])] ∧ GateOnly opts ∧
      HasForm opts action x ∧ HasForm opts scope y
  | .is_owner_required action, j =>
    ∃ x, IsNode j .is_owner_required [("args", .arr [x])] ∧ GateOnly opts ∧ HasForm opts action x

def HaveForms (opts : ParseOptions) : List Expr → List Json → Prop
  | [], xs => xs = []
  | e :: es, xs => ∃ y ys, xs = y :: ys ∧ HasForm opts e y ∧ HaveForms opts es ys

end

/-! ## The parts of a node -/

/-- The operator that a string names. -/
def Operator.ofStr? (s : Str) : Option Operator :=
  match ArithOp.ofStr? s, CmpOp.ofStr? s with
  | some a, _ => some (.arith a)
  | none, some c => some (.cmp c)
  | none, none =>
    if s = js "eq" then some (.eq .eq)
    else if s = js "neq" then some (.eq .neq)
    else if s = js "and" then some (.bool .and)
    else if s = js "or" then some (.bool .or)
    else if s = js "not" then some .not
    else if s = js "size" then some .size
    else if s = js "contains_key" then some .contains_key
    else if s = js "requires_scope" then some .requires_scope
    else if s = js "is_owner_required" then some .is_owner_required
    else none

theorem Operator.ofStr?_name (o : Operator) : ofStr? (js o.name) = some o := by
  rcases o with a | c | q | b | _ | _ | _ | _ | _
  · cases a <;> decide
  · cases c <;> decide
  · cases q <;> decide
  · cases b <;> decide
  all_goals decide

theorem Operator.name_of_ofStr? {s : Str} {o : Operator} (h : ofStr? s = some o) : s = js o.name := by
  unfold ofStr? at h
  cases ha : ArithOp.ofStr? s with
  | some a =>
    rw [ha] at h
    cases h
    unfold ArithOp.ofStr? at ha
    split_ifs at ha <;> cases ha <;> assumption
  | none =>
    cases hc : CmpOp.ofStr? s with
    | some c =>
      rw [ha, hc] at h
      cases h
      unfold CmpOp.ofStr? at hc
      split_ifs at hc <;> cases hc <;> assumption
    | none =>
      rw [ha, hc] at h
      dsimp only at h
      split_ifs at h <;> cases h <;> assumption

theorem Operator.name_injective {o o' : Operator} (h : js o.name = js o'.name) : o = o' := by
  have heq : some o = some o' := by rw [← ofStr?_name, h, ofStr?_name]
  exact Option.some.inj heq

/-! ## The parser by operators -/

/-- A node with two operands. -/
def buildBinary (build : Json → Build Expr) (o : Json) (cost : ℕ) (mk : Expr → Expr → Expr) :
    Build Expr := do
  requireKeys o ["op", "lhs", "rhs"]
  let l ← operand o "lhs"
  let r ← operand o "rhs"
  addCost cost
  let lhs ← build l
  let rhs ← build r
  pure (mk lhs rhs)

/-- A node with one operand. -/
def buildUnary (build : Json → Build Expr) (o : Json) (cost : ℕ) (mk : Expr → Expr) : Build Expr := do
  requireKeys o ["op", "arg"]
  let a ← operand o "arg"
  addCost cost
  let arg ← build a
  pure (mk arg)

/-- A node with the arguments of a boolean operator. -/
def buildBool (build : Json → Build Expr) (o : Json) (op : BoolOp) : Build Expr := do
  requireKeys o ["op", "args"]
  match o.read (js "args") with
  | some (.arr args) =>
    if args.length < 2 then validationError "ARITY"
    addCost 1
    let built ← args.mapM build
    pure (.bool op built)
  | _ => validationError "ARITY"

/-- A node of an operator about gates, with `n` arguments. -/
def buildGateOp (opts : ParseOptions) (build : Json → Build Expr) (o : Json) (n : ℕ)
    (mk : List Expr → Option Expr) : Build Expr := do
  checkGateOp opts
  requireKeys o ["op", "args"]
  let args ← expectArgs o n
  addCost 5
  let built ← args.mapM build
  match mk built with
  | some e => pure e
  | none => validationError "ARITY"

def scopeNode : List Expr → Option Expr
  | [action, scope] => some (.requires_scope action scope)
  | _ => none

def ownerNode : List Expr → Option Expr
  | [action] => some (.is_owner_required action)
  | _ => none

def buildOperator (opts : ParseOptions) (build : Json → Build Expr) (o : Json) : Operator → Build Expr
  | .arith op => buildBinary build o 1 (.arith op)
  | .cmp op => buildBinary build o 1 (.cmp op)
  | .eq op => buildBinary build o 1 (.eq op)
  | .bool op => buildBool build o op
  | .not => buildUnary build o 1 .not
  | .size => buildUnary build o 20 .size
  | .contains_key => buildBinary build o 10 .contains_key
  | .requires_scope => buildGateOp opts build o 2 scopeNode
  | .is_owner_required => buildGateOp opts build o 1 ownerNode

variable {opts : ParseOptions} {j : Json}

theorem buildGateOp_scope {build : Json → Build Expr} :
    (do
      checkGateOp opts
      requireKeys j ["op", "args"]
      let args ← expectArgs j 2
      addCost 5
      let built ← args.mapM build
      match built with
      | [action, scope] => pure (.requires_scope action scope)
      | _ => validationError "ARITY" : Build Expr) = buildGateOp opts build j 2 scopeNode := by
  unfold buildGateOp scopeNode
  congr! 11 with _ _ args _ built
  split <;> rfl

theorem buildGateOp_owner {build : Json → Build Expr} :
    (do
      checkGateOp opts
      requireKeys j ["op", "args"]
      let args ← expectArgs j 1
      addCost 5
      let built ← args.mapM build
      match built with
      | [action] => pure (.is_owner_required action)
      | _ => validationError "ARITY" : Build Expr) = buildGateOp opts build j 1 ownerNode := by
  unfold buildGateOp ownerNode
  congr! 11 with _ _ args _ built
  split <;> rfl

/-- The parser of a node goes by the operator that its name is. -/
theorem buildOp_eq {build : Json → Build Expr} {op : Str} (hop : j.read (js "op") = some (.str op)) :
    buildOp opts build j =
      match Operator.ofStr? op with
      | some o => buildOperator opts build j o
      | none => validationError "UNKNOWN_OPERATOR" := by
  unfold buildOp Operator.ofStr?
  simp only [hop]
  cases ha : ArithOp.ofStr? op with
  | some a => rfl
  | none =>
    cases hc : CmpOp.ofStr? op with
    | some c => rfl
    | none =>
      simp only [Option.isSome_none, Bool.or_self, Bool.false_eq_true, if_false]
      by_cases heq : op = js "eq"
      · simp [heq, buildOperator, buildBinary]
      by_cases hneq : op = js "neq"
      · simp [hneq, buildOperator, buildBinary]
      by_cases hand : op = js "and"
      · simp only [hand, js_inj, String.reduceEq, or_false, if_true, if_false]
        rfl
      by_cases hor : op = js "or"
      · simp only [hor, js_inj, String.reduceEq, or_self, or_true, if_true, if_false]
        rfl
      simp only [heq, hneq, hand, hor, or_self, if_false]
      split_ifs
      · rfl
      · rfl
      · rfl
      · exact buildGateOp_scope
      · exact buildGateOp_owner
      · rfl

end ParadigmTerra
