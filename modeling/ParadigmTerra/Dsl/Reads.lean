import ParadigmTerra.Validator.Validate

/-!
# What an expression reads

An expression reads its bindings only through the paths of its variables. `Expr.reads` lists them, and
`evalNode_congr` proves that bindings that agree on them give one value. For an embedded expression
`readsOf` lists the paths of the tree that it parses to, and `evalExpr_congr` carries the result over to
outcomes.
-/

namespace ParadigmTerra

open Text Fallible

mutual

/-- The paths of the variables of an expression. -/
def Expr.reads : Expr → List (List Str)
  | .const _ | .action _ => []
  | .var _ path => [path]
  | .eq _ lhs rhs | .cmp _ lhs rhs | .arith _ lhs rhs => lhs.reads ++ rhs.reads
  | .bool _ args => readsAll args
  | .not arg | .size arg | .is_owner_required arg => arg.reads
  | .contains_key map key => map.reads ++ key.reads
  | .requires_scope action scope => action.reads ++ scope.reads

def readsAll : List Expr → List (List Str)
  | [] => []
  | a :: as => a.reads ++ readsAll as

end

/-- What the bindings hold at a path, `none` where they hold nothing. -/
def valueAt (path : List Str) (b : Bindings) (scope : Scope) : Except Throw (Option Json) := do
  let (base, rest) ← bindingOf path b scope
  pure (base.bind fun v => getIn v rest)

/-- Two bindings hold the same at each of the paths. -/
def AgreeOn (paths : List (List Str)) (scope : Scope) (b b' : Bindings) : Prop :=
  ∀ p ∈ paths, valueAt p b scope = valueAt p b' scope

variable {H : Host} {scope : Scope} {b b' : Bindings}

theorem agreeOn_append {ps qs : List (List Str)} :
    AgreeOn (ps ++ qs) scope b b' ↔ AgreeOn ps scope b b' ∧ AgreeOn qs scope b b' :=
  List.forall_mem_append

/-- A variable has the value that is bound at its path. -/
theorem resolvePath_eq (path : List Str) :
    resolvePath H path b scope = (do
      match ← valueAt path b scope with
      | none => runtimeError "MISSING_VAR"
      | some v => materialize H v) := by
  unfold resolvePath valueAt
  cases bindingOf path b scope with
  | error e => rfl
  | ok p =>
    obtain ⟨base, rest⟩ := p
    cases base with
    | none => rfl
    | some base =>
      cases hg : getIn base rest with
      | none => simp only [ok_bind, pure_bind, Option.bind_some, hg]
      | some v => simp only [ok_bind, pure_bind, Option.bind_some, hg]

mutual

/-- An expression has one value under bindings that agree on what it reads. -/
theorem evalNode_congr (e : Expr) (h : AgreeOn e.reads scope b b') :
    evalNode H b scope e = evalNode H b' scope e := by
  cases e with
  | const c => rfl
  | action a => rfl
  | var raw path =>
    rw [evalNode, evalNode, resolvePath_eq, resolvePath_eq, h path (by simp [Expr.reads])]
  | eq op lhs rhs =>
    obtain ⟨hl, hr⟩ := agreeOn_append.mp h
    rw [evalNode, evalNode, evalNode_congr lhs hl, evalNode_congr rhs hr]
  | cmp op lhs rhs =>
    obtain ⟨hl, hr⟩ := agreeOn_append.mp h
    rw [evalNode, evalNode, evalNode_congr lhs hl, evalNode_congr rhs hr]
  | arith op lhs rhs =>
    obtain ⟨hl, hr⟩ := agreeOn_append.mp h
    rw [evalNode, evalNode, evalNode_congr lhs hl, evalNode_congr rhs hr]
  | bool op args => rw [evalNode, evalNode, evalArgs_congr args h]
  | not arg => rw [evalNode, evalNode, evalNode_congr arg h]
  | size arg => rw [evalNode, evalNode, evalNode_congr arg h]
  | is_owner_required action => rw [evalNode, evalNode, evalNode_congr action h]
  | contains_key map key =>
    obtain ⟨hm, hk⟩ := agreeOn_append.mp h
    rw [evalNode, evalNode, evalNode_congr map hm, evalNode_congr key hk]
  | requires_scope action scope =>
    obtain ⟨ha, hs⟩ := agreeOn_append.mp h
    rw [evalNode, evalNode, evalNode_congr action ha, evalNode_congr scope hs]

theorem evalArgs_congr (args : List Expr) (h : AgreeOn (readsAll args) scope b b') :
    evalArgs H b scope args = evalArgs H b' scope args := by
  cases args with
  | nil => rfl
  | cons a as =>
    obtain ⟨ha, has⟩ := agreeOn_append.mp h
    rw [evalArgs, evalArgs, evalNode_congr a ha, evalArgs_congr as has]

end

/-! ## Embedded expressions -/

/-- The tree of an embedded expression. -/
def parsedExpr (node : Json) (scope : Scope) : Except Throw Expr := do
  let env ← openEnvelope node
  parseExpression env.expr ⟨scope, env.version⟩

/-- The paths that an embedded expression reads, none if it does not parse. -/
def readsOf (node : Json) (scope : Scope) : List (List Str) :=
  match parsedExpr node scope with
  | .ok e => e.reads
  | .error _ => []

/-- An embedded expression has one outcome under bindings that agree on what it reads. -/
theorem evalExpr_congr {node : Json} (h : AgreeOn (readsOf node scope) scope b b') :
    evalExpr H (some node) scope b = evalExpr H (some node) scope b' := by
  simp only [evalExpr]
  cases henv : openEnvelope node with
  | error e => rfl
  | ok env =>
    simp only [ok_bind, run]
    cases hparse : parseExpression env.expr ⟨scope, env.version⟩ with
    | error e => rfl
    | ok e =>
      have hreads : readsOf node scope = e.reads := by
        simp only [readsOf, parsedExpr, henv, ok_bind, hparse]
      rw [hreads] at h
      simp only [ok_bind, evaluate, evalNode_congr e h]

end ParadigmTerra
