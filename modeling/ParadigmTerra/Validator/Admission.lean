import ParadigmTerra.Validator.Capability
import ParadigmTerra.Dsl.Outcomes

/-!
# Admitted CALs are priced and evaluated

The schema, the gas units and the validator open the envelope of an embedded expression and choose its
scope each on their own. `Embeds` lists the positions of the expressions that the validator evaluates.
`WellEmbedded.embeds_parses` says that what `validateCal` has accepted parses at each of them, so that
its cost is bounded (`Parses.dslCost_le`), no pricing of the CAL throws, and no evaluation has the
outcome PARSE_ERROR (`admitted_priced`).
-/

namespace ParadigmTerra

open Text Fallible Validator

/-! ## The cost of an expression -/

/-- A step of the parser that stays within the limit of cost. -/
def CostsAtMost {α : Type} (x : Build α) : Prop :=
  ∀ c r, c.cost ≤ MAX_EXPRESSION_COST → x c = .ok r → r.2.cost ≤ MAX_EXPRESSION_COST

theorem buildRules_costsAtMost : BuildRules CostsAtMost where
  pure := fun c r hc h => by
    cases h
    exact hc
  bind := fun {_ _ x f} hx hf c r hc h => by
    change (x c >>= fun r => f r.1 r.2) = .ok r at h
    obtain ⟨a, ha, h⟩ := bind_eq_ok.mp h
    exact hf a.1 a.2 r (hx c a hc ha) h
  lift := fun {_ x} _ c r hc h => by
    change (x >>= fun a => Pure.pure (a, c)) = .ok r at h
    obtain ⟨a, -, h⟩ := bind_eq_ok.mp h
    cases h
    exact hc
  bumpNode := fun c r hc h => by
    unfold ParadigmTerra.bumpNode at h
    split at h
    · cases h
    · cases h
      exact hc
  addCost := fun n c r hc h => by
    unfold ParadigmTerra.addCost at h
    split at h
    · cases h
    · next hle =>
      cases h
      exact not_lt.mp hle

/-- What parses has a cost, within the limit. -/
theorem expressionCost_of_parse {input : Json} {opts : ParseOptions} {e : Expr}
    (h : parseExpression input opts = .ok e) :
    ∃ c, expressionCost input opts = .ok c ∧ c ≤ MAX_EXPRESSION_COST := by
  obtain ⟨r, hr, rfl⟩ := map_eq_ok.mp h
  refine ⟨r.2.cost, map_eq_ok.mpr ⟨r, hr, rfl⟩, ?_⟩
  simp only [buildExpression, bind_eq_ok] at hr
  obtain ⟨j, -, hr⟩ := hr
  exact buildRules_costsAtMost.build _ j ⟨0, 0⟩ r (Nat.zero_le _) hr

/-! ## Embedded expressions -/

/-- The node opens to an expression that parses at the scope. -/
def Parses (node : Json) (scope : Scope) : Prop :=
  ∃ env e, openEnvelope node = .ok env ∧ parseExpression env.expr ⟨scope, env.version⟩ = .ok e

instance (node : Json) (scope : Scope) : Decidable (Parses node scope) :=
  match henv : openEnvelope node with
  | .error t => .isFalse fun ⟨_, _, h, _⟩ => by rw [henv] at h; cases h
  | .ok env =>
    match he : parseExpression env.expr ⟨scope, env.version⟩ with
    | .ok e => .isTrue ⟨env, e, henv, he⟩
    | .error t => .isFalse fun ⟨env', e, h, hparse⟩ => by
      rw [henv] at h
      cases h
      rw [he] at hparse
      cases hparse

theorem validateEmbeddedDsl_eq_ok {node : Json} {scope : Scope} {where_ : Str} {u : Unit}
    (h : validateEmbeddedDsl node scope where_ = .ok u) : Parses node scope := by
  simp only [validateEmbeddedDsl, bind_eq_ok] at h
  obtain ⟨env, henv, h⟩ := h
  split at h
  · next e he => exact ⟨env, e, henv, he⟩
  · cases h
  · cases h

/-- The cost that the schema has checked is the one that is priced. -/
theorem Parses.dslCost_le {node : Json} {scope : Scope} (h : Parses node scope) :
    ∃ c, dslCost (some node) scope = .ok c ∧ c ≤ 1000 := by
  obtain ⟨env, e, henv, he⟩ := h
  obtain ⟨c, hc, hle⟩ := expressionCost_of_parse he
  refine ⟨c, ?_, Int.ofNat_le.mpr hle⟩
  simp only [dslCost, henv, ok_bind, hc]
  rfl

/-- Only a parser reports PARSE_ERROR. -/
theorem evaluate_code {H : Host} {e : Expr} {b : Bindings} {scope : Scope} {o : Outcome}
    (h : evaluate H e b scope = .ok o) : o.code ≠ .PARSE_ERROR := by
  unfold evaluate at h
  cases hx : evalNode H b scope e with
  | ok v =>
    rw [hx] at h
    cases v with
    | bool x => cases x <;> cases h <;> nofun
    | _ => cases h; nofun
  | error t =>
    rw [hx] at h
    cases t with
    | dsl p reason =>
      -- the phase of a fault of the evaluation
      have hfault : p ≠ .PARSE_ERROR := by
        rcases (judged_evalNode e).of_error hx with ⟨-, hfault⟩ | ⟨-, hforeign⟩
        · exact hfault
        · exact (hforeign trivial).elim
      cases h
      cases p with
      | PARSE_ERROR => exact absurd rfl hfault
      | VALIDATION_ERROR => nofun
      | ERROR => nofun
    | _ => cases h

theorem Parses.evalExpr_code {node : Json} {scope : Scope} (h : Parses node scope) {H : Host}
    {b : Bindings} {o : Outcome} (ho : evalExpr H (some node) scope b = .ok o) :
    o.code ≠ .PARSE_ERROR := by
  obtain ⟨env, e, henv, he⟩ := h
  simp only [evalExpr, henv, ok_bind, run, he] at ho
  cases hx : evaluate H e b scope with
  | ok o' =>
    rw [hx] at ho
    cases ho
    exact evaluate_code hx
  | error t =>
    rw [hx] at ho
    -- an evaluation that throws does not throw a fault of the language
    have hforeign : ¬t.IsDsl := by
      intro hdsl
      have hthrows : ThrowsOnly Throw.IsDsl (evaluate H e b scope) := by
        rw [hx]
        exact throwsOnly_error.mpr hdsl
      obtain ⟨o', ho'⟩ := evaluate_returns_iff.mpr (throwsOnly_evaluate_iff.mp hthrows)
      rw [hx] at ho'
      cases ho'
    cases t with
    | dsl p reason => exact (hforeign trivial).elim
    | _ => cases ho

/-! ## Positions -/

/-- The expressions that the validator evaluates, with their scopes. -/
inductive Embeds (v : Validator) : Json → Scope → Prop
  | precondition {node : Json} (h : getIn v.cal [js "preconditions"] = some node) :
    Embeds v node .precondition
  | post_condition {step node : Json} (hstep : step ∈ v.steps)
    (h : node ∈ listOf (getIn step [js "post_conditions"])) : Embeds v node .post_condition
  | invariant {node : Json} (h : node ∈ v.invariants) : Embeds v node .invariant

/-- The positions of a CAL hold expressions. -/
structure WellEmbedded (cal : Json) : Prop where
  precondition : ∃ node, getIn cal [js "preconditions"] = some node ∧ Parses node .precondition
  post_conditions : ∀ step ∈ listOf (getIn cal [js "steps"]),
    ∀ node ∈ listOf (getIn step [js "post_conditions"]), Parses node .post_condition
  invariants : ∀ node ∈ listOf (getIn cal [js "invariants"]), Parses node .invariant

theorem emergency_parses : ∀ node ∈ EMERGENCY_INVARIANTS, Parses node .invariant := by
  have h : EMERGENCY_INVARIANTS.all (fun node => decide (Parses node .invariant)) = true := by
    decide +kernel
  simpa using h

theorem validateStep_parses {ns where_ : Str} {step : Json} {u : Unit}
    (h : validateStep ns where_ step = .ok u) :
    ∀ node ∈ listOf (getIn step [js "post_conditions"]), Parses node .post_condition := by
  simp only [validateStep, bind_eq_ok] at h
  obtain ⟨o, ho, -, -, h⟩ := h
  obtain ⟨heq, hplain⟩ := asObject_eq_ok ho
  cases heq
  split at h
  · simp only [bind_eq_ok] at h
    obtain ⟨-, -, -, -, -, -, hpcs⟩ := h
    intro node hnode
    rw [getIn_singleton hplain] at hnode
    unfold validatePostConditions at hpcs
    split at hpcs
    · next hnone => rw [hnone] at hnode; cases hnode
    · next pcs hpcs' =>
      rw [hpcs'] at hnode
      obtain ⟨i, u, hu⟩ := forEachFrom_eq_ok hpcs hnode
      exact validateEmbeddedDsl_eq_ok hu
    · cases hpcs
  · cases h

theorem validateCal_wellEmbedded {input cal : Json} (h : validateCal input = .ok cal) :
    WellEmbedded cal := by
  simp only [validateCal, bind_eq_ok, pure_eq_ok] at h
  obtain ⟨v, -, o, ho, -, -, _, hrequired, -, -, action, -, -, -, -, -, -, -, _, hpre, _, hinvs, _,
    hsteps, -, -, -, -, -, -, -, -, rfl⟩ := h
  have hplain := (asObject_eq_ok ho).2
  refine ⟨?_, fun step hstep => ?_, fun node hnode => ?_⟩
  · have hsome : (o.read (js "preconditions")).isSome = true := by
      unfold requireFields at hrequired
      split at hrequired
      · cases hrequired
      · next hfind =>
        have := List.find?_eq_none.mp hfind (js "preconditions") (by decide)
        simpa [Option.isSome_iff_ne_none] using this
    obtain ⟨node, hnode⟩ := Option.isSome_iff_exists.mp hsome
    rw [hnode] at hpre
    exact ⟨node, by rw [getIn_singleton hplain, hnode], validateEmbeddedDsl_eq_ok hpre⟩
  · rw [getIn_singleton hplain] at hstep
    unfold validateSteps at hsteps
    split at hsteps
    · cases hsteps
    · next steps _ hread =>
      rw [hread] at hstep
      obtain ⟨i, u, hu⟩ := forEachFrom_eq_ok hsteps hstep
      exact validateStep_parses hu
    · cases hsteps
  · rw [getIn_singleton hplain] at hnode
    unfold validateInvariants at hinvs
    split at hinvs
    · next invariants hread =>
      rw [hread] at hnode
      obtain ⟨i, u, hu⟩ := forEachFrom_eq_ok hinvs hnode
      exact validateEmbeddedDsl_eq_ok hu
    · cases hinvs

/-- What the validator evaluates parses, the injected invariants too. -/
theorem WellEmbedded.embeds_parses {v : Validator} (h : WellEmbedded v.cal) {node : Json}
    {scope : Scope} (hnode : Embeds v node scope) : Parses node scope := by
  cases hnode with
  | precondition hread =>
    obtain ⟨node', hread', hparses⟩ := h.precondition
    rw [hread] at hread'
    cases hread'
    exact hparses
  | post_condition hstep hnode => exact h.post_conditions _ hstep _ hnode
  | invariant hnode =>
    unfold Validator.invariants effectiveInvariants at hnode
    split at hnode
    · rcases List.mem_append.mp hnode with hdeclared | hinjected
      · exact h.invariants _ hdeclared
      · exact emergency_parses _ hinjected
    · exact h.invariants _ hnode

/-! ## Prices -/

/-- A sum of costs that are bounded each. -/
theorem sumCosts_le {f : Json → Except Throw ℤ} {xs : List Json} {k : ℤ}
    (h : ∀ x ∈ xs, ∃ c, f x = .ok c ∧ c ≤ k) :
    ∃ c, sumCosts f xs = .ok c ∧ c ≤ k * xs.length := by
  induction xs with
  | nil => exact ⟨0, rfl, by simp⟩
  | cons x xs ih =>
    obtain ⟨⟨a, ha, hle⟩, hrest⟩ := List.forall_mem_cons.mp h
    obtain ⟨b, hb, hble⟩ := ih hrest
    refine ⟨a + b, by simp only [sumCosts, ha, hb, ok_bind]; rfl, ?_⟩
    rw [List.length_cons, Nat.cast_succ, Int.mul_add]
    omega

/-- The number of post-conditions of all steps. -/
def postConditionCount (steps : List Json) : ℕ :=
  (steps.map fun step => (listOf (getIn step [js "post_conditions"])).length).sum

theorem stepUnits_le {step : Json}
    (h : ∀ node ∈ listOf (getIn step [js "post_conditions"]), Parses node .post_condition) :
    ∃ u, stepUnits step = .ok u ∧
      u ≤ 200 + 1000 * (listOf (getIn step [js "post_conditions"])).length := by
  obtain ⟨c, hc, hle⟩ := sumCosts_le (k := 1000) fun node hnode => (h node hnode).dslCost_le
  simp only [stepUnits, hc, ok_bind]
  refine ⟨_, rfl, ?_⟩
  have hcall : ∀ verb, mcpCallUnits verb ≤ 200 := by
    intro verb
    simp only [mcpCallUnits, MCP_READ, MCP_WRITE]
    split <;> omega
  split
  · next verb _ =>
    have := hcall verb
    omega
  · omega

theorem stepsUnits_le {steps : List Json}
    (h : ∀ step ∈ steps, ∀ node ∈ listOf (getIn step [js "post_conditions"]),
      Parses node .post_condition) :
    ∃ u, sumCosts stepUnits steps = .ok u ∧
      u ≤ 200 * steps.length + 1000 * postConditionCount steps := by
  induction steps with
  | nil => exact ⟨0, rfl, by simp [postConditionCount]⟩
  | cons step steps ih =>
    obtain ⟨hstep, hrest⟩ := List.forall_mem_cons.mp h
    obtain ⟨a, ha, hle⟩ := stepUnits_le hstep
    obtain ⟨b, hb, hble⟩ := ih hrest
    refine ⟨a + b, by simp only [sumCosts, ha, hb, ok_bind]; rfl, ?_⟩
    have hcount : postConditionCount (step :: steps) =
        (listOf (getIn step [js "post_conditions"])).length + postConditionCount steps := by
      simp [postConditionCount]
    rw [hcount]
    push_cast [List.length_cons]
    omega

/-- The static units of a CAL whose positions hold expressions. -/
theorem WellEmbedded.staticGasUnits_le {cal : Json} (h : WellEmbedded cal) :
    ∃ u, staticGasUnits cal = .ok u ∧
      u ≤ 1000 + 200 * (listOf (getIn cal [js "steps"])).length +
        1000 * postConditionCount (listOf (getIn cal [js "steps"])) +
        1005 * (listOf (getIn cal [js "invariants"])).length := by
  obtain ⟨node, hnode, hpre⟩ := h.precondition
  obtain ⟨p, hp, hple⟩ := hpre.dslCost_le
  obtain ⟨s, hs, hsle⟩ := stepsUnits_le h.post_conditions
  obtain ⟨i, hi, hile⟩ := sumCosts_le (k := 1005)
    (f := fun inv => do
      let c ← dslCost (some inv) .invariant
      pure (INVARIANT_BASE + c)) fun inv hinv => by
    obtain ⟨c, hc, hle⟩ := (h.invariants inv hinv).dslCost_le
    refine ⟨INVARIANT_BASE + c, by simp only [hc, ok_bind]; rfl, ?_⟩
    unfold INVARIANT_BASE
    omega
  refine ⟨p + s + i, ?_, by omega⟩
  simp only [staticGasUnits, hnode, hp, hs, hi, ok_bind]
  rfl

theorem settle_returns {outcome : BillOutcome} {cal state : Json} {bytes auth u : ℤ}
    (h : gasUnits cal bytes auth = .ok u) : ∃ bill, settle outcome cal state bytes auth = .ok bill := by
  cases outcome with
  | FINALIZED => exact ⟨_, by simp only [settle, consumedBill, h, ok_bind]; rfl⟩
  | FAILED_EXEC => exact ⟨_, by simp only [settle, consumedBill, h, ok_bind]; rfl⟩
  | _ => exact ⟨_, rfl⟩

/-- A CAL that the schema accepts is priced: its static units are bounded by its size, and neither its
units nor a bill throw, whatever was written and signed. What the validator evaluates of it parses, and
no evaluation has the outcome PARSE_ERROR. -/
theorem admitted_priced {input cal : Json} (h : validateCal input = .ok cal) :
    (∃ u, staticGasUnits cal = .ok u ∧
      u ≤ 1000 + 200 * (listOf (getIn cal [js "steps"])).length +
        1000 * postConditionCount (listOf (getIn cal [js "steps"])) +
        1005 * (listOf (getIn cal [js "invariants"])).length) ∧
    (∀ bytes auth, ∃ u, gasUnits cal bytes auth = .ok u) ∧
    (∀ outcome state bytes auth, ∃ bill, settle outcome cal state bytes auth = .ok bill) ∧
    ∀ ch snapshot trace node scope, Embeds ⟨cal, ch, snapshot, trace⟩ node scope →
      Parses node scope ∧ ∀ H b o, evalExpr H (some node) scope b = .ok o →
        o.code ≠ .PARSE_ERROR := by
  have hcal := validateCal_wellEmbedded h
  obtain ⟨u, hu, hle⟩ := hcal.staticGasUnits_le
  have hgas : ∀ bytes auth, ∃ u, gasUnits cal bytes auth = .ok u := fun bytes auth =>
    ⟨_, by simp only [gasUnits, hu, ok_bind]; rfl⟩
  refine ⟨⟨u, hu, hle⟩, hgas, fun outcome state bytes auth => ?_,
    fun ch snapshot trace node scope hnode => ?_⟩
  · obtain ⟨u, hu⟩ := hgas bytes auth
    exact settle_returns hu
  · have hparses : Parses node scope := hcal.embeds_parses (v := ⟨cal, ch, snapshot, trace⟩) hnode
    exact ⟨hparses, fun H b o => hparses.evalExpr_code⟩

/-- A CAL with a text for its precondition, an enveloped post-condition and a bare invariant. -/
def formsCal : List (Str × Json) :=
  let enveloped : Json :=
    .obj [(js "dsl_version", .str (js "1.1")), (js "expr", constNode (.bool true))]
  let step : Json := .obj [(js "verb", .str (js "oracles.submit_feed")), (js "params", .obj []),
    (js "post_conditions", .arr [enveloped])]
  let after := binaryNode "eq" (varNode "state.after.x") (constNode (.bool true))
  [(js "preconditions", .str (js "\x7b\"const\":true\x7d")), (js "invariants", .arr [after]),
    (js "steps", .arr [step])].foldl (fun m e => assignMember e.1 e.2 m)
    (Escape.calOf (js "oracles.submit_feed") (js "oracles.submit_feed")).members

theorem admitted_priced_forms : ∃ u, staticGasUnits (.obj formsCal) = .ok u ∧ u ≤ 3205 := by
  have h : (validateCal (.obj formsCal)).isOk = true := by decide +kernel
  obtain ⟨u, hu, hle⟩ := (admitted_priced (validateCal_of_isOk h)).1
  exact ⟨u, hu, hle.trans (by decide)⟩

end ParadigmTerra
