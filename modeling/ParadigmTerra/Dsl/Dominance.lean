import ParadigmTerra.Dsl.Classification
import ParadigmTerra.Dsl.Outcomes

/-!
# Dominance among the arguments of a boolean operator

An argument of `and` or `or` fails in two ways: its evaluation raises a fault, or its value is no boolean.
`dominance` is the outcome that the arguments should have together, whatever their order: a runtime failure
of any kind wins, then a failure of validation.

The evaluator looks at the two ways one after the other. `dominance_iff` says for which arguments its outcome
is the one of `dominance` in every order: an argument that is `null` must not meet a failure of validation,
unless another argument raises a runtime fault.
-/

namespace ParadigmTerra

open Text Fallible

variable {H : Host} {b : Bindings} {scope : Scope}

/-! ## The outcome of the arguments -/

/-- An argument that is a runtime failure: a fault of that phase, or `null`. -/
def isErrorArg : Except Throw Value → Bool
  | .ok .null => true
  | .error (.dsl .ERROR _) => true
  | _ => false

/-- An argument that is a failure of validation: a fault of that phase, or a value that is neither a boolean
nor `null`. -/
def isInvalidArg : Except Throw Value → Bool
  | .error (.dsl .VALIDATION_ERROR _) => true
  | .error _ => false
  | .ok (.bool _) => false
  | .ok .null => false
  | .ok _ => true

def isTrueArg : Except Throw Value → Bool
  | .ok (.bool x) => x
  | _ => false

/-- What arguments come to together. -/
def dominance (op : BoolOp) (xs : List (Except Throw Value)) : OutcomeCode :=
  if xs.any isErrorArg then .ERROR
  else if xs.any isInvalidArg then .VALIDATION_ERROR
  else if (match op with | .and => xs.all isTrueArg | .or => xs.any isTrueArg) then .EVALUATION_TRUE
  else .EVALUATION_FALSE

/-- The code of an evaluation that returns. -/
def codeOf : Except Throw Outcome → Option OutcomeCode
  | .ok o => some o.code
  | .error _ => none

/-- The arguments, evaluated one by one. -/
def argValues (H : Host) (b : Bindings) (scope : Scope) (args : List Expr) : List (Except Throw Value) :=
  args.map (evalNode H b scope)

/-- Arguments whose failures do not depend on the order: each is a value or a fault of the language, and no
`null` meets a failure of validation, unless a runtime fault is raised. -/
def Unmixed (xs : List (Except Throw Value)) : Prop :=
  (∀ x ∈ xs, ThrowsOnly Throw.IsDsl x) ∧
    ((∃ reason, .error (.dsl .ERROR reason) ∈ xs) ∨ .ok .null ∉ xs ∨ ∀ x ∈ xs, isInvalidArg x = false)

theorem dominance_perm {op : BoolOp} {xs ys : List (Except Throw Value)} (h : xs.Perm ys) :
    dominance op xs = dominance op ys := by
  unfold dominance
  rw [h.any_eq, h.any_eq, h.any_eq, h.all_eq]

theorem Unmixed.perm {xs ys : List (Except Throw Value)} (hxs : Unmixed xs) (h : xs.Perm ys) :
    Unmixed ys := by
  obtain ⟨hdsl, hmixed⟩ := hxs
  refine ⟨fun x hx => hdsl x (h.mem_iff.mpr hx), ?_⟩
  simpa only [h.mem_iff] using hmixed

theorem argValues_perm {args args' : List Expr} (h : args.Perm args') :
    (argValues H b scope args).Perm (argValues H b scope args') :=
  h.map _

/-! ## The faults that are kept -/

/-- A value or a fault, as the evaluator keeps it. -/
def keptOf : Except Throw Value → Option ArgResult
  | .ok v => some (.ok v)
  | .error (.dsl p reason) => some (.error (p, reason))
  | .error _ => none

theorem keptOf_isSome {x : Except Throw Value} (h : ThrowsOnly Throw.IsDsl x) : ∃ r, keptOf x = some r := by
  cases x with
  | ok v => exact ⟨_, rfl⟩
  | error t =>
    have ht := h t rfl
    cases t with
    | dsl p reason => exact ⟨_, rfl⟩
    | _ => exact ht.elim

/-- Every argument is kept, or what an argument throws is thrown. -/
theorem evalArgs_cases (args : List Expr) :
    (∀ x ∈ argValues H b scope args, ThrowsOnly Throw.IsDsl x) ∧
        (∃ rs, evalArgs H b scope args = .ok rs ∧
          (argValues H b scope args).map keptOf = rs.map some) ∨
      ∃ t, evalArgs H b scope args = .error t ∧ .error t ∈ argValues H b scope args ∧ ¬t.IsDsl := by
  induction args with
  | nil => exact .inl ⟨nofun, [], rfl, rfl⟩
  | cons a as ih =>
    rw [evalArgs]
    cases ha : evalNode H b scope a with
    | ok v =>
      rcases ih with ⟨hdsl, rs, hrs, hkept⟩ | ⟨t, ht, hmem, hforeign⟩
      · refine .inl ⟨?_, .ok v :: rs, by simp only [hrs, ok_bind]; rfl, ?_⟩
        · simp only [argValues, List.map_cons, ha, List.forall_mem_cons]
          exact ⟨throwsOnly_ok, hdsl⟩
        · simp only [argValues, List.map_cons, ha] at hkept ⊢
          rw [hkept]
          rfl
      · exact .inr ⟨t, by simp only [ht, error_bind], .tail _ hmem, hforeign⟩
    | error e =>
      by_cases he : e.IsDsl
      · obtain ⟨p, reason, rfl⟩ : ∃ p reason, e = .dsl p reason := by
          cases e with
          | dsl p reason => exact ⟨p, reason, rfl⟩
          | _ => exact he.elim
        rcases ih with ⟨hdsl, rs, hrs, hkept⟩ | ⟨t, ht, hmem, hforeign⟩
        · refine .inl ⟨?_, .error (p, reason) :: rs, by simp only [hrs, ok_bind]; rfl, ?_⟩
          · simp only [argValues, List.map_cons, ha, List.forall_mem_cons]
            exact ⟨by simpa using he, hdsl⟩
          · simp only [argValues, List.map_cons, ha] at hkept ⊢
            rw [hkept]
            rfl
        · exact .inr ⟨t, by simp only [ht, error_bind], .tail _ hmem, hforeign⟩
      · refine .inr ⟨e, ?_, by simp [argValues, ha], he⟩
        cases e with
        | dsl p reason => exact (he trivial).elim
        | _ => rfl

theorem mem_of_firstFault {p : Phase} {rs : List ArgResult} {e : Phase × String}
    (h : firstFault p rs = some e) : .error e ∈ rs := by
  induction rs with
  | nil => cases h
  | cons r rs ih =>
    cases r with
    | ok v => exact .tail _ (ih h)
    | error f =>
      rw [firstFault] at h
      split_ifs at h with hf
      · cases h
        exact .head _
      · exact .tail _ (ih h)

theorem firstFault_eq_none {p : Phase} {rs : List ArgResult} (h : firstFault p rs = none)
    {e : Phase × String} (he : .error e ∈ rs) : e.1 ≠ p := by
  induction rs with
  | nil => cases he
  | cons r rs ih =>
    cases r with
    | ok v => exact ih h (by simpa using he)
    | error f =>
      rw [firstFault] at h
      split_ifs at h with hf
      rcases List.mem_cons.mp he with heq | hmem
      · cases heq
        exact hf
      · exact ih h hmem

/-! ## The check of the values -/

/-- A value that is no boolean fails by its kind. -/
theorem requireBool_cases (v : Value) :
    (∃ x, v = .bool x) ∨ v = .null ∧ requireBool v = runtimeError "NULL_MISUSE" ∨
      isInvalidArg (.ok v) = true ∧ requireBool v = validationError "TYPE_MISMATCH" := by
  cases v with
  | bool x => exact .inl ⟨x, rfl⟩
  | null => exact .inr (.inl ⟨rfl, rfl⟩)
  | _ => exact .inr (.inr ⟨rfl, rfl⟩)

/-- One step of the combination. -/
def combined : BoolOp → Bool → Bool → Bool
  | .and, acc, x => acc && x
  | .or, acc, x => acc || x

/-- Booleans are combined; otherwise one of the other values fails. -/
theorem combineResults_cases (op : BoolOp) (acc : Bool) (vs : List Value) :
    (∀ v ∈ vs, ∃ x, v = .bool x) ∧ combineResults op acc (vs.map .ok) =
        .ok (match op with
          | .and => acc && vs.all fun v => isTrueArg (.ok v)
          | .or => acc || vs.any fun v => isTrueArg (.ok v)) ∨
      ∃ v ∈ vs, ∃ t, requireBool v = .error t ∧ combineResults op acc (vs.map .ok) = .error t := by
  induction vs generalizing acc with
  | nil => exact .inl ⟨nofun, by cases op <;> simp [combineResults, pure, Except.pure]⟩
  | cons v vs ih =>
    rcases requireBool_cases v with ⟨x, rfl⟩ | ⟨rfl, hv⟩ | ⟨-, hv⟩
    · have hx : requireBool (.bool x) = .ok x := rfl
      simp only [List.map_cons, combineResults, hx, ok_bind]
      rcases ih (combined op acc x) with ⟨hall, h⟩ | ⟨w, hw, t, hwt, h⟩
      · refine .inl ⟨List.forall_mem_cons.mpr ⟨⟨x, rfl⟩, hall⟩, ?_⟩
        cases op <;> exact h.trans (by simp [combined, isTrueArg, Bool.and_assoc, Bool.or_assoc])
      · refine .inr ⟨w, .tail _ hw, t, hwt, ?_⟩
        cases op <;> exact h
    · exact .inr ⟨.null, .head _, _, hv, rfl⟩
    · refine .inr ⟨v, .head _, _, hv, ?_⟩
      simp only [List.map_cons, combineResults, hv]
      rfl

/-! ## Every order -/

/-- The outcome of an operator does not depend on the order of its arguments, and is the dominant one. -/
def ObeysDominance (H : Host) (b : Bindings) (scope : Scope) (op : BoolOp) (args : List Expr) : Prop :=
  (∀ args', args.Perm args' →
      codeOf (evaluate H (.bool op args') b scope) = codeOf (evaluate H (.bool op args) b scope)) ∧
    codeOf (evaluate H (.bool op args) b scope) = some (dominance op (argValues H b scope args))

theorem evaluate_bool {op : BoolOp} {args : List Expr} {rs : List ArgResult}
    (h : evalArgs H b scope args = .ok rs) :
    codeOf (evaluate H (.bool op args) b scope) = match evalBoolean op rs with
      | .ok (.bool x) => some (if x then .EVALUATION_TRUE else .EVALUATION_FALSE)
      | .ok _ => some .VALIDATION_ERROR
      | .error (.dsl p _) => some p.outcome
      | .error _ => none := by
  simp only [evaluate, evalNode, h, ok_bind]
  cases evalBoolean op rs with
  | ok v => cases v <;> rfl
  | error t => cases t <;> rfl

/-- What an argument throws past the language, the operator throws. -/
theorem evaluate_bool_foreign {op : BoolOp} {args : List Expr} {t : Throw}
    (h : evalArgs H b scope args = .error t) (ht : ¬t.IsDsl) :
    codeOf (evaluate H (.bool op args) b scope) = none := by
  simp only [evaluate, evalNode, h, error_bind]
  cases t with
  | dsl p reason => exact (ht trivial).elim
  | _ => rfl

/-- A kept fault is the fault of an argument, and the other way round. -/
theorem error_mem_iff {xs : List (Except Throw Value)} {rs : List ArgResult}
    (h : xs.map keptOf = rs.map some) {p : Phase} {reason : String} :
    .error (p, reason) ∈ rs ↔ .error (.dsl p reason) ∈ xs := by
  have hkept : ∀ x, keptOf x = some (.error (p, reason)) ↔ x = .error (.dsl p reason) := by
    intro x
    rcases x with ⟨_ | _⟩ | v <;> simp [keptOf]
  have hmem : some (Except.error (p, reason)) ∈ rs.map some ↔ .error (p, reason) ∈ rs := by simp
  rw [← hmem, ← h, List.mem_map]
  simp only [hkept, exists_eq_right]

/-- Without a fault the arguments are values. -/
theorem values_of_no_fault {xs : List (Except Throw Value)} {rs : List ArgResult}
    (h : xs.map keptOf = rs.map some) (hnone : ∀ e, .error e ∉ rs) :
    ∃ vs : List Value, rs = vs.map .ok ∧ xs = vs.map .ok := by
  induction xs generalizing rs with
  | nil => exact ⟨[], by simpa using h, rfl⟩
  | cons x xs ih =>
    cases rs with
    | nil => cases h
    | cons r rs =>
      simp only [List.map_cons, List.cons.injEq] at h
      obtain ⟨vs, hrs, hxs⟩ := ih h.2 fun e he => hnone e (.tail _ he)
      cases x with
      | ok v => exact ⟨v :: vs, by rw [← Option.some.inj h.1, hrs]; rfl, by rw [hxs]; rfl⟩
      | error t =>
        cases t with
        | dsl p reason => exact (hnone (p, reason) (by rw [← Option.some.inj h.1]; exact .head _)).elim
        | _ => cases h.1

/-! ### The outcome, by the kinds of the arguments -/

section Codes

variable {op : BoolOp} {args : List Expr} {rs : List ArgResult}

theorem codeOf_of_error (h : evalArgs H b scope args = .ok rs) {reason : String}
    (he : .error (.ERROR, reason) ∈ rs) :
    codeOf (evaluate H (.bool op args) b scope) = some .ERROR := by
  rw [evaluate_bool h, evalBoolean]
  cases hfirst : firstFault .ERROR rs with
  | none => exact (firstFault_eq_none hfirst he rfl).elim
  | some e =>
    have hphase := firstFault_eq_some hfirst
    simp only [throw, throwThe, MonadExceptOf.throw, hphase]
    rfl

theorem firstFault_none_of {p : Phase} (h : ∀ reason, .error (p, reason) ∉ rs) :
    firstFault p rs = none := by
  cases hfirst : firstFault p rs with
  | none => rfl
  | some e =>
    obtain ⟨q, reason⟩ := e
    have hphase : q = p := firstFault_eq_some hfirst
    exact (h reason (hphase ▸ mem_of_firstFault hfirst)).elim

theorem codeOf_of_invalid (h : evalArgs H b scope args = .ok rs)
    (hnone : ∀ reason, .error (.ERROR, reason) ∉ rs) {reason : String}
    (he : .error (.VALIDATION_ERROR, reason) ∈ rs) :
    codeOf (evaluate H (.bool op args) b scope) = some .VALIDATION_ERROR := by
  rw [evaluate_bool h, evalBoolean, firstFault_none_of hnone]
  cases hfirst : firstFault .VALIDATION_ERROR rs with
  | none => exact (firstFault_eq_none hfirst he rfl).elim
  | some e =>
    have hphase := firstFault_eq_some hfirst
    simp only [throw, throwThe, MonadExceptOf.throw, hphase]
    rfl

/-- Arguments that are all values. -/
theorem codeOf_of_values {vs : List Value} (h : evalArgs H b scope args = .ok (vs.map .ok)) :
    codeOf (evaluate H (.bool op args) b scope) =
      match combineResults op (op = .and) (vs.map .ok) with
      | .ok x => some (if x then .EVALUATION_TRUE else .EVALUATION_FALSE)
      | .error (.dsl p _) => some p.outcome
      | .error _ => none := by
  have hnone : ∀ p : Phase, firstFault p (vs.map .ok) = none :=
    fun p => firstFault_none_of (by simp)
  rw [evaluate_bool h, evalBoolean, hnone, hnone]
  cases combineResults op (op = .and) (vs.map .ok) with
  | ok x => rfl
  | error t => cases t <;> rfl

end Codes

theorem isErrorArg_iff {x : Except Throw Value} :
    isErrorArg x = true ↔ x = .ok .null ∨ ∃ reason, x = .error (.dsl .ERROR reason) := by
  unfold isErrorArg
  split <;> simp_all

/-- A failure of validation is a fault of that phase, or a value that `requireBool` rejects as mistyped. -/
theorem isInvalidArg_cases {x : Except Throw Value} (h : isInvalidArg x = true) :
    (∃ reason, x = .error (.dsl .VALIDATION_ERROR reason)) ∨
      ∃ v, x = .ok v ∧ requireBool v = validationError "TYPE_MISMATCH" := by
  cases x with
  | error t =>
    unfold isInvalidArg at h
    split at h
    · next reason heq => exact .inl ⟨reason, heq⟩
    all_goals simp_all
  | ok v =>
    rcases requireBool_cases v with ⟨y, rfl⟩ | ⟨rfl, -⟩ | ⟨-, hv⟩
    · cases h
    · cases h
    · exact .inr ⟨v, rfl, hv⟩

theorem dominance_error {op : BoolOp} {xs : List (Except Throw Value)} {x : Except Throw Value}
    (hx : x ∈ xs) (h : isErrorArg x = true) : dominance op xs = .ERROR :=
  if_pos (List.any_eq_true.mpr ⟨x, hx, h⟩)

theorem dominance_invalid {op : BoolOp} {xs : List (Except Throw Value)} {x : Except Throw Value}
    (hnull : .ok .null ∉ xs) (hnone : ∀ reason, .error (.dsl .ERROR reason) ∉ xs) (hx : x ∈ xs)
    (h : isInvalidArg x = true) : dominance op xs = .VALIDATION_ERROR := by
  have herror : ¬xs.any isErrorArg = true := by
    rw [List.any_eq_true]
    rintro ⟨y, hy, herr⟩
    rcases isErrorArg_iff.mp herr with rfl | ⟨reason, rfl⟩
    · exact hnull hy
    · exact hnone reason hy
  unfold dominance
  rw [if_neg herror, if_pos (List.any_eq_true.mpr ⟨x, hx, h⟩)]

/-- Booleans alone have their conjunction or disjunction. -/
theorem dominance_bools {op : BoolOp} {vs : List Value} (h : ∀ v ∈ vs, ∃ x, v = .bool x) :
    dominance op (vs.map .ok) =
      if (match op with
        | .and => vs.all fun v => isTrueArg (.ok v)
        | .or => vs.any fun v => isTrueArg (.ok v)) then .EVALUATION_TRUE else .EVALUATION_FALSE := by
  have herror : ¬(vs.map Except.ok).any isErrorArg = true := by
    simp only [List.any_map, List.any_eq_true, Function.comp_apply, not_exists, not_and]
    intro v hv
    obtain ⟨x, rfl⟩ := h v hv
    nofun
  have hinvalid : ¬(vs.map Except.ok).any isInvalidArg = true := by
    simp only [List.any_map, List.any_eq_true, Function.comp_apply, not_exists, not_and]
    intro v hv
    obtain ⟨x, rfl⟩ := h v hv
    nofun
  unfold dominance
  rw [if_neg herror, if_neg hinvalid, List.any_map, List.all_map]
  cases op <;> rfl

/-- The evaluation of an argument raises no parse fault. -/
theorem no_parse_fault {args : List Expr} {reason : String} :
    .error (.dsl .PARSE_ERROR reason) ∉ argValues H b scope args := by
  intro h
  obtain ⟨a, -, ha⟩ := List.mem_map.mp h
  rcases (judged_evalNode a).of_error ha with ⟨-, hfault⟩ | ⟨-, hforeign⟩
  · exact hfault rfl
  · exact hforeign trivial

/-- The three ways an operator ends whose arguments raise faults of the language only. -/
theorem evaluate_bool_cases {op : BoolOp} {args : List Expr}
    (hdsl : ∀ x ∈ argValues H b scope args, ThrowsOnly Throw.IsDsl x) :
    (∃ reason, .error (.dsl .ERROR reason) ∈ argValues H b scope args) ∧
        codeOf (evaluate H (.bool op args) b scope) = some .ERROR ∨
      (∀ reason, .error (.dsl .ERROR reason) ∉ argValues H b scope args) ∧
        ((∃ reason, .error (.dsl .VALIDATION_ERROR reason) ∈ argValues H b scope args) ∧
            codeOf (evaluate H (.bool op args) b scope) = some .VALIDATION_ERROR ∨
          ∃ vs : List Value, argValues H b scope args = vs.map .ok ∧
            evalArgs H b scope args = .ok (vs.map .ok)) := by
  obtain ⟨-, rs, hrs, hkept⟩ | ⟨t, -, hmem, hforeign⟩ := @evalArgs_cases H b scope args
  · by_cases herror : ∃ reason, .error (.dsl .ERROR reason) ∈ argValues H b scope args
    · obtain ⟨reason, he⟩ := herror
      exact .inl ⟨⟨reason, he⟩, codeOf_of_error hrs ((error_mem_iff hkept).mpr he)⟩
    · rw [not_exists] at herror
      refine .inr ⟨herror, ?_⟩
      by_cases hvalid : ∃ reason, .error (.dsl .VALIDATION_ERROR reason) ∈ argValues H b scope args
      · obtain ⟨reason, he⟩ := hvalid
        exact .inl ⟨⟨reason, he⟩, codeOf_of_invalid hrs
          (fun r hr => herror r ((error_mem_iff hkept).mp hr)) ((error_mem_iff hkept).mpr he)⟩
      · rw [not_exists] at hvalid
        obtain ⟨vs, hvs, hxs⟩ := values_of_no_fault hkept fun e he => by
          obtain ⟨p, reason⟩ := e
          have hmem := (error_mem_iff hkept).mp he
          cases p with
          | PARSE_ERROR => exact no_parse_fault hmem
          | VALIDATION_ERROR => exact hvalid reason hmem
          | ERROR => exact herror reason hmem
        exact .inr ⟨vs, hxs, hvs ▸ hrs⟩
  · exact (hforeign (hdsl _ hmem t rfl)).elim

theorem codeOf_of_unmixed {op : BoolOp} {args : List Expr} (h : Unmixed (argValues H b scope args)) :
    codeOf (evaluate H (.bool op args) b scope) = some (dominance op (argValues H b scope args)) := by
  obtain ⟨hdsl, hmixed⟩ := h
  -- a failure of validation excludes `null`, when no runtime fault is raised
  have hnull : (∀ reason, .error (.dsl .ERROR reason) ∉ argValues H b scope args) →
      ∀ x ∈ argValues H b scope args, isInvalidArg x = true → .ok .null ∉ argValues H b scope args := by
    intro hnone x hx hinvalid
    rcases hmixed with ⟨reason, he⟩ | hnull | hvalid
    · exact (hnone reason he).elim
    · exact hnull
    · rw [hvalid x hx] at hinvalid
      cases hinvalid
  rcases @evaluate_bool_cases H b scope op args hdsl with ⟨⟨reason, he⟩, hcode⟩ |
    ⟨hnone, ⟨⟨reason, he⟩, hcode⟩ | ⟨vs, hxs, hargs⟩⟩
  · rw [hcode, dominance_error he rfl]
  · rw [hcode, dominance_invalid (hnull hnone _ he rfl) hnone he rfl]
  · rw [codeOf_of_values hargs]
    rcases combineResults_cases op (op = .and) vs with ⟨hbools, hres⟩ | ⟨v, hv, t, hvt, hres⟩
    · rw [hres, hxs, dominance_bools hbools]
      cases op <;> simp
    · have hmem : .ok v ∈ argValues H b scope args := hxs ▸ List.mem_map_of_mem hv
      rw [hres]
      rcases requireBool_cases v with ⟨x, rfl⟩ | ⟨rfl, hfail⟩ | ⟨hinvalid, hfail⟩
      · cases hvt
      · rw [hfail] at hvt
        cases hvt
        rw [dominance_error hmem rfl]
        rfl
      · rw [hfail] at hvt
        cases hvt
        rw [dominance_invalid (hnull hnone _ hmem hinvalid) hnone hmem hinvalid]
        rfl

/-- The outcome of a boolean operator is the dominant one in every order of its arguments exactly if each
argument has a value or a fault of the language, and no `null` meets a failure of validation without a
runtime fault. -/
theorem dominance_iff (H : Host) (b : Bindings) (scope : Scope) (op : BoolOp) (args : List Expr) :
    ObeysDominance H b scope op args ↔ Unmixed (argValues H b scope args) := by
  constructor
  · rintro ⟨hperm, hdom⟩
    have hdsl : ∀ x ∈ argValues H b scope args, ThrowsOnly Throw.IsDsl x := by
      obtain ⟨hdsl, -⟩ | ⟨t, hargs, -, hforeign⟩ := @evalArgs_cases H b scope args
      · exact hdsl
      · rw [evaluate_bool_foreign hargs hforeign] at hdom
        cases hdom
    refine ⟨hdsl, ?_⟩
    by_contra hmixed
    simp only [not_or, not_exists, not_not, not_forall, Bool.not_eq_false] at hmixed
    obtain ⟨hnone, hnull, x, hx, hinvalid⟩ := hmixed
    rw [dominance_error hnull rfl] at hdom
    -- the order in which the mistyped value stands first
    have hfirst : ∃ args', args.Perm args' ∧
        codeOf (evaluate H (.bool op args') b scope) = some .VALIDATION_ERROR := by
      rcases @evaluate_bool_cases H b scope op args hdsl with ⟨⟨reason, he⟩, -⟩ |
        ⟨-, ⟨-, hcode⟩ | ⟨vs, hxs, -⟩⟩
      · exact (hnone reason he).elim
      · exact ⟨args, .refl _, hcode⟩
      · obtain ⟨a, ha, rfl⟩ := List.mem_map.mp hx
        obtain ⟨l, m, rfl⟩ := List.append_of_mem ha
        have hcons : (l ++ a :: m).Perm (a :: (l ++ m)) := List.perm_middle
        refine ⟨_, hcons, ?_⟩
        have hvalues : ∀ y ∈ argValues H b scope (a :: (l ++ m)), ∃ v, y = .ok v := by
          intro y hy
          rw [← (argValues_perm hcons).mem_iff, hxs] at hy
          obtain ⟨v, -, rfl⟩ := List.mem_map.mp hy
          exact ⟨v, rfl⟩
        rcases @evaluate_bool_cases H b scope op (a :: (l ++ m))
          (fun y hy => by
            obtain ⟨v, rfl⟩ := hvalues y hy
            exact throwsOnly_ok) with ⟨⟨reason, he⟩, -⟩ | ⟨-, ⟨⟨reason, he⟩, -⟩ | ⟨ws, hws, hargs⟩⟩
        · obtain ⟨v, hv⟩ := hvalues _ he
          cases hv
        · obtain ⟨v, hv⟩ := hvalues _ he
          cases hv
        · rw [codeOf_of_values hargs]
          cases ws with
          | nil => cases hws
          | cons w ws =>
            have hw : evalNode H b scope a = .ok w := (List.cons.inj hws).1
            rw [hw] at hinvalid
            rcases isInvalidArg_cases hinvalid with ⟨reason, h⟩ | ⟨v, hv, hfail⟩
            · cases h
            · cases hv
              simp only [List.map_cons, combineResults, hfail]
              rfl
    obtain ⟨args', hargs', hcode⟩ := hfirst
    rw [← hperm args' hargs', hcode] at hdom
    cases hdom
  · intro h
    refine ⟨fun args' hargs' => ?_, codeOf_of_unmixed h⟩
    rw [codeOf_of_unmixed h, codeOf_of_unmixed (h.perm (argValues_perm hargs')),
      dominance_perm (argValues_perm hargs')]

/-- A conjunction of a number and `null` is a failure of validation, and in the other order a runtime
failure. -/
theorem mixed_and_differs : ¬ObeysDominance Host.small {} .gate .and [.const (.int256 1), .const .null] := by
  rintro ⟨hperm, -⟩
  have hswap := hperm [.const .null, .const (.int256 1)] (.swap _ _ _)
  revert hswap
  decide

end ParadigmTerra
