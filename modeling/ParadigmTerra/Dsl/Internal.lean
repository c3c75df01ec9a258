import ParadigmTerra.Dsl.Dominance

/-!
# The internal error

The evaluator ends in an error for a node that it does not know. `known_evalNode` says that no evaluation
throws it, by the same recursion over the expression as the evaluator: neither a value that is made, nor a
comparison, nor a fault that a boolean operator keeps and throws later.
-/

namespace ParadigmTerra

open Text Fallible

/-- What is thrown is not the fault of a node that the evaluator does not know. -/
def Throw.IsKnown (t : Throw) : Prop := t ≠ .dsl .ERROR "INTERNAL"

section Known

variable {H : Host} {b : Bindings} {scope : Scope}

@[simp] theorem isKnown_dsl {p : Phase} {reason : String} :
    (Throw.dsl p reason).IsKnown ↔ ¬(p = .ERROR ∧ reason = "INTERNAL") := by
  simp [Throw.IsKnown]

@[simp] theorem isKnown_typeError : Throw.typeError.IsKnown := by simp [Throw.IsKnown]

@[simp] theorem isKnown_noncanonical {code : String} : (Throw.noncanonical code).IsKnown := by
  simp [Throw.IsKnown]

theorem known_makeString (s : Str) : ThrowsOnly Throw.IsKnown (makeString H s) := by
  unfold makeString
  split <;> simp [runtimeError]

theorem known_makeInt256 (n : ℤ) : ThrowsOnly Throw.IsKnown (makeInt256 n) := by
  unfold makeInt256
  split <;> simp [validationError]

theorem known_makeBytes32 (s : Str) : ThrowsOnly Throw.IsKnown (makeBytes32 s) := by
  unfold makeBytes32
  split <;> simp [validationError]

theorem known_makeAddress (s : Str) : ThrowsOnly Throw.IsKnown (makeAddress s) := by
  unfold makeAddress
  split <;> simp [validationError]

theorem known_constValue (c : ConstValue) : ThrowsOnly Throw.IsKnown (constValue H c) := by
  cases c with
  | int256 n => exact known_makeInt256 n
  | string s => exact known_makeString s
  | bytes32 s => exact known_makeBytes32 s
  | address s => exact known_makeAddress s
  | bool x => exact throwsOnly_pure
  | null => exact throwsOnly_pure

mutual

theorem known_materialize (v : Json) : ThrowsOnly Throw.IsKnown (materialize H v) := by
  cases v with
  | int n => exact known_makeInt256 n
  | str s =>
    unfold materialize
    split_ifs
    · exact known_makeAddress s
    · exact known_makeBytes32 s
    · exact known_makeString s
  | arr xs =>
    rw [materialize, throwsOnly_bind]
    exact ⟨known_materializeElements xs, fun _ _ => throwsOnly_pure⟩
  | obj m =>
    rw [materialize, throwsOnly_bind]
    exact ⟨known_materializeMembers m, fun _ _ => throwsOnly_pure⟩
  | builtin k =>
    unfold materialize
    split <;> simp [runtimeError]
  | _ => simp [materialize]

theorem known_materializeElements (xs : List Json) :
    ThrowsOnly Throw.IsKnown (materializeElements H xs) := by
  cases xs with
  | nil => simp [materializeElements]
  | cons x xs =>
    simp only [materializeElements, throwsOnly_bind]
    exact ⟨known_materialize x, fun _ _ =>
      ⟨known_materializeElements xs, fun _ _ => throwsOnly_pure⟩⟩

theorem known_materializeMembers (m : List (Str × Json)) :
    ThrowsOnly Throw.IsKnown (materializeMembers H m) := by
  cases m with
  | nil => simp [materializeMembers]
  | cons e m =>
    obtain ⟨k, x⟩ := e
    simp only [materializeMembers, throwsOnly_bind]
    exact ⟨known_materialize x, fun _ _ =>
      ⟨known_materializeMembers m, fun _ _ => throwsOnly_pure⟩⟩

end

theorem known_resolvePath (path : List Str) : ThrowsOnly Throw.IsKnown (resolvePath H path b scope) := by
  unfold resolvePath
  rw [throwsOnly_bind]
  constructor
  · unfold bindingOf
    repeat' split
    all_goals simp [runtimeError]
  · rintro ⟨base, rest⟩ -
    cases base with
    | none => simp [runtimeError]
    | some base =>
      cases hread : getIn base rest with
      | none => simp [hread, runtimeError]
      | some v => simpa [hread] using known_materialize v

theorem known_utf8NfcBytes (s : Str) : ThrowsOnly Throw.IsKnown (utf8NfcBytes H s) := by
  simp [utf8NfcBytes, assertAssigned]

mutual

theorem known_valuesEqual (v w : Value) : ThrowsOnly Throw.IsKnown (valuesEqual H v w) := by
  cases v <;> cases w <;> simp only [valuesEqual] <;> try simp [validationError]
  case string.string s t => exact ⟨known_utf8NfcBytes s, fun _ _ => known_utf8NfcBytes t⟩
  case list.list xs ys =>
    split
    · exact known_itemsEqual xs ys
    · exact throwsOnly_pure
  case map.map m n =>
    split
    · exact known_entriesEqual m n
    · exact throwsOnly_pure

theorem known_itemsEqual (xs ys : List Value) : ThrowsOnly Throw.IsKnown (itemsEqual H xs ys) := by
  cases xs with
  | nil => exact throwsOnly_pure
  | cons x xs =>
    cases ys with
    | nil => exact throwsOnly_pure
    | cons y ys =>
      rw [itemsEqual, throwsOnly_bind]
      refine ⟨known_valuesEqual x y, fun e _ => ?_⟩
      split
      · exact known_itemsEqual xs ys
      · exact throwsOnly_pure

theorem known_entriesEqual (m n : List (Str × Value)) : ThrowsOnly Throw.IsKnown (entriesEqual H m n) := by
  cases m with
  | nil => exact throwsOnly_pure
  | cons e m =>
    obtain ⟨k, v⟩ := e
    cases hget : OrderedMap.get k n with
    | none => simp [entriesEqual, hget]
    | some w =>
      simp only [entriesEqual, hget, throwsOnly_bind]
      refine ⟨known_valuesEqual v w, fun e _ => ?_⟩
      split
      · exact known_entriesEqual m n
      · exact throwsOnly_pure

end

theorem known_requireInt (v : Value) : ThrowsOnly Throw.IsKnown (requireInt v) := by
  cases v <;> simp [requireInt, runtimeError, validationError]

theorem known_requireBool (v : Value) : ThrowsOnly Throw.IsKnown (requireBool v) := by
  cases v <;> simp [requireBool, runtimeError, validationError]

theorem known_requireString (v : Value) : ThrowsOnly Throw.IsKnown (requireString v) := by
  cases v <;> simp [requireString, runtimeError, validationError]

theorem known_evalArith (op : ArithOp) (l r : ℤ) : ThrowsOnly Throw.IsKnown (evalArith op l r) := by
  cases op <;> simp only [evalArith, checkRange] <;> repeat' split
  all_goals simp [runtimeError]

theorem known_combineResults {op : BoolOp} {acc : Bool} {rs : List ArgResult} :
    ThrowsOnly Throw.IsKnown (combineResults op acc rs) := by
  induction rs generalizing acc with
  | nil => exact throwsOnly_pure
  | cons r rs ih =>
    cases r with
    | ok v =>
      rw [combineResults, throwsOnly_bind]
      exact ⟨known_requireBool v, fun _ _ => ih⟩
    | error e => simp [combineResults]

theorem known_evalBoolean {op : BoolOp} {rs : List ArgResult}
    (hrs : ∀ e, .error e ∈ rs → (Throw.dsl e.1 e.2).IsKnown) :
    ThrowsOnly Throw.IsKnown (evalBoolean op rs) := by
  unfold evalBoolean
  cases herror : firstFault .ERROR rs with
  | some e => exact throwsOnly_throw.mpr (hrs e (mem_of_firstFault herror))
  | none =>
    cases hvalid : firstFault .VALIDATION_ERROR rs with
    | some e => exact throwsOnly_throw.mpr (hrs e (mem_of_firstFault hvalid))
    | none =>
      simp only [throwsOnly_bind, throwsOnly_pure, implies_true, and_true]
      exact known_combineResults

mutual

theorem known_evalNode (e : Expr) : ThrowsOnly Throw.IsKnown (evalNode H b scope e) := by
  cases e with
  | const c => exact known_constValue c
  | var raw path => exact known_resolvePath path
  | action a => exact throwsOnly_pure
  | eq op lhs rhs =>
    simp only [evalNode, throwsOnly_bind]
    exact ⟨known_evalNode lhs, fun l _ => ⟨known_evalNode rhs, fun r _ =>
      ⟨known_valuesEqual l r, fun _ _ => throwsOnly_pure⟩⟩⟩
  | cmp op lhs rhs =>
    simp only [evalNode, throwsOnly_bind]
    exact ⟨known_evalNode lhs, fun v _ => ⟨known_requireInt v, fun _ _ => ⟨known_evalNode rhs, fun w _ =>
      ⟨known_requireInt w, fun _ _ => throwsOnly_pure⟩⟩⟩⟩
  | arith op lhs rhs =>
    simp only [evalNode, throwsOnly_bind]
    exact ⟨known_evalNode lhs, fun v _ => ⟨known_requireInt v, fun l _ => ⟨known_evalNode rhs, fun w _ =>
      ⟨known_requireInt w, fun r _ => known_evalArith op l r⟩⟩⟩⟩
  | bool op args =>
    simp only [evalNode, throwsOnly_bind]
    exact ⟨known_evalArgs args, fun rs hrs => known_evalBoolean (known_of_evalArgs args hrs)⟩
  | not arg =>
    simp only [evalNode, throwsOnly_bind]
    exact ⟨known_evalNode arg, fun v _ => ⟨known_requireBool v, fun _ _ => throwsOnly_pure⟩⟩
  | contains_key map key =>
    simp only [evalNode, throwsOnly_bind]
    refine ⟨known_evalNode map, fun m _ => ?_⟩
    cases m with
    | map entries =>
      simp only [throwsOnly_bind]
      refine ⟨known_evalNode key, fun v _ => ⟨?_, fun _ _ => throwsOnly_pure⟩⟩
      cases v <;> simp [keyForm, validationError]
    | _ => simp [runtimeError, validationError]
  | size arg =>
    simp only [evalNode, throwsOnly_bind]
    refine ⟨known_evalNode arg, fun v _ => ?_⟩
    cases v <;> simp [evalSize, validationError]
  | requires_scope action scopeExpr =>
    simp only [evalNode, throwsOnly_bind]
    refine ⟨known_evalNode action, fun v _ => ⟨known_requireString v, fun a _ =>
      ⟨known_evalNode scopeExpr, fun w _ => ⟨known_requireString w, fun s _ => ⟨?_, fun _ _ =>
        throwsOnly_pure⟩⟩⟩⟩⟩
    unfold requiresScope
    split <;> simp
  | is_owner_required action =>
    simp only [evalNode, throwsOnly_bind]
    exact ⟨known_evalNode action, fun v _ => ⟨known_requireString v, fun _ _ => throwsOnly_pure⟩⟩

theorem known_evalArgs (args : List Expr) : ThrowsOnly Throw.IsKnown (evalArgs H b scope args) := by
  cases args with
  | nil => exact throwsOnly_pure
  | cons a as =>
    have ha : ThrowsOnly Throw.IsKnown (evalNode H b scope a) := known_evalNode a
    rw [evalArgs]
    cases h : evalNode H b scope a with
    | ok v =>
      rw [throwsOnly_bind]
      exact ⟨known_evalArgs as, fun _ _ => throwsOnly_pure⟩
    | error t =>
      have ht := ha t h
      cases t with
      | dsl p reason =>
        rw [throwsOnly_bind]
        exact ⟨known_evalArgs as, fun _ _ => throwsOnly_pure⟩
      | _ => exact throwsOnly_throw.mpr ht

/-- The faults among the results are ones that the evaluation of an argument raised. -/
theorem known_of_evalArgs (args : List Expr) {rs : List ArgResult} (h : evalArgs H b scope args = .ok rs) :
    ∀ e, .error e ∈ rs → (Throw.dsl e.1 e.2).IsKnown := by
  cases args with
  | nil =>
    rw [evalArgs, pure_eq_ok] at h
    subst h
    nofun
  | cons a as =>
    rw [evalArgs] at h
    cases hx : evalNode H b scope a with
    | ok v =>
      simp only [hx, bind_eq_ok, pure_eq_ok] at h
      obtain ⟨rs, hrs, rfl⟩ := h
      intro e he
      rcases List.mem_cons.mp he with heq | he
      · cases heq
      · exact known_of_evalArgs as hrs e he
    | error t =>
      have ht := known_evalNode a t hx
      rw [hx] at h
      cases t with
      | dsl p reason =>
        simp only [bind_eq_ok, pure_eq_ok] at h
        obtain ⟨rs, hrs, rfl⟩ := h
        intro e he
        rcases List.mem_cons.mp he with heq | he
        · cases heq
          exact ht
        · exact known_of_evalArgs as hrs e he
      | _ => cases h

end

end Known

end ParadigmTerra
